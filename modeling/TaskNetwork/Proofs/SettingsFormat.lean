import Mathlib.Data.Option.Basic
import TaskNetwork.Proofs.WrittenTexts
import TaskNetwork.Settings.Format

namespace TaskNetwork

namespace Toml

/-- A text that is read as the value wherever it ends a line. -/
structure Writes (w : List Char) (v : Value) : Prop where
  skipBlanks_eq (rest : List Char) : skipBlanks (w ++ '\n' :: rest) = w ++ '\n' :: rest
  readValue_eq (n depth : Nat) (rest : List Char) :
    readValue (n + 1) depth (w ++ '\n' :: rest) = some (v, '\n' :: rest)

theorem skipBlanks_cons {c : Char} (hspace : c ≠ ' ') (htab : c ≠ '\t') (rest : List Char) :
    skipBlanks (c :: rest) = c :: rest := by
  simp [skipBlanks, hspace, htab]

theorem writes_truth (b : Bool) : Writes (Settings.writeTruth b) (.truth b) := by
  constructor
  · intro rest
    cases b <;> exact skipBlanks_cons (by decide) (by decide) _
  · intro n depth rest
    cases b <;> simp [Settings.writeTruth, readValue]

theorem writeTextAs_eq_cons (s : List Char) (form : TextForm) :
    ∃ q t, writeTextAs s form = q :: t ∧ (q = '"' ∨ q = '\'') := by
  cases form with
  | basic => exact ⟨'"', _, rfl, .inl rfl⟩
  | literal => exact ⟨'\'', _, rfl, .inr rfl⟩
  | basicBlock => exact ⟨'"', _, rfl, .inl rfl⟩
  | literalBlock => exact ⟨'\'', _, rfl, .inr rfl⟩

theorem writes_text {s : List Char} {form : TextForm} (h : form.Holds s) :
    Writes (writeTextAs s form) (.text (String.ofList s)) := by
  obtain ⟨q, t, hw, hq⟩ := writeTextAs_eq_cons s form
  have hread (rest : List Char) :
      readText (writeTextAs s form ++ '\n' :: rest) = some (s, '\n' :: rest) :=
    readText_writeTextAs h (by simp)
  rw [hw] at hread ⊢
  constructor
  · intro rest
    obtain rfl | rfl := hq <;> exact skipBlanks_cons (by decide) (by decide) _
  · intro n depth rest
    have ht := hread rest
    rw [List.cons_append] at ht ⊢
    obtain rfl | rfl := hq
    · rw [readValue]
      · rw [ht]
      all_goals simp
    · rw [readValue]
      · rw [ht]
      all_goals simp

theorem Document.define_free {d : Document} {place : Place} {name : String} (v : Value)
    (h : d.at? (place ++ [(name, 0)]) = none) :
    d.define place [] name v = some ((place ++ [(name, 0)], .value v) :: d) := by
  dsimp only [Document.define, Document.descend, guard, bind, Option.bind]
  rw [if_pos (.inl rfl), if_pos h]
  rfl

def IsBareKey (name : String) : Prop :=
  name.toList ≠ [] ∧ name.toList.all isBareKeyChar = true

theorem IsBareKey.toList_eq_cons {name : String} (h : IsBareKey name) :
    ∃ c cs, name.toList = c :: cs ∧ isBareKeyChar c = true := by
  obtain ⟨hne, hchars⟩ := h
  obtain ⟨c, cs, hname⟩ := List.exists_cons_of_ne_nil hne
  rw [hname, List.all_cons, Bool.and_eq_true] at hchars
  exact ⟨c, cs, hname, hchars.1⟩

theorem ne_of_isBareKeyChar {c d : Char} (hc : isBareKeyChar c = true)
    (hd : isBareKeyChar d = false) : c ≠ d := by
  rintro rfl
  rw [hc] at hd
  cases hd

theorem readSimpleKey_bare {name : String} (h : IsBareKey name) (rest : List Char) :
    readSimpleKey (name.toList ++ ' ' :: rest) = some (name, ' ' :: rest) := by
  have hchars := List.all_eq_true.1 h.2
  have htake : (name.toList ++ ' ' :: rest).takeWhile isBareKeyChar = name.toList := by
    rw [List.takeWhile_append_of_pos hchars]
    simp [isBareKeyChar]
  have hdrop : (name.toList ++ ' ' :: rest).dropWhile isBareKeyChar = ' ' :: rest := by
    rw [List.dropWhile_append_of_pos hchars]
    simp [isBareKeyChar]
  obtain ⟨c, cs, hname, hc⟩ := h.toList_eq_cons
  rw [readSimpleKey]
  · rw [htake, hdrop]
    split
    · exact absurd ‹_› h.1
    · rw [String.ofList_toList]
  · intro u hu
    rw [hname] at hu
    exact ne_of_isBareKeyChar hc (by decide) (List.cons.inj hu).1
  · intro u hu
    rw [hname] at hu
    exact ne_of_isBareKeyChar hc (by decide) (List.cons.inj hu).1

theorem readKey_bare {name : String} (h : IsBareKey name) (rest : List Char) :
    readKey (name.toList ++ ' ' :: '=' :: rest) = some ([], name, '=' :: rest) := by
  obtain ⟨c, cs, hname, hc⟩ := h.toList_eq_cons
  have hblanks : skipBlanks (name.toList ++ ' ' :: '=' :: rest)
      = name.toList ++ ' ' :: '=' :: rest := by
    rw [hname]
    exact skipBlanks_cons (ne_of_isBareKeyChar hc (by decide))
      (ne_of_isBareKeyChar hc (by decide)) _
  have hbehind : skipBlanks (' ' :: '=' :: rest) = '=' :: rest := by
    simp [skipBlanks]
  have hparts (n : Nat) : readKeyParts (n + 1) (name.toList ++ ' ' :: '=' :: rest)
      = some ([], name, '=' :: rest) := by
    simp [readKeyParts, hblanks, readSimpleKey_bare h, hbehind]
  exact hparts 78

theorem readLines_bare {n : Nat} {d d' : Document} {place : Place} {c : Char}
    {cs rest : List Char} (hc : isBareKeyChar c = true)
    (hpair : readPair d place (c :: cs) = some (d', '\n' :: rest)) :
    readLines (n + 1) d place (c :: cs) = readLines n d' place rest := by
  have hblanks : skipBlanks (c :: cs) = c :: cs :=
    skipBlanks_cons (ne_of_isBareKeyChar hc (by decide)) (ne_of_isBareKeyChar hc (by decide)) cs
  have hend : readLineEnd ('\n' :: rest) = some rest := by
    simp [readLineEnd, skipBlanks]
  rw [readLines, hblanks]
  split
  case h_6 => simp [hpair, hend]
  case h_1 h => cases h
  -- what the other cases start with is not part of a bare key
  all_goals
    rename_i h
    exact absurd (List.cons.inj h).1 (ne_of_isBareKeyChar hc (by decide))

end Toml

namespace Settings

open Toml

theorem readLines_writeLine {n : Nat} {d : Document} {place : Place} {name : String}
    {w : List Char} {v : Value} (hname : IsBareKey name) (hw : Writes w v)
    (hfree : d.at? (place ++ [(name, 0)]) = none) (rest : List Char) :
    readLines (n + 1) d place (writeLine name w ++ rest)
      = readLines n ((place ++ [(name, 0)], .value v) :: d) place rest := by
  obtain ⟨c, cs, hcons, hc⟩ := hname.toList_eq_cons
  have hline : writeLine name w ++ rest
      = name.toList ++ ' ' :: '=' :: ' ' :: (w ++ '\n' :: rest) := by
    simp [writeLine]
  have hbehind : skipBlanks (' ' :: (w ++ '\n' :: rest)) = w ++ '\n' :: rest :=
    hw.skipBlanks_eq rest
  have hdefine := Document.define_free v hfree
  have hpair : readPair d place (writeLine name w ++ rest)
      = some ((place ++ [(name, 0)], .value v) :: d, '\n' :: rest) := by
    rw [hline, readPair, readKey_bare hname]
    simp [expect, hbehind, hw.readValue_eq, hdefine]
  rw [hline, hcons] at hpair ⊢
  exact readLines_bare hc hpair

def written (s : Settings) : Document :=
  [([("report_statistics", 0)], .value (.truth s.reportStatistics)),
    ([("two_regularize", 0)], .value (.truth s.twoRegularize)),
    ([("infer_preconditions", 0)], .value (.truth s.inferPreconditions)),
    ([("top_task", 0)], .value (.text s.topTask))]

theorem readDocument_linesWith {s : Settings} {w : List Char} (hw : Writes w (.text s.topTask)) :
    readDocument (s.linesWith w) = some s.written := by
  have hlines (n : Nat) : readLines (n + 5) [] [] (s.linesWith w) = some s.written := by
    rw [linesWith, List.append_assoc, List.append_assoc,
      readLines_writeLine ⟨by decide, rfl⟩ hw rfl,
      readLines_writeLine ⟨by decide, rfl⟩ (writes_truth _) rfl,
      readLines_writeLine ⟨by decide, rfl⟩ (writes_truth _) rfl,
      ← List.append_nil (writeLine "report_statistics" _),
      readLines_writeLine ⟨by decide, rfl⟩ (writes_truth _) rfl]
    rfl
  have hmark : dropByteOrderMark (s.linesWith w) = s.linesWith w := rfl
  have hlength : (s.linesWith w).length = ((s.linesWith w).length - 4) + 4 := by
    have h : 4 ≤ (s.linesWith w).length := by
      simp only [linesWith, writeLine, List.length_append, List.length_singleton]
      omega
    omega
  rw [readDocument, hmark, hlength]
  exact hlines _

theorem ofToml?_linesWith {s : Settings} {form : TextForm} (h : form.Holds s.topTask.toList) :
    ofToml? (s.linesWith (writeTextAs s.topTask.toList form)) = some s := by
  have hw : Writes (writeTextAs s.topTask.toList form) (.text s.topTask) := by
    have hw := writes_text h
    rwa [String.ofList_toList] at hw
  rw [ofToml?, readDocument_linesWith hw]
  rfl

theorem load_ofList {text : List Char} {s : Settings} (h : ofToml? text = some s)
    (path : String) : load path (some (String.ofList text)) = .ok s := by
  simp [load, h]

/-- Settings are loaded as they were saved, whatever the string in them is and in whichever form it
is written. -/
theorem load_saved {write : List Char → Option (List Char)} (hwrite : WritesForms write)
    (s : Settings) :
    ∃ text, s.toToml write = .ok text ∧ ofToml? text = some s ∧
      ∀ path, load path (some (String.ofList text)) = .ok s := by
  obtain ⟨form, hform, hw⟩ := hwrite s.topTask.toList
  have hread := ofToml?_linesWith hform
  refine ⟨_, ?_, hread, load_ofList hread⟩
  rw [toToml, hw]

/-- A top task with both kinds of quotes, a backslash and several lines, of which the first one is
empty. -/
def quotedTopTask : Settings where
  topTask := "\n''\"\"\" \\\t\x07\n"
  inferPreconditions := false

theorem load_saved_quotedTopTask :
    WritesForms (fun s => some (quoteText s)) ∧
    ∃ text, quotedTopTask.toToml (fun s => some (quoteText s)) = .ok text ∧
      ofToml? text = some quotedTopTask ∧
      ∀ path, load path (some (String.ofList text)) = .ok quotedTopTask :=
  ⟨writesForms_quoteText, load_saved writesForms_quoteText quotedTopTask⟩

end Settings

end TaskNetwork
