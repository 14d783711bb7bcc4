import Mathlib.Data.List.Nodup
import Mathlib.Data.List.Perm.Subperm
import TaskNetwork.Cascade

namespace TaskNetwork

theorem splitAtUnderscores_append {l : List Char} (hl : '_' ∉ l) (rest : List Char) :
    splitAtUnderscores (l ++ '_' :: '_' :: rest) = some (l, rest) := by
  induction l with
  | nil => rfl
  | cons c l ih =>
    obtain ⟨hc, hl⟩ := List.ne_and_not_mem_of_not_mem_cons hl
    rw [List.cons_append, splitAtUnderscores, ih hl]
    · rfl
    · intro k hk
      exact absurd hk.symm hc

theorem toList_numberedName {mark : String} {k : ℕ} {suffix : String} :
    (numberedName mark k suffix).toList =
      mark.toList ++ (Nat.toDigits 10 k ++ '_' :: '_' :: suffix.toList) := by
  have hline : "__".toList = ['_', '_'] := by decide +kernel
  simp [numberedName, String.toList_append, hline]

theorem numberedName_inj {mark : String} {j k : ℕ} {s t : String}
    (h : numberedName mark j s = numberedName mark k t) : j = k ∧ s = t := by
  have hlist := congrArg String.toList h
  rw [toList_numberedName, toList_numberedName] at hlist
  have hsplit := congrArg splitAtUnderscores (List.append_cancel_left hlist)
  rw [splitAtUnderscores_append Nat.underscore_not_in_toDigits,
    splitAtUnderscores_append Nat.underscore_not_in_toDigits] at hsplit
  obtain ⟨hdigits, hsuffix⟩ := Prod.mk.inj (Option.some.inj hsplit)
  refine ⟨?_, String.toList_inj.1 hsuffix⟩
  have hread := congrArg (fun ds => Nat.ofDigitChars 10 ds 0) hdigits
  simpa only [Nat.ofDigitChars_ten_toDigits] using hread

theorem prefix_numberedName {mark : String} {k : ℕ} {suffix : String} :
    mark.toList <+: (numberedName mark k suffix).toList := by
  rw [toList_numberedName]
  exact List.prefix_append _ _

theorem wordOfDigits?_toDigits {k : ℕ} (hk : k < UInt64.size) :
    wordOfDigits? (Nat.toDigits 10 k) = some k := by
  have hall : (Nat.toDigits 10 k).all Char.isDigit := by
    rw [List.all_eq_true]
    exact fun c hc => Nat.isDigit_of_mem_toDigits (by decide) (by decide) hc
  have hplus : ∀ ds, Nat.toDigits 10 k ≠ '+' :: ds := by
    intro ds h
    rw [h, List.all_cons] at hall
    exact absurd (Bool.and_eq_true_iff.1 hall).1 (by decide)
  have hread : Nat.ofDigitChars 10 (Nat.toDigits 10 k) 0 < UInt64.size := by
    rwa [Nat.ofDigitChars_ten_toDigits]
  rw [wordOfDigits?, if_pos ⟨Nat.toDigits_ne_nil, hall, hread⟩, Nat.ofDigitChars_ten_toDigits]
  exact hplus

theorem nameSeed_restMethodName {k : ℕ} (hk : k < UInt64.size) (suffix : String) :
    nameSeed (restMethodName k suffix) = (k + 1, suffix) := by
  have hmark : restMethodMark.toList.isPrefixOf (restMethodName k suffix).toList :=
    List.isPrefixOf_iff_prefix.2 prefix_numberedName
  have hdrop : (restMethodName k suffix).toList.drop restMethodMark.length =
      Nat.toDigits 10 k ++ '_' :: '_' :: suffix.toList := by
    rw [restMethodName, toList_numberedName, ← String.length_toList, List.drop_left]
  simp [nameSeed, restMethodCounter?, hmark, hdrop, guard,
    splitAtUnderscores_append Nat.underscore_not_in_toDigits, wordOfDigits?_toDigits hk]

theorem nameSeed_of_unmarked {name : String} (h : ¬restMethodMark.toList <+: name.toList) :
    nameSeed name = (0, name) := by
  have hmark : restMethodMark.toList.isPrefixOf name.toList = false := by
    rwa [Bool.eq_false_iff, ne_eq, List.isPrefixOf_iff_prefix]
  simp [nameSeed, restMethodCounter?, hmark, guard, failure]

theorem exists_free {taken : List String} {n : ℕ} (suffix : String) (seed : ℕ)
    (hn : taken.length < n) :
    ∃ k, seed ≤ k ∧ k < seed + n ∧ restTaskName k suffix ∉ taken := by
  by_contra! htaken
  have hnodup : ((List.range' seed n).map (restTaskName · suffix)).Nodup :=
    (List.nodup_range' ..).map fun _ _ h => (numberedName_inj h).1
  have hsub : (List.range' seed n).map (restTaskName · suffix) ⊆ taken := by
    intro name hname
    obtain ⟨k, hk, rfl⟩ := List.mem_map.1 hname
    obtain ⟨hle, hlt⟩ := List.mem_range'_1.1 hk
    exact htaken k hle hlt
  have hlen := (List.subperm_of_subset hnodup hsub).length_le
  rw [List.length_map, List.length_range'] at hlen
  omega

theorem freshCounter_spec (taken : List String) (suffix : String) (seed : ℕ) :
    restTaskName (freshCounter taken suffix seed) suffix ∉ taken ∧
      ∀ k, seed ≤ k → k < freshCounter taken suffix seed → restTaskName k suffix ∈ taken := by
  rw [freshCounter]
  cases hfind : (List.range' seed taken.length).find? fun k => restTaskName k suffix ∉ taken with
  | some k =>
    rw [List.find?_range'_eq_some] at hfind
    obtain ⟨hfree, -, hleast⟩ := hfind
    exact ⟨by simpa using hfree, fun j hj hjk => by simpa using hleast j hj hjk⟩
  | none =>
    rw [List.find?_range'_eq_none] at hfind
    have hall : ∀ k, seed ≤ k → k < seed + taken.length → restTaskName k suffix ∈ taken :=
      fun k hk hlt => by simpa using hfind k hk hlt
    refine ⟨fun hlast => ?_, hall⟩
    obtain ⟨k, hk, hlt, hfree⟩ := exists_free suffix seed (Nat.lt_succ_self taken.length)
    obtain heq | hne := Nat.eq_or_lt_of_le (Nat.le_of_lt_succ hlt)
    · rw [heq] at hfree
      exact hfree hlast
    · exact hfree (hall k hk hne)

end TaskNetwork
