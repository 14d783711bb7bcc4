import TaskNetwork.Toml.Text

namespace TaskNetwork

theorem char?_toNat (c : Char) : char? c.toNat = some c :=
  dif_pos c.valid

namespace Toml

theorem hexDigit?_hexDigit : ∀ n < 16, hexDigit? (hexDigit n) = some n := by decide

theorem hexValue?_of_lt {n : Nat} (h : n < 256) :
    hexValue? ['0', '0', hexDigit (n / 16), hexDigit (n % 16)] = some n := by
  have hzero : hexDigit? '0' = some 0 := by decide
  have hhigh := hexDigit?_hexDigit (n / 16) (by omega)
  have hlow := hexDigit?_hexDigit (n % 16) (by omega)
  simp only [hexValue?, List.foldlM_cons, List.foldlM_nil, hzero, hhigh, hlow, Option.map_some,
    Option.bind_eq_bind, Option.bind_some, Option.pure_def, Option.some.injEq]
  omega

/-- What is written between double quotes for a character that is not one itself: the character, a
backslash with a letter that stands for it, or its code. -/
theorem escape_cases (block : Bool) {c : Char} (hc : c ≠ '"') :
    (escape block c = [c] ∧ c ≠ '\\' ∧ isControl c = false ∧ (c = '\n' → block = true)) ∨
      (∃ e, escape block c = ['\\', e] ∧ unescape? e = some c) ∨
      ∃ w, escape block c = '\\' :: 'u' :: w ∧ w.length = 4 ∧ hexValue? w = some c.toNat := by
  by_cases hslash : c = '\\'
  · exact .inr (.inl ⟨'\\', by simp [escape, hslash], by rw [hslash]; rfl⟩)
  by_cases hline : c = '\n'
  · subst hline
    cases block with
    | true => exact .inl ⟨rfl, by decide, by decide, fun _ => rfl⟩
    | false => exact .inr (.inl ⟨'n', rfl, rfl⟩)
  by_cases htab : c = '\t'
  · subst htab
    exact .inr (.inl ⟨'t', rfl, rfl⟩)
  by_cases hreturn : c = '\r'
  · subst hreturn
    exact .inr (.inl ⟨'r', rfl, rfl⟩)
  by_cases hback : c = '\x08'
  · subst hback
    exact .inr (.inl ⟨'b', rfl, rfl⟩)
  by_cases hfeed : c = '\x0c'
  · subst hfeed
    exact .inr (.inl ⟨'f', rfl, rfl⟩)
  by_cases hcontrol : isControl c
  · have hsmall : c.toNat < 256 := by
      simp only [isControl, Bool.or_eq_true, Bool.and_eq_true, decide_eq_true_eq, beq_iff_eq]
        at hcontrol
      omega
    refine .inr (.inr ⟨_, ?_, rfl, hexValue?_of_lt hsmall⟩)
    simp only [escape, hslash, hline, htab, hreturn, hback, hfeed, hcontrol, if_false, if_true]
  · refine .inl ⟨?_, hslash, by simpa using hcontrol, fun h => absurd h hline⟩
    simp only [escape, hslash, hline, htab, hreturn, hback, hfeed, hcontrol, if_false,
      Bool.false_eq_true]

theorem escapeAll_quote {n : Nat} (hn : n < 2) (s : List Char) :
    escapeAll true n ('"' :: s) = '"' :: escapeAll true (n + 1) s := by
  simp [escapeAll, hn]

theorem escapeAll_escaped {block : Bool} {n : Nat} (h : ¬ (block = true ∧ n < 2))
    (s : List Char) : escapeAll block n ('"' :: s) = '\\' :: '"' :: escapeAll block 0 s := by
  simp only [escapeAll, if_true, Bool.and_eq_true, decide_eq_true_eq, h, if_false]

theorem readBasic_self {c : Char} (hquote : c ≠ '"') (hslash : c ≠ '\\')
    (hcontrol : isControl c = false) (hline : c ≠ '\n') (rest : List Char) :
    readBasic (c :: rest) = consRead c (readBasic rest) := by
  rw [readBasic]
  · simp [hcontrol, hline, hslash]
  all_goals grind

theorem readBasic_letter {e c : Char} (h : unescape? e = some c) (rest : List Char) :
    readBasic ('\\' :: e :: rest) = consRead c (readBasic rest) := by
  rw [readBasic]
  · simp [h]
  all_goals
    rintro _ _ _ _
    grind [unescape?]

theorem readBasic_code {w : List Char} {c : Char} (hlen : w.length = 4)
    (h : hexValue? w = some c.toNat) (rest : List Char) :
    readBasic ('\\' :: 'u' :: w ++ rest) = consRead c (readBasic rest) := by
  match w, hlen with
  | [a, b, d, e], _ => simp [readBasic, h, char?_toNat]

theorem readBasic_escape {c : Char} (hc : c ≠ '"') (rest : List Char) :
    readBasic (escape false c ++ rest) = consRead c (readBasic rest) := by
  obtain ⟨he, hslash, hcontrol, hline⟩ | ⟨e, he, h⟩ | ⟨w, he, hlen, h⟩ := escape_cases false hc
  · rw [he]
    exact readBasic_self hc hslash hcontrol (fun h => absurd (hline h) (by decide)) rest
  · rw [he]
    exact readBasic_letter h rest
  · rw [he]
    exact readBasic_code hlen h rest

theorem readBasic_escapeAll (n : Nat) (s rest : List Char) :
    readBasic (escapeAll false n s ++ '"' :: rest) = some (s, rest) := by
  induction s generalizing n with
  | nil => rfl
  | cons c s ih =>
    by_cases hc : c = '"'
    · have hquote : unescape? '"' = some '"' := rfl
      rw [hc, escapeAll_escaped (by simp), List.cons_append, List.cons_append,
        readBasic_letter hquote, ih]
      rfl
    · rw [escapeAll, if_neg hc, List.append_assoc, readBasic_escape hc, ih]
      rfl

theorem readBasicBlock_self {c : Char} {rest : List Char} (hquote : c = '"' → ¬ ['"', '"'] <+: rest)
    (hslash : c ≠ '\\') (hcontrol : isControl c = false) :
    readBasicBlock false (c :: rest) = consRead c (readBasicBlock false rest) := by
  have hreturn : c ≠ '\r' := by
    rintro rfl
    exact absurd hcontrol (by decide)
  rw [readBasicBlock]
  · simp [hcontrol, hslash]
  · rintro rest' rfl rfl
    exact hquote rfl ⟨rest', rfl⟩
  all_goals grind

theorem readBasicBlock_letter {e c : Char} (h : unescape? e = some c) (rest : List Char) :
    readBasicBlock false ('\\' :: e :: rest) = consRead c (readBasicBlock false rest) := by
  have hend : lineEnds (e :: rest) = false := by
    unfold unescape? at h
    split at h
    all_goals first
      | rfl
      | cases h
  rw [readBasicBlock]
  · simp [h, hend]
  all_goals
    rintro _ _ _ _
    grind [unescape?]

theorem readBasicBlock_code {w : List Char} {c : Char} (hlen : w.length = 4)
    (h : hexValue? w = some c.toNat) (rest : List Char) :
    readBasicBlock false ('\\' :: 'u' :: w ++ rest) = consRead c (readBasicBlock false rest) := by
  match w, hlen with
  | [a, b, d, e], _ => simp [readBasicBlock, h, char?_toNat]

theorem readBasicBlock_escape {c : Char} (hc : c ≠ '"') (rest : List Char) :
    readBasicBlock false (escape true c ++ rest) = consRead c (readBasicBlock false rest) := by
  obtain ⟨he, hslash, hcontrol, -⟩ | ⟨e, he, h⟩ | ⟨w, he, hlen, h⟩ := escape_cases true hc
  · rw [he]
    exact readBasicBlock_self (fun h => absurd h hc) hslash hcontrol
  · rw [he]
    exact readBasicBlock_letter h rest
  · rw [he]
    exact readBasicBlock_code hlen h rest

/-- What is written for a string starts with a quote, which happens in a block only and behind less
than two quotes, with a backslash, or with the first character of the string. -/
theorem escapeAll_cases (block : Bool) (n : Nat) (c : Char) (s : List Char) :
    (c = '"' ∧ block = true ∧ n < 2 ∧
        escapeAll block n (c :: s) = '"' :: escapeAll block (n + 1) s) ∨
      (∃ w, escapeAll block n (c :: s) = '\\' :: w) ∨
      c ≠ '"' ∧ isControl c = false ∧ escapeAll block n (c :: s) = c :: escapeAll block 0 s := by
  by_cases hc : c = '"'
  · subst hc
    by_cases hn : block = true ∧ n < 2
    · obtain ⟨rfl, hn⟩ := hn
      exact .inl ⟨rfl, rfl, hn, escapeAll_quote hn s⟩
    · exact .inr (.inl ⟨_, escapeAll_escaped hn s⟩)
  · rw [escapeAll, if_neg hc]
    obtain ⟨he, -, hcontrol, -⟩ | ⟨e, he, -⟩ | ⟨w, he, -, -⟩ := escape_cases block hc
    · rw [he]
      exact .inr (.inr ⟨hc, hcontrol, rfl⟩)
    · rw [he]
      exact .inr (.inl ⟨_, rfl⟩)
    · rw [he]
      exact .inr (.inl ⟨_, rfl⟩)

theorem escapeAll_eq_quote {block : Bool} {n : Nat} {s t : List Char}
    (h : escapeAll block n s = '"' :: t) :
    block = true ∧ n < 2 ∧ ∃ s', s = '"' :: s' ∧ t = escapeAll block (n + 1) s' := by
  cases s with
  | nil => cases h
  | cons c s =>
    obtain ⟨rfl, hblock, hn, he⟩ | ⟨w, he⟩ | ⟨hc, -, he⟩ := escapeAll_cases block n c s
    · rw [he] at h
      exact ⟨hblock, hn, s, rfl, (List.cons.inj h).2.symm⟩
    · rw [he] at h
      exact absurd (List.cons.inj h).1 (by decide)
    · rw [he] at h
      exact absurd (List.cons.inj h).1 hc

theorem head_escapeAll {block : Bool} {n : Nat} {s t : List Char} {c : Char}
    (h : escapeAll block n s = c :: t) :
    c = '"' ∨ c = '\\' ∨ (s.head? = some c ∧ isControl c = false) := by
  cases s with
  | nil => cases h
  | cons d s =>
    obtain ⟨-, -, -, he⟩ | ⟨w, he⟩ | ⟨-, hcontrol, he⟩ := escapeAll_cases block n d s
    · rw [he] at h
      exact .inl (List.cons.inj h).1.symm
    · rw [he] at h
      exact .inr (.inl (List.cons.inj h).1.symm)
    · rw [he] at h
      obtain rfl := (List.cons.inj h).1
      exact .inr (.inr ⟨rfl, hcontrol⟩)

theorem escapeAll_eq_nil {block : Bool} {n : Nat} {s : List Char} (h : escapeAll block n s = []) :
    s = [] := by
  cases s with
  | nil => rfl
  | cons c s =>
    obtain ⟨-, -, -, he⟩ | ⟨w, he⟩ | ⟨-, -, he⟩ := escapeAll_cases block n c s
    all_goals
      rw [he] at h
      cases h

theorem not_quotes_prefix_escapeAll (n : Nat) (s : List Char) :
    ¬ ['"', '"'] <+: escapeAll true (n + 1) s := by
  rintro ⟨t, ht⟩
  obtain ⟨-, h₁, s₁, -, ht₁⟩ := escapeAll_eq_quote ht.symm
  obtain ⟨-, h₂, -⟩ := escapeAll_eq_quote ht₁.symm
  omega

/-- Two quotes in front of a text and the three that close it, where the text itself does not start
with two, are the last ones of the text and the first ones behind it. -/
theorem eq_of_quotes_prefix {q : Char} {t rest : List Char} (ht : ¬ [q, q] <+: t)
    (h : [q, q] <+: t ++ q :: q :: q :: rest) : t = [] ∨ t = [q] := by
  match t with
  | [] => exact .inl rfl
  | [c] =>
    obtain ⟨u, hu⟩ := h
    rw [← (List.cons.inj hu).1]
    exact .inr rfl
  | c :: d :: t =>
    obtain ⟨u, hu⟩ := h
    obtain ⟨hc, hu⟩ := List.cons.inj hu
    rw [← hc, ← (List.cons.inj hu).1] at ht
    exact absurd ⟨t, rfl⟩ ht

theorem replicate_append_quotes (k : Nat) (q : Char) (rest : List Char) :
    List.replicate k q ++ q :: q :: q :: rest = q :: q :: q :: (List.replicate k q ++ rest) := by
  induction k with
  | zero => rfl
  | succ k ih =>
    rw [List.replicate_succ, List.cons_append, ih]
    rfl

theorem closeBlock_replicate {q : Char} {k : Nat} {rest : List Char} (hk : k ≤ 2)
    (hrest : rest.head? ≠ some q) :
    closeBlock q (List.replicate k q ++ rest) = (List.replicate k q, rest) := by
  match k, rest with
  | 0, [] => rfl
  | 0, [a] => simp_all [closeBlock]
  | 0, a :: b :: rest => simp_all [closeBlock]
  | 1, [] => simp [closeBlock, List.replicate]
  | 1, a :: rest => simp_all [closeBlock, List.replicate]
  | 2, rest => simp [closeBlock, List.replicate]

theorem readBasicBlock_quotes {k : Nat} {rest : List Char} (hk : k ≤ 2)
    (hrest : rest.head? ≠ some '"') :
    readBasicBlock false (List.replicate k '"' ++ '"' :: '"' :: '"' :: rest)
      = some (List.replicate k '"', rest) := by
  have hread (u : List Char) :
      readBasicBlock false ('"' :: '"' :: '"' :: u) = some (closeBlock '"' u) := by
    rw [readBasicBlock]
  rw [replicate_append_quotes, hread, closeBlock_replicate hk hrest]

theorem readBasicBlock_escapeAll (n : Nat) (s : List Char) {rest : List Char}
    (hrest : rest.head? ≠ some '"') :
    readBasicBlock false (escapeAll true n s ++ '"' :: '"' :: '"' :: rest) = some (s, rest) := by
  induction s generalizing n with
  | nil => exact readBasicBlock_quotes (Nat.zero_le 2) hrest
  | cons c s ih =>
    by_cases hc : c = '"'
    · by_cases hn : n < 2
      · rw [hc, escapeAll_quote hn]
        -- three quotes in a row close the block also where the first ones belong to it
        by_cases hclose : ['"', '"'] <+: escapeAll true (n + 1) s ++ '"' :: '"' :: '"' :: rest
        · obtain h | h := eq_of_quotes_prefix (not_quotes_prefix_escapeAll n s) hclose
          · rw [escapeAll_eq_nil h]
            exact readBasicBlock_quotes (k := 1) (by decide) hrest
          · obtain ⟨-, -, s', rfl, h'⟩ := escapeAll_eq_quote h
            rw [h, escapeAll_eq_nil h'.symm]
            exact readBasicBlock_quotes (k := 2) (by decide) hrest
        · rw [List.cons_append, readBasicBlock_self (fun _ => hclose) (by decide) (by decide), ih]
          rfl
      · have hquote : unescape? '"' = some '"' := rfl
        rw [hc, escapeAll_escaped fun h => hn h.2, List.cons_append, List.cons_append,
          readBasicBlock_letter hquote, ih]
        rfl
    · rw [escapeAll, if_neg hc, List.append_assoc, readBasicBlock_escape hc, ih]
      rfl

theorem readLiteral_append {s : List Char} (hquote : '\'' ∉ s) (hline : '\n' ∉ s)
    (hcontrol : ∀ c ∈ s, isControl c = false) (rest : List Char) :
    readLiteral (s ++ '\'' :: rest) = some (s, rest) := by
  induction s with
  | nil => rfl
  | cons c s ih =>
    rw [List.mem_cons, not_or] at hquote hline
    have hc := hcontrol c (List.mem_cons_self ..)
    rw [List.cons_append, readLiteral]
    · rw [ih hquote.2 hline.2 fun d hd => hcontrol d (List.mem_cons_of_mem c hd)]
      simp [hc, Ne.symm hline.1, consRead]
    · rintro rfl
      exact hquote.1 rfl

theorem readLiteralBlock_self {c : Char} {rest : List Char}
    (hquote : c = '\'' → ¬ ['\'', '\''] <+: rest) (hcontrol : isControl c = false) :
    readLiteralBlock (c :: rest) = consRead c (readLiteralBlock rest) := by
  have hreturn : c ≠ '\r' := by
    rintro rfl
    exact absurd hcontrol (by decide)
  rw [readLiteralBlock]
  · simp [hcontrol]
  · rintro rest' rfl rfl
    exact hquote rfl ⟨rest', rfl⟩
  all_goals grind

theorem readLiteralBlock_quotes {k : Nat} {rest : List Char} (hk : k ≤ 2)
    (hrest : rest.head? ≠ some '\'') :
    readLiteralBlock (List.replicate k '\'' ++ '\'' :: '\'' :: '\'' :: rest)
      = some (List.replicate k '\'', rest) := by
  have hread (u : List Char) :
      readLiteralBlock ('\'' :: '\'' :: '\'' :: u) = some (closeBlock '\'' u) := by
    rw [readLiteralBlock]
  rw [replicate_append_quotes, hread, closeBlock_replicate hk hrest]

theorem not_quotes_prefix_of_runsWithin {q : Char} {n : Nat} {s : List Char}
    (h : runsWithin 2 q (n + 1) s) : ¬ [q, q] <+: s := by
  rintro ⟨t, rfl⟩
  simp only [List.cons_append, runsWithin, if_true, Bool.and_eq_true, decide_eq_true_eq] at h
  omega

theorem readLiteralBlock_append (n : Nat) {s rest : List Char} (hrun : runsWithin 2 '\'' n s)
    (hcontrol : ∀ c ∈ s, isControl c = false) (hrest : rest.head? ≠ some '\'') :
    readLiteralBlock (s ++ '\'' :: '\'' :: '\'' :: rest) = some (s, rest) := by
  induction s generalizing n with
  | nil => exact readLiteralBlock_quotes (Nat.zero_le 2) hrest
  | cons c s ih =>
    have hc := hcontrol c (List.mem_cons_self ..)
    have hs : ∀ d ∈ s, isControl d = false := fun d hd => hcontrol d (List.mem_cons_of_mem c hd)
    by_cases hquote : c = '\''
    · subst hquote
      have hnext : runsWithin 2 '\'' (n + 1) s := by
        simp only [runsWithin, if_true, Bool.and_eq_true] at hrun
        exact hrun.2
      by_cases hclose : ['\'', '\''] <+: s ++ '\'' :: '\'' :: '\'' :: rest
      · obtain rfl | rfl := eq_of_quotes_prefix (not_quotes_prefix_of_runsWithin hnext) hclose
        · exact readLiteralBlock_quotes (k := 1) (by decide) hrest
        · exact readLiteralBlock_quotes (k := 2) (by decide) hrest
      · rw [List.cons_append, readLiteralBlock_self (fun _ => hclose) hc, ih (n + 1) hnext hs]
        rfl
    · have hnext : runsWithin 2 '\'' 0 s := by simpa [runsWithin, hquote] using hrun
      rw [List.cons_append, readLiteralBlock_self (fun h => absurd h hquote) hc, ih 0 hnext hs]
      rfl

/-- Whether a string can be written in a form. Between single quotes nothing stands for what cannot
be written as it is. -/
def TextForm.Holds (s : List Char) : TextForm → Prop
  | .basic | .basicBlock => True
  | .literal => (∀ c ∈ s, isControl c = false) ∧ '\'' ∉ s ∧ '\n' ∉ s
  | .literalBlock => (∀ c ∈ s, isControl c = false) ∧ runsWithin 2 '\'' 0 s

theorem dropLineEnd_blockStart {s t : List Char}
    (h : '\n' ∉ s → t.head? ≠ some '\n' ∧ t.head? ≠ some '\r') :
    dropLineEnd (blockStart s ++ t) = t := by
  by_cases hs : '\n' ∈ s
  · simp [blockStart, hs, dropLineEnd]
  · obtain ⟨hline, hreturn⟩ := h hs
    have hstart : blockStart s = [] := by simp [blockStart, hs]
    rw [hstart, List.nil_append]
    unfold dropLineEnd
    split <;> simp_all

theorem TextForm.holds_of (s : List Char) : (TextForm.of s).Holds s := by
  have hplain (h : s.any isControl = false) : ∀ c ∈ s, isControl c = false := by
    simpa using h
  simp only [TextForm.of]
  split
  · trivial
  split
  · rename_i h
    simp only [Bool.and_eq_true, Bool.not_eq_true', List.contains_eq_mem, decide_eq_false_iff_not]
      at h
    exact ⟨hplain h.1.1, h.1.2, h.2⟩
  split
  · trivial
  split
  · rename_i h
    simp only [Bool.and_eq_true, Bool.not_eq_true'] at h
    exact ⟨hplain h.1, h.2⟩
  split <;> trivial

/-- A writer of strings that writes each string in one of the forms, one that can hold it. -/
def WritesForms (write : List Char → Option (List Char)) : Prop :=
  ∀ s, ∃ form : TextForm, form.Holds s ∧ write s = some (writeTextAs s form)

theorem writesForms_quoteText : WritesForms fun s => some (quoteText s) :=
  fun s => ⟨.of s, TextForm.holds_of s, rfl⟩

theorem readText_basic (s : List Char) {rest : List Char} (hrest : rest.head? ≠ some '"') :
    readText (writeTextAs s .basic ++ rest) = some (s, rest) := by
  have hread (t : List Char) (ht : ¬ ['"', '"'] <+: t) : readText ('"' :: t) = readBasic t := by
    rw [readText]
    rintro u rfl
    exact ht ⟨u, rfl⟩
  simp only [writeTextAs, List.cons_append, List.append_assoc, List.nil_append]
  rw [hread, readBasic_escapeAll]
  rintro ⟨u, hu⟩
  cases hw : escapeAll false 0 s with
  | nil =>
    rw [hw] at hu
    exact hrest (by rw [← (List.cons.inj hu).2]; rfl)
  | cons c t =>
    rw [hw] at hu
    rw [← (List.cons.inj hu).1] at hw
    exact absurd (escapeAll_eq_quote hw).1 (by decide)

theorem readText_literal {s rest : List Char} (h : TextForm.literal.Holds s)
    (hrest : rest.head? ≠ some '\'') :
    readText (writeTextAs s .literal ++ rest) = some (s, rest) := by
  obtain ⟨hcontrol, hquote, hline⟩ := h
  have hread (t : List Char) (ht : ¬ ['\'', '\''] <+: t) :
      readText ('\'' :: t) = readLiteral t := by
    rw [readText]
    rintro u rfl
    exact ht ⟨u, rfl⟩
  simp only [writeTextAs, List.cons_append, List.append_assoc, List.nil_append]
  rw [hread, readLiteral_append hquote hline hcontrol]
  rintro ⟨u, hu⟩
  cases s with
  | nil => exact hrest (by rw [← (List.cons.inj hu).2]; rfl)
  | cons c s =>
    rw [← (List.cons.inj hu).1] at hquote
    exact hquote (List.mem_cons_self ..)

theorem readText_basicBlock (s : List Char) {rest : List Char} (hrest : rest.head? ≠ some '"') :
    readText (writeTextAs s .basicBlock ++ rest) = some (s, rest) := by
  have hread (t : List Char) :
      readText ('"' :: '"' :: '"' :: t) = readBasicBlock false (dropLineEnd t) := rfl
  simp only [writeTextAs, List.cons_append, List.append_assoc, List.nil_append]
  rw [hread, dropLineEnd_blockStart, readBasicBlock_escapeAll 0 s hrest]
  intro hline
  cases hw : escapeAll true 0 s with
  | nil => simp
  | cons c t =>
    obtain hfront | hfront | ⟨hfront, hcontrol⟩ := head_escapeAll hw
    · simp [hfront]
    · simp [hfront]
    · refine ⟨fun h => ?_, fun h => ?_⟩
      · rw [Option.some.inj h] at hfront
        exact hline (List.mem_of_head? hfront)
      · rw [Option.some.inj h] at hcontrol
        exact absurd hcontrol (by decide)

theorem readText_literalBlock {s rest : List Char} (h : TextForm.literalBlock.Holds s)
    (hrest : rest.head? ≠ some '\'') :
    readText (writeTextAs s .literalBlock ++ rest) = some (s, rest) := by
  obtain ⟨hcontrol, hrun⟩ := h
  have hread (t : List Char) :
      readText ('\'' :: '\'' :: '\'' :: t) = readLiteralBlock (dropLineEnd t) := rfl
  simp only [writeTextAs, List.cons_append, List.append_assoc, List.nil_append]
  rw [hread, dropLineEnd_blockStart, readLiteralBlock_append 0 hrun hcontrol hrest]
  intro hline
  cases s with
  | nil => simp
  | cons c s =>
    have hc := hcontrol c (List.mem_cons_self ..)
    refine ⟨fun h => ?_, fun h => ?_⟩
    · rw [Option.some.inj h] at hline
      exact hline (List.mem_cons_self ..)
    · rw [Option.some.inj h] at hc
      exact absurd hc (by decide)

/-- Read back, a string that was written in a form that can hold it is the same string. -/
theorem readText_writeTextAs {s rest : List Char} {form : TextForm} (h : form.Holds s)
    (hrest : ∀ q ∈ rest.head?, q ≠ '"' ∧ q ≠ '\'') :
    readText (writeTextAs s form ++ rest) = some (s, rest) := by
  have hdouble : rest.head? ≠ some '"' := fun h => (hrest _ h).1 rfl
  have hsingle : rest.head? ≠ some '\'' := fun h => (hrest _ h).2 rfl
  cases form with
  | basic => exact readText_basic s hdouble
  | literal => exact readText_literal h hsingle
  | basicBlock => exact readText_basicBlock s hdouble
  | literalBlock => exact readText_literalBlock h hsingle

end Toml

end TaskNetwork
