namespace TaskNetwork

variable {α : Type} [LT α]

abbrev Increasing (l : List α) : Prop := l.Pairwise (· < ·)

variable [DecidableLT α] [DecidableEq α]

def insertIncreasing (a : α) : List α → List α
  | [] => [a]
  | b :: l => if a < b then a :: b :: l else if a = b then b :: l else b :: insertIncreasing a l

/-- Merges the list of `a` and later members with another one. What is left of that when `a` has
found its place is for `mergeRest` to merge with the later members. -/
def mergeFrom (mergeRest : List α → List α) (a : α) : List α → List α
  | [] => a :: mergeRest []
  | b :: k =>
    if a < b then a :: mergeRest (b :: k)
    else if a = b then a :: mergeRest k
    else b :: mergeFrom mergeRest a k

def mergeIncreasing : List α → List α → List α
  | [], k => k
  | a :: l, k => mergeFrom (mergeIncreasing l) a k

def increasingWithin : Nat → List α → List α
  | 0, l => l.foldr insertIncreasing []
  | n + 1, l =>
    let half := l.length / 2
    mergeIncreasing (increasingWithin n (l.take half)) (increasingWithin n (l.drop half))

/-- The members of a list in increasing order, each once. -/
def increasing (l : List α) : List α := increasingWithin l.length.log2 l

@[simp] theorem mem_insertIncreasing {a b : α} {l : List α} :
    b ∈ insertIncreasing a l ↔ b = a ∨ b ∈ l := by
  induction l with
  | nil => simp [insertIncreasing]
  | cons c l ih => grind [insertIncreasing]

theorem mem_mergeFrom {mergeRest : List α → List α} {l : List α}
    (h : ∀ c k, c ∈ mergeRest k ↔ c ∈ l ∨ c ∈ k) {a c : α} {k : List α} :
    c ∈ mergeFrom mergeRest a k ↔ c ∈ a :: l ∨ c ∈ k := by
  induction k with
  | nil => simp [mergeFrom, h]
  | cons b k ih => grind [mergeFrom]

@[simp] theorem mem_mergeIncreasing {c : α} {l k : List α} :
    c ∈ mergeIncreasing l k ↔ c ∈ l ∨ c ∈ k := by
  induction l generalizing c k with
  | nil => simp [mergeIncreasing]
  | cons a l ih => exact mem_mergeFrom fun _ _ => ih

theorem mem_increasingWithin {n : Nat} {a : α} {l : List α} : a ∈ increasingWithin n l ↔ a ∈ l := by
  induction n generalizing l with
  | zero =>
    induction l with
    | nil => simp [increasingWithin]
    | cons b l ih => simp_all [increasingWithin]
  | succ n ih =>
    rw [increasingWithin, mem_mergeIncreasing, ih, ih, ← List.mem_append, List.take_append_drop]

@[simp] theorem mem_increasing {a : α} {l : List α} : a ∈ increasing l ↔ a ∈ l :=
  mem_increasingWithin

variable [Trans (α := α) (· < ·) (· < ·) (· < ·)] [Std.Trichotomous (α := α) (· < ·)]

theorem increasing_insertIncreasing (a : α) {l : List α} (h : Increasing l) :
    Increasing (insertIncreasing a l) := by
  induction l with
  | nil => simp [insertIncreasing, Increasing]
  | cons b l ih =>
    have hb : ∀ c ∈ l, b < c := (List.pairwise_cons.1 h).1
    have hl : Increasing l := (List.pairwise_cons.1 h).2
    simp only [insertIncreasing]
    split
    · next hab =>
      refine List.pairwise_cons.2 ⟨fun c hc => ?_, h⟩
      obtain rfl | hc := List.mem_cons.1 hc
      · exact hab
      · exact Trans.trans hab (hb c hc)
    · next hab =>
      split
      · exact h
      · next hne =>
        have hba : b < a := Decidable.byContradiction fun hba =>
          hne (Std.Trichotomous.trichotomous a b hab hba)
        refine List.pairwise_cons.2 ⟨fun c hc => ?_, ih hl⟩
        obtain rfl | hc := mem_insertIncreasing.1 hc
        · exact hba
        · exact hb c hc

theorem increasing_mergeFrom {mergeRest : List α → List α} {a : α} {l : List α}
    (hmem : ∀ c k, c ∈ mergeRest k ↔ c ∈ l ∨ c ∈ k)
    (hinc : ∀ k, Increasing k → Increasing (mergeRest k)) (hl : ∀ c ∈ l, a < c) {k : List α}
    (hk : Increasing k) : Increasing (mergeFrom mergeRest a k) := by
  induction k with
  | nil =>
    refine List.pairwise_cons.2 ⟨fun c hc => ?_, hinc [] hk⟩
    obtain hc | hc := (hmem c []).1 hc
    · exact hl c hc
    · simp at hc
  | cons b k ih =>
    have hbk : ∀ c ∈ k, b < c := (List.pairwise_cons.1 hk).1
    have hk' : Increasing k := (List.pairwise_cons.1 hk).2
    simp only [mergeFrom]
    split
    · next hab =>
      refine List.pairwise_cons.2 ⟨fun c hc => ?_, hinc _ hk⟩
      obtain hc | hc := (hmem c _).1 hc
      · exact hl c hc
      · obtain rfl | hc := List.mem_cons.1 hc
        · exact hab
        · exact Trans.trans hab (hbk c hc)
    · next hab =>
      split
      · next heq =>
        refine List.pairwise_cons.2 ⟨fun c hc => ?_, hinc _ hk'⟩
        obtain hc | hc := (hmem c _).1 hc
        · exact hl c hc
        · exact heq ▸ hbk c hc
      · next hne =>
        have hba : b < a := Decidable.byContradiction fun hba =>
          hne (Std.Trichotomous.trichotomous a b hab hba)
        refine List.pairwise_cons.2 ⟨fun c hc => ?_, ih hk'⟩
        obtain hc | hc := (mem_mergeFrom hmem).1 hc
        · obtain rfl | hc := List.mem_cons.1 hc
          · exact hba
          · exact Trans.trans hba (hl c hc)
        · exact hbk c hc

theorem increasing_mergeIncreasing {l k : List α} (hl : Increasing l) (hk : Increasing k) :
    Increasing (mergeIncreasing l k) := by
  induction l generalizing k with
  | nil => exact hk
  | cons a l ih =>
    have hal := List.pairwise_cons.1 hl
    exact increasing_mergeFrom (fun _ _ => mem_mergeIncreasing) (fun _ => ih hal.2) hal.1 hk

theorem increasing_increasingWithin (n : Nat) (l : List α) : Increasing (increasingWithin n l) := by
  induction n generalizing l with
  | zero =>
    induction l with
    | nil => exact List.Pairwise.nil
    | cons a l ih => exact increasing_insertIncreasing a ih
  | succ n ih => exact increasing_mergeIncreasing (ih _) (ih _)

theorem increasing_increasing (l : List α) : Increasing (increasing l) :=
  increasing_increasingWithin _ l

omit [DecidableLT α] [DecidableEq α] [Trans (α := α) (· < ·) (· < ·) (· < ·)]
  [Std.Trichotomous (α := α) (· < ·)] in
theorem Increasing.eq_of_mem_iff [Std.Asymm (α := α) (· < ·)] {l k : List α}
    (hl : Increasing l) (hk : Increasing k) (h : ∀ a, a ∈ l ↔ a ∈ k) : l = k := by
  induction l generalizing k with
  | nil =>
    cases k with
    | nil => rfl
    | cons b k => exact absurd ((h b).2 List.mem_cons_self) (by simp)
  | cons a l ih =>
    cases k with
    | nil => exact absurd ((h a).1 List.mem_cons_self) (by simp)
    | cons b k =>
      have hla := List.pairwise_cons.1 hl
      have hkb := List.pairwise_cons.1 hk
      have hasymm : ∀ x y : α, x < y → ¬ y < x := fun x y => Std.Asymm.asymm x y
      have hab : a = b := by
        obtain hab | hab := List.mem_cons.1 ((h a).1 List.mem_cons_self)
        · exact hab
        · obtain hba | hba := List.mem_cons.1 ((h b).2 List.mem_cons_self)
          · exact hba.symm
          · exact absurd (hkb.1 a hab) (hasymm _ _ (hla.1 b hba))
      subst hab
      refine congrArg (a :: ·) (ih hla.2 hkb.2 fun c => ⟨fun hc => ?_, fun hc => ?_⟩)
      · obtain rfl | hc' := List.mem_cons.1 ((h c).1 (List.mem_cons_of_mem _ hc))
        · exact absurd (hla.1 c hc) (hasymm _ _ (hla.1 c hc))
        · exact hc'
      · obtain rfl | hc' := List.mem_cons.1 ((h c).2 (List.mem_cons_of_mem _ hc))
        · exact absurd (hkb.1 c hc) (hasymm _ _ (hkb.1 c hc))
        · exact hc'

end TaskNetwork
