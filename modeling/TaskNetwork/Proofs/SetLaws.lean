import Mathlib.Data.Fintype.EquivFin
import TaskNetwork.Proofs.NormalSets

namespace TaskNetwork

instance : Nonempty Argument := ⟨.name ""⟩

namespace PatternSet

variable {a b c s t : PatternSet} {p : Pattern}

@[simp] theorem mem_anything : p ∈ anything := trivial

theorem mem_iff : p ∈ s ↔ s = anything ∨ p ∈ s.toList := by
  cases s with
  | anything => exact iff_of_true mem_anything (.inl rfl)
  | listed ps => exact ⟨.inr, fun h => h.resolve_left (by simp)⟩

theorem mem_iff_of_ne (hs : s ≠ anything) : p ∈ s ↔ p ∈ s.toList := by
  rw [mem_iff, or_iff_right hs]

theorem mem_union_iff : p ∈ s ∪ t ↔ p ∈ s ∨ p ∈ t := by
  by_cases h : s ∪ t = anything
  · obtain rfl | rfl := union_eq_anything.1 h <;> simp [h]
  · have hst := mt union_eq_anything.2 h
    rw [not_or] at hst
    rw [mem_iff_of_ne h, mem_iff_of_ne hst.1, mem_iff_of_ne hst.2, mem_union h]

@[simp] theorem inter_anything : s ∩ anything = s := by
  change intersect s anything = s
  cases s <;> rfl

@[simp] theorem anything_inter : anything ∩ s = s := by
  change intersect anything s = s
  cases s <;> rfl

theorem inter_eq_anything : s ∩ t = anything ↔ s = anything ∧ t = anything := by
  change intersect s t = anything ↔ _
  cases s <;> cases t <;> simp [intersect]

theorem mem_inter_iff : p ∈ s ∩ t ↔ p ∈ s ∧ p ∈ t := by
  by_cases hs : s = anything
  · simp [hs]
  by_cases ht : t = anything
  · simp [ht]
  have hst : s ∩ t ≠ anything := fun h => hs (inter_eq_anything.1 h).1
  rw [mem_iff_of_ne hst, mem_iff_of_ne hs, mem_iff_of_ne ht, mem_inter hs ht]

theorem mem_sdiff_iff (hs : s ≠ anything) : p ∈ s \ t ↔ p ∈ s ∧ p ∉ t := by
  have hst : s \ t ≠ anything := mt sdiff_eq_anything.1 hs
  by_cases ht : t = anything
  · obtain ⟨ps, rfl⟩ := exists_listed hs
    subst ht
    exact iff_of_false List.not_mem_nil fun h => h.2 mem_anything
  · rw [mem_iff_of_ne hst, mem_iff_of_ne hs, mem_iff_of_ne ht, mem_sdiff ht]

theorem eq_anything_iff : s = anything ↔ ∀ p, p ∈ s := by
  constructor
  · rintro rfl p
    exact mem_anything
  · intro hall
    by_contra hs
    obtain ⟨ps, rfl⟩ := exists_listed hs
    obtain ⟨p, hp⟩ := Infinite.exists_notMem_finset ps.toFinset
    exact hp (List.mem_toFinset.2 (hall p))

theorem Normal.eq_of_mem_iff (hs : s.Normal) (ht : t.Normal) (h : ∀ p, p ∈ s ↔ p ∈ t) : s = t := by
  have hall : s = anything ↔ t = anything := by
    rw [eq_anything_iff, eq_anything_iff]
    exact forall_congr' h
  by_cases hany : t = anything
  · rw [hany, hall.2 hany]
  · refine hs.ext ht hall fun p => ?_
    rw [← mem_iff_of_ne hany, ← mem_iff_of_ne (mt hall.1 hany), h]

theorem union_comm (s t : PatternSet) : s ∪ t = t ∪ s := by
  apply (normal_union s t).eq_of_mem_iff (normal_union t s)
  intro p
  rw [mem_union_iff, mem_union_iff, or_comm]

theorem union_assoc (a b c : PatternSet) : a ∪ b ∪ c = a ∪ (b ∪ c) := by
  apply (normal_union (a ∪ b) c).eq_of_mem_iff (normal_union a (b ∪ c))
  intro p
  simp only [mem_union_iff, or_assoc]

theorem Normal.union_self (hs : s.Normal) : s ∪ s = s := by
  apply (normal_union s s).eq_of_mem_iff hs
  intro p
  rw [mem_union_iff, or_self]

theorem Normal.inter_comm (hs : s.Normal) (ht : t.Normal) : s ∩ t = t ∩ s := by
  apply (hs.inter ht).eq_of_mem_iff (ht.inter hs)
  intro p
  rw [mem_inter_iff, mem_inter_iff, and_comm]

theorem Normal.inter_assoc (ha : a.Normal) (hb : b.Normal) (hc : c.Normal) :
    a ∩ b ∩ c = a ∩ (b ∩ c) := by
  apply ((ha.inter hb).inter hc).eq_of_mem_iff (ha.inter (hb.inter hc))
  intro p
  simp only [mem_inter_iff, and_assoc]

theorem Normal.inter_self (hs : s.Normal) : s ∩ s = s := by
  apply (hs.inter hs).eq_of_mem_iff hs
  intro p
  rw [mem_inter_iff, and_self]

theorem Normal.union_inter_self (hs : s.Normal) : s ∪ s ∩ t = s := by
  apply (normal_union s (s ∩ t)).eq_of_mem_iff hs
  intro p
  rw [mem_union_iff, mem_inter_iff, or_iff_left_of_imp And.left]

theorem Normal.inter_union_self (hs : s.Normal) : s ∩ (s ∪ t) = s := by
  apply (hs.inter (normal_union s t)).eq_of_mem_iff hs
  intro p
  rw [mem_inter_iff, mem_union_iff, and_iff_left_of_imp Or.inl]

/-- For sets that are listed in increasing order, or are all patterns, the operations are those on
the members, but for what is taken out of all patterns. -/
theorem laws_of_normal_sets (ha : a.Normal) (hb : b.Normal) (hc : c.Normal) :
    ((a ∪ b).Normal ∧ (a ∩ b).Normal ∧ (a \ b).Normal) ∧
    (∀ p, (p ∈ a ∪ b ↔ p ∈ a ∨ p ∈ b) ∧ (p ∈ a ∩ b ↔ p ∈ a ∧ p ∈ b) ∧
      (a ≠ anything → (p ∈ a \ b ↔ p ∈ a ∧ p ∉ b))) ∧
    anything \ b = anything ∧
    ((∀ p, p ∈ a ↔ p ∈ b) → a = b) ∧
    (a ∪ b = b ∪ a ∧ a ∩ b = b ∩ a) ∧
    (a ∪ b ∪ c = a ∪ (b ∪ c) ∧ a ∩ b ∩ c = a ∩ (b ∩ c)) ∧
    (a ∪ a = a ∧ a ∩ a = a) ∧
    (a ∪ a ∩ b = a ∧ a ∩ (a ∪ b) = a) :=
  ⟨⟨normal_union a b, ha.inter hb, ha.sdiff⟩,
    fun _ => ⟨mem_union_iff, mem_inter_iff, mem_sdiff_iff⟩,
    sdiff_eq_anything.2 rfl, ha.eq_of_mem_iff hb,
    ⟨union_comm a b, ha.inter_comm hb⟩, ⟨union_assoc a b c, ha.inter_assoc hb hc⟩,
    ⟨ha.union_self, ha.inter_self⟩, ⟨ha.union_inter_self, ha.inter_union_self⟩⟩

theorem laws_of_normal_sets_with_anything :
    let here : Pattern := [.name "here"]
    let there : Pattern := [.hidden "walk" "there"]
    let a := ofList [there, here]
    let b := ofList [here, [], here]
    (a.Normal ∧ b.Normal ∧ anything.Normal) ∧
    (a ∪ b).Normal ∧ there ∈ a ∪ b ∧ there ∉ a ∩ b ∧ there ∈ a \ b ∧
    a ∪ b ∪ anything = a ∪ (b ∪ anything) ∧ a ∩ b ∩ anything = a ∩ (b ∩ anything) ∧
    a ∪ a ∩ b = a := by
  intro here there a b
  have ha : a.Normal := normal_ofList _
  have hb : b.Normal := normal_ofList _
  obtain ⟨⟨hunion, -, -⟩, hmem, -, -, -, ⟨hassoc, hassoc'⟩, -, habsorb, -⟩ :=
    laws_of_normal_sets ha hb normal_anything
  obtain ⟨hor, hand, hsdiff⟩ := hmem there
  have hthere : there ∈ a := by decide
  have hthere' : there ∉ b := by decide
  exact ⟨⟨ha, hb, normal_anything⟩, hunion, hor.2 (.inl hthere), mt hand.1 fun h => hthere' h.2,
    (hsdiff ofList_ne_anything).2 ⟨hthere, hthere'⟩, hassoc, hassoc', habsorb⟩

end PatternSet

end TaskNetwork
