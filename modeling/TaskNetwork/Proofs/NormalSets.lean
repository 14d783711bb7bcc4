import TaskNetwork.Proofs.SweepRecords

namespace TaskNetwork

namespace Argument

theorem lt_trans {a b c : Argument} (hab : a < b) (hbc : b < c) : a < c := by
  change a.Before c
  change a.Before b at hab
  change b.Before c at hbc
  cases a <;> cases b <;> cases c <;> grind [Argument.Before]

theorem lt_asymm {a b : Argument} (hab : a < b) : ¬b < a := by
  intro hba
  change a.Before b at hab
  change b.Before a at hba
  cases a <;> cases b <;> grind [Argument.Before]

instance : Trans (α := Argument) (β := Argument) (γ := Argument) (· < ·) (· < ·) (· < ·) :=
  ⟨lt_trans⟩

instance : Std.Asymm (α := Argument) (· < ·) := ⟨fun _ _ => lt_asymm⟩

instance : Std.Trichotomous (α := Argument) (· < ·) where
  trichotomous a b hab hba := by
    change ¬a.Before b at hab
    change ¬b.Before a at hba
    cases a <;> cases b <;> grind [Argument.Before]

end Argument

namespace PatternSet

/-- What is listed is listed in increasing order. -/
def Normal (s : PatternSet) : Prop := Increasing s.toList

variable {s t : PatternSet} {sets : List PatternSet}

theorem Normal.ext (hs : s.Normal) (ht : t.Normal) (hany : s = anything ↔ t = anything)
    (h : ∀ p, p ∈ s.toList ↔ p ∈ t.toList) : s = t := by
  cases s with
  | anything => exact (hany.1 rfl).symm
  | listed ps =>
    obtain ⟨qs, rfl⟩ : ∃ qs, t = listed qs := exists_listed fun ht => by simp at hany; exact hany ht
    exact congrArg listed (Increasing.eq_of_mem_iff hs ht h)

theorem Normal.nodup (hs : s.Normal) : s.toList.Nodup :=
  hs.imp fun hlt heq => absurd (heq ▸ hlt) (List.lt_irrefl _)

theorem normal_anything : Normal anything := List.Pairwise.nil

theorem normal_empty : Normal ∅ := List.Pairwise.nil

theorem normal_ofList (ps : List Pattern) : (ofList ps).Normal := increasing_increasing ps

theorem normal_unions (sets : List PatternSet) : (unions sets).Normal := by
  unfold unions
  split
  · exact normal_anything
  · exact normal_ofList _

theorem normal_union (s t : PatternSet) : (s ∪ t).Normal := by
  change (union s t).Normal
  cases s <;> cases t <;> first | exact normal_anything | exact normal_ofList _

theorem Normal.sdiff (hs : s.Normal) : (s \ t).Normal := by
  change (subtract s t).Normal
  cases s with
  | anything => exact normal_anything
  | listed ps =>
    cases t with
    | anything => exact normal_empty
    | listed qs => exact List.Pairwise.filter _ hs

theorem Normal.inter (hs : s.Normal) (ht : t.Normal) : (s ∩ t).Normal := by
  change (intersect s t).Normal
  cases t with
  | anything => cases s <;> exact hs
  | listed qs =>
    cases s with
    | anything => exact ht
    | listed ps => exact List.Pairwise.filter _ hs

theorem normal_of_raise {d : Domain} {u : Task} {m : Method} (h : s.raise d u m = .ok t) :
    t.Normal := by
  cases s with
  | anything =>
    obtain rfl := pure_eq_ok.1 h
    exact normal_anything
  | listed ps =>
    simp only [raise, bind_eq_ok, pure_eq_ok] at h
    obtain ⟨qs, -, rfl⟩ := h
    exact normal_ofList qs

theorem normal_of_lower {d : Domain} {m : Method} {st : Step} {policy : HiddenPolicy}
    (h : s.lower d m st policy = .ok t) : t.Normal := by
  cases s with
  | anything =>
    obtain rfl := pure_eq_ok.1 h
    exact normal_anything
  | listed ps =>
    simp only [lower, bind_eq_ok, pure_eq_ok] at h
    obtain ⟨rs, -, rfl⟩ := h
    exact normal_ofList _

/-- The intersection of all the sets. It is empty if there are none. -/
def intersections : List PatternSet → PatternSet
  | [] => ∅
  | s :: sets => sets.foldl (· ∩ ·) s

theorem foldl_union (hs : s.Normal) (hsets : ∀ t ∈ sets, t.Normal) :
    sets.foldl (· ∪ ·) s = unions (s :: sets) := by
  induction sets generalizing s with
  | nil =>
    have hsingle : unions [s] = anything ↔ s = anything := by
      rw [unions_eq_anything, List.mem_singleton, eq_comm]
    refine hs.ext (normal_unions _) hsingle.symm fun p => ?_
    by_cases hany : s = anything
    · rw [hsingle.2 hany, hany]
    · rw [mem_unions (mt hsingle.1 hany)]
      simp
  | cons t sets ih =>
    obtain ⟨-, hsets⟩ := List.forall_mem_cons.1 hsets
    rw [List.foldl_cons, ih (normal_union s t) hsets]
    have hany : unions ((s ∪ t) :: sets) = anything ↔ unions (s :: t :: sets) = anything := by
      simp only [unions_eq_anything, List.mem_cons, eq_comm (a := anything), union_eq_anything,
        or_assoc]
    refine (normal_unions _).ext (normal_unions _) hany fun p => ?_
    by_cases h : unions (s :: t :: sets) = anything
    · rw [h, hany.2 h]
    · have hst : s ∪ t ≠ anything := by
        intro hst
        exact h (hany.1 (unions_eq_anything.2 (hst ▸ List.mem_cons_self)))
      rw [mem_unions h, mem_unions (mt hany.1 h)]
      simp only [List.mem_cons, exists_eq_or_imp, mem_union hst, or_assoc]

theorem mem_foldl_inter {p : Pattern} (hs : s ≠ anything) (hsets : ∀ t ∈ sets, t ≠ anything) :
    sets.foldl (· ∩ ·) s ≠ anything ∧ (p ∈ (sets.foldl (· ∩ ·) s).toList ↔
      p ∈ s.toList ∧ ∀ t ∈ sets, p ∈ t.toList) := by
  induction sets generalizing s with
  | nil => exact ⟨hs, by simp⟩
  | cons t sets ih =>
    obtain ⟨ht, hsets⟩ := List.forall_mem_cons.1 hsets
    have hst : s ∩ t ≠ anything := by
      obtain ⟨ps, rfl⟩ := exists_listed hs
      obtain ⟨qs, rfl⟩ := exists_listed ht
      change listed (ps.filter (· ∈ qs)) ≠ anything
      simp
    obtain ⟨hne, hmem⟩ := ih hst hsets
    rw [List.foldl_cons, List.forall_mem_cons, hmem, mem_inter hs ht, and_assoc]
    exact ⟨hne, .rfl⟩

theorem mem_intersections {p : Pattern} (hsets : ∀ t ∈ sets, t ≠ anything) :
    intersections sets ≠ anything ∧ (p ∈ (intersections sets).toList ↔
      sets ≠ [] ∧ ∀ t ∈ sets, p ∈ t.toList) := by
  cases sets with
  | nil => exact ⟨by simp [intersections, EmptyCollection.emptyCollection], by
      simp [intersections, EmptyCollection.emptyCollection, toList]⟩
  | cons s sets =>
    obtain ⟨hs, hsets⟩ := List.forall_mem_cons.1 hsets
    obtain ⟨hne, hmem⟩ := mem_foldl_inter (p := p) hs hsets
    refine ⟨hne, hmem.trans ?_⟩
    simp

theorem normal_foldl_inter (hs : s.Normal) (hsets : ∀ t ∈ sets, t.Normal) :
    (sets.foldl (· ∩ ·) s).Normal := by
  induction sets generalizing s with
  | nil => exact hs
  | cons t sets ih =>
    obtain ⟨ht, hsets⟩ := List.forall_mem_cons.1 hsets
    exact ih (hs.inter ht) hsets

theorem normal_intersections (hsets : ∀ t ∈ sets, t.Normal) : (intersections sets).Normal := by
  cases sets with
  | nil => exact normal_empty
  | cons s sets =>
    obtain ⟨hs, hsets⟩ := List.forall_mem_cons.1 hsets
    exact normal_foldl_inter hs hsets

end PatternSet

attribute [ext] TaskRecord

namespace TaskRecord

open PatternSet

variable {cs : List Contribution}

theorem foldl_add_of_initialized {r : TaskRecord} (hr : r.initialized) :
    (cs.foldl add r).needs = (cs.map (·.needs)).foldl (· ∩ ·) r.needs ∧
    (cs.foldl add r).ensures = (cs.map (·.ensures)).foldl (· ∩ ·) r.ensures := by
  induction cs generalizing r with
  | nil => exact ⟨rfl, rfl⟩
  | cons c cs ih =>
    obtain ⟨hneeds, hensures⟩ := ih (r := r.add c) add_initialized
    rw [List.foldl_cons, hneeds, hensures]
    simp [add, addMethod, hr]

theorem foldl_add_mayAdd (r : TaskRecord) :
    (cs.foldl add r).mayAdd = (cs.map (·.mayAdd)).foldl (· ∪ ·) r.mayAdd := by
  induction cs generalizing r with
  | nil => rfl
  | cons c cs ih => rw [List.foldl_cons, ih, add_mayAdd, List.map_cons, List.foldl_cons]

theorem foldl_add_flags {r : TaskRecord} (hr : r.finished) :
    (cs.foldl add r).initialized = (r.initialized || !cs.isEmpty) ∧ (cs.foldl add r).finished := by
  induction cs generalizing r with
  | nil => exact ⟨by simp, hr⟩
  | cons c cs ih =>
    have hfinished : (r.add c).finished := by rwa [add_finished]
    rw [List.foldl_cons]
    exact ⟨by simp [(ih hfinished).1], (ih hfinished).2⟩

theorem foldl_add_first (hcs : ∀ c ∈ cs, c.mayAdd.Normal) :
    cs.foldl add { finished := true } = {
      initialized := !cs.isEmpty
      finished := true
      needs := intersections (cs.map (·.needs))
      ensures := intersections (cs.map (·.ensures))
      mayAdd := unions (cs.map (·.mayAdd)) } := by
  have hflags : (cs.foldl add { finished := true }).initialized = (false || !cs.isEmpty) ∧
      (cs.foldl add { finished := true }).finished := foldl_add_flags rfl
  obtain ⟨hinitialized, hfinished⟩ := hflags
  refine TaskRecord.ext hinitialized hfinished ?_ ?_ ?_
  · cases cs with
    | nil => rfl
    | cons c cs => exact (foldl_add_of_initialized add_initialized).1
  · cases cs with
    | nil => rfl
    | cons c cs => exact (foldl_add_of_initialized add_initialized).2
  · have hnormal : ∀ s ∈ cs.map (·.mayAdd), s.Normal := by simpa using hcs
    rw [foldl_add_mayAdd, foldl_union normal_empty hnormal]
    have hempty : (∅ : PatternSet) ≠ anything := by simp [EmptyCollection.emptyCollection]
    simp only [unions, List.mem_cons, hempty.symm, false_or]
    rfl

end TaskRecord

end TaskNetwork
