import TaskNetwork.Proofs.PatternMeaning

namespace TaskNetwork

namespace PatternSet

variable {s t : PatternSet} {sets : List PatternSet} {p : Pattern}

@[simp] theorem toList_ofList_iff {ps : List Pattern} : p ∈ (ofList ps).toList ↔ p ∈ ps :=
  mem_increasing

@[simp] theorem ofList_ne_anything {ps : List Pattern} : ofList ps ≠ anything := by
  simp [ofList]

@[simp] theorem toList_listed {ps : List Pattern} : (listed ps).toList = ps := rfl

theorem exists_listed (hs : s ≠ anything) : ∃ ps, s = .listed ps := by
  cases s with
  | anything => exact absurd rfl hs
  | listed ps => exact ⟨ps, rfl⟩

theorem mem_toList_of_mem (hs : s ≠ anything) (hp : p ∈ s) : p ∈ s.toList := by
  obtain ⟨ps, rfl⟩ := exists_listed hs
  exact hp

theorem mem_of_mem_toList (hp : p ∈ s.toList) : p ∈ s := by
  cases s with
  | anything => trivial
  | listed ps => exact hp

theorem unions_eq_anything : unions sets = anything ↔ anything ∈ sets := by
  unfold unions
  split <;> simp_all

theorem mem_unions (h : unions sets ≠ anything) :
    p ∈ (unions sets).toList ↔ ∃ s ∈ sets, p ∈ s.toList := by
  have hsets : anything ∉ sets := fun hmem => h (unions_eq_anything.2 hmem)
  rw [unions, if_neg hsets, toList_ofList_iff, List.mem_flatMap]

theorem union_eq_anything : s ∪ t = anything ↔ s = anything ∨ t = anything := by
  change union s t = anything ↔ _
  cases s <;> cases t <;> simp [union]

theorem mem_union (h : s ∪ t ≠ anything) : p ∈ (s ∪ t).toList ↔ p ∈ s.toList ∨ p ∈ t.toList := by
  rw [Ne, union_eq_anything, not_or] at h
  obtain ⟨ps, rfl⟩ := exists_listed h.1
  obtain ⟨qs, rfl⟩ := exists_listed h.2
  change p ∈ (ofList (ps ++ qs)).toList ↔ _
  rw [toList_ofList_iff, List.mem_append, toList_listed, toList_listed]

theorem sdiff_eq_anything : s \ t = anything ↔ s = anything := by
  change subtract s t = anything ↔ _
  cases s <;> cases t <;> simp [subtract, EmptyCollection.emptyCollection]

theorem mem_sdiff (ht : t ≠ anything) : p ∈ (s \ t).toList ↔ p ∈ s.toList ∧ p ∉ t.toList := by
  obtain ⟨qs, rfl⟩ := exists_listed ht
  cases s with
  | anything => exact ⟨(fun h => by cases h), (fun h => by cases h.1)⟩
  | listed ps =>
    change p ∈ ps.filter (· ∉ qs) ↔ p ∈ ps ∧ p ∉ qs
    simp

theorem mem_inter (hs : s ≠ anything) (ht : t ≠ anything) :
    p ∈ (s ∩ t).toList ↔ p ∈ s.toList ∧ p ∈ t.toList := by
  obtain ⟨ps, rfl⟩ := exists_listed hs
  obtain ⟨qs, rfl⟩ := exists_listed ht
  change p ∈ ps.filter (· ∈ qs) ↔ p ∈ ps ∧ p ∈ qs
  simp

/-- The set is listed, and no argument of its patterns is hidden. -/
structure Plain (s : PatternSet) : Prop where
  ne_anything : s ≠ anything
  named : ∀ p ∈ s.toList, p.Named

theorem plain_iff : s.Plain ↔ ∀ p ∈ s, p.Named := by
  constructor
  · exact fun hs p hp => hs.named p (mem_toList_of_mem hs.ne_anything hp)
  · intro hnamed
    refine ⟨?_, fun p hp => hnamed p (mem_of_mem_toList hp)⟩
    rintro rfl
    obtain ⟨⟨v, hv⟩, -⟩ := Pattern.named_cons.1 (hnamed [.hidden "" ""] trivial)
    cases hv

theorem plain_empty : Plain ∅ := ⟨by simp [EmptyCollection.emptyCollection], fun _ hp => by cases hp⟩

theorem Plain.union (hs : s.Plain) (ht : t.Plain) : (s ∪ t).Plain := by
  have h : s ∪ t ≠ anything := by
    rw [Ne, union_eq_anything, not_or]
    exact ⟨hs.1, ht.1⟩
  exact ⟨h, fun p hp => ((mem_union h).1 hp).elim (hs.2 p) (ht.2 p)⟩

theorem plain_unions (h : ∀ s ∈ sets, s.Plain) : (unions sets).Plain := by
  have hne : unions sets ≠ anything := fun hany => (h _ (unions_eq_anything.1 hany)).1 rfl
  refine ⟨hne, fun p hp => ?_⟩
  obtain ⟨s, hs, hps⟩ := (mem_unions hne).1 hp
  exact (h s hs).2 p hps

theorem Plain.inter (hs : s.Plain) (ht : t.Plain) : (s ∩ t).Plain := by
  refine ⟨?_, fun p hp => hs.2 p ((mem_inter hs.1 ht.1).1 hp).1⟩
  obtain ⟨ps, rfl⟩ := exists_listed hs.1
  obtain ⟨qs, rfl⟩ := exists_listed ht.1
  change listed (ps.filter (· ∈ qs)) ≠ anything
  simp

/-- What becomes of a set when it is lowered into a method. -/
structure Lowers (d : Domain) (m : Method) (st : Step) (policy : HiddenPolicy) (s t : PatternSet) :
    Prop where
  anything_iff : t = anything ↔ s = anything
  mem_iff : ∀ q, q ∈ t.toList ↔ ∃ p ∈ s.toList, p.lower (d.resolveTask st.task)
    (d.resolveMethod m.name) m st policy = .ok (some q)
  lower_ok : ∀ p ∈ s.toList, ∃ r, p.lower (d.resolveTask st.task) (d.resolveMethod m.name) m st
    policy = .ok r

theorem lowers_of_lower {d : Domain} {m : Method} {st : Step} {policy : HiddenPolicy}
    (h : s.lower d m st policy = .ok t) : s.Lowers d m st policy t := by
  cases s with
  | anything =>
    obtain rfl := pure_eq_ok.1 h
    exact ⟨by simp, by simp [toList], by simp [toList]⟩
  | listed ps =>
    simp only [lower, bind_eq_ok, pure_eq_ok] at h
    obtain ⟨rs, hrs, rfl⟩ := h
    refine ⟨by simp, fun q => ?_, fun p hp => ?_⟩
    · rw [toList_ofList_iff, List.mem_filterMap]
      simp only [id_eq, exists_eq_right]
      exact exists_of_mapM_eq_ok hrs
    · exact ok_of_mapM_eq_ok hrs hp

structure Raises (d : Domain) (t : Task) (m : Method) (s u : PatternSet) : Prop where
  anything_iff : u = anything ↔ s = anything
  mem_iff : ∀ q, q ∈ u.toList ↔ ∃ p ∈ s.toList, p.raise t (d.resolveMethod m.name) m = .ok q
  raise_ok : ∀ p ∈ s.toList, ∃ q, p.raise t (d.resolveMethod m.name) m = .ok q

theorem raises_of_raise {d : Domain} {t : Task} {m : Method} {u : PatternSet}
    (h : s.raise d t m = .ok u) : s.Raises d t m u := by
  cases s with
  | anything =>
    obtain rfl := pure_eq_ok.1 h
    exact ⟨by simp, by simp [toList], by simp [toList]⟩
  | listed ps =>
    simp only [raise, bind_eq_ok, pure_eq_ok] at h
    obtain ⟨qs, hqs, rfl⟩ := h
    refine ⟨by simp, fun q => ?_, fun p hp => ?_⟩
    · rw [toList_ofList_iff]
      exact exists_of_mapM_eq_ok hqs
    · exact ok_of_mapM_eq_ok hqs hp

end PatternSet

open PatternSet

theorem unionOver_eq_ok {steps : List Step} {f : Step → Except Failure PatternSet}
    {r : PatternSet} (h : unionOver steps f = .ok r) :
    (r = anything ↔ ∃ s ∈ steps, f s = .ok anything) ∧
    (r ≠ anything → ∀ p, p ∈ r.toList ↔ ∃ s ∈ steps, ∃ u, f s = .ok u ∧ p ∈ u.toList) ∧
    ∀ s ∈ steps, ∃ u, f s = .ok u := by
  simp only [unionOver, bind_eq_ok, pure_eq_ok] at h
  obtain ⟨sets, hsets, rfl⟩ := h
  have hmem : ∀ u, u ∈ sets ↔ ∃ s ∈ steps, f s = .ok u := fun u => exists_of_mapM_eq_ok hsets
  refine ⟨by rw [unions_eq_anything, hmem], fun hne p => ?_, fun s hs => ?_⟩
  · rw [mem_unions hne]
    constructor
    · rintro ⟨u, hu, hp⟩
      obtain ⟨s, hs, hf⟩ := (hmem u).1 hu
      exact ⟨s, hs, u, hf, hp⟩
    · rintro ⟨s, hs, u, hf, hp⟩
      exact ⟨u, (hmem u).2 ⟨s, hs, hf⟩, hp⟩
  · exact ok_of_mapM_eq_ok hsets hs

theorem foldlM_sdiff {l : List Step} {f : Step → Except Failure PatternSet} {a r : PatternSet}
    (h : l.foldlM (fun a e => return a \ (← f e)) a = .ok r) :
    (r = anything ↔ a = anything) ∧
    ((∀ e ∈ l, f e ≠ .ok anything) → ∀ p, p ∈ r.toList ↔
      p ∈ a.toList ∧ ∀ e ∈ l, ∀ u, f e = .ok u → p ∉ u.toList) := by
  induction l generalizing a with
  | nil =>
    obtain rfl := pure_eq_ok.1 h
    simp
  | cons e l ih =>
    simp only [List.foldlM_cons, bind_eq_ok, pure_eq_ok] at h
    obtain ⟨_, ⟨u, hu, rfl⟩, h⟩ := h
    obtain ⟨hany, hmem⟩ := ih h
    refine ⟨hany.trans sdiff_eq_anything, fun hf p => ?_⟩
    have hne : u ≠ anything := fun he => hf e List.mem_cons_self (he ▸ hu)
    rw [hmem (fun e' he' => hf e' (List.mem_cons_of_mem e he')), mem_sdiff hne, and_assoc]
    apply and_congr_right
    intro _
    simp only [List.forall_mem_cons, hu, Except.ok.injEq, forall_eq']

namespace Method

variable {d : Domain} {records : String → TaskRecord} {m : Method} {u : PatternSet}

theorem unionOver_lower {f : Step → PatternSet} {policy : HiddenPolicy}
    (h : unionOver m.steps (fun s => (f s).lower d m s policy) = .ok u)
    (hf : ∀ s ∈ m.steps, f s ≠ anything) :
    u ≠ anything ∧ ∀ p, p ∈ u.toList ↔ ∃ s ∈ m.steps, ∃ q ∈ (f s).toList,
      q.lower (d.resolveTask s.task) (d.resolveMethod m.name) m s policy = .ok (some p) := by
  obtain ⟨hany, hmem, hok⟩ := unionOver_eq_ok h
  have hne : u ≠ anything := by
    rw [Ne, hany]
    rintro ⟨s, hs, hl⟩
    exact hf s hs ((lowers_of_lower hl).anything_iff.1 rfl)
  refine ⟨hne, fun p => (hmem hne p).trans ⟨?_, ?_⟩⟩
  · rintro ⟨s, hs, v, hv, hp⟩
    exact ⟨s, hs, ((lowers_of_lower hv).mem_iff p).1 hp⟩
  · rintro ⟨s, hs, hq⟩
    obtain ⟨v, hv⟩ := hok s hs
    exact ⟨s, hs, v, hv, ((lowers_of_lower hv).mem_iff p).2 hq⟩

theorem stepMayAdd_eq_ok {s : Step} (h : m.stepMayAdd d records s = .ok u)
    (hensures : ∀ e ∈ m.steps, (records e.task).ensures ≠ anything) :
    (u = anything ↔ (records s.task).mayAdd = anything) ∧ ∀ p, p ∈ u.toList ↔
      (∃ q ∈ (records s.task).mayAdd.toList,
        q.lower (d.resolveTask s.task) (d.resolveMethod m.name) m s .qualify = .ok (some p)) ∧
      ∀ e ∈ m.predecessors s.id, ∀ v,
        (records e.task).ensures.lower d m e .qualify = .ok v → p ∉ v.toList := by
  simp only [stepMayAdd, bind_eq_ok] at h
  obtain ⟨a, ha, h⟩ := h
  obtain ⟨hany, hmem⟩ := foldlM_sdiff h
  have hlow := lowers_of_lower ha
  refine ⟨hany.trans hlow.anything_iff, fun p => (hmem ?_ p).trans ?_⟩
  · intro e he hl
    exact hensures e (mem_predecessors.1 he).1 ((lowers_of_lower hl).anything_iff.1 rfl)
  · rw [hlow.mem_iff]

theorem lower_of_mayAdd (h : m.mayAdd d records = .ok u) {s : Step} (hs : s ∈ m.steps) {q : Pattern}
    (hq : q ∈ (records s.task).mayAdd.toList) : ∃ p,
      q.lower (d.resolveTask s.task) (d.resolveMethod m.name) m s .qualify = .ok (some p) := by
  obtain ⟨v, hv⟩ := (unionOver_eq_ok h).2.2 s hs
  simp only [stepMayAdd, bind_eq_ok] at hv
  obtain ⟨a, ha, -⟩ := hv
  obtain ⟨r, hr⟩ := (lowers_of_lower ha).lower_ok q hq
  obtain ⟨p, rfl⟩ := Pattern.lower_ne_none (by decide) hr
  exact ⟨p, hr⟩

/-- What a method may add is what some step may add. -/
theorem mayAdd_eq_ok (h : m.mayAdd d records = .ok u)
    (hensures : ∀ e ∈ m.steps, (records e.task).ensures ≠ anything) :
    (u = anything ↔ ∃ s ∈ m.steps, (records s.task).mayAdd = anything) ∧
    (u ≠ anything → ∀ p, p ∈ u.toList ↔ ∃ s ∈ m.steps,
      (∃ q ∈ (records s.task).mayAdd.toList,
        q.lower (d.resolveTask s.task) (d.resolveMethod m.name) m s .qualify = .ok (some p)) ∧
      ∀ e ∈ m.predecessors s.id, ∀ v,
        (records e.task).ensures.lower d m e .qualify = .ok v → p ∉ v.toList) := by
  obtain ⟨hany, hmem, hok⟩ := unionOver_eq_ok h
  constructor
  · rw [hany]
    refine exists_congr fun s => and_congr_right fun hs => ?_
    obtain ⟨v, hv⟩ := hok s hs
    rw [hv, Except.ok.injEq]
    exact (stepMayAdd_eq_ok hv hensures).1
  · intro hne p
    rw [hmem hne]
    refine exists_congr fun s => and_congr_right fun hs => ?_
    obtain ⟨v, hv⟩ := hok s hs
    simp only [hv, Except.ok.injEq, exists_eq_left']
    exact (stepMayAdd_eq_ok hv hensures).2 p

end Method

theorem unionOver_congr {steps : List Step} {f g : Step → Except Failure PatternSet}
    (h : ∀ s ∈ steps, f s = g s) : unionOver steps f = unionOver steps g := by
  have hmap : steps.mapM f = steps.mapM g := by
    induction steps with
    | nil => rfl
    | cons s steps ih =>
      rw [List.mapM_cons, List.mapM_cons, h s List.mem_cons_self,
        ih fun t ht => h t (List.mem_cons_of_mem s ht)]
  rw [unionOver, unionOver, hmap]

end TaskNetwork
