import TaskNetwork.Proofs.PatternSets
import TaskNetwork.Sweep.Basic

namespace TaskNetwork

open PatternSet

/-- What a method tells about its task. -/
structure Contribution where
  needs : PatternSet
  ensures : PatternSet
  mayAdd : PatternSet

namespace TaskRecord

def add (r : TaskRecord) (c : Contribution) : TaskRecord := r.addMethod c.needs c.ensures c.mayAdd

variable {r : TaskRecord} {c e : Contribution}

@[simp] theorem add_initialized : (r.add c).initialized = true := by
  unfold add addMethod
  split
  · assumption
  · rfl

@[simp] theorem add_finished : (r.add c).finished = r.finished := by
  unfold add addMethod
  split <;> rfl

@[simp] theorem add_mayAdd : (r.add c).mayAdd = r.mayAdd ∪ c.mayAdd := by
  unfold add addMethod
  split <;> rfl

theorem empty_inter (s : PatternSet) : ∅ ∩ s = (∅ : PatternSet) := by
  cases s <;> rfl

theorem ofRecursive_add : ofRecursive.add c = ofRecursive := by
  have hany : anything ∪ c.mayAdd = anything := union_eq_anything.2 (.inl rfl)
  simp [add, addMethod, ofRecursive, empty_inter, hany]

structure Plain (r : TaskRecord) : Prop where
  needs : r.needs.Plain
  ensures : r.ensures.Plain

theorem Plain.add (hr : r.Plain) (hn : c.needs.Plain) (he : c.ensures.Plain) : (r.add c).Plain := by
  unfold TaskRecord.add addMethod
  split
  · exact ⟨hr.1.inter hn, hr.2.inter he⟩
  · exact ⟨hn, he⟩

/-- Nothing in the record goes against what a method contributes. -/
structure Covers (r : TaskRecord) (c : Contribution) : Prop where
  needs : ∀ p ∈ r.needs.toList, p ∈ c.needs.toList
  ensures : ∀ p ∈ r.ensures.toList, p ∈ c.ensures.toList
  mayAdd : r.mayAdd ≠ anything →
    c.mayAdd ≠ anything ∧ ∀ p ∈ c.mayAdd.toList, p ∈ r.mayAdd.toList

theorem covers_add (hr : r.Plain) (hn : c.needs.Plain) (he : c.ensures.Plain) :
    (r.add c).Covers c := by
  have hmay : (r.add c).mayAdd ≠ anything →
      c.mayAdd ≠ anything ∧ ∀ p ∈ c.mayAdd.toList, p ∈ (r.add c).mayAdd.toList := by
    rw [add_mayAdd]
    intro hne
    exact ⟨fun h => hne (union_eq_anything.2 (.inr h)), fun p hp => (mem_union hne).2 (.inr hp)⟩
  refine ⟨?_, ?_, hmay⟩ <;> unfold add addMethod <;> split
  · exact fun p hp => ((mem_inter hr.1.1 hn.1).1 hp).2
  · exact fun p hp => hp
  · exact fun p hp => ((mem_inter hr.2.1 he.1).1 hp).2
  · exact fun p hp => hp

theorem Covers.add (h : r.Covers c) (hi : r.initialized) (hr : r.Plain) (hn : e.needs.Plain)
    (he : e.ensures.Plain) : (r.add e).Covers c := by
  refine ⟨?_, ?_, ?_⟩
  · simp only [TaskRecord.add, addMethod, hi, if_true]
    exact fun p hp => h.1 p ((mem_inter hr.1.1 hn.1).1 hp).1
  · simp only [TaskRecord.add, addMethod, hi, if_true]
    exact fun p hp => h.2 p ((mem_inter hr.2.1 he.1).1 hp).1
  · rw [add_mayAdd]
    intro hne
    obtain ⟨hc, hmem⟩ := h.mayAdd fun ha => hne (union_eq_anything.2 (.inl ha))
    exact ⟨hc, fun p hp => (mem_union hne).2 (.inl (hmem p hp))⟩

theorem covers_foldl {cs : List Contribution} (hr : r.Plain)
    (hcs : ∀ c ∈ cs, c.needs.Plain ∧ c.ensures.Plain) (hc : c ∈ cs) : (cs.foldl add r).Covers c := by
  have hkeep : ∀ (cs : List Contribution) (r : TaskRecord), r.Plain → r.initialized →
      (∀ c ∈ cs, c.needs.Plain ∧ c.ensures.Plain) → r.Covers c → (cs.foldl add r).Covers c := by
    intro cs
    induction cs with
    | nil => exact fun r _ _ _ h => h
    | cons e cs ih =>
      intro r hr hi hcs h
      obtain ⟨hn, he⟩ := hcs e List.mem_cons_self
      exact ih (r.add e) (hr.add hn he) add_initialized
        (fun c hc => hcs c (List.mem_cons_of_mem e hc)) (h.add hi hr hn he)
  induction cs generalizing r with
  | nil => cases hc
  | cons e cs ih =>
    obtain ⟨hn, he⟩ := hcs e List.mem_cons_self
    have hcs' : ∀ c ∈ cs, c.needs.Plain ∧ c.ensures.Plain := fun c hc =>
      hcs c (List.mem_cons_of_mem e hc)
    obtain rfl | hc := List.mem_cons.1 hc
    · exact hkeep cs _ (hr.add hn he) add_initialized hcs' (covers_add hr hn he)
    · exact ih (hr.add hn he) hcs' hc

theorem foldl_add_ofRecursive (cs : List Contribution) : cs.foldl add ofRecursive = ofRecursive := by
  induction cs with
  | nil => rfl
  | cons c cs ih => rw [List.foldl_cons, ofRecursive_add, ih]

end TaskRecord

/-- What is found out about a method, and what it contributes to the record of its task, follow from
the records of the tasks of its steps. -/
structure Concludes (d : Domain) (records : String → TaskRecord) (t : Task) (f : Finding)
    (c : Contribution) : Prop where
  needs : ∃ u, f.method.needs d records .drop = .ok u ∧ u.raise d t f.method = .ok c.needs
  ensures : ∃ u, f.method.ensures d records = .ok u ∧ u.raise d t f.method = .ok c.ensures
  may_add : f.method.mayAdd d records = .ok f.mayAdd
  raised : f.mayAdd.raise d t f.method = .ok c.mayAdd
  kept : f.method.needs d records .keep = .ok f.needs
  inferred : f.needs.constrain d f.method f.mayAdd = .ok f.inferred

section Agreement

variable {d : Domain} {m : Method} {records others : String → TaskRecord}

theorem Method.needs_congr (h : ∀ s ∈ m.steps, records s.task = others s.task)
    (policy : HiddenPolicy) : m.needs d records policy = m.needs d others policy :=
  unionOver_congr fun s hs => by rw [h s hs]

theorem Method.ensures_congr (h : ∀ s ∈ m.steps, records s.task = others s.task) :
    m.ensures d records = m.ensures d others :=
  unionOver_congr fun s hs => by rw [h s hs]

theorem Method.mayAdd_congr (h : ∀ s ∈ m.steps, records s.task = others s.task) :
    m.mayAdd d records = m.mayAdd d others := by
  apply unionOver_congr
  intro s hs
  unfold Method.stepMayAdd
  rw [h s hs]
  refine congrArg _ (funext fun added => ?_)
  have hpred : ∀ e ∈ m.predecessors s.id, records e.task = others e.task := fun e he =>
    h e (mem_predecessors.1 he).1
  generalize m.predecessors s.id = l at hpred
  induction l generalizing added with
  | nil => rfl
  | cons e l ih =>
    simp only [List.foldlM_cons, hpred e List.mem_cons_self]
    exact congrArg _ (funext fun a => ih a fun e' he' => hpred e' (List.mem_cons_of_mem e he'))

theorem Concludes.congr {t : Task} {f : Finding} {c : Contribution}
    (h : ∀ s ∈ f.method.steps, records s.task = others s.task) (hc : Concludes d records t f c) :
    Concludes d others t f c := by
  obtain ⟨hneeds, hensures, hmay, hraised, hkept, hinferred⟩ := hc
  rw [Method.needs_congr h] at hneeds hkept
  rw [Method.ensures_congr h] at hensures
  rw [Method.mayAdd_congr h] at hmay
  exact ⟨hneeds, hensures, hmay, hraised, hkept, hinferred⟩

theorem forall₂_concludes_congr {t : Task} {fs : List Finding} {cs : List Contribution}
    (h : ∀ f ∈ fs, ∀ s ∈ f.method.steps, records s.task = others s.task)
    (hcs : List.Forall₂ (Concludes d records t) fs cs) :
    List.Forall₂ (Concludes d others t) fs cs := by
  induction hcs with
  | nil => exact .nil
  | @cons f c fs cs hc _ ih =>
    exact .cons (hc.congr (h f List.mem_cons_self))
      (ih fun f' hf => h f' (List.mem_cons_of_mem f hf))

end Agreement

theorem PatternSet.Plain.raise {d : Domain} {t : Task} {m : Method} {s u : PatternSet}
    (hs : s.Plain) (h : s.raise d t m = .ok u) : u.Plain := by
  have hr := raises_of_raise h
  refine ⟨fun ha => hs.1 (hr.anything_iff.1 ha), fun q hq => ?_⟩
  obtain ⟨p, hp, hpq⟩ := (hr.mem_iff q).1 hq
  exact (hs.2 p hp).raise hpq

theorem PatternSet.Plain.lower {d : Domain} {m : Method} {st : Step} {policy : HiddenPolicy}
    {s u : PatternSet} (hs : s.Plain) (hpolicy : policy ≠ .qualify)
    (h : s.lower d m st policy = .ok u) : u.Plain := by
  have hl := lowers_of_lower h
  refine ⟨fun ha => hs.1 (hl.anything_iff.1 ha), fun q hq => ?_⟩
  obtain ⟨p, hp, hpq⟩ := (hl.mem_iff q).1 hq
  exact (hs.2 p hp).lower hpolicy hpq

theorem plain_unionOver {steps : List Step} {f : Step → Except Failure PatternSet} {u : PatternSet}
    (hf : ∀ s v, f s = .ok v → v.Plain) (h : unionOver steps f = .ok u) : u.Plain := by
  simp only [unionOver, bind_eq_ok, pure_eq_ok] at h
  obtain ⟨sets, hsets, rfl⟩ := h
  refine plain_unions fun v hv => ?_
  obtain ⟨s, -, hs⟩ := (exists_of_mapM_eq_ok hsets).1 hv
  exact hf s v hs

section Plain

variable {d : Domain} {m : Method} {records : String → TaskRecord} {u : PatternSet}
  (hr : ∀ n, (records n).Plain)
include hr

theorem Method.plain_needs {policy : HiddenPolicy} (hpolicy : policy ≠ .qualify)
    (h : m.needs d records policy = .ok u) : u.Plain :=
  plain_unionOver (fun s _ hv => (hr s.task).needs.lower hpolicy hv) h

theorem Method.plain_ensures (h : m.ensures d records = .ok u) : u.Plain :=
  plain_unionOver (fun s _ hv => (hr s.task).ensures.lower (by decide) hv) h

theorem Concludes.plain {t : Task} {f : Finding} {c : Contribution}
    (h : Concludes d records t f c) : c.needs.Plain ∧ c.ensures.Plain ∧ f.needs.Plain := by
  obtain ⟨u, hu, hun⟩ := h.needs
  obtain ⟨v, hv, hve⟩ := h.ensures
  have hneeds : u.Plain := Method.plain_needs hr (by decide) hu
  have hensures : v.Plain := Method.plain_ensures hr hv
  exact ⟨hneeds.raise hun, hensures.raise hve, Method.plain_needs hr (by decide) h.kept⟩

end Plain

namespace Sweep

variable {w : Sweep} {d : Domain}

theorem record_setRecord (n k : String) (r : TaskRecord) :
    (w.setRecord n r).record k = if k = n then r else w.record k := by
  simp only [record, record?, setRecord, List.lookup_cons]
  by_cases h : k = n
  · simp [h]
  · simp [h, beq_false_of_ne h]

theorem plain_setRecord (h : ∀ n, (w.record n).Plain) {r : TaskRecord} (hr : r.Plain) (n k : String) :
    ((w.setRecord n r).record k).Plain := by
  rw [record_setRecord]
  split
  · exact hr
  · exact h k

/-- What follows from the records so far is found about the method and goes into the record of its
task. -/
theorem conclude_eq_ok {t : Task} {m : Method} {i : Nat} {w' : Sweep}
    (h : w.conclude d t m i = .ok w') :
    ∃ f c, f.method = m ∧ f.position = i ∧ Concludes d w.record t f c ∧
      w' = { w.setRecord t.name ((w.record t.name).add c) with findings := w.findings ++ [f] } := by
  simp only [conclude, bind_eq_ok, liftM_eq_ok, pure_eq_ok] at h
  obtain ⟨u, hu, n, hn, v, hv, e, he, a, ha, b, hb, k, hk, inferred, hi, rfl⟩ := h
  exact ⟨{ method := m, position := i, needs := k, mayAdd := a, inferred },
    { needs := n, ensures := e, mayAdd := b }, rfl, rfl, ⟨⟨u, hu, hn⟩, ⟨v, hv, he⟩, ha, hb, hk, hi⟩,
    rfl⟩

end Sweep

end TaskNetwork
