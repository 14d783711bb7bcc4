import TaskNetwork.Proofs.Hierarchy
import TaskNetwork.Proofs.SweepRecords

namespace TaskNetwork

open PatternSet

def Pending.task : Pending → String
  | .visit n => n
  | .emit (.enter n) => n
  | .emit (.missing n) => n
  | .emit (.leaveStep _ s) => s.task
  | .emit (.conclude t _ _) => t.name

/-- The methods for the task about which a conclusion is still to be drawn. -/
def outstanding (n : String) (pending : List Pending) : List (Method × Nat) :=
  pending.filterMap fun
    | .emit (.conclude t m i) => if t.name = n then some (m, i) else none
    | _ => none

/-- Each conclusion comes when the tasks of all steps have been seen. -/
def Ready (seen : List String) : List Pending → Prop
  | [] => True
  | .visit n :: rest => Ready (n :: seen) rest
  | .emit (.conclude _ m _) :: rest => (∀ s ∈ m.steps, s.task ∈ seen) ∧ Ready seen rest
  | .emit _ :: rest => Ready seen rest

def Sweep.findingsOf (w : Sweep) (n : String) : List Finding :=
  w.findings.filter (·.method.task = n)

def Domain.firstRecord (d : Domain) (n : String) : TaskRecord :=
  if n ∈ d.recursiveTasks then .ofRecursive else { finished := true }

theorem Domain.firstRecord_finished (d : Domain) (n : String) : (d.firstRecord n).finished := by
  unfold firstRecord TaskRecord.ofRecursive
  split <;> rfl

section Pending

variable {seen seen' : List String} {rest : List Pending} {n : String}

theorem Ready.mono (hsub : ∀ n ∈ seen, n ∈ seen') (h : Ready seen rest) : Ready seen' rest := by
  induction rest generalizing seen seen' with
  | nil => trivial
  | cons p rest ih =>
    cases p with
    | visit n =>
      have hcons : ∀ k ∈ n :: seen, k ∈ n :: seen' := by
        intro k hk
        obtain rfl | hk := List.mem_cons.1 hk
        · exact List.mem_cons_self
        · exact List.mem_cons_of_mem n (hsub k hk)
      exact ih hcons h
    | emit e =>
      cases e with
      | conclude t m i => exact ⟨fun s hs => hsub _ (h.1 s hs), ih hsub h.2⟩
      | enter _ => exact ih hsub h
      | missing _ => exact ih hsub h
      | leaveStep _ _ => exact ih hsub h

theorem ready_pendingMethod {t : Task} {m : Method} {i : Nat} (h : Ready seen rest) :
    Ready seen (Domain.pendingMethod t m i ++ rest) := by
  have hsteps : ∀ (steps : List Step) (seen' : List String), (∀ n ∈ seen, n ∈ seen') →
      (∀ s ∈ m.steps, s.task ∈ seen' ∨ s ∈ steps) →
      Ready seen' (steps.flatMap (fun s => [.visit s.task, .emit (.leaveStep m s)])
        ++ .emit (.conclude t m i) :: rest) := by
    intro steps
    induction steps with
    | nil =>
      intro seen' hsub hall
      exact ⟨fun s hs => (hall s hs).resolve_right List.not_mem_nil, h.mono hsub⟩
    | cons s steps ih =>
      intro seen' hsub hall
      apply ih (s.task :: seen') (fun k hk => List.mem_cons_of_mem _ (hsub k hk))
      intro r hr
      obtain hseen | hr := hall r hr
      · exact .inl (List.mem_cons_of_mem _ hseen)
      · obtain rfl | hr := List.mem_cons.1 hr
        · exact .inl List.mem_cons_self
        · exact .inr hr
  simpa [Domain.pendingMethod] using hsteps m.steps seen (fun _ hn => hn) fun s hs => .inr hs

theorem ready_pendingTask {d : Domain} {t : Task} (h : Ready seen rest) :
    Ready seen (d.pendingTask t ++ rest) := by
  unfold Domain.pendingTask
  induction d.methodsOf t.name with
  | nil => exact h
  | cons p l ih =>
    rw [List.flatMap_cons, List.append_assoc]
    exact ready_pendingMethod ih

theorem mem_outstanding {m : Method} {i : Nat} :
    (m, i) ∈ outstanding n rest ↔ ∃ t, t.name = n ∧ .emit (.conclude t m i) ∈ rest := by
  simp only [outstanding, List.mem_filterMap]
  constructor
  · rintro ⟨p, hp, h⟩
    split at h
    · next t m' i' =>
      by_cases ht : t.name = n
      · simp only [ht, if_true, Option.some.injEq, Prod.mk.injEq] at h
        obtain ⟨rfl, rfl⟩ := h
        exact ⟨t, ht, hp⟩
      · simp [ht] at h
    · cases h
  · rintro ⟨t, rfl, h⟩
    exact ⟨_, h, by simp⟩

theorem outstanding_append (l k : List Pending) :
    outstanding n (l ++ k) = outstanding n l ++ outstanding n k :=
  List.filterMap_append

theorem outstanding_cons {p : Pending} (hp : ∀ t m i, p ≠ .emit (.conclude t m i)) :
    outstanding n (p :: rest) = outstanding n rest := by
  unfold outstanding
  rw [List.filterMap_cons]
  split
  · rfl
  · next h =>
    split at h
    · next t m i => exact absurd rfl (hp t m i)
    · cases h

theorem outstanding_conclude (t : Task) (m : Method) (i : Nat) :
    outstanding n (.emit (.conclude t m i) :: rest) =
      if t.name = n then (m, i) :: outstanding n rest else outstanding n rest := by
  unfold outstanding
  rw [List.filterMap_cons]
  by_cases ht : t.name = n <;> simp [ht]

theorem outstanding_pendingMethod (t : Task) (m : Method) (i : Nat) :
    outstanding n (Domain.pendingMethod t m i) = if t.name = n then [(m, i)] else [] := by
  have hsteps : ∀ steps : List Step, outstanding n
      (steps.flatMap fun s => [.visit s.task, .emit (.leaveStep m s)]) = [] := by
    intro steps
    induction steps with
    | nil => rfl
    | cons s steps ih =>
      simp only [List.flatMap_cons, List.cons_append, List.nil_append]
      rw [outstanding_cons (by simp), outstanding_cons (by simp), ih]
  rw [Domain.pendingMethod, outstanding_append, hsteps, outstanding_conclude]
  simp [outstanding]

theorem outstanding_pendingTask {d : Domain} (t : Task) :
    outstanding n (d.pendingTask t) = if t.name = n then d.methodsOf t.name else [] := by
  unfold Domain.pendingTask
  induction d.methodsOf t.name with
  | nil => simp [outstanding]
  | cons p l ih =>
    rw [List.flatMap_cons, outstanding_append, outstanding_pendingMethod, ih]
    by_cases ht : t.name = n <;> simp [ht]

end Pending

/-- What holds of a sweep when these tasks have been seen and this is still pending. -/
structure Walked (d : Domain) (top predicate : String) (positive : Bool) (seen : List String)
    (pending : List Pending) (w : Sweep) : Prop where
  primitive : ∀ n, d.IsPrimitive n →
    n ∈ seen ∧ w.record n = (Sweep.start d predicate positive).record n
  plain : ∀ n, (w.record n).Plain
  entered : ∀ n ∈ seen, ¬d.IsPrimitive n → d.Reaches top n ∧ ∃ t, d.task? n = some t ∧
    (w.findingsOf n).map (fun f => (f.method, f.position)) ++ outstanding n pending
      = d.methodsOf n ∧
    ∃ cs, List.Forall₂ (Concludes d w.record t) (w.findingsOf n) cs ∧
      w.record n = cs.foldl TaskRecord.add (d.firstRecord n)
  findings : ∀ f ∈ w.findings, f.method.task ∈ seen ∧ ¬d.IsPrimitive f.method.task ∧
    ∀ s ∈ f.method.steps, s.task ∈ seen ∧ (d.Recursive s.task ∨ outstanding s.task pending = [])
  below : ∀ p ∈ pending, d.Reaches top p.task
  nested : pending.Pairwise fun p q =>
    ∀ t m i, q = .emit (.conclude t m i) → d.Reaches t.name p.task
  ready : Ready seen pending
  concluding : ∀ t m i, .emit (.conclude t m i) ∈ pending →
    t.name ∈ seen ∧ ¬d.IsPrimitive t.name ∧ d.task? t.name = some t
  silent : ∀ n, .emit (.enter n) ∉ pending

section Walk

variable {d : Domain} {top predicate n : String} {positive : Bool} {seen : List String}
  {p : Pending} {rest : List Pending} {w w' : Sweep}

theorem record_start (d : Domain) (predicate : String) (positive : Bool) (n : String) :
    (¬d.IsPrimitive n ∧ (Sweep.start d predicate positive).record n = {}) ∨
    ∃ t ∈ d.primitiveTasks, t.name = n ∧
      (Sweep.start d predicate positive).record n = t.primitiveRecord predicate positive := by
  unfold Sweep.record
  cases h : (Sweep.start d predicate positive).record? n with
  | none =>
    refine .inl ⟨fun hn => ?_, rfl⟩
    obtain ⟨t, ht, rfl⟩ := List.mem_map.1 hn
    have hmem : (t.name, t.primitiveRecord predicate positive)
        ∈ (Sweep.start d predicate positive).records :=
      List.mem_reverse.2 (List.mem_map.2 ⟨t, ht, rfl⟩)
    simpa using List.lookup_eq_none_iff.1 h _ hmem
  | some r =>
    obtain ⟨l, k, hl, -⟩ := List.lookup_eq_some_iff.1 h
    have hmem : (n, r) ∈ (Sweep.start d predicate positive).records := by
      rw [hl]
      simp
    simp only [Sweep.start, List.mem_reverse, List.mem_map, Prod.mk.injEq] at hmem
    obtain ⟨t, ht, hn, hr⟩ := hmem
    exact .inr ⟨t, ht, hn, hr.symm⟩

theorem plain_patternsOf (predicate : String) (positive : Bool) (literals : List Literal) :
    (patternsOf predicate positive literals).Plain := by
  refine ⟨ofList_ne_anything, fun p hp => ?_⟩
  rw [patternsOf, toList_ofList_iff, List.mem_map] at hp
  obtain ⟨l, -, rfl⟩ := hp
  exact ⟨l.arguments, rfl⟩

theorem Task.primitiveRecord_plain (t : Task) (predicate : String) (positive : Bool) :
    (t.primitiveRecord predicate positive).Plain :=
  ⟨plain_patternsOf _ _ _, (plain_patternsOf _ _ _).union (plain_patternsOf _ _ _)⟩

theorem Sweep.plain_start (d : Domain) (predicate : String) (positive : Bool) (n : String) :
    ((Sweep.start d predicate positive).record n).Plain := by
  obtain ⟨-, h⟩ | ⟨t, -, -, h⟩ := record_start d predicate positive n
  · rw [h]
    exact ⟨plain_empty, plain_empty⟩
  · rw [h]
    exact t.primitiveRecord_plain predicate positive

theorem Domain.plain_firstRecord (d : Domain) (n : String) : (d.firstRecord n).Plain := by
  unfold Domain.firstRecord TaskRecord.ofRecursive
  split <;> exact ⟨plain_empty, plain_empty⟩

theorem walked_start (d : Domain) (top predicate : String) (positive : Bool) :
    Walked d top predicate positive (d.primitiveTasks.map (·.name)) [.visit top]
      (Sweep.start d predicate positive) where
  primitive n hn := ⟨hn, rfl⟩
  plain := Sweep.plain_start d predicate positive
  entered n hn hp := absurd hn hp
  findings f hf := by cases hf
  below p hp := by
    obtain rfl := List.mem_singleton.1 hp
    exact .refl
  nested := List.pairwise_singleton _ _
  ready := trivial
  concluding t m i h := by simp at h
  silent n h := by simp at h

theorem Walked.tail (h : Walked d top predicate positive seen (p :: rest) w)
    (hp : ∀ t m i, p ≠ .emit (.conclude t m i)) (hready : Ready seen rest) :
    Walked d top predicate positive seen rest w where
  primitive := h.primitive
  plain := h.plain
  entered n hn hnp := by
    have hn := h.entered n hn hnp
    rwa [outstanding_cons hp] at hn
  findings f hf := by
    obtain ⟨hseen, hnp, hsteps⟩ := h.findings f hf
    refine ⟨hseen, hnp, fun s hs => ?_⟩
    have hs := hsteps s hs
    rwa [outstanding_cons hp] at hs
  below q hq := h.below q (List.mem_cons_of_mem p hq)
  nested := (List.pairwise_cons.1 h.nested).2
  ready := hready
  concluding t m i hmem := h.concluding t m i (List.mem_cons_of_mem p hmem)
  silent n hmem := h.silent n (List.mem_cons_of_mem p hmem)

theorem Walked.skip (h : Walked d top predicate positive seen (.visit n :: rest) w) (hn : n ∈ seen) :
    Walked d top predicate positive seen rest w := by
  refine h.tail (by simp) (Ready.mono (fun k hk => ?_) h.ready)
  obtain rfl | hk := List.mem_cons.1 hk
  · exact hn
  · exact hk

theorem mem_abstractTasks {t : Task} (h : d.task? n = some t) (hn : ¬d.IsPrimitive n) :
    t ∈ d.abstractTasks ∧ t.name = n := by
  obtain ⟨hmem, hname⟩ := Domain.mem_of_task?_eq_some h
  refine ⟨(List.mem_append.1 hmem).resolve_left fun hp => hn ?_, hname⟩
  exact List.mem_map.2 ⟨t, hp, hname⟩

theorem decomposes_of_mem_methodsOf {t : Task} {m : Method} {i : Nat} {s : Step}
    (ht : d.task? n = some t) (hn : ¬d.IsPrimitive n) (hm : (m, i) ∈ d.methodsOf n)
    (hs : s ∈ m.steps) : d.Decomposes n s.task := by
  obtain ⟨hmem, hname⟩ := mem_abstractTasks ht hn
  obtain ⟨hi, htask⟩ := Domain.mem_methodsOf.1 hm
  exact ⟨List.mem_map.2 ⟨t, hmem, hname⟩, m, List.mem_of_getElem? hi, htask, s, hs, rfl⟩

theorem mem_pendingTask {t : Task} (h : p ∈ d.pendingTask t) :
    (∃ m i, (m, i) ∈ d.methodsOf t.name ∧ p = .emit (.conclude t m i)) ∨
    ∃ m i, (m, i) ∈ d.methodsOf t.name ∧ ∃ s ∈ m.steps,
      p = .visit s.task ∨ p = .emit (.leaveStep m s) := by
  simp only [Domain.pendingTask, Domain.pendingMethod, List.mem_flatMap, List.mem_append,
    List.mem_cons, List.not_mem_nil, or_false] at h
  obtain ⟨⟨m, i⟩, hm, ⟨s, hs, hp⟩ | hp⟩ := h
  · exact .inr ⟨m, i, hm, s, hs, hp⟩
  · exact .inl ⟨m, i, hm, hp⟩

theorem task_of_mem_pendingTask {t : Task} (ht : d.task? t.name = some t)
    (hn : ¬d.IsPrimitive t.name) (h : p ∈ d.pendingTask t) : d.Reaches t.name p.task := by
  obtain ⟨m, i, -, rfl⟩ | ⟨m, i, hm, s, hs, rfl | rfl⟩ := mem_pendingTask h
  · exact .refl
  · exact (decomposes_of_mem_methodsOf ht hn hm hs).reaches
  · exact (decomposes_of_mem_methodsOf ht hn hm hs).reaches

theorem findingsOf_nil (h : ∀ f ∈ w.findings, f.method.task ≠ n) : w.findingsOf n = [] := by
  unfold Sweep.findingsOf
  rw [List.filter_eq_nil_iff]
  simpa using h

theorem pairwise_pendingTask {t : Task} (ht : d.task? t.name = some t)
    (hn : ¬d.IsPrimitive t.name) : (d.pendingTask t).Pairwise fun p q =>
      ∀ u m i, q = .emit (.conclude u m i) → d.Reaches u.name p.task := by
  apply List.pairwise_of_forall_mem_list
  intro p hp q hq u m i hc
  obtain ⟨m', i', -, rfl⟩ | ⟨m', i', -, s, -, rfl | rfl⟩ := mem_pendingTask hq
  · cases hc
    exact task_of_mem_pendingTask ht hn hp
  · cases hc
  · cases hc

theorem Walked.outstanding_eq_nil (h : Walked d top predicate positive seen (.visit n :: rest) w)
    (hn : n ∉ seen) : outstanding n rest = [] := by
  rw [List.eq_nil_iff_forall_not_mem]
  rintro ⟨m, i⟩ hmem
  obtain ⟨u, rfl, hc⟩ := mem_outstanding.1 hmem
  exact hn (h.concluding u m i (List.mem_cons_of_mem _ hc)).1

theorem Walked.enter {t : Task} (h : Walked d top predicate positive seen (.visit n :: rest) w)
    (hn : n ∉ seen) (ht : d.task? n = some t) :
    Walked d top predicate positive (n :: seen) (d.pendingTask t ++ rest)
      (w.setRecord n (d.firstRecord n)) := by
  have hprim : ¬d.IsPrimitive n := fun hp => hn (h.primitive n hp).1
  have hnone := h.outstanding_eq_nil hn
  obtain rfl : t.name = n := (Domain.mem_of_task?_eq_some ht).2
  have hkeep : ∀ k ∈ seen, (w.setRecord t.name (d.firstRecord t.name)).record k = w.record k := by
    intro k hk
    rw [Sweep.record_setRecord, if_neg]
    rintro rfl
    exact hn hk
  have hfresh : (w.setRecord t.name (d.firstRecord t.name)).record t.name
      = d.firstRecord t.name := by
    rw [Sweep.record_setRecord, if_pos rfl]
  have hvisit : d.Reaches top t.name := h.below _ List.mem_cons_self
  have hold : ∀ k, t.name ≠ k → outstanding k (d.pendingTask t ++ rest)
      = outstanding k (.visit t.name :: rest) := by
    intro k hk
    rw [outstanding_append, outstanding_pendingTask, if_neg hk, outstanding_cons (by simp)]
    rfl
  refine ⟨fun k hk => ?_, fun k => ?_, fun k hk hkp => ?_, fun f hf => ?_, fun q hq => ?_, ?_,
    ready_pendingTask h.ready, fun u m i hc => ?_, fun k hc => ?_⟩
  · obtain ⟨hseen, hrec⟩ := h.primitive k hk
    exact ⟨List.mem_cons_of_mem _ hseen, (hkeep k hseen).trans hrec⟩
  · exact Sweep.plain_setRecord h.plain (d.plain_firstRecord t.name) t.name k
  · obtain rfl | hk := List.mem_cons.1 hk
    · have hnil : (w.setRecord t.name (d.firstRecord t.name)).findingsOf t.name = [] :=
        findingsOf_nil fun f hf hft => hn (hft ▸ (h.findings f hf).1)
      refine ⟨hvisit, t, ht, ?_, [], ?_, hfresh.trans List.foldl_nil.symm⟩
      · rw [hnil, outstanding_append, outstanding_pendingTask, if_pos rfl, hnone]
        simp
      · rw [hnil]
        exact .nil
    · have hne : t.name ≠ k := fun he => hn (he ▸ hk)
      obtain ⟨hr, u, hu, hmethods, cs, hcs, hrec⟩ := h.entered k hk hkp
      refine ⟨hr, u, hu, ?_, cs, ?_, (hkeep k hk).trans hrec⟩
      · rw [hold k hne]
        exact hmethods
      · refine forall₂_concludes_congr (fun f hf r hr => ?_) hcs
        have hr := ((h.findings f (List.mem_of_mem_filter hf)).2.2 r hr).1
        exact (hkeep _ hr).symm
  · obtain ⟨hseen, hnp, hsteps⟩ := h.findings f hf
    refine ⟨List.mem_cons_of_mem _ hseen, hnp, fun s hs => ?_⟩
    obtain ⟨hs, hopen⟩ := hsteps s hs
    rw [hold s.task fun he => hn (he ▸ hs)]
    exact ⟨List.mem_cons_of_mem _ hs, hopen⟩
  · obtain hq | hq := List.mem_append.1 hq
    · exact hvisit.trans (task_of_mem_pendingTask ht hprim hq)
    · exact h.below q (List.mem_cons_of_mem _ hq)
  · obtain ⟨hhead, hrest⟩ := List.pairwise_cons.1 h.nested
    refine List.pairwise_append.2 ⟨pairwise_pendingTask ht hprim, hrest, ?_⟩
    intro q hq r hr u m i hc
    exact (hhead r hr u m i hc).trans (task_of_mem_pendingTask ht hprim hq)
  · obtain hc | hc := List.mem_append.1 hc
    · obtain ⟨m', i', -, he⟩ | ⟨m', i', -, s, -, he | he⟩ := mem_pendingTask hc
      · cases he
        exact ⟨List.mem_cons_self, hprim, ht⟩
      · cases he
      · cases he
    · obtain ⟨hseen, hu⟩ := h.concluding u m i (List.mem_cons_of_mem _ hc)
      exact ⟨List.mem_cons_of_mem _ hseen, hu⟩
  · obtain hc | hc := List.mem_append.1 hc
    · obtain ⟨m', i', -, he⟩ | ⟨m', i', -, s, -, he | he⟩ := mem_pendingTask hc <;> cases he
    · exact h.silent k (List.mem_cons_of_mem _ hc)

section Conclude

variable {t : Task} {m : Method} {i : Nat}
  (h : Walked d top predicate positive seen (.emit (.conclude t m i) :: rest) w)
include h

theorem Walked.mem_methodsOf : (m, i) ∈ d.methodsOf t.name := by
  obtain ⟨htseen, htp, -⟩ := h.concluding t m i List.mem_cons_self
  obtain ⟨-, u, -, hmethods, -⟩ := h.entered t.name htseen htp
  rw [← hmethods, outstanding_conclude, if_pos rfl]
  exact List.mem_append_right _ List.mem_cons_self

/-- The task of a step is recursive if conclusions about it are still to be drawn. -/
theorem Walked.step_settled {s : Step} (hs : s ∈ m.steps) :
    d.Recursive s.task ∨ t.name ≠ s.task ∧ outstanding s.task rest = [] := by
  obtain ⟨-, htp, ht⟩ := h.concluding t m i List.mem_cons_self
  have hdec : d.Decomposes t.name s.task := decomposes_of_mem_methodsOf ht htp h.mem_methodsOf hs
  by_cases hself : t.name = s.task
  · exact .inl (hdec.recursive (hself ▸ .refl))
  by_cases hout : outstanding s.task rest = []
  · exact .inr ⟨hself, hout⟩
  · obtain ⟨⟨n, j⟩, hn⟩ := List.exists_mem_of_ne_nil _ hout
    obtain ⟨v, hv, hc⟩ := mem_outstanding.1 hn
    have hback : d.Reaches v.name t.name := (List.pairwise_cons.1 h.nested).1 _ hc v n j rfl
    exact .inl (hdec.recursive (hv ▸ hback))

theorem Walked.finding_settled {g : Finding} (hg : g ∈ w.findings) {s : Step}
    (hs : s ∈ g.method.steps) :
    d.Recursive s.task ∨ t.name ≠ s.task ∧ outstanding s.task rest = [] := by
  apply ((h.findings g hg).2.2 s hs).2.imp_right
  intro hopen
  rw [outstanding_conclude] at hopen
  split at hopen
  · cases hopen
  · next hne => exact ⟨hne, hopen⟩

theorem Walked.record_add {k : String} (hk : d.Recursive k ∨ t.name ≠ k) (c : Contribution) :
    (w.setRecord t.name ((w.record t.name).add c)).record k = w.record k := by
  rw [Sweep.record_setRecord]
  split
  · next he =>
    subst he
    obtain ⟨htseen, htp, -⟩ := h.concluding t m i List.mem_cons_self
    obtain ⟨-, -, -, -, cs, -, hrec⟩ := h.entered t.name htseen htp
    have hk : d.Recursive t.name := hk.resolve_right fun hne => hne rfl
    rw [hrec, Domain.firstRecord, if_pos (Domain.mem_recursiveTasks.2 hk),
      TaskRecord.foldl_add_ofRecursive, TaskRecord.ofRecursive_add]
  · rfl

end Conclude

theorem findingsOf_append (gs : List Finding) (f : Finding) (hw : w.findings = gs ++ [f]) :
    w.findingsOf n =
      gs.filter (·.method.task = n) ++ if f.method.task = n then [f] else [] := by
  rw [Sweep.findingsOf, hw, List.filter_append, List.filter_singleton]
  by_cases hf : f.method.task = n <;> simp [hf]

/-- A conclusion is drawn: whatever it uses will not change any more. -/
theorem Walked.conclude {t : Task} {m : Method} {i : Nat}
    (h : Walked d top predicate positive seen (.emit (.conclude t m i) :: rest) w)
    (hw : w.conclude d t m i = .ok w') : Walked d top predicate positive seen rest w' := by
  obtain ⟨f, c, rfl, rfl, hfc, rfl⟩ := Sweep.conclude_eq_ok hw
  obtain ⟨htseen, htp, ht⟩ := h.concluding t f.method f.position List.mem_cons_self
  obtain ⟨hready, hrest⟩ := h.ready
  have htask : f.method.task = t.name := (Domain.mem_methodsOf.1 h.mem_methodsOf).2
  have hsettled : ∀ g, g ∈ w.findings ∨ g = f → ∀ s ∈ g.method.steps,
      d.Recursive s.task ∨ t.name ≠ s.task ∧ outstanding s.task rest = [] := by
    rintro g (hg | rfl) s hs
    · exact h.finding_settled hg hs
    · exact h.step_settled hs
  have hconcludes : ∀ (x : Task) (gs : List Finding) (xs : List Contribution),
      (∀ g ∈ gs, g ∈ w.findings ∨ g = f) → List.Forall₂ (Concludes d w.record x) gs xs →
      List.Forall₂ (Concludes d
        (w.setRecord t.name ((w.record t.name).add c)).record x) gs xs := by
    intro x gs xs hgs
    refine forall₂_concludes_congr fun g hg s hs => (h.record_add ?_ c).symm
    exact (hsettled g (hgs g hg) s hs).imp_right And.left
  obtain ⟨hplainNeeds, hplainEnsures, -⟩ := hfc.plain h.plain
  refine ⟨fun k hk => ?_, fun k => ?_, fun k hk hkp => ?_, fun g hg => ?_,
    fun q hq => h.below q (List.mem_cons_of_mem _ hq), (List.pairwise_cons.1 h.nested).2, hrest,
    fun v n j hc => h.concluding v n j (List.mem_cons_of_mem _ hc),
    fun k hc => h.silent k (List.mem_cons_of_mem _ hc)⟩
  · obtain ⟨hseen, hk'⟩ := h.primitive k hk
    exact ⟨hseen, (h.record_add (.inr fun he => htp (he ▸ hk)) c).trans hk'⟩
  · exact Sweep.plain_setRecord h.plain ((h.plain t.name).add hplainNeeds hplainEnsures) t.name k
  · obtain ⟨hr, v, hv, hmethods, cs, hcs, hrec⟩ := h.entered k hk hkp
    refine ⟨hr, v, hv, ?_⟩
    rw [findingsOf_append w.findings f rfl, htask]
    rw [outstanding_conclude] at hmethods
    by_cases hkt : t.name = k
    · subst hkt
      obtain rfl : t = v := Option.some.inj (ht.symm.trans hv)
      rw [if_pos rfl] at hmethods ⊢
      refine ⟨?_, cs ++ [c], ?_, ?_⟩
      · rw [List.map_append, List.append_assoc]
        exact hmethods
      · refine hconcludes t _ _ (fun g hg => ?_) (List.rel_append hcs (.cons hfc .nil))
        obtain hg | hg := List.mem_append.1 hg
        · exact .inl (List.mem_of_mem_filter hg)
        · exact .inr (List.mem_singleton.1 hg)
      · rw [List.foldl_append, ← hrec]
        exact (Sweep.record_setRecord _ _ _).trans (if_pos rfl)
    · rw [if_neg hkt] at hmethods
      rw [if_neg hkt, List.append_nil]
      refine ⟨hmethods, cs, hconcludes v _ _ (fun g hg => .inl (List.mem_of_mem_filter hg)) hcs, ?_⟩
      exact (h.record_add (.inr hkt) c).trans hrec
  · have hg := List.mem_append.1 hg
    rw [List.mem_singleton] at hg
    have hall := hsettled g hg
    obtain hg | rfl := hg
    · obtain ⟨hseen, hnp, hsteps⟩ := h.findings g hg
      exact ⟨hseen, hnp, fun s hs => ⟨(hsteps s hs).1, (hall s hs).imp_right And.right⟩⟩
    · rw [htask]
      exact ⟨htseen, htp, fun s hs => ⟨hready s hs, (hall s hs).imp_right And.right⟩⟩

theorem Walked.advance {e : WalkEvent}
    (h : Walked d top predicate positive seen (.emit e :: rest) w)
    (hw : w.advance d d.recursiveTasks e = .ok w') :
    Walked d top predicate positive seen rest w' := by
  cases e with
  | enter n => exact absurd List.mem_cons_self (h.silent n)
  | missing n => exact absurd hw throw_ne_ok
  | leaveStep m s =>
    simp only [Sweep.advance, bind_eq_ok, pure_eq_ok] at hw
    obtain ⟨-, -, rfl⟩ := hw
    exact h.tail (by simp) h.ready
  | conclude t m i => exact h.conclude hw

def Domain.unseen (d : Domain) (seen : List String) : List Task :=
  d.abstractTasks.filter (·.name ∉ seen)

theorem unseen_cons_lt {t : Task} (ht : t ∈ d.abstractTasks) (hn : t.name ∉ seen) :
    (d.unseen (t.name :: seen)).length < (d.unseen seen).length := by
  have hsub : d.unseen (t.name :: seen)
      = (d.unseen seen).filter fun u => decide (u.name ≠ t.name) := by
    simp only [Domain.unseen, List.filter_filter, List.mem_cons, not_or, Bool.decide_and]
  rw [hsub, List.length_filter_lt_length_iff_exists]
  exact ⟨t, List.mem_filter.2 ⟨ht, by simpa using hn⟩, by simp⟩

/-- If it holds at the end of walks from below a new task, it holds at the end of a walk. -/
theorem Walked.workOff {deeper : List String → List Pending → List WalkEvent} {k : Nat}
    (hdeeper : ∀ seen pending w, Walked d top predicate positive seen pending w →
      (d.unseen seen).length < k →
      (deeper seen pending).foldlM (Sweep.advance d d.recursiveTasks) w = .ok w' →
      ∃ seen', (∀ n ∈ seen, n ∈ seen') ∧ (∀ n, .visit n ∈ pending → n ∈ seen') ∧
        Walked d top predicate positive seen' [] w')
    {pending : List Pending} (h : Walked d top predicate positive seen pending w)
    (hk : (d.unseen seen).length ≤ k)
    (hw : (d.workOff deeper seen pending).foldlM (Sweep.advance d d.recursiveTasks) w = .ok w') :
    ∃ seen', (∀ n ∈ seen, n ∈ seen') ∧ (∀ n, .visit n ∈ pending → n ∈ seen') ∧
      Walked d top predicate positive seen' [] w' := by
  induction pending generalizing w with
  | nil =>
    obtain rfl := pure_eq_ok.1 hw
    exact ⟨seen, fun _ hn => hn, fun n hn => absurd hn List.not_mem_nil, h⟩
  | cons p rest ih =>
    cases p with
    | emit e =>
      simp only [Domain.workOff, List.foldlM_cons, bind_eq_ok] at hw
      obtain ⟨w₁, he, hw⟩ := hw
      obtain ⟨seen', hsub, hvisit, hend⟩ := ih (h.advance he) hw
      refine ⟨seen', hsub, fun n hn => hvisit n ?_, hend⟩
      exact (List.mem_cons.1 hn).resolve_left (by simp)
    | visit n =>
      by_cases hn : n ∈ seen
      · rw [Domain.workOff, if_pos hn] at hw
        obtain ⟨seen', hsub, hvisit, hend⟩ := ih (h.skip hn) hw
        refine ⟨seen', hsub, fun k hk => ?_, hend⟩
        obtain he | hk := List.mem_cons.1 hk
        · cases he
          exact hsub n hn
        · exact hvisit k hk
      · rw [Domain.workOff, if_neg hn] at hw
        cases ht : d.task? n with
        | none =>
          simp only [ht, List.foldlM_cons, bind_eq_ok] at hw
          obtain ⟨_, he, -⟩ := hw
          exact absurd he throw_ne_ok
        | some t =>
          simp only [ht, List.foldlM_cons, bind_eq_ok] at hw
          obtain ⟨w₁, he, hw⟩ := hw
          obtain rfl : w.setRecord n (d.firstRecord n) = w₁ := pure_eq_ok.1 he
          have hnp : ¬d.IsPrimitive n := fun hp => hn (h.primitive n hp).1
          obtain ⟨habs, rfl⟩ := mem_abstractTasks ht hnp
          have hless := unseen_cons_lt habs hn
          obtain ⟨seen', hsub, hvisit, hend⟩ :=
            hdeeper _ _ _ (h.enter hn ht) (by omega) hw
          refine ⟨seen', fun k hk => hsub k (List.mem_cons_of_mem _ hk), fun k hk => ?_, hend⟩
          obtain he | hk := List.mem_cons.1 hk
          · cases he
            exact hsub t.name List.mem_cons_self
          · exact hvisit k (List.mem_append_right _ hk)

/-- What holds along a walk holds at its end, when all that was to be visited has been seen. -/
theorem Walked.walkWithin {fuel : Nat} {pending : List Pending}
    (h : Walked d top predicate positive seen pending w) (hfuel : (d.unseen seen).length ≤ fuel)
    (hw : (d.walkWithin fuel seen pending).foldlM (Sweep.advance d d.recursiveTasks) w = .ok w') :
    ∃ seen', (∀ n ∈ seen, n ∈ seen') ∧ (∀ n, .visit n ∈ pending → n ∈ seen') ∧
      Walked d top predicate positive seen' [] w' := by
  induction fuel generalizing seen pending w with
  | zero => exact h.workOff (fun _ _ _ _ hlt => absurd hlt (Nat.not_lt_zero _)) hfuel hw
  | succ fuel ih => exact h.workOff (fun _ _ _ h' hlt => ih h' (Nat.le_of_lt_succ hlt)) hfuel hw

theorem walked_of_sweepAlong
    (h : d.sweepAlong d.recursiveTasks (d.walk top) predicate positive = .ok w) :
    ∃ seen, top ∈ seen ∧ Walked d top predicate positive seen [] w := by
  have hfuel : (d.unseen (d.primitiveTasks.map (·.name))).length ≤ d.abstractTasks.length :=
    List.length_filter_le _ _
  obtain ⟨seen, -, hvisit, hend⟩ := (walked_start d top predicate positive).walkWithin hfuel h
  exact ⟨seen, hvisit top List.mem_cons_self, hend⟩

theorem sweep_eq_ok (h : d.sweep top predicate positive = .ok w) :
    d.sweepAlong d.recursiveTasks (d.walk top) predicate positive = .ok w := by
  unfold Domain.sweep at h
  split at h
  · cases h
  · exact h

theorem Walked.of_finding (h : Walked d top predicate positive seen [] w) {f : Finding}
    (hf : f ∈ w.findings) : f.method ∈ d.methods ∧ ¬d.IsPrimitive f.method.task ∧
      (∀ s ∈ f.method.steps, s.task ∈ seen) ∧ ∃ t c, d.task? f.method.task = some t ∧
      Concludes d w.record t f c ∧ (w.record f.method.task).Covers c := by
  obtain ⟨hseen, hp, hsteps⟩ := h.findings f hf
  obtain ⟨-, t, ht, hmethods, cs, hcs, hrec⟩ := h.entered _ hseen hp
  have hmem : f ∈ w.findingsOf f.method.task := List.mem_filter.2 ⟨hf, by simp⟩
  have hpos : (f.method, f.position) ∈ d.methodsOf f.method.task := by
    rw [← hmethods]
    exact List.mem_append_left _ (List.mem_map.2 ⟨f, hmem, rfl⟩)
  have hplain : ∀ c ∈ cs, c.needs.Plain ∧ c.ensures.Plain := by
    intro c hc
    obtain ⟨g, -, hg⟩ := exists_of_mem_right hcs hc
    exact ⟨(hg.plain h.plain).1, (hg.plain h.plain).2.1⟩
  obtain ⟨c, hc, hfc⟩ := exists_of_mem_left hcs hmem
  refine ⟨List.mem_of_getElem? (Domain.mem_methodsOf.1 hpos).1, hp,
    fun s hs => (hsteps s hs).1, t, c, ht, hfc, ?_⟩
  rw [hrec]
  exact TaskRecord.covers_foldl (d.plain_firstRecord _) hplain hc

theorem Walked.mayAdd_eq_anything (h : Walked d top predicate positive seen [] w) {f : Finding}
    (hf : f ∈ w.findings) :
    f.mayAdd = anything ↔ ∃ s ∈ f.method.steps, (w.record s.task).mayAdd = anything := by
  obtain ⟨-, -, -, t, c, -, hc, -⟩ := h.of_finding hf
  exact (Method.mayAdd_eq_ok hc.may_add fun s _ => (h.plain s.task).ensures.ne_anything).1

theorem Walked.exists_finding (h : Walked d top predicate positive seen [] w) {m : Method}
    (hm : m ∈ d.methods) (hseen : m.task ∈ seen) (hp : ¬d.IsPrimitive m.task) :
    ∃ f ∈ w.findings, f.method = m := by
  obtain ⟨-, t, -, hmethods, -⟩ := h.entered _ hseen hp
  obtain ⟨i, hi⟩ := List.mem_iff_getElem?.1 hm
  have hmem : (m, i) ∈ d.methodsOf m.task := Domain.mem_methodsOf.2 ⟨hi, rfl⟩
  rw [← hmethods, show outstanding m.task [] = [] from rfl, List.append_nil] at hmem
  obtain ⟨f, hf, he⟩ := List.mem_map.1 hmem
  exact ⟨f, List.mem_of_mem_filter hf, (Prod.mk.inj he).1⟩

end Walk

end TaskNetwork
