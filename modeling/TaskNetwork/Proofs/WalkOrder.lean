import TaskNetwork.Proofs.RecordEquations

namespace TaskNetwork

open Relation

/-- What a sweep comes to that works off what is pending. A task is entered, whatever lies below it,
unless its record says that it has been. -/
inductive Domain.Sweeps (d : Domain) : List Pending → Sweep → Except Failure Sweep → Prop
  | done {w : Sweep} : Sweeps d [] w (.ok w)
  | emit {e : WalkEvent} {rest : List Pending} {w w' : Sweep} {r : Except Failure Sweep}
      (h : w.advance d d.recursiveTasks e = .ok w') (hrest : Sweeps d rest w' r) :
      Sweeps d (.emit e :: rest) w r
  | fail {e : WalkEvent} {rest : List Pending} {w : Sweep} {failure : Failure}
      (h : w.advance d d.recursiveTasks e = .error failure) :
      Sweeps d (.emit e :: rest) w (.error failure)
  | skip {n : String} {rest : List Pending} {w : Sweep} {r : Except Failure Sweep}
      (h : (w.record n).finished) (hrest : Sweeps d rest w r) : Sweeps d (.visit n :: rest) w r
  | missing {n : String} {rest : List Pending} {w : Sweep} (h : ¬(w.record n).finished)
      (ht : d.task? n = none) :
      Sweeps d (.visit n :: rest) w (.error (.domain (.unknownTask n)))
  | enter {n : String} {t : Task} {rest : List Pending} {w : Sweep} {r : Except Failure Sweep}
      (h : ¬(w.record n).finished) (ht : d.task? n = some t)
      (hbelow : Sweeps d (d.pendingTask t ++ rest) (w.setRecord n (d.firstRecord n)) r) :
      Sweeps d (.visit n :: rest) w r

/-- The tasks that have been seen are those whose records are finished, the primitive ones among
them. -/
structure Sweep.Stands (d : Domain) (seen : List String) (pending : List Pending) (w : Sweep) :
    Prop where
  finished : ∀ n, n ∈ seen ↔ (w.record n).finished
  primitive : ∀ n, d.IsPrimitive n → n ∈ seen
  silent : ∀ n, .emit (.enter n) ∉ pending

section Termination

variable {d : Domain} {top predicate n : String} {positive : Bool} {seen : List String}
  {pending rest : List Pending} {w w' : Sweep} {r r' : Except Failure Sweep}

theorem Domain.Sweeps.unique (h : d.Sweeps pending w r) (h' : d.Sweeps pending w r') : r = r' := by
  induction h with
  | done =>
    cases h'
    rfl
  | emit he _ ih =>
    cases h' with
    | emit he' hrest =>
      cases he.symm.trans he'
      exact ih hrest
    | fail he' => cases he.symm.trans he'
  | fail he =>
    cases h' with
    | emit he' _ => cases he.symm.trans he'
    | fail he' =>
      cases he.symm.trans he'
      rfl
  | skip hn _ ih =>
    cases h' with
    | skip _ hrest => exact ih hrest
    | missing hno _ => exact absurd hn hno
    | enter hno _ _ => exact absurd hn hno
  | missing hno ht =>
    cases h' with
    | skip hn _ => exact absurd hn hno
    | missing _ _ => rfl
    | enter _ ht' _ => cases ht.symm.trans ht'
  | enter hno ht _ ih =>
    cases h' with
    | skip hn _ => exact absurd hn hno
    | missing _ ht' => cases ht.symm.trans ht'
    | enter _ ht' hbelow =>
      cases ht.symm.trans ht'
      exact ih hbelow

theorem stands_start (d : Domain) (top predicate : String) (positive : Bool) :
    Sweep.Stands d (d.primitiveTasks.map (·.name)) [.visit top]
      (Sweep.start d predicate positive) where
  finished n := by
    obtain ⟨hn, hr⟩ | ⟨t, ht, rfl, hr⟩ := record_start d predicate positive n
    · rw [hr]
      exact iff_of_false hn (by simp)
    · rw [hr]
      exact iff_of_true (List.mem_map.2 ⟨t, ht, rfl⟩) rfl
  primitive n hn := hn
  silent n h := by simp at h

theorem Sweep.Stands.tail {p : Pending} (h : w.Stands d seen (p :: rest)) : w.Stands d seen rest :=
  ⟨h.finished, h.primitive, fun n hn => h.silent n (List.mem_cons_of_mem p hn)⟩

theorem Sweep.Stands.advance {e : WalkEvent} (h : w.Stands d seen (.emit e :: rest))
    (he : w.advance d d.recursiveTasks e = .ok w') : w'.Stands d seen rest := by
  refine ⟨fun n => ?_, h.primitive, h.tail.silent⟩
  rw [h.finished]
  cases e with
  | enter k => exact absurd List.mem_cons_self (h.silent k)
  | missing k => exact absurd he throw_ne_ok
  | leaveStep m s =>
    simp only [Sweep.advance, bind_eq_ok, pure_eq_ok] at he
    obtain ⟨-, -, rfl⟩ := he
    rfl
  | conclude t m i =>
    obtain ⟨f, c, -, -, -, rfl⟩ := Sweep.conclude_eq_ok he
    change _ ↔ ((w.setRecord t.name ((w.record t.name).add c)).record n).finished
    rw [Sweep.record_setRecord]
    split
    · next hn => rw [TaskRecord.add_finished, hn]
    · rfl

theorem Sweep.Stands.enter {t : Task} (h : w.Stands d seen (.visit n :: rest)) :
    (w.setRecord n (d.firstRecord n)).Stands d (n :: seen) (d.pendingTask t ++ rest) := by
  refine ⟨fun k => ?_, fun k hk => List.mem_cons_of_mem n (h.primitive k hk), fun k hk => ?_⟩
  · rw [List.mem_cons, Sweep.record_setRecord, h.finished]
    split
    · next hkn => exact iff_of_true (.inl hkn) (d.firstRecord_finished n)
    · next hkn => exact or_iff_right hkn
  · obtain hk | hk := List.mem_append.1 hk
    · obtain ⟨m, i, -, he⟩ | ⟨m, i, -, s, -, he | he⟩ := mem_pendingTask hk <;> cases he
    · exact h.tail.silent k hk

/-- The bound on a walk does not show: a walk that may enter all tasks not seen so far ends where
one without a bound does. -/
theorem sweeps_workOff {deeper : List String → List Pending → List WalkEvent} {k : ℕ}
    (hdeeper : ∀ seen pending w, Sweep.Stands d seen pending w → (d.unseen seen).length < k →
      d.Sweeps pending w ((deeper seen pending).foldlM (Sweep.advance d d.recursiveTasks) w))
    (h : w.Stands d seen pending) (hk : (d.unseen seen).length ≤ k) :
    d.Sweeps pending w
      ((d.workOff deeper seen pending).foldlM (Sweep.advance d d.recursiveTasks) w) := by
  induction pending generalizing w with
  | nil => exact .done
  | cons p rest ih =>
    cases p with
    | emit e =>
      rw [Domain.workOff, List.foldlM_cons]
      cases he : w.advance d d.recursiveTasks e with
      | error failure => exact .fail he
      | ok w₁ => exact .emit he (ih (h.advance he))
    | visit n =>
      by_cases hn : n ∈ seen
      · rw [Domain.workOff, if_pos hn]
        exact .skip ((h.finished n).1 hn) (ih h.tail)
      · have hno : ¬(w.record n).finished := mt (h.finished n).2 hn
        rw [Domain.workOff, if_neg hn]
        cases ht : d.task? n with
        | none => exact .missing hno ht
        | some t =>
          obtain ⟨habstract, rfl⟩ := mem_abstractTasks ht (mt (h.primitive n) hn)
          have hless := unseen_cons_lt habstract hn
          exact .enter hno ht (hdeeper _ _ _ h.enter (by omega))

theorem sweeps_walkWithin {fuel : ℕ} (h : w.Stands d seen pending)
    (hfuel : (d.unseen seen).length ≤ fuel) : d.Sweeps pending w
      ((d.walkWithin fuel seen pending).foldlM (Sweep.advance d d.recursiveTasks) w) := by
  induction fuel generalizing seen pending w with
  | zero => exact sweeps_workOff (fun _ _ _ _ hlt => absurd hlt (Nat.not_lt_zero _)) h hfuel
  | succ fuel ih =>
    exact sweeps_workOff (fun _ _ _ h' hlt => ih h' (Nat.le_of_lt_succ hlt)) h hfuel

theorem sweeps_sweep {t : Task} (ht : d.task? top = some t) (predicate : String) (positive : Bool) :
    d.Sweeps [.visit top] (Sweep.start d predicate positive) (d.sweep top predicate positive) := by
  rw [Domain.sweep, ht]
  exact sweeps_walkWithin (stands_start d top predicate positive) (List.length_filter_le _ _)

theorem Domain.sweeps_iff {t : Task} (ht : d.task? top = some t) :
    d.Sweeps [.visit top] (Sweep.start d predicate positive) r ↔
      d.sweep top predicate positive = r := by
  have hsweep := sweeps_sweep ht predicate positive
  constructor
  · exact fun h => hsweep.unique h
  · rintro rfl
    exact hsweep

end Termination

/-- Conclusions come after those about the tasks of the steps, unless these tasks lead back. -/
structure PostOrdered (d : Domain) (pending : List Pending) (w : Sweep) : Prop where
  nested : pending.Pairwise fun p q =>
    ∀ t m i, q = .emit (.conclude t m i) → d.Visits t.name p.task
  later : ∀ f ∈ w.findings, ∀ s ∈ f.method.steps, ∀ t m i,
    .emit (.conclude t m i) ∈ pending → t.name = s.task → d.Visits s.task f.method.task
  sorted : w.findings.Pairwise fun f g =>
    ∀ s ∈ f.method.steps, s.task = g.method.task → d.Visits s.task f.method.task

section Order

variable {d : Domain} {top predicate n : String} {positive : Bool} {seen : List String}
  {pending rest : List Pending} {w w' : Sweep} {p : Pending} {t : Task} {m : Method} {i : ℕ}

theorem postOrdered_start (d : Domain) (top predicate : String) (positive : Bool) :
    PostOrdered d [.visit top] (Sweep.start d predicate positive) where
  nested := List.pairwise_singleton _ _
  later f hf := by cases hf
  sorted := List.Pairwise.nil

theorem PostOrdered.tail (h : PostOrdered d (p :: rest) w) : PostOrdered d rest w where
  nested := (List.pairwise_cons.1 h.nested).2
  later f hf s hs t m i hmem := h.later f hf s hs t m i (List.mem_cons_of_mem p hmem)
  sorted := h.sorted

theorem visits_of_mem_pendingTask (ht : d.task? t.name = some t) (hn : ¬d.IsPrimitive t.name)
    (hp : p ∈ d.pendingTask t) : d.Visits t.name p.task := by
  obtain ⟨m, i, -, rfl⟩ | ⟨m, i, hm, s, hs, rfl | rfl⟩ := mem_pendingTask hp
  · exact .refl
  · exact .single ⟨hn, decomposes_of_mem_methodsOf ht hn hm hs⟩
  · exact .single ⟨hn, decomposes_of_mem_methodsOf ht hn hm hs⟩

theorem eq_of_conclude_mem_pendingTask {u : Task}
    (h : .emit (.conclude u m i) ∈ d.pendingTask t) : u = t := by
  obtain ⟨_, _, -, he⟩ | ⟨_, _, -, _, -, he | he⟩ := mem_pendingTask h
  · cases he
    rfl
  · cases he
  · cases he

theorem PostOrdered.enter (h : PostOrdered d (.visit n :: rest) w)
    (hwalked : Walked d top predicate positive seen (.visit n :: rest) w) (hn : n ∉ seen)
    (ht : d.task? n = some t) :
    PostOrdered d (d.pendingTask t ++ rest) (w.setRecord n (d.firstRecord n)) := by
  obtain rfl : t.name = n := (Domain.mem_of_task?_eq_some ht).2
  have hnp : ¬d.IsPrimitive t.name := fun hp => hn (hwalked.primitive _ hp).1
  obtain ⟨hhead, hrest⟩ := List.pairwise_cons.1 h.nested
  refine ⟨List.pairwise_append.2 ⟨?_, hrest, fun p hp q hq u m i hc => ?_⟩,
    fun f hf s hs u m i hc hname => ?_, h.sorted⟩
  · apply List.pairwise_of_forall_mem_list
    rintro p hp q hq u m i rfl
    rw [eq_of_conclude_mem_pendingTask hq]
    exact visits_of_mem_pendingTask ht hnp hp
  · exact (hhead q hq u m i hc).trans (visits_of_mem_pendingTask ht hnp hp)
  · obtain hc | hc := List.mem_append.1 hc
    · -- a task that is entered only now is not the task of a step of a method done with
      obtain rfl := eq_of_conclude_mem_pendingTask hc
      exact absurd (hname ▸ ((hwalked.findings f hf).2.2 s hs).1) hn
    · exact h.tail.later f hf s hs u m i hc hname

theorem PostOrdered.conclude (h : PostOrdered d (.emit (.conclude t m i) :: rest) w)
    (hwalked : Walked d top predicate positive seen (.emit (.conclude t m i) :: rest) w)
    (hw : w.conclude d t m i = .ok w') : PostOrdered d rest w' := by
  obtain ⟨f, c, rfl, rfl, -, rfl⟩ := Sweep.conclude_eq_ok hw
  have htask : f.method.task = t.name := (Domain.mem_methodsOf.1 hwalked.mem_methodsOf).2
  refine ⟨h.tail.nested, fun g hg s hs u n j hc hname => ?_,
    List.pairwise_append.2 ⟨h.sorted, List.pairwise_singleton _ _, fun g hg k hk s hs hname => ?_⟩⟩
  · obtain hg | hg := List.mem_append.1 hg
    · exact h.tail.later g hg s hs u n j hc hname
    · obtain rfl := List.mem_singleton.1 hg
      rw [htask, ← hname]
      exact (List.pairwise_cons.1 h.nested).1 _ hc u n j rfl
  · obtain rfl := List.mem_singleton.1 hk
    exact h.later g hg s hs t k.method k.position List.mem_cons_self (htask.symm.trans hname.symm)

theorem PostOrdered.advance {e : WalkEvent} (h : PostOrdered d (.emit e :: rest) w)
    (hwalked : Walked d top predicate positive seen (.emit e :: rest) w)
    (hw : w.advance d d.recursiveTasks e = .ok w') : PostOrdered d rest w' := by
  cases e with
  | enter n => exact absurd List.mem_cons_self (hwalked.silent n)
  | missing n => exact absurd hw throw_ne_ok
  | leaveStep m s =>
    simp only [Sweep.advance, bind_eq_ok, pure_eq_ok] at hw
    obtain ⟨-, -, rfl⟩ := hw
    exact h.tail
  | conclude t m i => exact h.conclude hwalked hw

theorem Domain.Sweeps.postOrdered {r : Except Failure Sweep} (hsweeps : d.Sweeps pending w r)
    (hr : r = .ok w') (hwalked : Walked d top predicate positive seen pending w)
    (hstands : w.Stands d seen pending) (h : PostOrdered d pending w) : PostOrdered d [] w' := by
  induction hsweeps generalizing seen with
  | done =>
    cases hr
    exact h
  | emit he _ ih => exact ih hr (hwalked.advance he) (hstands.advance he) (h.advance hwalked he)
  | fail _ => cases hr
  | skip hn _ ih =>
    exact ih hr (hwalked.skip ((hstands.finished _).2 hn)) hstands.tail h.tail
  | missing _ _ => cases hr
  | enter hno ht _ ih =>
    have hn := mt (hstands.finished _).1 hno
    exact ih hr (hwalked.enter hn ht) hstands.enter (h.enter hwalked hn ht)

end Order

section Findings

variable {d : Domain} {top predicate n : String} {positive : Bool} {seen : List String} {w : Sweep}
  {m : Method} {i : ℕ}

theorem Domain.nodup_methodsOf (d : Domain) (n : String) : (d.methodsOf n).Nodup := by
  have hpositions : (d.methods.zipIdx.map Prod.snd).Nodup := by
    rw [List.zipIdx_map_snd]
    exact List.nodup_range'
  exact hpositions.of_map.filter _

theorem Walked.finding_iff (h : Walked d top predicate positive seen [] w) :
    (∃ f ∈ w.findings, f.method = m ∧ f.position = i) ↔
      d.methods[i]? = some m ∧ m.task ∈ seen ∧ ¬d.IsPrimitive m.task := by
  have hmethods : ∀ n ∈ seen, ¬d.IsPrimitive n →
      (w.findingsOf n).map (fun f => (f.method, f.position)) = d.methodsOf n := by
    intro n hn hnp
    obtain ⟨_, _, -, -, heq, -⟩ := h.concluded hn hnp
    exact heq
  constructor
  · rintro ⟨f, hf, rfl, rfl⟩
    obtain ⟨hseen, hnp, -⟩ := h.findings f hf
    have hmem : (f.method, f.position) ∈ d.methodsOf f.method.task := by
      rw [← hmethods _ hseen hnp]
      exact List.mem_map.2 ⟨f, List.mem_filter.2 ⟨hf, by simp⟩, rfl⟩
    exact ⟨(Domain.mem_methodsOf.1 hmem).1, hseen, hnp⟩
  · rintro ⟨hi, hseen, hnp⟩
    have hmem : (m, i) ∈ d.methodsOf m.task := Domain.mem_methodsOf.2 ⟨hi, rfl⟩
    rw [← hmethods _ hseen hnp] at hmem
    obtain ⟨f, hf, heq⟩ := List.mem_map.1 hmem
    cases heq
    exact ⟨f, List.mem_of_mem_filter hf, rfl, rfl⟩

theorem Walked.nodup_findings (h : Walked d top predicate positive seen [] w) :
    (w.findings.map fun f => (f.method, f.position)).Nodup := by
  refine List.pairwise_map.2 (List.pairwise_iff_forall_sublist.2 fun {f g} hsub heq => ?_)
  have hf : f ∈ w.findings := hsub.subset List.mem_cons_self
  obtain ⟨hseen, hnp, -⟩ := h.findings f hf
  obtain ⟨_, _, -, -, hmethods, -⟩ := h.concluded hseen hnp
  -- both are about methods for the same task
  have hboth : [f, g].Sublist (w.findingsOf f.method.task) := by
    have hfilter := hsub.filter fun x => decide (x.method.task = f.method.task)
    rwa [List.filter_eq_self.2] at hfilter
    have htask : g.method.task = f.method.task := by rw [(Prod.mk.inj heq).1]
    simp [htask]
  have hnodup := d.nodup_methodsOf f.method.task
  rw [← hmethods] at hnodup
  exact List.pairwise_iff_forall_sublist.1 (List.pairwise_map.1 hnodup) hboth heq

theorem pairwise_names (hnames : (d.methods.map (·.name)).Nodup)
    (hv : d.sweep top predicate positive = .ok v) :
    v.findings.Pairwise fun f g => f.method.name ≠ g.method.name := by
  obtain ⟨seen, -, hwalked⟩ := walked_of_sweepAlong (sweep_eq_ok hv)
  have hposition : ∀ f ∈ v.findings, d.methods[f.position]? = some f.method := fun f hf =>
    (hwalked.finding_iff.1 ⟨f, hf, rfl, rfl⟩).1
  refine (List.pairwise_map.1 hwalked.nodup_findings).imp_of_mem fun {f g} hf hg hne heq => hne ?_
  have hf' := hposition f hf
  have hg' := hposition g hg
  have hmethod : f.method = g.method :=
    List.inj_on_of_nodup_map hnames (List.mem_of_getElem? hf') (List.mem_of_getElem? hg') heq
  rw [← hmethod] at hg'
  have hindex : f.position = g.position :=
    (List.getElem?_inj (List.getElem?_eq_some_iff.1 hf').1 hnames.of_map).1 (hf'.trans hg'.symm)
  rw [hmethod, hindex]

end Findings

/-- The walk below a declared task comes to an end. Unless it fails on the way, it has concluded
each method for a task that is visited and not primitive once, at its position, and no other method;
there are records of the primitive tasks and of those visited, all of them finished; and a method
comes after those for the tasks of its steps, unless such a task leads back to its own. -/
theorem walk_concludes_each_once {d : Domain} {top : String} {t : Task} (ht : d.task? top = some t)
    (predicate : String) (positive : Bool) :
    (∀ r, d.Sweeps [.visit top] (Sweep.start d predicate positive) r ↔
      d.sweep top predicate positive = r) ∧
    ∀ w, d.sweep top predicate positive = .ok w →
      (w.findings.map fun f => (f.method, f.position)).Nodup ∧
      (∀ m i, (∃ f ∈ w.findings, f.method = m ∧ f.position = i) ↔
        d.methods[i]? = some m ∧ d.Visits top m.task ∧ ¬d.IsPrimitive m.task) ∧
      (∀ n, (w.record? n).isSome ↔ d.IsPrimitive n ∨ d.Visits top n) ∧
      (∀ n r, w.record? n = some r → r.finished) ∧
      w.findings.Pairwise fun f g =>
        ∀ s ∈ f.method.steps, s.task = g.method.task → d.Visits s.task f.method.task := by
  refine ⟨fun r => Domain.sweeps_iff ht, fun w hw => ?_⟩
  obtain ⟨seen, htop, hwalked⟩ := walked_of_sweepAlong (sweep_eq_ok hw)
  have hseen : ∀ n, n ∈ seen ↔ d.IsPrimitive n ∨ d.Visits top n := by
    intro n
    refine ⟨fun hn => (isSome_record?_of_sweep hw).1 (hwalked.isSome_record? hn), fun hn => ?_⟩
    exact hn.elim (fun hp => (hwalked.primitive n hp).1) (hwalked.mem_of_visits htop)
  refine ⟨hwalked.nodup_findings, fun m i => ?_, fun n => isSome_record?_of_sweep hw,
    fun n r hr => ?_, ?_⟩
  · rw [hwalked.finding_iff, hseen]
    exact and_congr_right fun _ => and_congr_left fun hnp => or_iff_right hnp
  · have hn : n ∈ seen := (hseen n).2 ((isSome_record?_of_sweep hw).1 (by rw [hr]; rfl))
    have hfinished := hwalked.finished hn
    rwa [Sweep.record, hr] at hfinished
  · exact ((sweeps_sweep ht predicate positive).postOrdered hw
      (walked_start d top predicate positive) (stands_start d top predicate positive)
      (postOrdered_start d top predicate positive)).sorted

theorem walk_concludes_each_once_touring : ∃ w, touring.sweep "round" "free" true = .ok w ∧
    touring.Sweeps [.visit "round"] (Sweep.start touring "free" true) (.ok w) ∧
    (w.findings.map fun f => (f.method, f.position)).Nodup ∧
    (∃ f ∈ w.findings, f.method = goOn ∧ f.position = 1) ∧
    (∃ r, w.record? "tour" = some r ∧ r.finished) ∧
    w.findings.Pairwise fun f g =>
      ∀ s ∈ f.method.steps, s.task = g.method.task → touring.Visits s.task f.method.task := by
  have hdown : touring.Continues "round" "tour" :=
    ⟨by decide, by decide, goRound, by decide, rfl, _, List.mem_cons_of_mem _ List.mem_cons_self,
      rfl⟩
  obtain ⟨w, hw⟩ : ∃ w, touring.sweep "round" "free" true = .ok w := ⟨_, rfl⟩
  have htop : touring.task? "round" = some
      (Task.ofParameters "round" [{ name := "y", sort := "thing" }]) := rfl
  obtain ⟨hsweeps, hok⟩ := walk_concludes_each_once htop "free" true
  obtain ⟨hnodup, hfindings, hrecords, hfinished, hsorted⟩ := hok w hw
  obtain ⟨r, hr⟩ := Option.isSome_iff_exists.1 ((hrecords "tour").2 (.inr (.single hdown)))
  exact ⟨w, hw, (hsweeps _).2 hw, hnodup, (hfindings goOn 1).2 ⟨rfl, .single hdown, by decide⟩,
    ⟨r, hr, hfinished _ r hr⟩, hsorted⟩

def atOnce : Method := { byHand with name := "at_once", task := "pick", steps := [] }

def fetchingAtOnce : Domain := { fetching with methods := [byHand, atOnce] }

/-- Methods for primitive tasks are not concluded, even if these tasks are visited. -/
theorem walk_skips_methods_for_primitive_tasks : fetchingAtOnce.WellFormed ∧
    atOnce ∈ fetchingAtOnce.methods ∧ fetchingAtOnce.Visits "fetch" atOnce.task ∧
    ∃ w, fetchingAtOnce.sweep "fetch" "free" true = .ok w ∧
      ∀ f ∈ w.findings, f.method ≠ atOnce := by
  have hstep : fetchingAtOnce.Continues "fetch" "pick" :=
    ⟨by decide, by decide, byHand, by decide, rfl, _, List.mem_cons_self, rfl⟩
  exact ⟨⟨by decide, by decide, by decide, by decide⟩, by decide, .single hstep, _, rfl, by decide⟩

end TaskNetwork
