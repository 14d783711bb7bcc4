import TaskNetwork.Proofs.ReusedChecks

namespace TaskNetwork

open Acceptance

/-- Something is accepted for a method whose first check step has this task. -/
def Domain.Receives (d : Domain) (top task : String) : Prop :=
  ∃ m ∈ d.methods, ∃ s, m.firstCheckStep? = some s ∧ s.task = task ∧ ∃ l, d.Accepts top m l

/-- The task of a check step to which inference may add is asked for by nothing else, and the names of
new check steps and of their tasks are free. -/
structure Domain.ChecksApart (d : Domain) : Prop where
  alone : ∀ m ∈ d.methods, ∀ c, m.firstCheckStep? = some c → d.IsPrimitive c.task →
    ∀ n ∈ d.methods, n.task ≠ c.task ∧ ∀ s ∈ n.steps, s.task = c.task → n = m ∧ s = c
  free : ∀ m ∈ d.methods, (∀ c, m.firstCheckStep? = some c → ¬d.IsPrimitive c.task) →
    newCheckTaskMark ++ m.name ∉ d.tasks.map (·.name) ∧ newCheckStepMark ++ m.name ∉ m.stepIds

section Methods

variable {m : Method} {step : ℕ} {vs : List TypedName} {s : Step}

theorem Method.mem_steps_widen : s ∈ (m.widen step vs).steps ↔ ∃ k r, m.steps[k]? = some r ∧
    s = if step = k then { r with arguments := r.arguments ++ vs.map (·.name) } else r := by
  simp only [List.mem_iff_getElem?, widen, List.getElem?_modify, Option.map_eq_map,
    Option.map_eq_some_iff, eq_comm (a := s)]

theorem Method.Consistent.widen (hm : m.Consistent) (hvs : ∀ v ∈ vs, v.name ∈ m.variableNames) :
    (m.widen step vs).Consistent := by
  refine ⟨hm.nodup_variables, ?_, fun p hp => ?_, fun a ha => ?_⟩
  · rw [Method.stepIds_widen]
    exact hm.nodup_steps
  · rw [Method.stepIds_widen]
    exact hm.ordered p hp
  · have hold : a ∈ m.usedNames → a ∈ m.variableNames := hm.declared a
    simp only [Method.usedNames, List.mem_append] at ha hold
    obtain (ha | ha) | ha := ha
    · exact hold (.inl (.inl ha))
    · obtain ⟨s, hs, ha⟩ := List.mem_flatMap.1 ha
      obtain ⟨k, r, hr, rfl⟩ := Method.mem_steps_widen.1 hs
      have hargs : a ∈ r.arguments → a ∈ m.variableNames := fun ha =>
        hold (.inl (.inr (List.mem_flatMap.2 ⟨r, List.mem_of_getElem? hr, ha⟩)))
      split at ha
      · obtain ha | ha := List.mem_append.1 ha
        · exact hargs ha
        · obtain ⟨v, hv, rfl⟩ := List.mem_map.1 ha
          exact hvs v hv
      · exact hargs ha
    · exact hold (.inr ha)

theorem Method.Consistent.step_index (hm : m.Consistent) {i j : ℕ} (hi : m.steps[i]? = some s)
    (hj : m.steps[j]? = some s) : i = j := by
  have hnodup : m.steps.Nodup := hm.nodup_steps.of_map
  exact (List.getElem?_inj (List.getElem?_eq_some_iff.1 hi).1 hnodup).1 (hi.trans hj.symm)

end Methods

section Logs

variable {d : Domain} {made : List Method} {log : List Acceptance} {w : Draft} {m : Method}
  {slot : CheckSlot} {name : String}

theorem Draft.Logs.task?_unused (hd : d.NamesDiffer) (h : w.Logs d made log)
    (hname : name ∈ d.tasks.map (·.name))
    (hlog : ∀ e ∈ log, ∀ c, e.method.firstCheckStep? = some c → d.IsPrimitive c.task →
      c.task ≠ name)
    (hmade : ∀ m ∈ made, newCheckTaskMark ++ m.name ≠ name) :
    (w.apply d).task? name = d.task? name := by
  by_cases hprim : d.IsPrimitive name
  · obtain ⟨t, ht, rfl⟩ := List.mem_map.1 hprim
    obtain ⟨j, hj⟩ := List.mem_iff_getElem?.1 ht
    have hnone : ∀ e ∈ log, e.slot.task ≠ j := fun e he htask => by
      obtain ⟨c, hc, hct⟩ := (h.slot_task_iff hd he hj).1 htask
      exact hlog e he c hc (hct ▸ hprim) hct
    rw [h.task?_primitive hd hj, addedTo_eq_nil hnone, literalsOf_eq_nil.2 hnone, Task.widen_nil,
      hd.task?_eq_some.2 ⟨List.mem_append_left _ ht, rfl⟩]
  · have hno : name ∉ w.primitiveTasks.map (·.name) := by
      rw [h.map_name, Domain.tasksWith, List.map_append, List.mem_append, not_or]
      refine ⟨hprim, fun hmem => ?_⟩
      obtain ⟨t, ht, hname⟩ := List.mem_map.1 hmem
      obtain ⟨m, hm, rfl⟩ := List.mem_map.1 ht
      exact hmade m hm hname
    have hfind : ∀ tasks : List Task, name ∉ tasks.map (·.name) →
        tasks.find? (·.name = name) = none := fun tasks hno =>
      List.find?_eq_none.2 fun t ht => by
        rw [decide_eq_true_eq]
        exact fun hname => hno (hname ▸ List.mem_map_of_mem ht)
    change (w.primitiveTasks ++ d.abstractTasks).find? _ =
      (d.primitiveTasks ++ d.abstractTasks).find? _
    rw [List.find?_append, List.find?_append, hfind _ hno, hfind _ hprim]

/-- What a step of a primitive task requires, it requires afterwards, and what was added to the task
as well. -/
theorem Draft.Logs.required_apply (hd : d.WellFormed) (h : w.Logs d made log) (hm : m ∈ d.methods)
    {s : Step} (hs : s ∈ m.steps) {j : ℕ} {t : Task} (ht : d.primitiveTasks[j]? = some t)
    (hst : t.name = s.task) :
    (w.apply d).required s =
      d.required s ++ (literalsOf log j).map (·.ground ((w.apply d).passed s)) := by
  have htask := h.task?_primitive hd.names ht
  have hold : d.task? s.task = some t :=
    hd.names.task?_eq_some.2 ⟨List.mem_append_left _ (List.mem_of_getElem? ht), hst⟩
  obtain ⟨u, hu⟩ := hd.calls hm hs
  obtain rfl : t = u := Option.some.inj (hold.symm.trans hu.task)
  have hconsistent := h.consistent _
    (List.mem_of_getElem? (h.tasks _ _ (Domain.getElem?_tasksWith ht made)))
  rw [hst] at htask
  have hsame : ∀ l ∈ t.preconditions, l.ground ((w.apply d).passed s) = l.ground (d.passed s) := by
    intro l hl
    have hargs : ∀ p ∈ l.arguments, (w.apply d).passed s p = d.passed s p := by
      intro p hp
      have hpt := (hd.consistent (List.mem_append_left _ (List.mem_of_getElem? ht))).declared l
        (List.mem_append_left _ hl) p hp
      have hwiden := Task.valuation_widen hconsistent.nodup_parameters hu.length hpt []
      rwa [List.append_nil, ← Domain.passed_of_task? htask, ← hu.passed_eq] at hwiden
    rw [Literal.ground, Literal.ground, List.map_congr_left hargs]
  rw [Domain.required, Domain.preconditions, Domain.required, Domain.preconditions, htask, hold,
    Domain.passed_of_task? htask]
  rw [Domain.passed_of_task? htask, hu.passed_eq] at hsame
  change (t.preconditions ++ literalsOf log j).map _ = _
  rw [List.map_append, List.map_congr_left hsame]

theorem Draft.LogsOffers.mem_methods {offers : List (Method × Literal)}
    (h : w.LogsOffers d offers made log) (hm : m ∈ d.methods)
    (hnone : ∀ l, ¬d.AcceptsAmong offers m l) : m ∈ w.methods ∧ w.slots.lookup m.name = none := by
  obtain ⟨i, hi⟩ := List.mem_iff_getElem?.1 hm
  have hslot : w.slots.lookup m.name = none := by
    rw [← Option.not_isSome_iff_eq_none]
    intro hsome
    obtain ⟨e, he, rfl⟩ := h.used m hm hsome
    exact hnone _ ((h.complete _ _).1 ⟨e, he, rfl, rfl⟩)
  exact ⟨List.mem_of_getElem? (h.untouched i m hi hslot), hslot⟩

section Apart

variable (hd : d.WellFormed) (h : w.Logs d made log) (hapart : d.ChecksApart)
include hd h hapart

omit hd in
theorem Draft.Logs.made_notMem (hm : m ∈ made) :
    newCheckTaskMark ++ m.name ∉ d.tasks.map (·.name) := by
  obtain ⟨hmem, -, hprim⟩ := h.slot_made m hm
  exact (hapart.free m hmem hprim).1

theorem Draft.Logs.old_or_made (hm : m ∈ d.methods) {b : Method} (hplaced : Placed d made m slot b) :
    (∃ c t, m.firstCheckStep? = some c ∧ m.steps[slot.step]? = some c ∧
      d.primitiveTasks[slot.task]? = some t ∧ t.name = c.task ∧ b = m) ∨
    ∃ k, made[k]? = some m ∧ slot.task = d.primitiveTasks.length + k ∧
      slot.step = m.steps.length ∧ b = m.addCheckStep := by
  cases hplaced with
  | @found c t hfirst hc ht hname _ =>
    refine .inl ⟨c, t, hfirst, hc, ?_, hname, rfl⟩
    obtain hlt | hle := Nat.lt_or_ge slot.task d.primitiveTasks.length
    · rwa [Domain.tasksWith, List.getElem?_append_left hlt] at ht
    · rw [Domain.tasksWith, List.getElem?_append_right hle] at ht
      obtain ⟨n, hn, rfl⟩ := List.mem_map.1 (List.mem_of_getElem? ht)
      refine absurd ?_ (h.made_notMem hapart hn)
      have hmem := ((hd.fits hm).steps c (List.mem_of_getElem? hc)).mem_names
      rwa [← hname] at hmem
  | made _ hstep hk htask => exact .inr ⟨_, hk, htask, hstep, rfl⟩

theorem Draft.Logs.addedTo_slot (hm : m ∈ d.methods) (hslot : w.slots.lookup m.name = some slot) :
    addedTo log slot.task = addedFor log m := by
  obtain ⟨i, hi⟩ := List.mem_iff_getElem?.1 hm
  obtain ⟨-, b, hplaced, -⟩ := h.slots i m slot hi hslot
  refine addedTo_eq_addedFor fun e he => ⟨fun htask => ?_, ?_⟩
  · obtain ⟨hem, heslot, -⟩ := h.accepted e he
    obtain ⟨j, hj⟩ := List.mem_iff_getElem?.1 hem
    obtain ⟨-, b', hplaced', -⟩ := h.slots j _ _ hj heslot
    obtain ⟨c, t, hc, hcm, ht, hname, -⟩ | ⟨k, hk, hslotk, -⟩ := h.old_or_made hd hapart hm hplaced
    · have hcprim : d.IsPrimitive c.task := hname ▸ List.mem_map_of_mem (List.mem_of_getElem? ht)
      obtain ⟨c', hc', hct⟩ := (h.slot_task_iff hd.names he ht).1 htask
      have halone := (hapart.alone e.method hem c' hc' (hct ▸ hname ▸ hcprim) m hm).2 c
      exact (halone (List.mem_of_getElem? hcm) (hname.symm.trans hct.symm)).1.symm
    · obtain ⟨c', t', -, -, ht', -⟩ | ⟨k', hk', hslotk', -⟩ := h.old_or_made hd hapart hem hplaced'
      · have hlt := (List.getElem?_eq_some_iff.1 ht').1
        omega
      · obtain rfl : k = k' := by omega
        exact Option.some.inj (hk'.symm.trans hk)
  · rintro rfl
    rw [Option.some.inj ((h.accepted e he).2.1.symm.trans hslot)]

theorem Draft.Logs.task?_apart (hname : name ∈ d.tasks.map (·.name))
    (hno : ∀ n ∈ d.methods, (w.slots.lookup n.name).isSome → ∀ c, n.firstCheckStep? = some c →
      d.IsPrimitive c.task → c.task ≠ name) : (w.apply d).task? name = d.task? name := by
  refine h.task?_unused hd.names hname (fun e he => ?_) fun n hn heq => ?_
  · obtain ⟨hem, heslot, -⟩ := h.accepted e he
    exact hno _ hem (by rw [heslot]; rfl)
  · exact h.made_notMem hapart hn (heq ▸ hname)

theorem Draft.Logs.step_apart (hm : m ∈ d.methods) {s : Step} (hs : s ∈ m.steps)
    (hno : (w.slots.lookup m.name).isSome → m.firstCheckStep? = some s → ¬d.IsPrimitive s.task) :
    (w.apply d).task? s.task = d.task? s.task := by
  refine h.task?_apart hd hapart ((hd.fits hm).steps s hs).mem_names fun n hn hsome c hc hprim heq => ?_
  obtain ⟨rfl, rfl⟩ := (hapart.alone n hn c hc hprim m hm).2 s hs heq.symm
  exact hno hsome hc hprim

theorem Draft.Logs.task?_made {k : ℕ} (hk : made[k]? = some m)
    (htask : slot.task = d.primitiveTasks.length + k) :
    (w.apply d).task? (newCheckTaskMark ++ m.name) =
      some (m.checkTask.widen (addedTo log slot.task) (literalsOf log slot.task)) := by
  have hm := List.mem_of_getElem? hk
  refine h.task?_apply (htask ▸ Domain.getElem?_tasksWith_made hk) fun i u hu hname => ?_
  obtain hlt | hle := Nat.lt_or_ge i d.primitiveTasks.length
  · rw [Domain.tasksWith, List.getElem?_append_left hlt] at hu
    refine absurd ?_ (h.made_notMem hapart hm)
    have hmem := List.mem_append_left d.abstractTasks (List.mem_of_getElem? hu)
    exact List.mem_map.2 ⟨u, hmem, hname⟩
  · rw [Domain.tasksWith, List.getElem?_append_right hle, List.getElem?_map,
      Option.map_eq_some_iff] at hu
    obtain ⟨n, hn, rfl⟩ := hu
    have hnm := hd.names.eq_of_name_eq (h.slot_made n (List.mem_of_getElem? hn)).1
      (h.slot_made m hm).1 (newCheckTask_inj hname)
    have hki := (List.getElem?_inj (List.getElem?_eq_some_iff.1 hk).1 h.nodup_made).1
      (hk.trans (hnm ▸ hn.symm))
    omega

omit h hapart in
theorem Draft.Logs.added_declared (h : w.Logs d made log) (hm : m ∈ d.methods) :
    ∀ v ∈ addedFor log m, v.name ∈ m.variableNames := by
  intro v hv
  obtain ⟨e, he, hve⟩ := List.mem_flatMap.1 hv
  obtain ⟨hlog, hem⟩ := List.mem_filter.1 he
  obtain rfl := of_decide_eq_true hem
  obtain ⟨n, hn, hname, hdeclared⟩ := Domain.sortOf_eq_ok ((h.accepted e hlog).2.2 v hve)
  obtain rfl := hd.names.eq_of_name_eq hn hm hname
  exact List.mem_map_of_mem hdeclared

theorem Draft.Logs.hasArity_task (hm : m ∈ d.methods) :
    (w.apply d).HasArity m.task m.taskArguments.length := by
  obtain ⟨t, ht, hlen⟩ := (hd.fits hm).task
  refine ⟨t, (h.task?_apart hd hapart (hd.fits hm).task.mem_names ?_).trans ht, hlen⟩
  exact fun n hn _ c hc hprim heq => (hapart.alone n hn c hc hprim m hm).1 heq.symm

theorem Draft.Logs.hasArity_step (hm : m ∈ d.methods) {s : Step} (hs : s ∈ m.steps)
    (hno : (w.slots.lookup m.name).isSome → m.firstCheckStep? = some s → ¬d.IsPrimitive s.task) :
    (w.apply d).HasArity s.task s.arguments.length := by
  obtain ⟨t, ht, hlen⟩ := (hd.fits hm).steps s hs
  exact ⟨t, (h.step_apart hd hapart hm hs hno).trans ht, hlen⟩

theorem Draft.Logs.fits_widen (hm : m ∈ d.methods) (hslot : w.slots.lookup m.name = some slot)
    {c : Step} {t : Task} (hc : m.firstCheckStep? = some c) (hcm : m.steps[slot.step]? = some c)
    (ht : d.primitiveTasks[slot.task]? = some t) (hname : t.name = c.task) :
    (w.apply d).Fits (m.widen slot.step (addedFor log m)) := by
  have hfits := hd.fits hm
  refine ⟨hfits.consistent.widen (h.added_declared hd hm),
    h.hasArity_task (m := m) hd hapart hm, fun s hs => ?_⟩
  obtain ⟨j, r, hr, rfl⟩ := Method.mem_steps_widen.1 hs
  have hrm := List.mem_of_getElem? hr
  split
  · next hj =>
    obtain rfl : c = r := Option.some.inj (hcm.symm.trans (hj ▸ hr))
    obtain ⟨u, hu, hlen⟩ := hfits.steps c hrm
    have hold := hd.names.task?_eq_some.2
      ⟨List.mem_append_left d.abstractTasks (List.mem_of_getElem? ht), hname⟩
    obtain rfl := Option.some.inj (hold.symm.trans hu)
    refine ⟨_, hname ▸ h.task?_primitive hd.names ht, ?_⟩
    rw [h.addedTo_slot hd hapart hm hslot, Task.widen, List.length_append, List.length_append,
      List.length_map, hlen]
  · next hj =>
    refine h.hasArity_step hd hapart hm hrm fun _ hfirst => ?_
    obtain rfl : c = r := Option.some.inj (hc.symm.trans hfirst)
    exact absurd (hfits.consistent.step_index hcm hr) hj

theorem Draft.Logs.fits_addCheckStep (hm : m ∈ d.methods)
    (hslot : w.slots.lookup m.name = some slot) {k : ℕ} (hk : made[k]? = some m)
    (htask : slot.task = d.primitiveTasks.length + k) :
    (w.apply d).Fits (m.addCheckStep.widen m.steps.length (addedFor log m)) := by
  obtain ⟨-, -, hprim⟩ := h.slot_made m (List.mem_of_getElem? hk)
  rw [m.addCheckStep_widen _ []]
  refine ⟨(hd.fits hm).consistent.checkedBy (hapart.free m hm hprim).2 fun v hv => ?_,
    h.hasArity_task (m := m) hd hapart hm, fun s hs => ?_⟩
  · rw [Task.parameterNames_widen] at hv
    obtain ⟨u, hu, rfl⟩ := List.mem_map.1 hv
    exact h.added_declared hd hm u hu
  · obtain hs | hs := List.mem_append.1 hs
    · exact h.hasArity_step hd hapart hm hs fun _ => hprim s
    · obtain rfl := List.mem_singleton.1 hs
      refine ⟨_, h.task?_made hd hapart hk htask, ?_⟩
      rw [h.addedTo_slot hd hapart hm hslot]
      exact (List.length_map _).symm

theorem Draft.Logs.fits (hm : m ∈ d.methods) {m' : Method} {i : ℕ} (hi : d.methods[i]? = some m)
    (hw : w.methods[i]? = some m') : (w.apply d).Fits m' := by
  cases hslot : w.slots.lookup m.name with
  | none =>
    obtain rfl := Option.some.inj (hw.symm.trans (h.untouched i m hi hslot))
    exact ⟨(hd.fits hm).consistent, h.hasArity_task hd hapart hm, fun s hs =>
      h.hasArity_step hd hapart hm hs (by simp [hslot])⟩
  | some slot =>
    obtain ⟨-, b, hplaced, hb⟩ := h.slots i m slot hi hslot
    obtain rfl := Option.some.inj (hw.symm.trans hb)
    obtain ⟨c, t, hc, hcm, ht, hname, rfl⟩ | ⟨k, hk, htask, hstep, rfl⟩ :=
      h.old_or_made hd hapart hm hplaced
    · exact h.fits_widen hd hapart hm hslot hc hcm ht hname
    · exact hstep ▸ h.fits_addCheckStep hd hapart hm hslot hk htask

end Apart

theorem Draft.LogsOffers.receives_iff (hd : d.NamesDiffer) {top : String}
    (h : w.LogsOffers d (d.sweptPredicates.flatMap (d.offersOf top)) made log) {j : ℕ} {t : Task}
    (ht : d.primitiveTasks[j]? = some t) : d.Receives top t.name ↔ ∃ e ∈ log, e.slot.task = j := by
  constructor
  · rintro ⟨m, hm, c, hc, hct, l, hl⟩
    obtain ⟨e, he, rfl, -⟩ := (h.complete m l).2 hl
    exact ⟨e, he, (h.slot_task_iff hd he ht).2 ⟨c, hc, hct⟩⟩
  · rintro ⟨e, he, htask⟩
    obtain ⟨c, hc, hct⟩ := (h.slot_task_iff hd he ht).1 htask
    exact ⟨e.method, (h.accepted e he).1, c, hc, hct, e.literal,
      (h.complete _ _).1 ⟨e, he, rfl, rfl⟩⟩

end Logs

/-- A method for which nothing is accepted is not changed. What its steps of primitive tasks require
stays the same unless something is accepted for a method whose first check step has the same task. If
check steps have nothing in common with others, then all methods pass their checks, and the steps of
such a method require what they required. -/
theorem shared_check_tasks {d d' : Domain} (hd : d.WellFormed) (hs : d.SortsDeclared) {top : String}
    {tally : Tally} (h : d.inferPreconditions top = .ok (d', tally)) :
    (∀ m ∈ d.methods, (∀ l, ¬d.Accepts top m l) → m ∈ d'.methods ∧
      ∀ s ∈ m.steps, d.IsPrimitive s.task →
        (d'.required s = d.required s ↔ ¬d.Receives top s.task)) ∧
    (d.ChecksApart → (∀ m ∈ d'.methods, d'.checkMethod m = .ok ()) ∧
      ∀ m ∈ d.methods, (∀ l, ¬d.Accepts top m l) → ∀ s ∈ m.steps, d'.required s = d.required s) := by
  obtain ⟨w, made, log, rfl, hlogs⟩ := log_of_inferPreconditions hd hs h
  refine ⟨fun m hm hnone => ⟨(hlogs.mem_methods hm hnone).1, fun s hsm hprim => ?_⟩,
    fun hapart => ⟨fun m' hm' => ?_, fun m hm hnone s hsm => ?_⟩⟩
  · obtain ⟨t, ht, hname⟩ := List.mem_map.1 hprim
    obtain ⟨j, hj⟩ := List.mem_iff_getElem?.1 ht
    rw [hlogs.required_apply hd hm hsm hj hname, List.append_right_eq_self, List.map_eq_nil_iff,
      literalsOf_eq_nil, ← hname, hlogs.receives_iff hd.names hj]
    simp only [not_exists, not_and, Ne]
  · obtain ⟨i, hi⟩ := List.mem_iff_getElem?.1 hm'
    have hlt : i < d.methods.length := hlogs.length_methods ▸ (List.getElem?_eq_some_iff.1 hi).1
    exact Domain.checkMethod_eq_ok.2
      (hlogs.fits hd hapart (List.getElem_mem hlt) (List.getElem?_eq_getElem hlt) hi)
  · have htask := hlogs.step_apart hd hapart hm hsm fun hsome => by
      rw [(hlogs.mem_methods hm hnone).2] at hsome
      cases hsome
    rw [Domain.required, Domain.preconditions, htask]
    rfl

def zKept : Literal := { predicate := "free", positive := false, arguments := ["z"] }

def byAsking : Method :=
  { byHand with
    name := "by_asking"
    steps := [{ id := "s", task := "ask", arguments := ["z"] }] }

def apartFetching : Domain :=
  { checkedFetching "v" "z" [("c", "s")] with
    primitiveTasks := (checkedFetching "v" "z" [("c", "s")]).primitiveTasks ++
      [{ Task.ofParameters "ask" [{ name := "z", sort := "thing" }] with preconditions := [zKept] }]
    methods := [checkedByHand "z" [("c", "s")], byAsking] }

theorem wellFormed_apartFetching : apartFetching.WellFormed :=
  ⟨by decide, by decide, by decide, by decide⟩

theorem offers_apartFetching :
    apartFetching.sweptPredicates.flatMap (apartFetching.offersOf "fetch") =
      [(checkedByHand "z" [("c", "s")], zFree), (byAsking, zKept)] := by
  decide +kernel

theorem not_accepts_byAsking (l : Literal) : ¬apartFetching.Accepts "fetch" byAsking l := by
  intro haccepts
  have hmem := haccepts.mem
  rw [offers_apartFetching] at hmem
  have hne : byAsking ≠ checkedByHand "z" [("c", "s")] := by decide
  obtain rfl : l = zKept := by
    obtain heq | hmem := List.mem_cons.1 hmem
    · exact absurd (congrArg Prod.fst heq) hne
    · exact congrArg Prod.snd (List.mem_singleton.1 hmem)
  obtain ⟨-, -, v, -, -, hred⟩ := haccepts
  have hall : apartFetching.AllDemand byAsking zKept := by
    intro n hn
    obtain rfl : n = "ask" := List.mem_singleton.1 hn
    exact ⟨_, rfl, by decide⟩
  have htrue := (Draft.isRedundant_iff wellFormed_apartFetching (by decide) v).1.2 (.inl hall)
  rw [hred] at htrue
  cases htrue

theorem checksApart_apartFetching : apartFetching.ChecksApart := by
  constructor
  · intro m hm c hc _
    obtain rfl | hm := List.mem_cons.1 hm
    · cases hc
      decide
    · obtain rfl := List.mem_singleton.1 hm
      cases hc
  · intro m hm hno
    obtain rfl | hm := List.mem_cons.1 hm
    · exact absurd (by decide) (hno _ rfl)
    · obtain rfl := List.mem_singleton.1 hm
      decide

theorem shared_check_tasks_apartFetching : ∃ d' tally,
    apartFetching.inferPreconditions "fetch" = .ok (d', tally) ∧ d' ≠ apartFetching ∧
      (∀ m ∈ d'.methods, d'.checkMethod m = .ok ()) ∧ byAsking ∈ d'.methods ∧
      ∀ s ∈ byAsking.steps, d'.required s = apartFetching.required s ∧
        ¬apartFetching.Receives "fetch" s.task := by
  have hs : apartFetching.SortsDeclared := by decide
  have hprimitive : ∀ s ∈ byAsking.steps, apartFetching.IsPrimitive s.task := by decide
  have hchanged : (apartFetching.inferPreconditions "fetch").toOption.any fun r =>
      r.1 ≠ apartFetching := by
    decide +kernel
  obtain ⟨⟨d', tally⟩, h, hne⟩ := exists_ok_of_any hchanged
  obtain ⟨hkept, hapart⟩ := shared_check_tasks wellFormed_apartFetching hs h
  obtain ⟨hmem, hsteps⟩ := hkept byAsking (by decide) not_accepts_byAsking
  obtain ⟨hchecked, hsame⟩ := hapart checksApart_apartFetching
  refine ⟨d', tally, h, of_decide_eq_true hne, hchecked, hmem, fun s hsm => ?_⟩
  have hrequired := hsame byAsking (by decide) not_accepts_byAsking s hsm
  exact ⟨hrequired, (hsteps s hsm (hprimitive s hsm)).1 hrequired⟩

def justChecking : Method :=
  { byHand with
    name := "just_checking"
    steps := [{ id := "c", task := "__method_precondition_by_hand", arguments := ["z"] }] }

def sharedFetching : Domain :=
  { checkedFetching "v" "z" [("c", "s")] with
    methods := [checkedByHand "z" [("c", "s")], justChecking] }

/-- What is accepted for the one method makes the other one fail its check. -/
theorem shared_check_task_breaks :
    sharedFetching.WellFormed ∧ sharedFetching.SortsDeclared ∧ justChecking ∈ sharedFetching.methods ∧
      (∀ l, ¬sharedFetching.Accepts "fetch" justChecking l) ∧ ∃ d' tally,
        sharedFetching.inferPreconditions "fetch" = .ok (d', tally) ∧ justChecking ∈ d'.methods ∧
          d'.checkMethod justChecking ≠ .ok () ∧
          ∃ s ∈ justChecking.steps, d'.required s ≠ sharedFetching.required s := by
  have hoffers : sharedFetching.sweptPredicates.flatMap (sharedFetching.offersOf "fetch") =
      [(checkedByHand "z" [("c", "s")], zFree)] := by
    decide +kernel
  have hbroken : (sharedFetching.inferPreconditions "fetch").toOption.any fun r =>
      justChecking ∈ r.1.methods ∧ r.1.checkMethod justChecking ≠ .ok () ∧
        ∃ s ∈ justChecking.steps, r.1.required s ≠ sharedFetching.required s := by
    decide +kernel
  refine ⟨⟨by decide, by decide, by decide, by decide⟩, by decide, by decide, fun l hl => ?_, ?_⟩
  · have hne : justChecking ≠ checkedByHand "z" [("c", "s")] := by decide
    have hmem := hl.mem
    rw [hoffers, List.mem_singleton] at hmem
    exact hne (congrArg Prod.fst hmem)
  · obtain ⟨⟨d', tally⟩, h, hbreaks⟩ := exists_ok_of_any hbroken
    exact ⟨d', tally, h, of_decide_eq_true hbreaks⟩

end TaskNetwork
