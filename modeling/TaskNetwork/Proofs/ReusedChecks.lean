import TaskNetwork.Proofs.Acceptances

namespace TaskNetwork

open Acceptance

theorem Domain.NamesDiffer.primitive_inj {d : Domain} (hd : d.NamesDiffer) {i j : ℕ} {t u : Task}
    (hi : d.primitiveTasks[i]? = some t) (hj : d.primitiveTasks[j]? = some u)
    (h : t.name = u.name) : i = j := by
  have hnodup : (d.primitiveTasks.map (·.name)).Nodup := by
    have hall := hd.tasks
    rw [Domain.tasks, List.map_append] at hall
    exact (List.nodup_append.1 hall).1
  refine (List.getElem?_inj ?_ hnodup).1 ?_
  · rw [List.length_map]
    exact (List.getElem?_eq_some_iff.1 hi).1
  · rw [List.getElem?_map, List.getElem?_map, hi, hj, Option.map_some, Option.map_some, h]

theorem Literal.ground_eq_self_iff {l : Literal} {σ : Valuation} :
    l.ground σ = l ↔ ∀ p ∈ l.arguments, σ p = p := by
  rw [Literal.ext_iff]
  change _ = _ ∧ _ = _ ∧ l.arguments.map σ = l.arguments ↔ _
  simp only [Literal.ground, true_and]
  conv_lhs => rw [← l.arguments.map_id, List.map_map]
  exact List.map_inj_left

namespace Task

variable {t : Task} {vs : List TypedName} {ls : List Literal} {arguments : List String} {p : String}

theorem valuation_widen (ht : (t.widen vs ls).parameterNames.Nodup)
    (hlen : arguments.length = t.parameters.length) (hp : p ∈ t.parameterNames)
    (more : List String) :
    (t.widen vs ls).valuation (arguments ++ more) p = t.valuation arguments p := by
  rw [parameterNames_widen] at ht
  obtain ⟨i, hi⟩ := List.mem_iff_getElem?.1 hp
  have hlt : i < arguments.length := by
    rw [hlen, ← List.length_map (f := (·.name))]
    exact (List.getElem?_eq_some_iff.1 hi).1
  have hc := List.getElem?_eq_getElem hlt
  rw [valuation_eq (List.nodup_append.1 ht).1 hi hc]
  refine valuation_eq (by rwa [parameterNames_widen]) (i := i) ?_ ?_
  · rw [parameterNames_widen, List.getElem?_append_left (List.getElem?_eq_some_iff.1 hi).1, hi]
  · rw [List.getElem?_append_left hlt, hc]

theorem valuation_widen_added (ht : (t.widen vs ls).parameterNames.Nodup)
    (hlen : arguments.length = t.parameters.length) (hp : p ∈ vs.map (·.name)) :
    (t.widen vs ls).valuation (arguments ++ vs.map (·.name)) p = p := by
  obtain ⟨i, hi⟩ := List.mem_iff_getElem?.1 hp
  have hnames : t.parameterNames.length = t.parameters.length := List.length_map _
  refine valuation_eq ht (i := t.parameters.length + i) ?_ ?_
  · rw [parameterNames_widen, List.getElem?_append_right (hnames ▸ Nat.le_add_right _ _), hnames,
      Nat.add_sub_cancel_left, hi]
  · rw [List.getElem?_append_right (hlen ▸ Nat.le_add_right _ _), hlen, Nat.add_sub_cancel_left, hi]

/-- If the same is added to the parameters and to the arguments, then a precondition becomes itself
just if the parameters that were there stand for themselves. -/
theorem ground_widen_iff {l : Literal} (ht : (t.widen vs ls).Consistent)
    (hlen : arguments.length = t.parameters.length) (hl : l ∈ (t.widen vs ls).preconditions) :
    l.ground ((t.widen vs ls).valuation (arguments ++ vs.map (·.name))) = l ↔
      ∀ p ∈ l.arguments, p ∈ t.parameterNames → t.valuation arguments p = p := by
  rw [Literal.ground_eq_self_iff]
  refine forall₂_congr fun p hp => ?_
  by_cases hold : p ∈ t.parameterNames
  · rw [valuation_widen ht.nodup_parameters hlen hold, forall_prop_of_true hold]
  · have hadded : p ∈ vs.map (·.name) := by
      have hall := ht.declared l (List.mem_append_left _ hl) p hp
      rw [parameterNames_widen] at hall
      exact (List.mem_append.1 hall).resolve_left hold
    rw [valuation_widen_added ht.nodup_parameters hlen hadded]
    exact iff_of_true rfl fun h => absurd h hold

end Task

section Logs

variable {d : Domain} {made : List Method} {log : List Acceptance} {w : Draft} {m : Method}
  {slot : CheckSlot}

theorem Domain.getElem?_tasksWith {j : ℕ} {t : Task} (ht : d.primitiveTasks[j]? = some t)
    (made : List Method) : (d.tasksWith made)[j]? = some t := by
  rw [tasksWith, List.getElem?_append_left (List.getElem?_eq_some_iff.1 ht).1, ht]

theorem Draft.Logs.task?_apply (h : w.Logs d made log) {j : ℕ} {t : Task}
    (ht : (d.tasksWith made)[j]? = some t)
    (hleast : ∀ i u, (d.tasksWith made)[i]? = some u → u.name = t.name → j ≤ i) :
    (w.apply d).task? t.name = some (t.widen (addedTo log j) (literalsOf log j)) := by
  have hw := h.tasks j t ht
  obtain ⟨hlt, hget⟩ := List.getElem?_eq_some_iff.1 hw
  have hfind : w.primitiveTasks.find? (·.name = t.name) =
      some (t.widen (addedTo log j) (literalsOf log j)) := by
    refine List.find?_eq_some_iff_getElem.2 ⟨decide_eq_true rfl, j, hlt, hget, fun i hi => ?_⟩
    rw [Bool.not_eq_true', decide_eq_false_iff_not]
    intro hname
    have hbase : i < (d.tasksWith made).length := h.length_tasks ▸ hi.trans hlt
    have hi' := h.tasks i _ (List.getElem?_eq_getElem hbase)
    rw [List.getElem?_eq_getElem (hi.trans hlt)] at hi'
    rw [Option.some.inj hi'] at hname
    exact absurd hi (Nat.not_lt.2 (hleast i _ (List.getElem?_eq_getElem hbase) hname))
  change (w.primitiveTasks ++ d.abstractTasks).find? _ = _
  rw [List.find?_append, hfind, Option.some_or]

theorem Draft.Logs.task?_primitive (hd : d.NamesDiffer) (h : w.Logs d made log) {j : ℕ} {t : Task}
    (ht : d.primitiveTasks[j]? = some t) :
    (w.apply d).task? t.name = some (t.widen (addedTo log j) (literalsOf log j)) := by
  have hj := (List.getElem?_eq_some_iff.1 ht).1
  refine h.task?_apply (Domain.getElem?_tasksWith ht made) fun i u hu hname => ?_
  by_contra hi
  rw [Domain.tasksWith, List.getElem?_append_left ((Nat.lt_of_not_le hi).trans hj)] at hu
  exact hi (hd.primitive_inj ht hu hname.symm).le

theorem Placed.eq_of_primitive (hd : d.NamesDiffer) {b : Method} (h : Placed d made m slot b)
    {s : Step} (hs : m.firstCheckStep? = some s) {j : ℕ} {t : Task}
    (ht : d.primitiveTasks[j]? = some t) (hst : t.name = s.task) :
    b = m ∧ slot.task = j ∧ m.steps[slot.step]? = some s := by
  have hj := (List.getElem?_eq_some_iff.1 ht).1
  cases h with
  | found hfirst hstep hu hname hleast =>
    obtain rfl := Option.some.inj (hfirst.symm.trans hs)
    have hle : slot.task ≤ j := hleast j t (Domain.getElem?_tasksWith ht made) hst
    rw [Domain.tasksWith, List.getElem?_append_left (Nat.lt_of_le_of_lt hle hj)] at hu
    exact ⟨rfl, hd.primitive_inj hu ht (hname.trans hst.symm), hstep⟩
  | made hnone _ _ _ =>
    exact absurd (hst ▸ List.mem_map_of_mem (List.mem_of_getElem? ht)) (hnone s hs)

theorem Draft.Logs.slot_task_iff (hd : d.NamesDiffer) (h : w.Logs d made log) {e : Acceptance}
    (he : e ∈ log) {j : ℕ} {t : Task} (ht : d.primitiveTasks[j]? = some t) :
    e.slot.task = j ↔ ∃ s, e.method.firstCheckStep? = some s ∧ s.task = t.name := by
  obtain ⟨hm, hslot, -⟩ := h.accepted e he
  obtain ⟨i, hi⟩ := List.mem_iff_getElem?.1 hm
  obtain ⟨-, b, hplaced, -⟩ := h.slots i _ _ hi hslot
  have hj := (List.getElem?_eq_some_iff.1 ht).1
  constructor
  · rintro rfl
    cases hplaced with
    | found hfirst _ hu hname _ =>
      obtain rfl := Option.some.inj ((Domain.getElem?_tasksWith ht made).symm.trans hu)
      exact ⟨_, hfirst, hname.symm⟩
    | made _ _ _ htask => omega
  · rintro ⟨s, hs, hname⟩
    exact (hplaced.eq_of_primitive hd hs ht hname.symm).2.1

theorem addedTo_eq_addedFor {task : ℕ} (h : ∀ e ∈ log, e.slot.task = task ↔ e.method = m) :
    addedTo log task = addedFor log m := by
  rw [addedTo, addedFor, List.filter_congr fun e he => decide_eq_decide.2 (h e he)]

theorem Method.stepIds_widen (step : ℕ) (vs : List TypedName) :
    (m.widen step vs).stepIds = m.stepIds := by
  apply List.ext_getElem?
  intro i
  rw [stepIds, stepIds, List.getElem?_map, List.getElem?_map, widen, List.getElem?_modify]
  cases m.steps[i]? with
  | none => rfl
  | some s => by_cases hi : step = i <;> simp [hi]

theorem Method.step_widen {step : ℕ} {vs : List TypedName} {s : Step}
    (hs : m.steps[step]? = some s) :
    { s with arguments := s.arguments ++ vs.map (·.name) } ∈ (m.widen step vs).steps := by
  refine List.mem_of_getElem? (i := step) ?_
  rw [widen, List.getElem?_modify_eq, hs]
  rfl

theorem Domain.passed_of_task? {s : Step} {t : Task} (ht : d.task? s.task = some t) :
    d.passed s = t.valuation s.arguments := by
  rw [passed, ht]

end Logs

/-- The step with this id comes before all other steps. -/
def Method.LedBy (m : Method) (id : String) : Prop := ∀ a ∈ m.stepIds, a ≠ id → m.Precedes id a

instance (m : Method) (id : String) : Decidable (m.LedBy id) :=
  inferInstanceAs (Decidable (∀ a ∈ m.stepIds, _ → _))

/-- The task is not that of the first check step of another method for which something is accepted. -/
def Domain.ChecksAlone (d : Domain) (top : String) (m : Method) (task : String) : Prop :=
  ∀ n ∈ d.methods, n ≠ m → ∀ l, d.Accepts top n l → ∀ s, n.firstCheckStep? = some s → s.task ≠ task

/-- What the task of the step requires of the arguments of the step. -/
def Domain.required (d : Domain) (s : Step) : List Literal :=
  d.preconditions { task := s.task, constants := s.arguments }

def Domain.ChecksFirst (d : Domain) (name : String) (l : Literal) : Prop :=
  ∃ m ∈ d.methods, m.name = name ∧ ∃ s ∈ m.steps, m.LedBy s.id ∧ l ∈ d.required s

instance (d : Domain) (name : String) (l : Literal) : Decidable (d.ChecksFirst name l) :=
  inferInstanceAs (Decidable (∃ m ∈ d.methods, _ ∧ ∃ s ∈ m.steps, _))

theorem Domain.mem_required {d : Domain} {s : Step} {t : Task} (ht : d.task? s.task = some t)
    {l : Literal} (hl : l ∈ t.preconditions) : l.ground (d.passed s) ∈ d.required s := by
  rw [required, preconditions, ht, passed_of_task? ht]
  exact List.mem_map_of_mem hl

theorem Draft.LogsOffers.addedTo_alone {d : Domain} (hd : d.NamesDiffer) {top : String}
    {made : List Method} {log : List Acceptance} {w : Draft}
    (h : w.LogsOffers d (d.sweptPredicates.flatMap (d.offersOf top)) made log) {m : Method} {s : Step}
    (hfirst : m.firstCheckStep? = some s) {j : ℕ} {t : Task} (ht : d.primitiveTasks[j]? = some t)
    (hst : t.name = s.task) (halone : d.ChecksAlone top m s.task) :
    addedTo log j = addedFor log m := by
  refine addedTo_eq_addedFor fun e he => ?_
  rw [h.slot_task_iff hd he ht]
  constructor
  · rintro ⟨c, hc, hct⟩
    by_contra hne
    refine halone _ (h.accepted e he).1 hne e.literal ?_ c hc (hct.trans hst)
    exact (h.complete _ _).1 ⟨e, he, rfl, rfl⟩
  · rintro rfl
    exact ⟨s, hfirst, hst.symm⟩

/-- If the first check step of a method has a primitive task, then what is accepted goes there. The
step is not moved, so that it comes first just if it did so before. A parameter of the task that has
the name of a variable is taken for that variable: the task checks the literal that was accepted just
if such parameters are passed under their own names. -/
theorem reused_check_step {d d' : Domain} (hd : d.WellFormed) (hs : d.SortsDeclared) {top : String}
    {tally : Tally} (h : d.inferPreconditions top = .ok (d', tally)) {m : Method} {s : Step}
    (hfirst : m.firstCheckStep? = some s) {t : Task} (ht : t ∈ d.primitiveTasks)
    (hst : t.name = s.task) {l : Literal} (hl : d.Accepts top m l) :
    ∃ m' ∈ d'.methods, ∃ s' ∈ m'.steps, ∃ t', m'.name = m.name ∧ m'.stepIds = m.stepIds ∧
      s'.id = s.id ∧ d'.task? s'.task = some t' ∧ t'.name = t.name ∧ l ∈ t'.preconditions ∧
      (m'.LedBy s'.id ↔ m.LedBy s.id) ∧
      (d.ChecksAlone top m s.task → (l.ground (d'.passed s') = l ↔
        ∀ p ∈ l.arguments, p ∈ t.parameterNames → d.passed s p = p)) := by
  obtain ⟨w, made, log, rfl, hlogs⟩ := log_of_inferPreconditions hd hs h
  obtain ⟨e, he, rfl, rfl⟩ := (hlogs.complete m l).2 hl
  obtain ⟨hm, hslot, -⟩ := hlogs.accepted e he
  obtain ⟨i, hi⟩ := List.mem_iff_getElem?.1 hm
  obtain ⟨j, hj⟩ := List.mem_iff_getElem?.1 ht
  obtain ⟨-, b, hplaced, hw⟩ := hlogs.slots i _ _ hi hslot
  obtain ⟨rfl, rfl, hstep⟩ := hplaced.eq_of_primitive hd.names hfirst hj hst
  have htask := hlogs.task?_primitive hd.names hj
  have hstepIds := e.method.stepIds_widen e.slot.step (addedFor log e.method)
  refine ⟨_, List.mem_of_getElem? hw, _, Method.step_widen hstep,
    t.widen (addedTo log e.slot.task) (literalsOf log e.slot.task), rfl, hstepIds, rfl, hst ▸ htask,
    rfl, List.mem_append_right _ (mem_literalsOf.2 ⟨e, he, rfl, rfl⟩), ?_, fun halone => ?_⟩
  · rw [Method.LedBy, hstepIds]
    rfl
  · have hadded := hlogs.addedTo_alone hd.names hfirst hj hst halone
    obtain ⟨u, hu⟩ := hd.calls hm (List.mem_of_getElem? hstep)
    have hold : d.task? s.task = some t :=
      hd.names.task?_eq_some.2 ⟨List.mem_append_left _ ht, hst⟩
    obtain rfl : t = u := Option.some.inj (hold.symm.trans hu.task)
    have hconsistent := hlogs.consistent _
      (List.mem_of_getElem? (hlogs.tasks _ _ (Domain.getElem?_tasksWith hj made)))
    rw [Domain.passed_of_task? (hst ▸ htask), hu.passed_eq]
    rw [hadded] at hconsistent ⊢
    exact Task.ground_widen_iff hconsistent hu.length
      (List.mem_append_right _ (mem_literalsOf.2 ⟨e, he, rfl, rfl⟩))

def checkedByHand (argument : String) (ordering : List (String × String)) : Method :=
  { byHand with
    declarations := byHand.declarations ++ [{ name := "w", sort := "thing" }]
    steps := byHand.steps ++
      [{ id := "c", task := "__method_precondition_by_hand", arguments := [argument] }]
    ordering }

def checkedFetching (parameter argument : String) (ordering : List (String × String)) : Domain :=
  { fetching with
    primitiveTasks := fetching.primitiveTasks ++
      [Task.ofParameters "__method_precondition_by_hand" [{ name := parameter, sort := "thing" }]]
    methods := [checkedByHand argument ordering] }

def zFree : Literal := { predicate := "free", positive := true, arguments := ["z"] }

theorem accepts_checkedFetching : (checkedFetching "v" "z" [("c", "s")]).Accepts "fetch"
    (checkedByHand "z" [("c", "s")]) zFree :=
  ⟨[], [], _, by decide +kernel, .nil, by decide⟩

theorem reused_check_step_checkedFetching : ∃ d' tally,
    (checkedFetching "v" "z" [("c", "s")]).inferPreconditions "fetch" = .ok (d', tally) ∧
      d'.ChecksFirst "by_hand" zFree := by
  have hd : (checkedFetching "v" "z" [("c", "s")]).WellFormed :=
    ⟨by decide, by decide, by decide, by decide⟩
  have hs : (checkedFetching "v" "z" [("c", "s")]).SortsDeclared := by decide
  have htop : (checkedFetching "v" "z" [("c", "s")]).task? "fetch" =
      some (Task.ofParameters "fetch" [{ name := "y", sort := "thing" }]) := rfl
  obtain ⟨d', tally, h⟩ := hd.inferPreconditions_ok hs htop
  obtain ⟨m', hm', s', hs', t', hname, -, -, htask, -, hl, hled, hground⟩ :=
    reused_check_step hd hs h (m := checkedByHand "z" [("c", "s")]) rfl
      (List.mem_append_right _ List.mem_cons_self) rfl accepts_checkedFetching
  have halone : (checkedFetching "v" "z" [("c", "s")]).ChecksAlone "fetch"
      (checkedByHand "z" [("c", "s")]) "__method_precondition_by_hand" :=
    fun n hn hne => absurd (List.mem_singleton.1 hn) hne
  have hself := (hground halone).2 (by decide)
  exact ⟨d', tally, h, m', hm', hname, s', hs', hled.2 (by decide), hself ▸ Domain.mem_required htask hl⟩

theorem exists_ok_of_any {ε α : Type} {x : Except ε α} {p : α → Bool} (h : x.toOption.any p) :
    ∃ a, x = .ok a ∧ p a := by
  cases x with
  | error e => cases h
  | ok a => exact ⟨a, rfl, h⟩

/-- Inference accepts the literal for a method that has a check step, and then no step that comes
before all others of that method checks it. -/
def Domain.MissesCheck (d : Domain) (top : String) (l : Literal) : Prop :=
  ∃ m ∈ d.methods, m.Acyclic ∧ (∃ s ∈ m.steps, IsCheckTask s.task ∧ d.IsPrimitive s.task) ∧
    d.Accepts top m l ∧ ∃ d' tally, d.inferPreconditions top = .ok (d', tally) ∧
      ¬d'.ChecksFirst m.name l

theorem missesCheck_of_any {d : Domain} {top : String} {m : Method} {l : Literal}
    (hm : m ∈ d.methods) (hacyclic : m.Acyclic)
    (hreused : ∃ s ∈ m.steps, IsCheckTask s.task ∧ d.IsPrimitive s.task) (hl : d.Accepts top m l)
    (hmiss : (d.inferPreconditions top).toOption.any fun r => ¬r.1.ChecksFirst m.name l) :
    d.MissesCheck top l := by
  obtain ⟨⟨d', tally⟩, h, hno⟩ := exists_ok_of_any hmiss
  exact ⟨m, hm, hacyclic, hreused, hl, d', tally, h, of_decide_eq_true hno⟩

/-- Without an order the check may come last. If it has a parameter with the name of a variable for
which another one is passed, then it checks the other one. -/
theorem reused_check_step_misses :
    ((checkedFetching "v" "z" []).WellFormed ∧ (checkedFetching "v" "z" []).SortsDeclared ∧
      (checkedFetching "v" "z" []).MissesCheck "fetch" zFree) ∧
    (checkedFetching "z" "w" [("c", "s")]).WellFormed ∧
      (checkedFetching "z" "w" [("c", "s")]).SortsDeclared ∧
      (checkedFetching "z" "w" [("c", "s")]).MissesCheck "fetch" zFree := by
  have hlast : (checkedFetching "v" "z" []).MissesCheck "fetch" zFree :=
    missesCheck_of_any List.mem_cons_self (Method.acyclic_iff.2 (by decide)) (by decide)
      ⟨[], [], _, by decide +kernel, .nil, by decide⟩ (by decide +kernel)
  have hanother : (checkedFetching "z" "w" [("c", "s")]).MissesCheck "fetch" zFree :=
    missesCheck_of_any List.mem_cons_self (Method.acyclic_iff.2 (by decide)) (by decide)
      ⟨[], [], _, by decide +kernel, .nil, by decide⟩ (by decide +kernel)
  exact ⟨⟨⟨by decide, by decide, by decide, by decide⟩, by decide, hlast⟩,
    ⟨by decide, by decide, by decide, by decide⟩, by decide, hanother⟩

end TaskNetwork
