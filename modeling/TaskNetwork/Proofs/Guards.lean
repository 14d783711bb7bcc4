import TaskNetwork.Proofs.CheckSteps
import TaskNetwork.Proofs.Paths

namespace TaskNetwork

theorem modify_append {α : Type} (l k : List α) (j : ℕ) (f : α → α) :
    (l ++ k).modify (l.length + j) f = l ++ k.modify j f := by
  induction l with
  | nil => rw [List.length_nil, Nat.zero_add, List.nil_append, List.nil_append]
  | cons a l ih =>
    rw [List.cons_append, List.length_cons, Nat.add_right_comm, List.modify_succ_cons, ih,
      List.cons_append]

namespace Method

def checkStep (m : Method) (t : Task) : Step where
  id := newCheckStepMark ++ m.name
  task := newCheckTaskMark ++ m.name
  arguments := t.parameterNames

def checkedBy (m : Method) (t : Task) : Method :=
  { m with
    ordering := m.ordering ++ m.steps.map fun s => (newCheckStepMark ++ m.name, s.id)
    steps := m.steps ++ [m.checkStep t] }

theorem addCheckStep_widen (m : Method) (vs : List TypedName) (ls : List Literal) :
    m.addCheckStep.widen m.steps.length vs = m.checkedBy (m.checkTask.widen vs ls) := by
  have hlast : ∀ (l : List Step) (s : Step) (f : Step → Step),
      (l ++ [s]).modify l.length f = l ++ [f s] := fun l s f => modify_append l [s] 0 f
  rw [widen, addCheckStep, hlast]
  rfl

end Method

/-- The second domain is the first one, of which some methods check a task first. -/
structure Guarded (d d' : Domain) (allowed : Method → Literal → Prop)
    (check : Method → Option Task) : Prop where
  sorts : d'.sorts = d.sorts
  task? : ∀ n, ¬IsCheckTask n → d'.task? n = d.task? n
  isPrimitive : ∀ n, ¬IsCheckTask n → (d'.IsPrimitive n ↔ d.IsPrimitive n)
  unchecked : ∀ m ∈ d.methods, check m = none → m ∈ d'.methods
  checked : ∀ m ∈ d.methods, ∀ t, check m = some t → m.checkedBy t ∈ d'.methods ∧
    d'.task? (m.checkStep t).task = some t ∧ d'.IsPrimitive (m.checkStep t).task ∧
    t.effects = [] ∧ t.preconditions ≠ [] ∧ t.parameterNames.Nodup ∧
    ∀ l ∈ t.preconditions, allowed m l ∧ ∀ a ∈ l.arguments, a ∈ t.parameterNames

section Guarded

variable {d : Domain} {allowed : Method → Literal → Prop} {w : Draft} {m : Method}

theorem Shaped.primitiveTasks (h : Shaped d allowed none w)
    (hsteps : ∀ m ∈ d.methods, ∀ s ∈ m.steps, ¬IsCheckTask s.task) :
    ∃ new, w.primitiveTasks = d.primitiveTasks ++ new ∧ ∀ t ∈ new, IsCheckTask t.name := by
  have hnew : ∀ m ∈ d.methods, ∀ slot, w.slots.lookup m.name = some slot →
      d.primitiveTasks.length ≤ slot.task := by
    intro m hm slot hslot
    obtain ⟨b, t, vs, ls, m', t', -, -, -, hgrown, -⟩ := h.exists_slot hm hslot
    cases hgrown.starts with
    | old hs ht hst hname =>
      refine absurd ?_ (hsteps m hm _ (List.mem_of_getElem? hs))
      rw [hst, hname]
      exact isCheckTask_newCheckTask m.name
    | new _ hlen _ => exact hlen
  refine ⟨w.primitiveTasks.drop d.primitiveTasks.length, ?_, fun t ht => ?_⟩
  · have htake : w.primitiveTasks.take d.primitiveTasks.length = d.primitiveTasks := by
      apply List.ext_getElem?
      intro j
      obtain hlt | hge := Nat.lt_or_ge j d.primitiveTasks.length
      · have hj : j < w.primitiveTasks.length := Nat.lt_of_lt_of_le hlt h.length_tasks
        rw [List.getElem?_take_of_lt hlt, List.getElem?_eq_getElem hj]
        obtain hold | ⟨m, hm, slot, hslot, rfl⟩ := h.tasks j _ (List.getElem?_eq_getElem hj)
        · exact hold.symm
        · exact absurd hlt (Nat.not_lt.2 (hnew m hm slot hslot))
      · rw [List.getElem?_eq_none hge, List.getElem?_eq_none]
        simpa using Or.inl hge
    rw [← htake, List.length_take, Nat.min_eq_left h.length_tasks, htake]
    conv_lhs => rw [← List.take_append_drop d.primitiveTasks.length w.primitiveTasks, htake]
  · obtain ⟨j, hj⟩ := List.mem_iff_getElem?.1 ht
    rw [List.getElem?_drop] at hj
    obtain hold | ⟨m, hm, slot, hslot, hslotj⟩ := h.tasks _ t hj
    · have hlt := (List.getElem?_eq_some_iff.1 hold).1
      omega
    · obtain ⟨b, u, vs, ls, m', u', -, -, hu', hgrown, -⟩ := h.exists_slot hm hslot
      rw [hslotj] at hu'
      obtain rfl : t = u' := Option.some.inj (hj.symm.trans hu')
      rw [hgrown.name]
      exact isCheckTask_newCheckTask m.name

def Draft.checkTask? (w : Draft) (m : Method) : Option Task :=
  (w.slots.lookup m.name).bind fun slot => w.primitiveTasks[slot.task]?

theorem find?_append_of_forall_ne {l k : List Task} {n : String} (h : ∀ t ∈ k, t.name ≠ n) :
    (l ++ k).find? (·.name = n) = l.find? (·.name = n) := by
  have hk : k.find? (·.name = n) = none := by
    rw [List.find?_eq_none]
    simpa using h
  rw [List.find?_append, hk, Option.or_none]

theorem Shaped.task?_slot (h : Shaped d allowed none w)
    (htasks : ∀ t ∈ d.tasks, ¬IsCheckTask t.name) (hm : m ∈ d.methods) {slot : CheckSlot}
    (hslot : w.slots.lookup m.name = some slot) {t : Task}
    (ht : w.primitiveTasks[slot.task]? = some t) :
    (w.apply d).task? (newCheckTaskMark ++ m.name) = some t := by
  obtain ⟨_, _, _, _, _, t', -, -, ht', hgrown, -⟩ := h.exists_slot hm hslot
  obtain rfl : t = t' := Option.some.inj (ht.symm.trans ht')
  have hmem : t ∈ w.primitiveTasks := List.mem_of_getElem? ht
  cases hfind : (w.apply d).task? (newCheckTaskMark ++ m.name) with
  | none =>
    have hno := List.find?_eq_none.1 hfind t (List.mem_append_left _ hmem)
    exact absurd (decide_eq_true hgrown.name) hno
  | some v =>
    obtain ⟨hv, hvname⟩ := Domain.mem_of_task?_eq_some hfind
    have hold : v ∉ d.tasks := fun hvd =>
      htasks v hvd (hvname ▸ isCheckTask_newCheckTask m.name)
    obtain hv | hv := List.mem_append.1 hv
    · obtain ⟨j, hj⟩ := List.mem_iff_getElem?.1 hv
      obtain hvd | ⟨n, hn, other, hother, rfl⟩ := h.tasks j v hj
      · exact absurd (List.mem_append_left _ (List.mem_of_getElem? hvd)) hold
      · obtain ⟨_, _, _, _, _, v', -, -, hv', hgrown', -⟩ := h.exists_slot hn hother
        obtain rfl : v = v' := Option.some.inj (hj.symm.trans hv')
        have hnm : n.name = m.name := newCheckTask_inj (hgrown'.name.symm.trans hvname)
        obtain rfl : slot = other := Option.some.inj (hslot.symm.trans (hnm ▸ hother))
        exact hj.symm.trans ht
    · exact absurd (List.mem_append_right _ hv) hold

/-- Without check steps to begin with, inference puts them in and changes nothing else. -/
theorem Shaped.guarded (h : Shaped d allowed none w)
    (htasks : ∀ t ∈ d.tasks, ¬IsCheckTask t.name)
    (hsteps : ∀ m ∈ d.methods, ∀ s ∈ m.steps, ¬IsCheckTask s.task) :
    Guarded d (w.apply d) allowed w.checkTask? := by
  obtain ⟨new, hprim, hnew⟩ := h.primitiveTasks hsteps
  refine ⟨rfl, fun n hn => ?_, fun n hn => ?_, fun m hm hnone => ?_, fun m hm t ht => ?_⟩
  · have hne : ∀ t ∈ new, t.name ≠ n := fun t ht he => hn (he ▸ hnew t ht)
    change (w.primitiveTasks ++ d.abstractTasks).find? (·.name = n)
      = (d.primitiveTasks ++ d.abstractTasks).find? (·.name = n)
    rw [hprim, List.find?_append, find?_append_of_forall_ne hne, List.find?_append]
  · change n ∈ w.primitiveTasks.map (·.name) ↔ n ∈ d.primitiveTasks.map (·.name)
    rw [hprim, List.map_append, List.mem_append, or_iff_left]
    intro hmem
    obtain ⟨t, ht, rfl⟩ := List.mem_map.1 hmem
    exact hn (hnew t ht)
  · cases hslot : w.slots.lookup m.name with
    | none =>
      obtain ⟨i, hi⟩ := List.mem_iff_getElem?.1 hm
      exact List.mem_of_getElem? (h.untouched i m hi hslot)
    | some slot =>
      obtain ⟨b, u, vs, ls, m', t', -, -, ht', -, -⟩ := h.exists_slot hm hslot
      simp [Draft.checkTask?, hslot, ht'] at hnone
  · obtain ⟨slot, hslot, ht⟩ := Option.bind_eq_some_iff.1 ht
    obtain ⟨b, u, vs, ls, m', t', -, hm', ht', hgrown, hls⟩ := h.exists_slot hm hslot
    obtain rfl : t = t' := Option.some.inj (ht.symm.trans ht')
    have hname : t.name = (m.checkStep t).task := hgrown.name
    have hmem : t ∈ w.primitiveTasks := List.mem_of_getElem? ht
    have hfirst : (w.apply d).task? (m.checkStep t).task = some t := h.task?_slot htasks hm hslot ht
    cases hgrown.starts with
    | old hs hu hst hname =>
      refine absurd ?_ (hsteps m hm _ (List.mem_of_getElem? hs))
      rw [hst, hname]
      exact isCheckTask_newCheckTask m.name
    | new hstep hlen _ =>
      have hmethod : m' = m.checkedBy t := by
        rw [hgrown.method, hgrown.task, hstep, m.addCheckStep_widen vs ls]
      have htask := hgrown.task
      refine ⟨hmethod ▸ List.mem_of_getElem? hm', hfirst, ?_, ?_, ?_, ?_, ?_⟩
      · exact hname ▸ List.mem_map.2 ⟨t, hmem, rfl⟩
      · rw [htask]
        rfl
      · rw [htask]
        exact hls (by simp)
      · rw [htask]
        exact hgrown.nodup
      · rw [htask] at hgrown ⊢
        exact hgrown.literals

end Guarded

namespace Method

variable {m : Method} {t : Task}

theorem before_checkedBy (hm : m.Consistent) (hid : newCheckStepMark ++ m.name ∉ m.stepIds)
    {a b : String} (h : (m.checkedBy t).Before a b) (ha : a ≠ newCheckStepMark ++ m.name) :
    m.Before a b ∧ b ≠ newCheckStepMark ++ m.name := by
  have hedge : ∀ x y, (x, y) ∈ (m.checkedBy t).ordering → x ≠ newCheckStepMark ++ m.name →
      (x, y) ∈ m.ordering ∧ y ≠ newCheckStepMark ++ m.name := by
    intro x y hxy hx
    obtain hxy | hxy := List.mem_append.1 hxy
    · exact ⟨hxy, fun he => hid (he ▸ (hm.ordered _ hxy).2)⟩
    · obtain ⟨s, -, he⟩ := List.mem_map.1 hxy
      exact absurd (Prod.mk.inj he).1.symm hx
  induction h with
  | single he =>
    obtain ⟨he, hb⟩ := hedge _ _ he ha
    exact ⟨.single he, hb⟩
  | tail _ he ih =>
    obtain ⟨hpath, hb⟩ := ih
    obtain ⟨he, hc⟩ := hedge _ _ he hb
    exact ⟨hpath.tail he, hc⟩

theorem precedes_checkedBy (hm : m.Consistent) (hid : newCheckStepMark ++ m.name ∉ m.stepIds)
    {a b : String} (h : (m.checkedBy t).Precedes a b) (ha : a ≠ newCheckStepMark ++ m.name) :
    m.Precedes a b ∧ b ≠ newCheckStepMark ++ m.name := by
  obtain ⟨hab, hbefore⟩ := precedes_iff.1 h
  obtain ⟨hbefore, hb⟩ := before_checkedBy hm hid hbefore ha
  exact ⟨precedes_iff.2 ⟨hab, hbefore⟩, hb⟩

theorem precedes_checkedBy_iff (hm : m.Consistent) (hid : newCheckStepMark ++ m.name ∉ m.stepIds)
    {a b : String} (ha : a ≠ newCheckStepMark ++ m.name) :
    (m.checkedBy t).Precedes a b ↔ m.Precedes a b := by
  refine ⟨fun h => (precedes_checkedBy hm hid h ha).1, fun h => ?_⟩
  obtain ⟨hab, hbefore⟩ := precedes_iff.1 h
  have hmono : (m.checkedBy t).Before a b :=
    Relation.TransGen.mono (fun _ _ he => List.mem_append_left _ he) _ _ hbefore
  exact precedes_iff.2 ⟨hab, hmono⟩

theorem checkStep_precedes (hid : newCheckStepMark ++ m.name ∉ m.stepIds) {s : Step}
    (hs : s ∈ m.steps) : (m.checkedBy t).Precedes (newCheckStepMark ++ m.name) s.id := by
  have hne : newCheckStepMark ++ m.name ≠ s.id := fun he => hid (he ▸ List.mem_map_of_mem hs)
  refine precedes_iff.2 ⟨hne, .single ?_⟩
  exact List.mem_append_right _ (List.mem_map.2 ⟨s, hs, rfl⟩)

end Method

end TaskNetwork
