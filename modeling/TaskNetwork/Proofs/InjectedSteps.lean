import TaskNetwork.Proofs.CheckedSweeps

namespace TaskNetwork

/-- The second method is the first one with one more step. That comes before all others, which are
ordered as they were. -/
structure Method.Prefaced (m : Method) (s : Step) (m' : Method) : Prop where
  extended : ∃ pairs, m' = { m with steps := m.steps ++ [s], ordering := m.ordering ++ pairs }
  first : ∀ a ∈ m.steps, m'.Precedes s.id a.id
  unpreceded : ∀ a ∈ m.steps, ¬m'.Precedes a.id s.id
  kept : ∀ a ∈ m.steps, ∀ b ∈ m.steps, m'.Precedes a.id b.id ↔ m.Precedes a.id b.id

theorem Method.prefaced_checkedBy {m : Method} (hm : m.Consistent)
    (hid : newCheckStepMark ++ m.name ∉ m.stepIds) (t : Task) :
    m.Prefaced (m.checkStep t) (m.checkedBy t) := by
  have hne : ∀ a ∈ m.steps, a.id ≠ newCheckStepMark ++ m.name := fun a ha he =>
    hid (he ▸ List.mem_map_of_mem ha)
  refine ⟨⟨_, rfl⟩, fun a ha => checkStep_precedes hid ha, fun a ha hprec => ?_,
    fun a ha b _ => precedes_checkedBy_iff hm hid (hne a ha)⟩
  exact (precedes_checkedBy hm hid hprec (hne a ha)).2 rfl

namespace Domain.Checked

variable {d d' : Domain} {top : String} {check : Method → Option Task} {m : Method}
  (h : d.Checked d' (d.Infers top) check)
include h

theorem visits_of_check (hm : m ∈ d.methods) {t : Task} (ht : check m = some t) :
    d.Visits top m.task ∧ ¬d.IsPrimitive m.task := by
  obtain ⟨-, -, -, -, hne, -, hliterals⟩ := h.guarded.checked m hm t ht
  obtain ⟨l, hl⟩ := List.exists_mem_of_ne_nil _ hne
  exact (hliterals l hl).1.visits.2

theorem withCheck_eq_or (hm : m ∈ d.methods) : m.withCheck check = m ∨
    (d.Visits top m.task ∧ ¬d.IsPrimitive m.task) ∧ ∃ s, m.Prefaced s (m.withCheck check) := by
  rw [Method.withCheck]
  cases ht : check m with
  | none => exact .inl rfl
  | some t =>
    have hconsistent := (h.isOpen.wellFormed.fits hm).consistent
    exact .inr ⟨h.visits_of_check hm ht, _, Method.prefaced_checkedBy hconsistent
      (h.isOpen.ids m hm) t⟩

end Domain.Checked

theorem Domain.WellFormed.isOpen {d : Domain} (hd : d.WellFormed)
    (htasks : ∀ t ∈ d.tasks, ¬IsCheckTask t.name)
    (hids : ∀ m ∈ d.methods, ∀ s ∈ m.steps, ¬newCheckStepMark.toList <+: s.id.toList) :
    Tree.Open d := by
  refine ⟨hd, htasks, fun m hm hmem => ?_⟩
  obtain ⟨s, hs, hid⟩ := List.mem_map.1 hmem
  refine hids m hm s hs ?_
  rw [hid, String.toList_append]
  exact List.prefix_append _ _

/-- Inference puts new primitive tasks behind the others and a first step into some of the methods
that are reached from the top task. All else stays where it is. -/
theorem inferPreconditions_extends {d d' : Domain} (hd : d.WellFormed)
    (htasks : ∀ t ∈ d.tasks, ¬IsCheckTask t.name)
    (hids : ∀ m ∈ d.methods, ∀ s ∈ m.steps, ¬newCheckStepMark.toList <+: s.id.toList) {top : String}
    {tally : Tally} (h : d.inferPreconditions top = .ok (d', tally)) :
    d'.sorts = d.sorts ∧ d'.predicates = d.predicates ∧ d'.abstractTasks = d.abstractTasks ∧
      d.primitiveTasks <+: d'.primitiveTasks ∧
      List.Forall₂ (fun m m' => m' = m ∨ (d.Visits top m.task ∧ ¬d.IsPrimitive m.task) ∧
        ∃ s, m.Prefaced s m') d.methods d'.methods := by
  have hopen : Tree.Open d := hd.isOpen htasks hids
  obtain ⟨w, rfl, hshaped⟩ := shaped_of_inferPreconditions hd.names hopen.checksOwn h
  have hchecked := hshaped.checked hopen
  refine ⟨rfl, rfl, rfl, ?_, ?_⟩
  · obtain ⟨new, hnew, -⟩ := hshaped.primitiveTasks fun m hm s hs => hopen.step_task hm hs
    exact ⟨new, hnew.symm⟩
  · rw [hchecked.methods, List.forall₂_map_right_iff, List.forall₂_same]
    exact fun m hm => hchecked.withCheck_eq_or hm

def inTurns : Method :=
  { byHand with
    name := "in_turns"
    steps := ["s", "t", "u"].map fun id => { id, task := "pick", arguments := ["z"] }
    ordering := [("t", "s")] }

def keeping : Domain :=
  { fetching with
    abstractTasks := ["fetch", "keep"].map fun name =>
      Task.ofParameters name [{ name := "y", sort := "thing" }]
    methods := [inTurns, { byHand with task := "keep" }] }

def turnCheck : Task :=
  inTurns.checkTask.widen [{ name := "z", sort := "thing" }]
    [{ predicate := "free", positive := true, arguments := ["z"] }]

def guardedKeeping : Domain :=
  { keeping with
    primitiveTasks := keeping.primitiveTasks ++ [turnCheck]
    methods := [inTurns.checkedBy turnCheck, { byHand with task := "keep" }] }

theorem inferPreconditions_extends_keeping : ∃ tally,
    keeping.inferPreconditions "fetch" = .ok (guardedKeeping, tally) ∧
    keeping.primitiveTasks <+: guardedKeeping.primitiveTasks ∧
    keeping.Visits "fetch" inTurns.task ∧
    (∃ s, inTurns.Prefaced s (inTurns.checkedBy turnCheck)) ∧
    inTurns.Precedes "t" "s" ∧ ¬inTurns.Precedes "u" "s" ∧ ¬inTurns.Precedes "s" "u" := by
  have hd : keeping.WellFormed := ⟨by decide, by decide, by decide, by decide⟩
  have hinfer : (keeping.inferPreconditions "fetch").toOption.map (·.1) = some guardedKeeping := by
    decide +kernel
  obtain ⟨tally, h⟩ := exists_tally hinfer
  obtain ⟨-, -, -, hprimitive, hmethods⟩ :=
    inferPreconditions_extends hd (by decide) (by decide) h
  obtain ⟨hturns, -⟩ := List.forall₂_cons.1 hmethods
  obtain ⟨⟨hvisits, -⟩, hprefaced⟩ := hturns.resolve_left (by decide)
  exact ⟨tally, h, hprimitive, hvisits, hprefaced, by decide, by decide, by decide⟩

end TaskNetwork
