import TaskNetwork.Proofs.CheckedDomains
import TaskNetwork.Proofs.HiddenVariables
import TaskNetwork.Proofs.Solvability

namespace TaskNetwork

open PatternSet

def Domain.SortsInhabited (d : Domain) : Prop :=
  ∀ m ∈ d.methods, ∀ v ∈ m.declarations, ∃ c, d.IsInstance v.sort c

theorem Domain.SortsInhabited.declared {d : Domain} (h : d.SortsInhabited) : d.SortsDeclared := by
  intro m hm v hv
  obtain ⟨c, names, hnames, -⟩ := h m hm v hv
  exact ⟨names, hnames⟩

theorem Pattern.lowered_drop_of_keep {d : Domain} {m : Method} {s : Step} {p q : Pattern}
    (h : p.lowered d m .keep s = some q) (hq : ∀ v, .name v ∈ q → v ∈ m.taskArguments) :
    p.lowered d m .drop s = some q := by
  rw [lowered_keep, Option.some.injEq] at h
  exact lowered_drop.2 ⟨h.symm, hq⟩

section Overlap

variable {d : Domain} {m : Method} (hd : d.NamesDiffer) (hs : d.SortsInhabited)
  (hm : m ∈ d.methods)
include hd hs hm

theorem exists_shared_instance {v : String} (hv : v ∈ m.variableNames) {a b : Argument}
    (ha : a = .name v ∨ a = .hidden m.name v) (hb : b = .name v ∨ b = .hidden m.name v) :
    ∃ names, a.instances d m = .ok names ∧ b.instances d m = .ok names ∧
      names.isDisjoint names = false := by
  obtain ⟨sort, names, hsort, hnames⟩ := hs.declared.instances_ok hd hm hv
  have hsame : ∀ a : Argument, a = .name v ∨ a = .hidden m.name v →
      a.instances d m = .ok names := by
    rintro a (rfl | rfl)
    all_goals
      rw [Argument.instances, hsort]
      exact hnames
  obtain ⟨n, hn, hname, hdecl⟩ := Domain.sortOf_eq_ok hsort
  obtain ⟨c, hc⟩ := hs n hn _ hdecl
  have hmem := Domain.mem_of_instances hnames hc
  refine ⟨names, hsame a ha, hsame b hb, ?_⟩
  rw [NameSet.isDisjoint, List.all_eq_false]
  exact ⟨c, hmem, by simpa using hmem⟩

theorem overlaps_seen {names : List String} (hnames : ∀ v ∈ names, v ∈ m.variableNames)
    {q : Pattern} (hq : List.Forall₂ (fun v b => m.seen .qualify v = some b) names q) :
    (Pattern.ofNames names).overlaps d m q = .ok true := by
  induction hq with
  | nil => rfl
  | @cons v b names q hvb _ ih =>
    obtain ⟨hv, hnames⟩ := List.forall_mem_cons.1 hnames
    have hb : b = .name v ∨ b = .hidden m.name v := by
      rw [Method.seen] at hvb
      split at hvb
      · exact .inl (Option.some.inj hvb).symm
      · exact .inr (Option.some.inj hvb).symm
    obtain ⟨ns, ha, hb, hdisjoint⟩ := exists_shared_instance hd hs hm hv (.inl rfl) hb
    change (Pattern.overlaps d m (.name v :: Pattern.ofNames names) (b :: q)) = _
    simp only [Pattern.overlaps, ha, hb, bind_eq_ok, Except.ok.injEq, exists_eq_left', hdisjoint]
    exact ih hnames

end Overlap

section Checked

variable {d d' : Domain} {allowed : Method → Literal → Prop} {check : Method → Option Task}
  {predicate : String} {positive : Bool} {records records' : String → TaskRecord} {m : Method}

/-- Where the records of the tasks of steps agree, and the check step is about what the method
requires. -/
structure ChecksRequired (d d' : Domain) (check : Method → Option Task) (predicate : String)
    (positive : Bool) (records records' : String → TaskRecord) (m : Method) : Prop where
  mem : m ∈ d.methods
  agree : ∀ s ∈ m.steps, records' s.task = records s.task
  subset : ∀ s ∈ m.steps, ∀ p ∈ (records s.task).needs.toList, p ∈ (records s.task).ensures.toList
  checked : ∀ t, check m = some t →
    records' (m.checkStep t).task = t.primitiveRecord predicate positive
  required : ∀ t, check m = some t → ∀ l ∈ t.preconditions, l.predicate = predicate →
    l.positive = positive → m.Requires d records (.ofNames l.arguments)

variable (h : d.Checked d' allowed check)
include h

theorem Domain.Checked.lowered_eq (hm : m ∈ d.methods) {s : Step} (hs : s ∈ m.steps)
    (policy : HiddenPolicy) (p : Pattern) :
    p.lowered d' (m.withCheck check) policy s = p.lowered d m policy s := by
  have hpassed : d'.passed s = d.passed s := by
    simp only [Domain.passed, h.guarded.task? _ (h.isOpen.step_task hm hs)]
  exact Pattern.lowered_congr hpassed Method.withCheck_name Method.withCheck_taskArguments

theorem Domain.Checked.lowered_check (hm : m ∈ d.methods) {t : Task} (ht : check m = some t)
    {names : List String} (hnames : ∀ v ∈ names, v ∈ t.parameterNames) {policy : HiddenPolicy}
    {q : Pattern} :
    (Pattern.ofNames names).lowered d' (m.withCheck check) policy (m.checkStep t) = some q ↔
      List.Forall₂ (fun v b => m.seen policy v = some b) names q := by
  obtain ⟨-, htask, -, -, -, hnodup, -⟩ := h.guarded.checked m hm t ht
  have hpassed : ∀ v ∈ names, d'.passed (m.checkStep t) v = v := by
    intro v hv
    obtain ⟨i, hi⟩ := List.mem_iff_getElem?.1 (hnames v hv)
    simp only [Domain.passed, htask]
    exact Task.valuation_eq hnodup hi hi
  rw [Pattern.lowered_eq_some, Pattern.ofNames, List.forall₂_map_left_iff]
  have hiff : ∀ v ∈ names, ∀ b,
      Argument.lowered d' (m.withCheck check) policy (m.checkStep t) (.name v) = some b ↔
        m.seen policy v = some b := by
    intro v hv b
    rw [Argument.lowered, hpassed v hv, Method.seen, Method.seen, Method.withCheck_taskArguments,
      Method.withCheck_name]
  clear hpassed hnames
  induction names generalizing q with
  | nil => simp
  | cons v names ih =>
    obtain ⟨hv, hnames⟩ := List.forall_mem_cons.1 hiff
    simp only [List.forall₂_cons_left_iff, hv, ih hnames]

theorem Domain.Checked.mem_check_needs (hm : m ∈ d.methods) {t : Task} (ht : check m = some t)
    {policy : HiddenPolicy} {p : Pattern} :
    (∃ q ∈ (t.primitiveRecord predicate positive).needs.toList,
      q.lowered d' (m.withCheck check) policy (m.checkStep t) = some p) ↔
    ∃ l ∈ t.preconditions, l.predicate = predicate ∧ l.positive = positive ∧
      List.Forall₂ (fun v b => m.seen policy v = some b) l.arguments p := by
  obtain ⟨-, -, -, -, -, -, hliterals⟩ := h.guarded.checked m hm t ht
  constructor
  · rintro ⟨q, hq, hlow⟩
    obtain ⟨l, hl, hp, hb, rfl⟩ := mem_patternsOf.1 hq
    exact ⟨l, hl, hp, hb, (h.lowered_check hm ht (hliterals l hl).2).1 hlow⟩
  · rintro ⟨l, hl, hp, hb, hlow⟩
    exact ⟨_, mem_patternsOf.2 ⟨l, hl, hp, hb, rfl⟩,
      (h.lowered_check hm ht (hliterals l hl).2).2 hlow⟩

omit h in
theorem seen_keep_eq_some {v : String} {b : Argument} :
    m.seen .keep v = some b ↔ b = .name v := by
  rw [Method.seen]
  split <;> simp [HiddenPolicy.apply, eq_comm]

omit h in
theorem seen_drop_eq_some {v : String} {b : Argument} :
    m.seen .drop v = some b ↔ v ∈ m.taskArguments ∧ b = .name v := by
  rw [Method.seen]
  split <;> simp [HiddenPolicy.apply, eq_comm, *]

omit h in
theorem forall₂_seen_keep {names : List String} {p : Pattern} :
    List.Forall₂ (fun v b => m.seen .keep v = some b) names p ↔ p = .ofNames names := by
  simp only [seen_keep_eq_some]
  induction names generalizing p with
  | nil => simp [Pattern.ofNames]
  | cons v names ih => simp [List.forall₂_cons_left_iff, ih, Pattern.ofNames]

omit h in
theorem forall₂_seen_drop {names : List String} {p : Pattern} :
    List.Forall₂ (fun v b => m.seen .drop v = some b) names p ↔
      p = .ofNames names ∧ ∀ v ∈ names, v ∈ m.taskArguments := by
  simp only [seen_drop_eq_some]
  induction names generalizing p with
  | nil => simp [Pattern.ofNames]
  | cons v names ih =>
    simp only [List.forall₂_cons_left_iff, ih, List.forall_mem_cons]
    constructor
    · rintro ⟨_, _, ⟨hv, rfl⟩, ⟨rfl, hall⟩, rfl⟩
      exact ⟨rfl, hv, hall⟩
    · rintro ⟨rfl, hv, hall⟩
      exact ⟨_, _, ⟨hv, rfl⟩, ⟨rfl, hall⟩, rfl⟩

omit h in
theorem primitiveRecord_of_no_effects {t : Task} (ht : t.effects = []) :
    (∀ p, p ∈ (t.primitiveRecord predicate positive).ensures.toList ↔
      p ∈ (t.primitiveRecord predicate positive).needs.toList) ∧
    (t.primitiveRecord predicate positive).mayAdd ≠ anything ∧
    ∀ p, p ∉ (t.primitiveRecord predicate positive).mayAdd.toList := by
  have hnone : ∀ p, p ∉ (patternsOf predicate positive t.effects).toList := by
    intro p hp
    obtain ⟨l, hl, -⟩ := mem_patternsOf.1 hp
    rw [ht] at hl
    cases hl
  have hne : patternsOf predicate positive t.effects ∪ patternsOf predicate positive t.preconditions
      ≠ anything := ((plain_patternsOf _ _ _).union (plain_patternsOf _ _ _)).ne_anything
  refine ⟨fun p => ?_, ?_, fun p hp => ?_⟩
  · exact (mem_union hne).trans (or_iff_right (hnone p))
  · exact fun hany => ofList_ne_anything (sdiff_eq_anything.1 hany)
  · exact hnone p ((mem_sdiff ofList_ne_anything).1 hp).1

variable (hc : ChecksRequired d d' check predicate positive records records' m)
include hc

theorem ChecksRequired.needs_iff {policy : HiddenPolicy} (hpolicy : policy ≠ .qualify)
    {p : Pattern} :
    (m.withCheck check).Needs d' records' policy p ↔ m.Needs d records policy p := by
  constructor
  · rintro ⟨s, hs, q, hq, hlow⟩
    obtain hs | ⟨t, ht, rfl⟩ := Method.mem_withCheck_steps.1 hs
    · rw [h.lowered_eq hc.mem hs] at hlow
      exact ⟨s, hs, q, hc.agree s hs ▸ hq, hlow⟩
    · rw [hc.checked t ht] at hq
      obtain ⟨l, hl, hpr, hpos, hseen⟩ := (h.mem_check_needs hc.mem ht).1 ⟨q, hq, hlow⟩
      obtain ⟨hkeep, -⟩ := hc.required t ht l hl hpr hpos
      cases policy with
      | qualify => exact absurd rfl hpolicy
      | keep => rwa [forall₂_seen_keep.1 hseen]
      | drop =>
        obtain ⟨rfl, hall⟩ := forall₂_seen_drop.1 hseen
        obtain ⟨s, hs, q, hq, hlow⟩ := hkeep
        refine ⟨s, hs, q, hq, Pattern.lowered_drop_of_keep hlow fun v hv => hall v ?_⟩
        simpa [Pattern.ofNames] using hv
  · rintro ⟨s, hs, q, hq, hlow⟩
    refine ⟨s, Method.mem_withCheck_steps.2 (.inl hs), q, (hc.agree s hs).symm ▸ hq, ?_⟩
    rwa [h.lowered_eq hc.mem hs]

theorem ChecksRequired.ensures_iff {p : Pattern} :
    (m.withCheck check).Ensures d' records' .drop p ↔ m.Ensures d records .drop p := by
  constructor
  · rintro ⟨s, hs, q, hq, hlow⟩
    obtain hs | ⟨t, ht, rfl⟩ := Method.mem_withCheck_steps.1 hs
    · rw [h.lowered_eq hc.mem hs] at hlow
      exact ⟨s, hs, q, hc.agree s hs ▸ hq, hlow⟩
    -- what the check step ensures it needs, and so does the method
    · obtain ⟨-, -, -, heffects, -⟩ := h.guarded.checked m hc.mem t ht
      rw [hc.checked t ht, (primitiveRecord_of_no_effects heffects).1] at hq
      refine ((hc.needs_iff h (by decide)).1 ?_).ensures hc.subset
      exact ⟨_, Method.mem_withCheck_steps.2 (.inr ⟨t, ht, rfl⟩), q,
        (congrArg TaskRecord.needs (hc.checked t ht)).symm ▸ hq, hlow⟩
  · rintro ⟨s, hs, q, hq, hlow⟩
    refine ⟨s, Method.mem_withCheck_steps.2 (.inl hs), q, (hc.agree s hs).symm ▸ hq, ?_⟩
    rwa [h.lowered_eq hc.mem hs]

omit hc in
theorem Domain.Checked.mem_predecessors (hm : m ∈ d.methods) {s e : Step} (hs : s ∈ m.steps) :
    e ∈ (m.withCheck check).predecessors s.id ↔
      e ∈ m.predecessors s.id ∨ ∃ t, check m = some t ∧ e = m.checkStep t := by
  have hid := h.isOpen.ids m hm
  have hm' := (h.isOpen.wellFormed.fits hm).consistent
  rw [Method.mem_predecessors, Method.mem_predecessors, Method.mem_withCheck_steps,
    Method.withCheck]
  cases ht : check m with
  | none => simp
  | some t =>
    have hold : e ∈ m.steps → ((m.checkedBy t).Precedes e.id s.id ↔ m.Precedes e.id s.id) :=
      fun he => Method.precedes_checkedBy_iff hm' hid fun heq =>
        hid (heq ▸ List.mem_map_of_mem he)
    simp only [Option.some.injEq, exists_eq_left']
    constructor
    · rintro ⟨he | he, hprec⟩
      · exact .inl ⟨he, (hold he).1 hprec⟩
      · exact .inr he
    · rintro (⟨he, hprec⟩ | rfl)
      · exact ⟨.inl he, (hold he).2 hprec⟩
      · exact ⟨.inr rfl, Method.checkStep_precedes hid hs⟩

theorem ChecksRequired.ensuresBefore_iff {s : Step} (hs : s ∈ m.steps) {p : Pattern} :
    (m.withCheck check).EnsuresBefore d' records' s p ↔ m.EnsuresBefore d records s p ∨
      ∃ t, check m = some t ∧ ∃ l ∈ t.preconditions, l.predicate = predicate ∧
        l.positive = positive ∧
        List.Forall₂ (fun v b => m.seen .qualify v = some b) l.arguments p := by
  have hold : ∀ e ∈ m.predecessors s.id, ∀ q,
      (q ∈ (records' e.task).ensures.toList ∧
        q.lowered d' (m.withCheck check) .qualify e = some p) ↔
      (q ∈ (records e.task).ensures.toList ∧ q.lowered d m .qualify e = some p) := by
    intro e he q
    have hemem := (Method.mem_predecessors.1 he).1
    rw [hc.agree e hemem, h.lowered_eq hc.mem hemem]
  have hnew : ∀ t, check m = some t → ∀ q,
      (q ∈ (records' (m.checkStep t).task).ensures.toList ↔
        q ∈ (t.primitiveRecord predicate positive).needs.toList) := by
    intro t ht q
    obtain ⟨-, -, -, heffects, -⟩ := h.guarded.checked m hc.mem t ht
    rw [hc.checked t ht, (primitiveRecord_of_no_effects heffects).1]
  constructor
  · rintro ⟨e, he, q, hq, hlow⟩
    obtain he | ⟨t, ht, rfl⟩ := (h.mem_predecessors hc.mem hs).1 he
    · exact .inl ⟨e, he, q, (hold e he q).1 ⟨hq, hlow⟩⟩
    · exact .inr ⟨t, ht, (h.mem_check_needs hc.mem ht).1 ⟨q, (hnew t ht q).1 hq, hlow⟩⟩
  · rintro (⟨e, he, q, hq⟩ | ⟨t, ht, hl⟩)
    · exact ⟨e, (h.mem_predecessors hc.mem hs).2 (.inl he), q, (hold e he q).2 hq⟩
    · obtain ⟨q, hq, hlow⟩ := (h.mem_check_needs hc.mem ht).2 hl
      exact ⟨_, (h.mem_predecessors hc.mem hs).2 (.inr ⟨t, ht, rfl⟩), q, (hnew t ht q).2 hq, hlow⟩

theorem ChecksRequired.adds_iff (hsorts : d.SortsInhabited) {p : Pattern} :
    (m.withCheck check).Adds d' records' p ↔ m.Adds d records p := by
  constructor
  · rintro ⟨s, hs, ⟨q, hq, hlow⟩, hno⟩
    obtain hs | ⟨t, ht, rfl⟩ := Method.mem_withCheck_steps.1 hs
    · rw [hc.agree s hs] at hq
      rw [h.lowered_eq hc.mem hs] at hlow
      rw [hc.ensuresBefore_iff h hs, not_or] at hno
      exact ⟨s, hs, ⟨q, hq, hlow⟩, hno.1⟩
    · obtain ⟨-, -, -, heffects, -⟩ := h.guarded.checked m hc.mem t ht
      rw [hc.checked t ht] at hq
      exact absurd hq ((primitiveRecord_of_no_effects heffects).2.2 q)
  · intro hp
    obtain ⟨s, hs, ⟨q, hq, hlow⟩, hno⟩ := id hp
    refine ⟨s, Method.mem_withCheck_steps.2 (.inl hs), ⟨q, (hc.agree s hs).symm ▸ hq, ?_⟩, ?_⟩
    · rwa [h.lowered_eq hc.mem hs]
    · rw [hc.ensuresBefore_iff h hs, not_or]
      refine ⟨hno, ?_⟩
      rintro ⟨t, ht, l, hl, hpr, hpos, hseen⟩
      obtain ⟨-, -, hcovered⟩ := hc.required t ht l hl hpr hpos
      obtain ⟨-, -, -, -, -, -, hliterals⟩ := h.guarded.checked m hc.mem t ht
      have hdeclared : ∀ v ∈ l.arguments, v ∈ m.variableNames := by
        have hm' : m.withCheck check ∈ d'.methods := h.mem_methods.2 ⟨m, hc.mem, rfl⟩
        obtain ⟨_, hcalls⟩ := h.wellFormed.calls hm'
          (Method.mem_withCheck_steps.2 (.inr ⟨t, ht, rfl⟩))
        intro v hv
        have hdecl := hcalls.declared v ((hliterals l hl).2 v hv)
        rwa [Method.variableNames, Method.withCheck_declarations] at hdecl
      -- it would overlap itself, and what the method requires overlaps nothing that may be added
      have htrue := overlaps_seen h.isOpen.wellFormed.names hsorts hc.mem hdeclared hseen
      rw [hcovered p hp] at htrue
      cases htrue

theorem ChecksRequired.addsAnything_iff :
    (m.withCheck check).AddsAnything records' ↔ m.AddsAnything records := by
  constructor
  · rintro ⟨s, hs, hany⟩
    obtain hs | ⟨t, ht, rfl⟩ := Method.mem_withCheck_steps.1 hs
    · exact ⟨s, hs, hc.agree s hs ▸ hany⟩
    · obtain ⟨-, -, -, heffects, -⟩ := h.guarded.checked m hc.mem t ht
      rw [hc.checked t ht] at hany
      exact absurd hany (primitiveRecord_of_no_effects heffects).2.1
  · rintro ⟨s, hs, hany⟩
    exact ⟨s, Method.mem_withCheck_steps.2 (.inl hs), (hc.agree s hs).symm ▸ hany⟩

omit hc in
theorem Domain.Checked.overlaps_eq (p q : Pattern) :
    p.overlaps d' (m.withCheck check) q = p.overlaps d m q := by
  have hinstances : ∀ a : Argument, a.instances d' (m.withCheck check) = a.instances d m := by
    intro a
    cases a <;>
      simp only [Argument.instances, h.sortOf, Method.withCheck_name, Domain.instances,
        h.guarded.sorts]
  induction p generalizing q with
  | nil => rfl
  | cons a p ih =>
    cases q with
    | nil => rfl
    | cons b q => simp only [Pattern.overlaps, hinstances, ih]

theorem ChecksRequired.requires_iff (hsorts : d.SortsInhabited) {p : Pattern} :
    (m.withCheck check).Requires d' records' p ↔ m.Requires d records p := by
  simp only [Method.Requires, hc.needs_iff h (show HiddenPolicy.keep ≠ .qualify by decide),
    hc.addsAnything_iff h, hc.adds_iff h hsorts, h.overlaps_eq]

end Checked

section Records

variable {d d' : Domain} {top other predicate n : String} {positive : Bool}
  {check : Method → Option Task} {records records' : String → TaskRecord} {m : Method}

/-- A sweep from anywhere requires what the check step is about, as the sweeps did that led to it.
-/
theorem Domain.Checked.checksRequired (h : d.Checked d' (d.Infers other) check)
    (hsorts : d.SortsInhabited) (hr : d.Solves top predicate positive records)
    (hr' : d'.Solves top predicate positive records') {u : Task} (hu : d.task? top = some u)
    (hm : m ∈ d.methods) (hvisits : d.Visits top m.task) (hnp : ¬d.IsPrimitive m.task)
    (hagree : ∀ s ∈ m.steps, records' s.task = records s.task) :
    ChecksRequired d d' check predicate positive records records' m := by
  have hd := h.isOpen.wellFormed
  have hstep : ∀ s ∈ m.steps, d.Continues m.task s.task := fun s hs => ⟨hnp, hd.decomposes hm hnp hs⟩
  refine ⟨hm, hagree, fun s hs => hr.needs_subset hd hu (hvisits.tail (hstep s hs)),
    fun t ht => ?_, fun t ht l hl hpr hpos => ?_⟩
  · obtain ⟨-, htask, hprim, -⟩ := h.guarded.checked m hm t ht
    exact hr'.primitive _ t htask hprim
  · obtain ⟨-, -, -, -, -, -, hliterals⟩ := h.guarded.checked m hm t ht
    obtain ⟨w, hw, f, hf, rfl, hmem⟩ := (hliterals l hl).1
    rw [hpr, hpos] at hw
    obtain ⟨-, hvisits', -, hfinds⟩ := finds_of_sweep hd hsorts.declared hw hf
    have hsolves := solves_of_sweep hd hw
    refine (Method.Requires.congr fun s hs => ?_).1 ((hfinds.inferred.2 _).1 hmem)
    obtain ⟨u', hu'⟩ := exists_task?_of_sweep hw
    exact hsolves.agree hd hr hu' (hvisits'.tail (hstep s hs)) (hvisits.tail (hstep s hs))

theorem Domain.Checked.gathers {allowed : Method → Literal → Prop}
    (h : d.Checked d' allowed check) (hsorts : d.SortsInhabited) {t : Task} {r : TaskRecord}
    (hc : ∀ m ∈ d.methods, m.task = t.name →
      ChecksRequired d d' check predicate positive records records' m)
    (hr : Gathers d' records' t r) : Gathers d records t r := by
  have hraised : ∀ (m : Method) (p : Pattern), p.raised t (m.withCheck check) = p.raised t m :=
    fun m p => Pattern.raised_congr Method.withCheck_taskArguments
  have hexists : ∀ P : Method → Prop, (∃ m' ∈ d'.methods, m'.task = t.name ∧ P m') ↔
      ∃ m ∈ d.methods, m.task = t.name ∧ P (m.withCheck check) := by
    intro P
    simp only [h.methods, List.mem_map, exists_exists_and_eq_and, Method.withCheck_task]
  have hforall : ∀ P : Method → Prop, (∀ m' ∈ d'.methods, m'.task = t.name → P m') ↔
      ∀ m ∈ d.methods, m.task = t.name → P (m.withCheck check) := by
    intro P
    simp only [h.methods, List.forall_mem_map, Method.withCheck_task]
  have hsome : (∃ m' ∈ d'.methods, m'.task = t.name) ↔ ∃ m ∈ d.methods, m.task = t.name := by
    simpa using hexists fun _ => True
  refine ⟨hr.initialized.trans hsome, hr.finished, hr.normal,
    ⟨hr.needs.1, fun p => (hr.needs.2 p).trans ?_⟩,
    ⟨hr.ensures.1, fun p => (hr.ensures.2 p).trans ?_⟩, hr.adds_anything.trans ?_,
    fun hne p => (hr.mayAdd hne p).trans ?_⟩
  · rw [hsome, hforall]
    refine and_congr_right fun _ => forall₃_congr fun m hm htask => exists_congr fun q => ?_
    rw [(hc m hm htask).needs_iff h (by decide), hraised]
  · rw [hsome, hforall]
    refine and_congr_right fun _ => forall₃_congr fun m hm htask => exists_congr fun q => ?_
    rw [(hc m hm htask).ensures_iff h, hraised]
  · rw [hexists]
    refine exists_congr fun m => and_congr_right fun hm => and_congr_right fun htask => ?_
    rw [(hc m hm htask).addsAnything_iff h]
  · rw [hexists]
    refine exists_congr fun m => and_congr_right fun hm => and_congr_right fun htask =>
      exists_congr fun q => ?_
    rw [(hc m hm htask).adds_iff h hsorts, hraised]

/-- Check steps do not change what is known of the tasks that were there before. -/
theorem Domain.Checked.records_eq (h : d.Checked d' (d.Infers other) check)
    (hsorts : d.SortsInhabited) (hr : d.Solves top predicate positive records)
    (hr' : d'.Solves top predicate positive records') {u : Task} (hu : d.task? top = some u)
    (hn : d.Visits top n) : records' n = records n := by
  refine (hr.eq_of_gathers (f := id) h.retains hr' (fun _ => rfl) h.isOpen.wellFormed hu rfl
    (fun _ _ ha _ hab => h.visits (ha.tail hab)) ?_ hn (h.visits hn)).symm
  intro t _ hn hp _ hsteps hgathers
  have hrequired : ∀ m ∈ d.methods, m.task = t.name →
      ChecksRequired d d' check predicate positive records records' m := fun m hm htask =>
    h.checksRequired hsorts hr hr' hu hm (htask ▸ hn) (htask ▸ hp) fun s hs =>
      (hsteps m hm htask s hs).symm
  exact h.gathers hsorts hrequired hgathers

theorem Domain.Checked.finding_eq {allowed : Method → Literal → Prop}
    (h : d.Checked d' allowed check) (hsorts : d.SortsInhabited) {f f' : Finding}
    (hc : ChecksRequired d d' check predicate positive records records' f.method)
    (hf : Finds d records f) (hf' : Finds d' records' f')
    (hmethod : f'.method = f.method.withCheck check) :
    f'.needs = f.needs ∧ f'.mayAdd = f.mayAdd ∧ f'.inferred = f.inferred := by
  refine ⟨?_, ?_, ?_⟩
  · refine hf'.normal.1.ext hf.normal.1 (iff_of_false hf'.needs.1 hf.needs.1) fun p => ?_
    rw [hf'.needs.2, hf.needs.2, hmethod, hc.needs_iff h (by decide)]
  · have hany : f'.mayAdd = anything ↔ f.mayAdd = anything := by
      rw [hf'.adds_anything, hf.adds_anything, hmethod, hc.addsAnything_iff h]
    refine hf'.normal.2.1.ext hf.normal.2.1 hany fun p => ?_
    by_cases hmay : f.mayAdd = anything
    · rw [hmay, hany.2 hmay]
    · rw [hf'.mayAdd (mt hany.1 hmay), hf.mayAdd hmay, hmethod, hc.adds_iff h hsorts]
  · refine hf'.normal.2.2.ext hf.normal.2.2 (iff_of_false hf'.inferred.1 hf.inferred.1) fun p => ?_
    rw [hf'.inferred.2, hf.inferred.2, hmethod, hc.requires_iff h hsorts]

theorem Domain.Checked.sortsDeclared {allowed : Method → Literal → Prop}
    (h : d.Checked d' allowed check) (hsorts : d.SortsDeclared) : d'.SortsDeclared := by
  intro m' hm' v hv
  obtain ⟨m, hm, rfl⟩ := h.mem_methods.1 hm'
  rw [Method.withCheck_declarations] at hv
  rw [h.guarded.sorts]
  exact hsorts m hm v hv

/-- The second finding is the first one, about the method with its check step. -/
structure Finding.Same (check : Method → Option Task) (f f' : Finding) : Prop where
  method : f'.method = f.method.withCheck check
  needs : f'.needs = f.needs
  mayAdd : f'.mayAdd = f.mayAdd
  inferred : f'.inferred = f.inferred

theorem Domain.Checked.exists_sweeps (h : d.Checked d' (d.Infers other) check)
    (hsorts : d.SortsInhabited) {u : Task} (hu : d.task? top = some u) (predicate : String)
    (positive : Bool) :
    ∃ w w', d.sweep top predicate positive = .ok w ∧ d'.sweep top predicate positive = .ok w' ∧
      (∀ n ∈ d.tasks.map (·.name), w'.record? n = w.record? n) ∧
      (∀ f ∈ w.findings, ∃ f' ∈ w'.findings, f.Same check f') ∧
      ∀ f' ∈ w'.findings, ∃ f ∈ w.findings, f.Same check f' := by
  have hd := h.isOpen.wellFormed
  have htop := Domain.name_mem_of_task?_eq_some hu
  have hsorts' := h.sortsDeclared hsorts.declared
  obtain ⟨w, hw⟩ := hd.sweep_ok hsorts.declared hu predicate positive
  obtain ⟨w', hw'⟩ :=
    h.wellFormed.sweep_ok hsorts' ((h.retains.task? _ htop).trans hu) predicate positive
  have hr := solves_of_sweep hd hw
  have hr' := solves_of_sweep h.wellFormed hw'
  have hsame : ∀ f ∈ w.findings, ∀ f' ∈ w'.findings, f'.method = f.method.withCheck check →
      f.Same check f' := by
    intro f hf f' hf' hmethod
    obtain ⟨hm, hvisits, hnp, hfinds⟩ := finds_of_sweep hd hsorts.declared hw hf
    obtain ⟨-, -, -, hfinds'⟩ := finds_of_sweep h.wellFormed hsorts' hw' hf'
    have hrequired := h.checksRequired hsorts hr hr' hu hm hvisits hnp fun s hs =>
      h.records_eq hsorts hr hr' hu (hvisits.tail ⟨hnp, hd.decomposes hm hnp hs⟩)
    obtain ⟨hneeds, hmayAdd, hinferred⟩ := h.finding_eq hsorts hrequired hfinds hfinds' hmethod
    exact ⟨hmethod, hneeds, hmayAdd, hinferred⟩
  have hfound : ∀ m ∈ d.methods, (∃ f ∈ w.findings, f.method = m) ↔
      ∃ f' ∈ w'.findings, f'.method = m.withCheck check := by
    intro m hm
    have htask := (hd.fits hm).task.mem_names
    rw [exists_finding_iff hd hsorts.declared hw, exists_finding_iff h.wellFormed hsorts' hw',
      Method.withCheck_task, h.retains.visits _ htop _ htask, h.retains.isPrimitive _ htask]
    exact and_congr_left fun _ => iff_of_true hm (h.mem_methods.2 ⟨m, hm, rfl⟩)
  refine ⟨w, w', hw, hw', fun n hn => ?_, fun f hf => ?_, fun f' hf' => ?_⟩
  · have hmap := h.retains.record?_eq_map (f := id) hd.names hw hw' hr hr' (fun _ => rfl) htop hn
      fun hv => (h.records_eq hsorts hr hr' hu hv).symm
    rw [hmap, Option.map_id_fun, id]
  · obtain ⟨hm, -⟩ := finds_of_sweep hd hsorts.declared hw hf
    obtain ⟨f', hf', hmethod⟩ := (hfound _ hm).1 ⟨f, hf, rfl⟩
    exact ⟨f', hf', hsame f hf f' hf' hmethod⟩
  · obtain ⟨hm', -⟩ := finds_of_sweep h.wellFormed hsorts' hw' hf'
    obtain ⟨m, hm, hmethod⟩ := h.mem_methods.1 hm'
    obtain ⟨f, hf, rfl⟩ := (hfound m hm).2 ⟨f', hf', hmethod.symm⟩
    exact ⟨f, hf, hsame f hf f' hf' hmethod.symm⟩

end Records

/-- After inference has succeeded, sweeps from any task that was there before find out what they
found out before. -/
theorem sweep_after_inferPreconditions {d d' : Domain} (hd : d.WellFormed)
    (hsorts : d.SortsInhabited) (htasks : ∀ t ∈ d.tasks, ¬IsCheckTask t.name)
    (hids : ∀ m ∈ d.methods, newCheckStepMark ++ m.name ∉ m.stepIds) {other : String}
    {tally : Tally} (h : d.inferPreconditions other = .ok (d', tally)) {top : String}
    (htop : top ∈ d.tasks.map (·.name)) (predicate : String) (positive : Bool) :
    ∃ w w', d.sweep top predicate positive = .ok w ∧ d'.sweep top predicate positive = .ok w' ∧
      (∀ n ∈ d.tasks.map (·.name), w'.record? n = w.record? n) ∧
      (∀ f ∈ w.findings, ∃ f' ∈ w'.findings, f'.method.name = f.method.name ∧
        f'.needs = f.needs ∧ f'.mayAdd = f.mayAdd ∧ f'.inferred = f.inferred) ∧
      ∀ f' ∈ w'.findings, ∃ f ∈ w.findings, f'.method.name = f.method.name ∧
        f'.needs = f.needs ∧ f'.mayAdd = f.mayAdd ∧ f'.inferred = f.inferred := by
  obtain ⟨check, hc⟩ := checked_of_inferPreconditions ⟨hd, htasks, hids⟩ h
  obtain ⟨u, hu, rfl⟩ := List.mem_map.1 htop
  have hu : d.task? u.name = some u := hd.names.task?_eq_some.2 ⟨hu, rfl⟩
  obtain ⟨w, w', hw, hw', hrecords, hfound, hfound'⟩ :=
    hc.exists_sweeps hsorts hu predicate positive
  have hname : ∀ {f f' : Finding}, f.Same check f' → f'.method.name = f.method.name := by
    intro f f' hsame
    rw [hsame.method, Method.withCheck_name]
  refine ⟨w, w', hw, hw', hrecords, fun f hf => ?_, fun f' hf' => ?_⟩
  · obtain ⟨f', hf', hsame⟩ := hfound f hf
    exact ⟨f', hf', hname hsame, hsame.needs, hsame.mayAdd, hsame.inferred⟩
  · obtain ⟨f, hf, hsame⟩ := hfound' f' hf'
    exact ⟨f, hf, hname hsame, hsame.needs, hsame.mayAdd, hsame.inferred⟩

def freeCheck : Task :=
  byHand.checkTask.widen [{ name := "z", sort := "thing" }]
    [{ predicate := "free", positive := true, arguments := ["z"] }]

def moveCheck : Task :=
  upAndDown.checkTask.widen [{ name := "z", sort := "thing" }]
    [{ predicate := "free", positive := true, arguments := ["z"] }]

def clearCheck : Task :=
  oneByOne.checkTask.widen [{ name := "a", sort := "thing" }, { name := "b", sort := "thing" }]
    [{ predicate := "free", positive := true, arguments := ["a"] },
      { predicate := "free", positive := true, arguments := ["b"] }]

def guardedClearing : Domain :=
  { clearing with
    primitiveTasks := clearing.primitiveTasks ++ [moveCheck, clearCheck]
    methods := [oneByOne.checkedBy clearCheck, upAndDown.checkedBy moveCheck] }

theorem sortsInhabited_clearing : clearing.SortsInhabited := by
  intro m hm v hv
  have hsort : v.sort = "thing" := by
    revert m v
    decide
  rw [hsort]
  exact ⟨"cup", NameSet.ofList ["cup", "jug"], rfl, by decide⟩

theorem exists_tally_clearing : ∃ tally,
    clearing.inferPreconditions "clear" = .ok (guardedClearing, tally) :=
  exists_tally (by decide +kernel)

theorem sweep_after_inferPreconditions_clearing : ∃ tally w w',
    clearing.inferPreconditions "clear" = .ok (guardedClearing, tally) ∧
    clearing.sweep "clear" "free" true = .ok w ∧
    guardedClearing.sweep "clear" "free" true = .ok w' ∧
    (∀ n ∈ ["pick", "drop", "clear", "move"], w'.record? n = w.record? n) ∧
    ∃ f ∈ w.findings, f.method = oneByOne ∧ [.name "a"] ∈ f.inferred ∧ [.name "b"] ∈ f.inferred ∧
      ∃ f' ∈ w'.findings, f'.method.name = "one_by_one" ∧ f'.inferred = f.inferred := by
  obtain ⟨tally, h⟩ := exists_tally_clearing
  obtain ⟨w, w', hw, hw', hrecords, hfindings, -⟩ :=
    sweep_after_inferPreconditions wellFormed_clearing sortsInhabited_clearing (by decide)
      (by decide) h (show "clear" ∈ clearing.tasks.map (·.name) by decide) "free" true
  obtain ⟨f, hf, hmethod, ha, hb⟩ : ∃ f ∈ w.findings, f.method = oneByOne ∧
      [.name "a"] ∈ f.inferred ∧ [.name "b"] ∈ f.inferred := by
    cases hw
    decide +kernel
  obtain ⟨f', hf', hname, -, -, hinferred⟩ := hfindings f hf
  exact ⟨tally, w, w', h, hw, hw', hrecords, f, hf, hmethod, ha, hb, f', hf',
    hname.trans (by rw [hmethod]; rfl), hinferred⟩

end TaskNetwork
