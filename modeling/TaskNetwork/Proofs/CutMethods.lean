import TaskNetwork.Proofs.Cutting
import TaskNetwork.Proofs.HiddenVariables

namespace TaskNetwork

open PatternSet

variable {d : Domain} {records : String → TaskRecord} {φ : String → String} {n : String}
  {m next head : Method} {t : Task} {p q : Pattern} {a s e : Step} {l : List Step}

namespace Method

section Order

variable (h : m.InListOrder) (hnodup : m.stepIds.Nodup) (hsteps : m.steps = a :: l)
include h hnodup hsteps

theorem InListOrder.notMem_predecessors_first : e ∉ m.predecessors a.id := by
  intro he
  obtain ⟨hmem, hprec⟩ := mem_predecessors.1 he
  rw [hsteps] at hmem
  obtain rfl | hmem := List.mem_cons.1 hmem
  · exact hprec.1 rfl
  · have hpair := h.pairwise hnodup
    rw [hsteps] at hpair
    exact (h.acyclic hnodup).precedes_asymm ((List.pairwise_cons.1 hpair).1 e hmem) hprec

theorem InListOrder.first_mem_predecessors (hs : s ∈ l) : a ∈ m.predecessors s.id := by
  have hpair := h.pairwise hnodup
  rw [hsteps] at hpair
  exact mem_predecessors.2 ⟨hsteps ▸ List.mem_cons_self, (List.pairwise_cons.1 hpair).1 s hs⟩

end Order

section Splits

variable {first second : Step} {later : List Step} {taskName restName : String}

theorem Splits.mem_predecessors_rest (h : m.Splits first second later) (taskName restName : String)
    (hs : s ∈ second :: later) : e ∈ m.predecessors s.id ↔ e = first ∨
      e ∈ (m.cut taskName restName first second later).rest.predecessors s.id := by
  have hrest : (m.cut taskName restName first second later).rest.InListOrder := h.inListOrder_rest
  have hnodup := (h.consistent_rest taskName restName).nodup_steps
  have hpair := h.inListOrder.pairwise h.consistent.nodup_steps
  rw [h.steps] at hpair
  have hcongr : ∀ e ∈ second :: later, (m.Precedes e.id s.id ↔
      (m.cut taskName restName first second later).rest.Precedes e.id s.id) := fun e he =>
    precedes_congr (h.inListOrder.acyclic h.consistent.nodup_steps) (hrest.acyclic hnodup)
      (List.pairwise_cons.1 hpair).2 (hrest.pairwise hnodup) he hs
  constructor
  · intro he
    obtain ⟨hmem, hprec⟩ := mem_predecessors.1 he
    rw [h.steps] at hmem
    obtain rfl | hmem := List.mem_cons.1 hmem
    · exact .inl rfl
    · exact .inr (mem_predecessors.2 ⟨hmem, (hcongr e hmem).1 hprec⟩)
  · rintro (rfl | he)
    · exact h.inListOrder.first_mem_predecessors h.consistent.nodup_steps h.steps hs
    · obtain ⟨hmem, hprec⟩ := mem_predecessors.1 he
      refine mem_predecessors.2 ⟨?_, (hcongr e hmem).2 hprec⟩
      rw [h.steps]
      exact List.mem_cons_of_mem _ hmem

def restStep (m : Method) (taskName restName : String) (first second : Step) (later : List Step) :
    Step where
  id := second.id
  task := taskName
  arguments := (m.cut taskName restName first second later).task.parameterNames

theorem Splits.mem_predecessors_head (h : m.Splits first second later) :
    e ∈ (m.cut taskName restName first second later).head.predecessors second.id ↔ e = first := by
  have horder : (m.cut taskName restName first second later).head.InListOrder := rfl
  have hnodup := (h.consistent_head taskName restName).nodup_steps
  constructor
  · intro he
    obtain ⟨hmem, hprec⟩ := mem_predecessors.1 he
    obtain rfl | hmem := List.mem_cons.1 hmem
    · rfl
    · obtain rfl := List.mem_singleton.1 hmem
      exact absurd rfl hprec.1
  · rintro rfl
    let s := m.restStep taskName restName e second later
    exact horder.first_mem_predecessors (s := s) hnodup rfl (List.mem_singleton.2 rfl)

theorem Splits.mem_parameterNames (h : m.Splits first second later) (taskName restName : String)
    {v : String} (hv : v ∈ (second :: later).flatMap (·.arguments))
    (huse : v ∈ m.taskArguments ∨ v ∈ first.arguments) :
    v ∈ (m.cut taskName restName first second later).task.parameterNames := by
  obtain ⟨u, hu, rfl⟩ := h.declared (h.mem_usedNames (.inr hv))
  refine List.mem_map_of_mem (mem_cut_task.2 ⟨mem_cut_head.2 ⟨hu, ?_⟩, hv⟩)
  exact huse.imp_right .inl

theorem Splits.parameterNames_subset {v : String}
    (hv : v ∈ (m.cut taskName restName first second later).task.parameterNames) :
    v ∈ (second :: later).flatMap (·.arguments) := by
  obtain ⟨u, hu, rfl⟩ := List.mem_map.1 hv
  exact (mem_cut_task.1 hu).2

end Splits

/-- Some step of the method may add the pattern and no step before it ensures it, in terms of the
variables of the method, before any of them is hidden. -/
def AddsInside (d : Domain) (records : String → TaskRecord) (m : Method) (p : Pattern) : Prop :=
  ∃ s ∈ m.steps, (∃ q ∈ (records s.task).mayAdd.toList, q.passed d s = p) ∧
    ¬∃ e ∈ m.predecessors s.id, ∃ q ∈ (records e.task).ensures.toList, q.passed d e = p

/-- A step brings the pattern to the task of the method. -/
def Brings (d : Domain) (sets : String → PatternSet) (m : Method) (p : Pattern) : Prop :=
  ∃ s ∈ m.steps, ∃ q ∈ (sets s.task).toList, q.lowered d m .drop s = some p

theorem Brings.names {sets : String → PatternSet} (h : m.Brings d sets p) {v : String}
    (hv : .name v ∈ p) : v ∈ m.taskArguments := by
  obtain ⟨s, -, q, -, hlow⟩ := h
  exact (Pattern.lowered_drop.1 hlow).2 v hv

theorem Adds.names (h : m.Adds d records p) {v : String} (hv : .name v ∈ p) :
    v ∈ m.taskArguments := by
  obtain ⟨s, -, ⟨q, -, hlow⟩, -⟩ := h
  rw [Pattern.lowered_qualify] at hlow
  obtain rfl := Option.some.inj hlow
  exact Pattern.name_mem_hide hv

end Method

/-- What is known of the task of the step is about its arguments, and no hidden variable belongs to
the method of the given name. -/
structure Step.Clear (d : Domain) (records : String → TaskRecord) (φ : String → String) (n : String)
    (s : Step) : Prop where
  needs : ∀ p ∈ (records s.task).needs.toList, ∀ v, .name v ∈ p.passed d s → v ∈ s.arguments
  ensures : ∀ p ∈ (records s.task).ensures.toList, ∀ v, .name v ∈ p.passed d s → v ∈ s.arguments
  mayAdd : ∀ p ∈ (records s.task).mayAdd.toList, ∀ v, .name v ∈ p.passed d s → v ∈ s.arguments
  named : ∀ p ∈ (records s.task).ensures.toList, p.Named
  hidden : ∀ p ∈ (records s.task).mayAdd.toList, ∀ o v, .hidden o v ∈ p → φ o ≠ n

namespace Method

theorem AddsInside.hidden (hclear : ∀ s ∈ m.steps, s.Clear d records φ n)
    (h : m.AddsInside d records p) {o v : String} (hv : .hidden o v ∈ p) : φ o ≠ n := by
  obtain ⟨s, hs, ⟨q, hq, rfl⟩, -⟩ := h
  exact (hclear s hs).hidden q hq o v (Pattern.hidden_mem_passed.1 hv)

theorem adds_iff_hide : m.Adds d records q ↔ ∃ s ∈ m.steps,
    (∃ p ∈ (records s.task).mayAdd.toList, (p.passed d s).hide m = q) ∧
    ¬∃ e ∈ m.predecessors s.id, ∃ p ∈ (records e.task).ensures.toList,
      (p.passed d e).hide m = q := by
  simp only [Adds, EnsuresBefore, Pattern.lowered_qualify, Option.some.injEq]

/-- What the method may add is what it may add inside, with its own variables hidden. -/
theorem adds_iff_addsInside (hclear : ∀ s ∈ m.steps, s.Clear d records φ n) (hn : φ m.name = n) :
    m.Adds d records q ↔ ∃ p, m.AddsInside d records p ∧ p.hide m = q := by
  rw [adds_iff_hide]
  constructor
  · rintro ⟨s, hs, ⟨p, hp, rfl⟩, hno⟩
    refine ⟨p.passed d s, ⟨s, hs, ⟨p, hp, rfl⟩, ?_⟩, rfl⟩
    rintro ⟨e, he, r, hr, heq⟩
    exact hno ⟨e, he, r, hr, by rw [heq]⟩
  · rintro ⟨p, hp, rfl⟩
    have hhidden := fun v (hv : .hidden m.name v ∈ p) => hp.hidden hclear hv hn
    obtain ⟨s, hs, ⟨q, hq, rfl⟩, hno⟩ := hp
    refine ⟨s, hs, ⟨q, hq, rfl⟩, ?_⟩
    rintro ⟨e, he, r, hr, heq⟩
    refine hno ⟨e, he, r, hr, ?_⟩
    have hnamed : (r.passed d e).Named := ((hclear e (mem_predecessors.1 he).1).named r hr).passed
    obtain ⟨names, hnames⟩ := hnamed
    rw [hnames] at heq ⊢
    exact (Pattern.eq_of_hide_eq heq.symm fun v hv => (hhidden v hv).elim).symm

end Method

structure Told (d : Domain) (records : String → TaskRecord) (t : Task) (next : Method) : Prop where
  task : d.task? t.name = some t
  nodup : t.parameterNames.Nodup
  arguments : next.taskArguments = t.parameterNames
  needs : ∀ p, p ∈ (records t.name).needs.toList ↔ next.Needs d records .drop p
  ensures : ∀ p, p ∈ (records t.name).ensures.toList ↔ next.Ensures d records .drop p
  adds_anything : (records t.name).mayAdd = anything ↔ next.AddsAnything records
  mayAdd : (records t.name).mayAdd ≠ anything →
    ∀ p, p ∈ (records t.name).mayAdd.toList ↔ next.Adds d records p

theorem Gathers.told (h : Gathers d records t (records t.name)) (ht : d.task? t.name = some t)
    (hnodup : t.parameterNames.Nodup) (hnext : next ∈ d.methods) (htask : next.task = t.name)
    (honly : ∀ r ∈ d.methods, r.task = t.name → r = next)
    (harguments : next.taskArguments = t.parameterNames) : Told d records t next := by
  have hsome : ∃ r ∈ d.methods, r.task = t.name := ⟨next, hnext, htask⟩
  have hraised : ∀ {q : Pattern}, (∀ v, .name v ∈ q → v ∈ next.taskArguments) →
      q.raised t next = q := fun hq =>
    Pattern.raised_self hnodup harguments (harguments ▸ hq)
  have hall : ∀ {P : Pattern → Prop}, (∀ q, P q → ∀ v, .name v ∈ q → v ∈ next.taskArguments) →
      ∀ p, (∃ q, P q ∧ q.raised t next = p) ↔ P p := by
    intro P hP p
    constructor
    · rintro ⟨q, hq, rfl⟩
      rwa [hraised (hP q hq)]
    · exact fun hp => ⟨p, hp, hraised (hP p hp)⟩
  have hforall : ∀ {P : Method → Prop},
      ((∃ r ∈ d.methods, r.task = t.name) ∧ ∀ r ∈ d.methods, r.task = t.name → P r) ↔ P next := by
    intro P
    refine ⟨fun hP => hP.2 next hnext htask, fun hP => ⟨hsome, fun r hr hrt => ?_⟩⟩
    rwa [honly r hr hrt]
  have hexists : ∀ {P : Method → Prop}, (∃ r ∈ d.methods, r.task = t.name ∧ P r) ↔ P next := by
    intro P
    refine ⟨?_, fun hP => ⟨next, hnext, htask, hP⟩⟩
    rintro ⟨r, hr, hrt, hP⟩
    rwa [← honly r hr hrt]
  refine ⟨ht, hnodup, harguments, fun p => ?_, fun p => ?_, h.adds_anything.trans hexists,
    fun hne p => ?_⟩
  · rw [h.needs.2, hforall]
    exact hall (P := next.Brings d fun k => (records k).needs) (fun q hq v hv => hq.names hv) p
  · rw [h.ensures.2, hforall]
    exact hall (P := next.Brings d fun k => (records k).ensures) (fun q hq v hv => hq.names hv) p
  · rw [h.mayAdd hne, hexists]
    exact hall (fun q hq v hv => hq.names hv) p

theorem Told.adds (h : Told d records t next) (hp : p ∈ (records t.name).mayAdd.toList) :
    next.Adds d records p := by
  refine (h.mayAdd ?_ p).1 hp
  intro hany
  rw [hany] at hp
  cases hp

/-- The head tells about the task what the method does, if hidden variables of its cascade are
counted as hidden variables of the method. -/
structure Matches (d : Domain) (records : String → TaskRecord) (φ : String → String) (n : String)
    (m head : Method) : Prop where
  arguments : head.taskArguments = m.taskArguments
  needs : ∀ p, head.Needs d records .drop p ↔ m.Needs d records .drop p
  ensures : ∀ p, head.Ensures d records .drop p ↔ m.Ensures d records .drop p
  adds_anything : head.AddsAnything records ↔ m.AddsAnything records
  hidden : ∀ q, head.Adds d records q → ∀ o v, .hidden o v ∈ q → φ o = n →
    v ∈ m.steps.flatMap (·.arguments) ∧ v ∉ m.taskArguments
  adds : ¬m.AddsAnything records → ∀ p, (∃ q, head.Adds d records q ∧ q.reveal φ n = p) ↔
    ∃ q, m.AddsInside d records q ∧ q.reveal φ n = p

theorem matches_self (hclear : ∀ s ∈ m.steps, s.Clear d records φ n) (hn : φ m.name = n) :
    Matches d records φ n m m := by
  have hadds := fun q => Method.adds_iff_addsInside (q := q) hclear hn
  refine ⟨rfl, fun _ => .rfl, fun _ => .rfl, .rfl, fun q hq o v hv ho => ?_, fun _ p => ?_⟩
  · obtain ⟨p, hp, rfl⟩ := (hadds q).1 hq
    obtain hv | ⟨hv, -, hno⟩ := Pattern.mem_hide hv
    · exact absurd ho (hp.hidden hclear hv)
    · obtain ⟨s, hs, ⟨r, hr, rfl⟩, -⟩ := hp
      exact ⟨List.mem_flatMap.2 ⟨s, hs, (hclear s hs).mayAdd r hr v hv⟩, hno⟩
  · constructor
    · rintro ⟨q, hq, rfl⟩
      obtain ⟨p, hp, rfl⟩ := (hadds q).1 hq
      exact ⟨p, hp, (Pattern.reveal_hide hn).symm⟩
    · rintro ⟨q, hq, rfl⟩
      exact ⟨q.hide m, (hadds _).2 ⟨q, hq, rfl⟩, Pattern.reveal_hide hn⟩

namespace Method.Splits

variable {first second : Step} {later : List Step} {taskName restName : String}
  (h : m.Splits first second later)
include h

theorem brings_head_iff (sets : String → PatternSet)
    (hnames : ∀ s ∈ m.steps, ∀ q ∈ (sets s.task).toList, ∀ v, .name v ∈ q.passed d s →
      v ∈ s.arguments)
    (htold : Told d records (m.cut taskName restName first second later).task next)
    (hrest : ∀ q, q ∈ (sets taskName).toList ↔
      (m.cut taskName restName first second later).rest.Brings d sets q) :
    (m.cut taskName restName first second later).head.Brings d sets p ↔ m.Brings d sets p := by
  -- the step for the rest passes variables to parameters of the same names
  have hpassed : ∀ q ∈ (sets taskName).toList,
      q.passed d (m.restStep taskName restName first second later) = q := fun q hq =>
    Pattern.passed_self htold.task htold.nodup rfl fun v hv => ((hrest q).1 hq).names hv
  constructor
  · rintro ⟨s, hs, q, hq, hlow⟩
    rw [Pattern.lowered_drop] at hlow
    obtain rfl | hs := List.mem_cons.1 hs
    · exact ⟨s, h.steps ▸ List.mem_cons_self, q, hq, Pattern.lowered_drop.2 hlow⟩
    · obtain rfl : s = m.restStep taskName restName first second later := List.mem_singleton.1 hs
      rw [hpassed q hq] at hlow
      obtain ⟨rfl, hall⟩ := hlow
      obtain ⟨s, hs, r, hr, hlow⟩ := (hrest p).1 hq
      refine ⟨s, h.steps ▸ List.mem_cons_of_mem _ hs, r, hr, Pattern.lowered_drop.2 ⟨?_, hall⟩⟩
      exact (Pattern.lowered_drop.1 hlow).1
  · rintro ⟨s, hs, q, hq, hlow⟩
    have hargs := hnames s hs q hq
    obtain ⟨rfl, hall⟩ := Pattern.lowered_drop.1 hlow
    rw [h.steps] at hs
    obtain rfl | hs := List.mem_cons.1 hs
    · exact ⟨s, List.mem_cons_self, q, hq, Pattern.lowered_drop.2 ⟨rfl, hall⟩⟩
    · have hq' : q.passed d s ∈ (sets taskName).toList := by
        refine (hrest _).2 ⟨s, hs, q, hq, Pattern.lowered_drop.2 ⟨rfl, fun v hv => ?_⟩⟩
        have hv' := List.mem_flatMap.2 ⟨s, hs, hargs v hv⟩
        exact h.mem_parameterNames taskName restName hv' (.inl (hall v hv))
      refine ⟨m.restStep taskName restName first second later,
        List.mem_cons_of_mem _ List.mem_cons_self, q.passed d s, hq',
        Pattern.lowered_drop.2 ⟨?_, hall⟩⟩
      rw [hpassed _ hq']

theorem addsInside_iff (taskName restName : String) : m.AddsInside d records p ↔
    (∃ q ∈ (records first.task).mayAdd.toList, q.passed d first = p) ∨
    (m.cut taskName restName first second later).rest.AddsInside d records p ∧
      ¬∃ q ∈ (records first.task).ensures.toList, q.passed d first = p := by
  constructor
  · rintro ⟨s, hs, hp, hno⟩
    rw [h.steps] at hs
    obtain rfl | hs := List.mem_cons.1 hs
    · exact .inl hp
    · simp only [h.mem_predecessors_rest taskName restName hs, or_and_right, exists_or,
         exists_eq_left, not_or] at hno
      exact .inr ⟨⟨s, hs, hp, hno.2⟩, hno.1⟩
  · rintro (hp | ⟨⟨s, hs, hp, hno⟩, hfirst⟩)
    · refine ⟨first, h.steps ▸ List.mem_cons_self, hp, ?_⟩
      rintro ⟨e, he, -⟩
      exact h.inListOrder.notMem_predecessors_first h.consistent.nodup_steps h.steps he
    · refine ⟨s, h.steps ▸ List.mem_cons_of_mem _ hs, hp, ?_⟩
      rintro ⟨e, he, hq⟩
      obtain rfl | he := (h.mem_predecessors_rest _ _ hs).1 he
      · exact hfirst hq
      · exact hno ⟨e, he, hq⟩

theorem adds_head_iff
    (htold : Told d records (m.cut taskName restName first second later).task next) :
    (m.cut taskName restName first second later).head.Adds d records q ↔
      (∃ p ∈ (records first.task).mayAdd.toList,
        (p.passed d first).hide (m.cut taskName restName first second later).head = q) ∨
      (∃ p ∈ (records taskName).mayAdd.toList,
        p.hide (m.cut taskName restName first second later).head = q) ∧
      ¬∃ p ∈ (records first.task).ensures.toList,
        (p.passed d first).hide (m.cut taskName restName first second later).head = q := by
  have hpassed : ∀ p ∈ (records taskName).mayAdd.toList,
      p.passed d (m.restStep taskName restName first second later) = p := fun p hp =>
    Pattern.passed_self htold.task htold.nodup rfl fun v hv =>
      htold.arguments ▸ (htold.adds hp).names hv
  have horder : (m.cut taskName restName first second later).head.InListOrder := rfl
  have hnodup := (h.consistent_head taskName restName).nodup_steps
  rw [adds_iff_hide]
  constructor
  · rintro ⟨s, hs, ⟨p, hp, hq⟩, hno⟩
    obtain rfl | hs := List.mem_cons.1 hs
    · exact .inl ⟨p, hp, hq⟩
    · obtain rfl : s = m.restStep taskName restName first second later := List.mem_singleton.1 hs
      rw [hpassed p hp] at hq
      refine .inr ⟨⟨p, hp, hq⟩, fun hp => hno ⟨first, ?_, hp⟩⟩
      exact h.mem_predecessors_head.2 rfl
  · rintro (hp | ⟨⟨p, hp, hq⟩, hno⟩)
    · refine ⟨first, List.mem_cons_self, hp, ?_⟩
      rintro ⟨e, he, -⟩
      exact horder.notMem_predecessors_first hnodup rfl he
    · refine ⟨m.restStep taskName restName first second later,
        List.mem_cons_of_mem _ List.mem_cons_self, ⟨p, hp, ?_⟩, ?_⟩
      · rwa [hpassed p hp]
      · rintro ⟨e, he, hp⟩
        obtain rfl := h.mem_predecessors_head.1 he
        exact hno hp

variable
  (hmatches : Matches d records φ n (m.cut taskName restName first second later).rest next)
include hmatches

/-- What the rest of the chain hides is no variable of the first step or the task of the method. -/
theorem hidden_rest (hq : next.Adds d records q) {o v : String} (hv : .hidden o v ∈ q)
    (ho : φ o = n) : v ∈ (second :: later).flatMap (·.arguments) ∧ v ∉ m.taskArguments ∧
      v ∉ first.arguments := by
  obtain ⟨hargs, hno⟩ := hmatches.hidden q hq o v hv ho
  exact ⟨hargs, fun hmem => hno (h.mem_parameterNames taskName restName hargs (.inl hmem)),
    fun hmem => hno (h.mem_parameterNames taskName restName hargs (.inr hmem))⟩

variable (hclear : ∀ s ∈ m.steps, s.Clear d records φ n)
include hclear

theorem hidden_head {o v : String}
    (htold : Told d records (m.cut taskName restName first second later).task next)
    (hq : (m.cut taskName restName first second later).head.Adds d records q)
    (hv : .hidden o v ∈ q) (ho : φ o = n) :
    v ∈ m.steps.flatMap (·.arguments) ∧ v ∉ m.taskArguments := by
  have hfirst := hclear first (h.steps ▸ List.mem_cons_self)
  rw [h.steps, List.flatMap_cons, List.mem_append]
  obtain ⟨p, hp, rfl⟩ | ⟨⟨p, hp, rfl⟩, -⟩ := (h.adds_head_iff htold).1 hq
  · obtain hv | ⟨hv, -, hno⟩ := Pattern.mem_hide hv
    · exact absurd ho (hfirst.hidden p hp o v (Pattern.hidden_mem_passed.1 hv))
    · exact ⟨.inl (hfirst.mayAdd p hp v hv), hno⟩
  · obtain hv | ⟨hv, -, hno⟩ := Pattern.mem_hide hv
    · obtain ⟨hargs, hno, -⟩ := h.hidden_rest hmatches (htold.adds hp) hv ho
      exact ⟨.inr hargs, hno⟩
    · have hmem : v ∈ (m.cut taskName restName first second later).task.parameterNames :=
        htold.arguments ▸ (htold.adds hp).names hv
      exact ⟨.inr (parameterNames_subset hmem), hno⟩

variable (hn : φ m.name = n)
include hn

/-- What the first step ensures is told from what the rest may add, whatever is hidden. -/
theorem ensured_iff (hq : next.Adds d records q)
    (hp : (m.cut taskName restName first second later).rest.AddsInside d records p)
    (hpq : q.reveal φ n = p.reveal φ n) :
    (∃ e ∈ (records first.task).ensures.toList, (e.passed d first).hide
      (m.cut taskName restName first second later).head =
        q.hide (m.cut taskName restName first second later).head) ↔
    ∃ e ∈ (records first.task).ensures.toList, e.passed d first = p := by
  have hfirst := hclear first (h.steps ▸ List.mem_cons_self)
  have hlater : ∀ s ∈ (m.cut taskName restName first second later).rest.steps,
      s.Clear d records φ n := fun s hs => hclear s (h.steps ▸ List.mem_cons_of_mem _ hs)
  refine exists_congr fun e => and_congr_right fun he => ?_
  have hargs := hfirst.ensures e he
  obtain ⟨names, hnames⟩ : (e.passed d first).Named := (hfirst.named e he).passed
  rw [hnames] at hargs ⊢
  -- otherwise a variable of the first step would be a parameter for the rest, and not hidden there
  have hrest : ∀ o v, .hidden o v ∈ q → φ o = n → v ∉ names := by
    intro o v hv ho hmem
    obtain ⟨-, -, hno⟩ := h.hidden_rest hmatches hq hv ho
    exact hno (hargs v (List.mem_map_of_mem hmem))
  constructor
  · intro heq
    have hq := Pattern.eq_of_hide_eq heq.symm fun v hv => hrest _ v hv hn
    rw [hq, Pattern.reveal_ofNames] at hpq
    exact (Pattern.eq_of_reveal_eq hpq.symm fun o v hv ho => absurd ho (hp.hidden hlater hv)).symm
  · rintro rfl
    rw [Pattern.reveal_ofNames] at hpq
    rw [Pattern.eq_of_reveal_eq hpq hrest]

theorem matches_head
    (htold : Told d records (m.cut taskName restName first second later).task next) :
    Matches d records φ n m (m.cut taskName restName first second later).head := by
  have hhead : ∀ p : Pattern,
      (p.hide (m.cut taskName restName first second later).head).reveal φ n = p.reveal φ n :=
    fun p => Pattern.reveal_hide hn
  have hany : (records taskName).mayAdd = anything ↔
      (m.cut taskName restName first second later).rest.AddsAnything records :=
    htold.adds_anything.trans hmatches.adds_anything
  refine ⟨rfl, fun p => ?_, fun p => ?_, ?_, fun q hq o v hv ho => ?_, fun hno p => ?_⟩
  · exact h.brings_head_iff (fun k => (records k).needs) (fun s hs => (hclear s hs).needs) htold
      fun q => (htold.needs q).trans (hmatches.needs q)
  · exact h.brings_head_iff (fun k => (records k).ensures) (fun s hs => (hclear s hs).ensures) htold
      fun q => (htold.ensures q).trans (hmatches.ensures q)
  · simp only [AddsAnything, h.steps, cut, List.exists_mem_cons_iff] at hany ⊢
    simp [hany]
  · exact h.hidden_head hmatches hclear htold hq hv ho
  · -- what the first step ensures is left out once, at the step for the rest, and not at each step
    have hnone : ¬(m.cut taskName restName first second later).rest.AddsAnything records := by
      rintro ⟨s, hs, hs'⟩
      exact hno ⟨s, h.steps ▸ List.mem_cons_of_mem _ hs, hs'⟩
    have hne := mt hany.1 hnone
    have hstep : ∀ q, q ∈ (records taskName).mayAdd.toList ↔ next.Adds d records q :=
      htold.mayAdd hne
    simp only [h.adds_head_iff htold, h.addsInside_iff taskName restName]
    constructor
    · rintro ⟨q, ⟨r, hr, rfl⟩ | ⟨⟨q, hq, rfl⟩, hfirst⟩, rfl⟩
      · exact ⟨_, .inl ⟨r, hr, rfl⟩, (hhead _).symm⟩
      · obtain ⟨r, hr, hrq⟩ := (hmatches.adds hnone _).1 ⟨q, (hstep q).1 hq, rfl⟩
        rw [h.ensured_iff hmatches hclear hn ((hstep q).1 hq) hr hrq.symm] at hfirst
        exact ⟨r, .inr ⟨hr, hfirst⟩, hrq.trans (hhead q).symm⟩
    · rintro ⟨r, ⟨q, hq, rfl⟩ | ⟨hr, hfirst⟩, rfl⟩
      · exact ⟨_, .inl ⟨q, hq, rfl⟩, hhead _⟩
      · obtain ⟨q, hq, hqr⟩ := (hmatches.adds hnone _).2 ⟨r, hr, rfl⟩
        rw [← h.ensured_iff hmatches hclear hn hq hr hqr] at hfirst
        exact ⟨_, .inr ⟨⟨q, (hstep q).2 hq, rfl⟩, hfirst⟩, (hhead q).trans hqr⟩

end Method.Splits

end TaskNetwork
