import Mathlib.Data.Set.Card
import TaskNetwork.Proofs.SweepSucceeds

namespace TaskNetwork

open PatternSet Relation

/-- The method needs the pattern, and no step of it can bring that about. -/
def Method.Requires (d : Domain) (records : String → TaskRecord) (m : Method) (p : Pattern) :
    Prop :=
  m.Needs d records .keep p ∧ ¬m.AddsAnything records ∧
    ∀ q, m.Adds d records q → p.overlaps d m q = .ok false

/-- What is known of the task follows from what is known of the tasks of the steps of its methods.
-/
structure Gathers (d : Domain) (records : String → TaskRecord) (t : Task) (r : TaskRecord) :
    Prop where
  initialized : r.initialized ↔ ∃ m ∈ d.methods, m.task = t.name
  finished : r.finished
  normal : r.needs.Normal ∧ r.ensures.Normal ∧ r.mayAdd.Normal
  needs : r.needs ≠ anything ∧ ∀ p, p ∈ r.needs.toList ↔ (∃ m ∈ d.methods, m.task = t.name) ∧
    ∀ m ∈ d.methods, m.task = t.name → ∃ q, m.Needs d records .drop q ∧ q.raised t m = p
  ensures : r.ensures ≠ anything ∧ ∀ p, p ∈ r.ensures.toList ↔
    (∃ m ∈ d.methods, m.task = t.name) ∧
    ∀ m ∈ d.methods, m.task = t.name → ∃ q, m.Ensures d records .drop q ∧ q.raised t m = p
  adds_anything : r.mayAdd = anything ↔
    ∃ m ∈ d.methods, m.task = t.name ∧ m.AddsAnything records
  mayAdd : r.mayAdd ≠ anything → ∀ p, p ∈ r.mayAdd.toList ↔
    ∃ m ∈ d.methods, m.task = t.name ∧ ∃ q, m.Adds d records q ∧ q.raised t m = p

/-- What is known of the tasks that are visited is what a sweep finds out. -/
structure Domain.Solves (d : Domain) (top predicate : String) (positive : Bool)
    (records : String → TaskRecord) : Prop where
  inScope : d.Scoped records
  primitive : ∀ n t, d.task? n = some t → d.IsPrimitive n →
    records n = t.primitiveRecord predicate positive
  recursive : ∀ n, d.Visits top n → ¬d.IsPrimitive n → d.Recursive n → records n = .ofRecursive
  gathered : ∀ n t, d.Visits top n → ¬d.IsPrimitive n → ¬d.Recursive n → d.task? n = some t →
    Gathers d records t (records n)

structure Finds (d : Domain) (records : String → TaskRecord) (f : Finding) : Prop where
  normal : f.needs.Normal ∧ f.mayAdd.Normal ∧ f.inferred.Normal
  needs : f.needs ≠ anything ∧ ∀ p, p ∈ f.needs.toList ↔ f.method.Needs d records .keep p
  adds_anything : f.mayAdd = anything ↔ f.method.AddsAnything records
  mayAdd : f.mayAdd ≠ anything → ∀ p, p ∈ f.mayAdd.toList ↔ f.method.Adds d records p
  inferred : f.inferred ≠ anything ∧ ∀ p, p ∈ f.inferred.toList ↔ f.method.Requires d records p

section Solves

variable {d : Domain} {top other predicate n : String} {positive : Bool} {w : Sweep}
  {records others : String → TaskRecord} {t : Task} {r r' : TaskRecord} {m : Method}

section Contributions

variable {cs : List Contribution}
  (hcs : (d.methodsOf n).mapM (fun p => p.1.contribution d records t) = .ok cs)
include hcs

theorem exists_contribution {P : Contribution → Prop} : (∃ c ∈ cs, P c) ↔
    ∃ m ∈ d.methods, m.task = n ∧ ∃ c, m.contribution d records t = .ok c ∧ P c := by
  simp only [exists_of_mapM_eq_ok hcs]
  constructor
  · rintro ⟨c, ⟨⟨m, i⟩, hmi, hc⟩, hP⟩
    obtain ⟨hi, htask⟩ := Domain.mem_methodsOf.1 hmi
    exact ⟨m, List.mem_of_getElem? hi, htask, c, hc, hP⟩
  · rintro ⟨m, hm, htask, c, hc, hP⟩
    obtain ⟨i, hi⟩ := List.mem_iff_getElem?.1 hm
    exact ⟨c, ⟨(m, i), Domain.mem_methodsOf.2 ⟨hi, htask⟩, hc⟩, hP⟩

theorem forall_contribution {P : Contribution → Prop} : (∀ c ∈ cs, P c) ↔
    ∀ m ∈ d.methods, m.task = n → ∃ c, m.contribution d records t = .ok c ∧ P c := by
  constructor
  · intro h m hm htask
    obtain ⟨i, hi⟩ := List.mem_iff_getElem?.1 hm
    obtain ⟨c, hc⟩ := ok_of_mapM_eq_ok hcs (Domain.mem_methodsOf.2 ⟨hi, htask⟩)
    obtain ⟨_, hmem, rfl⟩ :=
      (exists_contribution (P := (c = ·)) hcs).2 ⟨m, hm, htask, c, hc, rfl⟩
    exact ⟨c, hc, h c hmem⟩
  · intro h c hc
    obtain ⟨m, hm, htask, _, hc₁, rfl⟩ :=
      (exists_contribution (P := (c = ·)) hcs).1 ⟨c, hc, rfl⟩
    obtain ⟨c₂, hc₂, hP⟩ := h m hm htask
    obtain rfl : c = c₂ := Except.ok.inj (hc₁.symm.trans hc₂)
    exact hP

theorem contributions_ne_nil : cs ≠ [] ↔ ∃ m ∈ d.methods, m.task = n := by
  have hlen := (mapM_eq_ok.1 hcs).length_eq
  rw [← List.length_pos_iff, ← hlen, List.length_pos_iff_exists_mem]
  constructor
  · rintro ⟨⟨m, i⟩, hmi⟩
    obtain ⟨hi, htask⟩ := Domain.mem_methodsOf.1 hmi
    exact ⟨m, List.mem_of_getElem? hi, htask⟩
  · rintro ⟨m, hm, htask⟩
    obtain ⟨i, hi⟩ := List.mem_iff_getElem?.1 hm
    exact ⟨(m, i), Domain.mem_methodsOf.2 ⟨hi, htask⟩⟩

theorem mem_intersections_contributions {f : Contribution → PatternSet}
    {P : Method → Pattern → Prop}
    (hf : ∀ m ∈ d.methods, m.task = n → ∃ c, m.contribution d records t = .ok c ∧
      f c ≠ anything ∧ ∀ p, p ∈ (f c).toList ↔ P m p) :
    intersections (cs.map f) ≠ anything ∧ ∀ p, p ∈ (intersections (cs.map f)).toList ↔
      (∃ m ∈ d.methods, m.task = n) ∧ ∀ m ∈ d.methods, m.task = n → P m p := by
  have hlisted : ∀ u ∈ cs.map f, u ≠ anything := by
    rw [List.forall_mem_map, forall_contribution hcs]
    intro m hm htask
    obtain ⟨c, hc, hne, -⟩ := hf m hm htask
    exact ⟨c, hc, hne⟩
  refine ⟨(mem_intersections (p := []) hlisted).1, fun p => ?_⟩
  rw [(mem_intersections hlisted).2, List.forall_mem_map, Ne, List.map_eq_nil_iff,
    ← contributions_ne_nil hcs, forall_contribution hcs]
  refine and_congr_right fun _ => forall₃_congr fun m hm htask => ?_
  obtain ⟨c, hc, -, hmem⟩ := hf m hm htask
  simp only [hc, Except.ok.injEq, exists_eq_left', hmem]

end Contributions

theorem Method.contribution_normal {c : Contribution} (h : m.contribution d records t = .ok c) :
    c.needs.Normal ∧ c.ensures.Normal ∧ c.mayAdd.Normal := by
  simp only [contribution, bind_eq_ok, liftM_eq_ok, pure_eq_ok] at h
  obtain ⟨_, -, n, hn, _, -, e, he, _, -, a, ha, rfl⟩ := h
  exact ⟨normal_of_raise hn, normal_of_raise he, normal_of_raise ha⟩

theorem Domain.Scoped.gathers (hd : d.WellFormed) (hr : d.Scoped records)
    (ht : d.task? n = some t) {cs : List Contribution}
    (hcs : (d.methodsOf n).mapM (fun p => p.1.contribution d records t) = .ok cs) :
    Gathers d records t {
      initialized := !cs.isEmpty
      finished := true
      needs := intersections (cs.map (·.needs))
      ensures := intersections (cs.map (·.ensures))
      mayAdd := unions (cs.map (·.mayAdd)) } := by
  obtain rfl : t.name = n := (Domain.mem_of_task?_eq_some ht).2
  have hcontributes : ∀ m ∈ d.methods, m.task = t.name →
      ∃ c, m.contribution d records t = .ok c ∧ Contributes d records t m c := by
    intro m hm htask
    obtain ⟨c, hc, hcon, -⟩ := Method.contribution_ok hd hm hr (htask ▸ ht)
    exact ⟨c, hc, hcon⟩
  have hnormal : ∀ c ∈ cs, c.needs.Normal ∧ c.ensures.Normal ∧ c.mayAdd.Normal := by
    intro c hc
    obtain ⟨m, -, -, _, hm, rfl⟩ :=
      (exists_contribution (P := (c = ·)) hcs).1 ⟨c, hc, rfl⟩
    exact Method.contribution_normal hm
  refine ⟨?_, rfl, ⟨?_, ?_, normal_unions _⟩, ?_, ?_, ?_, fun hne p => ?_⟩
  · rw [← contributions_ne_nil hcs]
    simp
  · exact normal_intersections (by simpa using fun c hc => (hnormal c hc).1)
  · exact normal_intersections (by simpa using fun c hc => (hnormal c hc).2.1)
  · refine mem_intersections_contributions hcs fun m hm htask => ?_
    obtain ⟨c, hc, hcon⟩ := hcontributes m hm htask
    exact ⟨c, hc, hcon.needs⟩
  · refine mem_intersections_contributions hcs fun m hm htask => ?_
    obtain ⟨c, hc, hcon⟩ := hcontributes m hm htask
    exact ⟨c, hc, hcon.ensures⟩
  · rw [unions_eq_anything, List.mem_map, exists_contribution hcs]
    refine exists_congr fun m => and_congr_right fun hm => and_congr_right fun htask => ?_
    obtain ⟨c, hc, hcon⟩ := hcontributes m hm htask
    simp only [hc, Except.ok.injEq, exists_eq_left', hcon.adds_anything]
  · have hnone : ∀ c ∈ cs, c.mayAdd ≠ anything := fun c hc h =>
      hne (unions_eq_anything.2 (List.mem_map.2 ⟨c, hc, h⟩))
    rw [mem_unions hne]
    simp only [List.mem_map, exists_exists_and_eq_and]
    rw [exists_contribution hcs]
    refine exists_congr fun m => and_congr_right fun hm => and_congr_right fun htask => ?_
    obtain ⟨c, hc, hcon⟩ := hcontributes m hm htask
    have hmem : c ∈ cs := by
      obtain ⟨_, hmem, rfl⟩ :=
        (exists_contribution (P := (c = ·)) hcs).2 ⟨m, hm, htask, c, hc, rfl⟩
      exact hmem
    simp only [hc, Except.ok.injEq, exists_eq_left', hcon.mayAdd (hnone c hmem)]

/-- What is known of the tasks of the steps determines what is known of the task. -/
theorem Gathers.unique (h : Gathers d records t r) (h' : Gathers d records t r') : r = r' := by
  refine TaskRecord.ext (Bool.eq_iff_iff.2 (h.initialized.trans h'.initialized.symm))
    (h.finished.trans h'.finished.symm) ?_ ?_ ?_
  · exact h.normal.1.ext h'.normal.1 (iff_of_false h.needs.1 h'.needs.1)
      fun p => (h.needs.2 p).trans (h'.needs.2 p).symm
  · exact h.normal.2.1.ext h'.normal.2.1 (iff_of_false h.ensures.1 h'.ensures.1)
      fun p => (h.ensures.2 p).trans (h'.ensures.2 p).symm
  · have hany := h.adds_anything.trans h'.adds_anything.symm
    refine h.normal.2.2.ext h'.normal.2.2 hany fun p => ?_
    by_cases hr : r.mayAdd = anything
    · rw [hr, hany.1 hr]
    · rw [h.mayAdd hr, h'.mayAdd (mt hany.2 hr)]

theorem normal_unionOver {steps : List Step} {f : Step → Except Failure PatternSet}
    {u : PatternSet} (h : unionOver steps f = .ok u) : u.Normal := by
  simp only [unionOver, bind_eq_ok, pure_eq_ok] at h
  obtain ⟨sets, -, rfl⟩ := h
  exact normal_unions sets

theorem exists_task?_of_sweep (h : d.sweep top predicate positive = .ok w) :
    ∃ t, d.task? top = some t := by
  unfold Domain.sweep at h
  split at h
  · cases h
  · next t ht => exact ⟨t, ht⟩

theorem solves_of_sweep (hd : d.WellFormed) (h : d.sweep top predicate positive = .ok w) :
    d.Solves top predicate positive w.record := by
  have hscoped := hd.scoped_of_sweep h
  obtain ⟨seen, htop, hwalked⟩ := walked_of_sweepAlong (sweep_eq_ok h)
  refine ⟨hscoped, fun n u hu hn => ?_, fun n hn hnp hrec => ?_, fun n u hn hnp hrec hu => ?_⟩
  · rw [(hwalked.primitive n hn).2]
    exact hd.record_start predicate positive hu hn
  · exact hwalked.record_recursive (hwalked.mem_of_visits htop hn) hnp hrec
  · obtain ⟨u', cs, hu', hcs, hrecord⟩ :=
      hwalked.record_gathered (hwalked.mem_of_visits htop hn) hnp hrec
    obtain rfl : u = u' := Option.some.inj (hu.symm.trans hu')
    rw [hrecord]
    exact hscoped.gathers hd hu hcs

theorem finds_of_sweep (hd : d.WellFormed) (hs : d.SortsDeclared)
    (h : d.sweep top predicate positive = .ok w) {f : Finding} (hf : f ∈ w.findings) :
    f.method ∈ d.methods ∧ d.Visits top f.method.task ∧ ¬d.IsPrimitive f.method.task ∧
      Finds d w.record f := by
  have hscoped := hd.scoped_of_sweep h
  obtain ⟨hm, hvisits, hnp⟩ := visits_of_finding h hf
  obtain ⟨seen, -, hwalked⟩ := walked_of_sweepAlong (sweep_eq_ok h)
  obtain ⟨-, -, -, t, c, -, hc, -⟩ := hwalked.of_finding hf
  obtain ⟨u, hu, hune, humem, huw⟩ := Method.needs_ok hd hm hscoped .keep
  obtain ⟨a, ha, haany, hamem, haw⟩ := Method.mayAdd_ok hd hm hscoped
  obtain rfl : f.needs = u := Except.ok.inj (hc.kept.symm.trans hu)
  obtain rfl : f.mayAdd = a := Except.ok.inj (hc.may_add.symm.trans ha)
  obtain ⟨r, hr, hrne, hrnormal, hrmem⟩ :=
    constrain_ok hd.names hs hm hune huw (haw.variableNames hd hm)
  obtain rfl : f.inferred = r := Except.ok.inj (hc.inferred.symm.trans hr)
  refine ⟨hm, hvisits, hnp, ⟨normal_unionOver hc.kept, normal_unionOver hc.may_add, hrnormal⟩,
    ⟨hune, humem⟩, haany, hamem, hrne, fun p => (hrmem p).trans ?_⟩
  rw [humem, Ne, haany]
  refine and_congr_right fun _ => and_congr_right fun hno => ?_
  simp only [hamem (mt haany.1 hno)]

theorem names_of_sweep (hd : d.WellFormed) (hs : d.SortsDeclared)
    (h : d.sweep top predicate positive = .ok w) {f : Finding} (hf : f ∈ w.findings) :
    ∀ p ∈ f.inferred.toList,
      ∃ names, p = .ofNames names ∧ ∀ v ∈ names, v ∈ f.method.variableNames := by
  obtain ⟨hm, -, -, hfinds⟩ := finds_of_sweep hd hs h hf
  intro p hp
  obtain ⟨hneeds, -⟩ := (hfinds.inferred.2 p).1 hp
  exact hneeds.names hd hm (hd.scoped_of_sweep h)

theorem exists_finding_iff (hd : d.WellFormed) (hs : d.SortsDeclared)
    (h : d.sweep top predicate positive = .ok w) : (∃ f ∈ w.findings, f.method = m) ↔
      m ∈ d.methods ∧ d.Visits top m.task ∧ ¬d.IsPrimitive m.task := by
  constructor
  · rintro ⟨f, hf, rfl⟩
    obtain ⟨hm, hvisits, hnp, -⟩ := finds_of_sweep hd hs h hf
    exact ⟨hm, hvisits, hnp⟩
  · rintro ⟨hm, hvisits, hnp⟩
    obtain ⟨seen, htop, hwalked⟩ := walked_of_sweepAlong (sweep_eq_ok h)
    exact hwalked.exists_finding hm (hwalked.mem_of_visits htop hvisits) hnp

theorem Method.Needs.congr (h : ∀ s ∈ m.steps, (records s.task).needs = (others s.task).needs)
    {policy : HiddenPolicy} {p : Pattern} :
    m.Needs d records policy p ↔ m.Needs d others policy p :=
  exists_congr fun s => and_congr_right fun hs => by rw [h s hs]

theorem Method.Ensures.congr
    (h : ∀ s ∈ m.steps, (records s.task).ensures = (others s.task).ensures)
    {policy : HiddenPolicy} {p : Pattern} :
    m.Ensures d records policy p ↔ m.Ensures d others policy p :=
  exists_congr fun s => and_congr_right fun hs => by rw [h s hs]

theorem Method.EnsuresBefore.congr
    (h : ∀ s ∈ m.steps, (records s.task).ensures = (others s.task).ensures) {s : Step}
    {p : Pattern} : m.EnsuresBefore d records s p ↔ m.EnsuresBefore d others s p :=
  exists_congr fun e => and_congr_right fun he => by rw [h e (mem_predecessors.1 he).1]

theorem Method.Adds.congr (h : ∀ s ∈ m.steps, records s.task = others s.task) {p : Pattern} :
    m.Adds d records p ↔ m.Adds d others p := by
  refine exists_congr fun s => and_congr_right fun hs => ?_
  rw [EnsuresBefore.congr fun e he => congrArg _ (h e he), h s hs]

theorem Method.AddsAnything.congr (h : ∀ s ∈ m.steps, records s.task = others s.task) :
    m.AddsAnything records ↔ m.AddsAnything others :=
  exists_congr fun s => and_congr_right fun hs => by rw [h s hs]

theorem Method.Requires.congr (h : ∀ s ∈ m.steps, records s.task = others s.task) {p : Pattern} :
    m.Requires d records p ↔ m.Requires d others p := by
  simp only [Requires, Needs.congr fun s hs => congrArg _ (h s hs), AddsAnything.congr h,
    Adds.congr h]

theorem Gathers.congr (h : Gathers d records t r)
    (heq : ∀ m ∈ d.methods, m.task = t.name → ∀ s ∈ m.steps, records s.task = others s.task) :
    Gathers d others t r := by
  refine ⟨h.initialized, h.finished, h.normal, ⟨h.needs.1, fun p => (h.needs.2 p).trans ?_⟩,
    ⟨h.ensures.1, fun p => (h.ensures.2 p).trans ?_⟩, h.adds_anything.trans ?_,
    fun hne p => (h.mayAdd hne p).trans ?_⟩
  · refine and_congr_right fun _ => forall₃_congr fun m hm htask => exists_congr fun q => ?_
    rw [Method.Needs.congr fun s hs => congrArg _ (heq m hm htask s hs)]
  · refine and_congr_right fun _ => forall₃_congr fun m hm htask => exists_congr fun q => ?_
    rw [Method.Ensures.congr fun s hs => congrArg _ (heq m hm htask s hs)]
  · refine exists_congr fun m => and_congr_right fun hm => and_congr_right fun htask => ?_
    rw [Method.AddsAnything.congr (heq m hm htask)]
  · refine exists_congr fun m => and_congr_right fun hm => and_congr_right fun htask =>
      exists_congr fun q => ?_
    rw [Method.Adds.congr (heq m hm htask)]

def Domain.below (d : Domain) (n : String) : Set String := {k | TransGen d.Decomposes n k}

theorem Domain.finite_below (n : String) : (d.below n).Finite := by
  refine (List.finite_toSet (d.methods.flatMap fun m => m.steps.map (·.task))).subset fun k hk => ?_
  obtain ⟨b, -, -, m, hm, -, s, hs, rfl⟩ := TransGen.tail'_iff.1 hk
  exact List.mem_flatMap.2 ⟨m, hm, List.mem_map.2 ⟨s, hs, rfl⟩⟩

theorem Domain.decomposition_induction {P : String → Prop} (hrec : ∀ n, d.Recursive n → P n)
    (hstep : ∀ n, ¬d.Recursive n → (∀ k, d.Decomposes n k → P k) → P n) (n : String) : P n := by
  induction hsize : (d.below n).ncard using Nat.strong_induction_on generalizing n with
  | h size ih =>
    by_cases hn : d.Recursive n
    · exact hrec n hn
    · -- `k` is not below itself, so that less lies below it than below `n`
      refine hstep n hn fun k hk => ?_
      by_cases hkrec : d.Recursive k
      · exact hrec k hkrec
      · have hless : d.below k ⊂ d.below n :=
          ⟨fun j hj => TransGen.head hk hj, fun hsub => hkrec (hsub (.single hk))⟩
        exact ih _ (hsize ▸ Set.ncard_lt_ncard hless (d.finite_below n)) k rfl

/-- What holds of primitive and of recursive tasks, and of other tasks if it holds of the tasks of
the steps of their methods, holds of all tasks that are visited. -/
theorem Domain.WellFormed.visits_induction (hd : d.WellFormed) {u : Task}
    (hu : d.task? top = some u) {P : String → Prop}
    (hprimitive : ∀ n t, d.task? n = some t → d.IsPrimitive n → P n)
    (hrecursive : ∀ n t, d.task? n = some t → d.Visits top n → ¬d.IsPrimitive n →
      d.Recursive n → P n)
    (hmethods : ∀ t, d.task? t.name = some t → d.Visits top t.name → ¬d.IsPrimitive t.name →
      ¬d.Recursive t.name → (∀ m ∈ d.methods, m.task = t.name → ∀ s ∈ m.steps,
        d.Continues t.name s.task ∧ P s.task) → P t.name)
    (hn : d.Visits top n) : P n := by
  induction n using d.decomposition_induction with
  | hrec n hrec =>
    obtain ⟨t, ht⟩ := hd.exists_task? hu hn
    by_cases hp : d.IsPrimitive n
    · exact hprimitive n t ht hp
    · exact hrecursive n t ht hn hp hrec
  | hstep n hrec ih =>
    obtain ⟨t, ht⟩ := hd.exists_task? hu hn
    by_cases hp : d.IsPrimitive n
    · exact hprimitive n t ht hp
    · obtain rfl := (Domain.mem_of_task?_eq_some ht).2
      refine hmethods t ht hn hp hrec fun m hm htask s hs => ?_
      have hdec : d.Decomposes t.name s.task :=
        ⟨List.mem_map.2 ⟨t, mem_abstractTasks ht hp⟩, m, hm, htask, s, hs, rfl⟩
      exact ⟨⟨hp, hdec⟩, ih _ hdec (hn.tail ⟨hp, hdec⟩)⟩

theorem Method.Needs.ensures
    (h : ∀ s ∈ m.steps, ∀ p ∈ (records s.task).needs.toList, p ∈ (records s.task).ensures.toList)
    {policy : HiddenPolicy} {p : Pattern} (hp : m.Needs d records policy p) :
    m.Ensures d records policy p := by
  obtain ⟨s, hs, q, hq, hlow⟩ := hp
  exact ⟨s, hs, q, h s hs q hq, hlow⟩

theorem primitiveRecord_needs_subset (t : Task) (predicate : String) (positive : Bool) :
    ∀ p ∈ (t.primitiveRecord predicate positive).needs.toList,
      p ∈ (t.primitiveRecord predicate positive).ensures.toList := by
  intro p hp
  have hne : patternsOf predicate positive t.effects ∪ patternsOf predicate positive t.preconditions
      ≠ anything := ((plain_patternsOf _ _ _).union (plain_patternsOf _ _ _)).ne_anything
  exact (mem_union hne).2 (.inr hp)

theorem Domain.Solves.needs_subset (hd : d.WellFormed) (h : d.Solves top predicate positive records)
    {u : Task} (hu : d.task? top = some u) (hn : d.Visits top n) :
    ∀ p ∈ (records n).needs.toList, p ∈ (records n).ensures.toList := by
  refine hd.visits_induction hu (P := fun n => ∀ p ∈ (records n).needs.toList,
    p ∈ (records n).ensures.toList) (fun n t ht hp => ?_) (fun n t ht hn hp hrec => ?_)
    (fun t ht hn hp hrec ih p hneeds => ?_) hn
  · rw [h.primitive n t ht hp]
    exact primitiveRecord_needs_subset t predicate positive
  · rw [h.recursive n hn hp hrec]
    exact fun p hp => by cases hp
  · have hgathers := h.gathered _ t hn hp hrec ht
    obtain ⟨hsome, hall⟩ := (hgathers.needs.2 p).1 hneeds
    refine (hgathers.ensures.2 p).2 ⟨hsome, fun m hm htask => ?_⟩
    obtain ⟨q, hq, hraised⟩ := hall m hm htask
    exact ⟨q, hq.ensures fun s hs => (ih m hm htask s hs).2, hraised⟩

/-- The second domain has the tasks of the first one, with the same tasks among them below each. -/
structure Domain.Retains (d d' : Domain) : Prop where
  task? : ∀ n ∈ d.tasks.map (·.name), d'.task? n = d.task? n
  isPrimitive : ∀ n ∈ d.tasks.map (·.name), (d'.IsPrimitive n ↔ d.IsPrimitive n)
  recursive : ∀ n ∈ d.tasks.map (·.name), (d'.Recursive n ↔ d.Recursive n)
  visits : ∀ top ∈ d.tasks.map (·.name), ∀ n ∈ d.tasks.map (·.name),
    (d'.Visits top n ↔ d.Visits top n)

theorem Domain.Retains.refl (d : Domain) : d.Retains d :=
  ⟨fun _ _ => rfl, fun _ _ => .rfl, fun _ _ => .rfl, fun _ _ _ _ => .rfl⟩

section Retains

variable {d' : Domain} {f : TaskRecord → TaskRecord} (hkept : d.Retains d')
  (h : d.Solves top predicate positive records) (h' : d'.Solves other predicate positive others)
  (hprimitive : ∀ t : Task,
    f (t.primitiveRecord predicate positive) = t.primitiveRecord predicate positive)
include hkept h h' hprimitive

theorem Domain.Solves.eq_of_isPrimitive (ht : d.task? n = some t) (hp : d.IsPrimitive n) :
    records n = f (others n) := by
  have hn := Domain.name_mem_of_task?_eq_some ht
  rw [h.primitive _ t ht hp, h'.primitive _ t ((hkept.task? _ hn).trans ht)
    ((hkept.isPrimitive _ hn).2 hp), hprimitive]

/-- Solutions match on the tasks that are visited in both domains, if for each task what follows
from its methods matches as soon as what is known of their steps does. -/
theorem Domain.Solves.eq_of_gathers (hd : d.WellFormed) {u : Task} (hu : d.task? top = some u)
    (hrecursive : f .ofRecursive = .ofRecursive)
    (hvisits : ∀ a b, d.Visits top a → d'.Visits other a → d.Continues a b → d'.Visits other b)
    (hgathers : ∀ t, t.name ∈ d.tasks.map (·.name) → d.Visits top t.name →
      ¬d.IsPrimitive t.name → ¬d.Recursive t.name →
      (∀ m ∈ d.methods, m.task = t.name → ∀ s ∈ m.steps, records s.task = f (others s.task)) →
      Gathers d' others t (others t.name) → Gathers d records t (f (others t.name)))
    (hn : d.Visits top n) (hn' : d'.Visits other n) : records n = f (others n) := by
  revert hn'
  refine hd.visits_induction hu (P := fun n => d'.Visits other n → records n = f (others n))
    (fun n t ht hp _ => eq_of_isPrimitive hkept h h' hprimitive ht hp)
    (fun n t ht hn hp hrec hn' => ?_) (fun t ht hn hp hrec ih hn' => ?_) hn
  · have hname := Domain.name_mem_of_task?_eq_some ht
    rw [h.recursive _ hn hp hrec, h'.recursive _ hn' (mt (hkept.isPrimitive _ hname).1 hp)
      ((hkept.recursive _ hname).2 hrec), hrecursive]
  · have hname := Domain.name_mem_of_task?_eq_some ht
    have hsecond := h'.gathered _ t hn' (mt (hkept.isPrimitive _ hname).1 hp)
      (mt (hkept.recursive _ hname).1 hrec) ((hkept.task? _ hname).trans ht)
    refine (h.gathered _ t hn hp hrec ht).unique (hgathers t hname hn hp hrec ?_ hsecond)
    intro m hm htask s hs
    obtain ⟨hcontinues, ih⟩ := ih m hm htask s hs
    exact ih (hvisits _ _ hn hn' hcontinues)

end Retains

theorem Domain.Retains.record?_eq_map {d' : Domain} {w' : Sweep} {f : TaskRecord → TaskRecord}
    (hkept : d.Retains d') (hd : d.NamesDiffer) (hw : d.sweep top predicate positive = .ok w)
    (hw' : d'.sweep top predicate positive = .ok w')
    (h : d.Solves top predicate positive w.record) (h' : d'.Solves top predicate positive w'.record)
    (hprimitive : ∀ t : Task,
      f (t.primitiveRecord predicate positive) = t.primitiveRecord predicate positive)
    (htop : top ∈ d.tasks.map (·.name)) (hn : n ∈ d.tasks.map (·.name))
    (hrecords : d.Visits top n → w.record n = f (w'.record n)) :
    w.record? n = (w'.record? n).map f := by
  refine Sweep.record?_eq_map ?_ fun hsome => ?_
  · rw [isSome_record?_of_sweep hw, isSome_record?_of_sweep hw', hkept.isPrimitive n hn,
      hkept.visits top htop n hn]
  · obtain hp | hvisits := (isSome_record?_of_sweep hw).1 hsome
    · obtain ⟨t, ht, rfl⟩ := List.mem_map.1 hn
      exact h.eq_of_isPrimitive hkept h' hprimitive (hd.task?_eq_some.2 ⟨ht, rfl⟩) hp
    · exact hrecords hvisits

theorem Domain.Solves.agree (hd : d.WellFormed) (h : d.Solves top predicate positive records)
    (h' : d.Solves other predicate positive others) {u : Task} (hu : d.task? top = some u)
    (hn : d.Visits top n) (hn' : d.Visits other n) : records n = others n := by
  refine h.eq_of_gathers (f := id) (.refl d) h' (fun _ => rfl) hd hu rfl
    (fun _ _ _ ha hab => ha.tail hab) (fun t _ _ _ _ hsteps hgathers => ?_) hn hn'
  exact hgathers.congr fun m hm htask s hs => (hsteps m hm htask s hs).symm

end Solves

end TaskNetwork
