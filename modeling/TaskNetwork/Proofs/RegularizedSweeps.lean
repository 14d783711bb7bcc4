import TaskNetwork.Proofs.RegularizedDomains

namespace TaskNetwork

open PatternSet Relation

variable {d d' : Domain} {top predicate n : String} {positive : Bool}
  {records records' : String → TaskRecord} {m chain head : Method} {s : Step} {t u : Task}
  {p q : Pattern}

def TaskRecord.mapOwners (φ : String → String) (r : TaskRecord) : TaskRecord :=
  { r with mayAdd := r.mayAdd.mapOwners φ }

theorem plain_mayAdd_primitive (t : Task) (predicate : String) (positive : Bool) :
    (t.primitiveRecord predicate positive).mayAdd.Plain := by
  refine ⟨fun hany => ofList_ne_anything (sdiff_eq_anything.1 hany), fun p hp => ?_⟩
  exact (plain_patternsOf _ _ _).named p ((mem_sdiff ofList_ne_anything).1 hp).1

theorem mapOwners_primitiveRecord (t : Task) (predicate : String) (positive : Bool)
    (φ : String → String) : (t.primitiveRecord predicate positive).mapOwners φ =
      t.primitiveRecord predicate positive := by
  have hnormal : (t.primitiveRecord predicate positive).mayAdd.Normal := (normal_ofList _).sdiff
  rw [TaskRecord.mapOwners, (plain_mayAdd_primitive t predicate positive).mapOwners hnormal]

theorem Domain.Solves.exists_owner (hd : d.WellFormed) (h : d.Solves top predicate positive records)
    (hu : d.task? top = some u) (hn : d.Visits top n) :
    ∀ p ∈ (records n).mayAdd.toList, ∀ o v, .hidden o v ∈ p →
      ∃ m ∈ d.methods, m.name = o ∧ d.Reaches n m.task := by
  have hnamed : ∀ {p : Pattern}, p.Named → ∀ o v, .hidden o v ∉ p := by
    rintro p ⟨names, rfl⟩ o v hv
    simp [Pattern.ofNames] at hv
  refine hd.visits_induction hu (P := fun n => ∀ p ∈ (records n).mayAdd.toList, ∀ o v,
    .hidden o v ∈ p → ∃ m ∈ d.methods, m.name = o ∧ d.Reaches n m.task)
    (fun n t ht hprim p hmem o v hv => ?_) (fun n t ht hn hprim hrec p hmem => ?_)
    (fun t ht hn hprim hrec ih p hmem o v hv => ?_) hn
  · rw [h.primitive n t ht hprim] at hmem
    exact absurd hv (hnamed ((plain_mayAdd_primitive t predicate positive).named p hmem) o v)
  · rw [h.recursive n hn hprim hrec] at hmem
    cases hmem
  · have hgathers := h.gathered _ t hn hprim hrec ht
    have hne : (records t.name).mayAdd ≠ anything := by
      intro hany
      rw [hany] at hmem
      cases hmem
    obtain ⟨m, hm, htask, q, hq, rfl⟩ := (hgathers.mayAdd hne p).1 hmem
    obtain ⟨s, hs, ⟨r, hr, rfl⟩, -⟩ := Method.adds_iff_hide.1 hq
    -- a method hides its own variables or passes on what is hidden below
    obtain hv | ⟨-, rfl, -⟩ := Pattern.mem_hide (Pattern.hidden_mem_raised.1 hv)
    · obtain ⟨⟨-, hdec⟩, ih⟩ := ih m hm htask s hs
      obtain ⟨m', hm', hname, hreaches⟩ := ih r hr o v (Pattern.hidden_mem_passed.1 hv)
      exact ⟨m', hm', hname, .head hdec hreaches⟩
    · exact ⟨m, hm, rfl, htask ▸ .refl⟩

theorem Domain.Calls.mem_arguments (h : d.Calls m s t) (hp : p.Within d t.parameterNames)
    {v : String} (hv : .name v ∈ p.passed d s) : v ∈ s.arguments := by
  obtain ⟨a, ha, hav⟩ := List.mem_map.1 hv
  cases a with
  | hidden o x => cases hav
  | name x =>
    cases hav
    exact h.passed_mem (hp _ ha)

theorem Domain.Scoped.clear (hr : d.Scoped records) (hd : d.WellFormed) (hm : m ∈ d.methods)
    (hs : s ∈ m.steps) {φ : String → String}
    (hhidden : ∀ p ∈ (records s.task).mayAdd.toList, ∀ o v, .hidden o v ∈ p → φ o ≠ n) :
    s.Clear d records φ n := by
  obtain ⟨t, ht⟩ := hd.calls hm hs
  have hwithin := hr.within _ _ ht.task
  exact ⟨fun p hp v => ht.mem_arguments (hwithin.needs p hp),
    fun p hp v => ht.mem_arguments (hwithin.ensures p hp),
    fun p hp v => ht.mem_arguments (hwithin.mayAdd p hp), (hr.plain s.task).ensures.named, hhidden⟩

/-- No step of a method may add a pattern with hidden variables of the method itself: its task would
be recursive, and nothing is listed for that. -/
theorem Domain.Solves.clear (hd : d.WellFormed) (h : d.Solves top predicate positive records)
    (hu : d.task? top = some u) (hm : m ∈ d.methods) (hn : d.Visits top m.task)
    (hprim : ¬d.IsPrimitive m.task) (hs : s ∈ m.steps) : s.Clear d records id m.name := by
  refine h.inScope.clear hd hm hs fun p hp o v hv => ?_
  rintro rfl
  have hdec := hd.decomposes hm hprim hs
  have hvisits := hn.tail ⟨hprim, hdec⟩
  obtain ⟨m', hm', hname, hreaches⟩ := h.exists_owner hd hu hvisits p hp _ v hv
  obtain rfl := hd.names.eq_of_name_eq hm' hm hname
  have hrec : d.Recursive s.task := hdec.recursive hreaches
  obtain ⟨_, hnext, -⟩ := TransGen.head'_iff.1 hrec
  rw [h.recursive _ hvisits (hd.names.not_isPrimitive hnext.1) hrec] at hp
  cases hp

/-- What is known of the tasks of steps in the second domain is what is known of them in the first
one, but for the owners of hidden variables. -/
structure StepsAgree (d d' : Domain) (records records' : String → TaskRecord) (m : Method) :
    Prop where
  passed : ∀ s ∈ m.steps, d'.passed s = d.passed s
  records : ∀ s ∈ m.steps, records s.task = (records' s.task).mapOwners originName

section StepsAgree

variable (h : StepsAgree d d' records records' m) (hsame : m.SameSteps chain)
include h hsame

theorem StepsAgree.needs_iff {policy : HiddenPolicy} :
    chain.Needs d' records' policy p ↔ m.Needs d records policy p := by
  refine exists_congr fun s => ?_
  rw [hsame.steps]
  refine and_congr_right fun hs => exists_congr fun q => ?_
  rw [h.records s hs, Pattern.lowered_congr (h.passed s hs) hsame.name hsame.taskArguments]
  rfl

theorem StepsAgree.ensures_iff {policy : HiddenPolicy} :
    chain.Ensures d' records' policy p ↔ m.Ensures d records policy p := by
  refine exists_congr fun s => ?_
  rw [hsame.steps]
  refine and_congr_right fun hs => exists_congr fun q => ?_
  rw [h.records s hs, Pattern.lowered_congr (h.passed s hs) hsame.name hsame.taskArguments]
  rfl

theorem StepsAgree.addsAnything_iff : chain.AddsAnything records' ↔ m.AddsAnything records := by
  refine exists_congr fun s => ?_
  rw [hsame.steps]
  refine and_congr_right fun hs => ?_
  rw [h.records s hs]
  exact mapOwners_eq_anything.symm

theorem StepsAgree.addsInside_iff
    (hnamed : ∀ s ∈ m.steps, ∀ q ∈ (records' s.task).ensures.toList, q.Named) :
    m.AddsInside d records p ↔
      ∃ q, chain.AddsInside d' records' q ∧ q.mapOwners originName = p := by
  have hensured : ∀ s ∈ m.steps, ∀ q : Pattern,
      (∃ e ∈ m.predecessors s.id, ∃ r ∈ (records e.task).ensures.toList,
        r.passed d e = q.mapOwners originName) ↔
      ∃ e ∈ chain.predecessors s.id, ∃ r ∈ (records' e.task).ensures.toList, r.passed d' e = q := by
    intro s hs q
    refine exists_congr fun e => ?_
    rw [hsame.predecessors s hs]
    refine and_congr_right fun he => exists_congr fun r => ?_
    have hmem := (Method.mem_predecessors.1 he).1
    rw [h.records e hmem, Pattern.passed_congr (h.passed e hmem)]
    refine and_congr_right fun hr => ?_
    obtain ⟨names, hnames⟩ : (r.passed d e).Named := (hnamed e hmem r hr).passed
    rw [hnames]
    constructor
    · exact fun heq => (Pattern.eq_of_mapOwners_eq heq.symm).symm
    · rintro rfl
      exact Pattern.mapOwners_ofNames.symm
  constructor
  · rintro ⟨s, hs, ⟨r, hr, rfl⟩, hno⟩
    rw [h.records s hs] at hr
    obtain ⟨q, hq, rfl⟩ := mem_mapOwners.1 hr
    rw [← Pattern.mapOwners_passed, hensured s hs] at hno
    refine ⟨q.passed d s, ⟨s, (hsame.steps s).2 hs, ⟨q, hq, ?_⟩, hno⟩, Pattern.mapOwners_passed⟩
    exact Pattern.passed_congr (h.passed s hs) q
  · rintro ⟨_, ⟨s, hs, ⟨q, hq, rfl⟩, hno⟩, rfl⟩
    rw [hsame.steps] at hs
    rw [← hensured s hs] at hno
    refine ⟨s, hs, ⟨q.mapOwners originName, ?_, ?_⟩, hno⟩
    · rw [h.records s hs]
      exact mem_mapOwners.2 ⟨q, hq, rfl⟩
    · rw [← Pattern.mapOwners_passed, Pattern.passed_congr (h.passed s hs)]

end StepsAgree

/-- The head tells in the second domain what the method tells in the first one, but for the owners
of hidden variables. -/
structure Tells (d d' : Domain) (records records' : String → TaskRecord) (m head : Method) :
    Prop where
  taskArguments : head.taskArguments = m.taskArguments
  needs : ∀ p, head.Needs d' records' .drop p ↔ m.Needs d records .drop p
  ensures : ∀ p, head.Ensures d' records' .drop p ↔ m.Ensures d records .drop p
  adds_anything : head.AddsAnything records' ↔ m.AddsAnything records
  adds : ¬m.AddsAnything records → ∀ p, m.Adds d records p ↔
    ∃ q, head.Adds d' records' q ∧ q.mapOwners originName = p

theorem StepsAgree.tells (h : StepsAgree d d' records records' m) (hsame : m.SameSteps chain)
    (hclear : ∀ s ∈ m.steps, s.Clear d' records' originName m.name)
    (hclear' : ∀ s ∈ m.steps, s.Clear d records id m.name)
    (hmatches : Matches d' records' originName m.name chain head) :
    Tells d d' records records' m head := by
  have hchain : ∀ s ∈ chain.steps, s.Clear d' records' originName m.name := fun s hs =>
    hclear s ((hsame.steps s).1 hs)
  have hinside := fun p => h.addsInside_iff (p := p) hsame fun s hs => (hclear s hs).named
  refine ⟨hmatches.arguments.trans hsame.taskArguments,
    fun p => (hmatches.needs p).trans (h.needs_iff hsame),
    fun p => (hmatches.ensures p).trans (h.ensures_iff hsame),
    hmatches.adds_anything.trans (h.addsAnything_iff hsame), fun hno p => ?_⟩
  have hrevealed : ∀ q, head.Adds d' records' q →
      (q.reveal originName m.name).hide m = q.mapOwners originName := by
    intro q hq
    refine Pattern.hide_reveal (fun v hv => ?_) fun o v hv ho => ?_
    · rw [← hsame.taskArguments, ← hmatches.arguments]
      exact hq.names hv
    · rw [← hsame.taskArguments]
      exact (hmatches.hidden q hq o v hv ho).2
  have hadds := hmatches.adds (mt (h.addsAnything_iff hsame).1 hno)
  have hinside' : ∀ q, chain.AddsInside d' records' q →
      q.reveal originName m.name = q.mapOwners originName := fun q hq =>
    Pattern.reveal_eq_mapOwners fun o v hv => hq.hidden hchain hv
  rw [Method.adds_iff_addsInside hclear' rfl]
  constructor
  · rintro ⟨r, hr, rfl⟩
    obtain ⟨q, hq, rfl⟩ := (hinside r).1 hr
    obtain ⟨q', hq', heq⟩ := (hadds _).2 ⟨q, hq, rfl⟩
    refine ⟨q', hq', ?_⟩
    rw [← hrevealed q' hq', heq, hinside' q hq]
  · rintro ⟨q', hq', rfl⟩
    obtain ⟨q, hq, heq⟩ := (hadds _).1 ⟨q', hq', rfl⟩
    refine ⟨_, (hinside _).2 ⟨q, hq, rfl⟩, ?_⟩
    rw [← hinside' q hq, heq, hrevealed q' hq']

section Regularized

variable (h : d.Regularized d') (hr : d.Solves top predicate positive records)
  (hr' : d'.Solves top predicate positive records') (hu : d.task? top = some u)
include h

theorem Domain.Regularized.stepsAgree (hm : m ∈ d.methods)
    (hrecords : ∀ s ∈ m.steps, records s.task = (records' s.task).mapOwners originName) :
    StepsAgree d d' records records' m :=
  ⟨fun _ hs => h.passed_eq hm hs, hrecords⟩

include hr hr' hu

theorem Domain.Regularized.clear (hm : m ∈ d.methods) (hn : d.Visits top m.task)
    (hprim : ¬d.IsPrimitive m.task)
    (hrecords : ∀ s ∈ m.steps, records s.task = (records' s.task).mapOwners originName) :
    ∀ s ∈ m.steps, s.Clear d' records' originName m.name := by
  intro s hs
  obtain ⟨head, -, hreplaces⟩ := h.replaced m hm
  obtain ⟨chain, hsame, hspreads⟩ := hreplaces.spreads
  obtain ⟨r, hmem, hs'⟩ := hspreads.exists_method s ((hsame.steps s).2 hs)
  refine hr'.inScope.clear h.wellFormed' hmem hs' fun p hp o v hv => ?_
  refine (hr.clear h.wellFormed hu hm hn hprim hs).hidden (p.mapOwners originName) ?_ _ v
    (List.mem_map.2 ⟨_, hv, rfl⟩)
  rw [hrecords s hs]
  exact mem_mapOwners.2 ⟨p, hp, rfl⟩

theorem Domain.Regularized.tells (hm : m ∈ d.methods) (hn : d.Visits top m.task)
    (hprim : ¬d.IsPrimitive m.task) (hrec : ¬d.Recursive m.task)
    (hrecords : ∀ s ∈ m.steps, records s.task = (records' s.task).mapOwners originName)
    (hreplaces : d'.Replaces (d.tasks.map (·.name)) m head) :
    Tells d d' records records' m head := by
  obtain ⟨chain, hsame, hspreads⟩ := hreplaces.spreads
  have htop := Domain.name_mem_of_task?_eq_some hu
  have habstract : m.task ∈ d.abstractTasks.map (·.name) := by
    obtain ⟨t, ht⟩ := h.wellFormed.exists_task? hu hn
    exact List.mem_map.2 ⟨t, TaskNetwork.mem_abstractTasks ht hprim⟩
  have hclear := h.clear hr hr' hu hm hn hprim hrecords
  refine (h.stepsAgree hm hrecords).tells hsame hclear
    (fun s hs => hr.clear h.wellFormed hu hm hn hprim hs) ?_
  refine hspreads.matches_head h.wellFormed'.names (fun s hs => hclear s ((hsame.steps s).1 hs))
    ((congrArg originName hsame.name).trans (h.unmarked m hm)) ?_ ?_
  · rw [hsame.task]
    exact (h.mem_abstractTasks (h.task_mem hm)).2 habstract
  · intro t rest next hnext horigin htask harguments hnew ht hpath
    -- the task for a rest is visited with the task of `m` and is not recursive either
    rw [← htask] at hnew
    have hvisits : d'.Visits top t.name := by
      rw [h.wellFormed'.names.visits_iff]
      rw [hsame.task] at hpath
      exact ((h.wellFormed'.names.visits_iff).1 ((h.visits_iff htop (h.task_mem hm)).2 hn)).trans
        hpath.to_reflTransGen
    have hprim' : ¬d'.IsPrimitive t.name := by
      rw [h.isPrimitive, ← htask]
      exact fun hp => hnew (List.map_subset _ (List.subset_append_left _ _) hp)
    have hrec' : ¬d'.Recursive t.name :=
      htask ▸ h.not_recursive_new hnext hnew hm horigin habstract hrec
    exact (hr'.gathered _ t hvisits hprim' hrec' ht).told ht (h.wellFormed'.nodup_parameters ht)
      hnext.mem htask (fun r hmem hrt => h.oneEach r hmem next hnext.mem (hrt.trans htask.symm)
        (hrt ▸ htask ▸ hnew)) harguments

omit hr hr' hu in
theorem Domain.Regularized.gathers {r : TaskRecord} (ht : t.name ∈ d.tasks.map (·.name))
    (htells : ∀ m ∈ d.methods, m.task = t.name → ∀ head,
      d'.Replaces (d.tasks.map (·.name)) m head → Tells d d' records records' m head)
    (hr : Gathers d' records' t r) : Gathers d records t (r.mapOwners originName) := by
  have hsome : (∃ head ∈ d'.methods, head.task = t.name) ↔ ∃ m ∈ d.methods, m.task = t.name := by
    simpa using h.exists_head_iff (P := fun _ => True) (Q := fun _ => True) ht
      fun _ _ _ _ _ => .rfl
  have hany : r.mayAdd = anything ↔ ∃ m ∈ d.methods, m.task = t.name ∧ m.AddsAnything records :=
    hr.adds_anything.trans (h.exists_head_iff ht fun m hm htask head hreplaces =>
      (htells m hm htask head hreplaces).adds_anything)
  refine ⟨hr.initialized.trans hsome, hr.finished, ⟨hr.normal.1, hr.normal.2.1, normal_mapOwners⟩,
    ⟨hr.needs.1, fun p => (hr.needs.2 p).trans ?_⟩,
    ⟨hr.ensures.1, fun p => (hr.ensures.2 p).trans ?_⟩, ?_, fun hne p => ?_⟩
  · refine and_congr hsome (h.forall_head_iff ht fun m hm htask head hreplaces =>
      exists_congr fun q => ?_)
    have htells := htells m hm htask head hreplaces
    rw [htells.needs, Pattern.raised_congr htells.taskArguments]
  · refine and_congr hsome (h.forall_head_iff ht fun m hm htask head hreplaces =>
      exists_congr fun q => ?_)
    have htells := htells m hm htask head hreplaces
    rw [htells.ensures, Pattern.raised_congr htells.taskArguments]
  · exact mapOwners_eq_anything.trans hany
  · have hne' : r.mayAdd ≠ anything := mt mapOwners_eq_anything.2 hne
    have hmembers : (∃ head ∈ d'.methods, head.task = t.name ∧ ∃ q,
        head.Adds d' records' q ∧ (q.raised t head).mapOwners originName = p) ↔
        ∃ m ∈ d.methods, m.task = t.name ∧ ∃ q, m.Adds d records q ∧ q.raised t m = p := by
      refine h.exists_head_iff ht fun m hm htask head hreplaces => ?_
      have htells := htells m hm htask head hreplaces
      have hno : ¬m.AddsAnything records := fun hadds => hne' (hany.2 ⟨m, hm, htask, hadds⟩)
      simp only [htells.adds hno, Pattern.raised_congr htells.taskArguments,
        Pattern.mapOwners_raised]
      constructor
      · rintro ⟨q, hq, rfl⟩
        exact ⟨_, ⟨q, hq, rfl⟩, rfl⟩
      · rintro ⟨_, ⟨q, hq, rfl⟩, rfl⟩
        exact ⟨q, hq, rfl⟩
    refine mem_mapOwners.trans (Iff.trans ?_ hmembers)
    simp only [hr.mayAdd hne']
    constructor
    · rintro ⟨_, ⟨head, hhead, htask, q, hq, rfl⟩, rfl⟩
      exact ⟨head, hhead, htask, q, hq, rfl⟩
    · rintro ⟨head, hhead, htask, q, hq, rfl⟩
      exact ⟨_, ⟨head, hhead, htask, q, hq, rfl⟩, rfl⟩

/-- Cutting chains changes what is known of a task only in the owners of hidden variables. -/
theorem Domain.Regularized.records_eq (hn : d.Visits top n) :
    records n = (records' n).mapOwners originName := by
  have htop := Domain.name_mem_of_task?_eq_some hu
  have hvisits : ∀ n, d.Visits top n → d'.Visits top n := fun n hn => by
    obtain ⟨t, ht⟩ := h.wellFormed.exists_task? hu hn
    exact (h.visits_iff htop (Domain.name_mem_of_task?_eq_some ht)).2 hn
  refine hr.eq_of_gathers h.retains hr' (mapOwners_primitiveRecord · _ _ _) h.wellFormed hu rfl
    (fun _ _ ha _ hab => hvisits _ (ha.tail hab)) ?_ hn (hvisits n hn)
  intro t ht hn hp hrec hsteps hgathers
  refine h.gathers ht (fun m hm htask head hreplaces => ?_) hgathers
  exact h.tells hr hr' hu hm (htask ▸ hn) (htask ▸ hp) (htask ▸ hrec) (hsteps m hm htask) hreplaces

end Regularized

section Findings

theorem Method.sortOf_of_mem (hm : m.variableNames.Nodup) {v : TypedName}
    (hv : v ∈ m.declarations) : m.sortOf v.name = .ok v.sort := by
  have hnodup : (m.declarations.reverse.map (·.name)).Nodup := by
    rw [List.map_reverse]
    exact List.nodup_reverse.2 hm
  rw [sortOf, (find?_eq_some_of_nodup_map hnodup).2 ⟨List.mem_reverse.2 hv, rfl⟩]

variable (h : d.Regularized d')
include h

theorem Domain.Regularized.sortsDeclared (hsorts : d.SortsDeclared) : d'.SortsDeclared := by
  intro r hr v hv
  obtain ⟨m, hm, -, hsub, -⟩ := h.derived r hr
  rw [h.sorts]
  exact hsorts m hm v (hsub hv)

theorem Domain.Regularized.sortOf_originName {r : Method} (hr : r ∈ d'.methods) {v : String}
    (hv : v ∈ r.variableNames) : d'.sortOf r.name v = d.sortOf (originName r.name) v := by
  obtain ⟨x, hx, rfl⟩ := List.mem_map.1 hv
  obtain ⟨m, hm, hname, hsub, -⟩ := h.derived r hr
  rw [hname, Domain.sortOf, Domain.sortOf, h.wellFormed'.names.resolveMethod hr,
    h.wellFormed.names.resolveMethod hm]
  change r.sortOf x.name = m.sortOf x.name
  rw [Method.sortOf_of_mem (h.wellFormed'.fits hr).consistent.nodup_variables hx,
    Method.sortOf_of_mem (h.wellFormed.fits hm).consistent.nodup_variables (hsub hx)]

variable (hm : m ∈ d.methods) (hm' : m ∈ d'.methods)
include hm hm'

theorem Domain.Regularized.instances_eq {names : List String} {a : Argument}
    (ha : a.Within d' names) :
    a.instances d' m = (a.mapOwner originName).instances d m := by
  have hsort : ∀ sort, d'.instances sort = d.instances sort := fun sort => by
    rw [Domain.instances, Domain.instances, h.sorts]
  cases a with
  | name v =>
    have hv : d'.sortOf m.name v = d.sortOf m.name v := by
      rw [Domain.sortOf, Domain.sortOf, h.wellFormed'.names.resolveMethod hm',
        h.wellFormed.names.resolveMethod hm]
    simp only [Argument.mapOwner, Argument.instances, hv, hsort]
  | hidden o v =>
    obtain ⟨r, hr, rfl, hv⟩ := ha
    simp only [Argument.mapOwner, Argument.instances, h.sortOf_originName hr hv, hsort]

theorem Domain.Regularized.overlaps_eq {names : List String} (hp : p.Within d' names)
    (hq : q.Within d' names) : p.overlaps d' m q =
      (p.mapOwners originName).overlaps d m (q.mapOwners originName) := by
  induction p generalizing q with
  | nil => rfl
  | cons a p ih =>
    cases q with
    | nil => rfl
    | cons b q =>
      obtain ⟨ha, hp⟩ := Pattern.within_cons.1 hp
      obtain ⟨hb, hq⟩ := Pattern.within_cons.1 hq
      change Pattern.overlaps d' m (a :: p) (b :: q) = Pattern.overlaps d m
        (a.mapOwner originName :: Pattern.mapOwners originName p)
        (b.mapOwner originName :: Pattern.mapOwners originName q)
      simp only [Pattern.overlaps, h.instances_eq hm hm' ha, h.instances_eq hm hm' hb, ih hp hq]

theorem Domain.Regularized.requires_iff (hr : d.Solves top predicate positive records)
    (hr' : d'.Solves top predicate positive records') (hu : d.task? top = some u)
    (hn : d.Visits top m.task) (hprim : ¬d.IsPrimitive m.task) :
    m.Requires d' records' p ↔ m.Requires d records p := by
  have hd := h.wellFormed
  have hrecords : ∀ s ∈ m.steps, records s.task = (records' s.task).mapOwners originName :=
    fun s hs => h.records_eq hr hr' hu (hn.tail ⟨hprim, hd.decomposes hm hprim hs⟩)
  have hagree := h.stepsAgree hm hrecords
  have hclear := h.clear hr hr' hu hm hn hprim hrecords
  -- `m` is its own head
  have htells := hagree.tells (.refl m) hclear
    (fun s hs => hr.clear hd hu hm hn hprim hs) (matches_self hclear (h.unmarked m hm))
  obtain ⟨mayAdd, -, hany, hmayAdd, hmayAddWithin⟩ :=
    Method.mayAdd_ok h.wellFormed' hm' hr'.inScope
  rw [Method.Requires, Method.Requires, hagree.needs_iff (.refl m), htells.adds_anything]
  refine and_congr_right fun hp => and_congr_right fun hno => ?_
  have hno' := mt htells.adds_anything.1 hno
  obtain ⟨names, rfl, hnames⟩ := hp.names hd hm hr.inScope
  have hover : ∀ q, m.Adds d' records' q →
      (Pattern.ofNames names).overlaps d' m q =
        (Pattern.ofNames names).overlaps d m (q.mapOwners originName) := by
    intro q hq
    have hwithin : (Pattern.ofNames names).Within d' m.variableNames := List.forall_mem_map.2 hnames
    have hqwithin := hmayAddWithin.variableNames h.wellFormed' hm' q
      ((hmayAdd (mt hany.1 hno') q).2 hq)
    rw [h.overlaps_eq hm hm' hwithin hqwithin, Pattern.mapOwners_ofNames]
  simp only [htells.adds hno]
  constructor
  · rintro hall _ ⟨q, hq, rfl⟩
    rw [← hover q hq]
    exact hall q hq
  · intro hall q hq
    rw [hover q hq]
    exact hall _ ⟨q, hq, rfl⟩

end Findings

/-- After long chains have been cut, sweeps find out about all tasks from before what they found out
before, once each hidden variable of a method for the rest of a chain is given to the method that
the chain belonged to. About methods that were not cut they infer the same. -/
theorem sweep_after_regularize {d : Domain} (hd : d.WellFormed) (hsorts : d.SortsDeclared)
    (hacyclic : ∀ m ∈ d.methods, m.Acyclic)
    (hunmarked : ∀ m ∈ d.methods, ¬restMethodMark.toList <+: m.name.toList)
    (hrun : d.regularize.2 ≠ .error .overflow) {top : String}
    (htop : top ∈ d.tasks.map (·.name)) (predicate : String) (positive : Bool) :
    (∀ r ∈ d.regularize.1.methods, ∃ m ∈ d.methods, originName r.name = m.name ∧
      originName m.name = m.name ∧ r.declarations ⊆ m.declarations ∧
      ∀ s ∈ r.steps, s ∈ m.steps ∨ s.task ∉ d.tasks.map (·.name)) ∧
    ∃ w w', d.sweep top predicate positive = .ok w ∧
      d.regularize.1.sweep top predicate positive = .ok w' ∧
      (∀ n ∈ d.tasks.map (·.name),
        w.record? n = (w'.record? n).map (·.mapOwners originName)) ∧
      ∀ m ∈ d.methods, m.longChain? = none →
        ((∃ f ∈ w.findings, f.method = m) ↔ ∃ f' ∈ w'.findings, f'.method = m) ∧
        ∀ f ∈ w.findings, ∀ f' ∈ w'.findings, f.method = m → f'.method = m →
          f'.inferred = f.inferred := by
  have h := regularized_of_regularize hd hacyclic hunmarked hrun
  generalize d.regularize.1 = d' at h
  have hsorts' := h.sortsDeclared hsorts
  obtain ⟨u, hu, rfl⟩ := List.mem_map.1 htop
  have hu : d.task? u.name = some u := hd.names.task?_eq_some.2 ⟨hu, rfl⟩
  obtain ⟨w, hw⟩ := hd.sweep_ok hsorts hu predicate positive
  obtain ⟨w', hw'⟩ :=
    h.wellFormed'.sweep_ok hsorts' ((h.task?_eq htop).trans hu) predicate positive
  have hr := solves_of_sweep hd hw
  have hr' := solves_of_sweep h.wellFormed' hw'
  refine ⟨fun r hr => ?_, w, w', hw, hw', fun n hn => ?_, fun m hm hshort => ?_⟩
  · obtain ⟨m, hm, horigin, hsub, -, hsteps⟩ := h.derived r hr
    exact ⟨m, hm, horigin, h.unmarked m hm, hsub, fun s hs => (hsteps s hs).imp_right And.left⟩
  · exact h.retains.record?_eq_map hd.names hw hw' hr hr' (mapOwners_primitiveRecord · _ _ _) htop hn
      fun hv => h.records_eq hr hr' hu hv
  · have hm' : m ∈ d'.methods := by
      obtain ⟨head, hhead, hreplaces⟩ := h.replaced m hm
      exact hreplaces.kept hshort ▸ hhead
    refine ⟨?_, ?_⟩
    · rw [exists_finding_iff hd hsorts hw, exists_finding_iff h.wellFormed' hsorts' hw',
        h.visits_iff htop (h.task_mem hm), h.isPrimitive]
      exact and_congr_left fun _ => iff_of_true hm hm'
    · rintro f hf f' hf' rfl hmethod
      obtain ⟨-, hvisits, hnp, hfinds⟩ := finds_of_sweep hd hsorts hw hf
      obtain ⟨-, -, -, hfinds'⟩ := finds_of_sweep h.wellFormed' hsorts' hw' hf'
      refine hfinds'.normal.2.2.ext hfinds.normal.2.2
        (iff_of_false hfinds'.inferred.1 hfinds.inferred.1) fun p => ?_
      rw [hfinds'.inferred.2, hfinds.inferred.2, hmethod]
      exact h.requires_iff hm hm' hr hr' hu hvisits hnp

def byHandcart : Method where
  name := "by_handcart"
  task := "deliver"
  taskArguments := ["from", "to"]
  declarations := [{ name := "from", sort := "place" }, { name := "to", sort := "place" },
    { name := "box", sort := "thing" }]
  steps := [{ id := "move", task := "drive", arguments := ["from", "to"] },
    { id := "unload", task := "drop", arguments := ["box", "to"] }]
  ordering := [("move", "unload")]

def heldDelivery : Domain :=
  { delivery with
    predicates := [{ name := "held", argumentSorts := ["thing"] }]
    primitiveTasks := [
      Task.ofParameters "walk" [{ name := "at", sort := "place" }],
      (Task.ofParameters "pick"
        [{ name := "box", sort := "thing" }, { name := "at", sort := "place" }]).withEffect
          { predicate := "held", positive := true, arguments := ["box"] },
      Task.ofParameters "drive"
        [{ name := "from", sort := "place" }, { name := "to", sort := "place" }],
      (Task.ofParameters "drop"
        [{ name := "box", sort := "thing" }, { name := "at", sort := "place" }]).withPrecondition
          { predicate := "held", positive := true, arguments := ["box"] }]
    methods := [byVan, byHandcart] }

theorem sweep_after_regularize_heldDelivery : ∃ w w',
    heldDelivery.sweep "deliver" "held" true = .ok w ∧
    heldDelivery.regularize.1.sweep "deliver" "held" true = .ok w' ∧
    [.hidden "by_van" "box"] ∈ (w.record "deliver").mayAdd ∧
    w.record? "deliver" = (w'.record? "deliver").map (·.mapOwners originName) ∧
    ∃ f ∈ w.findings, f.method = byHandcart ∧ [.name "box"] ∈ f.inferred ∧
      ∃ f' ∈ w'.findings, f'.method = byHandcart ∧ f'.inferred = f.inferred := by
  have hd : heldDelivery.WellFormed := ⟨by decide, by decide, by decide, by decide⟩
  have hsorts : heldDelivery.SortsDeclared := by
    intro m hm v hv
    have hsort : v.sort = "place" ∨ v.sort = "thing" := by
      revert m v
      decide
    obtain h | h := hsort <;> rw [h] <;> exact ⟨_, rfl⟩
  have hacyclic : ∀ m ∈ heldDelivery.methods, m.Acyclic := by
    simp only [Method.acyclic_iff]
    decide
  have hunmarked : ∀ m ∈ heldDelivery.methods, ¬restMethodMark.toList <+: m.name.toList := by
    decide +kernel
  have hshort : byHandcart.longChain? = none := rfl
  have hrun : heldDelivery.regularize.2 ≠ .error .overflow := by
    simp only [Domain.regularize, heldDelivery, cascades, longChain?_byVan, hshort]
    decide +kernel
  obtain ⟨-, w, w', hw, hw', hrecords, hmethods⟩ := sweep_after_regularize hd hsorts hacyclic
    hunmarked hrun (show "deliver" ∈ heldDelivery.tasks.map (·.name) by decide) "held" true
  obtain ⟨hhidden, f, hf, hmethod, hbox⟩ : [.hidden "by_van" "box"] ∈ (w.record "deliver").mayAdd ∧
      ∃ f ∈ w.findings, f.method = byHandcart ∧ [.name "box"] ∈ f.inferred := by
    cases hw
    decide +kernel
  obtain ⟨hiff, hsame⟩ := hmethods byHandcart (by decide) hshort
  obtain ⟨f', hf', hmethod'⟩ := hiff.1 ⟨f, hf, hmethod⟩
  exact ⟨w, w', hw, hw', hhidden, hrecords "deliver" (by decide), f, hf, hmethod, hbox, f', hf',
    hmethod', hsame f hf f' hf' hmethod hmethod'⟩

end TaskNetwork
