import TaskNetwork.Proofs.Coverage
import TaskNetwork.Proofs.SweepWalk

namespace TaskNetwork

open PatternSet

/-- A literal is about the call if it is a precondition or an effect of it. -/
def Domain.Touches (d : Domain) (c : Call) (l : Literal) : Prop :=
  l ∈ d.preconditions c ∨ l ∈ d.effects c

/-- What the pattern stands for at a call of the task that it is about. -/
def Domain.Means (d : Domain) (H : String → String → String → Prop) (c : Call) (p : Pattern)
    (constants : List String) : Prop :=
  ∃ t, d.task? c.task = some t ∧ p.Denotes (t.valuation c.constants) H constants

section Primitive

variable {d : Domain} {predicate : String} {positive : Bool} {t : Task} {p : Pattern}
  {constants : List String} {σ : Valuation} {H : String → String → String → Prop}

theorem mem_patternsOf {literals : List Literal} :
    p ∈ (patternsOf predicate positive literals).toList ↔
      ∃ l ∈ literals, l.predicate = predicate ∧ l.positive = positive ∧
        Pattern.ofNames l.arguments = p := by
  simp only [patternsOf, toList_ofList_iff, List.mem_map, List.mem_filter, Literal.isAbout,
    Bool.and_eq_true, beq_iff_eq, and_assoc]
  exact ⟨fun ⟨l, hl, hb, hp, he⟩ => ⟨l, hl, hp, hb, he⟩, fun ⟨l, hl, hp, hb, he⟩ => ⟨l, hl, hb, hp, he⟩⟩

theorem ground_of_mem_patternsOf {literals : List Literal}
    (hp : p ∈ (patternsOf predicate positive literals).toList) (hd : p.Denotes σ H constants) :
    ∃ l ∈ literals, l.ground σ = { predicate, positive, arguments := constants } := by
  obtain ⟨l, hl, rfl, rfl, rfl⟩ := mem_patternsOf.1 hp
  obtain rfl := Pattern.denotes_ofNames.1 hd
  exact ⟨l, hl, rfl⟩

theorem mem_patternsOf_of_ground {literals : List Literal} {l : Literal} (hl : l ∈ literals)
    (hg : l.ground σ = { predicate, positive, arguments := constants }) :
    Pattern.ofNames l.arguments ∈ (patternsOf predicate positive literals).toList ∧
      (Pattern.ofNames l.arguments).Denotes σ H constants := by
  obtain ⟨lp, lb, la⟩ := l
  cases hg
  exact ⟨mem_patternsOf.2 ⟨_, hl, rfl, rfl, rfl⟩, Pattern.denotes_ofNames.2 rfl⟩

end Primitive

section Walked

variable {d : Domain} {top predicate : String} {positive : Bool} {seen : List String} {w : Sweep}
  {m : Method} {σ : Valuation} {H K : String → String → String → Prop} {constants : List String}

theorem Domain.NamesDiffer.not_isPrimitive (hd : d.NamesDiffer) {n : String}
    (hn : n ∈ d.abstractTasks.map (·.name)) : ¬d.IsPrimitive n := by
  intro hp
  have hnodup := hd.tasks
  rw [Domain.tasks, List.map_append] at hnodup
  exact (List.nodup_append.1 hnodup).2.2 n hp n hn rfl

theorem Walked.record_primitive (hw : Walked d top predicate positive seen [] w)
    (hd : d.NamesDiffer) {n : String} (hn : d.IsPrimitive n) :
    ∃ t, d.task? n = some t ∧ w.record n = t.primitiveRecord predicate positive := by
  rw [(hw.primitive n hn).2]
  obtain ⟨hnp, -⟩ | ⟨t, ht, hname, hr⟩ := record_start d predicate positive n
  · exact absurd hn hnp
  · exact ⟨t, hd.task?_eq_some.2 ⟨List.mem_append_left _ ht, hname⟩, hr⟩

theorem Domain.WellFormed.step_task (hd : d.WellFormed) (hm : m ∈ d.methods) {s : Step}
    (hs : s ∈ m.steps) : ∃ t, d.task? s.task = some t ∧ d.resolveTask s.task = .ok t ∧
      t.parameterNames.Nodup := by
  obtain ⟨t, ht, -⟩ := (hd.fits hm).steps s hs
  exact ⟨t, ht, resolveTask_eq_ok.2 ht, hd.nodup_parameters ht⟩

theorem exists_step_denotes (hd : d.WellFormed) (hm : m ∈ d.methods) {g : Step → PatternSet}
    {policy : HiddenPolicy} {u : PatternSet} (hg : ∀ s, (g s).Plain)
    (hpolicy : ∀ v b c, policy.apply m.name v = some b → b.Denotes σ H c → σ v = c)
    (hu : unionOver m.steps (fun s => (g s).lower d m s policy) = .ok u) {p : Pattern}
    (hp : p ∈ u.toList) (hden : p.Denotes σ H constants) :
    ∃ s ∈ m.steps, ∃ q ∈ (g s).toList, d.Means K (s.call σ) q constants := by
  obtain ⟨s, hs, q, hq, hl⟩ := ((Method.unionOver_lower hu fun s _ => (hg s).1).2 p).1 hp
  obtain ⟨t, ht, hrt, hnodup⟩ := hd.step_task hm hs
  rw [hrt, hd.names.resolveMethod hm] at hl
  exact ⟨s, hs, q, hq, t, ht, hden.of_lower hnodup hpolicy ((hg s).2 q hq) hl⟩

theorem exists_step_means (hd : d.WellFormed) (hm : m ∈ d.methods) {g : Step → PatternSet}
    {t : Task} (ht : d.task? m.task = some t) {u v : PatternSet} (hg : ∀ s, (g s).Plain)
    (hu : unionOver m.steps (fun s => (g s).lower d m s .drop) = .ok u)
    (hv : u.raise d t m = .ok v) {p : Pattern} (hp : p ∈ v.toList)
    (hden : d.Means H (m.call σ) p constants) :
    ∃ s ∈ m.steps, ∃ q ∈ (g s).toList, d.Means K (s.call σ) q constants := by
  obtain ⟨q, hq, hqp⟩ := ((raises_of_raise hv).mem_iff p).1 hp
  rw [hd.names.resolveMethod hm] at hqp
  obtain ⟨t', ht', hden⟩ := hden
  obtain rfl : t = t' := Option.some.inj (ht.symm.trans ht')
  rw [Pattern.denotes_raise (hd.nodup_parameters ht) hqp] at hden
  exact exists_step_denotes hd hm hg (fun v b c hb => by cases hb) hu hq hden

/-- What is gathered from the steps of each method is found at some primitive task below it if it is
found at primitive tasks. -/
theorem Walked.exists_leaf (hw : Walked d top predicate positive seen [] w) (hd : d.WellFormed)
    {g : TaskRecord → PatternSet} {about : Call → Prop} (hg : ∀ n, (g (w.record n)).Plain)
    (hleaf : ∀ c t, d.task? c.task = some t →
      ∀ p ∈ (g (t.primitiveRecord predicate positive)).toList,
      p.Denotes (t.valuation c.constants) H constants → about c)
    (hnode : ∀ f ∈ w.findings, ∀ t, d.task? f.method.task = some t →
      ∀ p ∈ (g (w.record f.method.task)).toList, ∃ u v,
      unionOver f.method.steps (fun s => (g (w.record s.task)).lower d f.method s .drop) = .ok u ∧
      u.raise d t f.method = .ok v ∧ p ∈ v.toList)
    {tree : Tree} (htree : tree.Derives d) (hseen : tree.call.task ∈ seen) {p : Pattern}
    (hp : p ∈ (g (w.record tree.call.task)).toList) (hden : d.Means H tree.call p constants) :
    ∃ c ∈ tree.leaves, about c := by
  induction tree generalizing p with
  | leaf c i =>
    obtain ⟨t, ht, hr⟩ := hw.record_primitive hd.names htree
    obtain ⟨t', ht', hden⟩ := hden
    obtain rfl : t = t' := Option.some.inj (ht.symm.trans ht')
    exact ⟨c, rfl, hleaf c t ht p (hr ▸ hp) hden⟩
  | node m σ below ih =>
    obtain ⟨hm, hprim, hbelow⟩ := htree
    obtain ⟨f, hf, rfl⟩ := hw.exists_finding hm hseen hprim
    obtain ⟨-, -, hsteps, t, c, ht, -, -⟩ := hw.of_finding hf
    obtain ⟨u, v, hu, hv, hpv⟩ := hnode f hf t ht p hp
    obtain ⟨s, hs, q, hq, hqden⟩ :=
      exists_step_means (K := H) hd hm ht (fun s => hg s.task) hu hv hpv hden
    obtain ⟨hcall, hderives⟩ := hbelow s hs
    rw [← hcall] at hqden
    have htask : (below s).call.task = s.task := by rw [hcall]; rfl
    obtain ⟨c, hc, habout⟩ := ih s hderives (htask ▸ hsteps s hs) (htask ▸ hq) hqden
    exact ⟨c, ⟨s, hs, hc⟩, habout⟩

theorem Walked.exists_precondition (hw : Walked d top predicate positive seen [] w)
    (hd : d.WellFormed) {tree : Tree} (htree : tree.Derives d) (hseen : tree.call.task ∈ seen)
    {p : Pattern} (hp : p ∈ (w.record tree.call.task).needs.toList)
    (hden : d.Means H tree.call p constants) :
    ∃ c ∈ tree.leaves, { predicate, positive, arguments := constants } ∈ d.preconditions c := by
  refine hw.exists_leaf hd (fun n => (hw.plain n).needs) (fun c t ht p hp hden => ?_)
    (fun f hf t ht p hp => ?_) htree hseen hp hden
  · obtain ⟨l, hl, hg⟩ := ground_of_mem_patternsOf hp hden
    exact (Domain.mem_preconditions ht).2 ⟨l, hl, hg⟩
  · obtain ⟨-, -, -, t', c, ht', hfc, hcov⟩ := hw.of_finding hf
    obtain rfl : t = t' := Option.some.inj (ht.symm.trans ht')
    obtain ⟨u, hu, hv⟩ := hfc.needs
    exact ⟨u, c.needs, hu, hv, hcov.needs p hp⟩

theorem Walked.exists_touching (hw : Walked d top predicate positive seen [] w)
    (hd : d.WellFormed) {tree : Tree} (htree : tree.Derives d) (hseen : tree.call.task ∈ seen)
    {p : Pattern} (hp : p ∈ (w.record tree.call.task).ensures.toList)
    (hden : d.Means H tree.call p constants) :
    ∃ c ∈ tree.leaves, d.Touches c { predicate, positive, arguments := constants } := by
  refine hw.exists_leaf hd (fun n => (hw.plain n).ensures) (fun c t ht p hp hden => ?_)
    (fun f hf t ht p hp => ?_) htree hseen hp hden
  · have hplain := t.primitiveRecord_plain predicate positive
    obtain hp | hp := (mem_union hplain.ensures.ne_anything).1 hp
    · obtain ⟨l, hl, hg⟩ := ground_of_mem_patternsOf hp hden
      exact .inr ((Domain.mem_effects ht).2 ⟨l, hl, hg⟩)
    · obtain ⟨l, hl, hg⟩ := ground_of_mem_patternsOf hp hden
      exact .inl ((Domain.mem_preconditions ht).2 ⟨l, hl, hg⟩)
  · obtain ⟨-, -, -, t', c, ht', hfc, hcov⟩ := hw.of_finding hf
    obtain rfl : t = t' := Option.some.inj (ht.symm.trans ht')
    obtain ⟨u, hu, hv⟩ := hfc.ensures
    exact ⟨u, c.ensures, hu, hv, hcov.ensures p hp⟩

end Walked

section Recursion

variable {d : Domain} {top predicate : String} {positive : Bool} {seen : List String} {w : Sweep}
  {truth : Literal → Prop} {plan : List Call}

theorem Domain.WellFormed.decomposes (hd : d.WellFormed) {m : Method} (hm : m ∈ d.methods)
    (hp : ¬d.IsPrimitive m.task) {s : Step} (hs : s ∈ m.steps) : d.Decomposes m.task s.task := by
  obtain ⟨t, ht, -⟩ := (hd.fits hm).task
  obtain ⟨habs, hname⟩ := mem_abstractTasks ht hp
  exact ⟨List.mem_map.2 ⟨t, habs, hname⟩, m, hm, rfl, s, hs, rfl⟩

theorem Tree.Derives.of_mem_uses (hd : d.WellFormed) {tree : Tree} (htree : tree.Derives d)
    {u : Method × Valuation} (hu : u ∈ tree.uses) :
    u.1 ∈ d.methods ∧ d.Reaches tree.call.task u.1.task := by
  induction tree with
  | leaf c i => cases hu
  | node m σ below ih =>
    obtain ⟨hm, hprim, hbelow⟩ := htree
    obtain rfl | ⟨s, hs, hu⟩ := hu
    · exact ⟨hm, .refl⟩
    · obtain ⟨hcall, hderives⟩ := hbelow s hs
      obtain ⟨hmu, hr⟩ := ih s hderives hu
      rw [hcall] at hr
      exact ⟨hmu, (hd.decomposes hm hprim hs).reaches.trans hr⟩

theorem Tree.Valid.grounds {tree : Tree} (htree : tree.Valid d truth plan)
    {u : Method × Valuation} (hu : u ∈ tree.uses) : d.Grounds u.1 u.2 := by
  induction tree with
  | leaf c i => cases hu
  | node m σ below ih =>
    obtain ⟨-, -, hσ, -, hbelow, -, -⟩ := htree
    obtain rfl | ⟨s, hs, hu⟩ := hu
    · exact hσ
    · exact ih s (hbelow s hs).2 hu

theorem Tree.Valid.sorted (hd : d.WellFormed) {tree : Tree} (htree : tree.Valid d truth plan) :
    d.Sorted tree.Gives := by
  rintro o v c ⟨⟨n, τ⟩, hu, rfl, rfl⟩ sort hs
  exact (htree.grounds hu).isInstance hd.names (htree.derives.of_mem_uses hd hu).1 hs

/-- If what a task may add is listed, then what the tasks below it may add is, too. -/
theorem Walked.mayAdd_ne_anything (hw : Walked d top predicate positive seen [] w)
    (hd : d.WellFormed) {a b : String} (h : d.Reaches a b) (ha : a ∈ seen)
    (hne : (w.record a).mayAdd ≠ anything) : b ∈ seen ∧ (w.record b).mayAdd ≠ anything := by
  induction h with
  | refl => exact ⟨ha, hne⟩
  | @tail b c _ hbc ih =>
    obtain ⟨hb, hbne⟩ := ih
    obtain ⟨habs, m, hm, rfl, s, hs, rfl⟩ := hbc
    have hprim := hd.names.not_isPrimitive habs
    obtain ⟨f, hf, rfl⟩ := hw.exists_finding hm hb hprim
    obtain ⟨-, -, hsteps, t, c, ht, hfc, hcov⟩ := hw.of_finding hf
    refine ⟨hsteps s hs, fun hany => ?_⟩
    have hmethod : f.mayAdd = anything := (hw.mayAdd_eq_anything hf).2 ⟨s, hs, hany⟩
    exact (hcov.mayAdd hbne).1 ((raises_of_raise hfc.raised).anything_iff.2 hmethod)

theorem Walked.not_recursive (hw : Walked d top predicate positive seen [] w) (hd : d.WellFormed)
    {a b : String} (h : d.Reaches a b) (ha : a ∈ seen) (hne : (w.record a).mayAdd ≠ anything) :
    ¬d.Recursive b := by
  intro hrec
  obtain ⟨hb, hbne⟩ := hw.mayAdd_ne_anything hd h ha hne
  obtain ⟨c, hbc, -⟩ := Relation.TransGen.head'_iff.1 hrec
  obtain ⟨-, t, -, -, cs, -, hr⟩ := hw.entered b hb (hd.names.not_isPrimitive hbc.1)
  rw [hr, Domain.firstRecord, if_pos (Domain.mem_recursiveTasks.2 hrec),
    TaskRecord.foldl_add_ofRecursive] at hbne
  exact hbne rfl

end Recursion

section FirstTouch

variable {d : Domain} {top predicate : String} {positive : Bool} {seen : List String} {w : Sweep}
  {truth : Literal → Prop} {plan : List Call} {σ : Valuation} {below : Step → Tree}
  {constants : List String}

theorem Walked.ne_of_mem_uses (hw : Walked d top predicate positive seen [] w) (hd : d.WellFormed)
    {f : Finding} (hf : f ∈ w.findings) (htree : (Tree.node f.method σ below).Derives d)
    (hne : f.mayAdd ≠ anything) {s : Step} (hs : s ∈ f.method.steps) {u : Method × Valuation}
    (hu : u ∈ (below s).uses) : u.1 ≠ f.method := by
  intro he
  obtain ⟨hm, hprim, hbelow⟩ := htree
  obtain ⟨-, -, hsteps, -⟩ := hw.of_finding hf
  have hstep : (w.record s.task).mayAdd ≠ anything := fun hany =>
    hne ((hw.mayAdd_eq_anything hf).2 ⟨s, hs, hany⟩)
  obtain ⟨hcall, hderives⟩ := hbelow s hs
  obtain ⟨-, hr⟩ := hderives.of_mem_uses hd hu
  rw [hcall, he] at hr
  have hdec := hd.decomposes hm hprim hs
  exact hw.not_recursive hd hr (hsteps s hs) hstep (Relation.TransGen.head' hdec hr)

theorem Walked.step_touches (hw : Walked d top predicate positive seen [] w) (hd : d.WellFormed)
    {f : Finding} (hf : f ∈ w.findings) (htree : (Tree.node f.method σ below).Derives d)
    {e : Step} (he : e ∈ f.method.steps) {policy : HiddenPolicy} {v : PatternSet}
    (hv : (w.record e.task).ensures.lower d f.method e policy = .ok v) {p : Pattern}
    (hp : p ∈ v.toList) {K : String → String → String → Prop} (hden : p.Denotes σ K constants)
    (hpolicy : ∀ v b c, policy.apply f.method.name v = some b → b.Denotes σ K c → σ v = c) :
    ∃ c ∈ (below e).leaves, d.Touches c { predicate, positive, arguments := constants } := by
  obtain ⟨hm, -, hbelow⟩ := htree
  obtain ⟨-, -, hsteps, -⟩ := hw.of_finding hf
  obtain ⟨q, hq, hqp⟩ := ((lowers_of_lower hv).mem_iff p).1 hp
  obtain ⟨t, ht, hrt, hnodup⟩ := hd.step_task hm he
  rw [hrt, hd.names.resolveMethod hm] at hqp
  have hqden : d.Means K (e.call σ) q constants :=
    ⟨t, ht, hden.of_lower hnodup hpolicy ((hw.plain e.task).ensures.named q hq) hqp⟩
  obtain ⟨hcall, hderives⟩ := hbelow e he
  have htask : (below e).call.task = e.task := by rw [hcall]; rfl
  rw [← hcall] at hqden
  exact hw.exists_touching hd hderives (htask ▸ hsteps e he) (htask ▸ hq) hqden

/-- What a step may add the method may add, unless it was about that already before the step. -/
theorem Walked.method_mayAdd (hw : Walked d top predicate positive seen [] w) (hd : d.WellFormed)
    {f : Finding} (hf : f ∈ w.findings) (htree : (Tree.node f.method σ below).Derives d)
    (hne : f.mayAdd ≠ anything) {s : Step} (hs : s ∈ f.method.steps) {q : Pattern}
    (hq : q ∈ (w.record s.task).mayAdd.toList) {ρ : String → Valuation}
    (hden : d.Means ((below s).GivesBy ρ) (s.call σ) q constants)
    (hbefore : ∀ e ∈ f.method.predecessors s.id, ∀ c ∈ (below e).leaves,
      ¬d.Touches c { predicate, positive, arguments := constants }) :
    ∃ p ∈ f.mayAdd.toList, ∃ ρ, p.Denotes σ ((Tree.node f.method σ below).GivesBy ρ) constants := by
  obtain ⟨hm, -, hbelow⟩ := id htree
  obtain ⟨-, -, -, t, c, ht, hfc, -⟩ := hw.of_finding hf
  have hensures : ∀ e ∈ f.method.steps, (w.record e.task).ensures ≠ anything := fun e _ =>
    (hw.plain e.task).ensures.ne_anything
  obtain ⟨-, hmem⟩ := Method.mayAdd_eq_ok hfc.may_add hensures
  -- the method is used once here, with `σ` for its hidden variables
  let K := (Tree.node f.method σ below).GivesBy (Function.update ρ f.method.name σ)
  have hbelowK : ∀ o v c, (below s).GivesBy ρ o v c → K o v c := by
    rintro o v c ⟨hc, m, rfl, hu⟩
    obtain ⟨hmu, -⟩ := (hbelow s hs).2.of_mem_uses hd hu
    have hname : m.name ≠ f.method.name := fun he =>
      hw.ne_of_mem_uses hd hf htree hne hs hu (hd.names.eq_of_name_eq hmu hm he)
    have hρ : Function.update ρ f.method.name σ m.name = ρ m.name :=
      Function.update_of_ne hname σ ρ
    exact ⟨(congrFun hρ v).trans hc, m, rfl, hρ ▸ .inr ⟨s, hs, hu⟩⟩
  have hσ : Function.update ρ f.method.name σ f.method.name = σ := Function.update_self _ σ ρ
  have hpolicy : ∀ v b, HiddenPolicy.qualify.apply f.method.name v = some b →
      b.Denotes σ K (σ v) := by
    intro v b hb
    cases hb
    exact ⟨congrFun hσ v, f.method, rfl, .inl (by rw [hσ])⟩
  have hpolicy' : ∀ v b c, HiddenPolicy.qualify.apply f.method.name v = some b →
      b.Denotes σ K c → σ v = c := by
    rintro v b c hb hc
    cases hb
    exact (congrFun hσ v).symm.trans hc.1
  obtain ⟨ts, hts, hrt, hnodup⟩ := hd.step_task hm hs
  obtain ⟨ts', hts', hden⟩ := hden
  obtain rfl : ts = ts' := Option.some.inj (hts.symm.trans hts')
  have hrm : d.resolveMethod f.method.name = .ok f.method := hd.names.resolveMethod hm
  obtain ⟨p, hp⟩ := Method.lower_of_mayAdd hfc.may_add hs hq
  rw [hrt, hrm] at hp
  have hpden : p.Denotes σ K constants := hden.lower hnodup hbelowK hpolicy hp
  refine ⟨p, (hmem hne p).2 ⟨s, hs, ⟨q, hq, by rw [hrt, hrm, hp]⟩, fun e he v hv hpv => ?_⟩, _,
    hpden⟩
  have hes : e ∈ f.method.steps := (Method.mem_predecessors.1 he).1
  obtain ⟨c, hc, htouch⟩ := hw.step_touches hd hf htree hes hv hpv hpden hpolicy'
  exact hbefore e he c hc htouch

/-- No position of the tree before this one is about the literal. -/
def Tree.FirstAt (d : Domain) (plan : List Call) (tree : Tree) (l : Literal) (x : ℕ) : Prop :=
  ∀ i ∈ tree.positions, i < x → ∀ c, plan[i]? = some c → ¬d.Touches c l

theorem Tree.exists_firstAt {tree : Tree} {l : Literal} {i : ℕ} (hi : i ∈ tree.positions) {e : Call}
    (he : plan[i]? = some e) (hl : d.Touches e l) :
    ∃ x ∈ tree.positions, ∃ c, plan[x]? = some c ∧ d.Touches c l ∧ tree.FirstAt d plan l x := by
  obtain ⟨x, ⟨hx, c, hc, htouch⟩, hmin⟩ := wellFounded_lt.has_min
    {i ∈ tree.positions | ∃ c, plan[i]? = some c ∧ d.Touches c l} ⟨i, hi, e, he, hl⟩
  exact ⟨x, hx, c, hc, htouch, fun j hj hjx a ha hta => hmin j ⟨hj, a, ha, hta⟩ hjx⟩

theorem Walked.method_first_touch (hw : Walked d top predicate positive seen [] w)
    (hd : d.WellFormed) {f : Finding} (hf : f ∈ w.findings)
    (htree : (Tree.node f.method σ below).Derives d)
    (hfollows : (Tree.node f.method σ below).Follows plan) {s : Step} (hs : s ∈ f.method.steps)
    {x : ℕ} (hx : x ∈ (below s).positions)
    (hfirst : (Tree.node f.method σ below).FirstAt d plan
      { predicate, positive, arguments := constants } x)
    (hstep : (w.record s.task).mayAdd = anything ∨ ∃ q ∈ (w.record s.task).mayAdd.toList,
      ∃ ρ, d.Means ((below s).GivesBy ρ) (s.call σ) q constants) :
    f.mayAdd = anything ∨ ∃ p ∈ f.mayAdd.toList,
      ∃ ρ, p.Denotes σ ((Tree.node f.method σ below).GivesBy ρ) constants := by
  by_cases hne : f.mayAdd = anything
  · exact .inl hne
  obtain hany | ⟨q, hq, ρ, hden⟩ := hstep
  · exact .inl ((hw.mayAdd_eq_anything hf).2 ⟨s, hs, hany⟩)
  · refine .inr (hw.method_mayAdd hd hf htree hne hs hq hden fun e he c hc => ?_)
    obtain ⟨hes, hprec⟩ := Method.mem_predecessors.1 he
    obtain ⟨i, hi, hplan⟩ := (hfollows.1 e hes).exists_position hc
    exact hfirst i ⟨e, hes, hi⟩ (hfollows.2 e hes s hs hprec i hi x hx) c hplan

theorem Walked.primitive_touch (hw : Walked d top predicate positive seen [] w)
    (hd : d.NamesDiffer) {c : Call} (hprim : d.IsPrimitive c.task)
    (htouch : d.Touches c { predicate, positive, arguments := constants })
    (H : String → String → String → Prop) :
    { predicate, positive, arguments := constants } ∈ d.preconditions c ∨
      ∃ p ∈ (w.record c.task).mayAdd.toList, d.Means H c p constants := by
  obtain ⟨t, ht, hr⟩ := hw.record_primitive hd hprim
  obtain hpre | heff := htouch
  · exact .inl hpre
  obtain ⟨l, hl, hg⟩ := (Domain.mem_effects ht).1 heff
  obtain ⟨hmem, hden⟩ := mem_patternsOf_of_ground (H := H) hl hg
  by_cases hneeds : Pattern.ofNames l.arguments
      ∈ (patternsOf predicate positive t.preconditions).toList
  · obtain ⟨k, hk, hkg⟩ := ground_of_mem_patternsOf hneeds hden
    exact .inl ((Domain.mem_preconditions ht).2 ⟨k, hk, hkg⟩)
  · refine .inr ⟨_, ?_, t, ht, hden⟩
    rw [hr]
    exact (mem_sdiff (plain_patternsOf _ _ _).ne_anything).2 ⟨hmem, hneeds⟩

/-- A literal is first met by a task as a precondition, or as something that the task may add. -/
theorem Walked.first_touch (hw : Walked d top predicate positive seen [] w) (hd : d.WellFormed)
    {tree : Tree} (htree : tree.Derives d) (hfollows : tree.Follows plan)
    (hseen : tree.call.task ∈ seen) {x : ℕ} (hx : x ∈ tree.positions) {e : Call}
    (he : plan[x]? = some e)
    (htouch : d.Touches e { predicate, positive, arguments := constants })
    (hfirst : tree.FirstAt d plan { predicate, positive, arguments := constants } x) :
    { predicate, positive, arguments := constants } ∈ d.preconditions e ∨
    (w.record tree.call.task).mayAdd = anything ∨
    ∃ p ∈ (w.record tree.call.task).mayAdd.toList,
      ∃ ρ, d.Means (tree.GivesBy ρ) tree.call p constants := by
  induction tree with
  | leaf c i =>
    obtain rfl : x = i := hx
    obtain rfl : c = e := Option.some.inj (hfollows.symm.trans he)
    obtain hpre | ⟨p, hp, hden⟩ :=
      hw.primitive_touch hd.names htree htouch ((Tree.leaf c x).GivesBy fun _ _ => "")
    · exact .inl hpre
    · exact .inr (.inr ⟨p, hp, _, hden⟩)
  | node m σ below ih =>
    obtain ⟨s, hs, hxs⟩ := hx
    obtain ⟨hm, hprim, hbelow⟩ := id htree
    obtain ⟨f, hf, rfl⟩ := hw.exists_finding hm hseen hprim
    obtain ⟨-, -, hsteps, t, c, ht, hfc, hcov⟩ := hw.of_finding hf
    obtain ⟨hcall, hderives⟩ := hbelow s hs
    have hfirst' : (below s).FirstAt d plan { predicate, positive, arguments := constants } x :=
      fun i hi => hfirst i ⟨s, hs, hi⟩
    have hstep :=
      ih s hderives (hfollows.1 s hs) (by rw [hcall]; exact hsteps s hs) hxs hfirst'
    rw [hcall] at hstep
    obtain hpre | hstep := hstep
    · exact .inl hpre
    refine .inr ?_
    by_cases hany : (w.record f.method.task).mayAdd = anything
    · exact .inl hany
    obtain ⟨hcne, hcmem⟩ := hcov.mayAdd hany
    have hraise := raises_of_raise hfc.raised
    obtain hfany | ⟨p, hp, ρ, hden⟩ :=
      hw.method_first_touch hd hf htree hfollows hs hxs hfirst hstep
    · exact absurd (hraise.anything_iff.2 hfany) hcne
    · obtain ⟨r, hr⟩ := hraise.raise_ok p hp
      refine .inr ⟨r, hcmem r ((hraise.mem_iff r).2 ⟨p, hp, hr⟩), ρ, t, ht, ?_⟩
      rw [hd.names.resolveMethod hm] at hr
      exact (Pattern.denotes_raise (hd.nodup_parameters ht) hr).2 hden

/-- What is inferred for a method is a precondition of some task that the method does, and no task
that it does before that is about it. -/
theorem Walked.inferred_needed (hw : Walked d top predicate positive seen [] w) (hd : d.WellFormed)
    {f : Finding} (hf : f ∈ w.findings) (htree : (Tree.node f.method σ below).Valid d truth plan)
    {p : Pattern} (hp : p ∈ f.inferred) : ∃ names, p = .ofNames names ∧
      ∃ x ∈ (Tree.node f.method σ below).positions, ∃ e, plan[x]? = some e ∧
      { predicate, positive, arguments := names.map σ } ∈ d.preconditions e ∧
      (Tree.node f.method σ below).FirstAt d plan
        { predicate, positive, arguments := names.map σ } x := by
  have hderives := htree.derives
  have hfollows := htree.follows
  obtain ⟨hm, hprim, hbelow⟩ := id hderives
  obtain ⟨-, -, hsteps, t, c, ht, hfc, hcov⟩ := hw.of_finding hf
  obtain ⟨-, -, hplain⟩ := hfc.plain hw.plain
  obtain ⟨hneeds, hmay, hoverlap⟩ := mem_constrain hfc.inferred hplain.ne_anything hp
  obtain ⟨names, rfl⟩ := hplain.named p hneeds
  refine ⟨names, rfl, ?_⟩
  have hden : (Pattern.ofNames names).Denotes σ (Tree.node f.method σ below).Gives (names.map σ) :=
    Pattern.denotes_ofNames.2 rfl
  have hkeep : ∀ v b c, HiddenPolicy.keep.apply f.method.name v = some b →
      b.Denotes σ (Tree.node f.method σ below).Gives c → σ v = c := by
    intro v b c hb hc
    cases hb
    exact hc
  obtain ⟨s, hs, q, hq, hqden⟩ := exists_step_denotes (K := fun _ _ _ => False) hd hm
    (fun s => (hw.plain s.task).needs) hkeep hfc.kept hneeds hden
  obtain ⟨hcall, hs'⟩ := hbelow s hs
  have htask : (below s).call.task = s.task := by rw [hcall]; rfl
  rw [← hcall] at hqden
  obtain ⟨e, hleaf, hpre⟩ :=
    hw.exists_precondition hd hs' (htask ▸ hsteps s hs) (htask ▸ hq) hqden
  obtain ⟨i, hmem, he⟩ := hfollows.exists_position (c := e) ⟨s, hs, hleaf⟩
  obtain ⟨x, ⟨r, hr, hx⟩, k, hk, htouch, hfirst⟩ := Tree.exists_firstAt hmem he (.inl hpre)
  refine ⟨x, ⟨r, hr, hx⟩, k, hk, ?_, hfirst⟩
  obtain ⟨hrcall, hr'⟩ := hbelow r hr
  have hstep := hw.first_touch hd hr' (hfollows.1 r hr) (by rw [hrcall]; exact hsteps r hr) hx hk
    htouch fun j hj => hfirst j ⟨r, hr, hj⟩
  rw [hrcall] at hstep
  obtain hpre | hstep := hstep
  · exact hpre
  · obtain hany | ⟨a, ha, ρ, haden⟩ :=
      hw.method_first_touch hd hf hderives hfollows hr hx hfirst hstep
    · exact absurd hany hmay
    · have hσ : d.Grounds f.method σ := htree.grounds (.inl rfl)
      have haden' := haden.mono fun _ _ _ => Tree.gives_of_givesBy
      exact absurd (hoverlap a ha)
        (Pattern.overlaps_of_denotes hd.names hm hσ (htree.sorted hd) hden haden')

end FirstTouch

theorem Domain.Executes.holds_of_le {d : Domain} {plan : List Call} {states : ℕ → State}
    (h : d.Executes plan states) {l : Literal} {i j : ℕ} (hij : i ≤ j) (hj : j ≤ plan.length)
    (hl : l.Holds (states j)) (hno : ∀ k, i ≤ k → k < j → ∀ c, plan[k]? = some c → l ∉ d.effects c) :
    l.Holds (states i) := by
  induction j, hij using Nat.le_induction with
  | base => exact hl
  | succ j hij ih =>
    have hc : plan[j]? = some plan[j] := List.getElem?_eq_getElem (Nat.lt_of_succ_le hj)
    have hlj : l.Holds (states j) := by
      by_contra hn
      exact hno j hij (Nat.lt_succ_self j) _ hc ((h j _ hc).effects l hn hl)
    exact ih (Nat.le_of_succ_le hj) hlj fun k hik hkj => hno k hik (Nat.lt_succ_of_lt hkj)

/-- What a sweep infers for a method holds in every state from which a plan that does what the
method does can be executed, also if tasks of unordered steps take turns. -/
theorem inferred_holds {d : Domain} (hd : d.WellFormed) {top predicate : String} {positive : Bool}
    {w : Sweep} (hw : d.sweep top predicate positive = .ok w) {f : Finding} (hf : f ∈ w.findings)
    {truth : Literal → Prop} {plan : List Call} {σ : Valuation} {below : Step → Tree}
    (htree : (Tree.node f.method σ below).Valid d truth plan)
    (hplan : (Tree.node f.method σ below).positions = {i | i < plan.length})
    {states : ℕ → State} (hstates : d.Executes plan states) :
    ∀ p ∈ f.inferred, ∃ names, p = .ofNames names ∧
      Literal.Holds { predicate, positive, arguments := names.map σ } (states 0) := by
  intro p hp
  obtain ⟨seen, -, hwalked⟩ := walked_of_sweepAlong (sweep_eq_ok hw)
  obtain ⟨names, rfl, x, hx, e, he, hpre, hfirst⟩ := hwalked.inferred_needed hd hf htree hp
  refine ⟨names, rfl, ?_⟩
  rw [hplan] at hx
  have hholds := (hstates x e he).preconditions _ hpre
  apply hstates.holds_of_le (Nat.zero_le x) (Nat.le_of_lt hx) hholds
  intro k _ hkx c hc heff
  exact hfirst k (hplan ▸ Nat.lt_trans hkx hx) hkx c hc (.inr heff)

def byHand : Method where
  name := "by_hand"
  task := "fetch"
  taskArguments := ["z"]
  declarations := [{ name := "z", sort := "thing" }]
  steps := [{ id := "s", task := "pick", arguments := ["z"] }]

def fetching : Domain where
  sorts := { entries := [("thing", NameSet.ofList ["cup"])] }
  predicates := [{ name := "free", argumentSorts := ["thing"] }]
  primitiveTasks := [
    { Task.ofParameters "pick" [{ name := "x", sort := "thing" }] with
      preconditions := [{ predicate := "free", positive := true, arguments := ["x"] }]
      effects := [{ predicate := "free", positive := false, arguments := ["x"] }] }]
  abstractTasks := [Task.ofParameters "fetch" [{ name := "y", sort := "thing" }]]
  methods := [byHand]

def upAndDown : Method where
  name := "up_and_down"
  task := "move"
  taskArguments := ["z"]
  declarations := [{ name := "z", sort := "thing" }]
  steps := [{ id := "up", task := "pick", arguments := ["z"] },
    { id := "down", task := "drop", arguments := ["z"] }]
  ordering := [("up", "down")]

def oneByOne : Method where
  name := "one_by_one"
  task := "clear"
  taskArguments := ["a", "b"]
  declarations := [{ name := "a", sort := "thing" }, { name := "b", sort := "thing" }]
  steps := [{ id := "first", task := "move", arguments := ["a"] },
    { id := "last", task := "pick", arguments := ["b"] }]
  ordering := [("first", "last")]

def clearing : Domain :=
  { fetching with
    sorts := { entries := [("thing", NameSet.ofList ["cup", "jug"])] }
    primitiveTasks := fetching.primitiveTasks ++ [
      { Task.ofParameters "drop" [{ name := "x", sort := "thing" }] with
        effects := [{ predicate := "free", positive := true, arguments := ["x"] }] }]
    abstractTasks := [
      Task.ofParameters "clear"
        [{ name := "x", sort := "thing" }, { name := "y", sort := "thing" }],
      Task.ofParameters "move" [{ name := "x", sort := "thing" }]]
    methods := [oneByOne, upAndDown] }

def callOn (task thing : String) : Call := { task, constants := [thing] }

def moveCup : Tree := .node upAndDown (fun _ => "cup") fun s =>
  if s.id = "up" then .leaf (callOn "pick" "cup") 0 else .leaf (callOn "drop" "cup") 1

def cupAndJug : Valuation := fun v => if v = "a" then "cup" else "jug"

def clearTable : Tree := .node oneByOne cupAndJug fun s =>
  if s.id = "first" then moveCup else .leaf (callOn "pick" "jug") 2

def clearPlan : List Call := [callOn "pick" "cup", callOn "drop" "cup", callOn "pick" "jug"]

theorem wellFormed_clearing : clearing.WellFormed := ⟨by decide, by decide, by decide, by decide⟩

theorem isInstance_clearing {thing : String} (h : thing ∈ ["cup", "jug"]) :
    clearing.IsInstance "thing" thing :=
  ⟨NameSet.ofList ["cup", "jug"], rfl, mem_increasing.2 h⟩

theorem valid_moveCup : moveCup.Valid clearing (fun _ => True) clearPlan := by
  refine Tree.valid_of_pair (by decide) (by decide) (fun v hv => ?_) (fun _ _ => trivial) rfl
    (by decide) ⟨rfl, rfl, (by decide : clearing.IsPrimitive "pick")⟩
    ⟨rfl, rfl, (by decide : clearing.IsPrimitive "drop")⟩ fun i hi j hj => ?_
  · obtain rfl := List.mem_singleton.1 hv
    exact isInstance_clearing (by decide)
  · obtain rfl : i = 0 := hi
    obtain rfl : j = 1 := hj
    exact Nat.zero_lt_one

theorem positions_moveCup (i : ℕ) : i ∈ moveCup.positions ↔ i = 0 ∨ i = 1 := by
  simp [moveCup, Tree.positions, upAndDown]

theorem valid_clearTable : clearTable.Valid clearing (fun _ => True) clearPlan := by
  refine Tree.valid_of_pair (by decide) (by decide) (fun v hv => ?_) (fun _ _ => trivial) rfl
    (by decide) ⟨rfl, valid_moveCup⟩ ⟨rfl, rfl, (by decide : clearing.IsPrimitive "pick")⟩
    fun i hi j hj => ?_
  · obtain rfl | hv := List.mem_cons.1 hv
    · exact isInstance_clearing (by decide)
    · obtain rfl := List.mem_singleton.1 hv
      exact isInstance_clearing (by decide)
  · obtain rfl : j = 2 := hj
    obtain rfl | rfl := (positions_moveCup i).1 hi
    · exact Nat.zero_lt_two
    · exact Nat.one_lt_two

theorem positions_clearTable : clearTable.positions = {i | i < clearPlan.length} := by
  ext i
  have hpositions : i ∈ clearTable.positions ↔ (i = 0 ∨ i = 1) ∨ i = 2 := by
    simp [clearTable, Tree.positions, oneByOne, positions_moveCup]
  have hlt : i < 3 ↔ (i = 0 ∨ i = 1) ∨ i = 2 := by omega
  exact hpositions.trans hlt.symm

def freeAtom (thing : String) : Atom := { predicate := "free", arguments := [thing] }

theorem executable_clearPlan :
    clearing.Executable clearPlan {freeAtom "cup", freeAtom "jug"} := by
  have hpick (thing : String) : clearing.preconditions (callOn "pick" thing)
      = [{ predicate := "free", positive := true, arguments := [thing] }] := rfl
  have hdrop : clearing.preconditions (callOn "drop" "cup") = [] := rfl
  have hpicked (thing : String) : clearing.effects (callOn "pick" thing)
      = [{ predicate := "free", positive := false, arguments := [thing] }] := rfl
  have hdropped (thing : String) : clearing.effects (callOn "drop" thing)
      = [{ predicate := "free", positive := true, arguments := [thing] }] := rfl
  simp [Domain.Executable, clearPlan, hpick, hdrop, hpicked, hdropped, Domain.result,
    Literal.Holds, Literal.atom, freeAtom]

theorem inferred_holds_clearing : ∃ w, clearing.sweep "clear" "free" true = .ok w ∧
    ∃ f ∈ w.findings, f.method = oneByOne ∧ [.name "a"] ∈ f.inferred ∧ [.name "b"] ∈ f.inferred ∧
      ∀ p ∈ f.inferred, ∃ names, p = .ofNames names ∧
        Literal.Holds { predicate := "free", positive := true, arguments := names.map cupAndJug }
          {freeAtom "cup", freeAtom "jug"} := by
  obtain ⟨w, hw, f, hf, hmethod, ha, hb⟩ : ∃ w, clearing.sweep "clear" "free" true = .ok w ∧
      ∃ f ∈ w.findings, f.method = oneByOne ∧ [.name "a"] ∈ f.inferred ∧ [.name "b"] ∈ f.inferred :=
    ⟨_, rfl, by decide +kernel⟩
  have htree := valid_clearTable
  have hplan := positions_clearTable
  rw [clearTable, ← hmethod] at htree hplan
  exact ⟨w, hw, f, hf, hmethod, ha, hb,
    inferred_holds wellFormed_clearing hw hf htree hplan executable_clearPlan.executes⟩

end TaskNetwork
