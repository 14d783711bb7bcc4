import TaskNetwork.Proofs.Cutting
import TaskNetwork.Proofs.Decomposition

namespace TaskNetwork

def Step.ground (σ : Valuation) (s : Step) : Step := { s with arguments := s.arguments.map σ }

namespace Domain

/-- With constants for its variables that make its constraints true, the method does its task for
these constants by these steps in this order. -/
def Grounding (d : Domain) (truth : Literal → Prop) (m : Method) (constants : List String)
    (steps : List Step) : Prop :=
  ∃ σ order, d.Grounds m σ ∧ (∀ c ∈ m.constraints, truth (c.ground σ)) ∧ m.Linearizes order ∧
    constants = m.taskArguments.map σ ∧ steps = order.map (·.ground σ)

/-- Steps for tasks that are not among the given ones are replaced by the steps of a method for the
task, and so on. -/
inductive Unfolds (d : Domain) (truth : Literal → Prop) (given : List String) :
    List Step → List Step → Prop
  | nil : Unfolds d truth given [] []
  | keep {s : Step} {top steps : List Step} (hs : s.task ∈ given)
      (h : Unfolds d truth given top steps) : Unfolds d truth given (s :: top) (s :: steps)
  | replace {s : Step} {m : Method} {inner outer top steps : List Step} (hs : s.task ∉ given)
      (hm : m ∈ d.methods) (htask : m.task = s.task)
      (hinner : d.Grounding truth m s.arguments inner) (houter : Unfolds d truth given inner outer)
      (h : Unfolds d truth given top steps) : Unfolds d truth given (s :: top) (outer ++ steps)

/-- There is a constant for each variable that the method declares and does not use. -/
def Inhabits (d : Domain) (m : Method) : Prop :=
  ∀ v ∈ m.declarations, v.name ∉ m.usedNames → ∃ c, d.IsInstance v.sort c

variable {d : Domain} {truth : Literal → Prop} {given : List String} {m : Method}
  {constants : List String} {top steps : List Step}

theorem unfolds_of_given (h : ∀ s ∈ top, s.task ∈ given) :
    d.Unfolds truth given top steps ↔ steps = top := by
  induction top generalizing steps with
  | nil =>
    refine ⟨fun hsteps => by cases hsteps; rfl, ?_⟩
    rintro rfl
    exact .nil
  | cons s top ih =>
    obtain ⟨hs, htop⟩ := List.forall_mem_cons.1 h
    constructor
    · intro hsteps
      cases hsteps with
      | keep _ hrest => rw [(ih htop).1 hrest]
      | replace hnew _ _ _ _ _ => exact absurd hs hnew
    · rintro rfl
      exact .keep hs ((ih htop).2 rfl)

theorem unfolds_singleton {t : Step} (ht : t.task ∉ given) :
    d.Unfolds truth given [t] steps ↔ ∃ m ∈ d.methods, m.task = t.task ∧
      ∃ inner, d.Grounding truth m t.arguments inner ∧ d.Unfolds truth given inner steps := by
  constructor
  · intro h
    cases h with
    | keep hgiven _ => exact absurd hgiven ht
    | @replace _ m inner outer _ rest _ hm htask hinner houter hrest =>
      cases hrest
      rw [List.append_nil]
      exact ⟨m, hm, htask, inner, hinner, houter⟩
  · rintro ⟨m, hm, htask, inner, hinner, houter⟩
    have h := Unfolds.replace ht hm htask hinner houter .nil
    rwa [List.append_nil] at h

theorem Grounding.exists_step (h : d.Grounding truth m constants steps) {s : Step}
    (hs : s ∈ steps) : ∃ r ∈ m.steps, r.task = s.task := by
  obtain ⟨σ, order, -, -, horder, -, rfl⟩ := h
  obtain ⟨r, hr, rfl⟩ := List.mem_map.1 hs
  exact ⟨r, horder.perm.mem_iff.1 hr, rfl⟩

theorem grounding_of_inListOrder (horder : m.InListOrder) (hnodup : m.stepIds.Nodup) :
    d.Grounding truth m constants steps ↔ ∃ σ, d.Grounds m σ ∧
      (∀ c ∈ m.constraints, truth (c.ground σ)) ∧ constants = m.taskArguments.map σ ∧
      steps = m.steps.map (·.ground σ) := by
  simp only [Grounding, horder.linearizes_iff hnodup]
  constructor
  · rintro ⟨σ, _, hσ, htruth, rfl, hconstants, hsteps⟩
    exact ⟨σ, hσ, htruth, hconstants, hsteps⟩
  · rintro ⟨σ, hσ, htruth, hconstants, hsteps⟩
    exact ⟨σ, m.steps, hσ, htruth, rfl, hconstants, hsteps⟩

theorem Inhabits.exists_grounds (hd : d.Inhabits m) (hm : m.variableNames.Nodup) {σ : Valuation}
    (hσ : ∀ v ∈ m.declarations, v.name ∈ m.usedNames → d.IsInstance v.sort (σ v.name)) :
    ∃ τ, d.Grounds m τ ∧ ∀ a ∈ m.usedNames, τ a = σ a := by
  have hsome : ∀ v : TypedName, ∃ x, v ∈ m.declarations → v.name ∉ m.usedNames →
      d.IsInstance v.sort x := by
    intro v
    by_cases h : v ∈ m.declarations ∧ v.name ∉ m.usedNames
    · obtain ⟨x, hx⟩ := hd v h.1 h.2
      exact ⟨x, fun _ _ => hx⟩
    · exact ⟨"", fun hv hused => absurd ⟨hv, hused⟩ h⟩
  choose other hother using hsome
  let τ : Valuation := fun a =>
    if a ∈ m.usedNames then σ a else ((m.declarations.find? (·.name = a)).map other).getD ""
  refine ⟨τ, fun v hv => ?_, fun a ha => if_pos ha⟩
  by_cases hused : v.name ∈ m.usedNames
  · have hτ : τ v.name = σ v.name := if_pos hused
    rw [hτ]
    exact hσ v hv hused
  · have hfind : m.declarations.find? (·.name = v.name) = some v :=
      (find?_eq_some_of_nodup_map hm).2 ⟨hv, rfl⟩
    have hτ : τ v.name = other v := by
      simp only [τ, if_neg hused, hfind, Option.map_some, Option.getD_some]
    rw [hτ]
    exact hother v hv hused

end Domain

namespace Method

variable {d : Domain} {truth : Literal → Prop} {m : Method} {taskName restName : String}
  {first second : Step} {later : List Step} {constants : List String} {steps : List Step}

theorem ground_congr {c : Literal} {σ τ : Valuation} (h : ∀ a ∈ c.arguments, σ a = τ a) :
    c.ground σ = c.ground τ := by
  rw [Literal.ground, Literal.ground, List.map_congr_left h]

theorem step_ground_congr {s : Step} {σ τ : Valuation} (h : ∀ a ∈ s.arguments, σ a = τ a) :
    s.ground σ = s.ground τ := by
  rw [Step.ground, Step.ground, List.map_congr_left h]

theorem mem_headConstraints {c : Literal} :
    c ∈ (m.cut taskName restName first second later).head.constraints ↔ c ∈ m.constraints ∧
      ¬belongsToRest first.arguments ((second :: later).flatMap (·.arguments)) c := by
  simp [cut]

theorem mem_restConstraints {c : Literal} :
    c ∈ (m.cut taskName restName first second later).rest.constraints ↔ c ∈ m.constraints ∧
      belongsToRest first.arguments ((second :: later).flatMap (·.arguments)) c := by
  simp [cut]

theorem Splits.headUses_or (h : m.Splits first second later) {a : String} (ha : a ∈ m.usedNames) :
    m.HeadUses first ((second :: later).flatMap (·.arguments)) a ∨
      a ∈ (second :: later).flatMap (·.arguments) := by
  rw [usedNames, h.steps, List.flatMap_cons] at ha
  obtain ha | ha := List.mem_append.1 ha
  · obtain ha | ha := List.mem_append.1 ha
    · exact .inl (.inl ha)
    · obtain ha | ha := List.mem_append.1 ha
      · exact .inl (.inr (.inl ha))
      · exact .inr ha
  · obtain ⟨c, hc, ha⟩ := List.mem_flatMap.1 ha
    by_cases hrest : belongsToRest first.arguments ((second :: later).flatMap (·.arguments)) c
    · exact .inr (mem_of_belongsToRest hrest a ha)
    · exact .inl (.inr (.inr ⟨c, hc, hrest, ha⟩))

theorem cut_head_steps : (m.cut taskName restName first second later).head.steps =
    [first, { id := second.id, task := taskName, arguments :=
      (m.cut taskName restName first second later).task.parameterNames }] := rfl

theorem Splits.exists_merged (h : m.Splits first second later) (hd : d.Inhabits m)
    {σ τ : Valuation} (hσ : d.Grounds (m.cut taskName restName first second later).head σ)
    (hτ : d.Grounds (m.cut taskName restName first second later).rest τ)
    (hshared : ∀ a ∈ (m.cut taskName restName first second later).task.parameterNames,
      σ a = τ a) :
    ∃ υ, d.Grounds m υ ∧
      (∀ a ∈ m.usedNames, m.HeadUses first ((second :: later).flatMap (·.arguments)) a →
        υ a = σ a) ∧
      ∀ a ∈ (second :: later).flatMap (·.arguments), υ a = τ a := by
  let ρ : Valuation := fun a => if a ∈ (second :: later).flatMap (·.arguments) then τ a else σ a
  have hρrest : ∀ a ∈ (second :: later).flatMap (·.arguments), ρ a = τ a := fun a ha => if_pos ha
  have hρhead : ∀ a ∈ m.usedNames,
      m.HeadUses first ((second :: later).flatMap (·.arguments)) a → ρ a = σ a := by
    intro a hused huse
    by_cases ha : a ∈ (second :: later).flatMap (·.arguments)
    · obtain ⟨v, hv, rfl⟩ := h.declared hused
      have hparameter : v ∈ (m.cut taskName restName first second later).task.parameters :=
        mem_cut_task.2 ⟨mem_cut_head.2 ⟨hv, huse⟩, ha⟩
      rw [hρrest _ ha]
      exact (hshared _ (List.mem_map_of_mem hparameter)).symm
    · exact if_neg ha
  have hρ : ∀ v ∈ m.declarations, v.name ∈ m.usedNames → d.IsInstance v.sort (ρ v.name) := by
    intro v hv hused
    obtain huse | ha := h.headUses_or hused
    · rw [hρhead _ hused huse]
      exact hσ v (mem_cut_head.2 ⟨hv, huse⟩)
    · rw [hρrest _ ha]
      exact hτ v (mem_cut_rest.2 ⟨hv, ha⟩)
  obtain ⟨υ, hυ, hagree⟩ := hd.exists_grounds h.consistent.nodup_variables hρ
  refine ⟨υ, hυ, fun a hused huse => ?_, fun a ha => ?_⟩
  · exact (hagree a hused).trans (hρhead a hused huse)
  · exact (hagree a (h.mem_usedNames (.inr ha))).trans (hρrest a ha)

/-- A chain can be grounded just if both methods can that it is cut into, with the same constants for
the task between them. -/
theorem Splits.grounding_iff (h : m.Splits first second later) (hd : d.Inhabits m)
    (taskName restName : String) :
    d.Grounding truth m constants steps ↔ ∃ s t rest, steps = s :: rest ∧ s.task = first.task ∧
      t.task = taskName ∧
      d.Grounding truth (m.cut taskName restName first second later).head constants [s, t] ∧
      d.Grounding truth (m.cut taskName restName first second later).rest t.arguments rest := by
  have hhead := h.consistent_head taskName restName
  have hrest := h.consistent_rest taskName restName
  have hheadOrder : (m.cut taskName restName first second later).head.InListOrder := rfl
  rw [Domain.grounding_of_inListOrder h.inListOrder h.consistent.nodup_steps]
  simp only [Domain.grounding_of_inListOrder hheadOrder hhead.nodup_steps,
    Domain.grounding_of_inListOrder h.inListOrder_rest hrest.nodup_steps]
  constructor
  · rintro ⟨σ, hσ, htruth, rfl, rfl⟩
    refine ⟨first.ground σ, Step.ground σ { id := second.id, task := taskName, arguments :=
      (m.cut taskName restName first second later).task.parameterNames },
      (second :: later).map (·.ground σ), ?_, rfl, rfl, ⟨σ, ?_, ?_, rfl, rfl⟩, σ, ?_, ?_, rfl, rfl⟩
    · rw [h.steps, List.map_cons]
    · exact fun v hv => hσ v (mem_cut_head.1 hv).1
    · exact fun c hc => htruth c (mem_headConstraints.1 hc).1
    · exact fun v hv => hσ v (mem_cut_rest.1 hv).1
    · exact fun c hc => htruth c (mem_restConstraints.1 hc).1
  · rintro ⟨s, t, rest, rfl, -, -, ⟨σ, hσ, hσtruth, rfl, hst⟩, τ, hτ, hτtruth, ht, rfl⟩
    simp only [cut_head_steps, List.map_cons, List.map_nil, List.cons.injEq, and_true] at hst
    obtain ⟨rfl, rfl⟩ := hst
    obtain ⟨υ, hυ, hυhead, hυrest⟩ := h.exists_merged hd hσ hτ (List.map_inj_left.1 ht)
    refine ⟨υ, hυ, fun c hc => ?_, ?_, ?_⟩
    · by_cases hc' : belongsToRest first.arguments ((second :: later).flatMap (·.arguments)) c
      · rw [ground_congr fun a ha => hυrest a (mem_of_belongsToRest hc' a ha)]
        exact hτtruth c (mem_restConstraints.2 ⟨hc, hc'⟩)
      · have hused : ∀ a ∈ c.arguments, a ∈ m.usedNames := fun a ha =>
          List.mem_append_right _ (List.mem_flatMap.2 ⟨c, hc, ha⟩)
        rw [ground_congr fun a ha => hυhead a (hused a ha) (.inr (.inr ⟨c, hc, hc', ha⟩))]
        exact hσtruth c (mem_headConstraints.2 ⟨hc, hc'⟩)
    · refine List.map_congr_left fun a ha => (hυhead a ?_ (.inl ha)).symm
      exact List.mem_append_left _ (List.mem_append_left _ ha)
    · have hfirst : first.ground υ = first.ground σ := step_ground_congr fun a ha =>
        hυhead a (h.mem_usedNames (.inl ha)) (.inr (.inl ha))
      have hlater : ∀ s ∈ second :: later, s.ground υ = s.ground τ := fun s hs =>
        step_ground_congr fun a ha => hυrest a (List.mem_flatMap.2 ⟨s, hs, ha⟩)
      rw [h.steps, List.map_cons, hfirst, List.map_congr_left hlater]
      rfl

theorem Splits.inhabits_rest (taskName restName : String) :
    d.Inhabits (m.cut taskName restName first second later).rest := by
  intro v hv hunused
  refine absurd (List.mem_append_left _ (List.mem_append_right _ ?_)) hunused
  exact (mem_cut_rest.1 hv).2

end Method

def Domain.OneEach (d : Domain) (given : List String) : Prop :=
  ∀ r ∈ d.methods, ∀ r' ∈ d.methods, r.task = r'.task → r.task ∉ given → r = r'

def Domain.SameGroundings (d : Domain) (given : List String) (m head : Method) : Prop :=
  ∀ truth constants steps, d.Grounding truth m constants steps ↔
    ∃ top, d.Grounding truth head constants top ∧ d.Unfolds truth given top steps

variable {d : Domain} {given taken : List String} {m : Method} {ms : List Method} {c : Cascade}

theorem Domain.sameGroundings_self (hm : ∀ s ∈ m.steps, s.task ∈ given) :
    d.SameGroundings given m m := by
  intro truth constants steps
  have htop : ∀ top, d.Grounding truth m constants top → ∀ s ∈ top, s.task ∈ given := by
    intro top h s hs
    obtain ⟨r, hr, htask⟩ := h.exists_step hs
    exact htask ▸ hm r hr
  constructor
  · exact fun h => ⟨steps, h, (Domain.unfolds_of_given (htop steps h)).2 rfl⟩
  · rintro ⟨top, h, hunfolds⟩
    rwa [(Domain.unfolds_of_given (htop top h)).1 hunfolds]

theorem Method.Splits.sameGroundings {first second : Step} {later : List Step}
    (h : m.Splits first second later) (hd : d.Inhabits m) {taskName restName : String}
    (hfirst : first.task ∈ given) (hnew : taskName ∉ given) (hone : d.OneEach given) {next : Method}
    (hnext : next ∈ d.methods) (htask : next.task = taskName)
    (hsame : d.SameGroundings given (m.cut taskName restName first second later).rest next) :
    d.SameGroundings given m (m.cut taskName restName first second later).head := by
  have hsingle : ∀ truth (t : Step) rest, t.task = taskName →
      (d.Unfolds truth given [t] rest ↔
        d.Grounding truth (m.cut taskName restName first second later).rest t.arguments rest) := by
    intro truth t rest ht
    rw [Domain.unfolds_singleton (ht ▸ hnew), hsame]
    constructor
    · rintro ⟨r, hr, hrt, hinner⟩
      have hnew' : r.task ∉ given := by rwa [hrt, ht]
      obtain rfl : r = next := hone r hr next hnext (hrt.trans (ht.trans htask.symm)) hnew'
      exact hinner
    · exact fun hinner => ⟨next, hnext, htask.trans ht.symm, hinner⟩
  intro truth constants steps
  rw [h.grounding_iff hd taskName restName]
  constructor
  · rintro ⟨s, t, rest, rfl, hs, ht, hhead, hrest⟩
    exact ⟨[s, t], hhead, .keep (hs ▸ hfirst) ((hsingle truth t rest ht).2 hrest)⟩
  · rintro ⟨top, hhead, hunfolds⟩
    have horder : (m.cut taskName restName first second later).head.InListOrder := rfl
    have hground := hhead
    rw [Domain.grounding_of_inListOrder horder (h.consistent_head _ _).nodup_steps,
      Method.cut_head_steps] at hground
    obtain ⟨σ, -, -, -, rfl⟩ := hground
    cases hunfolds with
    | keep _ hrest => exact ⟨_, _, _, rfl, rfl, rfl, hhead, (hsingle truth _ _ rfl).1 hrest⟩
    | replace hs _ _ _ _ _ => exact absurd hfirst hs

theorem Cascaded.sameGroundings (h : Cascaded taken m c) (hfault : c.fault? = none)
    (hgiven : ∀ n ∈ given, n ∈ taken) (hm : ∀ s ∈ m.steps, s.task ∈ given)
    (hmethods : ∀ r ∈ c.methods.tail, r ∈ d.methods) (hone : d.OneEach given)
    (hd : d.Inhabits m) {head : Method} (hhead : c.methods.head? = some head) :
    d.SameGroundings given m head := by
  induction h generalizing head with
  | short _ =>
    obtain rfl := Option.some.inj hhead
    exact Domain.sameGroundings_self hm
  | overflow _ _ => cases hfault
  | @cut taken m first second later c hsplits _ hrest ih =>
    obtain rfl := Option.some.inj hhead
    obtain ⟨next, rests, hnext, -, htask, -⟩ := hrest.exists_head hfault
    have hfirst : first.task ∈ given := hm first (hsplits.steps ▸ List.mem_cons_self)
    have hlater : ∀ s ∈ second :: later, s.task ∈ given := fun s hs =>
      hm s (hsplits.steps ▸ List.mem_cons_of_mem _ hs)
    have hnew : (m.nextCut taken first second later).task.name ∉ given :=
      fun hmem => Method.nextCut_task_notMem taken (hgiven _ hmem)
    refine hsplits.sameGroundings hd hfirst hnew hone
      (hmethods next (hnext ▸ List.mem_cons_self)) htask (ih hfault ?_ hlater ?_ ?_ ?_)
    · exact fun n hn => List.mem_cons_of_mem _ (hgiven n hn)
    · exact fun r hr => hmethods r (List.mem_of_mem_tail hr)
    · exact Method.Splits.inhabits_rest _ _
    · rw [hnext]
      rfl

theorem Method.grounding_chain? {chain : Method} (hm : m.Acyclic) (hc : m.Consistent)
    (h : m.chain? = some chain) {truth : Literal → Prop} {constants : List String}
    {steps : List Step} :
    d.Grounding truth m constants steps ↔ d.Grounding truth chain constants steps := by
  simp only [Domain.Grounding, Method.linearizes_chain? hm hc h]
  obtain ⟨rfl, -⟩ := Method.chain?_eq_some h
  rfl

theorem Domain.Inhabits.of_chain? {chain : Method} (hd : d.Inhabits m)
    (h : m.chain? = some chain) : d.Inhabits chain := by
  obtain ⟨rfl, -⟩ := Method.chain?_eq_some h
  intro v hv hunused
  refine hd v hv fun hused => hunused ?_
  simpa only [Method.usedNames, List.mem_append,
    (m.perm_stepsByRank.flatMap_right _).mem_iff] using hused

structure Domain.Heads (d : Domain) (given : List String) (m head : Method) : Prop where
  name : head.name = m.name
  task : head.task = m.task
  short : m.longChain? ≠ none → head.steps.length ≤ 2
  grounding : d.Inhabits m → d.SameGroundings given m head

theorem Cascaded.heads {chain : Method} (hc : Cascaded taken chain c) (hfault : c.fault? = none)
    (hgiven : ∀ n ∈ given, n ∈ taken) (hlong : m.longChain? = some chain) (hm : m.Consistent)
    (hacyclic : m.Acyclic) (htask : m.task ∈ given) (hsteps : ∀ s ∈ m.steps, s.task ∈ given)
    (hmethods : ∀ r ∈ c.methods, r ∈ d.methods) (hone : d.OneEach given) :
    ∃ head rests, c.methods = head :: rests ∧ rests.map (·.task) = c.tasks.map (·.name) ∧
      head.task ∈ given ∧ d.Heads given m head := by
  obtain ⟨-, hchain⟩ := Method.longChain?_eq_some hlong
  obtain ⟨head, rests, hhead, hname, hheadTask, hrests⟩ := hc.exists_head hfault
  have hchainName : chain.name = m.name ∧ chain.task = m.task ∧
      ∀ s ∈ chain.steps, s.task ∈ given := by
    obtain ⟨rfl, -⟩ := Method.chain?_eq_some hchain
    exact ⟨rfl, rfl, fun s hs => hsteps s (m.perm_stepsByRank.mem_iff.1 hs)⟩
  obtain ⟨hname', htask', hsteps'⟩ := hchainName
  refine ⟨head, rests, hhead, hrests, ?_, hname.trans hname', hheadTask.trans htask', fun _ => ?_,
    fun hd => ?_⟩
  · rwa [hheadTask, htask']
  · exact hc.length_steps head (hhead ▸ List.mem_cons_self)
  · have hsame := hc.sameGroundings hfault hgiven hsteps'
      (fun r hr => hmethods r (List.mem_of_mem_tail hr)) hone (hd.of_chain? hchain)
      (by rw [hhead]; rfl)
    exact fun truth constants steps =>
      (Method.grounding_chain? hacyclic hm hchain).trans (hsame truth constants steps)

theorem Cascaded.rest_task (h : Cascaded taken m c) (hgiven : ∀ n ∈ given, n ∈ taken)
    {rests : List Method} (hrests : rests.map (·.task) = c.tasks.map (·.name)) :
    ∀ r ∈ rests, r.task ∉ given := by
  intro r hr hmem
  have hnew : r.task ∈ c.tasks.map (·.name) := hrests ▸ List.mem_map_of_mem hr
  obtain ⟨t, ht, hname⟩ := List.mem_map.1 hnew
  exact h.notMem t ht (hname ▸ hgiven _ hmem)

section CascadedEach

variable (hgiven : ∀ n ∈ given, n ∈ taken)
  (hms : ∀ m ∈ ms, m.task ∈ given)
include hgiven hms

theorem CascadedEach.map_task (h : CascadedEach taken ms c) (hfault : c.fault? = none) :
    (c.methods.filter (·.task ∉ given)).map (·.task) = c.tasks.map (·.name) := by
  induction h with
  | nil => rfl
  | @keep taken m ms c _ _ ih =>
    obtain ⟨hm, hms⟩ := List.forall_mem_cons.1 hms
    rw [← ih hgiven hms hfault, List.filter_cons_of_neg (by simpa using hm)]
  | stop _ _ hfault' => rw [hfault'] at hfault; cases hfault
  | @cut taken m chain ms first c hlong hfirst hfault' _ ih =>
    obtain ⟨hm, hms⟩ := List.forall_mem_cons.1 hms
    obtain ⟨-, hchain⟩ := Method.longChain?_eq_some hlong
    have htask : chain.task = m.task := by
      obtain ⟨rfl, -⟩ := Method.chain?_eq_some hchain
      rfl
    obtain ⟨head, rests, hhead, -, hheadTask, hrests⟩ := hfirst.exists_head hfault'
    have hheadGiven : head.task ∈ given := by rwa [hheadTask, htask]
    have hall := hfirst.rest_task hgiven hrests
    have hrestsFilter : rests.filter (·.task ∉ given) = rests :=
      List.filter_eq_self.2 fun r hr => by simpa using hall r hr
    have hgiven' : ∀ n ∈ given, n ∈ first.tasks.map (·.name) ++ taken :=
      fun n hn => List.mem_append_right _ (hgiven n hn)
    rw [hhead, List.cons_append, List.filter_cons_of_neg (by simpa using hheadGiven),
      List.filter_append, hrestsFilter, List.map_append, List.map_append, hrests,
      ih hgiven' hms hfault]

theorem CascadedEach.heads (h : CascadedEach taken ms c) (hfault : c.fault? = none)
    (hconsistent : ∀ m ∈ ms, m.Consistent) (hacyclic : ∀ m ∈ ms, m.Acyclic)
    (hsteps : ∀ m ∈ ms, ∀ s ∈ m.steps, s.task ∈ given)
    (hmethods : ∀ r ∈ c.methods, r ∈ d.methods) (hone : d.OneEach given) :
    List.Forall₂ (d.Heads given) ms (c.methods.filter (·.task ∈ given)) := by
  induction h with
  | nil => exact .nil
  | @keep taken m ms c hlong _ ih =>
    obtain ⟨hm, hms⟩ := List.forall_mem_cons.1 hms
    rw [List.forall_mem_cons] at hconsistent hacyclic hsteps hmethods
    rw [List.filter_cons_of_pos (by simpa using hm)]
    refine .cons ⟨rfl, rfl, fun hne => absurd hlong hne, fun _ => ?_⟩
      (ih hgiven hms hfault hconsistent.2 hacyclic.2 hsteps.2 hmethods.2)
    exact Domain.sameGroundings_self hsteps.1
  | stop _ _ hfault' => rw [hfault'] at hfault; cases hfault
  | @cut taken m chain ms first c hlong hfirst hfault' _ ih =>
    obtain ⟨hm, hms⟩ := List.forall_mem_cons.1 hms
    rw [List.forall_mem_cons] at hconsistent hacyclic hsteps
    have hmethods' : (∀ r ∈ first.methods, r ∈ d.methods) ∧ ∀ r ∈ c.methods, r ∈ d.methods :=
      ⟨fun r hr => hmethods r (List.mem_append_left _ hr),
        fun r hr => hmethods r (List.mem_append_right _ hr)⟩
    obtain ⟨head, rests, hhead, hrests, hheadGiven, hheads⟩ := hfirst.heads hfault' hgiven hlong
      hconsistent.1 hacyclic.1 hm hsteps.1 hmethods'.1 hone
    have hall := hfirst.rest_task hgiven hrests
    have hrestsFilter : rests.filter (·.task ∈ given) = [] :=
      List.filter_eq_nil_iff.2 fun r hr => by simpa using hall r hr
    have hgiven' : ∀ n ∈ given, n ∈ first.tasks.map (·.name) ++ taken :=
      fun n hn => List.mem_append_right _ (hgiven n hn)
    rw [hhead, List.cons_append, List.filter_cons_of_pos (by simpa using hheadGiven),
      List.filter_append, hrestsFilter, List.nil_append]
    exact .cons hheads
      (ih hgiven' hms hfault hconsistent.2 hacyclic.2 hsteps.2 hmethods'.2)

end CascadedEach

section Regularize

variable (hfits : ∀ m ∈ d.methods, d.Fits m)
  (hfault : (cascades (d.tasks.map (·.name)) d.methods).fault? = none)
include hfits

theorem Domain.cascadedEach : CascadedEach (d.tasks.map (·.name)) d.methods
    (cascades (d.tasks.map (·.name)) d.methods) :=
  cascadedEach_cascades fun m hm => (hfits m hm).consistent

theorem Domain.task_mem_names : ∀ m ∈ d.methods, m.task ∈ d.tasks.map (·.name) :=
  fun m hm => (hfits m hm).task.mem_names

theorem Domain.fault?_cascades (hrun : d.regularize.2 ≠ .error .overflow) :
    (cascades (d.tasks.map (·.name)) d.methods).fault? = none := by
  refine (d.cascadedEach hfits).fault.resolve_right fun hoverflow => hrun ?_
  simp [Domain.regularize, hoverflow]

include hfault

theorem Domain.map_task_regularize :
    (d.regularize.1.methods.filter (·.task ∉ d.tasks.map (·.name))).map (·.task) =
      (cascades (d.tasks.map (·.name)) d.methods).tasks.map (·.name) :=
  (d.cascadedEach hfits).map_task (fun _ hn => hn) (d.task_mem_names hfits) hfault

theorem Domain.oneEach_regularize : d.regularize.1.OneEach (d.tasks.map (·.name)) := by
  intro r hr r' hr' htask hnew
  have hnodup := (d.cascadedEach hfits).nodup
  rw [← d.map_task_regularize hfits hfault] at hnodup
  have hnew' : r'.task ∉ d.tasks.map (·.name) := htask ▸ hnew
  exact eq_of_nodup_map hnodup (List.mem_filter.2 ⟨hr, decide_eq_true hnew⟩)
    (List.mem_filter.2 ⟨hr', decide_eq_true hnew'⟩) htask

theorem Domain.existsUnique_method {t : Task} (ht : t ∈ d.regularize.1.tasks)
    (hnew : t.name ∉ d.tasks.map (·.name)) :
    ∃! r, r ∈ d.regularize.1.methods ∧ r.task = t.name := by
  have hmem : t.name ∈ (cascades (d.tasks.map (·.name)) d.methods).tasks.map (·.name) := by
    obtain ht | ht := List.mem_append.1 ht
    · exact absurd (List.mem_map_of_mem (List.mem_append_left _ ht)) hnew
    · obtain ht | ht := List.mem_append.1 ht
      · exact absurd (List.mem_map_of_mem (List.mem_append_right _ ht)) hnew
      · exact List.mem_map_of_mem ht
  rw [← d.map_task_regularize hfits hfault] at hmem
  obtain ⟨r, hr, htask⟩ := List.mem_map.1 hmem
  have hr : r ∈ d.regularize.1.methods := (List.mem_filter.1 hr).1
  refine ⟨r, ⟨hr, htask⟩, fun r' ⟨hr', htask'⟩ => ?_⟩
  exact d.oneEach_regularize hfits hfault r' hr' r hr (htask'.trans htask.symm) (htask' ▸ hnew)

end Regularize

/-- The methods that do the tasks from before stand for the methods from before, in order, and what
these can be grounded to is what those can be grounded to with steps for new tasks replaced. -/
theorem regularize_groundings (hd : ∀ m ∈ d.methods, d.checkMethod m = .ok ())
    (hacyclic : ∀ m ∈ d.methods, m.Acyclic) (hrun : d.regularize.2 ≠ .error .overflow) :
    (∃ report, d.regularize.2 = .ok report) ∧
    (∀ t ∈ d.regularize.1.tasks, t.name ∉ d.tasks.map (·.name) →
      ∃! r, r ∈ d.regularize.1.methods ∧ r.task = t.name) ∧
    List.Forall₂ (fun m head => head.name = m.name ∧ head.task = m.task ∧
        (m.longChain? ≠ none → head.steps.length ≤ 2) ∧
        (d.Inhabits m → ∀ truth constants steps, d.Grounding truth m constants steps ↔
          ∃ top, d.regularize.1.Grounding truth head constants top ∧
            d.regularize.1.Unfolds truth (d.tasks.map (·.name)) top steps))
      d.methods (d.regularize.1.methods.filter (·.task ∈ d.tasks.map (·.name))) := by
  have hfits : ∀ m ∈ d.methods, d.Fits m := fun m hm => Domain.checkMethod_eq_ok.1 (hd m hm)
  have hfault := d.fault?_cascades hfits hrun
  refine ⟨⟨_, by simp [Domain.regularize, hfault]; rfl⟩,
    fun t ht hnew => d.existsUnique_method hfits hfault ht hnew, ?_⟩
  have hheads := (d.cascadedEach hfits).heads (fun _ hn => hn) (d.task_mem_names hfits) hfault
    (fun m hm => (hfits m hm).consistent) hacyclic
    (fun m hm s hs => ((hfits m hm).steps s hs).mem_names) (fun r hr => hr)
    (d.oneEach_regularize hfits hfault)
  exact hheads.imp fun m head h => ⟨h.name, h.task, h.short, h.grounding⟩

def byVan : Method where
  name := "by_van"
  task := "deliver"
  taskArguments := ["from", "to"]
  declarations := [{ name := "from", sort := "place" }, { name := "to", sort := "place" },
    { name := "box", sort := "thing" }, { name := "spare", sort := "thing" }]
  steps := [{ id := "unload", task := "drop", arguments := ["box", "to"] },
    { id := "move", task := "drive", arguments := ["from", "to"] },
    { id := "load", task := "pick", arguments := ["box", "from"] },
    { id := "start", task := "walk", arguments := ["from"] }]
  ordering := [("start", "load"), ("load", "move"), ("move", "unload")]
  constraints := [{ predicate := "near", positive := true, arguments := ["from", "to"] },
    { predicate := "fits", positive := true, arguments := ["box"] }]

def delivery : Domain where
  sorts := { entries := [("place", NameSet.ofList ["hall", "yard"]),
    ("thing", NameSet.ofList ["crate"])] }
  primitiveTasks := [
    Task.ofParameters "walk" [{ name := "at", sort := "place" }],
    Task.ofParameters "pick" [{ name := "box", sort := "thing" }, { name := "at", sort := "place" }],
    Task.ofParameters "drive"
      [{ name := "from", sort := "place" }, { name := "to", sort := "place" }],
    Task.ofParameters "drop" [{ name := "box", sort := "thing" }, { name := "at", sort := "place" }]]
  abstractTasks := [Task.ofParameters "deliver"
    [{ name := "from", sort := "place" }, { name := "to", sort := "place" }]]
  methods := [byVan]

theorem longChain?_byVan : byVan.longChain? = some { byVan with
    steps := byVan.steps.reverse
    ordering := byVan.ordering } := by
  have hsteps : byVan.stepsByRank = byVan.steps.reverse :=
    Method.stepsByRank_eq byVan.steps.reverse_perm (by decide)
  rw [Method.longChain?, Method.chain?, hsteps]
  decide

theorem regular_delivery : (∀ m ∈ delivery.methods, delivery.checkMethod m = .ok ()) ∧
    (∀ m ∈ delivery.methods, m.Acyclic) ∧ delivery.regularize.2 ≠ .error .overflow := by
  refine ⟨by decide, fun m hm => ?_, ?_⟩
  · obtain rfl := List.mem_singleton.1 hm
    rw [Method.acyclic_iff]
    decide
  · simp only [Domain.regularize, delivery, cascades, longChain?_byVan]
    decide +kernel

theorem regularize_groundings_delivery :
    ((∀ m ∈ delivery.methods, delivery.checkMethod m = .ok ()) ∧
      (∀ m ∈ delivery.methods, m.Acyclic) ∧ delivery.regularize.2 ≠ .error .overflow) ∧
    ∃ head ∈ delivery.regularize.1.methods, head.name = "by_van" ∧ head.steps.length ≤ 2 ∧
      ∀ truth constants steps,
        delivery.Grounding truth byVan constants steps ↔
          ∃ top, delivery.regularize.1.Grounding truth head constants top ∧
            delivery.regularize.1.Unfolds truth (delivery.tasks.map (·.name)) top steps := by
  obtain ⟨hd, hacyclic, hrun⟩ := regular_delivery
  have hinhabits : delivery.Inhabits byVan := by
    intro v hv hunused
    have hsort : v.sort = "place" ∨ v.sort = "thing" := by
      revert v
      decide
    obtain h | h := hsort <;> rw [h]
    · exact ⟨"hall", _, rfl, by decide⟩
    · exact ⟨"crate", _, rfl, by decide⟩
  obtain ⟨-, -, hheads⟩ := regularize_groundings hd hacyclic hrun
  obtain ⟨head, rest, ⟨hname, -, hshort, hgroundings⟩, -, heq⟩ :=
    List.forall₂_cons_left_iff.1 hheads
  have hhead : head ∈ delivery.regularize.1.methods :=
    (List.mem_filter.1 (heq ▸ List.mem_cons_self)).1
  have hlong : byVan.longChain? ≠ none := by
    rw [longChain?_byVan]
    exact Option.some_ne_none _
  exact ⟨⟨hd, hacyclic, hrun⟩, head, hhead, hname, hshort hlong, hgroundings hinhabits⟩

end TaskNetwork
