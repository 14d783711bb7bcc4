import TaskNetwork.Proofs.CascadeShapes
import TaskNetwork.Proofs.InjectedSteps
import TaskNetwork.Proofs.Runs

namespace TaskNetwork

open Relation

namespace Method

/-- The second method is the first one, with this check step before the other steps if there is one.
-/
def PrefacedIf (m : Method) : Option Step → Method → Prop
  | none, m' => m' = m
  | some s, m' => m.Prefaced s m' ∧ IsCheckTask s.task

variable {m m' : Method} {s : Step} {check : Option Step} {steps : List Step}

theorem Acyclic.checkedBy (hm : m.Acyclic) (hc : m.Consistent)
    (hid : newCheckStepMark ++ m.name ∉ m.stepIds) (t : Task) : (m.checkedBy t).Acyclic := by
  intro a hcycle
  by_cases ha : a = newCheckStepMark ++ m.name
  · obtain ⟨b, -, hlast⟩ := TransGen.tail'_iff.1 hcycle
    obtain hlast | hlast := List.mem_append.1 hlast
    · exact hid (ha ▸ (hc.ordered _ hlast).2)
    · obtain ⟨r, hr, he⟩ := List.mem_map.1 hlast
      have hra : r.id = a := (Prod.mk.inj he).2
      exact hid (ha ▸ hra ▸ List.mem_map_of_mem hr)
  · exact hm a (before_checkedBy hc hid hcycle ha).1

theorem Prefaced.mem_steps (h : m.Prefaced s m') {a : Step} : a ∈ m'.steps ↔ a ∈ m.steps ∨ a = s := by
  obtain ⟨pairs, rfl⟩ := h.extended
  simp

theorem Prefaced.totallyOrdered_iff (h : m.Prefaced s m') :
    m'.TotallyOrdered ↔ m.TotallyOrdered := by
  constructor
  · intro htotal a ha b hb hab
    have hordered := htotal a (h.mem_steps.2 (.inl ha)) b (h.mem_steps.2 (.inl hb)) hab
    rwa [h.kept a ha b hb, h.kept b hb a ha] at hordered
  · intro htotal a ha b hb hab
    obtain ha | rfl := h.mem_steps.1 ha
    · obtain hb | rfl := h.mem_steps.1 hb
      · rw [h.kept a ha b hb, h.kept b hb a ha]
        exact htotal a ha b hb hab
      · exact .inr (h.first a ha)
    · obtain hb | rfl := h.mem_steps.1 hb
      · exact .inl (h.first b hb)
      · exact absurd rfl hab

theorem PrefacedIf.totallyOrdered_iff (h : m.PrefacedIf check m') :
    m'.TotallyOrdered ↔ m.TotallyOrdered := by
  cases check with
  | none => rw [show m' = m from h]
  | some s => exact h.1.totallyOrdered_iff

theorem PrefacedIf.sorted (h : m.PrefacedIf check m') (hperm : steps.Perm m.steps)
    (hpair : steps.Pairwise fun a b => m.Precedes a.id b.id) :
    (check.toList ++ steps).Perm m'.steps ∧
      (check.toList ++ steps).Pairwise fun a b => m'.Precedes a.id b.id := by
  cases check with
  | none =>
    obtain rfl : m' = m := h
    exact ⟨hperm, hpair⟩
  | some s =>
    obtain ⟨h, -⟩ := h
    have hmem : ∀ a ∈ steps, a ∈ m.steps := fun a ha => hperm.mem_iff.1 ha
    have hkept : steps.Pairwise fun a b => m'.Precedes a.id b.id :=
      hpair.imp_of_mem fun {a b} ha hb hab => (h.kept a (hmem a ha) b (hmem b hb)).2 hab
    refine ⟨?_, List.pairwise_cons.2 ⟨fun a ha => h.first a (hmem a ha), hkept⟩⟩
    obtain ⟨pairs, rfl⟩ := h.extended
    exact (hperm.cons s).trans (List.perm_append_singleton s m.steps).symm

theorem Acyclic.linearizes_iff_of_pairwise (hm : m.Acyclic) (hperm : steps.Perm m.steps)
    (hpair : steps.Pairwise fun a b => m.Precedes a.id b.id) {order : List Step} :
    m.Linearizes order ↔ order = steps :=
  hm.linearizes_iff hperm (isChain_iff_neighbours.1 hpair.isChain)

end Method

namespace Domain

def lastingTasks (d : Domain) : List String := (d.tasks.map (·.name)).filter (¬IsRestTask ·)

/-- The second method does the task of a step of the first one that is not among the given tasks. -/
def LeadsOn (d : Domain) (given : List String) (a b : Method) : Prop :=
  b ∈ d.methods ∧ ∃ s ∈ a.steps, s.task ∉ given ∧ b.task = s.task

/-- What becomes of a method that has been given the check step, if any. If its steps form a chain,
they come out behind the check when steps for the rest of chains are followed, by way of methods of
two steps at most. Otherwise only the check has been put in. -/
structure StandsFor (d : Domain) (m : Method) (check : Option Step) (m' : Method) : Prop where
  mem : m' ∈ d.methods
  name : m'.name = m.name
  chain : m.TotallyOrdered → ∃ sorted : List Step, sorted.Perm m.steps ∧
    sorted.Pairwise (fun s t => m.Precedes s.id t.id) ∧
    ∀ steps, d.Yields d.lastingTasks m' steps ↔ steps = check.toList ++ sorted
  two_steps : m.TotallyOrdered →
    ∀ r, ReflTransGen (d.LeadsOn d.lastingTasks) m' r → r.steps.length ≤ 2
  branching : ¬m.TotallyOrdered → m.PrefacedIf check m'

end Domain

section Becomes

variable {d : Domain} {given taken : List String} {m : Method} {c part : Cascade}

theorem Cascaded.isRestTask (h : Cascaded taken m c) : ∀ t ∈ c.tasks, IsRestTask t.name := by
  induction h with
  | short _ => simp
  | overflow _ _ => simp
  | cut _ _ _ ih => exact List.forall_mem_cons.2 ⟨isRestTask_restTaskName _ _, ih⟩

theorem Becomes.isRestTask (h : Becomes given m part) : ∀ t ∈ part.tasks, IsRestTask t.name := by
  cases h with
  | keep _ => simp
  | cut _ hpart _ _ => exact hpart.isRestTask

variable (h : Becomes given m part) (hone : d.OneEach given)
  (hsteps : ∀ s ∈ m.steps, s.task ∈ given) (hmethods : ∀ r ∈ part.methods, r ∈ d.methods)
include h hone hsteps hmethods

theorem Becomes.mem_of_leadsOn {a b : Method} (ha : a ∈ part.methods)
    (hpath : ReflTransGen (d.LeadsOn given) a b) : b ∈ part.methods := by
  induction hpath with
  | refl => exact ha
  | tail _ hstep ih =>
    obtain ⟨hb, s, hs, hnew, htask⟩ := hstep
    obtain hold | ⟨-, r, hr, hrtask⟩ := h.steps_or _ ih s hs
    · exact absurd (hsteps s hold) hnew
    · rwa [hone _ hb r (hmethods r hr) (htask.trans hrtask.symm) (htask ▸ hnew)]

theorem Becomes.exists_yields (hm : m.Consistent) (hacyclic : m.Acyclic) (htask : m.task ∈ given)
    (htasks : ∀ t ∈ part.tasks, t ∈ d.abstractTasks) : ∃ head ∈ part.methods, head.name = m.name ∧
      (∀ sorted : List Step, sorted.Perm m.steps →
        sorted.Pairwise (fun s t => m.Precedes s.id t.id) →
        ∀ steps, d.Yields given head steps ↔ steps = sorted) ∧
      (m.TotallyOrdered → ∀ r ∈ part.methods, r.steps.length ≤ 2) ∧
      (¬m.TotallyOrdered → head = m) := by
  obtain ⟨hkept, rfl⟩ | hcut := h.cascadeFor hone hm hacyclic htask hsteps hmethods htasks
  · refine ⟨m, List.mem_cons_self, rfl, fun sorted hperm hpair steps => ?_, fun htotal => ?_,
      fun _ => rfl⟩
    · have hgiven : ∀ s ∈ sorted, s.task ∈ given := fun s hs => hsteps s (hperm.mem_iff.1 hs)
      simp only [Domain.Yields, hacyclic.linearizes_iff_of_pairwise hperm hpair, exists_eq_left]
      exact Domain.follows_of_given hgiven
    · exact List.forall_mem_singleton.2 (hkept.resolve_right (not_not.2 htotal))
  · obtain ⟨head, rests, hparts, hname, -, -, -, chain, hperm', hpair', hyields⟩ := hcut.head
    refine ⟨head, hparts ▸ List.mem_cons_self, hname, fun sorted hperm hpair steps => ?_,
      fun _ r hr => (hcut.two_steps r hr).le, fun hno => absurd hcut.totallyOrdered hno⟩
    have hchain : chain = sorted := (hacyclic.linearizes_iff_of_pairwise hperm hpair).1
      ⟨hperm', hpair'.imp fun hst => hacyclic.precedes_asymm hst⟩
    rw [hyields, hchain]

end Becomes

section Passes

variable {d d' : Domain} {parts : List Cascade} {part : Cascade} {m m₁ : Method}
  {check : Option Step}

theorem Domain.Parts.lastingTasks (h : d.Parts parts) (hd : ∀ t ∈ d.tasks, ¬IsRestTask t.name) :
    d.regularize.1.lastingTasks = d.tasks.map (·.name) := by
  have hold : (d.tasks.map (·.name)).filter (¬IsRestTask ·) = d.tasks.map (·.name) :=
    List.filter_eq_self.2 (List.forall_mem_map.2 fun t ht => by simpa using hd t ht)
  have hnew : ((parts.flatMap (·.tasks)).map (·.name)).filter (¬IsRestTask ·) = [] := by
    refine List.filter_eq_nil_iff.2 (List.forall_mem_map.2 fun t ht => ?_)
    obtain ⟨part, hpart, ht⟩ := List.mem_flatMap.1 ht
    obtain ⟨m, -, hbecomes⟩ := exists_of_mem_right h.becomes hpart
    simpa using hbecomes.isRestTask t ht
  rw [Domain.lastingTasks, h.tasks, List.map_append, List.filter_append, hold, hnew,
    List.append_nil]

/-- What the second pass makes of a method that the first one has made of `m`. -/
theorem Domain.Parts.standsFor (h : d.Parts parts) (hd : d.WellFormed)
    (hone : d.regularize.1.OneEach (d.tasks.map (·.name)))
    (hrest : ∀ t ∈ d.tasks, ¬IsRestTask t.name) (hpart : part ∈ parts)
    (hbecomes : Becomes (d.tasks.map (·.name)) m₁ part) (hm₁ : m₁ ∈ d.methods)
    (hacyclic₁ : m₁.Acyclic) (hm : m.Acyclic) (hnodup : m.stepIds.Nodup) (hname : m₁.name = m.name)
    (hcheck : m.PrefacedIf check m₁) : ∃ m', d.regularize.1.StandsFor m check m' := by
  have hsteps : ∀ s ∈ m₁.steps, s.task ∈ d.tasks.map (·.name) := fun s hs =>
    ((hd.fits hm₁).steps s hs).mem_names
  have hmethods := h.methods_subset hpart
  obtain ⟨m', hm', hname', hyields, htwo, hsame⟩ := hbecomes.exists_yields hone hsteps hmethods
    (hd.fits hm₁).consistent hacyclic₁ (hd.fits hm₁).task.mem_names (h.tasks_subset hpart)
  rw [hcheck.totallyOrdered_iff] at htwo hsame
  refine ⟨m', hmethods m' hm', hname'.trans hname, fun htotal => ?_, fun htotal r hr => ?_,
    fun hno => hsame hno ▸ hcheck⟩
  · have hpair := hm.pairwise_stepsByRank hnodup htotal
    obtain ⟨hperm₁, hpair₁⟩ := hcheck.sorted m.perm_stepsByRank hpair
    refine ⟨m.stepsByRank, m.perm_stepsByRank, hpair, ?_⟩
    rw [h.lastingTasks hrest]
    exact hyields _ hperm₁ hpair₁
  · rw [h.lastingTasks hrest] at hr
    exact htwo htotal r (hbecomes.mem_of_leadsOn hone hsteps hmethods hm' hr)

theorem Domain.run_both {settings : Settings} {report : RunReport}
    (hinfer : settings.inferPreconditions = true) (htwo : settings.twoRegularize = true)
    (h : d.run settings = (d', .ok report)) : ∃ d₁ tally,
      d.inferPreconditions settings.topTask = .ok (d₁, tally) ∧ d₁.regularize.1 = d' ∧
      ∃ cascades, d₁.regularize.2 = .ok cascades := by
  have hpasses : settings.passes = [.inferPreconditions, .twoRegularize] := by
    simp [Settings.passes, hinfer, htwo]
  rw [Domain.run, hpasses] at h
  cases hfirst : d.inferPreconditions settings.topTask with
  | error e => simp [Domain.runPasses, Domain.runPass, hfirst] at h
  | ok found =>
    obtain ⟨d₁, tally⟩ := found
    simp only [Domain.runPasses, Domain.runPass, hfirst] at h
    cases hsecond : d₁.regularize.2 with
    | error fault =>
      rw [← Prod.eta d₁.regularize, hsecond] at h
      cases h
    | ok cascades =>
      rw [← Prod.eta d₁.regularize, hsecond] at h
      exact ⟨d₁, tally, rfl, congrArg Prod.fst h, cascades, hsecond⟩

end Passes

namespace Domain.Checked

variable {d d' : Domain} {allowed : Method → Literal → Prop} {check : Method → Option Task}
  {m : Method} (h : d.Checked d' allowed check)
include h

theorem mem_tasks {t : Task} (ht : t ∈ d'.tasks) (hname : ¬IsCheckTask t.name) : t ∈ d.tasks := by
  have hfound : d'.task? t.name = some t := h.wellFormed.names.task?_eq_some.2 ⟨ht, rfl⟩
  rw [h.guarded.task? _ hname] at hfound
  exact (Domain.mem_of_task?_eq_some hfound).1

theorem not_isRestTask (hrest : ∀ t ∈ d.tasks, ¬IsRestTask t.name) :
    ∀ t ∈ d'.tasks, ¬IsRestTask t.name :=
  fun t ht hmark => hrest t (h.mem_tasks ht hmark.not_isCheckTask) hmark

theorem prefacedIf (hm : m ∈ d.methods) :
    m.PrefacedIf ((check m).map m.checkStep) (m.withCheck check) := by
  rw [Method.withCheck]
  cases check m with
  | none => rfl
  | some t =>
    have hconsistent := (h.isOpen.wellFormed.fits hm).consistent
    exact ⟨Method.prefaced_checkedBy hconsistent (h.isOpen.ids m hm) t,
      isCheckTask_newCheckTask m.name⟩

theorem acyclic_withCheck (hm : m ∈ d.methods) (hacyclic : m.Acyclic) :
    (m.withCheck check).Acyclic := by
  rw [Method.withCheck]
  cases check m with
  | none => exact hacyclic
  | some t =>
    have hconsistent := (h.isOpen.wellFormed.fits hm).consistent
    exact hacyclic.checkedBy hconsistent (h.isOpen.ids m hm) t

end Domain.Checked

/-- If names and ids have no reserved prefixes, a run of both passes gives some methods a check step,
and what the second pass makes of a method comes out behind its check step. -/
theorem run_keeps_checks_first {d d' : Domain} (hd : d.WellFormed)
    (hacyclic : ∀ m ∈ d.methods, m.Acyclic) (hunmarked : d.Unmarked) {settings : Settings}
    (hinfer : settings.inferPreconditions = true) (htwo : settings.twoRegularize = true)
    {report : RunReport} (hrun : d.run settings = (d', .ok report)) :
    (d'.methods.map (·.name)).Nodup ∧ ∃ d₁ tally,
      d.inferPreconditions settings.topTask = .ok (d₁, tally) ∧
      List.Forall₂ (fun m m₁ => ∃ check, m.PrefacedIf check m₁ ∧ ∃ m', d'.StandsFor m check m')
        d.methods d₁.methods := by
  obtain ⟨d₁, tally, hfirst, rfl, cascades, hsecond⟩ := Domain.run_both hinfer htwo hrun
  obtain ⟨check, hchecked⟩ :=
    checked_of_inferPreconditions (hd.isOpen hunmarked.check hunmarked.steps) hfirst
  have hd₁ := hchecked.wellFormed
  have hfits₁ : ∀ m ∈ d₁.methods, d₁.Fits m := fun m hm => hd₁.fits hm
  have hfault := d₁.fault?_cascades hfits₁ (by simp [hsecond])
  obtain ⟨parts, hparts⟩ := Domain.exists_parts hfits₁ hfault
  have hnames : ∀ m ∈ d₁.methods, ¬restMethodMark.toList <+: m.name.toList := by
    rw [hchecked.methods, List.forall_mem_map]
    intro m hm
    rw [Method.withCheck_name]
    exact hunmarked.methods m hm
  refine ⟨(hparts.namesDiffer hd₁ hnames).methods, d₁, tally, hfirst, ?_⟩
  rw [hchecked.methods, List.forall₂_map_right_iff, List.forall₂_same]
  intro m hm
  have hm₁ : m.withCheck check ∈ d₁.methods := hchecked.mem_methods.2 ⟨m, hm, rfl⟩
  have hcheck := hchecked.prefacedIf hm
  obtain ⟨part, hpart, hbecomes⟩ := exists_of_mem_left hparts.becomes hm₁
  refine ⟨_, hcheck, hparts.standsFor hd₁ (d₁.oneEach_regularize hfits₁ hfault)
    (hchecked.not_isRestTask hunmarked.rest) hpart hbecomes hm₁ ?_ (hacyclic m hm) ?_
    Method.withCheck_name hcheck⟩
  · exact hchecked.acyclic_withCheck hm (hacyclic m hm)
  · exact (hd.fits hm).consistent.nodup_steps

def railCheck : Task :=
  byRail.checkTask.widen [{ name := "to", sort := "place" }]
    [{ predicate := "served", positive := true, arguments := ["to"] }]

def guardedRailTrip : Domain :=
  { railTrip with
    primitiveTasks := railTrip.primitiveTasks ++ [railCheck]
    methods := [byRail.checkedBy railCheck] }

theorem regularize_guardedRailTrip : ∃ cascades, guardedRailTrip.regularize.2 = .ok cascades := by
  let check := byRail.checkStep railCheck
  have hsteps : (byRail.checkedBy railCheck).stepsByRank = check :: byRail.steps :=
    Method.stepsByRank_eq (List.perm_append_singleton check byRail.steps).symm (by decide)
  have hlong : (byRail.checkedBy railCheck).longChain? = some { byRail with
      steps := check :: byRail.steps
      ordering := (check.id, "start") :: byRail.ordering } := by
    rw [Method.longChain?, Method.chain?, hsteps]
    decide
  have hok : guardedRailTrip.regularize.2.isOk := by
    simp only [Domain.regularize, guardedRailTrip, cascades, hlong]
    decide +kernel
  cases hcut : guardedRailTrip.regularize.2 with
  | error fault =>
    rw [hcut] at hok
    cases hok
  | ok cascades => exact ⟨cascades, rfl⟩

theorem run_keeps_checks_first_railTrip :
    ∃ d' report, railTrip.run { topTask := "travel", twoRegularize := true } = (d', .ok report) ∧
      ∃ m', d'.StandsFor byRail (some (byRail.checkStep railCheck)) m' := by
  have hd : railTrip.WellFormed := ⟨by decide, by decide, by decide, by decide⟩
  have hunmarked : railTrip.Unmarked := ⟨by decide, by decide, by decide, by decide⟩
  have hacyclic : ∀ m ∈ railTrip.methods, m.Acyclic := by
    simp only [Method.acyclic_iff]
    decide
  have hinfer : (railTrip.inferPreconditions "travel").toOption.map (·.1) = some guardedRailTrip := by
    decide +kernel
  obtain ⟨tally, h⟩ := exists_tally hinfer
  obtain ⟨cascades, hcut⟩ := regularize_guardedRailTrip
  have hrun : railTrip.run { topTask := "travel", twoRegularize := true } =
      (guardedRailTrip.regularize.1, .ok { tally := some tally, cascades := some cascades }) := by
    simp only [Domain.run, Settings.passes, if_true, List.cons_append, List.nil_append,
      Domain.runPasses, Domain.runPass, h]
    rw [← Prod.eta guardedRailTrip.regularize, hcut]
  obtain ⟨-, d₁, tally₁, h₁, hmethods⟩ := run_keeps_checks_first hd hacyclic hunmarked rfl rfl hrun
  cases h.symm.trans h₁
  obtain ⟨⟨check, hcheck, hstands⟩, -⟩ := List.forall₂_cons.1 hmethods
  refine ⟨_, _, hrun, ?_⟩
  cases check with
  | none => exact absurd (congrArg Method.steps hcheck) (by decide)
  | some s =>
    obtain ⟨pairs, hextended⟩ := hcheck.1.extended
    have hsteps := congrArg Method.steps hextended
    obtain rfl : byRail.checkStep railCheck = s :=
      List.singleton_inj.1 (List.append_cancel_left hsteps)
    exact hstands

end TaskNetwork
