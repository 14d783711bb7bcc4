import TaskNetwork.Proofs.ReusedChecks
import TaskNetwork.Proofs.WalkOrder

namespace TaskNetwork

open DraftM Draft Acceptance

/-- After the sweeps in `done` and a part of what the next one below the task has to offer, the draft
is `w`. The literal is offered to the method then, and counted as redundant. -/
def Domain.CountsRedundant (d : Domain) (top : String) (done : List (String × Bool)) (w : Draft)
    (m : Method) (l : Literal) : Prop :=
  ∃ sweep later before after w', d.sweptPredicates = done ++ sweep :: later ∧
    d.offersOf top sweep = before ++ (m, l) :: after ∧
    Offers d (done.flatMap (d.offersOf top) ++ before) (Draft.ofDomain d) w ∧
    (offer d (d.openingTasks m.name) m l).Runs w () w' ∧ w'.tally = w.tally.reject m.name

section Offers

variable {d : Domain} {top : String} {m : Method} {l : Literal}

theorem nodup_offersOf (hd : d.WellFormed) (hs : d.SortsDeclared) (swept : String × Bool) :
    (d.offersOf top swept).Nodup := by
  rw [Domain.offersOf]
  cases hv : d.sweep top swept.1 swept.2 with
  | error e => exact List.nodup_nil
  | ok v =>
    change (v.offers swept.1 swept.2).Nodup
    rw [Sweep.offers, List.nodup_flatMap]
    constructor
    · intro f hf
      obtain ⟨-, -, -, hfinds⟩ := finds_of_sweep hd hs hv hf
      refine (hfinds.normal.2.2.nodup.filterMap fun p q l hp hq => ?_).map fun _ _ => congrArg Prod.snd
      rw [Option.mem_def, toOption_eq_some] at hp hq
      obtain ⟨-, -, rfl⟩ := Pattern.toLiteral_eq_ok hp
      exact (Pattern.toLiteral_eq_ok hq).2.2.symm
    · refine (pairwise_names hd.names.methods hv).imp fun {f g} hne => ?_
      intro x hx hy
      obtain ⟨k, -, rfl⟩ := List.mem_map.1 hx
      obtain ⟨k', -, heq⟩ := List.mem_map.1 hy
      exact hne (congrArg (·.1.name) heq).symm

theorem exists_runs {x : DraftM Unit} {w : Draft} {P : Draft → Prop}
    (h : (x.run w).1.toOption = some () ∧ P (x.run w).2) : ∃ w', x.Runs w () w' ∧ P w' :=
  ⟨_, Prod.ext (toOption_eq_some.1 h.1) rfl, h.2⟩

theorem runs_offer_of_isRedundant {w : Draft} {opening : List String}
    (h : isRedundant d w m l opening = .ok true) :
    (offer d opening m l).Runs w () { w with tally := w.tally.reject m.name } := by
  unfold offer
  exact runs_bind.2 ⟨w, w, runs_get.2 ⟨rfl, rfl⟩, runs_bind.2
    ⟨true, w, runs_domainError.2 ⟨h, rfl⟩, runs_modify.2 rfl⟩⟩

theorem countsRedundant_of_isRedundant {done later : List (String × Bool)} {sweep : String × Bool}
    {before after : List (Method × Literal)} {w : Draft}
    (hswept : d.sweptPredicates = done ++ sweep :: later)
    (hoffers : d.offersOf top sweep = before ++ (m, l) :: after)
    (hw : Offers d (done.flatMap (d.offersOf top) ++ before) (Draft.ofDomain d) w)
    (hred : isRedundant d w m l (d.openingTasks m.name) = .ok true) :
    d.CountsRedundant top done w m l :=
  ⟨sweep, later, before, after, _, hswept, hoffers, hw, runs_offer_of_isRedundant hred, rfl⟩

theorem isRedundant_of_tally {w w' : Draft}
    (hrun : (offer d (d.openingTasks m.name) m l).Runs w () w')
    (htally : w'.tally = w.tally.reject m.name) :
    isRedundant d w m l (d.openingTasks m.name) = .ok true := by
  obtain ⟨hred, -⟩ | ⟨-, slot, w₁, w₂, hopen, hwiden, rfl⟩ := offer_of_runs hrun
  · exact hred
  · have haccept : (w₂.addPrecondition slot l).tally = w.tally.accept m.name :=
      hwiden.tally.trans hopen.tally
    have hcount := congrArg Tally.accepted (haccept.symm.trans htally)
    rw [Tally.accepted_accept, Tally.accepted_reject] at hcount
    omega

/-- A literal that is offered once more was accepted among the offers of earlier sweeps, if it was
accepted before. -/
theorem Domain.AcceptsAmong.earlier {offers before after : List (Method × Literal)}
    (h : d.AcceptsAmong (offers ++ before) m l) (hnodup : (before ++ (m, l) :: after).Nodup) :
    d.AcceptsAmong offers m l := by
  obtain ⟨front, back, v, heq, hfront, hred⟩ := h
  have hno : (m, l) ∉ before := fun hmem =>
    (List.nodup_append.1 hnodup).2.2 _ hmem _ List.mem_cons_self rfl
  obtain ⟨as, -, hbefore⟩ | ⟨as, rfl, hback⟩ := List.append_eq_append_iff.1 heq
  · exact absurd (hbefore ▸ List.mem_append_right _ List.mem_cons_self) hno
  · cases as with
    | nil =>
      rw [List.nil_append] at hback
      exact absurd (hback ▸ List.mem_cons_self) hno
    | cons o as =>
      obtain ⟨rfl, rfl⟩ := List.cons.inj hback
      exact ⟨front, as, v, rfl, hfront, hred⟩

end Offers

theorem Placed.called_or_made {d : Domain} {made : List Method} {m b : Method} {slot : CheckSlot}
    (h : Placed d made m slot b) {t : Task} (ht : (d.tasksWith made)[slot.task]? = some t) :
    (∃ s ∈ m.steps, s.task = t.name) ∨
      ∃ k, made[k]? = some m ∧ slot.task = d.primitiveTasks.length + k := by
  cases h with
  | found _ hs hu hst _ =>
    obtain rfl := Option.some.inj (ht.symm.trans hu)
    exact .inl ⟨_, List.mem_of_getElem? hs, hst.symm⟩
  | made _ _ hk htask => exact .inr ⟨_, hk, htask⟩

/-- What the check step of a method checks was accepted for that method, unless the domain had a step
with the same task beforehand. -/
theorem Draft.LogsOffers.checks {d : Domain} {offers : List (Method × Literal)} {made : List Method}
    {log : List Acceptance} {w : Draft} (h : w.LogsOffers d offers made log) {m : Method}
    (hm : m ∈ d.methods) {l : Literal} (hchecks : w.checks m.name l) : d.AcceptsAmong offers m l ∨
      ∃ t, w.checkTask? m = some t ∧ l ∈ t.preconditions ∧
        ∃ n ∈ d.methods, ∃ s ∈ n.steps, s.task = t.name := by
  obtain ⟨slot, hslot, u, hu, hl⟩ := checks_iff_slot.1 hchecks
  have hcheck : w.checkTask? m = some u := by
    rw [checkTask?, hslot]
    exact hu
  obtain ⟨i, hi⟩ := List.mem_iff_getElem?.1 hm
  obtain ⟨-, b, hplaced, -⟩ := h.slots i m slot hi hslot
  obtain ⟨t, ht⟩ := hplaced.exists_task
  obtain rfl := Option.some.inj (hu.symm.trans (h.tasks _ t ht))
  obtain ⟨s, hs, hst⟩ | ⟨k, hk, htask⟩ := hplaced.called_or_made ht
  · exact .inr ⟨_, hcheck, hl, m, hm, s, hs, hst⟩
  -- The task is a new one, so what it checks was accepted.
  · obtain rfl := Option.some.inj (ht.symm.trans (htask ▸ Domain.getElem?_tasksWith_made hk))
    have hliteral : l ∈ literalsOf log slot.task := hl
    obtain ⟨e, he, heslot, rfl⟩ := mem_literalsOf.1 hliteral
    obtain ⟨hem, helookup, -⟩ := h.accepted e he
    obtain ⟨j, hj⟩ := List.mem_iff_getElem?.1 hem
    obtain ⟨-, c, heplaced, -⟩ := h.slots j _ _ hj helookup
    obtain ⟨s, hs, hst⟩ | ⟨k', hk', htask'⟩ := heplaced.called_or_made (heslot ▸ ht)
    · exact .inr ⟨_, hcheck, hl, e.method, hem, s, hs, hst⟩
    · obtain rfl : k = k' := by omega
      obtain rfl := Option.some.inj (hk.symm.trans hk')
      exact .inl ((h.complete _ _).1 ⟨e, he, rfl, rfl⟩)

/-- A literal is counted as redundant for a method if it was accepted in an earlier sweep. Else the
domain had a step with the task of the method's check step beforehand, and that task has the literal
for a precondition by then. Or else it is written among the preconditions of the tasks of all steps
with which the method may start, over their parameters. That is what such a step requires just if it
passes the parameters that are mentioned under their own names. -/
theorem counted_redundant {d : Domain} (hd : d.WellFormed) (hs : d.SortsDeclared) {top : String}
    {done : List (String × Bool)} {w : Draft} {m : Method} {l : Literal}
    (h : d.CountsRedundant top done w m l) :
    d.AcceptsAmong (done.flatMap (d.offersOf top)) m l ∨
    (∃ t, w.checkTask? m = some t ∧ l ∈ t.preconditions ∧
      ∃ n ∈ d.methods, ∃ s ∈ n.steps, s.task = t.name) ∨
    ∀ s ∈ m.minimalSteps, ∃ t, d.task? s.task = some t ∧ l ∈ t.preconditions ∧
      (∀ p ∈ l.arguments, p ∈ t.parameterNames) ∧
      (l.ground (d.passed s) = l ↔ ∀ p ∈ l.arguments, d.passed s p = p) := by
  obtain ⟨sweep, later, before, after, w', hswept, hoffers, hw, hrun, htally⟩ := h
  have hmem : ∀ o ∈ done.flatMap (d.offersOf top) ++ before ++ [(m, l)], o.1 ∈ d.methods := by
    intro o ho
    have hall : o ∈ d.sweptPredicates.flatMap (d.offersOf top) := by
      rw [hswept, List.flatMap_append, List.flatMap_cons, hoffers]
      simp only [List.mem_append, List.mem_cons] at ho ⊢
      tauto
    exact (mem_offersOf.1 hall).mem_methods hd hs
  have hm : m ∈ d.methods := hmem (m, l) (List.mem_append_right _ List.mem_cons_self)
  obtain ⟨made, log, hlogs⟩ := exists_log hd hw fun o ho => hmem o (List.mem_append_left _ ho)
  obtain hall | hchecks := (isRedundant_iff hd hm w).1.1 (isRedundant_of_tally hrun htally)
  · refine .inr (.inr fun s hsm => ?_)
    have hopening : s.task ∈ d.openingTasks m.name := by
      rw [hd.openingTasks_eq hm, mem_increasing]
      exact List.mem_map_of_mem hsm
    obtain ⟨t, ht, hl⟩ := hall s.task hopening
    refine ⟨t, ht, hl, fun p hp => ?_, Literal.ground_eq_self_iff⟩
    exact (hd.consistent (Domain.mem_of_task?_eq_some ht).1).declared l (List.mem_append_left _ hl) p hp
  · have hnodup : (before ++ (m, l) :: after).Nodup := hoffers ▸ nodup_offersOf hd hs sweep
    exact (hlogs.checks hm hchecks).imp (·.earlier hnodup) .inl

def byName : Method :=
  { byHand with
    taskArguments := ["x"]
    declarations := [{ name := "x", sort := "thing" }]
    steps := [{ id := "s", task := "pick", arguments := ["x"] }] }

def fetchingByName : Domain := { fetching with methods := [byName] }

def xFree : Literal := { predicate := "free", positive := true, arguments := ["x"] }

theorem counted_redundant_fetchingByName :
    fetchingByName.CountsRedundant "fetch" [] (Draft.ofDomain fetchingByName) byName xFree ∧
      ∀ s ∈ byName.minimalSteps, xFree ∈ fetchingByName.required s := by
  have hd : fetchingByName.WellFormed := ⟨by decide, by decide, by decide, by decide⟩
  have hcounts : fetchingByName.CountsRedundant "fetch" [] (Draft.ofDomain fetchingByName) byName
      xFree := by
    have hoffers : fetchingByName.offersOf "fetch" ("free", true) = [] ++ [(byName, xFree)] := by
      decide +kernel
    exact countsRedundant_of_isRedundant rfl hoffers .nil (by decide)
  have hpassed : ∀ s ∈ byName.minimalSteps, ∀ p ∈ xFree.arguments,
      fetchingByName.passed s p = p := by
    decide
  refine ⟨hcounts, ?_⟩
  obtain haccepts | ⟨t, ht, -⟩ | hall := counted_redundant hd (by decide) hcounts
  · exact absurd haccepts.mem List.not_mem_nil
  · cases ht
  · intro s hs
    obtain ⟨t, ht, hl, -, hself⟩ := hall s hs
    exact hself.2 (hpassed s hs) ▸ Domain.mem_required ht hl

def byBothHands : Method :=
  { byName with
    declarations := [{ name := "x", sort := "thing" }, { name := "y", sort := "thing" }]
    steps := [{ id := "s", task := "pick", arguments := ["y"] },
      { id := "t", task := "pick", arguments := ["x"] }]
    ordering := [("s", "t")] }

def fetchingBoth : Domain := { fetching with methods := [byBothHands] }

def checkingAnother : Domain :=
  { checkedFetching "z" "w" [] with
    primitiveTasks := fetching.primitiveTasks ++
      [{ Task.ofParameters "__method_precondition_by_hand" [{ name := "z", sort := "thing" }] with
        preconditions := [zFree] }] }

def wFree : Literal := { predicate := "free", positive := true, arguments := ["w"] }

/-- A literal is counted as redundant that no earlier sweep accepted for the method, and the method may
start with a step that does not require it. -/
def Domain.CountsUnchecked (d : Domain) (top : String) : Prop :=
  ∃ m ∈ d.methods, m.Acyclic ∧ ∃ done w l, d.CountsRedundant top done w m l ∧
    ¬d.AcceptsAmong (done.flatMap (d.offersOf top)) m l ∧
    ¬∀ s ∈ m.minimalSteps, l ∈ (w.apply d).required s

/-- A literal may be written in the task of the only step with which a method starts, or in the task
of its check step, and yet be required by neither. -/
theorem counted_redundant_unchecked :
    (fetchingBoth.WellFormed ∧ fetchingBoth.SortsDeclared ∧ fetchingBoth.CountsUnchecked "fetch") ∧
    checkingAnother.WellFormed ∧ checkingAnother.SortsDeclared ∧
      checkingAnother.CountsUnchecked "fetch" := by
  have hboth : fetchingBoth.CountsUnchecked "fetch" := by
    have hoffers : fetchingBoth.offersOf "fetch" ("free", true) =
        [] ++ [(byBothHands, xFree), (byBothHands, { xFree with arguments := ["y"] })] := by
      decide +kernel
    exact ⟨_, List.mem_cons_self, Method.acyclic_iff.2 (by decide), [], _, xFree,
      countsRedundant_of_isRedundant rfl hoffers .nil (by decide),
      fun haccepts => absurd haccepts.mem List.not_mem_nil, by decide⟩
  have hanother : checkingAnother.CountsUnchecked "fetch" := by
    have hoffers : checkingAnother.offersOf "fetch" ("free", true) =
        [(checkedByHand "w" [], wFree)] ++ [(checkedByHand "w" [], zFree)] := by
      decide +kernel
    obtain ⟨w, hw, hred, hno⟩ := exists_runs
      (x := offer checkingAnother (checkingAnother.openingTasks "by_hand") (checkedByHand "w" []) wFree)
      (w := Draft.ofDomain checkingAnother)
      (P := fun w => isRedundant checkingAnother w (checkedByHand "w" []) zFree
          (checkingAnother.openingTasks "by_hand") = .ok true ∧
        ¬∀ s ∈ (checkedByHand "w" []).minimalSteps, zFree ∈ (w.apply checkingAnother).required s)
      (by decide +kernel)
    exact ⟨_, List.mem_cons_self, Method.acyclic_iff.2 (by decide), [], w, zFree,
      countsRedundant_of_isRedundant rfl hoffers (.cons hw .nil) hred,
      fun haccepts => absurd haccepts.mem List.not_mem_nil, hno⟩
  exact ⟨⟨⟨by decide, by decide, by decide, by decide⟩, by decide, hboth⟩,
    ⟨by decide, by decide, by decide, by decide⟩, by decide, hanother⟩

end TaskNetwork
