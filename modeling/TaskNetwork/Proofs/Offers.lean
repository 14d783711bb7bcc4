import TaskNetwork.Proofs.CheckSteps
import TaskNetwork.Proofs.Solutions

namespace TaskNetwork

open DraftM Draft PatternSet

attribute [ext] Literal

def Sweep.inferredFor (w : Sweep) (predicate : String) (positive : Bool) (m : Method) :
    List Literal :=
  (w.findings.filter (·.method = m)).flatMap fun f =>
    f.inferred.toList.filterMap fun p => (p.toLiteral m predicate positive).toOption

def Domain.inferredFor (d : Domain) (top : String) (m : Method) : List Literal :=
  d.sweptPredicates.flatMap fun (predicate, positive) =>
    ((d.sweep top predicate positive).toOption.map (·.inferredFor predicate positive m)).getD []

def Sweep.offers (w : Sweep) (predicate : String) (positive : Bool) : List (Method × Literal) :=
  w.findings.flatMap fun f => (f.inferred.toList.filterMap fun p =>
    (p.toLiteral f.method predicate positive).toOption).map (f.method, ·)

/-- What the sweep below the task for a predicate and a polarity has to offer. -/
def Domain.offersOf (d : Domain) (top : String) (swept : String × Bool) : List (Method × Literal) :=
  ((d.sweep top swept.1 swept.2).toOption.map (·.offers swept.1 swept.2)).getD []

/-- Inference below the task offers the literal to the method. -/
def Domain.Candidate (d : Domain) (top : String) (m : Method) (l : Literal) : Prop :=
  l.predicate ∈ d.predicates.map (·.name) ∧ d.Infers top m l

/-- All tasks with which the method may start have the precondition. -/
def Domain.AllDemand (d : Domain) (m : Method) (l : Literal) : Prop :=
  ∀ n ∈ d.openingTasks m.name, ∃ t, d.task? n = some t ∧ l ∈ t.preconditions

inductive Draft.Offers (d : Domain) : List (Method × Literal) → Draft → Draft → Prop
  | nil {w : Draft} : Offers d [] w w
  | cons {m : Method} {l : Literal} {offers : List (Method × Literal)} {w w₁ w' : Draft}
      (h : (offer d (d.openingTasks m.name) m l).Runs w () w₁) (hrest : Offers d offers w₁ w') :
      Offers d ((m, l) :: offers) w w'

def offeredTo (m : Method) (offers : List (Method × Literal)) : List Literal :=
  (offers.filter (·.1 = m)).map (·.2)

section Offers

variable {d : Domain} {m n : Method} {l : Literal} {w w₁ w' : Draft} {top : String}
  {offers others : List (Method × Literal)}

theorem offeredTo_append :
    offeredTo m (offers ++ others) = offeredTo m offers ++ offeredTo m others := by
  rw [offeredTo, List.filter_append, List.map_append, offeredTo, offeredTo]

theorem offeredTo_singleton : offeredTo m [(n, l)] = if n = m then [l] else [] := by
  by_cases h : n = m <;> simp [offeredTo, h]

theorem mem_offeredTo : l ∈ offeredTo m offers ↔ (m, l) ∈ offers := by
  simp [offeredTo]

theorem mem_inferredFor : l ∈ d.inferredFor top m ↔ d.Candidate top m l := by
  simp only [Domain.inferredFor, Domain.sweptPredicates, List.mem_flatMap, List.mem_map,
    Domain.Candidate]
  constructor
  · rintro ⟨a, ⟨positive, -, p, hp, rfl⟩, hl⟩
    cases hw : d.sweep top p.name positive with
    | error e => simp [hw, Except.toOption] at hl
    | ok w =>
      simp only [hw, Except.toOption, Option.map_some, Option.getD_some, Sweep.inferredFor,
        List.mem_flatMap, List.mem_filter, decide_eq_true_eq, List.mem_filterMap] at hl
      obtain ⟨f, ⟨hf, hmethod⟩, q, hq, hql⟩ := hl
      cases hliteral : q.toLiteral m p.name positive with
      | error e => simp [hliteral] at hql
      | ok k =>
        simp only [hliteral, Option.some.injEq] at hql
        subst hql
        obtain ⟨hname, rfl, rfl⟩ := Pattern.toLiteral_eq_ok hliteral
        exact ⟨⟨p, hp, hname.symm⟩, w, hname ▸ hw, f, hf, hmethod, hq⟩
  · rintro ⟨⟨p, hp, hname⟩, w, hw, f, hf, rfl, hq⟩
    refine ⟨(p.name, l.positive), ⟨l.positive, ?_, p, hp, rfl⟩, ?_⟩
    · cases l.positive <;> simp
    · simp only [hname, hw, Except.toOption, Option.map_some, Option.getD_some, Sweep.inferredFor,
        List.mem_flatMap, List.mem_filter, decide_eq_true_eq, List.mem_filterMap]
      exact ⟨f, ⟨hf, rfl⟩, _, hq, by rw [Pattern.toLiteral_ofNames]⟩

theorem Draft.Offers.append (h : Offers d offers w w₁) (hothers : Offers d others w₁ w') :
    Offers d (offers ++ others) w w' := by
  induction h with
  | nil => exact hothers
  | cons h _ ih => exact .cons h (ih hothers)

theorem offeredTo_flatMap {α : Type} {items : List α} {told : α → List (Method × Literal)} :
    offeredTo m (items.flatMap told) = items.flatMap fun a => offeredTo m (told a) := by
  induction items with
  | nil => rfl
  | cons a items ih => rw [List.flatMap_cons, offeredTo_append, ih, List.flatMap_cons]

theorem offeredTo_map {ls : List Literal} :
    offeredTo m (ls.map (n, ·)) = if n = m then ls else [] := by
  by_cases h : n = m <;> simp [offeredTo, List.filter_map, Function.comp_def, h]

theorem Sweep.offeredTo_offers {w : Sweep} {predicate : String} {positive : Bool} :
    offeredTo m (w.offers predicate positive) = w.inferredFor predicate positive m := by
  rw [offers, inferredFor, offeredTo_flatMap]
  simp only [offeredTo_map]
  induction w.findings with
  | nil => rfl
  | cons f findings ih =>
    rw [List.flatMap_cons, ih, List.filter_cons]
    by_cases hf : f.method = m <;> simp [hf]

theorem offers_of_forM {α : Type} {f : α → DraftM Unit} {told : α → List (Method × Literal)}
    {items : List α} (hf : ∀ a ∈ items, ∀ w w', (f a).Runs w () w' → Offers d (told a) w w')
    {u : Unit} (h : (items.forM f : DraftM Unit).Runs w u w') :
    Offers d (items.flatMap told) w w' := by
  induction items generalizing w with
  | nil =>
    obtain ⟨-, rfl⟩ := runs_pure.1 h
    exact .nil
  | cons a items ih =>
    obtain ⟨_, w₁, ha, hitems⟩ := runs_bind.1 h
    obtain ⟨hfa, hf⟩ := List.forall_mem_cons.1 hf
    rw [List.flatMap_cons]
    exact (hfa w w₁ ha).append (ih hf hitems)

theorem offers_of_inject {inferred : PatternSet} {predicate : String} {positive : Bool} {u : Unit}
    (h : (inject d n inferred predicate positive).Runs w u w') :
    Offers d ((inferred.toList.filterMap fun p =>
      (p.toLiteral n predicate positive).toOption).map (n, ·)) w w' := by
  rw [List.filterMap_eq_flatMap_toList, List.map_flatMap]
  refine offers_of_forM (fun p _ w w' hrun => ?_) h
  obtain ⟨l, w₁, hlift, hoffer⟩ := runs_bind.1 hrun
  obtain ⟨hl, rfl⟩ := runs_failure.1 hlift
  rw [hl]
  exact .cons hoffer .nil

theorem offers_of_draftPredicate {t : Task} (ht : d.task? top = some t) {swept : String × Bool}
    {u : Unit} (h : (d.draftPredicate d.recursiveTasks (d.walk top) swept.1 swept.2).Runs w u w') :
    Offers d (d.offersOf top swept) w w' := by
  obtain ⟨sweep, w₁, hlift, hrun⟩ := runs_bind.1 h
  obtain ⟨hs, rfl⟩ := runs_failure.1 hlift
  have hsweep : d.sweep top swept.1 swept.2 = .ok sweep := by
    rw [Domain.sweep, ht]
    exact hs
  rw [Domain.offersOf, hsweep]
  exact offers_of_forM (fun f _ _ _ hrun => offers_of_inject hrun) hrun

theorem exists_task?_of_inferPreconditions {d' : Domain} {tally : Tally}
    (h : d.inferPreconditions top = .ok (d', tally)) : ∃ t, d.task? top = some t := by
  cases ht : d.task? top with
  | none => simp [Domain.inferPreconditions, ht] at h
  | some t => exact ⟨t, rfl⟩

theorem offers_of_inferPreconditions {d' : Domain} {tally : Tally}
    (h : d.inferPreconditions top = .ok (d', tally)) :
    ∃ w, Offers d (d.sweptPredicates.flatMap (d.offersOf top)) (Draft.ofDomain d) w ∧
      d' = w.apply d ∧ tally = w.tally := by
  obtain ⟨t, ht⟩ := exists_task?_of_inferPreconditions h
  simp only [Domain.inferPreconditions, ht] at h
  split at h
  · next w hw =>
    cases h
    exact ⟨w, offers_of_forM (fun _ _ _ _ hrun => offers_of_draftPredicate ht hrun) hw, rfl, rfl⟩
  · cases h

theorem offeredTo_offersOf :
    offeredTo m (d.sweptPredicates.flatMap (d.offersOf top)) = d.inferredFor top m := by
  rw [offeredTo_flatMap, Domain.inferredFor]
  refine List.flatMap_congr fun (predicate, positive) _ => ?_
  rw [Domain.offersOf]
  dsimp only
  cases d.sweep top predicate positive with
  | error e => rfl
  | ok w => exact Sweep.offeredTo_offers

theorem mem_offersOf :
    (m, l) ∈ d.sweptPredicates.flatMap (d.offersOf top) ↔ d.Candidate top m l := by
  rw [← mem_offeredTo, offeredTo_offersOf, mem_inferredFor]

end Offers

end TaskNetwork
