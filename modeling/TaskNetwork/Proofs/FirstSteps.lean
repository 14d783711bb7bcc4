import TaskNetwork.Proofs.Redundancy

namespace TaskNetwork

namespace Method

variable {m : Method} {s t : Step}

theorem mem_minimalSteps :
    s ∈ m.minimalSteps ↔ s ∈ m.steps ∧ ∀ t ∈ m.steps, ¬m.Precedes t.id s.id := by
  rw [minimalSteps, List.mem_filter, List.isEmpty_iff, List.eq_nil_iff_forall_not_mem]
  simp only [mem_predecessors, not_and]

/-- Going back from a step to one before it lowers the rank, so that it ends at a first one. -/
theorem Acyclic.minimal_or_below (hm : m.Acyclic) (hs : s ∈ m.steps) :
    s ∈ m.minimalSteps ∨ ∃ t ∈ m.minimalSteps, m.Precedes t.id s.id := by
  induction hrank : m.rank s.id using Nat.strong_induction_on generalizing s with
  | _ n ih =>
    refine or_iff_not_imp_left.2 fun hnot => ?_
    rw [mem_minimalSteps, and_iff_right hs] at hnot
    push Not at hnot
    obtain ⟨t, ht, hts⟩ := hnot
    have hlt : m.rank t.id < n := hrank ▸ hm.rank_lt ht hts
    obtain hmin | ⟨u, hu, hut⟩ := ih _ hlt ht rfl
    · exact ⟨t, hmin, hts⟩
    · exact ⟨u, hu, hm.precedes_trans hut hts⟩

theorem Acyclic.minimalSteps_eq_nil (hm : m.Acyclic) : m.minimalSteps = [] ↔ m.steps = [] := by
  constructor
  · intro h
    refine List.eq_nil_iff_forall_not_mem.2 fun s hs => ?_
    have hnone : ∀ t, t ∉ m.minimalSteps := List.eq_nil_iff_forall_not_mem.1 h
    obtain hmin | ⟨t, ht, -⟩ := hm.minimal_or_below hs
    · exact hnone s hmin
    · exact hnone t ht
  · intro h
    rw [minimalSteps, h, List.filter_nil]

end Method

section Openings

variable {d : Domain} {m n : Method} {l : Literal} {w : Draft} {name : String}

theorem Domain.mem_openingTasks (h : d.resolveMethod name = .ok m) {task : String} :
    task ∈ d.openingTasks name ↔ ∃ s ∈ m.minimalSteps, s.task = task := by
  rw [openingTasks, h]
  simp only [mem_increasing, List.mem_map]

theorem Domain.openingTasks_eq_nil (h : d.resolveMethod name = .ok m) :
    d.openingTasks name = [] ↔ m.minimalSteps = [] := by
  simp only [List.eq_nil_iff_forall_not_mem, mem_openingTasks h, not_exists, not_and]
  exact ⟨fun hnone s hs => hnone s.task s hs rfl, fun hnone _ s hs => absurd hs (hnone s)⟩

theorem Draft.demanded_of_isRedundant {tasks : List String}
    (h : isRedundant d w n l tasks = .ok true) :
    (∀ k ∈ tasks, ∃ t, d.task? k = some t ∧ l ∈ t.preconditions) ∨ w.checks n.name l := by
  induction tasks with
  | nil => exact .inl fun k hk => absurd hk List.not_mem_nil
  | cons k tasks ih =>
    rw [isRedundant, bind_eq_ok] at h
    obtain ⟨t, ht, h⟩ := h
    have ht := Domain.resolveTask_eq_ok.1 ht
    split at h
    · next hl => exact (ih h).imp_left fun htasks => List.forall_mem_cons.2 ⟨⟨t, ht, hl⟩, htasks⟩
    · exact .inr (Except.ok.inj h)

end Openings

/-- If the ordering of a method is not circular then every step is a first one or comes after a
first one, and no first one comes after another. So a name stands for a method with first steps if
it stands for one with steps. Then literals offered under the name are dropped only if there are
first steps whose tasks all have them for a precondition, or if they are checked already. If the
name stands for a method without steps then they are all dropped. -/
theorem first_steps_below {m : Method} (hm : m.Acyclic) :
    (∀ s ∈ m.steps, s ∈ m.minimalSteps ∨ ∃ t ∈ m.minimalSteps, m.Precedes t.id s.id) ∧
    (∀ s ∈ m.minimalSteps, ∀ t ∈ m.minimalSteps, ¬m.Precedes s.id t.id) ∧
    ∀ (d : Domain) (n : Method), d.resolveMethod n.name = .ok m →
      (d.openingTasks n.name = [] ↔ m.steps = []) ∧
      ∀ (w : Draft) (l : Literal),
        (m.steps ≠ [] → Draft.isRedundant d w n l (d.openingTasks n.name) = .ok true →
          (∃ s, s ∈ m.minimalSteps) ∧ (∀ s ∈ m.minimalSteps,
            ∃ t, d.task? s.task = some t ∧ l ∈ t.preconditions) ∨ w.checks n.name l) ∧
        (m.steps = [] → Draft.isRedundant d w n l (d.openingTasks n.name) = .ok true) := by
  refine ⟨fun s hs => hm.minimal_or_below hs, fun s hs t ht => ?_, fun d n hn => ?_⟩
  · exact (Method.mem_minimalSteps.1 ht).2 s (Method.mem_minimalSteps.1 hs).1
  have hnil : d.openingTasks n.name = [] ↔ m.steps = [] :=
    (Domain.openingTasks_eq_nil hn).trans hm.minimalSteps_eq_nil
  refine ⟨hnil, fun w l => ⟨fun hsteps hred => ?_, fun hsteps => ?_⟩⟩
  · have hfirst : ∃ s, s ∈ m.minimalSteps :=
      List.exists_mem_of_ne_nil _ (mt hm.minimalSteps_eq_nil.1 hsteps)
    refine (Draft.demanded_of_isRedundant hred).imp_left fun hall => ⟨hfirst, fun s hs => ?_⟩
    exact hall s.task ((Domain.mem_openingTasks hn).2 ⟨s, hs, rfl⟩)
  · rw [hnil.2 hsteps]
    rfl

def openFrom : Literal := { predicate := "open", positive := true, arguments := ["from"] }

def tramTrip : Domain where
  sorts := { entries := [("place", NameSet.ofList ["gate", "hall", "yard"])] }
  predicates := [{ name := "open", argumentSorts := ["place"] }]
  primitiveTasks := [
    Task.ofParameters "leave" [{ name := "to", sort := "place" }],
    { Task.ofParameters "board" [{ name := "from", sort := "place" }] with
      preconditions := [openFrom] },
    Task.ofParameters "ride" Method.byTram.declarations]
  abstractTasks := [Task.ofParameters "travel" Method.byTram.declarations]
  methods := [Method.byTram]

theorem first_steps_below_tramTrip :
    Method.byTram.Acyclic ∧ tramTrip.resolveMethod "by-tram" = .ok Method.byTram ∧
    (∃ t ∈ Method.byTram.minimalSteps, Method.byTram.Precedes t.id "leave") ∧
    tramTrip.openingTasks "by-tram" ≠ [] ∧
    (∃ s ∈ Method.byTram.minimalSteps,
      ∃ t, tramTrip.task? s.task = some t ∧ openFrom ∈ t.preconditions) := by
  have hacyclic : Method.byTram.Acyclic := by
    rw [Method.acyclic_iff]
    decide
  have hname : tramTrip.resolveMethod "by-tram" = .ok Method.byTram := rfl
  obtain ⟨hbelow, -, hopenings⟩ := first_steps_below hacyclic
  obtain ⟨hnil, hdropped⟩ := hopenings tramTrip Method.byTram hname
  have hsteps : Method.byTram.steps ≠ [] := List.cons_ne_nil _ _
  refine ⟨hacyclic, hname, ?_, mt hnil.1 hsteps, ?_⟩
  · exact (hbelow Method.byTram.steps[0] List.mem_cons_self).resolve_left (by decide)
  · obtain ⟨⟨s, hs⟩, hall⟩ | hchecks :=
      (hdropped (Draft.ofDomain tramTrip) openFrom).1 hsteps (by decide +kernel)
    · exact ⟨s, hs, hall s hs⟩
    · cases hchecks

def atHand : Method := { byHand with steps := [] }

def fetchingAtHand : Domain := { fetching with methods := [byHand, atHand] }

/-- A method with a first step is taken for its namesake without steps, and what it needs is dropped
though no task has it for a precondition. -/
theorem first_steps_of_namesake :
    ((∀ t ∈ fetchingAtHand.tasks, t.check = .ok ()) ∧
      ∀ m ∈ fetchingAtHand.methods, fetchingAtHand.checkMethod m = .ok ()) ∧
    (byHand ∈ fetchingAtHand.methods ∧ byHand.stepIds.Nodup ∧ byHand.Acyclic ∧
      byHand.minimalSteps = byHand.steps ∧ byHand.steps ≠ []) ∧
    fetchingAtHand.openingTasks byHand.name = [] ∧
    fetchingAtHand.CountsRedundant "fetch" [] (Draft.ofDomain fetchingAtHand) byHand zFree ∧
    (∀ t ∈ fetchingAtHand.tasks, zFree ∉ t.preconditions) ∧
    ¬(Draft.ofDomain fetchingAtHand).checks byHand.name zFree := by
  have hoffers : fetchingAtHand.offersOf "fetch" ("free", true) = [] ++ [(byHand, zFree)] := by
    decide +kernel
  exact ⟨⟨by decide, by decide⟩,
    ⟨List.mem_cons_self, by decide, Method.acyclic_iff.2 (by decide), by decide, by decide⟩, rfl,
    countsRedundant_of_isRedundant rfl hoffers .nil (by decide), by decide, by decide⟩

end TaskNetwork
