import TaskNetwork.Proofs.RegularizedDomains

namespace TaskNetwork

namespace Method

/-- The chains that are cut when a chain is cut `n` times, each with the names that are taken at
that time. -/
def cuts (taken : List String) (m : Method) : ℕ → List (List String × Method)
  | 0 => []
  | n + 1 =>
    match m.steps with
    | first :: second :: later =>
      let cut := m.nextCut taken first second later
      (taken, m) :: cuts (cut.task.name :: taken) cut.rest n
    | _ => []

/-- Cutting the chain goes through: the lists that are taken apart are long enough, no part
contradicts itself, and the new step and the new method fit the new task. -/
structure CutsSafely (taken : List String) (m : Method) : Prop where
  ordering : m.ordering ≠ []
  parts : ∃ first second later s, m.steps = first :: second :: later ∧ later ≠ [] ∧
    (m.nextCut taken first second later).fault? = none ∧
    (m.nextCut taken first second later).head.steps = [first, s] ∧
    s.arguments.length = (m.nextCut taken first second later).task.parameters.length ∧
    (m.nextCut taken first second later).rest.taskArguments.length =
      (m.nextCut taken first second later).task.parameters.length

end Method

def cutsOfEach (taken : List String) : List Method → List (List String × Method)
  | [] => []
  | m :: methods =>
    match m.longChain? with
    | none => cutsOfEach taken methods
    | some chain =>
      let n := chain.steps.length - 2
      chain.cuts taken n ++
        cutsOfEach ((cascade taken chain n).tasks.map (·.name) ++ taken) methods

def Domain.cuts (d : Domain) : List (List String × Method) :=
  cutsOfEach (d.tasks.map (·.name)) d.methods

/-- The counters in the names of the chains that are cut, and those that are tried after them, are
machine words. -/
def CountersFit (cuts : List (List String × Method)) : Prop :=
  ∀ c ∈ cuts, c.2.nextCounter c.1 < UInt64.size

section Cuts

variable {taken : List String} {m : Method} {ms : List Method} {n : ℕ} {first second : Step}
  {later : List Step}

theorem Method.Splits.cuts_succ (h : m.Splits first second later) : m.cuts taken (n + 1) =
    (taken, m) :: (m.nextCut taken first second later).rest.cuts
      ((m.nextCut taken first second later).task.name :: taken) n := by
  rw [cuts, h.steps]

theorem Method.Splits.cutsSafely (h : m.Splits first second later) : m.CutsSafely taken where
  ordering := by
    rw [h.inListOrder, stepIds, h.steps]
    exact List.cons_ne_nil _ _
  parts := ⟨first, second, later, _, h.steps, h.later_ne_nil, h.fault?_cut, cut_head_steps,
    List.length_map _, List.length_map _⟩

theorem cutsSafely_of_mem_cuts (hm : m.Consistent) (horder : m.InListOrder)
    (hlen : m.steps.length = n + 2) : ∀ c ∈ m.cuts taken n, c.2.CutsSafely c.1 := by
  induction n generalizing taken m with
  | zero =>
    intro c hc
    cases hc
  | succ n ih =>
    obtain ⟨first, second, later, h, hlater⟩ := Method.exists_splits hm horder hlen
    rw [h.cuts_succ]
    exact List.forall_mem_cons.2 ⟨h.cutsSafely,
      ih (h.consistent_rest _ _) h.inListOrder_rest (congrArg (· + 1) hlater)⟩

theorem fault?_cascade (hm : m.Consistent) (horder : m.InListOrder)
    (hlen : m.steps.length = n + 2) (hcounters : CountersFit (m.cuts taken n)) :
    (cascade taken m n).fault? = none := by
  induction n generalizing taken m with
  | zero => rfl
  | succ n ih =>
    obtain ⟨first, second, later, h, hlater⟩ := Method.exists_splits hm horder hlen
    rw [CountersFit, h.cuts_succ] at hcounters
    obtain ⟨hcounter, hcounters⟩ := List.forall_mem_cons.1 hcounters
    rw [h.cascade_succ, if_pos hcounter]
    exact ih (h.consistent_rest _ _) h.inListOrder_rest (congrArg (· + 1) hlater) hcounters

theorem cutsSafely_of_mem_cutsOfEach (hms : ∀ m ∈ ms, m.Consistent) :
    ∀ c ∈ cutsOfEach taken ms, c.2.CutsSafely c.1 := by
  induction ms generalizing taken with
  | nil =>
    intro c hc
    cases hc
  | cons m ms ih =>
    obtain ⟨hm, hms⟩ := List.forall_mem_cons.1 hms
    rw [cutsOfEach]
    split
    · exact ih hms
    · next chain hlong =>
      obtain ⟨hchain, horder, hlen⟩ := hm.of_longChain? hlong
      exact List.forall_mem_append.2
        ⟨cutsSafely_of_mem_cuts hchain horder (by omega), ih hms⟩

theorem fault?_cascades_of_countersFit (hms : ∀ m ∈ ms, m.Consistent)
    (hcounters : CountersFit (cutsOfEach taken ms)) : (cascades taken ms).fault? = none := by
  induction ms generalizing taken with
  | nil => rfl
  | cons m ms ih =>
    obtain ⟨hm, hms⟩ := List.forall_mem_cons.1 hms
    rw [cascades]
    rw [CountersFit, cutsOfEach] at hcounters
    cases hlong : m.longChain? with
    | none =>
      simp only [hlong] at hcounters
      exact ih hms hcounters
    | some chain =>
      simp only [hlong] at hcounters
      obtain ⟨hfirst, hrest⟩ := List.forall_mem_append.1 hcounters
      obtain ⟨hchain, horder, hlen⟩ := hm.of_longChain? hlong
      have hfault := fault?_cascade hchain horder (by omega) hfirst
      simp only [hfault, Option.isSome_none, Bool.false_eq_true, if_false]
      exact ih hms hrest

end Cuts

/-- As long as counters are machine words, all cuts go through, and tasks and methods pass their
checks afterwards. -/
theorem regularize_checks {d : Domain} (htasks : ∀ t ∈ d.tasks, t.check = .ok ())
    (hmethods : ∀ m ∈ d.methods, d.checkMethod m = .ok ()) (hcounters : CountersFit d.cuts) :
    (∀ c ∈ d.cuts, c.2.CutsSafely c.1) ∧ (∃ report, d.regularize.2 = .ok report) ∧
      (∀ t ∈ d.regularize.1.tasks, t.check = .ok ()) ∧
      ∀ m ∈ d.regularize.1.methods, d.regularize.1.checkMethod m = .ok () := by
  have hfits : ∀ m ∈ d.methods, d.Fits m := fun m hm => Domain.checkMethod_eq_ok.1 (hmethods m hm)
  have hconsistent : ∀ m ∈ d.methods, m.Consistent := fun m hm => (hfits m hm).consistent
  have hfault := fault?_cascades_of_countersFit hconsistent hcounters
  obtain ⟨parts, h⟩ := Domain.exists_parts hfits hfault
  refine ⟨cutsSafely_of_mem_cutsOfEach hconsistent,
    ⟨_, by simp [Domain.regularize, hfault]; rfl⟩, fun t ht => Task.check_eq_ok.2 ?_,
    fun m hm => Domain.checkMethod_eq_ok.2 (h.fits hfits m hm)⟩
  exact h.consistent_tasks (fun u hu => Task.check_eq_ok.1 (htasks u hu)) t ht

def circularTrip : Method where
  name := "_two_reg_method6__trip"
  task := "deliver"
  taskArguments := ["from", "to"]
  declarations := [{ name := "from", sort := "place" }, { name := "to", sort := "place" }]
  steps := [{ id := "a", task := "walk", arguments := ["from"] },
    { id := "b", task := "drive", arguments := ["from", "to"] },
    { id := "c", task := "walk", arguments := ["to"] }]
  ordering := [("a", "b"), ("b", "c"), ("c", "a")]

/-- The method is there twice, and so is a task with the first name that is tried for the rest of it.
-/
def tangled : Domain :=
  { delivery with
    abstractTasks := delivery.abstractTasks ++
      List.replicate 2 (Task.ofParameters "_two_reg_task7__trip" [])
    methods := [circularTrip, circularTrip] }

theorem longChain?_circularTrip : circularTrip.longChain? =
    some { circularTrip with ordering := [("a", "b"), ("b", "c")] } := by
  have hsteps : circularTrip.stepsByRank = circularTrip.steps :=
    List.mergeSort_of_pairwise (by decide)
  rw [Method.longChain?, Method.chain?, hsteps]
  decide

theorem regularize_checks_tangled : tangled.cuts.length = 2 ∧
    (∃ report, tangled.regularize.2 = .ok report) ∧
    (∀ t ∈ tangled.regularize.1.tasks, t.check = .ok ()) ∧
    ∀ m ∈ tangled.regularize.1.methods, tangled.regularize.1.checkMethod m = .ok () := by
  have hcounters : CountersFit tangled.cuts ∧ tangled.cuts.length = 2 := by
    simp only [CountersFit, Domain.cuts, tangled, cutsOfEach, longChain?_circularTrip]
    decide +kernel
  obtain ⟨-, hrun, htasks, hmethods⟩ := regularize_checks (d := tangled) (by decide) (by decide)
    hcounters.1
  exact ⟨hcounters.2, hrun, htasks, hmethods⟩

end TaskNetwork
