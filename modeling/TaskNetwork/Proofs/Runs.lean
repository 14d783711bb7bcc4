import TaskNetwork.Proofs.TidyInference
import TaskNetwork.Refinement

namespace TaskNetwork

theorem length_cascade_le (taken : List String) (m : Method) (n : ℕ) :
    (cascade taken m n).tasks.length ≤ n := by
  induction n generalizing taken m with
  | zero => exact Nat.le_refl 0
  | succ n ih =>
    rw [cascade]
    split
    · dsimp only
      split
      · split
        · exact Nat.zero_le _
        · exact Nat.succ_le_succ (ih _ _)
      · exact Nat.zero_le _
    · exact Nat.zero_le _

theorem length_cascades_le (taken : List String) (ms : List Method) :
    (cascades taken ms).tasks.length ≤ (ms.flatMap (·.steps)).length := by
  induction ms generalizing taken with
  | nil => exact Nat.le_refl 0
  | cons m ms ih =>
    rw [cascades, List.flatMap_cons, List.length_append]
    split
    · exact (ih taken).trans (Nat.le_add_left _ _)
    · next chain hlong =>
      have hsteps : chain.steps.length = m.steps.length := by
        obtain ⟨rfl, -⟩ := Method.chain?_eq_some (Method.longChain?_eq_some hlong).2
        exact m.perm_stepsByRank.length_eq
      have hfirst := length_cascade_le taken chain (chain.steps.length - 2)
      dsimp only
      split
      · omega
      · have hlater := ih ((cascade taken chain (chain.steps.length - 2)).tasks.map (·.name) ++ taken)
        rw [List.length_append]
        omega

namespace Domain

variable {origin d : Domain}

theorem runPass_twoRegularize (d : Domain) (settings : Settings) (report : RunReport) :
    (d.runPass settings report .twoRegularize).1 = d.regularize.1 := by
  rw [runPass]
  split <;> next heq => rw [heq]

theorem Tidy.runPass (h : Tidy origin d) (horigin : origin.Unmarked) (settings : Settings)
    (report : RunReport) (pass : Pass)
    (hlen : (d.runPass settings report pass).1.abstractTasks.length <
      origin.abstractTasks.length + UInt64.size) :
    Tidy origin (d.runPass settings report pass).1 := by
  cases pass with
  | inferPreconditions =>
    rw [Domain.runPass]
    split
    · next hrun => exact h.inferPreconditions hrun
    · exact h
  | twoRegularize =>
    rw [runPass_twoRegularize] at hlen ⊢
    exact h.regularize horigin hlen

theorem length_abstractTasks_le (d : Domain) (settings : Settings) (report : RunReport)
    (pass : Pass) :
    d.abstractTasks.length ≤ (d.runPass settings report pass).1.abstractTasks.length := by
  cases pass with
  | inferPreconditions =>
    rw [runPass]
    split
    · next hrun =>
      obtain ⟨w, rfl, -⟩ := offered_of_inferPreconditions hrun
      exact Nat.le_refl _
    · exact Nat.le_refl _
  | twoRegularize =>
    rw [runPass_twoRegularize, regularize, List.length_append]
    exact Nat.le_add_right _ _

/-- The domain after passes of which each may fail. -/
def after (d : Domain) (passes : List (Settings × Pass)) : Domain :=
  passes.foldl (fun d p => (d.runPass p.1 {} p.2).1) d

theorem length_abstractTasks_le_after (d : Domain) (passes : List (Settings × Pass)) :
    d.abstractTasks.length ≤ (d.after passes).abstractTasks.length := by
  induction passes generalizing d with
  | nil => exact Nat.le_refl _
  | cons p passes ih => exact (d.length_abstractTasks_le p.1 {} p.2).trans (ih _)

theorem runPass_fst (d : Domain) (settings : Settings) (report report' : RunReport)
    (pass : Pass) :
    (d.runPass settings report pass).1 = (d.runPass settings report' pass).1 := by
  cases pass with
  | inferPreconditions =>
    rw [runPass, runPass]
    split <;> rfl
  | twoRegularize => rw [runPass_twoRegularize, runPass_twoRegularize]

/-- A run stops after a pass that fails, so it does what its first passes do. -/
theorem runPasses_eq_after (settings : Settings) (d : Domain) (report : RunReport)
    (passes : List Pass) : ∃ ran, ran <+: passes ∧
      (d.runPasses settings report passes).1 = d.after (ran.map (settings, ·)) := by
  induction passes generalizing d report with
  | nil => exact ⟨[], List.prefix_rfl, rfl⟩
  | cons p passes ih =>
    have hfst := d.runPass_fst settings {} report p
    rw [runPasses]
    split
    · next d' report' hp =>
      rw [hp] at hfst
      obtain ⟨ran, hran, hd'⟩ := ih d' report'
      refine ⟨p :: ran, List.cons_prefix_cons.2 ⟨rfl, hran⟩, ?_⟩
      rw [hd', List.map_cons, Domain.after, Domain.after, List.foldl_cons, hfst]
    · next d' e hp =>
      rw [hp] at hfst
      exact ⟨[p], List.cons_prefix_cons.2 ⟨rfl, List.nil_prefix⟩, hfst.symm⟩

theorem Tidy.after (h : Tidy origin d) (horigin : origin.Unmarked)
    (passes : List (Settings × Pass))
    (hlen : (d.after passes).abstractTasks.length <
      origin.abstractTasks.length + UInt64.size) : Tidy origin (d.after passes) := by
  induction passes generalizing d with
  | nil => exact h
  | cons p passes ih =>
    have hle := length_abstractTasks_le_after (d.runPass p.1 {} p.2).1 passes
    exact ih (h.runPass horigin p.1 {} p.2 (Nat.lt_of_le_of_lt hle hlen)) hlen

theorem Tidy.run (h : Tidy origin d) (horigin : origin.Unmarked) (settings : Settings)
    (hlen : (d.run settings).1.abstractTasks.length <
      origin.abstractTasks.length + UInt64.size) : Tidy origin (d.run settings).1 := by
  obtain ⟨ran, -, hran⟩ := runPasses_eq_after settings d {} settings.passes
  rw [Domain.run, hran] at hlen ⊢
  exact h.after horigin _ hlen

/-- If no name looks like one that a pass makes, then after any passes that make fewer than `2 ^ 64`
tasks for the rest of a chain all tasks and methods pass their checks, their names differ, and the
methods are those from before or for the rest of a chain that was cut from one of them. -/
theorem wellFormed_after (hd : d.WellFormed)
    (htasks : ∀ t ∈ d.tasks, ¬restTaskMark.toList <+: t.name.toList ∧
      ¬checkTaskMark.toList <+: t.name.toList)
    (hmethods : ∀ m ∈ d.methods, ¬restMethodMark.toList <+: m.name.toList)
    (hsteps : ∀ m ∈ d.methods, ∀ s ∈ m.steps, ¬newCheckStepMark.toList <+: s.id.toList)
    (passes : List (Settings × Pass))
    (hsplits : (d.after passes).abstractTasks.length < d.abstractTasks.length + UInt64.size) :
    (d.after passes).WellFormed ∧
      ∀ m ∈ (d.after passes).methods, (∃ n ∈ d.methods, m.name = n.name) ∨
        ∃ k, ∃ n ∈ d.methods, m.name = restMethodName k n.name := by
  have hunmarked : d.Unmarked :=
    ⟨fun t ht => (htasks t ht).1, fun t ht => (htasks t ht).2, hmethods, hsteps⟩
  have htidy : Tidy d (d.after passes) := (hd.tidy hunmarked).after hunmarked passes hsplits
  refine ⟨htidy.wellFormed, fun m hm => ?_⟩
  obtain hname | ⟨k, -, s, hs, hname, -⟩ := (htidy.methods m hm).name
  · obtain ⟨n, hn, hnm⟩ := List.mem_map.1 hname
    exact .inl ⟨n, hn, hnm.symm⟩
  · obtain ⟨n, hn, rfl⟩ := List.mem_map.1 hs
    exact .inr ⟨k, n, hn, hname⟩

end Domain

def byRail : Method where
  name := "by_rail"
  task := "travel"
  taskArguments := ["to"]
  declarations := [{ name := "to", sort := "place" }, { name := "at", sort := "place" }]
  steps := [{ id := "start", task := "walk", arguments := ["at"] },
    { id := "middle", task := "board", arguments := ["at"] },
    { id := "end", task := "ride", arguments := ["to"] }]
  ordering := [("start", "middle"), ("middle", "end")]

def railTrip : Domain where
  sorts := { entries := [("place", NameSet.ofList ["hall", "yard"])] }
  predicates := [{ name := "served", argumentSorts := ["place"] }]
  primitiveTasks := [
    Task.ofParameters "walk" [{ name := "at", sort := "place" }],
    Task.ofParameters "board" [{ name := "at", sort := "place" }],
    { Task.ofParameters "ride" [{ name := "to", sort := "place" }] with
      preconditions := [{ predicate := "served", positive := true, arguments := ["to"] }] }]
  abstractTasks := [Task.ofParameters "travel" [{ name := "to", sort := "place" }]]
  methods := [byRail]

def railPasses : List (Settings × Pass) :=
  [Pass.twoRegularize, Pass.inferPreconditions, Pass.twoRegularize].map
    ({ topTask := "travel" }, ·)

theorem longChain?_byRail : byRail.longChain? = some byRail := by
  have hsteps : byRail.stepsByRank = byRail.steps :=
    Method.stepsByRank_eq (.refl _) (by decide)
  rw [Method.longChain?, Method.chain?, hsteps]
  decide

theorem length_steps_railTrip :
    (railTrip.after (railPasses.take 2)).abstractTasks.length = 2 ∧
      (railTrip.after (railPasses.take 2)).methods.map (·.steps.length) = [3, 3] := by
  simp only [railPasses, List.map_cons, List.take_succ_cons, List.take_zero, Domain.after,
    List.foldl_cons, List.foldl_nil, Domain.runPass_twoRegularize]
  simp only [Domain.regularize, railTrip, cascades, longChain?_byRail]
  decide +kernel

theorem wellFormed_after_railTrip :
    (railTrip.WellFormed ∧
      (∀ t ∈ railTrip.tasks, ¬restTaskMark.toList <+: t.name.toList ∧
        ¬checkTaskMark.toList <+: t.name.toList) ∧
      (∀ m ∈ railTrip.methods, ¬restMethodMark.toList <+: m.name.toList) ∧
      (∀ m ∈ railTrip.methods, ∀ s ∈ m.steps, ¬newCheckStepMark.toList <+: s.id.toList) ∧
      (railTrip.after railPasses).abstractTasks.length <
        railTrip.abstractTasks.length + UInt64.size) ∧
    (railTrip.after railPasses).WellFormed ∧
      ∀ m ∈ (railTrip.after railPasses).methods, m.name = "by_rail" ∨
        ∃ k, m.name = restMethodName k "by_rail" := by
  have hd : railTrip.WellFormed := ⟨by decide, by decide, by decide, by decide⟩
  have htasks : ∀ t ∈ railTrip.tasks, ¬restTaskMark.toList <+: t.name.toList ∧
      ¬checkTaskMark.toList <+: t.name.toList := by decide +kernel
  have hmethods : ∀ m ∈ railTrip.methods, ¬restMethodMark.toList <+: m.name.toList := by
    decide +kernel
  have hsteps : ∀ m ∈ railTrip.methods, ∀ s ∈ m.steps,
      ¬newCheckStepMark.toList <+: s.id.toList := by decide +kernel
  have hsplits : (railTrip.after railPasses).abstractTasks.length <
      railTrip.abstractTasks.length + UInt64.size := by
    let e := railTrip.after (railPasses.take 2)
    have hlast : railTrip.after railPasses = e.regularize.1 := Domain.runPass_twoRegularize e _ _
    obtain ⟨habstract, hlengths⟩ := length_steps_railTrip
    have hle : (cascades (e.tasks.map (·.name)) e.methods).tasks.length ≤ [3, 3].sum := by
      rw [← hlengths, ← List.length_flatMap]
      exact length_cascades_le _ _
    rw [hlast, Domain.regularize, List.length_append, habstract]
    exact Nat.lt_of_le_of_lt (Nat.add_le_add_left hle 2) (by decide)
  obtain ⟨hwell, hnames⟩ :=
    railTrip.wellFormed_after hd htasks hmethods hsteps railPasses hsplits
  refine ⟨⟨hd, htasks, hmethods, hsteps, hsplits⟩, hwell, fun m hm => ?_⟩
  obtain ⟨n, hn, hname⟩ | ⟨k, n, hn, hname⟩ := hnames m hm
  · obtain rfl := List.mem_singleton.1 hn
    exact .inl hname
  · obtain rfl := List.mem_singleton.1 hn
    exact .inr ⟨k, hname⟩

end TaskNetwork
