import TaskNetwork.Proofs.Necessity
import TaskNetwork.Proofs.WalkEvents

namespace TaskNetwork

open PatternSet

/-- What a method tells about its task, if this is known of the tasks of its steps. -/
def Method.contribution (d : Domain) (records : String → TaskRecord) (t : Task) (m : Method) :
    Except Failure Contribution := do
  return {
    needs := ← (← m.needs d records .drop).raise d t m
    ensures := ← (← m.ensures d records).raise d t m
    mayAdd := ← (← m.mayAdd d records).raise d t m }

section Equations

variable {d : Domain} {top predicate n : String} {positive : Bool} {seen : List String} {w : Sweep}

theorem Concludes.contribution {records : String → TaskRecord} {t : Task} {f : Finding}
    {c : Contribution} (h : Concludes d records t f c) :
    f.method.contribution d records t = .ok c := by
  obtain ⟨u, hu, hneeds⟩ := h.needs
  obtain ⟨v, hv, hensures⟩ := h.ensures
  simp only [Method.contribution, bind_eq_ok, liftM_eq_ok, pure_eq_ok]
  exact ⟨u, hu, _, hneeds, v, hv, _, hensures, _, h.may_add, _, h.raised, rfl⟩

theorem Concludes.normal_mayAdd {records : String → TaskRecord} {t : Task} {f : Finding}
    {c : Contribution} (h : Concludes d records t f c) : c.mayAdd.Normal :=
  normal_of_raise h.raised

/-- All methods of a visited task have been concluded from the final records. -/
theorem Walked.concluded (h : Walked d top predicate positive seen [] w) (hn : n ∈ seen)
    (hnp : ¬d.IsPrimitive n) : ∃ t cs, d.task? n = some t ∧
      List.Forall₂ (Concludes d w.record t) (w.findingsOf n) cs ∧
      (w.findingsOf n).map (fun f => (f.method, f.position)) = d.methodsOf n ∧
      w.record n = cs.foldl TaskRecord.add (d.firstRecord n) := by
  obtain ⟨-, t, ht, hmethods, cs, hcs, hrec⟩ := h.entered n hn hnp
  rw [show outstanding n [] = [] from rfl, List.append_nil] at hmethods
  exact ⟨t, cs, ht, hcs, hmethods, hrec⟩

theorem Walked.record_recursive (h : Walked d top predicate positive seen [] w) (hn : n ∈ seen)
    (hnp : ¬d.IsPrimitive n) (hrec : d.Recursive n) : w.record n = TaskRecord.ofRecursive := by
  obtain ⟨t, cs, -, -, -, hcs⟩ := h.concluded hn hnp
  rw [hcs, Domain.firstRecord, if_pos (Domain.mem_recursiveTasks.2 hrec),
    TaskRecord.foldl_add_ofRecursive]

theorem Walked.record_gathered (h : Walked d top predicate positive seen [] w) (hn : n ∈ seen)
    (hnp : ¬d.IsPrimitive n) (hrec : ¬d.Recursive n) : ∃ t cs, d.task? n = some t ∧
      (d.methodsOf n).mapM (fun p => p.1.contribution d w.record t) = .ok cs ∧
      w.record n = {
        initialized := !cs.isEmpty
        finished := true
        needs := intersections (cs.map (·.needs))
        ensures := intersections (cs.map (·.ensures))
        mayAdd := unions (cs.map (·.mayAdd)) } := by
  obtain ⟨t, cs, ht, hcs, hmethods, hrecord⟩ := h.concluded hn hnp
  have hnormal : ∀ c ∈ cs, c.mayAdd.Normal := by
    intro c hc
    obtain ⟨f, -, hf⟩ := exists_of_mem_right hcs hc
    exact hf.normal_mayAdd
  refine ⟨t, cs, ht, ?_, ?_⟩
  · rw [mapM_eq_ok, ← hmethods, List.forall₂_map_left_iff]
    exact hcs.imp fun _ _ hf => hf.contribution
  · rw [hrecord, Domain.firstRecord, if_neg (mt Domain.mem_recursiveTasks.1 hrec)]
    exact TaskRecord.foldl_add_first hnormal

end Equations

def goOn : Method where
  name := "go_on"
  task := "tour"
  taskArguments := ["z"]
  declarations := [{ name := "z", sort := "thing" }]
  steps := [
    { id := "s", task := "fetch", arguments := ["z"] },
    { id := "t", task := "tour", arguments := ["z"] }]
  ordering := [("s", "t")]

def goRound : Method where
  name := "go_round"
  task := "round"
  taskArguments := ["z"]
  declarations := [{ name := "z", sort := "thing" }, { name := "u", sort := "thing" }]
  steps := [
    { id := "s", task := "fetch", arguments := ["z"] },
    { id := "t", task := "tour", arguments := ["u"] }]

def touring : Domain :=
  { fetching with
    abstractTasks := ["fetch", "tour", "round"].map fun name =>
      Task.ofParameters name [{ name := "y", sort := "thing" }]
    methods := [byHand, goOn, goRound] }

end TaskNetwork
