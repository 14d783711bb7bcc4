import TaskNetwork.Proofs.DecompositionGraphs
import TaskNetwork.Proofs.Resolution

namespace TaskNetwork

namespace Domain

open Relation

variable {d : Domain} {a b : String}

/-- A method for the abstract task `a` has a step whose task is `b`. -/
def Decomposes (d : Domain) (a b : String) : Prop :=
  a ∈ d.abstractTasks.map (·.name) ∧ ∃ m ∈ d.methods, m.task = a ∧ ∃ s ∈ m.steps, s.task = b

def Reaches (d : Domain) : String → String → Prop := ReflTransGen d.Decomposes

def Recursive (d : Domain) (a : String) : Prop := TransGen d.Decomposes a a

theorem mem_decompositionEdges : (a, b) ∈ d.decompositionEdges ↔ d.Decomposes a b := by
  simp only [decompositionEdges, Decomposes, List.mem_flatMap, List.mem_map, Prod.exists,
    mem_methodsOf, Prod.mk.injEq]
  constructor
  · rintro ⟨t, ht, m, i, hm, s, hs, rfl, rfl⟩
    exact ⟨⟨t, ht, rfl⟩, m, List.mem_of_getElem? hm.1, hm.2, s, hs, rfl⟩
  · rintro ⟨⟨t, ht, rfl⟩, m, hm, hn, s, hs, rfl⟩
    obtain ⟨i, hi⟩ := List.mem_iff_getElem?.1 hm
    exact ⟨t, ht, m, i, ⟨hi, hn⟩, s, hs, rfl, rfl⟩

theorem hasEdge_decompositionGraph : d.decompositionGraph.HasEdge a b ↔ d.Decomposes a b := by
  rw [decompositionGraph, DecompositionGraph.hasEdge_foldl_addEdge,
    DecompositionGraph.hasEdge_foldl_addNode, mem_decompositionEdges]
  refine or_iff_right ?_
  rintro ⟨_, _, he, -⟩
  cases he

theorem mem_loops {components : List (List Nat)}
    (h : d.decompositionGraph.StronglyConnected components) :
    a ∈ d.decompositionGraph.loops components ↔ d.Recursive a := by
  have hedge : d.decompositionGraph.HasEdge = d.Decomposes := by
    funext a b
    exact propext hasEdge_decompositionGraph
  rw [h.mem_loops, Recursive, ← hedge]
  constructor
  · rintro ⟨i, ha, hcycle⟩
    exact (DecompositionGraph.onCycle_iff ha).1 hcycle
  · intro hcycle
    obtain ⟨_, ⟨i, _, _, ha, _⟩, _⟩ := TransGen.head'_iff.1 hcycle
    exact ⟨i, ha, (DecompositionGraph.onCycle_iff ha).2 hcycle⟩

theorem mem_recursiveTasks : a ∈ d.recursiveTasks ↔ d.Recursive a :=
  mem_loops DecompositionGraph.stronglyConnected_components

/-- However the components are listed, the loops are the abstract tasks that a chain of
decompositions leads back to. -/
theorem mem_loops_iff_recursive {components : List (List Nat)}
    (h : d.decompositionGraph.StronglyConnected components) :
    d.decompositionGraph.loops components = d.recursiveTasks ∧
      ∀ n, n ∈ d.decompositionGraph.loops components ↔
        n ∈ d.abstractTasks.map (·.name) ∧ d.Recursive n := by
  constructor
  · refine (increasing_increasing _).eq_of_mem_iff (increasing_increasing _) fun n => ?_
    exact (mem_loops h).trans mem_recursiveTasks.symm
  · intro n
    rw [mem_loops h, iff_and_self]
    intro hn
    obtain ⟨_, hdecomposes, _⟩ := TransGen.head'_iff.1 hn
    exact hdecomposes.1

/-- Shopping and going there lead to each other, one of them by two steps, and walking leads to
itself. Nothing leads back to the day, to a primitive task or to the nap, which is not declared. -/
def busyDay : Domain where
  sorts := { entries := [("corner", NameSet.ofList ["north", "south"])] }
  primitiveTasks := [.ofParameters "pay" [],
    .ofParameters "stride" [{ name := "to", sort := "corner" }]]
  abstractTasks := [.ofParameters "day" [], .ofParameters "shop" [], .ofParameters "go" [],
    .ofParameters "walk" []]
  methods := [
    { name := "spend", task := "day", taskArguments := []
      steps := [⟨"buy", "shop", []⟩, ⟨"stroll", "walk", []⟩, ⟨"rest", "nap", []⟩] },
    { name := "wander", task := "walk", taskArguments := []
      declarations := [{ name := "next", sort := "corner" }]
      steps := [⟨"first", "stride", ["next"]⟩, ⟨"more", "walk", []⟩] },
    { name := "visit", task := "shop", taskArguments := []
      steps := [⟨"leave", "go", []⟩, ⟨"pay", "pay", []⟩] },
    { name := "detour", task := "go", taskArguments := []
      steps := [⟨"near", "shop", []⟩, ⟨"on", "walk", []⟩, ⟨"far", "shop", []⟩] }]

theorem mem_loops_iff_recursive_busyDay :
    busyDay.decompositionGraph.loops [[4], [6], [3], [5], [2, 1], [0]] = ["go", "shop", "walk"] ∧
      busyDay.Recursive "go" ∧ ¬busyDay.Recursive "day" := by
  have hcomponents : busyDay.decompositionGraph.StronglyConnected
      [[4], [6], [3], [5], [2, 1], [0]] := by
    refine ⟨by decide +kernel, by decide, ?_⟩
    simp only [← DecompositionGraph.mem_below]
    decide +kernel
  obtain ⟨-, hiff⟩ := mem_loops_iff_recursive hcomponents
  have hloops : busyDay.decompositionGraph.loops [[4], [6], [3], [5], [2, 1], [0]] =
      ["go", "shop", "walk"] := by
    decide +kernel
  refine ⟨hloops, ((hiff "go").1 (hloops ▸ by decide)).2, fun hday => ?_⟩
  have hmem := (hiff "day").2 ⟨by decide, hday⟩
  rw [hloops] at hmem
  exact absurd hmem (by decide)

theorem Decomposes.reaches (h : d.Decomposes a b) : d.Reaches a b := .single h

theorem Decomposes.recursive (h : d.Decomposes a b) (hr : d.Reaches b a) : d.Recursive b :=
  TransGen.tail' hr h

end Domain

end TaskNetwork
