import TaskNetwork.Domain.Names
import TaskNetwork.Reachability

namespace TaskNetwork

/-- The nodes are names. An edge is a pair of positions of nodes, and there may be several between
the same two. -/
structure DecompositionGraph where
  nodes : List String := []
  edges : List (Nat × Nat) := []
  nodup_nodes : nodes.Nodup := by decide
  edges_lt : ∀ e ∈ edges, e.1 < nodes.length ∧ e.2 < nodes.length := by decide

namespace DecompositionGraph

def addNode (g : DecompositionGraph) (name : String) : DecompositionGraph :=
  if h : name ∈ g.nodes then g
  else
    { g with
      nodes := g.nodes ++ [name]
      nodup_nodes := by
        refine List.nodup_append.2 ⟨g.nodup_nodes, List.pairwise_singleton _ _, ?_⟩
        rintro a ha _ hb rfl
        exact h (List.mem_singleton.1 hb ▸ ha)
      edges_lt := fun e he => by
        rw [List.length_append]
        exact (g.edges_lt e he).imp (Nat.lt_add_right _) (Nat.lt_add_right _) }

theorem mem_nodes_addNode {g : DecompositionGraph} {name a : String} :
    a ∈ (g.addNode name).nodes ↔ a ∈ g.nodes ∨ a = name := by
  rw [addNode]
  split
  · next h => exact ⟨.inl, fun ha => ha.elim id (· ▸ h)⟩
  · simp

/-- Adds an edge between two names and those of the two that are no nodes yet. -/
def addEdge (g : DecompositionGraph) (names : String × String) : DecompositionGraph :=
  let g' := (g.addNode names.1).addNode names.2
  { g' with
    edges := g'.edges ++ [(g'.nodes.idxOf names.1, g'.nodes.idxOf names.2)]
    edges_lt := fun e he => by
      obtain he | he := List.mem_append.1 he
      · exact g'.edges_lt e he
      · obtain rfl := List.mem_singleton.1 he
        constructor <;> simp [g', List.idxOf_lt_length_iff, mem_nodes_addNode] }

/-- The names of the nodes in components of two or more and of those that an edge leads straight
back to. -/
def loops (g : DecompositionGraph) (components : List (List Nat)) : List String :=
  let members := components.flatMap fun c =>
    if 1 < c.length then c else c.head?.toList.filter fun i => (i, i) ∈ g.edges
  increasing (members.filterMap (g.nodes[·]?))

def below (g : DecompositionGraph) (i : Nat) : List Nat := i :: reachable g.edges [i]

def component (g : DecompositionGraph) (i : Nat) : List Nat :=
  let below := g.below i
  (List.range g.nodes.length).filter fun j => j ∈ below ∧ i ∈ g.below j

/-- The strongly connected components, each at its first node. -/
def components (g : DecompositionGraph) : List (List Nat) :=
  let first := (List.range g.nodes.length).filter fun i => (g.component i).head? = some i
  first.map g.component

end DecompositionGraph

namespace Domain

def decompositionEdges (d : Domain) : List (String × String) :=
  d.abstractTasks.flatMap fun t =>
    (d.methodsOf t.name).flatMap fun p => p.1.steps.map fun s => (t.name, s.task)

/-- The abstract tasks come first, then the other tasks that steps ask for. -/
def decompositionGraph (d : Domain) : DecompositionGraph :=
  d.decompositionEdges.foldl .addEdge ((d.abstractTasks.map (·.name)).foldl .addNode {})

def recursiveTasks (d : Domain) : List String :=
  d.decompositionGraph.loops d.decompositionGraph.components

end Domain

end TaskNetwork
