import TaskNetwork.Domain.Basic
import TaskNetwork.Reachability

namespace TaskNetwork

def neighbours {α : Type} (l : List α) : List (α × α) := l.zip l.tail

namespace Method

/-- The ids that come before this one, directly or through other ids. -/
def idsBefore (m : Method) (id : String) : List String := reachable (m.ordering.map Prod.swap) [id]

/-- The step with id `a` comes before the one with id `b`. -/
def Precedes (m : Method) (a b : String) : Prop := a ≠ b ∧ a ∈ m.idsBefore b

instance (m : Method) (a b : String) : Decidable (m.Precedes a b) :=
  inferInstanceAs (Decidable (_ ∧ _))

def predecessors (m : Method) (id : String) : List Step :=
  let ids := m.idsBefore id
  m.steps.filter fun s => s.id ≠ id ∧ s.id ∈ ids

/-- The steps before which no other step has to come. -/
def minimalSteps (m : Method) : List Step := m.steps.filter fun s => (m.predecessors s.id).isEmpty

def inListOrder (m : Method) : Method := { m with ordering := neighbours m.stepIds }

def rank (m : Method) (id : String) : Nat := (m.predecessors id).length

/-- The steps by rank; steps of the same rank stay as they are listed. -/
def stepsByRank (m : Method) : List Step :=
  m.steps.mergeSort fun s t => m.rank s.id ≤ m.rank t.id

/-- The method with its steps sorted along the ordering and the ordering cut down to the neighbours,
if there is a step and each one comes before its neighbour. -/
def chain? (m : Method) : Option Method :=
  let steps := m.stepsByRank
  if steps ≠ [] ∧ ∀ p ∈ neighbours steps, m.Precedes p.1.id p.2.id then
    some { m with steps, ordering := neighbours (steps.map (·.id)) }
  else none

end Method

end TaskNetwork
