import TaskNetwork.Domain.Names
import TaskNetwork.Failure
import TaskNetwork.Pattern.Basic

namespace TaskNetwork

/-- What becomes of the method's own variables in a pattern that is lowered into the method. -/
inductive HiddenPolicy where
  /-- The pattern is left out. -/
  | drop
  /-- The variable is hidden, and marked as the method's. -/
  | qualify
  /-- The variable keeps its name, which means nothing outside of the method. -/
  | keep
deriving DecidableEq

def HiddenPolicy.apply (method name : String) : HiddenPolicy → Option Argument
  | .drop => none
  | .qualify => some (.hidden method name)
  | .keep => some (.name name)

namespace Argument

/-- The argument in terms of the method, if it was in terms of the parameters of the step's task.
The task and the method are what their names stand for. -/
def lower (task : Except DomainError Task) (owner : Except DomainError Method) (m : Method)
    (s : Step) (policy : HiddenPolicy) : Argument → Except Failure (Option Argument)
  | .hidden method v => return some (.hidden method v)
  | .name parameter => do
    let i ← (← task).resolveParameter parameter
    let some v := s.arguments[i]?
      | throw (.domain (.arityMismatch m.name s.id (i + 1) s.arguments.length))
    match ← (← owner).binding v with
    | .hidden => return policy.apply m.name v
    | .exposed j =>
      let some w := m.taskArguments[j]? | throw (.fault (.outOfBounds m.taskArguments.length j))
      return some (.name w)

def raise (t : Task) (owner : Except DomainError Method) (m : Method) :
    Argument → Except DomainError Argument
  | .hidden method v => return .hidden method v
  | .name v => do
    match ← (← owner).binding v with
    | .hidden => throw (.unboundVariable m.name v)
    | .exposed i =>
      let some p := t.parameters[i]? | throw (.integrity m.name (.unmatchedPosition i t.name))
      return .name p.name

end Argument

namespace Pattern

/-- Lowers one argument after the other, and no further than to one that leaves the pattern out. -/
def lower (task : Except DomainError Task) (owner : Except DomainError Method) (m : Method)
    (s : Step) (policy : HiddenPolicy) : Pattern → Except Failure (Option Pattern)
  | [] => return some []
  | a :: p => do
    let some b ← a.lower task owner m s policy | return none
    return (← lower task owner m s policy p).map (b :: ·)

def raise (t : Task) (owner : Except DomainError Method) (m : Method) (p : Pattern) :
    Except DomainError Pattern :=
  p.mapM (Argument.raise t owner m)

end Pattern

namespace PatternSet

def lower (d : Domain) (m : Method) (s : Step) (policy : HiddenPolicy) :
    PatternSet → Except Failure PatternSet
  | .anything => return .anything
  | .listed ps => do
    let lowered ← ps.mapM (Pattern.lower (d.resolveTask s.task) (d.resolveMethod m.name) m s policy)
    return ofList (lowered.filterMap id)

def raise (d : Domain) (t : Task) (m : Method) : PatternSet → Except DomainError PatternSet
  | .anything => return .anything
  | .listed ps => return ofList (← ps.mapM (Pattern.raise t (d.resolveMethod m.name) m))

end PatternSet

end TaskNetwork
