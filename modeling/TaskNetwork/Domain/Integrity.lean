import TaskNetwork.Domain.Error

namespace TaskNetwork

/-- The first member that equals an earlier one. -/
def firstRepeat? (l : List String) : Option String := go [] l
where
  /-- Looks for the first member that is in `seen` or equals an earlier one. -/
  go (seen : List String) : List String → Option String
    | [] => none
    | a :: l => if a ∈ seen then some a else go (a :: seen) l

def reportViolation (entity : String) : Option Violation → Except DomainError Unit
  | none => .ok ()
  | some v => .error (.integrity entity v)

namespace Task

def violation? (t : Task) : Option Violation :=
  (firstRepeat? t.parameterNames).map .duplicateParameter
  <|> (if t.parameters.length < t.givenParameters.toNat then
        some (.missingParameters t.givenParameters.toNat t.parameters.length) else none)
  <|> (t.preconditions ++ t.effects).findSome? fun l =>
        (l.arguments.find? (· ∉ t.parameterNames)).map (.undeclaredArgument l)

def check (t : Task) : Except DomainError Unit := reportViolation t.name t.violation?

end Task

namespace Method

/-- The variables that the method uses, in the order in which they are looked at. -/
def usedNames (m : Method) : List String :=
  m.taskArguments ++ m.steps.flatMap (·.arguments) ++ m.constraints.flatMap (·.arguments)

/-- A repeated variable, a repeated step id, an ordering of ids that are no steps, or a variable
that is used and not declared. -/
def violation? (m : Method) : Option Violation :=
  (firstRepeat? m.variableNames).map .duplicateVariable
  <|> (firstRepeat? m.stepIds).map .duplicateStep
  <|> (m.ordering.find? fun p => p.1 ∉ m.stepIds ∨ p.2 ∉ m.stepIds).map
        (fun p => .unknownStepOrder p.1 p.2)
  <|> (m.usedNames.find? (· ∉ m.variableNames)).map .undeclaredVariable

def check (m : Method) : Except DomainError Unit := reportViolation m.name m.violation?

end Method

namespace Domain

def resolveTask (d : Domain) (name : String) : Except DomainError Task :=
  match d.task? name with
  | some t => .ok t
  | none => .error (.unknownTask name)

def checkStep (d : Domain) (m : Method) (s : Step) : Except DomainError Unit := do
  let t ← d.resolveTask s.task
  if t.parameters.length ≠ s.arguments.length then
    throw (.arityMismatch m.name s.id t.parameters.length s.arguments.length)

/-- Checks the method by itself, then against its task, then step by step. -/
def checkMethod (d : Domain) (m : Method) : Except DomainError Unit := do
  m.check
  let t ← d.resolveTask m.task
  if t.parameters.length ≠ m.taskArguments.length then
    throw (.integrity m.name
      (.taskArgumentCount m.taskArguments.length t.name t.parameters.length))
  m.steps.forM (d.checkStep m)

end Domain

end TaskNetwork
