import TaskNetwork.Domain.Basic

namespace TaskNetwork

/-- How a task or method contradicts itself or the task it belongs to. -/
inductive Violation where
  | duplicateParameter (name : String)
  | missingParameters (given declared : Nat)
  | undeclaredArgument (literal : Literal) (argument : String)
  | duplicateVariable (name : String)
  | duplicateStep (id : String)
  | unknownStepOrder (before after : String)
  | undeclaredVariable (name : String)
  | taskArgumentCount (given : Nat) (task : String) (declared : Nat)
  | unmatchedPosition (position : Nat) (task : String)
deriving DecidableEq

def Violation.message : Violation → String
  | .duplicateParameter name => s!"duplicate parameter {name}"
  | .missingParameters given declared =>
    s!"{given} original parameters but only {declared} declared"
  | .undeclaredArgument literal argument =>
    "literal " ++ literal.text ++ s!" uses undeclared {argument}"
  | .duplicateVariable name => s!"duplicate variable {name}"
  | .duplicateStep id => s!"duplicate plan step id {id}"
  | .unknownStepOrder before after => s!"ordering {before} < {after} uses unknown ids"
  | .undeclaredVariable name => s!"variable {name} is not declared"
  | .taskArgumentCount given task declared =>
    s!"binds {given} arguments to {task} with {declared} parameters"
  | .unmatchedPosition position task =>
    s!"binds position {position} of {task} which has no such parameter"

/-- A name without a declaration, or declarations that do not fit together. -/
inductive DomainError where
  | unknownTask (task : String)
  | unknownMethod (method : String)
  | unknownParameter (task parameter : String)
  | unknownVariable (method name : String)
  | unboundVariable (method name : String)
  | unknownSort (sort : String)
  | arityMismatch (method step : String) (expected actual : Nat)
  | integrity (entity : String) (violation : Violation)
deriving DecidableEq

namespace DomainError

def message : DomainError → String
  | .unknownTask task => s!"unknown task \"{task}\""
  | .unknownMethod method => s!"unknown method \"{method}\""
  | .unknownParameter task parameter => s!"task \"{task}\" has no parameter \"{parameter}\""
  | .unknownVariable method name => s!"method \"{method}\" has no variable \"{name}\""
  | .unboundVariable method name =>
    s!"variable \"{name}\" of method \"{method}\" is not bound to the decomposed task"
  | .unknownSort sort => s!"unknown sort \"{sort}\""
  | .arityMismatch method step expected actual =>
    s!"plan step \"{step}\" of method \"{method}\" passes {actual} arguments, "
      ++ s!"task expects {expected}"
  | .integrity entity violation => s!"integrity violation in \"{entity}\": " ++ violation.message

def code : DomainError → String
  | .unknownTask _ => "htn::model::unknown_task"
  | .unknownMethod _ => "htn::model::unknown_method"
  | .unknownParameter _ _ => "htn::model::unknown_param"
  | .unknownVariable _ _ => "htn::model::unknown_variable"
  | .unboundVariable _ _ => "htn::model::unbound_variable"
  | .unknownSort _ => "htn::model::unknown_sort"
  | .arityMismatch _ _ _ _ => "htn::model::arity"
  | .integrity _ _ => "htn::model::integrity"

end DomainError

end TaskNetwork
