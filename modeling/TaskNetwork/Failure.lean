import TaskNetwork.Domain.Error
import TaskNetwork.Quotation

namespace TaskNetwork

/-- A condition that a pass relies on and finds broken. -/
inductive Fault where
  /-- A number does not fit into the machine word that holds it. -/
  | overflow
  | outOfBounds (length index : Nat)
  /-- A chain was cut into parts of which one contradicts itself. -/
  | inconsistentCut (entity : String) (violation : Violation)
deriving DecidableEq

def Fault.message : Fault → String
  | .overflow => "attempt to add with overflow"
  | .outOfBounds length index =>
    s!"index out of bounds: the len is {length} but the index is {index}"
  | .inconsistentCut entity violation =>
    "two-regularization produced Err(Integrity \x7b entity: " ++ quotedText entity
      ++ ", message: " ++ quotedText violation.message ++ " \x7d)"

inductive Failure where
  | domain (error : DomainError)
  | unknownTopTask (task : String)
  /-- A literal to be checked by a method is about another method's variable. -/
  | opaqueArgument (method predicate argument : String)
  | fault (fault : Fault)
deriving DecidableEq

namespace Failure

def message : Failure → String
  | .domain e => e.message
  | .unknownTopTask task => s!"top-level task \"{task}\" does not exist"
  | .opaqueArgument method predicate argument =>
    s!"inferred literal {predicate} in method \"{method}\" carries the opaque argument {argument}"
  | .fault f => f.message

def code? : Failure → Option String
  | .domain e => some e.code
  | .unknownTopTask _ => some "htn::infer::no_top_task"
  | .opaqueArgument _ _ _ => some "htn::infer::opaque_argument"
  | .fault _ => none

end Failure

instance : MonadLift (Except DomainError) (Except Failure) where
  monadLift
    | .ok a => .ok a
    | .error e => .error (.domain e)

end TaskNetwork
