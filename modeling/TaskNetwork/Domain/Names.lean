import TaskNetwork.Domain.Integrity
import TaskNetwork.Domain.Order

namespace TaskNetwork

def lastIndex? {α : Type} (p : α → Bool) : List α → Option Nat
  | [] => none
  | a :: l =>
    match lastIndex? p l with
    | some i => some (i + 1)
    | none => if p a then some 0 else none

/-- How a variable of a method relates to the task the method does. -/
inductive Binding where
  /-- The variable stands for the task's parameter at this position. -/
  | exposed (position : Nat)
  /-- The variable is the method's own. -/
  | hidden
deriving DecidableEq

def Sorts.instances? (s : Sorts) (sort : String) : Option NameSet := s.entries.lookup sort

def Task.resolveParameter (t : Task) (parameter : String) : Except DomainError Nat :=
  match lastIndex? (· = parameter) t.parameterNames with
  | some i => .ok i
  | none => .error (.unknownParameter t.name parameter)

namespace Method

def resolveVariable (m : Method) (name : String) : Except DomainError Nat :=
  match lastIndex? (· = name) m.variableNames with
  | some i => .ok i
  | none => .error (.unknownVariable m.name name)

def sortOf (m : Method) (name : String) : Except DomainError String :=
  match m.declarations.reverse.find? (·.name = name) with
  | some v => .ok v.sort
  | none => .error (.unknownVariable m.name name)

/-- A variable passed to the task more than once counts at the last position. -/
def binding (m : Method) (name : String) : Except DomainError Binding :=
  match lastIndex? (· = name) m.taskArguments with
  | some i => .ok (.exposed i)
  | none => if name ∈ m.variableNames then .ok .hidden else .error (.unknownVariable m.name name)

end Method

namespace Domain

def instances (d : Domain) (sort : String) : Except DomainError NameSet :=
  match d.sorts.instances? sort with
  | some names => .ok names
  | none => .error (.unknownSort sort)

def methodIndex (d : Domain) (method : String) : Except DomainError Nat :=
  match lastIndex? (·.name = method) d.methods with
  | some i => .ok i
  | none => .error (.unknownMethod method)

/-- The last method of that name, or the error that there is none. -/
def resolveMethod (d : Domain) (method : String) : Except DomainError Method :=
  match d.methods.reverse.find? (·.name = method) with
  | some m => .ok m
  | none => .error (.unknownMethod method)

def parameterIndex (d : Domain) (task parameter : String) : Except DomainError Nat := do
  (← d.resolveTask task).resolveParameter parameter

def variableIndex (d : Domain) (method name : String) : Except DomainError Nat := do
  (← d.resolveMethod method).resolveVariable name

def sortOf (d : Domain) (method name : String) : Except DomainError String := do
  (← d.resolveMethod method).sortOf name

def binding (d : Domain) (method name : String) : Except DomainError Binding := do
  (← d.resolveMethod method).binding name

def methodsOf (d : Domain) (task : String) : List (Method × Nat) :=
  d.methods.zipIdx.filter (·.1.task = task)

def openingTasks (d : Domain) (method : String) : List String :=
  match d.resolveMethod method with
  | .ok m => increasing (m.minimalSteps.map (·.task))
  | .error _ => []

end Domain

end TaskNetwork
