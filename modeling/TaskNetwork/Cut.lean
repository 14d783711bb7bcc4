import TaskNetwork.Domain.Integrity
import TaskNetwork.Domain.Order
import TaskNetwork.Failure

namespace TaskNetwork

def restTaskMark : String := "_two_reg_task"

def restMethodMark : String := "_two_reg_method"

def numberedName (mark : String) (counter : Nat) (suffix : String) : String :=
  mark ++ String.ofList (Nat.toDigits 10 counter) ++ "__" ++ suffix

def restTaskName : Nat → String → String := numberedName restTaskMark

def restMethodName : Nat → String → String := numberedName restMethodMark

/-- The texts before and after the first two underscores that stand together. -/
def splitAtUnderscores : List Char → Option (List Char × List Char)
  | '_' :: '_' :: rest => some ([], rest)
  | c :: rest => (splitAtUnderscores rest).map fun (before, after) => (c :: before, after)
  | [] => none

/-- The machine word written with decimal digits, perhaps with a plus sign before them. -/
def wordOfDigits? (cs : List Char) : Option Nat :=
  let digits := match cs with
    | '+' :: ds => ds
    | ds => ds
  let n := Nat.ofDigitChars 10 digits 0
  if digits ≠ [] ∧ digits.all Char.isDigit ∧ n < UInt64.size then some n else none

def restMethodCounter? (name : String) : Option (Nat × String) := do
  guard (restMethodMark.toList.isPrefixOf name.toList)
  let (digits, suffix) ← splitAtUnderscores (name.toList.drop restMethodMark.length)
  return (← wordOfDigits? digits, String.ofList suffix)

/-- The first counter to try when a method of this name is cut, and the suffix of the new names.
Numbered names are counted on from, so that names do not grow. -/
def nameSeed (name : String) : Nat × String :=
  match restMethodCounter? name with
  | some (counter, suffix) => (counter + 1, suffix)
  | none => (0, name)

/-- The least counter from `seed` on with which the task's name is not taken. One of the first
`taken.length` counters is free, or the next one is. -/
def freshCounter (taken : List String) (suffix : String) (seed : Nat) : Nat :=
  ((List.range' seed taken.length).find? fun k => restTaskName k suffix ∉ taken).getD
    (seed + taken.length)

/-- The two methods that a chain becomes, and the task between them. -/
structure Cut where
  head : Method
  rest : Method
  task : Task
deriving DecidableEq

def addNew (l : List TypedName) (v : TypedName) : List TypedName := if v ∈ l then l else l ++ [v]

/-- Whether the constraint can be left to the rest of the chain: it is about variables of later
steps only, and none of the first step. -/
def belongsToRest (firstNames restNames : List String) (c : Literal) : Bool :=
  c.arguments.all fun a => a ∉ firstNames ∧ a ∈ restNames

/-- Cuts a chain of the first, the second and the later steps. The new task takes the variables of
the later steps that the head knows as well or that its constraints are about. -/
def Method.cut (m : Method) (taskName restName : String) (first second : Step)
    (later : List Step) : Cut :=
  let restNames := (second :: later).flatMap (·.arguments)
  let headVariables :=
    m.declarations.filter fun v => v.name ∈ m.taskArguments ∨ v.name ∈ first.arguments
  let restVariables := m.declarations.filter (·.name ∈ restNames)
  let headConstraints := m.constraints.filter (!belongsToRest first.arguments restNames ·)
  let restConstraints := m.constraints.filter (belongsToRest first.arguments restNames)
  let constrained := headConstraints.flatMap fun c => m.declarations.filter (·.name ∈ c.arguments)
  let parameters := (constrained.filter (·.name ∈ restNames)).foldl addNew
    (headVariables.filter (·.name ∈ restNames))
  let task := { Task.ofParameters taskName parameters with artificial := true }
  { task
    head := { m with
      declarations := constrained.foldl addNew headVariables
      steps := [first, { id := second.id, task := taskName, arguments := task.parameterNames }]
      ordering := [(first.id, second.id)]
      constraints := headConstraints }
    rest := {
      name := restName
      task := taskName
      taskArguments := task.parameterNames
      declarations := restVariables
      steps := second :: later
      ordering := m.ordering.tail
      constraints := restConstraints } }

/-- The first part of a cut that contradicts itself. -/
def Cut.fault? (c : Cut) : Option Fault :=
  c.task.violation?.map (.inconsistentCut c.task.name)
  <|> c.head.violation?.map (.inconsistentCut c.head.name)
  <|> c.rest.violation?.map (.inconsistentCut c.rest.name)

end TaskNetwork
