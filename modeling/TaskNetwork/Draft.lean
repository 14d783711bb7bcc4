import TaskNetwork.Sweep.Basic
import TaskNetwork.Tally

namespace TaskNetwork

/-- A step is a check step if the name of its task starts like this. -/
def checkTaskMark : String := "__method_precondition_"

def newCheckTaskMark : String := "__method_precondition_inference_"

def newCheckStepMark : String := "mprec_inference_"

structure CheckSlot where
  method : Nat
  step : Nat
  task : Nat
deriving DecidableEq

/-- The methods and primitive tasks as they are going to be, where the check steps are, and what was
counted on the way. -/
structure Draft where
  methods : List Method
  primitiveTasks : List Task
  slots : List (String × CheckSlot) := []
  tally : Tally
deriving DecidableEq

/-- Work on a draft. What was done before a failure stays done. -/
abbrev DraftM := ExceptT Failure (StateM Draft)

namespace Draft

def ofDomain (d : Domain) : Draft where
  methods := d.methods
  primitiveTasks := d.primitiveTasks
  tally := { methods := d.methods.length, tasks := d.tasks.length }

def apply (w : Draft) (d : Domain) : Domain :=
  { d with methods := w.methods, primitiveTasks := w.primitiveTasks }

/-- Whether the draft has made the method check the literal. -/
def checks (w : Draft) (method : String) (l : Literal) : Bool :=
  match w.slots.lookup method with
  | none => false
  | some slot => w.primitiveTasks[slot.task]?.any (l ∈ ·.preconditions)

/-- The slot of the first check step of the method at the position, if its task is a primitive one.
-/
def existingSlot? (w : Draft) (position : Nat) : Option CheckSlot := do
  let m ← w.methods[position]?
  let step ← m.steps.findIdx? fun s => checkTaskMark.toList.isPrefixOf s.task.toList
  let s ← m.steps[step]?
  let task ← w.primitiveTasks.findIdx? (·.name = s.task)
  return { method := position, step, task }

end Draft

def Method.addCheckStep (m : Method) : Method :=
  let id := newCheckStepMark ++ m.name
  { m with
    ordering := m.ordering ++ m.steps.map fun s => (id, s.id)
    steps := m.steps ++ [{ id, task := newCheckTaskMark ++ m.name, arguments := [] }] }

def Method.checkTask (m : Method) : Task :=
  { Task.ofParameters (newCheckTaskMark ++ m.name) [] with artificial := true }

namespace Draft

def addCheckStep (w : Draft) (position : Nat) : Draft × CheckSlot :=
  let m? := w.methods[position]?
  ({ w with
      methods := w.methods.modify position Method.addCheckStep
      primitiveTasks := w.primitiveTasks ++ m?.toList.map Method.checkTask },
    { method := position
      step := (m?.map (·.steps.length)).getD 0
      task := w.primitiveTasks.length })

/-- Adds a parameter to the task of a check step, and the argument to the step. -/
def addParameter (w : Draft) (slot : CheckSlot) (v : TypedName) : Draft :=
  { w with
    primitiveTasks := w.primitiveTasks.modify slot.task fun t =>
      { t with parameters := t.parameters ++ [v] }
    methods := w.methods.modify slot.method fun m =>
      { m with steps := m.steps.modify slot.step fun s =>
          { s with arguments := s.arguments ++ [v.name] } } }

def addPrecondition (w : Draft) (slot : CheckSlot) (l : Literal) : Draft :=
  { w with primitiveTasks := w.primitiveTasks.modify slot.task (·.withPrecondition l) }

def slot (d : Domain) (m : Method) : DraftM CheckSlot := do
  if let some slot := (← get).slots.lookup m.name then return slot
  let position ← d.methodIndex m.name
  let slot ← match (← get).existingSlot? position with
    | some slot => pure slot
    | none => modifyGet fun w => let (w, slot) := w.addCheckStep position; (slot, w)
  modify fun w => { w with slots := (m.name, slot) :: w.slots }
  return slot

/-- Makes the check step check the literal. Arguments of it that are no parameters yet become
parameters. -/
def addLiteral (d : Domain) (slot : CheckSlot) (m : Method) (l : Literal) : DraftM Unit := do
  l.arguments.forM fun name => do
    unless (← get).primitiveTasks[slot.task]?.any (name ∈ ·.parameterNames) do
      let sort ← d.sortOf m.name name
      modify (·.addParameter slot { name, sort })
  modify (·.addPrecondition slot l)

/-- Whether the literal is a precondition of all tasks with which the method may start. The first
one of which it is not decides, unless the draft makes the method check the literal. -/
def isRedundant (d : Domain) (w : Draft) (m : Method) (l : Literal) :
    List String → Except DomainError Bool
  | [] => return true
  | task :: tasks => do
    let t ← d.resolveTask task
    if l ∈ t.preconditions then isRedundant d w m l tasks else return w.checks m.name l

end Draft

def Pattern.toLiteral (m : Method) (predicate : String) (positive : Bool) (p : Pattern) :
    Except Failure Literal := do
  let arguments ← p.mapM fun a =>
    match a with
    | .name v => pure v
    | .hidden _ _ => throw (.opaqueArgument m.name predicate a.text)
  return { predicate, positive, arguments }

namespace Draft

/-- Makes the method, which may start with the tasks, check the literal, unless that is redundant.
-/
def offer (d : Domain) (opening : List String) (m : Method) (l : Literal) : DraftM Unit := do
  if ← isRedundant d (← get) m l opening then
    modify fun w => { w with tally := w.tally.reject m.name }
  else
    modify fun w => { w with tally := w.tally.accept m.name }
    addLiteral d (← slot d m) m l

def inject (d : Domain) (m : Method) (inferred : PatternSet) (predicate : String)
    (positive : Bool) : DraftM Unit := do
  let opening := d.openingTasks m.name
  inferred.toList.forM fun p => do offer d opening m (← p.toLiteral m predicate positive)

end Draft

end TaskNetwork
