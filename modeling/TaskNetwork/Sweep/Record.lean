import TaskNetwork.Pattern.Overlap
import TaskNetwork.Pattern.Renaming

namespace TaskNetwork

/-- What is known of a task, in terms of its parameters. -/
structure TaskRecord where
  /-- One of the ways to do the task has been looked at. -/
  initialized : Bool := false
  /-- The walk has entered the task. -/
  finished : Bool := false
  /-- Patterns that each way to do the task needs to hold before one of its primitive tasks. -/
  needs : PatternSet := ∅
  /-- Patterns that hold at some point whichever way the task is done. -/
  ensures : PatternSet := ∅
  /-- Patterns that some way to do the task may make true. -/
  mayAdd : PatternSet := ∅
deriving DecidableEq

namespace TaskRecord

/-- Nothing is known of a recursive task but that it may make anything true. -/
def ofRecursive : TaskRecord := { initialized := true, finished := true, mayAdd := .anything }

/-- Takes one more way to do the task into account. -/
def addMethod (r : TaskRecord) (needs ensures mayAdd : PatternSet) : TaskRecord :=
  if r.initialized then
    { r with needs := r.needs ∩ needs, ensures := r.ensures ∩ ensures, mayAdd := r.mayAdd ∪ mayAdd }
  else { r with initialized := true, needs, ensures, mayAdd := r.mayAdd ∪ mayAdd }

end TaskRecord

def patternsOf (predicate : String) (positive : Bool) (literals : List Literal) : PatternSet :=
  .ofList ((literals.filter (·.isAbout predicate positive)).map fun l => .ofNames l.arguments)

/-- What is known of a primitive task. A precondition is ensured as well: it holds when the task
starts. -/
def Task.primitiveRecord (t : Task) (predicate : String) (positive : Bool) : TaskRecord :=
  let needs := patternsOf predicate positive t.preconditions
  let effects := patternsOf predicate positive t.effects
  { initialized := true, finished := true, needs, ensures := effects ∪ needs,
    mayAdd := effects \ needs }

def unionOver (steps : List Step) (f : Step → Except Failure PatternSet) :
    Except Failure PatternSet :=
  return .unions (← steps.mapM f)

namespace Method

def needs (d : Domain) (records : String → TaskRecord) (m : Method) (policy : HiddenPolicy) :
    Except Failure PatternSet :=
  unionOver m.steps fun s => (records s.task).needs.lower d m s policy

/-- What the tasks of the steps ensure, without the method's own variables. -/
def ensures (d : Domain) (records : String → TaskRecord) (m : Method) : Except Failure PatternSet :=
  unionOver m.steps fun s => (records s.task).ensures.lower d m s .drop

/-- What one step may make true and no earlier step ensures. -/
def stepMayAdd (d : Domain) (records : String → TaskRecord) (m : Method) (s : Step) :
    Except Failure PatternSet := do
  let added ← (records s.task).mayAdd.lower d m s .qualify
  (m.predecessors s.id).foldlM
    (fun added e => return added \ (← (records e.task).ensures.lower d m e .qualify)) added

def mayAdd (d : Domain) (records : String → TaskRecord) (m : Method) : Except Failure PatternSet :=
  unionOver m.steps (m.stepMayAdd d records)

end Method

end TaskNetwork
