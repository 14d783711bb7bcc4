import TaskNetwork.Recursion
import TaskNetwork.Sweep.Record
import TaskNetwork.Walk

namespace TaskNetwork

/-- What a sweep finds out about a method, in terms of its variables. -/
structure Finding where
  method : Method
  /-- Where the method stands in the domain. -/
  position : Nat
  /-- What some step needs. -/
  needs : PatternSet
  /-- What some step may make true. -/
  mayAdd : PatternSet
  /-- The needs that no step can bring about. -/
  inferred : PatternSet
deriving DecidableEq

/-- The records of the tasks met so far, the latest in front, and the findings in the order of the
walk. -/
structure Sweep where
  records : List (String × TaskRecord) := []
  findings : List Finding := []
deriving DecidableEq

namespace Sweep

def record? (w : Sweep) (task : String) : Option TaskRecord := w.records.lookup task

def record (w : Sweep) (task : String) : TaskRecord := (w.record? task).getD {}

def setRecord (w : Sweep) (task : String) (r : TaskRecord) : Sweep :=
  { w with records := (task, r) :: w.records }

def finding? (w : Sweep) (method : String) : Option Finding :=
  w.findings.find? (·.method.name = method)

def start (d : Domain) (predicate : String) (positive : Bool) : Sweep where
  records := (d.primitiveTasks.map fun t => (t.name, t.primitiveRecord predicate positive)).reverse

/-- Looks at a step as soon as its task has been walked through: a pattern without a name in the
method stops the sweep there. -/
def leaveStep (d : Domain) (m : Method) (s : Step) (w : Sweep) : Except Failure Unit := do
  let r := w.record s.task
  let _ ← r.needs.lower d m s .drop
  let _ ← r.needs.lower d m s .keep
  let _ ← r.ensures.lower d m s .drop

/-- Draws the conclusions from the tasks of the steps for the method, and from the method for its
task. -/
def conclude (d : Domain) (t : Task) (m : Method) (position : Nat) (w : Sweep) :
    Except Failure Sweep := do
  let taskNeeds ← (← m.needs d w.record .drop).raise d t m
  let taskEnsures ← (← m.ensures d w.record).raise d t m
  let mayAdd ← m.mayAdd d w.record
  let taskMayAdd ← mayAdd.raise d t m
  let needs ← m.needs d w.record .keep
  let inferred ← needs.constrain d m mayAdd
  let w := w.setRecord t.name ((w.record t.name).addMethod taskNeeds taskEnsures taskMayAdd)
  return { w with findings := w.findings ++ [{ method := m, position, needs, mayAdd, inferred }] }

def advance (d : Domain) (recursive : List String) (w : Sweep) : WalkEvent → Except Failure Sweep
  | .enter task =>
    return w.setRecord task
      (if task ∈ recursive then TaskRecord.ofRecursive else { finished := true })
  | .missing task => throw (.domain (.unknownTask task))
  | .leaveStep m s => do
    w.leaveStep d m s
    return w
  | .conclude t m position => w.conclude d t m position

end Sweep

namespace Domain

def sweepAlong (d : Domain) (recursive : List String) (walk : List WalkEvent) (predicate : String)
    (positive : Bool) : Except Failure Sweep :=
  walk.foldlM (Sweep.advance d recursive) (Sweep.start d predicate positive)

def sweep (d : Domain) (top predicate : String) (positive : Bool) : Except Failure Sweep :=
  match d.task? top with
  | none => throw (.unknownTopTask top)
  | some _ => d.sweepAlong d.recursiveTasks (d.walk top) predicate positive

end Domain

end TaskNetwork
