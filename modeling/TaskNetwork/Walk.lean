import TaskNetwork.Domain.Names

namespace TaskNetwork

inductive WalkEvent where
  /-- A task that is not primitive is met for the first time. -/
  | enter (task : String)
  /-- A task is met that is not declared. -/
  | missing (task : String)
  /-- What lies below the task of a step has been walked through, or is being walked through. -/
  | leaveStep (method : Method) (step : Step)
  /-- All steps of a method for the task are done with. The method stands at this position. -/
  | conclude (task : Task) (method : Method) (position : Nat)

/-- What is still to be done on a walk. -/
inductive Pending where
  | visit (task : String)
  | emit (event : WalkEvent)

namespace Domain

def pendingMethod (t : Task) (m : Method) (position : Nat) : List Pending :=
  m.steps.flatMap (fun s => [.visit s.task, .emit (.leaveStep m s)])
    ++ [.emit (.conclude t m position)]

def pendingTask (d : Domain) (t : Task) : List Pending :=
  (d.methodsOf t.name).flatMap fun (m, i) => pendingMethod t m i

/-- Works off what is pending, up to a task that was not seen before. It goes to `deeper`, together
with what is pending behind it. -/
def workOff (d : Domain) (deeper : List String → List Pending → List WalkEvent)
    (seen : List String) : List Pending → List WalkEvent
  | [] => []
  | .emit e :: rest => e :: workOff d deeper seen rest
  | .visit name :: rest =>
    if name ∈ seen then workOff d deeper seen rest
    else
      match d.task? name with
      | none => [.missing name]
      | some t => .enter name :: deeper (name :: seen) (d.pendingTask t ++ rest)

def walkWithin (d : Domain) : Nat → List String → List Pending → List WalkEvent
  | 0 => d.workOff fun _ _ => []
  | n + 1 => d.workOff (d.walkWithin n)

/-- The walk below a task. It ends at a task that is not declared, does not enter primitive tasks
and enters others once, so that the number of abstract tasks bounds it. -/
def walk (d : Domain) (top : String) : List WalkEvent :=
  d.walkWithin d.abstractTasks.length (d.primitiveTasks.map (·.name)) [.visit top]

end Domain

end TaskNetwork
