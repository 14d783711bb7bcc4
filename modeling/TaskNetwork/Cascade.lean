import TaskNetwork.Cut

namespace TaskNetwork

/-- The methods and tasks that methods were replaced by, up to the fault that stopped it. -/
structure Cascade where
  methods : List Method := []
  tasks : List Task := []
  /-- How many of the methods were cut. -/
  cutMethods : Nat := 0
  fault? : Option Fault := none
deriving DecidableEq

def cascade (taken : List String) (m : Method) : Nat → Cascade
  | 0 => { methods := [m] }
  | n + 1 =>
    match m.steps with
    | first :: second :: later =>
      let (seed, suffix) := nameSeed m.name
      let counter := freshCounter taken suffix seed
      if counter < UInt64.size then
        let cut :=
          m.cut (restTaskName counter suffix) (restMethodName counter suffix) first second later
        match cut.fault? with
        | some fault => { fault? := some fault }
        | none =>
          let c := cascade (cut.task.name :: taken) cut.rest n
          { c with methods := cut.head :: c.methods, tasks := cut.task :: c.tasks }
      else { fault? := some .overflow }
    | _ => { methods := [m] }

/-- The chain that the steps of the method form, if they are more than two. -/
def Method.longChain? (m : Method) : Option Method :=
  if m.steps.length ≤ 2 then none else m.chain?

def cascades (taken : List String) : List Method → Cascade
  | [] => {}
  | m :: methods =>
    match m.longChain? with
    | none =>
      let c := cascades taken methods
      { c with methods := m :: c.methods }
    | some chain =>
      let first := cascade taken chain (chain.steps.length - 2)
      if first.fault?.isSome then first
      else
        let c := cascades (first.tasks.map (·.name) ++ taken) methods
        { c with
          methods := first.methods ++ c.methods
          tasks := first.tasks ++ c.tasks
          cutMethods := c.cutMethods + 1 }

structure CascadeReport where
  cutMethods : Nat
  newTasks : Nat
  newMethods : Nat
deriving DecidableEq

namespace Domain

/-- Replaces the long chains among the methods and appends the new tasks to the abstract ones. After
a fault the methods not yet done with are missing. Each cut makes one task and one method. -/
def regularize (d : Domain) : Domain × Except Fault CascadeReport :=
  let c := cascades (d.tasks.map (·.name)) d.methods
  ({ d with methods := c.methods, abstractTasks := d.abstractTasks ++ c.tasks },
    match c.fault? with
    | some fault => .error fault
    | none => .ok {
        cutMethods := c.cutMethods
        newTasks := c.tasks.length
        newMethods := c.tasks.length })

end Domain

end TaskNetwork
