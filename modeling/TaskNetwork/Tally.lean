import TaskNetwork.Decimal
import TaskNetwork.Failure

namespace TaskNetwork

structure MethodTally where
  accepted : Nat := 0
  redundant : Nat := 0
deriving DecidableEq

/-- The counts of the methods that had a literal inferred, and the size of the domain. -/
structure Tally where
  perMethod : List (String × MethodTally) := []
  methods : Nat
  tasks : Nat
deriving DecidableEq

def alterTally (method : String) (f : MethodTally → MethodTally) :
    List (String × MethodTally) → List (String × MethodTally)
  | [] => [(method, f {})]
  | e :: entries =>
    if e.1 = method then (method, f e.2) :: entries else e :: alterTally method f entries

namespace Tally

def ofMethod (t : Tally) (method : String) : MethodTally := (t.perMethod.lookup method).getD {}

def set (t : Tally) (method : String) (counts : MethodTally) : Tally :=
  { t with perMethod := alterTally method (fun _ => counts) t.perMethod }

def accept (t : Tally) (method : String) : Tally :=
  { t with
    perMethod := alterTally method (fun c => { c with accepted := c.accepted + 1 }) t.perMethod }

def reject (t : Tally) (method : String) : Tally :=
  { t with
    perMethod := alterTally method (fun c => { c with redundant := c.redundant + 1 }) t.perMethod }

def accepted (t : Tally) : Nat := t.perMethod.foldr (fun e n => e.2.accepted + n) 0

def redundant (t : Tally) : Nat := t.perMethod.foldr (fun e n => e.2.redundant + n) 0

def checkingMethods (t : Tally) : Nat := (t.perMethod.filter (·.2.accepted ≠ 0)).length

end Tally

def ratio (a b : Nat) : Float :=
  if b = 0 then 0 else a.toUInt64.toFloat / b.toUInt64.toFloat

structure Summary where
  accepted : Nat
  redundant : Nat
  checkingMethods : Nat
  methods : Nat
  tasks : Nat

namespace Tally

/-- The sums, if each of them and each sum of two that a ratio is taken of fits into a machine word.
-/
def summary (t : Tally) : Except Fault Summary :=
  if t.accepted + t.redundant < UInt64.size ∧ t.methods + t.tasks < UInt64.size then
    .ok {
      accepted := t.accepted
      redundant := t.redundant
      checkingMethods := t.checkingMethods
      methods := t.methods
      tasks := t.tasks }
  else .error .overflow

end Tally

namespace Summary

def redundancy (s : Summary) : Float := ratio s.redundant (s.redundant + s.accepted)

def ratios (s : Summary) : List Float :=
  [s.redundancy,
    ratio s.accepted s.methods, ratio s.checkingMethods s.methods,
    ratio s.accepted s.tasks, ratio s.checkingMethods s.tasks,
    ratio s.accepted (s.methods + s.tasks), ratio s.checkingMethods (s.methods + s.tasks)]

/-- Ratios have six significant digits and are written out from `0.0001` to below `1000000`. -/
def ratioStyle : DecimalStyle where
  significant := 6
  large := 6
  small := -4

def line (s : Summary) : String :=
  " ".intercalate (s.ratios.map ratioStyle.text
    ++ [s.accepted, s.checkingMethods, s.methods, s.tasks].map toString)

end Summary

end TaskNetwork
