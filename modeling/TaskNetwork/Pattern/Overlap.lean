import TaskNetwork.Domain.Names
import TaskNetwork.Pattern.Basic

namespace TaskNetwork

def NameSet.isDisjoint (s t : NameSet) : Bool := s.names.all (· ∉ t.names)

/-- What the argument may stand for. A hidden variable is looked up in the method it belongs to. -/
def Argument.instances (d : Domain) (m : Method) : Argument → Except DomainError NameSet
  | .name v => do d.instances (← d.sortOf m.name v)
  | .hidden owner v => do d.instances (← d.sortOf owner v)

/-- Whether the patterns can agree at each position that both of them have. -/
def Pattern.overlaps (d : Domain) (m : Method) : Pattern → Pattern → Except DomainError Bool
  | a :: p, b :: q => do
    let as ← a.instances d m
    let bs ← b.instances d m
    if as.isDisjoint bs then return false else overlaps d m p q
  | _, _ => return true

namespace PatternSet

def uncovered (d : Domain) (m : Method) (reachable : List Pattern) :
    List Pattern → Except DomainError (List Pattern)
  | [] => return []
  | c :: cs => do
    let covered ← reachable.anyM (c.overlaps d m)
    let kept ← uncovered d m reachable cs
    return if covered then kept else c :: kept

/-- The candidates that no reachable pattern can bring about. If all patterns are reachable, or the
one that always holds, no candidate is left. -/
def constrain (d : Domain) (m : Method) (candidates reachable : PatternSet) :
    Except DomainError PatternSet :=
  match reachable with
  | .anything => return ∅
  | .listed qs =>
    if (listed qs).hasTrivial then return ∅
    else
      match candidates with
      | .anything => return .anything
      | .listed ps => return ofList (← uncovered d m qs ps)

end PatternSet

end TaskNetwork
