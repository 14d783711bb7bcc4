import TaskNetwork.Increasing

namespace TaskNetwork

/-- An argument as seen from a task or method. -/
inductive Argument where
  /-- A parameter of the task or a variable of the method. -/
  | name (name : String)
  /-- A variable that belongs to the given method and has no name outside of it. -/
  | hidden (method name : String)
deriving DecidableEq

namespace Argument

def variableName : Argument → String
  | .name v => v
  | .hidden _ v => v

def text : Argument → String
  | .name v => v
  | .hidden method v => "__LOCAL__" ++ method ++ "__LOCALEND" ++ v

/-- Names come before hidden variables; these are ordered by method, then by name. -/
protected def Before : Argument → Argument → Prop
  | .name v, .name w => v < w
  | .name _, .hidden _ _ => True
  | .hidden _ _, .name _ => False
  | .hidden m v, .hidden n w => m < n ∨ m = n ∧ v < w

instance : LT Argument := ⟨Argument.Before⟩

instance : DecidableLT Argument
  | .name v, .name w => inferInstanceAs (Decidable (v < w))
  | .name _, .hidden _ _ => isTrue trivial
  | .hidden _ _, .name _ => isFalse id
  | .hidden m v, .hidden n w => inferInstanceAs (Decidable (m < n ∨ m = n ∧ v < w))

end Argument

abbrev Pattern := List Argument

def Pattern.ofNames (names : List String) : Pattern := names.map .name

def Pattern.text (p : Pattern) : String := "(" ++ " ".intercalate (p.map (·.text)) ++ ")"

/-- A set of patterns that is listed, or all patterns. -/
inductive PatternSet where
  | anything
  | listed (patterns : List Pattern)
deriving DecidableEq

namespace PatternSet

instance : EmptyCollection PatternSet := ⟨.listed []⟩

def ofList (patterns : List Pattern) : PatternSet := .listed (increasing patterns)

def normalize : PatternSet → PatternSet
  | .anything => .anything
  | .listed ps => ofList ps

def toList : PatternSet → List Pattern
  | .anything => []
  | .listed ps => ps

def isEmpty : PatternSet → Bool
  | .anything => false
  | .listed ps => ps.isEmpty

def size? : PatternSet → Option Nat
  | .anything => none
  | .listed ps => some ps.length

instance : Membership Pattern PatternSet where
  mem
    | .anything, _ => True
    | .listed ps, p => p ∈ ps

instance (p : Pattern) : (s : PatternSet) → Decidable (p ∈ s)
  | .anything => isTrue trivial
  | .listed ps => inferInstanceAs (Decidable (p ∈ ps))

/-- Whether the pattern without arguments is listed: it holds whatever the arguments are. -/
def hasTrivial (s : PatternSet) : Bool := s.toList.any List.isEmpty

def union : PatternSet → PatternSet → PatternSet
  | _, .anything => .anything
  | .anything, .listed _ => .anything
  | .listed ps, .listed qs => ofList (ps ++ qs)

def unions (sets : List PatternSet) : PatternSet :=
  if anything ∈ sets then anything else ofList (sets.flatMap toList)

def intersect : PatternSet → PatternSet → PatternSet
  | s, .anything => s
  | .anything, .listed qs => .listed qs
  | .listed ps, .listed qs => .listed (ps.filter (· ∈ qs))

/-- The members of the first set that are not in the second. Nothing can be taken out of all
patterns. -/
def subtract : PatternSet → PatternSet → PatternSet
  | .anything, _ => .anything
  | .listed _, .anything => ∅
  | .listed ps, .listed qs => .listed (ps.filter (· ∉ qs))

instance : Union PatternSet := ⟨union⟩

instance : Inter PatternSet := ⟨intersect⟩

instance : SDiff PatternSet := ⟨subtract⟩

end PatternSet

end TaskNetwork
