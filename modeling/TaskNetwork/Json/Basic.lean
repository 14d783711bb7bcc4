namespace TaskNetwork

/-- A value. Whole numbers without sign are kept as numbers, all others as they are written. Strings
are texts; where an escape stands for half of a character, nothing is kept of the string, or of the
object whose field it names. -/
inductive Json where
  | broken
  | null
  | bool (b : Bool)
  | nat (n : Nat)
  | real (text : String)
  | str (s : String)
  | arr (items : List Json)
  | obj (fields : List (String × Json))

namespace Json

def bool? : Json → Option Bool
  | .bool b => some b
  | _ => none

def word? : Json → Option UInt64
  | .nat n => if n < UInt64.size then some (UInt64.ofNat n) else none
  | _ => none

def str? : Json → Option String
  | .str s => some s
  | _ => none

def arr? : Json → Option (List Json)
  | .arr items => some items
  | _ => none

def obj? : Json → Option (List (String × Json))
  | .obj fields => some fields
  | _ => none

def list? {α : Type} (item? : Json → Option α) (j : Json) : Option (List α) := do
  (← j.arr?).mapM item?

/-- The values of the named fields, `none` for one that is missing. An object names its fields, each
of these at most once; an array lists their values in order. -/
def fields? (names : List String) : Json → Option (List (Option Json))
  | .obj fields => names.mapM fun name =>
    match fields.filter (·.1 = name) with
    | [] => some none
    | [field] => some (some field.2)
    | _ => none
  | .arr items =>
    if items.length ≤ names.length then
      some (items.map some ++ List.replicate (names.length - items.length) none)
    else none
  | _ => none

def orElse? {α : Type} (item? : Json → Option α) (default : α) : Option Json → Option α
  | none => some default
  | some j => item? j

end Json

end TaskNetwork
