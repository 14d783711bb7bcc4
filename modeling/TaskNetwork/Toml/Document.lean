namespace TaskNetwork.Toml

/-- A value. Only strings and truth values are kept. -/
inductive Value where
  | text (s : String)
  | truth (b : Bool)
  | other
deriving DecidableEq

inductive TableOrigin where
  /-- By a header of its own. -/
  | header
  /-- As part of the path in the header of another table. -/
  | implied
  /-- As part of a dotted key. -/
  | dotted
deriving DecidableEq

/-- What a name in a table stands for. -/
inductive Entry where
  | value (v : Value)
  | table (origin : TableOrigin)
  /-- An array of this many tables. -/
  | tables (count : Nat)
deriving DecidableEq

/-- A path from the root. The number next to a name is zero, or tells which table of an array is
meant, counted from one. -/
abbrev Place := List (String × Nat)

abbrev Document := List (Place × Entry)

namespace Document

def at? (d : Document) (p : Place) : Option Entry := d.lookup p

def root? (d : Document) (name : String) : Option Entry := d.at? [(name, 0)]

/-- Follows a path from a place and defines the tables on it that are not there yet. Of an array of
tables the last one counts. A dotted key does not enter a table that has a header. -/
def descend (dotted : Bool) (d : Document) (base : Place) : List String → Option (Document × Place)
  | [] => some (d, base)
  | name :: path =>
    let p := base ++ [(name, 0)]
    match d.at? p with
    | none => descend dotted ((p, .table (if dotted then .dotted else .implied)) :: d) p path
    | some (.value _) => none
    | some (.tables count) => descend dotted d (base ++ [(name, count)]) path
    | some (.table origin) =>
      if dotted ∧ origin = .header then none else descend dotted d p path

/-- Defines a value under a dotted key in the table at a place. All but the last part of the key
must lead to a table that came to be by dotted keys, and nothing may be defined there yet. -/
def define (d : Document) (base : Place) (path : List String) (name : String) (v : Value) :
    Option Document := do
  let (d, place) ← descend true d base path
  guard (path = [] ∨ d.at? place = some (.table .dotted))
  let p := place ++ [(name, 0)]
  guard (d.at? p = none)
  return (p, .value v) :: d

/-- Starts the table of a header. It may be there as part of the path of other headers. -/
def openTable (d : Document) (path : List String) (name : String) : Option (Document × Place) := do
  let (d, place) ← descend false d [] path
  let p := place ++ [(name, 0)]
  guard (d.at? p = none ∨ d.at? p = some (.table .implied))
  return ((p, .table .header) :: d, p)

def openElement (d : Document) (path : List String) (name : String) :
    Option (Document × Place) := do
  let (d, place) ← descend false d [] path
  let p := place ++ [(name, 0)]
  match d.at? p with
  | none => return ((p, .tables 1) :: d, place ++ [(name, 1)])
  | some (.tables count) => return ((p, .tables (count + 1)) :: d, place ++ [(name, count + 1)])
  | _ => none

end Document

end TaskNetwork.Toml
