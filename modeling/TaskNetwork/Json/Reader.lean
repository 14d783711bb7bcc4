import TaskNetwork.CharCode
import TaskNetwork.Json.Basic

namespace TaskNetwork

namespace Json

def unescape? : Char → Option Char
  | '"' => some '"'
  | '\\' => some '\\'
  | '/' => some '/'
  | 'b' => some '\x08'
  | 'f' => some '\x0c'
  | 'n' => some '\n'
  | 'r' => some '\r'
  | 't' => some '\t'
  | _ => none

/-- The rest of a string after its opening quote. A character outside the basic plane is escaped as
two surrogates. -/
def readChars : List Char → Option (List Char × List Char)
  | '"' :: rest => some ([], rest)
  | '\\' :: 'u' :: a :: b :: c :: d :: rest => do
    let code ← hexValue? [a, b, c, d]
    if 0xd800 ≤ code ∧ code < 0xdc00 then
      match rest with
      | '\\' :: 'u' :: e :: f :: g :: h :: rest => do
        let low ← hexValue? [e, f, g, h]
        guard (0xdc00 ≤ low ∧ low < 0xe000)
        let c ← char? (0x10000 + (code - 0xd800) * 0x400 + (low - 0xdc00))
        let (s, rest) ← readChars rest
        return (c :: s, rest)
      | _ => none
    else
      let c ← char? code
      let (s, rest) ← readChars rest
      return (c :: s, rest)
  | '\\' :: c :: rest => do
    let c ← unescape? c
    let (s, rest) ← readChars rest
    return (c :: s, rest)
  | c :: rest => do
    guard (0x20 ≤ c.toNat ∧ c ≠ '\\')
    let (s, rest) ← readChars rest
    return (c :: s, rest)
  | [] => none

def skipChars : List Char → Option (List Char)
  | '"' :: rest => some rest
  | '\\' :: 'u' :: a :: b :: c :: d :: rest => do
    let _ ← hexValue? [a, b, c, d]
    skipChars rest
  | '\\' :: c :: rest => do
    let _ ← unescape? c
    skipChars rest
  | c :: rest => do
    guard (0x20 ≤ c.toNat ∧ c ≠ '\\')
    skipChars rest
  | [] => none

def readString (cs : List Char) : Option (Option String × List Char) :=
  match readChars cs with
  | some (s, rest) => some (some (String.ofList s), rest)
  | none => (skipChars cs).map fun rest => (none, rest)

def strOrBroken : Option String → Json
  | some s => .str s
  | none => .broken

def objOrBroken (fields : List (Option String × Json)) : Json :=
  match fields.mapM fun (name, j) => name.map (·, j) with
  | some fields => .obj fields
  | none => .broken

def isBlank (c : Char) : Bool := c == ' ' || c == '\t' || c == '\n' || c == '\r'

def skipBlanks (cs : List Char) : List Char := cs.dropWhile isBlank

def readDigits (cs : List Char) : Option (List Char × List Char) :=
  match cs.takeWhile Char.isDigit with
  | [] => none
  | ds => some (ds, cs.dropWhile Char.isDigit)

def readWhole (cs : List Char) : Option (List Char × List Char) := do
  let (ds, rest) ← readDigits cs
  guard (ds = ['0'] ∨ ds.head? ≠ some '0')
  return (ds, rest)

def readFraction : List Char → Option (List Char × List Char)
  | '.' :: cs => (readDigits cs).map fun (ds, rest) => ('.' :: ds, rest)
  | cs => some ([], cs)

def readExponent : List Char → Option (List Char × List Char)
  | c :: cs =>
    if c = 'e' ∨ c = 'E' then
      match cs with
      | '+' :: cs => (readDigits cs).map fun (ds, rest) => (c :: '+' :: ds, rest)
      | '-' :: cs => (readDigits cs).map fun (ds, rest) => (c :: '-' :: ds, rest)
      | cs => (readDigits cs).map fun (ds, rest) => (c :: ds, rest)
    else some ([], c :: cs)
  | [] => some ([], [])

def readNumber (cs : List Char) : Option (Json × List Char) := do
  let (sign, cs) := match cs with
    | '-' :: cs => (['-'], cs)
    | cs => ([], cs)
  let (whole, cs) ← readWhole cs
  let (fraction, cs) ← readFraction cs
  let (exponent, cs) ← readExponent cs
  if sign = [] ∧ fraction = [] ∧ exponent = [] then return (.nat (Nat.ofDigitChars 10 whole 0), cs)
  else return (.real (String.ofList (sign ++ whole ++ fraction ++ exponent)), cs)

mutual

/-- One value. Every item or field read and every level entered takes one from `n`. -/
def readValue (n : Nat) (cs : List Char) : Option (Json × List Char) :=
  match n with
  | 0 => none
  | n + 1 =>
    match skipBlanks cs with
    | 'n' :: 'u' :: 'l' :: 'l' :: rest => some (.null, rest)
    | 't' :: 'r' :: 'u' :: 'e' :: rest => some (.bool true, rest)
    | 'f' :: 'a' :: 'l' :: 's' :: 'e' :: rest => some (.bool false, rest)
    | '"' :: rest => (readString rest).map fun (s, rest) => (strOrBroken s, rest)
    | '[' :: rest =>
      match skipBlanks rest with
      | ']' :: rest => some (.arr [], rest)
      | rest => (readItems n rest).map fun (items, rest) => (.arr items, rest)
    | '\x7b' :: rest =>
      match skipBlanks rest with
      | '\x7d' :: rest => some (.obj [], rest)
      | rest => (readFields n rest).map fun (fields, rest) => (objOrBroken fields, rest)
    | rest => readNumber rest

def readItems (n : Nat) (cs : List Char) : Option (List Json × List Char) :=
  match n with
  | 0 => none
  | n + 1 => do
    let (item, rest) ← readValue n cs
    match skipBlanks rest with
    | ']' :: rest => return ([item], rest)
    | ',' :: rest =>
      let (items, rest) ← readItems n rest
      return (item :: items, rest)
    | _ => none

def readFields (n : Nat) (cs : List Char) : Option (List (Option String × Json) × List Char) :=
  match n with
  | 0 => none
  | n + 1 => do
    let '"' :: rest := skipBlanks cs | none
    let (name, rest) ← readString rest
    let ':' :: rest := skipBlanks rest | none
    let (item, rest) ← readValue n rest
    match skipBlanks rest with
    | '\x7d' :: rest => return ([(name, item)], rest)
    | ',' :: rest =>
      let (fields, rest) ← readFields n rest
      return ((name, item) :: fields, rest)
    | _ => none

end

/-- The value that a whole text stands for. Each character enters at most one level and ends at most
one item, so twice the length is enough. -/
def ofText? (text : String) : Option Json := do
  let cs := text.toList
  let (j, rest) ← readValue (2 * cs.length + 2) cs
  guard (skipBlanks rest = [])
  return j

end Json

end TaskNetwork
