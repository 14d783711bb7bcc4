import TaskNetwork.Toml.Document
import TaskNetwork.Toml.Scalar
import TaskNetwork.Toml.Text

namespace TaskNetwork.Toml

def skipBlanks (cs : List Char) : List Char := cs.dropWhile fun c => c == ' ' || c == '\t'

def readLineEnd (cs : List Char) : Option (List Char) :=
  let rest := match skipBlanks cs with
    | '#' :: comment => comment.dropWhile fun c => !isControl c && c != '\n'
    | rest => rest
  match rest with
  | [] => some []
  | '\n' :: rest => some rest
  | '\r' :: '\n' :: rest => some rest
  | _ => none

/-- Skips blanks, line ends and comments; `comment` is set inside of one. -/
def skipLines : Bool → List Char → Option (List Char)
  | false, '#' :: rest => skipLines true rest
  | false, ' ' :: rest => skipLines false rest
  | false, '\t' :: rest => skipLines false rest
  | _, '\n' :: rest => skipLines false rest
  | _, '\r' :: '\n' :: rest => skipLines false rest
  | true, c :: rest => if isControl c then none else skipLines true rest
  | true, [] => none
  | false, rest => some rest

def isBareKeyChar (c : Char) : Bool := c.isAlphanum || c == '_' || c == '-'

def readSimpleKey : List Char → Option (String × List Char)
  | '"' :: rest => (readBasic rest).map fun (s, rest) => (String.ofList s, rest)
  | '\'' :: rest => (readLiteral rest).map fun (s, rest) => (String.ofList s, rest)
  | cs =>
    match cs.takeWhile isBareKeyChar with
    | [] => none
    | name => some (String.ofList name, cs.dropWhile isBareKeyChar)

/-- Tables and arrays are nested less deep than this, and keys have fewer parts. -/
def depthLimit : Nat := 80

/-- A key of at most `n` parts: all but the last one, the last one, and the text behind the key. -/
def readKeyParts : Nat → List Char → Option (List String × String × List Char)
  | 0, _ => none
  | n + 1, cs => do
    let (part, rest) ← readSimpleKey (skipBlanks cs)
    match skipBlanks rest with
    | '.' :: rest =>
      let (path, name, rest) ← readKeyParts n rest
      return (part :: path, name, rest)
    | rest => return ([], part, rest)

def readKey : List Char → Option (List String × String × List Char) := readKeyParts (depthLimit - 1)

mutual

/-- One value, `depth` levels deep. Every item read and every level entered takes one from `n`. -/
def readValue (n depth : Nat) (cs : List Char) : Option (Value × List Char) :=
  match n with
  | 0 => none
  | n + 1 =>
    match cs with
    | 't' :: 'r' :: 'u' :: 'e' :: rest => some (.truth true, rest)
    | 'f' :: 'a' :: 'l' :: 's' :: 'e' :: rest => some (.truth false, rest)
    | '[' :: rest => do
      guard (depth + 1 < depthLimit)
      return (.other, ← readItems n (depth + 1) (← skipLines false rest))
    | '\x7b' :: rest => do
      guard (depth + 1 < depthLimit)
      match skipBlanks rest with
      | '\x7d' :: rest => return (.other, rest)
      | rest => return (.other, ← readPairs n (depth + 1) [] rest)
    | cs =>
      match readText cs with
      | some (s, rest) => some (.text (String.ofList s), rest)
      | none => (readScalar cs).map fun rest => (.other, rest)

def readItems (n depth : Nat) (cs : List Char) : Option (List Char) :=
  match n with
  | 0 => none
  | n + 1 =>
    match cs with
    | ']' :: rest => some rest
    | cs => do
      let (_, rest) ← readValue n depth cs
      match ← skipLines false rest with
      | ']' :: rest => return rest
      | ',' :: rest => readItems n depth (← skipLines false rest)
      | _ => none

def readPairs (n depth : Nat) (d : Document) (cs : List Char) : Option (List Char) :=
  match n with
  | 0 => none
  | n + 1 => do
    let (path, name, rest) ← readKey cs
    let rest ← expect '=' rest
    let (v, rest) ← readValue n depth (skipBlanks rest)
    let d ← d.define [] path name v
    match skipBlanks rest with
    | '\x7d' :: rest => return rest
    | ',' :: rest => readPairs n depth d rest
    | _ => none

end

def readHeader (d : Document) : List Char → Option (Document × Place × List Char)
  | '[' :: rest => do
    let (path, name, rest) ← readKey rest
    let rest ← expect ']' rest
    let rest ← expect ']' rest
    let (d, place) ← d.openElement path name
    return (d, place, rest)
  | rest => do
    let (path, name, rest) ← readKey rest
    let rest ← expect ']' rest
    let (d, place) ← d.openTable path name
    return (d, place, rest)

def readPair (d : Document) (place : Place) (cs : List Char) : Option (Document × List Char) := do
  let (path, name, rest) ← readKey cs
  let rest ← expect '=' rest
  let rest := skipBlanks rest
  let (v, rest) ← readValue (2 * rest.length + 2) 0 rest
  return (← d.define place path name v, rest)

def readLines : Nat → Document → Place → List Char → Option Document
  | 0, _, _, _ => none
  | n + 1, d, place, cs =>
    match skipBlanks cs with
    | [] => some d
    | '[' :: rest => do
      let (d, place, rest) ← readHeader d rest
      readLines n d place (← readLineEnd rest)
    | '#' :: rest => do readLines n d place (← readLineEnd ('#' :: rest))
    | '\n' :: rest => readLines n d place rest
    | '\r' :: '\n' :: rest => readLines n d place rest
    | cs => do
      let (d, rest) ← readPair d place cs
      readLines n d place (← readLineEnd rest)

def dropByteOrderMark : List Char → List Char
  | '\ufeff' :: rest => rest
  | rest => rest

def readDocument (text : List Char) : Option Document :=
  readLines (text.length + 1) [] [] (dropByteOrderMark text)

end TaskNetwork.Toml
