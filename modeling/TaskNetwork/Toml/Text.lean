import TaskNetwork.CharCode

namespace TaskNetwork.Toml

/-- A control character that is neither a tab nor the end of a line. -/
def isControl (c : Char) : Bool := (c.toNat < 0x20 && c != '\t' && c != '\n') || c.toNat == 0x7f

/-- Whether at most `limit` of the quotes stand together, when `n` of them stand in front. -/
def runsWithin (limit : Nat) (quote : Char) : Nat → List Char → Bool
  | _, [] => true
  | n, c :: cs =>
    if c = quote then n < limit && runsWithin limit quote (n + 1) cs
    else runsWithin limit quote 0 cs

inductive TextForm where
  | basic
  | literal
  | basicBlock
  | literalBlock
deriving DecidableEq

/-- The first form in which nothing has to be escaped, in the order of the cases. Where each has
something to be escaped, a block if the string has several lines. -/
def TextForm.of (s : List Char) : TextForm :=
  let plain := !s.any isControl
  if plain && !s.contains '"' && !s.contains '\\' && !s.contains '\n' then .basic
  else if plain && !s.contains '\'' && !s.contains '\n' then .literal
  else if plain && !s.contains '\\' && runsWithin 2 '"' 0 s then .basicBlock
  else if plain && runsWithin 2 '\'' 0 s then .literalBlock
  else if s.contains '\n' then .basicBlock
  else .basic

def hexDigit (n : Nat) : Char := Char.ofNat (if n < 10 then 48 + n else 55 + n)

def escape (block : Bool) (c : Char) : List Char :=
  if c = '\\' then ['\\', '\\']
  else if c = '\n' then if block then ['\n'] else ['\\', 'n']
  else if c = '\t' then ['\\', 't']
  else if c = '\r' then ['\\', 'r']
  else if c = '\x08' then ['\\', 'b']
  else if c = '\x0c' then ['\\', 'f']
  else if isControl c then
    ['\\', 'u', '0', '0', hexDigit (c.toNat / 16), hexDigit (c.toNat % 16)]
  else [c]

/-- A string as it is written between double quotes. In a block two quotes may stand together as
they are, of which `n` stand in front. -/
def escapeAll (block : Bool) : Nat → List Char → List Char
  | _, [] => []
  | n, c :: cs =>
    if c = '"' then
      if block && n < 2 then '"' :: escapeAll block (n + 1) cs
      else '\\' :: '"' :: escapeAll block 0 cs
    else escape block c ++ escapeAll block 0 cs

def blockStart (s : List Char) : List Char := if s.contains '\n' then ['\n'] else []

def writeTextAs (s : List Char) : TextForm → List Char
  | .basic => '"' :: escapeAll false 0 s ++ ['"']
  | .literal => '\'' :: s ++ ['\'']
  | .basicBlock => ['"', '"', '"'] ++ blockStart s ++ escapeAll true 0 s ++ ['"', '"', '"']
  | .literalBlock => ['\'', '\'', '\''] ++ blockStart s ++ s ++ ['\'', '\'', '\'']

def quoteText (s : List Char) : List Char := writeTextAs s (.of s)

/-- The character behind a backslash that stands for another one. -/
def unescape? : Char → Option Char
  | '"' => some '"'
  | '\\' => some '\\'
  | 'b' => some '\x08'
  | 'f' => some '\x0c'
  | 'n' => some '\n'
  | 'r' => some '\r'
  | 't' => some '\t'
  | _ => none

def consRead (c : Char) (r : Option (List Char × List Char)) : Option (List Char × List Char) :=
  r.map fun (s, rest) => (c :: s, rest)

def readBasic : List Char → Option (List Char × List Char)
  | '"' :: rest => some ([], rest)
  | '\\' :: 'u' :: a :: b :: c :: d :: rest => do
    consRead (← char? (← hexValue? [a, b, c, d])) (readBasic rest)
  | '\\' :: 'U' :: a :: b :: c :: d :: e :: f :: g :: h :: rest => do
    consRead (← char? (← hexValue? [a, b, c, d, e, f, g, h])) (readBasic rest)
  | '\\' :: c :: rest => do consRead (← unescape? c) (readBasic rest)
  | c :: rest => if isControl c ∨ c = '\n' ∨ c = '\\' then none else consRead c (readBasic rest)
  | [] => none

def readLiteral : List Char → Option (List Char × List Char)
  | '\'' :: rest => some ([], rest)
  | c :: rest => if isControl c ∨ c = '\n' then none else consRead c (readLiteral rest)
  | [] => none

/-- Up to two more quotes after those that close a block belong to the block. -/
def closeBlock (quote : Char) : List Char → List Char × List Char
  | a :: b :: rest =>
    if a = quote then if b = quote then ([a, b], rest) else ([a], b :: rest)
    else ([], a :: b :: rest)
  | [a] => if a = quote then ([a], []) else ([], [a])
  | [] => ([], [])

def lineEnds (cs : List Char) : Bool :=
  match cs.dropWhile fun c => c == ' ' || c == '\t' with
  | '\n' :: _ => true
  | '\r' :: '\n' :: _ => true
  | _ => false

/-- The rest of a block between double quotes. A backslash at the end of a line takes away the
blanks and line ends behind it; `skip` is set while that goes on. -/
def readBasicBlock : Bool → List Char → Option (List Char × List Char)
  | true, ' ' :: rest => readBasicBlock true rest
  | true, '\t' :: rest => readBasicBlock true rest
  | true, '\n' :: rest => readBasicBlock true rest
  | true, '\r' :: '\n' :: rest => readBasicBlock true rest
  | _, '"' :: '"' :: '"' :: rest => some (closeBlock '"' rest)
  | _, '\\' :: 'u' :: a :: b :: c :: d :: rest => do
    consRead (← char? (← hexValue? [a, b, c, d])) (readBasicBlock false rest)
  | _, '\\' :: 'U' :: a :: b :: c :: d :: e :: f :: g :: h :: rest => do
    consRead (← char? (← hexValue? [a, b, c, d, e, f, g, h])) (readBasicBlock false rest)
  | _, '\\' :: c :: rest =>
    if lineEnds (c :: rest) then readBasicBlock true (c :: rest)
    else do consRead (← unescape? c) (readBasicBlock false rest)
  | _, '\r' :: '\n' :: rest => consRead '\n' (readBasicBlock false rest)
  | _, c :: rest => if isControl c ∨ c = '\\' then none else consRead c (readBasicBlock false rest)
  | _, [] => none

def readLiteralBlock : List Char → Option (List Char × List Char)
  | '\'' :: '\'' :: '\'' :: rest => some (closeBlock '\'' rest)
  | '\r' :: '\n' :: rest => consRead '\n' (readLiteralBlock rest)
  | c :: rest => if isControl c then none else consRead c (readLiteralBlock rest)
  | [] => none

/-- A line end at the start of a block does not belong to it. -/
def dropLineEnd : List Char → List Char
  | '\n' :: rest => rest
  | '\r' :: '\n' :: rest => rest
  | rest => rest

def readText : List Char → Option (List Char × List Char)
  | '"' :: '"' :: '"' :: rest => readBasicBlock false (dropLineEnd rest)
  | '"' :: rest => readBasic rest
  | '\'' :: '\'' :: '\'' :: rest => readLiteralBlock (dropLineEnd rest)
  | '\'' :: rest => readLiteral rest
  | _ => none

end TaskNetwork.Toml
