import TaskNetwork.CharCode

namespace TaskNetwork.Toml

/-- The digits at the front, where a single underscore may stand between two of them. -/
def moreDigits (ok : Char → Bool) : List Char → List Char × List Char
  | '_' :: c :: rest =>
    if ok c then
      let (ds, rest) := moreDigits ok rest
      (c :: ds, rest)
    else ([], '_' :: c :: rest)
  | c :: rest =>
    if ok c then
      let (ds, rest) := moreDigits ok rest
      (c :: ds, rest)
    else ([], c :: rest)
  | [] => ([], [])

def someDigits (ok : Char → Bool) : List Char → Option (List Char × List Char)
  | c :: rest => if ok c then some (moreDigits ok (c :: rest)) else none
  | [] => none

def dropSign : List Char → List Char
  | '+' :: rest => rest
  | '-' :: rest => rest
  | rest => rest

def readWhole (cs : List Char) : Option (List Char × List Char) :=
  match dropSign cs with
  | '0' :: rest => some (['0'], rest)
  | rest => someDigits Char.isDigit rest

def digitsValue (base : Nat) (digits : List Char) : Nat :=
  digits.foldl (fun n c => base * n + (hexDigit? c).getD 0) 0

def readExponent : List Char → Option (Int × List Char)
  | c :: rest =>
    if c = 'e' ∨ c = 'E' then
      (someDigits Char.isDigit (dropSign rest)).map fun (ds, after) =>
        (if rest.head? = some '-' then -(digitsValue 10 ds : Int) else digitsValue 10 ds, after)
    else none
  | [] => none

def readFraction : List Char → Option (List Char × Int × List Char)
  | '.' :: rest => do
    let (ds, rest) ← someDigits Char.isDigit rest
    let (e, rest) := (readExponent rest).getD (0, rest)
    return (ds, e, rest)
  | _ => none

/-- Whether the digits times the power of ten round to a floating-point number. From the middle
between the greatest one and the next power of two on they do not. -/
def fitsFloat (digits : List Char) (exponent : Int) : Bool :=
  match digits.dropWhile (· = '0') with
  | [] => true
  | ds =>
    let places := ds.length + exponent
    if places = 309 then
      digitsValue 10 ds * Nat.pow 10 exponent.toNat
        < ((1 <<< 1024) - (1 <<< 970)) * Nat.pow 10 (-exponent).toNat
    else places < 309

def readSpecialFloat (cs : List Char) : Option (List Char) :=
  match dropSign cs with
  | 'i' :: 'n' :: 'f' :: rest => some rest
  | 'n' :: 'a' :: 'n' :: rest => some rest
  | _ => none

/-- A number with a fraction or a power of ten, or a special one. Positive ones must not be too
large. -/
def readFloat (cs : List Char) : Option (List Char) :=
  (do let (ds, rest) ← readWhole cs
      let (fs, e, rest) ←
        ((readExponent rest).map fun (e, rest) => ([], e, rest)) <|> readFraction rest
      guard (cs.head? = some '-' ∨ fitsFloat (ds ++ fs) (e - fs.length))
      return rest)
  <|> readSpecialFloat cs

def readBased (base : Nat) (ok : Char → Bool) (cs : List Char) : Option (List Char) := do
  let (ds, rest) ← someDigits ok cs
  if digitsValue base ds < 1 <<< 63 then some rest else none

def readInteger : List Char → Option (List Char)
  | '0' :: 'x' :: rest => readBased 16 (fun c => (hexDigit? c).isSome) rest
  | '0' :: 'o' :: rest => readBased 8 (fun c => decide ('0' ≤ c) && decide (c ≤ '7')) rest
  | '0' :: 'b' :: rest => readBased 2 (fun c => c == '0' || c == '1') rest
  | cs => do
    let (ds, rest) ← readWhole cs
    let bound := if cs.head? = some '-' then 1 <<< 63 else (1 <<< 63) - 1
    if digitsValue 10 ds ≤ bound then some rest else none

def readField (count low high : Nat) (cs : List Char) : Option (Nat × List Char) :=
  let ds := cs.take count
  let n := digitsValue 10 ds
  if ds.length = count ∧ ds.all Char.isDigit ∧ low ≤ n ∧ n ≤ high then some (n, cs.drop count)
  else none

def expect (c : Char) : List Char → Option (List Char)
  | d :: rest => if d = c then some rest else none
  | [] => none

def daysOfMonth (year month : Nat) : Nat :=
  if month = 2 then if year % 4 = 0 ∧ (year % 100 ≠ 0 ∨ year % 400 = 0) then 29 else 28
  else if month ∈ [4, 6, 9, 11] then 30
  else 31

def readDate (cs : List Char) : Option (List Char) := do
  let (year, cs) ← readField 4 0 9999 cs
  let cs ← expect '-' cs
  let (month, cs) ← readField 2 1 12 cs
  let cs ← expect '-' cs
  let (_, cs) ← readField 2 1 (daysOfMonth year month) cs
  return cs

def readTime (cs : List Char) : Option (List Char) := do
  let (_, cs) ← readField 2 0 23 cs
  let cs ← expect ':' cs
  let (_, cs) ← readField 2 0 59 cs
  let cs ← expect ':' cs
  let (_, cs) ← readField 2 0 60 cs
  match cs with
  | '.' :: c :: rest => if c.isDigit then return rest.dropWhile Char.isDigit else return cs
  | _ => return cs

def dropOffset (cs : List Char) : List Char :=
  match cs with
  | 'Z' :: rest => rest
  | 'z' :: rest => rest
  | c :: rest =>
    if c = '+' ∨ c = '-' then
      (do let (_, rest) ← readField 2 0 23 rest
          let rest ← expect ':' rest
          let (_, rest) ← readField 2 0 59 rest
          return rest).getD cs
    else cs
  | [] => []

def readDateTime (cs : List Char) : Option (List Char) :=
  (do let rest ← readDate cs
      match rest with
      | c :: time =>
        if c = 'T' ∨ c = 't' ∨ c = ' ' then
          match readTime time with
          | some rest => return dropOffset rest
          | none => return rest
        else return rest
      | [] => return rest)
  <|> readTime cs

def readScalar (cs : List Char) : Option (List Char) :=
  readDateTime cs <|> readFloat cs <|> readInteger cs

end TaskNetwork.Toml
