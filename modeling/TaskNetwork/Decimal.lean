namespace TaskNetwork

/-- The quotient rounded to the nearest whole number, a half to the even neighbour. -/
def roundDiv (a b : Nat) : Nat :=
  if 2 * (a % b) < b then a / b
  else if b < 2 * (a % b) then a / b + 1
  else a / b + a / b % 2

def decimalDigits (n : Nat) : List Char := Nat.toDigits 10 n

/-- The greatest `e` with `10 ^ e ≤ a / b`, for positive `a` and `b`. The numbers of digits tell it
but for one. -/
def decimalExponent (a b : Nat) : Int :=
  let e : Int := (decimalDigits a).length - (decimalDigits b).length
  if b * Nat.pow 10 e.toNat ≤ a * Nat.pow 10 (-e).toNat then e else e - 1

/-- The first `count` digits of `a / b` as a whole number, rounded, and the exponent of the first
one. -/
def significand (count a b : Nat) : Nat × Int :=
  let e := decimalExponent a b
  let shift := e + 1 - count
  let n := roundDiv (a * Nat.pow 10 (-shift).toNat) (b * Nat.pow 10 shift.toNat)
  if n = Nat.pow 10 count then (Nat.pow 10 (count - 1), e + 1) else (n, e)

def trimZeros (digits : List Char) : List Char := (digits.reverse.dropWhile (· = '0')).reverse

def fractionText (digits : List Char) : List Char :=
  match trimZeros digits with
  | [] => []
  | ds => '.' :: ds

/-- How many digits are significant, and the exponents from which on, and below which, numbers are
written as a multiple of a power of ten. -/
structure DecimalStyle where
  significant : Nat
  large : Int
  small : Int

def exponentText (e : Int) : List Char :=
  let digits := decimalDigits e.natAbs
  ['e', if e < 0 then '-' else '+'] ++ List.replicate (2 - digits.length) '0' ++ digits

def DecimalStyle.quotientText (style : DecimalStyle) (a b : Nat) : List Char :=
  let (n, e) := significand style.significant a b
  let digits := decimalDigits n
  if e < style.small ∨ style.large ≤ e then
    digits.take 1 ++ fractionText (digits.drop 1) ++ exponentText e
  else if e < 0 then '0' :: fractionText (List.replicate (-e - 1).toNat '0' ++ digits)
  else digits.take (e.toNat + 1) ++ fractionText (digits.drop (e.toNat + 1))

/-- A finite number that is not negative, as the quotient of two whole numbers. -/
def quotientOfFloat (x : Float) : Nat × Nat :=
  let bits := x.toBits.toNat
  let exponent : Nat := (bits >>> 52) % (1 <<< 11)
  let fraction : Nat := bits % (1 <<< 52)
  let (m, q) : Nat × Int :=
    if exponent = 0 then (fraction, -1074) else (fraction + (1 <<< 52), (exponent : Int) - 1075)
  (m <<< q.toNat, 1 <<< (-q).toNat)

def DecimalStyle.text (style : DecimalStyle) (x : Float) : String :=
  match quotientOfFloat x with
  | (0, _) => "0"
  | (a, b) => String.ofList (style.quotientText a b)

end TaskNetwork
