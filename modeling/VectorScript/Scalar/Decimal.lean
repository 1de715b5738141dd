import VectorScript.Scalar.Basic

/-!
# Decimal text of scalars

A scalar is written with the fewest digits that read back as the same scalar, or with a given
number of significant digits.  Digits are chosen in exact arithmetic on natural numbers.
-/

namespace VectorScript

/-- The number `digits · 10 ^ exponent`. -/
structure Decimal where
  digits : Nat
  exponent : Int
deriving DecidableEq, Repr, Inhabited

namespace Decimal

/-- How many decimal digits a number has. -/
def width (n : Nat) : Nat :=
  (Nat.toDigits 10 n).length

/-- The exponent `k` with `10 ^ (k - 1) ≤ num / den < 10 ^ k`, for a positive quotient. -/
def magnitude (num den : Nat) : Int :=
  if den ≤ num then width (num / den) else 1 - (width ((den + num - 1) / num - 1) : Int)

/-- The quotient `num / den` in units of `10 ^ unit`, again as numerator and denominator. -/
def scale (num den : Nat) (unit : Int) : Nat × Nat :=
  (num * Nat.pow 10 (-unit).toNat, den * Nat.pow 10 unit.toNat)

/-- The same number without a zero at the end of ten. -/
def trim (d : Decimal) : Decimal :=
  if d.digits % 10 = 0 then ⟨d.digits / 10, d.exponent + 1⟩ else d

/-! ### The fewest digits -/

/-- The numbers that read as one scalar: from `low` to `high` over `den`, the ends included if
`closed`, with the scalar itself at `mid`. -/
structure Interval where
  low : Nat
  mid : Nat
  high : Nat
  den : Nat
  closed : Bool
deriving DecidableEq, Repr, Inhabited

namespace Interval

/-- Half the distance to the next scalar on either side; below a power of two the scalars lie
twice as dense. -/
def ofParts (p : Scalar.Parts) : Interval :=
  let unit := Nat.pow 2 p.exponent.toNat
  let dense := p.mantissa = 0x800000 ∧ p.exponent > -149
  { low := (4 * p.mantissa - if dense then 1 else 2) * unit
    mid := 4 * p.mantissa * unit
    high := (4 * p.mantissa + 2) * unit
    den := 4 * p.denominator
    closed := p.mantissa % 2 == 0 }

/-- Whether `n · 10 ^ unit` lies in the interval. -/
def holds (r : Interval) (n : Nat) (unit : Int) : Bool :=
  let value := n * r.den * Nat.pow 10 unit.toNat
  let low := r.low * Nat.pow 10 (-unit).toNat
  let high := r.high * Nat.pow 10 (-unit).toNat
  if r.closed then low ≤ value && value ≤ high else low < value && value < high

/-- A multiple of `10 ^ unit` in the interval next to `mid`, if there is one: the nearer of the
two, and the larger of two equally near ones. -/
def multiple? (r : Interval) (unit : Int) : Option Decimal :=
  let (num, den) := scale r.mid r.den unit
  let n := num / den
  match r.holds n unit, r.holds (n + 1) unit with
  | true, true => some ⟨if 2 * (num % den) < den then n else n + 1, unit⟩
  | true, false => some ⟨n, unit⟩
  | false, true => some ⟨n + 1, unit⟩
  | false, false => none

/-- The fewest digits, tried from one to nine; nine always suffice for a scalar. -/
def shortest (r : Interval) : Decimal :=
  let top := magnitude r.mid r.den
  ((List.range 9).findSome? fun (n : Nat) => r.multiple? (top - 1 - n)).getD ⟨0, 0⟩ |>.trim

end Interval

/-! ### A given number of digits -/

/-- `num / den` rounded to `count` digits; a tie goes to the even neighbour. -/
def rounded (num den count : Nat) : Decimal :=
  let unit := magnitude num den - count
  let (num, den) := scale num den unit
  let n := num / den
  let twice := 2 * (num % den)
  let n := if twice > den ∨ twice = den ∧ n % 2 = 1 then n + 1 else n
  if n = Nat.pow 10 count then ⟨n / 10, unit + 1⟩ else ⟨n, unit⟩

/-! ### Layout -/

def zeros (n : Nat) : List Char :=
  List.replicate n '0'

/-- All digits around a point, without an exponent. -/
def positional (d : Decimal) : List Char :=
  let digits := Nat.toDigits 10 d.digits
  let before := digits.length + d.exponent
  if 0 ≤ d.exponent then digits ++ zeros d.exponent.toNat
  else if before ≤ 0 then '0' :: '.' :: zeros (-before).toNat ++ digits
  else digits.take before.toNat ++ '.' :: digits.drop before.toNat

/-- One digit before the point, the others behind it, and a power of ten. -/
def scientific (d : Decimal) : List Char :=
  let digits := Nat.toDigits 10 d.digits
  let fraction := digits.drop 1
  let point := if fraction.isEmpty then [] else '.' :: fraction
  digits.take 1 ++ point ++ 'e' :: (toString (d.exponent + fraction.length)).toList

end Decimal

namespace Scalar

/-- Words for what is not finite, a sign, and else the text that `write` gives the absolute
value. -/
def textWith (write : Parts → List Char) (x : Float32) : String :=
  if x.isNaN then "NaN"
  else
    let p := parts x
    let body := if x.isInf then ['i', 'n', 'f'] else write p
    String.ofList (if p.negative then '-' :: body else body)

/-- The fewest digits that read back, without an exponent. -/
def text (x : Float32) : String :=
  textWith (fun p =>
    if p.mantissa = 0 then ['0'] else (Decimal.Interval.ofParts p).shortest.positional) x

/-- The given number of significant digits and a power of ten. -/
def significantText (count : Nat) (x : Float32) : String :=
  textWith (fun p =>
    if p.mantissa = 0 then
      '0' :: (if count ≤ 1 then [] else '.' :: Decimal.zeros (count - 1)) ++ ['e', '0']
    else (Decimal.rounded p.numerator p.denominator count).scientific) x

/-! ### Reading -/

/-- The number that a row of digits stands for. -/
def ofDigits (digits : List Char) : Nat :=
  digits.foldl (fun n c => 10 * n + (c.toNat - '0'.toNat)) 0

/-- The power of ten behind a number: nothing, or an `e` with a sign and digits. -/
def exponent? : List Char → Option Int
  | [] => some 0
  | e :: rest =>
    let (negative, digits) := match rest with
      | '-' :: digits => (true, digits)
      | '+' :: digits => (false, digits)
      | digits => (false, digits)
    if (e == 'e' || e == 'E') && !digits.isEmpty && digits.all Char.isDigit then
      some (if negative then -ofDigits digits else ofDigits digits)
    else none

/-- The scalar nearest to `m · 10 ^ e`. -/
def ofDecimal (m : Nat) (e : Int) : Float32 :=
  if e < 0 then .ofScientific m true (-e).toNat else .ofScientific m false e.toNat

/-- A number without a sign: digits with at most one point among them, and a power of ten. -/
def unsigned? (cs : List Char) : Option Float32 :=
  let whole := cs.takeWhile Char.isDigit
  let (fraction, rest) := match cs.dropWhile Char.isDigit with
    | '.' :: rest => (rest.takeWhile Char.isDigit, rest.dropWhile Char.isDigit)
    | rest => ([], rest)
  if whole.isEmpty && fraction.isEmpty then none
  else (exponent? rest).map fun e => ofDecimal (ofDigits (whole ++ fraction)) (e - fraction.length)

/-- Reads a number, an infinity or the word for what is no number, each with an optional sign and
in any case of letters. -/
def read? (s : String) : Option Float32 :=
  let (negative, body) := match s.toList with
    | '-' :: rest => (true, rest)
    | '+' :: rest => (false, rest)
    | rest => (false, rest)
  let word := String.ofList (body.map Char.toLower)
  let magnitude :=
    if word = "inf" ∨ word = "infinity" then some infinity
    else if word = "nan" then some nan
    else unsigned? body
  magnitude.map fun x => if negative then -x else x

end Scalar

end VectorScript
