/-!
# Scalars

The numbers of the language are single-precision floats.  This module reads a finite one as an
exact number `± mantissa · 2 ^ exponent` and builds on it what needs exact arithmetic: remainders,
whole numbers near a scalar, and the total order that sorting uses.
-/

namespace VectorScript.Scalar

def nan : Float32 := 0 / 0

def infinity : Float32 := 1 / 0

/-! ### Exact parts -/

/-- The exact number `mantissa · 2 ^ exponent`, negated if `negative`. -/
structure Parts where
  negative : Bool
  mantissa : Nat
  exponent : Int
deriving DecidableEq, Repr, Inhabited

/-- The value of a finite scalar.  The mantissa has at most 24 bits. -/
def parts (x : Float32) : Parts :=
  let bits := x.toBits.toNat
  let fraction := bits % 0x800000
  let biased : Nat := bits / 0x800000 % 0x100
  { negative := bits / 0x80000000 == 1
    mantissa := if biased = 0 then fraction else fraction + 0x800000
    exponent := if biased = 0 then -149 else (biased : Int) - 150 }

/-- The scalar with the given value; the mantissa has at most 24 bits and the exponent is at
least -149. -/
def ofParts (p : Parts) : Float32 :=
  let shift := min (23 - p.mantissa.log2) (p.exponent + 149).toNat
  let mantissa := p.mantissa * Nat.pow 2 shift
  let biased := if mantissa < 0x800000 then 0 else (p.exponent - shift + 150).toNat
  let sign := if p.negative then 0x80000000 else 0
  .ofBits (.ofNat (sign + biased * 0x800000 + mantissa % 0x800000))

namespace Parts

/-- The numerator of the absolute value over `denominator`. -/
def numerator (p : Parts) : Nat :=
  p.mantissa * Nat.pow 2 p.exponent.toNat

def denominator (p : Parts) : Nat :=
  Nat.pow 2 (-p.exponent).toNat

/-- The nearest whole number to the absolute value; halves go up. -/
def nearest (p : Parts) : Nat :=
  (2 * p.numerator + p.denominator) / (2 * p.denominator)

/-- The largest whole number not above the absolute value. -/
def below (p : Parts) : Nat :=
  p.numerator / p.denominator

/-- The smallest whole number not below the absolute value. -/
def above (p : Parts) : Nat :=
  (p.numerator + p.denominator - 1) / p.denominator

end Parts

/-! ### Whole numbers -/

/-- The nearest whole number to a finite scalar; halves go away from zero. -/
def toInt (x : Float32) : Int :=
  let p := parts x
  if p.negative then -p.nearest else p.nearest

/-- The least index. -/
def minIndex : Int := -0x8000000000000000

/-- The greatest index. -/
def maxIndex : Int := 0x7fffffffffffffff

/-- The element index that a scalar names: the nearest whole number within 64 signed bits.
Anything not finite names no element, which is what index -1 says. -/
def toIndex (x : Float32) : Int :=
  if x.isFinite then max minIndex (min maxIndex (toInt x)) else -1

/-- Rounds to 53 significant bits; a tie goes to the even neighbour. -/
def keep53 (n : Nat) : Nat :=
  if n < 0x20000000000000 then n
  else
    let unit := Nat.pow 2 (n.log2 + 1 - 53)
    let kept := n / unit
    let rest := n % unit
    if 2 * rest > unit ∨ 2 * rest = unit ∧ kept % 2 = 1 then (kept + 1) * unit else kept * unit

/-- `keep53` on the absolute value. -/
def keep53Int : Int → Int
  | .ofNat n => keep53 n
  | .negSucc n => -keep53 (n + 1)

/-! ### Operations -/

/-- Rounds toward zero. -/
def truncate (x : Float32) : Float32 :=
  if x < 0 then x.ceil else x.floor

/-- The remainder of a division that rounds toward zero; it has the sign of the dividend. -/
def remainder (a b : Float32) : Float32 :=
  if a.isNaN || b.isNaN || a.isInf || b == 0 then nan
  else if b.isInf || a == 0 then a
  else
    let p := parts a
    let q := parts b
    let exponent := min p.exponent q.exponent
    let dividend := p.mantissa * Nat.pow 2 (p.exponent - exponent).toNat
    let divisor := q.mantissa * Nat.pow 2 (q.exponent - exponent).toNat
    ofParts ⟨p.negative, dividend % divisor, exponent⟩

/-- The larger of two numbers; a number beats what is not one. -/
def larger (a b : Float32) : Float32 :=
  if a.isNaN then b else if b.isNaN then a else if a < b then b else a

/-- The smaller of two numbers; a number beats what is not one. -/
def smaller (a b : Float32) : Float32 :=
  if a.isNaN then b else if b.isNaN then a else if b < a then b else a

/-- One for true and zero for false. -/
def ofBool (b : Bool) : Float32 :=
  if b then 1 else 0

/-! ### Total order -/

/-- Orders all bit patterns of scalars: those with a sign from the largest magnitude down, then
those without one from zero up.  Patterns that are no numbers stand at both ends, by their sign. -/
def patternRank (bits : UInt32) : Int :=
  if bits.toNat < 0x80000000 then bits.toNat else 0x7fffffff - bits.toNat

/-- The total order of bit patterns. -/
def patternPrecedes (a b : UInt32) : Bool :=
  patternRank a ≤ patternRank b

/-- The total order of scalars is that of their bit patterns. -/
def precedes (a b : Float32) : Bool :=
  patternPrecedes a.toBits b.toBits

end VectorScript.Scalar
