import VectorScript.Meaning.Elementwise

/-!
# Ranges

`lower...upper` counts from one whole number to another.  Whole numbers, distances and lengths are
kept to 53 significant bits.
-/

namespace VectorScript

/-- `length` whole numbers from `first` on. -/
structure Range where
  first : Int
  length : Nat
deriving DecidableEq, Repr, Inhabited

namespace Range

/-- The range between two numbers, each rounded to a whole one. -/
def ofBounds (limit : Nat) (lower upper : Float32) : Except EvalError.Cause Range :=
  if !lower.isFinite || !upper.isFinite then .error .invalidArrayRange
  else
    let lo := Scalar.toInt lower
    let hi := Scalar.toInt upper
    if hi < lo then .error .invalidArrayRange
    else
      let length := Scalar.keep53 (Scalar.keep53 (hi - lo).toNat + 1)
      if Scalar.keep53 limit < length then .error .arrayTooLarge
      else .ok ⟨lo, min length maxLength⟩

/-- The number at a place of the range. -/
def get (r : Range) (k : Nat) : Float32 :=
  Float32.ofInt (Scalar.keep53Int (r.first + Scalar.keep53 k))

/-- The number at an index; outside the range it is not a number. -/
def readAt (r : Range) (i : Int) : Float32 :=
  if inRange r.length i then r.get i.toNat else Scalar.nan

def values (r : Range) : Selection → Series
  | .all => .ofValues (Array.ofFn fun k : Fin r.length => r.get k)
  | .at indices => .ofValues (indices.map r.readAt).toArray

end Range

namespace Meaning

variable {m : Type → Type} [Answering m]

/-- The value of a bound, which has to be a single number. -/
@[specialize] def bound (site : Site) (operand : Meaning m) : m Float32 := do
  if (← operand.shape) ≠ .scalar then Answering.fail site .invalidEllipsisOperand
  return (← operand.values .all).first

@[specialize] def range (site lowerSite upperSite : Site) (limit : Nat) (lower upper : Meaning m) :
    Meaning m :=
  after do
    let lo ← bound lowerSite lower
    let hi ← bound upperSite upper
    let r ← Answering.liftAt site (Range.ofBounds limit lo hi)
    return ⟨pure ⟨r.length, 1⟩, fun selection => pure (r.values selection)⟩

end Meaning

end VectorScript
