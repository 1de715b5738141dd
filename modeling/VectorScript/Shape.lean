/-!
# Shapes

A series has a length and a dimension.  Operands of an element-wise operation are broadcast: a
single element stands for any number of them, a single component for any dimension.
-/

namespace VectorScript

/-- The number of elements, and the number of components of each. -/
structure Shape where
  length : Nat
  dimension : Nat
deriving DecidableEq, Repr, Inhabited

/-- Two dimensions that had to agree. -/
structure DimensionMismatch where
  expected : Nat
  found : Nat
deriving DecidableEq, Repr, Inhabited

namespace Shape

def scalar : Shape := ⟨1, 1⟩

def text (s : Shape) : String :=
  toString s.length ++ " × " ++ toString s.dimension

/-- The next dimension of some operands: one component goes with any number. -/
def meetDimension (d : Nat) (s : Shape) : Except DimensionMismatch Nat :=
  if s.dimension = 1 then .ok d
  else if d = 1 then .ok s.dimension
  else if d = s.dimension then .ok d
  else .error ⟨d, s.dimension⟩

/-- The shortest length apart from single elements. -/
def commonLength (shapes : List Shape) : Nat :=
  ((shapes.map length).filter (· ≠ 1)).min?.getD 1

/-- The shape of an element-wise result. -/
def broadcast (shapes : List Shape) : Except DimensionMismatch Shape := do
  let dimension ← shapes.foldlM meetDimension 1
  return ⟨commonLength shapes, dimension⟩

end Shape

/-- Lengths are counted in 64 bits. -/
def maxLength : Nat := 0xffffffffffffffff

end VectorScript
