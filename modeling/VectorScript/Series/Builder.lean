import VectorScript.EvalError
import VectorScript.Series

/-!
# Builders

A builder puts series of one dimension together.
-/

namespace VectorScript

/-- Series pushed so far, the last one first, and the sum of their lengths.  Dimension zero says
that the dimension is still open. -/
structure Builder where
  dimension : Nat
  length : Nat
  parts : List Series
deriving Inhabited

namespace Builder

def empty : Builder := ⟨0, 0, []⟩

def ofDimension (dimension : Nat) : Builder := ⟨dimension, 0, []⟩

def dimension? (b : Builder) : Option Nat :=
  if b.dimension = 0 then none else some b.dimension

/-- Appends the elements of a series.  The first series fixes an open dimension. -/
def push (b : Builder) (v : Series) : Except DimensionMismatch Builder :=
  if b.dimension = 0 ∨ b.dimension = v.dimension then
    .ok ⟨v.dimension, b.length + v.length, v :: b.parts⟩
  else .error ⟨b.dimension, v.dimension⟩

/-- Appends one element. -/
def pushElement (b : Builder) (components : List Float32) : Except DimensionMismatch Builder :=
  b.push (Series.vector components)

/-- Channel `c` of all parts in order. -/
def channel (b : Builder) (c : Nat) : Array Float32 :=
  b.parts.foldr (fun v values => values ++ v.channel c) #[]

/-- All elements in order; nothing at all is a series of numbers. -/
def finish (b : Builder) : Series :=
  if b.dimension = 0 then .ofValues #[] else ⟨b.length, (List.range b.dimension).map b.channel⟩

/-- An array can hold so many elements. -/
def reserve (length : Nat) : Except EvalError.Cause Unit :=
  if maxLength < length then .error (.fault .capacity) else .ok ()

/-- All elements in order, if an array can hold them. -/
def build (b : Builder) : Except EvalError.Cause Series := do
  reserve b.length
  return b.finish

end Builder

end VectorScript
