import VectorScript.Builtin.Statistics

/-!
# Geometry

Products, distances and lengths of vectors, element by element.
-/

namespace VectorScript.Builtin

namespace Geometry

def vectorsDiffer (name : String) : EvalError.Cause :=
  .invalidArgument name "vectors differ in dimension"

/-- The shape of two broadcast arguments of one dimension. -/
def pairShape (name : String) : List Shape → Except EvalError.Cause Shape
  | [a, b] =>
    if a.dimension ≠ b.dimension then .error (vectorsDiffer name)
    else (Shape.broadcast [a, b]).mapError fun _ => vectorsDiffer name
  | _ => .error (.invalidArgument name "malformed input")

/-- A number for each pair of elements of two broadcast series of one dimension. -/
def pairwise (name : String) (f : List Float32 → List Float32 → Float32) :
    List Series → Except EvalError.Cause Series
  | [a, b] => do
    let s ← pairShape name [a.shape, b.shape]
    let components (v : Series) (i : Nat) : List Float32 :=
      (List.range s.dimension).map fun c => v.broadcastAt i c
    return .ofValues (Array.ofFn fun i : Fin s.length => f (components a i) (components b i))
  | _ => .error (.invalidArgument name "malformed input")

def pairwiseShape (name : String) (shapes : List Shape) : Except EvalError.Cause Shape := do
  let s ← pairShape name shapes
  return ⟨s.length, 1⟩

def sumOf (xs : List Float32) : Float32 := Statistics.sum xs.toArray

def dot (a b : List Float32) : Float32 := sumOf (List.zipWith (· * ·) a b)

def squaredDistance (a b : List Float32) : Float32 :=
  sumOf (List.zipWith (fun x y => (x - y) * (x - y)) a b)

def distance (a b : List Float32) : Float32 := (squaredDistance a b).sqrt

/-- The cross product of two series of vectors with three components. -/
def cross : List Series → Except EvalError.Cause Series
  | [a, b] => do
    if a.dimension ≠ 3 ∨ b.dimension ≠ 3 then
      throw (.invalidArgument "cross" "expected a 3-dimensional vector")
    let s ← (Shape.broadcast [a.shape, b.shape]).mapError fun _ => vectorsDiffer "cross"
    let channel (c : Nat) : Array Float32 :=
      let j := (c + 1) % 3
      let k := (c + 2) % 3
      Array.ofFn fun i : Fin s.length =>
        a.broadcastAt i j * b.broadcastAt i k - a.broadcastAt i k * b.broadcastAt i j
    return ⟨s.length, (List.range 3).map channel⟩
  | _ => .error (.invalidArgument "cross" "malformed input")

def crossShape (shapes : List Shape) : Except EvalError.Cause Shape := do
  if shapes.any (·.dimension ≠ 3) then
    throw (.invalidArgument "cross" "expected a 3-dimensional vector")
  let s ← (Shape.broadcast shapes).mapError fun _ => vectorsDiffer "cross"
  return ⟨s.length, 3⟩

/-- The squared length of every element. -/
def squaredLengths (v : Series) : Array Float32 :=
  Array.ofFn fun i : Fin v.length =>
    sumOf (v.channels.map fun c => c.getD i Scalar.nan * c.getD i Scalar.nan)

def lengths (v : Series) : Array Float32 := (squaredLengths v).map Float32.sqrt

/-- A function of one series. -/
def single (name : String) (f : Series → Series) : List Series → Except EvalError.Cause Series
  | [v] => .ok (f v)
  | _ => .error (.invalidArgument name "malformed input")

def singleShape (name : String) (f : Shape → Shape) : List Shape → Except EvalError.Cause Shape
  | [s] => .ok (f s)
  | _ => .error (.invalidArgument name "malformed input")

/-- Every element divided by its length. -/
def normalize (v : Series) : Series :=
  let norms := lengths v
  ⟨v.length, v.channels.map fun c => Array.zipWith (· / ·) c norms⟩

end Geometry

open VectorScript.Builtin.Geometry in
def geometry : List Builtin :=
  [ whole "cross" (.exactly 2) cross crossShape,
    whole "dot" (.exactly 2) (pairwise "dot" dot) (pairwiseShape "dot"),
    whole "dist" (.exactly 2) (pairwise "dist" distance) (pairwiseShape "dist"),
    whole "distsq" (.exactly 2) (pairwise "distsq" squaredDistance) (pairwiseShape "distsq"),
    whole "length" (.exactly 1) (single "length" fun v => .ofValues (lengths v))
      (singleShape "length" fun s => ⟨s.length, 1⟩),
    whole "lengthsq" (.exactly 1) (single "lengthsq" fun v => .ofValues (squaredLengths v))
      (singleShape "lengthsq" fun s => ⟨s.length, 1⟩),
    whole "normalize" (.exactly 1) (single "normalize" normalize)
      (singleShape "normalize" fun s => s) ]

end VectorScript.Builtin
