import VectorScript.Builtin.Statistics
import VectorScript.Series.Builder

/-!
# Arrangement

Builtins that rearrange the elements of whole series.
-/

namespace VectorScript.Builtin

namespace Arrangement

/-- The dimension that all arguments share. -/
def uniformDimension (name : String) : List Shape → Except EvalError.Cause Nat
  | [] => .error (.invalidArgument name "malformed input")
  | s :: rest =>
    if rest.all (·.dimension = s.dimension) then .ok s.dimension
    else .error (.invalidArgument name "arguments differ in dimension")

/-- All elements of all arguments in order. -/
def join (args : List Series) : Except EvalError.Cause Series := do
  let b ← orInvalid "join" "arguments differ in dimension" (args.foldlM Builder.push .empty)
  b.build

def joinShape (shapes : List Shape) : Except EvalError.Cause Shape := do
  let dimension ← uniformDimension "join" shapes
  return ⟨(shapes.map Shape.length).foldl (· + ·) 0, dimension⟩

/-- The least length of some arguments. -/
def rows (lengths : List Nat) : Nat := lengths.min?.getD 0

/-- First elements, second elements and so on, until the shortest argument ends. -/
def interleave (args : List Series) : Except EvalError.Cause Series := do
  let dimension ← uniformDimension "interleave" (args.map Series.shape)
  let n := rows (args.map Series.length)
  Builder.reserve (n * args.length)
  let channel (c : Nat) : Array Float32 :=
    (List.range n).foldl (fun values i =>
      args.foldl (fun values v => values.push ((v.channel c).getD i Scalar.nan)) values) #[]
  return ⟨n * args.length, (List.range dimension).map channel⟩

def interleaveShape (shapes : List Shape) : Except EvalError.Cause Shape := do
  let dimension ← uniformDimension "interleave" shapes
  return ⟨rows (shapes.map Shape.length) * shapes.length, dimension⟩

/-- Combines the values of all broadcast arguments, place by place. -/
def combineArgs (name : String) (f : Float32 → Float32 → Float32) (args : List Series) :
    Except EvalError.Cause Series :=
  orInvalid name "arguments differ in dimension" (Series.zipMap args (Statistics.combine f))

section Sorting

variable {κ : Type} (le : κ → κ → Bool)

/-- The positions of the first `n` keys by ascending key; equal keys keep their order. -/
def orderBy (key : Nat → κ) (n : Nat) : List Nat :=
  (List.range n).mergeSort fun i j => le (key i) (key j)

/-- Whole elements by ascending key, as many as there are keys for. -/
def sortBy (values : Series) (keys : Nat) (key : Nat → κ) : Series :=
  values.gather ((orderBy le key (min values.length keys)).map Int.ofNat)

end Sorting

/-- Every channel in ascending order, or whole elements by ascending key. -/
def sort : List Series → Except EvalError.Cause Series
  | [values] =>
    match Series.ofChannels? (values.channels.map Statistics.sorted) with
    | some v => .ok v
    | none => .error (.invalidArgument "sort" "malformed input")
  | [values, key] =>
    if key.dimension ≠ 1 then .error (.invalidArgument "sort" "expected a scalar array")
    else
      let keys := key.channel 0
      .ok (sortBy Scalar.precedes values key.length fun i => keys.getD i Scalar.nan)
  | _ => .error (.invalidArgument "sort" "malformed input")

def sortShape : List Shape → Except EvalError.Cause Shape
  | [values] => .ok values
  | [values, key] =>
    if key.dimension ≠ 1 then .error (.invalidArgument "sort" "expected a scalar array")
    else .ok ⟨min values.length key.length, values.dimension⟩
  | _ => .error (.invalidArgument "sort" "malformed input")

end Arrangement

open VectorScript.Builtin.Arrangement in
def arrangement : List Builtin :=
  [ whole "join" (.atLeast 1) join joinShape,
    whole "interleave" (.atLeast 1) interleave interleaveShape,
    whole "max" (.atLeast 2) (combineArgs "max" Scalar.larger) (broadcastArgs "max"),
    whole "min" (.atLeast 2) (combineArgs "min" Scalar.smaller) (broadcastArgs "min"),
    whole "sort" (.between 1 2) sort sortShape ]

end VectorScript.Builtin
