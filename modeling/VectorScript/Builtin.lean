import VectorScript.EvalError
import VectorScript.Series

/-!
# Builtins

A builtin is a name, the numbers of arguments it takes, and a kernel.  The kernel's form tells how
little of the arguments a request needs.
-/

namespace VectorScript

/-- How many arguments are accepted. -/
inductive Arity where
  | exactly (n : Nat)
  | atLeast (n : Nat)
  | between (lo hi : Nat)
deriving DecidableEq, Repr, Inhabited

def Arity.accepts : Arity → Nat → Bool
  | exactly n, count => count = n
  | atLeast n, count => n ≤ count
  | between lo hi, count => lo ≤ count && count ≤ hi

/-- The work of a builtin. -/
inductive Kernel where
  /-- A function of each value of one argument. -/
  | map (f : Float32 → Float32)
  /-- A function of the values of two broadcast arguments. -/
  | zip (f : Float32 → Float32 → Float32)
  /-- One value for each channel of one argument. -/
  | reduce (f : Array Float32 → Float32)
  /-- A function of whole arguments, and the shape of its result by their shapes alone. -/
  | whole (f : List Series → Except EvalError.Cause Series)
      (rule : List Shape → Except EvalError.Cause Shape)
  /-- A name that is known and has no meaning yet. -/
  | reserved
deriving Inhabited

structure Builtin where
  name : String
  arity : Arity
  kernel : Kernel
deriving Inhabited

namespace Builtin

def map (name : String) (f : Float32 → Float32) : Builtin :=
  ⟨name, .exactly 1, .map f⟩

def zip (name : String) (f : Float32 → Float32 → Float32) : Builtin :=
  ⟨name, .exactly 2, .zip f⟩

def reduce (name : String) (f : Array Float32 → Float32) : Builtin :=
  ⟨name, .exactly 1, .reduce f⟩

def whole (name : String) (arity : Arity) (f : List Series → Except EvalError.Cause Series)
    (rule : List Shape → Except EvalError.Cause Shape) : Builtin :=
  ⟨name, arity, .whole f rule⟩

/-! ### Errors of kernels and rules -/

/-- Renames a disagreement of dimensions. -/
def orInvalid {α : Type} (name reason : String) (r : Except DimensionMismatch α) :
    Except EvalError.Cause α :=
  r.mapError fun _ => .invalidArgument name reason

/-- Broadcasts the shapes of arguments. -/
def broadcastArgs (name : String) (shapes : List Shape) : Except EvalError.Cause Shape :=
  orInvalid name "arguments differ in dimension" (Shape.broadcast shapes)

/-- Applies a function of two values to two broadcast series. -/
def zipTwo (f : Float32 → Float32 → Float32) (operands : List Series) :
    Except DimensionMismatch Series :=
  Series.zipMap operands fun
    | [a, b] => f a b
    | _ => Scalar.nan

/-- One value for each channel, as one element. -/
def reduceChannels (f : Array Float32 → Float32) (v : Series) : Series :=
  .vector (v.channels.map f)

end Builtin

end VectorScript
