import VectorScript.Builtin.Arrangement
import VectorScript.Builtin.Elementwise
import VectorScript.Builtin.Geometry
import VectorScript.Builtin.Statistics
import VectorScript.Settings

/-!
# The catalog of builtins

All builtins by family, look-up by name and number of arguments, and the named constants.
-/

namespace VectorScript

/-- Builtins that belong together. -/
structure Builtin.Family where
  name : String
  members : List Builtin
deriving Inhabited

namespace Catalog

def families : List Builtin.Family :=
  [⟨"core", Builtin.elementwise⟩, ⟨"stats", Builtin.statistics⟩, ⟨"list", Builtin.arrangement⟩,
    ⟨"geometry", Builtin.geometry⟩]

def family? (name : String) : Option Builtin.Family :=
  families.find? (·.name = name)

/-- The builtins of one name, which differ in their numbers of arguments. -/
def overloads (name : String) : List Builtin :=
  (families.flatMap (·.members)).filter (·.name = name)

/-- The builtin of a name that takes a number of arguments.  A known name that takes other
numbers only is an error. -/
def lookup (name : String) (count : Nat) : Except EvalError.Cause (Option Builtin) :=
  let known := overloads name
  match known.find? (·.arity.accepts count) with
  | some b => .ok (some b)
  | none => if known.isEmpty then .ok none else .error (.incorrectArgumentCount name count)

def isFunction (name : String) : Bool :=
  !(overloads name).isEmpty

/-- The value of a named constant. -/
def constant? (animation : Animation) : String → Option Series
  | "pi" => some (.scalar 3.14159265358979323846)
  | "tau" => some (.scalar 6.28318530717958647692)
  | "e" => some (.scalar 2.71828182845904523536)
  | "inf" => some (.scalar Scalar.infinity)
  | "time" => some (.scalar animation.time)
  | "position" => some (.vector animation.position.toList)
  | "scale" => some (.scalar animation.scale)
  | "rotation" => some (.vector animation.rotation.toList)
  | _ => none

def isConstant (name : String) : Bool :=
  (constant? .initial name).isSome

end Catalog

end VectorScript
