import VectorScript.Span

/-!
# Evaluation errors

Why an expression has no value, and the statement and tokens that are to blame.  A fault is no error
of the language and has no code: the program cannot go on after it.
-/

namespace VectorScript

inductive EvalError.Fault where
  /-- An element past the end of an array is read. -/
  | outOfBounds (index length : Nat)
  /-- A number of elements cannot be counted in 64 bits. -/
  | overflow
  /-- More elements are to be put together than can be stored. -/
  | capacity
deriving DecidableEq, Repr, Inhabited

inductive EvalError.Cause where
  | undefinedIdentifier (name : String)
  | vectorInsideVector
  | nonUniformArray
  | arrayInsideArray
  | arrayTooLarge
  | invalidArrayRange
  | identifierNotVariable (name : String)
  | identifierNotFunction (name : String)
  | incorrectParameterCount (name : String) (expected found : Nat)
  | incorrectArgumentCount (name : String) (found : Nat)
  | invalidArgument (name reason : String)
  | invalidEllipsisOperand
  | indexingWithVector
  | differingDimensions (left right : Nat)
  | invalidSwizzling (components : String)
  | notImplemented (name : String)
  | cyclicDefinition (name : String)
  | recursionLimit (depth : Nat)
  | fault (f : Fault)
deriving DecidableEq, Repr, Inhabited

/-- A span, and the statement whose tokens it counts; an expression on its own has none. -/
structure Site where
  statement : Option String
  span : Span
deriving DecidableEq, Repr, Inhabited

structure EvalError where
  cause : EvalError.Cause
  site : Site
deriving DecidableEq, Repr, Inhabited

namespace EvalError

def Fault.text : Fault → String
  | outOfBounds index length =>
    "index out of bounds: the len is " ++ toString length ++ " but the index is " ++ toString index
  | overflow => "arithmetic overflow"
  | capacity => "capacity overflow"

namespace Cause

def code? : Cause → Option String
  | undefinedIdentifier .. => some "R001"
  | vectorInsideVector => some "R002"
  | nonUniformArray => some "R003"
  | arrayInsideArray => some "R004"
  | arrayTooLarge => some "R005"
  | invalidArrayRange => some "R006"
  | identifierNotVariable .. => some "R007"
  | identifierNotFunction .. => some "R008"
  | incorrectParameterCount .. => some "R009"
  | incorrectArgumentCount .. => some "R010"
  | invalidArgument .. => some "R011"
  | invalidEllipsisOperand => some "R012"
  | indexingWithVector => some "R013"
  | differingDimensions .. => some "R014"
  | invalidSwizzling .. => some "R015"
  | notImplemented .. => some "R016"
  | cyclicDefinition .. => some "R017"
  | recursionLimit .. => some "R018"
  | fault _ => none

def quoted (name : String) : String := "`" ++ name ++ "`"

def text : Cause → String
  | undefinedIdentifier name => "undefined identifier " ++ quoted name
  | vectorInsideVector => "vector components must be scalars"
  | nonUniformArray => "array elements have differing dimensions"
  | arrayInsideArray => "arrays cannot be nested inside arrays"
  | arrayTooLarge => "array is too large"
  | invalidArrayRange => "invalid array range"
  | identifierNotVariable name => quoted name ++ " is a function, not a variable"
  | identifierNotFunction name => quoted name ++ " is not a function"
  | incorrectParameterCount name expected found =>
    quoted name ++ " expects " ++ toString expected ++ " parameters, got " ++ toString found
  | incorrectArgumentCount name found =>
    quoted name ++ " does not accept " ++ toString found ++ " arguments"
  | invalidArgument name reason => "invalid argument to " ++ quoted name ++ ": " ++ reason
  | invalidEllipsisOperand => "`...` operands must be single scalars"
  | indexingWithVector => "cannot index with a vector"
  | differingDimensions left right =>
    "vectors of dimension " ++ toString left ++ " and " ++ toString right ++ " cannot be combined"
  | invalidSwizzling components => "invalid swizzle " ++ quoted components
  | notImplemented name => quoted name ++ " is not implemented"
  | cyclicDefinition name => quoted name ++ " depends on itself"
  | recursionLimit depth => "call depth exceeded " ++ toString depth
  | fault f => f.text

/-- The code of the cause, if it has one, and its text. -/
def message (c : Cause) : String :=
  match c.code? with
  | some code => "[" ++ code ++ "] " ++ c.text
  | none => c.text

end Cause

def message (e : EvalError) : String := e.cause.message

end EvalError

end VectorScript
