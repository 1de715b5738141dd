import VectorScript.Builtin
import VectorScript.Scalar.Functions

/-!
# Element-wise builtins

Trigonometry, rounding, powers and logarithms.
-/

namespace VectorScript.Builtin

def elementwise : List Builtin :=
  [ map "sin" Float32.sin,
    map "cos" Float32.cos,
    map "tan" Float32.tan,
    map "sec" Scalar.sec,
    map "csc" Scalar.csc,
    map "cot" Scalar.cot,
    map "asin" Float32.asin,
    map "acos" Float32.acos,
    map "atan" Float32.atan,
    zip "atan2" Float32.atan2,
    map "sinh" Float32.sinh,
    map "cosh" Float32.cosh,
    map "tanh" Float32.tanh,
    map "asinh" Float32.asinh,
    map "acosh" Scalar.acosh,
    map "atanh" Scalar.atanh,
    map "floor" Float32.floor,
    map "ceil" Float32.ceil,
    map "round" Float32.round,
    map "trunc" Scalar.truncate,
    map "fract" Scalar.fract,
    map "abs" Float32.abs,
    map "sign" Scalar.sign,
    map "sqrt" Float32.sqrt,
    map "cbrt" Float32.cbrt,
    map "exp" Float32.exp,
    map "ln" Float32.log,
    map "log" Float32.log10,
    zip "log" Scalar.logBase,
    map "log2" Float32.log2,
    map "log10" Float32.log10,
    zip "pow" Float32.pow,
    map "gamma" Scalar.gamma,
    map "factorial" Scalar.factorial,
    ⟨"random", .between 0 2, .reserved⟩ ]

end VectorScript.Builtin
