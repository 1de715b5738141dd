import VectorScript.Scalar.Basic

/-!
# Functions of one and two scalars

What the language offers beyond the functions that single-precision floats already have.
-/

namespace VectorScript.Scalar

def sec (x : Float32) : Float32 := 1 / x.cos

def csc (x : Float32) : Float32 := 1 / x.sin

def cot (x : Float32) : Float32 := 1 / x.tan

/-- The distance to the next whole number below. -/
def fract (x : Float32) : Float32 := x - x.floor

/-- `-1` or `1` by the sign; zeros and what is not a number stay. -/
def sign (x : Float32) : Float32 :=
  if x > 0 then 1 else if x < 0 then -1 else x

def logBase (x base : Float32) : Float32 := x.log / base.log

/-! ### Inverse hyperbolic functions

The inverses of `cosh` and `tanh` are logarithms, and every step of them is rounded to single
precision.  Close to the ends of a domain the rounding shows: the inverse of `tanh` is not odd
near `-1`. -/

/-- `ln (1 + x)` in double precision, also where `1 + x` rounds off most of `x`: the logarithm is
scaled by the part of `x` that was kept. -/
def logOnePlus64 (x : Float) : Float :=
  let u := 1 + x
  if u == 1 || (0 < u && u.isInf) then x else u.log * (x / (u - 1))

/-- `ln (1 + x)`. -/
def logOnePlus (x : Float32) : Float32 := (logOnePlus64 x.toFloat).toFloat32

/-- The inverse of `cosh`, from one on.  Where the argument of the logarithm overflows, it is twice
`x`, and the logarithm of two is added behind. -/
def acosh (x : Float32) : Float32 :=
  if x < 1 then nan
  else
    let y := x + (x - 1).sqrt * (x + 1).sqrt
    if y.isInf then x.log + (2 : Float32).log else y.log

/-- The inverse of `tanh`. -/
def atanh (x : Float32) : Float32 :=
  0.5 * logOnePlus (2 * x / (1 - x))

/-! ### The gamma function -/

def pi64 : Float := 3.14159265358979323846

/-- The Lanczos coefficients for nine terms with parameter 7, after the leading one. -/
def lanczosCoefficients : List Float :=
  [676.5203681218851, -1259.1392167224028, 771.3234287776531, -176.6150291621406,
    12.507343278686905, -0.13857109526572012, 9.984369578019572e-6, 1.5056327351493116e-7]

/-- The sum of `c / (x + i)` for the coefficients from place `i` on, added to `acc`. -/
def lanczosSum (x : Float) : List Float → Float → Float → Float
  | [], _, acc => acc
  | c :: cs, i, acc => lanczosSum x cs (i + 1) (acc + c / (x + i))

/-- Gamma from one half on, by the Lanczos approximation in double precision. -/
def lanczos (x : Float) : Float :=
  let x := x - 1
  let t := x + 7 + 0.5
  let series := lanczosSum x lanczosCoefficients 1 0.9999999999998099
  (2 * pi64).sqrt * t.pow (x + 0.5) * (-t).exp * series

/-- Gamma everywhere: below one half by reflection. -/
def gamma64 (x : Float) : Float :=
  if x < 0.5 then pi64 / ((pi64 * x).sin * lanczos (1 - x)) else lanczos x

def gamma (x : Float32) : Float32 := (gamma64 x.toFloat).toFloat32

def factorial (x : Float32) : Float32 := gamma (x + 1)

end VectorScript.Scalar
