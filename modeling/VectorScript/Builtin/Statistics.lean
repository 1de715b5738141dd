import VectorScript.Builtin

/-!
# Statistics

Numbers that describe the elements of a series, channel by channel.
-/

namespace VectorScript.Builtin

namespace Statistics

/-- The sum from left to right; it starts from `-0`, which adds nothing to any number. -/
def sum (values : Array Float32) : Float32 := values.foldl (· + ·) (-0)

def product (values : Array Float32) : Float32 := values.foldl (· * ·) 1

/-- Combines the values from left to right; there is no number for none. -/
def combine (f : Float32 → Float32 → Float32) : List Float32 → Float32
  | [] => Scalar.nan
  | x :: xs => xs.foldl f x

def largest (values : Array Float32) : Float32 := combine Scalar.larger values.toList

def smallest (values : Array Float32) : Float32 := combine Scalar.smaller values.toList

def mean (values : Array Float32) : Float32 :=
  if values.isEmpty then Scalar.nan else sum values / Float32.ofNat values.size

/-- The values in ascending order. -/
def sortedBy {κ : Type} (le : κ → κ → Bool) (values : Array κ) : Array κ :=
  (values.toList.mergeSort le).toArray

/-- The values in ascending total order. -/
def sorted (values : Array Float32) : Array Float32 := sortedBy Scalar.precedes values

/-- The value in the middle, or the mean of the two in the middle. -/
def median (values : Array Float32) : Float32 :=
  let ordered := sorted values
  let n := ordered.size
  if n = 0 then Scalar.nan
  else if n % 2 = 1 then ordered.getD (n / 2) Scalar.nan
  else (ordered.getD (n / 2 - 1) Scalar.nan + ordered.getD (n / 2) Scalar.nan) / 2

/-- The sample covariance of two channels of equal length; zero for one element. -/
def covariance (xs ys : Array Float32) : Float32 :=
  let n := xs.size
  if n = 0 then Scalar.nan
  else if n = 1 then 0
  else
    let mx := mean xs
    let my := mean ys
    sum (Array.zipWith (fun x y => (x - mx) * (y - my)) xs ys) / Float32.ofNat (n - 1)

/-- The sample variance; zero for one element. -/
def variance (values : Array Float32) : Float32 := covariance values values

def deviation (values : Array Float32) : Float32 := (variance values).sqrt

/-- The sample correlation of two channels. -/
def correlation (xs ys : Array Float32) : Float32 :=
  covariance xs ys / ((variance xs).sqrt * (variance ys).sqrt)

/-! ### Quantiles -/

/-- Where the quantile `q` of `n` ordered values lies. -/
def quantilePosition (n : Nat) (q : Float32) : Float32 := q * Float32.ofNat (n - 1)

/-- The value at a position. -/
def valueAt (values : Array Float32) (i : Nat) : Except EvalError.Cause Float32 :=
  if h : i < values.size then .ok values[i]
  else .error (.fault (.outOfBounds i values.size))

/-- The quantile `q` of ordered values, between its two neighbours. -/
def interpolate (ordered : Array Float32) (q : Float32) : Except EvalError.Cause Float32 :=
  if ordered.isEmpty || !(0 ≤ q && q ≤ 1) then .ok Scalar.nan
  else do
    let position := quantilePosition ordered.size q
    let below := (Scalar.parts position).below
    let low ← valueAt ordered below
    let high ← valueAt ordered (Scalar.parts position).above
    return low + (high - low) * (position - Float32.ofNat below)

/-- The quantiles of some values. -/
def quantiles (qs values : Array Float32) : Except EvalError.Cause (Array Float32) := do
  let ordered := sorted values
  return (← qs.toList.mapM (interpolate ordered)).toArray

/-- One quantile for each element of the second argument, in every channel of the first. -/
def quantile : List Series → Except EvalError.Cause Series
  | [values, q] =>
    if q.dimension ≠ 1 then .error (.invalidArgument "quantile" "expected a scalar array")
    else do
      match Series.ofChannels? (← values.channels.mapM (quantiles (q.channel 0))) with
      | some v => return v
      | none => throw (.invalidArgument "quantile" "malformed input")
  | _ => .error (.invalidArgument "quantile" "malformed input")

def quantileShape : List Shape → Except EvalError.Cause Shape
  | [values, q] =>
    if q.dimension ≠ 1 then .error (.invalidArgument "quantile" "expected a scalar array")
    else .ok ⟨q.length, values.dimension⟩
  | _ => .error (.invalidArgument "quantile" "malformed input")

/-! ### Paired statistics -/

/-- A number for each pair of channels of two broadcast series, as one element. -/
def paired (name : String) (f : Array Float32 → Array Float32 → Float32) :
    List Series → Except EvalError.Cause Series
  | [a, b] => do
    let s ← broadcastArgs name [a.shape, b.shape]
    let samples (v : Series) (c : Nat) : Array Float32 :=
      Array.ofFn fun i : Fin s.length => v.broadcastAt i c
    return .vector ((List.range s.dimension).map fun c => f (samples a c) (samples b c))
  | _ => .error (.invalidArgument name "malformed input")

def pairedShape (name : String) (shapes : List Shape) : Except EvalError.Cause Shape := do
  let s ← broadcastArgs name shapes
  return ⟨1, s.dimension⟩

def count : List Series → Except EvalError.Cause Series
  | [v] => .ok (.scalar (Float32.ofNat v.length))
  | _ => .error (.invalidArgument "count" "malformed input")

end Statistics

open VectorScript.Builtin.Statistics in
def statistics : List Builtin :=
  [ reduce "mean" mean,
    reduce "median" median,
    reduce "sum" sum,
    reduce "prod" product,
    reduce "var" variance,
    reduce "stdev" deviation,
    reduce "max" largest,
    reduce "min" smallest,
    whole "count" (.exactly 1) count fun _ => .ok .scalar,
    whole "quantile" (.exactly 2) quantile quantileShape,
    whole "corr" (.exactly 2) (paired "corr" correlation) (pairedShape "corr"),
    whole "cov" (.exactly 2) (paired "cov" covariance) (pairedShape "cov") ]

end VectorScript.Builtin
