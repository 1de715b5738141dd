import VectorScript.Expr
import VectorScript.Meaning
import VectorScript.Scalar.Functions

/-!
# Element-wise meanings

Nodes whose element `i` depends on element `i` of each operand only, after broadcasting.  A request
for some elements goes to the operands as a request for the same elements.
-/

namespace VectorScript

/-- Whether an index names an element. -/
def inRange (length : Nat) (i : Int) : Bool :=
  0 ≤ i && i < length

namespace Series

/-- For each index its rank among the indices in range, counted from `k`. -/
def ranks (length : Nat) : Nat → List Int → List (Option Nat)
  | _, [] => []
  | k, i :: rest =>
    if inRange length i then some k :: ranks length (k + 1) rest
    else none :: ranks length k rest

/-- Spreads elements, computed for the indices in range only, over all indices. -/
def scatter (v : Series) (indices : List Int) (length : Nat) : Series :=
  if v.length = indices.length ∧ indices.all (inRange length) then v
  else
    let slots := ranks length 0 indices
    let channel (c : Nat) : Array Float32 :=
      (slots.map fun
        | some k => v.broadcastAt k c
        | none => Scalar.nan).toArray
    ⟨indices.length, (List.range v.dimension).map channel⟩

end Series

namespace Meaning

variable {m : Type → Type} [Answering m]

/-- Combines operands element by element; `check` gives the shape by the shapes of the operands. -/
@[specialize] def elementwise (site : Site) (check : List Shape → Except EvalError.Cause Shape)
    (combine : List Series → Except EvalError.Cause Series) (operands : List (Meaning m)) :
    Meaning m where
  shape := do
    let shapes ← operands.mapM (·.shape)
    Answering.liftAt site (check shapes)
  values
    | .all => do
      let values ← operands.mapM (·.values .all)
      Answering.liftAt site (combine values)
    | .at indices => do
      let shapes ← operands.mapM (·.shape)
      let s ← Answering.liftAt site (check shapes)
      let valid := indices.filter (inRange s.length)
      let values ← (operands.zip shapes).mapM fun (operand, t) =>
        operand.values (.at (if t.length = 1 then [0] else valid))
      let v ← Answering.liftAt site (combine values)
      return v.scatter indices s.length

/-- The error of operands that cannot be broadcast. -/
def differing {α : Type} (r : Except DimensionMismatch α) : Except EvalError.Cause α :=
  r.mapError fun m => .differingDimensions m.expected m.found

/-- A function of every value of one operand. -/
@[specialize] def mapped (site : Site) (f : Float32 → Float32) (operands : List (Meaning m)) :
    Meaning m :=
  elementwise site (fun shapes => .ok (shapes.headD .scalar))
    (fun values => .ok ((values.headD default).map f)) operands

@[specialize] def unary (site : Site) (op : UnaryOp) (operand : Meaning m) : Meaning m :=
  match op with
  | .plus => operand
  | .negate => mapped site (fun x => -x) [operand]
  | .not => mapped site (fun x => Scalar.ofBool (x == 0)) [operand]
  | .factorial => mapped site Scalar.factorial [operand]

@[specialize] def binary (site : Site) (op : BinaryOp) (left right : Meaning m) : Meaning m :=
  elementwise site (fun shapes => differing (Shape.broadcast shapes))
    (fun values => differing (Series.zipMap values fun
      | [a, b] => op.apply a b
      | _ => Scalar.nan)) [left, right]

/-! ### Vectors -/

/-- The shape of a vector by the shapes of its components. -/
def vectorShape (shapes : List Shape) : Except EvalError.Cause Shape := do
  if shapes.any (·.dimension ≠ 1) then throw .vectorInsideVector
  let s ← differing (Shape.broadcast shapes)
  return ⟨s.length, shapes.length⟩

/-- One channel for each component. -/
def vectorOf (values : List Series) : Except EvalError.Cause Series := do
  let s ← vectorShape (values.map Series.shape)
  let channel (v : Series) : Array Float32 := Array.ofFn fun i : Fin s.length => v.broadcastAt i 0
  return ⟨s.length, values.map channel⟩

@[specialize] def vector (site : Site) (items : List (Meaning m)) : Meaning m :=
  elementwise site vectorShape vectorOf items

/-! ### Conditionals -/

/-- The value that a condition picks; it picks nothing when it is not a number. -/
def choose : List Float32 → Float32
  | [consequent, condition, alternative] =>
    if condition.isNaN then Scalar.nan else if condition != 0 then consequent else alternative
  | _ => Scalar.nan

/-- A single condition picks a branch, and only that branch is asked; a condition with many
elements picks element by element. -/
@[specialize] def conditional (site : Site) (consequent condition alternative : Meaning m) :
    Meaning m :=
  after do
    if (← condition.shape) = .scalar then
      let c := (← condition.values .all).first
      if c.isNaN then return nan (← consequent.shape)
      else if c != 0 then return consequent
      else return alternative
    else
      return elementwise site (fun shapes => differing (Shape.broadcast shapes))
        (fun values => differing (Series.zipMap values choose))
        [consequent, condition, alternative]

end Meaning

end VectorScript
