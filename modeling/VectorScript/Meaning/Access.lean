import VectorScript.Meaning

/-!
# Elements and components

`target[index]` reads elements, `target.xyz` reads components.
-/

namespace VectorScript

namespace Meaning

variable {m : Type → Type} [Answering m]

/-- Elements of the target at the positions that the index gives. -/
@[specialize] def index (indexSite : Site) (target index : Meaning m) : Meaning m where
  shape := do
    let positions ← index.shape
    if positions.dimension ≠ 1 then Answering.fail indexSite .indexingWithVector
    let s ← target.shape
    return ⟨positions.length, s.dimension⟩
  values selection := do
    let positions ← index.values selection
    if positions.dimension ≠ 1 then Answering.fail indexSite .indexingWithVector
    target.values (.at ((positions.channel 0).toList.map Scalar.toIndex))

/-- The channel that a letter names. -/
def channelOf : Char → Nat
  | 'x' => 0
  | 'y' => 1
  | 'z' => 2
  | _ => 3

/-- The channels that some letters name, all of them below `dimension`. -/
def channelsOf (components : String) (dimension : Nat) : Except EvalError.Cause (List Nat) :=
  let picks := components.toList.map channelOf
  if picks.all (· < dimension) then .ok picks else .error (.invalidSwizzling components)

/-- Components of every element of the target. -/
@[specialize] def swizzle (site : Site) (components : String) (target : Meaning m) : Meaning m where
  shape := do
    let s ← target.shape
    let picks ← Answering.liftAt site (channelsOf components s.dimension)
    return ⟨s.length, picks.length⟩
  values selection := do
    let v ← target.values selection
    let picks ← Answering.liftAt site (channelsOf components v.dimension)
    return ⟨v.length, picks.map v.channel⟩

end Meaning

end VectorScript
