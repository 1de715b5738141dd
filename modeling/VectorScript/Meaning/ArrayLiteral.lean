import VectorScript.Meaning.Segments
import VectorScript.Series.Builder

/-!
# Array literals

`[a, b, c]` puts the elements of its items one after the other.  An item gives one element, unless
it is a range or a comprehension.
-/

namespace VectorScript

namespace Meaning

variable {m : Type → Type} [Answering m]

/-- What an array literal knows about an item before it asks. -/
structure Item.Rules where
  site : Site
  makesRun : Bool
deriving DecidableEq, Repr, Inhabited

/-- An item of an array literal. -/
structure Item (m : Type → Type) extends Item.Rules where
  meaning : Meaning m

instance : Inhabited (Item m) := ⟨⟨default, default⟩⟩

/-- Checks one item against the dimension of the literal and adds its length. -/
def addItem (dimension : Nat) (sum : Nat) (item : Item.Rules × Shape) : Except EvalError Nat :=
  let (item, s) := item
  if 0 < s.length ∧ s.dimension ≠ dimension then .error ⟨.nonUniformArray, item.site⟩
  else if 1 < s.length ∧ !item.makesRun then .error ⟨.arrayInsideArray, item.site⟩
  else .ok (min (sum + s.length) maxLength)

/-- The shape of an array literal by the shapes of its items.  Empty items have no say in the
dimension. -/
def arrayShape (site : Site) (limit : Nat) (items : List Item.Rules) (shapes : List Shape) :
    Except EvalError Shape := do
  let dimension := ((shapes.find? (0 < ·.length)).map Shape.dimension).getD 1
  let length ← (items.zip shapes).foldlM (addItem dimension) 0
  if limit < length then throw ⟨.arrayTooLarge, site⟩
  return ⟨length, dimension⟩

/-- Puts values of one dimension together, apart from empty ones. -/
def concatenate (site : Site) (dimension : Nat) (values : List Series) : Except EvalError Series :=
  match (values.filter (0 < ·.length)).foldlM Builder.push (.ofDimension dimension) with
  | .ok b => b.build.mapError fun cause => ⟨cause, site⟩
  | .error _ => .error ⟨.nonUniformArray, site⟩

@[specialize] def arrayLiteral (site : Site) (limit : Nat) (items : List (Item m)) : Meaning m where
  shape := do
    let shapes ← items.mapM (·.meaning.shape)
    Answering.ofExcept (arrayShape site limit (items.map Item.toRules) shapes)
  values
    | .all => do
      let values ← items.mapM (·.meaning.values .all)
      let s ← Answering.ofExcept
        (arrayShape site limit (items.map Item.toRules) (values.map Series.shape))
      Answering.ofExcept (concatenate site s.dimension values)
    | .at indices => do
      let shapes ← items.mapM (·.meaning.shape)
      let s ← Answering.ofExcept (arrayShape site limit (items.map Item.toRules) shapes)
      match items with
      | [item] => item.meaning.values (.at indices)
      | _ =>
        gatherSegments site (shapes.map Shape.length) s.dimension indices fun k wanted =>
          (items.getD k default).meaning.values (.at wanted)

end Meaning

end VectorScript
