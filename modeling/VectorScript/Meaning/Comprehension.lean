import VectorScript.Meaning.Segments
import VectorScript.Series.Builder

/-!
# Comprehensions

`body for x = source` gives the body once for every element of the source.  A body that is a range
or another comprehension gives a run of elements each time, any other body gives one element.
-/

namespace VectorScript

/-- What a comprehension checks about the elements it puts together. -/
structure Comprehension.Rules where
  site : Site
  bodySite : Site
  /-- The longest result. -/
  limit : Nat
  makesRuns : Bool
deriving DecidableEq, Repr, Inhabited

/-- The parts of a comprehension. -/
structure Comprehension (m : Type → Type) extends Comprehension.Rules where
  source : Meaning m
  /-- The body for one element of the source. -/
  body : Series → Meaning m
  /-- Whether the shape of the body may depend on the value of the element. -/
  varies : Bool

namespace Comprehension

variable {m : Type → Type} [Answering m]

/-- One element of the source. -/
def elementOf (source : Series) (i : Nat) : Series :=
  source.gather [(i : Int)]

/-- Appends what the body gave. -/
def Rules.append (c : Rules) (b : Builder) (v : Series) : Except EvalError Builder :=
  if v.length ≠ 1 ∧ !c.makesRuns then .error ⟨.arrayInsideArray, c.bodySite⟩
  else if v.length = 0 then .ok b
  else
    match b.push v with
    | .error _ => .error ⟨.nonUniformArray, c.site⟩
    | .ok b => if c.limit < b.length then .error ⟨.arrayTooLarge, c.site⟩ else .ok b

/-- Appends what the body gives for each element of `source`. -/
@[specialize] def collect (c : Comprehension m) (source : Series) (b : Builder) : m Builder :=
  (List.range source.length).foldlM (fun b i => do
    let v ← (c.body (elementOf source i)).values .all
    Answering.ofExcept (c.append b v)) b

/-! ### With a condition -/

/-- A condition holds when its first number is there and is not zero. -/
def holds (v : Series) : Bool :=
  (v.get? 0 0).any fun x => x != 0 && !x.isNaN

/-- Appends what the body gives for each element that fulfils the condition. -/
@[specialize] def collectWhen (c : Comprehension m) (condition : Series → Meaning m)
    (source : Series) : m Builder :=
  (List.range source.length).foldlM (fun b i => do
    let element := elementOf source i
    if holds (← (condition element).values .all) then
      let v ← (c.body element).values .all
      Answering.ofExcept (c.append b v)
    else return b) .empty

/-- Every request needs all elements, since each may be left out. -/
@[specialize] def filtered (c : Comprehension m) (condition : Series → Meaning m) : Meaning m :=
  .after do
    let source ← c.source.values .all
    let b ← c.collectWhen condition source
    return .const (← Answering.liftAt c.site b.build)

/-! ### One element each time -/

/-- Checks the shape of a body that has to give one element, and of the dimension before it. -/
def Rules.checkSingle (c : Rules) (dimension : Option Nat) (s : Shape) :
    Except EvalError (Option Nat) :=
  if s.length ≠ 1 then .error ⟨.arrayInsideArray, c.bodySite⟩
  else if dimension.any (· ≠ s.dimension) then .error ⟨.nonUniformArray, c.site⟩
  else .ok (some s.dimension)

/-- The shape without the values of the body.  The first element stands for all of them, unless
the shape of the body may depend on the element. -/
@[specialize] def singleShape (c : Comprehension m) : m Shape := do
  let s ← c.source.shape
  if s.length = 0 then return ⟨0, 1⟩
  if c.varies then
    let source ← c.source.values .all
    let dimension ← (List.range source.length).foldlM (fun dimension i => do
      let t ← (c.body (elementOf source i)).shape
      Answering.ofExcept (c.checkSingle dimension t)) none
    return ⟨s.length, dimension.getD 1⟩
  else
    let first ← c.source.values (.at [0])
    let t ← (c.body first).shape
    let dimension ← Answering.ofExcept (c.checkSingle none t)
    return ⟨s.length, dimension.getD 1⟩

@[specialize] def single (c : Comprehension m) : Meaning m where
  shape := c.singleShape
  values
    | .all => do
      let source ← c.source.values .all
      return (← c.collect source .empty).finish
    | .at indices => do
      let s ← c.singleShape
      let source ← c.source.values (.at (indices.filter (inRange s.length)))
      let b ← c.collect source (.ofDimension s.dimension)
      return b.finish.scatter indices s.length

/-! ### A run of elements each time -/

/-- The lengths of the runs, their dimension if there is an element, and the whole length. -/
structure Runs where
  lengths : Array Nat
  dimension : Option Nat
  total : Nat
deriving DecidableEq, Repr, Inhabited

/-- Adds the shape of one more run. -/
def Rules.addRun (c : Rules) (r : Runs) (s : Shape) : Except EvalError Runs :=
  let lengths := r.lengths.push s.length
  let total := min (r.total + s.length) maxLength
  if s.length = 0 then .ok ⟨lengths, r.dimension, total⟩
  else if r.dimension.any (· ≠ s.dimension) then .error ⟨.nonUniformArray, c.site⟩
  else .ok ⟨lengths, some s.dimension, total⟩

/-- The shapes of the runs for all elements of `source`. -/
@[specialize] def runs (c : Comprehension m) (source : Series) : m Runs := do
  let r ← (List.range source.length).foldlM (fun r i => do
    let s ← (c.body (elementOf source i)).shape
    Answering.ofExcept (c.addRun r s)) ⟨#[], none, 0⟩
  if c.limit < r.total then Answering.fail c.site .arrayTooLarge
  return r

/-- The answers of a comprehension whose source and runs are known. -/
@[specialize] def ofRuns (c : Comprehension m) (source : Series) (r : Runs) : Meaning m where
  shape := pure ⟨r.total, r.dimension.getD 1⟩
  values
    | .all => do
      let b ← c.collect source (.ofDimension (r.dimension.getD 1))
      Answering.liftAt c.site b.build
    | .at indices =>
      Meaning.gatherSegments c.site r.lengths.toList (r.dimension.getD 1) indices fun k wanted =>
        (c.body (elementOf source k)).values (.at wanted)

@[specialize] def nested (c : Comprehension m) : Meaning m :=
  .after do
    let source ← c.source.values .all
    return c.ofRuns source (← c.runs source)

/-- A comprehension without a condition. -/
@[specialize] def meaning (c : Comprehension m) : Meaning m :=
  if c.makesRuns then c.nested else c.single

end Comprehension

end VectorScript
