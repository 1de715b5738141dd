import VectorScript.Scalar.Decimal
import VectorScript.Shape

/-!
# Series

The values of the language: elements of one to four components each, stored channel by channel.
A single number is a series of one element with one component.
-/

namespace VectorScript

/-- `length` elements; channel `c` holds component `c` of every element. -/
structure Series where
  length : Nat
  channels : List (Array Float32)
deriving Inhabited

/-- The elements that a request asks for: all, or those at some positions, in that order.  A
position outside the series asks for an element of `NaN`s. -/
inductive Selection where
  | all
  | at (indices : List Int)
deriving DecidableEq, Repr, Inhabited

namespace Series

def dimension (v : Series) : Nat := v.channels.length

def shape (v : Series) : Shape := ⟨v.length, v.dimension⟩

/-! ### Construction -/

def scalar (x : Float32) : Series := ⟨1, [#[x]]⟩

/-- One element with the given components. -/
def vector (components : List Float32) : Series := ⟨1, components.map fun x => #[x]⟩

/-- One component for each element. -/
def ofValues (values : Array Float32) : Series := ⟨values.size, [values]⟩

/-- The same value everywhere. -/
def splat (x : Float32) (s : Shape) : Series :=
  ⟨s.length, List.replicate s.dimension (Array.replicate s.length x)⟩

def nan (s : Shape) : Series := splat Scalar.nan s

/-- The series with the given channels, if these are one to four of equal length. -/
def ofChannels? : List (Array Float32) → Option Series
  | [] => none
  | c :: cs =>
    if cs.length < 4 ∧ cs.all (·.size = c.size) then some ⟨c.size, c :: cs⟩ else none

/-! ### Access -/

def channel (v : Series) (c : Nat) : Array Float32 := v.channels.getD c #[]

def get? (v : Series) (element channel : Nat) : Option Float32 :=
  v.channels[channel]?.bind (·[element]?)

/-- All components of one element. -/
def element? (v : Series) (i : Nat) : Option (List Float32) :=
  if i < v.length then some (v.channels.map (·.getD i Scalar.nan)) else none

/-- The place of the value that stands for an element and a channel of a larger shape. -/
def broadcastPlace (v : Series) (element channel : Nat) : Nat × Nat :=
  (if v.length = 1 then 0 else element, if v.dimension = 1 then 0 else channel)

/-- The value at an element and a channel of a larger shape. -/
def broadcastAt (v : Series) (element channel : Nat) : Float32 :=
  let (i, c) := v.broadcastPlace element channel
  (v.get? i c).getD Scalar.nan

/-- The first component of the first element. -/
def first (v : Series) : Float32 := (v.get? 0 0).getD Scalar.nan

def isScalar (v : Series) : Bool := v.shape = .scalar

/-- The value of a channel at an index; outside the channel it is not a number. -/
def readAt (values : Array Float32) : Int → Float32
  | .ofNat i => values.getD i Scalar.nan
  | .negSucc _ => Scalar.nan

/-- The elements at some indices. -/
def gather (v : Series) (indices : List Int) : Series :=
  ⟨indices.length, v.channels.map fun c => (indices.map (readAt c)).toArray⟩

def select (v : Series) : Selection → Series
  | .all => v
  | .at indices => v.gather indices

/-- Replaces one component of one element. -/
def set (v : Series) (channel element : Nat) (x : Float32) : Series :=
  { v with channels := v.channels.modify channel (·.setIfInBounds element x) }

/-- Equality of all values as numbers: zeros are equal, and what is not a number differs from
itself. -/
def equals (v w : Series) : Bool :=
  v.length == w.length && v.channels == w.channels

/-! ### Element-wise operations -/

/-- Applies a function to the values of the broadcast operands, place by place. -/
def zipMap (operands : List Series) (f : List Float32 → Float32) :
    Except DimensionMismatch Series := do
  let s ← Shape.broadcast (operands.map shape)
  let channel (c : Nat) : Array Float32 :=
    Array.ofFn fun i : Fin s.length => f (operands.map (·.broadcastAt i c))
  return ⟨s.length, (List.range s.dimension).map channel⟩

/-- Applies a function to every value. -/
def map (v : Series) (f : Float32 → Float32) : Series :=
  ⟨v.length, v.channels.map (·.map f)⟩

/-! ### Text -/

/-- A number alone, or the components in parentheses. -/
def elementText (v : Series) (i : Nat) : String :=
  match v.channels.map fun c => Scalar.text (c.getD i Scalar.nan) with
  | [x] => x
  | xs => "(" ++ ", ".intercalate xs ++ ")"

/-- A single element alone, or all elements in square brackets. -/
def text (v : Series) : String :=
  if v.length = 1 then v.elementText 0
  else "[" ++ ", ".intercalate ((List.range v.length).map v.elementText) ++ "]"

end Series

end VectorScript
