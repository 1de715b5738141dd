import VectorScript.Meaning.Elementwise

/-!
# Segments

Reading some elements of a concatenation without building it.  Every index is routed to the segment
that holds it, and a segment is asked once for all its elements that are wanted.
-/

namespace VectorScript

/-- A plan for reading a concatenation: for every segment the wanted elements, counted within the
segment, and for every index the segment and the rank of its element among those wanted there. -/
structure Routing where
  requests : Array (Array Int)
  slots : Array (Option (Nat × Nat))
deriving Inhabited

namespace Routing

/-- Where the segments start, beginning at `start`. -/
def starts (start : Nat) : List Nat → List Nat
  | [] => []
  | length :: rest => start :: starts (start + length) rest

/-- The length of the concatenation. -/
def total (lengths : List Nat) : Nat :=
  lengths.foldl (· + ·) 0

/-- The last segment that starts at or before a position. -/
def owner (starts : List Nat) (position : Nat) : Nat :=
  starts.countP (· ≤ position) - 1

/-- Routes one more index. -/
def add (starts : List Nat) (total : Nat) (r : Routing) (i : Int) : Routing :=
  if inRange total i then
    let k := owner starts i.toNat
    let rank := (r.requests.getD k #[]).size
    { requests := r.requests.modify k (·.push (i - starts.getD k 0))
      slots := r.slots.push (some (k, rank)) }
  else { r with slots := r.slots.push none }

/-- Routes some indices to segments that start at the given places. -/
def ofIndices (starts : List Nat) (total : Nat) (indices : List Int) : Routing :=
  indices.foldl (add starts total) ⟨Array.replicate starts.length #[], #[]⟩

/-- Puts the answers of the segments in the order of the indices. -/
def assemble (r : Routing) (dimension : Nat) (parts : Array (Option Series)) : Series :=
  let channel (c : Nat) : Array Float32 :=
    r.slots.map fun slot =>
      (do
        let (k, rank) ← slot
        (← parts.getD k none).get? rank c).getD Scalar.nan
  ⟨r.slots.size, (List.range dimension).map channel⟩

end Routing

namespace Meaning

variable {m : Type → Type} [Answering m]

/-- The elements at some indices by the answers of the segments they are routed to. -/
@[specialize] def readSegments (starts : List Nat) (total dimension : Nat) (indices : List Int)
    (segment : Nat → List Int → m Series) : m Series := do
  let routing := Routing.ofIndices starts total indices
  let parts ← (List.range starts.length).mapM fun k =>
    let requested := routing.requests.getD k #[]
    if requested.isEmpty then pure none else some <$> segment k requested.toList
  return routing.assemble dimension parts.toArray

/-- The elements of a concatenation at some indices, where `segment` answers for each segment.  The
places where segments start are counted, and so is the whole length. -/
@[specialize] def gatherSegments (site : Site) (lengths : List Nat) (dimension : Nat)
    (indices : List Int) (segment : Nat → List Int → m Series) : m Series := do
  let starts ← (Routing.starts 0 lengths).mapM (Answering.count site)
  let total ← Answering.count site (Routing.total lengths)
  readSegments starts total dimension indices segment

end Meaning

end VectorScript
