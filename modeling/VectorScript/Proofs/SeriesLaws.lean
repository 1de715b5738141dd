import Mathlib.Data.List.GetD
import Mathlib.Tactic.Common
import VectorScript.Meaning.Elementwise

/-!
# Laws of series

A series is known by its shape and by what is read at every index and channel.  Gathering elements,
spreading them over more indices and broadcasting are all described by what they read.

* `Series.read`: the value at an index, which is not a number outside the series.
* `Series.Regular`, `Series.WellFormed`: channels as long as the series; at least one element.
* `Series.Sized`: channels as long as the series, which may be empty where that is allowed.
* `Series.Formed`: one to four channels as long as the series, which may be empty.
* `Series.ext_read`: regular series of one shape that read the same are equal.
* `Series.scatter_eq_gather`: spreading what was computed for the indices in range.
-/

namespace VectorScript

theorem inRange_iff {n : Nat} {i : Int} : inRange n i ↔ 0 ≤ i ∧ i < n := by
  simp [inRange]

/-- Elements that have components, and no more of them than 64 bits can count. -/
structure Shape.Filled (s : Shape) : Prop where
  length_pos : 0 < s.length
  length_le : s.length ≤ maxLength
  dimension_pos : 0 < s.dimension

/-- Components, and no more elements than 64 bits can count; there may be none if `hollow` holds. -/
structure Shape.Sized (hollow : Prop) (s : Shape) : Prop where
  nonempty : 0 < s.length ∨ hollow
  length_le : s.length ≤ maxLength
  dimension_pos : 0 < s.dimension

/-- One to four components. -/
structure Shape.Formed (s : Shape) : Prop where
  dimension_pos : 0 < s.dimension
  dimension_le : s.dimension ≤ 4

/-- A number for each element. -/
theorem Shape.formed_numbers (n : Nat) : Shape.Formed ⟨n, 1⟩ := ⟨Nat.one_pos, by simp⟩

namespace Series

/-- All channels have as many values as there are elements. -/
def Regular (v : Series) : Prop := ∀ c ∈ v.channels, c.size = v.length

structure WellFormed (v : Series) : Prop where
  regular : v.Regular
  filled : v.shape.Filled

/-- Channels with a value for every element; there may be no elements if `hollow` holds. -/
structure Sized (hollow : Prop) (v : Series) : Prop where
  regular : v.Regular
  sized : v.shape.Sized hollow

/-- One to four channels with a value for every element; there may be no elements. -/
structure Formed (v : Series) : Prop where
  regular : v.Regular
  shape : v.shape.Formed

theorem WellFormed.sized {v : Series} (h : v.WellFormed) (hollow : Prop) : v.Sized hollow :=
  ⟨h.regular, .inl h.filled.length_pos, h.filled.length_le, h.filled.dimension_pos⟩

/-- The value at an index and a channel; outside the series it is not a number. -/
def read (v : Series) (i : Int) (c : Nat) : Float32 := readAt (v.channel c) i

/-! ### Reading -/

theorem readAt_natCast (values : Array Float32) (i : Nat) :
    readAt values (i : Int) = values.getD i Scalar.nan := rfl

theorem readAt_of_not_inRange {values : Array Float32} {i : Int}
    (h : ¬ inRange values.size i) : readAt values i = Scalar.nan := by
  rw [inRange_iff] at h
  cases i with
  | negSucc _ => rfl
  | ofNat k =>
    have hk : values.size ≤ k := by
      have : ¬ ((k : Int) < values.size) := fun hlt => h ⟨Int.natCast_nonneg k, hlt⟩
      omega
    simp [readAt, Array.getD_eq_getD_getElem?, hk]

theorem Regular.size_channel {v : Series} (h : v.Regular) {c : Nat} (hc : c < v.dimension) :
    (v.channel c).size = v.length := by
  rw [channel, List.getD_eq_getElem _ _ hc]
  exact h _ (List.getElem_mem hc)

theorem channel_of_le {v : Series} {c : Nat} (h : v.dimension ≤ c) : v.channel c = #[] := by
  rw [channel, List.getD_eq_default _ _ h]

theorem read_of_not_inRange {v : Series} (h : v.Regular) {i : Int} (hi : ¬ inRange v.length i)
    (c : Nat) : v.read i c = Scalar.nan := by
  by_cases hc : c < v.dimension
  · exact readAt_of_not_inRange (by rwa [h.size_channel hc])
  · rw [read, channel_of_le (Nat.le_of_not_lt hc)]
    exact readAt_of_not_inRange (by simp [inRange_iff])

theorem getD_get? (v : Series) (i c : Nat) : (v.get? i c).getD Scalar.nan = v.read i c := by
  by_cases hc : c < v.dimension
  · have hget : v.channels[c]? = some (v.channel c) := by
      rw [List.getElem?_eq_getElem hc, channel, List.getD_eq_getElem _ _ hc]
    rw [get?, hget, read, readAt_natCast, Array.getD_eq_getD_getElem?]
    rfl
  · rw [get?, List.getElem?_eq_none (Nat.le_of_not_lt hc), read,
      channel_of_le (Nat.le_of_not_lt hc)]
    rfl

theorem broadcastAt_eq_read (v : Series) (i c : Nat) :
    v.broadcastAt i c =
      v.read ((if v.length = 1 then 0 else i : Nat) : Int) (if v.dimension = 1 then 0 else c) :=
  v.getD_get? _ _

theorem broadcastAt_of_lt {v : Series} {i c : Nat} (hi : i < v.length) (hc : c < v.dimension) :
    v.broadcastAt i c = v.read i c := by
  rw [broadcastAt_eq_read]
  congr 1 <;> split_ifs <;> omega

/-- The channels are what is read of them. -/
theorem channels_eq (v : Series) : v.channels = (List.range v.dimension).map v.channel := by
  refine List.ext_getElem (by simp [dimension]) fun c hc _ => ?_
  simp [channel, List.getElem?_eq_getElem hc]

theorem ext_read {v w : Series} (hv : v.Regular) (hw : w.Regular) (hshape : v.shape = w.shape)
    (h : ∀ i < v.length, ∀ c < v.dimension, v.read i c = w.read i c) : v = w := by
  have hlength : v.length = w.length := congrArg Shape.length hshape
  have hdimension : v.dimension = w.dimension := congrArg Shape.dimension hshape
  have hchannels : v.channels = w.channels := by
    rw [v.channels_eq, w.channels_eq, ← hdimension]
    refine List.map_congr_left fun c hc => ?_
    have hc : c < v.dimension := List.mem_range.mp hc
    have hsize := hv.size_channel hc
    have hsize' := hw.size_channel (hdimension ▸ hc)
    refine Array.ext (by omega) fun i hi hi' => ?_
    have hread := h i (by omega) c hc
    simpa [read, readAt_natCast, Array.getD_eq_getD_getElem?, hi, hi'] using hread
  cases v
  cases w
  simp only at hlength hchannels
  rw [hlength, hchannels]

/-! ### Series by their values -/

/-- The series of a shape whose values are given. -/
def ofFn (s : Shape) (f : Nat → Nat → Float32) : Series :=
  ⟨s.length, (List.range s.dimension).map fun c => Array.ofFn fun i : Fin s.length => f i c⟩

@[simp] theorem shape_ofFn (s : Shape) (f : Nat → Nat → Float32) : (ofFn s f).shape = s := by
  simp [ofFn, shape, dimension]

@[simp] theorem length_ofFn (s : Shape) (f : Nat → Nat → Float32) : (ofFn s f).length = s.length :=
  rfl

@[simp] theorem dimension_ofFn (s : Shape) (f : Nat → Nat → Float32) :
    (ofFn s f).dimension = s.dimension := by
  simp [ofFn, dimension]

theorem regular_ofFn (s : Shape) (f : Nat → Nat → Float32) : (ofFn s f).Regular := by
  intro c hc
  obtain ⟨k, -, rfl⟩ := List.mem_map.mp hc
  simp [ofFn]

theorem read_ofFn {s : Shape} (f : Nat → Nat → Float32) {i c : Nat} (hi : i < s.length)
    (hc : c < s.dimension) : (ofFn s f).read i c = f i c := by
  simp [read, channel, ofFn, readAt_natCast, hi, hc]

theorem sized_ofFn {hollow : Prop} {s : Shape} (h : s.Sized hollow) (f : Nat → Nat → Float32) :
    (ofFn s f).Sized hollow :=
  ⟨regular_ofFn s f, by simpa using h⟩

theorem nan_eq_ofFn (s : Shape) : nan s = ofFn s fun _ _ => Scalar.nan := by
  simp only [nan, splat, ofFn, mk.injEq, true_and]
  refine List.ext_getElem (by simp) fun c _ _ => ?_
  simp only [List.getElem_replicate, List.getElem_map]
  exact Array.ext (by simp) fun i _ _ => by simp

/-! ### Gathering -/

@[simp] theorem length_gather (v : Series) (S : List Int) : (v.gather S).length = S.length := rfl

@[simp] theorem dimension_gather (v : Series) (S : List Int) :
    (v.gather S).dimension = v.dimension := by
  simp [gather, dimension]

@[simp] theorem shape_gather (v : Series) (S : List Int) :
    (v.gather S).shape = ⟨S.length, v.dimension⟩ := by
  simp [shape]

theorem regular_gather (v : Series) (S : List Int) : (v.gather S).Regular := by
  intro c hc
  obtain ⟨k, -, rfl⟩ := List.mem_map.mp hc
  simp [gather]

theorem gather_eq (v : Series) (S : List Int) :
    v.gather S = ⟨S.length, (List.range v.dimension).map fun c =>
      (S.map fun i => v.read i c).toArray⟩ := by
  rw [gather, channels_eq, List.map_map]
  rfl

theorem channel_gather {v : Series} {S : List Int} {c : Nat} (hc : c < v.dimension) :
    (v.gather S).channel c = (S.map fun i => v.read i c).toArray := by
  rw [gather_eq, channel]
  simp [hc]

theorem read_gather (v : Series) (S : List Int) (k c : Nat) :
    (v.gather S).read k c = ((S[k]?).map fun i => v.read i c).getD Scalar.nan := by
  by_cases hc : c < v.dimension
  · rw [read, channel_gather hc, readAt_natCast, Array.getD_eq_getD_getElem?]
    simp
  · have hout : ∀ i, v.read i c = Scalar.nan := fun i => by
      rw [read, channel_of_le (Nat.le_of_not_lt hc)]
      exact readAt_of_not_inRange (by simp [inRange_iff])
    rw [read, channel_of_le (by simpa using hc)]
    cases h : S[k]? <;> simp [readAt_natCast, hout]

theorem read_gather_getElem (v : Series) {S : List Int} {k : Nat} (hk : k < S.length) (c : Nat) :
    (v.gather S).read k c = v.read S[k] c := by
  rw [read_gather, List.getElem?_eq_getElem hk]
  rfl

/-- The entry of a list of indices at an index; outside the list it names no element. -/
def pick (S : List Int) (i : Int) : Int :=
  if inRange S.length i then S.getD i.toNat (-1) else -1

theorem read_gather_int (v : Series) (hv : v.Regular) (S : List Int) (i : Int) (c : Nat) :
    (v.gather S).read i c = v.read (pick S i) c := by
  have hnone : v.read (-1) c = Scalar.nan :=
    read_of_not_inRange hv (by simp [inRange_iff]) c
  by_cases hi : inRange S.length i
  · obtain ⟨hnonneg, hlt⟩ := inRange_iff.mp hi
    obtain ⟨k, rfl⟩ := Int.eq_ofNat_of_zero_le hnonneg
    have hk : k < S.length := by omega
    rw [read_gather_getElem v hk, pick, if_pos hi]
    simp [hk]
  · rw [pick, if_neg hi, hnone]
    exact read_of_not_inRange (regular_gather v S) (by simpa using hi) c

theorem gather_gather {v : Series} (hv : v.Regular) (S T : List Int) :
    (v.gather S).gather T = v.gather (T.map (pick S)) := by
  rw [gather_eq (v.gather S), gather_eq v (T.map (pick S)), dimension_gather, List.length_map]
  simp only [List.map_map, Function.comp_def, read_gather_int v hv]

/-! ### Single elements -/

theorem gather_single_gather {v : Series} (hv : v.Regular) {S : List Int} {k : Nat}
    (hk : k < S.length) : (v.gather S).gather [(k : Int)] = v.gather [S[k]] := by
  rw [gather_gather hv, List.map_singleton, pick,
    if_pos (inRange_iff.mpr ⟨Int.natCast_nonneg k, by exact_mod_cast hk⟩)]
  simp [hk]

/-! ### Components -/

/-- The components that some channels name. -/
def components (v : Series) (picks : List Nat) : Series :=
  ⟨v.length, picks.map v.channel⟩

theorem shape_components (v : Series) (picks : List Nat) :
    (v.components picks).shape = ⟨v.length, picks.length⟩ := by
  simp [components, shape, dimension]

theorem regular_components {v : Series} (hv : v.Regular) {picks : List Nat}
    (h : ∀ c ∈ picks, c < v.dimension) : (v.components picks).Regular := by
  intro values hvalues
  obtain ⟨c, hc, rfl⟩ := List.mem_map.mp hvalues
  exact hv.size_channel (h c hc)

theorem components_gather {v : Series} {picks : List Nat} (h : ∀ c ∈ picks, c < v.dimension)
    (S : List Int) : (v.gather S).components picks = (v.components picks).gather S := by
  simp only [components, gather, List.map_map, mk.injEq]
  exact ⟨trivial, List.map_congr_left fun c hc => channel_gather (h c hc)⟩

/-! ### Spreading -/

/-- Values that were computed for the indices in range are spread over all indices. -/
theorem map_ranks {n : Nat} {g : Nat → Float32} {h : Int → Float32}
    (hout : ∀ i, ¬ inRange n i → h i = Scalar.nan) :
    ∀ (S : List Int) (k : Nat),
      (∀ r, (hr : r < (S.filter (inRange n)).length) → g (k + r) = h (S.filter (inRange n))[r]) →
      (ranks n k S).map (fun
        | some r => g r
        | none => Scalar.nan) = S.map h
  | [], _, _ => rfl
  | i :: rest, k, hg => by
    by_cases hi : inRange n i
    · rw [ranks, if_pos hi, List.map_cons, List.map_cons]
      have hfilter : (i :: rest).filter (inRange n) = i :: rest.filter (inRange n) := by simp [hi]
      have hhead : g k = h i := by simpa [hfilter] using hg 0 (by simp [hfilter])
      have htail := map_ranks hout rest (k + 1) fun r hr => by
        have := hg (r + 1) (by simpa [hfilter] using hr)
        simpa [hfilter, Nat.add_assoc, Nat.add_comm 1] using this
      rw [htail, ← hhead]
    · rw [ranks, if_neg hi, List.map_cons, List.map_cons, hout i hi]
      have hfilter : (i :: rest).filter (inRange n) = rest.filter (inRange n) := by simp [hi]
      rw [map_ranks hout rest k fun r hr => by
        have := hg r (by simpa [hfilter] using hr)
        simpa [hfilter] using this]

/-- Spreading what was computed for the indices in range gives the elements at all indices.  A
single element may stand for all of them. -/
theorem scatter_eq_gather {v w : Series} (hv : v.Regular) (hw : w.Regular) {S : List Int}
    (hdimension : w.dimension = v.dimension)
    (h : ∀ k, (hk : k < (S.filter (inRange v.length)).length) → ∀ c < v.dimension,
      w.broadcastAt k c = v.read (S.filter (inRange v.length))[k] c) :
    w.scatter S v.length = v.gather S := by
  unfold scatter
  split_ifs with hall
  · obtain ⟨hsize, hall⟩ := hall
    have hfilter : S.filter (inRange v.length) = S :=
      List.filter_eq_self.mpr fun i hi => List.all_eq_true.mp hall i hi
    refine ext_read hw (regular_gather v S) (by simp [shape, hsize, hdimension]) ?_
    intro k hk c hc
    have hkS : k < S.length := hsize ▸ hk
    have hread := h k (by rw [hfilter]; exact hkS) c (hdimension ▸ hc)
    simp only [hfilter] at hread
    rw [read_gather_getElem v hkS, ← hread, broadcastAt_of_lt hk hc]
  · rw [gather_eq, hdimension]
    refine congrArg (Series.mk S.length) (List.map_congr_left fun c hc => ?_)
    have hc : c < v.dimension := List.mem_range.mp hc
    refine congrArg List.toArray (map_ranks (fun i hi => read_of_not_inRange hv hi c) S 0 ?_)
    intro r hr
    simpa using h r hr c hc

end Series

end VectorScript
