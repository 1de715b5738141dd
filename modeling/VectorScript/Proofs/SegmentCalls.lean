import VectorScript.Proofs.SegmentLaws

/-!
# Calls of segments

Reading some elements of a concatenation asks every segment at most once, in order, for the elements
that fall into it, and leaves the other segments alone.  That is so in whatever way a segment
answers and whatever it does besides (`Meaning.gathers_concatenation`).

* `Routing.placesIn`: the elements of a segment that some indices want.
* `Routing.calls`: the segments that are asked, each with what it is asked for.
-/

namespace VectorScript

namespace Routing

variable {lengths : List Nat} {S : List Int} {k : Nat}

/-! ### Where segments begin and end -/

/-- Where segment `k` begins. -/
def startOf (lengths : List Nat) (k : Nat) : Nat := total (lengths.take k)

theorem startOf_succ (hk : k < lengths.length) :
    startOf lengths (k + 1) = startOf lengths k + lengths.getD k 0 := by
  induction lengths generalizing k with
  | nil => cases hk
  | cons n rest ih =>
    cases k with
    | zero => simp [startOf]
    | succ k =>
      have h := ih (Nat.lt_of_succ_lt_succ hk)
      simp only [startOf, List.take_succ_cons, total_cons, List.getD_cons_succ] at h ⊢
      omega

theorem startOf_mono (lengths : List Nat) {k k' : Nat} (h : k ≤ k') :
    startOf lengths k ≤ startOf lengths k' := by
  induction lengths generalizing k k' with
  | nil => simp [startOf]
  | cons n rest ih =>
    cases k with
    | zero => simp [startOf]
    | succ k =>
      obtain ⟨k', rfl⟩ : ∃ j, k' = j + 1 := ⟨k' - 1, by omega⟩
      have h := ih (Nat.le_of_succ_le_succ h)
      simp only [startOf, List.take_succ_cons, total_cons] at h ⊢
      omega

theorem startOf_le_total (lengths : List Nat) (k : Nat) : startOf lengths k ≤ total lengths := by
  have h := startOf_mono lengths (Nat.le_max_left k lengths.length)
  rwa [startOf, startOf, List.take_of_length_le (Nat.le_max_right _ _)] at h

theorem Locates.between {i j : Nat} (h : Locates lengths i k j) :
    startOf lengths k ≤ i ∧ i < startOf lengths (k + 1) := by
  have hposition := h.position
  have hplace := h.place
  rw [startOf_succ h.segment]
  unfold startOf
  omega

/-- An index belongs to the segment between whose ends it lies. -/
theorem owns_iff {i : Int} : (inRange (total lengths) i ∧ ownerOf lengths i = k) ↔
    startOf lengths k ≤ i ∧ i < startOf lengths (k + 1) := by
  constructor
  · rintro ⟨hi, rfl⟩
    obtain ⟨p, j, rfl, -, hlocates⟩ := locates_ownerOf hi
    have := hlocates.between
    omega
  · rintro ⟨hle, hlt⟩
    have hi : inRange (total lengths) i := by
      have := startOf_le_total lengths (k + 1)
      exact inRange_iff.mpr (by omega)
    refine ⟨hi, ?_⟩
    obtain ⟨p, j, rfl, -, hlocates⟩ := locates_ownerOf hi
    have hbetween := hlocates.between
    -- a segment that comes later begins where the other has ended
    by_contra hne
    rcases Nat.lt_or_gt_of_ne hne with h | h
    · have := startOf_mono lengths (show ownerOf lengths p + 1 ≤ k from h)
      omega
    · have := startOf_mono lengths (show k + 1 ≤ ownerOf lengths p from h)
      omega

theorem placeOf_eq {i : Int} (hi : inRange (total lengths) i) :
    placeOf lengths i = i - startOf lengths (ownerOf lengths i) := by
  obtain ⟨p, j, rfl, hplace, hlocates⟩ := locates_ownerOf hi
  have hposition := hlocates.position
  rw [hplace, startOf]
  omega

/-! ### What segments are asked for -/

/-- The elements of segment `k` that some indices want, counted within the segment. -/
def placesIn (lengths : List Nat) (S : List Int) (k : Nat) : List Int :=
  (S.filter fun i : Int => startOf lengths k ≤ i ∧ i < startOf lengths (k + 1)).map
    (· - startOf lengths k)

theorem requestsOf_eq_placesIn (lengths : List Nat) (S : List Int) (k : Nat) :
    requestsOf lengths S k = placesIn lengths S k := by
  rw [requestsOf, (routes_ofLengths lengths S).requests k, placesIn]
  have hfilter : (fun i => inRange (total lengths) i && ownerOf lengths i == k) =
      fun i : Int => decide (startOf lengths k ≤ i ∧ i < startOf lengths (k + 1)) := by
    funext i
    rw [Bool.eq_iff_iff, Bool.and_eq_true, beq_iff_eq, decide_eq_true_eq]
    exact owns_iff
  rw [hfilter]
  refine List.map_congr_left fun i hi => ?_
  obtain ⟨hrange, rfl⟩ := owns_iff.mpr (of_decide_eq_true (List.mem_filter.mp hi).2)
  exact placeOf_eq hrange

theorem lt_length_of_placesIn (h : placesIn lengths S k ≠ []) : k < lengths.length := by
  obtain ⟨x, hx⟩ := List.exists_mem_of_ne_nil _ h
  obtain ⟨i, hi, -⟩ := List.mem_map.mp hx
  have hbetween := of_decide_eq_true (List.mem_filter.mp hi).2
  by_contra hk
  -- beyond the last segment nothing lies between the two ends
  rw [startOf, startOf, List.take_of_length_le (by omega), List.take_of_length_le (by omega)]
    at hbetween
  omega

theorem inRange_of_mem_placesIn (hk : k < lengths.length) {x : Int}
    (hx : x ∈ placesIn lengths S k) : inRange (lengths.getD k 0) x := by
  obtain ⟨i, hi, rfl⟩ := List.mem_map.mp hx
  have hbetween := of_decide_eq_true (List.mem_filter.mp hi).2
  rw [startOf_succ hk] at hbetween
  exact inRange_iff.mpr (by omega)

/-- The segments that are asked, each with what it is asked for. -/
def calls (lengths : List Nat) (S : List Int) : List (Nat × List Int) :=
  ((List.range lengths.length).filter fun k => placesIn lengths S k ≠ []).map fun k =>
    (k, placesIn lengths S k)

theorem pairwise_calls (lengths : List Nat) (S : List Int) :
    (calls lengths S).Pairwise fun c c' => c.1 < c'.1 :=
  List.pairwise_map.mpr (List.pairwise_lt_range.filter _)

theorem mem_calls {c : Nat × List Int} : c ∈ calls lengths S ↔
    c.1 < lengths.length ∧ c.2 = placesIn lengths S c.1 ∧ c.2 ≠ [] := by
  obtain ⟨k, T⟩ := c
  simp only [calls, List.mem_map, List.mem_filter, List.mem_range, decide_eq_true_eq,
    Prod.mk.injEq]
  constructor
  · rintro ⟨k, ⟨hk, hne⟩, rfl, rfl⟩
    exact ⟨hk, rfl, hne⟩
  · rintro ⟨hk, rfl, hne⟩
    exact ⟨k, ⟨hk, hne⟩, rfl, rfl⟩

end Routing

/-- Asking some of many, each of which does something and answers. -/
theorem mapM_some_of_asked {m : Type → Type} [Monad m] [LawfulMonad m] {α β : Type}
    (asked : α → Prop) [DecidablePred asked] (note : α → m Unit) (answer : α → β) :
    ∀ xs : List α, (xs.mapM fun x =>
      if asked x then some <$> (do note x; return answer x) else return none) =
        (do
          (xs.filter asked).forM note
          return xs.map fun x => if asked x then some (answer x) else none)
  | [] => by simp
  | x :: xs => by
    rw [List.mapM_cons, mapM_some_of_asked asked note answer xs]
    by_cases h : asked x <;> simp [h]

namespace Meaning

open Routing

/-- A segment is asked if some of its elements are wanted. -/
theorem gatherSegments_of_countable {m : Type → Type} [Answering m] [LawfulMonad m]
    {lengths : List Nat} (htotal : total lengths ≤ maxLength) (site : Site) (d : Nat) (S : List Int)
    (segment : Nat → List Int → m Series) :
    gatherSegments site lengths d S segment = (do
      let parts ← (List.range lengths.length).mapM fun k =>
        if placesIn lengths S k ≠ [] then some <$> segment k (placesIn lengths S k)
        else return none
      return (ofLengths lengths S).assemble d parts.toArray) := by
  have hask : ∀ k, (let requested := (ofLengths lengths S).requests.getD k #[]
      if requested.isEmpty then pure none else some <$> segment k requested.toList) =
        if placesIn lengths S k ≠ [] then some <$> segment k (placesIn lengths S k)
        else pure none := by
    intro k
    have hplaces : ((ofLengths lengths S).requests.getD k #[]).toList = placesIn lengths S k :=
      requestsOf_eq_placesIn lengths S k
    have hempty : ((ofLengths lengths S).requests.getD k #[]).isEmpty ↔
        placesIn lengths S k = [] := by
      rw [Array.isEmpty_iff, ← Array.toList_eq_nil_iff, hplaces]
    simp only [hplaces, hempty, ite_not]
  rw [gatherSegments_of_le htotal, readSegments, length_starts]
  exact congrArg (fun ask => List.mapM ask _ >>= _) (funext hask)

/-- Segments that answer with their elements, and do whatever they do: elements of the concatenation
are read with one call to every segment that holds some of them, for elements that it has. -/
theorem gathers_concatenation {d : Nat} {vs : List Series} (huniform : Series.Uniform d vs)
    (htotal : total (vs.map Series.length) ≤ maxLength) (S : List Int) :
    (calls (vs.map Series.length) S).Pairwise (fun c c' => c.1 < c'.1) ∧
    (∀ c ∈ calls (vs.map Series.length) S, c.1 < vs.length ∧ c.2 ≠ [] ∧
      ∀ i ∈ c.2, inRange (vs.getD c.1 default).length i) ∧
    ∀ {m : Type → Type} [Answering m] [LawfulMonad m] (site : Site)
      (note : Nat → List Int → m Unit),
      gatherSegments site (vs.map Series.length) d S (fun k wanted => do
        note k wanted
        return (vs.getD k default).gather wanted) =
      (do
        (calls (vs.map Series.length) S).forM fun c => note c.1 c.2
        return (Series.concat d vs).gather S) := by
  refine ⟨pairwise_calls _ _, fun c hc => ?_, fun site note => ?_⟩
  · obtain ⟨hk, hplaces, hne⟩ := mem_calls.mp hc
    rw [List.length_map] at hk
    refine ⟨hk, hne, fun i hi => ?_⟩
    have hrange := inRange_of_mem_placesIn (by simpa using hk) (hplaces ▸ hi)
    simpa [hk] using hrange
  · rw [gatherSegments_of_countable htotal, mapM_some_of_asked]
    simp only [bind_assoc, pure_bind]
    rw [assemble_eq_gather huniform]
    · simp only [calls, List.forM_eq_forM, List.forM_map]
    · intro k hk
      rw [requestsOf_eq_placesIn] at hk ⊢
      have := lt_length_of_placesIn hk
      simp_all

/-- Two of four segments hold what is wanted, and each of them is called once. -/
theorem gathers_around_empty_segments :
    let vs : List Series := [.ofValues #[], .ofValues #[5, 6], .ofValues #[], .ofValues #[8]]
    Series.Uniform 1 vs ∧ total (vs.map Series.length) ≤ maxLength ∧
    calls (vs.map Series.length) [2, -1, 0, 2, 7] = [(1, [0]), (3, [0, 0])] ∧
    (gatherSegments default (vs.map Series.length) 1 [2, -1, 0, 2, 7] (fun k wanted => do
      Answering.countBuiltin
      return (vs.getD k default).gather wanted) : Eval Series).run.run default =
        (.ok (.ofValues #[8, Scalar.nan, 5, 8, Scalar.nan]),
          { (default : Memory) with builtinCalls := 2 }) := by
  intro vs
  have huniform : Series.Uniform 1 vs := by
    simp [Series.Uniform, vs, Series.Regular, Series.ofValues, Series.dimension]
  have htotal : total (vs.map Series.length) ≤ maxLength := by decide
  have hcalls : calls (vs.map Series.length) [2, -1, 0, 2, 7] = [(1, [0]), (3, [0, 0])] := by
    decide
  refine ⟨huniform, htotal, hcalls, ?_⟩
  rw [(gathers_concatenation huniform htotal _).2.2 (m := Eval) default
    (fun _ _ => Answering.countBuiltin), hcalls]
  rfl

end Meaning

end VectorScript
