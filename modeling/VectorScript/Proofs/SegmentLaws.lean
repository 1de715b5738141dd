import VectorScript.Proofs.Concatenation

/-!
# Laws of segments

A routing sends every index in range to the segment that holds it, and asks a segment only for
elements that it has (`Routing.mem_requests_iff`).  If the segments answer truly, the answers put
together are the elements of the concatenation at the indices (`Routing.assemble_eq_gather`).
Positions that can be counted are exact (`Meaning.gatherSegments_of_le`).
-/

namespace VectorScript

namespace Routing

/-! ### The segment of a position -/

theorem le_of_mem_starts {n : Nat} : ∀ {lengths : List Nat} {start : Nat},
    n ∈ starts start lengths → start ≤ n
  | length :: rest, start, h => by
    rcases List.mem_cons.mp h with rfl | h
    · exact Nat.le_refl _
    · have := le_of_mem_starts h
      omega

theorem le_total_of_mem_starts {n : Nat} : ∀ {lengths : List Nat} {start : Nat},
    n ∈ starts start lengths → n ≤ start + total lengths
  | length :: rest, start, h => by
    rw [total_cons]
    rcases List.mem_cons.mp h with rfl | h
    · omega
    · have := le_total_of_mem_starts h
      omega

@[simp] theorem length_starts : ∀ (lengths : List Nat) (start : Nat),
    (starts start lengths).length = lengths.length
  | [], _ => rfl
  | _ :: rest, _ => congrArg (· + 1) (length_starts rest _)

theorem countP_starts_eq_zero {lengths : List Nat} {start p : Nat} (h : p < start) :
    (starts start lengths).countP (· ≤ p) = 0 := by
  refine List.countP_eq_zero.mpr fun n hn => ?_
  have := le_of_mem_starts hn
  simp only [decide_eq_true_eq]
  omega

/-- Position `i` is place `j` of segment `k`. -/
structure Locates (lengths : List Nat) (i k j : Nat) : Prop where
  segment : k < lengths.length
  place : j < lengths.getD k 0
  position : i = total (lengths.take k) + j

/-- The owner of a position in range is the segment that holds it. -/
theorem locates_owner : ∀ (lengths : List Nat) (start : Nat) {i : Nat}, i < total lengths →
    ∃ j, Locates lengths i (owner (starts start lengths) (start + i)) j ∧
      (starts start lengths).getD (owner (starts start lengths) (start + i)) 0 + j = start + i
  | n :: rest, start, i, hi => by
    rw [total_cons] at hi
    by_cases hleft : i < n
    · have howner : owner (starts start (n :: rest)) (start + i) = 0 := by
        rw [owner, starts, List.countP_cons, countP_starts_eq_zero (by omega)]
        simp
      refine ⟨i, ⟨by simp [howner], by simpa [howner] using hleft, by simp [howner]⟩, ?_⟩
      rw [howner, starts, List.getD_cons_zero]
    · obtain ⟨i', rfl⟩ : ∃ i', i = n + i' := ⟨i - n, by omega⟩
      obtain ⟨j, hj, hstart⟩ := locates_owner rest (start + n) (i := i') (by omega)
      have hsum : start + (n + i') = start + n + i' := by omega
      -- the owner counts starts up to the position, so the first segment counts as one more
      have hone : 0 < (starts (start + n) rest).countP (· ≤ start + n + i') := by
        cases rest with
        | nil =>
          rw [total_nil] at hi
          omega
        | cons m rest => simp [starts]
      have howner : owner (starts start (n :: rest)) (start + (n + i')) =
          owner (starts (start + n) rest) (start + n + i') + 1 := by
        rw [owner, starts, List.countP_cons, hsum, owner]
        simp only [show start ≤ start + n + i' by omega, decide_true, if_true]
        omega
      refine ⟨j, ⟨?_, ?_, ?_⟩, ?_⟩
      · rw [howner]
        simpa using hj.segment
      · rw [howner, List.getD_cons_succ]
        exact hj.place
      · have hposition := hj.position
        rw [howner, List.take_succ_cons, total_cons]
        omega
      · rw [howner, starts, List.getD_cons_succ, hstart, hsum]

end Routing

theorem Series.read_concat_of_locates {d : Nat} : ∀ {vs : List Series}, Series.Uniform d vs →
    ∀ {i k j : Nat}, Routing.Locates (vs.map Series.length) i k j → ∀ {c : Nat}, c < d →
      (Series.concat d vs).read i c = (vs.getD k default).read j c
  | [], _, i, k, j, h, c, hc => by
    have := h.segment
    simp at this
  | v :: vs, huniform, i, 0, j, h, c, hc => by
    obtain rfl : i = j := by simpa using h.position
    exact Series.read_concat_left huniform hc (by simpa using h.place)
  | v :: vs, huniform, i, k + 1, j, h, c, hc => by
    have hposition := h.position
    rw [List.map_cons, List.take_succ_cons, Routing.total_cons] at hposition
    obtain rfl : i = v.length + (Routing.total ((vs.map Series.length).take k) + j) := by omega
    rw [Series.read_concat_right huniform hc, List.getD_cons_succ]
    exact Series.read_concat_of_locates huniform.tail
      ⟨by simpa using h.segment, by simpa using h.place, rfl⟩ hc

/-! ### Routing -/

namespace Routing

variable {lengths : List Nat}

/-- The segment that holds an index. -/
def ownerOf (lengths : List Nat) (i : Int) : Nat := owner (starts 0 lengths) i.toNat

/-- The place of an index in its segment. -/
def placeOf (lengths : List Nat) (i : Int) : Int :=
  i - (starts 0 lengths).getD (ownerOf lengths i) 0

/-- An index in range is a place of its owner. -/
theorem locates_ownerOf {i : Int} (hi : inRange (total lengths) i) :
    ∃ p j : Nat, i = p ∧ placeOf lengths i = j ∧ Locates lengths p (ownerOf lengths i) j := by
  obtain ⟨hnonneg, hlt⟩ := inRange_iff.mp hi
  obtain ⟨p, rfl⟩ := Int.eq_ofNat_of_zero_le hnonneg
  obtain ⟨j, hj, hstart⟩ := locates_owner lengths 0 (i := p) (by omega)
  simp only [Nat.zero_add] at hj hstart
  refine ⟨p, j, rfl, ?_, hj⟩
  simp only [placeOf, ownerOf, Int.toNat_natCast]
  omega

/-- A routing of some indices: each segment is asked for the places of the indices it owns, in
order, and every slot tells where the answer for its index stands. -/
structure Routes (lengths : List Nat) (indices : List Int) (r : Routing) : Prop where
  size_requests : r.requests.size = lengths.length
  size_slots : r.slots.size = indices.length
  requests : ∀ k, (r.requests.getD k #[]).toList =
    (indices.filter fun i => inRange (total lengths) i && ownerOf lengths i == k).map
      (placeOf lengths)
  slot_none : ∀ (n : Nat) (i : Int), indices[n]? = some i → ¬ inRange (total lengths) i →
    r.slots[n]? = some none
  slot_some : ∀ (n : Nat) (i : Int), indices[n]? = some i → inRange (total lengths) i →
    ∃ rank, r.slots[n]? = some (some (ownerOf lengths i, rank)) ∧
      (r.requests.getD (ownerOf lengths i) #[])[rank]? = some (placeOf lengths i)

theorem routes_nil : Routes lengths [] ⟨Array.replicate lengths.length #[], #[]⟩ where
  size_requests := by simp
  size_slots := rfl
  requests k := by
    by_cases hk : k < lengths.length <;> simp [Array.getD_eq_getD_getElem?, hk]
  slot_none := by simp
  slot_some := by simp

theorem getD_modify_push (requests : Array (Array Int)) (k k' : Nat) (x : Int)
    (hk : k < requests.size) : (requests.modify k (·.push x)).getD k' #[] =
      if k' = k then (requests.getD k #[]).push x else requests.getD k' #[] := by
  simp only [Array.getD_eq_getD_getElem?, Array.getElem?_modify]
  by_cases hkk : k' = k
  · subst hkk
    simp [hk]
  · rw [if_neg fun h => hkk h.symm, if_neg hkk]

/-- The entries of a list with one more entry. -/
theorem getElem?_snoc {α : Type} {xs : List α} {x y : α} {n : Nat}
    (h : (xs ++ [x])[n]? = some y) : xs[n]? = some y ∨ n = xs.length ∧ y = x := by
  rcases Nat.lt_trichotomy n xs.length with hn | rfl | hn
  · rw [List.getElem?_append_left hn] at h
    exact .inl h
  · simp only [List.getElem?_concat_length, Option.some.injEq] at h
    exact .inr ⟨rfl, h.symm⟩
  · rw [List.getElem?_eq_none (by simp; omega)] at h
    cases h

theorem getElem?_push_of_some {α : Type} {xs : Array α} {x y : α} {n : Nat}
    (h : xs[n]? = some y) : (xs.push x)[n]? = some y := by
  obtain ⟨hn, -⟩ := Array.getElem?_eq_some_iff.mp h
  rw [Array.getElem?_push_lt hn, ← h, Array.getElem?_eq_getElem hn]

/-- Routing an index out of range. -/
theorem Routes.skip {indices : List Int} {r : Routing} (h : Routes lengths indices r) {i : Int}
    (hi : ¬ inRange (total lengths) i) :
    Routes lengths (indices ++ [i]) { r with slots := r.slots.push none } where
  size_requests := h.size_requests
  size_slots := by simp [h.size_slots]
  requests k := by
    rw [h.requests, List.filter_append, List.filter_cons_of_neg (by simp [hi]), List.filter_nil,
      List.append_nil]
  slot_none n x hx hout := by
    rcases getElem?_snoc hx with hx | ⟨rfl, rfl⟩
    · exact getElem?_push_of_some (h.slot_none n x hx hout)
    · simp [← h.size_slots]
  slot_some n x hx hin := by
    rcases getElem?_snoc hx with hx | ⟨rfl, rfl⟩
    · obtain ⟨rank, hslot, hrank⟩ := h.slot_some n x hx hin
      exact ⟨rank, getElem?_push_of_some hslot, hrank⟩
    · exact absurd hin hi

/-- Routing an index in range. -/
theorem Routes.ask {indices : List Int} {r : Routing} (h : Routes lengths indices r) {i : Int}
    (hi : inRange (total lengths) i) :
    Routes lengths (indices ++ [i])
      ⟨r.requests.modify (ownerOf lengths i) (·.push (placeOf lengths i)),
        r.slots.push
          (some (ownerOf lengths i, (r.requests.getD (ownerOf lengths i) #[]).size))⟩ := by
  obtain ⟨p, j, -, -, hlocates⟩ := locates_ownerOf hi
  have hk : ownerOf lengths i < r.requests.size := h.size_requests ▸ hlocates.segment
  refine ⟨by simp [h.size_requests], by simp [h.size_slots], fun k => ?_, fun n x hx hout => ?_,
    fun n x hx hin => ?_⟩
  · simp only [getD_modify_push _ _ _ _ hk, List.filter_append, List.map_append, ← h.requests]
    by_cases hkk : k = ownerOf lengths i
    · simp [hkk, hi]
    · simp [hkk, Ne.symm hkk]
  · rcases getElem?_snoc hx with hx | ⟨rfl, rfl⟩
    · exact getElem?_push_of_some (h.slot_none n x hx hout)
    · exact absurd hi hout
  · simp only [getD_modify_push _ _ _ _ hk]
    rcases getElem?_snoc hx with hx | ⟨rfl, rfl⟩
    · obtain ⟨rank, hslot, hrank⟩ := h.slot_some n x hx hin
      refine ⟨rank, getElem?_push_of_some hslot, ?_⟩
      by_cases hkk : ownerOf lengths x = ownerOf lengths i
      · rw [if_pos hkk]
        exact getElem?_push_of_some (hkk ▸ hrank)
      · rw [if_neg hkk]
        exact hrank
    · refine ⟨(r.requests.getD (ownerOf lengths x) #[]).size, ?_, ?_⟩
      · rw [← h.size_slots, Array.getElem?_push_size]
      · rw [if_pos rfl, Array.getElem?_push_size]

/-- Routes some indices to segments of the given lengths. -/
def ofLengths (lengths : List Nat) (indices : List Int) : Routing :=
  ofIndices (starts 0 lengths) (total lengths) indices

theorem Routes.snoc {indices : List Int} {r : Routing} (h : Routes lengths indices r) (i : Int) :
    Routes lengths (indices ++ [i]) (add (starts 0 lengths) (total lengths) r i) := by
  unfold add
  split_ifs with hi
  · exact h.ask hi
  · exact h.skip hi

theorem routes_ofLengths (lengths : List Nat) (indices : List Int) :
    Routes lengths indices (ofLengths lengths indices) := by
  -- indices are routed from the left; what was routed before stays routed
  have hfold : ∀ (rest done : List Int) (r : Routing), Routes lengths done r →
      Routes lengths (done ++ rest) (rest.foldl (add (starts 0 lengths) (total lengths)) r) := by
    intro rest
    induction rest with
    | nil => intro done r h; simpa using h
    | cons i rest ih =>
      intro done r h
      simpa using ih (done ++ [i]) _ (h.snoc i)
  unfold ofLengths ofIndices
  rw [length_starts]
  exact hfold indices [] _ routes_nil

/-! ### Requests and answers -/

/-- What segment `k` is asked for. -/
def requestsOf (lengths : List Nat) (indices : List Int) (k : Nat) : List Int :=
  ((ofLengths lengths indices).requests.getD k #[]).toList

theorem mem_requestsOf {indices : List Int} {k : Nat} {x : Int} :
    x ∈ requestsOf lengths indices k ↔
      ∃ i ∈ indices, inRange (total lengths) i ∧ ownerOf lengths i = k ∧ placeOf lengths i = x := by
  rw [requestsOf, (routes_ofLengths lengths indices).requests k]
  simp only [List.mem_map, List.mem_filter, Bool.and_eq_true, beq_iff_eq]
  constructor
  · rintro ⟨i, ⟨hi, hrange, howner⟩, rfl⟩
    exact ⟨i, hi, hrange, howner, rfl⟩
  · rintro ⟨i, hi, hrange, howner, rfl⟩
    exact ⟨i, ⟨hi, hrange, howner⟩, rfl⟩

/-- If every segment that is asked answers truly, so does the whole. -/
theorem assemble_eq_gather {d : Nat} {vs : List Series} (huniform : Series.Uniform d vs)
    {indices : List Int} {parts : Array (Option Series)}
    (hparts : ∀ k, requestsOf (vs.map Series.length) indices k ≠ [] →
      parts.getD k none = some ((vs.getD k default).gather
        (requestsOf (vs.map Series.length) indices k))) :
    (ofLengths (vs.map Series.length) indices).assemble d parts =
      (Series.concat d vs).gather indices := by
  have h := routes_ofLengths (vs.map Series.length) indices
  rw [Series.gather_eq, Series.dimension_concat, assemble, h.size_slots]
  refine congrArg (Series.mk _) (List.map_congr_left fun c hc => ?_)
  have hc : c < d := List.mem_range.mp hc
  refine Array.ext (by simp [h.size_slots]) fun n hn _ => ?_
  have hn : n < indices.length := by simpa [h.size_slots] using hn
  have hget : indices[n]? = some indices[n] := List.getElem?_eq_getElem hn
  simp only [Array.getElem_map, List.getElem_toArray, List.getElem_map]
  by_cases hrange : inRange (total (vs.map Series.length)) indices[n]
  · obtain ⟨rank, hslot, hrank⟩ := h.slot_some n _ hget hrange
    obtain ⟨p, j, hp, hj, hlocates⟩ := locates_ownerOf hrange
    obtain ⟨hsize, hslot⟩ := Array.getElem?_eq_some_iff.mp hslot
    have hrequest : (requestsOf (vs.map Series.length) indices
        (ownerOf (vs.map Series.length) indices[n]))[rank]? =
          some (placeOf (vs.map Series.length) indices[n]) := by
      rw [requestsOf, Array.getElem?_toList, hrank]
    have hpart := hparts (ownerOf (vs.map Series.length) indices[n]) fun hnil => by
      rw [hnil] at hrequest
      cases hrequest
    simp only [hslot, Option.bind_eq_bind, Option.bind_some, hpart]
    calc (((vs.getD (ownerOf (vs.map Series.length) indices[n]) default).gather
            (requestsOf (vs.map Series.length) indices
              (ownerOf (vs.map Series.length) indices[n]))).get? rank c).getD Scalar.nan
        = (vs.getD (ownerOf (vs.map Series.length) indices[n]) default).read j c := by
          rw [Series.getD_get?, Series.read_gather, hrequest, hj]
          rfl
      _ = (Series.concat d vs).read p c := (Series.read_concat_of_locates huniform hlocates hc).symm
      _ = (Series.concat d vs).read indices[n] c := by rw [hp]
  · obtain ⟨hslot, hget⟩ := Array.getElem?_eq_some_iff.mp (h.slot_none n _ hget hrange)
    rw [hget, Series.read_of_not_inRange (Series.regular_concat huniform) hrange]
    rfl

end Routing

/-! ### Counting -/

theorem Answering.count_of_le {m : Type → Type} [Answering m] {n : Nat} (h : n ≤ maxLength)
    (site : Site) : (count site n : m Nat) = pure n :=
  if_pos h

theorem Answering.mapM_count {m : Type → Type} [Answering m] [LawfulMonad m] (site : Site) :
    ∀ {ns : List Nat}, (∀ n ∈ ns, n ≤ maxLength) → ns.mapM (count (m := m) site) = pure ns
  | [], _ => List.mapM_nil
  | n :: ns, h => by
    have hns := mapM_count (m := m) site fun k hk => h k (List.mem_cons_of_mem _ hk)
    rw [List.mapM_cons, count_of_le (h n List.mem_cons_self), hns, pure_bind, pure_bind]

/-- Where all positions can be counted, they are counted exactly. -/
theorem Meaning.gatherSegments_of_le {m : Type → Type} [Answering m] [LawfulMonad m]
    {lengths : List Nat} (h : Routing.total lengths ≤ maxLength) (site : Site) (d : Nat)
    (S : List Int) (segment : Nat → List Int → m Series) :
    gatherSegments site lengths d S segment =
      readSegments (Routing.starts 0 lengths) (Routing.total lengths) d S segment := by
  have hstarts : ∀ n ∈ Routing.starts 0 lengths, n ≤ maxLength := fun n hn => by
    have := Routing.le_total_of_mem_starts hn
    omega
  rw [gatherSegments, Answering.mapM_count site hstarts, pure_bind, Answering.count_of_le h,
    pure_bind]

end VectorScript
