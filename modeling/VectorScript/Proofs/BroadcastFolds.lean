import Mathlib.Data.List.Induction
import VectorScript.Proofs.Broadcasting

/-!
# Broadcasting in any order

The broadcast shape of operands depends on which shapes there are, and on nothing else.  Its length
is one if all lengths are, and else the least of the others; its dimension is one if all dimensions
are, and else what the others have in common.  Both can be found operand by operand, so broadcasting
is a fold of the broadcasting of two, in any order (`Shape.broadcast_folds`).
-/

namespace VectorScript.Shape

variable {ts ts' : List Shape}

/-! ### Lengths -/

theorem commonLength_le_of_ne {t : Shape} (ht : t ∈ ts) (hne : t.length ≠ 1) :
    commonLength ts ≠ 1 ∧ commonLength ts ≤ t.length := by
  rcases commonLength_spec ts with ⟨-, hones⟩ | ⟨u, -, hcommon, hne', hleast⟩
  · exact absurd (hones t ht) hne
  · have := hleast t ht hne
    omega

/-- The common length is one, or the length of an operand that is least apart from ones. -/
theorem commonLength_eq {n : Nat} (hmem : n = 1 ∨ ∃ t ∈ ts, t.length = n)
    (hle : ∀ t ∈ ts, t.length ≠ 1 → n ≠ 1 ∧ n ≤ t.length) : commonLength ts = n := by
  rcases commonLength_spec ts with ⟨hone, hones⟩ | ⟨t, ht, hcommon, hne, hleast⟩
  · rcases hmem with rfl | ⟨u, hu, rfl⟩
    · exact hone
    · rw [hone, hones u hu]
  · obtain ⟨hn, hnt⟩ := hle t ht hne
    obtain ⟨u, hu, rfl⟩ := hmem.resolve_left hn
    have := hleast u hu hn
    omega

theorem commonLength_mem (ts : List Shape) :
    commonLength ts = 1 ∨ ∃ t ∈ ts, t.length = commonLength ts := by
  rcases commonLength_spec ts with ⟨hone, -⟩ | ⟨t, ht, hcommon, -⟩
  · exact .inl hone
  · exact .inr ⟨t, ht, hcommon⟩

theorem commonLength_congr (h : ∀ t, t ∈ ts ↔ t ∈ ts') : commonLength ts = commonLength ts' := by
  refine commonLength_eq ?_ fun t ht => commonLength_le_of_ne ((h t).mp ht)
  exact (commonLength_mem ts').imp_right fun ⟨t, ht, hcommon⟩ => ⟨t, (h t).mpr ht, hcommon⟩

/-- One more operand meets the common length of those before it. -/
theorem commonLength_snoc (ts : List Shape) (t : Shape) (d : Nat) :
    commonLength (ts ++ [t]) = commonLength [⟨commonLength ts, d⟩, t] := by
  refine commonLength_eq ?_ fun u hu hne => ?_
  · rcases commonLength_mem [⟨commonLength ts, d⟩, t] with hone | ⟨u, hu, hcommon⟩
    · exact .inl hone
    · simp only [List.mem_cons, List.not_mem_nil, or_false] at hu
      rcases hu with rfl | rfl
      · -- the length so far is one or that of an operand
        rw [← hcommon]
        exact (commonLength_mem ts).imp_right fun ⟨u, hu, hu'⟩ =>
          ⟨u, List.mem_append_left _ hu, hu'⟩
      · exact .inr ⟨u, by simp, hcommon⟩
  · rcases List.mem_append.mp hu with hu | hu
    · obtain ⟨hone, hle⟩ := commonLength_le_of_ne hu hne
      have hpair : (⟨commonLength ts, d⟩ : Shape) ∈ [⟨commonLength ts, d⟩, t] := by simp
      obtain ⟨hone', hle'⟩ := commonLength_le_of_ne hpair hone
      exact ⟨hone', Nat.le_trans hle' hle⟩
    · obtain rfl := List.mem_singleton.mp hu
      exact commonLength_le_of_ne (by simp) hne

/-! ### Dimensions -/

theorem meetDimension_one (t : Shape) : meetDimension 1 t = .ok t.dimension := by
  by_cases hone : t.dimension = 1 <;> simp [meetDimension, hone]

theorem meetDimension_of_fits {d : Nat} {t : Shape} (h : t.dimension = 1 ∨ t.dimension = d) :
    meetDimension d t = .ok d := by
  rcases h with h | h <;> by_cases hone : d = 1 <;> simp [meetDimension, h, hone]

/-- Dimensions meet in the one that those apart from one have in common. -/
theorem foldlM_meetDimension_eq_ok {d d' : Nat} : ts.foldlM meetDimension d = .ok d' ↔
    (d = 1 ∨ d = d') ∧ (∀ t ∈ ts, t.dimension = 1 ∨ t.dimension = d') ∧
      (d' = d ∨ ∃ t ∈ ts, d' = t.dimension) := by
  constructor
  · intro h
    obtain ⟨hd, hts⟩ := dimension_of_foldlM_meetDimension h
    exact ⟨hd, hts, foldlM_meetDimension_mem h⟩
  · rintro ⟨hd, hts, hmem⟩
    induction ts generalizing d with
    | nil =>
      obtain rfl : d' = d := by simpa using hmem
      rfl
    | cons t ts ih =>
      obtain ⟨ht, hts⟩ := List.forall_mem_cons.mp hts
      rw [List.foldlM_cons]
      rcases hd with rfl | rfl
      · rw [meetDimension_one]
        refine ih ht hts ?_
        rcases hmem with rfl | ⟨u, hu, rfl⟩
        · exact .inl (ht.elim Eq.symm Eq.symm)
        · rcases List.mem_cons.mp hu with rfl | hu
          · exact .inl rfl
          · exact .inr ⟨u, hu, rfl⟩
      · rw [meetDimension_of_fits ht]
        exact ih (.inr rfl) hts (.inl rfl)

/-! ### Shapes -/

theorem broadcast_congr_mem (h : ∀ t, t ∈ ts ↔ t ∈ ts') (s : Shape) :
    broadcast ts = .ok s ↔ broadcast ts' = .ok s := by
  simp only [broadcast_eq_ok, foldlM_meetDimension_eq_ok, commonLength_congr h, h]

theorem exists_broadcast_iff : (∃ s, broadcast ts = .ok s) ↔
    ∀ t ∈ ts, ∀ u ∈ ts, t.dimension ≠ 1 → u.dimension ≠ 1 → t.dimension = u.dimension := by
  constructor
  · rintro ⟨s, h⟩ t ht u hu hne hne'
    have hdims := (dimension_of_foldlM_meetDimension (broadcast_eq_ok.mp h).2).2
    exact ((hdims t ht).resolve_left hne).trans ((hdims u hu).resolve_left hne').symm
  · intro h
    by_cases hones : ∀ t ∈ ts, t.dimension = 1
    · refine ⟨⟨commonLength ts, 1⟩, broadcast_eq_ok.mpr ⟨rfl, foldlM_meetDimension_eq_ok.mpr ?_⟩⟩
      exact ⟨.inl rfl, fun t ht => .inl (hones t ht), .inl rfl⟩
    · -- some operand has more than one component, and the others agree with it
      obtain ⟨t, ht, hne⟩ : ∃ t ∈ ts, t.dimension ≠ 1 := by simpa using hones
      refine ⟨⟨commonLength ts, t.dimension⟩,
        broadcast_eq_ok.mpr ⟨rfl, foldlM_meetDimension_eq_ok.mpr ?_⟩⟩
      refine ⟨.inl rfl, fun u hu => ?_, .inr ⟨t, ht, rfl⟩⟩
      exact or_iff_not_imp_left.mpr fun hne' => h u hu t ht hne' hne

/-- One more operand is broadcast with the shape of those before it. -/
theorem broadcast_snoc (ts : List Shape) (t : Shape) :
    broadcast (ts ++ [t]) = broadcast ts >>= fun s => broadcast [s, t] := by
  unfold broadcast
  rw [List.foldlM_append]
  cases ts.foldlM meetDimension 1 with
  | error e => rfl
  | ok d =>
    simp only [List.foldlM_cons, List.foldlM_nil, ok_bind, pure_bind, commonLength_snoc ts t d,
      meetDimension_one]

/-- Broadcasting is a fold of the broadcasting of two shapes, with the same error.  It succeeds if
the dimensions apart from one are all equal, and the order of the shapes does not matter. -/
theorem broadcast_folds (ts : List Shape) :
    broadcast ts = ts.foldlM (fun s t => broadcast [s, t]) scalar ∧
    ((∃ s, broadcast ts = .ok s) ↔
      ∀ t ∈ ts, ∀ u ∈ ts, t.dimension ≠ 1 → u.dimension ≠ 1 → t.dimension = u.dimension) ∧
    ∀ ts', ts'.Perm ts → ∀ s, broadcast ts' = .ok s ↔ broadcast ts = .ok s := by
  refine ⟨?_, exists_broadcast_iff, fun ts' h s => broadcast_congr_mem (fun t => h.mem_iff) s⟩
  induction ts using List.reverseRecOn with
  | nil => rfl
  | append_singleton ts t ih =>
    rw [broadcast_snoc, ih, List.foldlM_append]
    simp

/-- No elements stand for none of five, in any order. -/
theorem broadcast_of_empty_first :
    [⟨5, 3⟩, ⟨1, 3⟩, ⟨0, 1⟩].Perm [⟨0, 1⟩, ⟨5, 3⟩, (⟨1, 3⟩ : Shape)] ∧
      broadcast [⟨5, 3⟩, ⟨1, 3⟩, ⟨0, 1⟩] = .ok ⟨0, 3⟩ := by
  have hperm : [⟨5, 3⟩, ⟨1, 3⟩, ⟨0, 1⟩].Perm [⟨0, 1⟩, ⟨5, 3⟩, (⟨1, 3⟩ : Shape)] := by decide
  exact ⟨hperm, ((broadcast_folds [⟨0, 1⟩, ⟨5, 3⟩, ⟨1, 3⟩]).2.2 _ hperm ⟨0, 3⟩).mpr rfl⟩

/-- Only an error shows the order. -/
example : broadcast [⟨4, 2⟩, ⟨4, 3⟩] = .error ⟨2, 3⟩ ∧
    broadcast [⟨4, 3⟩, ⟨4, 2⟩] = .error ⟨3, 2⟩ := ⟨rfl, rfl⟩

end VectorScript.Shape
