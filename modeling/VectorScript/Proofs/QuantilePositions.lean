import VectorScript.Proofs.Rounding
import VectorScript.Builtin.Arrangement
import VectorScript.Builtin.Statistics

/-!
# Where quantiles are read

A quantile of `n` ordered values is read at two positions, below and above `q` times `n - 1`.  Both
the conversion of `n - 1` to a scalar and the product are rounded.  The product never passes the
scalar (`above_position_le`), and reaches it at the quantile of one (`keep24_le_above`), so the
positions stay among the values exactly when the conversion does not round up.  The first length
where it does is `0x1000004`, and `join` gives arrays of that length.
-/

namespace VectorScript

/-! ### Rounded lengths -/

namespace Scalar

theorem keep24_le {n : Nat} (h : n ≤ 0x1000002) : keep24 n ≤ n := by
  rcases Nat.lt_or_ge n 0x1000000 with hlt | hge
  · exact (keep24_of_lt hlt).le
  · obtain rfl | rfl | rfl : n = 0x1000000 ∨ n = 0x1000001 ∨ n = 0x1000002 := by omega
    all_goals decide +kernel

theorem keep24_le_add (n : Nat) : keep24 n ≤ n + n / 0x1000000 := by
  rcases Nat.lt_or_ge n 0x1000000 with hlt | hge
  · rw [keep24_of_lt hlt]
    exact Nat.le_add_right _ _
  · have hne : n ≠ 0 := by omega
    have hlog : 24 ≤ n.log2 := (Nat.le_log2 hne).mpr hge
    have hhalf : 2 ^ (n.log2 - 23) / 2 = 2 ^ (n.log2 - 24) := by
      have hsucc : n.log2 - 23 = n.log2 - 24 + 1 := by omega
      rw [hsucc, Nat.pow_succ, Nat.mul_div_cancel _ Nat.two_pos]
    calc keep24 n ≤ n + 2 ^ (n.log2 - 24) := hhalf ▸ nearestEven_mul_le n (n.log2 - 23)
      _ = n + 2 ^ n.log2 / 2 ^ 24 := by rw [Nat.pow_div hlog Nat.two_pos]
      _ ≤ n + n / 0x1000000 := Nat.add_le_add_left (Nat.div_le_div_right (Nat.log2_self_le hne)) n

end Scalar

/-! ### Positions -/

namespace Builtin.Statistics

open Scalar

variable {n : Nat} {q : Float32}

theorem units_last (hcount : n ≤ maxLength) : (Float32.ofNat (n - 1)).isFinite ∧
    (parts (Float32.ofNat (n - 1))).units = keep24 (n - 1) * 2 ^ 149 := by
  unfold maxLength at hcount
  exact units_ofNat (by omega)

theorem above_position_le (hcount : n ≤ maxLength) (hzero : 0 ≤ q) (hone : q ≤ 1) :
    (parts (quantilePosition n q)).above ≤ keep24 (n - 1) := by
  obtain ⟨hfinite, hunits⟩ := units_last hcount
  rw [Parts.above_le_iff (exponent_parts _), ← hunits]
  exact units_mul_le hzero hone hfinite

/-- The quantile of one is read at the rounded last position, or past it. -/
theorem keep24_le_above (hcount : n ≤ maxLength) :
    keep24 (n - 1) ≤ (parts (quantilePosition n 1)).above := by
  obtain ⟨hfinite, hunits⟩ := units_last hcount
  have hle := (Parts.above_le_iff (exponent_parts (quantilePosition n 1))).mp (Nat.le_refl _)
  rw [quantilePosition, (units_one_mul hfinite).2, hunits] at hle
  exact Nat.le_of_mul_le_mul_right hle (Nat.two_pow_pos 149)

theorem valueAt_of_lt {values : Array Float32} {i : Nat} (h : i < values.size) :
    valueAt values i = .ok values[i] := by
  rw [valueAt, dif_pos h]

theorem valueAt_of_le {values : Array Float32} {i : Nat} (h : values.size ≤ i) :
    valueAt values i = .error (.fault (.outOfBounds i values.size)) := by
  rw [valueAt, dif_neg (Nat.not_lt.mpr h)]

/-- A quantile reads two elements, first the one below its position. -/
theorem interpolate_eq {ordered : Array Float32} (hpos : 0 < ordered.size) (hzero : 0 ≤ q)
    (hone : q ≤ 1) :
    interpolate ordered q = (do
      let low ← valueAt ordered (parts (quantilePosition ordered.size q)).below
      let high ← valueAt ordered (parts (quantilePosition ordered.size q)).above
      return low + (high - low) * (quantilePosition ordered.size q -
        Float32.ofNat (parts (quantilePosition ordered.size q)).below)) := by
  have hsize : ordered.isEmpty = false := by
    simp only [Array.isEmpty_eq_false_iff_exists_mem]
    exact ⟨_, Array.getElem_mem hpos⟩
  simp [interpolate, hsize, hzero, hone]

/-- If a position is past the end, so is the element that is read there. -/
theorem interpolate_past_end {ordered : Array Float32} (hpos : 0 < ordered.size) (hzero : 0 ≤ q)
    (hone : q ≤ 1) (h : ordered.size ≤ (parts (quantilePosition ordered.size q)).above) :
    ∃ i, ordered.size ≤ i ∧ i ≤ (parts (quantilePosition ordered.size q)).above ∧
      interpolate ordered q = .error (.fault (.outOfBounds i ordered.size)) := by
  rw [interpolate_eq hpos hzero hone]
  rcases Nat.lt_or_ge (parts (quantilePosition ordered.size q)).below ordered.size with hlo | hlo
  · refine ⟨_, h, Nat.le_refl _, ?_⟩
    rw [valueAt_of_lt hlo, valueAt_of_le h]
    rfl
  · refine ⟨_, hlo, Parts.below_le_above _, ?_⟩
    rw [valueAt_of_le hlo]
    rfl

/-- A quantile of some values is read past their end. -/
def PastEnd (n : Nat) (q : Float32) : Prop :=
  0 < n ∧ 0 ≤ q ∧ q ≤ 1 ∧ n ≤ (parts (quantilePosition n q)).above

/-- A quantile is found unless it is read past the end. -/
theorem interpolate_cases (ordered : Array Float32) (q : Float32) :
    (PastEnd ordered.size q ∧ ∃ fault, interpolate ordered q = .error (.fault fault)) ∨
      (¬ PastEnd ordered.size q ∧ ∃ x, interpolate ordered q = .ok x) := by
  by_cases hread : 0 < ordered.size ∧ 0 ≤ q ∧ q ≤ 1
  · obtain ⟨hpos, hzero, hone⟩ := hread
    rcases Nat.lt_or_ge (parts (quantilePosition ordered.size q)).above ordered.size with hhi | hhi
    · have hlo := (Parts.below_le_above (parts (quantilePosition ordered.size q))).trans_lt hhi
      refine .inr ⟨fun h => Nat.not_lt.mpr h.2.2.2 hhi, ?_⟩
      rw [interpolate_eq hpos hzero hone, valueAt_of_lt hlo, valueAt_of_lt hhi]
      exact ⟨_, rfl⟩
    · obtain ⟨i, -, -, hfault⟩ := interpolate_past_end hpos hzero hone hhi
      exact .inl ⟨⟨hpos, hzero, hone, hhi⟩, _, hfault⟩
  · refine .inr ⟨fun h => hread ⟨h.1, h.2.1, h.2.2.1⟩, Scalar.nan, ?_⟩
    rw [interpolate, if_pos]
    simp only [Bool.or_eq_true, Bool.not_eq_true', Bool.and_eq_false_iff, decide_eq_false_iff_not,
      Array.isEmpty_iff_size_eq_zero]
    by_contra! h
    exact hread ⟨Nat.pos_of_ne_zero h.1, h.2⟩

/-- All quantiles are read among the values exactly when the last position does not round up.  Then
each comes from two elements; otherwise the positions pass the end by at most one in `0x1000000`,
and a quantile whose position does so has no value. -/
theorem positions_within_iff (hpos : 0 < n) (hcount : n ≤ maxLength) :
    ((∀ q : Float32, 0 ≤ q → q ≤ 1 → (parts (quantilePosition n q)).below ≤ n - 1 ∧
        (parts (quantilePosition n q)).above ≤ n - 1) ↔ keep24 (n - 1) ≤ n - 1) ∧
      (n ≤ 0x1000003 → keep24 (n - 1) ≤ n - 1) ∧
      (∀ q : Float32, 0 ≤ q → q ≤ 1 →
        (parts (quantilePosition n q)).below ≤ (parts (quantilePosition n q)).above ∧
          (parts (quantilePosition n q)).above ≤ keep24 (n - 1) ∧
          keep24 (n - 1) ≤ n - 1 + (n - 1) / 0x1000000) ∧
      ∀ ordered : Array Float32, ordered.size = n → ∀ q : Float32, 0 ≤ q → q ≤ 1 →
        (keep24 (n - 1) ≤ n - 1 → ∃ lo hi : Fin ordered.size,
          lo = (parts (quantilePosition n q)).below ∧ hi = (parts (quantilePosition n q)).above ∧
            interpolate ordered q = .ok (ordered[lo] + (ordered[hi] - ordered[lo]) *
              (quantilePosition n q - Float32.ofNat lo))) ∧
        (n ≤ (parts (quantilePosition n q)).above → ∃ i, n ≤ i ∧
          interpolate ordered q = .error (.fault (.outOfBounds i n))) := by
  refine ⟨⟨fun h => ?_, fun h q hzero hone => ?_⟩, fun h => keep24_le (by omega),
    fun q hzero hone => ⟨Parts.below_le_above _, above_position_le hcount hzero hone,
      keep24_le_add (n - 1)⟩, ?_⟩
  · exact (keep24_le_above hcount).trans (h 1 (by decide +kernel) (by decide +kernel)).2
  · have habove := (above_position_le hcount hzero hone).trans h
    exact ⟨(Parts.below_le_above _).trans habove, habove⟩
  · rintro ordered rfl q hzero hone
    refine ⟨fun h => ?_, fun h => ?_⟩
    · have habove := (above_position_le hcount hzero hone).trans h
      have hbelow := Parts.below_le_above (parts (quantilePosition ordered.size q))
      have hlo : (parts (quantilePosition ordered.size q)).below < ordered.size := by omega
      have hhi : (parts (quantilePosition ordered.size q)).above < ordered.size := by omega
      refine ⟨⟨_, hlo⟩, ⟨_, hhi⟩, rfl, rfl, ?_⟩
      rw [interpolate_eq hpos hzero hone, valueAt_of_lt hlo, valueAt_of_lt hhi]
      rfl
    · obtain ⟨i, hi, -, hfault⟩ := interpolate_past_end hpos hzero hone h
      exact ⟨i, hi, hfault⟩

theorem positions_within_longest : 0 < 0x1000003 ∧ 0x1000003 ≤ maxLength ∧
    ∀ q : Float32, 0 ≤ q → q ≤ 1 → (parts (quantilePosition 0x1000003 q)).below ≤ 0x1000002 ∧
      (parts (quantilePosition 0x1000003 q)).above ≤ 0x1000002 := by
  have hpos : 0 < 0x1000003 := by decide
  have hcount : 0x1000003 ≤ maxLength := by decide
  obtain ⟨hiff, hshort, -⟩ := positions_within_iff hpos hcount
  exact ⟨hpos, hcount, hiff.mpr (hshort (Nat.le_refl _))⟩

/-- One element more, and the quantile of one is read past the end, where nothing is. -/
theorem positions_past_end :
    Arrangement.joinShape [⟨0x1000000, 1⟩, ⟨4, 1⟩] = .ok ⟨0x1000004, 1⟩ ∧
      (0 : Float32) ≤ 1 ∧ (1 : Float32) ≤ 1 ∧
      (parts (quantilePosition 0x1000004 1)).below = 0x1000004 ∧
      (parts (quantilePosition 0x1000004 1)).above = 0x1000004 ∧
      ∀ ordered : Array Float32, ordered.size = 0x1000004 →
        interpolate ordered 1 = .error (.fault (.outOfBounds 0x1000004 0x1000004)) := by
  have hzero : (0 : Float32) ≤ 1 := by decide +kernel
  have hone : (1 : Float32) ≤ 1 := by decide +kernel
  have hbelow : (parts (quantilePosition 0x1000004 1)).below = 0x1000004 := by decide +kernel
  have habove : (parts (quantilePosition 0x1000004 1)).above = 0x1000004 := by decide +kernel
  refine ⟨rfl, hzero, hone, hbelow, habove, fun ordered hsize => ?_⟩
  rw [interpolate_eq (by omega) hzero hone, hsize, hbelow, valueAt_of_le (by omega), hsize]
  rfl

end Builtin.Statistics

end VectorScript
