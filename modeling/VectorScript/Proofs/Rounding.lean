import VectorScript.Proofs.TotalOrder

/-!
# Rounding to a scalar

The operations on scalars work out an exact number `m · 2 ^ e` and round it: 24 bits are kept, and a
tie goes to the even neighbour.  Exact numbers are compared as multiples of the least positive
scalar, so that rounding is an operation on natural numbers.

* `Scalar.nearestEven`: rounding of a quotient by a power of two.
* `Scalar.Fits`, `Scalar.fits_round`: what comes out of rounding is a finite scalar unless it is too
  large, and its value is the rounded one.
* `Scalar.units_mul_le`: a product with a number from zero to one does not exceed the other factor.
* `Scalar.units_ofNat`: a whole number as a scalar is the number rounded to 24 bits.
-/

namespace VectorScript.Scalar

open Float.Model (UnpackedFloat totalExponent)
open Float.Model.UnpackedFloat Float.Model.Format

/-! ### Rounding to whole numbers -/

/-- `m / 2 ^ k` rounded to a whole number; a tie goes to the even neighbour. -/
def nearestEven (m k : Nat) : Nat :=
  let kept := m / 2 ^ k
  let rest := m % 2 ^ k
  if 2 ^ k < 2 * rest ∨ 2 * rest = 2 ^ k ∧ kept % 2 = 1 then kept + 1 else kept

theorem nearestEven_zero (m : Nat) : nearestEven m 0 = m := by
  simp [nearestEven, Nat.mod_one]

/-- A whole number that is not exceeded before rounding is not exceeded after it. -/
theorem nearestEven_le {m k b : Nat} (h : m ≤ b * 2 ^ k) : nearestEven m k ≤ b := by
  have hpos : 0 < 2 ^ k := Nat.two_pow_pos k
  have hkept : m / 2 ^ k ≤ b := Nat.div_le_of_le_mul (by rwa [Nat.mul_comm])
  unfold nearestEven
  dsimp only
  split_ifs with hup
  · -- what is rounded up has a rest, so it lies below the bound
    have hne : m / 2 ^ k ≠ b := by
      rintro rfl
      have hsum := Nat.div_add_mod' m (2 ^ k)
      omega
    omega
  · exact hkept

theorem div_le_nearestEven (m k : Nat) : m / 2 ^ k ≤ nearestEven m k := by
  unfold nearestEven
  dsimp only
  split_ifs <;> omega

theorem nearestEven_mul (m k j : Nat) : nearestEven (m * 2 ^ j) (k + j) = nearestEven m k := by
  have hpos : 0 < 2 ^ j := Nat.two_pow_pos j
  simp only [nearestEven, Nat.pow_add, Nat.mul_div_mul_right _ _ hpos, Nat.mul_mod_mul_right,
    ← Nat.mul_assoc, Nat.mul_lt_mul_right hpos, Nat.mul_left_inj (Nat.ne_of_gt hpos)]

theorem nearestEven_mul_le (m k : Nat) : nearestEven m k * 2 ^ k ≤ m + 2 ^ k / 2 := by
  have hsum := Nat.div_add_mod' m (2 ^ k)
  unfold nearestEven
  dsimp only
  split_ifs with hup
  · rw [Nat.add_mul, Nat.one_mul]
    omega
  · omega

/-- Shifting keeps the bit after the mantissa and whether anything stands behind it. -/
theorem shift_exact (m k : Nat) : ExtendedMantissa.ofMantissaAndAccuracy m .exact >>> k =
    ⟨m / 2 ^ k, decide (2 ^ k ≤ 2 * (m % 2 ^ k)), decide (2 * (m % 2 ^ k) % 2 ^ k ≠ 0)⟩ := by
  induction k with
  | zero =>
    simp [ExtendedMantissa.ofMantissaAndAccuracy, Nat.mod_one, HShiftRight.hShiftRight, Nat.repeat]
  | succ k ih =>
    have hpos : 0 < 2 ^ k := Nat.two_pow_pos k
    have hlt : m % 2 ^ k < 2 ^ k := Nat.mod_lt m hpos
    have hrest : m % 2 ^ (k + 1) = m % 2 ^ k + 2 ^ k * (m / 2 ^ k % 2) := by
      rw [Nat.pow_succ, Nat.mod_mul]
    have hsticky : 2 * (m % 2 ^ (k + 1)) % 2 ^ (k + 1) = 2 * (m % 2 ^ k) := by
      rw [hrest, Nat.mul_add, ← Nat.mul_assoc, Nat.pow_succ, Nat.mul_comm _ 2,
        Nat.add_mul_mod_self_left]
      exact Nat.mod_eq_of_lt (by omega)
    change (ExtendedMantissa.ofMantissaAndAccuracy m .exact >>> k).shiftRightOne = _
    rw [ih, ExtendedMantissa.shiftRightOne, hsticky]
    congr 1
    · rw [Nat.div_div_eq_div_mul, Nat.pow_succ]
    · rcases Nat.mod_two_eq_zero_or_one (m / 2 ^ k) with hbit | hbit
      · rw [hbit, decide_eq_false (by rw [hrest, hbit, Nat.pow_succ]; omega)]
        rfl
      · rw [hbit, decide_eq_true (by rw [hrest, hbit, Nat.pow_succ]; omega)]
        rfl
    · rw [← Bool.decide_or, decide_eq_decide]
      by_cases hsmall : 2 * (m % 2 ^ k) < 2 ^ k
      · rw [Nat.mod_eq_of_lt hsmall]
        omega
      · omega

theorem roundedMantissa_shift (m k : Nat) :
    (ExtendedMantissa.ofMantissaAndAccuracy m .exact >>> k).roundedMantissa = nearestEven m k := by
  have hpos : 0 < 2 ^ k := Nat.two_pow_pos k
  have hlt : m % 2 ^ k < 2 ^ k := Nat.mod_lt m hpos
  rw [shift_exact, ExtendedMantissa.roundedMantissa, nearestEven]
  dsimp only
  rcases Nat.lt_trichotomy (2 * (m % 2 ^ k)) (2 ^ k) with h | h | h
  · rw [Nat.mod_eq_of_lt h, if_neg (by omega), decide_eq_false (by omega)]
    cases decide (2 * (m % 2 ^ k) ≠ 0) <;> rfl
  · rw [h, Nat.mod_self, decide_eq_true (Nat.le_refl _)]
    simp only [Accuracy.roundToNearestEven, ExtendedMantissa.accuracy, ne_eq, not_true_eq_false,
      decide_false, lt_self_iff_false, true_and, false_or]
    split_ifs <;> omega
  · have hmod : 2 * (m % 2 ^ k) % 2 ^ k = 2 * (m % 2 ^ k) - 2 ^ k := by
      rw [Nat.mod_eq_sub_mod (Nat.le_of_lt h)]
      exact Nat.mod_eq_of_lt (by omega)
    rw [hmod, if_pos (.inl h), decide_eq_true (Nat.le_of_lt h), decide_eq_true (by omega)]
    rfl

/-! ### Rounding to a scalar -/

/-- The exponent at which `m · 2 ^ e` is rounded: 24 bits are kept, and none below the least
positive scalar. -/
def roundingExponent (m : Nat) (e : Int) : Int := max (m.log2 + e - 23) (-149)

theorem targetExponent_eq (m : Nat) (e : Int) :
    binary32.targetExponent (totalExponent m e) = roundingExponent m e := by
  show max ((m.log2 : Int) + 1 + e - (24 : Nat)) (-149) = max (m.log2 + e - 23) (-149)
  omega

/-- The absolute value of a finite number in units of the least positive scalar. -/
def unitsOf : UnpackedFloat → Nat
  | .finite _ m e _ => m * 2 ^ (e + 149).toNat
  | _ => 0

@[simp] theorem unitsOf_zero (s : Sign) : unitsOf (.zero s) = 0 := rfl

/-- The forms of finite scalars. -/
def Fits (u : UnpackedFloat) : Prop := ∃ s, ∃ g < 0x7f800000, MagnitudeBits s g u

theorem fits_zero (s : Sign) : Fits (.zero s) := ⟨s, 0, by decide, .zero rfl⟩

theorem fits_finite {s : Sign} {m : Nat} {e : Int} (hm : 0 < m) (hsize : m < 0x1000000)
    (hlow : -149 ≤ e) (hhigh : e ≤ 104) (hnormal : e = -149 ∨ 0x800000 ≤ m) :
    Fits (.finite s m e hm) := by
  have hg : ((e + 149) * 0x800000 + m).toNat < 0x7f800000 := by omega
  exact ⟨s, _, hg, .finite m e hm (by omega) hsize hlow hnormal hg⟩

theorem Fits.bounds {s : Sign} {m : Nat} {e : Int} {hm : 0 < m} (h : Fits (.finite s m e hm)) :
    m < 0x1000000 ∧ -149 ≤ e ∧ e ≤ 104 ∧ (e = -149 ∨ 0x800000 ≤ m) := by
  obtain ⟨s', g, hg, hbits⟩ := h
  cases hbits with
  | finite _ _ _ hcode hsize hlow hnormal _ => exact ⟨hsize, hlow, by omega, hnormal⟩

theorem Fits.zero_or_finite {u : UnpackedFloat} (h : Fits u) :
    (∃ s, u = .zero s) ∨ ∃ s m e hm, u = .finite s m e hm := by
  obtain ⟨s, g, hg, hbits⟩ := h
  cases hbits with
  | zero _ => exact .inl ⟨s, rfl⟩
  | finite m e hm => exact .inr ⟨s, m, e, hm, rfl⟩
  | infinity htop => omega

theorem shiftToTargetExponent_exact (m : Nat) (e : Int) :
    shiftToTargetExponent binary32 m e .exact =
      (ExtendedMantissa.ofMantissaAndAccuracy m .exact >>> (roundingExponent m e - e).toNat,
        e + (roundingExponent m e - e).toNat) := by
  rw [shiftToTargetExponent, targetExponent_eq]
  rfl

theorem log2_scaled {m : Nat} (hm : 0 < m) (j : Nat) : (m * 2 ^ j).log2 = m.log2 + j := by
  induction j with
  | zero => simp
  | succ j ih =>
    have hne : m * 2 ^ j ≠ 0 := Nat.ne_of_gt (Nat.mul_pos hm (Nat.two_pow_pos j))
    rw [Nat.pow_succ', Nat.mul_left_comm, Nat.log2_two_mul hne, ih, Nat.add_assoc]

section Round

variable {m : Nat} {e : Int}

/-- The mantissa of `m · 2 ^ e` after rounding.  It may need one bit more than a mantissa has. -/
def roundedMantissa (m : Nat) (e : Int) : Nat := nearestEven m (roundingExponent m e - e).toNat

theorem roundedMantissa_le (he : e ≤ roundingExponent m e) : roundedMantissa m e ≤ 0x1000000 := by
  apply nearestEven_le
  have hlog : m.log2 + 1 ≤ 24 + (roundingExponent m e - e).toNat := by
    unfold roundingExponent at he ⊢
    omega
  calc m ≤ 2 ^ (m.log2 + 1) := Nat.le_of_lt Nat.lt_log2_self
    _ ≤ 2 ^ (24 + (roundingExponent m e - e).toNat) := Nat.pow_le_pow_right Nat.two_pos hlog
    _ = 0x1000000 * 2 ^ (roundingExponent m e - e).toNat := Nat.pow_add 2 24 _

theorem le_roundedMantissa (hm : 0 < m) (he : e ≤ roundingExponent m e)
    (ht : roundingExponent m e ≠ -149) : 0x800000 ≤ roundedMantissa m e := by
  have hlog : 23 + (roundingExponent m e - e).toNat = m.log2 := by
    unfold roundingExponent at he ht ⊢
    omega
  refine Nat.le_trans ?_ (div_le_nearestEven _ _)
  rw [Nat.le_div_iff_mul_le (Nat.two_pow_pos _)]
  calc 0x800000 * 2 ^ (roundingExponent m e - e).toNat = 2 ^ m.log2 := by
        rw [← hlog, Nat.pow_add]
    _ ≤ m := Nat.log2_self_le (Nat.ne_of_gt hm)

theorem roundWithAccuracy_exact (he : e ≤ roundingExponent m e) (s : Sign) :
    roundWithAccuracy binary32 s m e .exact =
      let r := roundedMantissa m e
      let k := (roundingExponent r (roundingExponent m e) - roundingExponent m e).toNat
      if h : r / 2 ^ k = 0 then .zero s
      else .finite s (r / 2 ^ k) (roundingExponent m e + k) (Nat.pos_of_ne_zero h) := by
  have hsum : e + ((roundingExponent m e - e).toNat : Int) = roundingExponent m e := by omega
  rw [roundWithAccuracy]
  simp only [shiftToTargetExponent_exact, hsum, roundedMantissa_shift]
  simp only [shift_exact]
  rfl

/-- Rounding gives a finite scalar, unless the result is too large. -/
theorem fits_round (hm : 0 < m) (he : e ≤ roundingExponent m e)
    (hfit : roundingExponent m e < 104 ∨
      roundingExponent m e = 104 ∧ roundedMantissa m e < 0x1000000) (s : Sign) :
    Fits (roundWithAccuracy binary32 s m e .exact) ∧
      unitsOf (roundWithAccuracy binary32 s m e .exact) =
        roundedMantissa m e * 2 ^ (roundingExponent m e + 149).toNat := by
  have hle := roundedMantissa_le he
  have hge := le_roundedMantissa hm he
  have hlow : -149 ≤ roundingExponent m e := Int.le_max_right _ _
  rw [roundWithAccuracy_exact he]
  generalize roundedMantissa m e = r at *
  generalize roundingExponent m e = t at *
  dsimp only
  rcases Nat.lt_or_eq_of_le hle with hlt | rfl
  · have hk : (roundingExponent r t - t).toNat = 0 := by
      have hlog : r.log2 ≤ 23 := by
        by_cases hr : r = 0
        · rw [hr]
          decide
        · exact Nat.le_of_lt_succ ((Nat.log2_lt hr).mpr hlt)
      unfold roundingExponent
      omega
    simp only [hk, Nat.pow_zero, Nat.div_one, Int.natCast_zero, Int.add_zero]
    split_ifs with hzero
    · rw [hzero, Nat.zero_mul]
      exact ⟨fits_zero s, rfl⟩
    · exact ⟨fits_finite _ hlt hlow (by omega) (by omega), rfl⟩
  · have hk : (roundingExponent 0x1000000 t - t).toNat = 1 := by
      have hlog : (0x1000000 : Nat).log2 = 24 := by decide
      rw [roundingExponent, hlog]
      omega
    simp only [hk]
    refine ⟨fits_finite _ (by decide) (by omega) (by omega) (.inr (by decide)), ?_⟩
    -- the carry moves from the mantissa into the exponent
    have hsum : (t + 1 + 149).toNat = (t + 149).toNat + 1 := by omega
    show 0x1000000 / 2 ^ 1 * 2 ^ (t + 1 + 149).toNat = _
    rw [hsum, Nat.pow_succ']
    omega

/-- The value of a scalar is not changed by rounding, however it is written. -/
theorem round_scaled (j : Nat) {hm : 0 < m} {s' : Sign} (hfits : Fits (.finite s' m e hm))
    (s : Sign) :
    Fits (roundWithAccuracy binary32 s (m * 2 ^ j) (e - j) .exact) ∧
      unitsOf (roundWithAccuracy binary32 s (m * 2 ^ j) (e - j) .exact) =
        m * 2 ^ (e + 149).toNat := by
  obtain ⟨hsize, hlow, hhigh, hnormal⟩ := hfits.bounds
  have hexponent : roundingExponent (m * 2 ^ j) (e - j) = e := by
    have hlog := log2_scaled hm j
    have hle : m.log2 < 24 := (Nat.log2_lt (Nat.ne_of_gt hm)).mpr hsize
    have hge : 0x800000 ≤ m → 23 ≤ m.log2 := fun h => (Nat.le_log2 (Nat.ne_of_gt hm)).mpr h
    rw [roundingExponent, hlog]
    omega
  have hmantissa : roundedMantissa (m * 2 ^ j) (e - j) = m := by
    have hshift : (e - (e - j)).toNat = 0 + j := by omega
    rw [roundedMantissa, hexponent, hshift, nearestEven_mul, nearestEven_zero]
  have he : e - j ≤ roundingExponent (m * 2 ^ j) (e - j) := by omega
  have h := fits_round (Nat.mul_pos hm (Nat.two_pow_pos j)) he (by omega) s
  rwa [hexponent, hmantissa] at h

/-- Rounding does not exceed a scalar that was not exceeded before. -/
theorem round_le {a j : Nat} {d : Int} (hm : 0 < m) (h : m ≤ a * 2 ^ j) (hd : e + j = d)
    (ha : a < 0x1000000) (hlow : -149 ≤ d) (hhigh : d ≤ 104) (he : e ≤ roundingExponent m e)
    (s : Sign) :
    Fits (roundWithAccuracy binary32 s m e .exact) ∧
      unitsOf (roundWithAccuracy binary32 s m e .exact) ≤ a * 2 ^ (d + 149).toNat := by
  have htop : roundingExponent m e ≤ d := by
    have hlog : m.log2 < 24 + j := by
      rw [Nat.log2_lt (Nat.ne_of_gt hm), Nat.pow_add]
      calc m ≤ a * 2 ^ j := h
        _ < 2 ^ 24 * 2 ^ j := Nat.mul_lt_mul_of_pos_right ha (Nat.two_pow_pos j)
    unfold roundingExponent at he ⊢
    omega
  -- the bound is a whole number of steps at the exponent where the number is rounded
  have hr : roundedMantissa m e ≤ a * 2 ^ (d - roundingExponent m e).toNat := by
    apply nearestEven_le
    have hj : j = (d - roundingExponent m e).toNat + (roundingExponent m e - e).toNat := by omega
    rwa [Nat.mul_assoc, ← Nat.pow_add, ← hj]
  have hfit : roundingExponent m e < 104 ∨
      roundingExponent m e = 104 ∧ roundedMantissa m e < 0x1000000 := by
    by_cases hlt : roundingExponent m e < 104
    · exact .inl hlt
    · have hzero : (d - roundingExponent m e).toNat = 0 := by omega
      rw [hzero] at hr
      exact .inr (by omega)
  obtain ⟨hfits, hunits⟩ := fits_round hm he hfit s
  refine ⟨hfits, hunits.trans_le ?_⟩
  calc roundedMantissa m e * 2 ^ (roundingExponent m e + 149).toNat
      ≤ a * 2 ^ (d - roundingExponent m e).toNat * 2 ^ (roundingExponent m e + 149).toNat :=
        Nat.mul_le_mul_right _ hr
    _ = a * 2 ^ (d + 149).toNat := by
        have hlow' : -149 ≤ roundingExponent m e := Int.le_max_right _ _
        rw [Nat.mul_assoc, ← Nat.pow_add]
        congr 2
        omega

end Round

/-! ### Scalars that fit -/

theorem toNat_pack {s : Sign} {g : Nat} {u : UnpackedFloat} (h : MagnitudeBits s g u)
    (hg : g < 0x7f800000) : (pack binary32 u).toNat = s.toBitVec.toNat * 0x80000000 + g := by
  cases h with
  | zero hzero =>
    show (packComponents binary32 s 0 0).toNat = _
    simp [toNat_packComponents, hzero]
  | infinity htop => omega
  | finite m e hm hcode hsize hlow hnormal _ =>
    have hlog : m.log2 < 24 := (Nat.log2_lt (Nat.ne_of_gt hm)).mpr hsize
    have hle : 23 ≤ m.log2 ↔ 0x800000 ≤ m := Nat.le_log2 (Nat.ne_of_gt hm)
    have hsmall : ¬ 2 ^ 8 ≤ (e + (127 : Nat) + (23 : Nat)).toNat + 1 := by omega
    rw [pack, exponentBias_binary32, mantissaBits_binary32, if_neg hsmall]
    split_ifs with hfull
    · rw [toNat_packComponents, BitVec.toNat_ofNat, BitVec.toNat_ofNat]
      have hwidth : binary32.mantissaBitsWithoutImplicit = 23 := rfl
      rw [hwidth]
      omega
    · rw [toNat_packComponents, BitVec.toNat_ofNat, BitVec.toNat_ofNat]
      omega

theorem MagnitudeBits.unique {s : Sign} {g : Nat} {u v : UnpackedFloat} (hu : MagnitudeBits s g u)
    (hv : MagnitudeBits s g v) : u = v := by
  cases hu with
  | zero hzero =>
    cases hv with
    | zero => rfl
    | finite | infinity => omega
  | infinity htop =>
    cases hv with
    | infinity => rfl
    | finite | zero => omega
  | finite m e hm hcode hsize hlow hnormal hfinite =>
    cases hv with
    | zero | infinity => omega
    | finite m' e' hm' hcode' hsize' hlow' hnormal' hfinite' =>
      obtain rfl : e = e' := by omega
      obtain rfl : m = m' := by omega
      rfl

theorem unpack_pack {u : UnpackedFloat} (h : Fits u) :
    unpack binary32 (pack binary32 u) = u := by
  obtain ⟨s, g, hg, hu⟩ := h
  have hbits := toNat_pack hu hg
  have hsign := toNat_unpackSign (pack binary32 u)
  have hexponent := toNat_unpackExponent (pack binary32 u)
  have hlt : s.toBitVec.toNat < 2 := s.toBitVec.isLt
  have hfinite : (unpack binary32 (pack binary32 u)).isFinite := by
    rw [isFinite_unpack]
    intro heq
    rw [heq, hbits] at hexponent
    change 0xff = _ at hexponent
    omega
  have hnumber : (unpack binary32 (pack binary32 u)).isNaN = false := by
    cases hv : unpack binary32 (pack binary32 u) with
    | notANumber =>
      rw [hv] at hfinite
      cases hfinite
    | _ => rfl
  have hv := magnitudeBits_unpack hnumber
  have hmagnitude : (pack binary32 u).toNat % 0x80000000 = g := by omega
  have hs : Sign.ofBitVec (@unpackSign binary32 (pack binary32 u)) = s := by
    have heq : @unpackSign binary32 (pack binary32 u) = s.toBitVec := by
      apply BitVec.eq_of_toNat_eq
      omega
    rw [heq]
    cases s <;> rfl
  rw [hs, hmagnitude] at hv
  exact hv.unique hu

/-! ### Exact values -/

/-- The absolute value in units of the least positive scalar. -/
def Parts.units (p : Parts) : Nat := p.mantissa * 2 ^ (p.exponent + 149).toNat

namespace Parts

variable {p : Parts}

theorem denominator_pos (p : Parts) : 0 < p.denominator := Nat.two_pow_pos _

theorem units_mul_denominator (h : -149 ≤ p.exponent) :
    p.units * p.denominator = p.numerator * 2 ^ 149 := by
  have hsum : (p.exponent + 149).toNat + (-p.exponent).toNat = p.exponent.toNat + 149 := by omega
  show p.mantissa * 2 ^ _ * 2 ^ (-p.exponent).toNat = p.mantissa * 2 ^ p.exponent.toNat * 2 ^ 149
  rw [Nat.mul_assoc, Nat.mul_assoc, ← Nat.pow_add, ← Nat.pow_add, hsum]

theorem below_le_above (p : Parts) : p.below ≤ p.above := by
  have hpos := p.denominator_pos
  exact Nat.div_le_div_right (by omega)

theorem above_le_iff (h : -149 ≤ p.exponent) {k : Nat} : p.above ≤ k ↔ p.units ≤ k * 2 ^ 149 := by
  have hpos := p.denominator_pos
  calc p.above ≤ k ↔ p.numerator ≤ k * p.denominator := by
        rw [above, ← Nat.lt_succ_iff, Nat.div_lt_iff_lt_mul hpos, Nat.succ_mul]
        omega
    _ ↔ p.numerator * 2 ^ 149 ≤ k * p.denominator * 2 ^ 149 :=
        (Nat.mul_le_mul_right_iff (Nat.two_pow_pos 149)).symm
    _ ↔ p.units * p.denominator ≤ k * 2 ^ 149 * p.denominator := by
        rw [units_mul_denominator h, Nat.mul_right_comm]
    _ ↔ p.units ≤ k * 2 ^ 149 := Nat.mul_le_mul_right_iff hpos

end Parts

theorem exponent_parts (x : Float32) : -149 ≤ (parts x).exponent := by
  unfold parts
  dsimp only
  split_ifs <;> omega

section Values

variable {x y : Float32}

theorem magnitudeBits_of_isFinite (h : x.isFinite) :
    MagnitudeBits (.ofBitVec (@unpackSign binary32 x.toBits.toBitVec))
      (x.toBits.toNat % 0x80000000) x.toModel.unpack :=
  magnitudeBits_unpack (isNaN_of_isFinite h)

theorem fits_iff_isFinite : Fits x.toModel.unpack ↔ x.isFinite := by
  constructor
  · intro h
    show x.toModel.unpack.isFinite
    obtain ⟨s, hx⟩ | ⟨s, m, e, hm, hx⟩ := h.zero_or_finite <;> rw [hx] <;> rfl
  · intro h
    have htop := isFinite_iff.mp h
    refine ⟨_, _, ?_, magnitudeBits_of_isFinite h⟩
    generalize x.toBits.toNat = b at htop
    omega

theorem units_parts (h : x.isFinite) : (parts x).units = unitsOf x.toModel.unpack := by
  have hx := magnitudeBits_of_isFinite h
  have hlt : x.toBits.toNat < 0x100000000 := x.toBits.toNat_lt
  have htop := isFinite_iff.mp h
  generalize x.toModel.unpack = u at hx ⊢
  generalize hbits : x.toBits.toNat = b at hx hlt htop
  cases hx with
  | zero hzero =>
    have hmantissa : (parts x).mantissa = 0 := by
      have hb : b = 0 ∨ b = 0x80000000 := by omega
      simp only [parts, hbits]
      rcases hb with rfl | rfl <;> rfl
    rw [Parts.units, hmantissa, Nat.zero_mul, unitsOf_zero]
  | infinity hinfinity => omega
  | finite m e hm hcode hsize hlow hnormal hfinite =>
    have hmantissa : (parts x).mantissa = m := by
      simp only [parts, hbits]
      split_ifs <;> omega
    have hexponent : (parts x).exponent = e := by
      simp only [parts, hbits]
      split_ifs <;> omega
    rw [Parts.units, unitsOf, hmantissa, hexponent]

theorem units_of_pack {u : UnpackedFloat} (hx : x.toModel = .pack u) (hfits : Fits u) :
    x.isFinite ∧ (parts x).units = unitsOf u := by
  have hunpack : x.toModel.unpack = u := by
    rw [hx]
    exact unpack_pack hfits
  have hfinite : x.isFinite := fits_iff_isFinite.mp (by rwa [hunpack])
  exact ⟨hfinite, by rw [units_parts hfinite, hunpack]⟩

theorem unpack_one :
    (1 : Float32).toModel.unpack = .finite .positive 0x800000 (-23) (by decide) := by
  have hbits : (1 : Float32).toBits.toBitVec = 0x3f800000#32 := by decide +kernel
  show unpack binary32 (1 : Float32).toBits.toBitVec = _
  rw [hbits]
  rfl

theorem unpack_zero : (0 : Float32).toModel.unpack = .zero .positive := by
  have hbits : (0 : Float32).toBits.toBitVec = 0#32 := by decide +kernel
  show unpack binary32 (0 : Float32).toBits.toBitVec = _
  rw [hbits]
  rfl

theorem unpack_le (h : x ≤ y) : x.toModel.unpack.le y.toModel.unpack := of_decide_eq_true h

/-- The forms of the scalars from zero to one. -/
inductive AtMostOne : UnpackedFloat → Prop
  | zero (s : Sign) : AtMostOne (.zero s)
  | finite (m : Nat) (e : Int) (hm : 0 < m) : m ≤ 2 ^ (-e).toNat → e ≤ -23 →
      AtMostOne (.finite .positive m e hm)

theorem atMostOne_unpack {q : Float32} (hzero : 0 ≤ q) (hone : q ≤ 1) :
    AtMostOne q.toModel.unpack := by
  replace hzero := unpack_le hzero
  replace hone := unpack_le hone
  rw [unpack_zero] at hzero
  rw [unpack_one] at hone
  have hfits := (fits_iff_isFinite (x := q)).mpr
  change (q.toModel.unpack.isFinite → _) at hfits
  generalize q.toModel.unpack = u at hzero hone hfits ⊢
  cases u with
  | notANumber => cases hone
  | zero s => exact .zero s
  | infinity s =>
    cases s with
    | negative => cases hzero
    | positive => cases hone
  | finite s m e hm =>
    cases s with
    | negative => cases hzero
    | positive =>
      obtain ⟨hlt, -⟩ := (hfits rfl).bounds
      change ((compare e (-23)).then (compare m 0x800000)).isLE = true at hone
      rw [Ordering.isLE_iff_ne_gt, Ordering.then_eq_gt, compare_gt_iff_gt, compare_eq_iff_eq,
        compare_gt_iff_gt] at hone
      refine .finite m e hm ?_ (by omega)
      by_cases he : e = -23
      · subst he
        show m ≤ 0x800000
        omega
      · calc m ≤ 2 ^ 24 := Nat.le_of_lt hlt
          _ ≤ 2 ^ (-e).toNat := Nat.pow_le_pow_right Nat.two_pos (by omega)

theorem AtMostOne.mul_le {v u : UnpackedFloat} (hv : AtMostOne v) (hu : Fits u) :
    Fits (mul binary32 v u) ∧ unitsOf (mul binary32 v u) ≤ unitsOf u := by
  obtain ⟨s, rfl⟩ | ⟨s, m, e, hm, rfl⟩ := hu.zero_or_finite
  · cases hv <;> exact ⟨fits_zero _, Nat.le_refl 0⟩
  · cases hv with
    | zero s' => exact ⟨fits_zero _, Nat.zero_le _⟩
    | finite m' e' hm' hle he =>
      obtain ⟨hsize, hlow, hhigh, hnormal⟩ := hu.bounds
      have hpos : 0 < m' * m := Nat.mul_pos hm' hm
      have hexponent : e' + e ≤ roundingExponent (m' * m) (e' + e) := by
        have hlog : 0x800000 ≤ m → 23 ≤ (m' * m).log2 := fun h =>
          (Nat.le_log2 (Nat.ne_of_gt hpos)).mpr (h.trans (Nat.le_mul_of_pos_left m hm'))
        unfold roundingExponent
        omega
      have hbound : m' * m ≤ m * 2 ^ (-e').toNat := by
        rw [Nat.mul_comm m]
        exact Nat.mul_le_mul_right m hle
      exact round_le hpos hbound (by omega) hsize hlow hhigh hexponent _

/-- A product with a number from zero to one is no larger than the other factor. -/
theorem units_mul_le {q : Float32} (hzero : 0 ≤ q) (hone : q ≤ 1) (hx : x.isFinite) :
    (parts (q * x)).units ≤ (parts x).units := by
  obtain ⟨hfits, hunits⟩ :=
    (atMostOne_unpack hzero hone).mul_le (fits_iff_isFinite.mpr hx)
  obtain ⟨-, hvalue⟩ : _ ∧ (parts (q * x)).units = _ := units_of_pack rfl hfits
  rwa [hvalue, units_parts hx]

theorem Fits.one_mul {u : UnpackedFloat} (hu : Fits u) :
    Fits (mul binary32 (.finite .positive 0x800000 (-23) (by decide)) u) ∧
      unitsOf (mul binary32 (.finite .positive 0x800000 (-23) (by decide)) u) = unitsOf u := by
  obtain ⟨s, rfl⟩ | ⟨s, m, e, hm, rfl⟩ := hu.zero_or_finite
  · exact ⟨fits_zero _, rfl⟩
  · show Fits (roundWithAccuracy _ _ (0x800000 * m) (-23 + e) _) ∧
      unitsOf (roundWithAccuracy _ _ (0x800000 * m) (-23 + e) _) = _
    rw [Nat.mul_comm, Int.add_comm]
    exact round_scaled 23 hu _

theorem sign_mul_comm (s t : Sign) : s * t = t * s := by
  cases s <;> cases t <;> rfl

theorem mul_comm (x y : Float32) : x * y = y * x := by
  have hmul : mul binary32 x.toModel.unpack y.toModel.unpack =
      mul binary32 y.toModel.unpack x.toModel.unpack := by
    generalize x.toModel.unpack = u
    generalize y.toModel.unpack = v
    cases u <;> cases v <;> simp only [mul, sign_mul_comm, Nat.mul_comm, Int.add_comm]
  exact congrArg (fun u => Float32.ofModel (.pack u)) hmul

theorem units_one_mul (hx : x.isFinite) :
    (1 * x).isFinite ∧ (parts (1 * x)).units = (parts x).units := by
  obtain ⟨hfits, hunits⟩ := (fits_iff_isFinite.mpr hx).one_mul
  rw [← unpack_one] at hfits hunits
  rw [units_parts hx, ← hunits]
  exact units_of_pack rfl hfits

/-! ### Whole numbers -/

/-- Rounds to 24 significant bits; a tie goes to the even neighbour. -/
def keep24 (n : Nat) : Nat := nearestEven n (n.log2 - 23) * 2 ^ (n.log2 - 23)

theorem ofNat_of_lt {n : Nat} (h : n < 0x800000) :
    Float32.ofNat n = 1 * n.toUInt64.toFloat32 := by
  have hone : Float32.ofBits 0x3f800000 = 1 := by decide +kernel
  rw [mul_comm, ← hone]
  show Float32.ofScientific n false 0 = _
  rw [Float32.ofScientific, dif_pos ⟨h, Nat.zero_le _⟩]
  rfl

theorem units_toFloat32 {n : Nat} (hpos : 0 < n) (h : n < 0x800000) :
    n.toUInt64.toFloat32.isFinite ∧ (parts n.toUInt64.toFloat32).units = n * 2 ^ 149 := by
  have hlog : n.log2 < 23 := (Nat.log2_lt (Nat.ne_of_gt hpos)).mpr h
  obtain ⟨k, hk⟩ : ∃ k, k + n.log2 = 23 := ⟨23 - n.log2, by omega⟩
  -- the mantissa is first brought to its full 24 bits, which loses nothing
  have hmodel : n.toUInt64.toFloat32.toModel =
      .pack (roundWithAccuracy binary32 .positive (n * 2 ^ k) (0 - k) .exact) := by
    have hcast : n.toUInt64.toNat = n := by
      rw [Nat.toUInt64, UInt64.toNat_ofNat']
      omega
    have hshift : (0 - roundingExponent n 0).toNat = k := by
      unfold roundingExponent
      omega
    have hround : UnpackedFloat.ofNat binary32 n =
        UnpackedFloat.round binary32 .positive n 0 := by
      rw [UnpackedFloat.ofNat, ofInt, UnpackedFloat.normalize, Int.compare_eq_gt.mpr (by omega)]
      rfl
    show Float32.Model.pack (UnpackedFloat.ofNat binary32 n.toUInt64.toNat) = _
    rw [hcast, hround, UnpackedFloat.round, decreaseExponent, targetExponent_eq, hshift,
      Nat.shiftLeft_eq]
  have hm : 0 < n * 2 ^ k := Nat.mul_pos hpos (Nat.two_pow_pos k)
  have hfull : Fits (.finite .positive (n * 2 ^ k) (0 - k) hm) := by
    have hscaled : (n * 2 ^ k).log2 = 23 := by
      rw [log2_scaled hpos]
      omega
    obtain ⟨hge, hlt⟩ := (Nat.log2_eq_iff (Nat.ne_of_gt hm)).mp hscaled
    exact fits_finite hm hlt (by omega) (by omega) (.inr hge)
  obtain ⟨hfits, hunits⟩ := round_scaled 0 hfull .positive
  rw [Nat.pow_zero, Nat.mul_one, Int.natCast_zero, Int.sub_zero] at hfits hunits
  obtain ⟨hfinite, hvalue⟩ := units_of_pack hmodel hfits
  have hexponent : k + (0 - (k : Int) + 149).toNat = 149 := by omega
  exact ⟨hfinite, by rw [hvalue, hunits, Nat.mul_assoc, ← Nat.pow_add, hexponent]⟩

theorem ofNat_of_le {n : Nat} (h : 0x800000 ≤ n) : (Float32.ofNat n).toModel =
    .pack (roundWithAccuracy binary32 .positive (n * 2 ^ 24) (-24) .exact) := by
  have hlog : ¬ (0 : Int) < -((2 : Int) ^ binary32.exponentBits + n.log2) := by
    have hpow : (2 : Int) ^ binary32.exponentBits = 0x100 := rfl
    omega
  show (Float32.ofScientific n false 0).toModel = _
  rw [Float32.ofScientific, dif_neg (by omega)]
  show Float32.Model.ofScientific n 0 = _
  rw [Float32.Model.ofScientific, UnpackedFloat.ofScientific, dif_neg (by omega),
    if_neg (by decide), if_neg hlog, if_pos (by decide), mul, mantissaBits_binary32]
  have hten : 10 ^ Int.toNat 0 = 1 := rfl
  rw [Nat.shiftLeft_eq, hten, Nat.mul_one]
  rfl

theorem keep24_of_lt {n : Nat} (h : n < 0x1000000) : keep24 n = n := by
  have hlog : n.log2 - 23 = 0 := by
    rcases Nat.eq_zero_or_pos n with rfl | hpos
    · rfl
    · have hlt : n.log2 < 24 := (Nat.log2_lt (Nat.ne_of_gt hpos)).mpr h
      omega
  rw [keep24, hlog, nearestEven_zero, Nat.pow_zero, Nat.mul_one]

/-- A length is finite as a scalar, with the first 24 of its bits. -/
theorem units_ofNat {n : Nat} (h : n < 2 ^ 64) :
    (Float32.ofNat n).isFinite ∧ (parts (Float32.ofNat n)).units = keep24 n * 2 ^ 149 := by
  rcases Nat.eq_zero_or_pos n with rfl | hpos
  · decide +kernel
  rcases Nat.lt_or_ge n 0x800000 with hlt | hge
  · obtain ⟨hfinite, hunits⟩ := units_toFloat32 hpos hlt
    rw [ofNat_of_lt hlt, keep24_of_lt (by omega), ← hunits]
    exact units_one_mul hfinite
  · have hlow : 23 ≤ n.log2 := (Nat.le_log2 (Nat.ne_of_gt hpos)).mpr hge
    have hhigh : n.log2 < 64 := (Nat.log2_lt (Nat.ne_of_gt hpos)).mpr h
    have hexponent : roundingExponent (n * 2 ^ 24) (-24) = n.log2 - 23 := by
      rw [roundingExponent, log2_scaled hpos]
      omega
    have hmantissa : roundedMantissa (n * 2 ^ 24) (-24) = nearestEven n (n.log2 - 23) := by
      have hshift : ((n.log2 : Int) - 23 - -24).toNat = n.log2 - 23 + 24 := by omega
      rw [roundedMantissa, hexponent, hshift, nearestEven_mul]
    have he : -24 ≤ roundingExponent (n * 2 ^ 24) (-24) := by omega
    obtain ⟨hfits, hunits⟩ :=
      fits_round (Nat.mul_pos hpos (Nat.two_pow_pos 24)) he (.inl (by omega)) .positive
    obtain ⟨hfinite, hvalue⟩ := units_of_pack (ofNat_of_le hge) hfits
    have hsum : ((n.log2 : Int) - 23 + 149).toNat = n.log2 - 23 + 149 := by omega
    refine ⟨hfinite, ?_⟩
    rw [hvalue, hunits, hexponent, hmantissa, hsum, Nat.pow_add, keep24, Nat.mul_assoc]

end Values

end VectorScript.Scalar
