import Mathlib
import VectorScript.Proofs.ScalarText

/-!
# The total order of scalars

All bit patterns of scalars stand in one order, by rank.  It is total and transitive, which is what
sorting asks for, and two patterns never share a rank.  The bits below the sign count the magnitude
of a number up from zero, first by its exponent and then by its mantissa, so a smaller number has a
smaller rank (`Scalar.rank_lt_of_lt`).
-/

namespace VectorScript.Scalar

open Float.Model.UnpackedFloat Float.Model.Format

variable {x y : Float32}

/-! ### Magnitudes -/

/-- What the bits `g` below the sign `s` say: zero, a finite number by its exponent and mantissa, or
infinity. -/
inductive MagnitudeBits (s : Sign) (g : Nat) : Float.Model.UnpackedFloat → Prop
  | zero : g = 0 → MagnitudeBits s g (.zero s)
  | finite (m : Nat) (e : Int) (hm : 0 < m) : (g : Int) = (e + 149) * 0x800000 + m →
      m < 0x1000000 → -149 ≤ e → e = -149 ∨ 0x800000 ≤ m → g < 0x7f800000 →
      MagnitudeBits s g (.finite s m e hm)
  | infinity : g = 0x7f800000 → MagnitudeBits s g (.infinity s)

theorem magnitudeBits_unpack {b : BitVec 32} (h : (unpack binary32 b).isNaN = false) :
    MagnitudeBits (.ofBitVec (@unpackSign binary32 b)) (b.toNat % 0x80000000)
      (unpack binary32 b) := by
  have hexponent := toNat_unpackExponent b
  have hmantissa := toNat_unpackMantissa b
  have hones : (-1#8 : BitVec 8).toNat = 0xff := rfl
  have hlt : (@unpackMantissa binary32 b).toNat < 0x800000 := (@unpackMantissa binary32 b).isLt
  rw [unpack] at h ⊢
  dsimp only at h ⊢
  split_ifs at h ⊢ with htop hm hzero hm
  · rw [htop, hones] at hexponent
    rw [hm] at hmantissa
    change 0 = _ at hmantissa
    exact .infinity (by omega)
  · cases h
  · rw [hzero] at hexponent
    rw [hm] at hmantissa
    change 0 = _ at hexponent
    change 0 = _ at hmantissa
    exact .zero (by omega)
  · -- below the normal numbers the exponent stays what it is for the least of them
    rw [hzero] at hexponent ⊢
    change 0 = _ at hexponent
    have he : ((0#8 : BitVec 8).toNat : Int) - (127 + 23) + 1 = -149 := rfl
    refine .finite _ _ _ ?_ (by omega) (Int.le_of_eq he.symm) (.inl he) (by omega)
    show ((b.toNat % 0x80000000 : Nat) : Int) =
      (((0#8 : BitVec 8).toNat : Int) - (127 + 23) + 1 + 149) * 0x800000 + _
    rw [he]
    omega
  · have hm : (1#1 ++ @unpackMantissa binary32 b).toNat = 0x800000 + b.toNat % 0x800000 := by
      rw [BitVec.toNat_append, ← Nat.shiftLeft_add_eq_or_of_lt hlt, hmantissa]
      rfl
    have hpos : (@unpackExponent binary32 b).toNat ≠ 0 := fun heq =>
      hzero (BitVec.eq_of_toNat_eq heq)
    have hfinite : (@unpackExponent binary32 b).toNat ≠ 0xff := fun heq =>
      htop (BitVec.eq_of_toNat_eq heq)
    have he : ((@unpackExponent binary32 b).toNat : Int) - (binary32.exponentBias + 23) =
        (b.toNat / 0x800000 % 0x100 : Nat) - 150 := by
      rw [hexponent, exponentBias_binary32]
      omega
    refine .finite _ _ _ ?_ ?_ ?_ (.inr ?_) (by omega)
    · show ((b.toNat % 0x80000000 : Nat) : Int) =
        (((@unpackExponent binary32 b).toNat : Int) - (binary32.exponentBias + 23) + 149) *
          0x800000 + _
      rw [he, hm]
      omega
    · rw [hm]
      omega
    · show -149 ≤ ((@unpackExponent binary32 b).toNat : Int) - (binary32.exponentBias + 23)
      omega
    · rw [hm]
      omega

/-! ### Ranks -/

/-- The rank of a magnitude with a sign. -/
def signedRank (s : Sign) (g : Nat) : Int :=
  match s with
  | .positive => g
  | .negative => -1 - g

theorem rank_eq_signedRank (x : Float32) :
    patternRank x.toBits = signedRank (.ofBitVec (@unpackSign binary32 x.toBits.toBitVec))
      (x.toBits.toNat % 0x80000000) := by
  have hlt : x.toBits.toNat < 0x100000000 := x.toBits.toNat_lt
  have hsign := toNat_unpackSign x.toBits.toBitVec
  change _ = x.toBits.toNat / 0x80000000 at hsign
  unfold patternRank Sign.ofBitVec
  split_ifs with hbits hpositive hpositive
  · show (x.toBits.toNat : Int) = (x.toBits.toNat % 0x80000000 : Nat)
    omega
  · refine absurd (BitVec.eq_of_toNat_eq (hsign.trans ?_)) hpositive
    show _ = 0
    omega
  · rw [hpositive] at hsign
    change 0 = _ at hsign
    omega
  · show 0x7fffffff - (x.toBits.toNat : Int) = -1 - (x.toBits.toNat % 0x80000000 : Nat)
    omega

theorem signedRank_lt_of_lt {s s' : Sign} {g g' : Nat} {u u' : Float.Model.UnpackedFloat}
    (h : MagnitudeBits s g u) (h' : MagnitudeBits s' g' u') (hlt : u.lt u') :
    signedRank s g < signedRank s' g' := by
  change (u.compare u' == some .lt) = true at hlt
  rw [beq_iff_eq] at hlt
  -- only finite numbers of one sign are compared by their exponents and mantissas
  cases h with
  | finite m e hm hcode hsize he hnormal hfinite =>
    cases h' with
    | finite m' e' hm' hcode' hsize' he' hnormal' hfinite' =>
      cases s <;> cases s' <;> rw [Float.Model.UnpackedFloat.compare, Option.some.injEq] at hlt <;>
        simp only [signedRank]
      · rw [Ordering.swap_eq_lt, Ordering.then_eq_gt, compare_gt_iff_gt, compare_eq_iff_eq,
          compare_gt_iff_gt] at hlt
        omega
      · omega
      · cases hlt
      · rw [Ordering.then_eq_lt, compare_lt_iff_lt, compare_eq_iff_eq, compare_lt_iff_lt] at hlt
        omega
    | _ =>
      cases s <;> cases s' <;>
        simp [Float.Model.UnpackedFloat.compare, signedRank] at hlt ⊢ <;> omega
  | _ =>
    cases h' <;> cases s <;> cases s' <;>
      simp [Float.Model.UnpackedFloat.compare, signedRank] at hlt ⊢ <;> omega

/-- The smaller of two numbers has the smaller rank. -/
theorem rank_lt_of_lt (h : x < y) : patternRank x.toBits < patternRank y.toBits := by
  replace h : (unpack binary32 x.toBits.toBitVec).lt (unpack binary32 y.toBits.toBitVec) :=
    of_decide_eq_true h
  have hx : (unpack binary32 x.toBits.toBitVec).isNaN = false := by
    cases hu : unpack binary32 x.toBits.toBitVec with
    | notANumber =>
      rw [hu] at h
      cases h
    | _ => rfl
  have hy : (unpack binary32 y.toBits.toBitVec).isNaN = false := by
    cases hu : unpack binary32 y.toBits.toBitVec with
    | notANumber =>
      rw [hu] at h
      cases hv : unpack binary32 x.toBits.toBitVec <;> rw [hv] at h <;> cases h
    | _ => rfl
  rw [rank_eq_signedRank, rank_eq_signedRank]
  exact signedRank_lt_of_lt (magnitudeBits_unpack hx) (magnitudeBits_unpack hy) h

/-! ### The order -/

theorem patternPrecedes_iff {a b : UInt32} :
    patternPrecedes a b ↔ patternRank a ≤ patternRank b := by
  simp [patternPrecedes]

theorem patternPrecedes_trans (a b c : UInt32) (hab : patternPrecedes a b)
    (hbc : patternPrecedes b c) : patternPrecedes a c :=
  patternPrecedes_iff.mpr (Int.le_trans (patternPrecedes_iff.mp hab) (patternPrecedes_iff.mp hbc))

theorem patternPrecedes_total (a b : UInt32) : patternPrecedes a b || patternPrecedes b a := by
  rw [Bool.or_eq_true, patternPrecedes_iff, patternPrecedes_iff]
  exact Int.le_total _ _

/-- Different patterns have different ranks. -/
theorem patternRank_injective : Function.Injective patternRank := by
  intro a b h
  have ha : a.toNat < 0x100000000 := a.toNat_lt
  have hb : b.toNat < 0x100000000 := b.toNat_lt
  unfold patternRank at h
  split_ifs at h
  all_goals exact UInt32.toNat_inj.mp (by omega)

theorem not_lt_of_precedes (h : precedes x y) : ¬ y < x := by
  intro hlt
  have hle := patternPrecedes_iff.mp h
  have := rank_lt_of_lt hlt
  omega

/-- The zeros are one number and have two ranks. -/
example : precedes (-0) 0 ∧ ¬ precedes 0 (-0) := by decide +kernel

/-- Patterns that are no numbers stand below and above all others, by their sign. -/
example : patternPrecedes 0xffc00000 0xff800000 ∧ patternPrecedes 0x7f800000 0x7fc00000 := by
  decide

end VectorScript.Scalar
