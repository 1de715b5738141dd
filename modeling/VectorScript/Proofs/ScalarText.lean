import Mathlib
import VectorScript.Scalar.Decimal

/-!
# Texts of finite scalars

Negation turns over the highest bit of a finite scalar and leaves the others alone, so a finite
scalar is a sign and a magnitude.  Its text is a sign before the text of its magnitude, and that is
digits, with at most one point among them.

* `Scalar.toBits_neg`: the bits of a negated scalar.
* `Scalar.magnitude`: a finite scalar without its sign.
* `Scalar.IsNumeral`: digits, or digits on both sides of a point.
* `Scalar.text_of_negative`, `Scalar.isNumeral_text`: the forms of texts.
-/

namespace VectorScript.Scalar

open Float.Model.UnpackedFloat Float.Model.Format

/-! ### Bits -/

section Bits

theorem toNat_packComponents (s : Sign) (e : BitVec 8) (m : BitVec 23) :
    (packComponents binary32 s e m).toNat =
      s.toBitVec.toNat * 0x80000000 + e.toNat * 0x800000 + m.toNat := by
  have he := e.isLt
  have hm := m.isLt
  rw [packComponents]
  simp only [BitVec.toNat_append]
  rw [← Nat.shiftLeft_add_eq_or_of_lt he, ← Nat.shiftLeft_add_eq_or_of_lt hm, Nat.shiftLeft_eq,
    Nat.shiftLeft_eq]
  omega

variable (b : BitVec 32)

theorem toNat_unpackMantissa : (@unpackMantissa binary32 b).toNat = b.toNat % 0x800000 := by
  simp [unpackMantissa]

theorem toNat_unpackExponent : (@unpackExponent binary32 b).toNat = b.toNat / 0x800000 % 0x100 := by
  simp [unpackExponent, Nat.shiftRight_eq_div_pow]

theorem toNat_unpackSign : (@unpackSign binary32 b).toNat = b.toNat / 0x80000000 := by
  have hlt := b.isLt
  simp [unpackSign, Nat.shiftRight_eq_div_pow]
  omega

theorem toNat_neg_sign :
    (-Sign.ofBitVec (@unpackSign binary32 b)).toBitVec.toNat = 1 - b.toNat / 0x80000000 := by
  rw [← toNat_unpackSign]
  generalize @unpackSign binary32 b = s
  revert s
  decide

end Bits

/-! ### Packing -/

theorem exponentBias_binary32 : binary32.exponentBias = 127 := rfl

theorem mantissaBits_binary32 : binary32.mantissaBits = 24 := rfl

/-- A number below the normal ones is packed with exponent zero. -/
theorem pack_subnormal (s : Sign) {m : BitVec 23} (hm : 0 < m.toNat) :
    pack binary32 (.finite s m.toNat (0 - (binary32.exponentBias + 23) + 1) hm) =
      packComponents binary32 s 0#8 m := by
  have hlog : m.toNat.log2 < 23 := (Nat.log2_lt (by omega)).mpr m.isLt
  rw [pack, exponentBias_binary32, mantissaBits_binary32, if_neg (by decide), if_neg (by omega),
    BitVec.ofNat_toNat, BitVec.setWidth_eq]

/-- A normal number is packed without its first bit. -/
theorem pack_normal (s : Sign) {e : BitVec 8} (he : e ≠ -1#8) {m : BitVec 23}
    (hm : 0 < (1#1 ++ m).toNat) :
    pack binary32 (.finite s (1#1 ++ m).toNat (e.toNat - (binary32.exponentBias + 23)) hm) =
      packComponents binary32 s e m := by
  have hlt := m.isLt
  have hmantissa : (1#1 ++ m).toNat = 0x800000 + m.toNat := by
    rw [BitVec.toNat_append, ← Nat.shiftLeft_add_eq_or_of_lt hlt]
    rfl
  have hlog : (0x800000 + m.toNat).log2 = 23 := by
    rw [Nat.log2_eq_iff (by omega)]
    omega
  have hwidth : BitVec.ofNat 23 (0x800000 + m.toNat) = m := by
    apply BitVec.eq_of_toNat_eq
    rw [BitVec.toNat_ofNat]
    omega
  have hbiased : ((e.toNat : Int) - ((127 : Nat) + 23) + (127 : Nat) + (23 : Nat)).toNat =
      e.toNat := by
    omega
  have hsmall : ¬ 2 ^ 8 ≤ e.toNat + 1 := by
    intro hle
    apply he
    apply BitVec.eq_of_toNat_eq
    have hlt := e.isLt
    simp
    omega
  rw [pack]
  simp only [hmantissa, hlog, exponentBias_binary32, mantissaBits_binary32]
  rw [hbiased, if_neg hsmall, if_pos trivial, hwidth, BitVec.ofNat_toNat, BitVec.setWidth_eq]

/-- Packing a negated scalar turns over its sign and nothing else. -/
theorem pack_neg_unpack {b : BitVec 32} (h : @unpackExponent binary32 b ≠ -1#8) :
    pack binary32 (unpack binary32 b).neg =
      packComponents binary32 (-.ofBitVec (@unpackSign binary32 b)) (@unpackExponent binary32 b)
        (@unpackMantissa binary32 b) := by
  rw [unpack]
  dsimp only
  rw [if_neg h]
  split_ifs with he hm
  · rw [he, hm]
    rfl
  · rw [he]
    exact pack_subnormal _ _
  · exact pack_normal _ h _

theorem isFinite_unpack (b : BitVec 32) :
    (unpack binary32 b).isFinite ↔ @unpackExponent binary32 b ≠ -1#8 := by
  rw [unpack]
  dsimp only
  split_ifs with he hm hzero hm
  · exact ⟨fun hfinite => Bool.noConfusion hfinite, fun hne => absurd he hne⟩
  · exact ⟨fun hfinite => Bool.noConfusion hfinite, fun hne => absurd he hne⟩
  · exact ⟨fun _ => he, fun _ => rfl⟩
  · exact ⟨fun _ => he, fun _ => rfl⟩
  · exact ⟨fun _ => he, fun _ => rfl⟩

/-! ### Finite scalars -/

variable {x y : Float32}

theorem isFinite_iff : x.isFinite ↔ x.toBits.toNat / 0x800000 % 0x100 ≠ 0xff := by
  have hexponent := toNat_unpackExponent x.toBits.toBitVec
  have hones : (-1#8 : BitVec 8).toNat = 0xff := rfl
  show (unpack binary32 x.toBits.toBitVec).isFinite ↔ _
  rw [isFinite_unpack, ne_eq, ← BitVec.toNat_inj, hexponent, hones]
  rfl

theorem isNaN_of_isFinite (h : x.isFinite) : x.isNaN = false := by
  change (unpack binary32 x.toBits.toBitVec).isFinite at h
  show (unpack binary32 x.toBits.toBitVec).isNaN = false
  cases hx : unpack binary32 x.toBits.toBitVec <;> simp_all [isFinite, isNaN]

theorem isInf_of_isFinite (h : x.isFinite) : x.isInf = false := by
  change (unpack binary32 x.toBits.toBitVec).isFinite at h
  show (unpack binary32 x.toBits.toBitVec).isInf = false
  cases hx : unpack binary32 x.toBits.toBitVec <;> simp_all [isFinite, isInf]

theorem eq_of_toBits (h : x.toBits.toNat = y.toBits.toNat) : x = y := by
  obtain ⟨⟨bits, hx⟩⟩ := x
  obtain ⟨⟨bits', hy⟩⟩ := y
  obtain rfl : bits = bits' := UInt32.toNat_inj.mp h
  rfl

/-- Negation turns the highest bit over. -/
theorem toBits_neg (h : x.isFinite) : (-x).toBits.toNat =
    (1 - x.toBits.toNat / 0x80000000) * 0x80000000 + x.toBits.toNat % 0x80000000 := by
  have hbits : (-x).toBits.toBitVec = pack binary32 (unpack binary32 x.toBits.toBitVec).neg := rfl
  have hlt := x.toBits.toBitVec.isLt
  have hexponent : @unpackExponent binary32 x.toBits.toBitVec ≠ -1#8 := (isFinite_unpack _).mp h
  show (-x).toBits.toBitVec.toNat = (1 - x.toBits.toBitVec.toNat / 0x80000000) * 0x80000000 +
    x.toBits.toBitVec.toNat % 0x80000000
  rw [hbits, pack_neg_unpack hexponent, toNat_packComponents, toNat_neg_sign,
    toNat_unpackExponent, toNat_unpackMantissa]
  omega

theorem isFinite_neg (h : x.isFinite) : (-x).isFinite := by
  have hexponent := isFinite_iff.mp h
  rw [isFinite_iff, toBits_neg h]
  omega

theorem neg_neg (h : x.isFinite) : -(-x) = x := by
  have hlt : x.toBits.toNat < 0x100000000 := x.toBits.toNat_lt
  apply eq_of_toBits
  rw [toBits_neg (isFinite_neg h), toBits_neg h]
  omega

/-- A negated scalar has the other sign and the same magnitude. -/
theorem parts_neg (h : x.isFinite) :
    parts (-x) = { parts x with negative := !(parts x).negative } := by
  have hlt : x.toBits.toNat < 0x100000000 := x.toBits.toNat_lt
  have hbits := toBits_neg h
  have hfraction : (-x).toBits.toNat % 0x800000 = x.toBits.toNat % 0x800000 := by omega
  have hexponent : (-x).toBits.toNat / 0x800000 % 0x100 = x.toBits.toNat / 0x800000 % 0x100 := by
    omega
  have hsign : ((-x).toBits.toNat / 0x80000000 == 1) = !(x.toBits.toNat / 0x80000000 == 1) := by
    have hquotient : (-x).toBits.toNat / 0x80000000 = 1 - x.toBits.toNat / 0x80000000 := by omega
    have hcases : x.toBits.toNat / 0x80000000 = 0 ∨ x.toBits.toNat / 0x80000000 = 1 := by omega
    rcases hcases with hzero | hone
    · rw [hquotient, hzero]
      rfl
    · rw [hquotient, hone]
      rfl
  simp only [parts, hfraction, hexponent, hsign]

/-! ### Texts -/

/-- A finite scalar without its sign. -/
def magnitude (x : Float32) : Float32 := if (parts x).negative then -x else x

/-- Digits, or digits on both sides of a point. -/
def IsNumeral (cs : List Char) : Prop :=
  ∃ digits, digits ≠ [] ∧ (∀ c ∈ digits, c.isDigit) ∧
    (cs = digits ∨ ∃ fraction, fraction ≠ [] ∧ (∀ c ∈ fraction, c.isDigit) ∧
      cs = digits ++ '.' :: fraction)

theorem isDigit_of_mem_zeros {n : Nat} {c : Char} (h : c ∈ Decimal.zeros n) : c.isDigit := by
  rw [List.eq_of_mem_replicate h]
  rfl

theorem isNumeral_positional (d : Decimal) : IsNumeral d.positional := by
  have hdigits : ∀ c ∈ Nat.toDigits 10 d.digits, c.isDigit := fun c hc =>
    Nat.isDigit_of_mem_toDigits (by decide) (by decide) hc
  have hne : Nat.toDigits 10 d.digits ≠ [] := Nat.toDigits_ne_nil
  have hpos := List.length_pos_iff.mpr hne
  unfold Decimal.positional
  dsimp only
  split_ifs with hexponent hbefore
  · refine ⟨_, by simp [hne], ?_, .inl rfl⟩
    exact List.forall_mem_append.mpr ⟨hdigits, fun c hc => isDigit_of_mem_zeros hc⟩
  · refine ⟨['0'], by simp, List.forall_mem_singleton.mpr rfl, .inr ⟨_, ?_, ?_, rfl⟩⟩
    · simp [hne]
    · exact List.forall_mem_append.mpr ⟨fun c hc => isDigit_of_mem_zeros hc, hdigits⟩
  · refine ⟨_, ?_, fun c hc => hdigits c (List.mem_of_mem_take hc), .inr ⟨_, ?_,
      fun c hc => hdigits c (List.mem_of_mem_drop hc), rfl⟩⟩
    · rw [← List.length_pos_iff, List.length_take]
      omega
    · rw [← List.length_pos_iff, List.length_drop]
      omega

/-- What stands behind the sign of a finite scalar. -/
def unsignedText (p : Parts) : List Char :=
  if p.mantissa = 0 then ['0'] else (Decimal.Interval.ofParts p).shortest.positional

theorem isNumeral_unsignedText (p : Parts) : IsNumeral (unsignedText p) := by
  unfold unsignedText
  split_ifs
  · exact ⟨['0'], by simp, List.forall_mem_singleton.mpr rfl, .inl rfl⟩
  · exact isNumeral_positional _

theorem toList_text (h : x.isFinite) : (text x).toList =
    if (parts x).negative then '-' :: unsignedText (parts x) else unsignedText (parts x) := by
  rw [text, textWith, isNaN_of_isFinite h, isInf_of_isFinite h]
  simp [unsignedText]

/-- A negative scalar is written as a sign and its magnitude. -/
theorem text_of_negative (h : x.isFinite) (hsign : (parts x).negative) :
    (text x).toList = '-' :: (text (-x)).toList := by
  rw [toList_text h, toList_text (isFinite_neg h), parts_neg h, hsign]
  rfl

theorem isNumeral_text (h : x.isFinite) (hsign : (parts x).negative = false) :
    IsNumeral (text x).toList := by
  rw [toList_text h, hsign]
  exact isNumeral_unsignedText _

end VectorScript.Scalar
