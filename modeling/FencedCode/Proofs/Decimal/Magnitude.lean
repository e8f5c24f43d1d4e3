import FencedCode.Proofs.Decimal.Rounding
import Mathlib.Tactic.NormNum

/-!
# Floats and their magnitudes

What the bits of a float say of it: whether it is a number, and then its sign and its magnitude.
Floats are compared by their exponents first, and by their mantissas where these are equal. As they
are written in one way only, this compares their magnitudes.

* `Binary.canonical_ofFloat` -- floats are written in the canonical way;
* `Binary.isFinite_iff`, `Binary.isInf_iff`, `Binary.isNaN_iff` -- what the bits stand for;
* `Binary.toBits_eq_of_parts` -- floats with the same parts have the same bits;
* `Binary.unpack_abs_of_finite` -- the absolute value has the same magnitude;
* `Binary.plain_iff` -- **the bounds within which floats are written without an exponent are those
  of their magnitudes**, although a thousandth is no float.
-/

namespace FencedCode.Binary

open Float.Model Float.Model.UnpackedFloat

/-! ## 1. Fields of bits -/

/-- The sign that a sign bit stands for. -/
def sign (negative : Bool) : Sign :=
  if negative then .negative else .positive

theorem unpackMantissa_toNat (bits : UInt64) :
    (@unpackMantissa .binary64 bits.toBitVec).toNat = fraction bits := by
  unfold unpackMantissa
  rw [BitVec.toNat_cast, BitVec.extractLsb_toNat, Nat.shiftRight_zero]
  rfl

theorem unpackExponent_toNat (bits : UInt64) :
    (@unpackExponent .binary64 bits.toBitVec).toNat = exponentField bits := by
  unfold unpackExponent
  rw [BitVec.toNat_cast, BitVec.extractLsb_toNat, Nat.shiftRight_eq_div_pow]
  rfl

theorem ofBitVec_unpackSign (bits : UInt64) :
    Sign.ofBitVec (@unpackSign .binary64 bits.toBitVec) = sign (signBit bits) := by
  have hlt := bits.toNat_lt
  have htop : (@unpackSign .binary64 bits.toBitVec).toNat = bits.toNat / 2 ^ 63 := by
    unfold unpackSign
    rw [BitVec.toNat_cast, BitVec.extractLsb_toNat, Nat.shiftRight_eq_div_pow]
    show bits.toNat / 2 ^ 63 % 2 ^ 1 = bits.toNat / 2 ^ 63
    omega
  have hzero : @unpackSign .binary64 bits.toBitVec = 0#1 ↔ bits.toNat / 2 ^ 63 = 0 := by
    rw [← BitVec.toNat_inj, htop]
    rfl
  unfold Sign.ofBitVec sign signBit
  by_cases h : 2 ^ 63 ≤ bits.toNat
  · rw [if_neg (by rw [hzero]; omega), if_pos]
    exact decide_eq_true h
  · rw [if_pos (by rw [hzero]; omega), if_neg]
    exact fun hset => h (of_decide_eq_true hset)

theorem exponentField_lt (bits : UInt64) : exponentField bits < 2048 :=
  Nat.mod_lt _ (by decide)

theorem fraction_lt (bits : UInt64) : fraction bits < 2 ^ 52 :=
  Nat.mod_lt _ (by decide)

/-- **Floats are written in the canonical way.** -/
theorem canonical_ofFloat (x : Float) : (ofFloat x).Canonical := by
  have hfraction := fraction_lt x.toBits
  unfold ofFloat
  dsimp only
  split
  · exact ⟨by simp only; omega, le_refl _, .inr rfl⟩
  · rename_i hfield
    refine ⟨?_, ?_, .inl ?_⟩
    · show 2 ^ 52 + fraction x.toBits < 2 ^ 53
      omega
    · show -1074 ≤ (exponentField x.toBits : ℤ) - 1075
      omega
    · exact Nat.le_add_right (2 ^ 52) _

/-- The bits are made up of their fields. -/
theorem bits_ext {a b : UInt64} (hsign : signBit a = signBit b)
    (hexponent : exponentField a = exponentField b) (hfraction : fraction a = fraction b) :
    a = b := by
  rw [← UInt64.toNat_inj]
  have ha := a.toNat_lt
  have hb := b.toNat_lt
  have hsign' : 2 ^ 63 ≤ a.toNat ↔ 2 ^ 63 ≤ b.toNat := decide_eq_decide.mp hsign
  have hexponent' : a.toNat / 2 ^ 52 % 2 ^ 11 = b.toNat / 2 ^ 52 % 2 ^ 11 := hexponent
  have hfraction' : a.toNat % 2 ^ 52 = b.toNat % 2 ^ 52 := hfraction
  omega

/-- **Floats with the same parts have the same bits.** -/
theorem toBits_eq_of_parts {x y : Float} (h : ofFloat x = ofFloat y) : x.toBits = y.toBits := by
  have hx := fraction_lt x.toBits
  have hy := fraction_lt y.toBits
  unfold ofFloat at h
  dsimp only at h
  have hpow : Nat.pow 2 52 = 2 ^ 52 := rfl
  split at h <;> split at h <;> injection h with hsign hmantissa hexponent
  · rename_i hzero hzero'
    exact bits_ext hsign (hzero.trans hzero'.symm) hmantissa
  · omega
  · omega
  · exact bits_ext hsign (by omega) (by omega)

/-! ## 2. What the bits stand for -/

variable {x : Float}

theorem toBits_unpackMantissa_eq_zero :
    @unpackMantissa .binary64 x.toBits.toBitVec = 0#_ ↔ fraction x.toBits = 0 := by
  rw [← BitVec.toNat_inj, unpackMantissa_toNat]
  rfl

theorem toBits_unpackExponent_eq_zero :
    @unpackExponent .binary64 x.toBits.toBitVec = 0#_ ↔ exponentField x.toBits = 0 := by
  rw [← BitVec.toNat_inj, unpackExponent_toNat]
  rfl

theorem toBits_unpackExponent_eq_ones :
    @unpackExponent .binary64 x.toBits.toBitVec = -1#_ ↔
      exponentField x.toBits = 2047 := by
  rw [← BitVec.toNat_inj, unpackExponent_toNat]
  rfl

/-- All exponent bits are set in infinities and in what is not a number. -/
theorem unpack_of_special (h : exponentField x.toBits = 2047) :
    x.toModel.unpack = if fraction x.toBits = 0 then .infinity (sign (signBit x.toBits))
      else .notANumber := by
  show UnpackedFloat.unpack .binary64 x.toBits.toBitVec = _
  unfold UnpackedFloat.unpack
  dsimp only
  rw [if_pos (toBits_unpackExponent_eq_ones.mpr h), ofBitVec_unpackSign]
  by_cases hzero : fraction x.toBits = 0
  · rw [if_pos hzero, if_pos (toBits_unpackMantissa_eq_zero.mpr hzero)]
  · rw [if_neg hzero, if_neg (mt toBits_unpackMantissa_eq_zero.mp hzero)]

/-- A leading one in front of the other bits of a mantissa. -/
theorem one_append_toNat (v : BitVec 52) : (1#1 ++ v).toNat = 2 ^ 52 + v.toNat := by
  rw [BitVec.toNat_append, ← Nat.shiftLeft_add_eq_or_of_lt v.isLt]
  rfl

theorem unpack_of_zero (h : exponentField x.toBits ≠ 2047) (hzero : (ofFloat x).mantissa = 0) :
    x.toModel.unpack = .zero (sign (ofFloat x).negative) := by
  show UnpackedFloat.unpack .binary64 x.toBits.toBitVec = _
  unfold ofFloat at hzero ⊢
  unfold UnpackedFloat.unpack
  dsimp only at hzero ⊢
  rw [if_neg (mt toBits_unpackExponent_eq_ones.mp h), ofBitVec_unpackSign]
  by_cases hfield : exponentField x.toBits = 0
  · rw [if_pos hfield] at hzero ⊢
    rw [if_pos (toBits_unpackExponent_eq_zero.mpr hfield),
      dif_pos (toBits_unpackMantissa_eq_zero.mpr hzero)]
  · rw [if_neg hfield] at hzero
    exact absurd (Nat.eq_zero_of_add_eq_zero_right hzero) (by decide)

theorem finite_congr {s s' : Sign} {m m' : ℕ} {e e' : ℤ} {hpos : 0 < m} {hpos' : 0 < m'}
    (hs : s = s') (hm : m = m') (he : e = e') :
    UnpackedFloat.finite s m e hpos = .finite s' m' e' hpos' := by
  subst hs hm he
  rfl

/-- **The sign, the mantissa and the exponent of a number.** -/
theorem unpack_of_finite (h : exponentField x.toBits ≠ 2047) (hpos : 0 < (ofFloat x).mantissa) :
    x.toModel.unpack =
      .finite (sign (ofFloat x).negative) (ofFloat x).mantissa (ofFloat x).exponent hpos := by
  show UnpackedFloat.unpack .binary64 x.toBits.toBitVec = _
  unfold UnpackedFloat.unpack
  dsimp only
  rw [if_neg (mt toBits_unpackExponent_eq_ones.mp h)]
  by_cases hfield : exponentField x.toBits = 0
  · have hparts : ofFloat x = ⟨signBit x.toBits, fraction x.toBits, -1074⟩ := by
      unfold ofFloat
      dsimp only
      rw [if_pos hfield]
    have hnonzero : fraction x.toBits ≠ 0 := by
      rw [hparts] at hpos
      exact hpos.ne'
    rw [if_pos (toBits_unpackExponent_eq_zero.mpr hfield),
      dif_neg (mt toBits_unpackMantissa_eq_zero.mp hnonzero)]
    refine finite_congr ?_ ?_ ?_
    · rw [ofBitVec_unpackSign, hparts]
    · rw [unpackMantissa_toNat, hparts]
    · rw [unpackExponent_toNat, hfield, hparts]
      rfl
  · have hparts : ofFloat x = ⟨signBit x.toBits, 2 ^ 52 + fraction x.toBits,
        (exponentField x.toBits : ℤ) - 1075⟩ := by
      unfold ofFloat
      dsimp only
      rw [if_neg hfield]
      rfl
    rw [if_neg (mt toBits_unpackExponent_eq_zero.mp hfield)]
    refine finite_congr ?_ ?_ ?_
    · rw [ofBitVec_unpackSign, hparts]
    · rw [one_append_toNat, unpackMantissa_toNat, hparts]
    · rw [unpackExponent_toNat, hparts]
      rfl

/-- What the bits stand for is found by their exponent bits and the fraction. -/
theorem status_iff (x : Float) : (x.isFinite = true ↔ exponentField x.toBits ≠ 2047) ∧
    (x.isInf = true ↔ exponentField x.toBits = 2047 ∧ fraction x.toBits = 0) ∧
      (x.isNaN = true ↔ exponentField x.toBits = 2047 ∧ fraction x.toBits ≠ 0) := by
  show (x.toModel.unpack.isFinite = true ↔ _) ∧ (x.toModel.unpack.isInf = true ↔ _) ∧
    (x.toModel.unpack.isNaN = true ↔ _)
  by_cases h : exponentField x.toBits = 2047
  · rw [unpack_of_special h]
    by_cases hzero : fraction x.toBits = 0
    · rw [if_pos hzero]
      exact ⟨iff_of_false Bool.false_ne_true (not_not.mpr h), iff_of_true rfl ⟨h, hzero⟩,
        iff_of_false Bool.false_ne_true fun hnan => hnan.2 hzero⟩
    · rw [if_neg hzero]
      exact ⟨iff_of_false Bool.false_ne_true (not_not.mpr h),
        iff_of_false Bool.false_ne_true fun hinf => hzero hinf.2, iff_of_true rfl ⟨h, hzero⟩⟩
  · have hunpack : x.toModel.unpack.isFinite = true ∧ x.toModel.unpack.isInf = false ∧
        x.toModel.unpack.isNaN = false := by
      rcases Nat.eq_zero_or_pos (ofFloat x).mantissa with hzero | hpos
      · rw [unpack_of_zero h hzero]
        exact ⟨rfl, rfl, rfl⟩
      · rw [unpack_of_finite h hpos]
        exact ⟨rfl, rfl, rfl⟩
    obtain ⟨hfinite, hinf, hnan⟩ := hunpack
    rw [hfinite, hinf, hnan]
    exact ⟨iff_of_true rfl h, iff_of_false Bool.false_ne_true fun hinf => h hinf.1,
      iff_of_false Bool.false_ne_true fun hnan => h hnan.1⟩

theorem isFinite_iff : x.isFinite = true ↔ exponentField x.toBits ≠ 2047 :=
  (status_iff x).1

theorem isInf_iff : x.isInf = true ↔ exponentField x.toBits = 2047 ∧ fraction x.toBits = 0 :=
  (status_iff x).2.1

theorem isNaN_iff : x.isNaN = true ↔ exponentField x.toBits = 2047 ∧ fraction x.toBits ≠ 0 :=
  (status_iff x).2.2

theorem isFinite_of_not (hnan : ¬ x.isNaN = true) (hinf : ¬ x.isInf = true) :
    x.isFinite = true := by
  rw [isFinite_iff]
  intro hfield
  by_cases hfraction : fraction x.toBits = 0
  · exact hinf (isInf_iff.mpr ⟨hfield, hfraction⟩)
  · exact hnan (isNaN_iff.mpr ⟨hfield, hfraction⟩)

/-- The positive infinity is the one whose sign bit is not set. -/
theorem pos_iff_of_isInf (h : x.isInf = true) : 0 < x ↔ signBit x.toBits = false := by
  obtain ⟨hfield, hfraction⟩ := isInf_iff.mp h
  have hzero : (0 : Float).toModel.unpack = .zero .positive := rfl
  show decide ((0 : Float).toModel.unpack.lt x.toModel.unpack = true) = true ↔ _
  rw [decide_eq_true_iff, hzero, unpack_of_special hfield, if_pos hfraction]
  cases signBit x.toBits <;> decide

/-- **Infinities with the same sign have the same bits.** -/
theorem toBits_eq_of_isInf {y : Float} (hx : x.isInf = true) (hy : y.isInf = true)
    (h : 0 < x ↔ 0 < y) : x.toBits = y.toBits := by
  obtain ⟨hfield, hfraction⟩ := isInf_iff.mp hx
  obtain ⟨hfield', hfraction'⟩ := isInf_iff.mp hy
  rw [pos_iff_of_isInf hx, pos_iff_of_isInf hy] at h
  refine bits_ext ?_ (hfield.trans hfield'.symm) (hfraction.trans hfraction'.symm)
  cases hsign : signBit x.toBits with
  | false => exact (h.mp hsign).symm
  | true => exact (Bool.eq_true_of_not_eq_false fun hfalse => by
      rw [h.mpr hfalse] at hsign
      cases hsign).symm

/-! ## 3. Absolute values -/

theorem unpackSign_packComponents (s : Sign) (e : BitVec 11) (m : BitVec 52) :
    Sign.ofBitVec (unpackSign (packComponents .binary64 s e m)) = s := by
  have hsign : unpackSign (packComponents .binary64 s e m) = s.toBitVec := by
    refine BitVec.eq_of_getLsbD_eq fun i hi => ?_
    have hzero : i = 0 := by omega
    subst hzero
    unfold unpackSign packComponents
    rw [BitVec.getLsbD_cast, BitVec.getLsbD_extractLsb, BitVec.getLsbD_append,
      BitVec.getLsbD_append]
    rfl
  rw [hsign]
  cases s <;> rfl

/-- The fields of bits that are put together. -/
theorem fields_of_packComponents {s : Sign} {e : BitVec 11} {m : BitVec 52}
    (hx : x.toBits.toBitVec = packComponents .binary64 s e m) :
    sign (signBit x.toBits) = s ∧ exponentField x.toBits = e.toNat ∧
      fraction x.toBits = m.toNat := by
  rw [← ofBitVec_unpackSign, ← unpackExponent_toNat, ← unpackMantissa_toNat, hx,
    unpackSign_packComponents, unpackExponent_packComponents, unpackMantissa_packComponents]
  exact ⟨rfl, rfl, rfl⟩

/-- A number that is written in the canonical way is put together without its leading one, and with
    an exponent that tells whether it had one. -/
theorem pack_eq (s : Sign) {m : ℕ} {e : ℤ} (hpos : 0 < m) (hm : Canonical ⟨false, m, e⟩)
    (he : e ≤ 971) :
    UnpackedFloat.pack .binary64 (.finite s m e hpos) = packComponents .binary64 s
      (if 2 ^ 52 ≤ m then BitVec.ofNat 11 (e + 1075).toNat else 0#11) (BitVec.ofNat 52 m) := by
  have hleast : -1074 ≤ e := hm.least
  have hlt : m < 2 ^ 53 := hm.mantissa_lt
  have hbiased : (e + (1023 : ℕ) + (52 : ℕ)).toNat = (e + 1075).toNat := by omega
  show (if 2 ^ 11 ≤ (e + (1023 : ℕ) + (52 : ℕ)).toNat + 1 then packedInfinity .binary64 s
    else if m.log2 + 1 = 53 then packComponents .binary64 s
      (BitVec.ofNat 11 (e + (1023 : ℕ) + (52 : ℕ)).toNat) (BitVec.ofNat 52 m)
    else packComponents .binary64 s 0#11 (BitVec.ofNat 52 m)) = _
  rw [hbiased, if_neg (by omega)]
  by_cases hnormal : 2 ^ 52 ≤ m
  · have hlog : m.log2 + 1 = 53 := by
      have := (Nat.le_log2 hpos.ne').mpr hnormal
      have := (Nat.log2_lt hpos.ne').mpr hlt
      omega
    rw [if_pos hlog, if_pos hnormal]
  · have hlog : ¬ m.log2 + 1 = 53 := by
      have := (Nat.log2_lt hpos.ne').mpr (not_le.mp hnormal)
      omega
    rw [if_neg hlog, if_neg hnormal]

/-- **A number that is written in the canonical way is packed into bits and read off them as it
    was.** -/
theorem unpack_pack (s : Sign) {m : ℕ} {e : ℤ} (hpos : 0 < m) (hm : Canonical ⟨false, m, e⟩)
    (he : e ≤ 971) : (pack (.finite s m e hpos)).unpack = .finite s m e hpos := by
  have hleast : -1074 ≤ e := hm.least
  have hlt : m < 2 ^ 53 := hm.mantissa_lt
  obtain ⟨y, hy⟩ : ∃ y : Float, y.toModel = pack (.finite s m e hpos) := ⟨⟨_⟩, rfl⟩
  have hbits : y.toBits.toBitVec = UnpackedFloat.pack .binary64 (.finite s m e hpos) := by
    show y.toModel.toBits.toBitVec = _
    rw [hy]
    rfl
  obtain ⟨hsign, hexponent, hfraction⟩ := fields_of_packComponents
    (hbits.trans (pack_eq s hpos hm he))
  rw [BitVec.toNat_ofNat] at hfraction
  have hparts : exponentField y.toBits ≠ 2047 ∧ (ofFloat y).mantissa = m ∧
      (ofFloat y).exponent = e ∧ sign (ofFloat y).negative = s := by
    by_cases hnormal : 2 ^ 52 ≤ m
    · rw [if_pos hnormal, BitVec.toNat_ofNat] at hexponent
      unfold ofFloat
      dsimp only
      rw [if_neg (by omega), hsign, hexponent, hfraction]
      refine ⟨by omega, ?_, ?_, rfl⟩
      · show 2 ^ 52 + m % 2 ^ 52 = m
        omega
      · show (((e + 1075).toNat % 2 ^ 11 : ℕ) : ℤ) - 1075 = e
        omega
    · rw [if_neg hnormal] at hexponent
      have hzero : exponentField y.toBits = 0 := hexponent
      unfold ofFloat
      dsimp only
      rw [if_pos hzero, hsign, hfraction]
      refine ⟨by omega, ?_, (hm.normal.resolve_left hnormal).symm, rfl⟩
      show m % 2 ^ 52 = m
      omega
  obtain ⟨hfinite, hmantissa, hexponent, hnegative⟩ := hparts
  rw [← hy, unpack_of_finite hfinite (hmantissa.symm ▸ hpos)]
  exact finite_congr hnegative hmantissa hexponent

theorem exponent_le (h : exponentField x.toBits ≠ 2047) : (ofFloat x).exponent ≤ 971 := by
  have hlt := exponentField_lt x.toBits
  unfold ofFloat
  dsimp only
  split
  · show (-1074 : ℤ) ≤ 971
    decide
  · show (exponentField x.toBits : ℤ) - 1075 ≤ 971
    omega

/-- The absolute value of zero is zero. -/
theorem unpack_abs_of_zero (h : exponentField x.toBits ≠ 2047) (hzero : (ofFloat x).mantissa = 0) :
    x.abs.toModel.unpack = .zero .positive := by
  show (pack x.toModel.unpack.abs).unpack = _
  rw [unpack_of_zero h hzero]
  show (pack (.zero .positive)).unpack = _
  rfl

/-- **The absolute value of another number has the same mantissa and exponent.** -/
theorem unpack_abs_of_finite (h : exponentField x.toBits ≠ 2047)
    (hpos : 0 < (ofFloat x).mantissa) :
    x.abs.toModel.unpack =
      .finite .positive (ofFloat x).mantissa (ofFloat x).exponent hpos := by
  have hcanonical := canonical_ofFloat x
  show (pack x.toModel.unpack.abs).unpack = _
  rw [unpack_of_finite h hpos]
  exact unpack_pack .positive hpos ⟨hcanonical.mantissa_lt, hcanonical.least, hcanonical.normal⟩
    (exponent_le h)

/-! ## 4. Comparisons -/

/-- Exponents and mantissas compare as magnitudes. -/
theorem compare_parts {b b' : Binary} (hb : b.Canonical) (hb' : b'.Canonical) :
    (compare b.exponent b'.exponent).then (compare b.mantissa b'.mantissa) =
      compare b.value b'.value := by
  rcases lt_trichotomy b.exponent b'.exponent with hlt | heq | hgt
  · rw [compare_lt_iff_lt.mpr hlt, compare_lt_iff_lt.mpr (hb.value_lt hb' hlt)]
    rfl
  · have hunit := two_zpow_pos b'.exponent
    rw [compare_eq_iff_eq.mpr heq]
    show compare b.mantissa b'.mantissa = _
    unfold value
    rw [heq]
    rcases lt_trichotomy b.mantissa b'.mantissa with hlt | heq | hgt
    · rw [compare_lt_iff_lt.mpr hlt, compare_lt_iff_lt.mpr]
      exact mul_lt_mul_of_pos_right (Nat.cast_lt.mpr hlt) hunit
    · rw [compare_eq_iff_eq.mpr heq, compare_eq_iff_eq.mpr (by rw [heq])]
    · rw [compare_gt_iff_gt.mpr hgt, compare_gt_iff_gt.mpr]
      exact mul_lt_mul_of_pos_right (Nat.cast_lt.mpr hgt) hunit
  · rw [compare_gt_iff_gt.mpr hgt, compare_gt_iff_gt.mpr (hb'.value_lt hb hgt)]
    rfl

section Bounds

variable {y : Float} {b : Binary} {hbound : 0 < b.mantissa}

/-- A positive bound is not above the absolute value. -/
theorem le_abs_iff (h : exponentField x.toBits ≠ 2047) (hpos : 0 < (ofFloat x).mantissa)
    (hb : b.Canonical) (hy : y.toModel.unpack = .finite .positive b.mantissa b.exponent hbound) :
    y ≤ x.abs ↔ b.value ≤ (ofFloat x).value := by
  have hcompare : y.toModel.unpack.compare x.abs.toModel.unpack =
      some (compare b.value (ofFloat x).value) := by
    rw [hy, unpack_abs_of_finite h hpos, ← compare_parts hb (canonical_ofFloat x)]
    rfl
  show decide (y.toModel.unpack.le x.abs.toModel.unpack = true) = true ↔ _
  rw [decide_eq_true_iff, UnpackedFloat.le, hcompare, Option.any_some]
  exact Ordering.isLE_iff_ne_gt.trans compare_le_iff_le

/-- The absolute value is below a positive bound. -/
theorem abs_lt_iff (h : exponentField x.toBits ≠ 2047) (hpos : 0 < (ofFloat x).mantissa)
    (hb : b.Canonical) (hy : y.toModel.unpack = .finite .positive b.mantissa b.exponent hbound) :
    x.abs < y ↔ (ofFloat x).value < b.value := by
  have hcompare : x.abs.toModel.unpack.compare y.toModel.unpack =
      some (compare (ofFloat x).value b.value) := by
    rw [hy, unpack_abs_of_finite h hpos, ← compare_parts (canonical_ofFloat x) hb]
    rfl
  show decide (x.abs.toModel.unpack.lt y.toModel.unpack = true) = true ↔ _
  rw [decide_eq_true_iff, UnpackedFloat.lt, hcompare, beq_iff_eq, Option.some_inj,
    compare_lt_iff_lt]

end Bounds

/-- The float that stands for a thousandth. -/
def thousandth : Binary :=
  ⟨false, 4611686018427388, -62⟩

/-- Ten millions. -/
def tenMillion : Binary :=
  ⟨false, 5368709120000000, -29⟩

theorem canonical_thousandth : thousandth.Canonical :=
  ⟨by decide, by decide, by decide⟩

theorem canonical_tenMillion : tenMillion.Canonical :=
  ⟨by decide, by decide, by decide⟩

theorem value_tenMillion : tenMillion.value = 10 ^ 7 := by
  norm_num [tenMillion, value]

/-- A thousandth lies between two floats, and the upper one stands for it. -/
theorem thousandth_le_iff {b : Binary} (hb : b.Canonical) :
    thousandth.value ≤ b.value ↔ 1 / 1000 ≤ b.value := by
  have hvalue : thousandth.value = 4611686018427388 / 2 ^ 62 := by
    norm_num [thousandth, value]
  constructor
  · intro h
    refine le_trans ?_ h
    rw [hvalue]
    norm_num
  · intro h
    by_contra hlt
    have hgap := canonical_thousandth.gap_below hb (not_le.mp hlt)
    have hunit : thousandth.gapBelow = 1 / 2 ^ 62 := by
      norm_num [thousandth, gapBelow]
    rw [hunit, hvalue] at hgap
    norm_num at hgap
    linarith

/-- The magnitude is zero, or at least a thousandth and below ten millions. -/
def Plain (b : Binary) : Prop :=
  b.value = 0 ∨ (1 / 1000 ≤ b.value ∧ b.value < 10 ^ 7)

/-- **The bounds within which a float is written without an exponent.** -/
theorem plain_iff (h : exponentField x.toBits ≠ 2047) :
    (x.abs == 0 || (0.001 ≤ x.abs && x.abs < 10000000)) = true ↔ (ofFloat x).Plain := by
  unfold Plain
  rcases Nat.eq_zero_or_pos (ofFloat x).mantissa with hzero | hpos
  · have hvalue : (ofFloat x).value = 0 := by rw [value, hzero, Nat.cast_zero, zero_mul]
    have hequal : (x.abs == 0) = true := by
      show x.abs.toModel.unpack.beq (0 : Float).toModel.unpack = true
      rw [unpack_abs_of_zero h hzero]
      rfl
    rw [hequal, Bool.true_or, hvalue]
    exact ⟨fun _ => .inl rfl, fun _ => rfl⟩
  · have hvalue : (ofFloat x).value ≠ 0 :=
      (mul_pos (Nat.cast_pos.mpr hpos) (two_zpow_pos _)).ne'
    have hequal : (x.abs == 0) = false := by
      show x.abs.toModel.unpack.beq (0 : Float).toModel.unpack = false
      rw [unpack_abs_of_finite h hpos]
      rfl
    have hlow : (0.001 : Float) ≤ x.abs ↔ 1 / 1000 ≤ (ofFloat x).value := by
      rw [← thousandth_le_iff (canonical_ofFloat x)]
      exact le_abs_iff h hpos canonical_thousandth rfl
    have hhigh : x.abs < 10000000 ↔ (ofFloat x).value < 10 ^ 7 := by
      rw [← value_tenMillion]
      exact abs_lt_iff h hpos canonical_tenMillion rfl
    rw [hequal, Bool.false_or, Bool.and_eq_true, decide_eq_true_iff, decide_eq_true_iff, hlow,
      hhigh, or_iff_right hvalue]

end FencedCode.Binary
