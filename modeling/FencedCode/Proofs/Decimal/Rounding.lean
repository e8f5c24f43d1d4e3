import FencedCode.Decimal.Shortest
import Mathlib.Algebra.Order.Field.Power
import Mathlib.Data.Nat.Cast.Field
import Mathlib.Data.Rat.Cast.Order
import Mathlib.Tactic.FieldSimp
import Mathlib.Tactic.Linarith
import Mathlib.Tactic.Ring

/-!
# The shortest decimal reads back

Numbers that have a sign, up to 53 bits and a power of two leave gaps between them, and a decimal
falls into one of these. It is rounded to the nearer end, and from the middle to the one that is
even. The decimal that stands for a float is one of those that are rounded to it.

* `Binary.Canonical` -- parts of a float, written in the one way that floats are;
* `Binary.Canonical.gap_above`, `Binary.Canonical.gap_below` -- how far the next numbers are;
* `Binary.RoundsTo`, `Binary.RoundsTo.unique` -- **a number is rounded in one way**;
* `Decimal.Interval.Contains`, `Decimal.Interval.roundsTo` -- the rounding interval of a float holds
  numbers that are rounded to it;
* `Decimal.shortest_roundsTo` -- **the shortest decimal of a float is rounded to it**.
-/

namespace FencedCode

/-! ## 1. Magnitudes of floats -/

namespace Binary

/-- The number that a float denotes, without its sign. -/
def value (b : Binary) : ℚ :=
  b.mantissa * 2 ^ b.exponent

/-- The parts are written as those of a float are: the mantissa has all 53 bits unless the exponent
    is the least one. How large the exponent may be is left open. -/
structure Canonical (b : Binary) : Prop where
  mantissa_lt : b.mantissa < 2 ^ 53
  least : -1074 ≤ b.exponent
  normal : 2 ^ 52 ≤ b.mantissa ∨ b.exponent = -1074

theorem two_zpow_pos (e : ℤ) : (0 : ℚ) < 2 ^ e :=
  zpow_pos two_pos e

theorem value_nonneg (b : Binary) : 0 ≤ b.value :=
  mul_nonneg (Nat.cast_nonneg _) (two_zpow_pos _).le

theorem two_zpow_eq (e : ℤ) : (2 : ℚ) ^ e = 2 ^ (e - 1) * 2 := by
  rw [← zpow_add_one₀ two_ne_zero, sub_add_cancel]

namespace Canonical

variable {b b' : Binary}

/-- A number with a greater exponent is greater. -/
theorem value_lt (hb : b.Canonical) (hb' : b'.Canonical) (h : b.exponent < b'.exponent) :
    b.value < b'.value := by
  have hnormal : 2 ^ 52 ≤ b'.mantissa := by
    have := hb.least
    exact hb'.normal.resolve_right (by omega)
  have hmantissa : (b.mantissa : ℚ) < 2 ^ 53 := by exact_mod_cast hb.mantissa_lt
  have hmantissa' : (2 : ℚ) ^ 52 ≤ b'.mantissa := by exact_mod_cast hnormal
  calc b.value < 2 ^ 53 * 2 ^ b.exponent :=
        mul_lt_mul_of_pos_right hmantissa (two_zpow_pos _)
    _ = 2 ^ 52 * 2 ^ (b.exponent + 1) := by rw [zpow_add_one₀ two_ne_zero]; ring
    _ ≤ 2 ^ 52 * 2 ^ b'.exponent :=
        mul_le_mul_of_nonneg_left (zpow_le_zpow_right₀ one_le_two h) (by positivity)
    _ ≤ b'.value := mul_le_mul_of_nonneg_right hmantissa' (two_zpow_pos _).le

/-- **A number is written in one way.** -/
theorem eq_of_value_eq (hb : b.Canonical) (hb' : b'.Canonical) (h : b.value = b'.value) :
    b.mantissa = b'.mantissa ∧ b.exponent = b'.exponent := by
  have hexponent : b.exponent = b'.exponent := by
    rcases lt_trichotomy b.exponent b'.exponent with hlt | heq | hgt
    · exact absurd h (hb.value_lt hb' hlt).ne
    · exact heq
    · exact absurd h (hb'.value_lt hb hgt).ne'
  refine ⟨?_, hexponent⟩
  unfold value at h
  rw [hexponent] at h
  exact_mod_cast mul_right_cancel₀ (two_zpow_pos _).ne' h

/-- **The next number above** is at least one unit further on. -/
theorem gap_above (hb : b.Canonical) (hb' : b'.Canonical) (h : b.value < b'.value) :
    b.value + 2 ^ b.exponent ≤ b'.value := by
  have hexponent : b.exponent ≤ b'.exponent := by
    by_contra hlt
    exact absurd h (hb'.value_lt hb (not_le.mp hlt)).not_gt
  obtain ⟨n, hn⟩ := Int.le.dest hexponent
  -- both are multiples of the same unit
  have hvalue : b'.value = ((b'.mantissa * 2 ^ n : ℕ) : ℚ) * 2 ^ b.exponent := by
    unfold value
    rw [← hn, zpow_add₀ two_ne_zero, zpow_natCast]
    push_cast
    ring
  rw [hvalue] at h ⊢
  have hmantissa : b.mantissa < b'.mantissa * 2 ^ n := by
    exact_mod_cast lt_of_mul_lt_mul_right h (two_zpow_pos _).le
  have hsucc : (b.mantissa : ℚ) + 1 ≤ ((b'.mantissa * 2 ^ n : ℕ) : ℚ) := by
    exact_mod_cast hmantissa
  calc b.value + 2 ^ b.exponent = (b.mantissa + 1) * 2 ^ b.exponent := by unfold value; ring
    _ ≤ _ := mul_le_mul_of_nonneg_right hsucc (two_zpow_pos _).le

end Canonical

/-- The distance to the next number below: a unit, but half of one where the numbers below are
    written with a smaller exponent. -/
def gapBelow (b : Binary) : ℚ :=
  if b.mantissa = 2 ^ 52 ∧ b.exponent > -1074 then 2 ^ (b.exponent - 1) else 2 ^ b.exponent

theorem gapBelow_pos (b : Binary) : 0 < b.gapBelow := by
  unfold gapBelow
  split <;> exact two_zpow_pos _

theorem gapBelow_le (b : Binary) : b.gapBelow ≤ 2 ^ b.exponent := by
  unfold gapBelow
  split
  · exact zpow_le_zpow_right₀ one_le_two (by omega)
  · exact le_rfl

/-- **The next number below** is at least this far away. -/
theorem Canonical.gap_below {b b' : Binary} (hb : b.Canonical) (hb' : b'.Canonical)
    (h : b'.value < b.value) : b'.value + b.gapBelow ≤ b.value := by
  have hexponent : b'.exponent ≤ b.exponent := by
    by_contra hlt
    exact absurd h (hb.value_lt hb' (not_le.mp hlt)).not_gt
  rcases hexponent.lt_or_eq with hlt | heq
  · -- the number below has at most the greatest mantissa and the next smaller exponent
    have hnormal : 2 ^ 52 ≤ b.mantissa := by
      have := hb'.least
      exact hb.normal.resolve_right (by omega)
    have hmantissa' : (b'.mantissa : ℚ) ≤ 2 ^ 53 - 1 := by
      have : (b'.mantissa : ℚ) + 1 ≤ 2 ^ 53 := by exact_mod_cast hb'.mantissa_lt
      linarith
    have hvalue : b'.value ≤ (2 ^ 53 - 1) * 2 ^ (b.exponent - 1) := by
      unfold value
      refine mul_le_mul hmantissa' ?_ (two_zpow_pos _).le (by norm_num)
      exact zpow_le_zpow_right₀ one_le_two (by omega)
    have hunit := two_zpow_eq b.exponent
    have hpos := two_zpow_pos (b.exponent - 1)
    have hself : b.value = b.mantissa * (2 ^ (b.exponent - 1) * 2) := by rw [← hunit]; rfl
    rw [hself]
    unfold gapBelow
    split
    · rename_i hlow
      rw [hlow.1]
      push_cast
      linarith
    · rename_i hlow
      have hmore : (2 : ℚ) ^ 52 + 1 ≤ b.mantissa := by
        have : 2 ^ 52 ≠ b.mantissa := fun h => hlow ⟨h.symm, by have := hb'.least; omega⟩
        exact_mod_cast Nat.lt_of_le_of_ne hnormal this
      have := mul_le_mul_of_nonneg_right hmore hpos.le
      rw [hunit]
      linarith
  · have hmantissa : b'.mantissa < b.mantissa := by
      unfold value at h
      rw [heq] at h
      exact_mod_cast lt_of_mul_lt_mul_right h (two_zpow_pos _).le
    have hsucc : (b'.mantissa : ℚ) + 1 ≤ b.mantissa := by exact_mod_cast hmantissa
    have hstep := mul_le_mul_of_nonneg_right hsucc (two_zpow_pos b.exponent).le
    have hgap := b.gapBelow_le
    unfold value
    rw [heq]
    linarith

/-! ## 2. Rounding -/

/-- The magnitude is rounded to these parts: no number that could be written so is nearer, and if
    another one is as near, then the mantissa is even. A number beyond all floats counts as one that
    could be, so that nothing which overflows is rounded to the greatest float. -/
structure RoundsTo (q : ℚ) (b : Binary) : Prop where
  nearest {b' : Binary} : b'.Canonical → |q - b.value| ≤ |q - b'.value|
  even {b' : Binary} : b'.Canonical → b'.value ≠ b.value → |q - b.value| = |q - b'.value| →
    b.mantissa % 2 = 0

/-- Of two numbers that are equally near, the lesser one is not even. -/
theorem RoundsTo.not_below {q : ℚ} {b b' : Binary} (hb : b.Canonical) (hb' : b'.Canonical)
    (hq : RoundsTo q b) (hq' : RoundsTo q b') : ¬ b.value < b'.value := by
  intro hlt
  have hsame : |q - b.value| = |q - b'.value| := le_antisymm (hq.nearest hb') (hq'.nearest hb)
  have heven := hq.even hb' hlt.ne' hsame
  have heven' := hq'.even hb hlt.ne hsame.symm
  have hmiddle : q - b.value = b'.value - q := by
    rcases abs_eq_abs.mp hsame with h | h
    · linarith
    · linarith
  -- the number that follows has an odd mantissa, and nothing lies before it
  have hnext : Canonical ⟨b.negative, b.mantissa + 1, b.exponent⟩ := by
    refine ⟨?_, hb.least, ?_⟩
    · show b.mantissa + 1 < 2 ^ 53
      have := hb.mantissa_lt
      omega
    · show 2 ^ 52 ≤ b.mantissa + 1 ∨ _
      exact hb.normal.imp_left fun h => by omega
  have hvalue : (⟨b.negative, b.mantissa + 1, b.exponent⟩ : Binary).value =
      b.value + 2 ^ b.exponent := by
    unfold value
    push_cast
    ring
  have hpos := two_zpow_pos b.exponent
  have habove := hb.gap_above hb' hlt
  have hequal : b'.value = b.value + 2 ^ b.exponent := by
    by_contra hne
    have hnear := hq.nearest hnext
    have hfirst : |q - b.value| = q - b.value := abs_of_nonneg (by linarith)
    have hstrict : b.value + 2 ^ b.exponent < b'.value := lt_of_le_of_ne habove (Ne.symm hne)
    rw [hvalue, hfirst] at hnear
    rcases abs_cases (q - (b.value + 2 ^ b.exponent)) with ⟨h, -⟩ | ⟨h, -⟩ <;> rw [h] at hnear <;>
      linarith
  have hparts := hb'.eq_of_value_eq hnext (hequal.trans hvalue.symm)
  have hmantissa : b'.mantissa = b.mantissa + 1 := hparts.1
  omega

/-- **A number is rounded in one way.** -/
theorem RoundsTo.unique {q : ℚ} {b b' : Binary} (hb : b.Canonical) (hb' : b'.Canonical)
    (hq : RoundsTo q b) (hq' : RoundsTo q b') :
    b.mantissa = b'.mantissa ∧ b.exponent = b'.exponent := by
  refine hb.eq_of_value_eq hb' ?_
  exact le_antisymm (not_lt.mp (hq'.not_below hb' hb hq)) (not_lt.mp (hq.not_below hb hb' hq'))

theorem roundsTo_zero {b : Binary} (h : b.mantissa = 0) : RoundsTo 0 b := by
  have hvalue : b.value = 0 := by rw [value, h, Nat.cast_zero, zero_mul]
  refine ⟨fun _ => ?_, fun _ _ _ => by rw [h]⟩
  rw [hvalue, sub_zero, abs_zero]
  exact abs_nonneg _

end Binary

/-! ## 3. The rounding interval -/

namespace Decimal

/-- The number that a decimal denotes. -/
def value (d : Decimal) : ℚ :=
  d.coefficient * 10 ^ d.exponent

/-- Powers with a negative exponent are divided by, those with a positive one are multiplied. -/
theorem zpow_mul_toNat {a : ℚ} (ha : a ≠ 0) (k : ℤ) : a ^ k * a ^ (-k).toNat = a ^ k.toNat := by
  rw [← zpow_natCast, ← zpow_natCast, ← zpow_add₀ ha]
  congr 1
  omega

namespace Interval

/-- The number lies in the range. -/
def Contains (i : Interval) (q : ℚ) : Prop :=
  if i.closed then i.low ≤ q * i.den ∧ q * i.den ≤ i.high
  else i.low < q * i.den ∧ q * i.den < i.high

theorem holds_iff (i : Interval) (c : ℕ) : i.holds c = true ↔ i.Contains c := by
  unfold holds Contains
  split
  · rw [Bool.and_eq_true, decide_eq_true_iff, decide_eq_true_iff]
    exact_mod_cast Iff.rfl
  · rw [Bool.and_eq_true, decide_eq_true_iff, decide_eq_true_iff]
    exact_mod_cast Iff.rfl

/-- A number of units of `10 ^ k` lies in the range that is measured in them. -/
theorem scale_contains (i : Interval) (k : ℤ) (q : ℚ) :
    (i.scale k).Contains q ↔ i.Contains (q * 10 ^ k) := by
  have hup : (0 : ℚ) < 10 ^ (-k).toNat := by positivity
  have hnumerator : q * (i.den * 10 ^ k.toNat) = q * 10 ^ k * i.den * 10 ^ (-k).toNat := by
    rw [← zpow_mul_toNat (by norm_num) k]
    ring
  unfold Contains scale
  simp only [Nat.pow_eq, Nat.cast_mul, Nat.cast_pow, Nat.cast_ofNat]
  rw [hnumerator, mul_le_mul_iff_left₀ hup, mul_le_mul_iff_left₀ hup, mul_lt_mul_iff_left₀ hup,
    mul_lt_mul_iff_left₀ hup]

/-- Only whole numbers in the range are found. -/
theorem nearest?_contains {i : Interval} {c : ℕ} (h : i.nearest? = some c) : i.Contains c := by
  rw [← holds_iff]
  simp only [nearest?] at h
  split at h
  · rename_i hlower hupper
    cases h
    split <;> assumption
  · cases h
    assumption
  · cases h
    assumption
  · cases h

/-- A unit of the float is four quarters. -/
theorem unit_eq (e : ℤ) : (2 : ℚ) ^ e = 2 ^ (e - 2) * 4 := by
  rw [Binary.two_zpow_eq e, Binary.two_zpow_eq (e - 1), sub_sub]
  norm_num
  ring

/-- A quarter of a unit, measured by the denominator. -/
theorem up_eq (e : ℤ) : (2 : ℚ) ^ (e - 2).toNat = 2 ^ (e - 2) * 2 ^ (2 - e).toNat := by
  rw [← zpow_mul_toNat two_ne_zero, neg_sub]

theorem den_pos (b : Binary) : 0 < (ofBinary b).den :=
  Nat.pow_pos two_pos

/-- The number itself as a numerator. -/
theorem ofBinary_value (b : Binary) :
    ((ofBinary b).value : ℚ) / (ofBinary b).den = b.value := by
  have hden : ((ofBinary b).den : ℚ) ≠ 0 := Nat.cast_ne_zero.mpr (den_pos b).ne'
  rw [div_eq_iff hden, Binary.value, unit_eq]
  unfold ofBinary
  simp only [Nat.pow_eq, Nat.cast_mul, Nat.cast_pow, Nat.cast_ofNat]
  rw [up_eq]
  ring

/-- The number itself lies on each decimal grid that is as fine as its unit. -/
theorem den_dvd_value (b : Binary) {k : ℤ} (hk : k ≤ b.exponent) (hnonpos : k ≤ 0) :
    ((ofBinary b).scale k).den ∣ ((ofBinary b).scale k).value := by
  unfold scale ofBinary
  simp only [Nat.pow_eq]
  rw [Int.toNat_of_nonpos hnonpos, pow_zero, mul_one]
  have hdvd : 2 ^ (2 - b.exponent).toNat ∣ 4 * 10 ^ (-k).toNat :=
    calc 2 ^ (2 - b.exponent).toNat ∣ 2 ^ (2 + (-k).toNat) := pow_dvd_pow 2 (by omega)
      _ = 4 * 2 ^ (-k).toNat := pow_add 2 2 _
      _ ∣ 4 * 10 ^ (-k).toNat := Nat.mul_dvd_mul_left 4 (pow_dvd_pow_of_dvd (by norm_num) _)
  obtain ⟨c, hc⟩ := hdvd
  refine ⟨c * b.mantissa * 2 ^ (b.exponent - 2).toNat, ?_⟩
  calc 4 * b.mantissa * 2 ^ (b.exponent - 2).toNat * 10 ^ (-k).toNat
      = (4 * 10 ^ (-k).toNat) * b.mantissa * 2 ^ (b.exponent - 2).toNat := by ring
    _ = _ := by rw [hc]; ring

/-- The rounding interval goes to the middle between a float and its neighbours, which itself
    belongs to it if the mantissa is even. -/
theorem ofBinary_contains {b : Binary} (hpos : 0 < b.mantissa) (q : ℚ) :
    (ofBinary b).Contains q ↔
      if b.mantissa % 2 = 0 then b.value - b.gapBelow / 2 ≤ q ∧ q ≤ b.value + 2 ^ b.exponent / 2
      else b.value - b.gapBelow / 2 < q ∧ q < b.value + 2 ^ b.exponent / 2 := by
  have hunit := unit_eq b.exponent
  have hvalue : b.value = 4 * b.mantissa * 2 ^ (b.exponent - 2) := by
    rw [Binary.value, hunit]
    ring
  obtain ⟨below, hbelow, hle, hgap⟩ : ∃ below : ℕ,
      below = (if b.mantissa = 2 ^ 52 ∧ b.exponent > -1074 then 1 else 2) ∧ below ≤ 2 ∧
        b.gapBelow / 2 = below * 2 ^ (b.exponent - 2) := by
    refine ⟨_, rfl, by split <;> decide, ?_⟩
    unfold Binary.gapBelow
    split
    · rw [Binary.two_zpow_eq (b.exponent - 1), sub_sub]
      norm_num
    · rw [hunit]
      push_cast
      ring
  have hlow : b.value - b.gapBelow / 2 =
      ((4 * b.mantissa - below : ℕ) : ℚ) * 2 ^ (b.exponent - 2) := by
    rw [hvalue, hgap, Nat.cast_sub (by omega)]
    push_cast
    ring
  have hhigh : b.value + 2 ^ b.exponent / 2 = (4 * b.mantissa + 2) * 2 ^ (b.exponent - 2) := by
    rw [hvalue, hunit]
    ring
  have hden : (0 : ℚ) < (2 : ℚ) ^ (2 - b.exponent).toNat := by positivity
  unfold Contains ofBinary
  simp only [Nat.pow_eq, ← hbelow, Nat.cast_mul, Nat.cast_pow, Nat.cast_ofNat, Nat.cast_add,
    decide_eq_true_iff]
  rw [hlow, hhigh, up_eq, ← mul_assoc, ← mul_assoc, mul_le_mul_iff_left₀ hden,
    mul_le_mul_iff_left₀ hden, mul_lt_mul_iff_left₀ hden, mul_lt_mul_iff_left₀ hden]

/-- The range holds the number itself. -/
theorem value_contains {b : Binary} (hpos : 0 < b.mantissa) : (ofBinary b).Contains b.value := by
  have hgap := b.gapBelow_pos
  have hunit := Binary.two_zpow_pos b.exponent
  rw [ofBinary_contains hpos]
  split <;> constructor <;> linarith

/-- **The numbers in the rounding interval of a float are rounded to it.** -/
theorem roundsTo {b : Binary} (hb : b.Canonical) (hpos : 0 < b.mantissa) {q : ℚ}
    (h : (ofBinary b).Contains q) : b.RoundsTo q := by
  rw [ofBinary_contains hpos] at h
  have hclosed : b.value - b.gapBelow / 2 ≤ q ∧ q ≤ b.value + 2 ^ b.exponent / 2 := by
    split at h
    · exact h
    · exact ⟨h.1.le, h.2.le⟩
  have hself : q - b.value ≤ 2 ^ b.exponent / 2 ∧ b.value - q ≤ b.gapBelow / 2 :=
    ⟨by linarith [hclosed.2], by linarith [hclosed.1]⟩
  have hgap := b.gapBelow_pos
  have hunit := Binary.two_zpow_pos b.exponent
  -- the middle is as far from a neighbour as from the float, and the rest of the range further
  have hother {b' : Binary} (hb' : b'.Canonical) (hne : b'.value ≠ b.value) :
      |q - b.value| ≤ |q - b'.value| ∧
        (|q - b.value| = |q - b'.value| →
          q = b.value - b.gapBelow / 2 ∨ q = b.value + 2 ^ b.exponent / 2) := by
    rcases lt_or_gt_of_ne hne with hlt | hgt
    · have hfar := hb.gap_below hb' hlt
      have habs : |q - b'.value| = q - b'.value := abs_of_nonneg (by linarith)
      rw [habs]
      rcases abs_cases (q - b.value) with ⟨h, -⟩ | ⟨h, -⟩ <;> rw [h]
      · exact ⟨by linarith, fun heq => absurd heq (by linarith)⟩
      · exact ⟨by linarith, fun heq => .inl (by linarith)⟩
    · have hfar := hb.gap_above hb' hgt
      have habs : |q - b'.value| = -(q - b'.value) := abs_of_nonpos (by linarith)
      rw [habs]
      rcases abs_cases (q - b.value) with ⟨h, -⟩ | ⟨h, -⟩ <;> rw [h]
      · exact ⟨by linarith, fun heq => .inr (by linarith)⟩
      · exact ⟨by linarith, fun heq => absurd heq (by linarith)⟩
  refine ⟨fun {b'} hb' => ?_, fun {b'} hb' hne heq => ?_⟩
  · rcases eq_or_ne b'.value b.value with heq | hne
    · rw [heq]
    · exact (hother hb' hne).1
  · by_contra hodd
    rw [if_neg hodd] at h
    rcases (hother hb' hne).2 heq with hend | hend
    · exact absurd h.1 (by rw [hend]; exact lt_irrefl _)
    · exact absurd h.2 (by rw [hend]; exact lt_irrefl _)

end Interval

/-! ## 4. The shortest decimal -/

/-- The search stays in the range if the last grid holds the number itself. -/
theorem search_contains {i : Interval} (hself : i.Contains (i.value / i.den)) (hden : 0 < i.den) :
    ∀ (fuel : ℕ) (k : ℤ), (i.scale (k - fuel)).den ∣ (i.scale (k - fuel)).value →
      i.Contains (search i fuel k).value := by
  intro fuel
  induction fuel with
  | zero =>
    intro k hgrid
    rw [Nat.cast_zero, sub_zero] at hgrid
    have hup : (10 : ℚ) ^ (-k).toNat ≠ 0 := by positivity
    have hden' : (i.den : ℚ) ≠ 0 := by positivity
    have hvalue : (search i 0 k).value = i.value / i.den := by
      unfold search value
      have hscaled : ((i.scale k).den : ℚ) ≠ 0 := by
        unfold Interval.scale
        simp only [Nat.pow_eq]
        positivity
      rw [Nat.cast_div hgrid hscaled]
      unfold Interval.scale
      simp only [Nat.pow_eq, Nat.cast_mul, Nat.cast_pow, Nat.cast_ofNat]
      rw [← zpow_mul_toNat (by norm_num) k]
      field_simp
    rw [hvalue]
    exact hself
  | succ fuel ih =>
    intro k hgrid
    unfold search
    split
    · rename_i c hc
      exact (i.scale_contains k c).mp (Interval.nearest?_contains hc)
    · refine ih (k - 1) ?_
      rwa [sub_sub, add_comm (1 : ℤ), ← Nat.cast_succ]

/-- Zeros that become part of the exponent leave the number as it is. -/
theorem value_strip : ∀ (fuel : ℕ) (d : Decimal), (strip fuel d).value = d.value
  | 0, _ => rfl
  | fuel + 1, d => by
    unfold strip
    split
    · rename_i hzero
      rw [value_strip fuel]
      obtain ⟨c, hc⟩ := Nat.dvd_of_mod_eq_zero hzero.2
      unfold value
      rw [hc, Nat.mul_div_cancel_left _ (by norm_num), zpow_add_one₀ (by norm_num)]
      push_cast
      ring
    · rfl

/-- **The shortest decimal of a float is rounded to it.** -/
theorem shortest_roundsTo {b : Binary} (hb : b.Canonical) : b.RoundsTo (shortest b).value := by
  unfold shortest
  split
  · rename_i hzero
    rw [value, Nat.cast_zero, zero_mul]
    exact Binary.roundsTo_zero hzero
  · rename_i hnonzero
    have hpos : 0 < b.mantissa := Nat.pos_of_ne_zero hnonzero
    simp only
    rw [value_strip]
    have hself : (Interval.ofBinary b).Contains
        ((Interval.ofBinary b).value / (Interval.ofBinary b).den) := by
      rw [Interval.ofBinary_value]
      exact Interval.value_contains hpos
    refine Interval.roundsTo hb hpos (search_contains hself (Interval.den_pos b) _ _ ?_)
    exact Interval.den_dvd_value b (by omega) (by omega)

end Decimal

end FencedCode
