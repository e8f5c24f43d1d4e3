import FencedCode.Decimal.Notation
import FencedCode.Proofs.Decimal.Rounding
import FencedCode.Proofs.Token.Numerals

/-!
# Decimals and their layouts

A decimal is written with digits alone, with a decimal point among them, or with its leading digit
in front of the point and an exponent. Whatever the layout, the text denotes the decimal.

* `Text.number` -- the number that a numeral denotes;
* `Text.pointed`, `Text.magnitude_pointed`, `Text.magnitude_scaled` -- numerals put together, and
  what they denote;
* `Decimal.positional_eq` -- **the positional layout denotes the decimal**;
* `Decimal.scaled_eq` -- **so do the leading digit, the others and the exponent**;
* `Decimal.value_bounds` -- the exponent is that of the leading digit.
-/

namespace FencedCode

/-! ## 1. Digits -/

namespace Text

theorem IsDigits.not_mem {t : Text} (ht : t.IsDigits) {b : UInt8} (hb : b ∉ Text.digits) :
    b ∉ t :=
  fun h => hb (ht.digits b h)

theorem decimal_append (s t : Text) : decimal (s ++ t) = decimal s * 10 ^ t.length + decimal t := by
  unfold decimal
  rw [List.reverse_append, List.map_append, Nat.ofDigits_append, List.length_map,
    List.length_reverse, Nat.add_comm, Nat.mul_comm]

theorem decimal_singleton (b : UInt8) : decimal [b] = digitValue b :=
  Nat.ofDigits_singleton

/-- Zeros in front of digits change nothing. -/
theorem decimal_zeros (n : Nat) (t : Text) : decimal (List.replicate n 48 ++ t) = decimal t := by
  induction n with
  | zero => rfl
  | succ n ih =>
    rw [List.replicate_succ, List.cons_append, ← List.singleton_append, decimal_append, ih,
      decimal_singleton]
    show 0 * _ + _ = _
    rw [Nat.zero_mul, Nat.zero_add]

theorem decimal_dropZeros (t : Text) : decimal (t.dropWhile (· == 48)) = decimal t := by
  have hzeros : t.takeWhile (· == 48) = List.replicate (t.takeWhile (· == 48)).length 48 := by
    refine List.eq_replicate_of_mem fun b hb => ?_
    have hzero : (b == 48) = true := List.mem_takeWhile_imp (p := (· == 48)) hb
    exact beq_iff_eq.mp hzero
  conv_rhs => rw [← List.takeWhile_append_dropWhile (p := (· == 48)) (l := t), hzeros]
  rw [decimal_zeros]

theorem digitValue_bounds {b : UInt8} (hb : b ∈ digits) :
    digitValue b < 10 ∧ (b ≠ 48 → 0 < digitValue b) := by
  have hall : digits.all fun b => digitValue b < 10 ∧ (b ≠ 48 → 0 < digitValue b) := by decide
  exact of_decide_eq_true (List.all_eq_true.mp hall b hb)

/-- Digits denote less than the power of ten that follows them. -/
theorem decimal_lt {t : Text} (ht : ∀ b ∈ t, b ∈ digits) : decimal t < 10 ^ t.length := by
  have hbound := Nat.ofDigits_lt_base_pow_length (b := 10) (l := t.reverse.map digitValue)
    (by decide) fun d hd => by
      obtain ⟨b, hb, rfl⟩ := List.mem_map.mp hd
      exact (digitValue_bounds (ht b (List.mem_reverse.mp hb))).1
  rwa [List.length_map, List.length_reverse] at hbound

/-- A leading digit that is not zero counts its power of ten at least once. -/
theorem le_decimal {b : UInt8} (hb : b ∈ digits) (hnonzero : b ≠ 48) (t : Text) :
    10 ^ t.length ≤ decimal (b :: t) := by
  have hpos := (digitValue_bounds hb).2 hnonzero
  rw [← List.singleton_append, decimal_append, decimal_singleton]
  exact le_add_right (Nat.le_mul_of_pos_left _ hpos)

theorem digitsInto_head : ∀ (fuel n : Nat) (acc : Text), n < fuel → n ≠ 0 →
    ∃ b t, digitsInto fuel n acc = b :: t ∧ b ≠ 48
  | 0, _, _, h, _ => absurd h (Nat.not_lt_zero _)
  | fuel + 1, n, acc, h, hn => by
    by_cases hlow : n < 10
    · refine ⟨digit n, acc, if_pos hlow, ?_⟩
      have hall : ∀ d : Fin 10, d.val ≠ 0 → digit d ≠ 48 := by decide
      exact hall ⟨n, hlow⟩ hn
    · obtain ⟨b, t, ht, hb⟩ :=
        digitsInto_head fuel (n / 10) (digit (n % 10) :: acc) (by omega) (by omega)
      exact ⟨b, t, (if_neg hlow).trans ht, hb⟩

/-- **No numeral starts with a zero**, but that of zero. -/
theorem ofNat_head {n : Nat} (hn : n ≠ 0) : ∃ b t, ofNat n = b :: t ∧ b ≠ 48 :=
  digitsInto_head (n + 1) n [] (Nat.lt_succ_self n) hn

/-- The numeral of an integer has a sign if the integer is negative. -/
theorem ofInt_eq (n : Int) : ofInt n = Decimal.sign (decide (n < 0)) ++ ofNat n.natAbs := by
  cases n with
  | ofNat n => rfl
  | negSucc n =>
    rw [decide_eq_true (Int.negSucc_lt_zero n)]
    rfl

/-! ## 2. Numerals and what they denote -/

/-- Digits before and behind a decimal point, which is left out if none follow it. -/
def pointed (whole fraction : Text) : Text :=
  whole ++ if fraction = [] then [] else 46 :: fraction

/-- The number that digits denote, some of which may follow a decimal point. -/
def fixedPoint (t : Text) : ℚ :=
  let fraction := (t.dropWhile (· != 46)).tail
  decimal (t.takeWhile (· != 46) ++ fraction) / 10 ^ fraction.length

/-- The integer that digits behind a sign denote. -/
def signedDecimal (t : Text) : ℤ :=
  if t.head? = some 45 then -(decimal t.tail : ℤ)
  else if t.head? = some 43 then decimal t.tail
  else decimal t

/-- The exponent of a numeral, which follows an `E`. -/
def power (t : Text) : ℤ :=
  signedDecimal (t.dropWhile (· != 69)).tail

/-- The number that a numeral without a sign denotes. -/
def magnitude (t : Text) : ℚ :=
  fixedPoint (t.takeWhile (· != 69)) * 10 ^ power t

/-- **The number that a numeral denotes.** -/
def number (t : Text) : ℚ :=
  if t.head? = some 45 then -magnitude t.tail else magnitude t

/-- A list is taken up to the first element that fails. -/
theorem split_at {p : UInt8 → Bool} {a : Text} (ha : ∀ b ∈ a, p b = true) {b : UInt8}
    (hb : p b = false) (t : Text) :
    (a ++ b :: t).takeWhile p = a ∧ (a ++ b :: t).dropWhile p = b :: t := by
  rw [List.takeWhile_append_of_pos ha, List.dropWhile_append_of_pos ha,
    List.takeWhile_cons_of_neg (by rw [hb]; exact Bool.false_ne_true),
    List.dropWhile_cons_of_neg (by rw [hb]; exact Bool.false_ne_true), List.append_nil]
  exact ⟨rfl, rfl⟩

theorem bne_of_not_mem {a : Text} {b : UInt8} (h : b ∉ a) : ∀ c ∈ a, (c != b) = true :=
  fun _ hc => bne_iff_ne.mpr fun heq => h (heq ▸ hc)

/-- Without the byte looked for, all is taken. -/
theorem split_none {a : Text} {b : UInt8} (h : b ∉ a) :
    a.takeWhile (· != b) = a ∧ a.dropWhile (· != b) = [] :=
  ⟨List.takeWhile_eq_self_iff.mpr (bne_of_not_mem h),
    List.dropWhile_eq_nil_iff.mpr (bne_of_not_mem h)⟩

section Pointed

variable {whole fraction : Text}

theorem mem_pointed {b : UInt8} (hb : b ∈ pointed whole fraction) :
    b ∈ whole ∨ b = 46 ∨ b ∈ fraction := by
  unfold pointed at hb
  rcases List.mem_append.mp hb with hb | hb
  · exact .inl hb
  · split at hb
    · cases hb
    · exact .inr (List.mem_cons.mp hb)

theorem not_mem_pointed (hwhole : ∀ b ∈ whole, b ∈ digits) (hfraction : ∀ b ∈ fraction, b ∈ digits)
    {b : UInt8} (hb : b ∉ digits) (hpoint : b ≠ 46) : b ∉ pointed whole fraction := by
  intro h
  rcases mem_pointed h with h | h | h
  · exact hb (hwhole b h)
  · exact hpoint h
  · exact hb (hfraction b h)

theorem fixedPoint_pointed (hwhole : ∀ b ∈ whole, b ∈ digits) :
    fixedPoint (pointed whole fraction) = decimal (whole ++ fraction) / 10 ^ fraction.length := by
  have hpoint : 46 ∉ whole := fun h => absurd (hwhole 46 h) (by decide)
  unfold fixedPoint pointed
  split
  · rename_i hnone
    rw [List.append_nil, (split_none hpoint).1, (split_none hpoint).2, hnone]
    rfl
  · obtain ⟨htake, hdrop⟩ := split_at (bne_of_not_mem hpoint) (bne_self_eq_false (46 : UInt8))
      fraction
    rw [htake, hdrop]
    rfl

/-- **Digits with a decimal point** denote the whole number of all digits, divided by a power of
    ten. -/
theorem magnitude_pointed (hwhole : ∀ b ∈ whole, b ∈ digits)
    (hfraction : ∀ b ∈ fraction, b ∈ digits) :
    magnitude (pointed whole fraction) = decimal (whole ++ fraction) / 10 ^ fraction.length := by
  have hletter := not_mem_pointed hwhole hfraction (b := 69) (by decide) (by decide)
  unfold magnitude power
  rw [(split_none hletter).1, (split_none hletter).2, fixedPoint_pointed hwhole]
  show _ * (10 : ℚ) ^ (0 : ℤ) = _
  rw [zpow_zero, mul_one]

/-- **An exponent** multiplies by its power of ten. -/
theorem magnitude_scaled (hwhole : ∀ b ∈ whole, b ∈ digits)
    (hfraction : ∀ b ∈ fraction, b ∈ digits) (exponent : Text) :
    magnitude (pointed whole fraction ++ 69 :: exponent) =
      decimal (whole ++ fraction) / 10 ^ fraction.length * 10 ^ signedDecimal exponent := by
  have hletter := not_mem_pointed hwhole hfraction (b := 69) (by decide) (by decide)
  obtain ⟨htake, hdrop⟩ := split_at (bne_of_not_mem hletter) (bne_self_eq_false (69 : UInt8))
    exponent
  unfold magnitude power
  rw [htake, hdrop, fixedPoint_pointed hwhole]
  rfl

end Pointed

/-- The sign of a numeral. -/
theorem number_sign (negative : Bool) {t : Text} (ht : t.head? ≠ some 45) :
    number (Decimal.sign negative ++ t) = if negative then -magnitude t else magnitude t := by
  cases negative with
  | true => rfl
  | false => exact if_neg ht

end Text

/-! ## 3. Layouts of a decimal -/

namespace Decimal

open Text

variable (d : Decimal)

theorem isDigits_digits : d.digits.IsDigits :=
  isDigits_ofNat d.coefficient

theorem decimal_digits : decimal d.digits = d.coefficient :=
  decimal_ofNat d.coefficient

theorem isDigits_zeros_append (n : ℕ) : ∀ b ∈ List.replicate n 48 ++ d.digits, b ∈ Text.digits := by
  intro b hb
  rcases List.mem_append.mp hb with hb | hb
  · exact List.eq_of_mem_replicate hb ▸ by decide
  · exact d.isDigits_digits.digits b hb

/-- **The positional layout** denotes the decimal. -/
theorem positional_eq : ∃ whole fraction : Text, d.positional = pointed whole fraction ∧
    whole.IsDigits ∧ (∀ b ∈ fraction, b ∈ Text.digits) ∧
      (decimal (whole ++ fraction) : ℚ) / 10 ^ fraction.length = d.value := by
  have hdigits := d.isDigits_digits
  have hten : (10 : ℚ) ≠ 0 := by norm_num
  have hplaces (places : ℕ) (h : places = (-d.exponent).toNat) (hneg : d.exponent < 0) :
      (d.coefficient : ℚ) / 10 ^ places = d.value := by
    rw [value, ← zpow_natCast, div_eq_mul_inv, ← zpow_neg]
    congr 2
    omega
  unfold positional
  dsimp only
  split
  · rename_i hexponent
    refine ⟨d.digits ++ List.replicate d.exponent.toNat 48, [], (List.append_nil _).symm,
      ⟨List.append_ne_nil_of_left_ne_nil hdigits.ne_nil _, ?_⟩, fun _ h => absurd h (by simp), ?_⟩
    · intro b hb
      rcases List.mem_append.mp hb with hb | hb
      · exact hdigits.digits b hb
      · exact List.eq_of_mem_replicate hb ▸ by decide
    · have hzeros : decimal (List.replicate d.exponent.toNat 48) = 0 := by
        rw [← List.append_nil (List.replicate _ _), decimal_zeros]
        rfl
      rw [List.append_nil, decimal_append, hzeros, decimal_digits, List.length_replicate, value]
      show ((d.coefficient * 10 ^ d.exponent.toNat + 0 : ℕ) : ℚ) / 10 ^ 0 = _
      rw [Nat.add_zero, pow_zero, div_one, Nat.cast_mul, Nat.cast_pow, ← zpow_natCast,
        Int.toNat_of_nonneg hexponent]
      rfl
  · rename_i hexponent
    split
    · rename_i hshort
      refine ⟨d.digits.take (d.digits.length - (-d.exponent).toNat),
        d.digits.drop (d.digits.length - (-d.exponent).toNat), ?_, ⟨?_, ?_⟩, ?_, ?_⟩
      · unfold pointed
        rw [if_neg (mt List.drop_eq_nil_iff.mp (by omega))]
      · exact mt List.take_eq_nil_iff.mp fun h => h.elim (by omega) hdigits.ne_nil
      · exact fun b hb => hdigits.digits b (List.mem_of_mem_take hb)
      · exact fun b hb => hdigits.digits b (List.mem_of_mem_drop hb)
      · rw [List.take_append_drop, decimal_digits, List.length_drop]
        exact hplaces _ (by omega) (by omega)
    · rename_i hlong
      refine ⟨[48], List.replicate ((-d.exponent).toNat - d.digits.length) 48 ++ d.digits, ?_,
        by decide, d.isDigits_zeros_append _, ?_⟩
      · unfold pointed
        rw [if_neg (List.append_ne_nil_of_right_ne_nil _ hdigits.ne_nil)]
        rfl
      · have hzero : decimal ([48] ++ (List.replicate ((-d.exponent).toNat - d.digits.length) 48 ++
            d.digits)) = d.coefficient := by
          rw [← List.append_assoc, ← List.replicate_one, List.replicate_append_replicate,
            decimal_zeros, decimal_digits]
        rw [hzero, List.length_append, List.length_replicate]
        exact hplaces _ (by omega) (by omega)

/-- The leading digit. -/
def lead : UInt8 :=
  d.digits.head d.isDigits_digits.ne_nil

/-- The digits behind the leading one. -/
def rest : Text :=
  d.digits.tail

theorem digits_eq : d.digits = d.lead :: d.rest :=
  (List.cons_head_tail _).symm

theorem lead_mem : d.lead ∈ Text.digits :=
  d.isDigits_digits.digits _ (List.head_mem _)

theorem rest_mem : ∀ b ∈ d.rest, b ∈ Text.digits :=
  fun b hb => d.isDigits_digits.digits b (List.mem_of_mem_tail hb)

theorem decimal_lead_rest : decimal (d.lead :: d.rest) = d.coefficient := by
  rw [← digits_eq, decimal_digits]

theorem magnitude_eq : d.magnitude = d.exponent + d.rest.length := by
  unfold magnitude
  rw [digits_eq, List.length_cons]
  push_cast
  ring

theorem significand_bare : d.significand [] = pointed [d.lead] d.rest := by
  unfold significand
  rw [digits_eq]
  cases d.rest <;> rfl

/-- A fraction is always shown if a lone digit gets a zero. -/
theorem significand_zero :
    d.significand (utf8 ".0") = pointed [d.lead] (if d.rest = [] then [48] else d.rest) := by
  unfold significand
  rw [digits_eq]
  cases d.rest with
  | nil => rfl
  | cons b t =>
    rw [if_neg (List.cons_ne_nil b t)]
    rfl

/-- **The leading digit in front of the point** takes the magnitude as its exponent. -/
theorem scaled_eq : (decimal (d.lead :: d.rest) : ℚ) / 10 ^ d.rest.length * 10 ^ d.magnitude =
    d.value := by
  have hten : (10 : ℚ) ≠ 0 := by norm_num
  rw [decimal_lead_rest, magnitude_eq, zpow_add₀ hten, zpow_natCast, value]
  field_simp

/-- A decimal lies between the power of ten of its leading digit and the next one. -/
theorem value_bounds (hpos : 0 < d.value) :
    (10 : ℚ) ^ d.magnitude ≤ d.value ∧ d.value < 10 ^ (d.magnitude + 1) := by
  have hcoefficient : d.coefficient ≠ 0 := by
    rintro hzero
    rw [value, hzero, Nat.cast_zero, zero_mul] at hpos
    exact lt_irrefl 0 hpos
  have hnonzero : d.lead ≠ 48 := by
    obtain ⟨b, t, hb, hne⟩ := ofNat_head hcoefficient
    have hcons : d.lead :: d.rest = b :: t := d.digits_eq.symm.trans hb
    rwa [(List.cons.inj hcons).1]
  have hunit : (0 : ℚ) < 10 ^ d.exponent := zpow_pos (by norm_num) _
  have hlow : ((10 ^ d.rest.length : ℕ) : ℚ) ≤ d.coefficient := by
    rw [← decimal_lead_rest]
    exact_mod_cast le_decimal d.lead_mem hnonzero d.rest
  have hhigh : (d.coefficient : ℚ) < ((10 ^ (d.rest.length + 1) : ℕ) : ℚ) := by
    rw [← decimal_lead_rest]
    exact_mod_cast decimal_lt (t := d.lead :: d.rest)
      (List.forall_mem_cons.mpr ⟨d.lead_mem, d.rest_mem⟩)
  have hpower (n : ℕ) : (10 : ℚ) ^ (d.exponent + n) = ((10 ^ n : ℕ) : ℚ) * 10 ^ d.exponent := by
    rw [zpow_add₀ (by norm_num), zpow_natCast]
    push_cast
    ring
  constructor
  · rw [magnitude_eq, hpower]
    exact mul_le_mul_of_nonneg_right hlow hunit.le
  · rw [magnitude_eq, add_assoc, ← Nat.cast_succ, hpower]
    exact mul_lt_mul_of_pos_right hhigh hunit

end Decimal

end FencedCode
