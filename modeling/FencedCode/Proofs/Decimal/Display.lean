import FencedCode.Proofs.Decimal.Layout
import FencedCode.Proofs.Decimal.Magnitude
import FencedCode.Value.Basic

/-!
# Displayed floats keep their value

A float has a shortest decimal, which is written with digits alone or with a padded exponent. What a
program displays is one of these two texts, the second one in another style: a lone digit gets a
fraction, the exponent loses its plus sign and its zeros. The text still denotes the same number,
and as this number is rounded to no other float, no two floats are displayed alike.

* `Text.IsFixed`, `Text.IsExponential`, `Text.IsScientific` -- the forms of the texts;
* `Text.restyle`, `Text.number_restyle`, `Text.isScientific_restyle` -- **the other style denotes
  the same number**, whatever the padded numeral;
* `Text.ReadsAs`, `Text.ReadsAs.toBits_eq` -- a text is read as one float at most;
* `Decimal.display_eq` -- what is displayed of a number;
* `Value.float_text_reads` -- **displayed floats keep their value**, and different floats are
  displayed differently.
-/

namespace FencedCode

namespace Text

/-! ## 1. Forms of numerals -/

/-- Digits alone: `[-]digits[.digits]`. -/
def IsFixed (t : Text) : Prop :=
  ∃ (negative : Bool) (whole fraction : Text), whole.IsDigits ∧ (∀ b ∈ fraction, b ∈ digits) ∧
    t = Decimal.sign negative ++ pointed whole fraction

/-- The pieces of a numeral with one digit in front of the point and an exponent. -/
structure Scaled where
  negative : Bool
  lead : UInt8
  fraction : Text
  below : Bool
  exponent : Text
  lead_mem : lead ∈ digits
  fraction_mem : ∀ b ∈ fraction, b ∈ digits
  exponent_digits : exponent.IsDigits

namespace Scaled

variable (n : Scaled)

/-- What stands in front of the `E`. -/
def significand : Text :=
  Decimal.sign n.negative ++ pointed [n.lead] n.fraction

/-- The exponent behind a sign in any case. -/
def padded : Text :=
  n.significand ++ 69 :: (if n.below then 45 else 43) :: n.exponent

/-- The exponent behind a minus sign or no sign. -/
def bare : Text :=
  n.significand ++ 69 :: (Decimal.sign n.below ++ n.exponent)

/-- The exponent as a number. -/
def power : ℤ :=
  if n.below then -(decimal n.exponent : ℤ) else decimal n.exponent

/-- The number that the numeral denotes. -/
def value : ℚ :=
  (if n.negative then -1 else 1) *
    (decimal (n.lead :: n.fraction) / 10 ^ n.fraction.length * 10 ^ n.power)

end Scaled

/-- One digit in front of the point, and an exponent of a sign and at least two digits:
    `[-]d[.digits]E(+|-)dd`. -/
def IsExponential (t : Text) : Prop :=
  ∃ n : Scaled, 2 ≤ n.exponent.length ∧ t = n.padded

/-- One digit in front of the point and at least one behind it, and an exponent without a plus sign
    that starts with no zero: `[-]d.digitsE[-]n`. -/
def IsScientific (t : Text) : Prop :=
  ∃ n : Scaled, n.fraction ≠ [] ∧ n.exponent.head? ≠ some 48 ∧ t = n.bare

/-! ## 2. The other style -/

/-- Digits without the zeros in front of them, but at least one. -/
def trimmed (t : Text) : Text :=
  if t.dropWhile (· == 48) = [] then [48] else t.dropWhile (· == 48)

/-- Gives a numeral a fraction if it has none, and takes plus sign and leading zeros off its
    exponent. -/
def restyle (t : Text) : Text :=
  let significand := t.takeWhile (· != 69)
  let exponent := (t.dropWhile (· != 69)).tail
  significand ++ (if 46 ∈ significand then [] else utf8 ".0") ++
    69 :: (Decimal.sign (exponent.head? = some 45) ++
      trimmed (exponent.dropWhile fun b => b == 43 || b == 45))

theorem decimal_trimmed (t : Text) : decimal (trimmed t) = decimal t := by
  rw [← decimal_dropZeros t]
  unfold trimmed
  split
  · rename_i hnone
    rw [hnone]
    rfl
  · rfl

theorem isDigits_trimmed {t : Text} (ht : t.IsDigits) : (trimmed t).IsDigits := by
  unfold trimmed
  split
  · decide
  · rename_i hsome
    exact ⟨hsome, fun b hb => ht.digits b (List.dropWhile_subset _ hb)⟩

/-- Only zero starts with a zero. -/
theorem trimmed_head {t : Text} (ht : decimal t ≠ 0) : (trimmed t).head? ≠ some 48 := by
  have hnone : t.dropWhile (· == 48) ≠ [] := by
    intro hnone
    rw [← decimal_dropZeros, hnone] at ht
    exact ht rfl
  unfold trimmed
  rw [if_neg hnone]
  intro hhead
  have hnot := List.head?_dropWhile_not (· == 48) t
  rw [hhead] at hnot
  exact Bool.false_ne_true hnot.symm

/-- A sign is written only if it is a minus sign. -/
theorem sign_append_head (negative : Bool) {t : Text} (ht : t.head? ≠ some 45) :
    (Decimal.sign negative ++ t).head? = some 45 ↔ negative = true := by
  cases negative with
  | true => exact ⟨fun _ => rfl, fun _ => rfl⟩
  | false => exact ⟨fun h => absurd h ht, nofun⟩

theorem not_mem_sign (negative : Bool) {b : UInt8} (hb : b ≠ 45) : b ∉ Decimal.sign negative := by
  cases negative with
  | true => exact fun h => hb (List.mem_singleton.mp h)
  | false => exact List.not_mem_nil

theorem IsDigits.head_ne {t : Text} (ht : t.IsDigits) {b : UInt8} (hb : b ∉ Text.digits) :
    t.head? ≠ some b :=
  fun h => ht.not_mem hb (List.mem_of_head? h)

theorem pointed_head {whole fraction : Text} (hwhole : whole.IsDigits) :
    (pointed whole fraction).head? ≠ some 45 := by
  unfold pointed
  rw [List.head?_append_of_ne_nil _ hwhole.ne_nil]
  exact hwhole.head_ne (by decide)

namespace Scaled

variable (n : Scaled)

theorem lead_digits : ∀ b ∈ [n.lead], b ∈ digits :=
  List.forall_mem_singleton.mpr n.lead_mem

theorem lead_head (t : Text) : (pointed [n.lead] n.fraction ++ t).head? ≠ some 45 := by
  intro h
  have hlead : n.lead = 45 := Option.some.inj h
  exact absurd (hlead ▸ n.lead_mem) (by decide)

theorem significand_head (t : Text) :
    (n.significand ++ t).head? = some 45 ↔ n.negative = true := by
  unfold significand
  rw [List.append_assoc]
  exact sign_append_head _ (n.lead_head t)

theorem number_of_signedDecimal {e : Text} (he : signedDecimal e = n.power) :
    number (n.significand ++ 69 :: e) = n.value := by
  unfold significand value
  rw [List.append_assoc, number_sign _ (n.lead_head _),
    magnitude_scaled n.lead_digits n.fraction_mem, he, List.singleton_append]
  split
  · rw [neg_one_mul]
  · rw [one_mul]

theorem signedDecimal_padded :
    signedDecimal ((if n.below then 45 else 43) :: n.exponent) = n.power := by
  unfold signedDecimal power
  cases n.below <;> rfl

theorem number_padded : number n.padded = n.value :=
  n.number_of_signedDecimal n.signedDecimal_padded

theorem number_bare : number n.bare = n.value := by
  refine n.number_of_signedDecimal ?_
  unfold power
  cases n.below with
  | true => rfl
  | false =>
    have hminus := n.exponent_digits.head_ne (b := 45) (by decide)
    have hplus := n.exponent_digits.head_ne (b := 43) (by decide)
    exact (if_neg hminus).trans (if_neg hplus)

/-- The same numeral with a fraction and without leading zeros in the exponent. -/
def restyled : Scaled where
  negative := n.negative
  lead := n.lead
  fraction := if n.fraction = [] then [48] else n.fraction
  below := n.below
  exponent := trimmed n.exponent
  lead_mem := n.lead_mem
  fraction_mem := by
    split
    · exact List.forall_mem_singleton.mpr (by decide)
    · exact n.fraction_mem
  exponent_digits := isDigits_trimmed n.exponent_digits

theorem power_restyled : n.restyled.power = n.power := by
  unfold power restyled
  simp only
  rw [decimal_trimmed]

theorem value_restyled : n.restyled.value = n.value := by
  have hfraction : (decimal (n.lead :: n.restyled.fraction) : ℚ) / 10 ^ n.restyled.fraction.length =
      decimal (n.lead :: n.fraction) / 10 ^ n.fraction.length := by
    by_cases hnone : n.fraction = []
    · have hzero : decimal [n.lead, 48] = decimal [n.lead] * 10 := by
        rw [← List.singleton_append, decimal_append]
        rfl
      rw [show n.restyled.fraction = [48] from if_pos hnone, hnone, hzero, List.length_singleton,
        List.length_nil, pow_one, pow_zero, div_one, Nat.cast_mul]
      exact mul_div_cancel_right₀ _ (by norm_num)
    · rw [show n.restyled.fraction = n.fraction from if_neg hnone]
  unfold value
  rw [power_restyled, ← hfraction]
  rfl

theorem not_mem_significand {b : UInt8} (hb : b ∉ digits) (hmarks : b ∉ [45, 46]) :
    b ∉ n.significand := by
  rw [List.mem_cons, List.mem_singleton, not_or] at hmarks
  unfold significand
  rw [List.mem_append, not_or]
  exact ⟨not_mem_sign _ hmarks.1, not_mem_pointed n.lead_digits n.fraction_mem hb hmarks.2⟩

theorem not_mem_bare {b : UInt8} (hb : b ∉ digits) (hmarks : b ∉ [45, 46, 69]) : b ∉ n.bare := by
  simp only [List.mem_cons, List.not_mem_nil, or_false, not_or] at hmarks
  obtain ⟨hminus, hpoint, hletter⟩ := hmarks
  unfold bare
  simp only [List.mem_append, List.mem_cons, not_or]
  exact ⟨n.not_mem_significand hb (by simp [hminus, hpoint]), hletter, not_mem_sign _ hminus,
    n.exponent_digits.not_mem hb⟩

/-- The first `E` is the one in front of the exponent. -/
theorem split_significand (e : Text) :
    (n.significand ++ 69 :: e).takeWhile (· != 69) = n.significand ∧
      (n.significand ++ 69 :: e).dropWhile (· != 69) = 69 :: e :=
  split_at (bne_of_not_mem (n.not_mem_significand (by decide) (by decide)))
    (bne_self_eq_false (69 : UInt8)) e

theorem power_padded : Text.power n.padded = n.power := by
  unfold Text.power padded
  rw [(n.split_significand _).2, List.tail_cons, signedDecimal_padded]

/-- A decimal point stands in a numeral that has a fraction. -/
theorem point_mem_significand : 46 ∈ n.significand ↔ n.fraction ≠ [] := by
  have hsign : 46 ∉ Decimal.sign n.negative := not_mem_sign _ (by decide)
  have hlead : 46 ≠ n.lead := fun h => absurd (h ▸ n.lead_mem) (by decide)
  unfold significand pointed
  rw [List.mem_append, or_iff_right hsign, List.mem_append, or_iff_right (by simpa using hlead)]
  split
  · rename_i hnone
    exact ⟨fun h => absurd h List.not_mem_nil, fun h => absurd hnone h⟩
  · rename_i hsome
    exact ⟨fun _ => hsome, fun _ => List.mem_cons_self⟩

/-- **Restyling a padded numeral** changes its fraction and its exponent. -/
theorem restyle_padded : restyle n.padded = n.restyled.bare := by
  have hfraction : n.significand ++ (if 46 ∈ n.significand then [] else utf8 ".0") =
      n.restyled.significand := by
    by_cases hnone : n.fraction = []
    · rw [if_neg fun h => n.point_mem_significand.mp h hnone]
      unfold significand
      rw [show n.restyled.fraction = [48] from if_pos hnone, hnone, List.append_assoc]
      rfl
    · rw [if_pos (n.point_mem_significand.mpr hnone), List.append_nil]
      unfold significand
      rw [show n.restyled.fraction = n.fraction from if_neg hnone]
      rfl
  -- the digits of the exponent begin where its sign ends
  have hexponent : ((if n.below then 45 else 43) :: n.exponent).dropWhile
      (fun b => b == 43 || b == 45) = n.exponent := by
    rw [List.dropWhile_cons_of_pos (by cases n.below <;> rfl)]
    cases hdigits : n.exponent with
    | nil => rfl
    | cons b t =>
      have hall : digits.all fun b => b ∉ [43, 45] := by decide
      have hb : b ∈ digits := n.exponent_digits.digits b (hdigits ▸ List.mem_cons_self)
      have hsign : b ∉ [43, 45] := of_decide_eq_true (List.all_eq_true.mp hall b hb)
      exact List.dropWhile_cons_of_neg fun h => hsign (by simpa using h)
  have hsign : decide (((if n.below then 45 else 43) :: n.exponent).head? = some 45) =
      n.below := by
    cases n.below <;> rfl
  obtain ⟨htake, hdrop⟩ := n.split_significand ((if n.below then 45 else 43) :: n.exponent)
  unfold restyle padded
  dsimp only
  rw [htake, hdrop, List.tail_cons, hexponent, hfraction, hsign]
  rfl

end Scaled

/-- **The other style denotes the same number.** -/
theorem number_restyle {t : Text} (ht : t.IsExponential) : number (restyle t) = number t := by
  obtain ⟨n, -, rfl⟩ := ht
  rw [n.restyle_padded, n.restyled.number_bare, n.value_restyled, n.number_padded]

/-- **Restyled numerals have a fraction and an exponent without padding**, unless the exponent is
    zero. -/
theorem isScientific_restyle {t : Text} (ht : t.IsExponential) (hpower : power t ≠ 0) :
    (restyle t).IsScientific := by
  obtain ⟨n, -, rfl⟩ := ht
  refine ⟨n.restyled, ?_, trimmed_head fun hzero => hpower ?_, n.restyle_padded⟩
  · show (if n.fraction = [] then [48] else n.fraction) ≠ []
    split
    · exact List.cons_ne_nil _ _
    · assumption
  · rw [n.power_padded, Scaled.power, hzero]
    split <;> rfl

/-! ## 3. The float that a text is read as -/

/-- The text is read as the float: the number that it denotes is rounded to the float's magnitude,
    and a minus sign is there if the float has one, also in front of a zero. -/
structure ReadsAs (t : Text) (x : Float) : Prop where
  rounds : (Binary.ofFloat x).RoundsTo |t.number|
  sign : t.head? = some 45 ↔ (Binary.ofFloat x).negative = true

/-- **A text is read as one float at most.** -/
theorem ReadsAs.toBits_eq {t : Text} {x y : Float} (hx : t.ReadsAs x) (hy : t.ReadsAs y) :
    x.toBits = y.toBits := by
  obtain ⟨hmantissa, hexponent⟩ := Binary.RoundsTo.unique (Binary.canonical_ofFloat x)
    (Binary.canonical_ofFloat y) hx.rounds hy.rounds
  have hnegative : (Binary.ofFloat x).negative = (Binary.ofFloat y).negative :=
    Bool.eq_iff_iff.mpr (hx.sign.symm.trans hy.sign)
  refine Binary.toBits_eq_of_parts ?_
  cases hparts : Binary.ofFloat x
  cases hparts' : Binary.ofFloat y
  rw [hparts, hparts'] at hmantissa hexponent hnegative
  exact congr (congr (congrArg Binary.mk hnegative) hmantissa) hexponent

end Text

namespace Decimal

open Text

variable (x : Float)

/-- The shortest decimal of a float with digits alone. -/
def fixed : Text :=
  sign (Binary.ofFloat x).negative ++ (shortest (Binary.ofFloat x)).positional

/-- A numeral of at least two digits. -/
def twoDigits (n : ℕ) : Text :=
  if (Text.ofNat n).length < 2 then 48 :: Text.ofNat n else Text.ofNat n

/-- The shortest decimal of a float with an exponent of a sign and at least two digits. -/
def exponential : Text :=
  let d := shortest (Binary.ofFloat x)
  sign (Binary.ofFloat x).negative ++ d.significand [] ++
    69 :: (if d.magnitude < 0 then 45 else 43) :: twoDigits d.magnitude.natAbs

/-- The shortest decimal of a float with the sign of the float. -/
def signedValue : ℚ :=
  (if (Binary.ofFloat x).negative then -1 else 1) * (shortest (Binary.ofFloat x)).value

theorem value_nonneg (d : Decimal) : 0 ≤ d.value :=
  mul_nonneg (Nat.cast_nonneg _) (zpow_nonneg (by norm_num) _)

theorem abs_signedValue : |signedValue x| = (shortest (Binary.ofFloat x)).value := by
  unfold signedValue
  split
  · rw [neg_one_mul, abs_neg, abs_of_nonneg (value_nonneg _)]
  · rw [one_mul, abs_of_nonneg (value_nonneg _)]

/-- A text with the sign and the shortest decimal of a float is read as that float. -/
theorem readsAs_of_number {t : Text} (hnumber : t.number = signedValue x)
    (hsign : t.head? = some 45 ↔ (Binary.ofFloat x).negative = true) : t.ReadsAs x := by
  refine ⟨?_, hsign⟩
  rw [hnumber, abs_signedValue]
  exact shortest_roundsTo (Binary.canonical_ofFloat x)

/-- **Digits alone** denote the shortest decimal. -/
theorem fixed_spec : (fixed x).IsFixed ∧ number (fixed x) = signedValue x ∧
    (fixed x).ReadsAs x ∧ ∀ b, b ∉ Text.digits → b ∉ [45, 46] → b ∉ fixed x := by
  obtain ⟨whole, fraction, hlayout, hwhole, hfraction, hvalue⟩ :=
    (shortest (Binary.ofFloat x)).positional_eq
  have hhead : (pointed whole fraction).head? ≠ some 45 := pointed_head hwhole
  have htext : fixed x = sign (Binary.ofFloat x).negative ++ pointed whole fraction := by
    rw [fixed, hlayout]
  have hnumber : number (fixed x) = signedValue x := by
    rw [htext, number_sign _ hhead, magnitude_pointed hwhole.digits hfraction, hvalue, signedValue]
    split
    · rw [neg_one_mul]
    · rw [one_mul]
  refine ⟨⟨_, whole, fraction, hwhole, hfraction, htext⟩, hnumber, ?_, ?_⟩
  · refine readsAs_of_number x hnumber ?_
    rw [htext]
    exact sign_append_head _ hhead
  · intro b hb hmarks
    rw [List.mem_cons, List.mem_singleton, not_or] at hmarks
    rw [htext, List.mem_append, not_or]
    exact ⟨not_mem_sign _ hmarks.1, not_mem_pointed hwhole.digits hfraction hb hmarks.2⟩

theorem isDigits_twoDigits (n : ℕ) : (twoDigits n).IsDigits := by
  have hdigits := isDigits_ofNat n
  unfold twoDigits
  split
  · exact ⟨List.cons_ne_nil _ _, List.forall_mem_cons.mpr ⟨by decide, hdigits.digits⟩⟩
  · exact hdigits

theorem two_le_length_twoDigits (n : ℕ) : 2 ≤ (twoDigits n).length := by
  have hpos := List.length_pos_iff.mpr (isDigits_ofNat n).ne_nil
  unfold twoDigits
  split
  · rw [List.length_cons]
    omega
  · omega

theorem decimal_twoDigits (n : ℕ) : decimal (twoDigits n) = n := by
  unfold twoDigits
  split
  · rw [← List.singleton_append, ← List.replicate_one, decimal_zeros, decimal_ofNat]
  · exact decimal_ofNat n

/-- The padding of a numeral is what trimming takes off. -/
theorem trimmed_twoDigits (n : ℕ) : trimmed (twoDigits n) = Text.ofNat n := by
  rcases eq_or_ne n 0 with rfl | hn
  · rfl
  · obtain ⟨b, t, ht, hb⟩ := ofNat_head hn
    have hdrop : (twoDigits n).dropWhile (· == 48) = Text.ofNat n := by
      have hbare : (Text.ofNat n).dropWhile (· == 48) = Text.ofNat n := by
        rw [ht]
        exact List.dropWhile_cons_of_neg fun h => hb (beq_iff_eq.mp h)
      unfold twoDigits
      split
      · exact (List.dropWhile_cons_of_pos rfl).trans hbare
      · exact hbare
    unfold trimmed
    rw [hdrop, if_neg (isDigits_ofNat n).ne_nil]

/-- The pieces of a decimal with an exponent. -/
def scaled (negative : Bool) (d : Decimal) : Scaled where
  negative := negative
  lead := d.lead
  fraction := d.rest
  below := decide (d.magnitude < 0)
  exponent := twoDigits d.magnitude.natAbs
  lead_mem := d.lead_mem
  fraction_mem := d.rest_mem
  exponent_digits := isDigits_twoDigits _

section Scaled

variable (negative : Bool) (d : Decimal)

theorem power_scaled : (scaled negative d).power = d.magnitude := by
  unfold Scaled.power scaled
  dsimp only
  rw [decimal_twoDigits]
  split
  · rename_i hneg
    have := of_decide_eq_true hneg
    omega
  · rename_i hneg
    have : ¬ d.magnitude < 0 := fun h => hneg (decide_eq_true h)
    omega

theorem value_scaled : (scaled negative d).value = (if negative then -1 else 1) * d.value := by
  unfold Scaled.value
  rw [power_scaled]
  exact congrArg _ d.scaled_eq

/-- Restyled, a decimal is written as it is displayed. -/
theorem bare_restyled_scaled : (scaled negative d).restyled.bare =
    sign negative ++ d.significand (utf8 ".0") ++ 69 :: Text.ofInt d.magnitude := by
  rw [significand_zero, Text.ofInt_eq, ← trimmed_twoDigits]
  rfl

end Scaled

theorem exponential_eq :
    exponential x = (scaled (Binary.ofFloat x).negative (shortest (Binary.ofFloat x))).padded := by
  unfold exponential Scaled.padded scaled Scaled.significand
  dsimp only
  rw [significand_bare]
  by_cases h : (shortest (Binary.ofFloat x)).magnitude < 0
  · rw [if_pos h, if_pos (decide_eq_true h)]
  · rw [if_neg h, if_neg (fun hset => h (of_decide_eq_true hset))]

/-- **The leading digit and an exponent** denote the shortest decimal, too. -/
theorem exponential_spec : (exponential x).IsExponential ∧ number (exponential x) = signedValue x ∧
    (exponential x).ReadsAs x := by
  have hnumber : number (exponential x) = signedValue x := by
    rw [exponential_eq, Scaled.number_padded, value_scaled, signedValue]
  refine ⟨⟨_, two_le_length_twoDigits _, exponential_eq x⟩, hnumber, ?_⟩
  refine readsAs_of_number x hnumber ?_
  rw [exponential_eq]
  exact Scaled.significand_head _ _

/-! ## 4. What is displayed -/

/-- Beyond the bounds, the leading digit does not count ones. -/
theorem magnitude_ne_zero {b : Binary} {d : Decimal} (hd : b.RoundsTo d.value)
    (hplain : ¬ b.Plain) : d.magnitude ≠ 0 := by
  intro hzero
  obtain ⟨hnonzero, hbounds⟩ := not_or.mp hplain
  have hpositive : 0 < b.value := lt_of_le_of_ne b.value_nonneg (Ne.symm hnonzero)
  -- neither zero nor the 512th part of one is nearer to the decimal than the float is
  have hbottom : Binary.Canonical ⟨false, 0, -1074⟩ := ⟨by decide, by decide, by decide⟩
  have hmiddle : Binary.Canonical ⟨false, 2 ^ 52, -61⟩ := ⟨by decide, by decide, by decide⟩
  have hnothing : (⟨false, 0, -1074⟩ : Binary).value = 0 := by norm_num [Binary.value]
  have hpart : (⟨false, 2 ^ 52, -61⟩ : Binary).value = 1 / 512 := by norm_num [Binary.value]
  have hbelow := hd.nearest hbottom
  have habove := hd.nearest hmiddle
  rw [hnothing, sub_zero, abs_of_nonneg d.value_nonneg] at hbelow
  rw [hpart] at habove
  have hdecimal : 0 < d.value := by
    refine lt_of_le_of_ne d.value_nonneg fun hvalue => ?_
    rw [← hvalue, zero_sub, abs_neg, abs_of_pos hpositive] at hbelow
    exact absurd hbelow (not_le.mpr hpositive)
  obtain ⟨hlow, hhigh⟩ := d.value_bounds hdecimal
  rw [hzero] at hlow hhigh
  norm_num at hlow hhigh
  rcases lt_or_ge b.value (1 / 1000) with hsmall | hsmall
  · rw [abs_of_nonneg (by linarith), abs_of_nonneg (by linarith)] at habove
    linarith
  · have hlarge : 10 ^ 7 ≤ b.value := not_lt.mp fun h => hbounds ⟨hsmall, h⟩
    rw [abs_of_nonpos (by linarith)] at hbelow
    linarith

/-- **A number is displayed with digits alone, or restyled from the padded numeral.** -/
theorem display_eq {x : Float} (h : x.isFinite = true) :
    ((Binary.ofFloat x).Plain → display x = fixed x) ∧
      (¬ (Binary.ofFloat x).Plain → display x = restyle (exponential x)) := by
  have hfield := Binary.isFinite_iff.mp h
  have hnan : ¬ x.isNaN = true := fun hnan => hfield (Binary.isNaN_iff.mp hnan).1
  have hinf : ¬ x.isInf = true := fun hinf => hfield (Binary.isInf_iff.mp hinf).1
  unfold display
  rw [if_neg hnan, if_neg hinf]
  dsimp only
  constructor
  · intro hplain
    rw [if_pos ((Binary.plain_iff hfield).mpr hplain)]
    rfl
  · intro hplain
    rw [if_neg (mt (Binary.plain_iff hfield).mp hplain), exponential_eq, Scaled.restyle_padded,
      bare_restyled_scaled]

/-- What is displayed of a number denotes its shortest decimal, and beyond the bounds it has an
    exponent. -/
theorem display_spec {x : Float} (h : x.isFinite = true) :
    number (display x) = signedValue x ∧ (display x).ReadsAs x ∧
      (69 ∉ display x ↔ (Binary.ofFloat x).Plain) ∧
      (¬ (Binary.ofFloat x).Plain → (display x).IsScientific) := by
  obtain ⟨hfixed, hrestyled⟩ := display_eq h
  by_cases hplain : (Binary.ofFloat x).Plain
  · obtain ⟨-, hnumber, hreads, hbytes⟩ := fixed_spec x
    rw [hfixed hplain]
    exact ⟨hnumber, hreads, iff_of_true (hbytes 69 (by decide) (by decide)) hplain,
      fun h => absurd hplain h⟩
  · obtain ⟨hexponential, hnumber, hreads⟩ := exponential_spec x
    have hpower : Text.power (exponential x) ≠ 0 := by
      rw [exponential_eq, Scaled.power_padded, power_scaled]
      exact magnitude_ne_zero (shortest_roundsTo (Binary.canonical_ofFloat x)) hplain
    have hvalue := (number_restyle hexponential).trans hnumber
    rw [hrestyled hplain]
    refine ⟨hvalue, readsAs_of_number x hvalue ?_, iff_of_false ?_ hplain,
      fun _ => isScientific_restyle hexponential hpower⟩
    · rw [exponential_eq, Scaled.restyle_padded]
      exact Scaled.significand_head _ _
    · rw [exponential_eq, Scaled.restyle_padded, not_not]
      exact List.mem_append_right _ List.mem_cons_self

/-- Numbers are displayed without letters other than `E`. -/
theorem not_mem_display {x : Float} (h : x.isFinite = true) {b : UInt8} (hb : b ∉ Text.digits)
    (hmarks : b ∉ [45, 46, 69]) : b ∉ display x := by
  obtain ⟨hfixed, hrestyled⟩ := display_eq h
  by_cases hplain : (Binary.ofFloat x).Plain
  · obtain ⟨-, -, -, hbytes⟩ := fixed_spec x
    rw [hfixed hplain]
    exact hbytes b hb fun h => hmarks (List.mem_append_left [69] h)
  · rw [hrestyled hplain, exponential_eq, Scaled.restyle_padded]
    exact Scaled.not_mem_bare _ hb hmarks

/-! ## 5. Different floats -/

/-- Letters tell what is no number and what is infinite from numbers and from each other. -/
theorem display_letters (x : Float) :
    (97 ∈ display x ↔ x.isNaN = true) ∧ (121 ∈ display x ↔ x.isInf = true) := by
  have hnan : x.isNaN = true → x.isInf ≠ true := fun h hinf =>
    (Binary.isNaN_iff.mp h).2 (Binary.isInf_iff.mp hinf).2
  by_cases h : x.isNaN = true
  · unfold display
    rw [if_pos h]
    exact ⟨iff_of_true (by decide) h, iff_of_false (by decide) (hnan h)⟩
  by_cases hinf : x.isInf = true
  · unfold display
    rw [if_neg h, if_pos hinf]
    exact ⟨iff_of_false (by split <;> decide) h, iff_of_true (by split <;> decide) hinf⟩
  · have hfinite := Binary.isFinite_of_not h hinf
    exact ⟨iff_of_false (not_mem_display hfinite (by decide) (by decide)) h,
      iff_of_false (not_mem_display hfinite (by decide) (by decide)) hinf⟩

/-- **Floats that are displayed alike have the same bits**, or are both no number. -/
theorem toBits_eq_of_display_eq {x y : Float} (h : display x = display y)
    (hnan : ¬ (x.isNaN = true ∧ y.isNaN = true)) : x.toBits = y.toBits := by
  obtain ⟨hx, hxinf⟩ := display_letters x
  obtain ⟨hy, hyinf⟩ := display_letters y
  rw [h] at hx hxinf
  have hxnan : ¬ x.isNaN = true := fun hxnan => hnan ⟨hxnan, hy.mp (hx.mpr hxnan)⟩
  have hynan : ¬ y.isNaN = true := fun hynan => hxnan (hx.mp (hy.mpr hynan))
  by_cases hinf : x.isInf = true
  · have hinf' : y.isInf = true := hyinf.mp (hxinf.mpr hinf)
    refine Binary.toBits_eq_of_isInf hinf hinf' ?_
    unfold display at h
    rw [if_neg hxnan, if_pos hinf, if_neg hynan, if_pos hinf'] at h
    by_cases hpos : x > 0 <;> by_cases hpos' : y > 0
    · exact iff_of_true hpos hpos'
    · rw [if_pos hpos, if_neg hpos'] at h
      exact absurd h (by decide)
    · rw [if_neg hpos, if_pos hpos'] at h
      exact absurd h (by decide)
    · exact iff_of_false hpos hpos'
  · have hinf' : ¬ y.isInf = true := fun hyin => hinf (hxinf.mp (hyinf.mpr hyin))
    have hreads := (display_spec (Binary.isFinite_of_not hxnan hinf)).2.1
    have hreads' := (display_spec (Binary.isFinite_of_not hynan hinf')).2.1
    rw [h] at hreads
    exact hreads.toBits_eq hreads'

end Decimal

/-! ## 6. Displayed values -/

section

open Decimal Text

/-- **Displayed floats keep their value.** The two layouts of a number have their forms and are read
    as this number. What is displayed of it denotes the same decimal as either: without an exponent
    it is the first one, if the number is zero or its magnitude is at least a thousandth and below
    ten millions, and else the second one in the style of displayed exponents. No two floats with
    different bits are displayed alike, unless neither is a number. -/
theorem Value.float_text_reads :
    (∀ x : Float, x.isFinite = true →
      ((fixed x).IsFixed ∧ (fixed x).ReadsAs x) ∧
      ((exponential x).IsExponential ∧ (exponential x).ReadsAs x) ∧
      (number (float x).text = number (fixed x) ∧
        number (float x).text = number (exponential x)) ∧
      (69 ∉ (float x).text ↔ (Binary.ofFloat x).value = 0 ∨
        (1 / 1000 ≤ (Binary.ofFloat x).value ∧ (Binary.ofFloat x).value < 10 ^ 7)) ∧
      (69 ∉ (float x).text → (float x).text = fixed x) ∧
      (69 ∈ (float x).text → (float x).text = restyle (exponential x) ∧
        (float x).text.IsScientific)) ∧
    ∀ x y : Float, x.toBits ≠ y.toBits → ¬ (x.isNaN = true ∧ y.isNaN = true) →
      (float x).text ≠ (float y).text := by
  refine ⟨fun x h => ?_, fun x y hbits hnan heq => hbits (toBits_eq_of_display_eq heq hnan)⟩
  obtain ⟨hfixed, hnumber, hreads, -⟩ := fixed_spec x
  obtain ⟨hexponential, hnumber', hreads'⟩ := exponential_spec x
  obtain ⟨hvalue, -, hplain, hscientific⟩ := display_spec h
  obtain ⟨hlow, hhigh⟩ := display_eq h
  exact ⟨⟨hfixed, hreads⟩, ⟨hexponential, hreads'⟩,
    ⟨hvalue.trans hnumber.symm, hvalue.trans hnumber'.symm⟩, hplain,
    fun hletter => hlow (hplain.mp hletter), fun hletter =>
      have hbeyond := fun h => hplain.mpr h hletter
      ⟨hhigh hbeyond, hscientific hbeyond⟩⟩

/-- Ten millions are the first number from one on that has an exponent, and the two zeros differ. -/
theorem Value.float_text_reads_tenMillion :
    ((10000000 : Float).isFinite = true ∧ fixed 10000000 = utf8 "10000000" ∧
      exponential 10000000 = utf8 "1E+07" ∧ (float 10000000).text = utf8 "1.0E7" ∧
      number (utf8 "1.0E7") = number (utf8 "10000000") ∧ (utf8 "1.0E7").IsScientific) ∧
    ((-0.0 : Float).toBits ≠ (0.0 : Float).toBits ∧ (float (-0.0)).text ≠ (float 0.0).text) := by
  have hfinite : (10000000 : Float).isFinite = true := rfl
  have hfixed : fixed 10000000 = utf8 "10000000" := rfl
  have hexponential : exponential 10000000 = utf8 "1E+07" := rfl
  have hzeros : (-0.0 : Float).toBits ≠ (0.0 : Float).toBits := by decide
  obtain ⟨-, -, ⟨hnumber, -⟩, hbounds, -, hscientific⟩ := float_text_reads.1 10000000 hfinite
  have hletter : 69 ∈ (float 10000000).text := by
    have hvalue : (Binary.ofFloat 10000000).value = 10 ^ 7 := Binary.value_tenMillion
    by_contra hnone
    rcases hbounds.mp hnone with h | h <;> rw [hvalue] at h <;> norm_num at h
  have htext : (float 10000000).text = utf8 "1.0E7" := by
    rw [(hscientific hletter).1, hexponential]
    decide
  rw [htext, hfixed] at hnumber
  refine ⟨⟨hfinite, hfixed, hexponential, htext, hnumber, htext ▸ (hscientific hletter).2⟩,
    hzeros, float_text_reads.2 _ _ hzeros ?_⟩
  decide

end

end FencedCode
