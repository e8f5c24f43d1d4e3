import FencedCode.Proofs.Token.Joined
import Mathlib.Data.Nat.Digits.Defs

/-!
# Decimal numerals

Decimal digits denote a number, whether they are counted from the last digit, or read from the
first. Scanned by themselves they are an integer literal of that number, if it is not too large.

* `Text.decimal`, `Text.readDigits_eq` -- the number that digits denote, and that reading them gives
  it;
* `Text.decimal_ofNat` -- the numeral of a number denotes that number;
* `Segment.cut_digits` -- digits are cut off whole;
* `Scan.ofText_digits` -- **digits that stand alone are one integer literal**, or one complaint when
  they denote too large a number.
-/

namespace FencedCode

/-! ## 1. Digits and numbers -/

namespace Text

/-- The decimal digits. -/
def digits : Text :=
  utf8 "0123456789"

/-- The text is made of decimal digits, at least one. -/
structure IsDigits (t : Text) : Prop where
  ne_nil : t ≠ []
  digits : ∀ b ∈ t, b ∈ digits

instance (t : Text) : Decidable t.IsDigits :=
  decidable_of_iff (t ≠ [] ∧ t.all fun b => b ∈ digits)
    ⟨fun h => ⟨h.1, by simpa using h.2⟩, fun h => ⟨h.ne_nil, by simpa using h.digits⟩⟩

/-- The number that one digit denotes. -/
def digitValue (b : UInt8) : Nat :=
  b.toNat - 48

/-- The number that decimal digits denote: the last one counts ones, the one before it tens. -/
def decimal (t : Text) : Nat :=
  Nat.ofDigits 10 (t.reverse.map digitValue)

theorem decimal_concat (t : Text) (b : UInt8) :
    decimal (t ++ [b]) = 10 * decimal t + digitValue b := by
  unfold decimal
  rw [List.reverse_concat, List.map_cons, Nat.ofDigits_cons, Nat.add_comm]

theorem readDigits_from (acc : Nat) (t : Text) :
    readDigits acc t = Nat.ofDigits 10 (t.reverse.map digitValue ++ [acc]) := by
  induction t generalizing acc with
  | nil => exact (Nat.ofDigits_singleton).symm
  | cons b t ih =>
    have hstep : readDigits acc (b :: t) = readDigits (10 * acc + digitValue b) t := rfl
    rw [hstep, ih, List.reverse_cons, List.map_append, List.append_assoc, Nat.ofDigits_append,
      Nat.ofDigits_append]
    show _ = _ + _ * Nat.ofDigits 10 [digitValue b, acc]
    rw [Nat.ofDigits_singleton, Nat.ofDigits_cons, Nat.ofDigits_singleton,
      Nat.add_comm (digitValue b)]

/-- **Reading digits from the first one gives the number that they denote.** -/
theorem readDigits_eq (t : Text) : readDigits 0 t = decimal t := by
  rw [readDigits_from, Nat.ofDigits_append_zero]
  rfl

theorem digit_spec (d : Nat) : digit d ∈ digits ∧ digitValue (digit d) = d % 10 := by
  have hall : ∀ r : Fin 10, digit r ∈ digits ∧ digitValue (digit r) = r.val := by decide
  have hmod : digit (d % 10) = digit d := by
    unfold digit
    rw [Nat.mod_mod]
  have hdigit := hall ⟨d % 10, Nat.mod_lt _ (by decide)⟩
  rwa [hmod] at hdigit

theorem isDigits_digit (d : Nat) : IsDigits [digit d] :=
  ⟨List.cons_ne_nil _ _, fun _ hb => List.mem_singleton.mp hb ▸ (digit_spec d).1⟩

/-- The digits that are put in front of a text denote the number. -/
theorem digitsInto_eq : ∀ (fuel n : Nat) (acc : Text), n < fuel →
    ∃ ds, digitsInto fuel n acc = ds ++ acc ∧ IsDigits ds ∧ decimal ds = n
  | 0, _, _, h => absurd h (Nat.not_lt_zero _)
  | fuel + 1, n, acc, h => by
    by_cases hn : n < 10
    · refine ⟨[digit n], if_pos hn, isDigits_digit n, ?_⟩
      rw [← List.nil_append [digit n], decimal_concat, (digit_spec n).2, Nat.mod_eq_of_lt hn]
      exact Nat.zero_add n
    · obtain ⟨ds, hds, hdigits, hvalue⟩ :=
        digitsInto_eq fuel (n / 10) (digit (n % 10) :: acc) (by omega)
      refine ⟨ds ++ [digit (n % 10)], ?_, ⟨?_, ?_⟩, ?_⟩
      · rw [List.append_assoc]
        exact (if_neg hn).trans hds
      · exact List.append_ne_nil_of_left_ne_nil hdigits.ne_nil _
      · intro b hb
        rcases List.mem_append.mp hb with hb | hb
        · exact hdigits.digits b hb
        · exact (isDigits_digit _).digits b hb
      · rw [decimal_concat, hvalue, (digit_spec _).2]
        omega

theorem isDigits_ofNat (n : Nat) : IsDigits (ofNat n) := by
  obtain ⟨ds, hds, hdigits, -⟩ := digitsInto_eq (n + 1) n [] (Nat.lt_succ_self n)
  rw [List.append_nil] at hds
  rwa [ofNat, hds]

/-- **The numeral of a number denotes it.** -/
theorem decimal_ofNat (n : Nat) : decimal (ofNat n) = n := by
  obtain ⟨ds, hds, -, hvalue⟩ := digitsInto_eq (n + 1) n [] (Nat.lt_succ_self n)
  rw [List.append_nil] at hds
  rwa [ofNat, hds]

/-- Digits are decoded one by one. -/
theorem decode_digits {t : Text} (ht : ∀ b ∈ t, b ∈ digits) :
    ∀ r ∈ Symbol.decode t, r.isDigit = true ∧ r.isGap = false ∧ r.isLetter = false := by
  have hall : digits.all fun b => String.utf8EncodeChar (Char.ofNat b.toNat) = [b] ∧
      b.toNat < 128 ∧ Symbol.isDigit (.scalar (Char.ofNat b.toNat)) = true ∧
      Symbol.isGap (.scalar (Char.ofNat b.toNat)) = false ∧
      Symbol.isLetter (.scalar (Char.ofNat b.toNat)) = false := by
    decide
  induction t with
  | nil => exact fun _ hr => absurd hr List.not_mem_nil
  | cons b t ih =>
    obtain ⟨hb, ht⟩ := List.forall_mem_cons.mp ht
    obtain ⟨hbytes, hascii, hclass⟩ := of_decide_eq_true (List.all_eq_true.mp hall b hb)
    have hdecode : Symbol.decode (b :: t) = .scalar (Char.ofNat b.toNat) :: Symbol.decode t :=
      Symbol.decode_ascii hbytes hascii [] t
    rw [hdecode]
    exact List.forall_mem_cons.mpr ⟨hclass, ih ht⟩

/-- Digits are decoded to a first digit, at which a number begins, and others. -/
theorem IsDigits.decode {t : Text} (ht : t.IsDigits) : ∃ r rs, Symbol.decode t = r :: rs ∧
    (∀ after, Segment.cut r after = Segment.number r after) ∧
    (r :: rs).all Symbol.isDigit = true := by
  have hall := decode_digits ht.digits
  cases hdecode : Symbol.decode t with
  | nil =>
    have hempty := Symbol.encode_decode t
    rw [hdecode] at hempty
    exact absurd hempty.symm ht.ne_nil
  | cons r rs =>
    rw [hdecode] at hall
    obtain ⟨hdigit, hgap, hletter⟩ := hall r List.mem_cons_self
    refine ⟨r, rs, rfl, fun after => ?_, List.all_eq_true.mpr fun e he => (hall e he).1⟩
    unfold Segment.cut
    simp only [hgap, hletter, hdigit, Bool.false_eq_true, if_false, if_true]

end Text

/-! ## 2. Numbers are cut off -/

namespace Segment

open Text

/-- **Digits are cut off whole** in front of what makes no token longer. -/
theorem cut_digits {t : Text} (ht : t.IsDigits) : ∃ r rs, Symbol.decode t = r :: rs ∧
    ∀ after, Parted after → cut r (rs ++ after) = ⟨intContent t, r, rs⟩ := by
  obtain ⟨r, rs, hdecode, hcut, hdigits⟩ := ht.decode
  rw [List.all_cons, Bool.and_eq_true] at hdigits
  refine ⟨r, rs, hdecode, fun after hafter => ?_⟩
  have hnumber := number_eq r hdigits.2 (.inl rfl) hafter
  simp only [List.append_nil, List.isEmpty_nil, if_true, ← hdecode, Symbol.encode_decode]
    at hnumber
  rw [hcut, hnumber]

theorem intContent_of_toInt {t : Text} {n : Int64} (hn : n.toInt = decimal t) :
    intContent t = .token .intLit (some (.int n)) := by
  have hlt : decimal t < 2 ^ 63 := by
    have hbound := n.toInt_lt
    omega
  have hvalue : Int64.ofNat (decimal t) = n := by
    rw [← Int64.toInt_inj, Int64.toInt_ofNat_of_lt hlt, hn]
  show (if readDigits 0 t < 2 ^ 63 then _ else _) = _
  rw [readDigits_eq, if_pos hlt, hvalue]

theorem intContent_of_le {t : Text} (ht : 2 ^ 63 ≤ decimal t) :
    intContent t = .error (.intOutOfRange t) := by
  show (if readDigits 0 t < 2 ^ 63 then _ else _) = _
  rw [readDigits_eq, if_neg (Nat.not_lt.mpr ht)]

end Segment

/-- Digits are an integer literal of the number that they denote. -/
theorem Lexeme.int {t : Text} (ht : t.IsDigits) {n : Int64} (hn : n.toInt = t.decimal) :
    Lexeme t .intLit (some (.int n)) := by
  obtain ⟨r, rs, hdecode, hcut⟩ := Segment.cut_digits ht
  refine ⟨r, rs, hdecode, ?_⟩
  have halone := hcut [] Segment.parted_nil
  rwa [List.append_nil, Segment.intContent_of_toInt hn] at halone

namespace Scan

/-- **Digits that stand alone** are one integer literal with the value that they denote and nothing
    to complain about, or no token and one complaint, if 64 bits do not hold the value. -/
theorem ofText_digits {t : Text} (ht : t.IsDigits) :
    (∀ n : Int64, n.toInt = t.decimal → ofText t =
      ⟨[⟨.intLit, t, some (.int n), .start⟩, .endAt (.behind t)], []⟩) ∧
    (2 ^ 63 ≤ t.decimal → ofText t =
      ⟨[.endAt (.behind t)], [.lexical .start (.intOutOfRange t)]⟩) := by
  obtain ⟨r, rs, hdecode, hcut⟩ := Segment.cut_digits ht
  have halone := hcut [] Segment.parted_nil
  rw [List.append_nil] at halone
  have hall : Segment.all (Symbol.decode t) = [⟨Segment.intContent t, r, rs⟩] := by
    rw [hdecode]
    exact Segment.all_singleton halone
  have hplace : place .start (Segment.all (Symbol.decode t)) =
      ([(.start, ⟨Segment.intContent t, r, rs⟩)], .behind t) := by
    have hbehind := Position.afterAll_decode _ t (Nat.le_refl _)
    rw [hdecode] at hbehind
    rw [hall, ← hbehind]
    rfl
  have htext : (⟨Segment.intContent t, r, rs⟩ : Segment).text = t := by
    rw [Segment.text, Segment.symbols, ← hdecode, Symbol.encode_decode]
  have hscan : ofText t =
      ⟨(token? .start ⟨Segment.intContent t, r, rs⟩).toList ++ [.endAt (.behind t)],
        (diagnostic? .start ⟨Segment.intContent t, r, rs⟩).toList⟩ := by
    unfold ofText ofSymbols
    rw [hplace]
    rfl
  refine ⟨fun n hn => ?_, fun hlarge => ?_⟩
  · rw [hscan, token?, diagnostic?, htext]
    simp only [Segment.intContent_of_toInt hn]
    rfl
  · rw [hscan, token?, diagnostic?]
    simp only [Segment.intContent_of_le hlarge]
    rfl

end Scan

end FencedCode
