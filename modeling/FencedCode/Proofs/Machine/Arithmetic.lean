import FencedCode.Proofs.Machine.Conduct
import Mathlib.Data.Int.ModEq

/-!
# Arithmetic of integers

The integers of a program have 64 bits. Sums, differences, products and negations are reduced to
that range, so they never fail and are right modulo `2 ^ 64`. A quotient goes toward zero and fits,
unless the least integer is divided by `-1`; together with the remainder it gives back the dividend.

* `Operator.Divides`, `divides_div_mod` -- **what quotient and remainder are**;
* `Operator.count_compared` -- of two numbers, one is less, or they are equal;
* `Machine.eval_unary`, `eval_binary` -- an operator is applied to what its operands yield;
* `Machine.integers_exact` -- **what each operator makes of two integers**.
-/

namespace FencedCode

open Exec

/-! ## 1. Quotients, remainders and comparisons -/

namespace Operator

/-- The integers `q` and `r` are quotient and remainder of `a` by `b`. -/
structure Divides (a b q r : Int64) : Prop where
  restores : q.toInt * b.toInt + r.toInt ≡ a.toInt [ZMOD 2 ^ 64]
  smaller : r.toInt.natAbs < b.toInt.natAbs
  sign : r = 0 ∨ r.toInt.sign = a.toInt.sign
  truncates : ¬ (a.toInt = -2 ^ 63 ∧ b.toInt = -1) → q.toInt = a.toInt.tdiv b.toInt
  /-- The one quotient that does not fit. -/
  wraps : a.toInt = -2 ^ 63 → b.toInt = -1 → q.toInt = -2 ^ 63 ∧ r = 0

variable (a b : Int64)

/-- Quotient and remainder give back the dividend, modulo `2 ^ 64`. -/
theorem toInt_div_mul_add_mod :
    (a / b).toInt * b.toInt + (a % b).toInt ≡ a.toInt [ZMOD 2 ^ 64] := by
  have hquotient : (a / b).toInt ≡ a.toInt.tdiv b.toInt [ZMOD 2 ^ 64] := by
    rw [Int64.toInt_div]
    exact Int.bmod_emod
  have hexact : a.toInt.tdiv b.toInt * b.toInt + a.toInt.tmod b.toInt = a.toInt := by
    rw [Int.mul_comm]
    exact Int.mul_tdiv_add_tmod ..
  calc (a / b).toInt * b.toInt + (a % b).toInt
    _ ≡ a.toInt.tdiv b.toInt * b.toInt + (a % b).toInt [ZMOD 2 ^ 64] :=
      (hquotient.mul_right _).add_right _
    _ = a.toInt := by rw [Int64.toInt_mod, hexact]

variable {b} in
/-- **Division by anything but zero yields quotient and remainder.** -/
theorem divides_div_mod (hb : b ≠ 0) : Divides a b (a / b) (a % b) := by
  have hzero : b.toInt ≠ 0 := fun h => hb (Int64.toInt_inj.mp h)
  have hleast : a.toInt = -2 ^ 63 ↔ a = Int64.minValue := by
    rw [← Int64.toInt_minValue, Int64.toInt_inj]
  have hminus : b.toInt = -1 ↔ b = -1 := Int64.toInt_inj (y := -1)
  refine ⟨toInt_div_mul_add_mod a b, ?smaller, ?sign, ?truncates, ?wraps⟩
  case smaller =>
    rw [Int64.toInt_mod, Int.natAbs_tmod]
    exact Nat.mod_lt _ (Int.natAbs_pos.mpr hzero)
  case sign =>
    have hsign := Int.sign_tmod a.toInt b.toInt
    rw [← Int64.toInt_mod] at hsign
    split at hsign
    · exact .inl (Int64.toInt_inj.mp (Int.sign_eq_zero_iff_zero.mp hsign))
    · exact .inr hsign
  case truncates =>
    intro hfits
    rw [hleast, hminus, not_and_or] at hfits
    rcases hfits with ha | hb
    · exact Int64.toInt_div_of_ne_left a b ha
    · exact Int64.toInt_div_of_ne_right a b hb
  case wraps =>
    intro ha hb
    obtain rfl := hleast.mp ha
    obtain rfl := hminus.mp hb
    exact ⟨by decide, by decide⟩

/-- Of less, equal and greater exactly one is true. -/
theorem count_compared (x y : Int) :
    [decide (x < y), decide (x = y), decide (y < x)].count true = 1 := by
  rcases Int.lt_trichotomy x y with hlt | rfl | hlt
  · simp [hlt, Int.ne_of_lt hlt, Int.le_of_lt hlt]
  · simp
  · simp [hlt, Int.ne_of_gt hlt, Int.le_of_lt hlt]

end Operator

namespace Machine

/-! ## 2. Operators and their operands -/

section Operands

variable {h : Host} {n : Nat} {l r : Expr} {m m₁ m₂ : Machine} {v w : Value}

/-- A prefix operator is applied to what its operand yields. -/
theorem eval_unary (hl : eval h n l m = (.ok v, m₁)) (op : Token) :
    eval h (n + 1) (.unary op l) m = (Operator.unary op v, m₁) := by
  simp only [eval]
  rw [bind_of_ok hl]
  rfl

/-- A binary operator is applied to what its operands yield, the left one first. -/
theorem eval_binary (hl : eval h n l m = (.ok v, m₁)) (hr : eval h n r m₁ = (.ok w, m₂))
    (op : Token) : eval h (n + 1) (.binary l op r) m = (Operator.binary op v w, m₂) := by
  simp only [eval]
  rw [bind_of_ok hl, bind_of_ok hr]
  rfl

end Operands

/-! ## 3. All operators on integers -/

/-- **Integers are exact modulo `2 ^ 64`.** Let two operands yield the integers `a` and `b`, one
    after the other, and let an operator stand between them, or before the first.

    * A sum, a difference, a product and a negation never fail, and are the exact result reduced
      to 64 bits.
    * A quotient and a remainder fail, with a division by zero, if `b` is zero; otherwise they
      are what they should be.
    * A comparison never fails. Exactly one of less, equal and greater is true, as it is of the
      numbers; the other three comparisons are the negations of these. -/
theorem integers_exact (h : Host) (n : Nat) (l r : Expr) (m m₁ m₂ : Machine) (a b : Int64)
    (hl : eval h n l m = (.ok (.int a), m₁)) (hr : eval h n r m₁ = (.ok (.int b), m₂))
    (op : Token) :
    let run (k : Kind) := eval h (n + 1) (.binary l { op with kind := k } r) m
    let lt := decide (a.toInt < b.toInt)
    let eq := decide (a.toInt = b.toInt)
    let gt := decide (b.toInt < a.toInt)
    ((∃ c, run .plus = (.ok (.int c), m₂) ∧ c.toInt = (a.toInt + b.toInt).bmod (2 ^ 64)) ∧
      (∃ c, run .minus = (.ok (.int c), m₂) ∧ c.toInt = (a.toInt - b.toInt).bmod (2 ^ 64)) ∧
      (∃ c, run .star = (.ok (.int c), m₂) ∧ c.toInt = (a.toInt * b.toInt).bmod (2 ^ 64)) ∧
      ∃ c, eval h (n + 1) (.unary { op with kind := .minus } l) m = (.ok (.int c), m₁) ∧
        c.toInt = (-a.toInt).bmod (2 ^ 64)) ∧
    ((b.toInt = 0 → ∀ k, k = .slash ∨ k = .percent → ∃ f : Fault,
        run k = (.error (.fault f), m₂) ∧ f.kind = .divisionByZero) ∧
      (b.toInt ≠ 0 → ∃ c d, run .slash = (.ok (.int c), m₂) ∧ run .percent = (.ok (.int d), m₂) ∧
        Operator.Divides a b c d)) ∧
    [lt, eq, gt].count true = 1 ∧
      run .less = (.ok (.bool lt), m₂) ∧ run .greaterEqual = (.ok (.bool !lt), m₂) ∧
      run .equalEqual = (.ok (.bool eq), m₂) ∧ run .notEqual = (.ok (.bool !eq), m₂) ∧
      run .greater = (.ok (.bool gt), m₂) ∧ run .lessEqual = (.ok (.bool !gt), m₂) := by
  intro run lt eq gt
  have hrun {k : Kind} {v : Value}
      (hv : Operator.binary { op with kind := k } (.int a) (.int b) = .ok v) :
      run k = (.ok v, m₂) := by
    rw [← hv]
    exact eval_binary hl hr _
  have hanswer {k : Kind} {c d : Bool}
      (hv : Operator.binary { op with kind := k } (.int a) (.int b) = .ok (.bool c)) (hcd : c = d) :
      run k = (.ok (.bool d), m₂) := by
    rw [← hcd]
    exact hrun hv
  have hzero : b.toInt = 0 ↔ b = 0 := Int64.toInt_inj (y := 0)
  have hlt (c d : Int64) : decide (c < d) = decide (c.toInt < d.toInt) :=
    decide_eq_decide.mpr Int64.lt_iff_toInt_lt
  have hle (c d : Int64) : decide (c ≤ d) = !decide (d.toInt < c.toInt) := by
    rw [← decide_not, decide_eq_decide, Int64.le_iff_toInt_le, Int.not_lt]
  have heq : decide (a = b) = eq := decide_eq_decide.mpr Int64.toInt_inj.symm
  refine ⟨⟨⟨_, hrun rfl, Int64.toInt_add a b⟩, ⟨_, hrun rfl, Int64.toInt_sub a b⟩,
    ⟨_, hrun rfl, Int64.toInt_mul a b⟩, ⟨_, eval_unary hl _, Int64.toInt_neg a⟩⟩,
    ⟨fun hb k hk => ?zero, fun hb => ?nonzero⟩, Operator.count_compared .., ?less, ?greaterEqual,
    ?equal, ?notEqual, ?greater, ?lessEqual⟩
  case zero =>
    obtain rfl := hzero.mp hb
    refine ⟨⟨.zeroDivisor, { op with kind := k }⟩, (eval_binary hl hr _).trans ?_, rfl⟩
    rcases hk with rfl | rfl <;> rfl
  case nonzero =>
    have hb : b ≠ 0 := fun h => hb (hzero.mpr h)
    exact ⟨a / b, a % b, hrun (if_neg hb), hrun (if_neg hb), Operator.divides_div_mod a hb⟩
  case less => exact hanswer rfl (hlt a b)
  case greaterEqual => exact hanswer rfl (hle b a)
  case equal => exact hanswer rfl heq
  case notEqual => exact hanswer rfl (congrArg not heq)
  case greater => exact hanswer rfl (hlt b a)
  case lessEqual => exact hanswer rfl (hle a b)

/-- The least integer divided by `-1`: its quotient is itself. -/
theorem integers_exact_least :
    let least : Expr := .literal ⟨.intLit, [], some (.int Int64.minValue), .start⟩
    let minus : Expr := .literal ⟨.intLit, [], some (.int (-1)), .start⟩
    let op : Token := ⟨.slash, [47], none, .start⟩
    let m := Machine.bare .empty
    ∃ c d, eval {} 2 (.binary least op minus) m = (.ok (.int c), m) ∧
      eval {} 2 (.binary least { op with kind := .percent } minus) m = (.ok (.int d), m) ∧
      c.toInt = -2 ^ 63 ∧ d = 0 := by
  intro least minus op m
  obtain ⟨-, ⟨-, hdivides⟩, -⟩ :=
    integers_exact {} 1 least minus m m m Int64.minValue (-1) rfl rfl op
  obtain ⟨c, d, hc, hd, hcd⟩ := hdivides (by decide)
  obtain ⟨hleast, hzero⟩ := hcd.wraps (by decide) (by decide)
  exact ⟨c, d, hc, hd, hleast, hzero⟩

end Machine

end FencedCode
