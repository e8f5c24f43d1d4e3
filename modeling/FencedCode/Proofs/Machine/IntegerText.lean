import FencedCode.Proofs.Machine.Supply
import FencedCode.Proofs.Token.Numerals
import Mathlib.Data.List.Permutation

/-!
# Integers as texts

An integer is displayed as a numeral, with a minus sign if it is negative. A program can display the
numeral again: the sign is then an operator before a literal. Only the least integer has a numeral
that no program can contain, since the literal behind its sign does not fit into 64 bits.

* `displaying` -- programs that display an expression;
* `Scan.Reads.displaying`, `Scan.Reads.ofText` -- their tokens, and the tree made of them;
* `Displays`, `Displays.runText` -- texts that are expressions for an integer, and that displaying
  one writes the integer's numeral;
* `Machine.integers_as_texts` -- **numerals and integers correspond up to 64 bits.**
-/

namespace FencedCode

open Exec Machine

/-! ## 1. Programs that display an expression -/

/-- A program that displays what the text says. -/
def displaying (t : Text) : Text :=
  utf8 "BEGIN CODE DISPLAY: " ++ t ++ utf8 " END CODE"

/-- The tokens of the end of such a program. -/
def Token.closing : List Token :=
  [⟨.kwEnd, utf8 "END", none, .none⟩, ⟨.kwCode, utf8 "CODE", none, .none⟩]

/-- The tokens of such a program, with those of the text between them. -/
def Token.displaying (ts : List Token) : List Token :=
  [⟨.kwBegin, utf8 "BEGIN", none, .none⟩, ⟨.kwCode, utf8 "CODE", none, .none⟩,
    ⟨.kwDisplay, utf8 "DISPLAY", none, .none⟩, ⟨.colon, utf8 ":", none, .none⟩] ++ ts ++ closing

/-- The token at another place. -/
def Token.at (t : Token) (p : Position) : Token :=
  { t with pos := p }

/-- Tokens are found again from what they are and where they stand. -/
theorem Token.zipWith_at {ts : List Token} : ∀ {us : List Token}, ts.map unplaced = us →
    List.zipWith Token.at us (ts.map Token.pos) = ts := by
  induction ts with
  | nil => rintro _ rfl; rfl
  | cons t ts ih => rintro _ rfl; exact congrArg (t :: ·) (ih rfl)

namespace Scan.Reads

variable {t : Text} {ts : List Token}

/-- The end of such a program is scanned into two fences. -/
theorem closing : Reads (utf8 " END CODE") Token.closing :=
  ⟨rfl, rfl⟩

theorem displaying (h : Reads (t ++ utf8 " END CODE") (ts ++ Token.closing)) :
    Reads (displaying t) (Token.displaying ts) := by
  have hcolon := mark (c := ':') rfl (fun _ => rfl) (h.gap (b := 32) (by decide))
  have hdisplay := lexeme (a := utf8 "DISPLAY") ⟨_, _, rfl, rfl⟩
    (.inr ⟨':', 58, _, rfl, rfl, by decide, rfl⟩) hcolon
  have hcode := lexeme (a := utf8 "CODE") ⟨_, _, rfl, rfl⟩
    (Text.parted_gap (by decide) _) (hdisplay.gap (b := 32) (by decide))
  have hbegin := lexeme (a := utf8 "BEGIN") ⟨_, _, rfl, rfl⟩
    (Text.parted_gap (by decide) _) (hcode.gap (b := 32) (by decide))
  have htext : FencedCode.displaying t = utf8 "BEGIN" ++ 32 :: (utf8 "CODE" ++ 32 ::
      (utf8 "DISPLAY" ++ (String.utf8EncodeChar ':' ++ 32 :: (t ++ utf8 " END CODE")))) := by
    unfold FencedCode.displaying
    rw [List.append_assoc]
    rfl
  rw [htext]
  exact hbegin

/-- The tree of a text comes from its tokens, wherever they stand. -/
theorem ofText (h : Reads t ts) : ∃ ps, ps.length = ts.length + 1 ∧
    Program.ofText t = Program.ofTokens (List.zipWith Token.at (ts ++ [.endAt .none]) ps) := by
  refine ⟨(Scan.ofText t).tokens.map Token.pos, ?_, ?_⟩
  · have hlength := congrArg List.length h.tokens
    rwa [List.length_map, List.length_append, ← List.length_map (f := Token.pos)] at hlength
  · rw [Token.zipWith_at h.tokens]
    show Program.mk _ ((Scan.ofText t).diagnostics ++ _) = _
    rw [h.clean]
    rfl

end Scan.Reads

/-! ## 2. Expressions for an integer -/

/-- The text is an expression for the integer: the program that displays it has no diagnostics, and
    its one statement displays an expression with that value. -/
def Displays (t : Text) (n : Int64) : Prop :=
  ∃ keyword e, Program.ofText (displaying t) = ⟨[.display keyword e], []⟩ ∧
    ∀ (h : Host) (steps : Nat) (m : Machine), eval h (steps + 2) e m = (.ok (.int n), m)

/-- A literal is parsed as the expression that it is, wherever the tokens stand. -/
theorem parse_literal (t : Text) (l : Literal) : ∀ {ps : List Position}, ps.length = 8 →
    ∃ keyword p, Program.ofTokens (List.zipWith Token.at
      (Token.displaying [⟨.intLit, t, some l, .none⟩] ++ [.endAt .none]) ps) =
        ⟨[.display keyword (.literal ⟨.intLit, t, some l, p⟩)], []⟩
  | [_, _, p₃, _, p₅, _, _, _], _ => ⟨⟨.kwDisplay, utf8 "DISPLAY", none, p₃⟩, p₅, by cbv⟩

/-- Behind a minus sign a literal is its operand. -/
theorem parse_minus (t : Text) (l : Literal) : ∀ {ps : List Position}, ps.length = 9 →
    ∃ keyword p q, Program.ofTokens (List.zipWith Token.at
      (Token.displaying [⟨.minus, [45], none, .none⟩, ⟨.intLit, t, some l, .none⟩] ++
        [.endAt .none]) ps) =
        ⟨[.display keyword (.unary ⟨.minus, [45], none, p⟩
          (.literal ⟨.intLit, t, some l, q⟩))], []⟩
  | [_, _, p₃, _, p₅, p₆, _, _, _], _ =>
    ⟨⟨.kwDisplay, utf8 "DISPLAY", none, p₃⟩, p₅, p₆, by cbv⟩

namespace Displays

variable {t : Text} {n : Int64}

theorem reads_digits (ht : t.IsDigits) (hn : n.toInt = t.decimal) :
    Scan.Reads (t ++ utf8 " END CODE") (⟨.intLit, t, some (.int n), .none⟩ :: Token.closing) :=
  .lexeme (.int ht hn) (Text.parted_gap (by decide) _) .closing

/-- Digits are an expression for the number that they denote. -/
theorem digits (ht : t.IsDigits) (hn : n.toInt = t.decimal) : Displays t n := by
  have hreads : Scan.Reads (displaying t) (Token.displaying [⟨.intLit, t, some (.int n), .none⟩]) :=
    .displaying (reads_digits ht hn)
  obtain ⟨ps, hps, hprogram⟩ := hreads.ofText
  obtain ⟨keyword, p, hparse⟩ := parse_literal t (.int n) hps
  exact ⟨keyword, _, hprogram.trans hparse, fun _ _ _ => rfl⟩

/-- Digits behind a minus sign are an expression for the number's negation. -/
theorem minus (ht : t.IsDigits) (hn : n.toInt = t.decimal) : Displays (45 :: t) (-n) := by
  have hminus : Scan.Reads (45 :: t ++ utf8 " END CODE")
      ([⟨.minus, [45], none, .none⟩, ⟨.intLit, t, some (.int n), .none⟩] ++ Token.closing) :=
    .mark (c := '-') rfl (fun _ => rfl) (reads_digits ht hn)
  obtain ⟨ps, hps, hprogram⟩ := hminus.displaying.ofText
  obtain ⟨keyword, p, q, hparse⟩ := parse_minus t (.int n) hps
  exact ⟨keyword, _, hprogram.trans hparse, fun _ _ _ => rfl⟩

/-- **Displaying an expression for an integer writes its numeral.** -/
theorem runText (ht : Displays t n) (h : Host) (m : Machine) :
    runText h (displaying t) m =
      (none, m.rested.write (Text.line (Value.int n).text)) := by
  obtain ⟨keyword, e, hprogram, heval⟩ := ht
  obtain ⟨steps, hsteps⟩ : ∃ steps, grantedSteps = steps + 4 :=
    ⟨grantedSteps - 4, by decide⟩
  have hdisplay : exec h (steps + 3) (.display keyword e) m.rested =
      (.ok .normal, m.rested.write (Text.line (Value.int n).text)) :=
    bind_of_ok (heval h steps _)
  have hrun : execute h (steps + 4) [.display keyword e] m =
      (.ok (), m.rested.write (Text.line (Value.int n).text)) := by
    rw [Simulation.execute_eq, execAll_singleton, hdisplay]
    rfl
  unfold Machine.runText
  rw [hprogram, runProgram_of_accepted rfl, hsteps, hrun]

/-- **Every integer but the least is displayed as an expression for it.** -/
theorem numeral (hn : n ≠ Int64.minValue) : Displays (Value.int n).text n := by
  show Displays (Text.ofInt n.toInt) n
  cases hsign : n.toInt with
  | ofNat k =>
    have hvalue : n.toInt = (Text.ofNat k).decimal := by
      rw [Text.decimal_ofNat, hsign]
      rfl
    exact digits (Text.isDigits_ofNat k) hvalue
  | negSucc k =>
    have hleast : n.toInt ≠ -2 ^ 63 := by
      rw [← Int64.toInt_minValue]
      exact fun h => hn (Int64.toInt_inj.mp h)
    have hbound := n.le_toInt
    have hopposite : (-n).toInt = (Text.ofNat (k + 1)).decimal := by
      rw [Text.decimal_ofNat, Int64.toInt_neg, Int.bmod_eq_of_le (by omega) (by omega)]
      omega
    have hminus := minus (Text.isDigits_ofNat (k + 1)) hopposite
    rwa [Int64.neg_neg] at hminus

end Displays

/-! ## 3. All integers -/

namespace Machine

/-- The least integer is displayed as a sign and digits that denote too large a number. -/
theorem diagnostics_least :
    (Program.ofText (displaying (Value.int Int64.minValue).text)).diagnostics.map Diagnostic.text =
      [utf8 "line 1: Integer literal 9223372036854775808 is out of range.",
        utf8 "line 1: at 'END': Expect expression."] := by
  decide +kernel

/-- A program with diagnostics is not run. -/
theorem runText_of_diagnostics {t : Text} {d : Diagnostic} {ds : List Diagnostic}
    (ht : (Program.ofText t).diagnostics = d :: ds) (h : Host) (m : Machine) :
    runText h t m = (some (.rejected (d :: ds)), m) := by
  unfold runText runProgram
  rw [ht]
  rfl

/-- **Numerals and integers correspond up to 64 bits.** Digits that stand alone are one literal of
    the number that they denote if it is less than `2 ^ 63`, and otherwise no token at all but one
    complaint. So what any integer but the least is displayed as, a program can display again. The
    numeral of the least integer makes a program that is rejected. -/
theorem integers_as_texts :
    (∀ t : Text, t.IsDigits →
      (t.decimal ≤ 2 ^ 63 - 1 → ∃ n : Int64, n.toInt = t.decimal ∧
        Scan.ofText t = ⟨[⟨.intLit, t, some (.int n), .start⟩, .endAt (.behind t)], []⟩) ∧
      (2 ^ 63 - 1 < t.decimal →
        Scan.ofText t = ⟨[.endAt (.behind t)], [.lexical .start (.intOutOfRange t)]⟩)) ∧
    (∀ n : Int64, n ≠ Int64.minValue →
      (Program.ofText (displaying (Value.int n).text)).diagnostics = [] ∧
      ∀ (h : Host) (m : Machine), runText h (displaying (Value.int n).text) m =
        (none, m.rested.write (Text.line (Value.int n).text))) ∧
    ∃ d ds, (Program.ofText (displaying (Value.int Int64.minValue).text)).diagnostics = d :: ds ∧
      d.text = utf8 "line 1: Integer literal 9223372036854775808 is out of range." ∧
      ∀ (h : Host) (m : Machine), runText h (displaying (Value.int Int64.minValue).text) m =
        (some (.rejected (d :: ds)), m) := by
  refine ⟨fun t ht => ⟨fun hle => ?_, fun hlt => ?_⟩, fun n hn => ⟨?_, ?_⟩, ?_⟩
  · have hn : (Int64.ofNat t.decimal).toInt = t.decimal :=
      Int64.toInt_ofNat_of_lt (by omega)
    exact ⟨_, hn, (Scan.ofText_digits ht).1 _ hn⟩
  · exact (Scan.ofText_digits ht).2 (by omega)
  · obtain ⟨keyword, e, hprogram, -⟩ := Displays.numeral hn
    rw [hprogram]
  · exact (Displays.numeral hn).runText
  · obtain ⟨d, ds, hds, hd, -⟩ := List.map_eq_cons_iff.mp diagnostics_least
    exact ⟨d, ds, hds, hd, runText_of_diagnostics hds⟩

/-- The largest integer with two zeros in front, and the number behind it. -/
theorem integers_as_texts_limit :
    (∃ n : Int64, n.toInt = 2 ^ 63 - 1 ∧
      (Scan.ofText (utf8 "009223372036854775807")).tokens.map Token.literal =
        [some (.int n), none]) ∧
    (Scan.ofText (utf8 "9223372036854775808")).diagnostics =
      [.lexical .start (.intOutOfRange (utf8 "9223372036854775808"))] ∧
    runText {} (displaying (utf8 "-42")) (bare .empty) =
      (none, (bare .empty).write (Text.line (utf8 "-42"))) := by
  refine ⟨?_, ?_, ?_⟩
  · obtain ⟨n, hn, hscan⟩ :=
      (integers_as_texts.1 (utf8 "009223372036854775807") (by decide)).1 (by decide)
    rw [hscan]
    exact ⟨n, hn.trans (by decide), rfl⟩
  · rw [(integers_as_texts.1 (utf8 "9223372036854775808") (by decide)).2 (by decide)]
  · have hagain := (integers_as_texts.2.1 (-42) (by decide)).2 {} (bare .empty)
    have htext : (Value.int (-42)).text = utf8 "-42" := by decide
    rwa [htext] at hagain

end Machine

end FencedCode
