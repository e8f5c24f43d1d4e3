import FencedCode.Proofs.Token.Numerals
import FencedCode.Value.Basic
import Mathlib.Data.List.Basic

/-!
# Lists of literals

A literal has a spelling, or several: an integer may have leading zeros, and a character stands in
quotes or in brackets. A line of spellings with commas between them is scanned into the literals,
with a token for each comma. So every second token has a literal, and these are the ones that were
written.

* `Spells` -- the texts that spell a literal;
* `Spells.lexeme` -- **a spelling is one token by itself, which has the literal**;
* `Listed`, `Listed.literals` -- lines of spellings, and that **their literals are at every second
  token**;
* `Listed.lineFeed_not_mem`, `Listed.ends` -- such a line is one line, and does not end in a
  carriage return.
-/

namespace FencedCode

/-! ## 1. Spellings -/

/-- The text spells the literal. Any character but a line feed can stand in single quotes or in
    brackets. What stands in double quotes holds no double quote; the words for truth values are
    truth values there. -/
inductive Spells : Text → Literal → Prop where
  | int {t : Text} {n : Int64} (ht : t.IsDigits) (hn : n.toInt = t.decimal) : Spells t (.int n)
  | float {whole fraction : Text} (hwhole : whole.IsDigits) (hfraction : fraction.IsDigits)
      (hfinite : (Segment.readFloat whole fraction).isInf = false) :
      Spells (whole ++ 46 :: fraction) (.float (Segment.readFloat whole fraction))
  | bool (b : Bool) : Spells (34 :: (Value.bool b).text ++ [34]) (.bool b)
  | quoted {c : Char} (hc : c ≠ '\n') : Spells (39 :: String.utf8EncodeChar c ++ [39])
      (.char c.toNat)
  | bracketed {c : Char} (hc : c ≠ '\n') : Spells (91 :: String.utf8EncodeChar c ++ [93])
      (.char c.toNat)
  | string {cs : List Char} (hcs : ∀ c ∈ cs, c ≠ '"' ∧ c ≠ '\n')
      (hother : ∀ b, Text.ofChars cs ≠ (Value.bool b).text) :
      Spells (34 :: Text.ofChars cs ++ [34]) (.string (Text.ofChars cs))

namespace Segment

open Text

/-- **Digits around a point are cut off whole.** -/
theorem cut_float {whole fraction : Text} (hwhole : whole.IsDigits)
    (hfraction : fraction.IsDigits) : ∃ r rs, Symbol.decode (whole ++ 46 :: fraction) = r :: rs ∧
      cut r rs = ⟨floatContent whole fraction, r, rs⟩ := by
  obtain ⟨r, rs, hdecode, hcut, hdigits⟩ := hwhole.decode
  obtain ⟨e, es, hbehind, -, hfrac⟩ := hfraction.decode
  rw [List.all_cons, Bool.and_eq_true] at hdigits
  have hboth : Symbol.decode (whole ++ 46 :: fraction) = r :: (rs ++ .scalar '.' :: e :: es) := by
    have hpoint := Symbol.decode_ascii (d := '.') (x := 46) rfl (by decide) whole fraction
    rwa [hdecode, hbehind] at hpoint
  have hnumber := number_eq r hdigits.2 (.inr ⟨e, es, rfl, hfrac⟩) parted_nil
  simp only [List.append_nil, List.isEmpty_cons, Bool.false_eq_true, if_false, List.tail_cons,
    ← hdecode, ← hbehind, Symbol.encode_decode] at hnumber
  refine ⟨r, _, hboth, ?_⟩
  rw [hcut, ← hbehind, hnumber]

theorem not_isLineFeed {c : Char} (hc : c ≠ '\n') : (Symbol.scalar c).isLineFeed = false :=
  beq_eq_false_iff_ne.mpr fun h => hc (Symbol.scalar.inj h)

/-- A character is cut off between its marks. -/
theorem character_eq {c : Char} (hc : c ≠ '\n') (r closing : Symbol) (failure : LexicalError) :
    character r closing failure [.scalar c, closing] =
      ⟨.token .charLit (some (.char c.toNat)), r, [.scalar c, closing]⟩ := by
  simp only [character, not_isLineFeed hc, Bool.not_false, beq_self_eq_true, Bool.and_self, if_true]
  rfl

theorem respell_scalars (cs : List Char) : Symbol.respell (cs.map Symbol.scalar) = ofChars cs := by
  unfold Symbol.respell ofChars
  rw [List.flatMap_map]
  rfl

end Segment

namespace Spells

variable {t : Text} {l : Literal}

/-- **A spelling is one token by itself**, which has the literal. -/
theorem lexeme (h : Spells t l) : ∃ k, Lexeme t k (some l) := by
  cases h with
  | int ht hn => exact ⟨.intLit, .int ht hn⟩
  | float hwhole hfraction hfinite =>
    obtain ⟨r, rs, hdecode, hcut⟩ := Segment.cut_float hwhole hfraction
    refine ⟨.floatLit, r, rs, hdecode, ?_⟩
    rw [hcut, Segment.floatContent]
    simp only [hfinite, Bool.false_eq_true, if_false]
  | bool b =>
    cases b with
    | true => exact ⟨.trueLit, _, _, rfl, rfl⟩
    | false => exact ⟨.falseLit, _, _, rfl, rfl⟩
  | @quoted c hc =>
    exact ⟨.charLit, _, _, Text.decode_ofChars ['\'', c, '\''], Segment.character_eq hc ..⟩
  | @bracketed c hc =>
    exact ⟨.charLit, _, _, Text.decode_ofChars ['[', c, ']'], Segment.character_eq hc ..⟩
  | @string cs hcs hother =>
    have hdecode : Symbol.decode (34 :: Text.ofChars cs ++ [34]) =
        .scalar '"' :: (cs.map Symbol.scalar ++ [.scalar '"']) :=
      (Symbol.decode_scalar '"' _).trans (congrArg _ (Text.decode_ofChars_append cs [34]))
    have hinner : (cs.map Symbol.scalar).all fun c => !c.isLineFeed && c != .scalar '"' := by
      rw [List.all_map, List.all_eq_true]
      intro c hc
      have hquote : (Symbol.scalar c != .scalar '"') = true :=
        bne_iff_ne.mpr fun h => (hcs c hc).1 (Symbol.scalar.inj h)
      simp only [Function.comp_apply, Segment.not_isLineFeed (hcs c hc).2, hquote, Bool.not_false,
        Bool.and_self]
    have hcontent : Segment.stringContent (Text.ofChars cs) =
        .token .stringLit (some (.string (Text.ofChars cs))) :=
      (if_neg (hother true)).trans (if_neg (hother false))
    refine ⟨.stringLit, _, _, hdecode, (Segment.string_eq (.scalar '"') hinner []).trans ?_⟩
    rw [Segment.respell_scalars, hcontent]

/-- No spelling ends in a carriage return. -/
theorem ends (h : Spells t l) : ∃ a b, t = a ++ [b] ∧ b ≠ 13 := by
  have hdigits {u : Text} (hu : u.IsDigits) : ∃ a b, u = a ++ [b] ∧ b ≠ 13 := by
    obtain ⟨a, b, rfl⟩ := (List.eq_nil_or_concat' u).resolve_left hu.ne_nil
    refine ⟨a, b, rfl, ?_⟩
    rintro rfl
    exact absurd (hu.digits 13 List.mem_concat_self) (by decide)
  cases h with
  | int ht _ => exact hdigits ht
  | @float whole _ _ hfraction _ =>
    obtain ⟨a, b, rfl, hb⟩ := hdigits hfraction
    exact ⟨whole ++ 46 :: a, b, (List.append_assoc whole (46 :: a) [b]).symm, hb⟩
  | bool b => exact ⟨_, 34, rfl, by decide⟩
  | quoted _ => exact ⟨_, 39, rfl, by decide⟩
  | bracketed _ => exact ⟨_, 93, rfl, by decide⟩
  | string _ _ => exact ⟨_, 34, rfl, by decide⟩

end Spells

/-! ## 2. Lines -/

/-- The text is blanks and tabs. -/
def Text.IsBlanks (t : Text) : Prop :=
  ∀ b ∈ t, b = 32 ∨ b = 9

instance (t : Text) : Decidable t.IsBlanks :=
  decidable_of_iff (t.all fun b => b = 32 ∨ b = 9) (by simp [Text.IsBlanks])

/-- The text is a line of spellings with commas between them, and perhaps blanks around the
    commas. -/
inductive Listed : Text → List Literal → Prop where
  | single {t : Text} {l : Literal} (ht : Spells t l) : Listed t [l]
  | more {t before behind rest : Text} {l : Literal} {ls : List Literal} (ht : Spells t l)
      (hbefore : before.IsBlanks) (hbehind : behind.IsBlanks) (hrest : Listed rest ls) :
      Listed (t ++ (before ++ 44 :: (behind ++ rest))) (l :: ls)

theorem Text.IsBlanks.mem_gaps {t : Text} (ht : t.IsBlanks) : ∀ b ∈ t, b ∈ Text.gaps := by
  intro b hb
  rcases ht b hb with rfl | rfl <;> decide

/-- In front of a comma every token ends, also with blanks between them. -/
theorem Text.IsBlanks.parted {before : Text} (hbefore : before.IsBlanks) (t : Text) :
    Text.Parted (before ++ 44 :: t) := by
  cases before with
  | nil => exact .inr ⟨',', 44, t, rfl, rfl, by decide, rfl⟩
  | cons b before => exact Text.parted_gap (hbefore.mem_gaps b List.mem_cons_self) _

/-- A token holds no line feed. -/
theorem Lexeme.lineFeed_not_mem {t : Text} {k : Kind} {l : Option Literal} (h : Lexeme t k l) :
    10 ∉ t := by
  obtain ⟨r, rs, hdecode, hcut⟩ := h
  have hsymbols : .scalar '\n' ∉ (Segment.cut r rs).symbols :=
    Segment.lineFeed_not_mem_symbols_cut (by rw [hcut]; exact Content.noConfusion)
  rw [hcut] at hsymbols
  intro h
  have hencode : Symbol.encode (r :: rs) = t := by
    rw [← hdecode, Symbol.encode_decode]
  refine hsymbols (Symbol.lineFeed_mem_of_mem_encode ?_ ?_)
  · rw [Segment.symbols, hencode, hdecode]
  · rwa [Segment.symbols, hencode]

namespace Listed

variable {t : Text} {ls : List Literal}

/-- **Every second token of such a line has a literal**, and these are the literals that it spells,
    in their order. -/
theorem reads (h : Listed t ls) : ∃ ts, Scan.Reads t ts ∧
    ts.map Token.literal = (ls.map some).intersperse none := by
  induction h with
  | single ht =>
    obtain ⟨k, hlexeme⟩ := ht.lexeme
    have hreads := Scan.Reads.lexeme hlexeme (.inl rfl) .nil
    rw [List.append_nil] at hreads
    exact ⟨_, hreads, rfl⟩
  | @more t before behind rest l ls ht hbefore hbehind hrest ih =>
    obtain ⟨k, hlexeme⟩ := ht.lexeme
    obtain ⟨ts, hreads, hliterals⟩ := ih
    have hcomma : Scan.Reads (44 :: (behind ++ rest)) (⟨.comma, [44], none, .none⟩ :: ts) :=
      .mark (c := ',') rfl (fun _ => rfl) (hreads.gaps hbehind.mem_gaps)
    refine ⟨_, .lexeme hlexeme (hbefore.parted _) (hcomma.gaps hbefore.mem_gaps), ?_⟩
    rw [List.map_cons, List.map_cons, hliterals]
    cases ls with
    | nil => cases hrest
    | cons l' ls => rfl

theorem literals (h : Listed t ls) :
    (Scan.ofText t).tokens.dropLast.map Token.literal = (ls.map some).intersperse none := by
  obtain ⟨ts, hreads, hliterals⟩ := h.reads
  have hlast := congrArg (fun us => us.dropLast.map Token.literal) hreads.tokens
  simp only [List.dropLast_concat, ← List.map_dropLast, List.map_map] at hlast
  exact hlast.trans hliterals

theorem lineFeed_not_mem (h : Listed t ls) : 10 ∉ t := by
  have hblanks {before : Text} (hbefore : before.IsBlanks) : 10 ∉ before := fun h => by
    rcases hbefore 10 h with h | h <;> cases h
  induction h with
  | single ht => exact ht.lexeme.choose_spec.lineFeed_not_mem
  | more ht hbefore hbehind _ ih =>
    have hlexeme := ht.lexeme.choose_spec.lineFeed_not_mem
    simp only [List.mem_append, List.mem_cons, not_or]
    exact ⟨hlexeme, hblanks hbefore, by decide, hblanks hbehind, ih⟩

theorem ends (h : Listed t ls) : ∃ a b, t = a ++ [b] ∧ b ≠ 13 := by
  induction h with
  | single ht => exact ht.ends
  | @more t before behind _ _ _ _ _ _ _ ih =>
    obtain ⟨a, b, rfl, hb⟩ := ih
    refine ⟨t ++ (before ++ 44 :: (behind ++ a)), b, ?_, hb⟩
    simp only [List.append_assoc, List.cons_append]

end Listed

end FencedCode
