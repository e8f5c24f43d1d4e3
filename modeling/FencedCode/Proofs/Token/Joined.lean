import FencedCode.Proofs.Syntax.Written
import FencedCode.Proofs.Token.Lexemes

/-!
# Texts made of tokens

Texts that are one token each can be put one behind the other, with something between them that
makes no token longer. The whole is then scanned into just these tokens. So what is scanned from any
text, written down again, is scanned into the same.

* `Scan.Reads` -- that a text is scanned without complaint into tokens, whatever their places;
* `Text.Parted` -- texts in front of which every token ends;
* `Reads.lexeme`, `Reads.mark`, `Reads.gap` -- such a text with one more token in front of it, and
  with one more symbol that is skipped;
* `Scan.rescans` -- **tokens that are written down with blanks or line breaks between them are
  scanned into the same tokens**.
-/

namespace FencedCode

/-! ## 1. Between tokens -/

namespace Segment

theorem not_lengthens_of_isGap {r : Symbol} (hr : r.isGap = true) : r.lengthens = false := by
  cases r with
  | stray b => cases hr
  | scalar c =>
    simp only [Symbol.isGap, Bool.or_eq_true, beq_iff_eq] at hr
    rcases hr with (((rfl | rfl) | rfl) | rfl) | rfl <;> decide

/-- A mark that begins no other is cut off alone. -/
theorem cut_mark {c : Char} {k : Kind} (hc : mark? c = some k)
    (hdouble : ∀ d, doubleMark? c d = none) (rs : List Symbol) :
    cut (.scalar c) rs = ⟨.token k none, .scalar c, []⟩ := by
  have hmark : cut (.scalar c) rs = mark c rs := by
    unfold mark? at hc
    split at hc <;> first | rfl | cases hc
  have hsingle : doubleMark c rs = none := by
    unfold doubleMark
    split
    · rw [hdouble]
      rfl
    · rfl
  simp only [hmark, mark, hsingle, hc]

end Segment

/-- In front of the text every token ends: it is empty, or it begins with an ASCII character that
    makes no token longer. -/
def Text.Parted (t : Text) : Prop :=
  t = [] ∨ ∃ d x rest, t = x :: rest ∧ String.utf8EncodeChar d = [x] ∧ x.toNat < 128 ∧
    Symbol.lengthens (.scalar d) = false

/-- Such a text is decoded by itself. -/
theorem Text.Parted.decode {t : Text} (ht : t.Parted) (a : Text) :
    Symbol.decode (a ++ t) = Symbol.decode a ++ Symbol.decode t ∧
      Segment.Parted (Symbol.decode t) := by
  rcases ht with rfl | ⟨d, x, rest, rfl, hd, hx, hparts⟩
  · rw [List.append_nil]
    exact ⟨(List.append_nil _).symm, Segment.parted_nil⟩
  · have hrest : Symbol.decode (x :: rest) = .scalar d :: Symbol.decode rest :=
      Symbol.decode_ascii hd hx [] rest
    rw [Symbol.decode_ascii hd hx, hrest]
    exact ⟨rfl, Segment.parted_cons hparts _⟩

/-- The bytes that are skipped between tokens. -/
def Text.gaps : Text :=
  [32, 9, 13, 10, 0]

theorem Text.char_of_mem_gaps {b : UInt8} (hb : b ∈ Text.gaps) : ∃ d,
    String.utf8EncodeChar d = [b] ∧ b.toNat < 128 ∧ Symbol.isGap (.scalar d) = true := by
  have hall : Text.gaps.all fun b => String.utf8EncodeChar (Char.ofNat b.toNat) = [b] ∧
      b.toNat < 128 ∧ Symbol.isGap (.scalar (Char.ofNat b.toNat)) = true := by
    decide
  exact ⟨_, of_decide_eq_true (List.all_eq_true.mp hall b hb)⟩

theorem Text.parted_gap {b : UInt8} (hb : b ∈ Text.gaps) (t : Text) : Text.Parted (b :: t) := by
  obtain ⟨d, hd, hascii, hgap⟩ := Text.char_of_mem_gaps hb
  exact .inr ⟨d, b, t, rfl, hd, hascii, Segment.not_lengthens_of_isGap hgap⟩

/-! ## 2. Texts and the tokens they are scanned into -/

namespace Scan

/-- The text is scanned without complaint into the tokens, whatever their places. -/
structure Reads (t : Text) (ts : List Token) : Prop where
  tokens : (ofText t).tokens.map Token.unplaced = ts ++ [.endAt .none]
  clean : (ofText t).diagnostics = []

/-- The tokens of a text come from its segments. -/
theorem tokens_unplaced (t : Text) : (ofText t).tokens.map Token.unplaced =
    (Segment.all (Symbol.decode t)).filterMap (token? .none) ++ [.endAt .none] := by
  show (_ ++ [Token.endAt _]).map Token.unplaced = _
  rw [List.map_append, List.map_filterMap]
  refine congrArg (· ++ _) ?_
  conv_rhs => rw [← map_snd_place .start (Segment.all (Symbol.decode t)), List.filterMap_map]
  refine congrArg (List.filterMap · _) (funext fun ps => ?_)
  show (token? ps.1 ps.2).map Token.unplaced = token? .none ps.2
  unfold token?
  split <;> rfl

/-- There is no complaint about a text if there is none about its segments. -/
theorem diagnostics_eq_nil_iff (t : Text) : (ofText t).diagnostics = [] ↔
    ∀ s ∈ Segment.all (Symbol.decode t), ∀ cause, s.content ≠ .error cause := by
  have hplaced := map_snd_place .start (Segment.all (Symbol.decode t))
  have hnone (p : Position) (s : Segment) :
      diagnostic? p s = none ↔ ∀ cause, s.content ≠ .error cause := by
    unfold diagnostic?
    split
    · rename_i cause hcause
      exact iff_of_false (nomatch ·) fun h => h cause hcause
    · rename_i hother
      exact iff_of_true rfl hother
  show List.filterMap _ _ = [] ↔ _
  rw [List.filterMap_eq_nil_iff]
  constructor
  · intro h s hs
    rw [← hplaced] at hs
    obtain ⟨ps, hps, rfl⟩ := List.mem_map.mp hs
    exact (hnone ps.1 ps.2).mp (h ps hps)
  · intro h ps hps
    exact (hnone ps.1 ps.2).mpr (h ps.2 (mem_of_mem_place hps))

namespace Reads

variable {a t : Text} {ts : List Token}

theorem iff_segments : Reads t ts ↔
    (Segment.all (Symbol.decode t)).filterMap (token? .none) = ts ∧
      ∀ s ∈ Segment.all (Symbol.decode t), ∀ cause, s.content ≠ .error cause := by
  constructor
  · intro h
    refine ⟨?_, (diagnostics_eq_nil_iff t).mp h.clean⟩
    exact List.append_cancel_right ((tokens_unplaced t).symm.trans h.tokens)
  · rintro ⟨rfl, hclean⟩
    exact ⟨tokens_unplaced t, (diagnostics_eq_nil_iff t).mpr hclean⟩

theorem nil : Reads [] [] :=
  ⟨rfl, rfl⟩

/-- A segment more, in front of those of a text. -/
theorem cons {c : Content} {r : Symbol} {rs : List Symbol}
    (hdecode : Symbol.decode a = r :: (rs ++ Symbol.decode t))
    (hcut : Segment.cut r (rs ++ Symbol.decode t) = ⟨c, r, rs⟩) (hc : ∀ cause, c ≠ .error cause)
    (h : Reads t ts) : Reads a ((token? .none ⟨c, r, rs⟩).toList ++ ts) := by
  obtain ⟨htokens, hclean⟩ := iff_segments.mp h
  rw [iff_segments, hdecode, Segment.all_of_cut hcut]
  refine ⟨?_, ?_⟩
  · rw [List.filterMap_cons, htokens]
    cases token? .none ⟨c, r, rs⟩ <;> rfl
  · intro s hs
    rcases List.mem_cons.mp hs with rfl | hs
    · exact hc
    · exact hclean s hs

/-- What is skipped in front of a text changes nothing. -/
theorem gap {b : UInt8} (hb : b ∈ Text.gaps) (h : Reads t ts) : Reads (b :: t) ts := by
  obtain ⟨d, hd, hascii, hgap⟩ := Text.char_of_mem_gaps hb
  have hcut (rs : List Symbol) : Segment.cut (.scalar d) rs = ⟨.trivia, .scalar d, []⟩ := by
    unfold Segment.cut
    rw [if_pos hgap]
  exact cons (Symbol.decode_ascii hd hascii [] t) (hcut _) nofun h

theorem gaps {blanks : Text} (hblanks : ∀ b ∈ blanks, b ∈ Text.gaps) (h : Reads t ts) :
    Reads (blanks ++ t) ts := by
  induction blanks with
  | nil => exact h
  | cons b blanks ih =>
    obtain ⟨hb, hblanks⟩ := List.forall_mem_cons.mp hblanks
    exact (ih hblanks).gap hb

/-- **A text that is one token, in front of a text that ends it.** -/
theorem lexeme {k : Kind} {l : Option Literal} (ha : Lexeme a k l) (ht : t.Parted)
    (h : Reads t ts) : Reads (a ++ t) (⟨k, a, l, .none⟩ :: ts) := by
  obtain ⟨r, rs, hdecode, hcut⟩ := ha
  obtain ⟨hboth, hparted⟩ := ht.decode a
  rw [hdecode] at hboth
  have hlonger : Segment.cut r (rs ++ Symbol.decode t) = ⟨.token k l, r, rs⟩ := by
    have hagain := Segment.cut_parted (congrArg Segment.content hcut) hparted
    rwa [hcut] at hagain
  have hcons := cons hboth hlonger nofun h
  have htext : (⟨.token k l, r, rs⟩ : Segment).text = a := by
    rw [Segment.text, Segment.symbols, ← hdecode, Symbol.encode_decode]
  rwa [token?, htext] at hcons

/-- A mark that begins no other, in front of any text. -/
theorem mark {c : Char} {k : Kind} (hc : Segment.mark? c = some k)
    (hdouble : ∀ d, Segment.doubleMark? c d = none) (h : Reads t ts) :
    Reads (String.utf8EncodeChar c ++ t) (⟨k, String.utf8EncodeChar c, none, .none⟩ :: ts) := by
  have hcons := cons (Symbol.decode_scalar c t) (Segment.cut_mark hc hdouble _) nofun h
  have hlexeme : (⟨.token k none, .scalar c, []⟩ : Segment).text = String.utf8EncodeChar c :=
    List.append_nil _
  rwa [token?, hlexeme] at hcons

end Reads

/-! ## 3. Tokens that are written down -/

/-- Tokens of texts, with something between them that is skipped. -/
theorem reads_join {b : UInt8} (hb : b ∈ Text.gaps) : ∀ us : List Token,
    (∀ u ∈ us, Lexeme u.lexeme u.kind u.literal) →
      Reads (Text.join [b] (us.map Token.lexeme)) (us.map Token.unplaced)
  | [], _ => .nil
  | [u], h => by
    have hlast := Reads.lexeme (h u List.mem_cons_self) (.inl rfl) .nil
    rwa [List.append_nil] at hlast
  | u :: v :: us, h => by
    obtain ⟨hu, hrest⟩ := List.forall_mem_cons.mp h
    have hcons := Reads.lexeme hu (Text.parted_gap hb _) ((reads_join hb (v :: us) hrest).gap hb)
    show Reads (u.lexeme ++ [b] ++ Text.join [b] _) _
    rw [List.append_assoc]
    exact hcons

/-- Written down with the separator between them, the tokens of the text are scanned without
    complaint into the same tokens: of the same kinds, with the same lexemes and literals. -/
def Rescans (separator t : Text) : Prop :=
  let again := ofText (Text.join separator ((ofText t).tokens.dropLast.map Token.lexeme))
  again.diagnostics = [] ∧
    again.tokens.map Token.unplaced = (ofText t).tokens.map Token.unplaced

theorem rescans_of_mem_gaps {b : UInt8} (hb : b ∈ Text.gaps) (t : Text) : Rescans [b] t := by
  have hagain := reads_join hb (ofText t).tokens.dropLast fun u hu => lexeme_of_mem hu
  refine ⟨hagain.clean, hagain.tokens.trans ?_⟩
  obtain ⟨ts, last, htokens, -⟩ := tokens_eq t
  rw [htokens, List.dropLast_concat, List.map_append]
  rfl

/-- **Tokens are scanned again from their lexemes**, with single blanks between them as well as with
    single line breaks. The text that they come from may be any, also one with errors. -/
theorem rescans (t : Text) : Rescans [32] t ∧ Rescans [10] t :=
  ⟨rescans_of_mem_gaps (by decide) t, rescans_of_mem_gaps (by decide) t⟩

end Scan

end FencedCode
