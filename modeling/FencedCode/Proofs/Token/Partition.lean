import FencedCode.Proofs.Token.Lines
import Mathlib.Data.List.DropRight

/-!
# Scanning partitions a text

Scanning cuts a text into pieces that stand one behind the other and make up the whole of it: pieces
that stand for nothing, tokens, and texts that are no token, with a complaint each.

* `Symbol.decode_encode_of_decode_eq` -- symbols that stand together in a text are the symbols of
  the bytes they take up there;
* `Text.ofChars`, `Text.decode_ofChars` -- texts made of characters, and their symbols;
* `Position.afterAll_decode` -- the place behind a text, from its bytes, its line feeds and its last
  line;
* `Segment.cut_of_allFrom`, `Scan.split_of_mem_place` -- each segment is what was cut from the
  symbols from it on;
* `Segment.lineFeed_not_mem_symbols_cut` -- only trivia holds a line feed;
* `Scan.partitions` -- **the pieces partition the text**.
-/

namespace FencedCode

/-! ## 1. Symbols of a part of a text -/

namespace Symbol

/-- A character at the front of a text is its first symbol. -/
theorem decode_scalar (c : Char) (t : Text) :
    decode (String.utf8EncodeChar c ++ t) = .scalar c :: decode t := by
  have hleading : leading? (String.utf8EncodeChar c ++ t) = some c :=
    leading?_eq_some_iff.mpr (List.prefix_append _ _)
  have hlength : 0 < (String.utf8EncodeChar c).length := by
    rw [String.length_utf8EncodeChar]
    exact c.utf8Size_pos
  cases hbytes : String.utf8EncodeChar c with
  | nil =>
    rw [hbytes] at hlength
    exact absurd hlength (lt_irrefl 0)
  | cons b bs =>
    rw [hbytes, List.cons_append] at hleading
    rw [List.cons_append, decode, decodeFrom, hleading]
    show scalar c :: decodeFrom ((String.utf8EncodeChar c).length - 1) (bs ++ t) = _
    rw [hbytes, decodeFrom_drop, List.length_cons, Nat.add_sub_cancel, List.drop_left]
    rfl

/-- A byte at which no character starts is a symbol. -/
theorem decode_stray {b : UInt8} {t : Text} (h : leading? (b :: t) = none) :
    decode (b :: t) = .stray b :: decode t := by
  rw [decode, decodeFrom, h]
  rfl

/-- The first symbol of a text, and the text behind it. -/
theorem decode_eq_cons {t : Text} {r : Symbol} {rs : List Symbol} (h : decode t = r :: rs) :
    ∃ u, t = r.bytes ++ u ∧ decode u = rs ∧ ∀ b, r = .stray b → leading? t = none := by
  cases t with
  | nil => cases h
  | cons b t =>
    cases hc : leading? (b :: t) with
    | none =>
      rw [decode_stray hc] at h
      obtain ⟨rfl, rfl⟩ := List.cons.inj h
      exact ⟨t, rfl, rfl, fun _ _ => rfl⟩
    | some c =>
      obtain ⟨u, hu⟩ := leading?_eq_some_iff.mp hc
      rw [← hu, decode_scalar] at h
      obtain ⟨rfl, rfl⟩ := List.cons.inj h
      exact ⟨u, hu.symm, rfl, nofun⟩

/-- The symbols at the front of a text are the symbols of their bytes. -/
theorem decode_encode_front : ∀ {rs after : List Symbol} {t : Text}, decode t = rs ++ after →
    decode (encode rs) = rs
  | [], _, _, _ => rfl
  | r :: rs, after, t, h => by
    obtain ⟨u, rfl, hu, hstray⟩ := decode_eq_cons h
    have hrest : decode (encode rs) = rs := decode_encode_front hu
    have hencode : encode (r :: rs) = r.bytes ++ encode rs := List.flatMap_cons
    rw [hencode]
    cases r with
    | scalar c => exact (decode_scalar c _).trans (congrArg _ hrest)
    | stray b =>
      -- a character that starts at the byte would start there in the longer text as well
      have hnone : leading? (b :: encode rs) = none := by
        refine Option.eq_none_iff_forall_not_mem.mpr fun c hc => ?_
        have hfront : encode rs <+: u := by
          have happend : encode (rs ++ after) = encode rs ++ encode after := List.flatMap_append
          rw [← encode_decode u, show decode u = rs ++ after from hu, happend]
          exact List.prefix_append _ _
        have hlong : leading? (b :: u) = some c :=
          leading?_eq_some_iff.mpr
            ((leading?_eq_some_iff.mp hc).trans ((List.prefix_cons_inj b).mpr hfront))
        have hshort : leading? (b :: u) = none := hstray b rfl
        rw [hshort] at hlong
        cases hlong
      exact (decode_stray hnone).trans (congrArg _ hrest)

/-- The symbols behind others in a text are the symbols of their bytes. -/
theorem decode_encode_back : ∀ {before rs : List Symbol} {t : Text}, decode t = before ++ rs →
    decode (encode rs) = rs
  | [], rs, t, h => decode_encode_front (h.trans (List.append_nil rs).symm)
  | r :: before, rs, t, h => by
    obtain ⟨u, rfl, hu, -⟩ := decode_eq_cons h
    exact decode_encode_back hu

/-- **Symbols that stand together in a text are the symbols of the bytes they take up.** -/
theorem decode_encode_of_decode_eq {before rs after : List Symbol} {t : Text}
    (h : decode t = before ++ rs ++ after) : decode (encode rs) = rs := by
  have hback : decode (encode (rs ++ after)) = rs ++ after :=
    decode_encode_back (h.trans (List.append_assoc ..))
  exact decode_encode_front hback

/-- Symbols that stand together in a text hold a line feed if their bytes do. -/
theorem lineFeed_mem_of_mem_encode {rs : List Symbol} (hrs : decode (encode rs) = rs)
    (h : 10 ∈ encode rs) : .scalar '\n' ∈ rs := by
  have hcount := count_decode _ (encode rs) (Nat.le_refl _)
  rw [hrs] at hcount
  have hpositive : 0 < (encode rs).count 10 := List.count_pos_iff.mpr h
  exact List.count_pos_iff.mp (hcount ▸ hpositive)

end Symbol

namespace Text

/-- The text that spells characters. -/
def ofChars (cs : List Char) : Text :=
  cs.flatMap String.utf8EncodeChar

theorem ofChars_append (cs ds : List Char) : ofChars (cs ++ ds) = ofChars cs ++ ofChars ds :=
  List.flatMap_append

theorem ofChars_cons (c : Char) (cs : List Char) :
    ofChars (c :: cs) = String.utf8EncodeChar c ++ ofChars cs :=
  List.flatMap_cons

/-- The characters at the front of a text are its first symbols. -/
theorem decode_ofChars_append : ∀ (cs : List Char) (t : Text),
    Symbol.decode (ofChars cs ++ t) = cs.map Symbol.scalar ++ Symbol.decode t
  | [], _ => rfl
  | c :: cs, t => by
    rw [ofChars_cons, List.append_assoc, Symbol.decode_scalar, decode_ofChars_append cs t]
    rfl

theorem decode_ofChars (cs : List Char) : Symbol.decode (ofChars cs) = cs.map Symbol.scalar := by
  have h := decode_ofChars_append cs []
  rwa [List.append_nil, show Symbol.decode [] = [] from rfl, List.append_nil] at h

end Text

/-! ## 2. The place behind a text -/

/-- The part of a text behind its last line feed. -/
def Text.lastLine (t : Text) : Text :=
  t.rtakeWhile (· != 10)

theorem Text.lastLine_of_not_mem {t : Text} (ht : 10 ∉ t) : t.lastLine = t := by
  refine List.rtakeWhile_eq_self_iff.mpr fun b hb => ?_
  exact bne_iff_ne.mpr fun hfeed => ht (hfeed ▸ hb)

theorem Text.lastLine_append (a t : Text) : (a ++ 10 :: t).lastLine = t.lastLine := by
  unfold Text.lastLine List.rtakeWhile
  rw [List.reverse_append, List.reverse_cons, List.append_assoc, List.takeWhile_append]
  split
  · rename_i hall
    have hwhole : t.reverse.takeWhile (· != 10) = t.reverse :=
      (List.takeWhile_prefix _).eq_of_length hall
    rw [List.cons_append, List.takeWhile_cons_of_neg (by decide), List.append_nil, hwhole]
  · rfl

namespace Position

/-- The place behind a text: behind its bytes, its line feeds, and the symbols of its last line. -/
def behind (t : Text) : Position :=
  ⟨t.length, t.count 10 + 1, (Symbol.decode t.lastLine).length + 1⟩

theorem behind_line (a t : Text) :
    behind (a ++ 10 :: t) = (behind t).shift (a.length + 1) (a.count 10 + 1) := by
  have hoffset : (a ++ 10 :: t).length = t.length + (a.length + 1) := by
    rw [List.length_append, List.length_cons]
    omega
  have hlines : (a ++ 10 :: t).count 10 + 1 = t.count 10 + 1 + (a.count 10 + 1) := by
    rw [List.count_append, List.count_cons_self]
    omega
  unfold behind shift
  rw [hoffset, hlines, Text.lastLine_append]

theorem afterAll_column : ∀ {rs : List Symbol} (p : Position), .scalar '\n' ∉ rs →
    (p.afterAll rs).column = p.column + rs.length
  | [], _, _ => rfl
  | r :: rs, p, h => by
    obtain ⟨hr, hrs⟩ := not_or.mp (mt List.mem_cons.mpr h)
    have hstep : (p.after r).column = p.column + 1 := by
      unfold after
      rw [if_neg (Ne.symm hr)]
    show ((p.after r).afterAll rs).column = _
    rw [afterAll_column _ hrs, hstep, List.length_cons]
    omega

/-- **Passing the symbols of a text leads behind it.** -/
theorem afterAll_decode (n : Nat) : ∀ t : Text, t.length ≤ n →
    start.afterAll (Symbol.decode t) = behind t := by
  -- line by line: the columns start again behind a line feed
  induction n with
  | zero =>
    intro t ht
    obtain rfl := List.eq_nil_of_length_eq_zero (Nat.le_zero.mp ht)
    rfl
  | succ n ih =>
    intro t ht
    have hoffset := afterAll_offset (Symbol.decode t) start
    have hlines := afterAll_line (Symbol.decode t) start
    rw [Symbol.encode_decode] at hoffset
    rw [Symbol.count_decode _ t (Nat.le_refl _)] at hlines
    by_cases hmem : 10 ∈ t
    · obtain ⟨a, b, rfl, -⟩ := List.eq_append_cons_of_mem hmem
      have hb : b.length ≤ n := by
        rw [List.length_append, List.length_cons] at ht
        omega
      have hfront := afterAll_offset (Symbol.decode a) start
      have hfeeds := afterAll_line (Symbol.decode a) start
      rw [Symbol.encode_decode] at hfront
      rw [Symbol.count_decode _ a (Nat.le_refl _)] at hfeeds
      have hsplit : start.afterAll (Symbol.decode (a ++ 10 :: b)) =
          ((start.afterAll (Symbol.decode a)).after (.scalar '\n')).afterAll (Symbol.decode b) := by
        rw [Symbol.decode_line]
        exact List.foldl_append
      rw [hsplit, after_lineFeed, afterAll_shift, ih b hb, behind_line, hfront, hfeeds]
      show (behind b).shift (0 + a.length + 1) (1 + a.count 10) = _
      rw [Nat.zero_add, Nat.add_comm 1]
    · have hcolumn := afterAll_column start (Symbol.not_mem_decode hmem)
      have hbehind : behind t = ⟨t.length, t.count 10 + 1, (Symbol.decode t).length + 1⟩ := by
        unfold behind
        rw [Text.lastLine_of_not_mem hmem]
      rw [hbehind]
      refine (Position.mk.injEq ..).mpr ⟨?_, ?_, ?_⟩
      · exact hoffset.trans (Nat.zero_add _)
      · exact hlines.trans (Nat.add_comm ..)
      · exact hcolumn.trans (Nat.add_comm ..)

/-- Passing symbols that stand at the front of a text leads behind their bytes. -/
theorem afterAll_front {rs after : List Symbol} {t : Text} (h : Symbol.decode t = rs ++ after) :
    start.afterAll rs = behind (Symbol.encode rs) := by
  have hdecode : Symbol.decode (Symbol.encode rs) = rs := Symbol.decode_encode_front h
  have hbehind := afterAll_decode _ (Symbol.encode rs) (Nat.le_refl _)
  rwa [hdecode] at hbehind

end Position

/-! ## 3. Segments between others -/

namespace Segment

theorem encode_flatMap (ss : List Segment) :
    Symbol.encode (ss.flatMap symbols) = ss.flatMap text :=
  List.flatMap_assoc

/-- **Each segment is what was cut from the symbols from it on.** -/
theorem cut_of_allFrom : ∀ (rs : List Symbol) (k : Nat) {front back : List Segment} {s : Segment},
    allFrom k rs = front ++ s :: back → s = cut s.head (s.tail ++ back.flatMap symbols)
  | [], k, front, _, _, h => by
    have hnil : allFrom k [] = [] := by cases k <;> rfl
    rw [hnil] at h
    exact absurd h.symm (List.append_ne_nil_of_right_ne_nil front (List.cons_ne_nil _ _))
  | _ :: rs, k + 1, _, _, _, h => cut_of_allFrom rs k h
  | r :: rs, 0, [], back, s, h => by
    obtain ⟨rfl, rfl⟩ := List.cons.inj h
    have hrest : (cut r rs).tail ++ rs.drop (cut r rs).tail.length = rs :=
      List.prefix_iff_eq_append.mp (tail_cut_front r rs)
    rw [flatMap_symbols_allFrom, hrest, head_cut]
  | r :: rs, 0, _ :: _, _, _, h => cut_of_allFrom rs _ (List.cons.inj h).2

/-- Behind its first symbol no segment holds a line feed. -/
theorem lineFeed_not_mem_tail_cut (r : Symbol) (rs : List Symbol) :
    .scalar '\n' ∉ (cut r rs).tail := by
  intro hmem
  have hrs : .scalar '\n' ∈ rs := (tail_cut_front r rs).subset hmem
  obtain ⟨line, after, rfl, hline⟩ := List.eq_append_cons_of_mem hrs
  rw [cut_line] at hmem
  exact hline ((tail_cut_front r line).subset hmem)

/-- **Only trivia holds a line feed.** -/
theorem lineFeed_not_mem_symbols_cut {r : Symbol} {rs : List Symbol}
    (h : (cut r rs).content ≠ .trivia) : .scalar '\n' ∉ (cut r rs).symbols := by
  intro hmem
  rcases List.mem_cons.mp hmem with hhead | htail
  · rw [head_cut] at hhead
    subst hhead
    exact h rfl
  · exact lineFeed_not_mem_tail_cut r rs htail

theorem eq_of_isGap {r : Symbol} (hr : r.isGap = true) :
    ∃ b ∈ ([32, 9, 13, 10, 0] : Text), r.bytes = [b] := by
  cases r with
  | stray b => cases hr
  | scalar c =>
    simp only [Symbol.isGap, Bool.or_eq_true, beq_iff_eq] at hr
    rcases hr with (((rfl | rfl) | rfl) | rfl) | rfl
    · exact ⟨32, by decide, rfl⟩
    · exact ⟨9, by decide, rfl⟩
    · exact ⟨13, by decide, rfl⟩
    · exact ⟨10, by decide, rfl⟩
    · exact ⟨0, by decide, rfl⟩

/-- Taking symbols ends before one that does not fit, or with the text. -/
theorem behind_takeWhile {p : Symbol → Bool} {rs after : List Symbol}
    (h : rs = (rs ++ after).takeWhile p) :
    after = [] ∨ ∃ r after', after = r :: after' ∧ p r = false := by
  cases after with
  | nil => exact .inl rfl
  | cons r after =>
    cases hr : p r with
    | false => exact .inr ⟨r, after, rfl, hr⟩
    | true =>
      have hall : ∀ x ∈ rs, p x = true := fun x hx => by
        rw [h] at hx
        exact List.mem_takeWhile_imp hx
      rw [List.takeWhile_append_of_pos hall, List.takeWhile_cons_of_pos hr] at h
      have hlength := congrArg List.length h
      rw [List.length_append, List.length_cons] at hlength
      omega

end Segment

/-! ## 4. Pieces -/

/-- A piece of a source text: one that stands for nothing, a token, or a text that is none, with the
    complaint about it. -/
inductive Piece where
  | trivia (text : Text)
  | token (token : Token)
  | error (text : Text) (complaint : Diagnostic)

namespace Piece

/-- The bytes of a piece. -/
def text : Piece → Text
  | trivia t => t
  | token u => u.lexeme
  | error t _ => t

/-- The token that a piece yields. -/
def token? : Piece → Option Token
  | token u => some u
  | _ => none

/-- The complaint that a piece yields. -/
def complaint? : Piece → Option Diagnostic
  | error _ d => some d
  | _ => none

/-- How a piece stands between the text before it and the text behind it. A comment reaches up to
    the next line feed; a token and a text that is none are not empty, stay on their line and are
    placed where they start. -/
def Stands (before behind : Text) : Piece → Prop
  | trivia t =>
    (∃ b ∈ ([32, 9, 13, 10, 0] : Text), t = [b]) ∨
      ∃ remark, t = 35 :: remark ∧ 10 ∉ remark ∧ (behind = [] ∨ ∃ rest, behind = 10 :: rest)
  | token u => u.lexeme ≠ [] ∧ 10 ∉ u.lexeme ∧ u.kind ≠ .eof ∧ u.pos = .behind before
  | error t d => t ≠ [] ∧ 10 ∉ t ∧ ∃ cause, d = .lexical (.behind before) cause

/-- The piece that a segment makes at a place. -/
def ofSegment (p : Position) (s : Segment) : Piece :=
  match s.content with
  | .trivia => trivia s.text
  | .token kind literal => token { kind, lexeme := s.text, literal, pos := p }
  | .error cause => error s.text (.lexical p cause)

theorem text_ofSegment (p : Position) (s : Segment) : (ofSegment p s).text = s.text := by
  unfold ofSegment
  split <;> rfl

theorem token?_ofSegment (p : Position) (s : Segment) :
    (ofSegment p s).token? = Scan.token? p s := by
  unfold ofSegment Scan.token?
  cases s.content <;> rfl

theorem complaint?_ofSegment (p : Position) (s : Segment) :
    (ofSegment p s).complaint? = Scan.diagnostic? p s := by
  unfold ofSegment Scan.diagnostic?
  cases s.content <;> rfl

section Stands

variable {s : Segment} (before behind : Text)

/-- What is skipped between tokens is one byte. -/
theorem stands_of_isGap (p : Position) (hgap : s.head.isGap = true)
    (hskip : s = ⟨.trivia, s.head, []⟩) : (ofSegment p s).Stands before behind := by
  obtain ⟨b, hb, hbytes⟩ := Segment.eq_of_isGap hgap
  have htext : s.text = [b] := by
    rw [Segment.text, hskip, ← hbytes]
    exact List.append_nil _
  have hpiece : ofSegment p s = trivia [b] := by
    rw [← htext, hskip]
    rfl
  rw [hpiece]
  exact .inl ⟨b, hb, rfl⟩

/-- A comment ends before a line feed, or with the text. -/
theorem stands_of_comment {after : List Symbol} (p : Position) (hhead : s.head = .scalar '#')
    (hcomment : s = Segment.comment s.head (s.tail ++ after))
    (hremark : 10 ∉ Symbol.encode s.tail) :
    (ofSegment p s).Stands before (Symbol.encode after) := by
  have hpiece : ofSegment p s = trivia s.text := by
    rw [hcomment]
    rfl
  have htail : s.tail = (s.tail ++ after).takeWhile fun c => !c.isLineFeed :=
    congrArg Segment.tail hcomment
  have hbehind : Symbol.encode after = [] ∨ ∃ rest, Symbol.encode after = 10 :: rest := by
    rcases Segment.behind_takeWhile htail with hnil | ⟨r, rs, hcons, hr⟩
    · rw [hnil]
      exact .inl rfl
    · obtain rfl : r = .scalar '\n' := by simpa [Symbol.isLineFeed] using hr
      rw [hcons]
      exact .inr ⟨Symbol.encode rs, rfl⟩
  rw [hpiece]
  refine .inr ⟨Symbol.encode s.tail, ?_, hremark, hbehind⟩
  rw [Segment.text, Segment.symbols, hhead]
  rfl

/-- A token and a text that is none are placed where they start. -/
theorem stands_of_proper (hproper : s.content.Proper) (hnonempty : s.text ≠ [])
    (hline : 10 ∉ s.text) : (ofSegment (.behind before) s).Stands before behind := by
  unfold ofSegment
  split
  · rename_i hcontent
    exact absurd hcontent hproper.1
  · rename_i kind literal hcontent
    refine ⟨hnonempty, hline, ?_, rfl⟩
    rintro rfl
    exact hproper.2 literal hcontent
  · rename_i cause hcontent
    exact ⟨hnonempty, hline, cause, rfl⟩

end Stands

/-- **A segment between others makes a piece that stands between their texts.** -/
theorem stands_ofSegment {t : Text} {front back : List Segment} {s : Segment}
    (h : Segment.all (Symbol.decode t) = front ++ s :: back) :
    (ofSegment (Position.start.afterAll (front.flatMap Segment.symbols)) s).Stands
      (front.flatMap Segment.text) (back.flatMap Segment.text) := by
  have hcut : s = Segment.cut s.head (s.tail ++ back.flatMap Segment.symbols) :=
    Segment.cut_of_allFrom _ 0 h
  have hsymbols : Symbol.decode t =
      front.flatMap Segment.symbols ++ s.symbols ++ back.flatMap Segment.symbols := by
    have hall := Segment.flatMap_symbols_allFrom (Symbol.decode t) 0
    rw [← Segment.all, h, List.flatMap_append, List.flatMap_cons, List.drop_zero] at hall
    rw [← hall, List.append_assoc]
  have hpos : Position.start.afterAll (front.flatMap Segment.symbols) =
      .behind (front.flatMap Segment.text) := by
    rw [← Segment.encode_flatMap]
    exact Position.afterAll_front (hsymbols.trans (List.append_assoc ..))
  have hdecode : Symbol.decode s.text = s.symbols := Symbol.decode_encode_of_decode_eq hsymbols
  rw [hpos]
  rcases Segment.cut_cases s.head (s.tail ++ back.flatMap Segment.symbols) with
    ⟨hgap, hskip⟩ | ⟨hhead, hcomment⟩ | hproper
  · exact stands_of_isGap _ _ _ hgap (hcut.trans hskip)
  · have hremark : 10 ∉ Symbol.encode s.tail := by
      intro hmem
      have hpart : Symbol.decode t = (front.flatMap Segment.symbols ++ [s.head]) ++ s.tail ++
          back.flatMap Segment.symbols := by
        rw [hsymbols, List.append_assoc _ [s.head]]
        rfl
      have hfeed := Symbol.lineFeed_mem_of_mem_encode
        (Symbol.decode_encode_of_decode_eq hpart) hmem
      rw [hcut] at hfeed
      exact Segment.lineFeed_not_mem_tail_cut _ _ hfeed
    rw [← Segment.encode_flatMap back]
    exact stands_of_comment _ _ hhead (hcut.trans hcomment) hremark
  · have hnonempty : s.text ≠ [] := by
      intro hnil
      rw [hnil] at hdecode
      cases hdecode
    have hline : 10 ∉ s.text := by
      intro hmem
      have hfeed := Symbol.lineFeed_mem_of_mem_encode hdecode hmem
      rw [hcut] at hfeed
      exact Segment.lineFeed_not_mem_symbols_cut hproper.1 hfeed
    exact stands_of_proper _ _ (hcut ▸ hproper) hnonempty hline

end Piece

/-! ## 5. The partition -/

namespace Scan

/-- The pieces of a text. -/
def pieces (t : Text) : List Piece :=
  (place .start (Segment.all (Symbol.decode t))).1.map fun ps => Piece.ofSegment ps.1 ps.2

theorem map_snd_place : ∀ (p : Position) (ss : List Segment), (place p ss).1.map (·.2) = ss
  | _, [] => rfl
  | _, s :: ss => congrArg (s :: ·) (map_snd_place _ ss)

/-- A segment is placed behind the symbols of those before it. -/
theorem place_split : ∀ {p : Position} {ss : List Segment} {front back : List (Position × Segment)}
    {ps : Position × Segment}, (place p ss).1 = front ++ ps :: back →
    ps.1 = p.afterAll ((front.map (·.2)).flatMap Segment.symbols)
  | _, [], front, _, _, h =>
    absurd h.symm (List.append_ne_nil_of_right_ne_nil front (List.cons_ne_nil _ _))
  | _, _ :: _, [], _, _, h => by
    obtain ⟨rfl, -⟩ := List.cons.inj h
    rfl
  | _, _ :: _, _ :: front, _, _, h => by
    obtain ⟨rfl, hrest⟩ := List.cons.inj h
    rw [place_split hrest, List.map_cons, List.flatMap_cons]
    exact List.foldl_append.symm

/-- **A placed segment was cut from the symbols of the text from its place on.** -/
theorem split_of_mem_place {t : Text} {ps : Position × Segment}
    (hps : ps ∈ (place .start (Segment.all (Symbol.decode t))).1) :
    ∃ front back, Symbol.decode t = front ++ ps.2.symbols ++ back ∧
      ps.2 = Segment.cut ps.2.head (ps.2.tail ++ back) ∧ ps.1 = Position.start.afterAll front := by
  obtain ⟨before, behind, hplace⟩ := List.append_of_mem hps
  have hall := map_snd_place .start (Segment.all (Symbol.decode t))
  rw [hplace, List.map_append, List.map_cons] at hall
  refine ⟨_, _, ?_, Segment.cut_of_allFrom _ 0 hall.symm, place_split hplace⟩
  have hsymbols := congrArg (List.flatMap Segment.symbols) hall
  rw [Segment.all, Segment.flatMap_symbols_allFrom, List.flatMap_append, List.flatMap_cons,
    ← List.append_assoc] at hsymbols
  exact hsymbols.symm

/-- What pieces must be to partition a text into what scanning it gives. -/
structure IsPartition (t : Text) (pieces : List Piece) : Prop where
  /-- Nothing is lost: the pieces make up the text. -/
  text : pieces.flatMap Piece.text = t
  /-- Each piece is one of the three, between the text before it and the text behind it. -/
  stands : ∀ front piece back, pieces = front ++ piece :: back →
    piece.Stands (front.flatMap Piece.text) (back.flatMap Piece.text)
  /-- The tokens are those of the pieces, in order, and one that ends the text. -/
  tokens : (ofText t).tokens = pieces.filterMap Piece.token? ++ [.endAt (.behind t)]
  /-- The complaints are those of the pieces, in order. -/
  complaints : (ofText t).diagnostics = pieces.filterMap Piece.complaint?

theorem flatMap_text_map (placed : List (Position × Segment)) :
    (placed.map fun ps => Piece.ofSegment ps.1 ps.2).flatMap Piece.text =
      (placed.map (·.2)).flatMap Segment.text := by
  rw [List.flatMap_map, List.flatMap_map]
  exact congrArg placed.flatMap (funext fun ps => Piece.text_ofSegment ps.1 ps.2)

/-- **Scanning partitions a text without loss.** The end of the text stands behind all of it. -/
theorem partitions (t : Text) : ∃ pieces, IsPartition t pieces := by
  have hplaced := map_snd_place .start (Segment.all (Symbol.decode t))
  refine ⟨pieces t, ?text, ?stands, ?tokens, ?complaints⟩
  case text =>
    rw [pieces, flatMap_text_map, hplaced, ← Segment.encode_flatMap, Segment.all,
      Segment.flatMap_symbols_allFrom]
    exact Symbol.encode_decode t
  case stands =>
    intro front piece back hsplit
    obtain ⟨placedFront, placedRest, hplace, rfl, hrest⟩ := List.map_eq_append_iff.mp hsplit
    obtain ⟨ps, placedBack, rfl, rfl, rfl⟩ := List.map_eq_cons_iff.mp hrest
    have hall : Segment.all (Symbol.decode t) =
        placedFront.map (·.2) ++ ps.2 :: placedBack.map (·.2) := by
      rw [← hplaced, hplace, List.map_append, List.map_cons]
    rw [flatMap_text_map, flatMap_text_map, place_split hplace]
    exact Piece.stands_ofSegment hall
  case tokens =>
    have hlast : (place .start (Segment.all (Symbol.decode t))).2 = .behind t := by
      rw [place_snd, Segment.all, Segment.flatMap_symbols_allFrom]
      exact Position.afterAll_decode _ t (Nat.le_refl _)
    rw [pieces, List.filterMap_map, ← hlast]
    refine congrArg (· ++ _) (congrArg (List.filterMap · _) (funext fun ps => ?_))
    exact (Piece.token?_ofSegment ps.1 ps.2).symm
  case complaints =>
    rw [pieces, List.filterMap_map]
    refine congrArg (List.filterMap · _) (funext fun ps => ?_)
    exact (Piece.complaint?_ofSegment ps.1 ps.2).symm

end Scan

end FencedCode
