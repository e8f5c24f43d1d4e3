import FencedCode.Token.Scan

/-!
# Scanning line by line

No symbol, and no segment that starts before a line feed, reaches past it. So a text is scanned
line by line: what follows a line feed changes nothing before it, and is itself scanned as if it
stood alone, in other places.

* `Symbol.leading?_eq_some_iff` -- a character leads a text if its bytes do;
* `Symbol.decode_ascii`, `Symbol.decode_line` -- an ASCII character parts a text, so that decoding
  goes line by line;
* `Segment.cut_line`, `Segment.all_line` -- cutting does;
* `Segment.all_of_cut` -- the segments behind the first one are cut as if they came first;
* `Scan.tokens_line`, `Scan.diagnostics_line` -- **scanning does**;
* `Text.IsLines` -- texts of whole lines.
-/

namespace FencedCode

/-! ## 1. Symbols -/

namespace Symbol

/-- The leading bytes of a character spell it. -/
theorem spelled_append (c : Char) (t : Text) :
    spelled (String.utf8EncodeChar c ++ t) = c.toNat := by
  have hvalid : c.toNat < 0x110000 := by
    rcases c.valid with h | ⟨_, h⟩
    · exact Nat.lt_trans h (by decide)
    · exact h
  unfold String.utf8EncodeChar
  rw [Char.toNat_val]
  generalize c.toNat = v at hvalid ⊢
  by_cases h₁ : v ≤ 127
  · simp only [if_pos h₁, spelled, List.cons_append, List.getD_cons_zero, UInt8.toNat_ofNat']
    rw [if_pos (by omega)]
    omega
  by_cases h₂ : v ≤ 2047
  · simp only [if_neg h₁, if_pos h₂, spelled, List.cons_append, List.getD_cons_zero,
      List.getD_cons_succ, UInt8.toNat_ofNat']
    rw [if_neg (by omega), if_pos (by omega)]
    omega
  by_cases h₃ : v ≤ 65535
  · simp only [if_neg h₁, if_neg h₂, if_pos h₃, spelled, List.cons_append, List.getD_cons_zero,
      List.getD_cons_succ, UInt8.toNat_ofNat']
    rw [if_neg (by omega), if_neg (by omega), if_pos (by omega)]
    omega
  · simp only [if_neg h₁, if_neg h₂, if_neg h₃, spelled, List.cons_append, List.getD_cons_zero,
      List.getD_cons_succ, UInt8.toNat_ofNat']
    rw [if_neg (by omega), if_neg (by omega), if_neg (by omega)]
    omega

/-- **A character leads a text if its bytes do.** -/
theorem leading?_eq_some_iff {t : Text} {c : Char} :
    leading? t = some c ↔ String.utf8EncodeChar c <+: t := by
  refine ⟨fun h => List.isPrefixOf_iff_prefix.mp (isPrefixOf_of_leading? h), fun hprefix => ?_⟩
  obtain ⟨u, rfl⟩ := hprefix
  unfold leading?
  rw [spelled_append, if_pos (show c.toNat.isValidChar from c.valid), Char.ofNat_toNat, if_pos]
  exact List.isPrefixOf_iff_prefix.mpr (List.prefix_append _ _)

/-- Behind the first byte of a character come no bytes of other characters. -/
theorem le_of_mem_tail {c : Char} {b : UInt8} (hb : b ∈ (String.utf8EncodeChar c).tail) :
    128 ≤ b.toNat := by
  unfold String.utf8EncodeChar at hb
  dsimp only at hb
  generalize c.val.toNat = v at hb
  have hbyte (n : Nat) : 128 ≤ (UInt8.ofNat (n % 64 + 128)).toNat := by
    rw [UInt8.toNat_ofNat']
    omega
  split at hb
  · cases hb
  · split at hb
    · obtain rfl : b = _ := List.mem_singleton.mp hb
      exact hbyte v
    · split at hb <;> simp only [List.tail_cons, List.mem_cons, List.not_mem_nil, or_false] at hb
      · rcases hb with rfl | rfl <;> exact hbyte _
      · rcases hb with rfl | rfl | rfl <;> exact hbyte _

/-- The bytes of no character reach past an ASCII character. -/
theorem prefix_ascii_iff {c : Char} {x b : UInt8} (hx : x.toNat < 128) {a t : Text} :
    String.utf8EncodeChar c <+: b :: a ++ x :: t ↔ String.utf8EncodeChar c <+: b :: a := by
  refine ⟨fun hprefix => ?_, fun hprefix => hprefix.trans (List.prefix_append _ _)⟩
  rcases List.prefix_or_prefix_of_prefix hprefix (List.prefix_append (b :: a) (x :: t)) with
    hshort | ⟨v, hv⟩
  · exact hshort
  · rw [← hv] at hprefix ⊢
    rcases v with _ | ⟨y, v⟩
    · simp only [List.append_nil, List.prefix_rfl]
    · have hy : y = x := by
        have hbehind := (List.prefix_append_right_inj (b :: a)).mp hprefix
        exact (List.cons_prefix_cons.mp hbehind).1
      have hle := le_of_mem_tail (c := c) (b := y) (by rw [← hv]; simp)
      rw [hy] at hle
      exact absurd hle (Nat.not_le.mpr hx)

theorem leading?_ascii {x : UInt8} (hx : x.toNat < 128) (b : UInt8) (a t : Text) :
    leading? (b :: a ++ x :: t) = leading? (b :: a) := by
  refine Option.ext fun c => ?_
  rw [leading?_eq_some_iff, leading?_eq_some_iff]
  exact prefix_ascii_iff hx

/-- A character leaves what is not one of its bytes. -/
theorem length_le_of_leading? {b : UInt8} {a : Text} {c : Char} (hc : leading? (b :: a) = some c) :
    (String.utf8EncodeChar c).length - 1 ≤ a.length := by
  have hle := (leading?_eq_some_iff.mp hc).length_le
  rw [List.length_cons] at hle
  omega

section Ascii

variable {d : Char} {x : UInt8}

theorem decodeFrom_ascii (hd : String.utf8EncodeChar d = [x]) (hx : x.toNat < 128) :
    ∀ (a t : Text) (k : Nat), k ≤ a.length →
      decodeFrom k (a ++ x :: t) = decodeFrom k a ++ .scalar d :: decodeFrom 0 t
  | [], t, k, hk => by
    obtain rfl : k = 0 := Nat.le_zero.mp hk
    have hleading : leading? (x :: t) = some d :=
      leading?_eq_some_iff.mpr (hd ▸ List.prefix_append [x] t)
    simp only [List.nil_append, decodeFrom, hleading, hd]
    rfl
  | b :: a, t, k + 1, hk => decodeFrom_ascii hd hx a t k (Nat.le_of_succ_le_succ hk)
  | b :: a, t, 0, _ => by
    have hleading := leading?_ascii hx b a t
    rw [List.cons_append] at hleading ⊢
    rw [decodeFrom, decodeFrom, hleading]
    cases hc : leading? (b :: a) with
    | none => exact congrArg _ (decodeFrom_ascii hd hx a t 0 (Nat.zero_le _))
    | some c => exact congrArg _ (decodeFrom_ascii hd hx a t _ (length_le_of_leading? hc))

/-- **An ASCII character parts a text**: what is before it and what is behind it are decoded by
    themselves. -/
theorem decode_ascii (hd : String.utf8EncodeChar d = [x]) (hx : x.toNat < 128) (a t : Text) :
    decode (a ++ x :: t) = decode a ++ .scalar d :: decode t :=
  decodeFrom_ascii hd hx a t 0 (Nat.zero_le _)

end Ascii

/-- **Decoding goes line by line.** -/
theorem decode_line (a t : Text) : decode (a ++ 10 :: t) = decode a ++ .scalar '\n' :: decode t :=
  decode_ascii rfl (by decide) a t

end Symbol

/-! ## 2. Segments -/

namespace Segment

/-- What is taken up to a line feed stays on its line. -/
theorem takeWhile_line {p : Symbol → Bool} (hp : p (.scalar '\n') = false)
    (rs after : List Symbol) :
    (rs ++ .scalar '\n' :: after).takeWhile p = rs.takeWhile p := by
  rw [List.takeWhile_append, List.takeWhile_cons_of_neg (by rw [hp]; exact Bool.false_ne_true)]
  split
  · rename_i hall
    rw [List.append_nil]
    exact ((List.takeWhile_prefix p).eq_of_length hall).symm
  · rfl

theorem drop_line {k : Nat} {rs : List Symbol} (hk : k ≤ rs.length) (after : List Symbol) :
    (rs ++ .scalar '\n' :: after).drop k = rs.drop k ++ .scalar '\n' :: after :=
  List.drop_append_of_le_length hk

theorem fraction_of_ne {r : Symbol} (hr : r ≠ .scalar '.') (rs : List Symbol) :
    fraction (r :: rs) = [] := by
  unfold fraction
  split
  · rename_i heq
    exact absurd (List.cons.inj heq).1 hr
  · rfl

theorem fraction_line (rs after : List Symbol) :
    fraction (rs ++ .scalar '\n' :: after) = fraction rs := by
  rcases rs with _ | ⟨r, rs⟩
  · rfl
  by_cases hr : r = .scalar '.'
  · subst hr
    rcases rs with _ | ⟨d, rs⟩
    · rfl
    · show (if d.isDigit then .scalar '.' :: d :: (rs ++ .scalar '\n' :: after).takeWhile _
        else []) = _
      rw [takeWhile_line rfl]
      rfl
  · rw [List.cons_append, fraction_of_ne hr, fraction_of_ne hr]

theorem fraction_front (rs : List Symbol) : fraction rs <+: rs := by
  unfold fraction
  split
  · rename_i d rs
    split
    · exact (List.prefix_cons_inj _).mpr ((List.prefix_cons_inj _).mpr (List.takeWhile_prefix _))
    · exact List.nil_prefix
  · exact List.nil_prefix

theorem comment_line (r : Symbol) (rs after : List Symbol) :
    comment r (rs ++ .scalar '\n' :: after) = comment r rs := by
  unfold comment
  rw [takeWhile_line rfl]

theorem word_line (r : Symbol) (rs after : List Symbol) :
    word r (rs ++ .scalar '\n' :: after) = word r rs := by
  unfold word
  rw [takeWhile_line rfl]

theorem number_line (r : Symbol) (rs after : List Symbol) :
    number r (rs ++ .scalar '\n' :: after) = number r rs := by
  unfold number
  dsimp only
  rw [takeWhile_line rfl, drop_line (List.takeWhile_prefix _).length_le, fraction_line,
    drop_line (fraction_front _).length_le]
  -- the word that may spoil the number is on its line as well
  generalize ((rs.drop _).drop _) = spoilt
  have hspoil : (if (spoilt ++ .scalar '\n' :: after).head?.any Symbol.isLetter then
      (spoilt ++ .scalar '\n' :: after).takeWhile Symbol.isWord else []) =
      if spoilt.head?.any Symbol.isLetter then spoilt.takeWhile Symbol.isWord else [] := by
    rw [takeWhile_line rfl]
    cases spoilt <;> rfl
  rw [hspoil]

theorem character_line (r closing : Symbol) (hclosing : closing ≠ .scalar '\n')
    (failure : LexicalError) (rs after : List Symbol) :
    character r closing failure (rs ++ .scalar '\n' :: after) = character r closing failure rs := by
  have hfeed : ((.scalar '\n' : Symbol) == closing) = false := by simpa using hclosing.symm
  rcases rs with _ | ⟨c, _ | ⟨d, rs⟩⟩
  · rcases after with _ | ⟨d, after⟩ <;> rfl
  · show (if !c.isLineFeed && .scalar '\n' == closing then _ else _) = _
    rw [hfeed, Bool.and_false]
    rfl
  · rfl

theorem string_line (r : Symbol) (rs after : List Symbol) :
    string r (rs ++ .scalar '\n' :: after) = string r rs := by
  unfold string
  dsimp only
  rw [takeWhile_line rfl, drop_line (List.takeWhile_prefix _).length_le]
  cases rs.drop (rs.takeWhile fun c => !c.isLineFeed && c != .scalar '"').length with
  | nil => rfl
  | cons q behind => rfl

/-- A line feed is the second character of no mark. -/
theorem doubleMark?_lineFeed (c : Char) : doubleMark? c '\n' = none := by
  unfold doubleMark?
  split <;> first | rfl | (rename_i heq; exact absurd heq (by decide))

theorem mark_line (c : Char) (rs after : List Symbol) :
    mark c (rs ++ .scalar '\n' :: after) = mark c rs := by
  have hdouble : doubleMark c (rs ++ .scalar '\n' :: after) = doubleMark c rs := by
    rcases rs with _ | ⟨r, rs⟩
    · show (doubleMark? c '\n').map _ = none
      rw [doubleMark?_lineFeed]
      rfl
    · cases r <;> rfl
  unfold mark
  rw [hdouble]

/-- **A segment ends before the next line feed.** -/
theorem cut_line (r : Symbol) (rs after : List Symbol) :
    cut r (rs ++ .scalar '\n' :: after) = cut r rs := by
  unfold cut
  split
  · rfl
  split
  · exact word_line r rs after
  split
  · exact number_line r rs after
  split
  · exact comment_line _ rs after
  · rfl
  · exact character_line _ _ (by decide) _ rs after
  · exact character_line _ _ (by decide) _ rs after
  · exact string_line _ rs after
  · exact mark_line _ rs after
  · rfl

/-! A segment takes symbols from the front. -/

theorem tail_number_front (r : Symbol) (rs : List Symbol) : (number r rs).tail <+: rs := by
  unfold number
  dsimp only
  have hwhole : rs.takeWhile Symbol.isDigit <+: rs := List.takeWhile_prefix _
  generalize rs.takeWhile Symbol.isDigit = whole at hwhole
  obtain ⟨behind, rfl⟩ := hwhole
  rw [List.drop_left]
  have hfraction := fraction_front behind
  generalize fraction behind = frac at hfraction
  obtain ⟨after, rfl⟩ := hfraction
  rw [List.drop_left, List.append_assoc, List.prefix_append_right_inj,
    List.prefix_append_right_inj]
  split
  · exact List.takeWhile_prefix _
  · exact List.nil_prefix

theorem tail_character_front (r closing : Symbol) (failure : LexicalError) (rs : List Symbol) :
    (character r closing failure rs).tail <+: rs := by
  unfold character
  split
  · rename_i c d rs
    split
    · exact List.prefix_append [c, d] rs
    · exact List.nil_prefix
  · exact List.nil_prefix

theorem tail_string_front (r : Symbol) (rs : List Symbol) : (string r rs).tail <+: rs := by
  unfold string
  dsimp only
  have hinner : (rs.takeWhile fun c => !c.isLineFeed && c != .scalar '"') <+: rs :=
    List.takeWhile_prefix _
  generalize (rs.takeWhile fun c => !c.isLineFeed && c != .scalar '"') = inner at hinner
  obtain ⟨behind, rfl⟩ := hinner
  rw [List.drop_left]
  rcases behind with _ | ⟨q, behind⟩
  · exact List.prefix_append inner []
  · dsimp only
    split
    · exact (List.prefix_append_right_inj inner).mpr (List.prefix_append [q] behind)
    · exact List.prefix_append inner _

theorem tail_mark_front (c : Char) (rs : List Symbol) : (mark c rs).tail <+: rs := by
  unfold mark
  cases hdouble : doubleMark c rs with
  | none =>
    dsimp only
    split <;> exact List.nil_prefix
  | some kd =>
    unfold doubleMark at hdouble
    split at hdouble
    · rename_i d rs
      obtain ⟨k, _, rfl⟩ := Option.map_eq_some_iff.mp hdouble
      exact List.prefix_append [.scalar d] rs
    · cases hdouble

theorem tail_cut_front (r : Symbol) (rs : List Symbol) : (cut r rs).tail <+: rs := by
  unfold cut
  split
  · exact List.nil_prefix
  split
  · exact List.takeWhile_prefix _
  split
  · exact tail_number_front r rs
  split
  · exact List.takeWhile_prefix _
  · exact List.nil_prefix
  · exact tail_character_front _ _ _ rs
  · exact tail_character_front _ _ _ rs
  · exact tail_string_front _ rs
  · exact tail_mark_front _ rs
  · exact List.nil_prefix

theorem allFrom_line : ∀ (rs after : List Symbol) (k : Nat), k ≤ rs.length →
    allFrom k (rs ++ .scalar '\n' :: after) =
      allFrom k rs ++ ⟨.trivia, .scalar '\n', []⟩ :: allFrom 0 after
  | [], after, k, hk => by
    obtain rfl : k = 0 := Nat.le_zero.mp hk
    rfl
  | _ :: rs, after, k + 1, hk => allFrom_line rs after k (Nat.le_of_succ_le_succ hk)
  | r :: rs, after, 0, _ => by
    rw [List.cons_append, allFrom, allFrom, cut_line,
      allFrom_line rs after _ (tail_cut_front r rs).length_le]
    rfl

/-- **Cutting goes line by line.** -/
theorem all_line (rs after : List Symbol) :
    all (rs ++ .scalar '\n' :: after) =
      all rs ++ ⟨.trivia, .scalar '\n', []⟩ :: all after :=
  allFrom_line rs after 0 (Nat.zero_le _)

theorem allFrom_append : ∀ rs after : List Symbol, allFrom rs.length (rs ++ after) = all after
  | [], _ => rfl
  | _ :: rs, after => allFrom_append rs after

/-- Behind the first segment the others are cut as if they came first. -/
theorem all_of_cut {c : Content} {r : Symbol} {rs after : List Symbol}
    (h : cut r (rs ++ after) = ⟨c, r, rs⟩) :
    all (r :: (rs ++ after)) = ⟨c, r, rs⟩ :: all after := by
  show cut r (rs ++ after) :: allFrom (cut r (rs ++ after)).tail.length (rs ++ after) = _
  rw [h]
  exact congrArg _ (allFrom_append rs after)

/-- Symbols that are cut off whole are one segment. -/
theorem all_singleton {c : Content} {r : Symbol} {rs : List Symbol} (h : cut r rs = ⟨c, r, rs⟩) :
    all (r :: rs) = [⟨c, r, rs⟩] := by
  have hwhole : cut r (rs ++ []) = ⟨c, r, rs⟩ := by
    rwa [List.append_nil]
  have hone := all_of_cut hwhole
  rw [List.append_nil] at hone
  exact hone

end Segment

/-! ## 3. Places -/

namespace Position

/-- The place `offset` bytes and `lines` lines further on. -/
def shift (offset lines : Nat) (p : Position) : Position :=
  ⟨p.offset + offset, p.line + lines, p.column⟩

theorem after_shift (offset lines : Nat) (p : Position) (r : Symbol) :
    (p.shift offset lines).after r = (p.after r).shift offset lines := by
  unfold after
  split
  · simp only [shift, mk.injEq, and_true]
    omega
  · simp only [shift, mk.injEq, and_true]
    omega

theorem afterAll_shift (offset lines : Nat) : ∀ (rs : List Symbol) (p : Position),
    (p.shift offset lines).afterAll rs = (p.afterAll rs).shift offset lines
  | [], _ => rfl
  | r :: rs, p => by
    show ((p.shift offset lines).after r).afterAll rs = ((p.after r).afterAll rs).shift offset lines
    rw [after_shift, afterAll_shift offset lines rs]

/-- Behind a line feed the columns start again. -/
theorem after_lineFeed (p : Position) :
    p.after (.scalar '\n') = Position.start.shift (p.offset + 1) p.line := by
  show (⟨p.offset + 1, p.line + 1, 1⟩ : Position) = ⟨0 + (p.offset + 1), 1 + p.line, 1⟩
  rw [Nat.zero_add, Nat.add_comm 1]

end Position

/-- The token at a place further on. -/
def Token.shift (offset lines : Nat) (t : Token) : Token :=
  { t with pos := t.pos.shift offset lines }

/-- The complaint about a place further on. -/
def Diagnostic.shift (lines : Nat) (d : Diagnostic) : Diagnostic :=
  { d with line := d.line + lines }

namespace Scan

theorem place_append : ∀ (p : Position) (ss ts : List Segment),
    place p (ss ++ ts) =
      ((place p ss).1 ++ (place (place p ss).2 ts).1, (place (place p ss).2 ts).2)
  | _, [], _ => rfl
  | p, s :: ss, ts => by
    simp only [List.cons_append, place]
    rw [place_append _ ss ts]

theorem place_shift (offset lines : Nat) : ∀ (p : Position) (ss : List Segment),
    place (p.shift offset lines) ss =
      ((place p ss).1.map fun ps => (ps.1.shift offset lines, ps.2),
        (place p ss).2.shift offset lines)
  | _, [] => rfl
  | p, s :: ss => by
    simp only [place, Position.afterAll_shift, place_shift offset lines _ ss]
    rfl

/-- The tokens of segments with their places. -/
def tokensOf (placed : List (Position × Segment)) : List Token :=
  placed.filterMap fun ps => token? ps.1 ps.2

theorem tokensOf_shift (offset lines : Nat) (placed : List (Position × Segment)) :
    tokensOf (placed.map fun ps => (ps.1.shift offset lines, ps.2)) =
      (tokensOf placed).map (Token.shift offset lines) := by
  unfold tokensOf
  rw [List.filterMap_map, List.map_filterMap]
  refine congrArg (List.filterMap · placed) (funext fun ps => ?_)
  show token? (ps.1.shift offset lines) ps.2 = (token? ps.1 ps.2).map (Token.shift offset lines)
  unfold token?
  split <;> rfl

/-- The complaints about segments with their places. -/
def diagnosticsOf (placed : List (Position × Segment)) : List Diagnostic :=
  placed.filterMap fun ps => diagnostic? ps.1 ps.2

theorem diagnosticsOf_shift (offset lines : Nat) (placed : List (Position × Segment)) :
    diagnosticsOf (placed.map fun ps => (ps.1.shift offset lines, ps.2)) =
      (diagnosticsOf placed).map (Diagnostic.shift lines) := by
  unfold diagnosticsOf
  rw [List.filterMap_map, List.map_filterMap]
  refine congrArg (List.filterMap · placed) (funext fun ps => ?_)
  show diagnostic? (ps.1.shift offset lines) ps.2 =
    (diagnostic? ps.1 ps.2).map (Diagnostic.shift lines)
  unfold diagnostic?
  split <;> rfl

/-- What is placed behind a line feed is placed as from the start, only further on. -/
theorem place_line (rs after : List Symbol) :
    let behind := (place .start (Segment.all rs)).2
    place .start (Segment.all (rs ++ .scalar '\n' :: after)) =
      ((place .start (Segment.all rs)).1 ++ (behind, ⟨.trivia, .scalar '\n', []⟩) ::
          (place .start (Segment.all after)).1.map fun ps =>
            (ps.1.shift (behind.offset + 1) behind.line, ps.2),
        (place .start (Segment.all after)).2.shift (behind.offset + 1) behind.line) := by
  intro behind
  rw [Segment.all_line, place_append]
  show (_ ++ (behind, _) :: (place (behind.after (.scalar '\n')) _).1,
    (place (behind.after (.scalar '\n')) _).2) = _
  rw [Position.after_lineFeed, place_shift]

end Scan

/-! ## 4. The end of a text -/

theorem Segment.head_cut (r : Symbol) (rs : List Symbol) : (cut r rs).head = r := by
  have hcharacter (closing : Symbol) (failure : LexicalError) :
      (character r closing failure rs).head = r := by
    unfold character
    split
    · split <;> rfl
    · rfl
  have hmark (c : Char) : (mark c rs).head = .scalar c := by
    unfold mark
    split
    · rfl
    · split <;> rfl
  have hstring : (string r rs).head = r := by
    unfold string
    dsimp only
    split
    · split <;> rfl
    · rfl
  unfold cut
  split
  · rfl
  split
  · rfl
  split
  · rfl
  split
  · rfl
  · rfl
  · exact hcharacter _ _
  · exact hcharacter _ _
  · exact hstring
  · exact hmark _
  · rfl

/-- **Cutting loses nothing**: the symbols of the segments are those that were cut. -/
theorem Segment.flatMap_symbols_allFrom : ∀ (rs : List Symbol) (k : Nat),
    (allFrom k rs).flatMap symbols = rs.drop k
  | [], k => by cases k <;> rfl
  | _ :: rs, k + 1 => flatMap_symbols_allFrom rs k
  | r :: rs, 0 => by
    rw [allFrom, List.flatMap_cons, flatMap_symbols_allFrom rs, symbols, head_cut]
    exact congrArg (r :: ·) (List.prefix_iff_eq_append.mp (tail_cut_front r rs))

namespace Symbol

/-- Only a line feed has the byte of a line feed. -/
theorem not_mem_decode {t : Text} (ht : 10 ∉ t) : .scalar '\n' ∉ decode t := by
  intro hmem
  refine ht ?_
  rw [← encode_decode t]
  exact List.mem_flatMap.mpr ⟨.scalar '\n', hmem, List.mem_singleton.mpr rfl⟩

/-- A text has as many line feeds as its symbols. -/
theorem count_decode (n : Nat) : ∀ t : Text, t.length ≤ n →
    (decode t).count (.scalar '\n') = t.count 10 := by
  induction n with
  | zero =>
    intro t ht
    obtain rfl := List.eq_nil_of_length_eq_zero (Nat.le_zero.mp ht)
    rfl
  | succ n ih =>
    intro t ht
    by_cases hmem : 10 ∈ t
    · obtain ⟨a, b, rfl, ha⟩ := List.eq_append_cons_of_mem hmem
      rw [decode_line, List.count_append, List.count_append, List.count_cons_self,
        List.count_cons_self, List.count_eq_zero.mpr ha,
        List.count_eq_zero.mpr (not_mem_decode ha), ih b]
      rw [List.length_append, List.length_cons] at ht
      omega
    · rw [List.count_eq_zero.mpr hmem, List.count_eq_zero.mpr (not_mem_decode hmem)]

end Symbol

namespace Scan

theorem place_snd : ∀ (p : Position) (ss : List Segment),
    (place p ss).2 = p.afterAll (ss.flatMap Segment.symbols)
  | _, [] => rfl
  | p, s :: ss => by
    simp only [place, List.flatMap_cons, Position.afterAll, List.foldl_append]
    exact place_snd _ ss

end Scan

namespace Position

theorem afterAll_offset : ∀ (rs : List Symbol) (p : Position),
    (p.afterAll rs).offset = p.offset + (Symbol.encode rs).length
  | [], _ => rfl
  | r :: rs, p => by
    have hstep : (p.after r).offset = p.offset + r.bytes.length := by
      unfold after
      split <;> rfl
    show ((p.after r).afterAll rs).offset = _
    rw [afterAll_offset rs, hstep, Nat.add_assoc]
    exact congrArg (p.offset + ·) List.length_append.symm

theorem afterAll_line : ∀ (rs : List Symbol) (p : Position),
    (p.afterAll rs).line = p.line + rs.count (.scalar '\n')
  | [], _ => rfl
  | r :: rs, p => by
    show ((p.after r).afterAll rs).line = _
    rw [afterAll_line rs, List.count_cons]
    unfold after
    by_cases hr : r = .scalar '\n'
    · rw [if_pos hr, if_pos (by simpa using hr)]
      show p.line + 1 + _ = _
      omega
    · rw [if_neg hr, if_neg (by simpa using hr)]
      rfl

end Position

namespace Scan

/-- The place behind a text. -/
theorem behind_decode (t : Text) :
    let behind := (place .start (Segment.all (Symbol.decode t))).2
    behind.offset = t.length ∧ behind.line = t.count 10 + 1 := by
  intro behind
  have hbehind : behind = Position.start.afterAll (Symbol.decode t) := by
    show (place _ _).2 = _
    rw [place_snd, Segment.all, Segment.flatMap_symbols_allFrom]
    rfl
  rw [hbehind, Position.afterAll_offset, Position.afterAll_line, Symbol.encode_decode,
    Symbol.count_decode t.length t (Nat.le_refl _)]
  exact ⟨Nat.zero_add _, Nat.add_comm ..⟩

/-- **Scanning goes line by line.** Behind a line feed come the tokens of what follows it, by its
    bytes and lines further on. -/
theorem tokens_line (a t : Text) :
    (ofText (a ++ 10 :: t)).tokens = (ofText a).tokens.dropLast ++
      (ofText t).tokens.map (Token.shift (a.length + 1) (a.count 10 + 1)) := by
  obtain ⟨hoffset, hline⟩ := behind_decode a
  have hplace := place_line (Symbol.decode a) (Symbol.decode t)
  simp only [hoffset, hline] at hplace
  unfold ofText ofSymbols
  rw [Symbol.decode_line, hplace]
  show tokensOf _ ++ _ = (tokensOf _ ++ [_]).dropLast ++ (tokensOf _ ++ [_]).map _
  rw [List.dropLast_concat, List.map_append, ← tokensOf_shift, ← List.append_assoc]
  refine congrArg (· ++ _) ?_
  unfold tokensOf
  rw [List.filterMap_append, List.filterMap_cons_none rfl]

theorem diagnostics_line (a t : Text) :
    (ofText (a ++ 10 :: t)).diagnostics = (ofText a).diagnostics ++
      (ofText t).diagnostics.map (Diagnostic.shift (a.count 10 + 1)) := by
  obtain ⟨hoffset, hline⟩ := behind_decode a
  have hplace := place_line (Symbol.decode a) (Symbol.decode t)
  simp only [hoffset, hline] at hplace
  unfold ofText ofSymbols
  rw [Symbol.decode_line, hplace]
  show diagnosticsOf _ = diagnosticsOf _ ++ (diagnosticsOf _).map _
  rw [← diagnosticsOf_shift (a.length + 1)]
  unfold diagnosticsOf
  rw [List.filterMap_append, List.filterMap_cons_none rfl]

end Scan

/-! ## 5. No token but the last ends a text -/

/-- The content is no end of a text. -/
def Content.NotEnd (c : Content) : Prop :=
  ∀ literal, c ≠ .token .eof literal

/-- The content is a token other than the end of a text, or no token. -/
def Content.Proper (c : Content) : Prop :=
  c ≠ .trivia ∧ c.NotEnd

namespace Segment

theorem proper_word (w : Text) : Content.Proper (.token (.ofWord w) none) := by
  refine ⟨nofun, fun literal heq => ?_⟩
  have hword : Kind.ofWord w = .eof := (Content.token.inj heq).1
  unfold Kind.ofWord at hword
  cases hfind : Kind.words.find? fun k => k.label == w with
  | none =>
    rw [hfind] at hword
    cases hword
  | some k =>
    rw [hfind] at hword
    have hwords : Kind.eof ∉ Kind.words := by decide
    exact hwords (hword ▸ List.mem_of_find?_eq_some hfind)

theorem proper_error (cause : LexicalError) : Content.Proper (.error cause) :=
  ⟨nofun, nofun⟩

theorem proper_ite {q : Prop} [Decidable q] {x y : Content} (hx : x.Proper) (hy : y.Proper) :
    (if q then x else y).Proper := by
  split
  · exact hx
  · exact hy

theorem proper_number (r : Symbol) (rs : List Symbol) : (number r rs).content.Proper := by
  have hint (digits : Text) : (intContent digits).Proper :=
    proper_ite ⟨nofun, nofun⟩ (proper_error _)
  have hfloat (whole fraction : Text) : (floatContent whole fraction).Proper :=
    proper_ite (proper_error _) ⟨nofun, nofun⟩
  exact proper_ite (proper_error _) (proper_ite (hint _) (hfloat _ _))

theorem proper_character (r closing : Symbol) (failure : LexicalError) (rs : List Symbol) :
    (character r closing failure rs).content.Proper := by
  unfold character
  split
  · split
    · exact ⟨nofun, nofun⟩
    · exact proper_error failure
  · exact proper_error failure

theorem proper_string (r : Symbol) (rs : List Symbol) : (string r rs).content.Proper := by
  have hcontent (value : Text) : (stringContent value).Proper :=
    proper_ite ⟨nofun, nofun⟩ (proper_ite ⟨nofun, nofun⟩ ⟨nofun, nofun⟩)
  unfold string
  dsimp only
  split
  · split
    · exact hcontent _
    · exact proper_error _
  · exact proper_error _

theorem proper_mark (c : Char) (rs : List Symbol) : (mark c rs).content.Proper := by
  have hmark : mark? c ≠ some .eof := by
    unfold mark?
    split <;> decide
  have hdouble (d : Char) : doubleMark? c d ≠ some .eof := by
    unfold doubleMark?
    split <;> decide
  unfold mark
  cases hfound : doubleMark c rs with
  | none =>
    dsimp only
    split
    · rename_i k hk
      exact ⟨nofun, fun _ heq => hmark (hk.trans (congrArg some (Content.token.inj heq).1))⟩
    · exact proper_error _
  | some kd =>
    unfold doubleMark at hfound
    split at hfound
    · obtain ⟨k, hk, rfl⟩ := Option.map_eq_some_iff.mp hfound
      exact ⟨nofun, fun _ heq => hdouble _ (hk.trans (congrArg some (Content.token.inj heq).1))⟩
    · cases hfound

/-- A segment is a symbol that is skipped, a comment, or proper. -/
theorem cut_cases (r : Symbol) (rs : List Symbol) :
    (r.isGap = true ∧ cut r rs = ⟨.trivia, r, []⟩) ∨
      (r = .scalar '#' ∧ cut r rs = comment r rs) ∨ (cut r rs).content.Proper := by
  unfold cut
  split
  · rename_i hgap
    exact .inl ⟨hgap, rfl⟩
  refine .inr ?_
  split
  · exact .inr (proper_word _)
  split
  · exact .inr (proper_number r rs)
  split
  · exact .inl ⟨rfl, rfl⟩
  · exact .inr ⟨nofun, nofun⟩
  · exact .inr (proper_character _ _ _ rs)
  · exact .inr (proper_character _ _ _ rs)
  · exact .inr (proper_string _ rs)
  · exact .inr (proper_mark _ rs)
  · exact .inr (proper_error _)

theorem notEnd_cut (r : Symbol) (rs : List Symbol) : (cut r rs).content.NotEnd := by
  rcases cut_cases r rs with ⟨_, hcut⟩ | ⟨_, hcut⟩ | hproper
  · rw [hcut]
    exact nofun
  · rw [hcut]
    exact nofun
  · exact hproper.2

theorem notEnd_of_mem_allFrom : ∀ (rs : List Symbol) (k : Nat) {s : Segment},
    s ∈ allFrom k rs → s.content.NotEnd
  | [], k, s, hs => by cases k <;> cases hs
  | _ :: rs, k + 1, _, hs => notEnd_of_mem_allFrom rs k hs
  | r :: rs, 0, s, hs => by
    rcases List.mem_cons.mp hs with rfl | hs
    · exact notEnd_cut r rs
    · exact notEnd_of_mem_allFrom rs _ hs

end Segment

namespace Scan

theorem mem_of_mem_place : ∀ {p : Position} {ss : List Segment} {ps : Position × Segment},
    ps ∈ (place p ss).1 → ps.2 ∈ ss
  | _, [], _, hps => by cases hps
  | _, s :: _, _, hps => by
    rcases List.mem_cons.mp hps with rfl | hps
    · exact List.mem_cons_self
    · exact List.mem_cons_of_mem _ (mem_of_mem_place hps)

/-- A token that is cut from a text does not end it. -/
theorem ne_eof_of_mem_place {p : Position} {rs : List Symbol} {ps : Position × Segment} {u : Token}
    (hps : ps ∈ (place p (Segment.all rs)).1) (hu : token? ps.1 ps.2 = some u) :
    u.kind ≠ .eof := by
  have hnot := Segment.notEnd_of_mem_allFrom _ 0 (mem_of_mem_place hps)
  unfold token? at hu
  split at hu
  · rename_i k literal hk
    cases hu
    exact fun heof => hnot literal (hk.trans (congrArg (Content.token · literal) heof))
  · cases hu

/-- **The tokens of a text end with its end, and no other is one.** -/
theorem tokens_eq (t : Text) : ∃ ts last, (ofText t).tokens = ts ++ [.endAt last] ∧
    ∀ u ∈ ts, u.kind ≠ .eof := by
  refine ⟨_, _, rfl, fun u hu => ?_⟩
  obtain ⟨ps, hps, hu⟩ := List.mem_filterMap.mp hu
  exact ne_eof_of_mem_place hps hu

end Scan

/-! ## 6. Whole lines -/

/-- The text is empty or ends with a line feed. -/
def Text.IsLines (t : Text) : Prop :=
  t = [] ∨ ∃ a, t = a ++ [10]

/-- What comes behind the first line feed of whole lines are whole lines. -/
theorem Text.IsLines.behind {a t : Text} (ht : Text.IsLines (a ++ 10 :: t)) : Text.IsLines t := by
  rcases ht with hnil | ⟨b, hb⟩
  · exact absurd hnil (List.append_ne_nil_of_right_ne_nil a (List.cons_ne_nil _ _))
  · rcases List.eq_nil_or_concat t with rfl | ⟨t', x, ht⟩
    · exact .inl rfl
    · rw [List.concat_eq_append] at ht
      subst ht
      have hsame : (a ++ 10 :: t') ++ [x] = b ++ [10] := by
        rw [← hb, List.append_assoc]
        rfl
      have hx : [x] = [10] := List.append_inj_right' hsame rfl
      exact .inr ⟨t', by rw [hx]⟩

/-- Whole lines are none, or a first line and whole lines behind it. -/
theorem Text.IsLines.cases {t : Text} (ht : t.IsLines) :
    t = [] ∨ ∃ a rest, t = a ++ 10 :: rest ∧ 10 ∉ a ∧ Text.IsLines rest := by
  rcases ht with rfl | ⟨b, rfl⟩
  · exact .inl rfl
  · have hmem : (10 : UInt8) ∈ b ++ [10] := List.mem_append_right _ List.mem_cons_self
    obtain ⟨a, rest, hsplit, ha⟩ := List.eq_append_cons_of_mem hmem
    have hlines : Text.IsLines (a ++ 10 :: rest) := .inr ⟨b, hsplit.symm⟩
    exact .inr ⟨a, rest, hsplit, ha, hlines.behind⟩

end FencedCode
