import FencedCode.Proofs.Token.Partition
import Mathlib.Algebra.Group.Nat.Defs

/-!
# Quoted texts are read back

What stands between quote marks says which text it was written for. No byte of it ends a line, and
the closing mark is the first double quote with no backslash in front of it, so that anything may
come behind.

* `Text.hexadecimal_hex` -- hexadecimal digits denote the number that they were written for;
* `Text.lineFeed_not_mem_quoted`, `Text.lineFeed_not_mem_quotedChar` -- what is quoted stands on one
  line;
* `Text.unescape_escapeSymbol` -- a symbol is read from what stands for it;
* `Text.unquote_quoted` -- **a text is read from its quoted form**, whatever comes behind.
-/

namespace FencedCode

/-! ## 1. Bytes of characters -/

namespace Symbol

theorem utf8EncodeChar_eq_cons (c : Char) : ∃ b bs, String.utf8EncodeChar c = b :: bs :=
  List.exists_cons_of_length_pos (String.length_utf8EncodeChar c ▸ c.utf8Size_pos)

/-- A character of one byte is known by its first byte. -/
theorem eq_of_utf8EncodeChar {c d : Char} {b : UInt8} {bs : Text}
    (hd : String.utf8EncodeChar d = [b]) (hc : String.utf8EncodeChar c = b :: bs) : c = d := by
  have hleading : leading? (b :: bs) = some c :=
    leading?_eq_some_iff.mpr (hc ▸ List.prefix_refl _)
  have hfirst : leading? (b :: bs) = some d :=
    leading?_eq_some_iff.mpr (hd ▸ List.prefix_append [b] bs)
  exact Option.some.inj (hleading.symm.trans hfirst)

/-- Of all characters only the line feed has its byte. -/
theorem lineFeed_not_mem_utf8EncodeChar {c : Char} (hc : c ≠ '\n') :
    10 ∉ String.utf8EncodeChar c := by
  have hencode : encode [.scalar c] = String.utf8EncodeChar c := List.append_nil _
  have hdecode : decode (encode [.scalar c]) = [.scalar c] := by
    rw [encode, List.flatMap_cons]
    exact decode_scalar c []
  intro h
  have hmem := lineFeed_mem_of_mem_encode hdecode (hencode ▸ h)
  exact hc (Symbol.scalar.inj (List.mem_singleton.mp hmem)).symm

theorem utf8EncodeChar_ascii {n : Nat} (hn : n < 128) :
    String.utf8EncodeChar (Char.ofNat n) = [UInt8.ofNat n] := by
  have hall : ∀ m : Fin 128, String.utf8EncodeChar (Char.ofNat m) = [UInt8.ofNat m] := by decide
  exact hall ⟨n, hn⟩

/-- A byte that belongs to no character is none of the ASCII range. -/
theorem le_of_leading?_eq_none {b : UInt8} {t : Text} (h : leading? (b :: t) = none) :
    128 ≤ b.toNat := by
  by_contra hlow
  have hchar : String.utf8EncodeChar (Char.ofNat b.toNat) = [b] := by
    rw [utf8EncodeChar_ascii (Nat.lt_of_not_le hlow), UInt8.ofNat_toNat]
  have hsome : leading? (b :: t) = some (Char.ofNat b.toNat) :=
    leading?_eq_some_iff.mpr (hchar ▸ List.prefix_append [b] t)
  rw [h] at hsome
  cases hsome

end Symbol

namespace Text

/-! ## 2. Hexadecimal numerals -/

/-- The number that a hexadecimal digit denotes. -/
def hexValue (b : UInt8) : Nat :=
  if b < 97 then b.toNat - 48 else b.toNat - 87

/-- The number that hexadecimal digits denote. -/
def hexadecimal (t : Text) : Nat :=
  t.foldl (fun n b => 16 * n + hexValue b) 0

theorem hexDigit_spec (d : Nat) : hexValue (hexDigit d) = d % 16 ∧ hexDigit d ≠ 10 := by
  have hall : ∀ r : Fin 16, hexValue (hexDigit r) = r.val ∧ hexDigit r ≠ 10 := by decide
  have hmod : hexDigit (d % 16) = hexDigit d := by
    unfold hexDigit
    rw [Nat.mod_mod]
  have h := hall ⟨d % 16, Nat.mod_lt _ (by decide)⟩
  rwa [hmod] at h

theorem length_hex : ∀ width n, (hex width n).length = width
  | 0, _ => rfl
  | width + 1, n => by rw [hex, List.length_append, length_hex width, List.length_singleton]

/-- **Hexadecimal digits denote the number**, as far as its low digits go. -/
theorem hexadecimal_hex : ∀ width n, hexadecimal (hex width n) = n % 16 ^ width
  | 0, n => by rw [Nat.pow_zero, Nat.mod_one]; rfl
  | width + 1, n => by
    have hstep : hexadecimal (hex width (n / 16) ++ [hexDigit n]) =
        16 * hexadecimal (hex width (n / 16)) + hexValue (hexDigit n) :=
      List.foldl_concat ..
    rw [hex, hstep, hexadecimal_hex width, (hexDigit_spec n).1, Nat.pow_succ', Nat.mod_mul,
      Nat.add_comm]

theorem lineFeed_not_mem_hex : ∀ width n, 10 ∉ hex width n
  | 0, _ => nofun
  | width + 1, n => by
    intro h
    rcases List.mem_append.mp h with h | h
    · exact lineFeed_not_mem_hex width _ h
    · exact (hexDigit_spec n).2 (List.mem_singleton.mp h).symm

/-! ## 3. On one line -/

theorem shortEscape?_ne {code : Nat} {letter : UInt8} (h : shortEscape? code = some letter) :
    letter ≠ 10 := by
  unfold shortEscape? at h
  split at h <;> cases h <;> decide

/-- What stands for a character inside quotes ends no line. -/
theorem lineFeed_not_mem_escapeChar {mark : UInt8} (hmark : mark ≠ 10) (c : Char) :
    10 ∉ escapeChar mark c := by
  have hescape {b : UInt8} {t : Text} (hb : b ≠ 10) (ht : 10 ∉ t) : 10 ∉ 92 :: b :: t := by
    simp only [List.mem_cons, not_or]
    exact ⟨by decide, hb.symm, ht⟩
  unfold escapeChar
  dsimp only
  split
  · rename_i hcode
    have hc : c ≠ '\n' := by
      rintro rfl
      rcases hcode with hcode | hcode
      · exact hmark (UInt8.toNat_inj.mp hcode.symm)
      · exact absurd hcode (by decide)
    simp only [List.mem_cons, not_or]
    exact ⟨by decide, Symbol.lineFeed_not_mem_utf8EncodeChar hc⟩
  split
  · rename_i hprintable
    refine Symbol.lineFeed_not_mem_utf8EncodeChar ?_
    rintro rfl
    exact absurd hprintable (by decide)
  split
  · rename_i letter hletter
    exact hescape (shortEscape?_ne hletter) List.not_mem_nil
  split
  · exact hescape (by decide) (lineFeed_not_mem_hex _ _)
  split
  · exact hescape (by decide) (lineFeed_not_mem_hex _ _)
  · exact hescape (by decide) (lineFeed_not_mem_hex _ _)

/-- **A quoted text stands on one line.** -/
theorem lineFeed_not_mem_quoted (t : Text) : 10 ∉ quoted t := by
  unfold quoted
  simp only [List.cons_append, List.mem_cons, List.mem_append, List.not_mem_nil, or_false,
    List.mem_flatMap, not_or]
  refine ⟨by decide, ?_, by decide⟩
  rintro ⟨r, -, hr⟩
  cases r with
  | scalar c => exact lineFeed_not_mem_escapeChar (by decide) c hr
  | stray b =>
    simp only [escapeSymbol, List.mem_cons] at hr
    rcases hr with hr | hr | hr
    · exact absurd hr (by decide)
    · exact absurd hr (by decide)
    · exact lineFeed_not_mem_hex _ _ hr

/-- **A quoted character stands on one line.** -/
theorem lineFeed_not_mem_quotedChar (c : Char) : 10 ∉ quotedChar c := by
  unfold quotedChar
  simp only [List.cons_append, List.mem_cons, List.mem_append, List.not_mem_nil, or_false, not_or]
  exact ⟨by decide, lineFeed_not_mem_escapeChar (by decide) c, by decide⟩

/-! ## 4. Reading symbols -/

/-- The character that a letter behind a backslash stands for. -/
def ofShortEscape (letter : UInt8) : Char :=
  match letter with
  | 97 => '\x07'
  | 98 => '\x08'
  | 116 => '\t'
  | 110 => '\n'
  | 118 => '\x0b'
  | 102 => '\x0c'
  | 114 => '\r'
  | _ => Char.ofNat letter.toNat

/-- The symbol of a hexadecimal escape: one of two digits is a byte, which is a character by itself
    only if it is ASCII. -/
def ofHexEscape (width n : Nat) : Symbol :=
  if width = 2 ∧ 128 ≤ n then .stray (UInt8.ofNat n) else .scalar (Char.ofNat n)

/-- The first symbol that is written inside quotes, and the text behind it. -/
def unescape (t : Text) : Option (Symbol × Text) :=
  let digits (width : Nat) (t : Text) : Option (Symbol × Text) :=
    some (ofHexEscape width (hexadecimal (t.take width)), t.drop width)
  match t with
  | 92 :: letter :: t =>
    if letter = 120 then digits 2 t
    else if letter = 117 then digits 4 t
    else if letter = 85 then digits 8 t
    else some (.scalar (ofShortEscape letter), t)
  | t => (Symbol.leading? t).map fun c => (.scalar c, t.drop (String.utf8EncodeChar c).length)

theorem length_of_unescape {t rest : Text} {r : Symbol} (h : unescape t = some (r, rest)) :
    rest.length < t.length := by
  unfold unescape at h
  dsimp only at h
  split at h
  · rename_i letter t
    have hrest : rest.length ≤ t.length := by
      split at h
      · obtain ⟨-, rfl⟩ := Prod.mk.inj (Option.some.inj h)
        exact (List.drop_sublist ..).length_le
      split at h
      · obtain ⟨-, rfl⟩ := Prod.mk.inj (Option.some.inj h)
        exact (List.drop_sublist ..).length_le
      split at h
      · obtain ⟨-, rfl⟩ := Prod.mk.inj (Option.some.inj h)
        exact (List.drop_sublist ..).length_le
      · obtain ⟨-, rfl⟩ := Prod.mk.inj (Option.some.inj h)
        exact Nat.le_refl _
    rw [List.length_cons, List.length_cons]
    omega
  · obtain ⟨c, hc, heq⟩ := Option.map_eq_some_iff.mp h
    obtain ⟨-, rfl⟩ := Prod.mk.inj heq
    obtain ⟨u, rfl⟩ := Symbol.leading?_eq_some_iff.mp hc
    obtain ⟨b, bs, hbytes⟩ := Symbol.utf8EncodeChar_eq_cons c
    rw [List.drop_left, List.length_append, hbytes, List.length_cons]
    omega

theorem unescape_leading {c : Char} (hc : c ≠ '\\') (t : Text) :
    unescape (String.utf8EncodeChar c ++ t) = some (.scalar c, t) := by
  have hleading : Symbol.leading? (String.utf8EncodeChar c ++ t) = some c :=
    Symbol.leading?_eq_some_iff.mpr (List.prefix_append _ _)
  unfold unescape
  dsimp only
  split
  · rename_i letter u h
    obtain ⟨b, bs, hbytes⟩ := Symbol.utf8EncodeChar_eq_cons c
    rw [hbytes] at h
    obtain ⟨rfl, -⟩ := List.cons.inj h
    exact absurd (Symbol.eq_of_utf8EncodeChar (d := '\\') (by decide) hbytes) hc
  · rw [hleading, Option.map_some, List.drop_left]

theorem unescape_hex (width n : Nat) (t : Text) :
    some (ofHexEscape width (hexadecimal ((hex width n ++ t).take width)),
      (hex width n ++ t).drop width) = some (ofHexEscape width (n % 16 ^ width), t) := by
  rw [List.take_left' (length_hex width n), List.drop_left' (length_hex width n), hexadecimal_hex]

theorem ofShortEscape_spec {code : Nat} {letter : UInt8} (h : shortEscape? code = some letter) :
    letter ∉ [120, 117, 85] ∧ ofShortEscape letter = Char.ofNat code := by
  unfold shortEscape? at h
  split at h <;> cases h <;> decide

/-- **A character is read from what stands for it.** -/
theorem unescape_escapeChar (c : Char) (t : Text) :
    unescape (escapeChar 34 c ++ t) = some (.scalar c, t) := by
  have hquote : UInt8.toNat 34 = 34 := rfl
  unfold escapeChar
  simp only [hquote]
  by_cases hmark : c.toNat = 34 ∨ c.toNat = 92
  · rw [if_pos hmark]
    rcases hmark with hcode | hcode
    · obtain rfl : c = '"' := Char.toNat_inj.mp hcode
      rfl
    · obtain rfl : c = '\\' := Char.toNat_inj.mp hcode
      rfl
  rw [if_neg hmark]
  by_cases hprintable : isPrintable c.toNat = true
  · rw [if_pos hprintable]
    refine unescape_leading ?_ t
    rintro rfl
    exact hmark (.inr rfl)
  rw [if_neg hprintable]
  cases hshort : shortEscape? c.toNat with
  | some letter =>
    obtain ⟨hletter, hchar⟩ := ofShortEscape_spec hshort
    simp only [List.mem_cons, List.not_mem_nil, or_false, not_or] at hletter
    show (if letter = 120 then _ else if letter = 117 then _ else if letter = 85 then _ else _) = _
    rw [if_neg hletter.1, if_neg hletter.2.1, if_neg hletter.2.2, hchar, Char.ofNat_toNat]
    rfl
  | none =>
    dsimp only
    by_cases hbyte : c.toNat < 0x20 ∨ c.toNat = 0x7F
    · rw [if_pos hbyte]
      refine (unescape_hex 2 c.toNat t).trans ?_
      have hlow : c.toNat % 16 ^ 2 = c.toNat := Nat.mod_eq_of_lt (by omega)
      rw [hlow, ofHexEscape, if_neg (by omega), Char.ofNat_toNat]
    rw [if_neg hbyte]
    by_cases hlow : c.toNat < 0x10000
    · rw [if_pos hlow]
      refine (unescape_hex 4 c.toNat t).trans ?_
      have hdigits : c.toNat % 16 ^ 4 = c.toNat := Nat.mod_eq_of_lt hlow
      rw [hdigits, ofHexEscape, if_neg (by omega), Char.ofNat_toNat]
    · rw [if_neg hlow]
      have hvalid : c.toNat < 16 ^ 8 := by
        rcases c.valid with h | ⟨-, h⟩
        · exact Nat.lt_trans h (by decide)
        · exact Nat.lt_trans h (by decide)
      refine (unescape_hex 8 c.toNat t).trans ?_
      rw [Nat.mod_eq_of_lt hvalid, ofHexEscape, if_neg (by omega), Char.ofNat_toNat]

/-- **A stray byte is read from its escape**, unless it is a character by itself. -/
theorem unescape_stray {b : UInt8} (hb : 128 ≤ b.toNat) (t : Text) :
    unescape (escapeSymbol (.stray b) ++ t) = some (.stray b, t) := by
  refine (unescape_hex 2 b.toNat t).trans ?_
  have hlow : b.toNat % 16 ^ 2 = b.toNat := Nat.mod_eq_of_lt b.toNat_lt
  rw [hlow, ofHexEscape, if_pos ⟨rfl, hb⟩, UInt8.ofNat_toNat]

/-! ## 5. Reading texts -/

/-- The symbols that are written before the next double quote, and the text behind the quote. -/
def unquoteSymbols (t : Text) : Option (List Symbol × Text) :=
  match t with
  | 34 :: rest => some ([], rest)
  | t =>
    match _h : unescape t with
    | some (r, rest) => (unquoteSymbols rest).map fun read => (r :: read.1, read.2)
    | none => none
termination_by t.length
decreasing_by exact length_of_unescape _h

/-- The text that is written in double quotes, and the text behind it. -/
def unquote : Text → Option (Text × Text)
  | 34 :: rest => (unquoteSymbols rest).map fun read => (Symbol.encode read.1, read.2)
  | _ => none

/-- What stands for a character starts with a backslash, or it is the character itself, which is not
    the mark then. -/
theorem escapeChar_cases (mark : UInt8) (c : Char) : (∃ u, escapeChar mark c = 92 :: u) ∨
    (escapeChar mark c = String.utf8EncodeChar c ∧ c.toNat ≠ mark.toNat) := by
  unfold escapeChar
  dsimp only
  split
  · exact .inl ⟨_, rfl⟩
  rename_i hmark
  split
  · exact .inr ⟨rfl, fun h => hmark (.inl h)⟩
  split
  · exact .inl ⟨_, rfl⟩
  split
  · exact .inl ⟨_, rfl⟩
  split
  · exact .inl ⟨_, rfl⟩
  · exact .inl ⟨_, rfl⟩

/-- Nothing that stands for a symbol starts with the closing mark. -/
theorem head?_escapeSymbol (r : Symbol) (t : Text) : (escapeSymbol r ++ t).head? ≠ some 34 := by
  have hback (u : Text) : (92 :: u).head? ≠ some 34 :=
    fun h => absurd (Option.some.inj h) (by decide)
  cases r with
  | stray b => exact hback _
  | scalar c =>
    show (escapeChar 34 c ++ t).head? ≠ some 34
    rcases escapeChar_cases 34 c with ⟨u, hu⟩ | ⟨hself, hmark⟩
    · rw [hu]
      exact hback _
    · obtain ⟨b, bs, hbytes⟩ := Symbol.utf8EncodeChar_eq_cons c
      rw [hself, hbytes]
      intro h
      obtain rfl : b = 34 := Option.some.inj h
      obtain rfl := Symbol.eq_of_utf8EncodeChar (d := '"') (by decide) hbytes
      exact hmark rfl

theorem unquoteSymbols_step {t rest : Text} {r : Symbol} (ht : t.head? ≠ some 34)
    (h : unescape t = some (r, rest)) :
    unquoteSymbols t = (unquoteSymbols rest).map fun read => (r :: read.1, read.2) := by
  rw [unquoteSymbols.eq_def]
  split
  · exact absurd rfl ht
  · split
    · rename_i heq
      rw [h] at heq
      cases heq
      rfl
    · rename_i heq
      rw [h] at heq
      cases heq

/-- The symbols of a text are read from what stands for them. -/
theorem unquoteSymbols_decode : ∀ (rs : List Symbol) {t : Text}, Symbol.decode t = rs →
    ∀ x : Text, unquoteSymbols (rs.flatMap escapeSymbol ++ 34 :: x) = some (rs, x)
  | [], _, _, x => by rw [unquoteSymbols.eq_def]; rfl
  | r :: rs, t, h, x => by
    obtain ⟨u, rfl, hu, hstray⟩ := Symbol.decode_eq_cons h
    have hread (rest : Text) : unescape (escapeSymbol r ++ rest) = some (r, rest) := by
      cases r with
      | scalar c => exact unescape_escapeChar c rest
      | stray b => exact unescape_stray (Symbol.le_of_leading?_eq_none (hstray b rfl)) rest
    rw [List.flatMap_cons, List.append_assoc,
      unquoteSymbols_step (head?_escapeSymbol r _) (hread _), unquoteSymbols_decode rs hu x]
    rfl

/-- **A text is read from its quoted form**, whatever comes behind. -/
theorem unquote_quoted (t x : Text) : unquote (quoted t ++ x) = some (t, x) := by
  have hread := unquoteSymbols_decode (Symbol.decode t) rfl x
  unfold quoted
  rw [List.append_assoc, List.cons_append]
  show (unquoteSymbols _).map _ = _
  rw [List.singleton_append, hread, Option.map_some, Symbol.encode_decode]

end Text

end FencedCode
