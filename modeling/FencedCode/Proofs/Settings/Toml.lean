import FencedCode.Proofs.Settings.Library
import FencedCode.Proofs.Text.Quoted
import FencedCode.Settings.Toml
import Mathlib.Algebra.Group.Nat.Defs

/-!
# Settings as documents, read again

Settings are written one field to a line, texts in quotes. Read line by line, each field says again
what it was. A control character without an escape that documents know is the one thing that does
not come back from Go-like quotes; from quotes that write it by its number all texts do.

* `Settings.Document.tells_quotedBy` -- a text is read from its quoted form, if each character is;
* `Settings.Document.entries_line` -- a document is read line by line;
* `Settings.load_lines` -- **a document is read to what its lines say**, whatever their order;
* `Settings.Library.toml_lawful` -- documents are as lawful as the quotes in them;
* `Settings.Library.quoted_lawful`, `Settings.Library.numbered_lawful` -- the two kinds of quotes.
-/

namespace FencedCode

/-! ## 1. Texts of characters -/

namespace Text

/-- A hexadecimal digit. -/
def hexChar (d : Nat) : Char :=
  if d % 16 < 10 then Char.ofNat (48 + d % 16) else Char.ofNat (87 + d % 16)

/-- The digits of a hexadecimal numeral. -/
def hexChars : Nat → Nat → List Char
  | 0, _ => []
  | width + 1, n => hexChars width (n / 16) ++ [hexChar n]

/-- A digit is one byte and has its value. -/
theorem hexChar_spec (d : Nat) : String.utf8EncodeChar (hexChar d) = [hexDigit d] ∧
    Settings.Document.hexValue? (.scalar (hexChar d)) = some (d % 16) := by
  have hall : ∀ r : Fin 16, String.utf8EncodeChar (hexChar r) = [hexDigit r] ∧
      Settings.Document.hexValue? (.scalar (hexChar r)) = some r.val := by
    decide
  have hchar : hexChar (d % 16) = hexChar d := by
    unfold hexChar
    rw [Nat.mod_mod]
  have hdigit : hexDigit (d % 16) = hexDigit d := by
    unfold hexDigit
    rw [Nat.mod_mod]
  have h := hall ⟨d % 16, Nat.mod_lt _ (by decide)⟩
  rwa [hchar, hdigit] at h

theorem hex_eq : ∀ width n, hex width n = ofChars (hexChars width n)
  | 0, _ => rfl
  | width + 1, n => by
    have hdigit : ofChars [hexChar n] = [hexDigit n] := by
      rw [ofChars_cons, (hexChar_spec n).1]
      rfl
    rw [hex, hexChars, ofChars_append, ← hex_eq width, hdigit]

/-- The characters of a character inside double quotes. -/
def spelling (c : Char) : List Char :=
  let code := c.toNat
  if code = 34 ∨ code = 92 then ['\\', c]
  else if isPrintable code then [c]
  else match shortEscape? code with
    | some letter => ['\\', Char.ofNat letter.toNat]
    | none =>
      if code < 0x20 ∨ code = 0x7F then '\\' :: 'x' :: hexChars 2 code
      else if code < 0x10000 then '\\' :: 'u' :: hexChars 4 code
      else '\\' :: 'U' :: hexChars 8 code

theorem escapeChar_eq (c : Char) : escapeChar 34 c = ofChars (spelling c) := by
  have hback : String.utf8EncodeChar '\\' = [92] := by decide
  have hletter {code : Nat} {letter : UInt8} (h : shortEscape? code = some letter) :
      String.utf8EncodeChar (Char.ofNat letter.toNat) = [letter] := by
    unfold shortEscape? at h
    split at h <;> cases h <;> decide
  have hescape (mark : Char) (b : UInt8) (hmark : String.utf8EncodeChar mark = [b])
      (width n : Nat) :
      92 :: b :: hex width n = ofChars ('\\' :: mark :: hexChars width n) := by
    rw [ofChars_cons, ofChars_cons, hex_eq, hback, hmark]
    rfl
  have hquote : UInt8.toNat 34 = 34 := rfl
  unfold escapeChar spelling
  simp only [hquote]
  by_cases hmark : c.toNat = 34 ∨ c.toNat = 92
  · rw [if_pos hmark, if_pos hmark, ofChars_cons, ofChars_cons, hback]
    exact congrArg (92 :: ·) (List.append_nil _).symm
  rw [if_neg hmark, if_neg hmark]
  by_cases hprintable : isPrintable c.toNat = true
  · rw [if_pos hprintable, if_pos hprintable, ofChars_cons]
    exact (List.append_nil _).symm
  rw [if_neg hprintable, if_neg hprintable]
  cases hshort : shortEscape? c.toNat with
  | some letter =>
    dsimp only
    rw [ofChars_cons, ofChars_cons, hback, hletter hshort]
    rfl
  | none =>
    dsimp only
    by_cases hbyte : c.toNat < 0x20 ∨ c.toNat = 0x7F
    · rw [if_pos hbyte, if_pos hbyte]
      exact hescape 'x' 120 (by decide) 2 _
    rw [if_neg hbyte, if_neg hbyte]
    by_cases hlow : c.toNat < 0x10000
    · rw [if_pos hlow, if_pos hlow]
      exact hescape 'u' 117 (by decide) 4 _
    · rw [if_neg hlow, if_neg hlow]
      exact hescape 'U' 85 (by decide) 8 _

/-- A text of characters. -/
def IsUtf8 (t : Text) : Prop :=
  ∃ cs, t = ofChars cs

/-- The characters of a text in quotes, `spell` writing one of them. -/
def quotedBy (spell : Char → List Char) (cs : List Char) : List Char :=
  '"' :: (cs.flatMap spell ++ ['"'])

theorem quoted_ofChars (cs : List Char) : quoted (ofChars cs) = ofChars (quotedBy spelling cs) := by
  have hinner : (cs.map Symbol.scalar).flatMap escapeSymbol = ofChars (cs.flatMap spelling) := by
    rw [List.flatMap_map]
    induction cs with
    | nil => rfl
    | cons c cs ih =>
      rw [List.flatMap_cons, List.flatMap_cons, ofChars_append, ih]
      exact congrArg (· ++ _) (escapeChar_eq c)
  unfold quoted quotedBy
  rw [decode_ofChars, hinner, ofChars_cons, ofChars_append]
  rfl

theorem lineFeed_not_mem_ofChars {cs : List Char} (h : '\n' ∉ cs) : 10 ∉ ofChars cs := by
  intro hmem
  obtain ⟨c, hc, hbyte⟩ := List.mem_flatMap.mp hmem
  exact Symbol.lineFeed_not_mem_utf8EncodeChar (fun heq => h (heq ▸ hc)) hbyte

theorem lineFeed_not_mem_spelling (c : Char) : '\n' ∉ spelling c := by
  intro h
  have hmem : '\n' ∈ quotedBy spelling [c] :=
    List.mem_cons_of_mem _ (List.mem_append_left _ (List.mem_flatMap_of_mem List.mem_cons_self h))
  refine lineFeed_not_mem_quoted (ofChars [c]) ?_
  rw [quoted_ofChars]
  exact List.mem_flatMap.mpr ⟨_, hmem, by decide⟩

theorem lineFeed_not_mem_hexChars : ∀ width n, '\n' ∉ hexChars width n
  | 0, _ => List.not_mem_nil
  | width + 1, n => by
    intro h
    rcases List.mem_append.mp h with h | h
    · exact lineFeed_not_mem_hexChars width _ h
    · have hdigit := (hexChar_spec n).2
      rw [← List.mem_singleton.mp h] at hdigit
      cases hdigit

end Text

namespace Settings

/-! ## 2. Lines -/

namespace Document

theorem isKey_ne {c d : Char} (hc : isKey (.scalar c) = true)
    (hd : isKey (.scalar d) = false) : c ≠ d := by
  rintro rfl
  rw [hc] at hd
  cases hd

/-- A text that says a value, up to the end of a line. -/
structure Tells (w : Text) (v : Settings.Value) : Prop where
  value : value (Symbol.decode w) = some (.plain v, [])
  inLine : 10 ∉ w
  start : ∃ r rs, Symbol.decode w = r :: rs ∧ isGap r = false
  finish : (Symbol.decode w).getLast? ≠ some (.scalar '\r')

/-- A bare key, up to a space. -/
theorem key_bare {c : Char} {cs : List Char} {after : List Symbol}
    (hkey : ∀ d ∈ c :: cs, isKey (.scalar d) = true) :
    key (.scalar c :: (cs.map Symbol.scalar ++ .scalar ' ' :: after)) =
      some (Text.ofChars (c :: cs), .scalar ' ' :: after) := by
  have hne : c ≠ '"' := isKey_ne (hkey c List.mem_cons_self) rfl
  have hbare : (Symbol.scalar c :: (cs.map Symbol.scalar ++ .scalar ' ' :: after)).takeWhile isKey =
      (c :: cs).map Symbol.scalar := by
    rw [← List.cons_append, ← List.map_cons, List.takeWhile_append_of_pos (by
      simpa only [List.mem_map, forall_exists_index, and_imp, forall_apply_eq_imp_iff₂] using hkey),
      List.takeWhile_cons_of_neg (by decide), List.append_nil]
  have hencode : Symbol.encode ((c :: cs).map Symbol.scalar) = Text.ofChars (c :: cs) := by
    unfold Symbol.encode Text.ofChars
    rw [List.flatMap_map]
    rfl
  unfold key
  split
  · rename_i heq
    exact absurd (Symbol.scalar.inj (List.cons.inj heq).1) hne
  · dsimp only
    rw [hbare, hencode, ← List.cons_append, ← List.map_cons, List.drop_left]
    rfl

/-- A line with a key, an equals sign and a value. -/
theorem line_pair {c : Char} {cs : List Char} (hkey : ∀ d ∈ c :: cs, isKey (.scalar d) = true)
    {w : Text} {v : Settings.Value} (hw : Tells w v) :
    line (Symbol.decode (Text.ofChars (c :: cs) ++ utf8 " = " ++ w)) =
      some (some (.pair (Text.ofChars (c :: cs)) (.plain v))) := by
  obtain ⟨r, rs, hdecode, hgap⟩ := hw.start
  have hne {d : Char} (hd : isKey (.scalar d) = false) : c ≠ d :=
    isKey_ne (hkey c List.mem_cons_self) hd
  have hequals : utf8 " = " = Text.ofChars [' ', '=', ' '] := rfl
  have hsymbols : Symbol.decode (Text.ofChars (c :: cs) ++ utf8 " = " ++ w) =
      .scalar c :: (cs.map Symbol.scalar ++
        .scalar ' ' :: .scalar '=' :: .scalar ' ' :: r :: rs) := by
    rw [List.append_assoc, Text.decode_ofChars_append, hequals, Text.decode_ofChars_append, hdecode]
    rfl
  have hstart (after : List Symbol) : skipGaps (.scalar c :: after) = .scalar c :: after := by
    refine List.dropWhile_cons_of_neg ?_
    have hblank : c ≠ ' ' := hne rfl
    have htab : c ≠ '\t' := hne rfl
    simp [isGap, hblank, htab]
  have hover (after : List Symbol) : isOver (.scalar c :: after) = false := by
    have hhash : c ≠ '#' := hne rfl
    unfold isOver
    rw [hstart]
    simp [hhash]
  have hvalue : value (r :: rs) = some (.plain v, []) := hdecode ▸ hw.value
  have hskip : skipGaps (.scalar ' ' :: r :: rs) = r :: rs := by
    unfold skipGaps
    rw [List.dropWhile_cons_of_pos (by rfl), List.dropWhile_cons_of_neg (by rw [hgap]; decide)]
  rw [hsymbols]
  unfold line
  simp only [hstart, hover, Bool.false_eq_true, if_false]
  split
  · rename_i heq
    exact absurd (Symbol.scalar.inj (List.cons.inj heq).1) (hne rfl)
  · rw [key_bare hkey]
    show ((value (skipGaps (.scalar ' ' :: r :: rs))).bind fun p =>
      if isOver p.2 then some (some (Entry.Item.pair (Text.ofChars (c :: cs)) p.1)) else none) = _
    rw [hskip, hvalue]
    rfl

/-- **A document is read line by line.** -/
theorem entries_line {a t : Text} {n : Nat} (ha : 10 ∉ a)
    (hreturn : (Symbol.decode a).getLast? ≠ some (.scalar '\r')) :
    entries n (lines (Symbol.decode (a ++ 10 :: t))) = (do
      let item ← line (Symbol.decode a)
      let rest ← entries (n + 1) (lines (Symbol.decode t))
      some ((item.map fun i => ⟨n, i⟩).toList ++ rest)) := by
  have hfeed : ∀ r ∈ Symbol.decode a, (r == .scalar '\n') = false := by
    intro r hr
    refine beq_eq_false_iff_ne.mpr fun heq => ?_
    exact Symbol.not_mem_decode ha (heq ▸ hr)
  have hlines : lines (Symbol.decode (a ++ 10 :: t)) =
      Symbol.decode a :: lines (Symbol.decode t) := by
    unfold lines List.splitOn
    rw [Symbol.decode_line, List.splitOnP_append_cons_of_forall_mem hfeed _ (beq_self_eq_true _),
      List.map_cons, if_neg hreturn]
  rw [hlines]
  rfl

end Document

/-! ## 3. Values -/

namespace Document

/-- The character has an escape that documents know, or needs none. -/
def Writable (c : Char) : Prop :=
  32 ≤ c.toNat ∧ c.toNat ≠ 127 ∨ c ∈ ['\x08', '\t', '\n', '\x0c', '\r']

instance : DecidablePred Writable :=
  fun _ => inferInstanceAs (Decidable (_ ∨ _))

theorem foldlM_hexChars : ∀ width n,
    ((Text.hexChars width n).map Symbol.scalar).foldlM
      (fun m d => (hexValue? d).map fun v => 16 * m + v) 0 = some (n % 16 ^ width)
  | 0, n => by rw [Nat.pow_zero, Nat.mod_one]; rfl
  | width + 1, n => by
    have hvalue := (Text.hexChar_spec n).2
    rw [Text.hexChars, List.map_append, List.foldlM_append, foldlM_hexChars width]
    show (hexValue? (.scalar (Text.hexChar n))).map _ >>= pure = _
    rw [hvalue, Nat.pow_succ', Nat.mod_mul, Nat.add_comm]
    rfl

/-- The numeral of a character, if it is long enough, is read as the character. -/
theorem hexChar?_hexChars (width : Nat) {c : Char} (hc : c.toNat < 16 ^ width) :
    hexChar? ((Text.hexChars width c.toNat).map Symbol.scalar) = some c := by
  unfold hexChar?
  rw [foldlM_hexChars, Nat.mod_eq_of_lt hc]
  show (if c.toNat.isValidChar then some (Char.ofNat c.toNat) else none) = some c
  rw [if_pos (show c.toNat.isValidChar from c.valid), Char.ofNat_toNat]

/-- Eight digits are enough for every character. -/
theorem toNat_lt (c : Char) : c.toNat < 16 ^ 8 := by
  rcases c.valid with h | ⟨_, h⟩
  · exact Nat.lt_trans h (by decide)
  · exact Nat.lt_trans h (by decide)

theorem basicString_plain {c : Char} (hcode : 32 ≤ c.toNat) (hquote : c ≠ '"') (hback : c ≠ '\\')
    (acc rest : List Symbol) :
    basicString acc (.scalar c :: rest) =
      basicString (.scalar c :: acc) rest := by
  have hlow : ¬ (Symbol.scalar c).code < 32 := Nat.not_lt.mpr hcode
  rw [basicString.eq_def]
  split
  · rename_i heq
    exact absurd (Symbol.scalar.inj (List.cons.inj heq).1) hquote
  · rename_i heq
    exact absurd (Symbol.scalar.inj (List.cons.inj heq).1) hback
  · rename_i heq
    exact absurd (Symbol.scalar.inj (List.cons.inj heq).1) hback
  · rename_i heq
    exact absurd (Symbol.scalar.inj (List.cons.inj heq).1) hback
  · rename_i heq
    obtain ⟨rfl, rfl⟩ := List.cons.inj heq
    rw [if_neg hlow]
  · rename_i heq
    cases heq

/-- A character is read from what stands for it inside quotes. -/
theorem basicString_spelling {c : Char} (hc : Writable c) (acc rest : List Symbol) :
    basicString acc ((Text.spelling c).map Symbol.scalar ++ rest) =
      basicString (.scalar c :: acc) rest := by
  have heq {d : Char} (h : c.toNat = d.toNat) : c = d := Char.toNat_inj.mp h
  unfold Text.spelling
  dsimp only
  by_cases hmark : c.toNat = 34 ∨ c.toNat = 92
  · rw [if_pos hmark]
    rcases hmark with hquote | hback
    · obtain rfl : c = '"' := heq hquote
      rfl
    · obtain rfl : c = '\\' := heq hback
      rfl
  rw [if_neg hmark]
  obtain ⟨hquote, hback⟩ := not_or.mp hmark
  by_cases hprintable : Text.isPrintable c.toNat = true
  · rw [if_pos hprintable]
    have hcode : 32 ≤ c.toNat := by
      unfold Text.isPrintable at hprintable
      split at hprintable
      · exact of_decide_eq_true hprintable
      · omega
    exact basicString_plain hcode (fun h => hquote (h ▸ rfl)) (fun h => hback (h ▸ rfl)) acc rest
  rw [if_neg hprintable]
  rcases hc with ⟨hcode, hdelete⟩ | hshort
  · have hnone : Text.shortEscape? c.toNat = none := by
      unfold Text.shortEscape?
      split <;> first | rfl | omega
    have hbyte : ¬ (c.toNat < 0x20 ∨ c.toNat = 0x7F) := by omega
    rw [hnone]
    dsimp only
    rw [if_neg hbyte]
    by_cases hlow : c.toNat < 0x10000
    · rw [if_pos hlow]
      have hread := hexChar?_hexChars 4 (c := c) hlow
      show (hexChar? ((Text.hexChars 4 c.toNat).map Symbol.scalar) >>= _) = _
      rw [hread]
      rfl
    · rw [if_neg hlow]
      have hread := hexChar?_hexChars 8 (toNat_lt c)
      show (hexChar? ((Text.hexChars 8 c.toNat).map Symbol.scalar) >>= _) = _
      rw [hread]
      rfl
  · simp only [List.mem_cons, List.not_mem_nil, or_false] at hshort
    rcases hshort with rfl | rfl | rfl | rfl | rfl <;> rfl

/-- A character is read from its spelling inside quotes, and the line goes on. -/
structure ReadsBack (spell : Char → List Char) (c : Char) : Prop where
  read : ∀ acc rest, basicString acc ((spell c).map Symbol.scalar ++ rest) =
    basicString (.scalar c :: acc) rest
  inLine : '\n' ∉ spell c

theorem readsBack_spelling {c : Char} (hc : Writable c) : ReadsBack Text.spelling c :=
  ⟨basicString_spelling hc, Text.lineFeed_not_mem_spelling c⟩

/-- The spelling of a character, by its number if it has no escape that documents know. -/
def numberedSpelling (c : Char) : List Char :=
  if Writable c then Text.spelling c else '\\' :: 'U' :: Text.hexChars 8 c.toNat

theorem readsBack_numbered (c : Char) : ReadsBack numberedSpelling c := by
  by_cases hc : Writable c
  · have hspelling : numberedSpelling c = Text.spelling c := if_pos hc
    obtain ⟨hread, hline⟩ := readsBack_spelling hc
    rw [← hspelling] at hline
    exact ⟨fun acc rest => hspelling ▸ hread acc rest, hline⟩
  have hspelling : numberedSpelling c = '\\' :: 'U' :: Text.hexChars 8 c.toNat := if_neg hc
  refine ⟨fun acc rest => ?_, ?_⟩
  · have hread := hexChar?_hexChars 8 (toNat_lt c)
    rw [hspelling]
    show (hexChar? ((Text.hexChars 8 c.toNat).map Symbol.scalar) >>= _) = _
    rw [hread]
    rfl
  · rw [hspelling]
    simp only [List.mem_cons, not_or]
    exact ⟨by decide, by decide, Text.lineFeed_not_mem_hexChars 8 _⟩

theorem basicString_chars {spell : Char → List Char} : ∀ (cs : List Char) (acc rest : List Symbol),
    (∀ c ∈ cs, ReadsBack spell c) →
    basicString acc ((cs.flatMap spell).map Symbol.scalar ++ .scalar '"' :: rest) =
      some (Symbol.respell (acc.reverse ++ cs.map Symbol.scalar), rest)
  | [], acc, rest, _ => by
    rw [List.map_nil, List.append_nil]
    rfl
  | c :: cs, acc, rest, hcs => by
    rw [List.flatMap_cons, List.map_append, List.append_assoc,
      (hcs c List.mem_cons_self).read,
      basicString_chars cs _ rest fun d hd => hcs d (List.mem_cons_of_mem _ hd), List.reverse_cons,
      List.append_assoc]
    rfl

/-- **A text is read from its quoted form**, if each of its characters is. -/
theorem tells_quotedBy {spell : Char → List Char} {cs : List Char}
    (hcs : ∀ c ∈ cs, ReadsBack spell c) :
    Tells (Text.ofChars (Text.quotedBy spell cs)) (.string (Text.ofChars cs)) where
  value := by
    have hrespell : Symbol.respell (cs.map Symbol.scalar) = Text.ofChars cs := by
      unfold Symbol.respell Text.ofChars
      rw [List.flatMap_map]
      rfl
    rw [Text.decode_ofChars, Text.quotedBy, List.map_cons, List.map_append]
    show (basicString [] ((cs.flatMap spell).map Symbol.scalar ++ [.scalar '"'])).map
      (fun p => (Entry.Value.plain (.string p.1), p.2)) = _
    rw [basicString_chars cs [] [] hcs, List.reverse_nil, List.nil_append, hrespell]
    rfl
  inLine := by
    refine Text.lineFeed_not_mem_ofChars fun h => ?_
    unfold Text.quotedBy at h
    simp only [List.mem_cons, List.mem_append, List.mem_flatMap, List.not_mem_nil, or_false] at h
    rcases h with h | ⟨c, hc, h⟩ | h
    · exact absurd h (by decide)
    · exact (hcs c hc).inLine h
    · exact absurd h (by decide)
  start := by
    rw [Text.decode_ofChars]
    exact ⟨.scalar '"', _, rfl, rfl⟩
  finish := by
    rw [Text.decode_ofChars, Text.quotedBy, List.map_cons, List.map_append, List.map_singleton,
      ← List.cons_append, List.getLast?_concat]
    decide

theorem tells_boolean (b : Bool) :
    Tells (utf8 (if b then "true" else "false")) (.boolean b) := by
  cases b
  · exact ⟨rfl, by decide, ⟨.scalar 'f', _, rfl, rfl⟩, by decide⟩
  · exact ⟨rfl, by decide, ⟨.scalar 't', _, rfl, rfl⟩, by decide⟩

/-- The value that a text says, up to the end of a line. -/
def told? (w : Text) : Option Settings.Value :=
  match value (Symbol.decode w) with
  | some (.plain v, []) =>
    if 10 ∈ w ∨ (Symbol.decode w).head?.any isGap = true ∨
      (Symbol.decode w).getLast? = some (.scalar '\r') then none else some v
  | _ => none

theorem told?_eq_some_iff {w : Text} {v : Settings.Value} : told? w = some v ↔ Tells w v := by
  unfold told?
  constructor
  · intro h
    split at h
    case h_2 => cases h
    case h_1 u hvalue =>
    split at h
    case isTrue => cases h
    case isFalse hshape =>
    obtain rfl := Option.some.inj h
    simp only [not_or] at hshape
    obtain ⟨hline, hstart, hfinish⟩ := hshape
    refine ⟨hvalue, hline, ?_, hfinish⟩
    cases hdecode : Symbol.decode w with
    | nil =>
      rw [hdecode] at hvalue
      cases hvalue
    | cons r rs =>
      rw [hdecode] at hstart
      exact ⟨r, rs, rfl, Bool.not_eq_true _ ▸ hstart⟩
  · intro h
    obtain ⟨r, rs, hdecode, hgap⟩ := h.start
    have hshape : ¬ (10 ∈ w ∨ (Symbol.decode w).head?.any isGap = true ∨
        (Symbol.decode w).getLast? = some (.scalar '\r')) := by
      rintro (hline | hstart | hfinish)
      · exact h.inLine hline
      · rw [hdecode] at hstart
        exact Bool.false_ne_true (hgap.symm.trans hstart)
      · exact h.finish hfinish
    rw [h.value]
    exact if_neg hshape

end Document

/-! ## 4. Documents -/

/-- The entries of lines that say the values of fields, from a line on. -/
def entriesOf (s : Settings) : Nat → List Field → List Entry
  | _, [] => []
  | n, f :: fs => ⟨n, .pair f.key (.plain (s.get f))⟩ :: entriesOf s (n + 1) fs

/-- The line of a field says the field and its value. -/
theorem entries_pairLine (f : Field) {w t : Text} {v : Value} (hw : Document.Tells w v) (n : Nat) :
    Document.entries n (Document.lines (Symbol.decode (pairLine f.key w ++ t))) =
      (Document.entries (n + 1) (Document.lines (Symbol.decode t))).map
        (⟨n, .pair f.key (.plain v)⟩ :: ·) := by
  have hname : ∃ c cs, f.key = Text.ofChars (c :: cs) ∧
      (∀ d ∈ c :: cs, Document.isKey (.scalar d) = true) ∧ 10 ∉ f.key ++ utf8 " = " := by
    cases f
    · exact ⟨'P', "rompt".toList, rfl, List.all_eq_true.mp (by decide), by decide⟩
    · exact ⟨'C', "ontinuationPrompt".toList, rfl, List.all_eq_true.mp (by decide), by decide⟩
    · exact ⟨'H', "istoryFile".toList, rfl, List.all_eq_true.mp (by decide), by decide⟩
    · exact ⟨'C', "olor".toList, rfl, List.all_eq_true.mp (by decide), by decide⟩
    · exact ⟨'T', "race".toList, rfl, List.all_eq_true.mp (by decide), by decide⟩
  obtain ⟨c, cs, hkey, hbare, hfeed⟩ := hname
  have hequals : utf8 " = " = Text.ofChars [' ', '=', ' '] := rfl
  obtain ⟨r, rs, hdecode, _⟩ := hw.start
  have hsplit : pairLine f.key w ++ t = (f.key ++ utf8 " = " ++ w) ++ 10 :: t :=
    List.append_assoc _ [10] t
  have hline : 10 ∉ f.key ++ utf8 " = " ++ w := by
    intro hmem
    rcases List.mem_append.mp hmem with hmem | hmem
    · exact hfeed hmem
    · exact hw.inLine hmem
  have hlast : (Symbol.decode (f.key ++ utf8 " = " ++ w)).getLast? ≠ some (.scalar '\r') := by
    have hsome : Symbol.decode w ≠ [] := by
      rw [hdecode]
      exact List.cons_ne_nil _ _
    rw [hkey, List.append_assoc, Text.decode_ofChars_append, hequals, Text.decode_ofChars_append,
      ← List.append_assoc, List.getLast?_append_of_ne_nil _ hsome]
    exact hw.finish
  rw [hsplit, Document.entries_line hline hlast, hkey, Document.line_pair hbare hw]
  cases Document.entries (n + 1) (Document.lines (Symbol.decode t)) <;> rfl

/-- Lines that say values of fields are read to entries for these fields. -/
theorem entries_lines (s : Settings) : ∀ (es : List (Text × Text)) (n : Nat),
    (∀ e ∈ es, ∃ f : Field, f.key = e.1 ∧ Document.Tells e.2 (s.get f)) →
    ∃ fs : List Field, fs.map Field.key = es.map Prod.fst ∧
      Document.entries n (Document.lines (Symbol.decode
        (es.flatMap fun e => pairLine e.1 e.2))) = some (entriesOf s n fs)
  | [], _, _ => ⟨[], rfl, rfl⟩
  | e :: es, n, hes => by
    obtain ⟨f, hf, htells⟩ := hes e List.mem_cons_self
    obtain ⟨fs, hfs, hrest⟩ :=
      entries_lines s es (n + 1) fun e he => hes e (List.mem_cons_of_mem _ he)
    refine ⟨f :: fs, by rw [List.map_cons, List.map_cons, hf, hfs], ?_⟩
    rw [List.flatMap_cons, ← hf, entries_pairLine f htells, hrest]
    rfl

theorem repeatsKey_entriesOf (s : Settings) : ∀ (fs : List Field) (n : Nat) (seen : List Text),
    (fs.map Field.key).Nodup → (∀ f ∈ fs, f.key ∉ seen) →
    repeatsKey seen (entriesOf s n fs) = false
  | [], _, _, _, _ => rfl
  | f :: fs, n, seen, hnodup, hfresh => by
    obtain ⟨hf, hfs⟩ := List.nodup_cons.mp hnodup
    have hseen : seen.contains f.key = false := by
      rw [List.contains_eq_mem]
      exact decide_eq_false (hfresh f List.mem_cons_self)
    show (seen.contains f.key || repeatsKey (f.key :: seen) (entriesOf s (n + 1) fs)) = false
    rw [hseen, Bool.false_or]
    refine repeatsKey_entriesOf s fs (n + 1) _ hfs fun g hg hmem => ?_
    rcases List.mem_cons.mp hmem with heq | hmem
    · exact hf (heq ▸ List.mem_map_of_mem hg)
    · exact hfresh g (List.mem_cons_of_mem _ hg) hmem

theorem Field.ofKey_key (f : Field) : Field.ofKey f.key = some f := by
  cases f <;> decide

/-- A field takes a value that it has in other settings, and the others stay. -/
theorem put_get (s s' : Settings) (f : Field) :
    ∃ s₁, s.put f (.plain (s'.get f)) = some s₁ ∧ s₁.get f = s'.get f ∧
      ∀ g, g ≠ f → s₁.get g = s.get g := by
  cases f <;> exact ⟨_, rfl, rfl, fun g hg => by cases g <;> first | rfl | exact absurd rfl hg⟩

/-- Entries for the fields in which settings differ make the ones into the others. -/
theorem foldlM_applyEntry (s' : Settings) : ∀ (fs : List Field) (n : Nat) (s : Settings),
    (∀ f, f ∉ fs → s'.get f = s.get f) → (entriesOf s' n fs).foldlM applyEntry s = .ok s'
  | [], _, s, hsame => congrArg Except.ok (eq_of_get fun f => hsame f List.not_mem_nil).symm
  | f :: fs, n, s, hsame => by
    obtain ⟨s₁, hput, hget, hother⟩ := put_get s s' f
    have hentry : applyEntry s ⟨n, .pair f.key (.plain (s'.get f))⟩ = .ok s₁ := by
      unfold applyEntry
      simp only [Field.ofKey_key, hput]
    rw [entriesOf, List.foldlM_cons, hentry]
    refine foldlM_applyEntry s' fs (n + 1) s₁ fun g hg => ?_
    by_cases heq : g = f
    · rw [heq, hget]
    · rw [hother g heq]
      exact hsame g fun hmem => (List.mem_cons.mp hmem).elim heq hg

/-- **A document is read to what its lines say.** The fields that none of them speaks of stay as
    they are. -/
theorem load_lines {es : List (Text × Text)} {s s' : Settings} (hnodup : (es.map Prod.fst).Nodup)
    (hes : ∀ e ∈ es, ∃ f : Field, f.key = e.1 ∧ Document.Tells e.2 (s'.get f))
    (habsent : ∀ f : Field, f.key ∉ es.map Prod.fst → s'.get f = s.get f) :
    s.load (es.flatMap fun e => pairLine e.1 e.2) = .ok s' := by
  obtain ⟨fs, hkeys, hread⟩ := entries_lines s' es 1 hes
  rw [← hkeys] at hnodup habsent
  unfold load Document.read
  rw [hread]
  dsimp only
  rw [repeatsKey_entriesOf s' fs 1 [] hnodup fun _ _ => List.not_mem_nil, if_neg Bool.false_ne_true]
  refine foldlM_applyEntry s' fs 1 s fun f hf => habsent f fun hmem => hf ?_
  obtain ⟨g, hg, heq⟩ := List.mem_map.mp hmem
  exact Field.key_injective heq ▸ hg

/-! ## 5. The library -/

/-- Files with a line for each key. -/
def Format.toml (quote : Text → Text) : Format where
  encode := Value.spelling quote
  decode := Document.told?
  Says t es := t = es.flatMap fun e => pairLine e.1 e.2

/-- **Documents are as lawful as the quotes in them.** -/
theorem Library.toml_lawful {quote : Text → Text} {Legible : Text → Prop}
    (hquote : ∀ t, Legible t → Document.Tells (quote t) (.string t)) :
    (Library.toml quote).Lawful (.toml quote) Legible where
  decode_string t ht := Document.told?_eq_some_iff.mpr (hquote t ht)
  decode_boolean b := Document.told?_eq_some_iff.mpr (Document.tells_boolean b)
  marshal_present s := by
    refine ⟨s.document quote, rfl, ?_⟩
    show s.document quote = List.flatMap _ (List.map _ s.present)
    rw [List.flatMap_map]
    rfl
  unmarshal_absent := by
    intro t es s s' hsays hnodup hes habsent
    have hload : s.load t = .ok s' := by
      rw [show t = _ from hsays]
      refine load_lines hnodup (fun e he => ?_) habsent
      obtain ⟨f, hkey, htold⟩ := hes e he
      exact ⟨f, hkey, Document.told?_eq_some_iff.mp htold⟩
    show (s.load t).mapError _ = _
    rw [hload]
    rfl

/-- A text of characters that have an escape that documents know, or need none. -/
def Document.IsWritable (t : Text) : Prop :=
  ∃ cs, t = Text.ofChars cs ∧ ∀ c ∈ cs, Document.Writable c

/-- The same for a list of characters that are tested one by one. -/
theorem Document.isWritable_of_all (cs : List Char)
    (hcs : (cs.all fun c => decide (Writable c)) = true) : IsWritable (Text.ofChars cs) :=
  ⟨cs, rfl, fun c hc => of_decide_eq_true (List.all_eq_true.mp hcs c hc)⟩

/-- **The library that programs run with is lawful**, control characters apart that have no escape
    in documents. -/
theorem Library.quoted_lawful :
    (Library.toml Text.quoted).Lawful (.toml Text.quoted) Document.IsWritable := by
  refine Library.toml_lawful fun t ht => ?_
  obtain ⟨cs, rfl, hcs⟩ := ht
  rw [Text.quoted_ofChars]
  exact Document.tells_quotedBy fun c hc => Document.readsBack_spelling (hcs c hc)

/-- A text in quotes, a character being written by its number if it has no escape in documents. -/
def Document.numbered (t : Text) : Text :=
  Text.ofChars (Text.quotedBy numberedSpelling ((Symbol.decode t).map Symbol.char))

/-- **With these quotes it is lawful on all texts of characters.** -/
theorem Library.numbered_lawful :
    (Library.toml Document.numbered).Lawful (.toml Document.numbered) Text.IsUtf8 := by
  refine Library.toml_lawful fun t ht => ?_
  obtain ⟨cs, rfl⟩ := ht
  have hchars : (Symbol.decode (Text.ofChars cs)).map Symbol.char = cs := by
    rw [Text.decode_ofChars, List.map_map]
    exact List.map_id cs
  unfold Document.numbered
  rw [hchars]
  exact Document.tells_quotedBy fun c _ => Document.readsBack_numbered c

end Settings

end FencedCode
