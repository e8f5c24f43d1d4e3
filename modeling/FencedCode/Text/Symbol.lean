import FencedCode.Text.Basic

/-!
# Symbols

Reading a text character by character. A text that is not valid UTF-8 still falls into
pieces: each byte that starts no valid character is a piece of its own, a *stray* byte,
and stands for U+FFFD. `Symbol.decode` gives the pieces in order; nothing is lost
(`bytes_decode`).
-/

namespace FencedCode

/-- One piece of a text: a character, or a byte that belongs to none. -/
inductive Symbol where
  /-- A character, written in UTF-8. -/
  | scalar (c : Char)
  /-- A byte at which no valid character starts. -/
  | stray (b : UInt8)
  deriving DecidableEq, Repr, Inhabited

namespace Symbol

/-! ## 1. What a symbol stands for -/

/-- The character a stray byte stands for. -/
def replacement : Char := '\uFFFD'

/-- The character a symbol stands for. -/
def char : Symbol → Char
  | scalar c => c
  | stray _ => replacement

/-- The code point a symbol stands for. -/
def code (r : Symbol) : Nat :=
  r.char.toNat

/-- The bytes a symbol occupies in its text. -/
def bytes : Symbol → Text
  | scalar c => String.utf8EncodeChar c
  | stray b => [b]

/-- The number of bytes a symbol occupies. -/
def width (r : Symbol) : Nat :=
  r.bytes.length

/-! ## 2. Decoding -/

/-- The code point that the leading bytes of a text spell, if they spell any. -/
def spelled (t : Text) : Nat :=
  let byte (i : Nat) : Nat := (t.getD i 0).toNat
  let tail (i : Nat) : Nat := byte i % 64
  if byte 0 < 0x80 then byte 0
  else if byte 0 < 0xE0 then byte 0 % 32 * 64 + tail 1
  else if byte 0 < 0xF0 then byte 0 % 16 * 4096 + tail 1 * 64 + tail 2
  else byte 0 % 8 * 262144 + tail 1 * 4096 + tail 2 * 64 + tail 3

/-- The character whose UTF-8 form starts the text. -/
def leading? (t : Text) : Option Char :=
  if (spelled t).isValidChar then
    let c := Char.ofNat (spelled t)
    if (String.utf8EncodeChar c).isPrefixOf t then some c else none
  else none

/-- The symbols of a text of which the first `skip` bytes are already accounted for. -/
def decodeFrom : Nat → Text → List Symbol
  | _, [] => []
  | skip + 1, _ :: rest => decodeFrom skip rest
  | 0, b :: rest =>
    match leading? (b :: rest) with
    | some c => scalar c :: decodeFrom ((String.utf8EncodeChar c).length - 1) rest
    | none => stray b :: decodeFrom 0 rest

/-- The symbols of a text, in order. -/
def decode (t : Text) : List Symbol :=
  decodeFrom 0 t

/-- The bytes of symbols, in order. -/
def encode (rs : List Symbol) : Text :=
  rs.flatMap bytes

/-- The text that spells each symbol's character: stray bytes become U+FFFD. -/
def respell (rs : List Symbol) : Text :=
  rs.flatMap fun r => String.utf8EncodeChar r.char

/-! ## 3. Decoding loses nothing -/

theorem isPrefixOf_of_leading? {t : Text} {c : Char} (h : leading? t = some c) :
    (String.utf8EncodeChar c).isPrefixOf t = true := by
  unfold leading? at h
  split at h
  · simp only [Option.ite_none_right_eq_some, Option.some.injEq] at h
    obtain ⟨hp, rfl⟩ := h
    exact hp
  · simp at h

theorem decodeFrom_drop (k : Nat) (t : Text) : decodeFrom k t = decodeFrom 0 (t.drop k) := by
  induction k generalizing t with
  | zero => rfl
  | succ k ih =>
    cases t with
    | nil => rfl
    | cons b rest => simpa [decodeFrom] using ih rest

theorem encode_decodeFrom (n : Nat) :
    ∀ t : Text, t.length ≤ n → encode (decodeFrom 0 t) = t := by
  induction n with
  | zero =>
    intro t h
    cases t with
    | nil => rfl
    | cons _ _ => simp at h
  | succ n ih =>
    intro t h
    cases t with
    | nil => rfl
    | cons b rest =>
      simp only [List.length_cons] at h
      rw [decodeFrom]
      split
      · rename_i c hc
        obtain ⟨u, hu⟩ := List.isPrefixOf_iff_prefix.mp (isPrefixOf_of_leading? hc)
        have hlen : 0 < (String.utf8EncodeChar c).length := by
          rw [String.length_utf8EncodeChar]; exact c.utf8Size_pos
        cases he : String.utf8EncodeChar c with
        | nil => rw [he] at hlen; simp at hlen
        | cons a as =>
          rw [he] at hu
          simp only [List.cons_append, List.cons.injEq] at hu
          obtain ⟨rfl, rfl⟩ := hu
          have hd : (as ++ u).drop as.length = u := by simp
          have := ih u (by simp at h; omega)
          rw [decodeFrom_drop]
          simp only [List.length_cons, Nat.add_sub_cancel, hd]
          simp only [encode, List.flatMap_cons, bytes] at this ⊢
          rw [this, he]
          rfl
      · have := ih rest (by omega)
        simp only [encode, List.flatMap_cons, bytes] at this ⊢
        rw [this]
        rfl

/-- **Decoding loses nothing**: the bytes of the symbols are the text. -/
theorem encode_decode (t : Text) : encode (decode t) = t :=
  encode_decodeFrom t.length t (Nat.le_refl _)

end Symbol

end FencedCode
