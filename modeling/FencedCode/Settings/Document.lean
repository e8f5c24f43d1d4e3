import FencedCode.Settings.Basic
import FencedCode.Text.Symbol

/-!
# Settings documents

The part of TOML that settings use: lines `key = value` with strings, truth values and numbers,
table headers, blank lines and comments. A document is its list of entries with their lines; a
text that is no document has none.
-/

namespace FencedCode.Settings

/-- A value in a document. -/
inductive Entry.Value where
  /-- One that a field can have. -/
  | plain (v : Settings.Value)
  | integer
  | float

/-- What a line of a document says. -/
inductive Entry.Item where
  | pair (key : Text) (value : Entry.Value)
  | header (key : Text)

/-- A line of a document that says something. -/
structure Entry where
  /-- The number of the line. -/
  line : Nat
  /-- What it says. -/
  item : Entry.Item

namespace Document

/-! ## 1. Symbols -/

/-- Is the symbol a space or a tab? -/
def isGap (r : Symbol) : Bool :=
  r == .scalar ' ' || r == .scalar '\t'

/-- May the symbol stand in a bare key? -/
def isKey : Symbol → Bool
  | .scalar c => c.isAlphanum || c == '_' || c == '-'
  | .stray _ => false

/-- Is the symbol a decimal digit? -/
def isDigit : Symbol → Bool
  | .scalar c => c.isDigit
  | .stray _ => false

/-- The value of a hexadecimal digit. -/
def hexValue? : Symbol → Option Nat
  | .scalar c =>
    if c.isDigit then some (c.toNat - 48)
    else if 'a' ≤ c ∧ c ≤ 'f' then some (c.toNat - 87)
    else if 'A' ≤ c ∧ c ≤ 'F' then some (c.toNat - 55)
    else none
  | .stray _ => none

/-- Symbols behind spaces and tabs. -/
def skipGaps (rs : List Symbol) : List Symbol :=
  rs.dropWhile isGap

/-! ## 2. Strings -/

/-- The character of a hexadecimal numeral. -/
def hexChar? (digits : List Symbol) : Option Char := do
  let n ← digits.foldlM (fun n d => (hexValue? d).map fun v => 16 * n + v) 0
  if n.isValidChar then some (Char.ofNat n) else none

/-- The character of a one-letter escape. -/
def escaped? : Symbol → Option Char
  | .scalar 'b' => some '\x08'
  | .scalar 't' => some '\t'
  | .scalar 'n' => some '\n'
  | .scalar 'f' => some '\x0c'
  | .scalar 'r' => some '\r'
  | .scalar '"' => some '"'
  | .scalar '\\' => some '\\'
  | _ => none

/-- The rest of a basic string, behind its opening quote: its text and what follows the closing
    quote. `acc` is what was read so far, from the last symbol to the first. -/
def basicString : List Symbol → List Symbol → Option (Text × List Symbol)
  | acc, .scalar '"' :: rest => some (Symbol.respell acc.reverse, rest)
  | acc, .scalar '\\' :: .scalar 'u' :: a :: b :: c :: d :: rest => do
    let x ← hexChar? [a, b, c, d]
    basicString (.scalar x :: acc) rest
  | acc, .scalar '\\' :: .scalar 'U' :: a :: b :: c :: d :: e :: f :: g :: h :: rest => do
    let x ← hexChar? [a, b, c, d, e, f, g, h]
    basicString (.scalar x :: acc) rest
  | acc, .scalar '\\' :: e :: rest => do
    let x ← escaped? e
    basicString (.scalar x :: acc) rest
  | acc, r :: rest => if r.code < 32 then none else basicString (r :: acc) rest
  | _, [] => none

/-- The rest of a literal string, behind its opening apostrophe. -/
def literalString (rs : List Symbol) : Option (Text × List Symbol) :=
  let inner := rs.takeWhile fun r => r != .scalar '\'' && (32 ≤ r.code || r == .scalar '\t')
  match rs.drop inner.length with
  | .scalar '\'' :: rest => some (Symbol.respell inner, rest)
  | _ => none

/-! ## 3. Numbers -/

/-- Digits in which single underscores may stand between digits; what follows them. -/
def digits : List Symbol → Option (List Symbol)
  | d :: rest => if isDigit d then some (more rest) else none
  | [] => none
where
  /-- Further digits. -/
  more : List Symbol → List Symbol
    | .scalar '_' :: d :: rest => if isDigit d then more rest else .scalar '_' :: d :: rest
    | d :: rest => if isDigit d then more rest else d :: rest
    | [] => []

/-- What follows an optional sign. -/
def skipSign : List Symbol → List Symbol
  | .scalar '+' :: rest => rest
  | .scalar '-' :: rest => rest
  | rs => rs

/-- A whole number without leading zeros; what follows it. -/
def whole (rs : List Symbol) : Option (List Symbol) :=
  match skipSign rs with
  | .scalar '0' :: rest => some rest
  | rs => digits rs

/-- An optional fraction; what follows it, and whether there was one. -/
def fraction (rs : List Symbol) : Bool × List Symbol :=
  match rs with
  | .scalar '.' :: rest =>
    match digits rest with
    | some after => (true, after)
    | none => (false, rs)
  | _ => (false, rs)

/-- An optional exponent; what follows it, and whether there was one. -/
def exponent (rs : List Symbol) : Bool × List Symbol :=
  match rs with
  | .scalar 'e' :: rest | .scalar 'E' :: rest =>
    match digits (skipSign rest) with
    | some after => (true, after)
    | none => (false, rs)
  | _ => (false, rs)

/-- A number. -/
def number (rs : List Symbol) : Option (Entry.Value × List Symbol) := do
  let rest ← whole rs
  let (fractional, rest) := fraction rest
  let (scaled, rest) := exponent rest
  some (if fractional || scaled then .float else .integer, rest)

/-! ## 4. Lines -/

/-- A constant text at the head of symbols; what follows it. -/
def word (w : String) (rs : List Symbol) : Option (List Symbol) :=
  let symbols := w.toList.map Symbol.scalar
  if symbols.isPrefixOf rs then some (rs.drop symbols.length) else none

/-- A value. -/
def value (rs : List Symbol) : Option (Entry.Value × List Symbol) :=
  match rs with
  | .scalar '"' :: rest => (basicString [] rest).map fun (t, rest) => (.plain (.string t), rest)
  | .scalar '\'' :: rest => (literalString rest).map fun (t, rest) => (.plain (.string t), rest)
  | rs =>
    match word "true" rs, word "false" rs with
    | some rest, _ => some (.plain (.boolean true), rest)
    | none, some rest => some (.plain (.boolean false), rest)
    | none, none => number rs

/-- A key, bare or quoted. -/
def key (rs : List Symbol) : Option (Text × List Symbol) :=
  match rs with
  | .scalar '"' :: rest => basicString [] rest
  | rs =>
    let bare := rs.takeWhile isKey
    if bare.isEmpty then none else some (Symbol.encode bare, rs.drop bare.length)

/-- Is nothing left on a line but gaps and a comment? -/
def isOver (rs : List Symbol) : Bool :=
  match skipGaps rs with
  | [] => true
  | r :: _ => r == .scalar '#'

/-- What a line says; `some none` for a line that says nothing. -/
def line (rs : List Symbol) : Option (Option Entry.Item) :=
  let rs := skipGaps rs
  if isOver rs then some none
  else match rs with
    | .scalar '[' :: rest => do
      let (k, rest) ← key (skipGaps rest)
      let rest ← word "]" (skipGaps rest)
      if isOver rest then some (some (.header k)) else none
    | rs => do
      let (k, rest) ← key rs
      let rest ← word "=" (skipGaps rest)
      let (v, rest) ← value (skipGaps rest)
      if isOver rest then some (some (.pair k v)) else none

/-- The lines of symbols, without the line feeds that end them and one carriage return before
    each. -/
def lines (rs : List Symbol) : List (List Symbol) :=
  (rs.splitOn (.scalar '\n')).map fun l =>
    if l.getLast? = some (.scalar '\r') then l.dropLast else l

/-- The entries of lines, the first of which has the given number. -/
def entries : Nat → List (List Symbol) → Option (List Entry)
  | _, [] => some []
  | n, l :: ls => do
    let item ← line l
    let rest ← entries (n + 1) ls
    some ((item.map fun i => ⟨n, i⟩).toList ++ rest)

/-- Reads a document. -/
def read (t : Text) : Option (List Entry) :=
  entries 1 (lines (Symbol.decode t))

end Document

end FencedCode.Settings
