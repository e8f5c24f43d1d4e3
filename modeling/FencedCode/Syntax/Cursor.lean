import FencedCode.Diagnostic
import FencedCode.Syntax.Basic

/-!
# Cursor over tokens

The parser walks over a list of tokens that ends with an end-of-text token and never passes such a
token. A `Cursor` is where it stands, with the complaints made so far; a `Parse α` moves the
cursor and either succeeds with an `α` or fails, a complaint having been made.
-/

namespace FencedCode

/-- A place in a list of tokens. -/
structure Cursor where
  /-- The token before the current one; at the start, the current one. -/
  previous : Token
  /-- The token the cursor stands at. -/
  current : Token
  /-- The tokens behind it. -/
  rest : List Token
  /-- The complaints made so far, the latest first. -/
  reported : List Diagnostic

namespace Cursor

/-- The start of a list of tokens, to which an end is added if it has none. The end stands where
    the last token does. -/
def ofTokens (ts : List Token) : Cursor :=
  let last := ts.getLast?.map (fun t => t.pos)
  let closed :=
    if ts.getLast?.any (fun t => t.kind = .eof) then ts else ts ++ [.endAt (last.getD .none)]
  match closed with
  | [] => ⟨.endAt .none, .endAt .none, [], []⟩
  | t :: rest => ⟨t, t, rest, []⟩

/-- Is the kind of the current token `k`? -/
def isAt (c : Cursor) (k : Kind) : Bool :=
  c.current.kind = k

/-- The token behind the current one; at the last token, that token. -/
def next (c : Cursor) : Token :=
  c.rest.headD c.current

/-- One token further, but not past an end of text. -/
def advance (c : Cursor) : Cursor :=
  if c.isAt .eof then c
  else match c.rest with
    | [] => c
    | t :: rest => { c with previous := c.current, current := t, rest }

/-- The cursor with a complaint about a token. -/
def report (c : Cursor) (t : Token) (e : SyntaxError) : Cursor :=
  { c with reported := .atToken t e :: c.reported }

/-! ## Recovery -/

/-- Does the kind start or end a statement or declaration? -/
def isBoundary : Kind → Bool
  | .type _ | .kwImmut | .kwDisplay | .kwScan | .kwIf | .kwWhile | .kwReturn | .kwFn | .kwBegin
  | .kwEnd => true
  | _ => false

/-- Moves to the first token that is a boundary or stands behind a semicolon. -/
def toBoundary : Token → Token → List Token → Token × Token × List Token
  | previous, current, [] => (previous, current, [])
  | previous, current, t :: rest =>
    if current.kind = .eof ∨ previous.kind = .semicolon ∨ isBoundary current.kind then
      (previous, current, t :: rest)
    else toBoundary current t rest

/-- Skips the rest of a malformed statement or declaration, at least one token unless an `END`
    comes at once. -/
def synchronize (c : Cursor) : Cursor :=
  let c := if c.isAt .kwEnd then c else c.advance
  let (previous, current, rest) := toBoundary c.previous c.current c.rest
  { c with previous, current, rest }

/-- Moves behind the first `END FN`, or to the first `BEGIN CODE` if that comes earlier. -/
def toFunctionEnd : Token → Token → List Token → Token × Token × List Token
  | previous, current, [] => (previous, current, [])
  | previous, current, t :: rest =>
    if current.kind = .eof ∨ (current.kind = .kwBegin ∧ t.kind = .kwCode) then
      (previous, current, t :: rest)
    else if current.kind = .kwEnd ∧ t.kind = .kwFn then
      match rest with
      | [] => (current, t, [])
      | u :: rest => (t, u, rest)
    else toFunctionEnd current t rest

/-- Skips the rest of a malformed function declaration. -/
def skipFunction (c : Cursor) : Cursor :=
  let (previous, current, rest) := toFunctionEnd c.previous c.current c.rest
  { c with previous, current, rest }

end Cursor

/-! ## Parsing steps -/

/-- A step of the parser: it moves the cursor and succeeds or fails. -/
def Parse (α : Type) : Type :=
  Cursor → Option α × Cursor

namespace Parse

/-- Succeeds where the cursor stands. -/
@[always_inline, inline]
protected def pure {α : Type} (a : α) : Parse α :=
  fun c => (some a, c)

/-- One step after another; a failure ends both. -/
@[always_inline, inline]
protected def bind {α β : Type} (p : Parse α) (f : α → Parse β) : Parse β :=
  fun c =>
    match p c with
    | (some a, c') => f a c'
    | (none, c') => (none, c')

instance : Monad Parse where
  pure := Parse.pure
  bind := Parse.bind

/-- The current token. -/
@[always_inline, inline]
def peek : Parse Token :=
  fun c => (some c.current, c)

/-- The token behind the current one. -/
@[always_inline, inline]
def peekNext : Parse Token :=
  fun c => (some c.next, c)

/-- Moves on, past the current token. -/
@[always_inline, inline]
def skip : Parse Unit :=
  fun c => (some (), c.advance)

/-- Takes the current token. -/
@[always_inline, inline]
def take : Parse Token :=
  fun c => (some c.current, c.advance)

/-- Complains about a token and goes on. -/
def complain (t : Token) (e : SyntaxError) : Parse Unit :=
  fun c => (some (), c.report t e)

/-- Complains about a token and fails. -/
def failAt {α : Type} (t : Token) (e : SyntaxError) : Parse α :=
  fun c => (none, c.report t e)

/-- Complains about the current token and fails. -/
def fail {α : Type} (e : SyntaxError) : Parse α :=
  fun c => (none, c.report c.current e)

/-- Takes a token of the given kind, or complains about the current one and fails. -/
def expect (k : Kind) (e : SyntaxError) : Parse Token :=
  fun c => if c.isAt k then (some c.current, c.advance) else (none, c.report c.current e)

/-- Takes a token of the given kind if the cursor stands at one. -/
def accept (k : Kind) : Parse Bool :=
  fun c => if c.isAt k then (some true, c.advance) else (some false, c)

/-- Tries a step; if it fails, recovers and gives nothing. -/
@[always_inline, inline]
def orRecover {α : Type} (p : Parse α) (recover : Cursor → Cursor) : Parse (Option α) :=
  fun c =>
    match p c with
    | (some a, c') => (some (some a), c')
    | (none, c') => (some none, recover c')

end Parse

end FencedCode
