import FencedCode.Token.Segment

/-!
# Scanning

Scanning a text gives its tokens, ended by one that marks the end of the text, and a diagnostic
for each piece that is no token.
-/

namespace FencedCode

/-- What scanning a text gives. -/
structure Scan where
  /-- The tokens in order; the last one marks the end. -/
  tokens : List Token
  /-- The complaints in order. -/
  diagnostics : List Diagnostic

namespace Scan

/-- Segments with the places where they start, and the place behind the last one. -/
def place : Position → List Segment → List (Position × Segment) × Position
  | p, [] => ([], p)
  | p, s :: rest =>
    let (placed, last) := place (p.afterAll s.symbols) rest
    ((p, s) :: placed, last)

/-- The token of a segment. -/
def token? (p : Position) (s : Segment) : Option Token :=
  match s.content with
  | .token kind literal => some { kind, lexeme := s.text, literal, pos := p }
  | _ => none

/-- The complaint about a segment. -/
def diagnostic? (p : Position) (s : Segment) : Option Diagnostic :=
  match s.content with
  | .error cause => some (.lexical p cause)
  | _ => none

/-- Scans the symbols of a text. -/
def ofSymbols (rs : List Symbol) : Scan :=
  let (placed, last) := place .start (Segment.all rs)
  { tokens := placed.filterMap (fun ps => token? ps.1 ps.2) ++ [.endAt last]
    diagnostics := placed.filterMap fun ps => diagnostic? ps.1 ps.2 }

/-- Scans a text. -/
def ofText (t : Text) : Scan :=
  ofSymbols (Symbol.decode t)

end Scan

end FencedCode
