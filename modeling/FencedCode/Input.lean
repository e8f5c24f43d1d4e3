import FencedCode.Text.Basic

/-!
# Input

What a program reads: bytes, and then either the end of input or a failing reader. Input is taken
line by line; a last line without a line feed counts as one.
-/

namespace FencedCode

/-- Input that is still to be read. -/
structure Input where
  /-- The bytes. -/
  rest : Text
  /-- Why reading fails behind them; none if they are followed by the end of input. -/
  failure : Option Text := none

/-- Why no line could be read. -/
inductive ReadError where
  | endOfInput
  | failed (reason : Text)

/-- The wording of a read error. -/
def ReadError.text : ReadError → Text
  | endOfInput => utf8 "EOF"
  | failed reason => reason

namespace Input

/-- No input at all. -/
def empty : Input := { rest := [] }

/-- A text up to and with its first line feed, if it has one, and what is behind that. -/
def splitLine (t : Text) : Option (Text × Text) :=
  let before := t.takeWhile (· != 10)
  match t.drop before.length with
  | [] => none
  | lf :: rest => some (before ++ [lf], rest)

/-- The error behind the last byte. -/
def closing (i : Input) : ReadError :=
  match i.failure with
  | none => .endOfInput
  | some reason => .failed reason

/-- The next piece of input with its line feed; without one, all that is left and the error
    behind it. -/
def nextPiece (i : Input) : (Text × Option ReadError) × Input :=
  match splitLine i.rest with
  | some (piece, rest) => ((piece, none), { i with rest })
  | none => ((i.rest, some i.closing), { i with rest := [] })

/-- A line without the carriage returns and line feeds at its end. -/
def trimEnd (t : Text) : Text :=
  (t.reverse.dropWhile fun b => b == 13 || b == 10).reverse

/-- The next line. What a failing reader gave of a line is lost. -/
def readLine (i : Input) : Except ReadError Text × Input :=
  match i.nextPiece with
  | ((piece, none), i') => (.ok (trimEnd piece), i')
  | ((piece, some e), i') =>
    match e with
    | .endOfInput => if piece.isEmpty then (.error e, i') else (.ok (trimEnd piece), i')
    | .failed _ => (.error e, i')

end Input

end FencedCode
