import FencedCode.Console
import FencedCode.Text.Blank

/-!
# A stream of programs

Programs and their input, read line by line from one stream. Lines are gathered until they make a
program; the program then runs on a machine of its own and reads its input from the same stream.
-/

namespace FencedCode

/-- The state of reading a stream. -/
structure Repl where
  /-- Where reports go. -/
  console : Console
  /-- What is left of the stream. -/
  input : Input
  /-- What the programs wrote, the latest first. -/
  output : List Text := []

namespace Repl

/-- All that the programs wrote, in order. -/
def written (r : Repl) : Text :=
  r.output.reverse.flatten

/-- Runs a program without diagnostics on a machine of its own. -/
def runProgram (h : Host) (p : Program) (r : Repl) : Repl :=
  let (e, m) := Machine.runProgram h p (.standard r.input)
  let console := r.console.logEvents m.events.reverse
  { console := e.elim console console.reportError
    input := m.input
    output := m.output ++ r.output }

/-- Tries a text as a program and tells whether it is done with: a text that is merely incomplete
    is not, unless it is `final`. Blank texts are done with silently. -/
def tryProgram (h : Host) (source : Text) (final : Bool) (r : Repl) : Bool × Repl :=
  let p := Program.ofText source
  if p.diagnostics.isEmpty then (true, r.runProgram h p)
  else if Diagnostic.allIncomplete p.diagnostics && !final then (false, r)
  else if Text.isBlank source then (true, r)
  else (true, { r with console := r.console.reportDiagnostics p.diagnostics })

/-- Takes pieces off the stream, `buffer` being those not yet done with. The result names the
    reason if the stream fails. `fuel` bounds the number of pieces. -/
def loop (h : Host) : Nat → Text → Repl → Option Text × Repl
  | 0, _, r => (none, r)
  | fuel + 1, buffer, r =>
    let ((piece, e), input) := r.input.nextPiece
    let r := { r with input }
    match e with
    | some (.failed reason) => (some reason, r)
    | e =>
      let source := buffer ++ piece
      let final := e.isSome
      let (done, r) := if source.isEmpty then (false, r) else r.tryProgram h source final
      if final then (none, r)
      else loop h fuel (if done then [] else source) r

/-- The complaint that the stream failed. -/
def readError (reason : Text) : Text :=
  Text.line (utf8 "read error: " ++ reason)

/-- Reads a whole stream. Every piece but the last takes at least one byte, which bounds their
    number. -/
def run (h : Host) (r : Repl) : Option Text × Repl :=
  loop h (r.input.rest.length + 1) [] r

end Repl

end FencedCode
