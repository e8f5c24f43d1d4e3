import FencedCode.Run

/-!
# Console

Where diagnostics and faults are reported to the user, in colour or not. The console remembers
whether it reported any, which decides how the whole program exits.
-/

namespace FencedCode

/-- A console. -/
structure Console where
  /-- Are reports coloured? -/
  color : Bool
  /-- What it shows, the latest first. -/
  shown : List Text := []
  /-- Was a diagnostic reported? -/
  hadError : Bool := false
  /-- Was a failed run reported? -/
  hadRuntimeError : Bool := false

namespace Console

/-! ## 1. Colours -/

/-- The codes that switch colours. -/
inductive Ink where
  | boldRed
  | yellow
  | red
  | reset

/-- The escape sequence of a colour. -/
def Ink.code : Ink → Text
  | boldRed => utf8 "\x1b[31;1m"
  | yellow => utf8 "\x1b[33m"
  | red => utf8 "\x1b[31m"
  | reset => utf8 "\x1b[0m"

/-- A text in a colour. -/
def painted (c : Console) (ink : Ink) (t : Text) : Text :=
  if c.color then ink.code ++ t ++ Ink.reset.code else t

/-- A text in a colour that stays on. -/
def stained (c : Console) (ink : Ink) (t : Text) : Text :=
  if c.color then ink.code ++ t else t

/-- Are reports to be coloured, given the mode, the value of `NO_COLOR` and whether the console is
    a terminal? -/
def useColor (mode : Text) (noColor : Text) (terminal : Bool) : Bool :=
  if mode = utf8 "always" then true
  else if mode = utf8 "never" then false
  else noColor.isEmpty && terminal

/-! ## 2. Reports -/

/-- All that the console shows, in order. -/
def text (c : Console) : Text :=
  c.shown.reverse.flatten

/-- Shows a text. -/
def write (c : Console) (t : Text) : Console :=
  { c with shown := t :: c.shown }

/-- The tag of a line number. -/
def lineTag (line : Int) : Text :=
  utf8 "[line " ++ Text.ofInt line ++ utf8 "]"

/-- Reports a diagnostic. Syntactic complaints start with "at " and go on behind the word
    "Error"; lexical ones follow a colon. -/
def reportDiagnostic (c : Console) (line : Int) (message : Text) : Console :=
  let separator := if (utf8 "at ").isPrefixOf message then utf8 " " else utf8 ": "
  { c with hadError := true }.write
    (Text.line (c.painted .yellow (lineTag line) ++ 32 :: c.painted .boldRed (utf8 "Error")
      ++ separator ++ message))

/-- Reports that a run failed, with the line of the fault if it has one. -/
def reportFailed (c : Console) (message : Text) (line : Int) : Console :=
  let c := { c with hadRuntimeError := true }.write (Text.line (c.stained .red message))
  if 0 < line then c.write (Text.line (c.stained .yellow (lineTag line))) else c

/-- Reports diagnostics in order. -/
def reportDiagnostics (c : Console) (ds : List Diagnostic) : Console :=
  ds.foldl (fun c d => c.reportDiagnostic d.line d.shortText) c

/-- Reports the failure of a run. -/
def reportFailure (c : Console) : Failure → Console
  | .fault f => c.reportFailed f.message f.line
  | e => c.reportFailed e.text 0

/-- Reports why a source text did not run to its end. A text that could not be read is not the
    console's business. -/
def reportError (c : Console) : RunError → Console
  | .rejected ds => c.reportDiagnostics ds
  | .failed e => c.reportFailure e
  | .unreadable _ => c

/-- Forgets what was reported. -/
def reset (c : Console) : Console :=
  { c with hadError := false, hadRuntimeError := false }

/-- Shows trace events as log records. -/
def logEvents (c : Console) (es : List Event) : Console :=
  es.foldl (fun c e => c.write (Text.line e.logRecord)) c

/-! ## 3. Exit status -/

/-- How a command ends: a status and what is left to say. -/
structure Exit where
  /-- The exit status; zero is success. -/
  status : Nat
  /-- The last words. -/
  message : Text

/-- The status for faulty sources. -/
def dataError : Nat := 65

/-- The status for failed runs. -/
def softwareError : Nat := 70

/-- How a command ends that met an error of the given wording. What was reported already is not
    said again. -/
def exitFor (c : Console) (message : Text) : Exit :=
  if c.hadError then ⟨dataError, []⟩
  else if c.hadRuntimeError then ⟨softwareError, []⟩
  else ⟨1, message⟩

end Console

end FencedCode
