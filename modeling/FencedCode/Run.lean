import FencedCode.Machine.Eval
import FencedCode.Syntax.Grammar

/-!
# Running source texts

From a source text to the end of its run on a machine. A text with diagnostics is not run at all.
-/

namespace FencedCode

/-! ## 1. Sources -/

namespace Source

/-- A program file without its `#!` line. The line feed stays, so that lines keep their numbers. -/
def withoutShebang (t : Text) : Text :=
  if (utf8 "#!").isPrefixOf t then t.dropWhile (· != 10) else t

/-- The bytes of a reader, unless it fails. -/
def ofReader (i : Input) : Except Text Text :=
  match i.failure with
  | none => .ok i.rest
  | some reason => .error reason

end Source

/-! ## 2. Runs -/

/-- Why a source text did not run to its end. -/
inductive RunError where
  /-- The text is no program. -/
  | rejected (diagnostics : List Diagnostic)
  /-- The run failed. -/
  | failed (failure : Failure)
  /-- The text could not be read. -/
  | unreadable (reason : Text)

namespace RunError

/-- The wording of an error. -/
def text : RunError → Text
  | rejected ds => Diagnostic.summary ds
  | failed f => f.text
  | unreadable reason => reason

/-- Does the error only say that the text ended too early? -/
def isIncomplete : RunError → Bool
  | rejected ds => Diagnostic.allIncomplete ds
  | _ => false

/-- The diagnostics that are reported for an error. -/
def reports : RunError → List Diagnostic
  | rejected ds => ds
  | _ => []

/-- The failure that is reported for an error. -/
def failure? : RunError → Option Failure
  | failed f => some f
  | _ => none

end RunError

/-- The steps granted to a run, more than any run that ends in a lifetime needs. -/
def grantedSteps : Nat :=
  Nat.pow 2 62

namespace Machine

/-- Runs a program if it has no diagnostics. -/
def runProgram (h : Host) (p : Program) (m : Machine) : Option RunError × Machine :=
  if p.diagnostics.isEmpty then
    match execute h grantedSteps p.stmts m with
    | (.ok (), m') => (none, m')
    | (.error e, m') => (some (.failed e), m')
  else (some (.rejected p.diagnostics), m)

/-- Runs a source text. -/
def runText (h : Host) (t : Text) (m : Machine) : Option RunError × Machine :=
  runProgram h (.ofText t) m

/-- Runs the source text that a reader yields. -/
def runReader (h : Host) (source : Input) (m : Machine) : Option RunError × Machine :=
  match Source.ofReader source with
  | .ok t => runText h t m
  | .error reason => (some (.unreadable (utf8 "read program: " ++ reason)), m)

/-- Runs a program file, given what reading it yields. -/
def runFile (h : Host) (content : Except Text Text) (m : Machine) : Option RunError × Machine :=
  match content with
  | .ok t => runText h (Source.withoutShebang t) m
  | .error reason => (some (.unreadable reason), m)

/-- Calls a value from outside any program. -/
def applyValue (h : Host) (callee : Value) (args : List Value) (m : Machine) :
    Except Failure Value × Machine :=
  apply h grantedSteps callee args m

/-- The binding of a global name. -/
def global? (m : Machine) (name : Text) : Option Binding :=
  m.scopes.lookup 0 name

/-- The machine with nothing written or recorded yet. -/
def drained (m : Machine) : Machine :=
  { m with output := [], events := [], probes := [] }

end Machine

end FencedCode
