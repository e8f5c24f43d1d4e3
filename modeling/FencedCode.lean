import FencedCode.CommandLine.Basic
import FencedCode.CommandLine.Disk
import FencedCode.CommandLine.FileTree
import FencedCode.Console
import FencedCode.Decimal.Binary
import FencedCode.Decimal.Notation
import FencedCode.Decimal.Shortest
import FencedCode.Diagnostic
import FencedCode.Fault
import FencedCode.Input
import FencedCode.Machine.Basic
import FencedCode.Machine.Eval
import FencedCode.Machine.Event
import FencedCode.Machine.Native
import FencedCode.Machine.Operator
import FencedCode.Main
import FencedCode.Number.Dyadic
import FencedCode.Number.Power
import FencedCode.Number.Remainder
import FencedCode.Path
import FencedCode.Repl
import FencedCode.Run
import FencedCode.Scope
import FencedCode.Settings.Basic
import FencedCode.Settings.Document
import FencedCode.Settings.Toml
import FencedCode.Syntax.Basic
import FencedCode.Syntax.Cursor
import FencedCode.Syntax.Dump
import FencedCode.Syntax.Grammar
import FencedCode.Syntax.Outline
import FencedCode.Text.Basic
import FencedCode.Text.Blank
import FencedCode.Text.Printable
import FencedCode.Text.Quoted
import FencedCode.Text.Symbol
import FencedCode.Token.Basic
import FencedCode.Token.Kind
import FencedCode.Token.Listing
import FencedCode.Token.Scan
import FencedCode.Token.Segment
import FencedCode.Value.Basic
import FencedCode.Proofs.Machine.Conduct
import FencedCode.Proofs.Machine.Moment
import FencedCode.Proofs.Scope.View
import FencedCode.Proofs.Machine.TypeSoundness
import FencedCode.Proofs.Syntax.Written
import FencedCode.Proofs.Syntax.Completeness.Expressions
import FencedCode.Proofs.Syntax.Completeness.Programs
import FencedCode.Proofs.Syntax.Soundness.Spelling
import FencedCode.Proofs.Syntax.Soundness.Expressions
import FencedCode.Proofs.Syntax.Soundness.Programs
import FencedCode.Proofs.Machine.FrameProperty
import FencedCode.Proofs.Machine.Coupling
import FencedCode.Proofs.Machine.Noninterference
import FencedCode.Proofs.Machine.Restoration
import FencedCode.Proofs.Token.Lines
import FencedCode.Proofs.Syntax.Locality
import FencedCode.Proofs.Syntax.Room
import FencedCode.Proofs.Syntax.Continuation.Expressions
import FencedCode.Proofs.Syntax.Unfinished
import FencedCode.Proofs.Syntax.Continuation.Programs
import FencedCode.Proofs.Syntax.Continuation.Limits
import FencedCode.Proofs.Syntax.Continuation.Targets
import FencedCode.Proofs.Syntax.Continuation.Texts
import FencedCode.Proofs.Machine.CallDepth
import FencedCode.Proofs.Syntax.Drawn
import FencedCode.Proofs.Machine.Failing
import FencedCode.Proofs.Machine.Drawn
import FencedCode.Proofs.Machine.Safety
import FencedCode.Proofs.Machine.Location
import FencedCode.Proofs.Syntax.Sealed
import FencedCode.Proofs.Machine.Supply
import FencedCode.Proofs.Repl.Turns
import FencedCode.Proofs.Token.Partition
import FencedCode.Proofs.Token.Lexemes
import FencedCode.Proofs.Machine.Held
import FencedCode.Proofs.Machine.Termination
import FencedCode.Proofs.Machine.Resemblance
import FencedCode.Proofs.Machine.Settling
import FencedCode.Proofs.Machine.Translation
import FencedCode.Proofs.Machine.Likeness
import FencedCode.Proofs.Machine.Simplification
import FencedCode.Proofs.Syntax.Layout
import FencedCode.Proofs.Machine.Names
import FencedCode.Proofs.Machine.Places
import FencedCode.Proofs.Token.Standing
import FencedCode.Proofs.Syntax.Script
import FencedCode.Proofs.Syntax.Progress
import FencedCode.Proofs.Settings.Reload
import FencedCode.Proofs.Syntax.Live
import FencedCode.Proofs.Repl.Routes
import FencedCode.Proofs.Machine.Reads
import FencedCode.Proofs.Scope.History
import FencedCode.Proofs.Recovery.Parting
import FencedCode.Proofs.Recovery.Splice
import FencedCode.Proofs.Recovery.Passing
import FencedCode.Proofs.Syntax.Origin
import FencedCode.Proofs.Recovery.Header
import FencedCode.Proofs.Recovery.Operand
import FencedCode.Proofs.Token.Offsets
import FencedCode.Proofs.Token.Joined
import FencedCode.Proofs.Token.Numerals
import FencedCode.Proofs.Token.Literals
import FencedCode.Proofs.Machine.IntegerText
import FencedCode.Proofs.Machine.Scanned
import FencedCode.Proofs.Machine.Arithmetic
import FencedCode.Proofs.Text.Quoted
import FencedCode.Proofs.Token.Listing
import FencedCode.Proofs.Machine.Trace
import FencedCode.Proofs.Decimal.Rounding
import FencedCode.Proofs.Decimal.Magnitude
import FencedCode.Proofs.Decimal.Layout
import FencedCode.Proofs.Decimal.Display
