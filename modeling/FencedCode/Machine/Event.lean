import FencedCode.Fault
import FencedCode.Text.Blank

/-!
# Trace events

What a run tells about itself when it is traced: calls, scopes entered and left, bindings that a
declaration replaced or left alone, and how the run ended. An event is a message with attributes,
and there are two ways to write it on a line.
-/

namespace FencedCode

/-- Something worth telling about a run. -/
inductive Event where
  | call (function : Text) (count : Nat)
  | pushScope (depth : Nat)
  | popScope (depth : Nat)
  | replaces (name : Text)
  | ignores (name : Text)
  | fault (kind : FaultKind) (line : Nat)
  | topLevelReturn

namespace Event

/-- The message of an event. -/
def message : Event → Text
  | call _ _ => utf8 "function call"
  | pushScope _ => utf8 "push scope"
  | popScope _ => utf8 "pop scope"
  | replaces _ => utf8 "function replaces binding"
  | ignores _ => utf8 "ignored redefinition"
  | fault _ _ => utf8 "runtime fault"
  | topLevelReturn => utf8 "top-level return"

/-- The attributes of an event, by name. -/
def attributes : Event → List (Text × Text)
  | call f n => [(utf8 "function", f), (utf8 "argument-count", Text.ofNat n)]
  | pushScope d => [(utf8 "depth", Text.ofNat d)]
  | popScope d => [(utf8 "depth", Text.ofNat d)]
  | replaces n => [(utf8 "name", n)]
  | ignores n => [(utf8 "name", n)]
  | fault k l => [(utf8 "kind", utf8 k.name), (utf8 "line", Text.ofNat l)]
  | topLevelReturn => []

/-- The message and the attributes as they are. -/
def plain (e : Event) : Text :=
  e.message ++ e.attributes.flatMap fun a => 32 :: a.1 ++ 61 :: a.2

/-- Does a value in a log record need quotes? -/
def needsQuotes (t : Text) : Bool :=
  t.isEmpty || (Symbol.decode t).any fun r =>
    match r with
    | .stray _ => true
    | .scalar c =>
      c == '"' || c == '=' || Text.isSpace c.toNat || !Text.isPrintable c.toNat
        || c == Symbol.replacement

/-- A value in a log record, quoted where that is needed. -/
def recordValue (t : Text) : Text :=
  if needsQuotes t then Text.quoted t else t

/-- The event as a log record. -/
def logRecord (e : Event) : Text :=
  utf8 "level=DEBUG msg=" ++ recordValue e.message
    ++ e.attributes.flatMap fun a => 32 :: a.1 ++ 61 :: recordValue a.2

end Event

end FencedCode
