import FencedCode.Value.Basic

/-!
# Faults

Why a running program stops. A fault is a cause and the token it points at; each cause has a kind
and one wording.
-/

namespace FencedCode

/-- The kinds of faults. -/
inductive FaultKind where
  | undefinedVariable
  | typeMismatch
  | immutableAssignment
  | divisionByZero
  | arityMismatch
  | notCallable
  | returnTypeMismatch
  | unexpectedReturnValue
  | missingReturn
  | invalidInput
  | stackOverflow
  deriving DecidableEq, Repr

/-- The name of a kind. -/
def FaultKind.name : FaultKind → String
  | undefinedVariable => "undefined variable"
  | typeMismatch => "type mismatch"
  | immutableAssignment => "immutable assignment"
  | divisionByZero => "division by zero"
  | arityMismatch => "arity mismatch"
  | notCallable => "not callable"
  | returnTypeMismatch => "return type mismatch"
  | unexpectedReturnValue => "unexpected return value"
  | missingReturn => "missing return"
  | invalidInput => "invalid input"
  | stackOverflow => "stack overflow"

/-- What went wrong. Values are kept as they are displayed. -/
inductive Cause where
  | undefined (name : Text)
  | immutable (value : Text)
  | assignedType (value : Text) (type : ValueType)
  | initialType (value : Text) (type : ValueType)
  | argumentType (value name : Text) (type : ValueType)
  | operand
  | operands (left right : ValueType)
  | zeroDivisor
  | notCallable
  | arity (expected : Int) (got : Nat)
  | depth (name : Text)
  | valueFromVoid
  | noReturn (type : ValueType)
  | returnType (type : ValueType)
  | noLine
  | noValue (name : Text)
  | nativeArgument (name : Text) (type : ValueType)
  | nativeNoLine (name : Text)

namespace Cause

/-- The kind of a cause. -/
def kind : Cause → FaultKind
  | undefined _ => .undefinedVariable
  | immutable _ => .immutableAssignment
  | assignedType _ _ | initialType _ _ | argumentType _ _ _ | operand | operands _ _
  | nativeArgument _ _ => .typeMismatch
  | zeroDivisor => .divisionByZero
  | notCallable => .notCallable
  | arity _ _ => .arityMismatch
  | depth _ => .stackOverflow
  | valueFromVoid => .unexpectedReturnValue
  | noReturn _ => .missingReturn
  | returnType _ => .returnTypeMismatch
  | noLine | noValue _ | nativeNoLine _ => .invalidInput

/-- The wording of a cause. -/
def message : Cause → Text
  | undefined name => utf8 "Undefined variable '" ++ name ++ utf8 "'."
  | immutable v =>
    utf8 "Cannot assign the value '" ++ v ++ utf8 "' to an immutable variable."
  | assignedType v t =>
    utf8 "Cannot assign the value '" ++ v ++ utf8 "' to variable of type " ++ t.label ++ utf8 "."
  | initialType v t => utf8 "Value '" ++ v ++ utf8 "' is not of type " ++ t.label ++ utf8 "."
  | argumentType v name t =>
    utf8 "Argument '" ++ v ++ utf8 "' for parameter '" ++ name ++ utf8 "' is not of type "
      ++ t.label ++ utf8 "."
  | operand => utf8 "Operand must be an integer or a float number."
  | operands l r =>
    utf8 "Operands must both be integers or both be float numbers, got " ++ l.label
      ++ utf8 " and " ++ r.label ++ utf8 "."
  | zeroDivisor => utf8 "Cannot divide by zero."
  | notCallable => utf8 "Can only call functions."
  | arity expected got =>
    utf8 "Expected " ++ Text.ofInt expected ++ utf8 " arguments but got " ++ Text.ofNat got
      ++ utf8 "."
  | depth name => utf8 "Stack overflow calling '" ++ name ++ utf8 "'."
  | valueFromVoid => utf8 "Function with void return type shouldn't return anything."
  | noReturn t =>
    utf8 "Function must return a value of type " ++ t.label
      ++ utf8 " or remove the return type of the function."
  | returnType t => utf8 "Return value must be of type " ++ t.label ++ utf8 "."
  | noLine => utf8 "No input available for SCAN."
  | noValue name => utf8 "Missing input value for '" ++ name ++ utf8 "'."
  | nativeArgument name t =>
    name ++ utf8 ": expected a FLOAT argument, got " ++ t.label ++ utf8 "."
  | nativeNoLine name => name ++ utf8 ": no input available."

end Cause

/-- A cause and the token it points at. -/
structure Fault where
  /-- What went wrong. -/
  cause : Cause
  /-- Where; a token that stands nowhere if that is not known yet. -/
  token : Token

namespace Fault

/-- A fault whose place is not known yet. -/
def unplaced (c : Cause) : Fault :=
  ⟨c, .absent⟩

/-- The kind of a fault. -/
def kind (f : Fault) : FaultKind :=
  f.cause.kind

/-- The wording of a fault, without its line. -/
def message (f : Fault) : Text :=
  f.cause.message

/-- The line of a fault, zero if it is not known. -/
def line (f : Fault) : Nat :=
  f.token.line

/-- The wording of a fault with its line, if that is known. -/
def text (f : Fault) : Text :=
  if 0 < f.line then utf8 "line " ++ Text.ofNat f.line ++ utf8 ": " ++ f.message else f.message

/-- The fault at the given token unless it has a line already. -/
def locate (f : Fault) (t : Token) : Fault :=
  if f.line = 0 then { f with token := t } else f

end Fault

/-- Why a run ends without a result. -/
inductive Failure where
  /-- The program is at fault. -/
  | fault (f : Fault)
  /-- Reading input failed during the named activity. -/
  | reader (during reason : Text)
  /-- A tree that no parser builds: an operator that is no prefix operator. -/
  | unaryOperator (k : Kind)
  /-- A tree that no parser builds: an operator that is no binary operator. -/
  | binaryOperator (k : Kind)
  /-- An entry of a list was asked for that the list does not have. -/
  | outOfRange
  /-- The steps granted to the run are used up. -/
  | exhausted

namespace Failure

/-- The wording of a failure. -/
def text : Failure → Text
  | fault f => f.text
  | reader during reason => during ++ utf8 ": " ++ reason
  | unaryOperator k => utf8 "unknown unary operator " ++ k.label
  | binaryOperator k => utf8 "unknown binary operator " ++ k.label
  | outOfRange => utf8 "index out of range"
  | exhausted => utf8 "out of steps"

/-- The fault inside a failure. -/
def fault? : Failure → Option Fault
  | fault f => some f
  | _ => none

/-- The failure with its fault located, unless that is located already. -/
def locate (e : Failure) (t : Token) : Failure :=
  match e with
  | fault f => fault (f.locate t)
  | e => e

end Failure

/-- The entry of a list at an index, which must be in range. -/
def entry {α : Type} (l : List α) (i : Nat) : Except Failure α :=
  match l[i]? with
  | some a => .ok a
  | none => .error .outOfRange

theorem entry_of_getElem? {α : Type} {l : List α} {i : Nat} {a : α} (ha : l[i]? = some a) :
    entry l i = .ok a := by
  unfold entry
  rw [ha]

theorem entry_of_none {α : Type} {l : List α} {i : Nat} (hi : l[i]? = none) :
    entry l i = .error .outOfRange := by
  unfold entry
  rw [hi]

theorem entry_eq_ok_iff {α : Type} {l : List α} {i : Nat} {a : α} :
    entry l i = .ok a ↔ l[i]? = some a := by
  unfold entry
  cases l[i]? <;> simp

end FencedCode
