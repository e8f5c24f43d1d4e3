import FencedCode.Fault
import FencedCode.Number.Power
import FencedCode.Number.Remainder

/-!
# Operators

What operators do with values. Arithmetic takes two integers or two floats; integers wrap around
at 64 bits, and division goes toward zero.
-/

namespace FencedCode.Operator

/-- A fault at an operator. -/
def fault {α : Type} (c : Cause) (op : Token) : Except Failure α :=
  .error (.fault ⟨c, op⟩)

/-- A prefix operator. -/
def unary (op : Token) (v : Value) : Except Failure Value :=
  match op.kind, v with
  | .kwNot, v => .ok (.bool (!v.isTruthy))
  | .minus, .int n => .ok (.int (-n))
  | .minus, .float x => .ok (.float (-x))
  | .plus, .int n => .ok (.int n)
  | .plus, .float x => .ok (.float x)
  | .minus, _ => fault .operand op
  | .plus, _ => fault .operand op
  | k, _ => .error (.unaryOperator k)

/-- Arithmetic and comparison of integers. -/
def onInts (op : Token) (a b : Int64) : Except Failure Value :=
  match op.kind with
  | .plus => .ok (.int (a + b))
  | .minus => .ok (.int (a - b))
  | .star => .ok (.int (a * b))
  | .slash => if b = 0 then fault .zeroDivisor op else .ok (.int (a / b))
  | .percent => if b = 0 then fault .zeroDivisor op else .ok (.int (a % b))
  | .greater => .ok (.bool (b < a))
  | .greaterEqual => .ok (.bool (b ≤ a))
  | .less => .ok (.bool (a < b))
  | .lessEqual => .ok (.bool (a ≤ b))
  | k => .error (.binaryOperator k)

/-- Arithmetic and comparison of floats. -/
def onFloats (op : Token) (a b : Float) : Except Failure Value :=
  match op.kind with
  | .plus => .ok (.float (a + b))
  | .minus => .ok (.float (a - b))
  | .star => .ok (.float (a * b))
  | .slash => if b == 0 then fault .zeroDivisor op else .ok (.float (a / b))
  | .percent => if b == 0 then fault .zeroDivisor op else .ok (.float (Number.remainder a b))
  | .greater => .ok (.bool (b < a))
  | .greaterEqual => .ok (.bool (b ≤ a))
  | .less => .ok (.bool (a < b))
  | .lessEqual => .ok (.bool (a ≤ b))
  | k => .error (.binaryOperator k)

/-- A binary operator. -/
def binary (op : Token) (a b : Value) : Except Failure Value :=
  match op.kind with
  | .ampersand => .ok (.string (a.text ++ b.text))
  | .equalEqual => .ok (.bool (a.equal b))
  | .notEqual => .ok (.bool (!a.equal b))
  | _ =>
    match a, b with
    | .int m, .int n => onInts op m n
    | .float x, .float y => onFloats op x y
    | a, b => fault (.operands a.type b.type) op

end FencedCode.Operator
