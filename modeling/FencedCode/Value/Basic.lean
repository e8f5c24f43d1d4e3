import FencedCode.Syntax.Basic

/-!
# Values

What expressions yield: null, the five base types, and functions. A function value holds
something that can be called; two of them are equal when they hold the same thing, not merely a
function of the same text.
-/

namespace FencedCode

/-! ## 1. Types of values -/

/-- The type of a value or of a binding. -/
inductive ValueType where
  | null
  | base (t : BaseType)
  | function
  /-- A type that only a host can make, by its number. -/
  | other (tag : Int)
  deriving DecidableEq, Repr, Inhabited

namespace ValueType

/-- The name of a type. -/
def name : ValueType → String
  | null => "null"
  | base t => t.name
  | function => "function"
  | other _ => "unknown"

/-- The name as a text. -/
def label (t : ValueType) : Text :=
  utf8 t.name

/-- The types in the order of their numbers. -/
def numbered : List ValueType :=
  [null, base .string, base .char, base .int, base .float, base .bool, function]

/-- The type with the given number. -/
def ofNumber : Int → ValueType
  | .ofNat n => numbered.getD n (other n)
  | .negSucc n => other (.negSucc n)

end ValueType

/-! ## 2. Things that can be called -/

/-- A function that a program declared. -/
structure Function where
  /-- Its name, where it was declared. -/
  name : Token
  /-- Its parameters. -/
  params : List Param
  /-- Its statements. -/
  body : List Stmt
  /-- Its result type, if it returns anything. -/
  result : Option TypeName

/-- A function that the host provides. -/
inductive Native where
  | clock
  | ceil
  | floor
  | sqrt
  | abs
  | power
  | scanString
  /-- Records its argument and returns it. -/
  | probe
  /-- Returns the number of its arguments. Functions with different serial numbers are
      different functions. -/
  | counter (name : Text) (arity : Int) (serial : Nat)
  deriving DecidableEq

namespace Native

/-- The name a native is known by. -/
def name : Native → Text
  | clock => utf8 "clock"
  | ceil => utf8 "ceil"
  | floor => utf8 "floor"
  | sqrt => utf8 "sqrt"
  | abs => utf8 "abs"
  | power => utf8 "pow"
  | scanString => utf8 "scanString"
  | probe => utf8 "probe"
  | counter n _ _ => n

/-- The number of arguments a native takes. -/
def arity : Native → Int
  | clock => 0
  | power => 2
  | counter _ n _ => n
  | _ => 1

/-- The natives every program finds. -/
def standard : List Native :=
  [clock, ceil, floor, sqrt, abs, power, scanString]

end Native

/-- Something that can be called. -/
inductive Callable where
  /-- A declared function. Copies with different serial numbers are different functions. -/
  | user (f : Function) (copy : Nat)
  | native (n : Native)

namespace Callable

/-- The name of a callable. -/
def name : Callable → Text
  | user f _ => f.name.lexeme
  | native n => n.name

/-- The number of arguments a callable takes. -/
def arity : Callable → Int
  | user f _ => f.params.length
  | native n => n.arity

/-- How a callable is displayed. -/
def text : Callable → Text
  | user f _ => utf8 "<fn " ++ f.name.lexeme ++ utf8 ">"
  | native _ => utf8 "<native fn>"

/-- Are two callables the same? Declared functions are the same when they come from one
    declaration, which its name and place identify. -/
def same : Callable → Callable → Bool
  | user f i, user g j => f.name.lexeme = g.name.lexeme && f.name.pos = g.name.pos && i = j
  | native m, native n => m = n
  | _, _ => false

end Callable

/-! ## 3. Values -/

/-- A value. -/
inductive Value where
  | null
  | string (text : Text)
  /-- A character, by its code point; a host may give a number that is none. -/
  | char (code : Int)
  | int (n : Int64)
  | float (x : Float)
  | bool (b : Bool)
  /-- A function; one that a host makes may hold nothing to call. -/
  | function (target : Option Callable)
  /-- A value of a type that only a host can make. -/
  | other (tag : Int)
  deriving Inhabited

namespace Value

/-- The type of a value. -/
def type : Value → ValueType
  | null => .null
  | string _ => .base .string
  | char _ => .base .char
  | int _ => .base .int
  | float _ => .base .float
  | bool _ => .base .bool
  | function _ => .function
  | other tag => .other tag

/-- The value of a literal. -/
def ofLiteral : Literal → Value
  | .string t => string t
  | .char c => char c
  | .int n => int n
  | .float x => float x
  | .bool b => bool b

/-- The value of a token's literal, null where it has none. -/
def ofLiteral? (l : Option Literal) : Value :=
  (l.map ofLiteral).getD null

/-- The value of a type without content: the empty text, zero, false. -/
def zero : ValueType → Value
  | .null => null
  | .base .string => string []
  | .base .char => char 0
  | .base .int => int 0
  | .base .float => float 0
  | .base .bool => bool false
  | .function => function none
  | .other tag => other tag

/-- Does a condition with this value hold? Only null and false fail it. -/
def isTruthy : Value → Bool
  | null => false
  | bool b => b
  | _ => true

/-- Equality as programs test it. Values of different types are never equal. -/
def equal : Value → Value → Bool
  | null, null => true
  | string a, string b => a = b
  | char a, char b => a = b
  | int a, int b => a = b
  | float a, float b => a == b
  | bool a, bool b => a = b
  | function (some a), function (some b) => a.same b
  | function none, function none => true
  | _, _ => false

/-- A value as it is displayed. -/
def text : Value → Text
  | null => utf8 "null"
  | string t => t
  | char c => String.utf8EncodeChar (charOfCode c)
  | int n => Text.ofInt n.toInt
  | float x => Decimal.display x
  | bool b => utf8 (if b then "TRUE" else "FALSE")
  | function (some c) => c.text
  | function none => utf8 "<fn>"
  | other _ => utf8 "<unknown>"

/-- What a function value holds to be called. -/
def callable? : Value → Option Callable
  | function target => target
  | _ => none

/-! ## 4. Small facts -/

theorem type_eq_of_equal {a b : Value} (h : a.equal b = true) : a.type = b.type := by
  cases a with
  | function t => cases b with
    | function u => rfl
    | _ => cases t <;> simp [equal] at h
  | _ => cases b <;> simp_all [equal, type]

end Value

end FencedCode
