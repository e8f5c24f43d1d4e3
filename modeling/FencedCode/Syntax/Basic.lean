import FencedCode.Token.Basic

/-!
# Syntax trees

Expressions and statements as the grammar builds them. Nodes keep the tokens that faults and
listings point at.
-/

namespace FencedCode

/-- An expression. -/
inductive Expr where
  /-- A literal; its value is the token's. -/
  | literal (token : Token)
  /-- An expression in parentheses, with the place of the opening one. -/
  | grouping (inner : Expr) (pos : Position)
  /-- A sign or a negation in front of an operand. -/
  | unary (op : Token) (operand : Expr)
  /-- Arithmetic, comparison, equality or concatenation. -/
  | binary (left : Expr) (op : Token) (right : Expr)
  /-- `AND` or `OR`, whose right side may stay unevaluated. -/
  | logical (left : Expr) (op : Token) (right : Expr)
  /-- A variable or function by its name. -/
  | ref (name : Token)
  /-- An assignment, which yields the value assigned. -/
  | assign (name : Token) (value : Expr)
  /-- A call, with its closing parenthesis. -/
  | call (callee : Expr) (paren : Token) (args : List Expr)
  deriving Inhabited

/-- The place of an expression. -/
def Expr.pos : Expr → Position
  | literal t => t.pos
  | grouping _ p => p
  | unary op _ => op.pos
  | binary _ op _ => op.pos
  | logical _ op _ => op.pos
  | ref n => n.pos
  | assign n _ => n.pos
  | call _ paren _ => paren.pos

/-- A type word where a program wrote it. -/
structure TypeName where
  /-- The type it names. -/
  type : BaseType
  /-- The word. -/
  token : Token

/-- A parameter of a function. -/
structure Param where
  /-- Its type. -/
  type : TypeName
  /-- Its name. -/
  name : Token

mutual

/-- A statement. -/
inductive Stmt where
  /-- An expression evaluated for its effects. -/
  | expression (e : Expr)
  /-- Writes a value on a line of its own. -/
  | display (keyword : Token) (e : Expr)
  /-- Reads one line into variables. -/
  | scan (keyword : Token) (names : List Token)
  /-- Runs its body if the condition holds, and one of the alternatives otherwise. -/
  | conditional (keyword : Token) (condition : Expr) (body : List Stmt) (others : Alternatives)
  /-- Repeats its body while the condition holds. -/
  | loop (keyword : Token) (condition : Expr) (body : List Stmt)
  /-- Runs its body in a scope of its own. -/
  | block (opening : Token) (body : List Stmt)
  /-- Declares a function; one without a result type returns nothing. -/
  | function (name : Token) (params : List Param) (body : List Stmt) (result : Option TypeName)
  /-- Leaves the current function, with or without a value. -/
  | ret (keyword : Token) (value : Option Expr)
  /-- Declares a variable. -/
  | declare (type : BaseType) (name : Token) (init : Option Expr) (isMutable : Bool)

/-- What a conditional does when its condition fails: conditions that are tested in turn, the bodies
    that belong to them, and the body that runs when none of them holds, if there is one. -/
inductive Alternatives where
  | mk (conditions : List Expr) (bodies : List (List Stmt)) (last : Option (List Stmt))

end

instance : Inhabited Stmt := ⟨.expression default⟩

namespace Alternatives

/-- The conditions. -/
def conditions : Alternatives → List Expr
  | mk conditions _ _ => conditions

/-- The bodies of the conditions, the first of which belongs to the first condition. -/
def bodies : Alternatives → List (List Stmt)
  | mk _ bodies _ => bodies

/-- The body without a condition. -/
def last : Alternatives → Option (List Stmt)
  | mk _ _ last => last

/-- Nothing. -/
def done : Alternatives :=
  mk [] [] none

/-- A body without a condition. -/
def otherwise (body : List Stmt) : Alternatives :=
  mk [] [] (some body)

/-- A condition with its body, in front of other alternatives. -/
def elseIf (condition : Expr) (body : List Stmt) (others : Alternatives) : Alternatives :=
  mk (condition :: others.conditions) (body :: others.bodies) others.last

end Alternatives

/-- The place of a statement. -/
def Stmt.pos : Stmt → Position
  | expression e => e.pos
  | display k _ => k.pos
  | scan k _ => k.pos
  | conditional k _ _ _ => k.pos
  | loop k _ _ => k.pos
  | block b _ => b.pos
  | function n _ _ _ => n.pos
  | ret k _ => k.pos
  | declare _ n _ _ => n.pos

end FencedCode
