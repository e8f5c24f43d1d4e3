import FencedCode.Syntax.Basic

/-!
# Outlines of syntax trees

A tree on one line: every node in parentheses as `(kind@line:column part …)`, every body in
braces.
-/

namespace FencedCode.Outline

/-- A node: its kind, its place and its parts. -/
def node (kind : String) (pos : Position) (parts : List Text) : Text :=
  40 :: utf8 kind ++ 64 :: pos.label ++ parts.flatMap (fun p => 32 :: p) ++ [41]

/-- A body in braces. -/
def braces (parts : List Text) : Text :=
  123 :: Text.join [32] parts ++ [125]

/-- A text with a place behind it. -/
def located (t : Text) (pos : Position) : Text :=
  t ++ 64 :: pos.label

/-- The sixteen hexadecimal digits of a float's bits. -/
def bits (x : Float) : Text :=
  if x.isNaN then utf8 "NaN" else Text.hex 16 x.toBits.toNat

/-- The parts of a literal. -/
def literal : Option Literal → List Text
  | none => [utf8 "null"]
  | some (.string t) => [utf8 "STRING", 34 :: t ++ [34]]
  | some (.char c) => [utf8 "CHAR", Text.ofInt c]
  | some (.int n) => [utf8 "INT", Text.ofInt n.toInt]
  | some (.float x) => [utf8 "FLOAT", bits x]
  | some (.bool b) => [utf8 "BOOL", boolText b]

mutual

/-- An expression. -/
def expr : Expr → Text
  | .literal t => node "lit" t.pos (literal t.literal)
  | .grouping e p => node "group" p [expr e]
  | .unary op e => node "unary" op.pos [op.kind.label, expr e]
  | .binary l op r => node "binary" op.pos [op.kind.label, expr l, expr r]
  | .logical l op r => node "logical" op.pos [op.kind.label, expr l, expr r]
  | .ref n => node "var" n.pos [n.lexeme]
  | .assign n e => node "assign" n.pos [n.lexeme, expr e]
  | .call callee paren args => node "call" paren.pos (expr callee :: exprs args)

/-- Expressions in order. -/
def exprs : List Expr → List Text
  | [] => []
  | e :: es => expr e :: exprs es

end

/-- A parameter. -/
def param (p : Param) : Text :=
  utf8 p.type.type.name ++ 58 :: located p.name.lexeme p.name.pos

/-- The result type of a function. -/
def result : Option TypeName → Text
  | none => utf8 "void"
  | some t => located (utf8 t.type.name) t.token.pos

mutual

/-- A statement. -/
def stmt : Stmt → Text
  | .expression e => node "expr" e.pos [expr e]
  | .display k e => node "display" k.pos [expr e]
  | .scan k names => node "scan" k.pos (names.map fun n => located n.lexeme n.pos)
  | .conditional k c body (.mk conditions further last) =>
    node "if" k.pos
      (expr c :: braces (stmts body) :: furtherBodies conditions further ++ lastBody last)
  | .loop k c body => node "while" k.pos [expr c, braces (stmts body)]
  | .block b body => node "block" b.pos [braces (stmts body)]
  | .function n params body r =>
    node "fn" n.pos (n.lexeme :: result r :: params.map param ++ [braces (stmts body)])
  | .ret k none => node "return" k.pos []
  | .ret k (some e) => node "return" k.pos [expr e]
  | .declare t n init m =>
    node "decl" n.pos
      (utf8 t.name :: n.lexeme :: utf8 (if m then "mut" else "immut")
        :: (init.map expr).toList)

/-- Statements in order. -/
def stmts : List Stmt → List Text
  | [] => []
  | s :: ss => stmt s :: stmts ss

/-- The bodies of further conditions, each behind its condition. -/
def furtherBodies : List Expr → List (List Stmt) → List Text
  | c :: conditions, body :: further =>
    utf8 "elseif" :: expr c :: braces (stmts body) :: furtherBodies conditions further
  | _, _ => []

/-- The body without a condition. -/
def lastBody : Option (List Stmt) → List Text
  | none => []
  | some body => [utf8 "else", braces (stmts body)]

end

end FencedCode.Outline
