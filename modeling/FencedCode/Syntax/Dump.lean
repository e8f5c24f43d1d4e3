import FencedCode.Syntax.Basic

/-!
# Dumps of syntax trees

A tree with one field per line, indented by two blanks per level. A dump is first built as a
`Sheet`, whose nesting is explicit, and then laid out. The layout is that of a library for dumps,
for which sheets stand.
-/

namespace FencedCode

/-! ## 1. Sheets -/

/-- Text whose nested parts are still apart. -/
inductive Sheet where
  /-- Text on one line. -/
  | leaf (text : Text)
  /-- Parts on lines of their own between an opening and a closing text. -/
  | group (opening : Text) (parts : List Sheet) (closing : Text)
  /-- A part with a name in front. -/
  | field (name : Text) (part : Sheet)

namespace Sheet

/-- The blanks in front of a line at a level. -/
def indent (level : Nat) : Text :=
  List.replicate (2 * level) 32

mutual

/-- The text of a sheet whose first line is already indented to its level. -/
def layout (level : Nat) : Sheet → Text
  | leaf t => t
  | field name part => name ++ utf8 ": " ++ layout level part
  | group opening parts closing =>
    opening ++ 10 :: layoutAll (level + 1) parts ++ indent level ++ closing

/-- Parts on lines of their own, with commas between them. -/
def layoutAll (level : Nat) : List Sheet → Text
  | [] => []
  | [s] => indent level ++ layout level s ++ [10]
  | s :: rest => indent level ++ layout level s ++ utf8 ",\n" ++ layoutAll level rest

end

/-- A node: its kind and its fields. -/
def node (kind : String) (parts : List Sheet) : Sheet :=
  group (utf8 "(*parser." ++ utf8 kind ++ utf8 ")(\x7b") parts (utf8 "\x7d)")

/-- A record: its type and its fields. -/
def record (type : String) (parts : List Sheet) : Sheet :=
  group (utf8 "(parser." ++ utf8 type ++ utf8 ") \x7b") parts (utf8 "\x7d")

/-- A list that is present, with its length unless that is zero. -/
def listing (type : String) (parts : List Sheet) : Sheet :=
  let size := if parts.isEmpty then [] else utf8 "(len=" ++ Text.ofNat parts.length ++ utf8 ") "
  group (utf8 "([]" ++ utf8 type ++ utf8 ") " ++ size ++ utf8 "\x7b") parts (utf8 "\x7d")

/-- A list that is absent. -/
def absent (type : String) : Sheet :=
  leaf (utf8 "([]" ++ utf8 type ++ utf8 ") <nil>")

/-- A list that counts as absent when it is empty. -/
def list (type : String) (parts : List Sheet) : Sheet :=
  if parts.isEmpty then absent type else listing type parts

/-- A named part. -/
def named (name : String) (part : Sheet) : Sheet :=
  field (utf8 name) part

/-- A token. -/
def token (t : Token) : Sheet :=
  leaf (utf8 "(parser.Token) " ++ t.text)

/-- The value of a literal. -/
def literal : Option Literal → Sheet
  | none => leaf (utf8 "(interface \x7b\x7d) <nil>")
  | some (.string t) =>
    let size := if t.isEmpty then [] else utf8 "(len=" ++ Text.ofNat t.length ++ utf8 ") "
    leaf (utf8 "(string) " ++ size ++ Text.quoted t)
  | some (.char c) => leaf (utf8 "(int32) " ++ Text.ofInt c)
  | some (.int n) => leaf (utf8 "(int64) " ++ Text.ofInt n.toInt)
  | some (.float x) => leaf (utf8 "(float64) " ++ Decimal.listing x)
  | some (.bool b) => leaf (utf8 "(bool) " ++ boolText b)

/-! ## 2. Expressions -/

mutual

/-- An expression. -/
def expr : Expr → Sheet
  | .literal t => node "LiteralExpr" [named "Value" (literal t.literal), named "Token" (token t)]
  | .grouping e p =>
    node "GroupingExpr"
      [named "Expr" (expr e), named "Posn" (leaf (utf8 "(parser.Position) " ++ p.label))]
  | .unary op e => node "UnaryExpr" [named "Op" (token op), named "Operand" (expr e)]
  | .binary l op r =>
    node "BinaryExpr" [named "Left" (expr l), named "Op" (token op), named "Right" (expr r)]
  | .logical l op r =>
    node "LogicalExpr" [named "Left" (expr l), named "Op" (token op), named "Right" (expr r)]
  | .ref n => node "VariableExpr" [named "Name" (token n)]
  | .assign n e => node "AssignExpr" [named "Name" (token n), named "Value" (expr e)]
  | .call callee paren args =>
    node "CallExpr"
      [named "Callee" (expr callee), named "Paren" (token paren),
       named "Args" (list "parser.Expr" (exprs args))]

/-- Expressions in order. -/
def exprs : List Expr → List Sheet
  | [] => []
  | e :: es => expr e :: exprs es

end

/-- An expression that may be missing. -/
def expr? : Option Expr → Sheet
  | none => leaf (utf8 "(parser.Expr) <nil>")
  | some e => expr e

/-! ## 3. Statements -/

/-- A parameter. -/
def param (p : Param) : Sheet :=
  record "Param" [named "Type" (token p.type.token), named "Name" (token p.name)]

/-- The result type of a function. -/
def result : Option TypeName → Sheet
  | none => leaf (utf8 "(*parser.Token)(<nil>)")
  | some t => leaf (utf8 "(*parser.Token)(" ++ t.token.text ++ utf8 ")")

/-- The kind of a declaration. -/
def declarationKind : BaseType → String
  | .string => "StringDecl"
  | .char => "CharDecl"
  | .int => "IntDecl"
  | .float => "FloatDecl"
  | .bool => "BoolDecl"

mutual

/-- A statement. -/
def stmt : Stmt → Sheet
  | .expression e => node "ExprStmt" [named "Expr" (expr e)]
  | .display k e => node "DisplayStmt" [named "Keyword" (token k), named "Expr" (expr e)]
  | .scan k names =>
    node "ScanStmt"
      [named "Keyword" (token k), named "Names" (list "parser.Token" (names.map token))]
  | .conditional k c body (.mk conditions further last) =>
    node "IfStmt"
      [named "Keyword" (token k), named "Cond" (expr c),
       named "Then" (list "parser.Stmt" (stmts body)),
       named "ElseIfConds" (list "parser.Expr" (exprs conditions)),
       named "ElseIfBodies" (list "[]parser.Stmt" (bodies further)),
       named "Else" (lastBody last)]
  | .loop k c body =>
    node "WhileStmt"
      [named "Keyword" (token k), named "Cond" (expr c),
       named "Body" (list "parser.Stmt" (stmts body))]
  | .block b body =>
    node "BlockStmt"
      [named "Begin" (token b), named "Stmts" (list "parser.Stmt" (stmts body))]
  | .function n params body r =>
    node "FuncDecl"
      [named "Name" (token n), named "Params" (list "parser.Param" (params.map param)),
       named "Body" (list "parser.Stmt" (stmts body)), named "ReturnType" (result r)]
  | .ret k value => node "ReturnStmt" [named "Keyword" (token k), named "Value" (expr? value)]
  | .declare t n init m =>
    node (declarationKind t)
      [named "Declaration"
        (record "Declaration"
          [named "Name" (token n), named "Init" (expr? init),
           named "Mutable" (leaf (utf8 "(bool) " ++ boolText m))])]

/-- Statements in order. -/
def stmts : List Stmt → List Sheet
  | [] => []
  | s :: ss => stmt s :: stmts ss

/-- The bodies of further conditions. -/
def bodies : List (List Stmt) → List Sheet
  | [] => []
  | body :: further => list "parser.Stmt" (stmts body) :: bodies further

/-- The body without a condition; an empty one is present all the same. -/
def lastBody : Option (List Stmt) → Sheet
  | none => absent "parser.Stmt"
  | some body => listing "parser.Stmt" (stmts body)

end

/-- The dump of a program, one line feed at its end. -/
def ofProgram (ss : List Stmt) : Text :=
  Text.line (layout 0 (list "parser.Stmt" (stmts ss)))

end Sheet

end FencedCode
