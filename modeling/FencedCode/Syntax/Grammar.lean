import FencedCode.Syntax.Cursor
import FencedCode.Token.Scan

/-!
# The grammar

Recursive descent over a cursor. Every rule takes `room`, a bound on how deep rules may nest; the
room that `Program.ofTokens` provides grows with the number of tokens. A rule without room
complains like any other failing rule.

A program is its functions and then `BEGIN CODE … END CODE`. In bodies of functions and blocks
come declarations, then functions, then statements; in the other fenced bodies only statements.
-/

namespace FencedCode

/-! ## 1. Levels of binary operators -/

/-- The levels of binary operators, the loosest first. -/
inductive Level where
  | or
  | and
  | equality
  | comparison
  | sum
  | product
  deriving DecidableEq, Repr

namespace Level

/-- The next tighter level; the tightest one has unary expressions as its operands. -/
def tighter : Level → Option Level
  | or => some and
  | and => some equality
  | equality => some comparison
  | comparison => some sum
  | sum => some product
  | product => none

/-- Is the kind an operator of the level? -/
def has : Level → Kind → Bool
  | or, k => k = .kwOr
  | and, k => k = .kwAnd
  | equality, k => k = .equalEqual ∨ k = .notEqual
  | comparison, k => k = .greater ∨ k = .greaterEqual ∨ k = .less ∨ k = .lessEqual
  | sum, k => k = .plus ∨ k = .minus ∨ k = .ampersand
  | product, k => k = .star ∨ k = .slash ∨ k = .percent

/-- The expression of an operator of the level. -/
def combine : Level → Expr → Token → Expr → Expr
  | or, l, op, r => .logical l op r
  | and, l, op, r => .logical l op r
  | _, l, op, r => .binary l op r

end Level

/-- The most parameters or arguments a function may have. -/
def maxArgs : Nat := 255

namespace Grammar

open Parse

/-- Is the kind a prefix operator? -/
def isSign (k : Kind) : Bool :=
  k = .kwNot ∨ k = .minus ∨ k = .plus

/-- Does the kind start a declaration? -/
def startsDeclaration : Kind → Bool
  | .type _ | .kwImmut => true
  | _ => false

/-- Is the kind a literal? -/
def isLiteral : Kind → Bool
  | .trueLit | .falseLit | .nullLit | .stringLit | .charLit | .intLit | .floatLit | .newline =>
    true
  | _ => false

/-! ## 2. Expressions -/

mutual

/-- An assignment or anything that binds tighter. -/
def expression : Nat → Parse Expr
  | 0 => fail .nesting
  | room + 1 => do
    let e ← operand room (some .or)
    let op ← peek
    if op.kind = .assign then
      skip
      let value ← expression room
      match e with
      | .ref name => pure (.assign name value)
      | _ =>
        complain op .assignmentTarget
        pure e
    else pure e

/-- A chain of operators of a level, or with no level a unary expression. -/
def operand : Nat → Option Level → Parse Expr
  | 0, _ => fail .nesting
  | room + 1, none => unary room
  | room + 1, some l => do
    let left ← operand room l.tighter
    chain room l left

/-- Continues a chain of operators of a level, from the left. -/
def chain : Nat → Level → Expr → Parse Expr
  | 0, _, _ => fail .nesting
  | room + 1, l, left => do
    let op ← peek
    if l.has op.kind then
      skip
      let right ← operand room l.tighter
      chain room l (l.combine left op right)
    else pure left

/-- Prefix operators, then a call. -/
def unary : Nat → Parse Expr
  | 0 => fail .nesting
  | room + 1 => do
    let op ← peek
    if isSign op.kind then
      skip
      let e ← unary room
      pure (.unary op e)
    else
      let e ← primary room
      calls room e

/-- Argument lists behind a callee, from the left. -/
def calls : Nat → Expr → Parse Expr
  | 0, _ => fail .nesting
  | room + 1, callee => do
    if ← accept .leftParen then
      let t ← peek
      let args ← if t.kind = .rightParen then pure [] else arguments room 0
      let paren ← expect .rightParen .parenAfterArguments
      calls room (.call callee paren args)
    else pure callee

/-- Arguments separated by commas, `count` of them being read already. -/
def arguments : Nat → Nat → Parse (List Expr)
  | 0, _ => fail .nesting
  | room + 1, count => do
    let t ← peek
    if maxArgs ≤ count then
      complain t .tooManyArguments
    let arg ← expression room
    if ← accept .comma then
      let more ← arguments room (count + 1)
      pure (arg :: more)
    else pure [arg]

/-- A literal, a name, or an expression in parentheses. -/
def primary : Nat → Parse Expr
  | 0 => fail .nesting
  | room + 1 => do
    let t ← peek
    if isLiteral t.kind then
      skip
      pure (.literal t)
    else if t.kind = .identifier then
      skip
      pure (.ref t)
    else if t.kind = .leftParen then
      skip
      let e ← expression room
      let _ ← expect .rightParen .parenAfterExpression
      pure (.grouping e t.pos)
    else failAt t .expression

end

/-! ## 3. Declarations -/

/-- Names with or without initial values, separated by commas. -/
def declarators (type : BaseType) (isMutable : Bool) : Nat → Parse (List Stmt)
  | 0 => fail .nesting
  | room + 1 => do
    let name ← expect .identifier .variableName
    let init ← if ← accept .assign then some <$> expression room else pure none
    let declared : Stmt := .declare type name init isMutable
    if ← accept .comma then
      let more ← declarators type isMutable room
      pure (declared :: more)
    else pure [declared]

/-- A typed declaration of one or more variables. -/
def declaration (room : Nat) : Parse (List Stmt) := do
  let immutable ← accept .kwImmut
  let t ← peek
  match t.kind.type? with
  | none => failAt t .typeAfterImmut
  | some type =>
    skip
    let declared ← declarators type (!immutable) room
    let _ ← accept .semicolon
    pure declared

/-- The declarations at the head of a body. -/
def declarations : Nat → Parse (List Stmt)
  | 0 => fail .nesting
  | room + 1 => do
    let t ← peek
    if startsDeclaration t.kind then
      let declared ← orRecover (declaration room) Cursor.synchronize
      let more ← declarations room
      pure (declared.getD [] ++ more)
    else pure []

/-- Parameters separated by commas, `count` of them being read already. -/
def parameters : Nat → Nat → Parse (List Param)
  | 0, _ => fail .nesting
  | room + 1, count => do
    let t ← peek
    if maxArgs ≤ count then
      complain t .tooManyParameters
    match t.kind.type? with
    | none => failAt t .parameterType
    | some type =>
      skip
      let name ← expect .identifier .parameterName
      let param : Param := ⟨⟨type, t⟩, name⟩
      if ← accept .comma then
        let more ← parameters room (count + 1)
        pure (param :: more)
      else pure [param]

/-- A condition in parentheses. -/
def condition (room : Nat) (keyword : String) : Parse Expr := do
  let _ ← expect .leftParen (.parenAfter keyword)
  let e ← expression room
  let _ ← expect .rightParen .parenAfterCondition
  pure e

/-! ## 4. Statements -/

/-- Names separated by commas. -/
def names : Nat → Parse (List Token)
  | 0 => fail .nesting
  | room + 1 => do
    let name ← expect .identifier .identifierAfterScan
    if ← accept .comma then
      let more ← names room
      pure (name :: more)
    else pure [name]

/-- `DISPLAY: e` -/
def display (room : Nat) : Parse Stmt := do
  let keyword ← take
  let _ ← expect .colon .colonAfterDisplay
  let e ← expression room
  pure (.display keyword e)

/-- `SCAN: a, b` -/
def scan (room : Nat) : Parse Stmt := do
  let keyword ← take
  let _ ← expect .colon .colonAfterScan
  let ns ← names room
  pure (.scan keyword ns)

/-- Can the kind not start the value of a `RETURN`? -/
def endsReturn : Kind → Bool
  | .eof | .kwEnd | .semicolon | .kwElse | .kwBegin | .kwDisplay | .kwScan | .kwIf | .kwWhile
  | .kwReturn => true
  | _ => false

/-- `RETURN`, with a value if one starts on the same line. -/
def ret (room : Nat) : Parse Stmt := do
  let keyword ← take
  let t ← peek
  if t.pos.line = keyword.pos.line ∧ endsReturn t.kind = false then
    let e ← expression room
    pure (.ret keyword (some e))
  else pure (.ret keyword none)

mutual

/-- A statement. -/
def statement : Nat → Parse Stmt
  | 0 => fail .nesting
  | room + 1 => do
    let t ← peek
    match t.kind with
    | .kwDisplay => display room
    | .kwScan => scan room
    | .kwReturn => ret room
    | .kwIf => conditional room
    | .kwWhile => loop room
    | .kwBegin => block room
    | .type _ | .kwImmut => failAt t .declarationTooLate
    | .kwFn => failAt t .functionTooLate
    | _ =>
      let e ← expression room
      pure (.expression e)

/-- Statements up to an `END`. -/
def statements : Nat → Parse (List Stmt)
  | 0 => fail .nesting
  | room + 1 => do
    let t ← peek
    if t.kind = .eof ∨ t.kind = .kwEnd then pure []
    else if t.kind = .semicolon then
      skip
      statements room
    else
      match ← orRecover (statement room) Cursor.synchronize with
      | none => statements room
      | some s =>
        let _ ← accept .semicolon
        let more ← statements room
        pure (s :: more)

/-- `IF (c) BEGIN IF … END IF` and its alternatives. -/
def conditional : Nat → Parse Stmt
  | 0 => fail .nesting
  | room + 1 => do
    let keyword ← take
    let c ← condition room "IF"
    let body ← fenced room .kwIf
    let others ← alternatives room
    pure (.conditional keyword c body others)

/-- The alternatives of a conditional. -/
def alternatives : Nat → Parse Alternatives
  | 0 => fail .nesting
  | room + 1 => do
    let t ← peek
    let u ← peekNext
    if t.kind = .kwElse then
      skip
      if u.kind = .kwIf then
        skip
        let c ← condition room "ELSE IF"
        let body ← fenced room .kwIf
        let others ← alternatives room
        pure (.elseIf c body others)
      else
        let body ← fenced room .kwIf
        pure (.otherwise body)
    else pure .done

/-- `WHILE (c) BEGIN WHILE … END WHILE` -/
def loop : Nat → Parse Stmt
  | 0 => fail .nesting
  | room + 1 => do
    let keyword ← take
    let c ← condition room "WHILE"
    let body ← fenced room .kwWhile
    pure (.loop keyword c body)

/-- `BEGIN … END` -/
def block : Nat → Parse Stmt
  | 0 => fail .nesting
  | room + 1 => do
    let opening ← take
    let inner ← body room true
    let _ ← expect .kwEnd .endAfterBlock
    pure (.block opening inner)

/-- Statements between `BEGIN` and `END`, each followed by the fence. -/
def fenced : Nat → Kind → Parse (List Stmt)
  | 0, _ => fail .nesting
  | room + 1, fence => do
    let _ ← expect .kwBegin .beginAfterCondition
    let _ ← expect fence (.fenceAfterBegin fence)
    let inner ← statements room
    let _ ← expect .kwEnd .endAfterStatements
    let _ ← expect fence (.fenceAfterEnd fence)
    pure inner

/-- Declarations, functions where they are allowed, and statements. -/
def body : Nat → Bool → Parse (List Stmt)
  | 0, _ => fail .nesting
  | room + 1, withFunctions => do
    let declared ← declarations room
    let fns ← if withFunctions then functions room else pure []
    let inner ← statements room
    pure (declared ++ fns ++ inner)

/-- Function declarations, one after another. -/
def functions : Nat → Parse (List Stmt)
  | 0 => fail .nesting
  | room + 1 => do
    if ← accept .kwFn then
      let f ← orRecover (function room) Cursor.skipFunction
      let more ← functions room
      pure (f.toList ++ more)
    else pure []

/-- A function declaration behind its `FN`. -/
def function : Nat → Parse Stmt
  | 0 => fail .nesting
  | room + 1 => do
    let t ← peek
    let result : Option TypeName ←
      match t.kind.type? with
      | some type => do
        skip
        pure (some ⟨type, t⟩)
      | none => pure none
    let name ← expect .identifier .functionName
    let _ ← expect .leftParen .parenAfterFunctionName
    let u ← peek
    let params ← if u.kind = .rightParen then pure [] else parameters room 0
    let _ ← expect .rightParen .parenAfterParameters
    let _ ← expect .kwBegin .beginBeforeFunctionBody
    let _ ← expect .kwFn .fnAfterBegin
    let inner ← body room true
    let _ ← expect .kwEnd .endAfterFunctionBody
    let _ ← expect .kwFn .fnAfterEnd
    pure (.function name params inner result)

end

/-! ## 5. Programs -/

/-- Takes a token of the given kind, or complains and tells that it is missing. -/
def fence (k : Kind) (e : SyntaxError) : Parse Bool := do
  let t ← orRecover (expect k e) id
  pure t.isSome

/-- A program. When one of its fences is missing, what was read so far is the result. -/
def program (room : Nat) : Parse (List Stmt) := do
  let fns ← functions room
  if !(← fence .kwBegin .beginOfProgram) then return fns
  if !(← fence .kwCode .codeAfterBegin) then return fns
  let main ← body room false
  if !(← fence .kwEnd .endOfProgram) then return fns ++ main
  if !(← fence .kwCode .codeAfterEnd) then return fns ++ main
  let t ← peek
  if t.kind ≠ .eof then
    complain t .nothingAfterProgram
  return fns ++ main

end Grammar

/-! ## 6. From text to tree -/

/-- A program as far as it could be read. -/
structure Program where
  /-- Its statements, function declarations first. -/
  stmts : List Stmt
  /-- The complaints; without any, the program is complete and correct. -/
  diagnostics : List Diagnostic

namespace Program

/-- Room enough for any nesting that so many tokens can hold. -/
def roomFor (tokens : Nat) : Nat :=
  16 * (tokens + 4)

/-- Parses a list of tokens. -/
def ofTokens (ts : List Token) : Program :=
  let (stmts, c) := Grammar.program (roomFor ts.length) (.ofTokens ts)
  ⟨stmts.getD [], c.reported.reverse⟩

/-- Scans and parses a text; the lexical complaints come first. -/
def ofText (t : Text) : Program :=
  let scan := Scan.ofText t
  let parsed := ofTokens scan.tokens
  ⟨parsed.stmts, scan.diagnostics ++ parsed.diagnostics⟩

end Program

end FencedCode
