import FencedCode.Proofs.Syntax.Rules

/-!
# What a rule does, step by step

A rule of the grammar tells what comes out of it, but not which rules it has called on the way and
where. A script does: it is a list of steps, each of which looks at a token, passes the current one,
complains, or calls a rule and goes on by what that has given.

* `Rule` -- the rules of the grammar and the loops of the recoveries, with what they are given
  besides the room, and what they give;
* `Script`, `Script.run` -- scripts, and what running one comes to;
* `Script.ofRule` -- the script of each rule;
* `Rule.run_eq` -- **every rule that has room left does what its script says**;
* `Rule.induct` -- what the rules have in common, by induction on the room.
-/

namespace FencedCode.Grammar

open Parse

/-! ## 1. Rules -/

/-- A rule of the grammar, or a loop of a recovery. -/
inductive Rule where
  | expression
  | operand (l : Option Level)
  | chain (l : Level)
  | unary
  | calls
  | arguments
  | primary
  | declarators
  | declaration
  | declarations
  | parameters
  | condition
  | names
  | display
  | scan
  | ret
  | statement
  | statements
  | conditional
  | alternatives
  | loop
  | block
  | fenced
  | body
  | functions
  | function
  | program
  | synchronize
  /-- The search of `synchronize` for a boundary. -/
  | boundary
  | skipFunction
  deriving DecidableEq

namespace Rule

/-- What a rule is given besides the room. -/
abbrev Given : Rule → Type
  | chain _ | calls => Expr
  | arguments | parameters => Nat
  | declarators => BaseType × Bool
  | condition => String
  | fenced => Kind
  | body => Bool
  | _ => Unit

/-- What a rule gives when it succeeds. -/
abbrev Result : Rule → Type
  | expression | operand _ | chain _ | unary | calls | primary | condition => Expr
  | arguments => List Expr
  | parameters => List Param
  | names => List Token
  | alternatives => Alternatives
  | display | scan | ret | statement | conditional | loop | block | function => Stmt
  | synchronize | boundary | skipFunction => Unit
  | declarators | declaration | declarations | statements | fenced | body | functions
  | program => List Stmt

/-- The rule itself. -/
def run (room : Nat) : (r : Rule) → r.Given → Parse r.Result
  | expression, _ => Grammar.expression room
  | operand l, _ => Grammar.operand room l
  | chain l, left => Grammar.chain room l left
  | unary, _ => Grammar.unary room
  | calls, callee => Grammar.calls room callee
  | arguments, count => Grammar.arguments room count
  | primary, _ => Grammar.primary room
  | declarators, (type, isMutable) => Grammar.declarators type isMutable room
  | declaration, _ => Grammar.declaration room
  | declarations, _ => Grammar.declarations room
  | parameters, count => Grammar.parameters room count
  | condition, keyword => Grammar.condition room keyword
  | names, _ => Grammar.names room
  | display, _ => Grammar.display room
  | scan, _ => Grammar.scan room
  | ret, _ => Grammar.ret room
  | statement, _ => Grammar.statement room
  | statements, _ => Grammar.statements room
  | conditional, _ => Grammar.conditional room
  | alternatives, _ => Grammar.alternatives room
  | loop, _ => Grammar.loop room
  | block, _ => Grammar.block room
  | fenced, fence => Grammar.fenced room fence
  | body, withFunctions => Grammar.body room withFunctions
  | functions, _ => Grammar.functions room
  | function, _ => Grammar.function room
  | program, _ => Grammar.program room
  | synchronize, _ => fun c => (some (), c.synchronize)
  | boundary, _ => fun c => (some (), c.walked Cursor.toBoundary)
  | skipFunction, _ => fun c => (some (), c.skipFunction)

end Rule

/-! ## 2. Scripts -/

/-- Steps of the parser, one after another. -/
inductive Script (α : Type) where
  | done (a : α)
  | failed
  | look (next : Token → Script α)
  | lookNext (next : Token → Script α)
  | lookBack (next : Token → Script α)
  | skip (next : Script α)
  | complain (t : Token) (e : SyntaxError) (next : Script α)
  | call (r : Rule) (given : r.Given) (next : Option r.Result → Script α)

namespace Script

variable {α β : Type}

/-- One script after another; a failure ends both. -/
protected def bind : Script α → (α → Script β) → Script β
  | done a, f => f a
  | failed, _ => failed
  | look next, f => look fun t => (next t).bind f
  | lookNext next, f => lookNext fun t => (next t).bind f
  | lookBack next, f => lookBack fun t => (next t).bind f
  | skip next, f => skip (next.bind f)
  | complain t e next, f => complain t e (next.bind f)
  | call r given next, f => call r given fun o => (next o).bind f

instance : Monad Script where
  pure := done
  bind := Script.bind

/-- Runs a script whose calls have the given room. -/
def run (room : Nat) : Script α → Parse α
  | done a, c => (some a, c)
  | failed, c => (none, c)
  | look next, c => (next c.current).run room c
  | lookNext next, c => (next c.next).run room c
  | lookBack next, c => (next c.previous).run room c
  | skip next, c => next.run room c.advance
  | complain t e next, c => next.run room (c.report t e)
  | call r given next, c =>
    (next (r.run room given c).1).run room (r.run room given c).2

/-! Single steps. -/

/-- The current token. -/
def peek : Script Token := look done

/-- The token behind the current one. -/
def peekNext : Script Token := lookNext done

/-- The token before the current one. -/
def peekBack : Script Token := lookBack done

/-- Passes the current token. -/
def pass : Script Unit := skip (done ())

/-- Complains and goes on. -/
def warn (t : Token) (e : SyntaxError) : Script Unit := complain t e (done ())

/-- Complains and fails. -/
def failAt (t : Token) (e : SyntaxError) : Script α := complain t e failed

/-- Takes the current token. -/
def take : Script Token := look fun t => skip (done t)

/-- Takes a token of the given kind, or complains about the current one and fails. -/
def expect (k : Kind) (e : SyntaxError) : Script Token :=
  look fun t => if t.kind = k then skip (done t) else complain t e failed

/-- Takes a token of the given kind if there is one. -/
def accept (k : Kind) : Script Bool :=
  look fun t => if t.kind = k then skip (done true) else done false

/-- Calls a rule and fails where it does. -/
def rule (r : Rule) (given : r.Given) : Script r.Result :=
  call r given fun
    | some a => done a
    | none => failed

/-- Calls a rule and goes on, also where it has failed. -/
def attempt (r : Rule) (given : r.Given) : Script (Option r.Result) :=
  call r given done

/-! What they come to. -/

variable (room : Nat)

@[simp]
theorem run_pure (a : α) : (pure a : Script α).run room = pure a :=
  rfl

@[simp]
theorem run_bind (s : Script α) (f : α → Script β) :
    (s >>= f).run room = s.run room >>= fun a => (f a).run room := by
  funext c
  show (s.bind f).run room c = Parse.bind (s.run room) (fun a => (f a).run room) c
  induction s generalizing c with
  | done a => rfl
  | failed => rfl
  | look next ih => exact ih c.current c
  | lookNext next ih => exact ih c.next c
  | lookBack next ih => exact ih c.previous c
  | skip next ih => exact ih c.advance
  | complain t e next ih => exact ih (c.report t e)
  | call r given next ih => exact ih (r.run room given c).1 (r.run room given c).2

@[simp]
theorem run_ite (q : Prop) [Decidable q] (s s' : Script α) :
    (if q then s else s').run room = if q then s.run room else s'.run room := by
  split <;> rfl

@[simp]
theorem run_peek : peek.run room = Parse.peek :=
  rfl

@[simp]
theorem run_peekNext : peekNext.run room = Parse.peekNext :=
  rfl

@[simp]
theorem run_pass : pass.run room = Parse.skip :=
  rfl

@[simp]
theorem run_warn (t : Token) (e : SyntaxError) : (warn t e).run room = Parse.complain t e :=
  rfl

@[simp]
theorem run_failAt (t : Token) (e : SyntaxError) :
    (failAt t e : Script α).run room = Parse.failAt t e :=
  rfl

@[simp]
theorem run_take : take.run room = Parse.take :=
  rfl

@[simp]
theorem run_expect (k : Kind) (e : SyntaxError) : (expect k e).run room = Parse.expect k e := by
  funext c
  show (if c.current.kind = k then _ else _ : Script Token).run room c = _
  by_cases hk : c.current.kind = k
  · rw [if_pos hk, expect_of_kind hk]
    rfl
  · rw [if_neg hk, expect_of_ne hk]
    rfl

@[simp]
theorem run_accept (k : Kind) : (accept k).run room = Parse.accept k := by
  funext c
  show (if c.current.kind = k then _ else _ : Script Bool).run room c = _
  by_cases hk : c.current.kind = k
  · rw [if_pos hk, accept_of_kind hk]
    rfl
  · rw [if_neg hk, accept_of_ne hk]
    rfl

@[simp]
theorem run_rule (r : Rule) (given : r.Given) : (rule r given).run room = r.run room given := by
  funext c
  show (match (r.run room given c).1 with | some a => done a | none => failed).run room
    (r.run room given c).2 = _
  cases h : r.run room given c with
  | mk o c' => cases o <;> rfl

/-! Steps that several rules have. -/

/-- Complains about the current token if there are too many entries before it. -/
def withinLimit (count : Nat) (e : SyntaxError) : Script Unit := do
  let t ← peek
  if maxArgs ≤ count then warn t e

/-- The word of a type, or a complaint. -/
def typeWord (e : SyntaxError) : Script TypeName := do
  let t ← peek
  match t.kind.type? with
  | none => failAt t e
  | some type => do
    pass
    pure ⟨type, t⟩

/-- The word of a type, if there is one. -/
def resultType : Script (Option TypeName) := do
  let t ← peek
  match t.kind.type? with
  | none => pure none
  | some type => do
    pass
    pure (some ⟨type, t⟩)

/-- An entry, and more entries behind a comma. -/
def alongCommas (entry : Script α) (more : Script (List α)) : Script (List α) := do
  let a ← entry
  if ← accept .comma then
    let as ← more
    pure (a :: as)
  else pure [a]

/-- A list up to a closing parenthesis. -/
def upToParen (entries : Script (List α)) : Script (List α) := do
  let t ← peek
  if t.kind = .rightParen then pure [] else entries

/-- The initial value of a variable, if there is one. -/
def initializer : Script (Option Expr) := do
  if ← accept .assign then
    let e ← rule .expression ()
    pure (some e)
  else pure none

/-- Takes a fence of the program, or complains and tells that it is missing. -/
def fence (k : Kind) (e : SyntaxError) : Script Bool := do
  let t ← peek
  if t.kind = k then
    pass
    pure true
  else
    warn t e
    pure false

@[simp]
theorem run_withinLimit (count : Nat) (e : SyntaxError) :
    (withinLimit count e).run room = Grammar.withinLimit count e := by
  simp only [withinLimit, Grammar.withinLimit, run_bind, run_peek, run_ite, run_warn, run_pure]

@[simp]
theorem run_typeWord (e : SyntaxError) : (typeWord e).run room = Grammar.typeWord e := by
  funext c
  show (match c.current.kind.type? with | none => _ | some type => _ : Script _).run room c =
    (match c.current.kind.type? with | none => _ | some type => _ : Parse _) c
  cases c.current.kind.type? with
  | none => rfl
  | some type => rfl

@[simp]
theorem run_resultType : resultType.run room = Grammar.resultType := by
  funext c
  show (match c.current.kind.type? with | none => _ | some type => _ : Script _).run room c =
    (match c.current.kind.type? with | none => _ | some type => _ : Parse _) c
  cases c.current.kind.type? with
  | none => rfl
  | some type => rfl

@[simp]
theorem run_alongCommas (entry : Script α) (more : Script (List α)) :
    (alongCommas entry more).run room = Grammar.alongCommas (entry.run room) (more.run room) := by
  simp only [alongCommas, Grammar.alongCommas, run_bind, run_accept, run_ite, run_pure]

@[simp]
theorem run_initializer : initializer.run room = Grammar.initializer room := by
  simp only [initializer, run_bind, run_rule room .expression, run_accept, run_ite, run_pure]
  rfl

@[simp]
theorem run_fence (k : Kind) (e : SyntaxError) : (fence k e).run room = Grammar.fence k e := by
  funext c
  have hrun : (fence k e).run room c = (if c.current.kind = k then Parse.skip >>= fun _ => pure true
      else Parse.complain c.current e >>= fun _ => pure false : Parse Bool) c := by
    simp only [fence, run_bind, run_peek, run_ite, run_pass, run_warn, run_pure]
    rfl
  rw [hrun]
  by_cases hk : c.current.kind = k
  · rw [if_pos hk]
    show _ = (orRecover (Parse.expect k e) id >>= fun t => pure t.isSome) c
    rw [Parse.bind_some (a := some c.current)]
    · unfold orRecover
      rw [expect_of_kind hk]
      rfl
    · unfold orRecover
      rw [expect_of_kind hk]
  · rw [if_neg hk]
    show _ = (orRecover (Parse.expect k e) id >>= fun t => pure t.isSome) c
    rw [Parse.bind_some (a := none)]
    · unfold orRecover
      rw [expect_of_ne hk]
      rfl
    · unfold orRecover
      rw [expect_of_ne hk]

/-! ## 3. The scripts of the rules -/

/-- The statement that starts at a token. -/
def statementAt (t : Token) : Script Stmt :=
  match t.kind with
  | .kwDisplay => rule .display ()
  | .kwScan => rule .scan ()
  | .kwReturn => rule .ret ()
  | .kwIf => rule .conditional ()
  | .kwWhile => rule .loop ()
  | .kwBegin => rule .block ()
  | .type _ | .kwImmut => failAt t .declarationTooLate
  | .kwFn => failAt t .functionTooLate
  | _ => do
    let e ← rule .expression ()
    pure (.expression e)

/-- The script of a rule. -/
def ofRule : (r : Rule) → r.Given → Script r.Result
  | .expression, _ => do
    let e ← rule (.operand (some .or)) ()
    let op ← peek
    if op.kind = .assign then
      pass
      let value ← rule .expression ()
      match e with
      | .ref name => pure (.assign name value)
      | _ => do
        warn op .assignmentTarget
        pure e
    else pure e
  | .operand none, _ => rule .unary ()
  | .operand (some l), _ => do
    let left ← rule (.operand l.tighter) ()
    rule (.chain l) left
  | .chain l, left => do
    let op ← peek
    if l.has op.kind then
      pass
      let right ← rule (.operand l.tighter) ()
      rule (.chain l) (l.combine left op right)
    else pure left
  | .unary, _ => do
    let op ← peek
    if isSign op.kind then
      pass
      let e ← rule .unary ()
      pure (.unary op e)
    else
      let e ← rule .primary ()
      rule .calls e
  | .calls, callee => do
    if ← accept .leftParen then
      let args ← upToParen (rule .arguments 0)
      let paren ← expect .rightParen .parenAfterArguments
      rule .calls (.call callee paren args)
    else pure callee
  | .arguments, count => do
    withinLimit count .tooManyArguments
    alongCommas (rule .expression ()) (rule .arguments (count + 1))
  | .primary, _ => do
    let t ← peek
    if isLiteral t.kind then
      pass
      pure (.literal t)
    else if t.kind = .identifier then
      pass
      pure (.ref t)
    else if t.kind = .leftParen then
      pass
      let e ← rule .expression ()
      let _ ← expect .rightParen .parenAfterExpression
      pure (.grouping e t.pos)
    else failAt t .expression
  | .declarators, (type, isMutable) =>
    let entry : Script Stmt := do
      let name ← expect .identifier .variableName
      let init ← initializer
      pure (.declare type name init isMutable)
    alongCommas entry (rule .declarators (type, isMutable))
  | .declaration, _ => do
    let immutable ← accept .kwImmut
    let word ← typeWord .typeAfterImmut
    let declared ← rule .declarators (word.type, !immutable)
    let _ ← accept .semicolon
    pure declared
  | .declarations, _ => do
    let t ← peek
    if startsDeclaration t.kind then
      match ← attempt .declaration () with
      | some declared => do
        let more ← rule .declarations ()
        pure (declared ++ more)
      | none => do
        rule .synchronize ()
        rule .declarations ()
    else pure []
  | .parameters, count =>
    let entry : Script Param := do
      let type ← typeWord .parameterType
      let name ← expect .identifier .parameterName
      pure ⟨type, name⟩
    do
      withinLimit count .tooManyParameters
      alongCommas entry (rule .parameters (count + 1))
  | .condition, keyword => do
    let _ ← expect .leftParen (.parenAfter keyword)
    let e ← rule .expression ()
    let _ ← expect .rightParen .parenAfterCondition
    pure e
  | .names, _ => alongCommas (expect .identifier .identifierAfterScan) (rule .names ())
  | .display, _ => do
    let keyword ← take
    let _ ← expect .colon .colonAfterDisplay
    let e ← rule .expression ()
    pure (.display keyword e)
  | .scan, _ => do
    let keyword ← take
    let _ ← expect .colon .colonAfterScan
    let ns ← rule .names ()
    pure (.scan keyword ns)
  | .ret, _ => do
    let keyword ← take
    let t ← peek
    if t.pos.line = keyword.pos.line ∧ endsReturn t.kind = false then
      let e ← rule .expression ()
      pure (.ret keyword (some e))
    else pure (.ret keyword none)
  | .statement, _ => peek >>= statementAt
  | .statements, _ => do
    let t ← peek
    if t.kind = .eof ∨ t.kind = .kwEnd then pure []
    else if t.kind = .semicolon then
      pass
      rule .statements ()
    else
      match ← attempt .statement () with
      | none => do
        rule .synchronize ()
        rule .statements ()
      | some s => do
        let _ ← accept .semicolon
        let more ← rule .statements ()
        pure (s :: more)
  | .conditional, _ => do
    let keyword ← take
    let c ← rule .condition "IF"
    let inner ← rule .fenced .kwIf
    let others ← rule .alternatives ()
    pure (.conditional keyword c inner others)
  | .alternatives, _ => do
    let t ← peek
    if t.kind = .kwElse then
      pass
      let u ← peek
      if u.kind = .kwIf then
        pass
        let c ← rule .condition "ELSE IF"
        let inner ← rule .fenced .kwIf
        let others ← rule .alternatives ()
        pure (.elseIf c inner others)
      else
        let inner ← rule .fenced .kwIf
        pure (.otherwise inner)
    else pure .done
  | .loop, _ => do
    let keyword ← take
    let c ← rule .condition "WHILE"
    let inner ← rule .fenced .kwWhile
    pure (.loop keyword c inner)
  | .block, _ => do
    let opening ← take
    let inner ← rule .body true
    let _ ← expect .kwEnd .endAfterBlock
    pure (.block opening inner)
  | .fenced, fence => do
    let _ ← expect .kwBegin .beginAfterCondition
    let _ ← expect fence (.fenceAfterBegin fence)
    let inner ← rule .statements ()
    let _ ← expect .kwEnd .endAfterStatements
    let _ ← expect fence (.fenceAfterEnd fence)
    pure inner
  | .body, withFunctions => do
    let declared ← rule .declarations ()
    let fns ← if withFunctions then rule .functions () else pure []
    let inner ← rule .statements ()
    pure (declared ++ fns ++ inner)
  | .functions, _ => do
    if ← accept .kwFn then
      match ← attempt .function () with
      | some f => do
        let more ← rule .functions ()
        pure (f :: more)
      | none => do
        rule .skipFunction ()
        rule .functions ()
    else pure []
  | .function, _ => do
    let result ← resultType
    let name ← expect .identifier .functionName
    let _ ← expect .leftParen .parenAfterFunctionName
    let params ← upToParen (rule .parameters 0)
    let _ ← expect .rightParen .parenAfterParameters
    let _ ← expect .kwBegin .beginBeforeFunctionBody
    let _ ← expect .kwFn .fnAfterBegin
    let inner ← rule .body true
    let _ ← expect .kwEnd .endAfterFunctionBody
    let _ ← expect .kwFn .fnAfterEnd
    pure (.function name params inner result)
  | .program, _ => do
    let fns ← rule .functions ()
    if !(← fence .kwBegin .beginOfProgram) then return fns
    if !(← fence .kwCode .codeAfterBegin) then return fns
    let main ← rule .body false
    if !(← fence .kwEnd .endOfProgram) then return fns ++ main
    if !(← fence .kwCode .codeAfterEnd) then return fns ++ main
    let t ← peek
    if t.kind ≠ .eof then
      warn t .nothingAfterProgram
    return fns ++ main
  | .synchronize, _ => do
    let t ← peek
    if t.kind = .kwEnd then rule .boundary ()
    else
      pass
      rule .boundary ()
  | .boundary, _ => do
    let t ← peek
    let u ← peekBack
    if t.kind = .eof ∨ u.kind = .semicolon ∨ Cursor.isBoundary t.kind then pure ()
    else
      pass
      rule .boundary ()
  | .skipFunction, _ => do
    let t ← peek
    let u ← peekNext
    if t.kind = .eof ∨ (t.kind = .kwBegin ∧ u.kind = .kwCode) then pure ()
    else if t.kind = .kwEnd ∧ u.kind = .kwFn then
      pass
      pass
    else
      pass
      rule .skipFunction ()

end Script

namespace Rule

/-- Does the rule take a level of the room it is given? The others hand it on as it is. -/
def deepens : Rule → Bool
  | declaration | condition | display | scan | ret | program | synchronize | boundary
  | skipFunction => false
  | _ => true

/-- The room of the calls of a rule, unless it has none. -/
def below (r : Rule) (room : Nat) : Option Nat :=
  match r.deepens, room with
  | false, room => some room
  | true, room + 1 => some room
  | true, 0 => none

/-- The room of a rule that takes a level of it, from the room of its calls. -/
theorem eq_add_one_of_below {r : Rule} {room inner : Nat} (hr : r.deepens = true)
    (h : r.below room = some inner) : room = inner + 1 := by
  unfold below at h
  rw [hr] at h
  cases room with
  | zero => cases h
  | succ room => exact congrArg (· + 1) (Option.some.inj h)

theorem run_of_below_none {r : Rule} {room : Nat} (h : r.below room = none) (given : r.Given) :
    r.run room given = Parse.fail .nesting := by
  cases room with
  | zero => cases r with
    | operand l => cases l <;> rfl
    | _ => first | rfl | cases h
  | succ room => cases r <;> cases h

end Rule

/-! ## 4. The rules do what their scripts say -/

namespace Script

open Rule

variable {room : Nat}

theorem run_expression : (ofRule .expression ()).run room = Grammar.expression (room + 1) := by
  simp only [ofRule, run_bind, run_rule room (.operand _), run_rule room .expression,
    Grammar.expression, run_peek, run_ite, run_pass, run_pure]
  refine bind_congr fun e => bind_congr fun op => ?_
  have hassigned (value : Expr) : Script.run room (match e with
      | .ref name => pure (.assign name value)
      | _ => warn op .assignmentTarget >>= fun _ => pure e) = (match e with
      | .ref name => pure (.assign name value)
      | _ => Parse.complain op .assignmentTarget >>= fun _ => pure e) := by
    cases e <;> rfl
  simp only [hassigned]
  rfl

theorem run_operand (o : Option Level) :
    (ofRule (.operand o) ()).run room = Grammar.operand (room + 1) o := by
  cases o with
  | none => exact run_rule room .unary ()
  | some l =>
    simp only [ofRule, run_bind, run_rule room (.operand _), run_rule room (.chain _)]
    rfl

theorem run_chain (l : Level) (left : Expr) :
    (ofRule (.chain l) left).run room = Grammar.chain (room + 1) l left := by
  simp only [ofRule, run_bind, run_rule room (.operand _), run_rule room (.chain _), run_peek,
    run_ite, run_pass, run_pure]
  rfl

theorem run_unary : (ofRule .unary ()).run room = Grammar.unary (room + 1) := by
  simp only [ofRule, run_bind, run_rule room .unary, run_rule room .primary, run_rule room .calls,
    run_peek, run_ite, run_pass, run_pure]
  rfl

theorem run_calls (callee : Expr) :
    (ofRule .calls callee).run room = Grammar.calls (room + 1) callee := by
  rw [calls_eq]
  simp only [ofRule, run_bind, run_rule room .arguments, run_rule room .calls, upToParen,
    argumentList, run_accept, run_expect, run_peek, run_ite, run_pure]
  rfl

theorem run_arguments (count : Nat) :
    (ofRule .arguments count).run room = Grammar.arguments (room + 1) count := by
  rw [arguments_eq]
  simp only [ofRule, run_bind, run_rule room .expression, run_rule room .arguments,
    run_withinLimit, run_alongCommas]
  rfl

theorem run_primary : (ofRule .primary ()).run room = Grammar.primary (room + 1) := by
  simp only [ofRule, run_bind, run_rule room .expression, run_peek, run_ite, run_pass, run_expect,
    run_failAt, run_pure]
  rfl

theorem run_declarators (type : BaseType) (isMutable : Bool) :
    (ofRule .declarators (type, isMutable)).run room =
      Grammar.declarators type isMutable (room + 1) := by
  rw [declarators_eq]
  simp only [ofRule, run_alongCommas, run_bind, run_rule room .declarators, run_initializer,
    run_expect, run_pure]
  rfl

theorem run_declaration : (ofRule .declaration ()).run room = Grammar.declaration room := by
  rw [declaration_eq]
  simp only [ofRule, run_bind, run_rule room .declarators, run_accept, run_typeWord, run_pure]
  rfl

/-- A call that is gone on from, whether or not it fails, and behind its failure a recovery. -/
theorem run_attempt_bind {α : Type} {r : Rule} {given : r.Given} {recover : Cursor → Cursor}
    {f : Option r.Result → Script α} {g : Option r.Result → Parse α}
    (hsome : ∀ a, (f (some a)).run room = g (some a))
    (hnone : ∀ c, (f none).run room c = g none (recover c)) :
    (attempt r given >>= f).run room = orRecover (r.run room given) recover >>= g := by
  funext c
  show (f (r.run room given c).1).run room (r.run room given c).2 = _
  cases ho : (r.run room given c).1 with
  | none =>
    have hrecovered : orRecover (r.run room given) recover c =
        (some none, recover (r.run room given c).2) := orRecover_none ho
    rw [Parse.bind_some (congrArg Prod.fst hrecovered), hrecovered]
    exact hnone _
  | some a =>
    have hgiven : orRecover (r.run room given) recover c =
        (some (some a), (r.run room given c).2) := orRecover_some ho
    rw [Parse.bind_some (congrArg Prod.fst hgiven), hgiven, hsome]

theorem run_declarations :
    (ofRule .declarations ()).run room = Grammar.declarations (room + 1) := by
  simp only [ofRule, run_bind room peek, run_peek, run_ite, run_pure, Grammar.declarations]
  refine bind_congr fun t => ?_
  split
  · refine run_attempt_bind (r := .declaration) (fun declared => ?_) fun c => ?_
    · simp only [run_bind, run_rule room .declarations, run_pure]
      rfl
    · have hnil : (Grammar.declarations room >>= fun more => pure (none.getD [] ++ more)) =
          Grammar.declarations room := by
        simp only [Option.getD_none, List.nil_append, bind_pure]
      rw [hnil]
      simp only [run_bind, run_rule room .synchronize, run_rule room .declarations]
      rfl
  · rfl

theorem run_parameters (count : Nat) :
    (ofRule .parameters count).run room = Grammar.parameters (room + 1) count := by
  rw [parameters_eq]
  simp only [ofRule, run_bind, run_rule room .parameters, run_alongCommas, run_withinLimit,
    run_typeWord, run_expect, run_pure]
  rfl

theorem run_condition (keyword : String) :
    (ofRule .condition keyword).run room = Grammar.condition room keyword := by
  simp only [ofRule, run_bind, run_rule room .expression, run_expect, run_pure]
  rfl

theorem run_names : (ofRule .names ()).run room = Grammar.names (room + 1) := by
  simp only [ofRule, run_alongCommas, run_rule room .names, run_expect]
  rfl

theorem run_display : (ofRule .display ()).run room = Grammar.display room := by
  simp only [ofRule, run_bind, run_rule room .expression, run_take, run_expect, run_pure]
  rfl

theorem run_scan : (ofRule .scan ()).run room = Grammar.scan room := by
  simp only [ofRule, run_bind, run_rule room .names, run_take, run_expect, run_pure]
  rfl

theorem run_ret : (ofRule .ret ()).run room = Grammar.ret room := by
  simp only [ofRule, run_bind, run_rule room .expression, run_take, run_peek, run_ite, run_pure]
  rfl

theorem run_statement : (ofRule .statement ()).run room = Grammar.statement (room + 1) := by
  simp only [ofRule, run_bind room peek, run_peek, Grammar.statement]
  refine bind_congr fun t => ?_
  unfold statementAt
  cases t.kind with
  | kwDisplay => exact run_rule room .display ()
  | kwScan => exact run_rule room .scan ()
  | kwReturn => exact run_rule room .ret ()
  | kwIf => exact run_rule room .conditional ()
  | kwWhile => exact run_rule room .loop ()
  | kwBegin => exact run_rule room .block ()
  | type b => rfl
  | kwImmut => rfl
  | kwFn => rfl
  | _ =>
    simp only [run_bind, run_rule room .expression, run_pure]
    rfl

theorem run_statements : (ofRule .statements ()).run room = Grammar.statements (room + 1) := by
  simp only [ofRule, run_bind room peek, run_bind room pass, run_peek, run_pass, run_ite, run_pure,
    run_rule room .statements, Grammar.statements]
  refine bind_congr fun t => ?_
  split
  · rfl
  split
  · rfl
  refine run_attempt_bind (r := .statement) (fun s => ?_) fun c => ?_
  · simp only [run_bind, run_rule room .statements, run_accept, run_pure]
    rfl
  · simp only [run_bind, run_rule room .synchronize, run_rule room .statements]
    rfl

theorem run_conditional : (ofRule .conditional ()).run room = Grammar.conditional (room + 1) := by
  simp only [ofRule, run_bind, run_rule room .condition, run_rule room .fenced,
    run_rule room .alternatives, run_take, run_pure]
  rfl

theorem run_alternatives :
    (ofRule .alternatives ()).run room = Grammar.alternatives (room + 1) := by
  rw [alternatives_eq]
  simp only [ofRule, run_bind, run_rule room .condition, run_rule room .fenced,
    run_rule room .alternatives, run_peek, run_ite, run_pass, run_pure]
  rfl

theorem run_loop : (ofRule .loop ()).run room = Grammar.loop (room + 1) := by
  simp only [ofRule, run_bind, run_rule room .condition, run_rule room .fenced, run_take, run_pure]
  rfl

theorem run_block : (ofRule .block ()).run room = Grammar.block (room + 1) := by
  simp only [ofRule, run_bind, run_rule room .body, run_take, run_expect, run_pure]
  rfl

theorem run_fenced (fence : Kind) :
    (ofRule .fenced fence).run room = Grammar.fenced (room + 1) fence := by
  simp only [ofRule, run_bind, run_rule room .statements, run_expect, run_pure]
  rfl

theorem run_body (withFunctions : Bool) :
    (ofRule .body withFunctions).run room = Grammar.body (room + 1) withFunctions := by
  simp only [ofRule, run_bind, run_rule room .declarations, run_rule room .functions,
    run_rule room .statements, run_ite, run_pure, Grammar.body]
  rfl

theorem run_functions : (ofRule .functions ()).run room = Grammar.functions (room + 1) := by
  simp only [ofRule, run_bind room (accept _), run_accept, run_ite, run_pure, Grammar.functions]
  refine bind_congr fun b => ?_
  split
  · refine run_attempt_bind (r := .function) (fun f => ?_) fun c => ?_
    · simp only [run_bind, run_rule room .functions, run_pure]
      rfl
    · have hnil : (Grammar.functions room >>= fun more => pure (none.toList ++ more)) =
          Grammar.functions room := by
        simp only [Option.toList_none, List.nil_append, bind_pure]
      rw [hnil]
      simp only [run_bind, run_rule room .skipFunction, run_rule room .functions]
      rfl
  · rfl

theorem run_function : (ofRule .function ()).run room = Grammar.function (room + 1) := by
  rw [function_eq]
  simp only [ofRule, run_bind, run_rule room .parameters, run_rule room .body, run_resultType,
    run_expect, upToParen, parameterList, run_peek, run_ite, run_pure]
  rfl

theorem run_program : (ofRule .program ()).run room = Grammar.program room := by
  simp only [ofRule, run_bind, run_rule room .functions, run_rule room .body, run_fence, run_peek,
    run_ite, run_warn, run_pure, Grammar.program]
  rfl

theorem run_synchronize :
    (ofRule .synchronize ()).run room = Rule.run room .synchronize () := by
  simp only [ofRule, run_bind, run_rule room .boundary, run_peek, run_ite, run_pass]
  funext c
  show (if c.current.kind = .kwEnd then _ else _ : Parse Unit) c = (some (), c.synchronize)
  unfold Cursor.synchronize
  by_cases hend : c.current.kind = .kwEnd
  · rw [if_pos hend, if_pos (Cursor.isAt_iff.mpr hend)]
    rfl
  · rw [if_neg hend, if_neg fun hat => hend (Cursor.isAt_iff.mp hat)]
    rfl

theorem run_boundary : (ofRule .boundary ()).run room = Rule.run room .boundary () := by
  simp only [ofRule, run_bind, run_rule room .boundary, run_peek, run_ite, run_pass, run_pure]
  funext c
  show (if c.current.kind = .eof ∨ c.previous.kind = .semicolon ∨
    Cursor.isBoundary c.current.kind = true then _ else _ : Parse Unit) c =
      (some (), c.walked Cursor.toBoundary)
  by_cases hstop : c.current.kind = .eof ∨ c.previous.kind = .semicolon ∨
      Cursor.isBoundary c.current.kind = true
  · rw [if_pos hstop, Cursor.walked_toBoundary_of_stop hstop]
    rfl
  · rw [if_neg hstop, Cursor.walked_toBoundary_of_go hstop]
    rfl

theorem run_skipFunction :
    (ofRule .skipFunction ()).run room = Rule.run room .skipFunction () := by
  simp only [ofRule, run_bind, run_rule room .skipFunction, run_peek, run_peekNext, run_ite,
    run_pass, run_pure]
  funext c
  show (if c.current.kind = .eof ∨ (c.current.kind = .kwBegin ∧ c.next.kind = .kwCode) then pure ()
    else if c.current.kind = .kwEnd ∧ c.next.kind = .kwFn then Parse.skip >>= fun _ => Parse.skip
    else Parse.skip >>= fun _ => Rule.run room .skipFunction () : Parse Unit) c =
      (some (), c.walked Cursor.toFunctionEnd)
  by_cases hstop : c.current.kind = .eof ∨ (c.current.kind = .kwBegin ∧ c.next.kind = .kwCode)
  · rw [if_pos hstop, Cursor.walked_toFunctionEnd_of_stop hstop]
    rfl
  rw [if_neg hstop]
  by_cases hend : c.current.kind = .kwEnd ∧ c.next.kind = .kwFn
  · rw [if_pos hend, Cursor.walked_toFunctionEnd_of_end hend]
    rfl
  · rw [if_neg hend, Cursor.walked_toFunctionEnd_of_go hstop hend]
    rfl

end Script

/-- **A rule that has room for its calls does what its script says.** -/
theorem Rule.run_eq {r : Rule} {room inner : Nat} (h : r.below room = some inner)
    (given : r.Given) : r.run room given = (Script.ofRule r given).run inner := by
  have hsame {r : Rule} (hflat : r.deepens = false) (h : r.below room = some inner) :
      room = inner := by
    unfold below at h
    rw [hflat] at h
    exact Option.some.inj h
  have hsucc {r : Rule} (hdeep : r.deepens = true) (h : r.below room = some inner) :
      room = inner + 1 := eq_add_one_of_below hdeep h
  cases r with
  | expression => cases hsucc rfl h; exact Script.run_expression.symm
  | operand o => cases hsucc rfl h; exact (Script.run_operand o).symm
  | chain l => cases hsucc rfl h; exact (Script.run_chain l given).symm
  | unary => cases hsucc rfl h; exact Script.run_unary.symm
  | calls => cases hsucc rfl h; exact (Script.run_calls given).symm
  | arguments => cases hsucc rfl h; exact (Script.run_arguments given).symm
  | primary => cases hsucc rfl h; exact Script.run_primary.symm
  | declarators => cases hsucc rfl h; exact (Script.run_declarators given.1 given.2).symm
  | declaration => cases hsame rfl h; exact Script.run_declaration.symm
  | declarations => cases hsucc rfl h; exact Script.run_declarations.symm
  | parameters => cases hsucc rfl h; exact (Script.run_parameters given).symm
  | condition => cases hsame rfl h; exact (Script.run_condition given).symm
  | names => cases hsucc rfl h; exact Script.run_names.symm
  | display => cases hsame rfl h; exact Script.run_display.symm
  | scan => cases hsame rfl h; exact Script.run_scan.symm
  | ret => cases hsame rfl h; exact Script.run_ret.symm
  | statement => cases hsucc rfl h; exact Script.run_statement.symm
  | statements => cases hsucc rfl h; exact Script.run_statements.symm
  | conditional => cases hsucc rfl h; exact Script.run_conditional.symm
  | alternatives => cases hsucc rfl h; exact Script.run_alternatives.symm
  | loop => cases hsucc rfl h; exact Script.run_loop.symm
  | block => cases hsucc rfl h; exact Script.run_block.symm
  | fenced => cases hsucc rfl h; exact (Script.run_fenced given).symm
  | body => cases hsucc rfl h; exact (Script.run_body given).symm
  | functions => cases hsucc rfl h; exact Script.run_functions.symm
  | function => cases hsucc rfl h; exact Script.run_function.symm
  | program => cases hsame rfl h; exact Script.run_program.symm
  | synchronize => cases hsame rfl h; exact Script.run_synchronize.symm
  | boundary => cases hsame rfl h; exact Script.run_boundary.symm
  | skipFunction => cases hsame rfl h; exact Script.run_skipFunction.symm

/-! ## 5. One induction for all rules -/

namespace Rule

/-- Does the rule look for a place to go on from? -/
def isRecovery : Rule → Bool
  | synchronize | boundary | skipFunction => true
  | _ => false

/-- What hands on its room as it is calls only what takes a level of it. -/
def MayCall (r r' : Rule) : Prop :=
  r.deepens = false → r'.deepens = true

/-- With one level of room more there is one more for the calls. -/
theorem below_add_one {r : Rule} {room inner : Nat} (h : r.below room = some inner) :
    r.below (room + 1) = some (inner + 1) := by
  unfold below at h ⊢
  split at h <;> simp_all

theorem run_recovery {r : Rule} (hr : r.isRecovery = true) (room : Nat) (given : r.Given) :
    r.run room given = r.run 0 given := by
  cases r <;> first | rfl | cases hr

theorem below_of_flat {r : Rule} (hr : r.deepens = false) (room : Nat) :
    r.below room = some room := by
  unfold below
  rw [hr]

theorem below_succ {r : Rule} (hr : r.deepens = true) (room : Nat) :
    r.below (room + 1) = some room := by
  unfold below
  rw [hr]

theorem below_zero {r : Rule} (hr : r.deepens = true) : r.below 0 = none := by
  unfold below
  rw [hr]

theorem deepens_of_isRecovery {r : Rule} (hr : r.isRecovery = true) : r.deepens = false := by
  cases r <;> first | rfl | cases hr

/-- **One induction for all rules**, on the room. A property holds of every rule with any room if it
    holds of the recoveries, of what has no room, and of every other rule once it holds of what this
    rule may call. -/
theorem induct {P : Nat → (r : Rule) → r.Given → Prop}
    (recovery : ∀ room (r : Rule) given, r.isRecovery = true → P room r given)
    (starved : ∀ room (r : Rule) given, r.below room = none → P room r given)
    (step : ∀ room inner (r : Rule) given, r.isRecovery = false → r.below room = some inner →
      (∀ (r' : Rule) given', r.MayCall r' → P inner r' given') → P room r given) :
    ∀ room (r : Rule) given, P room r given := by
  -- rules that hand on their room follow those that take a level of it
  have hflat {room : Nat} (hdeep : ∀ (r : Rule) given, r.deepens = true → P room r given) :
      ∀ (r : Rule) given, P room r given := by
    intro r given
    cases hr : r.deepens with
    | true => exact hdeep r given hr
    | false =>
      cases hrecovery : r.isRecovery with
      | true => exact recovery room r given hrecovery
      | false =>
        exact step room room r given hrecovery (below_of_flat hr room) fun r' given' hcall =>
          hdeep r' given' (hcall hr)
  intro room
  induction room with
  | zero => exact hflat fun r given hr => starved 0 r given (below_zero hr)
  | succ room ih =>
    refine hflat fun r given hr => ?_
    have hrecovery : r.isRecovery = false := by
      refine Bool.eq_false_iff.mpr fun htrue => ?_
      rw [deepens_of_isRecovery htrue] at hr
      cases hr
    exact step (room + 1) room r given hrecovery (below_succ hr room) fun r' given' _ =>
      ih r' given'

end Rule

end FencedCode.Grammar
