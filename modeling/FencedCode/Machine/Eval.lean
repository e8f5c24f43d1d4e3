import FencedCode.Machine.Native
import FencedCode.Machine.Operator
import FencedCode.Token.Scan

/-!
# Running programs

Expressions yield values, statements complete normally or return. Each function takes `steps`, a
bound on how deep it may go; a run that needs more fails with `Failure.exhausted`, and with any
larger bound a finished run ends the same way.

The body of a function runs in a frame directly inside the global one, so it sees its parameters,
its own declarations and the globals.
-/

namespace FencedCode

open Exec

/-- How a statement ends. -/
inductive Completion where
  | normal
  /-- A `RETURN` on its way to the call it ends. -/
  | returning (v : Value)

namespace Machine

/-! ## 1. Parts without recursion -/

/-- Assigns the literals of a line, at every second token, to the names. The last token is the end
    of the line and no value. -/
def assignScanned : List Token → List Token → Exec Unit
  | [], _ => pure ()
  | name :: names, ts =>
    if ts.length ≤ 1 then fault (.noValue name.lexeme) name
    else do
      let t ← lift (entry ts 0)
      assign name (.ofLiteral? t.literal)
      assignScanned names (ts.drop 2)

/-- Reads one line into variables. -/
def scanLine (keyword : Token) (names : List Token) : Exec Unit := do
  match ← readLine with
  | .error .endOfInput => fault .noLine keyword
  | .error (.failed reason) => fail (.reader (utf8 "SCAN") reason)
  | .ok line => assignScanned names (Scan.ofText line).tokens

/-- Declares a variable in the current frame, unless its name is taken there. -/
def declare (h : Host) (type : BaseType) (name : Token) (v : Value) (isMutable : Bool) :
    Exec Unit :=
  fun m =>
    let (fresh, scopes) := m.scopes.define m.scope name.lexeme ⟨.base type, v, isMutable⟩
    let m := { m with scopes }
    (.ok (), if fresh then m else m.log h (.ignores name.lexeme))

/-- Declares a function in the current frame, in place of anything of that name there. -/
def declareFunction (h : Host) (f : Function) : Exec Unit :=
  fun m =>
    let name := f.name.lexeme
    let m := if m.scopes.bindsHere m.scope name then m.log h (.replaces name) else m
    let binding : Binding := ⟨.function, .function (some (.user f 0)), false⟩
    (.ok (), { m with scopes := m.scopes.set m.scope name binding })

/-- A frame with the arguments of a call added, one for each parameter, if all have the types of
    their parameters. Of two parameters with one name the first is bound. -/
def bindParams : List Param → List Value → Frame → Except Failure Frame
  | [], _, f => .ok f
  | _ :: _, [], _ => .error .outOfRange
  | p :: ps, v :: vs, f =>
    let type : ValueType := .base p.type.type
    let name := p.name.lexeme
    if v.type ≠ type then .error (.fault (.unplaced (.argumentType v.text name type)))
    else bindParams ps vs (if f.binds name then f else f.put name ⟨type, v, true⟩)

/-- The frame in which the body of a called function runs. -/
def bindArguments (params : List Param) (args : List Value) : Exec Frame :=
  lift (bindParams params args ⟨some 0, []⟩)

/-- What a call yields when the body of its function completed so. -/
def resultOf (f : Function) (c : Completion) : Except Failure Value :=
  match f.result, c with
  | none, .returning .null => .ok .null
  | none, .returning _ => .error (.fault ⟨.valueFromVoid, f.name⟩)
  | none, .normal => .ok .null
  | some t, .normal => .error (.fault ⟨.noReturn (.base t.type), t.token⟩)
  | some t, .returning v =>
    if v.type = .base t.type then .ok v
    else .error (.fault ⟨.returnType (.base t.type), f.name⟩)

/-! ## 2. Expressions, calls and statements -/

mutual

/-- The value of an expression. -/
def eval (h : Host) : Nat → Expr → Exec Value
  | 0, _ => fail .exhausted
  | steps + 1, e =>
    match e with
    | .literal t => pure (.ofLiteral? t.literal)
    | .grouping inner _ => eval h steps inner
    | .ref name => getValue name
    | .assign name value => do
      let v ← eval h steps value
      assign name v
      pure v
    | .unary op operand => do
      let v ← eval h steps operand
      lift (Operator.unary op v)
    | .binary left op right => do
      let a ← eval h steps left
      let b ← eval h steps right
      lift (Operator.binary op a b)
    | .logical left op right => do
      let a ← eval h steps left
      if a.isTruthy = (op.kind = .kwOr : Bool) then pure a else eval h steps right
    | .call callee paren args => do
      let f ← eval h steps callee
      let vs ← evalAll h steps args
      located paren (apply h steps f vs)

/-- The values of expressions, from the left. -/
def evalAll (h : Host) : Nat → List Expr → Exec (List Value)
  | 0, _ => fail .exhausted
  | _ + 1, [] => pure []
  | steps + 1, e :: es => do
    let v ← eval h steps e
    let vs ← evalAll h steps es
    pure (v :: vs)

/-- Calls a value. -/
def apply (h : Host) : Nat → Value → List Value → Exec Value
  | 0, _, _ => fail .exhausted
  | steps + 1, callee, args =>
    match callee.callable? with
    | none => unplaced .notCallable
    | some c =>
      if (args.length : Int) ≠ c.arity then unplaced (.arity c.arity args.length)
      else do
        note h (.call c.name args.length)
        match c with
        | .native n => n.run h args
        | .user f _ => call h steps f args

/-- Calls a declared function, unless too many calls are under way. -/
def call (h : Host) : Nat → Function → List Value → Exec Value
  | 0, _, _ => fail .exhausted
  | steps + 1, f, args => fun m =>
    if h.limit ≤ m.depth then unplaced (.depth f.name.lexeme) m
    else
      deeper (do
        let frame ← bindArguments f.params args
        let c ← inScope h frame (execAll h steps f.body)
        lift (resultOf f c)) m

/-- Runs a statement. -/
def exec (h : Host) : Nat → Stmt → Exec Completion
  | 0, _ => fail .exhausted
  | steps + 1, s =>
    match s with
    | .expression e => do
      let _ ← eval h steps e
      pure .normal
    | .display _ e => do
      let v ← eval h steps e
      modify fun m => m.write (Text.line v.text)
      pure .normal
    | .scan keyword names => do
      scanLine keyword names
      pure .normal
    | .conditional _ condition body others => do
      let v ← eval h steps condition
      if v.isTruthy then execAll h steps body else execOthers h steps 0 others
    | .loop _ condition body => execLoop h steps condition body
    | .block _ body => inBlock h (execAll h steps body)
    | .function name params body result => do
      declareFunction h ⟨name, params, body, result⟩
      pure .normal
    | .ret _ none => pure (.returning .null)
    | .ret _ (some e) => do
      let v ← eval h steps e
      pure (.returning v)
    | .declare type name none isMutable => do
      declare h type name .null isMutable
      pure .normal
    | .declare type name (some e) isMutable => do
      let v ← eval h steps e
      if v.type ≠ .base type then fault (.initialType v.text (.base type)) name
      else do
        declare h type name v isMutable
        pure .normal

/-- Runs statements in order, up to one that returns. -/
def execAll (h : Host) : Nat → List Stmt → Exec Completion
  | 0, _ => fail .exhausted
  | _ + 1, [] => pure .normal
  | steps + 1, s :: rest => do
    match ← exec h steps s with
    | .normal => execAll h steps rest
    | .returning v => pure (.returning v)

/-- Runs the body of the first condition that holds, from the one at the given index on, or else
    the last body. -/
def execOthers (h : Host) : Nat → Nat → Alternatives → Exec Completion
  | 0, _, _ => fail .exhausted
  | steps + 1, i, others =>
    match others.conditions[i]? with
    | some condition => do
      let v ← eval h steps condition
      if v.isTruthy then do
        let body ← lift (entry others.bodies i)
        execAll h steps body
      else execOthers h steps (i + 1) others
    | none =>
      match others.last with
      | some body => execAll h steps body
      | none => pure .normal

/-- Repeats a body while a condition holds. -/
def execLoop (h : Host) : Nat → Expr → List Stmt → Exec Completion
  | 0, _, _ => fail .exhausted
  | steps + 1, condition, body => do
    let v ← eval h steps condition
    if v.isTruthy then
      match ← execAll h steps body with
      | .normal => execLoop h steps condition body
      | .returning r => pure (.returning r)
    else pure .normal

end

/-! ## 3. Whole programs -/

/-- Runs a program in the global frame. A `RETURN` outside any function ends it quietly. -/
def execute (h : Host) (steps : Nat) (program : List Stmt) : Exec Unit :=
  fun m =>
    match execAll h steps program m.rested with
    | (.ok .normal, m') => (.ok (), m')
    | (.ok (.returning _), m') => (.ok (), m'.log h .topLevelReturn)
    | (.error e, m') =>
      match e.fault? with
      | some f => (.error e, m'.log h (.fault f.kind f.line))
      | none => (.error e, m')

end Machine

end FencedCode
