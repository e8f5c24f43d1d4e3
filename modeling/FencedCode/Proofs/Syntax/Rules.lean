import FencedCode.Proofs.Syntax.Position

/-!
# The rules of the grammar, cut into steps

Where a rule makes a choice in its middle, what comes behind the choice is part of each of its
branches. Here the choices are steps of their own, and the rules are sequences of steps.

* `bind_of_none`, `bind_of_some` -- what a step that failed or succeeded lets come behind it;
* `argumentList`, `parameterList` -- what stands between the parentheses of a call or a function;
* `initializer`, `typeWord`, `resultType`, `withinLimit` -- the other choices;
* `alongCommas` -- the shape that all lists with commas have;
* `calls_eq`, `arguments_eq`, …, `function_eq` -- the rules as sequences of these steps;
* `accept_bind_of_kind`, `accept_bind_of_ne` -- what comes behind a word that may be left out;
* `blaming` -- a step that is complained about at the token where it started;
* `expect_eq`, `typeWord_eq`, `primary_eq`, …, `alternatives_eq` -- the rules that complain about a
  token or look at it in advance, in steps that only look at the current one.
-/

namespace FencedCode

namespace Parse

variable {α β γ : Type}

section Runs

variable {p : Parse α} {f : α → Parse β} {c c' : Cursor} {a : α}

theorem bind_of_none (hrun : p c = (none, c')) : (p >>= f) c = (none, c') := by
  show Parse.bind p f c = (none, c')
  unfold Parse.bind
  rw [hrun]

theorem bind_of_some (hrun : p c = (some a, c')) : (p >>= f) c = f a c' := by
  show Parse.bind p f c = f a c'
  unfold Parse.bind
  rw [hrun]

protected theorem bind_none (hp : (p c).1 = none) : (p >>= f) c = (none, (p c).2) :=
  bind_of_none (Prod.ext hp rfl)

protected theorem bind_some (hp : (p c).1 = some a) : (p >>= f) c = f a (p c).2 :=
  bind_of_some (Prod.ext hp rfl)

end Runs

protected theorem id_map (p : Parse α) : id <$> p = p := by
  funext c
  show (p >>= Parse.pure) c = p c
  rcases hrun : p c with ⟨_ | a, c'⟩
  · exact bind_of_none hrun
  · exact bind_of_some hrun

protected theorem bind_assoc (p : Parse α) (f : α → Parse β) (g : β → Parse γ) :
    p >>= f >>= g = p >>= fun a => f a >>= g := by
  funext c
  rcases hrun : p c with ⟨_ | a, c'⟩
  · rw [bind_of_none hrun, bind_of_none (bind_of_none hrun)]
  · rw [bind_of_some hrun]
    show Parse.bind (p >>= f) g c = Parse.bind (f a) g c'
    unfold Parse.bind
    rw [bind_of_some hrun]

instance : LawfulMonad Parse :=
  LawfulMonad.mk' Parse Parse.id_map (fun _ _ => rfl) Parse.bind_assoc

section Words

variable {k : Kind} {c : Cursor}

theorem expect_of_kind (hk : c.current.kind = k) (e : SyntaxError) :
    expect k e c = (some c.current, c.advance) := by
  unfold expect Cursor.isAt
  rw [if_pos (decide_eq_true hk)]

theorem expect_of_ne (hk : c.current.kind ≠ k) (e : SyntaxError) :
    expect k e c = (none, c.report c.current e) := by
  unfold expect Cursor.isAt
  rw [decide_eq_false hk]
  rfl

theorem accept_of_kind (hk : c.current.kind = k) : accept k c = (some true, c.advance) := by
  unfold accept Cursor.isAt
  rw [if_pos (decide_eq_true hk)]

theorem accept_of_ne (hk : c.current.kind ≠ k) : accept k c = (some false, c) := by
  unfold accept Cursor.isAt
  rw [decide_eq_false hk]
  rfl

theorem accept_bind_of_kind (hk : c.current.kind = k) (f : Bool → Parse α) :
    (accept k >>= f) c = f true c.advance :=
  bind_of_some (accept_of_kind hk)

theorem accept_bind_of_ne (hk : c.current.kind ≠ k) (f : Bool → Parse α) :
    (accept k >>= f) c = f false c :=
  bind_of_some (accept_of_ne hk)

end Words

section Recovery

variable {p : Parse α} {recover : Cursor → Cursor} {c : Cursor}

theorem orRecover_some {a : α} (ha : (p c).1 = some a) :
    orRecover p recover c = (some (some a), (p c).2) := by
  unfold orRecover
  cases hrun : p c with
  | mk o c₁ =>
    rw [hrun] at ha
    obtain rfl : o = some a := ha
    rfl

theorem orRecover_none (ha : (p c).1 = none) :
    orRecover p recover c = (some none, recover (p c).2) := by
  unfold orRecover
  cases hrun : p c with
  | mk o c₁ =>
    rw [hrun] at ha
    obtain rfl : o = none := ha
    rfl

/-- A recovery makes no complaint. -/
theorem orRecover_reported (hr : Cursor.Recovers recover) (c : Cursor) :
    (orRecover p recover c).2.reported = (p c).2.reported := by
  cases ha : (p c).1 with
  | none => rw [orRecover_none ha]; exact (hr _).1
  | some a => rw [orRecover_some ha]

end Recovery

/-- What comes behind a choice is part of both branches. -/
theorem ite_bind (q : Prop) [Decidable q] (p p' : Parse α) (f : α → Parse β) :
    (if q then p else p') >>= f = if q then p >>= f else p' >>= f := by
  split <;> rfl

end Parse

/-- The name that an expression consists of. -/
def Expr.name? : Expr → Option Token
  | .ref name => some name
  | _ => none

namespace Grammar

open Parse

variable {room : Nat}

/-! ## 1. Steps -/

/-- Arguments up to a closing parenthesis. -/
def argumentList (room : Nat) : Parse (List Expr) := do
  let t ← peek
  if t.kind = .rightParen then pure [] else arguments room 0

/-- Parameters up to a closing parenthesis. -/
def parameterList (room : Nat) : Parse (List Param) := do
  let t ← peek
  if t.kind = .rightParen then pure [] else parameters room 0

/-- The initial value of a variable, if there is one. -/
def initializer (room : Nat) : Parse (Option Expr) := do
  if ← accept .assign then some <$> expression room else pure none

/-- Complains about the current token if there are too many entries before it. -/
def withinLimit (count : Nat) (e : SyntaxError) : Parse Unit := do
  let t ← peek
  if maxArgs ≤ count then complain t e

/-- The word of a type, or a complaint. -/
def typeWord (e : SyntaxError) : Parse TypeName := do
  let t ← peek
  match t.kind.type? with
  | none => failAt t e
  | some type =>
    skip
    pure ⟨type, t⟩

/-- The word of a type, if there is one. -/
def resultType : Parse (Option TypeName) := do
  let t ← peek
  match t.kind.type? with
  | none => pure none
  | some type =>
    skip
    pure (some ⟨type, t⟩)

theorem typeWord_of_type {c : Cursor} {type : BaseType} (h : c.current.kind.type? = some type)
    (e : SyntaxError) : typeWord e c = (some ⟨type, c.current⟩, c.advance) := by
  show (match c.current.kind.type? with | none => _ | some type => _ : Parse TypeName) c = _
  rw [h]
  rfl

theorem typeWord_of_none {c : Cursor} (h : c.current.kind.type? = none) (e : SyntaxError) :
    typeWord e c = (none, c.report c.current e) := by
  show (match c.current.kind.type? with | none => _ | some type => _ : Parse TypeName) c = _
  rw [h]
  rfl

theorem resultType_of_type {c : Cursor} {type : BaseType} (h : c.current.kind.type? = some type) :
    resultType c = (some (some ⟨type, c.current⟩), c.advance) := by
  show (match c.current.kind.type? with | none => _ | some type => _ :
    Parse (Option TypeName)) c = _
  rw [h]
  rfl

theorem resultType_of_none {c : Cursor} (h : c.current.kind.type? = none) :
    resultType c = (some none, c) := by
  show (match c.current.kind.type? with | none => _ | some type => _ :
    Parse (Option TypeName)) c = _
  rw [h]
  rfl

/-- An entry, and more entries behind a comma. -/
def alongCommas {α : Type} (entry : Parse α) (more : Parse (List α)) : Parse (List α) := do
  let a ← entry
  if ← accept .comma then
    let as ← more
    pure (a :: as)
  else pure [a]

/-- A parameter. -/
def parameter : Parse Param := do
  let type ← typeWord .parameterType
  let name ← expect .identifier .parameterName
  pure ⟨type, name⟩

/-- A variable with or without an initial value. -/
def declarator (type : BaseType) (isMutable : Bool) (room : Nat) : Parse Stmt := do
  let name ← expect .identifier .variableName
  let init ← initializer room
  pure (.declare type name init isMutable)

/-- The limit is checked at the token that comes next. -/
theorem withinLimit_bind {α : Type} (count : Nat) (e : SyntaxError) (f : Token → Parse α) :
    (withinLimit count e >>= fun _ => peek >>= f) = peek >>= fun t =>
      if maxArgs ≤ count then complain t e >>= fun _ => f t else f t := by
  funext c
  simp only [withinLimit, bind_assoc, ite_bind]
  show (if maxArgs ≤ count then _ else _ : Parse α) c =
    (if maxArgs ≤ count then _ else _ : Parse α) c
  split
  · rfl
  · rfl

/-! ## 2. Rules -/

theorem calls_eq (callee : Expr) : calls (room + 1) callee = (do
    if ← accept .leftParen then
      let args ← argumentList room
      let paren ← expect .rightParen .parenAfterArguments
      calls room (.call callee paren args)
    else pure callee) := by
  simp only [calls, argumentList, bind_assoc, ite_bind]

theorem arguments_eq (count : Nat) : arguments (room + 1) count = (do
    withinLimit count .tooManyArguments
    alongCommas (expression room) (arguments room (count + 1))) := by
  simp only [arguments, withinLimit, alongCommas, bind_assoc, ite_bind, pure_bind]

theorem names_eq :
    names (room + 1) = alongCommas (expect .identifier .identifierAfterScan) (names room) :=
  rfl

theorem declarators_eq (type : BaseType) (isMutable : Bool) :
    declarators type isMutable (room + 1) =
      alongCommas (declarator type isMutable room) (declarators type isMutable room) := by
  simp only [declarators, declarator, initializer, alongCommas, bind_assoc, ite_bind, pure_bind]

theorem declaration_eq : declaration room = (do
    let immutable ← accept .kwImmut
    let word ← typeWord .typeAfterImmut
    let declared ← declarators word.type (!immutable) room
    let _ ← accept .semicolon
    pure declared) := by
  simp only [declaration, typeWord, bind_assoc]
  refine bind_congr fun immutable => bind_congr fun t => ?_
  cases t.kind.type? with
  | none => rfl
  | some type => rfl

theorem parameters_eq (count : Nat) : parameters (room + 1) count = (do
    withinLimit count .tooManyParameters
    alongCommas parameter (parameters room (count + 1))) := by
  simp only [alongCommas, parameter, typeWord, bind_assoc]
  rw [withinLimit_bind]
  simp only [parameters]
  refine bind_congr fun t => ?_
  cases t.kind.type? with
  | none => rfl
  | some type => rfl

theorem function_eq : function (room + 1) = (do
    let result ← resultType
    let name ← expect .identifier .functionName
    let _ ← expect .leftParen .parenAfterFunctionName
    let params ← parameterList room
    let _ ← expect .rightParen .parenAfterParameters
    let _ ← expect .kwBegin .beginBeforeFunctionBody
    let _ ← expect .kwFn .fnAfterBegin
    let inner ← body room true
    let _ ← expect .kwEnd .endAfterFunctionBody
    let _ ← expect .kwFn .fnAfterEnd
    pure (.function name params inner result)) := by
  simp only [function, resultType, parameterList, bind_assoc, ite_bind]
  refine bind_congr fun t => ?_
  cases t.kind.type? with
  | none => rfl
  | some type => rfl

/-! ## 3. Looking at the current token -/

/-- Steps are the same if they do the same with the token that they look at. -/
theorem peek_congr {α : Type} {f g : Token → Parse α}
    (hfg : ∀ c : Cursor, f c.current c = g c.current c) : peek >>= f = peek >>= g :=
  funext hfg

theorem expect_eq (k : Kind) (e : SyntaxError) :
    expect k e = peek >>= fun t => if t.kind = k then take else fail e := by
  funext c
  show _ = (if c.current.kind = k then take else fail e) c
  by_cases hk : c.current.kind = k
  · rw [if_pos hk, expect_of_kind hk]
    rfl
  · rw [if_neg hk, expect_of_ne hk]
    rfl

theorem accept_eq (k : Kind) : accept k = peek >>= fun t =>
    if t.kind = k then skip >>= fun _ => pure true else pure false := by
  funext c
  show _ = (if c.current.kind = k then skip >>= fun _ => pure true else pure false : Parse Bool) c
  by_cases hk : c.current.kind = k
  · rw [if_pos hk, accept_of_kind hk]
    rfl
  · rw [if_neg hk, accept_of_ne hk]
    rfl

/-- Complains about the current token and goes on. -/
def complainHere (e : SyntaxError) : Parse Unit :=
  fun c => (some (), c.report c.current e)

/-- Does a step, and then complains about the token at which it started. -/
def blaming {α : Type} (p : Parse α) (e : SyntaxError) : Parse α := do
  let t ← peek
  let a ← p
  complain t e
  pure a

theorem blaming_of_none {α : Type} {p : Parse α} {e : SyntaxError} {c : Cursor}
    (hp : (p c).1 = none) : blaming p e c = (none, (p c).2) :=
  Parse.bind_none hp

theorem blaming_of_some {α : Type} {p : Parse α} {e : SyntaxError} {c : Cursor} {a : α}
    (hp : (p c).1 = some a) : blaming p e c = (some a, (p c).2.report c.current e) :=
  Parse.bind_some hp

/-- The value behind an assignment sign, if there is one. -/
def assignment (room : Nat) (e : Expr) : Parse Expr := do
  let op ← peek
  if op.kind = .assign then
    skip
    let value ← expression room
    match e with
    | .ref name => pure (.assign name value)
    | _ =>
      complain op .assignmentTarget
      pure e
  else pure e

theorem expression_eq : expression (room + 1) = operand room (some .or) >>= assignment room := by
  simp only [expression]
  rfl

/-- Only a name can be assigned to. -/
theorem assignment_eq (e : Expr) : assignment room e = peek >>= fun op =>
    if op.kind = .assign then skip >>= fun _ => expression room >>= fun value =>
      match e.name? with
      | some name => pure (.assign name value)
      | none => complain op .assignmentTarget >>= fun _ => pure e
    else pure e := by
  cases e <;> rfl

theorem assignment_of_name {e : Expr} {name : Token} (he : e.name? = some name) :
    assignment room e = peek >>= fun op =>
      if op.kind = .assign then skip >>= fun _ => expression room >>= fun value =>
        pure (.assign name value)
      else pure e := by
  rw [assignment_eq, he]

/-- The sign in front of the value is complained about once the value has been read. -/
theorem assignment_of_no_name {e : Expr} (he : e.name? = none) :
    assignment room e = peek >>= fun op =>
      if op.kind = .assign then
        blaming (skip >>= fun _ => expression room) .assignmentTarget >>= fun _ => pure e
      else pure e := by
  rw [assignment_eq, he]
  simp only [blaming, bind_assoc, pure_bind]
  refine peek_congr fun c => ?_
  by_cases hk : c.current.kind = .assign
  · rw [if_pos hk, if_pos hk]
    rfl
  · rw [if_neg hk, if_neg hk]

theorem withinLimit_eq (count : Nat) (e : SyntaxError) :
    withinLimit count e = if maxArgs ≤ count then complainHere e else pure () := by
  funext c
  show (if maxArgs ≤ count then complain c.current e else pure () : Parse Unit) c = _
  split <;> rfl

theorem typeWord_eq (e : SyntaxError) : typeWord e = (do
    let t ← peek
    match t.kind.type? with
    | none => fail e
    | some type =>
      skip
      pure ⟨type, t⟩) := by
  refine peek_congr fun c => ?_
  cases c.current.kind.type? with
  | none => rfl
  | some type => rfl

theorem primary_eq : primary (room + 1) = (do
    let t ← peek
    if isLiteral t.kind then
      skip
      pure (.literal t)
    else if t.kind = .identifier then
      skip
      pure (.ref t)
    else if t.kind = .leftParen then
      skip
      let e ← expression room
      let _ ← expect .rightParen .parenAfterExpression
      pure (.grouping e t.pos)
    else fail .expression) := by
  simp only [primary]
  refine peek_congr fun c => ?_
  by_cases hliteral : isLiteral c.current.kind = true
  · rw [if_pos hliteral, if_pos hliteral]
  rw [if_neg hliteral, if_neg hliteral]
  by_cases hname : c.current.kind = .identifier
  · rw [if_pos hname, if_pos hname]
  rw [if_neg hname, if_neg hname]
  by_cases hparen : c.current.kind = .leftParen
  · rw [if_pos hparen, if_pos hparen]
  · rw [if_neg hparen, if_neg hparen]
    rfl

/-- The statement that a token of the given kind starts. -/
def statementOf (room : Nat) : Kind → Parse Stmt
  | .kwDisplay => display room
  | .kwScan => scan room
  | .kwReturn => ret room
  | .kwIf => conditional room
  | .kwWhile => loop room
  | .kwBegin => block room
  | .type _ | .kwImmut => fail .declarationTooLate
  | .kwFn => fail .functionTooLate
  | _ => Stmt.expression <$> expression room

theorem statement_eq : statement (room + 1) = peek >>= fun t => statementOf room t.kind := by
  simp only [statement]
  refine peek_congr fun c => ?_
  cases c.current.kind with
  | _ => rfl

theorem alternatives_eq : alternatives (room + 1) = (do
    let t ← peek
    if t.kind = .kwElse then
      skip
      let u ← peek
      if u.kind = .kwIf then
        skip
        let c ← condition room "ELSE IF"
        let body ← fenced room .kwIf
        let others ← alternatives room
        pure (.elseIf c body others)
      else
        let body ← fenced room .kwIf
        pure (.otherwise body)
    else pure .done) := by
  simp only [alternatives]
  funext c
  show (if c.current.kind = .kwElse then _ else _ : Parse Alternatives) c =
    (if c.current.kind = .kwElse then _ else _ : Parse Alternatives) c
  by_cases helse : c.current.kind = .kwElse
  · have hnext : c.advance.current = c.next := by
      unfold Cursor.advance Cursor.isAt Cursor.next
      rw [helse, if_neg (by decide)]
      cases c.rest <;> rfl
    rw [if_pos helse, if_pos helse]
    show (if c.next.kind = .kwIf then _ else _ : Parse Alternatives) c.advance =
      (if c.advance.current.kind = .kwIf then _ else _ : Parse Alternatives) c.advance
    rw [hnext]
  · rw [if_neg helse, if_neg helse]

theorem programEnd_eq (ss : List Stmt) :
    (peek >>= fun t => if t.kind ≠ .eof then
      complain t .nothingAfterProgram >>= fun _ => pure ss else pure ss) = peek >>= fun t =>
        if t.kind ≠ .eof then complainHere .nothingAfterProgram >>= fun _ => pure ss
        else pure ss := by
  refine peek_congr fun c => ?_
  split <;> rfl

end Grammar

end FencedCode
