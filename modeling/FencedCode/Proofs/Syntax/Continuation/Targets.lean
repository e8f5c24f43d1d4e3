import FencedCode.Proofs.Syntax.Soundness.Programs
import FencedCode.Proofs.Syntax.Continuation.Steps
import FencedCode.Proofs.Syntax.Unfinished

/-!
# What accepted texts assign to

In a text that is read without a complaint every assignment sign follows a name that is no operand
of an operator. This is seen from the end of the text: where a rule stops, no wrong sign comes
behind, and then none comes behind the place where the rule started. The one rule that passes a
sign after an operand has yielded a name, and a rule of operands yields a name only if it has
passed that name alone.

* `Cursor.Orderly`, `Cursor.Operable` -- no wrong sign comes behind the cursor;
* `Heeds` -- that a step which stops at an orderly cursor was started at one;
* `HeedsExpr`, `heedsExpr`, `heedsStmts` -- **all rules do so**, by induction on the room;
* `Program.assignsToNames_of_accepted` -- **in an accepted text only names are assigned to**.
-/

namespace FencedCode

open Parse Grammar

/-! ## 1. Cursors before which all is in order -/

/-- Is a token of the kind passed by other rules than those of operators and assignments? -/
def isPlain (k : Kind) : Bool :=
  !isOperator k && k ≠ .assign && k ≠ .eof

namespace Cursor

/-- Every assignment sign behind the current token follows a name that is no operand. -/
def Targets (c : Cursor) : Prop :=
  assignsToNames (c.tokens.map Token.kind) = true

/-- Moreover the cursor does not stand at an assignment sign. -/
structure Orderly (c : Cursor) : Prop where
  targets : c.Targets
  current : c.current.kind ≠ .assign

/-- Moreover no assignment sign follows the current token, so that it may be an operand. -/
structure Operable (c : Cursor) : Prop extends c.Orderly where
  next : (c.rest.map Token.kind).head? ≠ some .assign

variable {c : Cursor}

theorem Closed.kinds_cons (hc : c.Closed) (hk : c.current.kind ≠ .eof) :
    c.tokens.map Token.kind = c.current.kind :: c.advance.tokens.map Token.kind := by
  rw [hc.advance_tokens hk]
  rfl

/-- One token more, which a sign may follow at once if it is a name, and behind the next token if
    it is no operator. -/
theorem Closed.targets (hc : c.Closed) (hk : c.current.kind ≠ .eof)
    (hfirst : c.advance.current.kind = .assign → c.current.kind = .identifier)
    (hsecond : (c.advance.rest.map Token.kind).head? = some .assign →
      isOperator c.current.kind = false) (h : c.advance.Targets) : c.Targets := by
  unfold Targets
  rw [hc.kinds_cons hk, assignsToNames, Bool.and_eq_true]
  exact ⟨mayPrecede_cons.mpr ⟨hfirst, hsecond⟩, h⟩

theorem Orderly.head_ne (h : c.Orderly) : (c.tokens.map Token.kind).head? ≠ some .assign :=
  fun heq => h.current (Option.some.inj heq)

/-- A plain token before an orderly cursor. -/
theorem Orderly.of_advance (h : c.advance.Orderly) (hc : c.Closed)
    (hk : isPlain c.current.kind = true) : c.Operable := by
  simp only [isPlain, Bool.and_eq_true, decide_eq_true_eq, Bool.not_eq_true'] at hk
  obtain ⟨⟨hop, hassign⟩, heof⟩ := hk
  refine ⟨⟨hc.targets heof (fun heq => absurd heq h.current) (fun _ => hop) h.targets, hassign⟩, ?_⟩
  rw [← hc.advance_tokens heof]
  exact h.head_ne

/-- A name before an assignment sign or something else. -/
theorem Targets.of_advance (h : c.advance.Targets) (hc : c.Closed)
    (hk : c.current.kind = .identifier) : c.Orderly := by
  refine ⟨hc.targets (by rw [hk]; decide) (fun _ => hk) (fun _ => ?_) h, ?_⟩
  · rw [hk]
    rfl
  · rw [hk]
    decide

/-- An assignment sign before a value. -/
theorem Orderly.of_assign (h : c.advance.Orderly) (hc : c.Closed)
    (hk : c.current.kind = .assign) : c.Targets := by
  refine hc.targets (by rw [hk]; decide) (fun heq => absurd heq h.current) (fun _ => ?_) h.targets
  rw [hk]
  rfl

/-- An operator before an operand. -/
theorem Operable.of_operator (h : c.advance.Operable) (hc : c.Closed)
    (hk : isOperator c.current.kind = true) : c.Operable := by
  have heof := ne_eof_of_isOperator hk
  have hassign : c.current.kind ≠ .assign := fun hassign => by rw [hassign] at hk; cases hk
  refine ⟨⟨hc.targets heof (fun heq => absurd heq h.current) (fun heq => absurd heq h.next)
    h.targets, hassign⟩, ?_⟩
  rw [← hc.advance_tokens heof]
  exact h.head_ne

end Cursor

/-! ## 2. Steps that are orderly -/

/-- If the step ends without a complaint and stops at an orderly cursor, it was started at one. -/
def Heeds {α : Type} (p : Parse α) (c : Cursor) : Prop :=
  Accounts p c fun _ _ c' => c'.Orderly → c.Orderly

section Steps

variable {α β : Type} {c : Cursor}

/-- **Steps one after another.** -/
theorem Heeds.bind {p : Parse α} {f : α → Parse β} (hp : Heeds p c)
    (hf : ∀ a c₁, Heeds (f a) c₁) : Heeds (p >>= f) c :=
  Accounts.bind hp fun a c₁ => (hf a c₁).imp fun _ _ _ hsecond _ hfirst hend =>
    hfirst (hsecond hend)

theorem heeds_pure (a : α) : Heeds (pure a) c :=
  accounts_pure id

theorem Heeds.map {p : Parse α} (hp : Heeds p c) (g : α → β) :
    Heeds (p >>= fun a => pure (g a)) c :=
  hp.bind fun _ _ => heeds_pure _

theorem heeds_fail (e : SyntaxError) : Heeds (fail e : Parse α) c :=
  accounts_fail e

theorem heeds_peek {f : Token → Parse α} (hf : Heeds (f c.current) c) : Heeds (peek >>= f) c :=
  accounts_peek hf

theorem heeds_complain (t : Token) (e : SyntaxError) : Heeds (complain t e) c :=
  (accounts_complain t e).imp fun _ _ _ h => h.elim

theorem isPlain_of_isLiteral {k : Kind} (hk : isLiteral k = true) : isPlain k = true := by
  cases k <;> first | rfl | cases hk

theorem ne_eof_of_isPlain {k : Kind} (hk : isPlain k = true) : k ≠ .eof := by
  rintro rfl
  cases hk

/-- A plain token is passed, and another step follows. -/
theorem heeds_step {p q : Parse α} (hrun : p c = q c.advance) (hk : isPlain c.current.kind = true)
    (hq : Heeds q c.advance) : Heeds p c :=
  accounts_of_closed fun hc => accounts_step hrun (ne_eof_of_isPlain hk) <|
    hq.imp fun _ _ _ hbehind hend => ((hbehind hend).of_advance hc hk).toOrderly

theorem heeds_take {f : Token → Parse α} (hk : isPlain c.current.kind = true)
    (hf : Heeds (f c.current) c.advance) : Heeds (take >>= f) c :=
  heeds_step rfl hk hf

theorem heeds_skip {f : Unit → Parse α} (hk : isPlain c.current.kind = true)
    (hf : Heeds (f ()) c.advance) : Heeds (skip >>= f) c :=
  heeds_step rfl hk hf

theorem heeds_expect {k : Kind} (e : SyntaxError) (hk : isPlain k = true) :
    Heeds (expect k e) c := by
  by_cases hat : c.current.kind = k
  · refine heeds_step (q := pure c.current) ?_ (by rw [hat]; exact hk) (heeds_pure _)
    rw [expect_of_kind hat]
    rfl
  · refine accounts_congr (q := fail e) ?_ (accounts_fail e)
    rw [expect_of_ne hat]
    rfl

theorem heeds_accept {k : Kind} (hk : isPlain k = true) : Heeds (accept k) c := by
  by_cases hat : c.current.kind = k
  · exact heeds_step (q := pure true) (accept_of_kind hat) (by rw [hat]; exact hk) (heeds_pure _)
  · exact accounts_congr (q := pure false) (accept_of_ne hat) (heeds_pure _)

theorem heeds_orRecover {p : Parse α} {recover : Cursor → Cursor} (hp : Heeds p c)
    (hr : Cursor.Recovers recover) : Heeds (orRecover p recover) c := by
  refine (accounts_orRecover hr hp).imp fun _ _ _ h => ?_
  obtain ⟨_, _, horderly⟩ := h
  exact horderly

theorem heeds_alongCommas {entry : Parse α} {more : Parse (List α)} (hentry : Heeds entry c)
    (hmore : ∀ c₁, Heeds more c₁) : Heeds (alongCommas entry more) c := by
  refine hentry.bind fun a c₁ => (heeds_accept rfl).bind fun b c₂ => ?_
  cases b with
  | true => exact (hmore c₂).map _
  | false => exact heeds_pure _

theorem heeds_withinLimit (count : Nat) (e : SyntaxError) : Heeds (withinLimit count e) c := by
  refine heeds_peek ?_
  split
  · exact heeds_complain _ _
  · exact heeds_pure _

end Steps

/-! ## 3. Expressions -/

/-- What is known of an operand read from `c` to `c'`: if it is a name, it was read alone. -/
structure Cursor.ReadsOperand (c : Cursor) (e : Expr) (c' : Cursor) : Prop where
  operable : c'.Orderly → c.Operable
  name : ∀ {name : Token}, e = .ref name → c.current.kind = .identifier ∧ c' = c.advance

/-- What is known of a loop that was started at `c` with `left` and stopped at `c'` with `e`: if it
    is a name, nothing was read. -/
structure Cursor.Extends (c : Cursor) (left e : Expr) (c' : Cursor) : Prop where
  orderly : c'.Orderly → c.Orderly
  name : ∀ {name : Token}, e = .ref name → left = e ∧ c' = c

/-- Given `room`, the rules of expressions are orderly. -/
structure HeedsExpr (room : Nat) : Prop where
  expression (c : Cursor) : Heeds (Grammar.expression room) c
  operand (o : Option Level) (c : Cursor) :
    Accounts (Grammar.operand room o) c fun e _ c' => c.ReadsOperand e c'
  chain (l : Level) (left : Expr) (c : Cursor) :
    Accounts (Grammar.chain room l left) c fun e _ c' => c.Extends left e c'
  unary (c : Cursor) : Accounts (Grammar.unary room) c fun e _ c' => c.ReadsOperand e c'
  calls (callee : Expr) (c : Cursor) :
    Accounts (Grammar.calls room callee) c fun e _ c' => c.Extends callee e c'
  arguments (count : Nat) (c : Cursor) : Heeds (Grammar.arguments room count) c
  primary (c : Cursor) : Accounts (Grammar.primary room) c fun e _ c' => c.ReadsOperand e c'

section Expressions

variable {room : Nat} {c : Cursor}

/-- An operand, and a loop behind it. -/
theorem accounts_extended {p : Parse Expr} {f : Expr → Parse Expr}
    (hp : Accounts p c fun e _ c' => c.ReadsOperand e c')
    (hf : ∀ left c₁, Accounts (f left) c₁ fun e _ c' => c₁.Extends left e c') :
    Accounts (p >>= f) c fun e _ c' => c.ReadsOperand e c' := by
  refine hp.bind fun left c₁ => (hf left c₁).imp fun e _ c' hloop _ hleft => ?_
  refine ⟨fun hend => hleft.operable (hloop.orderly hend), fun hname => ?_⟩
  obtain ⟨rfl, rfl⟩ := hloop.name hname
  exact hleft.name hname

theorem accounts_left (left : Expr) :
    Accounts (pure left) c fun e _ c' => c.Extends left e c' :=
  accounts_pure ⟨id, fun _ => ⟨rfl, rfl⟩⟩

/-- The sign of an assignment is passed behind a name. -/
theorem assignment_heeds (ih : HeedsExpr room) (e : Expr) (c : Cursor) :
    Accounts (assignment room e) c fun _ _ c' => c'.Orderly →
      c.Orderly ∨ (∃ name, e = .ref name) ∧ c.Targets := by
  refine accounts_peek ?_
  by_cases hassign : c.current.kind = .assign
  · rw [if_pos hassign]
    refine accounts_of_closed fun hc => accounts_skip (by rw [hassign]; decide) ?_
    cases e with
    | ref name =>
      refine ((ih.expression _).map (Expr.assign name)).imp fun _ _ _ hvalue hend => ?_
      exact .inr ⟨⟨name, rfl⟩, (hvalue hend).of_assign hc hassign⟩
    | _ =>
      exact Accounts.bind (ih.expression _) fun _ _ =>
        (accounts_complain _ _).bind fun _ _ => accounts_pure fun _ h => h.elim
  · rw [if_neg hassign]
    exact accounts_pure .inl

theorem expression_heeds (ih : HeedsExpr room) (c : Cursor) : Heeds (expression (room + 1)) c := by
  rw [expression_eq]
  refine accounts_of_closed fun hc => (ih.operand (some .or) c).bind fun e c₁ => ?_
  refine (assignment_heeds ih e c₁).imp fun _ _ _ hbehind _ hoperand hend => ?_
  rcases hbehind hend with horderly | ⟨⟨name, hname⟩, htargets⟩
  · exact (hoperand.operable horderly).toOrderly
  · obtain ⟨hkind, rfl⟩ := hoperand.name hname
    exact htargets.of_advance hc hkind

theorem operand_heeds (ih : HeedsExpr room) (o : Option Level) (c : Cursor) :
    Accounts (operand (room + 1) o) c fun e _ c' => c.ReadsOperand e c' := by
  cases o with
  | none => exact ih.unary c
  | some l => exact accounts_extended (ih.operand l.tighter c) (ih.chain l)

/-- An operator is passed, and an operand behind it. -/
theorem accounts_operator {p : Parse Expr} {f : Expr → Parse Expr} {R : Expr → Cursor → Prop}
    (hp : ∀ c₁, Accounts p c₁ fun e _ c' => c₁.ReadsOperand e c')
    (hk : isOperator c.current.kind = true)
    (hf : ∀ e c₁, Accounts (f e) c₁ fun e' _ c' => (c₁.Orderly → c.Operable) → R e' c') :
    Accounts (skip >>= fun _ => p >>= f) c fun e _ c' => R e c' := by
  refine accounts_of_closed fun hc => accounts_skip (ne_eof_of_isOperator hk) <|
    (hp _).bind fun e c₁ => ?_
  refine (hf e c₁).imp fun _ _ _ hR _ hoperand => hR fun hend => ?_
  exact (hoperand.operable hend).of_operator hc hk

theorem combine_ne_ref (l : Level) (left right : Expr) (op name : Token) :
    l.combine left op right ≠ .ref name := by
  rw [Level.combine_eq]
  cases l.isLogical <;> nofun

theorem chain_heeds (ih : HeedsExpr room) (l : Level) (left : Expr) (c : Cursor) :
    Accounts (chain (room + 1) l left) c fun e _ c' => c.Extends left e c' := by
  simp only [chain]
  refine accounts_peek ?_
  by_cases hop : l.has c.current.kind = true
  · rw [if_pos hop]
    refine accounts_operator (ih.operand l.tighter) (isOperator_of_has hop) fun right c₁ =>
      (ih.chain l _ c₁).imp fun e _ c' hloop hoperand => ?_
    refine ⟨fun hend => (hoperand (hloop.orderly hend)).toOrderly, fun {name} hname => ?_⟩
    exact absurd ((hloop.name hname).1.trans hname) (combine_ne_ref _ _ _ _ _)
  · rw [if_neg hop]
    exact accounts_left left

theorem unary_heeds (ih : HeedsExpr room) (c : Cursor) :
    Accounts (unary (room + 1)) c fun e _ c' => c.ReadsOperand e c' := by
  simp only [unary]
  refine accounts_peek ?_
  by_cases hsign : isSign c.current.kind = true
  · rw [if_pos hsign]
    exact accounts_operator ih.unary (isOperator_of_isSign hsign) fun e c₁ =>
      accounts_pure fun hoperand => ⟨hoperand, fun hname => by cases hname⟩
  · rw [if_neg hsign]
    exact accounts_extended (ih.primary c) ih.calls

theorem argumentList_heeds (ih : HeedsExpr room) (c : Cursor) : Heeds (argumentList room) c := by
  refine heeds_peek ?_
  split
  · exact heeds_pure _
  · exact ih.arguments 0 c

theorem calls_heeds (ih : HeedsExpr room) (callee : Expr) (c : Cursor) :
    Accounts (calls (room + 1) callee) c fun e _ c' => c.Extends callee e c' := by
  rw [calls_eq]
  by_cases hparen : c.current.kind = .leftParen
  · have hplain : isPlain c.current.kind = true := by
      rw [hparen]
      rfl
    refine accounts_of_closed fun hc => accounts_step
      (q := argumentList room >>= fun args => expect .rightParen .parenAfterArguments >>=
        fun paren => calls room (.call callee paren args)) ?_ (ne_eof_of_isPlain hplain) ?_
    · rw [accept_bind_of_kind hparen]
      rfl
    · refine Accounts.bind (argumentList_heeds ih _) fun args c₁ => ?_
      refine Accounts.bind (heeds_expect _ rfl) fun paren c₂ => (ih.calls _ c₂).imp ?_
      intro e _ c' hloop _ hexpect _ hargs
      refine ⟨fun hend => ?_, fun hname => ?_⟩
      · exact ((hargs (hexpect (hloop.orderly hend))).of_advance hc hplain).toOrderly
      · cases (hloop.name hname).1.trans hname
  · refine accounts_congr (q := pure callee) ?_ (accounts_left callee)
    rw [accept_bind_of_ne hparen]
    rfl

theorem arguments_heeds (ih : HeedsExpr room) (count : Nat) (c : Cursor) :
    Heeds (arguments (room + 1) count) c := by
  rw [arguments_eq]
  exact (heeds_withinLimit _ _).bind fun _ c₁ =>
    heeds_alongCommas (ih.expression c₁) (ih.arguments (count + 1))

theorem primary_heeds (ih : HeedsExpr room) (c : Cursor) :
    Accounts (primary (room + 1)) c fun e _ c' => c.ReadsOperand e c' := by
  rw [primary_eq]
  refine accounts_of_closed fun hc => accounts_peek ?_
  have hpassed (hk : isPlain c.current.kind = true) : c.advance.Orderly → c.Operable := fun hend =>
    hend.of_advance hc hk
  split
  · rename_i hliteral
    have hplain := isPlain_of_isLiteral hliteral
    exact accounts_skip (ne_eof_of_isPlain hplain) (accounts_pure ⟨hpassed hplain, nofun⟩)
  split
  · rename_i hname
    have hplain : isPlain c.current.kind = true := by
      rw [hname]
      rfl
    refine accounts_skip (ne_eof_of_isPlain hplain) (accounts_pure ⟨hpassed hplain, fun _ => ?_⟩)
    exact ⟨hname, rfl⟩
  split
  · rename_i hparen
    have hplain : isPlain c.current.kind = true := by
      rw [hparen]
      rfl
    refine accounts_skip (ne_eof_of_isPlain hplain) ?_
    refine Accounts.bind (ih.expression _) fun e c₁ => Accounts.bind (heeds_expect _ rfl)
      fun _ c₂ => accounts_pure fun _ hexpect _ hinner => ⟨fun hend => ?_, nofun⟩
    exact hpassed hplain (hinner (hexpect hend))
  · exact accounts_fail _

/-- **The rules of expressions are orderly.** -/
theorem heedsExpr : ∀ room, HeedsExpr room
  | 0 => ⟨fun _ => accounts_fail _, fun _ _ => accounts_fail _, fun _ _ _ => accounts_fail _,
      fun _ => accounts_fail _, fun _ _ => accounts_fail _, fun _ _ => accounts_fail _,
      fun _ => accounts_fail _⟩
  | room + 1 =>
    have ih := heedsExpr room
    ⟨expression_heeds ih, operand_heeds ih, chain_heeds ih, unary_heeds ih, calls_heeds ih,
      arguments_heeds ih, primary_heeds ih⟩

end Expressions

/-! ## 4. Declarations -/

section Declarations

variable {room : Nat} {c : Cursor}

theorem typeWord_heeds (e : SyntaxError) (c : Cursor) : Heeds (typeWord e) c := by
  refine heeds_peek ?_
  cases htype : c.current.kind.type? with
  | none => exact accounts_failAt _ _
  | some type =>
    refine heeds_skip ?_ (heeds_pure _)
    rw [kind_of_type? htype]
    rfl

theorem resultType_heeds (c : Cursor) : Heeds resultType c := by
  refine heeds_peek ?_
  cases htype : c.current.kind.type? with
  | none => exact heeds_pure _
  | some type =>
    refine heeds_skip ?_ (heeds_pure _)
    rw [kind_of_type? htype]
    rfl

/-- The sign before an initial value. -/
theorem initializer_heeds (c : Cursor) :
    Accounts (initializer room) c fun _ _ c' => c'.Orderly → c.Targets := by
  by_cases hassign : c.current.kind = .assign
  · refine accounts_of_closed fun hc => accounts_step (q := some <$> expression room) ?_
      (by rw [hassign]; decide) ?_
    · unfold initializer
      rw [accept_bind_of_kind hassign]
      rfl
    · refine (((heedsExpr room).expression _).map some).imp fun _ _ _ hvalue hend => ?_
      exact (hvalue hend).of_assign hc hassign
  · refine accounts_congr (q := pure none) ?_ (accounts_pure Cursor.Orderly.targets)
    unfold initializer
    rw [accept_bind_of_ne hassign]
    rfl

theorem declarator_heeds (type : BaseType) (isMutable : Bool) (c : Cursor) :
    Heeds (declarator type isMutable room) c := by
  by_cases hname : c.current.kind = .identifier
  · have hexpect := expect_of_kind hname .variableName
    refine accounts_of_closed fun hc => accounts_step (q := initializer room >>= fun init =>
      pure (.declare type c.current init isMutable)) ?_ (by rw [hname]; decide) ?_
    · unfold declarator
      rw [Parse.bind_some (congrArg Prod.fst hexpect), hexpect]
    · refine (initializer_heeds _).bind fun _ _ => accounts_pure fun _ hbehind hend => ?_
      exact (hbehind hend).of_advance hc hname
  · have hexpect := expect_of_ne hname .variableName
    refine accounts_congr (q := fail .variableName) ?_ (accounts_fail _)
    unfold declarator
    rw [Parse.bind_none (congrArg Prod.fst hexpect), hexpect]
    rfl

theorem declarators_heeds (type : BaseType) (isMutable : Bool) : ∀ (room : Nat) (c : Cursor),
    Heeds (declarators type isMutable room) c
  | 0, _ => heeds_fail _
  | room + 1, c => by
    rw [declarators_eq]
    exact heeds_alongCommas (declarator_heeds _ _ c) (declarators_heeds type isMutable room)

theorem declaration_heeds (c : Cursor) : Heeds (declaration room) c := by
  rw [declaration_eq]
  exact (heeds_accept rfl).bind fun _ c₁ => (typeWord_heeds _ c₁).bind fun _ c₂ =>
    (declarators_heeds _ _ room c₂).bind fun _ _ => (heeds_accept rfl).map _

theorem declarations_heeds : ∀ (room : Nat) (c : Cursor), Heeds (declarations room) c
  | 0, _ => heeds_fail _
  | room + 1, c => by
    simp only [declarations]
    refine heeds_peek ?_
    split
    · exact (heeds_orRecover (declaration_heeds c) Cursor.recovers_synchronize).bind fun _ c₁ =>
        (declarations_heeds room c₁).map _
    · exact heeds_pure _

theorem parameter_heeds (c : Cursor) : Heeds parameter c :=
  (typeWord_heeds _ c).bind fun _ _ => (heeds_expect _ rfl).map _

theorem parameters_heeds : ∀ (room count : Nat) (c : Cursor), Heeds (parameters room count) c
  | 0, _, _ => heeds_fail _
  | room + 1, count, c => by
    rw [parameters_eq]
    exact (heeds_withinLimit _ _).bind fun _ c₁ =>
      heeds_alongCommas (parameter_heeds c₁) (parameters_heeds room (count + 1))

theorem parameterList_heeds (c : Cursor) : Heeds (parameterList room) c := by
  refine heeds_peek ?_
  split
  · exact heeds_pure _
  · exact parameters_heeds room 0 c

theorem condition_heeds (keyword : String) (c : Cursor) : Heeds (condition room keyword) c :=
  (heeds_expect _ rfl).bind fun _ c₁ => ((heedsExpr room).expression c₁).bind fun _ _ =>
    (heeds_expect _ rfl).map _

theorem names_heeds : ∀ (room : Nat) (c : Cursor), Heeds (names room) c
  | 0, _ => heeds_fail _
  | room + 1, _ => by
    rw [names_eq]
    exact heeds_alongCommas (heeds_expect _ rfl) (names_heeds room)

end Declarations

/-! ## 5. Statements -/

/-- Given `room`, the rules of statements are orderly. -/
structure HeedsStmts (room : Nat) : Prop where
  statement (c : Cursor) : Heeds (Grammar.statement room) c
  statements (c : Cursor) : Heeds (Grammar.statements room) c
  /-- The keyword is passed without being looked at. -/
  conditional (c : Cursor) : c.current.kind = .kwIf → Heeds (Grammar.conditional room) c
  alternatives (c : Cursor) : Heeds (Grammar.alternatives room) c
  loop (c : Cursor) : c.current.kind = .kwWhile → Heeds (Grammar.loop room) c
  block (c : Cursor) : c.current.kind = .kwBegin → Heeds (Grammar.block room) c
  fenced (fence : Kind) (c : Cursor) : isPlain fence = true → Heeds (Grammar.fenced room fence) c
  body (withFunctions : Bool) (c : Cursor) : Heeds (Grammar.body room withFunctions) c
  functions (c : Cursor) : Heeds (Grammar.functions room) c
  function (c : Cursor) : Heeds (Grammar.function room) c

section Statements

variable {α : Type} {room : Nat} {c : Cursor}

/-- A keyword is passed. -/
theorem heeds_keyword {k : Kind} {f : Token → Parse α} (hk : c.current.kind = k)
    (hplain : isPlain k = true) (hf : ∀ t c₁, Heeds (f t) c₁) : Heeds (take >>= f) c :=
  heeds_take (by rw [hk]; exact hplain) (hf _ _)

theorem display_heeds (hk : c.current.kind = .kwDisplay) : Heeds (display room) c :=
  heeds_keyword hk rfl fun _ _ => (heeds_expect _ rfl).bind fun _ c₁ =>
    ((heedsExpr room).expression c₁).map _

theorem scan_heeds (hk : c.current.kind = .kwScan) : Heeds (scan room) c :=
  heeds_keyword hk rfl fun _ _ => (heeds_expect _ rfl).bind fun _ c₁ => (names_heeds room c₁).map _

theorem ret_heeds (hk : c.current.kind = .kwReturn) : Heeds (ret room) c := by
  refine heeds_keyword hk rfl fun _ c₁ => heeds_peek ?_
  split
  · exact ((heedsExpr room).expression c₁).map _
  · exact heeds_pure _

theorem statement_heeds (ih : HeedsStmts room) (c : Cursor) : Heeds (statement (room + 1)) c := by
  rw [statement_eq]
  refine heeds_peek ?_
  cases hk : c.current.kind with
  | kwDisplay => exact display_heeds hk
  | kwScan => exact scan_heeds hk
  | kwReturn => exact ret_heeds hk
  | kwIf => exact ih.conditional c hk
  | kwWhile => exact ih.loop c hk
  | kwBegin => exact ih.block c hk
  | kwFn => exact heeds_fail _
  | kwImmut => exact heeds_fail _
  | type t => exact heeds_fail _
  | _ => exact ((heedsExpr room).expression c).map _

theorem statements_heeds (ih : HeedsStmts room) (c : Cursor) :
    Heeds (statements (room + 1)) c := by
  simp only [statements]
  refine heeds_peek ?_
  split
  · exact heeds_pure _
  split
  · rename_i hsemicolon
    exact heeds_skip (by rw [hsemicolon]; rfl) (ih.statements _)
  · refine (heeds_orRecover (ih.statement c) Cursor.recovers_synchronize).bind fun o c₁ => ?_
    cases o with
    | none => exact ih.statements c₁
    | some s => exact (heeds_accept rfl).bind fun _ c₂ => (ih.statements c₂).map _

theorem conditional_heeds (ih : HeedsStmts room) (c : Cursor) (hk : c.current.kind = .kwIf) :
    Heeds (conditional (room + 1)) c := by
  simp only [conditional]
  exact heeds_keyword hk rfl fun _ c₁ => (condition_heeds _ c₁).bind fun _ c₂ =>
    (ih.fenced _ c₂ rfl).bind fun _ c₃ => (ih.alternatives c₃).map _

theorem alternatives_heeds (ih : HeedsStmts room) (c : Cursor) :
    Heeds (alternatives (room + 1)) c := by
  rw [alternatives_eq]
  refine heeds_peek ?_
  split
  · rename_i helse
    refine heeds_skip (by rw [helse]; rfl) (heeds_peek ?_)
    split
    · rename_i hif
      exact heeds_skip (by rw [hif]; rfl) <| (condition_heeds _ _).bind fun _ c₁ =>
        (ih.fenced _ c₁ rfl).bind fun _ c₂ => (ih.alternatives c₂).map _
    · exact (ih.fenced _ _ rfl).map _
  · exact heeds_pure _

theorem loop_heeds (ih : HeedsStmts room) (c : Cursor) (hk : c.current.kind = .kwWhile) :
    Heeds (loop (room + 1)) c := by
  simp only [loop]
  exact heeds_keyword hk rfl fun _ c₁ => (condition_heeds _ c₁).bind fun _ c₂ =>
    (ih.fenced _ c₂ rfl).map _

theorem block_heeds (ih : HeedsStmts room) (c : Cursor) (hk : c.current.kind = .kwBegin) :
    Heeds (block (room + 1)) c := by
  simp only [block]
  exact heeds_keyword hk rfl fun _ c₁ => (ih.body _ c₁).bind fun _ _ => (heeds_expect _ rfl).map _

theorem fenced_heeds (ih : HeedsStmts room) (fence : Kind) (c : Cursor)
    (hfence : isPlain fence = true) : Heeds (fenced (room + 1) fence) c := by
  simp only [fenced]
  exact (heeds_expect _ rfl).bind fun _ _ => (heeds_expect _ hfence).bind fun _ c₁ =>
    (ih.statements c₁).bind fun _ _ => (heeds_expect _ rfl).bind fun _ _ =>
    (heeds_expect _ hfence).map _

theorem body_heeds (ih : HeedsStmts room) (withFunctions : Bool) (c : Cursor) :
    Heeds (body (room + 1) withFunctions) c := by
  simp only [body]
  refine (declarations_heeds room c).bind fun _ c₁ => ?_
  cases withFunctions with
  | true => exact (ih.functions c₁).bind fun _ c₂ => (ih.statements c₂).map _
  | false => exact (heeds_pure _).bind fun _ c₂ => (ih.statements c₂).map _

theorem functions_heeds (ih : HeedsStmts room) (c : Cursor) : Heeds (functions (room + 1)) c := by
  simp only [functions]
  refine (heeds_accept rfl).bind fun b c₁ => ?_
  split
  · exact (heeds_orRecover (ih.function c₁) Cursor.recovers_skipFunction).bind fun _ c₂ =>
      (ih.functions c₂).map _
  · exact heeds_pure _

theorem function_heeds (ih : HeedsStmts room) (c : Cursor) : Heeds (function (room + 1)) c := by
  rw [function_eq]
  refine (resultType_heeds c).bind fun _ _ => (heeds_expect _ rfl).bind fun _ _ =>
    (heeds_expect _ rfl).bind fun _ c₁ => (parameterList_heeds c₁).bind fun _ _ => ?_
  refine (heeds_expect _ rfl).bind fun _ _ => (heeds_expect _ rfl).bind fun _ _ =>
    (heeds_expect _ rfl).bind fun _ c₂ => (ih.body true c₂).bind fun _ _ => ?_
  exact (heeds_expect _ rfl).bind fun _ _ => (heeds_expect _ rfl).map _

/-- **The rules of statements are orderly.** -/
theorem heedsStmts : ∀ room, HeedsStmts room
  | 0 => ⟨fun _ => heeds_fail _, fun _ => heeds_fail _, fun _ _ => heeds_fail _,
      fun _ => heeds_fail _, fun _ _ => heeds_fail _, fun _ _ => heeds_fail _,
      fun _ _ _ => heeds_fail _, fun _ _ => heeds_fail _, fun _ => heeds_fail _,
      fun _ => heeds_fail _⟩
  | room + 1 =>
    have ih := heedsStmts room
    ⟨statement_heeds ih, statements_heeds ih, conditional_heeds ih, alternatives_heeds ih,
      loop_heeds ih, block_heeds ih, fenced_heeds ih, body_heeds ih, functions_heeds ih,
      function_heeds ih⟩

end Statements

/-! ## 6. Programs -/

theorem fence_heeds {k : Kind} (e : SyntaxError) (hk : isPlain k = true) (c : Cursor) :
    Heeds (fence k e) c :=
  (heeds_orRecover (heeds_expect e hk) Cursor.recovers_id).map _

theorem program_heeds (room : Nat) (c : Cursor) : Heeds (program room) c := by
  simp only [program]
  refine ((heedsStmts room).functions c).bind fun _ c₁ => ?_
  refine (fence_heeds _ rfl c₁).bind fun _ c₂ => ?_
  split
  · exact heeds_pure _
  refine (fence_heeds _ rfl c₂).bind fun _ c₃ => ?_
  split
  · exact heeds_pure _
  refine ((heedsStmts room).body false c₃).bind fun _ c₄ => (fence_heeds _ rfl c₄).bind
    fun _ c₅ => ?_
  split
  · exact heeds_pure _
  refine (fence_heeds _ rfl c₅).bind fun _ c₆ => ?_
  split
  · exact heeds_pure _
  refine heeds_peek ?_
  split
  · exact (heeds_complain _ _).map _
  · exact heeds_pure _

/-- A cursor at an end of text stands at the last token, if no other one is an end. -/
theorem Cursor.AtEnd.tokens_eq {c : Cursor} {ahead : List Token} {last : Token} (hend : c.AtEnd)
    (hahead : ∀ t ∈ ahead, t.kind ≠ .eof) (hs : c.tokens <:+ ahead ++ [last]) :
    c.tokens = [last] := by
  rcases List.suffix_concat_iff.mp hs with hnil | ⟨ts, hts, hsuffix⟩
  · exact absurd hnil c.tokens_ne_nil
  cases ts with
  | nil => exact hts
  | cons t ts =>
    have ht : c.current = t := (List.cons.inj hts).1
    have hmem : c.current ∈ ahead := hsuffix.subset (by rw [ht]; exact List.mem_cons_self)
    exact absurd hend (hahead _ hmem)

/-- **In an accepted text every assignment sign follows a name that is no operand of an
    operator.** -/
theorem Program.assignsToNames_of_accepted {ahead : List Token} {last : Token}
    (hahead : ∀ t ∈ ahead, t.kind ≠ .eof) (hlast : last.kind = .eof)
    (hok : (ofTokens (ahead ++ [last])).diagnostics = []) :
    assignsToNames ((ahead ++ [last]).map Token.kind) = true := by
  let room := roomFor (ahead ++ [last]).length
  let c := Cursor.ofTokens (ahead ++ [last])
  have htokens : c.tokens = ahead ++ [last] := by
    rw [Cursor.ofTokens_tokens, Cursor.withEnd_concat hlast]
  obtain ⟨o, c', hrun⟩ : ∃ o c', program room c = (o, c') := ⟨_, _, rfl⟩
  have hclean : c'.reported = [] := by
    rw [ofTokens_diagnostics (Nat.le_refl room), hrun] at hok
    exact List.reverse_eq_nil_iff.mp hok
  have hc := Cursor.ofTokens_closed (ahead ++ [last])
  obtain ⟨_, _, used, _, hused, _, hend⟩ := (program_tells c o c' hrun hc).2 hclean
  obtain ⟨_, _, _, _, _, horderly⟩ := (program_heeds room c o c' hrun hc).2 hclean
  have hstop : c'.tokens = [last] := by
    refine Cursor.AtEnd.tokens_eq hend hahead ⟨used, ?_⟩
    rw [← hused, htokens]
  have htargets : c.Targets := by
    refine (horderly ⟨?_, by rw [hend]; decide⟩).targets
    unfold Cursor.Targets
    rw [hstop]
    rfl
  rw [← htokens]
  exact htargets

end FencedCode
