import FencedCode.Proofs.Syntax.Continuation.Steps
import FencedCode.Proofs.Syntax.Soundness.Programs

/-!
# Which tokens a rule passes

The recoveries look for words that start or end something. A rule of expressions passes none of
them, and no semicolon. A body without function declarations has no `FN` and no `CODE` in it.

* `Cursor.Spans` -- that all tokens between two cursors are of some kinds;
* `Crosses` -- that a step which ends without a complaint passes such tokens only, with a law for
  each step;
* `crossesExpr` -- **expressions are made of inner tokens**, by induction on the room;
* `Stmt.functionFree` -- statements that declare no functions;
* `crossesStmts` -- **statements without functions have no `FN` and no `CODE` in them**, by
  induction on the room.
-/

namespace FencedCode

open Parse Grammar

/-! ## 1. Tokens between two cursors -/

/-- Does the kind stand inside statements only? The others start or end something. -/
def isInner (k : Kind) : Bool :=
  !Cursor.isBoundary k && k ≠ .semicolon && k ≠ .kwCode && k ≠ .eof

/-- Is the kind none of those that the search for the end of a function looks for, but `BEGIN` and
    `END`? -/
def isBodily (k : Kind) : Bool :=
  k ≠ .kwFn && k ≠ .kwCode && k ≠ .eof

theorem isBodily_of_isInner {k : Kind} (hk : isInner k = true) : isBodily k = true := by
  cases k <;> first | rfl | cases hk

theorem isInner_of_isOperator {k : Kind} (hk : isOperator k = true) : isInner k = true := by
  cases k <;> first | rfl | cases hk

theorem isInner_of_isLiteral {k : Kind} (hk : isLiteral k = true) : isInner k = true := by
  cases k <;> first | rfl | cases hk

namespace Cursor

/-- The second cursor stands behind tokens of kinds in `P`. -/
def Spans (P : Kind → Bool) (c c' : Cursor) : Prop :=
  ∃ used, c.tokens = used ++ c'.tokens ∧ ∀ t ∈ used, P t.kind = true

variable {P Q : Kind → Bool} {c c₁ c' : Cursor}

theorem spans_rfl : c.Spans P c :=
  ⟨[], rfl, nofun⟩

theorem Spans.trans (h : c.Spans P c₁) (h' : c₁.Spans P c') : c.Spans P c' := by
  obtain ⟨used, htokens, hP⟩ := h
  obtain ⟨used', htokens', hP'⟩ := h'
  refine ⟨used ++ used', by rw [htokens, htokens', List.append_assoc], fun t ht => ?_⟩
  exact (List.mem_append.mp ht).elim (hP t) (hP' t)

theorem Spans.imp (hPQ : ∀ k, P k = true → Q k = true) (h : c.Spans P c') : c.Spans Q c' := by
  obtain ⟨used, htokens, hP⟩ := h
  exact ⟨used, htokens, fun t ht => hPQ _ (hP t ht)⟩

/-- One token, and those behind it. -/
theorem Spans.of_advance (h : c.advance.Spans P c') (hc : c.Closed) (heof : c.current.kind ≠ .eof)
    (hk : P c.current.kind = true) : c.Spans P c' := by
  obtain ⟨used, htokens, hP⟩ := h
  refine ⟨c.current :: used, ?_, List.forall_mem_cons.mpr ⟨hk, hP⟩⟩
  rw [List.cons_append, ← htokens, hc.advance_tokens heof]
  rfl

end Cursor

/-! ## 2. Steps that pass such tokens only -/

/-- If the step ends without a complaint, it passes tokens of kinds in `P` only. -/
def Crosses {α : Type} (P : Kind → Bool) (p : Parse α) (c : Cursor) : Prop :=
  Accounts p c fun _ _ c' => c.Spans P c'

section Steps

variable {α β : Type} {P Q : Kind → Bool} {c : Cursor}

theorem Crosses.imp {p : Parse α} (hp : Crosses P p c) (hPQ : ∀ k, P k = true → Q k = true) :
    Crosses Q p c :=
  Accounts.imp hp fun _ _ _ h => h.imp hPQ

/-- **Steps one after another.** -/
theorem Crosses.bind {p : Parse α} {f : α → Parse β} (hp : Crosses P p c)
    (hf : ∀ a c₁, Crosses P (f a) c₁) : Crosses P (p >>= f) c :=
  Accounts.bind hp fun a c₁ =>
    Accounts.imp (hf a c₁) fun _ _ _ hsecond _ hfirst => hfirst.trans hsecond

theorem crosses_pure (a : α) : Crosses P (pure a) c :=
  accounts_pure Cursor.spans_rfl

theorem Crosses.map {p : Parse α} (hp : Crosses P p c) (g : α → β) :
    Crosses P (p >>= fun a => pure (g a)) c :=
  hp.bind fun _ _ => crosses_pure _

theorem crosses_peek {f : Token → Parse α} (hf : Crosses P (f c.current) c) :
    Crosses P (peek >>= f) c :=
  accounts_peek hf

/-- A token is passed, and another step follows. -/
theorem crosses_step {p q : Parse α} (hrun : p c = q c.advance) (hk : P c.current.kind = true)
    (hP : P .eof = false) (hq : Crosses P q c.advance) : Crosses P p c := by
  have heof : c.current.kind ≠ .eof := fun heof => by
    rw [heof, hP] at hk
    cases hk
  refine accounts_of_closed fun hc => accounts_step hrun heof ?_
  exact Accounts.imp hq fun _ _ _ h => h.of_advance hc heof hk

theorem crosses_skip {f : Unit → Parse α} (hk : P c.current.kind = true) (hP : P .eof = false)
    (hf : Crosses P (f ()) c.advance) : Crosses P (skip >>= f) c :=
  crosses_step rfl hk hP hf

theorem crosses_expect {k : Kind} (e : SyntaxError) (hk : P k = true) (hP : P .eof = false) :
    Crosses P (expect k e) c := by
  by_cases hat : c.current.kind = k
  · refine crosses_step (q := pure c.current) ?_ (by rw [hat]; exact hk) hP (crosses_pure _)
    rw [expect_of_kind hat]
    rfl
  · refine accounts_congr (q := fail e) ?_ (accounts_fail e)
    rw [expect_of_ne hat]
    rfl

theorem crosses_accept {k : Kind} (hk : P k = true) (hP : P .eof = false) :
    Crosses P (accept k) c := by
  by_cases hat : c.current.kind = k
  · exact crosses_step (q := pure true) (accept_of_kind hat) (by rw [hat]; exact hk) hP
      (crosses_pure _)
  · exact accounts_congr (q := pure false) (accept_of_ne hat) (crosses_pure _)

theorem crosses_orRecover {p : Parse α} {recover : Cursor → Cursor} (hp : Crosses P p c)
    (hr : Cursor.Recovers recover) : Crosses P (orRecover p recover) c := by
  refine Accounts.imp (accounts_orRecover hr hp) fun _ _ _ h => ?_
  obtain ⟨_, _, hspans⟩ := h
  exact hspans

theorem crosses_alongCommas {entry : Parse α} {more : Parse (List α)} (hcomma : P .comma = true)
    (hP : P .eof = false) (hentry : Crosses P entry c) (hmore : ∀ c₁, Crosses P more c₁) :
    Crosses P (alongCommas entry more) c := by
  refine hentry.bind fun a c₁ => (crosses_accept hcomma hP).bind fun b c₂ => ?_
  cases b with
  | true => exact (hmore c₂).map _
  | false => exact crosses_pure _

theorem crosses_withinLimit (count : Nat) (e : SyntaxError) :
    Crosses P (withinLimit count e) c := by
  refine crosses_peek ?_
  split
  · exact Accounts.imp (accounts_complain _ _) fun _ _ _ h => h.elim
  · exact crosses_pure _

/-- A word that must come next is the current token. -/
theorem accounts_token {k : Kind} (e : SyntaxError) (hk : k ≠ .eof) :
    Accounts (expect k e) c fun t _ c' => t.kind = k ∧ c.tokens = t :: c'.tokens :=
  (accounts_expect e hk).imp fun _ _ _ h => ⟨h.1, h.2.2⟩

end Steps

/-! ## 3. Expressions -/

/-- Given `room`, the rules of expressions pass inner tokens only. -/
structure CrossesExpr (room : Nat) : Prop where
  expression (c : Cursor) : Crosses isInner (Grammar.expression room) c
  operand (o : Option Level) (c : Cursor) : Crosses isInner (Grammar.operand room o) c
  chain (l : Level) (left : Expr) (c : Cursor) : Crosses isInner (Grammar.chain room l left) c
  unary (c : Cursor) : Crosses isInner (Grammar.unary room) c
  calls (callee : Expr) (c : Cursor) : Crosses isInner (Grammar.calls room callee) c
  arguments (count : Nat) (c : Cursor) : Crosses isInner (Grammar.arguments room count) c
  primary (c : Cursor) : Crosses isInner (Grammar.primary room) c

section Expressions

variable {room : Nat} {c : Cursor}

theorem expression_crosses (ih : CrossesExpr room) (c : Cursor) :
    Crosses isInner (expression (room + 1)) c := by
  rw [expression_eq]
  refine (ih.operand _ c).bind fun e c₁ => crosses_peek ?_
  by_cases hassign : c₁.current.kind = .assign
  · rw [if_pos hassign]
    refine crosses_skip (by rw [hassign]; rfl) rfl ((ih.expression _).bind fun value c₂ => ?_)
    cases e with
    | ref name => exact crosses_pure _
    | _ => exact (accounts_complain _ _).bind fun _ _ => accounts_pure fun _ h => h.elim
  · rw [if_neg hassign]
    exact crosses_pure _

theorem operand_crosses (ih : CrossesExpr room) (o : Option Level) (c : Cursor) :
    Crosses isInner (operand (room + 1) o) c := by
  cases o with
  | none => exact ih.unary c
  | some l => exact (ih.operand _ c).bind fun left c₁ => ih.chain l left c₁

theorem chain_crosses (ih : CrossesExpr room) (l : Level) (left : Expr) (c : Cursor) :
    Crosses isInner (chain (room + 1) l left) c := by
  simp only [chain]
  refine crosses_peek ?_
  split
  · rename_i hop
    exact crosses_skip (isInner_of_isOperator (isOperator_of_has hop)) rfl
      ((ih.operand _ _).bind fun right c₁ => ih.chain l _ c₁)
  · exact crosses_pure _

theorem unary_crosses (ih : CrossesExpr room) (c : Cursor) :
    Crosses isInner (unary (room + 1)) c := by
  simp only [unary]
  refine crosses_peek ?_
  split
  · rename_i hsign
    exact crosses_skip (isInner_of_isOperator (isOperator_of_isSign hsign)) rfl
      ((ih.unary _).map _)
  · exact (ih.primary c).bind fun e c₁ => ih.calls e c₁

theorem calls_crosses (ih : CrossesExpr room) (callee : Expr) (c : Cursor) :
    Crosses isInner (calls (room + 1) callee) c := by
  rw [calls_eq]
  refine (crosses_accept rfl rfl).bind fun b c₁ => ?_
  split
  · have hargs : Crosses isInner (argumentList room) c₁ := by
      refine crosses_peek ?_
      split
      · exact crosses_pure _
      · exact ih.arguments 0 c₁
    exact hargs.bind fun args _ => (crosses_expect _ rfl rfl).bind fun paren c₂ => ih.calls _ c₂
  · exact crosses_pure _

theorem arguments_crosses (ih : CrossesExpr room) (count : Nat) (c : Cursor) :
    Crosses isInner (arguments (room + 1) count) c := by
  rw [arguments_eq]
  exact (crosses_withinLimit _ _).bind fun _ c₁ =>
    crosses_alongCommas rfl rfl (ih.expression c₁) (ih.arguments (count + 1))

theorem primary_crosses (ih : CrossesExpr room) (c : Cursor) :
    Crosses isInner (primary (room + 1)) c := by
  rw [primary_eq]
  refine crosses_peek ?_
  split
  · rename_i hliteral
    exact crosses_skip (isInner_of_isLiteral hliteral) rfl (crosses_pure _)
  split
  · rename_i hname
    exact crosses_skip (by rw [hname]; rfl) rfl (crosses_pure _)
  split
  · rename_i hparen
    exact crosses_skip (by rw [hparen]; rfl) rfl ((ih.expression _).bind fun e _ =>
      (crosses_expect _ rfl rfl).map _)
  · exact accounts_fail _

/-- **Expressions are made of inner tokens.** -/
theorem crossesExpr : ∀ room, CrossesExpr room
  | 0 => ⟨fun _ => accounts_fail _, fun _ _ => accounts_fail _, fun _ _ _ => accounts_fail _,
      fun _ => accounts_fail _, fun _ _ => accounts_fail _, fun _ _ => accounts_fail _,
      fun _ => accounts_fail _⟩
  | room + 1 =>
    have ih := crossesExpr room
    ⟨expression_crosses ih, operand_crosses ih, chain_crosses ih, unary_crosses ih,
      calls_crosses ih, arguments_crosses ih, primary_crosses ih⟩

theorem names_crosses : ∀ (room : Nat) (c : Cursor), Crosses isInner (names room) c
  | 0, _ => accounts_fail _
  | room + 1, c => by
    rw [names_eq]
    exact crosses_alongCommas rfl rfl (crosses_expect _ rfl rfl) (names_crosses room)

end Expressions

/-! ## 4. Statements without functions -/

mutual

/-- Is no function declared in the statement? -/
def Stmt.functionFree : Stmt → Bool
  | .conditional _ _ body others => Stmt.allFunctionFree body && others.functionFree
  | .loop _ _ body => Stmt.allFunctionFree body
  | .block _ body => Stmt.allFunctionFree body
  | .function _ _ _ _ => false
  | .expression _ | .display _ _ | .scan _ _ | .ret _ _ | .declare _ _ _ _ => true

/-- Is no function declared in the statements? -/
def Stmt.allFunctionFree : List Stmt → Bool
  | [] => true
  | s :: ss => s.functionFree && Stmt.allFunctionFree ss

/-- Is no function declared in the bodies? -/
def Stmt.bodiesFunctionFree : List (List Stmt) → Bool
  | [] => true
  | body :: bodies => Stmt.allFunctionFree body && Stmt.bodiesFunctionFree bodies

/-- Is no function declared in the body, if there is one? -/
def Stmt.lastFunctionFree : Option (List Stmt) → Bool
  | none => true
  | some body => Stmt.allFunctionFree body

/-- Is no function declared in the alternatives? -/
def Alternatives.functionFree : Alternatives → Bool
  | .mk _ bodies last => Stmt.bodiesFunctionFree bodies && Stmt.lastFunctionFree last

end

theorem Alternatives.functionFree_elseIf (condition : Expr) (body : List Stmt)
    (others : Alternatives) : (elseIf condition body others).functionFree =
      (Stmt.allFunctionFree body && others.functionFree) := by
  cases others
  exact Bool.and_assoc _ _ _

theorem Stmt.allFunctionFree_append (ss ts : List Stmt) :
    allFunctionFree (ss ++ ts) = (allFunctionFree ss && allFunctionFree ts) := by
  induction ss with
  | nil => rfl
  | cons s ss ih => rw [List.cons_append, allFunctionFree, ih, allFunctionFree, Bool.and_assoc]

theorem Stmt.functionFree_of_part {s : Stmt} (hs : s.part = .function) :
    s.functionFree = false := by
  cases s <;> first | rfl | cases hs

/-- If the step ends without a complaint and its result is free of functions, then it passes tokens
    of bodies only. -/
def CrossesFree {α : Type} (free : α → Bool) (p : Parse α) (c : Cursor) : Prop :=
  Accounts p c fun a _ c' => free a = true → c.Spans isBodily c'

section Statements

variable {α β : Type} {free : α → Bool} {room : Nat} {c : Cursor}

theorem Crosses.toFree {p : Parse α} (hp : Crosses isBodily p c) : CrossesFree free p c :=
  Accounts.imp hp fun _ _ _ h _ => h

/-- A step whatever its result, and another one. -/
theorem Crosses.bind_free {p : Parse β} {f : β → Parse α} (hp : Crosses isBodily p c)
    (hf : ∀ b c₁, CrossesFree free (f b) c₁) : CrossesFree free (p >>= f) c :=
  Accounts.bind hp fun b c₁ =>
    Accounts.imp (hf b c₁) fun _ _ _ hsecond _ hfirst h => hfirst.trans (hsecond h)

/-- A step whose result is part of the result. -/
theorem CrossesFree.bind {free' : β → Bool} {p : Parse α} {f : α → Parse β}
    (hp : CrossesFree free p c) (hf : ∀ a c₁, Accounts (f a) c₁ fun b _ c' =>
      free' b = true → free a = true ∧ c₁.Spans isBodily c') : CrossesFree free' (p >>= f) c :=
  Accounts.bind hp fun a c₁ => (hf a c₁).imp fun _ _ _ hsecond _ hfirst h =>
    (hfirst (hsecond h).1).trans (hsecond h).2

theorem CrossesFree.map {free' : β → Bool} {p : Parse α} {g : α → β} (hp : CrossesFree free p c)
    (hg : ∀ a, free' (g a) = true → free a = true) :
    CrossesFree free' (p >>= fun a => pure (g a)) c :=
  hp.bind fun a _ => accounts_pure fun h => ⟨hg a h, Cursor.spans_rfl⟩

theorem bodily_expression (c : Cursor) : Crosses isBodily (expression room) c :=
  ((crossesExpr room).expression c).imp fun _ => isBodily_of_isInner

theorem typeWord_crosses (e : SyntaxError) (c : Cursor) : Crosses isBodily (typeWord e) c := by
  refine crosses_peek ?_
  cases htype : c.current.kind.type? with
  | none => exact accounts_failAt _ _
  | some type => exact crosses_skip (by rw [kind_of_type? htype]; rfl) rfl (crosses_pure _)

theorem declarators_crosses (type : BaseType) (isMutable : Bool) : ∀ (room : Nat) (c : Cursor),
    Crosses isBodily (declarators type isMutable room) c
  | 0, _ => accounts_fail _
  | room + 1, c => by
    rw [declarators_eq]
    refine crosses_alongCommas rfl rfl ?_ (declarators_crosses type isMutable room)
    refine (crosses_expect _ rfl rfl).bind fun name c₁ => Crosses.map ?_ _
    refine (crosses_accept rfl rfl).bind fun b c₂ => ?_
    split
    · exact (bodily_expression c₂).map _
    · exact crosses_pure _

theorem declarations_crosses : ∀ (room : Nat) (c : Cursor),
    Crosses isBodily (declarations room) c
  | 0, _ => accounts_fail _
  | room + 1, c => by
    have hdeclaration : Crosses isBodily (declaration room) c := by
      rw [declaration_eq]
      exact (crosses_accept rfl rfl).bind fun _ c₁ => (typeWord_crosses _ c₁).bind fun _ c₂ =>
        (declarators_crosses _ _ room c₂).bind fun _ _ => (crosses_accept rfl rfl).map _
    simp only [declarations]
    refine crosses_peek ?_
    split
    · exact (crosses_orRecover hdeclaration Cursor.recovers_synchronize).bind fun _ c₁ =>
        (declarations_crosses room c₁).map _
    · exact crosses_pure _

theorem condition_crosses (keyword : String) (c : Cursor) :
    Crosses isBodily (condition room keyword) c :=
  (crosses_expect _ rfl rfl).bind fun _ c₁ => (bodily_expression c₁).bind fun _ _ =>
    (crosses_expect _ rfl rfl).map _

/-- A keyword is passed without being looked at. -/
theorem crosses_keyword {P : Kind → Bool} {k : Kind} {f : Token → Parse α}
    (hk : c.current.kind = k) (hP : P k = true) (heof : P .eof = false)
    (hf : ∀ t c₁, Crosses P (f t) c₁) : Crosses P (take >>= f) c :=
  crosses_step rfl (by rw [hk]; exact hP) heof (hf _ _)

theorem crossesFree_keyword {k : Kind} {f : Token → Parse α} (hk : c.current.kind = k)
    (hbody : isBodily k = true) (hf : ∀ t c₁, CrossesFree free (f t) c₁) :
    CrossesFree free (take >>= f) c :=
  (crosses_keyword (f := pure) hk hbody rfl fun _ _ => crosses_pure _).bind_free hf

theorem display_crosses (hk : c.current.kind = .kwDisplay) :
    Accounts (display room) c fun _ _ c' => c.advance.Spans isInner c' := by
  refine accounts_take (by rw [hk]; decide) ?_
  exact (crosses_expect _ rfl rfl).bind fun _ c₁ => ((crossesExpr room).expression c₁).map _

theorem scan_crosses (hk : c.current.kind = .kwScan) :
    Accounts (scan room) c fun _ _ c' => c.advance.Spans isInner c' := by
  refine accounts_take (by rw [hk]; decide) ?_
  exact (crosses_expect _ rfl rfl).bind fun _ c₁ => (names_crosses room c₁).map _

theorem ret_crosses (hk : c.current.kind = .kwReturn) :
    Accounts (ret room) c fun _ _ c' => c.advance.Spans isInner c' := by
  refine accounts_take (by rw [hk]; decide) (crosses_peek ?_)
  split
  · exact ((crossesExpr room).expression _).map _
  · exact crosses_pure _

/-- A keyword, and inner tokens behind it. -/
theorem bodily_simple {k : Kind} {p : Parse Stmt} (hk : c.current.kind = k)
    (hbody : isBodily k = true) (heof : k ≠ .eof)
    (hp : Accounts p c fun _ _ c' => c.advance.Spans isInner c') : Crosses isBodily p c :=
  accounts_of_closed fun hc => hp.imp fun _ _ _ h =>
    (h.imp fun _ => isBodily_of_isInner).of_advance hc (by rw [hk]; exact heof)
      (by rw [hk]; exact hbody)

/-- Given `room`, the rules of statements pass tokens of bodies only, if no function is declared. -/
structure CrossesStmts (room : Nat) : Prop where
  statement (c : Cursor) : CrossesFree Stmt.functionFree (Grammar.statement room) c
  statements (c : Cursor) : CrossesFree Stmt.allFunctionFree (Grammar.statements room) c
  /-- The keyword is passed without being looked at. -/
  conditional (c : Cursor) : c.current.kind = .kwIf →
    CrossesFree Stmt.functionFree (Grammar.conditional room) c
  alternatives (c : Cursor) : CrossesFree Alternatives.functionFree (Grammar.alternatives room) c
  loop (c : Cursor) : c.current.kind = .kwWhile →
    CrossesFree Stmt.functionFree (Grammar.loop room) c
  block (c : Cursor) : c.current.kind = .kwBegin →
    CrossesFree Stmt.functionFree (Grammar.block room) c
  fenced (fence : Kind) (c : Cursor) : isBodily fence = true →
    CrossesFree Stmt.allFunctionFree (Grammar.fenced room fence) c
  body (withFunctions : Bool) (c : Cursor) :
    CrossesFree Stmt.allFunctionFree (Grammar.body room withFunctions) c
  functions (c : Cursor) : CrossesFree Stmt.allFunctionFree (Grammar.functions room) c

theorem statement_crosses (ih : CrossesStmts room) (c : Cursor) :
    CrossesFree Stmt.functionFree (statement (room + 1)) c := by
  rw [statement_eq]
  refine accounts_peek ?_
  cases hk : c.current.kind with
  | kwDisplay => exact (bodily_simple hk rfl (by decide) (display_crosses hk)).toFree
  | kwScan => exact (bodily_simple hk rfl (by decide) (scan_crosses hk)).toFree
  | kwReturn => exact (bodily_simple hk rfl (by decide) (ret_crosses hk)).toFree
  | kwIf => exact ih.conditional c hk
  | kwWhile => exact ih.loop c hk
  | kwBegin => exact ih.block c hk
  | kwFn => exact accounts_fail _
  | kwImmut => exact accounts_fail _
  | type t => exact accounts_fail _
  | _ => exact ((bodily_expression c).map _).toFree

theorem statements_crosses (ih : CrossesStmts room) (c : Cursor) :
    CrossesFree Stmt.allFunctionFree (statements (room + 1)) c := by
  simp only [statements]
  refine accounts_peek ?_
  split
  · exact (crosses_pure _).toFree
  split
  · rename_i hsemicolon
    refine Crosses.bind_free (crosses_step (q := pure ()) rfl ?_ rfl (crosses_pure _)) fun _ c₁ =>
      ih.statements c₁
    rw [hsemicolon]
    rfl
  · refine Accounts.bind (accounts_orRecover Cursor.recovers_synchronize (ih.statement c))
      fun o c₁ => ?_
    cases o with
    | none =>
      refine (ih.statements c₁).imp fun _ _ _ _ _ h => ?_
      obtain ⟨_, hnone, _⟩ := h
      cases hnone
    | some s =>
      have hmore : Accounts (accept .semicolon >>= fun _ => statements room >>= fun more =>
          pure (s :: more)) c₁ fun ss _ c' => Stmt.allFunctionFree ss = true →
            s.functionFree = true ∧ c₁.Spans isBodily c' := by
        refine Accounts.bind (crosses_accept (P := isBodily) rfl rfl) fun _ c₂ => ?_
        refine Accounts.bind (ih.statements c₂) fun more c₃ => ?_
        refine accounts_pure fun _ hmore _ haccept h => ?_
        simp only [Stmt.allFunctionFree, Bool.and_eq_true] at h
        exact ⟨h.1, haccept.trans (hmore h.2)⟩
      refine hmore.imp fun ss _ c' hbehind _ hfirst h => ?_
      obtain ⟨_, ⟨⟩, hspans⟩ := hfirst
      exact (hspans (hbehind h).1).trans (hbehind h).2

theorem conditional_crosses (ih : CrossesStmts room) (c : Cursor) (hk : c.current.kind = .kwIf) :
    CrossesFree Stmt.functionFree (conditional (room + 1)) c := by
  simp only [conditional]
  refine crossesFree_keyword hk rfl fun _ c₁ => (condition_crosses _ c₁).bind_free fun _ c₂ => ?_
  refine (ih.fenced _ c₂ rfl).bind fun body c₃ => Accounts.bind (ih.alternatives c₃) ?_
  refine fun others c₄ => accounts_pure fun _ hothers h => ?_
  simp only [Stmt.functionFree, Bool.and_eq_true] at h
  exact ⟨h.1, hothers h.2⟩

theorem alternatives_crosses (ih : CrossesStmts room) (c : Cursor) :
    CrossesFree Alternatives.functionFree (alternatives (room + 1)) c := by
  have hpass {c : Cursor} {k : Kind} (hk : c.current.kind = k) (hbody : isBodily k = true) :
      Crosses isBodily skip c :=
    crosses_step (q := pure ()) rfl (by rw [hk]; exact hbody) rfl (crosses_pure _)
  rw [alternatives_eq]
  refine accounts_peek ?_
  split
  · rename_i helse
    refine (hpass helse rfl).bind_free fun _ c₁ => accounts_peek ?_
    split
    · rename_i hif
      refine (hpass hif rfl).bind_free fun _ c₂ => (condition_crosses _ c₂).bind_free fun _ c₃ => ?_
      refine (ih.fenced _ c₃ rfl).bind fun body c₄ => Accounts.bind (ih.alternatives c₄) ?_
      refine fun others c₅ => accounts_pure fun _ hothers h => ?_
      rw [Alternatives.functionFree_elseIf, Bool.and_eq_true] at h
      exact ⟨h.1, hothers h.2⟩
    · exact (ih.fenced _ c₁ rfl).map fun _ h => h
  · exact (crosses_pure _).toFree

theorem loop_crosses (ih : CrossesStmts room) (c : Cursor) (hk : c.current.kind = .kwWhile) :
    CrossesFree Stmt.functionFree (loop (room + 1)) c := by
  simp only [loop]
  exact crossesFree_keyword hk rfl fun _ c₁ => (condition_crosses _ c₁).bind_free fun _ c₂ =>
    (ih.fenced _ c₂ rfl).map fun _ h => h

theorem block_crosses (ih : CrossesStmts room) (c : Cursor) (hk : c.current.kind = .kwBegin) :
    CrossesFree Stmt.functionFree (block (room + 1)) c := by
  simp only [block]
  refine crossesFree_keyword hk rfl fun _ c₁ => (ih.body _ c₁).bind fun _ c₂ => ?_
  exact Accounts.bind (crosses_expect (P := isBodily) _ rfl rfl) fun _ _ =>
    accounts_pure fun _ hend h => ⟨h, hend⟩

theorem fenced_crosses (ih : CrossesStmts room) (fence : Kind) (c : Cursor)
    (hfence : isBodily fence = true) :
    CrossesFree Stmt.allFunctionFree (fenced (room + 1) fence) c := by
  simp only [fenced]
  refine Crosses.bind_free (crosses_expect _ rfl rfl) fun _ c₁ => ?_
  refine Crosses.bind_free (crosses_expect _ hfence rfl) fun _ c₂ => ?_
  refine (ih.statements c₂).bind fun inner c₃ => ?_
  refine Accounts.bind (crosses_expect (P := isBodily) _ rfl rfl) fun _ c₄ => ?_
  refine Accounts.bind (crosses_expect (P := isBodily) _ hfence rfl) fun _ _ => ?_
  exact accounts_pure fun _ hword _ hend h => ⟨h, hend.trans hword⟩

theorem functions_crosses (ih : CrossesStmts room) (c : Cursor) :
    CrossesFree Stmt.allFunctionFree (functions (room + 1)) c := by
  simp only [functions]
  by_cases hfn : c.current.kind = .kwFn
  · refine accounts_step (q := orRecover (function room) Cursor.skipFunction >>= fun f =>
      functions room >>= fun more => pure (f.toList ++ more)) (accept_bind_of_kind hfn _)
      (by rw [hfn]; decide) ?_
    refine Accounts.bind (accounts_orRecover Cursor.recovers_skipFunction
      ((tellsStmts room).function _)) fun o c₁ => ?_
    refine Accounts.bind (ih.functions c₁) fun more c₂ => accounts_pure fun _ _ _ hread h => ?_
    obtain ⟨f, rfl, hpart, _⟩ := hread
    rw [Option.toList_some, List.singleton_append, Stmt.allFunctionFree,
      Stmt.functionFree_of_part hpart] at h
    cases h
  · exact accounts_congr (q := pure []) (accept_bind_of_ne hfn _) (crosses_pure _).toFree

theorem body_crosses (ih : CrossesStmts room) (withFunctions : Bool) (c : Cursor) :
    CrossesFree Stmt.allFunctionFree (body (room + 1) withFunctions) c := by
  have hinner {c : Cursor} (ss : List Stmt) : Accounts (statements room >>= fun inner =>
      pure (ss ++ inner)) c fun ss' _ c' => Stmt.allFunctionFree ss' = true →
        Stmt.allFunctionFree ss = true ∧ c.Spans isBodily c' := by
    refine Accounts.bind (ih.statements c) fun inner c₁ => accounts_pure fun _ hspans h => ?_
    rw [Stmt.allFunctionFree_append, Bool.and_eq_true] at h
    exact ⟨h.1, hspans h.2⟩
  simp only [body]
  refine (declarations_crosses room c).bind_free fun declared c₁ => ?_
  have hbehind (fns : List Stmt) (h : Stmt.allFunctionFree (declared ++ fns) = true) :
      Stmt.allFunctionFree fns = true := by
    rw [Stmt.allFunctionFree_append, Bool.and_eq_true] at h
    exact h.2
  cases withFunctions with
  | true =>
    exact (ih.functions c₁).bind fun fns c₂ => (hinner (declared ++ fns)).imp
      fun _ _ _ hspans h => ⟨hbehind fns (hspans h).1, (hspans h).2⟩
  | false => exact (hinner (declared ++ [])).imp fun _ _ _ hspans h => (hspans h).2

/-- **Statements without functions have no `FN` and no `CODE` in them.** -/
theorem crossesStmts : ∀ room, CrossesStmts room
  | 0 => ⟨fun _ => accounts_fail _, fun _ => accounts_fail _, fun _ _ => accounts_fail _,
      fun _ => accounts_fail _, fun _ _ => accounts_fail _, fun _ _ => accounts_fail _,
      fun _ _ _ => accounts_fail _, fun _ _ => accounts_fail _, fun _ => accounts_fail _⟩
  | room + 1 =>
    have ih := crossesStmts room
    ⟨statement_crosses ih, statements_crosses ih, conditional_crosses ih, alternatives_crosses ih,
      loop_crosses ih, block_crosses ih, fenced_crosses ih, body_crosses ih, functions_crosses ih⟩

end Statements

end FencedCode
