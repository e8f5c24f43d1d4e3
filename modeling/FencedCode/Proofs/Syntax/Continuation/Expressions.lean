import FencedCode.Proofs.Syntax.Continuation.Steps

/-!
# Completing expressions

An expression that is cut short is completed with a name and with the parentheses that are open.
Only an assignment is not always completed: what stands before its sign has to be a name, and this
is found out when the value has been read. The tokens tell it earlier.

* `EndsAs`, `operand_ends` -- an operand is a name alone, or its last tokens show that it is not;
* `admits_expression` -- a name is an expression;
* `CompletesExpr`, `completesExpr` -- **expressions that are cut short can be completed**, by
  induction on the room.
-/

namespace FencedCode

open Parse Grammar

/-! ## 1. What an operand ends with -/

/-- The expression is a name alone, or the tokens end with something other than a name, or with an
    operator and a name. -/
def EndsAs (e : Expr) (used : List Token) : Prop :=
  (∃ name, e = .ref name) ∧ used.length = 1 ∨
    (∃ front t, used = front ++ [t] ∧ t.kind ≠ .identifier) ∨
    ∃ front op t, used = front ++ [op, t] ∧ isOperator op.kind = true

section Ends

variable {e e' : Expr} {used front : List Token} {op : Token}

theorem endsAs_of_last {t : Token} (ht : t.kind ≠ .identifier) : EndsAs e (front ++ [t]) :=
  .inr (.inl ⟨front, t, rfl, ht⟩)

/-- Behind an operator, no operand is a name alone. -/
theorem EndsAs.behind_operator (h : EndsAs e used) (hop : isOperator op.kind = true) :
    EndsAs e' (front ++ op :: used) := by
  rcases h with ⟨_, hlength⟩ | ⟨front', t, rfl, ht⟩ | ⟨front', op', t, rfl, hop'⟩
  · obtain ⟨t, rfl⟩ := List.length_eq_one_iff.mp hlength
    exact .inr (.inr ⟨front, op, t, rfl, hop⟩)
  · exact .inr (.inl ⟨front ++ op :: front', t, by simp, ht⟩)
  · exact .inr (.inr ⟨front ++ op :: front', op', t, by simp, hop'⟩)

/-- The rule ends as its result tells. -/
def Ends (p : Parse Expr) : Prop :=
  ∀ ⦃c : Cursor⦄ ⦃e : Expr⦄, c.Closed → (p c).1 = some e →
    ∃ used, c.tokens = used ++ (p c).2.tokens ∧ EndsAs e used

/-- Behind the tokens of `left`, the rule ends as its result tells. -/
def EndsBehind (left : Expr) (p : Parse Expr) : Prop :=
  ∀ ⦃c : Cursor⦄ ⦃e : Expr⦄, c.Closed → (p c).1 = some e →
    ∃ used, c.tokens = used ++ (p c).2.tokens ∧
      ∀ front, EndsAs left front → EndsAs e (front ++ used)

theorem Parse.of_bind_eq_some {α β : Type} {p : Parse α} {f : α → Parse β} {c : Cursor} {b : β}
    (h : ((p >>= f) c).1 = some b) :
    ∃ a, (p c).1 = some a ∧ (p >>= f) c = f a (p c).2 ∧ (f a (p c).2).1 = some b := by
  cases ha : (p c).1 with
  | none =>
    rw [Parse.bind_none ha] at h
    cases h
  | some a =>
    have hrun : (p >>= f) c = f a (p c).2 := Parse.bind_some ha
    exact ⟨a, rfl, hrun, by rw [← hrun]; exact h⟩

theorem Ends.bind {p : Parse Expr} {f : Expr → Parse Expr} (hp : Ends p) (hs : Steady p)
    (hf : ∀ a, EndsBehind a (f a)) : Ends (p >>= f) := by
  intro c e hc he
  obtain ⟨a, ha, hrun, hb⟩ := Parse.of_bind_eq_some he
  obtain ⟨used, hused, hends⟩ := hp hc ha
  obtain ⟨used', hused', hends'⟩ := hf a (hs.closed hc) hb
  refine ⟨used ++ used', ?_, hends' used hends⟩
  rw [hrun, hused, hused', List.append_assoc]

theorem endsBehind_pure (left : Expr) : EndsBehind left (pure left) := by
  intro c e hc he
  obtain rfl : left = e := Option.some.inj he
  refine ⟨[], rfl, fun front hfront => ?_⟩
  rw [List.append_nil]
  exact hfront

theorem ends_fail (e : SyntaxError) : Ends (fail e) :=
  fun _ _ _ he => nomatch he

theorem endsBehind_fail (left : Expr) (e : SyntaxError) : EndsBehind left (fail e) :=
  fun _ _ _ he => nomatch he

/-- What stands in parentheses is passed with them. -/
theorem parens_tokens {α : Type} {p : Parse α} (hp : Steady p) {c : Cursor} (hc : c.Closed)
    (hparen : c.current.kind = .leftParen) {e : SyntaxError} {t : Token}
    (ht : (expect .rightParen e (p c.advance).2).1 = some t) :
    t.kind = .rightParen ∧ ∃ passed, c.tokens =
      (c.current :: passed) ++ t :: (expect .rightParen e (p c.advance).2).2.tokens := by
  have hclosed := hp.closed hc.advance
  obtain ⟨passed, hpassed⟩ := hp.moves c.advance
  by_cases hkind : (p c.advance).2.current.kind = .rightParen
  · rw [expect_of_kind hkind] at ht ⊢
    obtain rfl : (p c.advance).2.current = t := Option.some.inj ht
    refine ⟨hkind, passed, ?_⟩
    have hbehind := hclosed.advance_tokens (by rw [hkind]; decide)
    have hwhole := hc.advance_tokens (by rw [hparen]; decide)
    rw [hbehind, List.cons_append]
    exact congrArg (c.current :: ·) (hwhole.symm.trans hpassed.symm)
  · rw [expect_of_ne hkind] at ht
    cases ht

theorem calls_ends : ∀ (room : Nat) (callee : Expr), EndsBehind callee (calls room callee)
  | 0, callee => endsBehind_fail callee _
  | room + 1, callee => by
    have hargs : Steady (argumentList room) := steady_argumentList
    rw [calls_eq]
    intro c e hc he
    by_cases hparen : c.current.kind = .leftParen
    · rw [accept_bind_of_kind hparen, if_pos rfl] at he ⊢
      obtain ⟨args, _, hrun₁, he⟩ := Parse.of_bind_eq_some he
      obtain ⟨paren, hright, hrun₂, he⟩ := Parse.of_bind_eq_some he
      have hclosed := (steady_expect .rightParen .parenAfterArguments).closed
        (hargs.closed hc.advance)
      obtain ⟨hkind, passed, htokens⟩ := parens_tokens hargs hc hparen hright
      obtain ⟨used, hused, hends⟩ := calls_ends room (.call callee paren args) hclosed he
      refine ⟨(c.current :: passed) ++ paren :: used, ?_, fun front _ => ?_⟩
      · rw [hrun₁, hrun₂, htokens, hused, List.append_assoc]
        rfl
      · have hcall : EndsAs (.call callee paren args) ((front ++ c.current :: passed) ++ [paren]) :=
          endsAs_of_last (by rw [hkind]; decide)
        simpa using hends _ hcall
    · rw [accept_bind_of_ne hparen] at he ⊢
      exact endsBehind_pure callee hc he

theorem primary_ends : ∀ room, Ends (primary room)
  | 0 => ends_fail _
  | room + 1 => by
    rw [primary_eq]
    intro c e hc he
    change ((if isLiteral c.current.kind then _ else _ : Parse Expr) c).1 = _ at he
    change ∃ used, c.tokens = used ++
      ((if isLiteral c.current.kind then _ else _ : Parse Expr) c).2.tokens ∧ _
    by_cases hliteral : isLiteral c.current.kind = true
    · rw [if_pos hliteral] at he ⊢
      have heof : c.current.kind ≠ .eof := fun heof => by rw [heof] at hliteral; cases hliteral
      have hname : c.current.kind ≠ .identifier := fun hname => by
        rw [hname] at hliteral
        cases hliteral
      refine ⟨[c.current], ?_, .inr (.inl ⟨[], c.current, rfl, hname⟩)⟩
      exact congrArg (c.current :: ·) (hc.advance_tokens heof).symm
    rw [if_neg hliteral] at he ⊢
    by_cases hname : c.current.kind = .identifier
    · rw [if_pos hname] at he ⊢
      refine ⟨[c.current], ?_, .inl ⟨⟨c.current, (Option.some.inj he).symm⟩, rfl⟩⟩
      exact congrArg (c.current :: ·) (hc.advance_tokens (by rw [hname]; decide)).symm
    rw [if_neg hname] at he ⊢
    by_cases hparen : c.current.kind = .leftParen
    · rw [if_pos hparen] at he ⊢
      obtain ⟨_, _, hrun₀, he⟩ := Parse.of_bind_eq_some he
      obtain ⟨inner, _, hrun₁, he⟩ := Parse.of_bind_eq_some he
      obtain ⟨paren, hright, hrun₂, he⟩ := Parse.of_bind_eq_some he
      obtain ⟨hkind, passed, htokens⟩ :=
        parens_tokens (Rule.expression.steady room ()) hc hparen hright
      refine ⟨(c.current :: passed) ++ [paren], ?_, endsAs_of_last (by rw [hkind]; decide)⟩
      rw [hrun₀, hrun₁, hrun₂, List.append_assoc]
      exact htokens
    · rw [if_neg hparen] at he
      cases he

/-- Given `room`, the rules of operands end as their results tell. -/
structure EndsOperand (room : Nat) : Prop where
  operand (o : Option Level) : Ends (Grammar.operand room o)
  chain (l : Level) (left : Expr) : EndsBehind left (Grammar.chain room l left)
  unary : Ends (Grammar.unary room)

/-- What follows an operator, the operator being passed. -/
theorem ends_behind_operator {p : Parse Expr} {c : Cursor} (hc : c.Closed)
    (hop : isOperator c.current.kind = true) (hp : Ends p) {e : Expr}
    (he : (p c.advance).1 = some e) :
    ∃ used, c.tokens = c.current :: used ++ (p c.advance).2.tokens ∧
      ∀ front e', EndsAs e' (front ++ c.current :: used) := by
  obtain ⟨used, hused, hends⟩ := hp hc.advance he
  refine ⟨used, ?_, fun front e' => hends.behind_operator hop⟩
  rw [List.cons_append, ← hused, hc.advance_tokens (ne_eof_of_isOperator hop)]
  rfl

variable {room : Nat}

theorem chain_ends (ih : EndsOperand room) (l : Level) (left : Expr) :
    EndsBehind left (chain (room + 1) l left) := by
  simp only [chain]
  intro c e hc he
  change ((if l.has c.current.kind then _ else _ : Parse Expr) c).1 = _ at he
  change ∃ used, c.tokens = used ++
    ((if l.has c.current.kind then _ else _ : Parse Expr) c).2.tokens ∧ _
  by_cases hhas : l.has c.current.kind = true
  · rw [if_pos hhas] at he ⊢
    have hop : isOperator c.current.kind = true := isOperator_of_has hhas
    obtain ⟨_, _, hrun₀, he⟩ := Parse.of_bind_eq_some he
    obtain ⟨right, hright, hrun₁, he⟩ := Parse.of_bind_eq_some he
    obtain ⟨used, hused, hends⟩ := ends_behind_operator hc hop (ih.operand l.tighter) hright
    have hclosed := ((Rule.operand l.tighter).steady room ()).closed hc.advance
    obtain ⟨used', hused', hends'⟩ := ih.chain l _ hclosed he
    refine ⟨c.current :: used ++ used', ?_, fun front _ => ?_⟩
    · rw [hrun₀, hrun₁, List.append_assoc]
      exact hused.trans (congrArg _ hused')
    · rw [← List.append_assoc]
      exact hends' _ (hends front _)
  · rw [if_neg hhas] at he ⊢
    exact endsBehind_pure left hc he

theorem unary_ends (ih : EndsOperand room) : Ends (unary (room + 1)) := by
  simp only [unary]
  intro c e hc he
  change ((if isSign c.current.kind then _ else _ : Parse Expr) c).1 = _ at he
  change ∃ used, c.tokens = used ++
    ((if isSign c.current.kind then _ else _ : Parse Expr) c).2.tokens ∧ _
  by_cases hsign : isSign c.current.kind = true
  · rw [if_pos hsign] at he ⊢
    have hop : isOperator c.current.kind = true := isOperator_of_isSign hsign
    obtain ⟨_, _, hrun₀, he⟩ := Parse.of_bind_eq_some he
    obtain ⟨operand, hoperand, hrun₁, he⟩ := Parse.of_bind_eq_some he
    obtain ⟨used, hused, hends⟩ := ends_behind_operator hc hop ih.unary hoperand
    refine ⟨c.current :: used, ?_, hends [] _⟩
    rw [hrun₀, hrun₁]
    exact hused
  · rw [if_neg hsign] at he ⊢
    exact (primary_ends room).bind (Rule.primary.steady room ()) (calls_ends room) hc he

/-- **An operand is a name alone, or its last tokens show that it is not.** -/
theorem endsOperand : ∀ room, EndsOperand room
  | 0 => ⟨fun _ => ends_fail _, fun _ left => endsBehind_fail left _, ends_fail _⟩
  | room + 1 => by
    have ih := endsOperand room
    refine ⟨fun o => ?_, chain_ends ih, unary_ends ih⟩
    cases o with
    | none => exact ih.unary
    | some l =>
      exact (ih.operand l.tighter).bind ((Rule.operand _).steady room ()) (ih.chain l)

/-- What stands before an assignment sign is a name, if the tokens say so. -/
theorem target_of_promising {c : Cursor} (hc : c.Promising)
    (he : (operand room (some .or) c).1 = some e)
    (hassign : (operand room (some .or) c).2.current.kind = .assign) : ∃ name, e = .ref name := by
  obtain ⟨used, hused, hends⟩ := (endsOperand room).operand (some .or) hc.closed he
  have htargets := hc.targets
  rw [hused, Cursor.tokens, List.map_append, List.map_cons, hassign] at htargets
  rcases hends with ⟨hname, _⟩ | ⟨front, t, rfl, ht⟩ | ⟨front, op, t, rfl, hop⟩
  · exact hname
  · rw [List.map_append, List.append_assoc] at htargets
    obtain ⟨hlast, _⟩ := Bool.and_eq_true_iff.mp (assignsToNames_of_append htargets)
    exact absurd ((mayPrecede_cons.mp hlast).1 rfl) ht
  · rw [List.map_append, List.append_assoc] at htargets
    obtain ⟨hlast, _⟩ := Bool.and_eq_true_iff.mp (assignsToNames_of_append htargets)
    rw [(mayPrecede_cons.mp hlast).2 rfl] at hop
    cases hop

end Ends

/-! ## 2. Completing expressions -/

/-- What can follow an expression that is completed. -/
def Closing (k : Kind) : Prop :=
  k = .rightParen ∨ k = .kwEnd

theorem Closing.ne {k k' : Kind} (hk : Closing k) (hright : k' ≠ .rightParen) (hend : k' ≠ .kwEnd) :
    k ≠ k' := by
  rcases hk with rfl | rfl
  · exact hright.symm
  · exact hend.symm

theorem Closing.ne_comma {k : Kind} (hk : Closing k) : k ≠ .comma :=
  hk.ne (by decide) (by decide)

theorem Closing.not_has {k : Kind} (hk : Closing k) (l : Level) : l.has k = false := by
  rcases hk with rfl | rfl
  · cases l <;> rfl
  · cases l <;> rfl

/-- Entries whose number is limited. If there are too many, the complaint about it cannot be mended,
    at the end of the text or before. -/
theorem completesAt_limited {α : Type} {F : Kind → Prop} {q : Parse α} {e : SyntaxError}
    (he : e = .tooManyArguments ∨ e = .tooManyParameters) (hq : CompletesAt F q c) (count : Nat) :
    CompletesAt F (withinLimit count e >>= fun _ => q) c := by
  rw [withinLimit_eq]
  by_cases hlimit : maxArgs ≤ count
  · rw [if_pos hlimit]
    refine ⟨(steady_complainHere e).bind fun _ => hq.steady, fun _ hr => ?_⟩
    have hkeeps : .atToken c.current e :: c.reported <:+ (q (c.report c.current e)).2.reported :=
      hq.steady.keeps (c.report c.current e)
    have hmendable := hr _ (hkeeps.subset List.mem_cons_self)
    have hend : c.current.kind = .eof := of_decide_eq_true hmendable.incomplete
    have hmessage : (Diagnostic.atToken c.current e).message =
        some (utf8 "at end" ++ utf8 ": " ++ utf8 e.message) := by
      unfold Diagnostic.atToken
      rw [if_pos hend]
    have hover : (Diagnostic.atToken c.current e).overLimit = true := by
      unfold Diagnostic.overLimit
      rw [hmessage]
      refine List.any_eq_true.mpr ⟨e, ?_, decide_eq_true rfl⟩
      rcases he with rfl | rfl
      · exact List.mem_cons_self
      · exact List.mem_cons_of_mem _ List.mem_cons_self
    rw [hmendable.withinLimit] at hover
    cases hover
  · rw [if_neg hlimit, pure_bind]
    exact hq

/-- Given `room`, the rules of expressions can be completed, if `room` is sixteen for each token
    left and a few more. -/
structure CompletesExpr (room : Nat) : Prop where
  expression {n : Nat} : 16 * n + 10 ≤ room →
    Completes n [.name] Closing (Grammar.expression room)
  operand {n : Nat} (o : Option Level) : 16 * n + 10 ≤ room + Level.tier o →
    Completes n [.name] Closing (Grammar.operand room o)
  chain {n : Nat} (l : Level) (left : Expr) : 16 * n + 1 ≤ room →
    Completes n [] Closing (Grammar.chain room l left)
  unary {n : Nat} : 16 * n + 2 ≤ room → Completes n [.name] Closing (Grammar.unary room)
  calls {n : Nat} (callee : Expr) : 16 * n + 1 ≤ room →
    Completes n [] Closing (Grammar.calls room callee)
  /-- With too many arguments before it, no argument is read. -/
  arguments {n : Nat} {c : Cursor} (count : Nat) : 16 * n + 11 ≤ room → c.Promising →
    c.rest.length ≤ n → CompletesAt Closing (Grammar.arguments room count) c
  primary {n : Nat} : 16 * n + 1 ≤ room → Completes n [.name] Closing (Grammar.primary room)

section Completing

variable {room n : Nat}

/-- What is assigned to must be a name, and the tokens say that it is one. -/
theorem assignment_completes (ih : CompletesExpr room) {c : Cursor} {e : Expr} (hc : c.Promising)
    (hn : 16 * c.rest.length ≤ room) (hopen : ¬ c.AtEnd)
    (he : c.current.kind = .assign → ∃ name, e = .ref name) :
    CompletesAt Closing (assignment room e) c := by
  have hsteady : Steady (assignment room e) := steady_assignment e
  have hlt := hc.closed.rest_advance hopen
  by_cases hassign : c.current.kind = .assign
  · obtain ⟨name, rfl⟩ := he hassign
    have hvalue := ((ih.expression (n := c.rest.length - 1) (by omega)).map
      (Expr.assign name)).completes hc.advance (by omega)
    refine (completesAt_skip hc hopen hvalue).congr hsteady hopen fun w hw => ?_
    show (if w.current.kind = .assign then _ else _ : Parse Expr) w = _
    rw [hw, if_pos hassign]
  · refine completesAt_of_open hsteady ?_
    show ¬ ((if c.current.kind = .assign then _ else _ : Parse Expr) c).2.AtEnd
    rw [if_neg hassign]
    exact hopen

theorem admits_assignment (e : Expr) : Admits [] Closing (assignment room e) := by
  refine admits_stay (steady_assignment e) e fun w hw => ?_
  show (if w.current.kind = .assign then _ else _ : Parse Expr) w = _
  rw [if_neg (hw.ne (by decide) (by decide))]
  rfl

theorem expression_completes (ih : CompletesExpr room) (hn : 16 * n + 10 ≤ room + 1) :
    Completes n [.name] Closing (expression (room + 1)) := by
  have hoperand := ih.operand (n := n) (some .or) hn
  rw [expression_eq]
  refine (hoperand.admits.bind admits_assignment fun _ hk => hk).completes fun hc hle hopen => ?_
  refine (hoperand.completes hc hle).bind hc admits_assignment (fun _ hk => hk)
    fun e he hopen₁ hc₁ hle₁ => ?_
  exact assignment_completes ih hc₁ (by omega) hopen₁ (target_of_promising hc he)

theorem operand_completes (ih : CompletesExpr room) (o : Option Level)
    (hn : 16 * n + 10 ≤ room + 1 + Level.tier o) :
    Completes n [.name] Closing (operand (room + 1) o) := by
  cases o with
  | none =>
    have htier : Level.tier none = 7 := rfl
    exact ih.unary (by omega)
  | some l =>
    have htier := Level.tier_tighter l
    have hrank : Level.tier (some l) = l.rank := rfl
    have hlt := Level.rank_lt l
    exact (ih.operand l.tighter (by omega)).bind (fun left => ih.chain l left (by omega))
      fun _ hk => hk

theorem chain_completes (ih : CompletesExpr room) (l : Level) (left : Expr)
    (hn : 16 * n + 1 ≤ room + 1) : Completes n [] Closing (chain (room + 1) l left) := by
  have hsteady : Steady (chain (room + 1) l left) := (Rule.chain l).steady (room + 1) left
  simp only [chain] at hsteady ⊢
  refine (admits_stay hsteady left fun w hw => ?_).completes fun hc hle hopen => ?_
  · show (if l.has w.current.kind then _ else _ : Parse Expr) w = _
    rw [hw.not_has]
    rfl
  · have hpos := hc.closed.rest_pos hopen
    have htier := Level.tier_tighter l
    refine completesAt_peek hsteady hopen ?_
    split
    · refine completesAt_skip hc hopen (Completes.advanced (K := [.name]) ?_ hc hle hopen)
      exact (ih.operand l.tighter (by omega)).bind (fun right => ih.chain l _ (by omega))
        fun _ hk => hk
    · exact completesAt_pure _

theorem unary_completes (ih : CompletesExpr room) (hn : 16 * n + 2 ≤ room + 1) :
    Completes n [.name] Closing (unary (room + 1)) := by
  have hcall : Completes n [.name] Closing (primary room >>= fun e => calls room e) :=
    (ih.primary (by omega)).bind (fun e => ih.calls e (by omega)) fun _ hk => hk
  have hsteady : Steady (unary (room + 1)) := Rule.unary.steady (room + 1) ()
  simp only [unary] at hsteady ⊢
  refine (hcall.admits.congr hsteady fun w hw => ?_).completes fun hc hle hopen => ?_
  · show (if isSign w.current.kind then _ else _ : Parse Expr) w = _
    rw [hw]
    rfl
  · have hpos := hc.closed.rest_pos hopen
    refine completesAt_peek hsteady hopen ?_
    split
    · exact completesAt_skip hc hopen (((ih.unary (by omega)).map _).advanced hc hle hopen)
    · exact hcall.completes hc hle

theorem argumentList_completes (ih : CompletesExpr room) (hn : 16 * n + 11 ≤ room) :
    Completes n [] (· = .rightParen) (argumentList room) := by
  have hsteady : Steady (argumentList room) := steady_argumentList
  refine (admits_stay hsteady [] fun w hw => ?_).completes fun hc hle hopen => ?_
  · show (if w.current.kind = .rightParen then _ else _ : Parse (List Expr)) w = _
    rw [if_pos hw]
    rfl
  · refine completesAt_peek hsteady hopen ?_
    split
    · exact completesAt_pure _
    · exact (ih.arguments 0 hn hc hle).mono fun _ hk => .inl hk

theorem calls_completes (ih : CompletesExpr room) (callee : Expr) (hn : 16 * n + 1 ≤ room + 1) :
    Completes n [] Closing (calls (room + 1) callee) := by
  have hsteady : Steady (calls (room + 1) callee) := Rule.calls.steady (room + 1) callee
  rw [calls_eq] at hsteady ⊢
  refine (admits_accept hsteady (admits_pure _) fun _ hk => hk.ne (by decide) (by decide)).completes
    fun hc hle hopen => completesAt_accept hsteady hc hopen (fun _ => ?_) fun _ =>
      completesAt_pure _
  have hpos := hc.closed.rest_pos hopen
  refine Completes.advanced (K := [.closeParen]) ?_ hc hle hopen
  exact (argumentList_completes ih (by omega)).bind
    (fun args => .behind (fun paren => ih.calls _ (by omega)) .closeParen rfl _) rfl

theorem arguments_completes (ih : CompletesExpr room) {c : Cursor} (count : Nat)
    (hn : 16 * n + 11 ≤ room + 1) (hc : c.Promising) (hle : c.rest.length ≤ n) :
    CompletesAt Closing (arguments (room + 1) count) c := by
  rw [arguments_eq]
  refine completesAt_limited (.inl rfl) (Completes.completes (K := [.name]) ?_ hc hle) count
  refine (ih.expression (by omega)).alongCommas (fun _ hk => hk.ne_comma)
    (Rule.arguments.steady room _) fun hc₁ hlt => ?_
  exact ih.arguments (n := n - 1) _ (by omega) hc₁ (by omega)

theorem primary_completes (ih : CompletesExpr room) (hn : 16 * n + 1 ≤ room + 1) :
    Completes n [.name] Closing (primary (room + 1)) := by
  have hsteady : Steady (primary (room + 1)) := Rule.primary.steady (room + 1) ()
  rw [primary_eq] at hsteady ⊢
  refine (admits_step (q := fun t => pure (.ref t)) hsteady (fun _ => admits_pure _)
    fun w hw => ?_).completes fun hc hle hopen => completesAt_peek hsteady hopen ?_
  · show (if isLiteral w.current.kind then _ else _ : Parse Expr) w = _
    rw [hw]
    rfl
  have hpos := hc.closed.rest_pos hopen
  split
  · exact completesAt_skip hc hopen (completesAt_pure _)
  split
  · exact completesAt_skip hc hopen (completesAt_pure _)
  split
  · refine completesAt_skip hc hopen
      (Completes.advanced (K := [.name, .closeParen]) ?_ hc hle hopen)
    exact (ih.expression (by omega)).bind
      (fun e => .behind (fun _ => completes_pure _) .closeParen rfl _) (.inl rfl)
  · exact completesAt_of_open (steady_fail _) hopen

/-- **Expressions that are cut short can be completed.** -/
theorem completesExpr : ∀ room, CompletesExpr room
  | 0 => by
    refine ⟨fun hn => ?_, fun o hn => ?_, fun _ _ hn => ?_, fun hn => ?_, fun _ hn => ?_,
      fun _ hn => ?_, fun hn => ?_⟩
    case refine_2 =>
      have := Level.tier_le o
      omega
    all_goals omega
  | room + 1 =>
    have ih := completesExpr room
    ⟨expression_completes ih, operand_completes ih, chain_completes ih, unary_completes ih,
      calls_completes ih, arguments_completes ih, primary_completes ih⟩

end Completing

end FencedCode
