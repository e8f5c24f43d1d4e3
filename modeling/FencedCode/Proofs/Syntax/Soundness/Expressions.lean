import FencedCode.Proofs.Syntax.Soundness.Spelling

/-!
# Expressions tell their tokens

A rule that ends without a complaint has passed some tokens, and the tree that it yields tells
them. A rule that fails or recovers has complained, so that nothing is skipped silently.

* `Accounts` -- that a step accounts for the tokens it passes;
* `Accounts.bind`, `accounts_accept`, `accounts_orRecover`, … -- its laws, one for each step;
* `Spelled` -- that an expression of a precedence tells some tokens;
* `TellsExpr`, `tellsExpr` -- **the rules of expressions account for their tokens**, by induction
  on the room.
-/

namespace FencedCode

open Parse Grammar

/-! ## 1. Steps that account for what they pass -/

/-- `Accounts p c Q`: when `p` ends without a complaint, there was none before, `p` succeeded, and
    its result, the spelling of the tokens that it passed and the cursor behind them are in `Q`. -/
def Accounts {α : Type} (p : Parse α) (c : Cursor) (Q : α → List Token → Cursor → Prop) : Prop :=
  ∀ o c', p c = (o, c') → c.Closed → c'.Closed ∧ (c'.reported = [] → c.reported = [] ∧
    ∃ a used, o = some a ∧ c.tokens = used ++ c'.tokens ∧ Q a (spell used) c')

section Steps

variable {α β : Type} {c : Cursor} {Q R : α → List Token → Cursor → Prop}

theorem Accounts.imp {p : Parse α} (hp : Accounts p c Q) (hQR : ∀ a v c', Q a v c' → R a v c') :
    Accounts p c R := by
  intro o c' hrun hc
  obtain ⟨hc', hclean⟩ := hp o c' hrun hc
  refine ⟨hc', fun hr => ?_⟩
  obtain ⟨hr₀, a, used, ho, htokens, hQ⟩ := hclean hr
  exact ⟨hr₀, a, used, ho, htokens, hQR _ _ _ hQ⟩

theorem accounts_congr {p q : Parse α} (hrun : p c = q c) (hq : Accounts q c Q) :
    Accounts p c Q :=
  fun o c' hpc hc => hq o c' (hrun.symm.trans hpc) hc

theorem accounts_of_closed {p : Parse α} (hp : c.Closed → Accounts p c Q) : Accounts p c Q :=
  fun o c' hrun hc => hp hc o c' hrun hc

/-- **Steps one after another account for the tokens of both.** -/
theorem Accounts.bind {p : Parse α} {f : α → Parse β} {R : β → List Token → Cursor → Prop}
    (hp : Accounts p c Q)
    (hf : ∀ a c₁, Accounts (f a) c₁ fun b u c' => ∀ v, Q a v c₁ → R b (v ++ u) c') :
    Accounts (p >>= f) c R := by
  intro o c' hrun hc
  cases hpc : p c with
  | mk o₁ c₁ =>
    obtain ⟨hc₁, hclean₁⟩ := hp o₁ c₁ hpc hc
    cases o₁ with
    | none =>
      rw [bind_of_none hpc] at hrun
      obtain ⟨rfl, rfl⟩ := Prod.mk.inj hrun
      refine ⟨hc₁, fun hr => ?_⟩
      obtain ⟨_, a, _, ho, _⟩ := hclean₁ hr
      cases ho
    | some a =>
      rw [bind_of_some hpc] at hrun
      obtain ⟨hc', hclean⟩ := hf a c₁ o c' hrun hc₁
      refine ⟨hc', fun hr => ?_⟩
      obtain ⟨hr₁, b, u, ho, htokens, hR⟩ := hclean hr
      obtain ⟨hr₀, a', v, ha, htokens₁, hQ⟩ := hclean₁ hr₁
      cases ha
      refine ⟨hr₀, b, v ++ u, ho, ?_, ?_⟩
      · rw [htokens₁, htokens, List.append_assoc]
      · rw [spell_append]
        exact hR (spell v) hQ

theorem accounts_pure {a : α} (hQ : Q a [] c) : Accounts (pure a) c Q := by
  intro o c' hrun hc
  obtain ⟨rfl, rfl⟩ := Prod.mk.inj hrun
  exact ⟨hc, fun hr => ⟨hr, a, [], rfl, rfl, hQ⟩⟩

theorem accounts_peek {f : Token → Parse α} (hf : Accounts (f c.current) c Q) :
    Accounts (peek >>= f) c Q :=
  hf

theorem accounts_peekNext {f : Token → Parse α} (hf : Accounts (f c.next) c Q) :
    Accounts (peekNext >>= f) c Q :=
  hf

theorem accounts_failAt (t : Token) (e : SyntaxError) : Accounts (failAt t e) c Q := by
  intro o c' hrun hc
  obtain ⟨rfl, rfl⟩ := Prod.mk.inj hrun
  exact ⟨hc, fun hr => absurd hr (List.cons_ne_nil _ _)⟩

theorem accounts_fail (e : SyntaxError) : Accounts (fail e) c Q :=
  accounts_failAt c.current e

theorem accounts_complain (t : Token) (e : SyntaxError) :
    Accounts (complain t e) c fun _ _ _ => False := by
  intro o c' hrun hc
  obtain ⟨rfl, rfl⟩ := Prod.mk.inj hrun
  exact ⟨hc, fun hr => absurd hr (List.cons_ne_nil _ _)⟩

/-- A step that passes a token which is not the end, and then does as another one. -/
theorem accounts_step {p q : Parse α} (hrun : p c = q c.advance) (hk : c.current.kind ≠ .eof)
    (hq : Accounts q c.advance fun a u c' => Q a (c.current.spelling ++ u) c') :
    Accounts p c Q := by
  intro o c' hpc hc
  obtain ⟨hc', hclean⟩ := hq o c' (hrun.symm.trans hpc) hc.advance
  refine ⟨hc', fun hr => ?_⟩
  obtain ⟨hr₁, a, used, ho, htokens, hQ⟩ := hclean hr
  rw [Cursor.advance_reported] at hr₁
  refine ⟨hr₁, a, c.current :: used, ho, ?_, hQ⟩
  rw [List.cons_append, ← htokens, hc.advance_tokens hk]
  rfl

theorem accounts_take {f : Token → Parse α} (hk : c.current.kind ≠ .eof)
    (hf : Accounts (f c.current) c.advance fun a u c' => Q a (c.current.spelling ++ u) c') :
    Accounts (take >>= f) c Q :=
  accounts_step rfl hk hf

theorem accounts_skip {f : Unit → Parse α} (hk : c.current.kind ≠ .eof)
    (hf : Accounts (f ()) c.advance fun a u c' => Q a (c.current.spelling ++ u) c') :
    Accounts (skip >>= f) c Q :=
  accounts_step rfl hk hf

/-- A step that passes the current token and yields a value. -/
theorem accounts_pass {p : Parse α} {a : α} (hrun : p c = (some a, c.advance))
    (hk : c.current.kind ≠ .eof) : Accounts p c fun b v c' =>
      b = a ∧ v = c.current.spelling ∧ c.tokens = c.current :: c'.tokens := by
  refine accounts_of_closed fun hc => accounts_step (q := pure a) hrun hk ?_
  refine accounts_pure ⟨rfl, List.append_nil _, ?_⟩
  rw [hc.advance_tokens hk]
  rfl

theorem accounts_expect {k : Kind} (e : SyntaxError) (hk : k ≠ .eof) :
    Accounts (expect k e) c fun t v c' =>
      t.kind = k ∧ v = t.spelling ∧ c.tokens = t :: c'.tokens := by
  by_cases hat : c.current.kind = k
  · refine (accounts_pass (expect_of_kind hat e) (hat ▸ hk)).imp ?_
    rintro _ _ _ ⟨rfl, hpassed⟩
    exact ⟨hat, hpassed⟩
  · exact accounts_congr (q := fail e) (expect_of_ne hat e) (accounts_fail e)

/-- A word or sign that must come next. -/
theorem accounts_word {k : Kind} {f : Token → Parse α} (e : SyntaxError) (hk : k ≠ .eof)
    (hfixed : ¬(k = .identifier ∨ isLiteral k))
    (hf : ∀ t c₁, Accounts (f t) c₁ fun a u c' =>
      t.kind = k → Q a ((Token.word k).spelling ++ u) c') :
    Accounts (expect k e >>= f) c Q := by
  refine (accounts_expect e hk).bind fun t c₁ => (hf t c₁).imp ?_
  intro a u c' hQ v hv
  obtain ⟨ht, rfl, _⟩ := hv
  rw [Token.spelling_of_kind ht hfixed]
  exact hQ ht

/-- A name that must come next. -/
theorem accounts_name {f : Token → Parse α} (e : SyntaxError)
    (hf : ∀ t c₁, Accounts (f t) c₁ fun a u c' =>
      t.kind = .identifier → Q a (t.spelling ++ u) c') :
    Accounts (expect .identifier e >>= f) c Q := by
  refine (accounts_expect e (by decide)).bind fun t c₁ => (hf t c₁).imp ?_
  intro a u c' hQ v hv
  obtain ⟨ht, rfl, _⟩ := hv
  exact hQ ht

/-- A word or sign that may come next. -/
theorem accounts_accept {k : Kind} {f : Bool → Parse α} (hk : k ≠ .eof)
    (hfixed : ¬(k = .identifier ∨ isLiteral k))
    (htrue : ∀ c₁, Accounts (f true) c₁ fun a u c' => Q a ((Token.word k).spelling ++ u) c')
    (hfalse : Accounts (f false) c Q) : Accounts (accept k >>= f) c Q := by
  by_cases hat : c.current.kind = k
  · refine accounts_step (accept_bind_of_kind hat f) (hat ▸ hk) ((htrue _).imp fun a u c' hQ => ?_)
    rw [Token.spelling_of_kind hat hfixed]
    exact hQ
  · exact accounts_congr (accept_bind_of_ne hat f) hfalse

theorem accounts_withinLimit (count : Nat) (e : SyntaxError) :
    Accounts (withinLimit count e) c fun _ v c' => count < maxArgs ∧ v = [] ∧ c' = c := by
  refine accounts_peek ?_
  by_cases hlimit : maxArgs ≤ count
  · rw [if_pos hlimit]
    exact (accounts_complain _ _).imp fun _ _ _ h => h.elim
  · rw [if_neg hlimit]
    exact accounts_pure ⟨Nat.not_le.mp hlimit, rfl, rfl⟩

/-- What the entries of a list with commas tell, the list tells. -/
theorem accounts_alongCommas {entry : Parse α} {more : Parse (List α)}
    {E : α → List Token → Prop} {M : List α → List Token → Prop}
    (hentry : Accounts entry c fun a v _ => E a v)
    (hmore : ∀ c₁, Accounts more c₁ fun as v _ => M as v) :
    Accounts (alongCommas entry more) c fun as v _ => (∃ a, as = [a] ∧ E a v) ∨
      ∃ a as' v₁ v₂, as = a :: as' ∧ E a v₁ ∧ M as' v₂ ∧ v = v₁ ++ Token.word .comma :: v₂ := by
  refine hentry.bind fun a c₁ => accounts_accept (by decide) (by decide) (fun c₂ => ?_) ?_
  · refine (hmore c₂).bind fun as c₃ => accounts_pure ?_
    intro v₂ has v₁ ha
    exact .inr ⟨a, as, v₁, v₂, rfl, ha, has, by rw [List.append_nil]; rfl⟩
  · refine accounts_pure fun v ha => .inl ⟨a, rfl, ?_⟩
    rw [List.append_nil]
    exact ha

end Steps

/-! ## 2. Expressions -/

/-- The expression is of at least the given precedence and tells the tokens. -/
def Spelled (p : Nat) (e : Expr) (v : List Token) : Prop :=
  e.wellFormed = true ∧ p ≤ e.precedence ∧ v = spell e.write

theorem Spelled.mono {p q : Nat} {e : Expr} {v : List Token} (hpq : p ≤ q) (he : Spelled q e v) :
    Spelled p e v :=
  ⟨he.1, Nat.le_trans hpq he.2.1, he.2.2⟩

/-- Given `room`, the rules of expressions account for the tokens that they pass. -/
structure TellsExpr (room : Nat) : Prop where
  expression (c : Cursor) : Accounts (Grammar.expression room) c fun e v _ => Spelled 0 e v
  operand (o : Option Level) (c : Cursor) :
    Accounts (Grammar.operand room o) c fun e v _ => Spelled (Level.tier o) e v
  /-- A loop tells its tokens and those of the tree that it starts with. -/
  chain (l : Level) (left : Expr) (c : Cursor) : Accounts (Grammar.chain room l left) c fun e v _ =>
    ∀ w, Spelled l.rank left w → Spelled l.rank e (w ++ v)
  unary (c : Cursor) : Accounts (Grammar.unary room) c fun e v _ => Spelled 7 e v
  calls (callee : Expr) (c : Cursor) : Accounts (Grammar.calls room callee) c fun e v _ =>
    ∀ w, Spelled 8 callee w → Spelled 8 e (w ++ v)
  arguments (count : Nat) (c : Cursor) : Accounts (Grammar.arguments room count) c fun as v _ =>
    as ≠ [] ∧ Expr.allWellFormed as = true ∧ count + as.length ≤ maxArgs ∧
      v = spell (withCommas (Expr.writeEach as))
  primary (c : Cursor) : Accounts (Grammar.primary room) c fun e v _ => Spelled 9 e v

section Rules

variable {room : Nat}

theorem tells_zero : TellsExpr 0 :=
  ⟨fun _ => accounts_fail _, fun _ _ => accounts_fail _, fun _ _ _ => accounts_fail _,
    fun _ => accounts_fail _, fun _ _ => accounts_fail _, fun _ _ => accounts_fail _,
    fun _ => accounts_fail _⟩

/-- Only a name can be assigned to. -/
theorem expression_tells (ih : TellsExpr room) (c : Cursor) :
    Accounts (expression (room + 1)) c fun e v _ => Spelled 0 e v := by
  simp only [expression]
  refine (ih.operand (some .or) c).bind fun e c₁ => accounts_peek ?_
  by_cases hassign : c₁.current.kind = .assign
  · rw [if_pos hassign]
    refine accounts_skip (by rw [hassign]; decide) ?_
    refine (ih.expression _).bind fun value c₂ => ?_
    cases e with
    | ref name =>
      refine accounts_pure ?_
      intro w hw v hv
      obtain ⟨hvalue, _, rfl⟩ := hw
      obtain ⟨hname, _, rfl⟩ := hv
      refine ⟨?_, Nat.zero_le _, ?_⟩
      · simp only [Expr.wellFormed, Bool.and_eq_true] at hname ⊢
        exact ⟨hname, hvalue⟩
      · rw [Token.spelling_of_kind hassign (by decide)]
        simp [Expr.write]
    | _ => exact (accounts_complain _ _).bind fun _ _ => accounts_pure fun _ h => h.elim
  · rw [if_neg hassign]
    refine accounts_pure fun v he => ?_
    rw [List.append_nil]
    exact he.mono (Nat.zero_le _)

theorem operand_tells (ih : TellsExpr room) (o : Option Level) (c : Cursor) :
    Accounts (operand (room + 1) o) c fun e v _ => Spelled (Level.tier o) e v := by
  cases o with
  | none => exact ih.unary c
  | some l =>
    refine (ih.operand l.tighter c).bind fun left c₁ => ?_
    refine (ih.chain l left c₁).imp fun e u c' hchain v hleft => ?_
    rw [Level.tier_tighter] at hleft
    exact hchain v (hleft.mono (Nat.le_succ _))

theorem spelled_combine {l : Level} {left right : Expr} {op : Token} {v w : List Token}
    (hop : l.has op.kind = true) (hleft : Spelled l.rank left v)
    (hright : Spelled (l.rank + 1) right w) :
    Spelled l.rank (l.combine left op right) (v ++ (op.spelling ++ w)) := by
  rw [Level.has_iff] at hop
  obtain ⟨hwl, hpl, rfl⟩ := hleft
  obtain ⟨hwr, hpr, rfl⟩ := hright
  refine ⟨?_, ?_, ?_⟩
  · cases hlog : l.isLogical <;>
      simp [Level.combine_eq, hlog, Expr.wellFormed, hop, hwl, hwr, hpl, Nat.lt_of_succ_le hpr]
  · exact Nat.le_of_eq (Level.precedence_combine hop).symm
  · rw [Level.write_combine, spell_append, spell_cons, Token.spelling_unplaced]

theorem chain_tells (ih : TellsExpr room) (l : Level) (left : Expr) (c : Cursor) :
    Accounts (chain (room + 1) l left) c fun e v _ =>
      ∀ w, Spelled l.rank left w → Spelled l.rank e (w ++ v) := by
  simp only [chain]
  refine accounts_peek ?_
  by_cases hop : l.has c.current.kind = true
  · rw [if_pos hop]
    refine accounts_skip ?_ ?_
    · intro heof
      rw [heof] at hop
      cases l <;> cases hop
    · refine (ih.operand l.tighter _).bind fun right c₁ => ?_
      refine (ih.chain l _ c₁).imp fun e u c' hchain v hright w hleft => ?_
      rw [Level.tier_tighter] at hright
      have := hchain _ (spelled_combine hop hleft hright)
      simpa only [List.append_assoc] using this
  · rw [if_neg hop]
    refine accounts_pure fun w hleft => ?_
    rw [List.append_nil]
    exact hleft

theorem unary_tells (ih : TellsExpr room) (c : Cursor) :
    Accounts (unary (room + 1)) c fun e v _ => Spelled 7 e v := by
  simp only [unary]
  refine accounts_peek ?_
  by_cases hsign : isSign c.current.kind = true
  · rw [if_pos hsign]
    refine accounts_skip ?_ ?_
    · intro heof
      rw [heof] at hsign
      cases hsign
    · refine (ih.unary _).bind fun e c₁ => accounts_pure ?_
      intro v hv
      obtain ⟨hwf, hp, rfl⟩ := hv
      refine ⟨?_, Nat.le_refl _, ?_⟩
      · simp [Expr.wellFormed, hsign, hp, hwf]
      · rw [Expr.write, spell_cons, Token.spelling_unplaced, List.append_nil]
  · rw [if_neg hsign]
    refine (ih.primary c).bind fun callee c₁ => ?_
    refine (ih.calls callee c₁).imp fun e u c' hcalls v hcallee => ?_
    exact (hcalls v (hcallee.mono (by decide))).mono (by decide)

theorem argumentList_tells (ih : TellsExpr room) (c : Cursor) :
    Accounts (argumentList room) c fun as v _ => Expr.allWellFormed as = true ∧
      as.length ≤ maxArgs ∧ v = spell (withCommas (Expr.writeEach as)) := by
  refine accounts_peek ?_
  split
  · exact accounts_pure ⟨rfl, Nat.zero_le _, rfl⟩
  · refine (ih.arguments 0 c).imp fun as v _ h => ?_
    obtain ⟨_, hwf, hlen, hv⟩ := h
    rw [Nat.zero_add] at hlen
    exact ⟨hwf, hlen, hv⟩

theorem calls_tells (ih : TellsExpr room) (callee : Expr) (c : Cursor) :
    Accounts (calls (room + 1) callee) c fun e v _ =>
      ∀ w, Spelled 8 callee w → Spelled 8 e (w ++ v) := by
  rw [calls_eq]
  refine accounts_accept (by decide) (by decide) (fun c₁ => ?_) ?_
  · rw [if_pos rfl]
    refine (argumentList_tells ih c₁).bind fun args c₂ => ?_
    refine accounts_word _ (by decide) (by decide) fun paren c₃ => ?_
    refine (ih.calls _ c₃).imp ?_
    intro e u c' hcalls hparen v hv w hw
    obtain ⟨hargs, hlen, rfl⟩ := hv
    obtain ⟨hwf, hp, rfl⟩ := hw
    have hcall : Spelled 8 (.call callee paren args) (spell (callee.write ++
        Token.word .leftParen :: withCommas (Expr.writeEach args) ++ [paren])) := by
      refine ⟨?_, Nat.le_refl _, ?_⟩
      · simp [Expr.wellFormed, hp, hwf, hparen, hlen, hargs]
      · simp [Expr.write]
    have := hcalls _ hcall
    simpa [Token.spelling_of_kind hparen (by decide)] using this
  · rw [if_neg Bool.false_ne_true]
    refine accounts_pure fun w hcallee => ?_
    rw [List.append_nil]
    exact hcallee

theorem arguments_tells (ih : TellsExpr room) (count : Nat) (c : Cursor) :
    Accounts (arguments (room + 1) count) c fun as v _ => as ≠ [] ∧
      Expr.allWellFormed as = true ∧ count + as.length ≤ maxArgs ∧
      v = spell (withCommas (Expr.writeEach as)) := by
  rw [arguments_eq]
  refine (accounts_withinLimit _ _).bind fun _ c₁ => ?_
  refine (accounts_alongCommas (ih.expression c₁) (ih.arguments (count + 1))).imp ?_
  intro as u c' has v hv
  obtain ⟨hcount, rfl, _⟩ := hv
  rcases has with ⟨e, rfl, hwf, _, rfl⟩ |
    ⟨e, as', v₁, v₂, rfl, ⟨hwf, _, rfl⟩, ⟨hne, hwfs, hlen, rfl⟩, rfl⟩
  · refine ⟨List.cons_ne_nil _ _, ?_, hcount, rfl⟩
    simp [Expr.allWellFormed, hwf]
  · refine ⟨List.cons_ne_nil _ _, ?_, ?_, ?_⟩
    · simp [Expr.allWellFormed, hwf, hwfs]
    · rw [List.length_cons]
      omega
    · cases as' with
      | nil => exact absurd rfl hne
      | cons e₁ as' =>
        simp only [Expr.writeEach, withCommas_cons_cons, spell_append, spell_cons]
        rfl

theorem primary_tells (ih : TellsExpr room) (c : Cursor) :
    Accounts (primary (room + 1)) c fun e v _ => Spelled 9 e v := by
  simp only [primary]
  refine accounts_peek ?_
  by_cases hlit : isLiteral c.current.kind = true
  · rw [if_pos hlit]
    refine accounts_skip ?_ (accounts_pure ⟨hlit, Nat.le_refl _, ?_⟩)
    · intro heof
      rw [heof] at hlit
      cases hlit
    · simp [Expr.write]
  rw [if_neg hlit]
  by_cases hname : c.current.kind = .identifier
  · rw [if_pos hname]
    refine accounts_skip (by rw [hname]; decide) (accounts_pure ⟨?_, Nat.le_refl _, ?_⟩)
    · simp [Expr.wellFormed, hname]
    · simp [Expr.write]
  rw [if_neg hname]
  by_cases hparen : c.current.kind = .leftParen
  · rw [if_pos hparen]
    refine accounts_skip (by rw [hparen]; decide) ?_
    refine (ih.expression _).bind fun e c₁ => ?_
    refine accounts_word _ (by decide) (by decide) fun _ c₂ => accounts_pure ?_
    intro _ v hv
    obtain ⟨hwf, _, rfl⟩ := hv
    refine ⟨hwf, Nat.le_refl _, ?_⟩
    rw [Token.spelling_of_kind hparen (by decide)]
    simp [Expr.write]
  · rw [if_neg hparen]
    exact accounts_failAt _ _

/-- **The rules of expressions account for the tokens that they pass.** -/
theorem tellsExpr : ∀ room, TellsExpr room
  | 0 => tells_zero
  | room + 1 =>
    have ih := tellsExpr room
    ⟨expression_tells ih, operand_tells ih, chain_tells ih, unary_tells ih, calls_tells ih,
      arguments_tells ih, primary_tells ih⟩

end Rules

end FencedCode
