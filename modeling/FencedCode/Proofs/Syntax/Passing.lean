import FencedCode.Proofs.Syntax.Locality

/-!
# Passing tokens

No step goes back, and a rule that reads something has passed a token when it is done. This is what
the calls of a rule and the room that it needs are measured by.

* `Steady.rest_le`, `Steady.closed` -- steady steps only move on;
* `Passes` -- that a step which succeeds has passed a token;
* `expression_passes`, `statement_passes` -- expressions and statements do;
* `rest_declaration`, `rest_recovered` -- what is passed although a rule has failed.
-/

namespace FencedCode

open Parse Grammar

/-! ## 1. Steps -/

section Passing

variable {α β : Type} {c : Cursor}

theorem rest_le_of_suffix {c c' : Cursor} (hs : c'.tokens <:+ c.tokens) :
    c'.rest.length ≤ c.rest.length :=
  Nat.le_of_succ_le_succ hs.length_le

theorem Steady.rest_le {p : Parse α} (hp : Steady p) (c : Cursor) :
    (p c).2.rest.length ≤ c.rest.length :=
  rest_le_of_suffix (hp.moves c)

theorem Steady.closed {p : Parse α} (hp : Steady p) (hc : c.Closed) : (p c).2.Closed :=
  hc.of_suffix (hp.moves c)

/-- The cursor has one token less before it once it has moved. -/
theorem Cursor.Closed.rest_advance (hc : c.Closed) (hk : c.current.kind ≠ .eof) :
    c.advance.rest.length < c.rest.length := by
  have hlength := congrArg List.length (hc.advance_tokens hk)
  have htokens : c.advance.tokens.length = c.advance.rest.length + 1 := rfl
  omega

theorem Cursor.Closed.rest_pos (hc : c.Closed) (hopen : ¬ c.AtEnd) : 0 < c.rest.length :=
  Nat.zero_lt_of_lt (hc.rest_advance hopen)

/-- A step that has passed a token when it succeeds. -/
def Passes (p : Parse α) : Prop :=
  ∀ ⦃c : Cursor⦄, c.Closed → (p c).1 ≠ none → (p c).2.rest.length < c.rest.length

theorem passes_fail (e : SyntaxError) : Passes (fail e : Parse α) :=
  fun _ _ hne => absurd rfl hne

/-- A step passes a token if its first part does. -/
theorem Passes.bind {p : Parse α} {f : α → Parse β} (hp : Passes p) (hf : ∀ a, Steady (f a)) :
    Passes (p >>= f) := by
  intro c hc hne
  cases ha : (p c).1 with
  | none =>
    rw [Parse.bind_none ha] at hne
    exact absurd rfl hne
  | some a =>
    rw [Parse.bind_some ha]
    exact Nat.lt_of_le_of_lt ((hf a).rest_le _) (hp hc (by rw [ha]; exact nofun))

theorem passes_expect {k : Kind} (hk : k ≠ .eof) (e : SyntaxError) : Passes (expect k e) := by
  intro c hc hne
  by_cases hat : c.current.kind = k
  · rw [expect_of_kind hat]
    exact hc.rest_advance (by rw [hat]; exact hk)
  · rw [expect_of_ne hat] at hne
    exact absurd rfl hne

/-- What follows a step moves on from where the step has stopped. -/
theorem rest_bind_le {p : Parse α} {f : α → Parse β} (hf : ∀ a, Steady (f a)) :
    ((p >>= f) c).2.rest.length ≤ (p c).2.rest.length := by
  cases ha : (p c).1 with
  | none =>
    exact Nat.le_of_eq (by rw [Parse.bind_none ha])
  | some a =>
    rw [Parse.bind_some ha]
    exact (hf a).rest_le _

theorem rest_orRecover_le {p : Parse α} {recover : Cursor → Cursor}
    (hr : Cursor.Recovers recover) :
    (orRecover p recover c).2.rest.length ≤ (p c).2.rest.length := by
  unfold orRecover
  cases hrun : p c with
  | mk o c₁ =>
    cases o with
    | none => exact rest_le_of_suffix (hr c₁).2
    | some a => exact Nat.le_refl _

/-- A step that goes on where the cursor has moved. -/
theorem rest_skip_bind {f : Unit → Parse β} (hf : Steady (f ())) (hc : c.Closed)
    (hk : c.current.kind ≠ .eof) : ((skip >>= f) c).2.rest.length < c.rest.length :=
  Nat.lt_of_le_of_lt (hf.rest_le _) (hc.rest_advance hk)

end Passing

/-! ## 2. Expressions -/

/-- The rules of expressions that succeed have passed a token. -/
theorem primary_passes : ∀ room, Passes (primary room)
  | 0 => passes_fail _
  | room + 1 => by
    intro c hc hne
    rw [primary_eq] at hne ⊢
    change ((if isLiteral c.current.kind then _ else _ : Parse Expr) c).1 ≠ none at hne
    change ((if isLiteral c.current.kind then _ else _ : Parse Expr) c).2.rest.length < _
    by_cases hliteral : isLiteral c.current.kind = true
    · rw [if_pos hliteral]
      exact rest_skip_bind (steady_pure _) hc fun heof => by rw [heof] at hliteral; cases hliteral
    rw [if_neg hliteral] at hne ⊢
    by_cases hname : c.current.kind = .identifier
    · rw [if_pos hname]
      exact rest_skip_bind (steady_pure _) hc (by rw [hname]; decide)
    rw [if_neg hname] at hne ⊢
    by_cases hparen : c.current.kind = .leftParen
    · rw [if_pos hparen]
      have hexpr : Steady (expression room) := Rule.expression.steady room ()
      refine rest_skip_bind (hexpr.bind fun _ => ?_) hc (by rw [hparen]; decide)
      exact (steady_expect _ _).bind fun _ => steady_pure _
    · rw [if_neg hparen] at hne
      exact absurd rfl hne

theorem unary_passes : ∀ room, Passes (unary room)
  | 0 => passes_fail _
  | room + 1 => by
    simp only [unary]
    intro c hc hne
    change ((if isSign c.current.kind then _ else _ : Parse Expr) c).1 ≠ none at hne
    change ((if isSign c.current.kind then _ else _ : Parse Expr) c).2.rest.length < _
    by_cases hsign : isSign c.current.kind = true
    · rw [if_pos hsign]
      have hunary : Steady (unary room) := Rule.unary.steady room ()
      refine rest_skip_bind (hunary.bind fun _ => steady_pure _) hc fun heof => ?_
      rw [heof] at hsign
      cases hsign
    · rw [if_neg hsign] at hne ⊢
      exact (primary_passes room).bind (fun e => Rule.calls.steady room e) hc hne

theorem operand_passes : ∀ room o, Passes (operand room o)
  | 0, _ => passes_fail _
  | room + 1, none => unary_passes room
  | room + 1, some l =>
    (operand_passes room l.tighter).bind fun left => (Rule.chain l).steady room left

theorem expression_passes : ∀ room, Passes (expression room)
  | 0 => passes_fail _
  | room + 1 => by
    rw [expression_eq]
    exact (operand_passes room _).bind fun e => steady_assignment e

/-! ## 3. Declarations and statements -/

theorem type?_of_startsDeclaration {k : Kind} (hstart : startsDeclaration k = true)
    (himmut : k ≠ .kwImmut) : ∃ type, k.type? = some type := by
  cases k with
  | type t => exact ⟨t, rfl⟩
  | kwImmut => exact absurd rfl himmut
  | _ => cases hstart

/-- A declaration passes the word it starts with, also when it fails. -/
theorem rest_declaration {room : Nat} {c : Cursor} (hc : c.Closed)
    (hstart : startsDeclaration c.current.kind = true) :
    (declaration room c).2.rest.length < c.rest.length := by
  have heof : c.current.kind ≠ .eof := fun heof => by rw [heof] at hstart; cases hstart
  have hlt := hc.rest_advance heof
  rw [declaration_eq]
  have hbehind (word : TypeName) (b : Bool) : Steady (declarators word.type b room >>= fun ds =>
      accept .semicolon >>= fun _ => pure ds) :=
    (Rule.declarators.steady room (_, _)).bind fun _ =>
      (steady_accept _).bind fun _ => steady_pure _
  by_cases himmut : c.current.kind = .kwImmut
  · rw [Parse.bind_some (congrArg Prod.fst (accept_of_kind himmut)), accept_of_kind himmut]
    exact Nat.lt_of_le_of_lt
      (((steady_typeWord _).bind fun word => hbehind word _).rest_le c.advance) hlt
  · rw [Parse.bind_some (congrArg Prod.fst (accept_of_ne himmut)), accept_of_ne himmut]
    refine Nat.lt_of_le_of_lt (rest_bind_le fun word => hbehind word _) ?_
    obtain ⟨type, htype⟩ := type?_of_startsDeclaration hstart himmut
    show (typeWord .typeAfterImmut c).2.rest.length < c.rest.length
    rw [typeWord_of_type htype]
    exact hlt

/-- A statement that is read has passed a token. -/
theorem statementOf_passes (room : Nat) {c : Cursor} (hc : c.Closed)
    (hne : (statementOf room c.current.kind c).1 ≠ none) :
    (statementOf room c.current.kind c).2.rest.length < c.rest.length := by
  -- the statements with a keyword take it first
  have htake {α : Type} {f : Token → Parse α} (hf : ∀ t, Steady (f t))
      (hk : c.current.kind ≠ .eof) : ((take >>= f) c).2.rest.length < c.rest.length :=
    Nat.lt_of_le_of_lt (rest_bind_le hf) (hc.rest_advance hk)
  have hexpr : Steady (expression room) := Rule.expression.steady room ()
  cases hk : c.current.kind with
  | kwDisplay =>
    exact htake (fun _ => (steady_expect _ _).bind fun _ => hexpr.bind fun _ => steady_pure _)
      (by rw [hk]; decide)
  | kwScan =>
    exact htake (fun _ => (steady_expect _ _).bind fun _ =>
      (Rule.names.steady room ()).bind fun _ => steady_pure _) (by rw [hk]; decide)
  | kwReturn =>
    exact htake (fun _ => steady_peek.bind fun _ =>
      steady_ite (hexpr.bind fun _ => steady_pure _) (steady_pure _)) (by rw [hk]; decide)
  | kwIf =>
    rw [hk] at hne
    cases room with
    | zero => exact absurd rfl hne
    | succ room =>
      simp only [statementOf, conditional]
      exact htake (fun _ => (Rule.condition.steady _ _).bind fun _ =>
        (Rule.fenced.steady _ _).bind fun _ => (Rule.alternatives.steady _ ()).bind fun _ =>
        steady_pure _) (by rw [hk]; decide)
  | kwWhile =>
    rw [hk] at hne
    cases room with
    | zero => exact absurd rfl hne
    | succ room =>
      simp only [statementOf, loop]
      exact htake (fun _ => (Rule.condition.steady _ _).bind fun _ =>
        (Rule.fenced.steady room _).bind fun _ => steady_pure _) (by rw [hk]; decide)
  | kwBegin =>
    rw [hk] at hne
    cases room with
    | zero => exact absurd rfl hne
    | succ room =>
      simp only [statementOf, block]
      exact htake (fun _ => (Rule.body.steady room _).bind fun _ =>
        (steady_expect _ _).bind fun _ => steady_pure _) (by rw [hk]; decide)
  | kwFn => rw [hk] at hne; exact absurd rfl hne
  | kwImmut => rw [hk] at hne; exact absurd rfl hne
  | type t => rw [hk] at hne; exact absurd rfl hne
  | _ =>
    rw [hk] at hne
    exact (expression_passes room).bind (fun _ => steady_pure _) hc hne

theorem statement_passes : ∀ room, Passes (statement room)
  | 0 => passes_fail _
  | room + 1 => by
    rw [statement_eq]
    exact fun c hc hne => statementOf_passes room hc hne

/-- Away from an `END` the recovery skips a token before it searches. -/
theorem Cursor.synchronize_of_ne {c : Cursor} (hend : c.current.kind ≠ .kwEnd) :
    c.synchronize = c.advance.walked Cursor.toBoundary := by
  unfold Cursor.synchronize
  rw [if_neg fun hat => hend (Cursor.isAt_iff.mp hat)]
  rfl

/-- Skipping a malformed statement passes a token, unless it has reached an end. -/
theorem Cursor.Closed.rest_synchronize {c : Cursor} (hc : c.Closed) (heof : c.current.kind ≠ .eof)
    (hend : c.current.kind ≠ .kwEnd) : c.synchronize.rest.length < c.rest.length := by
  rw [Cursor.synchronize_of_ne hend]
  refine Nat.lt_of_le_of_lt (rest_le_of_suffix ?_) (hc.rest_advance heof)
  exact Cursor.toBoundary_suffix _ _ _

/-- Reading a statement passes a token, or else recovering from its failure does. -/
theorem rest_recovered (room : Nat) {c : Cursor} (hc : c.Closed) (heof : c.current.kind ≠ .eof)
    (hend : c.current.kind ≠ .kwEnd) :
    (orRecover (statement room) Cursor.synchronize c).2.rest.length < c.rest.length := by
  have hmoves : (statement room c).2.tokens <:+ c.tokens :=
    (Rule.statement.steady room ()).moves c
  cases hs : (statement room c).1 with
  | some s =>
    have hpass := statement_passes room hc (by rw [hs]; exact nofun)
    exact Nat.lt_of_le_of_lt (rest_orRecover_le Cursor.recovers_synchronize) hpass
  | none =>
    by_cases hlt : (statement room c).2.rest.length < c.rest.length
    · exact Nat.lt_of_le_of_lt (rest_orRecover_le Cursor.recovers_synchronize) hlt
    · -- the statement has failed where it starts, so that the recovery passes that token
      have hlength : c.tokens.length ≤ (statement room c).2.tokens.length :=
        Nat.succ_le_succ (Nat.not_lt.mp hlt)
      have htokens := hmoves.eq_of_length_le hlength
      have hcurrent : (statement room c).2.current = c.current := (List.cons.inj htokens).1
      have hrest : (statement room c).2.rest = c.rest := (List.cons.inj htokens).2
      have hsync : (orRecover (statement room) Cursor.synchronize c).2 =
          (statement room c).2.synchronize := by
        rw [orRecover_none hs]
      rw [hsync, ← hrest]
      refine (hc.of_suffix hmoves).rest_synchronize ?_ ?_
      · rwa [hcurrent]
      · rwa [hcurrent]

end FencedCode
