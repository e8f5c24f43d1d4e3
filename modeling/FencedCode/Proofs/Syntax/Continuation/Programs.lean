import FencedCode.Proofs.Syntax.Continuation.Expressions

/-!
# Completing programs

A declaration, a statement or a program that is cut short is completed with what is missing of it: a
name, the parentheses that are open, and then the fences, from the innermost one to that of the
program. What was skipped after a complaint needs no completion, since such a complaint cannot be
mended.

* `Ending`, `Fencing` -- what can follow statements and functions that are completed;
* `declaration_completes`, `parameters_completes`, … -- declarations;
* `CompletesStmts`, `completesStmts` -- **statements that are cut short can be completed**, by
  induction on the room;
* `program_completes` -- **programs that are cut short can be completed**.
-/

namespace FencedCode

open Parse Grammar

/-! ## 1. Declarations -/

/-- What can follow a statement that is completed. -/
def Ending (k : Kind) : Prop :=
  k = .kwEnd

theorem Ending.closing {k : Kind} (hk : Ending k) : Closing k :=
  .inr hk

theorem Closing.ne_semicolon {k : Kind} (hk : Closing k) : k ≠ .semicolon :=
  hk.ne (by decide) (by decide)

section Declarations

variable {F : Kind → Prop} {room n : Nat}

theorem initializer_completes (hn : 16 * n + 10 ≤ room) :
    Completes n [] Closing (initializer room) := by
  have hsteady : Steady (initializer room) := steady_initializer
  refine (admits_accept hsteady (admits_pure _) fun _ hk => hk.ne (by decide) (by decide)).completes
    fun hc hle hopen => completesAt_accept hsteady hc hopen (fun _ => ?_) fun _ =>
      completesAt_pure _
  exact (((completesExpr room).expression (by omega)).map some).advanced hc hle hopen

theorem declarators_completes (type : BaseType) (isMutable : Bool) : ∀ {room n : Nat},
    16 * n + 11 ≤ room → Completes n [.name] Closing (declarators type isMutable room)
  | 0, _, hn => absurd hn (by omega)
  | room + 1, n, hn => by
    have hentry : Completes n [.name] Closing (declarator type isMutable room) :=
      .behind (fun _ => (initializer_completes (by omega)).map _) .name rfl _
    rw [declarators_eq]
    refine hentry.alongCommas (fun _ hk => hk.ne_comma) (Rule.declarators.steady room (_, _))
      fun hc hlt => ?_
    exact (declarators_completes type isMutable (n := n - 1) (by omega)).completes hc (by omega)

theorem typeWord_completes (e : SyntaxError) : Completes n [.typeInt] F (typeWord e) := by
  have hsteady := steady_typeWord e
  rw [typeWord_eq] at hsteady ⊢
  refine (admits_step (q := fun t => pure ⟨.int, t⟩) hsteady (fun _ => admits_pure _)
    fun w hw => ?_).completes fun {c} hc _ hopen => completesAt_peek hsteady hopen ?_
  · have hint : w.current.kind.type? = some .int := by
      rw [hw]
      rfl
    rw [← typeWord_eq, typeWord_of_type hint]
    rfl
  · cases c.current.kind.type? with
    | none => exact completesAt_of_open (steady_fail _) hopen
    | some type => exact completesAt_skip hc hopen (completesAt_pure _)

theorem declaration_completes {c : Cursor} (hn : 16 * n + 11 ≤ room) (hc : c.Promising)
    (hle : c.rest.length ≤ n) (hopen : ¬ c.AtEnd) : CompletesAt Closing (declaration room) c := by
  -- the type word and what comes behind it, with `IMMUT` before it or without
  have hword (b : Bool) {m : Nat} (hm : m ≤ n) : Completes m [.typeInt, .name] Closing
      (typeWord .typeAfterImmut >>= fun word => declarators word.type b room >>= fun ds =>
        accept .semicolon >>= fun _ => pure ds) :=
    (typeWord_completes (F := fun _ => True) _).bind (fun _ =>
      (declarators_completes _ _ (by omega)).bind (fun ds =>
        (completes_pure ds).optional fun _ hk => hk.ne_semicolon) fun _ hk => hk) trivial
  have hsteady : Steady (declaration room) := (Rule.declaration.steady room ())
  rw [declaration_eq] at hsteady ⊢
  refine completesAt_accept hsteady hc hopen (fun _ => ?_) fun _ => ?_
  · exact (hword (!true) (Nat.sub_le n 1)).advanced hc hle hopen
  · exact (hword (!false) (Nat.le_refl n)).completes hc hle

theorem declarations_completes : ∀ {room n : Nat}, 16 * n + 12 ≤ room →
    Completes n [] Ending (declarations room)
  | 0, _, hn => absurd hn (by omega)
  | room + 1, n, hn => by
    have hsteady : Steady (declarations (room + 1)) := Rule.declarations.steady (room + 1) ()
    have hrecovery := Cursor.steadyRecovery_synchronize
    simp only [declarations] at hsteady ⊢
    refine (admits_stay hsteady [] fun w hw => ?_).completes fun {c} hc hle hopen =>
      completesAt_peek hsteady hopen ?_
    · show (if startsDeclaration w.current.kind then _ else _ : Parse (List Stmt)) w = _
      rw [hw]
      rfl
    · split
      · rename_i hstart
        have hpos := hc.closed.rest_pos hopen
        have hmore : Completes (n - 1) [] Ending (declarations room) :=
          declarations_completes (by omega)
        have hlt : (orRecover (declaration room) Cursor.synchronize c).2.rest.length <
            c.rest.length :=
          Nat.lt_of_le_of_lt (rest_orRecover_le hrecovery.recovers)
            (rest_declaration hc.closed hstart)
        have hfirst : CompletesAt Closing (declaration room) c :=
          declaration_completes (by omega) hc hle hopen
        refine (completesAt_orRecover hfirst hrecovery hc).bind hc (fun d => hmore.admits.map _)
          (fun _ hk => hk.closing) fun d _ _ hc₁ _ => ?_
        exact (hmore.map _).completes hc₁ (by omega)
      · exact completesAt_pure _

theorem parameter_completes : Completes n [.typeInt, .name] F parameter :=
  (typeWord_completes (F := fun _ => True) _).bind
    (fun _ => .behind (fun _ => completes_pure _) .name rfl _) trivial

theorem parameters_completes : ∀ {room n : Nat} {c : Cursor} (count : Nat), 16 * n + 1 ≤ room →
    c.Promising → c.rest.length ≤ n → CompletesAt Closing (parameters room count) c
  | 0, _, _, _, hn, _, _ => absurd hn (by omega)
  | room + 1, n, c, count, hn, hc, hle => by
    rw [parameters_eq]
    refine completesAt_limited (.inr rfl) (Completes.completes (K := [.typeInt, .name]) ?_ hc hle)
      count
    refine parameter_completes.alongCommas (fun _ hk => hk.ne_comma)
      (Rule.parameters.steady room _) fun hc₁ hlt => ?_
    exact parameters_completes (n := n - 1) _ (by omega) hc₁ (by omega)

theorem parameterList_completes (hn : 16 * n + 1 ≤ room) :
    Completes n [] (· = .rightParen) (parameterList room) := by
  have hsteady : Steady (parameterList room) := steady_parameterList
  refine (admits_stay hsteady [] fun w hw => ?_).completes fun hc hle hopen =>
    completesAt_peek hsteady hopen ?_
  · show (if w.current.kind = .rightParen then _ else _ : Parse (List Param)) w = _
    rw [if_pos hw]
    rfl
  · split
    · exact completesAt_pure _
    · exact (parameters_completes 0 hn hc hle).mono fun _ hk => .inl hk

theorem condition_completes (keyword : String) (hn : 16 * n + 10 ≤ room) :
    Completes n [.openParen, .name, .closeParen] F (condition room keyword) :=
  .behind (fun _ => ((completesExpr room).expression hn).bind
    (fun _ => .behind (fun _ => completes_pure _) .closeParen rfl _) (.inl rfl)) .openParen rfl _

theorem names_completes : ∀ {room n : Nat}, 16 * n + 1 ≤ room →
    Completes n [.name] Closing (names room)
  | 0, _, hn => absurd hn (by omega)
  | room + 1, n, hn => by
    rw [names_eq]
    refine (completes_expect .name rfl _).alongCommas (fun _ hk => hk.ne_comma)
      (Rule.names.steady room ()) fun hc hlt => ?_
    exact (names_completes (n := n - 1) (by omega)).completes hc (by omega)

theorem resultType_completes : Completes n [] (fun k => k.type? = none) resultType := by
  have hsteady := steady_resultType
  refine (admits_stay hsteady none fun w hw => resultType_of_none hw).completes
    fun {c} hc _ hopen => completesAt_peek hsteady hopen ?_
  cases c.current.kind.type? with
  | none => exact completesAt_pure _
  | some type => exact completesAt_skip hc hopen (completesAt_pure _)

end Declarations

/-! ## 2. Statements -/

/-- What can follow functions that are completed. -/
def Fencing (k : Kind) : Prop :=
  k = .kwBegin ∨ k = .kwEnd

/-- Given `room`, the rules of statements can be completed, if `room` is sixteen for each token left
    and a few more. -/
structure CompletesStmts (room : Nat) : Prop where
  /-- Statements are read where the text has not ended. -/
  statement {n : Nat} {c : Cursor} : 16 * n + 12 ≤ room → c.Promising → c.rest.length ≤ n →
    ¬ c.AtEnd → CompletesAt Ending (Grammar.statement room) c
  statements {n : Nat} : 16 * n + 13 ≤ room → Completes n [] Ending (Grammar.statements room)
  conditional {n : Nat} {c : Cursor} : 16 * n + 11 ≤ room → c.Promising → c.rest.length ≤ n →
    ¬ c.AtEnd → CompletesAt Ending (Grammar.conditional room) c
  alternatives {n : Nat} : 16 * n + 1 ≤ room → Completes n [] Ending (Grammar.alternatives room)
  loop {n : Nat} {c : Cursor} : 16 * n + 11 ≤ room → c.Promising → c.rest.length ≤ n →
    ¬ c.AtEnd → CompletesAt Ending (Grammar.loop room) c
  block {n : Nat} {c : Cursor} : 16 * n + 1 ≤ room → c.Promising → c.rest.length ≤ n →
    ¬ c.AtEnd → CompletesAt Ending (Grammar.block room) c
  fenced {n : Nat} {F : Kind → Prop} {fence : Kind} (f : Filler) : f.kind = fence →
    16 * n + 14 ≤ room → Completes n [.wordBegin, f, .wordEnd, f] F (Grammar.fenced room fence)
  body {n : Nat} (withFunctions : Bool) : 16 * n + 14 ≤ room →
    Completes n [] Ending (Grammar.body room withFunctions)
  functions {n : Nat} : 16 * n + 1 ≤ room → Completes n [] Fencing (Grammar.functions room)
  function {n : Nat} {F : Kind → Prop} : 16 * n + 15 ≤ room →
    Completes n [.name, .openParen, .closeParen, .wordBegin, .wordFn, .wordEnd, .wordFn] F
      (Grammar.function room)

section Statements

variable {room n : Nat} {c : Cursor}

/-- A keyword, a colon, and what the keyword is about. -/
theorem completesAt_colon {α : Type} {p : Parse α} {e : SyntaxError} (mk : Token → α → Stmt)
    (hp : Completes (n - 1) [.name] Closing p) (hc : c.Promising) (hle : c.rest.length ≤ n)
    (hopen : ¬ c.AtEnd) : CompletesAt Closing (take >>= fun keyword => expect .colon e >>= fun _ =>
      p >>= fun a => pure (mk keyword a)) c := by
  have hall (keyword : Token) : Completes (n - 1) [.colon, .name] Closing
      (expect .colon e >>= fun _ => p >>= fun a => pure (mk keyword a)) :=
    .behind (fun _ => hp.map _) .colon rfl _
  exact completesAt_take (steady_take.bind fun t => (hall t).admits.steady) hc hopen
    ((hall c.current).advanced hc hle hopen)

/-- A `RETURN` where the text ends has no value, and an `END` gives it none. -/
theorem ret_completes (hn : 16 * n + 10 ≤ room) (hc : c.Promising) (hle : c.rest.length ≤ n)
    (hopen : ¬ c.AtEnd) : CompletesAt Ending (ret room) c := by
  have hvalue := (((completesExpr room).expression (n := n - 1) (by omega)).map fun e =>
    Stmt.ret c.current (some e)).mono fun _ hk => Ending.closing hk
  have hsteady : Steady (peek >>= fun t =>
      if t.pos.line = c.current.pos.line ∧ endsReturn t.kind = false then
        expression room >>= fun e => pure (Stmt.ret c.current (some e))
      else pure (Stmt.ret c.current none)) :=
    steady_peek.bind fun _ => steady_ite hvalue.admits.steady (steady_pure _)
  refine completesAt_take (Rule.ret.steady _ ()) hc hopen ?_
  by_cases hend : c.advance.AtEnd
  · refine (admits_stay hsteady (.ret c.current none) fun w hw => ?_).completesAt hend
    show (if w.current.pos.line = _ ∧ endsReturn w.current.kind = false then _ else _ :
      Parse Stmt) w = _
    rw [hw, if_neg (by simp [endsReturn])]
    rfl
  · refine completesAt_peek hsteady hend ?_
    split
    · exact hvalue.advanced hc hle hopen
    · exact completesAt_pure _

theorem statement_completes (ih : CompletesStmts room) (hn : 16 * n + 12 ≤ room + 1)
    (hc : c.Promising) (hle : c.rest.length ≤ n) (hopen : ¬ c.AtEnd) :
    CompletesAt Ending (statement (room + 1)) c := by
  have hclosing {k : Kind} (hk : Ending k) : Closing k := hk.closing
  have hexpr := completesExpr room
  have hsteady : Steady (statement (room + 1)) := Rule.statement.steady (room + 1) ()
  rw [statement_eq] at hsteady ⊢
  refine completesAt_peek hsteady hopen ?_
  cases hk : c.current.kind with
  | kwDisplay =>
    exact (completesAt_colon .display (hexpr.expression (by omega)) hc hle hopen).mono
      fun _ => hclosing
  | kwScan =>
    exact (completesAt_colon .scan (names_completes (by omega)) hc hle hopen).mono fun _ => hclosing
  | kwReturn => exact ret_completes (by omega) hc hle hopen
  | kwIf => exact ih.conditional (by omega) hc hle hopen
  | kwWhile => exact ih.loop (by omega) hc hle hopen
  | kwBegin => exact ih.block (by omega) hc hle hopen
  | kwFn => exact completesAt_of_open (steady_fail _) hopen
  | kwImmut => exact completesAt_of_open (steady_fail _) hopen
  | type t => exact completesAt_of_open (steady_fail _) hopen
  | _ =>
    exact (((hexpr.expression (by omega)).map Stmt.expression).completes hc hle).mono
      fun _ => hclosing

theorem statements_completes (ih : CompletesStmts room) (hn : 16 * n + 13 ≤ room + 1) :
    Completes n [] Ending (statements (room + 1)) := by
  have hsteady : Steady (statements (room + 1)) := Rule.statements.steady (room + 1) ()
  have hrecovery := Cursor.steadyRecovery_synchronize
  simp only [statements] at hsteady ⊢
  refine (admits_stay hsteady [] fun w hw => ?_).completes fun {c} hc hle hopen =>
    completesAt_peek hsteady hopen ?_
  · show (if w.current.kind = .eof ∨ w.current.kind = .kwEnd then _ else _ :
      Parse (List Stmt)) w = _
    rw [if_pos (.inr hw)]
    rfl
  have hpos := hc.closed.rest_pos hopen
  have hmore := ih.statements (n := n - 1) (by omega)
  split
  · exact completesAt_pure _
  rename_i hgoes
  split
  · exact completesAt_skip hc hopen (hmore.advanced hc hle hopen)
  obtain ⟨heof, hend⟩ := not_or.mp hgoes
  have hlt := Nat.lt_of_lt_of_le (rest_recovered room hc.closed heof hend) hle
  have hread (s : Stmt) : Completes (n - 1) [] Ending (accept .semicolon >>= fun _ =>
      statements room >>= fun more => pure (s :: more)) :=
    (hmore.map _).optional fun _ hk => hk.closing.ne_semicolon
  have hfirst := ih.statement (by omega) hc hle hopen
  -- the statements behind this one, which was skipped or read
  refine (completesAt_orRecover hfirst hrecovery hc).bind (K := []) hc (fun o => ?_)
    (fun _ hk => hk) fun o _ _ hc₁ _ => ?_
  · cases o with
    | none => exact hmore.admits
    | some s => exact (hread s).admits
  · cases o with
    | none => exact hmore.completes hc₁ (by omega)
    | some s => exact (hread s).completes hc₁ (by omega)

theorem fenced_completes (ih : CompletesStmts room) {F : Kind → Prop} {fence : Kind} (f : Filler)
    (hf : f.kind = fence) (hn : 16 * n + 14 ≤ room + 1) :
    Completes n [.wordBegin, f, .wordEnd, f] F (fenced (room + 1) fence) := by
  simp only [fenced]
  refine .behind (fun _ => .behind (fun _ => ?_) f hf _) .wordBegin rfl _
  refine (ih.statements (by omega)).bind (fun _ => ?_) rfl
  exact .behind (fun _ => .behind (fun _ => completes_pure _) f hf _) .wordEnd rfl _

/-- A condition, the statements that it guards, and what comes behind them. -/
theorem guarded_completes (ih : CompletesStmts room) {α : Type} {F : Kind → Prop} {fence : Kind}
    {g : Expr → List Stmt → Parse α} (hg : ∀ e ss, Completes n [] F (g e ss)) (f : Filler)
    (hf : f.kind = fence) (keyword : String) (hn : 16 * n + 14 ≤ room) :
    Completes n [.openParen, .name, .closeParen, .wordBegin, f, .wordEnd, f] F
      (condition room keyword >>= fun e => fenced room fence >>= fun ss => g e ss) :=
  (condition_completes (F := fun _ => True) keyword (by omega)).bind
    (fun e => (ih.fenced f hf hn).bind (hg e) fun _ hk => hk) trivial

theorem alternatives_completes (ih : CompletesStmts room) (hn : 16 * n + 1 ≤ room + 1) :
    Completes n [] Ending (alternatives (room + 1)) := by
  have hsteady : Steady (alternatives (room + 1)) := Rule.alternatives.steady (room + 1) ()
  rw [alternatives_eq] at hsteady ⊢
  refine (admits_stay hsteady .done fun w hw => ?_).completes fun hc hle hopen =>
    completesAt_peek hsteady hopen ?_
  · show (if w.current.kind = .kwElse then _ else _ : Parse Alternatives) w = _
    rw [if_neg (hw.closing.ne (by decide) (by decide))]
    rfl
  have hpos := hc.closed.rest_pos hopen
  have hlast : Completes (n - 1) [.wordBegin, .wordIf, .wordEnd, .wordIf] Ending
      (fenced room .kwIf >>= fun ss => pure (Alternatives.otherwise ss)) :=
    (ih.fenced .wordIf rfl (by omega)).map _
  have hnext {m : Nat} (hm : 16 * m + 14 ≤ room) := guarded_completes ih (fun e ss =>
    (ih.alternatives (n := m) (by omega)).map (Alternatives.elseIf e ss)) .wordIf rfl "ELSE IF" hm
  split
  · refine completesAt_skip hc hopen (Completes.advanced
      (K := [.wordBegin, .wordIf, .wordEnd, .wordIf]) ?_ hc hle hopen)
    -- behind the `ELSE` stands another condition, or the last alternative
    have hsteady₁ := steady_peek.bind fun u => steady_ite (q := u.kind = .kwIf)
      (steady_skip.bind fun _ => (hnext (m := 0) (by omega)).admits.steady) hlast.admits.steady
    refine (hlast.admits.congr hsteady₁ fun w hw => ?_).completes fun hc₁ hle₁ hopen₁ =>
      completesAt_peek hsteady₁ hopen₁ ?_
    · show (if w.current.kind = .kwIf then _ else _ : Parse Alternatives) w = _
      rw [hw]
      rfl
    · split
      · exact completesAt_skip hc₁ hopen₁ ((hnext (by omega)).advanced hc₁ hle₁ hopen₁)
      · exact hlast.completes hc₁ hle₁
  · exact completesAt_pure _

theorem conditional_completes (ih : CompletesStmts room) (hn : 16 * n + 11 ≤ room + 1)
    (hc : c.Promising) (hle : c.rest.length ≤ n) (hopen : ¬ c.AtEnd) :
    CompletesAt Ending (conditional (room + 1)) c := by
  have hpos := hc.closed.rest_pos hopen
  have hsteady : Steady (conditional (room + 1)) := Rule.conditional.steady (room + 1) ()
  have hothers (e : Expr) (ss : List Stmt) : Completes (n - 1) [] Ending
      (alternatives room >>= fun others => pure (Stmt.conditional c.current e ss others)) :=
    (ih.alternatives (by omega)).map _
  simp only [conditional] at hsteady ⊢
  exact completesAt_take hsteady hc hopen
    ((guarded_completes ih hothers .wordIf rfl "IF" (by omega)).advanced hc hle hopen)

theorem loop_completes (ih : CompletesStmts room) (hn : 16 * n + 11 ≤ room + 1)
    (hc : c.Promising) (hle : c.rest.length ≤ n) (hopen : ¬ c.AtEnd) :
    CompletesAt Ending (loop (room + 1)) c := by
  have hpos := hc.closed.rest_pos hopen
  have hsteady : Steady (loop (room + 1)) := Rule.loop.steady (room + 1) ()
  have hdone (e : Expr) (ss : List Stmt) : Completes (n - 1) [] Ending
      (pure (Stmt.loop c.current e ss)) :=
    completes_pure _
  simp only [loop] at hsteady ⊢
  exact completesAt_take hsteady hc hopen
    ((guarded_completes ih hdone .wordWhile rfl "WHILE" (by omega)).advanced hc hle hopen)

theorem block_completes (ih : CompletesStmts room) (hn : 16 * n + 1 ≤ room + 1)
    (hc : c.Promising) (hle : c.rest.length ≤ n) (hopen : ¬ c.AtEnd) :
    CompletesAt Ending (block (room + 1)) c := by
  have hpos := hc.closed.rest_pos hopen
  have hsteady : Steady (block (room + 1)) := Rule.block.steady (room + 1) ()
  simp only [block] at hsteady ⊢
  refine completesAt_take hsteady hc hopen (Completes.advanced (K := [.wordEnd]) ?_ hc hle hopen)
  exact (ih.body true (by omega)).bind
    (fun _ => .behind (fun _ => completes_pure _) .wordEnd rfl _) rfl

theorem body_completes (ih : CompletesStmts room) (withFunctions : Bool)
    (hn : 16 * n + 14 ≤ room + 1) : Completes n [] Ending (body (room + 1) withFunctions) := by
  have hinner := ih.statements (n := n) (by omega)
  simp only [body]
  refine (declarations_completes (by omega)).bind (L := []) (fun _ => ?_) fun _ hk => hk
  cases withFunctions with
  | true => exact (ih.functions (by omega)).bind (fun _ => hinner.map _) fun _ hk => .inr hk
  | false => exact (completes_pure _).bind (G := Ending) (fun _ => hinner.map _) fun _ hk => hk

theorem functions_completes (ih : CompletesStmts room) (hn : 16 * n + 1 ≤ room + 1) :
    Completes n [] Fencing (functions (room + 1)) := by
  have hsteady : Steady (functions (room + 1)) := Rule.functions.steady (room + 1) ()
  have hrecovery := Cursor.steadyRecovery_skipFunction
  simp only [functions] at hsteady ⊢
  refine (admits_accept hsteady (admits_pure _) fun k hk => ?_).completes fun hc hle hopen =>
    completesAt_accept hsteady hc hopen (fun _ => ?_) fun _ => completesAt_pure _
  · rcases hk with rfl | rfl
    · decide
    · decide
  have hpos := hc.closed.rest_pos hopen
  have hmore := ih.functions (n := n - 1) (by omega)
  have hfirst := (ih.function (n := n - 1) (F := Fencing) (by omega)).advanced hc hle hopen
  refine (completesAt_orRecover hfirst hrecovery hc.advance).bind hc.advance
    (fun _ => hmore.admits.map _) (fun _ hk => hk) fun _ _ _ hc₁ hle₁ => ?_
  have hlt := hc.closed.rest_advance hopen
  exact (hmore.map _).completes hc₁ (by omega)

theorem function_completes (ih : CompletesStmts room) {F : Kind → Prop}
    (hn : 16 * n + 15 ≤ room + 1) :
    Completes n [.name, .openParen, .closeParen, .wordBegin, .wordFn, .wordEnd, .wordFn] F
      (function (room + 1)) := by
  rw [function_eq]
  refine resultType_completes.bind (fun result => ?_) rfl
  refine .behind (fun name => .behind (fun _ => ?_) .openParen rfl _) .name rfl _
  refine (parameterList_completes (by omega)).bind (fun params => ?_) rfl
  refine .behind (fun _ => .behind (fun _ => .behind (fun _ => ?_) .wordFn rfl _)
    .wordBegin rfl _) .closeParen rfl _
  refine (ih.body true (by omega)).bind (fun inner => ?_) rfl
  exact .behind (fun _ => .behind (fun _ => completes_pure _) .wordFn rfl _) .wordEnd rfl _

/-- **Statements that are cut short can be completed.** -/
theorem completesStmts : ∀ room, CompletesStmts room
  | 0 => by
    refine ⟨fun hn => ?_, fun hn => ?_, fun hn => ?_, fun hn => ?_, fun hn => ?_, fun hn => ?_,
      fun _ _ hn => ?_, fun _ hn => ?_, fun hn => ?_, fun hn => ?_⟩
    all_goals omega
  | room + 1 =>
    have ih := completesStmts room
    ⟨statement_completes ih, statements_completes ih, conditional_completes ih,
      alternatives_completes ih, loop_completes ih, block_completes ih, fenced_completes ih,
      body_completes ih, functions_completes ih, function_completes ih⟩

end Statements

/-! ## 3. Programs -/

section Programs

variable {F : Kind → Prop} {n : Nat}

/-- A fence of the program, and what comes behind it. -/
theorem Completes.fenced {α : Type} {K : List Filler} {q : Parse α} (hq : Completes n K F q)
    (f : Filler) {k : Kind} (hk : f.kind = k) (e : SyntaxError) (a : α) :
    Completes n (f :: K) F (fence k e >>= fun b => if (!b) = true then pure a else q) := by
  have hsteady := (steady_fence k e).bind fun b => steady_ite (q := (!b) = true) (steady_pure a)
    hq.admits.steady
  have hrun {w : Cursor} (hw : w.current.kind = k) :
      (fence k e >>= fun b => if (!b) = true then pure a else q) w = q w.advance := by
    have hfence := fence_of_kind hw e
    rw [Parse.bind_some (congrArg Prod.fst hfence), hfence]
    rfl
  refine (admits_step (q := fun _ => q) hsteady (fun _ => hq.admits)
    fun w hw => hrun (hw.trans hk)).completes fun {c} hc hle hopen => ?_
  by_cases hat : c.current.kind = k
  · have hlt := hc.closed.rest_advance hopen
    refine (completesAt_skip hc hopen (hq.completes hc.advance (by omega))).congr hsteady hopen
      fun w hw => hrun (by rw [hw]; exact hat)
  · refine completesAt_of_open hsteady ?_
    have hfence := fence_of_ne hat e
    rw [Parse.bind_some (congrArg Prod.fst hfence), hfence]
    exact hopen

theorem programEnd_completes (ss : List Stmt) : Completes n [] (· = .eof)
    (peek >>= fun t => if t.kind ≠ .eof then
      complain t .nothingAfterProgram >>= fun _ => pure ss else pure ss) := by
  refine (admits_stay (steady_programEnd ss) ss fun w hw => ?_).completes fun {c} hc hle hopen =>
    completesAt_of_open (steady_programEnd ss) ?_
  · show (if w.current.kind ≠ .eof then _ else _ : Parse (List Stmt)) w = _
    rw [if_neg (not_not_intro hw)]
    rfl
  · show ¬ ((if c.current.kind ≠ .eof then _ else _ : Parse (List Stmt)) c).2.AtEnd
    rw [if_pos (show c.current.kind ≠ .eof from hopen)]
    exact hopen

/-- **Programs that are cut short can be completed.** -/
theorem program_completes {room : Nat} (hn : 16 * n + 14 ≤ room) :
    Completes n [.wordBegin, .wordCode, .wordEnd, .wordCode] (· = .eof) (program room) := by
  have hstmts := completesStmts room
  simp only [program]
  refine (hstmts.functions (by omega)).bind (fun fns => ?_) (.inl rfl)
  refine .fenced (.fenced ?_ .wordCode rfl _ _) .wordBegin rfl _ _
  refine (hstmts.body false hn).bind (fun main => ?_) rfl
  exact .fenced (.fenced (programEnd_completes _) .wordCode rfl _ _) .wordEnd rfl _ _

end Programs

end FencedCode
