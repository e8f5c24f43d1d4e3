import FencedCode.Proofs.Machine.Safety

/-!
# Where faults are reported

Most faults name a token of the program when they are raised. An application does not know its
place: its faults start out without one, and the call expression around it gives them the place of
its closing parenthesis. All other activities pass failures on as they are. So a fault gets its
place at the innermost call expression and keeps it, however many calls it then ends.

* `Activity.Applies` -- that a part of a call expression is its application;
* `Activity.Fails.placed` -- **a fault has no place only within the application that raised it**;
* `Activity.Fails.of_within` -- a failure with a place goes all the way out;
* `Activity.Fails.origin` -- where a fault of an application comes from;
* `fault_locations` -- **the places of faults of source texts.**
-/

namespace FencedCode

open Exec Machine

/-! ## 1. Places -/

/-- The failure is no fault, or a fault with a place. -/
def Failure.IsPlaced (x : Failure) : Prop :=
  ∀ f, x = .fault f → f.line ≠ 0

theorem Failure.IsPlaced.locate {x : Failure} (hx : x.IsPlaced) (t : Token) : x.locate t = x := by
  cases x with
  | fault f =>
    show Failure.fault (f.locate t) = .fault f
    unfold Fault.locate
    rw [if_neg (hx f rfl)]
  | _ => rfl

theorem Failure.locate_eq_fault {x : Failure} {t : Token} {f : Fault} (hx : x.locate t = .fault f) :
    ∃ g, x = .fault g ∧ g.cause = f.cause := by
  cases x with
  | fault g =>
    cases hx
    refine ⟨g, rfl, ?_⟩
    unfold Fault.locate
    split <;> rfl
  | _ => cases hx

namespace Activity

variable {h : Host} {S : Token → Prop}

/-- Activity `b` is the application of the call expression `a`, whose closing parenthesis is
    `paren`. -/
def Applies (h : Host) (a b : Activity) (paren : Token) : Prop :=
  Calls h a b ∧ (∃ callee args, a.task = .eval (.call callee paren args)) ∧
    ∃ callee args, b.task = .apply callee args

/-- The activity is a call expression. -/
def IsCall (a : Activity) : Prop :=
  ∃ callee paren args, a.task = .eval (.call callee paren args)

/-- **A call expression places the failures of its application. Everything else passes failures on
    as they are**; and what has an application as such a part is an application itself. -/
theorem passed_cases {a b : Activity} (hab : Calls h a b) :
    (∃ paren, Applies h a b paren ∧ ∀ x, passed a b x = x.locate paren) ∨
    (b.task.IsApplication → a.task.IsApplication) ∧ ∀ x, passed a b x = x := by
  cases hab with
  | application hf hvs =>
    exact .inl ⟨_, ⟨.application hf hvs, ⟨_, _, rfl⟩, _, _, rfl⟩, fun _ => rfl⟩
  | user _ _ => exact .inr ⟨fun _ => trivial, fun _ => rfl⟩
  | _ => exact .inr ⟨fun happlication => absurd happlication id, fun _ => rfl⟩

/-- The parenthesis of a drawn call expression is one of the tokens. -/
theorem Applies.paren {a b : Activity} {paren : Token} (happlies : Applies h a b paren)
    (ha : a.Drawn S) : S paren := by
  obtain ⟨_, ⟨callee, args, htask⟩, _⟩ := happlies
  have ht := ha.2
  rw [htask] at ht
  exact ht.1

theorem Applies.passed_eq {a b : Activity} {paren : Token} (happlies : Applies h a b paren)
    (x : Failure) : passed a b x = x.locate paren := by
  obtain ⟨_, ⟨callee, args, htask⟩, callee', args', htask'⟩ := happlies
  obtain ⟨n, task, m⟩ := a
  obtain ⟨n', task', m'⟩ := b
  cases htask
  cases htask'
  rfl

/-- An activity fails in one way at most. -/
theorem Fails.unique {a : Activity} {x y : Failure} (hx : Fails h a x) (hy : Fails h a y) :
    x = y := by
  obtain ⟨n, task, m⟩ := a
  cases task <;> exact Except.error.inj (Eq.trans (Eq.symm hx) hy)

/-! ## 2. Faults of drawn activities -/

/-- **A drawn activity that fails with a fault fails with one at a token**, or else it is an
    application that fails with a fault of an application, which has no place yet. -/
theorem Fails.placed {a : Activity} {x : Failure} (hx : Fails h a x) (ha : a.Drawn S) :
    ∀ f, x = .fault f →
      S f.token ∨ (a.task.IsApplication ∧ f.cause.IsUnplaced ∧ f = .unplaced f.cause) := by
  refine hx.rule (motive := fun a x => a.Drawn S → ∀ f, x = .fault f →
    S f.token ∨ (a.task.IsApplication ∧ f.cause.IsUnplaced ∧ f = .unplaced f.cause)) ?_ ?_ ha
  · rintro a x hraised ha f rfl
    cases hraised.reported ha with
    | placed _ ht => exact .inl ht
    | unplaced happlication hc => exact .inr ⟨happlication, hc, rfl⟩
  · rintro a b x hab _ ih ha f hf
    have hb := drawn_of_calls hab ha
    rcases passed_cases hab with ⟨paren, happlies, hpassed⟩ | ⟨happlication, hpassed⟩
    · rw [hpassed] at hf
      obtain ⟨g, rfl, hcause⟩ := Failure.locate_eq_fault hf
      obtain rfl := Failure.fault.inj hf
      -- the fault keeps its place, or gets that of the parenthesis
      unfold Fault.locate
      split
      · exact .inl (happlies.paren ha)
      · rename_i hline
        rcases ih hb g rfl with hg | ⟨_, _, hg⟩
        · exact .inl hg
        · rw [hg] at hline
          exact absurd rfl hline
    · rw [hpassed] at hf
      rcases ih hb f hf with hf | ⟨hb, hrest⟩
      · exact .inl hf
      · exact .inr ⟨happlication hb, hrest⟩

/-- **A failure with a place goes all the way out.** -/
theorem Fails.of_within {a b : Activity} {x : Failure} (hab : Within h a b) (hx : Fails h b x)
    (hplaced : x.IsPlaced) : Fails h a x := by
  induction hab with
  | refl => exact hx
  | @tail c d _ hcall ih =>
    have hpassed := hx.of_calls hcall
    have hsame : passed c d x = x := by
      rcases passed_cases hcall with ⟨paren, _, hpassed⟩ | ⟨_, hpassed⟩
      · rw [hpassed, hplaced.locate]
      · exact hpassed x
    rw [hsame] at hpassed
    exact ih hpassed

section Places

variable (hS : ∀ t, S t → t.line ≠ 0)
include hS

theorem Fails.isPlaced {a : Activity} {x : Failure} (hx : Fails h a x) (ha : a.Drawn S)
    (happlication : ¬ a.task.IsApplication) : x.IsPlaced := by
  intro f hf
  rcases hx.placed ha f hf with hf | ⟨ha, _⟩
  · exact hS _ hf
  · exact absurd ha happlication

/-- A fault without a place gets the place of the parenthesis and keeps it. -/
theorem Fails.of_application {a b c : Activity} {paren : Token} {k : Cause} (ha : a.Drawn S)
    (hwithin : Within h a b) (happlies : Applies h b c paren)
    (hc : Fails h c (.fault (.unplaced k))) : Fails h a (.fault ⟨k, paren⟩) := by
  have hb : Fails h b (.fault ⟨k, paren⟩) := by
    have hpassed := hc.of_calls happlies.1
    rw [happlies.passed_eq] at hpassed
    exact hpassed
  have hparen := happlies.paren (drawn_of_within hwithin ha)
  refine hb.of_within hwithin fun f hf => ?_
  cases hf
  exact hS _ hparen

/-- In an application that fails with a fault without a place no call expression fails. -/
theorem Fails.innermost {a b : Activity} {k : Cause} {x : Failure} (ha : a.Drawn S)
    (hk : Fails h a (.fault (.unplaced k))) (hab : Within h a b) (hb : b.IsCall) :
    ¬ Fails h b x := by
  intro hx
  obtain ⟨callee, paren, args, htask⟩ := hb
  have happlication : ¬ b.task.IsApplication := by
    rw [htask]
    exact id
  have hplaced := hx.isPlaced hS (drawn_of_within hab ha) happlication
  have hsame := hk.unique (hx.of_within hab hplaced)
  exact hplaced _ hsame.symm rfl

/-- **Where a fault of an application comes from.** The activity is itself an application and fails
    without a place, or there is a call expression in it whose application fails so, and the fault
    stands at its closing parenthesis. -/
theorem Fails.origin {a : Activity} {x : Failure} (hx : Fails h a x) (ha : a.Drawn S) :
    ∀ f, x = .fault f → f.cause.IsUnplaced →
      (a.task.IsApplication ∧ f = .unplaced f.cause) ∨
      ∃ b c, Within h a b ∧ Applies h b c f.token ∧ Fails h c (.fault (.unplaced f.cause)) := by
  refine hx.rule (motive := fun a x => a.Drawn S → ∀ f, x = .fault f → f.cause.IsUnplaced →
    (a.task.IsApplication ∧ f = .unplaced f.cause) ∨
    ∃ b c, Within h a b ∧ Applies h b c f.token ∧ Fails h c (.fault (.unplaced f.cause))) ?_ ?_ ha
  · rintro a x hraised ha f rfl hcause
    cases hraised.reported ha with
    | placed hplaced _ => exact absurd hcause hplaced
    | unplaced happlication _ => exact .inl ⟨happlication, rfl⟩
  · rintro a b x hab hx ih ha f hf hcause
    have hb := drawn_of_calls hab ha
    rcases passed_cases hab with ⟨paren, happlies, hpassed⟩ | ⟨happlication, hpassed⟩
    · rw [hpassed] at hf
      obtain ⟨g, rfl, hsame⟩ := Failure.locate_eq_fault hf
      obtain rfl := Failure.fault.inj hf
      rcases ih hb g rfl (hsame ▸ hcause) with ⟨_, hg⟩ | ⟨c, d, hbc, hcd, hd⟩
      · -- the application itself has failed without a place
        have hlocated : g.locate paren = ⟨g.cause, paren⟩ := by
          rw [hg]
          rfl
        rw [hlocated]
        exact .inr ⟨a, b, .refl, happlies, hg ▸ hx⟩
      · have hline := hS _ (hcd.paren (drawn_of_within hbc hb))
        have hlocated : g.locate paren = g := if_neg hline
        rw [hlocated]
        exact .inr ⟨c, d, .head hab hbc, hcd, hd⟩
    · rw [hpassed] at hf
      rcases ih hb f hf hcause with ⟨hb, hf⟩ | ⟨c, d, hbc, hrest⟩
      · exact .inl ⟨happlication hb, hf⟩
      · exact .inr ⟨c, d, .head hab hbc, hrest⟩

end Places

end Activity

/-! ## 3. Source texts -/

/-- A source text fails if it is a program whose run fails. -/
theorem runText_failed {h : Host} {t : Text} {m : Machine} {x : Failure} :
    (runText h t m).1 = some (.failed x) ↔ (Program.ofText t).diagnostics = [] ∧
      (execute h grantedSteps (Program.ofText t).stmts m).1 = .error x := by
  unfold runText runProgram
  by_cases hd : (Program.ofText t).diagnostics.isEmpty = true
  · rw [if_pos hd]
    have hnil := List.isEmpty_iff.mp hd
    split
    · rename_i hrun
      rw [hrun]
      exact ⟨nofun, fun hx => nomatch hx.2⟩
    · rename_i e m' hrun
      rw [hrun]
      refine ⟨fun hx => ⟨hnil, ?_⟩, fun hx => ?_⟩
      · cases hx
        rfl
      · cases hx.2
        rfl
  · rw [if_neg hd]
    refine ⟨nofun, fun hx => ?_⟩
    exact absurd (List.isEmpty_iff.mpr hx.1) hd

open Activity in
/-- **The places of faults.** Run any source text on a standard machine with any input.

    * If it ends with a fault, the fault stands at a token of the text, and on one of its lines. If
      it is a fault of an application, there is a call expression in the run whose application fails
      with it without a place and in which no other call expression fails, and the token is the
      closing parenthesis of this call expression.
    * Whenever the application of a call expression of the run fails without a place, the text ends
      with this fault at the closing parenthesis of the call expression. -/
theorem fault_locations (h : Host) (t : Text) (input : Input) :
    let run := Activity.ofProgram grantedSteps (Program.ofText t).stmts (.standard input)
    let result := (runText h t (.standard input)).1
    (∀ f, result = some (.failed (.fault f)) →
      1 ≤ f.line ∧ f.token ∈ (Scan.ofText t).tokens ∧
      (f.cause.IsUnplaced → ∃ a b, Within h run a ∧ Applies h a b f.token ∧
        Fails h b (.fault (.unplaced f.cause)) ∧
        ∀ c x, Within h b c → c.IsCall → ¬ Fails h c x)) ∧
    ((Program.ofText t).diagnostics = [] → ∀ a b paren c, Within h run a → Applies h a b paren →
      Fails h b (.fault (.unplaced c)) → result = some (.failed (.fault ⟨c, paren⟩))) := by
  intro run result
  have hlines : ∀ u ∈ (Scan.ofText t).tokens, u.line ≠ 0 := fun u hu =>
    Nat.ne_of_gt (Scan.line_bounds hu).1
  have hdrawn : run.Drawn (· ∈ (Scan.ofText t).tokens) := drawn_ofText grantedSteps t input
  have hrun : ¬ run.task.IsApplication := id
  constructor
  · intro f hf
    have hfails : Fails h run (.fault f) := execute_error.mp (runText_failed.mp hf).2
    have htoken : f.token ∈ (Scan.ofText t).tokens := by
      rcases hfails.placed hdrawn f rfl with hf | ⟨happlication, _⟩
      · exact hf
      · exact absurd happlication hrun
    refine ⟨(Scan.line_bounds htoken).1, htoken, fun hcause => ?_⟩
    rcases hfails.origin hlines hdrawn f rfl hcause with ⟨happlication, _⟩ | ⟨a, b, ha, hab, hb⟩
    · exact absurd happlication hrun
    · have hdrawnb := drawn_of_calls hab.1 (drawn_of_within ha hdrawn)
      exact ⟨a, b, ha, hab, hb, fun c x hbc hc => hb.innermost hlines hdrawnb hbc hc⟩
  · intro haccepted a b paren c ha hab hb
    have hfails := Fails.of_application hlines hdrawn ha hab hb
    exact runText_failed.mpr ⟨haccepted, execute_error.mpr hfails⟩

/-- A program that calls a function without the argument that it wants, inside another call. -/
def misappliedText : Text :=
  utf8 "FN INT inner(INT x) BEGIN FN\nRETURN x\nEND FN\n" ++
    utf8 "FN INT outer(INT y) BEGIN FN\nRETURN inner()\nEND FN\n" ++
    utf8 "BEGIN CODE\nDISPLAY: outer(1)\nEND CODE\n"

theorem Cause.isUnplaced_of_kind {c : Cause} (hc : c.kind = .arityMismatch) : c.IsUnplaced := by
  cases c with
  | arity _ _ => exact trivial
  | _ => cases hc

theorem RunError.eq_failed {e : RunError} {f : Fault}
    (hf : (e.failure?.bind fun x => x.fault?) = some f) : e = .failed (.fault f) := by
  obtain ⟨x, hx, hfault⟩ := Option.bind_eq_some_iff.mp hf
  cases e with
  | failed y =>
    cases hx
    cases x with
    | fault g =>
      cases hfault
      rfl
    | _ => cases hfault
  | _ => cases hx

open Activity in
/-- The fault stands at the parenthesis of the inner call on line 5, not at that of the outer call
    on line 8. -/
theorem misappliedText_located :
    let run := Activity.ofProgram grantedSteps (Program.ofText misappliedText).stmts
      (.standard .empty)
    ∃ f, (runText {} misappliedText (.standard .empty)).1 = some (.failed (.fault f)) ∧
      f.line = 5 ∧ f.token.kind = .rightParen ∧ f.token ∈ (Scan.ofText misappliedText).tokens ∧
      ∃ a b, Within {} run a ∧ Applies {} a b f.token ∧
        Fails {} b (.fault (.unplaced f.cause)) := by
  intro run
  have hplace : ((runText {} misappliedText (.standard .empty)).1.bind fun e =>
      e.failure?.bind fun x => x.fault?).map (fun f => (f.kind, f.line, f.token.kind)) =
      some (.arityMismatch, 5, .rightParen) := by decide +kernel
  obtain ⟨f, hf, hfacts⟩ := Option.map_eq_some_iff.mp hplace
  obtain ⟨e, hresult, he⟩ := Option.bind_eq_some_iff.mp hf
  obtain rfl := RunError.eq_failed he
  obtain ⟨hkind, hline, hparen⟩ : f.kind = .arityMismatch ∧ f.line = 5 ∧
      f.token.kind = .rightParen := by
    obtain ⟨hkind, hplace⟩ := Prod.mk.inj hfacts
    exact ⟨hkind, Prod.mk.inj hplace⟩
  obtain ⟨_, htoken, horigin⟩ := (fault_locations {} misappliedText .empty).1 f hresult
  obtain ⟨a, b, ha, hab, hb, _⟩ := horigin (Cause.isUnplaced_of_kind hkind)
  exact ⟨f, hresult, hline, hparen, htoken, a, b, ha, hab, hb⟩

end FencedCode
