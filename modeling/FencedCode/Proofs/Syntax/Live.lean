import FencedCode.Proofs.Syntax.Progress
import FencedCode.Proofs.Token.Lines

/-!
# Complaints told when they are made

The scanner and the parser keep a list of their complaints, which can be replayed when they are
done. Or they are given a handler, and tell it of each complaint at the moment they make it. Both
come to the same: nothing is told twice, left out or put in another order.

* `Scan.live` -- scanning with a handler;
* `Script.live`, `Rule.live` -- parsing with a handler, step by step;
* `Cursor.told` -- what a handler has come to by the time of a cursor;
* `Activation.Sound.live_eq` -- **a rule tells what it adds to the list**, by induction on the
  measure;
* `Program.live_eq` -- **a handler that is told live is told what is replayed**.
-/

namespace FencedCode

open Parse Grammar

section Handler

/- A handler keeps a state, which each complaint that it is told changes. -/
variable {σ : Type} (tell : σ → Diagnostic → σ)

/-! ## 1. Scanning -/

namespace Scan

/-- Scans segments from a place on, with a handler. -/
def liveFrom : Position → List Segment → σ → Scan × σ
  | p, [], s => (⟨[.endAt p], []⟩, s)
  | p, g :: gs, s =>
    let found := diagnostic? p g
    let (scan, s) := liveFrom (p.afterAll g.symbols) gs (found.elim s (tell s))
    (⟨(token? p g).toList ++ scan.tokens, found.toList ++ scan.diagnostics⟩, s)

/-- Scans a text with a handler. -/
def live (t : Text) (s : σ) : Scan × σ :=
  liveFrom tell .start (Segment.all (Symbol.decode t)) s

theorem liveFrom_eq (gs : List Segment) (p : Position) (s : σ) :
    liveFrom tell p gs s =
      (⟨tokensOf (place p gs).1 ++ [.endAt (place p gs).2], diagnosticsOf (place p gs).1⟩,
        (diagnosticsOf (place p gs).1).foldl tell s) := by
  induction gs generalizing p s with
  | nil => rfl
  | cons g gs ih =>
    have htokens : tokensOf (place p (g :: gs)).1 =
        (token? p g).toList ++ tokensOf (place (p.afterAll g.symbols) gs).1 := by
      show tokensOf ((p, g) :: _) = _
      unfold tokensOf
      rw [List.filterMap_cons]
      cases token? p g <;> rfl
    have hfound : diagnosticsOf (place p (g :: gs)).1 =
        (diagnostic? p g).toList ++ diagnosticsOf (place (p.afterAll g.symbols) gs).1 := by
      show diagnosticsOf ((p, g) :: _) = _
      unfold diagnosticsOf
      rw [List.filterMap_cons]
      cases diagnostic? p g <;> rfl
    have hlast : (place p (g :: gs)).2 = (place (p.afterAll g.symbols) gs).2 := rfl
    rw [htokens, hfound, hlast, liveFrom, ih, List.foldl_append, List.append_assoc]
    cases diagnostic? p g <;> rfl

/-- **Scanning tells the complaints in their order.** -/
theorem live_eq (t : Text) (s : σ) :
    live tell t s = (ofText t, (ofText t).diagnostics.foldl tell s) :=
  liveFrom_eq tell _ .start s

end Scan

/-! ## 2. Parsing -/

namespace Grammar

/-- Runs a script with a handler. What the script calls is run by `call`. -/
def Script.live {α : Type}
    (call : (r : Rule) → r.Given → Cursor → σ → (Option r.Result × Cursor) × σ) :
    Script α → Cursor → σ → (Option α × Cursor) × σ
  | .done a, c, s => ((some a, c), s)
  | .failed, c, s => ((none, c), s)
  | .look next, c, s => (next c.current).live call c s
  | .lookNext next, c, s => (next c.next).live call c s
  | .lookBack next, c, s => (next c.previous).live call c s
  | .skip next, c, s => next.live call c.advance s
  | .complain t e next, c, s => next.live call (c.report t e) (tell s (.atToken t e))
  | .call r given next, c, s =>
    let (called, s) := call r given c s
    (next called.1).live call called.2 s

/-- Runs a rule with a handler. Calls are nested at most as deep as `depth` says. -/
def Rule.live (depth room : Nat) (r : Rule) (given : r.Given) (c : Cursor) (s : σ) :
    (Option r.Result × Cursor) × σ :=
  match depth with
  | 0 => ((none, c), s)
  | depth + 1 =>
    match r.below room with
    | none => ((none, c.report c.current .nesting), tell s (.atToken c.current .nesting))
    | some inner => (Script.ofRule r given).live tell (Rule.live depth inner) c s

end Grammar

/-- What a handler has come to that was told the complaints so far. -/
def Cursor.told (s : σ) (c : Cursor) : σ :=
  c.reported.foldr (fun d s => tell s d) s

namespace Grammar

variable {tell} {s : σ}

/-- A script tells what it adds to the list if what it calls does. -/
theorem Script.live_eq {α : Type} {room : Nat}
    {call : (r : Rule) → r.Given → Cursor → σ → (Option r.Result × Cursor) × σ}
    {script : Script α} {c : Cursor}
    (hcall : ∀ A : Activation, script.Enters room A c →
      call A.rule A.given A.cursor (A.cursor.told tell s) =
        (A.result, A.result.2.told tell s)) :
    script.live tell call c (c.told tell s) =
      (script.run room c, (script.run room c).2.told tell s) := by
  induction script generalizing c with
  | done a => rfl
  | failed => rfl
  | look next ih => exact ih c.current hcall
  | lookNext next ih => exact ih c.next hcall
  | lookBack next ih => exact ih c.previous hcall
  | skip next ih =>
    have hsame : c.advance.told tell s = c.told tell s := by
      unfold Cursor.told
      rw [Cursor.advance_reported]
    rw [live, ← hsame]
    exact ih hcall
  | complain t e next ih => exact ih (c := c.report t e) hcall
  | call r given next ih =>
    have hfirst := hcall ⟨room, r, given, c⟩ (.inl rfl)
    rw [live, hfirst]
    exact ih _ fun A hA => hcall A (.inr hA)

/-- **A rule tells what it adds to the list.** By induction on the depth, which bounds the measure:
    what the rule calls is smaller. -/
theorem Activation.Sound.live_eq : ∀ {depth : Nat} {A : Activation}, A.measure < depth → A.Sound →
    A.rule.live tell depth A.room A.given A.cursor (A.cursor.told tell s) =
      (A.result, A.result.2.told tell s)
  | 0, _, hdepth, _ => absurd hdepth (Nat.not_lt_zero _)
  | depth + 1, A, hdepth, hA => by
    rw [Rule.live]
    cases hbelow : A.rule.below A.room with
    | none =>
      have hfails : A.result = Parse.fail .nesting A.cursor :=
        congrFun (Rule.run_of_below_none hbelow A.given) A.cursor
      rw [hfails]
      rfl
    | some inner =>
      rw [A.result_eq hbelow]
      refine Script.live_eq fun B hB => ?_
      obtain ⟨hsound, hlt⟩ := hA.enters ⟨inner, hbelow, hB⟩
      have hroom : B.room = inner := Script.enters_room hB
      have hsmaller : B.measure < depth := Nat.lt_of_lt_of_le hlt (Nat.le_of_lt_succ hdepth)
      rw [← hroom]
      exact hsound.live_eq hsmaller

end Grammar

/-! ## 3. Programs -/

namespace Program

/-- Parses a list of tokens with a handler. -/
def liveTokens (ts : List Token) (s : σ) : Program × σ :=
  let A := Activation.start ts
  let (parsed, s) := A.rule.live tell (A.measure + 1) A.room A.given A.cursor s
  (⟨parsed.1.getD [], parsed.2.reported.reverse⟩, s)

/-- Scans and parses a text with a handler, which the scanner is done with before the parser
    starts. -/
def live (t : Text) (s : σ) : Program × σ :=
  let (scan, s) := Scan.live tell t s
  let (parsed, s) := liveTokens tell scan.tokens s
  (⟨parsed.stmts, scan.diagnostics ++ parsed.diagnostics⟩, s)

theorem liveTokens_eq (ts : List Token) (s : σ) :
    liveTokens tell ts s = (ofTokens ts, (ofTokens ts).diagnostics.foldl tell s) := by
  have hsound : (Activation.start ts).Sound := (Activation.roomy_start ts).toSound
  have hlive : _ = (_, (Activation.start ts).result.2.told tell s) :=
    hsound.live_eq (Nat.lt_succ_self _)
  have hfresh : (Activation.start ts).cursor.told tell s = s := by
    unfold Cursor.told
    rw [show (Activation.start ts).cursor.reported = [] from Cursor.ofTokens_reported ts]
    rfl
  have htold : (Activation.start ts).result.2.told tell s =
      (ofTokens ts).diagnostics.foldl tell s := by
    show _ = (Activation.start ts).result.2.reported.reverse.foldl tell s
    rw [List.foldl_reverse]
    rfl
  rw [hfresh, htold] at hlive
  unfold liveTokens
  dsimp only
  rw [hlive]
  rfl

/-- **A handler that is told live is told what is replayed**: the complaints of the scanner and the
    parser, each of them once and in their order. Meanwhile the text is read as it is without a
    handler. -/
theorem live_eq (t : Text) (s : σ) :
    live tell t s = (ofText t, (ofText t).diagnostics.foldl tell s) := by
  have hdiagnostics : (ofText t).diagnostics =
      (Scan.ofText t).diagnostics ++ (ofTokens (Scan.ofText t).tokens).diagnostics := rfl
  unfold live
  rw [Scan.live_eq]
  dsimp only
  rw [liveTokens_eq, hdiagnostics, List.foldl_append]
  rfl

end Program

end Handler

end FencedCode
