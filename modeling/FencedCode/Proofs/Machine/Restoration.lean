import FencedCode.Proofs.Machine.Coupling
import FencedCode.Proofs.Machine.Layers

/-!
# Scope and depth are restored

Whatever a machine is asked to do, it ends in the frame in which it started and with as many calls
under way, also when it fails. So nothing of a program is left behind but the global frame, the
input that it did not read, and what it wrote and recorded.

* `depth_conduct`, `Activity.restores` -- **every activity restores the scope and the depth**;
* `bounded_invariant` -- the depth stays within the limit;
* `Runner.limited`, `Runner.limited_agrees` -- what the evaluator would do beyond the limit, where
  **it never comes**;
* `Machine.after`, `after_simulation` -- a run does not look at what was written or recorded;
* `Session.atRest` -- the machines between programs differ in few things;
* `run_restores` -- all of this, and what it means for the next program of a session.
-/

namespace FencedCode

open Machine

/-! ## 1. Restoring -/

@[simp]
theorem Machine.log_depth (m : Machine) (h : Host) (e : Event) : (m.log h e).depth = m.depth := by
  unfold Machine.log
  split <;> rfl

@[simp]
theorem Machine.enter_depth (m : Machine) (h : Host) (f : Frame) :
    (m.enter h f).depth = m.depth := by
  unfold Machine.enter
  rw [log_depth]

@[simp]
theorem Machine.leave_depth (m : Machine) (h : Host) (outer : Nat) :
    (m.leave h outer).depth = m.depth := by
  unfold Machine.leave
  rw [log_depth]

/-- The same number of calls under way. -/
def Machine.SameDepth (m m' : Machine) : Prop :=
  m'.depth = m.depth

/-- **Every step restores the depth.** -/
theorem depth_conduct (h : Host) : Conduct h SameDepth SameDepth where
  refl _ := rfl
  trans hab hbc := Eq.trans hbc hab
  transS hab hbc := Eq.trans hbc hab
  ofE := id
  write _ _ := rfl
  probe _ _ := rfl
  tick _ := rfl
  log m e := log_depth m h e
  read _ := rfl
  assign _ := rfl
  declare m type name v isMutable _ := by
    unfold SameDepth Machine.declare
    dsimp only
    split
    · rfl
    · exact log_depth ..
  function m f := by
    unfold SameDepth declareFunction
    dsimp only
    split
    · exact log_depth ..
    · rfl
  block {m m'} hbody := by
    have hdepth : m'.depth = m.depth := Eq.trans hbody (enter_depth ..)
    exact (leave_depth ..).trans hdepth
  call {m m' _ _ frame} _ _ hbody := by
    have hdepth : m'.depth = m.depth + 1 := Eq.trans hbody (enter_depth ..)
    show (m'.leave h m.scope).depth - 1 = m.depth
    rw [leave_depth, hdepth]
    rfl

/-- What an activity leaves as it found it. -/
structure Machine.Restored (m m' : Machine) : Prop extends SameShape m m' where
  depth : m'.depth = m.depth

/-- **Every activity restores the scope and the depth**, whatever its outcome. -/
theorem Activity.restores (h : Host) (a : Activity) : Restored a.start (a.final h) :=
  ⟨((keeps_conduct h).final a).toSameShape, (depth_conduct h).final a⟩

/-- **The depth stays within the limit.** -/
theorem bounded_invariant (h : Host) :
    Invariant h SameDepth SameDepth fun m => m.depth ≤ h.limit where
  toConduct := depth_conduct h
  keep hsame hm := Nat.le_trans (Nat.le_of_eq hsame) hm
  keepS hsame hm := Nat.le_trans (Nat.le_of_eq hsame) hm
  enterBlock hm := Nat.le_trans (Nat.le_of_eq (enter_depth ..)) hm
  enterCall hdepth _ _ := Nat.le_trans (Nat.le_of_eq (enter_depth ..)) hdepth
  enterProgram _ := Nat.zero_le _

namespace Runner

/-- Does as `R` with at most so many calls under way, and as `beyond` with more. -/
def below (limit : Nat) (beyond R : Runner) : Runner where
  eval e m := if m.depth ≤ limit then R.eval e m else beyond.eval e m
  evalAll es m := if m.depth ≤ limit then R.evalAll es m else beyond.evalAll es m
  apply callee args m :=
    if m.depth ≤ limit then R.apply callee args m else beyond.apply callee args m
  call f args m := if m.depth ≤ limit then R.call f args m else beyond.call f args m
  exec s m := if m.depth ≤ limit then R.exec s m else beyond.exec s m
  execAll ss m := if m.depth ≤ limit then R.execAll ss m else beyond.execAll ss m
  execOthers i others m :=
    if m.depth ≤ limit then R.execOthers i others m else beyond.execOthers i others m
  execLoop c body m := if m.depth ≤ limit then R.execLoop c body m else beyond.execLoop c body m

/-- The evaluator, except that it does as `beyond` wherever it comes to do something with more
    calls under way than the limit allows. -/
def limited (h : Host) (beyond : Runner) : Nat → Runner
  | 0 => granted h 0
  | n + 1 => (below h.limit beyond (limited h beyond n)).step h

variable {h : Host} {R : Runner}

theorem below_agrees {limit : Nat} {beyond : Runner} {a : Activity}
    (hdepth : a.start.depth ≤ limit) (hR : R.Agrees h a) : (below limit beyond R).Agrees h a := by
  obtain ⟨n, task, m⟩ := a
  have hdepth : m.depth ≤ limit := hdepth
  cases task with
  | assignScanned names ts => exact trivial
  | _ => exact (if_pos hdepth).trans hR

/-- **The evaluator never comes beyond its limit.** Whatever it would do there instead makes no
    difference, because `Machine.call` does not run the body of a function that the limit does not
    allow, and all else runs as deep as what it is part of. -/
theorem limited_agrees (beyond : Runner) : ∀ (n : Nat) (task : Task) (m : Machine),
    m.depth ≤ h.limit → (limited h beyond n).Agrees h ⟨n, task, m⟩
  | 0, task, m, _ => granted_agrees h ⟨0, task, m⟩
  | n + 1, task, m, hdepth => by
    refine agrees_step fun b hab => ?_
    have hdepth_b : b.start.depth ≤ h.limit := (bounded_invariant h).start_of_calls hab hdepth
    refine below_agrees hdepth_b ?_
    obtain ⟨k, task_b, m_b⟩ := b
    rcases Activity.steps_of_calls hab with hk | ⟨names, ts, htask⟩
    · obtain rfl : n = k := Nat.succ.inj hk
      exact limited_agrees beyond n task_b m_b hdepth_b
    · obtain rfl : task_b = .assignScanned names ts := htask
      exact trivial

end Runner

/-- However a program ends, the machine is back in the global frame with no call under way. -/
theorem execute_restores (h : Host) (steps : Nat) (program : List Stmt) (m : Machine) :
    Restored m.rested (execute h steps program m).2 := by
  have hrun := Activity.restores h (.ofProgram steps program m)
  simp only [Activity.ofProgram, Activity.final] at hrun
  have hlog {m' : Machine} (e : Event) (hm : Restored m.rested m') :
      Restored m.rested (m'.log h e) := by
    refine ⟨⟨(log_scope ..).trans hm.scope, ?_, fun i => ?_⟩, (log_depth ..).trans hm.depth⟩
    · rw [log_scopes]
      exact hm.size
    · rw [log_scopes]
      exact hm.parent i
  unfold execute
  split <;> rename_i hr <;> rw [hr] at hrun
  · exact hrun
  · exact hlog _ hrun
  · split
    · exact hlog _ hrun
    · exact hrun

/-- A program does not look at where the machine was, how deep, or how often it looked at the
    clock. -/
theorem execute_rested (h : Host) (steps : Nat) (program : List Stmt) (m : Machine) :
    execute h steps program m.rested = execute h steps program m := rfl

/-! ## 2. What was written and recorded before -/

namespace Machine

/-- The machine as it is if `past` was written and recorded before. -/
def after (m past : Machine) : Machine :=
  { m with
    output := m.output ++ past.output
    events := m.events ++ past.events
    probes := m.probes ++ past.probes }

end Machine

/-- **A run does not look at what was written or recorded before it.** -/
theorem after_simulation (h : Host) (past : Machine) :
    Simulation h h (fun _ => False) fun m m' => m' = m.after past ∧ True :=
  Simulation.surrounded h (s := ⟨id, past.output, past.events, past.probes⟩) (J := fun _ => True)
    False.elim (fun hnever => hnever.elim) fun _ => .inl ⟨rfl, rfl, trivial⟩

/-- A program runs as it would if nothing had been written or recorded before. -/
theorem execute_after (h : Host) (steps : Nat) (program : List Stmt) (m past : Machine) :
    execute h steps program (m.after past) =
      ((execute h steps program m).1, (execute h steps program m).2.after past) := by
  have hstart : (m.after past).rested = m.rested.after past ∧ True := ⟨rfl, trivial⟩
  have hrun := (after_simulation h past).execute (Nat.le_refl steps)
    (fun hlt => absurd hlt (Nat.lt_irrefl _)) program hstart
  rcases hrun with ⟨hresult, hmachine, _⟩ | ⟨_, hnever, _⟩
  · exact Prod.ext hresult.symm hmachine
  · exact hnever.elim

/-! ## 3. Machines between programs -/

/-- Between programs only the global frame exists, and it is the current one. -/
structure Machine.AtRest (m : Machine) : Prop where
  scope : m.scope = 0
  depth : m.depth = 0
  size : m.scopes.size = 1

theorem Machine.AtRest.defineNative {m : Machine} (hm : m.AtRest) (n : Native) :
    (m.defineNative n).AtRest := by
  refine ⟨hm.scope, hm.depth, ?_⟩
  unfold Machine.defineNative
  rw [Scopes.define_snd]
  split
  · exact hm.size
  · exact (Scopes.size_set ..).trans hm.size

theorem Machine.atRest_foldl_defineNative : ∀ (ns : List Native) {m : Machine}, m.AtRest →
    (ns.foldl defineNative m).AtRest
  | [], _, hm => hm
  | n :: ns, _, hm => atRest_foldl_defineNative ns (hm.defineNative n)

theorem Session.atRest {input : Input} {m : Machine} (hm : Session input m) : m.AtRest := by
  induction hm with
  | start => exact atRest_foldl_defineNative Native.standard ⟨rfl, rfl, rfl⟩
  | @program m h steps ts _ _ ih =>
    have hrun := execute_restores h steps (Program.ofTokens ts).stmts m
    exact ⟨hrun.scope, hrun.depth, hrun.size.trans ih.size⟩

/-- A machine between programs is known from its global frame and its input. -/
theorem Machine.AtRest.drained_rested {m₁ m₂ : Machine} (hm₁ : m₁.AtRest) (hm₂ : m₂.AtRest)
    (hglobal : m₁.scopes.frame? 0 = m₂.scopes.frame? 0) (hinput : m₁.input = m₂.input) :
    m₁.drained.rested = m₂.drained.rested := by
  have hscopes : m₁.scopes = m₂.scopes := by
    have hs : m₁.scopes.frames.size = 1 := hm₁.size
    have ht : m₂.scopes.frames.size = 1 := hm₂.size
    refine congrArg Scopes.mk (Array.ext_getElem? fun i => ?_)
    rcases i with _ | i
    · exact hglobal
    · show m₁.scopes.frames[i + 1]? = m₂.scopes.frames[i + 1]?
      rw [Array.getElem?_eq_none (by omega), Array.getElem?_eq_none (by omega)]
  unfold drained rested
  rw [hscopes, hinput]

/-- **Scope and depth are always restored.** Under every host:

    * whatever the machine is asked to do, and whatever the outcome, it ends in the frame in which
      it started, among the same frames, and with as many calls under way;
    * at no moment of an activity are more calls under way than the limit allows, if that was so
      at its start, and an evaluator that would do something else at such a moment, whatever it
      is, does the activity in the same way;
    * after a program the current frame is the global one and no call is under way;
    * between the programs of two sessions, however the programs before have ended, machines with
      the same global frame and the same input run the next program alike: with the same result
      and the same changes, writing and recording the same. -/
theorem run_restores (h : Host) :
    (∀ a : Activity, Restored a.start (a.final h)) ∧
    (∀ a b : Activity, a.start.depth ≤ h.limit → Activity.Within h a b →
      b.start.depth ≤ h.limit ∧ (b.final h).depth ≤ h.limit) ∧
    (∀ (beyond : Runner) (a : Activity), a.start.depth ≤ h.limit →
      (Runner.limited h beyond a.steps).Agrees h a) ∧
    (∀ (steps : Nat) (program : List Stmt) (m : Machine),
      (execute h steps program m).2.scope = 0 ∧ (execute h steps program m).2.depth = 0) ∧
    (∀ (input₁ input₂ : Input) (m₁ m₂ : Machine), Session input₁ m₁ → Session input₂ m₂ →
      m₁.scopes.frame? 0 = m₂.scopes.frame? 0 → m₁.input = m₂.input →
      ∀ (steps : Nat) (program : List Stmt), ∃ (r : Except Failure Unit) (m : Machine),
        execute h steps program m₁ = (r, m.after m₁) ∧
          execute h steps program m₂ = (r, m.after m₂)) := by
  refine ⟨Activity.restores h, fun a b hdepth hab => ?_,
    fun beyond a hdepth => Runner.limited_agrees beyond a.steps a.task a.start hdepth,
    fun steps program m => ?_, fun input₁ input₂ m₁ m₂ hm₁ hm₂ hglobal hinput steps program => ?_⟩
  · have hstart := (bounded_invariant h).start_of_within hab hdepth
    exact ⟨hstart, (bounded_invariant h).final hstart⟩
  · have hrun := execute_restores h steps program m
    exact ⟨hrun.scope, hrun.depth⟩
  · have hsame := hm₁.atRest.drained_rested hm₂.atRest hglobal hinput
    have hrun : execute h steps program m₁.drained = execute h steps program m₂.drained := by
      rw [← execute_rested, hsame, execute_rested]
    refine ⟨_, _, execute_after h steps program m₁.drained m₁, ?_⟩
    rw [hrun]
    exact execute_after h steps program m₂.drained m₂

/-- A program that fails at once: `BEGIN CODE missing END CODE`. -/
def faultyProgram : List Token :=
  let word (k : Kind) : Token := ⟨k, k.label, none, .start⟩
  [word .kwBegin, word .kwCode, ⟨.identifier, utf8 "missing", none, .start⟩,
   word .kwEnd, word .kwCode]

/-- A program that returns at once: `BEGIN CODE RETURN END CODE`. -/
def returningProgram : List Token :=
  let word (k : Kind) : Token := ⟨k, k.label, none, .start⟩
  [word .kwBegin, word .kwCode, word .kwReturn, word .kwEnd, word .kwCode]

/-- One program has failed and the other has returned, and the next one runs alike after both. -/
theorem constantProgram_after_faultyProgram :
    let start : Machine := .standard .empty
    let failed := execute {} 50 (Program.ofTokens faultyProgram).stmts start
    let returned := execute {} 50 (Program.ofTokens returningProgram).stmts start
    let next := (Program.ofTokens constantProgram).stmts
    failed.1.isOk = false ∧ returned.1.isOk = true ∧ ∃ (r : Except Failure Unit) (m : Machine),
      execute {} 50 next failed.2 = (r, m.after failed.2) ∧
        execute {} 50 next returned.2 = (r, m.after returned.2) := by
  intro start failed returned next
  have hfailed : (Program.ofTokens faultyProgram).diagnostics = [] :=
    List.isEmpty_iff.mp (by decide +kernel)
  have hreturned : (Program.ofTokens returningProgram).diagnostics = [] :=
    List.isEmpty_iff.mp (by decide +kernel)
  have hm₁ : Session .empty failed.2 := .program {} 50 faultyProgram .start hfailed
  have hm₂ : Session .empty returned.2 := .program {} 50 returningProgram .start hreturned
  have hsame : failed.2.scopes.frame? 0 = returned.2.scopes.frame? 0 := rfl
  exact ⟨by decide +kernel, by decide +kernel,
    (run_restores {}).2.2.2.2 .empty .empty _ _ hm₁ hm₂ hsame rfl 50 next⟩

end FencedCode
