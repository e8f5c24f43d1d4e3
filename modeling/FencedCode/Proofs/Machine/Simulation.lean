import FencedCode.Proofs.Machine.FrameProperty

/-!
# One run after another

The same expression or statement runs on two machines, perhaps under two hosts and with different
numbers of steps. The second run follows the first one step by step, unless the first one gives up:
it fails in one of some given ways, for example because it may nest its calls less deep. Then the
second run may go on, and has written at least as much.

* `Machine.Wrote`, `wrote_conduct` -- **what is written stays written**;
* `Exec.Alike`, `Exec.Follows` -- two steps that end alike, always or unless the first gives up;
* `Simulation` -- what a relation between machines has to respect, one field for each step;
* `Simulation.holds`, `Simulation.execute` -- **the second run follows the first one**;
* `Machine.within`, `Simulation.surrounded` -- a run does not look at its surroundings.

With no way to give up, the two runs end alike whatever happens.
-/

namespace FencedCode

open Exec Machine

/-! ## 1. What is written -/

namespace Machine

/-- All that was written in the first machine was written first in the second one. -/
def Wrote (m m' : Machine) : Prop :=
  m.output <:+ m'.output

@[simp]
theorem log_output (m : Machine) (h : Host) (e : Event) : (m.log h e).output = m.output := by
  unfold log
  split <;> rfl

@[simp]
theorem enter_output (m : Machine) (h : Host) (f : Frame) :
    (m.enter h f).output = m.output := by
  unfold enter
  rw [log_output]

@[simp]
theorem leave_output (m : Machine) (h : Host) (outer : Nat) :
    (m.leave h outer).output = m.output := by
  unfold leave
  rw [log_output]

@[simp]
theorem declare_output (h : Host) (type : BaseType) (name : Token) (v : Value) (isMutable : Bool)
    (m : Machine) : (declare h type name v isMutable m).2.output = m.output := by
  unfold declare
  cases m.scopes.define m.scope name.lexeme ⟨.base type, v, isMutable⟩ with
  | mk fresh scopes => cases fresh <;> simp

@[simp]
theorem declareFunction_output (h : Host) (f : Function) (m : Machine) :
    (declareFunction h f m).2.output = m.output := by
  simp only [declareFunction]
  split <;> simp

theorem Wrote.of_eq {m m' : Machine} (h : m'.output = m.output) : Wrote m m' :=
  ⟨[], h.symm⟩

/-- **What is written stays written.** -/
theorem wrote_conduct (h : Host) : Conduct h Wrote Wrote where
  refl _ := List.suffix_rfl
  trans hab hbc := List.IsSuffix.trans hab hbc
  transS hab hbc := List.IsSuffix.trans hab hbc
  ofE := id
  write m t := List.suffix_cons t m.output
  probe _ _ := List.suffix_rfl
  tick _ := List.suffix_rfl
  log m e := .of_eq (log_output m h e)
  read _ := List.suffix_rfl
  assign _ := List.suffix_rfl
  declare m type name v isMutable _ := .of_eq (declare_output h type name v isMutable m)
  function m f := .of_eq (declareFunction_output h f m)
  block {m m'} hbody := by
    unfold Wrote at hbody ⊢
    rw [enter_output] at hbody
    rw [leave_output]
    exact hbody
  call {m m' _ _ _} _ _ hbody := by
    unfold Wrote at hbody
    rw [enter_output] at hbody
    show m.output <:+ (m'.leave h m.scope).output
    rw [leave_output]
    exact hbody

/-- The text written so far is the beginning of what is written in the end. -/
theorem Wrote.written {m m' : Machine} (h : Wrote m m') : m.written <+: m'.written := by
  obtain ⟨later, hlater⟩ := h
  refine ⟨later.reverse.flatten, ?_⟩
  unfold Machine.written
  rw [← hlater, List.reverse_append, List.flatten_append]

end Machine

/-! ## 2. Steps that follow one another -/

namespace Exec

variable {α β : Type} {X : Failure → Prop} {R : Machine → Machine → Prop}

/-- From machines in `R`, both steps yield the same result and leave machines in `R`. -/
def Alike (R : Machine → Machine → Prop) (p q : Exec α) : Prop :=
  ∀ ⦃m₁ m₂⦄, R m₁ m₂ → (p m₁).1 = (q m₂).1 ∧ R (p m₁).2 (q m₂).2

/-- From machines in `R`, both steps yield the same result and leave machines in `R`, or the first
    one gives up with a failure in `X` and has written no more than the second one. -/
structure Follows (X : Failure → Prop) (R : Machine → Machine → Prop) (p q : Exec α) : Prop where
  /-- The second step keeps what is written. -/
  writes (m : Machine) : Wrote m (q m).2
  ends {m₁ m₂ : Machine} : R m₁ m₂ → ((p m₁).1 = (q m₂).1 ∧ R (p m₁).2 (q m₂).2) ∨
    ∃ e, X e ∧ (p m₁).1 = .error e ∧ Wrote (p m₁).2 (q m₂).2

theorem Alike.follows {p q : Exec α} (hpq : Alike R p q) (hwrites : ∀ m, Wrote m (q m).2) :
    Follows X R p q :=
  ⟨hwrites, fun hm => .inl (hpq hm)⟩

/-- If there is no way to give up, the steps end alike. -/
theorem Follows.alike {p q : Exec α} (hpq : Follows (fun _ => False) R p q) : Alike R p q := by
  intro m₁ m₂ hm
  rcases hpq.ends hm with halike | ⟨_, hnever, _⟩
  · exact halike
  · exact hnever.elim

/-- A result that does not depend on the machine. -/
theorem Follows.lift (r : Except Failure α) : Follows X R (Exec.lift r) (Exec.lift r) :=
  ⟨fun _ => List.suffix_rfl, fun hm => .inl ⟨rfl, hm⟩⟩

theorem Follows.pure (a : α) : Follows X R (Pure.pure a : Exec α) (Pure.pure a) :=
  .lift (.ok a)

theorem Follows.fail (e : Failure) : Follows X R (Exec.fail e : Exec α) (Exec.fail e) :=
  .lift (.error e)

/-- **Steps that follow one another do so in sequence.** Once the first run has given up, the
    second one only adds to what it has written. -/
theorem Follows.bind {p q : Exec α} {f g : α → Exec β} (hp : Follows X R p q)
    (hf : ∀ a, Follows X R (f a) (g a)) : Follows X R (p >>= f) (q >>= g) := by
  have hwrites (m : Machine) : Wrote m ((q >>= g) m).2 :=
    bind_related (R := Wrote) List.IsSuffix.trans (hp.writes m) fun a m' _ => (hf a).writes m'
  refine ⟨hwrites, fun {m₁ m₂} hm => ?_⟩
  have hlater {r : Except Failure α} {m : Machine} (hq : q m₂ = (r, m)) :
      Wrote m ((q >>= g) m₂).2 := by
    cases r with
    | ok a =>
      rw [bind_of_ok hq]
      exact (hf a).writes m
    | error e =>
      rw [bind_of_error hq]
      exact List.suffix_rfl
  rcases h₁ : p m₁ with ⟨r₁, m₁'⟩
  rcases h₂ : q m₂ with ⟨r₂, m₂'⟩
  have hends := hp.ends hm
  rw [h₁, h₂] at hends
  rcases hends with ⟨hresult, hrel⟩ | ⟨e, he, hresult, hwrote⟩
  · obtain rfl : r₁ = r₂ := hresult
    cases r₁ with
    | ok a =>
      rw [bind_of_ok h₁, bind_of_ok h₂]
      exact (hf a).ends hrel
    | error e =>
      rw [bind_of_error h₁, bind_of_error h₂]
      exact .inl ⟨rfl, hrel⟩
  · obtain rfl : r₁ = .error e := hresult
    rw [bind_of_error h₁]
    exact .inr ⟨e, he, rfl, hwrote.trans (hlater h₂)⟩

theorem Follows.modify {f g : Machine → Machine} (hg : ∀ m, Wrote m (g m))
    (hfg : ∀ m₁ m₂, R m₁ m₂ → R (f m₁) (g m₂)) : Follows X R (Exec.modify f) (Exec.modify g) :=
  ⟨hg, fun {m₁ m₂} hm => .inl ⟨rfl, hfg m₁ m₂ hm⟩⟩

theorem Follows.located {p q : Exec α} (hlocate : ∀ {e}, X e → ∀ t, X (e.locate t)) (t : Token)
    (hp : Follows X R p q) : Follows X R (Exec.located t p) (Exec.located t q) := by
  refine ⟨fun m => ?_, fun {m₁ m₂} hm => ?_⟩
  · rw [located_snd]
    exact hp.writes m
  rw [located_run, located_run]
  rcases hp.ends hm with ⟨hresult, hrel⟩ | ⟨e, he, hresult, hwrote⟩
  · exact .inl ⟨by rw [hresult], hrel⟩
  · exact .inr ⟨e.locate t, hlocate he t, by rw [hresult]; rfl, hwrote⟩

end Exec

/-! ## 3. Simulations -/

/-- The body of a block leaves as many frames behind as it found. -/
theorem Machine.size_of_body {h : Host} {n : Nat} {m : Machine} (ss : List Stmt) {m₀ : Machine}
    {frame : Frame} (hpushed : m₀.scopes = m.scopes.push frame) :
    (execAll h n ss m₀).2.scopes.size = m.scopes.size + 1 := by
  rw [(((keeps_conduct h).holds n).execAll ss m₀).size, hpushed, Scopes.size_push]

/-- A relation between the machines of two runs, the first under host `h₁` and the second under
    `h₂`, that every step respects, unless the first run gives up with a failure in `X`. -/
structure Simulation (h₁ h₂ : Host) (X : Failure → Prop) (R : Machine → Machine → Prop) :
    Prop where
  /-- A run that may give up has written no more than the other one. -/
  behind {e : Failure} {m₁ m₂ : Machine} : X e → R m₁ m₂ → Wrote m₁ m₂
  locate {e : Failure} : X e → ∀ t, X (e.locate t)
  /-- Calls go too deep in both runs or in none, or the first run gives up there. -/
  limit {m₁ m₂ : Machine} : R m₁ m₂ → (h₁.limit ≤ m₁.depth ↔ h₂.limit ≤ m₂.depth) ∨
    (h₁.limit ≤ m₁.depth ∧ ∀ name, X (.fault (.unplaced (.depth name))))
  write {m₁ m₂ : Machine} (t : Text) : R m₁ m₂ → R (m₁.write t) (m₂.write t)
  probe {m₁ m₂ : Machine} (v : Value) : R m₁ m₂ →
    R { m₁ with probes := v :: m₁.probes } { m₂ with probes := v :: m₂.probes }
  log {m₁ m₂ : Machine} (e : Event) : R m₁ m₂ → R (m₁.log h₁ e) (m₂.log h₂ e)
  /-- Both runs see the same time. -/
  tick {m₁ m₂ : Machine} : R m₁ m₂ →
    h₁.clockMillis.reading m₁.ticks = h₂.clockMillis.reading m₂.ticks ∧
      R { m₁ with ticks := m₁.ticks + 1 } { m₂ with ticks := m₂.ticks + 1 }
  /-- Both runs read the same, or the first run has no line left and gives up there. -/
  read {m₁ m₂ : Machine} : R m₁ m₂ → (m₁.input.readLine.1 = m₂.input.readLine.1 ∧
      R { m₁ with input := m₁.input.readLine.2 } { m₂ with input := m₂.input.readLine.2 }) ∨
    (m₁.input.readLine.1 = .error .endOfInput ∧ (∀ t, X (.fault ⟨.noLine, t⟩)) ∧
      X (.fault (.unplaced (.nativeNoLine Native.scanString.name))))
  value (name : Token) : Alike R (getValue name) (getValue name)
  assign (name : Token) (v : Value) : Alike R (Exec.assign name v) (Exec.assign name v)
  declare (type : BaseType) (name : Token) (v : Value) (isMutable : Bool) :
    Alike R (Machine.declare h₁ type name v isMutable) (Machine.declare h₂ type name v isMutable)
  function (f : Function) : Alike R (declareFunction h₁ f) (declareFunction h₂ f)
  enterBlock {m₁ m₂ : Machine} : R m₁ m₂ →
    R (m₁.enter h₁ ⟨some m₁.scope, []⟩) (m₂.enter h₂ ⟨some m₂.scope, []⟩)
  enterCall {m₁ m₂ : Machine} {frame : Frame} : frame.parent = some 0 → R m₁ m₂ →
    R (m₁.descend.enter h₁ frame) (m₂.descend.enter h₂ frame)
  /-- The frame that was made is dropped, and the run goes on where it was. -/
  leave {m₁ m₂ m₁' m₂' : Machine} : R m₁ m₂ → R m₁' m₂' →
    m₁'.scopes.size = m₁.scopes.size + 1 → m₂'.scopes.size = m₂.scopes.size + 1 →
    R (m₁'.leave h₁ m₁.scope) (m₂'.leave h₂ m₂.scope)
  ascend {m₁ m₂ : Machine} : R m₁ m₂ → R m₁.ascend m₂.ascend

namespace Simulation

variable {h₁ h₂ : Host} {X : Failure → Prop} {R : Machine → Machine → Prop}

/-! ## 4. Parts without recursion -/

theorem assigns (C : Simulation h₁ h₂ X R) (name : Token) (v : Value) :
    Follows X R (Exec.assign name v) (Exec.assign name v) :=
  (C.assign name v).follows fun m => (wrote_conduct h₂).assigned name v m

theorem assignScanned (C : Simulation h₁ h₂ X R) : ∀ names ts : List Token,
    Follows X R (Machine.assignScanned names ts) (Machine.assignScanned names ts)
  | [], _ => .pure ()
  | _ :: _, [] => .fail _
  | _ :: _, [_] => .fail _
  | name :: names, _ :: _ :: ts => by
    rw [assignScanned_cons]
    exact (C.assigns name _).bind fun _ => C.assignScanned names ts

theorem readLine_bind {α : Type} (f : Except ReadError Text → Exec α) (m : Machine) :
    (readLine >>= f) m = f m.input.readLine.1 { m with input := m.input.readLine.2 } := rfl

/-- A step that reads a line and fails if there is none. -/
theorem reads (C : Simulation h₁ h₂ X R) {α : Type} {f : Except ReadError Text → Exec α}
    {e : Failure} (hend : f (.error .endOfInput) = Exec.fail e)
    (he : (∀ t, X (.fault ⟨.noLine, t⟩)) → X (.fault (.unplaced (.nativeNoLine
      Native.scanString.name))) → X e)
    (hf : ∀ r, Follows X R (f r) (f r)) : Follows X R (readLine >>= f) (readLine >>= f) := by
  have hwrites (m : Machine) : Wrote m ((readLine >>= f) m).2 :=
    (hf m.input.readLine.1).writes { m with input := m.input.readLine.2 }
  refine ⟨hwrites, fun {m₁ m₂} hm => ?_⟩
  rcases C.read hm with ⟨hresult, hrel⟩ | ⟨hresult, hline, hprompt⟩
  · have halike := (hf m₁.input.readLine.1).ends hrel
    rw [readLine_bind, readLine_bind, ← hresult]
    exact halike
  · have hX := he hline hprompt
    have hfirst : (readLine >>= f) m₁ =
        (.error e, { m₁ with input := m₁.input.readLine.2 }) := by
      rw [readLine_bind, hresult, hend]
      rfl
    rw [hfirst]
    exact .inr ⟨e, hX, rfl, (C.behind hX hm).trans (hwrites m₂)⟩

theorem scanLine (C : Simulation h₁ h₂ X R) (keyword : Token) (names : List Token) :
    Follows X R (Machine.scanLine keyword names) (Machine.scanLine keyword names) := by
  refine C.reads (e := .fault ⟨.noLine, keyword⟩) rfl (fun hline _ => hline keyword) fun r => ?_
  rcases r with (_ | reason) | line
  · exact .fail _
  · exact .fail _
  · exact C.assignScanned names _

theorem prompt (C : Simulation h₁ h₂ X R) (args : List Value) :
    Follows X R (Native.prompt args) (Native.prompt args) := by
  have hwrite (v : Value) : Follows X R (Exec.modify fun m => m.write (Text.line v.text))
      (Exec.modify fun m => m.write (Text.line v.text)) :=
    .modify (fun m => (wrote_conduct h₂).write m _) fun _ _ hm => C.write _ hm
  refine Follows.bind (.lift (entry args 0)) fun v => (hwrite v).bind fun _ => ?_
  refine C.reads (e := .fault (.unplaced (.nativeNoLine Native.scanString.name))) rfl
    (fun _ hprompt => hprompt) fun r => ?_
  rcases r with (_ | reason) | line
  · exact .fail _
  · exact .fail _
  · exact .pure _

theorem time (C : Simulation h₁ h₂ X R) :
    Follows X R (Native.time h₁) (Native.time h₂) := by
  have hlook : Follows X R (Exec.lookAtClock h₁) (Exec.lookAtClock h₂) := by
    refine ⟨fun m => (wrote_conduct h₂).tick m, fun {m₁ m₂} hm => .inl ?_⟩
    obtain ⟨hreading, hrel⟩ := C.tick hm
    exact ⟨congrArg Except.ok hreading, hrel⟩
  exact hlook.bind fun _ => .pure _

theorem native (C : Simulation h₁ h₂ X R) (n : Native) (args : List Value) :
    Follows X R (n.run h₁ args) (n.run h₂ args) := by
  unfold Native.run
  split
  -- the natives on floats look at their arguments only
  any_goals exact .lift _
  · exact C.time
  · exact C.prompt _
  · refine Follows.bind (.lift (entry args 0)) fun v => Follows.bind (.modify (fun m => ?_)
      fun _ _ hm => C.probe _ hm) fun _ => .pure _
    exact (wrote_conduct h₂).probe m _

theorem notes (C : Simulation h₁ h₂ X R) (e : Event) :
    Follows X R (Exec.note h₁ e) (Exec.note h₂ e) :=
  .modify (fun m => (wrote_conduct h₂).log m e) fun _ _ hm => C.log e hm

theorem declares (C : Simulation h₁ h₂ X R) (type : BaseType) (name : Token) (v : Value)
    (isMutable : Bool) : Follows X R (Machine.declare h₁ type name v isMutable)
      (Machine.declare h₂ type name v isMutable) :=
  (C.declare type name v isMutable).follows fun m =>
    .of_eq (declare_output h₂ type name v isMutable m)

/-! ## 5. The induction over both runs -/

/-- The run that is granted `n₂` steps follows the one that is granted `n₁`. -/
structure At (h₁ h₂ : Host) (X : Failure → Prop) (R : Machine → Machine → Prop)
    (n₁ n₂ : Nat) : Prop where
  eval (e : Expr) : Follows X R (Machine.eval h₁ n₁ e) (Machine.eval h₂ n₂ e)
  evalAll (es : List Expr) : Follows X R (Machine.evalAll h₁ n₁ es) (Machine.evalAll h₂ n₂ es)
  apply (callee : Value) (args : List Value) :
    Follows X R (Machine.apply h₁ n₁ callee args) (Machine.apply h₂ n₂ callee args)
  call (f : Function) (args : List Value) :
    Follows X R (Machine.call h₁ n₁ f args) (Machine.call h₂ n₂ f args)
  exec (s : Stmt) : Follows X R (Machine.exec h₁ n₁ s) (Machine.exec h₂ n₂ s)
  execAll (ss : List Stmt) : Follows X R (Machine.execAll h₁ n₁ ss) (Machine.execAll h₂ n₂ ss)
  execOthers (i : Nat) (others : Alternatives) :
    Follows X R (Machine.execOthers h₁ n₁ i others) (Machine.execOthers h₂ n₂ i others)
  execLoop (condition : Expr) (body : List Stmt) :
    Follows X R (Machine.execLoop h₁ n₁ condition body) (Machine.execLoop h₂ n₂ condition body)

/-- Without steps both runs fail; if the second one has some, the first one gives up. -/
theorem exhausted (C : Simulation h₁ h₂ X R) {n : Nat} (hX : 0 < n → X .exhausted) {α : Type}
    {q : Nat → Exec α} (hzero : q 0 = Exec.fail .exhausted) (hwrites : ∀ m, Wrote m (q n m).2) :
    Follows X R (Exec.fail .exhausted) (q n) := by
  cases n with
  | zero =>
    rw [hzero]
    exact .fail _
  | succ n =>
    have hgives := hX (Nat.succ_pos n)
    exact ⟨hwrites, fun {m₁ m₂} hm =>
      .inr ⟨.exhausted, hgives, rfl, (C.behind hgives hm).trans (hwrites m₂)⟩⟩

theorem at_zero (C : Simulation h₁ h₂ X R) {n : Nat} (hX : 0 < n → X .exhausted) :
    At h₁ h₂ X R 0 n := by
  have hwrites := (wrote_conduct h₂).holds n
  constructor
  · exact fun e => C.exhausted (q := fun n => Machine.eval h₂ n e) hX rfl (hwrites.eval e)
  · exact fun es => C.exhausted (q := fun n => Machine.evalAll h₂ n es) hX rfl (hwrites.evalAll es)
  · exact fun callee args => C.exhausted (q := fun n => Machine.apply h₂ n callee args) hX rfl
      (hwrites.apply callee args)
  · exact fun f args => C.exhausted (q := fun n => Machine.call h₂ n f args) hX rfl
      (hwrites.call f args)
  · exact fun s => C.exhausted (q := fun n => Machine.exec h₂ n s) hX rfl (hwrites.exec s)
  · exact fun ss => C.exhausted (q := fun n => Machine.execAll h₂ n ss) hX rfl (hwrites.execAll ss)
  · exact fun i others => C.exhausted (q := fun n => Machine.execOthers h₂ n i others) hX rfl
      (hwrites.execOthers i others)
  · exact fun condition body => C.exhausted (q := fun n => Machine.execLoop h₂ n condition body)
      hX rfl (hwrites.execLoop condition body)

variable {n₁ n₂ : Nat}

theorem eval_succ (C : Simulation h₁ h₂ X R) (ih : At h₁ h₂ X R n₁ n₂) (e : Expr) :
    Follows X R (Machine.eval h₁ (n₁ + 1) e) (Machine.eval h₂ (n₂ + 1) e) := by
  simp only [Machine.eval]
  cases e with
  | literal t => exact .pure _
  | grouping inner pos => exact ih.eval inner
  | ref name =>
    refine (C.value name).follows fun m => .of_eq ?_
    rw [getValue_snd]
  | assign name value =>
    exact (ih.eval value).bind fun v => (C.assigns name v).bind fun _ => .pure v
  | unary op operand => exact (ih.eval operand).bind fun v => .lift _
  | binary left op right =>
    exact (ih.eval left).bind fun a => (ih.eval right).bind fun b => .lift _
  | logical left op right =>
    refine (ih.eval left).bind fun a => ?_
    split
    · exact .pure a
    · exact ih.eval right
  | call callee paren args =>
    refine (ih.eval callee).bind fun f => (ih.evalAll args).bind fun vs => ?_
    exact (ih.apply f vs).located C.locate paren

theorem evalAll_succ (ih : At h₁ h₂ X R n₁ n₂) (es : List Expr) :
    Follows X R (Machine.evalAll h₁ (n₁ + 1) es) (Machine.evalAll h₂ (n₂ + 1) es) := by
  cases es with
  | nil => exact .pure _
  | cons e es =>
    simp only [Machine.evalAll]
    exact (ih.eval e).bind fun v => (ih.evalAll es).bind fun vs => .pure _

theorem apply_succ (C : Simulation h₁ h₂ X R) (ih : At h₁ h₂ X R n₁ n₂) (callee : Value)
    (args : List Value) :
    Follows X R (Machine.apply h₁ (n₁ + 1) callee args)
      (Machine.apply h₂ (n₂ + 1) callee args) := by
  simp only [Machine.apply]
  cases callee.callable? with
  | none => exact .fail _
  | some c =>
    dsimp only
    split
    · exact .fail _
    · refine (C.notes _).bind fun _ => ?_
      cases c with
      | native n => exact C.native n args
      | user f copy => exact ih.call f args

/-- The bodies of both calls run in frames of their own, one level deeper, unless the first run
    gives up because it may not go that deep. -/
theorem call_succ (C : Simulation h₁ h₂ X R) (ih : At h₁ h₂ X R n₁ n₂) (f : Function)
    (args : List Value) :
    Follows X R (Machine.call h₁ (n₁ + 1) f args) (Machine.call h₂ (n₂ + 1) f args) := by
  have hwrites := ((wrote_conduct h₂).holds (n₂ + 1)).call f args
  refine ⟨hwrites, fun {m₁ m₂} hm => ?_⟩
  rcases C.limit hm with hlimit | ⟨hdepth, hX⟩
  · by_cases hdepth : h₁.limit ≤ m₁.depth
    · rw [call_of_limit hdepth, call_of_limit (hlimit.mp hdepth)]
      exact .inl ⟨rfl, hm⟩
    · have hdepth₂ : ¬ h₂.limit ≤ m₂.depth := fun hle => hdepth (hlimit.mpr hle)
      cases hb : bindParams f.params args ⟨some 0, []⟩ with
      | error c =>
        rw [call_of_mismatch hdepth hb, call_of_mismatch hdepth₂ hb]
        exact .inl ⟨rfl, hm⟩
      | ok frame =>
        have hbody := (ih.execAll f.body).ends (C.enterCall (parent_of_bindParams hb) hm)
        rw [call_fst hdepth hb, call_fst hdepth₂ hb, call_snd hdepth hb, call_snd hdepth₂ hb]
        rcases hbody with ⟨hresult, hrel⟩ | ⟨e, he, hresult, hwrote⟩
        · refine .inl ⟨by rw [hresult], C.ascend (C.leave hm hrel ?_ ?_)⟩
          · exact size_of_body f.body (enter_scopes ..)
          · exact size_of_body f.body (enter_scopes ..)
        · refine .inr ⟨e, he, by rw [hresult]; rfl, ?_⟩
          show (Machine.leave _ _ _).output <:+ (Machine.leave _ _ _).output
          rw [leave_output, leave_output]
          exact hwrote
  · rw [call_of_limit hdepth]
    exact .inr ⟨_, hX _, rfl, (C.behind (hX f.name.lexeme) hm).trans (hwrites m₂)⟩

/-- The bodies of both blocks run in frames of their own. -/
theorem block (C : Simulation h₁ h₂ X R) (ih : At h₁ h₂ X R n₁ n₂) (body : List Stmt) :
    Follows X R (inBlock h₁ (Machine.execAll h₁ n₁ body))
      (inBlock h₂ (Machine.execAll h₂ n₂ body)) := by
  have hwrites (m : Machine) : Wrote m (inBlock h₂ (Machine.execAll h₂ n₂ body) m).2 :=
    (wrote_conduct h₂).block (((wrote_conduct h₂).holds n₂).execAll body _)
  refine ⟨hwrites, fun {m₁ m₂} hm => ?_⟩
  rcases (ih.execAll body).ends (C.enterBlock hm) with ⟨hresult, hrel⟩ | ⟨e, he, hresult, hwrote⟩
  · refine .inl ⟨hresult, C.leave hm hrel ?_ ?_⟩
    · exact size_of_body body (enter_scopes ..)
    · exact size_of_body body (enter_scopes ..)
  · refine .inr ⟨e, he, hresult, ?_⟩
    show (Machine.leave _ _ _).output <:+ (Machine.leave _ _ _).output
    rw [leave_output, leave_output]
    exact hwrote

theorem exec_succ (C : Simulation h₁ h₂ X R) (ih : At h₁ h₂ X R n₁ n₂) (s : Stmt) :
    Follows X R (Machine.exec h₁ (n₁ + 1) s) (Machine.exec h₂ (n₂ + 1) s) := by
  cases s with
  | expression e => exact (ih.eval e).bind fun _ => .pure _
  | display keyword e =>
    refine (ih.eval e).bind fun v => Follows.bind (.modify (fun m => ?_) fun _ _ hm =>
      C.write _ hm) fun _ => .pure _
    exact (wrote_conduct h₂).write m _
  | scan keyword names => exact (C.scanLine keyword names).bind fun _ => .pure _
  | conditional keyword condition body others =>
    refine (ih.eval condition).bind fun v => ?_
    split
    · exact ih.execAll body
    · exact ih.execOthers 0 others
  | loop keyword condition body => exact ih.execLoop condition body
  | block opening body => exact C.block ih body
  | function name params body result =>
    have hdeclared := (C.function ⟨name, params, body, result⟩).follows (X := X) fun m =>
      .of_eq (declareFunction_output h₂ _ m)
    exact hdeclared.bind fun _ => .pure _
  | ret keyword value =>
    cases value with
    | none => exact .pure _
    | some e => exact (ih.eval e).bind fun _ => .pure _
  | declare type name init isMutable =>
    cases init with
    | none => exact (C.declares type name .null isMutable).bind fun _ => .pure _
    | some e =>
      refine (ih.eval e).bind fun v => ?_
      split
      · exact .fail _
      · exact (C.declares type name v isMutable).bind fun _ => .pure _

theorem execAll_succ (ih : At h₁ h₂ X R n₁ n₂) (ss : List Stmt) :
    Follows X R (Machine.execAll h₁ (n₁ + 1) ss) (Machine.execAll h₂ (n₂ + 1) ss) := by
  cases ss with
  | nil => exact .pure _
  | cons s rest =>
    refine (ih.exec s).bind fun c => ?_
    cases c with
    | normal => exact ih.execAll rest
    | returning v => exact .pure _

theorem execOthers_succ (ih : At h₁ h₂ X R n₁ n₂) (i : Nat) (others : Alternatives) :
    Follows X R (Machine.execOthers h₁ (n₁ + 1) i others)
      (Machine.execOthers h₂ (n₂ + 1) i others) := by
  cases hc : others.conditions[i]? with
  | none =>
    cases hlast : others.last with
    | none =>
      rw [execOthers_of_none hc hlast, execOthers_of_none hc hlast]
      exact .pure _
    | some body =>
      rw [execOthers_of_last hc hlast, execOthers_of_last hc hlast]
      exact ih.execAll body
  | some condition =>
    rw [execOthers_of_condition hc, execOthers_of_condition hc]
    refine (ih.eval condition).bind fun v => ?_
    split
    · exact Follows.bind (.lift (entry others.bodies i)) fun body => ih.execAll body
    · exact ih.execOthers (i + 1) others

theorem execLoop_succ (ih : At h₁ h₂ X R n₁ n₂) (condition : Expr) (body : List Stmt) :
    Follows X R (Machine.execLoop h₁ (n₁ + 1) condition body)
      (Machine.execLoop h₂ (n₂ + 1) condition body) := by
  refine (ih.eval condition).bind fun v => ?_
  split
  · refine (ih.execAll body).bind fun c => ?_
    cases c with
    | normal => exact ih.execLoop condition body
    | returning r => exact .pure _
  · exact .pure _

/-- **The second run follows the first one**, however many steps they are granted. If the second
    one is granted more, the first one may also give up because its steps are used up. -/
theorem holds (C : Simulation h₁ h₂ X R) : ∀ {n₁ n₂ : Nat}, n₁ ≤ n₂ →
    (n₁ < n₂ → X .exhausted) → At h₁ h₂ X R n₁ n₂
  | 0, _, _, hX => C.at_zero hX
  | _ + 1, _ + 1, hle, hX =>
    have ih := holds C (Nat.le_of_succ_le_succ hle) fun hlt => hX (Nat.succ_lt_succ hlt)
    { eval := C.eval_succ ih
      evalAll := evalAll_succ ih
      apply := C.apply_succ ih
      call := C.call_succ ih
      exec := C.exec_succ ih
      execAll := execAll_succ ih
      execOthers := execOthers_succ ih
      execLoop := execLoop_succ ih }

/-! ## 6. Whole programs -/

/-- What is recorded when a program has run. -/
def closing (h : Host) : Except Failure Completion → Machine → Except Failure Unit × Machine
  | .ok .normal, m => (.ok (), m)
  | .ok (.returning _), m => (.ok (), m.log h .topLevelReturn)
  | .error e, m =>
    match e.fault? with
    | some f => (.error e, m.log h (.fault f.kind f.line))
    | none => (.error e, m)

theorem execute_eq (h : Host) (n : Nat) (program : List Stmt) (m : Machine) :
    Machine.execute h n program m =
      closing h (Machine.execAll h n program m.rested).1
        (Machine.execAll h n program m.rested).2 := by
  unfold Machine.execute closing
  rcases Machine.execAll h n program m.rested with ⟨(e | (_ | v)), m'⟩
  · rfl
  · rfl
  · rfl

@[simp]
theorem closing_output (h : Host) (r : Except Failure Completion) (m : Machine) :
    (closing h r m).2.output = m.output := by
  unfold closing
  split
  · rfl
  · rw [log_output]
  · split
    · rw [log_output]
    · rfl

@[simp]
theorem closing_scopes (h : Host) (r : Except Failure Completion) (m : Machine) :
    (closing h r m).2.scopes = m.scopes := by
  unfold closing
  split
  · rfl
  · rw [log_scopes]
  · split
    · rw [log_scopes]
    · rfl

theorem closing_error (h : Host) (e : Failure) (m : Machine) :
    (closing h (.error e) m).1 = .error e := by
  unfold closing
  dsimp only
  split <;> rfl

theorem closing_related (C : Simulation h₁ h₂ X R) (r : Except Failure Completion)
    {m₁ m₂ : Machine} (hm : R m₁ m₂) :
    (closing h₁ r m₁).1 = (closing h₂ r m₂).1 ∧ R (closing h₁ r m₁).2 (closing h₂ r m₂).2 := by
  unfold closing
  rcases r with e | (_ | v)
  · dsimp only
    cases e.fault? with
    | none => exact ⟨rfl, hm⟩
    | some f => exact ⟨rfl, C.log _ hm⟩
  · exact ⟨rfl, hm⟩
  · exact ⟨rfl, C.log _ hm⟩

/-- **A whole program follows itself**, started on related machines. -/
theorem execute (C : Simulation h₁ h₂ X R) (hle : n₁ ≤ n₂) (hX : n₁ < n₂ → X .exhausted)
    (program : List Stmt) {m₁ m₂ : Machine}
    (hm : R m₁.rested m₂.rested) :
    ((Machine.execute h₁ n₁ program m₁).1 = (Machine.execute h₂ n₂ program m₂).1 ∧
      R (Machine.execute h₁ n₁ program m₁).2 (Machine.execute h₂ n₂ program m₂).2) ∨
    ∃ e, X e ∧ (Machine.execute h₁ n₁ program m₁).1 = .error e ∧
      Wrote (Machine.execute h₁ n₁ program m₁).2 (Machine.execute h₂ n₂ program m₂).2 := by
  rw [execute_eq, execute_eq]
  rcases ((C.holds hle hX).execAll program).ends hm with ⟨hresult, hrel⟩ | ⟨e, he, hresult, hwrote⟩
  · rw [hresult]
    exact .inl (C.closing_related _ hrel)
  · rw [hresult]
    refine .inr ⟨e, he, closing_error h₁ e _, ?_⟩
    unfold Wrote
    rw [closing_output, closing_output]
    exact hwrote

end Simulation

/-! ## 7. Surroundings -/

/-- What lies around a run: the input that it is given, and what was written and recorded before. -/
structure Surroundings where
  /-- The input in place of the given one. -/
  input : Input → Input
  /-- The texts written before. -/
  output : List Text
  /-- The events recorded before. -/
  events : List Event
  /-- The values recorded before. -/
  probes : List Value

namespace Machine

/-- The machine in other surroundings. -/
def within (m : Machine) (s : Surroundings) : Machine :=
  { m with
    input := s.input m.input
    output := m.output ++ s.output
    events := m.events ++ s.events
    probes := m.probes ++ s.probes }

variable {h : Host} {s : Surroundings}

theorem within_log (m : Machine) (e : Event) : (m.within s).log h e = (m.log h e).within s := by
  unfold log
  split <;> rfl

theorem within_enter (m : Machine) (f : Frame) :
    (m.within s).enter h f = (m.enter h f).within s :=
  within_log { m with scopes := m.scopes.push f, scope := m.scopes.size } _

theorem within_leave (m : Machine) (outer : Nat) :
    (m.within s).leave h outer = (m.leave h outer).within s :=
  within_log { m with scopes := m.scopes.pop, scope := outer } _

theorem within_declare (type : BaseType) (name : Token) (v : Value) (isMutable : Bool)
    (m : Machine) : (declare h type name v isMutable (m.within s)).2 =
      (declare h type name v isMutable m).2.within s := by
  unfold declare
  dsimp only [within]
  split
  · rfl
  · exact within_log { m with scopes := _ } _

theorem within_declareFunction (f : Function) (m : Machine) :
    (declareFunction h f (m.within s)).2 = (declareFunction h f m).2.within s := by
  have hset (m : Machine) (b : Binding) :
      { m.within s with scopes := (m.within s).scopes.set (m.within s).scope f.name.lexeme b } =
        Machine.within { m with scopes := m.scopes.set m.scope f.name.lexeme b } s := rfl
  have hbinds : (m.within s).scopes.bindsHere (m.within s).scope f.name.lexeme =
      m.scopes.bindsHere m.scope f.name.lexeme := rfl
  unfold declareFunction
  dsimp only
  rw [hbinds]
  split
  · rw [within_log]
    exact hset _ _
  · exact hset _ _

end Machine

/-- **A run does not look at its surroundings**, except when it reads a line. Which inputs are
    concerned is up to `J`. -/
theorem Simulation.surrounded (h : Host) {s : Surroundings} {X : Failure → Prop} {J : Input → Prop}
    (hbehind : ∀ {e}, X e → s.output = []) (hlocate : ∀ {e}, X e → ∀ t, X (e.locate t))
    (hread : ∀ {i}, J i → (i.readLine.1 = (s.input i).readLine.1 ∧
        (s.input i).readLine.2 = s.input i.readLine.2 ∧ J i.readLine.2) ∨
      (i.readLine.1 = .error .endOfInput ∧ (∀ t, X (.fault ⟨.noLine, t⟩)) ∧
        X (.fault (.unplaced (.nativeNoLine Native.scanString.name))))) :
    Simulation h h X fun m₁ m₂ => m₂ = m₁.within s ∧ J m₁.input := by
  constructor
  case tick =>
    rintro m₁ _ ⟨rfl, hJ⟩
    exact ⟨rfl, rfl, hJ⟩
  case behind =>
    rintro e m₁ _ he ⟨rfl, _⟩
    refine .of_eq ?_
    show m₁.output ++ s.output = m₁.output
    rw [hbehind he, List.append_nil]
  case locate => exact hlocate
  case limit =>
    rintro m₁ _ ⟨rfl, _⟩
    exact .inl Iff.rfl
  case write =>
    rintro m₁ _ t ⟨rfl, hJ⟩
    exact ⟨rfl, hJ⟩
  case probe =>
    rintro m₁ _ v ⟨rfl, hJ⟩
    exact ⟨rfl, hJ⟩
  case log =>
    rintro m₁ _ e ⟨rfl, hJ⟩
    exact ⟨within_log m₁ e, by rw [log_input]; exact hJ⟩
  case read =>
    rintro m₁ _ ⟨rfl, hJ⟩
    rcases hread hJ with ⟨hline, hrest, hJ⟩ | hend
    · refine .inl ⟨hline, ?_, hJ⟩
      show { m₁.within s with input := (s.input m₁.input).readLine.2 } = _
      rw [hrest]
      rfl
    · exact .inr hend
  case value =>
    rintro name m₁ _ ⟨rfl, hJ⟩
    unfold Exec.getValue
    dsimp only [within]
    cases m₁.scopes.find m₁.scope name with
    | error f => exact ⟨rfl, rfl, hJ⟩
    | ok b => exact ⟨rfl, rfl, hJ⟩
  case assign =>
    rintro name v m₁ _ ⟨rfl, hJ⟩
    unfold Exec.assign
    dsimp only [within]
    cases m₁.scopes.assign m₁.scope name v with
    | error f => exact ⟨rfl, rfl, hJ⟩
    | ok scopes => exact ⟨rfl, rfl, hJ⟩
  case declare =>
    rintro type name v isMutable m₁ _ ⟨rfl, hJ⟩
    exact ⟨rfl, within_declare type name v isMutable m₁, by rw [declare_input]; exact hJ⟩
  case function =>
    rintro f m₁ _ ⟨rfl, hJ⟩
    exact ⟨rfl, within_declareFunction f m₁, by rw [declareFunction_input]; exact hJ⟩
  case enterBlock =>
    rintro m₁ _ ⟨rfl, hJ⟩
    exact ⟨within_enter m₁ _, by rw [enter_input]; exact hJ⟩
  case enterCall =>
    rintro m₁ _ frame _ ⟨rfl, hJ⟩
    exact ⟨within_enter m₁.descend frame, by rw [enter_input]; exact hJ⟩
  case leave =>
    rintro m₁ _ m₁' _ ⟨rfl, _⟩ ⟨rfl, hJ⟩ _ _
    exact ⟨within_leave m₁' m₁.scope, by rw [leave_input]; exact hJ⟩
  case ascend =>
    rintro m₁ _ ⟨rfl, hJ⟩
    exact ⟨rfl, hJ⟩

end FencedCode
