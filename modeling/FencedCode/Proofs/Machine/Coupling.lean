import FencedCode.Proofs.Machine.Simulation

/-!
# Two runs side by side

The same expression or statement runs on two machines, perhaps under two hosts. A `Coupling` is a
relation between machines that every step carries from the start of both runs to their ends, and
under which every step that looks at the machine sees the same in both. It is a simulation in
which the first run never gives up.

* `Coupling` -- what a relation has to respect, one field for each step of a run;
* `Coupling.holds` -- **coupled runs end alike**: with the same result, in related machines.
-/

namespace FencedCode

open Exec Machine

/-! ## 1. Couplings -/

/-- A relation between the machines of two runs, the first under host `h₁` and the second under
    `h₂`, that every step respects. -/
structure Coupling (h₁ h₂ : Host) (R : Machine → Machine → Prop) : Prop where
  tick {m₁ m₂ : Machine} : R m₁ m₂ →
    h₁.clockMillis.reading m₁.ticks = h₂.clockMillis.reading m₂.ticks ∧
      R { m₁ with ticks := m₁.ticks + 1 } { m₂ with ticks := m₂.ticks + 1 }
  /-- Calls go too deep in both runs or in none. -/
  limit {m₁ m₂ : Machine} : R m₁ m₂ → (h₁.limit ≤ m₁.depth ↔ h₂.limit ≤ m₂.depth)
  write {m₁ m₂ : Machine} (t : Text) : R m₁ m₂ → R (m₁.write t) (m₂.write t)
  probe {m₁ m₂ : Machine} (v : Value) : R m₁ m₂ →
    R { m₁ with probes := v :: m₁.probes } { m₂ with probes := v :: m₂.probes }
  log {m₁ m₂ : Machine} (e : Event) : R m₁ m₂ → R (m₁.log h₁ e) (m₂.log h₂ e)
  read : Alike R readLine readLine
  value (name : Token) : Alike R (getValue name) (getValue name)
  assign (name : Token) (v : Value) : Alike R (Exec.assign name v) (Exec.assign name v)
  declare (type : BaseType) (name : Token) (v : Value) (isMutable : Bool) :
    Alike R (Machine.declare h₁ type name v isMutable) (Machine.declare h₂ type name v isMutable)
  function (f : Function) : Alike R (declareFunction h₁ f) (declareFunction h₂ f)
  enterBlock {m₁ m₂ : Machine} : R m₁ m₂ →
    R (m₁.enter h₁ ⟨some m₁.scope, []⟩) (m₂.enter h₂ ⟨some m₂.scope, []⟩)
  enterCall {m₁ m₂ : Machine} {frame : Frame} : frame.parent = some 0 → R m₁ m₂ →
    R (m₁.descend.enter h₁ frame) (m₂.descend.enter h₂ frame)
  /-- The frame that was made is dropped, and the run goes on where it was. -/
  leave {m₁ m₂ m₁' m₂' : Machine} : R m₁ m₂ → R m₁' m₂' →
    m₁'.scopes.size = m₁.scopes.size + 1 → m₂'.scopes.size = m₂.scopes.size + 1 →
    R (m₁'.leave h₁ m₁.scope) (m₂'.leave h₂ m₂.scope)
  ascend {m₁ m₂ : Machine} : R m₁ m₂ → R m₁.ascend m₂.ascend

namespace Coupling

variable {h₁ h₂ : Host} {R : Machine → Machine → Prop}

/-- **A coupling is a simulation without a way to give up.** -/
theorem simulation (C : Coupling h₁ h₂ R) : Simulation h₁ h₂ (fun _ => False) R where
  tick := C.tick
  behind hnever _ := hnever.elim
  locate hnever _ := hnever
  limit hm := .inl (C.limit hm)
  write := C.write
  probe := C.probe
  log := C.log
  read {m₁ m₂} hm := by
    obtain ⟨hline, hrel⟩ := C.read hm
    have hsame : m₁.input.readLine.1 = m₂.input.readLine.1 := Except.ok.inj hline
    exact .inl ⟨hsame, hrel⟩
  value := C.value
  assign := C.assign
  declare := C.declare
  function := C.function
  enterBlock := C.enterBlock
  enterCall := C.enterCall
  leave := C.leave
  ascend := C.ascend

/-! ## 2. Both runs -/

/-- The runs that are granted `n` steps end alike. -/
structure At (h₁ h₂ : Host) (R : Machine → Machine → Prop) (n : Nat) : Prop where
  eval (e : Expr) : Alike R (Machine.eval h₁ n e) (Machine.eval h₂ n e)
  evalAll (es : List Expr) : Alike R (Machine.evalAll h₁ n es) (Machine.evalAll h₂ n es)
  apply (callee : Value) (args : List Value) :
    Alike R (Machine.apply h₁ n callee args) (Machine.apply h₂ n callee args)
  call (f : Function) (args : List Value) :
    Alike R (Machine.call h₁ n f args) (Machine.call h₂ n f args)
  exec (s : Stmt) : Alike R (Machine.exec h₁ n s) (Machine.exec h₂ n s)
  execAll (ss : List Stmt) : Alike R (Machine.execAll h₁ n ss) (Machine.execAll h₂ n ss)
  execOthers (i : Nat) (others : Alternatives) :
    Alike R (Machine.execOthers h₁ n i others) (Machine.execOthers h₂ n i others)
  execLoop (condition : Expr) (body : List Stmt) :
    Alike R (Machine.execLoop h₁ n condition body) (Machine.execLoop h₂ n condition body)

/-- **Coupled runs end alike**, however many steps they are granted. -/
theorem holds (C : Coupling h₁ h₂ R) (n : Nat) : At h₁ h₂ R n :=
  have hruns := C.simulation.holds (Nat.le_refl n) fun hlt => absurd hlt (Nat.lt_irrefl n)
  { eval := fun e => (hruns.eval e).alike
    evalAll := fun es => (hruns.evalAll es).alike
    apply := fun callee args => (hruns.apply callee args).alike
    call := fun f args => (hruns.call f args).alike
    exec := fun s => (hruns.exec s).alike
    execAll := fun ss => (hruns.execAll ss).alike
    execOthers := fun i others => (hruns.execOthers i others).alike
    execLoop := fun condition body => (hruns.execLoop condition body).alike }

end Coupling

end FencedCode
