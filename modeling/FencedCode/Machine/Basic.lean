import FencedCode.Input
import FencedCode.Machine.Event
import FencedCode.Scope

/-!
# The machine

The state that running a program changes, and the steps that change it. A step ends with a result
or a failure, and in both cases leaves a state behind.
-/

namespace FencedCode

/-! ## 1. Host and state -/

/-- A clock, by its readings in the order in which they are taken. -/
structure Clock where
  /-- The time in milliseconds at a reading. -/
  reading : Nat → Int

/-- A clock that stands still. -/
instance : Coe Int Clock := ⟨fun t => ⟨fun _ => t⟩⟩

/-- What the host decides for a run. -/
structure Host where
  /-- The deepest nesting of calls; zero or less means `defaultLimit`. -/
  maxDepth : Int := 0
  /-- The clock that programs see. -/
  clockMillis : Clock := (0 : Int)
  /-- Are events recorded? -/
  tracing : Bool := false

namespace Host

/-- The deepest nesting of calls when the host sets none. -/
def defaultLimit : Nat := 10000

/-- The deepest nesting of calls. -/
def limit (h : Host) : Nat :=
  if h.maxDepth ≤ 0 then defaultLimit else h.maxDepth.toNat

end Host

/-- The state of a run. -/
structure Machine where
  /-- The frames that exist. -/
  scopes : Scopes
  /-- The frame in which statements run. -/
  scope : Nat
  /-- The number of calls that are under way. -/
  depth : Nat
  /-- How often the program has looked at the clock. -/
  ticks : Nat
  /-- The input that is left. -/
  input : Input
  /-- The texts written, the latest first. -/
  output : List Text
  /-- The events recorded, the latest first. -/
  events : List Event
  /-- The values recorded by `probe`, the latest first. -/
  probes : List Value

namespace Machine

/-- A machine that only has the global frame. -/
def bare (input : Input) : Machine :=
  { scopes := .initial, scope := 0, depth := 0, ticks := 0, input
    output := [], events := [], probes := [] }

/-- Binds a native in the global frame unless its name is taken. -/
def defineNative (m : Machine) (n : Native) : Machine :=
  { m with scopes := (m.scopes.define 0 n.name
      { type := .function, value := .function (some (.native n)), isMutable := false }).2 }

/-- A machine with the natives every program finds. -/
def standard (input : Input) : Machine :=
  Native.standard.foldl defineNative (bare input)

/-- All that was written, in order. -/
def written (m : Machine) : Text :=
  m.output.reverse.flatten

/-- The machine in which a program begins: in the global frame, with no call under way and the
    clock not looked at. -/
def rested (m : Machine) : Machine :=
  { m with scope := 0, depth := 0, ticks := 0 }

/-- Writes a text. -/
def write (m : Machine) (t : Text) : Machine :=
  { m with output := t :: m.output }

/-- Records an event if the host wants to know. -/
@[inline]
def log (m : Machine) (h : Host) (e : Event) : Machine :=
  if h.tracing then { m with events := e :: m.events } else m

/-- Enters a new frame. -/
def enter (m : Machine) (h : Host) (f : Frame) : Machine :=
  let scope := m.scopes.size
  let m := { m with scopes := m.scopes.push f, scope }
  m.log h (.pushScope (m.scopes.depth scope))

/-- Leaves the current frame, which is the one made last, for frame `outer`. -/
def leave (m : Machine) (h : Host) (outer : Nat) : Machine :=
  let m := { m with scopes := m.scopes.pop, scope := outer }
  m.log h (.popScope (m.scopes.depth outer))

end Machine

/-! ## 2. Steps -/

/-- A step of a run. -/
def Exec (α : Type) : Type :=
  Machine → Except Failure α × Machine

namespace Exec

/-- Succeeds and changes nothing. -/
@[always_inline, inline]
protected def pure {α : Type} (a : α) : Exec α :=
  fun m => (.ok a, m)

/-- One step after another; a failure ends both. -/
@[always_inline, inline]
protected def bind {α β : Type} (p : Exec α) (f : α → Exec β) : Exec β :=
  fun m =>
    match p m with
    | (.ok a, m') => f a m'
    | (.error e, m') => (.error e, m')

instance : Monad Exec where
  pure := Exec.pure
  bind := Exec.bind

/-- Fails. -/
@[always_inline, inline]
def fail {α : Type} (e : Failure) : Exec α :=
  fun m => (.error e, m)

/-- Fails with a fault. -/
def fault {α : Type} (c : Cause) (t : Token) : Exec α :=
  fail (.fault ⟨c, t⟩)

/-- Fails with a fault whose place is not known yet. -/
def unplaced {α : Type} (c : Cause) : Exec α :=
  fail (.fault (.unplaced c))

/-- Changes the state. -/
@[always_inline, inline]
def modify (f : Machine → Machine) : Exec Unit :=
  fun m => (.ok (), f m)

/-- A result that does not depend on the state. -/
@[always_inline, inline]
def lift {α : Type} (r : Except Failure α) : Exec α :=
  fun m => (r, m)

/-- The value of a name. -/
def getValue (name : Token) : Exec Value :=
  fun m =>
    match m.scopes.find m.scope name with
    | .ok b => (.ok b.value, m)
    | .error f => (.error (.fault f), m)

/-- Gives a name a new value. -/
def assign (name : Token) (v : Value) : Exec Unit :=
  fun m =>
    match m.scopes.assign m.scope name v with
    | .ok scopes => (.ok (), { m with scopes })
    | .error f => (.error (.fault f), m)

/-- Reads a line. -/
def readLine : Exec (Except ReadError Text) :=
  fun m =>
    let (r, input) := m.input.readLine
    (.ok r, { m with input })

/-- Looks at the clock. -/
def lookAtClock (h : Host) : Exec Int :=
  fun m => (.ok (h.clockMillis.reading m.ticks), { m with ticks := m.ticks + 1 })

/-- Records an event. -/
@[always_inline, inline]
def note (h : Host) (e : Event) : Exec Unit :=
  modify fun m => m.log h e

/-- Runs a step in a new frame, and leaves that frame whatever happens. -/
@[always_inline, inline]
def inScope {α : Type} (h : Host) (f : Frame) (p : Exec α) : Exec α :=
  fun m =>
    let outer := m.scope
    let (r, m') := p (m.enter h f)
    (r, m'.leave h outer)

/-- Runs a step in a new frame inside the current one. -/
@[always_inline, inline]
def inBlock {α : Type} (h : Host) (p : Exec α) : Exec α :=
  fun m => inScope h ⟨some m.scope, []⟩ p m

/-- Runs a step; a fault of it that has no place yet gets the given one. -/
@[always_inline, inline]
def located {α : Type} (t : Token) (p : Exec α) : Exec α :=
  fun m =>
    match p m with
    | (.ok a, m') => (.ok a, m')
    | (.error e, m') => (.error (e.locate t), m')

/-- Runs a step one call deeper. -/
@[always_inline, inline]
def deeper {α : Type} (p : Exec α) : Exec α :=
  fun m =>
    let (r, m') := p { m with depth := m.depth + 1 }
    (r, { m' with depth := m'.depth - 1 })

end Exec

end FencedCode
