import FencedCode.Machine.Basic
import FencedCode.Number.Power

/-!
# Natives

What the functions of the host do. Their faults have no place; the call that raised them has one.
-/

namespace FencedCode.Native

open Exec

/-- The float that an argument must be. -/
def floatArg (n : Native) : Value → Except Failure Float
  | .float x => .ok x
  | v => .error (.fault (.unplaced (.nativeArgument n.name v.type)))

/-- A native on one float. -/
def onFloat (n : Native) (f : Float → Float) (args : List Value) : Exec Value :=
  lift (do
    let v ← entry args 0
    let x ← n.floatArg v
    pure (.float (f x)))

/-- A native on two floats. -/
def onFloats (n : Native) (f : Float → Float → Float) (args : List Value) : Exec Value :=
  lift (do
    let v ← entry args 0
    let x ← n.floatArg v
    let w ← entry args 1
    let y ← n.floatArg w
    pure (.float (f x y)))

/-- The time in seconds. -/
def time (h : Host) : Exec Value := do
  let t ← lookAtClock h
  pure (.float (Float.ofInt t / 1000))

/-- Displays a prompt on a line of its own and reads a line. -/
def prompt (args : List Value) : Exec Value := do
  let v ← lift (entry args 0)
  modify fun m => m.write (Text.line v.text)
  match ← readLine with
  | .ok line => pure (.string line)
  | .error .endOfInput => unplaced (.nativeNoLine scanString.name)
  | .error (.failed reason) => fail (.reader scanString.name reason)

/-- Records an argument and returns it. -/
def record (args : List Value) : Exec Value := do
  let v ← lift (entry args 0)
  modify fun m => { m with probes := v :: m.probes }
  pure v

/-- Runs a native. -/
def run (h : Host) (n : Native) (args : List Value) : Exec Value :=
  match n with
  | clock => time h
  | ceil => onFloat n Float.ceil args
  | floor => onFloat n Float.floor args
  | sqrt => onFloat n Float.sqrt args
  | abs => onFloat n Float.abs args
  | power => onFloats n Number.power args
  | scanString => prompt args
  | probe => record args
  | counter _ _ _ => pure (.int (Int64.ofNat args.length))

end FencedCode.Native
