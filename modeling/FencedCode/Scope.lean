import FencedCode.Fault

/-!
# Scopes

A tree of frames, each of which binds names. Frame 0 is the global one; every other frame has a
parent with a smaller number. A name means its binding in the nearest frame on the way to the
global one.
-/

namespace FencedCode

/-! ## 1. Bindings and frames -/

/-- What a name is bound to. -/
structure Binding where
  /-- The declared type. -/
  type : ValueType
  /-- The current value. -/
  value : Value
  /-- May it be assigned? -/
  isMutable : Bool

/-- One scope. -/
structure Frame where
  /-- The number of the scope around it. -/
  parent : Option Nat
  /-- The names bound in it. -/
  bindings : List (Text × Binding)

namespace Frame

/-- The binding of a name in this frame. -/
def get? (f : Frame) (name : Text) : Option Binding :=
  f.bindings.lookup name

/-- Is the name bound in this frame? -/
def binds (f : Frame) (name : Text) : Bool :=
  (f.get? name).isSome

/-- Entries with the binding of a name replaced, or added at the end. -/
def putInto (name : Text) (b : Binding) : List (Text × Binding) → List (Text × Binding)
  | [] => [(name, b)]
  | (n, old) :: rest => if name == n then (n, b) :: rest else (n, old) :: putInto name b rest

/-- Binds a name, in place of any binding it has. -/
def put (f : Frame) (name : Text) (b : Binding) : Frame :=
  { f with bindings := putInto name b f.bindings }

@[simp]
theorem get?_put_self (f : Frame) (name : Text) (b : Binding) :
    (f.put name b).get? name = some b := by
  simp only [get?, put]
  induction f.bindings with
  | nil => simp [putInto]
  | cons e rest ih =>
    obtain ⟨n, old⟩ := e
    simp only [putInto]
    split
    · rename_i h
      simp [List.lookup_cons, h]
    · rename_i h
      simp [List.lookup_cons, h, ih]

theorem get?_put_ne (f : Frame) {name other : Text} (b : Binding) (h : other ≠ name) :
    (f.put name b).get? other = f.get? other := by
  have hne : (other == name) = false := by simpa using h
  simp only [get?, put]
  induction f.bindings with
  | nil => simp [putInto, List.lookup_cons, hne]
  | cons e rest ih =>
    obtain ⟨n, old⟩ := e
    simp only [putInto]
    split
    · rename_i hn
      obtain rfl : name = n := by simpa using hn
      simp [List.lookup_cons, hne]
    · simp only [List.lookup_cons, ih]

end Frame

/-! ## 2. The tree -/

/-- A tree of frames, by their numbers. -/
structure Scopes where
  /-- The frames; the first is the global one. -/
  frames : Array Frame

namespace Scopes

/-- Only the global frame, without names. -/
def initial : Scopes :=
  ⟨#[⟨none, []⟩]⟩

/-- The number of frames. -/
def size (s : Scopes) : Nat :=
  s.frames.size

/-- The tree with one frame more; its number is the old `size`. -/
def push (s : Scopes) (f : Frame) : Scopes :=
  ⟨s.frames.push f⟩

/-- A new frame without names inside frame `i`. -/
def child (s : Scopes) (i : Nat) : Scopes :=
  s.push ⟨some i, []⟩

/-- Drops the frame made last. -/
def pop (s : Scopes) : Scopes :=
  ⟨s.frames.pop⟩

/-- The parent of frame `i`. -/
def parent? (s : Scopes) (i : Nat) : Option Nat :=
  s.frames[i]?.bind (·.parent)

/-- The number of frames around frame `i`, looking at no more than `fuel`. -/
def depthFrom (s : Scopes) : Nat → Nat → Nat
  | 0, _ => 0
  | fuel + 1, i =>
    match s.parent? i with
    | none => 0
    | some p => depthFrom s fuel p + 1

/-- The number of frames around frame `i`. -/
def depth (s : Scopes) (i : Nat) : Nat :=
  s.depthFrom i i

/-- The nearest frame from `i` outward that binds the name, looking at no more than `fuel`. -/
def resolveFrom (s : Scopes) (name : Text) : Nat → Nat → Option Nat
  | 0, _ => none
  | fuel + 1, i =>
    match s.frames[i]? with
    | none => none
    | some f =>
      if f.binds name then some i
      else match f.parent with
        | none => none
        | some p => resolveFrom s name fuel p

/-- The nearest frame from `i` outward that binds the name. -/
def resolve (s : Scopes) (i : Nat) (name : Text) : Option Nat :=
  s.resolveFrom name (i + 1) i

/-- The binding that a name has in scope `i`. -/
def lookup (s : Scopes) (i : Nat) (name : Text) : Option Binding :=
  (s.resolve i name).bind fun k => s.frames[k]?.bind fun f => f.get? name

/-- Is the name bound in frame `i` itself? -/
def bindsHere (s : Scopes) (i : Nat) (name : Text) : Bool :=
  s.frames[i]?.any fun f => f.binds name

/-- Binds a name in frame `i`, in place of any binding it has there. -/
def set (s : Scopes) (i : Nat) (name : Text) (b : Binding) : Scopes :=
  ⟨s.frames.modify i fun f => f.put name b⟩

/-- Binds a name in frame `i` unless it is bound there already; tells whether it did. -/
def define (s : Scopes) (i : Nat) (name : Text) (b : Binding) : Bool × Scopes :=
  if s.bindsHere i name then (false, s) else (true, s.set i name b)

/-- The binding of a name that stands in a program. -/
def find (s : Scopes) (i : Nat) (name : Token) : Except Fault Binding :=
  match s.lookup i name.lexeme with
  | none => .error ⟨.undefined name.lexeme, name⟩
  | some b => .ok b

/-- Gives a name a new value in the frame that declared it. The value must have the declared
    type. -/
def assign (s : Scopes) (i : Nat) (name : Token) (v : Value) : Except Fault Scopes :=
  match s.resolve i name.lexeme with
  | none => .error ⟨.undefined name.lexeme, name⟩
  | some k =>
    match s.frames[k]?.bind fun f => f.get? name.lexeme with
    | none => .error ⟨.undefined name.lexeme, name⟩
    | some b =>
      if !b.isMutable then .error ⟨.immutable v.text, name⟩
      else if v.type ≠ b.type then .error ⟨.assignedType v.text b.type, name⟩
      else .ok (s.set k name.lexeme { b with value := v })

end Scopes

end FencedCode
