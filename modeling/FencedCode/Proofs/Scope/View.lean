import FencedCode.Scope

/-!
# A view of the tree of scopes

A tree of frames is seen as the bindings it holds, by frame and name, together with the parents of
its frames. Each operation on the tree is one equation on this view; nothing after this file opens
the array of frames.

* `Scopes.get?`, `frame?` -- the binding of a name in one frame, and the frame itself;
* `Scopes.get?_set`, `get?_push`, `get?_pop` -- what the operations do to it;
* `Scopes.assign_ok` -- what an assignment that succeeds has found and done;
* `Scopes.All` -- that all bindings have a property, which the operations keep if the bindings that
  they write have it.
-/

namespace FencedCode.Scopes

/-- The binding of a name in frame `i` itself. -/
def get? (s : Scopes) (i : Nat) (name : Text) : Option Binding :=
  s.frames[i]?.bind fun f => f.get? name

theorem get?_eq_none_of_size_le {s : Scopes} {i : Nat} (hi : s.size ≤ i) (name : Text) :
    s.get? i name = none := by
  unfold get?
  rw [Array.getElem?_eq_none hi]
  rfl

theorem lt_size_of_get?_eq_some {s : Scopes} {i : Nat} {name : Text} {b : Binding}
    (hb : s.get? i name = some b) : i < s.size := by
  refine Nat.lt_of_not_le fun hi => ?_
  rw [get?_eq_none_of_size_le hi] at hb
  cases hb

theorem bindsHere_eq_isSome (s : Scopes) (i : Nat) (name : Text) :
    s.bindsHere i name = (s.get? i name).isSome := by
  unfold bindsHere get?
  cases s.frames[i]? <;> rfl

/-! ## 1. Sizes and parents -/

@[simp]
theorem size_set (s : Scopes) (i : Nat) (name : Text) (b : Binding) :
    (s.set i name b).size = s.size :=
  Array.size_modify

@[simp]
theorem size_push (s : Scopes) (f : Frame) : (s.push f).size = s.size + 1 :=
  Array.size_push f

@[simp]
theorem size_pop (s : Scopes) : s.pop.size = s.size - 1 :=
  Array.size_pop

@[simp]
theorem parent?_set (s : Scopes) (i j : Nat) (name : Text) (b : Binding) :
    (s.set i name b).parent? j = s.parent? j := by
  simp only [parent?, set, Array.getElem?_modify]
  by_cases hij : i = j
  · rw [if_pos hij]
    cases s.frames[j]? <;> rfl
  · rw [if_neg hij]

theorem parent?_push (s : Scopes) (f : Frame) (j : Nat) :
    (s.push f).parent? j = if j = s.size then f.parent else s.parent? j := by
  simp only [parent?, push, Array.getElem?_push]
  by_cases hj : j = s.size
  · rw [if_pos hj, if_pos (show j = s.frames.size from hj)]
    rfl
  · rw [if_neg hj, if_neg (show ¬ j = s.frames.size from hj)]

theorem parent?_pop (s : Scopes) {j : Nat} (hj : j < s.size - 1) :
    s.pop.parent? j = s.parent? j := by
  simp only [parent?, pop, Array.getElem?_pop, if_pos (show j < s.frames.size - 1 from hj)]

theorem parent?_eq_none_of_size_le {s : Scopes} {i : Nat} (hi : s.size ≤ i) :
    s.parent? i = none := by
  unfold parent?
  rw [Array.getElem?_eq_none hi]
  rfl

/-! ## 2. Bindings -/

theorem get?_push (s : Scopes) (f : Frame) (j : Nat) (name : Text) :
    (s.push f).get? j name = if j = s.size then f.get? name else s.get? j name := by
  simp only [get?, push, Array.getElem?_push]
  by_cases hj : j = s.size
  · rw [if_pos hj, if_pos (show j = s.frames.size from hj)]
    rfl
  · rw [if_neg hj, if_neg (show ¬ j = s.frames.size from hj)]

theorem get?_pop (s : Scopes) (j : Nat) (name : Text) :
    s.pop.get? j name = if j < s.size - 1 then s.get? j name else none := by
  simp only [get?, pop, Array.getElem?_pop]
  by_cases hj : j < s.size - 1
  · rw [if_pos hj, if_pos (show j < s.frames.size - 1 from hj)]
  · rw [if_neg hj, if_neg (show ¬ j < s.frames.size - 1 from hj)]
    rfl

theorem get?_set_self {s : Scopes} {i : Nat} (hi : i < s.size) (name : Text) (b : Binding) :
    (s.set i name b).get? i name = some b := by
  simp only [get?, set, Array.getElem?_modify, if_true]
  rw [Array.getElem?_eq_getElem hi]
  exact Frame.get?_put_self _ _ _

theorem get?_set_ne {s : Scopes} {i j : Nat} {name other : Text} (b : Binding)
    (hne : j ≠ i ∨ other ≠ name) : (s.set i name b).get? j other = s.get? j other := by
  simp only [get?, set, Array.getElem?_modify]
  by_cases hij : i = j
  · rw [if_pos hij]
    have hname : other ≠ name := hne.resolve_left fun hj => hj hij.symm
    cases s.frames[j]? with
    | none => rfl
    | some f => exact Frame.get?_put_ne f b hname
  · rw [if_neg hij]

/-- A frame binds what it did, or what was set in it. -/
theorem get?_set (s : Scopes) (i j : Nat) (name other : Text) (b : Binding) :
    (s.set i name b).get? j other =
      if j = i ∧ other = name ∧ i < s.size then some b else s.get? j other := by
  split
  · rename_i hself
    obtain ⟨rfl, rfl, hi⟩ := hself
    exact get?_set_self hi _ b
  · rename_i hself
    by_cases hji : j = i ∧ other = name
    · obtain ⟨rfl, rfl⟩ := hji
      have hi : s.size ≤ j := Nat.le_of_not_lt fun hlt => hself ⟨rfl, rfl, hlt⟩
      rw [get?_eq_none_of_size_le hi, get?_eq_none_of_size_le (by rw [size_set]; exact hi)]
    · exact get?_set_ne b (by
        rcases Decidable.em (j = i) with hj | hj
        · exact .inr fun ho => hji ⟨hj, ho⟩
        · exact .inl hj)

/-! ## 3. Frames -/

/-- Frame `i`, if there is one. -/
def frame? (s : Scopes) (i : Nat) : Option Frame :=
  s.frames[i]?

theorem frame?_set_ne {s : Scopes} {i j : Nat} (name : Text) (b : Binding) (hne : j ≠ i) :
    (s.set i name b).frame? j = s.frame? j := by
  simp only [frame?, set, Array.getElem?_modify, if_neg hne.symm]

theorem frame?_push {s : Scopes} {j : Nat} (f : Frame) (hj : j < s.size) :
    (s.push f).frame? j = s.frame? j := by
  have hne : ¬ j = s.frames.size := Nat.ne_of_lt hj
  simp only [frame?, push, Array.getElem?_push, if_neg hne]

theorem frame?_pop {s : Scopes} {j : Nat} (hj : j < s.size - 1) :
    s.pop.frame? j = s.frame? j := by
  simp only [frame?, pop, Array.getElem?_pop, if_pos (show j < s.frames.size - 1 from hj)]

theorem frame?_set (s : Scopes) (i j : Nat) (name : Text) (b : Binding) :
    (s.set i name b).frame? j =
      if j = i then (s.frame? j).map fun f => f.put name b else s.frame? j := by
  simp only [frame?, set, Array.getElem?_modify]
  by_cases hij : j = i
  · rw [if_pos hij, if_pos hij.symm]
  · rw [if_neg hij, if_neg fun h => hij h.symm]

theorem frame?_push_ite (s : Scopes) (f : Frame) (j : Nat) :
    (s.push f).frame? j = if j = s.size then some f else s.frame? j := by
  simp only [frame?, push, Array.getElem?_push]
  rfl

theorem frame?_pop_ite (s : Scopes) (j : Nat) :
    s.pop.frame? j = if j < s.size - 1 then s.frame? j else none := by
  simp only [frame?, pop, Array.getElem?_pop]
  rfl

theorem get?_eq_bind_frame? (s : Scopes) (i : Nat) (name : Text) :
    s.get? i name = (s.frame? i).bind fun f => f.get? name := rfl

theorem parent?_eq_bind_frame? (s : Scopes) (i : Nat) :
    s.parent? i = (s.frame? i).bind fun f => f.parent := rfl

/-! ## 4. Operations that may do nothing -/

theorem define_snd (s : Scopes) (i : Nat) (name : Text) (b : Binding) :
    (s.define i name b).2 = if (s.get? i name).isSome then s else s.set i name b := by
  unfold define
  rw [bindsHere_eq_isSome]
  split <;> rfl

/-- A name is looked for in a frame and then in the frame around it. -/
theorem resolveFrom_succ (s : Scopes) (name : Text) (fuel i : Nat) :
    s.resolveFrom name (fuel + 1) i =
      if (s.get? i name).isSome then some i else (s.parent? i).bind (s.resolveFrom name fuel) := by
  rw [resolveFrom, get?_eq_bind_frame?, parent?_eq_bind_frame?, frame?]
  cases s.frames[i]? with
  | none => rfl
  | some f =>
    show (if f.binds name = true then _ else _) = if (f.get? name).isSome = true then _ else _
    unfold Frame.binds
    split
    · rfl
    · cases hp : f.parent with
      | none => simp [hp]
      | some p => simp [hp]

section Alike

variable {s t : Scopes} {name : Text}

theorem resolveFrom_congr (hbound : ∀ i, (s.get? i name).isSome = (t.get? i name).isSome)
    (hparent : ∀ i, s.parent? i = t.parent? i) :
    ∀ fuel i, s.resolveFrom name fuel i = t.resolveFrom name fuel i
  | 0, _ => rfl
  | fuel + 1, i => by
    have houter : s.resolveFrom name fuel = t.resolveFrom name fuel :=
      funext (resolveFrom_congr hbound hparent fuel)
    rw [resolveFrom_succ, resolveFrom_succ, hbound, hparent, houter]

/-- A name is found in the same frame if the same frames bind it and stand inside each other. -/
theorem resolve_congr (hbound : ∀ i, (s.get? i name).isSome = (t.get? i name).isSome)
    (hparent : ∀ i, s.parent? i = t.parent? i) (i : Nat) : s.resolve i name = t.resolve i name :=
  resolveFrom_congr hbound hparent (i + 1) i

end Alike

/-- **What an assignment that succeeds has found and done.** -/
theorem assign_ok {s s' : Scopes} {i : Nat} {name : Token} {v : Value}
    (ha : s.assign i name v = .ok s') :
    ∃ k b, s.resolve i name.lexeme = some k ∧ s.get? k name.lexeme = some b ∧
      b.isMutable = true ∧ v.type = b.type ∧ s' = s.set k name.lexeme { b with value := v } := by
  unfold assign at ha
  split at ha
  · cases ha
  · rename_i k hk
    split at ha
    · cases ha
    · rename_i b hb
      split at ha
      · cases ha
      · rename_i hmut
        split at ha
        · cases ha
        · rename_i htype
          cases ha
          exact ⟨k, b, hk, hb, by simpa using hmut, Decidable.not_not.mp htype, rfl⟩

end FencedCode.Scopes

/-! ## 5. Properties of all bindings -/

namespace FencedCode

variable {P : Binding → Prop}

/-- All bindings of a frame have the property. -/
def Frame.All (P : Binding → Prop) (f : Frame) : Prop :=
  ∀ name b, f.get? name = some b → P b

/-- All bindings of a tree have the property. -/
def Scopes.All (P : Binding → Prop) (s : Scopes) : Prop :=
  ∀ i name b, s.get? i name = some b → P b

theorem Frame.all_empty (parent : Option Nat) : All P ⟨parent, []⟩ := by
  intro name b hb
  cases hb

theorem Frame.All.put {f : Frame} (hf : f.All P) (name : Text) {b : Binding} (hb : P b) :
    (f.put name b).All P := by
  intro other c hc
  by_cases hname : other = name
  · rw [hname, Frame.get?_put_self] at hc
    cases hc
    exact hb
  · rw [Frame.get?_put_ne f b hname] at hc
    exact hf other c hc

namespace Scopes

variable {s : Scopes}

theorem all_initial : initial.All P := by
  intro i name b hb
  -- the only frame binds nothing
  have hi : i = 0 := Nat.lt_one_iff.mp (lt_size_of_get?_eq_some hb)
  subst hi
  cases hb

theorem All.set (hs : s.All P) (i : Nat) (name : Text) {b : Binding} (hb : P b) :
    (s.set i name b).All P := by
  intro j other c hc
  rw [get?_set] at hc
  split at hc
  · cases hc
    exact hb
  · exact hs j other c hc

theorem All.push (hs : s.All P) {f : Frame} (hf : f.All P) : (s.push f).All P := by
  intro j name b hb
  rw [get?_push] at hb
  split at hb
  · exact hf name b hb
  · exact hs j name b hb

theorem All.pop (hs : s.All P) : s.pop.All P := by
  intro j name b hb
  rw [get?_pop] at hb
  split at hb
  · exact hs j name b hb
  · cases hb

theorem All.define (hs : s.All P) (i : Nat) (name : Text) {b : Binding} (hb : P b) :
    (s.define i name b).2.All P := by
  rw [define_snd]
  split
  · exact hs
  · exact hs.set i name hb

end Scopes

end FencedCode
