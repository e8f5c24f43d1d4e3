import FencedCode.Proofs.Machine.Restoration
import FencedCode.Proofs.Machine.Translation

/-!
# Machines that are alike

Two machines are alike if they have the same frames, which bind the same names to values that
correspond, and if they run in the same frame on the same input and have written the same. What
they have recorded may differ.

* `Scopes.Like`, `Machine.Like` -- alike up to functions that resemble each other;
* `Scopes.Like.lookup`, `Scopes.Like.assign` -- names mean and get values that correspond;
* `Machine.Like.translation` -- **every step respects that machines are alike**, given that equal
  operands on one side are equal on the other;
* `Machine.Like.halts`, `Machine.Like.halts_reverse` -- so **programs that resemble each other halt
  alike**, if one of them halts.
-/

namespace FencedCode

open Machine

variable {R : Resemblance}

/-! ## 1. Scopes -/

/-- Bindings of one type whose values correspond. -/
structure Binding.Like (R : Resemblance) (b b' : Binding) : Prop where
  type : b.type = b'.type
  value : b.value.Like R b'.value
  isMutable : b.isMutable = b'.isMutable

theorem Binding.Like.refl (b : Binding) : b.Like R b :=
  ⟨rfl, .refl _, rfl⟩

theorem Binding.Like.reverse {b b' : Binding} (h : b.Like R b') : b'.Like R.reverse b :=
  ⟨h.type.symm, h.value.reverse, h.isMutable.symm⟩

theorem Binding.rel_refl : ∀ o : Option Binding, Option.Rel (Binding.Like R) o o
  | none => .none
  | some b => .some (.refl b)

theorem Binding.rel_reverse {o o' : Option Binding} (h : Option.Rel (Binding.Like R) o o') :
    Option.Rel (Binding.Like R.reverse) o' o := by
  cases h with
  | none => exact .none
  | some hb => exact .some hb.reverse

/-- The same frames, which bind the same names to values that correspond. -/
structure Scopes.Like (R : Resemblance) (s s' : Scopes) : Prop where
  size : s.size = s'.size
  parent (i : Nat) : s.parent? i = s'.parent? i
  binding (i : Nat) (name : Text) : Option.Rel (Binding.Like R) (s.get? i name) (s'.get? i name)

namespace Scopes.Like

variable {s s' : Scopes}

theorem refl (s : Scopes) : s.Like R s :=
  ⟨rfl, fun _ => rfl, fun _ _ => Binding.rel_refl _⟩

theorem reverse (h : s.Like R s') : s'.Like R.reverse s :=
  ⟨h.size.symm, fun i => (h.parent i).symm, fun i name => Binding.rel_reverse (h.binding i name)⟩

theorem isSome_eq (h : s.Like R s') (i : Nat) (name : Text) :
    (s.get? i name).isSome = (s'.get? i name).isSome := by
  have hbinding := h.binding i name
  generalize s.get? i name = o at hbinding ⊢
  generalize s'.get? i name = o' at hbinding ⊢
  cases hbinding <;> rfl

theorem set (h : s.Like R s') (i : Nat) (name : Text) {b b' : Binding} (hb : b.Like R b') :
    (s.set i name b).Like R (s'.set i name b') := by
  refine ⟨?_, fun j => ?_, fun j other => ?_⟩
  · rw [size_set, size_set, h.size]
  · rw [parent?_set, parent?_set, h.parent]
  · rw [get?_set, get?_set, h.size]
    split
    · exact .some hb
    · exact h.binding j other

theorem push (h : s.Like R s') (f : Frame) : (s.push f).Like R (s'.push f) := by
  refine ⟨?_, fun j => ?_, fun j name => ?_⟩
  · rw [size_push, size_push, h.size]
  · rw [parent?_push, parent?_push, h.size, h.parent]
  · rw [get?_push, get?_push, h.size]
    split
    · exact Binding.rel_refl _
    · exact h.binding j name

theorem pop (h : s.Like R s') : s.pop.Like R s'.pop := by
  refine ⟨?_, fun j => ?_, fun j name => ?_⟩
  · rw [size_pop, size_pop, h.size]
  · by_cases hj : j < s.size - 1
    · rw [parent?_pop s hj, parent?_pop s' (h.size ▸ hj), h.parent]
    · have hs : s.pop.size ≤ j := by rw [size_pop]; exact Nat.le_of_not_lt hj
      have hs' : s'.pop.size ≤ j := by rw [size_pop, ← h.size]; exact Nat.le_of_not_lt hj
      rw [parent?_eq_none_of_size_le hs, parent?_eq_none_of_size_le hs']
  · rw [get?_pop, get?_pop, h.size]
    split
    · exact h.binding j name
    · exact .none

theorem define (h : s.Like R s') (i : Nat) (name : Text) {b b' : Binding} (hb : b.Like R b') :
    (s.define i name b).2.Like R (s'.define i name b').2 := by
  rw [define_snd, define_snd, h.isSome_eq]
  split
  · exact h
  · exact h.set i name hb

/-- A name is found in the same frame. -/
theorem resolve (h : s.Like R s') (i : Nat) (name : Text) :
    s.resolve i name = s'.resolve i name :=
  resolve_congr (fun j => h.isSome_eq j name) h.parent i

/-- **A name means values that correspond.** -/
theorem lookup (h : s.Like R s') (i : Nat) (name : Text) :
    Option.Rel (Binding.Like R) (s.lookup i name) (s'.lookup i name) := by
  have hresolve := h.resolve i name
  show Option.Rel _ ((s.resolve i name).bind fun k => s.get? k name)
    ((s'.resolve i name).bind fun k => s'.get? k name)
  rw [hresolve]
  cases s'.resolve i name with
  | none => exact .none
  | some k => exact h.binding k name

/-- **A name gets values that correspond**, or does not get them for one reason. -/
theorem assign (h : s.Like R s') (i : Nat) {name name' : Token} (hname : R.token name name')
    {v v' : Value} (hv : v.Like R v') :
    (∃ c, s.assign i name v = .error ⟨c, name⟩ ∧ s'.assign i name' v' = .error ⟨c, name'⟩) ∨
      ∃ t t', s.assign i name v = .ok t ∧ s'.assign i name' v' = .ok t' ∧ t.Like R t' := by
  have hlexeme : name.lexeme = name'.lexeme := R.token_lexeme hname
  have hresolve := h.resolve i name.lexeme
  unfold Scopes.assign
  rw [← hlexeme, ← hresolve, ← hv.text_eq, ← hv.type_eq]
  cases s.resolve i name.lexeme with
  | none => exact .inl ⟨_, rfl, rfl⟩
  | some k =>
    have hbinding := h.binding k name.lexeme
    unfold Scopes.get? at hbinding
    dsimp only
    generalize (s.frames[k]?.bind fun f => f.get? name.lexeme) = o at hbinding ⊢
    generalize (s'.frames[k]?.bind fun f => f.get? name.lexeme) = o' at hbinding ⊢
    cases hbinding with
    | none => exact .inl ⟨_, rfl, rfl⟩
    | @some b b' hb =>
      dsimp only
      rw [← hb.isMutable, ← hb.type]
      split
      · exact .inl ⟨_, rfl, rfl⟩
      · split
        · exact .inl ⟨_, rfl, rfl⟩
        · exact .inr ⟨_, _, rfl, rfl, h.set k _ ⟨rfl, hv, rfl⟩⟩

end Scopes.Like

/-! ## 2. Machines -/

namespace Machine

/-- Alike in everything but what is recorded. -/
structure Like (R : Resemblance) (m m' : Machine) : Prop where
  scopes : m.scopes.Like R m'.scopes
  scope : m.scope = m'.scope
  depth : m.depth = m'.depth
  ticks : m.ticks = m'.ticks
  input : m.input = m'.input
  output : m.output = m'.output

theorem declare_depth (h : Host) (type : BaseType) (name : Token) (v : Value) (isMutable : Bool)
    (m : Machine) : (declare h type name v isMutable m).2.depth = m.depth := by
  unfold declare
  cases m.scopes.define m.scope name.lexeme ⟨.base type, v, isMutable⟩ with
  | mk fresh scopes => cases fresh <;> simp [log_depth]

theorem declareFunction_depth (h : Host) (f : Function) (m : Machine) :
    (declareFunction h f m).2.depth = m.depth := by
  simp only [declareFunction]
  split <;> simp [log_depth]

namespace Like

variable {h : Host} {m m' : Machine}

theorem refl (m : Machine) : m.Like R m :=
  ⟨.refl _, rfl, rfl, rfl, rfl, rfl⟩

theorem reverse (hm : m.Like R m') : m'.Like R.reverse m :=
  ⟨hm.scopes.reverse, hm.scope.symm, hm.depth.symm, hm.ticks.symm, hm.input.symm, hm.output.symm⟩

theorem written_eq (hm : m.Like R m') : m.written = m'.written := by
  unfold Machine.written
  rw [hm.output]

/-- Global names mean values that correspond. -/
theorem global (hm : m.Like R m') (name : Text) :
    Option.Rel (Binding.Like R) (m.global? name) (m'.global? name) :=
  hm.scopes.lookup 0 name

theorem start (hm : m.Like R m') :
    Machine.Like R m.rested m'.rested :=
  ⟨hm.scopes, rfl, rfl, rfl, hm.input, hm.output⟩

theorem write (hm : m.Like R m') (t : Text) : (m.write t).Like R (m'.write t) :=
  ⟨hm.scopes, hm.scope, hm.depth, hm.ticks, hm.input, congrArg (t :: ·) hm.output⟩

theorem log (hm : m.Like R m') (e e' : Event) : (m.log h e).Like R (m'.log h e') := by
  refine ⟨?_, ?_, ?_, ?_, ?_, ?_⟩
  · rw [log_scopes, log_scopes]
    exact hm.scopes
  · rw [log_scope, log_scope, hm.scope]
  · rw [log_depth, log_depth, hm.depth]
  · rw [log_ticks, log_ticks, hm.ticks]
  · rw [log_input, log_input, hm.input]
  · rw [log_output, log_output, hm.output]

theorem enter (hm : m.Like R m') (f : Frame) : (m.enter h f).Like R (m'.enter h f) := by
  refine ⟨?_, ?_, ?_, ?_, ?_, ?_⟩
  · rw [enter_scopes, enter_scopes]
    exact hm.scopes.push f
  · rw [enter_scope, enter_scope, hm.scopes.size]
  · rw [enter_depth, enter_depth, hm.depth]
  · rw [enter_ticks, enter_ticks, hm.ticks]
  · rw [enter_input, enter_input, hm.input]
  · rw [enter_output, enter_output, hm.output]

theorem leave (hm : m.Like R m') {i j : Nat} (hij : i = j) :
    (m.leave h i).Like R (m'.leave h j) := by
  refine ⟨?_, ?_, ?_, ?_, ?_, ?_⟩
  · rw [leave_scopes, leave_scopes]
    exact hm.scopes.pop
  · rw [leave_scope, leave_scope, hij]
  · rw [leave_depth, leave_depth, hm.depth]
  · rw [leave_ticks, leave_ticks, hm.ticks]
  · rw [leave_input, leave_input, hm.input]
  · rw [leave_output, leave_output, hm.output]

theorem descend (hm : m.Like R m') : m.descend.Like R m'.descend :=
  ⟨hm.scopes, hm.scope, congrArg (· + 1) hm.depth, hm.ticks, hm.input, hm.output⟩

theorem ascend (hm : m.Like R m') : m.ascend.Like R m'.ascend :=
  ⟨hm.scopes, hm.scope, congrArg (· - 1) hm.depth, hm.ticks, hm.input, hm.output⟩

theorem declare (hm : m.Like R m') (type : BaseType) {name name' : Token}
    (hname : R.token name name') (v : Value) (isMutable : Bool) :
    (Machine.declare h type name v isMutable m).2.Like R
      (Machine.declare h type name' v isMutable m').2 := by
  refine ⟨?_, ?_, ?_, ?_, ?_, ?_⟩
  · rw [declare_scopes, declare_scopes, ← R.token_lexeme hname, ← hm.scope]
    exact hm.scopes.define _ _ (.refl _)
  · rw [declare_scope, declare_scope, hm.scope]
  · rw [declare_depth, declare_depth, hm.depth]
  · rw [declare_ticks, declare_ticks, hm.ticks]
  · rw [declare_input, declare_input, hm.input]
  · rw [declare_output, declare_output, hm.output]

theorem declareFunction (hm : m.Like R m') {f g : Function} (hf : R.function f g) :
    (Machine.declareFunction h f m).2.Like R (Machine.declareFunction h g m').2 := by
  refine ⟨?_, ?_, ?_, ?_, ?_, ?_⟩
  · rw [declareFunction_scopes, declareFunction_scopes, ← R.token_lexeme (R.function_name hf),
      ← hm.scope]
    exact hm.scopes.set _ _ ⟨rfl, .user hf, rfl⟩
  · rw [declareFunction_scope, declareFunction_scope, hm.scope]
  · rw [declareFunction_depth, declareFunction_depth, hm.depth]
  · rw [declareFunction_ticks, declareFunction_ticks, hm.ticks]
  · rw [declareFunction_input, declareFunction_input, hm.input]
  · rw [declareFunction_output, declareFunction_output, hm.output]

theorem getValue (hm : m.Like R m') {name name' : Token} (hname : R.token name name') :
    Outcome R (Value.Like R) (Exec.getValue name m).1 (Exec.getValue name' m').1 := by
  have hlookup := hm.scopes.lookup m.scope name.lexeme
  have hlexeme : name.lexeme = name'.lexeme := R.token_lexeme hname
  unfold Exec.getValue Scopes.find
  rw [← hlexeme, ← hm.scope]
  generalize m.scopes.lookup m.scope name.lexeme = o at hlookup ⊢
  generalize m'.scopes.lookup m.scope name.lexeme = o' at hlookup ⊢
  cases hlookup with
  | none => exact .fault hname
  | some hb => exact .ok hb.value

theorem assign (hm : m.Like R m') {name name' : Token} (hname : R.token name name')
    {v v' : Value} (hv : v.Like R v') :
    Outcome R (fun _ _ => True) (Exec.assign name v m).1 (Exec.assign name' v' m').1 ∧
      (Exec.assign name v m).2.Like R (Exec.assign name' v' m').2 := by
  unfold Exec.assign
  rw [← hm.scope]
  rcases hm.scopes.assign m.scope hname hv with ⟨c, ha, ha'⟩ | ⟨s, s', ha, ha', hs⟩
  · rw [ha, ha']
    exact ⟨.fault hname, hm⟩
  · rw [ha, ha']
    exact ⟨.ok trivial, hs, rfl, hm.depth, hm.ticks, hm.input, hm.output⟩

end Like

/-! ## 3. Runs -/

/-- In machines of which an invariant is known, operands that are equal on one side are equal on the
    other one. -/
def EqualAlike (h : Host) (R : Resemblance) (I : Machine → Prop) : Prop :=
  ∀ {m₁ m₂ n₁ n₂ k₁ k₂ : Machine} {n n' : Nat} {l l' r r' : Expr} {a a' b b' : Value},
    I m₁ → I m₂ →
    eval h n l m₁ = (.ok a, n₁) → eval h n r n₁ = (.ok b, k₁) →
    eval h n' l' m₂ = (.ok a', n₂) → eval h n' r' n₂ = (.ok b', k₂) →
    a.Like R a' → b.Like R b' → a.equal b = a'.equal b'

variable {h : Host} {E S : Machine → Machine → Prop} {I : Machine → Prop}

/-- **Every step respects that machines are alike.** -/
theorem Like.translation (C : Invariant h E S I) (hequal : EqualAlike h R I) :
    Translation h R fun m₁ m₂ => m₁.Like R m₂ ∧ I m₁ ∧ I m₂ where
  depth hm := hm.1.depth
  write t := fun ⟨hm, h₁, h₂⟩ => ⟨hm.write t, C.keep (C.write _ t) h₁, C.keep (C.write _ t) h₂⟩
  probe _ := fun ⟨hm, h₁, h₂⟩ =>
    ⟨⟨hm.scopes, hm.scope, hm.depth, hm.ticks, hm.input, hm.output⟩, C.keep (C.probe _ _) h₁,
      C.keep (C.probe _ _) h₂⟩
  log e e' := fun ⟨hm, h₁, h₂⟩ => ⟨hm.log e e', C.keep (C.log _ _) h₁, C.keep (C.log _ _) h₂⟩
  tick := fun ⟨hm, h₁, h₂⟩ =>
    ⟨hm.ticks, ⟨hm.scopes, hm.scope, hm.depth, congrArg (· + 1) hm.ticks, hm.input, hm.output⟩,
      C.keep (C.tick _) h₁, C.keep (C.tick _) h₂⟩
  read := fun ⟨hm, h₁, h₂⟩ =>
    have hrest := congrArg (fun i => i.readLine.2) hm.input
    ⟨hm.input, ⟨hm.scopes, hm.scope, hm.depth, hm.ticks, hrest, hm.output⟩, C.keep (C.read _) h₁,
      C.keep (C.read _) h₂⟩
  value := fun ⟨hm, _, _⟩ hname => hm.getValue hname
  assign := fun ⟨hm, h₁, h₂⟩ hname hv =>
    ⟨(hm.assign hname hv).1, (hm.assign hname hv).2, C.keep (C.assigned _ _ _) h₁,
      C.keep (C.assigned _ _ _) h₂⟩
  declare isMutable := fun ⟨hm, h₁, h₂⟩ hname hv =>
    ⟨hm.declare _ hname _ isMutable, C.keepS (C.declare _ _ _ _ _ hv) h₁,
      C.keepS (C.declare _ _ _ _ _ hv) h₂⟩
  function := fun ⟨hm, h₁, h₂⟩ hf =>
    ⟨hm.declareFunction hf, C.keepS (C.function _ _) h₁, C.keepS (C.function _ _) h₂⟩
  enterBlock {m₁ m₂} := fun ⟨hm, h₁, h₂⟩ => by
    refine ⟨?_, C.enterBlock h₁, C.enterBlock h₂⟩
    rw [← hm.scope]
    exact hm.enter _
  leaveBlock := fun ⟨hm, h₁, h₂⟩ ⟨hend, _, _⟩ =>
    ⟨hend.leave hm.scope, C.keep (C.block ((C.holds _).execAll _ _)) h₁,
      C.keep (C.block ((C.holds _).execAll _ _)) h₂⟩
  enterCall := fun ⟨hm, h₁, h₂⟩ hdepth hb =>
    ⟨hm.descend.enter _, C.enterCall hdepth hb h₁, C.enterCall (hm.depth ▸ hdepth) hb h₂⟩
  leaveCall := fun ⟨hm, h₁, h₂⟩ hdepth hb ⟨hend, _, _⟩ =>
    ⟨(hend.leave hm.scope).ascend, C.keep (C.call hdepth hb ((C.holds _).execAll _ _)) h₁,
      C.keep (C.call (hm.depth ▸ hdepth) hb ((C.holds _).execAll _ _)) h₂⟩
  equal := fun ⟨_, h₁, h₂⟩ => hequal h₁ h₂

theorem EqualAlike.reverse (hequal : EqualAlike h R I) : EqualAlike h R.reverse I :=
  fun h₁ h₂ hl hr hl' hr' ha hb => (hequal h₂ h₁ hl' hr' hl hr ha.reverse hb.reverse).symm

/-- **A program halts like one that resembles it**, in machines that are alike. -/
theorem Like.halts (C : Invariant h E S I) (hequal : EqualAlike h R I) {P P' : List Stmt}
    (hP : R.body P P') {m₁ m₂ m₁' : Machine} {r : Except Failure Unit} (hm : m₁.Like R m₂)
    (h₁ : I m₁) (h₂ : I m₂) (hhalts : Halts h P m₁ r m₁') :
    ∃ r' m₂', Halts h P' m₂ r' m₂' ∧ Outcome R (fun _ _ => True) r r' ∧ m₁'.Like R m₂' := by
  have hstart := And.intro hm.start (And.intro (C.enterProgram h₁) (C.enterProgram h₂))
  obtain ⟨r', m₂', hhalts', hr, hm', _⟩ := (Like.translation C hequal).halts hP hstart hhalts
  exact ⟨r', m₂', hhalts', hr, hm'⟩

/-- The same with the sides exchanged. -/
theorem Like.halts_reverse (C : Invariant h E S I) (hequal : EqualAlike h R I) {P P' : List Stmt}
    (hP : R.body P P') {m₁ m₂ m₂' : Machine} {r' : Except Failure Unit} (hm : m₁.Like R m₂)
    (h₁ : I m₁) (h₂ : I m₂) (hhalts : Halts h P' m₂ r' m₂') :
    ∃ r m₁', Halts h P m₁ r m₁' ∧ Outcome R (fun _ _ => True) r r' ∧ m₁'.Like R m₂' := by
  obtain ⟨r, m₁', hhalts', hr, hm'⟩ :=
    Like.halts (R := R.reverse) C hequal.reverse hP hm.reverse h₂ h₁ hhalts
  exact ⟨r, m₁', hhalts', hr.reverse, hm'.reverse⟩

end Machine

end FencedCode
