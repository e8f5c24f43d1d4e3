import FencedCode.Proofs.Machine.Coupling

/-!
# Calls do not see their callers

The body of a function runs in a frame directly inside the global one. Whatever it looks up or
assigns is found in a frame that the call has made, or in the global frame. So two calls of one
function end alike if their machines agree on the global frame, the input and the depth, even if
all other frames differ.

* `Twin` -- which frames of two trees correspond: the global ones, and those made since;
* `Scopes.Twins`, `Machine.Twins` -- trees and machines whose corresponding frames bind the same;
* `twins_coupling` -- **twin machines stay twins and see the same**;
* `apply_ignores_caller` -- what a call does depends on the globals, the input and the depth only.
-/

namespace FencedCode

open Exec Machine

/-! ## 1. Frames that correspond -/

/-- Frame `i` of one tree and frame `j` of another correspond: both are the global one, or they
    come equally far behind the frames `b₁` and `b₂`. -/
def Twin (b₁ b₂ i j : Nat) : Prop :=
  (i = 0 ∧ j = 0) ∨ ∃ k, i = b₁ + k ∧ j = b₂ + k

/-- Frames that bind the same and stand inside frames that correspond. -/
structure Frame.Twins (b₁ b₂ : Nat) (f g : Frame) : Prop where
  bindings : f.bindings = g.bindings
  parent : Option.Rel (Twin b₁ b₂) f.parent g.parent

/-- Trees whose corresponding frames are twins. Behind the frame `b₁`, a frame stands inside an
    earlier one. -/
structure Scopes.Twins (b₁ b₂ : Nat) (s t : Scopes) : Prop where
  pos : 0 < b₁ ∧ 0 < b₂
  size : ∃ k, s.size = b₁ + k ∧ t.size = b₂ + k
  root : s.parent? 0 = none
  frame {i j : Nat} : Twin b₁ b₂ i j → Option.Rel (Frame.Twins b₁ b₂) (s.frame? i) (t.frame? j)
  inward {k p : Nat} : s.parent? (b₁ + k) = some p → p < b₁ + k

section Twin

variable {b₁ b₂ i j i' j' : Nat}

theorem Twin.eq_iff (hpos : 0 < b₁ ∧ 0 < b₂) (hij : Twin b₁ b₂ i j) (hij' : Twin b₁ b₂ i' j') :
    i = i' ↔ j = j' := by
  rcases hij with ⟨rfl, rfl⟩ | ⟨k, rfl, rfl⟩ <;> rcases hij' with ⟨rfl, rfl⟩ | ⟨k', rfl, rfl⟩ <;>
    omega

/-- A name that is bound in one of two twins is bound in the other. -/
theorem Frame.Twins.get? {f g : Frame} (hfg : f.Twins b₁ b₂ g) (name : Text) :
    f.get? name = g.get? name := by
  unfold Frame.get?
  rw [hfg.bindings]

theorem Frame.Twins.put {f g : Frame} (hfg : f.Twins b₁ b₂ g) (name : Text) (b : Binding) :
    (f.put name b).Twins b₁ b₂ (g.put name b) := by
  refine ⟨?_, hfg.parent⟩
  show putInto name b f.bindings = putInto name b g.bindings
  rw [hfg.bindings]

end Twin

/-! ## 2. Trees that correspond -/

namespace Scopes.Twins

variable {b₁ b₂ i j : Nat} {s t : Scopes}

theorem get? (hst : s.Twins b₁ b₂ t) (hij : Twin b₁ b₂ i j) (name : Text) :
    s.get? i name = t.get? j name := by
  have hframe := hst.frame hij
  rw [get?_eq_bind_frame?, get?_eq_bind_frame?]
  generalize s.frame? i = f? at hframe ⊢
  generalize t.frame? j = g? at hframe ⊢
  rcases hframe with hfg | _
  · exact hfg.get? name
  · rfl

theorem parent? (hst : s.Twins b₁ b₂ t) (hij : Twin b₁ b₂ i j) :
    Option.Rel (Twin b₁ b₂) (s.parent? i) (t.parent? j) := by
  have hframe := hst.frame hij
  rw [parent?_eq_bind_frame?, parent?_eq_bind_frame?]
  generalize s.frame? i = f? at hframe ⊢
  generalize t.frame? j = g? at hframe ⊢
  rcases hframe with hfg | _
  · exact hfg.parent
  · exact .none

/-- Around the twin of an outermost frame there is no frame either. -/
theorem parent?_eq_none (hst : s.Twins b₁ b₂ t) (hij : Twin b₁ b₂ i j)
    (hs : s.parent? i = none) : t.parent? j = none := by
  have hparent := hst.parent? hij
  rw [hs] at hparent
  cases ht : t.parent? j with
  | none => rfl
  | some q =>
    rw [ht] at hparent
    cases hparent

/-- In the global frame the search for a name ends. -/
theorem resolveFrom_zero (hst : s.Twins b₁ b₂ t) (name : Text) (n₁ n₂ : Nat) :
    Option.Rel (Twin b₁ b₂) (s.resolveFrom name (n₁ + 1) 0) (t.resolveFrom name (n₂ + 1) 0) := by
  have hglobal : Twin b₁ b₂ 0 0 := .inl ⟨rfl, rfl⟩
  have hroot : t.parent? 0 = none := hst.parent?_eq_none hglobal hst.root
  rw [resolveFrom_succ, resolveFrom_succ, ← hst.get? hglobal name, hst.root, hroot]
  by_cases hb : (s.get? 0 name).isSome
  · rw [if_pos hb, if_pos hb]
    exact .some hglobal
  · rw [if_neg hb, if_neg hb]
    exact .none

/-- From twin frames a name is found in twin frames, however much fuel beyond the number of the
    frames on the way the two searches have. -/
theorem resolveFrom_inner (hst : s.Twins b₁ b₂ t) (name : Text) : ∀ (k n₁ n₂ : Nat),
    k + 2 ≤ n₁ → k + 2 ≤ n₂ →
    Option.Rel (Twin b₁ b₂) (s.resolveFrom name n₁ (b₁ + k)) (t.resolveFrom name n₂ (b₂ + k)) := by
  intro k
  induction k using Nat.strongRecOn with
  | ind k ih =>
    intro n₁ n₂ h₁ h₂
    obtain ⟨n₁, rfl⟩ : ∃ n, n₁ = n + 1 := ⟨n₁ - 1, by omega⟩
    obtain ⟨n₂, rfl⟩ : ∃ n, n₂ = n + 1 := ⟨n₂ - 1, by omega⟩
    have htwin : Twin b₁ b₂ (b₁ + k) (b₂ + k) := .inr ⟨k, rfl, rfl⟩
    rw [resolveFrom_succ, resolveFrom_succ, ← hst.get? htwin name]
    by_cases hb : (s.get? (b₁ + k) name).isSome
    · rw [if_pos hb, if_pos hb]
      exact .some htwin
    · rw [if_neg hb, if_neg hb]
      cases hp : s.parent? (b₁ + k) with
      | none =>
        rw [hst.parent?_eq_none htwin hp]
        exact .none
      | some p =>
        have hlt := hst.inward hp
        have hparent := hst.parent? htwin
        rw [hp] at hparent
        rcases hq : t.parent? (b₂ + k) with _ | q
        · rw [hq] at hparent
          cases hparent
        · rw [hq] at hparent
          rcases Option.rel_some_some.mp hparent with ⟨rfl, rfl⟩ | ⟨k', rfl, rfl⟩
          · obtain ⟨n₁, rfl⟩ : ∃ n, n₁ = n + 1 := ⟨n₁ - 1, by omega⟩
            obtain ⟨n₂, rfl⟩ : ∃ n, n₂ = n + 1 := ⟨n₂ - 1, by omega⟩
            exact hst.resolveFrom_zero name n₁ n₂
          · exact ih k' (by omega) n₁ n₂ (by omega) (by omega)

/-- **From twin frames a name is found in twin frames.** -/
theorem resolve (hst : s.Twins b₁ b₂ t) (hij : Twin b₁ b₂ i j) (name : Text) :
    Option.Rel (Twin b₁ b₂) (s.resolve i name) (t.resolve j name) := by
  have hpos := hst.pos
  rcases hij with ⟨rfl, rfl⟩ | ⟨k, rfl, rfl⟩
  · exact hst.resolveFrom_zero name 0 0
  · exact hst.resolveFrom_inner name k _ _ (by omega) (by omega)

theorem find (hst : s.Twins b₁ b₂ t) (hij : Twin b₁ b₂ i j) (name : Token) :
    s.find i name = t.find j name := by
  have hlookup : s.lookup i name.lexeme = t.lookup j name.lexeme := by
    unfold lookup
    rcases hk : s.resolve i name.lexeme with _ | k <;>
      rcases hl : t.resolve j name.lexeme with _ | l
    all_goals
      have hrel := hst.resolve hij name.lexeme
      rw [hk, hl] at hrel
      cases hrel
    · rfl
    · rename_i hkl
      exact hst.get? hkl name.lexeme
  unfold Scopes.find
  rw [hlookup]

/-! What is done to frames that correspond leaves frames that correspond. -/

theorem set (hst : s.Twins b₁ b₂ t) (hij : Twin b₁ b₂ i j) (name : Text) (b : Binding) :
    (s.set i name b).Twins b₁ b₂ (t.set j name b) := by
  refine ⟨hst.pos, ?_, ?_, fun {i' j'} hij' => ?_, fun {k p} hp => ?_⟩
  · rw [size_set, size_set]
    exact hst.size
  · rw [parent?_set]
    exact hst.root
  · rw [frame?_set, frame?_set]
    by_cases hself : i' = i
    · rw [if_pos hself, if_pos ((Twin.eq_iff hst.pos hij' hij).mp hself)]
      have hframe := hst.frame hij'
      generalize s.frame? i' = f? at hframe ⊢
      generalize t.frame? j' = g? at hframe ⊢
      rcases hframe with hfg | _
      · exact .some (hfg.put name b)
      · exact .none
    · rw [if_neg hself, if_neg fun h => hself ((Twin.eq_iff hst.pos hij' hij).mpr h)]
      exact hst.frame hij'
  · rw [parent?_set] at hp
    exact hst.inward hp

theorem define (hst : s.Twins b₁ b₂ t) (hij : Twin b₁ b₂ i j) (name : Text) (b : Binding) :
    (s.define i name b).1 = (t.define j name b).1 ∧
      (s.define i name b).2.Twins b₁ b₂ (t.define j name b).2 := by
  unfold Scopes.define
  rw [bindsHere_eq_isSome, bindsHere_eq_isSome, ← hst.get? hij name]
  by_cases hb : (s.get? i name).isSome
  · rw [if_pos hb, if_pos hb]
    exact ⟨rfl, hst⟩
  · rw [if_neg hb, if_neg hb]
    exact ⟨rfl, hst.set hij name b⟩

/-- An assignment fails in both trees, for the same reason, or succeeds in both. -/
theorem assign (hst : s.Twins b₁ b₂ t) (hij : Twin b₁ b₂ i j) (name : Token) (v : Value) :
    (∃ f, s.assign i name v = .error f ∧ t.assign j name v = .error f) ∨
      ∃ s' t', s.assign i name v = .ok s' ∧ t.assign j name v = .ok t' ∧ s'.Twins b₁ b₂ t' := by
  unfold Scopes.assign
  have hrel := hst.resolve hij name.lexeme
  rcases hk : s.resolve i name.lexeme with _ | k <;> rcases hl : t.resolve j name.lexeme with _ | l
  all_goals
    rw [hk, hl] at hrel
    cases hrel
  · exact .inl ⟨_, rfl, rfl⟩
  · rename_i hkl
    have hget := hst.get? hkl name.lexeme
    rw [Scopes.get?, Scopes.get?] at hget
    dsimp only
    rw [← hget]
    rcases s.frames[k]?.bind fun f => f.get? name.lexeme with _ | b
    · exact .inl ⟨_, rfl, rfl⟩
    · dsimp only
      by_cases hmut : (!b.isMutable) = true
      · rw [if_pos hmut, if_pos hmut]
        exact .inl ⟨_, rfl, rfl⟩
      · rw [if_neg hmut, if_neg hmut]
        by_cases htype : v.type ≠ b.type
        · rw [if_pos htype, if_pos htype]
          exact .inl ⟨_, rfl, rfl⟩
        · rw [if_neg htype, if_neg htype]
          exact .inr ⟨_, _, rfl, rfl, hst.set hkl _ _⟩

/-- The frames made last correspond. -/
theorem twin_size (hst : s.Twins b₁ b₂ t) : Twin b₁ b₂ s.size t.size := by
  obtain ⟨k, hs, ht⟩ := hst.size
  exact .inr ⟨k, hs, ht⟩

theorem push (hst : s.Twins b₁ b₂ t) {f g : Frame} (hfg : f.Twins b₁ b₂ g)
    (hin : ∀ p, f.parent = some p → p < s.size) : (s.push f).Twins b₁ b₂ (t.push g) := by
  obtain ⟨k, hs, ht⟩ := hst.size
  have hpos := hst.pos
  refine ⟨hpos, ⟨k + 1, ?_, ?_⟩, ?_, fun {i' j'} hij' => ?_, fun {k' p} hp => ?_⟩
  · rw [size_push, hs]
    rfl
  · rw [size_push, ht]
    rfl
  · rw [parent?_push, if_neg (by omega)]
    exact hst.root
  · rw [frame?_push_ite, frame?_push_ite]
    by_cases hself : i' = s.size
    · rw [if_pos hself, if_pos ((Twin.eq_iff hpos hij' hst.twin_size).mp hself)]
      exact .some hfg
    · rw [if_neg hself, if_neg fun h => hself ((Twin.eq_iff hpos hij' hst.twin_size).mpr h)]
      exact hst.frame hij'
  · rw [parent?_push] at hp
    split at hp
    · rename_i hself
      rw [hself]
      exact hin p hp
    · exact hst.inward hp

/-- A frame made since is dropped in both trees. -/
theorem pop (hst : s.Twins b₁ b₂ t) {k : Nat} (hs : s.size = b₁ + k + 1)
    (ht : t.size = b₂ + k + 1) : s.pop.Twins b₁ b₂ t.pop := by
  have hpos := hst.pos
  refine ⟨hpos, ⟨k, ?_, ?_⟩, ?_, fun {i' j'} hij' => ?_, fun {k' p} hp => ?_⟩
  · rw [size_pop, hs]
    rfl
  · rw [size_pop, ht]
    rfl
  · rw [parent?_pop _ (by omega)]
    exact hst.root
  · rw [frame?_pop_ite, frame?_pop_ite]
    have hboth : i' < s.size - 1 ↔ j' < t.size - 1 := by
      rcases hij' with ⟨rfl, rfl⟩ | ⟨k', rfl, rfl⟩ <;> omega
    by_cases hlt : i' < s.size - 1
    · rw [if_pos hlt, if_pos (hboth.mp hlt)]
      exact hst.frame hij'
    · rw [if_neg hlt, if_neg fun h => hlt (hboth.mpr h)]
      exact .none
  · by_cases hlt : b₁ + k' < s.size - 1
    · rw [parent?_pop _ hlt] at hp
      exact hst.inward hp
    · rw [parent?_eq_none_of_size_le (by rw [size_pop]; omega)] at hp
      cases hp

end Scopes.Twins

/-! ## 3. Machines that correspond -/

/-- Machines that differ in frames which a call cannot reach, in what was written before it, which
    is `o₁` and `o₂`, and in what they record. -/
structure Machine.Twins (b₁ b₂ t₁ t₂ : Nat) (o₁ o₂ : List Text) (m₁ m₂ : Machine) : Prop where
  scopes : m₁.scopes.Twins b₁ b₂ m₂.scopes
  scope : Twin b₁ b₂ m₁.scope m₂.scope
  /-- The current frame exists. -/
  current : m₁.scope < m₁.scopes.size
  input : m₁.input = m₂.input
  depth : m₁.depth = m₂.depth
  /-- Both looked at the clock equally often, after `t₁` and `t₂` times. -/
  ticks : ∃ k, m₁.ticks = t₁ + k ∧ m₂.ticks = t₂ + k
  output : ∃ ts, m₁.output = ts ++ o₁ ∧ m₂.output = ts ++ o₂

namespace Machine.Twins

variable {b₁ b₂ t₁ t₂ : Nat} {o₁ o₂ : List Text} {m₁ m₂ : Machine} {h₁ h₂ : Host}

/-- What is recorded may differ. -/
theorem log (hm : m₁.Twins b₁ b₂ t₁ t₂ o₁ o₂ m₂) (e₁ e₂ : Event) :
    (m₁.log h₁ e₁).Twins b₁ b₂ t₁ t₂ o₁ o₂ (m₂.log h₂ e₂) := by
  unfold Machine.log
  split <;> split <;>
    exact ⟨hm.scopes, hm.scope, hm.current, hm.input, hm.depth, hm.ticks, hm.output⟩

theorem write (hm : m₁.Twins b₁ b₂ t₁ t₂ o₁ o₂ m₂) (t : Text) :
    (m₁.write t).Twins b₁ b₂ t₁ t₂ o₁ o₂ (m₂.write t) := by
  obtain ⟨ts, h₁, h₂⟩ := hm.output
  refine ⟨hm.scopes, hm.scope, hm.current, hm.input, hm.depth, hm.ticks, t :: ts, ?_, ?_⟩
  · exact congrArg (t :: ·) h₁
  · exact congrArg (t :: ·) h₂

theorem withScopes (hm : m₁.Twins b₁ b₂ t₁ t₂ o₁ o₂ m₂) {s t : Scopes} (hst : s.Twins b₁ b₂ t)
    (hsize : s.size = m₁.scopes.size) :
    Twins b₁ b₂ t₁ t₂ o₁ o₂ { m₁ with scopes := s } { m₂ with scopes := t } := by
  refine ⟨hst, hm.scope, ?_, hm.input, hm.depth, hm.ticks, hm.output⟩
  rw [hsize]
  exact hm.current

theorem enter (hm : m₁.Twins b₁ b₂ t₁ t₂ o₁ o₂ m₂) {f g : Frame} (hfg : f.Twins b₁ b₂ g)
    (hin : ∀ p, f.parent = some p → p < m₁.scopes.size) :
    (m₁.enter h₁ f).Twins b₁ b₂ t₁ t₂ o₁ o₂ (m₂.enter h₂ g) := by
  unfold Machine.enter
  have hpushed : Twins b₁ b₂ t₁ t₂ o₁ o₂
      { m₁ with scopes := m₁.scopes.push f, scope := m₁.scopes.size }
      { m₂ with scopes := m₂.scopes.push g, scope := m₂.scopes.size } := by
    refine ⟨hm.scopes.push hfg hin, hm.scopes.twin_size, ?_, hm.input, hm.depth, hm.ticks,
      hm.output⟩
    rw [Scopes.size_push]
    exact Nat.lt_succ_self _
  exact log hpushed _ _

theorem leave {m₁' m₂' : Machine} (hm : m₁.Twins b₁ b₂ t₁ t₂ o₁ o₂ m₂)
    (hm' : m₁'.Twins b₁ b₂ t₁ t₂ o₁ o₂ m₂') (hsize₁ : m₁'.scopes.size = m₁.scopes.size + 1)
    (hsize₂ : m₂'.scopes.size = m₂.scopes.size + 1) :
    (m₁'.leave h₁ m₁.scope).Twins b₁ b₂ t₁ t₂ o₁ o₂ (m₂'.leave h₂ m₂.scope) := by
  unfold Machine.leave
  obtain ⟨k, hs, ht⟩ := hm.scopes.size
  have hcurrent := hm.current
  have hpopped : Twins b₁ b₂ t₁ t₂ o₁ o₂ { m₁' with scopes := m₁'.scopes.pop, scope := m₁.scope }
      { m₂' with scopes := m₂'.scopes.pop, scope := m₂.scope } := by
    refine ⟨hm'.scopes.pop (k := k) (by omega) (by omega), hm.scope, ?_, hm'.input, hm'.depth,
      hm'.ticks, hm'.output⟩
    show m₁.scope < m₁'.scopes.pop.size
    rw [Scopes.size_pop]
    omega
  exact log hpopped _ _

end Machine.Twins

/-- **Twin machines stay twins**, and whatever a run looks at is the same in both. -/
theorem twins_coupling {h₁ h₂ : Host} {t₁ t₂ : Nat}
    (hclock : ∀ k, h₁.clockMillis.reading (t₁ + k) = h₂.clockMillis.reading (t₂ + k))
    (hlimit : h₁.limit = h₂.limit) (b₁ b₂ : Nat) (o₁ o₂ : List Text) :
    Coupling h₁ h₂ (Machine.Twins b₁ b₂ t₁ t₂ o₁ o₂) where
  tick {m₁ m₂} hm := by
    obtain ⟨k, h₁, h₂⟩ := hm.ticks
    refine ⟨?_, hm.scopes, hm.scope, hm.current, hm.input, hm.depth, ⟨k + 1, ?_, ?_⟩, hm.output⟩
    · rw [h₁, h₂, hclock k]
    · exact congrArg (· + 1) h₁
    · exact congrArg (· + 1) h₂
  limit hm := by rw [hlimit, hm.depth]
  write t hm := hm.write t
  probe _ hm := ⟨hm.scopes, hm.scope, hm.current, hm.input, hm.depth, hm.ticks, hm.output⟩
  log e hm := hm.log e e
  read m₁ m₂ hm := by
    unfold Exec.readLine
    rw [hm.input]
    exact ⟨rfl, hm.scopes, hm.scope, hm.current, rfl, hm.depth, hm.ticks, hm.output⟩
  value name m₁ m₂ hm := by
    unfold getValue
    rw [hm.scopes.find hm.scope name]
    cases m₂.scopes.find m₂.scope name with
    | error f => exact ⟨rfl, hm⟩
    | ok b => exact ⟨rfl, hm⟩
  assign name v m₁ m₂ hm := by
    unfold Exec.assign
    rcases hm.scopes.assign hm.scope name v with ⟨f, h₁, h₂⟩ | ⟨s, t, h₁, h₂, hst⟩
    · rw [h₁, h₂]
      exact ⟨rfl, hm⟩
    · obtain ⟨k, b, _, _, _, _, hset⟩ := Scopes.assign_ok h₁
      rw [h₁, h₂]
      exact ⟨rfl, hm.withScopes hst (by rw [hset, Scopes.size_set])⟩
  declare type name v isMutable m₁ m₂ hm := by
    obtain ⟨hfresh, hst⟩ := hm.scopes.define hm.scope name.lexeme ⟨.base type, v, isMutable⟩
    have hsize : (m₁.scopes.define m₁.scope name.lexeme ⟨.base type, v, isMutable⟩).2.size =
        m₁.scopes.size := by
      rw [Scopes.define_snd]
      split
      · rfl
      · exact Scopes.size_set ..
    have hdefined := hm.withScopes hst hsize
    unfold Machine.declare
    dsimp only
    rw [← hfresh]
    split
    · exact ⟨rfl, hdefined⟩
    · exact ⟨rfl, hdefined.log _ _⟩
  function f m₁ m₂ hm := by
    unfold declareFunction
    dsimp only
    rw [Scopes.bindsHere_eq_isSome, Scopes.bindsHere_eq_isSome, ← hm.scopes.get? hm.scope]
    have hset {m₁ m₂ : Machine} (hm : m₁.Twins b₁ b₂ t₁ t₂ o₁ o₂ m₂) (b : Binding) :=
      hm.withScopes (hm.scopes.set hm.scope f.name.lexeme b) (Scopes.size_set ..)
    split
    · exact ⟨rfl, hset (hm.log _ _) _⟩
    · exact ⟨rfl, hset hm _⟩
  enterBlock {m₁ m₂} hm := by
    refine hm.enter ⟨rfl, .some hm.scope⟩ fun p hp => ?_
    cases hp
    exact hm.current
  enterCall {m₁ m₂ frame} hparent hm := by
    have hdeeper : m₁.descend.Twins b₁ b₂ t₁ t₂ o₁ o₂ m₂.descend :=
      ⟨hm.scopes, hm.scope, hm.current, hm.input, congrArg (· + 1) hm.depth, hm.ticks, hm.output⟩
    refine hdeeper.enter ⟨rfl, ?_⟩ fun p hp => ?_
    · rw [hparent]
      exact .some (.inl ⟨rfl, rfl⟩)
    · rw [hparent] at hp
      cases hp
      exact Nat.lt_of_le_of_lt (Nat.zero_le _) hm.current
  leave hm hm' hsize₁ hsize₂ := hm.leave hm' hsize₁ hsize₂
  ascend hm :=
    ⟨hm.scopes, hm.scope, hm.current, hm.input, congrArg (· - 1) hm.depth, hm.ticks, hm.output⟩

/-! ## 4. Calls -/

namespace Machine

/-- Machines with the same frames, the same input and the same output. -/
structure SameStore (m₁ m₂ : Machine) : Prop where
  scopes : m₁.scopes = m₂.scopes
  input : m₁.input = m₂.input
  output : m₁.output = m₂.output

/-- A machine is left with the same store, wherever it returns to. -/
theorem SameStore.leave (m : Machine) (h : Host) (i j : Nat) :
    SameStore (m.leave h i).ascend (m.leave h j).ascend := by
  unfold Machine.leave Machine.log
  split <;> exact ⟨rfl, rfl, rfl⟩

/-- The frame from which a function is called is not looked at. -/
theorem call_ignores_scope (h : Host) (n : Nat) (f : Function) (args : List Value) (m : Machine)
    (i : Nat) :
    (call h n f args { m with scope := i }).1 = (call h n f args m).1 ∧
      SameStore (call h n f args { m with scope := i }).2 (call h n f args m).2 := by
  cases n with
  | zero => exact ⟨rfl, rfl, rfl, rfl⟩
  | succ n =>
    by_cases hdepth : h.limit ≤ m.depth
    · rw [call_of_limit hdepth, call_of_limit (show h.limit ≤ Machine.depth { m with scope := i }
        from hdepth)]
      exact ⟨rfl, rfl, rfl, rfl⟩
    · have hdepth' : ¬ h.limit ≤ Machine.depth { m with scope := i } := hdepth
      cases hb : bindParams f.params args ⟨some 0, []⟩ with
      | error c =>
        rw [call_of_mismatch hdepth hb, call_of_mismatch hdepth' hb]
        exact ⟨rfl, rfl, rfl, rfl⟩
      | ok frame =>
        rw [call_fst hdepth hb, call_fst hdepth' hb, call_snd hdepth hb, call_snd hdepth' hb]
        -- both bodies start in one machine; only where they return to differs
        exact ⟨rfl, SameStore.leave _ h i m.scope⟩

/-- What calling a declared function comes to. -/
theorem apply_user (h : Host) (n : Nat) (f : Function) (copy : Nat) (args : List Value)
    (m : Machine) :
    apply h (n + 1) (.function (some (.user f copy))) args m =
      if args.length = f.params.length then
        call h n f args (m.log h (.call f.name.lexeme args.length))
      else unplaced (.arity f.params.length args.length) m := by
  have harity : (args.length : Int) ≠ (Callable.user f copy).arity ↔
      args.length ≠ f.params.length := not_congr Int.ofNat_inj
  simp only [apply, Value.callable?]
  by_cases hlength : args.length = f.params.length
  · rw [if_pos hlength, if_neg fun hne => harity.mp hne hlength]
    rfl
  · rw [if_neg hlength, if_pos (harity.mpr hlength)]
    rfl

/-- Machines that a call cannot tell apart: they agree on the global frame, the input that is left
    and the number of calls under way. -/
structure SameToCalls (m₁ m₂ : Machine) : Prop where
  hasGlobal : m₁.HasGlobal
  global : m₁.scopes.frame? 0 = m₂.scopes.frame? 0
  input : m₁.input = m₂.input
  depth : m₁.depth = m₂.depth

theorem SameToCalls.log {m₁ m₂ : Machine} (hm : m₁.SameToCalls m₂) (h₁ h₂ : Host) (e : Event) :
    (m₁.log h₁ e).SameToCalls (m₂.log h₂ e) := by
  unfold Machine.log
  split <;> split <;> exact ⟨hm.hasGlobal, hm.global, hm.input, hm.depth⟩

theorem log_written (m : Machine) (h : Host) (e : Event) : (m.log h e).written = m.written := by
  unfold Machine.log
  split <;> rfl

end Machine

variable {h₁ h₂ : Host} {m₁ m₂ : Machine}

/-- Of trees with the same global frame, that frame and those still to come correspond. -/
theorem Machine.SameToCalls.scopes_twins (hm : m₁.SameToCalls m₂) :
    m₁.scopes.Twins m₁.scopes.size m₂.scopes.size m₂.scopes := by
  obtain ⟨hsize, hroot⟩ := hm.hasGlobal
  obtain ⟨g, hg⟩ : ∃ g, m₁.scopes.frame? 0 = some g := ⟨_, Array.getElem?_eq_getElem hsize⟩
  have hparent : g.parent = none := by
    rw [Scopes.parent?_eq_bind_frame?, hg] at hroot
    exact hroot
  have hsize₂ : 0 < m₂.scopes.size := by
    refine Nat.pos_of_ne_zero fun hzero => ?_
    have hnone : m₂.scopes.frame? 0 = none := Array.getElem?_eq_none (Nat.le_of_eq hzero)
    rw [hm.global, hnone] at hg
    cases hg
  refine ⟨⟨hsize, hsize₂⟩, ⟨0, rfl, rfl⟩, hroot, fun {i j} hij => ?_, fun {k p} hp => ?_⟩
  · rcases hij with ⟨rfl, rfl⟩ | ⟨k, rfl, rfl⟩
    · rw [← hm.global, hg]
      refine .some ⟨rfl, ?_⟩
      rw [hparent]
      exact .none
    · have hnone (s : Scopes) : s.frame? (s.size + k) = none :=
        Array.getElem?_eq_none (Nat.le_add_right _ _)
      rw [hnone, hnone]
      exact .none
  · rw [Scopes.parent?_eq_none_of_size_le (Nat.le_add_right _ _)] at hp
    cases hp

/-- Seen from the global frame, machines that a call cannot tell apart are twins. -/
theorem Machine.SameToCalls.twins (hm : m₁.SameToCalls m₂) :
    Machine.Twins m₁.scopes.size m₂.scopes.size m₁.ticks m₂.ticks m₁.output m₂.output
      { m₁ with scope := 0 } { m₂ with scope := 0 } :=
  ⟨hm.scopes_twins, .inl ⟨rfl, rfl⟩, hm.hasGlobal.1, hm.input, hm.depth,
    ⟨0, rfl, rfl⟩, [], rfl, rfl⟩

/-- Twins have the same global frame. -/
theorem Scopes.Twins.global {b₁ b₂ : Nat} {s t : Scopes} (hst : s.Twins b₁ b₂ t) :
    s.frame? 0 = t.frame? 0 := by
  have hglobal : Twin b₁ b₂ 0 0 := .inl ⟨rfl, rfl⟩
  have hframe := hst.frame hglobal
  have hroot := hst.root
  have hroot' := hst.parent?_eq_none hglobal hst.root
  rw [parent?_eq_bind_frame?] at hroot hroot'
  generalize s.frame? 0 = f? at hframe hroot ⊢
  generalize t.frame? 0 = g? at hframe hroot' ⊢
  rcases hframe with hfg | _
  · rename_i f g
    obtain ⟨fparent, fbindings⟩ := f
    obtain ⟨gparent, gbindings⟩ := g
    obtain rfl : fparent = none := hroot
    obtain rfl : gparent = none := hroot'
    obtain rfl : fbindings = gbindings := hfg.bindings
    rfl
  · rfl

/-- Twins wrote the same after what they had written before. -/
theorem Machine.Twins.written {b₁ b₂ t₁ t₂ : Nat} {m m' : Machine}
    (hm : m₁.Twins b₁ b₂ t₁ t₂ m.output m'.output m₂) :
    ∃ t, m₁.written = m.written ++ t ∧ m₂.written = m'.written ++ t := by
  obtain ⟨ts, h₁, h₂⟩ := hm.output
  refine ⟨ts.reverse.flatten, ?_, ?_⟩
  · rw [Machine.written, h₁, List.reverse_append, List.flatten_append]
    rfl
  · rw [Machine.written, h₂, List.reverse_append, List.flatten_append]
    rfl

/-- The body of a call, and all that it calls, stays among twins. -/
theorem call_ignores_caller
    (hclock : ∀ k, h₁.clockMillis.reading (m₁.ticks + k) = h₂.clockMillis.reading (m₂.ticks + k))
    (hlimit : h₁.limit = h₂.limit) (hm : m₁.SameToCalls m₂) (n : Nat) (f : Function)
    (args : List Value) :
    let end₁ := call h₁ n f args m₁
    let end₂ := call h₂ n f args m₂
    end₁.1 = end₂.1 ∧ end₁.2.input = end₂.2.input ∧
      end₁.2.scopes.frame? 0 = end₂.2.scopes.frame? 0 ∧
      ∃ t, end₁.2.written = m₁.written ++ t ∧ end₂.2.written = m₂.written ++ t := by
  intro end₁ end₂
  have hcoupling := twins_coupling hclock hlimit m₁.scopes.size m₂.scopes.size m₁.output m₂.output
  obtain ⟨hresult, htwins⟩ := (hcoupling.holds n).call f args hm.twins
  obtain ⟨hresult₁, hstore₁⟩ := call_ignores_scope h₁ n f args m₁ 0
  obtain ⟨hresult₂, hstore₂⟩ := call_ignores_scope h₂ n f args m₂ 0
  refine ⟨?_, ?_, ?_, ?_⟩
  · exact hresult₁.symm.trans (hresult.trans hresult₂)
  · exact hstore₁.input.symm.trans (htwins.input.trans hstore₂.input)
  · rw [← hstore₁.scopes, ← hstore₂.scopes]
    exact htwins.scopes.global
  · obtain ⟨t, ht₁, ht₂⟩ := htwins.written
    refine ⟨t, ?_, ?_⟩
    · rw [← ht₁, Machine.written, Machine.written, hstore₁.output]
    · rw [← ht₂, Machine.written, Machine.written, hstore₂.output]

/-- **A call does not depend on its caller.** Two machines agree on the global frame, the input and
    the depth, under hosts with the same limit of nesting whose clocks will show the same times.
    Then a call of one declared function with the same arguments yields in both the same value or
    the same failure, leaves the same input and the same global frame, and adds the same text to
    the output. -/
theorem apply_ignores_caller
    (hclock : ∀ k, h₁.clockMillis.reading (m₁.ticks + k) = h₂.clockMillis.reading (m₂.ticks + k))
    (hlimit : h₁.limit = h₂.limit) (hm : m₁.SameToCalls m₂) (n : Nat) (f : Function)
    (copy₁ copy₂ : Nat) (args : List Value) :
    let end₁ := apply h₁ n (.function (some (.user f copy₁))) args m₁
    let end₂ := apply h₂ n (.function (some (.user f copy₂))) args m₂
    end₁.1 = end₂.1 ∧ end₁.2.input = end₂.2.input ∧
      end₁.2.scopes.frame? 0 = end₂.2.scopes.frame? 0 ∧
      ∃ t, end₁.2.written = m₁.written ++ t ∧ end₂.2.written = m₂.written ++ t := by
  have unchanged : ∃ t, m₁.written = m₁.written ++ t ∧ m₂.written = m₂.written ++ t :=
    ⟨[], (List.append_nil _).symm, (List.append_nil _).symm⟩
  cases n with
  | zero => exact ⟨rfl, hm.input, hm.global, unchanged⟩
  | succ n =>
    dsimp only
    rw [apply_user, apply_user]
    by_cases hlength : args.length = f.params.length
    · rw [if_pos hlength, if_pos hlength]
      have hlogged := hm.log h₁ h₂ (.call f.name.lexeme args.length)
      have hcall := call_ignores_caller (fun k => by rw [log_ticks, log_ticks, hclock k]) hlimit
        hlogged n f args
      rw [log_written, log_written] at hcall
      exact hcall
    · rw [if_neg hlength, if_neg hlength]
      exact ⟨rfl, hm.input, hm.global, unchanged⟩

/-- A function that returns what the name `counter` stands for. -/
def counterReader : Function :=
  let counter : Token := ⟨.identifier, utf8 "counter", none, .start⟩
  ⟨⟨.identifier, utf8 "readGlobal", none, .start⟩, [],
   [.ret ⟨.kwReturn, utf8 "RETURN", none, .start⟩ (some (.ref counter))],
   some ⟨.int, ⟨.type .int, utf8 "INT", none, .start⟩⟩⟩

/-- A machine whose global `counter` is 42. -/
def countingMachine : Machine :=
  { Machine.bare .empty with
    scopes := Scopes.initial.set 0 (utf8 "counter") ⟨.base .int, .int 42, true⟩ }

/-- The same machine inside a block that has a `counter` of its own. -/
def shadowedMachine : Machine :=
  { countingMachine with
    scopes := countingMachine.scopes.push ⟨some 0, [(utf8 "counter", ⟨.base .int, .int 7, true⟩)]⟩
    scope := 1 }

/-- Called from the block, the function sees the global `counter` as it does from outside. -/
theorem counterReader_ignores_block :
    (apply {} 9 (.function (some (.user counterReader 0))) [] shadowedMachine).1.toOption.map
      Value.text = some (utf8 "42") := by
  have hsame : countingMachine.SameToCalls shadowedMachine :=
    ⟨⟨by decide, rfl⟩, rfl, rfl, rfl⟩
  have hclock (k : Nat) : ({} : Host).clockMillis.reading (countingMachine.ticks + k) =
      ({} : Host).clockMillis.reading (shadowedMachine.ticks + k) := rfl
  have hlimit : ({} : Host).limit = ({} : Host).limit := rfl
  have hcall := (apply_ignores_caller hclock hlimit hsame 9 counterReader 0 0 []).1
  rw [← hcall]
  decide +kernel

end FencedCode
