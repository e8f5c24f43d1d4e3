import FencedCode.Proofs.Machine.FrameProperty
import FencedCode.Proofs.Machine.Held
import FencedCode.Proofs.Machine.Likeness

/-!
# Functions are known by their names

Programs pass functions around in few ways. No variable holds one and no call returns one, but for
the native `probe`, which returns its argument. So a function that an expression yields is bound to
its own name where the expression stands, and stays so while the expression is evaluated. That is
why it does not matter for programs how functions are told apart: two of them that meet in a
comparison are the same if they have one name.

* `Binding.Named`, `Machine.Named` -- names that are bound to functions of that name only;
* `named_invariant` -- **every step of a run keeps machines so**;
* `Hosted` -- the machines that a host can make, all of which are so (`Hosted.named`);
* `knownAt` -- **the functions that expressions yield are known by their names**;
* `equalAlike_named` -- **what resembles each other compares alike**.
-/

namespace FencedCode

open Exec Machine

/-! ## 1. Names that functions bear -/

/-- A sound binding, and if it holds a function then one of the given name. -/
structure Binding.Named (name : Text) (b : Binding) : Prop extends Binding.Sound b where
  name_eq {c : Callable} : b.value = .function (some c) → c.name = name

namespace Binding.Named

variable {name : Text} {b : Binding}

/-- A variable bears any name. -/
theorem ofBase {t : BaseType} {v : Value} (isMutable : Bool)
    (hv : v = .null ∨ v.type = .base t) : Named name ⟨.base t, v, isMutable⟩ where
  toSound := .ofBase isMutable hv
  name_eq {c} hc := by
    have hnone := (Sound.ofBase isMutable hv).callable?_eq_none rfl
    rw [hc] at hnone
    cases hnone

theorem ofCallable (c : Callable) : Named c.name ⟨.function, .function (some c), false⟩ where
  toSound := .ofCallable c
  name_eq hc := by
    cases hc
    rfl

/-- What can be assigned is a variable. -/
theorem assign (hb : b.Named name) (hmut : b.isMutable = true) {v : Value}
    (hv : v.type = b.type) : Named name { b with value := v } where
  toSound := hb.toSound.assign hmut hv
  name_eq {c} hc := by
    obtain rfl : v = .function (some c) := hc
    rw [(hb.function hv.symm).1] at hmut
    cases hmut

/-- A binding that holds a function holds something to call, and cannot be assigned. -/
theorem of_function (hb : b.Named name) (hv : b.value.type = .function) :
    b.isMutable = false ∧ ∃ c, b.value = .function (some c) ∧ c.name = name := by
  rcases hb.declared with hf | ⟨t, ht⟩
  · obtain ⟨hmut, c, hc⟩ := hb.function hf
    exact ⟨hmut, c, hc, hb.name_eq hc⟩
  · rcases hb.base t ht with hnull | htype
    · rw [hnull] at hv
      cases hv
    · rw [htype] at hv
      cases hv

end Binding.Named

/-- The frame binds names to functions of that name only. -/
def Frame.Named (f : Frame) : Prop :=
  ∀ name b, f.get? name = some b → b.Named name

theorem Frame.named_empty (parent : Option Nat) : Named ⟨parent, []⟩ := by
  intro name b hb
  cases hb

/-- All frames bind names to functions of that name only. -/
def Scopes.Named (s : Scopes) : Prop :=
  ∀ i name b, s.get? i name = some b → b.Named name

namespace Scopes.Named

variable {s : Scopes}

theorem initial : Scopes.Named .initial :=
  fun i name b hb => False.elim (all_initial (P := fun _ => False) i name b hb)

theorem set (hs : s.Named) (i : Nat) {name : Text} {b : Binding} (hb : b.Named name) :
    (s.set i name b).Named := by
  intro j other c hc
  rw [get?_set] at hc
  split at hc
  · rename_i hother
    cases hc
    exact hother.2.1 ▸ hb
  · exact hs j other c hc

theorem push (hs : s.Named) {f : Frame} (hf : f.Named) : (s.push f).Named := by
  intro j name b hb
  rw [get?_push] at hb
  split at hb
  · exact hf name b hb
  · exact hs j name b hb

theorem pop (hs : s.Named) : s.pop.Named := by
  intro j name b hb
  rw [get?_pop] at hb
  split at hb
  · exact hs j name b hb
  · cases hb

theorem define (hs : s.Named) (i : Nat) {name : Text} {b : Binding} (hb : b.Named name) :
    (s.define i name b).2.Named := by
  rw [define_snd]
  split
  · exact hs
  · exact hs.set i hb

theorem assign (hs : s.Named) {s' : Scopes} {i : Nat} {name : Token} {v : Value}
    (ha : s.assign i name v = .ok s') : s'.Named := by
  obtain ⟨k, b, _, hb, hmut, htype, rfl⟩ := assign_ok ha
  exact hs.set k ((hs k _ b hb).assign hmut htype)

end Scopes.Named

namespace Machine

/-- Names are bound to functions of that name only. -/
def Named (m : Machine) : Prop :=
  m.scopes.Named

/-- The arguments of a call are no functions. -/
theorem named_of_bindParams {params : List Param} {args : List Value} {frame : Frame}
    (hb : bindParams params args ⟨some 0, []⟩ = .ok frame) : frame.Named := by
  have hall : frame.All fun b => ∀ name, b.Named name :=
    all_of_bindParams (fun _ _ hv _ => .ofBase true (.inr hv)) hb (Frame.all_empty _)
  exact fun name b hget => hall name b hget name

theorem stable_named : Scopes.Stable Scopes.Named where
  assign hs ha := hs.assign ha
  declare _ _ isMutable hs hv := hs.define _ (.ofBase isMutable hv)
  function _ f hs := hs.set _ (.ofCallable (.user f 0))
  block _ hs := hs.push (Frame.named_empty _)
  call hs hb := hs.push (named_of_bindParams hb)
  pop hs := hs.pop

/-- **Every step of a run keeps names bound to functions of that name.** -/
theorem named_invariant (h : Host) : Invariant h (fun m m' => m.Named → m'.Named)
    (fun m m' => m.Named → m'.Named) Named :=
  stable_named.invariant h

/-! ## 2. Machines that a host makes -/

/-- The machines that a host can make: a bare one, on which it provides natives and inputs, takes
    away what was written, runs programs and calls values. -/
inductive Hosted : Machine → Prop where
  | bare (input : Input) : Hosted (.bare input)
  | native {m : Machine} (n : Native) : Hosted m → Hosted (m.defineNative n)
  | provided {m : Machine} (input : Input) : Hosted m → Hosted { m with input }
  | drained {m : Machine} : Hosted m → Hosted m.drained
  | executed {m : Machine} (h : Host) (steps : Nat) (program : List Stmt) :
      Hosted m → Hosted (execute h steps program m).2
  | applied {m : Machine} (h : Host) (steps : Nat) (callee : Value) (args : List Value) :
      Hosted m → Hosted (apply h steps callee args m).2

theorem hosted_standard (input : Input) : Hosted (.standard input) := by
  have hfold : ∀ (ns : List Native) {m : Machine}, Hosted m → Hosted (ns.foldl defineNative m) := by
    intro ns
    induction ns with
    | nil => exact id
    | cons n ns ih => exact fun hm => ih (.native n hm)
  exact hfold Native.standard (.bare input)

/-- **All machines that a host makes bind functions to their names.** -/
theorem Hosted.named {m : Machine} (hm : Hosted m) : m.Named := by
  induction hm with
  | bare _ => exact Scopes.Named.initial
  | native n _ ih => exact Scopes.Named.define ih 0 (.ofCallable (.native n))
  | provided _ _ ih => exact ih
  | drained _ ih => exact ih
  | executed h steps program _ ih => exact (named_invariant h).execute steps program ih
  | applied h steps callee args _ ih =>
    exact (named_invariant h).final (a := ⟨steps, .apply callee args, _⟩) ih

/-! ## 3. Functions that expressions yield -/

/-- While an expression is evaluated, a name is found in one frame. -/
theorem Keeps.resolve {m m' : Machine} (hm : Keeps nowhere nowhere m m') (i : Nat) (name : Text) :
    m'.scopes.resolve i name = m.scopes.resolve i name := by
  refine Scopes.resolve_congr (fun j => ?_) hm.parent i
  cases hb : m.scopes.get? j name with
  | some b =>
    obtain ⟨b', hb', _⟩ := hm.bound hb
    rw [hb']
    rfl
  | none =>
    cases hb' : m'.scopes.get? j name with
    | none => rfl
    | some b' => exact (hm.fresh hb hb').elim

/-- If the value is a function, its name means it. -/
def Known (m : Machine) (v : Value) : Prop :=
  v.type = .function → ∃ c, v = .function (some c) ∧
    (m.scopes.lookup m.scope c.name).map Binding.value = some v

theorem known_of_type {m : Machine} {v : Value} (hv : v.type ≠ .function) : Known m v :=
  fun hfunction => absurd hfunction hv

/-- What an evaluation reaches that starts in `m`, before it is over. -/
structure Reaches (m m' : Machine) : Prop where
  keeps : Keeps nowhere nowhere m m'
  named : m.Named
  named' : m'.Named

/-- **A function that a name means meant it from the start.** -/
theorem Reaches.known {m m' : Machine} (hm : Reaches m m') {name : Text} {b : Binding}
    (hb : m'.scopes.lookup m'.scope name = some b) : Known m b.value := by
  intro hfunction
  obtain ⟨k, hk, hget'⟩ := Option.bind_eq_some_iff.mp hb
  obtain ⟨_, c, hc, hname⟩ := (hm.named' k name b hget').of_function hfunction
  refine ⟨c, hc, ?_⟩
  have hresolve : m.scopes.resolve m.scope name = some k := by
    rw [hm.keeps.scope] at hk
    exact (hm.keeps.resolve m.scope name).symm.trans hk
  have hlookup : m.scopes.lookup m.scope name = m.scopes.get? k name := by
    unfold Scopes.lookup
    rw [hresolve]
    rfl
  rw [hname, hlookup]
  cases hget : m.scopes.get? k name with
  | none => exact (hm.keeps.fresh hget hget').elim
  | some b₀ =>
    obtain ⟨b', hb', hkept | hnever⟩ := hm.keeps.bound hget
    · obtain rfl : b' = b := Option.some.inj (hb'.symm.trans hget')
      obtain ⟨htype, hflag, hvalue⟩ := hkept
      -- what is immutable afterwards was so before
      have hmut : b₀.isMutable = false :=
        hflag ▸ ((hm.named' k name b' hget').of_function hfunction).1
      exact congrArg some (hvalue hmut).symm
    · exact hnever.elim

variable {h : Host} {n : Nat} {m₀ m m' : Machine}

theorem Reaches.eval {e : Expr} {v : Value} (hm : Reaches m₀ m)
    (hrun : Machine.eval h n e m = (.ok v, m')) : Reaches m₀ m' := by
  have hkeeps := ((keeps_conduct h).holds n).eval e m
  have hnamed := ((named_invariant h).holds n).eval e m
  rw [hrun] at hkeeps hnamed
  exact ⟨hm.keeps.trans hkeeps, hm.named, hnamed hm.named'⟩

theorem known_of_getValue {name : Token} {v : Value} (hm : Reaches m₀ m)
    (hrun : Exec.getValue name m = (.ok v, m')) : Known m₀ v := by
  unfold Exec.getValue Scopes.find at hrun
  rcases hb : m.scopes.lookup m.scope name.lexeme with _ | b
  · rw [hb] at hrun
    cases hrun
  · rw [hb] at hrun
    cases hrun
    exact hm.known hb

/-- Only variables can be assigned, and these hold no functions. -/
theorem known_of_assign {name : Token} {v : Value} (hm : Reaches m₀ m)
    (hrun : Exec.assign name v m = (.ok (), m')) : Known m₀ v := by
  unfold Exec.assign at hrun
  split at hrun
  · rename_i scopes ha
    obtain ⟨k, b, _, hb, hmut, htype, _⟩ := Scopes.assign_ok ha
    refine known_of_type fun hfunction => ?_
    rw [((hm.named' k _ b hb).function (htype ▸ hfunction)).1] at hmut
    cases hmut
  · cases hrun

/-- The functions that expressions yield are known by their names, within `n` steps. -/
structure KnownAt (h : Host) (n : Nat) : Prop where
  eval {m₀ m m' : Machine} {e : Expr} {v : Value} : Reaches m₀ m →
    Machine.eval h n e m = (.ok v, m') → Known m₀ v
  evalAll {m₀ m m' : Machine} {es : List Expr} {vs : List Value} : Reaches m₀ m →
    Machine.evalAll h n es m = (.ok vs, m') → ∀ v ∈ vs, Known m₀ v
  apply {m₀ m m' : Machine} {callee v : Value} {args : List Value} :
    (∀ w ∈ args, Known m₀ w) → Machine.apply h n callee args m = (.ok v, m') → Known m₀ v

theorem known_eval_succ (ih : KnownAt h n) {e : Expr} {v : Value} (hm : Reaches m₀ m)
    (hrun : Machine.eval h (n + 1) e m = (.ok v, m')) : Known m₀ v := by
  cases e with
  | literal t =>
    cases hrun
    refine known_of_type ?_
    rcases t.literal with _ | l
    · exact nofun
    · cases l <;> exact nofun
  | grouping inner _ => exact ih.eval hm hrun
  | ref name => exact known_of_getValue hm hrun
  | assign name value =>
    obtain ⟨w, m₁, hw, hrest⟩ := bind_ok hrun
    obtain ⟨_, m₂, hassign, hlast⟩ := bind_ok hrest
    cases hlast
    exact known_of_assign (hm.eval hw) hassign
  | unary op operand =>
    obtain ⟨w, m₁, _, hlast⟩ := bind_ok hrun
    exact known_of_type (Operator.type_unary (congrArg Prod.fst hlast))
  | binary left op right =>
    obtain ⟨a, m₁, _, hrest⟩ := bind_ok hrun
    obtain ⟨b, m₂, _, hlast⟩ := bind_ok hrest
    exact known_of_type (Operator.type_binary (congrArg Prod.fst hlast))
  | logical left op right =>
    obtain ⟨a, m₁, ha, hrest⟩ := bind_ok hrun
    split at hrest
    · cases hrest
      exact ih.eval hm ha
    · exact ih.eval (hm.eval ha) hrest
  | call callee paren args =>
    obtain ⟨f, m₁, hf, hrest⟩ := bind_ok hrun
    obtain ⟨vs, m₂, hvs, hlast⟩ := bind_ok hrest
    have hargs := ih.evalAll (hm.eval hf) hvs
    exact ih.apply hargs (located_ok hlast)

theorem known_evalAll_succ (ih : KnownAt h n) {es : List Expr} {vs : List Value}
    (hm : Reaches m₀ m) (hrun : Machine.evalAll h (n + 1) es m = (.ok vs, m')) :
    ∀ v ∈ vs, Known m₀ v := by
  cases es with
  | nil =>
    cases hrun
    exact fun _ hv => nomatch hv
  | cons e es =>
    obtain ⟨v, m₁, hv, hrest⟩ := bind_ok hrun
    obtain ⟨vs, m₂, hvs, hlast⟩ := bind_ok hrest
    cases hlast
    exact List.forall_mem_cons.mpr ⟨ih.eval hm hv, ih.evalAll (hm.eval hv) hvs⟩

/-- A call yields no function, unless it is one of `probe`. -/
theorem known_apply_succ {callee v : Value} {args : List Value} (hargs : ∀ w ∈ args, Known m₀ w)
    (hrun : Machine.apply h (n + 1) callee args m = (.ok v, m')) : Known m₀ v := by
  simp only [Machine.apply] at hrun
  cases hc : callee.callable? with
  | none =>
    rw [hc] at hrun
    cases hrun
  | some c =>
    rw [hc] at hrun
    dsimp only at hrun
    split at hrun
    · cases hrun
    obtain ⟨_, m₁, _, hcall⟩ := bind_ok hrun
    cases c with
    | native k =>
      have hnative := keeps_native (h := h) (I := fun _ => True) (A := Known m₀)
        (fun _ _ => trivial) known_of_type k hargs
      exact (hnative m₁ trivial).2 v (congrArg Prod.fst hcall)
    | user f copy => exact known_of_type (type_of_yields (yields_of_call hcall))

/-- **The functions that expressions yield are known by their names.** -/
theorem knownAt (h : Host) : ∀ n, KnownAt h n
  | 0 => ⟨nofun, nofun, nofun⟩
  | n + 1 =>
    have ih := knownAt h n
    ⟨known_eval_succ ih, known_evalAll_succ ih, known_apply_succ⟩

end Machine

/-! ## 4. Comparisons -/

theorem Callable.same_self (c : Callable) : c.same c = true := by
  cases c <;> simp only [same, decide_true, Bool.and_self]

theorem Callable.name_eq_of_same {c d : Callable} (h : c.same d = true) : c.name = d.name := by
  cases c with
  | user f i => cases d with
    | user g j =>
      simp only [same, Bool.and_eq_true, decide_eq_true_eq] at h
      exact h.1.1
    | native k => cases h
  | native k => cases d with
    | user g j => cases h
    | native l => exact congrArg Native.name (of_decide_eq_true h)

theorem Value.equal_of_type_ne {a b : Value} (h : a.type ≠ b.type) : a.equal b = false :=
  Bool.eq_false_iff.mpr fun hequal => h (type_eq_of_equal hequal)

/-- Functions that resemble each other have one name. -/
theorem Value.Like.name_eq {R : Resemblance} {c c' : Callable}
    (h : (Value.function (some c)).Like R (.function (some c'))) : c.name = c'.name := by
  cases h with
  | refl => rfl
  | user hf => exact R.token_lexeme (R.function_name hf)

namespace Machine

variable {h : Host} {R : Resemblance}

/-- **Functions that are known by their names are equal if their names are.** -/
theorem equal_of_known {m : Machine} {c d : Callable} (hc : Known m (.function (some c)))
    (hd : Known m (.function (some d))) :
    (Value.function (some c)).equal (.function (some d)) = decide (c.name = d.name) := by
  obtain ⟨_, hce, hc⟩ := hc rfl
  obtain ⟨_, hde, hd⟩ := hd rfl
  cases hce
  cases hde
  rw [Bool.eq_iff_iff, decide_eq_true_iff]
  refine ⟨Callable.name_eq_of_same, fun hname => ?_⟩
  rw [hname] at hc
  cases hc.symm.trans hd
  exact Callable.same_self c

/-- **What resembles each other compares alike**, where names are bound to functions of that name
    only. -/
theorem equalAlike_named : EqualAlike h R Named := by
  intro m₁ m₂ n₁ n₂ k₁ k₂ n n' l l' r r' a a' b b' hm₁ hm₂ hl hr hl' hr' ha hb
  have known {m n₁ k₁ : Machine} {n : Nat} {l r : Expr} {a b : Value} (hm : m.Named)
      (hl : eval h n l m = (.ok a, n₁)) (hr : eval h n r n₁ = (.ok b, k₁)) :
      Known m a ∧ Known m b := by
    have hstart : Reaches m m := ⟨.refl m, hm, hm⟩
    exact ⟨(knownAt h n).eval hstart hl, (knownAt h n).eval (hstart.eval hl) hr⟩
  obtain ⟨hka, hkb⟩ := known hm₁ hl hr
  obtain ⟨hka', hkb'⟩ := known hm₂ hl' hr'
  by_cases htype : a.type = b.type
  · by_cases hfunction : a.type = .function
    · -- the name of a function decides on both sides
      obtain ⟨c, rfl, _⟩ := hka hfunction
      obtain ⟨d, rfl, _⟩ := hkb (htype ▸ hfunction)
      obtain ⟨c', rfl, _⟩ := hka' ha.type_eq.symm
      obtain ⟨d', rfl, _⟩ := hkb' hb.type_eq.symm
      rw [equal_of_known hka hkb, equal_of_known hka' hkb', ha.name_eq, hb.name_eq]
    · rw [ha.eq_of_type hfunction, hb.eq_of_type (htype ▸ hfunction)]
  · rw [Value.equal_of_type_ne htype, Value.equal_of_type_ne]
    rwa [← ha.type_eq, ← hb.type_eq]

end Machine

end FencedCode
