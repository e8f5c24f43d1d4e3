import FencedCode.Proofs.Machine.Moment
import FencedCode.Proofs.Scope.View

/-!
# Bindings keep to their declared types

Six things write bindings: declarations with and without an initial value, parameters, function
declarations, assignments and input. Each makes a check of its own. Together they keep
`Binding.Sound`:

* a variable of a base type holds null or a value of exactly that type, hence never a function;
* a name of function type cannot be assigned and holds something that can be called.

`bindings_sound_at_every_moment` says this of every binding at every moment of every session, and
of the result of every call that it has the type its function declares.
-/

namespace FencedCode

/-! ## 1. Sound bindings -/

/-- A binding keeps to its declared type. -/
structure Binding.Sound (b : Binding) : Prop where
  declared : b.type = .function ∨ ∃ t, b.type = .base t
  base (t : BaseType) : b.type = .base t → b.value = .null ∨ b.value.type = .base t
  function : b.type = .function → b.isMutable = false ∧ ∃ c, b.value = .function (some c)

/-- Only functions can be called. -/
theorem Value.callable?_eq_none {v : Value} (hv : v.type ≠ .function) : v.callable? = none := by
  cases v with
  | function target => exact absurd rfl hv
  | _ => rfl

namespace Binding.Sound

theorem ofBase {t : BaseType} {v : Value} (isMutable : Bool)
    (hv : v = .null ∨ v.type = .base t) : Sound ⟨.base t, v, isMutable⟩ where
  declared := .inr ⟨t, rfl⟩
  base u hu := by
    cases hu
    exact hv
  function hf := by cases hf

theorem ofCallable (c : Callable) : Sound ⟨.function, .function (some c), false⟩ where
  declared := .inl rfl
  base t ht := by cases ht
  function _ := ⟨rfl, c, rfl⟩

/-- A binding that may be assigned is a variable; it takes any value of its type. -/
theorem assign {b : Binding} (hb : b.Sound) (hmut : b.isMutable = true) {v : Value}
    (hv : v.type = b.type) : Sound { b with value := v } := by
  rcases hb.declared with hf | ⟨t, ht⟩
  · rw [(hb.function hf).1] at hmut
    cases hmut
  · obtain ⟨type, value, isMutable⟩ := b
    cases ht
    exact ofBase isMutable (.inr hv)

theorem callable?_eq_none {b : Binding} (hb : b.Sound) {t : BaseType} (ht : b.type = .base t) :
    b.value.callable? = none := by
  refine Value.callable?_eq_none fun hf => ?_
  rcases hb.base t ht with hnull | htype
  · rw [hnull] at hf
    cases hf
  · rw [htype] at hf
    cases hf

end Binding.Sound

/-! ## 2. Sound frames and trees -/

/-- All bindings of a frame are sound. -/
def Frame.Sound (f : Frame) : Prop :=
  ∀ name b, f.get? name = some b → b.Sound

/-- All bindings of a tree are sound. -/
def Scopes.Sound (s : Scopes) : Prop :=
  ∀ i name b, s.get? i name = some b → b.Sound

theorem Frame.sound_empty (parent : Option Nat) : Sound ⟨parent, []⟩ :=
  Frame.all_empty parent

namespace Scopes.Sound

variable {s : Scopes}

theorem set (hs : s.Sound) (i : Nat) (name : Text) {b : Binding} (hb : b.Sound) :
    (s.set i name b).Sound :=
  All.set hs i name hb

theorem push (hs : s.Sound) {f : Frame} (hf : f.Sound) : (s.push f).Sound :=
  All.push hs hf

theorem pop (hs : s.Sound) : s.pop.Sound :=
  All.pop hs

theorem define (hs : s.Sound) (i : Nat) (name : Text) {b : Binding} (hb : b.Sound) :
    (s.define i name b).2.Sound :=
  All.define hs i name hb

theorem assign (hs : s.Sound) {s' : Scopes} {i : Nat} {name : Token} {v : Value}
    (ha : s.assign i name v = .ok s') : s'.Sound := by
  obtain ⟨k, b, _, hb, hmut, htype, rfl⟩ := assign_ok ha
  exact hs.set k name.lexeme ((hs k _ b hb).assign hmut htype)

end Scopes.Sound

/-! ## 3. Sound machines -/

namespace Machine

/-- Arguments are bound only if they have the types of their parameters. -/
theorem all_of_bindParams {P : Binding → Prop}
    (hP : ∀ t v, v.type = .base t → P ⟨.base t, v, true⟩) :
    ∀ {params : List Param} {args : List Value} {f frame : Frame},
      bindParams params args f = .ok frame → f.All P → frame.All P
  | [], _, _, _, hb, hf => by
    cases hb
    exact hf
  | _ :: _, [], _, _, hb, _ => by cases hb
  | p :: ps, v :: vs, f, frame, hb, hf => by
    simp only [bindParams] at hb
    split at hb
    · cases hb
    · rename_i htype
      refine all_of_bindParams hP hb ?_
      split
      · exact hf
      · exact hf.put _ (hP _ v (Decidable.not_not.mp htype))

/-- A standard machine binds the natives and nothing else. -/
theorem all_standard {P : Binding → Prop}
    (hP : ∀ n, P ⟨.function, .function (some (.native n)), false⟩) (input : Input) :
    (standard input).scopes.All P := by
  have hfold : ∀ (ns : List Native) {m : Machine}, m.scopes.All P →
      (ns.foldl defineNative m).scopes.All P := by
    intro ns
    induction ns with
    | nil => exact id
    | cons n ns ih => exact fun hm => ih (hm.define 0 n.name (hP n))
  exact hfold Native.standard Scopes.all_initial

theorem sound_of_bindParams {params : List Param} {args : List Value} {f frame : Frame}
    (hb : bindParams params args f = .ok frame) (hf : f.Sound) : frame.Sound :=
  all_of_bindParams (fun _ _ hv => .ofBase true (.inr hv)) hb hf

theorem sound_standard (input : Input) : (standard input).scopes.Sound :=
  all_standard (fun n => .ofCallable (.native n)) input

theorem stable_sound : Scopes.Stable Scopes.Sound where
  assign hs ha := hs.assign ha
  declare _ _ isMutable hs hv := hs.define _ _ (.ofBase isMutable hv)
  function _ f hs := hs.set _ _ (.ofCallable (.user f 0))
  block _ hs := hs.push (Frame.sound_empty _)
  call hs hb := hs.push (sound_of_bindParams hb (Frame.sound_empty _))
  pop hs := hs.pop

/-- **Every step of a run keeps bindings sound.** -/
theorem sound_invariant (h : Host) : Invariant h (fun m m' => m.scopes.Sound → m'.scopes.Sound)
    (fun m m' => m.scopes.Sound → m'.scopes.Sound) fun m => m.scopes.Sound :=
  stable_sound.invariant h

/-! ## 4. Results of calls -/

/-- What a result type promises: null without one, else a value of just that type. -/
def Yields (result : Option TypeName) (v : Value) : Prop :=
  match result with
  | none => v = .null
  | some t => v ≠ .null ∧ v.type = .base t.type

theorem yields_of_resultOf {f : Function} {c : Completion} {v : Value}
    (hv : resultOf f c = .ok v) : Yields f.result v := by
  unfold resultOf at hv
  split at hv
  · rename_i hr
    rw [hr]
    cases hv
    rfl
  · cases hv
  · rename_i hr
    rw [hr]
    cases hv
    rfl
  · cases hv
  · rename_i t w hr
    rw [hr]
    split at hv
    · rename_i htype
      cases hv
      refine ⟨fun hnull => ?_, htype⟩
      rw [hnull] at htype
      cases htype
    · cases hv

/-- **A call that returns yields what its function declares.** -/
theorem yields_of_call {h : Host} {steps : Nat} {f : Function} {args : List Value}
    {m m' : Machine} {v : Value} (hrun : call h steps f args m = (.ok v, m')) :
    Yields f.result v := by
  cases steps with
  | zero => cases hrun
  | succ n =>
    simp only [call] at hrun
    split at hrun
    · cases hrun
    · unfold Exec.deeper at hrun
      split at hrun
      rename_i r m₀ hbody
      -- the value is what `resultOf` makes of the way the body completed
      obtain rfl : r = .ok v := congrArg Prod.fst hrun
      obtain ⟨_, _, _, hrest⟩ := Exec.bind_ok hbody
      obtain ⟨c, _, _, hresult⟩ := Exec.bind_ok hrest
      exact yields_of_resultOf (congrArg Prod.fst hresult)

end Machine

/-! ## 5. Whole sessions -/

open Machine in
/-- **Type soundness of the store.** At every moment of every session, every binding of every frame
    has a base type and then holds null or a value of just this type, or it is of function type and
    then immutable and holds something to call. Every call that returns yields null, or a value of
    the type its function declares. -/
theorem bindings_sound_at_every_moment {input : Input} {m : Machine} (hm : Moment input m) :
    (∀ i name b, m.scopes.get? i name = some b →
      (b.type = .function ∨ ∃ t, b.type = .base t) ∧
      (∀ t, b.type = .base t →
        (b.value = .null ∨ b.value.type = .base t) ∧ b.value.callable? = none) ∧
      (b.type = .function → b.isMutable = false ∧ ∃ c, b.value = .function (some c))) ∧
    (∀ h steps f args m₀ v m₁, call h steps f args m₀ = (.ok v, m₁) → Yields f.result v) := by
  refine ⟨fun i name b hb => ?_, fun h steps f args m₀ v m₁ hrun => yields_of_call hrun⟩
  have hsound := Invariant.moment sound_invariant (sound_standard input) hm i name b hb
  exact ⟨hsound.declared, fun t ht => ⟨hsound.base t ht, hsound.callable?_eq_none ht⟩,
    hsound.function⟩

/-- A program of one line: `FN INT f(INT a) BEGIN FN RETURN a END FN BEGIN CODE INT x = f(7) END
    CODE`. -/
def identityProgram : List Token :=
  let word (k : Kind) : Token := ⟨k, k.label, none, .start⟩
  let name (w : String) : Token := ⟨.identifier, utf8 w, none, .start⟩
  [word .kwFn, word (.type .int), name "f", word .leftParen, word (.type .int), name "a",
   word .rightParen, word .kwBegin, word .kwFn, word .kwReturn, name "a", word .kwEnd, word .kwFn,
   word .kwBegin, word .kwCode, word (.type .int), name "x", word .assign, name "f",
   word .leftParen, ⟨.intLit, utf8 "7", some (.int 7), .start⟩, word .rightParen, word .kwEnd,
   word .kwCode]

open Machine in
/-- Once the program has run, `x` is bound in the global frame, and soundly. -/
theorem bindings_sound_after_identityProgram :
    (Program.ofTokens identityProgram).diagnostics = [] ∧
    let m := (execute {} 100 (Program.ofTokens identityProgram).stmts (.standard .empty)).2
    ((m.scopes.get? 0 (utf8 "x")).map fun b => (b.type, b.value.text)) =
      some (.base .int, utf8 "7") ∧
    ∀ b, m.scopes.get? 0 (utf8 "x") = some b → b.value = .null ∨ b.value.type = .base .int := by
  have hok : (Program.ofTokens identityProgram).diagnostics = [] :=
    List.isEmpty_iff.mp (by decide +kernel)
  have hm : Moment .empty (execute {} 100 (Program.ofTokens identityProgram).stmts
      (.standard .empty)).2 :=
    .rest (.program {} 100 identityProgram .start hok)
  have hx : (((execute {} 100 (Program.ofTokens identityProgram).stmts
      (.standard .empty)).2.scopes.get? 0 (utf8 "x")).map fun b => (b.type, b.value.text)) =
      some (.base .int, utf8 "7") := by decide +kernel
  refine ⟨hok, hx, fun b hb => ?_⟩
  have htype : b.type = .base .int := by
    rw [hb] at hx
    exact congrArg Prod.fst (Option.some.inj hx)
  exact (((bindings_sound_at_every_moment hm).1 0 _ b hb).2.1 .int htype).1

end FencedCode
