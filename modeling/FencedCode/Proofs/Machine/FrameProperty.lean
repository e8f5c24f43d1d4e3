import FencedCode.Proofs.Machine.Moment
import FencedCode.Proofs.Scope.View

/-!
# What a run leaves alone

A run reaches the frames that exist before it only through assignments and through the
declarations of its current frame. So the names of an existing frame stay, with their types, their
flags and the values of those that cannot be assigned; a declaration of a function replaces what it
finds in the current frame, and only there new names appear.

* `Machine.Keeps` -- that a machine keeps the bindings of another one, except for given names;
* `keeps_conduct` -- expressions keep all of them, statements all outside the current frame;
* `Declared`, `traced` -- **each exception is a declaration that ran in the current frame**;
* `Machine.Freezes`, `freezes_conduct` -- the body of a function reaches the global frame and
  frames made later, but none of the frames between;
* `run_keeps_frames` -- the frame property, of every statement, block and call.
-/

namespace FencedCode

open Machine

/-! ## 1. What is kept -/

/-- A binding keeps its type and its flag, and its value if it cannot be assigned. -/
def Binding.Kept (b b' : Binding) : Prop :=
  b'.type = b.type ∧ b'.isMutable = b.isMutable ∧ (b.isMutable = false → b'.value = b.value)

theorem Binding.Kept.refl (b : Binding) : b.Kept b :=
  ⟨rfl, rfl, fun _ => rfl⟩

theorem Binding.Kept.trans {a b c : Binding} (hab : a.Kept b) (hbc : b.Kept c) : a.Kept c := by
  obtain ⟨htype, hflag, hvalue⟩ := hab
  obtain ⟨htype', hflag', hvalue'⟩ := hbc
  refine ⟨htype'.trans htype, hflag'.trans hflag, fun hi => ?_⟩
  exact (hvalue' (hflag.trans hi)).trans (hvalue hi)

namespace Machine

/-- The same frames inside each other, and the same current one. -/
structure SameShape (m m' : Machine) : Prop where
  scope : m'.scope = m.scope
  size : m'.scopes.size = m.scopes.size
  parent (i : Nat) : m'.scopes.parent? i = m.scopes.parent? i

theorem SameShape.trans {a b c : Machine} (hab : SameShape a b) (hbc : SameShape b c) :
    SameShape a c :=
  ⟨hbc.scope.trans hab.scope, hbc.size.trans hab.size,
    fun i => (hbc.parent i).trans (hab.parent i)⟩

/-- `Keeps R N m m'`: what is bound in `m` is bound in `m'`, as before unless it is in `R`, and
    what is bound in `m'` alone is in `N`. -/
structure Keeps (R N : Nat → Text → Prop) (m m' : Machine) : Prop extends SameShape m m' where
  bound {i : Nat} {name : Text} {b : Binding} : m.scopes.get? i name = some b →
    ∃ b', m'.scopes.get? i name = some b' ∧ (b.Kept b' ∨ R i name)
  fresh {i : Nat} {name : Text} {b' : Binding} : m.scopes.get? i name = none →
    m'.scopes.get? i name = some b' → N i name

/-- No name of any frame. -/
def nowhere : Nat → Text → Prop :=
  fun _ _ => False

/-- All names of frame `i`. -/
def inFrame (i : Nat) : Nat → Text → Prop :=
  fun j _ => j = i

namespace Keeps

variable {R N R' N' : Nat → Text → Prop} {a b c m : Machine}

theorem of_scopes (hscope : b.scope = a.scope) (hscopes : b.scopes = a.scopes) : Keeps R N a b := by
  refine ⟨⟨hscope, by rw [hscopes], fun i => by rw [hscopes]⟩, ?_, ?_⟩
  · intro i name x hx
    rw [hscopes]
    exact ⟨x, hx, .inl (.refl x)⟩
  · intro i name x hnone hx
    rw [hscopes, hnone] at hx
    cases hx

theorem refl (m : Machine) : Keeps R N m m :=
  of_scopes rfl rfl

theorem trans (hab : Keeps R N a b) (hbc : Keeps R N b c) : Keeps R N a c := by
  refine ⟨hab.toSameShape.trans hbc.toSameShape, ?_, ?_⟩
  · intro i name x hx
    obtain ⟨y, hy, hxy⟩ := hab.bound hx
    obtain ⟨z, hz, hyz⟩ := hbc.bound hy
    refine ⟨z, hz, ?_⟩
    rcases hxy with hxy | hR
    · rcases hyz with hyz | hR
      · exact .inl (hxy.trans hyz)
      · exact .inr hR
    · exact .inr hR
  · intro i name z hnone hz
    cases hy : b.scopes.get? i name with
    | none => exact hbc.fresh hy hz
    | some y => exact hab.fresh hnone hy

theorem mono (hab : Keeps R N a b) (hR : ∀ i name, R i name → R' i name)
    (hN : ∀ i name, N i name → N' i name) : Keeps R' N' a b := by
  refine ⟨hab.toSameShape, ?_, ?_⟩
  · intro i name x hx
    obtain ⟨y, hy, hxy⟩ := hab.bound hx
    exact ⟨y, hy, hxy.imp_right (hR i name)⟩
  · intro i name y hnone hy
    exact hN i name (hab.fresh hnone hy)

theorem of_nowhere (hab : Keeps nowhere nowhere a b) : Keeps R N a b :=
  hab.mono (fun _ _ hno => hno.elim) fun _ _ hno => hno.elim

/-- What a binding that is set keeps and breaks. -/
theorem set {k : Nat} {name : Text} {x : Binding} (hscope : b.scope = a.scope)
    (hscopes : b.scopes = a.scopes.set k name x)
    (hold : ∀ y, a.scopes.get? k name = some y → y.Kept x ∨ R k name)
    (hnew : a.scopes.get? k name = none → N k name) : Keeps R N a b := by
  refine ⟨⟨hscope, by rw [hscopes, Scopes.size_set], fun i => by rw [hscopes, Scopes.parent?_set]⟩,
    ?_, ?_⟩
  · intro i other y hy
    rw [hscopes, Scopes.get?_set]
    split
    · rename_i hself
      obtain ⟨rfl, rfl, _⟩ := hself
      exact ⟨x, rfl, hold y hy⟩
    · exact ⟨y, hy, .inl (.refl y)⟩
  · intro i other y hnone hy
    rw [hscopes, Scopes.get?_set] at hy
    split at hy
    · rename_i hself
      obtain ⟨rfl, rfl, _⟩ := hself
      exact hnew hnone
    · rw [hnone] at hy
      cases hy

/-- An assignment changes the value of a binding that can be assigned. -/
theorem assign {name : Token} {v : Value} {scopes : Scopes}
    (ha : m.scopes.assign m.scope name v = .ok scopes) : Keeps R N m { m with scopes } := by
  obtain ⟨k, x, _, hx, hmut, _, hset⟩ := Scopes.assign_ok ha
  refine set rfl hset (fun y hy => .inl ?_) fun hnone => ?_
  · obtain rfl : y = x := Option.some.inj (hy.symm.trans hx)
    refine ⟨rfl, rfl, fun hi => ?_⟩
    rw [hmut] at hi
    cases hi
  · rw [hx] at hnone
    cases hnone

/-- A typed declaration binds its name in the current frame if it is not bound there. -/
theorem declare (h : Host) (type : BaseType) (name : Token) (v : Value) (isMutable : Bool)
    (hN : N m.scope name.lexeme) : Keeps R N m (Machine.declare h type name v isMutable m).2 := by
  have hscopes := declare_scopes h type name v isMutable m
  rw [Scopes.define_snd] at hscopes
  cases hx : m.scopes.get? m.scope name.lexeme with
  | none =>
    rw [hx, Option.isSome_none, if_neg Bool.false_ne_true] at hscopes
    refine set (declare_scope ..) hscopes (fun y hy => ?_) fun _ => hN
    rw [hx] at hy
    cases hy
  | some x =>
    rw [hx, Option.isSome_some, if_pos rfl] at hscopes
    exact of_scopes (declare_scope ..) hscopes

/-- The declaration of a function binds its name in the current frame. -/
theorem declareFunction (h : Host) (f : Function) (hR : R m.scope f.name.lexeme)
    (hN : N m.scope f.name.lexeme) : Keeps R N m (Machine.declareFunction h f m).2 :=
  set (declareFunction_scope ..) (declareFunction_scopes ..) (fun _ _ => .inr hR) fun _ => hN

end Keeps

/-! ## 2. Statements in a frame of their own -/

/-- `Inside f m m₀ m₁ m'`: entering frame `f` turns machine `m` into `m₀`, statements turn this into
    `m₁`, and leaving the frame yields `m'`. -/
structure Inside (f : Frame) (m m₀ m₁ m' : Machine) : Prop where
  entered : m₀.scope = m.scopes.size
  pushed : m₀.scopes = m.scopes.push f
  left : m'.scope = m.scope
  popped : m'.scopes = m₁.scopes.pop

section Inside

variable {f : Frame} {m m₀ m₁ m' : Machine}

theorem Inside.block (h : Host) (f : Frame) (m m₁ : Machine) :
    Inside f m (m.enter h f) m₁ (m₁.leave h m.scope) :=
  ⟨enter_scope .., enter_scopes .., leave_scope .., leave_scopes ..⟩

theorem Inside.call (h : Host) (f : Frame) (m m₁ : Machine) :
    Inside f m (m.descend.enter h f) m₁ (m₁.leave h m.scope).ascend :=
  ⟨enter_scope .., enter_scopes .., leave_scope .., leave_scopes ..⟩

theorem Inside.size (hin : Inside f m m₀ m₁ m') (hrun : SameShape m₀ m₁) :
    m₁.scopes.size = m.scopes.size + 1 := by
  rw [hrun.size, hin.pushed, Scopes.size_push]

/-- A frame that is made and dropped again leaves no trace of itself. -/
theorem Inside.sameShape (hin : Inside f m m₀ m₁ m') (hrun : SameShape m₀ m₁) :
    SameShape m m' := by
  have hsize := hin.size hrun
  refine ⟨hin.left, ?_, fun i => ?_⟩
  · rw [hin.popped, Scopes.size_pop, hsize]
    rfl
  · by_cases hi : i < m.scopes.size
    · rw [hin.popped, Scopes.parent?_pop _ (by omega), hrun.parent, hin.pushed,
        Scopes.parent?_push, if_neg (Nat.ne_of_lt hi)]
    · rw [Scopes.parent?_eq_none_of_size_le (Nat.le_of_not_lt hi),
        Scopes.parent?_eq_none_of_size_le]
      rw [hin.popped, Scopes.size_pop]
      omega

/-- What statements declare in a frame of their own is dropped with it. -/
theorem Inside.keeps (hin : Inside f m m₀ m₁ m')
    (hrun : Keeps (inFrame m₀.scope) (inFrame m₀.scope) m₀ m₁) : Keeps nowhere nowhere m m' := by
  have hsize := hin.size hrun.toSameShape
  have hbefore : ∀ {i}, i < m.scopes.size → ∀ name,
      m₀.scopes.get? i name = m.scopes.get? i name := by
    intro i hi name
    rw [hin.pushed, Scopes.get?_push, if_neg (Nat.ne_of_lt hi)]
  have hafter : ∀ {i}, i < m.scopes.size → ∀ name,
      m'.scopes.get? i name = m₁.scopes.get? i name := by
    intro i hi name
    rw [hin.popped, Scopes.get?_pop, if_pos (by omega)]
  have hother : ∀ {i}, i < m.scopes.size → ∀ name, ¬ inFrame m₀.scope i name := by
    intro i hi name hself
    rw [inFrame, hin.entered] at hself
    omega
  refine ⟨hin.sameShape hrun.toSameShape, ?_, ?_⟩
  · intro i name b hb
    have hi := Scopes.lt_size_of_get?_eq_some hb
    rw [← hbefore hi] at hb
    obtain ⟨b', hb', hkept⟩ := hrun.bound hb
    refine ⟨b', ?_, .inl (hkept.resolve_right (hother hi name))⟩
    rw [hafter hi]
    exact hb'
  · intro i name b' hnone hb'
    have hi := Scopes.lt_size_of_get?_eq_some hb'
    rw [(hin.sameShape hrun.toSameShape).size] at hi
    rw [hafter hi] at hb'
    rw [← hbefore hi] at hnone
    exact hother hi name (hrun.fresh hnone hb')

end Inside

/-- **Expressions keep all names of all frames, statements those outside the current one.** -/
theorem keeps_conduct (h : Host) : Conduct h (Keeps nowhere nowhere)
    (fun m m' => Keeps (inFrame m.scope) (inFrame m.scope) m m') where
  refl := .refl
  trans := .trans
  transS {a b c} hab hbc := by
    rw [hab.scope] at hbc
    exact hab.trans hbc
  ofE := .of_nowhere
  write _ _ := .of_scopes rfl rfl
  probe _ _ := .of_scopes rfl rfl
  tick _ := .of_scopes rfl rfl
  log _ _ := .of_scopes (log_scope ..) (log_scopes ..)
  read _ := .of_scopes rfl rfl
  assign := .assign
  declare m type name v isMutable _ := .declare h type name v isMutable rfl
  function m f := .declareFunction h f rfl rfl
  block {m m'} hbody := (Inside.block h _ m m').keeps hbody
  call {m m' _ _ frame} _ _ hbody := (Inside.call h frame m m').keeps hbody

end Machine

/-! ## 3. Declarations that ran -/

/-- Does the statement declare the name, as a variable or as a function? -/
def Stmt.Declares (name : Text) : Stmt → Prop
  | .declare _ n _ _ => n.lexeme = name
  | .function n _ _ _ => n.lexeme = name
  | _ => False

/-- Does the statement declare the name as a function? -/
def Stmt.DeclaresFunction (name : Text) : Stmt → Prop
  | .function n _ _ _ => n.lexeme = name
  | _ => False

/-- `Ran h a P i name`: frame `i` is the current one of activity `a`, and in the course of `a` a
    statement of the kind `P name` was executed while it was. -/
def Ran (h : Host) (a : Activity) (P : Text → Stmt → Prop) (i : Nat) (name : Text) : Prop :=
  i = a.start.scope ∧ ∃ k s m, Activity.Within h a ⟨k, .exec s, m⟩ ∧ m.scope = i ∧ P name s ∧
    (exec h k s m).1 = .ok .normal

/-- What an activity keeps, up to the declarations that it executes. -/
def Traced (h : Host) (a : Activity) (m m' : Machine) : Prop :=
  Keeps (Ran h a Stmt.DeclaresFunction) (Ran h a Stmt.Declares) m m'

section Traced

variable {h : Host} {a b : Activity} {m m' : Machine}

/-- What ran in a part of an activity ran in the activity. -/
theorem Ran.of_calls {P : Text → Stmt → Prop} {i : Nat} {name : Text}
    (hab : Activity.Calls h a b) (hscope : b.start.scope = a.start.scope)
    (hran : Ran h b P i name) : Ran h a P i name := by
  obtain ⟨hi, k, s, m, hin, hrest⟩ := hran
  exact ⟨hi.trans hscope, k, s, m, .head hab hin, hrest⟩

theorem Traced.of_calls (hab : Activity.Calls h a b) (hscope : b.start.scope = a.start.scope)
    (hb : Traced h b m m') : Traced h a m m' :=
  hb.mono (fun _ _ => .of_calls hab hscope) fun _ _ => .of_calls hab hscope

/-- Two steps of an activity. -/
theorem Traced.bind {α β : Type} {p : Exec α} {f : α → Exec β} (hp : Traced h a m (p m).2)
    (hf : ∀ x m', p m = (.ok x, m') → Traced h a m' (f x m').2) :
    Traced h a m ((p >>= f) m).2 :=
  Exec.bind_related (R := Traced h a) Keeps.trans hp hf

end Traced

/-- The statements that are granted `n` steps are traced. -/
structure TracedAt (h : Host) (n : Nat) : Prop where
  exec (s : Stmt) (m : Machine) : Traced h ⟨n, .exec s, m⟩ m (Machine.exec h n s m).2
  execAll (ss : List Stmt) (m : Machine) :
    Traced h ⟨n, .execAll ss, m⟩ m (Machine.execAll h n ss m).2
  execOthers (i : Nat) (others : Alternatives) (m : Machine) :
    Traced h ⟨n, .execOthers i others, m⟩ m (Machine.execOthers h n i others m).2
  execLoop (condition : Expr) (body : List Stmt) (m : Machine) :
    Traced h ⟨n, .execLoop condition body, m⟩ m (Machine.execLoop h n condition body m).2

section Run

variable {h : Host} {n : Nat}

/-- An expression declares nothing. -/
theorem traced_eval (a : Activity) (e : Expr) (m : Machine) :
    Traced h a m (Machine.eval h n e m).2 :=
  (((keeps_conduct h).holds n).eval e m).of_nowhere

theorem scope_of_eval {e : Expr} {m m' : Machine} {v : Value}
    (hv : Machine.eval h n e m = (.ok v, m')) : m'.scope = m.scope := by
  have hkeeps := ((keeps_conduct h).holds n).eval e m
  rw [hv] at hkeeps
  exact hkeeps.scope

/-- A block drops what is declared in it. -/
theorem keeps_block (opening : Token) (body : List Stmt) (m : Machine) :
    Keeps nowhere nowhere m (Machine.exec h n (.block opening body) m).2 := by
  cases n with
  | zero => exact .refl m
  | succ n => exact (keeps_conduct h).block (((keeps_conduct h).holds n).execAll body _)

theorem exec_traced (ih : TracedAt h n) (s : Stmt) (m : Machine) :
    Traced h ⟨n + 1, .exec s, m⟩ m (Machine.exec h (n + 1) s m).2 := by
  cases s with
  | expression e =>
    simp only [Machine.exec]
    exact (traced_eval _ e m).bind fun _ m' _ => .refl m'
  | display keyword e =>
    simp only [Machine.exec]
    refine (traced_eval _ e m).bind fun v m₁ _ => ?_
    exact Traced.bind (Keeps.of_scopes rfl rfl) fun _ m₂ _ => .refl m₂
  | scan keyword names =>
    simp only [Machine.exec]
    have hline := (keeps_conduct h).scanLine keyword names m
    exact Traced.bind hline.of_nowhere fun _ m' _ => .refl m'
  | conditional keyword condition body others =>
    simp only [Machine.exec]
    refine (traced_eval _ condition m).bind fun v m' hv => ?_
    split
    · rename_i htrue
      exact .of_calls (.consequence hv htrue) (scope_of_eval hv) (ih.execAll body m')
    · rename_i hfalse
      exact .of_calls (.alternative hv (by simpa using hfalse)) (scope_of_eval hv)
        (ih.execOthers 0 others m')
  | loop keyword condition body => exact .of_calls .loop rfl (ih.execLoop condition body m)
  | block opening body => exact (keeps_block opening body m).of_nowhere
  | function name params body result =>
    -- the declaration is the activity itself
    have hran : ∀ P : Text → Stmt → Prop, P name.lexeme (.function name params body result) →
        Ran h ⟨n + 1, .exec (.function name params body result), m⟩ P m.scope name.lexeme :=
      fun P hP => ⟨rfl, n + 1, _, m, .refl, rfl, hP, rfl⟩
    exact Keeps.declareFunction h _ (hran _ rfl) (hran _ rfl)
  | ret keyword value =>
    cases value with
    | none => exact .refl m
    | some e =>
      simp only [Machine.exec]
      exact (traced_eval _ e m).bind fun _ m' _ => .refl m'
  | declare type name init isMutable =>
    cases init with
    | none =>
      refine Keeps.declare h type name .null isMutable ?_
      exact ⟨rfl, n + 1, _, m, .refl, rfl, rfl, rfl⟩
    | some e =>
      simp only [Machine.exec]
      refine (traced_eval _ e m).bind fun v m₁ hv => ?_
      split
      · exact .refl m₁
      · rename_i htype
        have hscope := scope_of_eval hv
        refine Traced.bind (Keeps.declare h type name v isMutable ?_) fun _ m₂ _ => .refl m₂
        refine ⟨hscope, n + 1, _, m, .refl, hscope.symm, rfl, ?_⟩
        simp only [Machine.exec]
        rw [Exec.bind_of_ok hv, if_neg htype]
        rfl

theorem execAll_traced (ih : TracedAt h n) (ss : List Stmt) (m : Machine) :
    Traced h ⟨n + 1, .execAll ss, m⟩ m (Machine.execAll h (n + 1) ss m).2 := by
  cases ss with
  | nil => exact .refl m
  | cons s rest =>
    simp only [Machine.execAll]
    refine Traced.bind (.of_calls .first rfl (ih.exec s m)) fun c m' hc => ?_
    cases c with
    | normal =>
      refine .of_calls (.next hc) ?_ (ih.execAll rest m')
      have hkeeps := ((keeps_conduct h).holds n).exec s m
      rw [hc] at hkeeps
      exact hkeeps.scope
    | returning v => exact .refl m'

theorem execOthers_traced (ih : TracedAt h n) (i : Nat) (others : Alternatives) (m : Machine) :
    Traced h ⟨n + 1, .execOthers i others, m⟩ m (Machine.execOthers h (n + 1) i others m).2 := by
  cases hc : others.conditions[i]? with
  | none =>
    cases hlast : others.last with
    | none =>
      rw [execOthers_of_none hc hlast]
      exact .refl m
    | some body =>
      rw [execOthers_of_last hc hlast]
      exact .of_calls (.otherwise hc hlast) rfl (ih.execAll body m)
  | some condition =>
    rw [execOthers_of_condition hc]
    refine (traced_eval _ condition m).bind fun v m' hv => ?_
    split
    · rename_i htrue
      refine Traced.bind (.refl m') fun body m'' hbody => ?_
      obtain ⟨hentry, rfl⟩ := Prod.mk.inj hbody
      exact .of_calls (.elseConsequence hc hv htrue (entry_eq_ok_iff.mp hentry)) (scope_of_eval hv)
        (ih.execAll body m')
    · rename_i hfalse
      exact .of_calls (.elseAlternative hc hv (by simpa using hfalse)) (scope_of_eval hv)
        (ih.execOthers (i + 1) others m')

theorem execLoop_traced (ih : TracedAt h n) (condition : Expr) (body : List Stmt) (m : Machine) :
    Traced h ⟨n + 1, .execLoop condition body, m⟩ m
      (Machine.execLoop h (n + 1) condition body m).2 := by
  simp only [Machine.execLoop]
  refine (traced_eval _ condition m).bind fun v m₁ hv => ?_
  split
  · rename_i htrue
    refine Traced.bind (.of_calls (.loopBody hv htrue) (scope_of_eval hv) (ih.execAll body m₁))
      fun c m₂ hc => ?_
    cases c with
    | normal =>
      refine .of_calls (.again hv htrue hc) ?_ (ih.execLoop condition body m₂)
      have hkeeps := ((keeps_conduct h).holds n).execAll body m₁
      rw [hc] at hkeeps
      exact hkeeps.scope.trans (scope_of_eval hv)
    | returning r => exact .refl m₂
  · exact .refl m₁

/-- **Whatever a statement breaks in an existing frame, a declaration broke that it executed in its
    current frame.** -/
theorem traced (h : Host) : ∀ n, TracedAt h n
  | 0 => ⟨fun _ m => .refl m, fun _ m => .refl m, fun _ _ m => .refl m, fun _ _ m => .refl m⟩
  | n + 1 =>
    have ih := traced h n
    ⟨exec_traced ih, execAll_traced ih, execOthers_traced ih, execLoop_traced ih⟩

end Run

/-! ## 4. Calls -/

/-- From frame `b` on, every way outward leads to the global frame or to a frame from `b` on. -/
structure Scopes.Rooted (s : Scopes) (b : Nat) : Prop where
  pos : 0 < b
  global : s.parent? 0 = none
  outward {i p : Nat} : b ≤ i → s.parent? i = some p → p = 0 ∨ b ≤ p

namespace Scopes.Rooted

variable {s : Scopes} {b : Nat}

theorem resolveFrom (hs : s.Rooted b) {name : Text} {k : Nat} : ∀ {fuel i : Nat},
    i = 0 ∨ b ≤ i → s.resolveFrom name fuel i = some k → k = 0 ∨ b ≤ k
  | 0, _, _, hk => by cases hk
  | fuel + 1, i, hi, hk => by
    unfold Scopes.resolveFrom at hk
    split at hk
    · cases hk
    · rename_i f hf
      split at hk
      · cases hk
        exact hi
      · split at hk
        · cases hk
        · rename_i p hp
          have hparent : s.parent? i = some p := by
            unfold parent?
            rw [hf]
            exact hp
          rcases hi with rfl | hi
          · rw [hs.global] at hparent
            cases hparent
          · exact hs.resolveFrom (hs.outward hi hparent) hk

/-- A name means a global or one of a frame from `b` on. -/
theorem resolve (hs : s.Rooted b) {name : Text} {i k : Nat} (hi : b ≤ i)
    (hk : s.resolve i name = some k) : k = 0 ∨ b ≤ k :=
  hs.resolveFrom (.inr hi) hk

end Scopes.Rooted

namespace Machine

/-- Names are looked up only in the global frame and in frames from `b` on. -/
structure Confined (b : Nat) (m : Machine) : Prop where
  scope : b ≤ m.scope
  size : b ≤ m.scopes.size
  rooted : m.scopes.Rooted b

theorem Confined.of_sameShape {b : Nat} {m m' : Machine} (hm : Confined b m)
    (hshape : SameShape m m') : Confined b m' := by
  refine ⟨by rw [hshape.scope]; exact hm.scope, by rw [hshape.size]; exact hm.size, ?_⟩
  refine ⟨hm.rooted.pos, by rw [hshape.parent]; exact hm.rooted.global, fun hi hp => ?_⟩
  rw [hshape.parent] at hp
  exact hm.rooted.outward hi hp

/-- `Freezes b m m'`: if `m` is confined to frames from `b` on, the frames between these and the
    global one are in `m'` as they are in `m`. -/
structure Freezes (b : Nat) (m m' : Machine) : Prop extends SameShape m m' where
  frozen : Confined b m → ∀ i, i ≠ 0 → i < b → m'.scopes.frame? i = m.scopes.frame? i

section Freezes

variable {β : Nat} {a b c m : Machine}

theorem Freezes.of_scopes (hscope : b.scope = a.scope) (hscopes : b.scopes = a.scopes) :
    Freezes β a b :=
  ⟨⟨hscope, by rw [hscopes], fun i => by rw [hscopes]⟩, fun _ i _ _ => by rw [hscopes]⟩

theorem Freezes.trans (hab : Freezes β a b) (hbc : Freezes β b c) : Freezes β a c := by
  refine ⟨hab.toSameShape.trans hbc.toSameShape, fun ha i hne hi => ?_⟩
  rw [hbc.frozen (ha.of_sameShape hab.toSameShape) i hne hi]
  exact hab.frozen ha i hne hi

/-- What is set in the global frame, or in one from `β` on, touches no frame between. -/
theorem Freezes.set {k : Nat} {name : Text} {x : Binding} (hscope : b.scope = a.scope)
    (hscopes : b.scopes = a.scopes.set k name x) (hk : Confined β a → k = 0 ∨ β ≤ k) :
    Freezes β a b := by
  refine ⟨⟨hscope, by rw [hscopes, Scopes.size_set], fun i => by rw [hscopes, Scopes.parent?_set]⟩,
    fun ha i hne hi => ?_⟩
  have hik : i ≠ k := by
    have := hk ha
    omega
  rw [hscopes, Scopes.frame?_set_ne name x hik]

theorem Freezes.assign {name : Token} {v : Value} {scopes : Scopes}
    (ha : m.scopes.assign m.scope name v = .ok scopes) : Freezes β m { m with scopes } := by
  obtain ⟨k, x, hk, _, _, _, hset⟩ := Scopes.assign_ok ha
  exact .set rfl hset fun hm => hm.rooted.resolve hm.scope hk

theorem Freezes.declare (h : Host) (type : BaseType) (name : Token) (v : Value)
    (isMutable : Bool) : Freezes β m (Machine.declare h type name v isMutable m).2 := by
  have hscopes := declare_scopes h type name v isMutable m
  rw [Scopes.define_snd] at hscopes
  split at hscopes
  · exact .of_scopes (declare_scope ..) hscopes
  · exact .set (declare_scope ..) hscopes fun hm => .inr hm.scope

/-- A frame inside the current or the global one is confined as the current one is. -/
theorem Inside.confined {f : Frame} {m₀ m₁ m' : Machine} (hin : Inside f m m₀ m₁ m')
    (hf : ∀ p, f.parent = some p → p = 0 ∨ p = m.scope) (hm : Confined β m) :
    Confined β m₀ := by
  have hsize := hm.size
  have hpos := hm.rooted.pos
  refine ⟨by rw [hin.entered]; exact hsize, ?_, hpos, ?_, fun {i p} hi hp => ?_⟩
  · rw [hin.pushed, Scopes.size_push]
    omega
  · rw [hin.pushed, Scopes.parent?_push, if_neg (by omega)]
    exact hm.rooted.global
  · rw [hin.pushed, Scopes.parent?_push] at hp
    split at hp
    · rcases hf p hp with rfl | rfl
      · exact .inl rfl
      · exact .inr hm.scope
    · exact hm.rooted.outward hi hp

theorem Inside.frame? {f : Frame} {m₀ m₁ m' : Machine} (hin : Inside f m m₀ m₁ m')
    (hrun : Freezes β m₀ m₁) (h₀ : Confined β m₀) (hβ : β ≤ m.scopes.size) {i : Nat} (hne : i ≠ 0)
    (hi : i < β) : m'.scopes.frame? i = m.scopes.frame? i := by
  have hsize := hin.size hrun.toSameShape
  rw [hin.popped, Scopes.frame?_pop (by omega), hrun.frozen h₀ i hne hi, hin.pushed,
    Scopes.frame?_push f (by omega)]

theorem Inside.freezes {f : Frame} {m₀ m₁ m' : Machine} (hin : Inside f m m₀ m₁ m')
    (hf : ∀ p, f.parent = some p → p = 0 ∨ p = m.scope) (hrun : Freezes β m₀ m₁) :
    Freezes β m m' :=
  ⟨hin.sameShape hrun.toSameShape, fun hm _ hne hi =>
    hin.frame? hrun (hin.confined hf hm) hm.size hne hi⟩

end Freezes

/-- **A run that is confined leaves the frames between alone.** -/
theorem freezes_conduct (h : Host) (β : Nat) : Conduct h (Freezes β) (Freezes β) where
  refl _ := .of_scopes rfl rfl
  trans := .trans
  transS := .trans
  ofE := id
  write _ _ := .of_scopes rfl rfl
  probe _ _ := .of_scopes rfl rfl
  tick _ := .of_scopes rfl rfl
  log _ _ := .of_scopes (log_scope ..) (log_scopes ..)
  read _ := .of_scopes rfl rfl
  assign := .assign
  declare m type name v isMutable _ := .declare h type name v isMutable
  function m f :=
    .set (declareFunction_scope ..) (declareFunction_scopes ..) fun hm => .inr hm.scope
  block {m m'} hbody := (Inside.block h _ m m').freezes (fun p hp => .inr (by cases hp; rfl)) hbody
  call {m m' _ _ frame} _ hb hbody := (Inside.call h frame m m').freezes
    (fun p hp => .inl (by rw [parent_of_bindParams hb] at hp; cases hp; rfl)) hbody

/-- There is a global frame, and no frame around it. -/
def HasGlobal (m : Machine) : Prop :=
  0 < m.scopes.size ∧ m.scopes.parent? 0 = none

/-- **A call of a declared function leaves all frames but the global one as they are.** -/
theorem frame?_call {h : Host} {n : Nat} (f : Function) (args : List Value) {m : Machine}
    (hm : m.HasGlobal) {i : Nat} (hne : i ≠ 0) (hi : i < m.scopes.size) :
    (Machine.call h n f args m).2.scopes.frame? i = m.scopes.frame? i := by
  cases n with
  | zero => rfl
  | succ n =>
    by_cases hdepth : h.limit ≤ m.depth
    · rw [call_snd_of_limit hdepth]
    · cases hb : bindParams f.params args ⟨some 0, []⟩ with
      | error c => rw [call_snd_of_error hb]
      | ok frame =>
        rw [call_snd hdepth hb]
        have hin := Inside.call h frame m (execAll h n f.body (m.descend.enter h frame)).2
        have hrun := ((freezes_conduct h m.scopes.size).holds n).execAll f.body
          (m.descend.enter h frame)
        refine hin.frame? hrun ?_ (Nat.le_refl _) hne hi
        -- the frame of the call is the only one from its number on
        refine ⟨Nat.le_of_eq hin.entered.symm, ?_, hm.1, ?_, fun {j p} hj hp => ?_⟩
        · rw [hin.pushed, Scopes.size_push]
          exact Nat.le_succ _
        · rw [hin.pushed, Scopes.parent?_push, if_neg (Nat.ne_of_lt hm.1)]
          exact hm.2
        · rw [hin.pushed, Scopes.parent?_push] at hp
          split at hp
          · rw [parent_of_bindParams hb] at hp
            cases hp
            exact .inl rfl
          · rw [Scopes.parent?_eq_none_of_size_le hj] at hp
            cases hp

/-! ## 5. Machines that a session reaches -/

theorem HasGlobal.of_sameShape {m m' : Machine} (hm : m.HasGlobal) (hshape : SameShape m m') :
    m'.HasGlobal := by
  refine ⟨?_, ?_⟩
  · rw [hshape.size]
    exact hm.1
  · rw [hshape.parent]
    exact hm.2

theorem HasGlobal.push {m m' : Machine} {f : Frame} (hm : m.HasGlobal)
    (hscopes : m'.scopes = m.scopes.push f) : m'.HasGlobal := by
  refine ⟨?_, ?_⟩
  · rw [hscopes, Scopes.size_push]
    exact Nat.succ_pos _
  · rw [hscopes, Scopes.parent?_push, if_neg (Nat.ne_of_lt hm.1)]
    exact hm.2

theorem hasGlobal_invariant (h : Host) : Invariant h (Keeps nowhere nowhere)
    (fun m m' => Keeps (inFrame m.scope) (inFrame m.scope) m m') HasGlobal where
  toConduct := keeps_conduct h
  keep hkeeps hm := hm.of_sameShape hkeeps.toSameShape
  keepS hkeeps hm := hm.of_sameShape hkeeps.toSameShape
  enterBlock hm := hm.push (enter_scopes ..)
  enterCall _ _ hm := hm.push (enter_scopes ..)
  enterProgram := id

theorem hasGlobal_foldl_defineNative : ∀ (ns : List Native) {m : Machine}, m.HasGlobal →
    (ns.foldl defineNative m).HasGlobal
  | [], _, hm => hm
  | n :: ns, m, hm => by
    refine hasGlobal_foldl_defineNative ns ?_
    unfold HasGlobal defineNative
    rw [Scopes.define_snd]
    split
    · exact hm
    · rw [Scopes.size_set, Scopes.parent?_set]
      exact hm

theorem hasGlobal_of_moment {input : Input} {m : Machine} (hm : Moment input m) : m.HasGlobal :=
  Invariant.moment hasGlobal_invariant
    (hasGlobal_foldl_defineNative Native.standard ⟨Nat.one_pos, rfl⟩) hm

end Machine

/-- **The frame property.** From every machine that a session reaches, and whatever the outcome:

    * a statement keeps the names of all existing frames, with their types, their flags and the
      values of those that cannot be assigned, except for names of the current frame that it
      redeclares as functions, and new names are names that it declares in the current frame;
    * a block changes no name, type or flag;
    * nor does a call of a declared function, which besides leaves every frame but the global one
      as it is. -/
theorem run_keeps_frames {input : Input} {m : Machine} (hm : Moment input m) (h : Host)
    (n : Nat) :
    (∀ s, Keeps (Ran h ⟨n, .exec s, m⟩ Stmt.DeclaresFunction)
      (Ran h ⟨n, .exec s, m⟩ Stmt.Declares) m (exec h n s m).2) ∧
    (∀ opening body, Keeps nowhere nowhere m (exec h n (.block opening body) m).2) ∧
    (∀ f args, Keeps nowhere nowhere m (call h n f args m).2 ∧
      ∀ i, i ≠ 0 → i < m.scopes.size →
        (call h n f args m).2.scopes.frame? i = m.scopes.frame? i) := by
  refine ⟨fun s => (traced h n).exec s m, fun opening body => keeps_block opening body m,
    fun f args => ⟨((keeps_conduct h).holds n).call f args m, fun i hne hi => ?_⟩⟩
  exact frame?_call f args (hasGlobal_of_moment hm) hne hi

/-- A program of one line: `BEGIN CODE IMMUT INT x = 7 END CODE`. -/
def constantProgram : List Token :=
  let word (k : Kind) : Token := ⟨k, k.label, none, .start⟩
  [word .kwBegin, word .kwCode, word .kwImmut, word (.type .int),
   ⟨.identifier, utf8 "x", none, .start⟩, word .assign, ⟨.intLit, utf8 "7", some (.int 7), .start⟩,
   word .kwEnd, word .kwCode]

/-- The block `BEGIN INT x END`. -/
def shadowingBlock : Stmt :=
  .block ⟨.kwBegin, utf8 "BEGIN", none, .start⟩
    [.declare .int ⟨.identifier, utf8 "x", none, .start⟩ none true]

/-- Once the program has run, `x` is a constant, and a block that declares another `x` leaves it
    so. -/
theorem shadowingBlock_keeps_constant :
    let m := (execute {} 50 (Program.ofTokens constantProgram).stmts (.standard .empty)).2
    ∃ b b', m.scopes.get? 0 (utf8 "x") = some b ∧ b.isMutable = false ∧
      (exec {} 50 shadowingBlock m).2.scopes.get? 0 (utf8 "x") = some b' ∧ b.Kept b' := by
  intro m
  have hok : (Program.ofTokens constantProgram).diagnostics = [] :=
    List.isEmpty_iff.mp (by decide +kernel)
  have hm : Moment .empty m := .rest (.program {} 50 constantProgram .start hok)
  have hx : (m.scopes.get? 0 (utf8 "x")).map Binding.isMutable = some false := by decide +kernel
  obtain ⟨b, hb, hflag⟩ := Option.map_eq_some_iff.mp hx
  obtain ⟨b', hb', hkept⟩ := ((run_keeps_frames hm {} 50).2.1 _ _).bound hb
  exact ⟨b, b', hb, hflag, hb', hkept.resolve_right id⟩

end FencedCode
