import FencedCode.Proofs.Machine.CallDepth
import FencedCode.Proofs.Machine.Settling

/-!
# Runs of trees that resemble each other

Two trees that resemble each other run on two machines. Whenever the first run ends, the second one
ends like it if it is granted enough steps: with a like result, in machines that correspond. Which
machines correspond is open; a relation between them only has to respect each step.

* `Translation` -- what a relation between machines has to respect, one field for each step;
* `Translation.eval_matches`, … -- a layer of a tree, from the parts inside it;
* `Translation.holds` -- **the second run matches the first one**, by induction on its steps;
* `Translation.halts` -- so **the second program halts like the first one if that halts**.

With the sides exchanged the same says that the first program halts if the second one does.
-/

namespace FencedCode

open Exec Machine

/-! ## 1. Relations that runs respect -/

/-- A relation between the machines of two runs of trees that resemble each other, which every step
    respects. -/
structure Translation (h : Host) (R : Resemblance) (M : Machine → Machine → Prop) : Prop where
  depth {m₁ m₂ : Machine} : M m₁ m₂ → m₁.depth = m₂.depth
  write {m₁ m₂ : Machine} (t : Text) : M m₁ m₂ → M (m₁.write t) (m₂.write t)
  probe {m₁ m₂ : Machine} {v v' : Value} : v.Like R v' → M m₁ m₂ →
    M { m₁ with probes := v :: m₁.probes } { m₂ with probes := v' :: m₂.probes }
  /-- What is recorded may differ. -/
  log {m₁ m₂ : Machine} (e e' : Event) : M m₁ m₂ → M (m₁.log h e) (m₂.log h e')
  /-- Both look at the clock for the same time. -/
  tick {m₁ m₂ : Machine} : M m₁ m₂ → m₁.ticks = m₂.ticks ∧
    M { m₁ with ticks := m₁.ticks + 1 } { m₂ with ticks := m₂.ticks + 1 }
  read {m₁ m₂ : Machine} : M m₁ m₂ → m₁.input = m₂.input ∧
    M { m₁ with input := m₁.input.readLine.2 } { m₂ with input := m₂.input.readLine.2 }
  value {m₁ m₂ : Machine} {name name' : Token} : M m₁ m₂ → R.token name name' →
    Outcome R (Value.Like R) (getValue name m₁).1 (getValue name' m₂).1
  assign {m₁ m₂ : Machine} {name name' : Token} {v v' : Value} : M m₁ m₂ → R.token name name' →
    v.Like R v' → Outcome R (fun _ _ => True) (Exec.assign name v m₁).1
      (Exec.assign name' v' m₂).1 ∧ M (Exec.assign name v m₁).2 (Exec.assign name' v' m₂).2
  declare {m₁ m₂ : Machine} {type : BaseType} {name name' : Token} {v : Value} (isMutable : Bool) :
    M m₁ m₂ → R.token name name' → v = .null ∨ v.type = .base type →
    M (Machine.declare h type name v isMutable m₁).2 (Machine.declare h type name' v isMutable m₂).2
  function {m₁ m₂ : Machine} {f g : Function} : M m₁ m₂ → R.function f g →
    M (declareFunction h f m₁).2 (declareFunction h g m₂).2
  enterBlock {m₁ m₂ : Machine} : M m₁ m₂ →
    M (m₁.enter h ⟨some m₁.scope, []⟩) (m₂.enter h ⟨some m₂.scope, []⟩)
  leaveBlock {m₁ m₂ : Machine} {n n' : Nat} {ss ss' : List Stmt} : M m₁ m₂ →
    M (Machine.execAll h n ss (m₁.enter h ⟨some m₁.scope, []⟩)).2
      (Machine.execAll h n' ss' (m₂.enter h ⟨some m₂.scope, []⟩)).2 →
    M ((Machine.execAll h n ss (m₁.enter h ⟨some m₁.scope, []⟩)).2.leave h m₁.scope)
      ((Machine.execAll h n' ss' (m₂.enter h ⟨some m₂.scope, []⟩)).2.leave h m₂.scope)
  enterCall {m₁ m₂ : Machine} {params : List Param} {args : List Value} {frame : Frame} :
    M m₁ m₂ → m₁.depth < h.limit → bindParams params args ⟨some 0, []⟩ = .ok frame →
    M (m₁.descend.enter h frame) (m₂.descend.enter h frame)
  leaveCall {m₁ m₂ : Machine} {params : List Param} {args : List Value} {frame : Frame}
    {n n' : Nat} {ss ss' : List Stmt} :
    M m₁ m₂ → m₁.depth < h.limit → bindParams params args ⟨some 0, []⟩ = .ok frame →
    M (Machine.execAll h n ss (m₁.descend.enter h frame)).2
      (Machine.execAll h n' ss' (m₂.descend.enter h frame)).2 →
    M ((Machine.execAll h n ss (m₁.descend.enter h frame)).2.leave h m₁.scope).ascend
      ((Machine.execAll h n' ss' (m₂.descend.enter h frame)).2.leave h m₂.scope).ascend
  /-- Operands that are equal on one side are equal on the other. -/
  equal {m₁ m₂ n₁ n₂ k₁ k₂ : Machine} {n n' : Nat} {l l' r r' : Expr} {a a' b b' : Value} :
    M m₁ m₂ → Machine.eval h n l m₁ = (.ok a, n₁) → Machine.eval h n r n₁ = (.ok b, k₁) →
    Machine.eval h n' l' m₂ = (.ok a', n₂) → Machine.eval h n' r' n₂ = (.ok b', k₂) →
    a.Like R a' → b.Like R b' → a.equal b = a'.equal b'

namespace Translation

variable {h : Host} {R : Resemblance} {M : Machine → Machine → Prop} {m₁ m₂ : Machine}

/-! ## 2. Parts without recursion -/

theorem getValue_matches (C : Translation h R M) {name name' : Token} (hname : R.token name name')
    (hm : M m₁ m₂) :
    Matches R M (Value.Like R) (getValue name) (fun _ => getValue name') m₁ m₂ := by
  refine matches_const (C.value hm hname) ?_
  rw [getValue_snd, getValue_snd]
  exact hm

theorem assign_matches (C : Translation h R M) {name name' : Token} (hname : R.token name name')
    {v v' : Value} (hv : v.Like R v') (hm : M m₁ m₂) :
    Matches R M (fun _ _ => True) (Exec.assign name v) (fun _ => Exec.assign name' v') m₁ m₂ := by
  obtain ⟨hresult, hmachine⟩ := C.assign hm hname hv
  exact matches_const hresult hmachine

theorem assignScanned_matches (C : Translation h R M) :
    ∀ {names names' : List Token} (ts : List Token) {m₁ m₂ : Machine},
      List.Forall₂ R.token names names' → M m₁ m₂ →
      Matches R M (fun _ _ => True) (Machine.assignScanned names ts)
        (fun _ => Machine.assignScanned names' ts) m₁ m₂
  | [], _, _, _, _, .nil, hm => matches_pure trivial hm
  | name :: names, name' :: names', ts, m₁, m₂, .cons hname hnames, hm => by
    have hlexeme : name.lexeme = name'.lexeme := R.token_lexeme hname
    have hshort (hts : ts.length ≤ 1) : Matches R M (fun _ _ => True)
        (Machine.assignScanned (name :: names) ts)
        (fun _ => Machine.assignScanned (name' :: names') ts) m₁ m₂ := by
      rw [assignScanned_of_short hts, assignScanned_of_short hts, hlexeme]
      exact matches_fail (.fault hname) hm
    rcases ts with _ | ⟨t, _ | ⟨u, ts⟩⟩
    · exact hshort (Nat.zero_le 1)
    · exact hshort (Nat.le_refl 1)
    · have hvalue : (Value.ofLiteral? t.literal).Like R (.ofLiteral? t.literal) := .refl _
      rw [assignScanned_cons, assignScanned_cons]
      refine Matches.bind (q := fun _ => Exec.assign name' _)
        (g := fun _ _ => Machine.assignScanned _ ts)
        (C.assign_matches hname hvalue hm) fun _ hm' _ _ => ?_
      exact assignScanned_matches C ts hnames hm'

/-- Both runs read the same line. -/
theorem readLine_matches (C : Translation h R M) (hm : M m₁ m₂) :
    Matches R M Eq readLine (fun _ => readLine) m₁ m₂ := by
  obtain ⟨hinput, hmachine⟩ := C.read hm
  have hline : m₁.input.readLine.1 = m₂.input.readLine.1 := by rw [hinput]
  exact matches_const (.ok hline) hmachine

theorem scanLine_matches (C : Translation h R M) {k k' : Token} (hk : R.token k k')
    {names names' : List Token} (hnames : List.Forall₂ R.token names names') (hm : M m₁ m₂) :
    Matches R M (fun _ _ => True) (Machine.scanLine k names) (fun _ => Machine.scanLine k' names')
      m₁ m₂ := by
  unfold Machine.scanLine
  refine Matches.bind (q := fun _ => readLine) (C.readLine_matches hm)
    fun {r r' _ _} hr hm' _ _ => ?_
  subst hr
  rcases r with (_ | reason) | line
  · exact matches_fail (.fault hk) hm'
  · exact matches_fail (.refl _) hm'
  · exact C.assignScanned_matches _ hnames hm'

theorem write_matches (C : Translation h R M) (t : Text) (hm : M m₁ m₂) :
    Matches R M (fun _ _ => True) (Exec.modify fun m => m.write t)
      (fun _ => Exec.modify fun m => m.write t) m₁ m₂ :=
  matches_const (.ok trivial) (C.write t hm)

theorem prompt_matches (C : Translation h R M) (args : List Value) (hm : M m₁ m₂) :
    Matches R M (Value.Like R) (Native.prompt args) (fun _ => Native.prompt args) m₁ m₂ := by
  unfold Native.prompt
  refine Matches.bind (A := Eq) (q := fun _ => lift (entry args 0))
    (matches_lift (.refl (fun _ => rfl) _) hm) fun {v v' _ _} hv hm' _ _ => ?_
  subst hv
  refine Matches.bind (q := fun _ => Exec.modify fun m => m.write (Text.line v.text))
    (C.write_matches _ hm') fun _ hm' _ _ => ?_
  refine Matches.bind (q := fun _ => readLine) (C.readLine_matches hm')
    fun {r r' _ _} hr hm'' _ _ => ?_
  subst hr
  rcases r with (_ | reason) | line
  · exact matches_fail (.refl _) hm''
  · exact matches_fail (.refl _) hm''
  · exact matches_pure (.refl _) hm''

/-- Both runs see the same time. -/
theorem time_matches (C : Translation h R M) (hm : M m₁ m₂) :
    Matches R M (Value.Like R) (Native.time h) (fun _ => Native.time h) m₁ m₂ := by
  obtain ⟨hticks, hmachine⟩ := C.tick hm
  have hreading : h.clockMillis.reading m₁.ticks = h.clockMillis.reading m₂.ticks := by rw [hticks]
  refine Matches.bind (A := Eq) (q := fun _ => lookAtClock h)
    (matches_const (.ok hreading) hmachine) fun ht hm' _ _ => ?_
  subst ht
  exact matches_pure (.refl _) hm'

/-- The recorded arguments correspond, and so do the results. -/
theorem record_matches (C : Translation h R M) {args args' : List Value}
    (hargs : List.Forall₂ (Value.Like R) args args') (hm : M m₁ m₂) :
    Matches R M (Value.Like R) (Native.record args) (fun _ => Native.record args') m₁ m₂ := by
  unfold Native.record
  rcases Native.entry_like hargs 0 with ⟨v, v', hv, hv', hlike⟩ | ⟨hv, hv'⟩
  · rw [hv, hv', lift_ok_bind, lift_ok_bind]
    refine Matches.bind (q := fun _ => Exec.modify _) (A := fun _ _ => True)
      (matches_const (.ok trivial) (C.probe hlike hm)) fun _ hm' _ _ => ?_
    exact matches_pure hlike hm'
  · rw [hv, hv']
    exact matches_fail (.refl _) hm

theorem native_matches (C : Translation h R M) (k : Native) {args args' : List Value}
    (hargs : List.Forall₂ (Value.Like R) args args') (hm : M m₁ m₂) :
    Matches R M (Value.Like R) (k.run h args) (fun _ => k.run h args') m₁ m₂ := by
  have hlift (r : Except Failure Value) :
      Matches R M (Value.Like R) (Exec.lift r) (fun _ => Exec.lift r) m₁ m₂ :=
    matches_lift (.refl .refl r) hm
  by_cases hk : k = .probe
  · subst hk
    exact C.record_matches hargs hm
  · rw [Native.run_eq h hargs hk]
    unfold Native.run
    split
    -- the natives on floats look at their arguments only
    any_goals exact hlift _
    · exact C.time_matches hm
    · exact C.prompt_matches _ hm
    · exact absurd rfl hk

/-! ## 3. The induction over the first run -/

/-- The first runs that are granted `n` steps are matched. -/
structure At (h : Host) (R : Resemblance) (M : Machine → Machine → Prop) (n : Nat) : Prop where
  eval {e e' : Expr} {m₁ m₂ : Machine} : R.expr e e' → M m₁ m₂ →
    Matches R M (Value.Like R) (Machine.eval h n e) (fun k => Machine.eval h k e') m₁ m₂
  evalAll {es es' : List Expr} {m₁ m₂ : Machine} : List.Forall₂ R.expr es es' → M m₁ m₂ →
    Matches R M (List.Forall₂ (Value.Like R)) (Machine.evalAll h n es)
      (fun k => Machine.evalAll h k es') m₁ m₂
  apply {v v' : Value} {args args' : List Value} {m₁ m₂ : Machine} : v.Like R v' →
    List.Forall₂ (Value.Like R) args args' → M m₁ m₂ →
    Matches R M (Value.Like R) (Machine.apply h n v args) (fun k => Machine.apply h k v' args')
      m₁ m₂
  call {f g : Function} {args args' : List Value} {m₁ m₂ : Machine} : R.function f g →
    List.Forall₂ (Value.Like R) args args' → M m₁ m₂ →
    Matches R M (Value.Like R) (Machine.call h n f args) (fun k => Machine.call h k g args') m₁ m₂
  exec {s s' : Stmt} {m₁ m₂ : Machine} : R.stmt s s' → M m₁ m₂ →
    Matches R M (Completion.Like R) (Machine.exec h n s) (fun k => Machine.exec h k s') m₁ m₂
  execAll {ss ss' : List Stmt} {m₁ m₂ : Machine} : R.body ss ss' → M m₁ m₂ →
    Matches R M (Completion.Like R) (Machine.execAll h n ss) (fun k => Machine.execAll h k ss')
      m₁ m₂
  execOthers {o o' : Alternatives} {m₁ m₂ : Machine} : R.others o o' → M m₁ m₂ →
    Matches R M (Completion.Like R) (Machine.execOthers h n 0 o)
      (fun k => Machine.execOthers h k 0 o') m₁ m₂
  execLoop {c c' : Expr} {b b' : List Stmt} {m₁ m₂ : Machine} : R.expr c c' → R.body b b' →
    M m₁ m₂ → Matches R M (Completion.Like R) (Machine.execLoop h n c b)
      (fun k => Machine.execLoop h k c' b') m₁ m₂

theorem at_zero : At h R M 0 where
  eval _ _ := matches_exhausted
  evalAll _ _ := matches_exhausted
  apply _ _ _ := matches_exhausted
  call _ _ _ := matches_exhausted
  exec _ _ := matches_exhausted
  execAll _ _ := matches_exhausted
  execOthers _ _ := matches_exhausted
  execLoop _ _ _ := matches_exhausted

variable {n : Nat}

/-! ### Expressions -/

/-- Both operands are evaluated on both sides, so the operator sees like values. -/
theorem binary_matches (C : Translation h R M) (ih : At h R M n) {l l' r r' : Expr}
    {op op' : Token} (hl : R.expr l l') (hop : R.token op op') (hr : R.expr r r') (hm : M m₁ m₂) :
    Matches R M (Value.Like R) (Machine.eval h (n + 1) (.binary l op r))
      (fun k => Machine.eval h (k + 1) (.binary l' op' r')) m₁ m₂ := by
  refine Matches.bind (g := fun k a' => Machine.eval h k r' >>= fun b' => lift _)
    (ih.eval hl hm) fun {a a' n₁ n₂} ha hn hleft hleft' => ?_
  refine Matches.bind (g := fun _ b' => lift (Operator.binary op' a' b'))
    (ih.eval hr hn) fun {b b' k₁ k₂} hb hk hright hright' => ?_
  obtain ⟨n', hrunl, hrunr⟩ := hleft'.both hright'
  have hequal : a.equal b = a'.equal b' := C.equal hm hleft hright hrunl hrunr ha hb
  exact matches_lift (Operator.binary_like hop ha hb hequal) hk

/-- The right side of a logical operator is evaluated on both sides or on none. -/
theorem logical_matches (ih : At h R M n) {l l' r r' : Expr} {op op' : Token} (hl : R.expr l l')
    (hop : R.token op op') (hr : R.expr r r') (hm : M m₁ m₂) :
    Matches R M (Value.Like R) (Machine.eval h (n + 1) (.logical l op r))
      (fun k => Machine.eval h (k + 1) (.logical l' op' r')) m₁ m₂ := by
  have hkind : op.kind = op'.kind := R.token_kind hop
  refine Matches.bind (g := fun k (a' : Value) =>
    if a'.isTruthy = (op'.kind = .kwOr : Bool) then pure a' else Machine.eval h k r')
    (ih.eval hl hm) fun {a a' _ _} ha hn _ _ => ?_
  rw [← ha.isTruthy_eq, ← hkind]
  by_cases hdecided : a.isTruthy = (op.kind = .kwOr : Bool)
  · simp only [if_pos hdecided]
    exact matches_pure ha hn
  · simp only [if_neg hdecided]
    exact ih.eval hr hn

/-- An expression matches if its parts do. A pair of parentheses around the second expression takes
    a step of the second run only, so the induction goes on inside it. -/
theorem eval_succ (C : Translation h R M) (ih : At h R M n) : ∀ {e e' : Expr} {m₁ m₂ : Machine},
    R.expr e e' → M m₁ m₂ → Matches R M (Value.Like R) (Machine.eval h (n + 1) e)
      (fun k => Machine.eval h k e') m₁ m₂ := by
  intro e e' m₁ m₂ he hm
  cases R.expr_layer he with
  | closed hinner => exact (eval_succ C ih hinner hm).of_succ
  | opened hinner => exact ih.eval hinner hm
  | literal ht =>
    refine Matches.of_succ (matches_pure ?_ hm)
    rw [R.token_literal ht]
    exact .refl _
  | grouping hinner => exact (ih.eval hinner hm).of_succ
  | unary hop hinner =>
    refine Matches.of_succ (Matches.bind (g := fun _ v' => lift _) (ih.eval hinner hm) ?_)
    intro v v' _ _ hv hn _ _
    exact matches_lift (Operator.unary_like hop hv) hn
  | binary hl hop hr => exact (C.binary_matches ih hl hop hr hm).of_succ
  | logical hl hop hr => exact (logical_matches ih hl hop hr hm).of_succ
  | ref hname => exact Matches.of_succ (C.getValue_matches hname hm)
  | @assign name name' _ _ hname hinner =>
    refine Matches.of_succ (Matches.bind
      (g := fun _ v' => Exec.assign name' v' >>= fun _ => pure v')
      (ih.eval hinner hm) fun {v v' _ _} hv hn _ _ => ?_)
    refine Matches.bind (q := fun _ => Exec.assign name' v') (g := fun _ _ => pure v')
      (C.assign_matches hname hv hn) fun _ hk _ _ => ?_
    exact matches_pure hv hk
  | @call _ _ paren paren' args args' hcallee hparen hargs =>
    refine Matches.of_succ (Matches.bind (g := fun k f' => Machine.evalAll h k args' >>= fun vs' =>
      located paren' (Machine.apply h k f' vs')) (ih.eval hcallee hm)
      fun {f f' _ _} hf hn _ _ => ?_)
    refine Matches.bind (g := fun k vs' => located paren' (Machine.apply h k f' vs'))
      (ih.evalAll hargs hn) fun hvs hk _ _ => ?_
    exact (ih.apply hf hvs hk).located hparen
termination_by _ e' => sizeOf e'

theorem evalAll_succ (ih : At h R M n) {es es' : List Expr} (hes : List.Forall₂ R.expr es es')
    (hm : M m₁ m₂) : Matches R M (List.Forall₂ (Value.Like R)) (Machine.evalAll h (n + 1) es)
      (fun k => Machine.evalAll h k es') m₁ m₂ := by
  cases hes with
  | nil => exact Matches.of_succ (matches_pure .nil hm)
  | @cons _ _ _ es' he hes =>
    refine Matches.of_succ (Matches.bind (g := fun k v' => Machine.evalAll h k es' >>= fun vs' =>
      pure (v' :: vs')) (ih.eval he hm) fun {v v' _ _} hv hn _ _ => ?_)
    refine Matches.bind (g := fun _ vs' => pure (v' :: vs')) (ih.evalAll hes hn)
      fun hvs hk _ _ => ?_
    exact matches_pure (.cons hv hvs) hk

/-! ### Calls -/

theorem apply_succ (C : Translation h R M) (ih : At h R M n) {v v' : Value}
    {args args' : List Value} (hv : v.Like R v') (hargs : List.Forall₂ (Value.Like R) args args')
    (hm : M m₁ m₂) : Matches R M (Value.Like R) (Machine.apply h (n + 1) v args)
      (fun k => Machine.apply h k v' args') m₁ m₂ := by
  have hcount : args.length = args'.length := hargs.length_eq
  have hnote (e e' : Event) : Matches R M (fun _ _ => True) (note h e) (fun _ => note h e') m₁ m₂ :=
    matches_const (.ok trivial) (C.log _ _ hm)
  refine Matches.of_succ ?_
  simp only [Machine.apply]
  rcases hv.callable with ⟨hc, hc'⟩ | ⟨k, hc, hc'⟩ | ⟨f, g, copy, hc, hc', hf⟩
  · rw [hc, hc']
    exact matches_fail (.refl _) hm
  · rw [hc, hc']
    dsimp only
    rw [← hcount]
    split
    · exact matches_fail (.refl _) hm
    · refine Matches.bind (q := fun _ => note h _) (g := fun _ _ => k.run h args')
        (hnote _ _) fun _ hn _ _ => ?_
      exact C.native_matches k hargs hn
  · have harity : (Callable.user f copy).arity = (Callable.user g copy).arity :=
      congrArg Nat.cast (R.function_params hf).length_eq
    rw [hc, hc']
    dsimp only
    rw [← hcount, ← harity]
    split
    · exact matches_fail (.refl _) hm
    · refine Matches.bind (q := fun _ => note h _) (g := fun k _ => Machine.call h k g args')
        (hnote _ _) fun _ hn _ _ => ?_
      exact ih.call hf hargs hn

/-- The bodies of both calls run in equal frames, one level deeper. -/
theorem call_succ (C : Translation h R M) (ih : At h R M n) {f g : Function}
    {args args' : List Value} (hf : R.function f g)
    (hargs : List.Forall₂ (Value.Like R) args args') (hm : M m₁ m₂) :
    Matches R M (Value.Like R) (Machine.call h (n + 1) f args)
      (fun k => Machine.call h k g args') m₁ m₂ := by
  have hname : f.name.lexeme = g.name.lexeme := R.token_lexeme (R.function_name hf)
  have hdepth : m₁.depth = m₂.depth := C.depth hm
  have hframe := bindParams_eq ⟨some 0, []⟩ (R.function_params hf) hargs
  refine Matches.of_succ ?_
  unfold Matches
  by_cases hlimit : h.limit ≤ m₁.depth
  · rw [call_of_limit hlimit]
    refine .inr ⟨_, ⟨0, fun k _ => call_of_limit (hdepth ▸ hlimit)⟩, .error ?_, hm⟩
    rw [hname]
    exact .refl _
  have hlimit' : ¬ h.limit ≤ m₂.depth := hdepth ▸ hlimit
  cases hb : bindParams f.params args ⟨some 0, []⟩ with
  | error c =>
    have hb' : bindParams g.params args' ⟨some 0, []⟩ = .error c := hframe ▸ hb
    rw [call_of_mismatch hlimit hb]
    exact .inr ⟨_, ⟨0, fun k _ => call_of_mismatch hlimit' hb'⟩, .error (.refl _), hm⟩
  | ok frame =>
    have hb' : bindParams g.params args' ⟨some 0, []⟩ = .ok frame := hframe ▸ hb
    have hdepth₁ : m₁.depth < h.limit := Nat.lt_of_not_le hlimit
    rw [call_fst hlimit hb, call_snd hlimit hb]
    rcases ih.execAll (R.function_body hf) (C.enterCall hm hdepth₁ hb) with
      hexhausted | ⟨y, ⟨enough, hbody⟩, hresult, hend⟩
    · rw [hexhausted]
      exact .inl rfl
    · have hsettles : Settles (fun k => Machine.call h (k + 1) g args') m₂
          (y.1.bind (resultOf g), (y.2.leave h m₂.scope).ascend) := by
        refine ⟨enough, fun k hk => ?_⟩
        have hrun : Machine.execAll h k g.body (m₂.descend.enter h frame) = y := hbody k hk
        refine Prod.ext ?_ ?_
        · show (Machine.call h (k + 1) g args' m₂).1 = _
          rw [call_fst hlimit' hb', hrun]
        · show (Machine.call h (k + 1) g args' m₂).2 = _
          rw [call_snd hlimit' hb', hrun]
      refine .inr ⟨_, hsettles, ?_, ?_⟩
      · generalize (Machine.execAll h n f.body _).1 = r at hresult
        generalize y.1 = r' at hresult
        cases hresult with
        | ok hc => exact resultOf_like hf hc
        | error hx => exact .error hx
      · have hlast := hbody enough (Nat.le_refl enough)
        rw [← hlast] at hend ⊢
        exact C.leaveCall hm hdepth₁ hb hend

/-! ### Statements -/

theorem block_matches (C : Translation h R M) (ih : At h R M n) {b b' : List Stmt}
    (hb : R.body b b') (hm : M m₁ m₂) :
    Matches R M (Completion.Like R) (inBlock h (Machine.execAll h n b))
      (fun k => inBlock h (Machine.execAll h k b')) m₁ m₂ := by
  rcases ih.execAll hb (C.enterBlock hm) with hexhausted | ⟨y, ⟨enough, hbody⟩, hresult, hend⟩
  · exact .inl hexhausted
  · have hsettles : Settles (fun k => inBlock h (Machine.execAll h k b')) m₂
        (y.1, y.2.leave h m₂.scope) := by
      refine ⟨enough, fun k hk => ?_⟩
      have hrun : Machine.execAll h k b' (m₂.enter h ⟨some m₂.scope, []⟩) = y := hbody k hk
      show inScope h ⟨some m₂.scope, []⟩ (Machine.execAll h k b') m₂ = _
      unfold inScope
      rw [hrun]
    have hlast := hbody enough (Nat.le_refl enough)
    refine .inr ⟨_, hsettles, hresult, ?_⟩
    rw [← hlast] at hend ⊢
    exact C.leaveBlock hm hend

/-- Both sides take the same branch. -/
theorem branch_matches (ih : At h R M n) {c c' : Expr} {b b' : List Stmt} {o o' : Alternatives}
    (hc : R.expr c c') (hb : R.body b b') (ho : R.others o o') (hm : M m₁ m₂) :
    Matches R M (Completion.Like R)
      (Machine.eval h n c >>= fun v =>
        if v.isTruthy then Machine.execAll h n b else Machine.execOthers h n 0 o)
      (fun k => Machine.eval h k c' >>= fun v =>
        if v.isTruthy then Machine.execAll h k b' else Machine.execOthers h k 0 o') m₁ m₂ := by
  refine Matches.bind (g := fun k (v : Value) =>
    if v.isTruthy then Machine.execAll h k b' else Machine.execOthers h k 0 o')
    (ih.eval hc hm) fun {v v' _ _} hv hn _ _ => ?_
  rw [← hv.isTruthy_eq]
  cases v.isTruthy with
  | true => exact ih.execAll hb hn
  | false => exact ih.execOthers ho hn

/-- Both sides lack a body. -/
theorem bodiless_matches (ih : At h R M n) {c c' : Expr} {o o' : Alternatives}
    (hc : R.expr c c') (ho : R.others o o') (hm : M m₁ m₂) :
    Matches R M (Completion.Like R)
      (Machine.eval h n c >>= fun v =>
        if v.isTruthy then fail .outOfRange else Machine.execOthers h n 0 o)
      (fun k => Machine.eval h k c' >>= fun v =>
        if v.isTruthy then fail .outOfRange else Machine.execOthers h k 0 o') m₁ m₂ := by
  refine Matches.bind (g := fun k (v : Value) =>
    if v.isTruthy then fail .outOfRange else Machine.execOthers h k 0 o')
    (ih.eval hc hm) fun {v v' _ _} hv hn _ _ => ?_
  rw [← hv.isTruthy_eq]
  cases v.isTruthy with
  | true => exact matches_fail (.refl _) hn
  | false => exact ih.execOthers ho hn

theorem declare_matches (C : Translation h R M) {type : BaseType} {name name' : Token} {v : Value}
    {isMutable : Bool} (hname : R.token name name') (hv : v = .null ∨ v.type = .base type)
    (hm : M m₁ m₂) :
    Matches R M (Completion.Like R)
      (Machine.declare h type name v isMutable >>= fun _ => pure Completion.normal)
      (fun _ => Machine.declare h type name' v isMutable >>= fun _ => pure Completion.normal)
      m₁ m₂ := by
  refine Matches.bind (A := fun _ _ => True)
    (q := fun _ => Machine.declare h type name' v isMutable)
    (g := fun _ _ => pure Completion.normal)
    (matches_const (.ok trivial) (C.declare isMutable hm hname hv)) fun _ hn _ _ => ?_
  exact matches_pure .normal hn

theorem exec_succ (C : Translation h R M) (ih : At h R M n) {s s' : Stmt} (hs : R.stmt s s')
    (hm : M m₁ m₂) : Matches R M (Completion.Like R) (Machine.exec h (n + 1) s)
      (fun k => Machine.exec h k s') m₁ m₂ := by
  refine Matches.of_succ ?_
  cases R.stmt_layer hs with
  | expression he =>
    refine Matches.bind (g := fun _ _ => pure Completion.normal) (ih.eval he hm) fun _ hn _ _ => ?_
    exact matches_pure .normal hn
  | display he =>
    refine Matches.bind (g := fun _ (v' : Value) =>
      (modify fun m => m.write (Text.line v'.text)) >>= fun _ => pure Completion.normal)
      (ih.eval he hm) fun {v v' _ _} hv hn _ _ => ?_
    rw [← hv.text_eq]
    refine Matches.bind (q := fun _ => modify _) (g := fun _ _ => pure Completion.normal)
      (C.write_matches _ hn) fun _ hk _ _ => ?_
    exact matches_pure .normal hk
  | scan hk hnames =>
    refine Matches.bind (q := fun _ => Machine.scanLine _ _)
      (g := fun _ _ => pure Completion.normal) (C.scanLine_matches hk hnames hm) fun _ hn _ _ => ?_
    exact matches_pure .normal hn
  | conditional hc hb ho => exact branch_matches ih hc hb ho hm
  | loop hc hb => exact ih.execLoop hc hb hm
  | block hb => exact C.block_matches ih hb hm
  | function hf =>
    refine Matches.bind (A := fun _ _ => True) (q := fun _ => declareFunction h _)
      (g := fun _ _ => pure Completion.normal) (matches_const (.ok trivial) (C.function hm hf))
      fun _ hn _ _ => ?_
    exact matches_pure .normal hn
  | leave => exact matches_pure (.returning (.refl _)) hm
  | ret he =>
    refine Matches.bind (g := fun _ v' => pure (Completion.returning v')) (ih.eval he hm)
      fun hv hn _ _ => ?_
    exact matches_pure (.returning hv) hn
  | declare hname => exact C.declare_matches hname (.inl rfl) hm
  | @initial type name name' _ _ isMutable hname he =>
    refine Matches.bind (g := fun _ (v' : Value) =>
      if v'.type ≠ .base type then fault (.initialType v'.text (.base type)) name'
      else Machine.declare h type name' v' isMutable >>= fun _ => pure Completion.normal)
      (ih.eval he hm) fun {v v' _ _} hv hn _ _ => ?_
    rw [← hv.type_eq, ← hv.text_eq]
    by_cases htype : v.type = .base type
    · simp only [ne_eq, htype, not_true_eq_false, if_false]
      have hbase : v.type ≠ .function := by
        rw [htype]
        exact nofun
      rw [hv.eq_of_type hbase]
      exact C.declare_matches hname (.inr htype) hn
    · simp only [ne_eq, htype, not_false_eq_true, if_true]
      exact matches_fail (.fault hname) hn

/-- What is behind a `RETURN` is never reached. -/
theorem execAll_of_ret (k : Nat) (keyword : Token) (v : Option Expr) (rest : List Stmt) :
    Machine.execAll h (k + 1) (.ret keyword v :: rest) = Machine.exec h k (.ret keyword v) := by
  have hreturns {m m' : Machine} : Machine.exec h k (.ret keyword v) m ≠ (.ok .normal, m') := by
    intro hrun
    cases k with
    | zero => cases hrun
    | succ k =>
      cases v with
      | none => cases hrun
      | some e =>
        obtain ⟨_, _, _, hnext⟩ := bind_ok hrun
        cases hnext
  funext m
  rcases hrun : Machine.exec h k (.ret keyword v) m with ⟨x | (_ | r), m'⟩
  · exact bind_of_error hrun
  · exact absurd hrun hreturns
  · exact bind_of_ok hrun

/-- What runs behind statements, unless they return. -/
def onNormal (p : Exec Completion) : Completion → Exec Completion
  | .normal => p
  | .returning v => pure (.returning v)

theorem execAll_succ (ih : At h R M n) {ss ss' : List Stmt} (hss : R.body ss ss')
    (hm : M m₁ m₂) : Matches R M (Completion.Like R) (Machine.execAll h (n + 1) ss)
      (fun k => Machine.execAll h k ss') m₁ m₂ := by
  refine Matches.of_succ ?_
  cases R.body_layer hss with
  | nil => exact matches_pure .normal hm
  | @cons s s' rest rest' hs hrest =>
    refine Matches.bind (g := fun k => onNormal (Machine.execAll h k rest')) (ih.exec hs hm)
      fun hc hn _ _ => ?_
    cases hc with
    | normal => exact ih.execAll hrest hn
    | returning hv => exact matches_pure (.returning hv) hn
  | ret hs =>
    simp only [execAll_of_ret]
    exact ih.exec hs hm

/-- A further condition takes as many steps as a conditional in the last alternative, less those
    that lead to the conditional. -/
theorem execOthers_succ (ih : ∀ k ≤ n, At h R M k) {o o' : Alternatives} (ho : R.others o o')
    (hm : M m₁ m₂) : Matches R M (Completion.Like R) (Machine.execOthers h (n + 1) 0 o)
      (fun k => Machine.execOthers h k 0 o') m₁ m₂ := by
  have hall := ih n (Nat.le_refl n)
  cases R.others_layer ho with
  | done => exact Matches.of_succ (matches_pure .normal hm)
  | otherwise hb => exact (hall.execAll hb hm).of_succ
  | elseIf hc hb hrest =>
    refine Matches.of_succ ?_
    simp only [execOthers_elseIf]
    exact branch_matches hall hc hb hrest hm
  | nested hc hb hrest =>
    refine Matches.of_succ (Matches.of_succ (Matches.of_succ ?_))
    simp only [execOthers_elseIf, execOthers_otherwise, execAll_singleton, Machine.exec]
    exact branch_matches hall hc hb hrest hm
  | unnested hc hb hrest =>
    refine Matches.of_succ ?_
    rcases n with _ | _ | k
    · exact matches_exhausted
    · exact matches_exhausted
    · simp only [execOthers_elseIf, execOthers_otherwise, execAll_singleton, Machine.exec]
      exact branch_matches (ih k (Nat.le_add_right k 2)) hc hb hrest hm
  | bodiless hc hrest =>
    refine Matches.of_succ ?_
    simp only [execOthers_bodiless]
    exact bodiless_matches hall hc hrest hm

theorem execLoop_succ (ih : At h R M n) {c c' : Expr} {b b' : List Stmt} (hc : R.expr c c')
    (hb : R.body b b') (hm : M m₁ m₂) :
    Matches R M (Completion.Like R) (Machine.execLoop h (n + 1) c b)
      (fun k => Machine.execLoop h k c' b') m₁ m₂ := by
  refine Matches.of_succ (Matches.bind (g := fun k (v : Value) =>
    if v.isTruthy then Machine.execAll h k b' >>= onNormal (Machine.execLoop h k c' b')
    else pure Completion.normal) (ih.eval hc hm) fun {v v' _ _} hv hn _ _ => ?_)
  rw [← hv.isTruthy_eq]
  cases v.isTruthy with
  | false => exact matches_pure .normal hn
  | true =>
    refine Matches.bind (g := fun k => onNormal (Machine.execLoop h k c' b')) (ih.execAll hb hn)
      fun hcompletion hk _ _ => ?_
    cases hcompletion with
    | normal => exact ih.execLoop hc hb hk
    | returning hr => exact matches_pure (.returning hr) hk

/-- **The second run matches the first one**, however many steps that is granted. -/
theorem holds (C : Translation h R M) (n : Nat) : At h R M n := by
  induction n using Nat.strongRecOn with
  | _ n ih =>
    cases n with
    | zero => exact at_zero
    | succ n =>
      have hall := ih n (Nat.lt_succ_self n)
      exact {
        eval := C.eval_succ hall
        evalAll := evalAll_succ hall
        apply := C.apply_succ hall
        call := C.call_succ hall
        exec := C.exec_succ hall
        execAll := execAll_succ hall
        execOthers := execOthers_succ fun k hk => ih k (Nat.lt_succ_of_le hk)
        execLoop := execLoop_succ hall }

/-! ## 4. Whole programs -/

/-- What is recorded at the end may differ, the results correspond. -/
theorem closing_like (C : Translation h R M) {r r' : Except Failure Completion}
    (hr : Outcome R (Completion.Like R) r r') (hm : M m₁ m₂) :
    Outcome R (fun _ _ => True) (Simulation.closing h r m₁).1 (Simulation.closing h r' m₂).1 ∧
      M (Simulation.closing h r m₁).2 (Simulation.closing h r' m₂).2 := by
  cases hr with
  | ok hc =>
    cases hc with
    | normal => exact ⟨.ok trivial, hm⟩
    | returning _ => exact ⟨.ok trivial, C.log _ _ hm⟩
  | error hx =>
    rw [Simulation.closing_error, Simulation.closing_error]
    refine ⟨.error hx, ?_⟩
    unfold Simulation.closing
    cases hx with
    | fault ht => exact C.log _ _ hm
    | refl =>
      dsimp only
      split
      · exact C.log _ _ hm
      · exact hm

/-- **The second program halts like the first one if that halts**, started on machines that
    correspond. -/
theorem halts (C : Translation h R M) {P P' : List Stmt} (hP : R.body P P')
    (hm : M m₁.rested m₂.rested)
    {r : Except Failure Unit} {m₁' : Machine} (hhalts : Halts h P m₁ r m₁') :
    ∃ r' m₂', Halts h P' m₂ r' m₂' ∧ Outcome R (fun _ _ => True) r r' ∧ M m₁' m₂' := by
  obtain ⟨hr, steps, hrun⟩ := hhalts
  rw [Simulation.execute_eq] at hrun
  rcases (C.holds steps).execAll hP hm with hexhausted | ⟨y, ⟨enough, hbody⟩, hresult, hend⟩
  · rw [hexhausted] at hrun
    exact absurd (congrArg Prod.fst hrun).symm hr
  · obtain ⟨hclosed, hmachine⟩ := C.closing_like hresult hend
    rw [hrun] at hclosed hmachine
    have hlast : Machine.execAll h enough P' m₂.rested = y :=
      hbody enough (Nat.le_refl enough)
    have hrun' : Machine.execute h enough P' m₂ = Simulation.closing h y.1 y.2 := by
      rw [Simulation.execute_eq, hlast]
    have hgranted : (Simulation.closing h y.1 y.2).1 ≠ .error .exhausted := by
      intro hexhausted
      rw [hexhausted] at hclosed
      cases hclosed with
      | error hx => exact hr (congrArg Except.error (hx.eq_exhausted.mpr rfl))
    exact ⟨_, _, ⟨hgranted, enough, hrun'⟩, hclosed, hmachine⟩

end Translation

end FencedCode
