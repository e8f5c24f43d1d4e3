import FencedCode.Proofs.Machine.Moment

/-!
# Activities depend on their parts only

What an activity does is settled by its parts, so nothing that the machine evaluates on the way is
missing among them. To say so, the evaluator is taken apart into layers. A `Runner` does the parts
of an activity, and one layer on top of it does the activity itself.

* `Runner`, `Runner.granted`, `Runner.step` -- the evaluator, and one layer of it;
* `Runner.Agrees`, `Runner.agrees_step` -- **a layer does as the evaluator does if the parts are
  done so.**
-/

namespace FencedCode

open Exec Machine

/-! ## 1. Steps that agree on one machine -/

namespace Exec

variable {α β : Type} {m : Machine}

/-- Two steps agree if the first ones do, and the second ones where they start. -/
theorem bind_agree {p q : Exec α} {f g : α → Exec β} (hp : p m = q m)
    (hf : ∀ a m', q m = (.ok a, m') → f a m' = g a m') : (p >>= f) m = (q >>= g) m := by
  rcases hq : q m with ⟨x | a, m'⟩
  · rw [bind_of_error (hp.trans hq), bind_of_error hq]
  · rw [bind_of_ok (hp.trans hq), bind_of_ok hq]
    exact hf a m' hq

theorem located_agree {p q : Exec α} (hp : p m = q m) (t : Token) :
    located t p m = located t q m := by
  rw [located_run, located_run, hp]

theorem inScope_agree {h : Host} {f : Frame} {p q : Exec α}
    (hp : p (m.enter h f) = q (m.enter h f)) : inScope h f p m = inScope h f q m := by
  unfold inScope
  rw [hp]

theorem deeper_agree {p q : Exec α} (hp : p m.descend = q m.descend) :
    deeper p m = deeper q m := by
  unfold deeper
  rw [show p { m with depth := m.depth + 1 } = q { m with depth := m.depth + 1 } from hp]

end Exec

/-! ## 2. Layers -/

/-- A way to do what a machine can be asked to do. -/
structure Runner where
  eval : Expr → Exec Value
  evalAll : List Expr → Exec (List Value)
  apply : Value → List Value → Exec Value
  call : Function → List Value → Exec Value
  exec : Stmt → Exec Completion
  execAll : List Stmt → Exec Completion
  execOthers : Nat → Alternatives → Exec Completion
  execLoop : Expr → List Stmt → Exec Completion

namespace Runner

/-- The evaluator, granted some steps. -/
def granted (h : Host) (n : Nat) : Runner where
  eval := Machine.eval h n
  evalAll := Machine.evalAll h n
  apply := Machine.apply h n
  call := Machine.call h n
  exec := Machine.exec h n
  execAll := Machine.execAll h n
  execOthers := Machine.execOthers h n
  execLoop := Machine.execLoop h n

/-- One layer of the evaluator. What it asks the machine to do is done by the runner. -/
def step (h : Host) (R : Runner) : Runner where
  eval
    | .literal t => pure (.ofLiteral? t.literal)
    | .grouping inner _ => R.eval inner
    | .ref name => getValue name
    | .assign name value => do
      let v ← R.eval value
      assign name v
      pure v
    | .unary op operand => do
      let v ← R.eval operand
      lift (Operator.unary op v)
    | .binary left op right => do
      let a ← R.eval left
      let b ← R.eval right
      lift (Operator.binary op a b)
    | .logical left op right => do
      let a ← R.eval left
      if a.isTruthy = (op.kind = .kwOr : Bool) then pure a else R.eval right
    | .call callee paren args => do
      let f ← R.eval callee
      let vs ← R.evalAll args
      located paren (R.apply f vs)
  evalAll
    | [] => pure []
    | e :: es => do
      let v ← R.eval e
      let vs ← R.evalAll es
      pure (v :: vs)
  apply callee args :=
    match callee.callable? with
    | none => unplaced .notCallable
    | some c =>
      if (args.length : Int) ≠ c.arity then unplaced (.arity c.arity args.length)
      else do
        note h (.call c.name args.length)
        match c with
        | .native n => n.run h args
        | .user f _ => R.call f args
  call f args := fun m =>
    if h.limit ≤ m.depth then unplaced (.depth f.name.lexeme) m
    else
      deeper (do
        let frame ← bindArguments f.params args
        let c ← inScope h frame (R.execAll f.body)
        lift (resultOf f c)) m
  exec
    | .expression e => do
      let _ ← R.eval e
      pure .normal
    | .display _ e => do
      let v ← R.eval e
      modify fun m => m.write (Text.line v.text)
      pure .normal
    | .scan keyword names => do
      scanLine keyword names
      pure .normal
    | .conditional _ condition body others => do
      let v ← R.eval condition
      if v.isTruthy then R.execAll body else R.execOthers 0 others
    | .loop _ condition body => R.execLoop condition body
    | .block _ body => inBlock h (R.execAll body)
    | .function name params body result => do
      declareFunction h ⟨name, params, body, result⟩
      pure .normal
    | .ret _ none => pure (.returning .null)
    | .ret _ (some e) => do
      let v ← R.eval e
      pure (.returning v)
    | .declare type name none isMutable => do
      declare h type name .null isMutable
      pure .normal
    | .declare type name (some e) isMutable => do
      let v ← R.eval e
      if v.type ≠ .base type then fault (.initialType v.text (.base type)) name
      else do
        declare h type name v isMutable
        pure .normal
  execAll
    | [] => pure .normal
    | s :: rest => do
      match ← R.exec s with
      | .normal => R.execAll rest
      | .returning v => pure (.returning v)
  execOthers i others :=
    match others.conditions[i]? with
    | some condition => do
      let v ← R.eval condition
      if v.isTruthy then do
        let body ← lift (entry others.bodies i)
        R.execAll body
      else R.execOthers (i + 1) others
    | none =>
      match others.last with
      | some body => R.execAll body
      | none => pure .normal
  execLoop condition body := do
    let v ← R.eval condition
    if v.isTruthy then
      match ← R.execAll body with
      | .normal => R.execLoop condition body
      | .returning r => pure (.returning r)
    else pure .normal

/-! ## 3. Parts -/

/-- The runner does the activity as the evaluator does. -/
def Agrees (h : Host) (R : Runner) : Activity → Prop
  | ⟨n, .eval e, m⟩ => R.eval e m = Machine.eval h n e m
  | ⟨n, .evalAll es, m⟩ => R.evalAll es m = Machine.evalAll h n es m
  | ⟨n, .apply callee args, m⟩ => R.apply callee args m = Machine.apply h n callee args m
  | ⟨n, .call f args, m⟩ => R.call f args m = Machine.call h n f args m
  | ⟨n, .exec s, m⟩ => R.exec s m = Machine.exec h n s m
  | ⟨n, .execAll ss, m⟩ => R.execAll ss m = Machine.execAll h n ss m
  | ⟨n, .execOthers i others, m⟩ => R.execOthers i others m = Machine.execOthers h n i others m
  | ⟨n, .execLoop condition body, m⟩ =>
    R.execLoop condition body m = Machine.execLoop h n condition body m
  -- the assignments of a line are no task of a runner
  | ⟨_, .assignScanned _ _, _⟩ => True

variable {h : Host} {R : Runner} {n : Nat} {m : Machine}

/-- The evaluator agrees with itself. -/
theorem granted_agrees (h : Host) (a : Activity) : (granted h a.steps).Agrees h a := by
  obtain ⟨n, task, m⟩ := a
  cases task with
  | assignScanned names ts => exact trivial
  | _ => exact rfl

theorem agrees_eval {e : Expr}
    (hparts : ∀ b, Activity.Calls h ⟨n + 1, .eval e, m⟩ b → R.Agrees h b) :
    (R.step h).Agrees h ⟨n + 1, .eval e, m⟩ := by
  show (R.step h).eval e m = Machine.eval h (n + 1) e m
  cases e with
  | literal t => rfl
  | ref name => rfl
  | grouping inner pos => exact hparts _ .grouping
  | assign name value => exact bind_agree (hparts _ .assigned) fun _ _ _ => rfl
  | unary op operand => exact bind_agree (hparts _ .operand) fun _ _ _ => rfl
  | binary l op r =>
    refine bind_agree (hparts _ .left) fun a m₁ hl => ?_
    exact bind_agree (hparts _ (.right hl)) fun _ _ _ => rfl
  | logical l op r =>
    refine bind_agree (hparts _ .test) fun a m' hl => ?_
    by_cases hdecided : a.isTruthy = (op.kind = .kwOr : Bool)
    · rw [if_pos hdecided, if_pos hdecided]
    · rw [if_neg hdecided, if_neg hdecided]
      exact hparts _ (.decided hl hdecided)
  | call callee paren args =>
    refine bind_agree (hparts _ .callee) fun f m₁ hf => ?_
    refine bind_agree (hparts _ (.arguments hf)) fun vs m₂ hvs => ?_
    exact located_agree (hparts _ (.application hf hvs)) paren

theorem agrees_evalAll {es : List Expr}
    (hparts : ∀ b, Activity.Calls h ⟨n + 1, .evalAll es, m⟩ b → R.Agrees h b) :
    (R.step h).Agrees h ⟨n + 1, .evalAll es, m⟩ := by
  cases es with
  | nil => exact rfl
  | cons e es =>
    refine bind_agree (hparts _ .head) fun v m' he => ?_
    exact bind_agree (hparts _ (.tail he)) fun _ _ _ => rfl

theorem agrees_apply {callee : Value} {args : List Value}
    (hparts : ∀ b, Activity.Calls h ⟨n + 1, .apply callee args, m⟩ b → R.Agrees h b) :
    (R.step h).Agrees h ⟨n + 1, .apply callee args, m⟩ := by
  show (R.step h).apply callee args m = Machine.apply h (n + 1) callee args m
  simp only [step, Machine.apply]
  cases hcallee : callee.callable? with
  | none => rfl
  | some c =>
    dsimp only
    by_cases harity : (args.length : Int) ≠ c.arity
    · rw [if_pos harity, if_pos harity]
    · rw [if_neg harity, if_neg harity]
      refine bind_agree rfl fun _ m' hnote => ?_
      obtain rfl : m.log h (.call c.name args.length) = m' := congrArg Prod.snd hnote
      cases c with
      | native k => rfl
      | user f copy => exact hparts _ (.user hcallee (Decidable.not_not.mp harity))

/-- The body of a function is done only if the limit allows one call more. -/
theorem agrees_call {f : Function} {args : List Value}
    (hparts : ∀ b, Activity.Calls h ⟨n + 1, .call f args, m⟩ b → R.Agrees h b) :
    (R.step h).Agrees h ⟨n + 1, .call f args, m⟩ := by
  show (R.step h).call f args m = Machine.call h (n + 1) f args m
  by_cases hdepth : h.limit ≤ m.depth
  · rw [call_of_limit hdepth]
    exact if_pos hdepth
  · simp only [step, Machine.call, if_neg hdepth]
    refine deeper_agree (bind_agree rfl fun frame m' hframe => ?_)
    obtain ⟨hb, rfl⟩ := Prod.mk.inj hframe
    refine bind_agree (inScope_agree ?_) fun _ _ _ => rfl
    exact hparts _ (.body (Nat.lt_of_not_le hdepth) hb)

theorem agrees_exec {s : Stmt}
    (hparts : ∀ b, Activity.Calls h ⟨n + 1, .exec s, m⟩ b → R.Agrees h b) :
    (R.step h).Agrees h ⟨n + 1, .exec s, m⟩ := by
  show (R.step h).exec s m = Machine.exec h (n + 1) s m
  cases s with
  | expression e => exact bind_agree (hparts _ .expression) fun _ _ _ => rfl
  | display keyword e => exact bind_agree (hparts _ .display) fun _ _ _ => rfl
  | scan keyword names => rfl
  | conditional keyword c body others =>
    refine bind_agree (hparts _ .condition) fun v m' hc => ?_
    by_cases hv : v.isTruthy = true
    · rw [if_pos hv, if_pos hv]
      exact hparts _ (.consequence hc hv)
    · rw [if_neg hv, if_neg hv]
      exact hparts _ (.alternative hc (eq_false_of_ne_true hv))
  | loop keyword c body => exact hparts _ .loop
  | block opening body => exact inScope_agree (hparts _ .block)
  | function name params body result => rfl
  | ret keyword value =>
    cases value with
    | none => rfl
    | some e => exact bind_agree (hparts _ .returned) fun _ _ _ => rfl
  | declare type name init isMutable =>
    cases init with
    | none => rfl
    | some e => exact bind_agree (hparts _ .initial) fun _ _ _ => rfl

theorem agrees_execAll {ss : List Stmt}
    (hparts : ∀ b, Activity.Calls h ⟨n + 1, .execAll ss, m⟩ b → R.Agrees h b) :
    (R.step h).Agrees h ⟨n + 1, .execAll ss, m⟩ := by
  cases ss with
  | nil => exact rfl
  | cons s rest =>
    refine bind_agree (hparts _ .first) fun c m' hs => ?_
    cases c with
    | normal => exact hparts _ (.next hs)
    | returning v => rfl

theorem agrees_execOthers {i : Nat} {others : Alternatives}
    (hparts : ∀ b, Activity.Calls h ⟨n + 1, .execOthers i others, m⟩ b → R.Agrees h b) :
    (R.step h).Agrees h ⟨n + 1, .execOthers i others, m⟩ := by
  show (R.step h).execOthers i others m = Machine.execOthers h (n + 1) i others m
  simp only [step, Machine.execOthers]
  cases hcondition : others.conditions[i]? with
  | none =>
    cases hlast : others.last with
    | none => rfl
    | some body => exact hparts _ (.otherwise hcondition hlast)
  | some c =>
    refine bind_agree (hparts _ (.elseCondition hcondition)) fun v m' hc => ?_
    by_cases hv : v.isTruthy = true
    · rw [if_pos hv, if_pos hv]
      refine bind_agree rfl fun body m'' hbody => ?_
      obtain ⟨hentry, rfl⟩ := Prod.mk.inj hbody
      exact hparts _ (.elseConsequence hcondition hc hv (entry_eq_ok_iff.mp hentry))
    · rw [if_neg hv, if_neg hv]
      exact hparts _ (.elseAlternative hcondition hc (eq_false_of_ne_true hv))

theorem agrees_execLoop {c : Expr} {body : List Stmt}
    (hparts : ∀ b, Activity.Calls h ⟨n + 1, .execLoop c body, m⟩ b → R.Agrees h b) :
    (R.step h).Agrees h ⟨n + 1, .execLoop c body, m⟩ := by
  refine bind_agree (hparts _ .loopCondition) fun v m₁ hc => ?_
  by_cases hv : v.isTruthy = true
  · rw [if_pos hv, if_pos hv]
    refine bind_agree (hparts _ (.loopBody hc hv)) fun r m₂ hbody => ?_
    cases r with
    | normal => exact hparts _ (.again hc hv hbody)
    | returning r => rfl
  · rw [if_neg hv, if_neg hv]

/-- **An activity depends on its parts only.** A layer does an activity as the evaluator does,
    whatever else its runner does, if the runner does so with each part of the activity. -/
theorem agrees_step {task : Task}
    (hparts : ∀ b, Activity.Calls h ⟨n + 1, task, m⟩ b → R.Agrees h b) :
    (R.step h).Agrees h ⟨n + 1, task, m⟩ := by
  cases task with
  | eval e => exact agrees_eval hparts
  | evalAll es => exact agrees_evalAll hparts
  | apply callee args => exact agrees_apply hparts
  | call f args => exact agrees_call hparts
  | exec s => exact agrees_exec hparts
  | execAll ss => exact agrees_execAll hparts
  | execOthers i others => exact agrees_execOthers hparts
  | execLoop c body => exact agrees_execLoop hparts
  | assignScanned names ts => exact trivial

end Runner

end FencedCode
