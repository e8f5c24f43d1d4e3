import FencedCode.Proofs.Machine.Moment

/-!
# Where failures come from

An activity fails by itself, or because a part of it fails. In the second case it fails as the part
does, except that a call expression gives a place to a fault of its application that has none. Hence
every failure of a run was raised by one activity of the run and then passed on.

* `Activity.Fails`, `Activity.Raises` -- that an activity fails, and that it fails by itself;
* `Activity.passed` -- what an activity makes of a failure of a part;
* `Activity.Fails.cases`, `Activity.Fails.of_calls` -- **an activity fails exactly if it raises a
  failure or passes one on**;
* `Activity.Fails.rule` -- induction from the activity that raised a failure outward.
-/

namespace FencedCode

open Exec Machine

/-! ## 1. Failing steps -/

namespace Exec

variable {α β : Type} {m : Machine} {x : Failure}

/-- **Two steps fail if the first one does, or else the second one.** -/
theorem bind_error {p : Exec α} {f : α → Exec β} :
    ((p >>= f) m).1 = .error x ↔
      (p m).1 = .error x ∨ ∃ a m', p m = (.ok a, m') ∧ (f a m').1 = .error x := by
  rcases hrun : p m with ⟨e | a, m'⟩
  · rw [bind_of_error hrun]
    refine ⟨fun hx => .inl (congrArg Except.error (Except.error.inj hx)), ?_⟩
    rintro (he | ⟨a, m'', hok, _⟩)
    · exact congrArg Except.error (Except.error.inj he)
    · cases hok
  · rw [bind_of_ok hrun]
    refine ⟨fun hx => .inr ⟨a, m', rfl, hx⟩, ?_⟩
    rintro (he | ⟨a, m'', hok, hx⟩)
    · cases he
    · cases hok
      exact hx

/-- A step with nothing behind it that could fail. -/
theorem bind_pure_error {p : Exec α} {f : α → β} :
    ((p >>= fun a => pure (f a)) m).1 = .error x ↔ (p m).1 = .error x := by
  rw [bind_error]
  refine ⟨?_, .inl⟩
  rintro (hx | ⟨a, m', _, hx⟩)
  · exact hx
  · cases hx

theorem map_error {r : Except Failure α} {g : α → β} :
    r.map g = .error x ↔ r = .error x := by
  cases r with
  | error e => exact ⟨fun hx => by rw [Except.error.inj hx], fun hx => by rw [hx]; rfl⟩
  | ok a => exact ⟨nofun, nofun⟩

/-- What is an error because something else is. -/
theorem mapError_error {ε : Type} {r : Except ε α} {g : ε → Failure} :
    r.mapError g = .error x ↔ ∃ y, r = .error y ∧ x = g y := by
  cases r with
  | error e =>
    refine ⟨fun hx => ⟨e, rfl, (Except.error.inj hx).symm⟩, ?_⟩
    rintro ⟨y, hy, rfl⟩
    rw [← Except.error.inj hy]
    rfl
  | ok a =>
    refine ⟨fun hx => (nomatch hx), ?_⟩
    rintro ⟨y, hy, _⟩
    cases hy

theorem located_error {t : Token} {p : Exec α} :
    (located t p m).1 = .error x ↔ ∃ y, (p m).1 = .error y ∧ x = y.locate t := by
  rw [located_run]
  exact mapError_error

theorem getValue_error {name : Token} :
    (getValue name m).1 = .error x ↔ ∃ f, m.scopes.find m.scope name = .error f ∧ x = .fault f := by
  have hfst : (getValue name m).1 =
      ((m.scopes.find m.scope name).mapError Failure.fault).map Binding.value := by
    unfold getValue
    rcases m.scopes.find m.scope name with f | b <;> rfl
  rw [hfst]
  exact map_error.trans mapError_error

theorem assign_error {name : Token} {v : Value} :
    (assign name v m).1 = .error x ↔
      ∃ f, m.scopes.assign m.scope name v = .error f ∧ x = .fault f := by
  have hfst : (assign name v m).1 =
      ((m.scopes.assign m.scope name v).mapError Failure.fault).map fun _ => () := by
    unfold assign
    rcases m.scopes.assign m.scope name v with f | scopes <;> rfl
  rw [hfst]
  exact map_error.trans mapError_error

end Exec

namespace Activity

variable {h : Host}

/-! ## 2. Failing activities -/

/-- The activity ends with the failure. -/
def Fails (h : Host) : Activity → Failure → Prop
  | ⟨n, .eval e, m⟩, x => (Machine.eval h n e m).1 = .error x
  | ⟨n, .evalAll es, m⟩, x => (Machine.evalAll h n es m).1 = .error x
  | ⟨n, .apply callee args, m⟩, x => (Machine.apply h n callee args m).1 = .error x
  | ⟨n, .call f args, m⟩, x => (Machine.call h n f args m).1 = .error x
  | ⟨n, .exec s, m⟩, x => (Machine.exec h n s m).1 = .error x
  | ⟨n, .execAll ss, m⟩, x => (Machine.execAll h n ss m).1 = .error x
  | ⟨n, .execOthers i others, m⟩, x => (Machine.execOthers h n i others m).1 = .error x
  | ⟨n, .execLoop condition body, m⟩, x => (Machine.execLoop h n condition body m).1 = .error x
  | ⟨_, .assignScanned names ts, m⟩, x => (Machine.assignScanned names ts m).1 = .error x

/-- The task needs a step: all do but the assignments of a line that was read. -/
def Task.NeedsStep : Task → Prop
  | .assignScanned _ _ => False
  | _ => True

/-- `Raises h a x`: activity `a` fails with `x`, and none of its parts does. -/
inductive Raises (h : Host) : Activity → Failure → Prop where
  | exhausted {task m} : Task.NeedsStep task → Raises h ⟨0, task, m⟩ .exhausted
  -- expressions
  | undefined {n name m f} : m.scopes.find m.scope name = .error f →
      Raises h ⟨n + 1, .eval (.ref name), m⟩ (.fault f)
  | assigned {n name e m v m' f} : Machine.eval h n e m = (.ok v, m') →
      m'.scopes.assign m'.scope name v = .error f →
      Raises h ⟨n + 1, .eval (.assign name e), m⟩ (.fault f)
  | unary {n op e m v m' x} : Machine.eval h n e m = (.ok v, m') →
      Operator.unary op v = .error x → Raises h ⟨n + 1, .eval (.unary op e), m⟩ x
  | binary {n l op r m a m₁ b m₂ x} : Machine.eval h n l m = (.ok a, m₁) →
      Machine.eval h n r m₁ = (.ok b, m₂) → Operator.binary op a b = .error x →
      Raises h ⟨n + 1, .eval (.binary l op r), m⟩ x
  -- calls
  | notCallable {n callee args m} : callee.callable? = none →
      Raises h ⟨n + 1, .apply callee args, m⟩ (.fault (.unplaced .notCallable))
  | arity {n callee args m c} : callee.callable? = some c → (args.length : Int) ≠ c.arity →
      Raises h ⟨n + 1, .apply callee args, m⟩ (.fault (.unplaced (.arity c.arity args.length)))
  | native {n callee args m k x} : callee.callable? = some (.native k) →
      (args.length : Int) = k.arity →
      (k.run h args (m.log h (.call k.name args.length))).1 = .error x →
      Raises h ⟨n + 1, .apply callee args, m⟩ x
  | depth {n f args m} : h.limit ≤ m.depth →
      Raises h ⟨n + 1, .call f args, m⟩ (.fault (.unplaced (.depth f.name.lexeme)))
  | argument {n f args m x} : m.depth < h.limit →
      bindParams f.params args ⟨some 0, []⟩ = .error x → Raises h ⟨n + 1, .call f args, m⟩ x
  | result {n f args m frame c m' x} : m.depth < h.limit →
      bindParams f.params args ⟨some 0, []⟩ = .ok frame →
      Machine.execAll h n f.body (m.descend.enter h frame) = (.ok c, m') →
      resultOf f c = .error x → Raises h ⟨n + 1, .call f args, m⟩ x
  -- statements
  | noLine {n keyword names m} : m.input.readLine.1 = .error .endOfInput →
      Raises h ⟨n + 1, .exec (.scan keyword names), m⟩ (.fault ⟨.noLine, keyword⟩)
  | unreadable {n keyword names m reason} : m.input.readLine.1 = .error (.failed reason) →
      Raises h ⟨n + 1, .exec (.scan keyword names), m⟩ (.reader (utf8 "SCAN") reason)
  | noValue {n name names ts m} : ts.length ≤ 1 →
      Raises h ⟨n, .assignScanned (name :: names) ts, m⟩ (.fault ⟨.noValue name.lexeme, name⟩)
  | scanned {n name names t u ts m f} :
      m.scopes.assign m.scope name (.ofLiteral? t.literal) = .error f →
      Raises h ⟨n, .assignScanned (name :: names) (t :: u :: ts), m⟩ (.fault f)
  | noBody {n i others c m v m'} : others.conditions[i]? = some c →
      Machine.eval h n c m = (.ok v, m') → v.isTruthy = true → others.bodies[i]? = none →
      Raises h ⟨n + 1, .execOthers i others, m⟩ .outOfRange
  | initial {n type name e isMutable m v m'} : Machine.eval h n e m = (.ok v, m') →
      v.type ≠ .base type →
      Raises h ⟨n + 1, .exec (.declare type name (some e) isMutable), m⟩
        (.fault ⟨.initialType v.text (.base type), name⟩)

/-- What activity `a` makes of a failure of its part `b`: a call expression gives the faults of its
    application a place, all else fails as its part does. -/
def passed : Activity → Activity → Failure → Failure
  | ⟨_, .eval (.call _ paren _), _⟩, ⟨_, .apply _ _, _⟩, x => x.locate paren
  | _, _, x => x

/-! ## 3. Raised or passed on -/

/-- The failure is raised by the activity, or passed on from a part of it. -/
def Arises (h : Host) (a : Activity) (x : Failure) : Prop :=
  Raises h a x ∨ ∃ b y, Calls h a b ∧ Fails h b y ∧ x = passed a b y

theorem Arises.of_part {a b : Activity} {x : Failure} (hab : Calls h a b) (hx : Fails h b x)
    (hpassed : passed a b x = x) : Arises h a x :=
  .inr ⟨b, x, hab, hx, hpassed.symm⟩

section Cases

variable {n : Nat} {m : Machine} {x : Failure}

theorem eval_arises {e : Expr} (hx : Fails h ⟨n + 1, .eval e, m⟩ x) :
    Arises h ⟨n + 1, .eval e, m⟩ x := by
  cases e with
  | literal t => cases hx
  | grouping inner pos => exact .of_part .grouping hx rfl
  | ref name =>
    obtain ⟨f, hf, rfl⟩ := getValue_error.mp hx
    exact .inl (.undefined hf)
  | assign name value =>
    simp only [Fails, Machine.eval] at hx
    rcases bind_error.mp hx with hvalue | ⟨v, m', hvalue, hx⟩
    · exact .of_part .assigned hvalue rfl
    · obtain ⟨f, hf, rfl⟩ := assign_error.mp (bind_pure_error.mp hx)
      exact .inl (.assigned hvalue hf)
  | unary op operand =>
    simp only [Fails, Machine.eval] at hx
    rcases bind_error.mp hx with hoperand | ⟨v, m', hoperand, hx⟩
    · exact .of_part .operand hoperand rfl
    · exact .inl (.unary hoperand hx)
  | binary l op r =>
    simp only [Fails, Machine.eval] at hx
    rcases bind_error.mp hx with hl | ⟨a, m₁, hl, hx⟩
    · exact .of_part .left hl rfl
    · rcases bind_error.mp hx with hr | ⟨b, m₂, hr, hx⟩
      · exact .of_part (.right hl) hr rfl
      · exact .inl (.binary hl hr hx)
  | logical l op r =>
    simp only [Fails, Machine.eval] at hx
    rcases bind_error.mp hx with hl | ⟨a, m', hl, hx⟩
    · exact .of_part .test hl rfl
    · split at hx
      · cases hx
      · rename_i hdecided
        exact .of_part (.decided hl hdecided) hx rfl
  | call callee paren args =>
    simp only [Fails, Machine.eval] at hx
    rcases bind_error.mp hx with hf | ⟨f, m₁, hf, hx⟩
    · exact .of_part .callee hf rfl
    · rcases bind_error.mp hx with hvs | ⟨vs, m₂, hvs, hx⟩
      · exact .of_part (.arguments hf) hvs rfl
      · obtain ⟨y, hy, rfl⟩ := located_error.mp hx
        exact .inr ⟨_, y, .application hf hvs, hy, rfl⟩

theorem evalAll_arises {es : List Expr} (hx : Fails h ⟨n + 1, .evalAll es, m⟩ x) :
    Arises h ⟨n + 1, .evalAll es, m⟩ x := by
  cases es with
  | nil => cases hx
  | cons e es =>
    simp only [Fails, Machine.evalAll] at hx
    rcases bind_error.mp hx with he | ⟨v, m', he, hx⟩
    · exact .of_part .head he rfl
    · exact .of_part (.tail he) (bind_pure_error.mp hx) rfl

theorem apply_arises {callee : Value} {args : List Value}
    (hx : Fails h ⟨n + 1, .apply callee args, m⟩ x) :
    Arises h ⟨n + 1, .apply callee args, m⟩ x := by
  rcases hcallee : callee.callable? with _ | c
  · simp only [Fails, Machine.apply, hcallee] at hx
    cases hx
    exact .inl (.notCallable hcallee)
  · simp only [Fails, Machine.apply, hcallee] at hx
    split at hx
    · rename_i harity
      cases hx
      exact .inl (.arity hcallee harity)
    · rename_i harity
      have harity := Decidable.not_not.mp harity
      rcases bind_error.mp hx with hnote | ⟨_, m', hnote, hx⟩
      · cases hnote
      · obtain rfl : m.log h (.call c.name args.length) = m' := congrArg Prod.snd hnote
        cases c with
        | native k => exact .inl (.native hcallee harity hx)
        | user f copy => exact .of_part (.user hcallee harity) hx rfl

theorem call_arises {f : Function} {args : List Value}
    (hx : Fails h ⟨n + 1, .call f args, m⟩ x) : Arises h ⟨n + 1, .call f args, m⟩ x := by
  have hx : (Machine.call h (n + 1) f args m).1 = .error x := hx
  by_cases hdepth : h.limit ≤ m.depth
  · rw [call_of_limit hdepth] at hx
    cases hx
    exact .inl (.depth hdepth)
  · have hlt := Nat.lt_of_not_le hdepth
    rcases hb : bindParams f.params args ⟨some 0, []⟩ with c | frame
    · rw [call_of_mismatch hdepth hb] at hx
      cases hx
      exact .inl (.argument hlt hb)
    · rw [call_fst hdepth hb] at hx
      rcases hbody : Machine.execAll h n f.body (m.descend.enter h frame) with ⟨e | c, m'⟩
      · rw [hbody] at hx
        cases hx
        exact .of_part (.body hlt hb) (congrArg Prod.fst hbody) rfl
      · rw [hbody] at hx
        exact .inl (.result hlt hb hbody hx)

theorem scan_arises {keyword : Token} {names : List Token}
    (hx : Fails h ⟨n + 1, .exec (.scan keyword names), m⟩ x) :
    Arises h ⟨n + 1, .exec (.scan keyword names), m⟩ x := by
  simp only [Fails, Machine.exec] at hx
  rcases bind_error.mp (bind_pure_error.mp hx) with hread | ⟨r, m', hread, hx⟩
  · cases hread
  · obtain ⟨hr, hm'⟩ := Prod.mk.inj hread
    obtain rfl := hm'
    have hr := Except.ok.inj hr
    rcases r with (_ | reason) | line
    · cases hx
      exact .inl (.noLine hr)
    · cases hx
      exact .inl (.unreadable hr)
    · exact .of_part (.scan hr) hx rfl

theorem exec_arises {s : Stmt} (hx : Fails h ⟨n + 1, .exec s, m⟩ x) :
    Arises h ⟨n + 1, .exec s, m⟩ x := by
  cases s with
  | expression e => exact .of_part .expression (bind_pure_error.mp hx) rfl
  | display keyword e =>
    simp only [Fails, Machine.exec] at hx
    rcases bind_error.mp hx with he | ⟨v, m', he, hx⟩
    · exact .of_part .display he rfl
    · cases hx
  | scan keyword names => exact scan_arises hx
  | conditional keyword c body others =>
    simp only [Fails, Machine.exec] at hx
    rcases bind_error.mp hx with hc | ⟨v, m', hc, hx⟩
    · exact .of_part .condition hc rfl
    · split at hx
      · rename_i hv
        exact .of_part (.consequence hc hv) hx rfl
      · rename_i hv
        exact .of_part (.alternative hc (eq_false_of_ne_true hv)) hx rfl
  | loop keyword c body => exact .of_part .loop hx rfl
  | block opening body => exact .of_part .block hx rfl
  | function name params body result => cases hx
  | ret keyword value =>
    cases value with
    | none => cases hx
    | some e => exact .of_part .returned (bind_pure_error.mp hx) rfl
  | declare type name init isMutable =>
    cases init with
    | none => cases hx
    | some e =>
      simp only [Fails, Machine.exec] at hx
      rcases bind_error.mp hx with he | ⟨v, m', he, hx⟩
      · exact .of_part .initial he rfl
      · split at hx
        · rename_i hv
          cases hx
          exact .inl (.initial he hv)
        · cases hx

theorem execAll_arises {ss : List Stmt} (hx : Fails h ⟨n + 1, .execAll ss, m⟩ x) :
    Arises h ⟨n + 1, .execAll ss, m⟩ x := by
  cases ss with
  | nil => cases hx
  | cons s rest =>
    simp only [Fails, Machine.execAll] at hx
    rcases bind_error.mp hx with hs | ⟨c, m', hs, hx⟩
    · exact .of_part .first hs rfl
    · cases c with
      | normal => exact .of_part (.next hs) hx rfl
      | returning v => cases hx

theorem execOthers_arises {i : Nat} {others : Alternatives}
    (hx : Fails h ⟨n + 1, .execOthers i others, m⟩ x) :
    Arises h ⟨n + 1, .execOthers i others, m⟩ x := by
  have hx : (Machine.execOthers h (n + 1) i others m).1 = .error x := hx
  rcases hcondition : others.conditions[i]? with _ | c
  · rcases hlast : others.last with _ | body
    · rw [execOthers_of_none hcondition hlast] at hx
      cases hx
    · rw [execOthers_of_last hcondition hlast] at hx
      exact .of_part (.otherwise hcondition hlast) hx rfl
  · rw [execOthers_of_condition hcondition] at hx
    rcases bind_error.mp hx with hc | ⟨v, m', hc, hx⟩
    · exact .of_part (.elseCondition hcondition) hc rfl
    · split at hx
      · rename_i hv
        rcases hbody : others.bodies[i]? with _ | body
        · rw [entry_of_none hbody] at hx
          cases hx
          exact .inl (.noBody hcondition hc hv hbody)
        · rw [entry_of_getElem? hbody] at hx
          exact .of_part (.elseConsequence hcondition hc hv hbody) hx rfl
      · rename_i hv
        exact .of_part (.elseAlternative hcondition hc (eq_false_of_ne_true hv)) hx rfl

theorem execLoop_arises {c : Expr} {body : List Stmt}
    (hx : Fails h ⟨n + 1, .execLoop c body, m⟩ x) :
    Arises h ⟨n + 1, .execLoop c body, m⟩ x := by
  simp only [Fails, Machine.execLoop] at hx
  rcases bind_error.mp hx with hc | ⟨v, m₁, hc, hx⟩
  · exact .of_part .loopCondition hc rfl
  · split at hx
    · rename_i hv
      rcases bind_error.mp hx with hbody | ⟨r, m₂, hbody, hx⟩
      · exact .of_part (.loopBody hc hv) hbody rfl
      · cases r with
        | normal => exact .of_part (.again hc hv hbody) hx rfl
        | returning r => cases hx
    · cases hx

theorem assignScanned_arises {names ts : List Token}
    (hx : Fails h ⟨n, .assignScanned names ts, m⟩ x) :
    Arises h ⟨n, .assignScanned names ts, m⟩ x := by
  have hx : (Machine.assignScanned names ts m).1 = .error x := hx
  rcases names with _ | ⟨name, names⟩
  · cases hx
  · rcases ts with _ | ⟨t, _ | ⟨u, ts⟩⟩
    · cases hx
      exact .inl (.noValue (Nat.zero_le 1))
    · cases hx
      exact .inl (.noValue (Nat.le_refl 1))
    · rw [assignScanned_cons] at hx
      rcases bind_error.mp hx with ha | ⟨_, m', ha, hx⟩
      · obtain ⟨f, hf, rfl⟩ := assign_error.mp ha
        exact .inl (.scanned hf)
      · unfold Exec.assign at ha
        split at ha
        · rename_i scopes hs
          cases ha
          exact .of_part (.scanned hs) hx rfl
        · cases ha

end Cases

/-- **A failure of an activity is raised by it or passed on from a part of it.** -/
theorem Fails.cases : ∀ {a : Activity} {x : Failure}, Fails h a x → Arises h a x
  | ⟨0, .eval _, _⟩, _, hx | ⟨0, .evalAll _, _⟩, _, hx | ⟨0, .apply _ _, _⟩, _, hx
  | ⟨0, .call _ _, _⟩, _, hx | ⟨0, .exec _, _⟩, _, hx | ⟨0, .execAll _, _⟩, _, hx
  | ⟨0, .execOthers _ _, _⟩, _, hx | ⟨0, .execLoop _ _, _⟩, _, hx => by
    cases hx
    exact .inl (.exhausted trivial)
  | ⟨_ + 1, .eval _, _⟩, _, hx => eval_arises hx
  | ⟨_ + 1, .evalAll _, _⟩, _, hx => evalAll_arises hx
  | ⟨_ + 1, .apply _ _, _⟩, _, hx => apply_arises hx
  | ⟨_ + 1, .call _ _, _⟩, _, hx => call_arises hx
  | ⟨_ + 1, .exec _, _⟩, _, hx => exec_arises hx
  | ⟨_ + 1, .execAll _, _⟩, _, hx => execAll_arises hx
  | ⟨_ + 1, .execOthers _ _, _⟩, _, hx => execOthers_arises hx
  | ⟨_ + 1, .execLoop _ _, _⟩, _, hx => execLoop_arises hx
  | ⟨_, .assignScanned _ _, _⟩, _, hx => assignScanned_arises hx

/-! ## 4. Failures pass on -/

theorem fails_eval_of_part {n : Nat} {e : Expr} {m : Machine} {b : Activity} {x : Failure}
    (hab : Calls h ⟨n, .eval e, m⟩ b) (hx : Fails h b x) :
    Fails h ⟨n, .eval e, m⟩ (passed ⟨n, .eval e, m⟩ b x) := by
  cases hab with
  | grouping => exact hx
  | assigned => exact bind_error.mpr (.inl hx)
  | operand => exact bind_error.mpr (.inl hx)
  | left => exact bind_error.mpr (.inl hx)
  | right hl => exact bind_error.mpr (.inr ⟨_, _, hl, bind_error.mpr (.inl hx)⟩)
  | test => exact bind_error.mpr (.inl hx)
  | decided hl hdecided =>
    refine bind_error.mpr (.inr ⟨_, _, hl, ?_⟩)
    rw [if_neg hdecided]
    exact hx
  | callee => exact bind_error.mpr (.inl hx)
  | arguments hf => exact bind_error.mpr (.inr ⟨_, _, hf, bind_error.mpr (.inl hx)⟩)
  | application hf hvs =>
    refine bind_error.mpr (.inr ⟨_, _, hf, bind_error.mpr (.inr ⟨_, _, hvs, ?_⟩)⟩)
    exact located_error.mpr ⟨x, hx, rfl⟩

/-- **If a part of an activity fails, so does the activity.** -/
theorem Fails.of_calls {a b : Activity} {x : Failure} (hab : Calls h a b) (hx : Fails h b x) :
    Fails h a (passed a b x) := by
  cases hab with
  | head => exact bind_error.mpr (.inl hx)
  | tail he => exact bind_error.mpr (.inr ⟨_, _, he, bind_pure_error.mpr hx⟩)
  | user hcallee harity =>
    show (Machine.apply _ _ _ _ _).1 = _
    simp only [Machine.apply, hcallee]
    rw [if_neg (not_not_intro harity)]
    exact bind_error.mpr (.inr ⟨(), _, rfl, hx⟩)
  | body hdepth hb =>
    have hbody : (Machine.execAll h _ _ _).1 = .error x := hx
    show (Machine.call _ _ _ _ _).1 = _
    rw [call_fst (Nat.not_le_of_lt hdepth) hb, hbody]
    rfl
  | expression => exact bind_pure_error.mpr hx
  | display => exact bind_error.mpr (.inl hx)
  | @scan _ _ _ m line hr =>
    have hread : Exec.readLine m = (.ok (.ok line), { m with input := m.input.readLine.2 }) := by
      rw [← hr]
      rfl
    exact bind_pure_error.mpr (bind_error.mpr (.inr ⟨.ok line, _, hread, hx⟩))
  | scanned ha =>
    show (Machine.assignScanned _ _ _).1 = _
    rw [assignScanned_cons]
    refine bind_error.mpr (.inr ⟨(), _, ?_, hx⟩)
    unfold Exec.assign
    rw [ha]
  | condition => exact bind_error.mpr (.inl hx)
  | consequence hc hv =>
    refine bind_error.mpr (.inr ⟨_, _, hc, ?_⟩)
    rw [if_pos hv]
    exact hx
  | alternative hc hv =>
    refine bind_error.mpr (.inr ⟨_, _, hc, ?_⟩)
    rw [if_neg (ne_true_of_eq_false hv)]
    exact hx
  | loop => exact hx
  | block => exact hx
  | returned => exact bind_pure_error.mpr hx
  | initial => exact bind_error.mpr (.inl hx)
  | first => exact bind_error.mpr (.inl hx)
  | next hs => exact bind_error.mpr (.inr ⟨_, _, hs, hx⟩)
  | otherwise hcondition hlast =>
    show (Machine.execOthers _ _ _ _ _).1 = _
    rw [execOthers_of_last hcondition hlast]
    exact hx
  | elseCondition hcondition =>
    show (Machine.execOthers _ _ _ _ _).1 = _
    rw [execOthers_of_condition hcondition]
    exact bind_error.mpr (.inl hx)
  | elseConsequence hcondition hc hv hbody =>
    show (Machine.execOthers _ _ _ _ _).1 = _
    rw [execOthers_of_condition hcondition]
    refine bind_error.mpr (.inr ⟨_, _, hc, ?_⟩)
    rw [if_pos hv, entry_of_getElem? hbody]
    exact hx
  | elseAlternative hcondition hc hv =>
    show (Machine.execOthers _ _ _ _ _).1 = _
    rw [execOthers_of_condition hcondition]
    refine bind_error.mpr (.inr ⟨_, _, hc, ?_⟩)
    rw [if_neg (ne_true_of_eq_false hv)]
    exact hx
  | loopCondition => exact bind_error.mpr (.inl hx)
  | loopBody hc hv =>
    refine bind_error.mpr (.inr ⟨_, _, hc, ?_⟩)
    rw [if_pos hv]
    exact bind_error.mpr (.inl hx)
  | again hc hv hbody =>
    refine bind_error.mpr (.inr ⟨_, _, hc, ?_⟩)
    rw [if_pos hv]
    exact bind_error.mpr (.inr ⟨_, _, hbody, hx⟩)
  | grouping => exact fails_eval_of_part .grouping hx
  | assigned => exact fails_eval_of_part .assigned hx
  | operand => exact fails_eval_of_part .operand hx
  | left => exact fails_eval_of_part .left hx
  | right hl => exact fails_eval_of_part (.right hl) hx
  | test => exact fails_eval_of_part .test hx
  | decided hl hdecided => exact fails_eval_of_part (.decided hl hdecided) hx
  | callee => exact fails_eval_of_part .callee hx
  | arguments hf => exact fails_eval_of_part (.arguments hf) hx
  | application hf hvs => exact fails_eval_of_part (.application hf hvs) hx

/-! ## 5. Induction over the parts -/

/-- The names that are still to be assigned from a line. -/
def pending : Activity → Nat
  | ⟨_, .assignScanned names _, _⟩ => names.length
  | _ => 0

/-- Parts are granted fewer steps, or have fewer names to assign. -/
theorem Calls.decreasing {a b : Activity} (hab : Calls h a b) :
    Prod.Lex (· < ·) (· < ·) (b.steps, b.pending) (a.steps, a.pending) := by
  cases hab with
  | scanned _ => exact .right _ (Nat.lt_succ_self _)
  | _ => exact .left _ _ (Nat.lt_succ_self _)

theorem calls_wellFounded (h : Host) : WellFounded fun b a => Calls h a b :=
  Subrelation.wf Calls.decreasing
    (InvImage.wf (fun a : Activity => (a.steps, a.pending)) (Prod.lex Nat.lt_wfRel Nat.lt_wfRel).wf)

/-- **Induction from the activity that raised a failure outward.** -/
theorem Fails.rule {motive : Activity → Failure → Prop}
    (raised : ∀ {a x}, Raises h a x → motive a x)
    (passing : ∀ {a b x}, Calls h a b → Fails h b x → motive b x → motive a (passed a b x))
    {a : Activity} {x : Failure} (hx : Fails h a x) : motive a x := by
  induction a using (calls_wellFounded h).induction generalizing x with
  | _ a ih =>
    rcases hx.cases with hraised | ⟨b, y, hab, hy, rfl⟩
    · exact raised hraised
    · exact passing hab hy (ih b hab hy)

end Activity

end FencedCode
