import FencedCode.Proofs.Machine.CallDepth
import FencedCode.Proofs.Machine.Restoration
import FencedCode.Proofs.Machine.Safety

/-!
# Only loops can run forever

A run goes deeper by going into a part of a tree or into the body of a function. A part is lighter
than the tree, and a body is entered one call deeper, which the host allows only so often. Without
`WHILE` there is nothing else, so the steps that a run needs are bounded before it starts.

* `Stmt.AllLoopFree`, `Stmt.weightAll` -- programs without `WHILE`, and how heavy a program is;
* `loopFreeTrees` -- the class of light trees without `WHILE`;
* `Activity.weight`, `Activity.Calls.lighter` -- **an activity outweighs each of its parts**;
* `Activity.Fails.steps_le` -- an activity that uses up its steps has no more than its weight;
* `loop_free_halts` -- **programs without `WHILE` halt**, and recursion that does not end by itself
  ends with a stack overflow.
-/

namespace FencedCode

open Exec Machine

/-! ## 1. Programs without loops -/

mutual

/-- The statement holds no `WHILE`, not even in the body of a function that it declares. -/
def Stmt.LoopFree : Stmt → Prop
  | .conditional _ _ body others => Stmt.AllLoopFree body ∧ others.LoopFree
  | .loop _ _ _ => False
  | .block _ body => Stmt.AllLoopFree body
  | .function _ _ body _ => Stmt.AllLoopFree body
  | _ => True

/-- None of the statements holds a `WHILE`. -/
def Stmt.AllLoopFree : List Stmt → Prop
  | [] => True
  | s :: ss => s.LoopFree ∧ Stmt.AllLoopFree ss

/-- None of the bodies holds a `WHILE`. -/
def Stmt.BodiesLoopFree : List (List Stmt) → Prop
  | [] => True
  | body :: bodies => Stmt.AllLoopFree body ∧ Stmt.BodiesLoopFree bodies

/-- The body holds no `WHILE`, if there is one. -/
def Stmt.LastLoopFree : Option (List Stmt) → Prop
  | none => True
  | some body => Stmt.AllLoopFree body

/-- The bodies of the alternatives hold no `WHILE`. -/
def Alternatives.LoopFree : Alternatives → Prop
  | .mk _ bodies last => Stmt.BodiesLoopFree bodies ∧ Stmt.LastLoopFree last

end

/-! ## 2. The weight of trees -/

mutual

/-- The steps that an expression needs, not counting those of the bodies of functions. -/
def Expr.weight : Expr → Nat
  | .literal _ | .ref _ => 0
  | .grouping inner _ => inner.weight + 1
  | .unary _ operand => operand.weight + 1
  | .binary left _ right => left.weight + right.weight + 1
  | .logical left _ right => left.weight + right.weight + 1
  | .assign _ value => value.weight + 1
  -- one step more for the application
  | .call callee _ args => callee.weight + Expr.weightAll args + 2

/-- The steps that a list of expressions needs. -/
def Expr.weightAll : List Expr → Nat
  | [] => 0
  | e :: es => e.weight + Expr.weightAll es + 1

end

mutual

/-- The steps that a statement needs if no call is made. A function weighs as much as its body, so
    that no body is heavier than the program. -/
def Stmt.weight : Stmt → Nat
  | .expression e => e.weight + 1
  | .display _ e => e.weight + 1
  | .scan _ _ => 1
  | .conditional _ condition body others =>
    condition.weight + Stmt.weightAll body + others.weight + 1
  | .loop _ condition body => condition.weight + Stmt.weightAll body + 1
  | .block _ body => Stmt.weightAll body + 1
  | .function _ _ body _ => Stmt.weightAll body + 1
  | .ret _ (some e) => e.weight + 1
  | .declare _ _ (some e) _ => e.weight + 1
  | .ret _ none | .declare _ _ none _ => 0

/-- The steps that a list of statements needs. -/
def Stmt.weightAll : List Stmt → Nat
  | [] => 0
  | s :: ss => s.weight + Stmt.weightAll ss + 1

/-- The steps that bodies need together. -/
def Stmt.weightBodies : List (List Stmt) → Nat
  | [] => 0
  | body :: bodies => Stmt.weightAll body + Stmt.weightBodies bodies

/-- The steps that a body needs, if there is one. -/
def Stmt.weightLast : Option (List Stmt) → Nat
  | none => 0
  | some body => Stmt.weightAll body + 1

/-- The steps that alternatives need. -/
def Alternatives.weight : Alternatives → Nat
  | .mk conditions bodies last =>
    Expr.weightAll conditions + Stmt.weightBodies bodies + Stmt.weightLast last

end

/-- The steps that alternatives need from the condition at an index on. -/
def Alternatives.weightFrom (i : Nat) (o : Alternatives) : Nat :=
  Expr.weightAll (o.conditions.drop i) + Stmt.weightBodies o.bodies + Stmt.weightLast o.last

theorem Alternatives.weightFrom_zero (o : Alternatives) : o.weightFrom 0 = o.weight := by
  cases o
  simp only [weightFrom, weight, conditions, bodies, last, List.drop_zero]

/-- One condition less is to be tested. -/
theorem Alternatives.weightFrom_succ {o : Alternatives} {i : Nat} {c : Expr}
    (hc : o.conditions[i]? = some c) : o.weightFrom i = c.weight + 1 + o.weightFrom (i + 1) := by
  obtain ⟨hi, rfl⟩ := List.getElem?_eq_some_iff.mp hc
  unfold weightFrom
  rw [List.drop_eq_getElem_cons hi, Expr.weightAll]
  omega

theorem Stmt.bodiesLoopFree_iff {bodies : List (List Stmt)} :
    Stmt.BodiesLoopFree bodies ↔ ∀ body ∈ bodies, Stmt.AllLoopFree body := by
  induction bodies with
  | nil => simp [Stmt.BodiesLoopFree]
  | cons body bodies ih => rw [Stmt.BodiesLoopFree, ih, List.forall_mem_cons]

theorem Stmt.weightAll_le_of_mem {body : List Stmt} : ∀ {bodies : List (List Stmt)},
    body ∈ bodies → Stmt.weightAll body ≤ Stmt.weightBodies bodies
  | b :: bodies, hbody => by
    simp only [Stmt.weightBodies]
    rcases List.mem_cons.mp hbody with rfl | hbody
    · exact Nat.le_add_right _ _
    · exact Nat.le_trans (weightAll_le_of_mem hbody) (Nat.le_add_left _ _)

/-- A body weighs no more than the alternatives that it is one of. -/
theorem Alternatives.weightAll_le_weightFrom {o : Alternatives} {body : List Stmt} (i : Nat)
    (hbody : body ∈ o.bodies) : Stmt.weightAll body ≤ o.weightFrom (i + 1) := by
  have hle := Stmt.weightAll_le_of_mem hbody
  unfold weightFrom
  omega

theorem Alternatives.weightAll_lt_weightFrom {o : Alternatives} {body : List Stmt} (i : Nat)
    (hbody : o.last = some body) : Stmt.weightAll body < o.weightFrom i := by
  unfold weightFrom
  rw [hbody, Stmt.weightLast]
  omega

/-- The trees without `WHILE` that weigh no more than `bound`. -/
def loopFreeTrees (bound : Nat) : TreeClass where
  token _ := True
  expr _ := True
  exprs _ := True
  stmt s := s.LoopFree ∧ s.weight ≤ bound
  stmts ss := Stmt.AllLoopFree ss ∧ Stmt.weightAll ss ≤ bound
  others o := o.LoopFree ∧ o.weight ≤ bound
  grouping _ := trivial
  assign _ := trivial
  unary _ := trivial
  binary _ := ⟨trivial, trivial⟩
  logical _ := ⟨trivial, trivial⟩
  call _ := ⟨trivial, trivial⟩
  exprs_cons _ := ⟨trivial, trivial⟩
  expression _ := trivial
  display _ := trivial
  scan _ _ _ := trivial
  conditional := by
    rintro _ _ _ _ ⟨⟨hbody, hothers⟩, hweight⟩
    simp only [Stmt.weight] at hweight
    exact ⟨trivial, ⟨hbody, by omega⟩, hothers, by omega⟩
  loop := by
    rintro _ _ _ ⟨hloop, _⟩
    exact hloop.elim
  block := by
    rintro _ _ ⟨hbody, hweight⟩
    exact ⟨hbody, Nat.le_of_succ_le hweight⟩
  function := by
    rintro _ _ _ _ ⟨hbody, hweight⟩
    exact ⟨hbody, Nat.le_of_succ_le hweight⟩
  ret _ := trivial
  declare _ := trivial
  stmts_cons := by
    rintro _ _ ⟨⟨hs, hss⟩, hweight⟩
    simp only [Stmt.weightAll] at hweight
    exact ⟨⟨hs, by omega⟩, hss, by omega⟩
  alternatives := by
    rintro ⟨conditions, bodies, last⟩ ⟨⟨hbodies, hlast⟩, hweight⟩
    simp only [Alternatives.weight] at hweight
    refine ⟨fun _ _ => trivial, fun body hbody => ⟨?_, ?_⟩, ?_⟩
    · exact Stmt.bodiesLoopFree_iff.mp hbodies body hbody
    · have hle : Stmt.weightAll body ≤ Stmt.weightBodies bodies :=
        Stmt.weightAll_le_of_mem hbody
      omega
    · rintro body rfl
      simp only [Stmt.weightLast] at hweight
      exact ⟨hlast, by omega⟩

/-! ## 3. The weight of activities -/

/-- The task is a loop on its way. -/
def Task.IsLoop : Task → Prop
  | .execLoop _ _ => True
  | _ => False

/-- The steps that a task needs before the body of a function is entered. -/
def Task.weight : Task → Nat
  | .eval e => e.weight
  | .evalAll es => Expr.weightAll es
  | .apply _ _ => 1
  | .exec s => s.weight
  | .execAll ss => Stmt.weightAll ss
  | .execOthers i others => others.weightFrom i
  | .call _ _ | .execLoop _ _ | .assignScanned _ _ => 0

namespace Activity

variable {h : Host} {bound : Nat}

/-- The steps that an activity needs, if the bodies of functions weigh no more than `bound`: those
    of its task, and those of a body for each call that may still be made inside another one. -/
def weight (h : Host) (bound : Nat) (a : Activity) : Nat :=
  a.task.weight + (h.limit - a.start.depth) * (bound + 1)

/-- A part of an activity runs at the same depth, or is the body of a function one call deeper. -/
theorem Calls.depth {a b : Activity} (hab : Calls h a b) :
    b.start.depth = a.start.depth ∨ ∃ n f args m frame, a = ⟨n + 1, .call f args, m⟩ ∧
      m.depth < h.limit ∧ b = ⟨n, .execAll f.body, m.descend.enter h frame⟩ := by
  have evaluated {n e m v m'} (hv : Machine.eval h n e m = (.ok v, m')) : m'.depth = m.depth := by
    have hdepth := ((depth_conduct h).holds n).eval e m
    rw [hv] at hdepth
    exact hdepth
  cases hab with
  | right hl => exact .inl (evaluated hl)
  | decided hl _ => exact .inl (evaluated hl)
  | arguments hf => exact .inl (evaluated hf)
  | @application n _ _ args _ _ m₁ _ _ hf hvs =>
    have hdepth := ((depth_conduct h).holds n).evalAll args m₁
    rw [hvs] at hdepth
    exact .inl (hdepth.trans (evaluated hf))
  | tail he => exact .inl (evaluated he)
  | user _ _ => exact .inl (log_depth ..)
  | body hdepth _ => exact .inr ⟨_, _, _, _, _, rfl, hdepth, rfl⟩
  | consequence hc _ => exact .inl (evaluated hc)
  | alternative hc _ => exact .inl (evaluated hc)
  | block => exact .inl (enter_depth ..)
  | @next n s _ m _ hs =>
    have hdepth := ((depth_conduct h).holds n).exec s m
    rw [hs] at hdepth
    exact .inl hdepth
  | elseConsequence _ hc _ _ => exact .inl (evaluated hc)
  | elseAlternative _ hc _ => exact .inl (evaluated hc)
  | loopBody hc _ => exact .inl (evaluated hc)
  | @again n _ body _ _ m₁ _ hc _ hbody =>
    have hdepth := ((depth_conduct h).holds n).execAll body m₁
    rw [hbody] at hdepth
    exact .inl (hdepth.trans (evaluated hc))
  | _ => exact .inl rfl

/-- At the same depth the task of a part is lighter, by the steps that the part has less. -/
theorem Calls.task_lighter {a b : Activity} (hab : Calls h a b) (ha : a.In (loopFreeTrees bound))
    (hloop : ¬ a.task.IsLoop) (hdepth : b.start.depth = a.start.depth) :
    ¬ b.task.IsLoop ∧ a.steps + b.task.weight ≤ b.steps + a.task.weight := by
  obtain ⟨_, ht⟩ := ha
  cases hab with
  | body _ _ =>
    rw [enter_depth] at hdepth
    exact absurd hdepth (Nat.succ_ne_self _)
  | loop => exact ht.1.elim
  | loopCondition => exact absurd trivial hloop
  | loopBody _ _ => exact absurd trivial hloop
  | again _ _ _ => exact absurd trivial hloop
  | @otherwise _ i _ _ _ _ hlast =>
    have hlt := Alternatives.weightAll_lt_weightFrom i hlast
    refine ⟨id, ?_⟩
    simp only [Task.weight]
    omega
  | elseCondition hcondition =>
    have hweight := Alternatives.weightFrom_succ hcondition
    refine ⟨id, ?_⟩
    simp only [Task.weight]
    omega
  | @elseConsequence _ i _ _ _ _ _ _ hcondition _ _ hbody =>
    have hweight := Alternatives.weightFrom_succ hcondition
    have hle := Alternatives.weightAll_le_weightFrom i (List.mem_of_getElem? hbody)
    refine ⟨id, ?_⟩
    simp only [Task.weight]
    omega
  | elseAlternative hcondition _ _ =>
    have hweight := Alternatives.weightFrom_succ hcondition
    refine ⟨id, ?_⟩
    simp only [Task.weight]
    omega
  | _ =>
    refine ⟨id, ?_⟩
    simp only [Task.weight, Expr.weight, Expr.weightAll, Stmt.weight, Stmt.weightAll,
      Alternatives.weightFrom_zero]
    omega

/-- **An activity without loops outweighs each of its parts**, by the steps that the part has
    less. -/
theorem Calls.lighter {a b : Activity} (hab : Calls h a b) (ha : a.In (loopFreeTrees bound))
    (hloop : ¬ a.task.IsLoop) :
    ¬ b.task.IsLoop ∧ a.steps + b.weight h bound ≤ b.steps + a.weight h bound := by
  rcases hab.depth with hdepth | ⟨n, f, args, m, frame, rfl, hlimit, rfl⟩
  · obtain ⟨hb, hlight⟩ := hab.task_lighter ha hloop hdepth
    refine ⟨hb, ?_⟩
    unfold weight
    rw [hdepth]
    omega
  · -- what the body may weigh is paid by the call that is no longer free
    refine ⟨id, ?_⟩
    have hbody : Stmt.weightAll f.body ≤ bound :=
      ((loopFreeTrees bound).function ha.2).2
    have hleft : h.limit - m.depth = (h.limit - (m.depth + 1)) + 1 := by omega
    unfold weight
    rw [enter_depth]
    show n + 1 + (Stmt.weightAll f.body + (h.limit - (m.depth + 1)) * (bound + 1)) ≤
      n + (0 + (h.limit - m.depth) * (bound + 1))
    rw [hleft, Nat.add_mul]
    omega

end Activity

/-! ## 4. Steps that are used up -/

theorem Operator.unary_ne_exhausted (op : Token) (v : Value) :
    unary op v ≠ .error .exhausted := by
  intro hx
  unfold unary at hx
  split at hx <;> cases hx

theorem Operator.onInts_ne_exhausted (op : Token) (a b : Int64) :
    onInts op a b ≠ .error .exhausted := by
  intro hx
  unfold onInts at hx
  split at hx
  case h_4 | h_5 => split at hx <;> cases hx
  all_goals cases hx

theorem Operator.onFloats_ne_exhausted (op : Token) (a b : Float) :
    onFloats op a b ≠ .error .exhausted := by
  intro hx
  unfold onFloats at hx
  split at hx
  case h_4 | h_5 => split at hx <;> cases hx
  all_goals cases hx

theorem Operator.binary_ne_exhausted (op : Token) (a b : Value) :
    binary op a b ≠ .error .exhausted := by
  intro hx
  unfold binary at hx
  split at hx
  · cases hx
  · cases hx
  · cases hx
  · split at hx
    · exact onInts_ne_exhausted _ _ _ hx
    · exact onFloats_ne_exhausted _ _ _ hx
    · cases hx

theorem Machine.resultOf_ne_exhausted (f : Function) (c : Completion) :
    resultOf f c ≠ .error .exhausted := by
  intro hx
  unfold resultOf at hx
  split at hx
  · cases hx
  · cases hx
  · cases hx
  · cases hx
  · split at hx <;> cases hx

theorem Failure.eq_exhausted_of_locate {x : Failure} {t : Token}
    (hx : x.locate t = .exhausted) : x = .exhausted := by
  cases x with
  | fault f => cases hx
  | _ => exact hx

namespace Activity

variable {h : Host} {bound : Nat}

/-- Only an activity without steps uses them up by itself. -/
theorem Raises.steps_eq_zero {a : Activity} {x : Failure} (hx : Raises h a x)
    (hexhausted : x = .exhausted) : a.steps = 0 := by
  cases hx with
  | exhausted _ => rfl
  | unary _ hx => exact absurd (hexhausted ▸ hx) (Operator.unary_ne_exhausted _ _)
  | binary _ _ hx => exact absurd (hexhausted ▸ hx) (Operator.binary_ne_exhausted _ _ _)
  | native _ harity hx =>
    subst hexhausted
    rcases Native.run_error harity hx with ⟨_, _, hobjects⟩ | ⟨_, _, hreader⟩
    · cases hobjects
    · cases hreader
  | argument _ hx =>
    subst hexhausted
    rcases bindParams_error hx with ⟨_, _, hfault⟩ | ⟨hmissing, _⟩
    · cases hfault
    · cases hmissing
  | result _ _ _ hx => exact absurd (hexhausted ▸ hx) (resultOf_ne_exhausted _ _)
  | _ => cases hexhausted

theorem eq_exhausted_of_passed {a b : Activity} {x : Failure} (hx : passed a b x = .exhausted) :
    x = .exhausted := by
  unfold passed at hx
  split at hx
  · exact Failure.eq_exhausted_of_locate hx
  · exact hx

/-- **An activity that uses up its steps has no more than its weight.** -/
theorem Fails.steps_le {a : Activity} {x : Failure} (hx : Fails h a x) (hexhausted : x = .exhausted)
    (ha : a.In (loopFreeTrees bound)) (hloop : ¬ a.task.IsLoop) : a.steps ≤ a.weight h bound := by
  -- from the part that had none left outward, each step is paid by the weight that is lost
  refine hx.rule (motive := fun a x => x = .exhausted → a.In (loopFreeTrees bound) →
    ¬ a.task.IsLoop → a.steps ≤ a.weight h bound) ?raised ?passing hexhausted ha hloop
  case raised =>
    intro a x hraised hexhausted _ _
    rw [hraised.steps_eq_zero hexhausted]
    exact Nat.zero_le _
  case passing =>
    intro a b x hab _ ih hpassed ha hloop
    obtain ⟨hb, hlighter⟩ := hab.lighter ha hloop
    have hsteps := ih (eq_exhausted_of_passed hpassed) (in_of_calls hab ha) hb
    omega

/-! ## 5. Calls at the limit -/

/-- **A stack overflow in a part of an activity ends the activity.** -/
theorem Fails.overflows_of_within {a b : Activity} {x : Failure} (hab : Within h a b)
    (hx : Fails h b x) (hover : x.Overflows) : ∃ y, Fails h a y ∧ y.Overflows := by
  induction hab using Relation.ReflTransGen.head_induction_on with
  | refl => exact ⟨x, hx, hover⟩
  | @head c d hcd _ ih =>
    obtain ⟨y, hy, hover⟩ := ih
    refine ⟨passed c d y, hy.of_calls hcd, ?_⟩
    unfold passed
    split
    · exact hover.locate _
    · exact hover

theorem fails_at_limit {n : Nat} {f : Function} {args : List Value} {m : Machine}
    (hlimit : h.limit ≤ m.depth) :
    Fails h ⟨n + 1, .call f args, m⟩ (.fault (.unplaced (.depth f.name.lexeme))) := by
  show (Machine.call h (n + 1) f args m).1 = _
  rw [call_of_limit hlimit]

/-- If a part of an activity has no steps, the activity uses up its own. -/
theorem Fails.exhausted_of_within {a b : Activity} (hab : Within h a b)
    (hx : Fails h b .exhausted) : Fails h a .exhausted := by
  induction hab using Relation.ReflTransGen.head_induction_on with
  | refl => exact hx
  | @head c d hcd _ ih =>
    have hpassed : passed c d .exhausted = .exhausted := by
      unfold passed
      split <;> rfl
    exact hpassed ▸ ih.of_calls hcd

end Activity

/-! ## 6. Programs without loops halt -/

/-- The run of a program without `WHILE` has steps left if it is granted more than the program
    weighs, as often as calls may nest. -/
theorem not_exhausted_of_loopFree {h : Host} {program : List Stmt}
    (hfree : Stmt.AllLoopFree program) (input : Input) {steps : Nat}
    (hsteps : (h.limit + 1) * (Stmt.weightAll program + 1) ≤ steps) :
    (execute h steps program (.standard input)).1 ≠ .error .exhausted := by
  intro hexhausted
  have hin : (Activity.ofProgram steps program (.standard input)).In
      (loopFreeTrees (Stmt.weightAll program)) :=
    Activity.in_ofProgram steps (Machine.in_standard input) ⟨hfree, Nat.le_refl _⟩
  have hle := (execute_error.mp hexhausted).steps_le rfl hin id
  have hweight : steps ≤ Stmt.weightAll program + h.limit * (Stmt.weightAll program + 1) := hle
  rw [Nat.add_mul] at hsteps
  omega

/-- **Only `WHILE` can run forever.** Take any host, so any limit on nested calls, any input and any
    program without `WHILE`, in its body and in the bodies of its functions. There is one way in
    which the program ends on a standard machine, and every run ends so that is granted the stated
    steps. In such a run calls nest no deeper than the limit, and if a function is called there,
    the run ends with a stack overflow. -/
theorem loop_free_halts (h : Host) {program : List Stmt} (hfree : Stmt.AllLoopFree program)
    (input : Input) :
    ∃ r m', Halts h program (.standard input) r m' ∧
      ∀ steps, (h.limit + 1) * (Stmt.weightAll program + 1) ≤ steps →
        execute h steps program (.standard input) = (r, m') ∧
        ∀ a, Activity.Within h (.ofProgram steps program (.standard input)) a →
          a.start.depth ≤ h.limit ∧
          ∀ f args, a.task = .call f args → a.start.depth = h.limit →
            ∃ e, r = .error e ∧ e.Overflows := by
  have hlive {steps : Nat} (hsteps : (h.limit + 1) * (Stmt.weightAll program + 1) ≤ steps) :
      (execute h steps program (.standard input)).1 ≠ .error .exhausted :=
    not_exhausted_of_loopFree hfree input hsteps
  have hhalts := halts_of_execute (hlive (Nat.le_refl _))
  refine ⟨_, _, hhalts, fun steps hsteps => ?_⟩
  have hrun := execute_of_le hsteps hhalts.1 rfl
  refine ⟨hrun, fun a ha => ⟨?depth, fun f args htask hlimit => ?overflow⟩⟩
  case depth =>
    exact (bounded_invariant h).start_of_within ha (Nat.zero_le _)
  case overflow =>
    obtain ⟨n, task, m⟩ := a
    obtain rfl : task = .call f args := htask
    cases n with
    | zero =>
      have hexhausted := Activity.Fails.exhausted_of_within ha (b := ⟨0, .call f args, m⟩) rfl
      exact absurd (execute_error.mpr hexhausted) (hlive hsteps)
    | succ n =>
      have hdeep : Activity.Fails h ⟨n + 1, .call f args, m⟩ _ :=
        Activity.fails_at_limit (Nat.le_of_eq hlimit.symm)
      obtain ⟨e, he, hover⟩ := hdeep.overflows_of_within ha (Failure.overflows_depth _)
      exact ⟨e, (congrArg Prod.fst hrun).symm.trans (execute_error.mpr he), hover⟩

/-- Two functions that call each other without end: `FN ping() BEGIN FN pong() END FN FN pong()
    BEGIN FN ping() END FN BEGIN CODE ping() END CODE`. -/
def mutualProgram : List Stmt :=
  let name (w : String) : Token := ⟨.identifier, utf8 w, none, .start⟩
  let paren : Token := ⟨.rightParen, utf8 ")", none, .start⟩
  let call (w : String) : Stmt := .expression (.call (.ref (name w)) paren [])
  [.function (name "ping") [] [call "pong"] none, .function (name "pong") [] [call "ping"] none,
   call "ping"]

/-- With three calls allowed, the fourth one ends the run. -/
theorem mutualProgram_overflows :
    let h : Host := { maxDepth := 3 }
    Stmt.AllLoopFree mutualProgram ∧ ∃ e m', e.Overflows ∧
      Halts h mutualProgram (.standard .empty) (.error e) m' ∧
      execute h 70 mutualProgram (.standard .empty) = (.error e, m') := by
  intro h
  have hfree : Stmt.AllLoopFree mutualProgram := by
    simp [mutualProgram, Stmt.AllLoopFree, Stmt.LoopFree]
  have hkind : (match (execute h 70 mutualProgram (.standard .empty)).1 with
      | .ok _ => none
      | .error e => e.fault?.map Fault.kind) = some .stackOverflow := by decide +kernel
  obtain ⟨r, m', hhalts, hall⟩ := loop_free_halts h hfree .empty
  have hsteps : (h.limit + 1) * (Stmt.weightAll mutualProgram + 1) ≤ 70 := by decide +kernel
  have hrun := (hall 70 hsteps).1
  rw [hrun] at hkind
  rcases r with e | u
  · exact ⟨hfree, e, m', Failure.overflows_of_kind hkind, hhalts, hrun⟩
  · cases hkind

end FencedCode
