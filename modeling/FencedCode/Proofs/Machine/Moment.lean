import FencedCode.Proofs.Machine.Conduct
import FencedCode.Run
import Mathlib.Logic.Relation

/-!
# The moments of a run

A run is a tree: an expression evaluates its operands, a call runs the body of its function, a
statement runs the statements inside it. An `Activity` is a node of this tree, something that the
machine is asked to do together with the machine it starts in. The machines in which the
activities of a run start, and those that they leave behind, are the moments of the run.

* `Activity.Calls`, `Activity.Within` -- the activities directly in an activity, and all in it;
* `Session`, `Moment` -- the machines between the programs of a session, and at its moments;
* `Invariant.moment` -- **an invariant of the steps holds at every moment of every session**;
* `Scopes.Stable.invariant` -- properties of the store alone that are invariants.
-/

namespace FencedCode

open Machine

/-! ## 1. Activities -/

/-- What a machine can be asked to do. -/
inductive Task where
  | eval (e : Expr)
  | evalAll (es : List Expr)
  | apply (callee : Value) (args : List Value)
  | call (f : Function) (args : List Value)
  | exec (s : Stmt)
  | execAll (ss : List Stmt)
  | execOthers (i : Nat) (others : Alternatives)
  | execLoop (condition : Expr) (body : List Stmt)
  | assignScanned (names ts : List Token)

/-- A task at its start. -/
structure Activity where
  /-- The steps it is granted. -/
  steps : Nat
  /-- What is to be done. -/
  task : Task
  /-- The machine that it starts in. -/
  start : Machine

namespace Activity

/-- The machine that an activity leaves behind. -/
def final (h : Host) : Activity → Machine
  | ⟨n, .eval e, m⟩ => (Machine.eval h n e m).2
  | ⟨n, .evalAll es, m⟩ => (Machine.evalAll h n es m).2
  | ⟨n, .apply callee args, m⟩ => (Machine.apply h n callee args m).2
  | ⟨n, .call f args, m⟩ => (Machine.call h n f args m).2
  | ⟨n, .exec s, m⟩ => (Machine.exec h n s m).2
  | ⟨n, .execAll ss, m⟩ => (Machine.execAll h n ss m).2
  | ⟨n, .execOthers i others, m⟩ => (Machine.execOthers h n i others m).2
  | ⟨n, .execLoop condition body, m⟩ => (Machine.execLoop h n condition body m).2
  | ⟨_, .assignScanned names ts, m⟩ => (Machine.assignScanned names ts m).2

/-- `Calls h a b`: activity `b` is directly part of activity `a`. A part starts only if those
    before it have succeeded, and in the machine that the last of them left. -/
inductive Calls (h : Host) : Activity → Activity → Prop where
  -- expressions
  | grouping {n e pos m} : Calls h ⟨n + 1, .eval (.grouping e pos), m⟩ ⟨n, .eval e, m⟩
  | assigned {n name e m} : Calls h ⟨n + 1, .eval (.assign name e), m⟩ ⟨n, .eval e, m⟩
  | operand {n op e m} : Calls h ⟨n + 1, .eval (.unary op e), m⟩ ⟨n, .eval e, m⟩
  | left {n l op r m} : Calls h ⟨n + 1, .eval (.binary l op r), m⟩ ⟨n, .eval l, m⟩
  | right {n l op r m a m'} : Machine.eval h n l m = (.ok a, m') →
      Calls h ⟨n + 1, .eval (.binary l op r), m⟩ ⟨n, .eval r, m'⟩
  | test {n l op r m} : Calls h ⟨n + 1, .eval (.logical l op r), m⟩ ⟨n, .eval l, m⟩
  | decided {n l op r m a m'} : Machine.eval h n l m = (.ok a, m') →
      a.isTruthy ≠ (op.kind = .kwOr : Bool) →
      Calls h ⟨n + 1, .eval (.logical l op r), m⟩ ⟨n, .eval r, m'⟩
  | callee {n e paren args m} : Calls h ⟨n + 1, .eval (.call e paren args), m⟩ ⟨n, .eval e, m⟩
  | arguments {n e paren args m f m'} : Machine.eval h n e m = (.ok f, m') →
      Calls h ⟨n + 1, .eval (.call e paren args), m⟩ ⟨n, .evalAll args, m'⟩
  | application {n e paren args m f m₁ vs m₂} : Machine.eval h n e m = (.ok f, m₁) →
      Machine.evalAll h n args m₁ = (.ok vs, m₂) →
      Calls h ⟨n + 1, .eval (.call e paren args), m⟩ ⟨n, .apply f vs, m₂⟩
  | head {n e es m} : Calls h ⟨n + 1, .evalAll (e :: es), m⟩ ⟨n, .eval e, m⟩
  | tail {n e es m v m'} : Machine.eval h n e m = (.ok v, m') →
      Calls h ⟨n + 1, .evalAll (e :: es), m⟩ ⟨n, .evalAll es, m'⟩
  -- calls
  | user {n callee args m f copy} : callee.callable? = some (.user f copy) →
      (args.length : Int) = (Callable.user f copy).arity →
      Calls h ⟨n + 1, .apply callee args, m⟩
        ⟨n, .call f args, m.log h (.call f.name.lexeme args.length)⟩
  | body {n f args m frame} : m.depth < h.limit →
      bindParams f.params args ⟨some 0, []⟩ = .ok frame →
      Calls h ⟨n + 1, .call f args, m⟩ ⟨n, .execAll f.body, m.descend.enter h frame⟩
  -- statements
  | expression {n e m} : Calls h ⟨n + 1, .exec (.expression e), m⟩ ⟨n, .eval e, m⟩
  | display {n keyword e m} : Calls h ⟨n + 1, .exec (.display keyword e), m⟩ ⟨n, .eval e, m⟩
  | scan {n keyword names m line} : m.input.readLine.1 = .ok line →
      Calls h ⟨n + 1, .exec (.scan keyword names), m⟩
        ⟨n, .assignScanned names (Scan.ofText line).tokens,
          { m with input := m.input.readLine.2 }⟩
  | scanned {n name names t u ts m scopes} :
      m.scopes.assign m.scope name (.ofLiteral? t.literal) = .ok scopes →
      Calls h ⟨n, .assignScanned (name :: names) (t :: u :: ts), m⟩
        ⟨n, .assignScanned names ts, { m with scopes }⟩
  | condition {n keyword c body others m} :
      Calls h ⟨n + 1, .exec (.conditional keyword c body others), m⟩ ⟨n, .eval c, m⟩
  | consequence {n keyword c body others m v m'} : Machine.eval h n c m = (.ok v, m') →
      v.isTruthy = true →
      Calls h ⟨n + 1, .exec (.conditional keyword c body others), m⟩ ⟨n, .execAll body, m'⟩
  | alternative {n keyword c body others m v m'} : Machine.eval h n c m = (.ok v, m') →
      v.isTruthy = false →
      Calls h ⟨n + 1, .exec (.conditional keyword c body others), m⟩ ⟨n, .execOthers 0 others, m'⟩
  | loop {n keyword c body m} :
      Calls h ⟨n + 1, .exec (.loop keyword c body), m⟩ ⟨n, .execLoop c body, m⟩
  | block {n opening body m} :
      Calls h ⟨n + 1, .exec (.block opening body), m⟩
        ⟨n, .execAll body, m.enter h ⟨some m.scope, []⟩⟩
  | returned {n keyword e m} : Calls h ⟨n + 1, .exec (.ret keyword (some e)), m⟩ ⟨n, .eval e, m⟩
  | initial {n type name e isMutable m} :
      Calls h ⟨n + 1, .exec (.declare type name (some e) isMutable), m⟩ ⟨n, .eval e, m⟩
  | first {n s rest m} : Calls h ⟨n + 1, .execAll (s :: rest), m⟩ ⟨n, .exec s, m⟩
  | next {n s rest m m'} : Machine.exec h n s m = (.ok .normal, m') →
      Calls h ⟨n + 1, .execAll (s :: rest), m⟩ ⟨n, .execAll rest, m'⟩
  | otherwise {n i others body m} : others.conditions[i]? = none → others.last = some body →
      Calls h ⟨n + 1, .execOthers i others, m⟩ ⟨n, .execAll body, m⟩
  | elseCondition {n i others c m} : others.conditions[i]? = some c →
      Calls h ⟨n + 1, .execOthers i others, m⟩ ⟨n, .eval c, m⟩
  | elseConsequence {n i others c body m v m'} : others.conditions[i]? = some c →
      Machine.eval h n c m = (.ok v, m') → v.isTruthy = true → others.bodies[i]? = some body →
      Calls h ⟨n + 1, .execOthers i others, m⟩ ⟨n, .execAll body, m'⟩
  | elseAlternative {n i others c m v m'} : others.conditions[i]? = some c →
      Machine.eval h n c m = (.ok v, m') → v.isTruthy = false →
      Calls h ⟨n + 1, .execOthers i others, m⟩ ⟨n, .execOthers (i + 1) others, m'⟩
  | loopCondition {n c body m} : Calls h ⟨n + 1, .execLoop c body, m⟩ ⟨n, .eval c, m⟩
  | loopBody {n c body m v m'} : Machine.eval h n c m = (.ok v, m') → v.isTruthy = true →
      Calls h ⟨n + 1, .execLoop c body, m⟩ ⟨n, .execAll body, m'⟩
  | again {n c body m v m₁ m₂} : Machine.eval h n c m = (.ok v, m₁) → v.isTruthy = true →
      Machine.execAll h n body m₁ = (.ok .normal, m₂) →
      Calls h ⟨n + 1, .execLoop c body, m⟩ ⟨n, .execLoop c body, m₂⟩

/-- A part of an activity is granted one step less, unless it only assigns what was read. -/
theorem steps_of_calls {h : Host} {a b : Activity} (hab : Calls h a b) :
    a.steps = b.steps + 1 ∨ ∃ names ts, b.task = .assignScanned names ts := by
  cases hab with
  | scanned _ => exact .inr ⟨_, _, rfl⟩
  | _ => exact .inl rfl

/-- `Within h a b`: activity `b` is part of activity `a`, or is `a` itself. -/
def Within (h : Host) : Activity → Activity → Prop :=
  Relation.ReflTransGen (Calls h)

end Activity

/-! ## 2. Sessions -/

/-- The machines between the programs of a session on the given input. Each program is one that
    the grammar accepts; how deep its calls may nest and how many steps it is granted is open. -/
inductive Session (input : Input) : Machine → Prop where
  | start : Session input (.standard input)
  | program {m : Machine} (h : Host) (steps : Nat) (ts : List Token) : Session input m →
      (Program.ofTokens ts).diagnostics = [] →
      Session input (execute h steps (Program.ofTokens ts).stmts m).2

/-- The run of a program, started on a machine as `execute` starts it. -/
def Activity.ofProgram (steps : Nat) (program : List Stmt) (m : Machine) : Activity :=
  ⟨steps, .execAll program, m.rested⟩

/-- The machines at the moments of a session: between its programs, and where an activity of one
    of them starts or has ended. -/
inductive Moment (input : Input) : Machine → Prop where
  | rest {m : Machine} : Session input m → Moment input m
  | starting {m : Machine} {h : Host} {steps : Nat} {ts : List Token} {a : Activity} :
      Session input m → (Program.ofTokens ts).diagnostics = [] →
      Activity.Within h (.ofProgram steps (Program.ofTokens ts).stmts m) a → Moment input a.start
  | ended {m : Machine} {h : Host} {steps : Nat} {ts : List Token} {a : Activity} :
      Session input m → (Program.ofTokens ts).diagnostics = [] →
      Activity.Within h (.ofProgram steps (Program.ofTokens ts).stmts m) a →
      Moment input (a.final h)

/-! ## 3. Invariants -/

/-- **A course holds of every activity**: between the machine that it starts in and the one that
    it leaves behind. -/
theorem Course.final {h : Host} {E S : Machine → Machine → Prop} (C : Course h E S) :
    ∀ a : Activity, S a.start (a.final h)
  | ⟨n, .eval e, m⟩ => C.ofE ((C.holds n).eval e m)
  | ⟨n, .evalAll es, m⟩ => C.ofE ((C.holds n).evalAll es m)
  | ⟨n, .apply callee args, m⟩ => C.ofE ((C.holds n).apply callee args m)
  | ⟨n, .call f args, m⟩ => C.ofE ((C.holds n).call f args m)
  | ⟨n, .exec s, m⟩ => (C.holds n).exec s m
  | ⟨n, .execAll ss, m⟩ => (C.holds n).execAll ss m
  | ⟨n, .execOthers i others, m⟩ => (C.holds n).execOthers i others m
  | ⟨n, .execLoop condition body, m⟩ => (C.holds n).execLoop condition body m
  | ⟨_, .assignScanned names ts, m⟩ => C.ofE (C.assignScanned names ts m)

/-- A property of machines that the relations of a course keep, and also the steps that begin the
    body of a block or of a function. -/
structure Carried (h : Host) (E S : Machine → Machine → Prop) (I : Machine → Prop) : Prop
    extends Course h E S where
  keep {m m' : Machine} : E m m' → I m → I m'
  keepS {m m' : Machine} : S m m' → I m → I m'
  enterBlock {m : Machine} : I m → I (m.enter h ⟨some m.scope, []⟩)
  enterCall {m : Machine} {params : List Param} {args : List Value} {frame : Frame} :
    m.depth < h.limit → bindParams params args ⟨some 0, []⟩ = .ok frame →
    I m → I (m.descend.enter h frame)

/-- A property of machines that all steps of all programs keep. -/
structure Invariant (h : Host) (E S : Machine → Machine → Prop) (I : Machine → Prop) : Prop
    extends Conduct h E S, Carried h E S I where
  enterProgram {m : Machine} : I m → I m.rested

namespace Carried

variable {h : Host} {E S : Machine → Machine → Prop} {I : Machine → Prop}

/-- **What holds where an activity starts and is carried along holds where it ends.** -/
theorem final (C : Carried h E S I) {a : Activity} (hstart : I a.start) : I (a.final h) :=
  C.keepS (C.toCourse.final a) hstart

/-- The property where a step of an activity has ended with the given machine. -/
theorem final_eq (C : Carried h E S I) {a : Activity} {m : Machine} (hstart : I a.start)
    (hm : a.final h = m) : I m :=
  hm ▸ C.final hstart

/-- **It passes on to the parts of an activity.** A part starts in the machine of the whole, in one
    that an earlier part left, or in a new frame. -/
theorem start_of_calls (C : Carried h E S I) {a b : Activity} (hab : Activity.Calls h a b)
    (hstart : I a.start) : I b.start := by
  have evaluated {n e m v m'} (hm : I m) (hv : Machine.eval h n e m = (.ok v, m')) : I m' :=
    C.final_eq (a := ⟨n, .eval e, m⟩) hm (congrArg Prod.snd hv)
  cases hab with
  | right hv => exact evaluated hstart hv
  | decided hv _ => exact evaluated hstart hv
  | arguments hv => exact evaluated hstart hv
  | application hf hvs =>
    exact C.final_eq (a := ⟨_, .evalAll _, _⟩) (evaluated hstart hf) (congrArg Prod.snd hvs)
  | tail hv => exact evaluated hstart hv
  | user => exact C.keep (C.called _ _ _) hstart
  | body hdepth hb => exact C.enterCall hdepth hb hstart
  | scan => exact C.keep (C.read _) hstart
  | scanned ha => exact C.keep (C.assign ha) hstart
  | consequence hv _ => exact evaluated hstart hv
  | alternative hv _ => exact evaluated hstart hv
  | block => exact C.enterBlock hstart
  | next hs => exact C.final_eq (a := ⟨_, .exec _, _⟩) hstart (congrArg Prod.snd hs)
  | elseConsequence _ hv _ _ => exact evaluated hstart hv
  | elseAlternative _ hv _ => exact evaluated hstart hv
  | loopBody hv _ => exact evaluated hstart hv
  | again hv _ hb =>
    exact C.final_eq (a := ⟨_, .execAll _, _⟩) (evaluated hstart hv) (congrArg Prod.snd hb)
  -- the first part starts in the machine of the whole
  | _ => exact hstart

theorem start_of_within (C : Carried h E S I) {a b : Activity} (hab : Activity.Within h a b)
    (hstart : I a.start) : I b.start := by
  induction hab with
  | refl => exact hstart
  | tail _ hcall ih => exact C.start_of_calls hcall ih

end Carried

namespace Invariant

variable {h : Host} {E S : Machine → Machine → Prop} {I : Machine → Prop}

/-- Running a program keeps an invariant, whether the program ends, returns or fails. -/
theorem execute (C : Invariant h E S I) (steps : Nat) (program : List Stmt) {m : Machine}
    (hm : I m) : I (Machine.execute h steps program m).2 := by
  have hrun := C.final (a := .ofProgram steps program m) (C.enterProgram hm)
  unfold Machine.execute
  simp only [Activity.ofProgram, Activity.final] at hrun
  split <;> rename_i hr <;> rw [hr] at hrun
  · exact hrun
  · exact C.keep (C.log _ _) hrun
  · split
    · exact C.keep (C.log _ _) hrun
    · exact hrun

variable {input : Input} {m : Machine}

theorem session (C : ∀ h, Invariant h E S I) (hstart : I (.standard input))
    (hm : Session input m) : I m := by
  induction hm with
  | start => exact hstart
  | program h steps ts _ _ ih => exact (C h).execute steps _ ih

/-- **An invariant of the steps holds at every moment of every session.** -/
theorem moment (C : ∀ h, Invariant h E S I) (hstart : I (.standard input))
    (hm : Moment input m) : I m := by
  cases hm with
  | rest hs => exact session C hstart hs
  | @starting _ h _ _ _ hs _ hin =>
    exact (C h).start_of_within hin ((C h).enterProgram (session C hstart hs))
  | @ended _ h _ _ _ hs _ hin =>
    exact (C h).final ((C h).start_of_within hin ((C h).enterProgram (session C hstart hs)))

end Invariant

/-! ## 4. Properties of the store -/

/-- A property of trees of frames that is kept when a name is assigned or declared, and when a frame
    is made or dropped. -/
structure Scopes.Stable (P : Scopes → Prop) : Prop where
  assign {s s' : Scopes} {i : Nat} {name : Token} {v : Value} :
    P s → s.assign i name v = .ok s' → P s'
  declare {s : Scopes} {type : BaseType} {v : Value} (i : Nat) (name : Text) (isMutable : Bool) :
    P s → v = .null ∨ v.type = .base type → P (s.define i name ⟨.base type, v, isMutable⟩).2
  function {s : Scopes} (i : Nat) (f : Function) : P s →
    P (s.set i f.name.lexeme ⟨.function, .function (some (.user f 0)), false⟩)
  block {s : Scopes} (i : Nat) : P s → P (s.push ⟨some i, []⟩)
  call {s : Scopes} {params : List Param} {args : List Value} {frame : Frame} :
    P s → bindParams params args ⟨some 0, []⟩ = .ok frame → P (s.push frame)
  pop {s : Scopes} : P s → P s.pop

/-- **A stable property of the store is an invariant.** -/
theorem Scopes.Stable.invariant {P : Scopes → Prop} (hP : Stable P) (h : Host) :
    Invariant h (fun m m' => P m.scopes → P m'.scopes) (fun m m' => P m.scopes → P m'.scopes)
      fun m => P m.scopes where
  refl _ := id
  trans hab hbc := hbc ∘ hab
  transS hab hbc := hbc ∘ hab
  ofE := id
  write _ _ := id
  probe _ _ := id
  tick _ := id
  log m e hm := by
    rw [log_scopes]
    exact hm
  read _ := id
  assign ha hm := hP.assign hm ha
  declare m type name v isMutable hv hm := by
    rw [declare_scopes]
    exact hP.declare _ _ isMutable hm hv
  function m f hm := by
    rw [declareFunction_scopes]
    exact hP.function _ f hm
  block hbody hm := by
    rw [leave_scopes]
    refine hP.pop (hbody ?_)
    rw [enter_scopes]
    exact hP.block _ hm
  call _ hb hbody hm := by
    show P (Machine.leave _ _ _).scopes
    rw [leave_scopes]
    refine hP.pop (hbody ?_)
    rw [enter_scopes]
    exact hP.call hm hb
  keep := id
  keepS := id
  enterBlock hm := by
    rw [enter_scopes]
    exact hP.block _ hm
  enterCall _ hb hm := by
    rw [enter_scopes]
    exact hP.call hm hb
  enterProgram := id

end FencedCode
