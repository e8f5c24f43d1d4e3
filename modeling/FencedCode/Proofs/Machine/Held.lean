import FencedCode.Proofs.Machine.TypeSoundness

/-!
# Machines that only hold functions of some class

A run puts trees of its program into values: a declared function holds its name, its parameters and
its body. What runs later may come out of such a value. So what holds of the trees of a program,
and with every tree of the parts of it, holds of all that any part of the run works on.

* `TreeClass` -- a class of trees that is closed under their parts;
* `Value.In`, `Machine.In`, `Activity.In` -- that the trees inside are of the class;
* `Exec.Keeps` -- a step that keeps what holds of machines and yields what holds of results;
* `TreeClass.run` -- **runs keep machines in the class and yield values of it**, by induction on the
  steps;
* `Activity.in_of_calls` -- hence the parts of an activity in the class are in it.
-/

namespace FencedCode

open Exec Machine

/-! ## 1. Classes of trees -/

/-- A class of trees, and of the tokens that a `SCAN` names, that is closed under parts. -/
structure TreeClass where
  token : Token → Prop
  expr : Expr → Prop
  exprs : List Expr → Prop
  stmt : Stmt → Prop
  stmts : List Stmt → Prop
  others : Alternatives → Prop
  -- expressions
  grouping {e : Expr} {pos : Position} : expr (.grouping e pos) → expr e
  assign {name : Token} {e : Expr} : expr (.assign name e) → expr e
  unary {op : Token} {e : Expr} : expr (.unary op e) → expr e
  binary {l r : Expr} {op : Token} : expr (.binary l op r) → expr l ∧ expr r
  logical {l r : Expr} {op : Token} : expr (.logical l op r) → expr l ∧ expr r
  call {e : Expr} {paren : Token} {args : List Expr} : expr (.call e paren args) →
    expr e ∧ exprs args
  exprs_cons {e : Expr} {es : List Expr} : exprs (e :: es) → expr e ∧ exprs es
  -- statements
  expression {e : Expr} : stmt (.expression e) → expr e
  display {keyword : Token} {e : Expr} : stmt (.display keyword e) → expr e
  scan {keyword : Token} {names : List Token} : stmt (.scan keyword names) → ∀ t ∈ names, token t
  conditional {keyword : Token} {c : Expr} {body : List Stmt} {o : Alternatives} :
    stmt (.conditional keyword c body o) → expr c ∧ stmts body ∧ others o
  loop {keyword : Token} {c : Expr} {body : List Stmt} : stmt (.loop keyword c body) →
    expr c ∧ stmts body
  block {opening : Token} {body : List Stmt} : stmt (.block opening body) → stmts body
  function {name : Token} {params : List Param} {body : List Stmt} {result : Option TypeName} :
    stmt (.function name params body result) → stmts body
  ret {keyword : Token} {e : Expr} : stmt (.ret keyword (some e)) → expr e
  declare {type : BaseType} {name : Token} {e : Expr} {isMutable : Bool} :
    stmt (.declare type name (some e) isMutable) → expr e
  stmts_cons {s : Stmt} {ss : List Stmt} : stmts (s :: ss) → stmt s ∧ stmts ss
  alternatives {o : Alternatives} : others o → (∀ c ∈ o.conditions, expr c) ∧
    (∀ body ∈ o.bodies, stmts body) ∧ ∀ body ∈ o.last, stmts body

/-- The declaration of a function is of the class. -/
def Function.In (C : TreeClass) (f : Function) : Prop :=
  C.stmt (.function f.name f.params f.body f.result)

/-- A function that a value holds is of the class. -/
def Value.In (C : TreeClass) (v : Value) : Prop :=
  ∀ f copy, v.callable? = some (.user f copy) → f.In C

/-- What a statement returns is of the class. -/
def Completion.In (C : TreeClass) : Completion → Prop
  | .normal => True
  | .returning v => v.In C

/-- The values of all bindings are of the class. -/
def Machine.In (C : TreeClass) (m : Machine) : Prop :=
  m.scopes.All fun b => b.value.In C

section Values

variable {C : TreeClass}

theorem Value.in_of_type {v : Value} (hv : v.type ≠ .function) : v.In C := by
  intro f copy hf
  rw [callable?_eq_none hv] at hf
  cases hf

theorem Value.in_null : Value.null.In C :=
  in_of_type (by decide)

theorem Value.in_ofLiteral? (l : Option Literal) : (ofLiteral? l).In C := by
  cases l with
  | none => exact in_null
  | some l => cases l <;> exact in_of_type nofun

theorem Value.in_user {f : Function} (hf : f.In C) (copy : Nat) :
    (Value.function (some (.user f copy))).In C := by
  intro g i hg
  cases hg
  exact hf

theorem Machine.In.of_scopes {m m' : Machine} (hm : m.In C) (hs : m'.scopes = m.scopes) :
    m'.In C := by
  unfold Machine.In
  rw [hs]
  exact hm

theorem Machine.in_standard (input : Input) : (standard input).In C := by
  refine all_standard (fun n => ?_) input
  intro f copy hf
  cases hf

theorem Machine.In.log {m : Machine} (hm : m.In C) (h : Host) (e : Event) :
    (m.log h e).In C :=
  hm.of_scopes (log_scopes m h e)

theorem Machine.In.enter {m : Machine} (hm : m.In C) (h : Host) {frame : Frame}
    (hframe : frame.All fun b => b.value.In C) : (m.enter h frame).In C := by
  unfold Machine.In
  rw [enter_scopes]
  exact hm.push hframe

theorem Machine.In.leave {m : Machine} (hm : m.In C) (h : Host) (outer : Nat) :
    (m.leave h outer).In C := by
  unfold Machine.In
  rw [leave_scopes]
  exact hm.pop

/-- An argument that fits its parameter is no function. -/
theorem Machine.in_of_bindParams {params : List Param} {args : List Value} {frame : Frame}
    (hb : bindParams params args ⟨some 0, []⟩ = .ok frame) :
    frame.All fun b => b.value.In C := by
  refine all_of_bindParams (fun t v hv => ?_) hb (Frame.all_empty _)
  refine Value.in_of_type fun hfunction => ?_
  rw [hv] at hfunction
  cases hfunction

theorem Machine.in_of_assign {m : Machine} (hm : m.In C) {name : Token} {v : Value}
    {scopes : Scopes} (hv : v.In C) (ha : m.scopes.assign m.scope name v = .ok scopes) :
    In C { m with scopes } := by
  obtain ⟨k, b, _, _, _, _, rfl⟩ := Scopes.assign_ok ha
  exact Scopes.All.set hm k name.lexeme hv

/-- A call yields null or a value of a base type. -/
theorem Machine.type_of_yields {result : Option TypeName} {v : Value} (hv : Yields result v) :
    v.type ≠ .function := by
  intro hfunction
  unfold Yields at hv
  split at hv
  · rw [hv] at hfunction
    cases hfunction
  · rw [hv.2] at hfunction
    cases hfunction

theorem Machine.in_of_resultOf {f : Function} {c : Completion} {v : Value}
    (hv : resultOf f c = .ok v) : v.In C :=
  Value.in_of_type (type_of_yields (yields_of_resultOf hv))

end Values

/-- Operators yield plain values. -/
theorem Operator.type_unary {op : Token} {v w : Value} (hw : unary op v = .ok w) :
    w.type ≠ .function := by
  unfold unary at hw
  split at hw <;> cases hw <;> exact nofun

theorem Operator.type_onInts {op : Token} {a b : Int64} {w : Value} (hw : onInts op a b = .ok w) :
    w.type ≠ .function := by
  unfold onInts at hw
  split at hw
  case h_4 | h_5 =>
    split at hw
    · cases hw
    · cases hw
      exact nofun
  all_goals cases hw <;> exact nofun

theorem Operator.type_onFloats {op : Token} {a b : Float} {w : Value}
    (hw : onFloats op a b = .ok w) : w.type ≠ .function := by
  unfold onFloats at hw
  split at hw
  case h_4 | h_5 =>
    split at hw
    · cases hw
    · cases hw
      exact nofun
  all_goals cases hw <;> exact nofun

theorem Operator.type_binary {op : Token} {a b w : Value} (hw : binary op a b = .ok w) :
    w.type ≠ .function := by
  unfold binary at hw
  split at hw
  · cases hw
    exact nofun
  · cases hw
    exact nofun
  · cases hw
    exact nofun
  · split at hw
    · exact type_onInts hw
    · exact type_onFloats hw
    · cases hw

/-! ## 2. Steps that keep machines in a class -/

/-- From machines with `I` the step leaves a machine with `I`, and its results have `A`. -/
def Exec.Keeps (I : Machine → Prop) {α : Type} (A : α → Prop) (p : Exec α) : Prop :=
  ∀ m, I m → I (p m).2 ∧ ∀ a, (p m).1 = .ok a → A a

namespace Exec

variable {I : Machine → Prop} {α β : Type} {A : α → Prop} {B : β → Prop}

/-- **Steps that keep machines do so one after another.** -/
theorem Keeps.bind {p : Exec α} {f : α → Exec β} (hp : Keeps I A p)
    (hf : ∀ a, A a → Keeps I B (f a)) : Keeps I B (p >>= f) := by
  intro m hm
  obtain ⟨hkept, hresult⟩ := hp m hm
  rcases hrun : p m with ⟨e | a, m'⟩
  · rw [hrun] at hkept
    rw [bind_of_error hrun]
    exact ⟨hkept, nofun⟩
  · rw [hrun] at hkept hresult
    rw [bind_of_ok hrun]
    exact hf a (hresult a rfl) m' hkept

theorem keeps_pure {a : α} (ha : A a) : Keeps I A (pure a) :=
  fun _ hm => ⟨hm, fun _ hb => Except.ok.inj hb ▸ ha⟩

theorem keeps_fail (e : Failure) : Keeps I A (fail e) :=
  fun _ hm => ⟨hm, nofun⟩

theorem keeps_lift {r : Except Failure α} (hr : ∀ a, r = .ok a → A a) : Keeps I A (lift r) :=
  fun _ hm => ⟨hm, hr⟩

/-- What holds of all entries of a list holds of one at an index. -/
theorem keeps_entry {l : List α} (hl : ∀ a ∈ l, A a) (i : Nat) : Keeps I A (lift (entry l i)) :=
  keeps_lift fun a ha => hl a (List.mem_of_getElem? (entry_eq_ok_iff.mp ha))

theorem keeps_modify {f : Machine → Machine} (hf : ∀ m, I m → I (f m)) :
    Keeps I (fun _ => True) (modify f) :=
  fun m hm => ⟨hf m hm, fun _ _ => trivial⟩

theorem keeps_ite {q : Prop} [Decidable q] {p p' : Exec α} (hp : Keeps I A p)
    (hp' : Keeps I A p') : Keeps I A (if q then p else p') := by
  split
  · exact hp
  · exact hp'

theorem Keeps.located {p : Exec α} (hp : Keeps I A p) (t : Token) : Keeps I A (located t p) := by
  intro m hm
  obtain ⟨hkept, hresult⟩ := hp m hm
  refine ⟨located_snd t p m ▸ hkept, fun a ha => hresult a ?_⟩
  exact congrArg Prod.fst (located_ok (Prod.ext ha rfl))

end Exec

section Steps

variable {C : TreeClass} {h : Host}

theorem keeps_getValue (name : Token) :
    Keeps (Machine.In C) (Value.In C) (getValue name) := by
  intro m hm
  have hsame : (getValue name m).2 = m := getValue_snd name m
  refine ⟨by rw [hsame]; exact hm, fun v hv => ?_⟩
  unfold getValue Scopes.find at hv
  rcases hlookup : m.scopes.lookup m.scope name.lexeme with _ | b
  · rw [hlookup] at hv
    cases hv
  · rw [hlookup] at hv
    cases hv
    -- the binding stands in the frame that the name resolves to
    obtain ⟨k, _, hbound⟩ := Option.bind_eq_some_iff.mp hlookup
    exact hm k name.lexeme b hbound

theorem keeps_assign (name : Token) {v : Value} (hv : v.In C) :
    Keeps (Machine.In C) (fun _ => True) (Exec.assign name v) := by
  intro m hm
  refine ⟨?_, fun _ _ => trivial⟩
  unfold Exec.assign
  split
  · rename_i scopes hs
    exact in_of_assign hm hv hs
  · exact hm

theorem keeps_readLine : Keeps (Machine.In C) (fun _ => True) Exec.readLine :=
  fun _ hm => ⟨hm, fun _ _ => trivial⟩

theorem keeps_declare (type : BaseType) (name : Token) {v : Value} (isMutable : Bool)
    (hv : v.In C) :
    Keeps (Machine.In C) (fun _ => True) (Machine.declare h type name v isMutable) := by
  intro m hm
  refine ⟨?_, fun _ _ => trivial⟩
  unfold Machine.In
  rw [declare_scopes]
  exact hm.define _ _ hv

theorem keeps_declareFunction {f : Function} (hf : f.In C) :
    Keeps (Machine.In C) (fun _ => True) (Machine.declareFunction h f) := by
  intro m hm
  refine ⟨?_, fun _ _ => trivial⟩
  unfold Machine.In
  rw [declareFunction_scopes]
  exact hm.set _ _ (Value.in_user hf 0)

theorem keeps_assignScanned : ∀ names ts : List Token,
    Keeps (Machine.In C) (fun _ => True) (Machine.assignScanned names ts)
  | [], _ => keeps_pure trivial
  | _ :: _, [] => keeps_fail _
  | _ :: _, [_] => keeps_fail _
  | name :: names, t :: u :: ts => by
    rw [assignScanned_cons]
    exact (keeps_assign name (Value.in_ofLiteral? t.literal)).bind fun _ _ =>
      keeps_assignScanned names ts

theorem keeps_scanLine (keyword : Token) (names : List Token) :
    Keeps (Machine.In C) (fun _ => True) (Machine.scanLine keyword names) := by
  refine keeps_readLine.bind fun r _ => ?_
  rcases r with (_ | reason) | line
  · exact keeps_fail _
  · exact keeps_fail _
  · exact keeps_assignScanned names _

end Steps

section Natives

variable {h : Host} {I : Machine → Prop} {A : Value → Prop}

theorem keeps_prompt (hI : ∀ {m m' : Machine}, I m → m'.scopes = m.scopes → I m')
    (hA : ∀ {v : Value}, v.type ≠ .function → A v) (args : List Value) :
    Keeps I A (Native.prompt args) := by
  have hargs : ∀ v ∈ args, True := fun _ _ => trivial
  have hwrite (v : Value) : Keeps I (fun _ => True)
      (Exec.modify fun m => m.write (Text.line v.text)) := keeps_modify fun _ hm => hI hm rfl
  have hread : Keeps I (fun _ => True) Exec.readLine := fun _ hm => ⟨hI hm rfl, fun _ _ => trivial⟩
  refine (keeps_entry hargs 0).bind fun v _ => (hwrite v).bind fun _ _ => hread.bind fun r _ => ?_
  rcases r with (_ | reason) | line
  · exact keeps_fail _
  · exact keeps_fail _
  · have hline : A (.string line) := hA nofun
    exact keeps_pure hline

theorem Native.type_onFloat {k : Native} {f : Float → Float} {args : List Value} {m : Machine}
    {w : Value} (hw : (k.onFloat f args m).1 = .ok w) : w.type ≠ .function := by
  obtain ⟨v, _, hw⟩ := result_bind_ok.mp hw
  obtain ⟨x, _, hw⟩ := result_bind_ok.mp hw
  cases hw
  exact nofun

theorem Native.type_onFloats {k : Native} {f : Float → Float → Float} {args : List Value}
    {m : Machine} {w : Value} (hw : (k.onFloats f args m).1 = .ok w) : w.type ≠ .function := by
  obtain ⟨v, _, hw⟩ := result_bind_ok.mp hw
  obtain ⟨x, _, hw⟩ := result_bind_ok.mp hw
  obtain ⟨v', _, hw⟩ := result_bind_ok.mp hw
  obtain ⟨y, _, hw⟩ := result_bind_ok.mp hw
  cases hw
  exact nofun

/-- **A native leaves all bindings alone and yields a plain value**, or the argument that it
    recorded. -/
theorem keeps_native (hI : ∀ {m m' : Machine}, I m → m'.scopes = m.scopes → I m')
    (hA : ∀ {v : Value}, v.type ≠ .function → A v) (k : Native) {args : List Value}
    (hargs : ∀ v ∈ args, A v) : Keeps I A (k.run h args) := by
  have honFloat (f : Float → Float) : Keeps I A (k.onFloat f args) :=
    fun _ hm => ⟨hm, fun _ hw => hA (Native.type_onFloat hw)⟩
  have honFloats (f : Float → Float → Float) : Keeps I A (k.onFloats f args) :=
    fun _ hm => ⟨hm, fun _ hw => hA (Native.type_onFloats hw)⟩
  unfold Native.run
  split
  · have hlook : Keeps I (fun _ => True) (Exec.lookAtClock h) :=
      fun _ hm => ⟨hI hm rfl, fun _ _ => trivial⟩
    exact hlook.bind fun _ _ => keeps_pure (hA nofun)
  · exact honFloat _
  · exact honFloat _
  · exact honFloat _
  · exact honFloat _
  · exact honFloats _
  · exact keeps_prompt hI hA args
  · refine (keeps_entry hargs 0).bind fun v hv => ?_
    have hrecord : Keeps I (fun _ => True)
        (Exec.modify fun m => { m with probes := v :: m.probes }) :=
      keeps_modify fun _ hm => hI hm rfl
    exact hrecord.bind fun _ _ => keeps_pure hv
  · exact keeps_pure (hA nofun)

end Natives

/-! ## 3. The induction over a run -/

namespace TreeClass

/-- The runs of trees of the class that are granted `n` steps keep machines in it and yield values
    of it. -/
structure Run (C : TreeClass) (h : Host) (n : Nat) : Prop where
  eval {e : Expr} : C.expr e → Keeps (Machine.In C) (Value.In C) (Machine.eval h n e)
  evalAll {es : List Expr} : C.exprs es →
    Keeps (Machine.In C) (fun vs => ∀ v ∈ vs, v.In C) (Machine.evalAll h n es)
  apply {callee : Value} {args : List Value} : callee.In C → (∀ v ∈ args, v.In C) →
    Keeps (Machine.In C) (Value.In C) (Machine.apply h n callee args)
  call {f : Function} (args : List Value) : f.In C →
    Keeps (Machine.In C) (Value.In C) (Machine.call h n f args)
  exec {s : Stmt} : C.stmt s → Keeps (Machine.In C) (Completion.In C) (Machine.exec h n s)
  execAll {ss : List Stmt} : C.stmts ss →
    Keeps (Machine.In C) (Completion.In C) (Machine.execAll h n ss)
  execOthers (i : Nat) {others : Alternatives} : C.others others →
    Keeps (Machine.In C) (Completion.In C) (Machine.execOthers h n i others)
  execLoop {condition : Expr} {body : List Stmt} : C.expr condition → C.stmts body →
    Keeps (Machine.In C) (Completion.In C) (Machine.execLoop h n condition body)

namespace Run

variable {C : TreeClass} {h : Host} {n : Nat}

theorem eval_succ (ih : Run C h n) {e : Expr} (he : C.expr e) :
    Keeps (Machine.In C) (Value.In C) (Machine.eval h (n + 1) e) := by
  cases e with
  | literal t => exact keeps_pure (Value.in_ofLiteral? _)
  | grouping inner pos => exact ih.eval (C.grouping he)
  | ref name => exact keeps_getValue name
  | assign name value =>
    simp only [Machine.eval]
    refine (ih.eval (C.assign he)).bind fun v hv => (keeps_assign name hv).bind fun _ _ => ?_
    exact keeps_pure hv
  | unary op operand =>
    simp only [Machine.eval]
    refine (ih.eval (C.unary he)).bind fun v _ => keeps_lift fun w hw => ?_
    exact Value.in_of_type (Operator.type_unary hw)
  | binary left op right =>
    simp only [Machine.eval]
    obtain ⟨hleft, hright⟩ := C.binary he
    refine (ih.eval hleft).bind fun a _ => (ih.eval hright).bind fun b _ => ?_
    refine keeps_lift fun w hw => ?_
    exact Value.in_of_type (Operator.type_binary hw)
  | logical left op right =>
    simp only [Machine.eval]
    obtain ⟨hleft, hright⟩ := C.logical he
    exact (ih.eval hleft).bind fun a ha => keeps_ite (keeps_pure ha) (ih.eval hright)
  | call callee paren args =>
    simp only [Machine.eval]
    obtain ⟨hcallee, hargs⟩ := C.call he
    refine (ih.eval hcallee).bind fun f hf => (ih.evalAll hargs).bind fun vs hvs => ?_
    exact (ih.apply hf hvs).located paren

theorem evalAll_succ (ih : Run C h n) {es : List Expr} (hes : C.exprs es) :
    Keeps (Machine.In C) (fun vs => ∀ v ∈ vs, v.In C) (Machine.evalAll h (n + 1) es) := by
  cases es with
  | nil =>
    have hnone : ∀ v ∈ ([] : List Value), v.In C := fun _ hv => nomatch hv
    exact keeps_pure hnone
  | cons e es =>
    simp only [Machine.evalAll]
    obtain ⟨he, hes⟩ := C.exprs_cons hes
    refine (ih.eval he).bind fun v hv => (ih.evalAll hes).bind fun vs hvs => keeps_pure ?_
    exact List.forall_mem_cons.mpr ⟨hv, hvs⟩

theorem apply_succ (ih : Run C h n) {callee : Value} {args : List Value}
    (hcallee : callee.In C) (hargs : ∀ v ∈ args, v.In C) :
    Keeps (Machine.In C) (Value.In C) (Machine.apply h (n + 1) callee args) := by
  simp only [Machine.apply]
  cases hc : callee.callable? with
  | none => exact keeps_fail _
  | some c =>
    have hnote : Keeps (Machine.In C) (fun _ => True) (note h (.call c.name args.length)) :=
      keeps_modify fun _ hm => hm.log h _
    refine keeps_ite (keeps_fail _) (hnote.bind fun _ _ => ?_)
    cases c with
    | native k => exact keeps_native In.of_scopes Value.in_of_type k hargs
    | user f copy => exact ih.call args (hcallee f copy hc)

theorem call_succ (ih : Run C h n) {f : Function} (args : List Value) (hf : f.In C) :
    Keeps (Machine.In C) (Value.In C) (Machine.call h (n + 1) f args) := by
  intro m hm
  by_cases hdepth : h.limit ≤ m.depth
  · rw [call_of_limit hdepth]
    refine ⟨hm, fun v hv => ?_⟩
    cases hv
  · rcases hb : bindParams f.params args ⟨some 0, []⟩ with c | frame
    · rw [call_of_mismatch hdepth hb]
      refine ⟨hm, fun v hv => ?_⟩
      cases hv
    · have hstart : (m.descend.enter h frame).In C :=
        Machine.In.enter (m := m.descend) hm h (in_of_bindParams hb)
      have hleft := (ih.execAll (C.function hf) _ hstart).1.leave h m.scope
      rw [call_snd hdepth hb, call_fst hdepth hb]
      refine ⟨hleft, fun v hv => ?_⟩
      rcases hrun : (Machine.execAll h n f.body (m.descend.enter h frame)).1 with e | c
      · rw [hrun] at hv
        cases hv
      · rw [hrun] at hv
        exact in_of_resultOf hv

theorem exec_succ (ih : Run C h n) {s : Stmt} (hs : C.stmt s) :
    Keeps (Machine.In C) (Completion.In C) (Machine.exec h (n + 1) s) := by
  have hnormal : Keeps (Machine.In C) (Completion.In C) (pure .normal) := keeps_pure trivial
  cases s with
  | expression e =>
    simp only [Machine.exec]
    exact (ih.eval (C.expression hs)).bind fun _ _ => hnormal
  | display keyword e =>
    simp only [Machine.exec]
    refine (ih.eval (C.display hs)).bind fun v _ => ?_
    have hwrite : Keeps (Machine.In C) (fun _ => True)
        (Exec.modify fun m => m.write (Text.line v.text)) := keeps_modify fun _ hm => hm
    exact hwrite.bind fun _ _ => hnormal
  | scan keyword names =>
    simp only [Machine.exec]
    exact (keeps_scanLine keyword names).bind fun _ _ => hnormal
  | conditional keyword condition body others =>
    simp only [Machine.exec]
    obtain ⟨hcondition, hbody, hothers⟩ := C.conditional hs
    exact (ih.eval hcondition).bind fun v _ =>
      keeps_ite (ih.execAll hbody) (ih.execOthers 0 hothers)
  | loop keyword condition body => exact ih.execLoop (C.loop hs).1 (C.loop hs).2
  | block opening body =>
    intro m hm
    have hstart : (m.enter h ⟨some m.scope, []⟩).In C := hm.enter h (Frame.all_empty _)
    obtain ⟨hkept, hresult⟩ := ih.execAll (C.block hs) _ hstart
    exact ⟨hkept.leave h m.scope, hresult⟩
  | function name params body result =>
    simp only [Machine.exec]
    exact (keeps_declareFunction (f := ⟨name, params, body, result⟩) hs).bind fun _ _ => hnormal
  | ret keyword value =>
    cases value with
    | none => exact keeps_pure Value.in_null
    | some e =>
      simp only [Machine.exec]
      exact (ih.eval (C.ret hs)).bind fun v hv => keeps_pure hv
  | declare type name init isMutable =>
    cases init with
    | none =>
      simp only [Machine.exec]
      exact (keeps_declare type name isMutable Value.in_null).bind fun _ _ => hnormal
    | some e =>
      simp only [Machine.exec]
      refine (ih.eval (C.declare hs)).bind fun v hv => keeps_ite (keeps_fail _) ?_
      exact (keeps_declare type name isMutable hv).bind fun _ _ => hnormal

theorem execAll_succ (ih : Run C h n) {ss : List Stmt} (hss : C.stmts ss) :
    Keeps (Machine.In C) (Completion.In C) (Machine.execAll h (n + 1) ss) := by
  cases ss with
  | nil => exact keeps_pure trivial
  | cons s rest =>
    simp only [Machine.execAll]
    obtain ⟨hs, hrest⟩ := C.stmts_cons hss
    refine (ih.exec hs).bind fun c hc => ?_
    cases c with
    | normal => exact ih.execAll hrest
    | returning v => exact keeps_pure hc

theorem execOthers_succ (ih : Run C h n) (i : Nat) {others : Alternatives}
    (hothers : C.others others) :
    Keeps (Machine.In C) (Completion.In C) (Machine.execOthers h (n + 1) i others) := by
  obtain ⟨hconditions, hbodies, hlast⟩ := C.alternatives hothers
  cases hc : others.conditions[i]? with
  | none =>
    cases hbody : others.last with
    | none =>
      rw [execOthers_of_none hc hbody]
      exact keeps_pure trivial
    | some body =>
      rw [execOthers_of_last hc hbody]
      exact ih.execAll (hlast body hbody)
  | some condition =>
    rw [execOthers_of_condition hc]
    refine (ih.eval (hconditions condition (List.mem_of_getElem? hc))).bind fun v _ => ?_
    refine keeps_ite ?_ (ih.execOthers (i + 1) hothers)
    exact (keeps_entry hbodies i).bind fun body hbody => ih.execAll hbody

theorem execLoop_succ (ih : Run C h n) {condition : Expr} {body : List Stmt}
    (hcondition : C.expr condition) (hbody : C.stmts body) :
    Keeps (Machine.In C) (Completion.In C) (Machine.execLoop h (n + 1) condition body) := by
  simp only [Machine.execLoop]
  refine (ih.eval hcondition).bind fun v _ => keeps_ite ?_ (keeps_pure trivial)
  refine (ih.execAll hbody).bind fun c hc => ?_
  cases c with
  | normal => exact ih.execLoop hcondition hbody
  | returning v => exact keeps_pure hc

end Run

/-- **Runs of trees of a class keep machines in it and yield values of it.** -/
theorem run (C : TreeClass) (h : Host) : ∀ n, Run C h n
  | 0 =>
    { eval := fun _ => keeps_fail _
      evalAll := fun _ => keeps_fail _
      apply := fun _ _ => keeps_fail _
      call := fun _ _ => keeps_fail _
      exec := fun _ => keeps_fail _
      execAll := fun _ => keeps_fail _
      execOthers := fun _ _ _ => keeps_fail _
      execLoop := fun _ _ => keeps_fail _ }
  | n + 1 =>
    have ih := run C h n
    { eval := ih.eval_succ
      evalAll := ih.evalAll_succ
      apply := ih.apply_succ
      call := ih.call_succ
      exec := ih.exec_succ
      execAll := ih.execAll_succ
      execOthers := ih.execOthers_succ
      execLoop := ih.execLoop_succ }

end TreeClass

/-! ## 4. The parts of a run -/

/-- What the task works on is of the class. -/
def Task.In (C : TreeClass) : Task → Prop
  | .eval e => C.expr e
  | .evalAll es => C.exprs es
  | .apply callee args => callee.In C ∧ ∀ v ∈ args, v.In C
  | .call f _ => f.In C
  | .exec s => C.stmt s
  | .execAll ss => C.stmts ss
  | .execOthers _ others => C.others others
  | .execLoop condition body => C.expr condition ∧ C.stmts body
  | .assignScanned names _ => ∀ t ∈ names, C.token t

/-- The machine that the activity starts in is in the class, and its task is. -/
def Activity.In (C : TreeClass) (a : Activity) : Prop :=
  a.start.In C ∧ a.task.In C

namespace TreeClass

variable {C : TreeClass} {h : Host} {n : Nat} {m m' : Machine}

/-- An expression that has been evaluated leaves a machine in the class and a value of it. -/
theorem evaluated {e : Expr} {v : Value} (hm : m.In C) (he : C.expr e)
    (hv : Machine.eval h n e m = (.ok v, m')) : m'.In C ∧ v.In C := by
  obtain ⟨hkept, hresult⟩ := (C.run h n).eval he m hm
  rw [hv] at hkept hresult
  exact ⟨hkept, hresult v rfl⟩

theorem executed {ss : List Stmt} {c : Completion} (hm : m.In C) (hss : C.stmts ss)
    (hc : Machine.execAll h n ss m = (.ok c, m')) : m'.In C := by
  have hkept := ((C.run h n).execAll hss m hm).1
  rw [hc] at hkept
  exact hkept

end TreeClass

namespace Activity

open TreeClass

variable {C : TreeClass} {h : Host}

/-- **The parts of an activity in the class are in it.** -/
theorem in_of_calls {a b : Activity} (hab : Calls h a b) (ha : a.In C) : b.In C := by
  obtain ⟨hm, ht⟩ := ha
  cases hab with
  | grouping => exact ⟨hm, C.grouping ht⟩
  | assigned => exact ⟨hm, C.assign ht⟩
  | operand => exact ⟨hm, C.unary ht⟩
  | left => exact ⟨hm, (C.binary ht).1⟩
  | right hl => exact ⟨(evaluated hm (C.binary ht).1 hl).1, (C.binary ht).2⟩
  | test => exact ⟨hm, (C.logical ht).1⟩
  | decided hl _ => exact ⟨(evaluated hm (C.logical ht).1 hl).1, (C.logical ht).2⟩
  | callee => exact ⟨hm, (C.call ht).1⟩
  | arguments hf => exact ⟨(evaluated hm (C.call ht).1 hf).1, (C.call ht).2⟩
  | application hf hvs =>
    obtain ⟨hm₁, hcallee⟩ := evaluated hm (C.call ht).1 hf
    obtain ⟨hkept, hargs⟩ := (C.run h _).evalAll (C.call ht).2 _ hm₁
    rw [hvs] at hkept hargs
    exact ⟨hkept, hcallee, hargs _ rfl⟩
  | head => exact ⟨hm, (C.exprs_cons ht).1⟩
  | tail he => exact ⟨(evaluated hm (C.exprs_cons ht).1 he).1, (C.exprs_cons ht).2⟩
  | user hcallee _ => exact ⟨Machine.In.log hm h _, ht.1 _ _ hcallee⟩
  | @body _ _ _ m _ _ hb =>
    have hstart := Machine.In.enter (m := m.descend) hm h (in_of_bindParams hb)
    exact ⟨hstart, C.function ht⟩
  | expression => exact ⟨hm, C.expression ht⟩
  | display => exact ⟨hm, C.display ht⟩
  | scan _ => exact ⟨hm, C.scan ht⟩
  | scanned hs =>
    obtain ⟨_, hnames⟩ := List.forall_mem_cons.mp ht
    exact ⟨in_of_assign hm (Value.in_ofLiteral? _) hs, hnames⟩
  | condition => exact ⟨hm, (C.conditional ht).1⟩
  | consequence hc _ =>
    exact ⟨(evaluated hm (C.conditional ht).1 hc).1, (C.conditional ht).2.1⟩
  | alternative hc _ =>
    exact ⟨(evaluated hm (C.conditional ht).1 hc).1, (C.conditional ht).2.2⟩
  | loop => exact ⟨hm, C.loop ht⟩
  | block => exact ⟨Machine.In.enter hm h (Frame.all_empty _), C.block ht⟩
  | returned => exact ⟨hm, C.ret ht⟩
  | initial => exact ⟨hm, C.declare ht⟩
  | first => exact ⟨hm, (C.stmts_cons ht).1⟩
  | @next n _ _ _ _ hs =>
    have hkept := ((C.run h n).exec (C.stmts_cons ht).1 _ hm).1
    rw [hs] at hkept
    exact ⟨hkept, (C.stmts_cons ht).2⟩
  | otherwise _ hlast => exact ⟨hm, (C.alternatives ht).2.2 _ hlast⟩
  | elseCondition hc => exact ⟨hm, (C.alternatives ht).1 _ (List.mem_of_getElem? hc)⟩
  | elseConsequence hc hv _ hbody =>
    have hcondition := (C.alternatives ht).1 _ (List.mem_of_getElem? hc)
    exact ⟨(evaluated hm hcondition hv).1, (C.alternatives ht).2.1 _ (List.mem_of_getElem? hbody)⟩
  | elseAlternative hc hv _ =>
    have hcondition := (C.alternatives ht).1 _ (List.mem_of_getElem? hc)
    exact ⟨(evaluated hm hcondition hv).1, ht⟩
  | loopCondition => exact ⟨hm, ht.1⟩
  | loopBody hc _ => exact ⟨(evaluated hm ht.1 hc).1, ht.2⟩
  | again hc _ hbody => exact ⟨executed (evaluated hm ht.1 hc).1 ht.2 hbody, ht⟩

theorem in_ofProgram (steps : Nat) {program : List Stmt} {m : Machine} (hm : m.In C)
    (hprogram : C.stmts program) : (ofProgram steps program m).In C :=
  ⟨hm.of_scopes rfl, hprogram⟩

end Activity

end FencedCode
