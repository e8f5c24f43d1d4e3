import FencedCode.Machine.Eval

/-!
# What a run can do to the machine

A run changes the machine in few ways: it writes, records, reads a line, assigns, declares, and it
runs statements in a frame of their own. A `Course` is a pair of relations between machines that
all of these respect, one for expressions and one for statements; only statements declare. A
`Conduct` does not look at what is recorded.

* `Course.holds` -- **a course holds of every run**: between the machine that an expression or a
  statement starts in and the one that it leaves behind, whatever the outcome.

The induction over the evaluator is made here once. What a run keeps is afterwards read off these
few steps.
-/

namespace FencedCode

open Exec

/-! ## 1. Steps one after another -/

namespace Exec

variable {α β : Type} {R : Machine → Machine → Prop}

/-- A step that succeeds hands over to the next one. -/
theorem bind_of_ok {p : Exec α} {f : α → Exec β} {m m' : Machine} {a : α}
    (hrun : p m = (.ok a, m')) : (p >>= f) m = f a m' := by
  show Exec.bind p f m = f a m'
  unfold Exec.bind
  rw [hrun]

/-- A step that fails ends the sequence. -/
theorem bind_of_error {p : Exec α} {f : α → Exec β} {m m' : Machine} {x : Failure}
    (hrun : p m = (.error x, m')) : (p >>= f) m = (.error x, m') := by
  show Exec.bind p f m = (.error x, m')
  unfold Exec.bind
  rw [hrun]

/-- **A transitive relation composes along steps.** The second step only has to respect it where
    it is reached. -/
theorem bind_related (htrans : ∀ {a b c}, R a b → R b c → R a c) {p : Exec α} {f : α → Exec β}
    {m : Machine} (hp : R m (p m).2) (hf : ∀ a m', p m = (.ok a, m') → R m' (f a m').2) :
    R m ((p >>= f) m).2 := by
  rcases hrun : p m with ⟨x | a, m'⟩
  · rw [hrun] at hp
    rw [bind_of_error hrun]
    exact hp
  · rw [hrun] at hp
    rw [bind_of_ok hrun]
    exact htrans hp (hf a m' hrun)

/-- A sequence of two steps succeeds only if both do. -/
theorem bind_ok {p : Exec α} {f : α → Exec β} {m m' : Machine} {b : β}
    (hrun : (p >>= f) m = (.ok b, m')) :
    ∃ a m₁, p m = (.ok a, m₁) ∧ f a m₁ = (.ok b, m') := by
  rcases hp : p m with ⟨x | a, m₁⟩
  · rw [bind_of_error hp] at hrun
    cases hrun
  · exact ⟨a, m₁, rfl, (bind_of_ok hp).symm.trans hrun⟩

@[simp]
theorem unplaced_snd (c : Cause) (m : Machine) : ((unplaced c : Exec α) m).2 = m := rfl

@[simp]
theorem getValue_snd (name : Token) (m : Machine) : (getValue name m).2 = m := by
  unfold getValue
  split <;> rfl

theorem located_run (t : Token) (p : Exec α) (m : Machine) :
    located t p m = ((p m).1.mapError fun x => x.locate t, (p m).2) := by
  unfold located
  rcases p m with ⟨x | a, m'⟩ <;> rfl

@[simp]
theorem located_snd (t : Token) (p : Exec α) (m : Machine) : (located t p m).2 = (p m).2 := by
  rw [located_run]

theorem located_ok {t : Token} {p : Exec α} {m m' : Machine} {a : α}
    (hrun : located t p m = (.ok a, m')) : p m = (.ok a, m') := by
  rw [located_run] at hrun
  rcases hp : p m with ⟨x | b, m₁⟩ <;> rw [hp] at hrun
  · cases hrun
  · exact hrun

theorem lift_ok_bind (a : α) (f : α → Exec β) : (lift (.ok a) >>= f) = f a := rfl

/-- A result that another one is made from is there if both are. -/
theorem result_bind_ok {r : Except Failure α} {f : α → Except Failure β} {b : β} :
    (r >>= f) = .ok b ↔ ∃ a, r = .ok a ∧ f a = .ok b := by
  constructor
  · intro hb
    rcases r with x | a
    · cases hb
    · exact ⟨a, rfl, hb⟩
  · rintro ⟨a, rfl, hb⟩
    exact hb

/-- A result that is only worked on afterwards leaves the machine as it is. -/
theorem bind_lift_snd (p : Exec α) (g : α → Except Failure β) (m : Machine) :
    ((p >>= fun a => lift (g a)) m).2 = (p m).2 := by
  rcases hrun : p m with ⟨x | a, m'⟩
  · rw [bind_of_error hrun]
  · rw [bind_of_ok hrun]
    rfl

end Exec

namespace Machine

/-- The machine with one call more under way. -/
def descend (m : Machine) : Machine :=
  { m with depth := m.depth + 1 }

/-- The machine with one call less under way. -/
def ascend (m : Machine) : Machine :=
  { m with depth := m.depth - 1 }

@[simp]
theorem log_scopes (m : Machine) (h : Host) (e : Event) : (m.log h e).scopes = m.scopes := by
  unfold log
  split <;> rfl

@[simp]
theorem log_scope (m : Machine) (h : Host) (e : Event) : (m.log h e).scope = m.scope := by
  unfold log
  split <;> rfl

@[simp]
theorem enter_scopes (m : Machine) (h : Host) (f : Frame) :
    (m.enter h f).scopes = m.scopes.push f := by
  unfold enter
  rw [log_scopes]

@[simp]
theorem enter_scope (m : Machine) (h : Host) (f : Frame) :
    (m.enter h f).scope = m.scopes.size := by
  unfold enter
  rw [log_scope]

@[simp]
theorem leave_scopes (m : Machine) (h : Host) (outer : Nat) :
    (m.leave h outer).scopes = m.scopes.pop := by
  unfold leave
  rw [log_scopes]

@[simp]
theorem leave_scope (m : Machine) (h : Host) (outer : Nat) : (m.leave h outer).scope = outer := by
  unfold leave
  rw [log_scope]

@[simp]
theorem declare_scopes (h : Host) (type : BaseType) (name : Token) (v : Value) (isMutable : Bool)
    (m : Machine) : (declare h type name v isMutable m).2.scopes =
      (m.scopes.define m.scope name.lexeme ⟨.base type, v, isMutable⟩).2 := by
  unfold declare
  cases m.scopes.define m.scope name.lexeme ⟨.base type, v, isMutable⟩ with
  | mk fresh scopes => cases fresh <;> simp

@[simp]
theorem declare_scope (h : Host) (type : BaseType) (name : Token) (v : Value) (isMutable : Bool)
    (m : Machine) : (declare h type name v isMutable m).2.scope = m.scope := by
  unfold declare
  cases m.scopes.define m.scope name.lexeme ⟨.base type, v, isMutable⟩ with
  | mk fresh scopes => cases fresh <;> simp

@[simp]
theorem declareFunction_scopes (h : Host) (f : Function) (m : Machine) :
    (declareFunction h f m).2.scopes =
      m.scopes.set m.scope f.name.lexeme ⟨.function, .function (some (.user f 0)), false⟩ := by
  simp only [declareFunction]
  split <;> simp

@[simp]
theorem declareFunction_scope (h : Host) (f : Function) (m : Machine) :
    (declareFunction h f m).2.scope = m.scope := by
  simp only [declareFunction]
  split <;> simp

@[simp]
theorem log_input (m : Machine) (h : Host) (e : Event) : (m.log h e).input = m.input := by
  unfold log
  split <;> rfl

@[simp]
theorem enter_input (m : Machine) (h : Host) (f : Frame) : (m.enter h f).input = m.input := by
  unfold enter
  rw [log_input]

@[simp]
theorem leave_input (m : Machine) (h : Host) (outer : Nat) :
    (m.leave h outer).input = m.input := by
  unfold leave
  rw [log_input]

@[simp]
theorem declare_input (h : Host) (type : BaseType) (name : Token) (v : Value) (isMutable : Bool)
    (m : Machine) : (declare h type name v isMutable m).2.input = m.input := by
  unfold declare
  cases m.scopes.define m.scope name.lexeme ⟨.base type, v, isMutable⟩ with
  | mk fresh scopes => cases fresh <;> simp

@[simp]
theorem declareFunction_input (h : Host) (f : Function) (m : Machine) :
    (declareFunction h f m).2.input = m.input := by
  simp only [declareFunction]
  split <;> simp

@[simp]
theorem log_ticks (m : Machine) (h : Host) (e : Event) : (m.log h e).ticks = m.ticks := by
  unfold log
  split <;> rfl

@[simp]
theorem enter_ticks (m : Machine) (h : Host) (f : Frame) : (m.enter h f).ticks = m.ticks := by
  unfold enter
  rw [log_ticks]

@[simp]
theorem leave_ticks (m : Machine) (h : Host) (outer : Nat) :
    (m.leave h outer).ticks = m.ticks := by
  unfold leave
  rw [log_ticks]

@[simp]
theorem declare_ticks (h : Host) (type : BaseType) (name : Token) (v : Value) (isMutable : Bool)
    (m : Machine) : (declare h type name v isMutable m).2.ticks = m.ticks := by
  unfold declare
  cases m.scopes.define m.scope name.lexeme ⟨.base type, v, isMutable⟩ with
  | mk fresh scopes => cases fresh <;> simp

@[simp]
theorem declareFunction_ticks (h : Host) (f : Function) (m : Machine) :
    (declareFunction h f m).2.ticks = m.ticks := by
  simp only [declareFunction]
  split <;> simp

/-- The frame of a call is one directly inside the global frame. -/
theorem parent_of_bindParams : ∀ {params : List Param} {args : List Value} {f frame : Frame},
    bindParams params args f = .ok frame → frame.parent = f.parent
  | [], _, _, _, hb => by cases hb; rfl
  | _ :: _, [], _, _, hb => by cases hb
  | p :: ps, v :: vs, f, frame, hb => by
    simp only [bindParams] at hb
    split at hb
    · cases hb
    · rw [parent_of_bindParams hb]
      split <;> rfl

variable {h : Host} {n : Nat} {f : Function} {args : List Value} {m : Machine}

theorem call_snd_of_limit (hdepth : h.limit ≤ m.depth) : (call h (n + 1) f args m).2 = m := by
  simp only [call, if_pos hdepth, unplaced_snd]

theorem call_snd_of_error {x : Failure} (hb : bindParams f.params args ⟨some 0, []⟩ = .error x) :
    (call h (n + 1) f args m).2 = m := by
  simp only [call]
  split
  · rfl
  · simp only [bindArguments, hb]
    rfl

/-- What a call leaves behind whose arguments fit. -/
theorem call_snd {frame : Frame} (hdepth : ¬ h.limit ≤ m.depth)
    (hb : bindParams f.params args ⟨some 0, []⟩ = .ok frame) :
    (call h (n + 1) f args m).2 =
      ((execAll h n f.body (m.descend.enter h frame)).2.leave h m.scope).ascend := by
  simp only [call, if_neg hdepth, bindArguments, hb]
  show ascend ((inScope h frame (execAll h n f.body) >>= fun c => lift (resultOf f c))
    m.descend).2 = _
  rw [bind_lift_snd]
  rfl

/-- A call that goes too deep only fails. -/
theorem call_of_limit (hdepth : h.limit ≤ m.depth) :
    call h (n + 1) f args m = (.error (.fault (.unplaced (.depth f.name.lexeme))), m) := by
  simp only [call, if_pos hdepth]
  rfl

/-- A call whose arguments do not fit only fails. -/
theorem call_of_mismatch {x : Failure} (hdepth : ¬ h.limit ≤ m.depth)
    (hb : bindParams f.params args ⟨some 0, []⟩ = .error x) :
    call h (n + 1) f args m = (.error x, m) := by
  simp only [call, if_neg hdepth, bindArguments, hb]
  rfl

/-- What a call makes of the way in which the body of its function completed. -/
theorem call_fst {frame : Frame} (hdepth : ¬ h.limit ≤ m.depth)
    (hb : bindParams f.params args ⟨some 0, []⟩ = .ok frame) :
    (call h (n + 1) f args m).1 =
      (execAll h n f.body (m.descend.enter h frame)).1.bind (resultOf f) := by
  simp only [call, if_neg hdepth, bindArguments, hb]
  show ((inScope h frame (execAll h n f.body) >>= fun c => lift (resultOf f c)) m.descend).1 = _
  have hscope : inScope h frame (execAll h n f.body) m.descend =
      ((execAll h n f.body (m.descend.enter h frame)).1,
        (execAll h n f.body (m.descend.enter h frame)).2.leave h m.descend.scope) := rfl
  rcases hrun : execAll h n f.body (m.descend.enter h frame) with ⟨x | c, m'⟩ <;>
    rw [hrun] at hscope
  · rw [bind_of_error hscope]
    rfl
  · rw [bind_of_ok hscope]
    rfl

theorem execOthers_of_condition {i : Nat} {others : Alternatives} {c : Expr}
    (hc : others.conditions[i]? = some c) :
    execOthers h (n + 1) i others = (eval h n c >>= fun v =>
      if v.isTruthy then lift (entry others.bodies i) >>= execAll h n
      else execOthers h n (i + 1) others) := by
  simp only [execOthers, hc]

theorem execOthers_of_last {i : Nat} {others : Alternatives} {body : List Stmt}
    (hc : others.conditions[i]? = none) (hlast : others.last = some body) :
    execOthers h (n + 1) i others = execAll h n body := by
  simp only [execOthers, hc, hlast]

theorem execOthers_of_none {i : Nat} {others : Alternatives}
    (hc : others.conditions[i]? = none) (hlast : others.last = none) :
    execOthers h (n + 1) i others = pure .normal := by
  simp only [execOthers, hc, hlast]

/-- Behind a condition the alternatives go on as if it and its body had not been there. -/
theorem execOthers_tail (c : Expr) (cs : List Expr) (bs : List (List Stmt))
    (last : Option (List Stmt)) : ∀ (n i : Nat),
    execOthers h n (i + 1) (.mk (c :: cs) bs last) = execOthers h n i (.mk cs bs.tail last)
  | 0, _ => rfl
  | n + 1, i => by
    have hentry : entry bs (i + 1) = entry bs.tail i := by
      cases bs <;> rfl
    simp only [execOthers, Alternatives.conditions, Alternatives.bodies, Alternatives.last,
      List.getElem?_cons_succ, hentry, execOthers_tail c cs bs last n (i + 1)]

theorem execOthers_otherwise (b : List Stmt) :
    execOthers h (n + 1) 0 (.otherwise b) = execAll h n b := rfl

/-- A condition in front of other alternatives. -/
theorem execOthers_elseIf (c : Expr) (b : List Stmt) (o : Alternatives) :
    execOthers h (n + 1) 0 (.elseIf c b o) = (eval h n c >>= fun v =>
      if v.isTruthy then execAll h n b else execOthers h n 0 o) := by
  obtain ⟨cs, bs, last⟩ := o
  have htail : execOthers h n 1 (.mk (c :: cs) (b :: bs) last) =
      execOthers h n 0 (.mk cs bs last) :=
    execOthers_tail c cs (b :: bs) last n 0
  rw [execOthers_of_condition rfl]
  exact congrArg (eval h n c >>= ·) (funext fun v => congrArg (ite _ _) htail)

/-- A condition without a body fails if it holds. -/
theorem execOthers_bodiless (c : Expr) (cs : List Expr) (last : Option (List Stmt)) :
    execOthers h (n + 1) 0 (.mk (c :: cs) [] last) = (eval h n c >>= fun v =>
      if v.isTruthy then fail .outOfRange else execOthers h n 0 (.mk cs [] last)) := by
  have htail : execOthers h n 1 (.mk (c :: cs) [] last) = execOthers h n 0 (.mk cs [] last) :=
    execOthers_tail c cs [] last n 0
  rw [execOthers_of_condition rfl]
  exact congrArg (eval h n c >>= ·) (funext fun v => congrArg (ite _ _) htail)

/-- A line on which only its end is left has no value for a name. -/
theorem assignScanned_of_short {name : Token} {names ts : List Token} (hts : ts.length ≤ 1) :
    assignScanned (name :: names) ts = fault (.noValue name.lexeme) name := by
  rw [assignScanned, if_pos hts]

theorem assignScanned_cons (name : Token) (names : List Token) (t u : Token) (ts : List Token) :
    assignScanned (name :: names) (t :: u :: ts) =
      (assign name (.ofLiteral? t.literal) >>= fun _ => assignScanned names ts) := by
  rw [assignScanned, if_neg (by simp)]
  rfl

/-- A list of one statement takes one step more than the statement. -/
theorem execAll_singleton (k : Nat) (s : Stmt) : execAll h (k + 2) [s] = exec h (k + 1) s := by
  funext m
  rcases hrun : exec h (k + 1) s m with ⟨x | (_ | r), m'⟩
  · exact bind_of_error hrun
  · exact bind_of_ok hrun
  · exact bind_of_ok hrun

end Machine

/-! ## 2. Courses and conducts -/

/-- Relations between machines that every step of a run respects: `E` in expressions, `S` in
    statements. -/
structure Course (h : Host) (E S : Machine → Machine → Prop) : Prop where
  refl (m : Machine) : E m m
  trans {a b c : Machine} : E a b → E b c → E a c
  transS {a b c : Machine} : S a b → S b c → S a c
  ofE {a b : Machine} : E a b → S a b
  write (m : Machine) (t : Text) : E m (m.write t)
  probe (m : Machine) (v : Value) : E m { m with probes := v :: m.probes }
  tick (m : Machine) : E m { m with ticks := m.ticks + 1 }
  /-- A call is recorded before it is made. -/
  called (m : Machine) (f : Text) (count : Nat) : E m (m.log h (.call f count))
  read (m : Machine) : E m { m with input := m.input.readLine.2 }
  assign {m : Machine} {name : Token} {v : Value} {scopes : Scopes} :
    m.scopes.assign m.scope name v = .ok scopes → E m { m with scopes }
  /-- A variable starts as null or with a value of its type. -/
  declare (m : Machine) (type : BaseType) (name : Token) (v : Value) (isMutable : Bool) :
    v = .null ∨ v.type = .base type → S m (Machine.declare h type name v isMutable m).2
  function (m : Machine) (f : Function) : S m (Machine.declareFunction h f m).2
  /-- Statements in a frame inside the current one. -/
  block {m m' : Machine} :
    S (m.enter h ⟨some m.scope, []⟩) m' → E m (m'.leave h m.scope)
  /-- Statements in a frame that holds the arguments of a call, one call deeper. -/
  call {m m' : Machine} {params : List Param} {args : List Value} {frame : Frame} :
    m.depth < h.limit → Machine.bindParams params args ⟨some 0, []⟩ = .ok frame →
    S (m.descend.enter h frame) m' → E m (m'.leave h m.scope).ascend

/-- A course for which it does not matter what is recorded. -/
structure Conduct (h : Host) (E S : Machine → Machine → Prop) : Prop extends Course h E S where
  log (m : Machine) (e : Event) : E m (m.log h e)
  called := fun m f count => log m (.call f count)

namespace Course

variable {h : Host} {E S : Machine → Machine → Prop}

theorem reflS (C : Course h E S) (m : Machine) : S m m :=
  C.ofE (C.refl m)

/-- Two steps of an expression. -/
theorem bind (C : Course h E S) {α β : Type} {p : Exec α} {f : α → Exec β} {m : Machine}
    (hp : E m (p m).2) (hf : ∀ a m', p m = (.ok a, m') → E m' (f a m').2) :
    E m ((p >>= f) m).2 :=
  bind_related (R := E) C.trans hp hf

/-- Two steps of a statement. -/
theorem bindS (C : Course h E S) {α β : Type} {p : Exec α} {f : α → Exec β} {m : Machine}
    (hp : S m (p m).2) (hf : ∀ a m', p m = (.ok a, m') → S m' (f a m').2) :
    S m ((p >>= f) m).2 :=
  bind_related (R := S) C.transS hp hf

/-! ## 3. Parts without recursion -/

theorem assigned (C : Course h E S) (name : Token) (v : Value) (m : Machine) :
    E m (Exec.assign name v m).2 := by
  unfold Exec.assign
  split
  · rename_i scopes hs
    exact C.assign hs
  · exact C.refl m

theorem assignScanned (C : Course h E S) :
    ∀ (names ts : List Token) (m : Machine), E m (Machine.assignScanned names ts m).2
  | [], _, m => C.refl m
  | name :: names, [], m => C.refl m
  | name :: names, [_], m => C.refl m
  | name :: names, t :: u :: ts, m => by
    rw [Machine.assignScanned_cons]
    exact C.bind (C.assigned name _ m) fun _ m' _ => assignScanned C names ts m'

theorem scanLine (C : Course h E S) (keyword : Token) (names : List Token) (m : Machine) :
    E m (Machine.scanLine keyword names m).2 := by
  unfold Machine.scanLine
  refine C.bind (C.read m) fun r m' _ => ?_
  split
  · exact C.refl m'
  · exact C.refl m'
  · exact C.assignScanned names _ m'

theorem prompt (C : Course h E S) (args : List Value) (m : Machine) :
    E m (Native.prompt args m).2 := by
  unfold Native.prompt
  refine C.bind (C.refl m) fun v m₁ _ => ?_
  refine C.bind (C.write m₁ _) fun _ m₂ _ => ?_
  refine C.bind (C.read m₂) fun r m₃ _ => ?_
  split <;> exact C.refl m₃

theorem native (C : Course h E S) (n : Native) (args : List Value) (m : Machine) :
    E m (n.run h args m).2 := by
  unfold Native.run
  split
  -- the natives on floats change nothing
  any_goals exact C.refl m
  · exact C.bind (C.tick m) fun _ m' _ => C.refl m'
  · exact C.prompt args m
  · refine C.bind (C.refl m) fun v m₁ _ => ?_
    exact C.bind (C.probe m₁ v) fun _ m₂ _ => C.refl m₂

/-! ## 4. The induction over a run -/

/-- The course of all runs that are granted `n` steps. -/
structure At (h : Host) (E S : Machine → Machine → Prop) (n : Nat) : Prop where
  eval (e : Expr) (m : Machine) : E m (Machine.eval h n e m).2
  evalAll (es : List Expr) (m : Machine) : E m (Machine.evalAll h n es m).2
  apply (callee : Value) (args : List Value) (m : Machine) :
    E m (Machine.apply h n callee args m).2
  call (f : Function) (args : List Value) (m : Machine) : E m (Machine.call h n f args m).2
  exec (s : Stmt) (m : Machine) : S m (Machine.exec h n s m).2
  execAll (ss : List Stmt) (m : Machine) : S m (Machine.execAll h n ss m).2
  execOthers (i : Nat) (others : Alternatives) (m : Machine) :
    S m (Machine.execOthers h n i others m).2
  execLoop (condition : Expr) (body : List Stmt) (m : Machine) :
    S m (Machine.execLoop h n condition body m).2

theorem at_zero (C : Course h E S) : At h E S 0 where
  eval _ m := C.refl m
  evalAll _ m := C.refl m
  apply _ _ m := C.refl m
  call _ _ m := C.refl m
  exec _ m := C.reflS m
  execAll _ m := C.reflS m
  execOthers _ _ m := C.reflS m
  execLoop _ _ m := C.reflS m

variable {n : Nat}

theorem eval_succ (C : Course h E S) (ih : At h E S n) (e : Expr) (m : Machine) :
    E m (Machine.eval h (n + 1) e m).2 := by
  cases e with
  | literal t => exact C.refl m
  | grouping inner pos => exact ih.eval inner m
  | ref name =>
    simp only [Machine.eval, getValue_snd]
    exact C.refl m
  | assign name value =>
    simp only [Machine.eval]
    refine C.bind (ih.eval value m) fun v m₁ _ => ?_
    exact C.bind (C.assigned name v m₁) fun _ m₂ _ => C.refl m₂
  | unary op operand =>
    simp only [Machine.eval]
    exact C.bind (ih.eval operand m) fun v m' _ => C.refl m'
  | binary left op right =>
    simp only [Machine.eval]
    refine C.bind (ih.eval left m) fun a m₁ _ => ?_
    exact C.bind (ih.eval right m₁) fun b m₂ _ => C.refl m₂
  | logical left op right =>
    simp only [Machine.eval]
    refine C.bind (ih.eval left m) fun a m' _ => ?_
    split
    · exact C.refl m'
    · exact ih.eval right m'
  | call callee paren args =>
    simp only [Machine.eval]
    refine C.bind (ih.eval callee m) fun f m₁ _ => ?_
    refine C.bind (ih.evalAll args m₁) fun vs m₂ _ => ?_
    rw [located_snd]
    exact ih.apply f vs m₂

theorem evalAll_succ (C : Course h E S) (ih : At h E S n) (es : List Expr) (m : Machine) :
    E m (Machine.evalAll h (n + 1) es m).2 := by
  cases es with
  | nil => exact C.refl m
  | cons e es =>
    simp only [Machine.evalAll]
    refine C.bind (ih.eval e m) fun v m₁ _ => ?_
    exact C.bind (ih.evalAll es m₁) fun vs m₂ _ => C.refl m₂

theorem apply_succ (C : Course h E S) (ih : At h E S n) (callee : Value) (args : List Value)
    (m : Machine) : E m (Machine.apply h (n + 1) callee args m).2 := by
  simp only [Machine.apply]
  cases callee.callable? with
  | none => exact C.refl m
  | some c =>
    dsimp only
    split
    · exact C.refl m
    · refine C.bind (C.called m _ _) fun _ m' _ => ?_
      cases c with
      | native n => exact C.native n args m'
      | user f copy => exact ih.call f args m'

theorem call_succ (C : Course h E S) (ih : At h E S n) (f : Function) (args : List Value)
    (m : Machine) : E m (Machine.call h (n + 1) f args m).2 := by
  by_cases hdepth : h.limit ≤ m.depth
  · rw [Machine.call_snd_of_limit hdepth]
    exact C.refl m
  · cases hb : Machine.bindParams f.params args ⟨some 0, []⟩ with
    | error c =>
      rw [Machine.call_snd_of_error hb]
      exact C.refl m
    | ok frame =>
      rw [Machine.call_snd hdepth hb]
      exact C.call (Nat.lt_of_not_le hdepth) hb (ih.execAll f.body _)

theorem exec_succ (C : Course h E S) (ih : At h E S n) (s : Stmt) (m : Machine) :
    S m (Machine.exec h (n + 1) s m).2 := by
  cases s with
  | expression e =>
    simp only [Machine.exec]
    exact C.bindS (C.ofE (ih.eval e m)) fun _ m' _ => C.reflS m'
  | display keyword e =>
    simp only [Machine.exec]
    refine C.bindS (C.ofE (ih.eval e m)) fun v m₁ _ => ?_
    exact C.bindS (C.ofE (C.write m₁ _)) fun _ m₂ _ => C.reflS m₂
  | scan keyword names =>
    simp only [Machine.exec]
    exact C.bindS (C.ofE (C.scanLine keyword names m)) fun _ m' _ => C.reflS m'
  | conditional keyword condition body others =>
    simp only [Machine.exec]
    refine C.bindS (C.ofE (ih.eval condition m)) fun v m' _ => ?_
    split
    · exact ih.execAll body m'
    · exact ih.execOthers 0 others m'
  | loop keyword condition body => exact ih.execLoop condition body m
  | block opening body => exact C.ofE (C.block (ih.execAll body _))
  | function name params body result =>
    simp only [Machine.exec]
    exact C.bindS (C.function m _) fun _ m' _ => C.reflS m'
  | ret keyword value =>
    cases value with
    | none => exact C.reflS m
    | some e =>
      simp only [Machine.exec]
      exact C.bindS (C.ofE (ih.eval e m)) fun _ m' _ => C.reflS m'
  | declare type name init isMutable =>
    cases init with
    | none =>
      simp only [Machine.exec]
      exact C.bindS (C.declare m type name .null isMutable (.inl rfl)) fun _ m' _ => C.reflS m'
    | some e =>
      simp only [Machine.exec]
      refine C.bindS (C.ofE (ih.eval e m)) fun v m₁ _ => ?_
      split
      · exact C.reflS m₁
      · rename_i hv
        have htype : v.type = .base type := Decidable.not_not.mp hv
        exact C.bindS (C.declare m₁ type name v isMutable (.inr htype)) fun _ m₂ _ => C.reflS m₂

theorem execAll_succ (C : Course h E S) (ih : At h E S n) (ss : List Stmt) (m : Machine) :
    S m (Machine.execAll h (n + 1) ss m).2 := by
  cases ss with
  | nil => exact C.reflS m
  | cons s rest =>
    simp only [Machine.execAll]
    refine C.bindS (ih.exec s m) fun c m' _ => ?_
    cases c with
    | normal => exact ih.execAll rest m'
    | returning v => exact C.reflS m'

theorem execOthers_succ (C : Course h E S) (ih : At h E S n) (i : Nat) (others : Alternatives)
    (m : Machine) : S m (Machine.execOthers h (n + 1) i others m).2 := by
  cases hc : others.conditions[i]? with
  | none =>
    cases hlast : others.last with
    | none =>
      rw [Machine.execOthers_of_none hc hlast]
      exact C.reflS m
    | some body =>
      rw [Machine.execOthers_of_last hc hlast]
      exact ih.execAll body m
  | some condition =>
    rw [Machine.execOthers_of_condition hc]
    refine C.bindS (C.ofE (ih.eval condition m)) fun v m₁ _ => ?_
    split
    · exact C.bindS (C.reflS m₁) fun body m₂ _ => ih.execAll body m₂
    · exact ih.execOthers (i + 1) others m₁

theorem execLoop_succ (C : Course h E S) (ih : At h E S n) (condition : Expr)
    (body : List Stmt) (m : Machine) : S m (Machine.execLoop h (n + 1) condition body m).2 := by
  simp only [Machine.execLoop]
  refine C.bindS (C.ofE (ih.eval condition m)) fun v m₁ _ => ?_
  split
  · refine C.bindS (ih.execAll body m₁) fun c m₂ _ => ?_
    cases c with
    | normal => exact ih.execLoop condition body m₂
    | returning r => exact C.reflS m₂
  · exact C.reflS m₁

/-- **A course holds of every run**, however many steps it is granted. -/
theorem holds (C : Course h E S) : ∀ n, At h E S n
  | 0 => C.at_zero
  | n + 1 =>
    have ih := holds C n
    { eval := C.eval_succ ih
      evalAll := C.evalAll_succ ih
      apply := C.apply_succ ih
      call := C.call_succ ih
      exec := C.exec_succ ih
      execAll := C.execAll_succ ih
      execOthers := C.execOthers_succ ih
      execLoop := C.execLoop_succ ih }

end Course

end FencedCode
