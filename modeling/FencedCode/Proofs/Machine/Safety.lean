import FencedCode.Proofs.Machine.Drawn
import FencedCode.Proofs.Machine.Failing

/-!
# Runs of source texts go wrong in known ways only

The machine fails for trees that no parser builds, and it takes entries of lists by their index,
which fails if the list is too short. In the run of a source text none of this happens, because of
what other parts see to: which operators the levels of expressions combine, how many arguments a
call lets through, that each condition of an alternative comes with a body, where a line of input
ends.

* `Task.Matched` -- that a function is called with an argument for each of its parameters;
* `Reported` -- the failures that a part of a run can raise by itself;
* `Activity.Raises.reported` -- **a drawn activity raises no others**;
* `no_internal_failure` -- **runs of source texts fail with faults or because reading fails**.
-/

namespace FencedCode

open Exec Machine

/-! ## 1. Operators -/

namespace Operator

/-- A prefix operator can only object to its operand. -/
theorem unary_error {op : Token} {v : Value} {x : Failure} (hop : Grammar.isSign op.kind = true)
    (hx : unary op v = .error x) : x = .fault ⟨.operand, op⟩ := by
  have hkind : op.kind = .kwNot ∨ op.kind = .minus ∨ op.kind = .plus := of_decide_eq_true hop
  unfold unary at hx
  rcases hkind with hk | hk | hk
  · rw [hk] at hx
    cases hx
  · rw [hk] at hx
    split at hx <;> cases hx <;> first | rfl | contradiction
  · rw [hk] at hx
    split at hx <;> cases hx <;> first | rfl | contradiction

/-- The operators that work on any two values. -/
def OnAny (k : Kind) : Prop :=
  k = .ampersand ∨ k = .equalEqual ∨ k = .notEqual

/-- The operators that work on two numbers. -/
def OnNumbers (k : Kind) : Prop :=
  (k = .slash ∨ k = .percent) ∨ k = .plus ∨ k = .minus ∨ k = .star ∨ k = .greater ∨
    k = .greaterEqual ∨ k = .less ∨ k = .lessEqual

/-- A level that yields values has operators of these two sorts. -/
theorem onAny_or_onNumbers {l : Level} {k : Kind} (hl : l.isLogical = false)
    (hk : l.has k = true) : OnAny k ∨ OnNumbers k := by
  cases l with
  | or => cases hl
  | and => cases hl
  | equality => exact .inl (.inr (of_decide_eq_true hk))
  | comparison => exact .inr (.inr (.inr (.inr (.inr (of_decide_eq_true hk)))))
  | sum =>
    have hk : k = .plus ∨ k = .minus ∨ k = .ampersand := of_decide_eq_true hk
    rcases hk with hk | hk | hk
    · exact .inr (.inr (.inl hk))
    · exact .inr (.inr (.inr (.inl hk)))
    · exact .inl (.inl hk)
  | product =>
    have hk : k = .star ∨ k = .slash ∨ k = .percent := of_decide_eq_true hk
    rcases hk with hk | hk | hk
    · exact .inr (.inr (.inr (.inr (.inl hk))))
    · exact .inr (.inl (.inl hk))
    · exact .inr (.inl (.inr hk))

theorem onInts_error {op : Token} {a b : Int64} {x : Failure} (hop : OnNumbers op.kind)
    (hx : onInts op a b = .error x) : x = .fault ⟨.zeroDivisor, op⟩ := by
  unfold onInts at hx
  rcases hop with (hk | hk) | hk | hk | hk | hk | hk | hk | hk <;> rw [hk] at hx
  case inl.inl | inl.inr =>
    dsimp only at hx
    split at hx
    · cases hx
      rfl
    · cases hx
  all_goals cases hx

theorem onFloats_error {op : Token} {a b : Float} {x : Failure} (hop : OnNumbers op.kind)
    (hx : onFloats op a b = .error x) : x = .fault ⟨.zeroDivisor, op⟩ := by
  unfold onFloats at hx
  rcases hop with (hk | hk) | hk | hk | hk | hk | hk | hk | hk <;> rw [hk] at hx
  case inl.inl | inl.inr =>
    dsimp only at hx
    split at hx
    · cases hx
      rfl
    · cases hx
  all_goals cases hx

/-- A binary operator can only object to its operands, or to a divisor that is zero. -/
theorem binary_error {op : Token} {a b : Value} {x : Failure} {l : Level}
    (hl : l.isLogical = false) (hop : l.has op.kind = true) (hx : binary op a b = .error x) :
    x = .fault ⟨.zeroDivisor, op⟩ ∨ x = .fault ⟨.operands a.type b.type, op⟩ := by
  unfold binary at hx
  rcases onAny_or_onNumbers hl hop with hany | hnumbers
  · rcases hany with hk | hk | hk <;> rw [hk] at hx <;> cases hx
  · split at hx
    · cases hx
    · cases hx
    · cases hx
    · split at hx
      · exact .inl (onInts_error hnumbers hx)
      · exact .inl (onFloats_error hnumbers hx)
      · cases hx
        exact .inr rfl

end Operator

/-! ## 2. What a part of a run can raise -/

/-- The causes of faults that an application raises, which does not know its place. -/
def Cause.IsUnplaced : Cause → Prop
  | .notCallable | .arity _ _ | .depth _ | .argumentType _ _ _ | .nativeArgument _ _
  | .nativeNoLine _ => True
  | _ => False

/-- The task is to call a value or a function. -/
def Task.IsApplication : Task → Prop
  | .apply _ _ | .call _ _ => True
  | _ => False

/-- A function is called with an argument for each of its parameters. -/
def Task.Matched : Task → Prop
  | .call f args => args.length = f.params.length
  | _ => True

/-- **Functions are called with as many arguments as they have parameters.** -/
theorem Activity.matched_of_calls {h : Host} {a b : Activity} (hab : Calls h a b) :
    b.task.Matched := by
  cases hab with
  | user _ harity => exact Int.ofNat.inj harity
  | _ => exact trivial

/-- The failures that an activity can raise by itself: its steps are used up, a fault at one of the
    tokens, a fault of an application without a place, input that cannot be read, or an argument
    that is missing because nobody has counted them. -/
inductive Reported (S : Token → Prop) (a : Activity) : Failure → Prop where
  | exhausted : Reported S a .exhausted
  | placed {c : Cause} {t : Token} : ¬ c.IsUnplaced → S t → Reported S a (.fault ⟨c, t⟩)
  | unplaced {c : Cause} : a.task.IsApplication → c.IsUnplaced →
      Reported S a (.fault (.unplaced c))
  | unreadable {during reason : Text} : during = utf8 "SCAN" ∨ during = Native.scanString.name →
      a.start.input.failure = some reason → Reported S a (.reader during reason)
  | unmatched : ¬ a.task.Matched → Reported S a .outOfRange

/-- Reading a line fails only as the input does behind its bytes. -/
theorem Input.failure_of_readLine {i : Input} {reason : Text}
    (hread : i.readLine.1 = .error (.failed reason)) : i.failure = some reason := by
  unfold readLine nextPiece at hread
  cases hsplit : splitLine i.rest with
  | some pieces =>
    rw [hsplit] at hread
    cases hread
  | none =>
    rw [hsplit] at hread
    unfold closing at hread
    cases hf : i.failure with
    | none =>
      rw [hf] at hread
      dsimp only at hread
      split at hread <;> cases hread
    | some r =>
      rw [hf] at hread
      cases hread
      rfl

/-- Reading a line does not change why reading fails behind the bytes. -/
theorem Input.readLine_failure (i : Input) : i.readLine.2.failure = i.failure := by
  have hpiece : i.nextPiece.2.failure = i.failure := by
    unfold nextPiece
    split <;> rfl
  unfold readLine
  split
  · rename_i hnext
    rw [← hpiece, hnext]
  · rename_i hnext
    rw [← hpiece, hnext]
    split
    · split <;> rfl
    · rfl

section Raised

variable {S : Token → Prop}

theorem Scopes.find_error {s : Scopes} {i : Nat} {name : Token} {f : Fault}
    (hf : s.find i name = .error f) : f.token = name ∧ ¬ f.cause.IsUnplaced := by
  unfold find at hf
  split at hf
  · cases hf
    exact ⟨rfl, id⟩
  · cases hf

theorem Scopes.assign_error {s : Scopes} {i : Nat} {name : Token} {v : Value} {f : Fault}
    (hf : s.assign i name v = .error f) : f.token = name ∧ ¬ f.cause.IsUnplaced := by
  unfold assign at hf
  split at hf
  · cases hf
    exact ⟨rfl, id⟩
  · split at hf
    · cases hf
      exact ⟨rfl, id⟩
    · split at hf
      · cases hf
        exact ⟨rfl, id⟩
      · split at hf
        · cases hf
          exact ⟨rfl, id⟩
        · cases hf

/-- An argument has the wrong type, or there are too few. -/
theorem Machine.bindParams_error : ∀ {params : List Param} {args : List Value} {f : Frame}
    {x : Failure}, bindParams params args f = .error x →
      (∃ c : Cause, c.IsUnplaced ∧ x = .fault (.unplaced c)) ∨
        (x = .outOfRange ∧ args.length ≠ params.length)
  | [], _, _, _, hx => by cases hx
  | _ :: _, [], _, _, hx => by
    cases hx
    exact .inr ⟨rfl, nofun⟩
  | p :: ps, v :: vs, f, x, hx => by
    simp only [bindParams] at hx
    split at hx
    · cases hx
      exact .inl ⟨.argumentType _ _ _, trivial, rfl⟩
    · rcases bindParams_error hx with hfault | ⟨rfl, hlength⟩
      · exact .inl hfault
      · exact .inr ⟨rfl, fun heq => hlength (Nat.succ.inj heq)⟩

theorem reported_of_place {a : Activity} {f : Fault} {name : Token} (hname : S name)
    (hf : f.token = name ∧ ¬ f.cause.IsUnplaced) : Reported S a (.fault f) := by
  obtain ⟨rfl, hcause⟩ := hf
  exact .placed hcause hname

/-- What the result of a call objects to stands at the name of the function or at its type. -/
theorem reported_of_resultOf {a : Activity} {f : Function} {c : Completion} {x : Failure}
    (hf : f.Drawn S) (hx : resultOf f c = .error x) : Reported S a x := by
  obtain ⟨hname, _, _, hresult⟩ := hf
  unfold resultOf at hx
  split at hx
  · cases hx
  · cases hx
    exact .placed id hname
  · cases hx
  · rename_i t hr
    cases hx
    exact .placed id (hresult t hr)
  · split at hx
    · cases hx
    · cases hx
      exact .placed id hname

end Raised

namespace Native

variable {h : Host} {k : Native} {m : Machine} {x : Failure}

/-- The failure is a fault of an application without a place. -/
def Objects (x : Failure) : Prop :=
  ∃ c : Cause, c.IsUnplaced ∧ x = .fault (.unplaced c)

theorem floatArg_error {v : Value} (hx : k.floatArg v = .error x) : Objects x := by
  unfold floatArg at hx
  split at hx
  · cases hx
  · cases hx
    exact ⟨.nativeArgument _ _, trivial, rfl⟩

theorem onFloat_error {f : Float → Float} {args : List Value} (hargs : args.length = 1)
    (hx : (k.onFloat f args m).1 = .error x) : Objects x := by
  obtain ⟨v, rfl⟩ := List.length_eq_one_iff.mp hargs
  have hx : (k.floatArg v).map (fun a => Value.float (f a)) = .error x := hx
  rcases hv : k.floatArg v with e | a
  · rw [hv] at hx
    cases hx
    exact floatArg_error hv
  · rw [hv] at hx
    cases hx

theorem onFloats_error {f : Float → Float → Float} : ∀ {args : List Value}, args.length = 2 →
    (k.onFloats f args m).1 = .error x → Objects x := by
  rintro (_ | ⟨v, _ | ⟨w, _ | ⟨_, _⟩⟩⟩) hargs hx <;> cases hargs
  have hx : ((k.floatArg v).bind fun a => (k.floatArg w).bind fun b =>
      .ok (Value.float (f a b))) = .error x := hx
  rcases hv : k.floatArg v with e | a
  · rw [hv] at hx
    cases hx
    exact floatArg_error hv
  · rw [hv] at hx
    rcases hw : k.floatArg w with e | b
    · have hx : (k.floatArg w).bind (fun b => .ok (Value.float (f a b))) = .error x := hx
      rw [hw] at hx
      cases hx
      exact floatArg_error hw
    · have hx : (k.floatArg w).bind (fun b => .ok (Value.float (f a b))) = .error x := hx
      rw [hw] at hx
      cases hx

theorem prompt_error {args : List Value} (hargs : args.length = 1)
    (hx : (prompt args m).1 = .error x) :
    Objects x ∨ ∃ reason, m.input.failure = some reason ∧ x = .reader scanString.name reason := by
  obtain ⟨v, rfl⟩ := List.length_eq_one_iff.mp hargs
  rw [prompt, entry_of_getElem? (List.getElem?_cons_zero ..), lift_ok_bind] at hx
  rcases bind_error.mp hx with hwrite | ⟨_, m₁, hwrite, hx⟩
  · cases hwrite
  · obtain rfl : m.write (Text.line v.text) = m₁ := congrArg Prod.snd hwrite
    rcases bind_error.mp hx with hread | ⟨r, m₂, hread, hx⟩
    · cases hread
    · have hline : m.input.readLine.1 = r := Except.ok.inj (congrArg Prod.fst hread)
      rcases r with (_ | reason) | line
      · cases hx
        exact .inl ⟨.nativeNoLine _, trivial, rfl⟩
      · cases hx
        exact .inr ⟨reason, Input.failure_of_readLine hline, rfl⟩
      · cases hx

theorem record_error {args : List Value} (hargs : args.length = 1) :
    (record args m).1 ≠ .error x := by
  obtain ⟨v, rfl⟩ := List.length_eq_one_iff.mp hargs
  exact nofun

/-- **Natives object to the type of an argument, or want a line of input.** The arguments that they
    look at are there. -/
theorem run_error {args : List Value} (harity : (args.length : Int) = k.arity)
    (hx : (k.run h args m).1 = .error x) :
    Objects x ∨ ∃ reason, m.input.failure = some reason ∧ x = .reader scanString.name reason := by
  cases k with
  | clock => cases hx
  | ceil | floor | sqrt | abs => exact .inl (onFloat_error (Int.ofNat.inj harity) hx)
  | power => exact .inl (onFloats_error (Int.ofNat.inj harity) hx)
  | scanString => exact prompt_error (Int.ofNat.inj harity) hx
  | probe => exact absurd hx (record_error (Int.ofNat.inj harity))
  | counter _ _ _ => cases hx

end Native

namespace Activity

variable {S : Token → Prop} {h : Host}

/-- **What a drawn activity raises**, by cases on where it does so. -/
theorem Raises.reported {a : Activity} {x : Failure} (ha : a.Drawn S) (hx : Raises h a x) :
    Reported S a x := by
  obtain ⟨_, ht⟩ := ha
  cases hx with
  | exhausted _ => exact .exhausted
  | undefined hf => exact reported_of_place ht (Scopes.find_error hf)
  | assigned _ hf => exact reported_of_place ht.1 (Scopes.assign_error hf)
  | unary _ hx =>
    rw [Operator.unary_error ht.2.1 hx]
    exact .placed id ht.1
  | binary _ _ hx =>
    obtain ⟨hop, ⟨l, hl, hhas⟩, _⟩ := ht
    rcases Operator.binary_error hl hhas hx with rfl | rfl
    · exact .placed id hop
    · exact .placed id hop
  | notCallable _ => exact .unplaced trivial trivial
  | arity _ _ => exact .unplaced trivial trivial
  | native _ harity hx =>
    rcases Native.run_error harity hx with ⟨c, hc, rfl⟩ | ⟨reason, hfailure, rfl⟩
    · exact .unplaced trivial hc
    · rw [log_input] at hfailure
      exact .unreadable (.inr rfl) hfailure
  | depth _ => exact .unplaced trivial trivial
  | argument _ hx =>
    rcases bindParams_error hx with ⟨c, hc, rfl⟩ | ⟨rfl, hlength⟩
    · exact .unplaced trivial hc
    · exact .unmatched hlength
  | result _ _ _ hx => exact reported_of_resultOf ht hx
  | noLine _ => exact .placed id ht.1
  | unreadable hread => exact .unreadable (.inl rfl) (Input.failure_of_readLine hread)
  | noValue _ => exact .placed id (List.forall_mem_cons.mp ht).1
  | scanned hf => exact reported_of_place (List.forall_mem_cons.mp ht).1 (Scopes.assign_error hf)
  | @noBody _ i others _ _ _ _ hcondition _ _ hbody =>
    -- a drawn tree has a body for each condition
    have hlength : others.bodies.length = others.conditions.length := ht.length_bodies
    have hlt := (List.getElem?_eq_some_iff.mp hcondition).1
    rw [List.getElem?_eq_none_iff, hlength] at hbody
    exact absurd hlt (Nat.not_lt_of_le hbody)
  | initial _ _ => exact .placed id ht.1

end Activity

/-! ## 3. How runs fail -/

/-- **Why reading fails behind the input does not change in a run.** -/
theorem failure_invariant (h : Host) (r : Option Text) :
    Invariant h (fun m m' => m'.input.failure = m.input.failure)
      (fun m m' => m'.input.failure = m.input.failure) fun m => m.input.failure = r where
  refl _ := rfl
  trans hab hbc := hbc.trans hab
  transS hab hbc := hbc.trans hab
  ofE := id
  write _ _ := rfl
  probe _ _ := rfl
  tick _ := rfl
  log m e := by rw [log_input]
  read m := m.input.readLine_failure
  assign _ := rfl
  declare m type name v isMutable _ := by rw [declare_input]
  function m f := by rw [declareFunction_input]
  block hbody := by
    rw [leave_input, hbody, enter_input]
  call _ _ hbody := by
    show (Machine.leave _ _ _).input.failure = _
    rw [leave_input, hbody, enter_input]
    rfl
  keep hmm hm := hmm.trans hm
  keepS hmm hm := hmm.trans hm
  enterBlock hm := by
    rw [enter_input]
    exact hm
  enterCall _ _ hm := by
    rw [enter_input]
    exact hm
  enterProgram := id

/-- The failure says that the steps are used up, that the program is at fault, or that reading the
    input has failed, for the reason `r`. -/
def Failure.IsOrdinary (r : Option Text) : Failure → Prop
  | .exhausted => True
  | .fault _ => True
  | .reader during reason =>
    (during = utf8 "SCAN" ∨ during = Native.scanString.name) ∧ r = some reason
  | .unaryOperator _ => False
  | .binaryOperator _ => False
  | .outOfRange => False

theorem Failure.IsOrdinary.locate {r : Option Text} {x : Failure} (hx : x.IsOrdinary r)
    (t : Token) : (x.locate t).IsOrdinary r := by
  cases x with
  | fault f => exact trivial
  | _ => exact hx

theorem Reported.isOrdinary {S : Token → Prop} {a : Activity} {x : Failure}
    (hx : Reported S a x) (ha : a.task.Matched) : x.IsOrdinary a.start.input.failure := by
  cases hx with
  | exhausted => exact trivial
  | placed _ _ => exact trivial
  | unplaced _ _ => exact trivial
  | unreadable hduring hfailure => exact ⟨hduring, hfailure⟩
  | unmatched hmatched => exact absurd ha hmatched

namespace Activity

variable {S : Token → Prop} {h : Host}

theorem isOrdinary_passed {r : Option Text} {a b : Activity} {x : Failure}
    (hx : x.IsOrdinary r) : (passed a b x).IsOrdinary r := by
  unfold passed
  split
  · exact hx.locate _
  · exact hx

/-- **A drawn activity fails in an ordinary way.** -/
theorem Fails.isOrdinary {a : Activity} {x : Failure} (hx : Fails h a x) (ha : a.Drawn S)
    (hmatched : a.task.Matched) : x.IsOrdinary a.start.input.failure := by
  refine hx.rule (motive := fun a x => a.Drawn S → a.task.Matched →
    x.IsOrdinary a.start.input.failure) ?_ ?_ ha hmatched
  · intro a x hraised ha hmatched
    exact (hraised.reported ha).isOrdinary hmatched
  · intro a b x hab _ ih ha _
    have hsame : b.start.input.failure = a.start.input.failure :=
      (failure_invariant h _).start_of_calls hab rfl
    rw [← hsame]
    exact isOrdinary_passed (ih (drawn_of_calls hab ha) (matched_of_calls hab))

end Activity

/-- The failure of a program is that of its statements. -/
theorem execute_error {h : Host} {steps : Nat} {program : List Stmt} {m : Machine} {x : Failure} :
    (execute h steps program m).1 = .error x ↔
      Activity.Fails h (.ofProgram steps program m) x := by
  show _ ↔ (execAll h steps program m.rested).1 = .error x
  unfold execute
  split
  · rename_i hrun
    rw [hrun]
    exact ⟨nofun, nofun⟩
  · rename_i hrun
    rw [hrun]
    exact ⟨nofun, nofun⟩
  · rename_i e m' hrun
    rw [hrun]
    split
    · exact ⟨fun hx => congrArg _ (Except.error.inj hx), fun hx => congrArg _ (Except.error.inj hx)⟩
    · exact ⟨fun hx => congrArg _ (Except.error.inj hx), fun hx => congrArg _ (Except.error.inj hx)⟩

/-! ## 4. Source texts -/

/-- **No internal failure is reachable.** Take any source text, also one with diagnostics, any host,
    any input and any number of steps.

    * If the run of its statements on a standard machine fails, then its steps are used up, the
      program is at fault, or `SCAN` or `scanString` could not read the input, which fails behind
      its bytes for the reason that the failure names.
    * No part of the run asks for an entry of a list that is not there, be it an argument, a body of
      an alternative or a token of a line, and none finds an operator that it does not know. -/
theorem no_internal_failure (h : Host) (steps : Nat) (t : Text) (input : Input) :
    (∀ x, (execute h steps (Program.ofText t).stmts (.standard input)).1 = .error x →
      x = .exhausted ∨ (∃ f, x = .fault f) ∨
      ∃ during reason, x = .reader during reason ∧
        (during = utf8 "SCAN" ∨ during = Native.scanString.name) ∧
        input.failure = some reason) ∧
    ∀ a, Activity.Within h (.ofProgram steps (Program.ofText t).stmts (.standard input)) a →
      ¬ a.Fails h .outOfRange ∧ ∀ k, ¬ a.Fails h (.unaryOperator k) ∧
        ¬ a.Fails h (.binaryOperator k) := by
  have hdrawn := Activity.drawn_ofText steps t input
  constructor
  · intro x hx
    have hordinary := (execute_error.mp hx).isOrdinary hdrawn trivial
    cases x with
    | exhausted => exact .inl rfl
    | fault f => exact .inr (.inl ⟨f, rfl⟩)
    | reader during reason => exact .inr (.inr ⟨during, reason, rfl, hordinary⟩)
    | unaryOperator k => exact absurd hordinary id
    | binaryOperator k => exact absurd hordinary id
    | outOfRange => exact absurd hordinary id
  · intro a ha
    have hmatched : a.task.Matched := by
      rcases Relation.ReflTransGen.cases_tail ha with rfl | ⟨b, _, hba⟩
      · exact trivial
      · exact Activity.matched_of_calls hba
    have hordinary {x : Failure} (hx : a.Fails h x) :=
      hx.isOrdinary (Activity.drawn_of_within ha hdrawn) hmatched
    exact ⟨hordinary, fun _ => ⟨hordinary, hordinary⟩⟩

/-- A program that reads a number. -/
def readingText : Text :=
  utf8 "BEGIN CODE\nINT n\nSCAN: n\nEND CODE\n"

/-- With input that breaks off, the run of the program fails because reading does. -/
theorem readingText_unreadable :
    let input : Input := { rest := utf8 "4", failure := some (utf8 "broken pipe") }
    ∃ x, (execute {} 50 (Program.ofText readingText).stmts (.standard input)).1 = .error x ∧
      (x = .exhausted ∨ (∃ f, x = .fault f) ∨
      ∃ during reason, x = .reader during reason ∧
        (during = utf8 "SCAN" ∨ during = Native.scanString.name) ∧
        input.failure = some reason) ∧ x.text = utf8 "SCAN: broken pipe" := by
  intro input
  have htext : (match (execute {} 50 (Program.ofText readingText).stmts (.standard input)).1 with
      | .error x => x.text
      | .ok _ => []) = utf8 "SCAN: broken pipe" := by decide +kernel
  rcases hresult : (execute {} 50 (Program.ofText readingText).stmts (.standard input)).1 with x | _
  · rw [hresult] at htext
    exact ⟨x, rfl, (no_internal_failure {} 50 readingText input).1 x hresult, htext⟩
  · rw [hresult] at htext
    cases htext

end FencedCode
