import FencedCode.Proofs.Machine.Moment

/-!
# The parts of an activity, one after another

A part starts only if the one before it has succeeded, and in the machine that this one left. So the
parts of an activity come in an order, which is that of what an observer sees of the run.

* `followed` -- what comes of a step that succeeds;
* `Activity.parts` -- the parts of an activity, in their order;
* `Activity.mem_parts` -- **these are what is directly part of the activity.**
-/

namespace FencedCode

open Exec Machine

/-! ## 1. What is done next -/

/-- What comes of a step that succeeds. -/
def followed {α β : Type} (r : Except Failure α × Machine) (f : α → Machine → List β) : List β :=
  match r with
  | (.ok a, m) => f a m
  | (.error _, _) => []

theorem followed_ok {α β : Type} (a : α) (m : Machine) (f : α → Machine → List β) :
    followed (.ok a, m) f = f a m := rfl

theorem mem_followed {α β : Type} {r : Except Failure α × Machine} {f : α → Machine → List β}
    {b : β} : b ∈ followed r f ↔ ∃ a m, r = (.ok a, m) ∧ b ∈ f a m := by
  obtain ⟨x | a, m⟩ := r
  · exact ⟨fun hb => absurd hb List.not_mem_nil, fun ⟨_, _, hr, _⟩ => nomatch hr⟩
  · refine ⟨fun hb => ⟨a, m, rfl, hb⟩, ?_⟩
    rintro ⟨_, _, hr, hb⟩
    cases hr
    exact hb

/-! ## 2. The parts in their order -/

namespace Activity

/-- The parts of an activity, in the order in which they are done. -/
def parts (h : Host) : Activity → List Activity
  | ⟨n + 1, .eval e, m⟩ =>
    match e with
    | .literal _ | .ref _ => []
    | .grouping e _ | .assign _ e | .unary _ e => [⟨n, .eval e, m⟩]
    | .binary l _ r =>
      ⟨n, .eval l, m⟩ :: followed (Machine.eval h n l m) fun _ m' => [⟨n, .eval r, m'⟩]
    | .logical l op r =>
      ⟨n, .eval l, m⟩ :: followed (Machine.eval h n l m) fun a m' =>
        if a.isTruthy = (op.kind = .kwOr : Bool) then [] else [⟨n, .eval r, m'⟩]
    | .call callee _ args =>
      ⟨n, .eval callee, m⟩ :: followed (Machine.eval h n callee m) fun f m₁ =>
        ⟨n, .evalAll args, m₁⟩ :: followed (Machine.evalAll h n args m₁) fun vs m₂ =>
          [⟨n, .apply f vs, m₂⟩]
  | ⟨n + 1, .evalAll (e :: es), m⟩ =>
    ⟨n, .eval e, m⟩ :: followed (Machine.eval h n e m) fun _ m' => [⟨n, .evalAll es, m'⟩]
  | ⟨n + 1, .apply callee args, m⟩ =>
    match callee.callable? with
    | some (.user f copy) =>
      if (args.length : Int) = (Callable.user f copy).arity then
        [⟨n, .call f args, m.log h (.call f.name.lexeme args.length)⟩]
      else []
    | _ => []
  | ⟨n + 1, .call f args, m⟩ =>
    if m.depth < h.limit then
      match bindParams f.params args ⟨some 0, []⟩ with
      | .ok frame => [⟨n, .execAll f.body, m.descend.enter h frame⟩]
      | .error _ => []
    else []
  | ⟨n + 1, .exec s, m⟩ =>
    match s with
    | .expression e | .display _ e | .ret _ (some e) | .declare _ _ (some e) _ =>
      [⟨n, .eval e, m⟩]
    | .scan _ names =>
      match m.input.readLine.1 with
      | .ok line => [⟨n, .assignScanned names (Scan.ofText line).tokens,
          { m with input := m.input.readLine.2 }⟩]
      | .error _ => []
    | .conditional _ condition body others =>
      ⟨n, .eval condition, m⟩ :: followed (Machine.eval h n condition m) fun v m' =>
        if v.isTruthy then [⟨n, .execAll body, m'⟩] else [⟨n, .execOthers 0 others, m'⟩]
    | .loop _ condition body => [⟨n, .execLoop condition body, m⟩]
    | .block _ body => [⟨n, .execAll body, m.enter h ⟨some m.scope, []⟩⟩]
    | .function _ _ _ _ | .ret _ none | .declare _ _ none _ => []
  | ⟨n + 1, .execAll (s :: rest), m⟩ =>
    ⟨n, .exec s, m⟩ :: followed (Machine.exec h n s m) fun c m' =>
      match c with
      | .normal => [⟨n, .execAll rest, m'⟩]
      | .returning _ => []
  | ⟨n + 1, .execOthers i others, m⟩ =>
    match others.conditions[i]? with
    | some condition =>
      ⟨n, .eval condition, m⟩ :: followed (Machine.eval h n condition m) fun v m' =>
        if v.isTruthy then (others.bodies[i]?.map fun body => ⟨n, .execAll body, m'⟩).toList
        else [⟨n, .execOthers (i + 1) others, m'⟩]
    | none => (others.last.map fun body => ⟨n, .execAll body, m⟩).toList
  | ⟨n + 1, .execLoop condition body, m⟩ =>
    ⟨n, .eval condition, m⟩ :: followed (Machine.eval h n condition m) fun v m₁ =>
      if v.isTruthy then
        ⟨n, .execAll body, m₁⟩ :: followed (Machine.execAll h n body m₁) fun c m₂ =>
          match c with
          | .normal => [⟨n, .execLoop condition body, m₂⟩]
          | .returning _ => []
      else []
  | ⟨n, .assignScanned (name :: names) (t :: _ :: ts), m⟩ =>
    match m.scopes.assign m.scope name (.ofLiteral? t.literal) with
    | .ok scopes => [⟨n, .assignScanned names ts, { m with scopes }⟩]
    | .error _ => []
  | _ => []

variable {h : Host}

theorem mem_parts_of_calls {a b : Activity} (hab : Calls h a b) : b ∈ a.parts h := by
  cases hab with
  | right hl => simp [parts, followed_ok, hl]
  | decided hl hdecided => simp [parts, followed_ok, hl, hdecided]
  | arguments hf => simp [parts, followed_ok, hf]
  | application hf hvs => simp [parts, followed_ok, hf, hvs]
  | tail he => simp [parts, followed_ok, he]
  | user hcallee harity => simp [parts, hcallee, harity]
  | body hdepth hb => simp [parts, hdepth, hb]
  | scan hr => simp [parts, hr]
  | scanned ha => simp [parts, ha]
  | consequence hc hv => simp [parts, followed_ok, hc, hv]
  | alternative hc hv => simp [parts, followed_ok, hc, hv]
  | next hs => simp [parts, followed_ok, hs]
  | otherwise hcondition hlast => simp [parts, hcondition, hlast]
  | elseCondition hcondition => simp [parts, hcondition]
  | elseConsequence hcondition hc hv hbody => simp [parts, followed_ok, hcondition, hc, hv, hbody]
  | elseAlternative hcondition hc hv => simp [parts, followed_ok, hcondition, hc, hv]
  | loopBody hc hv => simp [parts, followed_ok, hc, hv]
  | again hc hv hbody => simp [parts, followed_ok, hc, hv, hbody]
  | _ => simp [parts]

/-! ## 3. They are all that is directly part of an activity -/

section Members

variable {n : Nat} {m : Machine} {b : Activity}

theorem calls_of_mem_eval {e : Expr} (hb : b ∈ parts h ⟨n + 1, .eval e, m⟩) :
    Calls h ⟨n + 1, .eval e, m⟩ b := by
  cases e with
  | literal t => cases hb
  | ref name => cases hb
  | grouping inner pos => exact List.mem_singleton.mp hb ▸ .grouping
  | assign name value => exact List.mem_singleton.mp hb ▸ .assigned
  | unary op operand => exact List.mem_singleton.mp hb ▸ .operand
  | binary l op r =>
    rcases List.mem_cons.mp hb with rfl | hb
    · exact .left
    · obtain ⟨a, m', hl, hb⟩ := mem_followed.mp hb
      exact List.mem_singleton.mp hb ▸ .right hl
  | logical l op r =>
    rcases List.mem_cons.mp hb with rfl | hb
    · exact .test
    · obtain ⟨a, m', hl, hb⟩ := mem_followed.mp hb
      split at hb
      · cases hb
      · rename_i hdecided
        exact List.mem_singleton.mp hb ▸ .decided hl hdecided
  | call callee paren args =>
    rcases List.mem_cons.mp hb with rfl | hb
    · exact .callee
    · obtain ⟨f, m₁, hf, hb⟩ := mem_followed.mp hb
      rcases List.mem_cons.mp hb with rfl | hb
      · exact .arguments hf
      · obtain ⟨vs, m₂, hvs, hb⟩ := mem_followed.mp hb
        exact List.mem_singleton.mp hb ▸ .application hf hvs

theorem calls_of_mem_evalAll {es : List Expr} (hb : b ∈ parts h ⟨n + 1, .evalAll es, m⟩) :
    Calls h ⟨n + 1, .evalAll es, m⟩ b := by
  rcases es with _ | ⟨e, es⟩
  · cases hb
  · rcases List.mem_cons.mp hb with rfl | hb
    · exact .head
    · obtain ⟨v, m', he, hb⟩ := mem_followed.mp hb
      exact List.mem_singleton.mp hb ▸ .tail he

theorem calls_of_mem_apply {callee : Value} {args : List Value}
    (hb : b ∈ parts h ⟨n + 1, .apply callee args, m⟩) :
    Calls h ⟨n + 1, .apply callee args, m⟩ b := by
  simp only [parts] at hb
  split at hb
  · rename_i f copy hcallee
    split at hb
    · rename_i harity
      exact List.mem_singleton.mp hb ▸ .user hcallee harity
    · cases hb
  · cases hb

theorem calls_of_mem_call {f : Function} {args : List Value}
    (hb : b ∈ parts h ⟨n + 1, .call f args, m⟩) : Calls h ⟨n + 1, .call f args, m⟩ b := by
  simp only [parts] at hb
  split at hb
  · rename_i hdepth
    split at hb
    · rename_i frame hframe
      exact List.mem_singleton.mp hb ▸ .body hdepth hframe
    · cases hb
  · cases hb

theorem calls_of_mem_exec {s : Stmt} (hb : b ∈ parts h ⟨n + 1, .exec s, m⟩) :
    Calls h ⟨n + 1, .exec s, m⟩ b := by
  cases s with
  | expression e => exact List.mem_singleton.mp hb ▸ .expression
  | display keyword e => exact List.mem_singleton.mp hb ▸ .display
  | scan keyword names =>
    simp only [parts] at hb
    split at hb
    · rename_i line hline
      exact List.mem_singleton.mp hb ▸ .scan hline
    · cases hb
  | conditional keyword c body others =>
    rcases List.mem_cons.mp hb with rfl | hb
    · exact .condition
    · obtain ⟨v, m', hc, hb⟩ := mem_followed.mp hb
      split at hb
      · rename_i hv
        exact List.mem_singleton.mp hb ▸ .consequence hc hv
      · rename_i hv
        exact List.mem_singleton.mp hb ▸ .alternative hc (eq_false_of_ne_true hv)
  | loop keyword c body => exact List.mem_singleton.mp hb ▸ .loop
  | block opening body => exact List.mem_singleton.mp hb ▸ .block
  | function name params body result => cases hb
  | ret keyword value =>
    cases value with
    | none => cases hb
    | some e => exact List.mem_singleton.mp hb ▸ .returned
  | declare type name init isMutable =>
    cases init with
    | none => cases hb
    | some e => exact List.mem_singleton.mp hb ▸ .initial

theorem calls_of_mem_execAll {ss : List Stmt} (hb : b ∈ parts h ⟨n + 1, .execAll ss, m⟩) :
    Calls h ⟨n + 1, .execAll ss, m⟩ b := by
  rcases ss with _ | ⟨s, rest⟩
  · cases hb
  · rcases List.mem_cons.mp hb with rfl | hb
    · exact .first
    · obtain ⟨c, m', hs, hb⟩ := mem_followed.mp hb
      cases c with
      | normal => exact List.mem_singleton.mp hb ▸ .next hs
      | returning v => cases hb

theorem calls_of_mem_execOthers {i : Nat} {others : Alternatives}
    (hb : b ∈ parts h ⟨n + 1, .execOthers i others, m⟩) :
    Calls h ⟨n + 1, .execOthers i others, m⟩ b := by
  simp only [parts] at hb
  split at hb
  · rename_i c hcondition
    rcases List.mem_cons.mp hb with rfl | hb
    · exact .elseCondition hcondition
    · obtain ⟨v, m', hc, hb⟩ := mem_followed.mp hb
      split at hb
      · rename_i hv
        obtain ⟨body, hbody, rfl⟩ := Option.map_eq_some_iff.mp (Option.mem_toList.mp hb)
        exact .elseConsequence hcondition hc hv hbody
      · rename_i hv
        exact List.mem_singleton.mp hb ▸ .elseAlternative hcondition hc (eq_false_of_ne_true hv)
  · rename_i hcondition
    obtain ⟨body, hlast, rfl⟩ := Option.map_eq_some_iff.mp (Option.mem_toList.mp hb)
    exact .otherwise hcondition hlast

theorem calls_of_mem_execLoop {c : Expr} {body : List Stmt}
    (hb : b ∈ parts h ⟨n + 1, .execLoop c body, m⟩) : Calls h ⟨n + 1, .execLoop c body, m⟩ b := by
  rcases List.mem_cons.mp hb with rfl | hb
  · exact .loopCondition
  · obtain ⟨v, m₁, hc, hb⟩ := mem_followed.mp hb
    split at hb
    · rename_i hv
      rcases List.mem_cons.mp hb with rfl | hb
      · exact .loopBody hc hv
      · obtain ⟨r, m₂, hbody, hb⟩ := mem_followed.mp hb
        cases r with
        | normal => exact List.mem_singleton.mp hb ▸ .again hc hv hbody
        | returning r => cases hb
    · cases hb

theorem calls_of_mem_assignScanned {names ts : List Token}
    (hb : b ∈ parts h ⟨n, .assignScanned names ts, m⟩) :
    Calls h ⟨n, .assignScanned names ts, m⟩ b := by
  rcases names with _ | ⟨name, names⟩
  · cases n <;> cases hb
  · rcases ts with _ | ⟨t, _ | ⟨u, ts⟩⟩
    · cases n <;> cases hb
    · cases n <;> cases hb
    · simp only [parts] at hb
      split at hb
      · rename_i scopes ha
        exact List.mem_singleton.mp hb ▸ .scanned ha
      · cases hb

end Members

/-- **The parts that are listed are what is directly part of an activity.** -/
theorem mem_parts {a b : Activity} : b ∈ a.parts h ↔ Calls h a b := by
  refine ⟨fun hb => ?_, mem_parts_of_calls⟩
  match a with
  | ⟨_, .assignScanned _ _, _⟩ => exact calls_of_mem_assignScanned hb
  | ⟨0, .eval _, _⟩ | ⟨0, .evalAll _, _⟩ | ⟨0, .apply _ _, _⟩ | ⟨0, .call _ _, _⟩
  | ⟨0, .exec _, _⟩ | ⟨0, .execAll _, _⟩ | ⟨0, .execOthers _ _, _⟩ | ⟨0, .execLoop _ _, _⟩ =>
    cases hb
  | ⟨_ + 1, .eval _, _⟩ => exact calls_of_mem_eval hb
  | ⟨_ + 1, .evalAll _, _⟩ => exact calls_of_mem_evalAll hb
  | ⟨_ + 1, .apply _ _, _⟩ => exact calls_of_mem_apply hb
  | ⟨_ + 1, .call _ _, _⟩ => exact calls_of_mem_call hb
  | ⟨_ + 1, .exec _, _⟩ => exact calls_of_mem_exec hb
  | ⟨_ + 1, .execAll _, _⟩ => exact calls_of_mem_execAll hb
  | ⟨_ + 1, .execOthers _ _, _⟩ => exact calls_of_mem_execOthers hb
  | ⟨_ + 1, .execLoop _ _, _⟩ => exact calls_of_mem_execLoop hb

end Activity

end FencedCode
