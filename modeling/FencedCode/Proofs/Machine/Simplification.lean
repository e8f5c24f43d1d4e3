import FencedCode.Proofs.Machine.Held
import FencedCode.Proofs.Machine.Likeness

/-!
# Programs can be simplified

Three things in a program are there for its reader only: parentheses, further conditions of an `IF`,
and statements behind a `RETURN`. A program is simplified by dropping the parentheses, by putting
the further conditions into an `IF` of their own in the last branch, and by dropping what is behind
a `RETURN`, in the bodies of functions as well.

* `Expr.simplify`, `Stmt.simplifyAll`, `Function.simplify` -- the simplified trees;
* `Stmt.simplifyAll_idem` -- what is simplified stays as it is;
* `simplification` -- **a tree resembles its simplification**, layer by layer;
* `simplify_preserves` -- **a program and its simplification do the same**, in every machine.
-/

namespace FencedCode

open Machine

/-! ## 1. Simplified trees -/

mutual

/-- The expression without parentheses. -/
def Expr.simplify : Expr → Expr
  | .literal t => .literal t
  | .grouping inner _ => inner.simplify
  | .unary op operand => .unary op operand.simplify
  | .binary left op right => .binary left.simplify op right.simplify
  | .logical left op right => .logical left.simplify op right.simplify
  | .ref name => .ref name
  | .assign name value => .assign name value.simplify
  | .call callee paren args => .call callee.simplify paren (Expr.simplifyAll args)

/-- The expressions without parentheses. -/
def Expr.simplifyAll : List Expr → List Expr
  | [] => []
  | e :: es => e.simplify :: Expr.simplifyAll es

end

mutual

/-- The simplified statement. -/
def Stmt.simplify : Stmt → Stmt
  | .expression e => .expression e.simplify
  | .display keyword e => .display keyword e.simplify
  | .scan keyword names => .scan keyword names
  | .conditional keyword condition body others =>
    .conditional keyword condition.simplify (Stmt.simplifyAll body) (others.simplify keyword)
  | .loop keyword condition body => .loop keyword condition.simplify (Stmt.simplifyAll body)
  | .block opening body => .block opening (Stmt.simplifyAll body)
  | .function name params body result => .function name params (Stmt.simplifyAll body) result
  | .ret keyword value => .ret keyword (value.map Expr.simplify)
  | .declare type name init isMutable => .declare type name (init.map Expr.simplify) isMutable

/-- The simplified statements, up to the first that returns. -/
def Stmt.simplifyAll : List Stmt → List Stmt
  | [] => []
  | .ret keyword value :: _ => [.ret keyword (value.map Expr.simplify)]
  | s :: rest => s.simplify :: Stmt.simplifyAll rest

/-- The simplified alternatives of an `IF` with the given keyword: a further condition becomes an
    `IF` in the last branch. -/
def Alternatives.simplify (keyword : Token) : Alternatives → Alternatives
  | .mk conditions bodies last =>
    Alternatives.nest keyword (Alternatives.simplifyLast last) conditions bodies

/-- The simplified last body. -/
def Alternatives.simplifyLast : Option (List Stmt) → Option (List Stmt)
  | none => none
  | some body => some (Stmt.simplifyAll body)

/-- Conditions with their bodies simplified, in front of a last body that is simplified already. -/
def Alternatives.nest (keyword : Token) (last : Option (List Stmt)) :
    List Expr → List (List Stmt) → Alternatives
  | conditions, [] => .mk (Expr.simplifyAll conditions) [] last
  | [], _ :: _ => .mk [] [] last
  | condition :: conditions, body :: bodies =>
    .otherwise [.conditional keyword condition.simplify (Stmt.simplifyAll body)
      (Alternatives.nest keyword last conditions bodies)]

end

/-- The function with a simplified body. -/
def Function.simplify (f : Function) : Function :=
  { f with body := Stmt.simplifyAll f.body }

/-- A function simplified, any other value as it is. -/
def Value.simplify : Value → Value
  | .function (some (.user f copy)) => .function (some (.user f.simplify copy))
  | v => v

/-- The binding with its value simplified. -/
def Binding.simplify (b : Binding) : Binding :=
  { b with value := b.value.simplify }

/-! ### Simplifying once is enough -/

/-- No parentheses are left. -/
theorem Expr.simplify_ne_grouping : ∀ (e inner : Expr) (pos : Position),
    e.simplify ≠ .grouping inner pos
  | .grouping e _, inner, pos => by
    simp only [simplify]
    exact simplify_ne_grouping e inner pos
  | .literal _, _, _ | .unary _ _, _, _ | .binary _ _ _, _, _ | .logical _ _ _, _, _
  | .ref _, _, _ | .assign _ _, _, _ | .call _ _ _, _, _ => by
    simp only [simplify]
    exact nofun

mutual

theorem Expr.simplify_idem : ∀ e : Expr, e.simplify.simplify = e.simplify
  | .literal _ | .ref _ => by simp only [simplify]
  | .grouping inner _ => by
    simp only [simplify]
    exact simplify_idem inner
  | .unary _ e | .assign _ e => by simp only [simplify, simplify_idem e]
  | .binary l _ r | .logical l _ r => by simp only [simplify, simplify_idem l, simplify_idem r]
  | .call e _ args => by simp only [simplify, simplify_idem e, simplifyAll_idem args]

theorem Expr.simplifyAll_idem : ∀ es : List Expr,
    simplifyAll (simplifyAll es) = simplifyAll es
  | [] => by simp only [simplifyAll]
  | e :: es => by simp only [simplifyAll, simplify_idem e, simplifyAll_idem es]

end

theorem Expr.map_simplify_idem (value : Option Expr) :
    (value.map simplify).map simplify = value.map simplify := by
  cases value with
  | none => rfl
  | some e => exact congrArg some (simplify_idem e)

/-- A statement other than `RETURN` does not end the list. -/
theorem Stmt.simplifyAll_cons {s : Stmt} (hs : ∀ keyword value, s ≠ .ret keyword value)
    (rest : List Stmt) : simplifyAll (s :: rest) = s.simplify :: simplifyAll rest := by
  cases s with
  | ret keyword value => exact absurd rfl (hs keyword value)
  | _ => simp only [simplifyAll]

theorem Stmt.simplify_ne_ret {s : Stmt} (hs : ∀ keyword value, s ≠ .ret keyword value)
    (keyword : Token) (value : Option Expr) : s.simplify ≠ .ret keyword value := by
  cases s with
  | ret keyword value => exact absurd rfl (hs keyword value)
  | _ =>
    simp only [simplify]
    exact nofun

mutual

theorem Stmt.simplify_idem : ∀ s : Stmt, s.simplify.simplify = s.simplify
  | .expression e | .display _ e => by simp only [Stmt.simplify, Expr.simplify_idem e]
  | .scan _ _ => by simp only [Stmt.simplify]
  | .conditional keyword c body others => by
    simp only [Stmt.simplify, Expr.simplify_idem c, Stmt.simplifyAll_idem body,
      Alternatives.simplify_idem keyword others]
  | .loop _ c body => by
    simp only [Stmt.simplify, Expr.simplify_idem c, Stmt.simplifyAll_idem body]
  | .block _ body | .function _ _ body _ => by
    simp only [Stmt.simplify, Stmt.simplifyAll_idem body]
  | .ret _ value | .declare _ _ value _ => by
    simp only [Stmt.simplify, Expr.map_simplify_idem value]

/-- **What is simplified stays as it is.** -/
theorem Stmt.simplifyAll_idem : ∀ ss : List Stmt,
    Stmt.simplifyAll (Stmt.simplifyAll ss) = Stmt.simplifyAll ss
  | [] => by simp only [Stmt.simplifyAll]
  | s :: rest => by
    by_cases hs : ∀ keyword value, s ≠ .ret keyword value
    · rw [Stmt.simplifyAll_cons hs, Stmt.simplifyAll_cons (Stmt.simplify_ne_ret hs),
        Stmt.simplify_idem s, Stmt.simplifyAll_idem rest]
    · obtain ⟨keyword, value, rfl⟩ : ∃ keyword value, s = .ret keyword value := by
        simpa only [not_forall, not_not] using hs
      simp only [Stmt.simplifyAll, Expr.map_simplify_idem]

theorem Alternatives.simplify_idem (keyword : Token) : ∀ o : Alternatives,
    (o.simplify keyword).simplify keyword = o.simplify keyword
  | .mk conditions bodies last => by
    simp only [Alternatives.simplify]
    exact Alternatives.simplify_nest keyword (Alternatives.simplifyLast_idem last) conditions bodies

theorem Alternatives.simplifyLast_idem : ∀ last : Option (List Stmt),
    Alternatives.simplifyLast (Alternatives.simplifyLast last) = Alternatives.simplifyLast last
  | none => by simp only [Alternatives.simplifyLast]
  | some body => by simp only [Alternatives.simplifyLast, Stmt.simplifyAll_idem body]

theorem Alternatives.simplify_nest (keyword : Token) {last : Option (List Stmt)}
    (hlast : Alternatives.simplifyLast last = last) :
    ∀ (conditions : List Expr) (bodies : List (List Stmt)),
      (Alternatives.nest keyword last conditions bodies).simplify keyword =
        Alternatives.nest keyword last conditions bodies
  | conditions, [] => by
    simp only [Alternatives.nest, Alternatives.simplify, hlast, Expr.simplifyAll_idem]
  | [], _ :: _ => by
    simp only [Alternatives.nest, Alternatives.simplify, hlast, Expr.simplifyAll]
  | c :: conditions, body :: bodies => by
    simp only [Alternatives.nest, Alternatives.otherwise, Alternatives.simplify,
      Alternatives.simplifyLast, Stmt.simplifyAll, Stmt.simplify, Expr.simplifyAll,
      Expr.simplify_idem c, Stmt.simplifyAll_idem body,
      Alternatives.simplify_nest keyword hlast conditions bodies]

end

/-- What is unchanged as a list is unchanged in each of its members. -/
theorem Expr.simplify_of_mem : ∀ {es : List Expr}, simplifyAll es = es →
    ∀ e ∈ es, e.simplify = e
  | [], _, _, he => absurd he List.not_mem_nil
  | e :: es, hes, e', he => by
    simp only [simplifyAll, List.cons.injEq] at hes
    rcases List.mem_cons.mp he with rfl | he
    · exact hes.1
    · exact simplify_of_mem hes.2 e' he

/-- The trees that are simplified already. -/
def simpleTrees : TreeClass where
  token _ := True
  expr e := e.simplify = e
  exprs es := Expr.simplifyAll es = es
  stmt s := s.simplify = s
  stmts ss := Stmt.simplifyAll ss = ss
  others o := ∃ keyword, o.simplify keyword = o
  grouping {e pos} he := by
    simp only [Expr.simplify] at he
    exact absurd he (Expr.simplify_ne_grouping e e pos)
  assign he := by simpa only [Expr.simplify, Expr.assign.injEq, true_and] using he
  unary he := by simpa only [Expr.simplify, Expr.unary.injEq, true_and] using he
  binary he := by simpa only [Expr.simplify, Expr.binary.injEq, true_and] using he
  logical he := by simpa only [Expr.simplify, Expr.logical.injEq, true_and] using he
  call he := by simpa only [Expr.simplify, Expr.call.injEq, true_and] using he
  exprs_cons hes := by simpa only [Expr.simplifyAll, List.cons.injEq] using hes
  expression hs := by simpa only [Stmt.simplify, Stmt.expression.injEq] using hs
  display hs := by simpa only [Stmt.simplify, Stmt.display.injEq, true_and] using hs
  scan _ _ _ := trivial
  conditional hs := by
    simp only [Stmt.simplify, Stmt.conditional.injEq, true_and] at hs
    exact ⟨hs.1, hs.2.1, _, hs.2.2⟩
  loop hs := by simpa only [Stmt.simplify, Stmt.loop.injEq, true_and] using hs
  block hs := by simpa only [Stmt.simplify, Stmt.block.injEq, true_and] using hs
  function hs := by
    simpa only [Stmt.simplify, Stmt.function.injEq, true_and, and_true] using hs
  ret hs := by
    simpa only [Stmt.simplify, Stmt.ret.injEq, true_and, Option.map_some, Option.some.injEq]
      using hs
  declare hs := by
    simpa only [Stmt.simplify, Stmt.declare.injEq, true_and, and_true, Option.map_some,
      Option.some.injEq] using hs
  stmts_cons {s ss} hss := by
    by_cases hs : ∀ keyword value, s ≠ .ret keyword value
    · rw [Stmt.simplifyAll_cons hs] at hss
      exact List.cons.inj hss
    · obtain ⟨keyword, value, rfl⟩ : ∃ keyword value, s = .ret keyword value := by
        simpa only [not_forall, not_not] using hs
      simp only [Stmt.simplifyAll, List.cons.injEq] at hss
      obtain ⟨hret, rfl⟩ := hss
      exact ⟨by simpa only [Stmt.simplify] using hret, by simp only [Stmt.simplifyAll]⟩
  alternatives {o} ho := by
    obtain ⟨conditions, bodies, last⟩ := o
    obtain ⟨keyword, ho⟩ := ho
    simp only [Alternatives.simplify] at ho
    -- alternatives with bodies of their own are not simplified
    rcases bodies with _ | ⟨body, bodies⟩
    · simp only [Alternatives.nest, Alternatives.mk.injEq, true_and] at ho
      refine ⟨Expr.simplify_of_mem ho.1, fun _ hbody => absurd hbody List.not_mem_nil, ?_⟩
      rintro body rfl
      simpa only [Alternatives.simplifyLast, Option.some.injEq] using ho.2
    · rcases conditions with _ | ⟨c, conditions⟩
      · simp only [Alternatives.nest, Alternatives.mk.injEq, reduceCtorEq, false_and,
          and_false] at ho
      · simp only [Alternatives.nest, Alternatives.otherwise, Alternatives.mk.injEq,
          reduceCtorEq, false_and] at ho

/-! ## 2. A tree resembles its simplification -/

/-- **A tree resembles itself and its simplification.** -/
def simplification : Resemblance where
  token := Eq
  expr e e' := e' = e ∨ e' = e.simplify
  stmt s s' := s' = s ∨ s' = s.simplify
  body ss ss' := ss' = ss ∨ ss' = Stmt.simplifyAll ss
  others o o' := o' = o ∨ ∃ keyword, o' = o.simplify keyword
  function f g := g = f ∨ g = f.simplify
  token_refl _ := rfl
  token_kind := congrArg Token.kind
  token_lexeme := congrArg Token.lexeme
  token_literal := congrArg Token.literal
  token_line ht := by rw [ht]
  expr_layer {e e'} he := by
    rcases he with rfl | rfl
    · exact .refl (fun _ => rfl) (fun _ => .inl rfl) e'
    cases e with
    | literal t => exact .literal rfl
    | grouping inner _ => exact .opened (.inr (by simp only [Expr.simplify]))
    | unary op e => exact .unary rfl (.inr rfl)
    | binary l op r => exact .binary (.inr rfl) rfl (.inr rfl)
    | logical l op r => exact .logical (.inr rfl) rfl (.inr rfl)
    | ref name => exact .ref rfl
    | assign name e => exact .assign rfl (.inr rfl)
    | call e paren args =>
      have hargs : ∀ es : List Expr,
          List.Forall₂ (fun e e' => e' = e ∨ e' = Expr.simplify e) es (Expr.simplifyAll es) := by
        intro es
        induction es with
        | nil => exact .nil
        | cons e es ih => exact .cons (.inr rfl) ih
      exact .call (.inr rfl) rfl (hargs args)
  stmt_layer {s s'} hs := by
    rcases hs with rfl | rfl
    · exact .refl (fun _ => rfl) (fun _ => .inl rfl) (fun _ => .inl rfl) (fun _ => .inl rfl)
        (fun _ => .inl rfl) s'
    cases s with
    | expression e => exact .expression (.inr rfl)
    | display _ e => exact .display (.inr rfl)
    | scan k names => exact .scan rfl (List.forall₂_same.mpr fun _ _ => rfl)
    | conditional keyword c b o => exact .conditional (.inr rfl) (.inr rfl) (.inr ⟨keyword, rfl⟩)
    | loop _ c b => exact .loop (.inr rfl) (.inr rfl)
    | block _ b => exact .block (.inr rfl)
    | function name params body result => exact .function (.inr rfl)
    | ret _ v =>
      cases v with
      | none => exact .leave
      | some e => exact .ret (.inr rfl)
    | declare _ name init _ =>
      cases init with
      | none => exact .declare rfl
      | some e => exact .initial rfl (.inr rfl)
  body_layer {ss ss'} hss := by
    rcases hss with rfl | rfl
    · exact .refl (fun _ => .inl rfl) (fun _ => .inl rfl) ss'
    match ss with
    | [] => exact .nil
    | s :: rest =>
      by_cases hs : ∀ keyword value, s ≠ .ret keyword value
      · rw [Stmt.simplifyAll_cons hs]
        exact .cons (.inr rfl) (.inr rfl)
      · obtain ⟨keyword, value, rfl⟩ : ∃ keyword value, s = .ret keyword value := by
          simpa only [not_forall, not_not] using hs
        exact .ret (.inr (by simp only [Stmt.simplify]))
  others_layer {o o'} ho := by
    rcases ho with rfl | ⟨keyword, rfl⟩
    · exact .refl (fun _ => .inl rfl) (fun _ => .inl rfl) (fun _ => .inl rfl) o'
    match o with
    | .mk [] [] none | .mk [] (_ :: _) none => exact .done
    | .mk [] [] (some b) | .mk [] (_ :: _) (some b) => exact .otherwise (.inr rfl)
    | .mk (c :: cs) [] last => exact .bodiless (.inr rfl) (.inr ⟨keyword, rfl⟩)
    | .mk (c :: cs) (b :: bs) last =>
      have ho : Alternatives.simplify keyword (.mk cs bs last) =
          Alternatives.nest keyword (Alternatives.simplifyLast last) cs bs := rfl
      exact .nested (o := .mk cs bs last) (.inr rfl) (.inr rfl) (.inr ⟨keyword, ho.symm⟩)
  function_refl _ := .inl rfl
  function_name hf := by rcases hf with rfl | rfl <;> rfl
  function_params {f g} hf := by
    have hparams : g.params = f.params := by rcases hf with rfl | rfl <;> rfl
    rw [hparams]
    exact List.forall₂_same.mpr fun p _ => ⟨rfl, rfl⟩
  function_body hf := by
    rcases hf with rfl | rfl
    · exact .inl rfl
    · exact .inr rfl
  function_result {f g} hf := by
    have hresult : g.result = f.result := by rcases hf with rfl | rfl <;> rfl
    rw [hresult]
    cases f.result with
    | none => exact .none
    | some t => exact .some ⟨rfl, rfl⟩

/-! ## 3. Runs -/

namespace Machine

variable {h : Host} {m m₁ m₂ : Machine}

/-- What two runs leave behind that differ as a program and its simplification do: the same output
    and input, and the same global bindings up to the simplification of functions. -/
structure Simplified (m₁ m₂ : Machine) : Prop where
  written : m₂.written = m₁.written
  input : m₂.input = m₁.input
  global (name : Text) : m₂.global? name = m₁.global? name ∨
    m₂.global? name = (m₁.global? name).map Binding.simplify

theorem any_invariant (h : Host) :
    Invariant h (fun _ _ => True) (fun _ _ => True) fun _ => True := by
  constructor
  case toConduct =>
    constructor
    case toCourse => constructor <;> intros <;> trivial
    intros
    trivial
  all_goals
    intros
    trivial

/-- The name and the place of a function stay, so it is equal to the same values. -/
theorem equal_simplification {a a' b b' : Value} (ha : a.Like simplification a')
    (hb : b.Like simplification b') : a.equal b = a'.equal b' := by
  have hleft (w : Value) : a.equal w = a'.equal w := by
    cases ha with
    | refl => rfl
    | user hf =>
      have hname : _ = _ := simplification.function_name hf
      cases w with
      | function target =>
        rcases target with _ | ⟨g, copy⟩ | n
        · rfl
        · simp only [Value.equal, Callable.same, hname]
        · rfl
      | _ => rfl
  have hright (w : Value) : w.equal b = w.equal b' := by
    cases hb with
    | refl => rfl
    | user hf =>
      have hname : _ = _ := simplification.function_name hf
      cases w with
      | function target =>
        rcases target with _ | ⟨g, copy⟩ | n
        · rfl
        · simp only [Value.equal, Callable.same, hname]
        · rfl
      | _ => rfl
  rw [hleft, hright]

theorem equalAlike_simplification : EqualAlike h simplification fun _ => True :=
  fun _ _ _ _ _ _ ha hb => equal_simplification ha hb

/-- Failures for one reason at one token are the same. -/
theorem eq_of_outcome {r r' : Except Failure Unit}
    (hr : Outcome simplification (fun _ _ => True) r r') : r' = r := by
  cases hr with
  | ok => rfl
  | error hx =>
    cases hx with
    | refl => rfl
    | fault ht =>
      cases ht
      rfl

theorem simplified_of_like (hm : m₁.Like simplification m₂) : m₁.Simplified m₂ := by
  refine ⟨hm.written_eq.symm, hm.input.symm, fun name => ?_⟩
  have hglobal := hm.global name
  generalize m₁.global? name = o at hglobal ⊢
  generalize m₂.global? name = o' at hglobal ⊢
  cases hglobal with
  | none => exact .inl rfl
  | @some b b' hb =>
    obtain ⟨type, v, isMutable⟩ := b
    obtain ⟨type', v', isMutable'⟩ := b'
    obtain ⟨htype, hvalue, hflag⟩ := hb
    cases htype
    cases hflag
    cases hvalue with
    | refl => exact .inl rfl
    | user hf =>
      rcases hf with rfl | rfl
      · exact .inl rfl
      · exact .inr rfl

/-! ### Machines that hold simple functions only -/

theorem in_execute {C : TreeClass} {n : Nat} {program : List Stmt} (hm : m.In C)
    (hprogram : C.stmts program) : (execute h n program m).2.In C := by
  have hrun := ((C.run h n).execAll hprogram m.rested hm).1
  rw [Simulation.execute_eq]
  exact hrun.of_scopes (Simulation.closing_scopes ..)

/-- A simple function is its own simplification. -/
theorem simplify_global (hm : m.In simpleTrees) (name : Text) :
    (m.global? name).map Binding.simplify = m.global? name := by
  have hvalue {v : Value} (hv : v.In simpleTrees) : v.simplify = v := by
    unfold Value.simplify
    split
    · rename_i f copy
      have hf : Stmt.simplify (.function f.name f.params f.body f.result) =
          .function f.name f.params f.body f.result := hv f copy rfl
      have hbody : Stmt.simplifyAll f.body = f.body := by
        simpa only [Stmt.simplify, Stmt.function.injEq, true_and, and_true] using hf
      unfold Function.simplify
      rw [hbody]
    · rfl
  unfold global? Scopes.lookup
  cases m.scopes.resolve 0 name with
  | none => rfl
  | some k =>
    show Option.map Binding.simplify (m.scopes.get? k name) = m.scopes.get? k name
    cases hb : m.scopes.get? k name with
    | none => rfl
    | some b =>
      have hsimple := hvalue (hm k name b hb)
      show some { b with value := b.value.simplify } = some b
      rw [hsimple]

end Machine

open Machine in
/-- **A program and its simplification do the same**: started on the same machine, each of them
    halts if the other one does, with the same result, the same output and the same input left.
    Global names mean the same afterwards, but for functions that are simplified; if the machine
    held simple functions only, these are just the simplifications of the others. -/
theorem simplify_preserves (h : Host) (program : List Stmt) (m : Machine) :
    (∀ r m₁, Halts h program m r m₁ →
      ∃ m₂, Halts h (Stmt.simplifyAll program) m r m₂ ∧ m₁.Simplified m₂) ∧
    (∀ r m₂, Halts h (Stmt.simplifyAll program) m r m₂ →
      ∃ m₁, Halts h program m r m₁ ∧ m₁.Simplified m₂) ∧
    (m.In simpleTrees → ∀ r m₁ m₂, Halts h program m r m₁ →
      Halts h (Stmt.simplifyAll program) m r m₂ →
      ∀ name, m₂.global? name = (m₁.global? name).map Binding.simplify) := by
  have hbody : simplification.body program (Stmt.simplifyAll program) := .inr rfl
  have hforth : ∀ r m₁, Halts h program m r m₁ →
      ∃ m₂, Halts h (Stmt.simplifyAll program) m r m₂ ∧ m₁.Simplified m₂ := by
    intro r m₁ hhalts
    obtain ⟨r', m₂, hhalts', hr, hm⟩ :=
      Like.halts (any_invariant h) equalAlike_simplification hbody (.refl m) trivial trivial hhalts
    obtain rfl : r' = r := eq_of_outcome hr
    exact ⟨m₂, hhalts', simplified_of_like hm⟩
  refine ⟨hforth, ?_, ?_⟩
  · intro r m₂ hhalts
    obtain ⟨r', m₁, hhalts', hr, hm⟩ := Like.halts_reverse (any_invariant h)
      equalAlike_simplification hbody (.refl m) trivial trivial hhalts
    obtain rfl : r = r' := eq_of_outcome hr
    exact ⟨m₁, hhalts', simplified_of_like hm⟩
  · intro hsimple r m₁ m₂ hhalts hhalts' name
    obtain ⟨m₂', hhalts₂, hend⟩ := hforth r m₁ hhalts
    obtain ⟨_, rfl⟩ := hhalts'.unique hhalts₂
    obtain ⟨_, steps, hrun⟩ := hhalts'
    have hin : m₂.In simpleTrees := by
      have hin := in_execute (h := h) (n := steps) hsimple (Stmt.simplifyAll_idem program)
      rw [hrun] at hin
      exact hin
    rcases hend.global name with heq | hmap
    · rw [← heq, simplify_global hin]
    · exact hmap

end FencedCode
