import FencedCode.Proofs.Machine.Conduct
import Mathlib.Data.Option.Basic
import Mathlib.Data.List.Forall2

/-!
# Trees that a run does not tell apart

A run looks at a tree layer by layer. Two trees resemble each other if their outermost layers
correspond, what is inside resembles each other again, and so on. Three things may differ: where a
pair of parentheses stands, what comes behind a `RETURN`, and whether a further condition is a
branch of its `IF` or an `IF` in the last branch.

* `ExprLayer`, `StmtLayer`, `BodyLayer`, `AlternativesLayer` -- layers that correspond, as every
  layer does to itself;
* `Resemblance` -- relations between trees that can be unfolded layer by layer;
* `Resemblance.reverse` -- the same with the sides exchanged;
* `Value.Like`, `Failure.Like`, `Outcome` -- values, failures and results that correspond;
* `Operator.binary_like`, `Native.run_eq`, `resultOf_like` -- what is done with them corresponds.
-/

namespace FencedCode

open Exec Machine

/-! ## 1. Layers -/

section Layers

variable (T : Token → Token → Prop) (E : Expr → Expr → Prop) (S : Stmt → Stmt → Prop)
  (B : List Stmt → List Stmt → Prop) (O : Alternatives → Alternatives → Prop)
  (F : Function → Function → Prop)

/-- The outermost layers of two expressions. Parentheses on one side only are no layer. -/
inductive ExprLayer : Expr → Expr → Prop where
  | literal {t t'} : T t t' → ExprLayer (.literal t) (.literal t')
  | grouping {e e' p p'} : E e e' → ExprLayer (.grouping e p) (.grouping e' p')
  | opened {e e' p} : E e e' → ExprLayer (.grouping e p) e'
  | closed {e e' p'} : E e e' → ExprLayer e (.grouping e' p')
  | unary {op op' e e'} : T op op' → E e e' → ExprLayer (.unary op e) (.unary op' e')
  | binary {l l' op op' r r'} : E l l' → T op op' → E r r' →
      ExprLayer (.binary l op r) (.binary l' op' r')
  | logical {l l' op op' r r'} : E l l' → T op op' → E r r' →
      ExprLayer (.logical l op r) (.logical l' op' r')
  | ref {name name'} : T name name' → ExprLayer (.ref name) (.ref name')
  | assign {name name' e e'} : T name name' → E e e' →
      ExprLayer (.assign name e) (.assign name' e')
  | call {e e' paren paren' args args'} : E e e' → T paren paren' → List.Forall₂ E args args' →
      ExprLayer (.call e paren args) (.call e' paren' args')

/-- The outermost layers of two statements. -/
inductive StmtLayer : Stmt → Stmt → Prop where
  | expression {e e'} : E e e' → StmtLayer (.expression e) (.expression e')
  | display {k k' e e'} : E e e' → StmtLayer (.display k e) (.display k' e')
  | scan {k k' names names'} : T k k' → List.Forall₂ T names names' →
      StmtLayer (.scan k names) (.scan k' names')
  | conditional {k k' c c' b b' o o'} : E c c' → B b b' → O o o' →
      StmtLayer (.conditional k c b o) (.conditional k' c' b' o')
  | loop {k k' c c' b b'} : E c c' → B b b' → StmtLayer (.loop k c b) (.loop k' c' b')
  | block {t t' b b'} : B b b' → StmtLayer (.block t b) (.block t' b')
  | function {name params body result name' params' body' result'} :
      F ⟨name, params, body, result⟩ ⟨name', params', body', result'⟩ →
      StmtLayer (.function name params body result) (.function name' params' body' result')
  | leave {k k'} : StmtLayer (.ret k none) (.ret k' none)
  | ret {k k' e e'} : E e e' → StmtLayer (.ret k (some e)) (.ret k' (some e'))
  | declare {type name name' isMutable} : T name name' →
      StmtLayer (.declare type name none isMutable) (.declare type name' none isMutable)
  | initial {type name name' e e' isMutable} : T name name' → E e e' →
      StmtLayer (.declare type name (some e) isMutable) (.declare type name' (some e') isMutable)

/-- The outermost layers of two lists of statements. What is behind a `RETURN` does not matter. -/
inductive BodyLayer : List Stmt → List Stmt → Prop where
  | nil : BodyLayer [] []
  | cons {s s' ss ss'} : S s s' → B ss ss' → BodyLayer (s :: ss) (s' :: ss')
  | ret {k k' v v' ss ss'} : S (.ret k v) (.ret k' v') →
      BodyLayer (.ret k v :: ss) (.ret k' v' :: ss')

/-- The outermost layers of two lists of alternatives. A further condition may be the only
    statement of the last alternative instead. -/
inductive AlternativesLayer : Alternatives → Alternatives → Prop where
  | done {bs bs'} : AlternativesLayer (.mk [] bs none) (.mk [] bs' none)
  | otherwise {bs bs' b b'} : B b b' →
      AlternativesLayer (.mk [] bs (some b)) (.mk [] bs' (some b'))
  | elseIf {c c' b b' o o'} : E c c' → B b b' → O o o' →
      AlternativesLayer (.elseIf c b o) (.elseIf c' b' o')
  | nested {c c' b b' o o' k'} : E c c' → B b b' → O o o' →
      AlternativesLayer (.elseIf c b o) (.otherwise [.conditional k' c' b' o'])
  | unnested {c c' b b' o o' k} : E c c' → B b b' → O o o' →
      AlternativesLayer (.otherwise [.conditional k c b o]) (.elseIf c' b' o')
  /-- A condition that has no body. -/
  | bodiless {c c' cs cs' last last'} : E c c' → O (.mk cs [] last) (.mk cs' [] last') →
      AlternativesLayer (.mk (c :: cs) [] last) (.mk (c' :: cs') [] last')

end Layers

/-- Two type words for one type. -/
structure TypeName.Like (T : Token → Token → Prop) (t t' : TypeName) : Prop where
  type : t.type = t'.type
  token : T t.token t'.token

/-- Two parameters of one type. -/
structure Param.Like (T : Token → Token → Prop) (p p' : Param) : Prop where
  type : p.type.type = p'.type.type
  name : T p.name p'.name

/-! ### Every layer corresponds to itself -/

section Reflexive

variable {T : Token → Token → Prop} {E : Expr → Expr → Prop} {S : Stmt → Stmt → Prop}
  {B : List Stmt → List Stmt → Prop} {O : Alternatives → Alternatives → Prop}
  {F : Function → Function → Prop}

theorem ExprLayer.refl (hT : ∀ t, T t t) (hE : ∀ e, E e e) (e : Expr) : ExprLayer T E e e := by
  cases e with
  | literal t => exact .literal (hT t)
  | grouping e _ => exact .grouping (hE e)
  | unary op e => exact .unary (hT op) (hE e)
  | binary l op r => exact .binary (hE l) (hT op) (hE r)
  | logical l op r => exact .logical (hE l) (hT op) (hE r)
  | ref name => exact .ref (hT name)
  | assign name e => exact .assign (hT name) (hE e)
  | call e paren args => exact .call (hE e) (hT paren) (List.forall₂_same.mpr fun e _ => hE e)

theorem StmtLayer.refl (hT : ∀ t, T t t) (hE : ∀ e, E e e) (hB : ∀ ss, B ss ss) (hO : ∀ o, O o o)
    (hF : ∀ f, F f f) (s : Stmt) : StmtLayer T E B O F s s := by
  cases s with
  | expression e => exact .expression (hE e)
  | display _ e => exact .display (hE e)
  | scan k names => exact .scan (hT k) (List.forall₂_same.mpr fun t _ => hT t)
  | conditional _ c b o => exact .conditional (hE c) (hB b) (hO o)
  | loop _ c b => exact .loop (hE c) (hB b)
  | block _ b => exact .block (hB b)
  | function name params body result => exact .function (hF _)
  | ret _ v =>
    cases v with
    | none => exact .leave
    | some e => exact .ret (hE e)
  | declare _ name init _ =>
    cases init with
    | none => exact .declare (hT name)
    | some e => exact .initial (hT name) (hE e)

theorem BodyLayer.refl (hS : ∀ s, S s s) (hB : ∀ ss, B ss ss) : ∀ ss, BodyLayer S B ss ss
  | [] => .nil
  | s :: ss => .cons (hS s) (hB ss)

theorem AlternativesLayer.refl (hE : ∀ e, E e e) (hB : ∀ ss, B ss ss) (hO : ∀ o, O o o) :
    ∀ o, AlternativesLayer E B O o o
  | .mk [] _ none => .done
  | .mk [] _ (some b) => .otherwise (hB b)
  | .mk (c :: cs) (b :: bs) last => .elseIf (hE c) (hB b) (hO (.mk cs bs last))
  | .mk (c :: cs) [] last => .bodiless (hE c) (hO (.mk cs [] last))

end Reflexive

/-! ## 2. Resemblances -/

/-- Relations between trees that can be unfolded layer by layer. -/
structure Resemblance where
  token : Token → Token → Prop
  expr : Expr → Expr → Prop
  stmt : Stmt → Stmt → Prop
  body : List Stmt → List Stmt → Prop
  others : Alternatives → Alternatives → Prop
  function : Function → Function → Prop
  token_refl (t : Token) : token t t
  token_kind {t t' : Token} : token t t' → t.kind = t'.kind
  token_lexeme {t t' : Token} : token t t' → t.lexeme = t'.lexeme
  token_literal {t t' : Token} : token t t' → t.literal = t'.literal
  /-- A place is known on both sides or on none. -/
  token_line {t t' : Token} : token t t' → (t.line = 0 ↔ t'.line = 0)
  expr_layer {e e' : Expr} : expr e e' → ExprLayer token expr e e'
  stmt_layer {s s' : Stmt} : stmt s s' → StmtLayer token expr body others function s s'
  body_layer {ss ss' : List Stmt} : body ss ss' → BodyLayer stmt body ss ss'
  others_layer {o o' : Alternatives} : others o o' → AlternativesLayer expr body others o o'
  function_refl (f : Function) : function f f
  function_name {f g : Function} : function f g → token f.name g.name
  function_params {f g : Function} : function f g →
    List.Forall₂ (Param.Like token) f.params g.params
  function_body {f g : Function} : function f g → body f.body g.body
  function_result {f g : Function} : function f g →
    Option.Rel (TypeName.Like token) f.result g.result

section Reverse

variable {T : Token → Token → Prop} {E : Expr → Expr → Prop} {S : Stmt → Stmt → Prop}
  {B : List Stmt → List Stmt → Prop} {O : Alternatives → Alternatives → Prop}
  {F : Function → Function → Prop}

theorem ExprLayer.reverse {e e' : Expr} (h : ExprLayer T E e e') :
    ExprLayer (flip T) (flip E) e' e := by
  cases h with
  | literal ht => exact .literal ht
  | grouping he => exact .grouping he
  | opened he => exact .closed he
  | closed he => exact .opened he
  | unary hop he => exact .unary hop he
  | binary hl hop hr => exact .binary hl hop hr
  | logical hl hop hr => exact .logical hl hop hr
  | ref hname => exact .ref hname
  | assign hname he => exact .assign hname he
  | call he hparen hargs => exact .call he hparen hargs.flip

theorem StmtLayer.reverse {s s' : Stmt} (h : StmtLayer T E B O F s s') :
    StmtLayer (flip T) (flip E) (flip B) (flip O) (flip F) s' s := by
  cases h with
  | expression he => exact .expression he
  | display he => exact .display he
  | scan hk hnames => exact .scan hk hnames.flip
  | conditional hc hb ho => exact .conditional hc hb ho
  | loop hc hb => exact .loop hc hb
  | block hb => exact .block hb
  | function hf => exact .function hf
  | leave => exact .leave
  | ret he => exact .ret he
  | declare hname => exact .declare hname
  | initial hname he => exact .initial hname he

theorem BodyLayer.reverse {ss ss' : List Stmt} (h : BodyLayer S B ss ss') :
    BodyLayer (flip S) (flip B) ss' ss := by
  cases h with
  | nil => exact .nil
  | cons hs hss => exact .cons hs hss
  | ret hs => exact .ret hs

theorem AlternativesLayer.reverse {o o' : Alternatives} (h : AlternativesLayer E B O o o') :
    AlternativesLayer (flip E) (flip B) (flip O) o' o := by
  cases h with
  | done => exact .done
  | otherwise hb => exact .otherwise hb
  | elseIf hc hb ho => exact .elseIf hc hb ho
  | nested hc hb ho => exact .unnested hc hb ho
  | unnested hc hb ho => exact .nested hc hb ho
  | bodiless hc ho => exact .bodiless hc ho

theorem TypeName.Like.reverse {t t' : TypeName} (h : t.Like T t') : t'.Like (flip T) t :=
  ⟨h.type.symm, h.token⟩

theorem Param.Like.reverse {p p' : Param} (h : p.Like T p') : p'.Like (flip T) p :=
  ⟨h.type.symm, h.name⟩

end Reverse

namespace Resemblance

/-- The resemblance with its sides exchanged. -/
def reverse (R : Resemblance) : Resemblance where
  token := flip R.token
  expr := flip R.expr
  stmt := flip R.stmt
  body := flip R.body
  others := flip R.others
  function := flip R.function
  token_refl := R.token_refl
  token_kind ht := (R.token_kind ht).symm
  token_lexeme ht := (R.token_lexeme ht).symm
  token_literal ht := (R.token_literal ht).symm
  token_line ht := (R.token_line ht).symm
  expr_layer he := (R.expr_layer he).reverse
  stmt_layer hs := (R.stmt_layer hs).reverse
  body_layer hss := (R.body_layer hss).reverse
  others_layer ho := (R.others_layer ho).reverse
  function_refl := R.function_refl
  function_name := R.function_name
  function_params hf := ((R.function_params hf).imp fun _ _ hp => hp.reverse).flip
  function_body := R.function_body
  function_result {f g} hf := by
    have hresult := R.function_result hf
    generalize f.result = r at hresult
    generalize g.result = r' at hresult
    cases hresult with
    | none => exact .none
    | some ht => exact .some ht.reverse

end Resemblance

/-! ## 3. Values and failures -/

section Values

variable (R : Resemblance)

/-- Equal values, or functions that resemble each other. -/
inductive Value.Like : Value → Value → Prop where
  | refl (v : Value) : Like v v
  | user {f g : Function} {copy : Nat} : R.function f g →
      Like (.function (some (.user f copy))) (.function (some (.user g copy)))

/-- Statements that end in one way. -/
inductive Completion.Like : Completion → Completion → Prop where
  | normal : Like .normal .normal
  | returning {v v' : Value} : v.Like R v' → Like (.returning v) (.returning v')

/-- Failures for one reason, at tokens that correspond. -/
inductive Failure.Like : Failure → Failure → Prop where
  | refl (x : Failure) : Like x x
  | fault {c : Cause} {t t' : Token} : R.token t t' → Like (.fault ⟨c, t⟩) (.fault ⟨c, t'⟩)

/-- Results that correspond, or failures for one reason. -/
inductive Outcome {α β : Type} (A : α → β → Prop) : Except Failure α → Except Failure β → Prop where
  | ok {a : α} {b : β} : A a b → Outcome A (.ok a) (.ok b)
  | error {x x' : Failure} : x.Like R x' → Outcome A (.error x) (.error x')

end Values

variable {R : Resemblance}

namespace Value.Like

variable {v v' : Value}

theorem type_eq (h : v.Like R v') : v.type = v'.type := by
  cases h <;> rfl

theorem isTruthy_eq (h : v.Like R v') : v.isTruthy = v'.isTruthy := by
  cases h <;> rfl

theorem text_eq (h : v.Like R v') : v.text = v'.text := by
  cases h with
  | refl => rfl
  | @user f g _ hf =>
    have hname : f.name.lexeme = g.name.lexeme := R.token_lexeme (R.function_name hf)
    show utf8 "<fn " ++ f.name.lexeme ++ utf8 ">" = utf8 "<fn " ++ g.name.lexeme ++ utf8 ">"
    rw [hname]

/-- A value that is no function has no other like it. -/
theorem eq_of_type (h : v.Like R v') (hv : v.type ≠ .function) : v' = v := by
  cases h with
  | refl => rfl
  | user hf => exact absurd rfl hv

theorem reverse (h : v.Like R v') : v'.Like R.reverse v := by
  cases h with
  | refl => exact .refl v
  | user hf => exact .user hf

/-- What can be called on one side can be called on the other. -/
theorem callable (h : v.Like R v') :
    (v.callable? = none ∧ v'.callable? = none) ∨
      (∃ k, v.callable? = some (.native k) ∧ v'.callable? = some (.native k)) ∨
      ∃ f g copy, v.callable? = some (.user f copy) ∧ v'.callable? = some (.user g copy) ∧
        R.function f g := by
  cases h with
  | user hf => exact .inr (.inr ⟨_, _, _, rfl, rfl, hf⟩)
  | refl =>
    rcases hc : v.callable? with _ | f | k
    · exact .inl ⟨rfl, rfl⟩
    · exact .inr (.inr ⟨f, f, _, rfl, rfl, R.function_refl f⟩)
    · exact .inr (.inl ⟨k, rfl, rfl⟩)

end Value.Like

namespace Failure.Like

variable {x x' : Failure}

theorem locate (h : x.Like R x') {t t' : Token} (ht : R.token t t') :
    (x.locate t).Like R (x'.locate t') := by
  have hfault {c : Cause} {u u' : Token} (hu : R.token u u') :
      Failure.Like R ((Failure.fault ⟨c, u⟩).locate t) ((Failure.fault ⟨c, u'⟩).locate t') := by
    show Failure.Like R (.fault (if u.line = 0 then ⟨c, t⟩ else ⟨c, u⟩))
      (.fault (if u'.line = 0 then ⟨c, t'⟩ else ⟨c, u'⟩))
    have hline := R.token_line hu
    by_cases hzero : u.line = 0
    · rw [if_pos hzero, if_pos (hline.mp hzero)]
      exact .fault ht
    · rw [if_neg hzero, if_neg fun h => hzero (hline.mpr h)]
      exact .fault hu
  cases h with
  | fault hu => exact hfault hu
  | refl =>
    cases x with
    | fault f => exact hfault (R.token_refl f.token)
    | _ => exact .refl _

theorem eq_exhausted (h : x.Like R x') : x = .exhausted ↔ x' = .exhausted := by
  cases h with
  | refl => exact Iff.rfl
  | fault _ => exact ⟨nofun, nofun⟩

theorem reverse (h : x.Like R x') : x'.Like R.reverse x := by
  cases h with
  | refl => exact .refl x
  | fault ht => exact .fault ht

end Failure.Like

theorem Outcome.fault {α β : Type} {A : α → β → Prop} {c : Cause} {t t' : Token}
    (ht : R.token t t') : Outcome R A (.error (.fault ⟨c, t⟩)) (.error (.fault ⟨c, t'⟩)) :=
  .error (.fault ht)

theorem Outcome.reverse {α β : Type} {A : α → β → Prop} {r : Except Failure α}
    {r' : Except Failure β} (h : Outcome R A r r') : Outcome R.reverse (flip A) r' r := by
  cases h with
  | ok ha => exact .ok ha
  | error hx => exact .error hx.reverse

/-- A result that does not look at the other side. -/
theorem Outcome.refl {α : Type} {A : α → α → Prop} (hA : ∀ a, A a a) (r : Except Failure α) :
    Outcome R A r r := by
  cases r with
  | ok a => exact .ok (hA a)
  | error x => exact .error (.refl x)

/-! ## 4. What is done with values -/

namespace Operator

variable {op op' : Token} {v v' : Value}

/-- Behind the operators that work on any two values come those that work on two numbers. -/
theorem binary_of_ne (hjoin : op.kind ≠ .ampersand) (heq : op.kind ≠ .equalEqual)
    (hne : op.kind ≠ .notEqual) (a b : Value) :
    binary op a b = match a, b with
      | .int m, .int n => onInts op m n
      | .float x, .float y => onFloats op x y
      | a, b => fault (.operands a.type b.type) op := by
  unfold binary
  split
  · rename_i hk
    exact absurd hk hjoin
  · rename_i hk
    exact absurd hk heq
  · rename_i hk
    exact absurd hk hne
  · rfl

theorem onInts_like (hop : R.token op op') (a b : Int64) :
    Outcome R (Value.Like R) (onInts op a b) (onInts op' a b) := by
  have hfault {c : Cause} : Outcome R (Value.Like R) (fault c op) (fault c op') := .fault hop
  have hok (w : Value) : Outcome R (Value.Like R) (.ok w) (.ok w) := .ok (.refl w)
  unfold onInts
  rw [← R.token_kind hop]
  cases op.kind with
  | slash | percent =>
    dsimp only
    split
    · exact hfault
    · exact hok _
  | plus | minus | star | greater | greaterEqual | less | lessEqual => exact hok _
  | _ => exact .error (.refl _)

theorem onFloats_like (hop : R.token op op') (a b : Float) :
    Outcome R (Value.Like R) (onFloats op a b) (onFloats op' a b) := by
  have hfault {c : Cause} : Outcome R (Value.Like R) (fault c op) (fault c op') := .fault hop
  have hok (w : Value) : Outcome R (Value.Like R) (.ok w) (.ok w) := .ok (.refl w)
  unfold onFloats
  rw [← R.token_kind hop]
  cases op.kind with
  | slash | percent =>
    dsimp only
    split
    · exact hfault
    · exact hok _
  | plus | minus | star | greater | greaterEqual | less | lessEqual => exact hok _
  | _ => exact .error (.refl _)

theorem unary_like (hop : R.token op op') (hv : v.Like R v') :
    Outcome R (Value.Like R) (unary op v) (unary op' v') := by
  have hfault {c : Cause} : Outcome R (Value.Like R) (fault c op) (fault c op') := .fault hop
  have hok (w : Value) : Outcome R (Value.Like R) (.ok w) (.ok w) := .ok (.refl w)
  unfold unary
  rw [← R.token_kind hop]
  cases op.kind with
  | kwNot =>
    dsimp only
    rw [hv.isTruthy_eq]
    exact hok _
  | minus | plus =>
    cases hv with
    | user hf => exact hfault
    | refl =>
      cases v with
      | int n => exact hok _
      | float x => exact hok _
      | _ => exact hfault
  | _ => exact .error (.refl _)

theorem binary_like {a a' b b' : Value} (hop : R.token op op') (ha : a.Like R a') (hb : b.Like R b')
    (hequal : a.equal b = a'.equal b') :
    Outcome R (Value.Like R) (binary op a b) (binary op' a' b') := by
  have hok (w : Value) : Outcome R (Value.Like R) (.ok w) (.ok w) := .ok (.refl w)
  have hkind : op.kind = op'.kind := R.token_kind hop
  by_cases hjoin : op.kind = .ampersand
  · unfold binary
    rw [← hkind, hjoin, ha.text_eq, hb.text_eq]
    exact hok _
  by_cases heq : op.kind = .equalEqual
  · unfold binary
    rw [← hkind, heq, hequal]
    exact hok _
  by_cases hne : op.kind = .notEqual
  · unfold binary
    rw [← hkind, hne, hequal]
    exact hok _
  have hfault {t u : ValueType} : Outcome R (Value.Like R) (fault (.operands t u) op)
      (fault (.operands t u) op') := .fault hop
  rw [binary_of_ne hjoin heq hne, binary_of_ne (hkind ▸ hjoin) (hkind ▸ heq) (hkind ▸ hne)]
  cases ha with
  | user _ =>
    dsimp only
    rw [hb.type_eq]
    exact hfault
  | refl =>
    cases a with
    | int m =>
      cases hb with
      | user _ => exact hfault
      | refl =>
        cases b with
        | int n => exact onInts_like hop m n
        | _ => exact hfault
    | float x =>
      cases hb with
      | user _ => exact hfault
      | refl =>
        cases b with
        | float y => exact onFloats_like hop x y
        | _ => exact hfault
    | _ =>
      dsimp only
      rw [hb.type_eq]
      exact hfault
end Operator

namespace Native

variable {v v' : Value}

theorem floatArg_eq (k : Native) (hv : v.Like R v') : k.floatArg v = k.floatArg v' := by
  cases hv <;> rfl

/-- Two lists whose entries correspond both have one at an index, or none of them has. -/
theorem entry_like {args args' : List Value} (hargs : List.Forall₂ (Value.Like R) args args')
    (i : Nat) : (∃ v v', entry args i = .ok v ∧ entry args' i = .ok v' ∧ v.Like R v') ∨
      entry args i = .error .outOfRange ∧ entry args' i = .error .outOfRange := by
  induction hargs generalizing i with
  | nil => exact .inr ⟨rfl, rfl⟩
  | cons hv _ ih =>
    cases i with
    | zero => exact .inl ⟨_, _, rfl, rfl, hv⟩
    | succ i => exact ih i

/-- Steps that begin with an argument and then do the same are the same. -/
theorem bind_entry_eq {α : Type} {args args' : List Value}
    (hargs : List.Forall₂ (Value.Like R) args args') (i : Nat) {f g : Value → Except Failure α}
    (hfg : ∀ {v v'}, v.Like R v' → f v = g v') : (entry args i >>= f) = (entry args' i >>= g) := by
  rcases entry_like hargs i with ⟨v, v', hv, hv', hlike⟩ | ⟨hv, hv'⟩
  · rw [hv, hv']
    exact hfg hlike
  · rw [hv, hv']
    rfl

/-- **Natives see no difference**, except for the one that returns its argument. -/
theorem run_eq (h : Host) {k : Native} {args args' : List Value}
    (hargs : List.Forall₂ (Value.Like R) args args') (hk : k ≠ .probe) :
    k.run h args = k.run h args' := by
  have honFloat (f : Float → Float) : k.onFloat f args = k.onFloat f args' :=
    congrArg lift (bind_entry_eq hargs 0 fun hv => by rw [floatArg_eq k hv])
  have honFloats (f : Float → Float → Float) : k.onFloats f args = k.onFloats f args' := by
    refine congrArg lift (bind_entry_eq hargs 0 fun hv => ?_)
    rw [floatArg_eq k hv]
    refine bind_congr fun x => bind_entry_eq hargs 1 fun hw => ?_
    rw [floatArg_eq k hw]
  cases k with
  | clock => rfl
  | ceil | floor | sqrt | abs => exact honFloat _
  | power => exact honFloats _
  | scanString =>
    show prompt args = prompt args'
    unfold prompt
    rcases entry_like hargs 0 with ⟨v, v', hv, hv', hlike⟩ | ⟨hv, hv'⟩
    · rw [hv, hv', lift_ok_bind, lift_ok_bind, hlike.text_eq]
    · rw [hv, hv']
  | probe => exact absurd rfl hk
  | counter name arity serial =>
    show pure (Value.int (Int64.ofNat args.length)) = pure (.int (Int64.ofNat args'.length))
    rw [hargs.length_eq]

end Native

namespace Machine

/-- Arguments that fit their parameters are no functions, so the frames of two calls are equal. -/
theorem bindParams_eq {ps ps' : List Param} {vs vs' : List Value} (f : Frame)
    (hps : List.Forall₂ (Param.Like R.token) ps ps') (hvs : List.Forall₂ (Value.Like R) vs vs') :
    bindParams ps vs f = bindParams ps' vs' f := by
  induction hps generalizing vs vs' f with
  | nil => rfl
  | @cons p p' ps ps' hp _ ih =>
    cases hvs with
    | nil => rfl
    | @cons v v' vs vs' hv hvs =>
      have hname : p.name.lexeme = p'.name.lexeme := R.token_lexeme hp.name
      simp only [bindParams]
      rw [hp.type, hname, hv.type_eq, hv.text_eq]
      by_cases htype : v'.type ≠ .base p'.type.type
      · rw [if_pos htype, if_pos htype]
      · have hbase : v.type ≠ .function := by
          rw [hv.type_eq, Decidable.not_not.mp htype]
          intro hfunction
          cases hfunction
        rw [if_neg htype, if_neg htype, hv.eq_of_type hbase]
        exact ih _ hvs

/-- Calls that complete in one way yield values that correspond, or object to them. -/
theorem resultOf_like {f g : Function} (hf : R.function f g) {c c' : Completion}
    (hc : c.Like R c') : Outcome R (Value.Like R) (resultOf f c) (resultOf g c') := by
  have hname : R.token f.name g.name := R.function_name hf
  have hresult := R.function_result hf
  unfold resultOf
  generalize f.result = r at hresult ⊢
  generalize g.result = r' at hresult ⊢
  cases hresult with
  | none =>
    cases hc with
    | normal => exact .ok (.refl _)
    | @returning v _ hv =>
      cases hv with
      | user _ => exact .fault hname
      | refl =>
        cases v with
        | null => exact .ok (.refl _)
        | _ => exact .fault hname
  | @some t t' ht =>
    cases hc with
    | normal =>
      dsimp only
      rw [ht.type]
      exact .fault ht.token
    | returning hv =>
      dsimp only
      rw [ht.type, hv.type_eq]
      split
      · exact .ok hv
      · exact .fault hname

end Machine

end FencedCode
