import FencedCode.Proofs.Syntax.Mirrored
import FencedCode.Proofs.Syntax.Parallel
import FencedCode.Proofs.Token.Lexemes
import FencedCode.Proofs.Token.Standing

/-!
# The layout of a text

Blanks, comments and line breaks between tokens decide where the tokens stand and nothing else. The
grammar looks at places only once: what stands behind a `RETURN` is its value if it is on the same
line. So two texts with the same tokens are read alike, if behind each `RETURN` the line ends in
both of them or in none. And the parser takes each token of a tree from the text; it makes none up.

* `Reflects` -- trees that are the same up to `g`, the first of them drawn from tokens with a
  property;
* `reflection`, `Script.parallel_ofRule` -- **the script of a rule runs in parallel to itself**, on
  tokens and trees that are so related;
* `Mirrors`, `Rule.mirrors` -- **so does every rule**, by induction on the room;
* `ret_mirrors` -- the one rule that looks at places;
* `Program.drawn_ofText` -- **the tree of a text is drawn from its tokens**;
* `Program.mirrors_ofText` -- **one tree and the same complaints for all layouts** of a text.
-/

namespace FencedCode

open Parse Grammar

/-! ## 1. Trees that reflect each other -/

/-- The same up to what is `kept`, and the first one has the property. -/
structure Reflects {α β : Type} (kept : α → β) (A : α → Prop) (a b : α) : Prop where
  same : kept a = kept b
  drawn : A a

/-- Nothing reflects nothing. -/
theorem Reflects.none {α β : Type} {kept : α → β} {A : α → Prop} :
    Reflects (Option.map kept) (fun o => ∀ a ∈ o, A a) none none :=
  ⟨rfl, fun _ h => absurd h (Option.not_mem_none _)⟩

/-- Entry by entry. -/
abbrev ReflectsAll {α β : Type} (kept : α → β) (A : α → Prop) : List α → List α → Prop :=
  Reflects (List.map kept) fun as => ∀ a ∈ as, A a

section Lists

variable {α β : Type} {kept : α → β} {A : α → Prop}

theorem ReflectsAll.nil : ReflectsAll kept A [] [] :=
  ⟨rfl, List.forall_mem_nil A⟩

theorem ReflectsAll.cons {a b : α} {as bs : List α} (h : Reflects kept A a b)
    (hs : ReflectsAll kept A as bs) : ReflectsAll kept A (a :: as) (b :: bs) :=
  ⟨by rw [List.map_cons, List.map_cons, h.same, hs.same],
    List.forall_mem_cons.mpr ⟨h.drawn, hs.drawn⟩⟩

end Lists

section Trees

variable (g : Position → Position) (S : Token → Prop)

/-- The same token up to `g`, which has the property. -/
abbrev Token.Reflects : Token → Token → Prop :=
  FencedCode.Reflects (Token.mapPos g) S

/-- The same expression up to `g`, drawn from tokens with the property. -/
abbrev Expr.Reflects : Expr → Expr → Prop :=
  FencedCode.Reflects (Expr.mapPos g) (Expr.Drawn S)

/-- The same statement up to `g`, drawn from tokens with the property. -/
abbrev Stmt.Reflects : Stmt → Stmt → Prop :=
  FencedCode.Reflects (Stmt.mapPos g) (Stmt.Drawn S)

/-- The same statements up to `g`, drawn from tokens with the property. -/
abbrev Stmt.AllReflect : List Stmt → List Stmt → Prop :=
  FencedCode.Reflects (Stmt.mapPosAll g) (Stmt.AllDrawn S)

/-- The same alternatives up to `g`, drawn from tokens with the property. -/
abbrev Alternatives.Reflects : Alternatives → Alternatives → Prop :=
  FencedCode.Reflects (Alternatives.mapPos g) (Alternatives.Drawn S)

end Trees

variable {g : Position → Position} {S : Token → Prop}

theorem Token.Reflects.kind {t t' : Token} (h : t.Reflects g S t') : t.kind = t'.kind :=
  Token.kind_eq h.same

namespace Stmt

theorem AllReflect.nil : AllReflect g S [] [] :=
  ⟨rfl, trivial⟩

theorem AllReflect.cons {s s' : Stmt} {ss ss' : List Stmt} (h : s.Reflects g S s')
    (hs : AllReflect g S ss ss') : AllReflect g S (s :: ss) (s' :: ss') :=
  ⟨by simp only [mapPosAll, h.same, hs.same], h.drawn, hs.drawn⟩

theorem AllReflect.append {ss ss' ts ts' : List Stmt} (hss : AllReflect g S ss ss')
    (hts : AllReflect g S ts ts') : AllReflect g S (ss ++ ts) (ss' ++ ts') :=
  ⟨by rw [mapPosAll_append, mapPosAll_append, hss.same, hts.same], hss.drawn.append hts.drawn⟩

end Stmt

theorem Expr.name?_mapPos (e : Expr) : (e.mapPos g).name? = e.name?.map (Token.mapPos g) := by
  cases e <;> simp only [mapPos, name?, Option.map_some, Option.map_none]

namespace Grammar

/-! ## 2. The scripts of the rules -/

namespace Rule

variable (g : Position → Position) (S : Token → Prop)

/-- What a rule is given on both sides. -/
def Takes : (r : Rule) → r.Given → r.Given → Prop
  | .chain _ | .calls => Expr.Reflects g S
  | _ => Eq

/-- What a rule gives on both sides. -/
def Gives : (r : Rule) → r.Result → r.Result → Prop
  | .expression | .operand _ | .chain _ | .unary | .calls | .primary | .condition =>
    Expr.Reflects g S
  | .arguments => ReflectsAll (Expr.mapPos g) (Expr.Drawn S)
  | .parameters => ReflectsAll (Param.mapPos g) (Param.Drawn S)
  | .names => ReflectsAll (Token.mapPos g) S
  | .alternatives => Alternatives.Reflects g S
  | .display | .scan | .ret | .statement | .conditional | .loop | .block | .function =>
    Stmt.Reflects g S
  | .declarators | .declaration | .declarations | .statements | .fenced | .body | .functions
  | .program => Stmt.AllReflect g S
  | .synchronize | .boundary | .skipFunction => fun _ _ => True

end Rule

/-- The same tokens up to `g`, with trees that reflect each other. The rule that looks at places is
    left out. -/
def reflection (g : Position → Position) (S : Token → Prop) : Pairing where
  token := Token.Reflects g S
  call r given given' := r ≠ .ret ∧ r.Takes g S given given'
  result r := r.Gives g S
  kind h := h.kind

namespace Script

section Steps

variable {α : Type} {R : α → α → Prop}

theorem reflects_peek {f f' : Token → Script α}
    (hf : ∀ t t', t.Reflects g S t' → t.kind = t'.kind →
      Parallel (reflection g S) R (f t) (f' t')) :
    Parallel (reflection g S) R (peek >>= f) (peek >>= f') :=
  parallel_peek hf

theorem reflects_take : Parallel (reflection g S) (Token.Reflects g S) take take :=
  parallel_take

theorem reflects_expect (k : Kind) (e : SyntaxError) :
    Parallel (reflection g S) (Token.Reflects g S) (expect k e) (expect k e) :=
  parallel_expect k e

theorem reflects_rule {r : Rule} (hr : r ≠ .ret) {given given' : r.Given}
    (h : r.Takes g S given given') :
    Parallel (reflection g S) (r.Gives g S) (rule r given) (rule r given') :=
  parallel_rule ⟨hr, h⟩

theorem reflects_expr : Parallel (reflection g S) (Expr.Reflects g S) (rule .expression ())
    (rule .expression ()) :=
  reflects_rule (r := .expression) (by decide) rfl

theorem reflects_typeWord (e : SyntaxError) : Parallel (reflection g S)
    (Reflects (TypeName.mapPos g) (TypeName.Drawn S)) (typeWord e) (typeWord e) :=
  parallel_typeWord e fun type _ _ (ht : Token.Reflects g S _ _) =>
    ⟨congrArg (TypeName.mk type) ht.same, ht.drawn⟩

theorem reflects_resultType : Parallel (reflection g S)
    (Reflects (Option.map (TypeName.mapPos g)) fun o => ∀ t ∈ o, t.Drawn S) resultType
    resultType := by
  refine parallel_resultType .none fun type t t' (ht : t.Reflects g S t') => ⟨?_, ?_⟩
  · exact congrArg (fun u => some (TypeName.mk type u)) ht.same
  · rintro _ ⟨⟩
    exact ht.drawn

theorem reflects_initializer : Parallel (reflection g S)
    (Reflects (Option.map (Expr.mapPos g)) fun o => ∀ e ∈ o, e.Drawn S) initializer
    initializer := by
  refine parallel_accept_bind .assign fun _ => .ite (fun _ => ?_) fun _ => .done .none
  refine reflects_expr.bind fun e e' he => .done ⟨congrArg some he.same, ?_⟩
  rintro _ ⟨⟩
  exact he.drawn

end Steps

/-! ### Expressions -/

/-- What is on the left of the sign of an assignment may be a name or not. -/
theorem parallel_assigned {e e' : Expr} {op op' : Token} {value value' : Expr}
    (hop : op.Reflects g S op') (hvalue : value.Reflects g S value') : e.Reflects g S e' →
    Parallel (reflection g S) (Expr.Reflects g S)
      (match e with
      | .ref name => pure (.assign name value)
      | _ => warn op .assignmentTarget >>= fun _ => pure e)
      (match e' with
      | .ref name => pure (.assign name value')
      | _ => warn op' .assignmentTarget >>= fun _ => pure e') := by
  intro he
  have hassigned (e : Expr) (op : Token) (value : Expr) : (match e with
      | .ref name => pure (.assign name value)
      | _ => warn op .assignmentTarget >>= fun _ => pure e : Script Expr) =
      e.name?.elim (warn op .assignmentTarget >>= fun _ => pure e) fun name =>
        pure (.assign name value) := by
    cases e <;> rfl
  have hname : e.name?.map (Token.mapPos g) = e'.name?.map (Token.mapPos g) := by
    rw [← e.name?_mapPos, he.same, e'.name?_mapPos]
  rw [hassigned, hassigned]
  rcases hn : e.name? with _ | name <;> rcases hn' : e'.name? with _ | name' <;>
    rw [hn, hn'] at hname
  · exact parallel_warn hop _ (.done he)
  · cases hname
  · cases hname
  · refine .done ⟨?_, he.drawn.name hn, hvalue.drawn⟩
    simp only [Expr.mapPos, Option.some.inj hname, hvalue.same]

theorem parallel_expression : Parallel (reflection g S) (Expr.Reflects g S)
    (ofRule .expression ()) (ofRule .expression ()) := by
  refine (reflects_rule (r := .operand _) (by simp) rfl).bind fun e e' he => ?_
  refine reflects_peek fun op op' hop hkind => ?_
  rw [hkind]
  refine .ite (fun _ => parallel_pass (reflects_expr.bind fun value value' hvalue => ?_))
    fun _ => .done he
  exact parallel_assigned hop hvalue he

theorem parallel_operand (o : Option Level) : Parallel (reflection g S) (Expr.Reflects g S)
    (ofRule (.operand o) ()) (ofRule (.operand o) ()) := by
  cases o with
  | none => exact reflects_rule (r := .unary) (by decide) rfl
  | some l =>
    exact (reflects_rule (r := .operand _) (by simp) rfl).bind fun left left' hleft =>
      reflects_rule (r := .chain l) (by simp) hleft

theorem parallel_chain (l : Level) {left left' : Expr} (hleft : left.Reflects g S left') :
    Parallel (reflection g S) (Expr.Reflects g S) (ofRule (.chain l) left)
      (ofRule (.chain l) left') := by
  refine reflects_peek fun op op' hop hkind => ?_
  rw [hkind]
  refine .ite (fun hl => parallel_pass ?_) fun _ => .done hleft
  rw [← hkind] at hl
  refine (reflects_rule (r := .operand _) (by simp) rfl).bind fun right right' hright => ?_
  refine reflects_rule (r := .chain l) (by simp) ⟨?_, Expr.drawn_combine hop.drawn hl hleft.drawn
    hright.drawn⟩
  rw [Level.mapPos_combine, Level.mapPos_combine, hleft.same, hop.same, hright.same]

theorem parallel_unary :
    Parallel (reflection g S) (Expr.Reflects g S) (ofRule .unary ()) (ofRule .unary ()) := by
  refine reflects_peek fun op op' hop hkind => ?_
  rw [hkind]
  refine .ite (fun hsign => parallel_pass ?_) fun _ => ?_
  · rw [← hkind] at hsign
    refine (reflects_rule (r := .unary) (by decide) rfl).bind fun e e' he => .done ⟨?_, ?_⟩
    · simp only [Expr.mapPos, hop.same, he.same]
    · exact ⟨hop.drawn, hsign, he.drawn⟩
  · exact (reflects_rule (r := .primary) (by decide) rfl).bind fun e e' he =>
      reflects_rule (r := .calls) (by decide) he

theorem parallel_calls {callee callee' : Expr} (hcallee : callee.Reflects g S callee') :
    Parallel (reflection g S) (Expr.Reflects g S) (ofRule .calls callee)
      (ofRule .calls callee') := by
  refine parallel_accept_bind _ fun _ => .ite (fun _ => ?_) fun _ => .done hcallee
  refine (parallel_upToParen .nil (reflects_rule (r := .arguments) (by decide) rfl)).bind
    fun args args' hargs => ?_
  refine (reflects_expect _ _).bind fun paren paren' hparen => ?_
  refine reflects_rule (r := .calls) (by decide) ⟨?_, hparen.drawn, hcallee.drawn,
    Expr.allDrawn_iff.mpr hargs.drawn⟩
  simp only [Expr.mapPos, Expr.mapPosAll_eq_map, hcallee.same, hparen.same, hargs.same]

theorem parallel_arguments (count : Nat) :
    Parallel (reflection g S) (ReflectsAll (Expr.mapPos g) (Expr.Drawn S))
      (ofRule .arguments count) (ofRule .arguments count) :=
  parallel_withinLimit _ _ (parallel_alongCommas .nil .cons reflects_expr
    (reflects_rule (r := .arguments) (by decide) rfl))

theorem parallel_primary :
    Parallel (reflection g S) (Expr.Reflects g S) (ofRule .primary ()) (ofRule .primary ()) := by
  refine reflects_peek fun t t' ht hkind => ?_
  rw [hkind]
  refine .ite (fun _ => parallel_pass (.done ⟨?_, ht.drawn⟩)) fun _ =>
    .ite (fun _ => parallel_pass (.done ⟨?_, ht.drawn⟩)) fun _ =>
      .ite (fun _ => parallel_pass ?_) fun _ => parallel_failAt ht _
  · simp only [Expr.mapPos, ht.same]
  · simp only [Expr.mapPos, ht.same]
  · refine reflects_expr.bind fun e e' he => (reflects_expect _ _).bind fun _ _ _ => ?_
    have hplace : g t.pos = g t'.pos := congrArg Token.pos ht.same
    exact .done ⟨by simp only [Expr.mapPos, he.same, hplace], he.drawn⟩

/-! ### Declarations -/

theorem parallel_declarators (type : BaseType) (isMutable : Bool) :
    Parallel (reflection g S) (Stmt.AllReflect g S) (ofRule .declarators (type, isMutable))
      (ofRule .declarators (type, isMutable)) := by
  refine parallel_alongCommas .nil .cons ?_ (reflects_rule (r := .declarators) (by decide) rfl)
  refine (reflects_expect _ _).bind fun name name' hname => reflects_initializer.bind
    fun init init' hinit => .done ⟨?_, Stmt.drawn_declare hname.drawn hinit.drawn⟩
  simp only [Stmt.mapPos, hname.same, hinit.same]

theorem parallel_declaration : Parallel (reflection g S) (Stmt.AllReflect g S)
    (ofRule .declaration ()) (ofRule .declaration ()) := by
  refine parallel_accept_bind _ fun immutable => ?_
  refine (reflects_typeWord _).bind fun word word' hword => ?_
  have htype : word.type = word'.type := (TypeName.mk.inj hword.same).1
  rw [htype]
  refine (reflects_rule (r := .declarators) (by decide) rfl).bind
    fun declared declared' hdeclared => ?_
  exact parallel_accept_bind _ fun _ => .done hdeclared

theorem parallel_declarations : Parallel (reflection g S) (Stmt.AllReflect g S)
    (ofRule .declarations ()) (ofRule .declarations ()) := by
  have hmore : Parallel (reflection g S) (Stmt.AllReflect g S) (rule .declarations ())
      (rule .declarations ()) := reflects_rule (r := .declarations) (by decide) rfl
  refine reflects_peek fun t t' ht hkind => ?_
  rw [hkind]
  refine .ite (fun _ => ?_) fun _ => .done .nil
  refine parallel_attempt_bind (r := .declaration) ⟨by decide, rfl⟩ ?_
    fun declared declared' hdeclared => ?_
  · exact (reflects_rule (r := .synchronize) (by decide) rfl).bind fun _ _ _ => hmore
  · exact hmore.bind fun more more' hmore => .done (.append hdeclared hmore)

theorem parallel_parameters (count : Nat) :
    Parallel (reflection g S) (ReflectsAll (Param.mapPos g) (Param.Drawn S))
      (ofRule .parameters count) (ofRule .parameters count) := by
  refine parallel_withinLimit _ _ (parallel_alongCommas .nil .cons ?_
    (reflects_rule (r := .parameters) (by decide) rfl))
  refine (reflects_typeWord _).bind fun word word' hword => ?_
  refine (reflects_expect _ _).bind fun name name' hname => .done ⟨?_, hword.drawn, hname.drawn⟩
  simp only [Param.mapPos, hword.same, hname.same]

theorem parallel_condition (keyword : String) : Parallel (reflection g S) (Expr.Reflects g S)
    (ofRule .condition keyword) (ofRule .condition keyword) :=
  (reflects_expect _ _).bind fun _ _ _ => reflects_expr.bind fun _ _ he =>
    (reflects_expect _ _).bind fun _ _ _ => .done he

theorem parallel_names : Parallel (reflection g S) (ReflectsAll (Token.mapPos g) S)
    (ofRule .names ()) (ofRule .names ()) :=
  parallel_alongCommas .nil .cons (reflects_expect _ _)
    (reflects_rule (r := .names) (by decide) rfl)

/-! ### Statements -/

theorem parallel_display :
    Parallel (reflection g S) (Stmt.Reflects g S) (ofRule .display ()) (ofRule .display ()) := by
  refine reflects_take.bind fun keyword keyword' hkeyword => ?_
  refine (reflects_expect _ _).bind fun _ _ _ => ?_
  refine reflects_expr.bind fun e e' he => .done ⟨?_, hkeyword.drawn, he.drawn⟩
  simp only [Stmt.mapPos, hkeyword.same, he.same]

theorem parallel_scan :
    Parallel (reflection g S) (Stmt.Reflects g S) (ofRule .scan ()) (ofRule .scan ()) := by
  refine reflects_take.bind fun keyword keyword' hkeyword => ?_
  refine (reflects_expect _ _).bind fun _ _ _ => ?_
  refine (reflects_rule (r := .names) (by decide) rfl).bind fun ns ns' hns =>
    .done ⟨?_, hkeyword.drawn, hns.drawn⟩
  simp only [Stmt.mapPos, hkeyword.same, hns.same]

/-- The statement that starts at a token, unless it is a `RETURN`. -/
theorem parallel_statementAt {t t' : Token} (ht : t.Reflects g S t') (hk : t.kind ≠ .kwReturn) :
    Parallel (reflection g S) (Stmt.Reflects g S) (statementAt t) (statementAt t') := by
  have hfail (e : SyntaxError) :
      Parallel (reflection g S) (Stmt.Reflects g S) (failAt t e) (failAt t' e) :=
    parallel_failAt ht e
  unfold statementAt
  rw [← ht.kind]
  cases hkind : t.kind with
  | kwReturn => exact absurd hkind hk
  | kwDisplay => exact reflects_rule (r := .display) (by decide) rfl
  | kwScan => exact reflects_rule (r := .scan) (by decide) rfl
  | kwIf => exact reflects_rule (r := .conditional) (by decide) rfl
  | kwWhile => exact reflects_rule (r := .loop) (by decide) rfl
  | kwBegin => exact reflects_rule (r := .block) (by decide) rfl
  | kwFn => exact hfail _
  | kwImmut => exact hfail _
  | type b => exact hfail _
  | _ =>
    exact reflects_expr.bind fun e e' he =>
      .done ⟨by simp only [Stmt.mapPos, he.same], he.drawn⟩

theorem parallel_statements : Parallel (reflection g S) (Stmt.AllReflect g S)
    (ofRule .statements ()) (ofRule .statements ()) := by
  have hmore : Parallel (reflection g S) (Stmt.AllReflect g S) (rule .statements ())
      (rule .statements ()) := reflects_rule (r := .statements) (by decide) rfl
  refine reflects_peek fun t t' ht hkind => ?_
  rw [hkind]
  refine .ite (fun _ => .done .nil) fun _ => .ite (fun _ => parallel_pass hmore) fun _ => ?_
  refine parallel_attempt_bind (r := .statement) ⟨by decide, rfl⟩ ?_ fun s s' hs => ?_
  · exact (reflects_rule (r := .synchronize) (by decide) rfl).bind fun _ _ _ => hmore
  · exact parallel_accept_bind _ fun _ => hmore.bind fun more more' hmore => .done (.cons hs hmore)

theorem parallel_conditional : Parallel (reflection g S) (Stmt.Reflects g S)
    (ofRule .conditional ()) (ofRule .conditional ()) := by
  refine reflects_take.bind fun keyword keyword' hkeyword => ?_
  refine (reflects_rule (r := .condition) (by decide) rfl).bind fun e e' he => ?_
  refine (reflects_rule (r := .fenced) (by decide) rfl).bind fun inner inner' hinner => ?_
  refine (reflects_rule (r := .alternatives) (by decide) rfl).bind fun others others' hothers =>
    .done ⟨?_, hkeyword.drawn, he.drawn, hinner.drawn, hothers.drawn⟩
  simp only [Stmt.mapPos, hkeyword.same, he.same, hinner.same, hothers.same]

theorem parallel_alternatives : Parallel (reflection g S) (Alternatives.Reflects g S)
    (ofRule .alternatives ()) (ofRule .alternatives ()) := by
  refine reflects_peek fun t t' _ hkind => ?_
  rw [hkind]
  refine .ite (fun _ => parallel_pass ?_) fun _ => .done ⟨rfl, Alternatives.drawn_done⟩
  refine reflects_peek fun u u' _ hkind => ?_
  rw [hkind]
  refine .ite (fun _ => parallel_pass ?_) fun _ => ?_
  · refine (reflects_rule (r := .condition) (by decide) rfl).bind fun e e' he => ?_
    refine (reflects_rule (r := .fenced) (by decide) rfl).bind fun inner inner' hinner => ?_
    refine (reflects_rule (r := .alternatives) (by decide) rfl).bind fun others others' hothers =>
      .done ⟨?_, .elseIf he.drawn hinner.drawn hothers.drawn⟩
    rw [Alternatives.mapPos_elseIf, Alternatives.mapPos_elseIf, he.same, hinner.same, hothers.same]
  · refine (reflects_rule (r := .fenced) (by decide) rfl).bind fun inner inner' hinner =>
      .done ⟨?_, .otherwise hinner.drawn⟩
    rw [Alternatives.mapPos_otherwise, Alternatives.mapPos_otherwise, hinner.same]

theorem parallel_loop :
    Parallel (reflection g S) (Stmt.Reflects g S) (ofRule .loop ()) (ofRule .loop ()) := by
  refine reflects_take.bind fun keyword keyword' hkeyword => ?_
  refine (reflects_rule (r := .condition) (by decide) rfl).bind fun e e' he => ?_
  refine (reflects_rule (r := .fenced) (by decide) rfl).bind fun inner inner' hinner =>
    .done ⟨?_, hkeyword.drawn, he.drawn, hinner.drawn⟩
  simp only [Stmt.mapPos, hkeyword.same, he.same, hinner.same]

theorem parallel_block :
    Parallel (reflection g S) (Stmt.Reflects g S) (ofRule .block ()) (ofRule .block ()) := by
  refine reflects_take.bind fun opening opening' hopening => ?_
  refine (reflects_rule (r := .body) (by decide) rfl).bind fun inner inner' hinner => ?_
  refine (reflects_expect _ _).bind fun _ _ _ => .done ⟨?_, hopening.drawn, hinner.drawn⟩
  simp only [Stmt.mapPos, hopening.same, hinner.same]

theorem parallel_fenced (fence : Kind) : Parallel (reflection g S) (Stmt.AllReflect g S)
    (ofRule .fenced fence) (ofRule .fenced fence) := by
  refine (reflects_expect _ _).bind fun _ _ _ => (reflects_expect _ _).bind fun _ _ _ => ?_
  refine (reflects_rule (r := .statements) (by decide) rfl).bind fun inner inner' hinner => ?_
  exact (reflects_expect _ _).bind fun _ _ _ => (reflects_expect _ _).bind fun _ _ _ => .done hinner

theorem parallel_body (withFunctions : Bool) : Parallel (reflection g S) (Stmt.AllReflect g S)
    (ofRule .body withFunctions) (ofRule .body withFunctions) := by
  refine (reflects_rule (r := .declarations) (by decide) rfl).bind
    fun declared declared' hdeclared => ?_
  have hbehind {fns fns' : List Stmt} (hfns : Stmt.AllReflect g S fns fns') :
      Parallel (reflection g S) (Stmt.AllReflect g S)
        (rule .statements () >>= fun inner => pure (declared ++ fns ++ inner))
        (rule .statements () >>= fun inner => pure (declared' ++ fns' ++ inner)) :=
    (reflects_rule (r := .statements) (by decide) rfl).bind fun inner inner' hinner =>
      .done (.append (.append hdeclared hfns) hinner)
  exact .ite (fun _ => (reflects_rule (r := .functions) (by decide) rfl).bind fun _ _ => hbehind)
    fun _ => hbehind .nil

theorem parallel_functions : Parallel (reflection g S) (Stmt.AllReflect g S)
    (ofRule .functions ()) (ofRule .functions ()) := by
  have hmore : Parallel (reflection g S) (Stmt.AllReflect g S) (rule .functions ())
      (rule .functions ()) := reflects_rule (r := .functions) (by decide) rfl
  refine parallel_accept_bind _ fun _ => .ite (fun _ => ?_) fun _ => .done .nil
  refine parallel_attempt_bind (r := .function) ⟨by decide, rfl⟩ ?_ fun f f' hf => ?_
  · exact (reflects_rule (r := .skipFunction) (by decide) rfl).bind fun _ _ _ => hmore
  · exact hmore.bind fun more more' hmore => .done (.cons hf hmore)

theorem parallel_function :
    Parallel (reflection g S) (Stmt.Reflects g S) (ofRule .function ()) (ofRule .function ()) := by
  refine reflects_resultType.bind fun result result' hresult => ?_
  refine (reflects_expect _ _).bind fun name name' hname => ?_
  refine (reflects_expect _ _).bind fun _ _ _ => ?_
  refine (parallel_upToParen .nil (reflects_rule (r := .parameters) (by decide) rfl)).bind
    fun params params' hparams => ?_
  refine (reflects_expect _ _).bind fun _ _ _ => (reflects_expect _ _).bind fun _ _ _ => ?_
  refine (reflects_expect _ _).bind fun _ _ _ => ?_
  refine (reflects_rule (r := .body) (by decide) rfl).bind fun inner inner' hinner => ?_
  refine (reflects_expect _ _).bind fun _ _ _ => (reflects_expect _ _).bind fun _ _ _ =>
    .done ⟨?_, hname.drawn, hparams.drawn, hinner.drawn, hresult.drawn⟩
  simp only [Stmt.mapPos, hname.same, hparams.same, hinner.same, hresult.same]

theorem parallel_program : Parallel (reflection g S) (Stmt.AllReflect g S)
    (ofRule .program ()) (ofRule .program ()) := by
  refine (reflects_rule (r := .functions) (by decide) rfl).bind fun fns fns' hfns => ?_
  refine parallel_fence_bind _ _ fun _ => .ite (fun _ => .done hfns) fun _ => ?_
  refine parallel_fence_bind _ _ fun _ => .ite (fun _ => .done hfns) fun _ => ?_
  refine (reflects_rule (r := .body) (by decide) rfl).bind fun main main' hmain => ?_
  have hall : Stmt.AllReflect g S (fns ++ main) (fns' ++ main') := .append hfns hmain
  refine parallel_fence_bind _ _ fun _ => .ite (fun _ => .done hall) fun _ => ?_
  refine parallel_fence_bind _ _ fun _ => .ite (fun _ => .done hall) fun _ => ?_
  refine reflects_peek fun t t' ht hkind => ?_
  rw [hkind]
  exact .ite (fun _ => parallel_warn ht _ (.done hall)) fun _ => .done hall

/-- **The script of each rule runs in parallel to itself**, but for the rule that looks at places
    and the one that calls it. -/
theorem parallel_ofRule {r : Rule} (hrecovery : r.isRecovery = false) (hret : r ≠ .ret)
    (hstatement : r ≠ .statement) {given given' : r.Given} (h : r.Takes g S given given') :
    Parallel (reflection g S) (r.Gives g S) (ofRule r given) (ofRule r given') := by
  cases r with
  | expression => exact parallel_expression
  | operand o => exact parallel_operand o
  | chain l => exact parallel_chain l h
  | unary => exact parallel_unary
  | calls => exact parallel_calls h
  | arguments => cases h; exact parallel_arguments given
  | primary => exact parallel_primary
  | declarators => cases h; exact parallel_declarators given.1 given.2
  | declaration => exact parallel_declaration
  | declarations => exact parallel_declarations
  | parameters => cases h; exact parallel_parameters given
  | condition => cases h; exact parallel_condition given
  | names => exact parallel_names
  | display => exact parallel_display
  | scan => exact parallel_scan
  | ret => exact absurd rfl hret
  | statement => exact absurd rfl hstatement
  | statements => exact parallel_statements
  | conditional => exact parallel_conditional
  | alternatives => exact parallel_alternatives
  | loop => exact parallel_loop
  | block => exact parallel_block
  | fenced => cases h; exact parallel_fenced given
  | body => cases h; exact parallel_body given
  | functions => exact parallel_functions
  | function => exact parallel_function
  | program => exact parallel_program
  | synchronize | boundary | skipFunction => cases hrecovery

end Script

end Grammar

/-! ## 3. Rules -/

/-- Cursors that are the same up to `g`, before tokens with the property. -/
structure Cursor.Reflects (g : Position → Position) (S : Token → Prop) (c c' : Cursor) : Prop
    extends Cursor.Mirrors g c c' where
  drawn : ∀ t ∈ c.tokens, S t

theorem kept_reflects : (reflection g S).Kept (Cursor.Reflects g S) where
  current {c _} h := ⟨h.current, h.drawn c.current List.mem_cons_self⟩
  next {c _} h := ⟨h.next, h.drawn c.next c.next_mem⟩
  advance {c _} h := ⟨Cursor.mirrorsRecovery_advance h.toMirrors, fun t ht =>
    h.drawn t (c.advance_tokens_suffix.subset ht)⟩
  report e h ht := ⟨h.toMirrors.report ht.same e, h.drawn⟩

/-- From cursors that reflect each other the steps come to such cursors, with results that are in a
    relation. -/
def Mirrors {α : Type} (g : Position → Position) (S : Token → Prop) (R : α → α → Prop)
    (p q : Parse α) : Prop :=
  ∀ ⦃c c' : Cursor⦄, c.Reflects g S c' →
    Option.Rel R (p c).1 (q c').1 ∧ (p c).2.Reflects g S (q c').2

theorem mirrors_fail {α : Type} {R : α → α → Prop} (e : SyntaxError) :
    Mirrors g S R (fail e) (fail e) :=
  fun _ _ h => ⟨.none, kept_reflects.report e h (kept_reflects.current h)⟩

theorem mirrors_recovery {recover : Cursor → Cursor} (hr : Cursor.MirrorsRecovery g recover)
    (hmoves : Cursor.Recovers recover) :
    Mirrors g S (fun _ _ => True) (fun c => (some (), recover c)) fun c => (some (), recover c) :=
  fun c _ h => ⟨.some trivial, hr h.toMirrors, fun t ht => h.drawn t ((hmoves c).2.subset ht)⟩

namespace Grammar

variable {room : Nat}

/-- Behind its `RETURN` the rule reads a value or none. -/
theorem ret_eq (c : Cursor) : ret room c =
    (if c.advance.current.line = c.current.line ∧ endsReturn c.advance.current.kind = false then
      Script.rule .expression () >>= fun e => pure (.ret c.current (some e))
    else pure (.ret c.current none) : Script Stmt).run room c.advance := by
  rw [← Script.run_ret]
  rfl

/-- With this room the rule mirrors itself, unless it is the one that looks at places. -/
def Rule.MirrorsAt (g : Position → Position) (S : Token → Prop) (room : Nat) (r : Rule)
    (given : r.Given) : Prop :=
  r ≠ .ret → ∀ given', r.Takes g S given given' →
    Mirrors g S (r.Gives g S) (r.run room given) (r.run room given')

/-- **The only rule that looks at places** looks whether the token behind a `RETURN` is on its
    line. -/
theorem ret_mirrors (hrules : ∀ (r : Rule) given, r.MirrorsAt g S room given) {c c' : Cursor}
    (h : c.Reflects g S c') (hk : c.current.kind = .kwReturn) :
    Option.Rel (Stmt.Reflects g S) (ret room c).1 (ret room c').1 ∧
      (ret room c).2.Reflects g S (ret room c').2 := by
  have hkeyword : c.current.Reflects g S c'.current := kept_reflects.current h
  have hmoved : c.advance.Reflects g S c'.advance := kept_reflects.advance h
  have hgoes : (c.advance.current.line = c.current.line ∧
        endsReturn c.advance.current.kind = false) ↔
      (c'.advance.current.line = c'.current.line ∧
        endsReturn c'.advance.current.kind = false) := by
    rw [h.line_iff hk, Token.kind_eq hmoved.current]
  have hvalue : Script.Parallel (reflection g S) (Stmt.Reflects g S)
      (Script.rule .expression () >>= fun e => pure (.ret c.current (some e)))
      (Script.rule .expression () >>= fun e => pure (.ret c'.current (some e))) := by
    refine Script.reflects_expr.bind fun e e' he => .done ⟨?_, hkeyword.drawn, he.drawn⟩
    simp only [Stmt.mapPos, Option.map_some, hkeyword.same, he.same]
  have hbare : Script.Parallel (reflection g S) (Stmt.Reflects g S)
      (pure (.ret c.current none)) (pure (.ret c'.current none)) := by
    refine .done ⟨?_, hkeyword.drawn⟩
    simp only [Stmt.mapPos, Option.map_none, hkeyword.same]
  rw [ret_eq, ret_eq, if_congr hgoes rfl rfl]
  exact (Script.Parallel.ite (fun _ => hvalue) fun _ => hbare).run kept_reflects hmoved
    fun _ hcall hc₁ => hrules _ _ hcall.1 _ hcall.2 hc₁

theorem statement_mirrors (hrules : ∀ (r : Rule) given, r.MirrorsAt g S room given) :
    Mirrors g S (Stmt.Reflects g S) (statement (room + 1)) (statement (room + 1)) := by
  intro c c' h
  rw [← Script.run_statement]
  show Option.Rel _ ((Script.statementAt c.current).run room c).1
      ((Script.statementAt c'.current).run room c').1 ∧
    ((Script.statementAt c.current).run room c).2.Reflects g S
      ((Script.statementAt c'.current).run room c').2
  have hcurrent : c.current.Reflects g S c'.current := kept_reflects.current h
  by_cases hk : c.current.kind = .kwReturn
  · have hret (t : Token) (ht : t.kind = .kwReturn) :
        (Script.statementAt t).run room = ret room := by
      unfold Script.statementAt
      rw [ht]
      exact Script.run_rule room .ret ()
    rw [hret _ hk, hret _ (hcurrent.kind.symm.trans hk)]
    exact ret_mirrors hrules h hk
  · exact (Script.parallel_statementAt hcurrent hk).run kept_reflects h
      fun _ hcall hc₁ => hrules _ _ hcall.1 _ hcall.2 hc₁

/-- **Every rule mirrors itself**, but for the one that looks at places, which mirrors itself where
    it is called. -/
theorem Rule.mirrors : ∀ room (r : Rule) given, r.MirrorsAt g S room given := by
  refine Rule.induct (fun room r given hr hret given' ht => ?recovery)
    (fun room r given hnone hret given' ht => ?starved)
    fun room inner r given hr hbelow ih hret given' ht => ?step
  case recovery =>
    cases r with
    | synchronize =>
      exact mirrors_recovery Cursor.mirrorsRecovery_synchronize Cursor.recovers_synchronize
    | boundary =>
      exact mirrors_recovery Cursor.mirrorsRecovery_toBoundary Cursor.recovers_toBoundary
    | skipFunction =>
      exact mirrors_recovery Cursor.mirrorsRecovery_skipFunction Cursor.recovers_skipFunction
    | _ => cases hr
  case starved =>
    rw [Rule.run_of_below_none hnone, Rule.run_of_below_none hnone]
    exact mirrors_fail .nesting
  case step =>
    by_cases hstatement : r = .statement
    · subst hstatement
      obtain rfl := Rule.eq_add_one_of_below rfl hbelow
      exact statement_mirrors fun r' given' => ih r' given' (absurd · (by decide))
    · intro c c' h
      rw [Rule.run_eq hbelow, Rule.run_eq hbelow]
      exact (Script.parallel_ofRule hr hret hstatement ht).run kept_reflects h
        fun henters hcall hc₁ => ih _ _ (Rule.mayCall_of_enters hr henters) hcall.1 _ hcall.2 hc₁

end Grammar

/-! ## 4. Programs -/

/-- Two texts without lexical errors that have the same tokens. Behind each `RETURN` the line goes
    on in both of them or in none. -/
structure SameWords (s t : Text) : Prop where
  scans : (Scan.ofText s).diagnostics = [] ∧ (Scan.ofText t).diagnostics = []
  words : (Scan.ofText s).tokens.map (fun u => (u.kind, u.lexeme)) =
    (Scan.ofText t).tokens.map fun u => (u.kind, u.lexeme)
  lines : returnLines (Scan.ofText s).tokens = returnLines (Scan.ofText t).tokens

/-- Tokens with the same kinds and lexemes are the same up to their places, if their lexemes
    determine what they denote. -/
theorem Token.map_unplaced_eq {ts us : List Token}
    (hwords : ts.map (fun t => (t.kind, t.lexeme)) = us.map fun u => (u.kind, u.lexeme))
    (hliterals : ∀ t ∈ ts, ∀ u ∈ us, t.lexeme = u.lexeme → t.literal = u.literal) :
    ts.map Token.unplaced = us.map Token.unplaced := by
  have hsame : List.Forall₂ (fun t u => t.unplaced = u.unplaced) ts us := by
    refine forall₂_of_map_eq hwords fun t ht u hu hword => ?_
    obtain ⟨hkind, hlexeme⟩ := Prod.mk.inj hword
    simp only [Token.unplaced, hkind, hlexeme, hliterals t ht u hu hlexeme]
  rwa [← List.forall₂_eq_eq_eq, List.forall₂_map_left_iff, List.forall₂_map_right_iff]

theorem SameWords.mirrored {s t : Text} (h : SameWords s t) :
    Mirrored (fun _ => .none) (Scan.ofText s).tokens (Scan.ofText t).tokens :=
  ⟨Token.map_unplaced_eq h.words fun _ hu _ hu' hlexeme => (Scan.literal_eq hu hu' hlexeme).2,
    h.lines⟩

namespace Program

/-- **Lists of tokens that are the same up to `g` are parsed alike**, into trees that are drawn from
    them. -/
theorem reflects_ofTokens {ts us : List Token} (hlength : ts.length = us.length)
    (h : Mirrored g (Cursor.withEnd ts) (Cursor.withEnd us)) (hts : ∀ t ∈ Cursor.withEnd ts, S t) :
    Stmt.AllReflect g S (ofTokens ts).stmts (ofTokens us).stmts ∧
      List.Forall₂ (Diagnostic.Mirrors g) (ofTokens ts).diagnostics (ofTokens us).diagnostics := by
  have hstart : (Cursor.ofTokens ts).Reflects g S (.ofTokens us) := by
    have htokens : Mirrored g (Cursor.ofTokens ts).tokens (Cursor.ofTokens us).tokens := by
      rwa [Cursor.ofTokens_tokens, Cursor.ofTokens_tokens]
    refine ⟨⟨?_, htokens, ?_⟩, ?_⟩
    · rw [Cursor.ofTokens_previous, Cursor.ofTokens_previous]
      exact htokens.head
    · rw [Cursor.ofTokens_reported, Cursor.ofTokens_reported]
      exact .nil
    · rwa [Cursor.ofTokens_tokens]
  obtain ⟨hresult, hend⟩ := Rule.mirrors (roomFor ts.length) .program () (by decide) () rfl hstart
  have hstmts {o o' : Option (List Stmt)} (h : Option.Rel (Stmt.AllReflect g S) o o') :
      Stmt.AllReflect g S (o.getD []) (o'.getD []) := by
    cases h with
    | some h => exact h
    | none => exact .nil
  unfold ofTokens
  rw [← hlength]
  exact ⟨hstmts hresult, List.rel_reverse hend.reported⟩

/-- **Lists of tokens that are the same up to `g` are parsed alike.** -/
theorem mirrors_ofTokens {ts us : List Token} (hlength : ts.length = us.length)
    (h : Mirrored g (Cursor.withEnd ts) (Cursor.withEnd us)) :
    Stmt.mapPosAll g (ofTokens ts).stmts = Stmt.mapPosAll g (ofTokens us).stmts ∧
      List.Forall₂ (Diagnostic.Mirrors g) (ofTokens ts).diagnostics (ofTokens us).diagnostics := by
  obtain ⟨htrees, hcomplaints⟩ :=
    reflects_ofTokens (S := fun _ => True) hlength h fun _ _ => trivial
  exact ⟨htrees.same, hcomplaints⟩

/-- **The trees of a program are drawn from its tokens.** -/
theorem drawn_ofTokens {ts : List Token} (hts : ∀ t ∈ Cursor.withEnd ts, S t) :
    Stmt.AllDrawn S (ofTokens ts).stmts :=
  (reflects_ofTokens (g := id) rfl ⟨rfl, rfl⟩ hts).1.drawn

/-- The tokens of a text have an end already. -/
theorem withEnd_scanned (t : Text) :
    Cursor.withEnd (Scan.ofText t).tokens = (Scan.ofText t).tokens := by
  obtain ⟨ts, last, htokens, _⟩ := Scan.tokens_eq t
  rw [htokens, Cursor.withEnd_concat rfl]

/-- **The trees of a text are drawn from the tokens of the text.** -/
theorem drawn_ofText (t : Text) :
    Stmt.AllDrawn (· ∈ (Scan.ofText t).tokens) (ofText t).stmts := by
  have hts : ∀ u ∈ Cursor.withEnd (Scan.ofText t).tokens, u ∈ (Scan.ofText t).tokens :=
    fun u hu => withEnd_scanned t ▸ hu
  exact drawn_ofTokens hts

theorem stmts_ofText (t : Text) : (ofText t).stmts = (ofTokens (Scan.ofText t).tokens).stmts :=
  rfl

theorem diagnostics_ofText (t : Text) : (ofText t).diagnostics =
    (Scan.ofText t).diagnostics ++ (ofTokens (Scan.ofText t).tokens).diagnostics :=
  rfl

/-- **Layouts of one text have one tree and the same complaints**, up to places. -/
theorem mirrors_ofText {s t : Text} (h : SameWords s t) :
    Stmt.unplacedAll (ofText s).stmts = Stmt.unplacedAll (ofText t).stmts ∧
      (ofText s).diagnostics.map Diagnostic.unplaced =
        (ofText t).diagnostics.map Diagnostic.unplaced := by
  have hmirrored := h.mirrored
  obtain ⟨htrees, hcomplaints⟩ := mirrors_ofTokens hmirrored.length_eq
    (by rwa [withEnd_scanned, withEnd_scanned])
  rw [Stmt.mapPosAll_none, Stmt.mapPosAll_none] at htrees
  rw [stmts_ofText, stmts_ofText, diagnostics_ofText, diagnostics_ofText, h.scans.1, h.scans.2,
    List.nil_append, List.nil_append]
  exact ⟨htrees, map_eq_of_forall₂ hcomplaints fun hd => hd.unplaced⟩

end Program

end FencedCode
