import FencedCode.Proofs.Syntax.Rules

/-!
# Trees that are drawn from tokens

A tree holds tokens: names, keywords, operators, closing parentheses. It is drawn from some tokens
if those that it holds are among them, and its operators stand where operators of their kind belong.

* `Expr.Drawn`, `Stmt.Drawn`, `Alternatives.Drawn` -- that the tokens of a tree have a property, and
  that its operators are operators of their place;
* `Expr.drawn_combine`, `Stmt.drawn_declare`, `Alternatives.Drawn.elseIf`, … -- that trees made of
  such trees are such trees.
-/

namespace FencedCode

open Grammar

mutual

/-- The tokens of an expression have the property, and its operators are prefix operators in front
    of an operand, and operators of a level that yields values between two operands. -/
def Expr.Drawn (S : Token → Prop) : Expr → Prop
  | .literal t => S t
  | .grouping e _ => e.Drawn S
  | .unary op e => S op ∧ isSign op.kind = true ∧ e.Drawn S
  | .binary left op right =>
    S op ∧ (∃ l : Level, l.isLogical = false ∧ l.has op.kind = true) ∧ left.Drawn S ∧ right.Drawn S
  | .logical left op right => S op ∧ left.Drawn S ∧ right.Drawn S
  | .ref name => S name
  | .assign name value => S name ∧ value.Drawn S
  | .call callee paren args => S paren ∧ callee.Drawn S ∧ Expr.AllDrawn S args

/-- All of the expressions are drawn. -/
def Expr.AllDrawn (S : Token → Prop) : List Expr → Prop
  | [] => True
  | e :: es => e.Drawn S ∧ Expr.AllDrawn S es

end

/-- The word of a type name has the property. -/
def TypeName.Drawn (S : Token → Prop) (t : TypeName) : Prop :=
  S t.token

/-- The tokens of a parameter have the property. -/
def Param.Drawn (S : Token → Prop) (p : Param) : Prop :=
  p.type.Drawn S ∧ S p.name

mutual

/-- The tokens of a statement have the property, and its expressions are drawn. -/
def Stmt.Drawn (S : Token → Prop) : Stmt → Prop
  | .expression e => e.Drawn S
  | .display keyword e => S keyword ∧ e.Drawn S
  | .scan keyword names => S keyword ∧ ∀ t ∈ names, S t
  | .conditional keyword condition body others =>
    S keyword ∧ condition.Drawn S ∧ Stmt.AllDrawn S body ∧ others.Drawn S
  | .loop keyword condition body => S keyword ∧ condition.Drawn S ∧ Stmt.AllDrawn S body
  | .block opening body => S opening ∧ Stmt.AllDrawn S body
  | .function name params body result =>
    S name ∧ (∀ p ∈ params, p.Drawn S) ∧ Stmt.AllDrawn S body ∧ ∀ t ∈ result, t.Drawn S
  | .ret keyword none => S keyword
  | .ret keyword (some e) => S keyword ∧ e.Drawn S
  | .declare _ name none _ => S name
  | .declare _ name (some e) _ => S name ∧ e.Drawn S

/-- All of the statements are drawn. -/
def Stmt.AllDrawn (S : Token → Prop) : List Stmt → Prop
  | [] => True
  | s :: ss => s.Drawn S ∧ Stmt.AllDrawn S ss

/-- All of the bodies are drawn. -/
def Stmt.BodiesDrawn (S : Token → Prop) : List (List Stmt) → Prop
  | [] => True
  | body :: bodies => Stmt.AllDrawn S body ∧ Stmt.BodiesDrawn S bodies

/-- The body is drawn, if there is one. -/
def Stmt.LastDrawn (S : Token → Prop) : Option (List Stmt) → Prop
  | none => True
  | some body => Stmt.AllDrawn S body

/-- The conditions and bodies of alternatives are drawn, and each condition has a body. -/
def Alternatives.Drawn (S : Token → Prop) : Alternatives → Prop
  | .mk conditions bodies last => bodies.length = conditions.length ∧
    Expr.AllDrawn S conditions ∧ Stmt.BodiesDrawn S bodies ∧ Stmt.LastDrawn S last

end

theorem Expr.allDrawn_iff {S : Token → Prop} {es : List Expr} :
    Expr.AllDrawn S es ↔ ∀ e ∈ es, e.Drawn S := by
  induction es with
  | nil => simp [Expr.AllDrawn]
  | cons e es ih => rw [Expr.AllDrawn, ih, List.forall_mem_cons]

theorem Stmt.allDrawn_iff {S : Token → Prop} {ss : List Stmt} :
    Stmt.AllDrawn S ss ↔ ∀ s ∈ ss, s.Drawn S := by
  induction ss with
  | nil => simp [Stmt.AllDrawn]
  | cons s ss ih => rw [Stmt.AllDrawn, ih, List.forall_mem_cons]

theorem Stmt.bodiesDrawn_iff {S : Token → Prop} {bodies : List (List Stmt)} :
    Stmt.BodiesDrawn S bodies ↔ ∀ body ∈ bodies, Stmt.AllDrawn S body := by
  induction bodies with
  | nil => simp [Stmt.BodiesDrawn]
  | cons body bodies ih => rw [Stmt.BodiesDrawn, ih, List.forall_mem_cons]

theorem Stmt.lastDrawn_iff {S : Token → Prop} {last : Option (List Stmt)} :
    Stmt.LastDrawn S last ↔ ∀ body ∈ last, Stmt.AllDrawn S body := by
  cases last <;> simp [Stmt.LastDrawn]

theorem Alternatives.Drawn.parts {S : Token → Prop} {o : Alternatives} (ho : o.Drawn S) :
    (∀ e ∈ o.conditions, e.Drawn S) ∧ (∀ body ∈ o.bodies, Stmt.AllDrawn S body) ∧
      ∀ body ∈ o.last, Stmt.AllDrawn S body := by
  obtain ⟨conditions, bodies, last⟩ := o
  obtain ⟨_, hconditions, hbodies, hlast⟩ := ho
  exact ⟨Expr.allDrawn_iff.mp hconditions, Stmt.bodiesDrawn_iff.mp hbodies,
    Stmt.lastDrawn_iff.mp hlast⟩

/-- In alternatives that are drawn each condition has a body. -/
theorem Alternatives.Drawn.length_bodies {S : Token → Prop} {o : Alternatives}
    (ho : o.Drawn S) : o.bodies.length = o.conditions.length := by
  obtain ⟨conditions, bodies, last⟩ := o
  exact ho.1

theorem Alternatives.Drawn.elseIf {S : Token → Prop} {condition : Expr} {body : List Stmt}
    {others : Alternatives} (hcondition : condition.Drawn S) (hbody : Stmt.AllDrawn S body)
    (hothers : others.Drawn S) : (Alternatives.elseIf condition body others).Drawn S := by
  obtain ⟨conditions, bodies, last⟩ := others
  obtain ⟨hlength, hconditions, hbodies, hlast⟩ := hothers
  exact ⟨congrArg (· + 1) hlength, ⟨hcondition, hconditions⟩, ⟨hbody, hbodies⟩, hlast⟩

theorem Alternatives.Drawn.otherwise {S : Token → Prop} {body : List Stmt}
    (hbody : Stmt.AllDrawn S body) : (Alternatives.otherwise body).Drawn S :=
  ⟨rfl, trivial, trivial, hbody⟩

theorem Alternatives.drawn_done {S : Token → Prop} : Alternatives.done.Drawn S :=
  ⟨rfl, trivial, trivial, trivial⟩

theorem Stmt.AllDrawn.append {S : Token → Prop} {ss ts : List Stmt} (hss : Stmt.AllDrawn S ss)
    (hts : Stmt.AllDrawn S ts) : Stmt.AllDrawn S (ss ++ ts) := by
  rw [Stmt.allDrawn_iff] at hss hts ⊢
  exact List.forall_mem_append.mpr ⟨hss, hts⟩

theorem Expr.drawn_combine {S : Token → Prop} {l : Level} {left right : Expr} {op : Token}
    (hop : S op) (hl : l.has op.kind = true) (hleft : left.Drawn S) (hright : right.Drawn S) :
    (l.combine left op right).Drawn S := by
  rw [Level.combine_eq]
  split
  · exact ⟨hop, hleft, hright⟩
  · rename_i hlogical
    exact ⟨hop, ⟨l, Bool.not_eq_true _ ▸ hlogical, hl⟩, hleft, hright⟩

theorem Expr.Drawn.name {S : Token → Prop} {e : Expr} (he : e.Drawn S) {name : Token}
    (hname : e.name? = some name) : S name := by
  cases e with
  | ref t => cases hname; exact he
  | _ => cases hname

theorem Stmt.drawn_declare {S : Token → Prop} {type : BaseType} {name : Token} {init : Option Expr}
    {isMutable : Bool} (hname : S name) (hinit : ∀ e ∈ init, e.Drawn S) :
    (Stmt.declare type name init isMutable).Drawn S := by
  cases init with
  | none => exact hname
  | some e => exact ⟨hname, hinit e rfl⟩

end FencedCode
