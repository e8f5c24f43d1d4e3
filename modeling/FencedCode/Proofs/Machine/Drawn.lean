import FencedCode.Proofs.Machine.Held
import FencedCode.Proofs.Syntax.Layout

/-!
# Machines that only know the tokens of a program

The trees that are drawn from some tokens are a class of trees. So if the trees of a program are
drawn from some tokens, all that any part of its run works on is drawn from them.

* `Value.Drawn`, `Machine.Drawn`, `Activity.Drawn` -- that the trees inside are drawn;
* `drawnTrees` -- the class of drawn trees;
* `Activity.drawn_of_within` -- **all parts of a run are drawn**.
-/

namespace FencedCode

open Exec Machine

/-! ## 1. Drawn values and machines -/

/-- The trees of a declared function are drawn. -/
def Function.Drawn (S : Token → Prop) (f : Function) : Prop :=
  (Stmt.function f.name f.params f.body f.result).Drawn S

/-- A function that a value holds is drawn. -/
def Value.Drawn (S : Token → Prop) (v : Value) : Prop :=
  ∀ f copy, v.callable? = some (.user f copy) → f.Drawn S

/-- The values of all bindings are drawn. -/
def Machine.Drawn (S : Token → Prop) (m : Machine) : Prop :=
  m.scopes.All fun b => b.value.Drawn S

/-- What the task works on is drawn. -/
def Task.Drawn (S : Token → Prop) : Task → Prop
  | .eval e => e.Drawn S
  | .evalAll es => Expr.AllDrawn S es
  | .apply callee args => callee.Drawn S ∧ ∀ v ∈ args, v.Drawn S
  | .call f _ => f.Drawn S
  | .exec s => s.Drawn S
  | .execAll ss => Stmt.AllDrawn S ss
  | .execOthers _ others => others.Drawn S
  | .execLoop condition body => condition.Drawn S ∧ Stmt.AllDrawn S body
  | .assignScanned names _ => ∀ t ∈ names, S t

/-- The machine that the activity starts in is drawn, and its task is. -/
def Activity.Drawn (S : Token → Prop) (a : Activity) : Prop :=
  a.start.Drawn S ∧ a.task.Drawn S

/-! ## 2. The class of drawn trees -/

/-- The trees that are drawn from tokens with a property. -/
def drawnTrees (S : Token → Prop) : TreeClass where
  token := S
  expr := Expr.Drawn S
  exprs := Expr.AllDrawn S
  stmt := Stmt.Drawn S
  stmts := Stmt.AllDrawn S
  others := Alternatives.Drawn S
  grouping he := he
  assign he := he.2
  unary he := he.2.2
  binary he := he.2.2
  logical he := he.2
  call he := he.2
  exprs_cons hes := hes
  expression hs := hs
  display hs := hs.2
  scan hs := hs.2
  conditional hs := hs.2
  loop hs := hs.2
  block hs := hs.2
  function hs := hs.2.2.1
  ret hs := hs.2
  declare hs := hs.2
  stmts_cons hss := hss
  alternatives ho := ho.parts

namespace Activity

variable {S : Token → Prop} {h : Host}

/-- An activity is drawn if it is in the class of drawn trees. -/
theorem in_drawnTrees_iff {a : Activity} : a.In (drawnTrees S) ↔ a.Drawn S := by
  obtain ⟨n, task, m⟩ := a
  cases task <;> exact Iff.rfl

/-- **The parts of a drawn activity are drawn.** -/
theorem drawn_of_calls {a b : Activity} (hab : Calls h a b) (ha : a.Drawn S) : b.Drawn S :=
  in_drawnTrees_iff.mp (in_of_calls hab (in_drawnTrees_iff.mpr ha))

theorem drawn_of_within {a b : Activity} (hab : Within h a b) (ha : a.Drawn S) : b.Drawn S := by
  induction hab with
  | refl => exact ha
  | tail _ hcall ih => exact drawn_of_calls hcall ih

/-- **The run of a text on a standard machine is drawn from the tokens of the text.** -/
theorem drawn_ofText (steps : Nat) (t : Text) (input : Input) :
    (Activity.ofProgram steps (Program.ofText t).stmts (.standard input)).Drawn
      (· ∈ (Scan.ofText t).tokens) :=
  in_drawnTrees_iff.mp (in_ofProgram steps (Machine.in_standard input) (Program.drawn_ofText t))

end Activity

end FencedCode
