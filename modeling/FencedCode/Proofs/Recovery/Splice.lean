import FencedCode.Proofs.Recovery.Parting
import FencedCode.Proofs.Syntax.Room

/-!
# One part of a program read otherwise

A rule at work deep inside a program gives its caller some statements. If these are others than
before, and the rule stops at the same token, then the caller goes on as before, and its own
statements have changed in this one place. So does the caller's caller, up to the program.

* `Stmt.Edited`, `Stmt.AllEdited`, `Alternatives.Edited` -- trees that differ in one place;
* `Script.Carries` -- that a script hands on a change in what one of its calls has given, with a law
  for each step;
* `Rule.carries` -- **each rule hands on a change in one place as a change in one place**;
* `Activation.Sound.agrees` -- **complaints from before change nothing**, by induction on the
  measure;
* `Activation.Roomy.spliced` -- **what a rule has changed, all those change that are at work**, by
  induction on the calls that lead to it;
* `Program.spliced` -- two lists of tokens that part where a rule is at work.
-/

namespace FencedCode

open Parse Grammar

/-! ## 1. Trees that differ in one place -/

section Edits

variable (K : List Stmt → List Stmt → Prop)

mutual

/-- Statements that are the same but for statements in one place inside, which `K` relates. -/
inductive Stmt.Edited : Stmt → Stmt → Prop where
  | conditional {keyword : Token} {condition : Expr} {body body' : List Stmt}
    {others : Alternatives} : Stmt.AllEdited body body' →
    Stmt.Edited (.conditional keyword condition body others)
      (.conditional keyword condition body' others)
  | others {keyword : Token} {condition : Expr} {body : List Stmt} {others others' : Alternatives} :
    Alternatives.Edited others others' →
    Stmt.Edited (.conditional keyword condition body others)
      (.conditional keyword condition body others')
  | loop {keyword : Token} {condition : Expr} {body body' : List Stmt} :
    Stmt.AllEdited body body' →
    Stmt.Edited (.loop keyword condition body) (.loop keyword condition body')
  | block {opening : Token} {body body' : List Stmt} : Stmt.AllEdited body body' →
    Stmt.Edited (.block opening body) (.block opening body')
  | function {name : Token} {params : List Param} {body body' : List Stmt}
    {result : Option TypeName} : Stmt.AllEdited body body' →
    Stmt.Edited (.function name params body result) (.function name params body' result)

/-- Lists of statements that are the same but for one place, here or inside one of them. -/
inductive Stmt.AllEdited : List Stmt → List Stmt → Prop where
  | here {ss ss' : List Stmt} : K ss ss' → Stmt.AllEdited ss ss'
  | head {s s' : Stmt} {ss : List Stmt} : Stmt.Edited s s' → Stmt.AllEdited (s :: ss) (s' :: ss)
  | tail {s : Stmt} {ss ss' : List Stmt} : Stmt.AllEdited ss ss' →
    Stmt.AllEdited (s :: ss) (s :: ss')

/-- Alternatives that are the same but for one place inside. -/
inductive Alternatives.Edited : Alternatives → Alternatives → Prop where
  | otherwise {body body' : List Stmt} : Stmt.AllEdited body body' →
    Alternatives.Edited (.otherwise body) (.otherwise body')
  | elseIf {condition : Expr} {body body' : List Stmt} {others : Alternatives} :
    Stmt.AllEdited body body' →
    Alternatives.Edited (.elseIf condition body others) (.elseIf condition body' others)
  | others {condition : Expr} {body : List Stmt} {others others' : Alternatives} :
    Alternatives.Edited others others' →
    Alternatives.Edited (.elseIf condition body others) (.elseIf condition body others')

end

end Edits

section Lists

variable {K : List Stmt → List Stmt → Prop} {ss ss' : List Stmt}

theorem Stmt.AllEdited.append_left (h : AllEdited K ss ss') : ∀ ts : List Stmt,
    AllEdited K (ts ++ ss) (ts ++ ss')
  | [] => h
  | _ :: ts => .tail (append_left h ts)

/-- Statements behind the place that has changed may be taken along. -/
def Stmt.TakesAlong (K : List Stmt → List Stmt → Prop) : Prop :=
  ∀ ⦃ss ss' : List Stmt⦄, K ss ss' → ∀ ts, K (ss ++ ts) (ss' ++ ts)

theorem Stmt.AllEdited.append_right (hK : Stmt.TakesAlong K) (ts : List Stmt) :
    ∀ {ss ss' : List Stmt}, AllEdited K ss ss' → AllEdited K (ss ++ ts) (ss' ++ ts)
  | _, _, .here h => .here (hK h ts)
  | _, _, .head h => .head h
  | _, _, .tail h => .tail (append_right hK ts h)

end Lists

namespace Grammar

/-- The results of the rule differ in one place, where the first has statements that the second has
    not. Only rules that give statements have such results. -/
def Rule.Edited (K : List Stmt → List Stmt → Prop) : (r : Rule) → r.Result → r.Result → Prop
  | .statements, ss, ss' | .fenced, ss, ss' | .body, ss, ss' | .functions, ss, ss'
  | .program, ss, ss' => Stmt.AllEdited K ss ss'
  | .statement, s, s' | .conditional, s, s' | .loop, s, s' | .block, s, s'
  | .function, s, s' => Stmt.Edited K s s'
  | .alternatives, o, o' => Alternatives.Edited K o o'
  | _, _, _ => False

/-! ## 2. Scripts that hand on a change -/

namespace Script

variable {α β : Type} {K : List Stmt → List Stmt → Prop}

/-- When one of the calls of the script gives a result that differs in one place, then the script
    makes the same steps from there on, and its result differs as `R` tells. -/
def Carries (K : List Stmt → List Stmt → Prop) (R : α → α → Prop) : Script α → Prop
  | done _ => True
  | failed => True
  | look next => ∀ t, (next t).Carries K R
  | lookNext next => ∀ t, (next t).Carries K R
  | lookBack _ => False
  | skip next => next.Carries K R
  | complain _ _ next => next.Carries K R
  | call r _ next => r ≠ .boundary ∧
    (∀ a a', r.Edited K a a' → Parallel .same R (next (some a)) (next (some a'))) ∧
    ∀ o, (next o).Carries K R

/-- Nothing that the script calls can differ. -/
abbrev Plain (K : List Stmt → List Stmt → Prop) (s : Script α) : Prop :=
  s.Carries K fun _ _ => False

variable {R : α → α → Prop}

/-- **One script after another.** -/
theorem Carries.bind {R' : β → β → Prop} {s : Script α} {f : α → Script β} (hs : s.Carries K R)
    (hedited : ∀ a a', R a a' → Parallel .same R' (f a) (f a')) (hf : ∀ a, (f a).Carries K R') :
    (s >>= f).Carries K R' := by
  show (s.bind f).Carries K R'
  induction s with
  | done a => exact hf a
  | failed => trivial
  | look next ih => exact fun t => ih t (hs t)
  | lookNext next ih => exact fun t => ih t (hs t)
  | lookBack next ih => exact hs.elim
  | skip next ih => exact ih hs
  | complain t e next ih => exact ih hs
  | call r given next ih =>
    obtain ⟨hr, hnext, hlater⟩ := hs
    exact ⟨hr, fun a a' h => (hnext a a' h).bind hedited, fun o => ih o (hlater o)⟩

/-- Behind a script in which nothing differs. -/
theorem Plain.bind {s : Script β} {f : β → Script α} (hs : s.Plain K)
    (hf : ∀ b, (f b).Carries K R) : (s >>= f).Carries K R :=
  Carries.bind hs (fun _ _ h => h.elim) hf

/-- As long as nothing differs, the script does what it does. -/
theorem Carries.parallel {s : Script α} (hs : s.Carries K R) : Parallel .same Eq s s := by
  induction s with
  | done a => exact .done rfl
  | failed => exact .failed
  | look next ih => exact .look fun t _ ht => ht ▸ ih t (hs t)
  | lookNext next ih => exact .lookNext fun t _ ht => ht ▸ ih t (hs t)
  | lookBack next ih => exact hs.elim
  | skip next ih => exact .skip (ih hs)
  | complain t e next ih => exact .complain e rfl (ih hs)
  | call r given next ih =>
    exact .call ⟨hs.1, rfl⟩ (ih none (hs.2.2 none)) fun a _ ha => ha ▸ ih (some a) (hs.2.2 (some a))

/-- Steps that do not differ, and scripts behind them that do. -/
theorem Carries.parallel_bind {R' : β → β → Prop} {s : Script α} {f f' : α → Script β}
    (hs : s.Carries K R) (hf : ∀ a, Parallel .same R' (f a) (f' a)) :
    Parallel .same R' (s >>= f) (s >>= f') :=
  hs.parallel.bind fun a _ hsame => hsame ▸ hf a

theorem Carries.ite {q : Prop} [Decidable q] {s s' : Script α} (hs : s.Carries K R)
    (hs' : s'.Carries K R) : (if q then s else s').Carries K R := by
  split
  · exact hs
  · exact hs'

/-- What a rule hands on, its caller is given. -/
theorem carries_rule {r : Rule} (hr : r ≠ .boundary) (given : r.Given) :
    (rule r given).Carries K (r.Edited K) := by
  refine ⟨hr, fun a a' h => .done h, fun o => ?_⟩
  cases o <;> trivial

theorem plain_rule {r : Rule} {given : r.Given} {R : r.Result → r.Result → Prop}
    (hr : r ≠ .boundary) (hplain : ∀ a a', ¬ r.Edited K a a') : (rule r given).Carries K R := by
  refine ⟨hr, fun a a' h => (hplain a a' h).elim, fun o => ?_⟩
  cases o <;> trivial

theorem plain_rule_bind {r : Rule} {given : r.Given} {f : r.Result → Script α}
    (hr : r ≠ .boundary) (hplain : ∀ a a', ¬ r.Edited K a a') (hf : ∀ a, (f a).Carries K R) :
    (rule r given >>= f).Carries K R :=
  Plain.bind (plain_rule hr hplain) hf

/-- A call that is gone on from, whether or not it fails. -/
theorem carries_attempt {r : Rule} (hr : r ≠ .boundary) (given : r.Given)
    {f : Option r.Result → Script α}
    (hedited : ∀ a a', r.Edited K a a' → Parallel .same R (f (some a)) (f (some a')))
    (hf : ∀ o, (f o).Carries K R) : (attempt r given >>= f).Carries K R :=
  ⟨hr, hedited, hf⟩

/-! Steps in which nothing differs. -/

theorem plain_peek : peek.Plain K :=
  fun _ => trivial

theorem plain_pass : pass.Plain K :=
  trivial

theorem plain_take : take.Plain K :=
  fun _ => trivial

theorem plain_expect (k : Kind) (e : SyntaxError) : (expect k e).Plain K :=
  fun _ => .ite trivial trivial

theorem plain_accept (k : Kind) : (accept k).Plain K :=
  fun _ => .ite trivial trivial

theorem plain_withinLimit (count : Nat) (e : SyntaxError) : (withinLimit count e).Plain K :=
  plain_peek.bind fun _ => .ite trivial trivial

theorem plain_typeWord (e : SyntaxError) : (typeWord e).Plain K := by
  refine plain_peek.bind fun t => ?_
  cases t.kind.type? <;> trivial

theorem plain_resultType : resultType.Plain K := by
  refine plain_peek.bind fun t => ?_
  cases t.kind.type? <;> trivial

theorem plain_fence (k : Kind) (e : SyntaxError) : (fence k e).Plain K :=
  plain_peek.bind fun _ => .ite trivial trivial

theorem plain_alongCommas {entry : Script α} {more : Script (List α)} (hentry : entry.Plain K)
    (hmore : more.Plain K) : (alongCommas entry more).Plain K :=
  hentry.bind fun _ => (plain_accept _).bind fun _ => .ite (hmore.bind fun _ => trivial) trivial

theorem plain_upToParen {entries : Script (List α)} (hentries : entries.Plain K) :
    (upToParen entries).Plain K :=
  plain_peek.bind fun _ => .ite trivial hentries

/-! ## 3. Each rule hands on a change -/

theorem plain_expression : (ofRule .expression ()).Plain K := by
  refine plain_rule_bind (by decide) (fun _ _ h => h) fun e => plain_peek.bind fun op => ?_
  refine .ite (plain_pass.bind fun _ => ?_) trivial
  refine plain_rule_bind (by decide) (fun _ _ h => h) fun value => ?_
  cases e <;> trivial

theorem plain_operand (o : Option Level) : (ofRule (.operand o) ()).Plain K := by
  cases o with
  | none => exact plain_rule (by decide) fun _ _ h => h
  | some l =>
    exact plain_rule_bind (by nofun) (fun _ _ h => h) fun left =>
      plain_rule (by nofun) fun _ _ h => h

theorem plain_chain (l : Level) (left : Expr) : (ofRule (.chain l) left).Plain K := by
  refine plain_peek.bind fun op => .ite (plain_pass.bind fun _ => ?_) trivial
  exact plain_rule_bind (by nofun) (fun _ _ h => h) fun right =>
    plain_rule (by nofun) fun _ _ h => h

theorem plain_unary : (ofRule .unary ()).Plain K := by
  refine plain_peek.bind fun op => .ite (plain_pass.bind fun _ => ?_) ?_
  · exact plain_rule_bind (by decide) (fun _ _ h => h) fun _ => trivial
  · exact plain_rule_bind (by decide) (fun _ _ h => h) fun e =>
      plain_rule (by decide) fun _ _ h => h

theorem plain_calls (callee : Expr) : (ofRule .calls callee).Plain K := by
  refine (plain_accept _).bind fun _ => .ite ?_ trivial
  refine Plain.bind (plain_upToParen (plain_rule (by decide) fun _ _ h => h)) fun args => ?_
  exact (plain_expect _ _).bind fun paren => plain_rule (by decide) fun _ _ h => h

theorem plain_arguments (count : Nat) : (ofRule .arguments count).Plain K :=
  (plain_withinLimit _ _).bind fun _ => plain_alongCommas
    (plain_rule (by decide) fun _ _ h => h) (plain_rule (by decide) fun _ _ h => h)

theorem plain_primary : (ofRule .primary ()).Plain K := by
  refine plain_peek.bind fun t => .ite (plain_pass.bind fun _ => trivial) ?_
  refine .ite (plain_pass.bind fun _ => trivial) (.ite (plain_pass.bind fun _ => ?_) trivial)
  exact plain_rule_bind (by decide) (fun _ _ h => h) fun e =>
    (plain_expect _ _).bind fun _ => trivial

theorem plain_declarators (type : BaseType) (isMutable : Bool) :
    (ofRule .declarators (type, isMutable)).Plain K := by
  refine plain_alongCommas ((plain_expect _ _).bind fun name => ?_)
    (plain_rule (by decide) fun _ _ h => h)
  have hinit : initializer.Plain K := (plain_accept _).bind fun _ =>
    .ite (plain_rule_bind (by decide) (fun _ _ h => h) fun _ => trivial) trivial
  exact hinit.bind fun _ => trivial

theorem plain_declaration : (ofRule .declaration ()).Plain K :=
  (plain_accept _).bind fun _ => (plain_typeWord _).bind fun _ =>
    plain_rule_bind (by decide) (fun _ _ h => h) fun _ => (plain_accept _).bind fun _ => trivial

theorem plain_declarations : (ofRule .declarations ()).Plain K := by
  refine plain_peek.bind fun t => .ite ?_ trivial
  refine carries_attempt (by decide) _ (fun _ _ h => h.elim) fun o => ?_
  cases o with
  | none =>
    exact plain_rule_bind (by decide) (fun _ _ h => h) fun _ =>
      plain_rule (by decide) fun _ _ h => h
  | some declared => exact plain_rule_bind (by decide) (fun _ _ h => h) fun _ => trivial

theorem plain_parameters (count : Nat) : (ofRule .parameters count).Plain K := by
  refine (plain_withinLimit _ _).bind fun _ => plain_alongCommas ?_
    (plain_rule (by decide) fun _ _ h => h)
  exact (plain_typeWord _).bind fun _ => (plain_expect _ _).bind fun _ => trivial

theorem plain_condition (keyword : String) : (ofRule .condition keyword).Plain K :=
  (plain_expect _ _).bind fun _ => plain_rule_bind (by decide) (fun _ _ h => h) fun _ =>
    (plain_expect _ _).bind fun _ => trivial

theorem plain_names : (ofRule .names ()).Plain K :=
  plain_alongCommas (plain_expect _ _) (plain_rule (by decide) fun _ _ h => h)

theorem plain_display : (ofRule .display ()).Plain K :=
  plain_take.bind fun _ => (plain_expect _ _).bind fun _ =>
    plain_rule_bind (by decide) (fun _ _ h => h) fun _ => trivial

theorem plain_scan : (ofRule .scan ()).Plain K :=
  plain_take.bind fun _ => (plain_expect _ _).bind fun _ =>
    plain_rule_bind (by decide) (fun _ _ h => h) fun _ => trivial

theorem plain_ret : (ofRule .ret ()).Plain K :=
  plain_take.bind fun _ => plain_peek.bind fun _ =>
    .ite (plain_rule_bind (by decide) (fun _ _ h => h) fun _ => trivial) trivial

theorem plain_skipFunction : (ofRule .skipFunction ()).Plain K := by
  refine plain_peek.bind fun t => ?_
  have hnext : peekNext.Plain K := fun _ => trivial
  refine hnext.bind fun u => .ite trivial (.ite trivial (plain_pass.bind fun _ => ?_))
  exact plain_rule (by decide) fun _ _ h => h

theorem carries_statement : (ofRule .statement ()).Carries K (Stmt.Edited K) := by
  refine plain_peek.bind fun t => ?_
  unfold statementAt
  cases t.kind with
  | kwDisplay => exact plain_rule (r := .display) (by decide) fun _ _ h => h
  | kwScan => exact plain_rule (r := .scan) (by decide) fun _ _ h => h
  | kwReturn => exact plain_rule (r := .ret) (by decide) fun _ _ h => h
  | kwIf => exact carries_rule (r := .conditional) (by decide) ()
  | kwWhile => exact carries_rule (r := .loop) (by decide) ()
  | kwBegin => exact carries_rule (r := .block) (by decide) ()
  | _ => first | trivial | exact plain_rule_bind (by decide) (fun _ _ h => h) fun _ => trivial

theorem carries_statements : (ofRule .statements ()).Carries K (Stmt.AllEdited K) := by
  refine plain_peek.bind fun t => .ite trivial (.ite (plain_pass.bind fun _ => ?_) ?_)
  · exact carries_rule (r := .statements) (by decide) ()
  have hmore : (rule .statements ()).Carries K (Stmt.AllEdited K) :=
    carries_rule (r := .statements) (by decide) ()
  refine carries_attempt (by decide) _ (fun s s' h => ?_) fun o => ?_
  · refine (plain_accept (K := K) .semicolon).parallel_bind fun _ => ?_
    exact hmore.parallel_bind fun more => .done (.head h)
  cases o with
  | none => exact plain_rule_bind (by decide) (fun _ _ h => h) fun _ => hmore
  | some s =>
    exact (plain_accept _).bind fun _ => hmore.bind (fun _ _ h => .done (.tail h)) fun _ => trivial

theorem carries_conditional : (ofRule .conditional ()).Carries K (Stmt.Edited K) := by
  have hothers : (rule .alternatives ()).Carries K (Alternatives.Edited K) :=
    carries_rule (r := .alternatives) (by decide) ()
  refine plain_take.bind fun keyword => plain_rule_bind (by decide) (fun _ _ h => h) fun c => ?_
  refine (carries_rule (r := .fenced) (by decide) .kwIf).bind (fun inner inner' h => ?_)
    fun inner => ?_
  · exact hothers.parallel_bind fun others => .done (.conditional h)
  · exact hothers.bind (fun _ _ h => .done (.others h)) fun _ => trivial

theorem carries_alternatives :
    (ofRule .alternatives ()).Carries K (Alternatives.Edited K) := by
  have hbody : (rule .fenced .kwIf).Carries K (Stmt.AllEdited K) :=
    carries_rule (r := .fenced) (by decide) .kwIf
  have hothers : (rule .alternatives ()).Carries K (Alternatives.Edited K) :=
    carries_rule (r := .alternatives) (by decide) ()
  refine plain_peek.bind fun t => .ite (plain_pass.bind fun _ => ?_) trivial
  refine plain_peek.bind fun u => ?_
  refine .ite (plain_pass.bind fun _ => ?_) ?_
  · refine plain_rule_bind (by decide) (fun _ _ h => h) fun c => ?_
    refine hbody.bind (fun inner inner' h => ?_) fun inner => ?_
    · exact hothers.parallel_bind fun others => .done (.elseIf h)
    · exact hothers.bind (fun _ _ h => .done (.others h)) fun _ => trivial
  · exact hbody.bind (fun _ _ h => .done (.otherwise h)) fun _ => trivial

theorem carries_loop : (ofRule .loop ()).Carries K (Stmt.Edited K) :=
  plain_take.bind fun keyword => plain_rule_bind (by decide) (fun _ _ h => h) fun c =>
    (carries_rule (r := .fenced) (by decide) .kwWhile).bind (fun _ _ h => .done (.loop h))
      fun _ => trivial

theorem carries_block : (ofRule .block ()).Carries K (Stmt.Edited K) := by
  refine plain_take.bind fun opening => ?_
  refine (carries_rule (r := .body) (by decide) true).bind (fun inner inner' h => ?_)
    fun inner => ?_
  · exact (plain_expect (K := K) _ _).parallel_bind fun _ => .done (.block h)
  · exact (plain_expect _ _).bind fun _ => trivial

theorem carries_fenced (fence : Kind) : (ofRule .fenced fence).Carries K (Stmt.AllEdited K) := by
  refine (plain_expect _ _).bind fun _ => (plain_expect _ _).bind fun _ => ?_
  refine (carries_rule (r := .statements) (by decide) ()).bind (fun inner inner' h => ?_)
    fun inner => ?_
  · exact (plain_expect (K := K) _ _).parallel_bind fun _ =>
      (plain_expect (K := K) _ _).parallel_bind fun _ => .done h
  · exact (plain_expect _ _).bind fun _ => (plain_expect _ _).bind fun _ => trivial

theorem carries_body (hK : Stmt.TakesAlong K) (withFunctions : Bool) :
    (ofRule .body withFunctions).Carries K (Stmt.AllEdited K) := by
  have hinner : (rule .statements ()).Carries K (Stmt.AllEdited K) :=
    carries_rule (r := .statements) (by decide) ()
  have hfns : (rule .functions ()).Carries K (Stmt.AllEdited K) :=
    carries_rule (r := .functions) (by decide) ()
  refine plain_rule_bind (by decide) (fun _ _ h => h) fun declared => ?_
  have hbehind (fns : List Stmt) : (rule .statements () >>= fun inner =>
      (pure (declared ++ fns ++ inner) : Script (List Stmt))).Carries K (Stmt.AllEdited K) :=
    hinner.bind (fun _ _ h => .done (h.append_left _)) fun _ => trivial
  refine .ite (hfns.bind (fun fns fns' h => ?_) hbehind) (hbehind [])
  refine hinner.parallel_bind fun inner => .done ?_
  exact (Stmt.AllEdited.append_left h declared).append_right hK inner

theorem carries_functions : (ofRule .functions ()).Carries K (Stmt.AllEdited K) := by
  have hmore : (rule .functions ()).Carries K (Stmt.AllEdited K) :=
    carries_rule (r := .functions) (by decide) ()
  refine (plain_accept _).bind fun _ => .ite ?_ trivial
  refine carries_attempt (by decide) _ (fun f f' h => ?_) fun o => ?_
  · exact hmore.parallel_bind fun more => .done (.head h)
  cases o with
  | none => exact plain_rule_bind (by decide) (fun _ _ h => h) fun _ => hmore
  | some f => exact hmore.bind (fun _ _ h => .done (.tail h)) fun _ => trivial

theorem carries_function : (ofRule .function ()).Carries K (Stmt.Edited K) := by
  refine plain_resultType.bind fun result => (plain_expect _ _).bind fun name => ?_
  refine (plain_expect _ _).bind fun _ => ?_
  refine Plain.bind (plain_upToParen (plain_rule (by decide) fun _ _ h => h)) fun params => ?_
  refine (plain_expect _ _).bind fun _ => (plain_expect _ _).bind fun _ => ?_
  refine (plain_expect _ _).bind fun _ => ?_
  refine (carries_rule (r := .body) (by decide) true).bind (fun inner inner' h => ?_)
    fun inner => ?_
  · exact (plain_expect (K := K) _ _).parallel_bind fun _ =>
      (plain_expect (K := K) _ _).parallel_bind fun _ => .done (.function h)
  · exact (plain_expect _ _).bind fun _ => (plain_expect _ _).bind fun _ => trivial

/-- A program whose fences are there or missing as before. -/
theorem parallel_fence {k : Kind} {e : SyntaxError} {ss ss' : List Stmt}
    {s s' : Script (List Stmt)} (hss : Stmt.AllEdited K ss ss')
    (hs : Parallel .same (Stmt.AllEdited K) s s') :
    Parallel .same (Stmt.AllEdited K) (fence k e >>= fun b => if (!b) = true then pure ss else s)
      (fence k e >>= fun b => if (!b) = true then pure ss' else s') := by
  refine (plain_fence (K := K) k e).parallel_bind fun b => ?_
  cases b with
  | true => exact hs
  | false => exact .done hss

theorem carries_program (hK : Stmt.TakesAlong K) :
    (ofRule .program ()).Carries K (Stmt.AllEdited K) := by
  have hend {ss ss' : List Stmt} (h : Stmt.AllEdited K ss ss') (t : Token) :
      Parallel .same (Stmt.AllEdited K)
        (if t.kind ≠ .eof then warn t .nothingAfterProgram >>= fun _ => pure ss else pure ss)
        (if t.kind ≠ .eof then warn t .nothingAfterProgram >>= fun _ => pure ss'
          else pure ss') := by
    split
    · exact .complain _ rfl (.done h)
    · exact .done h
  have hmain : (rule .body false).Carries K (Stmt.AllEdited K) :=
    carries_rule (r := .body) (by decide) false
  refine (carries_rule (r := .functions) (by decide) ()).bind (fun fns fns' h => ?_) fun fns => ?_
  · refine parallel_fence h (parallel_fence h (hmain.parallel_bind fun main => ?_))
    have hall := Stmt.AllEdited.append_right hK main h
    exact parallel_fence hall (parallel_fence hall
      ((plain_peek (K := K)).parallel_bind (hend hall)))
  · refine (plain_fence _ _).bind fun _ => .ite trivial ((plain_fence _ _).bind fun _ => ?_)
    refine .ite trivial (hmain.bind (fun main main' h => ?_) fun main => ?_)
    · have hall := h.append_left fns
      exact parallel_fence hall (parallel_fence hall
        ((plain_peek (K := K)).parallel_bind (hend hall)))
    · refine (plain_fence _ _).bind fun _ => .ite trivial ((plain_fence _ _).bind fun _ => ?_)
      exact .ite trivial (plain_peek.bind fun _ => .ite trivial trivial)

end Script

variable {K : List Stmt → List Stmt → Prop} {new : List Diagnostic} {room : Nat}

/-- **Each rule hands on a change in one place as a change in one place.** The recovery of a
    statement and its search, which looks back at the token before, are left out. -/
theorem Rule.carries (hK : Stmt.TakesAlong K) (r : Rule) (hr : r ≠ .synchronize ∧ r ≠ .boundary)
    (given : r.Given) : (Script.ofRule r given).Carries K (r.Edited K) := by
  cases r with
  | expression => exact Script.plain_expression
  | operand o => exact Script.plain_operand o
  | chain l => exact Script.plain_chain l given
  | unary => exact Script.plain_unary
  | calls => exact Script.plain_calls given
  | arguments => exact Script.plain_arguments given
  | primary => exact Script.plain_primary
  | declarators => exact Script.plain_declarators given.1 given.2
  | declaration => exact Script.plain_declaration
  | declarations => exact Script.plain_declarations
  | parameters => exact Script.plain_parameters given
  | condition => exact Script.plain_condition given
  | names => exact Script.plain_names
  | display => exact Script.plain_display
  | scan => exact Script.plain_scan
  | ret => exact Script.plain_ret
  | statement => exact Script.carries_statement
  | statements => exact Script.carries_statements
  | conditional => exact Script.carries_conditional
  | alternatives => exact Script.carries_alternatives
  | loop => exact Script.carries_loop
  | block => exact Script.carries_block
  | fenced => exact Script.carries_fenced given
  | body => exact Script.carries_body hK given
  | functions => exact Script.carries_functions
  | function => exact Script.carries_function
  | program => exact Script.carries_program hK
  | synchronize => exact absurd rfl hr.1
  | boundary => exact absurd rfl hr.2
  | skipFunction => exact Script.plain_skipFunction

/-! ## 4. From the part to the program -/

namespace Activation

/-- Outcomes of which both are missing or both the same. -/
theorem eq_of_rel_eq {α : Type} : ∀ {o o' : Option α}, Option.Rel Eq o o' → o = o'
  | _, _, .some h => congrArg some h
  | _, _, .none => rfl

/-- **Complaints from before change nothing in what a rule does.** By induction on the measure: what
    it calls is smaller. -/
theorem Sound.agrees : ∀ {n : Nat} {A : Activation}, A.measure < n → A.Sound →
    A.rule ≠ .boundary → A.Agrees new
  | 0, _, hn, _, _ => absurd hn (Nat.not_lt_zero _)
  | n + 1, A, hn, hA, hrule => by
    intro c' hbeside
    by_cases hsync : A.rule = .synchronize
    · obtain ⟨room, rule, given, c⟩ := A
      obtain rfl : rule = .synchronize := hsync
      exact ⟨rfl, hbeside.synchronize⟩
    cases hbelow : A.rule.below A.room with
    | none =>
      have hfails (c : Cursor) : (A.moved c).result = Parse.fail .nesting c :=
        congrFun (Rule.run_of_below_none hbelow A.given) c
      rw [show A.result = _ from hfails A.cursor, hfails c']
      unfold Parse.fail
      rw [hbeside.current]
      exact ⟨rfl, hbeside.report _ _⟩
    | some inner =>
      have hruns : (A.moved c').result = (Script.ofRule A.rule A.given).run inner c' :=
        result_eq (A := A.moved c') hbelow
      have hcarries := A.rule.carries (K := fun _ _ => True) (fun _ _ _ _ => trivial)
        ⟨hsync, hrule⟩ A.given
      rw [hruns, result_eq hbelow]
      have hcalls (B : Activation) (hB : (Script.ofRule A.rule A.given).Enters inner B A.cursor)
          (hB' : B.rule ≠ .boundary) : B.Agrees new := by
        obtain ⟨hsound, hlt⟩ := hA.enters ⟨inner, hbelow, hB⟩
        exact hsound.agrees (Nat.lt_of_lt_of_le hlt (Nat.le_of_lt_succ hn)) hB'
      have hrun := hcarries.parallel.beside hbeside hcalls
      exact ⟨eq_of_rel_eq hrun.1, hrun.2⟩

/-- Started at the other cursor, the rule succeeds as well. It stops beside where it stops now, with
    the complaints `new`, and its result differs in one place. -/
def Spliced (K : List Stmt → List Stmt → Prop) (new : List Diagnostic) (A : Activation)
    (c' : Cursor) : Prop :=
  ∃ a a', A.result.1 = some a ∧ (A.moved c').result.1 = some a' ∧ A.rule.Edited K a a' ∧
    A.result.2.Beside new (A.moved c').result.2

end Activation

/-- **What one of its calls has changed, a script hands on**: up to this call it does the same in
    both texts, and behind it what it does is parallel. -/
theorem Script.Carries.spliced {α : Type} {R : α → α → Prop} {F : Fork} {B : Activation}
    {s : Script α} (hs : s.Carries K R) {c c' : Cursor} (hB : s.Enters room B c)
    (hbehind : F.tokens.length ≤ B.cursor.tokens.length) (hpart : c.Apart F c')
    (hsound : ∀ A : Activation, s.Enters room A c → A.Sound)
    (hcall : ∀ ⦃c' : Cursor⦄, B.cursor.Apart F c' → B.Spliced K new c') :
    Option.Rel R (s.run room c).1 (s.run room c').1 ∧
      (s.run room c).2.Beside new (s.run room c').2 := by
  induction s generalizing c c' with
  | done a => cases hB
  | failed => cases hB
  | look next ih =>
    have hrun : (look next).run room c' = (next c.current).run room c' := by
      rw [hpart.current]
      rfl
    rw [hrun]
    exact ih c.current (hs _) hB hpart hsound
  | lookNext next ih =>
    have hrun : (lookNext next).run room c' = (next c.next).run room c' := by
      rw [hpart.next]
      rfl
    rw [hrun]
    exact ih c.next (hs _) hB hpart hsound
  | lookBack next ih => exact hs.elim
  | skip next ih =>
    have hsuffix := (Script.enters_suffix (s := next) hB).length_le
    exact ih hs hB (hpart.advance (Nat.le_trans hbehind hsuffix)) hsound
  | complain t e next ih => exact ih hs hB (hpart.report t e) hsound
  | call r given next ih =>
    have hfirst : (Activation.mk room r given c).Sound := hsound _ (.inl rfl)
    rcases hB with rfl | hB
    · obtain ⟨a, a', ha, ha', hedited, hbeside⟩ := hcall hpart
      have hrun : (Script.call r given next).run room c =
          (next (some a)).run room (r.run room given c).2 :=
        congrArg (fun o => (next o).run room (r.run room given c).2) ha
      have hrun' : (Script.call r given next).run room c' =
          (next (some a')).run room (r.run room given c').2 :=
        congrArg (fun o => (next o).run room (r.run room given c').2) ha'
      rw [hrun, hrun']
      refine (hs.2.1 a a' hedited).beside hbeside fun A hA hrule => ?_
      refine Activation.Sound.agrees (Nat.lt_succ_self _) (hsound A (.inr ?_)) hrule
      show (next (r.run room given c).1).Enters room A (r.run room given c).2
      rw [show (r.run room given c).1 = some a from ha]
      exact hA
    · have hsuffix := (Script.enters_suffix hB).length_le
      obtain ⟨hresult, hpassed⟩ :=
        hfirst.apart (Nat.lt_succ_self _) hpart (Nat.le_trans hbehind hsuffix)
      have hrun : (Script.call r given next).run room c' =
          (next (r.run room given c).1).run room (r.run room given c').2 :=
        congrArg (fun o => (next o).run room (r.run room given c').2) hresult.symm
      rw [hrun]
      exact ih _ (hs.2.2 _) hB hpassed fun A hA => hsound A (.inr hA)

namespace Activation

variable {A B L : Activation} {F : Fork}

/-- What is called in a run without complaints makes none. -/
theorem Enters.clean (h : A.Enters B) (hclean : A.result.2.reported = []) :
    B.result.2.reported = [] := by
  obtain ⟨inner, hbelow, hB⟩ := h
  rw [result_eq hbelow] at hclean
  exact Script.clean_of_enters hB hclean

theorem Reaches.clean (h : A.Reaches B) (hclean : A.result.2.reported = []) :
    B.result.2.reported = [] := by
  induction h with
  | refl => exact hclean
  | tail _ hcall ih => exact hcall.clean ih

/-- The recovery of a statement calls its search only, and so does the search. -/
theorem Enters.boundary (h : A.Enters B) (hA : A.rule = .synchronize ∨ A.rule = .boundary) :
    B.rule = .boundary := by
  obtain ⟨room, rule, given, c⟩ := A
  obtain ⟨inner, _, hB⟩ := h
  rcases hA with hA | hA
  · obtain rfl : rule = .synchronize := hA
    change (if c.current.kind = .kwEnd then _ else _ : Script Unit).Enters inner B c at hB
    split at hB
    · rw [Script.enters_rule hB]
    · have hcall : (Script.rule .boundary ()).Enters inner B c.advance := hB
      rw [Script.enters_rule hcall]
  · obtain rfl : rule = .boundary := hA
    change (if c.current.kind = .eof ∨ c.previous.kind = .semicolon ∨
      Cursor.isBoundary c.current.kind = true then _ else _ : Script Unit).Enters inner B c at hB
    split at hB
    · cases hB
    · have hcall : (Script.rule .boundary ()).Enters inner B c.advance := hB
      rw [Script.enters_rule hcall]

theorem Reaches.of_recovery (h : A.Reaches B) (hA : A.rule = .synchronize ∨ A.rule = .boundary) :
    B.rule = .synchronize ∨ B.rule = .boundary := by
  induction h with
  | refl => exact hA
  | tail _ hcall ih => exact .inr (hcall.boundary ih)

/-- **What a rule has changed, all those change that are at work.** By induction on the calls that
    lead from the first to the rule. -/
theorem Roomy.spliced (hA : A.Roomy) (hK : Stmt.TakesAlong K) (hreach : A.Reaches L)
    (hrule : ¬ (L.rule = .synchronize ∨ L.rule = .boundary))
    (hL : F.tokens.length ≤ L.cursor.tokens.length)
    (hbase : ∀ ⦃c' : Cursor⦄, L.cursor.Apart F c' → L.Spliced K new c')
    (hclean : A.result.2.reported = []) {c' : Cursor} (hpart : A.cursor.Apart F c') :
    A.Spliced K new c' := by
  induction hreach using Relation.ReflTransGen.head_induction_on generalizing c' with
  | refl => exact hbase hpart
  | @head A B hcall hreach ih =>
    have hB := hA.enters hcall
    have hnested (c' : Cursor) (hpart : B.cursor.Apart F c') : B.Spliced K new c' :=
      ih hB (hcall.clean hclean) hpart
    have hbehind : F.tokens.length ≤ B.cursor.tokens.length :=
      Nat.le_trans hL (hB.onward_reaches hreach).suffix.length_le
    obtain ⟨inner, hbelow, henters⟩ := hcall
    have hruns : (A.moved c').result = (Script.ofRule A.rule A.given).run inner c' :=
      result_eq (A := A.moved c') hbelow
    have hplain : ¬ (A.rule = .synchronize ∨ A.rule = .boundary) := fun hA =>
      hrule (Reaches.of_recovery (.head ⟨inner, hbelow, henters⟩ hreach) hA)
    have hcarries := A.rule.carries hK (not_or.mp hplain) A.given
    obtain ⟨hresult, hbeside⟩ := hcarries.spliced henters hbehind hpart
      (fun C hC => (hA.toSound.enters ⟨inner, hbelow, hC⟩).1) hnested
    rw [← result_eq hbelow, ← hruns] at hresult hbeside
    obtain ⟨a, ha⟩ := (A.rule.steady A.room A.given).succeeds hclean
    rw [show A.result.1 = some a from ha] at hresult
    cases hother : (A.moved c').result.1 with
    | none => rw [hother] at hresult; cases hresult
    | some a' =>
      rw [hother] at hresult
      cases hresult with
      | some hedited => exact ⟨a, a', ha, hother, hedited, hbeside⟩

end Activation

end Grammar

/-- **Two lists of tokens that part where a rule is at work.** The first is accepted. If the rule is
    spliced into the second, then the second is read with the complaints `new`, and its statements
    differ in one place. -/
theorem Program.spliced {K : List Stmt → List Stmt → Prop} {new : List Diagnostic} {F : Fork}
    {L : Activation} {ts ts' ahead : List Token} (hK : Stmt.TakesAlong K)
    (hok : (Program.ofTokens ts).diagnostics = []) (hreach : (Activation.start ts).Reaches L)
    (hrule : ¬ (L.rule = .synchronize ∨ L.rule = .boundary)) (hL : L.cursor.tokens = F.tokens)
    (hts : Cursor.withEnd ts = ahead ++ F.tokens)
    (hts' : Cursor.withEnd ts' = ahead ++ F.tokens') (hle : ts'.length ≤ ts.length)
    (hbase : ∀ ⦃c' : Cursor⦄, L.cursor.Apart F c' → L.Spliced K new c') :
    (Program.ofTokens ts').diagnostics = new.reverse ∧
      Stmt.AllEdited K (Program.ofTokens ts).stmts (Program.ofTokens ts').stmts := by
  have hclean : (Activation.start ts).result.2.reported = [] := List.reverse_eq_nil_iff.mp hok
  have htokens := Cursor.ofTokens_tokens ts
  have htokens' := Cursor.ofTokens_tokens ts'
  have hpart : (Cursor.ofTokens ts).Apart F (Cursor.ofTokens ts') := by
    refine ⟨?_, ?_, ahead, htokens.trans hts, htokens'.trans hts'⟩
    · rw [Cursor.ofTokens_previous, Cursor.ofTokens_previous]
      rw [hts] at htokens
      rw [hts'] at htokens'
      cases ahead with
      | nil => exact (List.cons.inj htokens).1.trans (List.cons.inj htokens').1.symm
      | cons t ahead => exact (List.cons.inj htokens).1.trans (List.cons.inj htokens').1.symm
    · rw [Cursor.ofTokens_reported, Cursor.ofTokens_reported]
  obtain ⟨ss, ss', hss, hss', hedited, hbeside⟩ :=
    (Activation.roomy_start ts).spliced hK hreach hrule (Nat.le_of_eq (by rw [hL])) hbase hclean
      hpart
  -- the second list may be shorter, but the room of the first is enough for it as well
  have hroom : (Activation.start ts').result =
      ((Activation.start ts).moved (.ofTokens ts')).result := by
    have hroomy := Activation.roomy_start ts'
    exact (program_room hroomy.closed hroomy.room
      (Nat.mul_le_mul_left _ (Nat.add_le_add_right hle 4))).symm
  have hparsed : Program.ofTokens ts' =
      ⟨(Activation.start ts').result.1.getD [], (Activation.start ts').result.2.reported.reverse⟩ :=
    rfl
  have hstmts : (Program.ofTokens ts).stmts = (Activation.start ts).result.1.getD [] := rfl
  rw [hparsed, hroom, hstmts, hss, hss', hbeside.reported, hclean]
  exact ⟨rfl, hedited⟩

end FencedCode
