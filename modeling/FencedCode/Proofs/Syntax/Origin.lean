import FencedCode.Proofs.Syntax.Progress

/-!
# Where the statements of a tree come from

What a program gives is a tree of statements. A rule that gives statements has them from the rules
that it calls, but for the statement that it puts around them. So each statement in the tree,
however deep, was read somewhere on the way.

* `Stmt.Inside`, `Stmt.Among` -- that a statement stands inside another one, or in a list of them at
  any depth;
* `Rule.Includes` -- that it stands in what a rule gives;
* `Script.Brings` -- that what a script gives has the statement from one of its calls, with a law
  for one script after another;
* `Activation.Takes` -- that statements or functions at work come to the statement and read it;
* `Activation.brings` -- **each rule that does not read the statement itself has it from a call**;
* `Activation.Sound.takes` -- **each statement in the tree was read on the way**, by induction on
  the measure;
* `Script.Makes` -- that what a script gives is of some kind;
* `Program.taken` -- each statement of a program was read at some place in its text.
-/

namespace FencedCode

open Parse Grammar

/-! ## 1. Statements in a tree -/

section Trees

variable (s : Stmt)

mutual

/-- The statement stands inside another one. -/
inductive Stmt.Inside : Stmt → Prop where
  | conditional {keyword : Token} {condition : Expr} {body : List Stmt} {others : Alternatives} :
    Stmt.Among body → Stmt.Inside (.conditional keyword condition body others)
  | others {keyword : Token} {condition : Expr} {body : List Stmt} {others : Alternatives} :
    Stmt.InAlternatives others → Stmt.Inside (.conditional keyword condition body others)
  | loop {keyword : Token} {condition : Expr} {body : List Stmt} : Stmt.Among body →
    Stmt.Inside (.loop keyword condition body)
  | block {opening : Token} {body : List Stmt} : Stmt.Among body →
    Stmt.Inside (.block opening body)
  | function {name : Token} {params : List Param} {body : List Stmt} {result : Option TypeName} :
    Stmt.Among body → Stmt.Inside (.function name params body result)

/-- The statement is one of the list, or it stands inside one of them. -/
inductive Stmt.Among : List Stmt → Prop where
  | head {ss : List Stmt} : Stmt.Among (s :: ss)
  | inside {t : Stmt} {ss : List Stmt} : Stmt.Inside t → Stmt.Among (t :: ss)
  | tail {t : Stmt} {ss : List Stmt} : Stmt.Among ss → Stmt.Among (t :: ss)

/-- The statement stands in one of the alternatives. -/
inductive Stmt.InAlternatives : Alternatives → Prop where
  | body {o : Alternatives} {body : List Stmt} : body ∈ o.bodies → Stmt.Among body →
    Stmt.InAlternatives o
  | last {o : Alternatives} {body : List Stmt} : body ∈ o.last → Stmt.Among body →
    Stmt.InAlternatives o

end

end Trees

theorem Stmt.Among.of_append {s : Stmt} {ts : List Stmt} : ∀ {ss : List Stmt},
    Among s (ss ++ ts) → Among s ss ∨ Among s ts
  | [], h => .inr h
  | _ :: _, .head => .inl .head
  | _ :: _, .inside h => .inl (.inside h)
  | _ :: _, .tail h => (of_append h).imp .tail id

theorem Stmt.Among.of_cons {s t : Stmt} {ts : List Stmt} (h : Among s (t :: ts)) :
    (t = s ∨ Inside s t) ∨ Among s ts := by
  cases h with
  | head => exact .inl (.inl rfl)
  | inside h => exact .inl (.inr h)
  | tail h => exact .inr h

theorem Stmt.InAlternatives.of_elseIf {s : Stmt} {condition : Expr} {body : List Stmt}
    {others : Alternatives} (h : InAlternatives s (.elseIf condition body others)) :
    Among s body ∨ InAlternatives s others := by
  cases h with
  | body hbody h =>
    rcases List.mem_cons.mp hbody with rfl | hbody
    · exact .inl h
    · exact .inr (.body hbody h)
  | last hlast h => exact .inr (.last hlast h)

theorem Stmt.InAlternatives.of_otherwise {s : Stmt} {body : List Stmt}
    (h : InAlternatives s (.otherwise body)) : Among s body := by
  cases h with
  | body hbody _ => cases hbody
  | last hlast h =>
    cases hlast
    exact h

theorem Stmt.not_inAlternatives_done {s : Stmt} : ¬ InAlternatives s .done
  | .body hbody _ => nomatch hbody
  | .last hlast _ => nomatch hlast

namespace Grammar

/-- The statement stands in what the rule gives; where this is a statement, then inside it. -/
def Rule.Includes (s : Stmt) : (r : Rule) → r.Result → Prop
  | .declarators, ss | .declaration, ss | .declarations, ss | .statements, ss | .fenced, ss
  | .body, ss | .functions, ss | .program, ss => Stmt.Among s ss
  | .display, t | .scan, t | .ret, t | .statement, t | .conditional, t | .loop, t | .block, t
  | .function, t => Stmt.Inside s t
  | .alternatives, o => Stmt.InAlternatives s o
  | _, _ => False

namespace Activation

/-- The rule at work succeeds, and the statement stands in what it gives. -/
def Gives (A : Activation) (s : Stmt) : Prop :=
  ∃ a, A.result.1 = some a ∧ A.rule.Includes s a

/-- Statements at work, or functions, come to the statement and read it. -/
inductive Takes (s : Stmt) : Activation → Prop where
  | statement {room : Nat} {c : Cursor} : (Grammar.statement room c).1 = some s →
    Takes s ⟨room + 1, .statements, (), c⟩
  | function {room : Nat} {c : Cursor} : c.current.kind = .kwFn →
    (Grammar.function room c.advance).1 = some s → Takes s ⟨room + 1, .functions, (), c⟩

end Activation

/-! ## 2. What a script has from its calls -/

namespace Script

variable {α β : Type} {s : Stmt} {room : Nat} {c : Cursor}

/-- If what the script gives is in `P`, it has the statement from one of its calls. -/
def Brings (s : Stmt) (room : Nat) (c : Cursor) (P : α → Prop) (q : Script α) : Prop :=
  ∀ a, (q.run room c).1 = some a → P a → ∃ B : Activation, q.Enters room B c ∧ B.Gives s

variable {P : α → Prop} {Q : β → Prop}

/-- **One script after another**: the statement comes from the second, unless it has come from the
    first. -/
theorem Brings.bind {q : Script α} {f : α → Script β} (hq : q.Brings s room c P)
    (hf : ∀ a, ¬ P a → (f a).Brings s room (q.run room c).2 Q) :
    (q >>= f).Brings s room c Q := by
  intro b hb hQ
  rw [run_bind] at hb
  cases ha : (q.run room c).1 with
  | none =>
    rw [Parse.bind_none ha] at hb
    cases hb
  | some a =>
    rw [Parse.bind_some ha] at hb
    by_cases hP : P a
    · obtain ⟨B, henters, hgives⟩ := hq a ha hP
      exact ⟨B, (enters_bind q f c).mpr (.inl henters), hgives⟩
    · obtain ⟨B, henters, hgives⟩ := hf a hP b hb hQ
      exact ⟨B, (enters_bind q f c).mpr (.inr ⟨a, ha, henters⟩), hgives⟩

/-- Behind steps that give no statements. -/
theorem brings_behind {q : Script α} {f : α → Script β}
    (hf : ∀ a, (f a).Brings s room (q.run room c).2 Q) : (q >>= f).Brings s room c Q :=
  Brings.bind (P := fun _ => False) (fun _ _ h => h.elim) fun a _ => hf a

/-- What the script gives by itself does not have the statement. -/
theorem brings_pure {a : α} (ha : ¬ P a) : (pure a : Script α).Brings s room c P := by
  intro b hb hP
  obtain rfl : a = b := Option.some.inj hb
  exact absurd hP ha

theorem Brings.ite {p : Prop} [Decidable p] {q q' : Script α} (hq : q.Brings s room c P)
    (hq' : q'.Brings s room c P) : (if p then q else q').Brings s room c P := by
  split
  · exact hq
  · exact hq'

theorem brings_rule {r : Rule} (given : r.Given) :
    (rule r given).Brings s room c (r.Includes s) := by
  intro a ha hP
  rw [run_rule] at ha
  exact ⟨⟨room, r, given, c⟩, .inl rfl, a, ha, hP⟩

/-- A call that is gone on from, whether or not it fails. -/
theorem brings_attempt {r : Rule} (given : r.Given) : (attempt r given).Brings s room c
    fun o => ∃ a, o = some a ∧ r.Includes s a := by
  intro o ho hP
  obtain ⟨a, rfl, hincludes⟩ := hP
  exact ⟨⟨room, r, given, c⟩, .inl rfl, a, Option.some.inj ho, hincludes⟩

/-- Behind a word that may be left out. -/
theorem brings_accept {k : Kind} {f : Bool → Script β}
    (hthere : c.current.kind = k → (f true).Brings s room c.advance Q)
    (hmissing : (f false).Brings s room c Q) : (accept k >>= f).Brings s room c Q := by
  intro b hb hQ
  rw [run_bind, run_accept] at hb
  by_cases hk : c.current.kind = k
  · rw [accept_bind_of_kind hk] at hb
    obtain ⟨B, henters, hgives⟩ := hthere hk b hb hQ
    refine ⟨B, (enters_bind _ f c).mpr (.inr ⟨true, ?_⟩), hgives⟩
    rw [run_accept, accept_of_kind hk]
    exact ⟨rfl, henters⟩
  · rw [accept_bind_of_ne hk] at hb
    obtain ⟨B, henters, hgives⟩ := hmissing b hb hQ
    refine ⟨B, (enters_bind _ f c).mpr (.inr ⟨false, ?_⟩), hgives⟩
    rw [run_accept, accept_of_ne hk]
    exact ⟨rfl, henters⟩

/-! ## 3. Each rule has it from its calls -/

/-- What a list has from its entries and from the entries behind the comma. -/
theorem brings_alongCommas {entry : Script Stmt} {more : Script (List Stmt)}
    (hentry : entry.Brings s room c fun t => t = s ∨ Stmt.Inside s t)
    (hmore : ∀ c, more.Brings s room c (Stmt.Among s)) :
    (alongCommas entry more).Brings s room c (Stmt.Among s) := by
  have hnone (t : Stmt) (ht : ¬ (t = s ∨ Stmt.Inside s t)) (ts : List Stmt)
      (hts : ¬ Stmt.Among s ts) : ¬ Stmt.Among s (t :: ts) :=
    fun h => h.of_cons.elim ht hts
  refine hentry.bind fun t ht => brings_behind fun _ => .ite ?_ (brings_pure (hnone t ht [] nofun))
  exact (hmore _).bind fun ts hts => brings_pure (hnone t ht ts hts)

theorem brings_declarators (hs : s.part ≠ .declaration) (type : BaseType) (isMutable : Bool) :
    (ofRule .declarators (type, isMutable)).Brings s room c (Stmt.Among s) := by
  refine brings_alongCommas ?_ fun c => brings_rule (r := .declarators) _
  refine brings_behind fun name => brings_behind fun init => brings_pure ?_
  rintro (h | h)
  · exact hs (h ▸ rfl)
  · cases h

theorem brings_declaration : (ofRule .declaration ()).Brings s room c (Stmt.Among s) := by
  refine brings_behind fun _ => brings_behind fun _ => ?_
  exact (brings_rule (r := .declarators) _).bind fun declared hdeclared =>
    brings_behind fun _ => brings_pure hdeclared

theorem brings_declarations : (ofRule .declarations ()).Brings s room c (Stmt.Among s) := by
  have hmore {c : Cursor} : (rule .declarations ()).Brings s room c (Stmt.Among s) :=
    brings_rule (r := .declarations) ()
  refine brings_behind fun t => .ite ?_ (brings_pure nofun)
  refine (brings_attempt (r := .declaration) ()).bind fun o ho => ?_
  cases o with
  | none => exact brings_behind fun _ => hmore
  | some declared =>
    refine hmore.bind fun more hnot => brings_pure fun h => ?_
    exact h.of_append.elim (fun h => ho ⟨declared, rfl, h⟩) hnot

theorem brings_display : (ofRule .display ()).Brings s room c (Stmt.Inside s) :=
  brings_behind fun _ => brings_behind fun _ => brings_behind fun _ => brings_pure nofun

theorem brings_scan : (ofRule .scan ()).Brings s room c (Stmt.Inside s) :=
  brings_behind fun _ => brings_behind fun _ => brings_behind fun _ => brings_pure nofun

theorem brings_ret : (ofRule .ret ()).Brings s room c (Stmt.Inside s) :=
  brings_behind fun _ => brings_behind fun _ =>
    .ite (brings_behind fun _ => brings_pure nofun) (brings_pure nofun)

theorem brings_statement : (ofRule .statement ()).Brings s room c (Stmt.Inside s) := by
  refine brings_behind fun t => ?_
  unfold statementAt
  cases t.kind with
  | kwDisplay => exact brings_rule (r := .display) ()
  | kwScan => exact brings_rule (r := .scan) ()
  | kwReturn => exact brings_rule (r := .ret) ()
  | kwIf => exact brings_rule (r := .conditional) ()
  | kwWhile => exact brings_rule (r := .loop) ()
  | kwBegin => exact brings_rule (r := .block) ()
  | kwFn => exact nofun
  | kwImmut => exact nofun
  | type _ => exact nofun
  | _ => exact brings_behind fun _ => brings_pure nofun

/-- The statement is read here, or one of the calls has it. -/
theorem brings_statements (hs : (Grammar.statement room c).1 ≠ some s) :
    (ofRule .statements ()).Brings s room c (Stmt.Among s) := by
  have hmore {c : Cursor} : (rule .statements ()).Brings s room c (Stmt.Among s) :=
    brings_rule (r := .statements) ()
  refine brings_behind fun t => .ite (brings_pure nofun) (.ite (brings_behind fun _ => hmore) ?_)
  have hread : (attempt .statement ()).Brings s room c
      fun o => ∃ t, o = some t ∧ (t = s ∨ Stmt.Inside s t) := by
    rintro o ho ⟨t, rfl, rfl | h⟩
    · exact absurd (Option.some.inj ho) hs
    · exact brings_attempt (r := .statement) () _ ho ⟨t, rfl, h⟩
  refine hread.bind fun o ho => ?_
  cases o with
  | none => exact brings_behind fun _ => hmore
  | some t =>
    refine brings_behind fun _ => hmore.bind fun more hnot => brings_pure fun h => ?_
    exact h.of_cons.elim (fun h => ho ⟨t, rfl, h⟩) hnot

theorem brings_conditional : (ofRule .conditional ()).Brings s room c (Stmt.Inside s) := by
  refine brings_behind fun keyword => brings_behind fun e => ?_
  refine (brings_rule (r := .fenced) .kwIf).bind fun inner hinner => ?_
  refine (brings_rule (r := .alternatives) ()).bind fun others hothers => brings_pure fun h => ?_
  cases h with
  | conditional h => exact hinner h
  | others h => exact hothers h

theorem brings_alternatives :
    (ofRule .alternatives ()).Brings s room c (Stmt.InAlternatives s) := by
  refine brings_behind fun t => .ite ?_ (brings_pure Stmt.not_inAlternatives_done)
  refine brings_behind fun _ => brings_behind fun u => .ite ?_ ?_
  · refine brings_behind fun _ => brings_behind fun e => ?_
    refine (brings_rule (r := .fenced) .kwIf).bind fun inner hinner => ?_
    refine (brings_rule (r := .alternatives) ()).bind fun others hothers => brings_pure fun h => ?_
    exact h.of_elseIf.elim hinner hothers
  · refine (brings_rule (r := .fenced) .kwIf).bind fun inner hinner => brings_pure fun h => ?_
    exact hinner h.of_otherwise

theorem brings_loop : (ofRule .loop ()).Brings s room c (Stmt.Inside s) := by
  refine brings_behind fun keyword => brings_behind fun e => ?_
  refine (brings_rule (r := .fenced) .kwWhile).bind fun inner hinner => brings_pure fun h => ?_
  cases h with
  | loop h => exact hinner h

theorem brings_block : (ofRule .block ()).Brings s room c (Stmt.Inside s) := by
  refine brings_behind fun opening => ?_
  refine (brings_rule (r := .body) true).bind fun inner hinner => ?_
  refine brings_behind fun _ => brings_pure fun h => ?_
  cases h with
  | block h => exact hinner h

theorem brings_fenced (fence : Kind) :
    (ofRule .fenced fence).Brings s room c (Stmt.Among s) := by
  refine brings_behind fun _ => brings_behind fun _ => ?_
  refine (brings_rule (r := .statements) ()).bind fun inner hinner => ?_
  exact brings_behind fun _ => brings_behind fun _ => brings_pure hinner

theorem brings_body (withFunctions : Bool) :
    (ofRule .body withFunctions).Brings s room c (Stmt.Among s) := by
  refine (brings_rule (r := .declarations) ()).bind fun declared hdeclared => ?_
  have hbehind {c : Cursor} (fns : List Stmt) (hfns : ¬ Stmt.Among s fns) :
      (rule .statements () >>= fun inner =>
        (pure (declared ++ fns ++ inner) : Script (List Stmt))).Brings s room c (Stmt.Among s) := by
    refine (brings_rule (r := .statements) ()).bind fun inner hinner => brings_pure fun h => ?_
    exact h.of_append.elim (fun h => h.of_append.elim hdeclared hfns) hinner
  refine .ite ?_ (hbehind [] nofun)
  exact (brings_rule (r := .functions) ()).bind fun fns hfns => hbehind fns hfns

/-- The function is read here, or one of the calls has it. -/
theorem brings_functions
    (hs : ¬ (c.current.kind = .kwFn ∧ (Grammar.function room c.advance).1 = some s)) :
    (ofRule .functions ()).Brings s room c (Stmt.Among s) := by
  have hmore {c : Cursor} : (rule .functions ()).Brings s room c (Stmt.Among s) :=
    brings_rule (r := .functions) ()
  refine brings_accept (fun hk => ?_) (brings_pure nofun)
  have hread : (attempt .function ()).Brings s room c.advance
      fun o => ∃ t, o = some t ∧ (t = s ∨ Stmt.Inside s t) := by
    rintro o ho ⟨t, rfl, rfl | h⟩
    · exact absurd ⟨hk, Option.some.inj ho⟩ hs
    · exact brings_attempt (r := .function) () _ ho ⟨t, rfl, h⟩
  rw [if_pos rfl]
  refine hread.bind fun o ho => ?_
  cases o with
  | none => exact brings_behind fun _ => hmore
  | some t =>
    refine hmore.bind fun more hnot => brings_pure fun h => ?_
    exact h.of_cons.elim (fun h => ho ⟨t, rfl, h⟩) hnot

theorem brings_function : (ofRule .function ()).Brings s room c (Stmt.Inside s) := by
  refine brings_behind fun result => brings_behind fun name => brings_behind fun _ => ?_
  refine brings_behind fun params => brings_behind fun _ => brings_behind fun _ => ?_
  refine brings_behind fun _ => (brings_rule (r := .body) true).bind fun inner hinner => ?_
  refine brings_behind fun _ => brings_behind fun _ => brings_pure fun h => ?_
  cases h with
  | function h => exact hinner h

theorem brings_program : (ofRule .program ()).Brings s room c (Stmt.Among s) := by
  refine (brings_rule (r := .functions) ()).bind fun fns hfns => ?_
  refine brings_behind fun _ => .ite (brings_pure hfns) (brings_behind fun _ => ?_)
  refine .ite (brings_pure hfns) ((brings_rule (r := .body) false).bind fun main hmain => ?_)
  have hall : ¬ Stmt.Among s (fns ++ main) := fun h => h.of_append.elim hfns hmain
  refine brings_behind fun _ => .ite (brings_pure hall) (brings_behind fun _ => ?_)
  refine .ite (brings_pure hall) (brings_behind fun t => .ite ?_ (brings_pure hall))
  exact brings_behind fun _ => brings_pure hall

end Script

namespace Activation

variable {s : Stmt}

/-- **Each rule that does not read the statement itself has it from a call.** -/
theorem brings (hs : s.part ≠ .declaration) {A : Activation} (hA : ¬ A.Takes s) {inner : Nat}
    (hbelow : A.rule.below A.room = some inner) :
    (Script.ofRule A.rule A.given).Brings s inner A.cursor (A.rule.Includes s) := by
  obtain ⟨room, rule, given, c⟩ := A
  cases rule with
  | declarators => exact Script.brings_declarators hs given.1 given.2
  | declaration => exact Script.brings_declaration
  | declarations => exact Script.brings_declarations
  | display => exact Script.brings_display
  | scan => exact Script.brings_scan
  | ret => exact Script.brings_ret
  | statement => exact Script.brings_statement
  | statements =>
    cases room with
    | zero => cases hbelow
    | succ room =>
      obtain rfl := Option.some.inj hbelow
      exact Script.brings_statements fun h => hA (.statement h)
  | conditional => exact Script.brings_conditional
  | alternatives => exact Script.brings_alternatives
  | loop => exact Script.brings_loop
  | block => exact Script.brings_block
  | fenced => exact Script.brings_fenced given
  | body => exact Script.brings_body given
  | functions =>
    cases room with
    | zero => cases hbelow
    | succ room =>
      obtain rfl := Option.some.inj hbelow
      exact Script.brings_functions fun h => hA (.function h.1 h.2)
  | function => exact Script.brings_function
  | program => exact Script.brings_program
  | _ => exact fun _ _ h => h.elim

/-- **Each statement in the tree was read on the way**, but for declarations of variables. By
    induction on the measure: what a rule calls is smaller. -/
theorem Sound.takes (hs : s.part ≠ .declaration) : ∀ {n : Nat} {A : Activation}, A.measure < n →
    A.Sound → A.Gives s → ∃ B, A.Reaches B ∧ B.Takes s
  | 0, _, hn, _, _ => absurd hn (Nat.not_lt_zero _)
  | n + 1, A, hn, hA, hgives => by
    by_cases htakes : A.Takes s
    · exact ⟨A, .refl, htakes⟩
    obtain ⟨a, ha, hincludes⟩ := hgives
    cases hbelow : A.rule.below A.room with
    | none =>
      have hfails : A.result.1 = none :=
        congrArg Prod.fst (congrFun (Rule.run_of_below_none hbelow A.given) A.cursor)
      rw [hfails] at ha
      cases ha
    | some inner =>
      rw [result_eq hbelow] at ha
      obtain ⟨B, henters, hB⟩ := brings hs htakes hbelow a ha hincludes
      have hcall : A.Enters B := ⟨inner, hbelow, henters⟩
      obtain ⟨hsound, hlt⟩ := hA.enters hcall
      obtain ⟨C, hreach, hC⟩ := hsound.takes hs (Nat.lt_of_lt_of_le hlt (Nat.le_of_lt_succ hn)) hB
      exact ⟨C, .head hcall hreach, hC⟩

end Activation

/-! ## 4. What a rule puts around it -/

/-- Whatever the script gives is in `P`. -/
def Script.Makes {α : Type} (P : α → Prop) (q : Script α) : Prop :=
  ∀ ⦃room : Nat⦄ ⦃c : Cursor⦄ ⦃a : α⦄, (q.run room c).1 = some a → P a

/-- What a rule gives is what its script gives. -/
theorem Rule.makes {r : Rule} (given : r.Given) {P : r.Result → Prop}
    (h : (Script.ofRule r given).Makes P) {room : Nat} {c : Cursor} {a : r.Result}
    (ha : (r.run room given c).1 = some a) : P a := by
  cases hbelow : r.below room with
  | none =>
    rw [Rule.run_of_below_none hbelow given] at ha
    cases ha
  | some inner =>
    rw [Rule.run_eq hbelow given] at ha
    exact h ha

/-- Is the statement a `DISPLAY`? -/
def isDisplay : Stmt → Bool
  | .display _ _ => true
  | _ => false

/-- The statement is no function, and if it is a `DISPLAY`, then the token is the keyword. -/
def BeginsAt (t : Token) (s : Stmt) : Prop :=
  s.part = .statement ∧ (isDisplay s = true → t.kind = .kwDisplay)

theorem beginsAt_of_not {t : Token} {s : Stmt} (hpart : s.part = .statement)
    (hs : isDisplay s = false) : BeginsAt t s :=
  ⟨hpart, fun h => absurd h (Bool.eq_false_iff.mp hs)⟩

namespace Script

variable {α β : Type} {P : β → Prop}

theorem makes_bind {q : Script α} {f : α → Script β} (hf : ∀ a, (f a).Makes P) :
    (q >>= f).Makes P := by
  intro room c b hb
  rw [run_bind] at hb
  cases ha : (q.run room c).1 with
  | none =>
    rw [Parse.bind_none ha] at hb
    cases hb
  | some a =>
    rw [Parse.bind_some ha] at hb
    exact hf a hb

theorem makes_pure {b : β} (hb : P b) : (pure b : Script β).Makes P :=
  fun _ _ _ ha => Option.some.inj ha ▸ hb

theorem makes_failAt (t : Token) (e : SyntaxError) : (failAt t e : Script β).Makes P := by
  intro room c b hb
  cases hb

theorem makes_rule {r : Rule} {given : r.Given} {P : r.Result → Prop}
    (h : (ofRule r given).Makes P) : (rule r given).Makes P := by
  intro room c a ha
  rw [run_rule] at ha
  exact Rule.makes given h ha

theorem Makes.ite {p : Prop} [Decidable p] {q q' : Script β} (hq : q.Makes P) (hq' : q'.Makes P) :
    (if p then q else q').Makes P := by
  split
  · exact hq
  · exact hq'

theorem makes_function : (ofRule .function ()).Makes fun s => s.part = .function := by
  refine makes_bind fun _ => makes_bind fun _ => makes_bind fun _ => makes_bind fun _ => ?_
  refine makes_bind fun _ => makes_bind fun _ => makes_bind fun _ => makes_bind fun _ => ?_
  exact makes_bind fun _ => makes_bind fun _ => makes_pure rfl

theorem makes_statementAt (t : Token) : (statementAt t).Makes (BeginsAt t) := by
  unfold statementAt
  cases hk : t.kind with
  | kwDisplay =>
    refine makes_rule (r := .display) (makes_bind fun _ => makes_bind fun _ => ?_)
    exact makes_bind fun _ => makes_pure ⟨rfl, fun _ => hk⟩
  | kwScan =>
    refine makes_rule (r := .scan) (makes_bind fun _ => makes_bind fun _ => ?_)
    exact makes_bind fun _ => makes_pure (beginsAt_of_not rfl rfl)
  | kwReturn =>
    refine makes_rule (r := .ret) (makes_bind fun _ => makes_bind fun _ => ?_)
    exact .ite (makes_bind fun _ => makes_pure (beginsAt_of_not rfl rfl))
      (makes_pure (beginsAt_of_not rfl rfl))
  | kwIf =>
    refine makes_rule (r := .conditional) (makes_bind fun _ => makes_bind fun _ => ?_)
    exact makes_bind fun _ => makes_bind fun _ => makes_pure (beginsAt_of_not rfl rfl)
  | kwWhile =>
    refine makes_rule (r := .loop) (makes_bind fun _ => makes_bind fun _ => ?_)
    exact makes_bind fun _ => makes_pure (beginsAt_of_not rfl rfl)
  | kwBegin =>
    refine makes_rule (r := .block) (makes_bind fun _ => makes_bind fun _ => ?_)
    exact makes_bind fun _ => makes_pure (beginsAt_of_not rfl rfl)
  | kwFn => exact makes_failAt _ _
  | kwImmut => exact makes_failAt _ _
  | type _ => exact makes_failAt _ _
  | _ => exact makes_bind fun _ => makes_pure (beginsAt_of_not rfl rfl)

end Script

/-- What is read as a function is one. -/
theorem part_of_function {room : Nat} {c : Cursor} {s : Stmt}
    (hs : (Grammar.function room c).1 = some s) : s.part = .function :=
  Rule.makes (r := .function) () Script.makes_function hs

/-- What is read as a statement is none; if it is a `DISPLAY`, the keyword stands there. -/
theorem begins_of_statement {room : Nat} {c : Cursor} {s : Stmt}
    (hs : (Grammar.statement room c).1 = some s) : BeginsAt c.current s := by
  cases room with
  | zero => cases hs
  | succ room =>
    have hrun : Grammar.statement (room + 1) = (Script.ofRule .statement ()).run room :=
      Rule.run_eq (show Rule.statement.below (room + 1) = some room from rfl) ()
    rw [hrun] at hs
    exact Script.makes_statementAt c.current hs

end Grammar

/-! ## 5. Programs -/

/-- A statement in the tree of a program was read at some place in its text. -/
theorem Program.taken {ts : List Token} {s : Stmt} (hs : s.part ≠ .declaration)
    (hin : Stmt.Among s (Program.ofTokens ts).stmts) : ∃ (A : Activation) (i : Nat),
      (Activation.start ts).Reaches A ∧ A.Takes s ∧
        A.cursor.tokens = (Cursor.withEnd ts).drop i := by
  have hstart := Activation.roomy_start ts
  have hgives : (Activation.start ts).Gives s := by
    change Stmt.Among s ((Activation.start ts).result.1.getD []) at hin
    cases hresult : (Activation.start ts).result.1 with
    | none =>
      rw [hresult] at hin
      cases hin
    | some ss =>
      rw [hresult] at hin
      exact ⟨ss, hresult, hin⟩
  obtain ⟨A, hreach, htakes⟩ := hstart.toSound.takes hs (Nat.lt_succ_self _) hgives
  obtain ⟨i, -, hplace, -⟩ := (hstart.onward_reaches hreach).eq_drop
  have htokens : (Activation.start ts).cursor.tokens = Cursor.withEnd ts :=
    Cursor.ofTokens_tokens ts
  rw [htokens] at hplace
  exact ⟨A, i, hreach, htakes, hplace⟩

end FencedCode
