import FencedCode.Proofs.Syntax.Script

/-!
# Properties that the steps of scripts keep

Most rules only look at the current token, pass it, complain about it and call other rules. A
property that these steps have, and that they keep when one follows another, is one of all rules.
So it is enough to prove a law for each step; the walk over the rules is done once, here.

* `Script.Direct` -- scripts of such steps;
* `Script.direct_ofRule` -- **the scripts of all rules are direct**, but for those of assignments
  and of lists whose length is limited;
* `Law` -- what the steps have to have and to keep;
* `Law.script` -- what is true of the steps is true of direct scripts, by induction on the script;
* `Law.rule` -- **and of all rules**, by induction on the room.
-/

namespace FencedCode

open Parse Grammar

/-- Does the complaint say that there are too many entries? -/
def SyntaxError.isLimit : SyntaxError → Bool
  | tooManyArguments | tooManyParameters => true
  | _ => false

/-! ## 1. Steps -/

namespace Parse

variable {α β : Type}

/-- Fails without a complaint. -/
def stop : Parse α :=
  fun c => (none, c)

/-- One step after another, also where the first one fails. -/
def branch (p : Parse α) (f : α → Parse β) (g : Parse β) : Parse β := fun c =>
  match p c with
  | (some a, c') => f a c'
  | (none, c') => g c'

section Branch

variable {p : Parse α} {f : α → Parse β} {g : Parse β} {c : Cursor} {a : α}

theorem branch_some (hp : (p c).1 = some a) : p.branch f g c = f a (p c).2 := by
  unfold branch
  rcases hrun : p c with ⟨o, c'⟩
  rw [hrun] at hp
  obtain rfl : o = some a := hp
  rfl

theorem branch_none (hp : (p c).1 = none) : p.branch f g c = g (p c).2 := by
  unfold branch
  rcases hrun : p c with ⟨o, c'⟩
  rw [hrun] at hp
  obtain rfl : o = none := hp
  rfl

/-- Where nothing is done about a failure, it ends both steps. -/
theorem branch_stop (p : Parse α) (f : α → Parse β) : p.branch f stop = p >>= f := by
  funext c
  cases hp : (p c).1 with
  | none => rw [branch_none hp, Parse.bind_none hp]; rfl
  | some a => rw [branch_some hp, Parse.bind_some hp]

theorem orRecover_eq_branch (p : Parse α) (recover : Cursor → Cursor) :
    orRecover p recover = p.branch (fun a => pure (some a)) fun c => (some none, recover c) := by
  funext c
  cases hp : (p c).1 with
  | none =>
    have hbranch := branch_none (f := fun a => pure (some a))
      (g := fun c => (some none, recover c)) hp
    exact (orRecover_none hp).trans hbranch.symm
  | some a =>
    have hbranch := branch_some (f := fun a => pure (some a))
      (g := fun c => (some none, recover c)) hp
    exact (orRecover_some hp).trans hbranch.symm

end Branch

/-- Two steps that do the same where `cur` is the current token, or everywhere if it is `none`. -/
def AgreeAt (cur : Option Token) (p q : Parse α) : Prop :=
  ∀ c : Cursor, (∀ t ∈ cur, c.current = t) → p c = q c

theorem agreeAt_rfl {cur : Option Token} (p : Parse α) : AgreeAt cur p p :=
  fun _ _ => rfl

theorem AgreeAt.eq {p q : Parse α} (h : AgreeAt none p q) : p = q :=
  funext fun c => h c nofun

end Parse

/-! ## 2. Direct scripts -/

namespace Grammar

namespace Rule

/-- If the rule counts the entries of a list, the count is one of `N`. -/
def Counts (N : Nat → Prop) : (r : Rule) → r.Given → Prop
  | arguments, count | parameters, count => N count
  | _, _ => True

/-- Is the rule one of assignments or of lists with limits? They complain about a token once they
    have passed it, or of too many entries. -/
def isSpecial : Rule → Bool
  | expression | arguments | parameters => true
  | _ => false

end Rule

namespace Script

variable {α β : Type} {calls : (r : Rule) → r.Given → Prop} {cur : Option Token}

/-- The script looks at current tokens only, complains about no other tokens, does not complain of
    too many entries, and fails with a complaint or because a call has failed. Its calls are among
    `calls`. The current token is `cur`, if the script has looked at it. -/
def Direct (calls : (r : Rule) → r.Given → Prop) : Option Token → Script α → Prop
  | _, done _ => True
  | _, failed => False
  | _, look next => ∀ t, (next t).Direct calls (some t)
  | _, lookNext _ => False
  | _, lookBack _ => False
  | _, skip next => next.Direct calls none
  | cur, complain t e next =>
    cur = some t ∧ e.isLimit = false ∧ (next = failed ∨ next.Direct calls cur)
  | _, call r given next => calls r given ∧ (∀ a, (next (some a)).Direct calls none) ∧
    (next none = failed ∨ (next none).Direct calls none)

theorem bind_def (s : Script α) (f : α → Script β) : (s >>= f) = s.bind f :=
  rfl

theorem pure_def (a : α) : (pure a : Script α) = done a :=
  rfl

theorem bind_ite (q : Prop) [Decidable q] (s s' : Script α) (f : α → Script β) :
    (if q then s else s').bind f = if q then s.bind f else s'.bind f := by
  split <;> rfl

theorem direct_ite {q : Prop} [Decidable q] {s s' : Script α} :
    (if q then s else s').Direct calls cur ↔
      (q → s.Direct calls cur) ∧ (¬ q → s'.Direct calls cur) := by
  split <;> simp [*]

theorem direct_typeWord {e : SyntaxError} {f : TypeName → Script α} :
    ((typeWord e).bind f).Direct calls cur ↔
      ∀ t, (t.kind.type? = none → e.isLimit = false) ∧
        ∀ type, t.kind.type? = some type → (f ⟨type, t⟩).Direct calls none := by
  simp only [typeWord, peek, bind_def, Script.bind, Direct]
  refine forall_congr' fun t => ?_
  cases htype : t.kind.type? <;> simp [failAt, pass, Script.bind, pure_def, Direct]

theorem direct_resultType {f : Option TypeName → Script α} :
    (resultType.bind f).Direct calls cur ↔
      ∀ t, (t.kind.type? = none → (f none).Direct calls (some t)) ∧
        ∀ type, t.kind.type? = some type → (f (some ⟨type, t⟩)).Direct calls none := by
  simp only [resultType, peek, bind_def, Script.bind, Direct]
  refine forall_congr' fun t => ?_
  cases htype : t.kind.type? <;> simp [pass, Script.bind, pure_def, Direct]

/-- **The scripts of all rules are direct**, but for the special ones. They call lists from the
    start, and what hands on its room calls only what takes a level of it. -/
theorem direct_ofRule (r : Rule) (given : r.Given) (hrecovery : r.isRecovery = false)
    (hspecial : r.isSpecial = false) :
    (ofRule r given).Direct (fun r' given' => r.MayCall r' ∧ r'.Counts (· = 0) given') none := by
  cases r with
  | expression | arguments | parameters => cases hspecial
  | synchronize | boundary | skipFunction => cases hrecovery
  | operand o =>
    cases o <;> simp [ofRule, rule, bind_def, Script.bind, Direct, Rule.MayCall, Rule.deepens,
      Rule.Counts]
  | statement =>
    simp only [ofRule, bind_def, peek, Script.bind, Direct]
    intro t
    unfold statementAt
    cases t.kind <;> simp [rule, failAt, bind_def, pure_def, Script.bind, Direct, Rule.MayCall,
      Rule.deepens, Rule.Counts, SyntaxError.isLimit]
  | _ =>
    simp [ofRule, peek, pass, take, warn, failAt, expect, accept, rule, attempt, alongCommas,
      upToParen, initializer, fence, bind_def, pure_def, bind_ite, Script.bind, Direct, direct_ite,
      direct_typeWord, direct_resultType, Rule.MayCall, Rule.deepens, Rule.Counts,
      SyntaxError.isLimit]

end Script

/-! ## 3. Laws -/

/-- A property of parsing steps, or of two steps side by side, which the steps of direct scripts
    have and which is kept when steps follow one another. -/
structure Law (P : ∀ {α : Type}, Parse α → Parse α → Prop) : Prop where
  pure {α : Type} (a : α) : P (pure a) (pure a)
  skip : P skip skip
  complain {e : SyntaxError} : e.isLimit = false → P (complainHere e) (complainHere e)
  fail {α : Type} {e : SyntaxError} : e.isLimit = false → P (fail e : Parse α) (fail e)
  /-- A step may be another one for each token it stands at. -/
  look {α : Type} {p q : Parse α} :
    (∀ t, ∃ p' q', P p' q' ∧ AgreeAt (some t) p p' ∧ AgreeAt (some t) q q') → P p q
  bind {α β : Type} {p q : Parse α} {f g : α → Parse β} :
    P p q → (∀ a, P (f a) (g a)) → P (p >>= f) (q >>= g)
  branch {α β : Type} {p q : Parse α} {f g : α → Parse β} {p' q' : Parse β} :
    P p q → (∀ a, P (f a) (g a)) → P p' q' → P (p.branch f p') (q.branch g q')
  blaming {α : Type} {p q : Parse α} {e : SyntaxError} :
    e.isLimit = false → P p q → P (blaming p e) (blaming q e)
  recovery {r : Rule} (given : r.Given) :
    r.isRecovery = true → P (r.run 0 given) (r.run 0 given)
  /-- Without room nothing is compared. -/
  nesting {α : Type} (q : Parse α) : P (Parse.fail .nesting) q

namespace Law

variable {P : ∀ {α : Type}, Parse α → Parse α → Prop} {room room' : Nat}

/-- A call, and what comes behind it in either case. -/
theorem run_call {α : Type} {r : Rule} {given : r.Given} (next : Option r.Result → Script α) :
    (Script.call r given next).run room =
      (r.run room given).branch (fun a => (next (some a)).run room) ((next none).run room) := by
  funext c
  show (next (r.run room given c).1).run room (r.run room given c).2 = _
  cases hrun : (r.run room given c).1 with
  | none => exact (branch_none hrun).symm
  | some a => exact (branch_some (f := fun a => (next (some a)).run room) hrun).symm

/-- **What is true of the steps is true of direct scripts.** Where the script has looked at a token,
    it does there what some step with the property does. -/
theorem script (law : Law P) {calls : (r : Rule) → r.Given → Prop}
    (hcalls : ∀ (r : Rule) given, calls r given → P (r.run room given) (r.run room' given))
    {α : Type} {s : Script α} {cur : Option Token} (hs : s.Direct calls cur) :
    ∃ p q, P p q ∧ AgreeAt cur (s.run room) p ∧ AgreeAt cur (s.run room') q := by
  have hclear {s : Script α} (h : ∃ p q, P p q ∧ AgreeAt none (s.run room) p ∧
      AgreeAt none (s.run room') q) : P (s.run room) (s.run room') := by
    obtain ⟨p, q, hpq, hp, hq⟩ := h
    rwa [hp.eq, hq.eq]
  induction s generalizing cur with
  | done a => exact ⟨_, _, law.pure a, agreeAt_rfl _, agreeAt_rfl _⟩
  | failed => exact hs.elim
  | lookNext next ih => exact hs.elim
  | lookBack next ih => exact hs.elim
  | look next ih =>
    refine ⟨_, _, law.look fun t => ?_, agreeAt_rfl _, agreeAt_rfl _⟩
    obtain ⟨p, q, hpq, hp, hq⟩ := ih t (hs t)
    refine ⟨p, q, hpq, fun c hc => ?_, fun c hc => ?_⟩
    · rw [← hp c hc, ← hc t rfl]
      rfl
    · rw [← hq c hc, ← hc t rfl]
      rfl
  | skip next ih =>
    exact ⟨_, _, law.bind law.skip fun _ => hclear (ih hs), agreeAt_rfl _, agreeAt_rfl _⟩
  | complain t e next ih =>
    obtain ⟨rfl, he, rfl | hnext⟩ := hs
    · refine ⟨_, _, law.fail he, fun c hc => ?_, fun c hc => ?_⟩ <;>
        exact congrArg (fun u => (none, c.report u e)) (hc t rfl).symm
    · obtain ⟨p, q, hpq, hp, hq⟩ := ih hnext
      refine ⟨_, _, law.bind (law.complain he) fun _ => hpq, fun c hc => ?_, fun c hc => ?_⟩
      · have hreport : c.report t e = c.report c.current e := by rw [hc t rfl]
        exact (hp (c.report t e) hc).trans (congrArg p hreport)
      · have hreport : c.report t e = c.report c.current e := by rw [hc t rfl]
        exact (hq (c.report t e) hc).trans (congrArg q hreport)
  | call r given next ih =>
    obtain ⟨hr, hsome, hnone⟩ := hs
    refine ⟨_, _, ?_, agreeAt_rfl _, agreeAt_rfl _⟩
    rw [run_call, run_call]
    have hcall := hcalls r given hr
    have hbehind (a : r.Result) := hclear (ih (some a) (hsome a))
    rcases hnone with hnone | hnone
    · rw [hnone]
      have hbind := law.bind hcall hbehind
      rwa [← branch_stop, ← branch_stop] at hbind
    · exact law.branch hcall hbehind (hclear (ih none hnone))

/-! What else the rules do. -/

theorem peek (law : Law P) {α : Type} {f g : Token → Parse α} (hfg : ∀ t, P (f t) (g t)) :
    P (Parse.peek >>= f) (Parse.peek >>= g) := by
  refine law.look fun t => ⟨f t, g t, hfg t, fun c hc => ?_, fun c hc => ?_⟩
  · exact congrArg (f · c) (hc t rfl)
  · exact congrArg (g · c) (hc t rfl)

theorem ite {α : Type} {b : Prop} [Decidable b] {p p' q q' : Parse α} (hp : P p q)
    (hp' : P p' q') : P (if b then p else p') (if b then q else q') := by
  split
  · exact hp
  · exact hp'

theorem accept (law : Law P) (k : Kind) : P (Parse.accept k) (Parse.accept k) := by
  rw [accept_eq]
  exact law.peek fun _ => ite (law.bind law.skip fun _ => law.pure true) (law.pure false)

/-- What is true of the steps is true of a direct script that calls no rules. -/
theorem ofScript (law : Law P) {α : Type} {s : Script α}
    (hs : s.Direct (fun _ _ => False) none) (room : Nat) : P (s.run room) (s.run room) := by
  have hsteps : ∃ p q, P p q ∧ AgreeAt none (s.run room) p ∧ AgreeAt none (s.run room) q :=
    law.script (fun _ _ => False.elim) hs
  obtain ⟨p, q, hpq, hp, hq⟩ := hsteps
  rwa [← hp.eq, ← hq.eq] at hpq

theorem parameter (law : Law P) : P Grammar.parameter Grammar.parameter := by
  have hdirect : (Script.typeWord .parameterType >>= fun type =>
      Script.expect .identifier .parameterName >>= fun name =>
        Pure.pure (⟨type, name⟩ : Param)).Direct (fun _ _ => False) none := by
    simp [Script.bind_def, Script.direct_typeWord, Script.expect, Script.bind, Script.bind_ite,
      Script.direct_ite, Script.pure_def, Script.Direct, SyntaxError.isLimit]
  have hparameter := law.ofScript hdirect 0
  simp only [Script.run_bind, Script.run_typeWord, Script.run_expect, Script.run_pure] at hparameter
  exact hparameter

theorem alongCommas (law : Law P) {α : Type} {entry entry' : Parse α} {more more' : Parse (List α)}
    (hentry : P entry entry') (hmore : P more more') :
    P (Grammar.alongCommas entry more) (Grammar.alongCommas entry' more') :=
  law.bind hentry fun a => law.bind (law.accept .comma) fun _ =>
    ite (law.bind hmore fun as => law.pure (a :: as)) (law.pure [a])

/-- The sign of an assignment is passed first and may be complained about afterwards. -/
theorem assignment (law : Law P) (hexpression : P (expression room) (expression room'))
    (e : Expr) : P (Grammar.assignment room e) (Grammar.assignment room' e) := by
  cases hname : e.name? with
  | some name =>
    rw [assignment_of_name hname, assignment_of_name hname]
    refine law.peek fun op => ite ?_ (law.pure e)
    exact law.bind law.skip fun _ => law.bind hexpression fun value =>
      law.pure (Expr.assign name value)
  | none =>
    rw [assignment_of_no_name hname, assignment_of_no_name hname]
    refine law.peek fun op => ite ?_ (law.pure e)
    exact law.bind (law.blaming rfl (law.bind law.skip fun _ => hexpression)) fun _ => law.pure e

/-- A rule that is not special does what its script says, and this is direct. -/
theorem directRule (law : Law P) {r : Rule} {given : r.Given} {inner inner' : Nat}
    (hrecovery : r.isRecovery = false) (hspecial : r.isSpecial = false)
    (h : r.below room = some inner) (h' : r.below room' = some inner')
    (hcalls : ∀ (r' : Rule) given', r.MayCall r' → r'.Counts (· = 0) given' →
      P (r'.run inner given') (r'.run inner' given')) :
    P (r.run room given) (r.run room' given) := by
  obtain ⟨p, q, hpq, hp, hq⟩ := law.script (fun r' given' h => hcalls r' given' h.1 h.2)
    (Script.direct_ofRule r given hrecovery hspecial)
  rw [Rule.run_eq h, Rule.run_eq h', hp.eq, hq.eq]
  exact hpq

/-- **A law for the steps is one for all rules**, if it is one for lists whose length is limited:
    what a rule does with some room and with one level more has the property. Lists are read from
    counts in `N` on. -/
theorem rule (law : Law P) {N : Nat → Prop} (hzero : N 0)
    (harguments : ∀ {room count}, N count → P (expression room) (expression (room + 1)) →
      (N (count + 1) → P (arguments room (count + 1)) (arguments (room + 1) (count + 1))) →
      P (arguments (room + 1) count) (arguments (room + 2) count))
    (hparameters : ∀ {room count}, N count →
      (N (count + 1) → P (parameters room (count + 1)) (parameters (room + 1) (count + 1))) →
      P (parameters (room + 1) count) (parameters (room + 2) count)) :
    ∀ room (r : Rule) given, r.Counts N given → P (r.run room given) (r.run (room + 1) given) := by
  have hfresh {r : Rule} {given : r.Given} (h : r.Counts (· = 0) given) : r.Counts N given := by
    cases r with
    | arguments | parameters => exact h ▸ hzero
    | _ => trivial
  refine Rule.induct (fun room r given hr _ => ?recovery) (fun room r given hnone _ => ?starved)
    fun room inner r given hrecovery hbelow ih hgiven => ?step
  case recovery =>
    rw [Rule.run_recovery hr room, Rule.run_recovery hr (room + 1)]
    exact law.recovery given hr
  case starved =>
    rw [Rule.run_of_below_none hnone]
    exact law.nesting _
  case step =>
    cases hspecial : r.isSpecial with
    | false =>
      refine law.directRule hrecovery hspecial hbelow (Rule.below_add_one hbelow) ?_
      exact fun r' given' hcall hcount => ih r' given' hcall (hfresh hcount)
    | true =>
      cases r with
      | expression =>
        obtain rfl := Rule.eq_add_one_of_below rfl hbelow
        rw [Rule.run, Rule.run, expression_eq, expression_eq]
        exact law.bind (ih (.operand _) () nofun trivial)
          (law.assignment (ih .expression () nofun trivial))
      | arguments =>
        obtain rfl := Rule.eq_add_one_of_below rfl hbelow
        exact harguments hgiven (ih .expression () nofun trivial) (ih .arguments (given + 1) nofun)
      | parameters =>
        obtain rfl := Rule.eq_add_one_of_below rfl hbelow
        exact hparameters hgiven (ih .parameters (given + 1) nofun)
      | _ => cases hspecial

end Law

end Grammar

end FencedCode
