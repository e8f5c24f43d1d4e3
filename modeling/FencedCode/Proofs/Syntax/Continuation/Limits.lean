import FencedCode.Proofs.Syntax.Continuation.Steps

/-!
# Too many entries

Calls have at most 255 arguments and functions at most 255 parameters, and the comma in front of
one more is already one too many. A text that ends behind such a comma is complained about at its
end, and every text that goes on from there is complained about at the entry which follows. So if a
text goes on to something that is accepted, where it ends there are not too many entries.

* `Diagnostic.overLimit_atToken` -- which complaints say so;
* `Bounded` -- that a step does not complain of too many entries where a text ends, unless the text
  that goes on is complained about as well;
* `Bounded.branch`, `bounded_law` -- that this is so of the steps of rules, and of such steps one
  after another;
* `bounded_alongCommas` -- lists whose length is limited;
* `bounded_rule`, `bounded_program` -- **all rules are bounded**, since their steps are.
-/

namespace FencedCode

open Parse Grammar

/-! ## 1. Complaints of too many entries -/

theorem utf8_append (s t : String) : utf8 (s ++ t) = utf8 s ++ utf8 t := by
  unfold utf8
  rw [String.toList_append, List.flatMap_append]

/-- Only complaints of too many entries start with a `C`. -/
theorem SyntaxError.head_message {e : SyntaxError} (he : e.isLimit = false) :
    (utf8 e.message).head? ≠ some 67 := by
  have hfront {s : String} (hs : (utf8 s).head? = some 69) (t u : String) :
      (utf8 (s ++ t ++ u)).head? ≠ some 67 := by
    rw [utf8_append, utf8_append, List.append_assoc, List.head?_append, hs, Option.some_or]
    decide
  have hparen : (utf8 "Expecting '(' after ").head? = some 69 := by decide +kernel
  have hfence : (utf8 "Expecting ").head? = some 69 := by decide +kernel
  cases e with
  | parenAfter keyword => exact hfront hparen keyword "."
  | fenceAfterBegin fence => exact hfront hfence fence.name " after BEGIN."
  | fenceAfterEnd fence => exact hfront hfence fence.name " after END."
  | tooManyArguments => cases he
  | tooManyParameters => cases he
  | _ => decide +kernel

theorem Diagnostic.overLimit_atToken {t : Token} {e : SyntaxError} (ht : t.kind = .eof)
    (he : e.isLimit = false) : (atToken t e).overLimit = false := by
  have hmessage : (atToken t e).message = some (utf8 "at end" ++ utf8 ": " ++ utf8 e.message) := by
    unfold atToken
    rw [if_pos ht]
  refine List.any_eq_false.mpr fun e' he' heq => SyntaxError.head_message he ?_
  rw [hmessage] at heq
  rw [List.append_cancel_left (Option.some.inj (of_decide_eq_true heq))]
  simp only [List.mem_cons, List.not_mem_nil, or_false] at he'
  rcases he' with rfl | rfl
  · decide +kernel
  · decide +kernel

/-! ## 2. Bounded steps -/

/-- A steady step that does not complain of too many entries where a text ends, unless the text that
    goes on is complained about. -/
structure Bounded {α : Type} (p : Parse α) : Prop where
  steady : Steady p
  ending {c : Cursor} : c.AtEnd → ∀ d ∈ (p c).2.reported, d ∈ c.reported ∨ d.overLimit = false
  early {post : List Token} {w c : Cursor} : Cursor.Cut post w c → (p w).2.reported = [] →
    ∀ d ∈ (p c).2.reported, d.overLimit = false

section Steps

variable {α β : Type}

/-- **Bounded steps one after another are bounded.** Behind a failure it is enough that the step
    does not complain of too many entries where a text ends. -/
theorem Bounded.branch {p : Parse α} {f : α → Parse β} {g : Parse β} (hp : Bounded p)
    (hf : ∀ a, Bounded (f a)) (hg : Local g) (hending : ∀ {c : Cursor}, c.AtEnd →
      ∀ d ∈ (g c).2.reported, d ∈ c.reported ∨ d.overLimit = false) : Bounded (p.branch f g) := by
  have hsteady (a : α) : Steady (f a) := (hf a).steady
  have hlater {c : Cursor} (hend : (p c).2.AtEnd) : ∀ d ∈ (p.branch f g c).2.reported,
      d ∈ (p c).2.reported ∨ d.overLimit = false := by
    cases ha : (p c).1 with
    | none => rw [branch_none ha]; exact hending hend
    | some a => rw [branch_some ha]; exact (hf a).ending hend
  refine ⟨hp.steady.branch hsteady hg, fun {c} hend d hd => ?_, fun {post w c} hcut hclean => ?_⟩
  · rcases hlater (hp.steady.ending hend).1 d hd with hd | hd
    · exact hp.ending hend d hd
    · exact .inr hd
  · obtain ⟨a, ha, hclean₁, hclean₂⟩ := hp.steady.branch_clean hsteady hg hclean
    by_cases hend : (p c).2.AtEnd
    · intro d hd
      rcases hlater hend d hd with hd | hd
      · exact hp.early hcut hclean₁ d hd
      · exact hd
    · obtain ⟨hresult, hcut₁⟩ := hp.steady.alike hcut hend
      rw [branch_some (hresult.symm.trans ha)]
      exact (hf a).early hcut₁ hclean₂

theorem Bounded.bind {p : Parse α} {f : α → Parse β} (hp : Bounded p) (hf : ∀ a, Bounded (f a)) :
    Bounded (p >>= f) := by
  rw [← branch_stop]
  exact hp.branch hf local_stop fun _ _ => .inl

/-- A step may be another bounded one for each token that it stands at. -/
theorem bounded_of_agree {p : Parse α} (h : ∀ t, ∃ q, Bounded q ∧ AgreeAt (some t) p q) :
    Bounded p := by
  refine ⟨steady_of_agree fun t => ?_, fun {c} hend => ?_, fun {post w c} hcut hclean => ?_⟩
  · obtain ⟨q, hq, hpq⟩ := h t
    exact ⟨q, hq.steady, hpq⟩
  · obtain ⟨q, hq, hpq⟩ := h c.current
    rw [hpq c fun t => Option.some.inj]
    exact hq.ending hend
  · obtain ⟨q, hq, hpq⟩ := h c.current
    rw [hpq w fun t ht => hcut.current.trans (Option.some.inj ht)] at hclean
    rw [hpq c fun t => Option.some.inj]
    exact hq.early hcut hclean

/-- A step that never complains. -/
theorem Steady.bounded {p : Parse α} (hp : Steady p)
    (hsilent : ∀ c, (p c).2.reported = c.reported) : Bounded p := by
  refine ⟨hp, fun {c} _ d hd => .inl (by rwa [hsilent] at hd),
    fun {post w c} hcut hclean d hd => ?_⟩
  rw [hsilent, ← hcut.reported, ← hsilent, hclean] at hd
  cases hd

theorem bounded_pure (a : α) : Bounded (pure a : Parse α) :=
  (steady_pure a).bounded fun _ => rfl

theorem bounded_skip : Bounded skip :=
  steady_skip.bounded fun c => c.advance_reported

/-- A step that complains about the current token. -/
theorem bounded_report (o : Option α) {e : SyntaxError} (he : e.isLimit = false) :
    Bounded (fun c => (o, c.report c.current e) : Parse α) := by
  refine ⟨steady_report o e, fun {c} hend d hd => ?_, fun _ hclean => absurd hclean
    (List.cons_ne_nil _ _)⟩
  rcases List.mem_cons.mp hd with rfl | hd
  · exact .inr (Diagnostic.overLimit_atToken hend he)
  · exact .inl hd

theorem bounded_fail {e : SyntaxError} (he : e.isLimit = false) : Bounded (fail e : Parse α) :=
  bounded_report none he

theorem bounded_ite {q : Prop} [Decidable q] {p p' : Parse α} (hp : Bounded p) (hp' : Bounded p') :
    Bounded (if q then p else p') := by
  split
  · exact hp
  · exact hp'

/-- A step that is blamed always leaves a complaint, which is about the token where it started. -/
theorem Bounded.blaming {p : Parse α} (hp : Bounded p) {e : SyntaxError} (he : e.isLimit = false) :
    Bounded (blaming p e) := by
  refine ⟨hp.steady.blaming e, fun {c} hend => ?_,
    fun _ hclean => absurd hclean (hp.steady.blaming_reported e)⟩
  cases ha : (p c).1 with
  | none => rw [blaming_of_none ha]; exact hp.ending hend
  | some a =>
    rw [blaming_of_some ha]
    intro d hd
    rcases List.mem_cons.mp hd with rfl | hd
    · exact .inr (Diagnostic.overLimit_atToken hend he)
    · exact hp.ending hend d hd

theorem bounded_recovery {r : Rule} (hr : r.isRecovery = true) (given : r.Given) :
    Bounded (r.run 0 given) := by
  refine (steady_recovery hr given).bounded fun c => ?_
  cases r with
  | synchronize => exact (Cursor.recovers_synchronize c).1
  | boundary => rfl
  | skipFunction => exact (Cursor.recovers_skipFunction c).1
  | _ => cases hr

/-- The laws of bounded steps. -/
theorem bounded_law : Law fun p _ => Bounded p where
  pure := bounded_pure
  skip := bounded_skip
  complain he := bounded_report (some ()) he
  fail he := bounded_fail he
  look h := bounded_of_agree fun t => by
    obtain ⟨p', q', hp', hp, -⟩ := h t
    exact ⟨p', hp', hp⟩
  bind hp hf := hp.bind hf
  branch hp hf hp' := hp.branch hf hp'.steady.toLocal hp'.ending
  blaming he hp := hp.blaming he
  recovery given hr := bounded_recovery hr given
  nesting _ := bounded_fail rfl

/-- A step that always complains at tokens of some kind, and stays where it is at others. -/
theorem bounded_of_kind {p : Parse α} (hp : Steady p) {k : Kind} (hk : k ≠ .eof)
    (hat : ∀ {w : Cursor}, w.current.kind = k → (p w).2.reported ≠ [])
    (hother : ∀ {w : Cursor}, w.current.kind ≠ k → (p w).2 = w) : Bounded p := by
  refine ⟨hp, fun {c} hend => ?_, fun {post w c} hcut hclean => ?_⟩
  · have hc : c.current.kind ≠ k := fun hc => hk (hc.symm.trans hend)
    rw [hother hc]
    exact fun _ hd => .inl hd
  · have hw : w.current.kind ≠ k := fun hw => hat hw hclean
    rw [hother hw] at hclean
    rw [hother (by rw [← hcut.current]; exact hw), ← hcut.reported, hclean]
    exact nofun

/-- Entries with commas between them. What follows a comma is bounded or always complained of. -/
theorem bounded_alongCommas {entry : Parse α} {more : Parse (List α)} (hentry : Bounded entry)
    (hsteady : Steady more) (hmore : ∀ w, (more w).2.reported = [] → Bounded more) :
    Bounded (alongCommas entry more) := by
  refine hentry.bind fun a => ?_
  by_cases hsome : ∃ w, (more w).2.reported = []
  · obtain ⟨w, hw⟩ := hsome
    exact (bounded_law.accept .comma).bind fun _ =>
      bounded_ite ((hmore w hw).bind fun _ => bounded_pure _) (bounded_pure _)
  · have hp := (steady_accept .comma).bind fun b => steady_ite (q := b = true)
      (hsteady.bind fun as => steady_pure (a :: as)) (steady_pure [a])
    refine bounded_of_kind hp (k := .comma) (by decide) (fun {w} hw hclean => ?_) fun {w} hw => ?_
    · rw [accept_bind_of_kind hw, if_pos rfl] at hclean
      refine hsome ⟨w.advance, ?_⟩
      cases ha : (more w.advance).1 with
      | none => rwa [Parse.bind_none ha] at hclean
      | some as => rwa [Parse.bind_some ha] at hclean
    · rw [accept_bind_of_ne hw]
      rfl

/-- Entries whose number is limited: if one is read without a complaint, it is not one too many. -/
theorem lt_of_withinLimit {q : Parse α} (hq : Steady q) {count : Nat} {e : SyntaxError} {w : Cursor}
    (hclean : ((withinLimit count e >>= fun _ => q) w).2.reported = []) : count < maxArgs := by
  rw [withinLimit_eq] at hclean
  refine Nat.not_le.mp fun hlimit => ?_
  rw [if_pos hlimit] at hclean
  exact absurd (hq.clean hclean) (List.cons_ne_nil _ _)

theorem bounded_withinLimit {count : Nat} (e : SyntaxError) (hcount : count < maxArgs) :
    Bounded (withinLimit count e) := by
  rw [withinLimit_eq, if_neg (Nat.not_le.mpr hcount)]
  exact bounded_pure ()

end Steps

/-! ## 3. Rules -/

theorem lt_of_arguments {room count : Nat} {w : Cursor}
    (hclean : (arguments room count w).2.reported = []) : count < maxArgs := by
  cases room with
  | zero => exact absurd hclean (List.cons_ne_nil _ _)
  | succ room =>
    rw [arguments_eq] at hclean
    exact lt_of_withinLimit (grows_law.alongCommas (Rule.expression.grows room ())
      (Rule.arguments.grows room (count + 1))).steady hclean

theorem lt_of_parameters {room count : Nat} {w : Cursor}
    (hclean : (parameters room count w).2.reported = []) : count < maxArgs := by
  cases room with
  | zero => exact absurd hclean (List.cons_ne_nil _ _)
  | succ room =>
    rw [parameters_eq] at hclean
    exact lt_of_withinLimit (grows_law.alongCommas steady_parameter.grows
      (Rule.parameters.grows room (count + 1))).steady hclean

/-- **All rules are bounded**, those of lists as long as there are not too many entries before them:
    with too many, every entry is complained about. -/
theorem bounded_rule (room : Nat) (r : Rule) (given : r.Given)
    (hgiven : r.Counts (· < maxArgs) given) : Bounded (r.run room given) := by
  refine bounded_law.rule (N := (· < maxArgs)) (by decide)
    (fun {room count} hcount hexpression hmore => ?_)
    (fun {room count} hcount hmore => ?_) room r given hgiven
  · rw [arguments_eq]
    exact (bounded_withinLimit _ hcount).bind fun _ => bounded_alongCommas hexpression
      (Rule.arguments.steady room (count + 1)) fun w hclean => hmore (lt_of_arguments hclean)
  · rw [parameters_eq]
    exact (bounded_withinLimit _ hcount).bind fun _ => bounded_alongCommas bounded_law.parameter
      (Rule.parameters.steady room (count + 1)) fun w hclean => hmore (lt_of_parameters hclean)

/-- **Programs are read with bounded steps.** -/
theorem bounded_program (room : Nat) : Bounded (program room) :=
  bounded_rule room .program () trivial

end FencedCode
