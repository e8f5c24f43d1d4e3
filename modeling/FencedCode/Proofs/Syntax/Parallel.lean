import FencedCode.Proofs.Syntax.Progress

/-!
# Two runs side by side

Two scripts with the same steps can be run side by side: where one looks at a token, the other
looks at one that is paired with it, and where one calls a rule, the other calls the same rule. If
what the rules give is paired as well, then so is what the scripts come to. What is paired with what
is left open; it may be the same, or the same up to places.

* `Pairing` -- which tokens, calls and results are paired;
* `Script.Parallel` -- scripts with the same steps, whose results are in a relation, with a law for
  each step that the rules take;
* `Pairing.Kept` -- a relation of cursors that steps keep;
* `Script.Parallel.run` -- **started at related cursors, parallel scripts come to related cursors
  and results**, if what they call does, by induction on the steps;
* `Rule.mayCall_of_enters` -- which rules a rule calls.
-/

namespace FencedCode.Grammar

open Parse

/-! ## 1. Parallel scripts -/

/-- What is paired when two scripts run side by side. -/
structure Pairing where
  token : Token → Token → Prop
  /-- Calls of a rule. -/
  call (r : Rule) : r.Given → r.Given → Prop
  /-- Results of paired calls. -/
  result (r : Rule) : r.Result → r.Result → Prop
  kind {t t' : Token} : token t t' → t.kind = t'.kind

namespace Script

variable {α β : Type} {P : Pairing} {R : α → α → Prop} {R' : β → β → Prop}

/-- Two scripts with the same steps, whose results are in a relation. They never look back at the
    token before. -/
inductive Parallel (P : Pairing) (R : α → α → Prop) : Script α → Script α → Prop where
  | done {a a' : α} : R a a' → Parallel P R (.done a) (.done a')
  | failed : Parallel P R .failed .failed
  | look {next next' : Token → Script α} :
    (∀ t t', P.token t t' → Parallel P R (next t) (next' t')) →
    Parallel P R (.look next) (.look next')
  | lookNext {next next' : Token → Script α} :
    (∀ t t', P.token t t' → Parallel P R (next t) (next' t')) →
    Parallel P R (.lookNext next) (.lookNext next')
  | skip {next next' : Script α} :
    Parallel P R next next' → Parallel P R (.skip next) (.skip next')
  | complain {t t' : Token} (e : SyntaxError) {next next' : Script α} : P.token t t' →
    Parallel P R next next' → Parallel P R (.complain t e next) (.complain t' e next')
  | call {r : Rule} {given given' : r.Given} {next next' : Option r.Result → Script α} :
    P.call r given given' → Parallel P R (next none) (next' none) →
    (∀ a a', P.result r a a' → Parallel P R (next (some a)) (next' (some a'))) →
    Parallel P R (.call r given next) (.call r given' next')

theorem Parallel.bind {s s' : Script α} {f f' : α → Script β} (hs : Parallel P R s s')
    (hf : ∀ a a', R a a' → Parallel P R' (f a) (f' a')) :
    Parallel P R' (s >>= f) (s' >>= f') := by
  show Parallel P R' (s.bind f) (s'.bind f')
  induction hs with
  | done ha => exact hf _ _ ha
  | failed => exact .failed
  | look _ ih => exact .look ih
  | lookNext _ ih => exact .lookNext ih
  | skip _ ih => exact .skip ih
  | complain e ht _ ih => exact .complain e ht ih
  | call hr _ _ ihnone ihsome => exact .call hr ihnone ihsome

theorem Parallel.ite {q : Prop} [Decidable q] {s s' u u' : Script α}
    (hs : q → Parallel P R s s') (hu : ¬ q → Parallel P R u u') :
    Parallel P R (if q then s else u) (if q then s' else u') := by
  split
  · rename_i hq
    exact hs hq
  · rename_i hq
    exact hu hq

/-! ### The steps of the rules -/

theorem parallel_peek {f f' : Token → Script α}
    (hf : ∀ t t', P.token t t' → t.kind = t'.kind → Parallel P R (f t) (f' t')) :
    Parallel P R (peek >>= f) (peek >>= f') :=
  .look fun t t' ht => hf t t' ht (P.kind ht)

theorem parallel_pass {s s' : Script α} (hs : Parallel P R s s') :
    Parallel P R (pass >>= fun _ => s) (pass >>= fun _ => s') :=
  .skip hs

theorem parallel_failAt {t t' : Token} (ht : P.token t t') (e : SyntaxError) :
    Parallel P R (failAt t e) (failAt t' e) :=
  .complain e ht .failed

theorem parallel_warn {t t' : Token} (ht : P.token t t') (e : SyntaxError) {s s' : Script α}
    (hs : Parallel P R s s') : Parallel P R (warn t e >>= fun _ => s) (warn t' e >>= fun _ => s') :=
  .complain e ht hs

theorem parallel_take : Parallel P P.token take take :=
  .look fun _ _ ht => .skip (.done ht)

theorem parallel_expect (k : Kind) (e : SyntaxError) :
    Parallel P P.token (expect k e) (expect k e) := by
  refine .look fun t t' ht => ?_
  rw [P.kind ht]
  exact .ite (fun _ => .skip (.done ht)) fun _ => .complain e ht .failed

theorem parallel_accept (k : Kind) : Parallel P Eq (accept k) (accept k) := by
  refine .look fun t t' ht => ?_
  rw [P.kind ht]
  exact .ite (fun _ => .skip (.done rfl)) fun _ => .done rfl

/-- A word that may be left out, and what comes behind it in either case. -/
theorem parallel_accept_bind (k : Kind) {f f' : Bool → Script α}
    (hf : ∀ b, Parallel P R (f b) (f' b)) : Parallel P R (accept k >>= f) (accept k >>= f') := by
  refine (parallel_accept k).bind ?_
  rintro b _ rfl
  exact hf b

theorem parallel_rule {r : Rule} {given given' : r.Given} (h : P.call r given given') :
    Parallel P (P.result r) (rule r given) (rule r given') :=
  .call h .failed fun _ _ ha => .done ha

/-- A call that is gone on from, whether or not it fails. -/
theorem parallel_attempt_bind {r : Rule} {given given' : r.Given}
    {f f' : Option r.Result → Script α} (h : P.call r given given')
    (hnone : Parallel P R (f none) (f' none))
    (hsome : ∀ a a', P.result r a a' → Parallel P R (f (some a)) (f' (some a'))) :
    Parallel P R (attempt r given >>= f) (attempt r given' >>= f') :=
  .call h hnone hsome

theorem parallel_withinLimit (count : Nat) (e : SyntaxError) {s s' : Script α}
    (hs : Parallel P R s s') : Parallel P R (withinLimit count e >>= fun _ => s)
      (withinLimit count e >>= fun _ => s') := by
  refine Parallel.bind (R := fun _ _ => True) ?_ fun _ _ _ => hs
  exact parallel_peek fun t t' ht _ =>
    .ite (fun _ => .complain e ht (.done trivial)) fun _ => .done trivial

theorem parallel_typeWord {R : TypeName → TypeName → Prop} (e : SyntaxError)
    (hword : ∀ type t t', P.token t t' → R ⟨type, t⟩ ⟨type, t'⟩) :
    Parallel P R (typeWord e) (typeWord e) := by
  refine parallel_peek fun t t' ht hkind => ?_
  rw [hkind]
  cases t'.kind.type? with
  | none => exact parallel_failAt ht e
  | some type => exact parallel_pass (.done (hword type t t' ht))

theorem parallel_resultType {R : Option TypeName → Option TypeName → Prop} (hnone : R none none)
    (hword : ∀ type t t', P.token t t' → R (some ⟨type, t⟩) (some ⟨type, t'⟩)) :
    Parallel P R resultType resultType := by
  refine parallel_peek fun t t' ht hkind => ?_
  rw [hkind]
  cases t'.kind.type? with
  | none => exact .done hnone
  | some type => exact parallel_pass (.done (hword type t t' ht))

theorem parallel_alongCommas {Rs : List α → List α → Prop} {entry entry' : Script α}
    {more more' : Script (List α)} (hnil : Rs [] [])
    (hcons : ∀ {a a' as as'}, R a a' → Rs as as' → Rs (a :: as) (a' :: as'))
    (hentry : Parallel P R entry entry') (hmore : Parallel P Rs more more') :
    Parallel P Rs (alongCommas entry more) (alongCommas entry' more') :=
  hentry.bind fun _ _ ha => parallel_accept_bind .comma fun _ => .ite
    (fun _ => hmore.bind fun _ _ has => .done (hcons ha has)) fun _ => .done (hcons ha hnil)

theorem parallel_upToParen {Rs : List α → List α → Prop} {entries entries' : Script (List α)}
    (hnil : Rs [] []) (hentries : Parallel P Rs entries entries') :
    Parallel P Rs (upToParen entries) (upToParen entries') := by
  refine parallel_peek fun t t' _ hkind => ?_
  rw [hkind]
  exact .ite (fun _ => .done hnil) fun _ => hentries

theorem parallel_fence_bind (k : Kind) (e : SyntaxError) {f f' : Bool → Script α}
    (hf : ∀ b, Parallel P R (f b) (f' b)) :
    Parallel P R (fence k e >>= f) (fence k e >>= f') := by
  refine Parallel.bind (R := Eq) ?_ ?_
  · refine parallel_peek fun t t' ht hkind => ?_
    rw [hkind]
    exact .ite (fun _ => parallel_pass (.done rfl)) fun _ => parallel_warn ht e (.done rfl)
  · rintro b _ rfl
    exact hf b

end Script

/-! ## 2. Running them -/

/-- The relation of cursors is kept by the steps of parallel scripts. -/
structure Pairing.Kept (P : Pairing) (C : Cursor → Cursor → Prop) : Prop where
  current {c c' : Cursor} : C c c' → P.token c.current c'.current
  next {c c' : Cursor} : C c c' → P.token c.next c'.next
  advance {c c' : Cursor} : C c c' → C c.advance c'.advance
  report {c c' : Cursor} {t t' : Token} (e : SyntaxError) : C c c' → P.token t t' →
    C (c.report t e) (c'.report t' e)

/-- **Parallel scripts come to related cursors and results**, if what they call does. -/
theorem Script.Parallel.run {α : Type} {P : Pairing} {R : α → α → Prop}
    {C : Cursor → Cursor → Prop} (hC : P.Kept C) {room : Nat} {s s' : Script α}
    (hs : Parallel P R s s') {c c' : Cursor} (hc : C c c')
    (hcalls : ∀ {r : Rule} {given given' : r.Given} {c₁ c₁' : Cursor},
      s.Enters room ⟨room, r, given, c₁⟩ c → P.call r given given' → C c₁ c₁' →
      Option.Rel (P.result r) (r.run room given c₁).1 (r.run room given' c₁').1 ∧
        C (r.run room given c₁).2 (r.run room given' c₁').2) :
    Option.Rel R (s.run room c).1 (s'.run room c').1 ∧ C (s.run room c).2 (s'.run room c').2 := by
  induction hs generalizing c c' with
  | done ha => exact ⟨.some ha, hc⟩
  | failed => exact ⟨.none, hc⟩
  | look _ ih => exact ih _ _ (hC.current hc) hc hcalls
  | lookNext _ ih => exact ih _ _ (hC.next hc) hc hcalls
  | skip _ ih => exact ih (hC.advance hc) hcalls
  | complain e ht _ ih => exact ih (hC.report e hc ht) hcalls
  | @call r given given' next next' hr _ _ ihnone ihsome =>
    obtain ⟨hresult, hbehind⟩ := hcalls (.inl rfl) hr hc
    have hlater {o : Option r.Result} (ho : (r.run room given c).1 = o) {A : Activation}
        (hA : (next o).Enters room A (r.run room given c).2) :
        (Script.call r given next).Enters room A c := .inr (ho ▸ hA)
    show Option.Rel R ((next (r.run room given c).1).run room _).1
        ((next' (r.run room given' c').1).run room _).1 ∧ C
        ((next (r.run room given c).1).run room _).2 ((next' (r.run room given' c').1).run room _).2
    cases ho : (r.run room given c).1 with
    | none => cases ho' : (r.run room given' c').1 with
      | none => exact ihnone hbehind fun hA => hcalls (hlater ho hA)
      | some a' => rw [ho, ho'] at hresult; cases hresult
    | some a => cases ho' : (r.run room given' c').1 with
      | none => rw [ho, ho'] at hresult; cases hresult
      | some a' =>
        rw [ho, ho'] at hresult
        cases hresult with
        | some ha => exact ihsome a a' ha hbehind fun hA => hcalls (hlater ho hA)

/-! ## 3. Calls -/

theorem Script.Direct.of_enters {α : Type} {calls : (r : Rule) → r.Given → Prop} {room : Nat}
    {s : Script α} {cur : Option Token} (hs : s.Direct calls cur) {c : Cursor} {B : Activation}
    (hB : s.Enters room B c) : calls B.rule B.given := by
  induction s generalizing cur c with
  | done a => exact hB.elim
  | failed => exact hB.elim
  | look next ih => exact ih _ (hs _) hB
  | lookNext next ih => exact hs.elim
  | lookBack next ih => exact hs.elim
  | skip next ih => exact ih hs hB
  | complain t e next ih =>
    obtain ⟨-, -, rfl | hnext⟩ := hs
    · exact hB.elim
    · exact ih hnext hB
  | call r given next ih =>
    obtain ⟨hr, hsome, hnone⟩ := hs
    rcases hB with rfl | hB
    · exact hr
    · cases ho : (r.run room given c).1 with
      | none =>
        rw [ho] at hB
        rcases hnone with hnone | hnone
        · rw [hnone] at hB
          exact hB.elim
        · exact ih _ hnone hB
      | some a =>
        rw [ho] at hB
        exact ih _ (hsome a) hB

/-- A rule that hands on its room as it is calls only what takes a level of it. -/
theorem Rule.mayCall_of_enters {r : Rule} (hr : r.isRecovery = false) {given : r.Given}
    {room : Nat} {c : Cursor} {B : Activation} (hB : (Script.ofRule r given).Enters room B c) :
    r.MayCall B.rule := by
  cases hspecial : r.isSpecial with
  | false => exact ((Script.direct_ofRule r given hr hspecial).of_enters hB).1
  | true =>
    cases r with
    | expression | arguments | parameters => exact nofun
    | _ => cases hspecial

end FencedCode.Grammar
