import FencedCode.Proofs.Recovery.Passing
import FencedCode.Proofs.Recovery.Splice
import FencedCode.Proofs.Syntax.Origin
import Mathlib.Data.List.Chain

/-!
# A header without the word of a type

When the word of the type of a parameter is left out, the parser complains about the name of the
parameter and skips the rest of the declaration. The skip looks for the first `END FN`. If no
functions are declared in the body, this is the declaration's own, and the parser is where it would
have been behind the declaration. Otherwise the skip stops behind the first function in the body.

* `ListsParams`, `FunctionText` -- how parameters and functions are laid out;
* `function_reads` -- that a function which is read is laid out so;
* `Gives`, `FailsAt` -- what a step comes to, with a law for one step after another;
* `function_fails` -- **the name of the parameter is complained about**;
* `Cursor.toFunctionEnd_passes` -- the search for an `END FN`, by induction on the tokens before it;
* `functions_spliced` -- the declaration is skipped, and the functions behind it are read as before;
* `Program.malformed_header` -- **one malformed header yields one diagnostic.**
-/

namespace FencedCode

open Parse Grammar

/-! ## 1. The tokens of a header -/

/-- The tokens of parameters with the commas between them. -/
inductive ListsParams : List Param → List Token → Prop where
  | one {p : Param} : p.wellFormed = true → ListsParams [p] [p.type.token, p.name]
  | more {p : Param} {ps : List Param} {comma : Token} {ts : List Token} : p.wellFormed = true →
    comma.kind = .comma → ListsParams ps ts →
    ListsParams (p :: ps) (p.type.token :: p.name :: comma :: ts)

section Reading

variable {room : Nat} {c : Cursor}

theorem parameter_reads (c : Cursor) : Accounts parameter c fun p _ c' =>
    p.wellFormed = true ∧ c.tokens = p.type.token :: p.name :: c'.tokens := by
  refine (typeWord_tells _ c).bind fun t c₁ => (accounts_token _ (by decide)).bind fun name c₂ => ?_
  refine accounts_pure fun _ hname _ htype => ⟨?_, ?_⟩
  · simp [Param.wellFormed, htype.1, hname.1]
  · rw [htype.2.2, hname.2]

/-- A word that may be left out. -/
theorem accept_reads {k : Kind} (hk : k ≠ .eof) (c : Cursor) :
    Accounts (accept k) c fun b _ c' => if b = true then
      ∃ t, t.kind = k ∧ c.tokens = t :: c'.tokens else c' = c := by
  by_cases hat : c.current.kind = k
  · refine (accounts_pass (accept_of_kind hat) (hat ▸ hk)).imp ?_
    rintro _ _ _ ⟨rfl, _, htokens⟩
    rw [if_pos rfl]
    exact ⟨c.current, hat, htokens⟩
  · refine accounts_congr (q := pure false) (accept_of_ne hat) (accounts_pure ?_)
    rw [if_neg Bool.false_ne_true]

/-- Parameters are passed as they are listed; there are not too many of them, and the room is
    enough for them. -/
theorem parameters_reads : ∀ (room count : Nat) (c : Cursor),
    Accounts (parameters room count) c fun ps _ c' => count + ps.length ≤ maxArgs ∧
      ps.length ≤ room ∧ ∃ used, ListsParams ps used ∧ c.tokens = used ++ c'.tokens
  | 0, _, _ => accounts_fail _
  | room + 1, count, c => by
    rw [parameters_eq]
    refine (accounts_withinLimit count _).bind fun _ c₁ => (parameter_reads c₁).bind fun p c₂ =>
      (accept_reads (by decide) c₂).bind fun b c₃ => ?_
    cases b with
    | true =>
      refine (parameters_reads room (count + 1) c₃).bind fun ps c₄ => accounts_pure ?_
      intro _ hmore _ hcomma _ hparameter _ hlimit
      obtain ⟨hcount, hroom, used, hused, htokens⟩ := hmore
      obtain ⟨comma, hkind, hbehind⟩ := hcomma
      obtain ⟨hwf, hentry⟩ := hparameter
      obtain ⟨_, _, rfl⟩ := hlimit
      refine ⟨?_, Nat.succ_le_succ hroom, _, .more hwf hkind hused, ?_⟩
      · rw [List.length_cons]
        omega
      · rw [hentry, hbehind, htokens]
        rfl
    | false =>
      refine accounts_pure fun _ hcomma _ hparameter _ hlimit => ?_
      obtain rfl : c₃ = c₂ := hcomma
      obtain ⟨hwf, hentry⟩ := hparameter
      obtain ⟨hcount, _, rfl⟩ := hlimit
      exact ⟨hcount, Nat.succ_le_succ (Nat.zero_le _), _, .one hwf, hentry⟩

/-- What stands in the text of a function declaration besides the word of its result and its
    name. -/
structure FunctionText where
  leftParen : Token
  params : List Token
  rightParen : Token
  opening : Token
  openingWord : Token
  body : List Token
  ending : Token
  endingWord : Token

/-- The tokens from the parenthesis behind the name on. -/
def FunctionText.tokens (T : FunctionText) : List Token :=
  T.leftParen :: (T.params ++ T.rightParen :: T.opening :: T.openingWord ::
    (T.body ++ [T.ending, T.endingWord]))

/-- The text declares a function with the parameters, in whose body no `FN` and no `CODE` stands. -/
structure FunctionText.Declares (T : FunctionText) (params : List Param) : Prop where
  leftParen : T.leftParen.kind = .leftParen
  params : ListsParams params T.params
  rightParen : T.rightParen.kind = .rightParen
  opening : T.opening.kind = .kwBegin
  openingWord : T.openingWord.kind = .kwFn
  body : ∀ t ∈ T.body, isBodily t.kind = true
  ending : T.ending.kind = .kwEnd
  endingWord : T.endingWord.kind = .kwFn

/-- **How a function declaration with parameters is laid out**, if no functions are declared in
    its body. -/
theorem function_reads (c : Cursor) : Accounts (function (room + 1)) c fun s _ c' =>
    ∀ name params inner result, s = .function name params inner result → params ≠ [] →
      Stmt.allFunctionFree inner = true → result.all TypeName.wellFormed = true ∧
        name.kind = .identifier ∧ params.length ≤ maxArgs ∧ params.length ≤ room ∧
        ∃ T : FunctionText, T.Declares params ∧ c.tokens =
          (result.map TypeName.token).toList ++ name :: (T.tokens ++ c'.tokens) := by
  have hparams (c : Cursor) : Accounts (parameterList room) c fun ps _ c' => ps ≠ [] →
      ps.length ≤ maxArgs ∧ ps.length ≤ room ∧
        ∃ used, ListsParams ps used ∧ c.tokens = used ++ c'.tokens := by
    refine accounts_peek ?_
    split
    · exact accounts_pure fun h => absurd rfl h
    · refine (parameters_reads room 0 c).imp fun ps _ c' h _ => ⟨?_, h.2⟩
      rw [← Nat.zero_add ps.length]
      exact h.1
  rw [function_eq]
  refine (resultType_tells c).bind fun result c₁ => ?_
  refine (accounts_token _ (by decide)).bind fun name c₂ => ?_
  refine (accounts_token _ (by decide)).bind fun leftParen c₃ => ?_
  refine (hparams c₃).bind fun params c₄ => ?_
  refine (accounts_token _ (by decide)).bind fun rightParen c₅ => ?_
  refine (accounts_token _ (by decide)).bind fun opening c₆ => ?_
  refine (accounts_token _ (by decide)).bind fun openingWord c₇ => ?_
  refine Accounts.bind ((crossesStmts room).body true c₇) fun inner c₈ => ?_
  refine (accounts_token _ (by decide)).bind fun ending c₉ => ?_
  refine (accounts_token _ (by decide)).bind fun endingWord c₁₀ => accounts_pure ?_
  rintro _ hendingWord _ hending _ hbody _ hopeningWord _ hopening _ hrightParen _ hlist _
    hleftParen _ hname _ hresult _ _ _ _ ⟨⟩ hne hfree
  obtain ⟨hlimit, hroom, used, hused, hlisted⟩ := hlist hne
  obtain ⟨body, hinner, hbodily⟩ := hbody hfree
  refine ⟨hresult.1, hname.1, hlimit, hroom, ⟨leftParen, used, rightParen, opening, openingWord,
    body, ending, endingWord⟩, ⟨hleftParen.1, hused, hrightParen.1, hopening.1, hopeningWord.1,
    hbodily, hending.1, hendingWord.1⟩, ?_⟩
  rw [hresult.2.2, hname.2, hleftParen.2, hlisted, hrightParen.2, hopening.2, hopeningWord.2,
    hinner, hending.2, hendingWord.2]
  simp only [FunctionText.tokens, List.cons_append, List.append_assoc, List.nil_append]

end Reading

/-! ## 2. Without the word of a type -/

section Failing

variable {α β : Type} {room : Nat} {d : Cursor}

/-- The step succeeds with the value and stands before the tokens, without a complaint. -/
def Gives (p : Parse α) (d : Cursor) (a : α) (ts : List Token) : Prop :=
  ∃ d', p d = (some a, d') ∧ d'.Closed ∧ d'.tokens = ts ∧ d'.reported = d.reported

/-- The step fails with a complaint about a token, at which it stops. -/
def FailsAt (p : Parse α) (d : Cursor) (t : Token) (ts : List Token) (e : SyntaxError) : Prop :=
  (p d).1 = none ∧ (p d).2.Closed ∧ (p d).2.tokens = t :: ts ∧
    (p d).2.reported = .atToken t e :: d.reported

theorem Gives.bind {p : Parse α} {f : α → Parse β} {a : α} {b : β} {ts us : List Token}
    (hp : Gives p d a ts) (hf : ∀ d' : Cursor, d'.Closed → d'.tokens = ts → Gives (f a) d' b us) :
    Gives (p >>= f) d b us := by
  obtain ⟨d₁, hrun, hclosed, htokens, hreported⟩ := hp
  obtain ⟨d₂, hrun₂, hclosed₂, htokens₂, hreported₂⟩ := hf d₁ hclosed htokens
  exact ⟨d₂, (bind_of_some hrun).trans hrun₂, hclosed₂, htokens₂, hreported₂.trans hreported⟩

/-- A step that fails behind a step that succeeds. -/
theorem Gives.bind_fails {p : Parse α} {f : α → Parse β} {a : α} {ts us : List Token} {t : Token}
    {e : SyntaxError} (hp : Gives p d a ts)
    (hf : ∀ d' : Cursor, d'.Closed → d'.tokens = ts → FailsAt (f a) d' t us e) :
    FailsAt (p >>= f) d t us e := by
  obtain ⟨d₁, hrun, hclosed, htokens, hreported⟩ := hp
  have hfails := hf d₁ hclosed htokens
  unfold FailsAt at hfails ⊢
  rwa [bind_of_some hrun, ← hreported]

theorem FailsAt.bind {p : Parse α} {f : α → Parse β} {t : Token} {ts : List Token}
    {e : SyntaxError} (hp : FailsAt p d t ts e) : FailsAt (p >>= f) d t ts e := by
  have hrun : (p >>= f) d = (none, (p d).2) := Parse.bind_none hp.1
  unfold FailsAt
  rw [hrun]
  exact ⟨rfl, hp.2⟩

theorem gives_pure (a : α) (hc : d.Closed) : Gives (pure a) d a d.tokens :=
  ⟨d, rfl, hc, rfl, rfl⟩

variable {t : Token} {ts : List Token} {k : Kind}

/-- A step that passes the current token. -/
theorem gives_step {p : Parse α} {a : α} (hc : d.Closed) (hd : d.tokens = t :: ts)
    (heof : t.kind ≠ .eof) (hrun : p d = (some a, d.advance)) : Gives p d a ts := by
  obtain rfl : d.current = t := (List.cons.inj hd).1
  refine ⟨d.advance, hrun, hc.advance, ?_, d.advance_reported⟩
  rw [hc.advance_tokens heof]
  exact (List.cons.inj hd).2

theorem gives_expect (hc : d.Closed) (hd : d.tokens = t :: ts) (hk : t.kind = k) (heof : k ≠ .eof)
    (e : SyntaxError) : Gives (expect k e) d t ts := by
  obtain rfl : d.current = t := (List.cons.inj hd).1
  exact gives_step hc hd (by rwa [hk]) (expect_of_kind hk e)

theorem gives_accept (hc : d.Closed) (hd : d.tokens = t :: ts) (hk : t.kind = k)
    (heof : k ≠ .eof) : Gives (accept k) d true ts := by
  obtain rfl : d.current = t := (List.cons.inj hd).1
  exact gives_step hc hd (by rwa [hk]) (accept_of_kind hk)

theorem gives_withinLimit {count : Nat} (hcount : count < maxArgs) (hc : d.Closed)
    (e : SyntaxError) : Gives (withinLimit count e) d () d.tokens := by
  rw [withinLimit_eq, if_neg (Nat.not_le_of_lt hcount)]
  exact gives_pure () hc

/-- The token of a type that is written as it should be is its word. -/
theorem type?_of_wellFormed {type : TypeName} (hwf : type.wellFormed = true) :
    type.token.kind ≠ .eof ∧ type.token.kind.type? = some type.type := by
  simp only [TypeName.wellFormed, decide_eq_true_eq] at hwf
  rw [hwf]
  exact ⟨by simp, rfl⟩

theorem gives_resultType {result : Option TypeName} (hc : d.Closed)
    (hwf : result.all TypeName.wellFormed = true)
    (hd : d.tokens = (result.map TypeName.token).toList ++ t :: ts) (hname : t.kind = .identifier) :
    Gives resultType d result (t :: ts) := by
  cases result with
  | none =>
    obtain rfl : d.current = t := (List.cons.inj hd).1
    exact ⟨d, resultType_of_none (by rw [hname]; rfl), hc, hd, rfl⟩
  | some type =>
    have hcurrent : d.current = type.token := (List.cons.inj hd).1
    obtain ⟨heof, hword⟩ := type?_of_wellFormed hwf
    refine gives_step hc hd heof ?_
    rw [resultType_of_type (by rw [hcurrent, hword]), hcurrent]

theorem gives_parameter {p : Param} (hc : d.Closed) (hwf : p.wellFormed = true)
    (hd : d.tokens = p.type.token :: p.name :: ts) : Gives parameter d p ts := by
  simp only [Param.wellFormed, Bool.and_eq_true, decide_eq_true_eq] at hwf
  have hcurrent : d.current = p.type.token := (List.cons.inj hd).1
  obtain ⟨heof, hword⟩ := type?_of_wellFormed hwf.1
  have htype : typeWord .parameterType d = (some p.type, d.advance) := by
    rw [typeWord_of_type (by rw [hcurrent, hword]), hcurrent]
  refine (gives_step hc hd heof htype).bind fun d₁ hc₁ hd₁ => ?_
  refine (gives_expect hc₁ hd₁ hwf.2 (by decide) _).bind fun d₂ hc₂ hd₂ => ?_
  rw [← hd₂]
  exact gives_pure p hc₂

/-- A parameter without the word of its type is complained about at its name. -/
theorem parameter_fails (hc : d.Closed) (hname : t.kind = .identifier) (hd : d.tokens = t :: ts) :
    FailsAt parameter d t ts .parameterType := by
  obtain rfl : d.current = t := (List.cons.inj hd).1
  have htype : FailsAt (typeWord .parameterType) d d.current ts .parameterType := by
    unfold FailsAt
    rw [typeWord_of_none (by rw [hname]; rfl)]
    exact ⟨rfl, hc, hd, rfl⟩
  exact htype.bind

/-- Where a parameter stands in a list of them. -/
theorem ListsParams.drop {ps : List Param} {used : List Token} (hused : ListsParams ps used) :
    ∀ {i : Nat} (hi : i < ps.length), ∃ behind,
      used.drop (3 * i) = ps[i].type.token :: ps[i].name :: behind := by
  induction hused with
  | one hwf =>
    intro i hi
    obtain rfl : i = 0 := by simpa using hi
    exact ⟨[], rfl⟩
  | more hwf hcomma _ ih =>
    intro i hi
    cases i with
    | zero => exact ⟨_, rfl⟩
    | succ i => exact ih (Nat.lt_of_succ_lt_succ hi)

theorem ListsParams.place {ps : List Param} {used : List Token} (hused : ListsParams ps used)
    {i : Nat} (hi : i < ps.length) : 3 * i + 1 < used.length ∧
      used[3 * i]? = some ps[i].type.token ∧
        ∃ behind, used.drop (3 * i + 1) = ps[i].name :: behind := by
  obtain ⟨behind, hdrop⟩ := hused.drop hi
  refine ⟨?_, ?_, behind, ?_⟩
  · have hlength := congrArg List.length hdrop
    rw [List.length_drop, List.length_cons, List.length_cons] at hlength
    omega
  · rw [← List.head?_drop, hdrop]
    rfl
  · rw [← List.tail_drop, hdrop]
    rfl

/-- Without the word of a type something is left of the list. -/
theorem ListsParams.current_mem {ps : List Param} {used rest : List Token}
    (hused : ListsParams ps used) {i : Nat} (hi : i < ps.length)
    (hd : d.tokens = used.eraseIdx (3 * i) ++ rest) : d.current ∈ used := by
  have hlt := (hused.place hi).1
  cases herased : used.eraseIdx (3 * i) with
  | nil =>
    have hnil := congrArg List.length herased
    rw [List.length_eraseIdx, if_pos (by omega), List.length_nil] at hnil
    omega
  | cons u us =>
    rw [herased] at hd
    obtain rfl : d.current = u := (List.cons.inj hd).1
    exact List.mem_of_mem_eraseIdx (herased ▸ List.mem_cons_self)

/-- **The parameters are listed without the word of a type of one of them: its name is complained
    about.** By induction on the parameters before it, which are read. -/
theorem parameters_fails {ps : List Param} {used behind rest : List Token}
    (hused : ListsParams ps used) : ∀ {i room count : Nat} {d : Cursor} (hi : i < ps.length),
      used.drop (3 * i + 1) = ps[i].name :: behind → count + ps.length ≤ maxArgs →
      ps.length ≤ room → d.Closed → d.tokens = used.eraseIdx (3 * i) ++ rest →
      FailsAt (parameters room count) d ps[i].name (behind ++ rest) .parameterType := by
  -- the first of the parameters that are left is the one
  have hfirst {p : Param} {n room count : Nat} {d : Cursor} (hwf : p.wellFormed = true)
      (hcount : count + (n + 1) ≤ maxArgs) (hroom : n + 1 ≤ room) (hc : d.Closed)
      (hd : d.tokens = p.name :: behind ++ rest) :
      FailsAt (parameters room count) d p.name (behind ++ rest) .parameterType := by
    simp only [Param.wellFormed, Bool.and_eq_true, decide_eq_true_eq] at hwf
    obtain ⟨room, rfl⟩ := Nat.exists_eq_add_of_le' (Nat.le_of_add_left_le hroom)
    rw [parameters_eq]
    refine (gives_withinLimit (by omega) hc _).bind_fails fun d₁ hc₁ hd₁ => ?_
    exact (parameter_fails hc₁ hwf.2 (hd₁.trans hd)).bind
  induction hused with
  | one hwf =>
    intro i room count d hi hbehind hcount hroom hc hd
    obtain rfl : i = 0 := by simpa using hi
    obtain rfl := (List.cons.inj hbehind).2
    exact hfirst (n := 0) hwf hcount hroom hc hd
  | more hwf hcomma _ ih =>
    intro i room count d hi hbehind hcount hroom hc hd
    cases i with
    | zero =>
      rw [← (List.cons.inj hbehind).2] at hfirst ⊢
      exact hfirst hwf hcount hroom hc hd
    | succ i =>
      obtain ⟨room, rfl⟩ := Nat.exists_eq_add_of_le' (Nat.le_of_add_left_le hroom)
      rw [List.length_cons] at hcount hroom
      rw [parameters_eq]
      refine (gives_withinLimit (by omega) hc _).bind_fails fun d₁ hc₁ hd₁ => ?_
      refine (gives_parameter hc₁ hwf (hd₁.trans hd)).bind_fails fun d₂ hc₂ hd₂ => ?_
      refine (gives_accept hc₂ hd₂ hcomma (by decide)).bind_fails fun d₃ hc₃ hd₃ => ?_
      rw [if_pos rfl]
      exact (ih (Nat.lt_of_succ_lt_succ hi) hbehind (by omega) (by omega) hc₃ hd₃).bind

/-- The words of types, names and commas. -/
theorem ListsParams.kinds {ps : List Param} {used : List Token} (hused : ListsParams ps used) :
    ∀ t ∈ used, t.kind = .identifier ∨ t.kind = .comma ∨ ∃ type, t.kind = .type type := by
  have hparam {p : Param} (hwf : p.wellFormed = true) :
      p.name.kind = .identifier ∧ ∃ type, p.type.token.kind = .type type := by
    simp only [Param.wellFormed, TypeName.wellFormed, Bool.and_eq_true, decide_eq_true_eq] at hwf
    exact ⟨hwf.2, _, hwf.1⟩
  induction hused with
  | one hwf =>
    obtain ⟨hname, htype⟩ := hparam hwf
    exact List.forall_mem_cons.mpr ⟨.inr (.inr htype), List.forall_mem_singleton.mpr (.inl hname)⟩
  | more hwf hcomma _ ih =>
    obtain ⟨hname, htype⟩ := hparam hwf
    exact List.forall_mem_cons.mpr ⟨.inr (.inr htype), List.forall_mem_cons.mpr ⟨.inl hname,
      List.forall_mem_cons.mpr ⟨.inr (.inl hcomma), ih⟩⟩⟩

/-- **A function declaration without the word of a type of one of its parameters**: the name of the
    parameter is complained about. -/
theorem function_fails {T : FunctionText} {params : List Param} {result : Option TypeName}
    {name : Token} {behind rest : List Token} {j : Nat} (hT : T.Declares params)
    (hresult : result.all TypeName.wellFormed = true) (hname : name.kind = .identifier)
    (hlimit : params.length ≤ maxArgs) (hroom : params.length ≤ room) (hj : j < params.length)
    (hbehind : T.params.drop (3 * j + 1) = params[j].name :: behind) (hc : d.Closed)
    (hd : d.tokens = (result.map TypeName.token).toList ++
      name :: T.leftParen :: (T.params.eraseIdx (3 * j) ++ rest)) :
    FailsAt (function (room + 1)) d params[j].name (behind ++ rest) .parameterType := by
  have hlist {d : Cursor} (hc : d.Closed) (hd : d.tokens = T.params.eraseIdx (3 * j) ++ rest) :
      FailsAt (parameterList room) d params[j].name (behind ++ rest) .parameterType := by
    have hparen : d.current.kind ≠ .rightParen := by
      rcases hT.params.kinds _ (hT.params.current_mem hj hd) with hk | hk | ⟨type, hk⟩ <;>
        rw [hk] <;> nofun
    have hrun : parameterList room d = parameters room 0 d := by
      show (if d.current.kind = .rightParen then pure [] else parameters room 0 :
        Parse (List Param)) d = _
      rw [if_neg hparen]
    unfold FailsAt
    rw [hrun]
    exact parameters_fails hT.params hj hbehind (by rwa [Nat.zero_add]) hroom hc hd
  rw [function_eq]
  refine (gives_resultType hc hresult hd hname).bind_fails fun d₁ hc₁ hd₁ => ?_
  refine (gives_expect hc₁ hd₁ hname (by decide) _).bind_fails fun d₂ hc₂ hd₂ => ?_
  refine (gives_expect hc₂ hd₂ hT.leftParen (by decide) _).bind_fails fun d₃ hc₃ hd₃ => ?_
  exact (hlist hc₃ hd₃).bind

end Failing

/-! ## 3. The end of the function -/

/-- The search for the end of a function goes on from the first token to the second. -/
def Passable (t u : Token) : Prop :=
  t.kind ≠ .eof ∧ ¬ (t.kind = .kwBegin ∧ u.kind = .kwCode) ∧ ¬ (t.kind = .kwEnd ∧ u.kind = .kwFn)

namespace Cursor

/-- **The search stops behind the first `END FN`.** By induction on the tokens before it. -/
theorem toFunctionEnd_passes {e w u : Token} {post : List Token} (he : e.kind = .kwEnd)
    (hw : w.kind = .kwFn) : ∀ {ys : List Token} {previous current : Token} {rest : List Token},
      current :: rest = ys ++ e :: w :: u :: post → (ys ++ [e]).IsChain Passable →
      (toFunctionEnd previous current rest).2 = (u, post) := by
  intro ys
  induction ys with
  | nil =>
    intro previous current rest h _
    obtain ⟨rfl, rfl⟩ := List.cons.inj h
    rw [toFunctionEnd, if_neg (by rw [he]; simp), if_pos ⟨he, hw⟩]
  | cons y ys ih =>
    intro previous current rest h hchain
    obtain rfl : current = y := (List.cons.inj h).1
    have hrest : rest = ys ++ e :: w :: u :: post := (List.cons.inj h).2
    obtain ⟨z, zs, hzs⟩ := List.exists_cons_of_ne_nil (l := ys ++ [e]) (by simp)
    have hnext : ys ++ e :: w :: u :: post = z :: (zs ++ w :: u :: post) := by
      rw [List.append_cons, hzs]
      rfl
    rw [List.cons_append, hzs, List.isChain_cons_cons] at hchain
    obtain ⟨⟨heof, hcode, hfn⟩, hchain⟩ := hchain
    rw [hrest, hnext, toFunctionEnd.eq_def]
    dsimp only
    rw [if_neg (not_or.mpr ⟨heof, hcode⟩), if_neg hfn]
    exact ih hnext.symm (hzs ▸ hchain)

/-- A word that is neither an end of text nor a `BEGIN` nor an `END` is passed. -/
theorem isChain_append_of_ne {zs : List Token} (hzs : zs.IsChain Passable) : ∀ xs : List Token,
    (∀ t ∈ xs, t.kind ≠ .eof ∧ t.kind ≠ .kwBegin ∧ t.kind ≠ .kwEnd) →
      (xs ++ zs).IsChain Passable
  | [], _ => hzs
  | x :: xs, hxs => by
    obtain ⟨hx, hxs⟩ := List.forall_mem_cons.mp hxs
    refine List.isChain_cons.mpr ⟨fun u _ => ?_, isChain_append_of_ne hzs xs hxs⟩
    exact ⟨hx.1, fun h => hx.2.1 h.1, fun h => hx.2.2 h.1⟩

/-- The tokens of a body are passed, up to the `END` behind it. -/
theorem isChain_append_of_bodily {e : Token} (he : e.kind = .kwEnd) : ∀ {xs : List Token},
    (∀ t ∈ xs, isBodily t.kind = true) → (xs ++ [e]).IsChain Passable
  | [], _ => List.isChain_singleton _
  | x :: xs, hxs => by
    obtain ⟨hx, hxs⟩ := List.forall_mem_cons.mp hxs
    refine List.isChain_cons.mpr ⟨fun u hu => ?_, isChain_append_of_bodily he hxs⟩
    have hu : isBodily u.kind = true := by
      rcases List.mem_append.mp (List.mem_of_mem_head? hu) with hu | hu
      · exact hxs u hu
      · rw [List.mem_singleton.mp hu, he]
        rfl
    simp only [isBodily, Bool.and_eq_true, decide_eq_true_eq] at hx hu
    exact ⟨hx.2, fun h => hu.1.2 h.2, fun h => hu.1.1 h.2⟩

/-- **Behind the complaint about a parameter the search stops behind the function.** -/
theorem skipFunction_passes {T : FunctionText} {params : List Param} {j : Nat}
    {behind post : List Token} {u : Token} {c : Cursor} (hT : T.Declares params)
    (hj : j < params.length) (hbehind : T.params.drop (3 * j + 1) = params[j].name :: behind)
    (hc : c.tokens = params[j].name :: (behind ++ T.rightParen :: T.opening :: T.openingWord ::
      (T.body ++ T.ending :: T.endingWord :: u :: post))) :
    c.skipFunction.current = u ∧ c.skipFunction.rest = post := by
  have hbody := isChain_append_of_bodily hT.ending hT.body
  have hopening : (T.opening :: T.openingWord :: (T.body ++ [T.ending])).IsChain Passable := by
    refine List.isChain_cons_cons.mpr ⟨⟨?_, ?_, ?_⟩, ?_⟩
    · rw [hT.opening]; nofun
    · rw [hT.openingWord]; nofun
    · rw [hT.opening]; nofun
    refine isChain_append_of_ne hbody [T.openingWord] (List.forall_mem_singleton.mpr ?_)
    rw [hT.openingWord]
    decide
  have hparen : (T.rightParen :: T.opening :: T.openingWord :: (T.body ++ [T.ending])).IsChain
      Passable := by
    refine isChain_append_of_ne hopening [T.rightParen] (List.forall_mem_singleton.mpr ?_)
    rw [hT.rightParen]
    decide
  have hchain := isChain_append_of_ne hparen (params[j].name :: behind) fun t ht => by
    rw [← hbehind] at ht
    rcases hT.params.kinds t (List.mem_of_mem_drop ht) with hk | hk | ⟨type, hk⟩ <;>
      rw [hk] <;> exact ⟨nofun, nofun, nofun⟩
  have htokens : c.current :: c.rest = (params[j].name :: (behind ++ T.rightParen :: T.opening ::
      T.openingWord :: T.body)) ++ T.ending :: T.endingWord :: u :: post :=
    hc.trans (by simp)
  have hwalk : (toFunctionEnd c.previous c.current c.rest).2 = (u, post) :=
    toFunctionEnd_passes hT.ending hT.endingWord htokens (by simpa using hchain)
  exact ⟨congrArg Prod.fst hwalk, congrArg Prod.snd hwalk⟩

end Cursor

/-! ## 4. Function declarations one after another -/

/-- Behind a function declaration, read or skipped, the others are read. -/
theorem functions_of_read {room : Nat} {o : Option Stmt} {c c₁ : Cursor}
    (hfn : c.current.kind = .kwFn)
    (hrun : orRecover (function room) Cursor.skipFunction c.advance = (some o, c₁)) :
    functions (room + 1) c =
      ((functions room c₁).1.map (o.toList ++ ·), (functions room c₁).2) := by
  simp only [functions]
  rw [accept_bind_of_kind hfn, if_pos rfl, bind_of_some hrun]
  exact bind_pure_run _ _ c₁

section Splicing

variable {room j : Nat} {c c₁ : Cursor} {name : Token} {params : List Param} {inner : List Stmt}
  {result : Option TypeName}

/-- The words of a function declaration up to the parenthesis. -/
theorem length_before_params (t : Token) (result : Option TypeName) (name leftParen : Token) :
    (t :: ((result.map TypeName.token).toList ++ [name, leftParen])).length =
      3 + result.toList.length := by
  cases result <;> rfl

/-- **A function declaration without the word of a type of one of its parameters is skipped**, up to
    and including its own `END FN`. -/
theorem function_skipped {T : FunctionText} {behind : List Token} {d : Cursor}
    (hT : T.Declares params) (hresult : result.all TypeName.wellFormed = true)
    (hname : name.kind = .identifier) (hlimit : params.length ≤ maxArgs)
    (hroom : params.length ≤ room) (hj : j < params.length)
    (hbehind : T.params.drop (3 * j + 1) = params[j].name :: behind) (hc₁ : c₁.Closed)
    (hd : d.tokens = (result.map TypeName.token).toList ++ name :: T.leftParen ::
      (T.params.eraseIdx (3 * j) ++ T.rightParen :: T.opening :: T.openingWord ::
        (T.body ++ T.ending :: T.endingWord :: c₁.tokens))) :
    ∃ d₁, orRecover (function (room + 1)) Cursor.skipFunction d = (some none, d₁) ∧
      d₁.current = c₁.current ∧ d₁.rest = c₁.rest ∧
      d₁.reported = .atToken params[j].name .parameterType :: d.reported := by
  have hclosed : d.Closed := by
    refine hc₁.of_behind ?_
    rw [hd]
    refine .trans ?_ (List.suffix_append _ _)
    refine .trans ?_ (List.suffix_append [name, T.leftParen] _)
    refine .trans ?_ (List.suffix_append _ _)
    refine .trans ?_ (List.suffix_append [T.rightParen, T.opening, T.openingWord] _)
    exact .trans (List.suffix_append [T.ending, T.endingWord] _) (List.suffix_append _ _)
  obtain ⟨hfails, -, htokens, hcomplains⟩ :=
    function_fails hT hresult hname hlimit hroom hj hbehind hclosed hd
  obtain ⟨hcurrent, hrest⟩ := Cursor.skipFunction_passes hT hj hbehind htokens
  exact ⟨_, orRecover_none hfails, hcurrent, hrest, hcomplains⟩

/-- The tokens of a function declaration that is read. -/
theorem function_laid (hc : c.Closed) (hfn : c.current.kind = .kwFn)
    (hrun : function (room + 1) c.advance = (some (.function name params inner result), c₁))
    (hreported : c₁.reported = []) (hne : params ≠ []) (hfree : Stmt.allFunctionFree inner = true) :
    c₁.Closed ∧ result.all TypeName.wellFormed = true ∧ name.kind = .identifier ∧
      params.length ≤ maxArgs ∧ params.length ≤ room ∧
      ∃ T : FunctionText, T.Declares params ∧ c.tokens =
        (c.current :: ((result.map TypeName.token).toList ++ [name, T.leftParen])) ++
          (T.params ++ T.rightParen :: T.opening :: T.openingWord ::
            (T.body ++ T.ending :: T.endingWord :: c₁.tokens)) := by
  obtain ⟨hc₁, hlaid⟩ := function_reads c.advance _ _ hrun hc.advance
  obtain ⟨-, _, -, ⟨⟩, -, hlaid⟩ := hlaid hreported
  obtain ⟨hresult, hname, hlimit, hroom, T, hT, htokens⟩ := hlaid _ _ _ _ rfl hne hfree
  refine ⟨hc₁, hresult, hname, hlimit, hroom, T, hT, ?_⟩
  show c.current :: c.rest = _
  rw [← hc.advance_tokens (by rw [hfn]; decide), htokens]
  simp [FunctionText.tokens]

/-- **Without the word of a type of one of its parameters a function declaration is left out**, and
    the functions behind it are read as before. -/
theorem functions_spliced (hc : c.Closed) (hfn : c.current.kind = .kwFn)
    (hrun : function room c.advance = (some (.function name params inner result), c₁))
    (hclean : (functions (room + 1) c).2.reported = [])
    (hfree : Stmt.allFunctionFree inner = true) (hj : j < params.length) :
    c.tokens[3 + result.toList.length + 3 * j]? = some params[j].type.token ∧
      3 + result.toList.length + 3 * j + 2 < c.tokens.length ∧
      ∀ c' : Cursor, c'.tokens = c.tokens.eraseIdx (3 + result.toList.length + 3 * j) →
        c'.reported = [] → Activation.Spliced
          (fun ss ss' => ss = .function name params inner result :: ss')
          [.atToken params[j].name .parameterType] ⟨room + 1, .functions, (), c⟩ c' := by
  have hread := functions_of_read hfn (orRecover_some (congrArg Prod.fst hrun))
  rw [congrArg Prod.snd hrun] at hread
  have hclean₁ : (functions room c₁).2.reported = [] := by rwa [hread] at hclean
  have hsteady : Steady (functions room) := Rule.functions.steady room ()
  have hreported := hsteady.clean hclean₁
  obtain ⟨more, hmore⟩ := hsteady.succeeds hclean₁
  obtain ⟨room, rfl⟩ : ∃ r, room = r + 1 := Nat.exists_eq_add_one_of_ne_zero fun hzero => by
    rw [hzero] at hrun
    cases hrun
  obtain ⟨hc₁, hresult, hname, hlimit, hroom, T, hT, hlisted⟩ :=
    function_laid hc hfn hrun hreported (List.ne_nil_of_length_pos (Nat.zero_lt_of_lt hj)) hfree
  obtain ⟨hlt, hword, behind, hbehind⟩ := hT.params.place hj
  rw [hlisted, ← length_before_params c.current result name T.leftParen]
  refine ⟨?_, ?_, fun c' hc' hclean' => ?_⟩
  · rw [List.getElem?_append_right (Nat.le_add_right _ _), Nat.add_sub_cancel_left,
      List.getElem?_append_left (by omega), hword]
  · simp only [List.length_append, List.length_cons]
    omega
  rw [List.eraseIdx_append_of_length_le (Nat.le_add_right _ _), Nat.add_sub_cancel_left,
    List.eraseIdx_append_of_lt_length (by omega)] at hc'
  obtain ⟨hcurrent, hrest⟩ := List.cons.inj hc'
  have hfn' : c'.current.kind = .kwFn := by rw [hcurrent, hfn]
  have hadvance : c'.advance.tokens = c'.rest := by
    obtain ⟨t, rest, hcons⟩ := List.exists_cons_of_ne_nil (l := c'.rest) (by simp [hrest])
    rw [Cursor.advance_of_cons hcons (by rw [hfn']; decide), hcons]
    rfl
  obtain ⟨d, hskip, hat, hbehind', hcomplains⟩ := function_skipped (d := c'.advance) hT hresult
    hname hlimit hroom hj hbehind hc₁ (hadvance.trans (hrest.trans (by simp)))
  have hbeside : c₁.Beside [.atToken params[j].name .parameterType] d := by
    refine ⟨hat.symm, hbehind'.symm, ?_⟩
    rw [hcomplains, Cursor.advance_reported, hclean', hreported]
    rfl
  have hsound : (Activation.mk (room + 1) .functions () c₁).Sound := ⟨hc₁, nofun⟩
  obtain ⟨hsame, hbeside'⟩ := hsound.agrees (Nat.lt_succ_self _) nofun hbeside
  have hread' := functions_of_read hfn' hskip
  refine ⟨.function name params inner result :: more, more, ?_, ?_, .here rfl, ?_⟩
  · show (functions (room + 2) c).1 = _
    rw [hread, hmore]
    rfl
  · show (functions (room + 2) c').1 = _
    rw [hread', show (functions (room + 1) d).1 = some more from hsame.symm.trans hmore]
    rfl
  · show (functions (room + 2) c).2.Beside _ (functions (room + 2) c').2
    rw [hread, hread']
    exact hbeside'

end Splicing

/-! ## 5. Programs -/

namespace Program

/-- A function is declared at the place in the list: the parser, at work on the list, comes to an
    `FN` there and reads the function behind it. -/
def Declares (ts : List Token) (i : Nat) (f : Stmt) : Prop :=
  ∃ (room : Nat) (c c₁ : Cursor),
    (Activation.start ts).Reaches ⟨room + 1, .functions, (), c⟩ ∧
      c.tokens = (Cursor.withEnd ts).drop i ∧ c.current.kind = .kwFn ∧
      Grammar.function room c.advance = (some f, c₁)

/-- **A function in the tree of a program is declared somewhere in its text.** -/
theorem exists_declares {ts : List Token} {name : Token} {params : List Param} {inner : List Stmt}
    {result : Option TypeName}
    (hin : Stmt.Among (.function name params inner result) (ofTokens ts).stmts) :
    ∃ i, Declares ts i (.function name params inner result) := by
  have hpart : (Stmt.function name params inner result).part ≠ .declaration := by
    change Part.function ≠ .declaration
    decide
  obtain ⟨A, i, hreach, htakes, hplace⟩ := taken hpart hin
  cases htakes with
  | statement hread => cases (begins_of_statement hread).1
  | @function room c hfn hread => exact ⟨i, room, c, _, hreach, hplace, hfn, Prod.ext hread rfl⟩

/-- Without the word of the type of a parameter of a function that is declared at a place, in whose
    body no functions are declared, the parser complains about the name of the parameter and nothing
    else, and this function is left out. -/
theorem diagnostics_of_declares {ts : List Token} {i j : Nat} {name : Token} {params : List Param}
    {inner : List Stmt} {result : Option TypeName} (hok : (ofTokens ts).diagnostics = [])
    (hdeclared : Declares ts i (.function name params inner result))
    (hfree : Stmt.allFunctionFree inner = true) (hj : j < params.length) :
    ts[i + (3 + result.toList.length + 3 * j)]? = some params[j].type.token ∧
      (ofTokens (ts.eraseIdx (i + (3 + result.toList.length + 3 * j)))).diagnostics =
        [.atToken params[j].name .parameterType] ∧
      Stmt.AllEdited (fun ss ss' => ss = .function name params inner result :: ss')
        (ofTokens ts).stmts
        (ofTokens (ts.eraseIdx (i + (3 + result.toList.length + 3 * j)))).stmts := by
  obtain ⟨room, c, c₁, hreach, hplace, hfn, hrun⟩ := hdeclared
  have hc := ((Activation.roomy_start ts).reaches hreach).closed
  have hclean := hreach.clean (List.reverse_eq_nil_iff.mp hok)
  obtain ⟨hword, hinside, hspliced⟩ := functions_spliced hc hfn hrun hclean hfree hj
  rw [hplace] at hword hinside hspliced
  rw [List.length_drop] at hinside
  rw [List.getElem?_drop] at hword
  obtain ⟨m, hm⟩ : ∃ m, 3 + result.toList.length + 3 * j = m + 2 :=
    ⟨result.toList.length + 3 * j + 1, by omega⟩
  rw [hm] at hword hinside hspliced ⊢
  obtain ⟨es, hes, hend⟩ := Cursor.withEnd_eq_append ts
  have hlength := congrArg List.length hend
  rw [List.length_append] at hlength
  have hk : i + (m + 2) + 1 < ts.length := by omega
  refine ⟨?_, ?_⟩
  · rwa [hend, List.getElem?_append_left (by omega)] at hword
  -- the texts part at the `FN`
  have hlong : 2 ≤ ((Cursor.withEnd ts).drop i).length := by
    rw [List.length_drop]
    omega
  obtain ⟨F, hF, hF'⟩ := Fork.exists_eraseIdx m hlong
  have hts : Cursor.withEnd ts = (Cursor.withEnd ts).take i ++ F.tokens := by
    rw [hF, List.take_append_drop]
  have hts' : Cursor.withEnd (ts.eraseIdx (i + (m + 2))) =
      (Cursor.withEnd ts).take i ++ F.tokens' := by
    rw [hF', List.eraseIdx_eq_take_drop_succ, List.eraseIdx_eq_take_drop_succ,
      Cursor.withEnd_take_append_drop (Nat.le_succ _) hk, List.take_add, List.drop_drop,
      List.append_assoc]
    rfl
  show _ = [_].reverse ∧ _
  refine Program.spliced ?_ hok hreach ?_ (hplace.trans hF.symm) hts hts' ?_ ?_
  · exact fun ss ss' hss us => hss ▸ rfl
  · rintro (h | h) <;> cases h
  · exact List.length_eraseIdx_le _ _
  · intro c' hpart
    refine hspliced c' ?_ ?_
    · rw [hpart.tokens_eq (hplace.trans hF.symm), hF']
    · exact hpart.reported.symm.trans ((Rule.functions.steady _ ()).clean hclean)

/-- **One malformed header yields one diagnostic.** Take a function in the tree of an accepted
    program, in whose body no functions are declared. It is declared somewhere in the text, and
    wherever it is, leave out the word of the type of one of its parameters. The parser then
    complains about the name of the parameter and nothing else, and its statements are those of the
    program without this function. -/
theorem malformed_header {ts : List Token} {j : Nat} {name : Token} {params : List Param}
    {inner : List Stmt} {result : Option TypeName} (hok : (ofTokens ts).diagnostics = [])
    (hin : Stmt.Among (.function name params inner result) (ofTokens ts).stmts)
    (hfree : Stmt.allFunctionFree inner = true) (hj : j < params.length) :
    (∃ i, Declares ts i (.function name params inner result)) ∧
      ∀ i, Declares ts i (.function name params inner result) →
        ts[i + (3 + result.toList.length + 3 * j)]? = some params[j].type.token ∧
        (ofTokens (ts.eraseIdx (i + (3 + result.toList.length + 3 * j)))).diagnostics =
          [.atToken params[j].name .parameterType] ∧
        Stmt.AllEdited (fun ss ss' => ss = .function name params inner result :: ss')
          (ofTokens ts).stmts
          (ofTokens (ts.eraseIdx (i + (3 + result.toList.length + 3 * j)))).stmts :=
  ⟨exists_declares hin, fun _ hdeclared => diagnostics_of_declares hok hdeclared hfree hj⟩

/-- A function with a parameter in another one:
    `FN f(INT a) BEGIN FN FN g(INT b) BEGIN FN END FN END FN BEGIN CODE END CODE`. -/
def nestedHeaders : List Token :=
  let word (k : Kind) : Token := ⟨k, k.label, none, .start⟩
  let name (w : String) : Token := ⟨.identifier, utf8 w, none, .start⟩
  let header (w v : String) : List Token :=
    [word .kwFn, name w, word .leftParen, word (.type .int), name v, word .rightParen,
      word .kwBegin, word .kwFn]
  let ending : List Token := [word .kwEnd, word .kwFn]
  header "f" "a" ++ header "g" "b" ++ ending ++ ending ++
    [word .kwBegin, word .kwCode, word .kwEnd, word .kwCode]

/-- The inner function. -/
def innerFunction : Stmt :=
  .function ⟨.identifier, utf8 "g", none, .start⟩
    [⟨⟨.int, ⟨.type .int, Kind.label (.type .int), none, .start⟩⟩,
      ⟨.identifier, utf8 "b", none, .start⟩⟩] [] none

/-- The outer function. -/
def outerFunction : Stmt :=
  .function ⟨.identifier, utf8 "f", none, .start⟩
    [⟨⟨.int, ⟨.type .int, Kind.label (.type .int), none, .start⟩⟩,
      ⟨.identifier, utf8 "a", none, .start⟩⟩] [innerFunction] none

theorem stmts_nestedHeaders : (ofTokens nestedHeaders).stmts = [outerFunction] :=
  rfl

/-- The inner function is declared where the parser comes to it through the program, the functions,
    the outer function and its body. -/
theorem declares_innerFunction : Declares nestedHeaders 8 innerFunction := by
  have hfunctions : (Activation.start nestedHeaders).Enters
      ⟨448, .functions, (), .ofTokens nestedHeaders⟩ :=
    ⟨_, rfl, .inl rfl⟩
  have hfunction : Activation.Enters ⟨448, .functions, (), .ofTokens nestedHeaders⟩
      ⟨447, .function, (), Cursor.advance (.ofTokens nestedHeaders)⟩ :=
    ⟨_, rfl, .inl rfl⟩
  have hbody : Activation.Enters ⟨447, .function, (), Cursor.advance (.ofTokens nestedHeaders)⟩
      ⟨446, .body, true, Nat.iterate Cursor.advance 8 (.ofTokens nestedHeaders)⟩ :=
    ⟨_, rfl, .inr (.inl rfl)⟩
  have hinner : Activation.Enters
      ⟨446, .body, true, Nat.iterate Cursor.advance 8 (.ofTokens nestedHeaders)⟩
      ⟨445, .functions, (), Nat.iterate Cursor.advance 8 (.ofTokens nestedHeaders)⟩ :=
    ⟨_, rfl, .inr (.inl rfl)⟩
  exact ⟨444, _, _, .tail (.tail (.tail (.single hfunctions) hfunction) hbody) hinner, rfl, rfl,
    rfl⟩

/-- Its header without the word of the type yields one diagnostic. -/
theorem innerFunction_malformed :
    (ofTokens nestedHeaders).diagnostics = [] ∧
      Stmt.Among innerFunction (ofTokens nestedHeaders).stmts ∧
      Declares nestedHeaders 8 innerFunction ∧
      (ofTokens (nestedHeaders.eraseIdx 11)).diagnostics =
        [.atToken ⟨.identifier, utf8 "b", none, .start⟩ .parameterType] ∧
      Stmt.AllEdited (fun ss ss' => ss = innerFunction :: ss') (ofTokens nestedHeaders).stmts
        (ofTokens (nestedHeaders.eraseIdx 11)).stmts := by
  have hok : (ofTokens nestedHeaders).diagnostics = [] := rfl
  have hin : Stmt.Among innerFunction (ofTokens nestedHeaders).stmts := by
    rw [stmts_nestedHeaders]
    exact .inside (.function .head)
  obtain ⟨-, hmalformed⟩ := malformed_header (j := 0) hok hin rfl (by decide)
  exact ⟨hok, hin, declares_innerFunction, (hmalformed 8 declares_innerFunction).2⟩

/-- The outer one declares a function in its body, behind which the search stops: what is left of
    the outer one is complained about as well. -/
theorem outerFunction_malformed : (ofTokens nestedHeaders).diagnostics = [] ∧
    Stmt.Among outerFunction (ofTokens nestedHeaders).stmts ∧
    Declares nestedHeaders 0 outerFunction ∧
    nestedHeaders[3]?.map Token.kind = some (.type .int) ∧
    (ofTokens (nestedHeaders.eraseIdx 3)).diagnostics.length = 2 := by
  refine ⟨rfl, ?_, ?_, rfl, rfl⟩
  · rw [stmts_nestedHeaders]
    exact .head
  · have hfunctions : (Activation.start nestedHeaders).Enters
        ⟨448, .functions, (), .ofTokens nestedHeaders⟩ :=
      ⟨_, rfl, .inl rfl⟩
    exact ⟨447, .ofTokens nestedHeaders, _, .single hfunctions, rfl, rfl, rfl⟩

end Program

end FencedCode
