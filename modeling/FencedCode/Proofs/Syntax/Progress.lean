import FencedCode.Proofs.Syntax.Passing
import Mathlib.Logic.Relation

/-!
# The parser makes progress

The parser is rules that call each other, and its loops are rules that call themselves. Each call
is made with fewer tokens ahead, or with the same tokens by a rule of a higher rank than the one it
calls. So a rule that is at work again has passed a token since, calls end before the room does, and
no cursor on the way stands before an earlier one or behind an end of text.

* `Cursor.Onward` -- that a cursor stands further on, with no end of text passed;
* `Activation`, `Activation.Enters`, `Activation.path` -- a rule at work, the calls it makes, and
  where it stands on the way;
* `Script.Within` -- a bound on the calls of a script, with a law for each step;
* `Rule.within` -- **each rule calls only what is smaller than itself**;
* `Activation.Sound.onward` -- **a rule only moves on**;
* `Program.progress` -- both, for all that is at work when a list of tokens is parsed.
-/

namespace FencedCode

open Parse Grammar

/-! ## 1. Moving on -/

namespace Cursor

/-- The second cursor stands at the same token as the first or further on, and no end of text stands
    in between. -/
def Onward (c c' : Cursor) : Prop :=
  ∃ passed, c.tokens = passed ++ c'.tokens ∧ ∀ t ∈ passed, t.kind ≠ .eof

theorem onward_of_tokens {c c' : Cursor} (h : c.tokens = c'.tokens) : c.Onward c' :=
  ⟨[], h, nofun⟩

theorem onward_rfl (c : Cursor) : c.Onward c :=
  onward_of_tokens rfl

theorem Onward.trans {c c' c'' : Cursor} (h : c.Onward c') (h' : c'.Onward c'') :
    c.Onward c'' := by
  obtain ⟨passed, htokens, hopen⟩ := h
  obtain ⟨passed', htokens', hopen'⟩ := h'
  refine ⟨passed ++ passed', by rw [htokens, htokens', List.append_assoc], fun t ht => ?_⟩
  rcases List.mem_append.mp ht with ht | ht
  · exact hopen t ht
  · exact hopen' t ht

theorem onward_advance (c : Cursor) : c.Onward c.advance := by
  by_cases heof : c.current.kind = .eof
  · rw [AtEnd.advance heof]
    exact onward_rfl c
  cases hrest : c.rest with
  | nil =>
    rw [advance_of_nil hrest]
    exact onward_rfl c
  | cons t rest =>
    rw [advance_of_cons hrest heof]
    refine ⟨[c.current], ?_, fun u hu => ?_⟩
    · show c.current :: c.rest = c.current :: t :: rest
      rw [hrest]
    · rw [List.mem_singleton.mp hu]
      exact heof

theorem Onward.suffix {c c' : Cursor} (h : c.Onward c') : c'.tokens <:+ c.tokens := by
  obtain ⟨passed, htokens, _⟩ := h
  exact ⟨passed, htokens.symm⟩

/-- What is ahead of a cursor that stands further on, counted from the first one. -/
theorem Onward.eq_drop {c c' : Cursor} (h : c.Onward c') : ∃ k < c.tokens.length,
    c'.tokens = c.tokens.drop k ∧ ∀ t ∈ c.tokens.take k, t.kind ≠ .eof := by
  obtain ⟨passed, htokens, hopen⟩ := h
  have hpos : 0 < c'.tokens.length := List.length_pos_iff.mpr c'.tokens_ne_nil
  refine ⟨passed.length, ?_, ?_, ?_⟩
  · rw [htokens, List.length_append]
    omega
  · rw [htokens, List.drop_left]
  · rw [htokens, List.take_left]
    exact hopen

end Cursor

/-! ## 2. Rules at work -/

namespace Grammar

/-- A rule at work: its room, what it is given, and where it starts. -/
structure Activation where
  room : Nat
  rule : Rule
  given : rule.Given
  cursor : Cursor

/-- How high a rule stands above those it calls before it has passed a token. -/
def Rule.rank : Rule → Nat
  | program => 15
  | body => 14
  | statements => 13
  | statement => 12
  | arguments | display | ret | conditional | loop => 11
  | expression => 10
  | operand o => 10 - Level.tier o
  | declarations => 3
  | unary | scan | synchronize => 2
  | _ => 1

namespace Script

variable {α β : Type}

/-- The script, started at a cursor, calls the rule that is at work. -/
def Enters (room : Nat) (A : Activation) : Script α → Cursor → Prop
  | done _, _ => False
  | failed, _ => False
  | look next, c => (next c.current).Enters room A c
  | lookNext next, c => (next c.next).Enters room A c
  | lookBack next, c => (next c.previous).Enters room A c
  | skip next, c => next.Enters room A c.advance
  | complain t e next, c => next.Enters room A (c.report t e)
  | call r given next, c => A = ⟨room, r, given, c⟩ ∨
    (next (r.run room given c).1).Enters room A (r.run room given c).2

/-- Where the script, started at a cursor, stands before, between and behind its steps. -/
def path (room : Nat) : Script α → Cursor → List Cursor
  | done _, c => [c]
  | failed, c => [c]
  | look next, c => (next c.current).path room c
  | lookNext next, c => (next c.next).path room c
  | lookBack next, c => (next c.previous).path room c
  | skip next, c => c :: next.path room c.advance
  | complain t e next, c => c :: next.path room (c.report t e)
  | call r given next, c => c :: (next (r.run room given c).1).path room (r.run room given c).2

theorem head?_path (room : Nat) (s : Script α) (c : Cursor) : (s.path room c).head? = some c := by
  induction s generalizing c with
  | look next ih => exact ih c.current c
  | lookNext next ih => exact ih c.next c
  | lookBack next ih => exact ih c.previous c
  | _ => rfl

theorem getLast?_path (room : Nat) (s : Script α) (c : Cursor) :
    (s.path room c).getLast? = some (s.run room c).2 := by
  induction s generalizing c with
  | done a => rfl
  | failed => rfl
  | look next ih => exact ih c.current c
  | lookNext next ih => exact ih c.next c
  | lookBack next ih => exact ih c.previous c
  | skip next ih => rw [path, List.getLast?_cons, ih c.advance]; rfl
  | complain t e next ih => rw [path, List.getLast?_cons, ih (c.report t e)]; rfl
  | call r given next ih => rw [path, List.getLast?_cons, ih]; rfl

/-- Rules are called from where the script stands. -/
theorem mem_path_of_enters {room : Nat} {s : Script α} {c : Cursor} {A : Activation}
    (hA : s.Enters room A c) : A.cursor ∈ s.path room c := by
  induction s generalizing c with
  | done a => cases hA
  | failed => cases hA
  | look next ih => exact ih _ hA
  | lookNext next ih => exact ih _ hA
  | lookBack next ih => exact ih _ hA
  | skip next ih => exact List.mem_cons_of_mem _ (ih hA)
  | complain t e next ih => exact List.mem_cons_of_mem _ (ih hA)
  | call r given next ih =>
    rcases hA with rfl | hA
    · exact List.mem_cons_self
    · exact List.mem_cons_of_mem _ (ih _ hA)

/-- A script calls what its first part calls, and behind that what its second part calls. -/
theorem enters_bind {room : Nat} {A : Activation} (s : Script α) (f : α → Script β) (c : Cursor) :
    (s >>= f).Enters room A c ↔ s.Enters room A c ∨
      ∃ a, (s.run room c).1 = some a ∧ (f a).Enters room A (s.run room c).2 := by
  show (s.bind f).Enters room A c ↔ _
  induction s generalizing c with
  | done a =>
    refine ⟨fun h => .inr ⟨a, rfl, h⟩, ?_⟩
    rintro (h | ⟨b, hb, h⟩)
    · cases h
    · rwa [Option.some.inj hb]
  | failed => exact ⟨False.elim, fun h => h.elim id fun ⟨_, ha, _⟩ => nomatch ha⟩
  | look next ih => exact ih c.current c
  | lookNext next ih => exact ih c.next c
  | lookBack next ih => exact ih c.previous c
  | skip next ih => exact ih c.advance
  | complain t e next ih => exact ih (c.report t e)
  | call r given next ih => exact (or_congr_right (ih _ _)).trans or_assoc.symm

end Script

namespace Activation

/-- What a rule at work comes to. -/
def result (A : Activation) : Option A.rule.Result × Cursor :=
  A.rule.run A.room A.given A.cursor

/-- The first rule calls the second. -/
def Enters (A B : Activation) : Prop :=
  ∃ inner, A.rule.below A.room = some inner ∧
    (Script.ofRule A.rule A.given).Enters inner B A.cursor

/-- Where the rule stands before, between and behind its steps. -/
def path (A : Activation) : List Cursor :=
  match A.rule.below A.room with
  | some inner => (Script.ofRule A.rule A.given).path inner A.cursor
  | none => [A.cursor]

/-- The tokens ahead, and with the same tokens the rank of the rule. -/
def measure (A : Activation) : Nat :=
  16 * A.cursor.rest.length + A.rule.rank

/-- The rule starts on a cursor that ends with an end of text, and a block at its opening word. -/
structure Sound (A : Activation) : Prop where
  closed : A.cursor.Closed
  opening : A.rule = .block → A.cursor.current.kind = .kwBegin

end Activation

/-! ## 3. Bounds on calls -/

theorem Rule.moves (r : Rule) (room : Nat) (given : r.Given) (c : Cursor) :
    (r.run room given c).2.tokens <:+ c.tokens :=
  (r.steady room given).moves c

namespace Script

variable {α β : Type} {room n b : Nat}

theorem moves (room : Nat) (s : Script α) (c : Cursor) :
    (s.run room c).2.tokens <:+ c.tokens := by
  induction s generalizing c with
  | done a => exact List.suffix_rfl
  | failed => exact List.suffix_rfl
  | look next ih => exact ih c.current c
  | lookNext next ih => exact ih c.next c
  | lookBack next ih => exact ih c.previous c
  | skip next ih => exact (ih c.advance).trans c.advance_tokens_suffix
  | complain t e next ih => exact ih (c.report t e)
  | call r given next ih => exact (ih _ _).trans (r.moves room given c)

/-- With at most `n` tokens ahead, all that the script calls is sound and smaller than `b`. -/
def Within (room n b : Nat) (s : Script α) : Prop :=
  ∀ ⦃c : Cursor⦄, c.Closed → c.rest.length ≤ n →
    ∀ ⦃A : Activation⦄, s.Enters room A c → A.Sound ∧ A.measure < b

/-- The script calls nothing. -/
def Quiet (s : Script α) : Prop :=
  ∀ (room : Nat) (A : Activation) (c : Cursor), ¬ s.Enters room A c

theorem Quiet.within {s : Script α} (hs : s.Quiet) : s.Within room n b :=
  fun c _ _ A hA => absurd hA (hs room A c)

theorem within_pure (a : α) : (pure a : Script α).Within room n b :=
  fun _ _ _ _ hA => nomatch hA

theorem Within.bind {s : Script α} {f : α → Script β} (hs : s.Within room n b)
    (hf : ∀ a, (f a).Within room n b) : (s >>= f).Within room n b := by
  intro c hc hn A hA
  rcases (enters_bind s f c).mp hA with hA | ⟨a, _, hA⟩
  · exact hs hc hn hA
  · have hmoves := s.moves room c
    exact hf a (hc.of_suffix hmoves) (Nat.le_trans (rest_le_of_suffix hmoves) hn) hA

/-- Behind a part that has passed a token, fewer are ahead. -/
theorem Within.bind_pass {s : Script α} {f : α → Script β} (hs : s.Within room n b)
    (hpass : Passes (s.run room)) (hf : ∀ a m, m < n → (f a).Within room m b) :
    (s >>= f).Within room n b := by
  intro c hc hn A hA
  rcases (enters_bind s f c).mp hA with hA | ⟨a, ha, hA⟩
  · exact hs hc hn hA
  · have hlt := hpass hc (by rw [ha]; exact nofun)
    exact hf a _ (Nat.lt_of_lt_of_le hlt hn) (hc.of_suffix (s.moves room c)) (Nat.le_refl _) hA

theorem Within.ite {q : Prop} [Decidable q] {s s' : Script α} (hs : s.Within room n b)
    (hs' : s'.Within room n b) : (if q then s else s').Within room n b := by
  split
  · exact hs
  · exact hs'

theorem enters_rule {r : Rule} {given : r.Given} {c : Cursor} {A : Activation}
    (hA : (rule r given).Enters room A c) : A = ⟨room, r, given, c⟩ := by
  refine hA.resolve_right fun h => ?_
  cases ho : (r.run room given c).1 <;> rw [ho] at h <;> cases h

theorem within_rule {r : Rule} (hr : r ≠ .block) (hb : 16 * n + r.rank < b) (given : r.Given) :
    (rule r given).Within room n b := by
  intro c hc hn A hA
  obtain rfl := enters_rule hA
  refine ⟨⟨hc, fun hblock => absurd hblock hr⟩, ?_⟩
  have hmeasure : Activation.measure ⟨room, r, given, c⟩ = 16 * c.rest.length + r.rank := rfl
  omega

theorem within_peek {f : Token → Script α} (hf : ∀ t, (f t).Within room n b) :
    (peek >>= f).Within room n b :=
  fun c hc hn _ hA => hf c.current hc hn hA

/-- A choice by the kind of the current token, one branch of which passes this token. -/
theorem within_choice {P : Kind → Prop} [DecidablePred P] (hP : ¬ P .eof)
    {f g : Token → Script α} (hf : ∀ t m, m < n → (f t).Within room m b)
    (hg : ∀ t, (g t).Within room n b) :
    (peek >>= fun t => if P t.kind then pass >>= fun _ => f t else g t).Within room n b := by
  intro c hc hn A hA
  change (if P c.current.kind then pass >>= fun _ => f c.current else g c.current).Enters
    room A c at hA
  by_cases hk : P c.current.kind
  · rw [if_pos hk] at hA
    have hlt := hc.rest_advance fun heof => hP (heof ▸ hk)
    exact hf c.current _ (Nat.lt_of_lt_of_le hlt hn) hc.advance (Nat.le_refl _) hA
  · rw [if_neg hk] at hA
    exact hg c.current hc hn hA

theorem quiet_done (a : α) : (done a).Quiet :=
  fun _ _ _ hA => nomatch hA

theorem quiet_pass : pass.Quiet :=
  fun _ _ _ hA => nomatch hA

theorem quiet_take : take.Quiet :=
  fun _ _ _ hA => nomatch hA

theorem quiet_warn (t : Token) (e : SyntaxError) : (warn t e).Quiet :=
  fun _ _ _ hA => nomatch hA

theorem quiet_failAt (t : Token) (e : SyntaxError) : (failAt t e : Script α).Quiet :=
  fun _ _ _ hA => nomatch hA

theorem quiet_look {next : Token → Script α} (hnext : ∀ t, (next t).Quiet) : (look next).Quiet :=
  fun room A c hA => hnext c.current room A c hA

theorem quiet_peek : peek.Quiet :=
  quiet_look quiet_done

theorem Quiet.skip {next : Script α} (hnext : next.Quiet) : (Script.skip next).Quiet :=
  fun room A c hA => hnext room A c.advance hA

theorem Quiet.bind {s : Script α} {f : α → Script β} (hs : s.Quiet) (hf : ∀ a, (f a).Quiet) :
    (s >>= f).Quiet := by
  intro room A c hA
  rcases (enters_bind s f c).mp hA with hA | ⟨a, _, hA⟩
  · exact hs room A c hA
  · exact hf a room A _ hA

theorem Quiet.ite {q : Prop} [Decidable q] {s s' : Script α} (hs : s.Quiet) (hs' : s'.Quiet) :
    (if q then s else s').Quiet := by
  split
  · exact hs
  · exact hs'

theorem quiet_expect (k : Kind) (e : SyntaxError) : (expect k e).Quiet :=
  quiet_look fun t => (quiet_done t).skip.ite (quiet_failAt t e)

theorem quiet_accept (k : Kind) : (accept k).Quiet :=
  quiet_look fun _ => (quiet_done true).skip.ite (quiet_done false)

theorem within_expect {k : Kind} (hk : k ≠ .eof) {e : SyntaxError} {f : Token → Script α}
    (hf : ∀ t m, m < n → (f t).Within room m b) : (expect k e >>= f).Within room n b :=
  (quiet_expect k e).within.bind_pass (by rw [run_expect]; exact passes_expect hk e) hf

/-- Behind a word that may be left out, there may be fewer tokens ahead. -/
theorem within_accept_bind (k : Kind) {f : Bool → Script α} (hf : ∀ a, (f a).Within room n b) :
    (accept k >>= f).Within room n b :=
  (quiet_accept k).within.bind hf

theorem within_accept {k : Kind} (hk : k ≠ .eof) {s s' : Script α}
    (hs : ∀ m, m < n → s.Within room m b) (hs' : s'.Within room n b) :
    (accept k >>= fun a => if a = true then s else s').Within room n b := by
  intro c hc hn A hA
  rcases (enters_bind _ _ c).mp hA with hA | ⟨a, ha, hA⟩
  · exact absurd hA (quiet_accept k room A c)
  rw [run_accept] at ha hA
  by_cases hat : c.current.kind = k
  · rw [accept_of_kind hat] at ha hA
    obtain rfl : true = a := Option.some.inj ha
    rw [if_pos rfl] at hA
    have hlt := hc.rest_advance (by rw [hat]; exact hk)
    exact hs _ (Nat.lt_of_lt_of_le hlt hn) hc.advance (Nat.le_refl _) hA
  · rw [accept_of_ne hat] at ha hA
    obtain rfl : false = a := Option.some.inj ha
    rw [if_neg Bool.false_ne_true] at hA
    exact hs' hc hn hA

theorem within_alongCommas {entry : Script α} {more : Script (List α)}
    (hentry : entry.Within room n b) (hmore : ∀ m, m < n → more.Within room m b) :
    (alongCommas entry more).Within room n b :=
  hentry.bind fun a => within_accept (by decide)
    (fun m hm => (hmore m hm).bind fun _ => within_pure _) (within_pure _)

theorem within_upToParen {entries : Script (List α)} (hentries : entries.Within room n b) :
    (upToParen entries).Within room n b :=
  within_peek fun _ => (within_pure _).ite hentries

theorem quiet_withinLimit (count : Nat) (e : SyntaxError) : (withinLimit count e).Quiet :=
  quiet_peek.bind fun t => (quiet_warn t e).ite (quiet_done ())

theorem quiet_typeWord (e : SyntaxError) : (typeWord e).Quiet := by
  refine quiet_peek.bind fun t => ?_
  cases t.kind.type? with
  | none => exact quiet_failAt t e
  | some type => exact quiet_pass.bind fun _ => quiet_done _

theorem quiet_resultType : resultType.Quiet := by
  refine quiet_peek.bind fun t => ?_
  cases t.kind.type? with
  | none => exact quiet_done none
  | some type => exact quiet_pass.bind fun _ => quiet_done _

theorem quiet_fence (k : Kind) (e : SyntaxError) : (fence k e).Quiet :=
  quiet_peek.bind fun t =>
    (quiet_pass.bind fun _ => quiet_done true).ite ((quiet_warn t e).bind fun _ => quiet_done false)

end Script

theorem Rule.rank_le (r : Rule) : r.rank ≤ 15 := by
  cases r with
  | operand o => exact Nat.le_trans (Nat.sub_le _ _) (by decide)
  | chain l => exact Nat.le_add_left 1 14
  | _ => decide

theorem Rule.rank_pos (r : Rule) : 0 < r.rank := by
  cases r with
  | operand o =>
    have hle := Level.tier_le o
    have hrank : (operand o).rank = 10 - Level.tier o := rfl
    omega
  | chain l => exact Nat.zero_lt_one
  | _ => decide

namespace Script

variable {α β : Type} {room n m k : Nat}

/-- A rule may call, where it stands, a rule of a lower rank. -/
theorem within_rule_lower {r : Rule} (hr : r ≠ .block) (hk : r.rank < k) (given : r.Given) :
    (rule r given).Within room n (16 * n + k) :=
  within_rule hr (Nat.add_lt_add_left hk _) given

/-- With fewer tokens ahead, a rule may call any rule. -/
theorem within_rule_fewer {r : Rule} (hr : r ≠ .block) (hm : m < n) (given : r.Given) :
    (rule r given).Within room m (16 * n + k) := by
  have hrank := r.rank_le
  exact within_rule hr (by omega) given

theorem passes_typeWord (e : SyntaxError) : Passes (Grammar.typeWord e) := by
  intro c hc hne
  cases htype : c.current.kind.type? with
  | none =>
    have hfails : Grammar.typeWord e c = Parse.failAt c.current e c := by
      rw [Grammar.typeWord, Parse.bind_some (a := c.current) rfl, htype]
      rfl
    rw [hfails] at hne
    exact absurd rfl hne
  | some type =>
    rw [typeWord_of_type htype]
    exact hc.rest_advance fun heof => by rw [heof] at htype; cases htype

theorem within_typeWord {b : Nat} {e : SyntaxError} {f : TypeName → Script α}
    (hf : ∀ t m, m < n → (f t).Within room m b) : (typeWord e >>= f).Within room n b :=
  (quiet_typeWord e).within.bind_pass (by rw [run_typeWord]; exact passes_typeWord e) hf

/-! ## 4. Each rule calls only what is smaller -/

theorem within_expression : (ofRule .expression ()).Within room n (16 * n + 10) := by
  refine (within_rule_lower (by decide) (by decide) _).bind fun e => ?_
  refine within_choice (P := fun k => k = .assign) (by decide) (fun op m hm => ?_)
    fun _ => within_pure _
  refine (within_rule_fewer (by decide) hm _).bind fun value => ?_
  cases e <;> exact Quiet.within fun _ _ _ hA => nomatch hA

theorem within_operand (o : Option Level) :
    (ofRule (.operand o) ()).Within room n (16 * n + (10 - Level.tier o)) := by
  cases o with
  | none => exact within_rule_lower (by decide) (by decide) _
  | some l =>
    refine (within_rule_lower (by nofun) ?_ _).bind fun left =>
      within_rule_lower (by nofun) ?_ _
    · cases l <;> decide
    · cases l <;> decide

theorem within_chain (l : Level) (left : Expr) :
    (ofRule (.chain l) left).Within room n (16 * n + 1) := by
  have heof : ¬ l.has .eof = true := by cases l <;> decide
  refine within_choice (P := fun k => l.has k = true) heof (fun op m hm => ?_)
    fun _ => within_pure _
  exact (within_rule_fewer (by nofun) hm _).bind fun right =>
    within_rule_fewer (by nofun) hm _

theorem within_unary : (ofRule .unary ()).Within room n (16 * n + 2) := by
  refine within_choice (P := fun k => isSign k = true) (by decide) (fun op m hm => ?_)
    fun _ => ?_
  · exact (within_rule_fewer (by decide) hm _).bind fun _ => within_pure _
  · exact (within_rule_lower (by decide) (by decide) _).bind fun e =>
      within_rule_lower (by decide) (by decide) _

theorem within_calls (callee : Expr) : (ofRule .calls callee).Within room n (16 * n + 1) := by
  refine within_accept (by decide) (fun m hm => ?_) (within_pure _)
  refine (within_upToParen (within_rule_fewer (by decide) hm _)).bind fun args => ?_
  exact (quiet_expect _ _).within.bind fun paren => within_rule_fewer (by decide) hm _

theorem within_arguments (count : Nat) :
    (ofRule .arguments count).Within room n (16 * n + 11) := by
  refine (quiet_withinLimit _ _).within.bind fun _ => ?_
  exact within_alongCommas (within_rule_lower (by decide) (by decide) _) fun m hm =>
    within_rule_fewer (by decide) hm _

theorem within_primary : (ofRule .primary ()).Within room n (16 * n + 1) := by
  intro c hc hn A hA
  change (if isLiteral c.current.kind = true then _ else _ : Script Expr).Enters room A c at hA
  split at hA
  · cases hA
  split at hA
  · cases hA
  split at hA
  · rename_i hparen
    have hlt := hc.rest_advance (by rw [hparen]; decide)
    refine ((within_rule_fewer (r := .expression) (by decide) (Nat.lt_of_lt_of_le hlt hn) _).bind
      fun e => (quiet_expect _ _).within.bind fun _ => within_pure _) hc.advance (Nat.le_refl _) hA
  · cases hA

theorem within_declarators (type : BaseType) (isMutable : Bool) :
    (ofRule .declarators (type, isMutable)).Within room n (16 * n + 1) := by
  refine within_alongCommas ?_ fun m hm => within_rule_fewer (by decide) hm _
  refine within_expect (by decide) fun name m hm => ?_
  have hvalue : (initializer).Within room m (16 * n + 1) :=
    within_accept_bind _ fun _ =>
      ((within_rule_fewer (by decide) hm _).bind fun _ => within_pure _).ite (within_pure _)
  exact hvalue.bind fun _ => within_pure _

theorem within_declaration : (ofRule .declaration ()).Within room n (16 * n + 1) := by
  refine within_accept_bind _ fun immutable => within_typeWord fun word m hm => ?_
  refine (within_rule_fewer (by decide) hm _).bind fun declared => ?_
  exact within_accept_bind _ fun _ => within_pure _

theorem within_parameters (count : Nat) :
    (ofRule .parameters count).Within room n (16 * n + 1) := by
  refine (quiet_withinLimit _ _).within.bind fun _ => ?_
  refine within_alongCommas ?_ fun m hm => within_rule_fewer (by decide) hm _
  refine (quiet_typeWord _).within.bind fun _ => ?_
  exact (quiet_expect _ _).within.bind fun _ => within_pure _

theorem within_condition (keyword : String) :
    (ofRule .condition keyword).Within room n (16 * n + 1) := by
  refine within_expect (by decide) fun _ m hm => ?_
  refine (within_rule_fewer (by decide) hm _).bind fun e => ?_
  exact (quiet_expect _ _).within.bind fun _ => within_pure _

theorem within_names : (ofRule .names ()).Within room n (16 * n + 1) :=
  within_alongCommas (quiet_expect _ _).within fun _ hm => within_rule_fewer (by decide) hm _

theorem within_display : (ofRule .display ()).Within room n (16 * n + 11) := by
  refine quiet_take.within.bind fun _ => (quiet_expect _ _).within.bind fun _ => ?_
  exact (within_rule_lower (by decide) (by decide) _).bind fun _ => within_pure _

theorem within_scan : (ofRule .scan ()).Within room n (16 * n + 2) := by
  refine quiet_take.within.bind fun _ => (quiet_expect _ _).within.bind fun _ => ?_
  exact (within_rule_lower (by decide) (by decide) _).bind fun _ => within_pure _

theorem within_ret : (ofRule .ret ()).Within room n (16 * n + 11) := by
  refine quiet_take.within.bind fun _ => within_peek fun _ => Within.ite ?_ (within_pure _)
  exact (within_rule_lower (by decide) (by decide) _).bind fun _ => within_pure _

theorem within_conditional : (ofRule .conditional ()).Within room n (16 * n + 11) := by
  refine quiet_take.within.bind fun _ => ?_
  refine (within_rule_lower (by decide) (by decide) _).bind fun _ => ?_
  refine (within_rule_lower (by decide) (by decide) _).bind fun _ => ?_
  exact (within_rule_lower (by decide) (by decide) _).bind fun _ => within_pure _

theorem within_alternatives : (ofRule .alternatives ()).Within room n (16 * n + 1) := by
  refine within_choice (P := fun k => k = .kwElse) (by decide) (fun _ m hm => ?_)
    fun _ => within_pure _
  refine within_choice (P := fun k => k = .kwIf) (by decide) (fun _ i hi => ?_) fun _ => ?_
  · have hi := Nat.lt_trans hi hm
    refine (within_rule_fewer (by decide) hi _).bind fun _ => ?_
    refine (within_rule_fewer (by decide) hi _).bind fun _ => ?_
    exact (within_rule_fewer (by decide) hi _).bind fun _ => within_pure _
  · exact (within_rule_fewer (by decide) hm _).bind fun _ => within_pure _

theorem within_loop : (ofRule .loop ()).Within room n (16 * n + 11) := by
  refine quiet_take.within.bind fun _ => ?_
  refine (within_rule_lower (by decide) (by decide) _).bind fun _ => ?_
  exact (within_rule_lower (by decide) (by decide) _).bind fun _ => within_pure _

theorem within_fenced (fence : Kind) : (ofRule .fenced fence).Within room n (16 * n + 1) := by
  refine within_expect (by decide) fun _ m hm => (quiet_expect _ _).within.bind fun _ => ?_
  refine (within_rule_fewer (by decide) hm _).bind fun _ => ?_
  refine (quiet_expect _ _).within.bind fun _ => ?_
  exact (quiet_expect _ _).within.bind fun _ => within_pure _

theorem within_body (withFunctions : Bool) :
    (ofRule .body withFunctions).Within room n (16 * n + 14) := by
  have hbehind (fns : List Stmt) (declared : List Stmt) :
      (rule .statements () >>= fun inner => pure (declared ++ fns ++ inner)).Within room n
        (16 * n + 14) :=
    (within_rule_lower (by decide) (by decide) _).bind fun _ => within_pure _
  refine (within_rule_lower (by decide) (by decide) _).bind fun declared => Within.ite ?_ ?_
  · exact (within_rule_lower (by decide) (by decide) _).bind fun fns => hbehind fns declared
  · exact (within_pure _).bind fun fns => hbehind fns declared

theorem within_function : (ofRule .function ()).Within room n (16 * n + 1) := by
  refine quiet_resultType.within.bind fun _ => within_expect (by decide) fun _ m hm => ?_
  refine (quiet_expect _ _).within.bind fun _ => ?_
  refine (within_upToParen (within_rule_fewer (by decide) hm _)).bind fun _ => ?_
  refine (quiet_expect _ _).within.bind fun _ => (quiet_expect _ _).within.bind fun _ => ?_
  refine (quiet_expect _ _).within.bind fun _ => ?_
  refine (within_rule_fewer (by decide) hm _).bind fun _ => ?_
  refine (quiet_expect _ _).within.bind fun _ => ?_
  exact (quiet_expect _ _).within.bind fun _ => within_pure _

theorem within_synchronize : (ofRule .synchronize ()).Within room n (16 * n + 2) := by
  refine within_peek fun _ => Within.ite ?_ ?_
  · exact within_rule_lower (by decide) (by decide) _
  · exact quiet_pass.within.bind fun _ => within_rule_lower (by decide) (by decide) _

theorem within_boundary : (ofRule .boundary ()).Within room n (16 * n + 1) := by
  intro c hc hn A hA
  change (if c.current.kind = .eof ∨ c.previous.kind = .semicolon ∨
    Cursor.isBoundary c.current.kind = true then _ else _ : Script Unit).Enters room A c at hA
  split at hA
  · cases hA
  · rename_i hgo
    have hlt := hc.rest_advance fun heof => hgo (.inl heof)
    exact within_rule_fewer (r := .boundary) (by decide) (Nat.lt_of_lt_of_le hlt hn) ()
      hc.advance (Nat.le_refl _) hA

theorem within_skipFunction : (ofRule .skipFunction ()).Within room n (16 * n + 1) := by
  intro c hc hn A hA
  change (if c.current.kind = .eof ∨ (c.current.kind = .kwBegin ∧ c.next.kind = .kwCode) then _
    else if c.current.kind = .kwEnd ∧ c.next.kind = .kwFn then _ else _ : Script Unit).Enters
      room A c at hA
  split at hA
  · cases hA
  rename_i hgo
  split at hA
  · cases hA
  · have hlt := hc.rest_advance fun heof => hgo (.inl heof)
    exact within_rule_fewer (r := .skipFunction) (by decide) (Nat.lt_of_lt_of_le hlt hn) ()
      hc.advance (Nat.le_refl _) hA

/-- Whether or not a call fails, what follows is bounded by what it has left ahead. -/
theorem enters_attempt {r : Rule} {given : r.Given} {f : Option r.Result → Script α} {c : Cursor}
    {A : Activation} (hA : (attempt r given >>= f).Enters room A c) :
    A = ⟨room, r, given, c⟩ ∨
      (f (r.run room given c).1).Enters room A (r.run room given c).2 :=
  hA

theorem within_declarations : (ofRule .declarations ()).Within room n (16 * n + 3) := by
  intro c hc hn A hA
  change (if startsDeclaration c.current.kind = true then attempt .declaration () >>= _ else _ :
    Script (List Stmt)).Enters room A c at hA
  split at hA
  · rename_i hstart
    rcases enters_attempt hA with rfl | hA
    · exact within_rule_lower (r := .declaration) (by decide) (by decide) () hc hn (.inl rfl)
    · have hpassed : (declaration room c).2.rest.length < c.rest.length :=
        rest_declaration hc hstart
      have hlt := Nat.lt_of_lt_of_le hpassed hn
      have hclosed := hc.of_suffix (Rule.declaration.moves room () c)
      have hmore {m : Nat} (hm : m < n) : (rule .declarations ()).Within room m (16 * n + 3) :=
        within_rule_fewer (by decide) hm _
      revert hA
      cases ((Rule.declaration).run room () c).1 with
      | some declared =>
        exact fun hA => ((hmore hlt).bind fun _ => within_pure _) hclosed (Nat.le_refl _) hA
      | none =>
        exact fun hA => ((within_rule_fewer (by decide) hlt _).bind fun _ => hmore hlt) hclosed
          (Nat.le_refl _) hA
  · cases hA

theorem within_statement : (ofRule .statement ()).Within room n (16 * n + 12) := by
  intro c hc hn A hA
  change (statementAt c.current).Enters room A c at hA
  have hlower {r : Rule} (hr : r ≠ .block) (hk : r.rank < 12) (given : r.Given)
      (h : (rule r given).Enters room A c) : A.Sound ∧ A.measure < 16 * n + 12 :=
    within_rule_lower hr hk given hc hn h
  unfold statementAt at hA
  split at hA
  · exact hlower (r := .display) (by decide) (by decide) () hA
  · exact hlower (r := .scan) (by decide) (by decide) () hA
  · exact hlower (r := .ret) (by decide) (by decide) () hA
  · exact hlower (r := .conditional) (by decide) (by decide) () hA
  · exact hlower (r := .loop) (by decide) (by decide) () hA
  · rename_i hbegin
    obtain rfl : A = ⟨room, .block, (), c⟩ := by
      refine hA.resolve_right fun h => ?_
      cases ho : ((Rule.block).run room () c).1 <;> rw [ho] at h <;> cases h
    refine ⟨⟨hc, fun _ => hbegin⟩, ?_⟩
    show 16 * c.rest.length + 1 < 16 * n + 12
    omega
  · cases hA
  · cases hA
  · cases hA
  · exact Within.bind (within_rule_lower (r := .expression) (by decide) (by decide) ())
      (fun _ => within_pure _) hc hn hA

theorem within_statements : (ofRule .statements ()).Within room n (16 * n + 13) := by
  intro c hc hn A hA
  change (if c.current.kind = .eof ∨ c.current.kind = .kwEnd then _
    else if c.current.kind = .semicolon then _ else attempt .statement () >>= _ :
      Script (List Stmt)).Enters room A c at hA
  split at hA
  · cases hA
  rename_i hgo
  obtain ⟨heof, hend⟩ := not_or.mp hgo
  have hmore {m : Nat} (hm : m < n) : (rule .statements ()).Within room m (16 * n + 13) :=
    within_rule_fewer (by decide) hm _
  split at hA
  · exact hmore (Nat.lt_of_lt_of_le (hc.rest_advance heof) hn) hc.advance (Nat.le_refl _) hA
  rcases enters_attempt hA with rfl | hA
  · exact within_rule_lower (r := .statement) (by decide) (by decide) () hc hn (.inl rfl)
  have hmoves := Rule.statement.moves room () c
  have hclosed := hc.of_suffix hmoves
  have hrecovered := Nat.lt_of_lt_of_le (rest_recovered room hc heof hend) hn
  cases hs : (Grammar.statement room c).1 with
  | some s =>
    rw [orRecover_some hs] at hrecovered
    rw [show ((Rule.statement).run room () c).1 = some s from hs] at hA
    refine Within.bind (quiet_accept _).within (fun _ => ?_) hclosed (Nat.le_refl _) hA
    exact (hmore hrecovered).bind fun _ => within_pure _
  | none =>
    rw [orRecover_none hs] at hrecovered
    rw [show ((Rule.statement).run room () c).1 = none from hs] at hA
    rcases (enters_bind _ _ _).mp hA with hA | ⟨_, _, hA⟩
    · exact within_rule_lower (by decide) (by decide) _ hclosed
        (Nat.le_trans (rest_le_of_suffix hmoves) hn) hA
    · rw [run_rule] at hA
      exact hmore hrecovered (hclosed.of_suffix (Rule.synchronize.moves room () _))
        (Nat.le_refl _) hA

theorem within_functions : (ofRule .functions ()).Within room n (16 * n + 1) := by
  refine within_accept (by decide) (fun m hm => ?_) (within_pure _)
  intro c hc hn A hA
  rcases enters_attempt hA with rfl | hA
  · exact within_rule_fewer (r := .function) (by decide) hm () hc hn (.inl rfl)
  have hmoves := Rule.function.moves room () c
  have hclosed := hc.of_suffix hmoves
  have hle := Nat.le_trans (rest_le_of_suffix hmoves) hn
  revert hA
  cases ((Rule.function).run room () c).1 with
  | some f =>
    exact fun hA => ((within_rule_fewer (by decide) hm _).bind fun _ => within_pure _) hclosed
      hle hA
  | none =>
    exact fun hA => ((within_rule_fewer (by decide) hm _).bind fun _ =>
      within_rule_fewer (by decide) hm _) hclosed hle hA

theorem within_fence (k : Kind) (e : SyntaxError) {b : Nat} {f : Bool → Script α}
    (hf : ∀ a, (f a).Within room n b) : (fence k e >>= f).Within room n b :=
  (quiet_fence k e).within.bind hf

theorem within_program : (ofRule .program ()).Within room n (16 * n + 15) := by
  refine (within_rule_lower (by decide) (by decide) _).bind fun fns => ?_
  refine within_fence _ _ fun _ => (within_pure _).ite (within_fence _ _ fun _ => ?_)
  refine (within_pure _).ite ((within_rule_lower (by decide) (by decide) _).bind fun main => ?_)
  refine within_fence _ _ fun _ => (within_pure _).ite (within_fence _ _ fun _ => ?_)
  refine (within_pure _).ite (within_peek fun t => ?_)
  have hwarn := quiet_warn t .nothingAfterProgram
  exact (hwarn.within.bind fun _ => within_pure _).ite ((within_pure _).bind fun _ => within_pure _)

/-- A block is read behind its opening word. -/
theorem within_block {c : Cursor} (hc : c.Closed) (hbegin : c.current.kind = .kwBegin)
    {A : Activation} (hA : (ofRule .block ()).Enters room A c) :
    A.Sound ∧ A.measure < 16 * c.rest.length + 1 := by
  have hlt := hc.rest_advance (by rw [hbegin]; decide)
  refine Within.bind (s := rule .body true) (within_rule_fewer (by decide) hlt _) (fun _ => ?_)
    hc.advance (Nat.le_refl _) hA
  exact (quiet_expect _ _).within.bind fun _ => within_pure _

theorem enters_room {s : Script α} {c : Cursor} {A : Activation} (hA : s.Enters room A c) :
    A.room = room := by
  induction s generalizing c with
  | done a => cases hA
  | failed => cases hA
  | look next ih => exact ih _ hA
  | lookNext next ih => exact ih _ hA
  | lookBack next ih => exact ih _ hA
  | skip next ih => exact ih hA
  | complain t e next ih => exact ih hA
  | call r given next ih =>
    rcases hA with rfl | hA
    · rfl
    · exact ih _ hA

end Script

/-- **Each rule calls only what is smaller than itself.** -/
theorem Rule.within (r : Rule) (hr : r ≠ .block) (given : r.Given) {room n : Nat} :
    (Script.ofRule r given).Within room n (16 * n + r.rank) := by
  cases r with
  | expression => exact Script.within_expression
  | operand o => exact Script.within_operand o
  | chain l => exact Script.within_chain l given
  | unary => exact Script.within_unary
  | calls => exact Script.within_calls given
  | arguments => exact Script.within_arguments given
  | primary => exact Script.within_primary
  | declarators => exact Script.within_declarators given.1 given.2
  | declaration => exact Script.within_declaration
  | declarations => exact Script.within_declarations
  | parameters => exact Script.within_parameters given
  | condition => exact Script.within_condition given
  | names => exact Script.within_names
  | display => exact Script.within_display
  | scan => exact Script.within_scan
  | ret => exact Script.within_ret
  | statement => exact Script.within_statement
  | statements => exact Script.within_statements
  | conditional => exact Script.within_conditional
  | alternatives => exact Script.within_alternatives
  | loop => exact Script.within_loop
  | block => exact absurd rfl hr
  | fenced => exact Script.within_fenced given
  | body => exact Script.within_body given
  | functions => exact Script.within_functions
  | function => exact Script.within_function
  | program => exact Script.within_program
  | synchronize => exact Script.within_synchronize
  | boundary => exact Script.within_boundary
  | skipFunction => exact Script.within_skipFunction

theorem Rule.le_of_below {r : Rule} {room inner : Nat} (h : r.below room = some inner) :
    room ≤ inner + 1 := by
  unfold below at h
  split at h
  · exact Nat.le_succ_of_le (Nat.le_of_eq (Option.some.inj h))
  · exact Nat.le_of_eq (congrArg (· + 1) (Option.some.inj h))
  · cases h

namespace Activation

variable {A B : Activation}

theorem Sound.enters (hA : A.Sound) (h : A.Enters B) : B.Sound ∧ B.measure < A.measure := by
  obtain ⟨room, rule, given, c⟩ := A
  obtain ⟨inner, _, hB⟩ := h
  by_cases hblock : rule = .block
  · subst hblock
    exact Script.within_block hA.closed (hA.opening rfl) hB
  · exact rule.within hblock given hA.closed (Nat.le_refl _) hB

/-! ## 5. What is at work on the way -/

/-- What is sound and has a level of room for each step of its measure has room for its calls, and
    so have these. -/
structure Roomy (A : Activation) : Prop extends A.Sound where
  room : A.measure ≤ A.room

theorem Roomy.below (hA : A.Roomy) : ∃ inner, A.rule.below A.room = some inner := by
  have hpos : 0 < A.room := by
    have hroom := hA.room
    have hrank := A.rule.rank_pos
    have hmeasure : A.measure = 16 * A.cursor.rest.length + A.rule.rank := rfl
    omega
  cases hbelow : A.rule.below A.room with
  | some inner => exact ⟨inner, rfl⟩
  | none =>
    unfold Rule.below at hbelow
    split at hbelow
    · cases hbelow
    · cases hbelow
    · rename_i hzero
      exact absurd hzero (Nat.ne_of_gt hpos)

theorem Roomy.enters (hA : A.Roomy) (h : A.Enters B) : B.Roomy := by
  obtain ⟨hB, hlt⟩ := hA.toSound.enters h
  refine ⟨hB, ?_⟩
  obtain ⟨inner, hbelow, hcall⟩ := h
  have hinner : B.room = inner := Script.enters_room hcall
  have hle := Rule.le_of_below hbelow
  have hroom := hA.room
  omega

end Activation

/-- What is onward from where a script starts and from each place behind is in order. -/
theorem Script.ordered {α : Type} {room : Nat} {s : Script α} {c : Cursor}
    (hcalls : ∀ A : Activation, s.Enters room A c → A.cursor.Onward A.result.2) :
    (∀ x ∈ s.path room c, c.Onward x) ∧ (s.path room c).Pairwise Cursor.Onward := by
  -- one step to a cursor further on, from which all that follows is in order
  have hcons {c c' : Cursor} {cs : List Cursor} (hstep : c.Onward c')
      (hcs : (∀ x ∈ cs, c'.Onward x) ∧ cs.Pairwise Cursor.Onward) :
      (∀ x ∈ c :: cs, c.Onward x) ∧ (c :: cs).Pairwise Cursor.Onward := by
    have hbehind (x : Cursor) (hx : x ∈ cs) : c.Onward x := hstep.trans (hcs.1 x hx)
    refine ⟨fun x hx => ?_, List.pairwise_cons.mpr ⟨hbehind, hcs.2⟩⟩
    rcases List.mem_cons.mp hx with rfl | hx
    · exact x.onward_rfl
    · exact hbehind x hx
  induction s generalizing c with
  | done a => exact hcons c.onward_rfl ⟨List.forall_mem_nil _, .nil⟩
  | failed => exact hcons c.onward_rfl ⟨List.forall_mem_nil _, .nil⟩
  | look next ih => exact ih c.current hcalls
  | lookNext next ih => exact ih c.next hcalls
  | lookBack next ih => exact ih c.previous hcalls
  | skip next ih => exact hcons c.onward_advance (ih hcalls)
  | complain t e next ih =>
    have hreport : c.Onward (c.report t e) := Cursor.onward_of_tokens rfl
    exact hcons hreport (ih hcalls)
  | call r given next ih =>
    have hcall : c.Onward (r.run room given c).2 := hcalls ⟨room, r, given, c⟩ (.inl rfl)
    exact hcons hcall (ih _ fun A hA => hcalls A (.inr hA))

namespace Activation

variable {A B : Activation}

/-- What a rule with room comes to is what its script comes to. -/
theorem result_eq {inner : Nat} (hbelow : A.rule.below A.room = some inner) :
    A.result = (Script.ofRule A.rule A.given).run inner A.cursor :=
  congrFun (Rule.run_eq hbelow A.given) A.cursor

theorem path_eq {inner : Nat} (hbelow : A.rule.below A.room = some inner) :
    A.path = (Script.ofRule A.rule A.given).path inner A.cursor := by
  unfold path
  rw [hbelow]

/-- **A rule at work only moves on.** By induction on the measure: what it calls is smaller. -/
theorem Sound.onward : ∀ {n : Nat} {A : Activation}, A.measure < n → A.Sound →
    (∀ x ∈ A.path, A.cursor.Onward x) ∧ A.path.Pairwise Cursor.Onward ∧
      A.cursor.Onward A.result.2
  | 0, _, hn, _ => absurd hn (Nat.not_lt_zero _)
  | n + 1, A, hn, hA => by
    cases hbelow : A.rule.below A.room with
    | none =>
      have hfails : A.result = Parse.fail .nesting A.cursor :=
        congrFun (Rule.run_of_below_none hbelow A.given) A.cursor
      have hpath : A.path = [A.cursor] := by
        unfold path
        rw [hbelow]
      rw [hfails, hpath]
      refine ⟨fun x hx => ?_, List.pairwise_singleton _ _, Cursor.onward_of_tokens rfl⟩
      rw [List.mem_singleton.mp hx]
      exact A.cursor.onward_rfl
    | some inner =>
      have hcalls (B : Activation) (hB : (Script.ofRule A.rule A.given).Enters inner B A.cursor) :
          B.cursor.Onward B.result.2 := by
        obtain ⟨hsound, hlt⟩ := hA.enters ⟨inner, hbelow, hB⟩
        exact (Sound.onward (Nat.lt_of_lt_of_le hlt (Nat.le_of_lt_succ hn)) hsound).2.2
      obtain ⟨honward, hordered⟩ := Script.ordered hcalls
      rw [path_eq hbelow, result_eq hbelow]
      refine ⟨honward, hordered, honward _ ?_⟩
      exact List.mem_of_getLast? (Script.getLast?_path inner _ A.cursor)

/-- What is at work, directly or not, because the first rule is. -/
def Reaches : Activation → Activation → Prop :=
  Relation.ReflTransGen Enters

theorem Roomy.reaches (hA : A.Roomy) (h : A.Reaches B) : B.Roomy := by
  induction h with
  | refl => exact hA
  | tail _ hcall ih => exact ih.enters hcall

/-- What is called stands where its caller does or further on. -/
theorem Sound.onward_enters (hA : A.Sound) (h : A.Enters B) : A.cursor.Onward B.cursor := by
  obtain ⟨inner, hbelow, hB⟩ := h
  refine (hA.onward (Nat.lt_succ_self _)).1 _ ?_
  rw [path_eq hbelow]
  exact Script.mem_path_of_enters hB

theorem Roomy.onward_reaches (hA : A.Roomy) (h : A.Reaches B) : A.cursor.Onward B.cursor := by
  induction h with
  | refl => exact A.cursor.onward_rfl
  | tail hreach hcall ih => exact ih.trans ((hA.reaches hreach).toSound.onward_enters hcall)

/-- All that a rule calls, directly or not, is smaller than the rule. -/
theorem Sound.measure_lt (hA : A.Sound) (h : Relation.TransGen Enters A B) :
    B.Sound ∧ B.measure < A.measure := by
  induction h with
  | single hcall => exact hA.enters hcall
  | tail _ hcall ih =>
    obtain ⟨hC, hlt⟩ := ih.1.enters hcall
    exact ⟨hC, Nat.lt_trans hlt ih.2⟩

/-- **A rule that is at work again has passed a token since.** -/
theorem Sound.rest_lt (hA : A.Sound) (h : Relation.TransGen Enters A B)
    (hrule : B.rule = A.rule) : B.cursor.rest.length < A.cursor.rest.length := by
  have hlt := (hA.measure_lt h).2
  unfold measure at hlt
  rw [hrule] at hlt
  omega

/-- The parser at work on a list of tokens. -/
def start (ts : List Token) : Activation :=
  ⟨Program.roomFor ts.length, .program, (), .ofTokens ts⟩

theorem roomy_start (ts : List Token) : (start ts).Roomy := by
  refine ⟨⟨Cursor.ofTokens_closed ts, nofun⟩, ?_⟩
  have htokens := congrArg List.length (Cursor.ofTokens_tokens ts)
  have hcursor : (Cursor.ofTokens ts).tokens.length = (Cursor.ofTokens ts).rest.length + 1 := rfl
  have hend : (Cursor.withEnd ts).length ≤ ts.length + 1 := by
    unfold Cursor.withEnd
    split
    · exact Nat.le_succ _
    · exact Nat.le_of_eq List.length_append
  show 16 * (Cursor.ofTokens ts).rest.length + 15 ≤ 16 * (ts.length + 4)
  omega

end Activation

end Grammar

/-- **The parser makes progress.** Parsing a list of tokens is the work of the rule for programs.
    Of all that is at work meanwhile:
    * it has room left, so what it does is what its script says;
    * what it calls is smaller, so that its calls come to an end;
    * when the same rule is at work again for it, as in each turn of a loop and in each nesting, a
      token has been passed;
    * it starts where it was called and stops where it has come to, its cursors go onward, and they
      are places in the list, with no end of text before them. -/
theorem Program.progress (ts : List Token) :
    Program.ofTokens ts =
        ⟨(Activation.start ts).result.1.getD [], (Activation.start ts).result.2.reported.reverse⟩ ∧
      ∀ A : Activation, (Activation.start ts).Reaches A →
        (∃ inner, A.rule.below A.room = some inner ∧
          A.result = (Script.ofRule A.rule A.given).run inner A.cursor) ∧
        (∀ B, A.Enters B → B.measure < A.measure) ∧
        (∀ B, Relation.TransGen Activation.Enters A B → B.rule = A.rule →
          B.cursor.rest.length < A.cursor.rest.length) ∧
        A.path.head? = some A.cursor ∧ A.path.getLast? = some A.result.2 ∧
        A.path.Pairwise Cursor.Onward ∧
        ∀ x ∈ A.path, ∃ k < (Cursor.withEnd ts).length, x.tokens = (Cursor.withEnd ts).drop k ∧
          ∀ t ∈ (Cursor.withEnd ts).take k, t.kind ≠ .eof := by
  refine ⟨rfl, fun A hreach => ?_⟩
  have hstart := Activation.roomy_start ts
  have hA := hstart.reaches hreach
  obtain ⟨inner, hbelow⟩ := hA.below
  obtain ⟨honward, hordered, _⟩ := hA.toSound.onward (Nat.lt_succ_self _)
  have hresult := Activation.result_eq hbelow
  have hpath := Activation.path_eq hbelow
  refine ⟨⟨inner, hbelow, hresult⟩, fun B hB => (hA.toSound.enters hB).2,
    fun B hB hrule => hA.toSound.rest_lt hB hrule, ?_, ?_, hordered, fun x hx => ?_⟩
  · rw [hpath]
    exact Script.head?_path inner _ A.cursor
  · rw [hpath, hresult]
    exact Script.getLast?_path inner _ A.cursor
  · have hplace := ((hstart.onward_reaches hreach).trans (honward x hx)).eq_drop
    have htokens : (Activation.start ts).cursor.tokens = Cursor.withEnd ts :=
      Cursor.ofTokens_tokens ts
    rwa [htokens] at hplace

end FencedCode
