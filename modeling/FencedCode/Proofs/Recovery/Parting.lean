import FencedCode.Proofs.Syntax.Parallel

/-!
# Texts that differ in one part

Two texts begin alike, part, and go on alike behind that. Up to where they part the parser does the
same in both, since a rule looks at the tokens that it passes, at the one that it stops at and at
one more. Behind it the parser may have complaints from before in one of them; as long as it stands
at the same tokens it makes the same new ones.

* `Fork`, `Cursor.Apart` -- where two texts part, and cursors that stand before;
* `Activation.Sound.apart` -- **before the fork the parser does the same in both texts**;
* `Cursor.Beside` -- a cursor at the same tokens with complaints from before;
* `Pairing.same` -- scripts that run side by side on the same tokens;
* `Script.Parallel.beside` -- **beside each other, parallel scripts stay so**, if what they call
  does.
-/

namespace FencedCode

open Parse Grammar

/-- A step, and a function of its result. -/
theorem Parse.bind_pure_run {α β : Type} (p : Parse α) (f : α → β) (c : Cursor) :
    (p >>= fun a => pure (f a)) c = ((p c).1.map f, (p c).2) := by
  rcases hp : p c with ⟨_ | a, c₁⟩
  · exact bind_of_none hp
  · exact bind_of_some hp

/-! ## 1. Where texts part -/

/-- What is left of two texts from where they part. The first two tokens are still the same, so that
    a rule that stops there sees no difference. -/
structure Fork where
  first : Token
  second : Token
  rest : List Token
  rest' : List Token

namespace Fork

/-- What is left of the first text. -/
def tokens (F : Fork) : List Token :=
  F.first :: F.second :: F.rest

/-- What is left of the second text. -/
def tokens' (F : Fork) : List Token :=
  F.first :: F.second :: F.rest'

end Fork

/-- A text and what it is without one token, which is not one of the first two. -/
theorem Fork.exists_eraseIdx (m : Nat) : ∀ {ts : List Token}, 2 ≤ ts.length →
    ∃ F : Fork, F.tokens = ts ∧ F.tokens' = ts.eraseIdx (m + 2)
  | t :: u :: rest, _ => ⟨⟨t, u, rest, rest.eraseIdx m⟩, rfl, rfl⟩

namespace Cursor

/-- The end that is added stands behind the tokens. -/
theorem withEnd_eq_append (ts : List Token) :
    ∃ es : List Token, es.length ≤ 1 ∧ withEnd ts = ts ++ es := by
  unfold withEnd
  split
  · exact ⟨[], Nat.zero_le _, (List.append_nil ts).symm⟩
  · exact ⟨_, Nat.le_refl _, rfl⟩

/-- The end is the same if the last token is not among those that are left out. -/
theorem withEnd_take_append_drop {ts : List Token} {a b : Nat} (hab : a ≤ b) (hb : b < ts.length) :
    withEnd (ts.take a ++ ts.drop b) = (withEnd ts).take a ++ (withEnd ts).drop b := by
  have hlast : (ts.take a ++ ts.drop b).getLast? = ts.getLast? := by
    rw [List.getLast?_append, List.getLast?_drop, if_neg (Nat.not_le_of_lt hb),
      List.getLast?_eq_some_getLast (List.ne_nil_of_length_pos (Nat.zero_lt_of_lt hb))]
    rfl
  unfold withEnd
  rw [hlast]
  split
  · rfl
  · rw [List.take_append_of_le_length (by omega), List.drop_append_of_le_length (by omega),
      List.append_assoc]

variable {F : Fork} {c c' : Cursor}

/-- What a cursor that ends with an end of text stands before, it is closed with. -/
theorem Closed.of_behind (hc' : c'.Closed) (h : c'.tokens <:+ c.tokens) :
    c.Closed := by
  obtain ⟨t, ht, hk⟩ := hc'
  obtain ⟨ahead, hahead⟩ := h
  refine ⟨t, ?_, hk⟩
  rw [← hahead, List.getLast?_append, ht]
  rfl

/-- Both cursors stand before the same tokens, behind which the texts part. -/
structure Apart (F : Fork) (c c' : Cursor) : Prop where
  previous : c.previous = c'.previous
  reported : c.reported = c'.reported
  tokens : ∃ ahead, c.tokens = ahead ++ F.tokens ∧ c'.tokens = ahead ++ F.tokens'

/-- The current token is the same, and so is the one behind it. -/
theorem Apart.sees (h : Apart F c c') : ∃ u rest rest', c.current = c'.current ∧
    c.rest = u :: rest ∧ c'.rest = u :: rest' := by
  obtain ⟨ahead, hc, hc'⟩ := h.tokens
  match ahead with
  | [] =>
    exact ⟨F.second, F.rest, F.rest', (List.cons.inj hc).1.trans (List.cons.inj hc').1.symm,
      (List.cons.inj hc).2, (List.cons.inj hc').2⟩
  | [t] =>
    exact ⟨F.first, _, _, (List.cons.inj hc).1.trans (List.cons.inj hc').1.symm,
      (List.cons.inj hc).2, (List.cons.inj hc').2⟩
  | t :: u :: ahead =>
    exact ⟨u, _, _, (List.cons.inj hc).1.trans (List.cons.inj hc').1.symm,
      (List.cons.inj hc).2, (List.cons.inj hc').2⟩

theorem Apart.current (h : Apart F c c') : c.current = c'.current := by
  obtain ⟨_, _, _, hcurrent, _⟩ := h.sees
  exact hcurrent

theorem Apart.next (h : Apart F c c') : c.next = c'.next := by
  obtain ⟨u, rest, rest', _, hrest, hrest'⟩ := h.sees
  unfold Cursor.next
  rw [hrest, hrest']
  rfl

/-- At the fork each cursor stands before what is left of its text. -/
theorem Apart.tokens_eq (h : Apart F c c') (hc : c.tokens = F.tokens) : c'.tokens = F.tokens' := by
  obtain ⟨ahead, hahead, hahead'⟩ := h.tokens
  obtain rfl : ahead = [] := List.append_left_eq_self.mp (hahead.symm.trans hc)
  exact hahead'

theorem Apart.report (h : Apart F c c') (t : Token) (e : SyntaxError) :
    Apart F (c.report t e) (c'.report t e) :=
  ⟨h.previous, congrArg (Diagnostic.atToken t e :: ·) h.reported, h.tokens⟩

/-- Both cursors move on, if they do not move past the fork. -/
theorem Apart.advance (h : Apart F c c')
    (hbefore : F.tokens.length ≤ c.advance.tokens.length) : Apart F c.advance c'.advance := by
  obtain ⟨u, rest, rest', hcurrent, hrest, hrest'⟩ := h.sees
  by_cases heof : c.current.kind = .eof
  · have hend : c.AtEnd := heof
    have hend' : c'.AtEnd := by
      unfold AtEnd
      rw [← hcurrent]
      exact heof
    rw [hend.advance, hend'.advance]
    exact h
  · rw [advance_of_cons hrest heof] at hbefore ⊢
    rw [advance_of_cons hrest' (by rw [← hcurrent]; exact heof)]
    obtain ⟨ahead, hc, hc'⟩ := h.tokens
    cases ahead with
    | nil =>
      -- the cursor stands at the fork and has moved past it
      have hlength := congrArg List.length hc
      unfold Cursor.tokens at hlength hbefore
      rw [hrest] at hlength
      simp only [List.length_cons, List.nil_append] at hlength hbefore
      omega
    | cons t ahead =>
      refine ⟨hcurrent, h.reported, ahead, ?_, ?_⟩
      · exact hrest.symm.trans (List.cons.inj hc).2
      · exact hrest'.symm.trans (List.cons.inj hc').2

end Cursor

/-! ## 2. Before the fork -/

namespace Grammar

/-- The same rule at work somewhere else. -/
def Activation.moved (A : Activation) (c : Cursor) : Activation :=
  { A with cursor := c }

namespace Script

variable {α : Type} {room : Nat}

/-- What a script calls stands where the script starts or further on. -/
theorem enters_suffix {s : Script α} {c : Cursor} {A : Activation} (hA : s.Enters room A c) :
    A.cursor.tokens <:+ c.tokens := by
  induction s generalizing c with
  | done a => cases hA
  | failed => cases hA
  | look next ih => exact ih _ hA
  | lookNext next ih => exact ih _ hA
  | lookBack next ih => exact ih _ hA
  | skip next ih => exact (ih hA).trans c.advance_tokens_suffix
  | complain t e next ih => exact ih (c := c.report t e) hA
  | call r given next ih =>
    rcases hA with rfl | hA
    · exact List.suffix_rfl
    · exact (ih _ hA).trans (r.moves room given c)

/-- A script takes no complaint back. -/
theorem keeps (room : Nat) (s : Script α) (c : Cursor) :
    c.reported <:+ (s.run room c).2.reported := by
  induction s generalizing c with
  | done a => exact List.suffix_rfl
  | failed => exact List.suffix_rfl
  | look next ih => exact ih c.current c
  | lookNext next ih => exact ih c.next c
  | lookBack next ih => exact ih c.previous c
  | skip next ih =>
    have hlater := ih c.advance
    rw [Cursor.advance_reported] at hlater
    exact hlater
  | complain t e next ih => exact (List.suffix_cons _ _).trans (ih (c.report t e))
  | call r given next ih => exact ((r.steady room given).keeps c).trans (ih _ _)

/-- What is called by a script that ends without a complaint makes none. -/
theorem clean_of_enters {s : Script α} {c : Cursor} {A : Activation} (hA : s.Enters room A c)
    (hclean : (s.run room c).2.reported = []) : A.result.2.reported = [] := by
  induction s generalizing c with
  | done a => cases hA
  | failed => cases hA
  | look next ih => exact ih _ hA hclean
  | lookNext next ih => exact ih _ hA hclean
  | lookBack next ih => exact ih _ hA hclean
  | skip next ih => exact ih hA hclean
  | complain t e next ih => exact ih hA hclean
  | call r given next ih =>
    rcases hA with rfl | hA
    · have hkeeps : (r.run room given c).2.reported <:+
          ((call r given next).run room c).2.reported := keeps room _ _
      rw [hclean] at hkeeps
      exact List.suffix_nil.mp hkeeps
    · exact ih _ hA hclean

/-- Before the fork a script does the same in both texts, if what it calls does. -/
theorem apart {F : Fork} {s : Script α} {c c' : Cursor} (hpart : c.Apart F c')
    (hcalls : ∀ A : Activation, s.Enters room A c →
      F.tokens.length ≤ A.result.2.tokens.length → ∀ c', A.cursor.Apart F c' →
        A.result.1 = (A.moved c').result.1 ∧ A.result.2.Apart F (A.moved c').result.2)
    (hbefore : F.tokens.length ≤ (s.run room c).2.tokens.length) :
    (s.run room c).1 = (s.run room c').1 ∧ (s.run room c).2.Apart F (s.run room c').2 := by
  induction s generalizing c c' with
  | done a => exact ⟨rfl, hpart⟩
  | failed => exact ⟨rfl, hpart⟩
  | look next ih =>
    have hrun : (look next).run room c' = (next c.current).run room c' := by
      rw [hpart.current]
      rfl
    rw [hrun]
    exact ih c.current hpart hcalls hbefore
  | lookNext next ih =>
    have hrun : (lookNext next).run room c' = (next c.next).run room c' := by
      rw [hpart.next]
      rfl
    rw [hrun]
    exact ih c.next hpart hcalls hbefore
  | lookBack next ih =>
    have hrun : (lookBack next).run room c' = (next c.previous).run room c' := by
      rw [hpart.previous]
      rfl
    rw [hrun]
    exact ih c.previous hpart hcalls hbefore
  | skip next ih =>
    have hmoves := (next.moves room c.advance).length_le
    exact ih (hpart.advance (Nat.le_trans hbefore hmoves)) hcalls hbefore
  | complain t e next ih => exact ih (hpart.report t e) hcalls hbefore
  | call r given next ih =>
    have hmoves := ((next (r.run room given c).1).moves room (r.run room given c).2).length_le
    obtain ⟨hresult, hbehind⟩ :=
      hcalls ⟨room, r, given, c⟩ (.inl rfl) (Nat.le_trans hbefore hmoves) c' hpart
    have hrun : (call r given next).run room c' =
        (next (r.run room given c).1).run room (r.run room given c').2 :=
      congrArg (fun o => (next o).run room (r.run room given c').2) hresult.symm
    rw [hrun]
    exact ih _ hbehind (fun A hA => hcalls A (.inr hA)) hbefore

end Script

namespace Activation

variable {F : Fork} {c' : Cursor}

/-- **Before the fork the parser does the same in both texts.** By induction on the measure: what a
    rule calls is smaller. -/
theorem Sound.apart : ∀ {n : Nat} {A : Activation} {c' : Cursor}, A.measure < n → A.Sound →
    A.cursor.Apart F c' → F.tokens.length ≤ A.result.2.tokens.length →
    A.result.1 = (A.moved c').result.1 ∧ A.result.2.Apart F (A.moved c').result.2
  | 0, _, _, hn, _, _, _ => absurd hn (Nat.not_lt_zero _)
  | n + 1, A, c', hn, hA, hpart, hbefore => by
    cases hbelow : A.rule.below A.room with
    | none =>
      have hfails (c : Cursor) : (A.moved c).result = Parse.fail .nesting c :=
        congrFun (Rule.run_of_below_none hbelow A.given) c
      rw [show A.result = _ from hfails A.cursor, hfails c']
      unfold Parse.fail
      rw [hpart.current]
      exact ⟨rfl, hpart.report _ _⟩
    | some inner =>
      have hruns : (A.moved c').result = (Script.ofRule A.rule A.given).run inner c' :=
        result_eq (A := A.moved c') hbelow
      rw [hruns]
      rw [result_eq hbelow] at hbefore ⊢
      refine Script.apart hpart (fun B hB hbefore c' hpart => ?_) hbefore
      obtain ⟨hsound, hlt⟩ := hA.enters ⟨inner, hbelow, hB⟩
      exact hsound.apart (Nat.lt_of_lt_of_le hlt (Nat.le_of_lt_succ hn)) hpart hbefore

end Activation

end Grammar

/-! ## 3. Complaints from before -/

namespace Cursor

variable {new : List Diagnostic} {c c' : Cursor}

/-- The second cursor stands at the same tokens, with complaints behind those of the first. The
    token before may be another one. -/
structure Beside (new : List Diagnostic) (c c' : Cursor) : Prop where
  current : c.current = c'.current
  rest : c.rest = c'.rest
  reported : c'.reported = c.reported ++ new

theorem Beside.tokens (h : Beside new c c') : c.tokens = c'.tokens :=
  congrArg₂ List.cons h.current h.rest

theorem Beside.closed (h : Beside new c c') (hc : c.Closed) : c'.Closed :=
  hc.of_suffix (h.tokens ▸ List.suffix_rfl)

theorem Beside.next (h : Beside new c c') : c.next = c'.next := by
  unfold Cursor.next
  rw [h.current, h.rest]

theorem Beside.report (h : Beside new c c') (t : Token) (e : SyntaxError) :
    Beside new (c.report t e) (c'.report t e) :=
  ⟨h.current, h.rest, congrArg (Diagnostic.atToken t e :: ·) h.reported⟩

/-- Both cursors move on and have the same token before them, or both stay where they are. -/
theorem Beside.advance_or (h : Beside new c c') :
    (c.advance.previous = c'.advance.previous ∧ Beside new c.advance c'.advance) ∨
      (c.current.kind = .eof ∨ c.rest = []) ∧ c.advance = c ∧ c'.advance = c' := by
  by_cases heof : c.current.kind = .eof
  · have hend' : c'.AtEnd := by
      unfold AtEnd
      rw [← h.current]
      exact heof
    exact .inr ⟨.inl heof, AtEnd.advance heof, hend'.advance⟩
  cases hrest : c.rest with
  | nil =>
    have hrest' := h.rest.symm.trans hrest
    exact .inr ⟨.inr rfl, advance_of_nil hrest, advance_of_nil hrest'⟩
  | cons t rest =>
    have hrest' := h.rest.symm.trans hrest
    rw [advance_of_cons hrest heof, advance_of_cons hrest' (by rw [← h.current]; exact heof)]
    exact .inl ⟨h.current, rfl, rfl, h.reported⟩

theorem Beside.advance (h : Beside new c c') : Beside new c.advance c'.advance := by
  rcases h.advance_or with ⟨_, hmoved⟩ | ⟨_, hstays, hstays'⟩
  · exact hmoved
  · rw [hstays, hstays']
    exact h

/-- A walk from the same place that has begun with the same token before it. -/
theorem Beside.walked (h : Beside new c c') {walk : Walk} (hwalk : ∀ p p',
      (walk p c.current c.rest).2 = (walk p' c.current c.rest).2) :
    Beside new (c.walked walk) (c'.walked walk) := by
  have hsame := hwalk c.previous c'.previous
  unfold Cursor.walked
  rw [← h.current, ← h.rest]
  exact ⟨congrArg Prod.fst hsame, congrArg Prod.snd hsame, h.reported⟩

theorem synchronize_of_end (hend : c.current.kind = .kwEnd) : c.synchronize = c := by
  unfold synchronize
  rw [if_pos (isAt_iff.mpr hend)]
  dsimp only
  rw [toBoundary_of_stop (.inr (.inr (by rw [hend]; rfl)))]

/-- Recovering, the token before does not matter: the cursor stays at an `END`, or else it has
    moved before it searches. -/
theorem Beside.synchronize (h : Beside new c c') : Beside new c.synchronize c'.synchronize := by
  by_cases hend : c.current.kind = .kwEnd
  · rw [synchronize_of_end hend, synchronize_of_end (by rw [← h.current]; exact hend)]
    exact h
  rw [synchronize_of_ne hend, synchronize_of_ne (by rw [← h.current]; exact hend)]
  rcases h.advance_or with ⟨hprevious, hmoved⟩ | ⟨hstop, hstays, hstays'⟩
  · unfold Cursor.walked
    rw [hprevious, hmoved.current, hmoved.rest]
    exact ⟨rfl, rfl, hmoved.reported⟩
  · rw [hstays, hstays']
    refine h.walked fun p p' => ?_
    rcases hstop with heof | hnil
    · rw [toBoundary_of_stop (.inl heof), toBoundary_of_stop (.inl heof)]
    · rw [hnil]
      rfl

end Cursor

namespace Grammar

/-- The same tokens, and the same calls with the same results. A search is never called from within:
    it looks back at the token before. -/
def Pairing.same : Pairing where
  token := Eq
  call r given given' := r ≠ .boundary ∧ given = given'
  result _ := Eq
  kind ht := congrArg Token.kind ht

/-- Complaints from before change nothing in what the rule does. -/
def Activation.Agrees (new : List Diagnostic) (A : Activation) : Prop :=
  ∀ ⦃c' : Cursor⦄, A.cursor.Beside new c' →
    A.result.1 = (A.moved c').result.1 ∧ A.result.2.Beside new (A.moved c').result.2

theorem Pairing.kept_beside (new : List Diagnostic) : Pairing.same.Kept (Cursor.Beside new) where
  current h := h.current
  next h := h.next
  advance h := h.advance
  report e h ht := ht ▸ h.report _ e

/-- Beside each other, parallel scripts stay so, if what they call does. -/
theorem Script.Parallel.beside {α : Type} {R : α → α → Prop} {room : Nat} {new : List Diagnostic}
    {s s' : Script α} (hs : Parallel .same R s s') {c c' : Cursor} (hc : c.Beside new c')
    (hcalls : ∀ A : Activation, s.Enters room A c → A.rule ≠ .boundary → A.Agrees new) :
    Option.Rel R (s.run room c).1 (s'.run room c').1 ∧
      (s.run room c).2.Beside new (s'.run room c').2 := by
  refine hs.run (Pairing.kept_beside new) hc fun {r given given' c₁ c₁'} henters hcall hc₁ => ?_
  obtain ⟨hr, rfl⟩ := hcall
  obtain ⟨hresult, hbehind⟩ := hcalls ⟨room, r, given, c₁⟩ henters hr hc₁
  have hsame : (r.run room given c₁).1 = (r.run room given c₁').1 := hresult
  refine ⟨?_, hbehind⟩
  rw [← hsame]
  cases (r.run room given c₁).1 with
  | none => exact .none
  | some a => exact .some rfl

end Grammar

end FencedCode
