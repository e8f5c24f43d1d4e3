import FencedCode.Proofs.Syntax.Written

/-!
# Where a cursor stands

A cursor is seen as the list of the tokens from the current one on. A cursor is closed if this list
ends with an end of text, as it does from the start; on a closed cursor every token but the last
can be passed. The recoveries walk along the tokens one by one.
-/

namespace FencedCode.Cursor

/-- The tokens from the current one on. -/
def tokens (c : Cursor) : List Token :=
  c.current :: c.rest

theorem tokens_ne_nil (c : Cursor) : c.tokens ≠ [] :=
  List.cons_ne_nil _ _

/-- The last token is an end of text. -/
def Closed (c : Cursor) : Prop :=
  ∃ t, c.tokens.getLast? = some t ∧ t.kind = .eof

/-- Standing further on, a closed cursor is closed. -/
theorem Closed.of_suffix {c c' : Cursor} (hc : c.Closed) (hs : c'.tokens <:+ c.tokens) :
    c'.Closed := by
  obtain ⟨ts, hts⟩ := hs
  obtain ⟨t, ht, hk⟩ := hc
  refine ⟨t, ?_, hk⟩
  have hlast : c'.tokens.getLast? = some (c'.tokens.getLast c'.tokens_ne_nil) :=
    List.getLast?_eq_some_getLast c'.tokens_ne_nil
  rw [← hts, List.getLast?_append, hlast] at ht
  rw [hlast]
  exact ht

/-! ## 1. Moving on -/

theorem isAt_iff {c : Cursor} {k : Kind} : c.isAt k = true ↔ c.current.kind = k :=
  decide_eq_true_iff

theorem advance_of_cons {c : Cursor} {t : Token} {rest : List Token} (hrest : c.rest = t :: rest)
    (hk : c.current.kind ≠ .eof) :
    c.advance = { c with previous := c.current, current := t, rest := rest } := by
  unfold Cursor.advance
  rw [if_neg fun hat => hk (isAt_iff.mp hat), hrest]

/-- At the last token there is nowhere to move on to. -/
theorem advance_of_nil {c : Cursor} (hrest : c.rest = []) : c.advance = c := by
  unfold Cursor.advance
  rw [hrest]
  split <;> rfl

@[simp]
theorem advance_reported (c : Cursor) : c.advance.reported = c.reported := by
  unfold advance
  split
  · rfl
  · split <;> rfl

theorem advance_tokens_suffix (c : Cursor) : c.advance.tokens <:+ c.tokens := by
  unfold advance
  split
  · exact List.suffix_rfl
  · split
    · exact List.suffix_rfl
    · rename_i t rest hrest
      refine ⟨[c.current], ?_⟩
      show c.current :: t :: rest = c.tokens
      rw [← hrest]
      rfl

/-- Something stands behind every token but the end of the text. -/
theorem Closed.rest_ne_nil {c : Cursor} (hc : c.Closed) (hk : c.current.kind ≠ .eof) :
    c.rest ≠ [] := by
  intro hrest
  obtain ⟨t, ht, hend⟩ := hc
  simp only [tokens, hrest, List.getLast?_singleton, Option.some.injEq] at ht
  rw [ht] at hk
  exact hk hend

/-- **Moving on passes the current token.** -/
theorem Closed.advance_tokens {c : Cursor} (hc : c.Closed) (hk : c.current.kind ≠ .eof) :
    c.advance.tokens = c.rest := by
  obtain ⟨t, rest, hrest⟩ := List.exists_cons_of_ne_nil (hc.rest_ne_nil hk)
  rw [advance_of_cons hrest hk, hrest]
  rfl

theorem Closed.advance {c : Cursor} (hc : c.Closed) : c.advance.Closed :=
  hc.of_suffix c.advance_tokens_suffix

/-- The next token is the current one once the cursor has moved. -/
theorem Closed.current_advance {c : Cursor} (hc : c.Closed) (hk : c.current.kind ≠ .eof) :
    c.advance.current = c.next := by
  obtain ⟨t, rest, hrest⟩ := List.exists_cons_of_ne_nil (hc.rest_ne_nil hk)
  unfold next
  rw [advance_of_cons hrest hk, hrest]
  rfl

/-! ## 2. Recovery -/

/-- A search that stops where it starts. -/
theorem toBoundary_of_stop {previous current : Token} {rest : List Token}
    (hstop : current.kind = .eof ∨ previous.kind = .semicolon ∨ isBoundary current.kind = true) :
    toBoundary previous current rest = (previous, current, rest) := by
  cases rest with
  | nil => rfl
  | cons t rest => rw [toBoundary, if_pos hstop]

theorem toBoundary_suffix (previous current : Token) (rest : List Token) :
    (toBoundary previous current rest).2.1 :: (toBoundary previous current rest).2.2 <:+
      current :: rest := by
  induction rest generalizing previous current with
  | nil => exact List.suffix_rfl
  | cons t rest ih =>
    unfold toBoundary
    split
    · exact List.suffix_rfl
    · exact (ih current t).trans (List.suffix_cons _ _)

theorem toFunctionEnd_suffix (previous current : Token) (rest : List Token) :
    (toFunctionEnd previous current rest).2.1 :: (toFunctionEnd previous current rest).2.2 <:+
      current :: rest := by
  induction rest generalizing previous current with
  | nil => exact List.suffix_rfl
  | cons t rest ih =>
    unfold toFunctionEnd
    split
    · exact List.suffix_rfl
    · split
      · cases rest with
        | nil => exact List.suffix_cons _ _
        | cons u rest => exact (List.suffix_cons _ _).trans (List.suffix_cons _ _)
      · exact (ih current t).trans (List.suffix_cons _ _)

/-- A recovery moves on and takes no complaint back. -/
def Recovers (recover : Cursor → Cursor) : Prop :=
  ∀ c, (recover c).reported = c.reported ∧ (recover c).tokens <:+ c.tokens

theorem recovers_synchronize : Recovers synchronize := by
  intro c
  unfold synchronize
  split
  · exact ⟨rfl, toBoundary_suffix _ _ _⟩
  · exact ⟨c.advance_reported, (toBoundary_suffix _ _ _).trans c.advance_tokens_suffix⟩

theorem recovers_skipFunction : Recovers skipFunction :=
  fun _ => ⟨rfl, toFunctionEnd_suffix _ _ _⟩

theorem recovers_id : Recovers id :=
  fun _ => ⟨rfl, List.suffix_rfl⟩

/-! ## 3. Searches -/

/-- A way to walk along tokens, given the token before, the current one and those behind. -/
abbrev Walk : Type :=
  Token → Token → List Token → Token × Token × List Token

/-- The cursor that has walked. -/
def walked (walk : Walk) (c : Cursor) : Cursor :=
  { c with
    previous := (walk c.previous c.current c.rest).1
    current := (walk c.previous c.current c.rest).2.1
    rest := (walk c.previous c.current c.rest).2.2 }

section Searches

variable {c : Cursor}

theorem walked_toBoundary_of_stop (hstop : c.current.kind = .eof ∨
    c.previous.kind = .semicolon ∨ isBoundary c.current.kind = true) :
    c.walked toBoundary = c := by
  unfold walked
  rw [toBoundary_of_stop hstop]

/-- The search goes on behind a token that does not stop it. -/
theorem walked_toBoundary_of_go (hgo : ¬ (c.current.kind = .eof ∨
    c.previous.kind = .semicolon ∨ isBoundary c.current.kind = true)) :
    c.walked toBoundary = c.advance.walked toBoundary := by
  cases hrest : c.rest with
  | nil => rw [advance_of_nil hrest]
  | cons t rest =>
    rw [advance_of_cons hrest fun heof => hgo (.inl heof)]
    unfold walked
    rw [hrest, toBoundary, if_neg hgo]

theorem recovers_toBoundary : Recovers fun c => c.walked toBoundary :=
  fun _ => ⟨rfl, toBoundary_suffix _ _ _⟩

theorem next_of_nil (hrest : c.rest = []) : c.next = c.current := by
  unfold next
  rw [hrest]
  rfl

theorem next_of_cons {t : Token} {rest : List Token} (hrest : c.rest = t :: rest) :
    c.next = t := by
  unfold next
  rw [hrest]
  rfl

theorem next_mem (c : Cursor) : c.next ∈ c.tokens := by
  cases hrest : c.rest with
  | nil =>
    rw [next_of_nil hrest]
    exact List.mem_cons_self
  | cons t rest =>
    rw [next_of_cons hrest]
    exact List.mem_cons_of_mem _ (hrest ▸ List.mem_cons_self)

theorem walked_toFunctionEnd_of_stop (hstop : c.current.kind = .eof ∨
    c.current.kind = .kwBegin ∧ c.next.kind = .kwCode) : c.walked toFunctionEnd = c := by
  unfold walked
  cases hrest : c.rest with
  | nil => simp only [toFunctionEnd, ← hrest]
  | cons t rest =>
    rw [next_of_cons hrest] at hstop
    simp only [toFunctionEnd, if_pos hstop, ← hrest]

/-- The search ends behind an `END FN`. -/
theorem walked_toFunctionEnd_of_end (hend : c.current.kind = .kwEnd ∧ c.next.kind = .kwFn) :
    c.walked toFunctionEnd = c.advance.advance := by
  obtain ⟨hend, hfn⟩ := hend
  cases hrest : c.rest with
  | nil =>
    have hnext : c.next = c.current := by
      unfold next
      rw [hrest]
      rfl
    rw [hnext, hend] at hfn
    cases hfn
  | cons t rest =>
    rw [next_of_cons hrest] at hfn
    have hgo : ¬ (c.current.kind = .eof ∨ c.current.kind = .kwBegin ∧ t.kind = .kwCode) := by
      simp [hend]
    rw [advance_of_cons hrest (by rw [hend]; decide)]
    unfold walked
    rw [hrest]
    simp only [toFunctionEnd, if_neg hgo, if_pos (And.intro hend hfn)]
    have hopen : t.kind ≠ .eof := by rw [hfn]; decide
    symm
    cases rest with
    | nil => exact advance_of_nil rfl
    | cons u rest => exact advance_of_cons rfl hopen

/-- The search goes on behind a token at which it neither stops nor ends. -/
theorem walked_toFunctionEnd_of_go
    (hgo : ¬ (c.current.kind = .eof ∨ c.current.kind = .kwBegin ∧ c.next.kind = .kwCode))
    (hend : ¬ (c.current.kind = .kwEnd ∧ c.next.kind = .kwFn)) :
    c.walked toFunctionEnd = c.advance.walked toFunctionEnd := by
  cases hrest : c.rest with
  | nil => rw [advance_of_nil hrest]
  | cons t rest =>
    rw [next_of_cons hrest] at hgo hend
    rw [advance_of_cons hrest fun heof => hgo (.inl heof)]
    unfold walked
    rw [hrest]
    simp only [toFunctionEnd, if_neg hgo, if_neg hend]

end Searches

/-! ## 4. The start -/

/-- The tokens with an end of text, which is added if they have none. -/
def withEnd (ts : List Token) : List Token :=
  if ts.getLast?.any (fun t => t.kind = .eof) then ts
  else ts ++ [.endAt ((ts.getLast?.map fun t => t.pos).getD .none)]

theorem withEnd_ne_nil (ts : List Token) : withEnd ts ≠ [] := by
  unfold withEnd
  split
  · rename_i hend
    intro heq
    subst heq
    cases hend
  · simp

theorem withEnd_concat {last : Token} (hlast : last.kind = .eof) (ts : List Token) :
    withEnd (ts ++ [last]) = ts ++ [last] := by
  unfold withEnd
  rw [List.getLast?_concat, Option.any_some, decide_eq_true hlast, if_pos rfl]

/-- Only the last token is an end of text, if this is so without the one that is added. -/
theorem ne_eof_of_mem_dropLast_withEnd {ts : List Token} (hts : ∀ t ∈ ts.dropLast, t.kind ≠ .eof) :
    ∀ t ∈ (withEnd ts).dropLast, t.kind ≠ .eof := by
  unfold withEnd
  split
  · exact hts
  · rename_i hend
    rw [List.dropLast_concat]
    intro t ht
    have hne : ts ≠ [] := List.ne_nil_of_mem ht
    rw [List.getLast?_eq_some_getLast hne, Option.any_some, decide_eq_true_eq] at hend
    rw [← List.dropLast_concat_getLast hne, List.mem_append, List.mem_singleton] at ht
    rcases ht with ht | rfl
    · exact hts t ht
    · exact hend

theorem ofTokens_tokens (ts : List Token) : (ofTokens ts).tokens = withEnd ts := by
  have hne := withEnd_ne_nil ts
  unfold withEnd at hne
  unfold ofTokens withEnd
  dsimp only
  split
  · rename_i hnil
    exact absurd hnil hne
  · rename_i t rest hcons
    exact hcons.symm

@[simp]
theorem ofTokens_previous (ts : List Token) : (ofTokens ts).previous = (ofTokens ts).current := by
  unfold ofTokens
  dsimp only
  split <;> rfl

@[simp]
theorem ofTokens_reported (ts : List Token) : (ofTokens ts).reported = [] := by
  unfold ofTokens
  dsimp only
  split <;> rfl

theorem ofTokens_closed (ts : List Token) : (ofTokens ts).Closed := by
  unfold Closed
  rw [ofTokens_tokens]
  unfold withEnd
  split
  · rename_i hend
    cases hlast : ts.getLast? with
    | none =>
      rw [hlast] at hend
      cases hend
    | some t =>
      rw [hlast] at hend
      exact ⟨t, rfl, by simpa using hend⟩
  · exact ⟨_, List.getLast?_concat, rfl⟩

end FencedCode.Cursor
