import FencedCode.Proofs.Recovery.Passing
import FencedCode.Proofs.Recovery.Splice
import FencedCode.Proofs.Syntax.Origin
import Mathlib.Logic.Function.Iterate

/-!
# A statement without its operand

When the operand of a `DISPLAY` is left out, what stands behind it is read as another operand, or it
starts no expression and is complained about. Then the parser skips one token and searches for the
next statement. Statements other than conditionals, loops and blocks have no word in them at which
the search stops, so that it comes to the next statement, to a semicolon or to the `END` behind the
statements, and the parser is in step again. The skipped token must not be the first word of a
conditional, a loop or a block, since the search then stops inside it.

* `Cursor.LeadsTo` -- where statements end that are read from a place on, and
  `Cursor.LeadsTo.cases`, how they go on;
* `Cursor.LeadsTo.resumes` -- **the search comes to a place from which statements go on as they
  would have**, by induction on the tokens ahead;
* `Cursor.LeadsTo.synchronize` -- so does the recovery;
* `statements_spliced` -- statements with a `DISPLAY` whose operand is left out;
* `Activation.Reaches.not_atEnd` -- that no rule of an accepted program comes to the end of the
  text;
* `Program.missing_operand` -- **one malformed statement yields at most one diagnostic.**
-/

namespace FencedCode

open Parse Grammar

/-! ## 1. One statement after another -/

section Steps

variable {room : Nat} {c c₁ : Cursor}

/-- Behind a semicolon, if the cursor stands at one. -/
def Cursor.pastSemicolon (c : Cursor) : Cursor :=
  (accept .semicolon c).2

theorem Cursor.pastSemicolon_of_kind (hk : c.current.kind = .semicolon) :
    c.pastSemicolon = c.advance :=
  congrArg Prod.snd (accept_of_kind hk)

theorem Cursor.pastSemicolon_of_ne (hk : c.current.kind ≠ .semicolon) : c.pastSemicolon = c :=
  congrArg Prod.snd (accept_of_ne hk)

@[simp]
theorem Cursor.pastSemicolon_reported (c : Cursor) : c.pastSemicolon.reported = c.reported := by
  by_cases hat : c.current.kind = .semicolon
  · rw [pastSemicolon_of_kind hat, advance_reported]
  · rw [pastSemicolon_of_ne hat]

/-- What is done at an end, at a semicolon and at any other token. -/
theorem statements_run (room : Nat) (c : Cursor) : statements (room + 1) c =
    if c.current.kind = .eof ∨ c.current.kind = .kwEnd then (some [], c)
    else if c.current.kind = .semicolon then statements room c.advance
    else (orRecover (statement room) Cursor.synchronize >>= fun
      | none => statements room
      | some s => accept .semicolon >>= fun _ => statements room >>= fun more =>
        pure (s :: more) : Parse (List Stmt)) c := by
  simp only [statements]
  show (if c.current.kind = .eof ∨ c.current.kind = .kwEnd then _ else
    if c.current.kind = .semicolon then _ else _ : Parse (List Stmt)) c = _
  split
  · rfl
  split
  · rfl
  · rfl

theorem statements_of_end (hk : c.current.kind = .eof ∨ c.current.kind = .kwEnd) :
    statements (room + 1) c = (some [], c) := by
  rw [statements_run, if_pos hk]

theorem statements_of_semicolon (hk : c.current.kind = .semicolon) :
    statements (room + 1) c = statements room c.advance := by
  rw [statements_run, if_neg (by rw [hk]; decide), if_pos hk]

/-- A statement that is read, and the others behind it. -/
theorem statements_of_read {s : Stmt} (hend : ¬ (c.current.kind = .eof ∨ c.current.kind = .kwEnd))
    (hk : c.current.kind ≠ .semicolon) (hrun : statement room c = (some s, c₁)) :
    statements (room + 1) c = ((statements room c₁.pastSemicolon).1.map (s :: ·),
      (statements room c₁.pastSemicolon).2) := by
  have hread : orRecover (statement room) Cursor.synchronize c = (some (some s), c₁) := by
    rw [orRecover_some (congrArg Prod.fst hrun), hrun]
  have haccept : ∃ b, accept .semicolon c₁ = (some b, c₁.pastSemicolon) := by
    by_cases hat : c₁.current.kind = .semicolon
    · exact ⟨true, by rw [Cursor.pastSemicolon_of_kind hat, accept_of_kind hat]⟩
    · exact ⟨false, by rw [Cursor.pastSemicolon_of_ne hat, accept_of_ne hat]⟩
  obtain ⟨b, hb⟩ := haccept
  rw [statements_run, if_neg hend, if_neg hk, bind_of_some hread]
  show (accept .semicolon >>= fun _ => statements room >>= fun more => pure (s :: more)) c₁ = _
  rw [bind_of_some hb]
  exact bind_pure_run _ _ _

/-- A statement that fails is skipped. -/
theorem statements_of_fails (hend : ¬ (c.current.kind = .eof ∨ c.current.kind = .kwEnd))
    (hk : c.current.kind ≠ .semicolon) (hrun : statement room c = (none, c₁)) :
    statements (room + 1) c = statements room c₁.synchronize := by
  have hfails : orRecover (statement room) Cursor.synchronize c = (some none, c₁.synchronize) := by
    rw [orRecover_none (congrArg Prod.fst hrun), hrun]
  rw [statements_run, if_neg hend, if_neg hk, bind_of_some hfails]

end Steps

/-! ## 2. Statements from a place on -/

/-- Is the kind a keyword behind which a statement has no other words that start or end
    something? -/
def isSimple (k : Kind) : Bool :=
  k = .kwDisplay ∨ k = .kwScan ∨ k = .kwReturn

/-- A statement starts with a keyword or with an inner token. -/
theorem boundary_of_statement {room : Nat} {c : Cursor} (hread : (statement (room + 1) c).1 ≠ none)
    (hnested : c.current.kind ≠ .kwIf ∧ c.current.kind ≠ .kwWhile ∧ c.current.kind ≠ .kwBegin)
    (hend : c.current.kind ≠ .kwEnd) (hsimple : isSimple c.current.kind = false) :
    Cursor.isBoundary c.current.kind = false := by
  rw [statement_eq] at hread
  change (statementOf room c.current.kind c).1 ≠ none at hread
  cases hk : c.current.kind with
  | kwIf => exact absurd hk hnested.1
  | kwWhile => exact absurd hk hnested.2.1
  | kwBegin => exact absurd hk hnested.2.2
  | kwEnd => exact absurd hk hend
  | kwFn => rw [hk] at hread; exact absurd rfl hread
  | kwImmut => rw [hk] at hread; exact absurd rfl hread
  | type t => rw [hk] at hread; exact absurd rfl hread
  | kwDisplay => rw [hk] at hsimple; cases hsimple
  | kwScan => rw [hk] at hsimple; cases hsimple
  | kwReturn => rw [hk] at hsimple; cases hsimple
  | _ => rfl

/-- The kinds that start no expression, but for the keywords of statements with statements in
    them. -/
def lacksOperand (k : Kind) : Bool :=
  k = .eof ∨ k = .kwEnd ∨ k = .semicolon ∨ isSimple k

theorem starts_of_lacksOperand {k : Kind} (hk : lacksOperand k = true) :
    isLiteral k = false ∧ k ≠ .identifier ∧ k ≠ .leftParen ∧ isSign k = false := by
  cases k <;> first | (cases hk; done) | exact ⟨rfl, nofun, nofun, rfl⟩

namespace Cursor

/-- From the cursor on statements are read without a complaint, up to the tokens. -/
def LeadsTo (c : Cursor) (ts : List Token) : Prop :=
  ∀ room, 16 * c.rest.length + 13 ≤ room →
    ∃ ss d, statements room c = (some ss, d) ∧ d.tokens = ts ∧ d.reported = c.reported

variable {c c' c₁ : Cursor} {ts : List Token} {new : List Diagnostic} {room : Nat}

/-- One reading with enough room tells what happens with any. -/
theorem leadsTo_of_run {ss : List Stmt} {d : Cursor} (hc : c.Closed)
    (hroom : 16 * c.rest.length + 13 ≤ room) (hrun : statements room c = (some ss, d))
    (hclean : d.reported = c.reported) : c.LeadsTo d.tokens := by
  have hsame {room₁ room₂ : Nat} (hroom : 16 * c.rest.length + 13 ≤ room₁) (hle : room₁ ≤ room₂) :
      statements room₂ c = statements room₁ c :=
    Rule.run_room (r := .statements) nofun () hc hroom hle
  intro room' hroom'
  refine ⟨ss, d, ?_, rfl, hclean⟩
  rcases Nat.le_total room room' with hle | hle
  · rw [hsame hroom hle, hrun]
  · rw [← hsame hroom' hle, hrun]

/-- Complaints from before do not matter. -/
theorem LeadsTo.beside (h : c.LeadsTo ts) (hc : c.Closed) (hbeside : c.Beside new c') :
    c'.LeadsTo ts := by
  intro room hroom
  obtain ⟨ss, d, hrun, htokens, hclean⟩ := h room (by rw [hbeside.rest]; exact hroom)
  have hsound : (Activation.mk room .statements () c).Sound := ⟨hc, nofun⟩
  obtain ⟨hresult, hbehind⟩ := hsound.agrees (Nat.lt_succ_self _) nofun hbeside
  have hrun' : (Activation.mk room .statements () c).result = (some ss, d) := hrun
  rw [hrun'] at hresult hbehind
  refine ⟨ss, (statements room c').2, Prod.ext hresult.symm rfl, ?_, ?_⟩
  · rw [← htokens]
    exact hbehind.tokens.symm
  · show (statements room c').2.reported = _
    rw [hbeside.reported, ← hclean]
    exact hbehind.reported

/-- **How statements go on**: they end, or there is a semicolon, or a statement that is read. -/
theorem LeadsTo.cases (h : c.LeadsTo ts) (hc : c.Closed) (hclean : c.reported = []) :
    (c.current.kind = .eof ∨ c.current.kind = .kwEnd) ∧ c.tokens = ts ∨
      c.current.kind = .semicolon ∧ c.advance.LeadsTo ts ∨
      ¬ (c.current.kind = .eof ∨ c.current.kind = .kwEnd) ∧ c.current.kind ≠ .semicolon ∧
        ∀ room, 16 * c.rest.length + 12 ≤ room → ∃ s c₁, statement room c = (some s, c₁) ∧
          c₁.reported = [] ∧ c₁.rest.length < c.rest.length ∧ c₁.pastSemicolon.LeadsTo ts := by
  by_cases hend : c.current.kind = .eof ∨ c.current.kind = .kwEnd
  · refine .inl ⟨hend, ?_⟩
    obtain ⟨ss, d, hrun, htokens, _⟩ := h _ (Nat.le_refl (16 * c.rest.length + 12 + 1))
    rw [statements_of_end hend] at hrun
    obtain ⟨_, rfl⟩ := Prod.mk.inj hrun
    exact htokens
  have heof : c.current.kind ≠ .eof := fun heof => hend (.inl heof)
  have hstep := hc.rest_advance heof
  by_cases hsemi : c.current.kind = .semicolon
  · refine .inr (.inl ⟨hsemi, ?_⟩)
    obtain ⟨ss, d, hrun, rfl, hkept⟩ := h _ (Nat.le_refl (16 * c.rest.length + 12 + 1))
    rw [statements_of_semicolon hsemi] at hrun
    exact leadsTo_of_run hc.advance (by omega) hrun (by rw [hkept, advance_reported])
  refine .inr (.inr ⟨hend, hsemi, fun room hroom => ?_⟩)
  obtain ⟨ss, d, hrun, rfl, hkept⟩ := h (room + 1) (Nat.succ_le_succ hroom)
  rw [hclean] at hkept
  have hsteady : Steady (statement room) := Rule.statement.steady room ()
  have hmore : Steady (statements room) := Rule.statements.steady room ()
  cases hread : statement room c with
  | mk o c₁ =>
    cases o with
    | none =>
      -- what has failed was complained about, and no complaint is taken back
      rw [statements_of_fails hend hsemi hread] at hrun
      have hkeeps := hmore.keeps c₁.synchronize
      rw [hrun, hkept, (recovers_synchronize c₁).1] at hkeeps
      refine absurd (List.suffix_nil.mp hkeeps) ?_
      have hfails := hsteady.fails (congrArg Prod.fst hread)
      rwa [hread] at hfails
    | some s =>
      rw [statements_of_read hend hsemi hread] at hrun
      obtain ⟨hss, hd⟩ := Prod.mk.inj hrun
      obtain ⟨more, hmore', -⟩ := Option.map_eq_some_iff.mp hss
      have hclean₁ : c₁.pastSemicolon.reported = [] := hmore.clean (by rw [hd, hkept])
      have hpasses : c₁.rest.length < c.rest.length := by
        have hpassed := statement_passes room hc (by rw [hread]; nofun)
        rwa [hread] at hpassed
      have hclosed := hsteady.closed hc
      rw [hread] at hclosed
      have hle : c₁.pastSemicolon.rest.length ≤ c₁.rest.length :=
        (steady_accept .semicolon).rest_le c₁
      refine ⟨s, c₁, rfl, c₁.pastSemicolon_reported.symm.trans hclean₁, hpasses, ?_⟩
      exact leadsTo_of_run ((steady_accept .semicolon).closed hclosed) (by omega)
        (Prod.ext hmore' hd) (by rw [hkept, hclean₁])

/-! ## 3. The search for the next statement -/

theorem Closed.advance_previous (hc : c.Closed) (heof : c.current.kind ≠ .eof) :
    c.advance.previous = c.current := by
  obtain ⟨t, rest, hrest⟩ := List.exists_cons_of_ne_nil (hc.rest_ne_nil heof)
  rw [advance_of_cons hrest heof]

theorem isInner_iff {k : Kind} : isInner k = true ↔
    isBoundary k = false ∧ k ≠ .semicolon ∧ k ≠ .kwCode ∧ k ≠ .eof := by
  simp only [isInner, Bool.and_eq_true, Bool.not_eq_true', decide_eq_true_eq, and_assoc]

/-- **The search passes inner tokens.** By induction on them. -/
theorem walked_over : ∀ {used : List Token} {c : Cursor}, c.Closed →
    c.tokens = used ++ c₁.tokens → (∀ t ∈ used, isInner t.kind = true) →
    c.previous.kind ≠ .semicolon → c.reported = c₁.reported →
    ∃ d, c.walked toBoundary = d.walked toBoundary ∧ d.previous.kind ≠ .semicolon ∧
      c₁.Beside [] d
  | [], c, _, htokens, _, hprevious, hreported => by
    obtain ⟨hcurrent, hrest⟩ := List.cons.inj htokens
    exact ⟨c, rfl, hprevious, hcurrent.symm, hrest.symm, by rw [hreported, List.append_nil]⟩
  | t :: used, c, hc, htokens, hinner, hprevious, hreported => by
    obtain ⟨ht, hused⟩ := List.forall_mem_cons.mp hinner
    obtain rfl : c.current = t := (List.cons.inj htokens).1
    obtain ⟨hboundary, hsemi, _, heof⟩ := isInner_iff.mp ht
    have hstep := hc.advance_previous heof
    have hgo : ¬ (c.current.kind = .eof ∨ c.previous.kind = .semicolon ∨
        isBoundary c.current.kind = true) := by
      simp [heof, hprevious, hboundary]
    have htokens' : c.advance.tokens = used ++ c₁.tokens :=
      (hc.advance_tokens heof).trans (List.cons.inj htokens).2
    obtain ⟨d, hwalk, hd⟩ := walked_over hc.advance htokens' hused (by rwa [hstep])
      (by rw [advance_reported, hreported])
    exact ⟨d, (walked_toBoundary_of_go hgo).trans hwalk, hd⟩

/-- What statements from a place on lead to, they lead to from the next place as well at which the
    search stops. -/
def Resumes (c : Cursor) (ts : List Token) : Prop :=
  ∀ d : Cursor, c.Beside [] d → d.previous.kind ≠ .semicolon → (d.walked toBoundary).LeadsTo ts

/-- Behind a statement the search finds the semicolon, or goes on with the next statement. -/
theorem resumes_of_past (hc : c.Closed) (hpast : c.pastSemicolon.LeadsTo ts)
    (hnext : c.current.kind ≠ .semicolon → c.LeadsTo ts → c.Resumes ts) : c.Resumes ts := by
  by_cases hsemi : c.current.kind = .semicolon
  · intro d hbeside hprevious
    rw [pastSemicolon_of_kind hsemi] at hpast
    have hd : d.current.kind = .semicolon := by rw [← hbeside.current, hsemi]
    have heof : d.current.kind ≠ .eof := by rw [hd]; decide
    have hclosed := hbeside.closed hc
    have hstop : d.advance.previous.kind = .semicolon := by rw [hclosed.advance_previous heof, hd]
    have hgo : ¬ (d.current.kind = .eof ∨ d.previous.kind = .semicolon ∨
        isBoundary d.current.kind = true) := by
      simp [hd, hprevious, isBoundary]
    rw [walked_toBoundary_of_go hgo, walked_toBoundary_of_stop (.inr (.inl hstop))]
    exact hpast.beside hc.advance hbeside.advance
  · rw [pastSemicolon_of_ne hsemi] at hpast
    exact hnext hsemi hpast

/-- A statement that starts with an inner token is an expression. -/
theorem statement_of_inner (hk : isBoundary c.current.kind = false) : statement (room + 1) c =
    ((expression room c).1.map Stmt.expression, (expression room c).2) := by
  rw [statement_eq]
  show statementOf room c.current.kind c = _
  cases hkind : c.current.kind with
  | _ => first | exact bind_pure_run _ _ _ | (rw [hkind] at hk; cases hk)

/-- **The search comes to a place from which statements go on as they would have.** By induction on
    the tokens ahead: an expression is passed, and behind it the search is at the next statement. -/
theorem LeadsTo.resumes : ∀ {n : Nat} {c : Cursor}, c.rest.length < n → c.Closed →
    c.reported = [] → c.LeadsTo ts → c.Resumes ts
  | 0, _, hn, _, _, _ => absurd hn (Nat.not_lt_zero _)
  | n + 1, c, hn, hc, hclean, h => by
    by_cases hstop : c.current.kind = .eof ∨ isBoundary c.current.kind = true
    · intro d hbeside _
      rw [walked_toBoundary_of_stop (hstop.imp (by rw [hbeside.current]; exact id)
        fun hb => .inr (by rwa [← hbeside.current]))]
      exact h.beside hc hbeside
    obtain ⟨heof, hboundary⟩ := not_or.mp hstop
    rw [Bool.not_eq_true] at hboundary
    rcases h.cases hc hclean with ⟨hend, _⟩ | ⟨hsemi, hnext⟩ | ⟨_, _, hread⟩
    · rcases hend with hend | hend
      · exact absurd hend heof
      · rw [hend] at hboundary
        cases hboundary
    · refine resumes_of_past hc (by rwa [pastSemicolon_of_kind hsemi]) fun hne _ => ?_
      exact absurd hsemi hne
    · obtain ⟨s, c₁, hrun, hclean₁, hlt, hpast⟩ :=
        hread _ (Nat.le_refl (16 * c.rest.length + 11 + 1))
      rw [statement_of_inner hboundary] at hrun
      obtain ⟨hs, hc₁⟩ := Prod.mk.inj hrun
      obtain ⟨e, he, -⟩ := Option.map_eq_some_iff.mp hs
      obtain ⟨hclosed₁, hcrosses⟩ :=
        (crossesExpr _).expression c (some e) c₁ (Prod.ext he hc₁) hc
      obtain ⟨-, _, _, -, -, used, htokens, hinner⟩ := hcrosses hclean₁
      intro d hbeside hprevious
      obtain ⟨d₁, hwalk, hprevious₁, hbeside₁⟩ := walked_over (hbeside.closed hc)
        (hbeside.tokens.symm.trans htokens) hinner hprevious
        (by rw [hbeside.reported, hclean, hclean₁]; rfl)
      rw [hwalk]
      refine resumes_of_past hclosed₁ hpast (fun _ hnext => ?_) d₁ hbeside₁ hprevious₁
      exact LeadsTo.resumes (by omega) hclosed₁ hclean₁ hnext

theorem simple_crosses (hk : isSimple c.current.kind = true) :
    Accounts (statement (room + 1)) c fun _ _ c' => c.advance.Spans isInner c' := by
  rw [statement_eq]
  refine accounts_peek ?_
  simp only [isSimple, decide_eq_true_eq] at hk
  rcases hk with hk | hk | hk
  · rw [hk]; exact display_crosses hk
  · rw [hk]; exact scan_crosses hk
  · rw [hk]; exact ret_crosses hk

/-- **The recovery at a token that starts no expression.** The token is an end, a semicolon, or the
    keyword of a simple statement; the statements behind it go on as they would have. -/
theorem LeadsTo.synchronize (hpast : c.pastSemicolon.LeadsTo ts) (hc : c.Closed)
    (hclean : c.reported = []) (hk : lacksOperand c.current.kind = true) :
    c.synchronize.LeadsTo ts := by
  by_cases hend : c.current.kind = .kwEnd
  · rw [synchronize_of_end hend]
    rwa [pastSemicolon_of_ne (by rw [hend]; decide)] at hpast
  rw [synchronize_of_ne hend]
  by_cases heof : c.current.kind = .eof
  · rw [AtEnd.advance heof, walked_toBoundary_of_stop (.inl heof)]
    rwa [pastSemicolon_of_ne (by rw [heof]; decide)] at hpast
  have hprevious := hc.advance_previous heof
  by_cases hsemi : c.current.kind = .semicolon
  · rw [walked_toBoundary_of_stop (.inr (.inl (by rw [hprevious, hsemi])))]
    rwa [pastSemicolon_of_kind hsemi] at hpast
  have hsimple : isSimple c.current.kind = true := by
    simpa [lacksOperand, heof, hend, hsemi] using hk
  rw [pastSemicolon_of_ne hsemi] at hpast
  rcases hpast.cases hc hclean with ⟨h, _⟩ | ⟨h, _⟩ | ⟨_, _, hread⟩
  · exact absurd h (not_or.mpr ⟨heof, hend⟩)
  · exact absurd h hsemi
  obtain ⟨s, c₁, hrun, hclean₁, hlt, hpast₁⟩ := hread _ (Nat.le_refl (16 * c.rest.length + 11 + 1))
  obtain ⟨hclosed₁, hcrosses⟩ := simple_crosses hsimple _ _ hrun hc
  obtain ⟨-, _, _, -, -, used, htokens, hinner⟩ := hcrosses hclean₁
  obtain ⟨d, hwalk, hprevious₁, hbeside⟩ := walked_over hc.advance htokens hinner
    (by rwa [hprevious]) (by rw [advance_reported, hclean, hclean₁])
  rw [hwalk]
  refine resumes_of_past hclosed₁ hpast₁ (fun _ hnext => ?_) d hbeside hprevious₁
  exact hnext.resumes (Nat.lt_succ_self _) hclosed₁ hclean₁

theorem Beside.pastSemicolon (h : Beside new c c') :
    Beside new c.pastSemicolon c'.pastSemicolon := by
  by_cases hsemi : c.current.kind = .semicolon
  · rw [pastSemicolon_of_kind hsemi, pastSemicolon_of_kind (by rw [← h.current, hsemi])]
    exact h.advance
  · rw [pastSemicolon_of_ne hsemi, pastSemicolon_of_ne (by rwa [← h.current])]
    exact h

end Cursor

/-! ## 4. Without the operand -/

section Operand

variable {room : Nat} {c c₁ d : Cursor} {s : Stmt}

/-- The step fails where it starts, with the complaint that an expression is missing. -/
def LacksExpression {α : Type} (p : Parse α) (d : Cursor) : Prop :=
  p d = (none, d.report d.current .expression)

theorem LacksExpression.bind {α β : Type} {p : Parse α} {f : α → Parse β}
    (hp : LacksExpression p d) : LacksExpression (p >>= f) d :=
  bind_of_none hp

/-- **A token that starts no expression is complained about.** The levels of operators are passed
    down to the primary expression, which looks at the token. -/
theorem expression_lacks (hliteral : isLiteral d.current.kind = false)
    (hname : d.current.kind ≠ .identifier) (hparen : d.current.kind ≠ .leftParen)
    (hsign : isSign d.current.kind = false) : LacksExpression (expression (room + 10)) d := by
  have hprimary : LacksExpression (primary (room + 1)) d := by
    unfold LacksExpression
    rw [primary_eq]
    show (if isLiteral d.current.kind = true then _ else if d.current.kind = .identifier then _
      else if d.current.kind = .leftParen then _ else fail .expression : Parse Expr) d = _
    rw [if_neg (by rw [hliteral]; decide), if_neg hname, if_neg hparen]
    rfl
  have hunary : LacksExpression (unary (room + 2)) d := by
    unfold LacksExpression
    simp only [unary]
    show (if isSign d.current.kind = true then _ else
      primary (room + 1) >>= fun e => calls (room + 1) e : Parse Expr) d = _
    rw [if_neg (by rw [hsign]; decide)]
    exact hprimary.bind
  have hlevel {n : Nat} {l : Level} (h : LacksExpression (operand n l.tighter) d) :
      LacksExpression (operand (n + 1) (some l)) d :=
    h.bind
  have hnone : LacksExpression (operand (room + 3) none) d := hunary
  have hproduct : LacksExpression (operand (room + 4) (some .product)) d := hlevel hnone
  have hcomparison : LacksExpression (operand (room + 6) (some .comparison)) d :=
    hlevel (l := .comparison) (hlevel (l := .sum) hproduct)
  have hand : LacksExpression (operand (room + 8) (some .and)) d :=
    hlevel (l := .and) (hlevel (l := .equality) hcomparison)
  rw [expression_eq]
  exact (hlevel (l := .or) hand).bind

/-- How a `DISPLAY` is laid out. -/
theorem display_reads (hk : c.current.kind = .kwDisplay) :
    Accounts (display room) c fun _ _ c' => ∃ colon operand, colon.kind = .colon ∧
      c.tokens = c.current :: colon :: (operand ++ c'.tokens) := by
  have heof : c.current.kind ≠ .eof := by rw [hk]; decide
  refine accounts_of_closed fun hc => accounts_take heof ?_
  refine (accounts_token _ (by decide)).bind fun colon c₁ => ?_
  refine Accounts.bind ((crossesExpr room).expression c₁) fun e c₂ => accounts_pure ?_
  rintro _ ⟨operand, hoperand, _⟩ _ ⟨hcolon, htokens⟩
  refine ⟨colon, operand, hcolon, ?_⟩
  rw [hc.advance_tokens heof] at htokens
  show c.current :: c.rest = _
  rw [htokens, hoperand]

/-- The cursor is at a `DISPLAY` that reads its operand where `d` is. -/
structure DisplaysFrom (room : Nat) (d c' : Cursor) : Prop where
  keyword : c'.current.kind = .kwDisplay
  run : display room c' =
    ((expression room d).1.map (Stmt.display c'.current), (expression room d).2)

theorem DisplaysFrom.statement {c' : Cursor} (h : DisplaysFrom room d c') :
    statement (room + 1) c' =
      ((expression room d).1.map (Stmt.display c'.current), (expression room d).2) := by
  rw [statement_eq]
  show statementOf room c'.current.kind c' = _
  rw [h.keyword]
  exact h.run

/-- Without its operand a `DISPLAY` goes on with what stands behind the operand. -/
theorem displaysFrom_of_tokens {c' : Cursor} {colon : Token} (hk : c.current.kind = .kwDisplay)
    (hcolon : colon.kind = .colon) (hc₁ : c₁.Closed) (hclean : c₁.reported = [])
    (htokens : c'.tokens = c.current :: colon :: c₁.tokens) (hreported : c'.reported = []) :
    ∃ d, c₁.Beside [] d ∧ DisplaysFrom room d c' := by
  have hcurrent : c'.current.kind = .kwDisplay := by rw [(List.cons.inj htokens).1, hk]
  have hclosed : c'.Closed := hc₁.of_behind ⟨[c.current, colon], htokens.symm⟩
  have hnext := hclosed.advance_tokens (by rw [hcurrent]; decide)
  rw [(List.cons.inj htokens).2] at hnext
  have hcurrent₁ : c'.advance.current.kind = .colon := by rw [(List.cons.inj hnext).1, hcolon]
  have hexpect := expect_of_kind hcurrent₁ .colonAfterDisplay
  have hbehind : c'.advance.advance.tokens = c₁.tokens := by
    rw [hclosed.advance.advance_tokens (by rw [hcurrent₁]; decide)]
    exact (List.cons.inj hnext).2
  refine ⟨c'.advance.advance, ⟨(List.cons.inj hbehind).1.symm, (List.cons.inj hbehind).2.symm, ?_⟩,
    hcurrent, ?_⟩
  · rw [Cursor.advance_reported, Cursor.advance_reported, hreported, hclean]
    rfl
  · show (expect .colon .colonAfterDisplay >>= fun _ => expression room >>= fun e =>
      pure (Stmt.display c'.current e)) c'.advance = _
    rw [bind_of_some hexpect]
    exact bind_pure_run _ _ _

/-- What stands behind the operand starts no expression: it is complained about, and the statements
    end where they did. -/
theorem lacking_run {c' : Cursor} {ts : List Token} (hdisplays : DisplaysFrom room d c')
    (hroom : 16 * c₁.rest.length + 18 ≤ room) (hpast : c₁.pastSemicolon.LeadsTo ts)
    (hc₁ : c₁.Closed) (hclean : c₁.reported = []) (hbeside : c₁.Beside [] d)
    (hends : lacksOperand c₁.current.kind = true) :
    ∃ ss e, statements (room + 2) c' = (some ss, e) ∧ e.tokens = ts ∧
      e.reported = [.atToken c₁.current .expression] := by
  have hk := hdisplays.keyword
  have hlacks : LacksExpression (expression room) d := by
    obtain ⟨room, rfl⟩ := Nat.exists_eq_add_of_le' (show 10 ≤ room by omega)
    obtain ⟨hliteral, hname, hparen, hsign⟩ := starts_of_lacksOperand (hbeside.current ▸ hends)
    exact expression_lacks hliteral hname hparen hsign
  have hfails : statement (room + 1) c' = (none, d.report d.current .expression) := by
    rw [hdisplays.statement, hlacks]
    rfl
  have hskips := statements_of_fails (by rw [hk]; decide) (by rw [hk]; decide) hfails
  have hreport : c₁.Beside [.atToken c₁.current .expression] (d.report d.current .expression) := by
    refine ⟨hbeside.current, hbeside.rest, ?_⟩
    show .atToken d.current .expression :: d.reported = _
    rw [← hbeside.current, hbeside.reported, hclean]
    rfl
  have hsync := hreport.synchronize
  have hclosed := hc₁.of_suffix (Cursor.recovers_synchronize c₁).2
  have hgoes := (hpast.synchronize hc₁ hclean hends).beside hclosed hsync
  have hle := rest_le_of_suffix (Cursor.recovers_synchronize c₁).2
  obtain ⟨ss, e, hss, htokens, hreported⟩ := hgoes (room + 1) (by rw [← hsync.rest]; omega)
  refine ⟨ss, e, hskips.trans hss, htokens, ?_⟩
  rw [hreported, (Cursor.recovers_synchronize _).1, hreport.reported, hclean]
  rfl

/-- What stands behind the operand is an expression: it is read as another operand, and the
    statements behind it end where they did. -/
theorem replaced_run {c' c₂ : Cursor} {e : Expr} {ts : List Token}
    (hdisplays : DisplaysFrom room d c') (hroom : 16 * c₂.rest.length + 13 ≤ room)
    (hread : expression room c₁ = (some e, c₂)) (hpast : c₂.pastSemicolon.LeadsTo ts)
    (hc₁ : c₁.Closed) (hclean : c₂.reported = []) (hbeside : c₁.Beside [] d) :
    ∃ ss e, statements (room + 2) c' = (some ss, e) ∧ e.tokens = ts ∧ e.reported = [] := by
  have hk := hdisplays.keyword
  have hsound : (Activation.mk room .expression () c₁).Sound := ⟨hc₁, nofun⟩
  obtain ⟨hsame, hbeside₂⟩ := hsound.agrees (Nat.lt_succ_self _) nofun hbeside
  have hresult : (Activation.mk room .expression () c₁).result = (some e, c₂) := hread
  rw [hresult] at hsame hbeside₂
  replace hbeside₂ : c₂.Beside [] (expression room d).2 := hbeside₂
  have hstatement : statement (room + 1) c' =
      (some (.display c'.current e), (expression room d).2) := by
    rw [hdisplays.statement, show (expression room d).1 = some e from hsame.symm]
    rfl
  have hskips := statements_of_read (by rw [hk]; decide) (by rw [hk]; decide) hstatement
  have hclosed₂ : (expression room c₁).2.Closed := (Rule.expression.steady room ()).closed hc₁
  rw [hread] at hclosed₂
  have hclosed := (steady_accept .semicolon).closed hclosed₂
  have hsemi := hbeside₂.pastSemicolon
  have hle : c₂.pastSemicolon.rest.length ≤ c₂.rest.length := (steady_accept .semicolon).rest_le c₂
  obtain ⟨ss, e', hss, htokens, hreported⟩ :=
    hpast.beside hclosed hsemi (room + 1) (by rw [← hsemi.rest]; omega)
  refine ⟨.display c'.current e :: ss, e', ?_, htokens, ?_⟩
  · rw [hskips, hss]
    rfl
  · rw [hreported, hsemi.reported, Cursor.pastSemicolon_reported, hclean]
    rfl

/-- Behind a statement that is read without a complaint the statements go on to where they end. -/
theorem leadsTo_of_statement (hc : c.Closed) (hroom : 16 * c.rest.length + 13 ≤ room + 1)
    (hend : ¬ (c.current.kind = .eof ∨ c.current.kind = .kwEnd))
    (hsemi : c.current.kind ≠ .semicolon) (hrun : statement room c = (some s, c₁))
    (hclean : (statements (room + 1) c).2.reported = []) :
    c₁.Closed ∧ c₁.reported = [] ∧ c₁.rest.length < c.rest.length ∧
      c₁.pastSemicolon.LeadsTo (statements (room + 1) c).2.tokens := by
  have hsteady : Steady (statements (room + 1)) := Rule.statements.steady (room + 1) ()
  have hclean₀ := hsteady.clean hclean
  obtain ⟨ss, hss⟩ := hsteady.succeeds hclean
  have hresult : statements (room + 1) c = (some ss, (statements (room + 1) c).2) :=
    Prod.ext hss rfl
  have hleads := Cursor.leadsTo_of_run hc hroom hresult (hclean.trans hclean₀.symm)
  obtain ⟨h, _⟩ | ⟨h, _⟩ | ⟨_, _, hread⟩ := hleads.cases hc hclean₀
  · exact absurd h hend
  · exact absurd h hsemi
  obtain ⟨_, _, hrun', hclean₁, hlt, hpast⟩ := hread room (Nat.le_of_succ_le_succ hroom)
  obtain ⟨-, rfl⟩ := Prod.mk.inj (hrun.symm.trans hrun')
  have hc₁ : (statement room c).2.Closed := (Rule.statement.steady room ()).closed hc
  rw [hrun] at hc₁
  exact ⟨hc₁, hclean₁, hlt, hpast⟩

/-- Where statements go on with what may be an operand, they go on with an expression. -/
theorem expression_of_leadsTo {ts : List Token} (hpast : c₁.pastSemicolon.LeadsTo ts)
    (hc₁ : c₁.Closed) (hclean : c₁.reported = []) (hends : ¬ lacksOperand c₁.current.kind = true)
    (hnext : c₁.current.kind ≠ .kwIf ∧ c₁.current.kind ≠ .kwWhile ∧ c₁.current.kind ≠ .kwBegin)
    (hroom : 16 * c₁.rest.length + 12 ≤ room + 1) :
    ∃ e c₂, expression room c₁ = (some e, c₂) ∧ c₂.reported = [] ∧
      c₂.rest.length < c₁.rest.length ∧ c₂.pastSemicolon.LeadsTo ts := by
  have hk₁ : c₁.current.kind ≠ .eof ∧ c₁.current.kind ≠ .kwEnd ∧ c₁.current.kind ≠ .semicolon ∧
      isSimple c₁.current.kind = false := by
    simpa [lacksOperand] using hends
  rw [Cursor.pastSemicolon_of_ne hk₁.2.2.1] at hpast
  obtain ⟨h, _⟩ | ⟨h, _⟩ | ⟨_, _, hread⟩ := hpast.cases hc₁ hclean
  · exact absurd h (not_or.mpr ⟨hk₁.1, hk₁.2.1⟩)
  · exact absurd h hk₁.2.2.1
  obtain ⟨s₂, c₂, hrun, hclean₂, hlt, hpast₂⟩ := hread (room + 1) hroom
  have hboundary := boundary_of_statement (by rw [hrun]; nofun) hnext hk₁.2.1 hk₁.2.2.2
  rw [Cursor.statement_of_inner hboundary] at hrun
  obtain ⟨hs₂, hc₂⟩ := Prod.mk.inj hrun
  obtain ⟨e, he, -⟩ := Option.map_eq_some_iff.mp hs₂
  exact ⟨e, c₂, Prod.ext he hc₂, hclean₂, hlt, hpast₂⟩

/-- **A `DISPLAY` whose operand is left out.** What stands behind the operand is read as another
    operand, or there is one complaint about it; the statements end where they did. -/
theorem statements_spliced (hc : c.Closed) (hroom : 16 * c.rest.length + 13 ≤ room + 1)
    (hk : c.current.kind = .kwDisplay) (hrun : statement room c = (some s, c₁))
    (hclean : (statements (room + 1) c).2.reported = [])
    (hnext : c₁.current.kind ≠ .kwIf ∧ c₁.current.kind ≠ .kwWhile ∧ c₁.current.kind ≠ .kwBegin) :
    ∃ colon operand, c.tokens = c.current :: colon :: (operand ++ c₁.tokens) ∧
      ∃ new : List Diagnostic, (new = [] ∨ new = [.atToken c₁.current .expression]) ∧
        ∀ c' : Cursor, c'.tokens = c.current :: colon :: c₁.tokens → c'.reported = [] →
          Activation.Spliced (fun _ _ => True) new ⟨room + 1, .statements, (), c⟩ c' := by
  -- the statements as they are read with the operand
  obtain ⟨hc₁, hclean₁, hlt, hpast⟩ := leadsTo_of_statement hc hroom (by rw [hk]; decide)
    (by rw [hk]; decide) hrun hclean
  obtain ⟨ss, hss⟩ := (Rule.statements.steady (room + 1) ()).succeeds hclean
  obtain ⟨room, rfl⟩ : ∃ r, room = r + 1 := Nat.exists_eq_add_one_of_ne_zero (by omega)
  have hdisplay : display room c = (some s, c₁) := by
    rw [statement_eq] at hrun
    change statementOf room c.current.kind c = _ at hrun
    rwa [hk] at hrun
  obtain ⟨-, hlaid⟩ := display_reads hk _ _ hdisplay hc
  obtain ⟨-, _, -, -, -, colon, operand, hcolon, htokens⟩ := hlaid hclean₁
  refine ⟨colon, operand, htokens, ?_⟩
  -- how the statements are read without it
  have hspliced {new : List Diagnostic} {c' e : Cursor} {ss' : List Stmt}
      (hrun' : statements (room + 2) c' = (some ss', e))
      (htokens' : e.tokens = (statements (room + 2) c).2.tokens) (hreported : e.reported = new) :
      Activation.Spliced (fun _ _ => True) new ⟨room + 2, .statements, (), c⟩ c' := by
    refine ⟨ss, ss', hss, congrArg Prod.fst hrun', .here trivial, ?_⟩
    show (statements (room + 2) c).2.Beside new (statements (room + 2) c').2
    rw [hrun']
    refine ⟨(List.cons.inj htokens').1.symm, (List.cons.inj htokens').2.symm, ?_⟩
    rw [hreported, hclean]
    rfl
  by_cases hends : lacksOperand c₁.current.kind = true
  · refine ⟨_, .inr rfl, fun c' htokens' hreported => ?_⟩
    obtain ⟨d, hbeside, hdisplays⟩ : ∃ d, c₁.Beside [] d ∧ DisplaysFrom room d c' :=
      displaysFrom_of_tokens hk hcolon hc₁ hclean₁ htokens' hreported
    obtain ⟨ss', e, hss', he, hcomplains⟩ :=
      lacking_run hdisplays (by omega) hpast hc₁ hclean₁ hbeside hends
    exact hspliced hss' he hcomplains
  · refine ⟨_, .inl rfl, fun c' htokens' hreported => ?_⟩
    obtain ⟨d, hbeside, hdisplays⟩ : ∃ d, c₁.Beside [] d ∧ DisplaysFrom room d c' :=
      displaysFrom_of_tokens hk hcolon hc₁ hclean₁ htokens' hreported
    have hroom₁ : 16 * c₁.rest.length + 12 ≤ room + 1 := by omega
    obtain ⟨e₂, c₂, hread, hclean₂, hlt₂, hpast₂⟩ :=
      expression_of_leadsTo hpast hc₁ hclean₁ hends hnext hroom₁
    obtain ⟨ss', e, hss', he, hcomplains⟩ :=
      replaced_run hdisplays (by omega) hread hpast₂ hc₁ hclean₂ hbeside
    exact hspliced hss' he hcomplains

end Operand

/-! ## 5. Behind a rule the program goes on -/

namespace Grammar

namespace Script

variable {α β : Type} {room : Nat}

/-- At the end of the text a script stays there. -/
theorem run_atEnd (s : Script α) {c : Cursor} (hc : c.AtEnd) : (s.run room c).2.AtEnd := by
  induction s generalizing c with
  | done a => exact hc
  | failed => exact hc
  | look next ih => exact ih _ hc
  | lookNext next ih => exact ih _ hc
  | lookBack next ih => exact ih _ hc
  | skip next ih => exact ih (by rwa [hc.advance])
  | complain t e next ih => exact ih (c := c.report t e) hc
  | call r given next ih => exact ih _ ((r.steady room given).ending hc).1

theorem atEnd_of_enters {s : Script α} {c : Cursor} {A : Activation} (hA : s.Enters room A c)
    (hend : A.result.2.AtEnd) : (s.run room c).2.AtEnd := by
  induction s generalizing c with
  | done a => cases hA
  | failed => cases hA
  | look next ih => exact ih _ hA
  | lookNext next ih => exact ih _ hA
  | lookBack next ih => exact ih _ hA
  | skip next ih => exact ih hA
  | complain t e next ih => exact ih (c := c.report t e) hA
  | call r given next ih =>
    rcases hA with rfl | hA
    · exact run_atEnd (next _) hend
    · exact ih _ hA

/-- If one of its calls has come to the end of the text, the script complains. -/
def Unfinished (room : Nat) (s : Script α) : Prop :=
  ∀ ⦃c : Cursor⦄ ⦃A : Activation⦄, s.Enters room A c → A.result.2.AtEnd →
    (s.run room c).2.reported ≠ []

/-- At the end of the text the script complains. -/
def Wants (room : Nat) (s : Script α) : Prop :=
  ∀ ⦃c : Cursor⦄, c.AtEnd → (s.run room c).2.reported ≠ []

theorem Quiet.unfinished {s : Script α} (hs : s.Quiet) : s.Unfinished room :=
  fun c A hA => absurd hA (hs room A c)

theorem Unfinished.ite {q : Prop} [Decidable q] {s s' : Script α} (hs : s.Unfinished room)
    (hs' : s'.Unfinished room) : (if q then s else s').Unfinished room := by
  split
  · exact hs
  · exact hs'

theorem Quiet.unfinished_bind {s : Script α} {f : α → Script β} (hs : s.Quiet)
    (hf : ∀ a, (f a).Unfinished room) : (s >>= f).Unfinished room := by
  intro c A hA hend
  rcases (enters_bind s f c).mp hA with hA | ⟨a, ha, hA⟩
  · exact absurd hA (hs room A c)
  · rw [run_bind, Parse.bind_some ha]
    exact hf a hA hend

/-- A call, and behind it steps that need a token. -/
theorem unfinished_rule_bind {r : Rule} {given : r.Given} {f : r.Result → Script β}
    (hwants : ∀ a, (f a).Wants room) (hf : ∀ a, (f a).Unfinished room) :
    (rule r given >>= f).Unfinished room := by
  intro c A hA hend
  rw [run_bind, run_rule]
  cases ha : (r.run room given c).1 with
  | none =>
    rw [Parse.bind_none ha]
    exact (r.steady room given).fails ha
  | some a =>
    rw [Parse.bind_some ha]
    rcases (enters_bind (rule r given) f c).mp hA with hA | ⟨b, hb, hA⟩
    · obtain rfl := enters_rule hA
      exact hwants a hend
    · rw [run_rule] at hb hA
      obtain rfl : a = b := Option.some.inj (ha.symm.trans hb)
      exact hf a hA hend

/-- A fence needs a token. -/
theorem wants_fence {k : Kind} (hk : k ≠ .eof) (e : SyntaxError) (f : Bool → Script α) :
    (fence k e >>= f).Wants room := by
  intro c hend
  have hrun := fence_of_ne (show c.current.kind ≠ k from fun h => hk (h.symm.trans hend)) e
  have hkeeps := (f false).keeps room (c.report c.current e)
  rw [run_bind, run_fence, bind_of_some hrun]
  intro hclean
  rw [hclean] at hkeeps
  exact absurd (List.suffix_nil.mp hkeeps) (List.cons_ne_nil _ _)

theorem unfinished_program : (ofRule .program ()).Unfinished room := by
  have hdone (ss : List Stmt) : (pure ss : Script (List Stmt)).Unfinished room :=
    (quiet_done ss).unfinished
  refine unfinished_rule_bind (fun fns => wants_fence (by decide) _ _) fun fns => ?_
  refine (quiet_fence _ _).unfinished_bind fun b => .ite (hdone _) ?_
  refine (quiet_fence _ _).unfinished_bind fun b => .ite (hdone _) ?_
  refine unfinished_rule_bind (fun main => wants_fence (by decide) _ _) fun main => ?_
  refine (quiet_fence _ _).unfinished_bind fun b => .ite (hdone _) ?_
  refine (quiet_fence _ _).unfinished_bind fun b => .ite (hdone _) (Quiet.unfinished ?_)
  refine quiet_peek.bind fun t => .ite ((quiet_warn _ _).bind fun _ => quiet_done _) (quiet_done _)

end Script

namespace Activation

/-- What has called a rule that has come to the end of the text comes there as well. -/
theorem Reaches.atEnd {A B : Activation} (hreach : A.Reaches B) (hend : B.result.2.AtEnd) :
    A.result.2.AtEnd := by
  induction hreach using Relation.ReflTransGen.head_induction_on with
  | refl => exact hend
  | head hcall _ ih =>
    obtain ⟨inner, hbelow, hB⟩ := hcall
    rw [result_eq hbelow]
    exact Script.atEnd_of_enters hB ih

/-- **No rule of an accepted program comes to the end of the text**, but for the program. -/
theorem Reaches.not_atEnd {ts : List Token} {A : Activation} (hreach : (start ts).Reaches A)
    (hrule : A.rule ≠ .program) (hclean : (start ts).result.2.reported = []) :
    ¬ A.result.2.AtEnd := by
  intro hend
  rcases Relation.ReflTransGen.cases_head hreach with rfl | ⟨B, ⟨inner, hbelow, hB⟩, hreach⟩
  · exact hrule rfl
  · rw [result_eq hbelow] at hclean
    exact Script.unfinished_program hB (Reaches.atEnd hreach hend) hclean

end Activation

end Grammar

/-! ## 6. Programs -/

namespace Program

/-- A `DISPLAY` stands at the place `i` in the list, and its operand from `i + 2` up to `b`: the
    parser, at work on the list, comes to the keyword there and reads the statement. -/
def Displays (ts : List Token) (i b : Nat) (s : Stmt) : Prop :=
  ∃ (room : Nat) (c c₁ : Cursor),
    (Activation.start ts).Reaches ⟨room + 1, .statements, (), c⟩ ∧
      c.tokens = (Cursor.withEnd ts).drop i ∧ c.current.kind = .kwDisplay ∧
      Grammar.statement room c = (some s, c₁) ∧ c₁.tokens = (Cursor.withEnd ts).drop b

/-- **A `DISPLAY` in the tree of a program stands somewhere in its text.** -/
theorem exists_displays {ts : List Token} {keyword : Token} {e : Expr}
    (hin : Stmt.Among (.display keyword e) (ofTokens ts).stmts) :
    ∃ i b, Displays ts i b (.display keyword e) := by
  have hpart : (Stmt.display keyword e).part ≠ .declaration := by
    change Part.statement ≠ .declaration
    decide
  obtain ⟨A, i, hreach, htakes, hplace⟩ := taken hpart hin
  cases htakes with
  | function _ hread => cases part_of_function hread
  | @statement room c hread =>
    have hk := (begins_of_statement hread).2 rfl
    have hbehind : (Grammar.statement room c).2.tokens <:+ (Cursor.withEnd ts) :=
      (Rule.statement.moves room () c).trans (hplace ▸ List.drop_suffix i _)
    exact ⟨i, _, room, c, _, hreach, hplace, hk, Prod.ext hread rfl,
      List.suffix_iff_eq_drop.mp hbehind⟩

/-- Something stands behind a `DISPLAY` in an accepted text, and it is no end of text. -/
theorem two_le_behind {ts : List Token} {room : Nat} {c c₁ : Cursor} {s : Stmt}
    (hreach : (Activation.start ts).Reaches ⟨room + 1, .statements, (), c⟩)
    (hclean : (program (roomFor ts.length) (.ofTokens ts)).2.reported = [])
    (hk : c.current.kind = .kwDisplay) (hrun : statement room c = (some s, c₁)) :
    2 ≤ c₁.tokens.length := by
  have hc : c.Closed := ((Activation.roomy_start ts).reaches hreach).closed
  have hnot : ¬ (statements (room + 1) c).2.AtEnd := hreach.not_atEnd nofun hclean
  have hclosed : (statements (room + 1) c).2.Closed :=
    (Rule.statements.steady (room + 1) ()).closed hc
  have hrest := hclosed.rest_pos hnot
  rw [statements_of_read (by rw [hk]; decide) (by rw [hk]; decide) hrun] at hrest
  have hle : (statements room c₁.pastSemicolon).2.rest.length ≤ c₁.pastSemicolon.rest.length :=
    (Rule.statements.steady room ()).rest_le c₁.pastSemicolon
  have hpast : c₁.pastSemicolon.rest.length ≤ c₁.rest.length :=
    (steady_accept .semicolon).rest_le c₁
  have htokens : c₁.tokens.length = c₁.rest.length + 1 := rfl
  replace hrest : 0 < (statements room c₁.pastSemicolon).2.rest.length := hrest
  omega

/-- Without the operand of a `DISPLAY` that stands at a place, and behind which no `IF`, `WHILE` or
    block starts, the parser has at most one complaint; it is about the token behind the operand. -/
theorem diagnostics_of_displays {ts : List Token} {i b : Nat} {s : Stmt}
    (hok : (ofTokens ts).diagnostics = []) (hdisplay : Displays ts i b s)
    (hbehind : ∀ t, ts[b]? = some t → t.kind ≠ .kwIf ∧ t.kind ≠ .kwWhile ∧ t.kind ≠ .kwBegin) :
    (ofTokens (ts.take (i + 2) ++ ts.drop b)).diagnostics.length ≤ 1 ∧
      ∀ d ∈ (ofTokens (ts.take (i + 2) ++ ts.drop b)).diagnostics,
        ∃ t, ts[b]? = some t ∧ d = .atToken t .expression := by
  obtain ⟨room, c, c₁, hreach, hplace, hk, hrun, hplace₁⟩ := hdisplay
  have hroomy := (Activation.roomy_start ts).reaches hreach
  have hclean₀ := List.reverse_eq_nil_iff.mp hok
  have hclean := hreach.clean hclean₀
  have hc : c.Closed := hroomy.closed
  have hlong := two_le_behind hreach hclean₀ hk hrun
  obtain ⟨es, hes, hend⟩ := Cursor.withEnd_eq_append ts
  have hlength := congrArg List.length hend
  rw [List.length_append] at hlength
  have hlength₁ := congrArg List.length hplace₁
  rw [List.length_drop] at hlength₁
  have hb : ts[b]? = some c₁.current := by
    have hword : (Cursor.withEnd ts)[b]? = some c₁.current := by
      rw [← List.head?_drop, ← hplace₁]
      rfl
    rwa [hend, List.getElem?_append_left (by omega)] at hword
  obtain ⟨colon, operand, htokens, new, hnew, hspliced⟩ :=
    statements_spliced hc hroomy.room hk hrun hclean (hbehind _ hb)
  have hlength₀ := congrArg List.length (hplace.symm.trans htokens)
  simp only [List.length_drop, List.length_cons, List.length_append] at hlength₀
  -- the texts part behind the colon
  let F : Fork := ⟨c.current, colon, operand ++ c₁.tokens, c₁.tokens⟩
  have hF : c.tokens = F.tokens := htokens
  have hts : Cursor.withEnd ts = (Cursor.withEnd ts).take i ++ F.tokens := by
    rw [← hF, hplace, List.take_append_drop]
  have hts' : Cursor.withEnd (ts.take (i + 2) ++ ts.drop b) =
      (Cursor.withEnd ts).take i ++ F.tokens' := by
    rw [Cursor.withEnd_take_append_drop (by omega) (by omega), List.take_add, ← hplace, htokens,
      ← hplace₁, List.append_assoc]
    rfl
  have hle : (ts.take (i + 2) ++ ts.drop b).length ≤ ts.length := by
    rw [List.length_append, List.length_take, List.length_drop]
    omega
  have hresult := (Program.spliced (fun _ _ _ _ => trivial) hok hreach
    (by rintro (h | h) <;> cases h) hF hts hts' hle fun c' hpart => hspliced c' (hpart.tokens_eq hF)
      (hpart.reported.symm.trans ((Rule.statements.steady _ ()).clean hclean))).1
  rw [hresult]
  rcases hnew with rfl | rfl
  · exact ⟨Nat.zero_le _, nofun⟩
  · exact ⟨Nat.le_refl _, fun d hd => ⟨_, hb, List.mem_singleton.mp hd⟩⟩

/-- **One malformed statement yields at most one diagnostic.** Take a `DISPLAY` in the tree of an
    accepted program. It stands somewhere in the text, and wherever it does, leave out its operand,
    unless what stands behind it starts an `IF`, a `WHILE` or a block. The parser then has at most
    one complaint; it is about the token behind the operand. -/
theorem missing_operand {ts : List Token} {keyword : Token} {e : Expr}
    (hok : (ofTokens ts).diagnostics = [])
    (hin : Stmt.Among (.display keyword e) (ofTokens ts).stmts) :
    (∃ i b, Displays ts i b (.display keyword e)) ∧
      ∀ i b, Displays ts i b (.display keyword e) →
        (∀ t, ts[b]? = some t → t.kind ≠ .kwIf ∧ t.kind ≠ .kwWhile ∧ t.kind ≠ .kwBegin) →
        (ofTokens (ts.take (i + 2) ++ ts.drop b)).diagnostics.length ≤ 1 ∧
          ∀ d ∈ (ofTokens (ts.take (i + 2) ++ ts.drop b)).diagnostics,
            ∃ t, ts[b]? = some t ∧ d = .atToken t .expression :=
  ⟨exists_displays hin, fun _ _ => diagnostics_of_displays hok⟩

/-- Two displays and a conditional:
    `BEGIN CODE DISPLAY: x DISPLAY: y IF (z) BEGIN IF END IF END CODE`. -/
def twoDisplays : List Token :=
  let word (k : Kind) : Token := ⟨k, k.label, none, .start⟩
  let name (w : String) : Token := ⟨.identifier, utf8 w, none, .start⟩
  [word .kwBegin, word .kwCode, word .kwDisplay, word .colon, name "x", word .kwDisplay,
    word .colon, name "y", word .kwIf, word .leftParen, name "z", word .rightParen, word .kwBegin,
    word .kwIf, word .kwEnd, word .kwIf, word .kwEnd, word .kwCode]

/-- The first of them. -/
def firstDisplay : Stmt :=
  .display ⟨.kwDisplay, Kind.label .kwDisplay, none, .start⟩
    (.ref ⟨.identifier, utf8 "x", none, .start⟩)

/-- The second of them. -/
def secondDisplay : Stmt :=
  .display ⟨.kwDisplay, Kind.label .kwDisplay, none, .start⟩
    (.ref ⟨.identifier, utf8 "y", none, .start⟩)

theorem among_twoDisplays : Stmt.Among firstDisplay (ofTokens twoDisplays).stmts ∧
    Stmt.Among secondDisplay (ofTokens twoDisplays).stmts := by
  have hstmts : ∃ ss, (ofTokens twoDisplays).stmts = firstDisplay :: secondDisplay :: ss := ⟨_, rfl⟩
  obtain ⟨ss, hss⟩ := hstmts
  rw [hss]
  exact ⟨.head, .tail .head⟩

/-- The parser comes to them through the program and its body. -/
theorem reaches_displays : (Activation.start twoDisplays).Reaches
    ⟨351, .statements, (), Nat.iterate Cursor.advance 2 (.ofTokens twoDisplays)⟩ := by
  have hbody : (Activation.start twoDisplays).Enters
      ⟨352, .body, false, Nat.iterate Cursor.advance 2 (.ofTokens twoDisplays)⟩ :=
    ⟨_, rfl, .inr (.inl rfl)⟩
  exact .tail (.single hbody) ⟨_, rfl, .inr (.inl rfl)⟩

theorem displays_first : Displays twoDisplays 2 5 firstDisplay :=
  ⟨350, _, Nat.iterate Cursor.advance 5 (.ofTokens twoDisplays), reaches_displays, rfl, rfl, rfl,
    rfl⟩

theorem displays_second : Displays twoDisplays 5 8 secondDisplay := by
  have hmore : Activation.Enters
      ⟨351, .statements, (), Nat.iterate Cursor.advance 2 (.ofTokens twoDisplays)⟩
      ⟨350, .statements, (), Nat.iterate Cursor.advance 5 (.ofTokens twoDisplays)⟩ :=
    ⟨_, rfl, .inr (.inl rfl)⟩
  exact ⟨349, _, Nat.iterate Cursor.advance 8 (.ofTokens twoDisplays),
    .tail reaches_displays hmore, rfl, rfl, rfl, rfl⟩

/-- Without its operand the first one yields one diagnostic. -/
theorem first_missing_operand : (ofTokens twoDisplays).diagnostics = [] ∧
    Stmt.Among firstDisplay (ofTokens twoDisplays).stmts ∧
    Displays twoDisplays 2 5 firstDisplay ∧
    (ofTokens (twoDisplays.take 4 ++ twoDisplays.drop 5)).diagnostics.length ≤ 1 := by
  have hok : (ofTokens twoDisplays).diagnostics = [] := rfl
  have hin := among_twoDisplays.1
  refine ⟨hok, hin, displays_first, ?_⟩
  refine ((missing_operand hok hin).2 2 5 displays_first fun t ht => ?_).1
  obtain rfl := Option.some.inj ht
  decide

/-- Behind the second one stands the `IF` of a conditional, which the recovery passes: the rest of
    the conditional is complained about as well. -/
theorem second_missing_operand : (ofTokens twoDisplays).diagnostics = [] ∧
    Stmt.Among secondDisplay (ofTokens twoDisplays).stmts ∧
    Displays twoDisplays 5 8 secondDisplay ∧
    1 < (ofTokens (twoDisplays.take 7 ++ twoDisplays.drop 8)).diagnostics.length :=
  ⟨rfl, among_twoDisplays.2, displays_second, Nat.lt_of_lt_of_eq (show 1 < 3 by decide) rfl⟩

end Program

end FencedCode
