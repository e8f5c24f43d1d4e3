import FencedCode.Proofs.Syntax.Soundness.Expressions

/-!
# Programs tell their tokens

The rules of declarations and statements account for the tokens that they pass, once the lists of
declared variables are split. When a program is read without a complaint, its tree is well-formed
and tells the whole text.

* `Tells`, `TellsAll` -- that a statement, or statements of a part, tell some tokens;
* `TellsStmts`, `tellsStmts` -- the rules of statements, by induction on the room;
* `parse_tells` -- **a program that is parsed without a complaint is well-formed, and written out
  it has the tokens of the text**, none skipped, doubled or in another place.
-/

namespace FencedCode

open Parse Grammar

/-! ## 1. Statements that tell tokens -/

/-- The statement is of the part and tells the tokens. -/
def Tells (p : Part) (s : Stmt) (v : List Token) : Prop :=
  s.part = p ∧ s.wellFormed = true ∧ Splits v (spell s.write)

/-- The statements are of the part and tell the tokens. -/
def TellsAll (p : Part) (ss : List Stmt) (v : List Token) : Prop :=
  (∀ s ∈ ss, s.part = p) ∧ Stmt.allWellFormed ss = true ∧ Splits v (spell (Stmt.writeAll ss))

theorem spell_terminator (p : Part) : spell p.terminator = [] := by
  cases p <;> rfl

theorem spell_writeAll_cons (s : Stmt) (ss : List Stmt) :
    spell (Stmt.writeAll (s :: ss)) = spell s.write ++ spell (Stmt.writeAll ss) := by
  rw [Stmt.writeAll, spell_append, spell_append, spell_terminator, List.append_nil]

theorem TellsAll.nil {p : Part} : TellsAll p [] [] :=
  ⟨nofun, rfl, splits_nil⟩

theorem TellsAll.cons {p : Part} {s : Stmt} {ss : List Stmt} {v w : List Token}
    (hs : Tells p s v) (hss : TellsAll p ss w) : TellsAll p (s :: ss) (v ++ w) := by
  obtain ⟨hp, hwf, hv⟩ := hs
  obtain ⟨hps, hwfs, hw⟩ := hss
  refine ⟨?_, ?_, ?_⟩
  · intro t ht
    rcases List.mem_cons.mp ht with rfl | ht
    · exact hp
    · exact hps t ht
  · rw [Stmt.allWellFormed, hwf, hwfs]
    rfl
  · rw [spell_writeAll_cons]
    exact hv.append hw

theorem TellsAll.append {p : Part} {ss ts : List Stmt} {v w : List Token}
    (hss : TellsAll p ss v) (hts : TellsAll p ts w) : TellsAll p (ss ++ ts) (v ++ w) := by
  obtain ⟨hps, hwfs, hv⟩ := hss
  obtain ⟨hpt, hwft, hw⟩ := hts
  refine ⟨?_, ?_, ?_⟩
  · intro s hs
    exact (List.mem_append.mp hs).elim (hps s) (hpt s)
  · rw [Stmt.allWellFormed_append, hwfs, hwft]
    rfl
  · rw [Stmt.writeAll_append, spell_append]
    exact hv.append hw

section Simple

variable {α : Type} {room : Nat} {c : Cursor}

/-- A recovery follows a complaint. -/
theorem accounts_orRecover {p : Parse α} {recover : Cursor → Cursor}
    {Q : α → List Token → Cursor → Prop} (hrecover : Cursor.Recovers recover)
    (hp : Accounts p c Q) :
    Accounts (orRecover p recover) c fun o v c' => ∃ a, o = some a ∧ Q a v c' := by
  intro o c' hrun hc
  unfold orRecover at hrun
  cases hpc : p c with
  | mk o₁ c₁ =>
    obtain ⟨hc₁, hclean⟩ := hp o₁ c₁ hpc hc
    rw [hpc] at hrun
    cases o₁ with
    | none =>
      obtain ⟨rfl, rfl⟩ := Prod.mk.inj hrun
      refine ⟨hc₁.of_suffix (hrecover c₁).2, fun hr => ?_⟩
      rw [(hrecover c₁).1] at hr
      obtain ⟨_, a, _, ho, _⟩ := hclean hr
      cases ho
    | some a =>
      obtain ⟨rfl, rfl⟩ := Prod.mk.inj hrun
      refine ⟨hc₁, fun hr => ?_⟩
      obtain ⟨hr₀, a', used, ho, htokens, hQ⟩ := hclean hr
      cases ho
      exact ⟨hr₀, some a, used, rfl, htokens, a, rfl, hQ⟩

theorem condition_tells (keyword : String) (c : Cursor) :
    Accounts (condition room keyword) c fun e v _ =>
      e.wellFormed = true ∧ v = spell e.writeCondition := by
  refine accounts_word _ (by decide) (by decide) fun _ c₁ => ?_
  refine ((tellsExpr room).expression c₁).bind fun e c₂ => ?_
  refine accounts_word _ (by decide) (by decide) fun _ c₃ => accounts_pure ?_
  intro _ v hv _
  obtain ⟨hwf, _, rfl⟩ := hv
  refine ⟨hwf, ?_⟩
  simp [Expr.writeCondition]

theorem names_tells : ∀ (room : Nat) (c : Cursor), Accounts (names room) c fun ns v _ =>
    ns ≠ [] ∧ (∀ n ∈ ns, n.kind = .identifier) ∧
      v = spell (withCommas (ns.map fun n => [n.unplaced]))
  | 0, _ => accounts_fail _
  | room + 1, c => by
    rw [names_eq]
    have hname : Accounts (expect .identifier .identifierAfterScan) c fun n v _ =>
        n.kind = .identifier ∧ v = n.spelling :=
      (accounts_expect _ (by decide)).imp fun _ _ _ h => ⟨h.1, h.2.1⟩
    refine (accounts_alongCommas hname (names_tells room)).imp ?_
    intro ns v _ hread
    rcases hread with ⟨n, rfl, hn, rfl⟩ | ⟨n, ns', v₁, v₂, rfl, ⟨hn, rfl⟩, ⟨hne, hns, rfl⟩, rfl⟩
    · refine ⟨List.cons_ne_nil _ _, ?_, ?_⟩
      · intro m hm
        rw [List.mem_singleton.mp hm]
        exact hn
      · simp [withCommas]
    · refine ⟨List.cons_ne_nil _ _, ?_, ?_⟩
      · intro m hm
        rcases List.mem_cons.mp hm with rfl | hm
        · exact hn
        · exact hns m hm
      · cases ns' with
        | nil => exact absurd rfl hne
        | cons n₁ ns' =>
          simp only [List.map_cons, withCommas_cons_cons, spell_append, spell_cons, spell_nil,
            List.append_nil, Token.spelling_unplaced]
          rfl

theorem kind_of_type? {k : Kind} {type : BaseType} (h : k.type? = some type) : k = .type type := by
  cases k <;> cases h
  rfl

theorem typeWord_tells (e : SyntaxError) (c : Cursor) : Accounts (typeWord e) c fun t v c' =>
    t.wellFormed = true ∧ v = (Token.word (.type t.type)).spelling ∧
      c.tokens = t.token :: c'.tokens := by
  cases htype : c.current.kind.type? with
  | none => exact accounts_congr (q := fail e) (typeWord_of_none htype e) (accounts_fail e)
  | some type =>
    have hkind := kind_of_type? htype
    refine (accounts_pass (typeWord_of_type htype e) (by rw [hkind]; nofun)).imp ?_
    rintro _ _ _ ⟨rfl, rfl, htokens⟩
    refine ⟨?_, Token.spelling_of_kind hkind (by simp [isLiteral]), htokens⟩
    simp [TypeName.wellFormed, hkind]

theorem resultType_tells (c : Cursor) : Accounts resultType c fun r v c' =>
    r.all TypeName.wellFormed = true ∧ v = spell (r.map fun t => t.token.unplaced).toList ∧
      c.tokens = (r.map TypeName.token).toList ++ c'.tokens := by
  cases htype : c.current.kind.type? with
  | none =>
    exact accounts_congr (q := pure none) (resultType_of_none htype) (accounts_pure ⟨rfl, rfl, rfl⟩)
  | some type =>
    have hkind := kind_of_type? htype
    refine (accounts_pass (resultType_of_type htype) (by rw [hkind]; nofun)).imp ?_
    rintro _ _ _ ⟨rfl, rfl, htokens⟩
    refine ⟨?_, ?_, htokens⟩
    · simp [TypeName.wellFormed, hkind]
    · simp

theorem parameter_tells (c : Cursor) : Accounts parameter c fun p v _ =>
    p.wellFormed = true ∧ v = spell p.write := by
  refine (typeWord_tells _ c).bind fun t c₁ => accounts_name _ fun n c₂ => accounts_pure ?_
  intro hn v hv
  obtain ⟨ht, rfl, _⟩ := hv
  refine ⟨?_, ?_⟩
  · simp [Param.wellFormed, ht, hn]
  · simp only [TypeName.wellFormed, decide_eq_true_eq] at ht
    rw [← Token.spelling_of_kind ht (by simp [isLiteral])]
    simp [Param.write]

theorem parameters_tells : ∀ (room count : Nat) (c : Cursor),
    Accounts (parameters room count) c fun ps v _ => ps ≠ [] ∧
      (∀ p ∈ ps, p.wellFormed = true) ∧ count + ps.length ≤ maxArgs ∧
      v = spell (withCommas (ps.map Param.write))
  | 0, _, _ => accounts_fail _
  | room + 1, count, c => by
    rw [parameters_eq]
    refine (accounts_withinLimit _ _).bind fun _ c₁ => ?_
    refine (accounts_alongCommas (parameter_tells c₁) (parameters_tells room (count + 1))).imp ?_
    intro ps u _ hps v hv
    obtain ⟨hcount, rfl, _⟩ := hv
    rcases hps with ⟨p, rfl, hp, rfl⟩ |
      ⟨p, ps', v₁, v₂, rfl, ⟨hp, rfl⟩, ⟨hne, hwf, hlen, rfl⟩, rfl⟩
    · refine ⟨List.cons_ne_nil _ _, ?_, hcount, rfl⟩
      intro q hq
      rw [List.mem_singleton.mp hq]
      exact hp
    · refine ⟨List.cons_ne_nil _ _, ?_, ?_, ?_⟩
      · intro q hq
        rcases List.mem_cons.mp hq with rfl | hq
        · exact hp
        · exact hwf q hq
      · rw [List.length_cons]
        omega
      · cases ps' with
        | nil => exact absurd rfl hne
        | cons p₁ ps' =>
          simp only [List.map_cons, withCommas_cons_cons, spell_append, spell_cons]
          rfl

theorem parameterList_tells (c : Cursor) : Accounts (parameterList room) c fun ps v _ =>
    (∀ p ∈ ps, p.wellFormed = true) ∧ ps.length ≤ maxArgs ∧
      v = spell (withCommas (ps.map Param.write)) := by
  refine accounts_peek ?_
  split
  · exact accounts_pure ⟨fun _ hp => absurd hp List.not_mem_nil, Nat.zero_le _, rfl⟩
  · refine (parameters_tells room 0 c).imp fun ps v _ h => ?_
    obtain ⟨_, hwf, hlen, hv⟩ := h
    rw [Nat.zero_add] at hlen
    exact ⟨hwf, hlen, hv⟩

end Simple

/-! ## 2. Declarations -/

section Declarations

variable {room : Nat}

theorem initializer_tells (c : Cursor) : Accounts (initializer room) c fun i v _ =>
    i.all Expr.wellFormed = true ∧ v = spell (writeInitializer i) := by
  refine accounts_accept (by decide) (by decide) (fun c₁ => ?_) ?_
  · rw [if_pos rfl]
    refine ((tellsExpr room).expression c₁).bind fun e c₂ => accounts_pure ?_
    intro v hv
    obtain ⟨hwf, _, rfl⟩ := hv
    refine ⟨hwf, ?_⟩
    rw [List.append_nil]
    rfl
  · rw [if_neg Bool.false_ne_true]
    exact accounts_pure ⟨rfl, rfl⟩

theorem kept_writeInitializer {P : Splitter → Prop} {i : Option Expr}
    (hi : i.all Expr.wellFormed = true) : Kept P (spell (writeInitializer i)) := by
  cases i with
  | none => exact .nil
  | some e => exact (kept_spelling rfl).append (kept_write hi)

theorem declarator_tells (type : BaseType) (isMutable : Bool) (c : Cursor) :
    Accounts (declarator type isMutable room) c fun s v _ => s.part = .declaration ∧
      s.wellFormed = true ∧ SplitsList type isMutable v (spell s.write) := by
  refine accounts_name _ fun name c₁ => (initializer_tells c₁).bind fun i c₂ => accounts_pure ?_
  intro v hv hname
  obtain ⟨hi, rfl⟩ := hv
  refine ⟨rfl, ?_, ?_⟩
  · rw [Stmt.wellFormed_declare, hi, hname]
    rfl
  · rw [Stmt.write_declare, spell_append, spell_declarationWords, spell_cons,
      Token.spelling_unplaced, List.append_nil]
    refine Kept.splitsList (.append (kept_spelling ?_) (kept_writeInitializer hi))
    rw [hname]
    rfl

theorem declarators_tells (type : BaseType) (isMutable : Bool) : ∀ (room : Nat) (c : Cursor),
    Accounts (declarators type isMutable room) c fun ss v _ => (∀ s ∈ ss, s.part = .declaration) ∧
      Stmt.allWellFormed ss = true ∧ SplitsList type isMutable v (spell (Stmt.writeAll ss))
  | 0, _ => accounts_fail _
  | room + 1, c => by
    rw [declarators_eq]
    refine (accounts_alongCommas (declarator_tells type isMutable c)
      (declarators_tells type isMutable room)).imp ?_
    intro ss v _ hread
    rcases hread with ⟨s, rfl, hp, hwf, hv⟩ |
      ⟨s, ss', v₁, v₂, rfl, ⟨hp, hwf, hv₁⟩, ⟨hps, hwfs, hv₂⟩, rfl⟩
    · refine ⟨?_, ?_, ?_⟩
      · intro t ht
        rw [List.mem_singleton.mp ht]
        exact hp
      · simp [Stmt.allWellFormed, hwf]
      · rw [spell_writeAll_cons]
        simpa [Stmt.writeAll] using hv
    · refine ⟨?_, ?_, ?_⟩
      · intro t ht
        rcases List.mem_cons.mp ht with rfl | ht
        · exact hp
        · exact hps t ht
      · simp [Stmt.allWellFormed, hwf, hwfs]
      · rw [spell_writeAll_cons]
        exact hv₁.cons hv₂

/-- **A list of declared variables tells its tokens once it is split.** -/
theorem declaration_tells (c : Cursor) : Accounts (declaration room) c fun ss v _ =>
    TellsAll .declaration ss v := by
  have hwords : ∀ (b : Bool) (c : Cursor), Accounts (do
      let word ← typeWord .typeAfterImmut
      let declared ← declarators word.type (!b) room
      let _ ← accept .semicolon
      pure declared) c fun ss v _ =>
        TellsAll .declaration ss ((if b then [Token.word .kwImmut] else []) ++ v) := by
    intro b c
    refine (typeWord_tells _ c).bind fun t c₁ => ?_
    refine (declarators_tells t.type (!b) room c₁).bind fun ss c₂ => ?_
    have hend : ∀ u v, (∀ s ∈ ss, s.part = .declaration) ∧ Stmt.allWellFormed ss = true ∧
        SplitsList t.type (!b) u (spell (Stmt.writeAll ss)) →
        v = (Token.word (.type t.type)).spelling →
        TellsAll .declaration ss
          ((if b then [Token.word .kwImmut] else []) ++ (v ++ (u ++ []))) := by
      intro u v hu hv
      obtain ⟨hp, hwf, hu⟩ := hu
      subst hv
      refine ⟨hp, hwf, ?_⟩
      rw [List.append_nil, ← List.append_assoc]
      have := hu.splits
      cases b with
      | false => exact this
      | true => exact this
    refine accounts_accept (by decide) (by decide) (fun c₃ => accounts_pure ?_) (accounts_pure ?_)
    · exact fun u hu v hv => hend u v hu hv.2.1
    · exact fun u hu v hv => hend u v hu hv.2.1
  rw [declaration_eq]
  refine accounts_accept (by decide) (by decide) (fun c₁ => ?_) ?_
  · exact hwords true c₁
  · exact hwords false c

theorem declarations_tells : ∀ (room : Nat) (c : Cursor),
    Accounts (declarations room) c fun ss v _ => TellsAll .declaration ss v
  | 0, _ => accounts_fail _
  | room + 1, c => by
    simp only [declarations]
    refine accounts_peek ?_
    split
    · refine (accounts_orRecover Cursor.recovers_synchronize (declaration_tells c)).bind
        fun o c₁ => (declarations_tells room c₁).bind fun more c₂ => accounts_pure ?_
      intro v hmore u hu
      obtain ⟨declared, rfl, hdeclared⟩ := hu
      rw [List.append_nil]
      exact hdeclared.append hmore
    · exact accounts_pure .nil

end Declarations

/-! ## 3. Statements -/

/-- The statements are made of the parts, in order, and tell the tokens. -/
def TellsBody (ps : List Part) (ss : List Stmt) (v : List Token) : Prop :=
  inOrder ps ss = true ∧ Stmt.allWellFormed ss = true ∧ Splits v (spell (Stmt.writeAll ss))

/-- Given `room`, the rules of statements account for the tokens that they pass. -/
structure TellsStmts (room : Nat) : Prop where
  statement (c : Cursor) : Accounts (Grammar.statement room) c fun s v _ => Tells .statement s v
  statements (c : Cursor) :
    Accounts (Grammar.statements room) c fun ss v _ => TellsAll .statement ss v
  conditional (c : Cursor) : c.current.kind = .kwIf →
    Accounts (Grammar.conditional room) c fun s v _ => Tells .statement s v
  alternatives (c : Cursor) : Accounts (Grammar.alternatives room) c fun a v _ =>
    a.wellFormed = true ∧ Splits v (spell a.write)
  loop (c : Cursor) : c.current.kind = .kwWhile →
    Accounts (Grammar.loop room) c fun s v _ => Tells .statement s v
  block (c : Cursor) : c.current.kind = .kwBegin →
    Accounts (Grammar.block room) c fun s v _ => Tells .statement s v
  fenced (fence : Kind) (c : Cursor) : fence = .kwIf ∨ fence = .kwWhile →
    Accounts (Grammar.fenced room fence) c fun ss v _ => inOrder [.statement] ss = true ∧
      Stmt.allWellFormed ss = true ∧ Splits v (spell (fencedBy fence (Stmt.writeAll ss)))
  body (c : Cursor) : Accounts (Grammar.body room true) c fun ss v _ => TellsBody bodyParts ss v
  functions (c : Cursor) :
    Accounts (Grammar.functions room) c fun ss v _ => TellsAll .function ss v
  /-- The cursor stands behind the `FN`. -/
  function (c : Cursor) : Accounts (Grammar.function room) c fun s v _ =>
    Tells .function s ((Token.word .kwFn).spelling ++ v)

section Rules

variable {room : Nat} {c : Cursor}

theorem splits_keyword {t : Token} (ht : neutral t.kind = true) : Splits t.spelling t.spelling :=
  (kept_spelling ht).splits

theorem display_tells (hk : c.current.kind = .kwDisplay) :
    Accounts (display room) c fun s v _ => Tells .statement s v := by
  refine accounts_take (by rw [hk]; decide) ?_
  refine accounts_word _ (by decide) (by decide) fun _ c₁ => ?_
  refine ((tellsExpr room).expression c₁).bind fun e c₂ => accounts_pure ?_
  intro v hv _
  obtain ⟨hwf, _, rfl⟩ := hv
  refine ⟨rfl, ?_, ?_⟩
  · simp [Stmt.wellFormed, hk, hwf]
  · simp only [Stmt.write, spell_cons, Token.spelling_unplaced, List.append_nil]
    exact (splits_keyword (by rw [hk]; rfl)).append
      ((splits_keyword rfl).append (kept_write hwf).splits)

theorem scan_tells (hk : c.current.kind = .kwScan) :
    Accounts (scan room) c fun s v _ => Tells .statement s v := by
  refine accounts_take (by rw [hk]; decide) ?_
  refine accounts_word _ (by decide) (by decide) fun _ c₁ => ?_
  refine (names_tells room c₁).bind fun ns c₂ => accounts_pure ?_
  intro v hv _
  obtain ⟨hne, hns, rfl⟩ := hv
  refine ⟨rfl, ?_, ?_⟩
  · cases ns with
    | nil => exact absurd rfl hne
    | cons n ns => simpa [Stmt.wellFormed, hk] using hns
  · simp only [Stmt.write, spell_cons, Token.spelling_unplaced, List.append_nil,
      Token.spelling_of_kind hk (by decide)]
    exact splits_scan hns

theorem ret_tells (hk : c.current.kind = .kwReturn) :
    Accounts (ret room) c fun s v _ => Tells .statement s v := by
  have hkeyword : Splits c.current.spelling c.current.spelling :=
    splits_keyword (by rw [hk]; rfl)
  refine accounts_take (by rw [hk]; decide) (accounts_peek ?_)
  split
  · refine ((tellsExpr room).expression _).bind fun e c₁ => accounts_pure ?_
    intro v hv
    obtain ⟨hwf, _, rfl⟩ := hv
    refine ⟨rfl, ?_, ?_⟩
    · simp [Stmt.wellFormed, hk, hwf]
    · simp only [Stmt.write, spell_cons, Token.spelling_unplaced, List.append_nil]
      exact hkeyword.append (kept_write hwf).splits
  · refine accounts_pure ⟨rfl, ?_, ?_⟩
    · simp [Stmt.wellFormed, hk]
    · simp only [Stmt.write, spell_cons, spell_nil, Token.spelling_unplaced, List.append_nil]
      exact hkeyword

theorem statement_tells (ih : TellsStmts room) (c : Cursor) :
    Accounts (statement (room + 1)) c fun s v _ => Tells .statement s v := by
  simp only [statement]
  refine accounts_peek ?_
  split
  · exact display_tells ‹_›
  · exact scan_tells ‹_›
  · exact ret_tells ‹_›
  · exact ih.conditional c ‹_›
  · exact ih.loop c ‹_›
  · exact ih.block c ‹_›
  · exact accounts_failAt _ _
  · exact accounts_failAt _ _
  · exact accounts_failAt _ _
  · refine ((tellsExpr room).expression c).bind fun e c₁ => accounts_pure ?_
    intro v hv
    obtain ⟨hwf, _, rfl⟩ := hv
    refine ⟨rfl, hwf, ?_⟩
    rw [List.append_nil]
    exact (kept_write hwf).splits

/-- A semicolon is passed without a trace. -/
theorem statements_tells (ih : TellsStmts room) (c : Cursor) :
    Accounts (statements (room + 1)) c fun ss v _ => TellsAll .statement ss v := by
  simp only [statements]
  refine accounts_peek ?_
  split
  · exact accounts_pure .nil
  split
  · rename_i hsemicolon
    refine accounts_skip (by rw [hsemicolon]; decide) ((ih.statements _).imp fun ss v _ h => ?_)
    rw [Token.spelling_of_kind hsemicolon (by decide)]
    exact h
  · refine (accounts_orRecover Cursor.recovers_synchronize (ih.statement c)).bind fun o c₁ => ?_
    cases o with
    | none =>
      refine (ih.statements c₁).imp ?_
      intro ss u _ _ v hv
      obtain ⟨s, hs, _⟩ := hv
      cases hs
    | some s =>
      have hend : ∀ c₂, Accounts (statements room >>= fun more => pure (s :: more)) c₂ fun ss u _ =>
          ∀ v, (∃ a, some s = some a ∧ Tells .statement a v) → TellsAll .statement ss (v ++ u) := by
        intro c₂
        refine (ih.statements c₂).bind fun more c₃ => accounts_pure ?_
        intro u hmore v hv
        obtain ⟨_, ⟨⟩, hs⟩ := hv
        rw [List.append_nil]
        exact TellsAll.cons hs hmore
      exact accounts_accept (by decide) (by decide) hend (hend c₁)

/-- A condition, statements in a fence behind it, and the alternatives. -/
theorem branch_tells (ih : TellsStmts room) (keyword : String) (c : Cursor) {α : Type}
    (g : Expr → List Stmt → Alternatives → α) :
    Accounts (condition room keyword >>= fun e => fenced room .kwIf >>= fun body =>
      alternatives room >>= fun others => pure (g e body others)) c fun a v _ =>
        ∃ e body others, a = g e body others ∧ e.wellFormed = true ∧
          inOrder [.statement] body = true ∧ Stmt.allWellFormed body = true ∧
          others.wellFormed = true ∧ Splits v (spell e.writeCondition ++
            (spell (fencedBy .kwIf (Stmt.writeAll body)) ++ spell others.write)) := by
  refine (condition_tells _ _).bind fun e c₁ => ?_
  refine (ih.fenced .kwIf c₁ (.inl rfl)).bind fun body c₂ => ?_
  refine (ih.alternatives c₂).bind fun others c₃ => accounts_pure ?_
  intro w hw v hv u hu
  obtain ⟨hothers, hw⟩ := hw
  obtain ⟨hp, hbody, hv⟩ := hv
  obtain ⟨he, rfl⟩ := hu
  refine ⟨e, body, others, rfl, he, hp, hbody, hothers, ?_⟩
  rw [List.append_nil]
  exact (kept_writeCondition he).splits.append (hv.append hw)

theorem conditional_tells (ih : TellsStmts room) (c : Cursor) (hk : c.current.kind = .kwIf) :
    Accounts (conditional (room + 1)) c fun s v _ => Tells .statement s v := by
  simp only [conditional]
  refine accounts_take (by rw [hk]; decide) ((branch_tells ih _ _ (Stmt.conditional _)).imp ?_)
  rintro _ v _ ⟨e, body, others, rfl, he, hp, hbody, hothers, hv⟩
  refine ⟨rfl, ?_, ?_⟩
  · simp [Stmt.wellFormed, hk, he, hp, hbody, hothers]
  · simp only [Stmt.write, List.cons_append, List.append_assoc, spell_cons, spell_append,
      Token.spelling_unplaced]
    exact (splits_keyword (by rw [hk]; rfl)).append hv

theorem alternatives_tells (ih : TellsStmts room) (c : Cursor) :
    Accounts (alternatives (room + 1)) c fun a v _ =>
      a.wellFormed = true ∧ Splits v (spell a.write) := by
  simp only [alternatives]
  refine accounts_of_closed fun hc => accounts_peek (accounts_peekNext ?_)
  by_cases helse : c.current.kind = .kwElse
  · have hword : Splits c.current.spelling (Token.word .kwElse).spelling := by
      rw [Token.spelling_of_kind helse (by decide)]
      exact splits_keyword rfl
    rw [if_pos helse]
    refine accounts_skip (by rw [helse]; decide) ?_
    by_cases hif : c.next.kind = .kwIf
    · rw [if_pos hif]
      have hnext : c.advance.current.kind = .kwIf := by
        rw [hc.current_advance (by rw [helse]; decide)]
        exact hif
      refine accounts_skip (by rw [hnext]; decide)
        ((branch_tells ih _ _ Alternatives.elseIf).imp ?_)
      rintro _ v _ ⟨e, body, others, rfl, he, hp, hbody, hothers, hv⟩
      refine ⟨?_, ?_⟩
      · simp [Alternatives.wellFormed_elseIf, he, hp, hbody, hothers]
      · simp only [Alternatives.write_elseIf, List.cons_append, List.append_assoc, spell_cons,
          spell_append, Token.spelling_of_kind hnext (by decide)]
        exact hword.append ((splits_keyword rfl).append hv)
    · rw [if_neg hif]
      refine (ih.fenced .kwIf _ (.inl rfl)).bind fun body c₁ => accounts_pure ?_
      intro v hv
      obtain ⟨hp, hbody, hv⟩ := hv
      refine ⟨?_, ?_⟩
      · simp [Alternatives.wellFormed_otherwise, hp, hbody]
      · rw [Alternatives.write_otherwise, spell_cons, List.append_nil]
        exact hword.append hv
  · rw [if_neg helse]
    exact accounts_pure ⟨rfl, splits_nil⟩

theorem loop_tells (ih : TellsStmts room) (c : Cursor) (hk : c.current.kind = .kwWhile) :
    Accounts (loop (room + 1)) c fun s v _ => Tells .statement s v := by
  simp only [loop]
  refine accounts_take (by rw [hk]; decide) ?_
  refine (condition_tells _ _).bind fun e c₁ => ?_
  refine (ih.fenced .kwWhile c₁ (.inr rfl)).bind fun body c₂ => accounts_pure ?_
  intro v hv u hu
  obtain ⟨hp, hbody, hv⟩ := hv
  obtain ⟨he, rfl⟩ := hu
  refine ⟨rfl, ?_, ?_⟩
  · simp [Stmt.wellFormed, hk, he, hp, hbody]
  · simp only [Stmt.write, List.cons_append, spell_cons, spell_append,
      Token.spelling_unplaced, List.append_nil]
    exact (splits_keyword (by rw [hk]; rfl)).append ((kept_writeCondition he).splits.append hv)

theorem block_tells (ih : TellsStmts room) (c : Cursor) (hk : c.current.kind = .kwBegin) :
    Accounts (block (room + 1)) c fun s v _ => Tells .statement s v := by
  simp only [block]
  refine accounts_take (by rw [hk]; decide) ?_
  refine (ih.body _).bind fun body c₁ => ?_
  refine accounts_word _ (by decide) (by decide) fun _ c₂ => accounts_pure ?_
  intro _ v hv
  obtain ⟨hp, hbody, hv⟩ := hv
  refine ⟨rfl, ?_, ?_⟩
  · simp [Stmt.wellFormed, hk, hp, hbody]
  · simp only [Stmt.write, List.cons_append, spell_cons, spell_append, spell_nil,
      Token.spelling_unplaced, List.append_nil]
    exact (splits_keyword (by rw [hk]; rfl)).append (hv.append (splits_keyword rfl))

theorem fenced_tells (ih : TellsStmts room) (fence : Kind) (c : Cursor)
    (hfence : fence = .kwIf ∨ fence = .kwWhile) :
    Accounts (fenced (room + 1) fence) c fun ss v _ => inOrder [.statement] ss = true ∧
      Stmt.allWellFormed ss = true ∧ Splits v (spell (fencedBy fence (Stmt.writeAll ss))) := by
  have hspec : fence ≠ .eof ∧ ¬(fence = .identifier ∨ isLiteral fence) ∧ neutral fence = true := by
    rcases hfence with rfl | rfl <;> decide
  obtain ⟨heof, hfixed, hneutral⟩ := hspec
  simp only [fenced]
  refine accounts_word _ (by decide) (by decide) fun _ c₁ => ?_
  refine accounts_word _ heof hfixed fun _ c₂ => ?_
  refine (ih.statements c₂).bind fun ss c₃ => ?_
  refine accounts_word _ (by decide) (by decide) fun _ c₄ => ?_
  refine accounts_word _ heof hfixed fun _ c₅ => accounts_pure ?_
  intro _ _ v hv _ _
  obtain ⟨hp, hwf, hv⟩ := hv
  refine ⟨inOrder_of_part hp, hwf, ?_⟩
  simp only [fencedBy, List.cons_append, spell_cons, spell_append, spell_nil]
  exact (splits_keyword rfl).append ((splits_keyword hneutral).append
    (hv.append ((splits_keyword rfl).append ((splits_keyword hneutral).append splits_nil))))

theorem TellsAll.parts_ne {p q : Part} (hpq : p ≠ q) {ss : List Stmt} {v : List Token}
    (hss : TellsAll p ss v) : ∀ s ∈ ss, s.part ≠ q := fun s hs => by
  rw [hss.1 s hs]
  exact hpq

theorem body_tells (ih : TellsStmts room) (c : Cursor) :
    Accounts (body (room + 1) true) c fun ss v _ => TellsBody bodyParts ss v := by
  simp only [body, if_pos]
  refine (declarations_tells room c).bind fun ds c₁ => ?_
  refine (ih.functions c₁).bind fun fs c₂ => ?_
  refine (ih.statements c₂).bind fun ss c₃ => accounts_pure ?_
  intro w hss v hfs u hds
  refine ⟨?_, ?_, ?_⟩
  · rw [List.append_assoc]
    refine inOrder_append hds.1 ?_ (inOrder_append hfs.1 ?_ (inOrder_of_part hss.1))
    · intro s hs
      exact (List.mem_append.mp hs).elim (hfs.parts_ne (by decide) s) (hss.parts_ne (by decide) s)
    · exact hss.parts_ne (by decide)
  · simp [hds.2.1, hfs.2.1, hss.2.1]
  · simp only [Stmt.writeAll_append, spell_append, List.append_assoc, List.append_nil]
    exact hds.2.2.append (hfs.2.2.append hss.2.2)

theorem functions_tells (ih : TellsStmts room) (c : Cursor) :
    Accounts (functions (room + 1)) c fun ss v _ => TellsAll .function ss v := by
  simp only [functions]
  refine accounts_accept (by decide) (by decide) (fun c₁ => ?_) ?_
  · rw [if_pos rfl]
    refine (accounts_orRecover Cursor.recovers_skipFunction (ih.function c₁)).bind fun o c₂ => ?_
    refine (ih.functions c₂).bind fun more c₃ => accounts_pure ?_
    intro v hmore u hu
    obtain ⟨f, rfl, hf⟩ := hu
    rw [List.append_nil, ← List.append_assoc]
    exact TellsAll.cons hf hmore
  · rw [if_neg Bool.false_ne_true]
    exact accounts_pure .nil

theorem splits_result {r : Option TypeName} (hr : r.all TypeName.wellFormed = true) :
    Splits (spell (r.map fun t => t.token.unplaced).toList)
      (spell (r.map fun t => t.token.unplaced).toList) := by
  cases r with
  | none => exact splits_nil
  | some t =>
    simp only [Option.all_some, TypeName.wellFormed, decide_eq_true_eq] at hr
    simp only [Option.map_some, Option.toList_some, spell_cons, spell_nil, List.append_nil,
      Token.spelling_unplaced, Token.spelling_of_kind hr (by simp [isLiteral])]
    exact splits_word (.inr ⟨t.type, rfl⟩)

theorem splits_parens {ts us us' : List Token} (hts : Kept (fun s => 0 < s.depth) ts)
    (hus : Splits us us') :
    Splits ((Token.word .leftParen).spelling ++ (ts ++ ((Token.word .rightParen).spelling ++ us)))
      ((Token.word .leftParen).spelling ++ (ts ++ ((Token.word .rightParen).spelling ++ us'))) := by
  have hparens := (kept_parens (l := Token.word .leftParen) (r := Token.word .rightParen) rfl rfl
    hts).splits.append hus
  simp only [List.append_assoc, List.cons_append, List.nil_append] at hparens
  exact hparens

theorem function_tells (ih : TellsStmts room) (c : Cursor) :
    Accounts (function (room + 1)) c fun s v _ =>
      Tells .function s ((Token.word .kwFn).spelling ++ v) := by
  rw [function_eq]
  refine (resultType_tells c).bind fun r c₁ => ?_
  refine accounts_name _ fun name c₂ => ?_
  refine accounts_word _ (by decide) (by decide) fun _ c₃ => ?_
  refine (parameterList_tells c₃).bind fun ps c₄ => ?_
  refine accounts_word _ (by decide) (by decide) fun _ c₅ => ?_
  refine accounts_word _ (by decide) (by decide) fun _ c₆ => ?_
  refine accounts_word _ (by decide) (by decide) fun _ c₇ => ?_
  refine (ih.body c₇).bind fun body c₈ => ?_
  refine accounts_word _ (by decide) (by decide) fun _ c₉ => ?_
  refine accounts_word _ (by decide) (by decide) fun _ c₁₀ => accounts_pure ?_
  intro _ _ w hw _ _ _ v hv _ hname u hu
  obtain ⟨hp, hbody, hw⟩ := hw
  obtain ⟨hps, hlen, rfl⟩ := hv
  obtain ⟨hr, rfl, _⟩ := hu
  refine ⟨rfl, ?_, ?_⟩
  · simp only [Stmt.wellFormed, hname, hlen, hr, hp, hbody, Bool.and_eq_true, decide_eq_true_eq,
      List.all_eq_true, and_true, true_and]
    exact hps
  · simp only [Stmt.write, fencedBy, List.cons_append, List.append_assoc, spell_cons, spell_append,
      spell_nil, Token.spelling_unplaced]
    refine (splits_keyword rfl).append ((splits_result hr).append (.append ?_ ?_))
    · exact splits_keyword (by rw [hname]; rfl)
    · refine splits_parens (kept_params hps) ((splits_keyword rfl).append
        ((splits_keyword rfl).append (hw.append ((splits_keyword rfl).append ?_))))
      exact (splits_keyword rfl).append splits_nil

/-- **The rules of statements account for the tokens that they pass.** -/
theorem tellsStmts : ∀ room, TellsStmts room
  | 0 => ⟨fun _ => accounts_fail _, fun _ => accounts_fail _, fun _ _ => accounts_fail _,
      fun _ => accounts_fail _, fun _ _ => accounts_fail _, fun _ _ => accounts_fail _,
      fun _ _ _ => accounts_fail _, fun _ => accounts_fail _, fun _ => accounts_fail _,
      fun _ => accounts_fail _⟩
  | room + 1 =>
    have ih := tellsStmts room
    ⟨statement_tells ih, statements_tells ih, conditional_tells ih, alternatives_tells ih,
      loop_tells ih, block_tells ih, fenced_tells ih, body_tells ih, functions_tells ih,
      function_tells ih⟩

end Rules

/-! ## 4. Programs -/

section Program

variable {room : Nat} {c : Cursor}

/-- A missing fence is complained about. -/
theorem accounts_fence {α : Type} {k : Kind} {f : Bool → Parse α}
    {Q : α → List Token → Cursor → Prop} (e : SyntaxError) (hk : k ≠ .eof)
    (hfixed : ¬(k = .identifier ∨ isLiteral k))
    (htrue : ∀ c₁, Accounts (f true) c₁ fun a u c' => Q a ((Token.word k).spelling ++ u) c')
    (hfalse : ∀ c₁, Accounts (f false) c₁ fun _ _ _ => True) :
    Accounts (fence k e >>= f) c Q := by
  have hfence : Accounts (fence k e) c fun b v _ => b = true ∧ v = (Token.word k).spelling := by
    refine (accounts_orRecover Cursor.recovers_id (accounts_expect e hk)).bind
      fun o c₁ => accounts_pure ?_
    intro v hv
    obtain ⟨t, rfl, ht, rfl, _⟩ := hv
    refine ⟨rfl, ?_⟩
    rw [List.append_nil, Token.spelling_of_kind ht hfixed]
  refine hfence.bind fun b c₁ => ?_
  cases b with
  | true =>
    refine (htrue c₁).imp ?_
    intro a u c' hQ v hv
    obtain ⟨_, rfl⟩ := hv
    exact hQ
  | false =>
    refine (hfalse c₁).imp ?_
    intro a u c' _ v hv
    obtain ⟨hb, _⟩ := hv
    cases hb

theorem mainBody_tells : ∀ (room : Nat) (c : Cursor), Accounts (body room false) c fun ss v _ =>
    TellsBody [.declaration, .statement] ss v
  | 0, _ => accounts_fail _
  | room + 1, c => by
    simp only [body, Bool.false_eq_true, if_false]
    refine (declarations_tells room c).bind fun ds c₁ => ?_
    refine accounts_congr (q := statements room >>= fun inner => pure (ds ++ [] ++ inner)) rfl ?_
    refine ((tellsStmts room).statements c₁).bind fun ss c₂ => accounts_pure ?_
    intro v hss u hds
    refine ⟨?_, ?_, ?_⟩
    · rw [List.append_nil]
      exact inOrder_append hds.1 (hss.parts_ne (by decide)) (inOrder_of_part hss.1)
    · simp [hds.2.1, hss.2.1]
    · simp only [Stmt.writeAll_append, spell_append, List.append_nil]
      exact hds.2.2.append hss.2.2

/-- The tokens of a program without the end of the text. -/
def ProgramTells (p : List Stmt) (v : List Token) : Prop :=
  wellFormedProgram p = true ∧
    Splits (v ++ Token.ending.spelling) (spell (writeProgram p))

theorem programTells_append {fs main : List Stmt} {u v : List Token}
    (hfs : TellsAll .function fs u) (hmain : TellsBody [.declaration, .statement] main v) :
    ProgramTells (fs ++ main) (u ++ ((Token.word .kwBegin).spelling ++
      ((Token.word .kwCode).spelling ++ (v ++ ((Token.word .kwEnd).spelling ++
        (Token.word .kwCode).spelling))))) := by
  obtain ⟨hp, hwf, hv⟩ := hmain
  have hnot : ∀ s ∈ main, s.part ≠ .function := by
    obtain ⟨ds, ss, rfl, hds, hss⟩ := inOrder_cons hp
    intro s hs
    rcases List.mem_append.mp hs with hs | hs
    · rw [hds s hs]
      decide
    · rw [inOrder_singleton hss s hs]
      decide
  obtain ⟨htake, hdrop⟩ := span_part hfs.1 hnot
  refine ⟨?_, ?_⟩
  · rw [wellFormedProgram, Stmt.allWellFormed_append, hfs.2.1, hwf]
    simp only [Bool.and_true]
    exact inOrder_append hfs.1 hnot hp
  · rw [writeProgram, htake, hdrop]
    simp only [fencedBy, List.cons_append, List.append_assoc, List.nil_append, List.append_nil,
      spell_cons, spell_append, spell_nil]
    exact hfs.2.2.append ((splits_keyword rfl).append ((splits_keyword rfl).append (hv.append
      ((splits_keyword rfl).append ((splits_keyword rfl).append (splits_keyword rfl))))))

/-- **A program that is read without a complaint tells its tokens, and the text ends behind it.** -/
theorem program_tells (c : Cursor) : Accounts (program room) c fun p v c' =>
    ProgramTells p v ∧ c'.current.kind = .eof := by
  simp only [program]
  refine ((tellsStmts room).functions c).bind fun fs c₁ => ?_
  refine accounts_fence _ (by decide) (by decide) (fun c₂ => ?_) fun _ => accounts_pure trivial
  refine accounts_fence _ (by decide) (by decide) (fun c₃ => ?_) fun _ => accounts_pure trivial
  refine (mainBody_tells room c₃).bind fun main c₄ => ?_
  refine accounts_fence _ (by decide) (by decide) (fun c₅ => ?_) fun _ => accounts_pure trivial
  refine accounts_fence _ (by decide) (by decide) (fun c₆ => ?_) fun _ => accounts_pure trivial
  refine accounts_peek ?_
  by_cases heof : c₆.current.kind = .eof
  · rw [if_neg (fun hne => hne heof)]
    refine accounts_pure ?_
    intro v hmain u hfs
    rw [List.append_nil]
    exact ⟨programTells_append hfs hmain, heof⟩
  · rw [if_pos heof]
    exact (accounts_complain _ _).bind fun _ _ => accounts_pure fun _ h => h.elim

end Program

/-- **A program that is parsed without a complaint is well-formed, and written out it has the
    tokens of the text**: by kind, names and literals also by text and value, without semicolons,
    with an end of text, and with a declaration for each variable of a list. -/
theorem parse_tells {ts : List Token} (hend : ∀ t ∈ ts.dropLast, t.kind ≠ .eof)
    (hok : (Program.ofTokens ts).diagnostics = []) :
    wellFormedProgram (Program.ofTokens ts).stmts = true ∧
      splitLists (spell (Cursor.withEnd ts)) =
        spell (writeProgram (Program.ofTokens ts).stmts) := by
  cases hrun : program (Program.roomFor ts.length) (.ofTokens ts) with
  | mk o c =>
    have hparsed : Program.ofTokens ts = ⟨o.getD [], c.reported.reverse⟩ := by
      unfold Program.ofTokens
      rw [hrun]
    rw [hparsed] at hok ⊢
    obtain ⟨_, hclean⟩ := program_tells _ o c hrun (Cursor.ofTokens_closed ts)
    obtain ⟨_, p, used, rfl, htokens, ⟨hwf, hsplits⟩, heof⟩ :=
      hclean (List.reverse_eq_nil_iff.mp hok)
    rw [Cursor.ofTokens_tokens] at htokens
    -- the end that the program stops at is the last token
    have hrest : c.rest = [] := by
      cases hcons : c.rest with
      | nil => rfl
      | cons t rest =>
        have hmem : c.current ∈ (Cursor.withEnd ts).dropLast := by
          rw [htokens, Cursor.tokens, hcons, List.dropLast_append_cons, List.dropLast_cons_cons]
          exact List.mem_append_right _ (List.mem_cons_self ..)
        exact absurd heof (Cursor.ne_eof_of_mem_dropLast_withEnd hend _ hmem)
    have hlast : c.tokens = [c.current] := by
      rw [Cursor.tokens, hrest]
    refine ⟨hwf, ?_⟩
    rw [htokens, hlast, spell_append, spell_cons, spell_nil, List.append_nil,
      Token.spelling_of_kind heof (by decide)]
    exact (hsplits ⟨[], 0⟩ ⟨rfl, (List.cons_ne_nil _ _).symm⟩).1

/-- A text without an end: `BEGIN CODE IMMUT INT a = 1, b = f(a, 2); ; SCAN: c, d END CODE`. -/
def listedText : List Token :=
  let word (k : Kind) : Token := ⟨k, k.label, none, .start⟩
  let name (w : String) : Token := ⟨.identifier, utf8 w, none, .start⟩
  [word .kwBegin, word .kwCode, word .kwImmut, word (.type .int), name "a", word .assign,
   ⟨.intLit, utf8 "1", some (.int 1), .start⟩, word .comma, name "b", word .assign, name "f",
   word .leftParen, name "a", word .comma, ⟨.intLit, utf8 "2", some (.int 2), .start⟩,
   word .rightParen, word .semicolon, word .semicolon, word .kwScan, word .colon, name "c",
   word .comma, name "d", word .kwEnd, word .kwCode]

theorem listedText_tells :
    (Program.ofTokens listedText).diagnostics = [] ∧
    (Program.ofTokens listedText).stmts.length = 3 ∧
    wellFormedProgram (Program.ofTokens listedText).stmts = true ∧
      splitLists (spell (Cursor.withEnd listedText)) =
        spell (writeProgram (Program.ofTokens listedText).stmts) := by
  have hok : (Program.ofTokens listedText).diagnostics = [] :=
    List.isEmpty_iff.mp (by decide +kernel)
  exact ⟨hok, by decide +kernel, parse_tells (by decide +kernel) hok⟩

end FencedCode
