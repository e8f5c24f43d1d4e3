import FencedCode.Proofs.Syntax.Rules

/-!
# Spelling

A text may be laid out in ways that its tree does not tell: where tokens stand, how a word is
written, which statements a semicolon follows, and whether variables are declared one by one or in
a list. Spelling keeps what the tree tells.

* `spell` -- tokens by kind, names and literals also by text and value, without semicolons;
* `splitLists` -- a list of declared variables as one declaration for each of them;
* `Kept`, `Splits` -- what the splitting does with the tokens of a tree.
-/

namespace FencedCode

open Grammar

/-! ## 1. Tokens as far as a tree tells them -/

namespace Token

/-- A token by its kind; a name or a literal also by its text and value. -/
def essence (t : Token) : Token :=
  if t.kind = .identifier ∨ isLiteral t.kind then t.unplaced else .word t.kind

/-- The essence of a token, if it is not a semicolon. -/
def spelling (t : Token) : List Token :=
  if t.kind = .semicolon then [] else [t.essence]

@[simp]
theorem kind_essence (t : Token) : t.essence.kind = t.kind := by
  unfold essence
  split <;> rfl

@[simp]
theorem spelling_unplaced (t : Token) : t.unplaced.spelling = t.spelling := rfl

/-- Words and signs are told by their kinds. -/
theorem spelling_of_kind {t : Token} {k : Kind} (hkind : t.kind = k)
    (hfixed : ¬(k = .identifier ∨ isLiteral k)) : t.spelling = (word k).spelling := by
  subst hkind
  unfold spelling essence
  rw [if_neg hfixed, kind_word, if_neg hfixed]

end Token

/-- Tokens as far as a tree tells them. -/
def spell (ts : List Token) : List Token :=
  ts.flatMap Token.spelling

@[simp]
theorem spell_nil : spell [] = [] := rfl

@[simp]
theorem spell_cons (t : Token) (ts : List Token) : spell (t :: ts) = t.spelling ++ spell ts := rfl

@[simp]
theorem spell_append (ts us : List Token) : spell (ts ++ us) = spell ts ++ spell us :=
  List.flatMap_append

/-! ## 2. Lists of declared variables -/

/-- Where the splitting of lists stands. -/
structure Splitter where
  /-- The words in front of the latest declared variable. -/
  words : List Token
  /-- How many parentheses are open. -/
  depth : Nat

namespace Splitter

/-- Passes a token. Types between parentheses are those of parameters. -/
def next (s : Splitter) (t : Token) : Splitter :=
  match t.kind with
  | .leftParen => { s with depth := s.depth + 1 }
  | .rightParen => { s with depth := s.depth - 1 }
  | .kwImmut => { s with words := [t] }
  | .kwScan => { s with words := [] }
  | .type _ =>
    if 0 < s.depth then s
    else if s.words.map (fun w => w.kind) = [.kwImmut] then { s with words := s.words ++ [t] }
    else { s with words := [t] }
  | _ => s

/-- What stands for a token: the words of the declaration for a comma of its list. -/
def emit (s : Splitter) (t : Token) : List Token :=
  if t.kind = .comma ∧ s.depth = 0 ∧ s.words ≠ [] then s.words else [t]

/-- Splits the lists of declared variables. -/
def run : Splitter → List Token → List Token
  | _, [] => []
  | s, t :: ts => s.emit t ++ run (s.next t) ts

/-- Behind some tokens. -/
def after (s : Splitter) (ts : List Token) : Splitter :=
  ts.foldl next s

@[simp]
theorem run_append (s : Splitter) (ts us : List Token) :
    s.run (ts ++ us) = s.run ts ++ (s.after ts).run us := by
  induction ts generalizing s with
  | nil => rfl
  | cons t ts ih =>
    show s.emit t ++ (s.next t).run (ts ++ us) = _
    rw [ih, ← List.append_assoc]
    rfl

@[simp]
theorem after_append (s : Splitter) (ts us : List Token) :
    s.after (ts ++ us) = (s.after ts).after us :=
  List.foldl_append

end Splitter

/-- Splits the lists of declared variables, `INT a, b` into `INT a INT b`. -/
def splitLists (ts : List Token) : List Token :=
  Splitter.run ⟨[], 0⟩ ts

/-! ## 3. Tokens that stay -/

/-- Started as `P` tells, the splitting keeps the tokens and ends as it started. -/
def Kept (P : Splitter → Prop) (ts : List Token) : Prop :=
  ∀ s, P s → s.run ts = ts ∧ s.after ts = s

/-- No parenthesis is open, and no `IMMUT` waits for its type. -/
def Splitter.Settled (s : Splitter) : Prop :=
  s.depth = 0 ∧ s.words.map (fun w => w.kind) ≠ [.kwImmut]

/-- Between statements, the splitting turns the tokens into the others. -/
def Splits (ts us : List Token) : Prop :=
  ∀ s : Splitter, s.Settled → s.run ts = us ∧ (s.after ts).Settled

section Kept

variable {P : Splitter → Prop} {ts us ts' us' : List Token}

theorem Kept.nil : Kept P [] := fun _ _ => ⟨rfl, rfl⟩

theorem Kept.append (hts : Kept P ts) (hus : Kept P us) : Kept P (ts ++ us) := by
  intro s hs
  obtain ⟨hrun, hafter⟩ := hts s hs
  rw [Splitter.run_append, Splitter.after_append, hrun, hafter]
  exact ⟨congrArg _ (hus s hs).1, (hus s hs).2⟩

/-- Does a token of the kind mean nothing to lists of variables? -/
def neutral : Kind → Bool
  | .leftParen | .rightParen | .comma | .kwImmut | .kwScan | .type _ => false
  | _ => true

theorem kept_singleton {t : Token} (ht : neutral t.kind = true) : Kept P [t] := by
  intro s _
  have hemit : s.emit t = [t] := by
    unfold Splitter.emit
    rw [if_neg]
    intro hlist
    obtain ⟨hcomma, _⟩ := hlist
    rw [hcomma] at ht
    cases ht
  have hnext : s.next t = s := by
    unfold Splitter.next
    generalize t.kind = k at ht
    cases k <;> simp_all [neutral]
  show s.emit t ++ [] = [t] ∧ s.next t = s
  rw [hemit]
  exact ⟨rfl, hnext⟩

theorem kept_spelling {t : Token} (ht : neutral t.kind = true) : Kept P t.spelling := by
  unfold Token.spelling
  split
  · exact .nil
  · exact kept_singleton (by rwa [Token.kind_essence])

/-- Between parentheses commas and types stay. -/
theorem kept_inner {t : Token} (ht : t.kind = .comma ∨ ∃ type, t.kind = .type type) :
    Kept (fun s => 0 < s.depth) [t] := by
  intro s hs
  have hemit : s.emit t = [t] := by
    unfold Splitter.emit
    rw [if_neg]
    intro hlist
    obtain ⟨_, hdepth, _⟩ := hlist
    omega
  have hnext : s.next t = s := by
    unfold Splitter.next
    rcases ht with ht | ⟨type, ht⟩
    · rw [ht]
    · rw [ht]
      exact if_pos hs
  show s.emit t ++ [] = [t] ∧ s.next t = s
  rw [hemit]
  exact ⟨rfl, hnext⟩

/-- **What is kept between parentheses is kept with them.** -/
theorem kept_parens {l r : Token} (hl : l.kind = .leftParen) (hr : r.kind = .rightParen)
    (hts : Kept (fun s => 0 < s.depth) ts) : Kept P (l :: ts ++ [r]) := by
  intro s _
  have hemit : ∀ (s : Splitter) {t : Token}, t.kind ≠ .comma → s.emit t = [t] := fun s t ht =>
    if_neg fun h => ht h.1
  have hopen : s.next l = ⟨s.words, s.depth + 1⟩ := by
    unfold Splitter.next
    rw [hl]
  have hclose : (Splitter.mk s.words (s.depth + 1)).next r = s := by
    unfold Splitter.next
    rw [hr]
    rfl
  obtain ⟨hrun, hafter⟩ := hts ⟨s.words, s.depth + 1⟩ (Nat.succ_pos _)
  constructor
  · show s.emit l ++ (s.next l).run (ts ++ [r]) = l :: ts ++ [r]
    rw [hemit s (by rw [hl]; decide), hopen, Splitter.run_append, hrun, hafter]
    show [l] ++ (ts ++ (Splitter.emit _ r ++ [])) = _
    rw [hemit _ (by rw [hr]; decide)]
    rfl
  · show (s.next l).after (ts ++ [r]) = s
    rw [hopen, Splitter.after_append, hafter]
    exact hclose

end Kept

/-! ## 4. Trees in which nothing is split -/

theorem neutral_of_isLiteral {k : Kind} (hk : isLiteral k = true) : neutral k = true := by
  cases k <;> simp_all [isLiteral, neutral]

theorem neutral_of_isSign {k : Kind} (hk : isSign k = true) : neutral k = true := by
  cases k <;> simp_all [isSign, neutral]

theorem neutral_of_level {k : Kind} {l : Level} (hk : Level.of? k = some l) :
    neutral k = true := by
  cases k <;> simp_all [Level.of?, neutral]

/-- Entries that stay stay with the commas between them, if these do. -/
theorem kept_withCommas {P : Splitter → Prop} (hcomma : Kept P [Token.word .comma])
    {tss : List (List Token)} (htss : ∀ ts ∈ tss, Kept P (spell ts)) :
    Kept P (spell (withCommas tss)) := by
  induction tss with
  | nil => exact .nil
  | cons ts tss ih =>
    have hts := htss ts (List.mem_cons_self ..)
    have ih' := ih fun us hus => htss us (List.mem_cons_of_mem ts hus)
    cases tss with
    | nil => exact hts
    | cons us tss =>
      rw [withCommas_cons_cons, spell_append, spell_cons]
      exact hts.append (hcomma.append ih')

mutual

/-- **Nothing in an expression is split**: its commas stand between parentheses. -/
theorem kept_write {P : Splitter → Prop} : ∀ {e : Expr}, e.wellFormed = true →
    Kept P (spell e.write)
  | .literal t, hwf => by
    simp only [Expr.write, spell_cons, spell_nil, List.append_nil, Token.spelling_unplaced]
    exact kept_spelling (neutral_of_isLiteral hwf)
  | .ref name, hwf => by
    simp only [Expr.write, spell_cons, spell_nil, List.append_nil, Token.spelling_unplaced]
    simp only [Expr.wellFormed, decide_eq_true_eq] at hwf
    exact kept_spelling (by rw [hwf]; rfl)
  | .grouping e _, hwf => by
    simp only [Expr.wellFormed] at hwf
    simp only [Expr.write, List.cons_append, spell_cons, spell_append]
    exact kept_parens rfl rfl (kept_write hwf)
  | .unary op e, hwf => by
    simp only [Expr.wellFormed, Bool.and_eq_true] at hwf
    simp only [Expr.write, spell_cons, Token.spelling_unplaced]
    exact (kept_spelling (neutral_of_isSign hwf.1.1)).append (kept_write hwf.2)
  | .binary left op right, hwf => by
    obtain ⟨l, hop, _, hleft, _, hright, _⟩ := Expr.wellFormed_binary hwf
    simp only [Expr.write, spell_append, spell_cons, Token.spelling_unplaced]
    exact (kept_write hleft).append
      ((kept_spelling (neutral_of_level hop)).append (kept_write hright))
  | .logical left op right, hwf => by
    obtain ⟨l, hop, _, hleft, _, hright, _⟩ := Expr.wellFormed_logical hwf
    simp only [Expr.write, spell_append, spell_cons, Token.spelling_unplaced]
    exact (kept_write hleft).append
      ((kept_spelling (neutral_of_level hop)).append (kept_write hright))
  | .assign name value, hwf => by
    simp only [Expr.wellFormed, Bool.and_eq_true, decide_eq_true_eq] at hwf
    simp only [Expr.write, spell_cons, Token.spelling_unplaced]
    refine (kept_spelling ?_).append ((kept_spelling rfl).append (kept_write hwf.2))
    rw [hwf.1]
    rfl
  | .call callee paren args, hwf => by
    simp only [Expr.wellFormed, Bool.and_eq_true, decide_eq_true_eq] at hwf
    obtain ⟨⟨⟨⟨_, hcallee⟩, hparen⟩, _⟩, hargs⟩ := hwf
    have hclose : paren.spelling = [Token.word .rightParen] :=
      Token.spelling_of_kind hparen (by decide)
    simp only [Expr.write, List.cons_append, List.append_assoc, spell_append, spell_cons,
      spell_nil, List.append_nil, Token.spelling_unplaced, hclose]
    exact (kept_write hcallee).append (kept_parens rfl rfl
      (kept_withCommas (kept_inner (.inl rfl)) (kept_writeEach hargs)))

theorem kept_writeEach {P : Splitter → Prop} : ∀ {es : List Expr},
    Expr.allWellFormed es = true → ∀ ts ∈ Expr.writeEach es, Kept P (spell ts)
  | [], _ => nofun
  | e :: es, hwf => by
    simp only [Expr.allWellFormed, Bool.and_eq_true] at hwf
    intro ts hts
    rcases List.mem_cons.mp hts with rfl | hts
    · exact kept_write hwf.1
    · exact kept_writeEach hwf.2 ts hts

end

theorem kept_writeCondition {P : Splitter → Prop} {e : Expr} (hwf : e.wellFormed = true) :
    Kept P (spell e.writeCondition) := by
  simp only [Expr.writeCondition, List.cons_append, spell_cons, spell_append]
  exact kept_parens rfl rfl (kept_write hwf)

theorem kept_params {ps : List Param} (hwf : ∀ p ∈ ps, p.wellFormed = true) :
    Kept (fun s => 0 < s.depth) (spell (withCommas (ps.map Param.write))) := by
  refine kept_withCommas (kept_inner (.inl rfl)) fun ts hts => ?_
  obtain ⟨p, hp, rfl⟩ := List.mem_map.mp hts
  have hp := hwf p hp
  simp only [Param.wellFormed, TypeName.wellFormed, Bool.and_eq_true, decide_eq_true_eq] at hp
  simp only [Param.write, spell_cons, spell_nil, List.append_nil, Token.spelling_unplaced]
  refine .append ?_ (kept_spelling (by rw [hp.2]; rfl))
  rw [Token.spelling_of_kind hp.1 (by simp [isLiteral])]
  exact kept_inner (.inr ⟨_, rfl⟩)

/-! ## 5. What becomes of statements -/

section Splits

variable {ts us ts' us' : List Token}

theorem Splits.append (hts : Splits ts us) (hts' : Splits ts' us') :
    Splits (ts ++ ts') (us ++ us') := by
  intro s hs
  obtain ⟨hrun, hafter⟩ := hts s hs
  rw [Splitter.run_append, Splitter.after_append, hrun, (hts' _ hafter).1]
  exact ⟨rfl, (hts' _ hafter).2⟩

theorem splits_nil : Splits [] [] := fun _ hs => ⟨rfl, hs⟩

theorem Kept.splits (hts : Kept (fun _ => True) ts) : Splits ts ts := by
  intro s hs
  obtain ⟨hrun, hafter⟩ := hts s trivial
  rw [hrun, hafter]
  exact ⟨rfl, hs⟩

/-- A word that is neutral or a type stays. -/
theorem splits_word {t : Token} (ht : neutral t.kind = true ∨ ∃ type, t.kind = .type type) :
    Splits [t] [t] := by
  rcases ht with ht | ⟨type, ht⟩
  · exact (kept_singleton ht).splits
  · intro s hs
    have hemit : s.emit t = [t] := if_neg fun h => by
      rw [ht] at h
      cases h.1
    have hnext : s.next t = ⟨[t], s.depth⟩ := by
      unfold Splitter.next
      rw [ht]
      show (if 0 < s.depth then _ else _) = _
      rw [if_neg (by rw [hs.1]; decide), if_neg hs.2]
    show s.emit t ++ [] = [t] ∧ (s.next t).Settled
    rw [hemit, hnext]
    refine ⟨rfl, hs.1, ?_⟩
    rw [List.map_singleton, ht]
    nofun

/-- The names behind a `SCAN` stay a list. -/
theorem splits_scan {names : List Token} (hnames : ∀ n ∈ names, n.kind = .identifier) :
    Splits (Token.word .kwScan :: Token.word .colon ::
        spell (withCommas (names.map fun n => [n.unplaced])))
      (Token.word .kwScan :: Token.word .colon ::
        spell (withCommas (names.map fun n => [n.unplaced]))) := by
  intro s hs
  have hcomma : Kept (fun s => s.words = []) [Token.word .comma] := by
    intro s hs
    refine ⟨?_, rfl⟩
    show s.emit _ ++ [] = _
    unfold Splitter.emit
    rw [if_neg fun h => h.2.2 hs]
    rfl
  have hkept : Kept (fun s => s.words = []) (Token.word .colon ::
      spell (withCommas (names.map fun n => [n.unplaced]))) := by
    have hcolon : Kept (fun s => s.words = []) [Token.word .colon] := kept_singleton rfl
    refine hcolon.append (kept_withCommas hcomma fun ts hts => ?_)
    obtain ⟨n, hn, rfl⟩ := List.mem_map.mp hts
    simp only [spell_cons, spell_nil, List.append_nil, Token.spelling_unplaced]
    exact kept_spelling (by rw [hnames n hn]; rfl)
  obtain ⟨hrun, hafter⟩ := hkept ⟨[], s.depth⟩ rfl
  constructor
  · show s.emit _ ++ (s.next _).run _ = _
    exact congrArg (_ :: ·) hrun
  · show Splitter.Settled ((Splitter.mk [] s.depth).after _)
    rw [hafter]
    exact ⟨hs.1, nofun⟩

end Splits

/-! ## 6. What becomes of declarations -/

section Declarations

variable {type : BaseType} {isMutable : Bool} {ts us : List Token}

theorem spell_declarationWords (type : BaseType) (isMutable : Bool) :
    spell (declarationWords type isMutable) = declarationWords type isMutable := by
  cases isMutable <;> rfl

/-- Behind the words of a declaration, the splitting turns the tokens into the others, which start
    with the words. -/
def SplitsList (type : BaseType) (isMutable : Bool) (ts us : List Token) : Prop :=
  declarationWords type isMutable ++ (Splitter.mk (declarationWords type isMutable) 0).run ts = us ∧
    (Splitter.mk (declarationWords type isMutable) 0).after ts =
      ⟨declarationWords type isMutable, 0⟩

/-- One variable. -/
theorem Kept.splitsList (hts : Kept (fun _ => True) ts) :
    SplitsList type isMutable ts (declarationWords type isMutable ++ ts) := by
  obtain ⟨hrun, hafter⟩ := hts ⟨declarationWords type isMutable, 0⟩ trivial
  exact ⟨congrArg _ hrun, hafter⟩

/-- **For the comma between two variables, the words stand again.** -/
theorem SplitsList.cons {ts' us' : List Token} (hts : SplitsList type isMutable ts us)
    (hts' : SplitsList type isMutable ts' us') :
    SplitsList type isMutable (ts ++ Token.word .comma :: ts') (us ++ us') := by
  obtain ⟨rfl, hafter⟩ := hts
  obtain ⟨rfl, hafter'⟩ := hts'
  have hemit : (Splitter.mk (declarationWords type isMutable) 0).emit (Token.word .comma) =
      declarationWords type isMutable := by
    cases isMutable <;> rfl
  constructor
  · rw [Splitter.run_append, hafter]
    show _ ++ (_ ++ (Splitter.emit _ _ ++ Splitter.run _ ts')) = _
    rw [hemit, List.append_assoc]
    rfl
  · rw [Splitter.after_append, hafter]
    exact hafter'

/-- **The words of a declaration and the list of its variables.** -/
theorem SplitsList.splits (hts : SplitsList type isMutable ts us) :
    Splits (declarationWords type isMutable ++ ts) us := by
  intro s hs
  obtain ⟨rfl, hafter⟩ := hts
  have hwords : s.run (declarationWords type isMutable) = declarationWords type isMutable ∧
      s.after (declarationWords type isMutable) = ⟨declarationWords type isMutable, 0⟩ := by
    obtain ⟨words, depth⟩ := s
    obtain ⟨rfl, hwords⟩ := hs
    cases isMutable with
    | false => exact ⟨rfl, rfl⟩
    | true =>
      refine ⟨rfl, ?_⟩
      show (Splitter.mk words 0).next (Token.word (.type type)) = ⟨[Token.word (.type type)], 0⟩
      unfold Splitter.next
      show (if 0 < 0 then _ else _) = _
      rw [if_neg (Nat.lt_irrefl 0), if_neg hwords]
  rw [Splitter.run_append, Splitter.after_append, hwords.1, hwords.2, hafter]
  refine ⟨rfl, rfl, ?_⟩
  cases isMutable <;> nofun

end Declarations

end FencedCode
