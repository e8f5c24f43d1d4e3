import FencedCode.Proofs.Syntax.Rules
import Mathlib.Data.List.Chain

/-!
# Written expressions are read back

A rule of the grammar that stands in front of a written tree takes exactly the tokens of the tree
and yields the tree, up to places. What stands behind the tree must not continue it, and the rule
needs room: sixteen for each token and a few more.

* `Ready`, `Takes` -- cursors that a rule can start from, and what it means that it takes a tree;
* `continues`, `Starts` -- the tokens that would continue an expression;
* `Reads` -- that the rules of expressions, given room, take what is written;
* `reads` -- **that they do**, by induction on the room.

Operators of one level and calls are read in loops, from the left. A loop is followed along the
left spine of the tree (`chain_spine`, `calls_spine`): what the first operand and the loop behind
it do with the tokens of a tree is what the loop does once it holds the tree.
-/

namespace FencedCode

open Parse Grammar

/-! ## 1. Cursors and steps -/

/-- The value of a `RETURN` starts on its line. -/
def OnLine (t u : Token) : Prop :=
  t.kind = .kwReturn → u.kind ≠ .semicolon → u.pos.line = t.pos.line

instance : DecidableRel OnLine := fun t u =>
  inferInstanceAs (Decidable (t.kind = .kwReturn → u.kind ≠ .semicolon → u.pos.line = t.pos.line))

/-- The tokens of a cursor without places. -/
def Cursor.bare (c : Cursor) : List Token :=
  c.tokens.map Token.unplaced

/-- A cursor over tokens that close and keep the values of `RETURN` on their lines, nothing having
    been complained about. -/
structure Ready (c : Cursor) : Prop where
  closed : c.Closed
  clean : c.reported = []
  lines : c.tokens.IsChain OnLine

/-- `Takes p c rest A`: from cursor `c`, step `p` succeeds with a result in `A` and stands before
    `rest`, without a complaint. -/
def Takes {α : Type} (p : Parse α) (c : Cursor) (rest : List Token) (A : α → Prop) : Prop :=
  ∃ a c', p c = (some a, c') ∧ A a ∧ c'.bare = rest ∧ Ready c'

/-- The list starts with a token of a kind in `P`. -/
def Starts (P : Kind → Prop) (ts : List Token) : Prop :=
  ∃ t us, ts = t :: us ∧ P t.kind

theorem Starts.imp {P Q : Kind → Prop} {ts : List Token} (hs : Starts P ts)
    (hPQ : ∀ k, P k → Q k) : Starts Q ts := by
  obtain ⟨t, us, rfl, ht⟩ := hs
  exact ⟨t, us, rfl, hPQ _ ht⟩

theorem Starts.append {P : Kind → Prop} {ts : List Token} (hs : Starts P ts)
    (us : List Token) : Starts P (ts ++ us) := by
  obtain ⟨t, ts', rfl, ht⟩ := hs
  exact ⟨t, ts' ++ us, rfl, ht⟩

theorem starts_cons {P : Kind → Prop} {t : Token} (ts : List Token) (ht : P t.kind) :
    Starts P (t :: ts) :=
  ⟨t, ts, rfl, ht⟩

section Steps

variable {α β : Type} {c : Cursor} {w : Token} {rest : List Token}

theorem current_unplaced (hb : c.bare = w :: rest) : c.current.unplaced = w :=
  (List.cons.inj hb).1

theorem current_kind (hb : c.bare = w :: rest) : c.current.kind = w.kind := by
  rw [← current_unplaced hb, Token.kind_unplaced]

theorem starts_current {P : Kind → Prop} (hs : Starts P c.bare) : P c.current.kind := by
  obtain ⟨t, us, hb, ht⟩ := hs
  rw [current_kind hb]
  exact ht

/-- One token further. -/
theorem Ready.advance (hc : Ready c) (hb : c.bare = w :: rest) (hw : w.kind ≠ .eof) :
    Ready c.advance ∧ c.advance.bare = rest := by
  have hk : c.current.kind ≠ .eof := by
    rw [current_kind hb]
    exact hw
  have htokens := hc.closed.advance_tokens hk
  refine ⟨⟨hc.closed.advance, ?_, ?_⟩, ?_⟩
  · rw [Cursor.advance_reported]
    exact hc.clean
  · rw [htokens]
    exact hc.lines.tail
  · unfold Cursor.bare
    rw [htokens]
    exact (List.cons.inj hb).2

/-- **Steps one after another take trees one after another.** -/
theorem Takes.bind {p : Parse α} {f : α → Parse β} {rest' : List Token} {A : α → Prop}
    {B : β → Prop} (hp : Takes p c rest A)
    (hf : ∀ a c', A a → c'.bare = rest → Ready c' → Takes (f a) c' rest' B) :
    Takes (p >>= f) c rest' B := by
  obtain ⟨a, c₁, hrun, ha, hb, hc⟩ := hp
  obtain ⟨b, c₂, hrun', hb', hrest, hc'⟩ := hf a c₁ ha hb hc
  exact ⟨b, c₂, (bind_of_some hrun).trans hrun', hb', hrest, hc'⟩

theorem Takes.imp {p : Parse α} {A B : α → Prop} (hp : Takes p c rest A)
    (hAB : ∀ a, A a → B a) : Takes p c rest B := by
  obtain ⟨a, c', hrun, ha, hb, hc⟩ := hp
  exact ⟨a, c', hrun, hAB a ha, hb, hc⟩

theorem takes_pure {a : α} {A : α → Prop} (ha : A a) (hb : c.bare = rest) (hc : Ready c) :
    Takes (pure a) c rest A :=
  ⟨a, c, rfl, ha, hb, hc⟩

theorem takes_peek {f : Token → Parse α} {A : α → Prop} (hf : Takes (f c.current) c rest A) :
    Takes (peek >>= f) c rest A :=
  hf

theorem takes_skip (hc : Ready c) (hb : c.bare = w :: rest) (hw : w.kind ≠ .eof) :
    Takes skip c rest fun _ => True :=
  ⟨(), c.advance, rfl, trivial, (hc.advance hb hw).2, (hc.advance hb hw).1⟩

theorem takes_take {f : Token → Parse α} {A : α → Prop}
    (hf : Takes (f c.current) c.advance rest A) : Takes (take >>= f) c rest A :=
  hf

theorem takes_expect {k : Kind} (e : SyntaxError) (hc : Ready c) (hb : c.bare = w :: rest)
    (hw : w.kind = k) (hk : k ≠ .eof) : Takes (expect k e) c rest fun t => t.unplaced = w := by
  obtain ⟨hc', hb'⟩ := hc.advance hb (by rw [hw]; exact hk)
  have hrun := expect_of_kind ((current_kind hb).trans hw) e
  exact ⟨c.current, c.advance, hrun, current_unplaced hb, hb', hc'⟩

theorem takes_accept {k : Kind} (hc : Ready c) (hb : c.bare = w :: rest) (hw : w.kind = k)
    (hk : k ≠ .eof) : Takes (accept k) c rest fun b => b = true := by
  obtain ⟨hc', hb'⟩ := hc.advance hb (by rw [hw]; exact hk)
  exact ⟨true, c.advance, accept_of_kind ((current_kind hb).trans hw), rfl, hb', hc'⟩

theorem takes_accept_none {k : Kind} (hc : Ready c) (hb : c.bare = rest)
    (hs : Starts (fun j => j ≠ k) rest) : Takes (accept k) c rest fun b => b = false :=
  ⟨false, c, accept_of_ne (starts_current (hb ▸ hs)), rfl, hb, hc⟩

theorem takes_withinLimit {count : Nat} (e : SyntaxError) (hcount : count < maxArgs)
    (hb : c.bare = rest) (hc : Ready c) : Takes (withinLimit count e) c rest fun _ => True := by
  refine ⟨(), c, ?_, trivial, hb, hc⟩
  show (if maxArgs ≤ count then _ else _ : Parse Unit) c = _
  rw [if_neg (Nat.not_le.mpr hcount)]
  rfl

/-- The last entry of a list with commas. -/
theorem takes_last {entry : Parse α} {more : Parse (List α)} {A : α → Prop}
    (he : Takes entry c rest A) (hs : Starts (fun k => k ≠ .comma) rest) :
    Takes (alongCommas entry more) c rest fun as => ∃ a, as = [a] ∧ A a := by
  refine he.bind fun a c₁ ha hb₁ hc₁ => ?_
  refine (takes_accept_none hc₁ hb₁ hs).bind fun b c₂ hfalse hb₂ hc₂ => ?_
  rw [if_neg (by simp [hfalse])]
  exact takes_pure ⟨a, rfl, ha⟩ hb₂ hc₂

/-- An entry of a list with commas that is not the last one. -/
theorem takes_more {entry : Parse α} {more : Parse (List α)} {A : α → Prop}
    {B : List α → Prop} {rest' : List Token} (he : Takes entry c (Token.word .comma :: rest') A)
    (hm : ∀ c', c'.bare = rest' → Ready c' → Takes more c' rest B) :
    Takes (alongCommas entry more) c rest fun as => ∃ a as', as = a :: as' ∧ A a ∧ B as' := by
  refine he.bind fun a c₁ ha hb₁ hc₁ => ?_
  refine (takes_accept hc₁ hb₁ rfl (by decide)).bind fun b c₂ htrue hb₂ hc₂ => ?_
  rw [if_pos htrue]
  refine (hm c₂ hb₂ hc₂).bind fun as c₃ has hb₃ hc₃ => ?_
  exact takes_pure ⟨a, as, rfl, ha, has⟩ hb₃ hc₃

end Steps

/-! ## 2. What continues an expression -/

/-- Would a token of the kind continue an expression of at least the given precedence? -/
def continues (p : Nat) (k : Kind) : Bool :=
  k = .leftParen || (Level.of? k).any (fun l => p ≤ l.rank) || (p = 0 && k = .assign)

/-- The tokens do not continue an expression of at least the given precedence. -/
def Stops (p : Nat) (ts : List Token) : Prop :=
  Starts (fun k => continues p k = false) ts

section Continues

variable {p q : Nat} {k : Kind}

theorem continues_mono (hpq : p ≤ q) (hk : continues p k = false) : continues q k = false := by
  unfold continues at hk ⊢
  simp only [Bool.or_eq_false_iff, Bool.and_eq_false_iff, decide_eq_false_iff_not] at hk ⊢
  obtain ⟨⟨hparen, hlevel⟩, hassign⟩ := hk
  refine ⟨⟨hparen, ?_⟩, hassign.imp_left fun hp hq => hp (by omega)⟩
  cases hl : Level.of? k with
  | none => rfl
  | some l =>
    simp only [hl, Option.any_some, decide_eq_false_iff_not] at hlevel ⊢
    omega

theorem Stops.mono (hpq : p ≤ q) {ts : List Token} (hs : Stops p ts) : Stops q ts :=
  hs.imp fun _ => continues_mono hpq

theorem not_has_of_continues {l : Level} (hl : p ≤ l.rank) (hk : continues p k = false) :
    ¬ l.has k = true := by
  intro hhas
  rw [Level.has_iff] at hhas
  simp [continues, hhas, hl] at hk

theorem ne_leftParen_of_continues (hk : continues p k = false) : k ≠ .leftParen := by
  intro heq
  subst heq
  cases hk

theorem ne_assign_of_continues (hk : continues 0 k = false) : k ≠ .assign := by
  intro heq
  subst heq
  cases hk

/-- An operator ends what binds tighter than its level. -/
theorem continues_operator {l : Level} (hk : Level.of? k = some l) :
    continues (l.rank + 1) k = false := by
  cases k <;> simp_all [continues, Level.of?]

end Continues

/-! ## 3. Shapes of expressions -/

/-- Can a token of the kind be the first of an expression? -/
def startsExpression (k : Kind) : Bool :=
  isLiteral k || k = .identifier || k = .leftParen || isSign k

/-- An expression starts with a token of its own, and with a sign only if it may be unary. -/
theorem starts_write : ∀ {e : Expr}, e.wellFormed = true →
    Starts (fun k => startsExpression k = true ∧ (8 ≤ e.precedence → isSign k = false)) e.write
  | .literal t, hwf => by
    refine starts_cons _ ?_
    simp only [Expr.wellFormed] at hwf
    simp only [Token.kind_unplaced]
    generalize t.kind = k at hwf ⊢
    cases k <;> simp_all [startsExpression, isLiteral, isSign]
  | .grouping _ _, _ => starts_cons _ ⟨rfl, fun _ => rfl⟩
  | .ref name, hwf => by
    refine starts_cons _ ?_
    simp only [Expr.wellFormed, decide_eq_true_eq] at hwf
    simp [hwf, startsExpression, isSign]
  | .assign name value, hwf => by
    refine starts_cons _ ?_
    simp only [Expr.wellFormed, Bool.and_eq_true, decide_eq_true_eq] at hwf
    simp [hwf.1, startsExpression, isSign]
  | .unary op operand, hwf => by
    refine starts_cons _ ?_
    simp only [Expr.wellFormed, Bool.and_eq_true] at hwf
    simp [hwf.1.1, startsExpression, Expr.precedence]
  | .binary left op right, hwf => by
    simp only [Expr.wellFormed, Bool.and_eq_true] at hwf
    have hp : (Expr.binary left op right).precedence < 8 :=
      Nat.lt_succ_of_lt (Level.rank_of?_lt op.kind)
    refine Starts.append ((starts_write hwf.1.2).imp fun k hk => ⟨hk.1, fun h8 => ?_⟩) _
    omega
  | .logical left op right, hwf => by
    simp only [Expr.wellFormed, Bool.and_eq_true] at hwf
    have hp : (Expr.logical left op right).precedence < 8 :=
      Nat.lt_succ_of_lt (Level.rank_of?_lt op.kind)
    refine Starts.append ((starts_write hwf.1.2).imp fun k hk => ⟨hk.1, fun h8 => ?_⟩) _
    omega
  | .call callee paren args, hwf => by
    simp only [Expr.wellFormed, Bool.and_eq_true, decide_eq_true_eq] at hwf
    simp only [Expr.write, List.append_assoc]
    exact Starts.append ((starts_write hwf.1.1.1.2).imp fun k hk =>
      ⟨hk.1, fun _ => hk.2 hwf.1.1.1.1⟩) _

theorem starts_expression {e : Expr} (hwf : e.wellFormed = true) (rest : List Token) :
    Starts (fun k => startsExpression k = true) (e.write ++ rest) :=
  ((starts_write hwf).imp fun _ hk => hk.1).append rest

theorem length_write_pos {e : Expr} (hwf : e.wellFormed = true) : 0 < e.write.length := by
  obtain ⟨t, us, hw, _⟩ := starts_write hwf
  rw [hw]
  exact Nat.succ_pos _

/-- **An expression of the precedence of a level is an operator of that level** between operands
    that bind tightly enough. -/
theorem combine_of_precedence {e : Expr} {l : Level} (hwf : e.wellFormed = true)
    (hp : e.precedence = l.rank) :
    ∃ left op right, e = l.combine left op right ∧ Level.of? op.kind = some l ∧
      left.wellFormed = true ∧ l.rank ≤ left.precedence ∧
      right.wellFormed = true ∧ l.rank + 1 ≤ right.precedence := by
  have hlt := l.rank_lt
  have hpos := l.rank_pos
  cases e with
  | binary left op right =>
    obtain ⟨l', hop, he, hrest⟩ := Expr.wellFormed_binary hwf
    rw [he, Level.precedence_combine hop] at hp
    obtain rfl := Level.eq_of_rank_eq hp
    exact ⟨left, op, right, he, hop, hrest⟩
  | logical left op right =>
    obtain ⟨l', hop, he, hrest⟩ := Expr.wellFormed_logical hwf
    rw [he, Level.precedence_combine hop] at hp
    obtain rfl := Level.eq_of_rank_eq hp
    exact ⟨left, op, right, he, hop, hrest⟩
  | _ =>
    simp only [Expr.precedence] at hp
    omega

theorem assign_of_precedence {e : Expr} (hwf : e.wellFormed = true) (hp : e.precedence = 0) :
    ∃ name value, e = .assign name value := by
  cases e with
  | assign name value => exact ⟨name, value, rfl⟩
  | binary left op right =>
    obtain ⟨l, hop, he, _⟩ := Expr.wellFormed_binary hwf
    rw [he, Level.precedence_combine hop] at hp
    exact absurd hp (Nat.ne_of_gt l.rank_pos)
  | logical left op right =>
    obtain ⟨l, hop, he, _⟩ := Expr.wellFormed_logical hwf
    rw [he, Level.precedence_combine hop] at hp
    exact absurd hp (Nat.ne_of_gt l.rank_pos)
  | _ => cases hp

theorem unary_of_precedence {e : Expr} (hp : e.precedence = 7) :
    ∃ op operand, e = .unary op operand := by
  cases e with
  | unary op operand => exact ⟨op, operand, rfl⟩
  | binary left op right => exact absurd hp (Nat.ne_of_lt (Level.rank_of?_lt op.kind))
  | logical left op right => exact absurd hp (Nat.ne_of_lt (Level.rank_of?_lt op.kind))
  | _ => cases hp

theorem call_of_precedence {e : Expr} (hp : e.precedence = 8) :
    ∃ callee paren args, e = .call callee paren args := by
  cases e with
  | call callee paren args => exact ⟨callee, paren, args, rfl⟩
  | binary left op right =>
    exact absurd hp (Nat.ne_of_lt (Nat.lt_succ_of_lt (Level.rank_of?_lt op.kind)))
  | logical left op right =>
    exact absurd hp (Nat.ne_of_lt (Nat.lt_succ_of_lt (Level.rank_of?_lt op.kind)))
  | _ => cases hp

/-! ## 4. Rules with room -/

/-- Given `room`, the rule takes every written expression of at least the given precedence. -/
def ReadsExpr (rule : Nat → Parse Expr) (p base room : Nat) : Prop :=
  ∀ ⦃e : Expr⦄ ⦃c : Cursor⦄ ⦃rest : List Token⦄, e.wellFormed = true → p ≤ e.precedence →
    Ready c → c.bare = e.write ++ rest → Stops p rest → 16 * e.write.length + base ≤ room →
    Takes (rule room) c rest fun e' => e'.unplaced = e.unplaced

theorem readsExpr_zero {rule : Nat → Parse Expr} {p base : Nat} (hbase : 0 < base) :
    ReadsExpr rule p base 0 := by
  intro e c rest _ _ _ _ _ hroom
  omega

/-- Given `room`, the rules of expressions take what is written. -/
structure Reads (room : Nat) : Prop where
  expression : ReadsExpr Grammar.expression 0 12 room
  operand (o : Option Level) :
    ReadsExpr (Grammar.operand · o) (Level.tier o) (12 - Level.tier o) room
  unary : ReadsExpr Grammar.unary 7 4 room
  /-- Anything may stand behind a literal, a name or a parenthesis. -/
  primary {e : Expr} {c : Cursor} {rest : List Token} : e.wellFormed = true → 9 ≤ e.precedence →
    Ready c → c.bare = e.write ++ rest → 16 * e.write.length + 2 ≤ room →
    Takes (Grammar.primary room) c rest fun e' => e'.unplaced = e.unplaced
  arguments {args : List Expr} {count : Nat} {c : Cursor} {rest : List Token} : args ≠ [] →
    Expr.allWellFormed args = true → count + args.length ≤ maxArgs → Ready c →
    c.bare = withCommas (Expr.writeEach args) ++ rest → Starts (· = .rightParen) rest →
    16 * (withCommas (Expr.writeEach args)).length + 13 ≤ room →
    Takes (Grammar.arguments room count) c rest fun as =>
      Expr.unplacedAll as = Expr.unplacedAll args

theorem chain_of_has {l : Level} {room : Nat} {left : Expr} {c : Cursor}
    (hhas : l.has c.current.kind = true) :
    chain (room + 1) l left c =
      (operand room l.tighter >>= fun right => chain room l (l.combine left c.current right))
        c.advance := by
  simp only [chain]
  show (if l.has c.current.kind then _ else _ : Parse Expr) c = _
  rw [if_pos hhas]
  rfl

theorem chain_of_not_has {l : Level} {room : Nat} {left : Expr} {c : Cursor}
    (hhas : ¬ l.has c.current.kind = true) : chain (room + 1) l left c = (some left, c) := by
  simp only [chain]
  show (if l.has c.current.kind then _ else _ : Parse Expr) c = _
  rw [if_neg hhas]
  rfl

/-- The loop of a level reads an operator with its right operand, and goes on. -/
theorem chain_reads {l : Level} {room : Nat} (hreads : Reads room) {op : Token} {right : Expr}
    {c : Cursor} {rest : List Token} (left : Expr) (hop : Level.of? op.kind = some l)
    (hwf : right.wellFormed = true) (hp : l.rank + 1 ≤ right.precedence) (hc : Ready c)
    (hb : c.bare = op.unplaced :: (right.write ++ rest)) (hstop : Stops (l.rank + 1) rest)
    (hroom : 16 * right.write.length + (12 - (l.rank + 1)) ≤ room) :
    ∃ right' c', chain (room + 1) l left c = chain room l (l.combine left c.current right') c' ∧
      c.current.unplaced = op.unplaced ∧ right'.unplaced = right.unplaced ∧
      c'.bare = rest ∧ Ready c' := by
  have htier := Level.tier_tighter l
  have hhas : l.has c.current.kind = true := by
    rw [Level.has_iff, current_kind hb, Token.kind_unplaced]
    exact hop
  have hne : op.unplaced.kind ≠ .eof := by
    intro heof
    rw [Token.kind_unplaced] at heof
    rw [heof] at hop
    cases hop
  obtain ⟨hc₁, hb₁⟩ := hc.advance hb hne
  have hread : Takes (operand room l.tighter) c.advance rest fun e' =>
      e'.unplaced = right.unplaced := by
    refine hreads.operand l.tighter hwf ?_ hc₁ hb₁ ?_ ?_ <;> rw [htier] <;> assumption
  obtain ⟨right', c₂, hrun, hr', hb₂, hc₂⟩ := hread
  refine ⟨right', c₂, ?_, current_unplaced hb, hr', hb₂, hc₂⟩
  rw [chain_of_has hhas, bind_of_some hrun]

/-- **Along the left spine of a level.** The first operand and the loop behind it end up in the
    loop that holds the whole tree. The loop has used up less room than the tree has tokens. -/
theorem chain_spine {room : Nat} (ih : ∀ r ≤ room, Reads r) (l : Level) :
    ∀ (n : Nat) {e : Expr} {c : Cursor} {rest : List Token}, e.write.length ≤ n →
      e.wellFormed = true → l.rank ≤ e.precedence → Ready c → c.bare = e.write ++ rest →
      Stops (l.rank + 1) rest → 16 * e.write.length + (11 - l.rank) ≤ room →
      ∃ room' e' c', (operand room l.tighter >>= chain room l) c = chain room' l e' c' ∧
        room' ≤ room ∧ room ≤ room' + e.write.length ∧ e'.unplaced = e.unplaced ∧
        c'.bare = rest ∧ Ready c' := by
  intro n
  have htier := Level.tier_tighter l
  have hrank := l.rank_lt
  induction n with
  | zero =>
    intro e c rest hn hwf
    have := length_write_pos hwf
    omega
  | succ n ihn =>
    intro e c rest hn hwf hp hc hb hstop hroom
    by_cases hown : l.rank = e.precedence
    · -- the operator of the root is the last one the loop reads
      obtain ⟨left, op, right, rfl, hop, hwl, hpl, hwr, hpr⟩ :=
        combine_of_precedence hwf hown.symm
      have hposl := length_write_pos hwl
      have hposr := length_write_pos hwr
      simp only [Level.write_combine, List.length_append, List.length_cons] at hn hroom ⊢
      rw [Level.write_combine, List.append_assoc, List.cons_append] at hb
      have hnext : Stops (l.rank + 1) (op.unplaced :: (right.write ++ rest)) :=
        starts_cons _ (continues_operator hop)
      obtain ⟨room₁, left', c₁, hrun₁, hge₁, hle₁, hl', hb₁, hc₁⟩ :=
        ihn (by omega) hwl hpl hc hb hnext (by omega)
      obtain ⟨k, rfl⟩ : ∃ k, room₁ = k + 1 := ⟨room₁ - 1, by omega⟩
      obtain ⟨right', c₂, hrun₂, hop', hr', hb₂, hc₂⟩ :=
        chain_reads (ih k (by omega)) left' hop hwr hpr hc₁ hb₁ hstop (by omega)
      refine ⟨k, l.combine left' c₁.current right', c₂, hrun₁.trans hrun₂, by omega, by omega, ?_,
        hb₂, hc₂⟩
      rw [Level.unplaced_combine, Level.unplaced_combine, hl', hr', hop']
    · have hread : Takes (operand room l.tighter) c rest fun e' => e'.unplaced = e.unplaced := by
        refine (ih room (Nat.le_refl _)).operand l.tighter hwf ?_ hc hb ?_ ?_
        · rw [htier]
          omega
        · rw [htier]
          exact hstop
        · rw [htier]
          omega
      obtain ⟨e', c', hrun, he', hb', hc'⟩ := hread
      exact ⟨room, e', c', bind_of_some hrun, Nat.le_refl _, Nat.le_add_right _ _, he', hb', hc'⟩

/-- The arguments between the parentheses of a call. -/
theorem takes_arguments {room : Nat} (hreads : Reads room) {args : List Expr} {c : Cursor}
    {paren : Token} {rest : List Token} (hwf : Expr.allWellFormed args = true)
    (hlen : args.length ≤ maxArgs) (hc : Ready c)
    (hb : c.bare = withCommas (Expr.writeEach args) ++ paren :: rest)
    (hparen : paren.kind = .rightParen)
    (hle : 16 * (withCommas (Expr.writeEach args)).length + 13 ≤ room) :
    Takes (argumentList room) c (paren :: rest)
      fun as => Expr.unplacedAll as = Expr.unplacedAll args := by
  refine takes_peek ?_
  cases args with
  | nil =>
    rw [if_pos ((current_kind hb).trans hparen)]
    exact takes_pure rfl hb hc
  | cons e es =>
    have hstart : startsExpression c.current.kind = true := by
      have hwf' := hwf
      simp only [Expr.allWellFormed, Bool.and_eq_true] at hwf'
      have hs := (starts_write hwf'.1).imp fun _ hk => hk.1
      refine starts_current (P := fun k => startsExpression k = true) ?_
      rw [hb]
      cases es with
      | nil => exact hs.append _
      | cons e' es' => exact (hs.append _).append _
    have hne : ¬ c.current.kind = .rightParen := by
      intro hk
      rw [hk] at hstart
      cases hstart
    rw [if_neg hne]
    have hcount : 0 + (e :: es).length ≤ maxArgs := by
      rw [Nat.zero_add]
      exact hlen
    exact hreads.arguments (List.cons_ne_nil _ _) hwf hcount hc hb (starts_cons _ hparen) hle

theorem calls_of_leftParen {room : Nat} {callee : Expr} {c : Cursor}
    (hparen : c.current.kind = .leftParen) :
    calls (room + 1) callee c =
      (argumentList room >>= fun args => expect .rightParen .parenAfterArguments >>= fun paren =>
        calls room (.call callee paren args)) c.advance := by
  rw [calls_eq, accept_bind_of_kind hparen, if_pos rfl]

theorem calls_of_not_leftParen {room : Nat} {callee : Expr} {c : Cursor}
    (hparen : c.current.kind ≠ .leftParen) : calls (room + 1) callee c = (some callee, c) := by
  rw [calls_eq, accept_bind_of_ne hparen, if_neg Bool.false_ne_true]
  rfl

/-- **Along the left spine of calls.** The callee at the far left and the loop behind it end up in
    the loop that holds the whole tree. -/
theorem calls_spine {room : Nat} (ih : ∀ r ≤ room, Reads r) :
    ∀ (n : Nat) {e : Expr} {c : Cursor} {rest : List Token}, e.write.length ≤ n →
      e.wellFormed = true → 8 ≤ e.precedence → Ready c → c.bare = e.write ++ rest →
      16 * e.write.length + 3 ≤ room →
      ∃ room' e' c', (primary room >>= calls room) c = calls room' e' c' ∧
        room' ≤ room ∧ room ≤ room' + e.write.length ∧ e'.unplaced = e.unplaced ∧
        c'.bare = rest ∧ Ready c' := by
  intro n
  induction n with
  | zero =>
    intro e c rest hn hwf
    have := length_write_pos hwf
    omega
  | succ n ihn =>
    intro e c rest hn hwf hp hc hb hroom
    by_cases hown : e.precedence = 8
    · obtain ⟨callee, paren, args, rfl⟩ := call_of_precedence hown
      simp only [Expr.wellFormed, Bool.and_eq_true, decide_eq_true_eq] at hwf
      obtain ⟨⟨⟨⟨hpc, hwc⟩, hparen⟩, hlen⟩, hwa⟩ := hwf
      have hpos := length_write_pos hwc
      simp only [Expr.write, List.length_append, List.length_cons, List.length_nil] at hn hroom ⊢
      simp only [Expr.write, List.append_assoc, List.cons_append, List.nil_append] at hb
      obtain ⟨room₁, callee', c₁, hrun₁, hge₁, hle₁, hcallee, hb₁, hc₁⟩ :=
        ihn (by omega) hwc hpc hc hb (by omega)
      obtain ⟨k, rfl⟩ : ∃ k, room₁ = k + 1 := ⟨room₁ - 1, by omega⟩
      have hopen : c₁.current.kind = .leftParen := current_kind hb₁
      obtain ⟨hc₂, hb₂⟩ := hc₁.advance hb₁ (by simp)
      obtain ⟨args', c₃, hrun₃, hargs, hb₃, hc₃⟩ :=
        takes_arguments (ih k (by omega)) hwa hlen hc₂ hb₂ hparen (by omega)
      obtain ⟨paren', c₄, hrun₄, hparen', hb₄, hc₄⟩ :=
        takes_expect .parenAfterArguments hc₃ hb₃ hparen (by simp)
      refine ⟨k, .call callee' paren' args', c₄, ?_, by omega, by omega, ?_, hb₄, hc₄⟩
      · rw [hrun₁, calls_of_leftParen hopen, bind_of_some hrun₃, bind_of_some hrun₄]
      · simp only [Expr.unplaced, hcallee, hargs, hparen']
    · obtain ⟨e', c', hrun, he', hb', hc'⟩ : Takes (primary room) c rest _ :=
        (ih room (Nat.le_refl _)).primary hwf (by omega) hc hb (by omega)
      exact ⟨room, e', c', bind_of_some hrun, Nat.le_refl _, Nat.le_add_right _ _, he', hb', hc'⟩

/-! ## 5. The rules of expressions -/

section Rules

variable {room : Nat}

theorem expression_succ (ih : Reads room) : ReadsExpr Grammar.expression 0 12 (room + 1) := by
  intro e c rest hwf _ hc hb hstop hroom
  simp only [Grammar.expression]
  by_cases hzero : e.precedence = 0
  · obtain ⟨name, value, rfl⟩ := assign_of_precedence hwf hzero
    simp only [Expr.wellFormed, Bool.and_eq_true, decide_eq_true_eq] at hwf
    simp only [Expr.write, List.length_cons] at hroom
    simp only [Expr.write, List.cons_append] at hb
    have htarget : Takes (operand room (some .or)) c (Token.word .assign :: (value.write ++ rest))
        fun e' => e'.unplaced = (Expr.ref name).unplaced := by
      refine ih.operand (some .or) (e := .ref name) ?_ (Nat.le_add_left 1 8) hc hb
        (starts_cons _ rfl) ?_
      · simp only [Expr.wellFormed, decide_eq_true_eq]
        exact hwf.1
      · simp only [Expr.write, List.length_cons, List.length_nil, Level.tier, Level.rank]
        omega
    refine htarget.bind fun e₁ c₁ he₁ hb₁ hc₁ => takes_peek ?_
    have hassign : c₁.current.kind = .assign := current_kind hb₁
    rw [if_pos hassign]
    refine (takes_skip hc₁ hb₁ (by simp)).bind fun _ c₂ _ hb₂ hc₂ => ?_
    refine (ih.expression hwf.2 (Nat.zero_le _) hc₂ hb₂ hstop (by omega)).bind
      fun value' c₃ hvalue hb₃ hc₃ => ?_
    -- only a name is a name without its place
    cases e₁ with
    | ref name' =>
      refine takes_pure ?_ hb₃ hc₃
      simp only [Expr.unplaced, Expr.ref.injEq] at he₁ ⊢
      rw [he₁, hvalue]
    | _ => cases he₁
  · have hread : Takes (operand room (some .or)) c rest fun e' => e'.unplaced = e.unplaced := by
      refine ih.operand (some .or) hwf (by simp only [Level.tier, Level.rank]; omega) hc hb ?_ ?_
      · exact hstop.mono (Nat.zero_le _)
      · simp only [Level.tier, Level.rank]
        omega
    refine hread.bind fun e₁ c₁ he₁ hb₁ hc₁ => takes_peek ?_
    have hne : ¬ c₁.current.kind = .assign := by
      refine starts_current (P := fun k => k ≠ .assign) ?_
      rw [hb₁]
      exact hstop.imp fun _ => ne_assign_of_continues
    rw [if_neg hne]
    exact takes_pure he₁ hb₁ hc₁

theorem operand_succ (ih : ∀ r ≤ room, Reads r) (o : Option Level) :
    ReadsExpr (Grammar.operand · o) (Level.tier o) (12 - Level.tier o) (room + 1) := by
  intro e c rest hwf hp hc hb hstop hroom
  cases o with
  | none =>
    simp only [Level.tier] at hp hstop hroom
    simp only [Grammar.operand]
    exact (ih room (Nat.le_refl _)).unary hwf hp hc hb hstop (by omega)
  | some l =>
    simp only [Level.tier] at hp hstop hroom
    have hrank := l.rank_lt
    obtain ⟨room', e', c', hrun, _, hle, he', hb', hc'⟩ :=
      chain_spine ih l _ (Nat.le_refl _) hwf hp hc hb (hstop.mono (Nat.le_succ _)) (by omega)
    obtain ⟨k, rfl⟩ : ∃ k, room' = k + 1 := ⟨room' - 1, by omega⟩
    have hnot : ¬ l.has c'.current.kind = true := by
      refine starts_current (P := fun k => ¬ l.has k = true) ?_
      rw [hb']
      exact hstop.imp fun _ => not_has_of_continues (Nat.le_refl _)
    refine ⟨e', c', ?_, he', hb', hc'⟩
    simp only [Grammar.operand]
    exact hrun.trans (chain_of_not_has hnot)

theorem unary_succ (ih : ∀ r ≤ room, Reads r) : ReadsExpr Grammar.unary 7 4 (room + 1) := by
  intro e c rest hwf hp hc hb hstop hroom
  simp only [Grammar.unary]
  refine takes_peek ?_
  by_cases hown : e.precedence = 7
  · obtain ⟨op, operand, rfl⟩ := unary_of_precedence hown
    simp only [Expr.wellFormed, Bool.and_eq_true, decide_eq_true_eq] at hwf
    obtain ⟨⟨hsign, hpo⟩, hwo⟩ := hwf
    simp only [Expr.write, List.length_cons] at hroom
    simp only [Expr.write, List.cons_append] at hb
    have hkind : c.current.kind = op.kind := by
      rw [current_kind hb, Token.kind_unplaced]
    have hne : op.unplaced.kind ≠ .eof := by
      intro heof
      rw [Token.kind_unplaced] at heof
      rw [heof] at hsign
      cases hsign
    rw [hkind, if_pos hsign]
    refine (takes_skip hc hb hne).bind fun _ c₁ _ hb₁ hc₁ => ?_
    refine ((ih room (Nat.le_refl _)).unary hwo hpo hc₁ hb₁ hstop (by omega)).bind
      fun operand' c₂ ho hb₂ hc₂ => takes_pure ?_ hb₂ hc₂
    simp only [Expr.unplaced, ho, current_unplaced hb]
  · have hcall : 8 ≤ e.precedence := by omega
    have hsign : isSign c.current.kind = false := by
      refine starts_current (P := fun k => isSign k = false) ?_
      rw [hb]
      exact ((starts_write hwf).imp fun _ hk => hk.2 hcall).append rest
    rw [hsign, if_neg Bool.false_ne_true]
    obtain ⟨room', e', c', hrun, _, hle, he', hb', hc'⟩ :=
      calls_spine ih _ (Nat.le_refl _) hwf hcall hc hb (by omega)
    obtain ⟨k, rfl⟩ : ∃ k, room' = k + 1 := ⟨room' - 1, by omega⟩
    have hnot : c'.current.kind ≠ .leftParen := by
      refine starts_current (P := fun k => k ≠ .leftParen) ?_
      rw [hb']
      exact hstop.imp fun _ => ne_leftParen_of_continues
    exact ⟨e', c', hrun.trans (calls_of_not_leftParen hnot), he', hb', hc'⟩

theorem primary_succ (ih : Reads room) {e : Expr} {c : Cursor} {rest : List Token}
    (hwf : e.wellFormed = true) (hp : 9 ≤ e.precedence) (hc : Ready c)
    (hb : c.bare = e.write ++ rest) (hroom : 16 * e.write.length + 2 ≤ room + 1) :
    Takes (Grammar.primary (room + 1)) c rest fun e' => e'.unplaced = e.unplaced := by
  simp only [Grammar.primary]
  refine takes_peek ?_
  cases e with
  | literal t =>
    simp only [Expr.wellFormed] at hwf
    have hkind : c.current.kind = t.kind := by
      rw [current_kind hb, Token.kind_unplaced]
    have hne : t.unplaced.kind ≠ .eof := by
      intro heof
      rw [Token.kind_unplaced] at heof
      rw [heof] at hwf
      cases hwf
    rw [hkind, if_pos hwf]
    refine (takes_skip hc hb hne).bind fun _ c₁ _ hb₁ hc₁ => takes_pure ?_ hb₁ hc₁
    simp only [Expr.unplaced, current_unplaced hb]
  | ref name =>
    simp only [Expr.wellFormed, decide_eq_true_eq] at hwf
    have hkind : c.current.kind = .identifier := by
      rw [current_kind hb, Token.kind_unplaced, hwf]
    rw [hkind, if_neg (by decide), if_pos rfl]
    refine (takes_skip hc hb (by rw [Token.kind_unplaced, hwf]; decide)).bind
      fun _ c₁ _ hb₁ hc₁ => takes_pure ?_ hb₁ hc₁
    simp only [Expr.unplaced, current_unplaced hb]
  | grouping inner pos =>
    simp only [Expr.wellFormed] at hwf
    simp only [Expr.write, List.length_cons, List.length_append, List.length_nil] at hroom
    simp only [Expr.write, List.cons_append, List.append_assoc, List.nil_append] at hb
    have hkind : c.current.kind = .leftParen := current_kind hb
    rw [hkind, if_neg (by decide), if_neg (by decide), if_pos rfl]
    refine (takes_skip hc hb (by simp)).bind fun _ c₁ _ hb₁ hc₁ => ?_
    refine (ih.expression hwf (Nat.zero_le _) hc₁ hb₁ (starts_cons _ rfl) (by omega)).bind
      fun inner' c₂ hinner hb₂ hc₂ => ?_
    refine (takes_expect .parenAfterExpression hc₂ hb₂ rfl (by decide)).bind
      fun _ c₃ _ hb₃ hc₃ => takes_pure ?_ hb₃ hc₃
    simp only [Expr.unplaced, hinner]
  | binary left op right =>
    exact absurd hp (Nat.not_le.mpr (Nat.lt_add_right 2 (Level.rank_of?_lt op.kind)))
  | logical left op right =>
    exact absurd hp (Nat.not_le.mpr (Nat.lt_add_right 2 (Level.rank_of?_lt op.kind)))
  | _ => exact absurd hp (by simp [Expr.precedence])

theorem arguments_succ (ih : Reads room) {args : List Expr} {count : Nat} {c : Cursor}
    {rest : List Token} (hne : args ≠ []) (hwf : Expr.allWellFormed args = true)
    (hcount : count + args.length ≤ maxArgs) (hc : Ready c)
    (hb : c.bare = withCommas (Expr.writeEach args) ++ rest)
    (hclose : Starts (· = .rightParen) rest)
    (hroom : 16 * (withCommas (Expr.writeEach args)).length + 13 ≤ room + 1) :
    Takes (Grammar.arguments (room + 1) count) c rest fun as =>
      Expr.unplacedAll as = Expr.unplacedAll args := by
  rw [arguments_eq]
  cases args with
  | nil => exact absurd rfl hne
  | cons e es =>
    simp only [Expr.allWellFormed, Bool.and_eq_true] at hwf
    simp only [List.length_cons] at hcount
    refine (takes_withinLimit .tooManyArguments (by omega) rfl hc).bind
      fun _ c₁ _ hb₁ hc₁ => ?_
    rw [hb] at hb₁
    cases es with
    | nil =>
      simp only [Expr.writeEach, withCommas] at hb₁ hroom
      have hstop : Stops 0 rest := hclose.imp fun k hk => by rw [hk]; rfl
      have hcomma : Starts (fun k => k ≠ .comma) rest := hclose.imp fun k hk => by rw [hk]; decide
      have hread := ih.expression hwf.1 (Nat.zero_le _) hc₁ hb₁ hstop (by omega)
      refine (takes_last hread hcomma).imp ?_
      intro as has
      obtain ⟨e', rfl, he'⟩ := has
      simp only [Expr.unplacedAll, he']
    | cons e₁ es =>
      simp only [Expr.writeEach, withCommas_cons_cons, List.append_assoc, List.cons_append] at hb₁
      simp only [Expr.writeEach, withCommas_cons_cons, List.length_append,
        List.length_cons] at hroom
      have hread := ih.expression hwf.1 (Nat.zero_le _) hc₁ hb₁ (starts_cons _ rfl) (by omega)
      refine (takes_more hread fun c₂ hb₂ hc₂ => ih.arguments (List.cons_ne_nil _ _) hwf.2 ?_ hc₂
        hb₂ hclose ?_).imp ?_
      · simp only [List.length_cons] at hcount ⊢
        omega
      · simp only [Expr.writeEach]
        omega
      · intro as has
        obtain ⟨e', more, rfl, he', hmore⟩ := has
        rw [Expr.unplacedAll, Expr.unplacedAll, he', hmore]

end Rules

/-- **The rules of expressions take what is written**, whatever the room, if it is enough. -/
theorem reads : ∀ room, Reads room := by
  intro room
  induction room using Nat.strongRecOn with
  | ind room ih =>
    cases room with
    | zero =>
      refine ⟨readsExpr_zero (by decide), fun o => readsExpr_zero ?_, readsExpr_zero (by decide),
        ?_, ?_⟩
      · cases o with
        | none => decide
        | some l => exact Nat.sub_pos_of_lt (Nat.lt_of_lt_of_le l.rank_lt (by decide))
      · intro e c rest _ _ _ _ hroom
        omega
      · intro args count c rest _ _ _ _ _ _ hroom
        omega
    | succ room =>
      have ih' : ∀ r ≤ room, Reads r := fun r hr => ih r (Nat.lt_succ_of_le hr)
      have hlast := ih' room (Nat.le_refl _)
      exact ⟨expression_succ hlast, operand_succ ih', unary_succ ih', primary_succ hlast,
        arguments_succ hlast⟩

end FencedCode
