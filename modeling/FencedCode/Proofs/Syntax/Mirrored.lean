import FencedCode.Proofs.Syntax.Drawn
import Mathlib.Data.List.Forall2

/-!
# Tokens at other places

Two texts may have the same tokens at other places. How much of the places differs is left open: `g`
is what is kept of a place. It may be nothing, or all but the offset.

* `Token.mapPos`, `Expr.mapPos`, `Stmt.mapPos` -- trees in which `g` of each place stands;
* `returnLines` -- behind which of the `RETURN`s in a list of tokens the line goes on;
* `Mirrored`, `Cursor.Mirrors` -- tokens, and cursors before tokens, that are the same up to `g`;
* `Cursor.MirrorsRecovery` -- **a recovery comes to such cursors from such cursors.**
-/

namespace FencedCode

open Parse Grammar

/-! ## 1. Trees with other places -/

section Maps

variable (g : Position → Position)

/-- A token at another place. -/
def Token.mapPos (t : Token) : Token :=
  { t with pos := g t.pos }

@[simp]
theorem Token.kind_mapPos (t : Token) : (t.mapPos g).kind = t.kind := rfl

mutual

/-- An expression at other places. -/
def Expr.mapPos : Expr → Expr
  | .literal t => .literal (t.mapPos g)
  | .grouping e p => .grouping e.mapPos (g p)
  | .unary op e => .unary (op.mapPos g) e.mapPos
  | .binary l op r => .binary l.mapPos (op.mapPos g) r.mapPos
  | .logical l op r => .logical l.mapPos (op.mapPos g) r.mapPos
  | .ref name => .ref (name.mapPos g)
  | .assign name value => .assign (name.mapPos g) value.mapPos
  | .call callee paren args => .call callee.mapPos (paren.mapPos g) (Expr.mapPosAll args)

/-- Expressions at other places. -/
def Expr.mapPosAll : List Expr → List Expr
  | [] => []
  | e :: es => e.mapPos :: Expr.mapPosAll es

end

/-- A type name at another place. -/
def TypeName.mapPos (t : TypeName) : TypeName :=
  ⟨t.type, t.token.mapPos g⟩

/-- A parameter at other places. -/
def Param.mapPos (p : Param) : Param :=
  ⟨p.type.mapPos g, p.name.mapPos g⟩

mutual

/-- A statement at other places. -/
def Stmt.mapPos : Stmt → Stmt
  | .expression e => .expression (e.mapPos g)
  | .display keyword e => .display (keyword.mapPos g) (e.mapPos g)
  | .scan keyword names => .scan (keyword.mapPos g) (names.map (Token.mapPos g))
  | .conditional keyword condition body others =>
    .conditional (keyword.mapPos g) (condition.mapPos g) (Stmt.mapPosAll body) others.mapPos
  | .loop keyword condition body =>
    .loop (keyword.mapPos g) (condition.mapPos g) (Stmt.mapPosAll body)
  | .block opening body => .block (opening.mapPos g) (Stmt.mapPosAll body)
  | .function name params body result =>
    .function (name.mapPos g) (params.map (Param.mapPos g)) (Stmt.mapPosAll body)
      (result.map (TypeName.mapPos g))
  | .ret keyword value => .ret (keyword.mapPos g) (value.map (Expr.mapPos g))
  | .declare type name init isMutable =>
    .declare type (name.mapPos g) (init.map (Expr.mapPos g)) isMutable

/-- Statements at other places. -/
def Stmt.mapPosAll : List Stmt → List Stmt
  | [] => []
  | s :: ss => s.mapPos :: Stmt.mapPosAll ss

/-- Bodies at other places. -/
def Stmt.mapPosBodies : List (List Stmt) → List (List Stmt)
  | [] => []
  | body :: bodies => Stmt.mapPosAll body :: Stmt.mapPosBodies bodies

/-- A body at other places, if there is one. -/
def Stmt.mapPosLast : Option (List Stmt) → Option (List Stmt)
  | none => none
  | some body => some (Stmt.mapPosAll body)

/-- Alternatives at other places. -/
def Alternatives.mapPos : Alternatives → Alternatives
  | .mk conditions bodies last =>
    .mk (Expr.mapPosAll g conditions) (Stmt.mapPosBodies bodies) (Stmt.mapPosLast last)

end

theorem Alternatives.mapPos_otherwise (body : List Stmt) :
    (otherwise body).mapPos g = otherwise (Stmt.mapPosAll g body) := rfl

theorem Alternatives.mapPos_elseIf (condition : Expr) (body : List Stmt) (others : Alternatives) :
    (elseIf condition body others).mapPos g =
      elseIf (condition.mapPos g) (Stmt.mapPosAll g body) (others.mapPos g) := by
  cases others
  rfl

theorem Expr.mapPosAll_eq_map (es : List Expr) : mapPosAll g es = es.map (mapPos g) := by
  induction es with
  | nil => rfl
  | cons e es ih => exact congrArg (e.mapPos g :: ·) ih

theorem Stmt.mapPosAll_eq_map (ss : List Stmt) : Stmt.mapPosAll g ss = ss.map (Stmt.mapPos g) := by
  induction ss with
  | nil => rfl
  | cons s ss ih => exact congrArg (s.mapPos g :: ·) ih

@[simp]
theorem Stmt.mapPosAll_append (ss ts : List Stmt) :
    mapPosAll g (ss ++ ts) = mapPosAll g ss ++ mapPosAll g ts := by
  simp only [mapPosAll_eq_map, List.map_append]

theorem Level.mapPos_combine (l : Level) (left : Expr) (op : Token) (right : Expr) :
    (l.combine left op right).mapPos g =
      l.combine (left.mapPos g) (op.mapPos g) (right.mapPos g) := by
  cases l <;> simp [combine, Expr.mapPos]

end Maps

/-! ### No places at all -/

theorem Token.mapPos_none (t : Token) : t.mapPos (fun _ => .none) = t.unplaced :=
  rfl

theorem TypeName.mapPos_none (t : TypeName) : t.mapPos (fun _ => .none) = t.unplaced :=
  rfl

theorem Param.mapPos_none (p : Param) : p.mapPos (fun _ => .none) = p.unplaced :=
  rfl

/-- Expressions that lose their places. -/
theorem Expr.mapPos_none_all : (∀ e : Expr, e.mapPos (fun _ => .none) = e.unplaced) ∧
    ∀ es : List Expr, mapPosAll (fun _ => .none) es = unplacedAll es := by
  refine Expr.mapPos.mutual_induct _ _ ?literal ?grouping ?unary ?binary ?logical ?ref ?assign
    ?call ?nil ?cons
  case literal => intro t; rw [mapPos, unplaced, Token.mapPos_none]
  case grouping => intro e p ih; rw [mapPos, unplaced, ih]
  case unary => intro op e ih; rw [mapPos, unplaced, ih, Token.mapPos_none]
  case binary => intro l op r ihl ihr; rw [mapPos, unplaced, ihl, ihr, Token.mapPos_none]
  case logical => intro l op r ihl ihr; rw [mapPos, unplaced, ihl, ihr, Token.mapPos_none]
  case ref => intro name; rw [mapPos, unplaced, Token.mapPos_none]
  case assign => intro name value ih; rw [mapPos, unplaced, ih, Token.mapPos_none]
  case call =>
    intro callee paren args ih ihs
    rw [mapPos, unplaced, ih, ihs, Token.mapPos_none]
  case nil => rw [mapPosAll, unplacedAll]
  case cons => intro e es ih ihs; rw [mapPosAll, unplacedAll, ih, ihs]

theorem Expr.mapPos_none (e : Expr) : e.mapPos (fun _ => .none) = e.unplaced :=
  mapPos_none_all.1 e

/-- Statements and alternatives that lose their places. -/
theorem Stmt.mapPos_none_all : (∀ s : Stmt, s.mapPos (fun _ => .none) = s.unplaced) ∧
    (∀ o : Alternatives, o.mapPos (fun _ => .none) = o.unplaced) ∧
    (∀ last : Option (List Stmt), Stmt.mapPosLast (fun _ => .none) last = Stmt.unplacedLast last) ∧
    (∀ ss : List Stmt, Stmt.mapPosAll (fun _ => .none) ss = Stmt.unplacedAll ss) ∧
    ∀ bs : List (List Stmt), Stmt.mapPosBodies (fun _ => .none) bs = Stmt.unplacedBodies bs := by
  refine Stmt.mapPos.mutual_induct _ _ _ _ _ ?expression ?display ?scan ?conditional ?loop ?block
    ?function ?ret ?declare ?alternatives ?nil ?cons ?noBody ?body ?noLast ?last
  case expression => intro e; rw [mapPos, unplaced, e.mapPos_none]
  case display => intro keyword e; rw [mapPos, unplaced, e.mapPos_none, Token.mapPos_none]
  case scan => intro keyword names; rw [mapPos, unplaced, funext Token.mapPos_none]
  case conditional =>
    intro keyword condition body others ihs iho
    rw [mapPos, unplaced, condition.mapPos_none, ihs, iho, Token.mapPos_none]
  case loop =>
    intro keyword condition body ihs
    rw [mapPos, unplaced, condition.mapPos_none, ihs, Token.mapPos_none]
  case block => intro opening body ihs; rw [mapPos, unplaced, ihs, Token.mapPos_none]
  case function =>
    intro name params body result ihs
    rw [mapPos, unplaced, ihs, funext Param.mapPos_none, funext TypeName.mapPos_none,
      Token.mapPos_none]
  case ret =>
    intro keyword value
    rw [mapPos, unplaced, funext Expr.mapPos_none, Token.mapPos_none]
  case declare =>
    intro type name init isMutable
    rw [mapPos, unplaced, funext Expr.mapPos_none, Token.mapPos_none]
  case alternatives =>
    intro conditions bodies last ihs ihl
    rw [Alternatives.mapPos, Alternatives.unplaced, Expr.mapPos_none_all.2, ihs, ihl]
  case nil => rw [mapPosAll, unplacedAll]
  case cons => intro s ss ih ihs; rw [mapPosAll, unplacedAll, ih, ihs]
  case noBody => rw [mapPosBodies, unplacedBodies]
  case body => intro body bodies ihs ihb; rw [mapPosBodies, unplacedBodies, ihs, ihb]
  case noLast => rw [mapPosLast, unplacedLast]
  case last => intro body ihs; rw [mapPosLast, unplacedLast, ihs]

theorem Stmt.mapPosAll_none (ss : List Stmt) :
    Stmt.mapPosAll (fun _ => .none) ss = Stmt.unplacedAll ss :=
  mapPos_none_all.2.2.2.1 ss

/-! ## 2. Tokens that differ in their places -/

variable {g : Position → Position}

/-- For each `RETURN` but one at the very end: does the token behind it stand on its line? -/
def returnLines : List Token → List Bool
  | t :: u :: rest =>
    if t.kind = .kwReturn then decide (u.line = t.line) :: returnLines (u :: rest)
    else returnLines (u :: rest)
  | _ => []

/-- Behind `RETURN`s only lines matter. -/
theorem returnLines_mapPos (hg : ∀ p, (g p).line = p.line) : ∀ ts : List Token,
    returnLines (ts.map (Token.mapPos g)) = returnLines ts
  | [] => rfl
  | [_] => rfl
  | t :: u :: rest => by
    have hrest := returnLines_mapPos hg (u :: rest)
    have hline (v : Token) : (v.mapPos g).line = v.line := hg v.pos
    simp only [List.map_cons] at hrest
    simp only [List.map_cons, returnLines, Token.kind_mapPos, hline, hrest]

/-- The same tokens up to `g`, with the same lines behind `RETURN`s. -/
structure Mirrored (g : Position → Position) (ts us : List Token) : Prop where
  tokens : ts.map (Token.mapPos g) = us.map (Token.mapPos g)
  lines : returnLines ts = returnLines us

theorem Token.kind_eq {t u : Token} (h : t.mapPos g = u.mapPos g) : t.kind = u.kind := by
  rw [← t.kind_mapPos g, h, u.kind_mapPos]

/-- Lists with the same image correspond entry by entry. -/
theorem forall₂_of_map_eq {α β : Type} {f : α → β} {A : α → α → Prop} : ∀ {as bs : List α},
    as.map f = bs.map f → (∀ a ∈ as, ∀ b ∈ bs, f a = f b → A a b) → List.Forall₂ A as bs
  | [], [], _, _ => .nil
  | [], _ :: _, h, _ => absurd h.symm (List.cons_ne_nil _ _)
  | _ :: _, [], h, _ => absurd h (List.cons_ne_nil _ _)
  | a :: as, b :: bs, h, hA => by
    obtain ⟨hhead, htail⟩ := List.cons.inj h
    refine .cons (hA a List.mem_cons_self b List.mem_cons_self hhead) ?_
    exact forall₂_of_map_eq htail fun x hx y hy =>
      hA x (List.mem_cons_of_mem _ hx) y (List.mem_cons_of_mem _ hy)

/-- Entries that correspond have the same image. -/
theorem map_eq_of_forall₂ {α β : Type} {f : α → β} {A : α → α → Prop} {as bs : List α}
    (h : List.Forall₂ A as bs) (hA : ∀ {a b}, A a b → f a = f b) : as.map f = bs.map f := by
  rw [← List.forall₂_eq_eq_eq, List.forall₂_map_left_iff, List.forall₂_map_right_iff]
  exact h.imp fun _ _ => hA

/-- Both lists are empty, or none is. -/
theorem Token.nil_or_cons {ts us : List Token}
    (h : ts.map (Token.mapPos g) = us.map (Token.mapPos g)) :
    (ts = [] ∧ us = []) ∨ ∃ t ts' u us', ts = t :: ts' ∧ us = u :: us' := by
  rcases ts with _ | ⟨t, ts⟩ <;> rcases us with _ | ⟨u, us⟩
  · exact .inl ⟨rfl, rfl⟩
  · exact absurd h.symm (List.cons_ne_nil _ _)
  · exact absurd h (List.cons_ne_nil _ _)
  · exact .inr ⟨t, ts, u, us, rfl, rfl⟩

namespace Mirrored

variable {t u a b : Token} {ts us : List Token}

/-- If `g` keeps the lines, nothing more is asked than the same tokens. -/
theorem of_tokens (hg : ∀ p, (g p).line = p.line)
    (h : ts.map (Token.mapPos g) = us.map (Token.mapPos g)) : Mirrored g ts us :=
  ⟨h, by rw [← returnLines_mapPos hg ts, h, returnLines_mapPos hg us]⟩

theorem length_eq (h : Mirrored g ts us) : ts.length = us.length := by
  have hlength := congrArg List.length h.tokens
  rwa [List.length_map, List.length_map] at hlength

theorem head (h : Mirrored g (t :: ts) (u :: us)) : t.mapPos g = u.mapPos g :=
  (List.cons.inj h.tokens).1

theorem tail (h : Mirrored g (t :: ts) (u :: us)) : Mirrored g ts us := by
  have htokens := (List.cons.inj h.tokens).2
  refine ⟨htokens, ?_⟩
  obtain ⟨rfl, rfl⟩ | ⟨a, ts, b, us, rfl, rfl⟩ := Token.nil_or_cons htokens
  · rfl
  · have hlines := h.lines
    simp only [returnLines, Token.kind_eq h.head] at hlines
    split at hlines
    · exact (List.cons.inj hlines).2
    · exact hlines

/-- Behind a `RETURN` the line goes on in both texts or in none. -/
theorem line_iff (h : Mirrored g (t :: a :: ts) (u :: b :: us)) (ht : t.kind = .kwReturn) :
    a.line = t.line ↔ b.line = u.line := by
  have hlines := h.lines
  have hu : u.kind = .kwReturn := (Token.kind_eq h.head).symm.trans ht
  simp only [returnLines, ht, hu, if_true] at hlines
  exact decide_eq_decide.mp (List.cons.inj hlines).1

end Mirrored

/-! ## 3. Cursors -/

/-- The same complaint about tokens that are the same up to `g`. -/
inductive Diagnostic.Mirrors (g : Position → Position) : Diagnostic → Diagnostic → Prop where
  | atToken {t u : Token} (e : SyntaxError) :
    t.mapPos g = u.mapPos g → Mirrors g (.atToken t e) (.atToken u e)

/-- A complaint without its place. -/
def Diagnostic.unplaced (d : Diagnostic) : Diagnostic :=
  { d with line := 0, column := 0 }

theorem Diagnostic.Mirrors.unplaced {d d' : Diagnostic} (h : d.Mirrors g d') :
    d.unplaced = d'.unplaced := by
  obtain ⟨e, htu⟩ := h
  obtain ⟨hkind, hlexeme, _, _⟩ := Token.mk.inj htu
  simp only [Diagnostic.unplaced, Diagnostic.atToken, hkind, hlexeme]

namespace Cursor

/-- Cursors before tokens that are the same up to `g`, with the same complaints so far. -/
structure Mirrors (g : Position → Position) (c c' : Cursor) : Prop where
  previous : c.previous.mapPos g = c'.previous.mapPos g
  tokens : Mirrored g c.tokens c'.tokens
  reported : List.Forall₂ (Diagnostic.Mirrors g) c.reported c'.reported

/-- A recovery that looks at no places. -/
def MirrorsRecovery (g : Position → Position) (recover : Cursor → Cursor) : Prop :=
  ∀ ⦃c c' : Cursor⦄, c.Mirrors g c' → (recover c).Mirrors g (recover c')

section Moves

variable {c c' : Cursor}

theorem Mirrors.current (h : c.Mirrors g c') : c.current.mapPos g = c'.current.mapPos g :=
  h.tokens.head

theorem Mirrors.next (h : c.Mirrors g c') : c.next.mapPos g = c'.next.mapPos g := by
  obtain ⟨hrest, hrest'⟩ | ⟨t, rest, t', rest', hrest, hrest'⟩ :=
    Token.nil_or_cons h.tokens.tail.tokens
  · rw [next_of_nil hrest, next_of_nil hrest']
    exact h.current
  · have hbehind := h.tokens.tail
    rw [hrest, hrest'] at hbehind
    rw [next_of_cons hrest, next_of_cons hrest']
    exact hbehind.head

theorem Mirrors.isAt (h : c.Mirrors g c') (k : Kind) : c.isAt k = c'.isAt k := by
  unfold Cursor.isAt
  rw [Token.kind_eq h.current]

theorem Mirrors.report (h : c.Mirrors g c') {t t' : Token} (ht : t.mapPos g = t'.mapPos g)
    (e : SyntaxError) : (c.report t e).Mirrors g (c'.report t' e) :=
  ⟨h.previous, h.tokens, .cons (.atToken e ht) h.reported⟩

theorem mirrorsRecovery_advance : MirrorsRecovery g advance := by
  intro c c' h
  obtain ⟨previous, current, rest, reported⟩ := c
  obtain ⟨previous', current', rest', reported'⟩ := c'
  unfold advance
  rw [h.isAt]
  split
  · exact h
  · obtain ⟨rfl, rfl⟩ | ⟨t, rest, t', rest', rfl, rfl⟩ := Token.nil_or_cons h.tokens.tail.tokens
    · exact h
    · exact ⟨h.current, h.tokens.tail, h.reported⟩

/-- Behind a `RETURN` the line goes on for both cursors or for none. At the very end the cursors
    stay at the `RETURN`. -/
theorem Mirrors.line_iff (h : c.Mirrors g c') (hk : c.current.kind = .kwReturn) :
    c.advance.current.line = c.current.line ↔ c'.advance.current.line = c'.current.line := by
  obtain ⟨previous, current, rest, reported⟩ := c
  obtain ⟨previous', current', rest', reported'⟩ := c'
  have hk' : current'.kind = .kwReturn := (Token.kind_eq h.current).symm.trans hk
  simp only at hk
  simp only [advance, Cursor.isAt, hk, hk', reduceCtorEq, decide_false, Bool.false_eq_true,
    if_false]
  obtain ⟨rfl, rfl⟩ | ⟨t, rest, t', rest', rfl, rfl⟩ := Token.nil_or_cons h.tokens.tail.tokens
  · exact iff_of_true rfl rfl
  · exact h.tokens.line_iff hk

/-! ### Recovery -/

theorem toBoundary_mirrors : ∀ {rest rest' : List Token} {p p' t t' : Token},
    p.mapPos g = p'.mapPos g → Mirrored g (t :: rest) (t' :: rest') →
    (toBoundary p t rest).1.mapPos g = (toBoundary p' t' rest').1.mapPos g ∧
      Mirrored g ((toBoundary p t rest).2.1 :: (toBoundary p t rest).2.2)
        ((toBoundary p' t' rest').2.1 :: (toBoundary p' t' rest').2.2)
  | [], [], _, _, _, _, hp, h => ⟨hp, h⟩
  | [], _ :: _, _, _, _, _, _, h => absurd h.tail.tokens.symm (List.cons_ne_nil _ _)
  | _ :: _, [], _, _, _, _, _, h => absurd h.tail.tokens (List.cons_ne_nil _ _)
  | u :: rest, u' :: rest', p, p', t, t', hp, h => by
    simp only [toBoundary, Token.kind_eq hp, Token.kind_eq h.head]
    split
    · exact ⟨hp, h⟩
    · exact toBoundary_mirrors h.head h.tail

theorem toFunctionEnd_mirrors : ∀ {rest rest' : List Token} {p p' t t' : Token},
    p.mapPos g = p'.mapPos g → Mirrored g (t :: rest) (t' :: rest') →
    (toFunctionEnd p t rest).1.mapPos g = (toFunctionEnd p' t' rest').1.mapPos g ∧
      Mirrored g ((toFunctionEnd p t rest).2.1 :: (toFunctionEnd p t rest).2.2)
        ((toFunctionEnd p' t' rest').2.1 :: (toFunctionEnd p' t' rest').2.2)
  | [], [], _, _, _, _, hp, h => ⟨hp, h⟩
  | [], _ :: _, _, _, _, _, _, h => absurd h.tail.tokens.symm (List.cons_ne_nil _ _)
  | _ :: _, [], _, _, _, _, _, h => absurd h.tail.tokens (List.cons_ne_nil _ _)
  | u :: rest, u' :: rest', p, p', t, t', hp, h => by
    simp only [toFunctionEnd, Token.kind_eq h.head, Token.kind_eq h.tail.head]
    split
    · exact ⟨hp, h⟩
    split
    · obtain ⟨rfl, rfl⟩ | ⟨w, rest, w', rest', rfl, rfl⟩ := Token.nil_or_cons h.tail.tail.tokens
      · exact ⟨h.head, h.tail⟩
      · exact ⟨h.tail.head, h.tail.tail⟩
    · exact toFunctionEnd_mirrors h.head h.tail

theorem mirrorsRecovery_toBoundary : MirrorsRecovery g fun c => c.walked toBoundary := by
  intro c c' h
  obtain ⟨hprevious, htokens⟩ := toBoundary_mirrors h.previous h.tokens
  exact ⟨hprevious, htokens, h.reported⟩

theorem mirrorsRecovery_synchronize : MirrorsRecovery g synchronize := by
  intro c c' h
  have hstart : (if c.isAt .kwEnd then c else c.advance).Mirrors g
      (if c'.isAt .kwEnd then c' else c'.advance) := by
    rw [h.isAt]
    split
    · exact h
    · exact mirrorsRecovery_advance h
  exact mirrorsRecovery_toBoundary hstart

theorem mirrorsRecovery_skipFunction : MirrorsRecovery g skipFunction := by
  intro c c' h
  obtain ⟨hprevious, htokens⟩ := toFunctionEnd_mirrors h.previous h.tokens
  exact ⟨hprevious, htokens, h.reported⟩

end Moves

end Cursor

end FencedCode
