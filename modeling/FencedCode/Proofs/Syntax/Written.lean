import FencedCode.Syntax.Grammar

/-!
# Well-formed trees and how they are written

The grammar seen from the side of the trees: which trees obey it, and the tokens that each of them
is written with.

* `Expr.precedence`, `Expr.wellFormed` -- operands bind tightly enough for the place they stand
  at, and all that binds less stands in parentheses;
* `Stmt.wellFormed`, `inOrder` -- the bodies of programs, functions and blocks have their parts in
  order, and the other fenced bodies hold statements only;
* `Expr.write`, `Stmt.write`, `writeProgram` -- the tokens of a tree, without places;
* `Expr.unplaced`, `Stmt.unplaced` -- a tree without the places of its tokens.
-/

namespace FencedCode

open Grammar

/-! ## 1. Precedence -/

namespace Level

/-- The level of an operator. -/
def of? : Kind → Option Level
  | .kwOr => some or
  | .kwAnd => some and
  | .equalEqual | .notEqual => some equality
  | .greater | .greaterEqual | .less | .lessEqual => some comparison
  | .plus | .minus | .ampersand => some sum
  | .star | .slash | .percent => some product
  | _ => none

/-- Levels by how tightly they bind. -/
def rank : Level → Nat
  | or => 1
  | and => 2
  | equality => 3
  | comparison => 4
  | sum => 5
  | product => 6

/-- Do the operators of the level combine truth values? -/
def isLogical : Level → Bool
  | or | and => true
  | _ => false

end Level

namespace Expr

/-- How tightly an expression binds: an assignment least of all, then the levels of operators,
    then prefix operators, calls, and what stands alone. -/
def precedence : Expr → Nat
  | assign _ _ => 0
  | binary _ op _ => ((Level.of? op.kind).map Level.rank).getD 0
  | logical _ op _ => ((Level.of? op.kind).map Level.rank).getD 0
  | unary _ _ => 7
  | call _ _ _ => 8
  | literal _ => 9
  | grouping _ _ => 9
  | ref _ => 9

mutual

/-- Does an expression obey the grammar? Operators of one level associate to the left. -/
def wellFormed : Expr → Bool
  | literal t => isLiteral t.kind
  | grouping e _ => e.wellFormed
  | ref name => name.kind = .identifier
  | assign name value => name.kind = .identifier && value.wellFormed
  | unary op operand => isSign op.kind && 7 ≤ operand.precedence && operand.wellFormed
  | binary left op right =>
    (match Level.of? op.kind with
      | some l => !l.isLogical && l.rank ≤ left.precedence && l.rank < right.precedence
      | none => false) && left.wellFormed && right.wellFormed
  | logical left op right =>
    (match Level.of? op.kind with
      | some l => l.isLogical && l.rank ≤ left.precedence && l.rank < right.precedence
      | none => false) && left.wellFormed && right.wellFormed
  | call callee paren args =>
    8 ≤ callee.precedence && callee.wellFormed && paren.kind = .rightParen
      && args.length ≤ maxArgs && allWellFormed args

/-- Do all of the expressions obey the grammar? -/
def allWellFormed : List Expr → Bool
  | [] => true
  | e :: es => e.wellFormed && allWellFormed es

end

end Expr

/-! ## 2. Statements in order -/

/-- The parts that bodies are made of. -/
inductive Part where
  | declaration
  | function
  | statement
  deriving DecidableEq, Repr

/-- The part of a body that a statement belongs to. -/
def Stmt.part : Stmt → Part
  | declare _ _ _ _ => .declaration
  | function _ _ _ _ => .function
  | _ => .statement

/-- Do the statements consist of the given parts, one after another? -/
def inOrder : List Part → List Stmt → Bool
  | [], ss => ss.isEmpty
  | p :: ps, ss => inOrder ps (ss.dropWhile fun s => s.part = p)

/-- The parts of a whole program. -/
def programParts : List Part := [.function, .declaration, .statement]

/-- The parts of the body of a function or block. -/
def bodyParts : List Part := [.declaration, .function, .statement]

/-- Is the word of a type name the type's? -/
def TypeName.wellFormed (t : TypeName) : Bool :=
  t.token.kind = .type t.type

/-- Does a parameter obey the grammar? -/
def Param.wellFormed (p : Param) : Bool :=
  p.type.wellFormed && p.name.kind = .identifier

mutual

/-- Does a statement obey the grammar? -/
def Stmt.wellFormed : Stmt → Bool
  | .expression e => e.wellFormed
  | .display keyword e => keyword.kind = .kwDisplay && e.wellFormed
  | .scan keyword names =>
    keyword.kind = .kwScan && !names.isEmpty && names.all fun n => n.kind = .identifier
  | .conditional keyword condition body others =>
    keyword.kind = .kwIf && condition.wellFormed && inOrder [.statement] body
      && Stmt.allWellFormed body && others.wellFormed
  | .loop keyword condition body =>
    keyword.kind = .kwWhile && condition.wellFormed && inOrder [.statement] body
      && Stmt.allWellFormed body
  | .block opening body =>
    opening.kind = .kwBegin && inOrder bodyParts body && Stmt.allWellFormed body
  | .function name params body result =>
    name.kind = .identifier && params.length ≤ maxArgs && params.all Param.wellFormed
      && result.all TypeName.wellFormed && inOrder bodyParts body && Stmt.allWellFormed body
  | .ret keyword none => keyword.kind = .kwReturn
  | .ret keyword (some e) => keyword.kind = .kwReturn && e.wellFormed
  | .declare _ name none _ => name.kind = .identifier
  | .declare _ name (some e) _ => name.kind = .identifier && e.wellFormed

/-- Do all of the statements obey the grammar? -/
def Stmt.allWellFormed : List Stmt → Bool
  | [] => true
  | s :: ss => s.wellFormed && Stmt.allWellFormed ss

/-- Do all of the fenced bodies obey the grammar? -/
def Stmt.bodiesWellFormed : List (List Stmt) → Bool
  | [] => true
  | body :: bodies =>
    inOrder [.statement] body && Stmt.allWellFormed body && Stmt.bodiesWellFormed bodies

/-- Does a fenced body obey the grammar, if there is one? -/
def Stmt.lastWellFormed : Option (List Stmt) → Bool
  | none => true
  | some body => inOrder [.statement] body && Stmt.allWellFormed body

/-- Do the alternatives of a conditional obey the grammar? Each condition has a body. -/
def Alternatives.wellFormed : Alternatives → Bool
  | .mk conditions bodies last =>
    bodies.length = conditions.length && Expr.allWellFormed conditions
      && Stmt.bodiesWellFormed bodies && Stmt.lastWellFormed last

end

/-- Do the statements make a program? -/
def wellFormedProgram (p : List Stmt) : Bool :=
  inOrder programParts p && Stmt.allWellFormed p

/-! ## 3. Trees without places -/

/-- A token without its place. -/
def Token.unplaced (t : Token) : Token :=
  { t with pos := .none }

@[simp]
theorem Token.kind_unplaced (t : Token) : t.unplaced.kind = t.kind := rfl

mutual

/-- An expression without places. -/
def Expr.unplaced : Expr → Expr
  | .literal t => .literal t.unplaced
  | .grouping e _ => .grouping e.unplaced .none
  | .unary op e => .unary op.unplaced e.unplaced
  | .binary l op r => .binary l.unplaced op.unplaced r.unplaced
  | .logical l op r => .logical l.unplaced op.unplaced r.unplaced
  | .ref name => .ref name.unplaced
  | .assign name value => .assign name.unplaced value.unplaced
  | .call callee paren args => .call callee.unplaced paren.unplaced (Expr.unplacedAll args)

/-- Expressions without places. -/
def Expr.unplacedAll : List Expr → List Expr
  | [] => []
  | e :: es => e.unplaced :: Expr.unplacedAll es

end

/-- A type name without its place. -/
def TypeName.unplaced (t : TypeName) : TypeName :=
  ⟨t.type, t.token.unplaced⟩

/-- A parameter without places. -/
def Param.unplaced (p : Param) : Param :=
  ⟨p.type.unplaced, p.name.unplaced⟩

mutual

/-- A statement without places. -/
def Stmt.unplaced : Stmt → Stmt
  | .expression e => .expression e.unplaced
  | .display keyword e => .display keyword.unplaced e.unplaced
  | .scan keyword names => .scan keyword.unplaced (names.map Token.unplaced)
  | .conditional keyword condition body others =>
    .conditional keyword.unplaced condition.unplaced (Stmt.unplacedAll body) others.unplaced
  | .loop keyword condition body =>
    .loop keyword.unplaced condition.unplaced (Stmt.unplacedAll body)
  | .block opening body => .block opening.unplaced (Stmt.unplacedAll body)
  | .function name params body result =>
    .function name.unplaced (params.map Param.unplaced) (Stmt.unplacedAll body)
      (result.map TypeName.unplaced)
  | .ret keyword value => .ret keyword.unplaced (value.map Expr.unplaced)
  | .declare type name init isMutable =>
    .declare type name.unplaced (init.map Expr.unplaced) isMutable

/-- Statements without places. -/
def Stmt.unplacedAll : List Stmt → List Stmt
  | [] => []
  | s :: ss => s.unplaced :: Stmt.unplacedAll ss

/-- Bodies without places. -/
def Stmt.unplacedBodies : List (List Stmt) → List (List Stmt)
  | [] => []
  | body :: bodies => Stmt.unplacedAll body :: Stmt.unplacedBodies bodies

/-- A body without places, if there is one. -/
def Stmt.unplacedLast : Option (List Stmt) → Option (List Stmt)
  | none => none
  | some body => some (Stmt.unplacedAll body)

/-- Alternatives without places. -/
def Alternatives.unplaced : Alternatives → Alternatives
  | .mk conditions bodies last =>
    .mk (Expr.unplacedAll conditions) (Stmt.unplacedBodies bodies) (Stmt.unplacedLast last)

end

/-! ## 4. Written trees -/

/-- The token that a fixed word or sign of the grammar is written with. -/
def Token.word (k : Kind) : Token :=
  ⟨k, k.label, none, .none⟩

@[simp]
theorem Token.kind_word (k : Kind) : (Token.word k).kind = k := rfl

/-- Lists of tokens with a comma between each two. -/
def withCommas : List (List Token) → List Token
  | [] => []
  | [ts] => ts
  | ts :: more => ts ++ Token.word .comma :: withCommas more

theorem withCommas_cons_cons (ts us : List Token) (more : List (List Token)) :
    withCommas (ts :: us :: more) = ts ++ Token.word .comma :: withCommas (us :: more) := rfl

mutual

/-- The tokens of an expression. -/
def Expr.write : Expr → List Token
  | .literal t => [t.unplaced]
  | .grouping e _ => Token.word .leftParen :: e.write ++ [Token.word .rightParen]
  | .unary op e => op.unplaced :: e.write
  | .binary l op r => l.write ++ op.unplaced :: r.write
  | .logical l op r => l.write ++ op.unplaced :: r.write
  | .ref name => [name.unplaced]
  | .assign name value => name.unplaced :: Token.word .assign :: value.write
  | .call callee paren args =>
    callee.write ++ Token.word .leftParen :: withCommas (Expr.writeEach args) ++ [paren.unplaced]

/-- The tokens of each of some expressions. -/
def Expr.writeEach : List Expr → List (List Token)
  | [] => []
  | e :: es => e.write :: Expr.writeEach es

end

/-- The tokens of a parameter. -/
def Param.write (p : Param) : List Token :=
  [p.type.token.unplaced, p.name.unplaced]

/-- The tokens in front of a declared name. -/
def declarationWords (type : BaseType) (isMutable : Bool) : List Token :=
  (if isMutable then [] else [Token.word .kwImmut]) ++ [Token.word (.type type)]

/-- Tokens between a `BEGIN` and an `END`, both followed by the fence. -/
def fencedBy (fence : Kind) (ts : List Token) : List Token :=
  Token.word .kwBegin :: Token.word fence :: ts ++ [Token.word .kwEnd, Token.word fence]

/-- A condition in parentheses. -/
def Expr.writeCondition (e : Expr) : List Token :=
  Token.word .leftParen :: e.write ++ [Token.word .rightParen]

/-- Conditions with the written bodies that belong to them. -/
def writeElseIfs : List Expr → List (List Token) → List Token
  | condition :: conditions, body :: bodies =>
    Token.word .kwElse :: Token.word .kwIf :: condition.writeCondition ++ fencedBy .kwIf body
      ++ writeElseIfs conditions bodies
  | _, _ => []

/-- What ends a declaration or statement: a semicolon, but nothing behind a function. -/
def Part.terminator : Part → List Token
  | .function => []
  | _ => [Token.word .semicolon]

mutual

/-- The tokens of a statement, without the semicolon behind it. -/
def Stmt.write : Stmt → List Token
  | .expression e => e.write
  | .display keyword e => keyword.unplaced :: Token.word .colon :: e.write
  | .scan keyword names =>
    keyword.unplaced :: Token.word .colon :: withCommas (names.map fun n => [n.unplaced])
  | .conditional keyword condition body others =>
    keyword.unplaced :: condition.writeCondition ++ fencedBy .kwIf (Stmt.writeAll body)
      ++ others.write
  | .loop keyword condition body =>
    keyword.unplaced :: condition.writeCondition ++ fencedBy .kwWhile (Stmt.writeAll body)
  | .block opening body => opening.unplaced :: Stmt.writeAll body ++ [Token.word .kwEnd]
  | .function name params body result =>
    Token.word .kwFn :: (result.map fun t => t.token.unplaced).toList
      ++ name.unplaced :: Token.word .leftParen :: withCommas (params.map Param.write)
      ++ Token.word .rightParen :: fencedBy .kwFn (Stmt.writeAll body)
  | .ret keyword none => [keyword.unplaced]
  | .ret keyword (some e) => keyword.unplaced :: e.write
  | .declare type name none isMutable => declarationWords type isMutable ++ [name.unplaced]
  | .declare type name (some e) isMutable =>
    declarationWords type isMutable ++ name.unplaced :: Token.word .assign :: e.write

/-- The tokens of statements, each with its terminator. -/
def Stmt.writeAll : List Stmt → List Token
  | [] => []
  | s :: ss => s.write ++ s.part.terminator ++ Stmt.writeAll ss

/-- The tokens of each of some bodies. -/
def Stmt.writeBodies : List (List Stmt) → List (List Token)
  | [] => []
  | body :: bodies => Stmt.writeAll body :: Stmt.writeBodies bodies

/-- The tokens of a body without a condition, if there is one. -/
def Stmt.writeLast : Option (List Stmt) → List Token
  | none => []
  | some body => Token.word .kwElse :: fencedBy .kwIf (Stmt.writeAll body)

/-- The tokens of the alternatives of a conditional. -/
def Alternatives.write : Alternatives → List Token
  | .mk conditions bodies last =>
    writeElseIfs conditions (Stmt.writeBodies bodies) ++ Stmt.writeLast last

end

/-- The end of the text, as a scan leaves it: without a text of its own. -/
def Token.ending : Token :=
  ⟨.eof, [], none, .none⟩

/-- The tokens of a program: its functions, the rest between fences, and the end of the text. -/
def writeProgram (p : List Stmt) : List Token :=
  Stmt.writeAll (p.takeWhile fun s => s.part = .function)
    ++ fencedBy .kwCode (Stmt.writeAll (p.dropWhile fun s => s.part = .function))
    ++ [Token.ending]

namespace Alternatives

/-- Alternatives of which each condition has a body are nothing, a body without a condition, or a
    condition and its body in front of others. -/
theorem cases_of_length_bodies :
    ∀ {o : Alternatives}, o.bodies.length = o.conditions.length →
      o = done ∨ (∃ body, o = otherwise body) ∨
        ∃ condition body others, o = elseIf condition body others
  | .mk [] [] none, _ => .inl rfl
  | .mk [] [] (some body), _ => .inr (.inl ⟨body, rfl⟩)
  | .mk (c :: cs) (b :: bs) last, _ => .inr (.inr ⟨c, b, .mk cs bs last, rfl⟩)

theorem write_otherwise (body : List Stmt) :
    (otherwise body).write = Token.word .kwElse :: fencedBy .kwIf (Stmt.writeAll body) := rfl

theorem wellFormed_otherwise (body : List Stmt) :
    (otherwise body).wellFormed = (inOrder [.statement] body && Stmt.allWellFormed body) := rfl

theorem unplaced_otherwise (body : List Stmt) :
    (otherwise body).unplaced = otherwise (Stmt.unplacedAll body) := rfl

theorem write_elseIf (condition : Expr) (body : List Stmt) (others : Alternatives) :
    (elseIf condition body others).write = Token.word .kwElse :: Token.word .kwIf ::
      condition.writeCondition ++ fencedBy .kwIf (Stmt.writeAll body) ++ others.write := by
  cases others
  simp only [elseIf, conditions, bodies, last, write, Stmt.writeBodies, writeElseIfs,
    List.append_assoc, List.cons_append]

theorem unplaced_elseIf (condition : Expr) (body : List Stmt) (others : Alternatives) :
    (elseIf condition body others).unplaced =
      elseIf condition.unplaced (Stmt.unplacedAll body) others.unplaced := by
  cases others
  rfl

theorem wellFormed_elseIf (condition : Expr) (body : List Stmt) (others : Alternatives) :
    (elseIf condition body others).wellFormed = (condition.wellFormed && inOrder [.statement] body
      && Stmt.allWellFormed body && others.wellFormed) := by
  cases others
  simp only [elseIf, conditions, bodies, last, wellFormed, Expr.allWellFormed,
    Stmt.bodiesWellFormed, List.length_cons, Nat.add_right_cancel_iff]
  simp only [Bool.and_assoc, Bool.and_left_comm]

/-- In alternatives that obey the grammar each condition has a body. -/
theorem length_bodies_of_wellFormed {o : Alternatives} (ho : o.wellFormed = true) :
    o.bodies.length = o.conditions.length := by
  cases o
  simp only [wellFormed, Bool.and_eq_true, decide_eq_true_eq] at ho
  exact ho.1.1.1

end Alternatives

/-- The tokens behind a declared name. -/
def writeInitializer : Option Expr → List Token
  | none => []
  | some e => Token.word .assign :: e.write

theorem Stmt.write_declare (type : BaseType) (name : Token) (init : Option Expr)
    (isMutable : Bool) : (Stmt.declare type name init isMutable).write =
      declarationWords type isMutable ++ name.unplaced :: writeInitializer init := by
  cases init <;> rfl

theorem Stmt.wellFormed_declare (type : BaseType) (name : Token) (init : Option Expr)
    (isMutable : Bool) : (Stmt.declare type name init isMutable).wellFormed =
      (decide (name.kind = .identifier) && init.all Expr.wellFormed) := by
  cases init with
  | none => exact (Bool.and_true _).symm
  | some e => rfl

/-! ## 5. Levels -/

namespace Level

theorem has_iff (l : Level) (k : Kind) : l.has k = true ↔ of? k = some l := by
  cases l <;> cases k <;> simp [has, of?]

theorem rank_pos (l : Level) : 0 < l.rank := by
  cases l <;> decide

theorem rank_lt (l : Level) : l.rank < 7 := by
  cases l <;> decide

/-- Operators bind less than signs. -/
theorem rank_of?_lt (k : Kind) : ((of? k).map rank).getD 0 < 7 := by
  cases of? k with
  | none => decide
  | some l => exact l.rank_lt

theorem eq_of_rank_eq {l l' : Level} (h : l.rank = l'.rank) : l = l' := by
  cases l <;> cases l' <;> simp_all [rank]

/-- The precedence of what a level takes for its operands; without a level, of unary
    expressions. -/
def tier : Option Level → Nat
  | some l => l.rank
  | none => 7

theorem tier_le (o : Option Level) : tier o ≤ 7 := by
  rcases o with _ | (_ | _ | _ | _ | _ | _) <;> decide

theorem tier_tighter (l : Level) : tier l.tighter = l.rank + 1 := by
  cases l <;> rfl

theorem combine_eq (l : Level) (left : Expr) (op : Token) (right : Expr) :
    l.combine left op right =
      if l.isLogical then .logical left op right else .binary left op right := by
  cases l <;> rfl

@[simp]
theorem write_combine (l : Level) (left : Expr) (op : Token) (right : Expr) :
    (l.combine left op right).write = left.write ++ op.unplaced :: right.write := by
  cases l <;> simp [combine, Expr.write]

@[simp]
theorem unplaced_combine (l : Level) (left : Expr) (op : Token) (right : Expr) :
    (l.combine left op right).unplaced =
      l.combine left.unplaced op.unplaced right.unplaced := by
  cases l <;> simp [combine, Expr.unplaced]

end Level

/-- The operands of an operator bind as its level asks. -/
theorem Expr.wellFormed_binary {left right : Expr} {op : Token}
    (hwf : (Expr.binary left op right).wellFormed = true) :
    ∃ l, Level.of? op.kind = some l ∧ Expr.binary left op right = l.combine left op right ∧
      left.wellFormed = true ∧ l.rank ≤ left.precedence ∧
      right.wellFormed = true ∧ l.rank + 1 ≤ right.precedence := by
  simp only [Expr.wellFormed, Bool.and_eq_true] at hwf
  cases hl : Level.of? op.kind with
  | none => simp [hl] at hwf
  | some l =>
    simp only [hl, Bool.and_eq_true, decide_eq_true_eq] at hwf
    obtain ⟨⟨⟨⟨hnot, hleft⟩, hright⟩, hwl⟩, hwr⟩ := hwf
    refine ⟨l, rfl, ?_, hwl, hleft, hwr, hright⟩
    rw [Level.combine_eq, if_neg (by simpa using hnot)]

theorem Expr.wellFormed_logical {left right : Expr} {op : Token}
    (hwf : (Expr.logical left op right).wellFormed = true) :
    ∃ l, Level.of? op.kind = some l ∧ Expr.logical left op right = l.combine left op right ∧
      left.wellFormed = true ∧ l.rank ≤ left.precedence ∧
      right.wellFormed = true ∧ l.rank + 1 ≤ right.precedence := by
  simp only [Expr.wellFormed, Bool.and_eq_true] at hwf
  cases hl : Level.of? op.kind with
  | none => simp [hl] at hwf
  | some l =>
    simp only [hl, Bool.and_eq_true, decide_eq_true_eq] at hwf
    obtain ⟨⟨⟨⟨hlog, hleft⟩, hright⟩, hwl⟩, hwr⟩ := hwf
    refine ⟨l, rfl, ?_, hwl, hleft, hwr, hright⟩
    rw [Level.combine_eq, if_pos hlog]

/-- The precedence of an operator is the rank of its level. -/
theorem Level.precedence_combine {l : Level} {left right : Expr} {op : Token}
    (hop : Level.of? op.kind = some l) : (l.combine left op right).precedence = l.rank := by
  rw [Level.combine_eq]
  split <;> simp [Expr.precedence, hop]

/-! ## 6. Statements one after another -/

theorem part_of_mem_takeWhile {p : Part} {ss : List Stmt} {s : Stmt}
    (hs : s ∈ ss.takeWhile fun s => s.part = p) : s.part = p := by
  have hall := List.all_takeWhile (l := ss) (p := fun s => decide (s.part = p))
  rw [List.all_eq_true] at hall
  exact of_decide_eq_true (hall s hs)

/-- Statements in order are some of the first part, and the others in order. -/
theorem inOrder_cons {p : Part} {ps : List Part} {ss : List Stmt}
    (h : inOrder (p :: ps) ss = true) :
    ∃ xs ys, ss = xs ++ ys ∧ (∀ s ∈ xs, s.part = p) ∧ inOrder ps ys = true := by
  refine ⟨ss.takeWhile fun s => s.part = p, ss.dropWhile fun s => s.part = p, ?_, ?_, h⟩
  · exact List.takeWhile_append_dropWhile.symm
  · exact fun s => part_of_mem_takeWhile

/-- Where statements of a part end and others begin. -/
theorem span_part {p : Part} {xs ys : List Stmt} (hxs : ∀ s ∈ xs, s.part = p)
    (hys : ∀ s ∈ ys, s.part ≠ p) : (xs ++ ys).takeWhile (fun s => s.part = p) = xs ∧
      (xs ++ ys).dropWhile (fun s => s.part = p) = ys := by
  have hpos : ∀ s ∈ xs, decide (s.part = p) = true := fun s hs => decide_eq_true (hxs s hs)
  rw [List.takeWhile_append_of_pos hpos, List.dropWhile_append_of_pos hpos]
  cases ys with
  | nil => exact ⟨List.append_nil xs, rfl⟩
  | cons y ys =>
    have hy := hys y (List.mem_cons_self ..)
    simp [hy]

/-- Statements of a part can come before statements in order if none of these is of the part. -/
theorem inOrder_append {p : Part} {ps : List Part} {xs ys : List Stmt}
    (hxs : ∀ s ∈ xs, s.part = p) (hys : ∀ s ∈ ys, s.part ≠ p) (h : inOrder ps ys = true) :
    inOrder (p :: ps) (xs ++ ys) = true := by
  show inOrder ps _ = true
  rw [(span_part hxs hys).2]
  exact h

theorem inOrder_nil {ss : List Stmt} (h : inOrder [] ss = true) : ss = [] :=
  List.isEmpty_iff.mp h

theorem inOrder_singleton {p : Part} {ss : List Stmt} (h : inOrder [p] ss = true) :
    ∀ s ∈ ss, s.part = p := by
  obtain ⟨xs, ys, rfl, hxs, hys⟩ := inOrder_cons h
  rw [inOrder_nil hys, List.append_nil]
  exact hxs

theorem inOrder_of_part {p : Part} {ss : List Stmt} (hss : ∀ s ∈ ss, s.part = p) :
    inOrder [p] ss = true := by
  rw [← List.append_nil ss]
  exact inOrder_append hss nofun rfl

namespace Stmt

@[simp]
theorem writeAll_append (ss ts : List Stmt) :
    writeAll (ss ++ ts) = writeAll ss ++ writeAll ts := by
  induction ss with
  | nil => rfl
  | cons s ss ih => simp only [List.cons_append, writeAll, ih, List.append_assoc]

@[simp]
theorem unplacedAll_append (ss ts : List Stmt) :
    unplacedAll (ss ++ ts) = unplacedAll ss ++ unplacedAll ts := by
  induction ss with
  | nil => rfl
  | cons s ss ih => simp only [List.cons_append, unplacedAll, ih]

@[simp]
theorem allWellFormed_append (ss ts : List Stmt) :
    allWellFormed (ss ++ ts) = (allWellFormed ss && allWellFormed ts) := by
  induction ss with
  | nil => rfl
  | cons s ss ih => simp only [List.cons_append, allWellFormed, ih, Bool.and_assoc]

end Stmt

end FencedCode
