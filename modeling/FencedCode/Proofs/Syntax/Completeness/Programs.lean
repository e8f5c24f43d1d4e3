import FencedCode.Proofs.Syntax.Completeness.Expressions

/-!
# Written programs are read back

The rules of declarations and statements take what is written, as those of expressions do. A
semicolon stands behind every statement and an `END` behind every body, so what comes next never
continues what was read.

* `ReadsStmts`, `readsStmts` -- the rules of statements, by induction on the room;
* `takes_program` -- the rule of programs;
* `parse_writeProgram` -- **every well-formed program, written out, is parsed to itself without a
  complaint**, up to places.
-/

namespace FencedCode

open Parse Grammar

/-! ## 1. Conditions, names and parameters -/

section Simple

variable {room : Nat} {c : Cursor} {rest : List Token}

theorem takes_orRecover {α : Type} {p : Parse α} {recover : Cursor → Cursor} {A : α → Prop}
    (hp : Takes p c rest A) :
    Takes (orRecover p recover) c rest fun o => ∃ a, o = some a ∧ A a := by
  obtain ⟨a, c', hrun, ha, hb, hc⟩ := hp
  refine ⟨some a, c', ?_, ⟨a, rfl, ha⟩, hb, hc⟩
  unfold orRecover
  rw [hrun]

/-- An expression that something stands behind which cannot be part of one. -/
theorem takes_expression {e : Expr} (hwf : e.wellFormed = true) (hc : Ready c)
    (hb : c.bare = e.write ++ rest) (hs : Stops 0 rest) (hroom : 16 * e.write.length + 12 ≤ room) :
    Takes (expression room) c rest fun e' => e'.unplaced = e.unplaced :=
  (reads room).expression hwf (Nat.zero_le _) hc hb hs hroom

theorem takes_condition {e : Expr} (keyword : String) (hwf : e.wellFormed = true) (hc : Ready c)
    (hb : c.bare = e.writeCondition ++ rest) (hroom : 16 * e.write.length + 12 ≤ room) :
    Takes (condition room keyword) c rest fun e' => e'.unplaced = e.unplaced := by
  simp only [Expr.writeCondition, List.cons_append, List.append_assoc, List.nil_append] at hb
  refine (takes_expect _ hc hb rfl (by decide)).bind fun _ c₁ _ hb₁ hc₁ => ?_
  refine (takes_expression hwf hc₁ hb₁ (starts_cons _ rfl) hroom).bind fun e' c₂ he' hb₂ hc₂ => ?_
  refine (takes_expect _ hc₂ hb₂ rfl (by decide)).bind fun _ c₃ _ hb₃ hc₃ => ?_
  exact takes_pure he' hb₃ hc₃

theorem takes_names {ns : List Token} (hne : ns ≠ []) (hkind : ∀ n ∈ ns, n.kind = .identifier)
    (hc : Ready c) (hb : c.bare = withCommas (ns.map fun n => [n.unplaced]) ++ rest)
    (hs : Starts (· ≠ .comma) rest) (hroom : ns.length ≤ room) :
    Takes (names room) c rest fun ns' => ns'.map Token.unplaced = ns.map Token.unplaced := by
  induction ns generalizing room c with
  | nil => exact absurd rfl hne
  | cons n ns ih =>
    obtain ⟨k, rfl⟩ : ∃ k, room = k + 1 := Nat.exists_eq_add_one_of_ne_zero (by
      intro heq
      subst heq
      cases hroom)
    have hn := hkind n (List.mem_cons_self ..)
    rw [names_eq]
    cases ns with
    | nil =>
      have hread := takes_expect .identifierAfterScan hc hb hn (by decide)
      refine (takes_last hread hs).imp ?_
      intro ns' hns
      obtain ⟨n', rfl, hn'⟩ := hns
      simp only [List.map_cons, List.map_nil, hn']
    | cons n₁ ns =>
      have hread := takes_expect .identifierAfterScan hc hb hn (by decide)
      refine (takes_more hread fun c₁ hb₁ hc₁ => ih (List.cons_ne_nil _ _)
        (fun m hm => hkind m (List.mem_cons_of_mem n hm)) hc₁ hb₁
        (Nat.le_of_succ_le_succ hroom)).imp ?_
      intro ns' hns
      obtain ⟨n', more, rfl, hn', hmore⟩ := hns
      rw [List.map_cons, List.map_cons, hn', hmore]

theorem takes_typeWord {type : BaseType} {w : Token} (e : SyntaxError) (hc : Ready c)
    (hb : c.bare = w :: rest) (hw : w.kind = .type type) :
    Takes (typeWord e) c rest fun t => t.type = type ∧ t.token.unplaced = w := by
  have hkind : c.current.kind = .type type := (current_kind hb).trans hw
  refine takes_peek ?_
  rw [hkind]
  refine (takes_skip hc hb (by rw [hw]; nofun)).bind fun _ c₁ _ hb₁ hc₁ => ?_
  exact takes_pure ⟨rfl, current_unplaced hb⟩ hb₁ hc₁

theorem takes_resultType {result : Option TypeName} (hwf : result.all TypeName.wellFormed = true)
    (hc : Ready c) (hb : c.bare = (result.map fun t => t.token.unplaced).toList ++ rest)
    (hs : Starts (· = .identifier) rest) :
    Takes resultType c rest fun r => r.map TypeName.unplaced = result.map TypeName.unplaced := by
  refine takes_peek ?_
  cases result with
  | none =>
    have hb' : c.bare = rest := hb
    have hkind : c.current.kind = .identifier := starts_current (hb' ▸ hs)
    rw [hkind]
    exact takes_pure rfl hb hc
  | some t =>
    simp only [Option.all_some, TypeName.wellFormed, decide_eq_true_eq] at hwf
    have hkind : c.current.kind = .type t.type := (current_kind hb).trans hwf
    rw [hkind]
    refine (takes_skip hc hb (by rw [Token.kind_unplaced, hwf]; nofun)).bind
      fun _ c₁ _ hb₁ hc₁ => takes_pure ?_ hb₁ hc₁
    simp only [Option.map_some, TypeName.unplaced, current_unplaced hb]

theorem takes_parameter {p : Param} (hwf : p.wellFormed = true) (hc : Ready c)
    (hb : c.bare = p.write ++ rest) :
    Takes parameter c rest fun p' => p'.unplaced = p.unplaced := by
  simp only [Param.wellFormed, TypeName.wellFormed, Bool.and_eq_true, decide_eq_true_eq] at hwf
  refine (takes_typeWord .parameterType hc hb hwf.1).bind fun t c₁ ht hb₁ hc₁ => ?_
  refine (takes_expect .parameterName hc₁ hb₁ hwf.2 (by decide)).bind
    fun n c₂ hn hb₂ hc₂ => takes_pure ?_ hb₂ hc₂
  simp only [Param.unplaced, TypeName.unplaced, ht.1, ht.2, hn]

theorem takes_parameters {ps : List Param} {count : Nat} (hne : ps ≠ [])
    (hwf : ∀ p ∈ ps, p.wellFormed = true) (hcount : count + ps.length ≤ maxArgs) (hc : Ready c)
    (hb : c.bare = withCommas (ps.map Param.write) ++ rest) (hs : Starts (· ≠ .comma) rest)
    (hroom : ps.length ≤ room) :
    Takes (parameters room count) c rest fun ps' =>
      ps'.map Param.unplaced = ps.map Param.unplaced := by
  induction ps generalizing room count c with
  | nil => exact absurd rfl hne
  | cons p ps ih =>
    obtain ⟨k, rfl⟩ : ∃ k, room = k + 1 := Nat.exists_eq_add_one_of_ne_zero (by
      intro heq
      subst heq
      cases hroom)
    simp only [List.length_cons] at hcount hroom
    rw [parameters_eq]
    refine (takes_withinLimit _ (by omega) hb hc).bind fun _ c₁ _ hb₁ hc₁ => ?_
    have hp := hwf p (List.mem_cons_self ..)
    cases ps with
    | nil =>
      refine (takes_last (takes_parameter hp hc₁ hb₁) hs).imp ?_
      intro ps' hps
      obtain ⟨p', rfl, hp'⟩ := hps
      simp only [List.map_cons, List.map_nil, hp']
    | cons p₁ ps =>
      simp only [List.map_cons, withCommas_cons_cons, List.append_assoc, List.cons_append] at hb₁
      refine (takes_more (takes_parameter hp hc₁ hb₁) fun c₂ hb₂ hc₂ => ih (List.cons_ne_nil _ _)
        (fun q hq => hwf q (List.mem_cons_of_mem p hq)) (by omega) hc₂ hb₂ (by omega)).imp ?_
      intro ps' hps
      obtain ⟨p', more, rfl, hp', hmore⟩ := hps
      rw [List.map_cons, List.map_cons, hp', hmore]

end Simple

/-! ## 2. How statements start -/

/-- Can a token of the kind be the first of a statement? -/
def startsStatement (k : Kind) : Bool :=
  startsExpression k || k = .kwDisplay || k = .kwScan || k = .kwIf || k = .kwWhile || k = .kwBegin
    || k = .kwReturn

theorem startsStatement_spec {k : Kind} (hk : startsStatement k = true) :
    k ≠ .eof ∧ k ≠ .kwEnd ∧ k ≠ .semicolon ∧ k ≠ .kwFn ∧ startsDeclaration k = false := by
  cases k <;> simp_all [startsStatement, startsExpression, isLiteral, isSign, startsDeclaration]

/-- The word that a statement starts with. -/
def Stmt.keyword? : Stmt → Option Kind
  | .display .. => some .kwDisplay
  | .scan .. => some .kwScan
  | .ret .. => some .kwReturn
  | .conditional .. => some .kwIf
  | .loop .. => some .kwWhile
  | .block .. => some .kwBegin
  | _ => none

theorem starts_keyword {s : Stmt} {k : Kind} (hwf : s.wellFormed = true)
    (hk : s.keyword? = some k) : Starts (· = k) s.write := by
  cases s with
  | ret keyword value =>
    cases hk
    cases value with
    | none =>
      simp only [Stmt.wellFormed, decide_eq_true_eq] at hwf
      exact starts_cons _ hwf
    | some e =>
      simp only [Stmt.wellFormed, Bool.and_eq_true, decide_eq_true_eq] at hwf
      exact starts_cons _ hwf.1
  | expression e => cases hk
  | function name params body result => cases hk
  | declare type name init isMutable => cases hk
  | _ =>
    cases hk
    simp only [Stmt.wellFormed, Bool.and_eq_true, decide_eq_true_eq] at hwf
    refine starts_cons _ ?_
    simp [hwf]

theorem starts_statement {s : Stmt} (hwf : s.wellFormed = true) (hp : s.part = .statement) :
    Starts (fun k => startsStatement k = true) s.write := by
  cases s with
  | expression e =>
    refine (starts_write hwf).imp fun k hk => ?_
    rw [startsStatement, hk.1]
    rfl
  | function name params body result => cases hp
  | declare type name init isMutable => cases hp
  | _ => exact (starts_keyword hwf rfl).imp fun k hk => hk ▸ rfl

theorem starts_function {s : Stmt} (hp : s.part = .function) :
    Starts (fun k => k = .kwFn) s.write := by
  cases s with
  | function name params body result => exact starts_cons _ rfl
  | _ => cases hp

theorem starts_declaration {s : Stmt} (hp : s.part = .declaration) :
    Starts (fun k => startsDeclaration k = true) s.write := by
  cases s with
  | declare type name init isMutable =>
    have hs : Starts (fun k => startsDeclaration k = true) (declarationWords type isMutable) := by
      cases isMutable with
      | false => exact starts_cons _ rfl
      | true => exact starts_cons _ rfl
    cases init with
    | none => exact hs.append _
    | some e => exact hs.append _
  | _ => cases hp

theorem starts_writeAll {P : Kind → Prop} {ss : List Stmt} {rest : List Token}
    (hss : ∀ s ∈ ss, Starts P s.write) (hrest : Starts P rest) :
    Starts P (Stmt.writeAll ss ++ rest) := by
  cases ss with
  | nil => exact hrest
  | cons s ss =>
    simp only [Stmt.writeAll, List.append_assoc]
    exact (hss s (List.mem_cons_self ..)).append _

theorem wellFormed_of_mem {ss : List Stmt} (hwf : Stmt.allWellFormed ss = true) :
    ∀ s ∈ ss, s.wellFormed = true := by
  induction ss with
  | nil => nofun
  | cons s ss ih =>
    simp only [Stmt.allWellFormed, Bool.and_eq_true] at hwf
    intro t ht
    rcases List.mem_cons.mp ht with rfl | ht
    · exact hwf.1
    · exact ih hwf.2 t ht

/-- Statements and the `END` behind them start with neither a declaration nor a function. -/
theorem starts_statements {ss : List Stmt} {rest : List Token}
    (hp : ∀ s ∈ ss, s.part = .statement) (hwf : Stmt.allWellFormed ss = true)
    (hs : Starts (· = .kwEnd) rest) :
    Starts (fun k => startsDeclaration k = false ∧ k ≠ .kwFn) (Stmt.writeAll ss ++ rest) := by
  refine starts_writeAll (fun s hs => ?_) (hs.imp ?_)
  · refine (starts_statement (wellFormed_of_mem hwf s hs) (hp s hs)).imp fun k hk => ?_
    obtain ⟨_, _, _, hfn, hdecl⟩ := startsStatement_spec hk
    exact ⟨hdecl, hfn⟩
  · intro k hk
    subst hk
    decide

/-! ## 3. Declarations -/

section Declarations

variable {room : Nat} {c : Cursor} {rest : List Token}

theorem takes_initializer {init : Option Expr} (hwf : init.all Expr.wellFormed = true)
    (hc : Ready c) (hb : c.bare = writeInitializer init ++ rest)
    (hs : Starts (· = .semicolon) rest) (hroom : 16 * (writeInitializer init).length ≤ room) :
    Takes (initializer room) c rest fun i => i.map Expr.unplaced = init.map Expr.unplaced := by
  cases init with
  | none =>
    have hassign : Starts (fun k => k ≠ .assign) rest := hs.imp fun k hk => by rw [hk]; decide
    refine (takes_accept_none hc hb hassign).bind fun b c₁ hfalse hb₁ hc₁ => ?_
    rw [if_neg (by simp [hfalse])]
    exact takes_pure rfl hb₁ hc₁
  | some e =>
    simp only [writeInitializer, List.length_cons] at hroom
    have hstop : Stops 0 rest := hs.imp fun k hk => by rw [hk]; rfl
    refine (takes_accept hc hb rfl (by decide)).bind fun b c₁ htrue hb₁ hc₁ => ?_
    rw [if_pos htrue]
    refine (takes_expression hwf hc₁ hb₁ hstop (by omega)).bind fun e' c₂ he' hb₂ hc₂ => ?_
    refine takes_pure ?_ hb₂ hc₂
    simp only [Option.map_some, he']

/-- A declaration is taken with its semicolon. -/
theorem takes_declaration {s : Stmt} (hp : s.part = .declaration) (hwf : s.wellFormed = true)
    (hc : Ready c) (hb : c.bare = s.write ++ Token.word .semicolon :: rest)
    (hroom : 16 * s.write.length ≤ room) :
    Takes (declaration room) c rest fun ss => Stmt.unplacedAll ss = [s.unplaced] := by
  cases s with
  | declare type name init isMutable =>
    simp only [Stmt.wellFormed_declare, Bool.and_eq_true, decide_eq_true_eq] at hwf
    rw [Stmt.write_declare, List.append_assoc, List.cons_append] at hb
    rw [Stmt.write_declare, List.length_append, List.length_cons] at hroom
    obtain ⟨k, rfl⟩ : ∃ k, room = k + 1 := ⟨room - 1, by omega⟩
    have himmut : Takes (accept .kwImmut) c (Token.word (.type type) :: name.unplaced ::
        (writeInitializer init ++ Token.word .semicolon :: rest)) fun b => b = !isMutable := by
      cases isMutable with
      | false => exact takes_accept hc hb rfl (by decide)
      | true => exact takes_accept_none hc hb (starts_cons _ nofun)
    rw [declaration_eq]
    refine himmut.bind fun b c₁ hb' hb₁ hc₁ => ?_
    refine (takes_typeWord .typeAfterImmut hc₁ hb₁ rfl).bind fun t c₂ ht hb₂ hc₂ => ?_
    have hentry : Takes (declarator t.type (!b) k) c₂ (Token.word .semicolon :: rest) fun s' =>
        s'.unplaced = (Stmt.declare type name init isMutable).unplaced := by
      refine (takes_expect .variableName hc₂ hb₂ hwf.1 (by decide)).bind
        fun name' c₃ hname hb₃ hc₃ => ?_
      refine (takes_initializer hwf.2 hc₃ hb₃ (starts_cons _ rfl) (by omega)).bind
        fun init' c₄ hinit hb₄ hc₄ => takes_pure ?_ hb₄ hc₄
      simp only [Stmt.unplaced, ht.1, hb', hname, hinit, Bool.not_not]
    rw [declarators_eq]
    refine (takes_last hentry (starts_cons _ (by decide))).bind fun ss c₃ hss hb₃ hc₃ => ?_
    refine (takes_accept hc₃ hb₃ rfl (by decide)).bind fun _ c₄ _ hb₄ hc₄ => ?_
    obtain ⟨s', rfl, hs'⟩ := hss
    refine takes_pure ?_ hb₄ hc₄
    simp only [Stmt.unplacedAll, hs']
  | _ => cases hp

theorem takes_declarations {ss : List Stmt} (hp : ∀ s ∈ ss, s.part = .declaration)
    (hwf : Stmt.allWellFormed ss = true) (hc : Ready c) (hb : c.bare = Stmt.writeAll ss ++ rest)
    (hs : Starts (fun k => startsDeclaration k = false) rest)
    (hroom : 16 * (Stmt.writeAll ss).length + 1 ≤ room) :
    Takes (declarations room) c rest fun ss' => Stmt.unplacedAll ss' = Stmt.unplacedAll ss := by
  induction ss generalizing room c with
  | nil =>
    obtain ⟨k, rfl⟩ : ∃ k, room = k + 1 := ⟨room - 1, by omega⟩
    have hb' : c.bare = rest := hb
    have hkind : startsDeclaration c.current.kind = false := starts_current (hb' ▸ hs)
    refine takes_peek ?_
    rw [if_neg (by simp [hkind])]
    exact takes_pure rfl hb hc
  | cons s ss ih =>
    obtain ⟨k, rfl⟩ : ∃ k, room = k + 1 := ⟨room - 1, by omega⟩
    have hps := hp s (List.mem_cons_self ..)
    simp only [Stmt.allWellFormed, Bool.and_eq_true] at hwf
    simp only [Stmt.writeAll, hps, Part.terminator, List.append_assoc, List.cons_append,
      List.nil_append] at hb
    simp only [Stmt.writeAll, hps, Part.terminator, List.length_append, List.length_cons,
      List.length_nil] at hroom
    have hkind : startsDeclaration c.current.kind = true := by
      refine starts_current (P := fun k => startsDeclaration k = true) ?_
      rw [hb]
      exact (starts_declaration hps).append _
    refine takes_peek ?_
    rw [if_pos hkind]
    refine (takes_orRecover (takes_declaration hps hwf.1 hc hb (by omega))).bind
      fun o c₁ ho hb₁ hc₁ => ?_
    refine (ih (fun t ht => hp t (List.mem_cons_of_mem s ht)) hwf.2 hc₁ hb₁ (by omega)).bind
      fun more c₂ hmore hb₂ hc₂ => ?_
    obtain ⟨declared, rfl, hdeclared⟩ := ho
    refine takes_pure ?_ hb₂ hc₂
    rw [Option.getD_some, Stmt.unplacedAll_append, hdeclared, hmore]
    rfl

end Declarations

/-! ## 4. Statements -/

/-- Given `room`, the rule takes every written statement of the given shape. -/
def ReadsStmt (rule : Nat → Parse Stmt) (shape : Stmt → Prop) (base room : Nat) : Prop :=
  ∀ ⦃s : Stmt⦄ ⦃c : Cursor⦄ ⦃rest : List Token⦄, shape s → s.wellFormed = true → Ready c →
    c.bare = s.write ++ rest → Starts (· = .semicolon) rest → 16 * s.write.length + base ≤ room →
    Takes (rule room) c rest fun s' => s'.unplaced = s.unplaced

/-- Given `room`, the rule takes all written statements that the predicate admits, up to a token of
    a kind in `P`. -/
def ReadsAll (rule : Nat → Parse (List Stmt)) (admits : List Stmt → Prop) (P : Kind → Prop)
    (base room : Nat) : Prop :=
  ∀ ⦃ss : List Stmt⦄ ⦃c : Cursor⦄ ⦃rest : List Token⦄, admits ss →
    Stmt.allWellFormed ss = true → Ready c → c.bare = Stmt.writeAll ss ++ rest → Starts P rest →
    16 * (Stmt.writeAll ss).length + base ≤ room →
    Takes (rule room) c rest fun ss' => Stmt.unplacedAll ss' = Stmt.unplacedAll ss

theorem readsStmt_zero {rule : Nat → Parse Stmt} {shape : Stmt → Prop} {base : Nat}
    (hbase : 0 < base) : ReadsStmt rule shape base 0 := by
  intro s c rest _ _ _ _ _ hroom
  omega

theorem readsAll_zero {rule : Nat → Parse (List Stmt)} {admits : List Stmt → Prop}
    {P : Kind → Prop} {base : Nat} (hbase : 0 < base) : ReadsAll rule admits P base 0 := by
  intro ss c rest _ _ _ _ _ hroom
  omega

/-- Given `room`, the rules of statements take what is written. -/
structure ReadsStmts (room : Nat) : Prop where
  statement : ReadsStmt Grammar.statement (fun s => s.part = .statement) 13 room
  conditional : ReadsStmt Grammar.conditional
    (fun s => ∃ keyword e body others, s = .conditional keyword e body others) 1 room
  loop : ReadsStmt Grammar.loop (fun s => ∃ keyword e body, s = .loop keyword e body) 1 room
  block : ReadsStmt Grammar.block (fun s => ∃ opening body, s = .block opening body) 1 room
  statements : ReadsAll Grammar.statements (fun ss => ∀ s ∈ ss, s.part = .statement) (· = .kwEnd) 1
    room
  functions : ReadsAll Grammar.functions (fun ss => ∀ s ∈ ss, s.part = .function) (· ≠ .kwFn) 1 room
  body : ReadsAll (Grammar.body · true) (fun ss => inOrder bodyParts ss = true) (· = .kwEnd) 2 room
  fenced {ss : List Stmt} {fence : Kind} {c : Cursor} {rest : List Token} :
    (∀ s ∈ ss, s.part = .statement) → Stmt.allWellFormed ss = true → fence ≠ .eof → Ready c →
    c.bare = fencedBy fence (Stmt.writeAll ss) ++ rest →
    16 * (fencedBy fence (Stmt.writeAll ss)).length + 1 ≤ room →
    Takes (Grammar.fenced room fence) c rest fun ss' =>
      Stmt.unplacedAll ss' = Stmt.unplacedAll ss
  alternatives {a : Alternatives} {c : Cursor} {rest : List Token} : a.wellFormed = true →
    Ready c → c.bare = a.write ++ rest → Starts (· ≠ .kwElse) rest →
    16 * a.write.length + 1 ≤ room →
    Takes (Grammar.alternatives room) c rest fun a' => a'.unplaced = a.unplaced
  /-- The cursor stands behind the `FN`. -/
  function {name : Token} {params : List Param} {body : List Stmt} {result : Option TypeName}
    {c : Cursor} {rest : List Token} :
    (Stmt.function name params body result).wellFormed = true → Ready c →
    Token.word .kwFn :: c.bare = (Stmt.function name params body result).write ++ rest →
    16 * (Stmt.function name params body result).write.length ≤ room →
    Takes (Grammar.function room) c rest fun s =>
      s.unplaced = (Stmt.function name params body result).unplaced

section Rules

variable {room : Nat} {c : Cursor} {rest : List Token}

@[simp]
theorem length_fencedBy (fence : Kind) (ts : List Token) :
    (fencedBy fence ts).length = ts.length + 4 := by
  simp [fencedBy]

theorem takes_display {keyword : Token} {e : Expr}
    (hwf : (Stmt.display keyword e).wellFormed = true) (hc : Ready c)
    (hb : c.bare = (Stmt.display keyword e).write ++ rest) (hs : Starts (· = .semicolon) rest)
    (hroom : 16 * (Stmt.display keyword e).write.length ≤ room) :
    Takes (display room) c rest fun s => s.unplaced = (Stmt.display keyword e).unplaced := by
  simp only [Stmt.wellFormed, Bool.and_eq_true, decide_eq_true_eq] at hwf
  simp only [Stmt.write, List.length_cons] at hroom
  obtain ⟨hc₁, hb₁⟩ := hc.advance hb (by rw [Token.kind_unplaced, hwf.1]; decide)
  have hstop : Stops 0 rest := hs.imp fun k hk => by rw [hk]; rfl
  refine takes_take ?_
  refine (takes_expect _ hc₁ hb₁ rfl (by decide)).bind fun _ c₂ _ hb₂ hc₂ => ?_
  refine (takes_expression hwf.2 hc₂ hb₂ hstop (by omega)).bind fun e' c₃ he' hb₃ hc₃ => ?_
  refine takes_pure ?_ hb₃ hc₃
  simp only [Stmt.unplaced, current_unplaced hb, he']

theorem length_le_withCommas (tss : List (List Token)) (htss : ∀ ts ∈ tss, ts ≠ []) :
    tss.length ≤ (withCommas tss).length := by
  induction tss with
  | nil => exact Nat.zero_le _
  | cons ts tss ih =>
    have hpos : 0 < ts.length := List.length_pos_of_ne_nil (htss ts (List.mem_cons_self ..))
    have ih' := ih fun us hus => htss us (List.mem_cons_of_mem ts hus)
    cases tss with
    | nil => exact hpos
    | cons us tss =>
      simp only [withCommas_cons_cons, List.length_append, List.length_cons] at ih' ⊢
      omega

theorem takes_scan {keyword : Token} {ns : List Token}
    (hwf : (Stmt.scan keyword ns).wellFormed = true) (hc : Ready c)
    (hb : c.bare = (Stmt.scan keyword ns).write ++ rest) (hs : Starts (· = .semicolon) rest)
    (hroom : 16 * (Stmt.scan keyword ns).write.length ≤ room) :
    Takes (scan room) c rest fun s => s.unplaced = (Stmt.scan keyword ns).unplaced := by
  simp only [Stmt.wellFormed, Bool.and_eq_true, decide_eq_true_eq, List.all_eq_true] at hwf
  obtain ⟨⟨hkeyword, hne⟩, hkinds⟩ := hwf
  simp only [Stmt.write, List.length_cons] at hroom
  have hlen : ns.length ≤ (withCommas (ns.map fun n => [n.unplaced])).length := by
    have hle := length_le_withCommas (ns.map fun n => [n.unplaced]) (by simp)
    rwa [List.length_map] at hle
  obtain ⟨hc₁, hb₁⟩ := hc.advance hb (by rw [Token.kind_unplaced, hkeyword]; decide)
  have hcomma : Starts (· ≠ .comma) rest := hs.imp fun k hk => by rw [hk]; decide
  refine takes_take ?_
  refine (takes_expect _ hc₁ hb₁ rfl (by decide)).bind fun _ c₂ _ hb₂ hc₂ => ?_
  refine (takes_names ?_ hkinds hc₂ hb₂ hcomma (by omega)).bind fun ns' c₃ hns hb₃ hc₃ => ?_
  · intro heq
    subst heq
    cases hne
  · refine takes_pure ?_ hb₃ hc₃
    simp only [Stmt.unplaced, current_unplaced hb, hns]

/-- The value of a `RETURN` stands on its line, and nothing that ends the statement starts a
    value. -/
theorem takes_ret {keyword : Token} {value : Option Expr}
    (hwf : (Stmt.ret keyword value).wellFormed = true) (hc : Ready c)
    (hb : c.bare = (Stmt.ret keyword value).write ++ rest) (hs : Starts (· = .semicolon) rest)
    (hroom : 16 * (Stmt.ret keyword value).write.length ≤ room) :
    Takes (ret room) c rest fun s => s.unplaced = (Stmt.ret keyword value).unplaced := by
  refine takes_take (takes_peek ?_)
  cases value with
  | none =>
    simp only [Stmt.wellFormed, decide_eq_true_eq] at hwf
    obtain ⟨hc₁, hb₁⟩ := hc.advance hb (by rw [Token.kind_unplaced, hwf]; decide)
    have hkind : c.advance.current.kind = .semicolon := by
      refine starts_current (P := fun k => k = .semicolon) ?_
      rw [hb₁]
      exact hs
    rw [if_neg (by rw [hkind]; simp [endsReturn])]
    refine takes_pure ?_ hb₁ hc₁
    simp only [Stmt.unplaced, current_unplaced hb, Option.map_none]
  | some e =>
    simp only [Stmt.wellFormed, Bool.and_eq_true, decide_eq_true_eq] at hwf
    have hkeyword : c.current.kind = .kwReturn := by
      rw [current_kind hb, Token.kind_unplaced, hwf.1]
    obtain ⟨hc₁, hb₁⟩ := hc.advance hb (by rw [Token.kind_unplaced, hwf.1]; decide)
    have hstart : startsExpression c.advance.current.kind = true := by
      refine starts_current (P := fun k => startsExpression k = true) ?_
      rw [hb₁]
      exact starts_expression hwf.2 rest
    have hends : endsReturn c.advance.current.kind = false ∧
        c.advance.current.kind ≠ .semicolon := by
      generalize c.advance.current.kind = k at hstart
      cases k <;> simp_all [startsExpression, isLiteral, isSign, endsReturn]
    have hline : c.advance.current.pos.line = c.current.pos.line := by
      have htokens := hc.closed.advance_tokens (by rw [hkeyword]; decide)
      have hchain : (c.current :: c.advance.tokens).IsChain OnLine := by
        rw [htokens]
        exact hc.lines
      exact (List.isChain_cons_cons.mp hchain).1 hkeyword hends.2
    rw [if_pos ⟨hline, hends.1⟩]
    have hstop : Stops 0 rest := hs.imp fun k hk => by rw [hk]; rfl
    simp only [Stmt.write, List.length_cons] at hroom
    refine (takes_expression hwf.2 hc₁ hb₁ hstop (by omega)).bind fun e' c₂ he' hb₂ hc₂ => ?_
    refine takes_pure ?_ hb₂ hc₂
    simp only [Stmt.unplaced, current_unplaced hb, Option.map_some, he']

theorem statement_succ (ih : ReadsStmts room) :
    ReadsStmt Grammar.statement (fun s => s.part = .statement) 13 (room + 1) := by
  intro s c rest hp hwf hc hb hs hroom
  have hat {k : Kind} (hk : s.keyword? = some k) : c.current.kind = k :=
    starts_current (hb ▸ (starts_keyword hwf hk).append rest)
  refine takes_peek ?_
  cases s with
  | expression e =>
    have hstart : startsExpression c.current.kind = true := by
      refine starts_current (P := fun k => startsExpression k = true) ?_
      rw [hb]
      exact starts_expression hwf rest
    have hstop : Stops 0 rest := hs.imp fun k hk => by rw [hk]; rfl
    have hread : Takes (expression room >>= fun e' => pure (Stmt.expression e')) c rest fun s' =>
        s'.unplaced = (Stmt.expression e).unplaced := by
      simp only [Stmt.write] at hroom
      refine (takes_expression hwf hc hb hstop (by omega)).bind fun e' c₁ he' hb₁ hc₁ => ?_
      refine takes_pure ?_ hb₁ hc₁
      simp only [Stmt.unplaced, he']
    -- none of the words that the rule looks for starts an expression
    generalize c.current.kind = k at hstart
    cases k <;> first | exact hread | cases hstart
  | display keyword e =>
    rw [hat rfl]
    exact takes_display hwf hc hb hs (by omega)
  | scan keyword ns =>
    rw [hat rfl]
    exact takes_scan hwf hc hb hs (by omega)
  | ret keyword value =>
    rw [hat rfl]
    exact takes_ret hwf hc hb hs (by omega)
  | conditional keyword e body others =>
    rw [hat rfl]
    exact ih.conditional ⟨keyword, e, body, others, rfl⟩ hwf hc hb hs (by omega)
  | loop keyword e body =>
    rw [hat rfl]
    exact ih.loop ⟨keyword, e, body, rfl⟩ hwf hc hb hs (by omega)
  | block opening body =>
    rw [hat rfl]
    exact ih.block ⟨opening, body, rfl⟩ hwf hc hb hs (by omega)
  | function name params body result => cases hp
  | declare type name init isMutable => cases hp

/-- A condition, statements in a fence behind it, and the alternatives. -/
theorem takes_branch (ih : ReadsStmts room) (keyword : String) {α : Type}
    (g : Expr → List Stmt → Alternatives → α) {e : Expr} {body : List Stmt} {others : Alternatives}
    (he : e.wellFormed = true) (hparts : inOrder [.statement] body = true)
    (hbody : Stmt.allWellFormed body = true) (hothers : others.wellFormed = true) (hc : Ready c)
    (hb : c.bare =
      e.writeCondition ++ (fencedBy .kwIf (Stmt.writeAll body) ++ (others.write ++ rest)))
    (hs : Starts (· ≠ .kwElse) rest) (hroom : 16 * (e.writeCondition ++
      (fencedBy .kwIf (Stmt.writeAll body) ++ others.write)).length + 1 ≤ room) :
    Takes (condition room keyword >>= fun e => fenced room .kwIf >>= fun body =>
      alternatives room >>= fun others => pure (g e body others)) c rest fun a =>
        ∃ e' body' others', a = g e' body' others' ∧ e'.unplaced = e.unplaced ∧
          Stmt.unplacedAll body' = Stmt.unplacedAll body ∧ others'.unplaced = others.unplaced := by
  simp only [Expr.writeCondition, List.length_cons, List.length_append, List.length_nil,
    length_fencedBy] at hroom
  refine (takes_condition _ he hc hb (by omega)).bind fun e' c₁ he' hb₁ hc₁ => ?_
  refine (ih.fenced (inOrder_singleton hparts) hbody (by decide) hc₁ hb₁
    (by rw [length_fencedBy]; omega)).bind fun body' c₂ hbody' hb₂ hc₂ => ?_
  refine (ih.alternatives hothers hc₂ hb₂ hs (by omega)).bind
    fun others' c₃ hothers' hb₃ hc₃ => takes_pure ?_ hb₃ hc₃
  exact ⟨e', body', others', rfl, he', hbody', hothers'⟩

theorem conditional_succ (ih : ReadsStmts room) : ReadsStmt Grammar.conditional
    (fun s => ∃ keyword e body others, s = .conditional keyword e body others) 1 (room + 1) := by
  intro s c rest hshape hwf hc hb hs hroom
  obtain ⟨keyword, e, body, others, rfl⟩ := hshape
  simp only [Stmt.wellFormed, Bool.and_eq_true, decide_eq_true_eq] at hwf
  obtain ⟨⟨⟨⟨hk, he⟩, hparts⟩, hbody⟩, hothers⟩ := hwf
  simp only [Stmt.write, List.cons_append, List.append_assoc, List.length_cons] at hroom
  simp only [Stmt.write, List.cons_append, List.append_assoc] at hb
  obtain ⟨hc₁, hb₁⟩ := hc.advance hb (by rw [Token.kind_unplaced, hk]; decide)
  have helse : Starts (· ≠ .kwElse) rest := hs.imp fun k hk => by rw [hk]; decide
  refine takes_take ((takes_branch ih _ (Stmt.conditional c.current) he hparts hbody hothers hc₁
    hb₁ helse (by omega)).imp ?_)
  rintro _ ⟨e', body', others', rfl, he', hbody', hothers'⟩
  simp only [Stmt.unplaced, current_unplaced hb, he', hbody', hothers']

theorem loop_succ (ih : ReadsStmts room) : ReadsStmt Grammar.loop
    (fun s => ∃ keyword e body, s = .loop keyword e body) 1 (room + 1) := by
  intro s c rest hshape hwf hc hb hs hroom
  obtain ⟨keyword, e, body, rfl⟩ := hshape
  simp only [Stmt.wellFormed, Bool.and_eq_true, decide_eq_true_eq] at hwf
  obtain ⟨⟨⟨hk, he⟩, hparts⟩, hbody⟩ := hwf
  simp only [Stmt.write, Expr.writeCondition, List.cons_append, List.length_cons,
    List.length_append, List.length_nil, length_fencedBy] at hroom
  simp only [Stmt.write, List.cons_append, List.append_assoc] at hb
  obtain ⟨hc₁, hb₁⟩ := hc.advance hb (by rw [Token.kind_unplaced, hk]; decide)
  refine takes_take ?_
  refine (takes_condition _ he hc₁ hb₁ (by omega)).bind fun e' c₂ he' hb₂ hc₂ => ?_
  refine (ih.fenced (inOrder_singleton hparts) hbody (by decide) hc₂ hb₂
    (by rw [length_fencedBy]; omega)).bind fun body' c₃ hbody' hb₃ hc₃ => takes_pure ?_ hb₃ hc₃
  simp only [Stmt.unplaced, current_unplaced hb, he', hbody']

theorem block_succ (ih : ReadsStmts room) : ReadsStmt Grammar.block
    (fun s => ∃ opening body, s = .block opening body) 1 (room + 1) := by
  intro s c rest hshape hwf hc hb hs hroom
  obtain ⟨opening, body, rfl⟩ := hshape
  simp only [Stmt.wellFormed, Bool.and_eq_true, decide_eq_true_eq] at hwf
  obtain ⟨⟨hk, hparts⟩, hbody⟩ := hwf
  simp only [Stmt.write, List.cons_append, List.length_cons, List.length_append,
    List.length_nil] at hroom
  simp only [Stmt.write, List.cons_append, List.append_assoc, List.nil_append] at hb
  obtain ⟨hc₁, hb₁⟩ := hc.advance hb (by rw [Token.kind_unplaced, hk]; decide)
  refine takes_take ?_
  refine (ih.body hparts hbody hc₁ hb₁ (starts_cons _ rfl) (by omega)).bind
    fun body' c₂ hbody' hb₂ hc₂ => ?_
  refine (takes_expect _ hc₂ hb₂ rfl (by decide)).bind fun _ c₃ _ hb₃ hc₃ => takes_pure ?_ hb₃ hc₃
  simp only [Stmt.unplaced, current_unplaced hb, hbody']

theorem fenced_succ (ih : ReadsStmts room) {ss : List Stmt} {fence : Kind}
    (hp : ∀ s ∈ ss, s.part = .statement) (hwf : Stmt.allWellFormed ss = true)
    (hfence : fence ≠ .eof) (hc : Ready c)
    (hb : c.bare = fencedBy fence (Stmt.writeAll ss) ++ rest)
    (hroom : 16 * (fencedBy fence (Stmt.writeAll ss)).length + 1 ≤ room + 1) :
    Takes (Grammar.fenced (room + 1) fence) c rest fun ss' =>
      Stmt.unplacedAll ss' = Stmt.unplacedAll ss := by
  rw [length_fencedBy] at hroom
  simp only [fencedBy, List.cons_append, List.append_assoc, List.nil_append] at hb
  refine (takes_expect _ hc hb rfl (by decide)).bind fun _ c₁ _ hb₁ hc₁ => ?_
  refine (takes_expect _ hc₁ hb₁ rfl hfence).bind fun _ c₂ _ hb₂ hc₂ => ?_
  refine (ih.statements hp hwf hc₂ hb₂ (starts_cons _ rfl) (by omega)).bind
    fun ss' c₃ hss' hb₃ hc₃ => ?_
  refine (takes_expect _ hc₃ hb₃ rfl (by decide)).bind fun _ c₄ _ hb₄ hc₄ => ?_
  refine (takes_expect _ hc₄ hb₄ rfl hfence).bind fun _ c₅ _ hb₅ hc₅ => ?_
  exact takes_pure hss' hb₅ hc₅

/-- Behind an `ELSE`, the next token decides. -/
theorem alternatives_succ (ih : ReadsStmts room) {a : Alternatives} (hwf : a.wellFormed = true)
    (hc : Ready c) (hb : c.bare = a.write ++ rest) (hs : Starts (· ≠ .kwElse) rest)
    (hroom : 16 * a.write.length + 1 ≤ room + 1) :
    Takes (Grammar.alternatives (room + 1)) c rest fun a' => a'.unplaced = a.unplaced := by
  refine takes_peek ?_
  show Takes (if c.current.kind = .kwElse then _ else _ : Parse Alternatives) c rest _
  rcases Alternatives.cases_of_length_bodies (Alternatives.length_bodies_of_wellFormed hwf) with
    rfl | ⟨body, rfl⟩ | ⟨e, body, others, rfl⟩
  · have hb' : c.bare = rest := hb
    have hkind : c.current.kind ≠ .kwElse := starts_current (hb' ▸ hs)
    rw [if_neg hkind]
    exact takes_pure rfl hb hc
  · rw [Alternatives.wellFormed_otherwise, Bool.and_eq_true] at hwf
    rw [Alternatives.write_otherwise, List.length_cons] at hroom
    rw [Alternatives.write_otherwise, List.cons_append] at hb
    have hkind : c.current.kind = .kwElse := current_kind hb
    obtain ⟨hc₁, hb₁⟩ := hc.advance hb (by decide)
    have hnext : c.next.kind = .kwBegin := by
      rw [← hc.closed.current_advance (by rw [hkind]; decide)]
      exact current_kind hb₁
    rw [if_pos hkind]
    refine (takes_skip hc hb (by decide)).bind fun _ c₁ _ hb₁ hc₁ => ?_
    rw [hnext, if_neg (by decide)]
    refine (ih.fenced (inOrder_singleton hwf.1) hwf.2 (by decide) hc₁ hb₁ (by omega)).bind
      fun body' c₂ hbody' hb₂ hc₂ => takes_pure ?_ hb₂ hc₂
    rw [Alternatives.unplaced_otherwise, Alternatives.unplaced_otherwise, hbody']
  · simp only [Alternatives.wellFormed_elseIf, Bool.and_eq_true] at hwf
    obtain ⟨⟨⟨he, hparts⟩, hbody⟩, hothers⟩ := hwf
    simp only [Alternatives.write_elseIf, List.cons_append, List.append_assoc,
      List.length_cons] at hroom
    simp only [Alternatives.write_elseIf, List.cons_append, List.append_assoc] at hb
    have hkind : c.current.kind = .kwElse := current_kind hb
    obtain ⟨hc₁, hb₁⟩ := hc.advance hb (by decide)
    have hnext : c.next.kind = .kwIf := by
      rw [← hc.closed.current_advance (by rw [hkind]; decide)]
      exact current_kind hb₁
    rw [if_pos hkind]
    refine (takes_skip hc hb (by decide)).bind fun _ c₁ _ hb₁ hc₁ => ?_
    rw [hnext, if_pos rfl]
    refine (takes_skip hc₁ hb₁ (by decide)).bind fun _ c₂ _ hb₂ hc₂ => ?_
    refine (takes_branch ih _ Alternatives.elseIf he hparts hbody hothers hc₂ hb₂ hs
      (by omega)).imp ?_
    rintro _ ⟨e', body', others', rfl, he', hbody', hothers'⟩
    simp only [Alternatives.unplaced_elseIf, he', hbody', hothers']

theorem statements_succ (ih : ReadsStmts room) : ReadsAll Grammar.statements
    (fun ss => ∀ s ∈ ss, s.part = .statement) (· = .kwEnd) 1 (room + 1) := by
  intro ss c rest hp hwf hc hb hs hroom
  refine takes_peek ?_
  cases ss with
  | nil =>
    have hb' : c.bare = rest := hb
    have hkind : c.current.kind = .kwEnd := starts_current (hb' ▸ hs)
    rw [if_pos (Or.inr hkind)]
    exact takes_pure rfl hb hc
  | cons s ss =>
    have hps := hp s (List.mem_cons_self ..)
    simp only [Stmt.allWellFormed, Bool.and_eq_true] at hwf
    simp only [Stmt.writeAll, hps, Part.terminator, List.append_assoc, List.cons_append,
      List.nil_append] at hb
    simp only [Stmt.writeAll, hps, Part.terminator, List.length_append, List.length_cons,
      List.length_nil] at hroom
    have hstart : startsStatement c.current.kind = true := by
      refine starts_current (P := fun k => startsStatement k = true) ?_
      rw [hb]
      exact (starts_statement hwf.1 hps).append _
    obtain ⟨heof, hend, hsemicolon, _⟩ := startsStatement_spec hstart
    rw [if_neg (not_or.mpr ⟨heof, hend⟩), if_neg hsemicolon]
    refine (takes_orRecover (ih.statement hps hwf.1 hc hb (starts_cons _ rfl) (by omega))).bind
      fun o c₁ ho hb₁ hc₁ => ?_
    obtain ⟨s', rfl, hs'⟩ := ho
    refine (takes_accept hc₁ hb₁ rfl (by decide)).bind fun _ c₂ _ hb₂ hc₂ => ?_
    refine (ih.statements (fun t ht => hp t (List.mem_cons_of_mem s ht)) hwf.2 hc₂ hb₂ hs
      (by omega)).bind fun more c₃ hmore hb₃ hc₃ => takes_pure ?_ hb₃ hc₃
    simp only [Stmt.unplacedAll, hs', hmore]

theorem functions_succ (ih : ReadsStmts room) : ReadsAll Grammar.functions
    (fun ss => ∀ s ∈ ss, s.part = .function) (· ≠ .kwFn) 1 (room + 1) := by
  intro ss c rest hp hwf hc hb hs hroom
  cases ss with
  | nil =>
    refine (takes_accept_none hc hb hs).bind fun b c₁ hfalse hb₁ hc₁ => ?_
    rw [if_neg (by simp [hfalse])]
    exact takes_pure rfl hb₁ hc₁
  | cons s ss =>
    have hps := hp s (List.mem_cons_self ..)
    simp only [Stmt.allWellFormed, Bool.and_eq_true] at hwf
    simp only [Stmt.writeAll, hps, Part.terminator, List.append_nil, List.append_assoc] at hb
    simp only [Stmt.writeAll, hps, Part.terminator, List.append_nil, List.length_append] at hroom
    cases s with
    | function name params body result =>
      have hlen : 0 < (Stmt.function name params body result).write.length := Nat.succ_pos _
      refine (takes_accept hc hb rfl (by decide)).bind fun b c₁ htrue hb₁ hc₁ => ?_
      rw [if_pos htrue]
      have hread := ih.function hwf.1 hc₁ (congrArg (Token.word .kwFn :: ·) hb₁) (by omega)
      refine (takes_orRecover hread).bind fun o c₂ ho hb₂ hc₂ => ?_
      refine (ih.functions (fun t ht => hp t (List.mem_cons_of_mem _ ht)) hwf.2 hc₂ hb₂ hs
        (by omega)).bind fun more c₃ hmore hb₃ hc₃ => ?_
      obtain ⟨f, rfl, hf⟩ := ho
      refine takes_pure ?_ hb₃ hc₃
      simp only [Option.toList_some, List.cons_append, List.nil_append, Stmt.unplacedAll, hf, hmore]
    | _ => cases hps

theorem body_succ (ih : ReadsStmts room) : ReadsAll (Grammar.body · true)
    (fun ss => inOrder bodyParts ss = true) (· = .kwEnd) 2 (room + 1) := by
  intro ss c rest hp hwf hc hb hs hroom
  obtain ⟨ds, ss, rfl, hds, hp⟩ := inOrder_cons hp
  obtain ⟨fs, ss, rfl, hfs, hp⟩ := inOrder_cons hp
  have hss := inOrder_singleton hp
  simp only [Stmt.allWellFormed_append, Bool.and_eq_true] at hwf
  obtain ⟨hwd, hwf, hws⟩ := hwf
  simp only [Stmt.writeAll_append, List.append_assoc] at hb
  simp only [Stmt.writeAll_append, List.length_append] at hroom
  have hrest := starts_statements hss hws hs
  have hdecl : Starts (fun k => startsDeclaration k = false)
      (Stmt.writeAll fs ++ (Stmt.writeAll ss ++ rest)) := by
    refine starts_writeAll (fun s hs => (starts_function (hfs s hs)).imp ?_)
      (hrest.imp fun _ hk => hk.1)
    intro k hk
    subst hk
    rfl
  have hfn : Starts (· ≠ .kwFn) (Stmt.writeAll ss ++ rest) := hrest.imp fun _ hk => hk.2
  refine (takes_declarations hds hwd hc hb hdecl (by omega)).bind fun ds' c₁ hds' hb₁ hc₁ => ?_
  rw [if_pos rfl]
  refine (ih.functions hfs hwf hc₁ hb₁ hfn (by omega)).bind fun fs' c₂ hfs' hb₂ hc₂ => ?_
  refine (ih.statements hss hws hc₂ hb₂ hs (by omega)).bind fun ss' c₃ hss' hb₃ hc₃ => ?_
  refine takes_pure ?_ hb₃ hc₃
  simp only [Stmt.unplacedAll_append, hds', hfs', hss', List.append_assoc]

theorem takes_parameterList {ps : List Param} (hwf : ∀ p ∈ ps, p.wellFormed = true)
    (hlen : ps.length ≤ maxArgs) (hc : Ready c)
    (hb : c.bare = withCommas (ps.map Param.write) ++ Token.word .rightParen :: rest)
    (hroom : ps.length ≤ room) :
    Takes (parameterList room) c (Token.word .rightParen :: rest) fun ps' =>
      ps'.map Param.unplaced = ps.map Param.unplaced := by
  refine takes_peek ?_
  cases ps with
  | nil =>
    have hkind : c.current.kind = .rightParen := current_kind hb
    rw [if_pos hkind]
    exact takes_pure rfl hb hc
  | cons p ps =>
    have hkind : c.current.kind = .type p.type.type := by
      have hp := hwf p (List.mem_cons_self ..)
      simp only [Param.wellFormed, TypeName.wellFormed, Bool.and_eq_true, decide_eq_true_eq] at hp
      refine starts_current (P := fun k => k = .type p.type.type) ?_
      rw [hb]
      cases ps with
      | nil => exact starts_cons _ hp.1
      | cons p₁ ps => exact starts_cons _ hp.1
    rw [if_neg (by rw [hkind]; nofun)]
    have hcount : 0 + (p :: ps).length ≤ maxArgs := by
      rw [Nat.zero_add]
      exact hlen
    exact takes_parameters (List.cons_ne_nil _ _) hwf hcount hc hb (starts_cons _ (by decide)) hroom

theorem function_succ (ih : ReadsStmts room) {name : Token} {params : List Param}
    {body : List Stmt} {result : Option TypeName}
    (hwf : (Stmt.function name params body result).wellFormed = true) (hc : Ready c)
    (hb : Token.word .kwFn :: c.bare = (Stmt.function name params body result).write ++ rest)
    (hroom : 16 * (Stmt.function name params body result).write.length ≤ room + 1) :
    Takes (Grammar.function (room + 1)) c rest fun s =>
      s.unplaced = (Stmt.function name params body result).unplaced := by
  simp only [Stmt.wellFormed, Bool.and_eq_true, decide_eq_true_eq, List.all_eq_true] at hwf
  obtain ⟨⟨⟨⟨⟨hname, hlen⟩, hparams⟩, hresult⟩, hparts⟩, hbody⟩ := hwf
  simp only [Stmt.write, fencedBy, List.cons_append, List.append_assoc, List.nil_append,
    List.cons.injEq, true_and] at hb
  simp only [Stmt.write, List.cons_append, List.length_cons, List.length_append,
    length_fencedBy] at hroom
  have hle : params.length ≤ (withCommas (params.map Param.write)).length := by
    have hle := length_le_withCommas (params.map Param.write) (by simp [Param.write])
    rwa [List.length_map] at hle
  rw [function_eq]
  refine (takes_resultType hresult hc hb (starts_cons _ hname)).bind fun r c₁ hr hb₁ hc₁ => ?_
  refine (takes_expect _ hc₁ hb₁ hname (by decide)).bind fun n c₂ hn hb₂ hc₂ => ?_
  refine (takes_expect _ hc₂ hb₂ rfl (by decide)).bind fun _ c₃ _ hb₃ hc₃ => ?_
  refine (takes_parameterList hparams hlen hc₃ hb₃ (by omega)).bind fun ps c₄ hps hb₄ hc₄ => ?_
  refine (takes_expect _ hc₄ hb₄ rfl (by decide)).bind fun _ c₅ _ hb₅ hc₅ => ?_
  refine (takes_expect _ hc₅ hb₅ rfl (by decide)).bind fun _ c₆ _ hb₆ hc₆ => ?_
  refine (takes_expect _ hc₆ hb₆ rfl (by decide)).bind fun _ c₇ _ hb₇ hc₇ => ?_
  refine (ih.body hparts hbody hc₇ hb₇ (starts_cons _ rfl) (by omega)).bind
    fun body' c₈ hbody' hb₈ hc₈ => ?_
  refine (takes_expect _ hc₈ hb₈ rfl (by decide)).bind fun _ c₉ _ hb₉ hc₉ => ?_
  refine (takes_expect _ hc₉ hb₉ rfl (by decide)).bind fun _ c₁₀ _ hb₁₀ hc₁₀ => ?_
  refine takes_pure ?_ hb₁₀ hc₁₀
  simp only [Stmt.unplaced, hn, hps, hbody', hr]

end Rules

/-- **The rules of statements take what is written**, whatever the room, if it is enough. -/
theorem readsStmts : ∀ room, ReadsStmts room := by
  intro room
  induction room with
  | zero =>
    refine ⟨readsStmt_zero (by decide), readsStmt_zero (by decide), readsStmt_zero (by decide),
      readsStmt_zero (by decide), readsAll_zero (by decide), readsAll_zero (by decide),
      readsAll_zero (by decide), ?_, ?_, ?_⟩
    · intro ss fence c rest _ _ _ _ _ hroom
      omega
    · intro a c rest _ _ _ _ hroom
      omega
    · intro name params body result c rest _ _ _ hroom
      have hlen : 0 < (Stmt.function name params body result).write.length := Nat.succ_pos _
      omega
  | succ room ih =>
    exact ⟨statement_succ ih, conditional_succ ih, loop_succ ih, block_succ ih, statements_succ ih,
      functions_succ ih, body_succ ih, fenced_succ ih, alternatives_succ ih, function_succ ih⟩

/-! ## 5. Programs -/

section Program

variable {room : Nat} {c : Cursor} {rest : List Token}

theorem takes_fence {k : Kind} {w : Token} (e : SyntaxError) (hc : Ready c)
    (hb : c.bare = w :: rest) (hw : w.kind = k) (hk : k ≠ .eof) :
    Takes (fence k e) c rest fun b => b = true := by
  refine (takes_orRecover (takes_expect e hc hb hw hk)).bind fun o c₁ ho hb₁ hc₁ => ?_
  obtain ⟨t, rfl, _⟩ := ho
  exact takes_pure rfl hb₁ hc₁

/-- The main body has no functions. -/
theorem takes_mainBody {ss : List Stmt} (hp : inOrder [.declaration, .statement] ss = true)
    (hwf : Stmt.allWellFormed ss = true) (hc : Ready c) (hb : c.bare = Stmt.writeAll ss ++ rest)
    (hs : Starts (· = .kwEnd) rest) (hroom : 16 * (Stmt.writeAll ss).length + 2 ≤ room) :
    Takes (body room false) c rest fun ss' => Stmt.unplacedAll ss' = Stmt.unplacedAll ss := by
  obtain ⟨k, rfl⟩ : ∃ k, room = k + 1 := ⟨room - 1, by omega⟩
  obtain ⟨ds, ss, rfl, hds, hp⟩ := inOrder_cons hp
  have hss := inOrder_singleton hp
  simp only [Stmt.allWellFormed_append, Bool.and_eq_true] at hwf
  simp only [Stmt.writeAll_append, List.append_assoc] at hb
  simp only [Stmt.writeAll_append, List.length_append] at hroom
  have hdecl : Starts (fun k => startsDeclaration k = false) (Stmt.writeAll ss ++ rest) :=
    (starts_statements hss hwf.2 hs).imp fun _ hk => hk.1
  refine (takes_declarations hds hwf.1 hc hb hdecl (by omega)).bind fun ds' c₁ hds' hb₁ hc₁ => ?_
  rw [if_neg Bool.false_ne_true]
  refine ((readsStmts k).statements hss hwf.2 hc₁ hb₁ hs (by omega)).bind
    fun ss' c₂ hss' hb₂ hc₂ => takes_pure ?_ hb₂ hc₂
  simp only [Stmt.unplacedAll_append, hds', hss', List.append_nil]

theorem takes_program {p : List Stmt} (hwf : wellFormedProgram p = true) (hc : Ready c)
    (hb : c.bare = writeProgram p) (hroom : 16 * (writeProgram p).length ≤ room) :
    Takes (program room) c [Token.ending] fun ss =>
      Stmt.unplacedAll ss = Stmt.unplacedAll p := by
  simp only [wellFormedProgram, Bool.and_eq_true] at hwf
  obtain ⟨hparts, hwf⟩ := hwf
  have hsplit : p.takeWhile (fun s => s.part = .function) ++
      p.dropWhile (fun s => s.part = .function) = p := List.takeWhile_append_dropWhile
  have hfs : ∀ s ∈ p.takeWhile (fun s => s.part = .function), s.part = .function := fun s =>
    part_of_mem_takeWhile
  have hmain : inOrder [.declaration, .statement]
      (p.dropWhile fun s => s.part = .function) = true := hparts
  simp only [writeProgram, fencedBy, List.cons_append, List.append_assoc, List.nil_append] at hb
  simp only [writeProgram, List.length_append, length_fencedBy, List.length_cons] at hroom
  generalize p.takeWhile (fun s => s.part = .function) = fs at *
  generalize p.dropWhile (fun s => s.part = .function) = main at *
  subst hsplit
  simp only [Stmt.allWellFormed_append, Bool.and_eq_true] at hwf
  refine ((readsStmts room).functions hfs hwf.1 hc hb (starts_cons _ (by decide)) (by omega)).bind
    fun fs' c₁ hfs' hb₁ hc₁ => ?_
  refine (takes_fence _ hc₁ hb₁ rfl (by decide)).bind fun b₁ c₂ hb₁' hb₂ hc₂ => ?_
  rw [if_neg (by simp [hb₁'])]
  refine (takes_fence _ hc₂ hb₂ rfl (by decide)).bind fun b₂ c₃ hb₂' hb₃ hc₃ => ?_
  rw [if_neg (by simp [hb₂'])]
  refine (takes_mainBody hmain hwf.2 hc₃ hb₃ (starts_cons _ rfl) (by omega)).bind
    fun main' c₄ hmain' hb₄ hc₄ => ?_
  refine (takes_fence _ hc₄ hb₄ rfl (by decide)).bind fun b₃ c₅ hb₃' hb₅ hc₅ => ?_
  rw [if_neg (by simp [hb₃'])]
  refine (takes_fence _ hc₅ hb₅ rfl (by decide)).bind fun b₄ c₆ hb₄' hb₆ hc₆ => ?_
  rw [if_neg (by simp [hb₄'])]
  refine takes_peek ?_
  have hend : c₆.current.kind = .eof := current_kind hb₆
  rw [if_neg (by simp [hend])]
  refine takes_pure ?_ hb₆ hc₆
  simp only [Stmt.unplacedAll_append, hfs', hmain']

end Program

/-- Tokens that a program is written with have an end. -/
theorem withEnd_of_writeProgram {p : List Stmt} {ts : List Token}
    (hts : ts.map Token.unplaced = writeProgram p) : Cursor.withEnd ts = ts := by
  have hlast : (ts.map Token.unplaced).getLast? = some Token.ending := by
    rw [hts]
    exact List.getLast?_concat
  rw [List.getLast?_map, Option.map_eq_some_iff] at hlast
  obtain ⟨t, ht, hword⟩ := hlast
  have hkind : t.kind = .eof := by
    rw [← Token.kind_unplaced, hword]
    rfl
  unfold Cursor.withEnd
  rw [ht, Option.any_some, if_pos (by simpa using hkind)]

/-- **A well-formed program that is written out is parsed to itself**, up to places and without a
    complaint, wherever its tokens stand as long as the value of each `RETURN` starts on its
    line. -/
theorem parse_writeProgram {p : List Stmt} (hwf : wellFormedProgram p = true) {ts : List Token}
    (hts : ts.map Token.unplaced = writeProgram p) (hlines : ts.IsChain OnLine) :
    (Program.ofTokens ts).diagnostics = [] ∧
      Stmt.unplacedAll (Program.ofTokens ts).stmts = Stmt.unplacedAll p := by
  have htokens : (Cursor.ofTokens ts).tokens = ts :=
    (Cursor.ofTokens_tokens ts).trans (withEnd_of_writeProgram hts)
  have hready : Ready (Cursor.ofTokens ts) := by
    refine ⟨Cursor.ofTokens_closed ts, Cursor.ofTokens_reported ts, ?_⟩
    rw [htokens]
    exact hlines
  have hb : (Cursor.ofTokens ts).bare = writeProgram p := by
    rw [← hts, Cursor.bare, htokens]
  have hroom : 16 * (writeProgram p).length ≤ Program.roomFor ts.length := by
    rw [← hts, List.length_map, Program.roomFor]
    omega
  obtain ⟨ss, c, hrun, hss, _, hc⟩ := takes_program hwf hready hb hroom
  have hparsed : Program.ofTokens ts = ⟨ss, c.reported.reverse⟩ := by
    unfold Program.ofTokens
    rw [hrun]
    rfl
  rw [hparsed]
  refine ⟨?_, hss⟩
  show c.reported.reverse = []
  rw [hc.clean]
  rfl

/-- A program with calls, operators of several levels and nested bodies:

        FN INT f(INT a, INT b) BEGIN FN RETURN (a + b) * 2; END FN
        BEGIN CODE
          INT x = f(1, 2);
          IF (x > 2 + 1) BEGIN IF x = 1; END IF
          ELSE BEGIN IF BEGIN IMMUT INT y; RETURN; END; END IF;
        END CODE
-/
def nestedProgram : List Stmt :=
  let name (w : String) : Token := ⟨.identifier, utf8 w, none, .start⟩
  let one : Expr := .literal ⟨.intLit, utf8 "1", some (.int 1), .start⟩
  let two : Expr := .literal ⟨.intLit, utf8 "2", some (.int 2), .start⟩
  let int : TypeName := ⟨.int, .word (.type .int)⟩
  let sum : Expr := .grouping (.binary (.ref (name "a")) (.word .plus) (.ref (name "b"))) .start
  let test : Expr := .binary (.ref (name "x")) (.word .greater) (.binary two (.word .plus) one)
  [.function (name "f") [⟨int, name "a"⟩, ⟨int, name "b"⟩]
     [.ret (.word .kwReturn) (some (.binary sum (.word .star) two))] (some int),
   .declare .int (name "x") (some (.call (.ref (name "f")) (.word .rightParen) [one, two])) true,
   .conditional (.word .kwIf) test [.expression (.assign (name "x") one)]
     (.otherwise [.block (.word .kwBegin)
       [.declare .int (name "y") none false, .ret (.word .kwReturn) none]])]

theorem parse_nestedProgram : wellFormedProgram nestedProgram = true ∧
    (Program.ofTokens (writeProgram nestedProgram)).diagnostics = [] ∧
    Stmt.unplacedAll (Program.ofTokens (writeProgram nestedProgram)).stmts =
      Stmt.unplacedAll nestedProgram := by
  have hwf : wellFormedProgram nestedProgram = true := by decide +kernel
  have hlines : (writeProgram nestedProgram).IsChain OnLine := by decide +kernel
  exact ⟨hwf, parse_writeProgram hwf rfl hlines⟩

end FencedCode
