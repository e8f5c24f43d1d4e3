import FencedCode.Proofs.Machine.Drawn
import FencedCode.Proofs.Machine.Names
import FencedCode.Proofs.Syntax.Layout

/-!
# Where a program stands does not matter

A run carries the places of tokens along and looks at them twice: to tell functions apart, and to
locate a fault that has no place yet. Neither makes a difference. Functions that meet in a
comparison are known by their names, and the tokens of a program all have places. So programs that
differ in their places only do the same, and with them all layouts of one text.

* `Binding.mapPos`, `Failure.mapPos` -- what a run leaves behind, with `g` of each place;
* `Binding.unplaced`, `Failure.unplaced` -- the same, without places;
* `Moved` -- that trees are the same up to `g`, with all places known;
* `relocation` -- **such trees resemble each other**, layer by layer;
* `relocated_halts` -- so **such programs halt alike**;
* `layout_preserves` -- **blanks, comments and line breaks do not matter** but behind `RETURN`.
-/

namespace FencedCode

open Machine

/-! ## 1. What a run leaves behind -/

section Maps

variable (g : Position → Position)

/-- A function at other places. -/
def Function.mapPos (f : Function) : Function :=
  ⟨f.name.mapPos g, f.params.map (Param.mapPos g), Stmt.mapPosAll g f.body,
    f.result.map (TypeName.mapPos g)⟩

/-- A function at other places, any other value as it is. -/
def Value.mapPos : Value → Value
  | .function (some (.user f copy)) => .function (some (.user (f.mapPos g) copy))
  | v => v

/-- A binding whose value has other places. -/
def Binding.mapPos (b : Binding) : Binding :=
  { b with value := b.value.mapPos g }

/-- A failure at another place. -/
def Failure.mapPos : Failure → Failure
  | .fault f => .fault ⟨f.cause, f.token.mapPos g⟩
  | x => x

end Maps

/-! ### Without places -/

/-- A function without places. -/
def Function.unplaced (f : Function) : Function :=
  ⟨f.name.unplaced, f.params.map Param.unplaced, Stmt.unplacedAll f.body,
    f.result.map TypeName.unplaced⟩

/-- A function without places, any other value as it is. -/
def Value.unplaced : Value → Value
  | .function (some (.user f copy)) => .function (some (.user f.unplaced copy))
  | v => v

/-- A binding whose value has no places. -/
def Binding.unplaced (b : Binding) : Binding :=
  { b with value := b.value.unplaced }

/-- A failure without a place: what went wrong at which word. -/
def Failure.unplaced : Failure → Failure
  | .fault f => .fault ⟨f.cause, f.token.unplaced⟩
  | x => x

theorem Function.mapPos_none (f : Function) : f.mapPos (fun _ => .none) = f.unplaced := by
  rw [mapPos, unplaced, Stmt.mapPosAll_none, Token.mapPos_none, funext Param.mapPos_none,
    funext TypeName.mapPos_none]

theorem Value.mapPos_none (v : Value) : v.mapPos (fun _ => .none) = v.unplaced := by
  unfold mapPos unplaced
  split
  · rw [Function.mapPos_none]
  · rfl

theorem Binding.mapPos_none (b : Binding) : b.mapPos (fun _ => .none) = b.unplaced := by
  rw [mapPos, unplaced, Value.mapPos_none]

theorem Failure.mapPos_none (x : Failure) : x.mapPos (fun _ => .none) = x.unplaced := by
  cases x <;> rfl

/-! ## 2. Trees that are moved -/

variable {g : Position → Position}

/-- The token stands somewhere. -/
def Token.Placed (t : Token) : Prop :=
  t.line ≠ 0

/-- The same token up to `g`, at a place that is known on both sides or on none. -/
structure Token.Moved (g : Position → Position) (t u : Token) : Prop where
  mapPos : t.mapPos g = u.mapPos g
  line : t.line = 0 ↔ u.line = 0

theorem Token.Moved.refl (t : Token) : t.Moved g t :=
  ⟨rfl, Iff.rfl⟩

theorem Token.Moved.of_placed {t u : Token} (h : t.mapPos g = u.mapPos g) (ht : t.Placed)
    (hu : u.Placed) : t.Moved g u :=
  ⟨h, iff_of_false ht hu⟩

/-- The same, or the same up to what is `kept` of places, with all places known. -/
inductive Moved {α : Type} (kept : α → α) (Known : α → Prop) : α → α → Prop where
  | refl (a : α) : Moved kept Known a a
  | moved {a b : α} : kept a = kept b → Known a → Known b → Moved kept Known a b

/-- Expressions that are the same up to `g`. -/
def Expr.Moved (g : Position → Position) : Expr → Expr → Prop :=
  FencedCode.Moved (Expr.mapPos g) (Expr.Drawn Token.Placed)

/-- Statements that are the same up to `g`. -/
def Stmt.Moved (g : Position → Position) : Stmt → Stmt → Prop :=
  FencedCode.Moved (Stmt.mapPos g) (Stmt.Drawn Token.Placed)

/-- Lists of statements that are the same up to `g`. -/
def Stmt.AllMoved (g : Position → Position) : List Stmt → List Stmt → Prop :=
  FencedCode.Moved (Stmt.mapPosAll g) (Stmt.AllDrawn Token.Placed)

theorem Stmt.allMoved_of_placed {ss ss' : List Stmt} (h : mapPosAll g ss = mapPosAll g ss')
    (hss : AllDrawn Token.Placed ss) (hss' : AllDrawn Token.Placed ss') : AllMoved g ss ss' :=
  .moved h hss hss'

/-- Alternatives that are the same up to `g`. -/
def Alternatives.Moved (g : Position → Position) : Alternatives → Alternatives → Prop :=
  FencedCode.Moved (Alternatives.mapPos g) (Alternatives.Drawn Token.Placed)

/-- Functions that are the same up to `g`. -/
def Function.Moved (g : Position → Position) : Function → Function → Prop :=
  FencedCode.Moved (Function.mapPos g) (Function.Drawn Token.Placed)

/-! ### Lists -/

theorem Token.moved_all {ts us : List Token}
    (h : ts.map (Token.mapPos g) = us.map (Token.mapPos g))
    (hts : ∀ t ∈ ts, t.Placed) (hus : ∀ u ∈ us, u.Placed) : List.Forall₂ (Token.Moved g) ts us :=
  forall₂_of_map_eq h fun t ht u hu htu => .of_placed htu (hts t ht) (hus u hu)

theorem Expr.moved_all {es es' : List Expr} (h : mapPosAll g es = mapPosAll g es')
    (hes : Expr.AllDrawn Token.Placed es) (hes' : Expr.AllDrawn Token.Placed es') :
    List.Forall₂ (Expr.Moved g) es es' := by
  rw [mapPosAll_eq_map, mapPosAll_eq_map] at h
  rw [Expr.allDrawn_iff] at hes hes'
  exact forall₂_of_map_eq h fun e he e' he' hee' => .moved hee' (hes e he) (hes' e' he')

theorem Param.moved_all {ps qs : List Param}
    (h : ps.map (Param.mapPos g) = qs.map (Param.mapPos g))
    (hps : ∀ p ∈ ps, p.Drawn Token.Placed) (hqs : ∀ q ∈ qs, q.Drawn Token.Placed) :
    List.Forall₂ (Param.Like (Token.Moved g)) ps qs := by
  refine forall₂_of_map_eq h fun p hp q hq hpq => ?_
  obtain ⟨htype, hname⟩ := Param.mk.inj hpq
  exact ⟨(TypeName.mk.inj htype).1, .of_placed hname (hps p hp).2 (hqs q hq).2⟩

/-! ## 3. Moved trees resemble each other -/

theorem Expr.layer_of_moved {e e' : Expr} (h : e.Moved g e') :
    ExprLayer (Token.Moved g) (Expr.Moved g) e e' := by
  cases h with
  | refl => exact .refl .refl .refl e
  | moved h hd hd' =>
    cases e with
    | literal t => cases e' with
      | literal t' => exact .literal (.of_placed (Expr.literal.inj h) hd hd')
      | _ => simp only [mapPos, reduceCtorEq] at h
    | grouping e p => cases e' with
      | grouping e' p' => exact .grouping (.moved (Expr.grouping.inj h).1 hd hd')
      | _ => simp only [mapPos, reduceCtorEq] at h
    | unary op e => cases e' with
      | unary op' e' =>
        obtain ⟨hop, he⟩ := Expr.unary.inj h
        exact .unary (.of_placed hop hd.1 hd'.1) (.moved he hd.2.2 hd'.2.2)
      | _ => simp only [mapPos, reduceCtorEq] at h
    | binary l op r => cases e' with
      | binary l' op' r' =>
        obtain ⟨hl, hop, hr⟩ := Expr.binary.inj h
        exact .binary (.moved hl hd.2.2.1 hd'.2.2.1) (.of_placed hop hd.1 hd'.1)
          (.moved hr hd.2.2.2 hd'.2.2.2)
      | _ => simp only [mapPos, reduceCtorEq] at h
    | logical l op r => cases e' with
      | logical l' op' r' =>
        obtain ⟨hl, hop, hr⟩ := Expr.logical.inj h
        exact .logical (.moved hl hd.2.1 hd'.2.1) (.of_placed hop hd.1 hd'.1)
          (.moved hr hd.2.2 hd'.2.2)
      | _ => simp only [mapPos, reduceCtorEq] at h
    | ref name => cases e' with
      | ref name' => exact .ref (.of_placed (Expr.ref.inj h) hd hd')
      | _ => simp only [mapPos, reduceCtorEq] at h
    | assign name e => cases e' with
      | assign name' e' =>
        obtain ⟨hname, he⟩ := Expr.assign.inj h
        exact .assign (.of_placed hname hd.1 hd'.1) (.moved he hd.2 hd'.2)
      | _ => simp only [mapPos, reduceCtorEq] at h
    | call e paren args => cases e' with
      | call e' paren' args' =>
        obtain ⟨he, hparen, hargs⟩ := Expr.call.inj h
        exact .call (.moved he hd.2.1 hd'.2.1) (.of_placed hparen hd.1 hd'.1)
          (Expr.moved_all hargs hd.2.2 hd'.2.2)
      | _ => simp only [mapPos, reduceCtorEq] at h

theorem Stmt.layer_of_moved {s s' : Stmt} (h : s.Moved g s') :
    StmtLayer (Token.Moved g) (Expr.Moved g) (Stmt.AllMoved g) (Alternatives.Moved g)
      (Function.Moved g) s s' := by
  cases h with
  | refl => exact .refl .refl .refl .refl .refl .refl s
  | moved h hd hd' =>
    cases s with
    | expression e => cases s' with
      | expression e' => exact .expression (.moved (Stmt.expression.inj h) hd hd')
      | _ => simp only [Stmt.mapPos, reduceCtorEq] at h
    | display k e => cases s' with
      | display k' e' => exact .display (.moved (Stmt.display.inj h).2 hd.2 hd'.2)
      | _ => simp only [Stmt.mapPos, reduceCtorEq] at h
    | scan k names => cases s' with
      | scan k' names' =>
        obtain ⟨hk, hnames⟩ := Stmt.scan.inj h
        exact .scan (.of_placed hk hd.1 hd'.1) (Token.moved_all hnames hd.2 hd'.2)
      | _ => simp only [Stmt.mapPos, reduceCtorEq] at h
    | conditional k c b o => cases s' with
      | conditional k' c' b' o' =>
        obtain ⟨_, hc, hb, ho⟩ := Stmt.conditional.inj h
        exact .conditional (.moved hc hd.2.1 hd'.2.1) (.moved hb hd.2.2.1 hd'.2.2.1)
          (.moved ho hd.2.2.2 hd'.2.2.2)
      | _ => simp only [Stmt.mapPos, reduceCtorEq] at h
    | loop k c b => cases s' with
      | loop k' c' b' =>
        obtain ⟨_, hc, hb⟩ := Stmt.loop.inj h
        exact .loop (.moved hc hd.2.1 hd'.2.1) (.moved hb hd.2.2 hd'.2.2)
      | _ => simp only [Stmt.mapPos, reduceCtorEq] at h
    | block t b => cases s' with
      | block t' b' => exact .block (.moved (Stmt.block.inj h).2 hd.2 hd'.2)
      | _ => simp only [Stmt.mapPos, reduceCtorEq] at h
    | function name params body result => cases s' with
      | function name' params' body' result' =>
        obtain ⟨hname, hparams, hbody, hresult⟩ := Stmt.function.inj h
        refine .function (.moved ?_ hd hd')
        simp only [Function.mapPos, hname, hparams, hbody, hresult]
      | _ => simp only [Stmt.mapPos, reduceCtorEq] at h
    | ret k v => cases s' with
      | ret k' v' =>
        have hvalue := (Stmt.ret.inj h).2
        cases v with
        | none => cases v' with
          | none => exact .leave
          | some e' => exact absurd hvalue.symm (Option.some_ne_none _)
        | some e => cases v' with
          | none => exact absurd hvalue (Option.some_ne_none _)
          | some e' => exact .ret (.moved (Option.some.inj hvalue) hd.2 hd'.2)
      | _ => simp only [Stmt.mapPos, reduceCtorEq] at h
    | declare type name init isMutable => cases s' with
      | declare type' name' init' isMutable' =>
        obtain ⟨rfl, hname, hinit, rfl⟩ := Stmt.declare.inj h
        cases init with
        | none => cases init' with
          | none => exact .declare (.of_placed hname hd hd')
          | some e' => exact absurd hinit.symm (Option.some_ne_none _)
        | some e => cases init' with
          | none => exact absurd hinit (Option.some_ne_none _)
          | some e' =>
            exact .initial (.of_placed hname hd.1 hd'.1)
              (.moved (Option.some.inj hinit) hd.2 hd'.2)
      | _ => simp only [Stmt.mapPos, reduceCtorEq] at h

theorem Stmt.bodyLayer_of_moved {ss ss' : List Stmt} (h : Stmt.AllMoved g ss ss') :
    BodyLayer (Stmt.Moved g) (Stmt.AllMoved g) ss ss' := by
  cases h with
  | refl => exact .refl .refl .refl ss
  | moved h hd hd' =>
    rcases ss with _ | ⟨s, ss⟩ <;> rcases ss' with _ | ⟨s', ss'⟩
    · exact .nil
    · exact absurd h.symm (List.cons_ne_nil _ _)
    · exact absurd h (List.cons_ne_nil _ _)
    · obtain ⟨hs, hss⟩ := List.cons.inj h
      exact .cons (.moved hs hd.1 hd'.1) (.moved hss hd.2 hd'.2)

theorem Alternatives.layer_of_moved {o o' : Alternatives} (h : o.Moved g o') :
    AlternativesLayer (Expr.Moved g) (Stmt.AllMoved g) (Alternatives.Moved g) o o' := by
  cases h with
  | refl => exact .refl .refl .refl .refl o
  | moved h hd hd' =>
    obtain ⟨cs, bs, last⟩ := o
    obtain ⟨cs', bs', last'⟩ := o'
    obtain ⟨hcs, hbs, hlast⟩ := Alternatives.mk.inj h
    obtain ⟨hlength, hdcs, hdbs, hdlast⟩ := hd
    obtain ⟨hlength', hdcs', hdbs', hdlast'⟩ := hd'
    -- in both there are as many bodies as conditions
    rcases cs with _ | ⟨c, cs⟩ <;> rcases cs' with _ | ⟨c', cs'⟩
    · obtain rfl := List.length_eq_zero_iff.mp hlength
      obtain rfl := List.length_eq_zero_iff.mp hlength'
      rcases last with _ | b <;> rcases last' with _ | b'
      · exact .done
      · exact absurd hlast.symm (Option.some_ne_none _)
      · exact absurd hlast (Option.some_ne_none _)
      · exact .otherwise (.moved (Option.some.inj hlast) hdlast hdlast')
    · exact absurd hcs.symm (List.cons_ne_nil _ _)
    · exact absurd hcs (List.cons_ne_nil _ _)
    · obtain ⟨hc, hcs⟩ := List.cons.inj hcs
      rcases bs with _ | ⟨b, bs⟩
      · cases hlength
      rcases bs' with _ | ⟨b', bs'⟩
      · cases hlength'
      obtain ⟨hb, hbs⟩ := List.cons.inj hbs
      have hothers : Alternatives.Moved g (.mk cs bs last) (.mk cs' bs' last') := by
        refine .moved ?_ ⟨Nat.succ.inj hlength, hdcs.2, hdbs.2, hdlast⟩
          ⟨Nat.succ.inj hlength', hdcs'.2, hdbs'.2, hdlast'⟩
        simp only [Alternatives.mapPos, hcs, hbs, hlast]
      exact .elseIf (.moved hc hdcs.1 hdcs'.1) (.moved hb hdbs.1 hdbs'.1) hothers

/-- **Trees that are the same up to `g` resemble each other.** -/
def relocation (g : Position → Position) : Resemblance where
  token := Token.Moved g
  expr := Expr.Moved g
  stmt := Stmt.Moved g
  body := Stmt.AllMoved g
  others := Alternatives.Moved g
  function := Function.Moved g
  token_refl := .refl
  token_kind ht := Token.kind_eq ht.mapPos
  token_lexeme ht := (Token.mk.inj ht.mapPos).2.1
  token_literal ht := (Token.mk.inj ht.mapPos).2.2.1
  token_line ht := ht.line
  expr_layer := Expr.layer_of_moved
  stmt_layer := Stmt.layer_of_moved
  body_layer := Stmt.bodyLayer_of_moved
  others_layer := Alternatives.layer_of_moved
  function_refl := .refl
  function_name hf := by
    cases hf with
    | refl => exact .refl _
    | moved h hd hd' => exact .of_placed (Function.mk.inj h).1 hd.1 hd'.1
  function_params {f g} hf := by
    cases hf with
    | refl => exact List.forall₂_same.mpr fun p _ => ⟨rfl, .refl _⟩
    | moved h hd hd' => exact Param.moved_all (Function.mk.inj h).2.1 hd.2.1 hd'.2.1
  function_body hf := by
    cases hf with
    | refl => exact .refl _
    | moved h hd hd' => exact .moved (Function.mk.inj h).2.2.1 hd.2.2.1 hd'.2.2.1
  function_result {f g} hf := by
    cases hf with
    | refl =>
      cases f.result with
      | none => exact .none
      | some t => exact .some ⟨rfl, .refl _⟩
    | moved h hd hd' =>
      have hresult := (Function.mk.inj h).2.2.2
      have hplaced := hd.2.2.2
      have hplaced' := hd'.2.2.2
      generalize f.result = r at hresult hplaced ⊢
      generalize g.result = r' at hresult hplaced' ⊢
      cases r with
      | none => cases r' with
        | none => exact .none
        | some t' => exact absurd hresult.symm (Option.some_ne_none _)
      | some t => cases r' with
        | none => exact absurd hresult (Option.some_ne_none _)
        | some t' =>
          obtain ⟨htype, htoken⟩ := TypeName.mk.inj (Option.some.inj hresult)
          exact .some ⟨htype, .of_placed htoken (hplaced t rfl) (hplaced' t' rfl)⟩

/-! ## 4. Runs -/

namespace Machine

/-- What two runs leave behind that are the same up to `g`: the same output and input, and the same
    global bindings up to `g`. -/
structure SameUpTo (g : Position → Position) (m₁ m₂ : Machine) : Prop where
  written : m₂.written = m₁.written
  input : m₂.input = m₁.input
  global (name : Text) :
    (m₂.global? name).map (Binding.mapPos g) = (m₁.global? name).map (Binding.mapPos g)

/-- What two runs leave behind that differ in places: the same output and input, and the same global
    bindings up to places. -/
structure SameUnplaced (m₁ m₂ : Machine) : Prop where
  written : m₂.written = m₁.written
  input : m₂.input = m₁.input
  global (name : Text) :
    (m₂.global? name).map Binding.unplaced = (m₁.global? name).map Binding.unplaced

theorem SameUpTo.unplaced {m₁ m₂ : Machine} (h : m₁.SameUpTo (fun _ => .none) m₂) :
    m₁.SameUnplaced m₂ := by
  refine ⟨h.written, h.input, fun name => ?_⟩
  have hglobal := h.global name
  rwa [funext Binding.mapPos_none] at hglobal

theorem mapPos_of_value {v v' : Value} (hv : v.Like (relocation g) v') :
    v'.mapPos g = v.mapPos g := by
  cases hv with
  | refl => rfl
  | user hf => cases hf with
    | refl => rfl
    | moved h _ _ => simp only [Value.mapPos, h]

theorem mapPos_of_outcome {r r' : Except Failure Unit}
    (hr : Outcome (relocation g) (fun _ _ => True) r r') :
    r'.mapError (Failure.mapPos g) = r.mapError (Failure.mapPos g) := by
  cases hr with
  | ok => rfl
  | error hx => cases hx with
    | refl => rfl
    | fault ht =>
      have htoken := Token.Moved.mapPos ht
      simp only [Except.mapError, Failure.mapPos, htoken]

theorem sameUpTo_of_like {m₁ m₂ : Machine} (hm : m₁.Like (relocation g) m₂) :
    m₁.SameUpTo g m₂ := by
  refine ⟨hm.written_eq.symm, hm.input.symm, fun name => ?_⟩
  have hglobal := hm.global name
  generalize m₁.global? name = o at hglobal ⊢
  generalize m₂.global? name = o' at hglobal ⊢
  cases hglobal with
  | none => rfl
  | some hb => simp only [Option.map_some, Binding.mapPos, hb.type, hb.isMutable,
      mapPos_of_value hb.value]

/-- **Programs that are the same up to `g` halt alike** on every machine that a host can make: each
    if the other one does, with the same failure and the same left behind, up to `g`. -/
theorem relocated_halts (h : Host) {m : Machine} (hm : Hosted m) {P P' : List Stmt}
    (hP : Stmt.AllMoved g P P') :
    (∀ r m₁, Halts h P m r m₁ →
      ∃ r' m₂, Halts h P' m r' m₂ ∧
        r'.mapError (Failure.mapPos g) = r.mapError (Failure.mapPos g) ∧ m₁.SameUpTo g m₂) ∧
    (∀ r' m₂, Halts h P' m r' m₂ →
      ∃ r m₁, Halts h P m r m₁ ∧
        r'.mapError (Failure.mapPos g) = r.mapError (Failure.mapPos g) ∧ m₁.SameUpTo g m₂) := by
  have hbody : (relocation g).body P P' := hP
  refine ⟨fun r m₁ hhalts => ?_, fun r' m₂ hhalts => ?_⟩
  · obtain ⟨r', m₂, hhalts', hr, hend⟩ :=
      Like.halts (named_invariant h) equalAlike_named hbody (.refl m) hm.named hm.named hhalts
    exact ⟨r', m₂, hhalts', mapPos_of_outcome hr, sameUpTo_of_like hend⟩
  · obtain ⟨r, m₁, hhalts', hr, hend⟩ := Like.halts_reverse (named_invariant h) equalAlike_named
      hbody (.refl m) hm.named hm.named hhalts
    exact ⟨r, m₁, hhalts', mapPos_of_outcome hr, sameUpTo_of_like hend⟩

end Machine

/-- All tokens of a program that is read from a text have places. -/
theorem Program.placed_ofText (t : Text) : Stmt.AllDrawn Token.Placed (ofText t).stmts := by
  refine drawn_ofTokens fun u hu => ?_
  rw [withEnd_scanned] at hu
  exact Nat.one_le_iff_ne_zero.mp (Scan.line_bounds hu).1

open Machine in
/-- **The layout of a text does not matter.** Two texts with the same tokens, behind whose `RETURN`s
    the lines go on or end alike, are read as one tree with the same complaints, up to places. On
    every machine that a host can make, each of the programs halts if the other one does, with the
    same output, the same input left, the same result or failure and the same global bindings, up to
    places. -/
theorem layout_preserves {s t : Text} (hst : SameWords s t) (h : Host) {m : Machine}
    (hm : Hosted m) :
    Stmt.unplacedAll (Program.ofText s).stmts = Stmt.unplacedAll (Program.ofText t).stmts ∧
    (Program.ofText s).diagnostics.map Diagnostic.unplaced =
      (Program.ofText t).diagnostics.map Diagnostic.unplaced ∧
    (∀ r m₁, Halts h (Program.ofText s).stmts m r m₁ →
      ∃ r' m₂, Halts h (Program.ofText t).stmts m r' m₂ ∧
        r'.mapError Failure.unplaced = r.mapError Failure.unplaced ∧ m₁.SameUnplaced m₂) ∧
    (∀ r' m₂, Halts h (Program.ofText t).stmts m r' m₂ →
      ∃ r m₁, Halts h (Program.ofText s).stmts m r m₁ ∧
        r'.mapError Failure.unplaced = r.mapError Failure.unplaced ∧ m₁.SameUnplaced m₂) := by
  obtain ⟨htrees, hdiagnostics⟩ := Program.mirrors_ofText hst
  have hmoved : Stmt.AllMoved (fun _ => .none) (Program.ofText s).stmts
      (Program.ofText t).stmts := by
    have hplaced := Program.placed_ofText s
    have hplaced' := Program.placed_ofText t
    refine Stmt.allMoved_of_placed ?_ hplaced hplaced'
    rwa [Stmt.mapPosAll_none, Stmt.mapPosAll_none]
  obtain ⟨hforth, hback⟩ := relocated_halts h hm hmoved
  rw [funext Failure.mapPos_none] at hforth hback
  refine ⟨htrees, hdiagnostics, fun r m₁ hhalts => ?_, fun r' m₂ hhalts => ?_⟩
  · obtain ⟨r', m₂, hhalts', hr, hend⟩ := hforth r m₁ hhalts
    exact ⟨r', m₂, hhalts', hr, hend.unplaced⟩
  · obtain ⟨r, m₁, hhalts', hr, hend⟩ := hback r' m₂ hhalts
    exact ⟨r, m₁, hhalts', hr, hend.unplaced⟩

/-- A program on a single line. -/
def terseProgram : Text :=
  utf8 "BEGIN CODE DISPLAY: 1 RETURN 2 END CODE"

/-- The same program on many lines. -/
def spaciousProgram : Text :=
  utf8 "BEGIN CODE # one\n\tDISPLAY:\n1 RETURN 2\nEND CODE\n"

open Machine in
/-- Both programs display `1`. -/
theorem layout_preserves_spacious : SameWords terseProgram spaciousProgram ∧
    ∃ r m, Halts {} (Program.ofText spaciousProgram).stmts (.standard .empty) r m ∧
      m.written = utf8 "1\n" := by
  have hwords : SameWords terseProgram spaciousProgram :=
    { scans := ⟨List.isEmpty_iff.mp (by decide +kernel), List.isEmpty_iff.mp (by decide +kernel)⟩
      words := by decide +kernel
      lines := by decide +kernel }
  have hok : (execute {} 50 (Program.ofText terseProgram).stmts (.standard .empty)).1.isOk = true ∧
      (execute {} 50 (Program.ofText terseProgram).stmts (.standard .empty)).2.written =
        utf8 "1\n" := by
    decide +kernel
  have hhalts : Halts {} (Program.ofText terseProgram).stmts (.standard .empty)
      (execute {} 50 (Program.ofText terseProgram).stmts (.standard .empty)).1
      (execute {} 50 (Program.ofText terseProgram).stmts (.standard .empty)).2 := by
    refine halts_of_execute fun hexhausted => ?_
    rw [hexhausted] at hok
    cases hok.1
  obtain ⟨_, _, hforth, _⟩ := layout_preserves hwords {} (hosted_standard .empty)
  obtain ⟨r, m, hhalts', _, hend⟩ := hforth _ _ hhalts
  exact ⟨hwords, r, m, hhalts', hend.written.trans hok.2⟩

/-- Behind a `RETURN` the end of the line does matter: here it leaves a statement of its own. -/
example : (Program.ofText (utf8 "BEGIN CODE RETURN 1 END CODE")).stmts.length = 1 ∧
    (Program.ofText (utf8 "BEGIN CODE RETURN\n1 END CODE")).stmts.length = 2 := by
  decide +kernel

end FencedCode
