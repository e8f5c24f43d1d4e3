import FencedCode.Proofs.Syntax.Room

/-!
# Completing what was cut short

A rule that is stopped by the end of a text can be completed: some tokens more, and it succeeds.
The tokens are found along the rule. A step that reached the end is completed by itself; the steps
behind it have read nothing yet, and each of them is given the shortest tokens that it can read.

* `assignsToNames` -- that only names are assigned to, as far as the tokens tell;
* `Admits` -- that a step reads tokens of given kinds and stops behind them;
* `CompletesAt` -- that a step which has been cut short can be completed;
* `Admits.bind`, `CompletesAt.bind`, `completesAt_skip`, … -- their laws, one for each step.
-/

namespace FencedCode

open Parse Grammar

/-! ## 1. Targets of assignments -/

/-- Is the kind a prefix or binary operator? -/
def isOperator (k : Kind) : Bool :=
  isSign k || (Level.of? k).isSome

theorem isOperator_of_has {l : Level} {k : Kind} (hk : l.has k = true) : isOperator k = true := by
  unfold isOperator
  rw [(Level.has_iff l k).mp hk]
  exact Bool.or_true _

theorem isOperator_of_isSign {k : Kind} (hk : isSign k = true) : isOperator k = true := by
  unfold isOperator
  rw [hk]
  exact Bool.true_or _

theorem ne_eof_of_isOperator {k : Kind} (hk : isOperator k = true) : k ≠ .eof := by
  rintro rfl
  cases hk

/-- May a token of the kind come before tokens of these kinds? An assignment sign follows a name,
    and that name follows no operator. -/
def mayPrecede (k : Kind) : List Kind → Bool
  | .assign :: _ => k = .identifier
  | _ :: .assign :: _ => !isOperator k
  | _ => true

/-- Does every assignment sign follow a name that is no operand of an operator? -/
def assignsToNames : List Kind → Bool
  | [] => true
  | k :: ks => mayPrecede k ks && assignsToNames ks

theorem assignsToNames_of_append {front ks : List Kind} (h : assignsToNames (front ++ ks) = true) :
    assignsToNames ks = true := by
  induction front with
  | nil => exact h
  | cons k front ih =>
    simp only [List.cons_append, assignsToNames, Bool.and_eq_true] at h
    exact ih h.2

theorem mayPrecede_cons {k u : Kind} {ks : List Kind} : mayPrecede k (u :: ks) = true ↔
    (u = .assign → k = .identifier) ∧ (ks.head? = some .assign → isOperator k = false) := by
  by_cases hu : u = .assign
  · subst hu
    show decide (k = .identifier) = true ↔ _
    rw [decide_eq_true_iff]
    refine ⟨fun hk => ⟨fun _ => hk, fun _ => ?_⟩, fun h => h.1 rfl⟩
    rw [hk]
    rfl
  · rcases ks with _ | ⟨v, ks⟩
    · simp [mayPrecede, hu]
    · by_cases hv : v = .assign
      · simp [mayPrecede, hu, hv]
      · simp [mayPrecede, hu, hv]

/-- Where the tokens are cut short, only names are assigned to if it is so in the whole text. -/
theorem assignsToNames_cut {ks more : List Kind} (h : assignsToNames (ks ++ more) = true) :
    assignsToNames (ks ++ [.eof]) = true := by
  induction ks with
  | nil => rfl
  | cons k ks ih =>
    simp only [List.cons_append, assignsToNames, Bool.and_eq_true] at h ⊢
    refine ⟨?_, ih h.2⟩
    rcases ks with _ | ⟨u, ks⟩
    · rfl
    · obtain ⟨hfirst, hsecond⟩ := mayPrecede_cons.mp h.1
      refine mayPrecede_cons.mpr ⟨hfirst, fun hassign => hsecond ?_⟩
      rcases ks with _ | ⟨v, ks⟩
      · cases hassign
      · exact hassign

/-! ## 2. Cursors in a text that is cut short -/

namespace Cursor

/-- The cursor stands in a text that may go on: nothing has been complained about, and only names
    are assigned to. -/
structure Promising (c : Cursor) : Prop where
  closed : c.Closed
  clean : c.reported = []
  targets : assignsToNames (c.tokens.map Token.kind) = true

variable {c w : Cursor} {post : List Token}

theorem Promising.moved {c₁ : Cursor} (hc : c.Promising) (hs : c₁.tokens <:+ c.tokens)
    (hr : c₁.reported = []) : c₁.Promising := by
  obtain ⟨front, hfront⟩ := hs
  refine ⟨hc.closed.of_suffix ⟨front, hfront⟩, hr, ?_⟩
  have htargets := hc.targets
  rw [← hfront, List.map_append] at htargets
  exact assignsToNames_of_append htargets

theorem Promising.advance (hc : c.Promising) : c.advance.Promising :=
  hc.moved c.advance_tokens_suffix (c.advance_reported.trans hc.clean)

/-- `Within post w c`: both cursors stand at the same place, and the text of `w` goes on with `post`
    where that of `c` ends. -/
def Within (post : List Token) (w c : Cursor) : Prop :=
  Cut post w c ∨ (c.AtEnd ∧ w.reported = [] ∧ w.tokens = post)

theorem Within.of_atEnd (h : Within post w c) (hend : c.AtEnd) :
    w.reported = [] ∧ w.tokens = post := by
  rcases h with hcut | ⟨_, hclean, htokens⟩
  · exact absurd hend hcut.not_atEnd
  · exact ⟨hclean, htokens⟩

theorem Within.cut (h : Within post w c) (hopen : ¬ c.AtEnd) : Cut post w c := by
  rcases h with hcut | ⟨hend, _⟩
  · exact hcut
  · exact absurd hend hopen

/-- A cursor that has passed its token stands before what is behind it. -/
theorem advance_tokens_of_cons {t : Token} (hw : w.tokens = t :: post) (hne : post ≠ [])
    (hk : t.kind ≠ .eof) : w.advance.tokens = post := by
  have hcurrent : w.current = t := (List.cons.inj hw).1
  have hrest : w.rest = post := (List.cons.inj hw).2
  rcases post with _ | ⟨v, post⟩
  · exact absurd rfl hne
  · rw [advance_of_cons hrest (by rw [hcurrent]; exact hk)]
    rfl

/-- Both cursors move on, also to the end of the shorter text. -/
theorem Within.advance (h : Within post w c) (hne : post ≠ []) (hc : c.Promising)
    (hopen : ¬ c.AtEnd) : Within post w.advance c.advance := by
  have hcut := h.cut hopen
  by_cases hend : c.advance.AtEnd
  · refine .inr ⟨hend, ?_, ?_⟩
    · rw [advance_reported, hcut.reported, hc.clean]
    · obtain ⟨ahead, last, hahead, hkinds, _, hw, hlast⟩ := hcut.tokens
      rcases ahead with _ | ⟨t, _ | ⟨u, ahead⟩⟩
      · exact absurd rfl hahead
      · -- the current token is the last one before the end
        exact advance_tokens_of_cons hw hne (hkinds t List.mem_cons_self)
      · have hrest : c.rest = u :: (ahead ++ [last]) := (List.cons.inj hlast).2
        rw [advance_of_cons hrest hopen] at hend
        exact absurd hend (hkinds u (List.mem_cons_of_mem _ List.mem_cons_self))
  · exact .inl (hcut.advance hend)

end Cursor

/-! ## 3. Complaints that more tokens can mend -/

namespace Diagnostic

/-- Does the complaint say that the text ended in front of an entry that is one too many? -/
def overLimit (d : Diagnostic) : Bool :=
  [SyntaxError.tooManyArguments, .tooManyParameters].any fun e =>
    d.message = some (utf8 "at end" ++ utf8 ": " ++ utf8 e.message)

/-- The complaint is about the end of the text, and there are not too many entries. -/
structure Mendable (d : Diagnostic) : Prop where
  incomplete : d.incomplete = true
  withinLimit : d.overLimit = false

end Diagnostic

/-- A step that stays before the end of a text without an unmendable complaint has none at all. -/
theorem Steady.promising {α : Type} {p : Parse α} (hp : Steady p) {c : Cursor} (hc : c.Promising)
    (hopen : ¬ (p c).2.AtEnd) (hr : ∀ d ∈ (p c).2.reported, d.Mendable) :
    (p c).2.Promising := by
  refine hc.moved (hp.moves c) (List.eq_nil_iff_forall_not_mem.mpr fun d hd => ?_)
  rcases hp.inside hopen d hd with hold | hinside
  · rw [hc.clean] at hold
    cases hold
  · rw [(hr d hd).incomplete] at hinside
    cases hinside

/-! ## 4. Reading given tokens -/

/-- The tokens that texts are completed with. -/
inductive Filler where
  | name
  | typeInt
  | wordBegin
  | wordEnd
  | wordCode
  | wordIf
  | wordWhile
  | wordFn
  | openParen
  | closeParen
  | colon

/-- The kind of a token that a text is completed with. -/
def Filler.kind : Filler → Kind
  | name => .identifier
  | typeInt => .type .int
  | wordBegin => .kwBegin
  | wordEnd => .kwEnd
  | wordCode => .kwCode
  | wordIf => .kwIf
  | wordWhile => .kwWhile
  | wordFn => .kwFn
  | openParen => .leftParen
  | closeParen => .rightParen
  | colon => .colon

theorem Filler.kind_ne_eof (f : Filler) : f.kind ≠ .eof := by
  cases f <;> decide

/-- The step succeeds without a complaint and stops before the given tokens. -/
def ReadsTo {α : Type} (p : Parse α) (w : Cursor) (u : Token) (rest : List Token) : Prop :=
  ∃ a, (p w).1 = some a ∧ (p w).2.tokens = u :: rest ∧ (p w).2.reported = []

/-- The step reads any tokens with the kinds of `K`, if a token of a kind in `F` follows. -/
structure Admits {α : Type} (K : List Filler) (F : Kind → Prop) (p : Parse α) : Prop where
  steady : Steady p
  reads {w : Cursor} {ts rest : List Token} {u : Token} : w.reported = [] →
    w.tokens = ts ++ u :: rest → ts.map Token.kind = K.map Filler.kind → F u.kind →
    ReadsTo p w u rest

/-- What follows `K` being in `F`, the kind that these tokens start with is in `G`. -/
def Leads (F G : Kind → Prop) : List Filler → Prop
  | [] => ∀ k, F k → G k
  | f :: _ => G f.kind

section Reading

variable {α β : Type} {K L : List Filler} {F G : Kind → Prop}

theorem Leads.head {ts : List Token} {u : Token} (rest : List Token) (hl : Leads F G K)
    (hts : ts.map Token.kind = K.map Filler.kind) (hu : F u.kind) :
    ∃ v rest', ts ++ u :: rest = v :: rest' ∧ G v.kind := by
  rcases K with _ | ⟨f, K⟩
  · obtain rfl := List.map_eq_nil_iff.mp hts
    exact ⟨u, rest, rfl, hl u.kind hu⟩
  · obtain ⟨t, ts, rfl, ht, _⟩ := List.map_eq_cons_iff.mp hts
    refine ⟨t, ts ++ u :: rest, rfl, ?_⟩
    rw [ht]
    exact hl

theorem ReadsTo.bind {p : Parse α} {f : α → Parse β} {w : Cursor} {u : Token} {rest : List Token}
    {a : α} (ha : (p w).1 = some a) (hf : ReadsTo (f a) (p w).2 u rest) :
    ReadsTo (p >>= f) w u rest := by
  unfold ReadsTo
  rw [Parse.bind_some ha]
  exact hf

theorem Admits.mono {p : Parse α} (hp : Admits K F p) (hF : ∀ k, G k → F k) : Admits K G p :=
  ⟨hp.steady, fun hr hw hts hu => hp.reads hr hw hts (hF _ hu)⟩

/-- **Steps one after another read the tokens of both**, if the tokens of the second one can follow
    the first one. -/
theorem Admits.bind {p : Parse α} {f : α → Parse β} (hp : Admits K G p)
    (hf : ∀ a, Admits L F (f a)) (hl : Leads F G L) : Admits (K ++ L) F (p >>= f) := by
  refine ⟨hp.steady.bind fun a => (hf a).steady, fun {w ts rest u} hr hw hts hu => ?_⟩
  rw [List.map_append] at hts
  obtain ⟨ts₁, ts₂, rfl, hts₁, hts₂⟩ := List.map_eq_append_iff.mp hts
  obtain ⟨v, rest', hv, hF⟩ := hl.head rest hts₂ hu
  rw [List.append_assoc, hv] at hw
  obtain ⟨a, ha, htokens, hclean⟩ := hp.reads hr hw hts₁ hF
  rw [← hv] at htokens
  exact .bind ha ((hf a).reads hclean htokens hts₂ hu)

/-- A step that stays where it is. -/
theorem admits_stay {p : Parse α} (hp : Steady p) (a : α)
    (hrun : ∀ w : Cursor, F w.current.kind → p w = (some a, w)) : Admits [] F p := by
  refine ⟨hp, fun {w ts rest u} hr hw hts hu => ?_⟩
  obtain rfl := List.map_eq_nil_iff.mp hts
  have hcurrent : w.current = u := (List.cons.inj hw).1
  have hstay := hrun w (by rw [hcurrent]; exact hu)
  refine ⟨a, ?_, ?_, ?_⟩
  · rw [hstay]
  · rw [hstay]
    exact hw
  · rw [hstay]
    exact hr

/-- A step that does as another one with a token of the kind that it starts with. -/
theorem Admits.congr {p q : Parse α} {f : Filler} (hq : Admits (f :: K) F q) (hp : Steady p)
    (hrun : ∀ w : Cursor, w.current.kind = f.kind → p w = q w) : Admits (f :: K) F p := by
  refine ⟨hp, fun {w ts rest u} hr hw hts hu => ?_⟩
  have hleads : Leads F (· = f.kind) (f :: K) := rfl
  obtain ⟨v, rest', hv, hkind⟩ := hleads.head rest hts hu
  have hcurrent : w.current = v := (List.cons.inj (hw.trans hv)).1
  unfold ReadsTo
  rw [hrun w (by rw [hcurrent]; exact hkind)]
  exact hq.reads hr hw hts hu

theorem admits_pure (a : α) : Admits [] F (pure a : Parse α) :=
  admits_stay (steady_pure a) a fun _ _ => rfl

theorem Admits.map {p : Parse α} (hp : Admits K F p) (g : α → β) :
    Admits K F (p >>= fun a => pure (g a)) := by
  have hall := hp.bind (fun a => admits_pure (g a)) fun _ hk => hk
  rwa [List.append_nil] at hall

/-- A step that passes the current token and then does as another one. -/
theorem admits_step {p : Parse α} {q : Token → Parse α} {f : Filler} (hp : Steady p)
    (hq : ∀ t, Admits K F (q t))
    (hrun : ∀ w : Cursor, w.current.kind = f.kind → p w = q w.current w.advance) :
    Admits (f :: K) F p := by
  refine ⟨hp, fun {w ts rest u} hr hw hts hu => ?_⟩
  rw [List.map_cons] at hts
  obtain ⟨t, ts, rfl, ht, hts⟩ := List.map_eq_cons_iff.mp hts
  have hcurrent : w.current = t := (List.cons.inj hw).1
  have hadvance : w.advance.tokens = ts ++ u :: rest :=
    Cursor.advance_tokens_of_cons hw (by simp) (by rw [ht]; exact f.kind_ne_eof)
  unfold ReadsTo
  rw [hrun w (by rw [hcurrent, ht])]
  exact (hq _).reads (w.advance_reported.trans hr) hadvance hts hu

theorem admits_expect (f : Filler) {k : Kind} (hk : f.kind = k) (e : SyntaxError) :
    Admits [f] F (expect k e) := by
  refine admits_step (steady_expect k e) (fun t => admits_pure t) fun w hw => ?_
  rw [expect_of_kind (hw.trans hk)]
  rfl

theorem admits_accept {k : Kind} {g : Bool → Parse α} (hp : Steady (accept k >>= g))
    (hfalse : Admits K F (g false)) (hl : Leads F (fun k' => k' ≠ k) K) :
    Admits K F (accept k >>= g) := by
  refine ⟨hp, fun {w ts rest u} hr hw hts hu => ?_⟩
  obtain ⟨v, rest', hv, hne⟩ := hl.head rest hts hu
  have hcurrent : w.current = v := (List.cons.inj (hw.trans hv)).1
  have hstay := accept_of_ne (show w.current.kind ≠ k by rw [hcurrent]; exact hne)
  refine .bind (a := false) ?_ ?_
  · rw [hstay]
  · rw [hstay]
    exact hfalse.reads hr hw hts hu

end Reading

/-! ## 5. Completing a step -/

/-- If the step, started at `c`, is stopped by the end of the text with complaints that can be
    mended, there are tokens that complete it: in any text that goes on with them, and then with a
    token of a kind in `F`, it succeeds and stops before that token. -/
structure CompletesAt {α : Type} (F : Kind → Prop) (p : Parse α) (c : Cursor) : Prop where
  steady : Steady p
  completes : (p c).2.AtEnd → (∀ d ∈ (p c).2.reported, d.Mendable) →
    ∃ K : List Filler, ∀ ⦃ts : List Token⦄ ⦃u : Token⦄ ⦃rest : List Token⦄ ⦃w : Cursor⦄,
      ts.map Token.kind = K.map Filler.kind → F u.kind → Cursor.Within (ts ++ u :: rest) w c →
        ReadsTo p w u rest

section Completing

variable {α β : Type} {K : List Filler} {F G : Kind → Prop} {c : Cursor}

theorem CompletesAt.mono {p : Parse α} (hp : CompletesAt F p c) (hF : ∀ k, G k → F k) :
    CompletesAt G p c := by
  refine ⟨hp.steady, fun hend hr => ?_⟩
  obtain ⟨K, hK⟩ := hp.completes hend hr
  exact ⟨K, fun ts u rest w hts hu hw => hK hts (hF _ hu) hw⟩

/-- At the end of the text a step is completed by what it reads. -/
theorem Admits.completesAt {p : Parse α} (hp : Admits K F p) (hend : c.AtEnd) :
    CompletesAt F p c := by
  refine ⟨hp.steady, fun _ _ => ⟨K, fun ts u rest w hts hu hw => ?_⟩⟩
  obtain ⟨hclean, htokens⟩ := hw.of_atEnd hend
  exact hp.reads hclean htokens hts hu

/-- A step that stops before the end needs no completion. -/
theorem completesAt_of_open {p : Parse α} (hp : Steady p) (hopen : ¬ (p c).2.AtEnd) :
    CompletesAt F p c :=
  ⟨hp, fun hend _ => absurd hend hopen⟩

theorem completesAt_pure (a : α) : CompletesAt F (pure a : Parse α) c := by
  by_cases hend : c.AtEnd
  · exact (admits_pure a).completesAt hend
  · exact completesAt_of_open (steady_pure a) hend

/-- A step that does as another one with the current token. -/
theorem CompletesAt.congr {p q : Parse α} (hq : CompletesAt F q c) (hp : Steady p)
    (hopen : ¬ c.AtEnd) (hrun : ∀ w : Cursor, w.current = c.current → p w = q w) :
    CompletesAt F p c := by
  refine ⟨hp, fun hend hr => ?_⟩
  rw [hrun c rfl] at hend hr
  obtain ⟨K, hK⟩ := hq.completes hend hr
  refine ⟨K, fun ts u rest w hts hu hw => ?_⟩
  unfold ReadsTo
  rw [hrun w (hw.cut hopen).current]
  exact hK hts hu hw

theorem completesAt_peek {f : Token → Parse α} (hp : Steady (peek >>= f)) (hopen : ¬ c.AtEnd)
    (hf : CompletesAt F (f c.current) c) : CompletesAt F (peek >>= f) c := by
  refine hf.congr hp hopen fun w hw => ?_
  show f w.current w = _
  rw [hw]

/-- A step that passes the current token, and is completed behind it. -/
theorem completesAt_take {f : Token → Parse α} (hp : Steady (take >>= f)) (hc : c.Promising)
    (hopen : ¬ c.AtEnd) (hf : CompletesAt F (f c.current) c.advance) :
    CompletesAt F (take >>= f) c := by
  refine ⟨hp, fun hend hr => ?_⟩
  obtain ⟨K, hK⟩ := hf.completes hend hr
  refine ⟨K, fun ts u rest w hts hu hw => ?_⟩
  have hadmits := hK hts hu (hw.advance (by simp) hc hopen)
  rw [← (hw.cut hopen).current] at hadmits
  exact hadmits

theorem completesAt_skip {q : Parse α} (hc : c.Promising) (hopen : ¬ c.AtEnd)
    (hq : CompletesAt F q c.advance) : CompletesAt F (skip >>= fun _ => q) c :=
  (completesAt_take (f := fun _ => q) (steady_take.bind fun _ => hq.steady) hc hopen hq).congr
    (steady_skip.bind fun _ => hq.steady) hopen fun _ _ => rfl

theorem completesAt_expect (f : Filler) {k : Kind} (hk : f.kind = k) (e : SyntaxError)
    (hc : c.Promising) : CompletesAt F (expect k e) c := by
  by_cases hend : c.AtEnd
  · exact (admits_expect f hk e).completesAt hend
  by_cases hat : c.current.kind = k
  · have htake : CompletesAt F (take >>= pure) c :=
      completesAt_take (steady_take.bind steady_pure) hc hend (completesAt_pure _)
    refine htake.congr (steady_expect k e) hend fun w hw => ?_
    rw [expect_of_kind (by rw [hw]; exact hat)]
    rfl
  · refine completesAt_of_open (steady_expect k e) ?_
    rw [expect_of_ne hat]
    exact hend

/-- A word or sign that may come next. -/
theorem completesAt_accept {k : Kind} {g : Bool → Parse α} (hp : Steady (accept k >>= g))
    (hc : c.Promising) (hopen : ¬ c.AtEnd)
    (htrue : c.current.kind = k → CompletesAt F (g true) c.advance)
    (hfalse : c.current.kind ≠ k → CompletesAt F (g false) c) :
    CompletesAt F (accept k >>= g) c := by
  by_cases hat : c.current.kind = k
  · refine (completesAt_skip hc hopen (htrue hat)).congr hp hopen fun w hw => ?_
    rw [accept_bind_of_kind (by rw [hw]; exact hat)]
    rfl
  · refine (hfalse hat).congr hp hopen fun w hw => ?_
    rw [accept_bind_of_ne (by rw [hw]; exact hat)]

/-- **Steps one after another are completed** where the text ends: a step that was reached is
    completed by itself, and those behind it are given what they read. -/
theorem CompletesAt.bind {p : Parse α} {f : α → Parse β} (hp : CompletesAt G p c)
    (hc : c.Promising) (hadmits : ∀ a, Admits K F (f a)) (hl : Leads F G K)
    (hf : ∀ a, (p c).1 = some a → ¬ (p c).2.AtEnd → (p c).2.Promising →
      (p c).2.rest.length ≤ c.rest.length → CompletesAt F (f a) (p c).2) :
    CompletesAt F (p >>= f) c := by
  have hsteady (a : α) : Steady (f a) := (hadmits a).steady
  refine ⟨hp.steady.bind hsteady, fun hend hr => ?_⟩
  -- the complaints of the first step are among those of both
  have hr₁ : ∀ d ∈ (p c).2.reported, d.Mendable := by
    intro d hd
    cases ha : (p c).1 with
    | none => rw [Parse.bind_none ha] at hr; exact hr d hd
    | some a => rw [Parse.bind_some ha] at hr; exact hr d (((hsteady a).keeps _).subset hd)
  by_cases hend₁ : (p c).2.AtEnd
  · obtain ⟨K₁, hK₁⟩ := hp.completes hend₁ hr₁
    refine ⟨K₁ ++ K, fun ts u rest w hts hu hw => ?_⟩
    rw [List.map_append] at hts
    obtain ⟨ts₁, ts₂, rfl, hts₁, hts₂⟩ := List.map_eq_append_iff.mp hts
    obtain ⟨v, rest', hv, hF⟩ := hl.head rest hts₂ hu
    rw [List.append_assoc, hv] at hw
    obtain ⟨a, ha, htokens, hclean⟩ := hK₁ hts₁ hF hw
    rw [← hv] at htokens
    exact .bind ha ((hadmits a).reads hclean htokens hts₂ hu)
  · cases ha : (p c).1 with
    | none =>
      rw [Parse.bind_none ha] at hend
      exact absurd hend hend₁
    | some a =>
      rw [Parse.bind_some ha] at hend hr
      have hnext := hf a ha hend₁ (hp.steady.promising hc hend₁ hr₁) (hp.steady.rest_le c)
      obtain ⟨K, hK⟩ := hnext.completes hend hr
      refine ⟨K, fun ts u rest w hts hu hw => ?_⟩
      have hopen : ¬ c.AtEnd := fun hat => hend₁ (hp.steady.ending hat).1
      obtain ⟨hresult, hcut⟩ := hp.steady.alike (hw.cut hopen) hend₁
      exact .bind (hresult.trans ha) (hK hts hu (.inl hcut))

theorem CompletesAt.map {p : Parse α} (hp : CompletesAt F p c) (hc : c.Promising) (g : α → β) :
    CompletesAt F (p >>= fun a => pure (g a)) c :=
  hp.bind (K := []) hc (fun _ => admits_pure _) (fun _ hk => hk) fun _ _ _ _ _ => completesAt_pure _

/-- A step with a recovery is completed as the step itself: there is nothing to recover from. -/
theorem completesAt_orRecover {p : Parse α} {recover : Cursor → Cursor} (hp : CompletesAt F p c)
    (hr : Cursor.SteadyRecovery recover) (hc : c.Promising) :
    CompletesAt F (orRecover p recover) c := by
  refine ⟨steady_orRecover hp.steady hr, fun hend hd => ?_⟩
  rw [Parse.orRecover_reported hr.recovers] at hd
  by_cases hend₁ : (p c).2.AtEnd
  · obtain ⟨K, hK⟩ := hp.completes hend₁ hd
    refine ⟨K, fun ts u rest w hts hu hw => ?_⟩
    obtain ⟨a, ha, htokens, hclean⟩ := hK hts hu hw
    refine ⟨some a, ?_, ?_, ?_⟩
    all_goals rw [Parse.orRecover_some ha]
    · exact htokens
    · exact hclean
  · cases ha : (p c).1 with
    | none => exact absurd (hp.steady.promising hc hend₁ hd).clean (hp.steady.fails ha)
    | some a =>
      rw [Parse.orRecover_some ha] at hend
      exact absurd hend hend₁

end Completing

/-! ## 6. Sequences of steps -/

/-- The step reads `K`, and if it is cut short with at most `n` tokens left, it can be completed. -/
structure Completes {α : Type} (n : Nat) (K : List Filler) (F : Kind → Prop) (p : Parse α) :
    Prop where
  admits : Admits K F p
  completes {c : Cursor} : c.Promising → c.rest.length ≤ n → CompletesAt F p c

section Sequences

variable {α β : Type} {n : Nat} {K L : List Filler} {F G : Kind → Prop}

/-- At the end of the text a step is completed by what it reads, so that only the places before the
    end are left to look at. -/
theorem Admits.completes {p : Parse α} (hp : Admits K F p) (hopen : ∀ {c : Cursor}, c.Promising →
    c.rest.length ≤ n → ¬ c.AtEnd → CompletesAt F p c) : Completes n K F p := by
  refine ⟨hp, fun {c} hc hn => ?_⟩
  by_cases hend : c.AtEnd
  · exact hp.completesAt hend
  · exact hopen hc hn hend

/-- Behind the current token, fewer are left. -/
theorem Completes.advanced {p : Parse α} {c : Cursor} (hp : Completes (n - 1) K F p)
    (hc : c.Promising) (hn : c.rest.length ≤ n) (hopen : ¬ c.AtEnd) :
    CompletesAt F p c.advance := by
  have hlt := hc.closed.rest_advance hopen
  exact hp.completes hc.advance (by omega)

theorem Completes.mono {p : Parse α} (hp : Completes n K F p) (hF : ∀ k, G k → F k) :
    Completes n K G p :=
  ⟨hp.admits.mono hF, fun hc hn => (hp.completes hc hn).mono hF⟩

/-- **Steps one after another can be completed if both can.** -/
theorem Completes.bind {p : Parse α} {f : α → Parse β} (hp : Completes n K G p)
    (hf : ∀ a, Completes n L F (f a)) (hl : Leads F G L) : Completes n (K ++ L) F (p >>= f) := by
  refine ⟨hp.admits.bind (fun a => (hf a).admits) hl, fun hc hn => ?_⟩
  exact (hp.completes hc hn).bind hc (fun a => (hf a).admits) hl fun a _ _ hc₁ hle =>
    (hf a).completes hc₁ (Nat.le_trans hle hn)

theorem Completes.map {p : Parse α} (hp : Completes n K F p) (g : α → β) :
    Completes n K F (p >>= fun a => pure (g a)) :=
  ⟨hp.admits.map g, fun hc hn => (hp.completes hc hn).map hc g⟩

theorem completes_pure (a : α) : Completes n [] F (pure a : Parse α) :=
  ⟨admits_pure a, fun _ _ => completesAt_pure a⟩

theorem completes_expect (f : Filler) {k : Kind} (hk : f.kind = k) (e : SyntaxError) :
    Completes n [f] F (expect k e) :=
  ⟨admits_expect f hk e, fun hc _ => completesAt_expect f hk e hc⟩

/-- A word or sign that must come next, and then another step. -/
theorem Completes.behind {g : Token → Parse α} (hg : ∀ t, Completes n K F (g t)) (f : Filler)
    {k : Kind} (hk : f.kind = k) (e : SyntaxError) :
    Completes n (f :: K) F (expect k e >>= g) :=
  (completes_expect (F := fun _ => True) f hk e).bind hg (by cases K <;> simp [Leads])

/-- A word or sign that may be left out, and then another step. -/
theorem Completes.optional {q : Parse α} (hq : Completes n K F q) {k : Kind}
    (hl : Leads F (fun k' => k' ≠ k) K) : Completes n K F (accept k >>= fun _ => q) := by
  have hsteady := (steady_accept k).bind fun _ => hq.admits.steady
  refine (admits_accept hsteady hq.admits hl).completes fun hc hn hopen => ?_
  have hlt := hc.closed.rest_advance hopen
  exact completesAt_accept hsteady hc hopen
    (fun _ => hq.completes hc.advance (by omega)) fun _ => hq.completes hc hn

/-- Entries with commas between them. An entry behind a comma is completed, but none is added. -/
theorem Completes.alongCommas {entry : Parse α} {more : Parse (List α)}
    (hentry : Completes n K F entry) (hcomma : ∀ k, F k → k ≠ .comma) (hmore : Steady more)
    (hnext : ∀ {c : Cursor}, c.Promising → c.rest.length < n → CompletesAt F more c) :
    Completes n K F (alongCommas entry more) := by
  have hbehind (a : α) : Completes n [] F (accept .comma >>= fun b =>
      if b = true then more >>= fun as => pure (a :: as) else pure [a] : Parse (List α)) := by
    have hsteady := (steady_accept .comma).bind fun b => steady_ite (q := b = true)
      (hmore.bind fun as => steady_pure (a :: as)) (steady_pure [a])
    refine (admits_accept hsteady (admits_pure _) hcomma).completes fun hc hn hopen => ?_
    have hlt := hc.closed.rest_advance hopen
    exact completesAt_accept hsteady hc hopen
      (fun _ => (hnext hc.advance (by omega)).map hc.advance _) fun _ => completesAt_pure _
  have hall := hentry.bind hbehind fun _ hk => hk
  rwa [List.append_nil] at hall

end Sequences

end FencedCode
