import FencedCode.Proofs.Syntax.Law

/-!
# What a rule looks at

A rule looks at the tokens that it passes and at the one that it stops at, and at nothing behind.
So two texts that begin alike are read alike, as long as the reading stops before their common part
ends. If one of them ends there, then what is read up to its end is complained about as incomplete
only, provided that the longer text is read without a complaint.

* `Cursor.Cut` -- two cursors at the same place, one in a text that ends earlier;
* `Local` -- that a step moves on and sees nothing behind the place where it stops;
* `Steady` -- that moreover it complains when it fails, and what it complains about where a text
  ends;
* `Steady.branch`, `Steady.bind`, `steady_orRecover`, … -- the laws of steady steps;
* `Grows` -- that a steady step does the same with more room, if it has no complaint;
* `grows_law`, `Rule.grows` -- **all rules are steady, and what they accept they accept with more
  room**.
-/

namespace FencedCode

open Parse Grammar

/-! ## 1. Two texts that begin alike -/

namespace Cursor

/-- The cursor stands at an end of text. -/
def AtEnd (c : Cursor) : Prop :=
  c.current.kind = .eof

/-- `Cut post c c'`: both cursors stand before the same tokens, behind which the text of `c` goes
    on with `post` and that of `c'` ends. -/
structure Cut (post : List Token) (c c' : Cursor) : Prop where
  previous : c.previous = c'.previous
  reported : c.reported = c'.reported
  tokens : ∃ ahead last, ahead ≠ [] ∧ (∀ t ∈ ahead, t.kind ≠ .eof) ∧ last.kind = .eof ∧
    c.tokens = ahead ++ post ∧ c'.tokens = ahead ++ [last]

section Cut

variable {post : List Token} {c c' : Cursor}

theorem Cut.current (h : Cut post c c') : c.current = c'.current := by
  obtain ⟨ahead, last, hne, _, _, hc, hc'⟩ := h.tokens
  rcases ahead with _ | ⟨t, ahead⟩
  · exact absurd rfl hne
  · exact (List.cons.inj hc).1.trans (List.cons.inj hc').1.symm

theorem Cut.not_atEnd (h : Cut post c c') : ¬ c'.AtEnd := by
  obtain ⟨ahead, last, hne, hopen, _, _, hc'⟩ := h.tokens
  rcases ahead with _ | ⟨t, ahead⟩
  · exact absurd rfl hne
  · have ht : c'.current = t := (List.cons.inj hc').1
    unfold AtEnd
    rw [ht]
    exact hopen t List.mem_cons_self

theorem Cut.isAt (h : Cut post c c') (k : Kind) : c.isAt k = c'.isAt k := by
  unfold Cursor.isAt
  rw [h.current]

theorem Cut.report (h : Cut post c c') (t : Token) (e : SyntaxError) :
    Cut post (c.report t e) (c'.report t e) :=
  ⟨h.previous, congrArg (Diagnostic.atToken t e :: ·) h.reported, h.tokens⟩

/-- Both cursors move on to the next common token, unless there is none. -/
theorem Cut.advance (h : Cut post c c') (hopen : ¬ c'.advance.AtEnd) :
    Cut post c.advance c'.advance := by
  obtain ⟨ahead, last, hne, hkinds, hlast, hc, hc'⟩ := h.tokens
  have hk : c'.current.kind ≠ .eof := h.not_atEnd
  rcases ahead with _ | ⟨t, _ | ⟨u, ahead⟩⟩
  · exact absurd rfl hne
  · have hrest : c'.rest = [last] := (List.cons.inj hc').2
    rw [advance_of_cons hrest hk] at hopen
    exact absurd hlast hopen
  · have hrest : c.rest = u :: (ahead ++ post) := (List.cons.inj hc).2
    have hrest' : c'.rest = u :: (ahead ++ [last]) := (List.cons.inj hc').2
    rw [advance_of_cons hrest (by rw [h.current]; exact hk), advance_of_cons hrest' hk]
    refine ⟨h.current, h.reported, u :: ahead, last, List.cons_ne_nil _ _, fun v hv => ?_, hlast,
      rfl, rfl⟩
    exact hkinds v (List.mem_cons_of_mem _ hv)

theorem AtEnd.advance (h : c.AtEnd) : c.advance = c := by
  unfold Cursor.advance
  rw [if_pos (isAt_iff.mpr h)]

end Cut

end Cursor

/-! ## 2. Steady steps -/

/-- A step that moves on, takes no complaint back, and sees nothing behind the place where it
    stops. -/
structure Local {α : Type} (p : Parse α) : Prop where
  moves (c : Cursor) : (p c).2.tokens <:+ c.tokens
  keeps (c : Cursor) : c.reported <:+ (p c).2.reported
  /-- At the end of the text it stays there, and its complaints are about the end. -/
  ending {c : Cursor} : c.AtEnd →
    (p c).2.AtEnd ∧ ∀ d ∈ (p c).2.reported, d ∈ c.reported ∨ d.incomplete = true
  /-- Before the end its complaints are about other tokens. -/
  inside {c : Cursor} : ¬ (p c).2.AtEnd →
    ∀ d ∈ (p c).2.reported, d ∈ c.reported ∨ d.incomplete = false
  /-- If it stops before the end of the shorter text, it does the same in the longer one. -/
  alike {post : List Token} {c c' : Cursor} : Cursor.Cut post c c' → ¬ (p c').2.AtEnd →
    (p c).1 = (p c').1 ∧ Cursor.Cut post (p c).2 (p c').2

/-- Moreover it complains when it fails, and where the shorter text ends it complains about the end
    only, unless it complains in the longer text as well. -/
structure Steady {α : Type} (p : Parse α) : Prop extends Local p where
  fails {c : Cursor} : (p c).1 = none → (p c).2.reported ≠ []
  early {post : List Token} {c c' : Cursor} : Cursor.Cut post c c' → (p c).2.reported = [] →
    (p c').2.AtEnd → ∀ d ∈ (p c').2.reported, d.incomplete = true

section Steps

variable {α β : Type}

theorem Local.clean {p : Parse α} (hp : Local p) {c : Cursor} (hr : (p c).2.reported = []) :
    c.reported = [] := by
  have hkeeps := hp.keeps c
  rw [hr] at hkeeps
  exact List.suffix_nil.mp hkeeps

theorem Steady.succeeds {p : Parse α} (hp : Steady p) {c : Cursor}
    (hr : (p c).2.reported = []) : ∃ a, (p c).1 = some a := by
  cases hresult : (p c).1 with
  | none => exact absurd hr (hp.fails hresult)
  | some a => exact ⟨a, rfl⟩

theorem local_stop : Local (stop : Parse α) where
  moves _ := List.suffix_rfl
  keeps _ := List.suffix_rfl
  ending hend := ⟨hend, fun _ => .inl⟩
  inside _ _ := .inl
  alike hcut _ := ⟨rfl, hcut⟩

section Branch

variable {p : Parse α} {f : α → Parse β} {g : Parse β} {c : Cursor}

/-- A step without a complaint and what comes behind it. -/
theorem Steady.branch_clean (hp : Steady p) (hf : ∀ a, Steady (f a)) (hg : Local g)
    (hclean : (p.branch f g c).2.reported = []) :
    ∃ a, (p c).1 = some a ∧ (p c).2.reported = [] ∧ (f a (p c).2).2.reported = [] := by
  cases ha : (p c).1 with
  | none =>
    rw [branch_none ha] at hclean
    exact absurd (hg.clean hclean) (hp.fails ha)
  | some a =>
    rw [branch_some ha] at hclean
    exact ⟨a, rfl, (hf a).clean hclean, hclean⟩

/-- Where a step stops at the end, what comes behind it stays there, and complains about the end. -/
theorem branch_atEnd (hf : ∀ a, Local (f a)) (hg : Local g) (hend : (p c).2.AtEnd) :
    (p.branch f g c).2.AtEnd ∧
      ∀ d ∈ (p.branch f g c).2.reported, d ∈ (p c).2.reported ∨ d.incomplete = true := by
  cases ha : (p c).1 with
  | none => rw [branch_none ha]; exact hg.ending hend
  | some a => rw [branch_some ha]; exact (hf a).ending hend

theorem Local.branch (hp : Local p) (hf : ∀ a, Local (f a)) (hg : Local g) :
    Local (p.branch f g) where
  moves c := by
    cases ha : (p c).1 with
    | none => rw [branch_none ha]; exact (hg.moves _).trans (hp.moves c)
    | some a => rw [branch_some ha]; exact ((hf a).moves _).trans (hp.moves c)
  keeps c := by
    cases ha : (p c).1 with
    | none => rw [branch_none ha]; exact (hp.keeps c).trans (hg.keeps _)
    | some a => rw [branch_some ha]; exact (hp.keeps c).trans ((hf a).keeps _)
  ending {c} hend := by
    obtain ⟨hstays, hlater⟩ := branch_atEnd hf hg (hp.ending hend).1
    refine ⟨hstays, fun d hd => ?_⟩
    rcases hlater d hd with hd | hd
    · exact (hp.ending hend).2 d hd
    · exact .inr hd
  inside {c} hopen d hd := by
    have hopen₁ : ¬ (p c).2.AtEnd := fun hend => hopen (branch_atEnd hf hg hend).1
    have hlater : d ∈ (p c).2.reported ∨ d.incomplete = false := by
      cases ha : (p c).1 with
      | none => rw [branch_none ha] at hopen hd; exact hg.inside hopen d hd
      | some a => rw [branch_some ha] at hopen hd; exact (hf a).inside hopen d hd
    rcases hlater with hd | hd
    · exact hp.inside hopen₁ d hd
    · exact .inr hd
  alike {post c c'} hcut hopen := by
    have hopen₁ : ¬ (p c').2.AtEnd := fun hend => hopen (branch_atEnd hf hg hend).1
    obtain ⟨hresult, hcut₁⟩ := hp.alike hcut hopen₁
    cases ha : (p c').1 with
    | none =>
      rw [branch_none ha] at hopen
      rw [branch_none ha, branch_none (hresult.trans ha)]
      exact hg.alike hcut₁ hopen
    | some a =>
      rw [branch_some ha] at hopen
      rw [branch_some ha, branch_some (hresult.trans ha)]
      exact (hf a).alike hcut₁ hopen

/-- **Steady steps one after another are steady**, whatever comes behind a failure. -/
theorem Steady.branch (hp : Steady p) (hf : ∀ a, Steady (f a)) (hg : Local g) :
    Steady (p.branch f g) where
  toLocal := hp.toLocal.branch (fun a => (hf a).toLocal) hg
  fails {c} hnone hclean := by
    obtain ⟨a, ha, -, hsecond⟩ := hp.branch_clean hf hg hclean
    rw [branch_some ha] at hnone
    exact (hf a).fails hnone hsecond
  early {post c c'} hcut hclean hend := by
    obtain ⟨a, ha, hclean₁, hclean₂⟩ := hp.branch_clean hf hg hclean
    by_cases hend₁ : (p c').2.AtEnd
    · -- the shorter text ended in the first step: what comes behind stays at its end
      intro d hd
      rcases (branch_atEnd (fun a => (hf a).toLocal) hg hend₁).2 d hd with hd | hd
      · exact hp.early hcut hclean₁ hend₁ d hd
      · exact hd
    · obtain ⟨hresult, hcut₁⟩ := hp.alike hcut hend₁
      rw [branch_some (hresult.symm.trans ha)] at hend ⊢
      exact (hf a).early hcut₁ hclean₂ hend

theorem Steady.bind (hp : Steady p) (hf : ∀ a, Steady (f a)) : Steady (p >>= f) := by
  rw [← branch_stop]
  exact hp.branch hf local_stop

/-- Two steps without a complaint: the first one has none and succeeds, and the second one has
    none. -/
theorem Steady.bind_clean (hp : Steady p) (hf : ∀ a, Steady (f a))
    (hclean : ((p >>= f) c).2.reported = []) :
    ∃ a, (p c).1 = some a ∧ (p c).2.reported = [] ∧ (f a (p c).2).2.reported = [] := by
  rw [← branch_stop] at hclean
  exact hp.branch_clean hf local_stop hclean

end Branch

/-- Whether it fails or not, a step that is blamed leaves a complaint. -/
theorem Steady.blaming_reported {p : Parse α} (hp : Steady p) (e : SyntaxError) {c : Cursor} :
    (blaming p e c).2.reported ≠ [] := by
  cases ha : (p c).1 with
  | none => rw [blaming_of_none ha]; exact hp.fails ha
  | some a => rw [blaming_of_some ha]; exact List.cons_ne_nil _ _

/-- A step may be another steady one for each token that it stands at. -/
theorem steady_of_agree {p : Parse α} (h : ∀ t, ∃ q, Steady q ∧ AgreeAt (some t) p q) :
    Steady p := by
  have hat (c : Cursor) : ∃ q, Steady q ∧ ∀ c' : Cursor, c'.current = c.current → p c' = q c' := by
    obtain ⟨q, hq, hpq⟩ := h c.current
    exact ⟨q, hq, fun c' hc' => hpq c' fun t ht => hc'.trans (Option.some.inj ht)⟩
  constructor
  · constructor
    · intro c
      obtain ⟨q, hq, hpq⟩ := hat c
      rw [hpq c rfl]
      exact hq.moves c
    · intro c
      obtain ⟨q, hq, hpq⟩ := hat c
      rw [hpq c rfl]
      exact hq.keeps c
    · intro c
      obtain ⟨q, hq, hpq⟩ := hat c
      rw [hpq c rfl]
      exact hq.ending
    · intro c
      obtain ⟨q, hq, hpq⟩ := hat c
      rw [hpq c rfl]
      exact hq.inside
    · intro post c c' hcut
      obtain ⟨q, hq, hpq⟩ := hat c'
      rw [hpq c hcut.current, hpq c' rfl]
      exact hq.alike hcut
  · intro c
    obtain ⟨q, hq, hpq⟩ := hat c
    rw [hpq c rfl]
    exact hq.fails
  · intro post c c' hcut
    obtain ⟨q, hq, hpq⟩ := hat c'
    rw [hpq c hcut.current, hpq c' rfl]
    exact hq.early hcut

/-- A step that only looks at the current token. -/
theorem steady_look (g : Token → α) : Steady (fun c => (some (g c.current), c) : Parse α) where
  moves _ := List.suffix_rfl
  keeps _ := List.suffix_rfl
  ending hend := ⟨hend, fun _ => .inl⟩
  inside _ _ := .inl
  alike hcut _ := ⟨by rw [hcut.current], hcut⟩
  fails := nofun
  early hcut _ hend := absurd hend hcut.not_atEnd

theorem steady_pure (a : α) : Steady (pure a : Parse α) :=
  steady_look fun _ => a

theorem steady_peek : Steady peek :=
  steady_look id

/-- A step that passes the current token. -/
theorem steady_step (g : Token → α) :
    Steady (fun c => (some (g c.current), c.advance) : Parse α) where
  moves c := c.advance_tokens_suffix
  keeps c := by simp only [Cursor.advance_reported, List.suffix_rfl]
  ending {c} hend := by
    dsimp only
    rw [hend.advance]
    exact ⟨hend, fun _ => .inl⟩
  inside {c} _ := by
    rw [Cursor.advance_reported]
    exact fun _ => .inl
  alike {post c c'} hcut hopen := by
    dsimp only
    rw [hcut.current]
    exact ⟨rfl, hcut.advance hopen⟩
  fails := nofun
  early {post c c'} hcut hclean _ := by
    rw [Cursor.advance_reported] at hclean ⊢
    rw [← hcut.reported, hclean]
    exact nofun

theorem steady_skip : Steady skip :=
  steady_step fun _ => ()

theorem steady_take : Steady take :=
  steady_step id

/-- A step that complains about the current token. -/
theorem steady_report (o : Option α) (e : SyntaxError) :
    Steady (fun c => (o, c.report c.current e) : Parse α) where
  moves _ := List.suffix_rfl
  keeps _ := List.suffix_cons _ _
  ending {c} hend := by
    refine ⟨hend, fun d hd => ?_⟩
    rcases List.mem_cons.mp hd with rfl | hd
    · exact .inr (decide_eq_true hend)
    · exact .inl hd
  inside {c} hopen d hd := by
    rcases List.mem_cons.mp hd with rfl | hd
    · exact .inr (decide_eq_false hopen)
    · exact .inl hd
  alike {post c c'} hcut _ := by
    refine ⟨rfl, ?_⟩
    rw [hcut.current]
    exact hcut.report _ e
  fails _ := List.cons_ne_nil _ _
  early _ hclean := absurd hclean (List.cons_ne_nil _ _)

theorem steady_fail (e : SyntaxError) : Steady (fail e : Parse α) :=
  steady_report none e

theorem steady_complainHere (e : SyntaxError) : Steady (complainHere e) :=
  steady_report (some ()) e

/-- **A step that complains about where it started.** The token is not the one at which the step
    stops, but if it is the end of the text, so is that one. -/
theorem Steady.blaming {p : Parse α} (hp : Steady p) (e : SyntaxError) : Steady (blaming p e) where
  moves c := by
    cases ha : (p c).1 with
    | none => rw [blaming_of_none ha]; exact hp.moves c
    | some a => rw [blaming_of_some ha]; exact hp.moves c
  keeps c := by
    cases ha : (p c).1 with
    | none => rw [blaming_of_none ha]; exact hp.keeps c
    | some a => rw [blaming_of_some ha]; exact (hp.keeps c).trans (List.suffix_cons _ _)
  fails _ := hp.blaming_reported e
  ending {c} hend := by
    cases ha : (p c).1 with
    | none => rw [blaming_of_none ha]; exact hp.ending hend
    | some a =>
      rw [blaming_of_some ha]
      refine ⟨(hp.ending hend).1, fun d hd => ?_⟩
      rcases List.mem_cons.mp hd with rfl | hd
      · exact .inr (decide_eq_true hend)
      · exact (hp.ending hend).2 d hd
  inside {c} hopen := by
    cases ha : (p c).1 with
    | none => rw [blaming_of_none ha] at hopen ⊢; exact hp.inside hopen
    | some a =>
      rw [blaming_of_some ha] at hopen ⊢
      intro d hd
      rcases List.mem_cons.mp hd with rfl | hd
      · exact .inr (decide_eq_false fun hend => hopen (hp.ending hend).1)
      · exact hp.inside hopen d hd
  alike {post c c'} hcut hopen := by
    cases ha : (p c').1 with
    | none =>
      rw [blaming_of_none ha] at hopen ⊢
      obtain ⟨hresult, hcut₁⟩ := hp.alike hcut hopen
      rw [blaming_of_none (hresult.trans ha)]
      exact ⟨rfl, hcut₁⟩
    | some a =>
      rw [blaming_of_some ha] at hopen ⊢
      obtain ⟨hresult, hcut₁⟩ := hp.alike hcut hopen
      rw [blaming_of_some (hresult.trans ha), hcut.current]
      exact ⟨rfl, hcut₁.report _ _⟩
  early _ hclean := absurd hclean (hp.blaming_reported e)

theorem steady_ite {q : Prop} [Decidable q] {p p' : Parse α} (hp : Steady p) (hp' : Steady p') :
    Steady (if q then p else p') := by
  split
  · exact hp
  · exact hp'

theorem steady_expect (k : Kind) (e : SyntaxError) : Steady (expect k e) := by
  rw [expect_eq]
  exact steady_peek.bind fun _ => steady_ite steady_take (steady_fail e)

theorem steady_accept (k : Kind) : Steady (accept k) := by
  rw [accept_eq]
  exact steady_peek.bind fun _ =>
    steady_ite (steady_skip.bind fun _ => steady_pure true) (steady_pure false)

end Steps

/-! ## 3. Recovery -/

namespace Cursor

/-- A walk that does not pass the end of a text, and sees nothing behind the place where it
    stops. -/
structure SteadyWalk (walk : Walk) : Prop where
  ending {previous current : Token} {rest : List Token} : current.kind = .eof →
    (walk previous current rest).2.1.kind = .eof
  alike {post ahead : List Token} {previous current last : Token} : last.kind = .eof →
    (∀ t ∈ current :: ahead, t.kind ≠ .eof) →
    (walk previous current (ahead ++ [last])).2.1.kind ≠ .eof →
    ∃ x y ahead', (∀ t ∈ y :: ahead', t.kind ≠ .eof) ∧
      walk previous current (ahead ++ [last]) = (x, y, ahead' ++ [last]) ∧
      walk previous current (ahead ++ post) = (x, y, ahead' ++ post)

theorem steadyWalk_toBoundary : SteadyWalk toBoundary := by
  refine ⟨fun {previous current rest} heof => ?_, ?_⟩
  · cases rest with
    | nil => exact heof
    | cons t rest =>
      unfold toBoundary
      rw [if_pos (.inl heof)]
      exact heof
  · intro post ahead previous current last hlast hkinds hopen
    induction ahead generalizing previous current with
    | nil =>
      by_cases hstop : current.kind = .eof ∨ previous.kind = .semicolon ∨
          isBoundary current.kind = true
      · refine ⟨previous, current, [], hkinds, ?_, ?_⟩
        · simp only [List.nil_append, toBoundary, if_pos hstop]
        · cases post with
          | nil => rfl
          | cons t post => simp only [List.nil_append, toBoundary, if_pos hstop]
      · simp only [List.nil_append, toBoundary, if_neg hstop] at hopen
        exact absurd hlast hopen
    | cons u ahead ih =>
      by_cases hstop : current.kind = .eof ∨ previous.kind = .semicolon ∨
          isBoundary current.kind = true
      · refine ⟨previous, current, u :: ahead, hkinds, ?_, ?_⟩
        · simp only [List.cons_append, toBoundary, if_pos hstop]
        · simp only [List.cons_append, toBoundary, if_pos hstop]
      · simp only [List.cons_append, toBoundary, if_neg hstop] at hopen ⊢
        exact ih (fun t ht => hkinds t (List.mem_cons_of_mem _ ht)) hopen

theorem steadyWalk_toFunctionEnd : SteadyWalk toFunctionEnd := by
  refine ⟨fun {previous current rest} heof => ?_, ?_⟩
  · cases rest with
    | nil => exact heof
    | cons t rest =>
      unfold toFunctionEnd
      rw [if_pos (.inl heof)]
      exact heof
  · intro post ahead previous current last hlast hkinds hopen
    induction ahead generalizing previous current with
    | nil =>
      have hstop : ¬ (current.kind = .eof ∨ (current.kind = .kwBegin ∧ last.kind = .kwCode)) := by
        rw [hlast]
        rintro (heof | ⟨_, hcode⟩)
        · exact hkinds current List.mem_cons_self heof
        · cases hcode
      have hskip : ¬ (current.kind = .kwEnd ∧ last.kind = .kwFn) := by
        rw [hlast]
        rintro ⟨_, hfn⟩
        cases hfn
      simp only [List.nil_append, toFunctionEnd, if_neg hstop, if_neg hskip] at hopen
      exact absurd hlast hopen
    | cons u ahead ih =>
      by_cases hstop : current.kind = .eof ∨ (current.kind = .kwBegin ∧ u.kind = .kwCode)
      · refine ⟨previous, current, u :: ahead, hkinds, ?_, ?_⟩
        · simp only [List.cons_append, toFunctionEnd, if_pos hstop]
        · simp only [List.cons_append, toFunctionEnd, if_pos hstop]
      by_cases hskip : current.kind = .kwEnd ∧ u.kind = .kwFn
      · simp only [List.cons_append, toFunctionEnd, if_neg hstop, if_pos hskip] at hopen ⊢
        rcases ahead with _ | ⟨v, ahead⟩
        · exact absurd hlast hopen
        · refine ⟨u, v, ahead, fun t ht => hkinds t ?_, rfl, rfl⟩
          exact List.mem_cons_of_mem _ (List.mem_cons_of_mem _ ht)
      · simp only [List.cons_append, toFunctionEnd, if_neg hstop, if_neg hskip] at hopen ⊢
        exact ih (fun t ht => hkinds t (List.mem_cons_of_mem _ ht)) hopen

/-- A recovery that takes no complaint back, does not pass the end of a text, and sees nothing
    behind the place where it stops. -/
structure SteadyRecovery (recover : Cursor → Cursor) : Prop where
  recovers : Recovers recover
  ending {c : Cursor} : c.AtEnd → (recover c).AtEnd
  alike {post : List Token} {c c' : Cursor} : Cut post c c' → ¬ (recover c').AtEnd →
    Cut post (recover c) (recover c')

theorem Cut.walked {walk : Walk} (hwalk : SteadyWalk walk) {post : List Token} {c c' : Cursor}
    (hcut : Cut post c c') (hopen : ¬ (c'.walked walk).AtEnd) :
    Cut post (c.walked walk) (c'.walked walk) := by
  obtain ⟨ahead, last, hne, hkinds, hlast, hc, hc'⟩ := hcut.tokens
  rcases ahead with _ | ⟨t, ahead⟩
  · exact absurd rfl hne
  have hcurrent : c.current = t := (List.cons.inj hc).1
  have hcurrent' : c'.current = t := (List.cons.inj hc').1
  have hrest : c.rest = ahead ++ post := (List.cons.inj hc).2
  have hrest' : c'.rest = ahead ++ [last] := (List.cons.inj hc').2
  unfold AtEnd Cursor.walked at hopen
  rw [hcurrent', hrest'] at hopen
  obtain ⟨x, y, ahead', hkinds', hrun', hrun⟩ := hwalk.alike hlast hkinds hopen
  unfold Cursor.walked
  rw [hcurrent, hcurrent', hrest, hrest', hcut.previous, hrun, hrun']
  exact ⟨rfl, hcut.reported, y :: ahead', last, List.cons_ne_nil _ _, hkinds', hlast, rfl, rfl⟩

theorem steadyRecovery_skipFunction : SteadyRecovery skipFunction where
  recovers := recovers_skipFunction
  ending hend := steadyWalk_toFunctionEnd.ending hend
  alike hcut hopen := hcut.walked steadyWalk_toFunctionEnd hopen

theorem steadyRecovery_synchronize : SteadyRecovery synchronize where
  recovers := recovers_synchronize
  ending {c} hend := by
    unfold synchronize
    split
    · exact steadyWalk_toBoundary.ending hend
    · rw [hend.advance]
      exact steadyWalk_toBoundary.ending hend
  alike {post c c'} hcut hopen := by
    have hstay {c₁ : Cursor} (hend : c₁.AtEnd) : (c₁.walked toBoundary).AtEnd :=
      steadyWalk_toBoundary.ending hend
    unfold synchronize at hopen ⊢
    rw [hcut.isAt]
    by_cases hat : c'.isAt .kwEnd = true
    · rw [if_pos hat] at hopen ⊢
      rw [if_pos hat]
      exact hcut.walked steadyWalk_toBoundary hopen
    · rw [if_neg hat] at hopen ⊢
      rw [if_neg hat]
      refine (hcut.advance fun hend => hopen ?_).walked steadyWalk_toBoundary hopen
      exact hstay hend

theorem steadyRecovery_id : SteadyRecovery id where
  recovers := recovers_id
  ending := id
  alike hcut _ := hcut

end Cursor

/-- A recovery as a step. -/
theorem Cursor.SteadyRecovery.steady {α : Type} {recover : Cursor → Cursor}
    (hr : Cursor.SteadyRecovery recover) (a : α) :
    Steady (fun c => (some a, recover c) : Parse α) where
  moves c := (hr.recovers c).2
  keeps c := ⟨[], (hr.recovers c).1.symm⟩
  ending {c} hend := by
    refine ⟨hr.ending hend, fun d hd => .inl ?_⟩
    rwa [← (hr.recovers c).1]
  inside {c} _ d hd := by
    left
    rwa [← (hr.recovers c).1]
  alike hcut hopen := ⟨rfl, hr.alike hcut hopen⟩
  fails := nofun
  early {post c c'} hcut hclean _ := by
    dsimp only at hclean ⊢
    rw [(hr.recovers c).1] at hclean
    rw [(hr.recovers c').1, ← hcut.reported, hclean]
    exact nofun

/-- **A steady step with a steady recovery is steady.** -/
theorem steady_orRecover {α : Type} {p : Parse α} {recover : Cursor → Cursor} (hp : Steady p)
    (hr : Cursor.SteadyRecovery recover) : Steady (orRecover p recover) := by
  rw [orRecover_eq_branch]
  exact hp.branch (fun a => steady_pure (some a)) (hr.steady none).toLocal

/-! ## 4. More room -/

/-- The step is steady, and another one, which has more room, does the same if there is nothing to
    complain about. -/
structure Grows {α : Type} (p q : Parse α) : Prop where
  steady : Steady p
  same (c : Cursor) : (p c).2.reported = [] → q c = p c

section Growing

variable {α β : Type}

theorem Steady.grows {p : Parse α} (hp : Steady p) : Grows p p :=
  ⟨hp, fun _ _ => rfl⟩

/-- Where there is always a complaint, there is nothing to compare. -/
theorem Steady.grows_of_reported {p : Parse α} (hp : Steady p)
    (hreported : ∀ c, (p c).2.reported ≠ []) (q : Parse α) : Grows p q :=
  ⟨hp, fun c hclean => absurd hclean (hreported c)⟩

/-- What comes behind a failure is not compared, as there is a complaint. -/
theorem Grows.branch {p q : Parse α} {f g : α → Parse β} {p' : Parse β} (hp : Grows p q)
    (hf : ∀ a, Grows (f a) (g a)) (hp' : Local p') (q' : Parse β) :
    Grows (p.branch f p') (q.branch g q') := by
  have hsteady (a : α) : Steady (f a) := (hf a).steady
  refine ⟨hp.steady.branch hsteady hp', fun c hclean => ?_⟩
  obtain ⟨a, ha, hclean₁, hclean₂⟩ := hp.steady.branch_clean hsteady hp' hclean
  have hsame := hp.same c hclean₁
  rw [branch_some ha, branch_some (by rw [hsame]; exact ha), hsame]
  exact (hf a).same _ hclean₂

theorem Grows.bind {p q : Parse α} {f g : α → Parse β} (hp : Grows p q)
    (hf : ∀ a, Grows (f a) (g a)) : Grows (p >>= f) (q >>= g) := by
  rw [← branch_stop, ← branch_stop]
  exact hp.branch hf local_stop stop

/-- Steps may be others for each token that they stand at. -/
theorem grows_of_agree {p q : Parse α} (h : ∀ t, ∃ p' q', Grows p' q' ∧ AgreeAt (some t) p p' ∧
    AgreeAt (some t) q q') : Grows p q := by
  refine ⟨steady_of_agree fun t => ?_, fun c hclean => ?_⟩
  · obtain ⟨p', q', hgrows, hp, -⟩ := h t
    exact ⟨p', hgrows.steady, hp⟩
  · obtain ⟨p', q', hgrows, hp, hq⟩ := h c.current
    have hcurrent : ∀ t ∈ some c.current, c.current = t := fun t ht => Option.some.inj ht
    rw [hp c hcurrent] at hclean ⊢
    rw [hq c hcurrent]
    exact hgrows.same c hclean

end Growing

/-! ## 5. All rules -/

theorem Cursor.steadyRecovery_toBoundary :
    Cursor.SteadyRecovery fun c => c.walked Cursor.toBoundary where
  recovers := Cursor.recovers_toBoundary
  ending := Cursor.steadyWalk_toBoundary.ending
  alike hcut hopen := hcut.walked Cursor.steadyWalk_toBoundary hopen

theorem steady_recovery {r : Rule} (hr : r.isRecovery = true) (given : r.Given) :
    Steady (r.run 0 given) := by
  cases r with
  | synchronize => exact Cursor.steadyRecovery_synchronize.steady ()
  | boundary => exact Cursor.steadyRecovery_toBoundary.steady ()
  | skipFunction => exact Cursor.steadyRecovery_skipFunction.steady ()
  | _ => cases hr

/-- The laws of steps that do the same with more room. -/
theorem grows_law : Law Grows where
  pure a := (steady_pure a).grows
  skip := steady_skip.grows
  complain _ := (steady_complainHere _).grows
  fail _ := (steady_fail _).grows
  look := grows_of_agree
  bind hp hf := hp.bind hf
  branch hp hf hp' := hp.branch hf hp'.steady.toLocal _
  blaming _ hp := (hp.steady.blaming _).grows_of_reported (fun _ => hp.steady.blaming_reported _) _
  recovery given hr := (steady_recovery hr given).grows
  nesting q := (steady_fail _).grows_of_reported (fun _ => List.cons_ne_nil _ _) q

theorem steady_withinLimit (count : Nat) (e : SyntaxError) : Steady (withinLimit count e) := by
  rw [withinLimit_eq]
  exact steady_ite (steady_complainHere e) (steady_pure ())

theorem steady_typeWord (e : SyntaxError) : Steady (typeWord e) := by
  rw [typeWord_eq]
  refine steady_peek.bind fun t => ?_
  split
  · exact steady_fail _
  · exact steady_skip.bind fun _ => steady_pure _

theorem steady_parameter : Steady parameter :=
  (steady_typeWord _).bind fun _ => (steady_expect _ _).bind fun _ => steady_pure _

/-- **What a rule accepts it accepts with more room.** -/
theorem Grammar.Rule.grows (r : Rule) (room : Nat) (given : r.Given) :
    Grows (r.run room given) (r.run (room + 1) given) := by
  refine grows_law.rule (N := fun _ => True) trivial (fun {room count} _ hexpression hmore => ?_)
    (fun {room count} _ hmore => ?_) room r given ?_
  · rw [arguments_eq, arguments_eq]
    exact (steady_withinLimit _ _).grows.bind fun _ =>
      grows_law.alongCommas hexpression (hmore trivial)
  · rw [parameters_eq, parameters_eq]
    exact (steady_withinLimit _ _).grows.bind fun _ =>
      grows_law.alongCommas steady_parameter.grows (hmore trivial)
  · cases r <;> trivial

/-- **Every rule is steady.** -/
theorem Grammar.Rule.steady (r : Rule) (room : Nat) (given : r.Given) : Steady (r.run room given) :=
  (r.grows room given).steady

/-! ## 6. Parts of rules -/

section Parts

variable {room : Nat}

theorem steady_assignment (e : Expr) : Steady (assignment room e) :=
  (grows_law.assignment (Rule.expression.grows room ()) e).steady

theorem steady_argumentList : Steady (argumentList room) :=
  steady_peek.bind fun _ => steady_ite (steady_pure _) (Rule.arguments.steady room 0)

theorem steady_initializer : Steady (initializer room) :=
  (steady_accept _).bind fun _ => steady_ite
    ((Rule.expression.steady room ()).bind fun _ => steady_pure _) (steady_pure _)

theorem steady_parameterList : Steady (parameterList room) :=
  steady_peek.bind fun _ => steady_ite (steady_pure _) (Rule.parameters.steady room 0)

theorem steady_resultType : Steady resultType := by
  refine steady_peek.bind fun t => ?_
  split
  · exact steady_pure _
  · exact steady_skip.bind fun _ => steady_pure _

end Parts

/-! ## 7. Programs -/

theorem fence_of_kind {k : Kind} {c : Cursor} (hk : c.current.kind = k) (e : SyntaxError) :
    fence k e c = (some true, c.advance) := by
  have hexpect := expect_of_kind hk e
  unfold fence
  rw [Parse.bind_some (congrArg Prod.fst (orRecover_some (congrArg Prod.fst hexpect))),
    orRecover_some (congrArg Prod.fst hexpect), hexpect]
  rfl

theorem fence_of_ne {k : Kind} {c : Cursor} (hk : c.current.kind ≠ k) (e : SyntaxError) :
    fence k e c = (some false, c.report c.current e) := by
  have hexpect := expect_of_ne hk e
  unfold fence
  rw [Parse.bind_some (congrArg Prod.fst (orRecover_none (congrArg Prod.fst hexpect))),
    orRecover_none (congrArg Prod.fst hexpect), hexpect]
  rfl

theorem steady_fence (k : Kind) (e : SyntaxError) : Steady (fence k e) :=
  (steady_orRecover (steady_expect k e) Cursor.steadyRecovery_id).bind fun _ => steady_pure _

/-- What comes behind a program is complained about. -/
theorem steady_programEnd (ss : List Stmt) : Steady (peek >>= fun t => if t.kind ≠ .eof then
    complain t .nothingAfterProgram >>= fun _ => pure ss else pure ss) := by
  rw [programEnd_eq]
  exact steady_peek.bind fun _ => steady_ite
    ((steady_complainHere _).bind fun _ => steady_pure _) (steady_pure _)

/-- A program that is accepted is accepted with more room. -/
theorem program_grows {room room' : Nat} {c : Cursor} (hle : room ≤ room')
    (hclean : (program room c).2.reported = []) : program room' c = program room c := by
  induction hle with
  | refl => rfl
  | @step n hle ih =>
    have hsame := (Rule.program.grows n ()).same c
    exact (hsame (by rw [Rule.run, ih]; exact hclean)).trans ih

end FencedCode
