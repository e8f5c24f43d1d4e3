import FencedCode.Proofs.Token.Partition

/-!
# A token is known by its text

A token is cut from a text together with all that comes behind it, but it would be the same token if
nothing came behind, or anything that makes no token longer. So the text that it was read from says
what it is and what it denotes.

* `Symbol.lengthens`, `Segment.Parted` -- symbols behind which a token may go on, and symbols that
  begin with none of them;
* `Segment.number_eq` -- digits, or digits with a fraction, are cut off whole;
* `Segment.cut_parted` -- **a token is cut from its own symbols as it was from the longer text**,
  also if other symbols come behind it that part it from them;
* `Lexeme`, `Scan.lexeme_of_mem` -- texts that are one token by themselves, and that the lexeme of
  each token is one;
* `Scan.literal_eq` -- tokens with one lexeme have one kind and denote one value.
-/

namespace FencedCode

/-! ## 1. What ends a token -/

/-- May the symbol make a token longer that stands in front of it? -/
def Symbol.lengthens (r : Symbol) : Bool :=
  r.isWord || r == .scalar '.' || r == .scalar '=' || r == .scalar '>'

theorem Symbol.isWord_of_lengthens {r : Symbol} (hr : r.lengthens = false) : r.isWord = false := by
  simp only [lengthens, Bool.or_eq_false_iff] at hr
  exact hr.1.1.1

theorem Symbol.isDigit_of_lengthens {r : Symbol} (hr : r.lengthens = false) :
    r.isDigit = false :=
  (Bool.or_eq_false_iff.mp (isWord_of_lengthens hr)).2

namespace Segment

/-- No token is made longer by the symbols. -/
def Parted (after : List Symbol) : Prop :=
  ∀ r ∈ after.head?, r.lengthens = false

theorem parted_nil : Parted [] :=
  nofun

theorem parted_cons {r : Symbol} (hr : r.lengthens = false) (after : List Symbol) :
    Parted (r :: after) := by
  intro r' hr'
  obtain rfl : r = r' := Option.some.inj hr'
  exact hr

/-- What is taken ends before symbols that make no token longer. -/
theorem takeWhile_parted {p : Symbol → Bool} (hp : ∀ r, r.lengthens = false → p r = false)
    {rs after : List Symbol} (hrs : rs.all p = true) (hafter : Parted after) :
    (rs ++ after).takeWhile p = rs := by
  have hstop : after.takeWhile p = [] := by
    cases after with
    | nil => rfl
    | cons r after =>
      exact List.takeWhile_cons_of_neg (by rw [hp r (hafter r rfl)]; exact Bool.false_ne_true)
  rw [List.takeWhile_append_of_pos (List.all_eq_true.mp hrs), hstop, List.append_nil]

/-! ## 2. Segments by themselves -/

theorem word_parted (r : Symbol) (rs : List Symbol) {after : List Symbol} (hafter : Parted after) :
    word r ((word r rs).tail ++ after) = word r rs := by
  show word r (rs.takeWhile _ ++ after) = _
  unfold word
  rw [takeWhile_parted (fun _ => Symbol.isWord_of_lengthens) List.all_takeWhile hafter]

/-- The symbols are a point and at least one digit, or none. -/
def IsFraction (frac : List Symbol) : Prop :=
  frac = [] ∨ ∃ e es, frac = .scalar '.' :: e :: es ∧ (e :: es).all Symbol.isDigit = true

theorem isFraction_fraction (rs : List Symbol) : IsFraction (fraction rs) := by
  unfold fraction
  split
  · rename_i e rs
    split
    · rename_i he
      exact .inr ⟨e, _, rfl, by rw [List.all_cons, he, List.all_takeWhile]; rfl⟩
    · exact .inl rfl
  · exact .inl rfl

/-- A fraction is taken whole. -/
theorem fraction_parted {frac after : List Symbol} (hfrac : IsFraction frac)
    (hafter : Parted after) : fraction (frac ++ after) = frac := by
  rcases hfrac with rfl | ⟨e, es, rfl, hdigits⟩
  · rcases after with _ | ⟨r, after⟩
    · rfl
    · refine fraction_of_ne ?_ after
      rintro rfl
      exact absurd (hafter _ rfl) (by decide)
  · rw [List.all_cons, Bool.and_eq_true] at hdigits
    show (if e.isDigit then .scalar '.' :: e :: (es ++ after).takeWhile _ else []) = _
    rw [if_pos hdigits.1,
      takeWhile_parted (fun _ => Symbol.isDigit_of_lengthens) hdigits.2 hafter]

/-- **Digits are cut off whole**, with the fraction behind them. -/
theorem number_eq (r : Symbol) {whole frac after : List Symbol}
    (hwhole : whole.all Symbol.isDigit = true) (hfrac : IsFraction frac) (hafter : Parted after) :
    number r (whole ++ frac ++ after) =
      ⟨if frac.isEmpty then intContent (Symbol.encode (r :: whole))
        else floatContent (Symbol.encode (r :: whole)) (Symbol.encode frac.tail),
        r, whole ++ frac⟩ := by
  have hdigits : (whole ++ (frac ++ after)).takeWhile Symbol.isDigit = whole := by
    have hstop : (frac ++ after).takeWhile Symbol.isDigit = [] := by
      rcases hfrac with rfl | ⟨e, es, rfl, -⟩
      · show ([] ++ after).takeWhile _ = _
        exact takeWhile_parted (fun _ => Symbol.isDigit_of_lengthens) rfl hafter
      · exact List.takeWhile_cons_of_neg (by decide)
    rw [List.takeWhile_append_of_pos (List.all_eq_true.mp hwhole), hstop, List.append_nil]
  have hspoil : after.head?.any Symbol.isLetter = false := by
    rcases after with _ | ⟨c, after⟩
    · rfl
    · exact (Bool.or_eq_false_iff.mp (Symbol.isWord_of_lengthens (hafter c rfl))).1
  unfold number
  simp only [List.append_assoc, hdigits, List.drop_left, fraction_parted hfrac hafter, hspoil,
    Bool.false_eq_true, if_false, List.isEmpty_nil, Bool.not_true, List.append_nil]

theorem number_parted {r : Symbol} {rs after : List Symbol} {k : Kind} {l : Option Literal}
    (h : (number r rs).content = .token k l) (hafter : Parted after) :
    number r ((number r rs).tail ++ after) = number r rs := by
  have hdigits : (rs.takeWhile Symbol.isDigit).all Symbol.isDigit = true :=
    List.all_takeWhile
  unfold number at h ⊢
  dsimp only at h ⊢
  generalize rs.takeWhile Symbol.isDigit = whole at h hdigits ⊢
  generalize rs.drop whole.length = behind at h ⊢
  generalize (if (behind.drop (fraction behind).length).head?.any Symbol.isLetter then
    (behind.drop (fraction behind).length).takeWhile Symbol.isWord else []) = spoil at h ⊢
  cases spoil with
  | cons c cs => cases h
  | nil =>
    rw [List.append_nil]
    exact number_eq r hdigits (isFraction_fraction behind) hafter

theorem character_parted {r closing : Symbol} {failure : LexicalError} {rs : List Symbol} {k : Kind}
    {l : Option Literal} (h : (character r closing failure rs).content = .token k l)
    (after : List Symbol) :
    character r closing failure ((character r closing failure rs).tail ++ after) =
      character r closing failure rs := by
  unfold character at h
  split at h
  · rename_i c d rs
    split at h
    · rename_i hclosed
      simp only [character, hclosed, if_true, List.cons_append]
    · cases h
  · cases h

/-- A string is cut off up to its closing mark. -/
theorem string_eq (r : Symbol) {inner : List Symbol}
    (hinner : inner.all (fun c => !c.isLineFeed && c != .scalar '"') = true)
    (after : List Symbol) :
    string r (inner ++ .scalar '"' :: after) =
      ⟨stringContent (Symbol.respell inner), r, inner ++ [.scalar '"']⟩ := by
  have hstop : (inner ++ .scalar '"' :: after).takeWhile
      (fun c => !c.isLineFeed && c != .scalar '"') = inner := by
    rw [List.takeWhile_append_of_pos (List.all_eq_true.mp hinner),
      List.takeWhile_cons_of_neg (by decide), List.append_nil]
  simp only [string, hstop, List.drop_left, beq_self_eq_true, if_true]

theorem string_parted {r : Symbol} {rs : List Symbol} {k : Kind} {l : Option Literal}
    (h : (string r rs).content = .token k l) (after : List Symbol) :
    string r ((string r rs).tail ++ after) = string r rs := by
  have hinner : (rs.takeWhile fun c => !c.isLineFeed && c != .scalar '"').all
      (fun c => !c.isLineFeed && c != .scalar '"') = true :=
    List.all_takeWhile
  unfold string at h ⊢
  dsimp only at h ⊢
  generalize (rs.takeWhile fun c => !c.isLineFeed && c != .scalar '"') = inner at h hinner ⊢
  cases hbehind : rs.drop inner.length with
  | nil =>
    rw [hbehind] at h
    cases h
  | cons q behind =>
    rw [hbehind] at h
    by_cases hq : q = .scalar '"'
    · subst hq
      simp only [beq_self_eq_true, if_true, List.append_assoc, List.singleton_append]
      exact string_eq r hinner after
    · have hother : (q == .scalar '"') = false := beq_false_of_ne hq
      simp only [hother, Bool.false_eq_true, if_false] at h
      cases h

/-- Only some marks are the second half of another. -/
theorem doubleMark_parted (c : Char) {after : List Symbol} (hafter : Parted after) :
    doubleMark c after = none := by
  unfold doubleMark
  split
  · rename_i d after
    have hd := hafter _ rfl
    have hnone : doubleMark? c d = none := by
      unfold doubleMark?
      split <;> first | rfl | exact absurd hd (by decide)
    rw [hnone]
    rfl
  · rfl

theorem mark_parted {c : Char} {rs after : List Symbol} {k : Kind} {l : Option Literal}
    (h : (mark c rs).content = .token k l) (hafter : Parted after) :
    mark c ((mark c rs).tail ++ after) = mark c rs := by
  cases hdouble : doubleMark c rs with
  | some kd =>
    have hfound := hdouble
    unfold doubleMark at hfound
    split at hfound
    · rename_i d rs
      have hagain : doubleMark c (.scalar d :: after) = some kd := hfound
      obtain ⟨k, _, rfl⟩ := Option.map_eq_some_iff.mp hfound
      simp only [mark, hdouble, List.singleton_append, hagain]
    · cases hfound
  | none =>
    cases hmark : mark? c with
    | none =>
      simp only [mark, hdouble, hmark] at h
      cases h
    | some k =>
      simp only [mark, hdouble, hmark, List.nil_append, doubleMark_parted c hafter]

/-- **A token is cut from its own symbols as it was from the longer text**, whatever comes behind it
    that makes it no longer. -/
theorem cut_parted {r : Symbol} {rs after : List Symbol} {k : Kind} {l : Option Literal}
    (h : (cut r rs).content = .token k l) (hafter : Parted after) :
    cut r ((cut r rs).tail ++ after) = cut r rs := by
  suffices hcut : ∀ s, cut r rs = s → s.content = .token k l → cut r (s.tail ++ after) = s from
    hcut _ rfl h
  intro s hs h
  unfold cut at hs ⊢
  split at hs
  · subst hs
    cases h
  rename_i hgap
  rw [if_neg hgap]
  split at hs
  · rename_i hletter
    subst hs
    rw [if_pos hletter]
    exact word_parted r rs hafter
  rename_i hletter
  rw [if_neg hletter]
  split at hs
  · rename_i hdigit
    subst hs
    rw [if_pos hdigit]
    exact number_parted h hafter
  rename_i hdigit
  rw [if_neg hdigit]
  split at hs <;> subst hs
  · cases h
  · rfl
  · exact character_parted h after
  · exact character_parted h after
  · exact string_parted h after
  · exact mark_parted h hafter
  · cases h

end Segment

/-! ## 3. Tokens -/

/-- What a text is by itself. -/
def Content.ofLexeme (t : Text) : Content :=
  match Symbol.decode t with
  | [] => .token .eof none
  | r :: rs => (Segment.cut r rs).content

/-- The text is one token by itself. -/
def Lexeme (t : Text) (k : Kind) (l : Option Literal) : Prop :=
  ∃ r rs, Symbol.decode t = r :: rs ∧ Segment.cut r rs = ⟨.token k l, r, rs⟩

theorem Lexeme.content {t : Text} {k : Kind} {l : Option Literal} (h : Lexeme t k l) :
    Content.ofLexeme t = .token k l := by
  obtain ⟨r, rs, hdecode, hcut⟩ := h
  unfold Content.ofLexeme
  rw [hdecode]
  exact congrArg Segment.content hcut

namespace Scan

/-- **The lexeme of each token is that token by itself.** -/
theorem lexeme_of_mem {t : Text} {u : Token} (hu : u ∈ (ofText t).tokens.dropLast) :
    Lexeme u.lexeme u.kind u.literal := by
  change u ∈ (_ ++ [Token.endAt _]).dropLast at hu
  rw [List.dropLast_concat] at hu
  obtain ⟨ps, hps, htoken⟩ := List.mem_filterMap.mp hu
  obtain ⟨front, back, hsymbols, hcut, -⟩ := split_of_mem_place hps
  unfold token? at htoken
  split at htoken
  · rename_i kind literal hcontent
    cases htoken
    refine ⟨ps.2.head, ps.2.tail, Symbol.decode_encode_of_decode_eq hsymbols, ?_⟩
    have halone := Segment.cut_parted (hcut ▸ hcontent) Segment.parted_nil
    rw [← hcut, List.append_nil] at halone
    rw [halone, ← hcontent]
  · cases htoken

/-- **Each token of a text is what its lexeme says.** -/
theorem content_of_lexeme {t : Text} {u : Token} (hu : u ∈ (ofText t).tokens) :
    Content.ofLexeme u.lexeme = .token u.kind u.literal := by
  have hends : (ofText t).tokens = (ofText t).tokens.dropLast ++ [.endAt _] :=
    (congrArg (· ++ [Token.endAt _]) List.dropLast_concat).symm
  rw [hends] at hu
  rcases List.mem_append.mp hu with hu | hu
  · exact (lexeme_of_mem hu).content
  · obtain rfl := List.mem_singleton.mp hu
    rfl

/-- **Tokens with one lexeme have one kind and denote one value**, in whatever texts they stand. -/
theorem literal_eq {t t' : Text} {u u' : Token} (hu : u ∈ (ofText t).tokens)
    (hu' : u' ∈ (ofText t').tokens) (hlexeme : u.lexeme = u'.lexeme) :
    u.kind = u'.kind ∧ u.literal = u'.literal := by
  have hcontent := content_of_lexeme hu
  rw [hlexeme, content_of_lexeme hu'] at hcontent
  obtain ⟨hkind, hliteral⟩ := Content.token.inj hcontent
  exact ⟨hkind.symm, hliteral.symm⟩

end Scan

end FencedCode
