import FencedCode.Proofs.Token.Lines
import Mathlib.Data.List.TakeWhile

/-!
# What is scanned stands

Tokens and complaints stand on the lines of the text they were scanned from. A text that is put
behind a line feed is scanned as if it stood alone and comes to stand on the lines below, so it
neither changes nor repairs anything on the lines above.

* `Scan.line_of_mem_place` -- the lines of what stands between two places;
* `Scan.line_bounds`, `Scan.diagnostic_line_bounds` -- the lines of tokens and complaints;
* `Scan.line_local` -- **scanning is line-local**;
* `Scan.ofText_comment`, `Scan.ofText_behind` -- a comment line gives no tokens, and what comes
  behind it is scanned as if it came first.
-/

namespace FencedCode

namespace Scan

/-! ## 1. The lines of a text -/

/-- Places in a text lie on lines from the one where it starts to the one where it ends. -/
theorem line_of_mem_place : ∀ {p : Position} {ss : List Segment} {ps : Position × Segment},
    ps ∈ (place p ss).1 → p.line ≤ ps.1.line ∧ ps.1.line ≤ (place p ss).2.line
  | _, [], _, hps => by cases hps
  | p, s :: ss, ps, hps => by
    have hstep : p.line ≤ (p.afterAll s.symbols).line := by
      rw [Position.afterAll_line]
      exact Nat.le_add_right _ _
    have hrest : (p.afterAll s.symbols).line ≤ (place (p.afterAll s.symbols) ss).2.line := by
      rw [place_snd, Position.afterAll_line (ss.flatMap _)]
      exact Nat.le_add_right _ _
    rcases List.mem_cons.mp hps with rfl | hps
    · exact ⟨Nat.le_refl _, Nat.le_trans hstep hrest⟩
    · obtain ⟨hfirst, hlast⟩ := line_of_mem_place hps
      exact ⟨Nat.le_trans hstep hfirst, hlast⟩

/-- **The tokens of a text stand on its lines.** -/
theorem line_bounds {t : Text} {u : Token} (hu : u ∈ (ofText t).tokens) :
    1 ≤ u.line ∧ u.line ≤ t.count 10 + 1 := by
  obtain ⟨_, hlast⟩ := behind_decode t
  rcases List.mem_append.mp hu with hu | hu
  · obtain ⟨ps, hps, hu⟩ := List.mem_filterMap.mp hu
    have hline : u.line = ps.1.line := by
      unfold token? at hu
      split at hu
      · cases hu
        rfl
      · cases hu
    have hbounds := line_of_mem_place hps
    rw [hlast] at hbounds
    exact hline ▸ hbounds
  · obtain rfl := List.mem_singleton.mp hu
    show 1 ≤ (place .start (Segment.all (Symbol.decode t))).2.line ∧ _
    rw [hlast]
    exact ⟨Nat.le_add_left 1 _, Nat.le_of_eq hlast⟩

/-- The complaints about a text are about its lines. -/
theorem diagnostic_line_bounds {t : Text} {d : Diagnostic} (hd : d ∈ (ofText t).diagnostics) :
    1 ≤ d.line ∧ d.line ≤ t.count 10 + 1 := by
  obtain ⟨_, hlast⟩ := behind_decode t
  obtain ⟨ps, hps, hd⟩ := List.mem_filterMap.mp hd
  have hline : d.line = ps.1.line := by
    unfold diagnostic? at hd
    split at hd
    · cases hd
      rfl
    · cases hd
  have hbounds := line_of_mem_place hps
  rw [hlast] at hbounds
  have hfirst : 1 ≤ ps.1.line := hbounds.1
  have hend : ps.1.line ≤ t.count 10 + 1 := hbounds.2
  omega

/-! ## 2. Lines above and below -/

/-- The tokens of a text other than its end stand on its lines. -/
theorem line_le_of_mem_dropLast {t : Text} {u : Token} (hu : u ∈ (ofText t).tokens.dropLast) :
    u.line ≤ t.count 10 + 1 :=
  (line_bounds (List.dropLast_subset _ hu)).2

/-- The tokens of a text that is put further down stand below the lines it is put behind. -/
theorem lt_line_of_mem_shift {t : Text} {u : Token} {offset lines : Nat}
    (hu : u ∈ (ofText t).tokens.map (Token.shift offset lines)) : lines < u.line := by
  obtain ⟨v, hv, rfl⟩ := List.mem_map.mp hu
  have hfirst : 1 ≤ v.line := (line_bounds hv).1
  have hshift : (v.shift offset lines).line = v.line + lines := rfl
  omega

theorem lt_line_of_mem_diagnostics_shift {t : Text} {d : Diagnostic} {lines : Nat}
    (hd : d ∈ (ofText t).diagnostics.map (Diagnostic.shift lines)) : lines < d.line := by
  obtain ⟨e, he, rfl⟩ := List.mem_map.mp hd
  have hfirst : 1 ≤ e.line := (diagnostic_line_bounds he).1
  have hshift : (e.shift lines).line = e.line + lines := rfl
  omega

/-- **Scanning is line-local.** A text `b` behind the line feed that ends `a` is scanned as if it
    stood alone, only further on, and `a` as if nothing came behind it. So what stands on the lines
    of `a`, tokens and complaints, is the same whatever comes below. -/
theorem line_local (a b : Text) :
    (ofText (a ++ 10 :: b)).tokens =
        (ofText a).tokens.dropLast ++
          (ofText b).tokens.map (Token.shift (a.length + 1) (a.count 10 + 1)) ∧
      (ofText (a ++ 10 :: b)).diagnostics =
        (ofText a).diagnostics ++
          (ofText b).diagnostics.map (Diagnostic.shift (a.count 10 + 1)) ∧
      ((ofText (a ++ 10 :: b)).tokens.filter fun u => u.line ≤ a.count 10 + 1) =
        (ofText a).tokens.dropLast ∧
      ((ofText (a ++ 10 :: b)).diagnostics.filter fun d => d.line ≤ (a.count 10 : Int) + 1) =
        (ofText a).diagnostics := by
  have htokens := tokens_line a b
  have hdiagnostics := diagnostics_line a b
  refine ⟨htokens, hdiagnostics, ?_, ?_⟩
  · have habove : (ofText a).tokens.dropLast.filter (fun u => u.line ≤ a.count 10 + 1) =
        (ofText a).tokens.dropLast :=
      List.filter_eq_self.mpr fun u hu => decide_eq_true (line_le_of_mem_dropLast hu)
    have hbelow : ((ofText b).tokens.map (Token.shift (a.length + 1) (a.count 10 + 1))).filter
        (fun u => u.line ≤ a.count 10 + 1) = [] :=
      List.filter_eq_nil_iff.mpr fun u hu hle =>
        absurd (of_decide_eq_true hle) (Nat.not_le.mpr (lt_line_of_mem_shift hu))
    rw [htokens, List.filter_append, habove, hbelow, List.append_nil]
  · have habove : (ofText a).diagnostics.filter (fun d => d.line ≤ (a.count 10 : Int) + 1) =
        (ofText a).diagnostics :=
      List.filter_eq_self.mpr fun d hd => decide_eq_true (diagnostic_line_bounds hd).2
    have hbelow : ((ofText b).diagnostics.map (Diagnostic.shift (a.count 10 + 1))).filter
        (fun d => d.line ≤ (a.count 10 : Int) + 1) = [] :=
      List.filter_eq_nil_iff.mpr fun d hd hle =>
        absurd (of_decide_eq_true hle) (Int.not_le.mpr (lt_line_of_mem_diagnostics_shift hd))
    rw [hdiagnostics, List.filter_append, habove, hbelow, List.append_nil]

end Scan

/-! ## 3. Lines without tokens -/

/-- **A line that is a comment holds no tokens** and gives no cause to complain. -/
theorem Scan.ofText_comment {a : Text} (ha : 10 ∉ a) :
    ∃ p : Position, p.line = 1 ∧ ofText (35 :: a) = ⟨[.endAt p], []⟩ := by
  have hcomment : Segment.cut (.scalar '#') (Symbol.decode a) =
      ⟨.trivia, .scalar '#', Symbol.decode a⟩ := by
    show Segment.comment _ _ = _
    rw [Segment.comment, List.takeWhile_eq_self_iff.mpr]
    intro r hr
    rw [Bool.not_eq_true']
    refine beq_eq_false_iff_ne.mpr fun heq => ?_
    exact Symbol.not_mem_decode ha (heq ▸ hr)
  have hdecode : Symbol.decode (35 :: a) = .scalar '#' :: Symbol.decode a :=
    Symbol.decode_ascii rfl (by decide) [] a
  have hall : Segment.all (Symbol.decode (35 :: a)) =
      [⟨.trivia, .scalar '#', Symbol.decode a⟩] := by
    rw [hdecode]
    exact Segment.all_singleton hcomment
  obtain ⟨_, hline⟩ := behind_decode (35 :: a)
  refine ⟨(place .start (Segment.all (Symbol.decode (35 :: a)))).2, ?_, ?_⟩
  · rw [hline, List.count_cons_of_ne (by decide), List.count_eq_zero.mpr ha]
  · unfold ofText ofSymbols
    rw [hall]
    rfl

/-- Behind a line without tokens a text is scanned as if it came first, only further on. -/
theorem Scan.ofText_behind {a : Text} {p : Position} (ha : ofText a = ⟨[.endAt p], []⟩)
    (hline : 10 ∉ a) (b : Text) :
    ofText (a ++ 10 :: b) =
      ⟨(ofText b).tokens.map (Token.shift (a.length + 1) 1),
        (ofText b).diagnostics.map (Diagnostic.shift 1)⟩ := by
  show (⟨(ofText (a ++ 10 :: b)).tokens, (ofText (a ++ 10 :: b)).diagnostics⟩ : Scan) = _
  rw [tokens_line, diagnostics_line, ha, List.count_eq_zero.mpr hline]
  rfl

end FencedCode
