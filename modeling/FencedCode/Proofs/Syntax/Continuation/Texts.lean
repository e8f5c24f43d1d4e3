import FencedCode.Proofs.Syntax.Continuation.Limits
import FencedCode.Proofs.Syntax.Continuation.Programs
import FencedCode.Proofs.Syntax.Continuation.Targets

/-!
# Texts that can be completed

A text about which there are only complaints that it ended too early may go on. Whether it can go
on to a correct program is told by its tokens and by these complaints: every assignment sign has to
follow a name that is no operand of an operator, and the text must not end in front of an argument
or parameter that is one too many. Where it does not meet these conditions, the complaints still say
that it is merely incomplete.

* `fillingText`, `Scan.scan_fillingText` -- a text with given tokens, one on each line;
* `Program.ofTokens_completable`, `Program.completable` -- a text that is merely incomplete can be
  completed under these conditions;
* `Program.ofTokens_continued`, `Program.continued` -- a text that goes on to a correct program
  meets them;
* `incomplete_completable_iff` -- **an incomplete text can be completed if and only if it meets the
  conditions**.
-/

namespace FencedCode

open Parse Grammar

/-! ## 1. Tokens as a text -/

/-- How a token that a text is completed with is written. -/
def Filler.text (f : Filler) : Text :=
  if f.kind = .identifier then utf8 "x" else f.kind.label

/-- A text with one of the tokens on each line. -/
def fillingText : List Filler → Text
  | [] => []
  | f :: fs => f.text ++ 10 :: fillingText fs

namespace Scan

theorem scan_filler (f : Filler) : (ofText f.text).tokens.map Token.kind = [f.kind, .eof] ∧
    (ofText f.text).diagnostics.isEmpty = true := by
  cases f <;> decide +kernel

/-- The text is scanned into the tokens that it is written for. -/
theorem scan_fillingText (fs : List Filler) : (ofText (fillingText fs)).diagnostics = [] ∧
    ∃ ts last, (ofText (fillingText fs)).tokens = ts ++ [last] ∧ last.kind = .eof ∧
      ts.map Token.kind = fs.map Filler.kind := by
  induction fs with
  | nil => exact ⟨rfl, [], .endAt .start, rfl, rfl, rfl⟩
  | cons f fs ih =>
    obtain ⟨hclean, ts, last, htokens, hlast, hts⟩ := ih
    obtain ⟨hkinds, hclean₀⟩ := scan_filler f
    obtain ⟨t, rest, hcons, ht, hrest⟩ := List.map_eq_cons_iff.mp hkinds
    obtain ⟨e, rest, rfl, _, hnil⟩ := List.map_eq_cons_iff.mp hrest
    obtain rfl := List.map_eq_nil_iff.mp hnil
    let shift := Token.shift (f.text.length + 1) (f.text.count 10 + 1)
    unfold fillingText
    refine ⟨?_, t :: ts.map shift, shift last, ?_, ?_, ?_⟩
    · rw [diagnostics_line, List.isEmpty_iff.mp hclean₀, hclean]
      rfl
    · rw [tokens_line, hcons, htokens, List.map_append]
      rfl
    · exact hlast
    · rw [List.map_cons, List.map_cons, ht, ← hts, List.map_map]
      rfl

/-- A lexical complaint does not say that the text is incomplete. -/
theorem incomplete_of_mem_diagnostics {t : Text} {d : Diagnostic}
    (hd : d ∈ (ofText t).diagnostics) : d.incomplete = false := by
  obtain ⟨ps, _, hps⟩ := List.mem_filterMap.mp hd
  unfold diagnostic? at hps
  split at hps
  · cases hps
    rfl
  · cases hps

end Scan

/-! ## 2. Texts that are completed -/

namespace Program

/-- Tokens that are complained about as incomplete can be completed, if only names are assigned to
    and there are not too many entries. -/
theorem ofTokens_completable {ahead : List Token} {last : Token}
    (hahead : ∀ t ∈ ahead, t.kind ≠ .eof) (hlast : last.kind = .eof)
    (hsome : (ofTokens (ahead ++ [last])).diagnostics ≠ [])
    (hmend : ∀ d ∈ (ofTokens (ahead ++ [last])).diagnostics, d.Mendable)
    (htargets : assignsToNames ((ahead ++ [last]).map Token.kind) = true) :
    ∃ fs : List Filler, ∀ (ts : List Token) (last' : Token),
      ts.map Token.kind = fs.map Filler.kind → last'.kind = .eof →
        (ofTokens (ahead ++ ts ++ [last'])).diagnostics = [] := by
  let room := roomFor (ahead ++ [last]).length
  let c := Cursor.ofTokens (ahead ++ [last])
  have hsteady : Steady (program room) := Rule.program.steady room ()
  have hroom : 16 * (ahead ++ [last]).length + 14 ≤ room := by
    show _ ≤ 16 * (_ + 4)
    omega
  rw [ofTokens_diagnostics (Nat.le_refl room)] at hsome hmend
  have hreported : ∀ d ∈ (program room c).2.reported, d.Mendable := fun d hd =>
    hmend d (List.mem_reverse.mpr hd)
  have hc : c.Promising := by
    refine ⟨Cursor.ofTokens_closed _, Cursor.ofTokens_reported _, ?_⟩
    rw [Cursor.ofTokens_tokens, Cursor.withEnd_concat hlast]
    exact htargets
  -- complaints that are made before the end are not about the end
  have hend : (program room c).2.AtEnd := by
    refine Classical.byContradiction fun hopen => hsome ?_
    rw [List.reverse_eq_nil_iff]
    exact (hsteady.promising hc hopen hreported).clean
  obtain ⟨fs, hfs⟩ := ((program_completes hroom).completes hc (Cursor.ofTokens_rest_le _)).completes
    hend hreported
  refine ⟨fs, fun ts last' hts hlast' => ?_⟩
  have hwithin : Cursor.Within (ts ++ [last']) (.ofTokens (ahead ++ ts ++ [last'])) c := by
    by_cases hne : ahead = []
    · refine .inr ⟨?_, Cursor.ofTokens_reported _, ?_⟩
      · show (Cursor.ofTokens (ahead ++ [last])).AtEnd
        rw [hne]
        exact Cursor.ofTokens_atEnd hlast
      · rw [Cursor.ofTokens_tokens, Cursor.withEnd_concat hlast', hne, List.nil_append]
    · exact .inl (Cursor.cut_ofTokens ts hne hahead hlast' hlast)
  obtain ⟨_, _, _, hclean⟩ := hfs hts hlast' hwithin
  -- the longer text is read with more room
  have hmore : room ≤ roomFor (ahead ++ ts ++ [last']).length := by
    show 16 * (_ + 4) ≤ 16 * (_ + 4)
    simp only [List.length_append, List.length_singleton]
    omega
  rw [ofTokens_diagnostics (Nat.le_refl _), program_grows hmore hclean, hclean]
  rfl

/-- **A text that is merely incomplete can be completed by more lines**, if every assignment sign
    in it follows a name that is no operand of an operator, and if it does not end in front of an
    argument or parameter that is one too many. -/
theorem completable {s : Text}
    (hincomplete : Diagnostic.allIncomplete (ofText s).diagnostics = true)
    (htargets : assignsToNames ((Scan.ofText s).tokens.map Token.kind) = true)
    (hlimits : ∀ d ∈ (ofText s).diagnostics, d.overLimit = false) :
    ∃ t, (ofText (s ++ 10 :: t)).diagnostics = [] := by
  obtain ⟨hsome, hall⟩ := Bool.and_eq_true_iff.mp hincomplete
  rw [List.all_eq_true] at hall
  -- lexical complaints are never mended, so that there are none
  have hscan : (Scan.ofText s).diagnostics = [] := by
    refine List.eq_nil_iff_forall_not_mem.mpr fun d hd => ?_
    have hd' := hall d (List.mem_append_left _ hd)
    rw [Scan.incomplete_of_mem_diagnostics hd] at hd'
    cases hd'
  have hparse : (ofText s).diagnostics =
      (ofTokens (Scan.ofText s).tokens).diagnostics := by
    show (Scan.ofText s).diagnostics ++ _ = _
    rw [hscan, List.nil_append]
  obtain ⟨ahead, last, htokens, hahead, hbehind⟩ := Scan.tokens_behind s
  rw [hparse, htokens] at hsome hall hlimits
  rw [htokens] at htargets
  have hne : (ofTokens (ahead ++ [.endAt last])).diagnostics ≠ [] := fun hnil => by
    rw [hnil] at hsome
    cases hsome
  obtain ⟨fs, hfs⟩ := ofTokens_completable hahead rfl hne
    (fun d hd => ⟨hall d hd, hlimits d hd⟩) htargets
  obtain ⟨hclean, ts, last', hts, hlast', hkinds⟩ := Scan.scan_fillingText fs
  refine ⟨fillingText fs, ?_⟩
  show (Scan.ofText _).diagnostics ++ (ofTokens (Scan.ofText _).tokens).diagnostics = []
  rw [Scan.diagnostics_line, hscan, hclean, hbehind, hts, List.map_append, ← List.append_assoc]
  refine hfs _ _ ?_ ?_
  · rw [List.map_map]
    exact hkinds
  · exact hlast'

/-! ## 3. Texts that go on -/

/-- If tokens are accepted, then where they are cut short there are no wrong assignment signs and
    not too many entries. -/
theorem ofTokens_continued {ahead post : List Token} {last last' : Token}
    (hahead : ∀ t ∈ ahead, t.kind ≠ .eof) (hpost : ∀ t ∈ post, t.kind ≠ .eof)
    (hlast : last.kind = .eof) (hlast' : last'.kind = .eof)
    (hok : (ofTokens (ahead ++ post ++ [last])).diagnostics = []) :
    assignsToNames ((ahead ++ [last']).map Token.kind) = true ∧
      ∀ d ∈ (ofTokens (ahead ++ [last'])).diagnostics, d.overLimit = false := by
  constructor
  · have hall : ∀ t ∈ ahead ++ post, t.kind ≠ .eof := fun t ht =>
      (List.mem_append.mp ht).elim (hahead t) (hpost t)
    have htargets := assignsToNames_of_accepted hall hlast hok
    rw [List.append_assoc, List.map_append] at htargets
    rw [List.map_append, List.map_singleton, hlast']
    exact assignsToNames_cut htargets
  · exact cut_diagnostics (fun {room} _ hend => (bounded_program room).ending hend)
      (fun {room _ _ _} hcut hclean => (bounded_program room).early hcut hclean)
      hahead hlast hlast' hok

-- a call that ends behind the comma of its 255th argument is incomplete, and can never go on
example : (ofTokens ([Kind.kwBegin, .kwCode, .identifier, .leftParen].map Token.word ++
      (List.replicate 255 [Token.word .trueLit, .word .comma]).flatten)).diagnostics.map
        (fun d => (d.incomplete, d.overLimit)) = [(true, true), (true, false), (true, false)] := by
  decide +kernel

/-- **A text that goes on to a correct program** has no wrong assignment signs, and it does not end
    in front of an argument or parameter that is one too many. -/
theorem continued {s t : Text} (hok : (ofText (s ++ 10 :: t)).diagnostics = []) :
    assignsToNames ((Scan.ofText s).tokens.map Token.kind) = true ∧
      ∀ d ∈ (ofText s).diagnostics, d.overLimit = false := by
  obtain ⟨hscan, hparse⟩ := List.append_eq_nil_iff.mp hok
  rw [Scan.diagnostics_line, List.append_eq_nil_iff] at hscan
  obtain ⟨ahead, last', htokens, hahead, hbehind⟩ := Scan.tokens_behind s
  obtain ⟨us, last, hus, hpost⟩ := Scan.tokens_eq t
  let shift := Token.shift (s.length + 1) (s.count 10 + 1)
  change (ofTokens (Scan.ofText (s ++ 10 :: t)).tokens).diagnostics = [] at hparse
  rw [hbehind, hus, List.map_append, ← List.append_assoc] at hparse
  have hshifted : ∀ u ∈ us.map shift, u.kind ≠ .eof := by
    intro u hu
    obtain ⟨v, hv, rfl⟩ := List.mem_map.mp hu
    exact hpost v hv
  obtain ⟨htargets, hlimits⟩ := ofTokens_continued hahead hshifted rfl
    (show (Token.endAt last').kind = .eof from rfl) hparse
  rw [htokens]
  refine ⟨htargets, fun d hd => ?_⟩
  rcases List.mem_append.mp hd with hd | hd
  · rw [hscan.1] at hd
    cases hd
  · change d ∈ (ofTokens (Scan.ofText s).tokens).diagnostics at hd
    rw [htokens] at hd
    exact hlimits d hd

end Program

/-! ## 4. Incomplete texts -/

/-- **An incomplete text can be completed by more lines if and only if** every assignment sign in it
    follows a name that is no operand of an operator, and it does not end in front of an argument or
    parameter that is one too many. -/
theorem incomplete_completable_iff {s : Text}
    (hincomplete : Diagnostic.allIncomplete (Program.ofText s).diagnostics = true) :
    (∃ t, (Program.ofText (s ++ 10 :: t)).diagnostics = []) ↔
      assignsToNames ((Scan.ofText s).tokens.map Token.kind) = true ∧
        ∀ d ∈ (Program.ofText s).diagnostics, d.overLimit = false := by
  constructor
  · rintro ⟨t, hok⟩
    exact Program.continued hok
  · rintro ⟨htargets, hlimits⟩
    exact Program.completable hincomplete htargets hlimits

/-- A text that ends behind a comma: `BEGIN CODE`, and `x = f(1,` on the next line. -/
def openCall : Text :=
  utf8 "BEGIN CODE\nx = f(1,"

theorem openCall_completable :
    Diagnostic.allIncomplete (Program.ofText openCall).diagnostics = true ∧
      ∃ t, (Program.ofText (openCall ++ 10 :: t)).diagnostics = [] := by
  have hincomplete : Diagnostic.allIncomplete (Program.ofText openCall).diagnostics = true := by
    decide +kernel
  have hlimits : ((Program.ofText openCall).diagnostics.all fun d => !d.overLimit) = true := by
    decide +kernel
  refine ⟨hincomplete, (incomplete_completable_iff hincomplete).mpr ⟨by decide +kernel, ?_⟩⟩
  intro d hd
  exact Bool.not_eq_true' _ ▸ List.all_eq_true.mp hlimits d hd

/-- An incomplete text that assigns to a literal: `BEGIN CODE 1 =`. -/
def literalTarget : Text :=
  utf8 "BEGIN CODE 1 ="

theorem literalTarget_not_completable :
    Diagnostic.allIncomplete (Program.ofText literalTarget).diagnostics = true ∧
      ∀ t, (Program.ofText (literalTarget ++ 10 :: t)).diagnostics ≠ [] := by
  refine ⟨by decide +kernel, fun t hok => ?_⟩
  have hnames : assignsToNames ((Scan.ofText literalTarget).tokens.map Token.kind) = false := by
    decide +kernel
  rw [(Program.continued hok).1] at hnames
  cases hnames

end FencedCode
