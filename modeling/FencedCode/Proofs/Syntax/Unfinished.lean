import FencedCode.Proofs.Syntax.Room
import FencedCode.Proofs.Token.Lines
import FencedCode.Repl

/-!
# Texts cut at a line break

A program is often read line by line, and what was read so far is tried as a program. The tokens of
the lines are the first tokens of the whole text, since no token goes over a line break; and a rule
that reads them up to their end complains about that end only, since the whole text goes on and is
read without a complaint.

* `cut_incomplete` -- tokens that are cut short are complained about as incomplete only;
* `Scan.tokens_behind` -- the tokens of a line come first in any text that goes on behind it;
* `accepted_cut_at_line` -- **a correct program that is cut at a line break is accepted or awaited,
  and no complaint about it is reported**.
-/

namespace FencedCode

open Grammar

/-! ## 1. Tokens cut short -/

namespace Cursor

theorem ofTokens_rest_le (ts : List Token) : (ofTokens ts).rest.length ≤ ts.length := by
  have htokens : (ofTokens ts).rest.length + 1 = (withEnd ts).length :=
    congrArg List.length (ofTokens_tokens ts)
  have hend : (withEnd ts).length ≤ ts.length + 1 := by
    unfold withEnd
    split
    · exact Nat.le_succ _
    · rw [List.length_append]
      exact Nat.le_refl _
  omega

/-- The start of tokens that are cut short, and of those that they are cut from. -/
theorem cut_ofTokens {ahead : List Token} {last last' : Token} (post : List Token)
    (hne : ahead ≠ []) (hahead : ∀ t ∈ ahead, t.kind ≠ .eof) (hlast : last.kind = .eof)
    (hlast' : last'.kind = .eof) :
    Cut (post ++ [last]) (ofTokens (ahead ++ post ++ [last])) (ofTokens (ahead ++ [last'])) := by
  have htokens : (ofTokens (ahead ++ post ++ [last])).tokens = ahead ++ (post ++ [last]) := by
    rw [ofTokens_tokens, withEnd_concat hlast, List.append_assoc]
  have htokens' : (ofTokens (ahead ++ [last'])).tokens = ahead ++ [last'] := by
    rw [ofTokens_tokens, withEnd_concat hlast']
  have hstart : (ofTokens (ahead ++ post ++ [last])).current =
      (ofTokens (ahead ++ [last'])).current := by
    rcases ahead with _ | ⟨t, ahead⟩
    · exact absurd rfl hne
    · exact (List.cons.inj htokens).1.trans (List.cons.inj htokens').1.symm
  refine ⟨?_, ?_, ahead, last', hne, hahead, hlast', htokens, htokens'⟩
  · rw [ofTokens_previous, ofTokens_previous, hstart]
  · rw [ofTokens_reported, ofTokens_reported]

theorem ofTokens_atEnd {last : Token} (hlast : last.kind = .eof) : (ofTokens [last]).AtEnd := by
  have htokens := (ofTokens_tokens [last]).trans (withEnd_concat hlast [])
  have hcurrent : (ofTokens [last]).current = last := (List.cons.inj htokens).1
  unfold AtEnd
  rw [hcurrent]
  exact hlast

end Cursor

namespace Program

/-- The complaints about tokens do not depend on the room, as long as there is enough. -/
theorem ofTokens_diagnostics {ts : List Token} {room : Nat} (hroom : roomFor ts.length ≤ room) :
    (ofTokens ts).diagnostics = (program room (.ofTokens ts)).2.reported.reverse := by
  have hlength := Cursor.ofTokens_rest_le ts
  have hfor : roomFor ts.length = 16 * (ts.length + 4) := rfl
  rw [program_room (Cursor.ofTokens_closed ts) (by omega) hroom]
  rfl

/-- One room is enough for two texts. -/
theorem exists_room (ts us : List Token) : ∃ room,
    (ofTokens ts).diagnostics = (program room (.ofTokens ts)).2.reported.reverse ∧
      (ofTokens us).diagnostics = (program room (.ofTokens us)).2.reported.reverse :=
  ⟨max (roomFor ts.length) (roomFor us.length), ofTokens_diagnostics (Nat.le_max_left _ _),
    ofTokens_diagnostics (Nat.le_max_right _ _)⟩

/-- What holds of all complaints that are made at the end of a text, and of those that are made
    where an accepted text is cut, holds of the complaints about tokens that are cut short. -/
theorem cut_diagnostics {P : Diagnostic → Prop}
    (hending : ∀ {room : Nat} {c : Cursor}, c.AtEnd → ∀ d ∈ (program room c).2.reported,
      d ∈ c.reported ∨ P d)
    (hearly : ∀ {room : Nat} {rest : List Token} {w c : Cursor}, Cursor.Cut rest w c →
      (program room w).2.reported = [] → ∀ d ∈ (program room c).2.reported, P d)
    {ahead post : List Token} {last last' : Token} (hahead : ∀ t ∈ ahead, t.kind ≠ .eof)
    (hlast : last.kind = .eof) (hlast' : last'.kind = .eof)
    (hok : (ofTokens (ahead ++ post ++ [last])).diagnostics = []) :
    ∀ d ∈ (ofTokens (ahead ++ [last'])).diagnostics, P d := by
  obtain ⟨room, hlong, hshort⟩ := exists_room (ahead ++ post ++ [last]) (ahead ++ [last'])
  rw [hlong, List.reverse_eq_nil_iff] at hok
  rw [hshort]
  intro d hd
  rw [List.mem_reverse] at hd
  by_cases hne : ahead = []
  · -- nothing is left of the text
    have hend : (Cursor.ofTokens (ahead ++ [last'])).AtEnd := by
      rw [hne]
      exact Cursor.ofTokens_atEnd hlast'
    rcases hending hend d hd with hd | hd
    · rw [Cursor.ofTokens_reported] at hd
      cases hd
    · exact hd
  · exact hearly (Cursor.cut_ofTokens post hne hahead hlast hlast') hok d hd

/-- **Tokens that are cut short are complained about as incomplete only**, if those that they are
    cut from are accepted. -/
theorem cut_incomplete {ahead post : List Token} {last last' : Token}
    (hahead : ∀ t ∈ ahead, t.kind ≠ .eof) (hlast : last.kind = .eof) (hlast' : last'.kind = .eof)
    (hok : (ofTokens (ahead ++ post ++ [last])).diagnostics = []) :
    ∀ d ∈ (ofTokens (ahead ++ [last'])).diagnostics, d.incomplete = true := by
  refine cut_diagnostics (fun {room} _ hend => ((Rule.program.steady room ()).ending hend).2)
    (fun {room _ _ c} hcut hclean d hd => ?_) hahead hlast hlast' hok
  have hsteady : Steady (program room) := Rule.program.steady room ()
  by_cases hend : (program room c).2.AtEnd
  · exact hsteady.early hcut hclean hend d hd
  · rw [← (hsteady.alike hcut hend).2.reported, hclean] at hd
    cases hd

end Program

/-! ## 2. Lines -/

/-- The text `p` ends at a line break of `p ++ rest`, just behind it or just before it, or `p` is
    empty. -/
def Text.BreaksAt (p rest : Text) : Prop :=
  p = [] ∨ (∃ a, p = a ++ [10]) ∨ ∃ t, rest = 10 :: t

namespace Scan

/-- The tokens of a text, without their end, come first in any text that goes on behind a line
    break. -/
theorem tokens_behind (a : Text) : ∃ ts last, (ofText a).tokens = ts ++ [.endAt last] ∧
    (∀ u ∈ ts, u.kind ≠ .eof) ∧ ∀ t, (ofText (a ++ 10 :: t)).tokens =
      ts ++ (ofText t).tokens.map (Token.shift (a.length + 1) (a.count 10 + 1)) := by
  obtain ⟨ts, last, htokens, hts⟩ := tokens_eq a
  refine ⟨ts, last, htokens, hts, fun t => ?_⟩
  rw [tokens_line, htokens, List.dropLast_concat]

/-- A text that is cut at a line break has the first tokens of the whole text, and no lexical
    complaint if that one has none. -/
theorem cut_at_line {p rest : Text} (hbreak : Text.BreaksAt p rest)
    (hok : (ofText (p ++ rest)).diagnostics = []) :
    (ofText p).diagnostics = [] ∧ ∃ ahead post last last', (∀ u ∈ ahead, u.kind ≠ .eof) ∧
      last.kind = .eof ∧ last'.kind = .eof ∧ (ofText (p ++ rest)).tokens = ahead ++ post ++ [last] ∧
      (ofText p).tokens = ahead ++ [last'] := by
  rcases hbreak with rfl | ⟨a, rfl⟩ | ⟨t, rfl⟩
  · obtain ⟨us, last, hus, _⟩ := tokens_eq rest
    exact ⟨rfl, [], us, .endAt last, .endAt .start, nofun, rfl, rfl, hus, rfl⟩
  · obtain ⟨ts, _, _, hts, hbehind⟩ := tokens_behind a
    obtain ⟨us, last, hus, _⟩ := tokens_eq rest
    let shift := Token.shift (a.length + 1) (a.count 10 + 1)
    rw [List.append_assoc, List.singleton_append] at hok ⊢
    rw [diagnostics_line, List.append_eq_nil_iff] at hok
    refine ⟨?_, ts, us.map shift, shift (.endAt last), shift (.endAt .start), hts, rfl, rfl, ?_,
      hbehind []⟩
    · rw [diagnostics_line, hok.1]
      rfl
    · rw [hbehind, hus, List.map_append, List.append_assoc]
      rfl
  · obtain ⟨ts, last', htokens, hts, hbehind⟩ := tokens_behind p
    obtain ⟨us, last, hus, _⟩ := tokens_eq t
    let shift := Token.shift (p.length + 1) (p.count 10 + 1)
    rw [diagnostics_line, List.append_eq_nil_iff] at hok
    refine ⟨hok.1, ts, us.map shift, shift (.endAt last), .endAt last', hts, rfl, rfl, ?_,
      htokens⟩
    rw [hbehind, hus, List.map_append, List.append_assoc]
    rfl

end Scan

/-- What is left of an accepted text that is cut at a line break is accepted or incomplete. -/
theorem Program.cut_at_line {p rest : Text} (hok : (ofText (p ++ rest)).diagnostics = [])
    (hbreak : Text.BreaksAt p rest) : (ofText p).diagnostics = [] ∨
      Diagnostic.allIncomplete (ofText p).diagnostics = true := by
  obtain ⟨hscan, hparse⟩ := List.append_eq_nil_iff.mp hok
  obtain ⟨hscan', ahead, post, last, last', hahead, hlast, hlast', htokens, htokens'⟩ :=
    Scan.cut_at_line hbreak hscan
  have hincomplete : ∀ d ∈ (ofText p).diagnostics, d.incomplete = true := by
    intro d hd
    rcases List.mem_append.mp hd with hd | hd
    · rw [hscan'] at hd
      cases hd
    · change d ∈ (ofTokens (Scan.ofText p).tokens).diagnostics at hd
      change (ofTokens (Scan.ofText (p ++ rest)).tokens).diagnostics = [] at hparse
      rw [htokens'] at hd
      rw [htokens] at hparse
      exact cut_incomplete hahead hlast hlast' hparse d hd
  cases hempty : (ofText p).diagnostics.isEmpty with
  | true => exact .inl (List.isEmpty_iff.mp hempty)
  | false =>
    unfold Diagnostic.allIncomplete
    rw [hempty]
    exact .inr (List.all_eq_true.mpr hincomplete)

/-! ## 3. Reading a program line by line -/

namespace Console

@[simp]
theorem logEvents_hadError (c : Console) (es : List Event) :
    (c.logEvents es).hadError = c.hadError := by
  unfold logEvents
  induction es generalizing c with
  | nil => rfl
  | cons e es ih => exact ih _

@[simp]
theorem reportFailed_hadError (c : Console) (message : Text) (line : Int) :
    (c.reportFailed message line).hadError = c.hadError := by
  unfold reportFailed
  dsimp only
  split <;> rfl

/-- A failed run is not reported as a faulty source. -/
@[simp]
theorem reportFailure_hadError (c : Console) (e : Failure) :
    (c.reportFailure e).hadError = c.hadError := by
  unfold reportFailure
  split <;> rw [reportFailed_hadError]

end Console

/-- Running an accepted program reports no complaint about it. -/
theorem Repl.runProgram_hadError (h : Host) {p : Program} (hp : p.diagnostics = []) (r : Repl) :
    (r.runProgram h p).console.hadError = r.console.hadError := by
  unfold Repl.runProgram Machine.runProgram
  rw [hp]
  dsimp only [List.isEmpty_nil]
  rw [if_pos rfl]
  split
  · exact Console.logEvents_hadError _ _
  · exact (Console.reportFailure_hadError _ _).trans (Console.logEvents_hadError _ _)

/-- **A correct program that is cut at a line break is not rejected.** What is left is a program or
    is incomplete. In the first case it is run, in the second one more lines are awaited and nothing
    is done; in neither is a complaint about the text reported. -/
theorem accepted_cut_at_line {p rest : Text}
    (hok : (Program.ofText (p ++ rest)).diagnostics = []) (hbreak : Text.BreaksAt p rest) :
    ((Program.ofText p).diagnostics = [] ∨
      Diagnostic.allIncomplete (Program.ofText p).diagnostics = true) ∧
    ∀ (h : Host) (r : Repl),
      (r.tryProgram h p false = (true, r.runProgram h (.ofText p)) ∨
        r.tryProgram h p false = (false, r)) ∧
      (r.tryProgram h p false).2.console.hadError = r.console.hadError := by
  have hcut := Program.cut_at_line hok hbreak
  refine ⟨hcut, fun h r => ?_⟩
  rcases hcut with haccepted | hincomplete
  · have hrun : r.tryProgram h p false = (true, r.runProgram h (.ofText p)) := by
      unfold Repl.tryProgram
      dsimp only
      rw [haccepted]
      rfl
    rw [hrun]
    exact ⟨.inl rfl, Repl.runProgram_hadError h haccepted r⟩
  · have hwait : r.tryProgram h p false = (false, r) := by
      have hsome : ¬ (Program.ofText p).diagnostics.isEmpty = true := fun hempty => by
        rw [List.isEmpty_iff.mp hempty] at hincomplete
        cases hincomplete
      unfold Repl.tryProgram
      dsimp only
      rw [if_neg hsome, hincomplete]
      rfl
    rw [hwait]
    exact ⟨.inr rfl, rfl⟩

/-- A loop that is cut before its end is awaited. -/
theorem openLoop_awaits :
    let p := utf8 "BEGIN CODE\nWHILE (x) BEGIN WHILE\n"
    (Program.ofText (p ++ utf8 "x = 0\nEND WHILE\nEND CODE")).diagnostics = [] ∧
      (Program.ofText p).diagnostics.length = 2 ∧
      ((Program.ofText p).diagnostics = [] ∨
        Diagnostic.allIncomplete (Program.ofText p).diagnostics = true) ∧
      ∀ (h : Host) (r : Repl),
        (r.tryProgram h p false = (true, r.runProgram h (.ofText p)) ∨
          r.tryProgram h p false = (false, r)) ∧
        (r.tryProgram h p false).2.console.hadError = r.console.hadError := by
  have hok : (Program.ofText (utf8 "BEGIN CODE\nWHILE (x) BEGIN WHILE\n" ++
      utf8 "x = 0\nEND WHILE\nEND CODE")).diagnostics = [] :=
    List.isEmpty_iff.mp (by decide +kernel)
  exact ⟨hok, by decide +kernel,
    accepted_cut_at_line hok (.inr (.inl ⟨utf8 "BEGIN CODE\nWHILE (x) BEGIN WHILE", rfl⟩))⟩

end FencedCode
