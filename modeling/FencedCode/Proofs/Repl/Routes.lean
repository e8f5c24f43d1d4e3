import FencedCode.Proofs.Machine.Places
import FencedCode.Proofs.Repl.Turns
import FencedCode.Proofs.Syntax.Live

/-!
# Ways of running a program

A program is run as a text, from a reader, from a file, or as an entry of a stream. The first three
report complaints as they are made, the last one reports them all when the text is read; a file may
start with a `#!` line, which is taken off. None of this makes a difference: the console shows the
same, and the machine is left in the same state.

* `Route.text`, `Route.reader`, `Route.file` -- the ways with a console at hand;
* `ScannedAlike`, `ScannedAlike.withoutShebang` -- without its `#!` line a file is scanned as it is
  with the line, but for the offsets of tokens;
* `Source.stripped_reports`, `Source.stripped_tree` -- so it is read as it is with the line;
* `Repl.tryProgram_eq` -- what an entry of a stream does;
* `routes_agree` -- **all ways of running a program agree**.
-/

namespace FencedCode

open Machine

/-! ## 1. Ways with a console at hand -/

namespace Console

/-- Reports a complaint at the moment it is made. -/
def tell (k : Console) (d : Diagnostic) : Console :=
  k.reportDiagnostic d.line d.shortText

/-- Reports the failure of a run that has failed. -/
def afterRun (k : Console) : Except Failure Unit → Console
  | .ok () => k
  | .error x => k.reportFailure x

/-- Reports why a source text did not run to its end, if it did not. -/
def afterSource (k : Console) (left : Option RunError × Machine) : Console × Machine :=
  (left.1.elim k k.reportError, left.2)

end Console

namespace Route

/-- Executes a program unless there were complaints, and reports its failure. -/
def execute (h : Host) (p : Program) (k : Console) (m : Machine) : Console × Machine :=
  if p.diagnostics.isEmpty then
    let (r, m) := Machine.execute h grantedSteps p.stmts m
    (k.afterRun r, m)
  else (k, m)

/-- Runs a text and reports each complaint when it is made. -/
def text (h : Host) (t : Text) (k : Console) (m : Machine) : Console × Machine :=
  let (p, k) := Program.live Console.tell t k
  execute h p k m

/-- Runs the text that a reader yields. -/
def reader (h : Host) (source : Input) (k : Console) (m : Machine) : Console × Machine :=
  match Source.ofReader source with
  | .ok t => text h t k m
  | .error _ => (k, m)

/-- Runs a program file, given what reading it yields. -/
def file (h : Host) (content : Except Text Text) (k : Console) (m : Machine) : Console × Machine :=
  match content with
  | .ok t => text h (Source.withoutShebang t) k m
  | .error _ => (k, m)

/-- Two ways end alike: with the same console, the same output and the same input left, and with
    the same global bindings up to `g`. -/
structure Agree (g : Position → Position) (a b : Console × Machine) : Prop where
  console : b.1 = a.1
  machine : a.2.SameUpTo g b.2

/-! Reports of complaints as they are made come to the same as reports at the end. -/

variable {h : Host} {k : Console} {m : Machine} {t : Text}

/-- Running a text is reading it, reporting the complaints, and executing it if there are none. -/
theorem text_eq_execute :
    text h t k m =
      execute h (.ofText t) (k.reportDiagnostics (Program.ofText t).diagnostics) m := by
  unfold text
  rw [Program.live_eq]
  rfl

theorem text_of_rejected (hrejected : (Program.ofText t).diagnostics ≠ []) :
    text h t k m = (k.reportDiagnostics (Program.ofText t).diagnostics, m) := by
  rw [text_eq_execute, execute, if_neg fun hempty => hrejected (List.isEmpty_iff.mp hempty)]

theorem text_of_accepted (hok : (Program.ofText t).diagnostics = []) :
    text h t k m = (k.afterRun (Machine.execute h grantedSteps (Program.ofText t).stmts m).1,
      (Machine.execute h grantedSteps (Program.ofText t).stmts m).2) := by
  have hsilent : k.reportDiagnostics [] = k := rfl
  rw [text_eq_execute, execute, hok, List.isEmpty_nil, if_pos rfl, hsilent]

/-- **Reporting live comes to the same as reporting at the end.** -/
theorem text_eq (h : Host) (t : Text) (k : Console) (m : Machine) :
    text h t k m = k.afterSource (runText h t m) := by
  by_cases hok : (Program.ofText t).diagnostics = []
  · rw [text_of_accepted hok, runText, runProgram_of_accepted hok]
    unfold Console.afterSource
    rcases Machine.execute h grantedSteps (Program.ofText t).stmts m with ⟨_ | _, m'⟩ <;> rfl
  · rw [text_of_rejected hok, runText, runProgram,
      if_neg fun hempty => hok (List.isEmpty_iff.mp hempty)]
    rfl

theorem reader_eq (h : Host) (source : Input) (k : Console) (m : Machine) :
    reader h source k m = k.afterSource (runReader h source m) := by
  unfold reader runReader
  cases Source.ofReader source with
  | ok t => exact text_eq h t k m
  | error reason => rfl

theorem file_eq (h : Host) (content : Except Text Text) (k : Console) (m : Machine) :
    file h content k m = k.afterSource (runFile h content m) := by
  cases content with
  | ok t => exact text_eq h _ k m
  | error reason => rfl

end Route

/-! ## 2. The line that a file may start with -/

/-- A place but for the bytes before it. -/
def Position.withoutOffset (p : Position) : Position :=
  { p with offset := 0 }

/-- The line of a place. -/
def Position.lineOnly (p : Position) : Position :=
  ⟨0, p.line, 0⟩

namespace Source

/-- A file has no `#!` line, or it consists of one, or the line feed that ends the line stays. -/
theorem withoutShebang_cases (c : Text) :
    withoutShebang c = c ∨
      (∃ a, c = 35 :: a ∧ 10 ∉ a ∧ withoutShebang c = []) ∨
      ∃ a b, c = 35 :: a ++ 10 :: b ∧ 10 ∉ a ∧ withoutShebang c = 10 :: b := by
  by_cases hprefix : (utf8 "#!").isPrefixOf c = true
  · right
    obtain ⟨a, rfl⟩ : ∃ a, c = 35 :: a := by
      obtain ⟨u, hu⟩ := List.isPrefixOf_iff_prefix.mp hprefix
      exact ⟨33 :: u, hu.symm⟩
    have hstrip : withoutShebang (35 :: a) = a.dropWhile (· != 10) := by
      rw [withoutShebang, if_pos hprefix]
      rfl
    have hdropped {d : Text} (hd : 10 ∉ d) (x : UInt8) (hx : x ∈ d) : (x != 10) = true :=
      bne_iff_ne.mpr fun heq => hd (heq ▸ hx)
    by_cases hfeed : 10 ∈ a
    · obtain ⟨d, b, rfl, hd⟩ := List.eq_append_cons_of_mem hfeed
      refine .inr ⟨d, b, rfl, hd, ?_⟩
      rw [hstrip, List.dropWhile_append_of_pos (hdropped hd)]
      rfl
    · refine .inl ⟨a, rfl, hfeed, ?_⟩
      rw [hstrip]
      exact List.dropWhile_eq_nil_iff.mpr (hdropped hfeed)
  · exact .inl (if_neg hprefix)

end Source

/-! ## 3. Files are read as they are with the line -/

/-- Two texts have the same lexical complaints and, up to `g`, the same tokens. -/
structure ScannedAlike (g : Position → Position) (c d : Text) : Prop where
  diagnostics : (Scan.ofText c).diagnostics = (Scan.ofText d).diagnostics
  tokens : (Scan.ofText c).tokens.map (Token.mapPos g) =
    (Scan.ofText d).tokens.map (Token.mapPos g)

namespace ScannedAlike

variable {g : Position → Position} {c d : Text}

theorem refl (c : Text) : ScannedAlike g c c :=
  ⟨rfl, rfl⟩

/-- A file is scanned like its text, up to offsets; or there is nothing to scan but a comment. -/
theorem withoutShebang (c : Text) :
    ScannedAlike .withoutOffset c (Source.withoutShebang c) ∨
      ScannedAlike .lineOnly c (Source.withoutShebang c) ∧ Source.withoutShebang c = [] := by
  have hnil : Scan.ofText [] = ⟨[.endAt .start], []⟩ := rfl
  rcases Source.withoutShebang_cases c with hsame | ⟨a, rfl, ha, hstrip⟩ | ⟨a, b, rfl, ha, hstrip⟩
  · rw [hsame]
    exact .inl (refl c)
  · obtain ⟨p, hp, hcomment⟩ := Scan.ofText_comment ha
    rw [hstrip]
    refine .inr ⟨⟨?_, ?_⟩, rfl⟩
    · rw [hcomment, hnil]
    · have hplace : p.lineOnly = Position.start.lineOnly := congrArg (Position.mk 0 · 0) hp
      rw [hcomment, hnil]
      exact congrArg (fun q => [Token.endAt q]) hplace
  · obtain ⟨p, _, hcomment⟩ := Scan.ofText_comment ha
    have hline : 10 ∉ 35 :: a := List.not_mem_cons_of_ne_of_not_mem (by decide) ha
    have hstripped := Scan.ofText_behind hnil List.not_mem_nil b
    rw [List.nil_append] at hstripped
    rw [hstrip]
    refine .inl ⟨?_, ?_⟩
    · rw [Scan.ofText_behind hcomment hline, hstripped]
    · rw [Scan.ofText_behind hcomment hline, hstripped, List.map_map, List.map_map]
      rfl

/-- **Texts that are scanned alike are parsed alike**, if `g` keeps the lines. -/
theorem parsed (h : ScannedAlike g c d) (hg : ∀ p, (g p).line = p.line) :
    Stmt.mapPosAll g (Program.ofText c).stmts = Stmt.mapPosAll g (Program.ofText d).stmts ∧
      ∃ ds ds',
        (Program.ofText c).diagnostics = (Scan.ofText c).diagnostics ++ ds ∧
        (Program.ofText d).diagnostics = (Scan.ofText c).diagnostics ++ ds' ∧
        List.Forall₂ (Diagnostic.Mirrors g) ds ds' := by
  have hmirrored := Mirrored.of_tokens hg h.tokens
  obtain ⟨htrees, hcomplaints⟩ := Program.mirrors_ofTokens hmirrored.length_eq
    (by rwa [Program.withEnd_scanned, Program.withEnd_scanned])
  rw [Program.stmts_ofText, Program.stmts_ofText, Program.diagnostics_ofText,
    Program.diagnostics_ofText, ← h.diagnostics]
  exact ⟨htrees, _, _, rfl, rfl, hcomplaints⟩

end ScannedAlike

/-! ### What is shown -/

section Shown

variable {g : Position → Position}

/-- What is shown of a complaint is the same if `g` keeps the lines. -/
theorem Diagnostic.Mirrors.tell_eq (hg : ∀ p, (g p).line = p.line) {d d' : Diagnostic}
    (h : d.Mirrors g d') (k : Console) : k.tell d' = k.tell d := by
  cases h with
  | @atToken t u e htu =>
    obtain ⟨hkind, hlexeme, _, hplace⟩ := Token.mk.inj htu
    have hline : t.pos.line = u.pos.line := by rw [← hg t.pos, hplace, hg]
    simp only [Console.tell, Diagnostic.shortText, Diagnostic.atToken, hkind, hlexeme, hline]

theorem Console.reportDiagnostics_mirrors (hg : ∀ p, (g p).line = p.line)
    {ds ds' : List Diagnostic} (h : List.Forall₂ (Diagnostic.Mirrors g) ds ds') (k : Console) :
    k.reportDiagnostics ds' = k.reportDiagnostics ds := by
  induction h generalizing k with
  | nil => rfl
  | @cons d d' ds ds' hd _ ih =>
    show (k.tell d').reportDiagnostics ds' = (k.tell d).reportDiagnostics ds
    rw [hd.tell_eq hg, ih]

/-- What is shown of a failure is what is shown of it with other places on the same lines. -/
theorem Console.reportFailure_mapPos (hg : ∀ p, (g p).line = p.line) (k : Console) (x : Failure) :
    k.reportFailure (x.mapPos g) = k.reportFailure x := by
  cases x with
  | fault f =>
    show k.reportFailed f.message ((g f.token.pos).line : Nat) = _
    rw [hg]
    rfl
  | _ => rfl

theorem Console.afterRun_mapPos (hg : ∀ p, (g p).line = p.line) (k : Console)
    (r : Except Failure Unit) : k.afterRun (r.mapError (Failure.mapPos g)) = k.afterRun r := by
  cases r with
  | ok => rfl
  | error x => exact k.reportFailure_mapPos hg x

end Shown

namespace ScannedAlike

variable {g : Position → Position} {c d : Text}

/-- The complaints about texts that are scanned alike are shown alike. -/
theorem reports (h : ScannedAlike g c d) (hg : ∀ p, (g p).line = p.line) (k : Console) :
    k.reportDiagnostics (Program.ofText d).diagnostics =
      k.reportDiagnostics (Program.ofText c).diagnostics := by
  obtain ⟨_, ds, ds', hc, hd, hcomplaints⟩ := h.parsed hg
  have happend (es es' : List Diagnostic) :
      k.reportDiagnostics (es ++ es') = (k.reportDiagnostics es).reportDiagnostics es' :=
    List.foldl_append
  rw [hc, hd, happend, happend, Console.reportDiagnostics_mirrors hg hcomplaints]

theorem accepted_iff (h : ScannedAlike g c d) (hg : ∀ p, (g p).line = p.line) :
    (Program.ofText d).diagnostics = [] ↔ (Program.ofText c).diagnostics = [] := by
  obtain ⟨_, ds, ds', hc, hd, hcomplaints⟩ := h.parsed hg
  have hempty : ds' = [] ↔ ds = [] := by
    rw [← List.length_eq_zero_iff, ← hcomplaints.length_eq, List.length_eq_zero_iff]
  rw [hc, hd, List.append_eq_nil_iff, List.append_eq_nil_iff, hempty]

end ScannedAlike

namespace Source

/-- An empty text is no program. -/
theorem rejected_nil : (Program.ofText []).diagnostics ≠ [] := fun hnil =>
  absurd (List.isEmpty_iff.mpr hnil) (by decide +kernel)

/-- **The complaints about a file are shown like those about its text.** -/
theorem stripped_reports (c : Text) (k : Console) :
    k.reportDiagnostics (Program.ofText (withoutShebang c)).diagnostics =
      k.reportDiagnostics (Program.ofText c).diagnostics := by
  rcases ScannedAlike.withoutShebang c with h | ⟨h, _⟩
  · exact h.reports (fun _ => rfl) k
  · exact h.reports (fun _ => rfl) k

theorem stripped_accepted_iff (c : Text) :
    (Program.ofText (withoutShebang c)).diagnostics = [] ↔ (Program.ofText c).diagnostics = [] := by
  rcases ScannedAlike.withoutShebang c with h | ⟨h, _⟩
  · exact h.accepted_iff fun _ => rfl
  · exact h.accepted_iff fun _ => rfl

/-- **The tree of a file is that of its text**, up to offsets. -/
theorem stripped_tree {c : Text} (hok : (Program.ofText c).diagnostics = []) :
    Stmt.AllMoved .withoutOffset (Program.ofText c).stmts
      (Program.ofText (withoutShebang c)).stmts := by
  rcases ScannedAlike.withoutShebang c with h | ⟨_, hnil⟩
  · have hplaced := Program.placed_ofText c
    have hplaced' := Program.placed_ofText (withoutShebang c)
    exact Stmt.allMoved_of_placed (h.parsed fun _ => rfl).1 hplaced hplaced'
  · have hempty := (stripped_accepted_iff c).mpr hok
    rw [hnil] at hempty
    exact absurd hempty rejected_nil

end Source

/-! ## 4. All ways agree -/

/-- **What an entry of a stream does** that is not blank: it is run like a text on a standard
    machine, with the console, the input and the output of the stream. -/
theorem Repl.tryProgram_eq {h : Host} (hquiet : h.tracing = false) {c : Text}
    (hc : Text.isBlank c = false) (r : Repl) :
    tryProgram h c true r =
      let run := Route.text h c r.console (.standard r.input)
      (true, ⟨run.1, run.2.input, run.2.output ++ r.output⟩) := by
  have hevents := events_runProgram hquiet (.ofText c) (m := .standard r.input) rfl
  rw [Route.text_eq]
  unfold tryProgram
  by_cases hok : (Program.ofText c).diagnostics = []
  · rw [if_pos (List.isEmpty_iff.mpr hok)]
    unfold runProgram
    dsimp only
    rw [hevents]
    rfl
  · have hrejected : runText h c (.standard r.input) =
        (some (.rejected (Program.ofText c).diagnostics), .standard r.input) :=
      if_neg fun hempty => hok (List.isEmpty_iff.mp hempty)
    rw [if_neg fun hempty => hok (List.isEmpty_iff.mp hempty), hc, hrejected]
    simp only [Bool.not_true, Bool.and_false, Bool.false_eq_true, if_false]
    rfl

namespace Route

variable {h : Host} {c : Text}

/-- **A file runs like its text**: each of the runs ends if the other one does, and when they end
    they agree, but for the offsets in functions that are bound. -/
theorem file_halts (hok : (Program.ofText c).diagnostics = []) (k : Console) {m : Machine}
    (hm : Hosted m) :
    (∀ r m₁, Halts h (Program.ofText c).stmts m r m₁ →
      ∃ r' m₂, Halts h (Program.ofText (Source.withoutShebang c)).stmts m r' m₂ ∧
        Agree .withoutOffset (k.afterRun r, m₁) (k.afterRun r', m₂)) ∧
    (∀ r' m₂, Halts h (Program.ofText (Source.withoutShebang c)).stmts m r' m₂ →
      ∃ r m₁, Halts h (Program.ofText c).stmts m r m₁ ∧
        Agree .withoutOffset (k.afterRun r, m₁) (k.afterRun r', m₂)) := by
  obtain ⟨hforth, hback⟩ := relocated_halts h hm (Source.stripped_tree hok)
  have hkeeps (p : Position) : p.withoutOffset.line = p.line := rfl
  have hshown {r r' : Except Failure Unit} (hr : r'.mapError (Failure.mapPos .withoutOffset) =
      r.mapError (Failure.mapPos .withoutOffset)) : k.afterRun r' = k.afterRun r := by
    rw [← k.afterRun_mapPos hkeeps r', hr, k.afterRun_mapPos hkeeps]
  refine ⟨fun r m₁ hhalts => ?_, fun r' m₂ hhalts => ?_⟩
  · obtain ⟨r', m₂, hhalts', hr, hsame⟩ := hforth r m₁ hhalts
    exact ⟨r', m₂, hhalts', hshown hr, hsame⟩
  · obtain ⟨r, m₁, hhalts', hr, hsame⟩ := hback r' m₂ hhalts
    exact ⟨r, m₁, hhalts', hshown hr, hsame⟩

/-- A run that ends with the steps granted to it halts. -/
theorem halts_text (hok : (Program.ofText c).diagnostics = []) {m : Machine}
    (hends : (runText h c m).1 ≠ some (.failed .exhausted)) :
    Halts h (Program.ofText c).stmts m
      (Machine.execute h grantedSteps (Program.ofText c).stmts m).1
      (Machine.execute h grantedSteps (Program.ofText c).stmts m).2 := by
  refine halts_of_execute fun hexhausted => hends ?_
  rw [runText, runProgram_of_accepted hok, hexhausted]

theorem file_of_accepted (hok : (Program.ofText c).diagnostics = []) (k : Console) {m : Machine}
    (hm : Hosted m) (htext : (runText h c m).1 ≠ some (.failed .exhausted))
    (hfile : (runFile h (.ok c) m).1 ≠ some (.failed .exhausted)) :
    Agree .withoutOffset (text h c k m) (file h (.ok c) k m) := by
  have hok' := (Source.stripped_accepted_iff c).mpr hok
  obtain ⟨r', m', hhalts, hagree⟩ := (file_halts hok k hm).1 _ _ (halts_text hok htext)
  -- a program ends in one way at most, so this is how the run of the file has ended
  obtain ⟨hresult, hmachine⟩ := hhalts.unique (halts_text hok' hfile)
  show Agree _ (text h c k m) (text h (Source.withoutShebang c) k m)
  rw [text_of_accepted hok, text_of_accepted hok', ← hresult, ← hmachine]
  exact hagree

theorem file_of_rejected (hrejected : (Program.ofText c).diagnostics ≠ []) (k : Console)
    (m : Machine) : file h (.ok c) k m = text h c k m := by
  have hstripped := fun hok => hrejected ((Source.stripped_accepted_iff c).mp hok)
  show text h (Source.withoutShebang c) k m = _
  rw [text_of_rejected hstripped, text_of_rejected hrejected, Source.stripped_reports]

end Route

/-- **All ways of running a program agree.** Take a text that is not blank, any input, and a console
    and a standard machine that are fresh. As a text, from a reader and as an entry of a stream the
    program does the same: the same output, the same console with the same flags, the same input
    left and the same machine, in whose global frame the bindings are. For this it makes no
    difference that complaints are reported as they are made or replayed: a text, a reader and a
    file come to what their runs leave to be reported. From a file it does the same too, although a
    `#!` line is taken off:
    * a text with complaints is not executed on any way, and what the console shows is the same;
    * without complaints, each of the runs ends if the other one does, and when they end, or when
      they are given the same steps and both end, they agree. Only the offsets in functions that
      are bound may differ. -/
theorem routes_agree {h : Host} (hquiet : h.tracing = false) {c : Text}
    (hc : Text.isBlank c = false) (k : Console) (i : Input) :
    let m : Machine := .standard i
    let run := Route.text h c k m
    let complaints := (Program.ofText c).diagnostics
    run = k.afterSource (runText h c m) ∧
    Route.reader h ⟨c, none⟩ k m = run ∧
    Route.reader h ⟨c, none⟩ k m = k.afterSource (runReader h ⟨c, none⟩ m) ∧
    Route.file h (.ok c) k m = k.afterSource (runFile h (.ok c) m) ∧
    Repl.tryProgram h c true ⟨k, i, []⟩ = (true, ⟨run.1, run.2.input, run.2.output⟩) ∧
    (runProgram h (.ofText c) m).2 = run.2 ∧
    (complaints ≠ [] →
      run = (k.reportDiagnostics complaints, m) ∧ Route.file h (.ok c) k m = run) ∧
    (complaints = [] →
      (∀ r m₁, Halts h (Program.ofText c).stmts m r m₁ →
        ∃ r' m₂, Halts h (Program.ofText (Source.withoutShebang c)).stmts m r' m₂ ∧
          Route.Agree .withoutOffset (k.afterRun r, m₁) (k.afterRun r', m₂)) ∧
      (∀ r' m₂, Halts h (Program.ofText (Source.withoutShebang c)).stmts m r' m₂ →
        ∃ r m₁, Halts h (Program.ofText c).stmts m r m₁ ∧
          Route.Agree .withoutOffset (k.afterRun r, m₁) (k.afterRun r', m₂)) ∧
      ((runText h c m).1 ≠ some (.failed .exhausted) →
        (runFile h (.ok c) m).1 ≠ some (.failed .exhausted) →
        Route.Agree .withoutOffset run (Route.file h (.ok c) k m))) := by
  intro m run complaints
  have hrun : run = k.afterSource (runText h c m) := Route.text_eq h c k m
  refine ⟨hrun, rfl, Route.reader_eq h _ k m, Route.file_eq h _ k m, ?_, ?_,
    fun hrejected => ⟨Route.text_of_rejected hrejected, ?_⟩, fun hok => ?_⟩
  · have hentry := Repl.tryProgram_eq hquiet hc ⟨k, i, []⟩
    rw [hentry]
    dsimp only
    rw [List.append_nil]
  · rw [hrun]
    rfl
  · exact Route.file_of_rejected hrejected k m
  · obtain ⟨hforth, hback⟩ := Route.file_halts hok k (hosted_standard i)
    exact ⟨hforth, hback, Route.file_of_accepted hok k (hosted_standard i)⟩

/-- A program file whose run displays a number and divides by zero on its fourth line. -/
def shebangProgram : Text :=
  utf8 "#!/bin/codelang\nBEGIN CODE\nDISPLAY: 1\nDISPLAY: 1 / 0\nEND CODE\n"

/-- From a file the fault is reported on the same line as from a text, and as for an entry of a
    stream. -/
theorem routes_agree_shebang :
    let k : Console := { color := false }
    let entry := (Repl.tryProgram {} shebangProgram true ⟨k, .empty, []⟩).2
    let file := Route.file {} (.ok shebangProgram) k (.standard .empty)
    entry.written = utf8 "1\n" ∧ file.2.written = utf8 "1\n" ∧
      entry.console.text = utf8 "Cannot divide by zero.\n[line 4]\n" ∧
      file.1.text = utf8 "Cannot divide by zero.\n[line 4]\n" := by
  intro k entry file
  have hblank : Text.isBlank shebangProgram = false := by decide +kernel
  have hok : (Program.ofText shebangProgram).diagnostics = [] :=
    List.isEmpty_iff.mp (by decide +kernel)
  have hends' {e : Option RunError} (he : e.any (·.failure?.any (·.fault?.isSome)) = true) :
      e ≠ some (.failed .exhausted) := by
    rintro rfl
    cases he
  have hleft : (runText {} shebangProgram (.standard .empty)).1.any
        (·.failure?.any (·.fault?.isSome)) = true ∧
      (runText {} shebangProgram (.standard .empty)).2.written = utf8 "1\n" ∧
      (k.afterSource (runText {} shebangProgram (.standard .empty))).1.text =
        utf8 "Cannot divide by zero.\n[line 4]\n" := by decide +kernel
  have hfileEnds : (runFile {} (.ok shebangProgram) (.standard .empty)).1.any
      (·.failure?.any (·.fault?.isSome)) = true := by decide +kernel
  obtain ⟨hends, hwritten, hshown⟩ := hleft
  obtain ⟨hrun, _, _, _, hentry, _, _, haccepted⟩ := routes_agree (h := {}) rfl hblank k .empty
  have hagree := (haccepted hok).2.2 (hends' hends) (hends' hfileEnds)
  rw [hrun] at hentry hagree
  have hentered : entry = _ := congrArg Prod.snd hentry
  rw [hentered]
  exact ⟨hwritten, hagree.machine.written.trans hwritten, hshown,
    (congrArg Console.text hagree.console).trans hshown⟩

/-- Blank texts are the exception: an entry of a stream is silent about them. -/
example :
    (Repl.tryProgram {} (utf8 " ") true ⟨{ color := false }, .empty, []⟩).2.console.text = [] ∧
    (Route.text {} (utf8 " ") { color := false } (.standard .empty)).1.hadError = true := by
  decide +kernel

end FencedCode
