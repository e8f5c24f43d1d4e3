import FencedCode.Proofs.Machine.Location
import FencedCode.Proofs.Machine.Supply
import FencedCode.Proofs.Syntax.Sealed
import FencedCode.Repl

/-!
# Turn by turn

A stream may hold one program after the other, each followed by the lines that it reads. Where a
program ends is not marked: it is run as soon as its lines are a program, and what it does not read
is the next one. So each line must go either to the buffer or to the program that runs, and nothing
may be run too early or too late.

* `Repl.trace`, `Repl.executed` -- which texts are run as programs;
* `Turn`, `Turn.Proper` -- a program and its input, and what is asked of them;
* `Repl.trace_program` -- **the lines of a program are gathered, and run with the last of them**;
* `Turn.Proper.play_eq` -- **a program reads its own input and leaves the rest**;
* `stream_runs_turns` -- **a stream does what its turns do alone, one after the other.**
-/

namespace FencedCode

open Machine

/-! ## 1. What is run -/

theorem not_isEmpty_of_allIncomplete {ds : List Diagnostic}
    (hincomplete : Diagnostic.allIncomplete ds = true) : ¬ ds.isEmpty = true := by
  intro hempty
  rw [List.isEmpty_iff.mp hempty] at hincomplete
  cases hincomplete

namespace Repl

/-- Takes pieces off a stream as `loop` does, and also tells which texts are run as programs. -/
def trace (h : Host) : Nat → Text → Repl → List Text × Option Text × Repl
  | 0, _, r => ([], none, r)
  | fuel + 1, buffer, r =>
    let ((piece, e), input) := r.input.nextPiece
    let r := { r with input }
    match e with
    | some (.failed reason) => ([], some reason, r)
    | e =>
      let source := buffer ++ piece
      let final := e.isSome
      let (done, r) := if source.isEmpty then (false, r) else r.tryProgram h source final
      let now := if !source.isEmpty && (Program.ofText source).diagnostics.isEmpty then [source]
        else []
      if final then (now, none, r)
      else
        let (later, result) := trace h fuel (if done then [] else source) r
        (now ++ later, result)

/-- The texts that are run as programs while a whole stream is read, in order. -/
def executed (h : Host) (r : Repl) : List Text :=
  (trace h (r.input.rest.length + 1) [] r).1

/-- **Telling what is run changes nothing.** -/
theorem trace_snd (h : Host) (fuel : Nat) (buffer : Text) (r : Repl) :
    (trace h fuel buffer r).2 = loop h fuel buffer r := by
  induction fuel generalizing buffer r with
  | zero => rfl
  | succ fuel ih =>
    unfold trace loop
    rcases r.input.nextPiece with ⟨⟨piece, _ | _ | reason⟩, input⟩
    · exact ih _ _
    · rfl
    · rfl

/-- A text that is a program is run. -/
theorem tryProgram_of_accepted {source : Text} (hok : (Program.ofText source).diagnostics = [])
    (h : Host) (final : Bool) (r : Repl) :
    r.tryProgram h source final = (true, r.runProgram h (.ofText source)) := by
  unfold tryProgram
  dsimp only
  rw [hok]
  rfl

/-- A text that is merely incomplete is kept for later. -/
theorem tryProgram_of_incomplete {source : Text}
    (hincomplete : Diagnostic.allIncomplete (Program.ofText source).diagnostics = true)
    (h : Host) (r : Repl) : r.tryProgram h source false = (false, r) := by
  unfold tryProgram
  dsimp only
  rw [if_neg (not_isEmpty_of_allIncomplete hincomplete), hincomplete]
  rfl

/-- One more line, behind which there is more of the stream. -/
theorem trace_line {line : Text} (hline : 10 ∉ line) (h : Host) (fuel : Nat) (buffer rest : Text)
    (r : Repl) :
    trace h (fuel + 1) buffer { r with input := ⟨line ++ 10 :: rest, none⟩ } =
      let source := buffer ++ (line ++ [10])
      let (done, r') := tryProgram h source false { r with input := ⟨rest, none⟩ }
      let now := if (Program.ofText source).diagnostics.isEmpty then [source] else []
      let (later, result) := trace h fuel (if done then [] else source) r'
      (now ++ later, result) := by
  have hsome : (buffer ++ (line ++ [10])).isEmpty = false := by
    rw [← List.append_assoc, List.isEmpty_eq_false_iff]
    exact List.append_ne_nil_of_right_ne_nil _ (List.cons_ne_nil _ _)
  conv => lhs; unfold trace
  dsimp only
  rw [Input.nextPiece_line hline]
  dsimp only [Option.isSome_none]
  rw [hsome]
  rfl

/-- **A line that does not complete a program goes to the buffer.** -/
theorem trace_waits {buffer line : Text} (hline : 10 ∉ line) (hincomplete :
      Diagnostic.allIncomplete (Program.ofText (buffer ++ (line ++ [10]))).diagnostics = true)
    (h : Host) (fuel : Nat) (rest : Text) (r : Repl) :
    trace h (fuel + 1) buffer { r with input := ⟨line ++ 10 :: rest, none⟩ } =
      trace h fuel (buffer ++ (line ++ [10])) { r with input := ⟨rest, none⟩ } := by
  rw [trace_line hline]
  dsimp only
  rw [tryProgram_of_incomplete hincomplete, if_neg (not_isEmpty_of_allIncomplete hincomplete)]
  rfl

/-- **A line that completes a program makes it run**, on what comes behind the line. -/
theorem trace_completes {buffer line : Text} (hline : 10 ∉ line)
    (hok : (Program.ofText (buffer ++ (line ++ [10]))).diagnostics = [])
    (h : Host) (fuel : Nat) (rest : Text) (r : Repl) :
    trace h (fuel + 1) buffer { r with input := ⟨line ++ 10 :: rest, none⟩ } =
      let source := buffer ++ (line ++ [10])
      let (later, result) :=
        trace h fuel [] (runProgram h (.ofText source) { r with input := ⟨rest, none⟩ })
      (source :: later, result) := by
  rw [trace_line hline]
  dsimp only
  rw [tryProgram_of_accepted hok, hok]
  rfl

/-- At its end, a stream with nothing in the buffer is done with. -/
theorem trace_end (h : Host) (fuel : Nat) (r : Repl) :
    trace h (fuel + 1) [] { r with input := ⟨[], none⟩ } =
      ([], none, { r with input := ⟨[], none⟩ }) := rfl

/-! ## 2. Gathering a program -/

/-- **The lines of a program are gathered, and run with the last of them.** The buffer holds the
    lines before `ahead`, each of which takes one step. -/
theorem trace_program {buffer ahead : Text} (hbuffer : buffer.IsLines) (hahead : ahead.IsLines)
    (hsome : ahead ≠ []) (hok : (Program.ofText (buffer ++ ahead)).diagnostics = [])
    (hcloses : (buffer ++ ahead).ClosesOnLastLine) (h : Host) (fuel : Nat) (rest : Text)
    (r : Repl) :
    trace h (fuel + ahead.count 10) buffer { r with input := ⟨ahead ++ rest, none⟩ } =
      let (later, result) :=
        trace h fuel [] (runProgram h (.ofText (buffer ++ ahead)) { r with input := ⟨rest, none⟩ })
      ((buffer ++ ahead) :: later, result) := by
  -- by induction on the lines ahead; the buffer grows by one line at a time
  generalize hlines : ahead.count 10 = lines
  induction lines generalizing buffer ahead with
  | zero =>
    rcases hahead with hnil | ⟨a, rfl⟩
    · exact absurd hnil hsome
    · rw [List.count_append] at hlines
      cases hlines
  | succ lines ih =>
    rcases hahead.cases with hnil | ⟨line, later, rfl, hline, hlater⟩
    · exact absurd hnil hsome
    have hcount : later.count 10 = lines := by
      rw [List.count_append, List.count_cons_self, List.count_eq_zero.mpr hline] at hlines
      omega
    have hsplit : buffer ++ (line ++ 10 :: later) = buffer ++ (line ++ [10]) ++ later := by
      rw [List.append_assoc, List.append_assoc]
      rfl
    have hinput : (line ++ 10 :: later) ++ rest = line ++ 10 :: (later ++ rest) := by
      rw [List.append_assoc]
      rfl
    have hbuffer' : Text.IsLines (buffer ++ (line ++ [10])) :=
      .inr ⟨buffer ++ line, (List.append_assoc ..).symm⟩
    rw [hsplit] at hok hcloses ⊢
    rw [hinput, ← Nat.add_assoc]
    by_cases hlast : later = []
    · -- the last line
      subst hlast
      obtain rfl : lines = 0 := hcount.symm
      rw [List.append_nil] at hok ⊢
      exact trace_completes hline hok h fuel rest r
    · -- the lines so far are no program yet
      have hmore : 10 ∈ later := by
        rcases hlater with hnil | ⟨a, rfl⟩
        · exact absurd hnil hlast
        · exact List.mem_append_right _ List.mem_cons_self
      have hincomplete := Program.cut_before_last_line hok hcloses hbuffer' hmore
      rw [trace_waits hline hincomplete]
      exact ih hbuffer' hlater hlast hok hcloses hcount

end Repl

/-! ## 3. Turns -/

/-- A program and the input that follows it in the stream. -/
structure Turn where
  /-- The text of the program. -/
  program : Text
  /-- What the program is to read. -/
  input : Text

namespace Turn

/-- The stream of some turns. -/
def stream (turns : List Turn) : Text :=
  (turns.map fun t => t.program ++ t.input).flatten

/-- The run of the program alone, on a standard machine with nothing but its own input. -/
def run (h : Host) (t : Turn) : Option RunError × Machine :=
  runText h t.program (.standard ⟨t.input, none⟩)

/-- The records of what the run traces. -/
def log (h : Host) (t : Turn) : Text :=
  ((t.run h).2.events.reverse.map fun e => Text.line e.logRecord).flatten

/-- The report of the fault that ends the run, if one does. -/
def report (h : Host) (color : Bool) (t : Turn) : Text :=
  match (t.run h).1 with
  | some (.failed (.fault f)) => (({ color } : Console).reportFailed f.message f.line).text
  | _ => []

/-- What is asked of a turn. -/
structure Proper (h : Host) (t : Turn) : Prop where
  /-- The program ends with a line feed. -/
  terminated : ∃ a, t.program = a ++ [10]
  /-- It is a program. -/
  accepted : (Program.ofText t.program).diagnostics = []
  /-- It closes on its last line. -/
  closes : t.program.ClosesOnLastLine
  /-- Its run comes to an end. -/
  ends : (t.run h).1 ≠ some (.failed .exhausted)
  /-- The input consists of whole lines. -/
  lines : t.input.IsLines
  /-- The run reads all of them. -/
  reads : (t.run h).2.input.rest = []
  /-- It never looks for a line where there is none, which would end it with a failure that says
      so. -/
  fed (x : Failure) : (t.run h).1 = some (.failed x) → ¬ x.WantsLine

/-- A turn on its own: its program runs with no more than its own input. -/
def play (h : Host) (r : Repl) (t : Turn) : Repl :=
  Repl.runProgram h (.ofText t.program) { r with input := ⟨t.input, none⟩ }

variable {h : Host} {t : Turn}

theorem run_eq (h : Host) (t : Turn) :
    t.run h = runProgram h (.ofText t.program) (.standard ⟨t.input, none⟩) := rfl

/-- **With more of the stream behind its input, the program runs as it does alone**, and leaves the
    rest of the stream. -/
theorem Proper.runProgram_eq (ht : t.Proper h) (rest : Text) :
    runProgram h (.ofText t.program) (.standard ⟨t.input ++ rest, none⟩) =
      ((t.run h).1, { (t.run h).2 with input := ⟨rest, none⟩ }) := by
  have hlines : (standard ⟨t.input, none⟩).input.IsLines := ⟨rfl, ht.lines⟩
  have hfed := ht.fed
  have hreads := ht.reads
  rw [run_eq] at hfed hreads ⊢
  obtain ⟨hrun, hfailure, _⟩ := runProgram_supplied ht.accepted hlines hfed rest
  rw [standard_supplied] at hrun
  refine hrun.trans ?_
  -- nothing is left of the input, so that the rest of the stream is all there is
  generalize runProgram h (.ofText t.program) (.standard ⟨t.input, none⟩) = alone
    at hreads hfailure ⊢
  obtain ⟨result, m⟩ := alone
  have hsupplied : m.input.supplied rest = ⟨rest, none⟩ := by
    show (⟨m.input.rest ++ rest, m.input.failure⟩ : Input) = ⟨rest, none⟩
    rw [hreads, hfailure]
    rfl
  unfold Machine.supplied
  rw [hsupplied]

/-- **A proper turn ends well or with a fault.** -/
theorem Proper.fault_of_run (ht : t.Proper h) {e : RunError} (he : (t.run h).1 = some e) :
    ∃ f, e = .failed (.fault f) := by
  rw [run_eq, runProgram_of_accepted ht.accepted] at he
  dsimp only at he
  split at he
  · cases he
  · rename_i x hx
    cases he
    have hrun : (t.run h).1 = some (.failed x) := runText_failed.mpr ⟨ht.accepted, hx⟩
    have hordinary := (execute_error.mp hx).isOrdinary
      (Activity.drawn_ofText grantedSteps t.program ⟨t.input, none⟩) trivial
    cases x with
    | exhausted => exact absurd hrun ht.ends
    | fault f => exact ⟨f, rfl⟩
    | reader during reason => exact nomatch hordinary.2
    | unaryOperator k => exact absurd hordinary id
    | binaryOperator k => exact absurd hordinary id
    | outOfRange => exact absurd hordinary id

end Turn

/-! ## 4. What is traced -/

/-- Without tracing nothing is recorded. -/
theorem Machine.log_of_quiet {h : Host} (hquiet : h.tracing = false) (m : Machine) (e : Event) :
    m.log h e = m := by
  unfold log
  rw [hquiet]
  rfl

/-- **Without tracing a run records no events.** -/
theorem quiet_invariant {h : Host} (hquiet : h.tracing = false) :
    Invariant h (fun m m' => m'.events = m.events) (fun m m' => m'.events = m.events)
      fun m => m.events = [] where
  refl _ := rfl
  trans hab hbc := hbc.trans hab
  transS hab hbc := hbc.trans hab
  ofE := id
  write _ _ := rfl
  probe _ _ := rfl
  tick _ := rfl
  log m e := congrArg _ (log_of_quiet hquiet m e)
  read _ := rfl
  assign _ := rfl
  declare m type name v isMutable _ := by
    unfold Machine.declare
    dsimp only
    rw [log_of_quiet hquiet, ite_self]
  function m f := by
    unfold declareFunction
    dsimp only
    rw [log_of_quiet hquiet, ite_self]
  block hbody := by
    unfold leave
    unfold enter at hbody
    rw [log_of_quiet hquiet] at hbody ⊢
    exact hbody
  call _ _ hbody := by
    unfold leave
    unfold enter at hbody
    rw [log_of_quiet hquiet] at hbody ⊢
    exact hbody
  keep hsame hm := hsame.trans hm
  keepS hsame hm := hsame.trans hm
  enterBlock hm := by
    unfold enter
    rw [log_of_quiet hquiet]
    exact hm
  enterCall _ _ hm := by
    unfold enter
    rw [log_of_quiet hquiet]
    exact hm
  enterProgram hm := hm

theorem events_runProgram {h : Host} (hquiet : h.tracing = false) (p : Program) {m : Machine}
    (hm : m.events = []) : (runProgram h p m).2.events = [] := by
  by_cases hok : p.diagnostics = []
  · rw [runProgram_of_accepted hok]
    dsimp only
    exact (quiet_invariant hquiet).execute _ _ hm
  · unfold runProgram
    rw [if_neg (fun hempty => hok (List.isEmpty_iff.mp hempty))]
    exact hm

theorem Turn.log_of_quiet {h : Host} (hquiet : h.tracing = false) (t : Turn) : t.log h = [] := by
  have hevents : (t.run h).2.events = [] := events_runProgram hquiet _ rfl
  unfold Turn.log
  rw [hevents]
  rfl

/-! ## 5. What is shown -/

namespace Console

/-- The second console shows what the first one does and then the given text. No complaint about a
    source is reported in between. -/
structure Gains (t : Text) (c c' : Console) : Prop where
  text : c'.text = c.text ++ t
  color : c'.color = c.color
  hadError : c'.hadError = c.hadError

theorem Gains.rfl {c : Console} : Gains [] c c :=
  ⟨(List.append_nil _).symm, Eq.refl _, Eq.refl _⟩

theorem Gains.trans {t u : Text} {a b c : Console} (hab : Gains t a b) (hbc : Gains u b c) :
    Gains (t ++ u) a c := by
  refine ⟨?_, hbc.color.trans hab.color, hbc.hadError.trans hab.hadError⟩
  rw [hbc.text, hab.text, List.append_assoc]

theorem gains_write (c : Console) (t : Text) : Gains t c (c.write t) := by
  refine ⟨?_, Eq.refl _, Eq.refl _⟩
  show (t :: c.shown).reverse.flatten = c.shown.reverse.flatten ++ t
  rw [List.reverse_cons, List.flatten_append, List.flatten_singleton]

theorem gains_logEvents (es : List Event) (c : Console) :
    Gains (es.map fun e => Text.line e.logRecord).flatten c (c.logEvents es) := by
  induction es generalizing c with
  | nil => exact .rfl
  | cons e es ih => exact (gains_write c _).trans (ih _)

theorem gains_reportFailed_lines (c : Console) (message : Text) (line : Int) :
    Gains (Text.line (c.stained .red message) ++
        if 0 < line then Text.line (c.stained .yellow (lineTag line)) else []) c
      (c.reportFailed message line) := by
  have hmarked : Gains [] c { c with hadRuntimeError := true } :=
    ⟨(List.append_nil _).symm, Eq.refl _, Eq.refl _⟩
  have hmessage := hmarked.trans (gains_write _ (Text.line (c.stained .red message)))
  unfold reportFailed
  dsimp only
  split
  · exact hmessage.trans (gains_write _ _)
  · exact hmessage.trans .rfl

/-- The report of a fault is the same on every console of one colour. -/
theorem gains_reportFailed (c : Console) (message : Text) (line : Int) :
    Gains (({ color := c.color } : Console).reportFailed message line).text c
      (c.reportFailed message line) := by
  rw [(gains_reportFailed_lines { color := c.color } message line).text]
  exact gains_reportFailed_lines c message line

end Console

namespace Turn

variable {h : Host} {t : Turn}

/-- A turn leaves what its run leaves. -/
theorem play_eq_run (h : Host) (t : Turn) (r : Repl) :
    let console := r.console.logEvents (t.run h).2.events.reverse
    t.play h r =
      { console := (t.run h).1.elim console console.reportError
        input := (t.run h).2.input
        output := (t.run h).2.output ++ r.output } := by
  unfold play Repl.runProgram
  dsimp only
  rw [← run_eq]

/-- What a turn writes is written behind what was written before. -/
theorem play_written (r : Repl) : (t.play h r).written = r.written ++ (t.run h).2.written := by
  unfold Repl.written Machine.written
  rw [play_eq_run, List.reverse_append, List.flatten_append]

/-- **The console shows what the turn traces and the report of its fault, and nothing else.** -/
theorem Proper.gains (ht : t.Proper h) (r : Repl) :
    Console.Gains (t.log h ++ t.report h r.console.color) r.console (t.play h r).console := by
  have hlog := Console.gains_logEvents (t.run h).2.events.reverse r.console
  rw [play_eq_run]
  refine hlog.trans ?_
  unfold report
  cases he : (t.run h).1 with
  | none => exact .rfl
  | some e =>
    obtain ⟨f, rfl⟩ := ht.fault_of_run he
    rw [← hlog.color]
    exact Console.gains_reportFailed _ f.message f.line

/-- The input of a turn is read to its end, and the rest of the stream is left. -/
theorem Proper.play_eq (ht : t.Proper h) (rest : Text) (r : Repl) :
    Repl.runProgram h (.ofText t.program) { r with input := ⟨t.input ++ rest, none⟩ } =
      { t.play h r with input := ⟨rest, none⟩ } := by
  rw [play_eq_run]
  unfold Repl.runProgram
  dsimp only
  rw [ht.runProgram_eq rest]

end Turn

/-! ## 6. Streams -/

namespace Repl

/-- **A stream of proper turns runs their programs, each once and in order**, and leaves what the
    turns leave one after the other. -/
theorem trace_turns {h : Host} {turns : List Turn} (hturns : ∀ t ∈ turns, t.Proper h) {fuel : Nat}
    (hfuel : (Turn.stream turns).length < fuel) (r : Repl) :
    trace h fuel [] { r with input := ⟨Turn.stream turns, none⟩ } =
      (turns.map (·.program), none, { turns.foldl (Turn.play h) r with input := ⟨[], none⟩ }) := by
  induction turns generalizing fuel r with
  | nil =>
    obtain ⟨fuel, rfl⟩ : ∃ n, fuel = n + 1 := ⟨fuel - 1, by omega⟩
    exact trace_end h fuel r
  | cons t turns ih =>
    have ht := hturns t List.mem_cons_self
    have hlater : ∀ t ∈ turns, t.Proper h := fun u hu => hturns u (List.mem_cons_of_mem _ hu)
    have hstream : Turn.stream (t :: turns) = t.program ++ (t.input ++ Turn.stream turns) :=
      List.append_assoc ..
    have hlines : t.program.count 10 ≤ t.program.length := List.count_le_length
    rw [hstream, List.length_append, List.length_append] at hfuel
    obtain ⟨fuel, rfl⟩ : ∃ n, fuel = n + t.program.count 10 :=
      ⟨fuel - t.program.count 10, by omega⟩
    obtain ⟨a, ha⟩ := ht.terminated
    have hsome : t.program ≠ [] := by
      rw [ha]
      exact List.append_ne_nil_of_right_ne_nil a (List.cons_ne_nil _ _)
    have hgather := trace_program (.inl rfl) (.inr ⟨a, ha⟩) hsome ht.accepted ht.closes h fuel
      (t.input ++ Turn.stream turns) r
    rw [List.nil_append, ht.play_eq] at hgather
    have hrest : (Turn.stream turns).length < fuel := by omega
    rw [hstream, hgather, ih hlater hrest (t.play h r)]
    rfl

end Repl

namespace Turn

variable {h : Host}

theorem foldl_written (turns : List Turn) (r : Repl) :
    (turns.foldl (play h) r).written =
      r.written ++ (turns.map fun t => (t.run h).2.written).flatten := by
  induction turns generalizing r with
  | nil => exact (List.append_nil _).symm
  | cons t turns ih =>
    rw [List.foldl_cons, ih, play_written, List.append_assoc]
    rfl

theorem foldl_gains {turns : List Turn} (hturns : ∀ t ∈ turns, t.Proper h) (r : Repl) :
    Console.Gains (turns.map fun t => t.log h ++ t.report h r.console.color).flatten r.console
      (turns.foldl (play h) r).console := by
  induction turns generalizing r with
  | nil => exact .rfl
  | cons t turns ih =>
    have hturn := (hturns t List.mem_cons_self).gains r
    have hlater := ih (fun u hu => hturns u (List.mem_cons_of_mem _ hu)) (t.play h r)
    rw [hturn.color] at hlater
    exact hturn.trans hlater

end Turn

/-- **A stream does what its turns do alone, one after the other.** Take any proper turns: programs
    that are accepted, close on their last line and end, each followed by the lines that it reads.

    * Reading their stream runs these programs, each once and in order, and nothing else; it reads
      the stream to its end and does not fail.
    * It writes what the programs write when they run alone.
    * The console shows the records and the fault reports of these runs; without tracing, only the
      fault reports. Each run ends well or with a fault, and no complaint about a source is
      reported. -/
theorem stream_runs_turns (h : Host) (turns : List Turn) (hturns : ∀ t ∈ turns, t.Proper h)
    (console : Console) :
    let start : Repl := { console, input := ⟨Turn.stream turns, none⟩ }
    let r := (Repl.run h start).2
    Repl.executed h start = turns.map (·.program) ∧ (Repl.run h start).1 = none ∧
    r.input.rest = [] ∧
    r.written = (turns.map fun t => (t.run h).2.written).flatten ∧
    r.console.text = console.text ++
      (turns.map fun t => t.log h ++ t.report h console.color).flatten ∧
    (h.tracing = false → r.console.text = console.text ++
      (turns.map fun t => t.report h console.color).flatten) ∧
    (∀ t ∈ turns, (t.run h).1 = none ∨ ∃ f, (t.run h).1 = some (.failed (.fault f))) ∧
    r.console.hadError = console.hadError := by
  intro start r
  have htrace := Repl.trace_turns hturns (Nat.lt_succ_self (Turn.stream turns).length) start
  have hrun : Repl.run h start =
      (none, { turns.foldl (Turn.play h) start with input := ⟨[], none⟩ }) :=
    (Repl.trace_snd ..).symm.trans (congrArg Prod.snd htrace)
  have hr : r = { turns.foldl (Turn.play h) start with input := ⟨[], none⟩ } :=
    congrArg Prod.snd hrun
  have hgains := Turn.foldl_gains hturns start
  rw [hr, hrun]
  refine ⟨congrArg Prod.fst htrace, rfl, rfl, Turn.foldl_written turns start, hgains.text,
    fun hquiet => ?_, fun t ht => ?_, hgains.hadError⟩
  · have hlogs (t : Turn) : t.log h ++ t.report h console.color = t.report h console.color := by
      rw [t.log_of_quiet hquiet, List.nil_append]
    rw [hgains.text]
    simp only [start, hlogs]
  · cases he : (t.run h).1 with
    | none => exact .inl rfl
    | some e =>
      obtain ⟨f, rfl⟩ := (hturns t ht).fault_of_run he
      exact .inr ⟨f, rfl⟩

/-- A program that reads a number and doubles it, with the number. -/
def doublingTurn : Turn :=
  ⟨utf8 "BEGIN CODE\nINT a\nSCAN: a\nDISPLAY: a * 2\nEND CODE\n", utf8 "21\n"⟩

/-- A program on one line that divides by zero and reads nothing. -/
def dividingTurn : Turn :=
  ⟨utf8 "BEGIN CODE DISPLAY: 1 / 0 END CODE\n", []⟩

theorem doublingTurn_proper : doublingTurn.Proper {} := by
  have hrun : (doublingTurn.run {}).1 = none := Option.isNone_iff_eq_none.mp (by decide +kernel)
  exact {
    terminated := ⟨doublingTurn.program.dropLast, by decide +kernel⟩
    accepted := List.isEmpty_iff.mp (by decide +kernel)
    closes := by decide +kernel
    ends := fun hends => nomatch hrun.symm.trans hends
    lines := .inr ⟨utf8 "21", by decide +kernel⟩
    reads := by decide +kernel
    fed := fun x hx => nomatch hrun.symm.trans hx }

theorem dividingTurn_proper : dividingTurn.Proper {} := by
  have hkind : (((dividingTurn.run {}).1.bind (·.failure?)).bind (·.fault?)).map (·.kind) =
      some .divisionByZero := by decide +kernel
  exact {
    terminated := ⟨dividingTurn.program.dropLast, by decide +kernel⟩
    accepted := List.isEmpty_iff.mp (by decide +kernel)
    closes := by decide +kernel
    ends := fun hends => by
      rw [hends] at hkind
      cases hkind
    lines := .inl rfl
    reads := by decide +kernel
    fed := by
      rintro x hx ⟨f, rfl, hcause⟩
      rw [hx] at hkind
      have hf : f.cause.kind = .divisionByZero := Option.some.inj hkind
      rcases hcause with hcause | hcause
      · rw [hcause] at hf
        cases hf
      · rw [hcause] at hf
        cases hf }

/-- The number goes to the first program, and the line behind it is the second one. -/
theorem doubling_then_dividing :
    let turns := [doublingTurn, dividingTurn]
    let start : Repl := { console := { color := false }, input := ⟨Turn.stream turns, none⟩ }
    let r := (Repl.run {} start).2
    Repl.executed {} start = turns.map (·.program) ∧ (Repl.run {} start).1 = none ∧
      r.written = utf8 "42\n" ∧
      r.console.text = utf8 "Cannot divide by zero.\n[line 1]\n" := by
  have hturns : ∀ t ∈ [doublingTurn, dividingTurn], t.Proper {} := by
    intro t ht
    rcases List.mem_cons.mp ht with rfl | ht
    · exact doublingTurn_proper
    · rw [List.mem_singleton.mp ht]
      exact dividingTurn_proper
  have hwrites : ([doublingTurn, dividingTurn].map fun t => (t.run {}).2.written).flatten =
      utf8 "42\n" := by decide +kernel
  have hreports : ({ color := false } : Console).text ++
      ([doublingTurn, dividingTurn].map fun t => t.report {} false).flatten =
      utf8 "Cannot divide by zero.\n[line 1]\n" := by decide +kernel
  have hstream := stream_runs_turns {} _ hturns { color := false }
  dsimp only at hstream ⊢
  obtain ⟨hexecuted, hfailure, _, hwritten, _, htext, _, _⟩ := hstream
  exact ⟨hexecuted, hfailure, hwritten.trans hwrites, (htext rfl).trans hreports⟩

end FencedCode
