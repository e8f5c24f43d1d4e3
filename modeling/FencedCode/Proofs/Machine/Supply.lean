import FencedCode.Proofs.Machine.Simulation
import FencedCode.Proofs.Token.Lines

/-!
# More input behind the input

Programs may share one stream: each reads some lines, and the next one reads on behind them. A
program that never runs out of lines does not notice what comes behind its own: it does the same,
and leaves the rest for those after it.

* `Input.IsLines` -- input that consists of whole lines and then ends;
* `Input.readLine_supplied` -- a line is read alike with more input behind it;
* `supply_simulation` -- two runs, one of them with more input, side by side;
* `execute_supplied`, `Machine.runProgram_supplied` -- **a run that does not want a line in vain is
  the same with more input.**
-/

namespace FencedCode

open Exec Machine

/-! ## 1. Reading lines -/

namespace Input

/-- A text is split behind its first line feed. -/
theorem splitLine_eq {a : Text} (ha : 10 ∉ a) (rest : Text) :
    splitLine (a ++ 10 :: rest) = some (a ++ [10], rest) := by
  have hopen : ∀ b ∈ a, (b != 10) = true := by
    intro b hb
    refine bne_iff_ne.mpr fun hb' => ha ?_
    rw [← hb']
    exact hb
  have hbefore : (a ++ 10 :: rest).takeWhile (· != 10) = a := by
    rw [List.takeWhile_append_of_pos hopen, List.takeWhile_cons_of_neg (by decide), List.append_nil]
  unfold splitLine
  dsimp only
  rw [hbefore, List.drop_left]

theorem nextPiece_line {a : Text} (ha : 10 ∉ a) (rest : Text) (failure : Option Text) :
    nextPiece ⟨a ++ 10 :: rest, failure⟩ = ((a ++ [10], none), ⟨rest, failure⟩) := by
  unfold nextPiece
  rw [splitLine_eq ha]

theorem readLine_line {a : Text} (ha : 10 ∉ a) (rest : Text) (failure : Option Text) :
    readLine ⟨a ++ 10 :: rest, failure⟩ = (.ok (trimEnd (a ++ [10])), ⟨rest, failure⟩) := by
  unfold readLine
  rw [nextPiece_line ha]

/-- The input with more bytes behind it. -/
def supplied (i : Input) (more : Text) : Input :=
  { i with rest := i.rest ++ more }

/-- The input is whole lines, and then it ends. -/
def IsLines (i : Input) : Prop :=
  i.failure = none ∧ i.rest.IsLines

/-- **A line is read alike with more input behind it.** Without a line left, there is none to
    read. -/
theorem readLine_supplied {i : Input} (hi : i.IsLines) (more : Text) :
    (i.readLine.1 = (i.supplied more).readLine.1 ∧
      (i.supplied more).readLine.2 = i.readLine.2.supplied more ∧ i.readLine.2.IsLines) ∨
    i.readLine.1 = .error .endOfInput := by
  obtain ⟨rest, failure⟩ := i
  obtain ⟨hfailure, hlines⟩ := hi
  obtain rfl : failure = none := hfailure
  rcases Text.IsLines.cases hlines with hnil | ⟨a, later, hline, ha, hlater⟩
  · obtain rfl : rest = [] := hnil
    exact .inr rfl
  · obtain rfl : rest = a ++ 10 :: later := hline
    have hmore : supplied ⟨a ++ 10 :: later, none⟩ more = ⟨a ++ 10 :: (later ++ more), none⟩ := by
      unfold supplied
      rw [List.append_assoc]
      rfl
    rw [hmore, readLine_line ha, readLine_line ha]
    exact .inl ⟨rfl, rfl, rfl, hlater⟩

end Input

/-! ## 2. Two runs side by side -/

/-- The failure is that a line was wanted where no input is left. -/
def Failure.WantsLine (x : Failure) : Prop :=
  ∃ f, x = .fault f ∧ (f.cause = .noLine ∨ f.cause = .nativeNoLine Native.scanString.name)

theorem Failure.WantsLine.locate {x : Failure} (hx : x.WantsLine) (t : Token) :
    (x.locate t).WantsLine := by
  obtain ⟨f, rfl, hcause⟩ := hx
  have hkept : (f.locate t).cause = f.cause := by
    unfold Fault.locate
    split <;> rfl
  exact ⟨f.locate t, rfl, hkept ▸ hcause⟩

/-- The machine with more input. -/
def Machine.supplied (m : Machine) (more : Text) : Machine :=
  { m with input := m.input.supplied more }

theorem Machine.supplied_eq (m : Machine) (more : Text) :
    m.supplied more = m.within ⟨(·.supplied more), [], [], []⟩ := by
  unfold Machine.supplied Machine.within
  rw [List.append_nil, List.append_nil, List.append_nil]

/-- **With more input a run does the same, unless it wants a line in vain.** -/
theorem supply_simulation (h : Host) (more : Text) :
    Simulation h h Failure.WantsLine fun m m' => m' = m.supplied more ∧ m.input.IsLines := by
  have hsurrounded := Simulation.surrounded h (s := ⟨(·.supplied more), [], [], []⟩)
    (X := Failure.WantsLine) (J := Input.IsLines) (fun _ => rfl) (fun hx t => hx.locate t)
    fun hi => by
      rcases Input.readLine_supplied hi more with halike | hend
      · exact .inl halike
      · exact .inr ⟨hend, fun t => ⟨_, rfl, .inl rfl⟩, _, rfl, .inr rfl⟩
  have hsame (m : Machine) : m.within ⟨(·.supplied more), [], [], []⟩ = m.supplied more :=
    (m.supplied_eq more).symm
  simp only [hsame] at hsurrounded
  exact hsurrounded

/-! ## 3. Programs -/

/-- **A program that does not want a line in vain does not notice that there is more input behind
    its own**, and leaves it there. -/
theorem execute_supplied {h : Host} {steps : Nat} {program : List Stmt} {m : Machine}
    (hinput : m.input.IsLines)
    (hwants : ∀ x, (execute h steps program m).1 = .error x → ¬ x.WantsLine) (more : Text) :
    execute h steps program (m.supplied more) =
        ((execute h steps program m).1, (execute h steps program m).2.supplied more) ∧
      (execute h steps program m).2.input.IsLines := by
  have hstart : (m.supplied more).rested =
      Machine.supplied m.rested more ∧ m.input.IsLines := ⟨rfl, hinput⟩
  have hrun := (supply_simulation h more).execute (Nat.le_refl steps)
    (fun hlt => absurd hlt (Nat.lt_irrefl _)) program hstart
  rcases hrun with ⟨hresult, hmachine, hlines⟩ | ⟨x, hx, hresult, _⟩
  · exact ⟨Prod.ext hresult.symm hmachine, hlines⟩
  · exact absurd hx (hwants x hresult)

namespace Machine

theorem foldl_defineNative_supplied (ns : List Native) (m : Machine) (more : Text) :
    (ns.foldl defineNative m).supplied more = ns.foldl defineNative (m.supplied more) := by
  induction ns generalizing m with
  | nil => rfl
  | cons n ns ih => exact ih (m.defineNative n)

theorem standard_supplied (i : Input) (more : Text) :
    (standard i).supplied more = standard (i.supplied more) :=
  foldl_defineNative_supplied Native.standard (bare i) more

/-- A program without diagnostics runs its statements. -/
theorem runProgram_of_accepted {h : Host} {p : Program} (hp : p.diagnostics = []) (m : Machine) :
    runProgram h p m =
      (match (execute h grantedSteps p.stmts m).1 with
        | .ok () => none
        | .error x => some (.failed x), (execute h grantedSteps p.stmts m).2) := by
  unfold runProgram
  rw [hp, List.isEmpty_nil, if_pos rfl]
  rcases execute h grantedSteps p.stmts m with ⟨_ | _, m'⟩ <;> rfl

/-- **The same holds of whole programs**: more input is left for those who come after. -/
theorem runProgram_supplied {h : Host} {p : Program} (hp : p.diagnostics = []) {m : Machine}
    (hinput : m.input.IsLines)
    (hwants : ∀ x, (runProgram h p m).1 = some (.failed x) → ¬ x.WantsLine) (more : Text) :
    runProgram h p (m.supplied more) =
        ((runProgram h p m).1, (runProgram h p m).2.supplied more) ∧
      (runProgram h p m).2.input.IsLines := by
  rw [runProgram_of_accepted hp] at hwants ⊢
  have hwants' (x : Failure) (hx : (execute h grantedSteps p.stmts m).1 = .error x) :
      ¬ x.WantsLine := by
    refine hwants x ?_
    rw [hx]
  obtain ⟨hrun, hlines⟩ := execute_supplied hinput hwants' more
  rw [runProgram_of_accepted hp, hrun]
  exact ⟨rfl, hlines⟩

end Machine

end FencedCode
