import FencedCode.Proofs.Machine.Failing
import FencedCode.Proofs.Machine.Parts
import FencedCode.Proofs.Machine.Supply
import Mathlib.Data.List.DropRight

/-!
# The lines that are read

Statements, natives and the host itself take lines from one stream. An activity asks for lines in
the order in which its parts do, up to the part that fails. Whoever asks, obtains the next line.

* `Input.lines` -- the lines of a text, by a walk over its bytes;
* `Reading`, `Reading.Obtains` -- a request for a line, and that it obtains a line or none, **as
  shown by what the machine does with it**;
* `Served`, `Served.obtains` -- **readings that are served one after another obtain the lines one
  after another**;
* `Activity.readings`, `Activity.mem_readings` -- the readings of an activity, in their order;
* `Activity.served` -- **an activity takes from the input what its readings take, and nothing
  else**;
* `lines_read_in_order` -- **the lines are obtained one by one, and then there are no more.**
-/

namespace FencedCode

open Exec Machine

/-! ## 1. The lines of a text -/

namespace Input

/-- The lines of a text, if `line` stands in front of it. Carriage returns at the end of a line do
    not belong to it, and a last line counts if it has any bytes. -/
def linesBehind (line : Text) : Text → List Text
  | [] => if line = [] then [] else [line.rdropWhile (· == 13)]
  | b :: rest =>
    if b = 10 then line.rdropWhile (· == 13) :: linesBehind [] rest
    else linesBehind (line ++ [b]) rest

/-- The lines of a text. -/
def lines (t : Text) : List Text :=
  linesBehind [] t

theorem linesBehind_append (line : Text) {a : Text} (ha : 10 ∉ a) (rest : Text) :
    linesBehind line (a ++ rest) = linesBehind (line ++ a) rest := by
  induction a generalizing line with
  | nil => rw [List.nil_append, List.append_nil]
  | cons b a ih =>
    have hb : ¬ b = 10 := fun h => ha (h ▸ List.mem_cons_self)
    have ha' : 10 ∉ a := fun h => ha (List.mem_cons_of_mem b h)
    rw [List.cons_append, linesBehind, if_neg hb, ih _ ha', List.append_assoc]
    rfl

theorem lines_line {a : Text} (ha : 10 ∉ a) (rest : Text) :
    lines (a ++ 10 :: rest) = a.rdropWhile (· == 13) :: lines rest := by
  unfold lines
  rw [linesBehind_append [] ha, List.nil_append, linesBehind, if_pos rfl]

theorem lines_last {a : Text} (ha : 10 ∉ a) (hne : a ≠ []) :
    lines a = [a.rdropWhile (· == 13)] := by
  have hlast := linesBehind_append [] ha []
  rwa [List.append_nil, List.nil_append, linesBehind, if_neg hne] at hlast

/-- Without a line feed inside, only carriage returns are cut off. -/
theorem trimEnd_eq {a : Text} (ha : 10 ∉ a) : trimEnd a = a.rdropWhile (· == 13) := by
  have hsame : ∀ {u : Text}, 10 ∉ u →
      u.dropWhile (fun b => b == 13 || b == 10) = u.dropWhile (· == 13) := by
    intro u hu
    induction u with
    | nil => rfl
    | cons b u ih =>
      have hb : (b == 10) = false := beq_eq_false_iff_ne.mpr fun h => hu (h ▸ List.mem_cons_self)
      rw [List.dropWhile_cons, List.dropWhile_cons, hb, Bool.or_false,
        ih fun h => hu (List.mem_cons_of_mem b h)]
  unfold trimEnd List.rdropWhile
  rw [hsame fun h => ha (List.mem_reverse.mp h)]

theorem trimEnd_line {a : Text} (ha : 10 ∉ a) :
    trimEnd (a ++ [10]) = a.rdropWhile (· == 13) := by
  rw [← trimEnd_eq ha]
  unfold trimEnd
  rw [List.reverse_append, List.reverse_singleton, List.singleton_append,
    List.dropWhile_cons_of_pos rfl]

theorem readLine_last {a : Text} (ha : 10 ∉ a) (hne : a ≠ []) :
    readLine ⟨a, none⟩ = (.ok (trimEnd a), ⟨[], none⟩) := by
  have hwhole : a.takeWhile (· != 10) = a := by
    refine List.takeWhile_eq_self_iff.mpr fun b hb => bne_iff_ne.mpr fun h => ha ?_
    rwa [← h]
  have hsplit : splitLine a = none := by
    unfold splitLine
    dsimp only
    rw [hwhole, List.drop_length]
  unfold readLine nextPiece
  rw [hsplit]
  dsimp only [closing]
  rw [if_neg (by simpa using hne)]

/-- **A request for a line obtains the first of those that are left**, if any are. -/
theorem readLine_eq (t : Text) :
    (t = [] ∧ readLine ⟨t, none⟩ = (.error .endOfInput, ⟨[], none⟩)) ∨
    ∃ line rest, readLine ⟨t, none⟩ = (.ok line, ⟨rest, none⟩) ∧ lines t = line :: lines rest := by
  by_cases hnil : t = []
  · exact .inl ⟨hnil, by rw [hnil]; rfl⟩
  · refine .inr ?_
    by_cases hlf : 10 ∈ t
    · obtain ⟨a, rest, rfl, ha⟩ := List.eq_append_cons_of_mem hlf
      refine ⟨_, rest, readLine_line ha rest none, ?_⟩
      rw [lines_line ha, trimEnd_line ha]
    · refine ⟨_, [], readLine_last hlf hnil, ?_⟩
      rw [lines_last hlf hnil, trimEnd_eq hlf]
      rfl

end Input

/-! ## 2. Readings -/

/-- A request for a line, with the machine on which it is made. -/
inductive Reading where
  /-- A `SCAN` is executed. -/
  | scan (h : Host) (n : Nat) (keyword : Token) (names : List Token) (m : Machine)
  /-- `scanString` is called with a prompt. -/
  | prompt (h : Host) (n : Nat) (v : Value) (m : Machine)
  /-- The host reads a line. -/
  | host (m : Machine)

namespace Reading

/-- The input that is left before the reading. -/
def input : Reading → Input
  | scan _ _ _ _ m | prompt _ _ _ m | host m => m.input

/-- What the reading obtains: a line, or that there is none. It shows in what the machine does: a
    `SCAN` assigns the literals of the line, a call of `scanString` yields it, and the host is given
    it. Without a line the first two fail, and the host is told. -/
def Obtains : Reading → Option Text → Prop
  | scan h n keyword names m, some line => ∃ input, exec h (n + 1) (.scan keyword names) m =
      (assignScanned names (Scan.ofText line).tokens >>= fun _ => pure .normal) { m with input }
  | scan h n keyword names m, none =>
    (exec h (n + 1) (.scan keyword names) m).1 = .error (.fault ⟨.noLine, keyword⟩)
  | prompt h n v m, some line =>
    (apply h (n + 1) (.function (some (.native .scanString))) [v] m).1 = .ok (.string line)
  | prompt h n v m, none =>
    (apply h (n + 1) (.function (some (.native .scanString))) [v] m).1 =
      .error (.fault (.unplaced (.nativeNoLine Native.scanString.name)))
  | host m, some line => (Exec.readLine m).1 = .ok (.ok line)
  | host m, none => (Exec.readLine m).1 = .ok (.error .endOfInput)

end Reading

namespace Machine

/-- A `SCAN` goes on with the line that it reads. -/
theorem exec_scan (h : Host) (n : Nat) (keyword : Token) (names : List Token) (m : Machine) :
    exec h (n + 1) (.scan keyword names) m =
      match m.input.readLine.1 with
      | .error .endOfInput =>
        (.error (.fault ⟨.noLine, keyword⟩), { m with input := m.input.readLine.2 })
      | .error (.failed reason) =>
        (.error (.reader (utf8 "SCAN") reason), { m with input := m.input.readLine.2 })
      | .ok line => (assignScanned names (Scan.ofText line).tokens >>= fun _ => pure .normal)
          { m with input := m.input.readLine.2 } := by
  have hrun : scanLine keyword names m = (match m.input.readLine.1 with
      | .error .endOfInput => fault .noLine keyword
      | .error (.failed reason) => fail (.reader (utf8 "SCAN") reason)
      | .ok line => assignScanned names (Scan.ofText line).tokens)
      { m with input := m.input.readLine.2 } := rfl
  simp only [exec]
  show Exec.bind _ _ m = _
  unfold Exec.bind
  rw [hrun]
  rcases m.input.readLine.1 with (_ | reason) | line <;> rfl

/-- A call of `scanString` writes the prompt and yields the line that it reads. -/
theorem apply_scanString (h : Host) (n : Nat) (v : Value) (m : Machine) :
    (apply h (n + 1) (.function (some (.native .scanString))) [v] m).1 =
      (match m.input.readLine.1 with
        | .ok line => .ok (.string line)
        | .error .endOfInput => .error (.fault (.unplaced (.nativeNoLine Native.scanString.name)))
        | .error (.failed reason) => .error (.reader Native.scanString.name reason)) ∧
    (apply h (n + 1) (.function (some (.native .scanString))) [v] m).2.input =
      m.input.readLine.2 := by
  have hrun : apply h (n + 1) (.function (some (.native .scanString))) [v] m =
      (match (m.log h (.call Native.scanString.name 1)).input.readLine.1 with
        | .ok line => pure (.string line)
        | .error .endOfInput => unplaced (.nativeNoLine Native.scanString.name)
        | .error (.failed reason) => fail (.reader Native.scanString.name reason) : Exec Value)
      { (m.log h (.call Native.scanString.name 1)).write (Text.line v.text) with
        input := (m.log h (.call Native.scanString.name 1)).input.readLine.2 } := rfl
  rw [hrun, log_input]
  rcases m.input.readLine.1 with (_ | reason) | line <;> exact ⟨rfl, rfl⟩

/-- When names do not receive values, it is not for want of a line. -/
theorem assignScanned_ne_noLine {t : Token} : ∀ (names ts : List Token) (m : Machine),
    (assignScanned names ts m).1 ≠ .error (.fault ⟨.noLine, t⟩)
  | [], _, _ => nofun
  | _ :: _, [], _ => nofun
  | _ :: _, [_], _ => nofun
  | name :: names, u :: _ :: ts, m => by
    intro hx
    rw [assignScanned_cons] at hx
    rcases bind_error.mp hx with hassign | ⟨_, m', _, hrest⟩
    · obtain ⟨f, hf, hfault⟩ := assign_error.mp hassign
      obtain rfl := Failure.fault.inj hfault
      unfold Scopes.assign at hf
      repeat' split at hf
      all_goals cases hf
    · exact assignScanned_ne_noLine names ts m' hrest

end Machine

namespace Reading

/-- **A reading obtains the first of the lines that are left**, if any are. -/
theorem obtains_head {r : Reading} {t : Text} (hr : r.input = ⟨t, none⟩) :
    r.Obtains (Input.lines t).head? := by
  rcases Input.readLine_eq t with ⟨rfl, hread⟩ | ⟨line, rest, hread, hlines⟩
  · cases r with
    | scan h n keyword names m =>
      show (exec h (n + 1) (.scan keyword names) m).1 = _
      rw [exec_scan, show m.input = ⟨[], none⟩ from hr, hread]
    | prompt h n v m =>
      refine (apply_scanString h n v m).1.trans ?_
      rw [show m.input = ⟨[], none⟩ from hr, hread]
    | host m =>
      show (.ok m.input.readLine.1 : Except Failure _) = _
      rw [show m.input = ⟨[], none⟩ from hr, hread]
  · rw [hlines, List.head?_cons]
    cases r with
    | scan h n keyword names m =>
      refine ⟨m.input.readLine.2, ?_⟩
      rw [exec_scan, show m.input = ⟨t, none⟩ from hr, hread]
    | prompt h n v m =>
      refine (apply_scanString h n v m).1.trans ?_
      rw [show m.input = ⟨t, none⟩ from hr, hread]
    | host m =>
      show (.ok m.input.readLine.1 : Except Failure _) = _
      rw [show m.input = ⟨t, none⟩ from hr, hread]

/-- A reading that obtains a line does not report the end of the input. -/
theorem Obtains.not_none {r : Reading} {line : Text} (hline : r.Obtains (some line)) :
    ¬ r.Obtains none := by
  intro hnone
  cases r with
  | scan h n keyword names m =>
    obtain ⟨input, hrun⟩ := hline
    have hnone : (exec h (n + 1) (.scan keyword names) m).1 = _ := hnone
    rw [hrun] at hnone
    exact assignScanned_ne_noLine _ _ _ (bind_pure_error.mp hnone)
  | prompt h n v m => exact nomatch hline.symm.trans hnone
  | host m => exact nomatch hline.symm.trans hnone

end Reading

/-! ## 3. Readings one after another -/

/-- `Served i readings i'`: the readings are made one after another, each on the input that the one
    before it has left, from `i` on, and leave `i'`. -/
inductive Served : Input → List Reading → Input → Prop where
  | nil {i : Input} : Served i [] i
  | cons {r : Reading} {rs : List Reading} {i i' : Input} : r.input = i →
      Served i.readLine.2 rs i' → Served i (r :: rs) i'

namespace Served

variable {i j k : Input} {rs rs' : List Reading}

theorem append (hrs : Served i rs j) (hrs' : Served j rs' k) : Served i (rs ++ rs') k := by
  induction hrs with
  | nil => exact hrs'
  | cons hr _ ih => exact .cons hr (ih hrs')

/-- **Readings obtain the lines one after another**, and what they leave are the lines behind
    those. -/
theorem obtains {t : Text} (hrs : Served ⟨t, none⟩ rs j) :
    (∀ (k : Nat) (r : Reading), rs[k]? = some r → r.Obtains (Input.lines t)[k]?) ∧
      ∃ rest, j = ⟨rest, none⟩ ∧ Input.lines rest = (Input.lines t).drop rs.length := by
  induction rs generalizing t with
  | nil =>
    cases hrs
    exact ⟨fun _ _ hr => (nomatch hr), t, rfl, rfl⟩
  | cons r rs ih =>
    cases hrs with
    | cons hr hrest =>
      have hread : (Input.readLine ⟨t, none⟩).2 = ⟨(Input.readLine ⟨t, none⟩).2.rest, none⟩ ∧
          Input.lines (Input.readLine ⟨t, none⟩).2.rest = (Input.lines t).tail := by
        rcases Input.readLine_eq t with ⟨rfl, hread⟩ | ⟨line, later, hread, hlines⟩
        · rw [hread]
          exact ⟨rfl, rfl⟩
        · rw [hread, hlines]
          exact ⟨rfl, rfl⟩
      rw [hread.1] at hrest
      obtain ⟨hobtained, rest, hj, hlater⟩ := ih hrest
      rw [hread.2] at hobtained hlater
      refine ⟨fun k r' hr' => ?_, rest, hj, ?_⟩
      · cases k with
        | zero =>
          obtain rfl := Option.some.inj hr'
          rw [← List.head?_eq_getElem?]
          exact Reading.obtains_head hr
        | succ k =>
          have hnext := hobtained k r' hr'
          rwa [List.getElem?_tail] at hnext
      · rw [hlater, List.drop_tail, List.length_cons]

end Served

/-! ## 4. What activities take from the input -/

namespace Machine

theorem assign_input (name : Token) (v : Value) (m : Machine) :
    (Exec.assign name v m).2.input = m.input := by
  unfold Exec.assign
  split <;> rfl

theorem assignScanned_input :
    ∀ (names ts : List Token) (m : Machine), (assignScanned names ts m).2.input = m.input
  | [], _, _ => rfl
  | _ :: _, [], _ => rfl
  | _ :: _, [_], _ => rfl
  | name :: names, t :: u :: ts, m => by
    rw [assignScanned_cons]
    exact bind_related (R := fun m m' : Machine => m'.input = m.input)
      (fun hab hbc => hbc.trans hab) (assign_input name _ m) fun _ m' _ =>
        assignScanned_input names ts m'

/-- A `SCAN` takes one line, also if its values do not fit. -/
theorem exec_scan_input (h : Host) (n : Nat) (keyword : Token) (names : List Token) (m : Machine) :
    (exec h (n + 1) (.scan keyword names) m).2.input = m.input.readLine.2 := by
  rw [exec_scan]
  rcases m.input.readLine.1 with (_ | reason) | line
  · rfl
  · rfl
  · exact bind_related (R := fun m m' : Machine => m'.input = m.input)
      (fun hab hbc => hbc.trans hab) (assignScanned_input names _ _) fun _ _ _ => rfl

/-- The natives other than `scanString` take no line. -/
theorem native_input {h : Host} {k : Native} (hk : k ≠ .scanString) (args : List Value)
    (m : Machine) : (k.run h args m).2.input = m.input := by
  cases k with
  | scanString => exact absurd rfl hk
  | probe =>
    show (Native.record args m).2.input = m.input
    unfold Native.record
    cases entry args 0 <;> rfl
  | _ => rfl

end Machine

namespace Activity

variable {h : Host}

/-- The reading that an activity makes by itself. -/
def reading? (h : Host) : Activity → Option Reading
  | ⟨n + 1, .exec (.scan keyword names), m⟩ => some (.scan h n keyword names m)
  | ⟨n + 1, .apply (.function (some (.native .scanString))) [v], m⟩ => some (.prompt h n v m)
  | _ => none

/-- `Passes h i parts i'`: each part starts on the input that the one before it has left, the first
    one on `i`, and the last one leaves `i'`. -/
inductive Passes (h : Host) : Input → List Activity → Input → Prop where
  | nil {i i' : Input} : i' = i → Passes h i [] i'
  | cons {a : Activity} {as : List Activity} {i i' : Input} : a.start.input = i →
      Passes h (a.final h).input as i' → Passes h i (a :: as) i'

section Passes

variable {n : Nat} {m : Machine}

/-- Two steps, of which a part does the first one. -/
theorem passes_bind {α β : Type} {p : Exec α} {f : α → Exec β} {a : Activity}
    {g : α → Machine → List Activity} (hstart : a.start.input = m.input)
    (hp : (a.final h).input = (p m).2.input)
    (hf : ∀ x m', p m = (.ok x, m') → Passes h m'.input (g x m') (f x m').2.input) :
    Passes h m.input (a :: followed (p m) g) ((p >>= f) m).2.input := by
  refine .cons hstart ?_
  rw [hp]
  rcases hrun : p m with ⟨e | x, m'⟩
  · rw [bind_of_error hrun]
    exact .nil rfl
  · rw [bind_of_ok hrun]
    exact hf x m' hrun

/-- The last part, behind which no line is taken. -/
theorem passes_last {α β : Type} {p : Exec α} {f : α → Exec β} {a : Activity}
    (hstart : a.start.input = m.input) (hp : (a.final h).input = (p m).2.input)
    (hf : ∀ x m', (f x m').2.input = m'.input) :
    Passes h m.input [a] ((p >>= f) m).2.input := by
  refine .cons hstart (.nil ?_)
  rw [hp]
  rcases hrun : p m with ⟨e | x, m'⟩
  · rw [bind_of_error hrun]
  · rw [bind_of_ok hrun, hf x m']

theorem passes_eval (e : Expr) :
    Passes h m.input (parts h ⟨n + 1, .eval e, m⟩) (eval h (n + 1) e m).2.input := by
  cases e with
  | literal t => exact .nil rfl
  | ref name => exact .nil (congrArg Machine.input (getValue_snd name m))
  | grouping inner pos => exact .cons rfl (.nil rfl)
  | assign name value =>
    refine passes_last rfl rfl fun v m' => ?_
    exact bind_related (R := fun m m' : Machine => m'.input = m.input)
      (fun hab hbc => hbc.trans hab) (assign_input name v m') fun _ _ _ => rfl
  | unary op operand => exact passes_last rfl rfl fun _ _ => rfl
  | binary l op r => exact passes_bind rfl rfl fun a m' _ => passes_last rfl rfl fun _ _ => rfl
  | logical l op r =>
    refine passes_bind rfl rfl fun a m' _ => ?_
    split
    · exact .nil rfl
    · exact .cons rfl (.nil rfl)
  | call callee paren args =>
    refine passes_bind rfl rfl fun f m₁ _ => passes_bind rfl rfl fun vs m₂ _ => ?_
    rw [located_snd]
    exact .cons rfl (.nil rfl)

theorem passes_evalAll (es : List Expr) :
    Passes h m.input (parts h ⟨n + 1, .evalAll es, m⟩) (evalAll h (n + 1) es m).2.input := by
  cases es with
  | nil => exact .nil rfl
  | cons e es => exact passes_bind rfl rfl fun v m' _ => passes_last rfl rfl fun _ _ => rfl

theorem passes_call (f : Function) (args : List Value) :
    Passes h m.input (parts h ⟨n + 1, .call f args, m⟩) (call h (n + 1) f args m).2.input := by
  simp only [parts]
  by_cases hdepth : m.depth < h.limit
  · rw [if_pos hdepth]
    cases hb : bindParams f.params args ⟨some 0, []⟩ with
    | error c =>
      rw [call_snd_of_error hb]
      exact .nil rfl
    | ok frame =>
      rw [call_snd (Nat.not_le_of_lt hdepth) hb]
      refine .cons (enter_input ..) (.nil ?_)
      show (Machine.leave _ h m.scope).input = _
      rw [leave_input]
      rfl
  · rw [if_neg hdepth, call_snd_of_limit (Nat.le_of_not_lt hdepth)]
    exact .nil rfl

theorem passes_execAll (ss : List Stmt) :
    Passes h m.input (parts h ⟨n + 1, .execAll ss, m⟩) (execAll h (n + 1) ss m).2.input := by
  cases ss with
  | nil => exact .nil rfl
  | cons s rest =>
    refine passes_bind rfl rfl fun c m' _ => ?_
    cases c with
    | normal => exact .cons rfl (.nil rfl)
    | returning v => exact .nil rfl

theorem passes_execOthers (i : Nat) (others : Alternatives) :
    Passes h m.input (parts h ⟨n + 1, .execOthers i others, m⟩)
      (execOthers h (n + 1) i others m).2.input := by
  simp only [parts, execOthers]
  cases others.conditions[i]? with
  | none =>
    cases others.last with
    | none => exact .nil rfl
    | some body => exact .cons rfl (.nil rfl)
  | some c =>
    refine passes_bind rfl rfl fun v m' _ => ?_
    by_cases hv : v.isTruthy = true
    · rw [if_pos hv, if_pos hv]
      cases hbody : others.bodies[i]? with
      | none =>
        rw [entry_of_none hbody]
        exact .nil rfl
      | some body =>
        rw [entry_of_getElem? hbody]
        exact .cons rfl (.nil rfl)
    · rw [if_neg hv, if_neg hv]
      exact .cons rfl (.nil rfl)

theorem passes_execLoop (c : Expr) (body : List Stmt) :
    Passes h m.input (parts h ⟨n + 1, .execLoop c body, m⟩)
      (execLoop h (n + 1) c body m).2.input := by
  refine passes_bind rfl rfl fun v m₁ _ => ?_
  split
  · refine passes_bind rfl rfl fun r m₂ _ => ?_
    cases r with
    | normal => exact .cons rfl (.nil rfl)
    | returning r => exact .nil rfl
  · exact .nil rfl

theorem passes_apply (callee : Value) (args : List Value)
    (hreading : reading? h ⟨n + 1, .apply callee args, m⟩ = none) :
    Passes h m.input (parts h ⟨n + 1, .apply callee args, m⟩)
      (apply h (n + 1) callee args m).2.input := by
  simp only [parts, apply]
  rcases hcallee : callee.callable? with _ | ⟨f, copy⟩ | k
  · exact .nil rfl
  · dsimp only
    by_cases harity : (args.length : Int) = (Callable.user f copy).arity
    · rw [if_pos harity, if_neg (not_not_intro harity)]
      exact .cons (log_input ..) (.nil rfl)
    · rw [if_neg harity, if_pos harity]
      exact .nil rfl
  · dsimp only
    by_cases harity : (args.length : Int) = (Callable.native k).arity
    · rw [if_neg (not_not_intro harity)]
      refine .nil ?_
      show (k.run h args (m.log h _)).2.input = _
      by_cases hk : k = .scanString
      · -- with the one argument that it takes, that would be a reading
        obtain rfl := hk
        obtain ⟨v, rfl⟩ := List.length_eq_one_iff.mp (Int.ofNat_inj.mp harity)
        cases callee with
        | function target =>
          obtain rfl : target = some (.native .scanString) := hcallee
          cases hreading
        | _ => cases hcallee
      · rw [native_input hk, log_input]
    · rw [if_pos harity]
      exact .nil rfl

theorem passes_exec (s : Stmt) (hreading : reading? h ⟨n + 1, .exec s, m⟩ = none) :
    Passes h m.input (parts h ⟨n + 1, .exec s, m⟩) (exec h (n + 1) s m).2.input := by
  cases s with
  | expression e => exact passes_last rfl rfl fun _ _ => rfl
  | display keyword e => exact passes_last rfl rfl fun _ _ => rfl
  | scan keyword names => cases hreading
  | conditional keyword c body others =>
    refine passes_bind rfl rfl fun v m' _ => ?_
    split
    · exact .cons rfl (.nil rfl)
    · exact .cons rfl (.nil rfl)
  | loop keyword c body => exact .cons rfl (.nil rfl)
  | block opening body =>
    refine .cons (enter_input ..) (.nil ?_)
    show (Machine.leave _ h m.scope).input = _
    rw [leave_input]
    rfl
  | function name params body result => exact .nil (declareFunction_input h _ m)
  | ret keyword value =>
    cases value with
    | none => exact .nil rfl
    | some e => exact passes_last rfl rfl fun _ _ => rfl
  | declare type name init isMutable =>
    cases init with
    | none => exact .nil (declare_input h type name .null isMutable m)
    | some e =>
      refine passes_last rfl rfl fun v m' => ?_
      split
      · rfl
      · exact bind_related (R := fun m m' : Machine => m'.input = m.input)
          (fun hab hbc => hbc.trans hab) (declare_input h type name v isMutable m') fun _ _ _ => rfl

/-- **What is no reading itself takes only what its parts take.** -/
theorem passes_parts : ∀ {task : Task}, reading? h ⟨n + 1, task, m⟩ = none →
    (∀ names ts, task ≠ .assignScanned names ts) →
    Passes h m.input (parts h ⟨n + 1, task, m⟩) (final h ⟨n + 1, task, m⟩).input
  | .eval e, _, _ => passes_eval e
  | .evalAll es, _, _ => passes_evalAll es
  | .apply callee args, hreading, _ => passes_apply callee args hreading
  | .call f args, _, _ => passes_call f args
  | .exec s, hreading, _ => passes_exec s hreading
  | .execAll ss, _, _ => passes_execAll ss
  | .execOthers i others, _, _ => passes_execOthers i others
  | .execLoop c body, _, _ => passes_execLoop c body
  | .assignScanned names ts, _, hne => absurd rfl (hne names ts)

end Passes

/-! ## 5. The readings of an activity -/

/-- The readings of an activity that is granted no more than the given steps: its own, and then
    those of its parts, one part after another. -/
def readingsWithin (h : Host) : Nat → Activity → List Reading
  | 0, _ => []
  | n + 1, a => (a.reading? h).toList ++ (a.parts h).flatMap (readingsWithin h n)

/-- The readings of an activity, in the order in which they are made. -/
def readings (h : Host) (a : Activity) : List Reading :=
  readingsWithin h a.steps a

/-- What is assigned from a line that was read makes no readings. -/
theorem readings_assignScanned (names ts : List Token) (m : Machine) : ∀ k n : Nat,
    readingsWithin h k ⟨n, .assignScanned names ts, m⟩ = []
  | 0, _ => rfl
  | k + 1, n => by
    have hnone : reading? h ⟨n, .assignScanned names ts, m⟩ = none := by cases n <;> rfl
    rw [readingsWithin, hnone, Option.toList_none, List.nil_append, List.flatMap_eq_nil_iff]
    intro b hb
    cases mem_parts.mp hb with
    | scanned _ => exact readings_assignScanned _ _ _ k _

/-- **The readings of an activity** are those that it makes itself and those of its parts. -/
theorem mem_readings {a : Activity} {r : Reading} :
    r ∈ a.readings h ↔ ∃ b, Within h a b ∧ b.reading? h = some r := by
  constructor
  · unfold readings
    generalize a.steps = k
    induction k generalizing a with
    | zero => exact fun hr => absurd hr List.not_mem_nil
    | succ k ih =>
      intro hr
      rcases List.mem_append.mp hr with hown | hpart
      · exact ⟨a, .refl, Option.mem_toList.mp hown⟩
      · obtain ⟨c, hc, hr⟩ := List.mem_flatMap.mp hpart
        obtain ⟨b, hcb, hb⟩ := ih hr
        exact ⟨b, .head (mem_parts.mp hc) hcb, hb⟩
  · rintro ⟨b, hab, hb⟩
    induction hab using Relation.ReflTransGen.head_induction_on with
    | refl =>
      obtain ⟨n, task, m⟩ := b
      cases n with
      | zero => cases task <;> cases hb
      | succ n => exact List.mem_append_left _ (Option.mem_toList.mpr hb)
    | @head a c hac _ ih =>
      have hsteps : a.steps = c.steps + 1 := by
        rcases steps_of_calls hac with hsteps | ⟨names, ts, htask⟩
        · exact hsteps
        · obtain ⟨n, task, m⟩ := c
          obtain rfl : task = .assignScanned names ts := htask
          unfold readings at ih
          rw [readings_assignScanned] at ih
          exact absurd ih List.not_mem_nil
      unfold readings
      rw [hsteps]
      exact List.mem_append_right _ (List.mem_flatMap.mpr ⟨c, mem_parts.mpr hac, ih⟩)

/-- If each part takes what its readings take, they do so together. -/
theorem Passes.served {f : Activity → List Reading} {i i' : Input} {as : List Activity}
    (has : Passes h i as i')
    (hserved : ∀ a ∈ as, Served a.start.input (f a) (a.final h).input) :
    Served i (as.flatMap f) i' := by
  induction has with
  | nil hi =>
    rw [hi]
    exact .nil
  | @cons a as i i' hstart _ ih =>
    have hfirst := hserved a List.mem_cons_self
    rw [hstart] at hfirst
    exact hfirst.append (ih fun b hb => hserved b (List.mem_cons_of_mem _ hb))

/-- A reading takes one line. -/
theorem reading?_input {a : Activity} {r : Reading} (hr : a.reading? h = some r) :
    r.input = a.start.input ∧ (a.final h).input = a.start.input.readLine.2 := by
  unfold reading? at hr
  split at hr
  · cases hr
    exact ⟨rfl, exec_scan_input ..⟩
  · cases hr
    exact ⟨rfl, (apply_scanString ..).2⟩
  · cases hr

/-- A reading has no parts but the assignments of what it read. -/
theorem calls_of_reading? {a b : Activity} {r : Reading} (hr : a.reading? h = some r)
    (hab : Calls h a b) : ∃ names ts, b.task = .assignScanned names ts := by
  unfold reading? at hr
  split at hr
  · cases hab with
    | scan _ => exact ⟨_, _, rfl⟩
  · cases hab with
    | user hcallee _ => cases hcallee
  · cases hr

/-- So it makes no other reading. -/
theorem readings_of_reading? {a : Activity} {r : Reading} (hr : a.reading? h = some r) :
    a.readings h = [r] := by
  obtain ⟨n, task, m⟩ := a
  cases n with
  | zero => cases task <;> cases hr
  | succ n =>
    have hnone : (parts h ⟨n + 1, task, m⟩).flatMap (readingsWithin h n) = [] := by
      refine List.flatMap_eq_nil_iff.mpr fun b hb => ?_
      obtain ⟨names, ts, htask⟩ := calls_of_reading? hr (mem_parts.mp hb)
      obtain ⟨k, task_b, m_b⟩ := b
      obtain rfl : task_b = .assignScanned names ts := htask
      exact readings_assignScanned names ts m_b n k
    unfold readings
    rw [readingsWithin, hr, hnone]
    rfl

theorem served_assignScanned (names ts : List Token) (m : Machine) (k n : Nat) :
    Served m.input (readingsWithin h k ⟨n, .assignScanned names ts, m⟩)
      (final h ⟨n, .assignScanned names ts, m⟩).input := by
  rw [readings_assignScanned]
  show Served m.input [] (assignScanned names ts m).2.input
  rw [assignScanned_input]
  exact .nil

/-- **An activity takes from the input what its readings take, and nothing else.** -/
theorem served (h : Host) (n : Nat) : ∀ (task : Task) (m : Machine),
    Served m.input (readings h ⟨n, task, m⟩) (final h ⟨n, task, m⟩).input := by
  induction n with
  | zero =>
    intro task m
    cases task with
    | assignScanned names ts => exact served_assignScanned names ts m 0 0
    | _ => exact .nil
  | succ n ih =>
    intro task m
    by_cases hscanned : ∃ names ts, task = .assignScanned names ts
    · obtain ⟨names, ts, rfl⟩ := hscanned
      exact served_assignScanned names ts m (n + 1) (n + 1)
    rcases hreading : reading? h ⟨n + 1, task, m⟩ with _ | r
    · have hpasses := passes_parts hreading fun names ts htask => hscanned ⟨names, ts, htask⟩
      unfold readings
      rw [readingsWithin, hreading, Option.toList_none, List.nil_append]
      refine hpasses.served fun b hb => ?_
      obtain ⟨k, task_b, m_b⟩ := b
      rcases steps_of_calls (mem_parts.mp hb) with hk | ⟨names, ts, htask⟩
      · obtain rfl : n = k := Nat.succ.inj hk
        exact ih task_b m_b
      · obtain rfl : task_b = .assignScanned names ts := htask
        exact served_assignScanned names ts m_b n k
    · obtain ⟨hstart, hfinal⟩ := reading?_input hreading
      rw [readings_of_reading? hreading, hfinal]
      exact .cons hstart .nil

end Activity

/-! ## 6. Sessions -/

/-- What a host asks of a machine. -/
inductive Request where
  /-- To run a program. -/
  | run (h : Host) (steps : Nat) (program : List Stmt)
  /-- To call a value. -/
  | apply (h : Host) (steps : Nat) (callee : Value) (args : List Value)
  /-- To read a line. -/
  | readLine

namespace Request

/-- The machine behind a request, whatever comes of it. -/
def perform : Request → Machine → Machine
  | run h steps program, m => (Machine.execute h steps program m).2
  | apply h steps callee args, m => (Machine.apply h steps callee args m).2
  | readLine, m => (Exec.readLine m).2

/-- The machine behind some requests. -/
def performAll (rs : List Request) (m : Machine) : Machine :=
  rs.foldl (fun m r => r.perform m) m

/-- The readings that serve a request. -/
def readings : Request → Machine → List Reading
  | run h steps program, m => (Activity.ofProgram steps program m).readings h
  | apply h steps callee args, m => Activity.readings h ⟨steps, .apply callee args, m⟩
  | readLine, m => [.host m]

/-- The readings in a session, in their order. -/
def allReadings : List Request → Machine → List Reading
  | [], _ => []
  | r :: rs, m => r.readings m ++ allReadings rs (r.perform m)

/-- The request makes the reading: a part of the run or of the call does, or it is the reading. -/
inductive Makes : Request → Machine → Reading → Prop where
  | run {h : Host} {steps : Nat} {program : List Stmt} {m : Machine} {a : Activity} {r : Reading} :
      Activity.Within h (.ofProgram steps program m) a → a.reading? h = some r →
      Makes (.run h steps program) m r
  | apply {h : Host} {steps : Nat} {callee : Value} {args : List Value} {m : Machine}
      {a : Activity} {r : Reading} : Activity.Within h ⟨steps, .apply callee args, m⟩ a →
      a.reading? h = some r → Makes (.apply h steps callee args) m r
  | readLine {m : Machine} : Makes .readLine m (.host m)

theorem mem_readings {request : Request} {m : Machine} {r : Reading} :
    r ∈ request.readings m ↔ request.Makes m r := by
  cases request with
  | run h steps program =>
    refine Activity.mem_readings.trans ⟨fun ⟨a, ha, hr⟩ => .run ha hr, fun hmakes => ?_⟩
    cases hmakes with
    | run ha hr => exact ⟨_, ha, hr⟩
  | apply h steps callee args =>
    refine Activity.mem_readings.trans ⟨fun ⟨a, ha, hr⟩ => .apply ha hr, fun hmakes => ?_⟩
    cases hmakes with
    | apply ha hr => exact ⟨_, ha, hr⟩
  | readLine =>
    refine List.mem_singleton.trans ⟨fun hr => hr ▸ .readLine, fun hmakes => ?_⟩
    cases hmakes with
    | readLine => rfl

/-- **The readings of a session are those that its requests make.** -/
theorem mem_allReadings {r : Reading} : ∀ {requests : List Request} {m : Machine},
    r ∈ allReadings requests m ↔ ∃ before request later,
      requests = before ++ request :: later ∧ request.Makes (performAll before m) r
  | [], m => by
    refine iff_of_false List.not_mem_nil ?_
    rintro ⟨before, request, later, hsplit, _⟩
    exact List.append_ne_nil_of_right_ne_nil before (List.cons_ne_nil _ _) hsplit.symm
  | first :: rest, m => by
    rw [allReadings, List.mem_append, mem_readings, mem_allReadings]
    constructor
    · rintro (hfirst | ⟨before, request, later, rfl, hmakes⟩)
      · exact ⟨[], first, rest, rfl, hfirst⟩
      · exact ⟨first :: before, request, later, rfl, hmakes⟩
    · rintro ⟨_ | ⟨_, before⟩, request, later, hsplit, hmakes⟩
      · cases hsplit
        exact .inl hmakes
      · cases hsplit
        exact .inr ⟨before, request, later, rfl, hmakes⟩

theorem execute_input (h : Host) (steps : Nat) (program : List Stmt) (m : Machine) :
    (Machine.execute h steps program m).2.input =
      ((Activity.ofProgram steps program m).final h).input := by
  unfold Machine.execute
  show _ = (Machine.execAll h steps program m.rested).2.input
  split <;> rename_i hr <;> rw [hr]
  · rw [log_input]
  · split
    · rw [log_input]
    · rfl

/-- A request takes from the input what its readings take. -/
theorem served (request : Request) (m : Machine) :
    Served m.input (request.readings m) (request.perform m).input := by
  cases request with
  | run h steps program =>
    show Served _ _ (Machine.execute h steps program m).2.input
    rw [execute_input]
    exact Activity.served h steps (.execAll program) m.rested
  | apply h steps callee args => exact Activity.served h steps (.apply callee args) m
  | readLine => exact .cons rfl .nil

/-- **A session takes from the input what its readings take, and nothing else.** -/
theorem served_all : ∀ (requests : List Request) (m : Machine),
    Served m.input (allReadings requests m) (performAll requests m).input
  | [], _ => .nil
  | request :: requests, m =>
    (request.served m).append (served_all requests (request.perform m))

end Request

/-- **The lines are obtained one by one, and then there are no more.** Whatever a machine has done
    before, it is given a new input, and then a session of programs, calls and requests of the
    host follows.

    * The reading with index `k`, be it a `SCAN`, a call of `scanString` or one of the host, obtains
      the line of the input with that index, also if it then fails; and it reports the end of the
      input exactly if there are no more than `k` lines.
    * What is left of the input in the end are the lines behind those.
    * The readings are all those that the requests of the session make. -/
theorem lines_read_in_order (requests : List Request) (m : Machine) (t : Text) :
    let start : Machine := { m with input := ⟨t, none⟩ }
    let readings := Request.allReadings requests start
    (∀ k r, readings[k]? = some r →
      r.Obtains (Input.lines t)[k]? ∧ (r.Obtains none ↔ (Input.lines t).length ≤ k)) ∧
    (∃ rest, (Request.performAll requests start).input = ⟨rest, none⟩ ∧
      Input.lines rest = (Input.lines t).drop readings.length) ∧
    ∀ r, r ∈ readings ↔ ∃ before request later, requests = before ++ request :: later ∧
      request.Makes (Request.performAll before start) r := by
  intro start readings
  obtain ⟨hobtains, hleft⟩ := (Request.served_all requests start).obtains
  refine ⟨fun k r hr => ?_, hleft, fun r => Request.mem_allReadings⟩
  have hobtained := hobtains k r hr
  refine ⟨hobtained, fun hnone => ?_, fun hlength => ?_⟩
  · refine Nat.le_of_not_lt fun hlt => ?_
    rw [List.getElem?_eq_getElem hlt] at hobtained
    exact hobtained.not_none hnone
  · rwa [List.getElem?_eq_none hlength] at hobtained

/-- Three lines, the second one empty and the last one without an end: the host takes the first, a
    `SCAN` that then fails the second, a call of `scanString` the third, and for the host there is
    none left. -/
theorem lines_read_in_turn :
    let t := utf8 "a\r\n\r\nb"
    let x : Token := ⟨.identifier, utf8 "x", none, .start⟩
    let readings := Request.allReadings [.readLine, .run {} 5 [.scan x [x]],
      .apply {} 5 (.function (some (.native .scanString))) [.null], .readLine]
      { Machine.standard .empty with input := ⟨t, none⟩ }
    readings.length = 4 ∧ Input.lines t = [utf8 "a", [], utf8 "b"] ∧
      ∀ (k : Nat) (r : Reading), readings[k]? = some r →
        r.Obtains [utf8 "a", [], utf8 "b"][k]? := by
  intro t x readings
  have hlines : Input.lines t = [utf8 "a", [], utf8 "b"] := by decide +kernel
  refine ⟨by decide +kernel, hlines, fun k r hr => ?_⟩
  rw [← hlines]
  exact ((lines_read_in_order _ _ t).1 k r hr).1

end FencedCode
