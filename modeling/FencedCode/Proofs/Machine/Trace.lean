import FencedCode.Proofs.Machine.Names
import FencedCode.Proofs.Machine.Restoration

/-!
# Traces are well bracketed

A traced run records each scope that it enters and leaves, with a depth: how many frames lie around
the one entered, or around the one that is current again. The frame of a call lies directly in the
global one, so the depths do not just go up and down by one. Still the trace tells them: a scope
that is entered is one deeper than the last one not left yet, or it is that of a call and has depth
one, and when it is left the depth is again that of the one before it.

* `Scopes.Layered`, `Scopes.Layered.depth_of_parent` -- frames lie in frames made before them, one
  deeper;
* `Event.follow`, `Balanced` -- reading a trace with the scopes that are open, and records that open
  and close scopes in turn;
* `brackets_course` -- **every activity records such a sequence**;
* `Reached` -- what is open where an activity starts is told by the trace so far;
* `Refused` -- why a call ends before the body of its function starts;
* `trace_brackets` -- the trace of a whole program, and of the blocks and calls in it.
-/

namespace FencedCode

open Machine

/-! ## 1. How deep frames lie -/

namespace Scopes

variable {s t : Scopes}

/-- There is a global frame, and each frame lies in one that was made before it. -/
structure Layered (s : Scopes) : Prop where
  global : 0 < s.size
  inward {i p : Nat} : s.parent? i = some p → p < i

theorem Layered.parent?_global (hs : s.Layered) : s.parent? 0 = none := by
  cases hp : s.parent? 0 with
  | none => rfl
  | some p => exact absurd (hs.inward hp) (Nat.not_lt_zero p)

/-- No more than `i` frames lie around frame `i`. -/
theorem Layered.depthFrom_eq (hs : s.Layered) : ∀ {fuel fuel' i : Nat}, i ≤ fuel → i ≤ fuel' →
    s.depthFrom fuel i = s.depthFrom fuel' i
  | 0, 0, _, _, _ => rfl
  | 0, fuel' + 1, i, hi, _ => by
    obtain rfl : i = 0 := Nat.le_zero.mp hi
    rw [depthFrom, depthFrom, hs.parent?_global]
  | fuel + 1, 0, i, _, hi => by
    obtain rfl : i = 0 := Nat.le_zero.mp hi
    rw [depthFrom, depthFrom, hs.parent?_global]
  | fuel + 1, fuel' + 1, i, hi, hi' => by
    rw [depthFrom, depthFrom]
    cases hp : s.parent? i with
    | none => rfl
    | some p =>
      have hinward := hs.inward hp
      exact congrArg (· + 1) (hs.depthFrom_eq (by omega) (by omega))

/-- **A frame lies one deeper than the frame around it.** -/
theorem Layered.depth_of_parent (hs : s.Layered) {i p : Nat} (hp : s.parent? i = some p) :
    s.depth i = s.depth p + 1 := by
  have hinward := hs.inward hp
  cases i with
  | zero => exact absurd hinward (Nat.not_lt_zero p)
  | succ i =>
    unfold depth
    rw [depthFrom, hp]
    exact congrArg (· + 1) (hs.depthFrom_eq (Nat.le_of_lt_succ hinward) (Nat.le_refl p))

/-- How deep a frame lies depends on the frames made before it. -/
theorem Layered.depth_congr (hs : s.Layered) {n : Nat} (h : ∀ i < n, t.parent? i = s.parent? i)
    {i : Nat} (hi : i < n) : t.depth i = s.depth i := by
  have hfrom : ∀ fuel, ∀ {i : Nat}, i < n → t.depthFrom fuel i = s.depthFrom fuel i := by
    intro fuel
    induction fuel with
    | zero => exact fun _ => rfl
    | succ fuel ih =>
      intro i hi
      rw [depthFrom, depthFrom, h i hi]
      cases hp : s.parent? i with
      | none => rfl
      | some p => exact congrArg (· + 1) (ih (Nat.lt_trans (hs.inward hp) hi))
  exact hfrom i hi

theorem Layered.push (hs : s.Layered) {f : Frame} (hf : ∀ p, f.parent = some p → p < s.size) :
    (s.push f).Layered where
  global := by
    rw [size_push]
    exact Nat.succ_pos _
  inward {i p} hp := by
    rw [parent?_push] at hp
    split at hp
    · rename_i hi
      exact hi ▸ hf p hp
    · exact hs.inward hp

theorem Layered.depth_push (hs : s.Layered) (f : Frame) {i : Nat} (hi : i < s.size) :
    (s.push f).depth i = s.depth i := by
  refine hs.depth_congr (fun j hj => ?_) hi
  rw [parent?_push, if_neg (Nat.ne_of_lt hj)]

/-- A new frame lies one deeper than the one it is made in. -/
theorem Layered.depth_new (hs : s.Layered) {f : Frame} {p : Nat} (hf : f.parent = some p)
    (hp : p < s.size) : (s.push f).depth s.size = s.depth p + 1 := by
  have hpushed : (s.push f).Layered :=
    hs.push fun q hq => Option.some.inj (hf.symm.trans hq) ▸ hp
  have hparent : (s.push f).parent? s.size = some p := by
    rw [parent?_push, if_pos rfl, hf]
  rw [hpushed.depth_of_parent hparent, hs.depth_push f hp]

end Scopes

namespace Machine

variable {m m' : Machine}

/-- The current frame exists, as do the frames around it. -/
structure Layered (m : Machine) : Prop where
  scopes : m.scopes.Layered
  scope : m.scope < m.scopes.size

/-- How deep the current frame lies. -/
def level (m : Machine) : Nat :=
  m.scopes.depth m.scope

theorem SameShape.layered (hm : SameShape m m') (hlayered : m.Layered) : m'.Layered where
  scopes :=
    { global := hm.size ▸ hlayered.scopes.global
      inward := fun hp => hlayered.scopes.inward (hm.parent _ ▸ hp) }
  scope := by
    rw [hm.scope, hm.size]
    exact hlayered.scope

theorem SameShape.level_eq (hm : SameShape m m') (hlayered : m.Layered) : m'.level = m.level := by
  unfold level
  rw [hm.scope]
  exact hlayered.scopes.depth_congr (fun i _ => hm.parent i) hlayered.scope

theorem Layered.enter (hlayered : m.Layered) (h : Host) {f : Frame}
    (hf : ∀ p, f.parent = some p → p < m.scopes.size) : (m.enter h f).Layered where
  scopes := by
    rw [enter_scopes]
    exact hlayered.scopes.push hf
  scope := by
    rw [enter_scope, enter_scopes, Scopes.size_push]
    exact Nat.lt_succ_self _

theorem level_enter (hlayered : m.Layered) (h : Host) {f : Frame} {p : Nat} (hf : f.parent = some p)
    (hp : p < m.scopes.size) : (m.enter h f).level = m.scopes.depth p + 1 := by
  unfold level
  rw [enter_scope, enter_scopes]
  exact hlayered.scopes.depth_new hf hp

/-- **All machines that a host makes have a global frame around all others.** -/
theorem Hosted.layered (hm : Hosted m) : m.scopes.Layered := by
  have hset {s : Scopes} (hs : s.Layered) (i : Nat) (name : Text) (b : Binding) :
      (s.define i name b).2.Layered := by
    rw [Scopes.define_snd]
    split
    · exact hs
    · refine ⟨?_, fun hp => hs.inward ?_⟩
      · rw [Scopes.size_set]
        exact hs.global
      · rwa [Scopes.parent?_set] at hp
  have hsame {s t : Scopes} (hs : s.Layered) (hsize : t.size = s.size)
      (hparent : ∀ i, t.parent? i = s.parent? i) : t.Layered :=
    ⟨hsize ▸ hs.global, fun hp => hs.inward (hparent _ ▸ hp)⟩
  induction hm with
  | bare _ =>
    refine ⟨Nat.one_pos, fun {i p} hp => ?_⟩
    cases i <;> cases hp
  | native n _ ih => exact hset ih 0 _ _
  | provided _ _ ih => exact ih
  | drained _ ih => exact ih
  | @executed m h steps program _ ih =>
    have hrun := execute_restores h steps program m
    exact hsame ih hrun.size hrun.parent
  | @applied m h steps callee args _ ih =>
    have hrun := Activity.restores h ⟨steps, .apply callee args, m⟩
    exact hsame ih hrun.size hrun.parent

end Machine

/-! ## 2. Reading traces -/

/-- The depths of the scopes that are open after a record, the last one entered first, if those
    before it are `opened`: none if the record does not belong into a run there. -/
def Event.follow (opened : List Nat) : Event → Option (List Nat)
  | .pushScope depth =>
    if depth = opened.headD 0 + 1 ∨ depth = 1 then some (depth :: opened) else none
  | .popScope depth =>
    match opened with
    | [] => none
    | _ :: outer => if depth = outer.headD 0 then some outer else none
  | .fault _ _ => none
  | .topLevelReturn => none
  | .call _ _ => some opened
  | .replaces _ => some opened
  | .ignores _ => some opened

/-- The scopes that are open after some records. -/
def Event.followAll (opened : List Nat) (records : List Event) : Option (List Nat) :=
  records.foldlM follow opened

/-- In a scope of the given depth the records leave open what was open before them, and close
    nothing of it on the way. -/
def Balanced (depth : Nat) (records : List Event) : Prop :=
  ∀ opened : List Nat, opened.headD 0 = depth → Event.followAll opened records = some opened

namespace Balanced

variable {depth inner : Nat} {l l' : List Event}

theorem nil : Balanced depth [] :=
  fun _ _ => rfl

theorem append (hl : Balanced depth l) (hl' : Balanced depth l') : Balanced depth (l ++ l') := by
  intro opened hopened
  unfold Event.followAll
  rw [List.foldlM_append]
  have hfirst : l.foldlM Event.follow opened = some opened := hl opened hopened
  rw [hfirst]
  exact hl' opened hopened

/-- A record that neither enters nor leaves a scope. -/
theorem note {e : Event} (he : ∀ opened, e.follow opened = some opened) : Balanced depth [e] := by
  intro opened _
  show (e.follow opened >>= fun opened => some opened) = some opened
  rw [he]
  rfl

/-- **A scope that is entered and left.** -/
theorem scope (hinner : inner = depth + 1 ∨ inner = 1) (hl : Balanced inner l) :
    Balanced depth (.pushScope inner :: l ++ [.popScope depth]) := by
  intro opened hopened
  have hpush : Event.follow opened (.pushScope inner) = some (inner :: opened) := by
    show (if inner = opened.headD 0 + 1 ∨ inner = 1 then some (inner :: opened) else none) = _
    rw [hopened, if_pos hinner]
  have hpop : Event.follow (inner :: opened) (.popScope depth) = some opened :=
    if_pos hopened.symm
  have hbody : l.foldlM Event.follow (inner :: opened) = some (inner :: opened) := hl _ rfl
  unfold Event.followAll
  rw [List.foldlM_append, List.foldlM_cons, hpush]
  show (l.foldlM Event.follow (inner :: opened) >>= _) = _
  rw [hbody]
  show (Event.follow (inner :: opened) (.popScope depth) >>= _) = _
  rw [hpop]
  rfl

end Balanced

/-! ## 3. What a run records -/

namespace Machine

variable {h : Host} {a b c m m' : Machine} {l l' : List Event}

/-- The second machine has recorded these events after those of the first one. -/
def Adds (m m' : Machine) (records : List Event) : Prop :=
  m'.events = records.reverse ++ m.events

theorem Adds.append (hl : Adds a b l) (hl' : Adds b c l') : Adds a c (l ++ l') := by
  unfold Adds at *
  rw [hl', hl, List.reverse_append, List.append_assoc]

theorem adds_log (htracing : h.tracing = true) (m : Machine) (e : Event) :
    Adds m (m.log h e) [e] := by
  unfold log
  rw [if_pos htracing]
  rfl

theorem adds_enter (htracing : h.tracing = true) (m : Machine) (f : Frame) :
    Adds m (m.enter h f) [.pushScope (m.enter h f).level] := by
  unfold level
  rw [enter_scope, enter_scopes]
  exact adds_log htracing { m with scopes := m.scopes.push f, scope := m.scopes.size } _

theorem adds_leave (htracing : h.tracing = true) (m : Machine) (outer : Nat) :
    Adds m (m.leave h outer) [.popScope (m.leave h outer).level] := by
  unfold level
  rw [leave_scope, leave_scopes]
  exact adds_log htracing { m with scopes := m.scopes.pop, scope := outer } _

/-- From one machine to another the frames stay as they are, and the scopes that are entered are
    left again. -/
structure Brackets (m m' : Machine) : Prop extends SameShape m m' where
  records : ∃ l, Adds m m' l ∧ Balanced m.level l

theorem Brackets.quiet (hm : SameShape m m') (hevents : m'.events = m.events) : Brackets m m' :=
  ⟨hm, [], hevents, .nil⟩

theorem Brackets.trans (hab : a.Layered → Brackets a b) (hbc : b.Layered → Brackets b c)
    (hlayered : a.Layered) : Brackets a c := by
  have hfirst := hab hlayered
  have hsecond := hbc (hfirst.toSameShape.layered hlayered)
  obtain ⟨l, hl, hbalanced⟩ := hfirst.records
  obtain ⟨l', hl', hbalanced'⟩ := hsecond.records
  rw [hfirst.toSameShape.level_eq hlayered] at hbalanced'
  exact ⟨hfirst.toSameShape.trans hsecond.toSameShape, l ++ l', hl.append hl',
    hbalanced.append hbalanced'⟩

/-- **What is recorded about a frame that is entered and left**, with all that happens in it. -/
theorem adds_inside (htracing : h.tracing = true) (hlayered : m.Layered) {f : Frame} {p : Nat}
    (hf : f.parent = some p) (hp : p < m.scopes.size) {m₁ : Machine}
    (hbody : (m.enter h f).Layered → Brackets (m.enter h f) m₁) :
    SameShape m (m₁.leave h m.scope) ∧ ∃ inner, Balanced (m.scopes.depth p + 1) inner ∧
      Adds m (m₁.leave h m.scope)
        (.pushScope (m.scopes.depth p + 1) :: inner ++ [.popScope m.level]) := by
  have hentered : (m.enter h f).Layered :=
    hlayered.enter h fun q hq => Option.some.inj (hf.symm.trans hq) ▸ hp
  have hlevel : (m.enter h f).level = m.scopes.depth p + 1 := level_enter hlayered h hf hp
  have hrun := hbody hentered
  obtain ⟨inner, hinner, hbalanced⟩ := hrun.records
  have hshape : SameShape m (m₁.leave h m.scope) :=
    (Inside.block h f m m₁).sameShape hrun.toSameShape
  have hpush := adds_enter htracing m f
  have hpop := adds_leave htracing m₁ m.scope
  rw [hlevel] at hpush hbalanced
  rw [hshape.level_eq hlayered] at hpop
  exact ⟨hshape, inner, hbalanced, (hpush.append hinner).append hpop⟩

/-- **What a block records.** -/
theorem adds_block (htracing : h.tracing = true) (hlayered : m.Layered) {m₁ : Machine}
    (hbody : (m.enter h ⟨some m.scope, []⟩).Layered →
      Brackets (m.enter h ⟨some m.scope, []⟩) m₁) :
    SameShape m (m₁.leave h m.scope) ∧ ∃ inner, Balanced (m.level + 1) inner ∧
      Adds m (m₁.leave h m.scope)
        (.pushScope (m.level + 1) :: inner ++ [.popScope m.level]) :=
  adds_inside htracing hlayered rfl hlayered.scope hbody

/-- **What a call records** from where the body of its function starts. -/
theorem adds_call (htracing : h.tracing = true) (hlayered : m.Layered) {params : List Param}
    {args : List Value} {frame : Frame}
    (hb : bindParams params args ⟨some 0, []⟩ = .ok frame) {m₁ : Machine}
    (hbody : (m.descend.enter h frame).Layered → Brackets (m.descend.enter h frame) m₁) :
    SameShape m (m₁.leave h m.scope).ascend ∧ ∃ inner, Balanced 1 inner ∧
      Adds m (m₁.leave h m.scope).ascend (.pushScope 1 :: inner ++ [.popScope m.level]) := by
  have hdescended : m.descend.Layered := ⟨hlayered.scopes, hlayered.scope⟩
  obtain ⟨hshape, inner, hinner, hadds⟩ :=
    adds_inside htracing hdescended (parent_of_bindParams hb) hlayered.scopes.global hbody
  exact ⟨⟨hshape.scope, hshape.size, hshape.parent⟩, inner, hinner, hadds⟩

end Machine

/-- **Every activity leaves the scopes that it enters**, and records that. -/
theorem brackets_course {h : Host} (htracing : h.tracing = true) :
    Course h (fun m m' => m.Layered → Brackets m m') (fun m m' => m.Layered → Brackets m m') where
  refl m _ := .quiet (Keeps.refl (R := nowhere) (N := nowhere) m).toSameShape rfl
  trans := .trans
  transS := .trans
  ofE := id
  write _ _ _ := .quiet ⟨rfl, rfl, fun _ => rfl⟩ rfl
  probe _ _ _ := .quiet ⟨rfl, rfl, fun _ => rfl⟩ rfl
  tick _ _ := .quiet ⟨rfl, rfl, fun _ => rfl⟩ rfl
  called m f count _ := by
    refine ⟨⟨log_scope .., ?_, fun i => ?_⟩, _, adds_log htracing m _, .note fun _ => rfl⟩
    · rw [log_scopes]
    · rw [log_scopes]
  read _ _ := .quiet ⟨rfl, rfl, fun _ => rfl⟩ rfl
  assign ha _ := .quiet (Keeps.assign (R := nowhere) (N := nowhere) ha).toSameShape rfl
  declare m type name v isMutable _ _ := by
    refine ⟨(Keeps.declare (R := nowhere) (N := inFrame m.scope) h type name v isMutable
      rfl).toSameShape, ?_⟩
    unfold Machine.declare
    dsimp only
    split
    · exact ⟨[], rfl, .nil⟩
    · exact ⟨_, adds_log htracing { m with scopes := _ } _, .note fun _ => rfl⟩
  function m f _ := by
    refine ⟨(Keeps.declareFunction (R := inFrame m.scope) (N := inFrame m.scope) h f
      rfl rfl).toSameShape, ?_⟩
    unfold declareFunction
    dsimp only
    split
    · exact ⟨_, adds_log htracing m _, .note fun _ => rfl⟩
    · exact ⟨[], rfl, .nil⟩
  block hbody hlayered := by
    obtain ⟨hshape, inner, hinner, hadds⟩ := adds_block htracing hlayered hbody
    exact ⟨hshape, _, hadds, .scope (.inl rfl) hinner⟩
  call _ hb hbody hlayered := by
    obtain ⟨hshape, inner, hinner, hadds⟩ := adds_call htracing hlayered hb hbody
    exact ⟨hshape, _, hadds, .scope (.inr rfl) hinner⟩

/-! ## 4. Where activities start -/

/-- A machine reached from another one: what was recorded in between leaves the scopes open that are
    under way, and the last one of them is the current one. -/
structure Reached (start m : Machine) : Prop where
  layered : m.Layered
  trace : ∃ before opened, Adds start m before ∧ Event.followAll [] before = some opened ∧
    opened.headD 0 = m.level

section Reached

variable {h : Host} {start m m' : Machine}

theorem Reached.brackets (hm : Reached start m) (hrun : m.Layered → Brackets m m') :
    Reached start m' := by
  obtain ⟨before, opened, hbefore, hopened, hhead⟩ := hm.trace
  have hbrackets := hrun hm.layered
  obtain ⟨l, hl, hbalanced⟩ := hbrackets.records
  refine ⟨hbrackets.toSameShape.layered hm.layered, before ++ l, opened, hbefore.append hl, ?_, ?_⟩
  · unfold Event.followAll at *
    rw [List.foldlM_append, hopened]
    exact hbalanced opened hhead
  · rw [hbrackets.toSameShape.level_eq hm.layered]
    exact hhead

theorem Reached.enter (htracing : h.tracing = true) (hm : Reached start m) {f : Frame} {p : Nat}
    (hf : f.parent = some p) (hp : p = m.scope ∨ p = 0) : Reached start (m.enter h f) := by
  obtain ⟨before, opened, hbefore, hopened, hhead⟩ := hm.trace
  have hsize : p < m.scopes.size := by
    rcases hp with rfl | rfl
    · exact hm.layered.scope
    · exact hm.layered.scopes.global
  have hlevel : (m.enter h f).level = m.scopes.depth p + 1 := level_enter hm.layered h hf hsize
  have hfollow : Event.follow opened (.pushScope (m.enter h f).level) =
      some ((m.enter h f).level :: opened) := by
    refine if_pos ?_
    rw [hlevel, hhead]
    rcases hp with rfl | rfl
    · exact .inl rfl
    · exact .inr rfl
  refine ⟨hm.layered.enter h fun q hq => Option.some.inj (hf.symm.trans hq) ▸ hsize,
    before ++ [.pushScope (m.enter h f).level], (m.enter h f).level :: opened,
    hbefore.append (adds_enter htracing m f), ?_, rfl⟩
  unfold Event.followAll at *
  rw [List.foldlM_append, hopened]
  show (Event.follow opened _ >>= _) = _
  rw [hfollow]
  rfl

/-- **At the start of each activity the trace tells what is open.** -/
theorem reached_carried (htracing : h.tracing = true) (start : Machine) :
    Carried h (fun m m' => m.Layered → Brackets m m') (fun m m' => m.Layered → Brackets m m')
      (Reached start) where
  toCourse := brackets_course htracing
  keep hrun hm := hm.brackets hrun
  keepS hrun hm := hm.brackets hrun
  enterBlock hm := hm.enter htracing rfl (.inl rfl)
  enterCall {m _ _ _} _ hb hm := by
    have hdescended : Reached start m.descend := ⟨⟨hm.layered.scopes, hm.layered.scope⟩, hm.trace⟩
    exact hdescended.enter htracing (parent_of_bindParams hb) (.inr rfl)

end Reached

/-! ## 5. Calls -/

/-- A call of the value with these arguments ends for the given cause before the body of a function
    starts: nothing is there to be called, the number of arguments is another one, too many calls
    are under way, or an argument has another type than its parameter. -/
inductive Refused (h : Host) (m : Machine) (callee : Value) (args : List Value) : Cause → Prop where
  | notCallable : callee.callable? = none → Refused h m callee args .notCallable
  | arity {c : Callable} : callee.callable? = some c → (args.length : Int) ≠ c.arity →
      Refused h m callee args (.arity c.arity args.length)
  | depth {f : Function} {copy : Nat} : callee.callable? = some (.user f copy) →
      (args.length : Int) = (Callable.user f copy).arity → h.limit ≤ m.depth →
      Refused h m callee args (.depth f.name.lexeme)
  | argument {f : Function} {copy : Nat} {cause : Cause} :
      callee.callable? = some (.user f copy) →
      (args.length : Int) = (Callable.user f copy).arity → ¬ h.limit ≤ m.depth →
      bindParams f.params args ⟨some 0, []⟩ = .error (.fault (.unplaced cause)) →
      Refused h m callee args cause

/-- The body of a function starts in this frame when the value is called with these arguments. -/
structure Accepted (h : Host) (m : Machine) (callee : Value) (args : List Value) (f : Function)
    (frame : Frame) : Prop where
  callee : ∃ copy, callee.callable? = some (.user f copy)
  arity : args.length = f.params.length
  depth : m.depth < h.limit
  arguments : bindParams f.params args ⟨some 0, []⟩ = .ok frame

namespace Machine

variable {h : Host} {m : Machine} {callee : Value} {args : List Value}

/-- A call of a declared function is recorded and then made. -/
theorem apply_called {f : Function} {copy : Nat} (hcallee : callee.callable? = some (.user f copy))
    (harity : (args.length : Int) = (Callable.user f copy).arity) (n : Nat) :
    apply h (n + 1) callee args m =
      call h n f args (m.log h (.call f.name.lexeme args.length)) := by
  simp only [apply, hcallee, harity, ne_eq, not_true_eq_false, if_false]
  rfl

/-- **A call that is refused only fails**: no scope is entered or left. -/
theorem apply_refused (htracing : h.tracing = true) {cause : Cause}
    (hrefused : Refused h m callee args cause) (n : Nat) :
    (apply h (n + 2) callee args m).1 = .error (.fault (.unplaced cause)) ∧
    ∃ l, Adds m (apply h (n + 2) callee args m).2 l ∧
      ∀ e ∈ l, ∃ name count, e = .call name count := by
  have hcalled (f : Function) : ∀ e ∈ [Event.call f.name.lexeme args.length],
      ∃ name count, e = .call name count :=
    fun e he => ⟨_, _, List.mem_singleton.mp he⟩
  cases hrefused with
  | notCallable hcallee =>
    simp only [apply, hcallee]
    exact ⟨rfl, [], rfl, fun _ he => absurd he List.not_mem_nil⟩
  | arity hcallee harity =>
    simp only [apply, hcallee, if_pos harity]
    exact ⟨rfl, [], rfl, fun _ he => absurd he List.not_mem_nil⟩
  | @depth f copy hcallee harity hdepth =>
    rw [apply_called hcallee harity, call_of_limit (by rwa [log_depth])]
    exact ⟨rfl, _, adds_log htracing m _, hcalled f⟩
  | @argument f copy cause hcallee harity hdepth hb =>
    rw [apply_called hcallee harity, call_of_mismatch (by rwa [log_depth]) hb]
    exact ⟨rfl, _, adds_log htracing m _, hcalled f⟩

end Machine

/-! ## 6. Whole programs -/

/-- What an activity records that starts while the given scopes are open. -/
structure Activity.Logs (h : Host) (opened : List Nat) (a : Activity) : Prop where
  /-- A block enters a scope one deeper than the last one that is open. -/
  block {n : Nat} {opening : Token} {body : List Stmt} {m : Machine} :
    a = ⟨n + 1, .exec (.block opening body), m⟩ → ∃ inner, Balanced (opened.headD 0 + 1) inner ∧
      Adds a.start (a.final h)
        (.pushScope (opened.headD 0 + 1) :: inner ++ [.popScope (opened.headD 0)])
  /-- A call enters a scope of depth one. -/
  call {n : Nat} {callee : Value} {args : List Value} {m : Machine} {f : Function}
    {frame : Frame} : a = ⟨n + 2, .apply callee args, m⟩ → Accepted h m callee args f frame →
      ∃ inner, Balanced 1 inner ∧ Adds a.start (a.final h)
        (.call f.name.lexeme args.length :: .pushScope 1 :: inner ++ [.popScope (opened.headD 0)])
  /-- A call that ends before the body of its function starts enters and leaves no scope. -/
  refused {n : Nat} {callee : Value} {args : List Value} {m : Machine} {cause : Cause} :
    a = ⟨n + 2, .apply callee args, m⟩ → Refused h m callee args cause →
      (apply h (n + 2) callee args m).1 = .error (.fault (.unplaced cause)) ∧
      ∃ l, Adds a.start (a.final h) l ∧ ∀ e ∈ l, ∃ name count, e = .call name count

/-- Blocks and calls record their scopes wherever they run. -/
theorem Reached.logs {h : Host} (htracing : h.tracing = true) {start : Machine} {a : Activity}
    (ha : Reached start a.start) : ∃ before opened, Adds start a.start before ∧
      Event.followAll [] before = some opened ∧ a.Logs h opened := by
  obtain ⟨before, opened, hbefore, hopened, hhead⟩ := ha.trace
  have hcourse := brackets_course (h := h) htracing
  refine ⟨before, opened, hbefore, hopened, ?_, ?_, ?_⟩
  · rintro n opening body m rfl
    rw [hhead]
    exact (adds_block htracing ha.layered ((hcourse.holds n).execAll body _)).2
  · rintro n callee args m f frame rfl ⟨⟨copy, hcallee⟩, harity, hdepth, hb⟩
    have hlayered : (m.log h (.call f.name.lexeme args.length)).Layered :=
      (hcourse.called m _ _ ha.layered).toSameShape.layered ha.layered
    have hlevel : (m.log h (.call f.name.lexeme args.length)).level = m.level :=
      (hcourse.called m _ _ ha.layered).toSameShape.level_eq ha.layered
    obtain ⟨inner, hinner, hadds⟩ :=
      (adds_call htracing hlayered hb ((hcourse.holds n).execAll f.body _)).2
    have hdeep : ¬ h.limit ≤ (m.log h (.call f.name.lexeme args.length)).depth := by
      rw [log_depth]
      exact Nat.not_le_of_lt hdepth
    refine ⟨inner, hinner, ?_⟩
    show Adds m (apply h (n + 2) callee args m).2 _
    rw [apply_called hcallee (congrArg Nat.cast harity), call_snd hdeep hb, hhead, ← hlevel]
    exact (adds_log htracing m _).append hadds
  · rintro n callee args m cause rfl hrefused
    exact apply_refused htracing hrefused n

/-- What is recorded about the end of a program: a return outside of any function, or a fault. -/
def IsClosing (result : Except Failure Unit) (records : List Event) : Prop :=
  match result with
  | .ok _ => records = [] ∨ records = [.topLevelReturn]
  | .error e => records = (e.fault?.map fun f => .fault f.kind f.line).toList

/-- **Traces of scopes are well bracketed.** Whatever program a host runs, with whatever outcome,
    the records of the run end with what is recorded about its end: a fault, a return outside of any
    function, or nothing. Those before it hold neither; followed in their order, each scope that is
    entered is one deeper than the last one open or has depth one, each scope that is left is the
    last one open, with the depth of the one open before it, and in the end none is open. Of all
    that is done in the run, a block enters the former kind of scope, a call whose body starts the
    latter, and a call that fails before that none. -/
theorem trace_brackets {h : Host} (htracing : h.tracing = true) {m : Machine} (hm : Hosted m)
    (steps : Nat) (program : List Stmt) :
    (∃ body closing, Adds m (execute h steps program m).2 (body ++ closing) ∧
      Event.followAll [] body = some [] ∧ IsClosing (execute h steps program m).1 closing) ∧
    ∀ a, Activity.Within h (.ofProgram steps program m) a → ∃ before opened,
      Adds m a.start before ∧ Event.followAll [] before = some opened ∧ a.Logs h opened := by
  have hlayered : Machine.Layered m.rested :=
    ⟨hm.layered, hm.layered.global⟩
  constructor
  · have hrun := (brackets_course htracing).final (.ofProgram steps program m) hlayered
    obtain ⟨body, hbody, hbalanced⟩ := hrun.records
    have hopened : Event.followAll [] body = some [] := hbalanced [] rfl
    have hclosed {m' : Machine} (hbody : Adds m m' body) (e : Event) :
        Adds m (m'.log h e) (body ++ [e]) :=
      hbody.append (adds_log htracing m' e)
    simp only [Activity.ofProgram, Activity.final] at hbody
    unfold execute
    split <;> rename_i hr <;> rw [hr] at hbody
    · exact ⟨body, [], (List.append_nil body).symm ▸ hbody, hopened, .inl rfl⟩
    · exact ⟨body, _, hclosed hbody _, hopened, .inr rfl⟩
    · rename_i e m'
      have hclosing {closing : List Event} (h : (e.fault?.map fun f =>
          Event.fault f.kind f.line).toList = closing) : IsClosing (.error e) closing :=
        h.symm
      cases hfault : e.fault? with
      | some f =>
        exact ⟨body, _, hclosed hbody _, hopened, hclosing (by rw [hfault]; rfl)⟩
      | none =>
        exact ⟨body, [], (List.append_nil body).symm ▸ hbody, hopened,
          hclosing (by rw [hfault]; rfl)⟩
  · intro a ha
    have hstart : Reached m (Activity.ofProgram steps program m).start :=
      ⟨hlayered, [], [], rfl, rfl, rfl⟩
    exact ((reached_carried htracing m).start_of_within ha hstart).logs htracing

/-- A function with a block in it is declared and called. -/
theorem trace_brackets_call :
    let name : Token := ⟨.identifier, utf8 "f", none, .start⟩
    let program : List Stmt := [.function name [] [.block .absent []] none,
      .expression (.call (.ref name) .absent [])]
    let run := execute { tracing := true } 9 program (.standard .empty)
    run.2.events.reverse =
      [.call name.lexeme 0, .pushScope 1, .pushScope 2, .popScope 1, .popScope 0] ∧
    ∃ body closing, Adds (.standard .empty) run.2 (body ++ closing) ∧
      Event.followAll [] body = some [] ∧ IsClosing run.1 closing :=
  ⟨rfl, (trace_brackets (h := { tracing := true }) rfl (hosted_standard .empty) 9 _).1⟩

end FencedCode
