import FencedCode.Proofs.Scope.View
import Mathlib.Data.List.Induction

/-!
# What a name means, told by the history

A tree of scopes grows by operations: a scope is made inside another one, names are defined and set,
and they are assigned. Three rules meet here. Of the definitions of a name in one scope the first
counts, of the settings the last, and an assignment goes to the scope that the name is declared in.
What a name means is told by the operations alone:

* `Operation`, `grow`, `Legal` -- operations, the tree that grows by them, and that each of them
  works in a scope that exists by then;
* `Means` -- that a name means its binding in some scope: in the nearest one on the way outward in
  which it was ever declared;
* `InForce`, `Worth`, `Holds` -- the declaration that counts, and what was assigned since;
* `told_grow`, `holds_grow` -- **the tree keeps to its history**, by induction on the operations;
  `KeepsTo.child`, …, `KeepsTo.assign` are the steps;
* `nearest_declaration` -- all of this, and what assignments do.
-/

namespace FencedCode.Scopes

/-! ## 1. Operations -/

/-- An operation on a tree of scopes. -/
inductive Operation where
  /-- Makes a scope inside another one. -/
  | child (outer : Nat)
  /-- Binds a name unless its scope binds it already. -/
  | define (scope : Nat) (name : Text) (b : Binding)
  /-- Binds a name in place of any binding that its scope has for it. -/
  | set (scope : Nat) (name : Text) (b : Binding)
  /-- Gives a name a new value, as seen from a scope. -/
  | assign (scope : Nat) (name : Token) (v : Value)

namespace Operation

/-- The scope that an operation works in. -/
def scope : Operation → Nat
  | child i => i
  | define i _ _ => i
  | set i _ _ => i
  | assign i _ _ => i

/-- The scope around the one that an operation makes. -/
def outer? : Operation → Option Nat
  | child i => some i
  | _ => none

/-- The operation sets the name in scope `i`. -/
def Sets (op : Operation) (i : Nat) (name : Text) : Prop :=
  ∃ b, op = .set i name b

/-- The operation defines or sets the name in scope `i`. -/
def Declares (op : Operation) (i : Nat) (name : Text) : Prop :=
  (∃ b, op = .define i name b) ∨ op.Sets i name

end Operation

/-- The tree behind an operation. An assignment that fails leaves it as it was. -/
def perform (s : Scopes) : Operation → Scopes
  | .child i => s.child i
  | .define i name b => (s.define i name b).2
  | .set i name b => s.set i name b
  | .assign i name v =>
    match s.assign i name v with
    | .ok s' => s'
    | .error _ => s

/-- The tree that grows by operations, the first of them first. -/
def grow (h : List Operation) : Scopes :=
  h.foldl perform initial

@[simp]
theorem grow_concat (h : List Operation) (op : Operation) :
    grow (h ++ [op]) = (grow h).perform op := by
  unfold grow
  rw [List.foldl_append]
  rfl

/-- The scopes around those that the operations make, which are numbered from one on. -/
def outers (h : List Operation) : List Nat :=
  h.filterMap Operation.outer?

/-- Each operation works in a scope that exists by then. -/
def Legal (h : List Operation) : Prop :=
  ∀ (n : Nat) (hn : n < h.length), h[n].scope ≤ (outers (h.take n)).length

instance (h : List Operation) : Decidable (Legal h) :=
  inferInstanceAs (Decidable (∀ (n : Nat) (_ : n < h.length), _))

theorem Legal.concat {h : List Operation} {op : Operation} (hh : Legal (h ++ [op])) :
    Legal h ∧ op.scope ≤ (outers h).length := by
  refine ⟨fun n hn => ?_, ?_⟩
  · have hop := hh n (by rw [List.length_append]; exact Nat.lt_add_right _ hn)
    rwa [List.getElem_append_left hn, List.take_append_of_le_length (Nat.le_of_lt hn)] at hop
  · have hop := hh h.length (by simp)
    rwa [List.getElem_concat_length rfl, List.take_left] at hop

/-! ## 2. Scopes and declarations -/

/-- The scope around scope `i`. -/
def outward (h : List Operation) : Nat → Option Nat
  | 0 => none
  | i + 1 => (outers h)[i]?

/-- Some operation has declared the name in scope `i`. -/
def Declared (h : List Operation) (i : Nat) (name : Text) : Prop :=
  ∃ op ∈ h, op.Declares i name

/-- `Means h name i k`: seen from scope `i`, the name is that of scope `k`, the nearest one on the
    way outward in which it was ever declared. -/
inductive Means (h : List Operation) (name : Text) : Nat → Nat → Prop where
  | here {i : Nat} : Declared h i name → Means h name i i
  | around {i p k : Nat} : ¬ Declared h i name → outward h i = some p → Means h name p k →
      Means h name i k

theorem declared_concat {h : List Operation} {op : Operation} {i : Nat} {name : Text} :
    Declared (h ++ [op]) i name ↔ Declared h i name ∨ op.Declares i name := by
  unfold Declared
  simp only [List.mem_append, List.mem_singleton, or_and_right, exists_or, exists_eq_left]

/-- The tree has the scopes that the operations made, and binds the names that they declared. -/
structure Told (h : List Operation) (s : Scopes) : Prop where
  size : s.size = (outers h).length + 1
  parent (i : Nat) : s.parent? i = outward h i
  inner {i p : Nat} : outward h i = some p → p < i
  bound (i : Nat) (name : Text) : (s.get? i name).isSome ↔ Declared h i name

@[simp]
theorem get?_child (s : Scopes) (i j : Nat) (name : Text) :
    (s.child i).get? j name = s.get? j name := by
  unfold child
  rw [get?_push]
  split
  · rename_i hj
    rw [get?_eq_none_of_size_le (Nat.le_of_eq hj.symm)]
    rfl
  · rfl

/-- A binding that is replaced by another one is a binding still. -/
theorem isSome_get?_set {s : Scopes} {i : Nat} {name : Text} {old : Binding}
    (hold : s.get? i name = some old) (b : Binding) (j : Nat) (other : Text) :
    ((s.set i name b).get? j other).isSome = (s.get? j other).isSome := by
  rw [get?_set]
  split
  · rename_i hself
    rw [hself.1, hself.2.1, hold]
    rfl
  · rfl

/-! ### The step -/

section Told

variable {h : List Operation} {s : Scopes}

theorem outward_concat_of_none {op : Operation} (hop : op.outer? = none) (i : Nat) :
    outward (h ++ [op]) i = outward h i := by
  have houters : outers (h ++ [op]) = outers h := by
    unfold outers
    rw [List.filterMap_append, List.filterMap_cons_none hop]
    exact List.append_nil _
  cases i with
  | zero => rfl
  | succ i =>
    unfold outward
    rw [houters]

/-- An operation that makes no scope. -/
theorem Told.concat_of_none (hs : Told h s) {op : Operation} {s' : Scopes}
    (hop : op.outer? = none) (hsize : s'.size = s.size) (hparent : ∀ i, s'.parent? i = s.parent? i)
    (hbound : ∀ i name, (s'.get? i name).isSome ↔ (s.get? i name).isSome ∨ op.Declares i name) :
    Told (h ++ [op]) s' where
  size := by
    unfold outers
    rw [hsize, hs.size, List.filterMap_append, List.filterMap_cons_none hop]
    exact congrArg (fun l : List Nat => l.length + 1) (List.append_nil _).symm
  parent i := by rw [hparent, hs.parent, outward_concat_of_none hop]
  inner hp := hs.inner (by rwa [outward_concat_of_none hop] at hp)
  bound i name := by rw [hbound, hs.bound, declared_concat]

theorem Told.child (hs : Told h s) {i : Nat} (hi : i < s.size) :
    Told (h ++ [.child i]) (s.child i) := by
  have houters : outers (h ++ [.child i]) = outers h ++ [i] := List.filterMap_append
  have hlast (j : Nat) : outward (h ++ [.child i]) j =
      if j = s.size then some i else outward h j := by
    cases j with
    | zero => rw [if_neg (by rw [hs.size]; exact (Nat.succ_ne_zero _).symm)]; rfl
    | succ j =>
      show (outers (h ++ [.child i]))[j]? = if j + 1 = s.size then some i else (outers h)[j]?
      rw [houters, hs.size, List.getElem?_append]
      grind
  refine ⟨?_, fun j => ?_, fun {j p} hp => ?_, fun j name => ?_⟩
  · rw [houters, List.length_append]
    unfold Scopes.child
    rw [size_push, hs.size]
    rfl
  · rw [hlast]
    unfold Scopes.child
    rw [parent?_push, hs.parent]
  · rw [hlast] at hp
    split at hp
    · rename_i hj
      rw [hj, ← Option.some.inj hp]
      exact hi
    · exact hs.inner hp
  · rw [get?_child, hs.bound, declared_concat]
    refine (or_iff_left ?_).symm
    rintro (⟨b, hb⟩ | ⟨b, hb⟩) <;> cases hb

theorem Told.perform (hs : Told h s) {op : Operation} (hop : op.scope < s.size) :
    Told (h ++ [op]) (s.perform op) := by
  have hset (i : Nat) (hi : i < s.size) (name : Text) (b : Binding) (j : Nat) (other : Text) :
      ((s.set i name b).get? j other).isSome ↔
        (s.get? j other).isSome ∨ (j = i ∧ other = name) := by
    rw [get?_set]
    grind
  cases op with
  | child i => exact hs.child hop
  | define i name b =>
    refine hs.concat_of_none rfl ?_ (fun j => ?_) fun j other => ?_
    all_goals simp only [Scopes.perform, define_snd]
    · split <;> simp
    · split <;> simp
    · have hdeclares : (Operation.define i name b).Declares j other ↔ j = i ∧ other = name := by
        unfold Operation.Declares Operation.Sets
        grind
      rw [hdeclares]
      split
      · grind
      · exact hset i hop name b j other
  | set i name b =>
    refine hs.concat_of_none rfl (size_set ..) (fun j => parent?_set ..) fun j other => ?_
    have hdeclares : (Operation.set i name b).Declares j other ↔ j = i ∧ other = name := by
      unfold Operation.Declares Operation.Sets
      grind
    rw [hdeclares]
    exact hset i hop name b j other
  | assign i name v =>
    have hdeclares (j : Nat) (other : Text) :
        ¬ (Operation.assign i name v).Declares j other := by
      rintro (⟨b, hb⟩ | ⟨b, hb⟩) <;> cases hb
    simp only [Scopes.perform]
    split
    · rename_i s' ha
      obtain ⟨k, old, _, hold, _, _, rfl⟩ := assign_ok ha
      refine hs.concat_of_none rfl (size_set ..) (fun j => parent?_set ..) fun j other => ?_
      rw [isSome_get?_set hold, or_iff_left (hdeclares j other)]
    · exact hs.concat_of_none rfl rfl (fun _ => rfl) fun j other =>
        (or_iff_left (hdeclares j other)).symm

end Told

/-- **The tree keeps to its history**, in its shape and in what it binds. -/
theorem told_grow {h : List Operation} (hh : Legal h) : Told h (grow h) := by
  induction h using List.reverseRecOn with
  | nil =>
    refine ⟨rfl, fun i => ?_, fun hp => ?_, fun i name => ?_⟩
    · cases i <;> rfl
    · rename_i i p
      cases i <;> cases hp
    · refine ⟨fun hb => ?_, fun ⟨_, hop, _⟩ => (List.not_mem_nil hop).elim⟩
      obtain ⟨b, hb⟩ := Option.isSome_iff_exists.mp hb
      obtain rfl : i = 0 := Nat.lt_one_iff.mp (lt_size_of_get?_eq_some hb)
      cases hb
  | append_singleton h op ih =>
    obtain ⟨hh', hscope⟩ := hh.concat
    have hs : Told h (grow h) := ih hh'
    rw [grow_concat]
    exact hs.perform (by rw [hs.size]; exact Nat.lt_succ_of_le hscope)

/-! ## 3. What a name means -/

theorem Means.unique {h : List Operation} {name : Text} {i k l : Nat} (hk : Means h name i k)
    (hl : Means h name i l) : k = l := by
  induction hk with
  | here hd =>
    cases hl with
    | here => rfl
    | around hnot _ _ => exact (hnot hd).elim
  | around hnot hp _ ih =>
    cases hl with
    | here hd => exact (hnot hd).elim
    | around _ hp' hl =>
      rw [hp] at hp'
      cases hp'
      exact ih hl

theorem Means.declared {h : List Operation} {name : Text} {i k : Nat} (hk : Means h name i k) :
    Declared h k name := by
  induction hk with
  | here hd => exact hd
  | around _ _ _ ih => exact ih

/-- The way outward from scope `i` has no more than `i` steps. -/
theorem Told.resolveFrom_iff {h : List Operation} {s : Scopes} (hs : Told h s) {name : Text}
    {k : Nat} : ∀ {fuel i : Nat}, i < fuel →
      (s.resolveFrom name fuel i = some k ↔ Means h name i k)
  | 0, _, hi => absurd hi (Nat.not_lt_zero _)
  | fuel + 1, i, hi => by
    rw [resolveFrom_succ]
    by_cases hd : Declared h i name
    · rw [if_pos ((hs.bound i name).mpr hd)]
      refine ⟨fun hk => ?_, fun hk => congrArg some ((Means.here hd).unique hk)⟩
      cases hk
      exact .here hd
    · rw [if_neg fun hb => hd ((hs.bound i name).mp hb), hs.parent]
      cases hp : outward h i with
      | none =>
        refine ⟨fun hk => (Option.some_ne_none k hk.symm).elim, fun hk => ?_⟩
        cases hk with
        | here hd' => exact (hd hd').elim
        | around _ hp' _ => rw [hp] at hp'; cases hp'
      | some p =>
        have houter : p < fuel := Nat.lt_of_lt_of_le (hs.inner hp) (Nat.le_of_lt_succ hi)
        refine (hs.resolveFrom_iff houter).trans ⟨fun hk => .around hd hp hk, fun hk => ?_⟩
        cases hk with
        | here hd' => exact (hd hd').elim
        | around _ hp' hk =>
          rw [hp] at hp'
          cases hp'
          exact hk

/-- A name is found in the scope whose binding it means. -/
theorem resolve_iff {h : List Operation} (hh : Legal h) {i k : Nat} {name : Text} :
    (grow h).resolve i name = some k ↔ Means h name i k :=
  (told_grow hh).resolveFrom_iff (Nat.lt_succ_self i)

/-! ## 4. What it is bound to -/

/-- The operation, behind the operations `h`, gives the name the value `v` in scope `k`. -/
def Operation.Lands (h : List Operation) (op : Operation) (k : Nat) (name : Text) (v : Value) :
    Prop :=
  ∃ i token, op = .assign i token v ∧ token.lexeme = name ∧ Means h name i k ∧
    ∃ s, (grow h).assign i token v = .ok s

/-- None of the operations `later`, behind the operations `h`, gives the name a value in
    scope `k`. -/
def Unassigned (h later : List Operation) (k : Nat) (name : Text) : Prop :=
  ∀ mid op rest v, later = mid ++ op :: rest → ¬ op.Lands (h ++ mid) k name v

/-- The value of the name in scope `k` after the operations `h ++ later`, if `h` end with the
    declaration that gave it the value `given`: the one that it was assigned last, if any. -/
inductive Worth (h later : List Operation) (k : Nat) (name : Text) (given : Value) :
    Value → Prop where
  | given : Unassigned h later k name → Worth h later k name given given
  | assigned {mid rest : List Operation} {op : Operation} {v : Value} :
      later = mid ++ op :: rest → op.Lands (h ++ mid) k name v →
      Unassigned (h ++ mid ++ [op]) rest k name → Worth h later k name given v

/-- `InForce before op later k name b`: between the operations `before` and `later`, the operation
    `op` is the declaration of the name in scope `k` that counts, and it gives the binding `b`. -/
inductive InForce (before : List Operation) :
    Operation → List Operation → Nat → Text → Binding → Prop where
  /-- The last of the operations that set the name. -/
  | set {later : List Operation} {k : Nat} {name : Text} {b : Binding} :
      (∀ op ∈ later, ¬ op.Sets k name) → InForce before (.set k name b) later k name b
  /-- The first of those that define it, if none sets it. -/
  | define {later : List Operation} {k : Nat} {name : Text} {b : Binding} :
      ¬ Declared before k name → (∀ op ∈ later, ¬ op.Sets k name) →
      InForce before (.define k name b) later k name b

/-- After the operations `h` the name is bound to `b` in scope `k`: type and mutability are those
    of the declaration that counts, and the value is the one assigned last since. -/
def Holds (h : List Operation) (k : Nat) (name : Text) (b : Binding) : Prop :=
  ∃ before op later declared, h = before ++ op :: later ∧
    InForce before op later k name declared ∧
    b.type = declared.type ∧ b.isMutable = declared.isMutable ∧
    Worth (before ++ [op]) later k name declared.value b.value

section Later

variable {h later : List Operation} {op : Operation} {k : Nat} {name : Text}

theorem Unassigned.nil : Unassigned h [] k name := by
  intro mid op rest v hsplit
  exact (List.append_ne_nil_of_right_ne_nil mid (List.cons_ne_nil op rest) hsplit.symm).elim

theorem Unassigned.concat (hl : Unassigned h later k name)
    (hop : ∀ v, ¬ op.Lands (h ++ later) k name v) : Unassigned h (later ++ [op]) k name := by
  intro mid op' rest v hsplit
  induction rest using List.reverseRecOn with
  | nil =>
    obtain ⟨rfl, hlast⟩ := List.append_inj' hsplit rfl
    cases hlast
    exact hop v
  | append_singleton rest last _ =>
    rw [← List.cons_append, ← List.append_assoc] at hsplit
    exact hl mid op' rest v (List.append_inj' hsplit rfl).1

theorem Worth.concat {given v : Value} (hw : Worth h later k name given v)
    (hop : ∀ v, ¬ op.Lands (h ++ later) k name v) : Worth h (later ++ [op]) k name given v := by
  cases hw with
  | given hl => exact .given (hl.concat hop)
  | @assigned mid rest op' _ hsplit hlands hl =>
    refine @Worth.assigned _ _ _ _ _ mid (rest ++ [op]) op' _ ?_ hlands (hl.concat ?_)
    · rw [hsplit, List.append_assoc]
      rfl
    · rwa [hsplit, ← List.append_assoc, List.append_cons] at hop

theorem InForce.concat {before : List Operation} {declaration : Operation} {b : Binding}
    (hd : InForce before declaration later k name b) (hop : ¬ op.Sets k name) :
    InForce before declaration (later ++ [op]) k name b := by
  have hconcat (hl : ∀ op' ∈ later, ¬ op'.Sets k name) :
      ∀ op' ∈ later ++ [op], ¬ op'.Sets k name := by
    intro op' hmem
    rcases List.mem_append.mp hmem with hmem | hmem
    · exact hl op' hmem
    · rw [List.mem_singleton.mp hmem]
      exact hop
  cases hd with
  | set hl => exact .set (hconcat hl)
  | define hnot hl => exact .define hnot (hconcat hl)

/-- An operation that neither sets the name nor gives it a value. -/
theorem Holds.concat {b : Binding} (hb : Holds h k name b) (hsets : ¬ op.Sets k name)
    (hlands : ∀ v, ¬ op.Lands h k name v) : Holds (h ++ [op]) k name b := by
  obtain ⟨before, declaration, later, declared, rfl, hd, htype, hmut, hw⟩ := hb
  refine ⟨before, declaration, later ++ [op], declared, ?_, hd.concat hsets, htype, hmut,
    hw.concat ?_⟩
  · rw [List.append_assoc]
    rfl
  · rwa [← List.append_cons]

/-- An assignment. -/
theorem Holds.concat_assigned {b : Binding} (hb : Holds h k name b) {v : Value}
    (hlands : op.Lands h k name v) : Holds (h ++ [op]) k name { b with value := v } := by
  obtain ⟨before, declaration, later, declared, rfl, hd, htype, hmut, _⟩ := hb
  have hsets : ¬ op.Sets k name := by
    obtain ⟨i, token, rfl, _⟩ := hlands
    rintro ⟨b, hb⟩
    cases hb
  refine ⟨before, declaration, later ++ [op], declared, ?_, hd.concat hsets, htype, hmut,
    .assigned rfl ?_ .nil⟩
  · rw [List.append_assoc]
    rfl
  · rwa [← List.append_cons]

/-- A setting. -/
theorem holds_concat_set (h : List Operation) (k : Nat) (name : Text) (b : Binding) :
    Holds (h ++ [.set k name b]) k name b :=
  ⟨h, _, [], b, rfl, .set fun _ hop => (List.not_mem_nil hop).elim, rfl, rfl, .given .nil⟩

/-- A first definition. -/
theorem holds_concat_define (hnot : ¬ Declared h k name) (b : Binding) :
    Holds (h ++ [.define k name b]) k name b :=
  ⟨h, _, [], b, rfl, .define hnot fun _ hop => (List.not_mem_nil hop).elim, rfl, rfl, .given .nil⟩

end Later

/-- A binding that was just set, or one that was there before. -/
theorem holds_set {h : List Operation} {i : Nat} {name : Text} {c : Binding} {op : Operation}
    (hrest : ∀ {k other b}, (k ≠ i ∨ other ≠ name) → (grow h).get? k other = some b →
      Holds (h ++ [op]) k other b)
    (hself : Holds (h ++ [op]) i name c) {k : Nat} {other : Text} {b : Binding}
    (hb : ((grow h).set i name c).get? k other = some b) : Holds (h ++ [op]) k other b := by
  by_cases hne : k ≠ i ∨ other ≠ name
  · rw [get?_set_ne c hne] at hb
    exact hrest hne hb
  · obtain ⟨rfl, rfl⟩ : k = i ∧ other = name := by simpa only [not_or, Decidable.not_not] using hne
    rw [get?_set_self (by simpa using lt_size_of_get?_eq_some hb)] at hb
    rwa [← Option.some.inj hb]

/-- What is bound in the tree behind the operations `h` is bound to what they tell. -/
def KeepsTo (h : List Operation) : Prop :=
  ∀ ⦃k : Nat⦄ ⦃name : Text⦄ ⦃b : Binding⦄, (grow h).get? k name = some b → Holds h k name b

namespace KeepsTo

variable {h : List Operation}

theorem nil : KeepsTo [] := by
  intro k name b hb
  obtain rfl : k = 0 := Nat.lt_one_iff.mp (lt_size_of_get?_eq_some hb)
  cases hb

theorem child (hk : KeepsTo h) (i : Nat) : KeepsTo (h ++ [.child i]) := by
  intro k name b hb
  rw [grow_concat] at hb
  simp only [perform, get?_child] at hb
  refine (hk hb).concat ?_ fun v hlands => ?_
  · rintro ⟨c, hc⟩
    cases hc
  · obtain ⟨_, _, hassign, _⟩ := hlands
    cases hassign

/-- Only the first definition of a name in a scope counts. -/
theorem define (hh : Legal h) (hk : KeepsTo h) (i : Nat) (other : Text) (c : Binding) :
    KeepsTo (h ++ [.define i other c]) := by
  intro k name b hb
  have hsets (j : Nat) (n : Text) : ¬ (Operation.define i other c).Sets j n := by
    rintro ⟨d, hd⟩
    cases hd
  have hlands (j : Nat) (n : Text) (v : Value) :
      ¬ (Operation.define i other c).Lands h j n v := by
    rintro ⟨_, _, hassign, _⟩
    cases hassign
  rw [grow_concat] at hb
  simp only [perform, define_snd] at hb
  split at hb
  · exact (hk hb).concat (hsets k name) (hlands k name)
  · rename_i hfree
    refine holds_set (fun {j n d} _ hd => (hk hd).concat (hsets j n) (hlands j n)) ?_ hb
    exact holds_concat_define (fun hd => hfree (((told_grow hh).bound i other).mpr hd)) c

theorem set (hk : KeepsTo h) (i : Nat) (other : Text) (c : Binding) :
    KeepsTo (h ++ [.set i other c]) := by
  intro k name b hb
  rw [grow_concat] at hb
  refine holds_set (fun {j n d} hne hd => (hk hd).concat ?_ fun v hlands => ?_)
    (holds_concat_set h i other c) hb
  · rintro ⟨e, he⟩
    cases he
    exact hne.elim (fun h => h rfl) fun h => h rfl
  · obtain ⟨_, _, hassign, _⟩ := hlands
    cases hassign

/-- An assignment lands in the scope that the name means, or nowhere. -/
theorem assign (hh : Legal h) (hk : KeepsTo h) (i : Nat) (token : Token) (v : Value) :
    KeepsTo (h ++ [.assign i token v]) := by
  intro k name b hb
  have hsets (j : Nat) (n : Text) : ¬ (Operation.assign i token v).Sets j n := by
    rintro ⟨d, hd⟩
    cases hd
  rw [grow_concat] at hb
  simp only [perform] at hb
  split at hb
  · rename_i s' ha
    obtain ⟨l, old, hl, hold, -, -, rfl⟩ := assign_ok ha
    have hmeans : Means h token.lexeme i l := (resolve_iff hh).mp hl
    refine holds_set (fun {j n d} hne hd => (hk hd).concat (hsets j n) fun w hlands => ?_)
      ((hk hold).concat_assigned ⟨i, token, rfl, rfl, hmeans, _, ha⟩) hb
    obtain ⟨_, _, hassign, rfl, hmeans', _⟩ := hlands
    cases hassign
    exact hne.elim (fun h => h (hmeans'.unique hmeans)) fun h => h rfl
  · rename_i e ha
    refine (hk hb).concat (hsets k name) fun w hlands => ?_
    obtain ⟨_, _, hassign, _, _, s', ha'⟩ := hlands
    cases hassign
    rw [ha] at ha'
    cases ha'

end KeepsTo

/-- **The tree keeps to its history**, in its bindings. -/
theorem holds_grow {h : List Operation} (hh : Legal h) : KeepsTo h := by
  induction h using List.reverseRecOn with
  | nil => exact .nil
  | append_singleton h op ih =>
    obtain ⟨hh', -⟩ := hh.concat
    cases op with
    | child i => exact (ih hh').child i
    | define i name b => exact (ih hh').define hh' i name b
    | set i name b => exact (ih hh').set i name b
    | assign i token v => exact (ih hh').assign hh' i token v

/-! ## 5. Assignments -/

section Assign

variable (s : Scopes) (i : Nat) (name : Text)

theorem lookup_eq_bind : s.lookup i name = (s.resolve i name).bind fun k => s.get? k name := rfl

variable {s i} {token : Token} {v : Value}

/-- A name that is not found. -/
theorem assign_of_none (hb : s.lookup i token.lexeme = none) :
    s.assign i token v = .error ⟨.undefined token.lexeme, token⟩ := by
  rw [lookup_eq_bind] at hb
  unfold assign
  cases hk : s.resolve i token.lexeme with
  | none => rfl
  | some k =>
    have hnone : (s.frames[k]?.bind fun f => f.get? token.lexeme) = none := by
      rwa [hk] at hb
    simp only [hnone]

/-- The tests of an assignment, in their order. -/
theorem assign_of_some {k : Nat} {b : Binding} (hk : s.resolve i token.lexeme = some k)
    (hb : s.get? k token.lexeme = some b) :
    s.assign i token v =
      if b.isMutable = false then .error ⟨.immutable v.text, token⟩
      else if v.type ≠ b.type then .error ⟨.assignedType v.text b.type, token⟩
      else .ok (s.set k token.lexeme { b with value := v }) := by
  have hb' : (s.frames[k]?.bind fun f => f.get? token.lexeme) = some b := hb
  unfold assign
  simp only [hk, hb', Bool.not_eq_true']

end Assign

/-- The second tree is the first one with the binding `b` for the name in scope `k`. -/
structure Differs (s s' : Scopes) (k : Nat) (name : Text) (b : Binding) : Prop where
  size : s'.size = s.size
  parent (j : Nat) : s'.parent? j = s.parent? j
  self : s'.get? k name = some b
  others {j : Nat} {other : Text} : (j ≠ k ∨ other ≠ name) → s'.get? j other = s.get? j other

theorem differs_set {s : Scopes} {k : Nat} {name : Text} {old : Binding}
    (hold : s.get? k name = some old) (b : Binding) : Differs s (s.set k name b) k name b where
  size := size_set ..
  parent j := parent?_set s k j name b
  self := get?_set_self (lt_size_of_get?_eq_some hold) name b
  others := get?_set_ne b

/-- Names are found where they were before. -/
theorem Differs.resolve_eq {s s' : Scopes} {k : Nat} {name : Text} {old b : Binding}
    (hs : Differs s s' k name b) (hold : s.get? k name = some old) (i : Nat) (other : Text) :
    s'.resolve i other = s.resolve i other := by
  refine resolve_congr (fun j => ?_) hs.parent i
  by_cases hne : j ≠ k ∨ other ≠ name
  · rw [hs.others hne]
  · obtain ⟨rfl, rfl⟩ : j = k ∧ other = name := by simpa only [not_or, Decidable.not_not] using hne
    rw [hs.self, hold]
    rfl

/-! ## 6. The tree and its history -/

section Nearest

variable {h : List Operation} (hh : Legal h) {i : Nat} {name : Text}
include hh

theorem lookup_of_not_means (hnone : ∀ k, ¬ Means h name i k) : (grow h).lookup i name = none := by
  rw [lookup_eq_bind]
  cases hk : (grow h).resolve i name with
  | none => rfl
  | some k => exact (hnone k ((resolve_iff hh).mp hk)).elim

theorem lookup_of_means {k : Nat} (hk : Means h name i k) :
    ∃ b, (grow h).lookup i name = some b ∧ (grow h).get? k name = some b ∧ Holds h k name b := by
  obtain ⟨b, hb⟩ := Option.isSome_iff_exists.mp (((told_grow hh).bound k name).mpr hk.declared)
  refine ⟨b, ?_, hb, holds_grow hh hb⟩
  rw [lookup_eq_bind, (resolve_iff hh).mpr hk]
  exact hb

theorem means_of_lookup {b : Binding} (hb : (grow h).lookup i name = some b) :
    ∃ k, Means h name i k ∧ (grow h).get? k name = some b := by
  rw [lookup_eq_bind] at hb
  obtain ⟨k, hk, hb⟩ := Option.bind_eq_some_iff.mp hb
  exact ⟨k, (resolve_iff hh).mp hk, hb⟩

/-- The binding that an assignment changed is seen from the scopes in which the name means it, and
    from no other. -/
theorem Differs.lookup_eq {s' : Scopes} {k : Nat} {old b : Binding}
    (hs : Differs (grow h) s' k name b) (hold : (grow h).get? k name = some old) (j : Nat)
    (other : Text) :
    (other = name → Means h name j k → s'.lookup j other = some b) ∧
      ((other = name → ¬ Means h name j k) → s'.lookup j other = (grow h).lookup j other) := by
  rw [lookup_eq_bind, lookup_eq_bind, hs.resolve_eq hold]
  refine ⟨?_, fun hnot => ?_⟩
  · rintro rfl hj
    rw [(resolve_iff hh).mpr hj]
    exact hs.self
  · cases hl : (grow h).resolve j other with
    | none => rfl
    | some l =>
      refine hs.others (Decidable.or_iff_not_imp_right.mpr fun hname hlk => ?_)
      obtain rfl : other = name := Decidable.not_not.mp hname
      exact hnot rfl (hlk ▸ (resolve_iff hh).mp hl)

end Nearest

/-- **A name means its nearest declaration.** After every legal sequence of operations, a name is
    found in the nearest scope on the way outward in which it was ever declared. There it has the
    type and the mutability of the last setting, or of the first definition if it was never set,
    and the value assigned last since, or the one given there.

    An assignment fails for a name that is not found, then for a binding that cannot be changed,
    then for a value of another type, and what fails changes nothing. Otherwise it changes the
    binding that the name means; the scopes in which the name means that binding see it, and no
    others. A definition of a name that its scope binds already changes nothing. -/
theorem nearest_declaration {h : List Operation} (hh : Legal h) (i : Nat) :
    (∀ name k, (grow h).resolve i name = some k ↔ Means h name i k) ∧
    (∀ name, (∀ k, ¬ Means h name i k) → (grow h).lookup i name = none) ∧
    (∀ name k, Means h name i k →
      ∃ b, (grow h).lookup i name = some b ∧ (grow h).get? k name = some b ∧ Holds h k name b) ∧
    (∀ (token : Token) (v : Value),
      ((grow h).lookup i token.lexeme = none →
        (grow h).assign i token v = .error ⟨.undefined token.lexeme, token⟩) ∧
      ∀ b, (grow h).lookup i token.lexeme = some b →
        (b.isMutable = false → (grow h).assign i token v = .error ⟨.immutable v.text, token⟩) ∧
        (b.isMutable = true → v.type ≠ b.type →
          (grow h).assign i token v = .error ⟨.assignedType v.text b.type, token⟩) ∧
        (b.isMutable = true → v.type = b.type →
          ∃ s' k, (grow h).assign i token v = .ok s' ∧ Means h token.lexeme i k ∧
            Differs (grow h) s' k token.lexeme { b with value := v } ∧
            ∀ j other,
              (other = token.lexeme → Means h token.lexeme j k →
                s'.lookup j other = some { b with value := v }) ∧
              ((other = token.lexeme → ¬ Means h token.lexeme j k) →
                s'.lookup j other = (grow h).lookup j other))) ∧
    (∀ token v fault, (grow h).assign i token v = .error fault →
      grow (h ++ [.assign i token v]) = grow h) ∧
    (∀ name b, (Declared h i name → (grow h).define i name b = (false, grow h)) ∧
      (¬ Declared h i name → (grow h).define i name b = (true, (grow h).set i name b))) := by
  refine ⟨fun name k => resolve_iff hh, fun name => lookup_of_not_means hh,
    fun name k => lookup_of_means hh, fun token v => ⟨assign_of_none, fun b hb => ?_⟩,
    fun token v fault hfault => ?_, fun name b => ?_⟩
  · obtain ⟨k, hk, hbound⟩ := means_of_lookup hh hb
    have hassign := assign_of_some (v := v) ((resolve_iff hh).mpr hk) hbound
    refine ⟨fun hmut => ?_, fun hmut htype => ?_, fun hmut htype => ?_⟩
    · rw [hassign, if_pos hmut]
    · rw [hassign, if_neg (by simp [hmut]), if_pos htype]
    · rw [if_neg (by simp [hmut]), if_neg (fun hne => hne htype)] at hassign
      have hdiffers := differs_set hbound { b with value := v }
      exact ⟨_, k, hassign, hk, hdiffers, hdiffers.lookup_eq hh hbound⟩
  · simp only [grow_concat, perform, hfault]
  · have hbound : (grow h).bindsHere i name = true ↔ Declared h i name := by
      rw [bindsHere_eq_isSome]
      exact (told_grow hh).bound i name
    unfold define
    exact ⟨fun hd => if_pos (hbound.mpr hd), fun hd => if_neg fun hb => hd (hbound.mp hb)⟩

/-- An integer in the outermost scope and a text of the same name in scope 1, assigned from the
    scopes 1, 2 and 3, of which the last one is inside scope 1. The second definition of the text
    and the first assignment from scope 3 have no effect. -/
def shadowed : List Operation :=
  let x : Token := ⟨.identifier, utf8 "x", none, .start⟩
  [.child 0, .child 0, .child 1,
   .define 0 x.lexeme ⟨.base .int, .int 1, true⟩, .assign 1 x (.int 2),
   .define 1 x.lexeme ⟨.base .string, .string (utf8 "a"), true⟩,
   .define 1 x.lexeme ⟨.base .bool, .bool true, false⟩,
   .assign 3 x (.int 3), .assign 3 x (.string (utf8 "b")), .assign 2 x (.int 4)]

/-- From scope 3 the name means the text, from scope 2 the integer, each with what was assigned to
    it last. -/
theorem shadowed_means :
    Legal shadowed ∧ Means shadowed (utf8 "x") 3 1 ∧ Means shadowed (utf8 "x") 2 0 ∧
      (∃ b, (grow shadowed).lookup 3 (utf8 "x") = some b ∧ Holds shadowed 1 (utf8 "x") b ∧
        b.value = .string (utf8 "b")) ∧
      (∃ b, (grow shadowed).lookup 2 (utf8 "x") = some b ∧ Holds shadowed 0 (utf8 "x") b ∧
        b.value = .int 4) := by
  have hh : Legal shadowed := by decide +kernel
  obtain ⟨hmeans, -, hfound, -⟩ := nearest_declaration hh 3
  obtain ⟨hmeans', -, hfound', -⟩ := nearest_declaration hh 2
  have hinner : Means shadowed (utf8 "x") 3 1 := (hmeans _ _).mp (by decide +kernel)
  have houter : Means shadowed (utf8 "x") 2 0 := (hmeans' _ _).mp (by decide +kernel)
  obtain ⟨b, hb, -, hholds⟩ := hfound _ _ hinner
  obtain ⟨b', hb', -, hholds'⟩ := hfound' _ _ houter
  refine ⟨hh, hinner, houter, ⟨b, hb, hholds, ?_⟩, ⟨b', hb', hholds', ?_⟩⟩
  · rw [show (grow shadowed).lookup 3 (utf8 "x") =
      some ⟨.base .string, .string (utf8 "b"), true⟩ by rfl] at hb
    rw [← Option.some.inj hb]
  · rw [show (grow shadowed).lookup 2 (utf8 "x") = some ⟨.base .int, .int 4, true⟩ by rfl] at hb'
    rw [← Option.some.inj hb']

end FencedCode.Scopes
