import FencedCode.Proofs.Machine.Simulation

/-!
# Deeper calls

How deep calls may nest is up to the host. A run that stays within a limit does not notice it: under
a larger limit it does the same. A run that goes beyond it fails there, and what it has written
until then is also written under the larger limit. The same holds of the steps that a run is
granted, so that it makes sense to say how a program ends.

* `nesting_simulation` -- runs under two limits, or with different numbers of steps, side by side;
* `Machine.Halts`, `Halts.unique` -- how a program ends, whatever it is granted;
* `raised_limit_conservative` -- **raising the limit is conservative**.
-/

namespace FencedCode

open Exec Machine

/-! ## 1. Two limits -/

/-- The failure is that calls nest too deep. -/
def Failure.Overflows (e : Failure) : Prop :=
  ∃ f, e = .fault f ∧ f.kind = .stackOverflow

theorem Failure.Overflows.locate {e : Failure} (he : e.Overflows) (t : Token) :
    (e.locate t).Overflows := by
  obtain ⟨f, rfl, hkind⟩ := he
  have hkept : (f.locate t).kind = f.kind := by
    unfold Fault.locate
    split <;> rfl
  exact ⟨f.locate t, rfl, hkept.trans hkind⟩

theorem Failure.overflows_depth (name : Text) : Overflows (.fault (.unplaced (.depth name))) :=
  ⟨_, rfl, rfl⟩

theorem Failure.overflows_of_kind {e : Failure}
    (he : e.fault?.map Fault.kind = some .stackOverflow) : e.Overflows := by
  cases e with
  | fault f => exact ⟨f, rfl, Option.some.inj he⟩
  | _ => cases he

/-- **Two runs from one machine under two limits are the same run**, up to where the first one gives
    up. -/
theorem nesting_simulation {h : Host} {d d' : Int} {X : Failure → Prop}
    (hlocate : ∀ {e}, X e → ∀ t, X (e.locate t))
    (hlimit : ∀ depth, (({ h with maxDepth := d } : Host).limit ≤ depth ↔
        ({ h with maxDepth := d' } : Host).limit ≤ depth) ∨
      (({ h with maxDepth := d } : Host).limit ≤ depth ∧
        ∀ name, X (.fault (.unplaced (.depth name))))) :
    Simulation { h with maxDepth := d } { h with maxDepth := d' } X Eq := by
  have same {α : Type} (p : Exec α) : Alike Eq p p := by
    rintro m _ rfl
    exact ⟨rfl, rfl⟩
  constructor
  case tick =>
    rintro m _ rfl
    exact ⟨rfl, rfl⟩
  case behind => exact fun _ hm => .of_eq (by rw [hm])
  case locate => exact hlocate
  case limit =>
    rintro m _ rfl
    exact hlimit m.depth
  case write => exact fun t hm => congrArg (·.write t) hm
  case probe =>
    exact fun v hm => congrArg (fun m : Machine => { m with probes := v :: m.probes }) hm
  case log =>
    rintro m _ e rfl
    rfl
  case read =>
    rintro m _ rfl
    exact .inl ⟨rfl, rfl⟩
  case value => exact fun name => same _
  case assign => exact fun name v => same _
  case declare => exact fun type name v isMutable => same _
  case function => exact fun f => same _
  case enterBlock =>
    rintro m _ rfl
    rfl
  case enterCall =>
    rintro m _ frame _ rfl
    rfl
  case leave =>
    rintro m _ m' _ rfl rfl _ _
    rfl
  case ascend => exact fun hm => congrArg ascend hm

/-- With more steps a run does the same, unless it has used up those that it had. -/
theorem steps_simulation (h : Host) : Simulation h h (· = .exhausted) Eq :=
  @nesting_simulation h h.maxDepth h.maxDepth _ (fun he t => by rw [he]; rfl)
    fun _ => .inl Iff.rfl

/-- Under a larger limit, and with more steps, a run does the same unless its calls nest too deep or
    its steps are used up. -/
theorem limit_simulation {h : Host} {d d' : Int}
    (hle : ({ h with maxDepth := d } : Host).limit ≤ ({ h with maxDepth := d' } : Host).limit) :
    Simulation { h with maxDepth := d } { h with maxDepth := d' }
      (fun e => e = .exhausted ∨ e.Overflows) Eq := by
  refine nesting_simulation (fun {e} he t => ?_) fun depth => ?_
  · rcases he with rfl | he
    · exact .inl rfl
    · exact .inr (he.locate t)
  · by_cases hdepth : ({ h with maxDepth := d } : Host).limit ≤ depth
    · exact .inr ⟨hdepth, fun name => .inr (Failure.overflows_depth name)⟩
    · exact .inl ⟨fun hd => absurd hd hdepth, fun hd' => Nat.le_trans hle hd'⟩

/-! ## 2. Runs that end -/

namespace Machine

variable {h : Host} {program : List Stmt} {m : Machine}

/-- The program, started on machine `m`, ends with result `r` and leaves `m'` behind. It is granted
    as many steps as it takes. -/
def Halts (h : Host) (program : List Stmt) (m : Machine) (r : Except Failure Unit)
    (m' : Machine) : Prop :=
  r ≠ .error .exhausted ∧ ∃ steps, execute h steps program m = (r, m')

theorem halts_of_execute {n : Nat} (hr : (execute h n program m).1 ≠ .error .exhausted) :
    Halts h program m (execute h n program m).1 (execute h n program m).2 :=
  ⟨hr, n, rfl⟩

/-- **A run that has ended does the same with more steps.** -/
theorem execute_of_le {n n' : Nat} {r : Except Failure Unit} {m' : Machine} (hle : n ≤ n')
    (hr : r ≠ .error .exhausted) (hrun : execute h n program m = (r, m')) :
    execute h n' program m = (r, m') := by
  have hmore := (steps_simulation h).execute hle (fun _ => rfl) program
    (rfl : m.rested = m.rested)
  rw [hrun] at hmore
  rcases hmore with ⟨hresult, hmachine⟩ | ⟨e, rfl, hresult, _⟩
  · exact (Prod.ext hresult hmachine).symm
  · exact absurd hresult hr

/-- **A program ends in one way at most.** -/
theorem Halts.unique {r r' : Except Failure Unit} {m₁ m₂ : Machine} (he : Halts h program m r m₁)
    (he' : Halts h program m r' m₂) : r = r' ∧ m₁ = m₂ := by
  obtain ⟨hr, n, hrun⟩ := he
  obtain ⟨hr', n', hrun'⟩ := he'
  have hmore := execute_of_le (Nat.le_max_left n n') hr hrun
  have hmore' := execute_of_le (Nat.le_max_right n n') hr' hrun'
  exact Prod.mk.inj (hmore.symm.trans hmore')

end Machine

/-! ## 3. Raising the limit -/

/-- **Raising the limit on nested calls is conservative.** From every machine and for every program:

    * if the run under the smaller limit ends with anything but a stack overflow, the run under the
      larger one ends with the same result and leaves the same machine behind, with the same output,
      the same input left and the same bindings;
    * if the run under the smaller limit ends with a stack overflow, then whenever the run under the
      larger one ends, the output of the first is the beginning of its output. -/
theorem raised_limit_conservative {h : Host} {d d' : Int}
    (hle : ({ h with maxDepth := d } : Host).limit ≤ ({ h with maxDepth := d' } : Host).limit)
    (program : List Stmt) (m : Machine) :
    (∀ r m', Halts { h with maxDepth := d } program m r m' →
      (∀ e, r = .error e → ¬ e.Overflows) → Halts { h with maxDepth := d' } program m r m') ∧
    (∀ e m₁ r m₂, Halts { h with maxDepth := d } program m (.error e) m₁ → e.Overflows →
      Halts { h with maxDepth := d' } program m r m₂ → m₁.written <+: m₂.written) := by
  have hstart : m.rested = m.rested :=
    rfl
  have hgives {n n' : Nat} :
      n < n' → Failure.exhausted = .exhausted ∨ Failure.exhausted.Overflows :=
    fun _ => .inl rfl
  constructor
  · rintro r m' ⟨hr, n, hrun⟩ hoverflow
    have hraised := (limit_simulation hle).execute (Nat.le_refl n) hgives program hstart
    rw [hrun] at hraised
    rcases hraised with ⟨hresult, hmachine⟩ | ⟨e, he, hresult, _⟩
    · exact ⟨hr, n, (Prod.ext hresult hmachine).symm⟩
    · obtain rfl : r = .error e := hresult
      rcases he with rfl | he
      · exact absurd rfl hr
      · exact absurd he (hoverflow e rfl)
  · rintro e m₁ r m₂ ⟨_, n, hrun⟩ _ ⟨hr, n', hrun'⟩
    -- the second run is granted at least as many steps as the first one
    have hmore := execute_of_le (Nat.le_max_right n n') hr hrun'
    have hraised := (limit_simulation hle).execute (Nat.le_max_left n n') hgives program hstart
    rw [hrun, hmore] at hraised
    rcases hraised with ⟨_, hmachine⟩ | ⟨_, _, _, hwrote⟩
    · obtain rfl : m₁ = m₂ := hmachine
      exact List.prefix_rfl
    · exact hwrote.written

/-- A program that counts down from two, one call deeper for each number: `FN down(INT n) BEGIN FN
    DISPLAY: n; IF (n > 0) BEGIN IF down(n - 1) END IF END FN BEGIN CODE down(2) END CODE`. -/
def countdownProgram : List Stmt :=
  let word (k : Kind) : Token := ⟨k, k.label, none, .start⟩
  let name (w : String) : Token := ⟨.identifier, utf8 w, none, .start⟩
  let number (n : Int64) : Expr := .literal ⟨.intLit, [], some (.int n), .start⟩
  let down (e : Expr) : Stmt := .expression (.call (.ref (name "down")) (word .rightParen) [e])
  let n : Expr := .ref (name "n")
  [.function (name "down") [⟨⟨.int, word (.type .int)⟩, name "n"⟩]
    [.display (word .kwDisplay) n,
     .conditional (word .kwIf) (.binary n (word .greater) (number 0))
       [down (.binary n (word .minus) (number 1))] .done] none,
   down (number 2)]

/-- Counting down goes three calls deep. With two it overflows behind the second number, with three
    it ends. -/
theorem countdownProgram_overflows_prefix :
    let start : Machine := .standard .empty
    let shallow := execute { maxDepth := 2 } 50 countdownProgram start
    let deep := execute { maxDepth := 3 } 50 countdownProgram start
    ({ maxDepth := 2 } : Host).limit ≤ ({ maxDepth := 3 } : Host).limit ∧
      shallow.2.written = utf8 "2\n1\n" ∧ deep.2.written = utf8 "2\n1\n0\n" ∧
      Halts { maxDepth := 3 } countdownProgram start deep.1 deep.2 ∧
      (∃ e, e.Overflows ∧ Halts { maxDepth := 2 } countdownProgram start (.error e) shallow.2) ∧
      shallow.2.written <+: deep.2.written := by
  intro start shallow deep
  have hle : ({ maxDepth := 2 } : Host).limit ≤ ({ maxDepth := 3 } : Host).limit := by decide
  have hdeep : Halts { maxDepth := 3 } countdownProgram start deep.1 deep.2 := by
    have hok : deep.1.isOk = true := by decide +kernel
    refine halts_of_execute fun hr => ?_
    rw [hr] at hok
    cases hok
  have hkind : (match shallow.1 with
      | .ok _ => none
      | .error e => e.fault?.map Fault.kind) = some .stackOverflow := by decide +kernel
  obtain ⟨e, hresult, he⟩ : ∃ e, shallow.1 = .error e ∧ e.Overflows := by
    rcases hresult : shallow.1 with e | u
    · rw [hresult] at hkind
      exact ⟨e, rfl, Failure.overflows_of_kind hkind⟩
    · rw [hresult] at hkind
      cases hkind
  have hshallow : Halts { maxDepth := 2 } countdownProgram start (.error e) shallow.2 := by
    rw [← hresult]
    refine halts_of_execute fun hr => ?_
    obtain ⟨f, rfl, _⟩ := he
    cases hresult.symm.trans hr
  exact ⟨hle, by decide +kernel, by decide +kernel, hdeep, ⟨e, he, hshallow⟩,
    (raised_limit_conservative (h := {}) hle countdownProgram start).2 _ _ _ _ hshallow he hdeep⟩

end FencedCode
