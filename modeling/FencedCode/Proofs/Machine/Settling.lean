import FencedCode.Proofs.Machine.Conduct
import FencedCode.Proofs.Machine.Resemblance

/-!
# Runs that are granted enough

Two trees that resemble each other need different numbers of steps. So a run of the first one with
the steps that it has is compared with the runs of the second one that have enough: from some number
of steps on these all end in one way.

* `Exec.Settles` -- how a run ends that is granted enough steps, with a law for each way of putting
  steps together;
* `Exec.Matches` -- the first run uses up its steps, or the second one settles on a like end;
* `Exec.Matches.bind` -- **steps that match do so one after another**.
-/

namespace FencedCode.Exec

/-! ## 1. Settling -/

/-- Granted enough steps, the run ends with the result and the machine. -/
def Settles {α : Type} (q : Nat → Exec α) (m : Machine) (y : Except Failure α × Machine) : Prop :=
  ∃ enough, ∀ n, enough ≤ n → q n m = y

section Settles

variable {α β : Type} {q : Nat → Exec α} {m m' : Machine}

theorem settles_const (p : Exec α) (m : Machine) : Settles (fun _ => p) m (p m) :=
  ⟨0, fun _ _ => rfl⟩

/-- The first step of a run is not counted. -/
theorem Settles.of_succ {y : Except Failure α × Machine} (h : Settles (fun n => q (n + 1)) m y) :
    Settles q m y := by
  obtain ⟨enough, hq⟩ := h
  refine ⟨enough + 1, fun n hn => ?_⟩
  obtain ⟨k, rfl⟩ : ∃ k, n = k + 1 := ⟨n - 1, by omega⟩
  exact hq k (Nat.le_of_succ_le_succ hn)

theorem Settles.bind {g : Nat → α → Exec β} {a : α} {y : Except Failure β × Machine}
    (hq : Settles q m (.ok a, m')) (hg : Settles (fun n => g n a) m' y) :
    Settles (fun n => q n >>= g n) m y := by
  obtain ⟨enough, hq⟩ := hq
  obtain ⟨enough', hg⟩ := hg
  refine ⟨max enough enough', fun n hn => ?_⟩
  have hfirst : q n m = (.ok a, m') := hq n (Nat.le_trans (Nat.le_max_left ..) hn)
  have hsecond : g n a m' = y := hg n (Nat.le_trans (Nat.le_max_right ..) hn)
  exact (bind_of_ok hfirst).trans hsecond

theorem Settles.bind_error {g : Nat → α → Exec β} {x : Failure}
    (hq : Settles q m (.error x, m')) : Settles (fun n => q n >>= g n) m (.error x, m') := by
  obtain ⟨enough, hq⟩ := hq
  exact ⟨enough, fun n hn => bind_of_error (hq n hn)⟩

/-- One number of steps is enough for both of two runs. -/
theorem Settles.both {q' : Nat → Exec β} {m₂ : Machine} {y : Except Failure α × Machine}
    {y' : Except Failure β × Machine} (hq : Settles q m y) (hq' : Settles q' m₂ y') :
    ∃ n, q n m = y ∧ q' n m₂ = y' := by
  obtain ⟨enough, hq⟩ := hq
  obtain ⟨enough', hq'⟩ := hq'
  exact ⟨max enough enough', hq _ (Nat.le_max_left ..), hq' _ (Nat.le_max_right ..)⟩

end Settles

/-! ## 2. Matching -/

variable {R : Resemblance} {M : Machine → Machine → Prop} {α β α' β' : Type}

/-- The first run, from the first machine, uses up the steps that it has, or the second one, from
    the second machine, settles on an end that is like it. -/
def Matches (R : Resemblance) (M : Machine → Machine → Prop) (A : α → α' → Prop) (p : Exec α)
    (q : Nat → Exec α') (m₁ m₂ : Machine) : Prop :=
  (p m₁).1 = .error .exhausted ∨
    ∃ y, Settles q m₂ y ∧ Outcome R A (p m₁).1 y.1 ∧ M (p m₁).2 y.2

section Matches

variable {A : α → α' → Prop} {B : β → β' → Prop} {p : Exec α} {q : Nat → Exec α'}
  {m₁ m₂ : Machine}

theorem matches_exhausted : Matches R M A (fail .exhausted) q m₁ m₂ :=
  .inl rfl

/-- Steps that do not go deeper match if they end alike. -/
theorem matches_const {p' : Exec α'} (hresult : Outcome R A (p m₁).1 (p' m₂).1)
    (hm : M (p m₁).2 (p' m₂).2) : Matches R M A p (fun _ => p') m₁ m₂ :=
  .inr ⟨p' m₂, settles_const p' m₂, hresult, hm⟩

theorem matches_pure {a : α} {a' : α'} (ha : A a a') (hm : M m₁ m₂) :
    Matches R M A (pure a) (fun _ => pure a') m₁ m₂ :=
  matches_const (.ok ha) hm

theorem matches_fail {x x' : Failure} (hx : x.Like R x') (hm : M m₁ m₂) :
    Matches R M A (fail x) (fun _ => fail x') m₁ m₂ :=
  matches_const (.error hx) hm

theorem matches_lift {r : Except Failure α} {r' : Except Failure α'} (hr : Outcome R A r r')
    (hm : M m₁ m₂) : Matches R M A (lift r) (fun _ => lift r') m₁ m₂ :=
  matches_const hr hm

theorem Matches.of_succ (h : Matches R M A p (fun n => q (n + 1)) m₁ m₂) :
    Matches R M A p q m₁ m₂ := by
  rcases h with hexhausted | ⟨y, hsettles, hend⟩
  · exact .inl hexhausted
  · exact .inr ⟨y, hsettles.of_succ, hend⟩

/-- **Steps that match do so one after another.** The second ones only have to match where the
    first ones lead. -/
theorem Matches.bind {f : α → Exec β} {g : Nat → α' → Exec β'} (hpq : Matches R M A p q m₁ m₂)
    (hfg : ∀ {a a' n₁ n₂}, A a a' → M n₁ n₂ → p m₁ = (.ok a, n₁) → Settles q m₂ (.ok a', n₂) →
      Matches R M B (f a) (fun n => g n a') n₁ n₂) :
    Matches R M B (p >>= f) (fun n => q n >>= g n) m₁ m₂ := by
  rcases hrun : p m₁ with ⟨x | a, n₁⟩
  · have hfirst : (p >>= f) m₁ = (.error x, n₁) := bind_of_error hrun
    unfold Matches at hpq ⊢
    rw [hrun] at hpq
    rw [hfirst]
    rcases hpq with hexhausted | ⟨⟨r, n₂⟩, hsettles, hresult, hm⟩
    · exact .inl (congrArg Except.error (Except.error.inj hexhausted))
    · cases hresult with
      | error hx => exact .inr ⟨_, hsettles.bind_error, .error hx, hm⟩
  · have hfirst : (p >>= f) m₁ = f a n₁ := bind_of_ok hrun
    unfold Matches at hpq
    rw [hrun] at hpq
    rcases hpq with hexhausted | ⟨⟨r, n₂⟩, hsettles, hresult, hm⟩
    · cases hexhausted
    · cases hresult with
      | ok ha =>
        have hnext := hfg ha hm hrun hsettles
        unfold Matches at hnext ⊢
        rw [hfirst]
        rcases hnext with hexhausted | ⟨y, hsettles', hend⟩
        · exact .inl hexhausted
        · exact .inr ⟨y, hsettles.bind hsettles', hend⟩

/-- A fault without a place gets one on both sides. -/
theorem Matches.located {t t' : Token} (ht : R.token t t') (hpq : Matches R M A p q m₁ m₂) :
    Matches R M A (located t p) (fun n => located t' (q n)) m₁ m₂ := by
  unfold Matches
  rw [located_run]
  rcases hpq with hexhausted | ⟨y, ⟨enough, hq⟩, hresult, hm⟩
  · rw [hexhausted]
    exact .inl rfl
  · have hsettles : Settles (fun n => Exec.located t' (q n)) m₂
        (y.1.mapError fun x => x.locate t', y.2) := by
      refine ⟨enough, fun n hn => ?_⟩
      show Exec.located t' (q n) m₂ = _
      rw [located_run, hq n hn]
    refine .inr ⟨_, hsettles, ?_, hm⟩
    generalize (p m₁).1 = r at hresult ⊢
    generalize y.1 = r' at hresult ⊢
    cases hresult with
    | ok ha => exact .ok ha
    | error hx => exact .error (hx.locate ht)

end Matches

end FencedCode.Exec
