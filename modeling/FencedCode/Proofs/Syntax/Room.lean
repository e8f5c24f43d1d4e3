import FencedCode.Proofs.Syntax.Progress

/-!
# Room enough

Every call is made with fewer tokens ahead, or by a rule of a higher rank. So sixteen levels of room
for each token that is left, and a few more, are enough: with more room nothing is read differently,
and no rule ever complains that it has none.

* `Script.run_congr` -- scripts do the same if the rules they call do;
* `Rule.run_room` -- **all rooms that are large enough read the same**, by induction on the measure
  of what is at work;
* `program_room` -- and so for programs.
-/

namespace FencedCode

open Grammar

namespace Grammar

/-- A script does the same with two rooms if all that it calls does. -/
theorem Script.run_congr {α : Type} {room room' : Nat} {s : Script α} {c : Cursor}
    (hcalls : ∀ A : Activation, s.Enters room A c →
      A.rule.run room' A.given A.cursor = A.rule.run room A.given A.cursor) :
    s.run room' c = s.run room c := by
  induction s generalizing c with
  | done a => rfl
  | failed => rfl
  | look next ih => exact ih c.current hcalls
  | lookNext next ih => exact ih c.next hcalls
  | lookBack next ih => exact ih c.previous hcalls
  | skip next ih => exact ih hcalls
  | complain t e next ih => exact ih hcalls
  | call r given next ih =>
    have hsame : r.run room' given c = r.run room given c := hcalls ⟨room, r, given, c⟩ (.inl rfl)
    show (next (r.run room' given c).1).run room' (r.run room' given c).2 = _
    rw [hsame]
    exact ih _ fun A hA => hcalls A (.inr hA)

/-- With more room than its measure a rule at work does the same. -/
theorem Activation.Roomy.run_add_one : ∀ {n : Nat} {A : Activation}, A.measure < n → A.Roomy →
    A.rule.run (A.room + 1) A.given A.cursor = A.rule.run A.room A.given A.cursor
  | 0, _, hn, _ => absurd hn (Nat.not_lt_zero _)
  | n + 1, A, hn, hA => by
    obtain ⟨inner, hbelow⟩ := hA.below
    rw [Rule.run_eq hbelow, Rule.run_eq (Rule.below_add_one hbelow)]
    refine Script.run_congr fun B hB => ?_
    have hcall : A.Enters B := ⟨inner, hbelow, hB⟩
    have hlt := (hA.toSound.enters hcall).2
    have hroom : B.room = inner := Script.enters_room hB
    have hsame := run_add_one (Nat.lt_of_lt_of_le hlt (Nat.le_of_lt_succ hn)) (hA.enters hcall)
    rwa [hroom] at hsame

end Grammar

/-- **All rooms that are large enough read the same.** -/
theorem Grammar.Rule.run_room {r : Rule} (hr : r ≠ .block) (given : r.Given) {room room' : Nat}
    {c : Cursor} (hc : c.Closed) (hroom : 16 * c.rest.length + r.rank ≤ room)
    (hle : room ≤ room') : r.run room' given c = r.run room given c := by
  induction hle with
  | refl => rfl
  | @step n hle ih =>
    have hroomy : Activation.Roomy ⟨n, r, given, c⟩ :=
      ⟨⟨hc, fun hblock => absurd hblock hr⟩, Nat.le_trans hroom hle⟩
    exact (hroomy.run_add_one (Nat.lt_succ_self _)).trans ih

/-- **All rooms that are large enough read the same program.** -/
theorem program_room {room room' : Nat} {c : Cursor} (hc : c.Closed)
    (hroom : 16 * c.rest.length + 15 ≤ room) (hle : room ≤ room') :
    program room' c = program room c :=
  Rule.run_room (r := .program) nofun () hc hroom hle

end FencedCode
