import FencedCode.Proofs.Syntax.Unfinished
import FencedCode.Proofs.Token.Standing

/-!
# Programs end with their last fence

A program is over with the `END CODE` that closes it, and nothing may come behind it. So what comes
before this line is no program yet: of two programs, one of which begins with the other, none is
longer.

* `Sealed` -- a step that accepts no two texts one of which begins with the other;
* `Sealed.bind` -- it may have any steady step before it;
* `program_sealed`, `Program.eq_of_accepted` -- **no program begins with another one**;
* `Program.cut_before_last_line` -- **the lines of a program before its last one are incomplete.**
-/

namespace FencedCode

open Parse Grammar

/-! ## 1. Sealed steps -/

/-- A steady step that wants a token, and that reads a text without a complaint only up to where a
    shorter text ends that it reads without a complaint as well. -/
structure Sealed {α : Type} (p : Parse α) : Prop extends Steady p where
  wants {c : Cursor} : c.AtEnd → (p c).2.reported ≠ []
  ends {post : List Token} {c c' : Cursor} : post ≠ [] → Cursor.Cut post c c' →
    (p c).2.reported = [] → (p c').2.reported = [] → (p c).2.tokens = post ∧ (p c).2.AtEnd

section Steps

variable {α β : Type}

/-- **A sealed step may have a steady one before it**, which hands on only what has `A` if it has no
    complaint. -/
theorem Sealed.bind {A : α → Prop} {p : Parse α} {f : α → Parse β} (hp : Steady p)
    (hf : ∀ a, Steady (f a)) (hA : ∀ {c a}, (p c).1 = some a → (p c).2.reported = [] → A a)
    (hsealed : ∀ a, A a → Sealed (f a)) : Sealed (p >>= f) := by
  refine ⟨hp.bind hf, fun {c} hend hclean => ?_, fun {post c c'} hpost hcut hclean hclean' => ?_⟩
  · obtain ⟨a, ha, hfirst, hsecond⟩ := hp.bind_clean hf hclean
    exact (hsealed a (hA ha hfirst)).wants (hp.ending hend).1 hsecond
  · obtain ⟨a, ha, hfirst, hsecond⟩ := hp.bind_clean hf hclean'
    have hseal := hsealed a (hA ha hfirst)
    have hopen : ¬ (p c').2.AtEnd := fun hend => hseal.wants hend hsecond
    obtain ⟨hresult, hcut⟩ := hp.alike hcut hopen
    rw [Parse.bind_some (hresult.trans ha)] at hclean ⊢
    exact hseal.ends hpost hcut hclean hsecond

/-- A sealed step behind a steady one, whatever that one hands on. -/
theorem Sealed.behind {p : Parse α} {f : α → Parse β} (hp : Steady p)
    (hsealed : ∀ a, Sealed (f a)) : Sealed (p >>= f) :=
  Sealed.bind (A := fun _ => True) hp (fun a => (hsealed a).toSteady) (fun _ _ => trivial)
    fun a _ => hsealed a

theorem kind_of_fence {k : Kind} {e : SyntaxError} {c : Cursor}
    (hclean : (fence k e c).2.reported = []) : c.current.kind = k := by
  by_cases hk : c.current.kind = k
  · exact hk
  · rw [fence_of_ne hk] at hclean
    cases hclean

/-- A fence without a complaint is there. -/
theorem fence_clean {k : Kind} {e : SyntaxError} {c : Cursor} {found : Bool}
    (hfound : (fence k e c).1 = some found) (hclean : (fence k e c).2.reported = []) :
    found = true := by
  rw [fence_of_kind (kind_of_fence hclean)] at hfound
  exact (Option.some.inj hfound).symm

/-- A sealed step behind a fence, without which the rule gives up. -/
theorem Sealed.fenced {k : Kind} {e : SyntaxError} {p q : Parse α} (hq : Steady q)
    (hsealed : Sealed p) :
    Sealed (fence k e >>= fun found => if (!found) = true then q else p) := by
  refine Sealed.bind (A := (· = true)) (steady_fence k e)
    (fun _ => steady_ite hq hsealed.toSteady) fence_clean ?_
  rintro found rfl
  exact hsealed

end Steps

/-! ## 2. Programs -/

/-- The check that nothing comes behind a program. -/
def programEnd (ss : List Stmt) : Parse (List Stmt) :=
  peek >>= fun t => if t.kind ≠ .eof then complain t .nothingAfterProgram >>= fun _ => pure ss
    else pure ss

theorem programEnd_of_ne {c : Cursor} (hk : c.current.kind ≠ .eof) (ss : List Stmt) :
    programEnd ss c = (some ss, c.report c.current .nothingAfterProgram) := by
  show (if c.current.kind ≠ .eof then _ else _ : Parse (List Stmt)) c = _
  rw [if_pos hk]
  rfl

theorem programEnd_of_atEnd {c : Cursor} (hend : c.AtEnd) (ss : List Stmt) :
    programEnd ss c = (some ss, c) := by
  show (if c.current.kind ≠ .eof then _ else _ : Parse (List Stmt)) c = _
  have hk : c.current.kind = .eof := hend
  rw [if_neg (not_not_intro hk)]
  rfl

theorem atEnd_of_programEnd {c : Cursor} {ss : List Stmt}
    (hclean : (programEnd ss c).2.reported = []) : c.AtEnd := by
  by_cases hk : c.current.kind = .eof
  · exact hk
  · rw [programEnd_of_ne hk] at hclean
    cases hclean

/-- The last fence, behind which nothing may come, is sealed. -/
theorem sealed_lastFence {k : Kind} (hk : k ≠ .eof) (e : SyntaxError) (ss : List Stmt) :
    Sealed (fence k e >>= fun found => if (!found) = true then pure ss else programEnd ss) := by
  have hrest (found : Bool) : Steady (if (!found) = true then pure ss else programEnd ss) :=
    steady_ite (steady_pure ss) (steady_programEnd ss)
  -- without a complaint, the fence is there and the text ends behind it
  have hparts {c : Cursor} (hclean : ((fence k e >>= fun found =>
      if (!found) = true then pure ss else programEnd ss) c).2.reported = []) :
      c.current.kind = k ∧ c.advance.AtEnd ∧ (fence k e >>= fun found =>
        if (!found) = true then pure ss else programEnd ss) c = (some ss, c.advance) := by
    obtain ⟨found, hfound, hfirst, hsecond⟩ := (steady_fence k e).bind_clean hrest hclean
    have hkind := kind_of_fence hfirst
    obtain rfl := fence_clean hfound hfirst
    rw [Parse.bind_some hfound]
    rw [fence_of_kind hkind] at hsecond ⊢
    have hend := atEnd_of_programEnd hsecond
    exact ⟨hkind, hend, programEnd_of_atEnd hend ss⟩
  refine ⟨(steady_fence k e).bind hrest, fun {c} hend hclean => ?_,
    fun {post c c'} hpost hcut hclean hclean' => ?_⟩
  · exact hk ((hparts hclean).1.symm.trans hend)
  · obtain ⟨hkind, hend, hrun⟩ := hparts hclean
    obtain ⟨_, hend', _⟩ := hparts hclean'
    rw [hrun]
    refine ⟨?_, hend⟩
    obtain ⟨ahead, last, hne, hopen, _, hc, hc'⟩ := hcut.tokens
    have hnot' : c'.current.kind ≠ .eof := hcut.not_atEnd
    rcases ahead with _ | ⟨t, _ | ⟨u, ahead⟩⟩
    · exact absurd rfl hne
    · -- the shorter text has only the fence left, the longer one has `post` behind it
      obtain ⟨v, rest, rfl⟩ := List.exists_cons_of_ne_nil hpost
      have hrest : c.rest = v :: rest := (List.cons.inj hc).2
      rw [Cursor.advance_of_cons hrest (by rw [hcut.current]; exact hnot')]
      rfl
    · have hrest' : c'.rest = u :: (ahead ++ [last]) := (List.cons.inj hc').2
      rw [Cursor.advance_of_cons hrest' hnot'] at hend'
      exact absurd hend' (hopen u (List.mem_cons_of_mem _ List.mem_cons_self))

/-- **A program is over with its last fence.** -/
theorem program_sealed (room : Nat) : Sealed (program room) := by
  have hpure (ss : List Stmt) : Steady (pure ss : Parse (List Stmt)) := steady_pure ss
  simp only [program]
  refine Sealed.behind (Rule.functions.steady room ()) fun fns => ?_
  refine Sealed.fenced (hpure fns) (Sealed.fenced (hpure fns) ?_)
  refine Sealed.behind (Rule.body.steady room false) fun main => ?_
  exact Sealed.fenced (hpure _) (sealed_lastFence (by decide) _ _)

namespace Program

/-- **No program begins with another one.** If tokens are accepted, and also with more tokens behind
    them, then there are no more. -/
theorem eq_of_accepted {ahead post : List Token} {last last' : Token}
    (hahead : ∀ t ∈ ahead, t.kind ≠ .eof) (hpost : ∀ t ∈ post, t.kind ≠ .eof)
    (hlast : last.kind = .eof) (hlast' : last'.kind = .eof)
    (hok : (ofTokens (ahead ++ post ++ [last])).diagnostics = [])
    (hok' : (ofTokens (ahead ++ [last'])).diagnostics = []) : post = [] := by
  obtain ⟨room, hlong, hshort⟩ := exists_room (ahead ++ post ++ [last]) (ahead ++ [last'])
  have hsealed := program_sealed room
  rw [hlong, List.reverse_eq_nil_iff] at hok
  rw [hshort, List.reverse_eq_nil_iff] at hok'
  have hne : ahead ≠ [] := by
    rintro rfl
    exact hsealed.wants (Cursor.ofTokens_atEnd hlast') hok'
  have hcut := Cursor.cut_ofTokens post hne hahead hlast hlast'
  have hrest : post ++ [last] ≠ [] := List.append_ne_nil_of_right_ne_nil post (List.cons_ne_nil _ _)
  obtain ⟨htokens, hend⟩ := hsealed.ends hrest hcut hok hok'
  rcases post with _ | ⟨t, post⟩
  · rfl
  · have hcurrent : (program room (.ofTokens (ahead ++ t :: post ++ [last]))).2.current = t :=
      (List.cons.inj htokens).1
    unfold Cursor.AtEnd at hend
    rw [hcurrent] at hend
    exact absurd hend (hpost t List.mem_cons_self)

end Program

/-! ## 3. Lines -/

/-- The last word of the text, which ends with a line feed, stands on its last line. -/
def Text.ClosesOnLastLine (t : Text) : Prop :=
  (Scan.ofText t).tokens.dropLast.getLast?.map (·.line) = some (t.count 10)

instance (t : Text) : Decidable t.ClosesOnLastLine :=
  inferInstanceAs (Decidable (_ = _))

/-- The words of a text that ends with a line feed stand on the lines before its end. -/
theorem Scan.line_le_of_mem {a : Text} {u : Token} (hu : u ∈ (ofText (a ++ [10])).tokens)
    (hkind : u.kind ≠ .eof) : u.line ≤ (a ++ [10]).count 10 := by
  obtain ⟨ts, last, htokens, _, hbehind⟩ := tokens_behind a
  have hempty : (ofText []).tokens = [.endAt .start] := rfl
  rw [hbehind [], hempty] at hu
  rcases List.mem_append.mp hu with hu | hu
  · have hmem : u ∈ (ofText a).tokens := by
      rw [htokens]
      exact List.mem_append_left _ hu
    rw [List.count_append]
    exact (line_bounds hmem).2
  · rw [List.map_singleton, List.mem_singleton] at hu
    rw [hu] at hkind
    exact absurd rfl hkind

namespace Program

/-- **Two accepted texts, one of which begins with the other, have the same words.** -/
theorem tokens_of_accepted {q rest : Text} (hok : (ofText (q ++ rest)).diagnostics = [])
    (hok' : (ofText q).diagnostics = []) (hbreak : Text.BreaksAt q rest) :
    ∃ ahead last last', (∀ t ∈ ahead, t.kind ≠ .eof) ∧
      (Scan.ofText (q ++ rest)).tokens = ahead ++ [last] ∧
      (Scan.ofText q).tokens = ahead ++ [last'] := by
  obtain ⟨hscan, hparse⟩ := List.append_eq_nil_iff.mp hok
  obtain ⟨_, hparse'⟩ := List.append_eq_nil_iff.mp hok'
  obtain ⟨_, ahead, post, last, last', hahead, hlast, hlast', htokens, htokens'⟩ :=
    Scan.cut_at_line hbreak hscan
  obtain ⟨us, stop, hus, hopen⟩ := Scan.tokens_eq (q ++ rest)
  have hall : us = ahead ++ post := by
    rw [htokens] at hus
    exact (List.append_inj_left' hus rfl).symm
  have hpost : post = [] := by
    change (ofTokens (Scan.ofText (q ++ rest)).tokens).diagnostics = [] at hparse
    change (ofTokens (Scan.ofText q).tokens).diagnostics = [] at hparse'
    rw [htokens] at hparse
    rw [htokens'] at hparse'
    refine eq_of_accepted hahead (fun t ht => hopen t ?_) hlast hlast' hparse hparse'
    rw [hall]
    exact List.mem_append_right _ ht
  rw [hpost, List.append_nil] at htokens
  exact ⟨ahead, last, last', hahead, htokens, htokens'⟩

/-- **The lines of a program before its last one are incomplete.** -/
theorem cut_before_last_line {q rest : Text} (hok : (ofText (q ++ rest)).diagnostics = [])
    (hcloses : (q ++ rest).ClosesOnLastLine) (hq : q.IsLines) (hrest : 10 ∈ rest) :
    Diagnostic.allIncomplete (ofText q).diagnostics = true := by
  have hbreak : Text.BreaksAt q rest := by
    rcases hq with hq | hq
    · exact .inl hq
    · exact .inr (.inl hq)
  rcases cut_at_line hok hbreak with hok' | hincomplete
  · -- an accepted part would have all words of the program, also the last one
    exfalso
    obtain ⟨ahead, last, last', hahead, htokens, htokens'⟩ := tokens_of_accepted hok hok' hbreak
    unfold Text.ClosesOnLastLine at hcloses
    rw [htokens, List.dropLast_concat] at hcloses
    obtain ⟨u, hlastWord, hline⟩ := Option.map_eq_some_iff.mp hcloses
    have hu : u ∈ ahead := List.mem_of_getLast? hlastWord
    have hmem : u ∈ (Scan.ofText q).tokens := by
      rw [htokens']
      exact List.mem_append_left _ hu
    rcases hq with rfl | ⟨a, rfl⟩
    · have hempty : (Scan.ofText []).tokens = [.endAt .start] := rfl
      rw [hempty, List.mem_singleton] at hmem
      rw [hmem] at hu
      exact hahead _ hu rfl
    · have hle := Scan.line_le_of_mem hmem (hahead u hu)
      have hlt : 0 < rest.count 10 := List.count_pos_iff.mpr hrest
      rw [hline, List.count_append] at hle
      omega
  · exact hincomplete

end Program

end FencedCode
