import FencedCode.Proofs.Machine.Reads
import FencedCode.Proofs.Token.Literals

/-!
# Literals that are scanned into variables

A `SCAN` reads a line, takes the literals at every second token of it, and assigns them to its
names. From a line that spells as many literals as there are names, with the types of the variables,
each variable obtains the literal that was written for it.

* `Scopes.Accepts` -- that a name means a variable that can take the value;
* `Scopes.Receives`, `Receives.cons` -- that names have received values and all else is as before,
  one name after another;
* `Machine.assignScanned_of_literals` -- tokens with a literal at every second place are assigned
  in order;
* `Input.Offers` -- the input begins with the line, however the line ends;
* `Machine.scan_listed` -- **a `SCAN` obtains what the line spells, and changes nothing else**.
-/

namespace FencedCode

open Exec Machine

/-! ## 1. Names that receive values -/

namespace Scopes

variable {s s' : Scopes} {i k : Nat} {name : Text} {v : Value} {b : Binding}

theorem lookup_eq_some : s.lookup i name = some b ↔
    ∃ k, s.resolve i name = some k ∧ s.get? k name = some b :=
  Option.bind_eq_some_iff

/-- As seen from frame `i`, the name means a variable that the value can be assigned to. -/
def Accepts (s : Scopes) (i : Nat) (name : Text) (v : Value) : Prop :=
  ∃ b, s.lookup i name = some b ∧ b.isMutable = true ∧ b.type = v.type

/-- Setting a name where it is bound already does not change what names mean. -/
theorem resolve_set (hb : (s.get? k name).isSome) (b : Binding) (i : Nat) (other : Text) :
    (s.set k name b).resolve i other = s.resolve i other := by
  refine resolve_congr (fun j => ?_) (fun j => parent?_set ..) i
  rw [get?_set]
  split
  · rename_i hself
    obtain ⟨rfl, rfl, -⟩ := hself
    rw [hb]
    rfl
  · rfl

theorem lookup_set_ne (hb : (s.get? k name).isSome) (b : Binding) (i : Nat) {other : Text}
    (hne : other ≠ name) : (s.set k name b).lookup i other = s.lookup i other := by
  show ((s.set k name b).resolve i other).bind _ = (s.resolve i other).bind _
  rw [resolve_set hb]
  exact congrArg _ (funext fun j => get?_set_ne b (.inr hne))

/-- A value that is accepted is put in the place of the old one. -/
theorem Accepts.assign {name : Token} (h : s.Accepts i name.lexeme v) :
    ∃ k b, s.resolve i name.lexeme = some k ∧ s.get? k name.lexeme = some b ∧
      s.assign i name v = .ok (s.set k name.lexeme { b with value := v }) := by
  obtain ⟨b, hlookup, hmutable, htype⟩ := h
  obtain ⟨k, hresolve, hb⟩ := lookup_eq_some.mp hlookup
  refine ⟨k, b, hresolve, hb, ?_⟩
  unfold Scopes.assign
  change (s.frames[k]?.bind fun f => f.get? name.lexeme) = some b at hb
  simp only [hresolve, hb, hmutable, Bool.not_true, Bool.false_eq_true, if_false, htype, ne_eq,
    not_true_eq_false]

/-- As seen from frame `i`, the names have received the values. All other bindings are as before,
    and every name means a binding in the same frame as before. -/
structure Receives (i : Nat) (pairs : List (Text × Value)) (s s' : Scopes) : Prop where
  received : ∀ p ∈ pairs, ∃ b, s.lookup i p.1 = some b ∧
    s'.lookup i p.1 = some { b with value := p.2 }
  kept : ∀ k name, (∀ p ∈ pairs, p.1 = name → s.resolve i name ≠ some k) →
    s'.get? k name = s.get? k name
  resolve : ∀ j name, s'.resolve j name = s.resolve j name
  parent : ∀ j, s'.parent? j = s.parent? j
  size : s'.size = s.size

theorem Receives.nil (i : Nat) (s : Scopes) : Receives i [] s s :=
  ⟨fun _ hp => absurd hp List.not_mem_nil, fun _ _ _ => rfl, fun _ _ => rfl, fun _ => rfl, rfl⟩

/-- One name more, which receives its value before the others do. -/
theorem Receives.cons {pairs : List (Text × Value)} (hk : s.resolve i name = some k)
    (hb : s.get? k name = some b) (hname : ∀ p ∈ pairs, p.1 ≠ name)
    (h : Receives i pairs (s.set k name { b with value := v }) s') :
    Receives i ((name, v) :: pairs) s s' := by
  have hsome : (s.get? k name).isSome := by rw [hb]; rfl
  have hresolve (j : Nat) (other : Text) : s'.resolve j other = s.resolve j other :=
    (h.resolve j other).trans (resolve_set hsome ..)
  refine ⟨fun p hp => ?_, fun j other hother => ?_, hresolve, fun j => ?_, ?_⟩
  · rcases List.mem_cons.mp hp with rfl | hp
    · refine ⟨b, lookup_eq_some.mpr ⟨k, hk, hb⟩, lookup_eq_some.mpr ⟨k, ?_, ?_⟩⟩
      · exact (hresolve i name).trans hk
      · rw [h.kept k name fun p hp heq => absurd heq (hname p hp)]
        exact get?_set_self (lt_size_of_get?_eq_some hb) ..
    · obtain ⟨b', hlookup, hreceived⟩ := h.received p hp
      rw [lookup_set_ne hsome _ i (hname p hp)] at hlookup
      exact ⟨b', hlookup, hreceived⟩
  · rw [h.kept j other fun p hp heq => ?_]
    · refine get?_set_ne _ ?_
      by_cases hother' : other = name
      · subst hother'
        exact .inl fun hj => hother _ List.mem_cons_self rfl (hj ▸ hk)
      · exact .inr hother'
    · rw [resolve_set hsome]
      exact hother p (List.mem_cons_of_mem _ hp) heq
  · exact (h.parent j).trans (parent?_set ..)
  · exact h.size.trans (size_set ..)

end Scopes

namespace Machine

/-- What the names of a `SCAN` are to receive. -/
def wanted (pairs : List (Token × Literal)) : List (Text × Value) :=
  pairs.map fun p => (p.1.lexeme, .ofLiteral p.2)

/-- With a literal at every second place, the first token has one, and so has every second one
    behind the token that follows it. -/
theorem literals_cons {ts : List Token} {l : Literal} {ls : List (Option Literal)}
    (h : ts.map Token.literal = (some l :: ls).intersperse none) :
    ∃ t rest, ts = t :: rest ∧ t.literal = some l ∧
      (rest.drop 1).map Token.literal = ls.intersperse none := by
  cases ts with
  | nil => cases ls <;> cases h
  | cons t rest =>
    refine ⟨t, rest, rfl, ?_, ?_⟩
    · cases ls <;> exact (List.cons.inj h).1
    · rw [List.map_drop]
      cases ls <;> exact congrArg (List.drop 1) (List.cons.inj h).2

/-- The first token is assigned, and the names behind it go on at the second token behind it. -/
theorem assignScanned_first (name : Token) {pairs : List (Token × Literal)} (t : Token)
    {rest : List Token} (ending : Token)
    (hrest : (rest.drop 1).map Token.literal = (pairs.map fun p => some p.2).intersperse none) :
    assignScanned (name :: pairs.map Prod.fst) (t :: rest ++ [ending]) =
      (assign name (.ofLiteral? t.literal) >>= fun _ =>
        assignScanned (pairs.map Prod.fst) (rest.drop 1 ++ [ending])) := by
  rcases rest with _ | ⟨u, rest⟩
  · obtain rfl : pairs = [] := by
      rcases pairs with _ | ⟨p, _ | ⟨p', pairs⟩⟩
      · rfl
      · cases hrest
      · cases hrest
    exact assignScanned_cons name [] t ending []
  · exact assignScanned_cons name _ t u (rest ++ [ending])

/-- **Tokens with a literal at every second place are assigned in order.** -/
theorem assignScanned_of_literals (ending : Token) : ∀ (pairs : List (Token × Literal))
    (ts : List Token) (m : Machine),
    ts.map Token.literal = (pairs.map fun p => some p.2).intersperse none →
    ((wanted pairs).map Prod.fst).Nodup →
    (∀ p ∈ wanted pairs, m.scopes.Accepts m.scope p.1 p.2) →
    ∃ s', assignScanned (pairs.map Prod.fst) (ts ++ [ending]) m =
        (.ok (), { m with scopes := s' }) ∧
      Scopes.Receives m.scope (wanted pairs) m.scopes s'
  | [], _, m, _, _, _ => ⟨m.scopes, rfl, .nil ..⟩
  | (name, l) :: pairs, ts, m, hliterals, hdistinct, haccepts => by
    obtain ⟨t, rest, rfl, ht, hrest⟩ := literals_cons hliterals
    obtain ⟨hfresh, hdistinct⟩ := List.nodup_cons.mp hdistinct
    have hname (p : Text × Value) (hp : p ∈ wanted pairs) : p.1 ≠ name.lexeme := fun heq =>
      hfresh (List.mem_map.mpr ⟨p, hp, heq⟩)
    obtain ⟨k, b, hk, hb, hassign⟩ := (haccepts _ List.mem_cons_self).assign
    let m₁ : Machine :=
      { m with scopes := m.scopes.set k name.lexeme { b with value := .ofLiteral l } }
    have hfirst : assign name (.ofLiteral? t.literal) m = (.ok (), m₁) := by
      rw [ht]
      unfold Exec.assign
      rw [show m.scopes.assign m.scope name (.ofLiteral? (some l)) = _ from hassign]
    -- the other names are bound as before
    have hsome : (m.scopes.get? k name.lexeme).isSome := by rw [hb]; rfl
    have haccepts₁ : ∀ p ∈ wanted pairs, m₁.scopes.Accepts m₁.scope p.1 p.2 := fun p hp => by
      obtain ⟨b', hlookup, hrights⟩ := haccepts p (List.mem_cons_of_mem _ hp)
      exact ⟨b', (Scopes.lookup_set_ne hsome _ _ (hname p hp)).trans hlookup, hrights⟩
    obtain ⟨s', hrun, hreceives⟩ :=
      assignScanned_of_literals ending pairs (rest.drop 1) m₁ hrest hdistinct haccepts₁
    refine ⟨s', ?_, hreceives.cons hk hb hname⟩
    rw [List.map_cons, assignScanned_first name t ending hrest, bind_of_ok hfirst]
    exact hrun

end Machine

/-! ## 2. The line -/

/-- The input begins with the line: a line feed follows it, perhaps behind carriage returns, or the
    input ends. -/
inductive Input.Offers (line : Text) : Input → Input → Prop where
  | ended (returns : Nat) (rest : Text) (failure : Option Text) :
      Offers line ⟨line ++ List.replicate returns 13 ++ 10 :: rest, failure⟩ ⟨rest, failure⟩
  | last (returns : Nat) : Offers line ⟨line ++ List.replicate returns 13, none⟩ ⟨[], none⟩

/-- A line that does not end in a carriage return is read as it is. -/
theorem Input.Offers.readLine {line : Text} {i i' : Input} (h : Offers line i i')
    (hline : 10 ∉ line) (hends : ∃ a b, line = a ++ [b] ∧ b ≠ 13) :
    i.readLine = (.ok line, i') := by
  have hwhole (returns : Nat) : 10 ∉ line ++ List.replicate returns 13 := fun hmem => by
    rcases List.mem_append.mp hmem with hmem | hmem
    · exact hline hmem
    · exact absurd (List.eq_of_mem_replicate hmem) (by decide)
  have htrim (returns : Nat) :
      (line ++ List.replicate returns 13).rdropWhile (· == (13 : UInt8)) = line := by
    induction returns with
    | zero =>
      obtain ⟨a, b, rfl, hb⟩ := hends
      rw [List.replicate_zero, List.append_nil]
      exact List.rdropWhile_concat_neg _ _ _ (by simpa using hb)
    | succ returns ih =>
      rw [List.replicate_succ', ← List.append_assoc, List.rdropWhile_concat_pos _ _ _ rfl, ih]
  cases h with
  | ended returns rest failure =>
    rw [readLine_line (hwhole returns), trimEnd_line (hwhole returns), htrim]
  | last returns =>
    have hne : line ++ List.replicate returns 13 ≠ [] := by
      obtain ⟨a, b, rfl, -⟩ := hends
      simp
    rw [readLine_last (hwhole returns) hne, trimEnd_eq (hwhole returns), htrim]

namespace Machine

/-- **A `SCAN` obtains what the line spells.** If the next line of the input spells a literal for
    each of the names, which are different and mean variables of the literals' types, then the
    `SCAN` succeeds: it takes the line from the input, the names have received the literals, in
    their order, and nothing else has changed. -/
theorem scan_listed {line : Text} {pairs : List (Token × Literal)}
    (hline : Listed line (pairs.map Prod.snd)) (hdistinct : ((wanted pairs).map Prod.fst).Nodup)
    {m : Machine} (haccepts : ∀ p ∈ wanted pairs, m.scopes.Accepts m.scope p.1 p.2)
    {i' : Input} (hinput : m.input.Offers line i') (h : Host) (steps : Nat) (keyword : Token) :
    ∃ s', exec h (steps + 1) (.scan keyword (pairs.map Prod.fst)) m =
        (.ok .normal, { m with input := i', scopes := s' }) ∧
      Scopes.Receives m.scope (wanted pairs) m.scopes s' := by
  have hread := hinput.readLine hline.lineFeed_not_mem hline.ends
  have hliterals := hline.literals
  rw [List.map_map] at hliterals
  obtain ⟨ts, ending, htokens⟩ : ∃ ts ending, (Scan.ofText line).tokens = ts ++ [ending] :=
    ⟨_, _, rfl⟩
  rw [htokens, List.dropLast_concat] at hliterals
  obtain ⟨s', hassign, hreceives⟩ := assignScanned_of_literals ending pairs ts
    { m with input := i' } hliterals hdistinct haccepts
  refine ⟨s', ?_, hreceives⟩
  rw [exec_scan, hread]
  dsimp only
  rw [htokens]
  exact bind_of_ok hassign

/-- Literals of all kinds are scanned into variables of an inner frame and of the global one. A
    binding that is hidden by another one is as before. -/
theorem scan_listed_mixed :
    let line := utf8 "007 ,\t2.5,\"TRUE\", '\"' ,[#],\"a [b] # ,\""
    let name (w : String) : Token := ⟨.identifier, utf8 w, none, .none⟩
    let pairs : List (Token × Literal) := [(name "n", .int 7),
      (name "x", .float (Segment.readFloat [50] [53])), (name "b", .bool true),
      (name "c", .char 34), (name "d", .char 35), (name "s", .string (utf8 "a [b] # ,"))]
    let outer : Frame := ⟨none, [(utf8 "n", ⟨.base .int, .int 1, true⟩),
      (utf8 "s", ⟨.base .string, .null, true⟩), (utf8 "x", ⟨.base .float, .null, true⟩)]⟩
    let inner : Frame := ⟨some 0, [(utf8 "n", ⟨.base .int, .int 2, true⟩),
      (utf8 "b", ⟨.base .bool, .bool false, true⟩), (utf8 "c", ⟨.base .char, .null, true⟩),
      (utf8 "d", ⟨.base .char, .null, true⟩)]⟩
    let input : Input := ⟨line ++ List.replicate 1 13 ++ 10 :: utf8 "more", none⟩
    let m : Machine := { bare input with scopes := ⟨#[outer, inner]⟩, scope := 1 }
    ∃ s', exec {} 1 (.scan default (pairs.map Prod.fst)) m =
        (.ok .normal, { m with input := ⟨utf8 "more", none⟩, scopes := s' }) ∧
      s'.lookup 1 (utf8 "n") = some ⟨.base .int, .int 7, true⟩ ∧
      s'.lookup 1 (utf8 "s") = some ⟨.base .string, .string (utf8 "a [b] # ,"), true⟩ ∧
      s'.get? 0 (utf8 "n") = some ⟨.base .int, .int 1, true⟩ := by
  intro line name pairs outer inner input m
  have hint : Spells (utf8 "007") (.int 7) := .int (by decide) (by decide)
  have hfloat : Spells ([50] ++ 46 :: [53]) (.float (Segment.readFloat [50] [53])) :=
    .float (by decide) (by decide) (by decide +kernel)
  have hquoted : Spells (utf8 "'\"'") (.char 34) := .quoted (c := '"') (by decide)
  have hbracketed : Spells (utf8 "[#]") (.char 35) := .bracketed (c := '#') (by decide)
  have hstring : Spells (34 :: Text.ofChars "a [b] # ,".toList ++ [34]) (.string _) :=
    .string (by simp) (by decide)
  have hnone : Text.IsBlanks [] := nofun
  have hspace : Text.IsBlanks [32] := by decide
  have htab : Text.IsBlanks [9] := by decide
  have hspelled := Listed.more hint hspace htab <| .more hfloat hnone hnone <|
    .more (.bool true) hnone hspace <| .more hquoted hspace hnone <|
    .more hbracketed hnone hnone <| .single hstring
  have hline : Listed line (pairs.map Prod.snd) := hspelled
  have hinput : m.input.Offers line ⟨utf8 "more", none⟩ := .ended 1 (utf8 "more") none
  have haccepts : ∀ p ∈ wanted pairs, m.scopes.Accepts m.scope p.1 p.2 := by
    simp only [wanted, pairs, List.map_cons, List.map_nil, List.forall_mem_cons]
    refine ⟨?_, ?_, ?_, ?_, ?_, ?_, List.forall_mem_nil _⟩ <;> exact ⟨_, rfl, rfl, rfl⟩
  obtain ⟨s', hrun, hreceives⟩ :=
    scan_listed hline (by decide) haccepts hinput {} 0 default
  obtain ⟨b, hb, hn⟩ := hreceives.received _ List.mem_cons_self
  cases hb
  obtain ⟨b, hb, hs⟩ := hreceives.received (utf8 "s", _) (List.mem_of_getLast? rfl)
  cases hb
  refine ⟨s', hrun, hn, hs, ?_⟩
  -- as seen from the inner frame, the name is found there and not in the outer one
  rw [hreceives.kept 0 (utf8 "n") fun _ _ _ => by decide]
  rfl

end Machine

end FencedCode
