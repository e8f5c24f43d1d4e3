import FencedCode.Proofs.Token.Partition

/-!
# Where tokens and complaints stand

A place in a text is told by the bytes before it, by its line, and by its column, which counts the
symbols before it on that line. Scanning counts all three as it goes along; here they are compared
with the text itself.

* `Position.IsIn` -- that line and column of a place are those of its offset;
* `Position.isIn_afterAll` -- behind symbols of a text they are;
* `Scan.cutAt`, `Scan.mem_place` -- what begins at an offset, and that each segment begins where it
  is placed;
* `Scan.pairwise_place` -- each segment is placed further on than those before it;
* `Scan.places_true` -- **tokens and complaints stand where they say**.
-/

namespace FencedCode

/-! ## 1. Places in a text -/

namespace Position

/-- The place falls between two symbols of the text, and its line and column are those of its
    offset. -/
structure IsIn (p : Position) (t : Text) : Prop where
  /-- The place is not behind the text. -/
  within : p.offset ≤ t.length
  /-- No symbol reaches over the place. -/
  between : Symbol.decode t =
    Symbol.decode (t.take p.offset) ++ Symbol.decode (t.drop p.offset)
  /-- Each line feed before the place ends a line. -/
  line : p.line = (t.take p.offset).count 10 + 1
  /-- The column counts the symbols behind the last of these line feeds. -/
  column : p.column = (Symbol.decode (Text.lastLine (t.take p.offset))).length + 1

variable {t : Text} {front back : List Symbol}

/-- The bytes of a text behind some of its symbols. -/
theorem drop_afterAll (h : Symbol.decode t = front ++ back) :
    t.drop (start.afterAll front).offset = Symbol.encode back := by
  have htext : t = Symbol.encode front ++ Symbol.encode back := by
    rw [← Symbol.encode_decode t, h]
    exact List.flatMap_append
  rw [afterAll_front h]
  show t.drop (Symbol.encode front).length = _
  rw [htext, List.drop_left]

/-- **Passing symbols of a text leads to a place in it.** -/
theorem isIn_afterAll (h : Symbol.decode t = front ++ back) : (start.afterAll front).IsIn t := by
  have htext : t = Symbol.encode front ++ Symbol.encode back := by
    rw [← Symbol.encode_decode t, h]
    exact List.flatMap_append
  have htake : t.take (Symbol.encode front).length = Symbol.encode front := by
    rw [htext, List.take_left]
  have hbehind := drop_afterAll h
  rw [afterAll_front h] at hbehind ⊢
  change t.drop (Symbol.encode front).length = _ at hbehind
  refine ⟨?within, ?between, ?line, ?column⟩
  case within =>
    show (Symbol.encode front).length ≤ t.length
    rw [htext, List.length_append]
    exact Nat.le_add_right _ _
  case between =>
    show _ = Symbol.decode (t.take (Symbol.encode front).length) ++
      Symbol.decode (t.drop (Symbol.encode front).length)
    rw [htake, hbehind, Symbol.decode_encode_front h, Symbol.decode_encode_back h]
    exact h
  case line =>
    show _ = (t.take (Symbol.encode front).length).count 10 + 1
    rw [htake]
    rfl
  case column =>
    show _ = (Symbol.decode (Text.lastLine (t.take (Symbol.encode front).length))).length + 1
    rw [htake]
    rfl

end Position

/-! ## 2. Segments in a text -/

theorem Symbol.bytes_ne_nil (r : Symbol) : r.bytes ≠ [] := by
  cases r with
  | scalar c =>
    refine List.ne_nil_of_length_pos ?_
    show 0 < (String.utf8EncodeChar c).length
    rw [String.length_utf8EncodeChar]
    exact c.utf8Size_pos
  | stray b => exact List.cons_ne_nil _ _

namespace Scan

/-- What is cut from a text behind so many bytes. -/
def cutAt (t : Text) (offset : Nat) : Option Segment :=
  match Symbol.decode (t.drop offset) with
  | [] => none
  | r :: rs => some (Segment.cut r rs)

/-- **A segment stands at a place in the text, and begins there.** -/
theorem mem_place {t : Text} {ps : Position × Segment}
    (hps : ps ∈ (place .start (Segment.all (Symbol.decode t))).1) :
    ps.1.IsIn t ∧ cutAt t ps.1.offset = some ps.2 := by
  obtain ⟨front, back, hsymbols, hcut, hplace⟩ := split_of_mem_place hps
  rw [List.append_assoc] at hsymbols
  rw [hplace]
  refine ⟨Position.isIn_afterAll hsymbols, ?_⟩
  unfold cutAt
  rw [Position.drop_afterAll hsymbols, Symbol.decode_encode_back hsymbols]
  exact congrArg some hcut.symm

/-- A segment takes up room. -/
theorem offset_lt_afterAll (p : Position) (s : Segment) :
    p.offset < (p.afterAll s.symbols).offset := by
  have hbytes : 0 < (Symbol.encode s.symbols).length := by
    refine List.length_pos_iff.mpr fun hnil => ?_
    exact s.head.bytes_ne_nil (List.append_eq_nil_iff.mp hnil).1
  rw [Position.afterAll_offset]
  omega

/-- Segments are placed from the first place on and before the last one. -/
theorem offset_of_mem_place : ∀ {p : Position} {ss : List Segment} {ps : Position × Segment},
    ps ∈ (place p ss).1 → p.offset ≤ ps.1.offset ∧ ps.1.offset < (place p ss).2.offset
  | _, [], _, hps => by cases hps
  | p, s :: ss, ps, hps => by
    have hstep := offset_lt_afterAll p s
    rcases List.mem_cons.mp hps with rfl | hps
    · refine ⟨Nat.le_refl _, ?_⟩
      show p.offset < (place (p.afterAll s.symbols) ss).2.offset
      rw [place_snd, Position.afterAll_offset (ss.flatMap _)]
      omega
    · obtain ⟨hfirst, hlast⟩ := offset_of_mem_place hps
      exact ⟨Nat.le_trans (Nat.le_of_lt hstep) hfirst, hlast⟩

/-- **Each segment is placed further on** than those before it. -/
theorem pairwise_place : ∀ (p : Position) (ss : List Segment),
    (place p ss).1.Pairwise fun a b => a.1.offset < b.1.offset
  | _, [] => .nil
  | p, s :: ss => by
    refine .cons (fun b hb => ?_) (pairwise_place _ ss)
    exact Nat.lt_of_lt_of_le (offset_lt_afterAll p s) (offset_of_mem_place hb).1

theorem pos_of_token? {p : Position} {s : Segment} {u : Token} (hu : token? p s = some u) :
    u.pos = p := by
  unfold token? at hu
  split at hu
  · cases hu
    rfl
  · cases hu

theorem place_of_diagnostic? {p : Position} {s : Segment} {d : Diagnostic}
    (hd : diagnostic? p s = some d) : d.line = p.line ∧ d.column = p.column := by
  unfold diagnostic? at hd
  split at hd
  · cases hd
    exact ⟨rfl, rfl⟩
  · cases hd

/-- The end of a text is a place in it. -/
theorem isIn_last (t : Text) : (place .start (Segment.all (Symbol.decode t))).2.IsIn t := by
  rw [place_snd, Segment.all, Segment.flatMap_symbols_allFrom]
  exact Position.isIn_afterAll (List.append_nil _).symm

/-! ## 3. Tokens and complaints -/

/-- **Tokens and complaints stand where they say.** The tokens come one behind the other, each at a
    place in the text where it is what scanning the rest of the text begins with, and the end of the
    text at the last place. The complaints as well come one behind the other, and each tells line
    and column of a place in the text where scanning the rest begins with what is complained
    about. -/
theorem places_true (t : Text) :
    ((ofText t).tokens.Pairwise fun u v => u.pos.offset < v.pos.offset) ∧
    (∀ u ∈ (ofText t).tokens, u.pos.IsIn t ∧
      if u.kind = .eof then u.pos.offset = t.length
      else ∃ s, cutAt t u.pos.offset = some s ∧ token? u.pos s = some u) ∧
    ∃ complaints : List (Position × Diagnostic),
      complaints.map (·.2) = (ofText t).diagnostics ∧
      (complaints.Pairwise fun c d => c.1.offset < d.1.offset) ∧
      ∀ c ∈ complaints, c.1.IsIn t ∧ c.2.line = c.1.line ∧ c.2.column = c.1.column ∧
        ∃ s, cutAt t c.1.offset = some s ∧ diagnostic? c.1 s = some c.2 := by
  have hordered := pairwise_place .start (Segment.all (Symbol.decode t))
  refine ⟨?ordered, ?tokens, ?complaints⟩
  case ordered =>
    refine List.pairwise_append.mpr ⟨?_, List.pairwise_singleton _ _, fun u hu v hv => ?_⟩
    · refine hordered.filterMap _ fun a b hab u hu v hv => ?_
      rw [pos_of_token? hu, pos_of_token? hv]
      exact hab
    · obtain ⟨ps, hps, hu⟩ := List.mem_filterMap.mp hu
      obtain rfl := List.mem_singleton.mp hv
      rw [pos_of_token? hu]
      exact (offset_of_mem_place hps).2
  case tokens =>
    intro u hu
    rcases List.mem_append.mp hu with hu | hu
    · obtain ⟨ps, hps, htoken⟩ := List.mem_filterMap.mp hu
      obtain ⟨hplace, hcut⟩ := mem_place hps
      rw [if_neg (ne_eof_of_mem_place hps htoken), pos_of_token? htoken]
      exact ⟨hplace, ps.2, hcut, htoken⟩
    · obtain rfl := List.mem_singleton.mp hu
      refine ⟨isIn_last t, ?_⟩
      rw [if_pos (show (Token.endAt _).kind = .eof from rfl)]
      exact (behind_decode t).1
  case complaints =>
    refine ⟨(place .start (Segment.all (Symbol.decode t))).1.filterMap fun ps =>
      (diagnostic? ps.1 ps.2).map (ps.1, ·), ?_, ?_, fun c hc => ?_⟩
    · rw [List.map_filterMap]
      refine congrArg (List.filterMap · _) (funext fun ps => ?_)
      rw [Option.map_map]
      exact Option.map_id'
    · refine hordered.filterMap _ fun a b hab c hc d hd => ?_
      obtain ⟨_, -, rfl⟩ := Option.map_eq_some_iff.mp hc
      obtain ⟨_, -, rfl⟩ := Option.map_eq_some_iff.mp hd
      exact hab
    · obtain ⟨ps, hps, hc⟩ := List.mem_filterMap.mp hc
      obtain ⟨d, hd, rfl⟩ := Option.map_eq_some_iff.mp hc
      obtain ⟨hplace, hcut⟩ := mem_place hps
      obtain ⟨hline, hcolumn⟩ := place_of_diagnostic? hd
      exact ⟨hplace, hline, hcolumn, ps.2, hcut, hd⟩

-- the column counts symbols: two bytes that make one character, and a stray byte
example : (ofText (34 :: 0xC3 :: 0xA9 :: 0xFF :: utf8 "\" x")).tokens.map Token.pos =
    [⟨0, 1, 1⟩, ⟨6, 1, 6⟩, ⟨7, 1, 7⟩] := by
  decide

end Scan

end FencedCode
