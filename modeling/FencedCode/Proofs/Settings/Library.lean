import FencedCode.Settings.Basic
import Mathlib.Data.List.Nodup

/-!
# Libraries for settings files

A settings file says values for keys. What is relied on of the library that writes and reads such
files is that it reads a value from what it writes for it, that it writes every field but an empty
one that is tagged to be left out, and that fields which a file does not speak of stay as they are.
From that alone follows what settings are read to that were written before.

* `Settings.Format` -- the files of a library: keys, and what stands for their values;
* `Settings.Library.Lawful` -- what is relied on;
* `Settings.Library.Lawful.unmarshal_marshal` -- **settings are read from what they are written
  to**, except that a history file that is empty is as it was before.
-/

namespace FencedCode.Settings

/-! ## 1. Fields -/

theorem Field.mem_all (f : Field) : f ∈ Field.all := by
  cases f <;> decide

theorem Field.nodup_keys : (Field.all.map Field.key).Nodup := by
  decide

/-- A field is known by its key. -/
theorem Field.key_injective {f g : Field} (h : f.key = g.key) : f = g :=
  List.inj_on_of_nodup_map Field.nodup_keys (Field.mem_all f) (Field.mem_all g) h

/-- Settings are known by their fields. -/
theorem eq_of_get {s s' : Settings} (h : ∀ f, s.get f = s'.get f) : s = s' := by
  have hprompt : s.prompt = s'.prompt := Value.string.inj (h .prompt)
  have hcontinuation : s.continuationPrompt = s'.continuationPrompt :=
    Value.string.inj (h .continuationPrompt)
  have hhistory : s.historyFile = s'.historyFile := Value.string.inj (h .historyFile)
  have hcolor : s.color = s'.color := Value.string.inj (h .color)
  have htrace : s.trace = s'.trace := Value.boolean.inj (h .trace)
  cases s
  cases s'
  simp only at hprompt hcontinuation hhistory hcolor htrace
  subst hprompt hcontinuation hhistory hcolor htrace
  rfl

theorem mem_present {s : Settings} {f : Field} :
    f ∈ s.present ↔ (f.omitEmpty && (s.get f).isZero) = false := by
  unfold present
  rw [List.mem_filter, Bool.not_eq_true']
  exact and_iff_right f.mem_all

/-- The texts in the settings. -/
def texts (s : Settings) : List Text :=
  [s.prompt, s.continuationPrompt, s.historyFile, s.color]

/-! ## 2. What is relied on -/

/-- The files of a library. -/
structure Format where
  /-- What is written for a value. -/
  encode : Value → Text
  /-- The value that is read from what stands for it, if one is. -/
  decode : Text → Option Value
  /-- The file has these keys, with these texts for their values. -/
  Says : Text → List (Text × Text) → Prop

/-- What is relied on of a library, of texts only as far as they are legible. -/
structure Library.Lawful (l : Library) (φ : Format) (Legible : Text → Prop) : Prop where
  /-- A string is read from what is written for it. -/
  decode_string : ∀ t, Legible t → φ.decode (φ.encode (.string t)) = some (.string t)
  /-- A truth value is read from what is written for it. -/
  decode_boolean : ∀ b, φ.decode (φ.encode (.boolean b)) = some (.boolean b)
  /-- Every field is written, except one that is tagged to be left out where it is empty. -/
  marshal_present : ∀ s, ∃ t, l.marshal s = .ok t ∧
    φ.Says t (s.present.map fun f => (f.key, φ.encode (s.get f)))
  /-- A file that says values for fields is read to these values. The other fields stay as they
      are. -/
  unmarshal_absent : ∀ {t es} {s s' : Settings}, φ.Says t es → (es.map Prod.fst).Nodup →
    (∀ e ∈ es, ∃ f : Field, f.key = e.1 ∧ φ.decode e.2 = some (s'.get f)) →
    (∀ f : Field, f.key ∉ es.map Prod.fst → s'.get f = s.get f) →
    l.unmarshal t s = .ok s'

/-! ## 3. Settings that are read again -/

namespace Library.Lawful

variable {l : Library} {φ : Format} {Legible : Text → Prop}

/-- The value of a field is read from what is written for it. -/
theorem decode_get (hl : l.Lawful φ Legible) {s : Settings} (htexts : ∀ t ∈ s.texts, Legible t)
    (f : Field) : φ.decode (φ.encode (s.get f)) = some (s.get f) := by
  cases f with
  | prompt => exact hl.decode_string _ (htexts _ (by simp [texts]))
  | continuationPrompt => exact hl.decode_string _ (htexts _ (by simp [texts]))
  | historyFile => exact hl.decode_string _ (htexts _ (by simp [texts]))
  | color => exact hl.decode_string _ (htexts _ (by simp [texts]))
  | trace => exact hl.decode_boolean _

/-- **Settings are read from what they are written to.** A history file that is empty is not
    written, and so it is as it was before. -/
theorem unmarshal_marshal (hl : l.Lawful φ Legible) (base : Settings) {s : Settings}
    (htexts : ∀ t ∈ s.texts, Legible t) :
    ∃ t, l.marshal s = .ok t ∧ l.unmarshal t base = .ok { s with
      historyFile := if s.historyFile = [] then base.historyFile else s.historyFile } := by
  obtain ⟨t, hmarshal, hsays⟩ := hl.marshal_present s
  refine ⟨t, hmarshal, hl.unmarshal_absent hsays ?_ ?_ ?_⟩
  · rw [List.map_map]
    exact Field.nodup_keys.sublist (List.filter_sublist.map Field.key)
  · intro e he
    obtain ⟨f, hf, rfl⟩ := List.mem_map.mp he
    refine ⟨f, rfl, (hl.decode_get htexts f).trans (congrArg some ?_)⟩
    cases f with
    | historyFile =>
      have hfilled : s.historyFile ≠ [] := fun hempty => by
        have hshown : s.historyFile.isEmpty = false := mem_present.mp hf
        rw [hempty] at hshown
        cases hshown
      show Value.string s.historyFile = .string (if s.historyFile = [] then _ else _)
      rw [if_neg hfilled]
    | _ => rfl
  · intro f hf
    have hleft : f ∉ s.present := fun hmem =>
      hf (List.mem_map.mpr ⟨_, List.mem_map_of_mem hmem, rfl⟩)
    have hzero : (f.omitEmpty && (s.get f).isZero) = true := by
      rwa [mem_present, Bool.not_eq_false] at hleft
    cases f with
    | historyFile =>
      show Value.string (if s.historyFile = [] then _ else _) = .string base.historyFile
      rw [if_pos (List.isEmpty_iff.mp hzero)]
    | _ => cases hzero

end Library.Lawful

end FencedCode.Settings
