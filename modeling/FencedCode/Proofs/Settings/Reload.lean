import FencedCode.CommandLine.Basic
import FencedCode.Proofs.Settings.Toml

/-!
# Settings that are written and read again

A run that finds as its settings file what another run wrote has the settings of that run, whatever
the library that writes and reads such files, if only it is lawful. The exception is a history file
that is empty: it is not written, and so it is the default one afterwards.

* `CommandLine.resolve_of_unmarshal` -- a run has the settings that its settings file is read to;
* `CommandLine.resolve_dump` -- **settings that were written hold for the next run**.
-/

namespace FencedCode.CommandLine

/-- A run takes its settings from what its settings file is read to, if there is nothing wrong with
    them. -/
theorem resolve_of_unmarshal {w : World} {config t : Text} {s : Settings}
    (hpath : settingsPath w.home config ≠ [])
    (hfile : w.disk.read (settingsPath w.home config) = .ok t)
    (hread : w.library.unmarshal t .defaults = .ok s) (hcolor : s.color ∈ Settings.colorModes) :
    resolveSettings w config = .ok s := by
  have hopen : ¬ (settingsPath w.home config).isEmpty = true := by
    rwa [List.isEmpty_iff]
  unfold resolveSettings
  dsimp only
  rw [if_neg hopen, hfile]
  dsimp only
  rw [hread]
  dsimp only
  unfold checked Settings.complaint?
  rw [if_pos hcolor]

/-- **Settings that were written hold for a run that finds them as its settings file.** The texts in
    them are legible to the library, which for one that is lawful on all UTF-8 says no more than
    that they are UTF-8. A history file that is empty is not written, and so it is the default one
    afterwards. -/
theorem resolve_dump {φ : Settings.Format} {Legible : Text → Prop} (w : World) (config : Text)
    (s : Settings) (hlibrary : w.library.Lawful φ Legible)
    (hpath : settingsPath w.home config ≠ []) (hcolor : s.color ∈ Settings.colorModes)
    (htexts : ∀ t ∈ s.texts, Legible t) :
    ∃ t, w.library.marshal s = .ok t ∧
      (w.disk.read (settingsPath w.home config) = .ok t →
        resolveSettings w config = .ok (if s.historyFile = [] then
          { s with historyFile := Settings.defaults.historyFile } else s)) := by
  obtain ⟨t, hmarshal, hread⟩ := hlibrary.unmarshal_marshal .defaults htexts
  refine ⟨t, hmarshal, fun hfile => ?_⟩
  rw [resolve_of_unmarshal hpath hfile hread hcolor]
  by_cases hhistory : s.historyFile = []
  · rw [if_pos hhistory, if_pos hhistory]
  · rw [if_neg hhistory, if_neg hhistory]

/-- A world whose one file is what is written for settings. -/
def worldAfter (quote : Text → Text) (s : Settings) : World where
  disk := ⟨fun _ => .ok (s.document quote), fun _ => none⟩
  input := []
  home := []
  library := .toml quote

/-- Settings with quote marks, an end of line and letters of other alphabets in them, and without a
    history file, written by the library that programs run with. -/
theorem resolve_dump_prompts :
    let s : Settings := ⟨utf8 "\"λ\"\n> ", utf8 "\\é\t", [], utf8 "always", true⟩
    resolveSettings (worldAfter Text.quoted s) (utf8 "settings.toml") =
      .ok { s with historyFile := Settings.defaults.historyFile } := by
  intro s
  obtain ⟨t, hmarshal, hresolve⟩ := resolve_dump (worldAfter Text.quoted s) (utf8 "settings.toml")
    s Settings.Library.quoted_lawful (by decide) (by decide) (by
      intro t ht
      simp only [Settings.texts, List.mem_cons, List.not_mem_nil, or_false] at ht
      rcases ht with rfl | rfl | rfl | rfl
      · exact Settings.Document.isWritable_of_all "\"λ\"\n> ".toList (by decide)
      · exact Settings.Document.isWritable_of_all "\\é\t".toList (by decide)
      · exact Settings.Document.isWritable_of_all [] (by decide)
      · exact Settings.Document.isWritable_of_all "always".toList (by decide))
  have hwritten : s.document Text.quoted = t := Except.ok.inj hmarshal
  exact hresolve (congrArg Except.ok hwritten)

/-- Settings without a history file do not stay without one, although the library is lawful on all
    UTF-8 and writes them as the one does that programs run with: the default history file is used
    again. -/
theorem resolve_dump_noHistory :
    let s : Settings := { Settings.defaults with historyFile := [] }
    let w := worldAfter Settings.Document.numbered s
    w.library.Lawful (.toml Settings.Document.numbered) Text.IsUtf8 ∧
      s.color ∈ Settings.colorModes ∧ (∀ t ∈ s.texts, t.IsUtf8) ∧
      w.library.marshal s = .ok s.dump ∧
      w.disk.read (settingsPath w.home (utf8 "settings.toml")) = .ok s.dump ∧
      resolveSettings w (utf8 "settings.toml") = .ok .defaults ∧ s ≠ .defaults := by
  intro s w
  have hdump : s.document Settings.Document.numbered = s.dump := by decide
  have htexts : ∀ t ∈ s.texts, t.IsUtf8 := by
    intro t ht
    simp only [Settings.texts, List.mem_cons, List.not_mem_nil, or_false] at ht
    rcases ht with rfl | rfl | rfl | rfl
    · exact ⟨"code> ".toList, rfl⟩
    · exact ⟨".... ".toList, rfl⟩
    · exact ⟨[], rfl⟩
    · exact ⟨"auto".toList, rfl⟩
  have hcolor : s.color ∈ Settings.colorModes := by decide
  have hlibrary := Settings.Library.numbered_lawful
  refine ⟨hlibrary, hcolor, htexts, congrArg Except.ok hdump, congrArg Except.ok hdump, ?_,
    by decide⟩
  obtain ⟨t, hmarshal, hread⟩ := hlibrary.unmarshal_marshal .defaults htexts
  have hwritten : s.document Settings.Document.numbered = t := Except.ok.inj hmarshal
  exact resolve_of_unmarshal (by decide) (congrArg Except.ok hwritten) hread (by decide)

end FencedCode.CommandLine
