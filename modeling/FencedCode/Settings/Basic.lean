import FencedCode.Path
import FencedCode.Text.Quoted

/-!
# Settings

The settings of the command line and of interactive sessions: their defaults, what makes them
valid, their fields, and what a library for settings files does with them.
-/

namespace FencedCode

/-- The settings. -/
structure Settings where
  /-- What is shown where a program starts. -/
  prompt : Text
  /-- What is shown where a program goes on. -/
  continuationPrompt : Text
  /-- Where past programs are kept; nowhere if it is empty. -/
  historyFile : Text
  /-- When reports are coloured. -/
  color : Text
  /-- Are runs traced? -/
  trace : Bool
  deriving DecidableEq

namespace Settings

/-- What holds for all that a document leaves out. -/
def defaults : Settings where
  prompt := utf8 "code> "
  continuationPrompt := utf8 ".... "
  historyFile := utf8 "~/.codelang_history"
  color := utf8 "auto"
  trace := false

/-- No settings at all. -/
def blank : Settings :=
  ⟨[], [], [], [], false⟩

/-- The name of the settings file in a home directory. -/
def fileName : Text :=
  utf8 ".codelang.toml"

/-! ## 1. Validity -/

/-- The colour modes. -/
def colorModes : List Text :=
  [utf8 "auto", utf8 "always", utf8 "never"]

/-- What is wrong with the settings, if anything is. -/
def complaint? (s : Settings) : Option Text :=
  if s.color ∈ colorModes then none
  else some (utf8 "invalid Color " ++ Text.quoted s.color
    ++ utf8 ": want auto, always or never")

/-! ## 2. Paths -/

/-- The settings file in a home directory; none without one. -/
def defaultPath (home : Text) : Text :=
  if home.isEmpty then [] else Path.join home fileName

/-- Where past programs are kept, a leading `~` standing for the home directory; nowhere if it is
    empty. -/
def historyPath (s : Settings) (home : Text) : Text :=
  match s.historyFile with
  | [] => []
  | 126 :: rest =>
    if rest.isEmpty || rest.head? = some 47 then
      if home.isEmpty then [] else Path.join home rest
    else s.historyFile
  | _ => s.historyFile

/-! ## 3. Fields -/

/-- A field of the settings. -/
inductive Field where
  | prompt
  | continuationPrompt
  | historyFile
  | color
  | trace
  deriving DecidableEq

/-- The fields in their order. -/
def Field.all : List Field :=
  [prompt, continuationPrompt, historyFile, color, trace]

/-- The key of a field in a settings file. -/
def Field.key : Field → Text
  | prompt => utf8 "Prompt"
  | continuationPrompt => utf8 "ContinuationPrompt"
  | historyFile => utf8 "HistoryFile"
  | color => utf8 "Color"
  | trace => utf8 "Trace"

/-- Is the field tagged to be left out where it is empty? -/
def Field.omitEmpty : Field → Bool
  | historyFile => true
  | _ => false

/-- The value of a field. -/
inductive Value where
  | string (t : Text)
  | boolean (b : Bool)

/-- Is it the value that a field has before anything is said of it? -/
def Value.isZero : Value → Bool
  | string t => t.isEmpty
  | boolean b => !b

/-- The value of a field of the settings. -/
def get (s : Settings) : Field → Value
  | .prompt => .string s.prompt
  | .continuationPrompt => .string s.continuationPrompt
  | .historyFile => .string s.historyFile
  | .color => .string s.color
  | .trace => .boolean s.trace

/-- The fields that are not left out. -/
def present (s : Settings) : List Field :=
  Field.all.filter fun f => !(f.omitEmpty && (s.get f).isZero)

/-! ## 4. Settings files -/

/-- Why a text is not read as settings. -/
structure Refusal where
  /-- What is wrong. -/
  text : Text
  /-- Does it say in which line? -/
  placed : Bool

/-- What writes and reads settings files. -/
structure Library where
  /-- The settings as the content of a file. -/
  marshal : Settings → Except Text Text
  /-- Reads the content of a file into settings. -/
  unmarshal : Text → Settings → Except Refusal Settings

/-- What is said of a settings file that is not read. -/
def Refusal.message (path : Text) (r : Refusal) : Text :=
  if r.placed then path ++ utf8 ", " ++ r.text else r.text

end Settings

end FencedCode
