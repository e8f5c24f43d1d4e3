import FencedCode.Settings.Document

/-!
# Settings as documents

How a document changes settings and how settings are written as one, a line for each field: the
library for settings files that programs run with.
-/

namespace FencedCode.Settings

/-! ## 1. Reading -/

/-- The field with the given key. -/
def Field.ofKey (k : Text) : Option Field :=
  Field.all.find? fun f => f.key == k

/-- The type of a field's value. -/
def Field.typeName : Field → Text
  | trace => utf8 "bool"
  | _ => utf8 "string"

/-- The type of a value in a document. -/
def Entry.Value.typeName : Entry.Value → Text
  | plain (.string _) => utf8 "string"
  | plain (.boolean _) => utf8 "boolean"
  | integer => utf8 "integer"
  | float => utf8 "float"

/-- The settings with one field changed, if the value is of its type. -/
def put (s : Settings) : Field → Entry.Value → Option Settings
  | .prompt, .plain (.string t) => some { s with prompt := t }
  | .continuationPrompt, .plain (.string t) => some { s with continuationPrompt := t }
  | .historyFile, .plain (.string t) => some { s with historyFile := t }
  | .color, .plain (.string t) => some { s with color := t }
  | .trace, .plain (.boolean b) => some { s with trace := b }
  | _, _ => none

/-- Why a document cannot be applied. -/
inductive LoadError where
  /-- The text is no document. -/
  | malformed
  | unknownKey (line : Nat) (key : Text)
  | wrongType (line : Nat) (field : Field) (found : Entry.Value)
  | table (line : Nat) (field : Field)

/-- The wording of a load error. -/
def LoadError.text : LoadError → Text
  | malformed => utf8 "invalid TOML syntax"
  | unknownKey n k =>
    utf8 "line " ++ Text.ofNat n ++ utf8 ": field '" ++ k
      ++ utf8 "' is not defined in config.Config"
  | wrongType n f v =>
    utf8 "line " ++ Text.ofNat n ++ utf8 ": (config.Config." ++ f.key
      ++ utf8 ") cannot unmarshal TOML " ++ v.typeName ++ utf8 " into " ++ f.typeName
  | table n f =>
    utf8 "line " ++ Text.ofNat n ++ utf8 ": cannot unmarshal TOML table into " ++ f.typeName
      ++ utf8 " (need struct or map)"

/-- Applies one entry. -/
def applyEntry (s : Settings) (e : Entry) : Except LoadError Settings :=
  match e.item with
  | .pair k v =>
    match Field.ofKey k with
    | none => .error (.unknownKey e.line k)
    | some f =>
      match s.put f v with
      | some s' => .ok s'
      | none => .error (.wrongType e.line f v)
  | .header k =>
    match Field.ofKey k with
    | none => .error (.unknownKey e.line k)
    | some f => .error (.table e.line f)

/-- Does an entry say the key of an earlier one again? -/
def repeatsKey : List Text → List Entry → Bool
  | _, [] => false
  | seen, e :: es =>
    match e.item with
    | .pair k _ | .header k => seen.contains k || repeatsKey (k :: seen) es

/-- Reads a document into the settings. Fields that it leaves out stay as they are. -/
def load (s : Settings) (t : Text) : Except LoadError Settings :=
  match Document.read t with
  | none => .error .malformed
  | some es => if repeatsKey [] es then .error .malformed else es.foldlM applyEntry s

/-! ## 2. Writing -/

/-- What is written for a value, `quote` writing texts. -/
def Value.spelling (quote : Text → Text) : Value → Text
  | string t => quote t
  | boolean b => utf8 (if b then "true" else "false")

/-- A line `key = value`. -/
def pairLine (key value : Text) : Text :=
  Text.line (key ++ utf8 " = " ++ value)

/-- The settings as a document, a line for each field that is not left out. -/
def document (quote : Text → Text) (s : Settings) : Text :=
  s.present.flatMap fun f => pairLine f.key ((s.get f).spelling quote)

/-- The settings as the document that is written for them. -/
def dump (s : Settings) : Text :=
  s.document Text.quoted

/-! ## 3. The library -/

/-- Settings files as documents, `quote` writing their texts. -/
def Library.toml (quote : Text → Text) : Library where
  marshal s := .ok (s.document quote)
  unmarshal t s := (s.load t).mapError fun e => ⟨e.text, true⟩

end FencedCode.Settings
