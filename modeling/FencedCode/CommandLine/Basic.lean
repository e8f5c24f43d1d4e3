import FencedCode.CommandLine.Disk
import FencedCode.Repl
import FencedCode.Settings.Toml
import FencedCode.Syntax.Dump
import FencedCode.Token.Listing

/-!
# The command line

Options, then a command with its arguments. The commands run a program, read a stream of programs,
list tokens, dump a tree or dump the settings. A first argument that is no command is a program
to run, and no argument at all means a stream of programs.
-/

namespace FencedCode.CommandLine

/-! ## 1. Arguments -/

/-- The options in front of a command. -/
structure Options where
  /-- The settings file; empty for the one in the home directory. -/
  config : Text := []
  /-- Overrides the setting. -/
  trace : Option Bool := none
  /-- Overrides the setting. -/
  color : Option Text := none

/-- Why arguments are not understood. -/
inductive UsageError where
  | unknownFlag (name : Text)
  | badFlag (arg : Text)
  | noValue (name : Text)
  | badValue (name value : Text)

/-- The wording of a usage error. -/
def UsageError.text : UsageError → Text
  | unknownFlag n => utf8 "flag provided but not defined: -" ++ n
  | badFlag a => utf8 "bad flag syntax: " ++ a
  | noValue n => utf8 "flag needs an argument: -" ++ n
  | badValue n v =>
    utf8 "invalid boolean value " ++ Text.quoted v ++ utf8 " for -" ++ n ++ utf8 ": parse error"

/-- A truth value as arguments write it. -/
def readBool (t : Text) : Option Bool :=
  if (["1", "t", "T", "TRUE", "true", "True"].map utf8).contains t then some true
  else if (["0", "f", "F", "FALSE", "false", "False"].map utf8).contains t then some false
  else none

/-- The name and the value of a flag without its dashes. -/
def splitFlag (t : Text) : Text × Option Text :=
  let name := t.takeWhile (· != 61)
  match t.drop name.length with
  | [] => (name, none)
  | _ :: value => (name, some value)

/-- What stands behind the dashes of a flag; an argument with none is no flag. -/
def flag? : Text → Option Text
  | 45 :: 45 :: rest => some rest
  | [45] => none
  | 45 :: rest => some rest
  | _ => none

/-- Sets an option that takes a text. -/
def Options.setText (o : Options) (name value : Text) : Except UsageError Options :=
  if name = utf8 "config" then .ok { o with config := value }
  else if name = utf8 "color" then .ok { o with color := some value }
  else .error (.unknownFlag name)

/-- Options up to the first argument that is none, and the arguments from there on. Two dashes
    alone end the options. -/
def readOptions (o : Options) : List Text → Except UsageError (Options × List Text)
  | [] => .ok (o, [])
  | arg :: rest =>
    match flag? arg with
    | none => .ok (o, arg :: rest)
    | some body =>
      if arg = utf8 "--" then .ok (o, rest)
      else if body.head?.any (fun b => b == 45 || b == 61) then .error (.badFlag arg)
      else
        match splitFlag body with
        | (name, value) =>
          if name = utf8 "trace" then
            match value with
            | none => readOptions { o with trace := some true } rest
            | some v =>
              match readBool v with
              | some b => readOptions { o with trace := some b } rest
              | none => .error (.badValue name v)
          else
            match value, rest with
            | some v, rest => do
              let o ← o.setText name v
              readOptions o rest
            | none, v :: rest => do
              let o ← o.setText name v
              readOptions o rest
            | none, [] => do
              let _ ← o.setText name []
              .error (.noValue name)

/-- What to do. -/
inductive Command where
  | run (args : List Text)
  | repl
  | tokens (args : List Text)
  | tree (args : List Text)
  | dumpSettings (args : List Text)

/-- The arguments of a command; two dashes in front of them are dropped. -/
def commandArgs : List Text → List Text
  | [] => []
  | a :: rest => if a = utf8 "--" then rest else a :: rest

/-- The command that arguments give. -/
def Command.ofArgs : List Text → Command
  | [] => .repl
  | name :: rest =>
    let args := commandArgs rest
    if name = utf8 "run" then .run args
    else if name = utf8 "repl" then .repl
    else if name = utf8 "tokens" then .tokens args
    else if name = utf8 "ast" then .tree args
    else if name = utf8 "dumpconfig" then .dumpSettings args
    else .run (name :: rest)

/-! ## 2. Settings -/

/-- What a command finds. -/
structure World where
  /-- The files. -/
  disk : Disk
  /-- Standard input. -/
  input : Text
  /-- The home directory; empty if there is none. -/
  home : Text
  /-- The value of `NO_COLOR`. -/
  noColor : Text := []
  /-- Is standard error a terminal? -/
  terminal : Bool := false
  /-- The clock. -/
  clockMillis : Clock := (0 : Int)
  /-- What writes and reads settings files. -/
  library : Settings.Library := .toml Text.quoted

/-- Checks settings. -/
def checked (s : Settings) : Except Text Settings :=
  match s.complaint? with
  | none => .ok s
  | some complaint => .error complaint

/-- The path of the settings file, given the one that the options name; empty if there is none. -/
def settingsPath (home config : Text) : Text :=
  if config.isEmpty then Settings.defaultPath home else config

/-- The defaults changed by a settings file. Only the file in the home directory may be
    missing. -/
def resolveSettings (w : World) (config : Text) : Except Text Settings :=
  let path := settingsPath w.home config
  if path.isEmpty then .ok .defaults
  else match w.disk.read path with
    | .error .missing =>
      if config.isEmpty then .ok .defaults else .error (FileError.text path .missing)
    | .error e => .error (e.text path)
    | .ok content =>
      match w.library.unmarshal content .defaults with
      | .error r => .error (r.message path)
      | .ok s => checked s

/-- The settings of a command: the defaults, then the settings file, then the options. -/
def settings (w : World) (o : Options) : Except Text Settings := do
  let s ← resolveSettings w o.config
  checked { s with trace := o.trace.getD s.trace, color := o.color.getD s.color }

/-! ## 3. Commands -/

/-- What a command leaves behind. -/
structure Result where
  /-- The exit status. -/
  status : Nat := 0
  /-- Standard output. -/
  output : Text := []
  /-- Standard error. -/
  errors : Text := []
  /-- The path and the content of a file to write. -/
  saved : Option (Text × Text) := none

/-- A command that ends with last words, behind what the console shows. -/
def finish (exit : Console.Exit) (output shown : Text) : Result :=
  { status := exit.status
    output
    errors := shown ++ (if exit.message.isEmpty then [] else Text.line exit.message) }

/-- A command that fails before it does anything. -/
def failed (message : Text) : Result :=
  finish ⟨1, message⟩ [] []

/-- The console of a command. -/
def console (w : World) (s : Settings) : Console :=
  { color := Console.useColor s.color w.noColor w.terminal }

/-- The host of a command's programs. -/
def host (w : World) (s : Settings) : Host :=
  { clockMillis := w.clockMillis, tracing := s.trace }

/-- The name that stands for standard input. -/
def stdinName : Text :=
  utf8 "-"

/-- The text of a source by its name. -/
def readSource (w : World) (name : Text) : Except Text Text :=
  if name = stdinName then .ok w.input
  else match w.disk.read name with
    | .ok t => .ok (Source.withoutShebang t)
    | .error e => .error (e.text name)

/-- Runs a program. One that comes from standard input finds no input there. -/
def runSource (w : World) (s : Settings) (name : Text) : Result :=
  match readSource w name with
  | .error e => failed e
  | .ok source =>
    let input : Input := if name = stdinName then .empty else ⟨w.input, none⟩
    let (e, m) := Machine.runText (host w s) source (.standard input)
    let c := (console w s).logEvents m.events.reverse
    match e with
    | none => finish ⟨0, []⟩ m.written c.text
    | some e =>
      let c := c.reportError e
      finish (c.exitFor e.text) m.written c.text

/-- Reads a stream of programs. -/
def runStream (w : World) (s : Settings) : Result :=
  let (failure, r) := Repl.run (host w s) { console := console w s, input := ⟨w.input, none⟩ }
  let complaint := failure.elim [] Repl.readError
  finish ⟨0, []⟩ r.written (r.console.text ++ complaint)

/-- Shows something about a source, and its diagnostics. -/
def inspect (w : World) (s : Settings) (name : Text) (view : Text → Text × List Diagnostic) :
    Result :=
  match readSource w name with
  | .error e => failed e
  | .ok source =>
    let (output, ds) := view source
    if ds.isEmpty then finish ⟨0, []⟩ output []
    else
      let c := (console w s).reportDiagnostics ds
      finish (c.exitFor (Diagnostic.summary ds)) output c.text

/-- The tokens of a source. -/
def tokenView (source : Text) : Text × List Diagnostic :=
  let scan := Scan.ofText source
  (Token.listings scan.tokens, scan.diagnostics)

/-- The tree of a source; there is none when there are diagnostics. -/
def treeView (source : Text) : Text × List Diagnostic :=
  let p := Program.ofText source
  (if p.diagnostics.isEmpty then Sheet.ofProgram p.stmts else [], p.diagnostics)

/-- Writes the settings to standard output or to a file. The file is there, and empty, if the
    settings cannot be written. -/
def saveSettings (w : World) (s : Settings) : List Text → Result
  | [] =>
    match w.library.marshal s with
    | .ok t => finish ⟨0, []⟩ t []
    | .error e => failed e
  | path :: _ =>
    match w.disk.obstacle? path with
    | some e => failed (e.text path)
    | none =>
      match w.library.marshal s with
      | .ok t => { saved := some (path, t) }
      | .error e => { failed e with saved := some (path, []) }

/-- The usage of a command that takes one source. -/
def usage (command : String) : Text :=
  utf8 "usage: codelang " ++ utf8 command ++ utf8 " FILE|-"

/-- A command that takes exactly one source. -/
def withSource (w : World) (o : Options) (command : String) (args : List Text)
    (act : Settings → Text → Result) : Result :=
  match args with
  | [name] =>
    match settings w o with
    | .ok s => act s name
    | .error e => failed e
  | _ => failed (usage command)

/-- Does what a command says. -/
def perform (w : World) (o : Options) : Command → Result
  | .run args => withSource w o "run" args (runSource w)
  | .tokens args => withSource w o "tokens" args fun s name => inspect w s name tokenView
  | .tree args => withSource w o "ast" args fun s name => inspect w s name treeView
  | .repl =>
    match settings w o with
    | .ok s => runStream w s
    | .error e => failed e
  | .dumpSettings args =>
    match settings w o with
    | .ok s => saveSettings w s args
    | .error e => failed e

/-- The files whose contents a command may want to know. -/
def Command.sources : Command → List Text
  | .run [name] | .tokens [name] | .tree [name] => [name]
  | _ => []

/-- The files whose contents the arguments may ask for. -/
def readPaths (home : Text) (args : List Text) : List Text :=
  match readOptions {} args with
  | .ok (o, rest) =>
    settingsPath home o.config :: (Command.ofArgs rest).sources
  | .error _ => []

/-- Does what the arguments say. -/
def invoke (w : World) (args : List Text) : Result :=
  match readOptions {} args with
  | .ok (o, rest) => perform w o (.ofArgs rest)
  | .error e => failed e.text

end FencedCode.CommandLine
