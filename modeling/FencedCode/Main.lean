import FencedCode.CommandLine.Basic
import Std.Time.DateTime.Timestamp

/-!
# The program

Gathers what a command may want to know, lets the command line decide, and carries out what it
says. Standard input is read to its end before anything runs.
-/

namespace FencedCode.Shell

/-- Why a file could not be used, from what the system says. -/
def fileError : IO.Error → FileError
  | .permissionDenied .. => .denied
  | .inappropriateType none _ _ => .unreadableDirectory
  | .inappropriateType _ 21 _ => .isDirectory
  | .inappropriateType .. => .notDirectory
  | _ => .missing

/-- The bytes of a text. -/
def bytes (t : Text) : ByteArray :=
  ⟨t.toArray⟩

/-- A path as the system wants it. -/
def pathOf (t : Text) : String :=
  (String.fromUTF8? (bytes t)).getD ""

/-- Reads a file. -/
def readFile (path : Text) : IO (Except FileError Text) := do
  match ← (IO.FS.readBinFile (pathOf path)).toBaseIO with
  | .ok content => return .ok content.toList
  | .error e => return .error (fileError e)

/-- Writes a file. -/
def writeFile (path content : Text) : IO (Option FileError) := do
  match ← (IO.FS.writeBinFile (pathOf path) (bytes content)).toBaseIO with
  | .ok _ => return none
  | .error e => return some (fileError e)

/-- Reads a stream to its end, `acc` being the pieces read so far, the latest first. -/
partial def readAll (stream : IO.FS.Stream) (acc : List Text) : IO Text := do
  let piece ← stream.read 65536
  if piece.isEmpty then return acc.reverse.flatten
  readAll stream (piece.toList :: acc)

/-- The value of a variable of the environment; empty if it is not set. -/
def variableOf (name : String) : IO Text := do
  return utf8 ((← IO.getEnv name).getD "")

end FencedCode.Shell

open FencedCode FencedCode.Shell in
/-- Runs the command line. -/
def main (args : List String) : IO UInt32 := do
  let args := args.map utf8
  let home ← variableOf "HOME"
  let contents ← (CommandLine.readPaths home args).mapM fun path => do
    return (path, ← readFile path)
  let now ← Std.Time.Timestamp.now
  let result := CommandLine.invoke
    { disk :=
        { read := fun path => (contents.lookup path).getD (.error .missing)
          obstacle? := fun _ => none }
      input := ← readAll (← IO.getStdin) []
      home
      noColor := ← variableOf "NO_COLOR"
      terminal := ← (← IO.getStderr).isTty
      clockMillis := now.toMillisecondsSinceUnixEpoch.val } args
  (← IO.getStdout).write (bytes result.output)
  (← IO.getStderr).write (bytes result.errors)
  if let some (path, content) := result.saved then
    if let some e ← writeFile path content then
      (← IO.getStderr).write (bytes (Text.line (e.text path)))
      return 1
  return UInt32.ofNat result.status
