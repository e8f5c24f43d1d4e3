import FencedCode.Text.Basic

/-!
# Disks

What a command can learn about files: what reading one gives, and whether one can be written.
-/

namespace FencedCode

/-- Why a file could not be used. -/
inductive FileError where
  | missing
  | notDirectory
  | isDirectory
  /-- It could be opened, but it is a directory and holds no bytes. -/
  | unreadableDirectory
  | denied

/-- The wording of a file error about a path. -/
def FileError.text (path : Text) : FileError → Text
  | missing => utf8 "open " ++ path ++ utf8 ": no such file or directory"
  | notDirectory => utf8 "open " ++ path ++ utf8 ": not a directory"
  | isDirectory => utf8 "open " ++ path ++ utf8 ": is a directory"
  | unreadableDirectory => utf8 "read " ++ path ++ utf8 ": is a directory"
  | denied => utf8 "open " ++ path ++ utf8 ": permission denied"

/-- The files that a command finds. -/
structure Disk where
  /-- What reading the file at a path gives. -/
  read : Text → Except FileError Text
  /-- Why the file at a path cannot be written; none if it can. -/
  obstacle? : Text → Option FileError

end FencedCode
