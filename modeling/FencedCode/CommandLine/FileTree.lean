import FencedCode.CommandLine.Disk
import FencedCode.Path

/-!
# File trees

The files below a current directory, with their contents. Paths are followed element by element,
so a path through something that is no directory leads nowhere.
-/

namespace FencedCode

/-- The files and directories below a current directory, by their clean relative paths. -/
structure FileTree where
  /-- The files with their contents. -/
  files : List (Text × Text)
  /-- The directories besides those that files imply. -/
  folders : List Text := []

namespace FileTree

/-- The content of a file by its clean path. -/
def content? (t : FileTree) (path : Text) : Option Text :=
  t.files.lookup path

/-- Is the clean path a directory? The current one is, written as the empty path. -/
def isFolder (t : FileTree) (path : Text) : Bool :=
  path.isEmpty || t.folders.contains path
    || (t.files.any fun f => (path ++ [47]).isPrefixOf f.1)
    || t.folders.any fun f => (path ++ [47]).isPrefixOf f

/-- One element further from a directory given by its clean path. -/
def step (folder element : Text) : Text :=
  if folder.isEmpty then element else folder ++ 47 :: element

/-- The directory around a clean path. -/
def parent (path : Text) : Text :=
  Text.join [47] (Path.elements path).dropLast

/-- Follows elements from a directory; every element but the last leads to a directory. -/
def follow (t : FileTree) : Text → List Text → Except FileError Text
  | here, [] => .ok here
  | here, e :: rest =>
    if t.isFolder here then
      if e.isEmpty || e = utf8 "." then t.follow here rest
      else if e = utf8 ".." then t.follow (parent here) rest
      else t.follow (step here e) rest
    else if (t.content? here).isSome then .error .notDirectory
    else .error .missing

/-- The clean path of a path. Nothing is known about paths from the root. -/
def resolve (t : FileTree) (path : Text) : Except FileError Text :=
  if path.isEmpty || Path.isRooted path then .error .missing
  else t.follow [] (Path.elements path)

/-- Reads a file. -/
def read (t : FileTree) (path : Text) : Except FileError Text := do
  let p ← t.resolve path
  match t.content? p with
  | some c => .ok c
  | none => if t.isFolder p then .error .unreadableDirectory else .error .missing

/-- Writes a file, in place of what it held. -/
def write (t : FileTree) (path content : Text) : Except FileError FileTree := do
  let p ← t.resolve path
  if t.isFolder p then .error .isDirectory
  else if t.isFolder (parent p) then
    .ok { t with files := (p, content) :: t.files.filter fun f => f.1 != p }
  else .error .missing

/-- The tree as a disk. -/
def disk (t : FileTree) : Disk where
  read := t.read
  obstacle? path := match t.write path [] with
    | .ok _ => none
    | .error e => some e

/-- The files that another tree does not have. -/
def newSince (t old : FileTree) : List (Text × Text) :=
  t.files.filter fun f => (old.content? f.1).isNone

end FileTree

end FencedCode
