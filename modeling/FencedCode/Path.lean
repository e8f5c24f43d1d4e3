import FencedCode.Text.Basic

/-!
# Paths

Paths are texts with slashes between their elements. Cleaning a path removes empty and `.`
elements and lets `..` take away the element before it.
-/

namespace FencedCode.Path

/-- The elements between slashes. -/
def elements (p : Text) : List Text :=
  p.splitOn 47

/-- Does the path start at the root? -/
def isRooted (p : Text) : Bool :=
  p.head? = some 47

/-- Adds an element to a path whose elements are given from the last to the first. -/
def follow (rooted : Bool) (back : List Text) (e : Text) : List Text :=
  if e.isEmpty || e = utf8 "." then back
  else if e = utf8 ".." then
    match back with
    | [] => if rooted then [] else [e]
    | last :: rest => if last = e then e :: back else rest
  else e :: back

/-- The shortest path of the same meaning. -/
def clean (p : Text) : Text :=
  let rooted := isRooted p
  let body := Text.join [47] ((elements p).foldl (follow rooted) []).reverse
  if rooted then 47 :: body
  else if body.isEmpty then utf8 "."
  else body

/-- One path behind another. -/
def join (a b : Text) : Text :=
  if a.isEmpty && b.isEmpty then []
  else if a.isEmpty then clean b
  else if b.isEmpty then clean a
  else clean (a ++ 47 :: b)

end FencedCode.Path
