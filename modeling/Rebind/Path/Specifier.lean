import Rebind.Path

/-!
# module specifiers

A module is reached from a file by a relative path with forward slashes.  A specifier that begins
with a dot is relative; any other gets `./` in front, so that it is not read as a package.
-/

namespace Rebind

namespace Path

/-- how many names the two lists share at their heads -/
def sharedLength : List Name → List Name → Nat
  | a :: as, b :: bs => if a = b then sharedLength as bs + 1 else 0
  | _, _ => 0

/-- the way from the directory `dir` to `target`, both resolved: up as often as needed, then down -/
def wayNames (dir target : List Name) : List Name :=
  let k := sharedLength dir target
  List.replicate (dir.length - k) ['.', '.'] ++ target.drop k

/-- the text of a way; the way to the directory itself is a dot -/
def wayText (way : List Name) : List Char := if way = [] then ['.'] else joinSlash way

end Path

/-- the specifier for a relative path: forward slashes, and a dot in front -/
def specifierOf (relative : List Char) : List Char :=
  let s := relative.map fun c => if c = '\\' then '/' else c
  if s.head? = some '.' then s else '.' :: '/' :: s

/-- the specifier by which the file `source` reaches `target`, relative paths taken from `cwd` -/
def importPath (cwd : List Name) (source target : Path) : List Char :=
  specifierOf (Path.wayText (Path.wayNames (source.parent.absoluteNames cwd)
    (target.absoluteNames cwd)))

end Rebind
