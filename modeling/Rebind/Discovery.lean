import Rebind.Discovery.Search
import Rebind.Given

/-!
# discovery

The files to work on are the regular files below a root, links to such files among them, whose
name ends in an extension and that do not lie in a directory of generated code or of
dependencies.  They are listed by their names below the root, name by name in the order of code
points.

The extension is read twice: after a star, as a pattern for names at any depth, and literally, as
the ending of a name.  A file has to satisfy both.
-/

namespace Rebind

/-- directories that are left out at any depth below the root -/
def excludedNames : List Name := ["_generated".toList, "node_modules".toList]

/-- the generated module, seen from a root -/
def generatedApi : Path := Path.ofText "_generated/api.js".toList

def Extension.ends (n : Name) : Extension → Except Failure Bool
  | .value s => .ok (s.isSuffixOf n)
  | .nothing => .error .extensionNotGiven

namespace Discovery

/-- whether a path is to be worked on, `names` being its names below the root -/
def eligible (t : Tree) (cwd : Location) (extension : Extension) (p : Path) (names : List Name) :
    Except Failure Bool := do
  if names.dropLast.any excludedNames.contains then .ok false
  else if ← extension.ends p.lastName then t.leadsToFile cwd p
  else .ok false

/-- whether a path below `root` is to be worked on -/
def accepts (t : Tree) (cwd : Location) (root : Path) (extension : Extension) (p : Path) :
    Except Failure Bool :=
  match p.namesBelow? root with
  | none => .error (.notBelow p root)
  | some names => eligible t cwd extension p names

/-- below the root, a path is asked about by its names there -/
theorem accepts_path (t : Tree) (cwd : Location) (root : Path) (extension : Extension)
    (names : List Name) :
    accepts t cwd root extension (path root names) =
      eligible t cwd extension (path root names) names := by
  rw [accepts, path, Path.namesBelow?_append]

/-- the names that were come upon and are kept, up to the first failure -/
def keepHits (keep : List Name → Except Failure Bool) :
    List Hit → Except Failure (List (List Name))
  | [] => .ok []
  | hit :: hits => do
    let names ← hit
    let kept ← keep names
    let rest ← keepHits keep hits
    return if kept then names :: rest else rest

/-- the names below `root` of the files to work on, in order -/
def findNames (t : Tree) (cwd : Location) (root : Path) (extension : Extension) :
    Except Failure (List (List Name)) := do
  let parts ← parts? ('*' :: extension.text)
  if ← t.leadsToDirectory cwd root then
    let found ← keepHits (fun names => accepts t cwd root extension (path root names))
      (search t cwd root (.anyDepth :: parts) [])
    return found.mergeSort namesLe
  else return []

def find (t : Tree) (cwd : Location) (root : Path) (extension : Extension) :
    Except Failure (List Path) := do
  return (← findNames t cwd root extension).map (path root)

end Discovery

end Rebind
