import Rebind.Text.Utf8
import Rebind.Tree.Change

/-!
# texts in files

Files hold texts as UTF-8.  Nothing else is done to them on the way: line breaks and a byte order
mark are read and written as they are.
-/

namespace Rebind.Tree

def readText (t : Tree) (cwd : Location) (p : Path) : Except Failure (List Char) := do
  match Utf8.decode (← t.read cwd p) with
  | .ok text => .ok text
  | .error fault => .error (.notUtf8 fault)

def writeText (t : Tree) (cwd : Location) (p : Path) (text : List Char) : Except Failure Tree :=
  t.write cwd p (Utf8.encode text)

end Rebind.Tree
