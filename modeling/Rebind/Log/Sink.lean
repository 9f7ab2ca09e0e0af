import Rebind.Log
import Rebind.Text.Utf8
import Rebind.Tree

/-!
# where log records go

Records of a high enough level go to the error stream and, as the same lines, to the end of the
log file.  The file is held by its place in the tree, so whatever else is written there meanwhile,
the next line goes to its end.
-/

namespace Rebind

namespace Log

/-- where records go: the lowest level that is written, the time stamp of the lines, and the place
of the log file if there is one -/
structure Sink where
  lowest : Level := .warning
  stamp : List Char := []
  file : Option Location := none
  deriving DecidableEq

/-- the tree after the line of a record was added to the log file -/
def Sink.store (sink : Sink) (r : Record) (t : Tree) : Tree :=
  match sink.file with
  | none => t
  | some l => t.append l (Utf8.encode (r.line sink.stamp))

end Log

end Rebind
