/-!
# the exports that are rebound

The generated module has two exports whose types are too deep to infer.
-/

namespace Rebind

/-- the exports of the generated module that are bound anew -/
inductive Export where
  | internal
  | api
  deriving DecidableEq

namespace Export

/-- both exports, in the order in which one block binds them -/
def all : List Export := [.internal, .api]

def name : Export → List Char
  | .internal => "internal".toList
  | .api => "api".toList

def ofName? (s : List Char) : Option Export := all.find? fun e => e.name == s

end Export

end Rebind
