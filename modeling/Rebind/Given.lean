/-!
# the value of an option

An option may carry its value, as in `--root=convex`.  A divider is never a value: in `--root=--`
it is taken away again, and the option is left with an empty list of values.  That is no mistake
of the command line, and the list is shown where the value would be; it is a failure only once the
value is needed.
-/

namespace Rebind

/-- what an option was given: a value, or nothing in the place of one -/
inductive Given (α : Type) where
  | value (a : α)
  | nothing
  deriving DecidableEq

namespace Given

/-- what was given as it is shown, where `text` shows a value -/
def shown (text : α → List Char) : Given α → List Char
  | .value a => text a
  | .nothing => ['[', ']']

def get? : Given α → Option α
  | .value a => some a
  | .nothing => none

end Given

/-- what was given for the ending of the names of files -/
abbrev Extension := Given (List Char)

def Extension.text (e : Extension) : List Char := Given.shown id e

end Rebind
