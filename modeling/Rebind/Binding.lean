import Rebind.Export
import Rebind.Text.Search

/-!
# the lines that bind an export

An export is bound by a `require` call whose type is `any`, under a linter exception; the block
that stands for one declaration opens with a header that holds the marker.  A text that holds the
marker has been dealt with.
-/

namespace Rebind

/-- the text that shows that a file has been dealt with -/
def marker : List Char := "Bypass TS2589".toList

/-- the first line of every block -/
def header : List Char :=
  "// ".toList ++ marker ++ " by using require() which doesn't trigger type inference".toList

def linterException : List Char :=
  ("// eslint-disable-next-line " ++
    "@typescript-eslint/no-explicit-any, @typescript-eslint/no-require-imports").toList

/-- the binding of `name` to its export of the module `path`, under its linter exception -/
def bindingLine (name path newline : List Char) : List Char :=
  linterException ++ newline ++ "const ".toList ++ name ++ " = require('".toList ++ path ++
    "').".toList ++ name ++ " as any;".toList

def bindingBlock (names : List (List Char)) (path newline : List Char) : List Char :=
  header ++ newline ++ newline.intercalate (names.map fun n => bindingLine n path newline)

def lineBreakOf (text : List Char) : List Char :=
  if hasPart ['\r', '\n'] text then ['\r', '\n'] else ['\n']

end Rebind
