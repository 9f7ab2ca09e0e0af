import Rebind.Export
import Rebind.Text.Pattern

/-!
# the three patterns of a declaration

A declaration is looked for with one of three patterns: one for each export, and one for both
between one pair of braces.  In the usual writing, with the name of an export for `NAME`,

* all three begin with     `^import\s+(?:type\s+)?\{`;
* the pattern for one has  `[^}]*\bNAME\b[^}]*\}` for the braces: the name is taken in its place;
* the one for both has     `(?=[^}]*\binternal\b)(?=[^}]*\bapi\b)[^}]*\}`: each name is looked for
  ahead, and then the braces are taken with whatever is between them;
* all three end with
  `\s+from\s+['"]\.\.?/?.*/_generated/api(?:\.js)?['"];?[^\r\n]*(?=\r?$)`.

A line begins after each line feed, and stops before each.
-/

namespace Rebind

/-- what is looked for: one export, or both between one pair of braces -/
inductive Sought where
  | one (e : Export)
  | both
  deriving DecidableEq

namespace Sought

open Pattern

def exports : Sought → List Export
  | .one e => [e]
  | .both => Export.all

/-- what stands in front of the braces, and the opening one -/
def opening : List Pattern :=
  [.lineStart, .lit "import".toList, plus .blank,
    .opt (inOrder [.lit "type".toList, plus .blank]), .lit ['{']]

def inBraces : Pattern := .many (.except ['}'])

/-- the name of an export after anything that may stand between braces -/
def named (e : Export) : List Pattern := [inBraces, .wordEdge, .lit e.name, .wordEdge]

/-- what stands between the braces, and the closing one -/
def braces : Sought → List Pattern
  | .one e => named e ++ [inBraces, .lit ['}']]
  | .both => Export.all.map (fun e => .ahead (inOrder (named e))) ++ [inBraces, .lit ['}']]

/-- the clause behind the braces, to the end of its line -/
def clause : List Pattern :=
  [plus .blank, .lit "from".toList, plus .blank,
    .one (.among ['\'', '"']), .lit ['.'], .opt (.lit ['.']), .opt (.lit ['/']),
    .many (.except ['\n']), .lit "/_generated/api".toList, .opt (.lit ".js".toList),
    .one (.among ['\'', '"']), .opt (.lit [';']), .many (.except ['\r', '\n']),
    .ahead (inOrder [.opt (.lit ['\r']), .lineEnd])]

def pattern (q : Sought) : Pattern := inOrder (opening ++ (q.braces ++ clause))

end Sought

end Rebind
