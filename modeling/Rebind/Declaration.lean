import Rebind.Export
import Rebind.Text.Blank
import Rebind.Text.Search
import Rebind.Text.Word

/-!
# import declarations of the generated module

A declaration stands at the start of a line and reads, brackets around what is optional,
`import [type] { ... } from '.../_generated/api[.js]' ...`:

* blanks (line breaks too) are free between its words, and at least one stands in each place;
* the braces hold anything but a closing brace, and each of the wanted exports as a whole word;
* the module specifier begins with a dot and ends in `/_generated/api` or `/_generated/api.js`;
  the two quotes need not be alike, and between the dot and that ending the line may hold anything;
* the rest of the line belongs to the declaration.  A carriage return that closes the line does
  not, and there is no other carriage return after the closing quote.

`Declaration.after?` reads one declaration at the head of a text.  Each piece is either a literal,
a maximal run, or bounded by the line, so a text has at most one declaration at its head and no
choice has to be taken back.  The patterns by which declarations are looked for are those of
`Sought.pattern`; they match where the reader finds declarations, and to the same ends
(`Sought.findAll_eq_ends`).
-/

namespace Rebind

def isQuote (c : Char) : Bool := c == '\'' || c == '"'

namespace Declaration

/-! ## the opening -/

/-- what follows `import`, an optional `type`, and the opening brace -/
def afterOpening? (cs : List Char) : Option (List Char) := do
  let r ← afterLit? "import".toList cs
  let r ← afterBlanks? r
  afterLit? ['{'] (((afterLit? "type".toList r).bind afterBlanks?).getD r)

/-! ## the module specifier and its line -/

/-- a closing quote, and no carriage return after it -/
def quoteEnds : List Char → Bool
  | [] => false
  | q :: tail => isQuote q && !tail.contains '\r'

/-- the ending of the specifier, the closing quote and the rest of the line -/
def endsSpecifier (cs : List Char) : Bool :=
  ((afterLit? "/_generated/api".toList cs).any quoteEnds) ||
    ((afterLit? "/_generated/api.js".toList cs).any quoteEnds)

def reachesEnding : List Char → Bool
  | [] => false
  | c :: cs => endsSpecifier (c :: cs) || reachesEnding cs

/-- a relative specifier of the generated module, without its opening quote, and the rest of its
line -/
def namesGenerated : List Char → Bool
  | '.' :: cs => reachesEnding cs
  | _ => false

/-- the first line of `cs`, without its line feed and without one carriage return before that -/
def firstLine (cs : List Char) : List Char :=
  let line := cs.takeWhile (· != '\n')
  if line.getLast? = some '\r' then line.dropLast else line

/-- what follows the quoted specifier and the rest of its line -/
def afterSpecifier? : List Char → Option (List Char)
  | [] => none
  | q :: cs =>
    if isQuote q && namesGenerated (firstLine cs) then some (cs.drop (firstLine cs).length)
    else none

/-! ## the whole declaration -/

/-- what follows the closing brace of a declaration: `from` and the specifier with its line -/
def afterSource? (cs : List Char) : Option (List Char) := do
  let r ← afterLit? ['}'] cs
  let r ← afterBlanks? r
  let r ← afterLit? "from".toList r
  let r ← afterBlanks? r
  afterSpecifier? r

/-- what follows the declaration of all of `wanted` that stands at the head of `cs` -/
def after? (wanted : List Export) (cs : List Char) : Option (List Char) := do
  let r ← afterOpening? cs
  let rest ← afterSource? (r.dropWhile (· != '}'))
  if wanted.all fun e => hasWord e.name (r.takeWhile (· != '}')) then some rest else none

end Declaration

end Rebind
