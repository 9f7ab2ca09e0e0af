import Rebind.Text.Blank
import Rebind.Text.Search
import Rebind.Text.Word

/-!
# patterns

What is looked for in a text can be written as a pattern: literals, sets of characters once or as
a run, optional parts, looks ahead, and the three places a pattern may ask for (a line begins, a
line stops, a word begins or ends).

`Pattern.run` reads a pattern the greedy way and takes choices back.  A run takes all it can, an
optional part is taken, and if what follows cannot be read then, the run gives one character back,
or the part is left out.  A look ahead is settled at its first success.

* `matchAt`   the match that begins at a position;
* `search?`   the first match of a text;
* `findAll`   the matches from left to right, each begun at the end of the last one or later;
* `sub`       the text with a block in the place of each of them.
-/

namespace Rebind

/-- a set of characters, as a pattern writes it -/
inductive CharSet where
  | blank
  | among (cs : List Char)
  | except (cs : List Char)
  deriving DecidableEq

def CharSet.holds : CharSet → Char → Bool
  | .blank, c => isBlank c
  | .among cs, c => cs.contains c
  | .except cs, c => !cs.contains c

inductive Pattern where
  | lit (s : List Char)
  | one (k : CharSet)
  | many (k : CharSet)
  | opt (p : Pattern)
  | seq (p q : Pattern)
  | ahead (p : Pattern)
  | lineStart
  | lineEnd
  | wordEdge
  deriving DecidableEq

/-- a place in a text: the characters behind it, the nearest first, and those ahead -/
structure Cursor where
  behind : List Char
  ahead : List Char
  deriving DecidableEq

namespace Cursor

def inText (text : List Char) (s : Nat) : Cursor := ⟨(text.take s).reverse, text.drop s⟩

/-- how many characters lie behind -/
def position (cur : Cursor) : Nat := cur.behind.length

def startsLine (cur : Cursor) : Bool := cur.behind.head?.all (· == '\n')

def stopsLine (cur : Cursor) : Bool := cur.ahead.head?.all (· == '\n')

/-- one neighbour is a word character and the other is not -/
def atWordEdge (cur : Cursor) : Bool := cur.behind.head?.any isWord != cur.ahead.head?.any isWord

end Cursor

namespace Pattern

/-- one or more -/
def plus (k : CharSet) : Pattern := .seq (.one k) (.many k)

def inOrder : List Pattern → Pattern
  | [] => .lit []
  | p :: ps => .seq p (inOrder ps)

/-! ## reading a pattern -/

/-- a run of `k`, as long as it can be, and shorter where `next` asks for it -/
def runMany (k : CharSet) (next : Cursor → Option Cursor) (behind : List Char) :
    List Char → Option Cursor
  | [] => next ⟨behind, []⟩
  | c :: cs =>
    if k.holds c then (runMany k next (c :: behind) cs).orElse fun _ => next ⟨behind, c :: cs⟩
    else next ⟨behind, c :: cs⟩

/-- reads a pattern at a place, and `next` where it ends -/
def run : Pattern → (Cursor → Option Cursor) → Cursor → Option Cursor
  | .lit s, next, cur => (afterLit? s cur.ahead).bind fun r => next ⟨s.reverse ++ cur.behind, r⟩
  | .one _, _, ⟨_, []⟩ => none
  | .one k, next, ⟨behind, c :: r⟩ => if k.holds c then next ⟨c :: behind, r⟩ else none
  | .many k, next, cur => runMany k next cur.behind cur.ahead
  | .opt p, next, cur => (p.run next cur).orElse fun _ => next cur
  | .seq p q, next, cur => p.run (q.run next) cur
  | .ahead p, next, cur => if (p.run some cur).isSome then next cur else none
  | .lineStart, next, cur => if cur.startsLine then next cur else none
  | .lineEnd, next, cur => if cur.stopsLine then next cur else none
  | .wordEdge, next, cur => if cur.atWordEdge then next cur else none

/-- where the match that begins at `s` ends -/
def matchAt (p : Pattern) (text : List Char) (s : Nat) : Option Nat :=
  (p.run some (Cursor.inText text s)).map Cursor.position

/-! ## matches in a text -/

/-- the matches that begin at one of the positions, none of them before `p`, the end of the last -/
def findFrom (endAt? : Nat → Option Nat) : List Nat → Nat → List (Nat × Nat)
  | [], _ => []
  | s :: ss, p =>
    if s < p then findFrom endAt? ss p
    else
      match endAt? s with
      | none => findFrom endAt? ss p
      | some e => (s, e) :: findFrom endAt? ss e

/-- the matches from left to right -/
def findAll (p : Pattern) (text : List Char) : List (Nat × Nat) :=
  findFrom (p.matchAt text) (List.range (text.length + 1)) 0

/-- the first match -/
def search? (p : Pattern) (text : List Char) : Option (Nat × Nat) :=
  (List.range (text.length + 1)).findSome? fun s => (p.matchAt text s).map (s, ·)

/-- the text from `p` on with `block` in the place of each of the spans -/
def fill (block text : List Char) (p : Nat) : List (Nat × Nat) → List Char
  | [] => text.drop p
  | (s, e) :: l => (text.take s).drop p ++ block ++ fill block text e l

/-- the text with `block` in the place of each match -/
def sub (p : Pattern) (block text : List Char) : List Char := fill block text 0 (p.findAll text)

end Pattern

end Rebind
