import Rebind.Glob
import Rebind.Text.Search
import Rebind.Tree.Walk

/-!
# searching below a root

A pattern is read part by part between its slashes.  Two stars alone stand for a directory and
all directories below it, links not followed; a part without a star, a question mark or an
opening bracket is a name; any other part is a pattern for the names in a directory.  A slash at
the end is a part too: it asks for a directory before it.

A search comes upon paths one after the other, and may fail on the way; so its result is a list of
paths and failures, in the order in which they are come upon.  The entries of a directory are
looked at in order, and the directory itself before what is below it.

A walk through directories goes down by calls inside one another, so it fails at the first
directory that lies too deep below the one it starts from.  It looks at every link among the entries
to learn whether it leads to a directory, though it follows none.  That is how release 3.11.2 of the
library walks; releases from 3.11.4 on do not look at links, and a link alone makes no walk of
theirs fail.
-/

namespace Rebind

/-- a path that a search came upon, by its names below the root, or a failure on the way -/
abbrev Hit := Except Failure (List Name)

namespace Discovery

def path (root : Path) (names : List Name) : Path := { root with names := root.names ++ names }

/-! ## patterns -/

inductive Part where
  | anyDepth
  | wild (atoms : List Glob.Atom)
  | named (n : Name)
  | slash
  deriving DecidableEq

/-- a name with two stars in a row that is more than those -/
def hasStars (n : Name) : Bool := hasPart ['*', '*'] n && n != ['*', '*']

def Part.ofText (n : Name) : Part :=
  if n = ['*', '*'] then .anyDepth
  else if n.any fun c => c == '*' || c == '?' || c == '[' then .wild (Glob.ofText n)
  else .named n

def parts? (pattern : List Char) : Except Failure (List Part) :=
  let names := namesOf pattern
  if names.any hasStars then .error .starsInName
  else .ok (names.map Part.ofText ++ if pattern.getLast? = some '/' then [.slash] else [])

/-! ## the search -/

def after (answer : Except Failure α) (hits : α → List Hit) : List Hit :=
  match answer with
  | .error f => [.error f]
  | .ok a => hits a

/-- how many directories a walk can go down from the one it starts from.  Nine calls are open around
the walk (two that start the module, the module, the main function, the run, and four that find its
files), one is for the directory that the walk starts from, and handing over a path takes six. -/
def walkLimit : Nat := callLimit - 16

/-- opens a directory to list it, `depth` directories below the one where a walk starts -/
def enter (t : Tree) (cwd : Location) (depth : Nat) (p : Path) : Except Failure Location :=
  if walkLimit < depth then .error .tooDeep else onPath p (t.target? cwd p)

/-- a directory is come upon before it is listed -/
def visit (t : Tree) (cwd : Location) (root : Path) (depth : Nat) (names : List Name) : List Hit :=
  .ok names :: after (enter t cwd depth (path root names)) fun _ => []

/-- the directory with the given names below the root and all directories below it.  Each link on
the way is looked at, though none is followed. -/
def directories (t : Tree) (cwd : Location) (root : Path) (names : List Name) : List Hit :=
  match t.target? cwd (path root names) with
  | .error _ => []
  | .ok l =>
    visit t cwd root 0 names ++ ((t.below l).mergeSort namesLe).flatMap fun ns =>
      match t.get? (locationFrom l ns) with
      | some .directory => visit t cwd root ns.length (names ++ ns)
      | some (.link _) =>
        after (t.entryLeadsToDirectory cwd (path root (names ++ ns.dropLast))
          (ns.getLast?.getD [])) fun _ => []
      | _ => []

/-- what a search for the parts comes upon from the directory with the given names below the root.
A part with more parts after it asks for directories. -/
def search (t : Tree) (cwd : Location) (root : Path) : List Part → List Name → List Hit
  | [], names => [.ok names]
  | .slash :: _, names => [.ok names]
  | .anyDepth :: parts, names =>
    (directories t cwd root names).flatMap fun hit => after hit (search t cwd root parts)
  | .wild atoms :: parts, names =>
    after (t.list cwd (path root names)) fun entries => entries.flatMap fun n =>
      after (if parts.isEmpty then .ok true else t.entryLeadsToDirectory cwd (path root names) n)
        fun wanted =>
          if wanted && Glob.fits atoms n then search t cwd root parts (names ++ [n]) else []
  | .named n :: parts, names =>
    let p := path root (names ++ [n])
    after (if parts.isEmpty then t.leadsSomewhere cwd p else t.leadsToDirectory cwd p)
      fun wanted => if wanted then search t cwd root parts (names ++ [n]) else []

end Discovery

end Rebind
