import Rebind.Tree.Walk

/-!
# making and removing

What a path leads to can be written, and what its last name stands for can be made or removed.
-/

namespace Rebind.Tree

/-! ## files -/

/-- the location that a path leads to, a new empty file if there is none -/
def openFile (t : Tree) (cwd : Location) (p : Path) : Except Failure (Location × Tree) :=
  onPath p do
    match ← t.place true cwd p with
    | .free l => .ok (l, t.put l (.file []))
    | .found l => if (t.bytes? l).isSome then .ok (l, t) else .error .isDirectory

/-- the tree with `bs` in the file that a path leads to; the file is made if there is none -/
def write (t : Tree) (cwd : Location) (p : Path) (bs : List UInt8) : Except Failure Tree := do
  let (l, t) ← t.openFile cwd p
  return t.put l (.file bs)

/-! ## directories and links -/

def create (t : Tree) (cwd : Location) (p : Path) (n : Node) : Except Refused Tree := do
  match ← t.lastPlace cwd p with
  | .found _ => .error .alreadyThere
  | .free l => .ok (t.put l n)

def makeDirectory (t : Tree) (cwd : Location) (p : Path) : Except Failure Tree :=
  onPath p (t.create cwd p .directory)

/-- how making a directory ends that failed with `f`: well, if the path leads to a directory -/
def unlessThere (t : Tree) (cwd : Location) (p : Path) (f : Failure) : Except Failure Unit := do
  if ← t.leadsToDirectory cwd p then .ok () else .error f

/-- makes the directory of a path and those that it needs, at most `depth` of them.  The first one
that is missing is made first, so nothing is made where too many are.  What was made stays when a
later one fails. -/
def makeDirectoriesFrom (t : Tree) (cwd : Location) :
    (depth : Nat) → Path → Tree × Except Failure Unit
  | 0, _ => (t, .error .tooDeep)
  | depth + 1, p =>
    match t.makeDirectory cwd p with
    | .ok t => (t, .ok ())
    | .error (.refused .noEntry text) =>
      if p.names = [] then (t, .error (.refused .noEntry text))
      else
        match makeDirectoriesFrom t cwd depth p.parent with
        | (t, .error f) => (t, .error f)
        | (t, .ok ()) =>
          match t.makeDirectory cwd p with
          | .ok t => (t, .ok ())
          | .error (.refused .noEntry text) => (t, .error (.refused .noEntry text))
          | .error f => (t, t.unlessThere cwd p f)
    | .error f => (t, t.unlessThere cwd p f)

/-- how many directories can be made by calls inside one another.  Five calls are open around the
first (two that start the module, the module, the main function, and the one that opens the log),
and handing over a path takes six. -/
def makeLimit : Nat := callLimit - 11

def makeDirectories (t : Tree) (cwd : Location) (p : Path) : Tree × Except Failure Unit :=
  t.makeDirectoriesFrom cwd makeLimit p

/-- the tree without what the last name of a path stands for -/
def remove (t : Tree) (cwd : Location) (p : Path) : Except Failure Tree := onPath p do
  match ← t.lastPlace cwd p with
  | .free _ => .error .noEntry
  | .found l => if t.isDirectory l then .error .isDirectory else .ok (t.erase l)

/-- the tree with a link at a path.  The target is not looked at, but it has to be a text that can
be handed over. -/
def makeLink (t : Tree) (cwd : Location) (p : Path) (target : List Char) : Except Failure Tree :=
  let made := do
    handed target (if target = [] then .error .noEntry else .ok ())
    onPath p (t.create cwd p (.link target))
  match made with
  | .error (.refused r _) => .error (.linkRefused r target p.text)
  | other => other

end Rebind.Tree
