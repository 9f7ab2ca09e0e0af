import Rebind.Tree.Walk

/-!
# the real path of a path

`Tree.realPath` finds the path without links and without `..` that a path stands for, even where
nothing is: names that are not there are kept, and `..` takes them away again.  Names are taken
one after the other, and each link on the way is resolved before the names after it are.

Any number of links is followed, each resolved once under each of its texts, and none while it is
being resolved: there the search is cut short, and what was left of the texts is put behind the
link as it is written.  The outcome may be a real path all the same; only if following it meets
too many links is it a loop.
-/

namespace Rebind

namespace Path

/-- the path one level up: `..` behind nothing but `..` is kept -/
def up (p : Path) : Path :=
  match p.names.getLast? with
  | none => if p.isAbsolute then p else { p with names := [['.', '.']] }
  | some n => if n = ['.', '.'] then { p with names := p.names ++ [n] } else p.parent

def child (p : Path) (n : Name) : Path := { p with names := p.names ++ [n] }

/-- `p` and behind it what is left of a text, given by its parts between slashes -/
def joinRest (p : Path) (parts : List Name) : Path := p.join (ofText (joinSlash parts))

end Path

namespace Tree

/-- how far resolving came: to the end, or up to a link that was being resolved -/
inductive Resolved where
  | whole (p : Path)
  | cut (p : Path)
  deriving DecidableEq

/-- the path that resolving came to -/
def Resolved.path : Resolved → Path
  | .whole p => p
  | .cut p => p

/-- the links that were met, by their paths, and what they were resolved to; nothing for one that
is being resolved.  Later entries come first. -/
abbrev Met := List (Path × Option Path)

/-- the target of the link at a path; what cannot be looked at is no link -/
def link? (t : Tree) (cwd : Location) (p : Path) : Except Failure (Option (List Char)) :=
  match onPath p (t.lastPlace cwd p) with
  | .ok (.found l) =>
    match t.get? l with
    | some (.link target) => .ok (some target)
    | _ => .ok none
  | .error .nullByte => .error .nullByte
  | _ => .ok none

/-- where resolving a text starts, if the text stands in the directory `dir` -/
def resolveStart (dir : Path) (text : List Char) : Path :=
  if text.head? = some '/' then Path.ofRoot [] else dir

/-- resolves the parts of a text one after the other from the resolved path `p`; `follow` resolves
the parts of a link's target -/
def resolveWith (follow : Path → Met → List Name → Except Failure (Resolved × Met)) (t : Tree)
    (cwd : Location) (p : Path) (met : Met) : List Name → Except Failure (Resolved × Met)
  | [] => .ok (.whole p, met)
  | n :: ns =>
    if n = [] || n = ['.'] then resolveWith follow t cwd p met ns
    else if n = ['.', '.'] then resolveWith follow t cwd p.up met ns
    else
      match t.link? cwd (p.child n) with
      | .error f => .error f
      | .ok none => resolveWith follow t cwd (p.child n) met ns
      | .ok (some target) =>
        match met.lookup (p.child n) with
        | some (some q) => resolveWith follow t cwd q met ns
        | some none => .ok (.cut ((p.child n).joinRest ns), met)
        | none =>
          match follow (resolveStart p target) ((p.child n, none) :: met) (splitSlash target) with
          | .error f => .error f
          | .ok (.cut q, met) => .ok (.cut (q.joinRest ns), met)
          | .ok (.whole q, met) => resolveWith follow t cwd q ((p.child n, some q) :: met) ns

/-- resolves the parts of a text while at most `depth` more links can be resolved inside one
another -/
def resolveFrom (t : Tree) (cwd : Location) :
    (depth : Nat) → Path → Met → List Name → Except Failure (Resolved × Met)
  | 0 => resolveWith (fun _ _ _ => .error .linksTooDeep) t cwd
  | depth + 1 => resolveWith (resolveFrom t cwd depth) t cwd

/-- how many links can be resolved inside one another.  Seven calls are open around the path that
is resolved (two that start the module, the module, the main function, the run, and two that resolve
a path), one is for the path itself, and a look at a link takes three. -/
def depthLimit : Nat := callLimit - 11

def realPath (t : Tree) (cwd : Location) (p : Path) : Except Failure Path := do
  let start := resolveStart ⟨.here, []⟩ p.text
  let (resolved, _) ← t.resolveFrom cwd depthLimit start [] (splitSlash p.text)
  let real := resolved.path.absolute (namesTo cwd)
  match onPath real (t.target? [] real) with
  | .error (.refused .tooManyLinks _) => .error (.linkLoop real)
  | .error .nullByte => .error .nullByte
  | _ => .ok real

end Tree

end Rebind
