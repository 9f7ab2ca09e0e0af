import Rebind.Failure
import Rebind.Path.Order
import Rebind.Tree

/-!
# finding a place in a tree

`Tree.place` follows a path name by name, as the file system does: `..` goes to the directory that
holds the one reached, a link is replaced by its target, and at most forty links are followed.
The place may be one where nothing is yet, if the directory for it is there.  A name of more than
255 bytes is no name in any directory.

Before a path is followed its text is handed to the file system (`handed`): a text with a null
character is not taken, and one of 4096 bytes or more is refused.
-/

namespace Rebind

/-- where a path leads: to something, or to a free place in a directory -/
inductive Place where
  | found (l : Location)
  | free (l : Location)
  deriving DecidableEq

/-! ## limits of the program and of the file system -/

/-- how many calls can be open inside one another.  Where a work is done by calls inside calls,
what is left for it is this number less the calls that are open around it, for a program that is
started as a module, and those that one step of the work takes. -/
def callLimit : Nat := 1000

def byteLength (s : List Char) : Nat := s.foldl (fun n c => n + c.utf8Size) 0

def isLongName (n : Name) : Bool := 255 < byteLength n

def isLongText (s : List Char) : Bool := 4096 ≤ byteLength s

/-- what the file system answers for a path that is handed to it as `text` -/
def handed (text : List Char) (answer : Except Refused α) : Except Failure α :=
  if text.contains '\x00' then .error .nullByte
  else if isLongText text then .error (.refused .nameTooLong text)
  else
    match answer with
    | .ok a => .ok a
    | .error r => .error (.refused r text)

def onPath (p : Path) (answer : Except Refused α) : Except Failure α := handed p.text answer

namespace Tree

/-! ## following a path -/

/-- where a link with that target starts from, when it lies in the directory `dir` -/
def linkStart (dir : Location) (target : List Char) : Location :=
  if target.head? = some '/' then [] else dir

/-- the names of a link's target.  Single dots are kept: each asks for a directory before it, and
so does the empty name that stands for a slash at the end. -/
def linkNames (target : List Char) : List Name :=
  (splitSlash target).filter (!·.isEmpty) ++ if target.getLast? = some '/' then [[]] else []

/-- follows names from the location `l`; `follow` goes on after a link, from a location and with
the names that are left.  Where a file is to be made, `making`, its name has no slash after it. -/
def placeWith (making : Bool) (follow : Location → List Name → Except Refused Place) (t : Tree)
    (l : Location) : List Name → Except Refused Place
  | [] => .ok (.found l)
  | n :: ns =>
    if !t.isDirectory l then .error .notDirectory
    else if n = [] || n = ['.'] then placeWith making follow t l ns
    else if n = ['.', '.'] then placeWith making follow t l.tail ns
    else if making && ns = [[]] then .error .isDirectory
    else if isLongName n then .error .nameTooLong
    else
      match t.get? (n :: l) with
      | none => if ns = [] then .ok (.free (n :: l)) else .error .noEntry
      | some (.link target) => follow (linkStart l target) (linkNames target ++ ns)
      | some _ => placeWith making follow t (n :: l) ns

/-- follows names from a location through at most `links` links -/
def placeFrom (making : Bool) (t : Tree) :
    (links : Nat) → Location → List Name → Except Refused Place
  | 0 => placeWith making (fun _ _ => .error .tooManyLinks) t
  | links + 1 => placeWith making (placeFrom making t links) t

/-- how many links are followed on the way to one place -/
def linkLimit : Nat := 40

/-- where a path starts, for a program that works in the directory `cwd` -/
def start (cwd : Location) (p : Path) : Location := if p.isAbsolute then [] else cwd

def place (making : Bool) (t : Tree) (cwd : Location) (p : Path) : Except Refused Place :=
  t.placeFrom making linkLimit (start cwd p) p.names

def target? (t : Tree) (cwd : Location) (p : Path) : Except Refused Location := do
  match ← t.place false cwd p with
  | .found l => .ok l
  | .free _ => .error .noEntry

/-- the place of a path's last name, which is not followed when it is a link -/
def lastPlace (t : Tree) (cwd : Location) (p : Path) : Except Refused Place := do
  match p.names.getLast? with
  | none => .ok (.found (start cwd p))
  | some n => do
    let dir ← t.target? cwd p.parent
    if !t.isDirectory dir then .error .notDirectory
    else if n = ['.', '.'] then .ok (.found dir.tail)
    else if isLongName n then .error .nameTooLong
    else if (t.get? (n :: dir)).isSome then .ok (.found (n :: dir))
    else .ok (.free (n :: dir))

/-! ## asking -/

/-- asks about what a path leads to, the path being handed over as `text`.  The answer is no where
it leads nowhere; only a name that is too long is not passed over. -/
def ask (t : Tree) (cwd : Location) (text : List Char) (p : Path) (question : Location → Bool) :
    Except Failure Bool :=
  match handed text (t.target? cwd p) with
  | .ok l => .ok (question l)
  | .error (.refused .nameTooLong text) => .error (.refused .nameTooLong text)
  | .error _ => .ok false

def leadsSomewhere (t : Tree) (cwd : Location) (p : Path) : Except Failure Bool :=
  t.ask cwd p.text p fun _ => true

def leadsToDirectory (t : Tree) (cwd : Location) (p : Path) : Except Failure Bool :=
  t.ask cwd p.text p t.isDirectory

def leadsToFile (t : Tree) (cwd : Location) (p : Path) : Except Failure Bool :=
  t.ask cwd p.text p fun l => (t.bytes? l).isSome

/-- the names in the directory that a path leads to, in order -/
def list (t : Tree) (cwd : Location) (p : Path) : Except Failure (List Name) := onPath p do
  let l ← t.target? cwd p
  if t.isDirectory l then .ok ((t.children l).mergeSort nameLe) else .error .notDirectory

def read (t : Tree) (cwd : Location) (p : Path) : Except Failure (List UInt8) := onPath p do
  let l ← t.target? cwd p
  match t.bytes? l with
  | some bs => .ok bs
  | none => .error .isDirectory

/-! ## entries of a listed directory -/

/-- the text of the entry `n` of the directory `dir`, as it is handed over when the entry is
looked at in a listing: the text of the directory stands before it even if that is a dot -/
def entryText (dir : Path) (n : Name) : List Char :=
  dir.text ++ (if dir.text.getLast? = some '/' then n else '/' :: n)

/-- whether the entry `n` of the directory `dir` is a directory or a link to one.  Only a link is
looked at: what else an entry is shows in the listing. -/
def entryLeadsToDirectory (t : Tree) (cwd : Location) (dir : Path) (n : Name) :
    Except Failure Bool :=
  let p : Path := { dir with names := dir.names ++ [n] }
  match t.lastPlace cwd p with
  | .ok (.found l) =>
    match t.get? l with
    | some (.link _) => t.ask cwd (entryText dir n) p t.isDirectory
    | some .directory => .ok true
    | _ => .ok false
  | _ => .ok false

end Tree

end Rebind
