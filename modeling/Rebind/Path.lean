/-!
# paths

A path is an anchor and a list of names.  Reading a path drops empty names and single dots and
keeps `..`; nothing is looked up.  Two leading slashes are an anchor of their own, any other
positive number of them is the root.

`Path.resolveNames` is the lexical meaning of `..`: it takes away the name before it, and nothing
at the root.
-/

namespace Rebind

abbrev Name := List Char

/-- where a path starts -/
inductive Anchor where
  | here
  | root
  | twinRoot
  deriving DecidableEq

/-- a path: where it starts and the names on the way -/
structure Path where
  anchor : Anchor
  names : List Name
  deriving DecidableEq

def splitSlash : List Char → List Name
  | [] => [[]]
  | c :: cs =>
    if c = '/' then [] :: splitSlash cs
    else
      match splitSlash cs with
      | [] => [[c]]
      | p :: ps => (c :: p) :: ps

def joinSlash (names : List Name) : List Char := ['/'].intercalate names

/-- the names of a path text: the parts that are neither empty nor a single dot -/
def namesOf (s : List Char) : List Name :=
  (splitSlash s).filter fun p => !p.isEmpty && p != ['.']

namespace Anchor

/-- the anchor of a path text, by its leading slashes -/
def ofText (s : List Char) : Anchor :=
  match (s.takeWhile (· == '/')).length with
  | 0 => .here
  | 2 => .twinRoot
  | _ => .root

def text : Anchor → List Char
  | .here => []
  | .root => ['/']
  | .twinRoot => ['/', '/']

end Anchor

namespace Path

def ofText (s : List Char) : Path := ⟨Anchor.ofText s, namesOf s⟩

/-- a path as it is kept, the empty one as an empty text -/
def bareText (p : Path) : List Char := p.anchor.text ++ joinSlash p.names

/-- a path as it is shown, the empty one as a dot -/
def text (p : Path) : List Char := if p.bareText = [] then ['.'] else p.bareText

def isAbsolute (p : Path) : Bool := p.anchor ≠ .here

/-- the path without its last name; a path without names is its own parent -/
def parent (p : Path) : Path := { p with names := p.names.dropLast }

def lastName (p : Path) : Name := p.names.getLast?.getD []

/-- `q` taken from `p` -/
def join (p q : Path) : Path := if q.isAbsolute then q else { p with names := p.names ++ q.names }

def ofRoot (names : List Name) : Path := ⟨.root, names⟩

/-! ## lexical resolution -/

/-- one more name after the resolved names `done` -/
def resolveName (done : List Name) (n : Name) : List Name :=
  if n = ['.', '.'] then done.dropLast else done ++ [n]

/-- names from the root with every `..` resolved lexically -/
def resolveNames (names : List Name) : List Name := names.foldl resolveName []

/-- the names of a path from the root, taken from the directory `cwd` and resolved lexically -/
def absoluteNames (cwd : List Name) (p : Path) : List Name :=
  resolveNames (if p.isAbsolute then p.names else cwd ++ p.names)

def absolute (cwd : List Name) (p : Path) : Path :=
  ⟨if p.isAbsolute then p.anchor else .root, p.absoluteNames cwd⟩

/-! ## one path below another -/

/-- the names of `p` below `root`, when `p` is written as `root` and more names -/
def namesBelow? (p root : Path) : Option (List Name) :=
  if root.anchor = .here && root.names.isEmpty then
    if p.isAbsolute then none else some p.names
  else if p.anchor = root.anchor && root.names.isPrefixOf p.names then
    some (p.names.drop root.names.length)
  else none

theorem namesBelow?_append (root : Path) (names : List Name) :
    namesBelow? { root with names := root.names ++ names } root = some names := by
  rw [namesBelow?]
  split
  · next h =>
    rw [Bool.and_eq_true, decide_eq_true_eq, List.isEmpty_iff] at h
    rw [isAbsolute, h.1, h.2]
    rfl
  · rw [if_pos (by simp), List.drop_left]

end Path

end Rebind
