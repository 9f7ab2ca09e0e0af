import Rebind.Path

/-!
# file trees

A tree is kept as a list of entries: a location (the names up to the root, no link among them) and
what is there.  The root directory is always there.  A walk through real directories, which does
not go through links, meets exactly the locations that extend the one it starts from; so listing
is a question about locations (`Tree.below`), whatever the order of the entries.
-/

namespace Rebind

/-- the names from a place up to the root: the name of the place first, then that of its directory
and so on -/
abbrev Location := List Name

def locationFrom (dir : Location) (names : List Name) : Location := names.reverse ++ dir

def locationOf (names : List Name) : Location := locationFrom [] names

def namesTo (l : Location) : List Name := l.reverse

/-- the names that lead from `dir` down to a location, with `down` after them -/
def namesDown? (dir : Location) (down : List Name) : Location → Option (List Name)
  | [] => if dir = [] then some down else none
  | n :: l => if n :: l = dir then some down else namesDown? dir (n :: down) l

@[simp] theorem namesTo_locationOf (names : List Name) : namesTo (locationOf names) = names := by
  simp [namesTo, locationOf, locationFrom]

@[simp] theorem locationOf_namesTo (l : Location) : locationOf (namesTo l) = l := by
  simp [namesTo, locationOf, locationFrom]

/-- the names that lead down to a location are those it is reached by -/
theorem namesDown?_eq_some_iff {dir l : Location} {down names : List Name} :
    namesDown? dir down l = some names ↔ ∃ ns, names = ns ++ down ∧ l = locationFrom dir ns := by
  induction l generalizing down with
  | nil =>
    constructor
    · intro h
      simp only [namesDown?, Option.ite_none_right_eq_some, Option.some.injEq] at h
      exact ⟨[], by simp [h.2], by simp [locationFrom, h.1]⟩
    · rintro ⟨ns, rfl, h⟩
      obtain ⟨hn, hd⟩ := List.append_eq_nil_iff.mp h.symm
      rw [List.reverse_eq_nil_iff.mp hn, hd]
      rfl
  | cons n l ih =>
    rw [namesDown?]
    by_cases hd : n :: l = dir
    · rw [if_pos hd]
      constructor
      · intro h
        exact ⟨[], by simpa using h.symm, by simp [locationFrom, hd]⟩
      · rintro ⟨ns, rfl, h⟩
        have hlen := congrArg List.length h
        rw [hd, locationFrom, List.length_append, List.length_reverse] at hlen
        have hns : ns = [] := List.eq_nil_of_length_eq_zero (by omega)
        rw [hns, List.nil_append]
    · rw [if_neg hd, ih]
      constructor
      · rintro ⟨ns, rfl, rfl⟩
        exact ⟨ns ++ [n], by simp, by simp [locationFrom]⟩
      · rintro ⟨ns, rfl, h⟩
        rcases List.eq_nil_or_concat ns with rfl | ⟨ms, m, rfl⟩
        · exact absurd h hd
        · rw [List.concat_eq_append] at h ⊢
          simp only [locationFrom, List.reverse_append, List.reverse_cons, List.reverse_nil,
            List.nil_append, List.cons_append, List.cons.injEq] at h
          exact ⟨ms, by simp [h.1], h.2⟩

inductive Node where
  | file (bytes : List UInt8)
  | directory
  | link (target : List Char)
  deriving DecidableEq

structure Tree where
  entries : List (Location × Node) := []
  deriving DecidableEq

namespace Tree

def get? (t : Tree) (l : Location) : Option Node :=
  if l = [] then some .directory else t.entries.lookup l

def isDirectory (t : Tree) (l : Location) : Bool := t.get? l = some .directory

def bytes? (t : Tree) (l : Location) : Option (List UInt8) :=
  match t.get? l with
  | some (.file bs) => some bs
  | _ => none

/-- the tree with `n` at a location, in the place of what was there -/
def put (t : Tree) (l : Location) (n : Node) : Tree :=
  ⟨if (t.entries.lookup l).isSome then
      t.entries.map fun e => if e.1 = l then (l, n) else e
    else t.entries ++ [(l, n)]⟩

def erase (t : Tree) (l : Location) : Tree := ⟨t.entries.filter fun e => e.1 != l⟩

/-- the tree with `bs` after the bytes of the file at a location -/
def append (t : Tree) (l : Location) (bs : List UInt8) : Tree :=
  match t.bytes? l with
  | some old => t.put l (.file (old ++ bs))
  | none => t

/-- the names that lead from a directory to each location below it -/
def below (t : Tree) (dir : Location) : List (List Name) :=
  t.entries.filterMap fun e => (namesDown? dir [] e.1).filter (· ≠ [])

def children (t : Tree) (dir : Location) : List Name :=
  t.entries.filterMap fun e =>
    match e.1 with
    | n :: l => if l = dir then some n else none
    | [] => none

def files (t : Tree) : List (Location × List UInt8) :=
  t.entries.filterMap fun e =>
    match e.2 with
    | .file bs => some (e.1, bs)
    | _ => none

/-! ## what an operation does to the view -/

@[simp] theorem get?_root (t : Tree) : t.get? [] = some .directory := rfl

theorem get?_of_ne_nil (t : Tree) {l : Location} (h : l ≠ []) : t.get? l = t.entries.lookup l :=
  if_neg h

private theorem lookup_map_put {l k : Location} {n : Node} {es : List (Location × Node)}
    (hl : (es.lookup l).isSome) :
    (es.map fun e => if e.1 = l then (l, n) else e).lookup k =
      if k = l then some n else es.lookup k := by
  induction es with
  | nil => simp at hl
  | cons e es ih =>
    obtain ⟨a, m⟩ := e
    by_cases ha : a = l
    · subst ha
      by_cases hk : k = a
      · subst hk; simp
      · have hka : (k == a) = false := by simpa using hk
        simp only [List.map_cons, if_true, List.lookup_cons, hka, if_neg hk]
        by_cases hs : (es.lookup a).isSome
        · rw [ih hs, if_neg hk]
        · have : es.map (fun e => if e.1 = a then (a, n) else e) = es := by
            clear ih hl
            induction es with
            | nil => rfl
            | cons e es ih =>
              obtain ⟨b, m'⟩ := e
              have hb : b ≠ a := by
                rintro rfl
                simp at hs
              have hba : (a == b) = false := by simpa using fun h => hb h.symm
              rw [List.lookup_cons, hba] at hs
              simp [hb, ih hs]
          rw [this]
    · have hla : (l == a) = false := by simpa using fun h => ha h.symm
      rw [List.lookup_cons, hla] at hl
      simp only [List.map_cons, if_neg ha, List.lookup_cons]
      by_cases hk : k = a
      · subst hk
        simp [if_neg ha]
      · have hka : (k == a) = false := by simpa using hk
        rw [hka, ih hl]

/-- after `put`, the location holds the node and every other location what it held -/
theorem get?_put (t : Tree) {l : Location} (hl : l ≠ []) (n : Node) (k : Location) :
    (t.put l n).get? k = if k = l then some n else t.get? k := by
  by_cases hk : k = []
  · subst hk
    rw [get?_root, if_neg (fun h => hl h.symm), get?_root]
  · rw [get?_of_ne_nil _ hk, get?_of_ne_nil _ hk]
    unfold put
    by_cases hs : (t.entries.lookup l).isSome
    · rw [if_pos hs]
      exact lookup_map_put hs
    · rw [if_neg hs]
      have hnone : t.entries.lookup l = none := Option.not_isSome_iff_eq_none.mp hs
      show (t.entries ++ [(l, n)]).lookup k = _
      rw [List.lookup_append]
      by_cases hkl : k = l
      · subst hkl
        simp [hnone]
      · have hb : (k == l) = false := by simpa using hkl
        rw [if_neg hkl, List.lookup_cons, hb]
        simp

end Tree

end Rebind
