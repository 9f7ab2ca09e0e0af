/-!
# patterns for names

A star stands for any characters, a question mark for one, and brackets for one of the characters
they list.  Inside brackets

* a leading `!` asks for a character that is not listed;
* a closing bracket in the first place is listed, and brackets that nobody closes are literal;
* `a-z` lists a range unless a dash is first or last; a range that ends before it begins is left
  out, and the `!` that such ranges leave in front asks for the opposite as well.

Nothing listed matches no character, and its opposite any.
-/

namespace Rebind.Glob

inductive Item where
  | one (c : Char)
  | span (low high : Char)
  deriving DecidableEq

namespace Item

def holds (c : Char) : Item → Bool
  | .one d => c == d
  | .span low high => low ≤ c && c ≤ high

/-- the entry is a range that ends before it begins -/
def isEmpty : Item → Bool
  | .one _ => false
  | .span low high => high < low

end Item

inductive Atom where
  | star
  | any
  | literal (c : Char)
  | oneOf (items : List Item)
  | noneOf (items : List Item)
  deriving DecidableEq

def Atom.holds (c : Char) : Atom → Bool
  | .star => true
  | .any => true
  | .literal d => c == d
  | .oneOf items => items.any (Item.holds c)
  | .noneOf items => !items.any (Item.holds c)

/-! ## reading -/

def items : List Char → List Item
  | [] => []
  | a :: '-' :: b :: cs => .span a b :: items cs
  | c :: cs => .one c :: items cs

def opposite (items : List Item) : Atom := if items.isEmpty then .any else .noneOf items

def bracket : List Char → Atom
  | '!' :: cs => opposite ((items cs).filter (!·.isEmpty))
  | cs =>
    match (items cs).filter (!·.isEmpty) with
    | .one '!' :: rest => opposite rest
    | .span '!' high :: rest => .noneOf (.one '-' :: .one high :: rest)
    | listed => .oneOf listed

/-- how many characters of a list cannot close it: a leading `!`, and a bracket right after -/
def unclosing (cs : List Char) : Nat :=
  let negation := if cs.head? = some '!' then 1 else 0
  if (cs.drop negation).head? = some ']' then negation + 1 else negation

/-- the text up to the bracket that closes a list, and the text after that bracket -/
def closeBracket? (cs : List Char) : Option (List Char × List Char) :=
  let body := cs.drop (unclosing cs)
  match body.dropWhile (· != ']') with
  | [] => none
  | _ :: rest => some (cs.take (unclosing cs) ++ body.takeWhile (· != ']'), rest)

theorem closeBracket?_length {cs list rest : List Char} (h : closeBracket? cs = some (list, rest)) :
    rest.length < cs.length := by
  simp only [closeBracket?] at h
  split at h
  · simp at h
  · next hr =>
    simp only [Option.some.injEq, Prod.mk.injEq] at h
    have hl := (List.dropWhile_sublist (l := cs.drop (unclosing cs)) (· != ']')).length_le
    rw [hr, List.length_cons, List.length_drop, h.2] at hl
    omega

def ofText (cs : List Char) : List Atom :=
  match cs with
  | [] => []
  | '*' :: cs => .star :: ofText cs
  | '?' :: cs => .any :: ofText cs
  | '[' :: cs =>
    match _h : closeBracket? cs with
    | none => .literal '[' :: ofText cs
    | some (list, rest) => bracket list :: ofText rest
  | c :: cs => .literal c :: ofText cs
termination_by cs.length
decreasing_by
  all_goals simp
  have := closeBracket?_length _h
  omega

/-! ## matching -/

/-- `p` holds of `cs` or of what is left of it after some of its first characters -/
def anyTail (p : List Char → Bool) : List Char → Bool
  | [] => p []
  | c :: cs => p (c :: cs) || anyTail p cs

def covers : List Atom → List Char → Bool
  | [], name => name.isEmpty
  | .star :: atoms, name => anyTail (covers atoms) name
  | _ :: _, [] => false
  | a :: atoms, c :: name => a.holds c && covers atoms name

/-! ## matching in one pass over the pattern

`covers` tries every tail of a name anew for each star.  The table of a pattern answers for all
tails of a name at once, from the table of the rest of the pattern. -/

/-- what `p` says of `cs` and of each of its tails -/
def overTails (p : List Char → Bool) : List Char → List Bool
  | [] => [p []]
  | c :: cs => p (c :: cs) :: overTails p cs

/-- for each place of a list, whether it or a later one is true -/
def anyFrom : List Bool → List Bool
  | [] => []
  | b :: bs =>
    let rest := anyFrom bs
    (b || rest.head?.getD false) :: rest

/-- the table for `a` before a pattern whose table is `later` -/
def stepTable (a : Atom) : List Char → (later : List Bool) → List Bool
  | [], _ => [false]
  | c :: cs, later => (a.holds c && later.tail.head?.getD false) :: stepTable a cs later.tail

/-- for each tail of a name, whether the pattern stands for it -/
def table : List Atom → List Char → List Bool
  | [], name => overTails List.isEmpty name
  | .star :: atoms, name => anyFrom (table atoms name)
  | a :: atoms, name => stepTable a name (table atoms name)

/-- the pattern stands for the whole name, by its table -/
def fits (atoms : List Atom) (name : List Char) : Bool := (table atoms name).head?.getD false

@[simp] theorem head?_overTails (p : List Char → Bool) (cs : List Char) :
    (overTails p cs).head? = some (p cs) := by
  cases cs <;> rfl

theorem anyFrom_overTails (p : List Char → Bool) (cs : List Char) :
    anyFrom (overTails p cs) = overTails (anyTail p) cs := by
  induction cs with
  | nil => simp [overTails, anyFrom, anyTail]
  | cons c cs ih => simp [overTails, anyFrom, anyTail, ih]

theorem stepTable_overTails {a : Atom} (ha : a ≠ .star) (atoms : List Atom) (cs : List Char) :
    stepTable a cs (overTails (covers atoms) cs) = overTails (covers (a :: atoms)) cs := by
  induction cs with
  | nil => cases a <;> simp_all [stepTable, overTails, covers]
  | cons c cs ih => cases a <;> simp_all [stepTable, overTails, covers]

theorem table_eq_overTails (atoms : List Atom) (name : List Char) :
    table atoms name = overTails (covers atoms) name := by
  induction atoms with
  | nil =>
    have h : covers [] = List.isEmpty := by funext cs; simp [covers]
    rw [table, h]
  | cons a atoms ih =>
    by_cases ha : a = .star
    · subst ha
      have h : covers (.star :: atoms) = anyTail (covers atoms) := by funext cs; simp [covers]
      rw [table, ih, anyFrom_overTails, h]
    · rw [table, ih, stepTable_overTails ha]
      exact ha

/-- the table gives the same answer -/
theorem fits_eq_covers (atoms : List Atom) (name : List Char) :
    fits atoms name = covers atoms name := by
  simp [fits, table_eq_overTails]

end Rebind.Glob
