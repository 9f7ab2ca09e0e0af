/-!
# searching and replacing in texts

Texts are lists of characters.  `afterLit?` strips a literal from the head of a text, `hasPart`
asks for a literal anywhere in it, and `replacePart` replaces a literal everywhere, from left to
right and without overlap.
-/

namespace Rebind

/-! ## literals at the head -/

/-- what follows the literal `lit` at the head of `cs` -/
def afterLit? (lit cs : List Char) : Option (List Char) :=
  if lit.isPrefixOf cs then some (cs.drop lit.length) else none

theorem afterLit?_eq_some_iff {lit cs r : List Char} :
    afterLit? lit cs = some r ↔ cs = lit ++ r := by
  unfold afterLit?
  constructor
  · intro h
    split at h
    · next hp =>
      obtain ⟨t, rfl⟩ := List.isPrefixOf_iff_prefix.mp hp
      simpa using h
    · simp at h
  · rintro rfl
    simp [List.isPrefixOf_iff_prefix]

@[simp] theorem afterLit?_append (lit r : List Char) : afterLit? lit (lit ++ r) = some r :=
  afterLit?_eq_some_iff.mpr rfl

/-! ## literals anywhere -/

/-- `part` occurs in `cs` -/
def hasPart (part : List Char) : List Char → Bool
  | [] => part.isEmpty
  | c :: cs => part.isPrefixOf (c :: cs) || hasPart part cs

theorem hasPart_iff {part cs : List Char} : hasPart part cs = true ↔ part <:+: cs := by
  induction cs with
  | nil => simp [hasPart]
  | cons c cs ih =>
    simp only [hasPart, Bool.or_eq_true, ih, List.infix_cons_iff, List.isPrefixOf_iff_prefix]

/-! ## replacing -/

/-- `b` for every `a` of `cs`, from left to right and without overlap; an empty `a` stands before
every character and at the end -/
def replacePart (a b cs : List Char) : List Char :=
  match cs with
  | [] => if a = [] then b else []
  | c :: r =>
    if a = [] then b ++ c :: replacePart a b r
    else if a.isPrefixOf (c :: r) then b ++ replacePart a b (r.drop (a.length - 1))
    else c :: replacePart a b r
termination_by cs.length
decreasing_by all_goals simp; try omega

end Rebind
