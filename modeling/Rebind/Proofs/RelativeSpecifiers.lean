import Rebind.Proofs.ShortestWays

/-!
# Which specifiers are relative

A specifier is relative when its first part, up to the first slash, is one dot or two
(`isRelative_iff`).  `./` is put in front of a text unless the text begins with a dot, which says less:
a text whose first part is a longer name with a dot in front is left as it is, and is not relative
(`IsHidden`).

A way that goes up begins with two dots.  So the specifier of a target is relative unless the target
lies below the directory of the source, by a hidden name (`isRelative_importPath_iff`); such a
specifier is that of a package (`hidden_specifier`).
-/

namespace Rebind

/-- a specifier that is looked up from the place of the file, and not as a package -/
def IsRelative (s : List Char) : Prop :=
  s = ['.'] ∨ s = dots ∨ "./".toList <+: s ∨ "../".toList <+: s

instance (s : List Char) : Decidable (IsRelative s) :=
  inferInstanceAs (Decidable (s = ['.'] ∨ s = dots ∨ "./".toList <+: s ∨ "../".toList <+: s))

/-! ## the first part of a text -/

/-- a text with slashes in the place of backslashes -/
def slashed (s : List Char) : List Char := s.map fun c => if c = '\\' then '/' else c

/-- a text up to its first slash -/
def firstPart (s : List Char) : List Char := s.takeWhile (· != '/')

/-- the text begins with a dot, and its first part is a longer name -/
def IsHidden (s : List Char) : Prop :=
  s.head? = some '.' ∧ firstPart (slashed s) ≠ ['.'] ∧ firstPart (slashed s) ≠ dots

theorem firstPart_append_slash (a b : List Char) : firstPart (a ++ '/' :: b) = firstPart a := by
  induction a with
  | nil => rfl
  | cons c a ih =>
    unfold firstPart at ih ⊢
    rw [List.cons_append, List.takeWhile_cons, List.takeWhile_cons, ih]

theorem eq_firstPart_or (s : List Char) :
    s = firstPart s ∨ ∃ t, s = firstPart s ++ '/' :: t := by
  have hcut : firstPart s ++ s.dropWhile (· != '/') = s := List.takeWhile_append_dropWhile
  cases hd : s.dropWhile (· != '/') with
  | nil =>
    rw [hd, List.append_nil] at hcut
    exact .inl hcut.symm
  | cons c t =>
    have hc : c = '/' := by
      have h := List.head?_dropWhile_not (· != '/') s
      rw [hd] at h
      simpa using h
    rw [hd, hc] at hcut
    exact .inr ⟨t, hcut.symm⟩

theorem isRelative_iff {s : List Char} :
    IsRelative s ↔ firstPart s = ['.'] ∨ firstPart s = dots := by
  constructor
  · rintro (rfl | rfl | ⟨t, rfl⟩ | ⟨t, rfl⟩)
    · exact .inl rfl
    · exact .inr rfl
    · exact .inl rfl
    · exact .inr rfl
  · intro h
    rcases h with h | h
    · rcases eq_firstPart_or s with hs | ⟨t, hs⟩
      · exact .inl (hs.trans h)
      · rw [h] at hs
        exact .inr (.inr (.inl ⟨t, hs.symm⟩))
    · rcases eq_firstPart_or s with hs | ⟨t, hs⟩
      · exact .inr (.inl (hs.trans h))
      · rw [h] at hs
        exact .inr (.inr (.inr ⟨t, hs.symm⟩))

theorem head?_slashed_iff {s : List Char} : (slashed s).head? = some '.' ↔ s.head? = some '.' := by
  cases s with
  | nil => rfl
  | cons c s =>
    show some (if c = '\\' then '/' else c) = some '.' ↔ some c = some '.'
    by_cases hc : c = '\\'
    · rw [if_pos hc, hc]
      decide
    · rw [if_neg hc]

/-- a specifier is relative unless it is made of a hidden text -/
theorem isRelative_specifierOf_iff (s : List Char) : IsRelative (specifierOf s) ↔ ¬ IsHidden s := by
  have hdef : specifierOf s =
      if (slashed s).head? = some '.' then slashed s else '.' :: '/' :: slashed s := rfl
  rw [hdef]
  split
  · next hdot =>
    rw [isRelative_iff]
    constructor
    · rintro (h | h) ⟨-, hone, htwo⟩
      · exact hone h
      · exact htwo h
    · intro h
      by_cases hone : firstPart (slashed s) = ['.']
      · exact .inl hone
      · exact .inr (not_not.mp fun htwo => h ⟨head?_slashed_iff.mp hdot, hone, htwo⟩)
  · next hdot =>
    exact ⟨fun _ h => hdot (head?_slashed_iff.mpr h.1), fun _ => .inr (.inr (.inl ⟨slashed s, rfl⟩))⟩

/-! ## ways -/

/-- only the first name of a way says whether its text is hidden -/
theorem isHidden_joinSlash_iff {n : Name} (hn : n ≠ []) (rest : List Name) :
    IsHidden (joinSlash (n :: rest)) ↔ IsHidden n := by
  cases rest with
  | nil => rw [show joinSlash [n] = n from List.intercalate_singleton]
  | cons m rest =>
    have hcons : joinSlash (n :: m :: rest) = n ++ '/' :: joinSlash (m :: rest) := by
      rw [joinSlash, List.intercalate_cons_cons, List.append_assoc]
      rfl
    have hslashed : slashed (n ++ '/' :: joinSlash (m :: rest)) =
        slashed n ++ '/' :: slashed (joinSlash (m :: rest)) := List.map_append
    rw [hcons, IsHidden, IsHidden, hslashed, firstPart_append_slash, List.head?_append_of_ne_nil n hn]

theorem not_isHidden_dots : ¬ IsHidden dots := fun h => h.2.2 rfl

/-- a way is hidden if it goes down by a hidden name -/
theorem isHidden_wayText_iff {way : List Name} (hway : ∀ n ∈ way, IsPart n) :
    IsHidden (Path.wayText way) ↔ ∃ n down, way = n :: down ∧ IsHidden n := by
  cases way with
  | nil =>
    have hdot : ¬ IsHidden (Path.wayText []) := fun h => h.2.1 rfl
    exact ⟨fun h => absurd h hdot, fun ⟨_, _, he, _⟩ => (by cases he)⟩
  | cons n rest =>
    have htext : Path.wayText (n :: rest) = joinSlash (n :: rest) := if_neg (List.cons_ne_nil n rest)
    rw [htext, isHidden_joinSlash_iff (hway n List.mem_cons_self).ne_nil]
    constructor
    · exact fun h => ⟨n, rest, rfl, h⟩
    · rintro ⟨m, down, he, h⟩
      rwa [(List.cons.inj he).1]

theorem isHidden_way_iff {dir target : List Name} (htarget : ∀ n ∈ target, IsPart n) :
    IsHidden (Path.wayText (Path.wayNames dir target)) ↔
      ∃ n down, target = dir ++ n :: down ∧ IsHidden n := by
  obtain ⟨top, dirs, down, htop, rfl, rfl, hway⟩ := Path.exists_cut dir target
  have hparts : ∀ n ∈ List.replicate dirs.length dots ++ down, IsPart n := by
    intro n hn
    rcases List.mem_append.mp hn with hn | hn
    · exact List.eq_of_mem_replicate hn ▸ isPart_dots
    · exact htarget n (List.mem_append_right top hn)
  rw [hway, isHidden_wayText_iff hparts]
  cases dirs with
  | nil => simp only [List.length_nil, List.replicate_zero, List.nil_append, List.append_nil,
      List.append_cancel_left_eq]
  | cons d dirs =>
    constructor
    · rintro ⟨n, rest, he, hn⟩
      rw [List.length_cons, List.replicate_succ, List.cons_append, List.cons.injEq] at he
      exact absurd (he.1 ▸ hn) not_isHidden_dots
    · -- the target does not lie below the directory: the two part before
      rintro ⟨n, rest, he, -⟩
      have hlong := htop.longest (top ++ d :: dirs) (List.prefix_refl _) ⟨n :: rest, he.symm⟩
      rw [List.length_append, List.length_cons] at hlong
      omega

/-- **Which specifiers are relative.**  A specifier is relative unless the text that it is made of is
hidden; so that of a target is relative unless the target lies below the directory of the source, and
the first name on the way down is hidden. -/
theorem isRelative_importPath_iff {cwd : List Name} (hcwd : ∀ n ∈ cwd, IsPart n)
    (s source target : List Char) :
    (IsRelative (specifierOf s) ↔ ¬ IsHidden s) ∧
    (IsRelative (importPath cwd (Path.ofText source) (Path.ofText target)) ↔
      ¬ ∃ n down, (Path.ofText target).absoluteNames cwd =
        (Path.ofText source).parent.absoluteNames cwd ++ n :: down ∧ IsHidden n) := by
  refine ⟨isRelative_specifierOf_iff s, ?_⟩
  rw [importPath, isRelative_specifierOf_iff]
  refine not_congr (isHidden_way_iff fun n hn => ?_)
  rcases Path.mem_absoluteNames hn with hn | hn
  · exact hcwd n hn
  · exact isPart_of_mem_namesOf hn

/-- A hidden name is no harm on a way that goes up first. -/
theorem isRelative_importPath_up :
    (∀ n ∈ ["app".toList], IsPart n) ∧
    importPath ["app".toList] (Path.ofText "convex/sub/a.ts".toList)
      (Path.ofText "convex/.generated/api.js".toList) = "../.generated/api.js".toList ∧
    IsRelative "../.generated/api.js".toList := by
  have hcwd : ∀ n ∈ ["app".toList], IsPart n := fun n hn =>
    List.mem_singleton.mp hn ▸ ⟨by decide, by decide, by decide⟩
  have hspecifier : importPath ["app".toList] (Path.ofText "convex/sub/a.ts".toList)
      (Path.ofText "convex/.generated/api.js".toList) = "../.generated/api.js".toList := by
    decide
  have hrelative := (isRelative_importPath_iff hcwd []
    "convex/sub/a.ts".toList "convex/.generated/api.js".toList).2
  rw [hspecifier] at hrelative
  refine ⟨hcwd, hspecifier, hrelative.mpr ?_⟩
  rintro ⟨n, down, hbelow, -⟩
  -- the third names differ
  have hthird : some ".generated".toList = some "sub".toList := congrArg (·[2]?) hbelow
  exact absurd hthird (by decide)

/-- the name of a hidden directory is taken for that of a package -/
theorem hidden_specifier :
    importPath [] (Path.ofText "/app/convex/a.ts".toList)
      (Path.ofText "/app/convex/.generated/api.js".toList) = ".generated/api.js".toList ∧
    ¬ IsRelative ".generated/api.js".toList ∧
    ¬ ∀ source target : List Char,
      IsRelative (importPath [] (Path.ofText source) (Path.ofText target)) := by
  have hspecifier : importPath [] (Path.ofText "/app/convex/a.ts".toList)
      (Path.ofText "/app/convex/.generated/api.js".toList) = ".generated/api.js".toList := by
    decide
  have hpackage : ¬ IsRelative ".generated/api.js".toList := by decide
  exact ⟨hspecifier, hpackage, fun hall => hpackage (hspecifier ▸ hall _ _)⟩

end Rebind
