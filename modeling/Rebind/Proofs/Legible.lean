import Rebind.Proofs.Specifiers

/-!
# Paths that read back from their text

A path is handed over as a text and read again.  Reading drops empty names and single dots, so a
path comes back as it was only if it has no such names and none with a slash in it: then its names
are parts (`IsPart`), and the text says all there is to the path (`Path.ofText_text`).

Names of entries are parts, and so are those that resolving finds in the texts of links; hence a
real path can be handed over as its text (`Tree.isPart_of_realPath`).
-/

namespace Rebind

/-- the text is kept when it is read between slashes -/
structure IsPart (n : Name) : Prop where
  ne_nil : n ≠ []
  ne_dot : n ≠ ['.']
  noSlash : '/' ∉ n

theorem IsName.isPart {n : Name} (h : IsName n) : IsPart n := ⟨h.ne_nil, h.ne_dot, h.noSlash⟩

theorem isPart_dots : IsPart dots := ⟨by decide, by decide, by decide⟩

theorem isPart_of_mem_namesOf {s : List Char} {n : Name} (h : n ∈ namesOf s) : IsPart n := by
  obtain ⟨hm, hkept⟩ := List.mem_filter.mp h
  rw [Bool.and_eq_true, Bool.not_eq_true', List.isEmpty_eq_false_iff, bne_iff_ne] at hkept
  exact ⟨hkept.1, hkept.2, slash_not_mem_of_mem_splitSlash hm⟩

/-! ## names between slashes -/

theorem splitSlash_append_slash {n : Name} (h : '/' ∉ n) (s : List Char) :
    splitSlash (n ++ '/' :: s) = n :: splitSlash s := by
  induction n with
  | nil => rfl
  | cons c n ih =>
    rw [List.mem_cons, not_or] at h
    rw [List.cons_append, splitSlash, if_neg (Ne.symm h.1), ih h.2]

theorem splitSlash_joinSlash {names : List Name} (hne : names ≠ []) (h : ∀ n ∈ names, '/' ∉ n) :
    splitSlash (joinSlash names) = names := by
  induction names with
  | nil => exact absurd rfl hne
  | cons n names ih =>
    obtain ⟨hn, hnames⟩ := List.forall_mem_cons.mp h
    cases names with
    | nil =>
      rw [show joinSlash [n] = n from List.intercalate_singleton]
      exact splitSlash_of_not_mem hn
    | cons m names =>
      have hcons : joinSlash (n :: m :: names) = n ++ '/' :: joinSlash (m :: names) := by
        rw [joinSlash, List.intercalate_cons_cons, List.append_assoc]
        rfl
      rw [hcons, splitSlash_append_slash hn, ih (List.cons_ne_nil m names) hnames]

theorem namesOf_joinSlash {names : List Name} (h : ∀ n ∈ names, IsPart n) :
    namesOf (joinSlash names) = names := by
  by_cases hne : names = []
  · subst hne
    rfl
  · unfold namesOf
    rw [splitSlash_joinSlash hne fun n hn => (h n hn).noSlash, List.filter_eq_self]
    intro n hn
    rw [Bool.and_eq_true, Bool.not_eq_true', List.isEmpty_eq_false_iff, bne_iff_ne]
    exact ⟨(h n hn).ne_nil, (h n hn).ne_dot⟩

theorem head?_joinSlash_ne {names : List Name} (h : ∀ n ∈ names, IsPart n) :
    (joinSlash names).head? ≠ some '/' := by
  cases names with
  | nil => simp [joinSlash]
  | cons n names =>
    have hn := h n List.mem_cons_self
    obtain ⟨c, cs, rfl⟩ := List.exists_cons_of_ne_nil hn.ne_nil
    have hc : c ≠ '/' := fun he => hn.noSlash (he ▸ List.mem_cons_self)
    cases names with
    | nil => simpa [joinSlash] using hc
    | cons m names => simpa [joinSlash, List.intercalate_cons_cons] using hc

namespace Path

theorem anchor_ofText (a : Anchor) {s : List Char} (h : s.head? ≠ some '/') :
    Anchor.ofText (a.text ++ s) = a := by
  have hs : s.takeWhile (· == '/') = [] := by
    cases s with
    | nil => rfl
    | cons c s =>
      rw [List.head?_cons, Ne, Option.some.injEq] at h
      exact List.takeWhile_cons_of_neg (by simpa using h)
  have hlead : ((a.text ++ s).takeWhile (· == '/')).length = a.text.length := by
    rw [List.takeWhile_append_of_pos (by cases a <;> simp [Anchor.text]), hs, List.append_nil]
  unfold Anchor.ofText
  rw [hlead]
  cases a <;> rfl

theorem namesOf_anchor (a : Anchor) (s : List Char) : namesOf (a.text ++ s) = namesOf s := by
  cases a <;> rfl

/-- a path whose names are parts reads back from its text -/
theorem ofText_text {p : Path} (h : ∀ n ∈ p.names, IsPart n) : ofText p.text = p := by
  have hbare : ofText p.bareText = p := by
    unfold ofText bareText
    rw [anchor_ofText p.anchor (head?_joinSlash_ne h), namesOf_anchor, namesOf_joinSlash h]
  unfold text
  split
  · -- the empty path is shown as a dot
    next he =>
    rw [← hbare, he]
    rfl
  · exact hbare

end Path

/-! ## real paths -/

/-- all names of the path are parts -/
def Path.HasParts (p : Path) : Prop := ∀ n ∈ p.names, IsPart n

namespace Path.HasParts
variable {p : Path}

theorem child (h : p.HasParts) {n : Name} (hn : IsPart n) : (p.child n).HasParts := by
  intro m hm
  rcases List.mem_append.mp hm with hm | hm
  · exact h m hm
  · rwa [List.mem_singleton.mp hm]

theorem up (h : p.HasParts) : p.up.HasParts := by
  unfold Path.up
  split
  · split
    · exact h
    · intro n hn
      rw [List.mem_singleton.mp hn]
      exact isPart_dots
  · split
    · next hn =>
      rw [hn]
      exact h.child isPart_dots
    · exact fun n hn => h n (List.dropLast_subset _ hn)

theorem joinRest (h : p.HasParts) (parts : List Name) : (p.joinRest parts).HasParts := by
  have hrest : ∀ n ∈ (ofText (joinSlash parts)).names, IsPart n := fun n => isPart_of_mem_namesOf
  unfold Path.joinRest join
  split
  · exact hrest
  · intro n hn
    rcases List.mem_append.mp hn with hn | hn
    · exact h n hn
    · exact hrest n hn

theorem absolute (h : p.HasParts) {cwd : List Name} (hcwd : ∀ n ∈ cwd, IsPart n) :
    (p.absolute cwd).HasParts := by
  intro n hn
  have hm := mem_of_mem_resolveNames hn
  split at hm
  · exact h n hm
  · rcases List.mem_append.mp hm with hm | hm
    · exact hcwd n hm
    · exact h n hm

end Path.HasParts

namespace Tree

/-- the path that resolving came to, and those that it keeps for links, have parts for names -/
def Legible (r : Resolved × Met) : Prop :=
  r.1.path.HasParts ∧ ∀ e ∈ r.2, ∀ q, e.2 = some q → q.HasParts

theorem hasParts_resolveStart {dir : Path} (h : dir.HasParts) (text : List Char) :
    (resolveStart dir text).HasParts := by
  unfold resolveStart
  split
  · exact fun n hn => absurd hn List.not_mem_nil
  · exact h

section
variable {t : Tree} {cwd : Location}

theorem legible_resolveWith
    {follow : Path → Met → List Name → Except Failure (Resolved × Met)}
    (hfollow : ∀ {p met ns r}, Legible (.whole p, met) → (∀ n ∈ ns, '/' ∉ n) →
      follow p met ns = .ok r → Legible r)
    {p : Path} {met : Met} {ns : List Name} {r : Resolved × Met} (hp : Legible (.whole p, met))
    (hns : ∀ n ∈ ns, '/' ∉ n) (h : resolveWith follow t cwd p met ns = .ok r) : Legible r := by
  induction ns generalizing p met with
  | nil =>
    cases h
    exact hp
  | cons n ns ih =>
    obtain ⟨hn, hns⟩ := List.forall_mem_cons.mp hns
    obtain ⟨hpath, hmet⟩ := hp
    rw [resolveWith] at h
    split at h
    · exact ih ⟨hpath, hmet⟩ hns h
    next hkept =>
    split at h
    · exact ih ⟨hpath.up, hmet⟩ hns h
    have hpart : IsPart n := by
      rw [Bool.or_eq_true, not_or, decide_eq_true_iff, decide_eq_true_iff] at hkept
      exact ⟨hkept.1, hkept.2, hn⟩
    have hchild : (p.child n).HasParts := hpath.child hpart
    split at h
    · cases h
    · exact ih ⟨hchild, hmet⟩ hns h
    next target _ =>
    split at h
    · next q hq =>
      obtain ⟨before, rest, rfl, -⟩ := List.lookup_eq_some_iff.mp hq
      have hmem : (p.child n, some q) ∈ before ++ (p.child n, some q) :: rest :=
        List.mem_append_right _ List.mem_cons_self
      exact ih ⟨hmet _ hmem q rfl, hmet⟩ hns h
    · cases h
      exact ⟨hchild.joinRest ns, hmet⟩
    have hbegun : Legible (.whole (resolveStart p target), (p.child n, none) :: met) :=
      ⟨hasParts_resolveStart hpath target, List.forall_mem_cons.mpr ⟨fun q hq => (by cases hq), hmet⟩⟩
    split at h
    · cases h
    · next q met' hf =>
      obtain ⟨hq, hmet'⟩ := hfollow hbegun (fun n => slash_not_mem_of_mem_splitSlash) hf
      cases h
      exact ⟨Path.HasParts.joinRest hq ns, hmet'⟩
    · next q met' hf =>
      obtain ⟨hq, hmet'⟩ := hfollow hbegun (fun n => slash_not_mem_of_mem_splitSlash) hf
      have hdone : Legible (.whole q, (p.child n, some q) :: met') := by
        refine ⟨hq, List.forall_mem_cons.mpr ⟨fun q' hq' => ?_, hmet'⟩⟩
        cases hq'
        exact hq
      exact ih hdone hns h

theorem legible_resolveFrom {depth : Nat} {p : Path} {met : Met} {ns : List Name}
    {r : Resolved × Met} (hp : Legible (.whole p, met)) (hns : ∀ n ∈ ns, '/' ∉ n)
    (h : t.resolveFrom cwd depth p met ns = .ok r) : Legible r := by
  induction depth generalizing p met ns r with
  | zero => exact legible_resolveWith (fun _ _ hf => by cases hf) hp hns h
  | succ depth ih => exact legible_resolveWith ih hp hns h

theorem isPart_of_realPath {p root : Path} (hcwd : ∀ n ∈ cwd, IsPart n)
    (h : t.realPath cwd p = .ok root) : root.HasParts := by
  have hempty : Path.HasParts ⟨.here, []⟩ := fun n hn => absurd hn List.not_mem_nil
  unfold realPath at h
  obtain ⟨⟨resolved, met⟩, hr, h⟩ := bind_eq_ok_iff.mp h
  dsimp only at h
  obtain ⟨hparts, -⟩ := legible_resolveFrom
    ⟨hasParts_resolveStart hempty p.text, fun e he => absurd he List.not_mem_nil⟩
    (fun n => slash_not_mem_of_mem_splitSlash) hr
  have hreal : resolved.path.absolute (namesTo cwd) = root := by
    split at h
    · cases h
    · cases h
    · exact Except.ok.inj h
  rw [← hreal]
  exact hparts.absolute fun n hn => hcwd n (List.mem_reverse.mp hn)

end

end Tree

end Rebind
