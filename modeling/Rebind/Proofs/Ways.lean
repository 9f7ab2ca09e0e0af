import Rebind.Path.Specifier
import Rebind.Proofs.Reach

/-!
# Ways from a directory up and down again

A directory `dirs` below a root reaches a place `down` below the same root by going up once for each
of `dirs` and then down, unless both ways begin with the same name (`Path.wayNames_below`).  The
steps up are resolved by taking away the names of `dirs` again, so the way resolves to the place it
was made for (`Path.resolveNames_way`).  That needs names that are no `..`; a resolved path has no
others (`Path.resolveNames_eq_self`).
-/

namespace Rebind

def dots : Name := ['.', '.']

namespace Path

/-! ## lexical resolution -/

theorem foldl_resolveName {ns : List Name} (h : dots ∉ ns) (start : List Name) :
    ns.foldl resolveName start = start ++ ns := by
  induction ns generalizing start with
  | nil => exact (List.append_nil start).symm
  | cons n ns ih =>
    rw [List.mem_cons, not_or] at h
    have hn : resolveName start n = start ++ [n] := if_neg (Ne.symm h.1)
    rw [List.foldl_cons, hn, ih h.2, List.append_assoc]
    rfl

theorem dots_not_mem_resolveName {start : List Name} (h : dots ∉ start) (n : Name) :
    dots ∉ resolveName start n := by
  unfold resolveName
  split
  · exact fun hm => h (List.dropLast_subset _ hm)
  · next hn =>
    rw [List.mem_append, List.mem_singleton]
    rintro (hm | he)
    · exact h hm
    · exact hn he.symm

theorem dots_not_mem_resolveNames (ns : List Name) : dots ∉ resolveNames ns := by
  have hfold : ∀ start : List Name, dots ∉ start → dots ∉ ns.foldl resolveName start := by
    induction ns with
    | nil => exact fun start h => h
    | cons n ns ih => exact fun start h => ih _ (dots_not_mem_resolveName h n)
  exact hfold [] List.not_mem_nil

/-- resolving brings in no names -/
theorem mem_of_mem_resolveNames {n : Name} {ns : List Name} (h : n ∈ resolveNames ns) : n ∈ ns := by
  have hfold : ∀ start : List Name, n ∈ ns.foldl resolveName start → n ∈ start ∨ n ∈ ns := by
    clear h
    induction ns with
    | nil => exact fun start h => .inl h
    | cons m ns ih =>
      intro start h
      rcases ih _ h with h | h
      · unfold resolveName at h
        split at h
        · exact .inl (List.dropLast_subset _ h)
        · rcases List.mem_append.mp h with h | h
          · exact .inl h
          · exact .inr (List.mem_singleton.mp h ▸ List.mem_cons_self)
      · exact .inr (List.mem_cons_of_mem m h)
  exact (hfold [] h).resolve_left List.not_mem_nil

theorem resolveNames_of_not_mem {ns : List Name} (h : dots ∉ ns) : resolveNames ns = ns :=
  foldl_resolveName h []

theorem resolveNames_eq_self {ns : List Name} : resolveNames ns = ns ↔ dots ∉ ns := by
  constructor
  · intro h
    rw [← h]
    exact dots_not_mem_resolveNames ns
  · exact resolveNames_of_not_mem

/-- as many steps up as there are names take these away -/
theorem foldl_resolveName_up (start dirs : List Name) :
    (List.replicate dirs.length dots).foldl resolveName (start ++ dirs) = start := by
  induction dirs generalizing start with
  | nil => exact List.append_nil start
  | cons d dirs ih =>
    rw [List.length_cons, List.replicate_succ', List.foldl_append, List.append_cons, ih]
    show (start ++ [d]).dropLast = start
    exact List.dropLast_concat

theorem resolveNames_way {top dirs down : List Name} (htop : dots ∉ top) (hdirs : dots ∉ dirs)
    (hdown : dots ∉ down) :
    resolveNames (top ++ dirs ++ (List.replicate dirs.length dots ++ down)) = top ++ down := by
  unfold resolveNames
  rw [List.foldl_append, List.foldl_append, List.foldl_append, foldl_resolveName htop,
    foldl_resolveName hdirs, List.nil_append, foldl_resolveName_up, foldl_resolveName hdown]

/-- a path from the root without `..` -/
def IsResolved (p : Path) : Prop := p.absolute [] = p

instance (p : Path) : Decidable p.IsResolved := inferInstanceAs (Decidable (p.absolute [] = p))

theorem isResolved_iff {p : Path} : p.IsResolved ↔ p.isAbsolute = true ∧ dots ∉ p.names := by
  have hnames : p.isAbsolute = true → p.absoluteNames [] = resolveNames p.names := by
    intro ha
    rw [absoluteNames, if_pos ha]
  constructor
  · intro h
    have ha : p.isAbsolute = true := by
      rw [← show p.absolute [] = p from h]
      unfold absolute
      cases hp : p.isAbsolute with
      | true => simpa [isAbsolute] using hp
      | false => rfl
    refine ⟨ha, resolveNames_eq_self.mp ?_⟩
    rw [← hnames ha]
    exact congrArg Path.names h
  · rintro ⟨ha, hdots⟩
    unfold IsResolved absolute
    rw [hnames ha, resolveNames_of_not_mem hdots, if_pos ha]

theorem isResolved_absolute (cwd : List Name) (p : Path) : (p.absolute cwd).IsResolved := by
  refine isResolved_iff.mpr ⟨?_, dots_not_mem_resolveNames _⟩
  unfold absolute
  cases hp : p.isAbsolute with
  | true => simpa [isAbsolute] using hp
  | false => rfl

/-! ## ways -/

theorem sharedLength_append (top ns ms : List Name) :
    sharedLength (top ++ ns) (top ++ ms) = top.length + sharedLength ns ms := by
  induction top with
  | nil => exact (Nat.zero_add _).symm
  | cons n top ih =>
    show (if n = n then sharedLength (top ++ ns) (top ++ ms) + 1 else 0) = _
    rw [if_pos rfl, ih, List.length_cons]
    omega

theorem wayNames_below {top dirs down : List Name} {n : Name} (h : dirs.head? ≠ some n) :
    wayNames (top ++ dirs) (top ++ n :: down) =
      List.replicate dirs.length dots ++ n :: down := by
  have hshared : sharedLength dirs (n :: down) = 0 := by
    cases dirs with
    | nil => rfl
    | cons d dirs =>
      rw [List.head?_cons, Ne, Option.some.injEq] at h
      exact if_neg h
  show List.replicate ((top ++ dirs).length - sharedLength (top ++ dirs) (top ++ n :: down)) dots ++
    (top ++ n :: down).drop (sharedLength (top ++ dirs) (top ++ n :: down)) = _
  rw [sharedLength_append, hshared, Nat.add_zero, List.length_append, Nat.add_sub_cancel_left,
    List.drop_left]

theorem joinSlash_up (k : Nat) {n : Name} (ns : List Name) :
    joinSlash (List.replicate k dots ++ n :: ns) =
      (List.replicate k "../".toList).flatten ++ joinSlash (n :: ns) := by
  induction k with
  | zero => rfl
  | succ k ih =>
    have hcons : ∀ ms : List Name, ms ≠ [] → joinSlash (dots :: ms) = "../".toList ++ joinSlash ms := by
      intro ms hms
      obtain ⟨m, ms, rfl⟩ := List.exists_cons_of_ne_nil hms
      exact List.intercalate_cons_cons
    rw [List.replicate_succ, List.cons_append, hcons _ (by simp), ih, List.replicate_succ,
      List.flatten_cons, List.append_assoc]

theorem namesOf_up (k : Nat) (s : List Char) :
    namesOf ((List.replicate k "../".toList).flatten ++ s) =
      List.replicate k dots ++ namesOf s := by
  induction k with
  | zero => rfl
  | succ k ih =>
    have hcons : ∀ s : List Char, namesOf ("../".toList ++ s) = dots :: namesOf s := fun s => rfl
    rw [List.replicate_succ, List.flatten_cons, List.append_assoc, hcons, ih, List.replicate_succ,
      List.cons_append]

end Path

/-! ## resolved roots -/

/-- a real path is resolved -/
theorem Tree.isResolved_of_realPath {t : Tree} {cwd : Location} {p root : Path}
    (h : t.realPath cwd p = .ok root) : root.IsResolved := by
  unfold Tree.realPath at h
  obtain ⟨⟨resolved, met⟩, -, h⟩ := bind_eq_ok_iff.mp h
  dsimp only at h
  have hreal : resolved.path.absolute (namesTo cwd) = root := by
    split at h
    · cases h
    · cases h
    · exact Except.ok.inj h
  rw [← hreal]
  exact Path.isResolved_absolute _ _

end Rebind
