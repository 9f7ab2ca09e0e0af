import Mathlib.Data.List.Nodup
import Mathlib.Data.List.Perm.Basic
import Rebind.Proofs.Reach

/-!
# Trees as a file system keeps them

A file system keeps one entry for each location, each in a directory, and each under a name that
can stand between slashes: `Tree.WellFormed`.  In such a tree what a directory lists and what lies
below it are questions about `Tree.get?`,

    Tree.mem_children_iff : n ∈ t.children l ↔ (t.get? (n :: l)).isSome
    Tree.mem_below_iff    : ns ∈ t.below l ↔ ns ≠ [] ∧ (t.get? (locationFrom l ns)).isSome

and a path that goes down from a directory through real directories leads where its names say
(`target?_directory`, `target?_file`): no link is met before the last name.
-/

namespace Rebind

/-- the text can be the name of an entry -/
structure IsName (n : Name) : Prop where
  ne_nil : n ≠ []
  ne_dot : n ≠ ['.']
  ne_dots : n ≠ ['.', '.']
  noSlash : '/' ∉ n
  noNull : '\x00' ∉ n
  short : isLongName n = false

instance (n : Name) : Decidable (IsName n) :=
  decidable_of_iff (n ≠ [] ∧ n ≠ ['.'] ∧ n ≠ ['.', '.'] ∧ '/' ∉ n ∧ '\x00' ∉ n ∧
      isLongName n = false)
    ⟨fun ⟨hnil, hdot, hdots, hslash, hnull, hshort⟩ => ⟨hnil, hdot, hdots, hslash, hnull, hshort⟩,
      fun h => ⟨h.ne_nil, h.ne_dot, h.ne_dots, h.noSlash, h.noNull, h.short⟩⟩

theorem locationFrom_append (l : Location) (ns ms : List Name) :
    locationFrom l (ns ++ ms) = locationFrom (locationFrom l ns) ms := by
  simp [locationFrom]

theorem locationFrom_cons (l : Location) (n : Name) (ns : List Name) :
    locationFrom l (n :: ns) = locationFrom (n :: l) ns := by
  simp [locationFrom]

theorem locationFrom_concat (l : Location) (ns : List Name) (n : Name) :
    locationFrom l (ns ++ [n]) = n :: locationFrom l ns := by
  simp [locationFrom]

theorem Discovery.parent_path (root : Path) (ns : List Name) (n : Name) :
    (path root (ns ++ [n])).parent = path root ns := by
  show Path.mk root.anchor (root.names ++ (ns ++ [n])).dropLast = ⟨root.anchor, root.names ++ ns⟩
  rw [← List.append_assoc, List.dropLast_concat]

namespace Tree

def locations (t : Tree) : List Location := t.entries.map Prod.fst

/-- what a file system keeps of every tree -/
structure WellFormed (t : Tree) : Prop where
  unique : t.locations.Nodup
  notRoot : [] ∉ t.locations
  housed : ∀ l ∈ t.locations, t.isDirectory l.tail = true
  named : ∀ l ∈ t.locations, ∀ n ∈ l, IsName n

instance (t : Tree) : Decidable t.WellFormed :=
  decidable_of_iff (t.locations.Nodup ∧ [] ∉ t.locations ∧
      (∀ l ∈ t.locations, t.isDirectory l.tail = true) ∧ ∀ l ∈ t.locations, ∀ n ∈ l, IsName n)
    ⟨fun ⟨hunique, hroot, hhoused, hnamed⟩ => ⟨hunique, hroot, hhoused, hnamed⟩,
      fun h => ⟨h.unique, h.notRoot, h.housed, h.named⟩⟩

variable {t : Tree}

theorem isDirectory_iff {l : Location} :
    t.isDirectory l = true ↔ t.get? l = some .directory := decide_eq_true_iff

theorem isSome_get?_iff {l : Location} (hl : l ≠ []) :
    (t.get? l).isSome ↔ l ∈ t.locations := by
  have hnone : (t.entries.lookup l = none) ↔ l ∉ t.locations := by
    rw [List.lookup_eq_none_iff, locations, List.mem_map]
    constructor
    · rintro h ⟨e, he, rfl⟩
      simpa using h e he
    · intro h e he
      rw [bne_iff_ne]
      rintro rfl
      exact h ⟨e, he, rfl⟩
  rw [get?_of_ne_nil t hl, ← Option.ne_none_iff_isSome, Ne, hnone, not_not]

theorem nameIn?_eq_some_iff {l k : Location} {n : Name} : nameIn? l k = some n ↔ k = n :: l := by
  cases k with
  | nil => simp [nameIn?]
  | cons m k =>
    simp only [nameIn?, Option.ite_none_right_eq_some, Option.some.injEq, List.cons.injEq]
    exact and_comm

theorem mem_children_iff {l : Location} {n : Name} :
    n ∈ t.children l ↔ (t.get? (n :: l)).isSome := by
  rw [isSome_get?_iff (List.cons_ne_nil n l), locations, children_eq, List.mem_filterMap]
  constructor
  · rintro ⟨k, hm, hk⟩
    rwa [← nameIn?_eq_some_iff.mp hk]
  · intro hm
    exact ⟨_, hm, nameIn?_eq_some_iff.mpr rfl⟩

theorem mem_below_iff {l : Location} {ns : List Name} :
    ns ∈ t.below l ↔ ns ≠ [] ∧ (t.get? (locationFrom l ns)).isSome := by
  have hne : ns ≠ [] → locationFrom l ns ≠ [] := by
    intro hns h
    exact hns (List.reverse_eq_nil_iff.mp (List.append_eq_nil_iff.mp h).1)
  rw [below_eq, List.mem_filterMap]
  constructor
  · rintro ⟨k, hm, hk⟩
    obtain ⟨hdown, hns⟩ := Option.filter_eq_some_iff.mp hk
    obtain ⟨ms, hms, rfl⟩ := namesDown?_eq_some_iff.mp hdown
    rw [List.append_nil] at hms
    subst hms
    have hns : ns ≠ [] := by simpa using hns
    exact ⟨hns, (isSome_get?_iff (hne hns)).mpr hm⟩
  · rintro ⟨hns, hs⟩
    refine ⟨_, (isSome_get?_iff (hne hns)).mp hs, Option.filter_eq_some_iff.mpr ⟨?_, by simpa using hns⟩⟩
    exact namesDown?_eq_some_iff.mpr ⟨ns, (List.append_nil ns).symm, rfl⟩

namespace WellFormed
variable (h : t.WellFormed)
include h

theorem isDirectory {n : Name} {l : Location} (hs : (t.get? (n :: l)).isSome) :
    t.isDirectory l = true :=
  h.housed (n :: l) ((isSome_get?_iff (List.cons_ne_nil n l)).mp hs)

theorem isName {l : Location} (hs : (t.get? l).isSome) : ∀ n ∈ l, IsName n := by
  cases l with
  | nil => exact fun n hn => absurd hn List.not_mem_nil
  | cons m l => exact h.named _ ((isSome_get?_iff (List.cons_ne_nil m l)).mp hs)

/-- whatever has something below it is a directory -/
theorem isDirectory_above {l : Location} {ns : List Name} (hns : ns ≠ [])
    (hs : (t.get? (locationFrom l ns)).isSome) : t.isDirectory l = true := by
  induction ns generalizing l with
  | nil => exact absurd rfl hns
  | cons n ns ih =>
    rw [locationFrom_cons] at hs
    by_cases hnil : ns = []
    · subst hnil
      exact h.isDirectory hs
    · have hd := isDirectory_iff.mp (ih hnil hs)
      exact h.isDirectory (Option.isSome_of_eq_some hd)

/-- the first name on the way to something is that of an entry -/
theorem mem_children {l : Location} {n : Name} {ns : List Name}
    (hs : (t.get? (locationFrom l (n :: ns))).isSome) : n ∈ t.children l := by
  rw [locationFrom_cons] at hs
  rw [mem_children_iff]
  by_cases hns : ns = []
  · subst hns
    exact hs
  · rw [isDirectory_iff.mp (h.isDirectory_above hns hs)]
    rfl

theorem nodup_children (l : Location) : (t.children l).Nodup := by
  rw [children_eq]
  refine h.unique.filterMap fun k k' n hn hn' => ?_
  rw [Option.mem_def, nameIn?_eq_some_iff] at hn hn'
  rw [hn, hn']

theorem nodup_below (l : Location) : (t.below l).Nodup := by
  rw [below_eq]
  refine h.unique.filterMap fun k k' ns hn hn' => ?_
  obtain ⟨ms, hms, rfl⟩ := namesDown?_eq_some_iff.mp (Option.filter_eq_some_iff.mp hn).1
  obtain ⟨ms', hms', rfl⟩ := namesDown?_eq_some_iff.mp (Option.filter_eq_some_iff.mp hn').1
  rw [List.append_nil] at hms hms'
  rw [← hms, ← hms']

/-- what lies below a directory: each entry of it, and what lies below that -/
theorem below_perm (l : Location) :
    (t.below l).Perm
      ((t.children l).flatMap fun n => [n] :: (t.below (n :: l)).map (n :: ·)) := by
  refine (List.perm_ext_iff_of_nodup (h.nodup_below l) ?_).mpr fun ns => ?_
  · rw [List.nodup_flatMap]
    refine ⟨fun n _ => ?_, (h.nodup_children l).imp fun {n m} hnm => ?_⟩
    · rw [List.nodup_cons]
      refine ⟨fun hm => ?_, (h.nodup_below (n :: l)).map (List.cons_injective)⟩
      obtain ⟨ms, hms, he⟩ := List.mem_map.mp hm
      exact (mem_below_iff.mp hms).1 (List.cons.inj he).2
    · -- names from different entries differ at once
      have hhead : ∀ k ns, ns ∈ [k] :: (t.below (k :: l)).map (k :: ·) → ns.head? = some k := by
        intro k ns hns
        rcases List.mem_cons.mp hns with rfl | hns
        · rfl
        · obtain ⟨ms, -, rfl⟩ := List.mem_map.mp hns
          rfl
      intro ns hns hms
      exact hnm (Option.some.inj ((hhead n ns hns).symm.trans (hhead m ns hms)))
  · rw [mem_below_iff, List.mem_flatMap]
    constructor
    · rintro ⟨hne, hs⟩
      obtain ⟨n, ms, rfl⟩ := List.exists_cons_of_ne_nil hne
      refine ⟨n, h.mem_children hs, ?_⟩
      by_cases hms : ms = []
      · subst hms
        exact List.mem_cons_self
      · rw [locationFrom_cons] at hs
        exact List.mem_cons_of_mem _ (List.mem_map.mpr ⟨ms, mem_below_iff.mpr ⟨hms, hs⟩, rfl⟩)
    · rintro ⟨n, hn, hns⟩
      rcases List.mem_cons.mp hns with rfl | hns
      · exact ⟨List.cons_ne_nil n [], mem_children_iff.mp hn⟩
      · obtain ⟨ms, hms, rfl⟩ := List.mem_map.mp hns
        refine ⟨List.cons_ne_nil n ms, ?_⟩
        rw [locationFrom_cons]
        exact (mem_below_iff.mp hms).2

end WellFormed

/-! ## going on from where a path leads -/

theorem Follows.append {links : Nat} {k l : Location} {ns : List Name}
    (h : Follows false t links k ns (.found l)) :
    ∃ left, ∀ ms, t.placeFrom false links k (ns ++ ms) = t.placeFrom false left l ms := by
  generalize hplace : Place.found l = place at h
  induction h with
  | @arrive links k =>
    cases hplace
    exact ⟨links, fun ms => rfl⟩
  | stay hd hn _ ih =>
    obtain ⟨left, hleft⟩ := ih hplace
    exact ⟨left, fun ms => (placeFrom_stay hd hn).trans (hleft ms)⟩
  | up hd _ ih =>
    obtain ⟨left, hleft⟩ := ih hplace
    exact ⟨left, fun ms => (placeFrom_up hd).trans (hleft ms)⟩
  | stop hn hnone => cases hplace
  | link hn he _ ih =>
    obtain ⟨left, hleft⟩ := ih hplace
    refine ⟨left, fun ms => ?_⟩
    rw [List.cons_append, (hn.reading _).placeFrom_link he, ← List.append_assoc]
    exact hleft ms
  | enter hn he hnode _ ih =>
    obtain ⟨left, hleft⟩ := ih hplace
    exact ⟨left, fun ms => ((hn.reading _).placeFrom_enter he hnode).trans (hleft ms)⟩

/-! ## paths below a directory -/

/-- the name of an entry is looked up in its directory -/
theorem WellFormed.looksUp (h : t.WellFormed) {l : Location} {n : Name}
    (hs : (t.get? (n :: l)).isSome) (ns : List Name) : LooksUp false t l n ns := by
  have hn : IsName n := h.isName hs n List.mem_cons_self
  exact ⟨h.isDirectory hs, not_or.mpr ⟨hn.ne_nil, hn.ne_dot⟩, hn.ne_dots, fun hm => (by cases hm),
    hn.short⟩

namespace WellFormed
variable (h : t.WellFormed)
include h

theorem placeFrom_directories (links : Nat) {l : Location} {ns : List Name}
    (hd : t.isDirectory (locationFrom l ns) = true) (ms : List Name) :
    t.placeFrom false links l (ns ++ ms) = t.placeFrom false links (locationFrom l ns) ms := by
  induction ns generalizing l with
  | nil => rfl
  | cons n ns ih =>
    have hs := Option.isSome_of_eq_some (isDirectory_iff.mp hd)
    rw [locationFrom_cons] at hd hs ⊢
    have hnext : t.get? (n :: l) = some .directory := by
      by_cases hns : ns = []
      · subst hns
        exact isDirectory_iff.mp hd
      · exact isDirectory_iff.mp (h.isDirectory_above hns hs)
    have hn := h.looksUp (Option.isSome_of_eq_some hnext) (ns ++ ms)
    rw [List.cons_append, hn.placeFrom_enter hnext (fun target he => by cases he)]
    exact ih hd

variable {cwd top : Location} {root : Path} (hroot : t.target? cwd root = .ok top)
include hroot

/-- a path below a directory goes on from there -/
theorem exists_place : ∃ links, ∀ {ns : List Name}, t.isDirectory (locationFrom top ns) = true →
    ∀ ms, t.place false cwd (Discovery.path root (ns ++ ms)) =
      t.placeFrom false links (locationFrom top ns) ms := by
  obtain ⟨links, hl⟩ := (placeFrom_eq_ok_iff.mp (target?_eq_ok_iff.mp hroot)).append
  refine ⟨links, fun {ns} hd ms => ?_⟩
  rw [← h.placeFrom_directories links hd ms]
  exact hl (ns ++ ms)

theorem target?_directory {ns : List Name} (hd : t.isDirectory (locationFrom top ns) = true) :
    t.target? cwd (Discovery.path root ns) = .ok (locationFrom top ns) := by
  obtain ⟨links, hl⟩ := h.exists_place hroot
  have hp := hl hd []
  rw [List.append_nil] at hp
  rw [target?_eq_ok_iff, hp, placeFrom_nil]

theorem target?_file {ns : List Name} {n : Name} {bs : List UInt8}
    (hf : t.get? (n :: locationFrom top ns) = some (.file bs)) :
    t.target? cwd (Discovery.path root (ns ++ [n])) = .ok (n :: locationFrom top ns) := by
  have hs := Option.isSome_of_eq_some hf
  obtain ⟨links, hl⟩ := h.exists_place hroot
  rw [target?_eq_ok_iff, hl (h.isDirectory hs) [n],
    (h.looksUp hs []).placeFrom_enter hf (fun target he => by cases he), placeFrom_nil]

theorem lastPlace_entry {ns : List Name} {n : Name}
    (hs : (t.get? (n :: locationFrom top ns)).isSome) :
    t.lastPlace cwd (Discovery.path root (ns ++ [n])) = .ok (.found (n :: locationFrom top ns)) := by
  have hd := h.isDirectory hs
  have hname := h.isName hs n List.mem_cons_self
  have hlast : (Discovery.path root (ns ++ [n])).names.getLast? = some n := by
    show (root.names ++ (ns ++ [n])).getLast? = some n
    rw [← List.append_assoc, List.getLast?_concat]
  rw [lastPlace, hlast]
  show (t.target? cwd (Discovery.path root (ns ++ [n])).parent >>= _) = _
  rw [Discovery.parent_path, h.target?_directory hroot hd]
  show (if !t.isDirectory (locationFrom top ns) then _ else _) = _
  rw [hd, if_neg (by decide), if_neg hname.ne_dots, hname.short, if_neg (by decide), if_pos hs]

end WellFormed

end Tree

end Rebind
