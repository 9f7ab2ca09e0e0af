import Rebind.Proofs.Entries

/-!
# Walks in any order

A search at any depth lists each directory twice, once for the names that fit and once for the
directories to go into, and a file system may list the entries of a directory in any order.
`Walk` has every course that a search can take:

* `matching`  what fits in one directory;
* `listing`   the failure of listing a directory, if it fails, and `looking` that of looking at a
              link;
* `Walk`      the entries of a directory one after the other, each directory among them with all
              that is below it.

What is come upon does not depend on the order (`Walk.mem_iff`), and no path is come upon twice
(`Walk.nodup`).  The search of `Discovery.search` takes the course of the names in order
(`walk_below`).
-/

namespace Rebind.Discovery

section
variable (t : Tree) (cwd : Location) (root : Path) (top : Location) (atoms : List Glob.Atom)

/-- what fits in the directory with the given names -/
def matching (names : List Name) : List Hit := search t cwd root [.wild atoms] names

/-- nothing, or the failure of listing a directory -/
def listing (names : List Name) : List Hit :=
  after (enter t cwd names.length (path root names)) fun _ => []

/-- nothing, or the failure of looking at a link -/
def looking (names : List Name) (n : Name) : List Hit :=
  after (t.entryLeadsToDirectory cwd (path root names) n) fun _ => []

/-- what may be come upon in the directory with the given names, whose place is told from that of
the root, `top`, when the entries `es` are still to come -/
inductive Walk : List Name → (es : List Name) → List Hit → Prop
  | done (names : List Name) : Walk names [] []
  | directory {names es entries : List Name} {n : Name} {own inner rest : List Hit}
      (node : t.get? (n :: locationFrom top names) = some .directory)
      (fitting : own.Perm (matching t cwd root atoms (names ++ [n])))
      (listed : entries.Perm (t.children (n :: locationFrom top names)))
      (into : Walk (names ++ [n]) entries inner) (on : Walk names es rest) :
      Walk names (n :: es) (own ++ listing t cwd root (names ++ [n]) ++ inner ++ rest)
  | link {names es : List Name} {n : Name} {target : List Char} {rest : List Hit}
      (node : t.get? (n :: locationFrom top names) = some (.link target))
      (on : Walk names es rest) : Walk names (n :: es) (looking t cwd root names n ++ rest)
  | file {names es : List Name} {n : Name} {bs : List UInt8} {rest : List Hit}
      (node : t.get? (n :: locationFrom top names) = some (.file bs))
      (on : Walk names es rest) : Walk names (n :: es) rest

/-- what a search below the root may come upon -/
def Searched (hits : List Hit) : Prop :=
  ∃ own entries rest, own.Perm (matching t cwd root atoms []) ∧
    entries.Perm (t.children top) ∧ Walk t cwd root top atoms [] entries rest ∧
    hits = own ++ listing t cwd root [] ++ rest

/-- what the entry with the given names adds to a search -/
def adds (names : List Name) : List Hit :=
  match t.get? (locationFrom top names) with
  | some .directory => matching t cwd root atoms names ++ listing t cwd root names
  | some (.link _) => looking t cwd root names.dropLast (names.getLast?.getD [])
  | _ => []

end

section
variable {t : Tree} {cwd : Location} {root : Path} {top : Location} {atoms : List Glob.Atom}

/-! ## the course does not matter -/

theorem ok_not_mem_after {α : Type} {answer : Except Failure α} {names : List Name} :
    .ok names ∉ after answer fun _ => ([] : List Hit) := by
  cases answer <;> simp [after]

theorem isSome_of_mem_adds {hit : Hit} {names : List Name}
    (h : hit ∈ adds t cwd root top atoms names) : (t.get? (locationFrom top names)).isSome := by
  unfold adds at h
  cases hg : t.get? (locationFrom top names) with
  | none =>
    rw [hg] at h
    cases h
  | some node => rfl

theorem adds_of_directory {names : List Name} {n : Name}
    (h : t.get? (n :: locationFrom top names) = some .directory) :
    adds t cwd root top atoms (names ++ [n]) =
      matching t cwd root atoms (names ++ [n]) ++ listing t cwd root (names ++ [n]) := by
  rw [adds, locationFrom_concat, h]

theorem adds_of_link {names : List Name} {n : Name} {target : List Char}
    (h : t.get? (n :: locationFrom top names) = some (.link target)) :
    adds t cwd root top atoms (names ++ [n]) = looking t cwd root names n := by
  rw [adds, locationFrom_concat, h, List.dropLast_concat, List.getLast?_concat]
  rfl

theorem adds_of_file {names : List Name} {n : Name} {bs : List UInt8}
    (h : t.get? (n :: locationFrom top names) = some (.file bs)) :
    adds t cwd root top atoms (names ++ [n]) = [] := by
  rw [adds, locationFrom_concat, h]

/-- what an entry and all below it add: that of the entry, and that of what is in it -/
theorem exists_adds_iff (ht : t.WellFormed) {hit : Hit} {names : List Name} {n : Name} :
    (∃ ns, hit ∈ adds t cwd root top atoms (names ++ n :: ns)) ↔
      hit ∈ adds t cwd root top atoms (names ++ [n]) ∨
      t.get? (n :: locationFrom top names) = some .directory ∧
        ∃ m ∈ t.children (n :: locationFrom top names), ∃ ns,
          hit ∈ adds t cwd root top atoms (names ++ [n] ++ m :: ns) := by
  constructor
  · rintro ⟨ns, hns⟩
    cases ns with
    | nil => exact .inl hns
    | cons m ns =>
      have hs := isSome_of_mem_adds hns
      rw [List.append_cons, locationFrom_append, locationFrom_concat] at hs
      have hd := ht.isDirectory_above (List.cons_ne_nil m ns) hs
      exact .inr ⟨Tree.isDirectory_iff.mp hd, m, ht.mem_children hs, ns, by
        rwa [← List.append_cons]⟩
  · rintro (hn | ⟨-, m, -, ns, hns⟩)
    · exact ⟨[], hn⟩
    · rw [← List.append_cons] at hns
      exact ⟨m :: ns, hns⟩

/-- a walk comes upon what its entries and all below them add -/
theorem Walk.mem_iff (ht : t.WellFormed) {names es : List Name} {hits : List Hit}
    (h : Walk t cwd root top atoms names es hits) (hit : Hit) :
    hit ∈ hits ↔ ∃ n ∈ es, ∃ ns, hit ∈ adds t cwd root top atoms (names ++ n :: ns) := by
  induction h with
  | done names => simp
  | directory node fitting listed into on ihInto ihOn =>
    rw [List.exists_mem_cons_iff, exists_adds_iff ht, adds_of_directory node, ← ihOn]
    simp only [List.mem_append, fitting.mem_iff, ihInto, listed.mem_iff, node, true_and]
  | link node on ihOn =>
    rw [List.exists_mem_cons_iff, exists_adds_iff ht, adds_of_link node, ← ihOn, node]
    simp
  | file node on ihOn =>
    rw [List.exists_mem_cons_iff, exists_adds_iff ht, adds_of_file node, ← ihOn, node]
    simp

/-! ## no path twice -/

def comeUpon (hits : List Hit) : List (List Name) := hits.filterMap Except.toOption

theorem mem_comeUpon {hits : List Hit} {names : List Name} :
    names ∈ comeUpon hits ↔ .ok names ∈ hits := by
  unfold comeUpon
  rw [List.mem_filterMap]
  constructor
  · rintro ⟨hit, hm, hn⟩
    cases hit with
    | error f => cases hn
    | ok ns =>
      cases hn
      exact hm
  · intro hm
    exact ⟨_, hm, rfl⟩

theorem comeUpon_append (hits hits' : List Hit) :
    comeUpon (hits ++ hits') = comeUpon hits ++ comeUpon hits' :=
  List.filterMap_append

theorem comeUpon_after {α : Type} (answer : Except Failure α) :
    comeUpon (after answer fun _ => []) = [] := by
  cases answer <;> rfl

theorem list_eq_ok {p : Path} {entries : List Name} (h : t.list cwd p = .ok entries) :
    ∃ l, t.target? cwd p = .ok l ∧ entries = (t.children l).mergeSort nameLe := by
  obtain ⟨-, -, h⟩ := handed_eq_ok_iff.mp h
  obtain ⟨l, hl, h⟩ := bind_eq_ok_iff.mp h
  split at h
  · cases h
    exact ⟨l, hl, rfl⟩
  · cases h

theorem matching_eq (t : Tree) (cwd : Location) (root : Path) (atoms : List Glob.Atom)
    (names : List Name) :
    matching t cwd root atoms names = match t.list cwd (path root names) with
      | .error f => [.error f]
      | .ok entries => (entries.filter (Glob.fits atoms)).map fun n => .ok (names ++ [n]) := by
  show after (t.list cwd (path root names)) _ = _
  cases t.list cwd (path root names) with
  | error f => rfl
  | ok entries =>
    show (entries.flatMap fun n =>
        if true && Glob.fits atoms n then ([.ok (names ++ [n])] : List Hit) else []) =
      (entries.filter (Glob.fits atoms)).map fun n => .ok (names ++ [n])
    induction entries with
    | nil => rfl
    | cons n es ih =>
      rw [List.flatMap_cons, ih, List.filter_cons]
      cases Glob.fits atoms n <;> rfl

theorem nodup_matching (ht : t.WellFormed) (names : List Name) :
    (comeUpon (matching t cwd root atoms names)).Nodup := by
  rw [matching_eq]
  cases hl : t.list cwd (path root names) with
  | error f => exact List.nodup_nil
  | ok entries =>
    obtain ⟨l, -, rfl⟩ := list_eq_ok hl
    have hnodup : ((t.children l).mergeSort nameLe).Nodup :=
      (List.mergeSort_perm _ _).nodup_iff.mpr (ht.nodup_children l)
    have hsome : ∀ es : List Name,
        comeUpon (es.map fun n => .ok (names ++ [n])) = es.map fun n => names ++ [n] := by
      intro es
      induction es with
      | nil => rfl
      | cons n es ih => exact congrArg ((names ++ [n]) :: ·) ih
    show (comeUpon ((((t.children l).mergeSort nameLe).filter _).map _)).Nodup
    rw [hsome]
    refine (hnodup.filter _).map fun n m hnm => ?_
    simpa using hnm

theorem exists_concat_of_mem_matching {names ms : List Name}
    (h : .ok ms ∈ matching t cwd root atoms names) : ∃ m, ms = names ++ [m] := by
  rw [matching_eq] at h
  split at h
  · simp at h
  · obtain ⟨m, -, hm⟩ := List.mem_map.mp h
    exact ⟨m, (Except.ok.inj hm).symm⟩

/-- only directories add paths, and these have one name more -/
theorem exists_concat_of_mem_adds {names ms : List Name}
    (h : .ok ms ∈ adds t cwd root top atoms names) : ∃ m, ms = names ++ [m] := by
  unfold adds at h
  split at h
  · rcases List.mem_append.mp h with h | h
    · exact exists_concat_of_mem_matching h
    · exact absurd h ok_not_mem_after
  · exact absurd h ok_not_mem_after
  · cases h

theorem Walk.nodup (ht : t.WellFormed) {names es : List Name} {hits : List Hit}
    (h : Walk t cwd root top atoms names es hits) (hes : es.Nodup) : (comeUpon hits).Nodup := by
  induction h with
  | done names => exact List.nodup_nil
  | link node on ihOn =>
    rw [comeUpon_append, looking, comeUpon_after, List.nil_append]
    exact ihOn (List.nodup_cons.mp hes).2
  | file node on ihOn => exact ihOn (List.nodup_cons.mp hes).2
  | @directory names es entries n own inner rest node fitting listed into on ihInto ihOn =>
    obtain ⟨hn, hes⟩ := List.nodup_cons.mp hes
    -- paths of this directory are shorter than those below it
    have hown : ∀ ms ∈ comeUpon own, ∃ m, ms = names ++ [n] ++ [m] := fun ms hms =>
      exists_concat_of_mem_matching (fitting.mem_iff.mp (mem_comeUpon.mp hms))
    have hinner : ∀ ms ∈ comeUpon inner, ∃ k ns m, ms = names ++ [n] ++ k :: ns ++ [m] := by
      intro ms hms
      obtain ⟨k, -, ns, hns⟩ := (into.mem_iff ht _).mp (mem_comeUpon.mp hms)
      obtain ⟨m, hm⟩ := exists_concat_of_mem_adds hns
      exact ⟨k, ns, m, hm⟩
    have hrest : ∀ ms ∈ comeUpon rest, ∃ k ∈ es, ∃ ns, ms = names ++ k :: ns := by
      intro ms hms
      obtain ⟨k, hk, ns, hns⟩ := (on.mem_iff ht _).mp (mem_comeUpon.mp hms)
      obtain ⟨m, rfl⟩ := exists_concat_of_mem_adds hns
      exact ⟨k, hk, ns ++ [m], by simp⟩
    -- and go through this directory, unlike those of the other entries
    have hhere : ∀ ms ∈ comeUpon own ++ comeUpon inner, ∃ ns, ms = names ++ n :: ns := by
      intro ms hms
      rcases List.mem_append.mp hms with hms | hms
      · obtain ⟨m, rfl⟩ := hown ms hms
        exact ⟨[m], by simp⟩
      · obtain ⟨k, ns, m, rfl⟩ := hinner ms hms
        exact ⟨k :: ns ++ [m], by simp⟩
    have hlisting : comeUpon (listing t cwd root (names ++ [n])) = [] := comeUpon_after _
    rw [comeUpon_append, comeUpon_append, comeUpon_append, hlisting, List.append_nil]
    refine List.nodup_append.mpr ⟨List.nodup_append.mpr ⟨?_, ?_, ?_⟩, ihOn hes, ?_⟩
    · exact (fitting.filterMap Except.toOption).nodup_iff.mpr (nodup_matching ht _)
    · exact ihInto (listed.nodup_iff.mpr (ht.nodup_children _))
    · rintro ms hms ms' hms' rfl
      obtain ⟨m, hm⟩ := hown ms hms
      obtain ⟨k, ns, m', hm'⟩ := hinner ms hms'
      have hlen := congrArg List.length (hm.symm.trans hm')
      simp at hlen
    · rintro ms hms ms' hms' rfl
      obtain ⟨ns, hns⟩ := hhere ms hms
      obtain ⟨k, hk, ns', hns'⟩ := hrest ms hms'
      obtain ⟨rfl, -⟩ : n = k ∧ ns = ns' := by simpa using hns.symm.trans hns'
      exact hn hk

/-! ## whole searches -/

theorem adds_root (hd : t.isDirectory top = true) :
    adds t cwd root top atoms [] = matching t cwd root atoms [] ++ listing t cwd root [] := by
  rw [adds, show locationFrom top [] = top from rfl, Tree.isDirectory_iff.mp hd]

/-- a search comes upon what any entry adds -/
theorem Searched.mem_iff (ht : t.WellFormed) (hd : t.isDirectory top = true) {hits : List Hit}
    (h : Searched t cwd root top atoms hits) (hit : Hit) :
    hit ∈ hits ↔ ∃ names, hit ∈ adds t cwd root top atoms names := by
  obtain ⟨own, entries, rest, hown, hentries, hwalk, rfl⟩ := h
  have hroot : hit ∈ own ++ listing t cwd root [] ↔ hit ∈ adds t cwd root top atoms [] := by
    rw [adds_root hd, List.mem_append, List.mem_append, hown.mem_iff]
  rw [List.mem_append, hroot, hwalk.mem_iff ht]
  constructor
  · rintro (hm | ⟨n, -, ns, hm⟩)
    · exact ⟨[], hm⟩
    · exact ⟨n :: ns, hm⟩
  · rintro ⟨names, hm⟩
    cases names with
    | nil => exact .inl hm
    | cons n ns =>
      refine .inr ⟨n, hentries.mem_iff.mpr ?_, ns, hm⟩
      exact ht.mem_children (isSome_of_mem_adds hm)

theorem Searched.nodup (ht : t.WellFormed) {hits : List Hit}
    (h : Searched t cwd root top atoms hits) : (comeUpon hits).Nodup := by
  obtain ⟨own, entries, rest, hown, hentries, hwalk, rfl⟩ := h
  have hlisting : comeUpon (listing t cwd root []) = [] := comeUpon_after _
  rw [comeUpon_append, comeUpon_append, hlisting, List.append_nil]
  refine List.nodup_append.mpr ⟨?_, ?_, ?_⟩
  · exact (hown.filterMap Except.toOption).nodup_iff.mpr (nodup_matching ht _)
  · exact hwalk.nodup ht (hentries.nodup_iff.mpr (ht.nodup_children _))
  · rintro ms hms ms' hms' rfl
    obtain ⟨m, hm⟩ := exists_concat_of_mem_matching (hown.mem_iff.mp (mem_comeUpon.mp hms))
    obtain ⟨n, -, ns, hns⟩ := (hwalk.mem_iff ht _).mp (mem_comeUpon.mp hms')
    obtain ⟨m', hm'⟩ := exists_concat_of_mem_adds hns
    have hlen := congrArg List.length (hm.symm.trans hm')
    simp at hlen

/-! ## the course of the names in order -/

theorem nameLe_total (n m : Name) : (nameLe n m || nameLe m n) = true := by
  rw [Bool.or_eq_true]
  exact lexLe_total charLe_total n m

theorem pairwise_namesLe (nss : List (List Name)) :
    (nss.mergeSort namesLe).Pairwise fun ns ms => namesLe ns ms = true := by
  refine List.pairwise_mergeSort namesLe_trans (fun ns ms => ?_) nss
  rw [Bool.or_eq_true]
  exact namesLe_total ns ms

/-- in order, each entry of a directory comes before what is below it, and that before the next -/
theorem mergeSort_below (ht : t.WellFormed) (l : Location) :
    (t.below l).mergeSort namesLe = ((t.children l).mergeSort nameLe).flatMap fun n =>
      [n] :: ((t.below (n :: l)).mergeSort namesLe).map (n :: ·) := by
  have hblock : ∀ n : Name, ([n] :: ((t.below (n :: l)).mergeSort namesLe).map (n :: ·)).Pairwise
      fun ns ms => namesLe ns ms = true := by
    intro n
    rw [List.pairwise_cons, List.pairwise_map]
    constructor
    · intro ns hns
      obtain ⟨ms, -, rfl⟩ := List.mem_map.mp hns
      simp [namesLe, lexLe]
    · exact (pairwise_namesLe _).imp fun hle => by simpa [namesLe, lexLe] using hle
  have hhead : ∀ n ns, ns ∈ [n] :: ((t.below (n :: l)).mergeSort namesLe).map (n :: ·) →
      ∃ ms, ns = n :: ms := by
    intro n ns hns
    rcases List.mem_cons.mp hns with rfl | hns
    · exact ⟨[], rfl⟩
    · obtain ⟨ms, -, rfl⟩ := List.mem_map.mp hns
      exact ⟨ms, rfl⟩
  have hsorted : (((t.children l).mergeSort nameLe).flatMap fun n =>
      [n] :: ((t.below (n :: l)).mergeSort namesLe).map (n :: ·)).Pairwise
        fun ns ms => namesLe ns ms = true := by
    refine List.pairwise_flatMap.mpr ⟨fun n _ => hblock n, ?_⟩
    have hnodup : ((t.children l).mergeSort nameLe).Nodup :=
      (List.mergeSort_perm _ _).nodup_iff.mpr (ht.nodup_children l)
    have hle := List.pairwise_mergeSort nameLe_trans nameLe_total (t.children l)
    refine (hle.and hnodup).imp fun {n m} hnm ns hns ms hms => ?_
    obtain ⟨ns, rfl⟩ := hhead n ns hns
    obtain ⟨ms, rfl⟩ := hhead m ms hms
    show (if n = m then _ else nameLe n m) = true
    rw [if_neg hnm.2, hnm.1]
  have hperm : ((t.below l).mergeSort namesLe).Perm (((t.children l).mergeSort nameLe).flatMap
      fun n => [n] :: ((t.below (n :: l)).mergeSort namesLe).map (n :: ·)) := by
    refine (List.mergeSort_perm _ _).trans ((ht.below_perm l).trans ?_)
    refine (List.mergeSort_perm _ _).symm.flatMap fun n _ => ?_
    exact ((List.mergeSort_perm _ _).symm.map _).cons _
  exact hperm.eq_of_pairwise (fun ns ms _ _ => namesLe_antisymm ns ms) (pairwise_namesLe _) hsorted

theorem walk_entries {names es : List Name} {inner : Name → List Hit}
    (hes : ∀ n ∈ es, n ∈ t.children (locationFrom top names))
    (hdir : ∀ n ∈ es, t.get? (n :: locationFrom top names) = some .directory →
      ∃ entries : List Name, entries.Perm (t.children (n :: locationFrom top names)) ∧
        Walk t cwd root top atoms (names ++ [n]) entries (inner n))
    (helse : ∀ n ∈ es, t.get? (n :: locationFrom top names) ≠ some .directory → inner n = []) :
    Walk t cwd root top atoms names es
      (es.flatMap fun n => adds t cwd root top atoms (names ++ [n]) ++ inner n) := by
  induction es with
  | nil => exact .done names
  | cons n es ih =>
    have hon := ih (fun m hm => hes m (List.mem_cons_of_mem _ hm))
      (fun m hm => hdir m (List.mem_cons_of_mem _ hm))
      (fun m hm => helse m (List.mem_cons_of_mem _ hm))
    have hhere := Tree.mem_children_iff.mp (hes n List.mem_cons_self)
    obtain ⟨node, hnode⟩ := Option.isSome_iff_exists.mp hhere
    rw [List.flatMap_cons]
    cases node with
    | directory =>
      obtain ⟨entries, hperm, hinto⟩ := hdir n List.mem_cons_self hnode
      rw [adds_of_directory hnode]
      exact .directory hnode (.refl _) hperm hinto hon
    | link target =>
      rw [helse n List.mem_cons_self (by rw [hnode]; simp), adds_of_link hnode, List.append_nil]
      exact .link hnode hon
    | file bs =>
      rw [helse n List.mem_cons_self (by rw [hnode]; simp), adds_of_file hnode]
      exact .file hnode hon

/-- the names below a directory, in order, are the course of a walk -/
theorem walk_below (ht : t.WellFormed) (depth : Nat) (names : List Name)
    (hdepth : ∀ ns ∈ t.below (locationFrom top names), ns.length < depth) :
    Walk t cwd root top atoms names ((t.children (locationFrom top names)).mergeSort nameLe)
      (((t.below (locationFrom top names)).mergeSort namesLe).flatMap fun ns =>
        adds t cwd root top atoms (names ++ ns)) := by
  induction depth generalizing names with
  | zero =>
    have hnone : t.below (locationFrom top names) = [] :=
      List.eq_nil_iff_forall_not_mem.mpr fun ns hns => absurd (hdepth ns hns) (Nat.not_lt_zero _)
    have hempty : t.children (locationFrom top names) = [] := by
      refine List.eq_nil_iff_forall_not_mem.mpr fun n hn => ?_
      have hmem : [n] ∈ t.below (locationFrom top names) :=
        Tree.mem_below_iff.mpr ⟨List.cons_ne_nil n [], Tree.mem_children_iff.mp hn⟩
      rw [hnone] at hmem
      cases hmem
    rw [hnone, hempty, List.mergeSort_nil, List.mergeSort_nil]
    exact .done names
  | succ depth ih =>
    rw [mergeSort_below ht, List.flatMap_assoc]
    have hflat : ∀ n : Name, (([n] :: ((t.below (n :: locationFrom top names)).mergeSort
        namesLe).map (n :: ·)).flatMap fun ns => adds t cwd root top atoms (names ++ ns)) =
        adds t cwd root top atoms (names ++ [n]) ++
          ((t.below (n :: locationFrom top names)).mergeSort namesLe).flatMap fun ns =>
            adds t cwd root top atoms (names ++ [n] ++ ns) := by
      intro n
      rw [List.flatMap_cons, List.flatMap_map]
      simp only [List.append_assoc, List.singleton_append]
    simp only [hflat]
    refine walk_entries (fun n hn => List.mem_mergeSort.mp hn) (fun n hn hd => ?_)
      fun n hn hd => ?_
    · have hinto := ih (names ++ [n]) fun ns hns => ?_
      · rw [locationFrom_concat] at hinto
        exact ⟨_, List.mergeSort_perm _ _, hinto⟩
      · rw [locationFrom_concat] at hns
        obtain ⟨-, hs⟩ := Tree.mem_below_iff.mp hns
        have hmem : n :: ns ∈ t.below (locationFrom top names) :=
          Tree.mem_below_iff.mpr ⟨List.cons_ne_nil n ns, by rwa [locationFrom_cons]⟩
        exact Nat.lt_of_succ_lt_succ (hdepth _ hmem)
    · -- nothing lies below what is no directory
      have hnone : t.below (n :: locationFrom top names) = [] := by
        refine List.eq_nil_iff_forall_not_mem.mpr fun ns hns => hd ?_
        obtain ⟨hne, hs⟩ := Tree.mem_below_iff.mp hns
        exact Tree.isDirectory_iff.mp (ht.isDirectory_above hne hs)
      rw [hnone, List.mergeSort_nil]
      rfl

theorem flatMap_after {α : Type} (answer : Except Failure α) (go : List Name → List Hit) :
    ((after answer fun _ => []).flatMap fun hit => after hit go) = after answer fun _ => [] := by
  cases answer <;> rfl

theorem flatMap_visit (names : List Name) :
    ((visit t cwd root names.length names).flatMap fun hit => after hit (search t cwd root [.wild atoms])) =
      matching t cwd root atoms names ++ listing t cwd root names := by
  show ((Except.ok names :: listing t cwd root names).flatMap _) = _
  rw [List.flatMap_cons, listing, flatMap_after]
  rfl

theorem path_nil (root : Path) : path root [] = root := by
  unfold path
  rw [List.append_nil]

/-- the search comes upon what is there in the course of the names in order -/
theorem searched_search (ht : t.WellFormed) (htop : t.target? cwd root = .ok top) :
    Searched t cwd root top atoms (search t cwd root [.anyDepth, .wild atoms] []) := by
  obtain ⟨depth, hdepth⟩ : ∃ depth, ∀ ns ∈ t.below top, ns.length < depth := by
    refine ⟨(t.below top).flatten.length + 1, fun ns hns => Nat.lt_succ_of_le ?_⟩
    exact (List.sublist_flatten_of_mem hns).length_le
  have hwalk : Walk t cwd root top atoms [] ((t.children top).mergeSort nameLe)
      (((t.below top).mergeSort namesLe).flatMap fun ns => adds t cwd root top atoms ns) :=
    walk_below ht depth [] hdepth
  refine ⟨_, _, _, .refl _, List.mergeSort_perm _ _, hwalk, ?_⟩
  show ((directories t cwd root []).flatMap _) = _
  rw [directories, path_nil, htop]
  show ((visit t cwd root ([] : List Name).length [] ++ List.flatMap _ _).flatMap _) = _
  rw [List.flatMap_append, flatMap_visit, List.flatMap_assoc]
  congr 1
  apply List.flatMap_congr
  intro ns _
  show (List.flatMap _ (match t.get? (locationFrom top ns) with
    | some .directory => visit t cwd root ns.length ns
    | some (.link _) => looking t cwd root ns.dropLast (ns.getLast?.getD [])
    | _ => [])) = adds t cwd root top atoms ns
  unfold adds
  split
  · exact flatMap_visit ns
  · exact flatMap_after _ _
  · rfl

end

end Rebind.Discovery
