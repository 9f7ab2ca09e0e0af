import Rebind.Proofs.Sources

/-!
# Discovery is exact

`Finds` has all that discovery can give, whatever the order in which the entries of directories are
listed; `Discovery.find` lists them by name and is one case of it (`finds_find`).  In each order

* `Opens.exists_failing`      an entry that is too long or too deep to be looked at makes discovery
                              fail (`Opens.exists_error`);
* `Opens.obstacle_of_failing` nothing else does;
* `Opens.mem_kept_iff`        what is kept otherwise are the sources.

So discovery is a question about the tree alone (`Opens.outcome`): the paths of the sources in the
order of `Precedes`, or the failure.
-/

namespace Rebind.Discovery

/-! ## keeping what was come upon -/

section
variable {keep : List Name → Except Failure Bool} {hits : List Hit}

/-- the hit is a path about which the question `keep` has an answer -/
def Judged (keep : List Name → Except Failure Bool) (hit : Hit) : Prop :=
  ∃ names b, hit = .ok names ∧ keep names = .ok b

/-- the answer to the question `keep`, no when it fails -/
def yes (keep : List Name → Except Failure Bool) (names : List Name) : Bool :=
  match keep names with
  | .ok b => b
  | .error _ => false

theorem yes_of_ok {names : List Name} {b : Bool} (h : keep names = .ok b) : yes keep names = b := by
  rw [yes, h]

theorem keepHits_eq_ok_iff {found : List (List Name)} :
    keepHits keep hits = .ok found ↔
      (∀ hit ∈ hits, Judged keep hit) ∧ found = (comeUpon hits).filter (yes keep) := by
  induction hits generalizing found with
  | nil =>
    constructor
    · intro h
      cases h
      exact ⟨fun hit hm => absurd hm List.not_mem_nil, rfl⟩
    · rintro ⟨-, rfl⟩
      rfl
  | cons hit hits ih =>
    have hcons : ∀ names b, keep names = .ok b →
        (comeUpon (.ok names :: hits)).filter (yes keep) =
          if b then names :: (comeUpon hits).filter (yes keep)
          else (comeUpon hits).filter (yes keep) := by
      intro names b hb
      show (names :: comeUpon hits).filter (yes keep) = _
      rw [List.filter_cons, yes_of_ok hb]
    rw [keepHits, List.forall_mem_cons]
    constructor
    · intro h
      obtain ⟨names, hnames, h⟩ := bind_eq_ok_iff.mp h
      obtain ⟨b, hb, h⟩ := bind_eq_ok_iff.mp h
      obtain ⟨rest, hrest, h⟩ := bind_eq_ok_iff.mp h
      obtain ⟨hall, rfl⟩ := ih.mp hrest
      rw [hnames, hcons names b hb]
      exact ⟨⟨⟨names, b, rfl, hb⟩, hall⟩, (Except.ok.inj h).symm⟩
    · rintro ⟨⟨⟨names, b, rfl, hb⟩, hall⟩, rfl⟩
      rw [hcons names b hb]
      refine bind_eq_ok_iff.mpr ⟨names, rfl, bind_eq_ok_iff.mpr ⟨b, hb, ?_⟩⟩
      exact bind_eq_ok_iff.mpr ⟨_, ih.mpr ⟨hall, rfl⟩, rfl⟩

/-- a failure is that of a hit or that of an answer -/
theorem keepHits_eq_error {f : Failure} (h : keepHits keep hits = .error f) :
    .error f ∈ hits ∨ ∃ names, .ok names ∈ hits ∧ keep names = .error f := by
  induction hits with
  | nil => cases h
  | cons hit hits ih =>
    cases hit with
    | error g =>
      cases h
      exact .inl List.mem_cons_self
    | ok names =>
      cases hk : keep names with
      | error g =>
        have h : (keep names >>= fun _ => _) = .error f := h
        rw [hk] at h
        cases h
        exact .inr ⟨names, List.mem_cons_self, hk⟩
      | ok b =>
        have h : (keep names >>= fun b => keepHits keep hits >>= fun rest =>
          .ok (if b then names :: rest else rest)) = .error f := h
        rw [hk] at h
        cases hr : keepHits keep hits with
        | ok rest =>
          rw [hr] at h
          cases h
        | error g =>
          rw [hr] at h
          cases h
          rcases ih hr with hm | ⟨ns, hm, hns⟩
          · exact .inl (List.mem_cons_of_mem _ hm)
          · exact .inr ⟨ns, List.mem_cons_of_mem _ hm, hns⟩

end

/-! ## what is found -/

section
variable (t : Tree) (cwd : Location) (root : Path) (extension : List Char)

/-- what discovery can give, in whatever order the entries of a directory are listed -/
def Finds (result : Except Failure (List Path)) : Prop :=
  ∃ atoms top hits, parts? ('*' :: extension) = .ok [.wild atoms] ∧ t.target? cwd root = .ok top ∧
    Searched t cwd root top atoms hits ∧
    result = (keepHits (keepsSource t cwd root extension) hits).map fun found =>
      (found.mergeSort namesLe).map (path root)

end

section
variable {t : Tree} {cwd : Location} {root : Path} {extension : List Char}

theorem find_eq {parts : List Part} (hroot : t.leadsToDirectory cwd root = .ok true)
    (hparts : parts? ('*' :: extension) = .ok parts) :
    find t cwd root (.value extension) =
      (keepHits (keepsSource t cwd root extension)
        (search t cwd root (.anyDepth :: parts) [])).map fun found =>
          (found.mergeSort namesLe).map (path root) := by
  unfold find findNames
  simp only [accepts_path]
  rw [show Extension.text (.value extension) = extension from rfl, hparts]
  show ((t.leadsToDirectory cwd root >>= fun _ => _) >>= fun _ => _) = _
  rw [hroot]
  show ((keepHits (keepsSource t cwd root extension) _ >>= fun _ => _) >>= fun _ => _) = _
  cases keepHits (keepsSource t cwd root extension) _ <;> rfl

/-- the search that lists entries in order is one of them -/
theorem finds_find (ht : t.WellFormed) (hroot : t.leadsToDirectory cwd root = .ok true)
    (hext : ∀ c ∈ extension, c ≠ '/' ∧ c ≠ '*' ∧ c ≠ '[') :
    Finds t cwd root extension (find t cwd root (.value extension)) := by
  obtain ⟨top, h⟩ := exists_opens ht hroot
  have hparts := parts?_star fun c hc => ⟨(hext c hc).1, (hext c hc).2.1⟩
  exact ⟨_, top, _, hparts, h.target, searched_search ht h.target, find_eq hroot hparts⟩

end

namespace Opens
variable {t : Tree} {cwd top : Location} {root : Path} (h : Opens t cwd root top)
  {extension : List Char} {atoms : List Glob.Atom} {hits : List Hit}
  (hhits : Searched t cwd root top atoms hits)
include h hhits

theorem ok_mem_hits_iff {names : List Name} {n : Name} :
    .ok (names ++ [n]) ∈ hits ↔ (t.get? (n :: locationFrom top names)).isSome ∧
      isLongText (path root names).text = false ∧ Glob.fits atoms n = true := by
  rw [hhits.mem_iff h.wellFormed h.isDirectory]
  constructor
  · rintro ⟨dirs, hm⟩
    obtain ⟨-, hshort, m, hchild, hfits, he⟩ := h.ok_mem_adds_iff.mp hm
    obtain ⟨rfl, he⟩ := List.append_inj' he rfl
    obtain rfl : n = m := by simpa using he
    exact ⟨Tree.mem_children_iff.mp hchild, hshort, hfits⟩
  · rintro ⟨hs, hshort, hfits⟩
    have hd := Tree.isDirectory_iff.mp (h.wellFormed.isDirectory hs)
    exact ⟨names, h.ok_mem_adds_iff.mpr ⟨hd, hshort, n, Tree.mem_children_iff.mpr hs, hfits, rfl⟩⟩

/-- only what lies below the root is come upon -/
theorem exists_of_ok_mem_hits {ns : List Name} (hm : .ok ns ∈ hits) :
    ∃ names n, ns = names ++ [n] ∧ (t.get? (n :: locationFrom top names)).isSome := by
  obtain ⟨names, hm'⟩ := (hhits.mem_iff h.wellFormed h.isDirectory _).mp hm
  obtain ⟨n, rfl⟩ := exists_concat_of_mem_adds hm'
  exact ⟨names, n, rfl, ((h.ok_mem_hits_iff hhits).mp hm).1⟩

theorem isLongText_of_error_not_mem {names : List Name}
    (hd : t.get? (locationFrom top names) = some .directory)
    (hnone : ∀ f, .error f ∉ hits) : isLongText (path root names).text = false := by
  refine Bool.eq_false_iff.mpr fun hlong => ?_
  obtain ⟨f, hf⟩ := h.exists_error_of_directory hd hlong
  exact hnone f ((hhits.mem_iff h.wellFormed h.isDirectory _).mpr ⟨names, hf⟩)

/-- an entry that fails to be looked at is come upon as a failure -/
theorem exists_error {names : List Name} (hadds : ∃ f, .error f ∈ adds t cwd root top atoms names) :
    ∃ hit ∈ hits, ¬ Judged (keepsSource t cwd root extension) hit := by
  obtain ⟨f, hf⟩ := hadds
  refine ⟨_, (hhits.mem_iff h.wellFormed h.isDirectory _).mpr ⟨names, hf⟩, ?_⟩
  rintro ⟨ns, b, he, -⟩
  cases he

/-- an entry that is too long or too deep to be looked at is come upon in some way -/
theorem exists_failing (hfits : ∀ n, extension <:+ n → Glob.fits atoms n = true)
    {names : List Name}
    (hstop : TooLong t cwd root top extension names ∨ TooDeep t top names) :
    ∃ hit ∈ hits, ¬ Judged (keepsSource t cwd root extension) hit := by
  rcases hstop with hlong | hdeep
  swap
  · exact h.exists_error hhits (h.exists_error_of_deep hdeep)
  cases hlong with
  | directory hd hlong => exact h.exists_error hhits (h.exists_error_of_directory hd hlong)
  | link hl hlong => exact h.exists_error hhits (h.exists_error_of_link hl hlong)
  | @candidate names n hs hw he hlong =>
    by_cases hnone : ∀ f, .error f ∉ hits
    · have hd := Tree.isDirectory_iff.mp (h.wellFormed.isDirectory hs)
      have hshort := h.isLongText_of_error_not_mem hhits hd hnone
      refine ⟨_, (h.ok_mem_hits_iff hhits).mpr ⟨hs, hshort, hfits n he⟩, ?_⟩
      rintro ⟨ns, b, hns, hb⟩
      cases hns
      rcases h.keepsSource_cases extension hs with ⟨-, text, hf⟩ | ⟨hshort, -⟩
      · rw [hf] at hb
        cases hb
      · rw [hshort ⟨hw, he⟩] at hlong
        cases hlong
    · obtain ⟨f, hf⟩ := not_forall.mp hnone
      obtain ⟨names, hf⟩ := (hhits.mem_iff h.wellFormed h.isDirectory _).mp (not_not.mp hf)
      exact h.exists_error hhits ⟨f, hf⟩

/-- a failure is that of an entry that is too long or too deep to be looked at -/
theorem obstacle_of_failing {f : Failure}
    (hf : keepHits (keepsSource t cwd root extension) hits = .error f) :
    Obstacle t cwd root top extension f := by
  rcases keepHits_eq_error hf with hm | ⟨ns, hm, hns⟩
  · obtain ⟨names, hm⟩ := (hhits.mem_iff h.wellFormed h.isDirectory _).mp hm
    exact h.obstacle_of_error extension hm
  · obtain ⟨names, n, rfl, hs⟩ := h.exists_of_ok_mem_hits hhits hm
    rcases h.keepsSource_cases extension hs with ⟨hlong, text, he⟩ | ⟨-, b, he, -⟩
    · rw [he] at hns
      exact .inl ⟨⟨text, (Except.error.inj hns).symm⟩, _, hlong⟩
    · rw [he] at hns
      cases hns

/-- when nothing fails, what is kept are the sources that the pattern fits -/
theorem mem_kept_iff_fits
    (hall : ∀ hit ∈ hits, Judged (keepsSource t cwd root extension) hit) {ns : List Name} :
    ns ∈ (comeUpon hits).filter (yes (keepsSource t cwd root extension)) ↔
      IsSource t cwd root top extension ns ∧
        ∃ n, ns.getLast? = some n ∧ Glob.fits atoms n = true := by
  have hyes : ∀ {names : List Name} {n : Name}, (t.get? (n :: locationFrom top names)).isSome →
      .ok (names ++ [n]) ∈ hits → (yes (keepsSource t cwd root extension) (names ++ [n]) = true ↔
        IsSource t cwd root top extension (names ++ [n])) := by
    intro names n hs hm
    obtain ⟨_, b, he, hb⟩ := hall _ hm
    cases he
    rw [yes_of_ok hb]
    rcases h.keepsSource_cases extension hs with ⟨-, text, hf⟩ | ⟨-, b', hb', hiff⟩
    · rw [hf] at hb
      cases hb
    · rw [hb'] at hb
      cases hb
      exact hiff
  rw [List.mem_filter, mem_comeUpon]
  constructor
  · rintro ⟨hm, hy⟩
    obtain ⟨names, n, rfl, hs⟩ := h.exists_of_ok_mem_hits hhits hm
    exact ⟨(hyes hs hm).mp hy, n, List.getLast?_concat, ((h.ok_mem_hits_iff hhits).mp hm).2.2⟩
  · rintro ⟨hsource, n, hn, hfits⟩
    obtain ⟨names, rfl⟩ := List.getLast?_eq_some_iff.mp hn
    have hs : (t.get? (n :: locationFrom top names)).isSome := by
      rw [← locationFrom_concat]
      rcases hsource.file with ⟨bs, hf⟩ | ⟨target, l, hl, -⟩
      · exact Option.isSome_of_eq_some hf
      · exact Option.isSome_of_eq_some hl
    have hd := Tree.isDirectory_iff.mp (h.wellFormed.isDirectory hs)
    have hshort : isLongText (path root names).text = false := by
      refine h.isLongText_of_error_not_mem hhits hd fun f hf => ?_
      obtain ⟨_, _, he, -⟩ := hall _ hf
      cases he
    have hm := (h.ok_mem_hits_iff hhits).mpr ⟨hs, hshort, hfits⟩
    exact ⟨hm, (hyes hs hm).mpr hsource⟩

/-- what is kept are the sources, if the pattern fits all that end in the extension -/
theorem mem_kept_iff (hfits : ∀ n, extension <:+ n → Glob.fits atoms n = true)
    (hall : ∀ hit ∈ hits, Judged (keepsSource t cwd root extension) hit) {ns : List Name} :
    ns ∈ (comeUpon hits).filter (yes (keepsSource t cwd root extension)) ↔
      IsSource t cwd root top extension ns := by
  rw [h.mem_kept_iff_fits hhits hall]
  refine and_iff_left_of_imp fun hsource => ?_
  obtain ⟨n, hn, hends⟩ := hsource.ends
  exact ⟨n, hn, hfits n hends⟩

omit hhits in
/-- discovery fails when something is too long or too deep to be looked at, and else gives the
sources -/
theorem outcome {result : Except Failure (List Path)}
    (hext : ∀ c ∈ extension, c ≠ '/' ∧ c ≠ '*' ∧ c ≠ '[')
    (hresult : Finds t cwd root extension result) :
    ((∃ names, TooLong t cwd root top extension names ∨ TooDeep t top names) →
      ∃ f, result = .error f ∧ Obstacle t cwd root top extension f) ∧
    ((¬ ∃ names, TooLong t cwd root top extension names ∨ TooDeep t top names) →
      ∃ found : List (List Name), found.Nodup ∧
        (∀ ns, ns ∈ found ↔ IsSource t cwd root top extension ns) ∧
        result = .ok ((found.mergeSort namesLe).map (path root))) := by
  obtain ⟨atoms, top', hits, hparts, htop', hhits, rfl⟩ := hresult
  obtain rfl : top = top' := Except.ok.inj (h.target.symm.trans htop')
  obtain rfl : atoms = Glob.ofText ('*' :: extension) := by
    rw [parts?_star fun c hc => ⟨(hext c hc).1, (hext c hc).2.1⟩] at hparts
    simpa using hparts.symm
  have hfits : ∀ n, extension <:+ n → Glob.fits (Glob.ofText ('*' :: extension)) n = true :=
    fun n hn => Glob.fits_star (Glob.not_closes fun hm => (hext _ hm).2.2 rfl) hn
  cases hk : keepHits (keepsSource t cwd root extension) hits with
  | error f =>
    have hf := h.obstacle_of_failing hhits hk
    refine ⟨fun _ => ⟨f, rfl, hf⟩, fun hnone => ?_⟩
    rcases hf with ⟨-, names, hlong⟩ | ⟨-, names, hdeep⟩
    · exact absurd ⟨names, .inl hlong⟩ hnone
    · exact absurd ⟨names, .inr hdeep⟩ hnone
  | ok found =>
    obtain ⟨hall, rfl⟩ := keepHits_eq_ok_iff.mp hk
    constructor
    · rintro ⟨names, hstop⟩
      obtain ⟨hit, hm, hnot⟩ := h.exists_failing hhits hfits hstop
      exact absurd (hall hit hm) hnot
    · intro _
      exact ⟨_, (hhits.nodup h.wellFormed).filter _, fun ns => h.mem_kept_iff hhits hfits hall, rfl⟩

end Opens

/-! ## the order of what is found -/

theorem namesLe_append (as bs cs : List Name) : namesLe (as ++ bs) (as ++ cs) = namesLe bs cs := by
  induction as with
  | nil => rfl
  | cons a as ih =>
    show (if a = a then namesLe (as ++ bs) (as ++ cs) else _) = _
    rw [if_pos rfl, ih]

/-- the first path comes before the second, name by name -/
def Precedes (p q : Path) : Prop := namesLe p.names q.names = true ∧ p ≠ q

theorem pairwise_precedes {found : List (List Name)} (h : found.Nodup) (root : Path) :
    ((found.mergeSort namesLe).map (path root)).Pairwise Precedes := by
  have hnodup : (found.mergeSort namesLe).Nodup := (List.mergeSort_perm _ _).nodup_iff.mpr h
  rw [List.pairwise_map]
  refine ((pairwise_namesLe found).and hnodup).imp fun {ns ms} hnm => ⟨?_, fun he => ?_⟩
  · exact (namesLe_append root.names ns ms).trans hnm.1
  · exact hnm.2 (List.append_cancel_left (congrArg Path.names he))

/-- what is found depends on its members alone -/
theorem mergeSort_congr {found found' : List (List Name)} (h : found.Nodup) (h' : found'.Nodup)
    (hmem : ∀ ns, ns ∈ found ↔ ns ∈ found') :
    found.mergeSort namesLe = found'.mergeSort namesLe := by
  have hperm : found.Perm found' := (List.perm_ext_iff_of_nodup h h').mpr hmem
  have hsorted : (found.mergeSort namesLe).Perm (found'.mergeSort namesLe) :=
    (List.mergeSort_perm _ _).trans (hperm.trans (List.mergeSort_perm _ _).symm)
  exact hsorted.eq_of_pairwise (fun ns ms _ _ => namesLe_antisymm ns ms) (pairwise_namesLe _)
    (pairwise_namesLe _)

/-! ## discovery -/

/-- discovery gives the sources in order, each once, or fails where something is too long or too
deep to be looked at; the order of listing makes no difference -/
theorem finds_exactly_sources {t : Tree} {cwd : Location} {root : Path} {extension : List Char}
    (ht : t.WellFormed) (hroot : t.leadsToDirectory cwd root = .ok true)
    (hext : ∀ c ∈ extension, c ≠ '/' ∧ c ≠ '*' ∧ c ≠ '[') :
    ∃ top, t.target? cwd root = .ok top ∧ t.isDirectory top = true ∧
      Finds t cwd root extension (find t cwd root (.value extension)) ∧
      ∀ result, Finds t cwd root extension result →
        ((∃ names, TooLong t cwd root top extension names ∨ TooDeep t top names) →
          ∃ f, result = .error f ∧ Obstacle t cwd root top extension f) ∧
        ((¬ ∃ names, TooLong t cwd root top extension names ∨ TooDeep t top names) →
          ∃ paths, result = .ok paths ∧ find t cwd root (.value extension) = .ok paths ∧
            (∀ p, p ∈ paths ↔
              ∃ names, IsSource t cwd root top extension names ∧ p = path root names) ∧
            paths.Pairwise Precedes) := by
  obtain ⟨top, h⟩ := exists_opens ht hroot
  have hfind : Finds t cwd root extension (find t cwd root (.value extension)) :=
    finds_find ht hroot hext
  refine ⟨top, h.target, h.isDirectory, hfind, fun result hresult => ?_⟩
  obtain ⟨hfails, hok⟩ := h.outcome hext hresult
  refine ⟨hfails, fun hnone => ?_⟩
  obtain ⟨found, hnodup, hmem, hres⟩ := hok hnone
  obtain ⟨found', hnodup', hmem', hres'⟩ := (h.outcome hext hfind).2 hnone
  refine ⟨_, hres, ?_, fun p => ?_, pairwise_precedes hnodup root⟩
  · rw [hres', mergeSort_congr hnodup hnodup' fun ns => (hmem ns).trans (hmem' ns).symm]
  · rw [List.mem_map]
    simp only [List.mem_mergeSort, hmem, eq_comm]

/-- a directory with a file, a link to a file, a file in a directory, and what is to be left out -/
def mixedTree : Tree :=
  ⟨[(["c".toList], .link "r".toList), (["r".toList], .directory),
    (["b.ts".toList, "r".toList], .link "a/x.ts".toList),
    (["a.ts".toList, "r".toList], .file []), (["a".toList, "r".toList], .directory),
    (["x.ts".toList, "a".toList, "r".toList], .file []),
    (["d".toList, "r".toList], .link "a".toList),
    (["e.ts".toList, "r".toList], .link "e.ts".toList),
    (["_generated".toList, "r".toList], .directory),
    (["y.ts".toList, "_generated".toList, "r".toList], .file [])]⟩

/-- a link to that directory -/
def mixedRoot : Path := .ofRoot ["c".toList]

/-- the paths to be found; a directory comes before a file whose name goes on after a dot -/
def mixedPaths : List Path :=
  [.ofRoot ["c".toList, "a".toList, "x.ts".toList], .ofRoot ["c".toList, "a.ts".toList],
    .ofRoot ["c".toList, "b.ts".toList]]

theorem parts?_ts : parts? ('*' :: ".ts".toList) =
    .ok [.wild [.star, .literal '.', .literal 't', .literal 's']] := by
  cbv

theorem find_mixedTree (hroot : mixedTree.leadsToDirectory [] mixedRoot = .ok true) :
    find mixedTree [] mixedRoot (.value ".ts".toList) = .ok mixedPaths := by
  have hsearch : search mixedTree [] mixedRoot
      [.anyDepth, .wild [.star, .literal '.', .literal 't', .literal 's']] [] =
        [.ok ["a.ts".toList], .ok ["b.ts".toList], .ok ["e.ts".toList],
          .ok ["_generated".toList, "y.ts".toList], .ok ["a".toList, "x.ts".toList]] := by
    cbv
  have hkept : keepHits (keepsSource mixedTree [] mixedRoot ".ts".toList)
      [.ok ["a.ts".toList], .ok ["b.ts".toList], .ok ["e.ts".toList],
        .ok ["_generated".toList, "y.ts".toList], .ok ["a".toList, "x.ts".toList]] =
        .ok [["a.ts".toList], ["b.ts".toList], ["a".toList, "x.ts".toList]] := by
    decide +kernel
  rw [find_eq hroot parts?_ts, hsearch, hkept]
  cbv

theorem finds_exactly_mixedPaths :
    mixedTree.WellFormed ∧ mixedTree.leadsToDirectory [] mixedRoot = .ok true ∧
      ∀ result, Finds mixedTree [] mixedRoot ".ts".toList result ↔ result = .ok mixedPaths := by
  have ht : mixedTree.WellFormed := by decide +kernel
  have hroot : mixedTree.leadsToDirectory [] mixedRoot = .ok true := by decide +kernel
  have hfind := find_mixedTree hroot
  have hext : ∀ c ∈ ".ts".toList, c ≠ '/' ∧ c ≠ '*' ∧ c ≠ '[' := by simp
  obtain ⟨top, -, -, hself, h⟩ := finds_exactly_sources ht hroot hext
  have hnone : ¬ ∃ names, TooLong mixedTree [] mixedRoot top ".ts".toList names ∨
      TooDeep mixedTree top names := by
    intro hstop
    obtain ⟨f, herror, -⟩ := (h _ hself).1 hstop
    rw [hfind] at herror
    cases herror
  refine ⟨ht, hroot, fun result => ⟨fun hresult => ?_, fun hresult => ?_⟩⟩
  · obtain ⟨paths, hres, hpaths, -⟩ := (h result hresult).2 hnone
    rw [hres, ← hpaths, hfind]
  · rwa [hresult, ← hfind]

/-! ## a link to a name that is too long -/

/-- a file beside such a link -/
def longLinkTree : Tree :=
  ⟨[(["convex".toList], .directory), (["a.ts".toList, "convex".toList], .file []),
    (["z.ts".toList, "convex".toList], .link (List.replicate 300 'a'))]⟩

def longLinkRoot : Path := ⟨.here, ["convex".toList]⟩

theorem find_longLink :
    longLinkTree.WellFormed ∧ longLinkTree.leadsToDirectory [] longLinkRoot = .ok true ∧
      longLinkTree.target? [] longLinkRoot = .ok ["convex".toList] ∧
      IsSource longLinkTree [] longLinkRoot ["convex".toList] ".ts".toList ["a.ts".toList] ∧
      ∃ text, find longLinkTree [] longLinkRoot (.value ".ts".toList) =
        .error (.refused .nameTooLong text) := by
  have ht : longLinkTree.WellFormed := by decide +kernel
  have hroot : longLinkTree.leadsToDirectory [] longLinkRoot = .ok true := by decide +kernel
  have htarget : longLinkTree.target? [] longLinkRoot = .ok ["convex".toList] := by decide +kernel
  obtain ⟨top, h⟩ := exists_opens ht hroot
  obtain rfl : top = ["convex".toList] := Except.ok.inj (h.target.symm.trans htarget)
  have hext : ∀ c ∈ ".ts".toList, c ≠ '/' ∧ c ≠ '*' ∧ c ≠ '[' := by simp
  have hfile : longLinkTree.get? ("a.ts".toList :: locationFrom ["convex".toList] []) =
      some (.file []) := by
    decide +kernel
  have hsource : IsSource longLinkTree [] longLinkRoot ["convex".toList] ".ts".toList
      ([] ++ ["a.ts".toList]) := by
    have hends : ".ts".toList <:+ "a.ts".toList := by decide
    exact (h.isSource_concat (Option.isSome_of_eq_some hfile)
      (fun n hn => absurd hn List.not_mem_nil) hends).mpr (.inl ⟨[], hfile⟩)
  have hlink : longLinkTree.get? ("z.ts".toList :: locationFrom ["convex".toList] []) =
      some (.link (List.replicate 300 'a')) := by
    decide +kernel
  have hlong : longLinkTree.target? [] (path longLinkRoot ([] ++ ["z.ts".toList])) =
      .error .nameTooLong := by
    decide +kernel
  obtain ⟨hfails, -⟩ := h.outcome hext (finds_find ht hroot hext)
  have hdepth : ∀ l ∈ longLinkTree.locations, l.length ≤ walkLimit := by decide
  obtain ⟨f, hf, ⟨⟨text, rfl⟩, -⟩ | ⟨-, names, hdeep⟩⟩ :=
    hfails ⟨_, .inl (.link hlink (.inr hlong))⟩
  · exact ⟨ht, hroot, htarget, hsource, text, hf⟩
  · exact absurd hdeep (not_tooDeep hdepth _ names)

end Rebind.Discovery
