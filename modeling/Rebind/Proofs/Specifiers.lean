import Rebind.Proofs.Found
import Rebind.Proofs.Ways

/-!
# The way from a found file to the generated module

A file that discovery finds lies some directories below the root, none of them the directory of
the generated module.  So the way to that module goes up once for each of these directories and
then down into the root (`apiSpecifier`), whatever their names are.

That no name on the way down is a `..` holds for names of entries.  A pattern with slashes brings
in names of its own (`search_names`), but then its last part ends in no name.
-/

namespace Rebind

/-- what stands between slashes is made of other characters of the text -/
theorem of_mem_splitSlash {s : List Char} {n : Name} {c : Char} (hn : n ∈ splitSlash s)
    (hc : c ∈ n) : c ∈ s ∧ c ≠ '/' := by
  induction s generalizing n with
  | nil =>
    obtain rfl := List.mem_singleton.mp hn
    cases hc
  | cons d s ih =>
    have hrest : ∀ {m : Name}, m ∈ splitSlash s → c ∈ m → c ∈ d :: s ∧ c ≠ '/' := fun hm hcm =>
      ⟨List.mem_cons_of_mem d (ih hm hcm).1, (ih hm hcm).2⟩
    rw [splitSlash] at hn
    split at hn
    · rcases List.mem_cons.mp hn with rfl | hn
      · cases hc
      · exact hrest hn hc
    · next hd =>
      split at hn
      · obtain rfl := List.mem_singleton.mp hn
        obtain rfl := List.mem_singleton.mp hc
        exact ⟨List.mem_cons_self, hd⟩
      · next m ms hms =>
        rcases List.mem_cons.mp hn with rfl | hn
        · rcases List.mem_cons.mp hc with rfl | hc
          · exact ⟨List.mem_cons_self, hd⟩
          · exact hrest (hms ▸ List.mem_cons_self) hc
        · exact hrest (hms ▸ List.mem_cons_of_mem m hn) hc

theorem slash_not_mem_of_mem_splitSlash {s : List Char} {n : Name} (h : n ∈ splitSlash s) :
    '/' ∉ n := fun hc => (of_mem_splitSlash h hc).2 rfl

namespace Discovery

/-! ## names that a search comes upon -/

theorem mem_namesOf_of_named {pattern : List Char} {parts : List Part}
    (h : parts? pattern = .ok parts) {n : Name} (hn : .named n ∈ parts) : n ∈ namesOf pattern := by
  have hparts : parts = (namesOf pattern).map Part.ofText ++
      if pattern.getLast? = some '/' then [.slash] else [] := by
    have h : (if (namesOf pattern).any hasStars then _ else _) = Except.ok parts := h
    split at h
    · cases h
    · exact (Except.ok.inj h).symm
  rw [hparts, List.mem_append] at hn
  rcases hn with hn | hn
  · obtain ⟨m, hm, he⟩ := List.mem_map.mp hn
    unfold Part.ofText at he
    split at he
    · cases he
    · split at he
      · cases he
      · cases he
        exact hm
  · split at hn
    · simp at hn
    · cases hn

theorem ok_mem_after_iff {α : Type} {answer : Except Failure α} {hits : α → List Hit}
    {names : List Name} :
    .ok names ∈ after answer hits ↔ ∃ a, answer = .ok a ∧ .ok names ∈ hits a := by
  cases answer <;> simp [after]

section
variable {t : Tree} {cwd : Location} {root : Path} {P : Name → Prop}

theorem eq_of_mem_visit {depth : Nat} {names ms : List Name}
    (h : .ok ms ∈ visit t cwd root depth names) : ms = names := by
  rcases List.mem_cons.mp h with he | h
  · exact Except.ok.inj he
  · exact absurd h ok_not_mem_after

theorem directories_names (ht : t.WellFormed) (hP : ∀ n, IsName n → P n) {names ms : List Name}
    (hnames : ∀ n ∈ names, P n) (h : .ok ms ∈ directories t cwd root names) : ∀ n ∈ ms, P n := by
  unfold directories at h
  split at h
  · cases h
  · next l _ =>
    rcases List.mem_append.mp h with h | h
    · rwa [eq_of_mem_visit h]
    · obtain ⟨ns, hns, h⟩ := List.mem_flatMap.mp h
      obtain ⟨-, hs⟩ := Tree.mem_below_iff.mp (List.mem_mergeSort.mp hns)
      split at h
      · rw [eq_of_mem_visit h]
        intro n hn
        rcases List.mem_append.mp hn with hn | hn
        · exact hnames n hn
        · refine hP n (ht.isName hs n ?_)
          exact List.mem_append_left _ (List.mem_reverse.mpr hn)
      · exact absurd h ok_not_mem_after
      · cases h

/-- what holds of the names of entries and of the names in a pattern holds of all names that are
come upon -/
theorem search_names (ht : t.WellFormed) (hP : ∀ n, IsName n → P n) {parts : List Part}
    (hparts : ∀ n, .named n ∈ parts → P n) {names ms : List Name} (hnames : ∀ n ∈ names, P n)
    (h : .ok ms ∈ search t cwd root parts names) : ∀ n ∈ ms, P n := by
  have hconcat : ∀ {names : List Name} {n : Name}, (∀ m ∈ names, P m) → P n →
      ∀ m ∈ names ++ [n], P m := by
    intro names n hnames hn m hm
    rcases List.mem_append.mp hm with hm | hm
    · exact hnames m hm
    · rwa [List.mem_singleton.mp hm]
  induction parts generalizing names with
  | nil =>
    cases List.mem_singleton.mp h
    exact hnames
  | cons part parts ih =>
    have hrest : ∀ n, .named n ∈ parts → P n := fun n hn => hparts n (List.mem_cons_of_mem _ hn)
    cases part with
    | slash =>
      cases List.mem_singleton.mp h
      exact hnames
    | anyDepth =>
      obtain ⟨hit, hhit, h⟩ := List.mem_flatMap.mp h
      obtain ⟨ns, rfl, h⟩ := ok_mem_after_iff.mp h
      exact ih hrest (directories_names ht hP hnames hhit) h
    | wild atoms =>
      obtain ⟨entries, hlist, h⟩ := ok_mem_after_iff.mp h
      obtain ⟨n, hn, h⟩ := List.mem_flatMap.mp h
      obtain ⟨wanted, -, h⟩ := ok_mem_after_iff.mp h
      obtain ⟨l, -, hentries⟩ := list_eq_ok hlist
      rw [hentries, List.mem_mergeSort] at hn
      have hs := Tree.mem_children_iff.mp hn
      have hPn : P n := hP n (ht.isName hs n List.mem_cons_self)
      split at h
      · exact ih hrest (hconcat hnames hPn) h
      · cases h
    | named n =>
      obtain ⟨wanted, -, h⟩ := ok_mem_after_iff.mp h
      split at h
      · exact ih hrest (hconcat hnames (hparts n List.mem_cons_self)) h
      · cases h

/-! ## names of what is found -/

theorem eligible_eq_true {extension : Extension} {p : Path} {names : List Name}
    (h : eligible t cwd extension p names = .ok true) :
    (∀ n ∈ names.dropLast, n ∉ excludedNames) ∧
      (∃ s, extension = .value s ∧ s <:+ p.lastName) ∧ t.leadsToFile cwd p = .ok true := by
  have hfile := leadsToFile_of_eligible h
  rw [eligible] at h
  split at h
  · cases h
  next hany =>
  obtain ⟨ends, hends, h⟩ := bind_eq_ok_iff.mp h
  refine ⟨by simpa using hany, ?_, hfile⟩
  cases extension with
  | nothing => cases hends
  | value s =>
    cases hends
    split at h
    · next hs => exact ⟨s, rfl, List.isSuffixOf_iff_suffix.mp hs⟩
    · cases h

theorem of_mem_findNames {extension : Extension} {found : List (List Name)}
    (h : findNames t cwd root extension = .ok found) {names : List Name} (hn : names ∈ found) :
    t.leadsToDirectory cwd root = .ok true ∧
      eligible t cwd extension (path root names) names = .ok true ∧
      ∃ parts, parts? ('*' :: extension.text) = .ok parts ∧
        .ok names ∈ search t cwd root (.anyDepth :: parts) [] := by
  rw [findNames] at h
  obtain ⟨parts, hparts, h⟩ := bind_eq_ok_iff.mp h
  obtain ⟨isDir, hdir, h⟩ := bind_eq_ok_iff.mp h
  split at h
  · next hd =>
    obtain ⟨kept, hk, h⟩ := bind_eq_ok_iff.mp h
    cases h
    rw [List.mem_mergeSort] at hn
    have hkeep := keep_of_mem_keepHits hk hn
    rw [accepts_path] at hkeep
    obtain ⟨-, rfl⟩ := keepHits_eq_ok_iff.mp hk
    exact ⟨hd ▸ hdir, hkeep, parts, hparts, mem_comeUpon.mp (List.mem_of_mem_filter hn)⟩
  · cases h
    cases hn

def IsDirectoryPath (t : Tree) (cwd : Location) (p : Path) : Prop :=
  ∃ l, t.target? cwd p = .ok l ∧ t.isDirectory l = true

theorem isDirectoryPath_of_leadsToDirectory {p : Path}
    (h : t.leadsToDirectory cwd p = .ok true) : IsDirectoryPath t cwd p := by
  unfold Tree.leadsToDirectory Tree.ask at h
  split at h
  · next l hl => exact ⟨l, (handed_eq_ok_iff.mp hl).2.2, Except.ok.inj h⟩
  · cases h
  · cases h

/-- a directory is no file -/
theorem IsDirectoryPath.not_leadsToFile {p : Path} (h : IsDirectoryPath t cwd p) :
    t.leadsToFile cwd p ≠ .ok true := by
  obtain ⟨l, hl, hd⟩ := h
  unfold Tree.leadsToFile Tree.ask
  rw [hl]
  intro he
  split at he
  · next k hk =>
    obtain ⟨-, -, hk⟩ := handed_eq_ok_iff.mp hk
    obtain rfl := Except.ok.inj hk
    have hfile : (t.bytes? l).isSome = true := Except.ok.inj he
    rw [Tree.bytes?, Tree.isDirectory_iff.mp hd] at hfile
    cases hfile
  · cases he
  · cases he

/-- names that are found are not those of the root itself, which is a directory -/
theorem ne_nil_of_mem_findNames {extension : Extension} {found : List (List Name)}
    (h : findNames t cwd root extension = .ok found) {names : List Name} (hn : names ∈ found) :
    names ≠ [] := by
  obtain ⟨hroot, heligible, -⟩ := of_mem_findNames h hn
  obtain ⟨-, -, hfile⟩ := eligible_eq_true heligible
  rintro rfl
  rw [path_nil] at hfile
  exact (isDirectoryPath_of_leadsToDirectory hroot).not_leadsToFile hfile

theorem mem_namesOf_of_searched {s : List Char} {parts : List Part}
    (hparts : parts? ('*' :: s) = .ok parts) {n : Name} (hn : .named n ∈ .anyDepth :: parts) :
    n ∈ namesOf ('*' :: s) := by
  rcases List.mem_cons.mp hn with he | hn
  · cases he
  · exact mem_namesOf_of_named hparts hn

/-- where something is found, the last name ends in the extension and holds no slash, so the
extension holds none -/
theorem slash_not_mem_of_mem_findNames (ht : t.WellFormed) {s : List Char}
    {found : List (List Name)} (h : findNames t cwd root (.value s) = .ok found)
    {names : List Name} (hn : names ∈ found) : '/' ∉ s := by
  have hne := ne_nil_of_mem_findNames h hn
  obtain ⟨-, heligible, parts, hparts, hhit⟩ := of_mem_findNames h hn
  obtain ⟨-, ⟨_, he, hs⟩, -⟩ := eligible_eq_true heligible
  cases he
  have hall : ∀ n ∈ names, '/' ∉ n :=
    search_names ht (fun n hn => hn.noSlash)
      (fun n hn => slash_not_mem_of_mem_splitSlash
        (List.mem_of_mem_filter (mem_namesOf_of_searched hparts hn)))
      (fun n hn => absurd hn List.not_mem_nil) hhit
  rcases List.eq_nil_or_concat names with hnil | ⟨dirs, m, rfl⟩
  · exact absurd hnil hne
  · rw [List.concat_eq_append] at hs hall
    rw [lastName_path] at hs
    exact fun hm => hall m (List.mem_append_right _ List.mem_cons_self) (hs.subset hm)

/-- the names of a file that is found are those of entries, and the first is not that of the
directory of generated code -/
theorem names_of_mem_findNames (ht : t.WellFormed) {extension : Extension}
    {found : List (List Name)} (h : findNames t cwd root extension = .ok found)
    {names : List Name} (hn : names ∈ found) :
    names ≠ [] ∧ dots ∉ names ∧ ∀ n ∈ names.dropLast, n ∉ excludedNames := by
  obtain ⟨-, heligible, parts, hparts, hhit⟩ := of_mem_findNames h hn
  obtain ⟨hwanted, ⟨s, rfl, -⟩, -⟩ := eligible_eq_true heligible
  have hslash := slash_not_mem_of_mem_findNames ht h hn
  have hdots : ∀ n ∈ names, n ≠ dots := by
    refine search_names ht (fun n hn => hn.ne_dots) (fun n hn => ?_)
      (fun n hn => absurd hn List.not_mem_nil) hhit
    have hmem := List.mem_of_mem_filter (mem_namesOf_of_searched hparts hn)
    rw [splitSlash_of_not_mem, List.mem_singleton] at hmem
    · rw [hmem]
      intro he
      cases he
    · rw [List.mem_cons, not_or]
      exact ⟨by decide, hslash⟩
  exact ⟨ne_nil_of_mem_findNames h hn, fun hm => hdots dots hm rfl, hwanted⟩

end

/-! ## specifiers of the generated module -/

/-- the specifier of the generated module in a file `k` names below the root -/
def apiSpecifier (k : Nat) : List Char :=
  if k = 1 then "./_generated/api.js".toList
  else (List.replicate (k - 1) "../".toList).flatten ++ "_generated/api.js".toList

/-- characters that end a quoted text, or do not stand for themselves in it -/
def quoteBreaks : List Char := ['\x27', '\x22', '\x60', '\\', '\n', '\r', '\u2028', '\u2029']

theorem quoteBreaks_not_mem_apiSpecifier (k : Nat) : ∀ c ∈ apiSpecifier k, c ∉ quoteBreaks := by
  unfold apiSpecifier
  split
  · simp [quoteBreaks]
  · intro c hc
    rcases List.mem_append.mp hc with hc | hc
    · obtain ⟨up, hup, hc⟩ := List.mem_flatten.mp hc
      rw [List.eq_of_mem_replicate hup] at hc
      have hall : ∀ c ∈ "../".toList, c ∉ quoteBreaks := by simp [quoteBreaks]
      exact hall c hc
    · have hall : ∀ c ∈ "_generated/api.js".toList, c ∉ quoteBreaks := by simp [quoteBreaks]
      exact hall c hc

theorem names_generatedApi : generatedApi.names = ["_generated".toList, "api.js".toList] := by
  decide

/-- without backslashes a text is kept, with `./` in front unless it begins with a dot -/
theorem specifierOf_eq {s : List Char} (h : '\\' ∉ s) :
    specifierOf s = if s.head? = some '.' then s else '.' :: '/' :: s := by
  have hmap : (s.map fun c => if c = '\\' then '/' else c) = s := by
    refine (List.map_congr_left fun c hc => ?_).trans (List.map_id s)
    exact if_neg fun he : c = '\\' => h (he ▸ hc)
  unfold specifierOf
  rw [hmap]

theorem specifierOf_wayText (k : Nat) :
    specifierOf (Path.wayText (List.replicate k dots ++ generatedApi.names)) =
      apiSpecifier (k + 1) := by
  have hway : Path.wayText (List.replicate k dots ++ generatedApi.names) =
      (List.replicate k "../".toList).flatten ++ "_generated/api.js".toList := by
    unfold Path.wayText
    rw [names_generatedApi, if_neg (by simp), Path.joinSlash_up]
    rfl
  rw [hway]
  cases k with
  | zero => decide
  | succ k =>
    have htext : apiSpecifier (k + 1 + 1) =
        (List.replicate (k + 1) "../".toList).flatten ++ "_generated/api.js".toList :=
      if_neg (by omega)
    have hback : '\\' ∉ apiSpecifier (k + 1 + 1) := fun hm =>
      quoteBreaks_not_mem_apiSpecifier _ _ hm (by decide)
    rw [← htext, specifierOf_eq hback, htext]
    exact if_pos rfl

theorem ofText_apiSpecifier (k : Nat) :
    Path.ofText (apiSpecifier (k + 1)) = ⟨.here, List.replicate k dots ++ generatedApi.names⟩ := by
  cases k with
  | zero => decide
  | succ k =>
    have htext : apiSpecifier (k + 1 + 1) =
        (List.replicate (k + 1) "../".toList).flatten ++ "_generated/api.js".toList :=
      if_neg (by omega)
    have hnames : namesOf "_generated/api.js".toList = generatedApi.names := rfl
    unfold Path.ofText
    rw [htext, Path.namesOf_up, hnames]
    rfl

/-! ## what is found -/

section
variable {root : Path} (hroot : root.IsResolved) {dirs : List Name}
include hroot

theorem absoluteNames_below (cwd : List Name) (hdirs : dots ∉ dirs) :
    (path root dirs).absoluteNames cwd = root.names ++ dirs := by
  obtain ⟨habs, hdots⟩ := Path.isResolved_iff.mp hroot
  have ha : (path root dirs).isAbsolute = true := habs
  unfold Path.absoluteNames
  rw [if_pos ha]
  refine Path.resolveNames_of_not_mem fun hm => ?_
  rcases List.mem_append.mp hm with hm | hm
  · exact hdots hm
  · exact hdirs hm

theorem importPath_below (cwd : List Name) (hdirs : dots ∉ dirs)
    (hfirst : dirs.head? ≠ some "_generated".toList) (n : Name) :
    importPath cwd (path root (dirs ++ [n])) (path root generatedApi.names) =
      apiSpecifier (dirs.length + 1) := by
  have hapi : dots ∉ generatedApi.names := by decide
  unfold importPath
  rw [parent_path, absoluteNames_below hroot cwd hdirs, absoluteNames_below hroot cwd hapi]
  rw [names_generatedApi, Path.wayNames_below hfirst, ← names_generatedApi]
  exact specifierOf_wayText dirs.length

theorem resolves_below (hdirs : dots ∉ dirs) :
    ((path root dirs).join (Path.ofText (apiSpecifier (dirs.length + 1)))).absolute [] =
      path root generatedApi.names := by
  obtain ⟨habs, hdots⟩ := Path.isResolved_iff.mp hroot
  have hapi : dots ∉ generatedApi.names := by decide
  rw [ofText_apiSpecifier]
  show Path.mk (if root.isAbsolute then root.anchor else .root)
    (Path.resolveNames (if root.isAbsolute then _ else _)) = _
  rw [if_pos habs, if_pos habs]
  show Path.mk root.anchor (Path.resolveNames (root.names ++ dirs ++ _)) = _
  rw [Path.resolveNames_way hdots hdirs hapi]
  rfl

end

theorem join_generatedApi (root : Path) : root.join generatedApi = path root generatedApi.names := rfl

/-- from every file that is found the generated module is reached by `apiSpecifier` -/
theorem specifier_of_found {t : Tree} (ht : t.WellFormed) (root : Path) :
    (∀ cwd p, t.realPath cwd p = .ok root → root.IsResolved) ∧
    (root.IsResolved → ∀ cwd extension paths, find t cwd root extension = .ok paths →
      ∀ p ∈ paths, ∃ names, p = path root names ∧ names ≠ [] ∧
        (∀ dir, importPath dir p (root.join generatedApi) = apiSpecifier names.length) ∧
        (∀ c ∈ apiSpecifier names.length, c ∉ quoteBreaks) ∧
        (p.parent.join (Path.ofText (apiSpecifier names.length))).absolute [] =
          root.join generatedApi) := by
  refine ⟨fun cwd p => Tree.isResolved_of_realPath, ?_⟩
  intro hroot cwd extension paths hpaths p hp
  obtain ⟨found, hfound, he⟩ := bind_eq_ok_iff.mp hpaths
  cases he
  obtain ⟨names, hn, rfl⟩ := List.mem_map.mp hp
  obtain ⟨hne, hdots, hwanted⟩ := names_of_mem_findNames ht hfound hn
  rcases List.eq_nil_or_concat names with hnil | ⟨dirs, n, rfl⟩
  · exact absurd hnil hne
  rw [List.concat_eq_append] at hne hdots hwanted ⊢
  rw [List.dropLast_concat] at hwanted
  have hdirs : dots ∉ dirs := fun hm => hdots (List.mem_append_left _ hm)
  have hfirst : dirs.head? ≠ some "_generated".toList := by
    intro he
    exact hwanted _ (List.mem_of_mem_head? he) List.mem_cons_self
  have hlength : (dirs ++ [n]).length = dirs.length + 1 := List.length_append
  refine ⟨dirs ++ [n], rfl, hne, ?_⟩
  rw [hlength, join_generatedApi, parent_path]
  exact ⟨fun dir => importPath_below hroot dir hdirs hfirst n, quoteBreaks_not_mem_apiSpecifier _,
    resolves_below hroot hdirs⟩

/-- a directory whose name is a quote, a backslash and a line feed -/
def oddName : Name := ['\x27', '\\', '\n']

/-- a file in a directory of the root's name in the directory with the odd name -/
def oddTree : Tree :=
  ⟨[(["r".toList], .directory), ([oddName, "r".toList], .directory),
    (["r".toList, oddName, "r".toList], .directory),
    (["a.ts".toList, "r".toList, oddName, "r".toList], .file [])]⟩

def oddRoot : Path := .ofRoot ["r".toList]

def oddPath : Path := path oddRoot [oddName, "r".toList, "a.ts".toList]

theorem find_oddTree : find oddTree [] oddRoot (.value ".ts".toList) = .ok [oddPath] := by
  have hroot : oddTree.leadsToDirectory [] oddRoot = .ok true := by decide +kernel
  have hsearch : search oddTree [] oddRoot
      [.anyDepth, .wild [.star, .literal '.', .literal 't', .literal 's']] [] =
        [.ok [oddName, "r".toList, "a.ts".toList]] := by
    cbv
  have hkept : keepHits (keepsSource oddTree [] oddRoot ".ts".toList)
      [.ok [oddName, "r".toList, "a.ts".toList]] = .ok [[oddName, "r".toList, "a.ts".toList]] := by
    decide +kernel
  rw [find_eq hroot parts?_ts, hsearch, hkept]
  show Except.ok (([[oddName, "r".toList, "a.ts".toList]].mergeSort namesLe).map (path oddRoot)) = _
  rw [List.mergeSort_singleton]
  rfl

theorem specifier_of_oddPath :
    oddTree.WellFormed ∧ oddRoot.IsResolved ∧
      find oddTree [] oddRoot (.value ".ts".toList) = .ok [oddPath] ∧
      importPath [] oddPath (oddRoot.join generatedApi) = "../../_generated/api.js".toList ∧
      (oddPath.parent.join (Path.ofText "../../_generated/api.js".toList)).absolute [] =
        oddRoot.join generatedApi := by
  have ht : oddTree.WellFormed := by decide +kernel
  have hroot : oddRoot.IsResolved := by decide +kernel
  obtain ⟨names, he, -, himport, -, hresolves⟩ := (specifier_of_found ht oddRoot).2 hroot []
    (.value ".ts".toList) [oddPath] find_oddTree oddPath List.mem_cons_self
  obtain rfl : [oddName, "r".toList, "a.ts".toList] = names :=
    List.append_cancel_left (congrArg Path.names he)
  exact ⟨ht, hroot, find_oddTree, himport [], hresolves⟩

end Discovery

end Rebind
