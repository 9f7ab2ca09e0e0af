import Rebind.Proofs.Confined
import Rebind.Proofs.Runs
import Rebind.Proofs.Specifiers

/-!
# Where the files lie that a run changes

Discovery comes upon entries below the root, and leaves out those in excluded directories
(`entry_of_mem_findNames`).  But an entry may be a link, and what is read and written is what the
link leads to: a file that a run changes is a discovered entry itself, or a discovered link leads to
it (`run_changes_entries_or_links`).  Where that file lies is not asked, so a run changes files
outside the root and files in excluded directories if there are links to them.
-/

namespace Rebind

/-! ## what is found is there -/

namespace Discovery
variable {t : Tree} {cwd : Location} {root : Path}

theorem path_append (root : Path) (names ms : List Name) :
    path (path root names) ms = path root (names ++ ms) := by
  show Path.mk root.anchor (root.names ++ names ++ ms) = ⟨root.anchor, root.names ++ (names ++ ms)⟩
  rw [List.append_assoc]

/-- a search for directories alone comes upon nothing else -/
theorem isDirectoryPath_of_mem_directories (ht : t.WellFormed) {names ms : List Name}
    (hd : IsDirectoryPath t cwd (path root names)) (h : .ok ms ∈ directories t cwd root names) :
    IsDirectoryPath t cwd (path root ms) := by
  obtain ⟨l, hl, -⟩ := id hd
  rw [directories, hl] at h
  rcases List.mem_append.mp h with h | h
  · rwa [eq_of_mem_visit h]
  · obtain ⟨ns, -, h⟩ := List.mem_flatMap.mp h
    split at h
    · next hns =>
      have hns := Tree.isDirectory_iff.mpr hns
      rw [eq_of_mem_visit h, ← path_append]
      exact ⟨_, ht.target?_directory hl hns, hns⟩
    · exact absurd h ok_not_mem_after
    · cases h

/-- directories below directories -/
theorem isDirectoryPath_of_mem_search (ht : t.WellFormed) (hd : IsDirectoryPath t cwd root)
    {names : List Name} (h : .ok names ∈ search t cwd root [.anyDepth, .anyDepth] []) :
    IsDirectoryPath t cwd (path root names) := by
  obtain ⟨hit, hhit, h⟩ := List.mem_flatMap.mp h
  obtain ⟨ns, rfl, h⟩ := ok_mem_after_iff.mp h
  obtain ⟨hit, hhit', h⟩ := List.mem_flatMap.mp h
  obtain ⟨ms, rfl, h⟩ := ok_mem_after_iff.mp h
  cases List.mem_singleton.mp h
  have htop : IsDirectoryPath t cwd (path root []) := by rwa [path_nil]
  exact isDirectoryPath_of_mem_directories ht (isDirectoryPath_of_mem_directories ht htop hhit) hhit'

/-- the pattern of an extension without a slash stands for directories or for names -/
theorem parts?_cases {s : List Char} (hs : '/' ∉ s) {parts : List Part}
    (h : parts? ('*' :: s) = .ok parts) :
    s = ['*'] ∧ parts = [.anyDepth] ∨ s ≠ ['*'] ∧ parts = [.wild (.star :: Glob.ofText s)] := by
  rw [parts?_of_noSlash hs] at h
  split at h
  · cases h
  · cases h
    unfold Part.ofText
    split
    · next he => exact .inl ⟨(List.cons.inj he).2, rfl⟩
    · next hne =>
      rw [Glob.ofText]
      exact .inr ⟨fun he => hne (congrArg _ he), rfl⟩

/-- what is found is an entry below the root -/
theorem entry_of_mem_findNames (ht : t.WellFormed) {extension : Extension}
    {found : List (List Name)} (h : findNames t [] root extension = .ok found)
    {names : List Name} (hn : names ∈ found) :
    ∃ top, t.target? [] root = .ok top ∧ (t.get? (locationFrom top names)).isSome := by
  obtain ⟨hroot, heligible, parts, hparts, hhit⟩ := of_mem_findNames h hn
  obtain ⟨-, ⟨s, rfl, -⟩, hfile⟩ := eligible_eq_true heligible
  obtain ⟨top, hopens⟩ := exists_opens ht hroot
  refine ⟨top, hopens.target, ?_⟩
  rcases parts?_cases (slash_not_mem_of_mem_findNames ht h hn) hparts with ⟨-, rfl⟩ | ⟨-, rfl⟩
  · have hd := isDirectoryPath_of_mem_search ht ⟨top, hopens.target, hopens.isDirectory⟩ hhit
    exact absurd hfile hd.not_leadsToFile
  · obtain ⟨dirs, n, rfl, hs⟩ :=
      hopens.exists_of_ok_mem_hits (searched_search ht hopens.target) hhit
    rwa [locationFrom_concat]

/-- a path that is found leads to the entry itself, or the entry is a link -/
theorem entry_or_link (ht : t.WellFormed) {top l : Location} (htop : t.target? [] root = .ok top)
    {names : List Name} (hs : (t.get? (locationFrom top names)).isSome)
    (hl : t.Reaches (path root names) l) :
    l = locationFrom top names ∨ ∃ target, t.get? (locationFrom top names) = some (.link target) := by
  obtain ⟨node, hnode⟩ := Option.isSome_iff_exists.mp hs
  cases node with
  | link target => exact .inr ⟨target, hnode⟩
  | directory =>
    have htarget := ht.target?_directory htop (Tree.isDirectory_iff.mpr hnode)
    exact .inl (Except.ok.inj (hl.target.symm.trans htarget))
  | file bs =>
    rcases List.eq_nil_or_concat names with rfl | ⟨dirs, n, rfl⟩
    · rw [path_nil] at hl
      exact .inl (Except.ok.inj (hl.target.symm.trans htop))
    · rw [List.concat_eq_append] at hnode hl ⊢
      rw [locationFrom_concat] at hnode ⊢
      exact .inl (Except.ok.inj (hl.target.symm.trans (ht.target?_file htop hnode)))

end Discovery

namespace Batch

/-! ## what a run changes -/

/-- what a run changes is a discovered entry, so it lies in the root and in no excluded directory, or
a discovered link leads to it -/
theorem run_changes_entries_or_links (c : Call) {t : Tree} (ht : t.WellFormed) {root : Path}
    (hroot : t.realPath c.cwd c.order.root = .ok root) {l : Location}
    (h : (c.run t).tree.get? l ≠ t.get? l) :
    ∃ top found names, t.target? [] root = .ok top ∧
      Discovery.findNames t [] root c.order.extension = .ok found ∧ names ∈ found ∧
      file? t root names = some l ∧ (∀ n ∈ names.dropLast, n ∉ excludedNames) ∧
      (l = locationFrom top names ∨
        ∃ target, t.get? (locationFrom top names) = some (.link target)) := by
  have hleads : Leads c.order c.cwd t l := by
    by_contra hnot
    refine h ((Confined.run c.order c.sink c.cwd t).rest l ?_ fun hw => hnot hw.2)
    rw [c.noFile]
    intro he
    cases he
  obtain ⟨root', found, names, hroot', hfound, hn, hfile⟩ := hleads
  obtain rfl : root = root' := Except.ok.inj (hroot.symm.trans hroot')
  obtain ⟨top, htop, hs⟩ := Discovery.entry_of_mem_findNames ht hfound hn
  obtain ⟨k, hk⟩ := Discovery.reaches_of_mem_findNames hfound hn
  obtain rfl : k = l := Option.some.inj ((file?_of_reaches hk).symm.trans hfile)
  obtain ⟨-, -, hwanted⟩ := Discovery.names_of_mem_findNames ht hfound hn
  exact ⟨top, found, names, htop, hfound, hn, hfile, hwanted, Discovery.entry_or_link ht htop hs hk⟩

/-! ## links that lead astray -/

theorem Rewritten.bytes?_ne {t t' : Tree} {root : Path} {done : List (List Name)}
    (h : Rewritten t root done t') {names : List Name} {l : Location} {text : List Char}
    (hfirst : names ∈ firsts (file? t root) done) (hn : Holds t root names l text)
    (ho : isOpen text = true) : t'.bytes? l ≠ t.bytes? l := by
  rw [h.first names hfirst l text hn.file?_eq hn.bytes, hn.bytes]
  intro he
  have hsame := Utf8.encode_inj (Option.some.inj he)
  have hclosed := isOpen_fix (importPath [] (Discovery.path root names) (root.join generatedApi)) text
  rw [show (fix _ text).text = text from hsame, ho] at hclosed
  cases hclosed

/-- a root with two links in it, to a file of generated code and to a file outside -/
def strayTree : Tree :=
  ⟨[(["convex".toList], .directory), (["_generated".toList, "convex".toList], .directory),
    (["x.ts".toList, "_generated".toList, "convex".toList], .file (Utf8.encode twinText)),
    (["shared".toList], .directory),
    (["y.ts".toList, "shared".toList], .file (Utf8.encode twinText)),
    (["a.ts".toList, "convex".toList], .link "_generated/x.ts".toList),
    (["b.ts".toList, "convex".toList], .link "../shared/y.ts".toList)]⟩

def strayRoot : Path := .ofRoot ["convex".toList]

def strayCall : Call :=
  { twinCall with order := { root := ⟨.here, ["convex".toList]⟩, extension := .value ".ts".toList } }

def strays : List (List Name) := [["a.ts".toList], ["b.ts".toList]]

theorem findNames_strays :
    Discovery.findNames strayTree [] strayRoot strayCall.order.extension = .ok strays := by
  cbv

theorem strays_hold :
    Holds strayTree strayRoot ["a.ts".toList]
        ["x.ts".toList, "_generated".toList, "convex".toList] twinText ∧
      Holds strayTree strayRoot ["b.ts".toList] ["y.ts".toList, "shared".toList] twinText := by
  refine ⟨⟨⟨?_, ?_, ?_, ?_⟩, ?_⟩, ⟨⟨?_, ?_, ?_, ?_⟩, ?_⟩⟩ <;> decide +kernel

theorem realPath_stray :
    strayTree.realPath strayCall.cwd strayCall.order.root = .ok strayRoot := by
  decide +kernel

theorem bytes?_strays {names : List Name} {l : Location} (hn : names ∈ strays)
    (hl : Holds strayTree strayRoot names l twinText) :
    (strayCall.run strayTree).tree.bytes? l ≠ strayTree.bytes? l := by
  have hreadable : ∀ names ∈ strays, Readable strayTree strayRoot names := by
    simp only [strays, List.forall_mem_cons]
    exact ⟨⟨_, _, strays_hold.1⟩, ⟨_, _, strays_hold.2⟩, fun _ h => absurd h List.not_mem_nil⟩
  obtain ⟨p, hp, htree, -⟩ := Call.run_of_readable realPath_stray findNames_strays hreadable
  have hfirsts : firsts (file? strayTree strayRoot) strays = strays := by decide +kernel
  rw [htree]
  exact (hp.real rfl).bytes?_ne (by rwa [hfirsts]) hl (by decide +kernel)

theorem run_changes_linked_entry :
    strayTree.WellFormed ∧ strayTree.realPath strayCall.cwd strayCall.order.root = .ok strayRoot ∧
      ∃ names ∈ strays, file? strayTree strayRoot names =
          some ["x.ts".toList, "_generated".toList, "convex".toList] ∧
        ∃ target, strayTree.get? (locationFrom ["convex".toList] names) = some (.link target) := by
  have ht : strayTree.WellFormed := by decide +kernel
  have hchanged : (strayCall.run strayTree).tree.get?
      ["x.ts".toList, "_generated".toList, "convex".toList] ≠
        strayTree.get? ["x.ts".toList, "_generated".toList, "convex".toList] := by
    intro he
    refine bytes?_strays List.mem_cons_self strays_hold.1 ?_
    rw [Tree.bytes?, he]
    rfl
  obtain ⟨top, found, names, htop, hfound, hn, hfile, -, hentry⟩ :=
    run_changes_entries_or_links strayCall ht realPath_stray hchanged
  obtain rfl : strays = found := Except.ok.inj (findNames_strays.symm.trans hfound)
  have hroot : strayTree.target? [] strayRoot = .ok ["convex".toList] := by decide +kernel
  obtain rfl : ["convex".toList] = top := Except.ok.inj (hroot.symm.trans htop)
  refine ⟨ht, realPath_stray, names, hn, hfile, hentry.resolve_left ?_⟩
  have hnone : ∀ names ∈ strays, ["x.ts".toList, "_generated".toList, "convex".toList] ≠
      locationFrom ["convex".toList] names := by
    decide
  exact hnone names hn

/-- a run changes a file outside the root, and one of generated code -/
theorem run_strays :
    strayTree.realPath strayCall.cwd strayCall.order.root = .ok strayRoot ∧
      (strayCall.run strayTree).tree.bytes? (locationOf ["shared".toList, "y.ts".toList]) ≠
        strayTree.bytes? (locationOf ["shared".toList, "y.ts".toList]) ∧
      (strayCall.run strayTree).tree.bytes?
          (locationOf (strayRoot.names ++ ["_generated".toList, "x.ts".toList])) ≠
        strayTree.bytes? (locationOf (strayRoot.names ++ ["_generated".toList, "x.ts".toList])) := by
  refine ⟨realPath_stray, ?_, ?_⟩
  · exact bytes?_strays (List.mem_cons_of_mem _ List.mem_cons_self) strays_hold.2
  · exact bytes?_strays List.mem_cons_self strays_hold.1

end Batch

end Rebind
