import Rebind.Proofs.Codec
import Rebind.Proofs.Following
import Rebind.Proofs.Layout

/-!
# Files that paths lead to

`Tree.Reaches` says that a path is taken by the file system and leads to a regular file.  Such a
path can be read and written: reading gives the bytes that are there, and writing puts bytes there
and changes nothing else.  Every discovered path is such a path (`reaches_of_mem_findNames`).
-/

namespace Rebind

namespace Tree

/-! ## writing keeps the layout -/

theorem keys_put {t : Tree} {l : Location} (hl : (t.entries.lookup l).isSome) (n : Node) :
    (t.put l n).entries.map Prod.fst = t.entries.map Prod.fst := by
  rw [put, if_pos hl, List.map_map]
  apply List.map_congr_left
  intro e _
  show (if e.1 = l then (l, n) else e).1 = e.1
  split
  · next he => exact he.symm
  · rfl

theorem ne_nil_of_bytes? {t : Tree} {l : Location} (hl : (t.bytes? l).isSome) : l ≠ [] := by
  rintro rfl
  simp [bytes?] at hl

theorem bytes?_put_file {t : Tree} {l : Location} (hl : l ≠ []) (bs : List UInt8) (k : Location) :
    (t.put l (.file bs)).bytes? k = if k = l then some bs else t.bytes? k := by
  unfold bytes?
  rw [get?_put t hl]
  by_cases hk : k = l
  · rw [if_pos hk, if_pos hk]
  · rw [if_neg hk, if_neg hk]

theorem bytes?_put {t : Tree} {l : Location} (hl : (t.bytes? l).isSome) (bs : List UInt8)
    (k : Location) : (t.put l (.file bs)).bytes? k = if k = l then some bs else t.bytes? k :=
  bytes?_put_file (ne_nil_of_bytes? hl) bs k

theorem SameLayout.put {t : Tree} {l : Location} (hl : (t.bytes? l).isSome) (bs : List UInt8) :
    SameLayout t (t.put l (.file bs)) := by
  have hne := ne_nil_of_bytes? hl
  obtain ⟨old, hold⟩ := bytes?_isSome_iff.mp hl
  rw [get?_of_ne_nil t hne] at hold
  refine ⟨keys_put (by rw [hold]; rfl) _, fun k => ?_⟩
  rw [get?_put t hne, bytes?_put hl]
  split
  · next hk => exact .inr ⟨hk ▸ hl, rfl⟩
  · exact .inl rfl

/-! ## opening a file for writing

A path that leads to a regular file is opened at the same place for writing as for reading.  The
two differ only at a slash at the end of a link's target, and what stands before such a slash is a
directory. -/

section
variable {making : Bool} {t : Tree} {k : Location} {links : Nat} {l : Location} {n : Name}
  {ns : List Name}

/-- a slash after a name stands after the names that follow it -/
theorem LooksUp.slash_after (h : LooksUp making t l n ns) (hlast : (n :: ns).getLast? = some []) :
    ns ≠ [] ∧ ns.getLast? = some [] := by
  have hne : ns ≠ [] := by
    rintro rfl
    exact h.notHere (.inl (Option.some.inj hlast))
  exact ⟨hne, by rwa [List.getLast?_cons_of_ne_nil hne] at hlast⟩

/-- before a slash at the end stands a directory -/
theorem Follows.isDirectory (h : Follows making t links l ns (.found k))
    (hlast : ns.getLast? = some []) : t.isDirectory k = true := by
  generalize hplace : Place.found k = place at h
  induction h with
  | arrive => cases hlast
  | @stay links l n ns place hd hn hrest ih =>
    by_cases hne : ns = []
    · subst hne
      cases hrest
      cases hplace
      exact hd
    · rw [List.getLast?_cons_of_ne_nil hne] at hlast
      exact ih hlast hplace
  | @up links l ns place hd hrest ih =>
    have hne : ns ≠ [] := by
      rintro rfl
      cases hlast
    rw [List.getLast?_cons_of_ne_nil hne] at hlast
    exact ih hlast hplace
  | stop hn hnone => cases hplace
  | link hn he hrest ih =>
    obtain ⟨hne, hlast⟩ := hn.slash_after hlast
    exact ih (by rwa [List.getLast?_append_of_ne_nil _ hne]) hplace
  | enter hn he hnode hrest ih => exact ih (hn.slash_after hlast).2 hplace

/-- a file that is found for reading is found in the same place for writing -/
theorem Follows.writing (hk : t.isDirectory k = false) (h : Follows false t links l ns (.found k)) :
    Follows true t links l ns (.found k) := by
  have hlooks : ∀ {links l n ns}, Follows false t links l (n :: ns) (.found k) →
      LooksUp false t l n ns → LooksUp true t l n ns := by
    intro links l n ns h hn
    refine ⟨hn.isDirectory, hn.notHere, hn.notUp, ?_, hn.short⟩
    rintro - rfl
    exact absurd (h.isDirectory rfl) (by rw [hk]; decide)
  generalize hplace : Place.found k = place at h
  induction h with
  | arrive => exact .arrive
  | stay hd hn _ ih => exact .stay hd hn (ih hplace)
  | up hd _ ih => exact .up hd (ih hplace)
  | stop hn hnone => cases hplace
  | link hn he hrest ih =>
    subst hplace
    exact .link (hlooks (.link hn he hrest) hn) he (ih rfl)
  | enter hn he hnode hrest ih =>
    subst hplace
    exact .enter (hlooks (.enter hn he hnode hrest) hn) he hnode (ih rfl)

end

theorem target?_eq_ok_iff {t : Tree} {cwd l : Location} {p : Path} :
    t.target? cwd p = .ok l ↔ t.place false cwd p = .ok (.found l) := by
  rw [target?]
  cases t.place false cwd p with
  | error r => simp [bind, Except.bind]
  | ok place => cases place <;> simp [bind, Except.bind]

end Tree

theorem bind_eq_ok_iff {ε α β : Type} {x : Except ε α} {f : α → Except ε β} {b : β} :
    x >>= f = .ok b ↔ ∃ a, x = .ok a ∧ f a = .ok b := by
  cases x with
  | error e => simp [bind, Except.bind]
  | ok a => simp [bind, Except.bind]

theorem handed_eq_ok_iff {α : Type} {text : List Char} {answer : Except Refused α} {a : α} :
    handed text answer = .ok a ↔
      text.contains '\x00' = false ∧ isLongText text = false ∧ answer = .ok a := by
  unfold handed
  cases text.contains '\x00' with
  | true => simp
  | false =>
    cases isLongText text with
    | true => simp
    | false => cases answer <;> simp

namespace Tree

/-! ## files that paths lead to -/

/-- a path is read where it is taken and leads to a regular file -/
theorem read_eq_ok_iff {t : Tree} {cwd : Location} {p : Path} {bs : List UInt8} :
    t.read cwd p = .ok bs ↔ p.text.contains '\x00' = false ∧ isLongText p.text = false ∧
      ∃ l, t.target? cwd p = .ok l ∧ t.bytes? l = some bs := by
  rw [Tree.read, Rebind.onPath, handed_eq_ok_iff, bind_eq_ok_iff]
  refine and_congr_right fun _ => and_congr_right fun _ => exists_congr fun l => ?_
  refine and_congr_right fun _ => ?_
  cases t.bytes? l <;> simp

theorem readText_of_read {t : Tree} {cwd : Location} {p : Path} {bs : List UInt8}
    (h : t.read cwd p = .ok bs) : t.readText cwd p = match Utf8.decode bs with
      | .ok text => .ok text
      | .error fault => .error (.notUtf8 fault) := by
  rw [Tree.readText, h]
  rfl

/-- a file that is read is written where it is -/
theorem write_of_read {t : Tree} {cwd : Location} {p : Path} {old : List UInt8}
    (h : t.read cwd p = .ok old) : ∃ l, t.target? cwd p = .ok l ∧ t.bytes? l = some old ∧
      ∀ bs, t.write cwd p bs = .ok (t.put l (.file bs)) := by
  obtain ⟨hnull, hshort, l, ht, hold⟩ := read_eq_ok_iff.mp h
  refine ⟨l, ht, hold, fun bs => ?_⟩
  have hd : t.isDirectory l = false := by
    rw [isDirectory, bytes?_eq_some_iff.mp hold]
    rfl
  have hplace : t.place true cwd p = .ok (.found l) :=
    placeFrom_eq_ok_iff.mpr ((placeFrom_eq_ok_iff.mp (target?_eq_ok_iff.mp ht)).writing hd)
  have hopen : t.openFile cwd p = .ok (l, t) := by
    refine handed_eq_ok_iff.mpr ⟨hnull, hshort, ?_⟩
    rw [hplace]
    show (if (t.bytes? l).isSome then _ else _) = _
    rw [if_pos (by rw [hold]; rfl)]
  rw [Tree.write, hopen]
  rfl

/-- the path is taken and leads to the regular file at `l` -/
structure Reaches (t : Tree) (p : Path) (l : Location) : Prop where
  noNull : p.text.contains '\x00' = false
  short : isLongText p.text = false
  target : t.target? [] p = .ok l
  isFile : (t.bytes? l).isSome

namespace Reaches
variable {t : Tree} {p : Path} {l : Location}

theorem sameLayout {t' : Tree} (h : t.Reaches p l) (ht : SameLayout t t') : t'.Reaches p l :=
  ⟨h.noNull, h.short, by rw [ht.target?, h.target], by rw [ht.isSome_bytes?]; exact h.isFile⟩

theorem read (h : t.Reaches p l) {bs : List UInt8} (hb : t.bytes? l = some bs) :
    t.read [] p = .ok bs :=
  read_eq_ok_iff.mpr ⟨h.noNull, h.short, l, h.target, hb⟩

theorem write (h : t.Reaches p l) (bs : List UInt8) :
    t.write [] p bs = .ok (t.put l (.file bs)) := by
  obtain ⟨old, hold⟩ := Option.isSome_iff_exists.mp h.isFile
  obtain ⟨l', ht, -, hwrite⟩ := write_of_read (h.read hold)
  cases h.target.symm.trans ht
  exact hwrite bs

theorem readText (h : t.Reaches p l) {bs : List UInt8} (hb : t.bytes? l = some bs) :
    t.readText [] p = match Utf8.decode bs with
      | .ok text => .ok text
      | .error fault => .error (.notUtf8 fault) :=
  readText_of_read (h.read hb)

end Reaches

theorem leadsToFile_iff {t : Tree} {p : Path} :
    t.leadsToFile [] p = .ok true ↔ ∃ l, t.Reaches p l := by
  rw [leadsToFile, ask]
  constructor
  · intro h
    split at h
    · next l hl =>
      obtain ⟨hn, hs, ht⟩ := handed_eq_ok_iff.mp hl
      exact ⟨l, hn, hs, ht, Except.ok.inj h⟩
    · cases h
    · cases h
  · rintro ⟨l, hl⟩
    rw [handed_eq_ok_iff.mpr ⟨hl.noNull, hl.short, hl.target⟩]
    show Except.ok (t.bytes? l).isSome = _
    rw [hl.isFile]

end Tree

/-! ## discovered paths -/

namespace Discovery

theorem keep_of_mem_keepHits {keep : List Name → Except Failure Bool} {hits : List Hit}
    {found : List (List Name)} (h : keepHits keep hits = .ok found) {names : List Name}
    (hn : names ∈ found) : keep names = .ok true := by
  induction hits generalizing found with
  | nil =>
    cases h
    cases hn
  | cons hit hits ih =>
    rw [keepHits] at h
    obtain ⟨ns, -, h⟩ := bind_eq_ok_iff.mp h
    obtain ⟨kept, hk, h⟩ := bind_eq_ok_iff.mp h
    obtain ⟨rest, hr, h⟩ := bind_eq_ok_iff.mp h
    cases h
    split at hn
    · next hkept =>
      rcases List.mem_cons.mp hn with rfl | hn
      · rw [hk, hkept]
      · exact ih hr hn
    · exact ih hr hn

theorem leadsToFile_of_eligible {t : Tree} {cwd : Location} {extension : Extension} {p : Path}
    {names : List Name} (h : eligible t cwd extension p names = .ok true) :
    t.leadsToFile cwd p = .ok true := by
  rw [eligible] at h
  split at h
  · cases h
  · obtain ⟨ends, -, h⟩ := bind_eq_ok_iff.mp h
    split at h
    · exact h
    · cases h

/-- each discovered path leads to a regular file -/
theorem reaches_of_mem_findNames {t : Tree} {root : Path} {extension : Extension}
    {found : List (List Name)} (h : findNames t [] root extension = .ok found)
    {names : List Name} (hn : names ∈ found) : ∃ l, t.Reaches (path root names) l := by
  rw [findNames] at h
  obtain ⟨parts, -, h⟩ := bind_eq_ok_iff.mp h
  obtain ⟨isDir, -, h⟩ := bind_eq_ok_iff.mp h
  split at h
  · obtain ⟨kept, hk, h⟩ := bind_eq_ok_iff.mp h
    cases h
    rw [List.mem_mergeSort] at hn
    have hkeep := keep_of_mem_keepHits hk hn
    rw [accepts_path] at hkeep
    exact Tree.leadsToFile_iff.mp (leadsToFile_of_eligible hkeep)
  · cases h
    cases hn

end Discovery

end Rebind
