import Rebind.Proofs.LogFile
import Rebind.Proofs.Sequences

/-!
# Texts go to files and come back

Writing a text to a path and reading the path again gives the text, whatever was there before, and
writing what was read leaves every file as it was.  Three things come together:

* a path that is opened for writing leads to the same place when it is read (`Follows.reading`);
* a file that was made on the way is found there afterwards (`Follows.put`);
* reading undoes writing on bytes (`Utf8.decode_eq_ok_iff`), and where it fails the fault is at the
  first bad sequence (`Utf8.fault_of_decode`).
-/

namespace Rebind

namespace Tree
variable {t t' : Tree} {cwd k : Location} {p : Path}

/-! ## the place of a file that is written -/

/-- what is opened for writing is found in the same place for reading -/
theorem Follows.reading {links : Nat} {l : Location} {ns : List Name} {place : Place}
    (h : Follows true t links l ns place) : Follows false t links l ns place := by
  induction h with
  | arrive => exact .arrive
  | stay hd hn _ ih => exact .stay hd hn ih
  | up hd _ ih => exact .up hd ih
  | stop hn hnone => exact .stop (hn.reading []) hnone
  | link hn he _ ih => exact .link (hn.reading _) he ih
  | enter hn he hnode _ ih => exact .enter (hn.reading _) he hnode ih

namespace IsFree
variable (hk : t.IsFree k) (node : Node)
include hk

/-- what is there is left by making something at a free place -/
theorem get?_put_of_some {l : Location} {found : Node} (hl : t.get? l = some found) :
    (t.put k node).get? l = some found := by
  have hne : l ≠ k := by
    rintro rfl
    rw [hk.2] at hl
    cases hl
  rwa [get?_put t hk.1, if_neg hne]

theorem isDirectory_put {l : Location} (hl : t.isDirectory l = true) :
    (t.put k node).isDirectory l = true := by
  rw [isDirectory, decide_eq_true_eq] at hl ⊢
  exact hk.get?_put_of_some node hl

theorem looksUp_put {making : Bool} {l : Location} {n : Name} {ns : List Name}
    (h : LooksUp making t l n ns) : LooksUp making (t.put k node) l n ns :=
  ⟨hk.isDirectory_put node h.isDirectory, h.notHere, h.notUp, h.noSlash, h.short⟩

end IsFree

/-- a path that leads to a free place leads to the file that is made there -/
theorem Follows.put {links : Nat} {l : Location} {ns : List Name}
    (h : Follows false t links l ns (.free k)) (bs : List UInt8) :
    Follows false (t.put k (.file bs)) links l ns (.found k) := by
  have hk : t.IsFree k := h.isFree
  generalize hplace : Place.free k = place at h
  induction h with
  | arrive => cases hplace
  | stay hd hn _ ih => exact .stay (hk.isDirectory_put _ hd) hn (ih hplace)
  | up hd _ ih => exact .up (hk.isDirectory_put _ hd) (ih hplace)
  | @stop links l n hn hnone =>
    -- the one name that was not there is that of the file, and it is the last
    cases hplace
    have hfile := get?_put t hk.1 (.file bs) (n :: l)
    rw [if_pos rfl] at hfile
    exact .enter (hk.looksUp_put _ hn) hfile (fun target he => by cases he) .arrive
  | link hn he _ ih => exact .link (hk.looksUp_put _ hn) (hk.get?_put_of_some _ he) (ih hplace)
  | enter hn he hnode _ ih =>
    exact .enter (hk.looksUp_put _ hn) (hk.get?_put_of_some _ he) hnode (ih hplace)

/-! ## bytes -/

/-- what was written is read -/
theorem read_of_write {bs : List UInt8} (h : t.write cwd p bs = .ok t') :
    t'.read cwd p = .ok bs := by
  obtain ⟨⟨l, t₁⟩, hopen, h⟩ := bind_eq_ok_iff.mp h
  cases h
  obtain ⟨hnull, hshort, hopen⟩ := handed_eq_ok_iff.mp hopen
  obtain ⟨place, hplace, hopen⟩ := bind_eq_ok_iff.mp hopen
  have hway := (placeFrom_eq_ok_iff.mp hplace).reading
  -- in the opened tree the path leads to the file, and writing it keeps the layout
  have hfile : t₁.target? cwd p = .ok l ∧ (t₁.bytes? l).isSome := by
    cases place with
    | free k =>
      cases hopen
      refine ⟨target?_eq_ok_iff.mpr (placeFrom_eq_ok_iff.mpr (hway.put [])), ?_⟩
      rw [bytes?_put_file hway.isFree.1, if_pos rfl]
      rfl
    | found k =>
      have hopen : (if (t.bytes? k).isSome then .ok (k, t) else .error Refused.isDirectory) =
        Except.ok (l, t₁) := hopen
      split at hopen
      · next hf =>
        cases hopen
        exact ⟨target?_eq_ok_iff.mpr (placeFrom_eq_ok_iff.mpr hway), hf⟩
      · cases hopen
  obtain ⟨htarget, hf⟩ := hfile
  refine read_eq_ok_iff.mpr ⟨hnull, hshort, l, ?_, ?_⟩
  · rw [(SameLayout.put hf bs).target?]
    exact htarget
  · rw [bytes?_put hf, if_pos rfl]

/-! ## texts -/

theorem readText_eq_ok_iff {bs : List UInt8} (h : t.read cwd p = .ok bs) {text : List Char} :
    t.readText cwd p = .ok text ↔ bs = Utf8.encode text := by
  rw [readText_of_read h, ← Utf8.decode_eq_ok_iff]
  cases Utf8.decode bs <;> simp

theorem readText_eq_error_iff {bs : List UInt8} (h : t.read cwd p = .ok bs) {f : Failure} :
    t.readText cwd p = .error f ↔ ∃ fault, Utf8.decode bs = .error fault ∧ f = .notUtf8 fault := by
  rw [readText_of_read h]
  cases Utf8.decode bs <;> simp [eq_comm]

theorem readText_of_writeText {text : List Char} (h : t.writeText cwd p text = .ok t') :
    t'.readText cwd p = .ok text :=
  (readText_eq_ok_iff (read_of_write h)).mpr rfl

/-- **Reading and writing undo each other.**  What is written to a path is read from it, whatever
was there before.  The bytes of a file are read as a text exactly when they are made of sequences;
writing that text puts the same bytes back and leaves the tree as it is; and where they cannot be
read, the position that is reported is that of the first bad sequence: it lies in the file, the
bytes before it are made of sequences, and no sequence begins at it. -/
theorem texts_come_back (t : Tree) (cwd : Location) (p : Path) :
    (∀ text t', t.writeText cwd p text = .ok t' → t'.readText cwd p = .ok text) ∧
    ∀ bs, t.read cwd p = .ok bs →
      ((∃ text, t.readText cwd p = .ok text) ↔ Utf8.MadeOfSequences bs) ∧
      (∀ text, t.readText cwd p = .ok text →
        ∃ t', t.writeText cwd p text = .ok t' ∧ t'.read cwd p = .ok bs ∧ ∀ k, t'.get? k = t.get? k) ∧
      (∀ text, ∃ t', t.writeText cwd p text = .ok t' ∧ t'.readText cwd p = .ok text) ∧
      ∀ f, t.readText cwd p = .error f → ∃ fault, f = .notUtf8 fault ∧
        fault.position < bs.length ∧ Utf8.MadeOfSequences (bs.take fault.position) ∧
        (∀ s, Utf8.IsSequence s → ¬ s <+: bs.drop fault.position) ∧
        fault.Covers (bs.drop fault.position) := by
  refine ⟨fun text t' => readText_of_writeText, fun bs hread => ?_⟩
  obtain ⟨l, -, hbytes, hwrite⟩ := write_of_read hread
  refine ⟨?_, ?_, ?_, ?_⟩
  · rw [Utf8.madeOfSequences_iff]
    exact exists_congr fun text => readText_eq_ok_iff hread
  · intro text htext
    obtain rfl := (readText_eq_ok_iff hread).mp htext
    have hput := hwrite (Utf8.encode text)
    refine ⟨_, hput, read_of_write hput, fun k => ?_⟩
    rw [get?_put t (ne_nil_of_bytes? (by rw [hbytes]; rfl))]
    split
    · next hk => rw [hk, bytes?_eq_some_iff.mp hbytes]
    · rfl
  · intro text
    exact ⟨_, hwrite (Utf8.encode text), readText_of_writeText (hwrite (Utf8.encode text))⟩
  · intro f hf
    obtain ⟨fault, hfault, rfl⟩ := (readText_eq_error_iff hread).mp hf
    exact ⟨fault, rfl, Utf8.fault_of_decode hfault⟩

/-- a byte order mark, a null character and three kinds of line breaks -/
def markedText : List Char := "\uFEFF\x00\r\n\n\r".toList

/-- a letter, a sequence of three bytes that is broken off after the second, and a bracket -/
def brokenBytes : List UInt8 := [0x61, 0xE2, 0x82, 0x28]

/-- a file that can be read, one that cannot, and a link to a file that is not there yet -/
def mixedFiles : Tree :=
  ⟨[(["marked".toList], .file (Utf8.encode markedText)), (["broken".toList], .file brokenBytes),
    (["link".toList], .link "new".toList)]⟩

theorem texts_come_back_mixedFiles :
    (∃ t', mixedFiles.writeText [] (.ofRoot ["marked".toList]) markedText = .ok t' ∧
      t'.read [] (.ofRoot ["marked".toList]) = .ok (Utf8.encode markedText) ∧
      ∀ k, t'.get? k = mixedFiles.get? k) ∧
    (∃ t', mixedFiles.writeText [] (.ofRoot ["link".toList]) ['x'] = .ok t' ∧
      t'.readText [] (.ofRoot ["link".toList]) = .ok ['x']) ∧
    ¬ Utf8.MadeOfSequences brokenBytes ∧
    ∃ fault, mixedFiles.readText [] (.ofRoot ["broken".toList]) = .error (.notUtf8 fault) ∧
      fault.position = 1 ∧ ∀ s, Utf8.IsSequence s → ¬ s <+: [0xE2, 0x82, 0x28] := by
  have hmarked : mixedFiles.read [] (.ofRoot ["marked".toList]) = .ok (Utf8.encode markedText) := by
    decide +kernel
  have htext : mixedFiles.readText [] (.ofRoot ["marked".toList]) = .ok markedText := by
    decide +kernel
  have hbroken : mixedFiles.read [] (.ofRoot ["broken".toList]) = .ok brokenBytes := by
    decide +kernel
  have hfault : mixedFiles.readText [] (.ofRoot ["broken".toList]) =
      .error (.notUtf8 ⟨1, 0xE2, 2, .invalidContinuation⟩) := by
    decide +kernel
  have hlink : ∃ t', mixedFiles.writeText [] (.ofRoot ["link".toList]) ['x'] = .ok t' :=
    ⟨mixedFiles.put ["new".toList] (.file [0x78]), by decide +kernel⟩
  obtain ⟨-, hback⟩ := texts_come_back mixedFiles [] (.ofRoot ["marked".toList])
  obtain ⟨-, hsame, -, -⟩ := hback _ hmarked
  obtain ⟨-, hfaulty⟩ := texts_come_back mixedFiles [] (.ofRoot ["broken".toList])
  obtain ⟨hmade, -, -, hreport⟩ := hfaulty _ hbroken
  obtain ⟨hnew, -⟩ := texts_come_back mixedFiles [] (.ofRoot ["link".toList])
  obtain ⟨t', ht'⟩ := hlink
  refine ⟨hsame markedText htext, ⟨t', ht', hnew ['x'] t' ht'⟩, ?_, ?_⟩
  · intro h
    obtain ⟨text, hok⟩ := hmade.mpr h
    rw [hfault] at hok
    cases hok
  · obtain ⟨fault, he, -, -, hnone, -⟩ := hreport _ hfault
    cases he
    exact ⟨_, hfault, rfl, hnone⟩

end Tree

end Rebind
