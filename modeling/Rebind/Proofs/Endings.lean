import Rebind.Proofs.Inside

/-!
# The two readings of an extension

An extension is read as a pattern, after a star, and literally, as the ending of a name; a file has
to satisfy both.  The two differ where the pattern has a bracket that is closed:

* `Glob.fits_star_mono`        a pattern with a star in front that fits a name fits every name that
                               ends in it;
* `Glob.length_ofText_lt`      a list in brackets is one element, so the pattern is shorter than the
                               text it is read from;
* `Discovery.mem_find_iff`     what is found are the sources whose names the pattern fits.

So an extension that does not fit itself drops files that end in it (`find_drops_ending`), and one
that begins with a character of its own drops all of them (`Glob.not_fits_star`).
-/

namespace Rebind

/-! ## patterns and their texts -/

namespace Glob

theorem fits_star_iff {atoms : List Atom} {n : List Char} :
    fits (.star :: atoms) n = true ↔ ∃ tail, tail <:+ n ∧ covers atoms tail = true := by
  rw [fits_eq_covers]
  constructor
  · show anyTail (covers atoms) n = true → _
    intro h
    induction n with
    | nil => exact ⟨[], List.suffix_rfl, h⟩
    | cons c n ih =>
      rcases Bool.or_eq_true_iff.mp h with h | h
      · exact ⟨c :: n, List.suffix_rfl, h⟩
      · obtain ⟨tail, htail, h⟩ := ih h
        exact ⟨tail, htail.trans (List.suffix_cons c n), h⟩
  · rintro ⟨tail, htail, h⟩
    exact anyTail_of_suffix htail h

/-- a star takes whatever stands in front -/
theorem fits_star_mono {atoms : List Atom} {m n : List Char} (h : fits (.star :: atoms) m = true)
    (hn : m <:+ n) : fits (.star :: atoms) n = true := by
  obtain ⟨tail, htail, hcovers⟩ := fits_star_iff.mp h
  exact fits_star_iff.mpr ⟨tail, htail.trans hn, hcovers⟩

theorem covers_cons_iff {a : Atom} (ha : a ≠ .star) {atoms : List Atom} {name : List Char} :
    covers (a :: atoms) name = true ↔
      ∃ c cs, name = c :: cs ∧ a.holds c = true ∧ covers atoms cs = true := by
  cases name with
  | nil => cases a <;> simp_all [covers]
  | cons c cs => cases a <;> simp_all [covers]

/-- each element but a star stands for one character -/
theorem length_of_covers {atoms : List Atom} {name : List Char} (hs : .star ∉ atoms)
    (h : covers atoms name = true) : name.length = atoms.length := by
  induction atoms generalizing name with
  | nil =>
    rw [List.isEmpty_iff.mp h]
    rfl
  | cons a atoms ih =>
    rw [List.mem_cons, not_or] at hs
    obtain ⟨c, cs, rfl, -, h⟩ := (covers_cons_iff fun he => hs.1 he.symm).mp h
    rw [List.length_cons, List.length_cons, ih hs.2 h]

/-! ## patterns are no longer than their texts -/

theorem length_ofText_le (cs : List Char) : (ofText cs).length ≤ cs.length := by
  fun_induction ofText cs with
  | case1 => exact Nat.le_refl _
  | case5 cs list rest hsome ih =>
    have hrest := closeBracket?_length hsome
    rw [List.length_cons, List.length_cons]
    omega
  | case2 cs ih => exact Nat.succ_le_succ ih
  | case3 cs ih => exact Nat.succ_le_succ ih
  | case4 cs _ ih => exact Nat.succ_le_succ ih
  | case6 c cs _ _ _ ih => exact Nat.succ_le_succ ih

/-- a bracket that is closed makes the pattern shorter -/
theorem length_ofText_lt {cs : List Char} (h : Closes cs) : (ofText cs).length < cs.length := by
  have hlater : ∀ {c : Char} {cs : List Char}, c ≠ '[' → Closes (c :: cs) → Closes cs :=
    fun hc h => (closes_cons_iff.mp h).resolve_left fun hb => hc hb.1
  fun_induction ofText cs with
  | case1 =>
    obtain ⟨a, b, he, -⟩ := h
    exact absurd he.symm (List.append_ne_nil_of_right_ne_nil a (List.cons_ne_nil _ b))
  | case2 cs ih => exact Nat.succ_lt_succ (ih (hlater (by decide) h))
  | case3 cs ih => exact Nat.succ_lt_succ (ih (hlater (by decide) h))
  | case4 cs hnone ih =>
    have h : Closes cs := (closes_cons_iff.mp h).resolve_left fun hb => by
      rw [hnone] at hb
      cases hb.2
    exact Nat.succ_lt_succ (ih h)
  | case5 cs list rest hsome ih =>
    -- one element for the list, and the bracket that closes it is read as well
    have hrest := closeBracket?_length hsome
    have hle := length_ofText_le rest
    rw [List.length_cons, List.length_cons]
    omega
  | case6 c cs _ _ hc ih => exact Nat.succ_lt_succ (ih (hlater hc h))

/-! ## stars come from stars -/

theorem bracket_ne_star (list : List Char) : bracket list ≠ .star := by
  have hopposite : ∀ items, opposite items ≠ .star := by
    intro items
    unfold opposite
    split <;> simp
  unfold bracket
  split
  · exact hopposite _
  · split
    · exact hopposite _
    · simp
    · simp

theorem suffix_of_closeBracket? {cs list rest : List Char}
    (h : closeBracket? cs = some (list, rest)) : rest <:+ cs := by
  simp only [closeBracket?] at h
  split at h
  · cases h
  · next hbody =>
    cases h
    have hsuffix := (List.dropWhile_suffix (l := cs.drop (unclosing cs)) (· != ']')).trans
      (List.drop_suffix _ cs)
    rw [hbody] at hsuffix
    exact (List.suffix_cons _ _).trans hsuffix

theorem star_not_mem_ofText {cs : List Char} (h : '*' ∉ cs) : .star ∉ ofText cs := by
  fun_induction ofText cs with
  | case1 => exact List.not_mem_nil
  | case2 cs ih => exact absurd List.mem_cons_self h
  | case5 cs list rest hsome ih =>
    have hrest : '*' ∉ rest := fun hm =>
      h (List.mem_cons_of_mem _ ((suffix_of_closeBracket? hsome).subset hm))
    exact List.not_mem_cons_of_ne_of_not_mem (bracket_ne_star list).symm (ih hrest)
  | case3 cs ih =>
    exact List.not_mem_cons_of_ne_of_not_mem (by simp) (ih (mt (List.mem_cons_of_mem _) h))
  | case4 cs _ ih =>
    exact List.not_mem_cons_of_ne_of_not_mem (by simp) (ih (mt (List.mem_cons_of_mem _) h))
  | case6 c cs _ _ _ ih =>
    exact List.not_mem_cons_of_ne_of_not_mem (by simp) (ih (mt (List.mem_cons_of_mem _) h))

/-- the character stands for itself in a pattern -/
def IsPlain (c : Char) : Prop := c ≠ '*' ∧ c ≠ '?' ∧ c ≠ '['

theorem ofText_cons {c : Char} (h : IsPlain c) (cs : List Char) :
    ofText (c :: cs) = .literal c :: ofText cs := by
  obtain ⟨hstar, hany, hbracket⟩ := h
  rw [ofText]
  · exact hstar
  · exact hany
  · exact hbracket

/-- a name that ends in the text has the first character of the text too far in front for a pattern
that is shorter than the text -/
theorem not_fits_star {c : Char} {cs : List Char} (hc : IsPlain c) (hcs : c ∉ cs)
    (hstar : '*' ∉ cs) (hcloses : Closes cs) {n : List Char} (hn : c :: cs <:+ n) :
    fits (.star :: ofText (c :: cs)) n = false := by
  rw [← Bool.not_eq_true, fits_star_iff]
  rintro ⟨tail, htail, hcovers⟩
  rw [ofText_cons hc] at hcovers
  have hnone : .star ∉ .literal c :: ofText cs :=
    List.not_mem_cons_of_ne_of_not_mem (by simp) (star_not_mem_ofText hstar)
  have hlength := length_of_covers hnone hcovers
  have hlt := length_ofText_lt hcloses
  rw [List.length_cons] at hlength
  -- what the pattern covers begins with `c`, and lies within the text after its first character
  obtain ⟨d, ds, rfl, hd, -⟩ := (covers_cons_iff (by simp)).mp hcovers
  obtain rfl : d = c := beq_iff_eq.mp hd
  have hshort : d :: ds <:+ d :: cs := by
    refine List.suffix_of_suffix_length_le htail hn ?_
    rw [hlength, List.length_cons]
    omega
  rcases List.suffix_cons_iff.mp hshort with he | hsuffix
  · rw [he, List.length_cons] at hlength
    omega
  · exact hcs (hsuffix.subset List.mem_cons_self)

end Glob

/-! ## what is found -/

namespace Discovery

/-- the name fits the pattern of the extension.  Two stars alone stand for directories, and so fit
the name of no file. -/
def keepsName (extension : List Char) (n : Name) : Bool :=
  match parts? ('*' :: extension) with
  | .ok [.wild atoms] => Glob.fits atoms n
  | _ => false

section
variable {extension : List Char} {parts : List Part} (hslash : '/' ∉ extension)
  (hparts : parts? ('*' :: extension) = .ok parts)
include hslash hparts

theorem keepsName_iff {n : Name} :
    keepsName extension n = true ↔
      extension ≠ ['*'] ∧ Glob.fits (.star :: Glob.ofText extension) n = true := by
  rw [keepsName, hparts]
  rcases parts?_cases hslash hparts with ⟨he, rfl⟩ | ⟨hne, rfl⟩
  · exact ⟨fun h => (by cases h), fun h => absurd he h.1⟩
  · exact (and_iff_right hne).symm

/-- an extension that fits itself fits every name that ends in it -/
theorem keepsName_suffix_iff :
    (∀ n, extension <:+ n → keepsName extension n = true) ↔
      keepsName extension extension = true := by
  constructor
  · exact fun h => h extension List.suffix_rfl
  · intro h n hn
    rw [keepsName_iff hslash hparts] at h ⊢
    exact ⟨h.1, Glob.fits_star_mono h.2 hn⟩

section
variable {t : Tree} {cwd top : Location} {root : Path} (h : Opens t cwd root top)
include h

/-- when nothing fails, what is kept are the sources whose names fit the pattern -/
theorem mem_kept_iff_keepsName {found : List (List Name)}
    (hk : keepHits (keepsSource t cwd root extension)
      (search t cwd root (.anyDepth :: parts) []) = .ok found) (ns : List Name) :
    ns ∈ found ↔ IsSource t cwd root top extension ns ∧
      ∃ n, ns.getLast? = some n ∧ keepsName extension n = true := by
  have hkeep := fun hn : ns ∈ found => keep_of_mem_keepHits hk hn
  obtain ⟨hall, rfl⟩ := keepHits_eq_ok_iff.mp hk
  simp only [keepsName_iff hslash hparts]
  rcases parts?_cases hslash hparts with ⟨he, rfl⟩ | ⟨hne, rfl⟩
  · -- a search for directories finds no file
    constructor
    · intro hn
      obtain ⟨-, -, hfile⟩ := eligible_eq_true (hkeep hn)
      have hd := isDirectoryPath_of_mem_search h.wellFormed ⟨top, h.target, h.isDirectory⟩
        (mem_comeUpon.mp (List.mem_of_mem_filter hn))
      exact absurd hfile hd.not_leadsToFile
    · rintro ⟨-, n, -, hne, -⟩
      exact absurd he hne
  · rw [h.mem_kept_iff_fits (searched_search h.wellFormed h.target) hall]
    simp only [ne_eq, hne, not_false_eq_true, true_and]

/-- what is found are the sources whose names fit the pattern -/
theorem mem_find_iff (hroot : t.leadsToDirectory cwd root = .ok true) {paths : List Path}
    (hfind : find t cwd root (.value extension) = .ok paths) {p : Path} :
    p ∈ paths ↔ ∃ names n, IsSource t cwd root top extension (names ++ [n]) ∧
      keepsName extension n = true ∧ p = path root (names ++ [n]) := by
  rw [find_eq hroot hparts] at hfind
  cases hk : keepHits (keepsSource t cwd root extension)
      (search t cwd root (.anyDepth :: parts) []) with
  | error f =>
    rw [hk] at hfind
    cases hfind
  | ok found =>
    rw [hk] at hfind
    obtain rfl := Except.ok.inj hfind
    simp only [List.mem_map, List.mem_mergeSort, mem_kept_iff_keepsName hslash hparts h hk]
    constructor
    · rintro ⟨ns, ⟨hsource, n, hn, hkeeps⟩, rfl⟩
      obtain ⟨names, rfl⟩ := List.getLast?_eq_some_iff.mp hn
      exact ⟨names, n, hsource, hkeeps, rfl⟩
    · rintro ⟨names, n, hsource, hkeeps, rfl⟩
      exact ⟨names ++ [n], ⟨hsource, n, List.getLast?_concat, hkeeps⟩, rfl⟩

end

end

/-- **Which files that end in an extension are found.**  Of the sources, all of which end in the
extension, those are found whose names fit its pattern.  These are all of them exactly if the
extension fits itself, and it does unless it is a star or has a bracket that is closed.  A star fits
no name; and an extension with a closed bracket fits no name that ends in it either, if it has no
star and its first character stands for itself and occurs once. -/
theorem endings_found {t : Tree} {cwd : Location} {root : Path} {extension : List Char}
    {parts : List Part} (ht : t.WellFormed) (hroot : t.leadsToDirectory cwd root = .ok true)
    (hslash : '/' ∉ extension) (hparts : parts? ('*' :: extension) = .ok parts) :
    (∃ top, t.target? cwd root = .ok top ∧
      ∀ paths, find t cwd root (.value extension) = .ok paths →
        ∀ p, p ∈ paths ↔ ∃ names n, IsSource t cwd root top extension (names ++ [n]) ∧
          keepsName extension n = true ∧ p = path root (names ++ [n])) ∧
    ((∀ n, extension <:+ n → keepsName extension n = true) ↔
      keepsName extension extension = true) ∧
    (extension ≠ ['*'] → ¬ Glob.Closes extension →
      ∀ n, extension <:+ n → keepsName extension n = true) ∧
    (extension = ['*'] → ∀ n, keepsName extension n = false) ∧
    ∀ c body, extension = c :: body → Glob.IsPlain c → c ∉ body → '*' ∉ body →
      Glob.Closes body → ∀ n, extension <:+ n → keepsName extension n = false := by
  obtain ⟨top, h⟩ := exists_opens ht hroot
  refine ⟨⟨top, h.target, fun paths hfind p => ?_⟩, ?_, ?_, ?_, ?_⟩
  · exact mem_find_iff hslash hparts h hroot hfind
  · exact keepsName_suffix_iff hslash hparts
  · intro hne hcloses n hn
    rw [keepsName_iff hslash hparts, ← Glob.ofText]
    exact ⟨hne, Glob.fits_star hcloses hn⟩
  · intro he n
    rw [← Bool.not_eq_true, keepsName_iff hslash hparts]
    exact fun hk => hk.1 he
  · rintro c body rfl hc hbody hstar hcloses n hn
    rw [← Bool.not_eq_true, keepsName_iff hslash hparts,
      Glob.not_fits_star hc hbody hstar hcloses hn]
    exact fun hk => Bool.false_ne_true hk.2

/-- a directory with two files, whose names end in `.t?` and `.ts` -/
def markTree : Tree :=
  ⟨[(["r".toList], .directory), (["a.t?".toList, "r".toList], .file []),
    (["b.ts".toList, "r".toList], .file [])]⟩

def markRoot : Path := .ofRoot ["r".toList]

theorem parts?_mark : parts? ('*' :: ".t?".toList) =
    .ok [.wild [.star, .literal '.', .literal 't', .any]] := by
  cbv

theorem endings_found_markTree :
    (∀ n, ".t?".toList <:+ n → keepsName ".t?".toList n = true) ∧
      find markTree [] markRoot (.value ".t?".toList) = .ok [.ofRoot ["r".toList, "a.t?".toList]] ∧
      ∃ names n, IsSource markTree [] markRoot ["r".toList] ".t?".toList (names ++ [n]) ∧
        Path.ofRoot ["r".toList, "a.t?".toList] = path markRoot (names ++ [n]) := by
  have hroot : markTree.leadsToDirectory [] markRoot = .ok true := by decide +kernel
  have htarget : markTree.target? [] markRoot = .ok ["r".toList] := by decide +kernel
  have hfind : find markTree [] markRoot (.value ".t?".toList) =
      .ok [.ofRoot ["r".toList, "a.t?".toList]] := by
    have hsearch : search markTree [] markRoot
        [.anyDepth, .wild [.star, .literal '.', .literal 't', .any]] [] =
          [.ok ["a.t?".toList], .ok ["b.ts".toList]] := by
      cbv
    have hkept : keepHits (keepsSource markTree [] markRoot ".t?".toList)
        [.ok ["a.t?".toList], .ok ["b.ts".toList]] = .ok [["a.t?".toList]] := by
      decide +kernel
    rw [find_eq hroot parts?_mark, hsearch, hkept]
    cbv
  obtain ⟨⟨top, htop, hfound⟩, -, hkeeps, -⟩ :=
    endings_found (by decide +kernel) hroot (by decide) parts?_mark
  obtain rfl : ["r".toList] = top := Except.ok.inj (htarget.symm.trans htop)
  obtain ⟨names, n, hsource, -, hpath⟩ := (hfound _ hfind _).mp (List.mem_singleton_self _)
  exact ⟨hkeeps (by decide) (Glob.not_closes (by decide)), hfind, names, n, hsource, hpath⟩

/-! ## an ending that is not found -/

def bracketed : List Char := ".[t]s".toList

/-- a directory with a file that ends in it -/
def bracketTree : Tree :=
  ⟨[(["r".toList], .directory), (["a.[t]s".toList, "r".toList], .file [])]⟩

def bracketRoot : Path := .ofRoot ["r".toList]

theorem parts?_bracketed : parts? ('*' :: bracketed) =
    .ok [.wild [.star, .literal '.', .oneOf [.one 't'], .literal 's']] := by
  cbv

/-- the file is to be worked on by its name, and the pattern drops it -/
theorem find_drops_ending :
    '/' ∉ bracketed ∧ bracketed <:+ "a.[t]s".toList ∧
      keepsName bracketed "a.[t]s".toList = false ∧
      eligible bracketTree [] (.value bracketed) (path bracketRoot ["a.[t]s".toList])
        ["a.[t]s".toList] = .ok true ∧
      find bracketTree [] bracketRoot (.value bracketed) = .ok [] := by
  refine ⟨by decide, by decide, ?_, by decide +kernel, ?_⟩
  · rw [keepsName, parts?_bracketed]
    decide
  · have hroot : bracketTree.leadsToDirectory [] bracketRoot = .ok true := by decide +kernel
    have hsearch : search bracketTree [] bracketRoot
        [.anyDepth, .wild [.star, .literal '.', .oneOf [.one 't'], .literal 's']] [] = [] := by
      cbv
    rw [find_eq hroot parts?_bracketed, hsearch]
    cbv

end Discovery

end Rebind
