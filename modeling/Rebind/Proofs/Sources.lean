import Rebind.Proofs.Walks

/-!
# The files to be found

`IsSource` says of names below a root that discovery has to find them, `TooLong` that the file
system refuses to look at what they lead to, and `TooDeep` that they lead to a directory that no
walk goes down to.  None of them speaks of searching.  Entry by entry:

* `Opens.ok_mem_adds_iff`     the paths that a directory adds to a search;
* `Opens.obstacle_of_error`   a failure that an entry adds is that of something too long or too
                              deep, and each of these adds one (`exists_error_of_directory`,
                              `exists_error_of_link`, `exists_error_of_deep`);
* `Opens.keepsSource_cases`   of what was come upon the sources are kept.

The pattern of an extension is a star and the extension (`parts?_star`), and it fits every name that
ends in the extension, if no bracket is closed there (`Glob.fits_star`).
-/

namespace Rebind

/-! ## the pattern of an extension -/

namespace Glob

/-- some bracket of the text is closed -/
def Closes (cs : List Char) : Prop := ∃ a b, cs = a ++ '[' :: b ∧ (closeBracket? b).isSome

theorem closes_cons_iff {c : Char} {cs : List Char} :
    Closes (c :: cs) ↔ c = '[' ∧ (closeBracket? cs).isSome ∨ Closes cs := by
  constructor
  · rintro ⟨a, b, he, hb⟩
    cases a with
    | nil =>
      cases he
      exact .inl ⟨rfl, hb⟩
    | cons d a =>
      cases he
      exact .inr ⟨a, b, rfl, hb⟩
  · rintro (⟨rfl, hb⟩ | ⟨a, b, rfl, hb⟩)
    · exact ⟨[], cs, rfl, hb⟩
    · exact ⟨c :: a, b, rfl, hb⟩

theorem Closes.cons {cs : List Char} (h : Closes cs) (c : Char) : Closes (c :: cs) :=
  closes_cons_iff.mpr (.inr h)

theorem not_closes {cs : List Char} (h : '[' ∉ cs) : ¬ Closes cs := by
  rintro ⟨a, b, rfl, -⟩
  exact h (List.mem_append_right a List.mem_cons_self)

theorem anyTail_of_suffix {p : List Char → Bool} {cs tail : List Char} (h : tail <:+ cs)
    (hp : p tail = true) : anyTail p cs = true := by
  induction cs with
  | nil =>
    obtain rfl := List.suffix_nil.mp h
    exact hp
  | cons c cs ih =>
    rcases List.suffix_cons_iff.mp h with rfl | h
    · show (p (c :: cs) || _) = true
      rw [hp]
      rfl
    · show (_ || anyTail p cs) = true
      rw [ih h, Bool.or_true]

/-- a text in which no bracket is closed stands for itself, among others -/
theorem covers_ofText {cs : List Char} (h : ¬ Closes cs) : covers (ofText cs) cs = true := by
  fun_induction ofText cs with
  | case1 => rfl
  | case2 cs ih => exact anyTail_of_suffix (List.suffix_cons _ cs) (ih fun hc => h (hc.cons _))
  | case3 cs ih => exact ih fun hc => h (hc.cons _)
  | case4 cs hnone ih =>
    show ('[' == '[' && covers (ofText cs) cs) = true
    rw [ih fun hc => h (hc.cons _)]
    rfl
  | case5 cs list rest hsome ih =>
    exact absurd (closes_cons_iff.mpr (.inl ⟨rfl, Option.isSome_of_eq_some hsome⟩)) h
  | case6 c cs _ _ _ ih =>
    show (c == c && covers (ofText cs) cs) = true
    rw [ih fun hc => h (hc.cons _), beq_self_eq_true]
    rfl

/-- a star and such a text fit every name that ends in the text -/
theorem fits_star {cs n : List Char} (h : ¬ Closes cs) (hn : cs <:+ n) :
    fits (ofText ('*' :: cs)) n = true := by
  rw [fits_eq_covers, ofText]
  exact anyTail_of_suffix hn (covers_ofText h)

end Glob

theorem splitSlash_of_not_mem {s : List Char} (h : '/' ∉ s) : splitSlash s = [s] := by
  induction s with
  | nil => rfl
  | cons c s ih =>
    rw [List.mem_cons, not_or] at h
    rw [splitSlash, if_neg (fun e => h.1 e.symm), ih h.2]

namespace Discovery

/-- a pattern without a slash is a single part -/
theorem parts?_of_noSlash {extension : List Char} (h : '/' ∉ extension) :
    parts? ('*' :: extension) =
      if hasStars ('*' :: extension) then .error .starsInName
      else .ok [Part.ofText ('*' :: extension)] := by
  have hslash : '/' ∉ '*' :: extension := by
    rw [List.mem_cons, not_or]
    exact ⟨by decide, h⟩
  have hnames : namesOf ('*' :: extension) = ['*' :: extension] := by
    unfold namesOf
    rw [splitSlash_of_not_mem hslash]
    rfl
  have hlast : ('*' :: extension).getLast? ≠ some '/' :=
    fun he => hslash (List.mem_of_getLast? he)
  show (if (namesOf ('*' :: extension)).any hasStars then _ else _) = _
  rw [hnames, if_neg hlast, List.any_cons, List.any_nil, Bool.or_false]
  rfl

theorem parts?_star {extension : List Char} (h : ∀ c ∈ extension, c ≠ '/' ∧ c ≠ '*') :
    parts? ('*' :: extension) = .ok [.wild (Glob.ofText ('*' :: extension))] := by
  have hone : ¬ ['*', '*'] <:+: '*' :: extension := by
    rw [List.infix_cons_iff]
    rintro (hp | hi)
    · have hp : ['*'] <+: extension := by simpa using hp
      exact (h '*' (hp.subset List.mem_cons_self)).2 rfl
    · exact (h '*' (hi.subset List.mem_cons_self)).2 rfl
  have hstars : hasStars ('*' :: extension) = false := by
    unfold hasStars
    rw [Bool.eq_false_iff.mpr (mt hasPart_iff.mp hone)]
    rfl
  have hpart : Part.ofText ('*' :: extension) = .wild (Glob.ofText ('*' :: extension)) := by
    have hne : '*' :: extension ≠ ['*', '*'] := by
      intro he
      exact hone (he ▸ List.infix_rfl)
    unfold Part.ofText
    rw [if_neg hne]
    rfl
  rw [parts?_of_noSlash fun hm => (h _ hm).1 rfl, hstars, if_neg (by decide), hpart]

end Discovery

/-! ## texts that are handed over -/

theorem mem_joinSlash {c : Char} (hc : c ≠ '/') {names : List Name} :
    c ∈ joinSlash names ↔ ∃ n ∈ names, c ∈ n := by
  induction names with
  | nil => simp [joinSlash]
  | cons n names ih =>
    cases names with
    | nil => simp [joinSlash]
    | cons m names =>
      have hcons : joinSlash (n :: m :: names) = n ++ ['/'] ++ joinSlash (m :: names) :=
        List.intercalate_cons_cons
      rw [hcons, List.exists_mem_cons_iff, ← ih]
      simp [hc]

theorem Path.null_mem_text_iff {p : Path} : '\x00' ∈ p.text ↔ ∃ n ∈ p.names, '\x00' ∈ n := by
  rw [← mem_joinSlash (by decide)]
  have hanchor : '\x00' ∉ p.anchor.text := by cases p.anchor <;> decide
  unfold Path.text
  split
  · next he =>
    rw [(List.append_eq_nil_iff.mp he).2]
    decide
  · rw [bareText, List.mem_append]
    exact or_iff_right hanchor

theorem handed_ok {α : Type} {text : List Char} (hnull : '\x00' ∉ text) (a : α) :
    handed text (.ok a) =
      if isLongText text then .error (.refused .nameTooLong text) else .ok a := by
  have hn : text.contains '\x00' = false := by simpa using hnull
  unfold handed
  rw [hn, if_neg (by decide)]

namespace Tree
variable {t : Tree} {cwd : Location}

/-- what asking about a path can give: a text or a name may be too long, and nothing else is
refused -/
theorem ask_cases {text : List Char} (hnull : '\x00' ∉ text) (p : Path)
    (question : Location → Bool) :
    (isLongText text = true ∨ t.target? cwd p = .error .nameTooLong) ∧
        t.ask cwd text p question = .error (.refused .nameTooLong text) ∨
      isLongText text = false ∧ t.target? cwd p ≠ .error .nameTooLong ∧
        t.ask cwd text p question = .ok (match t.target? cwd p with
          | .ok l => question l
          | .error _ => false) := by
  have hn : text.contains '\x00' = false := by simpa using hnull
  unfold ask handed
  rw [hn, if_neg (by decide)]
  cases hlong : isLongText text with
  | true => exact .inl ⟨.inl rfl, rfl⟩
  | false =>
    cases ht : t.target? cwd p with
    | ok l => exact .inr ⟨rfl, fun h => (by cases h), rfl⟩
    | error r =>
      cases r with
      | nameTooLong => exact .inl ⟨.inr rfl, rfl⟩
      | noEntry => exact .inr ⟨rfl, fun h => (by cases h), rfl⟩
      | alreadyThere => exact .inr ⟨rfl, fun h => (by cases h), rfl⟩
      | notDirectory => exact .inr ⟨rfl, fun h => (by cases h), rfl⟩
      | isDirectory => exact .inr ⟨rfl, fun h => (by cases h), rfl⟩
      | tooManyLinks => exact .inr ⟨rfl, fun h => (by cases h), rfl⟩

end Tree

/-! ## looks at the entries below a root -/

namespace Discovery

theorem path_concat (root : Path) (names : List Name) (n : Name) :
    ({ path root names with names := (path root names).names ++ [n] } : Path) =
      path root (names ++ [n]) := by
  unfold path
  simp only [List.append_assoc]

theorem lastName_path (root : Path) (names : List Name) (n : Name) :
    (path root (names ++ [n])).lastName = n := by
  show ((root.names ++ (names ++ [n])).getLast?).getD [] = n
  rw [← List.append_assoc, List.getLast?_concat]
  rfl

/-- the root is taken and leads to the directory `top` -/
structure Opens (t : Tree) (cwd : Location) (root : Path) (top : Location) : Prop where
  wellFormed : t.WellFormed
  target : t.target? cwd root = .ok top
  isDirectory : t.isDirectory top = true
  noNull : '\x00' ∉ root.text
  short : isLongText root.text = false

theorem exists_opens {t : Tree} (ht : t.WellFormed) {cwd : Location} {root : Path}
    (h : t.leadsToDirectory cwd root = .ok true) : ∃ top, Opens t cwd root top := by
  unfold Tree.leadsToDirectory Tree.ask at h
  split at h
  · next top htop =>
    obtain ⟨hnull, hshort, htarget⟩ := handed_eq_ok_iff.mp htop
    exact ⟨top, ht, htarget, Except.ok.inj h, by simpa using hnull, hshort⟩
  · cases h
  · cases h

namespace Opens
variable {t : Tree} {cwd top : Location} {root : Path} (h : Opens t cwd root top)
  {names : List Name} {n : Name}
include h

theorem null_not_mem_text (hs : (t.get? (locationFrom top names)).isSome) :
    '\x00' ∉ (path root names).text := by
  rw [Path.null_mem_text_iff]
  rintro ⟨m, hm, hc⟩
  rcases List.mem_append.mp hm with hm | hm
  · exact h.noNull (Path.null_mem_text_iff.mpr ⟨m, hm, hc⟩)
  · have hmem : m ∈ locationFrom top names := List.mem_append_left _ (List.mem_reverse.mpr hm)
    exact (h.wellFormed.isName hs m hmem).noNull hc

/-- a directory is taken, and listed, unless it lies too deep or its path is too long -/
theorem enter_directory {depth : Nat} (hd : t.get? (locationFrom top names) = some .directory) :
    enter t cwd depth (path root names) =
      if walkLimit < depth then .error .tooDeep
      else if isLongText (path root names).text then
        .error (.refused .nameTooLong (path root names).text)
      else .ok (locationFrom top names) := by
  have hnull := h.null_not_mem_text (Option.isSome_of_eq_some hd)
  rw [enter, h.wellFormed.target?_directory h.target (Tree.isDirectory_iff.mpr hd)]
  split
  · rfl
  · exact handed_ok hnull _

theorem list_directory (hd : t.get? (locationFrom top names) = some .directory) :
    t.list cwd (path root names) =
      if isLongText (path root names).text then .error (.refused .nameTooLong (path root names).text)
      else .ok ((t.children (locationFrom top names)).mergeSort nameLe) := by
  have hnull := h.null_not_mem_text (Option.isSome_of_eq_some hd)
  have hanswer : (t.target? cwd (path root names) >>= fun l =>
      if t.isDirectory l then .ok ((t.children l).mergeSort nameLe) else .error .notDirectory) =
      .ok ((t.children (locationFrom top names)).mergeSort nameLe) := by
    rw [h.wellFormed.target?_directory h.target (Tree.isDirectory_iff.mpr hd)]
    show (if t.isDirectory (locationFrom top names) then _ else _) = _
    rw [if_pos (Tree.isDirectory_iff.mpr hd)]
  show onPath _ (t.target? cwd (path root names) >>= _) = _
  rw [hanswer]
  exact handed_ok hnull _

/-- looking at a link follows it -/
theorem entryLeadsToDirectory_link {target : List Char}
    (hl : t.get? (n :: locationFrom top names) = some (.link target)) :
    t.entryLeadsToDirectory cwd (path root names) n =
      t.ask cwd (Tree.entryText (path root names) n) (path root (names ++ [n])) t.isDirectory := by
  have hplace : t.lastPlace cwd (path root (names ++ [n])) =
      .ok (.found (n :: locationFrom top names)) :=
    h.wellFormed.lastPlace_entry h.target (Option.isSome_of_eq_some hl)
  unfold Tree.entryLeadsToDirectory
  simp only [path_concat, hplace, hl]

theorem null_not_mem_entryText (hs : (t.get? (n :: locationFrom top names)).isSome) :
    '\x00' ∉ Tree.entryText (path root names) n := by
  have hd := Tree.isDirectory_iff.mp (h.wellFormed.isDirectory hs)
  have hdir : '\x00' ∉ (path root names).text := h.null_not_mem_text (Option.isSome_of_eq_some hd)
  have hn := (h.wellFormed.isName hs n List.mem_cons_self).noNull
  unfold Tree.entryText
  rw [List.mem_append, not_or]
  refine ⟨hdir, ?_⟩
  split
  · exact hn
  · rw [List.mem_cons, not_or]
    exact ⟨by decide, hn⟩

end Opens

/-! ## what is to be found, and what can be refused -/

section
variable (t : Tree) (cwd : Location) (root : Path) (top : Location) (extension : List Char)

/-- the names lead from the directory `top` through real directories, none of them excluded, to a
file or a link to one, and the last ends in the extension -/
structure IsSource (names : List Name) : Prop where
  directories : ∀ ns, ns ≠ [] → ns <+: names.dropLast →
    t.get? (locationFrom top ns) = some .directory
  wanted : ∀ n ∈ names.dropLast, n ∉ excludedNames
  ends : ∃ n, names.getLast? = some n ∧ extension <:+ n
  file : (∃ bs, t.get? (locationFrom top names) = some (.file bs)) ∨
    ∃ target l, t.get? (locationFrom top names) = some (.link target) ∧
      t.target? cwd (path root names) = .ok l ∧ (t.bytes? l).isSome

/-- the file system refuses to look at the entry, for the length of its path or of a name that its
link leads to -/
inductive TooLong : List Name → Prop
  | directory {names : List Name} (node : t.get? (locationFrom top names) = some .directory)
      (long : isLongText (path root names).text = true) : TooLong names
  | link {names : List Name} {n : Name} {target : List Char}
      (node : t.get? (n :: locationFrom top names) = some (.link target))
      (long : isLongText (Tree.entryText (path root names) n) = true ∨
        t.target? cwd (path root (names ++ [n])) = .error .nameTooLong) : TooLong (names ++ [n])
  | candidate {names : List Name} {n : Name}
      (node : (t.get? (n :: locationFrom top names)).isSome)
      (wanted : ∀ m ∈ names, m ∉ excludedNames) (ends : extension <:+ n)
      (long : isLongText (path root (names ++ [n])).text = true) : TooLong (names ++ [n])

/-- the names lead to a directory below the deepest that a walk goes down to -/
structure TooDeep (names : List Name) : Prop where
  node : t.get? (locationFrom top names) = some .directory
  deep : walkLimit < names.length

/-- `f` is the failure of an entry that cannot be looked at: something too long or too deep -/
def Obstacle (f : Failure) : Prop :=
  ((∃ text, f = .refused .nameTooLong text) ∧ ∃ names, TooLong t cwd root top extension names) ∨
    f = .tooDeep ∧ ∃ names, TooDeep t top names

/-- whether the names are those of a file to work on -/
def keepsSource (names : List Name) : Except Failure Bool :=
  eligible t cwd (.value extension) (path root names) names

end

/-- nothing is too deep in a tree without long locations -/
theorem not_tooDeep {t : Tree} (ht : ∀ l ∈ t.locations, l.length ≤ walkLimit) (top : Location)
    (names : List Name) : ¬ TooDeep t top names := by
  rintro ⟨hnode, hdeep⟩
  have hne : locationFrom top names ≠ [] := by
    intro he
    rw [List.reverse_eq_nil_iff.mp (List.append_eq_nil_iff.mp he).1] at hdeep
    exact absurd hdeep (Nat.not_lt_zero walkLimit)
  have hle := ht _ ((Tree.isSome_get?_iff hne).mp (Option.isSome_of_eq_some hnode))
  rw [locationFrom, List.length_append, List.length_reverse] at hle
  omega

namespace Opens
variable {t : Tree} {cwd top : Location} {root : Path} (h : Opens t cwd root top)
  {extension : List Char} {atoms : List Glob.Atom} {names : List Name} {n : Name}
include h

theorem ok_mem_adds_iff {ms : List Name} :
    .ok ms ∈ adds t cwd root top atoms names ↔
      t.get? (locationFrom top names) = some .directory ∧ isLongText (path root names).text = false ∧
        ∃ n ∈ t.children (locationFrom top names), Glob.fits atoms n = true ∧ ms = names ++ [n] := by
  unfold adds
  split
  · next hd =>
    have hlisting : .ok ms ∉ listing t cwd root names := ok_not_mem_after
    rw [List.mem_append, or_iff_left hlisting, matching_eq, h.list_directory hd]
    cases isLongText (path root names).text with
    | true => simp [hd]
    | false =>
      show Except.ok ms ∈ List.map _ _ ↔ _
      simp only [List.mem_map, List.mem_filter, List.mem_mergeSort, hd, true_and]
      constructor
      · rintro ⟨n, ⟨hn, hf⟩, he⟩
        exact ⟨n, hn, hf, (Except.ok.inj he).symm⟩
      · rintro ⟨n, hn, hf, rfl⟩
        exact ⟨n, ⟨hn, hf⟩, rfl⟩
  · next hl =>
    rw [hl]
    simp [looking, ok_not_mem_after]
  · next hd hl =>
    constructor
    · intro hm
      cases hm
    · rintro ⟨he, -⟩
      exact absurd he hd

variable (extension) in
/-- a failure on the way is that of an entry that cannot be looked at -/
theorem obstacle_of_error {f : Failure} (hf : .error f ∈ adds t cwd root top atoms names) :
    Obstacle t cwd root top extension f := by
  unfold adds at hf
  split at hf
  · next hd =>
    rcases List.mem_append.mp hf with hf | hf
    · rw [matching_eq, h.list_directory hd] at hf
      cases hl : isLongText (path root names).text with
      | true =>
        rw [hl] at hf
        exact .inl ⟨⟨_, Except.error.inj (List.mem_singleton.mp hf)⟩, names, .directory hd hl⟩
      | false =>
        rw [hl] at hf
        simp at hf
    · rw [listing, h.enter_directory hd] at hf
      split at hf
      · next hdeep =>
        exact .inr ⟨Except.error.inj (List.mem_singleton.mp hf), names, hd, hdeep⟩
      · split at hf
        · next hl =>
          exact .inl ⟨⟨_, Except.error.inj (List.mem_singleton.mp hf)⟩, names, .directory hd hl⟩
        · cases hf
  · next target hl =>
    rcases List.eq_nil_or_concat names with rfl | ⟨dirs, m, rfl⟩
    · have hd := Tree.isDirectory_iff.mp h.isDirectory
      rw [show locationFrom top [] = top from rfl, hd] at hl
      cases hl
    · rw [List.concat_eq_append] at hf hl
      rw [List.dropLast_concat, List.getLast?_concat] at hf
      rw [locationFrom_concat] at hl
      have hnull := h.null_not_mem_entryText (Option.isSome_of_eq_some hl)
      have hf : .error f ∈ looking t cwd root dirs m := hf
      rw [looking, h.entryLeadsToDirectory_link hl] at hf
      rcases Tree.ask_cases hnull (path root (dirs ++ [m])) t.isDirectory with
        ⟨hlong, hask⟩ | ⟨-, -, hask⟩
      · rw [hask] at hf
        exact .inl ⟨⟨_, Except.error.inj (List.mem_singleton.mp hf)⟩, _, .link hl hlong⟩
      · rw [hask] at hf
        cases hf
  · cases hf

theorem exists_error_of_directory (hd : t.get? (locationFrom top names) = some .directory)
    (hlong : isLongText (path root names).text = true) :
    ∃ f, .error f ∈ adds t cwd root top atoms names := by
  refine ⟨.refused .nameTooLong (path root names).text, ?_⟩
  unfold adds
  rw [hd]
  refine List.mem_append_left _ ?_
  rw [matching_eq, h.list_directory hd, hlong]
  exact List.mem_singleton_self _

theorem exists_error_of_deep (hdeep : TooDeep t top names) :
    ∃ f, .error f ∈ adds t cwd root top atoms names := by
  refine ⟨.tooDeep, ?_⟩
  unfold adds
  rw [hdeep.node]
  refine List.mem_append_right _ ?_
  rw [listing, h.enter_directory hdeep.node, if_pos hdeep.deep]
  exact List.mem_singleton_self _

theorem exists_error_of_link {target : List Char}
    (hl : t.get? (n :: locationFrom top names) = some (.link target))
    (hlong : isLongText (Tree.entryText (path root names) n) = true ∨
      t.target? cwd (path root (names ++ [n])) = .error .nameTooLong) :
    ∃ f, .error f ∈ adds t cwd root top atoms (names ++ [n]) := by
  have hnull := h.null_not_mem_entryText (Option.isSome_of_eq_some hl)
  refine ⟨.refused .nameTooLong (Tree.entryText (path root names) n), ?_⟩
  rw [adds_of_link hl, looking, h.entryLeadsToDirectory_link hl]
  rcases Tree.ask_cases hnull (path root (names ++ [n])) t.isDirectory with
    ⟨-, hask⟩ | ⟨hshort, hne, -⟩
  · rw [hask]
    exact List.mem_singleton_self _
  · rcases hlong with hlong | hlong
    · rw [hshort] at hlong
      cases hlong
    · exact absurd hlong hne

/-! ## what is kept -/

omit h in
theorem keepsSource_concat :
    keepsSource t cwd root extension (names ++ [n]) =
      if names.any excludedNames.contains then .ok false
      else if extension.isSuffixOf n then t.leadsToFile cwd (path root (names ++ [n]))
      else .ok false := by
  unfold keepsSource eligible
  rw [List.dropLast_concat, lastName_path]
  rfl

theorem isSource_concat (hs : (t.get? (n :: locationFrom top names)).isSome)
    (hw : ∀ m ∈ names, m ∉ excludedNames) (he : extension <:+ n) :
    IsSource t cwd root top extension (names ++ [n]) ↔
      (∃ bs, t.get? (n :: locationFrom top names) = some (.file bs)) ∨
        ∃ target l, t.get? (n :: locationFrom top names) = some (.link target) ∧
          t.target? cwd (path root (names ++ [n])) = .ok l ∧ (t.bytes? l).isSome := by
  rw [← locationFrom_concat]
  constructor
  · exact fun hsource => hsource.file
  · intro hfile
    refine ⟨fun ns _ hns => ?_, ?_, ⟨n, List.getLast?_concat, he⟩, hfile⟩
    · rw [List.dropLast_concat] at hns
      obtain ⟨ms, rfl⟩ := hns
      have hs' : (t.get? (locationFrom (locationFrom top ns) (ms ++ [n]))).isSome := by
        rwa [← locationFrom_append, ← List.append_assoc, locationFrom_concat]
      exact Tree.isDirectory_iff.mp (h.wellFormed.isDirectory_above (by simp) hs')
    · rw [List.dropLast_concat]
      exact hw

theorem target?_real (hs : (t.get? (n :: locationFrom top names)).isSome)
    (hl : ∀ target, t.get? (n :: locationFrom top names) ≠ some (.link target)) :
    t.target? cwd (path root (names ++ [n])) = .ok (n :: locationFrom top names) := by
  obtain ⟨node, hnode⟩ := Option.isSome_iff_exists.mp hs
  cases node with
  | file bs => exact h.wellFormed.target?_file h.target hnode
  | directory =>
    rw [← locationFrom_concat] at hnode ⊢
    exact h.wellFormed.target?_directory h.target (Tree.isDirectory_iff.mpr hnode)
  | link target => exact absurd hnode (hl target)

/-- the path of a candidate leads to a file exactly if the candidate is a source -/
theorem leadsToFile_candidate (hs : (t.get? (n :: locationFrom top names)).isSome)
    (hw : ∀ m ∈ names, m ∉ excludedNames) (he : extension <:+ n) :
    TooLong t cwd root top extension (names ++ [n]) ∧
      (∃ text, t.leadsToFile cwd (path root (names ++ [n])) = .error (.refused .nameTooLong text)) ∨
    isLongText (path root (names ++ [n])).text = false ∧
      ∃ b, t.leadsToFile cwd (path root (names ++ [n])) = .ok b ∧
        (b = true ↔ IsSource t cwd root top extension (names ++ [n])) := by
  have hnull : '\x00' ∉ (path root (names ++ [n])).text :=
    h.null_not_mem_text (by rwa [locationFrom_concat])
  obtain ⟨node, hnode⟩ := Option.isSome_iff_exists.mp hs
  rcases Tree.ask_cases hnull (path root (names ++ [n])) fun l => (t.bytes? l).isSome with
    ⟨hlong, hask⟩ | ⟨hshort, -, hask⟩
  · refine .inl ⟨?_, _, hask⟩
    rcases hlong with hlong | hlong
    · exact .candidate hs hw he hlong
    · -- only a link leads to a name that is too long
      by_cases hl : ∃ target, t.get? (n :: locationFrom top names) = some (.link target)
      · obtain ⟨target, hl⟩ := hl
        exact .link hl (.inr hlong)
      · rw [h.target?_real hs fun target ht => hl ⟨target, ht⟩] at hlong
        cases hlong
  · refine .inr ⟨hshort, _, hask, ?_⟩
    rw [h.isSource_concat hs hw he, hnode]
    cases node with
    | file bs =>
      rw [h.target?_real hs (by rw [hnode]; simp)]
      show (t.bytes? (n :: locationFrom top names)).isSome = true ↔ _
      simp [Tree.bytes?, hnode]
    | directory =>
      rw [h.target?_real hs (by rw [hnode]; simp)]
      show (t.bytes? (n :: locationFrom top names)).isSome = true ↔ _
      simp [Tree.bytes?, hnode]
    | link target =>
      cases t.target? cwd (path root (names ++ [n])) <;> simp

variable (extension) in
/-- what is come upon is kept exactly if it is a source, unless it is too long to be looked at -/
theorem keepsSource_cases (hs : (t.get? (n :: locationFrom top names)).isSome) :
    TooLong t cwd root top extension (names ++ [n]) ∧
      (∃ text, keepsSource t cwd root extension (names ++ [n]) =
        .error (.refused .nameTooLong text)) ∨
    ((∀ m ∈ names, m ∉ excludedNames) ∧ extension <:+ n →
        isLongText (path root (names ++ [n])).text = false) ∧
      ∃ b, keepsSource t cwd root extension (names ++ [n]) = .ok b ∧
        (b = true ↔ IsSource t cwd root top extension (names ++ [n])) := by
  rw [keepsSource_concat]
  by_cases hw : ∀ m ∈ names, m ∉ excludedNames
  · have hany : names.any excludedNames.contains = false := by simpa using hw
    rw [hany, if_neg (by decide)]
    by_cases he : extension <:+ n
    · rw [if_pos (List.isSuffixOf_iff_suffix.mpr he)]
      rcases h.leadsToFile_candidate hs hw he with hlong | ⟨hshort, hb⟩
      · exact .inl hlong
      · exact .inr ⟨fun _ => hshort, hb⟩
    · rw [if_neg (mt List.isSuffixOf_iff_suffix.mp he)]
      refine .inr ⟨fun hc => absurd hc.2 he, false, rfl, ?_⟩
      refine ⟨fun hb => (by cases hb), fun hsource => ?_⟩
      obtain ⟨m, hm, hends⟩ := hsource.ends
      rw [List.getLast?_concat] at hm
      cases hm
      exact absurd hends he
  · have hany : names.any excludedNames.contains = true := by
      simpa using hw
    rw [hany, if_pos rfl]
    refine .inr ⟨fun hc => absurd hc.1 hw, false, rfl, ?_⟩
    refine ⟨fun hb => (by cases hb), fun hsource => ?_⟩
    have hwanted := hsource.wanted
    rw [List.dropLast_concat] at hwanted
    exact absurd hwanted hw

end Opens

end Discovery

end Rebind
