import Rebind.Proofs.Legible

/-!
# Specifiers lead back, by the shortest way

A way from a directory to a target goes up to where the two part and then down (`exists_cut`).
Taken from the directory it resolves to the target (`Path.resolveNames_way`), and so does its
specifier: turning backslashes and putting `./` in front changes no name of it, if it holds no
backslash (`ofText_specifierOf`).

No relative path goes up less often.  Each `..` takes at most one name away, so what is left of the
directory is at the head of the target too (`take_isPrefix_foldl`), and there the two agree no
further than to where they part.
-/

namespace Rebind

namespace Path

/-! ## where two lists of names part -/

/-- the two lists begin with `top`, and with nothing longer -/
structure LongestShared (top a b : List Name) : Prop where
  left : top <+: a
  right : top <+: b
  longest : ∀ p, p <+: a → p <+: b → p.length ≤ top.length

theorem LongestShared.nil {a b : List Name} (h : ∀ n, a.head? = some n → b.head? ≠ some n) :
    LongestShared [] a b := by
  refine ⟨List.nil_prefix, List.nil_prefix, ?_⟩
  intro p ha hb
  cases p with
  | nil => exact Nat.le_refl 0
  | cons n p =>
    obtain ⟨x, rfl⟩ := ha
    obtain ⟨y, rfl⟩ := hb
    exact absurd rfl (h n rfl)

theorem LongestShared.cons {top a b : List Name} (h : LongestShared top a b) (n : Name) :
    LongestShared (n :: top) (n :: a) (n :: b) := by
  refine ⟨List.cons_prefix_cons.mpr ⟨rfl, h.left⟩, List.cons_prefix_cons.mpr ⟨rfl, h.right⟩, ?_⟩
  intro p ha hb
  cases p with
  | nil => exact Nat.zero_le _
  | cons m p =>
    obtain ⟨-, ha⟩ := List.cons_prefix_cons.mp ha
    obtain ⟨-, hb⟩ := List.cons_prefix_cons.mp hb
    exact Nat.succ_le_succ (h.longest p ha hb)

/-- two lists of names share their longest common head, and that many names are counted -/
theorem exists_longestShared (a b : List Name) :
    ∃ top, LongestShared top a b ∧ sharedLength a b = top.length := by
  induction a generalizing b with
  | nil => exact ⟨[], .nil (by simp), by simp [sharedLength]⟩
  | cons n a ih =>
    cases b with
    | nil => exact ⟨[], .nil (by simp), by simp [sharedLength]⟩
    | cons m b =>
      by_cases hn : n = m
      · subst hn
        obtain ⟨top, htop, hlen⟩ := ih b
        refine ⟨n :: top, htop.cons n, ?_⟩
        rw [sharedLength, if_pos rfl, hlen, List.length_cons]
      · refine ⟨[], .nil ?_, if_neg hn⟩
        intro k hk
        cases hk
        rw [List.head?_cons, Ne, Option.some.injEq]
        exact fun he => hn he.symm

/-- a directory and a target part somewhere, and the way goes up to there and down again -/
theorem exists_cut (dir target : List Name) : ∃ top dirs down, LongestShared top dir target ∧
    dir = top ++ dirs ∧ target = top ++ down ∧
    wayNames dir target = List.replicate dirs.length dots ++ down := by
  obtain ⟨top, htop, hlen⟩ := exists_longestShared dir target
  obtain ⟨dirs, rfl⟩ := htop.left
  obtain ⟨down, rfl⟩ := htop.right
  refine ⟨top, dirs, down, htop, rfl, rfl, ?_⟩
  show List.replicate ((top ++ dirs).length - sharedLength (top ++ dirs) (top ++ down)) dots ++
    (top ++ down).drop (sharedLength (top ++ dirs) (top ++ down)) = _
  rw [hlen, List.length_append, Nat.add_sub_cancel_left, List.drop_left]

/-! ## no way goes up less often -/

/-- what is left of `start` after `ns` lost at most one name for each `..` -/
theorem take_isPrefix_foldl (start ns : List Name) :
    start.take (start.length - ns.count dots) <+: ns.foldl resolveName start := by
  induction ns generalizing start with
  | nil => simp
  | cons n ns ih =>
    by_cases hn : n = dots
    · have hstep : resolveName start n = start.dropLast := if_pos hn
      have htake : start.take (start.length - (n :: ns).count dots) =
          start.dropLast.take (start.dropLast.length - ns.count dots) := by
        rw [hn, List.count_cons_self, List.length_dropLast, List.dropLast_eq_take, List.take_take]
        congr 1
        omega
      rw [htake, List.foldl_cons, hstep]
      exact ih start.dropLast
    · have hstep : resolveName start n = start ++ [n] := if_neg hn
      have htake : start.take (start.length - (n :: ns).count dots) =
          (start ++ [n]).take (start.length - ns.count dots) := by
        rw [List.count_cons_of_ne hn, List.take_append_of_le_length (Nat.sub_le _ _)]
      have hle : start.length - ns.count dots ≤ (start ++ [n]).length - ns.count dots := by
        rw [List.length_append]
        omega
      rw [htake, List.foldl_cons, hstep]
      exact (List.take_prefix_take_left hle).trans (ih (start ++ [n]))

theorem LongestShared.le_count {top dir target ns : List Name} (h : LongestShared top dir target)
    (hdir : dots ∉ dir) (hns : resolveNames (dir ++ ns) = target) :
    dir.length - top.length ≤ ns.count dots := by
  have hleft : dir.take (dir.length - ns.count dots) <+: target := by
    rw [← hns, resolveNames, List.foldl_append, foldl_resolveName hdir]
    exact take_isPrefix_foldl dir ns
  have hle := h.longest _ (List.take_prefix _ _) hleft
  rw [List.length_take] at hle
  omega

end Path

/-! ## names of a way and of its specifier -/

/-- a path takes its names from the directory that it starts from and from its text -/
theorem Path.mem_absoluteNames {cwd : List Name} {s : List Char} {n : Name}
    (h : n ∈ (ofText s).absoluteNames cwd) : n ∈ cwd ∨ n ∈ namesOf s := by
  have hm := mem_of_mem_resolveNames h
  split at hm
  · exact .inr hm
  · exact List.mem_append.mp hm

/-- the specifier of a way has the names of the way -/
theorem ofText_specifierOf {way : List Name} (hparts : ∀ n ∈ way, IsPart n)
    (hback : ∀ n ∈ way, '\\' ∉ n) :
    Path.ofText (specifierOf (Path.wayText way)) = ⟨.here, way⟩ := by
  by_cases hway : way = []
  · subst hway
    decide
  have hslash : '\\' ∉ joinSlash way := by
    rw [mem_joinSlash (by decide)]
    rintro ⟨n, hn, hc⟩
    exact hback n hn hc
  have hnames : namesOf (joinSlash way) = way := namesOf_joinSlash hparts
  have hhere : Anchor.ofText (joinSlash way) = .here :=
    Path.anchor_ofText .here (head?_joinSlash_ne hparts)
  have hdot : namesOf ('.' :: '/' :: joinSlash way) = namesOf (joinSlash way) := rfl
  rw [Path.wayText, if_neg hway, Discovery.specifierOf_eq hslash]
  split
  · rw [Path.ofText, hhere, hnames]
  · rw [Path.ofText, hdot, hnames]
    rfl

/-! ## from a directory -/

/-- where a text leads from the directory `dir`, resolved lexically -/
def Path.endFrom (dir : Path) (s : List Char) : List Name := ((dir.join (ofText s)).absolute []).names

theorem Path.endFrom_eq {dir : Path} (hdir : dir.isAbsolute = true) {s : List Char}
    (hs : (ofText s).isAbsolute = false) :
    dir.endFrom s = resolveNames (dir.names ++ namesOf s) := by
  have hjoin : dir.join (ofText s) = { dir with names := dir.names ++ namesOf s } := by
    rw [join, hs]
    rfl
  have habs : Path.isAbsolute { dir with names := dir.names ++ namesOf s } = true := hdir
  rw [endFrom, hjoin]
  show absoluteNames [] { dir with names := dir.names ++ namesOf s } = _
  rw [absoluteNames, if_pos habs]

/-- **A specifier leads back by the shortest way.**  Taken from the directory of the source it
leads to the target, name by name.  It begins with as many `..` as the directory has names below the
longest head that it shares with the target, and has no other; and no relative path that leads there
has fewer. -/
theorem importPath_leads_back (source target : List Char) (htarget : '\\' ∉ target) :
    let dir := (Path.ofText source).parent.absolute []
    let goal := ((Path.ofText target).absolute []).names
    let specifier := importPath [] (Path.ofText source) (Path.ofText target)
    dir.endFrom specifier = goal ∧
    ∃ top, Path.LongestShared top dir.names goal ∧
      (∃ down, dots ∉ down ∧
        namesOf specifier = List.replicate (dir.names.length - top.length) dots ++ down) ∧
      ∀ s, (Path.ofText s).isAbsolute = false → dir.endFrom s = goal →
        dir.names.length - top.length ≤ (namesOf s).count dots := by
  intro dir goal specifier
  obtain ⟨hdir, hdirDots⟩ := Path.isResolved_iff.mp (Path.isResolved_absolute [] (Path.ofText source).parent)
  have hgoalDots : dots ∉ goal := Path.dots_not_mem_resolveNames _
  obtain ⟨top, dirs, down, htop, hcut, hgoal, hway⟩ := Path.exists_cut dir.names goal
  have hlen : dir.names.length - top.length = dirs.length := by
    rw [hcut, List.length_append, Nat.add_sub_cancel_left]
  have hdownGoal : ∀ n ∈ down, n ∈ goal := fun n hn => hgoal ▸ List.mem_append_right top hn
  have hdownDots : dots ∉ down := fun hm => hgoalDots (hdownGoal _ hm)
  have hread : Path.ofText specifier = ⟨.here, List.replicate dirs.length dots ++ down⟩ := by
    have hnames : ∀ n ∈ List.replicate dirs.length dots ++ down, IsPart n ∧ '\\' ∉ n := by
      intro n hn
      rcases List.mem_append.mp hn with hn | hn
      · rw [List.eq_of_mem_replicate hn]
        exact ⟨isPart_dots, by decide⟩
      · have hm := (Path.mem_absoluteNames (hdownGoal n hn)).resolve_left List.not_mem_nil
        exact ⟨isPart_of_mem_namesOf hm,
          fun hc => htarget (of_mem_splitSlash (List.mem_of_mem_filter hm) hc).1⟩
    have hspecifier : specifier = specifierOf (Path.wayText (Path.wayNames dir.names goal)) := rfl
    rw [hspecifier, hway]
    exact ofText_specifierOf (fun n hn => (hnames n hn).1) (fun n hn => (hnames n hn).2)
  have hrelative : (Path.ofText specifier).isAbsolute = false := by rw [hread]; rfl
  have hsplit : namesOf specifier = List.replicate dirs.length dots ++ down :=
    congrArg Path.names hread
  refine ⟨?_, top, htop, ⟨down, hdownDots, by rw [hsplit, hlen]⟩, ?_⟩
  · rw [Path.endFrom_eq hdir hrelative, hsplit, hgoal]
    show Path.resolveNames (dir.names ++ _) = _
    rw [hcut]
    exact Path.resolveNames_way (fun hm => hgoalDots (hgoal ▸ List.mem_append_left down hm))
      (fun hm => hdirDots (hcut ▸ List.mem_append_right top hm)) hdownDots
  · intro s hs hend
    rw [Path.endFrom_eq hdir hs] at hend
    exact htop.le_count hdirDots hend

/-- the directory of a path that ends in `..` is the path up to there -/
theorem importPath_leads_back_up :
    '\\' ∉ "b//e/../f/./.x".toList ∧
    importPath [] (Path.ofText "x/../../b/c/d/..".toList) (Path.ofText "b//e/../f/./.x".toList) =
      "../../f/.x".toList ∧
    (Path.ofRoot ["b".toList, "c".toList, "d".toList]).endFrom "../../f/.x".toList =
      ["b".toList, "f".toList, ".x".toList] ∧
    ∀ s, (Path.ofText s).isAbsolute = false →
      (Path.ofRoot ["b".toList, "c".toList, "d".toList]).endFrom s =
        ["b".toList, "f".toList, ".x".toList] → 2 ≤ (namesOf s).count dots := by
  have htarget : '\\' ∉ "b//e/../f/./.x".toList := by decide
  obtain ⟨hback, top, -, ⟨down, hdown, hnames⟩, hleast⟩ :=
    importPath_leads_back "x/../../b/c/d/..".toList "b//e/../f/./.x".toList htarget
  have hspecifier : importPath [] (Path.ofText "x/../../b/c/d/..".toList)
      (Path.ofText "b//e/../f/./.x".toList) = "../../f/.x".toList := by decide
  have hdir : (Path.ofText "x/../../b/c/d/..".toList).parent.absolute [] =
      .ofRoot ["b".toList, "c".toList, "d".toList] := by decide
  have hgoal : ((Path.ofText "b//e/../f/./.x".toList).absolute []).names =
      ["b".toList, "f".toList, ".x".toList] := by decide
  rw [hspecifier, hdir, hgoal] at hback
  rw [hspecifier, hdir] at hnames
  rw [hdir, hgoal] at hleast
  have hcount := congrArg (List.count dots) hnames
  rw [List.count_append, List.count_replicate_self, List.count_eq_zero_of_not_mem hdown] at hcount
  have htwo : 2 = (Path.ofRoot ["b".toList, "c".toList, "d".toList]).names.length - top.length := by
    rw [← Nat.add_zero (_ - _), ← hcount]
    decide
  exact ⟨htarget, hspecifier, hback, fun s hs hend => htwo ▸ hleast s hs hend⟩

end Rebind
