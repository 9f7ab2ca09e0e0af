import Rebind.Invocation
import Rebind.Proofs.Groups
import Rebind.Proofs.Legible

/-!
# A default root in front of the command line

A standalone start puts a root of its own before the arguments, unless one of them names the root
in full.  Such an argument is looked for by its text alone, wherever it stands, and abbreviations
are not looked for; yet the root that is asked for is never lost and never overridden:

* the two arguments in front are one more group, which acts first, so any root given later takes
  its place (`settingsOf_cons_root`);
* whether and why reading ends does not depend on what was set before (`sameEnd_fold`);
* in a row of groups an argument that names the root in full belongs to a group that gives one
  (`isSome_root_of_namesRoot`).

The root in front is a real path and a name more, so it is read back as what it was.
-/

namespace Rebind

namespace Arguments

/-! ## why reading ends -/

/-- reading ends in one way whatever is set before, or goes on whatever is set before -/
def SameEnd (read : Settings → Except Stop Settings) : Prop :=
  (∃ stop, ∀ s, read s = .error stop) ∨ ∀ s, ∃ s', read s = .ok s'

namespace SameEnd
variable {read next : Settings → Except Stop Settings}

theorem error (stop : Stop) : SameEnd fun _ => .error stop := .inl ⟨stop, fun _ => rfl⟩

theorem ok (set : Settings → Settings) : SameEnd fun s => .ok (set s) := .inr fun s => ⟨set s, rfl⟩

theorem comp (h : SameEnd read) (set : Settings → Settings) : SameEnd fun s => read (set s) :=
  h.imp (fun ⟨stop, hstop⟩ => ⟨stop, fun s => hstop (set s)⟩) fun hgo s => hgo (set s)

theorem bind (h : SameEnd read) (hnext : SameEnd next) : SameEnd fun s => read s >>= next := by
  rcases h with ⟨stop, hstop⟩ | hgo
  · refine .inl ⟨stop, fun s => ?_⟩
    show read s >>= next = _
    rw [hstop]
    rfl
  · have hstep : ∀ s, ∃ s', (read s >>= next) = next s' := by
      intro s
      obtain ⟨s', hs'⟩ := hgo s
      exact ⟨s', by rw [hs']; rfl⟩
    rcases hnext with ⟨stop, hstop⟩ | hnext
    · refine .inl ⟨stop, fun s => ?_⟩
      obtain ⟨s', hs'⟩ := hstep s
      exact hs'.trans (hstop s')
    · refine .inr fun s => ?_
      obtain ⟨s', hs'⟩ := hstep s
      obtain ⟨s'', hs''⟩ := hnext s'
      exact ⟨s'', hs'.trans hs''⟩

theorem eq_error_iff (h : SameEnd read) (s s' : Settings) {stop : Stop} :
    read s = .error stop ↔ read s' = .error stop := by
  rcases h with ⟨stop', hstop⟩ | hgo
  · rw [hstop, hstop]
  · obtain ⟨r, hr⟩ := hgo s
    obtain ⟨r', hr'⟩ := hgo s'
    rw [hr, hr']
    constructor <;> intro he <;> cases he

end SameEnd

theorem sameEnd_act (f : Flag) : SameEnd fun s => f.act s := by
  cases f with
  | help => exact .error .help
  | check => exact .ok fun s => { s with check := true }
  | verbose => exact .ok fun s => { s with verbose := s.verbose + 1 }

theorem sameEnd_foldlM (fs : List Flag) : SameEnd fun s => fs.foldlM Flag.act s := by
  induction fs with
  | nil => exact .ok id
  | cons f fs ih =>
    simp only [List.foldlM_cons]
    exact (sameEnd_act f).bind ih

/-- whether and why reading ends does not depend on what was set before -/
theorem sameEnd_fold (stray : List (List Char)) (ts : List Token) :
    SameEnd fun s => fold s stray ts := by
  fun_induction fold ({} : Settings) stray ts with
  | case1 => exact .ok id
  | case2 _ stray hne =>
    simp only [fold, if_neg hne]
    exact .error _
  | case3 _ _ _ _ ih => exact ih
  | case4 _ _ _ ih => exact ih
  | case5 _ _ _ _ ih => exact ih
  | case6 _ _ v s _ ih => exact ih.comp fun settings => v.set settings s
  | case7 _ _ v s _ ih => exact ih.comp fun settings => v.set settings s
  | case8 _ _ v rest hrest =>
    refine .inl ⟨.refused (.expectedValue v), fun s => ?_⟩
    dsimp only
    rw [fold]
    exact hrest
  | case9 => exact .error _
  | case10 s _ f _ ih => exact (sameEnd_act f).bind (ih s)
  | case11 s _ f carried ts ih =>
    cases hfs : shortFlags f carried with
    | error stop =>
      simp only [fold, hfs]
      exact .error stop
    | ok fs =>
      simp only [fold, hfs]
      exact (sameEnd_foldlM fs).bind (ih s)

/-! ## one more group in front -/

def rootGroup (dir : List Char) : Group := .followed .root "--root".toList dir

theorem rootGroup_valid {dir : List Char} (h : dir.head? = some '/') : (rootGroup dir).Valid := by
  refine ⟨⟨by decide, List.prefix_rfl⟩, .inl ?_, ?_⟩
  · rw [h]
    decide
  · rintro rfl
    cases h

theorem rootGroup_value?_ne {dir : List Char} (h : dir.head? = some '/') (v : Valued) :
    (rootGroup dir).value? v ≠ some dividerText := by
  show (if Valued.root = v then some dir else none) ≠ _
  split
  · rw [Ne, Option.some.injEq]
    rintro rfl
    cases h
  · simp

theorem settingsOf_cons_root (dir : List Char) (gs : List Group) :
    settingsOf (rootGroup dir :: gs) =
      { settingsOf gs with
        root := .value (((lastValue? .root gs).map Path.ofText).getD (Path.ofText dir)) } := by
  have hroot : lastValue? .root (rootGroup dir :: gs) = some ((lastValue? .root gs).getD dir) := by
    unfold lastValue?
    rw [List.filterMap_cons_some (show (rootGroup dir).value? .root = some dir from rfl),
      List.getLast?_cons]
  have hother : ∀ v, Valued.root ≠ v → lastValue? v (rootGroup dir :: gs) = lastValue? v gs := by
    intro v hv
    unfold lastValue?
    rw [List.filterMap_cons_none (show (rootGroup dir).value? v = none from if_neg hv)]
  unfold settingsOf
  rw [hroot, hother .extension (by decide), hother .logFile (by decide), List.any_cons,
    List.map_cons, List.sum_cons]
  simp [rootGroup, Group.asksCheck, Group.verbosity, Option.getD_map]

/-- a root in front changes nothing about whether and why a command line is refused -/
theorem parse_cons_root_eq_error_iff {dir : List Char} (h : dir.head? = some '/')
    (as : List (List Char)) (stop : Stop) :
    parse ("--root".toList :: dir :: as) = .error stop ↔ parse as = .error stop := by
  have htokens := tokens_arguments (rootGroup_valid h) as
  have htokens : tokens ("--root".toList :: dir :: as) = _ := htokens
  unfold parse
  rw [htokens]
  cases tokens as with
  | error a => rfl
  | ok ts => exact (sameEnd_fold [] ts).eq_error_iff (Valued.root.set {} dir) {}

/-! ## roots that are named in full -/

theorem exists_spelled_of_namesRoot {a : List Char} (h : namesRoot a = true) :
    ∃ carried, a = spelled "--root".toList carried := by
  rw [namesRoot, Bool.or_eq_true, decide_eq_true_iff, List.isPrefixOf_iff_prefix] at h
  rcases h with rfl | ⟨value, rfl⟩
  · exact ⟨none, rfl⟩
  · exact ⟨some value, rfl⟩

theorem eq_root_of_namesRoot {head : List Char} {o : Opt} (habb : Abbreviates head o)
    (carried : Option (List Char)) (h : namesRoot (spelled head carried) = true) :
    o = .valued .root := by
  obtain ⟨carried', hc⟩ := exists_spelled_of_namesRoot h
  have hsplit := splitEquals_spelled habb.not_mem carried
  rw [hc, splitEquals_spelled (by decide)] at hsplit
  obtain rfl : "--root".toList = head := (Prod.mk.inj hsplit).1
  have hbegins : "--root".toList <+: (Opt.valued .root).long := List.prefix_rfl
  exact (habb.unique hbegins).symm

theorem dashes_of_namesRoot {a : List Char} (h : namesRoot a = true) :
    ∃ s, a = '-' :: '-' :: s := by
  obtain ⟨carried, rfl⟩ := exists_spelled_of_namesRoot h
  have hdashes : "--root".toList = '-' :: '-' :: "root".toList := rfl
  exact spelled_dashes _ hdashes carried

theorem not_isPlain_of_namesRoot {a : List Char} (h : namesRoot a = true) : ¬ IsPlain a := by
  obtain ⟨carried, hc⟩ := exists_spelled_of_namesRoot h
  have hroot : '=' ∉ "--root".toList := by decide
  have hsplit := splitEquals_spelled hroot carried
  obtain ⟨s, rfl⟩ := dashes_of_namesRoot h
  rw [← hc] at hsplit
  rintro (hhead | hone | ⟨hnames, -⟩)
  · exact hhead rfl
  · cases hone
  · refine hnames (namesOption_dashes_iff.mpr ⟨.valued .root, ?_⟩)
    rw [hsplit]
    exact List.prefix_rfl

/-- in a row of groups an argument that names the root in full belongs to a group that gives one -/
theorem isSome_root_of_namesRoot {g : Group} (hg : g.Valid) {a : List Char} (ha : a ∈ g.arguments)
    (h : namesRoot a = true) : (g.value? .root).isSome := by
  obtain ⟨s, hs⟩ := dashes_of_namesRoot h
  cases g with
  | assigned v head value =>
    obtain rfl := List.mem_singleton.mp ha
    cases eq_root_of_namesRoot hg (some value) h
    rfl
  | followed v head value =>
    obtain ⟨hhead, hplain, -⟩ := hg
    rcases List.mem_cons.mp ha with rfl | ha
    · cases eq_root_of_namesRoot hhead none h
      rfl
    · obtain rfl := List.mem_singleton.mp ha
      exact absurd hplain (not_isPlain_of_namesRoot h)
  | flag f head =>
    obtain rfl := List.mem_singleton.mp ha
    cases eq_root_of_namesRoot hg.1 none h
  | letters more =>
    cases hs.symm.trans (List.mem_singleton.mp ha)
  | assignedLetters more =>
    cases hs.symm.trans (List.mem_singleton.mp ha)

theorem isSome_lastValue? {v : Valued} {gs : List Group} {g : Group} (hg : g ∈ gs)
    (h : (g.value? v).isSome) : (lastValue? v gs).isSome := by
  obtain ⟨value, hvalue⟩ := Option.isSome_iff_exists.mp h
  rw [lastValue?, List.getLast?_isSome]
  exact List.ne_nil_of_mem (List.mem_filterMap.mpr ⟨g, hg, hvalue⟩)

end Arguments

/-! ## the root of a standalone start -/

theorem Path.head?_text_of_isAbsolute {p : Path} (h : p.isAbsolute = true) :
    p.text.head? = some '/' := by
  have hbare : p.bareText.head? = some '/' := by
    unfold bareText
    unfold isAbsolute at h
    cases ha : p.anchor with
    | here => simp [ha] at h
    | root => rfl
    | twinRoot => rfl
  unfold text
  split
  · next he =>
    rw [he] at hbare
    cases hbare
  · exact hbare

namespace Invocation
variable {t : Tree} {cwd : Location} {file base : Path}

/-- the root of a standalone start is absolute, and its text says all there is to it -/
theorem join_defaultRoot_of_baseOf (hcwd : ∀ n ∈ cwd, IsName n) (h : baseOf t cwd file = .ok base) :
    (base.join defaultRoot).isAbsolute = true ∧
      Path.ofText (base.join defaultRoot).text = base.join defaultRoot := by
  obtain ⟨real, hreal, h⟩ := bind_eq_ok_iff.mp h
  have hbase : real.parent.parent = base := by
    split at h
    · cases h
    · exact Except.ok.inj h
  have hjoin : base.join defaultRoot = ⟨real.anchor, real.names.dropLast.dropLast ++ ["convex".toList]⟩ := by
    rw [← hbase]
    rfl
  have hparts : real.HasParts := Tree.isPart_of_realPath (fun n hn => (hcwd n hn).isPart) hreal
  rw [hjoin]
  refine ⟨(Path.isResolved_iff.mp (Tree.isResolved_of_realPath hreal)).1, Path.ofText_text ?_⟩
  intro n hn
  rcases List.mem_append.mp hn with hn | hn
  · exact hparts n (List.dropLast_subset _ (List.dropLast_subset _ hn))
  · rw [List.mem_singleton.mp hn]
    exact ⟨by decide, by decide, by decide⟩

end Invocation

namespace Arguments

/-- a standalone start is refused, or ends in the help text, exactly if the same start without a
root in front is, and for the same reason; otherwise it sets the same, and for the root the last
one that is asked for, or else its own -/
theorem withRoot_keeps_root {t : Tree} {cwd : Location} {file base : Path}
    (hcwd : ∀ n ∈ cwd, IsName n) (hbase : Invocation.baseOf t cwd file = .ok base)
    {as : List (List Char)} (h : NoneDivided as) :
    (∀ stop, parse (withRoot (base.join defaultRoot).text as) = .error stop ↔
      parse as = .error stop) ∧
    ∀ s, parse as = .ok s → IsRow as ∧
      ∀ gs : List Group, (∀ g ∈ gs, g.Valid) → as = gs.flatMap Group.arguments →
        parse (withRoot (base.join defaultRoot).text as) =
          .ok { s with
            root := .value (((lastValue? .root gs).map Path.ofText).getD (base.join defaultRoot)) } := by
  obtain ⟨habs, hread⟩ := Invocation.join_defaultRoot_of_baseOf hcwd hbase
  have hhead := Path.head?_text_of_isAbsolute habs
  by_cases hany : as.any namesRoot = true
  · -- a root is named in full, so nothing is put in front
    rw [withRoot, if_pos hany]
    refine ⟨fun stop => Iff.rfl, fun s hs => ⟨isRow_of_parse hs, ?_⟩⟩
    rintro gs hgs rfl
    rw [parse_row hgs h] at hs ⊢
    cases hs
    obtain ⟨a, ha, hnames⟩ := List.any_eq_true.mp hany
    obtain ⟨g, hg, ha⟩ := List.mem_flatMap.mp ha
    obtain ⟨value, hvalue⟩ := Option.isSome_iff_exists.mp
      (isSome_lastValue? hg (isSome_root_of_namesRoot (hgs g hg) ha hnames))
    rw [hvalue]
    simp [settingsOf, hvalue]
  · rw [withRoot, if_neg hany]
    refine ⟨parse_cons_root_eq_error_iff hhead as, fun s hs => ⟨isRow_of_parse hs, ?_⟩⟩
    rintro gs hgs rfl
    rw [parse_row hgs h] at hs
    cases hs
    have hrow := parse_groups (List.forall_mem_cons.mpr ⟨rootGroup_valid hhead, hgs⟩)
    rw [foldl_act, settingsOf_cons_root, hread] at hrow
    · exact hrow
    · refine List.forall_mem_cons.mpr ⟨rootGroup_value?_ne hhead, fun g hg => ?_⟩
      exact value?_ne_divider (hgs g hg) fun a ha => h a (List.mem_flatMap.mpr ⟨g, hg, ha⟩)

/-- a directory with a start in it, and a link to that from elsewhere -/
def linkedStart : Tree :=
  ⟨[(["w".toList], .directory), (["scripts".toList, "w".toList], .directory),
    (["start".toList, "scripts".toList, "w".toList], .file []), (["bin".toList], .directory),
    (["start".toList, "bin".toList], .link "../w/scripts/start".toList)]⟩

/-- a root under a name cut short, which is put behind one that is not asked for -/
theorem withRoot_keeps_cut_root :
    Invocation.baseOf linkedStart ["bin".toList] ⟨.here, ["start".toList]⟩ =
      .ok (.ofRoot ["w".toList]) ∧
    withRoot "/w/convex".toList ["--roo".toList, "x".toList, "-v".toList] =
      ["--root".toList, "/w/convex".toList, "--roo".toList, "x".toList, "-v".toList] ∧
    parse ["--root".toList, "/w/convex".toList, "--roo".toList, "x".toList, "-v".toList] =
      .ok { root := .value ⟨.here, ["x".toList]⟩, verbose := 1 } := by
  have hbase : Invocation.baseOf linkedStart ["bin".toList] ⟨.here, ["start".toList]⟩ =
      .ok (.ofRoot ["w".toList]) := by
    decide +kernel
  have hcwd : ∀ n ∈ ["bin".toList], IsName n := by decide +kernel
  have hnone : NoneDivided ["--roo".toList, "x".toList, "-v".toList] := by
    rintro a ha v head - rfl
    have hall : ∀ a ∈ ["--roo".toList, "x".toList, "-v".toList], ¬ '=' :: dividerText <:+ a := by
      decide
    exact hall _ ha (List.suffix_append head _)
  have hvalid : ∀ g ∈ [Group.followed .root "--roo".toList "x".toList, .letters 0], g.Valid := by
    simp only [List.forall_mem_cons, Group.Valid]
    exact ⟨⟨⟨by decide, by decide⟩, .inl (by decide), by decide⟩, trivial,
      fun _ h => absurd h List.not_mem_nil⟩
  have hparse : parse ["--roo".toList, "x".toList, "-v".toList] =
      .ok { root := .value ⟨.here, ["x".toList]⟩, verbose := 1 } := by
    decide +kernel
  obtain ⟨-, hok⟩ := withRoot_keeps_root hcwd hbase hnone
  exact ⟨hbase, by decide +kernel, (hok _ hparse).2 _ hvalid rfl⟩

end Arguments

end Rebind
