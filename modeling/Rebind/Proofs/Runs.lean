import Rebind.Proofs.Steps

/-!
# How a run ends

A call finds its files and works on them one after the other.  Either all of them can be read, and
it returns, or there is a first that cannot, and it ends there (`readable_or_first`).

* `run_fixes_first_paths`          a real run that returns: which paths it fixed, and what each
                                   file of the tree holds then;
* `run_stops_at_first_unreadable`  a run that fails: why, and what it leaves.

No write changes the layout, none makes a file unreadable, and a file that cannot be read is never
written; so what a run does is told from the tree it starts with.
-/

namespace Rebind.Batch

/-! ## calls -/

namespace Call
variable (c : Call)

def run (t : Tree) : Ending := Batch.run c.order c.sink c.cwd t

/-- works on the given paths below `root` alone -/
def workOn (root : Path) (paths : List (List Name)) (t : Tree) : Progress × Option Failure :=
  steps c.order c.sink root paths { tree := t }

/-- what a call has done when it has found its files -/
def opening (root : Path) (found : List (List Name)) (t : Tree) : Progress :=
  ({ tree := t } : Progress).log c.sink (discovered c.order root found.length)

section
variable {c} {t : Tree} {root : Path} {found : List (List Name)}

theorem run_of_noRoot {f : Failure} (h : t.realPath c.cwd c.order.root = .error f) :
    (c.run t).tree = t ∧ (c.run t).result = .error f := by
  rw [run, Batch.run, h]
  exact ⟨rfl, rfl⟩

theorem run_of_notFound (hroot : t.realPath c.cwd c.order.root = .ok root) {f : Failure}
    (h : Discovery.findNames t [] root c.order.extension = .error f) :
    (c.run t).tree = t ∧ (c.run t).result = .error f := by
  rw [run, Batch.run, hroot]
  dsimp only
  rw [h]
  exact ⟨rfl, rfl⟩

theorem run_of_found (hroot : t.realPath c.cwd c.order.root = .ok root)
    (hfound : Discovery.findNames t [] root c.order.extension = .ok found) :
    c.run t = match steps c.order c.sink root found (c.opening root found t) with
      | (p, some f) => ⟨p.tree, p.records, .error f⟩
      | (p, none) => ⟨p.tree, p.records, .ok p.summary⟩ := by
  rw [run, Batch.run, hroot]
  dsimp only
  rw [hfound]
  rfl

variable (c) in
theorem after_opening (t : Tree) (root : Path) (found : List (List Name)) :
    After c.order.check t root [] (c.opening root found t) :=
  .start c.order.check t root (c.tree_log _ _) (c.summary_log _ _)

/-- a run all of whose files can be read returns -/
theorem run_of_readable (hroot : t.realPath c.cwd c.order.root = .ok root)
    (hfound : Discovery.findNames t [] root c.order.extension = .ok found)
    (hr : ∀ names ∈ found, Readable t root names) :
    ∃ p, After c.order.check t root found p ∧ (c.run t).tree = p.tree ∧
      (c.run t).result = .ok p.summary := by
  obtain ⟨p, hp, h⟩ := (c.after_opening t root found).steps c hr
  rw [run_of_found hroot hfound, hp]
  exact ⟨p, h, rfl, rfl⟩

/-- a run ends at the first file that cannot be read, with the files before it dealt with -/
theorem run_of_unreadable (hroot : t.realPath c.cwd c.order.root = .ok root)
    {before rest : List (List Name)} {names : List Name} {fault : Utf8.Fault}
    (hfound : Discovery.findNames t [] root c.order.extension = .ok (before ++ names :: rest))
    (hr : ∀ ms ∈ before, Readable t root ms) (hn : Unreadable t root names fault) :
    ∃ p, After c.order.check t root before p ∧
      steps c.order c.sink root before (c.opening root (before ++ names :: rest) t) = (p, none) ∧
      (c.run t).tree = p.tree ∧ (c.run t).result = .error (.notUtf8 fault) := by
  obtain ⟨p, hp, h⟩ := (c.after_opening t root (before ++ names :: rest)).steps c hr
  have hs := h.step_unreadable c hr hn
  rw [run_of_found hroot hfound, steps_append _ _ _ hp, steps, hs]
  exact ⟨p, h, hp, rfl, rfl⟩

end

end Call

/-- found files can all be read, or there is a first that cannot -/
theorem readable_or_first {t : Tree} {root : Path} {found : List (List Name)}
    (h : ∀ names ∈ found, ∃ l, t.Reaches (Discovery.path root names) l) :
    (∀ names ∈ found, Readable t root names) ∨
      ∃ before names rest fault, found = before ++ names :: rest ∧
        (∀ ms ∈ before, Readable t root ms) ∧ Unreadable t root names fault := by
  induction found with
  | nil => exact .inl fun _ hn => absurd hn List.not_mem_nil
  | cons ns found ih =>
    obtain ⟨l, hl⟩ := h ns List.mem_cons_self
    rcases readable_or hl with hr | ⟨fault, hu⟩
    · rcases ih fun ms hms => h ms (List.mem_cons_of_mem _ hms) with
        hall | ⟨before, names, rest, fault, rfl, hb, hu⟩
      · exact .inl (List.forall_mem_cons.mpr ⟨hr, hall⟩)
      · exact .inr ⟨ns :: before, names, rest, fault, rfl, List.forall_mem_cons.mpr ⟨hr, hb⟩, hu⟩
    · exact .inr ⟨[], ns, found, fault, rfl, fun _ hn => absurd hn List.not_mem_nil, hu⟩

namespace Call

/-- the same call, dry or real -/
def inMode (check : Bool) (c : Call) : Call := { c with order := { c.order with check } }

/-- what a call meets, in either mode: a failure before the first file, files that can all be read,
or a first file that cannot -/
theorem meets (c : Call) (t : Tree) :
    (∃ f, ∀ check, ((c.inMode check).run t).tree = t ∧
      ((c.inMode check).run t).result = .error f) ∨
    ∃ root found, t.realPath c.cwd c.order.root = .ok root ∧
      Discovery.findNames t [] root c.order.extension = .ok found ∧
      ((∀ names ∈ found, Readable t root names) ∨
        ∃ before names rest fault, found = before ++ names :: rest ∧
          (∀ ms ∈ before, Readable t root ms) ∧ Unreadable t root names fault) := by
  cases hroot : t.realPath c.cwd c.order.root with
  | error f => exact .inl ⟨f, fun check => run_of_noRoot (c := c.inMode check) hroot⟩
  | ok root =>
    cases hfound : Discovery.findNames t [] root c.order.extension with
    | error f => exact .inl ⟨f, fun check => run_of_notFound (c := c.inMode check) hroot hfound⟩
    | ok found =>
      exact .inr ⟨root, found, rfl, hfound, readable_or_first fun names hn =>
        Discovery.reaches_of_mem_findNames hfound hn⟩

/-! ## records do not matter -/

variable (c : Call)

theorem step_congr {p q : Progress} (ht : q.tree = p.tree) (hs : q.summary = p.summary)
    (root : Path) (names : List Name) :
    (step c.order c.sink root names q).map (fun r => (r.tree, r.summary)) =
      (step c.order c.sink root names p).map fun r => (r.tree, r.summary) := by
  unfold step
  simp only [ht, hs]
  cases p.tree.readText [] (Discovery.path root names) with
  | error f => rfl
  | ok text =>
    simp only [bind, Except.bind, pure, Except.pure]
    split
    · simp only [Except.map, c.tree_log, c.summary_log]
    · cases c.order.check with
      | true => simp only [if_true, Except.map, c.tree_log, c.summary_log]
      | false =>
        simp only [Bool.false_eq_true, if_false]
        cases p.tree.writeText [] (Discovery.path root names) _ with
        | error f => rfl
        | ok tree => simp only [Except.map, c.tree_log, c.summary_log]

theorem steps_congr {p q : Progress} (ht : q.tree = p.tree) (hs : q.summary = p.summary)
    (root : Path) (paths : List (List Name)) :
    (steps c.order c.sink root paths q).1.tree = (steps c.order c.sink root paths p).1.tree ∧
      (steps c.order c.sink root paths q).2 = (steps c.order c.sink root paths p).2 := by
  induction paths generalizing p q with
  | nil => exact ⟨ht, rfl⟩
  | cons names paths ih =>
    have hstep := c.step_congr ht hs root names
    rw [steps, steps]
    cases hp : step c.order c.sink root names p with
    | error f =>
      cases hq : step c.order c.sink root names q with
      | error g =>
        rw [hp, hq] at hstep
        cases hstep
        exact ⟨ht, rfl⟩
      | ok q' =>
        rw [hp, hq] at hstep
        cases hstep
    | ok p' =>
      cases hq : step c.order c.sink root names q with
      | error g =>
        rw [hp, hq] at hstep
        cases hstep
      | ok q' =>
        rw [hp, hq] at hstep
        obtain ⟨ht', hs'⟩ := Prod.mk.inj (Except.ok.inj hstep)
        exact ih ht' hs'

end Call

/-! ## a run that returns -/

theorem Rewritten.get?_of_not_fixed {t t' : Tree} {root : Path} {done : List (List Name)}
    (h : Rewritten t root done t') (hd : ∀ names ∈ done, Readable t root names) {l : Location}
    (hl : some l ∉ ((firsts (file? t root) done).filter (wantsFix t root)).map (file? t root)) :
    t'.get? l = t.get? l := by
  by_cases hm : some l ∈ done.map (file? t root)
  · obtain ⟨ms, hms, hfile⟩ := List.mem_map.mp hm
    obtain ⟨ns, hns, hkey⟩ := exists_mem_firsts (file? t root) hms
    obtain ⟨k, text, hn⟩ := hd ns ((firsts_sublist done).subset hns)
    obtain rfl := hn.location_eq (hkey.trans hfile)
    have hw : wantsFix t root ns = false := by
      rw [← Bool.not_eq_true]
      intro hw
      exact hl (List.mem_map.mpr ⟨ns, List.mem_filter.mpr ⟨hns, hw⟩, hn.file?_eq⟩)
    rw [hn.wantsFix_eq] at hw
    have hb := h.first ns hns k text hn.file?_eq hn.bytes
    rw [fixFor, text_fix hw] at hb
    rw [Tree.bytes?_eq_some_iff.mp hb, Tree.bytes?_eq_some_iff.mp hn.bytes]
  · exact h.rest l hm

/-- the file of a path, if there is one, holds UTF-8 -/
def IsUtf8 (t : Tree) (root : Path) (names : List Name) : Prop :=
  ∀ l bs, file? t root names = some l → t.bytes? l = some bs → Utf8.WellFormed bs

theorem Readable.isUtf8 {t : Tree} {root : Path} {names : List Name}
    (h : Readable t root names) : IsUtf8 t root names := by
  intro l bs hl hb
  obtain ⟨k, text, hk⟩ := h
  obtain rfl := hk.location_eq hl
  exact ⟨text, Option.some.inj (hb.symm.trans hk.bytes)⟩

theorem Unreadable.not_isUtf8 {t : Tree} {root : Path} {names : List Name} {fault : Utf8.Fault}
    (h : Unreadable t root names fault) : ¬ IsUtf8 t root names := by
  intro hutf8
  obtain ⟨l, bs, hr, hb, hf⟩ := h
  exact Utf8.exists_fault_iff.mp ⟨fault, hf⟩ (hutf8 l bs (file?_of_reaches hr) hb)

section
variable {c : Call} {t : Tree} {root : Path} {found : List (List Name)}
  (hfound : Discovery.findNames t [] root c.order.extension = .ok found)
include hfound

theorem readable_of_found {names : List Name} (hn : names ∈ found)
    (hutf8 : IsUtf8 t root names) : Readable t root names := by
  obtain ⟨l, hl⟩ := Discovery.reaches_of_mem_findNames hfound hn
  rcases readable_or hl with hr | ⟨fault, hu⟩
  · exact hr
  · exact absurd hutf8 hu.not_isUtf8

theorem unreadable_of_found {names : List Name} (hn : names ∈ found)
    (hutf8 : ¬ IsUtf8 t root names) : ∃ fault, Unreadable t root names fault := by
  obtain ⟨l, hl⟩ := Discovery.reaches_of_mem_findNames hfound hn
  rcases readable_or hl with hr | hu
  · exact absurd hr.isUtf8 hutf8
  · exact hu

theorem exists_notUtf8_iff (hroot : t.realPath c.cwd c.order.root = .ok root) :
    (∃ fault, (c.run t).result = .error (.notUtf8 fault)) ↔
      ∃ names ∈ found, ¬ IsUtf8 t root names := by
  rcases readable_or_first fun names hn => Discovery.reaches_of_mem_findNames hfound hn with
    hr | ⟨before, names, rest, fault, rfl, hb, hn⟩
  · obtain ⟨p, -, -, hres⟩ := Call.run_of_readable hroot hfound hr
    constructor
    · rintro ⟨fault, hf⟩
      rw [hres] at hf
      cases hf
    · rintro ⟨names, hn, hutf8⟩
      exact absurd (hr names hn).isUtf8 hutf8
  · obtain ⟨p, -, -, -, hres⟩ := Call.run_of_unreadable hroot hfound hb hn
    constructor
    · intro _
      exact ⟨names, List.mem_append_right _ List.mem_cons_self, hn.not_isUtf8⟩
    · intro _
      exact ⟨fault, hres⟩

end

/-- a real run over files that can all be read -/
theorem run_fixes_first_paths (c : Call) {t : Tree} {root : Path} {found : List (List Name)}
    (hcheck : c.order.check = false) (hroot : t.realPath c.cwd c.order.root = .ok root)
    (hfound : Discovery.findNames t [] root c.order.extension = .ok found)
    (hutf8 : ∀ names ∈ found, IsUtf8 t root names) :
    ∃ s fixed, (c.run t).result = .ok s ∧
      s.checked = found.length ∧ s.checked = s.fixed.length + s.skipped ∧
      fixed = (firsts (file? t root) found).filter (wantsFix t root) ∧
      s.fixed = fixed.map (Path.mk .here) ∧
      (∀ names ∈ fixed, ∃ l text, file? t root names = some l ∧
        t.bytes? l = some (Utf8.encode text) ∧
        (c.run t).tree.bytes? l = some (Utf8.encode (fixFor root names text).text)) ∧
      ∀ l, some l ∉ fixed.map (file? t root) → (c.run t).tree.get? l = t.get? l := by
  have hr : ∀ names ∈ found, Readable t root names := fun names hn =>
    readable_of_found hfound hn (hutf8 names hn)
  obtain ⟨p, h, htree, hres⟩ := Call.run_of_readable hroot hfound hr
  rw [hcheck] at h
  have hw := h.real rfl
  refine ⟨p.summary, _, hres, h.tally.checked, h.tally.adds, rfl, h.tally.fixed, ?_, ?_⟩
  · intro names hn
    have hfirst := List.mem_of_mem_filter hn
    obtain ⟨l, text, hl⟩ := hr names ((firsts_sublist found).subset hfirst)
    rw [htree]
    exact ⟨l, text, hl.file?_eq, hl.bytes, hw.first names hfirst l text hl.file?_eq hl.bytes⟩
  · intro l hl
    rw [htree]
    exact hw.get?_of_not_fixed hr hl

def twinText : List Char := "import \x7bapi\x7d from './_generated/api'".toList

/-- a directory with a file, a link to it, and whatever else -/
def twinTree (more : List (Location × Node)) : Tree :=
  ⟨[(["r".toList], .directory), (["a.ts".toList, "r".toList], .file (Utf8.encode twinText)),
    (["b.ts".toList, "r".toList], .link "a.ts".toList)] ++ more⟩

def twinRoot : Path := .ofRoot ["r".toList]

def twins : List (List Name) := [["a.ts".toList], ["b.ts".toList]]

def twinCall : Call := ⟨{ root := twinRoot, extension := .value ".ts".toList }, {}, [], rfl⟩

theorem twins_readable : ∀ names ∈ twins, Readable (twinTree []) twinRoot names := by
  have h : ∀ names ∈ twins,
      (twinTree []).readText [] (Discovery.path twinRoot names) = .ok twinText := by
    decide +kernel
  intro names hn
  obtain ⟨l, hl⟩ := holds_of_readText (h names hn)
  exact ⟨l, twinText, hl⟩

theorem findNames_twins :
    Discovery.findNames (twinTree []) [] twinRoot twinCall.order.extension = .ok twins := by
  cbv

theorem run_fixes_first_twin :
    ∃ s, (twinCall.run (twinTree [])).result = .ok s ∧ s.checked = 2 ∧
      s.fixed = [⟨.here, ["a.ts".toList]⟩] ∧ s.skipped = 1 := by
  obtain ⟨s, fixed, hres, hchecked, hadds, rfl, hfixed, -⟩ := run_fixes_first_paths twinCall rfl
    (by decide +kernel) findNames_twins fun names hn => (twins_readable names hn).isUtf8
  have hlist : ((firsts (file? (twinTree []) twinRoot) twins).filter
      (wantsFix (twinTree []) twinRoot)).map (Path.mk .here) = [⟨.here, ["a.ts".toList]⟩] := by
    decide +kernel
  rw [hlist] at hfixed
  refine ⟨s, hres, hchecked, hfixed, ?_⟩
  rw [hchecked, hfixed] at hadds
  have hlength : ((twins.length : Nat) : Int) = 2 := rfl
  rw [hlength, List.length_singleton] at hadds
  omega

/-! ## a run that fails -/

theorem run_stops_at_first_unreadable (c : Call) {t : Tree} {root : Path}
    {found : List (List Name)} (hroot : t.realPath c.cwd c.order.root = .ok root)
    (hfound : Discovery.findNames t [] root c.order.extension = .ok found) :
    ((∃ fault, (c.run t).result = .error (.notUtf8 fault)) ↔
      ∃ names ∈ found, ¬ IsUtf8 t root names) ∧
    ∀ before names rest, found = before ++ names :: rest → (∀ ms ∈ before, IsUtf8 t root ms) →
      ¬ IsUtf8 t root names →
      (∃ l bs fault, file? t root names = some l ∧ t.bytes? l = some bs ∧
        Utf8.decode bs = .error fault ∧ (c.run t).result = .error (.notUtf8 fault) ∧
        (c.run t).tree.bytes? l = some bs) ∧
      (c.workOn root before t).2 = none ∧ (c.run t).tree = (c.workOn root before t).1.tree ∧
      (c.order.check = false →
        (∀ ms ∈ before, ∃ ns ∈ firsts (file? t root) before, ∃ l text,
          file? t root ms = some l ∧ file? t root ns = some l ∧
          t.bytes? l = some (Utf8.encode text) ∧
          (c.run t).tree.bytes? l = some (Utf8.encode (fixFor root ns text).text)) ∧
        ∀ l, some l ∉ before.map (file? t root) → (c.run t).tree.get? l = t.get? l) ∧
      (c.order.check = true → (c.run t).tree = t) := by
  refine ⟨exists_notUtf8_iff hfound hroot, ?_⟩
  rintro before names rest rfl hutf8 hnot
  have hr : ∀ ms ∈ before, Readable t root ms := fun ms hms =>
    readable_of_found hfound (List.mem_append_left _ hms) (hutf8 ms hms)
  obtain ⟨fault, hn⟩ :=
    unreadable_of_found hfound (List.mem_append_right _ List.mem_cons_self) hnot
  obtain ⟨p, h, hsteps, htree, hres⟩ := Call.run_of_unreadable hroot hfound hr hn
  -- the record of what was found is the only difference to work on those paths alone
  have hwork := c.steps_congr (p := c.opening root (before ++ names :: rest) t)
    (q := { tree := t }) (c.tree_log _ _).symm (c.summary_log _ _).symm root before
  rw [hsteps] at hwork
  refine ⟨?_, hwork.2, htree.trans hwork.1.symm, fun hc => ?_, fun hc => ?_⟩
  · obtain ⟨l, bs, hl, hb, hf⟩ := hn
    have hb' := h.bytes?_of_unreadable hr hb (Utf8.exists_fault_iff.mp ⟨fault, hf⟩)
    exact ⟨l, bs, fault, file?_of_reaches hl, hb, hf, hres, by rw [htree, hb']⟩
  · rw [hc] at h
    have hreal := h.real rfl
    rw [htree]
    refine ⟨fun ms hms => ?_, hreal.rest⟩
    obtain ⟨ns, hns, hkey⟩ := exists_mem_firsts (file? t root) hms
    obtain ⟨l, text, hl⟩ := hr ns ((firsts_sublist before).subset hns)
    exact ⟨ns, hns, l, text, hkey.symm.trans hl.file?_eq, hl.file?_eq, hl.bytes,
      hreal.first ns hns l text hl.file?_eq hl.bytes⟩
  · rw [hc] at h
    rw [htree, h.dry rfl]

/-- a file that is no UTF-8, after the twins -/
def badTwin : Location × Node := (["c.ts".toList, "r".toList], .file [0xFF])

theorem not_isUtf8_badTwin : ¬ IsUtf8 (twinTree [badTwin]) twinRoot ["c.ts".toList] := by
  intro h
  have hw := h badTwin.1 [0xFF] (by decide +kernel) (by decide +kernel)
  exact Utf8.exists_fault_iff.mp ⟨⟨0, 0xFF, 1, .invalidStart⟩, by decide +kernel⟩ hw

theorem run_stops_at_badTwin :
    (∃ fault, (twinCall.run (twinTree [badTwin])).result = .error (.notUtf8 fault)) ∧
      (twinCall.run (twinTree [badTwin])).tree.get? badTwin.1 = some badTwin.2 ∧
      (twinCall.run (twinTree [badTwin])).tree =
        (twinCall.workOn twinRoot twins (twinTree [badTwin])).1.tree := by
  have hfound : Discovery.findNames (twinTree [badTwin]) [] twinRoot twinCall.order.extension =
      .ok (twins ++ ["c.ts".toList] :: []) := by
    cbv
  have hread : ∀ names ∈ twins,
      (twinTree [badTwin]).readText [] (Discovery.path twinRoot names) = .ok twinText := by
    decide +kernel
  have hutf8 : ∀ names ∈ twins, IsUtf8 (twinTree [badTwin]) twinRoot names := by
    intro names hn
    obtain ⟨l, hl⟩ := holds_of_readText (hread names hn)
    exact Readable.isUtf8 ⟨l, twinText, hl⟩
  obtain ⟨-, hfirst⟩ := run_stops_at_first_unreadable twinCall (by decide +kernel) hfound
  obtain ⟨⟨l, bs, fault, -, -, -, hres, -⟩, -, htree, hreal, -⟩ :=
    hfirst twins _ [] rfl hutf8 not_isUtf8_badTwin
  refine ⟨⟨fault, hres⟩, ?_, htree⟩
  exact ((hreal rfl).2 badTwin.1 (by decide +kernel)).trans (by decide +kernel)

end Rebind.Batch
