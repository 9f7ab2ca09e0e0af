import Rebind.Proofs.Runs

/-!
# What a dry run foretells

A dry run changes nothing and goes the same way as the real run from the same tree: both fail for
the same reason, or both return.  The real run reads what it has written before; that makes a
difference only where two paths lead to one file, and there the later one is left alone.  So the
paths that the real run fixes are the first to their file among those that the dry run counts
(`fixedNames_false`).
-/

namespace Rebind.Batch

theorem wantsFix_congr {t : Tree} {root : Path} {names names' : List Name}
    (h : Readable t root names) (h' : Readable t root names')
    (hf : file? t root names' = file? t root names) :
    wantsFix t root names' = wantsFix t root names := by
  obtain ⟨l, text, hl⟩ := h
  obtain ⟨l', text', hl'⟩ := h'
  rw [hl.file?_eq, hl'.file?_eq] at hf
  cases hf
  rw [hl.wantsFix_eq, hl'.wantsFix_eq, hl.text_eq hl'.bytes]

/-- a real run fixes the paths that a dry run counts, each file once -/
theorem fixedNames_false {t : Tree} {root : Path} {done : List (List Name)}
    (hd : ∀ names ∈ done, Readable t root names) :
    fixedNames false t root done = firsts (file? t root) (fixedNames true t root done) :=
  firsts_filter fun a ha b hb => wantsFix_congr (hd a ha) (hd b hb)

theorem Tally.exists_earlier {key : List Name → Option Location} {dry real : Summary}
    {count : Nat} {fixed : List (List Name)} (hd : Tally dry count fixed)
    (hr : Tally real count (firsts key fixed)) {before rest : List Path} {p : Path}
    (hp : dry.fixed = before ++ p :: rest) (hn : p ∉ real.fixed) :
    p.names ∈ fixed ∧ ∃ q ∈ before, q ∈ real.fixed ∧ key q.names = key p.names := by
  rw [hd.fixed, List.map_eq_append_iff] at hp
  obtain ⟨as, cs, rfl, rfl, hp⟩ := hp
  obtain ⟨names, bs, rfl, rfl, rfl⟩ := List.map_eq_cons_iff.mp hp
  have hnot : names ∉ firsts key (as ++ names :: bs) := by
    intro hmem
    rw [hr.fixed] at hn
    exact hn (List.mem_map.mpr ⟨names, hmem, rfl⟩)
  obtain ⟨ms, hms, hfirst, hkey⟩ := Rebind.exists_earlier hnot
  refine ⟨List.mem_append_right _ List.mem_cons_self, ⟨.here, ms⟩,
    List.mem_map.mpr ⟨ms, hms, rfl⟩, ?_, hkey⟩
  rw [hr.fixed]
  exact List.mem_map.mpr ⟨ms, hfirst, rfl⟩

theorem Tally.skipped_eq {s s' : Summary} {count : Nat} {fixed : List (List Name)}
    (h : Tally s count fixed) (h' : Tally s' count fixed) : s'.skipped = s.skipped := by
  have hadds := h.adds
  have hadds' := h'.adds
  rw [h.checked, h.fixed] at hadds
  rw [h'.checked, h'.fixed] at hadds'
  omega

theorem dry_run_predicts (c : Call) (t : Tree) :
    ((c.inMode true).run t).tree = t ∧
    ((∃ f, ((c.inMode true).run t).result = .error f ∧ ((c.inMode false).run t).result = .error f) ∨
      ∃ root found dry real, t.realPath c.cwd c.order.root = .ok root ∧
        Discovery.findNames t [] root c.order.extension = .ok found ∧
        ((c.inMode true).run t).result = .ok dry ∧ ((c.inMode false).run t).result = .ok real ∧
        real.checked = dry.checked ∧ real.fixed.Sublist dry.fixed ∧
        (∀ before p rest, dry.fixed = before ++ p :: rest → p ∉ real.fixed →
          ∃ q ∈ before, q ∈ real.fixed ∧ ∃ l, file? t root q.names = some l ∧
            file? t root p.names = some l) ∧
        (found.Pairwise (fun ms ns => file? t root ms ≠ file? t root ns) →
          real.fixed = dry.fixed ∧ real.skipped = dry.skipped)) := by
  rcases c.meets t with ⟨f, hf⟩ | ⟨root, found, hroot, hfound, hr | hfirst⟩
  · exact ⟨(hf true).1, .inl ⟨f, (hf true).2, (hf false).2⟩⟩
  · obtain ⟨d, hd, hdt, hdres⟩ := Call.run_of_readable (c := c.inMode true) hroot hfound hr
    obtain ⟨r, hre, -, hrres⟩ := Call.run_of_readable (c := c.inMode false) hroot hfound hr
    have htd : Tally d.summary found.length (fixedNames true t root found) := hd.tally
    have htr : Tally r.summary found.length
        (firsts (file? t root) (fixedNames true t root found)) := by
      rw [← fixedNames_false hr]
      exact hre.tally
    refine ⟨hdt.trans (hd.dry rfl), .inr ⟨root, found, d.summary, r.summary, hroot, hfound, hdres,
      hrres, htr.checked.trans htd.checked.symm, ?_, ?_, ?_⟩⟩
    · rw [htr.fixed, htd.fixed]
      exact (firsts_sublist _).map _
    · intro before p rest hp hn
      obtain ⟨hmem, q, hq, hqr, hkey⟩ := htd.exists_earlier htr hp hn
      obtain ⟨l, text, hl⟩ := hr p.names (List.mem_of_mem_filter hmem)
      exact ⟨q, hq, hqr, l, hkey.trans hl.file?_eq, hl.file?_eq⟩
    · intro hapart
      have hall : firsts (file? t root) (fixedNames true t root found) =
          fixedNames true t root found := firsts_of_pairwise (hapart.filter _)
      rw [hall] at htr
      exact ⟨htr.fixed.trans htd.fixed.symm, htd.skipped_eq htr⟩
  · obtain ⟨before, names, rest, fault, rfl, hr, hn⟩ := hfirst
    obtain ⟨d, hd, -, hdt, hdres⟩ := Call.run_of_unreadable (c := c.inMode true) hroot hfound hr hn
    obtain ⟨r, -, -, -, hrres⟩ := Call.run_of_unreadable (c := c.inMode false) hroot hfound hr hn
    exact ⟨hdt.trans (hd.dry rfl), .inl ⟨_, hdres, hrres⟩⟩

theorem dry_run_predicts_twins :
    ∃ dry real, ((twinCall.inMode true).run (twinTree [])).result = .ok dry ∧
      ((twinCall.inMode false).run (twinTree [])).result = .ok real ∧
      ⟨.here, ["b.ts".toList]⟩ ∈ dry.fixed ∧ ⟨.here, ["b.ts".toList]⟩ ∉ real.fixed ∧
      ⟨.here, ["a.ts".toList]⟩ ∈ real.fixed := by
  have hroot : (twinTree []).realPath twinCall.cwd twinCall.order.root = .ok twinRoot := by
    decide +kernel
  obtain ⟨d, hd, -, hdres⟩ := Call.run_of_readable (c := twinCall.inMode true) hroot
    findNames_twins twins_readable
  obtain ⟨r, hr, -, hrres⟩ := Call.run_of_readable (c := twinCall.inMode false) hroot
    findNames_twins twins_readable
  have hdry : d.summary.fixed = [⟨.here, ["a.ts".toList]⟩] ++ ⟨.here, ["b.ts".toList]⟩ :: [] :=
    hd.tally.fixed.trans (by decide +kernel)
  have hreal : ⟨.here, ["b.ts".toList]⟩ ∉ r.summary.fixed := by
    rw [hr.tally.fixed]
    decide +kernel
  obtain ⟨-, ⟨f, hf, -⟩ | ⟨root, found, dry, real, -, -, hdok, hrok, -, -, hmissing, -⟩⟩ :=
    dry_run_predicts twinCall (twinTree [])
  · rw [hdres] at hf
    cases hf
  · cases hdres.symm.trans hdok
    cases hrres.symm.trans hrok
    obtain ⟨q, hq, hqr, -⟩ := hmissing _ _ _ hdry hreal
    obtain rfl := List.mem_singleton.mp hq
    refine ⟨d.summary, r.summary, hdres, hrres, ?_, hreal, hqr⟩
    rw [hdry]
    decide

end Rebind.Batch
