import Rebind.Proofs.Steps

/-!
# What a run leaves alone

Whatever the sink, a run that works or fails changes the log and the files that its paths lead to,
and nothing else.  The log may be one of those files, and may be reached while it grows; so both
are said of one relation between the tree before and the tree after.

* `Confined log written`  only files changed, outside `written` only the log, and that only grew;
* `Confined.step`         what one path does;
* `Confined.run`          what a run does, `Leads` being what its paths lead to.
-/

namespace Rebind.Batch

/-- from `t` to `t'` only bytes of files changed: those of the log and of the files in `written`,
and what is not in `written` at most grew -/
structure Confined (log : Option Location) (written : Location → Prop) (t t' : Tree) : Prop where
  layout : t.SameLayout t'
  rest : ∀ l, log ≠ some l → ¬ written l → t'.get? l = t.get? l
  grows : ∀ l, ¬ written l → ∀ old, t.bytes? l = some old →
    ∃ new, t'.bytes? l = some new ∧ old <+: new

namespace Confined
variable {log : Option Location} {written : Location → Prop} {t t' t'' : Tree}

theorem refl (log : Option Location) (written : Location → Prop) (t : Tree) :
    Confined log written t t :=
  ⟨.refl t, fun _ _ _ => rfl, fun _ _ old hold => ⟨old, hold, List.prefix_rfl⟩⟩

theorem trans (h : Confined log written t t') (h' : Confined log written t' t'') :
    Confined log written t t'' := by
  refine ⟨h.layout.trans h'.layout, fun l hlog hw => ?_, fun l hw old hold => ?_⟩
  · exact (h'.rest l hlog hw).trans (h.rest l hlog hw)
  · obtain ⟨mid, hmid, hle⟩ := h.grows l hw old hold
    obtain ⟨new, hnew, hle'⟩ := h'.grows l hw mid hmid
    exact ⟨new, hnew, hle.trans hle'⟩

theorem mono {written' : Location → Prop} (h : Confined log written t t')
    (hw : ∀ l, written l → written' l) : Confined log written' t t' :=
  ⟨h.layout, fun l hlog hl => h.rest l hlog (mt (hw l) hl), fun l hl => h.grows l (mt (hw l) hl)⟩

theorem bytes?_eq (h : Confined log written t t') {l : Location} (hlog : log ≠ some l)
    (hw : ¬ written l) : t'.bytes? l = t.bytes? l := by
  rw [Tree.bytes?, h.rest l hlog hw]
  rfl

/-- a file in `written` gets new bytes -/
theorem put {l : Location} (hl : (t.bytes? l).isSome) (hw : written l) (bs : List UInt8) :
    Confined log written t (t.put l (.file bs)) := by
  have hother : ∀ k, ¬ written k → k ≠ l := fun k hk he => hk (he ▸ hw)
  refine ⟨.put hl bs, fun k _ hk => ?_, fun k hk old hold => ⟨old, ?_, List.prefix_rfl⟩⟩
  · rw [Tree.get?_put t (Tree.ne_nil_of_bytes? hl), if_neg (hother k hk)]
  · rw [Tree.bytes?_put hl, if_neg (hother k hk), hold]

/-- bytes are added to the log -/
theorem append (written : Location → Prop) (t : Tree) (l : Location) (bs : List UInt8) :
    Confined (some l) written t (t.append l bs) := by
  unfold Tree.append
  split
  · next old hold =>
    have hl : (t.bytes? l).isSome := Option.isSome_of_eq_some hold
    refine ⟨.put hl _, fun k hlog _ => ?_, fun k _ before hbefore => ?_⟩
    · have hk : k ≠ l := fun he => hlog (congrArg some he.symm)
      rw [Tree.get?_put t (Tree.ne_nil_of_bytes? hl), if_neg hk]
    · rw [Tree.bytes?_put hl]
      by_cases hk : k = l
      · obtain rfl : old = before := Option.some.inj (hold.symm.trans (hk ▸ hbefore))
        exact ⟨old ++ bs, if_pos hk, List.prefix_append old bs⟩
      · exact ⟨before, (if_neg hk).trans hbefore, List.prefix_rfl⟩
  · exact .refl _ _ t

theorem record (written : Location → Prop) (sink : Log.Sink) (r : Log.Record) (p : Progress) :
    Confined sink.file written p.tree (p.log sink r).tree := by
  unfold Progress.log
  split
  · show Confined sink.file written p.tree (sink.store r p.tree)
    unfold Log.Sink.store
    cases sink.file with
    | none => exact .refl none written p.tree
    | some l => exact .append written p.tree l _
  · exact .refl _ _ _

/-! ## a run -/

variable {o : Order} {sink : Log.Sink} {root : Path}

/-- one path at most changes its file and the log -/
theorem step {names : List Name} {l : Location} {p q : Progress}
    (hr : p.tree.Reaches (Discovery.path root names) l) (hw : o.check = false → written l)
    (h : Batch.step o sink root names p = .ok q) : Confined sink.file written p.tree q.tree := by
  unfold Batch.step at h
  obtain ⟨text, -, h⟩ := bind_eq_ok_iff.mp h
  dsimp only at h
  split at h
  · cases h
    exact .record written sink _ { p with summary := countSkipped p.summary }
  · have hrecord : ∀ tree, Confined sink.file written tree
        (Progress.log sink (fixed o (Discovery.path root names))
          { p with tree, summary := countFixed ⟨.here, names⟩ p.summary }).tree :=
      fun tree => .record written sink _ { p with tree, summary := _ }
    split at h
    · cases h
      exact hrecord p.tree
    · next hcheck =>
      obtain ⟨tree, hwrite, h⟩ := bind_eq_ok_iff.mp h
      cases h
      rw [Tree.writeText, hr.write] at hwrite
      cases hwrite
      exact (put hr.isFile (hw (Bool.eq_false_iff.mpr hcheck)) _).trans (hrecord _)

/-- and so do paths one after the other, also when one of them fails -/
theorem steps {paths : List (List Name)}
    (hr : ∀ names ∈ paths, ∃ l, t.Reaches (Discovery.path root names) l ∧
      (o.check = false → written l)) {p : Progress} (hp : t.SameLayout p.tree) :
    Confined sink.file written p.tree (Batch.steps o sink root paths p).1.tree := by
  induction paths generalizing p with
  | nil => exact .refl _ _ _
  | cons names rest ih =>
    rw [Batch.steps]
    cases hs : Batch.step o sink root names p with
    | error f => exact .refl _ _ _
    | ok q =>
      obtain ⟨l, hl, hw⟩ := hr names List.mem_cons_self
      have hq := Confined.step (hl.sameLayout hp) hw hs
      exact hq.trans (ih (fun ms hms => hr ms (List.mem_cons_of_mem _ hms)) (hp.trans hq.layout))

end Confined

/-- a path that discovery finds for the order leads to the file at `l` -/
def Leads (o : Order) (cwd : Location) (t : Tree) (l : Location) : Prop :=
  ∃ root found names, t.realPath cwd o.root = .ok root ∧
    Discovery.findNames t [] root o.extension = .ok found ∧ names ∈ found ∧
    file? t root names = some l

/-- a run that works or fails changes nothing but the log and, if it is a real one, the files that
discovered paths lead to -/
theorem Confined.run (o : Order) (sink : Log.Sink) (cwd : Location) (t : Tree) :
    Confined sink.file (fun l => o.check = false ∧ Leads o cwd t l) t
      (Batch.run o sink cwd t).tree := by
  rw [Batch.run]
  cases hroot : t.realPath cwd o.root with
  | error f => exact .refl _ _ t
  | ok root =>
    dsimp only
    cases hfound : Discovery.findNames t [] root o.extension with
    | error f => exact .refl _ _ t
    | ok found =>
      dsimp only
      have hstart := Confined.record (fun l => o.check = false ∧ Leads o cwd t l) sink
        (discovered o root found.length) { tree := t }
      have hreach : ∀ names ∈ found, ∃ l, t.Reaches (Discovery.path root names) l ∧
          (o.check = false → o.check = false ∧ Leads o cwd t l) := by
        intro names hn
        obtain ⟨l, hl⟩ := Discovery.reaches_of_mem_findNames hfound hn
        exact ⟨l, hl, fun hc => ⟨hc, root, found, names, hroot, hfound, hn, file?_of_reaches hl⟩⟩
      have hall := hstart.trans (Confined.steps hreach hstart.layout)
      split
      · next hs => rwa [hs] at hall
      · next hs => rwa [hs] at hall

end Rebind.Batch
