import Mathlib.Data.List.Chain
import Rebind.Proofs.Runs

/-!
# One run after another

A step writes only a file that has no marker, and what it writes has one; so along any sequence of
steps, of whatever runs, a file changes at most once.

* `Marks`           what a step may do to the files, and so what any number of steps may do;
* `Call.history`    every tree that calls go through, one call after the other, writes of a run
                    that fails later among them;
* `Call.run_again`  the same call a second time, which finds nothing left to fix.
-/

namespace Rebind.Batch

/-! ## marking -/

/-- from `t` to `t'` a file keeps its bytes, or it had no marker and has got one -/
def Marks (t t' : Tree) : Prop :=
  ∀ l, t'.bytes? l = t.bytes? l ∨ ∃ old new, t.bytes? l = some (Utf8.encode old) ∧
    t'.bytes? l = some (Utf8.encode new) ∧ isPatched old = false ∧ isPatched new = true

namespace Marks
variable {t t' t'' : Tree}

theorem refl (t : Tree) : Marks t t := fun _ => .inl rfl

/-- a marked file keeps its bytes -/
theorem keeps (h : Marks t t') {l : Location} {text : List Char}
    (hb : t.bytes? l = some (Utf8.encode text)) (hp : isPatched text = true) :
    t'.bytes? l = t.bytes? l := by
  rcases h l with e | ⟨old, new, hold, -, hop, -⟩
  · exact e
  · obtain rfl : text = old := Utf8.encode_inj (Option.some.inj (hb.symm.trans hold))
    rw [hp] at hop
    cases hop

theorem trans (h : Marks t t') (h' : Marks t' t'') : Marks t t'' := by
  intro l
  rcases h l with e | ⟨old, new, hold, hnew, hop, hnp⟩
  · rcases h' l with e' | ⟨old, new, hold, hnew, hp⟩
    · exact .inl (e'.trans e)
    · exact .inr ⟨old, new, e.symm.trans hold, hnew, hp⟩
  · exact .inr ⟨old, new, hold, (h'.keeps hnew hnp).trans hnew, hop, hnp⟩

theorem put {l : Location} {text : List Char} (hb : t.bytes? l = some (Utf8.encode text))
    (ho : isOpen text = true) (path : List Char) :
    Marks t (t.put l (.file (Utf8.encode (fix path text).text))) := by
  intro k
  rw [Tree.bytes?_put (by rw [hb]; rfl)]
  by_cases hk : k = l
  · subst hk
    have hp : isPatched text = false := by
      rw [isOpen, Bool.and_eq_true, Bool.not_eq_true'] at ho
      exact ho.1
    rw [if_pos rfl]
    exact .inr ⟨text, _, hb, rfl, hp, isPatched_fix ho⟩
  · rw [if_neg hk]
    exact .inl rfl

end Marks

/-- along a chain a file holds what it held, and from some point on perhaps something else -/
theorem contents_of_isChain {t : Tree} {ts : List Tree} (h : (t :: ts).IsChain Marks)
    (l : Location) :
    ∃ m n new, (t :: ts).map (·.bytes? l) =
        List.replicate m (t.bytes? l) ++ List.replicate n (some new) ∧
      (n = 0 ∨ Utf8.encode marker <:+: new) := by
  induction ts generalizing t with
  | nil => exact ⟨1, 0, [], rfl, .inl rfl⟩
  | cons u ts ih =>
    obtain ⟨htu, hus⟩ := List.isChain_cons_cons.mp h
    rcases htu l with e | ⟨old, new, hold, hnew, -, hnp⟩
    · obtain ⟨m, n, new, hm, hn⟩ := ih hus
      refine ⟨m + 1, n, new, ?_, hn⟩
      rw [List.map_cons, hm, e]
      rfl
    · -- `u` is marked there, so nothing after it changes the file
      have hlater : ∀ v ∈ ts, v.bytes? l = some (Utf8.encode new) := by
        intro v hv
        have : IsTrans Tree Marks := ⟨fun _ _ _ => Marks.trans⟩
        exact ((hus.rel_cons hv).keeps hnew hnp).trans hnew
      refine ⟨1, ts.length + 1, Utf8.encode new, ?_, .inr ?_⟩
      · rw [List.map_cons, List.map_cons, hnew, List.replicate_succ,
          List.eq_replicate_iff.mpr ⟨List.length_map _, fun b hb => ?_⟩]
        · rfl
        · obtain ⟨v, hv, rfl⟩ := List.mem_map.mp hb
          exact hlater v hv
      · exact Utf8.encode_infix (hasPart_iff.mp hnp)

/-! ## every tree on the way -/

/-- the trees that work on the given paths goes through: before each file, and at the end -/
def trail (o : Order) (sink : Log.Sink) (root : Path) : List (List Name) → Progress → List Tree
  | [], p => [p.tree]
  | names :: rest, p =>
    p.tree :: match step o sink root names p with
      | .error _ => []
      | .ok p => trail o sink root rest p

theorem head?_trail (o : Order) (sink : Log.Sink) (root : Path) (paths : List (List Name))
    (p : Progress) : (trail o sink root paths p).head? = some p.tree := by
  cases paths with
  | nil => rfl
  | cons names rest => rfl

theorem getLast?_trail (o : Order) (sink : Log.Sink) (root : Path) (paths : List (List Name))
    (p : Progress) :
    (trail o sink root paths p).getLast? = some (steps o sink root paths p).1.tree := by
  induction paths generalizing p with
  | nil => rfl
  | cons names rest ih =>
    rw [trail, steps]
    cases step o sink root names p with
    | error f => rfl
    | ok q =>
      dsimp only
      rw [List.getLast?_cons_of_ne_nil, ih]
      intro he
      have := head?_trail o sink root rest q
      rw [he] at this
      cases this

theorem step_marks (c : Call) {root : Path} {names : List Name} {l : Location} {p q : Progress}
    (hr : p.tree.Reaches (Discovery.path root names) l)
    (h : step c.order c.sink root names p = .ok q) :
    Marks p.tree q.tree ∧ p.tree.SameLayout q.tree := by
  rcases readable_or hr with ⟨k, text, hk⟩ | ⟨fault, k, bs, hk, hb, hf⟩
  · cases ho : isOpen text with
    | false =>
      obtain ⟨q', hq, htree, -⟩ := c.step_of_closed hk ho
      rw [h] at hq
      cases hq
      rw [htree]
      exact ⟨.refl _, .refl _⟩
    | true =>
      obtain ⟨q', hq, htree, -⟩ := c.step_of_open hk ho
      rw [h] at hq
      cases hq
      rw [htree]
      split
      · exact ⟨.refl _, .refl _⟩
      · exact ⟨.put hk.bytes ho _, .put hk.reaches.isFile _⟩
  · rw [c.step_notUtf8 hk hb hf] at h
    cases h

theorem isChain_trail (c : Call) {t : Tree} {root : Path} {paths : List (List Name)}
    (hr : ∀ names ∈ paths, ∃ l, t.Reaches (Discovery.path root names) l) {p : Progress}
    (hp : t.SameLayout p.tree) : (trail c.order c.sink root paths p).IsChain Marks := by
  induction paths generalizing p with
  | nil => exact List.isChain_singleton _
  | cons names rest ih =>
    rw [trail]
    cases hs : step c.order c.sink root names p with
    | error f => exact List.isChain_singleton _
    | ok q =>
      obtain ⟨l, hl⟩ := hr names List.mem_cons_self
      obtain ⟨hm, hq⟩ := step_marks c (hl.sameLayout hp) hs
      have hrest := ih (fun ms hms => hr ms (List.mem_cons_of_mem _ hms)) (hp.trans hq)
      refine List.isChain_cons.mpr ⟨fun u hu => ?_, hrest⟩
      rw [head?_trail] at hu
      cases hu
      exact hm

/-! ## one call after the other -/

namespace Call

/-- the trees that a call goes through -/
def trail (c : Call) (t : Tree) : List Tree :=
  match t.realPath c.cwd c.order.root with
  | .error _ => [t]
  | .ok root =>
    match Discovery.findNames t [] root c.order.extension with
    | .error _ => [t]
    | .ok found => Batch.trail c.order c.sink root found (c.opening root found t)

/-- the trees that calls go through, one call after the other -/
def history : List Call → Tree → List Tree
  | [], t => [t]
  | c :: cs, t => c.trail t ++ history cs (c.run t).tree

theorem trail_spec (c : Call) (t : Tree) :
    (c.trail t).IsChain Marks ∧ (c.trail t).head? = some t ∧
      (c.trail t).getLast? = some (c.run t).tree := by
  rw [trail]
  cases hroot : t.realPath c.cwd c.order.root with
  | error f =>
    rw [(run_of_noRoot hroot).1]
    exact ⟨List.isChain_singleton _, rfl, rfl⟩
  | ok root =>
    dsimp only
    cases hfound : Discovery.findNames t [] root c.order.extension with
    | error f =>
      rw [(run_of_notFound hroot hfound).1]
      exact ⟨List.isChain_singleton _, rfl, rfl⟩
    | ok found =>
      dsimp only
      have ht : (c.opening root found t).tree = t := c.tree_log _ _
      refine ⟨?_, ?_, ?_⟩
      · refine isChain_trail c (fun names hn => Discovery.reaches_of_mem_findNames hfound hn) ?_
        rw [ht]
        exact .refl t
      · rw [head?_trail, ht]
      · rw [getLast?_trail, run_of_found hroot hfound]
        split
        · next hs => rw [hs]
        · next hs => rw [hs]

theorem history_spec (calls : List Call) (t : Tree) :
    (history calls t).IsChain Marks ∧ (history calls t).head? = some t := by
  induction calls generalizing t with
  | nil => exact ⟨List.isChain_singleton _, rfl⟩
  | cons c cs ih =>
    obtain ⟨hchain, hhead, hlast⟩ := c.trail_spec t
    obtain ⟨hchain', hhead'⟩ := ih (c.run t).tree
    refine ⟨?_, ?_⟩
    · refine hchain.append hchain' fun u hu v hv => ?_
      rw [hlast] at hu
      rw [hhead'] at hv
      cases hu
      cases hv
      exact .refl _
    · rw [history, List.head?_append, hhead]
      rfl

theorem getLast?_history (calls : List Call) (t : Tree) :
    (history calls t).getLast? = some (calls.foldl (fun t c => (c.run t).tree) t) := by
  induction calls generalizing t with
  | nil => rfl
  | cons c cs ih => rw [history, List.getLast?_append, ih, List.foldl_cons, Option.some_or]

end Call

/-! ## the same call again -/

theorem Rewritten.closed {t t' : Tree} {root : Path} {done : List (List Name)}
    (h : Rewritten t root done t') (hd : ∀ names ∈ done, Readable t root names) :
    ∀ names ∈ done, Readable t' root names ∧ wantsFix t' root names = false := by
  intro names hn
  obtain ⟨l, text, hl⟩ := hd names hn
  obtain ⟨text', hl', ho⟩ :=
    h.holds_of_mem hl (List.mem_map.mpr ⟨names, hn, hl.file?_eq⟩)
  exact ⟨⟨l, text', hl'⟩, hl'.wantsFix_eq.trans ho⟩

theorem Tally.eq_of_nil {s : Summary} {count : Nat} (h : Tally s count []) :
    s = ⟨count, [], count⟩ := by
  obtain ⟨checked, fixed, skipped⟩ := s
  obtain ⟨hchecked, hfixed, hadds⟩ := h
  dsimp only at hchecked hfixed hadds
  subst hchecked hfixed
  simpa using hadds.symm

theorem After.of_closed {check : Bool} {t : Tree} {root : Path} {done : List (List Name)}
    {p : Progress} (h : After check t root done p)
    (hw : ∀ names ∈ done, wantsFix t root names = false) :
    p.tree = t ∧ p.summary = ⟨done.length, [], done.length⟩ := by
  have hnone : fixedNames check t root done = [] := by
    rw [fixedNames, List.filter_eq_nil_iff]
    intro names hn
    have hmem : names ∈ done := by
      cases check with
      | true => exact hn
      | false => exact (firsts_sublist done).subset hn
    rw [hw names hmem]
    decide
  refine ⟨?_, ?_⟩
  · cases check with
    | true => exact h.dry rfl
    | false => exact (h.real rfl).idle hw
  · have htally := h.tally
    rw [hnone] at htally
    exact htally.eq_of_nil

theorem Unreadable.after {check : Bool} {t : Tree} {root : Path} {done : List (List Name)}
    {p : Progress} (h : After check t root done p) (hd : ∀ names ∈ done, Readable t root names)
    {names : List Name} {fault : Utf8.Fault} (hn : Unreadable t root names fault) :
    Unreadable p.tree root names fault := by
  obtain ⟨l, bs, hl, hb, hf⟩ := hn
  exact ⟨l, bs, hl.sameLayout h.sameLayout,
    h.bytes?_of_unreadable hd hb (Utf8.exists_fault_iff.mp ⟨fault, hf⟩), hf⟩

namespace Call

theorem run_again (c : Call) (t : Tree) (check : Bool) :
    ((c.inMode check).run ((c.inMode false).run t).tree).tree = ((c.inMode false).run t).tree ∧
      ((c.inMode check).run ((c.inMode false).run t).tree).result =
        ((c.inMode false).run t).result.map fun s =>
          { s with fixed := [], skipped := s.checked } := by
  rcases c.meets t with ⟨f, hf⟩ | ⟨root, found, hroot, hfound, hr | hfirst⟩
  · obtain ⟨ht, hres⟩ := hf false
    rw [ht, hres]
    exact hf check
  · obtain ⟨p, h, ht, hres⟩ := run_of_readable (c := c.inMode false) hroot hfound hr
    have hclosed := (h.real rfl).closed hr
    obtain ⟨q, hq, hqt, hqres⟩ := run_of_readable (c := c.inMode check) (t := p.tree)
      ((h.sameLayout.realPath _ _).trans hroot) ((h.sameLayout.findNames _ _ _).trans hfound)
      fun ns hns => (hclosed ns hns).1
    obtain ⟨hq₁, hq₂⟩ := hq.of_closed fun ns hns => (hclosed ns hns).2
    rw [ht, hqt, hqres, hres, hq₁, hq₂]
    refine ⟨rfl, ?_⟩
    show Except.ok _ = Except.ok (Summary.mk p.summary.checked [] p.summary.checked)
    rw [h.tally.checked]
  · obtain ⟨before, names, rest, fault, rfl, hr, hn⟩ := hfirst
    obtain ⟨p, h, -, ht, hres⟩ := run_of_unreadable (c := c.inMode false) hroot hfound hr hn
    have hclosed := (h.real rfl).closed hr
    obtain ⟨q, hq, -, hqt, hqres⟩ := run_of_unreadable (c := c.inMode check) (t := p.tree)
      ((h.sameLayout.realPath _ _).trans hroot) ((h.sameLayout.findNames _ _ _).trans hfound)
      (fun ns hns => (hclosed ns hns).1) (hn.after h hr)
    rw [ht, hqt, hqres, hres]
    exact ⟨(hq.of_closed fun ns hns => (hclosed ns hns).2).1, rfl⟩

end Call

/-- a file changes at most once, and the same call again changes nothing -/
theorem files_change_at_most_once :
    (∀ (calls : List Call) (t : Tree) (l : Location),
      (Call.history calls t).getLast? = some (calls.foldl (fun t c => (c.run t).tree) t) ∧
      ∃ m n new, (Call.history calls t).map (·.bytes? l) =
          List.replicate m (t.bytes? l) ++ List.replicate n (some new) ∧
        (n = 0 ∨ Utf8.encode marker <:+: new)) ∧
    ∀ (c : Call) (t : Tree) (check : Bool),
      ((c.inMode check).run ((c.inMode false).run t).tree).tree = ((c.inMode false).run t).tree ∧
      ((c.inMode check).run ((c.inMode false).run t).tree).result =
        ((c.inMode false).run t).result.map fun s =>
          { s with fixed := [], skipped := s.checked } := by
  refine ⟨fun calls t l => ⟨Call.getLast?_history calls t, ?_⟩, Call.run_again⟩
  obtain ⟨hchain, hhead⟩ := Call.history_spec calls t
  obtain ⟨ts, hts⟩ := List.head?_eq_some_iff.mp hhead
  rw [hts] at hchain ⊢
  exact contents_of_isChain hchain l

end Rebind.Batch
