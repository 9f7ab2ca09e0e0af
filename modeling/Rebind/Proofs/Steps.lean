import Rebind.Proofs.Outcomes
import Rebind.Proofs.Reach

/-!
# One file after the other

A run works on paths, and several paths may lead to one file.  What it has done after some of them
is said without the loop:

* `firsts`     the paths that are the first to lead to their file;
* `Rewritten`  a tree in which each file of those paths holds what its first path made of it;
* `After`      the tree and the summary of a run, dry or real, after some of its paths.

`Call.step_notUtf8`, `Call.step_of_closed` and `Call.step_of_open` are all that a step can do.
`After.step` takes one more path; a path to a file that an earlier one has led to finds nothing to
fix there (`Rewritten.holds_of_mem`).  `After.steps` is a whole run.
-/

namespace Rebind

/-! ## first occurrences -/

section
variable {α β : Type} [DecidableEq β]

/-- the elements of a list whose key no element before them has -/
def firsts (key : α → β) : List α → List α
  | [] => []
  | a :: as => a :: (firsts key as).filter fun b => key b ≠ key a

variable {key : α → β}

theorem firsts_append (as bs : List α) :
    firsts key (as ++ bs) =
      firsts key as ++ (firsts key bs).filter fun b => key b ∉ as.map key := by
  induction as with
  | nil => simp [firsts]
  | cons a as ih =>
    show a :: (firsts key (as ++ bs)).filter _ = a :: (firsts key as).filter _ ++ _
    rw [ih, List.filter_append, List.filter_filter, List.cons_append]
    congr 2
    apply List.filter_congr
    intro b _
    simp

theorem firsts_sublist (as : List α) : (firsts key as).Sublist as := by
  induction as with
  | nil => exact List.Sublist.slnil
  | cons a as ih => exact (List.filter_sublist.trans ih).cons_cons a

theorem exists_mem_firsts (key : α → β) {as : List α} {a : α} (h : a ∈ as) :
    ∃ b ∈ firsts key as, key b = key a := by
  induction as with
  | nil => cases h
  | cons c as ih =>
    by_cases hc : key c = key a
    · exact ⟨c, List.mem_cons_self, hc⟩
    · have ha : a ∈ as := by
        rcases List.mem_cons.mp h with rfl | h
        · exact absurd rfl hc
        · exact h
      obtain ⟨b, hb, hk⟩ := ih ha
      refine ⟨b, List.mem_cons_of_mem _ (List.mem_filter.mpr ⟨hb, ?_⟩), hk⟩
      simpa [hk] using fun e => hc e.symm

theorem firsts_concat_of_mem {as : List α} {a : α} (h : key a ∈ as.map key) :
    firsts key (as ++ [a]) = firsts key as := by
  rw [firsts_append]
  simpa [firsts] using h

theorem firsts_concat_of_not_mem {as : List α} {a : α} (h : key a ∉ as.map key) :
    firsts key (as ++ [a]) = firsts key as ++ [a] := by
  rw [firsts_append]
  simpa [firsts] using h

theorem mem_firsts {as bs : List α} {a : α} (h : key a ∉ as.map key) :
    a ∈ firsts key (as ++ a :: bs) := by
  rw [firsts_append]
  refine List.mem_append_right _ (List.mem_filter.mpr ⟨List.mem_cons_self, ?_⟩)
  simpa using h

/-- what is left out has an earlier element of its key that is not -/
theorem exists_earlier {as bs : List α} {a : α} (h : a ∉ firsts key (as ++ a :: bs)) :
    ∃ b ∈ as, b ∈ firsts key (as ++ a :: bs) ∧ key b = key a := by
  have hmem : key a ∈ as.map key := by
    by_contra hne
    exact h (mem_firsts hne)
  obtain ⟨c, hc, hkey⟩ := List.mem_map.mp hmem
  obtain ⟨b, hb, hb'⟩ := exists_mem_firsts key hc
  refine ⟨b, (firsts_sublist as).subset hb, ?_, hb'.trans hkey⟩
  rw [firsts_append]
  exact List.mem_append_left _ hb

/-- a test that depends on the key alone may be made before or after -/
theorem firsts_filter {keep : α → Bool} {as : List α}
    (h : ∀ a ∈ as, ∀ b ∈ as, key b = key a → keep b = keep a) :
    (firsts key as).filter keep = firsts key (as.filter keep) := by
  induction as with
  | nil => rfl
  | cons a as ih =>
    have ih := ih fun b hb c hc => h b (List.mem_cons_of_mem _ hb) c (List.mem_cons_of_mem _ hc)
    rw [firsts, List.filter_cons, List.filter_cons, List.filter_filter]
    cases hk : keep a with
    | true =>
      rw [if_pos rfl, if_pos rfl, firsts, ← ih, List.filter_filter]
      simp only [Bool.and_comm]
    | false =>
      rw [if_neg (by decide), if_neg (by decide), ← ih]
      apply List.filter_congr
      intro b hb
      have hb := h a List.mem_cons_self b (List.mem_cons_of_mem _ ((firsts_sublist as).subset hb))
      by_cases hkey : key b = key a
      · rw [hb hkey, hk]
        rfl
      · simp [hkey]

theorem firsts_of_pairwise {as : List α} (h : as.Pairwise fun a b => key a ≠ key b) :
    firsts key as = as := by
  induction as with
  | nil => rfl
  | cons a as ih =>
    obtain ⟨ha, has⟩ := List.pairwise_cons.mp h
    rw [firsts, ih has, List.filter_eq_self.mpr]
    intro b hb
    simpa using fun e => ha b hb e.symm

end

namespace Batch

/-! ## the file of a path -/

/-- where the path of names below `root` leads, if anywhere -/
def file? (t : Tree) (root : Path) (names : List Name) : Option Location :=
  (t.target? [] (Discovery.path root names)).toOption

/-- a text fixed as that of the file with those names below `root` -/
def fixFor (root : Path) (names : List Name) (text : List Char) : Fix :=
  fix (importPath [] (Discovery.path root names) (root.join generatedApi)) text

/-- the file with those names below `root` has a text that is changed by fixing it -/
def wantsFix (t : Tree) (root : Path) (names : List Name) : Bool :=
  match t.readText [] (Discovery.path root names) with
  | .ok text => (fixFor root names text).outcome = .fixed
  | .error _ => false

/-- the names lead to the regular file at `l`, and that holds `text` -/
structure Holds (t : Tree) (root : Path) (names : List Name) (l : Location) (text : List Char) :
    Prop where
  reaches : t.Reaches (Discovery.path root names) l
  bytes : t.bytes? l = some (Utf8.encode text)

theorem file?_of_reaches {t : Tree} {root : Path} {names : List Name} {l : Location}
    (h : t.Reaches (Discovery.path root names) l) : file? t root names = some l := by
  rw [file?, h.target]
  rfl

namespace Holds
variable {t : Tree} {root : Path} {names : List Name} {l : Location} {text : List Char}

theorem file?_eq (h : Holds t root names l text) : file? t root names = some l :=
  file?_of_reaches h.reaches

theorem readText (h : Holds t root names l text) :
    t.readText [] (Discovery.path root names) = .ok text := by
  rw [h.reaches.readText h.bytes, Utf8.decode_encode]

theorem wantsFix_eq (h : Holds t root names l text) : wantsFix t root names = isOpen text := by
  rw [wantsFix, h.readText, Bool.eq_iff_iff, ← outcome_fix_eq_fixed_iff]
  exact decide_eq_true_iff

theorem location_eq (h : Holds t root names l text) {k : Location}
    (hk : file? t root names = some k) : l = k :=
  Option.some.inj (h.file?_eq.symm.trans hk)

theorem text_eq (h : Holds t root names l text) {text' : List Char}
    (hb : t.bytes? l = some (Utf8.encode text')) : text = text' :=
  Utf8.encode_inj (Option.some.inj (h.bytes.symm.trans hb))

end Holds

theorem holds_of_readText {t : Tree} {root : Path} {names : List Name} {text : List Char}
    (h : t.readText [] (Discovery.path root names) = .ok text) :
    ∃ l, Holds t root names l text := by
  obtain ⟨bs, hread, hd⟩ := bind_eq_ok_iff.mp h
  obtain ⟨hn, hs, hread⟩ := handed_eq_ok_iff.mp hread
  obtain ⟨l, hl, hb⟩ := bind_eq_ok_iff.mp hread
  cases hbs : t.bytes? l with
  | none =>
    rw [hbs] at hb
    cases hb
  | some bs' =>
    rw [hbs] at hb
    cases hb
    cases hdec : Utf8.decode bs with
    | error fault =>
      rw [hdec] at hd
      cases hd
    | ok text' =>
      rw [hdec] at hd
      cases hd
      exact ⟨l, ⟨hn, hs, hl, by rw [hbs]; rfl⟩, by rw [hbs, Utf8.decode_eq_ok_iff.mp hdec]⟩

/-! ## one step -/

/-- a call of a run by itself: what is asked, where it works, and what it logs, though not to a
file -/
structure Call where
  order : Order
  sink : Log.Sink
  cwd : Location
  noFile : sink.file = none

namespace Call
variable (c : Call)

theorem tree_log (p : Progress) (r : Log.Record) : (p.log c.sink r).tree = p.tree := by
  unfold Progress.log Log.Sink.store
  split
  · rw [c.noFile]
  · rfl

theorem summary_log (p : Progress) (r : Log.Record) : (p.log c.sink r).summary = p.summary := by
  unfold Progress.log
  split
  · rfl
  · rfl

variable {root : Path} {names : List Name} {l : Location} {p : Progress}

theorem step_notUtf8 (hr : p.tree.Reaches (Discovery.path root names) l) {bs : List UInt8}
    (hb : p.tree.bytes? l = some bs) {fault : Utf8.Fault} (hf : Utf8.decode bs = .error fault) :
    step c.order c.sink root names p = .error (.notUtf8 fault) := by
  rw [step, hr.readText hb, hf]
  rfl

theorem step_of_closed {text : List Char} (h : Holds p.tree root names l text)
    (ho : isOpen text = false) :
    ∃ p', step c.order c.sink root names p = .ok p' ∧ p'.tree = p.tree ∧
      p'.summary = countSkipped p.summary := by
  have hn : (fixFor root names text).outcome ≠ .fixed := by
    intro he
    rw [outcome_fix_eq_fixed_iff.mp he] at ho
    cases ho
  rw [step, h.readText]
  show ∃ p', (if (fixFor root names text).outcome ≠ .fixed then _ else _) = _ ∧ _
  rw [if_pos hn]
  exact ⟨_, rfl, c.tree_log _ _, c.summary_log _ _⟩

theorem step_of_open {text : List Char} (h : Holds p.tree root names l text)
    (ho : isOpen text = true) :
    ∃ p', step c.order c.sink root names p = .ok p' ∧
      p'.tree = (if c.order.check then p.tree
        else p.tree.put l (.file (Utf8.encode (fixFor root names text).text))) ∧
      p'.summary = countFixed ⟨.here, names⟩ p.summary := by
  have hf : (fixFor root names text).outcome = .fixed := outcome_fix_eq_fixed_iff.mpr ho
  rw [step, h.readText]
  show ∃ p', (if (fixFor root names text).outcome ≠ .fixed then _ else _) = _ ∧ _
  rw [if_neg (not_not_intro hf)]
  cases c.order.check with
  | true => exact ⟨_, rfl, c.tree_log _ _, c.summary_log _ _⟩
  | false =>
    show ∃ p', (p.tree.writeText [] _ (fixFor root names text).text >>= _) = _ ∧ _
    rw [Tree.writeText, h.reaches.write]
    exact ⟨_, rfl, c.tree_log _ _, c.summary_log _ _⟩

end Call

/-! ## what is done so far -/

/-- the summary counts `count` files, those of `fixed` as fixed and the others as left alone -/
structure Tally (s : Summary) (count : Nat) (fixed : List (List Name)) : Prop where
  checked : s.checked = count
  fixed : s.fixed = fixed.map (Path.mk .here)
  adds : s.checked = s.fixed.length + s.skipped

namespace Tally
variable {s : Summary} {count : Nat} {fixed : List (List Name)}

theorem countSkipped (h : Tally s count fixed) : Tally (countSkipped s) (count + 1) fixed := by
  refine ⟨?_, h.fixed, ?_⟩
  · show s.checked + 1 = _
    rw [h.checked]
    rfl
  · show s.checked + 1 = s.fixed.length + (s.skipped + 1)
    rw [h.adds]
    omega

theorem countFixed (h : Tally s count fixed) (names : List Name) :
    Tally (countFixed ⟨.here, names⟩ s) (count + 1) (fixed ++ [names]) := by
  refine ⟨?_, ?_, ?_⟩
  · show s.checked + 1 = _
    rw [h.checked]
    rfl
  · show s.fixed ++ [_] = _
    rw [h.fixed, List.map_append]
    rfl
  · show s.checked + 1 = ((s.fixed ++ [_]).length : Int) + s.skipped
    rw [h.adds, List.length_append, List.length_singleton]
    omega

end Tally

/-- `t'` is what fixing the files of `done`, paths below `root`, makes of `t`: a file holds what
the first path to it made of its text, and everything else is as it was -/
structure Rewritten (t : Tree) (root : Path) (done : List (List Name)) (t' : Tree) : Prop where
  layout : t.SameLayout t'
  first : ∀ names ∈ firsts (file? t root) done, ∀ l text, file? t root names = some l →
    t.bytes? l = some (Utf8.encode text) →
    t'.bytes? l = some (Utf8.encode (fixFor root names text).text)
  rest : ∀ l, some l ∉ done.map (file? t root) → t'.get? l = t.get? l
  idle : (∀ names ∈ done, wantsFix t root names = false) → t' = t

namespace Rewritten
variable {t t' : Tree} {root : Path} {done : List (List Name)} {names : List Name} {l : Location}
  {text : List Char}

theorem refl (t : Tree) (root : Path) : Rewritten t root [] t :=
  ⟨.refl t, fun _ h => absurd h List.not_mem_nil, fun _ _ => rfl, fun _ => rfl⟩

/-- a file that was dealt with has nothing left to fix, also when another path leads to it -/
theorem holds_of_mem (h : Rewritten t root done t') (hn : Holds t root names l text)
    (hl : some l ∈ done.map (file? t root)) :
    ∃ text', Holds t' root names l text' ∧ isOpen text' = false := by
  obtain ⟨ms, hms, hfile⟩ := List.mem_map.mp hl
  obtain ⟨ns, hns, hkey⟩ := exists_mem_firsts (file? t root) hms
  have hb := h.first ns hns l text (hkey.trans hfile) hn.bytes
  exact ⟨_, ⟨hn.reaches.sameLayout h.layout, hb⟩, isOpen_fix _ _⟩

theorem bytes?_of_not_mem (h : Rewritten t root done t') (hl : some l ∉ done.map (file? t root)) :
    t'.bytes? l = t.bytes? l := by
  rw [Tree.bytes?, h.rest l hl]
  rfl

theorem holds_of_not_mem (h : Rewritten t root done t') (hn : Holds t root names l text)
    (hl : some l ∉ done.map (file? t root)) : Holds t' root names l text :=
  ⟨hn.reaches.sameLayout h.layout, (h.bytes?_of_not_mem hl).trans hn.bytes⟩

/-- one more path, with nothing written -/
theorem extend (h : Rewritten t root done t')
    (hfirst : ∀ ms ∈ firsts (file? t root) (done ++ [names]), ∀ l text,
      file? t root ms = some l → t.bytes? l = some (Utf8.encode text) →
      t'.bytes? l = some (Utf8.encode (fixFor root ms text).text)) :
    Rewritten t root (done ++ [names]) t' := by
  refine ⟨h.layout, hfirst, ?_, ?_⟩
  · intro k hk
    rw [List.map_append] at hk
    exact h.rest k fun hm => hk (List.mem_append_left _ hm)
  · intro hidle
    exact h.idle fun ms hms => hidle ms (List.mem_append_left _ hms)

/-- a path to a file that was dealt with adds nothing -/
theorem again (h : Rewritten t root done t') (hl : file? t root names ∈ done.map (file? t root)) :
    Rewritten t root (done ++ [names]) t' := by
  apply h.extend
  rw [firsts_concat_of_mem hl]
  exact h.first

/-- a new file that has nothing to fix -/
theorem pass (h : Rewritten t root done t') (hn : Holds t root names l text)
    (hl : some l ∉ done.map (file? t root)) (ho : isOpen text = false) :
    Rewritten t root (done ++ [names]) t' := by
  apply h.extend
  rw [firsts_concat_of_not_mem (by rwa [hn.file?_eq])]
  intro ms hms k text' hk hb
  rcases List.mem_append.mp hms with hms | hms
  · exact h.first ms hms k text' hk hb
  · obtain rfl := List.mem_singleton.mp hms
    obtain rfl := hn.location_eq hk
    obtain rfl := hn.text_eq hb
    rw [fixFor, text_fix ho]
    exact (h.bytes?_of_not_mem hl).trans hn.bytes

/-- a new file that has something to fix -/
theorem put (h : Rewritten t root done t') (hn : Holds t root names l text)
    (hl : some l ∉ done.map (file? t root)) (ho : isOpen text = true) :
    Rewritten t root (done ++ [names])
      (t'.put l (.file (Utf8.encode (fixFor root names text).text))) := by
  have hfile := (h.holds_of_not_mem hn hl).reaches.isFile
  refine ⟨h.layout.trans (.put hfile _), ?_, ?_, ?_⟩
  · rw [firsts_concat_of_not_mem (by rwa [hn.file?_eq])]
    intro ms hms k text' hk hb
    rw [Tree.bytes?_put hfile]
    rcases List.mem_append.mp hms with hms | hms
    · -- the first path to another file
      have hne : k ≠ l := by
        rintro rfl
        exact hl (List.mem_map.mpr ⟨ms, (firsts_sublist done).subset hms, hk⟩)
      rw [if_neg hne]
      exact h.first ms hms k text' hk hb
    · obtain rfl := List.mem_singleton.mp hms
      obtain rfl := hn.location_eq hk
      obtain rfl := hn.text_eq hb
      rw [if_pos rfl]
  · intro k hk
    rw [List.map_append] at hk
    have hne : k ≠ l := by
      rintro rfl
      exact hk (List.mem_append_right _ (by simp [hn.file?_eq]))
    rw [Tree.get?_put _ (Tree.ne_nil_of_bytes? hfile), if_neg hne]
    exact h.rest k fun hm => hk (List.mem_append_left _ hm)
  · intro hidle
    have hw := hidle names (List.mem_append_right _ List.mem_cons_self)
    rw [hn.wantsFix_eq, ho] at hw
    cases hw

end Rewritten

/-- the paths of `done` that a run counts as fixed; a dry run changes nothing, so it counts each
path to a file -/
def fixedNames (check : Bool) (t : Tree) (root : Path) (done : List (List Name)) :
    List (List Name) :=
  (if check then done else firsts (file? t root) done).filter (wantsFix t root)

/-- where a run over `t` stands after the paths of `done` -/
structure After (check : Bool) (t : Tree) (root : Path) (done : List (List Name)) (p : Progress) :
    Prop where
  dry : check = true → p.tree = t
  real : check = false → Rewritten t root done p.tree
  tally : Tally p.summary done.length (fixedNames check t root done)

namespace After
variable {t : Tree} {root : Path} {done : List (List Name)} {names : List Name} {l : Location}
  {text : List Char} {p : Progress}

theorem length_concat : (done ++ [names]).length = done.length + 1 := by
  rw [List.length_append, List.length_singleton]

theorem dryStep (c : Call) (hc : c.order.check = true) (h : After true t root done p)
    (hn : Holds t root names l text) :
    ∃ p', step c.order c.sink root names p = .ok p' ∧ After true t root (done ++ [names]) p' := by
  have ht := h.dry rfl
  have hn' : Holds p.tree root names l text := by rwa [ht]
  have hw := hn.wantsFix_eq
  cases ho : isOpen text with
  | false =>
    obtain ⟨p', hp, htree, hsum⟩ := c.step_of_closed hn' ho
    refine ⟨p', hp, fun _ => htree.trans ht, fun hf => (by cases hf), ?_⟩
    have hnames : fixedNames true t root (done ++ [names]) = fixedNames true t root done := by
      simp [fixedNames, hw, ho]
    rw [hsum, length_concat, hnames]
    exact h.tally.countSkipped
  | true =>
    obtain ⟨p', hp, htree, hsum⟩ := c.step_of_open hn' ho
    rw [hc, if_pos rfl] at htree
    refine ⟨p', hp, fun _ => htree.trans ht, fun hf => (by cases hf), ?_⟩
    have hnames : fixedNames true t root (done ++ [names]) =
        fixedNames true t root done ++ [names] := by
      simp [fixedNames, hw, ho]
    rw [hsum, length_concat, hnames]
    exact h.tally.countFixed names

theorem realStep (c : Call) (hc : c.order.check = false) (h : After false t root done p)
    (hn : Holds t root names l text) :
    ∃ p', step c.order c.sink root names p = .ok p' ∧ After false t root (done ++ [names]) p' := by
  have hr := h.real rfl
  have hw := hn.wantsFix_eq
  have hfile := hn.file?_eq
  by_cases hl : some l ∈ done.map (file? t root)
  · -- an earlier path led to the same file
    obtain ⟨text', hn', ho⟩ := hr.holds_of_mem hn hl
    obtain ⟨p', hp, htree, hsum⟩ := c.step_of_closed hn' ho
    have hl' : file? t root names ∈ done.map (file? t root) := by rwa [hfile]
    refine ⟨p', hp, fun hf => (by cases hf), fun _ => ?_, ?_⟩
    · rw [htree]
      exact hr.again hl'
    · have hnames : fixedNames false t root (done ++ [names]) = fixedNames false t root done := by
        simp only [fixedNames, Bool.false_eq_true, if_false, firsts_concat_of_mem hl']
      rw [hsum, length_concat, hnames]
      exact h.tally.countSkipped
  · have hn' := hr.holds_of_not_mem hn hl
    have hl' : file? t root names ∉ done.map (file? t root) := by rwa [hfile]
    have hnames : fixedNames false t root (done ++ [names]) =
        fixedNames false t root done ++ if isOpen text then [names] else [] := by
      simp only [fixedNames, Bool.false_eq_true, if_false, firsts_concat_of_not_mem hl',
        List.filter_append, List.filter_singleton, hw, cond_eq_ite]
    cases ho : isOpen text with
    | false =>
      obtain ⟨p', hp, htree, hsum⟩ := c.step_of_closed hn' ho
      refine ⟨p', hp, fun hf => (by cases hf), fun _ => ?_, ?_⟩
      · rw [htree]
        exact hr.pass hn hl ho
      · rw [hsum, length_concat, hnames, ho]
        simpa using h.tally.countSkipped
    | true =>
      obtain ⟨p', hp, htree, hsum⟩ := c.step_of_open hn' ho
      rw [hc] at htree
      refine ⟨p', hp, fun hf => (by cases hf), fun _ => ?_, ?_⟩
      · rw [htree]
        exact hr.put hn hl ho
      · rw [hsum, length_concat, hnames, ho]
        exact h.tally.countFixed names

theorem step (c : Call) (h : After c.order.check t root done p) (hn : Holds t root names l text) :
    ∃ p', step c.order c.sink root names p = .ok p' ∧
      After c.order.check t root (done ++ [names]) p' := by
  cases hc : c.order.check with
  | true =>
    rw [hc] at h
    exact h.dryStep c hc hn
  | false =>
    rw [hc] at h
    exact h.realStep c hc hn

end After

/-! ## a run -/

theorem steps_append (o : Order) (sink : Log.Sink) (root : Path) {as bs : List (List Name)}
    {p q : Progress} (h : steps o sink root as p = (q, none)) :
    steps o sink root (as ++ bs) p = steps o sink root bs q := by
  induction as generalizing p with
  | nil =>
    cases h
    rfl
  | cons names as ih =>
    rw [List.cons_append, steps]
    rw [steps] at h
    split at h
    · cases h
    · exact ih h

/-- the file of a path is there and can be read -/
def Readable (t : Tree) (root : Path) (names : List Name) : Prop :=
  ∃ l text, Holds t root names l text

def Unreadable (t : Tree) (root : Path) (names : List Name) (fault : Utf8.Fault) : Prop :=
  ∃ l bs, t.Reaches (Discovery.path root names) l ∧ t.bytes? l = some bs ∧
    Utf8.decode bs = .error fault

theorem readable_or {t : Tree} {root : Path} {names : List Name} {l : Location}
    (h : t.Reaches (Discovery.path root names) l) :
    Readable t root names ∨ ∃ fault, Unreadable t root names fault := by
  obtain ⟨bs, hb⟩ := Option.isSome_iff_exists.mp h.isFile
  cases hd : Utf8.decode bs with
  | ok text => exact .inl ⟨l, text, h, by rw [hb, Utf8.decode_eq_ok_iff.mp hd]⟩
  | error fault => exact .inr ⟨fault, l, bs, h, hb, hd⟩

namespace After
variable {t : Tree} {root : Path} {done : List (List Name)} {p : Progress}

theorem start (check : Bool) (t : Tree) (root : Path) {p : Progress} (ht : p.tree = t)
    (hs : p.summary = {}) : After check t root [] p := by
  refine ⟨fun _ => ht, fun _ => by rw [ht]; exact .refl t root, ?_⟩
  rw [hs]
  cases check with
  | true => exact ⟨rfl, rfl, rfl⟩
  | false => exact ⟨rfl, rfl, rfl⟩

theorem steps (c : Call) (h : After c.order.check t root done p) {rest : List (List Name)}
    (hr : ∀ names ∈ rest, Readable t root names) :
    ∃ p', steps c.order c.sink root rest p = (p', none) ∧
      After c.order.check t root (done ++ rest) p' := by
  induction rest generalizing done p with
  | nil => exact ⟨p, rfl, by rwa [List.append_nil]⟩
  | cons names rest ih =>
    obtain ⟨l, text, hn⟩ := hr names List.mem_cons_self
    obtain ⟨p₁, hp₁, h₁⟩ := h.step c hn
    obtain ⟨p₂, hp₂, h₂⟩ := ih h₁ fun ns hns => hr ns (List.mem_cons_of_mem _ hns)
    refine ⟨p₂, ?_, by rwa [List.append_assoc] at h₂⟩
    rw [Batch.steps, hp₁]
    exact hp₂

/-- no earlier path leads to a file that cannot be read, so it is as it was -/
theorem bytes?_of_unreadable {check : Bool} (h : After check t root done p)
    (hd : ∀ names ∈ done, Readable t root names) {l : Location} {bs : List UInt8}
    (hb : t.bytes? l = some bs) (hw : ¬ Utf8.WellFormed bs) : p.tree.bytes? l = some bs := by
  cases check with
  | true => rwa [h.dry rfl]
  | false =>
    refine ((h.real rfl).bytes?_of_not_mem fun hl => ?_).trans hb
    obtain ⟨names, hn, hfile⟩ := List.mem_map.mp hl
    obtain ⟨k, text, hk⟩ := hd names hn
    obtain rfl := hk.location_eq hfile
    exact hw ⟨text, Option.some.inj (hb.symm.trans hk.bytes)⟩

theorem sameLayout {check : Bool} (h : After check t root done p) : t.SameLayout p.tree := by
  cases check with
  | true =>
    rw [h.dry rfl]
    exact .refl t
  | false => exact (h.real rfl).layout

theorem step_unreadable (c : Call) (h : After c.order.check t root done p)
    (hd : ∀ names ∈ done, Readable t root names) {names : List Name} {fault : Utf8.Fault}
    (hn : Unreadable t root names fault) :
    Batch.step c.order c.sink root names p = .error (.notUtf8 fault) := by
  obtain ⟨l, bs, hr, hb, hf⟩ := hn
  have hw := Utf8.exists_fault_iff.mp ⟨fault, hf⟩
  exact c.step_notUtf8 (hr.sameLayout h.sameLayout) (h.bytes?_of_unreadable hd hb hw) hf

end After

end Batch

end Rebind
