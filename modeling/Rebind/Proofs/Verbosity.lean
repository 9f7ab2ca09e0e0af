import Rebind.Proofs.Effects
import Rebind.Proofs.Runs

/-!
# What the verbosity decides

A run goes the same way whatever is written of it: its records are those of the run that writes all
of them, less those that do not pass (`Call.run_eq_heard`).  So one run has to be looked at, the one
that writes everything (`Call.aloud`).  After its first record it writes one for each file that it
has worked on (`Told`), and a higher verbosity lets through what a lower one does.

`Invocation.verbosity_decides_records` compares two invocations that differ in their verbosity.
-/

namespace Rebind

/-! ## levels -/

namespace Log

/-- each step of verbosity lowers the lowest level by one, down to none -/
theorem Level.rank_ofVerbosity (v : Nat) : (Level.ofVerbosity v).rank = 2 - v := by
  unfold ofVerbosity
  split
  · have : v = 0 := by omega
    rw [this]
    rfl
  split
  · have : v = 1 := by omega
    rw [this]
    rfl
  · have : 2 - v = 0 := by omega
    rw [this]
    rfl

theorem Record.passes_ofVerbosity {v : Nat} {r : Record} :
    r.passes (.ofVerbosity v) = true ↔ 2 ≤ v + r.level.rank := by
  rw [passes, decide_eq_true_iff, Level.rank_ofVerbosity]
  omega

theorem Record.passes_debug (r : Record) : r.passes .debug = true :=
  decide_eq_true (Nat.zero_le _)

/-- the message begins with the word -/
def Record.begins (word : List Char) (r : Record) : Bool := (word ++ [' ']).isPrefixOf r.message

end Log

namespace Batch

/-! ## one file, and what is told of it -/

/-- what became of a file, by its names below the root -/
structure Verdict where
  names : List Name
  outcome : Outcome

namespace Verdict

def record (o : Order) (root : Path) (v : Verdict) : Log.Record :=
  let path := Discovery.path root v.names
  if v.outcome = .fixed then fixed o path else skipped o path v.outcome

def counted (v : Verdict) (s : Summary) : Summary :=
  if v.outcome = .fixed then countFixed ⟨.here, v.names⟩ s else countSkipped s

end Verdict

/-- reads, fixes and writes a file: the tree it leaves and what became of the text -/
def settle (o : Order) (root : Path) (names : List Name) (t : Tree) :
    Except Failure (Tree × Outcome) := do
  let path := Discovery.path root names
  let text ← t.readText [] path
  let r := fix (importPath [] path (root.join generatedApi)) text
  let tree ← if r.outcome = .fixed ∧ ¬ o.check then t.writeText [] path r.text else .ok t
  return (tree, r.outcome)

/-- the progress after one more verdict, the tree being `tree` by then -/
def Progress.tell (o : Order) (sink : Log.Sink) (root : Path) (v : Verdict) (tree : Tree)
    (p : Progress) : Progress :=
  { p with tree, summary := v.counted p.summary }.log sink (v.record o root)

/-- what is written of a step has no part in what becomes of its file -/
theorem step_eq (o : Order) (sink : Log.Sink) (root : Path) (names : List Name) (p : Progress) :
    step o sink root names p =
      (settle o root names p.tree).map fun r => p.tell o sink root ⟨names, r.2⟩ r.1 := by
  rw [step, settle]
  cases p.tree.readText [] (Discovery.path root names) with
  | error f => rfl
  | ok text =>
    simp only [bind, Except.bind, pure, Except.pure, Progress.tell]
    generalize fix _ text = r
    -- only a fixed text is written, and only by a real run
    by_cases hr : r.outcome = .fixed
    · cases hc : o.check with
      | true => simp [hr, Verdict.counted, Verdict.record, Except.map]
      | false =>
        simp only [hr, ne_eq, not_true_eq_false, if_false, Bool.false_eq_true, not_false_eq_true,
          and_self, if_true]
        cases p.tree.writeText [] (Discovery.path root names) r.text with
        | error f => rfl
        | ok tree => rfl
    · simp [hr, Verdict.counted, Verdict.record, Except.map]

/-! ## less of a run -/

/-- the progress of a run of which less is written -/
def Progress.heard (lowest : Log.Level) (p : Progress) : Progress :=
  { p with records := p.records.filter (·.passes lowest) }

/-- the end of a run of which less is written -/
def Ending.heard (lowest : Log.Level) (e : Ending) : Ending :=
  { e with records := e.records.filter (·.passes lowest) }

namespace Call
variable (c : Call)

def aloud : Call := { c with sink := { lowest := .debug }, noFile := rfl }

theorem log_aloud (p : Progress) (r : Log.Record) :
    p.log c.aloud.sink r = { p with records := p.records ++ [r] } := by
  show (if r.passes .debug then _ else _) = _
  rw [if_pos r.passes_debug]
  rfl

theorem log_heard (p : Progress) (r : Log.Record) :
    (p.heard c.sink.lowest).log c.sink r = (p.log c.aloud.sink r).heard c.sink.lowest := by
  rw [log_aloud]
  unfold Progress.log Progress.heard Log.Sink.store
  rw [c.noFile]
  dsimp only
  rw [List.filter_append, List.filter_singleton]
  cases r.passes c.sink.lowest with
  | true => rfl
  | false => simp

theorem step_heard (root : Path) (names : List Name) (p : Progress) :
    step c.order c.sink root names (p.heard c.sink.lowest) =
      (step c.order c.aloud.sink root names p).map (Progress.heard c.sink.lowest) := by
  rw [step_eq, step_eq]
  show (settle c.order root names p.tree).map _ = _
  cases settle c.order root names p.tree with
  | error f => rfl
  | ok r =>
    exact congrArg Except.ok
      (c.log_heard { p with tree := r.1, summary := Verdict.counted ⟨names, r.2⟩ p.summary } _)

theorem steps_heard (root : Path) (found : List (List Name)) (p : Progress) :
    steps c.order c.sink root found (p.heard c.sink.lowest) =
      ((steps c.order c.aloud.sink root found p).1.heard c.sink.lowest,
        (steps c.order c.aloud.sink root found p).2) := by
  induction found generalizing p with
  | nil => rfl
  | cons names found ih =>
    rw [steps, steps, c.step_heard]
    cases step c.order c.aloud.sink root names p with
    | error f => rfl
    | ok q => exact ih q

/-- less is written, and nothing else: a run goes the way of the one that writes all its records -/
theorem run_eq_heard (t : Tree) : c.run t = (c.aloud.run t).heard c.sink.lowest := by
  cases hroot : t.realPath c.cwd c.order.root with
  | error f =>
    simp only [run, aloud, Batch.run, hroot]
    rfl
  | ok root =>
    cases hfound : Discovery.findNames t [] root c.order.extension with
    | error f =>
      simp only [run, aloud, Batch.run, hroot, hfound]
      rfl
    | ok found =>
      have hopening : c.opening root found t = (c.aloud.opening root found t).heard c.sink.lowest :=
        c.log_heard { tree := t } _
      rw [run_of_found hroot hfound, run_of_found (c := c.aloud) hroot hfound, hopening,
        c.steps_heard, show c.aloud.order = c.order from rfl]
      generalize steps c.order c.aloud.sink root found _ = r
      obtain ⟨p, f⟩ := r
      cases f with
      | some f => rfl
      | none => rfl

end Call

/-! ## all that a run tells -/

/-- what a run that writes all its records has done after the files of `vs`, of the `count` files
that it found -/
structure Told (o : Order) (root : Path) (count : Nat) (vs : List Verdict) (p : Progress) :
    Prop where
  records : p.records = discovered o root count :: vs.map (·.record o root)
  tally : Tally p.summary vs.length ((vs.filter (·.outcome = .fixed)).map (·.names))

namespace Told
variable {c : Call} {root : Path} {count : Nat} {vs : List Verdict} {p q : Progress}

theorem start (c : Call) (root : Path) (found : List (List Name)) (t : Tree) :
    Told c.order root found.length [] (c.aloud.opening root found t) := by
  rw [Call.opening, c.log_aloud]
  exact ⟨rfl, rfl, rfl, rfl⟩

theorem tell (h : Told c.order root count vs p) (v : Verdict) (tree : Tree) :
    Told c.order root count (vs ++ [v]) (p.tell c.order c.aloud.sink root v tree) := by
  constructor
  · rw [Progress.tell, c.log_aloud]
    show p.records ++ [_] = _
    rw [h.records, List.map_append]
    rfl
  · rw [Progress.tell, c.aloud.summary_log, List.length_append, List.filter_append,
      List.filter_singleton, Verdict.counted]
    by_cases hv : v.outcome = .fixed
    · simp only [hv, if_true, decide_true, cond_true, List.map_append]
      exact h.tally.countFixed v.names
    · simp only [hv, if_false, decide_false, cond_false, List.append_nil]
      exact h.tally.countSkipped

/-- a step that is not refused tells one more verdict, on its file -/
theorem step {names : List Name} (h : Told c.order root count vs p)
    (hs : Batch.step c.order c.aloud.sink root names p = .ok q) :
    ∃ v : Verdict, v.names = names ∧ Told c.order root count (vs ++ [v]) q := by
  rw [step_eq] at hs
  cases hsettle : settle c.order root names p.tree with
  | error f =>
    rw [hsettle] at hs
    cases hs
  | ok r =>
    rw [hsettle] at hs
    obtain rfl := Except.ok.inj hs
    exact ⟨⟨names, r.2⟩, rfl, h.tell _ r.1⟩

/-- steps tell a verdict on each file in order, up to the first failure -/
theorem steps (h : Told c.order root count vs p) (found : List (List Name)) :
    ∃ ws : List Verdict, ws.map (·.names) <+: found ∧
      Told c.order root count (vs ++ ws) (Batch.steps c.order c.aloud.sink root found p).1 ∧
      ((Batch.steps c.order c.aloud.sink root found p).2 = none → ws.map (·.names) = found) := by
  induction found generalizing vs p with
  | nil => exact ⟨[], List.prefix_rfl, by rwa [List.append_nil], fun _ => rfl⟩
  | cons names found ih =>
    rw [Batch.steps]
    cases hstep : Batch.step c.order c.aloud.sink root names p with
    | error f => exact ⟨[], List.nil_prefix, by rwa [List.append_nil], fun hf => (by cases hf)⟩
    | ok q =>
      obtain ⟨v, rfl, hv⟩ := h.step hstep
      obtain ⟨ws, hws, htold, hall⟩ := ih hv
      refine ⟨v :: ws, List.cons_prefix_cons.mpr ⟨rfl, hws⟩, ?_, fun hf => ?_⟩
      · rwa [List.append_assoc] at htold
      · rw [List.map_cons, hall hf]

end Told

/-! ## what the records say -/

namespace Verdict

theorem begins_skipped (o : Order) (root : Path) (v : Verdict) :
    (v.record o root).begins "Skipped".toList = !decide (v.outcome = .fixed) := by
  unfold record
  by_cases hv : v.outcome = .fixed
  · rw [if_pos hv, decide_eq_true hv]
    cases hc : o.check with
    | true => simp [fixed, fixLabel, Log.Record.begins, hc, List.isPrefixOf]
    | false => simp [fixed, fixLabel, Log.Record.begins, hc, List.isPrefixOf]
  · rw [if_neg hv, decide_eq_false hv]
    simp [skipped, Log.Record.begins]

theorem begins_fixed (o : Order) (root : Path) (v : Verdict) :
    (v.record o root).begins (fixLabel o.check) = decide (v.outcome = .fixed) := by
  unfold record
  by_cases hv : v.outcome = .fixed
  · rw [if_pos hv, decide_eq_true hv]
    show List.isPrefixOf (fixLabel o.check ++ [' ']) (fixLabel o.check ++ ' ' :: _) = true
    rw [List.isPrefixOf_iff_prefix]
    exact ⟨_, List.append_assoc _ _ _⟩
  · rw [if_neg hv, decide_eq_false hv]
    cases hc : o.check with
    | true => simp [skipped, fixLabel, Log.Record.begins, List.isPrefixOf]
    | false => simp [skipped, fixLabel, Log.Record.begins, List.isPrefixOf]

end Verdict

theorem begins_discovered (o : Order) (root : Path) (count : Nat) :
    (discovered o root count).begins "Skipped".toList = false ∧
      (discovered o root count).begins (fixLabel o.check) = false := by
  cases hc : o.check with
  | true => simp [discovered, fixLabel, Log.Record.begins, List.isPrefixOf]
  | false => simp [discovered, fixLabel, Log.Record.begins, List.isPrefixOf]

/-- the records `rs` of a run over the files below `root` that returned the summary `s`, told by
what became of each file -/
structure Account (o : Order) (t : Tree) (root : Path) (vs : List Verdict) (rs : List Log.Record)
    (s : Summary) : Prop where
  found : Discovery.findNames t [] root o.extension = .ok (vs.map (·.names))
  records : rs = discovered o root vs.length :: vs.map (·.record o root)
  checked : s.checked = vs.length
  skipped : s.skipped = rs.countP (·.begins "Skipped".toList)
  fixed : (rs.filter (·.begins (fixLabel o.check))).map (·.message) =
    s.fixed.map fun p => fixLabel o.check ++ ' ' :: (Discovery.path root p.names).text

namespace Told
variable {o : Order} {root : Path} {count : Nat} {vs : List Verdict} {p : Progress}
  (h : Told o root count vs p)
include h

theorem countP_skipped :
    p.records.countP (·.begins "Skipped".toList) =
      vs.countP fun v => !decide (v.outcome = .fixed) := by
  have hfirst := (begins_discovered o root count).1
  rw [h.records, List.countP_cons_of_neg (by rw [hfirst]; exact Bool.false_ne_true),
    List.countP_map]
  refine List.countP_congr fun v _ => ?_
  rw [Function.comp_apply, v.begins_skipped]

theorem filter_fixed :
    p.records.filter (·.begins (fixLabel o.check)) =
      (vs.filter (·.outcome = .fixed)).map (·.record o root) := by
  have hfirst := (begins_discovered o root count).2
  rw [h.records, List.filter_cons_of_neg (by rw [hfirst]; exact Bool.false_ne_true),
    List.filter_map]
  congr 1
  refine List.filter_congr fun v _ => ?_
  rw [Function.comp_apply, v.begins_fixed]

/-- as many lines tell of skipped files as the summary counts -/
theorem skipped_eq : p.summary.skipped = p.records.countP (·.begins "Skipped".toList) := by
  have hadds := h.tally.adds
  rw [h.tally.checked, h.tally.fixed, List.length_map, List.length_map,
    ← List.countP_eq_length_filter,
    List.length_eq_countP_add_countP fun v : Verdict => v.outcome = .fixed] at hadds
  rw [h.countP_skipped]
  simp only [decide_eq_true_eq] at hadds
  simp only [← decide_not]
  omega

/-- the lines that tell of fixed files name those of the summary -/
theorem messages_fixed :
    (p.records.filter (·.begins (fixLabel o.check))).map (·.message) =
      p.summary.fixed.map fun q =>
        fixLabel o.check ++ ' ' :: (Discovery.path root q.names).text := by
  rw [h.filter_fixed, h.tally.fixed, List.map_map, List.map_map, List.map_map]
  refine List.map_congr_left fun v hv => ?_
  have hout : v.outcome = .fixed := of_decide_eq_true (List.mem_filter.mp hv).2
  show (v.record o root).message = _
  rw [Verdict.record, if_pos hout]
  rfl

end Told

/-- a run fails before it has found its files, or it tells how many there are and what became of
each, up to the first failure -/
theorem Call.told_run (c : Call) (t : Tree) :
    ((c.aloud.run t).records = [] ∧ ∃ f, (c.aloud.run t).result = .error f) ∨
    ∃ root found vs p, t.realPath c.cwd c.order.root = .ok root ∧
      Discovery.findNames t [] root c.order.extension = .ok found ∧
      vs.map (·.names) <+: found ∧ Told c.order root found.length vs p ∧
      (c.aloud.run t).records = p.records ∧
      ∀ s, (c.aloud.run t).result = .ok s → vs.map (·.names) = found ∧ s = p.summary := by
  cases hroot : t.realPath c.cwd c.order.root with
  | error f =>
    refine .inl ?_
    simp only [run, aloud, Batch.run, hroot]
    exact ⟨trivial, f, rfl⟩
  | ok root =>
    cases hfound : Discovery.findNames t [] root c.order.extension with
    | error f =>
      refine .inl ?_
      simp only [run, aloud, Batch.run, hroot, hfound]
      exact ⟨trivial, f, rfl⟩
    | ok found =>
      -- the first record tells how many files there are, and each step one more verdict
      obtain ⟨vs, hvs, htold, hall⟩ := (Told.start c root found t).steps found
      refine .inr ⟨root, found, vs, _, rfl, hfound, hvs, htold, ?_⟩
      rw [run_of_found (c := c.aloud) hroot hfound, show c.aloud.order = c.order from rfl]
      generalize steps c.order c.aloud.sink root found _ = r at hall
      obtain ⟨p, f⟩ := r
      cases f with
      | some f => exact ⟨rfl, fun s hs => (by cases hs)⟩
      | none => exact ⟨rfl, fun s hs => ⟨hall rfl, (Except.ok.inj hs).symm⟩⟩

/-- a run that returns gives an account of itself -/
theorem Call.exists_account (c : Call) {t : Tree} {s : Summary}
    (h : (c.aloud.run t).result = .ok s) :
    ∃ root vs, t.realPath c.cwd c.order.root = .ok root ∧
      Account c.order t root vs (c.aloud.run t).records s := by
  rcases c.told_run t with ⟨-, f, hf⟩ | ⟨root, found, vs, p, hroot, hfound, -, htold, hrecs, hres⟩
  · rw [h] at hf
    cases hf
  · obtain ⟨rfl, rfl⟩ := hres s h
    rw [List.length_map] at htold
    rw [hrecs]
    exact ⟨root, vs, hroot, hfound, htold.records, htold.tally.checked, htold.skipped_eq,
      htold.messages_fixed⟩

theorem Verdict.rank_record (o : Order) (root : Path) (v : Verdict) :
    (v.record o root).level.rank ≤ 1 := by
  unfold record
  split
  · exact Nat.le_refl 1
  · exact Nat.zero_le 1

/-- no record of a run is a warning -/
theorem Call.rank_of_mem_records (c : Call) {t : Tree} {r : Log.Record}
    (h : r ∈ (c.aloud.run t).records) : r.level.rank ≤ 1 := by
  rcases c.told_run t with ⟨hnil, -⟩ | ⟨root, found, vs, p, -, -, -, htold, hrecs, -⟩
  · rw [hnil] at h
    cases h
  · rw [hrecs, htold.records] at h
    rcases List.mem_cons.mp h with rfl | h
    · exact Nat.zero_le 1
    · obtain ⟨v, -, rfl⟩ := List.mem_map.mp h
      exact v.rank_record c.order root

end Batch

/-! ## two invocations -/

namespace Invocation

/-- the run that an invocation makes over a root, its log going to the error stream alone -/
def call (i : Invocation) (s : Settings) (root : Path) : Batch.Call :=
  ⟨i.order s root, { lowest := .ofVerbosity s.verbose, stamp := i.stamp }, i.cwd, rfl⟩

/-- the root that a run is made over: the root of the settings, if it leads to a directory -/
def directory? (i : Invocation) (s : Settings) (t : Tree) : Option Path :=
  match s.root with
  | .nothing => none
  | .value root =>
    match t.leadsToDirectory i.cwd root with
    | .ok true => some root
    | _ => none

/-- the records that an invocation writes to the error stream, where it does not log to a file -/
def records (i : Invocation) (s : Settings) (t : Tree) : List Log.Record :=
  (i.directory? s t).elim [] fun root => ((i.call s root).run t).records

/-- the line that it writes there if its root is no directory -/
def refusal (i : Invocation) (s : Settings) (t : Tree) : List Char :=
  match s.root with
  | .nothing => []
  | .value root =>
    match t.leadsToDirectory i.cwd root with
    | .ok false => Arguments.errorLine ("directory not found: ".toList ++ root.text)
    | _ => []

section
variable {i : Invocation} {s : Settings} {t : Tree} {root : Path}

/-- work on a directory is the run that tells everything, with less of it written -/
theorem work_of_directory (h : t.leadsToDirectory i.cwd root = .ok true) :
    i.work s (i.call s root).sink t root =
      let e := (i.call s root).aloud.run t
      ⟨e.tree, e.result.toOption.elim [] fun summary => summary.report s.check s.extension.text,
        i.lines (e.records.filter (·.passes (.ofVerbosity s.verbose))),
        e.result.map fun _ => 0⟩ := by
  have hrun : Batch.run (i.order s root) (i.call s root).sink i.cwd t =
      ((i.call s root).aloud.run t).heard (.ofVerbosity s.verbose) :=
    (i.call s root).run_eq_heard t
  rw [work, h]
  dsimp only
  rw [hrun]
  generalize (i.call s root).aloud.run t = e
  obtain ⟨tree, records, result⟩ := e
  cases result with
  | error f => rfl
  | ok summary => rfl

theorem openSink_of_noFile (hlog : s.logFile = none) (root : Path) :
    i.openSink t s = (t, .ok (i.call s root).sink) := by
  rw [openSink, hlog]
  rfl

/-- what is written to the error stream: the line of a refused root, or the records -/
theorem errors_run (hparse : Arguments.parse i.arguments = .ok s) (hlog : s.logFile = none) :
    (i.run t).errors = i.refusal s t ++ i.lines (i.records s t) := by
  cases hroot : s.root with
  | nothing =>
    rw [run_of_rootNotGiven hparse (openSink_of_noFile hlog defaultRoot) hroot]
    simp only [refusal, records, directory?, hroot]
    rfl
  | value root =>
    rw [run_of_root hparse (openSink_of_noFile hlog root) hroot]
    simp only [refusal, records, directory?, hroot]
    match hdir : t.leadsToDirectory i.cwd root with
    | .error f =>
      rw [work, hdir]
      rfl
    | .ok false =>
      rw [work, hdir]
      exact (List.append_nil _).symm
    | .ok true =>
      rw [work_of_directory hdir]
      dsimp only [Option.elim_some]
      rw [(i.call s root).run_eq_heard]
      rfl

end

/-- `j` is started where `i` is and has its settings, but for a verbosity at least as high, and
neither logs to a file -/
structure Quieter (i : Invocation) (s : Settings) (j : Invocation) (s' : Settings) : Prop where
  cwd : j.cwd = i.cwd
  speaker : j.speaker = i.speaker
  settings : s' = { s with verbose := s'.verbose }
  noFile : s.logFile = none
  verbose : s.verbose ≤ s'.verbose

namespace Quieter
variable {i j : Invocation} {s s' : Settings} (h : Quieter i s j s')
include h

theorem root_eq : s'.root = s.root := by rw [h.settings]

theorem noFile' : s'.logFile = none := by rw [h.settings, h.noFile]

theorem call_aloud (root : Path) : (j.call s' root).aloud = (i.call s root).aloud := by
  have horder : j.order s' root = i.order s root := by
    rw [order, order, h.speaker, h.settings]
  simp only [call, Batch.Call.aloud, horder, h.cwd]

theorem directory?_eq (t : Tree) : j.directory? s' t = i.directory? s t := by
  rw [directory?, directory?, h.root_eq, h.cwd]

theorem refusal_eq (t : Tree) : j.refusal s' t = i.refusal s t := by
  rw [refusal, refusal, h.root_eq, h.cwd]

theorem records_sublist (t : Tree) : (i.records s t).Sublist (j.records s' t) := by
  rw [records, records, h.directory?_eq]
  cases i.directory? s t with
  | none => exact List.Sublist.slnil
  | some root =>
    dsimp only [Option.elim_some]
    rw [(i.call s root).run_eq_heard, (j.call s' root).run_eq_heard, h.call_aloud]
    refine List.monotone_filter_right _ fun r hr => ?_
    rw [call, Log.Record.passes_ofVerbosity] at hr ⊢
    have := h.verbose
    omega

/-- the two end alike in all but what they write to the error stream -/
theorem run_eq (hi : Arguments.parse i.arguments = .ok s)
    (hj : Arguments.parse j.arguments = .ok s') (t : Tree) :
    j.run t = { i.run t with errors := (j.run t).errors } := by
  cases hroot : s.root with
  | nothing =>
    rw [run_of_rootNotGiven hi (openSink_of_noFile h.noFile defaultRoot) hroot,
      run_of_rootNotGiven hj (openSink_of_noFile h.noFile' defaultRoot) (h.root_eq.trans hroot)]
  | value root =>
    rw [run_of_root hi (openSink_of_noFile h.noFile root) hroot,
      run_of_root hj (openSink_of_noFile h.noFile' root) (h.root_eq.trans hroot)]
    match hdir : t.leadsToDirectory i.cwd root with
    | .error f =>
      rw [work, work, h.cwd, hdir]
    | .ok false =>
      rw [work, work, h.cwd, hdir]
    | .ok true =>
      rw [work_of_directory hdir, work_of_directory (h.cwd ▸ hdir), h.call_aloud]
      dsimp only
      rw [h.settings]

end Quieter

/-- at verbosity 0 no record is written -/
theorem records_of_zero {i : Invocation} {s : Settings} (h : s.verbose = 0) (t : Tree) :
    i.records s t = [] := by
  rw [records]
  cases i.directory? s t with
  | none => rfl
  | some root =>
    dsimp only [Option.elim_some]
    rw [(i.call s root).run_eq_heard]
    refine List.filter_eq_nil_iff.mpr fun r hr => ?_
    have hrank := (i.call s root).rank_of_mem_records hr
    rw [call, Log.Record.passes_ofVerbosity, h]
    omega

/-- from verbosity 2 on all records are written -/
theorem run_of_loud {i : Invocation} {s : Settings} (h : 2 ≤ s.verbose) (root : Path) (t : Tree) :
    (i.call s root).run t = (i.call s root).aloud.run t := by
  rw [(i.call s root).run_eq_heard, Batch.Ending.heard, List.filter_eq_self.mpr fun r _ => ?_]
  rw [call, Log.Record.passes_ofVerbosity]
  omega

/-- only a run that returns ends with code 0 -/
theorem exists_summary {i : Invocation} {s : Settings} {t : Tree}
    (hparse : Arguments.parse i.arguments = .ok s) (hlog : s.logFile = none)
    (h : (i.run t).result = .ok 0) :
    ∃ root summary, i.directory? s t = some root ∧
      ((i.call s root).run t).result = .ok summary ∧
      (i.run t).output = summary.report s.check s.extension.text := by
  rw [directory?]
  cases hroot : s.root with
  | nothing =>
    rw [run_of_rootNotGiven hparse (openSink_of_noFile hlog defaultRoot) hroot] at h
    cases h
  | value root =>
    rw [run_of_root hparse (openSink_of_noFile hlog root) hroot] at h ⊢
    match hdir : t.leadsToDirectory i.cwd root with
    | .error f =>
      rw [work, hdir] at h
      cases h
    | .ok false =>
      rw [work, hdir] at h
      exact absurd (Except.ok.inj h) (by decide)
    | .ok true =>
      rw [work_of_directory hdir] at h ⊢
      dsimp only at h ⊢
      cases hres : ((i.call s root).aloud.run t).result with
      | error f =>
        rw [hres] at h
        cases h
      | ok summary =>
        refine ⟨root, summary, by rw [hdir], ?_, rfl⟩
        rw [(i.call s root).run_eq_heard]
        exact hres

/-- a start over the twins that is asked for `verbose` -/
def twinStart (verbose : List (List Char)) : Invocation where
  arguments := "--root".toList :: "/r".toList :: verbose
  cwd := []
  home := fun _ => none
  stamp := []

def twinSettings (verbose : Nat) : Settings := { root := .value Batch.twinRoot, verbose }

end Invocation

end Rebind
