import Rebind.Proofs.Confined
import Rebind.Proofs.LogFile

/-!
# What an invocation does to the files of a tree

An invocation can end in many places: the command line is refused, the log file cannot be opened,
the root is no directory or cannot be looked at, the run fails on the way or returns.  What holds at
each of these ends is put together here from two relations between trees: opening the log makes at
most one file (`Tree.Opened`), and working on the root changes nothing but the log and, unless it is
a dry run, the files that discovered paths lead to (`Batch.Confined`).

What is found is found in the tree with the log file open, so a log below the root may be found
too; then it may be read, and written like any other file.
-/

namespace Rebind

/-- only something too long keeps the file system from answering -/
theorem Tree.ask_eq_error {t : Tree} {cwd : Location} {text : List Char} {p : Path}
    {question : Location → Bool} {f : Failure} (h : t.ask cwd text p question = .error f) :
    ∃ text', f = .refused .nameTooLong text' := by
  unfold Tree.ask at h
  split at h
  · cases h
  · cases h
    exact ⟨_, rfl⟩
  · cases h

namespace Invocation
variable (i : Invocation)

/-- a path that is found below the root of these settings leads to the file at `l` -/
def LeadsTo (s : Settings) (t : Tree) (l : Location) : Prop :=
  ∃ root, s.root = .value root ∧ t.leadsToDirectory i.cwd root = .ok true ∧
    Batch.Leads (i.order s root) i.cwd t l

/-- what an invocation may have done from `t` to its ending `e`, if its settings are `s` and `t₁` is
the tree with the log file open -/
structure Effects (s : Settings) (file : Option Location) (t t₁ : Tree) (e : Ending) : Prop where
  notDirectory : ∀ root, s.root = .value root → t₁.leadsToDirectory i.cwd root = .ok false →
    e.result = .ok Arguments.refusedCode
  rootRefused : ∀ root f, s.root = .value root → t₁.leadsToDirectory i.cwd root = .error f →
    (∃ text, f = .refused .nameTooLong text) ∧ e.result = .error f
  rootNotGiven : s.root = .nothing → e.result = .error .rootNotGiven
  onlyLog : (s.check = true ∨
      ∀ root, s.root = .value root → t₁.leadsToDirectory i.cwd root ≠ .ok true) →
    ∀ l, file ≠ some l → e.tree.bytes? l = t.bytes? l
  onlyFound : ∀ l, e.tree.bytes? l ≠ t.bytes? l → file = some l ∨ i.LeadsTo s t₁ l
  logGrows : ∀ l old, file = some l → t.bytes? l = some old → ¬ i.LeadsTo s t₁ l →
    ∃ new, e.tree.bytes? l = some new ∧ old <+: new

variable {i} {s : Settings} {sink : Log.Sink} {t t₁ : Tree}

/-! ## working on the root -/

theorem result_of_notDirectory {root : Path}
    (h : t.leadsToDirectory i.cwd root = .ok false) :
    (i.work s sink t root).result = .ok Arguments.refusedCode := by
  unfold work
  rw [h]

theorem result_of_refused {root : Path} {f : Failure}
    (h : t.leadsToDirectory i.cwd root = .error f) : (i.work s sink t root).result = .error f := by
  unfold work
  rw [h]

/-- work on a root is confined to the log and to what a real run finds in a directory -/
theorem confined_work {root : Path} (hroot : s.root = .value root) :
    Batch.Confined sink.file (fun l => s.check = false ∧ i.LeadsTo s t l) t
      (i.work s sink t root).tree := by
  unfold work
  split
  · exact .refl _ _ t
  · exact .refl _ _ t
  · next hdir =>
    have hrun : Batch.Confined sink.file (fun l => s.check = false ∧ i.LeadsTo s t l) t
        (Batch.run (i.order s root) sink i.cwd t).tree :=
      (Batch.Confined.run (i.order s root) sink i.cwd t).mono
        fun l hl => ⟨hl.1, root, hroot, hdir, hl.2⟩
    dsimp only
    split
    · exact hrun
    · exact hrun

/-! ## the whole invocation -/

section
variable (hparse : Arguments.parse i.arguments = .ok s) (hsink : i.openSink t s = (t₁, .ok sink))
include hparse hsink

theorem run_of_rootNotGiven (hroot : s.root = .nothing) :
    i.run t = ⟨t₁, [], [], .error .rootNotGiven⟩ := by
  simp only [run, hparse, hsink, hroot]

theorem run_of_root {root : Path} (hroot : s.root = .value root) :
    i.run t = i.work s sink t₁ root := by
  simp only [run, hparse, hsink, hroot]

theorem confined_run :
    Batch.Confined sink.file (fun l => s.check = false ∧ i.LeadsTo s t₁ l) t₁ (i.run t).tree := by
  cases hroot : s.root with
  | nothing =>
    rw [run_of_rootNotGiven hparse hsink hroot]
    exact .refl _ _ t₁
  | value root =>
    rw [run_of_root hparse hsink hroot]
    exact confined_work hroot

theorem effects_run : i.Effects s sink.file t t₁ (i.run t) := by
  have hopened : Tree.Opened sink.file t t₁ := opened_of_openSink hsink
  have hconfined := confined_run hparse hsink
  have hother : ∀ l, sink.file ≠ some l → ¬ (s.check = false ∧ i.LeadsTo s t₁ l) →
      (i.run t).tree.bytes? l = t.bytes? l := by
    intro l hl hw
    rw [hconfined.bytes?_eq hl hw, hopened.others l hl]
  constructor
  · intro root hroot hdir
    rw [run_of_root hparse hsink hroot]
    exact result_of_notDirectory hdir
  · intro root f hroot hdir
    refine ⟨Tree.ask_eq_error hdir, ?_⟩
    rw [run_of_root hparse hsink hroot]
    exact result_of_refused hdir
  · intro hroot
    rw [run_of_rootNotGiven hparse hsink hroot]
  · intro h l hl
    refine hother l hl ?_
    rintro ⟨hreal, root, hroot, hdir, -⟩
    rcases h with hcheck | hnot
    · rw [hreal] at hcheck
      cases hcheck
    · exact hnot root hroot hdir
  · intro l hl
    by_contra hnot
    rw [not_or] at hnot
    exact hl (hother l hnot.1 fun hw => hnot.2 hw.2)
  · intro l old hl hold hnot
    refine hconfined.grows l (fun hw => hnot hw.2) old ?_
    rw [hopened.here l hl, hold]
    rfl

end

/-- what an invocation does to the files of a tree, wherever it ends: nothing if its command line is
refused, none of them changes if its log cannot be opened, and else see `Effects`; none vanishes -/
theorem run_effects (i : Invocation) (t : Tree) :
    match Arguments.parse i.arguments with
    | .error _ => (i.run t).tree = t
    | .ok s =>
      (∀ l, (t.bytes? l).isSome → ((i.run t).tree.bytes? l).isSome) ∧
        match i.openSink t s with
        | (_, .error f) =>
          (i.run t).result = .error f ∧ ∀ l, (i.run t).tree.bytes? l = t.bytes? l
        | (t₁, .ok sink) => i.Effects s sink.file t t₁ (i.run t) := by
  cases hparse : Arguments.parse i.arguments with
  | error stop =>
    simp only [run, hparse]
  | ok s =>
    dsimp only
    generalize hsink : i.openSink t s = opened
    obtain ⟨t₁, r⟩ := opened
    cases r with
    | error f =>
      have hopened : Tree.Opened none t t₁ := opened_of_openSink hsink
      have hrun : i.run t = ⟨t₁, [], [], .error f⟩ := by simp only [run, hparse, hsink]
      rw [hrun]
      exact ⟨fun l hl => by rwa [hopened.of_none], rfl, hopened.of_none⟩
    | ok sink =>
      have hopened : Tree.Opened sink.file t t₁ := opened_of_openSink hsink
      refine ⟨fun l hl => ?_, effects_run hparse hsink⟩
      rw [(confined_run hparse hsink).layout.isSome_bytes?]
      by_cases hfile : sink.file = some l
      · rw [hopened.here l hfile]
        rfl
      · rwa [hopened.others l hfile]

/-- a start over a root that is not there, with a log in a directory that is not there -/
def loggedStart : Invocation where
  arguments := ["--root".toList, "gone".toList, "--log-file".toList, "logs/l".toList]
  cwd := []
  home := fun _ => none
  stamp := []

def loggedSettings : Settings where
  root := .value ⟨.here, ["gone".toList]⟩
  logFile := some (.value ⟨.here, ["logs".toList, "l".toList]⟩)

/-- an empty tree with that log file open -/
def loggedTree : Tree :=
  ⟨[(["logs".toList], .directory), (["l".toList, "logs".toList], .file [])]⟩

/-- the log is made before the root turns out to be missing, and nothing else happens -/
theorem run_effects_logged :
    (loggedStart.run {}).result = .ok Arguments.refusedCode ∧
      ∀ l, l ≠ ["l".toList, "logs".toList] →
        (loggedStart.run {}).tree.bytes? l = ({} : Tree).bytes? l := by
  have hparse : Arguments.parse loggedStart.arguments = .ok loggedSettings := by decide +kernel
  have hsink : loggedStart.openSink {} loggedSettings =
      (loggedTree, .ok { file := some ["l".toList, "logs".toList] }) := by
    decide +kernel
  have hdir : loggedTree.leadsToDirectory [] ⟨.here, ["gone".toList]⟩ = .ok false := by
    decide +kernel
  have heffects := run_effects loggedStart {}
  rw [hparse] at heffects
  dsimp only at heffects
  rw [hsink] at heffects
  obtain ⟨-, heffects⟩ := heffects
  refine ⟨heffects.notDirectory _ rfl hdir, fun l hl => ?_⟩
  refine heffects.onlyLog (.inr fun root hroot => ?_) l fun he => hl (Option.some.inj he).symm
  cases hroot
  rw [show loggedTree.leadsToDirectory loggedStart.cwd _ = _ from hdir]
  intro he
  cases he

/-! ## a root that cannot be looked at -/

/-- a name of 256 bytes -/
def longName : Name := List.replicate 256 'a'

def longStart : Invocation where
  arguments := ["--root".toList, longName]
  cwd := []
  home := fun _ => none
  stamp := []

/-- nothing is there, and yet no exit code is returned -/
theorem run_longStart :
    Arguments.parse longStart.arguments = .ok { root := .value ⟨.here, [longName]⟩ } ∧
      (∀ l, ({} : Tree).target? [] ⟨.here, [longName]⟩ ≠ .ok l) ∧
      (longStart.run {}).result = .error (.refused .nameTooLong longName) := by
  have hparse : Arguments.parse longStart.arguments =
      .ok { root := .value ⟨.here, [longName]⟩ } := by
    decide +kernel
  have htarget : ({} : Tree).target? [] ⟨.here, [longName]⟩ = .error .nameTooLong := by
    decide +kernel
  refine ⟨hparse, fun l hl => ?_, ?_⟩
  · rw [htarget] at hl
    cases hl
  · decide +kernel

end Invocation

end Rebind
