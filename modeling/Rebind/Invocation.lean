import Rebind.Arguments.Usage
import Rebind.Batch

/-!
# an invocation of the program

The command line is read, the log file is opened, the root is checked, the run is made and
reported, in that order.  The log file, and the directories it needs, are made even if nothing is
logged or the root turns out to be missing.
-/

namespace Rebind

/-- a start of the program: its arguments, the directory it works in, the home directory of each
user (the own one under the empty name), the time stamp for its log, and the speaker that signs
the log records of the run -/
structure Invocation where
  arguments : List (List Char)
  cwd : Location
  home : Name → Option Path
  stamp : List Char
  speaker : List Char := Log.runSpeaker

namespace Invocation

/-! ## the log file -/

/-- a relative path whose first name begins with a tilde starts in a home directory -/
def expandHome (home : Name → Option Path) (p : Path) : Except Failure Path :=
  match p with
  | ⟨.here, ('~' :: user) :: rest⟩ =>
    if user.contains '\x00' then .error .nullByte
    else
      match home user with
      | none => .error .noHome
      | some h => .ok { h with names := h.names ++ rest }
  | _ => .ok p

/-- opens the log file, making it and the directories above it.  The directories are those of the
path as it is written; the file itself is opened under its absolute form. -/
def openLog (i : Invocation) (t : Tree) (p : Path) : Tree × Except Failure Location :=
  match expandHome i.home p with
  | .error f => (t, .error f)
  | .ok p =>
    match t.makeDirectories i.cwd p.parent with
    | (t, .error f) => (t, .error f)
    | (t, .ok ()) =>
      match t.openFile [] (p.absolute (namesTo i.cwd)) with
      | .error f => (t, .error f)
      | .ok (l, t) => (t, .ok l)

def openSink (i : Invocation) (t : Tree) (s : Settings) : Tree × Except Failure Log.Sink :=
  let sink : Log.Sink := { lowest := .ofVerbosity s.verbose, stamp := i.stamp }
  match s.logFile with
  | none => (t, .ok sink)
  | some .nothing => (t, .error .logFileNotGiven)
  | some (.value p) =>
    match i.openLog t p with
    | (t, .error f) => (t, .error f)
    | (t, .ok l) => (t, .ok { sink with file := some l })

/-! ## the whole invocation -/

/-- how an invocation ended: the tree it left, what it wrote to the two streams, and its exit code
or failure -/
structure Ending where
  tree : Tree
  output : List Char
  errors : List Char
  result : Except Failure Nat

def order (i : Invocation) (s : Settings) (root : Path) : Batch.Order :=
  { root, extension := s.extension, check := s.check, speaker := i.speaker }

def lines (i : Invocation) (rs : List Log.Record) : List Char := rs.flatMap (·.line i.stamp)

/-- makes and reports the run over a root, which has to be a directory -/
def work (i : Invocation) (s : Settings) (sink : Log.Sink) (t : Tree) (root : Path) : Ending :=
  match t.leadsToDirectory i.cwd root with
  | .error f => ⟨t, [], [], .error f⟩
  | .ok false =>
    ⟨t, [], Arguments.errorLine ("directory not found: ".toList ++ root.text),
      .ok Arguments.refusedCode⟩
  | .ok true =>
    let e := Batch.run (i.order s root) sink i.cwd t
    match e.result with
    | .error f => ⟨e.tree, [], i.lines e.records, .error f⟩
    | .ok summary =>
      ⟨e.tree, summary.report s.check s.extension.text, i.lines e.records, .ok 0⟩

def run (i : Invocation) (t : Tree) : Ending :=
  match Arguments.parse i.arguments with
  | .error stop =>
    let e := stop.ending
    ⟨t, e.output, e.errors, .ok e.code⟩
  | .ok s =>
    match i.openSink t s with
    | (t, .error f) => ⟨t, [], [], .error f⟩
    | (t, .ok sink) =>
      match s.root with
      | .nothing => ⟨t, [], [], .error .rootNotGiven⟩
      | .value root => i.work s sink t root

/-! ## the standalone start -/

/-- the directory that a standalone start belongs to: two levels above the real path of its file -/
def baseOf (t : Tree) (cwd : Location) (file : Path) : Except Failure Path := do
  let real ← t.realPath cwd file
  if real.names.length < 2 then .error .noGrandparent else .ok real.parent.parent

/-- carries out an invocation that was started from a file of its own: the default root is taken
from the directory that the file belongs to -/
def runFrom (i : Invocation) (file : Path) (t : Tree) : Ending :=
  match baseOf t i.cwd file with
  | .error f => ⟨t, [], [], .error f⟩
  | .ok base =>
    { i with arguments := Arguments.withRoot (base.join defaultRoot).text i.arguments }.run t

end Invocation

end Rebind
