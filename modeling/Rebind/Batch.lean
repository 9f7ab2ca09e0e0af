import Rebind.Discovery
import Rebind.Fix
import Rebind.Log.Sink
import Rebind.Path.Specifier
import Rebind.Report
import Rebind.Tree.Real
import Rebind.Tree.Text

/-!
# a run over the files below a root

The files are found first, then read, fixed and written one after the other.  The first failure
ends the run; what was written before it stays.  Two discovered paths may lead to one file, and
the log may be one of the files, so each step sees the tree that the steps before it left.
-/

namespace Rebind

namespace Batch

/-- what a run is asked to do; `speaker` signs its log records -/
structure Order where
  root : Path
  extension : Extension
  check : Bool := false
  speaker : List Char := Log.runSpeaker
  deriving DecidableEq

/-- how far a run is: the tree, the records that were written and the summary so far -/
structure Progress where
  tree : Tree
  records : List Log.Record := []
  summary : Summary := {}
  deriving DecidableEq

def Progress.log (sink : Log.Sink) (r : Log.Record) (p : Progress) : Progress :=
  if r.passes sink.lowest then
    { p with tree := sink.store r p.tree, records := p.records ++ [r] }
  else p

/-! ## the records of a run -/

def discovered (o : Order) (root : Path) (count : Nat) : Log.Record :=
  ⟨.debug, Log.discoverySpeaker, "Discovered ".toList ++ decimal count ++ ' ' :: o.extension.text ++
    " files under ".toList ++ root.text⟩

def skipped (o : Order) (p : Path) (outcome : Outcome) : Log.Record :=
  ⟨.debug, o.speaker, "Skipped ".toList ++ p.text ++ " (".toList ++ outcome.label ++ [')']⟩

/-- a file was fixed, or would be -/
def fixed (o : Order) (p : Path) : Log.Record :=
  ⟨.info, o.speaker, fixLabel o.check ++ ' ' :: p.text⟩

/-! ## one file -/

def countSkipped (s : Summary) : Summary :=
  { s with checked := s.checked + 1, skipped := s.skipped + 1 }

/-- the summary with one more file that was fixed, by its path below the root -/
def countFixed (p : Path) (s : Summary) : Summary :=
  { s with checked := s.checked + 1, fixed := s.fixed ++ [p] }

/-- works on the file with the given names below the real path `root` -/
def step (o : Order) (sink : Log.Sink) (root : Path) (names : List Name) (p : Progress) :
    Except Failure Progress := do
  let path := Discovery.path root names
  let text ← p.tree.readText [] path
  let r := fix (importPath [] path (root.join generatedApi)) text
  if r.outcome ≠ .fixed then
    return { p with summary := countSkipped p.summary }.log sink (skipped o path r.outcome)
  else
    let tree ← if o.check then .ok p.tree else p.tree.writeText [] path r.text
    return { p with tree, summary := countFixed ⟨.here, names⟩ p.summary }.log sink (fixed o path)

def steps (o : Order) (sink : Log.Sink) (root : Path) :
    List (List Name) → Progress → Progress × Option Failure
  | [], p => (p, none)
  | names :: rest, p =>
    match step o sink root names p with
    | .error f => (p, some f)
    | .ok p => steps o sink root rest p

/-! ## the whole run -/

/-- how a run ended: the tree it left, the records it wrote, and its summary or failure -/
structure Ending where
  tree : Tree
  records : List Log.Record
  result : Except Failure Summary

def run (o : Order) (sink : Log.Sink) (cwd : Location) (t : Tree) : Ending :=
  match t.realPath cwd o.root with
  | .error f => ⟨t, [], .error f⟩
  | .ok root =>
    match Discovery.findNames t [] root o.extension with
    | .error f => ⟨t, [], .error f⟩
    | .ok found =>
      let start := ({ tree := t } : Progress).log sink (discovered o root found.length)
      match steps o sink root found start with
      | (p, some f) => ⟨p.tree, p.records, .error f⟩
      | (p, none) => ⟨p.tree, p.records, .ok p.summary⟩

end Batch

end Rebind
