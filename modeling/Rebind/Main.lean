import Rebind.Invocation
import Std.Time.Zoned

/-!
# the command line

The part of the disk that an invocation can reach is read into a tree, the invocation is carried
out on that tree, and what it changed is written back: the directories and files on the way to the
root and to the log file, everything below the root outside the excluded directories, and the
targets of the links there.
-/

namespace Rebind.CommandLine

/-- work that fills a tree from the disk -/
abbrev Loading := StateT Tree IO

def diskPath (l : Location) : String := String.ofList (Path.ofRoot (namesTo l)).text

/-- adds what was found at a location, once -/
def note (l : Location) (n : Node) : Loading Unit :=
  modify fun t => if (t.get? l).isSome then t else t.put l n

/-- what kind of thing has that name in a directory, links not followed -/
def kindOf? (dir : Location) (n : Name) : IO (Option IO.FS.FileType) :=
  try
    let entry : IO.FS.DirEntry := { root := diskPath dir, fileName := String.ofList n }
    return some (← entry.path.symlinkMetadata).type
  catch _ => return none

/-- where the links of a location lead, unless that is nowhere -/
def realNames? (l : Location) : IO (Option (List Name)) :=
  try return some (namesOf (← IO.FS.realPath (diskPath l)).toString.toList)
  catch _ => return none

def diskBytes (l : Location) : IO (List UInt8) := return (← IO.FS.readBinFile (diskPath l)).toList

/-- loads what stands on the way along names from a directory -/
partial def trace (dir : Location) : List Name → Loading Unit
  | [] => return
  | n :: ns => do
    if n = ['.', '.'] then trace dir.tail ns
    else
      let l := n :: dir
      match ← kindOf? dir n with
      | some .dir => do
        note l .directory
        trace l ns
      | some .file => do note l (.file (← diskBytes l))
      | some .symlink => do
        if let some real ← realNames? l then
          note l (.link (Path.ofRoot real).text)
          trace [] real
          trace (locationOf real) ns
      | _ => return

/-- loads what is below a directory, outside the excluded ones -/
partial def survey (dir : Location) : Loading Unit := do
  for entry in ← (← IO.FS.realPath (diskPath dir)).readDir do
    let n := entry.fileName.toList
    trace dir [n]
    if (← get).isDirectory (n :: dir) && !excludedNames.contains n then survey (n :: dir)

def load (i : Invocation) (s : Settings) : Loading Unit := do
  trace [] (namesTo i.cwd)
  for p in ((s.logFile.bind Given.get?).bind fun p =>
      (Invocation.expandHome i.home p).toOption).toList do
    trace (Tree.start i.cwd p) p.names
    trace [] (p.absoluteNames (namesTo i.cwd))
  for root in s.root.get?.toList do
    trace (Tree.start i.cwd root) root.names
    if let .ok l := (← get).target? i.cwd root then
      if (← get).isDirectory l then survey l

/-- writes back what is new or changed -/
def store (old new : Tree) : IO Unit := do
  for (l, n) in new.entries do
    if old.get? l != some n then
      match n with
      | .directory => IO.FS.createDirAll (diskPath l)
      | .file bs => IO.FS.writeBinFile (diskPath l) ⟨bs.toArray⟩
      | .link _ => pure ()

/-- a number in decimal, with zeros in front up to `width` digits -/
def padded (width : Nat) (n : Int) : List Char :=
  let ds := decimal n
  List.replicate (width - ds.length) '0' ++ ds

/-- the local time, for log lines -/
def stamp : IO (List Char) := do
  let now ← Std.Time.PlainDateTime.now
  return padded 4 now.date.year.toInt ++ '-' :: padded 2 now.date.month.val ++
    '-' :: padded 2 now.date.day.val ++ ' ' :: padded 2 now.time.hour.val ++
    ':' :: padded 2 now.time.minute.val ++ ':' :: padded 2 now.time.second.val ++
    ',' :: padded 3 (now.time.nanosecond.val / 1000000)

end Rebind.CommandLine

open Rebind Rebind.CommandLine in
def main (arguments : List String) : IO UInt32 := do
  let home := (← IO.getEnv "HOME").map fun s => Path.ofText s.toList
  let i : Invocation :=
    { arguments := arguments.map String.toList
      cwd := locationOf (namesOf (← IO.currentDir).toString.toList)
      home := fun user => if user.isEmpty then home else none
      stamp := ← stamp }
  let (_, old) ← match Arguments.parse i.arguments with
    | .ok s => (load i s).run {}
    | .error _ => pure ((), {})
  let e := i.run old
  store old e.tree
  IO.print (String.ofList e.output)
  IO.eprint (String.ofList e.errors)
  match e.result with
  | .ok code => return code.toUInt32
  | .error f =>
    IO.eprintln (String.ofList f.message)
    return 1
