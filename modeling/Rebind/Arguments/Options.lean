import Rebind.Given
import Rebind.Path

/-!
# settings and the options that set them

Three options take a value and three are flags.  Two flags have a one-letter name as well.
-/

namespace Rebind

def defaultRoot : Path := Path.ofText "convex".toList

def defaultExtension : List Char := ".ts".toList

/-- what an invocation works on and how -/
structure Settings where
  root : Given Path := .value defaultRoot
  extension : Extension := .value defaultExtension
  check : Bool := false
  verbose : Nat := 0
  logFile : Option (Given Path) := none
  deriving DecidableEq

namespace Arguments

/-- the options that take a value -/
inductive Valued where
  | root
  | extension
  | logFile
  deriving DecidableEq

/-- the options that take none -/
inductive Flag where
  | help
  | check
  | verbose
  deriving DecidableEq

inductive Opt where
  | valued (v : Valued)
  | flag (f : Flag)
  deriving DecidableEq

namespace Opt

/-- every option, in the order of the help text -/
def all : List Opt :=
  [.flag .help, .valued .root, .valued .extension, .flag .check, .flag .verbose, .valued .logFile]

def long : Opt → List Char
  | .flag .help => "--help".toList
  | .valued .root => "--root".toList
  | .valued .extension => "--extension".toList
  | .flag .check => "--check".toList
  | .flag .verbose => "--verbose".toList
  | .valued .logFile => "--log-file".toList

/-- all names of an option, as messages show it -/
def title : Opt → List Char
  | .flag .help => "-h/--help".toList
  | .flag .verbose => "--verbose/-v".toList
  | o => o.long

end Opt

def Flag.ofLetter? : Char → Option Flag
  | 'h' => some .help
  | 'v' => some .verbose
  | _ => none

end Arguments

end Rebind
