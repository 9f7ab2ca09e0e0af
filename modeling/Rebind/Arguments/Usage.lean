import Rebind.Arguments.Parse
import Rebind.Text.Quoted

/-!
# usage, help and refusals

The texts of the command line, laid out for eighty columns.
-/

namespace Rebind.Arguments

def programName : List Char := "fix-ts2589".toList

def usageText : List Char :=
  ("usage: fix-ts2589 [-h] [--root ROOT] [--extension EXTENSION] [--check]\n" ++
   "                  [--verbose] [--log-file LOG_FILE]\n").toList

def helpText : List Char :=
  usageText ++
  ("\nReplace `internal`/`api` imports from _generated/api with require() to avoid\n" ++
   "TS2589.\n" ++
   "\n" ++
   "options:\n" ++
   "  -h, --help            show this help message and exit\n" ++
   "  --root ROOT           Convex directory to scan\n" ++
   "  --extension EXTENSION\n" ++
   "                        File extension to process\n" ++
   "  --check               Show files that would change but don't write them\n" ++
   "  --verbose, -v         Show verbose output\n" ++
   "  --log-file LOG_FILE   Also write log records to this file\n").toList

def Refusal.message : Refusal → List Char
  | .ambiguous a =>
    "ambiguous option: ".toList ++ a.argument ++ " could match ".toList ++
      ", ".toList.intercalate (a.options.map Opt.long)
  | .expectedValue v =>
    "argument ".toList ++ (Opt.valued v).title ++ ": expected one argument".toList
  | .ignoredValue f s =>
    "argument ".toList ++ (Opt.flag f).title ++ ": ignored explicit argument ".toList ++ quoted s
  | .unrecognized as => "unrecognized arguments: ".toList ++ [' '].intercalate as

def errorLine (message : List Char) : List Char :=
  programName ++ ": error: ".toList ++ message ++ ['\n']

/-- the exit code of an invocation that could not start -/
def refusedCode : Nat := 2

/-- how a program ends: its exit code and what it wrote -/
structure Ending where
  code : Nat
  output : List Char
  errors : List Char
  deriving DecidableEq

def Stop.ending : Stop → Ending
  | .help => ⟨0, helpText, []⟩
  | .refused r => ⟨refusedCode, [], usageText ++ errorLine r.message⟩

end Rebind.Arguments
