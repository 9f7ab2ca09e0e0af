import Rebind.Path
import Rebind.Text.Decimal

/-!
# the closing report

What a run did, for the person who started it.
-/

namespace Rebind

/-- what a run did: how many files it looked at, which it fixed, how many it left alone -/
structure Summary where
  checked : Int := 0
  fixed : List Path := []
  skipped : Int := 0
  deriving DecidableEq

/-- what a fixed file is called, in a dry run or a real one -/
def fixLabel (check : Bool) : List Char := if check then "Would fix".toList else "Fixed".toList

def Summary.report (check : Bool) (extension : List Char) (s : Summary) : List Char :=
  "Found ".toList ++ decimal s.checked ++ ' ' :: extension ++ " files to check\n\n".toList ++
  s.fixed.flatMap (fun p => fixLabel check ++ ": ".toList ++ p.text ++ ['\n']) ++
  "\nSummary:\n   ".toList ++ fixLabel check ++ ": ".toList ++ decimal s.fixed.length ++
  " files\n   Skipped: ".toList ++ decimal s.skipped ++
  " files (no imports or already fixed)\n".toList ++
  (if check then [] else "\nDone! Run 'turbo dev' to verify the fixes.\n".toList)

end Rebind
