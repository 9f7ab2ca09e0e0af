import Rebind.Path
import Rebind.Text.Decimal
import Rebind.Text.Quoted
import Rebind.Text.Utf8

/-!
# why work on a tree fails

A failure is a cause; `Failure.message` is its wording.
-/

namespace Rebind

inductive Refused where
  | noEntry
  | alreadyThere
  | notDirectory
  | isDirectory
  | nameTooLong
  | tooManyLinks
  deriving DecidableEq

namespace Refused

def number : Refused → Nat
  | .noEntry => 2
  | .alreadyThere => 17
  | .notDirectory => 20
  | .isDirectory => 21
  | .nameTooLong => 36
  | .tooManyLinks => 40

def wording : Refused → List Char
  | .noEntry => "No such file or directory".toList
  | .alreadyThere => "File exists".toList
  | .notDirectory => "Not a directory".toList
  | .isDirectory => "Is a directory".toList
  | .nameTooLong => "File name too long".toList
  | .tooManyLinks => "Too many levels of symbolic links".toList

end Refused

def Utf8.Reason.wording : Utf8.Reason → List Char
  | .invalidStart => "invalid start byte".toList
  | .invalidContinuation => "invalid continuation byte".toList
  | .unexpectedEnd => "unexpected end of data".toList

/-- the message of a fault: one byte by its value, several by their range -/
def Utf8.Fault.message (f : Utf8.Fault) : List Char :=
  "'utf-8' codec can't decode ".toList ++
  (if f.width = 1 then
    "byte 0x".toList ++ hexDigits 2 f.lead.toNat ++ " in position ".toList ++ decimal f.position
  else
    "bytes in position ".toList ++ decimal f.position ++ '-' ::
      decimal (f.position + f.width - 1)) ++
  ": ".toList ++ f.reason.wording

inductive Failure where
  /-- the file system refused a path, shown as it was handed over -/
  | refused (r : Refused) (path : List Char)
  /-- the file system refused to make a link at a path -/
  | linkRefused (r : Refused) (target path : List Char)
  /-- a path that holds a null character is not handed over at all -/
  | nullByte
  /-- a file is no UTF-8 -/
  | notUtf8 (fault : Utf8.Fault)
  /-- two stars in a row are no pattern for a name -/
  | starsInName
  /-- a path does not lie below a root -/
  | notBelow (path root : Path)
  /-- a home directory is not known -/
  | noHome
  /-- links lead round in a circle -/
  | linkLoop (path : Path)
  /-- more calls would be open inside one another than can be -/
  | tooDeep
  /-- a path has no directory two levels above it -/
  | noGrandparent
  /-- the value of the root was taken away -/
  | rootNotGiven
  /-- the value of the extension was taken away -/
  | extensionNotGiven
  /-- the value of the log file was taken away -/
  | logFileNotGiven
  deriving DecidableEq

/-- the failure where links have to be resolved inside one another -/
@[match_pattern] abbrev Failure.linksTooDeep : Failure := .tooDeep

def Refused.message (r : Refused) : List Char :=
  "[Errno ".toList ++ decimal r.number ++ "] ".toList ++ r.wording ++ ": ".toList

def Failure.message : Failure → List Char
  | .refused r p => r.message ++ quoted p
  | .linkRefused r target p => r.message ++ quoted target ++ " -> ".toList ++ quoted p
  | .nullByte => "embedded null byte".toList
  | .notUtf8 fault => fault.message
  | .starsInName => "Invalid pattern: '**' can only be an entire path component".toList
  | .notBelow p root =>
    quoted p.text ++ " is not in the subpath of ".toList ++ quoted root.bareText ++
      " OR one path is relative and the other is absolute.".toList
  | .noHome => "Could not determine home directory.".toList
  | .linkLoop p => "Symlink loop from ".toList ++ quoted p.text
  | .tooDeep => "maximum recursion depth exceeded".toList
  | .noGrandparent => ['1']
  | .rootNotGiven => "'list' object has no attribute 'is_dir'".toList
  | .extensionNotGiven => "endswith first arg must be str or a tuple of str, not list".toList
  | .logFileNotGiven => "'list' object has no attribute 'expanduser'".toList

end Rebind
