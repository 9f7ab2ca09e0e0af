/-!
# log records

A record has a level, the name of the part of the program that speaks, and a message.  The
verbosity of an invocation is the lowest level that is written.
-/

namespace Rebind

namespace Log

inductive Level where
  | debug
  | info
  | warning
  deriving DecidableEq

namespace Level

def rank : Level → Nat
  | .debug => 0
  | .info => 1
  | .warning => 2

def label : Level → List Char
  | .debug => "DEBUG".toList
  | .info => "INFO".toList
  | .warning => "WARNING".toList

/-- the lowest level that is written at a verbosity; every number but 0 and 1 asks for all -/
def ofVerbosity (v : Int) : Level := if v = 0 then .warning else if v = 1 then .info else .debug

end Level

/-! ## who speaks -/

def discoverySpeaker : List Char := "ts2589_fix.files".toList

def runSpeaker : List Char := "ts2589_fix.cli".toList

/-- the speaker of a run whose module was started as the program itself -/
def directSpeaker : List Char := "__main__".toList

/-! ## records -/

structure Record where
  level : Level
  speaker : List Char
  message : List Char
  deriving DecidableEq

def Record.passes (lowest : Level) (r : Record) : Bool := lowest.rank ≤ r.level.rank

/-- the line of a record, written at the time `stamp` -/
def Record.line (stamp : List Char) (r : Record) : List Char :=
  stamp ++ ' ' :: r.level.label ++ ' ' :: r.speaker ++ ": ".toList ++ r.message ++ ['\n']

end Log

end Rebind
