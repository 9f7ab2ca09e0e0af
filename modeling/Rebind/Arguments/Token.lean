import Rebind.Arguments.Options
import Rebind.Text.Digit
import Rebind.Text.Search

/-!
# what each argument is

Every argument is classified by its own text before any is acted on; only a divider `--` changes
how the ones after it are read.  A long option may be cut short to any head that no other option
has, and may carry its value after an equals sign; what follows the letter of a short flag is
carried too.  An argument that begins with a dash and is no option is still plain when it is a
dash alone, reads as a negative number, or holds a space.
-/

namespace Rebind.Arguments

/-- an argument by its kind; `carried` is a value in the same argument -/
inductive Token where
  | plain (s : List Char)
  | divider
  | valued (v : Valued) (carried : Option (List Char))
  | longFlag (f : Flag) (carried : Option (List Char))
  | shortFlag (f : Flag) (carried : Option (List Char))
  | unknown (s : List Char)
  deriving DecidableEq

def dividerText : List Char := ['-', '-']

def Opt.token (carried : Option (List Char)) : Opt → Token
  | .valued v => .valued v carried
  | .flag f => .longFlag f carried

/-- the text before the first equals sign, and the text after it if there is one -/
def splitEquals (s : List Char) : List Char × Option (List Char) :=
  let head := s.takeWhile (· != '=')
  match s.dropWhile (· != '=') with
  | [] => (head, none)
  | _ :: value => (head, some value)

def optionsFrom (head : List Char) : List Opt := Opt.all.filter fun o => head.isPrefixOf o.long

/-- one or more digits, or digits, a point and one or more digits -/
def isNumber (s : List Char) : Bool :=
  let rest := s.dropWhile isDigit
  match rest with
  | [] => !s.isEmpty
  | '.' :: decimals => !decimals.isEmpty && decimals.all isDigit
  | _ => false

/-- a dash and a number; one line feed may follow -/
def isNegativeNumber : List Char → Bool
  | '-' :: s => isNumber (if s.getLast? = some '\n' then s.dropLast else s)
  | _ => false

/-- an argument with a leading dash that is no option -/
def undecided (s : List Char) : Token :=
  if isNegativeNumber s || s.contains ' ' then .plain s else .unknown s

/-- an argument that no option could be told from -/
structure Ambiguous where
  argument : List Char
  options : List Opt
  deriving DecidableEq

/-- classifies an argument that stands before any divider and is none -/
def classify : List Char → Except Ambiguous Token
  | '-' :: '-' :: s =>
    let (head, carried) := splitEquals ('-' :: '-' :: s)
    match optionsFrom head with
    | [] => .ok (undecided ('-' :: '-' :: s))
    | [o] => .ok (o.token carried)
    | os => .error ⟨'-' :: '-' :: s, os⟩
  | '-' :: c :: s =>
    match Flag.ofLetter? c with
    | none => .ok (undecided ('-' :: c :: s))
    | some f =>
      match s with
      | [] => .ok (.shortFlag f none)
      | '=' :: value => .ok (.shortFlag f (some value))
      | value => .ok (.shortFlag f (some value))
  | s => .ok (.plain s)

def tokens : List (List Char) → Except Ambiguous (List Token)
  | [] => .ok []
  | a :: as =>
    if a = dividerText then .ok (.divider :: as.map .plain)
    else do
      let t ← classify a
      let ts ← tokens as
      return t :: ts

end Rebind.Arguments
