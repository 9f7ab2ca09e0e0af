import Rebind.Arguments.Token

/-!
# from tokens to settings

Tokens are acted on from left to right.  An option that takes a value takes the one it carries, or
else the next token if that is plain; a divider that it carries leaves it without a value.  A long
flag carries nothing.  What a short flag carries are the letters of further short flags, and none of
them acts before all are known to be flags.  Asking for help ends the reading at once; arguments
that nobody took are reported at the end.
-/

namespace Rebind.Arguments

inductive Refusal where
  | ambiguous (a : Ambiguous)
  | expectedValue (v : Valued)
  | ignoredValue (f : Flag) (value : List Char)
  | unrecognized (arguments : List (List Char))
  deriving DecidableEq

/-- why reading ends without settings -/
inductive Stop where
  | help
  | refused (r : Refusal)
  deriving DecidableEq

/-- what an option is given by the text `s`: a divider is taken away -/
def given (read : List Char → α) (s : List Char) : Given α :=
  if s = dividerText then .nothing else .value (read s)

def Valued.set (settings : Settings) (s : List Char) : Valued → Settings
  | .root => { settings with root := given Path.ofText s }
  | .extension => { settings with extension := given id s }
  | .logFile => { settings with logFile := some (given Path.ofText s) }

def Flag.act (settings : Settings) : Flag → Except Stop Settings
  | .help => .error .help
  | .check => .ok { settings with check := true }
  | .verbose => .ok { settings with verbose := settings.verbose + 1 }

/-- the flag `f` and the flags whose letters it carries -/
def cluster (f : Flag) : List Char → Except Stop (List Flag)
  | [] => .ok [f]
  | c :: cs =>
    match Flag.ofLetter? c with
    | none => .error (.refused (.ignoredValue f (c :: cs)))
    | some g => do
      let fs ← cluster g cs
      return f :: fs

/-- the flags of a short flag and what it carries; it does not carry an empty value -/
def shortFlags (f : Flag) : Option (List Char) → Except Stop (List Flag)
  | none => .ok [f]
  | some [] => .error (.refused (.ignoredValue f []))
  | some (c :: cs) => cluster f (c :: cs)

/-- acts on the tokens; `stray` are the arguments that nobody took so far -/
def fold (settings : Settings) (stray : List (List Char)) : List Token → Except Stop Settings
  | [] => if stray = [] then .ok settings else .error (.refused (.unrecognized stray))
  | .plain s :: ts => fold settings (stray ++ [s]) ts
  | .divider :: ts => fold settings (stray ++ [dividerText]) ts
  | .unknown s :: ts => fold settings (stray ++ [s]) ts
  | .valued v (some s) :: ts => fold (v.set settings s) stray ts
  | .valued v none :: .plain s :: ts => fold (v.set settings s) stray ts
  | .valued v none :: _ => .error (.refused (.expectedValue v))
  | .longFlag f (some s) :: _ => .error (.refused (.ignoredValue f s))
  | .longFlag f none :: ts => do
    let settings ← f.act settings
    fold settings stray ts
  | .shortFlag f carried :: ts => do
    let fs ← shortFlags f carried
    let settings ← fs.foldlM Flag.act settings
    fold settings stray ts

def parse (arguments : List (List Char)) : Except Stop Settings :=
  match tokens arguments with
  | .error a => .error (.refused (.ambiguous a))
  | .ok ts => fold {} [] ts

/-! ## the root of the standalone start -/

/-- an argument that names the root in full -/
def namesRoot (a : List Char) : Bool := a = "--root".toList || "--root=".toList.isPrefixOf a

/-- the arguments with the root `dir` in front, unless one of them names the root in full -/
def withRoot (dir : List Char) (arguments : List (List Char)) : List (List Char) :=
  if arguments.any namesRoot then arguments else "--root".toList :: dir :: arguments

end Rebind.Arguments
