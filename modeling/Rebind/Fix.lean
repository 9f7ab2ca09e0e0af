import Rebind.Binding
import Rebind.Declaration.Pieces

/-!
# fixing one text

A text with the marker is left alone.  Else, if some declaration of the text has both exports, the
declarations with both are replaced, each by one block, and no other.  If there is none, the
declarations of each export are replaced in turn.
-/

namespace Rebind

inductive Outcome where
  | fixed
  | alreadyPatched
  | noMatch
  deriving DecidableEq

namespace Outcome

def all : List Outcome := [.fixed, .alreadyPatched, .noMatch]

/-- the name of an outcome in logs and answers -/
def label : Outcome → List Char
  | .fixed => "fixed".toList
  | .alreadyPatched => "already_patched".toList
  | .noMatch => "no_match".toList

end Outcome

structure Fix where
  text : List Char
  outcome : Outcome
  deriving DecidableEq

def isPatched (text : List Char) : Bool := hasPart marker text

/-- some declaration of the text has the export -/
def hasImport (e : Export) (text : List Char) : Bool := Declaration.occurs [e] text

def Export.block (exports : List Export) (path newline : List Char) : List Char :=
  bindingBlock (exports.map Export.name) path newline

/-- the declarations of one export replaced, if there are any -/
def rebindExport (path newline : List Char) (e : Export) (found : Bool) (text : List Char) :
    List Char :=
  if found then Declaration.replace [e] (Export.block [e] path newline) text else text

/-- a text without the marker, with its declarations replaced -/
def rebind (path text : List Char) : List Char :=
  let newline := lineBreakOf text
  if Declaration.occurs Export.all text then
    Declaration.replace Export.all (Export.block Export.all path newline) text
  else
    rebindExport path newline .api (hasImport .api text)
      (rebindExport path newline .internal (hasImport .internal text) text)

/-- fixes a text; `path` is the specifier by which it reaches the generated module -/
def fix (path text : List Char) : Fix :=
  if isPatched text then ⟨text, .alreadyPatched⟩
  else if !(hasImport .internal text || hasImport .api text) then ⟨text, .noMatch⟩
  else
    let fixed := rebind path text
    if fixed = text then ⟨text, .noMatch⟩ else ⟨fixed, .fixed⟩

def Fix.modified (f : Fix) : Bool := f.outcome = .fixed

/-! ## edits -/

/-- a step of work on a text -/
inductive Edit where
  | fix (path : List Char)
  | append (s : List Char)
  | prepend (s : List Char)
  | replace (a b : List Char)

def Edit.apply (text : List Char) : Edit → List Char
  | .fix path => (Rebind.fix path text).text
  | .append s => text ++ s
  | .prepend s => s ++ text
  | .replace a b => replacePart a b text

end Rebind
