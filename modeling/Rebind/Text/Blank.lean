import Rebind.Text.Ranges

/-!
# blank characters

White space in the wide sense: the ASCII blanks and line breaks, the four information separators,
and the blanks and line separators of Unicode.  Line feed and carriage return are blank, so a run
of blanks may cross lines.
-/

namespace Rebind

def blankRanges : List (Nat × Nat) :=
  [(0x9, 0xD), (0x1C, 0x20), (0x85, 0x85), (0xA0, 0xA0), (0x1680, 0x1680), (0x2000, 0x200A),
   (0x2028, 0x2029), (0x202F, 0x202F), (0x205F, 0x205F), (0x3000, 0x3000)]

/-- white space, line breaks included -/
def isBlank (c : Char) : Bool := inRanges blankRanges c.toNat

/-- what follows a run of one or more blanks -/
def afterBlanks? : List Char → Option (List Char)
  | [] => none
  | c :: cs => if isBlank c then some (cs.dropWhile isBlank) else none

@[simp] theorem afterBlanks?_nil : afterBlanks? [] = none := rfl

theorem afterBlanks?_cons (c : Char) (cs : List Char) :
    afterBlanks? (c :: cs) = if isBlank c then some (cs.dropWhile isBlank) else none := rfl

end Rebind
