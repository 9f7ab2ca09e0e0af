import Rebind.Text.Printable

/-!
# quoted texts

Messages show a name or a value between quotes, so that its ends and its odd characters can be
seen.  Single quotes are used, or double quotes for a text that holds single quotes only.  The
backslash, the quote itself and characters that are not printable are escaped; what is escaped by
its code point takes two, four or eight hexadecimal digits, as few as are enough.
-/

namespace Rebind

/-- the lower-case hexadecimal digits of `n`, with zeros in front up to `width` digits -/
def hexDigits (width n : Nat) : List Char :=
  let ds := Nat.toDigits 16 n
  List.replicate (width - ds.length) '0' ++ ds

/-- the quote around a text: the double one iff the text holds single quotes only -/
def quoteFor (s : List Char) : Char := if s.contains '\'' && !s.contains '"' then '"' else '\''

def escapeChar (q c : Char) : List Char :=
  if c = q || c = '\\' then ['\\', c]
  else if c = '\t' then ['\\', 't']
  else if c = '\n' then ['\\', 'n']
  else if c = '\r' then ['\\', 'r']
  else if isPrintable c then [c]
  else if c.toNat < 0x100 then '\\' :: 'x' :: hexDigits 2 c.toNat
  else if c.toNat < 0x10000 then '\\' :: 'u' :: hexDigits 4 c.toNat
  else '\\' :: 'U' :: hexDigits 8 c.toNat

def quoted (s : List Char) : List Char :=
  let q := quoteFor s
  q :: s.flatMap (escapeChar q) ++ [q]

end Rebind
