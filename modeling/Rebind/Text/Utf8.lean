/-!
# UTF-8

Files hold bytes and the work is on characters.  Writing encodes every character; reading is
strict: no overlong form, no surrogate, nothing above U+10FFFF, no sequence cut short.

A lead byte fixes how many continuation bytes follow and which values the first of them may take
(`lead?`); every later one is in 80..BF.  A fault is at the lead byte of the first sequence that
does not go on as it has to, and covers the bytes of it that were still right.
-/

namespace Rebind.Utf8

/-! ## writing -/

def encodeChar (c : Char) : List UInt8 :=
  let n := c.toNat
  if n < 0x80 then [.ofNat n]
  else if n < 0x800 then [.ofNat (0xC0 + n / 64), .ofNat (0x80 + n % 64)]
  else if n < 0x10000 then
    [.ofNat (0xE0 + n / 4096), .ofNat (0x80 + n / 64 % 64), .ofNat (0x80 + n % 64)]
  else
    [.ofNat (0xF0 + n / 262144), .ofNat (0x80 + n / 4096 % 64), .ofNat (0x80 + n / 64 % 64),
      .ofNat (0x80 + n % 64)]

def encode (text : List Char) : List UInt8 := text.flatMap encodeChar

@[simp] theorem encode_nil : encode [] = [] := rfl

@[simp] theorem encode_cons (c : Char) (cs : List Char) :
    encode (c :: cs) = encodeChar c ++ encode cs := rfl

@[simp] theorem encode_append (as bs : List Char) :
    encode (as ++ bs) = encode as ++ encode bs := by
  simp [encode]

/-! ## reading -/

inductive Reason where
  | invalidStart
  | invalidContinuation
  | unexpectedEnd
  deriving DecidableEq

/-- where and why bytes cannot be read: the offset of the lead byte, the lead byte, and how many
bytes of the sequence are reported -/
structure Fault where
  position : Nat
  lead : UInt8
  width : Nat
  reason : Reason
  deriving DecidableEq

/-- what a lead byte asks for: the number of continuation bytes, the range of the first of them,
and its own share of the code point -/
structure Lead where
  more : Nat
  low : Nat
  high : Nat
  share : Nat
  deriving DecidableEq

def lead? (b : UInt8) : Option Lead :=
  let n := b.toNat
  if n < 0x80 then some ⟨0, 0x80, 0xBF, n⟩
  else if n < 0xC2 then none
  else if n < 0xE0 then some ⟨1, 0x80, 0xBF, n - 0xC0⟩
  else if n < 0xF0 then
    some ⟨2, if n = 0xE0 then 0xA0 else 0x80, if n = 0xED then 0x9F else 0xBF, n - 0xE0⟩
  else if n < 0xF5 then
    some ⟨3, if n = 0xF0 then 0x90 else 0x80, if n = 0xF4 then 0x8F else 0xBF, n - 0xF0⟩
  else none

/-- reads `more` continuation bytes, the first of them in `low..high`, on top of the code point
`n` so far: the code point and the bytes after it, or how many continuation bytes were right and
what was wrong with the next -/
def follow : (more low high n : Nat) → List UInt8 → Except (Nat × Reason) (Nat × List UInt8)
  | 0, _, _, n, bs => .ok (n, bs)
  | _ + 1, _, _, _, [] => .error (0, .unexpectedEnd)
  | more + 1, low, high, n, b :: bs =>
    if low ≤ b.toNat && b.toNat ≤ high then
      match follow more 0x80 0xBF (n * 64 + (b.toNat - 0x80)) bs with
      | .ok r => .ok r
      | .error (right, reason) => .error (right + 1, reason)
    else .error (0, .invalidContinuation)

theorem follow_length {more low high n m : Nat} {bs rest : List UInt8}
    (h : follow more low high n bs = .ok (m, rest)) : rest.length ≤ bs.length := by
  induction more generalizing low high n bs with
  | zero =>
    simp only [follow, Except.ok.injEq, Prod.mk.injEq] at h
    exact Nat.le_of_eq (congrArg List.length h.2.symm)
  | succ more ih =>
    cases bs with
    | nil => simp [follow] at h
    | cons b bs =>
      simp only [follow] at h
      split at h
      · split at h
        · next r hr =>
          rw [Except.ok.injEq] at h
          subst h
          exact Nat.le_succ_of_le (ih hr)
        · simp at h
      · simp at h

/-- the first character of `b :: bs` and the bytes after it; a fault is placed at `position` -/
def first (position : Nat) (b : UInt8) (bs : List UInt8) : Except Fault (Char × List UInt8) :=
  match lead? b with
  | none => .error ⟨position, b, 1, .invalidStart⟩
  | some l =>
    match follow l.more l.low l.high l.share bs with
    | .ok (n, rest) => .ok (Char.ofNat n, rest)
    | .error (right, reason) => .error ⟨position, b, right + 1, reason⟩

theorem first_length {position : Nat} {b : UInt8} {bs rest : List UInt8} {c : Char}
    (h : first position b bs = .ok (c, rest)) : rest.length ≤ bs.length := by
  unfold first at h
  split at h
  · simp at h
  · split at h
    · next n r hr =>
      rw [Except.ok.injEq, Prod.mk.injEq] at h
      rw [← h.2]
      exact follow_length hr
    · simp at h

/-- how many bytes the sequence after a lead byte has, that byte included -/
def width (b : UInt8) : Nat := ((lead? b).map fun l => l.more + 1).getD 1

/-- the characters of the bytes `bs`, the first of which stands at `position` -/
def decodeFrom (position : Nat) (bs : List UInt8) : Except Fault (List Char) :=
  match bs with
  | [] => .ok []
  | b :: bs =>
    match _h : first position b bs with
    | .error fault => .error fault
    | .ok (c, rest) =>
      match decodeFrom (position + width b) rest with
      | .error fault => .error fault
      | .ok cs => .ok (c :: cs)
termination_by bs.length
decreasing_by
  have := first_length _h
  simp
  omega

/-- the characters of a file, or its first fault -/
def decode (bs : List UInt8) : Except Fault (List Char) := decodeFrom 0 bs

end Rebind.Utf8
