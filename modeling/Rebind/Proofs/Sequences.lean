import Rebind.Proofs.Codec

/-!
# Sequences of bytes and faults

What it is for bytes to be UTF-8 is said here by bit patterns, without reading or writing: bytes
spell a number (`Spells`), and they are a sequence if that number is a character's and no fewer
bytes spell it (`IsSequence`).  Sequences are what characters are written as (`isSequence_iff`), so
bytes that are read are those made of sequences (`madeOfSequences_iff`).

Bytes that cannot be read have a first place where no sequence begins.  A fault tells it
(`exists_cut_of_fault`) and reports as many bytes from there on as still begin a sequence, one byte
if none does (`Fault.Covers`).
-/

namespace Rebind.Utf8

/-! ## what bytes spell -/

/-- the number that bytes spell: the first byte says how many they are and holds the highest bits,
and each byte after it holds six bits -/
inductive Spells : List UInt8 → Nat → Prop where
  | one {a : Nat} : a < 0x80 → Spells [.ofNat a] a
  | two {a b : Nat} : a < 0x20 → b < 0x40 →
      Spells [.ofNat (0xC0 + a), .ofNat (0x80 + b)] (a * 64 + b)
  | three {a b c : Nat} : a < 0x10 → b < 0x40 → c < 0x40 →
      Spells [.ofNat (0xE0 + a), .ofNat (0x80 + b), .ofNat (0x80 + c)] (a * 4096 + b * 64 + c)
  | four {a b c d : Nat} : a < 0x8 → b < 0x40 → c < 0x40 → d < 0x40 →
      Spells [.ofNat (0xF0 + a), .ofNat (0x80 + b), .ofNat (0x80 + c), .ofNat (0x80 + d)]
        (a * 262144 + b * 4096 + c * 64 + d)

/-- the bytes spell a character (so no surrogate and nothing above U+10FFFF), and no fewer bytes
spell it (so the form is not overlong) -/
def IsSequence (bs : List UInt8) : Prop :=
  ∃ n, Spells bs n ∧ n.isValidChar ∧ ∀ cs, Spells cs n → bs.length ≤ cs.length

/-- the bytes are sequences, one after the other -/
def MadeOfSequences (bs : List UInt8) : Prop :=
  ∃ parts : List (List UInt8), (∀ p ∈ parts, IsSequence p) ∧ parts.flatten = bs

theorem spells_encodeChar (c : Char) : Spells (encodeChar c) c.toNat := by
  have hv : c.toNat.isValidChar := c.valid
  have hlast : c.toNat < 0x110000 := by
    unfold Nat.isValidChar at hv
    omega
  unfold encodeChar
  simp only
  split
  · next h => exact .one h
  split
  · have h := Spells.two (a := c.toNat / 64) (b := c.toNat % 64) (by omega) (by omega)
    rwa [show c.toNat / 64 * 64 + c.toNat % 64 = c.toNat by omega] at h
  split
  · have h := Spells.three (a := c.toNat / 4096) (b := c.toNat / 64 % 64) (c := c.toNat % 64)
      (by omega) (by omega) (by omega)
    rwa [show c.toNat / 4096 * 4096 + c.toNat / 64 % 64 * 64 + c.toNat % 64 = c.toNat by omega] at h
  · have h := Spells.four (a := c.toNat / 262144) (b := c.toNat / 4096 % 64)
      (c := c.toNat / 64 % 64) (d := c.toNat % 64) (by omega) (by omega) (by omega) (by omega)
    rwa [show c.toNat / 262144 * 262144 + c.toNat / 4096 % 64 * 4096 + c.toNat / 64 % 64 * 64 +
      c.toNat % 64 = c.toNat by omega] at h

theorem length_encodeChar (c : Char) : (encodeChar c).length =
    if c.toNat < 0x80 then 1 else if c.toNat < 0x800 then 2 else if c.toNat < 0x10000 then 3
    else 4 := by
  unfold encodeChar
  simp only [apply_ite List.length, List.length_cons, List.length_nil]

/-- no fewer bytes spell a character than it is written with -/
theorem Spells.length_encodeChar_le {bs : List UInt8} {c : Char} (h : Spells bs c.toNat) :
    (encodeChar c).length ≤ bs.length := by
  rw [length_encodeChar]
  generalize c.toNat = n at h
  cases h with
  | one ha => exact Nat.le_of_eq (if_pos ha)
  | two ha hb =>
    show _ ≤ 2
    split
    · omega
    · exact Nat.le_of_eq (if_pos (by omega))
  | three ha hb hc =>
    show _ ≤ 3
    split
    · omega
    split
    · omega
    · exact Nat.le_of_eq (if_pos (by omega))
  | four ha hb hc hd =>
    show _ ≤ 4
    split
    · omega
    split
    · omega
    · split <;> omega

/-- what a character is written as is the one shortest spelling -/
theorem Spells.eq_encodeChar {bs : List UInt8} {n : Nat} (h : Spells bs n) (hv : n.isValidChar)
    (hle : bs.length ≤ (encodeChar (Char.ofNat n)).length) : bs = encodeChar (Char.ofNat n) := by
  rw [encodeChar_ofNat hv] at hle ⊢
  cases h with
  | one ha => rw [if_pos ha]
  | @two a b ha hb =>
    split at hle
    · simp at hle
    next hlow =>
    rw [if_neg hlow, if_pos (by omega), show (a * 64 + b) / 64 = a by omega,
      show (a * 64 + b) % 64 = b by omega]
  | @three a b c ha hb hc =>
    split at hle
    · simp at hle
    next hlow =>
    split at hle
    · simp at hle
    next hmid =>
    rw [if_neg hlow, if_neg hmid, if_pos (by omega),
      show (a * 4096 + b * 64 + c) / 4096 = a by omega,
      show (a * 4096 + b * 64 + c) / 64 % 64 = b by omega,
      show (a * 4096 + b * 64 + c) % 64 = c by omega]
  | @four a b c d ha hb hc hd =>
    split at hle
    · simp at hle
    next hlow =>
    split at hle
    · simp at hle
    next hmid =>
    split at hle
    · simp at hle
    next hhigh =>
    rw [if_neg hlow, if_neg hmid, if_neg hhigh,
      show (a * 262144 + b * 4096 + c * 64 + d) / 262144 = a by omega,
      show (a * 262144 + b * 4096 + c * 64 + d) / 4096 % 64 = b by omega,
      show (a * 262144 + b * 4096 + c * 64 + d) / 64 % 64 = c by omega,
      show (a * 262144 + b * 4096 + c * 64 + d) % 64 = d by omega]

/-- **Sequences are what characters are written as.** -/
theorem isSequence_iff {bs : List UInt8} : IsSequence bs ↔ ∃ c, bs = encodeChar c := by
  constructor
  · intro h
    obtain ⟨n, hn, hv, hshort⟩ := h
    have hwritten := spells_encodeChar (Char.ofNat n)
    rw [toNat_char_ofNat hv] at hwritten
    exact ⟨Char.ofNat n, hn.eq_encodeChar hv (hshort _ hwritten)⟩
  · intro h
    obtain ⟨c, rfl⟩ := h
    exact ⟨c.toNat, spells_encodeChar c, c.valid, fun cs hcs => hcs.length_encodeChar_le⟩

theorem madeOfSequences_iff {bs : List UInt8} : MadeOfSequences bs ↔ WellFormed bs := by
  constructor
  · intro h
    obtain ⟨parts, hparts, rfl⟩ := h
    induction parts with
    | nil => exact ⟨[], rfl⟩
    | cons p parts ih =>
      obtain ⟨hp, hrest⟩ := List.forall_mem_cons.mp hparts
      obtain ⟨c, rfl⟩ := isSequence_iff.mp hp
      obtain ⟨text, ht⟩ := ih hrest
      exact ⟨c :: text, by rw [List.flatten_cons, ht, encode_cons]⟩
  · intro h
    obtain ⟨text, rfl⟩ := h
    refine ⟨text.map encodeChar, ?_, List.flatMap_def.symm⟩
    intro p hp
    obtain ⟨c, -, rfl⟩ := List.mem_map.mp hp
    exact isSequence_iff.mpr ⟨c, rfl⟩

/-! ## where a fault is -/

theorem length_of_follow {more low high n m : Nat} {bs rest : List UInt8}
    (h : follow more low high n bs = .ok (m, rest)) : bs.length = more + rest.length := by
  induction more generalizing low high n bs with
  | zero =>
    obtain ⟨-, rfl⟩ := follow_zero_iff.mp h
    omega
  | succ more ih =>
    obtain ⟨b, cs, rfl, -, -, hcs⟩ := follow_succ_iff.mp h
    rw [List.length_cons, ih hcs]
    omega

theorem length_of_first {position : Nat} {b : UInt8} {bs rest : List UInt8} {c : Char}
    (h : first position b bs = .ok (c, rest)) : (encodeChar c).length = width b := by
  obtain ⟨l, n, hl, hf, -⟩ := first_eq_ok_iff.mp h
  have hbytes := congrArg List.length (first_eq_ok_iff_encodeChar.mp h)
  rw [List.length_cons, List.length_append, length_of_follow hf] at hbytes
  have hw : width b = l.more + 1 := by
    unfold width
    rw [hl]
    rfl
  omega

/-- a fault is at the first byte that stands behind a text and begins no sequence -/
theorem exists_cut_of_fault {position : Nat} {bs : List UInt8} {fault : Fault}
    (h : decodeFrom position bs = .error fault) :
    ∃ text b rest, bs = encode text ++ b :: rest ∧
      first (position + (encode text).length) b rest = .error fault := by
  fun_induction decodeFrom position bs with
  | case1 position => cases h
  | case2 position b bs fault' hf =>
    cases h
    exact ⟨[], b, bs, rfl, hf⟩
  | case3 position b bs c rest hf fault' hr ih =>
    cases h
    obtain ⟨text, b', rest', rfl, hfault⟩ := ih hr
    refine ⟨c :: text, b', rest', ?_, ?_⟩
    · rw [first_eq_ok_iff_encodeChar.mp hf, encode_cons, List.append_assoc]
    · rwa [encode_cons, List.length_append, length_of_first hf, ← Nat.add_assoc]
  | case4 position b bs c rest hf cs hr ih => cases h

theorem not_prefix_of_first {position : Nat} {b : UInt8} {bs : List UInt8} {fault : Fault}
    (h : first position b bs = .error fault) {s : List UInt8} (hs : IsSequence s) :
    ¬ s <+: b :: bs := by
  obtain ⟨c, rfl⟩ := isSequence_iff.mp hs
  rintro ⟨rest, hr⟩
  rw [first_encodeChar position hr.symm] at h
  cases h

/-! ## what a fault covers -/

/-- some sequence begins with the bytes -/
def Begins (bs : List UInt8) : Prop := ∃ more, IsSequence (bs ++ more)

/-- what the bytes `rest`, from the place of the fault on, have to do with it -/
def Fault.Covers (fault : Fault) (rest : List UInt8) : Prop :=
  rest.head? = some fault.lead ∧
    match fault.reason with
    | .invalidStart => fault.width = 1 ∧ ¬ Begins (rest.take 1)
    | .invalidContinuation => fault.width < rest.length ∧ Begins (rest.take fault.width) ∧
        ¬ Begins (rest.take (fault.width + 1))
    | .unexpectedEnd => fault.width = rest.length ∧ Begins rest

theorem begins_cons_iff {b : UInt8} {bs : List UInt8} :
    Begins (b :: bs) ↔ ∃ l more n, lead? b = some l ∧
      follow l.more l.low l.high l.share (bs ++ more) = .ok (n, []) := by
  have hfirst : ∀ more, IsSequence (b :: bs ++ more) ↔ ∃ c, first 0 b (bs ++ more) = .ok (c, []) := by
    intro more
    rw [isSequence_iff]
    refine exists_congr fun c => ?_
    rw [first_eq_ok_iff_encodeChar, List.append_nil]
    rfl
  constructor
  · intro h
    obtain ⟨more, hmore⟩ := h
    obtain ⟨c, hc⟩ := (hfirst more).mp hmore
    obtain ⟨l, n, hl, hf, -⟩ := first_eq_ok_iff.mp hc
    exact ⟨l, more, n, hl, hf⟩
  · intro h
    obtain ⟨l, more, n, hl, hf⟩ := h
    exact ⟨more, (hfirst more).mpr ⟨Char.ofNat n, first_eq_ok_iff.mpr ⟨l, n, hl, hf, rfl⟩⟩⟩

/-- what is asked for can be given -/
theorem exists_follow {more low high : Nat} (hlow : low ≤ high) (hhigh : high < 0x100) (n : Nat) :
    ∃ bs m, follow more low high n bs = .ok (m, []) := by
  induction more generalizing low high n with
  | zero => exact ⟨[], n, rfl⟩
  | succ more ih =>
    obtain ⟨bs, m, h⟩ := ih (by omega : 0x80 ≤ 0xBF) (by omega) (n * 64 + (low - 0x80))
    have hb := toNat_ofNat (k := low) (by omega)
    refine ⟨UInt8.ofNat low :: bs, m, follow_succ_iff.mpr ⟨_, bs, rfl, by omega, by omega, ?_⟩⟩
    rwa [hb]

theorem lead_range {b : UInt8} {l : Lead} (h : lead? b = some l) : l.low ≤ l.high ∧ l.high < 0x100 := by
  rcases lead?_eq_some_iff.mp h with ⟨-, rfl⟩ | ⟨-, -, rfl⟩ | ⟨-, -, rfl⟩ | ⟨-, -, rfl⟩
  · dsimp only
    omega
  · dsimp only
    omega
  · dsimp only
    refine ⟨?_, by split <;> omega⟩
    split
    · split <;> omega
    · split <;> omega
  · dsimp only
    refine ⟨?_, by split <;> omega⟩
    split
    · split <;> omega
    · split <;> omega

/-- the bytes that were right can be gone on with, and the next cannot -/
theorem follow_of_error {more low high n right : Nat} {bs : List UInt8} {reason : Reason}
    (hlow : low ≤ high) (hhigh : high < 0x100)
    (h : follow more low high n bs = .error (right, reason)) :
    (∃ cs m, follow more low high n (bs.take right ++ cs) = .ok (m, [])) ∧
      match reason with
      | .invalidStart => False
      | .invalidContinuation => right < bs.length ∧
          ∀ cs m rest, follow more low high n (bs.take (right + 1) ++ cs) ≠ .ok (m, rest)
      | .unexpectedEnd => right = bs.length := by
  induction more generalizing low high n bs right with
  | zero => cases h
  | succ more ih =>
    cases bs with
    | nil =>
      cases h
      exact ⟨exists_follow hlow hhigh n, rfl⟩
    | cons b bs =>
      rw [follow] at h
      split at h
      · next hb =>
        rw [Bool.and_eq_true, decide_eq_true_eq, decide_eq_true_eq] at hb
        split at h
        · cases h
        · next right' reason' hr =>
          cases h
          obtain ⟨⟨cs, m, hcs⟩, hreason⟩ := ih (by omega) (by omega) hr
          refine ⟨⟨cs, m, follow_succ_iff.mpr ⟨b, _, rfl, hb.1, hb.2, hcs⟩⟩, ?_⟩
          cases reason with
          | invalidStart => exact hreason
          | invalidContinuation =>
            refine ⟨Nat.succ_lt_succ hreason.1, ?_⟩
            intro cs m rest hok
            obtain ⟨b', cs', he, -, -, hcs'⟩ := follow_succ_iff.mp hok
            obtain ⟨rfl, rfl⟩ := List.cons.inj he
            exact hreason.2 cs m rest hcs'
          | unexpectedEnd => exact congrArg (· + 1) hreason
      · next hb =>
        cases h
        refine ⟨exists_follow hlow hhigh n, Nat.zero_lt_succ _, ?_⟩
        intro cs m rest hok
        obtain ⟨b', cs', he, hl, hh, -⟩ := follow_succ_iff.mp hok
        obtain ⟨rfl, -⟩ := List.cons.inj he
        exact hb (by simp [hl, hh])

theorem covers_of_first {position : Nat} {b : UInt8} {bs : List UInt8} {fault : Fault}
    (h : first position b bs = .error fault) :
    fault.position = position ∧ fault.Covers (b :: bs) := by
  unfold first at h
  split at h
  · next hl =>
    cases h
    refine ⟨rfl, rfl, rfl, ?_⟩
    intro hb
    obtain ⟨l, -, -, hl', -⟩ := begins_cons_iff.mp (show Begins [b] from hb)
    rw [hl] at hl'
    cases hl'
  · next l hl =>
    split at h
    · cases h
    · next right reason hf =>
      cases h
      obtain ⟨hlow, hhigh⟩ := lead_range hl
      obtain ⟨⟨cs, m, hcs⟩, hreason⟩ := follow_of_error hlow hhigh hf
      have hright : Begins ((b :: bs).take (right + 1)) :=
        begins_cons_iff.mpr ⟨l, cs, m, hl, hcs⟩
      refine ⟨rfl, rfl, ?_⟩
      cases reason with
      | invalidStart => exact hreason.elim
      | invalidContinuation =>
        refine ⟨Nat.succ_lt_succ hreason.1, hright, ?_⟩
        intro hb
        obtain ⟨l', cs', m', hl', hcs'⟩ :=
          begins_cons_iff.mp (show Begins (b :: bs.take (right + 1)) from hb)
        rw [hl] at hl'
        cases hl'
        exact hreason.2 cs' m' [] hcs'
      | unexpectedEnd =>
        have hall : (b :: bs).take (right + 1) = b :: bs := by
          rw [List.take_succ_cons, show right = bs.length from hreason, List.take_length]
        rw [hall] at hright
        exact ⟨congrArg (· + 1) hreason, hright⟩

/-- **A fault is at the first bad sequence**: the bytes before it are made of sequences, no sequence
begins at it, and it covers the bytes from there on as its reason says. -/
theorem fault_of_decode {bs : List UInt8} {fault : Fault} (h : decode bs = .error fault) :
    fault.position < bs.length ∧ MadeOfSequences (bs.take fault.position) ∧
      (∀ s, IsSequence s → ¬ s <+: bs.drop fault.position) ∧
      fault.Covers (bs.drop fault.position) := by
  obtain ⟨text, b, rest, rfl, hf⟩ := exists_cut_of_fault h
  obtain ⟨hp, hcovers⟩ := covers_of_first hf
  rw [Nat.zero_add] at hp
  rw [hp, List.take_left, List.drop_left]
  refine ⟨?_, madeOfSequences_iff.mpr ⟨text, rfl⟩, fun s hs => not_prefix_of_first hf hs, hcovers⟩
  rw [List.length_append, List.length_cons]
  omega

end Rebind.Utf8
