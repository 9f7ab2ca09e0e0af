import Rebind.Text.Utf8

/-!
# Reading undoes writing

A lead byte and the bytes after it are read by `first`; here that is compared with `encodeChar`.
Both directions go by the number of bytes.  A restricted second byte leaves out exactly what is no
written form: codes with a shorter form behind E0 and F0, surrogates behind ED, and what lies
above the last code behind F4.

* `first_eq_ok_iff_encodeChar`  a character is read exactly where its bytes stand;
* `decode_eq_ok_iff`            a text is read exactly from its bytes;
* `WellFormed`                  bytes that are the bytes of some text.
-/

namespace Rebind.Utf8

/-! ## continuation bytes -/

theorem follow_zero_iff {low high n m : Nat} {bs rest : List UInt8} :
    follow 0 low high n bs = .ok (m, rest) ↔ n = m ∧ bs = rest := by
  simp only [follow, Except.ok.injEq, Prod.mk.injEq]

theorem follow_succ_iff {more low high n m : Nat} {bs rest : List UInt8} :
    follow (more + 1) low high n bs = .ok (m, rest) ↔
      ∃ b cs, bs = b :: cs ∧ low ≤ b.toNat ∧ b.toNat ≤ high ∧
        follow more 0x80 0xBF (n * 64 + (b.toNat - 0x80)) cs = .ok (m, rest) := by
  cases bs with
  | nil => simp [follow]
  | cons b cs =>
    simp only [follow, List.cons.injEq]
    constructor
    · intro h
      split at h
      · next hb =>
        rw [Bool.and_eq_true, decide_eq_true_eq, decide_eq_true_eq] at hb
        split at h
        · next r hr =>
          rw [h] at hr
          exact ⟨b, cs, ⟨rfl, rfl⟩, hb.1, hb.2, hr⟩
        · cases h
      · cases h
    · rintro ⟨b', cs', ⟨rfl, rfl⟩, hlow, hhigh, hr⟩
      rw [if_pos (by simp [hlow, hhigh]), hr]

/-! ## the first character -/

theorem lead?_eq_some_iff {b : UInt8} {l : Lead} : lead? b = some l ↔
    (b.toNat < 0x80 ∧ ⟨0, 0x80, 0xBF, b.toNat⟩ = l) ∨
    (0xC2 ≤ b.toNat ∧ b.toNat < 0xE0 ∧ ⟨1, 0x80, 0xBF, b.toNat - 0xC0⟩ = l) ∨
    (0xE0 ≤ b.toNat ∧ b.toNat < 0xF0 ∧ ⟨2, if b.toNat = 0xE0 then 0xA0 else 0x80,
      if b.toNat = 0xED then 0x9F else 0xBF, b.toNat - 0xE0⟩ = l) ∨
    (0xF0 ≤ b.toNat ∧ b.toNat < 0xF5 ∧ ⟨3, if b.toNat = 0xF0 then 0x90 else 0x80,
      if b.toNat = 0xF4 then 0x8F else 0xBF, b.toNat - 0xF0⟩ = l) := by
  unfold lead?
  simp only
  split
  · next h => simp only [Option.some.injEq]; grind
  · split
    · simp only [reduceCtorEq, false_iff]; omega
    · split
      · simp only [Option.some.injEq]; grind
      · split
        · simp only [Option.some.injEq]; grind
        · split
          · simp only [Option.some.injEq]; grind
          · simp only [reduceCtorEq, false_iff]; omega

theorem first_eq_ok_iff {position : Nat} {b : UInt8} {bs rest : List UInt8} {c : Char} :
    first position b bs = .ok (c, rest) ↔
      ∃ l n, lead? b = some l ∧ follow l.more l.low l.high l.share bs = .ok (n, rest) ∧
        Char.ofNat n = c := by
  unfold first
  cases lead? b with
  | none => simp
  | some l =>
    simp only [Option.some.injEq]
    constructor
    · intro h
      split at h
      · next n r hr =>
        rw [Except.ok.injEq, Prod.mk.injEq] at h
        exact ⟨l, n, rfl, by rw [hr, h.2], h.1⟩
      · cases h
    · rintro ⟨l', n, rfl, hr, rfl⟩
      rw [hr]

theorem toNat_ofNat {k : Nat} (h : k < 256) : (UInt8.ofNat k).toNat = k :=
  UInt8.toNat_ofNat_of_lt' h

theorem ofNat_eq {k : Nat} {b : UInt8} (h : k = b.toNat) : UInt8.ofNat k = b := by
  rw [h, UInt8.ofNat_toNat]

theorem toNat_char_ofNat {n : Nat} (h : n.isValidChar) : (Char.ofNat n).toNat = n := by
  unfold Char.ofNat
  rw [dif_pos h]
  exact UInt32.toNat_ofNatLT ..

theorem first_encodeChar (position : Nat) {b : UInt8} {bs rest : List UInt8} {c : Char}
    (h : b :: bs = encodeChar c ++ rest) : first position b bs = .ok (c, rest) := by
  have hv : c.toNat.isValidChar := c.valid
  have hc : Char.ofNat c.toNat = c := Char.ofNat_toNat c
  rw [first_eq_ok_iff]
  unfold encodeChar at h
  simp only at h
  split at h
  · obtain ⟨rfl, rfl⟩ := List.cons.inj h
    have hb := toNat_ofNat (k := c.toNat) (by omega)
    refine ⟨_, c.toNat, lead?_eq_some_iff.mpr (.inl ⟨by omega, rfl⟩), ?_, hc⟩
    exact follow_zero_iff.mpr ⟨hb, rfl⟩
  split at h
  · obtain ⟨rfl, rfl⟩ := List.cons.inj h
    have hb := toNat_ofNat (k := 0xC0 + c.toNat / 64) (by omega)
    have hb₁ := toNat_ofNat (k := 0x80 + c.toNat % 64) (by omega)
    refine ⟨_, c.toNat, lead?_eq_some_iff.mpr (.inr (.inl ⟨by omega, by omega, rfl⟩)), ?_, hc⟩
    dsimp only
    refine follow_succ_iff.mpr ⟨_, _, rfl, by omega, by omega, ?_⟩
    exact follow_zero_iff.mpr ⟨by omega, rfl⟩
  split at h
  · obtain ⟨rfl, rfl⟩ := List.cons.inj h
    have hb := toNat_ofNat (k := 0xE0 + c.toNat / 4096) (by omega)
    have hb₁ := toNat_ofNat (k := 0x80 + c.toNat / 64 % 64) (by omega)
    have hb₂ := toNat_ofNat (k := 0x80 + c.toNat % 64) (by omega)
    refine ⟨_, c.toNat, lead?_eq_some_iff.mpr (.inr (.inr (.inl ⟨by omega, by omega, rfl⟩))), ?_,
      hc⟩
    dsimp only
    refine follow_succ_iff.mpr ⟨_, _, rfl, by split <;> omega, by split <;> omega, ?_⟩
    refine follow_succ_iff.mpr ⟨_, _, rfl, by omega, by omega, ?_⟩
    exact follow_zero_iff.mpr ⟨by omega, rfl⟩
  · obtain ⟨rfl, rfl⟩ := List.cons.inj h
    have hb := toNat_ofNat (k := 0xF0 + c.toNat / 262144) (by omega)
    have hb₁ := toNat_ofNat (k := 0x80 + c.toNat / 4096 % 64) (by omega)
    have hb₂ := toNat_ofNat (k := 0x80 + c.toNat / 64 % 64) (by omega)
    have hb₃ := toNat_ofNat (k := 0x80 + c.toNat % 64) (by omega)
    refine ⟨_, c.toNat, lead?_eq_some_iff.mpr (.inr (.inr (.inr ⟨by omega, by omega, rfl⟩))), ?_,
      hc⟩
    dsimp only
    refine follow_succ_iff.mpr ⟨_, _, rfl, by split <;> omega, by split <;> omega, ?_⟩
    refine follow_succ_iff.mpr ⟨_, _, rfl, by omega, by omega, ?_⟩
    refine follow_succ_iff.mpr ⟨_, _, rfl, by omega, by omega, ?_⟩
    exact follow_zero_iff.mpr ⟨by omega, rfl⟩

theorem encodeChar_ofNat {n : Nat} (h : n.isValidChar) : encodeChar (Char.ofNat n) =
    if n < 0x80 then [.ofNat n]
    else if n < 0x800 then [.ofNat (0xC0 + n / 64), .ofNat (0x80 + n % 64)]
    else if n < 0x10000 then
      [.ofNat (0xE0 + n / 4096), .ofNat (0x80 + n / 64 % 64), .ofNat (0x80 + n % 64)]
    else
      [.ofNat (0xF0 + n / 262144), .ofNat (0x80 + n / 4096 % 64), .ofNat (0x80 + n / 64 % 64),
        .ofNat (0x80 + n % 64)] := by
  show (if (Char.ofNat n).toNat < 0x80 then _ else _) = _
  rw [toNat_char_ofNat h]

theorem eq_encodeChar_of_first {position : Nat} {b : UInt8} {bs rest : List UInt8} {c : Char}
    (h : first position b bs = .ok (c, rest)) : b :: bs = encodeChar c ++ rest := by
  obtain ⟨l, n, hl, hf, rfl⟩ := first_eq_ok_iff.mp h
  rcases lead?_eq_some_iff.mp hl with ⟨h₁, rfl⟩ | ⟨h₁, h₂, rfl⟩ | ⟨h₁, h₂, rfl⟩ | ⟨h₁, h₂, rfl⟩
  · obtain ⟨rfl, rfl⟩ := follow_zero_iff.mp hf
    dsimp only
    rw [encodeChar_ofNat (by left; omega), if_pos h₁, ofNat_eq rfl]
    rfl
  · obtain ⟨b₁, _, rfl, hlow, hhigh, hf⟩ := follow_succ_iff.mp hf
    obtain ⟨rfl, rfl⟩ := follow_zero_iff.mp hf
    dsimp only at hlow hhigh ⊢
    rw [encodeChar_ofNat (by left; omega), if_neg (by omega), if_pos (by omega),
      ofNat_eq (b := b) (by omega), ofNat_eq (b := b₁) (by omega)]
    rfl
  · obtain ⟨b₁, _, rfl, hlow, hhigh, hf⟩ := follow_succ_iff.mp hf
    obtain ⟨b₂, _, rfl, hlow₂, hhigh₂, hf⟩ := follow_succ_iff.mp hf
    obtain ⟨rfl, rfl⟩ := follow_zero_iff.mp hf
    dsimp only at hlow hhigh ⊢
    -- a lead byte E0 leaves out what is shorter, ED the surrogates
    have hlow' : 0x80 ≤ b₁.toNat ∧ (b.toNat = 0xE0 → 0xA0 ≤ b₁.toNat) := by
      split at hlow <;> omega
    have hhigh' : b₁.toNat ≤ 0xBF ∧ (b.toNat = 0xED → b₁.toNat ≤ 0x9F) := by
      split at hhigh <;> omega
    rw [encodeChar_ofNat (by unfold Nat.isValidChar; omega), if_neg (by omega),
      if_neg (by omega), if_pos (by omega), ofNat_eq (b := b) (by omega),
      ofNat_eq (b := b₁) (by omega), ofNat_eq (b := b₂) (by omega)]
    rfl
  · obtain ⟨b₁, _, rfl, hlow, hhigh, hf⟩ := follow_succ_iff.mp hf
    obtain ⟨b₂, _, rfl, hlow₂, hhigh₂, hf⟩ := follow_succ_iff.mp hf
    obtain ⟨b₃, _, rfl, hlow₃, hhigh₃, hf⟩ := follow_succ_iff.mp hf
    obtain ⟨rfl, rfl⟩ := follow_zero_iff.mp hf
    dsimp only at hlow hhigh ⊢
    have hlow' : 0x80 ≤ b₁.toNat ∧ (b.toNat = 0xF0 → 0x90 ≤ b₁.toNat) := by
      split at hlow <;> omega
    have hhigh' : b₁.toNat ≤ 0xBF ∧ (b.toNat = 0xF4 → b₁.toNat ≤ 0x8F) := by
      split at hhigh <;> omega
    rw [encodeChar_ofNat (by right; omega), if_neg (by omega), if_neg (by omega),
      if_neg (by omega), ofNat_eq (b := b) (by omega), ofNat_eq (b := b₁) (by omega),
      ofNat_eq (b := b₂) (by omega), ofNat_eq (b := b₃) (by omega)]
    rfl

theorem first_eq_ok_iff_encodeChar {position : Nat} {b : UInt8} {bs rest : List UInt8} {c : Char} :
    first position b bs = .ok (c, rest) ↔ b :: bs = encodeChar c ++ rest :=
  ⟨eq_encodeChar_of_first, first_encodeChar position⟩

/-! ## texts -/

theorem encodeChar_ne_nil (c : Char) : encodeChar c ≠ [] := by
  unfold encodeChar
  simp only
  split
  · exact List.cons_ne_nil _ _
  split
  · exact List.cons_ne_nil _ _
  split
  · exact List.cons_ne_nil _ _
  · exact List.cons_ne_nil _ _

theorem eq_encode_of_decodeFrom {position : Nat} {bs : List UInt8} {text : List Char}
    (h : decodeFrom position bs = .ok text) : bs = encode text := by
  fun_induction decodeFrom position bs generalizing text with
  | case1 position =>
    cases h
    rfl
  | case2 position b bs fault hf => cases h
  | case3 position b bs c rest hf fault hr ih => cases h
  | case4 position b bs c rest hf cs hr ih =>
    cases h
    rw [encode_cons, ← ih hr]
    exact first_eq_ok_iff_encodeChar.mp hf

theorem decodeFrom_encode (position : Nat) (text : List Char) :
    decodeFrom position (encode text) = .ok text := by
  induction text generalizing position with
  | nil => rw [encode_nil, decodeFrom]
  | cons c cs ih =>
    rw [encode_cons]
    cases he : encodeChar c with
    | nil => exact absurd he (encodeChar_ne_nil c)
    | cons b bs =>
      have hf : first position b (bs ++ encode cs) = .ok (c, encode cs) :=
        first_eq_ok_iff_encodeChar.mpr (by rw [he]; rfl)
      rw [List.cons_append, decodeFrom]
      split
      · next fault h =>
        rw [hf] at h
        cases h
      · next c' rest h =>
        rw [hf] at h
        cases h
        rw [ih]

/-- a text is read from its bytes and from no others -/
theorem decode_eq_ok_iff {bs : List UInt8} {text : List Char} :
    decode bs = .ok text ↔ bs = encode text := by
  constructor
  · exact eq_encode_of_decodeFrom
  · rintro rfl
    exact decodeFrom_encode 0 text

theorem decode_encode (text : List Char) : decode (encode text) = .ok text :=
  decode_eq_ok_iff.mpr rfl

theorem encode_inj {a b : List Char} (h : encode a = encode b) : a = b := by
  have hd := decode_eq_ok_iff.mpr h
  rw [decode_encode] at hd
  exact Except.ok.inj hd

def WellFormed (bs : List UInt8) : Prop := ∃ text, bs = encode text

theorem exists_fault_iff {bs : List UInt8} :
    (∃ fault, decode bs = .error fault) ↔ ¬ WellFormed bs := by
  constructor
  · rintro ⟨fault, hf⟩ ⟨text, ht⟩
    rw [decode_eq_ok_iff.mpr ht] at hf
    cases hf
  · intro h
    cases hd : decode bs with
    | error fault => exact ⟨fault, rfl⟩
    | ok text => exact absurd ⟨text, decode_eq_ok_iff.mp hd⟩ h

theorem encode_infix {a b : List Char} (h : a <:+: b) : encode a <:+: encode b := by
  obtain ⟨x, y, rfl⟩ := h
  exact ⟨encode x, encode y, by rw [encode_append, encode_append]⟩

end Rebind.Utf8
