import Rebind.Proofs.Replacement

/-!
# What becomes of a text

Whether a text is changed does not depend on the path that the bindings get: it is changed exactly
when it has an import and not the marker (`isOpen`, `outcome_fix_eq_fixed_iff`).  Each pass that
finds a declaration writes a block, and each block has the marker; so a changed text has the marker
whatever the path holds, and is never changed again (`isOpen_fix`).
-/

namespace Rebind

namespace Declaration

theorem block_infix_replace {wanted : List Export} {text : List Char}
    (h : occurs wanted text = true) (block : List Char) : block <:+: replace wanted block text := by
  obtain ⟨s, hs⟩ := occurs_iff.mp h
  obtain ⟨ps, qs, hp⟩ := List.append_of_mem hs
  rw [replace, hp, List.flatMap_append, List.flatMap_cons]
  exact ⟨ps.flatMap (Piece.withBlock block), qs.flatMap (Piece.withBlock block),
    List.append_assoc _ _ _⟩

end Declaration

open Declaration

theorem marker_infix_block (exports : List Export) (path newline : List Char) :
    marker <:+: Export.block exports path newline := by
  rw [Export.block, bindingBlock, header]
  exact ⟨"// ".toList, _, by simp only [List.append_assoc]; rfl⟩

theorem isPatched_of_infix {a b : List Char} (h : a <:+: b) (ha : isPatched a = true) :
    isPatched b = true :=
  hasPart_iff.mpr ((hasPart_iff.mp ha).trans h)

theorem isPatched_block (exports : List Export) (path newline : List Char) :
    isPatched (Export.block exports path newline) = true :=
  hasPart_iff.mpr (marker_infix_block exports path newline)

/-- a pass that finds something writes the marker -/
theorem isPatched_replace {wanted : List Export} {text : List Char}
    (h : occurs wanted text = true) (path newline : List Char) :
    isPatched (replace wanted (Export.block wanted path newline) text) = true :=
  isPatched_of_infix (block_infix_replace h _) (isPatched_block wanted path newline)

/-- a second pass takes no marker away: where it takes anything away it writes one -/
theorem isPatched_rebindExport {text : List Char} (h : isPatched text = true)
    (path newline : List Char) (e : Export) (found : Bool) :
    isPatched (rebindExport path newline e found text) = true := by
  cases found with
  | false => exact h
  | true =>
    show isPatched (replace [e] (Export.block [e] path newline) text) = true
    cases ho : occurs [e] text with
    | true => exact isPatched_replace ho path newline
    | false => rwa [replace_of_not_occurs ho]

theorem isPatched_rebind {text : List Char}
    (h : (hasImport .internal text || hasImport .api text) = true) (path : List Char) :
    isPatched (rebind path text) = true := by
  rw [rebind]
  split
  · next ho => exact isPatched_replace ho path _
  cases hi : hasImport .internal text with
  | true => exact isPatched_rebindExport (isPatched_replace hi path _) path _ .api _
  | false =>
    rw [hi, Bool.false_or] at h
    rw [h]
    exact isPatched_replace h path _

/-- the text has an import that was not dealt with -/
def isOpen (text : List Char) : Bool :=
  !isPatched text && (hasImport .internal text || hasImport .api text)

/-- the replaced text is never the text as it was, so the last test of a fix decides nothing -/
theorem fix_eq (path text : List Char) :
    fix path text =
      if isPatched text then ⟨text, .alreadyPatched⟩
      else if hasImport .internal text || hasImport .api text then ⟨rebind path text, .fixed⟩
      else ⟨text, .noMatch⟩ := by
  rw [fix]
  cases hp : isPatched text with
  | true => rfl
  | false =>
    cases hn : hasImport .internal text || hasImport .api text with
    | false => rfl
    | true =>
      -- the replaced text has the marker
      have hne : rebind path text ≠ text := by
        intro he
        rw [← he, isPatched_rebind hn] at hp
        cases hp
      simp [hne]

theorem outcome_fix_eq_fixed_iff {path text : List Char} :
    (fix path text).outcome = .fixed ↔ isOpen text = true := by
  rw [isOpen, fix_eq]
  cases isPatched text with
  | true => simp
  | false => cases hasImport .internal text || hasImport .api text <;> simp

theorem isPatched_fix {path text : List Char} (h : isOpen text = true) :
    isPatched (fix path text).text = true := by
  rw [isOpen, Bool.and_eq_true, Bool.not_eq_true'] at h
  rw [fix_text h.1]
  exact isPatched_rebind h.2 path

theorem text_fix {path text : List Char} (h : isOpen text = false) :
    (fix path text).text = text := by
  rw [isOpen] at h
  rw [fix_eq]
  cases hp : isPatched text with
  | true => rfl
  | false =>
    rw [hp] at h
    have hn : (hasImport .internal text || hasImport .api text) = false := h
    rw [hn]
    rfl

/-- a fixed text is not open, by whatever path it was fixed -/
theorem isOpen_fix (path text : List Char) : isOpen (fix path text).text = false := by
  cases h : isOpen text with
  | false => rw [text_fix h, h]
  | true => rw [isOpen, isPatched_fix h]; rfl

theorem isOpen_iff {text : List Char} :
    isOpen text = true ↔ ¬ marker <:+: text ∧
      (hasImport .internal text = true ∨ hasImport .api text = true) := by
  rw [isOpen, Bool.and_eq_true, Bool.or_eq_true, Bool.not_eq_true', ← hasPart_iff,
    Bool.not_eq_true]
  rfl

theorem text_fix_ne_iff {path text : List Char} :
    (fix path text).text ≠ text ↔ isOpen text = true := by
  constructor
  · intro hne
    rw [← Bool.not_eq_false]
    exact fun h => hne (text_fix h)
  · intro h he
    have hclosed := isOpen_fix path text
    rw [he, h] at hclosed
    cases hclosed

/-- **Outcomes are decided by detection alone.**  A text with the marker is already patched, one
with an import and no marker is fixed, and any other has no match; the text changes iff it is fixed,
the replaced text is never the text as it was, and no outcome depends on the path. -/
theorem outcome_fix (path text : List Char) :
    ((fix path text).outcome = .alreadyPatched ↔ marker <:+: text) ∧
    ((fix path text).outcome = .fixed ↔ ¬ marker <:+: text ∧
      (hasImport .internal text = true ∨ hasImport .api text = true)) ∧
    ((fix path text).outcome = .noMatch ↔ ¬ marker <:+: text ∧
      ¬ (hasImport .internal text = true ∨ hasImport .api text = true)) ∧
    ((fix path text).text ≠ text ↔ (fix path text).outcome = .fixed) ∧
    ¬ (¬ marker <:+: text ∧ (hasImport .internal text = true ∨ hasImport .api text = true) ∧
      rebind path text = text) ∧
    ∀ path', (fix path' text).outcome = (fix path text).outcome := by
  have houtcome : ∀ p, (fix p text).outcome =
      if isPatched text then .alreadyPatched
      else if hasImport .internal text || hasImport .api text then .fixed else .noMatch := by
    intro p
    rw [fix_eq, apply_ite Fix.outcome, apply_ite Fix.outcome]
  have hmarker : marker <:+: text ↔ isPatched text = true := hasPart_iff.symm
  refine ⟨?_, ?_, ?_, ?_, ?_, fun path' => ?_⟩
  · rw [houtcome, hmarker]
    split
    · next hp => simp [hp]
    · next hp => split <;> simp [hp]
  · rw [outcome_fix_eq_fixed_iff, isOpen_iff]
  · rw [houtcome, hmarker, ← Bool.or_eq_true]
    split
    · next hp => simp [hp]
    · next hp => split <;> simp_all
  · rw [text_fix_ne_iff, outcome_fix_eq_fixed_iff]
  · rintro ⟨hm, himport, he⟩
    rw [hmarker, Bool.not_eq_true] at hm
    rw [← he, isPatched_rebind (Bool.or_eq_true _ _ ▸ himport)] at hm
    cases hm
  · rw [houtcome, houtcome]

/-- a path that brings a declaration of its own, and the marker -/
def loudPath : List Char := '\n' :: apartText ++ marker

theorem outcome_fix_apartText :
    (fix loudPath apartText).outcome = .fixed ∧ (fix loudPath apartText).text ≠ apartText ∧
      (fix [] apartText).outcome = .fixed := by
  obtain ⟨-, hfixed, -, hchanged, -, hany⟩ := outcome_fix loudPath apartText
  have hmarker : ¬ marker <:+: apartText := by
    rw [← hasPart_iff]
    decide +kernel
  have himport : hasImport .internal apartText = true := by decide +kernel
  have h := hfixed.mpr ⟨hmarker, .inl himport⟩
  exact ⟨h, hchanged.mpr h, (hany []).trans h⟩

end Rebind
