import Mathlib.Data.List.Infix
import Rebind.Proofs.LineBreaks

/-!
# How often a fix writes the marker

`countPart` counts the positions at which a text begins.  A character that a part does not hold
cuts the count in two (`countPart_append_cons`), so a text whose first and last characters are not
in the marker adds its own count wherever it is put (`Marks`).  Blocks are put together from such
texts and hold one marker each (`Marks.block`).

Kept characters between two blocks are characters of the text as it was, in which no marker stands;
so the marker is counted once for each declaration that was replaced (`countPart_patch`).  The
marker does not overlap itself, hence counting from left to right gives the same number
(`countApart_marker`).
-/

namespace Rebind

/-! ## counting -/

/-- at how many positions of a text `part` begins -/
def countPart (part text : List Char) : Nat := text.tails.countP part.isPrefixOf

/-- how often `part`, which is not empty, is met from left to right without overlap -/
def countApart (part text : List Char) : Nat :=
  match text with
  | [] => 0
  | c :: r =>
    if part.isPrefixOf (c :: r) then 1 + countApart part (r.drop (part.length - 1))
    else countApart part r
termination_by text.length
decreasing_by all_goals simp; try omega

theorem countPart_cons (part : List Char) (c : Char) (cs : List Char) :
    countPart part (c :: cs) = countPart part cs + if part.isPrefixOf (c :: cs) then 1 else 0 := by
  rw [countPart, List.tails_cons, List.countP_cons]
  rfl

theorem countPart_eq_zero_iff {part text : List Char} :
    countPart part text = 0 ↔ ¬ part <:+: text := by
  rw [countPart, List.countP_eq_zero]
  simp only [List.mem_tails, List.isPrefixOf_iff_prefix]
  constructor
  · rintro h ⟨x, y, rfl⟩
    refine h (part ++ y) ?_ (List.prefix_append part y)
    rw [List.append_assoc]
    exact List.suffix_append x _
  · intro h t hbehind hbegins
    exact h (hbegins.isInfix.trans hbehind.isInfix)

theorem countPart_eq_zero_of_infix {part a b : List Char} (h : a <:+: b)
    (hb : countPart part b = 0) : countPart part a = 0 := by
  rw [countPart_eq_zero_iff] at hb ⊢
  exact fun ha => hb (ha.trans h)

/-- what stands behind a character that `part` does not hold has no say in where `part` begins -/
theorem isPrefixOf_append_cons {part : List Char} {d : Char} (hd : d ∉ part) (a b : List Char) :
    part.isPrefixOf (a ++ d :: b) = part.isPrefixOf a := by
  rw [Bool.eq_iff_iff, List.isPrefixOf_iff_prefix, List.isPrefixOf_iff_prefix]
  refine ⟨fun h => ?_, fun h => h.trans (List.prefix_append a _)⟩
  rcases List.prefix_or_prefix_of_prefix h (List.prefix_append a (d :: b)) with h' | ⟨t, rfl⟩
  · exact h'
  · rw [List.prefix_append_right_inj] at h
    cases t with
    | nil => rw [List.append_nil]
    | cons c t =>
      obtain ⟨rfl, -⟩ := List.cons_prefix_cons.mp h
      exact absurd (List.mem_append_right a List.mem_cons_self) hd

/-- a character that `part` does not hold cuts the count in two -/
theorem countPart_append_cons {part : List Char} {d : Char} (hne : part ≠ []) (hd : d ∉ part)
    (a b : List Char) : countPart part (a ++ d :: b) = countPart part a + countPart part b := by
  have hnil : part.isPrefixOf [] = false := by
    obtain ⟨c, t, rfl⟩ := List.exists_cons_of_ne_nil hne
    rfl
  induction a with
  | nil =>
    have hhead := isPrefixOf_append_cons hd [] b
    rw [hnil] at hhead
    rw [List.nil_append] at hhead ⊢
    rw [countPart_cons, hhead, countPart_eq_zero_iff.mpr (fun h => hne (List.infix_nil.mp h))]
    simp
  | cons c a ih =>
    rw [List.cons_append, countPart_cons, countPart_cons, ih, ← List.cons_append,
      isPrefixOf_append_cons hd]
    omega

/-! ## the marker apart from itself -/

theorem countPart_append_of_not_mem {c : Char} {part a : List Char} (ha : c ∉ a) (b : List Char) :
    countPart (c :: part) (a ++ b) = countPart (c :: part) b := by
  induction a with
  | nil => rfl
  | cons d a ih =>
    rw [List.mem_cons, not_or] at ha
    have hno : (c :: part).isPrefixOf (d :: (a ++ b)) = false := by
      rw [List.isPrefixOf_cons_cons, Bool.and_eq_false_iff]
      left
      simpa using ha.1
    rw [List.cons_append, countPart_cons, ih ha.2, hno]
    rfl

theorem countPart_marker_eq_zero {a : List Char} (ha : 'B' ∉ a) : countPart marker a = 0 := by
  have h : countPart marker (a ++ []) = countPart marker [] := countPart_append_of_not_mem ha []
  rwa [List.append_nil] at h

/-- a part whose first character does not come again is counted alike in both ways -/
theorem countApart_eq_countPart {c : Char} {part : List Char} (h : c ∉ part) (text : List Char) :
    countApart (c :: part) text = countPart (c :: part) text := by
  fun_induction countApart (c :: part) text with
  | case1 => rfl
  | case2 d r hp ih =>
    obtain ⟨t, ht⟩ := List.isPrefixOf_iff_prefix.mp hp
    obtain ⟨rfl, hr⟩ := List.cons.inj ht
    have hdrop : r.drop ((c :: part).length - 1) = t := by
      rw [← hr, List.length_cons, Nat.add_sub_cancel]
      exact List.drop_left
    have hskip : countPart (c :: part) r = countPart (c :: part) t := by
      rw [← hr]
      exact countPart_append_of_not_mem h t
    rw [ih, hdrop, countPart_cons, if_pos hp, hskip, Nat.add_comm]
  | case3 d r hp ih => rw [ih, countPart_cons, if_neg hp, Nat.add_zero]

theorem countApart_marker (text : List Char) : countApart marker text = countPart marker text :=
  countApart_eq_countPart (by decide) text

/-! ## texts that hold the marker `n` times wherever they are put -/

/-- the text adds `n` markers to what it is put between: none runs over its ends -/
def Marks (n : Nat) (b : List Char) : Prop :=
  ∀ x y, countPart marker (x ++ (b ++ y)) = countPart marker x + n + countPart marker y

namespace Marks

theorem append {m n : Nat} {a b : List Char} (ha : Marks m a) (hb : Marks n b) :
    Marks (m + n) (a ++ b) := by
  intro x y
  have hby := hb [] y
  rw [List.nil_append, show countPart marker [] = 0 from rfl] at hby
  rw [List.append_assoc, ha, hby]
  omega

/-- a text that neither begins nor ends with a character of the marker -/
theorem closed {b : List Char} {d e : Char} (hhead : b.head? = some d) (hd : d ∉ marker)
    (hlast : b.getLast? = some e) (he : e ∉ marker) : Marks (countPart marker b) b := by
  have hm : marker ≠ [] := List.cons_ne_nil _ _
  have hnil : countPart marker [] = 0 := rfl
  obtain ⟨t, rfl⟩ := List.head?_eq_some_iff.mp hhead
  have hb := countPart_append_cons hm hd [] t
  rw [List.nil_append, hnil] at hb
  intro x y
  rw [List.cons_append, countPart_append_cons hm hd, hb]
  rcases List.eq_nil_or_concat t with rfl | ⟨t, c, rfl⟩
  · rw [List.nil_append, hnil]
    omega
  · rw [List.concat_eq_append] at hlast ⊢
    obtain rfl : c = e := by
      rw [← List.cons_append, List.getLast?_concat] at hlast
      exact Option.some.inj hlast
    rw [List.append_assoc, List.singleton_append, countPart_append_cons hm he,
      countPart_append_cons hm he t [], hnil]
    omega

theorem of_eq {b : List Char} {n : Nat} (hb : Marks (countPart marker b) b)
    (h : countPart marker b = n) : Marks n b := h ▸ hb

theorem breakOf (crlf : Bool) : Marks 0 (breakOf crlf) := by
  cases crlf with
  | true => exact closed (d := '\r') (e := '\n') rfl (by decide) rfl (by decide)
  | false => exact closed (d := '\n') (e := '\n') rfl (by decide) rfl (by decide)

variable {path : List Char} (hpath : countPart marker path = 0)
include hpath

/-- a path without the marker brings none between its quotes -/
theorem quoted : Marks 0 ('\'' :: (path ++ ['\''])) := by
  have hm : marker ≠ [] := List.cons_ne_nil _ _
  have hquote : '\'' ∉ marker := by decide
  have hlast : ('\'' :: (path ++ ['\''])).getLast? = some '\'' := by
    rw [← List.cons_append, List.getLast?_concat]
  refine (closed rfl hquote hlast hquote).of_eq ?_
  rw [← List.nil_append ('\'' :: _), countPart_append_cons hm hquote,
    countPart_append_cons hm hquote, hpath]
  rfl

theorem bindingLine (e : Export) (crlf : Bool) :
    Marks 0 (bindingLine e.name path (Rebind.breakOf crlf)) := by
  have hopening : Marks 0 (linterException ++ Rebind.breakOf crlf ++ "const ".toList ++ e.name ++
      " = require(".toList) := by
    have hexception : 'B' ∉ linterException := by decide +kernel
    have hbreak : 'B' ∉ Rebind.breakOf crlf := by cases crlf <;> decide
    have hname : 'B' ∉ e.name := by cases e <;> decide
    have hnone : 'B' ∉ linterException ++ Rebind.breakOf crlf ++ "const ".toList ++ e.name ++
        " = require(".toList := by
      simp only [List.mem_append, not_or]
      exact ⟨⟨⟨⟨hexception, hbreak⟩, by decide⟩, hname⟩, by decide⟩
    refine (closed (d := '/') (e := '(') rfl (by decide) ?_ (by decide)).of_eq
      (countPart_marker_eq_zero hnone)
    rw [List.getLast?_append_of_ne_nil _ (by decide)]
    rfl
  have hclosing : Marks 0 (").".toList ++ e.name ++ " as any;".toList) := by
    have h : ∀ e, (").".toList ++ Export.name e ++ " as any;".toList).getLast? = some ';' ∧
        'B' ∉ ").".toList ++ Export.name e ++ " as any;".toList := by
      intro e
      cases e <;> decide +kernel
    exact (closed (d := ')') rfl (by decide) (h e).1 (by decide)).of_eq
      (countPart_marker_eq_zero (h e).2)
  have heq : Rebind.bindingLine e.name path (Rebind.breakOf crlf) =
      (linterException ++ Rebind.breakOf crlf ++ "const ".toList ++ e.name ++
        " = require(".toList) ++ ('\'' :: (path ++ ['\''])) ++
        (").".toList ++ e.name ++ " as any;".toList) := by
    simp [Rebind.bindingLine]
  rw [heq]
  exact (hopening.append (quoted hpath)).append hclosing

/-- a block holds the marker once, in its header -/
theorem block {exports : List Export} (hne : exports ≠ []) (crlf : Bool) :
    Marks 1 (Export.block exports path (Rebind.breakOf crlf)) := by
  have hheader : Marks 1 header := by
    have h : header.getLast? = some 'e' ∧ countPart marker header = 1 := by decide +kernel
    exact (closed (d := '/') rfl (by decide) h.1 (by decide)).of_eq h.2
  have hlines : Marks 0 ((Rebind.breakOf crlf).intercalate ((exports.map Export.name).map fun n =>
      Rebind.bindingLine n path (Rebind.breakOf crlf))) := by
    refine Declaration.intercalate_of_join (motive := Marks 0) ?_ (by simpa using hne) ?_
    · intro a b ha hb
      exact (ha.append (breakOf crlf)).append hb
    · intro l hl
      rw [List.map_map] at hl
      obtain ⟨e, -, rfl⟩ := List.mem_map.mp hl
      exact bindingLine hpath e crlf
  exact (hheader.append (breakOf crlf)).append hlines

end Marks

/-! ## counting along the cut -/

namespace Declaration

theorem countPart_patch {f : List Char → Option (List Char)} (hf : ∀ s b, f s = some b → Marks 1 b)
    (qs : List Piece) {a : List Char} (pos : Nat)
    (h : countPart marker (a ++ qs.flatMap Piece.source) = 0) :
    countPart marker (a ++ qs.flatMap (Piece.patch f)) =
      (spansFrom pos qs).countP fun sp => (f sp.source).isSome := by
  induction qs generalizing a pos with
  | nil => exact h
  | cons q qs ih =>
    rw [List.flatMap_cons] at h ⊢
    cases q with
    | kept c =>
      -- `a` is the text as it was, from the last block on
      have hnext := @ih (a ++ [c]) (pos + 1) (by rw [List.append_assoc]; exact h)
      rw [List.append_assoc] at hnext
      exact hnext
    | declaration s =>
      rw [spansFrom, List.countP_cons]
      cases hb : f s with
      | none =>
        have hnext := @ih (a ++ s) (pos + s.length) (by rw [List.append_assoc]; exact h)
        rw [List.append_assoc] at hnext
        simpa [Piece.patch, hb] using hnext
      | some b =>
        have ha : countPart marker a = 0 :=
          countPart_eq_zero_of_infix (List.prefix_append a _).isInfix h
        have hrest : countPart marker ([] ++ qs.flatMap Piece.source) = 0 := by
          refine countPart_eq_zero_of_infix ?_ h
          exact ((List.suffix_append s _).trans (List.suffix_append a _)).isInfix
        have hnext := ih (pos + s.length) hrest
        rw [List.nil_append] at hnext
        have hblock := hf s b hb a (qs.flatMap (Piece.patch f))
        rw [ha, hnext] at hblock
        simpa [Piece.patch, hb, Nat.add_comm] using hblock

theorem countPart_patchWith {f : List Char → Option (List Char)}
    (hf : ∀ s b, f s = some b → Marks 1 b) {text : List Char} (h : isPatched text = false) :
    countPart marker (patchWith f text) =
      (spans [] text).countP fun sp => (f sp.source).isSome := by
  refine countPart_patch hf (pieces [] text) (a := []) 0 ?_
  rw [List.nil_append, flatMap_source_pieces, countPart_eq_zero_iff, ← hasPart_iff]
  exact Bool.eq_false_iff.mp h

theorem isSome_blockFor (wanted : List Export) (block s : List Char) :
    (blockFor wanted block s).isSome = declares wanted s := by
  rw [blockFor]
  cases declares wanted s <;> rfl

theorem length_spans (wanted : List Export) (text : List Char) :
    (spans wanted text).length = (spans [] text).countP fun sp => declares wanted sp.source := by
  rw [spans_eq_filter, List.countP_eq_length_filter]

theorem spans_eq_nil_iff {wanted : List Export} {text : List Char} :
    spans wanted text = [] ↔ occurs wanted text = false := by
  rw [← Bool.not_eq_true, occurs_iff_exists_span, not_exists, List.eq_nil_iff_forall_not_mem]

/-- spans for either export, where no declaration has both -/
theorem length_spans_add {text : List Char} (hc : occurs Export.all text = false) :
    (spans [.internal] text).length + (spans [.api] text).length =
      (spans [] text).countP fun sp =>
        declares [.internal] sp.source || declares [.api] sp.source := by
  have hcut := List.countP_eq_countP_filter_add (spans [] text)
    (fun sp => declares [.internal] sp.source || declares [.api] sp.source)
    (fun sp => declares [.internal] sp.source)
  rw [List.countP_filter, List.countP_filter] at hcut
  rw [length_spans, length_spans, hcut]
  congr 1
  · apply List.countP_congr
    intro sp _
    cases declares [.internal] sp.source <;> simp
  · apply List.countP_congr
    intro sp hsp
    cases hi : declares [.internal] sp.source with
    | false => simp
    | true =>
      have ha := not_declares_both hc (exists_mem_spans_iff.mp ⟨sp, hsp, rfl⟩) hi
      simp [ha]

/-- **The marker is written once for each declaration that is replaced**: for each that has both
exports if there is one, and else for each of either export.  Counting from left to right without
overlap gives the same number. -/
theorem countPart_marker_fix {path text : List Char} (hfeed : '\n' ∉ path)
    (hpath : ¬ marker <:+: path) (hm : isPatched text = false) :
    countPart marker (fix path text).text =
      (if spans Export.all text = [] then
        (spans [.internal] text).length + (spans [.api] text).length
      else (spans Export.all text).length) ∧
    countApart marker (fix path text).text = countPart marker (fix path text).text := by
  refine ⟨?_, countApart_marker _⟩
  have hblock : ∀ {wanted : List Export} (s b : List Char), wanted ≠ [] →
      blockFor wanted (Export.block wanted path (lineBreakOf text)) s = some b → Marks 1 b := by
    intro wanted s b hne hb
    have h := Marks.block (countPart_eq_zero_iff.mpr hpath) hne (hasPart ['\r', '\n'] text)
    rwa [(blockFor_eq_some_iff.mp hb).2]
  rw [fix_text hm]
  cases hc : occurs Export.all text with
  | true =>
    have hne : spans Export.all text ≠ [] := fun h => by
      rw [spans_eq_nil_iff, hc] at h
      cases h
    have hjoint : ∀ s b, jointBlock path text s = some b → Marks 1 b := fun s b hb =>
      hblock s b (List.cons_ne_nil _ _) hb
    rw [if_neg hne, rebind_of_occurs hc, length_spans, countPart_patchWith hjoint hm]
    simp only [jointBlock, isSome_blockFor]
  | false =>
    have hsingle : ∀ s b, singleBlock path text s = some b → Marks 1 b := by
      intro s b hb
      rw [singleBlock, Option.or_eq_some_iff] at hb
      rcases hb with hb | ⟨-, hb⟩
      · exact hblock s b (List.cons_ne_nil _ _) hb
      · exact hblock s b (List.cons_ne_nil _ _) hb
    rw [if_pos (spans_eq_nil_iff.mpr hc), rebind_of_not_occurs hfeed hc, length_spans_add hc,
      countPart_patchWith hsingle hm]
    simp only [singleBlock, Option.isSome_or, isSome_blockFor]

/-- two declarations of the first export and one of the second -/
def tripleText : List Char :=
  "import \x7binternal\x7d ".toList ++ "from './_generated/api'\n".toList ++
    "import \x7binternal, Doc\x7d ".toList ++ "from '../_generated/api.js'; // Bypass\n".toList ++
    "import \x7bapi\x7d ".toList ++ "from './_generated/api'".toList

/-- a path with both ends of the marker, the wrong way round -/
def crossedPath : List Char := "9 Bypass TS258".toList

theorem countPart_marker_tripleText :
    '\n' ∉ crossedPath ∧ ¬ marker <:+: crossedPath ∧ isPatched tripleText = false ∧
      countPart marker (fix crossedPath tripleText).text = 3 := by
  have hfeed : '\n' ∉ crossedPath := by decide
  have hpath : ¬ marker <:+: crossedPath := by
    rw [← hasPart_iff]
    decide
  have hm : isPatched tripleText = false := by decide +kernel
  have hspans : spans Export.all tripleText = [] ∧
      (spans [.internal] tripleText).length + (spans [.api] tripleText).length = 3 := by
    decide +kernel
  refine ⟨hfeed, hpath, hm, ?_⟩
  rw [(countPart_marker_fix hfeed hpath hm).1, if_pos hspans.1, hspans.2]

end Declaration

end Rebind
