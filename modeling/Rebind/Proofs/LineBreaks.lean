import Rebind.Proofs.Replacement

/-!
# Line breaks of a fixed text

A text has one kind of line break when each of its line feeds stands behind a carriage return, or
none does.  `oneKind` reads that off the text from left to right, with no more to remember than
whether the character before was a carriage return; so a text may be changed piece by piece.

Generated lines take the line break of the text.  A block neither begins with a line feed nor ends
with a carriage return (`Steady`), and a declaration does not end with one either
(`returnAfter_declaration`).  So a line feed behind a block stands there as it stood behind the
declaration, and each pass keeps the kind of line break (`oneKind_replace`).
-/

namespace Rebind

/-! ## texts with one kind of line break -/

/-- each line feed stands behind a carriage return if `crlf`, and none does otherwise;
`behindReturn` says whether one stands before the text -/
def oneKind (crlf : Bool) : (behindReturn : Bool) → List Char → Bool
  | _, [] => true
  | behindReturn, c :: cs => (c != '\n' || behindReturn == crlf) && oneKind crlf (c == '\r') cs

/-- a carriage return stands right before what follows `a`; `behindReturn` says whether one stands
before `a` -/
def returnAfter (behindReturn : Bool) (a : List Char) : Bool :=
  a.foldl (fun _ c => c == '\r') behindReturn

theorem returnAfter_append (behindReturn : Bool) (x y : List Char) :
    returnAfter behindReturn (x ++ y) = returnAfter (returnAfter behindReturn x) y :=
  List.foldl_append

theorem returnAfter_of_getLast? {a : List Char} {c : Char} (h : a.getLast? = some c)
    (behindReturn : Bool) : returnAfter behindReturn a = (c == '\r') := by
  obtain ⟨ys, rfl⟩ := List.getLast?_eq_some_iff.mp h
  rw [returnAfter_append]
  rfl

theorem returnAfter_eq_false {a : List Char} (hne : a ≠ []) (h : a.getLast? ≠ some '\r')
    (behindReturn : Bool) : returnAfter behindReturn a = false := by
  have hl := List.getLast?_eq_some_getLast hne
  rw [hl] at h
  rw [returnAfter_of_getLast? hl]
  simpa using h

theorem returnAfter_iff {a : List Char} : returnAfter false a = true ↔ a.getLast? = some '\r' := by
  cases h : a.getLast? with
  | none =>
    rw [List.getLast?_eq_none_iff.mp h]
    simp [returnAfter]
  | some c => rw [returnAfter_of_getLast? h, beq_iff_eq, Option.some.injEq]

theorem oneKind_append (crlf behindReturn : Bool) (x y : List Char) :
    oneKind crlf behindReturn (x ++ y) =
      (oneKind crlf behindReturn x && oneKind crlf (returnAfter behindReturn x) y) := by
  induction x generalizing behindReturn with
  | nil => rfl
  | cons c x ih =>
    rw [List.cons_append, oneKind, oneKind, ih, Bool.and_assoc]
    rfl

theorem oneKind_iff {crlf behindReturn : Bool} {cs : List Char} :
    oneKind crlf behindReturn cs = true ↔
      ∀ x y, cs = x ++ '\n' :: y → returnAfter behindReturn x = crlf := by
  constructor
  · rintro h x y rfl
    rw [oneKind_append, Bool.and_eq_true, oneKind, Bool.and_eq_true] at h
    simpa using h.2.1
  · intro h
    induction cs generalizing behindReturn with
    | nil => rfl
    | cons c cs ih =>
      rw [oneKind, Bool.and_eq_true]
      refine ⟨?_, ih fun x y hc => h (c :: x) y (congrArg (c :: ·) hc)⟩
      by_cases hc : c = '\n'
      · have hhere : behindReturn = crlf := h [] cs (congrArg (· :: cs) hc)
        rw [hhere, beq_self_eq_true, Bool.or_true]
      · rw [bne_iff_ne.mpr hc, Bool.true_or]

def FeedsFollowReturns (text : List Char) : Prop :=
  ∀ x y, text = x ++ '\n' :: y → x.getLast? = some '\r'

theorem feedsFollowReturns_iff {text : List Char} :
    FeedsFollowReturns text ↔ oneKind true false text = true := by
  simp only [oneKind_iff, returnAfter_iff, FeedsFollowReturns]

theorem hasPart_crlf_eq_false_iff {text : List Char} :
    hasPart ['\r', '\n'] text = false ↔ oneKind false false text = true := by
  rw [← Bool.not_eq_true, hasPart_iff, oneKind_iff]
  constructor
  · rintro h x y rfl
    rw [← Bool.not_eq_true, returnAfter_iff]
    intro hlast
    obtain ⟨x, rfl⟩ := List.getLast?_eq_some_iff.mp hlast
    exact h ⟨x, y, by simp⟩
  · rintro h ⟨x, y, rfl⟩
    have hx := h (x ++ ['\r']) y (by simp)
    rw [returnAfter_append] at hx
    cases hx

/-! ## generated lines -/

def breakOf (crlf : Bool) : List Char := if crlf then ['\r', '\n'] else ['\n']

theorem lineBreakOf_eq (text : List Char) :
    lineBreakOf text = breakOf (hasPart ['\r', '\n'] text) := rfl

/-- the text has one kind of line break wherever it is put, and ends with no carriage return -/
structure Steady (crlf : Bool) (b : List Char) : Prop where
  kind : ∀ behindReturn, oneKind crlf behindReturn b = true
  ends : ∀ behindReturn, returnAfter behindReturn b = false

theorem oneKind_line {l : List Char} (h : '\n' ∉ l) (crlf behindReturn : Bool) :
    oneKind crlf behindReturn l = true := by
  rw [oneKind_iff]
  rintro x y rfl
  exact absurd (List.mem_append_right x List.mem_cons_self) h

namespace Steady
variable {crlf : Bool}

theorem line {l : List Char} (hne : l ≠ []) (hfeed : '\n' ∉ l) (hreturn : '\r' ∉ l) :
    Steady crlf l :=
  ⟨oneKind_line hfeed crlf,
    returnAfter_eq_false hne fun h => hreturn (List.mem_of_getLast? h)⟩

/-- one line under the other -/
theorem join {a b : List Char} (ha : Steady crlf a) (hb : Steady crlf b) :
    Steady crlf (a ++ breakOf crlf ++ b) := by
  have hbreak : oneKind crlf false (breakOf crlf) = true ∧
      returnAfter false (breakOf crlf) = false := by
    cases crlf with
    | true => exact ⟨rfl, rfl⟩
    | false => exact ⟨rfl, rfl⟩
  refine ⟨fun behindReturn => ?_, fun behindReturn => ?_⟩
  · rw [oneKind_append, oneKind_append, returnAfter_append, ha.kind, ha.ends, hbreak.1, hbreak.2,
      hb.kind]
    rfl
  · rw [returnAfter_append, hb.ends]

variable {path : List Char} (hreturn : '\r' ∉ path) (hfeed : '\n' ∉ path)
include hreturn hfeed

theorem bindingLine (e : Export) : Steady crlf (bindingLine e.name path (breakOf crlf)) := by
  have hexception : Steady crlf linterException := by
    have hline : '\n' ∉ linterException ∧ '\r' ∉ linterException := by decide +kernel
    exact .line (List.cons_ne_nil _ _) hline.1 hline.2
  have hbinding : Steady crlf ("const ".toList ++ e.name ++ " = require('".toList ++ path ++
      "').".toList ++ e.name ++ " as any;".toList) := by
    have hname : '\n' ∉ e.name ∧ '\r' ∉ e.name := by cases e <;> decide
    refine .line (by simp) ?_ ?_
    · simp [hname.1, hfeed]
    · simp [hname.2, hreturn]
  have heq : Rebind.bindingLine e.name path (breakOf crlf) =
      linterException ++ breakOf crlf ++ ("const ".toList ++ e.name ++ " = require('".toList ++
        path ++ "').".toList ++ e.name ++ " as any;".toList) := by
    simp only [Rebind.bindingLine, List.append_assoc]
  rw [heq]
  exact hexception.join hbinding

theorem block {exports : List Export} (hne : exports ≠ []) :
    Steady crlf (Export.block exports path (breakOf crlf)) := by
  have hheader : Steady crlf header := by
    have hline : '\n' ∉ header ∧ '\r' ∉ header := by decide +kernel
    exact .line (List.cons_ne_nil _ _) hline.1 hline.2
  refine hheader.join (Declaration.intercalate_of_join (fun a b => join) (by simpa using hne)
    fun l hl => ?_)
  rw [List.map_map] at hl
  obtain ⟨e, -, rfl⟩ := List.mem_map.mp hl
  exact bindingLine hreturn hfeed e

end Steady

/-! ## a pass over the text -/

namespace Declaration

/-- the text of a declaration ends with the rest of its line, in which no carriage return is last -/
theorem returnAfter_declaration {wanted : List Export} {s rest : List Char}
    (h : after? wanted (s ++ rest) = some rest) (behindReturn : Bool) :
    returnAfter behindReturn s = false := by
  obtain ⟨f, -, hs, -⟩ := exists_form_of_append h
  refine returnAfter_eq_false (ne_nil_of_after? h) ?_ behindReturn
  rw [hs, getLast?_text_eq]
  exact f.getLast?_lineText

theorem oneKind_patchFrom {crlf : Bool} {f : List Char → Option (List Char)}
    (hf : ∀ s b, f s = some b → Steady crlf b) (lineStart : Bool) (cs : List Char)
    {behindReturn : Bool} (h : oneKind crlf behindReturn cs = true) :
    oneKind crlf behindReturn (patchFrom f lineStart cs) = true := by
  induction lineStart, cs using cut_induction [] generalizing behindReturn with
  | nil lineStart => rw [patchFrom_nil]; rfl
  | declaration s rest hs ih =>
    rw [oneKind_append, Bool.and_eq_true, returnAfter_declaration hs] at h
    rw [patchFrom_declaration hs, oneKind_append, Bool.and_eq_true]
    cases hb : f s with
    | none =>
      rw [Option.getD_none, returnAfter_declaration hs]
      exact ⟨h.1, ih h.2⟩
    | some b =>
      have hsteady := hf s b hb
      rw [Option.getD_some, hsteady.kind, hsteady.ends]
      exact ⟨rfl, ih h.2⟩
  | kept lineStart c r hk ih =>
    rw [oneKind, Bool.and_eq_true] at h
    rw [patchFrom_kept hk, oneKind, Bool.and_eq_true]
    exact ⟨h.1, ih h.2⟩

theorem oneKind_replace {crlf : Bool} {block text : List Char} (hblock : Steady crlf block)
    (wanted : List Export) (h : oneKind crlf false text = true) :
    oneKind crlf false (replace wanted block text) = true := by
  rw [replace_eq_patchWith]
  refine oneKind_patchFrom (fun s b hb => ?_) true text h
  rwa [(blockFor_eq_some_iff.mp hb).2]

section
variable {path text : List Char} (hreturn : '\r' ∉ path) (hfeed : '\n' ∉ path)
include hreturn hfeed

theorem oneKind_fix {crlf : Bool} (hcrlf : hasPart ['\r', '\n'] text = crlf)
    (h : oneKind crlf false text = true) : oneKind crlf false (fix path text).text = true := by
  have hpass : ∀ wanted t, wanted ≠ [] → oneKind crlf false t = true →
      oneKind crlf false (replace wanted (Export.block wanted path (lineBreakOf text)) t) = true := by
    intro wanted t hne ht
    rw [lineBreakOf_eq, hcrlf]
    exact oneKind_replace (.block hreturn hfeed hne) wanted ht
  have hexport : ∀ e found t, oneKind crlf false t = true →
      oneKind crlf false (rebindExport path (lineBreakOf text) e found t) = true := by
    intro e found t ht
    cases found with
    | false => exact ht
    | true => exact hpass [e] t (List.cons_ne_nil e []) ht
  cases hp : isPatched text with
  | true =>
    rw [fix, if_pos hp]
    exact h
  | false =>
    rw [fix_text hp, rebind]
    split
    · exact hpass Export.all text (List.cons_ne_nil _ _) h
    · exact hexport .api _ _ (hexport .internal _ _ h)

/-- **A fixed text keeps its line breaks.**  Where each line feed of a text stood behind a carriage
return, each still does; where none did, none does. -/
theorem fix_keeps_lineBreaks :
    (hasPart ['\r', '\n'] text = true → FeedsFollowReturns text →
      FeedsFollowReturns (fix path text).text) ∧
    (hasPart ['\r', '\n'] text = false → hasPart ['\r', '\n'] (fix path text).text = false) := by
  constructor
  · intro hcrlf h
    rw [feedsFollowReturns_iff] at h ⊢
    exact oneKind_fix hreturn hfeed hcrlf h
  · intro hcrlf
    have h := hasPart_crlf_eq_false_iff.mp hcrlf
    exact hasPart_crlf_eq_false_iff.mpr (oneKind_fix hreturn hfeed hcrlf h)

end

/-- a declaration over two lines and one at the end of the text, before a carriage return alone -/
def returnText (newline : List Char) : List Char :=
  "import \x7b".toList ++ newline ++ "internal\x7d from './_generated/api'".toList ++ newline ++
    "import \x7bapi\x7d from './_generated/api'\r".toList

theorem fix_keeps_returns :
    hasImport .internal (returnText ['\r', '\n']) = true ∧
      FeedsFollowReturns (fix "../a".toList (returnText ['\r', '\n'])).text ∧
      hasImport .internal (returnText ['\n']) = true ∧
      hasPart ['\r', '\n'] (fix "../a".toList (returnText ['\n'])).text = false := by
  have hreturn : '\r' ∉ "../a".toList := by decide
  have hfeed : '\n' ∉ "../a".toList := by decide
  have hfeeds : FeedsFollowReturns (returnText ['\r', '\n']) :=
    feedsFollowReturns_iff.mpr (by decide)
  refine ⟨by decide +kernel, ?_, by decide +kernel, ?_⟩
  · exact (fix_keeps_lineBreaks hreturn hfeed).1 (by decide) hfeeds
  · exact (fix_keeps_lineBreaks hreturn hfeed).2 (by decide)

end Declaration

end Rebind
