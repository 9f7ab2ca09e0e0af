import Rebind.Proofs.Meaning
import Rebind.Proofs.Replacement

/-!
# What a replacement takes away

A fix is a list of passes, each over the text that the one before has left:

* `passes`, `afterPass`  the exports that each pass looks for, and the text after one pass;
* `removals`             each span that gives way to a block, in the text in which a pass finds it;
* `behind?`, `isRemark`  what a removed statement holds behind its specifier, and whether that is
                         nothing but a remark.

A removal stops where its line stops, so it takes nothing of another line; and it takes all that
stands in its own line behind the specifier, whatever that is (`line_of_removed`).  That may be a
remark, and it may be a statement (`removes_statement`).
-/

namespace Rebind

namespace Declaration

/-! ## what stands behind the specifier -/

/-- what a statement holds behind the string literal of its specifier -/
def behind? (s : List Char) : Option (List Char) := (literal? (fromQuote s)).map Prod.snd

/-- what follows the end of a block remark -/
def afterRemark? : List Char → Option (List Char)
  | [] => none
  | c :: cs => if "*/".toList.isPrefixOf (c :: cs) then some (cs.drop 1) else afterRemark? cs

/-- behind an optional semicolon and blanks there is nothing, or a remark to the end of the line,
or one block remark with only blanks behind it -/
def isRemark (tail : List Char) : Bool :=
  let cs := ((afterLit? [';'] tail).getD tail).dropWhile isBlank
  cs.isEmpty || "//".toList.isPrefixOf cs ||
    ((afterLit? "/*".toList cs).bind afterRemark?).any fun r => r.all isBlank

/-! ## passes -/

/-- the exports that each pass over a text looks for, in the order of the passes -/
def passes (text : List Char) : List (List Export) :=
  if occurs Export.all text then [Export.all]
  else (Export.all.filter fun e => hasImport e text).map fun e => [e]

def afterPass (path newline text : List Char) (wanted : List Export) : List Char :=
  Patch.applyAll
    ((spans wanted text).map fun sp => ⟨sp.start, sp.stop, Export.block wanted path newline⟩) text

/-- a span that gives way to a block, the text in which it stands, and the exports of the pass that
finds it -/
structure Removal where
  text : List Char
  wanted : List Export
  span : Span

/-- the removals of some passes, from the text that they begin with -/
def removalsFrom (path newline : List Char) : List Char → List (List Export) → List Removal
  | _, [] => []
  | text, wanted :: later =>
    (spans wanted text).map (fun sp => ⟨text, wanted, sp⟩) ++
      removalsFrom path newline (afterPass path newline text wanted) later

def removals (path text : List Char) : List Removal :=
  removalsFrom path (lineBreakOf text) text (passes text)

theorem rebind_eq_foldl (path text : List Char) :
    rebind path text = (passes text).foldl (afterPass path (lineBreakOf text)) text := by
  have hpass : ∀ wanted t, replace wanted (Export.block wanted path (lineBreakOf text)) t =
      afterPass path (lineBreakOf text) t wanted := fun wanted t => replace_eq_applyAll wanted _ t
  rw [rebind, passes]
  cases occurs Export.all text with
  | true => exact hpass Export.all text
  | false =>
    simp only [Export.all, List.filter_cons, List.filter_nil, rebindExport, hpass]
    cases hasImport .internal text <;> cases hasImport .api text <;> rfl

theorem mem_spans_of_mem_removalsFrom {path newline : List Char} {ps : List (List Export)}
    {text : List Char} {r : Removal} (h : r ∈ removalsFrom path newline text ps) :
    r.span ∈ spans r.wanted r.text := by
  induction ps generalizing text with
  | nil => cases h
  | cons wanted later ih =>
    rcases List.mem_append.mp h with h | h
    · obtain ⟨sp, hsp, rfl⟩ := List.mem_map.mp h
      exact hsp
    · exact ih h

/-! ## the line of a form -/

namespace Form

/-- the parts up to the fixed end of the specifier -/
def beforeEnding (f : Form) : List Char :=
  openingText f.gap f.qualifier ++ f.body ++ '}' :: f.beforeFrom ++ "from".toList ++ f.afterFrom ++
    f.openQuote :: '.' :: f.way

theorem text_eq_beforeEnding (f : Form) :
    f.text = f.beforeEnding ++ endingText f.hasExtension ++ f.closeQuote :: f.rest := by
  simp only [text, sourceText, lineText, beforeEnding, List.append_assoc, List.cons_append]

/-- the rest of the line may be any other -/
theorem declares_rest {wanted : List Export} {f : Form} (hf : f.Names wanted) {rest : List Char}
    (hfeed : '\n' ∉ rest) (hreturn : '\r' ∉ rest) :
    declares wanted (f.beforeEnding ++ endingText f.hasExtension ++ f.closeQuote :: rest) = true := by
  let g : Form := { f with rest, rest_line := hfeed, rest_noReturn := hreturn }
  have hg : g.Names wanted := hf
  have ht : g.text = f.beforeEnding ++ endingText f.hasExtension ++ f.closeQuote :: rest :=
    g.text_eq_beforeEnding
  have hread : after? wanted (g.text ++ []) = some [] := after?_text g hg (.inl (.inl rfl))
  rw [declares, ← ht, beq_iff_eq, ← hread, List.append_nil]

end Form

theorem fromQuote_suffix (s : List Char) : fromQuote s <:+ s :=
  ((List.dropWhile_suffix _).trans (List.dropWhile_suffix _)).trans (List.dropWhile_suffix _)

theorem suffix_of_literal? {cs lit tail : List Char} (h : literal? cs = some (lit, tail)) :
    tail <:+ cs := by
  obtain ⟨q, -, -, rfl⟩ := literal?_eq_some_iff.mp h
  exact ⟨q :: (lit ++ [q]), by simp⟩

theorem not_mem_fromQuote_text (f : Form) : '\n' ∉ fromQuote f.text := by
  rw [fromQuote_text, List.mem_cons, not_or]
  refine ⟨fun h => ?_, f.lineText_line⟩
  have hq := f.openQuote_isQuote
  rw [← h] at hq
  exact absurd hq (by decide)

/-! ## what is removed -/

/-- **A removal takes its line to the end, whatever stands there.**  The fixed text is got by
passes, and each puts its blocks in the place of the spans that it finds.  Each span is a
declaration that begins with a line and stops where its line stops.  What it holds behind the
specifier has no line break, and with any other text without line breaks in that place it is a
declaration just as well; that text is what stands behind the string literal if the line holds no
other quotes.  Else what stands behind the literal is still a part of the same line. -/
theorem line_of_removed {path text : List Char} (hm : isPatched text = false) :
    (fix path text).text = (passes text).foldl (afterPass path (lineBreakOf text)) text ∧
    ∀ r ∈ removals path text,
      Stands r.wanted r.text r.span.start r.span.stop ∧
      (∃ head x q tail, r.span.source = head ++ endingText x ++ q :: tail ∧ isQuote q = true ∧
        '\n' ∉ tail ∧ '\r' ∉ tail ∧
        (∀ q', (fromQuote r.span.source).filter isQuote = [q', q'] →
          behind? r.span.source = some tail) ∧
        ∀ other, '\n' ∉ other → '\r' ∉ other →
          declares r.wanted (head ++ endingText x ++ q :: other) = true) ∧
      ∀ tail ∈ behind? r.span.source, tail <:+ r.span.source ∧ '\n' ∉ tail := by
  refine ⟨by rw [fix_text hm, rebind_eq_foldl], fun r hr => ?_⟩
  have hmem := mem_spans_of_mem_removalsFrom hr
  obtain ⟨f, hf, hs⟩ := exists_form_of_mem_spans hmem
  refine ⟨stands_of_mem_spans hmem, ?_, fun tail ht => ?_⟩
  · refine ⟨f.beforeEnding, f.hasExtension, f.closeQuote, f.rest, hs.trans f.text_eq_beforeEnding,
      f.closeQuote_isQuote, f.rest_line, f.rest_noReturn, fun q hq => ?_,
      fun other => Form.declares_rest hf⟩
    rw [hs, fromQuote_text] at hq
    rw [behind?, hs, fromQuote_text, literal?_lineText f hq]
    rfl
  · obtain ⟨⟨lit, tail'⟩, hl, rfl⟩ := Option.map_eq_some_iff.mp ht
    have hsuffix := suffix_of_literal? hl
    refine ⟨hsuffix.trans (fromQuote_suffix _), fun hfeed => ?_⟩
    have hline := not_mem_fromQuote_text f
    rw [← hs] at hline
    exact hline (hsuffix.subset hfeed)

/-- a remark behind each specifier -/
def remarksText : List Char :=
  "import \x7binternal\x7d ".toList ++ "from './_generated/api' /* it's v2 */\n".toList ++
    "import \x7bapi\x7d ".toList ++ "from './_generated/api'; // v2".toList

theorem line_of_removed_remarksText :
    isPatched remarksText = false ∧
    ∃ r ∈ removals [] remarksText, Stands [.api] r.text r.span.start r.span.stop ∧
      ∃ tail ∈ behind? r.span.source, isRemark tail = true ∧ tail <:+ r.span.source := by
  have hm : isPatched remarksText = false := by decide +kernel
  have hr : ∃ r ∈ removals [] remarksText, r.wanted = [.api] ∧
      behind? r.span.source = some "; // v2".toList := by decide +kernel
  obtain ⟨r, hr, hw, hb⟩ := hr
  obtain ⟨-, hremoved⟩ := @line_of_removed [] remarksText hm
  obtain ⟨hstands, -, hline⟩ := hremoved r hr
  rw [hw] at hstands
  exact ⟨hm, r, hr, hstands, _, hb, by decide +kernel, (hline _ hb).1⟩

/-- a statement behind the specifier -/
def statementText : List Char :=
  "import \x7binternal\x7d ".toList ++ "from \"../_generated/api\"; const x = 1;\n".toList

/-- the statement that shares the line of a declaration is gone -/
theorem removes_statement :
    isPatched statementText = false ∧ "const x".toList <:+: statementText ∧
    ¬ "const x".toList <:+: (fix "../_generated/api.js".toList statementText).text ∧
    (∃ r ∈ removals "../_generated/api.js".toList statementText,
      behind? r.span.source = some "; const x = 1;".toList ∧
        isRemark "; const x = 1;".toList = false) ∧
    ¬ ∀ path text, isPatched text = false → ∀ r ∈ removals path text,
      ∀ tail ∈ behind? r.span.source, isRemark tail = true := by
  have hm : isPatched statementText = false := by decide +kernel
  have hr : ∃ r ∈ removals "../_generated/api.js".toList statementText,
      behind? r.span.source = some "; const x = 1;".toList ∧
        isRemark "; const x = 1;".toList = false := by decide +kernel
  refine ⟨hm, ?_, ?_, hr, fun hall => ?_⟩
  · rw [← hasPart_iff]
    decide +kernel
  · rw [← hasPart_iff]
    decide +kernel
  · obtain ⟨r, hr, hb, hn⟩ := hr
    rw [hall _ _ hm r hr _ hb] at hn
    cases hn

end Declaration

end Rebind
