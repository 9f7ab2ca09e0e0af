import Mathlib.Data.List.DropRight
import Rebind.Proofs.Spans

/-!
# Declarations read as statements

A declaration is found by its grammar: an export is a word between the braces, and the specifier
runs up to some quote of its line.  Here the same text is read as the statement that it is:

* `elements`, `boundName`   what stands between the braces, cut at the commas, and the name that an
                            element binds;
* `fromQuote`, `literal?`   the string literal behind `from`, and what follows it;
* `fromGenerated`, `binds`  the literal leads to the generated module, and an element binds the
                            export under its own name.

The two readings agree if the line holds one string literal and each element is a plain name
(`statement_of_mem_spans`).  They part where the rest of the line names the generated module in
quotes, and where an element is renamed or has a name that goes on with no word character
(`misread`).
-/

namespace Rebind

/-! ## whole words in parts of a text -/

namespace WholeWord
variable {name : List Char}

/-- a character that a name does not hold cuts the text in two -/
theorem split (hne : name ≠ []) {a b : List Char} {d : Char} (hd : d ∉ name)
    (h : WholeWord name (a ++ d :: b)) : WholeWord name a ∨ WholeWord name b := by
  obtain ⟨x, y, e, hx, hy⟩ := h
  rcases List.append_eq_append_iff.mp e with ⟨t, rfl, e₁⟩ | ⟨t, rfl, e₁⟩
  · right
    cases t with
    | nil =>
      obtain ⟨c, n, rfl⟩ := List.exists_cons_of_ne_nil hne
      obtain ⟨rfl, -⟩ := List.cons.inj e₁
      exact absurd List.mem_cons_self hd
    | cons c t =>
      obtain ⟨-, rfl⟩ := List.cons.inj e₁
      refine ⟨t, y, rfl, fun c' hc => hx c' ?_, hy⟩
      rw [Option.mem_def] at hc ⊢
      obtain ⟨ys, rfl⟩ := List.getLast?_eq_some_iff.mp hc
      rw [← List.cons_append, ← List.append_assoc, List.getLast?_concat]
  · left
    rcases List.append_eq_append_iff.mp e₁ with ⟨u, rfl, rfl⟩ | ⟨u, rfl, e₂⟩
    · refine ⟨x, u, rfl, hx, fun c hc => hy c ?_⟩
      rw [Option.mem_def] at hc ⊢
      rw [List.head?_append, hc]
      rfl
    · cases u with
      | nil => exact ⟨x, [], by rw [List.append_nil, List.append_nil], hx, by simp⟩
      | cons c u =>
        obtain ⟨rfl, -⟩ := List.cons.inj e₂
        exact absurd (List.mem_append_right t List.mem_cons_self) hd

theorem exists_mem (hne : name ≠ []) {w : List Char} (h : WholeWord name w) :
    ∃ c ∈ w, c ∈ name := by
  obtain ⟨a, b, rfl, -, -⟩ := h
  obtain ⟨c, n, rfl⟩ := List.exists_cons_of_ne_nil hne
  exact ⟨c, by simp, List.mem_cons_self⟩

/-- a word does not stand among characters that it does not hold -/
theorem of_surrounded (hne : name ≠ []) {l t r : List Char} (hl : ∀ c ∈ l, c ∉ name)
    (hr : ∀ c ∈ r, c ∉ name) (h : WholeWord name (l ++ (t ++ r))) : WholeWord name t := by
  have htr : WholeWord name (t ++ r) := by
    induction l with
    | nil => exact h
    | cons d l ih =>
      obtain ⟨hd, hl⟩ := List.forall_mem_cons.mp hl
      rcases split hne (a := []) hd h with hnil | hrest
      · obtain ⟨c, hc, -⟩ := hnil.exists_mem hne
        cases hc
      · exact ih hl hrest
  cases r with
  | nil => rwa [List.append_nil] at htr
  | cons d r =>
    rcases split hne (hr d List.mem_cons_self) htr with ht | hrest
    · exact ht
    · obtain ⟨c, hc, hcn⟩ := hrest.exists_mem hne
      exact absurd hcn (hr c (List.mem_cons_of_mem d hc))

/-- a text of word characters holds no whole word but itself -/
theorem eq_of_all_isWord {w : List Char} (h : WholeWord name w) (hw : w.all isWord = true) :
    w = name := by
  rw [List.all_eq_true] at hw
  obtain ⟨a, b, rfl, ha, hb⟩ := h
  have ha' : a = [] := by
    rw [← List.getLast?_eq_none_iff, Option.eq_none_iff_forall_ne_some]
    intro c hc
    have hword := hw c (List.mem_append_left _ (List.mem_of_getLast? hc))
    rw [ha c hc] at hword
    cases hword
  have hb' : b = [] := by
    cases b with
    | nil => rfl
    | cons c b =>
      have hword := hw c (by simp)
      rw [hb c rfl] at hword
      cases hword
  rw [ha', hb', List.append_nil, List.nil_append]

theorem exists_of_intercalate (hne : name ≠ []) {d : Char} (hd : d ∉ name) {ls : List (List Char)}
    (h : WholeWord name ([d].intercalate ls)) : ∃ l ∈ ls, WholeWord name l := by
  induction ls with
  | nil =>
    obtain ⟨c, hc, -⟩ := h.exists_mem hne
    cases hc
  | cons l ls ih =>
    cases ls with
    | nil => exact ⟨l, List.mem_cons_self, by rwa [List.intercalate_singleton] at h⟩
    | cons m ls =>
      rw [List.intercalate_cons_cons, List.append_assoc] at h
      rcases split hne hd h with hl | hls
      · exact ⟨l, List.mem_cons_self, hl⟩
      · obtain ⟨k, hk, hw⟩ := ih hls
        exact ⟨k, List.mem_cons_of_mem l hk, hw⟩

end WholeWord

namespace Declaration

/-! ## the parts of the statement -/

def inBraces (s : List Char) : List Char :=
  ((s.dropWhile (· != '{')).drop 1).takeWhile (· != '}')

/-- the statement from the quote on that opens its specifier -/
def fromQuote (s : List Char) : List Char :=
  ((s.dropWhile (· != '{')).dropWhile (· != '}')).dropWhile (!isQuote ·)

def elements (s : List Char) : List (List Char) := (inBraces s).splitOn ','

def trimmed (s : List Char) : List Char := (s.dropWhile isBlank).rdropWhile isBlank

/-- an element without the blanks at its ends and without `type` in front -/
def boundName (element : List Char) : List Char :=
  (afterLit? "type ".toList (trimmed element)).getD (trimmed element)

/-- the string literal at the head of a text, without its quotes, and what follows it; it ends at
the next quote of the kind that opens it -/
def literal? : List Char → Option (List Char × List Char)
  | [] => none
  | q :: cs =>
    if isQuote q && cs.contains q then some (cs.takeWhile (· != q), (cs.dropWhile (· != q)).drop 1)
    else none

/-- a relative path to the generated module -/
def isGenerated (specifier : List Char) : Bool :=
  specifier.head? == some '.' &&
    ("/_generated/api".toList.isSuffixOf specifier || "/_generated/api.js".toList.isSuffixOf specifier)

/-- the statement imports from the generated module -/
def fromGenerated (s : List Char) : Bool := (literal? (fromQuote s)).any fun l => isGenerated l.1

/-- an element of the statement binds the export under its own name -/
def binds (e : Export) (s : List Char) : Bool := (elements s).any fun el => boundName el == e.name

/-! ## the parts of a form -/

theorem dropWhile_text (f : Form) :
    f.text.dropWhile (· != '{') = '{' :: (f.body ++ f.sourceText) := by
  obtain ⟨w, hw, he⟩ := afterOpening?_eq_append
    (afterOpening?_openingText f.gap_blanks f.qualifier_blanks (f.body ++ f.sourceText))
  have hpos : ∀ c ∈ w, (c != '{') = true := fun c hc => by simpa using hw c hc
  rw [Form.text, List.append_assoc, he, List.dropWhile_append_of_pos hpos,
    List.dropWhile_cons_of_neg (by simp)]

theorem inBraces_text (f : Form) : inBraces f.text = f.body := by
  rw [inBraces, dropWhile_text]
  exact (takeWhile_body f.body_open).1

theorem fromQuote_text (f : Form) : fromQuote f.text = f.openQuote :: f.lineText := by
  have hafter : ('{' :: (f.body ++ f.sourceText)).dropWhile (· != '}') = f.sourceText := by
    rw [List.dropWhile_cons_of_pos (by decide)]
    exact (takeWhile_body f.body_open).2
  have hblanks : ∀ {w : List Char}, Blanks w → ∀ c ∈ w, isQuote c = false :=
    fun hw c hc => isQuote_of_isBlank (hw.2 c hc)
  have hbrace : isQuote '}' = false := by decide
  have hfrom : ∀ c ∈ "from".toList, isQuote c = false := isQuote_of_all (by decide)
  have hwords : ∀ c ∈ '}' :: f.beforeFrom ++ "from".toList ++ f.afterFrom, (!isQuote c) = true := by
    intro c hc
    rw [Bool.not_eq_true']
    rcases List.mem_append.mp hc with hc | hc
    · rcases List.mem_append.mp hc with hc | hc
      · rcases List.mem_cons.mp hc with rfl | hc
        · exact hbrace
        · exact hblanks f.beforeFrom_blanks c hc
      · exact hfrom c hc
    · exact hblanks f.afterFrom_blanks c hc
  rw [fromQuote, dropWhile_text, hafter, Form.sourceText, List.dropWhile_append_of_pos hwords,
    List.dropWhile_cons_of_neg (by simp [f.openQuote_isQuote])]

theorem exists_form_of_mem_spans {wanted : List Export} {text : List Char} {sp : Span}
    (h : sp ∈ spans wanted text) : ∃ f : Form, f.Names wanted ∧ sp.source = f.text := by
  obtain ⟨f, hf, ht⟩ := (stands_of_mem_spans h).form
  exact ⟨f, hf, (slice_of_mem_spans h).symm.trans ht⟩

/-! ## the specifier -/

theorem literal?_eq_some_iff {cs lit rest : List Char} :
    literal? cs = some (lit, rest) ↔
      ∃ q, isQuote q = true ∧ q ∉ lit ∧ cs = q :: (lit ++ q :: rest) := by
  constructor
  · intro h
    cases cs with
    | nil => cases h
    | cons q cs =>
      rw [literal?] at h
      split at h
      · next hq =>
        rw [Bool.and_eq_true, List.contains_iff_mem] at hq
        obtain ⟨rfl, rfl⟩ := Prod.mk.inj (Option.some.inj h)
        refine ⟨q, hq.1, not_mem_takeWhile q cs, ?_⟩
        obtain ⟨a, b, rfl, ha⟩ := List.eq_append_cons_of_mem hq.2
        rw [List.takeWhile_append_of_pos (ne_of_not_mem ha),
          List.dropWhile_append_of_pos (ne_of_not_mem ha), List.takeWhile_cons_of_neg (by simp),
          List.dropWhile_cons_of_neg (by simp), List.append_nil]
        rfl
      · cases h
  · rintro ⟨q, hq, hlit, rfl⟩
    rw [literal?, if_pos (by simp [hq]), List.takeWhile_append_of_pos (ne_of_not_mem hlit),
      List.dropWhile_append_of_pos (ne_of_not_mem hlit), List.takeWhile_cons_of_neg (by simp),
      List.dropWhile_cons_of_neg (by simp), List.append_nil]
    rfl

theorem isGenerated_way (way : List Char) (x : Bool) :
    isGenerated ('.' :: way ++ endingText x) = true := by
  have hshort : endingText false = "/_generated/api".toList := List.append_nil _
  have hlong : endingText true = "/_generated/api.js".toList := by decide
  rw [isGenerated, Bool.and_eq_true, Bool.or_eq_true, List.isSuffixOf_iff_suffix,
    List.isSuffixOf_iff_suffix, ← hshort, ← hlong]
  refine ⟨rfl, ?_⟩
  cases x with
  | false => exact .inl (List.suffix_append _ _)
  | true => exact .inr (List.suffix_append _ _)

/-- a line with no quotes but those of one literal is read in one way -/
theorem literal?_lineText (f : Form) {q : Char}
    (h : (f.openQuote :: f.lineText).filter isQuote = [q, q]) :
    literal? (f.openQuote :: f.lineText) =
      some ('.' :: f.way ++ endingText f.hasExtension, f.rest) := by
  have hdot : isQuote '.' = false := by decide
  have hending : (endingText f.hasExtension).filter isQuote = [] := by
    cases f.hasExtension with
    | false => decide
    | true => decide
  have hline : f.openQuote :: (f.way.filter isQuote ++ f.closeQuote :: f.rest.filter isQuote) =
      [q, q] := by
    rw [← h, Form.lineText]
    simp [f.openQuote_isQuote, f.closeQuote_isQuote, hdot, hending]
  obtain ⟨hopen, hrest⟩ := List.cons.inj hline
  obtain ⟨hway, hclose⟩ : f.way.filter isQuote = [] ∧ f.closeQuote = q := by
    cases hw : f.way.filter isQuote with
    | nil =>
      rw [hw] at hrest
      exact ⟨rfl, (List.cons.inj hrest).1⟩
    | cons c w =>
      rw [hw] at hrest
      have hnil := (List.cons.inj hrest).2
      simp at hnil
  have hq : q ∉ '.' :: f.way ++ endingText f.hasExtension := by
    intro hm
    have hmem : q ∈ ('.' :: f.way ++ endingText f.hasExtension).filter isQuote :=
      List.mem_filter.mpr ⟨hm, hopen ▸ f.openQuote_isQuote⟩
    simp [hdot, hway, hending] at hmem
  rw [literal?_eq_some_iff]
  exact ⟨q, hopen ▸ f.openQuote_isQuote, hq, by rw [hopen, Form.lineText, hclose]⟩

/-! ## the elements -/

theorem exists_trimmed (s : List Char) :
    ∃ l r, (∀ c ∈ l, isBlank c = true) ∧ (∀ c ∈ r, isBlank c = true) ∧ s = l ++ (trimmed s ++ r) := by
  refine ⟨s.takeWhile isBlank, (s.dropWhile isBlank).rtakeWhile isBlank, ?_, ?_, ?_⟩
  · exact fun c hc => List.mem_takeWhile_imp hc
  · exact fun c hc => List.mem_rtakeWhile_imp hc
  · rw [trimmed, List.rdropWhile_append_rtakeWhile, List.takeWhile_append_dropWhile]

theorem boundName_eq_of_wholeWord {e : Export} {el : List Char} (h : WholeWord e.name el)
    (hw : (boundName el).all isWord = true) : boundName el = e.name := by
  have hne := e.name_ne_nil
  have hblank : ∀ c, isBlank c = true → c ∉ e.name := by
    intro c hc hm
    have hletters : e.name.all (!isBlank ·) = true := by cases e <;> decide
    have hno := List.all_eq_true.mp hletters c hm
    rw [hc] at hno
    cases hno
  obtain ⟨l, r, hl, hr, he⟩ := exists_trimmed el
  rw [he] at h
  have ht := h.of_surrounded hne (fun c hc => hblank c (hl c hc)) fun c hc => hblank c (hr c hc)
  rw [boundName] at hw ⊢
  cases hb : afterLit? "type ".toList (trimmed el) with
  | none =>
    rw [hb] at hw
    exact ht.eq_of_all_isWord hw
  | some w =>
    rw [hb] at hw
    have hspace : "type ".toList ++ w = "type".toList ++ ' ' :: w := rfl
    rw [afterLit?_eq_some_iff.mp hb, hspace] at ht
    rcases ht.split hne (hblank ' ' (by decide)) with htype | hword
    · have heq := htype.eq_of_all_isWord (by decide)
      cases e with
      | internal => exact absurd heq (by decide)
      | api => exact absurd heq (by decide)
    · exact hword.eq_of_all_isWord hw

/-! ## detection and the statement -/

/-- **What is detected, as a statement.**  The export is a word between the braces of a detected
declaration, and behind its `from` a quote, a dot and later in the same line the end of the
generated module's path and a quote follow.  If the line holds no other quotes, the specifier leads
to the generated module; and if each element is a plain name, one of them binds the export. -/
theorem statement_of_mem_spans {e : Export} {text : List Char} {sp : Span}
    (h : sp ∈ spans [e] text) :
    WholeWord e.name (inBraces sp.source) ∧
    (∃ q way x q' rest, isQuote q = true ∧ isQuote q' = true ∧ '\n' ∉ way ++ rest ∧
      fromQuote sp.source = q :: ('.' :: way ++ endingText x ++ q' :: rest)) ∧
    (∀ q, (fromQuote sp.source).filter isQuote = [q, q] → fromGenerated sp.source = true) ∧
    ((∀ el ∈ elements sp.source, (boundName el).all isWord = true) →
      binds e sp.source = true) := by
  obtain ⟨f, hf, hs⟩ := exists_form_of_mem_spans h
  have hname : WholeWord e.name f.body := hf e (List.mem_singleton_self e)
  rw [fromGenerated, binds, elements, hs, inBraces_text, fromQuote_text]
  refine ⟨hname, ?_, ?_, ?_⟩
  · refine ⟨f.openQuote, f.way, f.hasExtension, f.closeQuote, f.rest, f.openQuote_isQuote,
      f.closeQuote_isQuote, ?_, rfl⟩
    rw [List.mem_append, not_or]
    exact ⟨f.way_line, f.rest_line⟩
  · intro q hq
    rw [literal?_lineText f hq]
    exact isGenerated_way f.way f.hasExtension
  · intro hplain
    have hcomma : ',' ∉ e.name := by cases e <;> decide
    have hjoin : [','].intercalate (f.body.splitOn ',') = f.body := List.intercalate_splitOn ','
    rw [← hjoin] at hname
    obtain ⟨el, hel, hword⟩ := hname.exists_of_intercalate e.name_ne_nil hcomma
    rw [List.any_eq_true]
    exact ⟨el, hel, by rw [beq_iff_eq, boundName_eq_of_wholeWord hword (hplain el hel)]⟩

/-- one literal in its line, and plain names -/
def plainText : List Char :=
  "import \x7b type Doc,\ninternal, \x7d ".toList ++ "from '../../_generated/api.js' // v2".toList

theorem statement_of_plainText :
    ⟨0, plainText.length, plainText⟩ ∈ spans [.internal] plainText ∧
      fromGenerated plainText = true ∧ binds .internal plainText = true := by
  have hsp : ⟨0, plainText.length, plainText⟩ ∈ spans [.internal] plainText := by decide +kernel
  obtain ⟨-, -, hgenerated, hbinds⟩ := statement_of_mem_spans hsp
  exact ⟨hsp, hgenerated '\'' (by decide +kernel), hbinds (by decide +kernel)⟩

/-- a declaration of another module, with a remark behind it -/
def remarkText : List Char :=
  "import \x7binternal\x7d ".toList ++
    "from \"../_generated/server\"; // not \"../_generated/api\"".toList

/-- a declaration of other names -/
def renamedText : List Char :=
  "import \x7binternal as fn, $api\x7d ".toList ++ "from \"../_generated/api\";".toList

/-- a declaration of another module is detected, and so is one that binds neither export -/
theorem misread :
    (∃ sp ∈ spans [.internal] remarkText,
      (literal? (fromQuote sp.source)).map Prod.fst = some "../_generated/server".toList ∧
        fromGenerated sp.source = false) ∧
    (∃ sp ∈ spans [.internal] renamedText, binds .internal sp.source = false) ∧
    (∃ sp ∈ spans [.api] renamedText, binds .api sp.source = false) ∧
    ¬ ∀ e text, ∀ sp ∈ spans [e] text, fromGenerated sp.source = true ∧ binds e sp.source = true := by
  have hremark : ∃ sp ∈ spans [.internal] remarkText,
      (literal? (fromQuote sp.source)).map Prod.fst = some "../_generated/server".toList ∧
        fromGenerated sp.source = false := by
    decide +kernel
  refine ⟨hremark, by decide +kernel, by decide +kernel, fun hall => ?_⟩
  obtain ⟨sp, hsp, -, hother⟩ := hremark
  rw [(hall .internal remarkText sp hsp).1] at hother
  cases hother

end Declaration

end Rebind
