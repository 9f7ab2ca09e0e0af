import Mathlib.Data.List.Basic
import Rebind.Declaration.Pieces

/-!
# The grammar of declarations

`Declaration.after?` reads a declaration piece by piece and takes nothing back.  Here the same
declarations are described without reading:

* `Form`       the parts of a declaration, each with what is asked of it;
* `Form.text`  the parts put together;
* `LineStops`  what may follow a declaration: the end of the text or of a line;
* `WholeWord`  a name with no word character beside it.

The reader finds exactly the forms (`after?_eq_some_iff`).  Both directions go piece by piece:
a literal is what it is, a run of blanks ends where the next literal begins, the body ends at the
first closing brace, and the specifier and all that follows it lie in one line (`firstLine_eq`).
-/

namespace Rebind

/-! ## whole words -/

/-- `name` stands in `body`, and no word character stands right before or right after it -/
def WholeWord (name body : List Char) : Prop :=
  ∃ a b, body = a ++ (name ++ b) ∧ (∀ c ∈ a.getLast?, isWord c = false) ∧
    ∀ c ∈ b.head?, isWord c = false

theorem wordStops_iff {cs : List Char} :
    wordStops cs = true ↔ ∀ c ∈ cs.head?, isWord c = false := by
  cases cs with
  | nil => simp
  | cons c cs => simp

theorem hasWordFrom_iff {name : List Char} (hn : name ≠ []) (free : Bool) (cs : List Char) :
    hasWordFrom name free cs = true ↔
      ∃ a b, cs = a ++ (name ++ b) ∧ (a = [] → free = true) ∧
        (∀ c ∈ a.getLast?, isWord c = false) ∧ ∀ c ∈ b.head?, isWord c = false := by
  induction cs generalizing free with
  | nil =>
    simp only [hasWordFrom_nil, Bool.false_eq_true, false_iff]
    intro hx
    obtain ⟨a, b, h, -⟩ := hx
    have h' := (List.append_eq_nil_iff.mp (List.append_eq_nil_iff.mp h.symm).2).1
    exact hn h'
  | cons d cs ih =>
    rw [hasWordFrom, Bool.or_eq_true, Bool.and_eq_true, Bool.and_eq_true, ih,
      List.isPrefixOf_iff_prefix, wordStops_iff]
    refine ⟨?_, ?_⟩
    · intro hx
      rcases hx with ⟨⟨hf, b, hb⟩, hs⟩ | ⟨a, b, hc, hf, ha, hb⟩
      · rw [← hb, List.drop_left] at hs
        exact ⟨[], b, hb.symm, fun _ => hf, by simp, hs⟩
      · refine ⟨d :: a, b, by rw [hc]; rfl, by simp, ?_, hb⟩
        intro c hm
        cases a with
        | nil =>
          have hd : c = d := by simpa using hm.symm
          have hw := hf rfl
          rw [hd]
          simpa using hw
        | cons x a => exact ha c (by simpa [List.getLast?_cons_cons] using hm)
    · intro hx
      obtain ⟨a, b, hc, hf, ha, hb⟩ := hx
      cases a with
      | nil =>
        left
        have hc' : d :: cs = name ++ b := hc
        refine ⟨⟨hf rfl, ⟨b, hc'.symm⟩⟩, ?_⟩
        rw [hc', List.drop_left]
        exact hb
      | cons x a =>
        right
        obtain ⟨rfl, hc'⟩ := List.cons.inj hc
        refine ⟨a, b, hc', ?_, ?_, hb⟩
        · intro h
          subst h
          have := ha d (by simp)
          simpa using this
        · intro c hm
          cases a with
          | nil => simp at hm
          | cons y a => exact ha c (by simpa [List.getLast?_cons_cons] using hm)

theorem hasWord_iff {name : List Char} (hn : name ≠ []) (cs : List Char) :
    hasWord name cs = true ↔ WholeWord name cs := by
  rw [hasWord, hasWordFrom_iff hn]
  refine ⟨?_, ?_⟩
  · intro hx
    obtain ⟨a, b, h, -, ha, hb⟩ := hx
    exact ⟨a, b, h, ha, hb⟩
  · intro hx
    obtain ⟨a, b, h, ha, hb⟩ := hx
    exact ⟨a, b, h, fun _ => rfl, ha, hb⟩

/-- a whole word stays one in a longer text if the text before it ends in no word character -/
theorem WholeWord.append_left {name cs : List Char} (h : WholeWord name cs) (a : List Char)
    {d : Char} (hd : isWord d = false) : WholeWord name (a ++ d :: cs) := by
  obtain ⟨x, b, rfl, hx, hb⟩ := h
  refine ⟨a ++ d :: x, b, by simp, ?_, hb⟩
  intro c hm
  cases x with
  | nil =>
    have hc : d = c := by simpa using hm
    rw [← hc]
    exact hd
  | cons y x => exact hx c (by simpa [List.getLast?_append, List.getLast?_cons_cons] using hm)

theorem Export.name_ne_nil (e : Export) : e.name ≠ [] := by
  cases e with
  | internal => decide
  | api => decide

namespace Declaration

/-! ## the parts of a declaration -/

/-- one or more blanks -/
def Blanks (w : List Char) : Prop := w ≠ [] ∧ ∀ c ∈ w, isBlank c = true

/-- the end of the text, or a line feed -/
def AtLineFeed (r : List Char) : Prop := r = [] ∨ r.head? = some '\n'

/-- the end of the text or of a line, with or without a carriage return in front -/
def LineStops (r : List Char) : Prop := AtLineFeed r ∨ ∃ t, r = '\r' :: t ∧ AtLineFeed t

/-- the parts of a declaration, in the order in which they stand -/
structure Form where
  gap : List Char
  qualifier : Option (List Char)
  body : List Char
  beforeFrom : List Char
  afterFrom : List Char
  openQuote : Char
  way : List Char
  hasExtension : Bool
  closeQuote : Char
  rest : List Char
  gap_blanks : Blanks gap
  qualifier_blanks : ∀ w ∈ qualifier, Blanks w
  body_open : '}' ∉ body
  beforeFrom_blanks : Blanks beforeFrom
  afterFrom_blanks : Blanks afterFrom
  openQuote_isQuote : isQuote openQuote = true
  way_line : '\n' ∉ way
  closeQuote_isQuote : isQuote closeQuote = true
  rest_line : '\n' ∉ rest
  rest_noReturn : '\r' ∉ rest

/-- the words in front of the body; `type` stands there with the blanks after it, or not at all -/
def openingText (gap : List Char) (qualifier : Option (List Char)) : List Char :=
  "import".toList ++ gap ++ qualifier.elim [] ("type".toList ++ ·) ++ ['{']

def endingText (hasExtension : Bool) : List Char :=
  "/_generated/api".toList ++ if hasExtension then ".js".toList else []

namespace Form

/-- the specifier from its dot on, the closing quote and the rest of the line -/
def lineText (f : Form) : List Char :=
  '.' :: f.way ++ endingText f.hasExtension ++ f.closeQuote :: f.rest

def sourceText (f : Form) : List Char :=
  '}' :: f.beforeFrom ++ "from".toList ++ f.afterFrom ++ f.openQuote :: f.lineText

def text (f : Form) : List Char := openingText f.gap f.qualifier ++ f.body ++ f.sourceText

/-- each of `wanted` stands in the body as a whole word -/
def Names (f : Form) (wanted : List Export) : Prop := ∀ e ∈ wanted, WholeWord e.name f.body

end Form

/-! ## the opening -/

theorem afterBlanks?_append {w r : List Char} (hw : Blanks w)
    (hr : ∀ c ∈ r.head?, isBlank c = false) : afterBlanks? (w ++ r) = some r := by
  obtain ⟨hne, hb⟩ := hw
  have hd : r.dropWhile isBlank = r := by
    cases r with
    | nil => rfl
    | cons c r => rw [List.dropWhile_cons_of_neg (by simp [hr c (by simp)])]
  cases w with
  | nil => exact absurd rfl hne
  | cons c w =>
    rw [List.cons_append, afterBlanks?_cons, if_pos (hb c (by simp)),
      List.dropWhile_append_of_pos (fun d hm => hb d (by simp [hm])), hd]

theorem exists_blanks {cs r : List Char} (h : afterBlanks? cs = some r) :
    ∃ w, Blanks w ∧ cs = w ++ r := by
  obtain ⟨w, hw, rfl⟩ := afterBlanks?_eq_append h
  refine ⟨w, ⟨?_, hw⟩, rfl⟩
  rintro rfl
  cases r with
  | nil => simp at h
  | cons c r =>
    rw [List.nil_append, afterBlanks?_cons] at h
    split at h
    · have hl := congrArg List.length (Option.some.inj h)
      have hle := (List.dropWhile_sublist (l := r) isBlank).length_le
      rw [List.length_cons] at hl
      omega
    · cases h

theorem openingText_none (gap r : List Char) :
    openingText gap none ++ r = "import".toList ++ (gap ++ '{' :: r) := by
  show "import".toList ++ gap ++ [] ++ ['{'] ++ r = _
  rw [List.append_nil, List.append_assoc, List.append_assoc]
  rfl

theorem openingText_some (gap w r : List Char) :
    openingText gap (some w) ++ r =
      "import".toList ++ (gap ++ ("type".toList ++ (w ++ '{' :: r))) := by
  show "import".toList ++ gap ++ ("type".toList ++ w) ++ ['{'] ++ r = _
  rw [List.append_assoc, List.append_assoc, List.append_assoc, List.append_assoc]
  rfl

theorem afterOpening?_openingText {gap : List Char} {qualifier : Option (List Char)}
    (hg : Blanks gap) (hq : ∀ w ∈ qualifier, Blanks w) (r : List Char) :
    afterOpening? (openingText gap qualifier ++ r) = some r := by
  have hbrace : ∀ x : List Char, afterLit? ['{'] ('{' :: x) = some x := afterLit?_append ['{']
  cases qualifier with
  | none =>
    have ht : afterLit? "type".toList ('{' :: r) = none := rfl
    rw [openingText_none, afterOpening?, afterLit?_append]
    show (afterBlanks? (gap ++ '{' :: r)).bind _ = _
    rw [afterBlanks?_append hg (by simp; decide)]
    show afterLit? ['{'] (((afterLit? "type".toList ('{' :: r)).bind afterBlanks?).getD _) = _
    rw [ht]
    exact hbrace r
  | some w =>
    rw [openingText_some, afterOpening?, afterLit?_append]
    show (afterBlanks? (gap ++ ("type".toList ++ (w ++ '{' :: r)))).bind _ = _
    rw [afterBlanks?_append hg (by simp; decide)]
    show afterLit? ['{'] (((afterLit? "type".toList ("type".toList ++ (w ++ '{' :: r))).bind
      afterBlanks?).getD _) = _
    rw [afterLit?_append, Option.bind_some,
      afterBlanks?_append (hq w rfl) (by simp; decide)]
    exact hbrace r

theorem afterOpening?_eq_some_iff {cs r : List Char} :
    afterOpening? cs = some r ↔
      ∃ gap qualifier, Blanks gap ∧ (∀ w ∈ qualifier, Blanks w) ∧
        cs = openingText gap qualifier ++ r := by
  refine ⟨?_, ?_⟩
  · intro h
    simp only [afterOpening?, bind, Option.bind_eq_some_iff] at h
    obtain ⟨r₁, h₁, r₂, h₂, h₃⟩ := h
    have e₁ := afterLit?_eq_some_iff.mp h₁
    obtain ⟨w₂, b₂, e₂⟩ := exists_blanks h₂
    have e₃ := afterLit?_eq_some_iff.mp h₃
    cases hr : (afterLit? "type".toList r₂).bind afterBlanks? with
    | none =>
      rw [hr, Option.getD_none] at e₃
      refine ⟨w₂, none, b₂, by simp, ?_⟩
      rw [openingText_none, e₁, e₂, e₃]
      rfl
    | some r₃ =>
      rw [hr, Option.getD_some] at e₃
      obtain ⟨r₄, h₄, h₅⟩ := Option.bind_eq_some_iff.mp hr
      have e₄ := afterLit?_eq_some_iff.mp h₄
      obtain ⟨w₅, b₅, e₅⟩ := exists_blanks h₅
      refine ⟨w₂, some w₅, b₂, ?_, ?_⟩
      · intro w hw
        obtain rfl : w₅ = w := by simpa using hw
        exact b₅
      · rw [openingText_some, e₁, e₂, e₄, e₅, e₃]
        rfl
  · intro hx
    obtain ⟨gap, qualifier, hg, hq, rfl⟩ := hx
    exact afterOpening?_openingText hg hq r

/-! ## the specifier and its line -/

theorem quoteEnds_iff {cs : List Char} :
    quoteEnds cs = true ↔ ∃ q rest, cs = q :: rest ∧ isQuote q = true ∧ '\r' ∉ rest := by
  cases cs with
  | nil => simp [quoteEnds]
  | cons q rest => simp [quoteEnds]

theorem any_afterLit?_iff {lit cs : List Char} {p : List Char → Bool} :
    (afterLit? lit cs).any p = true ↔ ∃ r, cs = lit ++ r ∧ p r = true := by
  rw [Option.any_eq_true]
  refine ⟨?_, ?_⟩
  · intro hx
    obtain ⟨r, h, hp⟩ := hx
    exact ⟨r, afterLit?_eq_some_iff.mp h, hp⟩
  · intro hx
    obtain ⟨r, h, hp⟩ := hx
    exact ⟨r, afterLit?_eq_some_iff.mpr h, hp⟩

theorem endsSpecifier_iff {cs : List Char} :
    endsSpecifier cs = true ↔
      ∃ x q rest, cs = endingText x ++ q :: rest ∧ isQuote q = true ∧ '\r' ∉ rest := by
  have hshort : endingText false = "/_generated/api".toList := List.append_nil _
  have hlong : endingText true = "/_generated/api.js".toList := by decide
  rw [endsSpecifier, Bool.or_eq_true, any_afterLit?_iff, any_afterLit?_iff, ← hshort, ← hlong]
  refine ⟨?_, ?_⟩
  · intro h
    rcases h with ⟨r, hc, hr⟩ | ⟨r, hc, hr⟩
    · obtain ⟨q, rest, rfl, hq⟩ := quoteEnds_iff.mp hr
      exact ⟨false, q, rest, hc, hq⟩
    · obtain ⟨q, rest, rfl, hq⟩ := quoteEnds_iff.mp hr
      exact ⟨true, q, rest, hc, hq⟩
  · intro h
    obtain ⟨x, q, rest, hc, hq⟩ := h
    have hr : quoteEnds (q :: rest) = true := quoteEnds_iff.mpr ⟨q, rest, rfl, hq⟩
    cases x with
    | false => exact Or.inl ⟨q :: rest, hc, hr⟩
    | true => exact Or.inr ⟨q :: rest, hc, hr⟩

theorem reachesEnding_iff {cs : List Char} :
    reachesEnding cs = true ↔ ∃ way tail, cs = way ++ tail ∧ endsSpecifier tail = true := by
  induction cs with
  | nil =>
    simp only [reachesEnding, Bool.false_eq_true, false_iff]
    intro hx
    obtain ⟨way, tail, h, ht⟩ := hx
    obtain ⟨x, q, rest, hc, -⟩ := endsSpecifier_iff.mp ht
    rw [hc] at h
    have hl := congrArg List.length h
    rw [List.length_append, List.length_append, List.length_cons] at hl
    simp only [List.length_nil] at hl
    omega
  | cons c cs ih =>
    rw [reachesEnding, Bool.or_eq_true, ih]
    refine ⟨?_, ?_⟩
    · intro hx
      rcases hx with h | ⟨way, tail, rfl, h⟩
      · exact ⟨[], c :: cs, rfl, h⟩
      · exact ⟨c :: way, tail, rfl, h⟩
    · intro hx
      obtain ⟨way, tail, hc, h⟩ := hx
      cases way with
      | nil =>
        left
        have hc' : c :: cs = tail := hc
        rw [hc']
        exact h
      | cons d way =>
        right
        exact ⟨way, tail, (List.cons.inj hc).2, h⟩

theorem namesGenerated_iff {cs : List Char} :
    namesGenerated cs = true ↔
      ∃ way x q rest, cs = '.' :: way ++ endingText x ++ q :: rest ∧ isQuote q = true ∧
        '\r' ∉ rest := by
  refine ⟨?_, ?_⟩
  · intro h
    unfold namesGenerated at h
    split at h
    · next cs =>
      obtain ⟨way, tail, rfl, ht⟩ := reachesEnding_iff.mp h
      obtain ⟨x, q, rest, rfl, hq⟩ := endsSpecifier_iff.mp ht
      refine ⟨way, x, q, rest, ?_, hq⟩
      rw [List.append_assoc]
      rfl
    · cases h
  · intro hx
    obtain ⟨way, x, q, rest, rfl, hq⟩ := hx
    show reachesEnding (way ++ endingText x ++ q :: rest) = true
    rw [List.append_assoc]
    exact reachesEnding_iff.mpr ⟨way, _, rfl, endsSpecifier_iff.mpr ⟨x, q, rest, rfl, hq⟩⟩

theorem ne_of_not_mem {d : Char} {l : List Char} (h : d ∉ l) : ∀ c ∈ l, (c != d) = true := by
  intro c hc
  have : c ≠ d := fun hd => h (hd ▸ hc)
  simpa using this

theorem not_mem_takeWhile (d : Char) (cs : List Char) : d ∉ cs.takeWhile (· != d) := by
  intro h
  have := List.all_eq_true.mp (List.all_takeWhile (p := (· != d)) (l := cs)) _ h
  simp at this

theorem takeWhile_line {l r : List Char} (hl : '\n' ∉ l) (hr : AtLineFeed r) :
    (l ++ r).takeWhile (· != '\n') = l := by
  rw [List.takeWhile_append_of_pos (ne_of_not_mem hl)]
  rcases hr with rfl | hr
  · exact List.append_nil l
  · obtain ⟨t, rfl⟩ := List.head?_eq_some_iff.mp hr
    rw [List.takeWhile_cons_of_neg (by simp), List.append_nil]

theorem firstLine_of_takeWhile {cs line : List Char} (h : cs.takeWhile (· != '\n') = line) :
    firstLine cs = if line.getLast? = some '\r' then line.dropLast else line := by
  subst h
  rfl

/-- the line that a declaration ends is found by its end -/
theorem firstLine_eq {l r : List Char} (hl : '\n' ∉ l) (hlast : l.getLast? ≠ some '\r')
    (hr : LineStops r) : firstLine (l ++ r) = l := by
  rcases hr with hr | ⟨t, rfl, ht⟩
  · rw [firstLine_of_takeWhile (takeWhile_line hl hr), if_neg hlast]
  · have hl' : '\n' ∉ l ++ ['\r'] := by simpa using hl
    have ht' := takeWhile_line hl' ht
    rw [List.append_assoc] at ht'
    show firstLine (l ++ (['\r'] ++ t)) = l
    rw [firstLine_of_takeWhile ht', if_pos (by simp), List.dropLast_concat]

theorem atLineFeed_dropWhile (cs : List Char) : AtLineFeed (cs.dropWhile (· != '\n')) := by
  induction cs with
  | nil => exact Or.inl rfl
  | cons c cs ih =>
    by_cases h : c = '\n'
    · subst h
      exact Or.inr rfl
    · rw [List.dropWhile_cons_of_pos (by simpa using h)]
      exact ih

theorem firstLine_line (cs : List Char) : '\n' ∉ firstLine cs := by
  simp only [firstLine]
  split
  · exact fun h => not_mem_takeWhile '\n' cs (List.dropLast_subset _ h)
  · exact not_mem_takeWhile '\n' cs

theorem lineStops_drop_firstLine (cs : List Char) :
    LineStops (cs.drop (firstLine cs).length) := by
  have hcut : cs.takeWhile (· != '\n') ++ cs.dropWhile (· != '\n') = cs :=
    List.takeWhile_append_dropWhile
  have hafter := atLineFeed_dropWhile cs
  generalize hl : cs.takeWhile (· != '\n') = line at hcut
  generalize cs.dropWhile (· != '\n') = after at hcut hafter
  rw [firstLine_of_takeWhile hl]
  split
  · next hr =>
    right
    refine ⟨after, ?_, hafter⟩
    obtain ⟨ys, rfl⟩ := List.getLast?_eq_some_iff.mp hr
    rw [← hcut, List.dropLast_concat, List.append_assoc, List.drop_left]
    rfl
  · left
    rw [← hcut, List.drop_left]
    exact hafter

/-! ## the whole declaration -/

namespace Form

theorem lineText_line (f : Form) : '\n' ∉ f.lineText := by
  have he : '\n' ∉ endingText f.hasExtension := by
    cases f.hasExtension with
    | false => decide
    | true => decide
  have hq : f.closeQuote ≠ '\n' := by
    intro h
    have := f.closeQuote_isQuote
    rw [h] at this
    exact absurd this (by decide)
  intro h
  rcases List.mem_append.mp h with h | h
  · rcases List.mem_append.mp h with h | h
    · rcases List.mem_cons.mp h with h | h
      · exact absurd h (by decide)
      · exact f.way_line h
    · exact he h
  · rcases List.mem_cons.mp h with h | h
    · exact hq h.symm
    · exact f.rest_line h

theorem getLast?_lineText (f : Form) : f.lineText.getLast? ≠ some '\r' := by
  intro h
  have h' : (f.closeQuote :: f.rest).getLast? = some '\r' := by
    rwa [lineText, List.getLast?_append_of_ne_nil _ (List.cons_ne_nil _ _)] at h
  have hmem := List.mem_of_getLast? h'
  rcases List.mem_cons.mp hmem with h | h
  · have := f.closeQuote_isQuote
    rw [← h] at this
    exact absurd this (by decide)
  · exact f.rest_noReturn h

theorem firstLine_lineText (f : Form) {r : List Char} (hr : LineStops r) :
    firstLine (f.lineText ++ r) = f.lineText :=
  firstLine_eq f.lineText_line f.getLast?_lineText hr

theorem afterSpecifier?_lineText (f : Form) {r : List Char} (hr : LineStops r) :
    afterSpecifier? (f.openQuote :: (f.lineText ++ r)) = some r := by
  have hn : namesGenerated f.lineText = true :=
    namesGenerated_iff.mpr ⟨f.way, f.hasExtension, f.closeQuote, f.rest, rfl,
      f.closeQuote_isQuote, f.rest_noReturn⟩
  rw [afterSpecifier?, f.firstLine_lineText hr, f.openQuote_isQuote, hn, List.drop_left]
  rfl

theorem sourceText_append (f : Form) (r : List Char) :
    f.sourceText ++ r = ['}'] ++ (f.beforeFrom ++ ("from".toList ++ (f.afterFrom ++
      f.openQuote :: (f.lineText ++ r)))) := by
  show '}' :: (f.beforeFrom ++ "from".toList ++ f.afterFrom ++ f.openQuote :: f.lineText ++ r) =
    '}' :: (f.beforeFrom ++ ("from".toList ++ (f.afterFrom ++ f.openQuote :: (f.lineText ++ r))))
  rw [List.append_assoc, List.append_assoc, List.append_assoc]
  rfl

theorem afterSource?_sourceText (f : Form) {r : List Char} (hr : LineStops r) :
    afterSource? (f.sourceText ++ r) = some r := by
  have hq : ∀ c ∈ (f.openQuote :: (f.lineText ++ r)).head?, isBlank c = false := by
    intro c hc
    obtain rfl : f.openQuote = c := by simpa using hc
    cases hb : isBlank f.openQuote with
    | false => rfl
    | true =>
      have h := isQuote_of_isBlank hb
      rw [f.openQuote_isQuote] at h
      cases h
  rw [sourceText_append, afterSource?, afterLit?_append]
  show (afterBlanks? (f.beforeFrom ++ _)).bind _ = _
  rw [afterBlanks?_append f.beforeFrom_blanks (by intro c hc; cases hc; decide)]
  show (afterLit? "from".toList ("from".toList ++ _)).bind _ = _
  rw [afterLit?_append]
  show (afterBlanks? (f.afterFrom ++ _)).bind _ = _
  rw [afterBlanks?_append f.afterFrom_blanks hq]
  exact f.afterSpecifier?_lineText hr

end Form

theorem takeWhile_body {body r : List Char} (hb : '}' ∉ body) :
    (body ++ '}' :: r).takeWhile (· != '}') = body ∧
      (body ++ '}' :: r).dropWhile (· != '}') = '}' :: r := by
  have hpos := ne_of_not_mem hb
  refine ⟨?_, ?_⟩
  · rw [List.takeWhile_append_of_pos hpos, List.takeWhile_cons_of_neg (by simp), List.append_nil]
  · rw [List.dropWhile_append_of_pos hpos, List.dropWhile_cons_of_neg (by simp)]

theorem all_hasWord_iff {wanted : List Export} {body : List Char} :
    (wanted.all fun e => hasWord e.name body) = true ↔ ∀ e ∈ wanted, WholeWord e.name body := by
  rw [List.all_eq_true]
  refine ⟨?_, ?_⟩
  · intro h e he
    exact (hasWord_iff e.name_ne_nil body).mp (h e he)
  · intro h e he
    exact (hasWord_iff e.name_ne_nil body).mpr (h e he)

theorem after?_text {wanted : List Export} (f : Form) (hf : f.Names wanted) {r : List Char}
    (hr : LineStops r) : after? wanted (f.text ++ r) = some r := by
  have e : f.text ++ r = openingText f.gap f.qualifier ++ (f.body ++ (f.sourceText ++ r)) := by
    rw [Form.text, List.append_assoc, List.append_assoc]
  have hs : f.sourceText ++ r = '}' :: (f.beforeFrom ++ ("from".toList ++ (f.afterFrom ++
      f.openQuote :: (f.lineText ++ r)))) := f.sourceText_append r
  obtain ⟨ht, hd⟩ := takeWhile_body (r := f.beforeFrom ++ ("from".toList ++ (f.afterFrom ++
      f.openQuote :: (f.lineText ++ r)))) f.body_open
  rw [← hs] at ht hd
  rw [e, after?, afterOpening?_openingText f.gap_blanks f.qualifier_blanks]
  show (afterSource? ((f.body ++ (f.sourceText ++ r)).dropWhile (· != '}'))).bind _ = _
  rw [hd, f.afterSource?_sourceText hr]
  show (if (wanted.all fun e => hasWord e.name
    ((f.body ++ (f.sourceText ++ r)).takeWhile (· != '}'))) = true then some r else none) = some r
  rw [ht, if_pos (all_hasWord_iff.mpr hf)]

theorem exists_form {wanted : List Export} {cs r : List Char} (h : after? wanted cs = some r) :
    ∃ f : Form, f.Names wanted ∧ cs = f.text ++ r ∧ LineStops r := by
  simp only [after?, afterSource?, bind, Option.bind_eq_some_iff] at h
  obtain ⟨r₁, h₁, r₂, ⟨s₁, h₂, s₂, h₃, s₃, h₄, s₄, h₅, h₆⟩, h₇⟩ := h
  split at h₇
  · next hn =>
    obtain rfl : r₂ = r := Option.some.inj h₇
    obtain ⟨gap, qualifier, hg, hq, e₁⟩ := afterOpening?_eq_some_iff.mp h₁
    have e₂ := afterLit?_eq_some_iff.mp h₂
    obtain ⟨w₃, b₃, e₃⟩ := exists_blanks h₃
    have e₄ := afterLit?_eq_some_iff.mp h₄
    obtain ⟨w₅, b₅, e₅⟩ := exists_blanks h₅
    cases s₄ with
    | nil => cases h₆
    | cons q line =>
      rw [afterSpecifier?] at h₆
      split at h₆
      · next hg' =>
        rw [Bool.and_eq_true] at hg'
        obtain ⟨way, x, q', rest, e₆, hq', hrest⟩ := namesGenerated_iff.mp hg'.2
        have hline := firstLine_line line
        rw [e₆] at hline
        let f : Form :=
          { gap, qualifier, body := r₁.takeWhile (· != '}'), beforeFrom := w₃, afterFrom := w₅
            openQuote := q, way, hasExtension := x, closeQuote := q', rest
            gap_blanks := hg, qualifier_blanks := hq
            body_open := not_mem_takeWhile '}' r₁
            beforeFrom_blanks := b₃, afterFrom_blanks := b₅, openQuote_isQuote := hg'.1
            way_line := fun h => hline (by simp [h])
            closeQuote_isQuote := hq'
            rest_line := fun h => hline (by simp [h])
            rest_noReturn := hrest }
        have hl : f.lineText = firstLine line := e₆.symm
        have hr : line.drop (firstLine line).length = r₂ := Option.some.inj h₆
        refine ⟨f, all_hasWord_iff.mp hn, ?_, hr ▸ lineStops_drop_firstLine line⟩
        have hcut : f.lineText ++ r₂ = line := by
          rw [hl, ← hr]
          exact firstLine_append_drop line
        rw [e₁, Form.text, List.append_assoc, List.append_assoc, f.sourceText_append, hcut, ← e₅,
          ← e₄, ← e₃, ← e₂, List.takeWhile_append_dropWhile]
      · cases h₆
  · cases h₇

/-- **The reader finds exactly the forms**: after a form, at the end of a line, and nowhere
else. -/
theorem after?_eq_some_iff {wanted : List Export} {cs r : List Char} :
    after? wanted cs = some r ↔ ∃ f : Form, f.Names wanted ∧ cs = f.text ++ r ∧ LineStops r := by
  refine ⟨?_, ?_⟩
  · exact exists_form
  · intro h
    obtain ⟨f, hf, rfl, hr⟩ := h
    exact after?_text f hf hr

/-- the form of a declaration that is known by its text -/
theorem exists_form_of_append {wanted : List Export} {s rest : List Char}
    (h : after? wanted (s ++ rest) = some rest) :
    ∃ f : Form, f.Names wanted ∧ s = f.text ∧ LineStops rest := by
  obtain ⟨f, hf, e, hr⟩ := exists_form h
  exact ⟨f, hf, List.append_cancel_right e, hr⟩

/-! ## names one by one -/

/-- fewer names, more declarations -/
theorem after?_of_subset {wanted fewer : List Export} (hs : fewer ⊆ wanted) {cs r : List Char}
    (h : after? wanted cs = some r) : after? fewer cs = some r := by
  obtain ⟨f, hf, rfl, hr⟩ := exists_form h
  exact after?_text f (fun e he => hf e (hs he)) hr

theorem after?_eq_none_of_nil {cs : List Char} (h : after? [] cs = none) (wanted : List Export) :
    after? wanted cs = none := by
  rw [Option.eq_none_iff_forall_ne_some]
  intro r hr
  have he := after?_of_subset (List.nil_subset _) hr
  rw [h] at he
  cases he

theorem after?_of_read {wanted : List Export} {cs r rest : List Char}
    (h₁ : afterOpening? cs = some r) (h₂ : afterSource? (r.dropWhile (· != '}')) = some rest) :
    after? wanted cs =
      if wanted.all (fun e => hasWord e.name (r.takeWhile (· != '}'))) then some rest else none := by
  rw [after?, h₁]
  show (afterSource? (r.dropWhile (· != '}'))).bind _ = _
  rw [h₂]
  rfl

/-- the names of a declaration are looked for in one and the same body -/
theorem after?_iff_each {wanted : List Export} {cs r : List Char} :
    after? wanted cs = some r ↔
      after? [] cs = some r ∧ ∀ e ∈ wanted, after? [e] cs = some r := by
  refine ⟨?_, ?_⟩
  · intro h
    refine ⟨after?_of_subset (List.nil_subset _) h, fun e he => after?_of_subset ?_ h⟩
    intro e' he'
    rwa [List.mem_singleton.mp he']
  · intro hx
    obtain ⟨h, heach⟩ := hx
    have h' := h
    simp only [after?, bind, Option.bind_eq_some_iff] at h'
    obtain ⟨r₁, h₁, rest, h₂, h₃⟩ := h'
    obtain rfl : rest = r := Option.some.inj h₃
    have hall : (wanted.all fun e => hasWord e.name (r₁.takeWhile (· != '}'))) = true := by
      rw [List.all_eq_true]
      intro e he
      have hone := heach e he
      rw [after?_of_read h₁ h₂] at hone
      split at hone
      · next hw => simpa using hw
      · cases hone
    rw [after?_of_read h₁ h₂, if_pos hall]

theorem after?_all_iff {cs r : List Char} :
    after? Export.all cs = some r ↔
      after? [.internal] cs = some r ∧ after? [.api] cs = some r := by
  rw [after?_iff_each]
  refine ⟨?_, ?_⟩
  · intro hx
    obtain ⟨-, h⟩ := hx
    exact ⟨h .internal (by simp [Export.all]), h .api (by simp [Export.all])⟩
  · intro hx
    obtain ⟨h₁, h₂⟩ := hx
    refine ⟨after?_of_subset (List.nil_subset _) h₁, fun e _ => ?_⟩
    cases e with
    | internal => exact h₁
    | api => exact h₂

end Declaration

end Rebind
