import Rebind.Proofs.Grammar

/-!
# Declarations across a line start

A declaration may run over many lines, so a line may begin inside it, and another declaration may
begin there.  This file cuts a text at a line start, `a ++ z` with a line feed at the end of `a`,
and says how much of a declaration at the head of `a ++ z` can lie on either side:

* `after?_seam`      the declaration ends in `a`, whatever follows, or `a` is an opening that has
                     not met its closing brace (`Unclosed`);
* `Unclosed.after?`  such an opening takes a declaration that follows it as its own: same end, and
                     every name of the shorter declaration is one of the longer;
* `after?_nested`    so two declarations, one begun inside the other, end together.

What carries the cut is that a line of `z` that begins a declaration, or a block that stands for
one, begins with a character that has no place inside the words of a declaration (`Fresh`).
-/

namespace Rebind.Declaration

/-! ## first and last characters -/

/-- the text begins with the first character of a declaration or of a comment -/
def Fresh (z : List Char) : Prop := z.head? = some 'i' ∨ z.head? = some '/'

theorem head?_text (f : Form) (r : List Char) : (f.text ++ r).head? = some 'i' := by
  rw [Form.text, List.append_assoc, List.append_assoc]
  rfl

theorem head?_of_after? {wanted : List Export} {cs r : List Char}
    (h : after? wanted cs = some r) : cs.head? = some 'i' := by
  obtain ⟨f, -, rfl, -⟩ := exists_form h
  exact head?_text f r

theorem not_mem_blanks {c : Char} (hc : isBlank c = false) {w : List Char} (hw : Blanks w) :
    c ∉ w := by
  intro h
  have hb := hw.2 c h
  rw [hc] at hb
  cases hb

theorem not_blank_of_fresh {c : Char} (hc : c = 'i' ∨ c = '/') : isBlank c = false := by
  rcases hc with rfl | rfl
  · decide
  · decide

theorem not_mem_opening {c : Char} {word gap : List Char} {qualifier : Option (List Char)}
    (hc : isBlank c = false) (hword : c ∉ word) (htype : c ∉ "type".toList) (hbrace : c ∉ ['{'])
    (hg : Blanks gap) (hq : ∀ w ∈ qualifier, Blanks w) :
    c ∉ word ++ gap ++ qualifier.elim [] ("type".toList ++ ·) ++ ['{'] := by
  have hqual : c ∉ qualifier.elim [] ("type".toList ++ ·) := by
    cases qualifier with
    | none => exact List.not_mem_nil
    | some w =>
      show c ∉ "type".toList ++ w
      rw [List.mem_append, not_or]
      exact ⟨htype, not_mem_blanks hc (hq w rfl)⟩
  rw [List.mem_append, List.mem_append, List.mem_append, not_or, not_or, not_or]
  exact ⟨⟨⟨hword, not_mem_blanks hc hg⟩, hqual⟩, hbrace⟩

/-- no line of the opening but its first can begin with a fresh character -/
theorem not_mem_tail_openingText {c : Char} (hc : c = 'i' ∨ c = '/') {gap : List Char}
    {qualifier : Option (List Char)} (hg : Blanks gap) (hq : ∀ w ∈ qualifier, Blanks w) :
    c ∉ (openingText gap qualifier).tail := by
  have hword : c ∉ "mport".toList ∧ c ∉ "type".toList ∧ c ∉ ['{'] := by
    rcases hc with rfl | rfl
    · decide
    · decide
  show c ∉ "mport".toList ++ gap ++ qualifier.elim [] ("type".toList ++ ·) ++ ['{']
  exact not_mem_opening (not_blank_of_fresh hc) hword.1 hword.2.1 hword.2.2 hg hq

theorem not_mem_openingText {gap : List Char} {qualifier : Option (List Char)} (hg : Blanks gap)
    (hq : ∀ w ∈ qualifier, Blanks w) : '}' ∉ openingText gap qualifier := by
  have hword : '}' ∉ "import".toList ∧ '}' ∉ "type".toList ∧ '}' ∉ ['{'] := by decide
  exact not_mem_opening (by decide) hword.1 hword.2.1 hword.2.2 hg hq

/-- what stands between the closing brace and the specifier, the brace and the quote included -/
def Form.bridgeText (f : Form) : List Char :=
  '}' :: f.beforeFrom ++ "from".toList ++ f.afterFrom ++ [f.openQuote]

theorem Form.sourceText_eq (f : Form) (r : List Char) :
    f.sourceText ++ r = f.bridgeText ++ (f.lineText ++ r) := by
  simp only [Form.sourceText, Form.bridgeText, List.append_assoc]
  rfl

theorem not_mem_bridgeText {c : Char} (hc : c = 'i' ∨ c = '/') (f : Form) : c ∉ f.bridgeText := by
  have hword : c ∉ ['}'] ∧ c ∉ "from".toList ∧ isQuote c = false := by
    rcases hc with rfl | rfl
    · decide
    · decide
  have hquote : c ∉ [f.openQuote] := by
    intro h
    have hq := f.openQuote_isQuote
    rw [← List.mem_singleton.mp h, hword.2.2] at hq
    cases hq
  have e : f.bridgeText = ['}'] ++ f.beforeFrom ++ "from".toList ++ f.afterFrom ++ [f.openQuote] :=
    rfl
  rw [e, List.mem_append, List.mem_append, List.mem_append, List.mem_append, not_or, not_or,
    not_or, not_or]
  have hblank := not_blank_of_fresh hc
  exact ⟨⟨⟨⟨hword.1, not_mem_blanks hblank f.beforeFrom_blanks⟩, hword.2.1⟩,
    not_mem_blanks hblank f.afterFrom_blanks⟩, hquote⟩

theorem getLast?_openingText (gap : List Char) (qualifier : Option (List Char)) :
    (openingText gap qualifier).getLast? = some '{' := List.getLast?_concat

theorem getLast?_bridgeText (f : Form) : f.bridgeText.getLast? ≠ some '\n' := by
  have h : f.bridgeText.getLast? = some f.openQuote := List.getLast?_concat
  rw [h]
  intro hn
  have hq := f.openQuote_isQuote
  rw [Option.some.inj hn] at hq
  exact absurd hq (by decide)

/-! ## the seam -/

/-- an opening that has not met its closing brace -/
def Unclosed (a : List Char) : Prop :=
  ∃ gap qualifier b, Blanks gap ∧ (∀ w ∈ qualifier, Blanks w) ∧ '}' ∉ b ∧
    a = openingText gap qualifier ++ b

theorem ne_nil_of_getLast? {a : List Char} {c : Char} (h : a.getLast? = some c) : a ≠ [] := by
  rintro rfl
  cases h

/-- words of a declaration that a line start does not cut lie before it -/
theorem cut_after_words {u v a z : List Char} (h : u ++ v = a ++ z) (ha : a.getLast? = some '\n')
    (hz : Fresh z) (hlast : u.getLast? ≠ some '\n')
    (hu : ∀ c : Char, c = 'i' ∨ c = '/' → c ∉ u.tail) :
    ∃ y, a = u ++ y ∧ y.getLast? = some '\n' ∧ v = y ++ z := by
  rcases List.append_eq_append_iff.mp h with ⟨y, rfl, rfl⟩ | ⟨y, rfl, rfl⟩
  · refine ⟨y, rfl, ?_, rfl⟩
    cases y with
    | nil =>
      rw [List.append_nil] at ha
      exact absurd ha hlast
    | cons c y => rwa [List.getLast?_append_of_ne_nil _ (List.cons_ne_nil _ _)] at ha
  · exfalso
    cases y with
    | nil =>
      rw [List.append_nil] at hlast
      exact hlast ha
    | cons c y =>
      have hc : c = 'i' ∨ c = '/' := by
        rcases hz with hz | hz
        · exact Or.inl (Option.some.inj hz)
        · exact Or.inr (Option.some.inj hz)
      apply hu c hc
      rw [List.tail_append_of_ne_nil (ne_nil_of_getLast? ha)]
      simp

/-- the end of a line is seen whatever follows its line feed -/
theorem LineStops.change {x z : List Char} (hx : x.getLast? = some '\n')
    (h : LineStops (x ++ z)) (z' : List Char) : LineStops (x ++ z') := by
  have feed : ∀ {y z : List Char}, y.getLast? = some '\n' → AtLineFeed (y ++ z) →
      ∀ z', AtLineFeed (y ++ z') := by
    intro y z hy hz z'
    cases y with
    | nil => cases hy
    | cons c y =>
      rcases hz with hz | hz
      · cases hz
      · exact Or.inr hz
  rcases h with h | ⟨t, ht, hf⟩
  · exact Or.inl (feed hx h z')
  · cases x with
    | nil => cases hx
    | cons c x =>
      obtain ⟨rfl, rfl⟩ := List.cons.inj ht
      cases x with
      | nil => cases hx
      | cons d x =>
        rw [List.getLast?_cons_cons] at hx
        exact Or.inr ⟨d :: x ++ z', rfl, feed hx hf z'⟩

/-- **A declaration at a seam**: if a line begins after `a`, and what stands there is fresh, then a
declaration at the head of `a ++ z` ends in `a` and does not depend on `z`, or `a` is an opening
that has not met its closing brace. -/
theorem after?_seam {wanted : List Export} {a z x : List Char} (ha : a.getLast? = some '\n')
    (hz : Fresh z) (h : after? wanted (a ++ z) = some x) :
    (∃ y, y ≠ [] ∧ x = y ++ z ∧ ∀ z', after? wanted (a ++ z') = some (y ++ z')) ∨
      Unclosed a := by
  obtain ⟨f, hf, e, hx⟩ := exists_form h
  have e₁ : openingText f.gap f.qualifier ++ (f.body ++ (f.sourceText ++ x)) = a ++ z := by
    rw [e, Form.text, List.append_assoc, List.append_assoc]
  obtain ⟨b, hb, hbl, e₂⟩ := cut_after_words e₁ ha hz
    (by rw [getLast?_openingText]; decide)
    (fun c hc => not_mem_tail_openingText hc f.gap_blanks f.qualifier_blanks)
  have unclosed : '}' ∉ b → Unclosed a := fun ho =>
    ⟨f.gap, f.qualifier, b, f.gap_blanks, f.qualifier_blanks, ho, hb⟩
  rcases List.append_eq_append_iff.mp e₂ with ⟨y, hy, e₃⟩ | ⟨y, hy, -⟩
  · by_cases hne : y = []
    · right
      apply unclosed
      rw [hy, hne, List.append_nil]
      exact f.body_open
    · left
      -- the brace is behind us: what is left of `a` holds the bridge, the line and its line feed
      have hyl : y.getLast? = some '\n' := by
        rwa [hy, List.getLast?_append_of_ne_nil _ hne] at hbl
      rw [f.sourceText_eq] at e₃
      obtain ⟨l, hl, hll, e₄⟩ := cut_after_words e₃ hyl hz (getLast?_bridgeText f)
        (fun c hc h => not_mem_bridgeText hc f (List.mem_of_mem_tail h))
      rcases List.append_eq_append_iff.mp e₄ with ⟨t, ht, e₅⟩ | ⟨t, ht, -⟩
      · have htl : t.getLast? = some '\n' := by
          cases t with
          | nil =>
            rw [ht, List.append_nil] at hll
            exact absurd (List.mem_of_getLast? hll) f.lineText_line
          | cons c t =>
            rwa [ht, List.getLast?_append_of_ne_nil _ (List.cons_ne_nil _ _)] at hll
        refine ⟨t, ne_nil_of_getLast? htl, e₅, fun z' => ?_⟩
        have ea : a = f.text ++ t := by
          rw [hb, hy, hl, ht, Form.text, List.append_assoc, List.append_assoc, f.sourceText_eq]
        rw [ea, List.append_assoc]
        rw [e₅] at hx
        exact after?_text f hf (hx.change htl z')
      · have hmem : '\n' ∈ f.lineText := by
          rw [ht]
          exact List.mem_append_left _ (List.mem_of_getLast? hll)
        exact absurd hmem f.lineText_line
  · right
    apply unclosed
    intro hm
    exact f.body_open (hy ▸ List.mem_append_left _ hm)

/-! ## declarations begun inside declarations -/

/-- a form with an unclosed opening in front, whose body then takes in the words of its own -/
def Form.widen (f : Form) (gap : List Char) (qualifier : Option (List Char)) (b : List Char)
    (hg : Blanks gap) (hq : ∀ w ∈ qualifier, Blanks w) (hb : '}' ∉ b) : Form :=
  { f with
    gap, qualifier, body := b ++ (openingText f.gap f.qualifier ++ f.body)
    gap_blanks := hg, qualifier_blanks := hq
    body_open := by
      rw [List.mem_append, List.mem_append, not_or, not_or]
      exact ⟨hb, not_mem_openingText f.gap_blanks f.qualifier_blanks, f.body_open⟩ }

theorem Form.text_widen (f : Form) {gap : List Char} {qualifier : Option (List Char)}
    {b : List Char} (hg : Blanks gap) (hq : ∀ w ∈ qualifier, Blanks w) (hb : '}' ∉ b) :
    (f.widen gap qualifier b hg hq hb).text = openingText gap qualifier ++ b ++ f.text := by
  show openingText gap qualifier ++ (b ++ (openingText f.gap f.qualifier ++ f.body)) ++
    f.sourceText = openingText gap qualifier ++ b ++ (openingText f.gap f.qualifier ++ f.body ++
      f.sourceText)
  simp only [List.append_assoc]

theorem Form.Names.widen {f : Form} {wanted : List Export} (h : f.Names wanted) {gap : List Char}
    {qualifier : Option (List Char)} {b : List Char} (hg : Blanks gap)
    (hq : ∀ w ∈ qualifier, Blanks w) (hb : '}' ∉ b) :
    (f.widen gap qualifier b hg hq hb).Names wanted := by
  intro e he
  -- the opening of the shorter declaration ends in its brace, which is no word character
  obtain ⟨o, ho⟩ := List.getLast?_eq_some_iff.mp (getLast?_openingText f.gap f.qualifier)
  have hw := (h e he).append_left (b ++ o) (d := '{') (by decide)
  show WholeWord e.name (b ++ (openingText f.gap f.qualifier ++ f.body))
  rw [ho, List.append_assoc, ← List.append_assoc b]
  exact hw

theorem Unclosed.after? {wanted : List Export} {a z y : List Char} (ha : Unclosed a)
    (h : after? wanted z = some y) : after? wanted (a ++ z) = some y := by
  obtain ⟨gap, qualifier, b, hg, hq, hb, rfl⟩ := ha
  obtain ⟨f, hf, rfl, hy⟩ := exists_form h
  have e := f.text_widen hg hq hb
  rw [← List.append_assoc, ← e]
  exact after?_text _ (hf.widen hg hq hb) hy

/-- **Declarations nest**: if a declaration begins at a line start inside another, they end
together, and the outer one has every name of the inner one. -/
theorem after?_nested {wanted inner : List Export} {a z x y : List Char}
    (ha : a.getLast? = some '\n') (h : after? wanted (a ++ z) = some x)
    (h' : after? inner z = some y) (hlt : x.length < z.length) :
    x = y ∧ Unclosed a ∧ after? inner (a ++ z) = some x := by
  rcases after?_seam ha (Or.inl (head?_of_after? h')) h with ⟨t, -, rfl, -⟩ | hu
  · exfalso
    rw [List.length_append] at hlt
    omega
  · have hin := hu.after? h'
    have hxy : x = y := by
      have h₁ := after?_of_subset (List.nil_subset _) h
      have h₂ := after?_of_subset (List.nil_subset _) hin
      rw [h₁] at h₂
      exact Option.some.inj h₂
    exact ⟨hxy, hu, hxy ▸ hin⟩

end Rebind.Declaration
