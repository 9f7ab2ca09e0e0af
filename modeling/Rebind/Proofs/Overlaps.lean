import Rebind.Proofs.Spans

/-!
# Declarations that overlap

The reader may be asked at any line start, also inside a declaration that it has read from an
earlier one.  Two declarations that overlap share more than their end:

* `Form.eq_of_opening`   the words in front of the body and the body are found in the text, so two
                         forms with one text have them in common;
* `Form.within_of_text`  a form that begins inside another begins in its body, and the two share all
                         that follows the body;
* `overlaps_nest`        the same by positions, for any two lists of names.

Which names a declaration has is read off its body, so the outer declaration has all that the inner
one has.
-/

namespace Rebind.Declaration

/-! ## the places of the braces -/

namespace Form

/-- where the opening brace stands, counted from the start of the declaration -/
def openAt (f : Form) : Nat := (openingText f.gap f.qualifier).length - 1

def closeAt (f : Form) : Nat := (openingText f.gap f.qualifier ++ f.body).length

theorem openAt_lt (f : Form) : f.openAt < (openingText f.gap f.qualifier).length := by
  have hne : openingText f.gap f.qualifier ≠ [] := List.append_ne_nil_of_right_ne_nil _ (by simp)
  have hpos := List.length_pos_of_ne_nil hne
  rw [openAt]
  omega

theorem getElem?_openAt (f : Form) : f.text[f.openAt]? = some '{' := by
  rw [text, List.append_assoc, List.getElem?_append_left f.openAt_lt, openAt,
    ← List.getLast?_eq_getElem?, getLast?_openingText]

theorem getElem?_closeAt (f : Form) : f.text[f.closeAt]? = some '}' := by
  rw [closeAt, text, List.getElem?_append_right (Nat.le_refl _), Nat.sub_self]
  rfl

/-! ## parts that the text determines -/

/-- an opening and a body that stand in front of a closing brace are those of the form -/
theorem eq_of_opening (f : Form) {gap : List Char} {qualifier : Option (List Char)}
    {body r : List Char} (hg : Blanks gap) (hq : ∀ w ∈ qualifier, Blanks w) (hb : '}' ∉ body)
    (h : f.text = openingText gap qualifier ++ (body ++ '}' :: r)) :
    openingText f.gap f.qualifier = openingText gap qualifier ∧ f.body = body ∧
      f.sourceText = '}' :: r := by
  have htext : openingText f.gap f.qualifier ++ (f.body ++ f.sourceText) =
      openingText gap qualifier ++ (body ++ '}' :: r) := by
    rw [← h, text, List.append_assoc]
  have hrest : f.body ++ f.sourceText = body ++ '}' :: r := by
    have hread := afterOpening?_openingText f.gap_blanks f.qualifier_blanks (f.body ++ f.sourceText)
    rw [htext, afterOpening?_openingText hg hq] at hread
    exact (Option.some.inj hread).symm
  have hbody : f.body = body := by
    have hown : (f.body ++ f.sourceText).takeWhile (· != '}') = f.body :=
      (takeWhile_body f.body_open).1
    rw [hrest, (takeWhile_body hb).1] at hown
    exact hown.symm
  rw [hrest] at htext
  rw [hbody] at hrest
  exact ⟨List.append_cancel_right htext, hbody, List.append_cancel_left hrest⟩

end Form

/-! ## one declaration within another -/

/-- `g`, which stands at `s'`, begins between the braces of `f`, which stands at `s`, and shares the
closing brace and all that follows it; its names are names of `f` -/
structure Within (f : Form) (s : Nat) (g : Form) (s' : Nat) : Prop where
  afterOpening : s + f.openAt < s'
  beforeClosing : s' < s + f.closeAt
  sameClosing : s' + g.closeAt = s + f.closeAt
  sameSource : g.sourceText = f.sourceText
  names : ∀ x : Export, WholeWord x.name g.body → WholeWord x.name f.body

/-- a form with another at its end, in front of which nothing is closed -/
theorem Form.within_of_text {f g : Form} {a : List Char} (ha : Unclosed a)
    (h : f.text = a ++ g.text) (s : Nat) : Within f s g (s + a.length) := by
  obtain ⟨gap, qualifier, b, hg, hq, hb, rfl⟩ := ha
  -- the text of `f` is that of `g` widened by the opening, and so are its parts
  obtain ⟨hopening, hbody, hsource⟩ : openingText f.gap f.qualifier = openingText gap qualifier ∧
      f.body = b ++ (openingText g.gap g.qualifier ++ g.body) ∧ f.sourceText = g.sourceText := by
    refine f.eq_of_opening hg hq (g.widen gap qualifier b hg hq hb).body_open ?_
    rw [h, Form.text]
    simp only [List.append_assoc]
    rfl
  have hopen := f.openAt_lt
  rw [hopening] at hopen
  have hclose : f.closeAt = (openingText gap qualifier ++ b).length + g.closeAt := by
    rw [closeAt, hopening, hbody, closeAt, ← List.append_assoc, List.length_append]
  have hpos : 0 < g.closeAt := by
    have hlt := g.openAt_lt
    rw [closeAt, List.length_append]
    omega
  refine ⟨?_, by omega, by omega, hsource.symm, ?_⟩
  · rw [List.length_append]
    omega
  · intro x hx
    have hone : g.Names [x] := fun y hy => by rwa [List.mem_singleton.mp hy]
    rw [hbody]
    exact hone.widen hg hq hb x (List.mem_singleton_self x)

/-! ## overlaps -/

theorem slice_append_slice {text : List Char} {s s' e : Nat} (h : s ≤ s') (h' : s' ≤ e) :
    slice text s s' ++ slice text s' e = slice text s e := by
  have hd : slice text s' e = (slice text s e).drop (s' - s) := by
    rw [slice, slice, List.drop_drop, Nat.add_sub_cancel' h]
  have ht : slice text s s' = (slice text s e).take (s' - s) := by
    rw [slice, slice, List.take_drop, Nat.add_sub_cancel' h, List.take_take, Nat.min_eq_left h']
  rw [hd, ht, List.take_append_drop]

theorem getElem?_of_slice {text : List Char} {s e i : Nat} {c : Char}
    (h : (slice text s e)[i]? = some c) : text[s + i]? = some c := by
  rw [slice, List.getElem?_drop, List.getElem?_take] at h
  split at h
  · exact h
  · cases h

theorem getLast?_slice {text : List Char} {s s' : Nat} (hs : s < s') (hle : s' ≤ text.length)
    (h : StartsLine text s') : (slice text s s').getLast? = some '\n' := by
  have hlen : (text.take s').length = s' := List.length_take_of_le hle
  have hline : lineAfter true (text.take s') = true := by
    have hiff := @startsLine_iff (text.take s') (text.drop s')
    rw [List.take_append_drop, hlen] at hiff
    exact hiff.mp h
  have hcut : slice text 0 s ++ slice text s s' = text.take s' :=
    slice_append_slice (Nat.zero_le s) (Nat.le_of_lt hs)
  rw [← hcut, lineAfter_append] at hline
  refine getLast?_of_lineAfter (List.ne_nil_of_length_pos ?_) hline
  rw [slice, List.length_drop, hlen]
  omega

/-- **Declarations that overlap are nested**: if the reader finds a declaration at `s` that ends at
`e`, and one, for the same names or others, that begins inside it, then both end at `e`; the inner
one begins between the braces of the outer one and shares the closing brace and all that follows;
and each export that the inner one has is one of the outer one. -/
theorem overlaps_nest {wanted inner : List Export} {text : List Char} {s e s' e' : Nat}
    (h : endAt? wanted text s = some e) (h' : endAt? inner text s' = some e') (hs : s < s')
    (he : s' < e) :
    e' = e ∧
    (∃ f g : Form, slice text s e = f.text ∧ slice text s' e' = g.text) ∧
    (∀ f g : Form, slice text s e = f.text → slice text s' e' = g.text →
      text[s + f.openAt]? = some '{' ∧ text[s + f.closeAt]? = some '}' ∧ Within f s g s') ∧
    ∀ names, (endAt? names text s').isSome → endAt? names text s = some e := by
  have hout := endAt?_eq_some_iff.mp h
  have hin := endAt?_eq_some_iff.mp h'
  obtain ⟨-, hbound, hread⟩ := stands_iff.mp hout
  obtain ⟨hstart, hbound', hread'⟩ := stands_iff.mp hin
  have hlast : (slice text s s').getLast? = some '\n' := getLast?_slice hs (by omega) hstart
  have hlt : (text.drop e).length < (text.drop s').length := by
    rw [List.length_drop, List.length_drop]
    omega
  rw [← slice_append_drop (Nat.le_of_lt hs)] at hread
  obtain ⟨hend, hunclosed, -⟩ := after?_nested hlast hread hread' hlt
  obtain rfl : e' = e := by
    have hlen := congrArg List.length hend
    rw [List.length_drop, List.length_drop] at hlen
    omega
  obtain ⟨f, -, hf⟩ := hout.form
  obtain ⟨g, -, hg⟩ := hin.form
  refine ⟨rfl, ⟨f, g, hf, hg⟩, fun f g hf hg => ⟨?_, ?_, ?_⟩, fun names hn => ?_⟩
  · exact getElem?_of_slice (hf ▸ f.getElem?_openAt)
  · exact getElem?_of_slice (hf ▸ f.getElem?_closeAt)
  · have htext : f.text = slice text s s' ++ g.text := by
      rw [← hf, ← hg, slice_append_slice (Nat.le_of_lt hs) (Nat.le_of_lt he)]
    have hlen : s + (slice text s s').length = s' := by
      rw [slice, List.length_drop, List.length_take]
      omega
    have hwithin := Form.within_of_text hunclosed htext s
    rwa [hlen] at hwithin
  · obtain ⟨_, hn⟩ := Option.isSome_iff_exists.mp hn
    obtain ⟨-, -, hn⟩ := stands_iff.mp (endAt?_eq_some_iff.mp hn)
    rw [endAt?_eq_some_iff, stands_iff, ← slice_append_drop (Nat.le_of_lt hs)]
    exact ⟨hout.start, hbound, (after?_nested hlast hread hn hlt).2.2⟩

/-- the second declaration of `nestedText` begins in the body of the first -/
theorem overlaps_nest_nestedText :
    endAt? [.internal] nestedText 0 = some 54 ∧ endAt? [.api] nestedText 9 = some 54 ∧
      (∃ f g : Form, slice nestedText 0 54 = f.text ∧ slice nestedText 9 54 = g.text ∧
        Within f 0 g 9) ∧
      endAt? [.api] nestedText 0 = some 54 := by
  have hout : endAt? [.internal] nestedText 0 = some 54 := by decide +kernel
  have hin : endAt? [.api] nestedText 9 = some 54 := by decide +kernel
  obtain ⟨-, ⟨f, g, hf, hg⟩, hwithin, hnames⟩ := overlaps_nest hout hin (by decide) (by decide)
  refine ⟨hout, hin, ⟨f, g, hf, hg, (hwithin f g hf hg).2.2⟩, hnames [.api] ?_⟩
  exact Option.isSome_of_eq_some hin

end Rebind.Declaration
