import Rebind.Proofs.Nesting

/-!
# One cut for all names

`pieces wanted text` cuts a text at the declarations that have all of `wanted`.  The cut
`pieces [] text`, which asks for no name, is the finest of them, and the others are read off it:

* `cut_induction`   induction along a cut: the end, a declaration, a kept character;
* `declares`        a declaration, taken by itself, has all of `wanted`;
* `Piece.sift`      a declaration that does not is taken apart again;
* `pieces_eq_sift`  the cut for `wanted` is the finest cut, sifted.

A declaration of `wanted` might begin inside one of the finest cut, and the cut for `wanted` would
then be out of step with it.  `after?_nested` says that the outer one has these names too.
-/

namespace Rebind

namespace Declaration

/-! ## the cut, step by step -/

/-- a line begins after `a`; `lineStart` says whether one began before it -/
def lineAfter (lineStart : Bool) (a : List Char) : Bool := a.foldl (fun _ c => c == '\n') lineStart

theorem lineAfter_cons (lineStart : Bool) (c : Char) (a : List Char) :
    lineAfter lineStart (c :: a) = lineAfter (c == '\n') a := rfl

theorem lineAfter_append (lineStart : Bool) (x y : List Char) :
    lineAfter lineStart (x ++ y) = lineAfter (lineAfter lineStart x) y := List.foldl_append

theorem lineAfter_of_getLast? {a : List Char} {c : Char} (h : a.getLast? = some c)
    (lineStart : Bool) : lineAfter lineStart a = (c == '\n') := by
  obtain ⟨ys, rfl⟩ := List.getLast?_eq_some_iff.mp h
  rw [lineAfter_append]
  rfl

theorem lineAfter_eq_false {a : List Char} (hne : a ≠ []) (h : a.getLast? ≠ some '\n')
    (lineStart : Bool) : lineAfter lineStart a = false := by
  have hl := List.getLast?_eq_some_getLast hne
  rw [hl] at h
  rw [lineAfter_of_getLast? hl]
  simpa using h

theorem getLast?_of_lineAfter {lineStart : Bool} {a : List Char} (hne : a ≠ [])
    (h : lineAfter lineStart a = true) : a.getLast? = some '\n' := by
  have hl := List.getLast?_eq_some_getLast hne
  rw [lineAfter_of_getLast? hl, beq_iff_eq] at h
  rw [hl, h]

theorem piecesFrom_nil (wanted : List Export) (lineStart : Bool) :
    piecesFrom wanted lineStart [] = [] := by rw [piecesFrom]

theorem piecesFrom_kept {wanted : List Export} {lineStart : Bool} {c : Char} {r : List Char}
    (h : lineStart = true → after? wanted (c :: r) = none) :
    piecesFrom wanted lineStart (c :: r) = .kept c :: piecesFrom wanted (c == '\n') r := by
  rw [piecesFrom]
  split
  · next rest hs =>
    split at hs
    · next hl =>
      rw [h hl] at hs
      cases hs
    · cases hs
  · rfl

theorem textAt_eq {wanted : List Export} {s rest : List Char}
    (h : after? wanted (s ++ rest) = some rest) : textAt (s ++ rest) = s :=
  List.append_cancel_right (textAt_append h)

theorem ne_nil_of_after? {wanted : List Export} {s rest : List Char}
    (h : after? wanted (s ++ rest) = some rest) : s ≠ [] := by
  rintro rfl
  have hl := after?_length h
  rw [List.nil_append] at hl
  omega

theorem piecesFrom_declaration {wanted : List Export} {s rest : List Char}
    (h : after? wanted (s ++ rest) = some rest) :
    piecesFrom wanted true (s ++ rest) = .declaration s :: piecesFrom wanted false rest := by
  obtain ⟨c, r, hc⟩ := List.exists_cons_of_ne_nil
    (List.append_ne_nil_of_left_ne_nil (ne_nil_of_after? h) rest)
  have ht := textAt_eq h
  rw [hc] at h ht ⊢
  rw [piecesFrom]
  split
  · next rest' hs =>
    rw [if_pos rfl, h] at hs
    obtain rfl : rest = rest' := Option.some.inj hs
    rw [ht]
  · next hs =>
    rw [if_pos rfl, h] at hs
    cases hs

/-- induction along the cut for `wanted` -/
theorem cut_induction (wanted : List Export) {motive : Bool → List Char → Prop}
    (nil : ∀ lineStart, motive lineStart [])
    (declaration : ∀ s rest, after? wanted (s ++ rest) = some rest → motive false rest →
      motive true (s ++ rest))
    (kept : ∀ lineStart c r, (lineStart = true → after? wanted (c :: r) = none) →
      motive (c == '\n') r → motive lineStart (c :: r))
    (lineStart : Bool) (cs : List Char) : motive lineStart cs := by
  fun_induction piecesFrom wanted lineStart cs with
  | case1 lineStart => exact nil lineStart
  | case2 lineStart c r rest h ih =>
    split at h
    · next hl =>
      have hcut := textAt_append h
      rw [← hcut] at h ⊢
      rw [hl]
      exact declaration _ rest h ih
    · cases h
  | case3 lineStart c r h ih =>
    refine kept lineStart c r (fun hl => ?_) ih
    rwa [dif_pos hl] at h

/-- characters among which no declaration begins are kept -/
theorem piecesFrom_run {wanted : List Export} (s : List Char) {lineStart : Bool}
    {rest : List Char}
    (h : ∀ a z, s = a ++ z → z ≠ [] → lineAfter lineStart a = true →
      after? wanted (z ++ rest) = none) :
    piecesFrom wanted lineStart (s ++ rest) =
      s.map .kept ++ piecesFrom wanted (lineAfter lineStart s) rest := by
  induction s generalizing lineStart with
  | nil => rfl
  | cons c s ih =>
    have hc : lineStart = true → after? wanted (c :: (s ++ rest)) = none := fun hl =>
      h [] (c :: s) rfl (List.cons_ne_nil _ _) hl
    have hs : ∀ a z, s = a ++ z → z ≠ [] → lineAfter (c == '\n') a = true →
        after? wanted (z ++ rest) = none := by
      intro a z hz hne hl
      refine h (c :: a) z (by rw [hz]; rfl) hne ?_
      rw [lineAfter_cons]
      exact hl
    rw [List.cons_append, piecesFrom_kept hc, ih hs, lineAfter_cons]
    rfl

/-- the text of a declaration ends as the line of its specifier does -/
theorem getLast?_text_eq (f : Form) : f.text.getLast? = f.lineText.getLast? := by
  have hne : f.lineText ≠ [] := by simp [Form.lineText]
  have e : f.text = openingText f.gap f.qualifier ++ f.body ++ f.bridgeText ++ f.lineText := by
    have h := f.sourceText_eq []
    rw [List.append_nil, List.append_nil] at h
    rw [Form.text, h, List.append_assoc _ f.bridgeText]
  rw [e, List.getLast?_append_of_ne_nil _ hne]

/-- the text of a declaration does not end a line -/
theorem getLast?_text (f : Form) : f.text.getLast? ≠ some '\n' := by
  rw [getLast?_text_eq]
  exact fun h => f.lineText_line (List.mem_of_getLast? h)

theorem lineAfter_declaration {wanted : List Export} {s rest : List Char}
    (h : after? wanted (s ++ rest) = some rest) (lineStart : Bool) :
    lineAfter lineStart s = false := by
  obtain ⟨f, -, hs, -⟩ := exists_form_of_append h
  exact lineAfter_eq_false (ne_nil_of_after? h) (hs ▸ getLast?_text f) lineStart

/-! ## the cut for some names -/

/-- a declaration, taken by itself, has all of `wanted` -/
def declares (wanted : List Export) (s : List Char) : Bool := after? wanted s == some []

theorem declares_iff {wanted : List Export} {s rest : List Char}
    (h : after? [] (s ++ rest) = some rest) :
    declares wanted s = true ↔ after? wanted (s ++ rest) = some rest := by
  rw [declares, beq_iff_eq]
  refine ⟨?_, ?_⟩
  · intro hs
    obtain ⟨f, hf, e, -⟩ := exists_form hs
    obtain ⟨-, -, -, hr⟩ := exists_form h
    rw [e, List.append_nil]
    exact after?_text f hf hr
  · intro hs
    obtain ⟨f, hf, hst, -⟩ := exists_form_of_append hs
    have ht := after?_text f hf (r := []) (Or.inl (Or.inl rfl))
    rwa [List.append_nil, ← hst] at ht

theorem declares_all {s : List Char} :
    declares Export.all s = (declares [.internal] s && declares [.api] s) := by
  rw [Bool.eq_iff_iff, Bool.and_eq_true]
  simp only [declares, beq_iff_eq]
  exact after?_all_iff

end Declaration

/-- a piece in the cut for `wanted`: a declaration that has not all of them is taken apart -/
def Piece.sift (wanted : List Export) : Piece → List Piece
  | .kept c => [.kept c]
  | .declaration s => if Declaration.declares wanted s then [.declaration s] else s.map .kept

theorem Piece.flatMap_map_kept {g : Piece → List Char} (hg : ∀ c, g (.kept c) = [c])
    (s : List Char) : (s.map Piece.kept).flatMap g = s := by
  induction s with
  | nil => rfl
  | cons c s ih => rw [List.map_cons, List.flatMap_cons, hg, ih]; rfl

namespace Declaration

theorem piecesFrom_eq_sift (wanted : List Export) (lineStart : Bool) (cs : List Char) :
    piecesFrom wanted lineStart cs = (piecesFrom [] lineStart cs).flatMap (Piece.sift wanted) := by
  induction lineStart, cs using cut_induction [] with
  | nil lineStart => rw [piecesFrom_nil, piecesFrom_nil]; rfl
  | declaration s rest h ih =>
    rw [piecesFrom_declaration h, List.flatMap_cons, ← ih, Piece.sift]
    by_cases hd : declares wanted s = true
    · rw [if_pos hd]
      exact piecesFrom_declaration ((declares_iff h).mp hd)
    · -- no declaration of `wanted` begins inside this one: it would have brought its names along
      rw [if_neg hd, ← lineAfter_declaration h true]
      apply piecesFrom_run
      intro a z hz hne hl
      rw [Option.eq_none_iff_forall_ne_some]
      intro y hy
      apply hd
      rw [declares_iff h]
      by_cases ha : a = []
      · have hs : s = z := by rw [hz, ha]; rfl
        rw [← hs] at hy
        have he := after?_of_subset (List.nil_subset _) hy
        rw [h] at he
        rw [hy, ← he]
      · have hout := h
        rw [hz, List.append_assoc] at hout ⊢
        have hlen : rest.length < (z ++ rest).length := by
          have := List.length_pos_of_ne_nil hne
          rw [List.length_append]
          omega
        exact (after?_nested (getLast?_of_lineAfter ha hl) hout hy hlen).2.2
  | kept lineStart c r h ih =>
    have hk : lineStart = true → after? wanted (c :: r) = none := fun hl =>
      after?_eq_none_of_nil (h hl) wanted
    rw [piecesFrom_kept hk, piecesFrom_kept h, ih, List.flatMap_cons]
    rfl

/-- **One cut for all names**: the cut for `wanted` is the finest cut with the other declarations
taken apart. -/
theorem pieces_eq_sift (wanted : List Export) (text : List Char) :
    pieces wanted text = (pieces [] text).flatMap (Piece.sift wanted) :=
  piecesFrom_eq_sift wanted true text

/-! ## which declarations occur -/

theorem mem_pieces_iff {wanted : List Export} {s text : List Char} :
    .declaration s ∈ pieces wanted text ↔
      .declaration s ∈ pieces [] text ∧ declares wanted s = true := by
  rw [pieces_eq_sift, List.mem_flatMap]
  refine ⟨?_, ?_⟩
  · intro h
    obtain ⟨p, hp, hs⟩ := h
    cases p with
    | kept c => simp [Piece.sift] at hs
    | declaration t =>
      rw [Piece.sift] at hs
      split at hs
      · next hd =>
        obtain rfl : s = t := by simpa using hs
        exact ⟨hp, hd⟩
      · simp at hs
  · intro h
    obtain ⟨hp, hd⟩ := h
    refine ⟨_, hp, ?_⟩
    rw [Piece.sift, if_pos hd]
    exact List.mem_singleton_self _

theorem occurs_iff {wanted : List Export} {text : List Char} :
    occurs wanted text = true ↔ ∃ s, .declaration s ∈ pieces wanted text := by
  rw [occurs, List.any_eq_true]
  refine ⟨?_, ?_⟩
  · intro h
    obtain ⟨p, hp, hd⟩ := h
    cases p with
    | kept c => cases hd
    | declaration s => exact ⟨s, hp⟩
  · intro h
    obtain ⟨s, hs⟩ := h
    exact ⟨_, hs, rfl⟩

end Declaration

end Rebind
