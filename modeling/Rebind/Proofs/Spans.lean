import Mathlib.Data.List.Pairwise
import Rebind.Fix
import Rebind.Proofs.Cut

/-!
# Where declarations stand

Positions count characters from the start of the text.

* `Stands`    the grammar at a position: a form with all of `wanted` stands in the text from `s` to
              `e`, a line begins at `s`, and a line stops at `e`;
* `endAt?`    the reader at a position;
* `Leftmost`  the list that is got by taking, again and again, the smallest start not before the
              last end.

The spans of a text are the leftmost list of the grammar, and at each start there is at most one
end.  The spans for `wanted` are those spans for no name whose declaration has all of `wanted`
(`spans_eq_filter`), so the spans for both exports are the common spans for either.
-/

namespace Rebind

namespace Declaration

/-! ## the grammar at a position -/

/-- the characters of a text from `s` to `e`, `e` excluded -/
def slice (text : List Char) (s e : Nat) : List Char := (text.take e).drop s

def StartsLine (text : List Char) (s : Nat) : Prop := s = 0 ∨ text[s - 1]? = some '\n'

instance (text : List Char) (s : Nat) : Decidable (StartsLine text s) :=
  inferInstanceAs (Decidable (s = 0 ∨ text[s - 1]? = some '\n'))

/-- a form with all of `wanted` stands in `text` from `s` to `e` -/
structure Stands (wanted : List Export) (text : List Char) (s e : Nat) : Prop where
  start : StartsLine text s
  ordered : s ≤ e
  bounded : e ≤ text.length
  form : ∃ f : Form, f.Names wanted ∧ slice text s e = f.text
  stop : LineStops (text.drop e)

/-- where the declaration of `wanted` that begins at `s` ends -/
def endAt? (wanted : List Export) (text : List Char) (s : Nat) : Option Nat :=
  if StartsLine text s then
    (after? wanted (text.drop s)).map fun r => text.length - r.length
  else none

theorem slice_append_drop {text : List Char} {s e : Nat} (h : s ≤ e) :
    slice text s e ++ text.drop e = text.drop s := by
  have hd : text.drop e = (text.drop s).drop (e - s) := by
    rw [List.drop_drop, Nat.add_sub_cancel' h]
  rw [slice, List.drop_take, hd, List.take_append_drop]

theorem stands_iff {wanted : List Export} {text : List Char} {s e : Nat} :
    Stands wanted text s e ↔
      StartsLine text s ∧ e ≤ text.length ∧ after? wanted (text.drop s) = some (text.drop e) := by
  refine ⟨?_, ?_⟩
  · intro hx
    obtain ⟨hs, hle, he, ⟨f, hf, ht⟩, hr⟩ := hx
    refine ⟨hs, he, after?_eq_some_iff.mpr ⟨f, hf, ?_, hr⟩⟩
    rw [← slice_append_drop hle, ht]
  · intro hx
    obtain ⟨hs, he, h⟩ := hx
    obtain ⟨f, hf, ht, hr⟩ := after?_eq_some_iff.mp h
    have hle : s ≤ e := by
      have hl := after?_length h
      rw [List.length_drop, List.length_drop] at hl
      omega
    refine ⟨hs, hle, he, ⟨f, hf, ?_⟩, hr⟩
    rw [← slice_append_drop hle] at ht
    exact List.append_cancel_right ht

/-- both exports stand where each of them does -/
theorem stands_all_iff {text : List Char} {s e : Nat} :
    Stands Export.all text s e ↔ Stands [.internal] text s e ∧ Stands [.api] text s e := by
  rw [stands_iff, stands_iff, stands_iff, after?_all_iff]
  refine ⟨?_, ?_⟩
  · intro hx
    obtain ⟨hs, he, hi, ha⟩ := hx
    exact ⟨⟨hs, he, hi⟩, hs, he, ha⟩
  · intro hx
    obtain ⟨⟨hs, he, hi⟩, -, -, ha⟩ := hx
    exact ⟨hs, he, hi, ha⟩

theorem endAt?_eq_some_iff {wanted : List Export} {text : List Char} {s e : Nat} :
    endAt? wanted text s = some e ↔ Stands wanted text s e := by
  rw [stands_iff, endAt?]
  refine ⟨?_, ?_⟩
  · intro h
    split at h
    · next hs =>
      obtain ⟨r, hr, he⟩ := Option.map_eq_some_iff.mp h
      have hlen : text.length - r.length = e := he
      refine ⟨hs, by omega, ?_⟩
      -- what follows a declaration is the end of the text from some position on
      obtain ⟨f, -, ht, -⟩ := exists_form hr
      have hsuf : r <:+ text :=
        (List.suffix_append f.text r).trans (ht ▸ List.drop_suffix s text)
      have hd := List.suffix_iff_eq_drop.mp hsuf
      rw [hlen] at hd
      rw [hr, ← hd]
    · cases h
  · intro hx
    obtain ⟨hs, he, h⟩ := hx
    have hl : text.length - (text.drop e).length = e := by
      rw [List.length_drop]
      omega
    rw [if_pos hs, h, Option.map_some, hl]

/-- at most one end -/
theorem Stands.unique {wanted : List Export} {text : List Char} {s e e' : Nat}
    (h : Stands wanted text s e) (h' : Stands wanted text s e') : e = e' := by
  have h₁ := endAt?_eq_some_iff.mpr h
  rw [endAt?_eq_some_iff.mpr h'] at h₁
  exact (Option.some.inj h₁).symm

theorem Stands.lt {wanted : List Export} {text : List Char} {s e : Nat}
    (h : Stands wanted text s e) : s < e := by
  obtain ⟨-, he, ha⟩ := stands_iff.mp h
  have hl := after?_length ha
  rw [List.length_drop, List.length_drop] at hl
  omega

/-! ## leftmost lists -/

/-- the list that is got by taking, again and again, the smallest start at which `holds`, not before
`p` at first and not before the last end after that -/
def Leftmost (holds : Nat → Nat → Prop) : Nat → List (Nat × Nat) → Prop
  | p, [] => ∀ s e, p ≤ s → ¬ holds s e
  | p, (s, e) :: l =>
    p ≤ s ∧ holds s e ∧ (∀ s' e', p ≤ s' → s' < s → ¬ holds s' e') ∧ Leftmost holds e l

theorem Leftmost.eq {holds : Nat → Nat → Prop}
    (hu : ∀ {s e e'}, holds s e → holds s e' → e = e') :
    ∀ {p : Nat} {l l' : List (Nat × Nat)}, Leftmost holds p l → Leftmost holds p l' → l = l' := by
  intro p l
  induction l generalizing p with
  | nil =>
    intro l' h h'
    cases l' with
    | nil => rfl
    | cons q l' =>
      obtain ⟨s, e⟩ := q
      exact absurd h'.2.1 (h s e h'.1)
  | cons q l ih =>
    intro l' h h'
    obtain ⟨s, e⟩ := q
    obtain ⟨hp, hs, hmin, hrest⟩ := h
    cases l' with
    | nil => exact absurd hs (h' s e hp)
    | cons q' l' =>
      obtain ⟨s', e'⟩ := q'
      obtain ⟨hp', hs', hmin', hrest'⟩ := h'
      have hss : s = s' := by
        rcases Nat.lt_trichotomy s s' with hlt | heq | hgt
        · exact absurd hs (hmin' s e hp hlt)
        · exact heq
        · exact absurd hs' (hmin s' e' hp' hgt)
      subst hss
      obtain rfl : e = e' := hu hs hs'
      rw [ih hrest hrest']

theorem Leftmost.holds_of_mem {holds : Nat → Nat → Prop} {p : Nat} {l : List (Nat × Nat)}
    (h : Leftmost holds p l) : ∀ q ∈ l, holds q.1 q.2 := by
  induction l generalizing p with
  | nil =>
    intro q hq
    cases hq
  | cons q l ih =>
    obtain ⟨-, hh, -, hrest⟩ := h
    exact List.forall_mem_cons.mpr ⟨hh, ih hrest⟩

/-- a position at which nothing begins may be passed over -/
theorem Leftmost.back {holds : Nat → Nat → Prop} {p : Nat} (hp : ∀ e, ¬ holds p e)
    {l : List (Nat × Nat)} (h : Leftmost holds (p + 1) l) : Leftmost holds p l := by
  cases l with
  | nil =>
    intro s e hs hh
    rcases Nat.eq_or_lt_of_le hs with rfl | hlt
    · exact hp e hh
    · exact h s e hlt hh
  | cons q l =>
    obtain ⟨s, e⟩ := q
    obtain ⟨hs, hh, hmin, hrest⟩ := h
    refine ⟨by omega, hh, ?_, hrest⟩
    intro s' e' hs' hlt hh'
    rcases Nat.eq_or_lt_of_le hs' with rfl | hlt'
    · exact hp e' hh'
    · exact hmin s' e' hlt' hlt hh'

theorem startsLine_iff {a cs : List Char} :
    StartsLine (a ++ cs) a.length ↔ lineAfter true a = true := by
  by_cases ha : a = []
  · subst ha
    exact ⟨fun _ => rfl, fun _ => Or.inl rfl⟩
  · have hpos := List.length_pos_of_ne_nil ha
    have hget : (a ++ cs)[a.length - 1]? = a.getLast? := by
      rw [List.getElem?_append_left (by omega), List.getLast?_eq_getElem?]
    rw [StartsLine, hget]
    refine ⟨?_, ?_⟩
    · intro hx
      rcases hx with h | h
      · omega
      · rw [lineAfter_of_getLast? h]
        rfl
    · intro h
      exact Or.inr (getLast?_of_lineAfter ha h)

def Span.ends (sp : Span) : Nat × Nat := (sp.start, sp.stop)

/-- where the declarations of `wanted` stand in a text -/
def ends (wanted : List Export) (text : List Char) : List (Nat × Nat) :=
  (spans wanted text).map Span.ends

theorem leftmost_spansFrom (wanted : List Export) (lineStart : Bool) (cs : List Char) :
    ∀ a, lineAfter true a = lineStart →
      Leftmost (Stands wanted (a ++ cs)) a.length
        ((spansFrom a.length (piecesFrom wanted lineStart cs)).map Span.ends) := by
  induction lineStart, cs using cut_induction wanted with
  | nil lineStart =>
    intro a _
    rw [piecesFrom_nil]
    intro s e hs h
    have hlt := h.lt
    have hb := h.bounded
    rw [List.append_nil] at hb
    omega
  | declaration s rest h ih =>
    intro a ha
    have hst : Stands wanted (a ++ (s ++ rest)) a.length (a.length + s.length) := by
      rw [stands_iff]
      refine ⟨startsLine_iff.mpr ha, by simp only [List.length_append]; omega, ?_⟩
      rw [List.drop_left, ← List.append_assoc, ← List.length_append, List.drop_left]
      exact h
    have hnext := ih (a ++ s) (by rw [lineAfter_append]; exact lineAfter_declaration h _)
    rw [List.append_assoc, List.length_append] at hnext
    rw [piecesFrom_declaration h]
    refine ⟨Nat.le_refl a.length, hst, ?_, hnext⟩
    intro s' e' hge hlt
    exact absurd hlt (Nat.not_lt.mpr hge)
  | kept lineStart c r h ih =>
    intro a ha
    have hno : ∀ e, ¬ Stands wanted (a ++ c :: r) a.length e := by
      intro e hst
      obtain ⟨hs, -, hr⟩ := stands_iff.mp hst
      rw [startsLine_iff, ha] at hs
      rw [List.drop_left, h hs] at hr
      cases hr
    have hnext := ih (a ++ [c]) (by rw [lineAfter_append]; rfl)
    rw [List.append_assoc, List.length_append] at hnext
    rw [piecesFrom_kept h]
    exact hnext.back hno

theorem leftmost_ends (wanted : List Export) (text : List Char) :
    Leftmost (Stands wanted text) 0 (ends wanted text) :=
  leftmost_spansFrom wanted true text [] rfl

theorem stands_of_mem_spans {wanted : List Export} {text : List Char} {sp : Span}
    (h : sp ∈ spans wanted text) : Stands wanted text sp.start sp.stop :=
  (leftmost_ends wanted text).holds_of_mem _ (List.mem_map_of_mem h)

/-! ## the spans of a cut -/

theorem spansFrom_append (ps qs : List Piece) (pos : Nat) :
    spansFrom pos (ps ++ qs) =
      spansFrom pos ps ++ spansFrom (pos + (ps.flatMap Piece.source).length) qs := by
  induction ps generalizing pos with
  | nil => rfl
  | cons p ps ih =>
    cases p with
    | kept c =>
      show spansFrom (pos + 1) (ps ++ qs) = spansFrom (pos + 1) ps ++ _
      rw [ih, List.flatMap_cons, List.length_append, ← Nat.add_assoc]
      rfl
    | declaration s =>
      show ⟨pos, pos + s.length, s⟩ :: spansFrom (pos + s.length) (ps ++ qs) =
        ⟨pos, pos + s.length, s⟩ :: (spansFrom (pos + s.length) ps ++ _)
      rw [ih, List.flatMap_cons, List.length_append, ← Nat.add_assoc]
      rfl

theorem spansFrom_map_kept (s : List Char) (pos : Nat) : spansFrom pos (s.map .kept) = [] := by
  induction s generalizing pos with
  | nil => rfl
  | cons c s ih => exact ih (pos + 1)

theorem spansFrom_sift (wanted : List Export) (ps : List Piece) (pos : Nat) :
    spansFrom pos (ps.flatMap (Piece.sift wanted)) =
      (spansFrom pos ps).filter fun sp => declares wanted sp.source := by
  induction ps generalizing pos with
  | nil => rfl
  | cons p ps ih =>
    rw [List.flatMap_cons]
    cases p with
    | kept c => exact ih (pos + 1)
    | declaration s =>
      rw [spansFrom, List.filter_cons, Piece.sift]
      by_cases hd : declares wanted s = true
      · rw [if_pos hd, if_pos hd, ← ih]
        rfl
      · have hsrc : ((s.map Piece.kept).flatMap Piece.source) = s :=
          Piece.flatMap_map_kept (fun c => rfl) s
        rw [if_neg hd, if_neg hd, spansFrom_append, spansFrom_map_kept, hsrc, ih]
        rfl

/-- **One list of spans for all names.** -/
theorem spans_eq_filter (wanted : List Export) (text : List Char) :
    spans wanted text = (spans [] text).filter fun sp => declares wanted sp.source := by
  rw [spans, pieces_eq_sift, spansFrom_sift]
  rfl

theorem mem_spans_iff {wanted : List Export} {text : List Char} {sp : Span} :
    sp ∈ spans wanted text ↔ sp ∈ spans [] text ∧ declares wanted sp.source = true := by
  rw [spans_eq_filter, List.mem_filter]

theorem mem_spans_all_iff {text : List Char} {sp : Span} :
    sp ∈ spans Export.all text ↔ sp ∈ spans [.internal] text ∧ sp ∈ spans [.api] text := by
  rw [@mem_spans_iff Export.all, @mem_spans_iff [.internal], @mem_spans_iff [.api], declares_all,
    Bool.and_eq_true]
  refine ⟨?_, ?_⟩
  · intro h
    obtain ⟨hs, hi, ha⟩ := h
    exact ⟨⟨hs, hi⟩, hs, ha⟩
  · intro h
    obtain ⟨⟨hs, hi⟩, -, ha⟩ := h
    exact ⟨hs, hi, ha⟩

theorem le_start_of_mem {ps : List Piece} {pos : Nat} {sp : Span} (h : sp ∈ spansFrom pos ps) :
    pos ≤ sp.start := by
  induction ps generalizing pos with
  | nil => cases h
  | cons p ps ih =>
    cases p with
    | kept c =>
      have hle : pos + 1 ≤ sp.start := ih h
      omega
    | declaration s =>
      rcases List.mem_cons.mp h with rfl | h
      · exact Nat.le_refl _
      · have := ih h
        omega

theorem pairwise_spansFrom (ps : List Piece) (pos : Nat) :
    (spansFrom pos ps).Pairwise fun a b => a.stop ≤ b.start := by
  induction ps generalizing pos with
  | nil => exact List.Pairwise.nil
  | cons p ps ih =>
    cases p with
    | kept c => exact ih (pos + 1)
    | declaration s => exact List.Pairwise.cons (fun b hb => le_start_of_mem hb) (ih _)

theorem pairwise_spans (wanted : List Export) (text : List Char) :
    (spans wanted text).Pairwise fun a b => a.stop ≤ b.start := pairwise_spansFrom _ 0

theorem span_at {text : List Char} {ps : List Piece} {pos : Nat} {sp : Span}
    (hps : ps.flatMap Piece.source = text.drop pos) (h : sp ∈ spansFrom pos ps) :
    sp.stop = sp.start + sp.source.length ∧ slice text sp.start sp.stop = sp.source := by
  induction ps generalizing pos with
  | nil => cases h
  | cons p ps ih =>
    have hdrop : ∀ u v : List Char, u ++ v = text.drop pos → v = text.drop (pos + u.length) := by
      intro u v huv
      rw [← List.drop_drop, ← huv, List.drop_left]
    rw [List.flatMap_cons] at hps
    cases p with
    | kept c => exact ih (hdrop _ _ hps) h
    | declaration s =>
      rcases List.mem_cons.mp h with rfl | h
      · refine ⟨rfl, ?_⟩
        show (text.take (pos + s.length)).drop pos = s
        have hs : s ++ ps.flatMap Piece.source = text.drop pos := hps
        rw [List.drop_take, Nat.add_sub_cancel_left, ← hs, List.take_left]
      · exact ih (hdrop _ _ hps) h

theorem slice_of_mem_spans {wanted : List Export} {text : List Char} {sp : Span}
    (h : sp ∈ spans wanted text) : slice text sp.start sp.stop = sp.source :=
  (span_at (flatMap_source_pieces wanted text) h).2

/-! ## the grammar and the spans -/

theorem exists_span_iff {ps : List Piece} {pos : Nat} {s : List Char} :
    (∃ sp ∈ spansFrom pos ps, sp.source = s) ↔ .declaration s ∈ ps := by
  induction ps generalizing pos with
  | nil => simp [spansFrom]
  | cons p ps ih =>
    cases p with
    | kept c =>
      rw [List.mem_cons, spansFrom, ih]
      simp
    | declaration t =>
      rw [List.mem_cons, spansFrom, ← @ih (pos + t.length)]
      simp [eq_comm]

theorem exists_mem_spans_iff {wanted : List Export} {text s : List Char} :
    (∃ sp ∈ spans wanted text, sp.source = s) ↔ .declaration s ∈ pieces wanted text :=
  exists_span_iff

theorem occurs_iff_exists_span {wanted : List Export} {text : List Char} :
    occurs wanted text = true ↔ ∃ sp, sp ∈ spans wanted text := by
  rw [occurs_iff]
  constructor
  · intro hx
    obtain ⟨s, hs⟩ := hx
    obtain ⟨sp, hsp, -⟩ := exists_mem_spans_iff.mpr hs
    exact ⟨sp, hsp⟩
  · intro hx
    obtain ⟨sp, hsp⟩ := hx
    exact ⟨sp.source, exists_mem_spans_iff.mp ⟨sp, hsp, rfl⟩⟩

theorem occurs_iff_stands {wanted : List Export} {text : List Char} :
    occurs wanted text = true ↔ ∃ s e, Stands wanted text s e := by
  rw [occurs_iff_exists_span]
  constructor
  · intro hx
    obtain ⟨sp, hsp⟩ := hx
    exact ⟨sp.start, sp.stop, stands_of_mem_spans hsp⟩
  · intro hx
    obtain ⟨s, e, h⟩ := hx
    have hl := leftmost_ends wanted text
    cases hsp : spans wanted text with
    | nil =>
      rw [ends, hsp] at hl
      exact absurd h (hl s e (Nat.zero_le s))
    | cons sp sps => exact ⟨sp, List.mem_cons_self⟩

/-- a declaration of both exports, begun a line earlier, and one of the second export -/
def nestedText : List Char :=
  "import \x7b\nimport \x7binternal,api\x7d ".toList ++ "from './_generated/api'\n".toList ++
    "import \x7bapi\x7d ".toList ++ "from \"../_generated/api.js\"; //".toList

def Span.Apart (a b : Span) : Prop := a.stop ≤ b.start ∨ b.stop ≤ a.start

theorem eq_or_apart {text : List Char} {a b : Span} (ha : a ∈ spans [] text)
    (hb : b ∈ spans [] text) : a = b ∨ a.Apart b := by
  have hp : (spans [] text).Pairwise fun a b => a = b ∨ a.Apart b :=
    (pairwise_spans [] text).imp fun h => Or.inr (Or.inl h)
  have : Std.Symm fun a b : Span => a = b ∨ a.Apart b := ⟨fun _ _ h => h.imp Eq.symm Or.symm⟩
  have hself : ∀ a ∈ spans [] text, a = a ∨ a.Apart a := fun _ _ => Or.inl rfl
  exact List.Pairwise.forall_of_forall hself hp ha hb

theorem mem_ends_all_iff {text : List Char} {s e : Nat} :
    (s, e) ∈ ends Export.all text ↔ (s, e) ∈ ends [.internal] text ∧ (s, e) ∈ ends [.api] text := by
  simp only [ends, List.mem_map]
  refine ⟨?_, ?_⟩
  · intro hx
    obtain ⟨sp, hsp, he⟩ := hx
    obtain ⟨hi, ha⟩ := mem_spans_all_iff.mp hsp
    exact ⟨⟨sp, hi, he⟩, sp, ha, he⟩
  · intro hx
    obtain ⟨⟨sp, hi, he⟩, sp', ha, he'⟩ := hx
    have hsame : sp = sp' := by
      have hst := congrArg Prod.fst (he.trans he'.symm)
      have hsp := congrArg Prod.snd (he.trans he'.symm)
      have hsrc := slice_of_mem_spans hi
      rw [show sp.start = sp'.start from hst, show sp.stop = sp'.stop from hsp,
        slice_of_mem_spans ha] at hsrc
      cases sp
      cases sp'
      simp_all [Span.ends]
    exact ⟨sp, mem_spans_all_iff.mpr ⟨hi, hsame ▸ ha⟩, he⟩

/-- a span for one export is a span for both, or apart from all of those -/
theorem mem_spans_all_or_apart {x : Export} {text : List Char} {a : Span}
    (ha : a ∈ spans [x] text) :
    a ∈ spans Export.all text ∨ ∀ b ∈ spans Export.all text, a.Apart b := by
  by_cases hall : a ∈ spans Export.all text
  · exact Or.inl hall
  · right
    intro b hb
    rcases eq_or_apart (mem_spans_iff.mp ha).1 (mem_spans_iff.mp hb).1 with rfl | h
    · exact absurd hb hall
    · exact h

end Declaration

end Rebind
