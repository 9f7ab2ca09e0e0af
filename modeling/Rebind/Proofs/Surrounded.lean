import Rebind.Proofs.Spans

/-!
# A text among other lines

A text `t` is put between `a` and `b` as whole lines: `a` is empty or ends a line, and `b` is empty
or begins with a line feed.  What `a` and `b` hold is free, so `a` may leave braces and quotes open
and bring imports of its own.

* `startsLine_surrounded`    lines begin in `t` where they began before;
* `lineStops_append_iff`     lines stop in `t` where they stopped before;
* `stands_surrounded_iff`    so the grammar holds within `t` exactly where it held before.

Which declarations the cut takes may well change: an opening that `a` leaves open takes in the first
declaration of `t`.  That the text holds an import does not change, because the grammar holds
somewhere iff the cut finds something (`occurs_iff_stands`).
-/

namespace Rebind

namespace Declaration

def EndsLine (a : List Char) : Prop := a = [] ∨ a.getLast? = some '\n'

theorem EndsLine.lineAfter {a : List Char} (h : EndsLine a) : lineAfter true a = true := by
  rcases h with rfl | h
  · rfl
  · rw [lineAfter_of_getLast? h]
    rfl

/-! ## where lines begin and stop -/

theorem startsLine_surrounded {a t b : List Char} (ha : EndsLine a) {s : Nat}
    (hs : s ≤ t.length) : StartsLine (a ++ t ++ b) (a.length + s) ↔ StartsLine t s := by
  have hlen : (t.take s).length = s := List.length_take_of_le hs
  have ht : StartsLine t s ↔ Declaration.lineAfter true (t.take s) = true := by
    have h := @startsLine_iff (t.take s) (t.drop s)
    rwa [List.take_append_drop, hlen] at h
  have hin : StartsLine (a ++ t ++ b) (a.length + s) ↔
      Declaration.lineAfter true (a ++ t.take s) = true := by
    have h := @startsLine_iff (a ++ t.take s) (t.drop s ++ b)
    have hcut : a ++ t.take s ++ (t.drop s ++ b) = a ++ t ++ b := by
      rw [← List.append_assoc, List.append_assoc a, List.take_append_drop]
    rwa [hcut, List.length_append, hlen] at h
  rw [hin, ht, lineAfter_append, ha.lineAfter]

theorem atLineFeed_append_iff {r b : List Char} (hb : AtLineFeed b) :
    AtLineFeed (r ++ b) ↔ AtLineFeed r := by
  cases r with
  | nil => exact ⟨fun _ => Or.inl rfl, fun _ => hb⟩
  | cons c r => simp [AtLineFeed]

theorem lineStops_append_iff {r b : List Char} (hb : AtLineFeed b) :
    LineStops (r ++ b) ↔ LineStops r := by
  cases r with
  | nil => exact ⟨fun _ => Or.inl (Or.inl rfl), fun _ => Or.inl hb⟩
  | cons c r =>
    have hreturn : (∃ t, c :: (r ++ b) = '\r' :: t ∧ AtLineFeed t) ↔
        ∃ t, c :: r = '\r' :: t ∧ AtLineFeed t := by
      simp only [List.cons.injEq]
      constructor
      · intro h
        obtain ⟨_, ⟨hc, rfl⟩, ht⟩ := h
        exact ⟨r, ⟨hc, rfl⟩, (atLineFeed_append_iff hb).mp ht⟩
      · intro h
        obtain ⟨_, ⟨hc, rfl⟩, ht⟩ := h
        exact ⟨r ++ b, ⟨hc, rfl⟩, (atLineFeed_append_iff hb).mpr ht⟩
    exact or_congr (atLineFeed_append_iff (r := c :: r) hb) hreturn

/-! ## the grammar within the text -/

theorem slice_surrounded (a b : List Char) {t : List Char} (s : Nat) {e : Nat}
    (he : e ≤ t.length) : slice (a ++ t ++ b) (a.length + s) (a.length + e) = slice t s e := by
  have htake : (a ++ t ++ b).take (a.length + e) = a ++ t.take e := by
    rw [List.append_assoc, List.take_length_add_append, List.take_append_of_le_length he]
  rw [slice, htake, List.drop_length_add_append]
  rfl

/-- **Other lines change nothing within a text**: the grammar holds there where it held before. -/
theorem stands_surrounded_iff {wanted : List Export} {a t b : List Char} (ha : EndsLine a)
    (hb : AtLineFeed b) {s e : Nat} (he : e ≤ t.length) :
    Stands wanted (a ++ t ++ b) (a.length + s) (a.length + e) ↔ Stands wanted t s e := by
  have hdrop : (a ++ t ++ b).drop (a.length + e) = t.drop e ++ b := by
    rw [List.append_assoc, List.drop_length_add_append, List.drop_append_of_le_length he]
  constructor
  · intro h
    have hse : s ≤ e := Nat.le_of_add_le_add_left h.ordered
    have hform := h.form
    have hstop := h.stop
    rw [slice_surrounded a b s he] at hform
    rw [hdrop, lineStops_append_iff hb] at hstop
    exact ⟨(startsLine_surrounded ha (by omega)).mp h.start, hse, he, hform, hstop⟩
  · intro h
    have hse := h.ordered
    refine ⟨(startsLine_surrounded ha (by omega)).mpr h.start, by omega, ?_, ?_, ?_⟩
    · rw [List.length_append, List.length_append]
      omega
    · rw [slice_surrounded a b s he]
      exact h.form
    · rw [hdrop, lineStops_append_iff hb]
      exact h.stop

theorem occurs_surrounded {wanted : List Export} {a t b : List Char} (ha : EndsLine a)
    (hb : AtLineFeed b) (h : occurs wanted t = true) : occurs wanted (a ++ t ++ b) = true := by
  obtain ⟨s, e, hst⟩ := occurs_iff_stands.mp h
  exact occurs_iff_stands.mpr
    ⟨a.length + s, a.length + e, (stands_surrounded_iff ha hb hst.bounded).mpr hst⟩

/-- **Other lines hide no import**: a text that is put among other lines keeps, place by place, what
the grammar finds in it, so an export that it imports is imported in the whole, and so are both
together. -/
theorem hasImport_surrounded {a b : List Char} (ha : EndsLine a) (hb : AtLineFeed b)
    (t : List Char) :
    (∀ x, hasImport x t = true → hasImport x (a ++ t ++ b) = true) ∧
    (occurs Export.all t = true → occurs Export.all (a ++ t ++ b) = true) ∧
    ∀ wanted s e, e ≤ t.length →
      (Stands wanted (a ++ t ++ b) (a.length + s) (a.length + e) ↔ Stands wanted t s e) := by
  refine ⟨?_, ?_, ?_⟩
  · intro x h
    exact occurs_surrounded ha hb h
  · intro h
    exact occurs_surrounded ha hb h
  · intro wanted s e he
    exact stands_surrounded_iff ha hb he

/-- an opening that is left open, on a line of its own -/
def openText : List Char := "import \x7b x, '\n".toList

/-- a declaration of both exports whose line ends in a carriage return -/
def closedText : List Char := "import \x7bapi, internal\x7d from '../_generated/api'\r".toList

/-- an empty line and a lone brace -/
def braceText : List Char := "\n\n\x7d".toList

/-- the declaration is found, though now from the opening above it on -/
theorem hasImport_surrounded_openText :
    EndsLine openText ∧ AtLineFeed braceText ∧ hasImport .api closedText = true ∧
      hasImport .api (openText ++ closedText ++ braceText) = true ∧
      occurs Export.all (openText ++ closedText ++ braceText) = true ∧
      ends [.api] closedText = [(0, 47)] ∧
      ends [.api] (openText ++ closedText ++ braceText) = [(0, 61)] := by
  have ha : EndsLine openText := Or.inr (by decide)
  have hb : AtLineFeed braceText := Or.inr (by decide)
  have hone : hasImport .api closedText = true := by decide +kernel
  have hall : occurs Export.all closedText = true := by decide +kernel
  obtain ⟨hfound, hboth, -⟩ := hasImport_surrounded ha hb closedText
  exact ⟨ha, hb, hone, hfound .api hone, hboth hall, by decide +kernel, by decide +kernel⟩

end Declaration

end Rebind
