import Rebind.Proofs.Accepted

/-!
# Where the patterns match

Readings of a pattern at a position are the forms that stand there (`stands_of_reads`,
`reads_of_stands`), and a form has one end.  So

* the match at a position is what stands there (`matchAt_eq_some_iff`);
* the matches of a text, from left to right, are the leftmost list of the grammar
  (`leftmost_findFrom`), and so the spans that the reader of declarations finds
  (`findAll_eq_ends`);
* a text with a block in the place of each match is the one with a block in the place of each
  declaration (`replace_eq_sub`).
-/

namespace Rebind

namespace Sought

open Pattern Declaration

/-! ## at a position -/

theorem lineBegins_iff {text : List Char} {s : Nat} (hs : s ≤ text.length) :
    LineBegins (text.take s).reverse ↔ StartsLine text s := by
  rw [LineBegins, List.head?_reverse, List.getLast?_take, StartsLine]
  cases s with
  | zero => simp
  | succ s =>
    rw [if_neg (Nat.succ_ne_zero s), Nat.add_sub_cancel, List.getElem?_eq_getElem hs]
    simp

/-- what a pattern may read at a position stands there -/
theorem stands_of_reads {q : Sought} {text w r : List Char} {s : Nat} (hc : text.drop s = w ++ r)
    (h : q.pattern.Reads (text.take s).reverse w r) :
    Stands q.exports text s (s + w.length) := by
  obtain ⟨hl, ⟨f, hnames, rfl⟩, hr⟩ := reads_pattern.mp h
  have ha : after? q.exports (text.drop s) = some r :=
    after?_eq_some_iff.mpr ⟨f, hnames, hc, hr⟩
  have hlen := congrArg List.length hc
  have hlt := after?_length ha
  simp only [List.length_drop, List.length_append] at hlen hlt
  have hd : text.drop (s + f.text.length) = r := by
    rw [← List.drop_drop, hc, List.drop_left]
  exact stands_iff.mpr ⟨(lineBegins_iff (by omega)).mp hl, by omega, by rw [hd, ha]⟩

theorem reads_of_stands {q : Sought} {text : List Char} {s e : Nat}
    (h : Stands q.exports text s e) :
    q.pattern.Reads (text.take s).reverse (slice text s e) (text.drop e) :=
  have hs := Nat.le_trans h.ordered h.bounded
  reads_pattern.mpr ⟨(lineBegins_iff hs).mpr h.start, h.form, h.stop⟩

/-- **The match at a position is what stands there.** -/
theorem matchAt_eq_some_iff {q : Sought} {text : List Char} {s e : Nat} :
    q.pattern.matchAt text s = some e ↔ Stands q.exports text s e := by
  have sound : ∀ {e}, q.pattern.matchAt text s = some e → Stands q.exports text s e := by
    intro e h
    obtain ⟨w, r, hc, hw, rfl⟩ := exists_reads_of_matchAt h
    have hst := stands_of_reads hc hw
    have hle := Nat.le_trans (Nat.le_add_right s w.length) hst.bounded
    have hs : (text.take s).length = s := by
      rw [List.length_take]
      exact Nat.min_eq_left hle
    rwa [hs]
  refine ⟨sound, fun h => ?_⟩
  have hsome := matchAt_isSome_of_reads (slice_append_drop h.ordered).symm (reads_of_stands h)
  obtain ⟨e', he'⟩ := Option.isSome_iff_exists.mp hsome
  rw [he', h.unique (sound he')]

/-- whichever reading is come to, it ends where the match does -/
theorem matchAt_of_reads {q : Sought} {text w r : List Char} {s : Nat} (hc : text.drop s = w ++ r)
    (h : q.pattern.Reads (text.take s).reverse w r) :
    q.pattern.matchAt text s = some (s + w.length) :=
  matchAt_eq_some_iff.mpr (stands_of_reads hc h)

/-! ## from left to right -/

theorem leftmost_findFrom {holds : Nat → Nat → Prop} {endAt? : Nat → Option Nat} {n : Nat}
    (hread : ∀ s e, endAt? s = some e ↔ holds s e) (hlt : ∀ s e, holds s e → s < e)
    (hbound : ∀ s e, holds s e → s < n) (m s p : Nat) (hm : s + m = n) :
    Leftmost holds (max s p) (findFrom endAt? (List.range' s m) p) := by
  induction m generalizing s p with
  | zero =>
    intro s' e hs' h
    have := hbound s' e h
    omega
  | succ m ih =>
    rw [List.range'_succ, findFrom]
    have hnext := fun p => ih (s + 1) p (by omega)
    by_cases hsp : s < p
    · rw [if_pos hsp, Nat.max_eq_right (Nat.le_of_lt hsp)]
      have h := hnext p
      rwa [Nat.max_eq_right hsp] at h
    · rw [if_neg hsp, Nat.max_eq_left (Nat.le_of_not_lt hsp)]
      cases he : endAt? s with
      | none =>
        have h := hnext p
        rw [Nat.max_eq_left (by omega)] at h
        refine h.back fun e hh => ?_
        rw [(hread s e).mpr hh] at he
        cases he
      | some e =>
        have hh := (hread s e).mp he
        have h := hnext e
        rw [Nat.max_eq_right (hlt s e hh)] at h
        exact ⟨Nat.le_refl s, hh, fun s' e' hge hl => absurd hl (Nat.not_lt.mpr hge), h⟩

theorem leftmost_findAll (q : Sought) (text : List Char) :
    Leftmost (Stands q.exports text) 0 (q.pattern.findAll text) := by
  have hbound : ∀ s e, Stands q.exports text s e → s < text.length + 1 := fun s e h =>
    Nat.lt_succ_of_le (Nat.le_trans h.ordered h.bounded)
  have h := leftmost_findFrom (fun s e => matchAt_eq_some_iff (q := q)) (fun s e h => h.lt) hbound
    (text.length + 1) 0 0 (Nat.zero_add _)
  rwa [← List.range_eq_range'] at h

/-- **The matches of a pattern are the spans of the declarations.** -/
theorem findAll_eq_ends (q : Sought) (text : List Char) :
    q.pattern.findAll text = ends q.exports text :=
  (leftmost_findAll q text).eq (fun h h' => h.unique h') (leftmost_ends q.exports text)

theorem head?_findFrom (endAt? : Nat → Option Nat) (ss : List Nat) :
    (findFrom endAt? ss 0).head? = ss.findSome? fun s => (endAt? s).map (s, ·) := by
  induction ss with
  | nil => rfl
  | cons s ss ih =>
    rw [findFrom, if_neg (Nat.not_lt_zero s), List.findSome?_cons]
    cases endAt? s with
    | none => exact ih
    | some e => rfl

/-- a search finds the first of the matches -/
theorem search?_eq_head? (p : Pattern) (text : List Char) :
    p.search? text = (p.findAll text).head? :=
  (head?_findFrom (p.matchAt text) (List.range (text.length + 1))).symm

theorem isSome_search? (q : Sought) (text : List Char) :
    (q.pattern.search? text).isSome = occurs q.exports text := by
  rw [Bool.eq_iff_iff, occurs_iff_exists_span, search?_eq_head?, findAll_eq_ends, ends,
    List.head?_map, Option.isSome_map]
  cases spans q.exports text with
  | nil => simp
  | cons sp sps => simp

/-! ## blocks in the place of matches -/

theorem fill_cons {block text : List Char} {p : Nat} {c : Char} {cs : List Char}
    (hp : text.drop p = c :: cs) {l : List (Nat × Nat)} (hl : ∀ x ∈ l, p + 1 ≤ x.1) :
    fill block text p l = c :: fill block text (p + 1) l := by
  have hnext : text.drop (p + 1) = cs := by
    rw [← List.drop_drop, hp, List.drop_one, List.tail_cons]
  cases l with
  | nil => rw [fill, fill, hp, hnext]
  | cons x l =>
    obtain ⟨s, e⟩ := x
    have hs : p + 1 ≤ s := hl (s, e) List.mem_cons_self
    have hcut : (text.take s).drop p = c :: (text.take s).drop (p + 1) := by
      rw [List.drop_take, List.drop_take, hp, hnext]
      obtain ⟨k, hk⟩ : ∃ k, s - p = k + 1 := ⟨s - p - 1, by omega⟩
      rw [hk, List.take_succ_cons, show s - (p + 1) = k by omega]
    rw [fill, fill, hcut]
    rfl

theorem fill_spansFrom (block text : List Char) (ps : List Piece) (pos : Nat)
    (hps : ps.flatMap Piece.source = text.drop pos) :
    fill block text pos ((spansFrom pos ps).map Span.ends) =
      ps.flatMap (Piece.withBlock block) := by
  induction ps generalizing pos with
  | nil => exact hps.symm
  | cons p ps ih =>
    rw [List.flatMap_cons] at hps
    cases p with
    | kept c =>
      have hp : text.drop pos = c :: ps.flatMap Piece.source := hps.symm
      have hnext : ps.flatMap Piece.source = text.drop (pos + 1) := by
        rw [← List.drop_drop, hp, List.drop_one, List.tail_cons]
      have hl : ∀ x ∈ (spansFrom (pos + 1) ps).map Span.ends, pos + 1 ≤ x.1 := by
        intro x hx
        obtain ⟨sp, hsp, rfl⟩ := List.mem_map.mp hx
        exact le_start_of_mem hsp
      rw [spansFrom, fill_cons hp hl, ih (pos + 1) hnext]
      rfl
    | declaration s =>
      have hp : s ++ ps.flatMap Piece.source = text.drop pos := hps
      have hnext : ps.flatMap Piece.source = text.drop (pos + s.length) := by
        rw [← List.drop_drop, ← hp, List.drop_left]
      show (text.take pos).drop pos ++ block ++
        fill block text (pos + s.length) ((spansFrom (pos + s.length) ps).map Span.ends) = _
      rw [ih _ hnext, List.drop_take, Nat.sub_self, List.take_zero]
      rfl

/-- **Blocks for matches are blocks for declarations.** -/
theorem replace_eq_sub (q : Sought) (block text : List Char) :
    replace q.exports block text = q.pattern.sub block text := by
  rw [sub, findAll_eq_ends]
  exact (fill_spansFrom block text (pieces q.exports text) 0
    (flatMap_source_pieces q.exports text)).symm

/-! ## one grammar for the three patterns -/

/-- **The patterns accept exactly one grammar.**  For each of the three patterns and every text:
the match at a position is what the grammar says; whatever the pattern may read there ends where
the match does, so the order of tries never decides; the matches from left to right are the one
leftmost list of the grammar, and they are the spans that are worked with, each with the characters
between its ends; a start has at most one end; a search succeeds iff the grammar holds somewhere,
and an import is found iff the search for its export succeeds; and the text with a block in the
place of each match is the one with a block in the place of each declaration. -/
theorem patterns_accept_grammar (q : Sought) (text : List Char) :
    (∀ s e, q.pattern.matchAt text s = some e ↔ Stands q.exports text s e) ∧
    (∀ s w r, text.drop s = w ++ r → q.pattern.Reads (text.take s).reverse w r →
      q.pattern.matchAt text s = some (s + w.length)) ∧
    (∀ l, Leftmost (Stands q.exports text) 0 l ↔ l = q.pattern.findAll text) ∧
    (spans q.exports text).map Span.ends = q.pattern.findAll text ∧
    (∀ sp ∈ spans q.exports text, sp.source = slice text sp.start sp.stop) ∧
    (∀ s e e', Stands q.exports text s e → Stands q.exports text s e' → e = e') ∧
    ((q.pattern.search? text).isSome = true ↔ ∃ s e, Stands q.exports text s e) ∧
    (∀ x, hasImport x text = ((one x).pattern.search? text).isSome ∧
      (hasImport x text = true ↔ ∃ s e, Stands [x] text s e)) ∧
    (∀ block, replace q.exports block text = q.pattern.sub block text) := by
  refine ⟨fun s e => matchAt_eq_some_iff, fun s w r => matchAt_of_reads, fun l => ⟨fun h => ?_,
    fun h => ?_⟩, (findAll_eq_ends q text).symm, fun sp hsp => (slice_of_mem_spans hsp).symm,
    fun s e e' h h' => h.unique h', ?_, fun x => ⟨(isSome_search? (one x) text).symm,
    occurs_iff_stands⟩, fun block => replace_eq_sub q block text⟩
  · exact h.eq (fun h₁ h₂ => h₁.unique h₂) (leftmost_findAll q text)
  · rw [h]
    exact leftmost_findAll q text
  · rw [isSome_search?]
    exact occurs_iff_stands

theorem patterns_accept_nestedText :
    (one .api).pattern.matchAt nestedText 9 = some 54 ∧
      (one .api).pattern.matchAt nestedText 0 = some 54 ∧
      (one .api).pattern.findAll nestedText = [(0, 54), (55, 99)] ∧
      hasImport .internal nestedText = true := by
  obtain ⟨hread, -, -, hall, -, -, -, himport, -⟩ := patterns_accept_grammar (one .api) nestedText
  have hinner : Stands [.api] nestedText 9 54 := endAt?_eq_some_iff.mp (by decide +kernel)
  have houter : Stands [.api] nestedText 0 54 := endAt?_eq_some_iff.mp (by decide +kernel)
  have hinternal : Stands [.internal] nestedText 0 54 := endAt?_eq_some_iff.mp (by decide +kernel)
  refine ⟨(hread 9 54).mpr hinner, (hread 0 54).mpr houter, ?_,
    (himport .internal).2.mpr ⟨0, 54, hinternal⟩⟩
  rw [← hall]
  decide +kernel

/-- **The pattern for both exports matches where each of the two others does**: at every position it
matches as both of them do, its matches are those that are matches of both, and a match for one
export that is not among them has no position in common with any of them. -/
theorem both_eq_inter (text : List Char) :
    (∀ s e, both.pattern.matchAt text s = some e ↔
      (one .internal).pattern.matchAt text s = some e ∧
        (one .api).pattern.matchAt text s = some e) ∧
    (∀ s e, (s, e) ∈ both.pattern.findAll text ↔
      (s, e) ∈ (one .internal).pattern.findAll text ∧ (s, e) ∈ (one .api).pattern.findAll text) ∧
    (∀ x, ∀ a ∈ (one x).pattern.findAll text, a ∈ both.pattern.findAll text ∨
      ∀ b ∈ both.pattern.findAll text, a.2 ≤ b.1 ∨ b.2 ≤ a.1) := by
  simp only [matchAt_eq_some_iff, findAll_eq_ends]
  refine ⟨fun s e => stands_all_iff, fun s e => mem_ends_all_iff, ?_⟩
  intro x a ha
  obtain ⟨sp, hsp, rfl⟩ := List.mem_map.mp ha
  rcases mem_spans_all_or_apart hsp with hall | happart
  · exact Or.inl (List.mem_map_of_mem hall)
  · right
    intro b hb
    obtain ⟨sp', hsp', rfl⟩ := List.mem_map.mp hb
    exact happart sp' hsp'

theorem both_eq_inter_nestedText :
    (0, 54) ∈ both.pattern.findAll nestedText ∧
      both.pattern.matchAt nestedText 9 = some 54 ∧
      (55, 99) ∈ (one .api).pattern.findAll nestedText ∧
      ∀ b ∈ both.pattern.findAll nestedText, 99 ≤ b.1 ∨ b.2 ≤ 55 := by
  obtain ⟨hread, hall, hapart⟩ := both_eq_inter nestedText
  have hinternal : (one .internal).pattern.matchAt nestedText 9 = some 54 ∧
      (one .internal).pattern.findAll nestedText = [(0, 54)] := by
    decide +kernel
  have hapi : (one .api).pattern.matchAt nestedText 9 = some 54 ∧
      (one .api).pattern.findAll nestedText = [(0, 54), (55, 99)] := by
    decide +kernel
  have hmem : (55, 99) ∈ (one .api).pattern.findAll nestedText := by
    rw [hapi.2]
    decide
  have hnot : (55, 99) ∉ both.pattern.findAll nestedText := by
    rw [hall, hinternal.2]
    decide
  refine ⟨(hall 0 54).mpr ?_, (hread 9 54).mpr ⟨hinternal.1, hapi.1⟩, hmem,
    (hapart .api (55, 99) hmem).resolve_left hnot⟩
  rw [hinternal.2, hapi.2]
  decide

end Sought

end Rebind
