import Rebind.Proofs.Blocks
import Rebind.Proofs.Spans

/-!
# All replacements at once

Fixing a text may take two passes, and the second works on what the first has left.  Here the
result is compared with one that is got from the text as it was, position by position:

* `Patch`            a block for the characters between two positions;
* `Patch.instead`    what stands for one character: the block of a patch that starts there, nothing
                     inside a patch, and else the character itself;
* `Patch.applyAll`   all patches at once.

A list of patches does what `patchWith` does along the cut, in whatever order the patches are listed
(`applyAll_eq_patchWith`).  With `patchWith_patchWith` the two passes, in either order, are one
simultaneous replacement.
-/

namespace Rebind

/-- a block for the characters from `start` to `stop`, `stop` excluded -/
structure Patch where
  start : Nat
  stop : Nat
  block : List Char

namespace Patch

/-- what stands for the character `c` at position `i` -/
def instead (ps : List Patch) (c : Char) (i : Nat) : List Char :=
  match ps.find? fun p => p.start == i with
  | some p => p.block
  | none => if ps.any fun p => p.start < i && i < p.stop then [] else [c]

def applyAll (ps : List Patch) (text : List Char) : List Char :=
  text.zipIdx.flatMap fun ci => instead ps ci.1 ci.2

/-! ## position by position -/

section
variable {ps : List Patch} {i : Nat}

theorem instead_start {b : List Char} (hex : ∃ p ∈ ps, p.start = i)
    (hb : ∀ p ∈ ps, p.start = i → p.block = b) (c : Char) : instead ps c i = b := by
  unfold instead
  cases hf : ps.find? fun p => p.start == i with
  | none =>
    obtain ⟨p, hp, hi⟩ := hex
    exact absurd (List.find?_eq_none.mp hf p hp) (by simpa using hi)
  | some p =>
    have hi := List.find?_some hf
    exact hb p (List.mem_of_find?_eq_some hf) (by simpa using hi)

theorem find?_start_eq_none (h : ∀ p ∈ ps, p.start ≠ i) :
    (ps.find? fun p => p.start == i) = none := by
  rw [List.find?_eq_none]
  intro p hp
  simpa using h p hp

theorem instead_inside (hne : ∀ p ∈ ps, p.start ≠ i) (hin : ∃ p ∈ ps, p.start < i ∧ i < p.stop)
    (c : Char) : instead ps c i = [] := by
  obtain ⟨p, hp, hlt, hgt⟩ := hin
  have hany : (ps.any fun p => p.start < i && i < p.stop) = true :=
    List.any_eq_true.mpr ⟨p, hp, by simp [hlt, hgt]⟩
  rw [instead, find?_start_eq_none hne]
  exact if_pos hany

theorem instead_outside (hne : ∀ p ∈ ps, p.start ≠ i)
    (hout : ∀ p ∈ ps, p.start < i → p.stop ≤ i) (c : Char) : instead ps c i = [c] := by
  have hany : ¬ (ps.any fun p => p.start < i && i < p.stop) = true := by
    rw [List.any_eq_true]
    intro hx
    obtain ⟨p, hp, h⟩ := hx
    simp only [Bool.and_eq_true, decide_eq_true_eq] at h
    have := hout p hp h.1
    omega
  rw [instead, find?_start_eq_none hne]
  exact if_neg hany

end

theorem flatMap_zipIdx {g : Char → Nat → List Char} {k : Char → List Char} {s : List Char}
    {pos : Nat} (h : ∀ i c, pos ≤ i → i < pos + s.length → g c i = k c) :
    ((s.zipIdx pos).flatMap fun ci => g ci.1 ci.2) = s.flatMap k := by
  induction s generalizing pos with
  | nil => rfl
  | cons c s ih =>
    have hc := h pos c (Nat.le_refl _) (by rw [List.length_cons]; omega)
    have hs := @ih (pos + 1) (fun i d hge hlt =>
      h i d (by omega) (by rw [List.length_cons]; omega))
    rw [List.zipIdx_cons, List.flatMap_cons, List.flatMap_cons, hs, hc]

/-! ## along the cut -/

/-- the patches are those that `f` has for the declarations among `qs`, whose first piece stands at
`pos`; a patch that starts before `pos` has stopped there -/
structure Follow (ps : List Patch) (f : List Char → Option (List Char)) (pos : Nat)
    (qs : List Piece) : Prop where
  sound : ∀ p ∈ ps, pos ≤ p.start → ∃ sp ∈ Declaration.spansFrom pos qs,
    p.start = sp.start ∧ p.stop = sp.stop ∧ f sp.source = some p.block
  complete : ∀ sp ∈ Declaration.spansFrom pos qs, ∀ b, f sp.source = some b →
    ∃ p ∈ ps, p.start = sp.start ∧ p.stop = sp.stop
  before : ∀ p ∈ ps, p.start < pos → p.stop ≤ pos

namespace Follow
variable {ps : List Patch} {f : List Char → Option (List Char)} {pos : Nat} {qs : List Piece}

theorem start_ne {c : Char} (h : Follow ps f pos (.kept c :: qs)) :
    ∀ p ∈ ps, p.start ≠ pos := by
  intro p hp heq
  obtain ⟨sp, hsp, hs, -⟩ := h.sound p hp (by omega)
  have hle : pos + 1 ≤ sp.start := Declaration.le_start_of_mem hsp
  omega

theorem kept {c : Char} (h : Follow ps f pos (.kept c :: qs)) : Follow ps f (pos + 1) qs := by
  refine ⟨fun p hp hle => h.sound p hp (by omega), h.complete, fun p hp hlt => ?_⟩
  have hne := h.start_ne p hp
  have := h.before p hp (by omega)
  omega

/-- a patch that does not start before a declaration is the patch of that declaration or starts
behind it -/
theorem first {s : List Char} (h : Follow ps f pos (.declaration s :: qs)) {p : Patch}
    (hp : p ∈ ps) (hle : pos ≤ p.start) :
    (p.start = pos ∧ p.stop = pos + s.length ∧ f s = some p.block) ∨ pos + s.length ≤ p.start := by
  obtain ⟨sp, hsp, hs, he, hb⟩ := h.sound p hp hle
  rcases List.mem_cons.mp hsp with rfl | hsp
  · exact Or.inl ⟨hs, he, hb⟩
  · right
    rw [hs]
    exact Declaration.le_start_of_mem hsp

theorem declaration {s : List Char} (hs : s ≠ []) (h : Follow ps f pos (.declaration s :: qs)) :
    Follow ps f (pos + s.length) qs := by
  have hpos := List.length_pos_of_ne_nil hs
  refine ⟨fun p hp hle => ?_, fun sp hsp => h.complete sp (List.mem_cons_of_mem _ hsp),
    fun p hp hlt => ?_⟩
  · obtain ⟨sp, hsp, hst, hrest⟩ := h.sound p hp (by omega)
    rcases List.mem_cons.mp hsp with rfl | hsp
    · have hst' : p.start = pos := hst
      omega
    · exact ⟨sp, hsp, hst, hrest⟩
  · by_cases hbefore : p.start < pos
    · have := h.before p hp hbefore
      omega
    · rcases h.first hp (by omega) with ⟨-, hstop, -⟩ | hge
      · omega
      · omega

theorem flatMap_declaration {s : List Char} (hs : s ≠ [])
    (h : Follow ps f pos (.declaration s :: qs)) :
    ((s.zipIdx pos).flatMap fun ci => instead ps ci.1 ci.2) = (f s).getD s := by
  cases hb : f s with
  | none =>
    have hself : ∀ i c, pos ≤ i → i < pos + s.length → instead ps c i = [c] := by
      intro i c hge hlt
      have hfar : ∀ p ∈ ps, pos ≤ p.start → pos + s.length ≤ p.start := by
        intro p hp hle
        rcases h.first hp hle with ⟨-, -, hsome⟩ | hfar
        · rw [hb] at hsome
          cases hsome
        · exact hfar
      refine instead_outside (fun p hp heq => ?_) (fun p hp hlt' => ?_) c
      · have := hfar p hp (by omega)
        omega
      · by_cases hbefore : p.start < pos
        · have := h.before p hp hbefore
          omega
        · have := hfar p hp (by omega)
          omega
    rw [flatMap_zipIdx hself, List.flatMap_singleton']
    rfl
  | some b =>
    obtain ⟨p, hp, hstart, hstop⟩ := h.complete _ List.mem_cons_self b hb
    have hstart' : p.start = pos := hstart
    have hstop' : p.stop = pos + s.length := hstop
    cases s with
    | nil => exact absurd rfl hs
    | cons c s =>
      have hblock : ∀ q ∈ ps, q.start = pos → q.block = b := by
        intro q hq heq
        rcases h.first hq (by omega) with ⟨-, -, hsome⟩ | hfar
        · rw [hb] at hsome
          exact (Option.some.inj hsome).symm
        · rw [List.length_cons] at hfar
          omega
      have hinside : ∀ i d, pos + 1 ≤ i → i < pos + 1 + s.length → instead ps d i = [] := by
        intro i d hge hlt
        rw [List.length_cons] at hstop'
        refine instead_inside (fun q hq heq => ?_) ⟨p, hp, by omega, by omega⟩ d
        rcases h.first hq (by omega) with ⟨hst, -, -⟩ | hfar
        · omega
        · rw [List.length_cons] at hfar
          omega
      rw [List.zipIdx_cons, List.flatMap_cons, flatMap_zipIdx hinside,
        instead_start ⟨p, hp, hstart'⟩ hblock]
      simp

theorem flatMap_pieces (hne : ∀ s, .declaration s ∈ qs → s ≠ []) (h : Follow ps f pos qs) :
    (((qs.flatMap Piece.source).zipIdx pos).flatMap fun ci => instead ps ci.1 ci.2) =
      qs.flatMap (Piece.patch f) := by
  induction qs generalizing pos with
  | nil => rfl
  | cons q qs ih =>
    have hne' : ∀ s, .declaration s ∈ qs → s ≠ [] := fun s hs => hne s (List.mem_cons_of_mem _ hs)
    cases q with
    | kept c =>
      have hc : instead ps c pos = [c] := instead_outside h.start_ne h.before c
      rw [List.flatMap_cons, List.flatMap_cons, ← ih hne' h.kept]
      show instead ps c pos ++ _ = [c] ++ _
      rw [hc]
      rfl
    | declaration s =>
      have hs := hne s List.mem_cons_self
      rw [List.flatMap_cons, List.flatMap_cons, List.zipIdx_append, List.flatMap_append]
      show ((s.zipIdx pos).flatMap _) ++ _ = (f s).getD s ++ _
      rw [h.flatMap_declaration hs, ← ih hne' (h.declaration hs)]
      rfl

end Follow

end Patch

namespace Declaration

theorem ne_nil_of_mem_piecesFrom {wanted : List Export} {lineStart : Bool} {cs s : List Char}
    (h : .declaration s ∈ piecesFrom wanted lineStart cs) : s ≠ [] := by
  induction lineStart, cs using cut_induction wanted with
  | nil lineStart =>
    rw [piecesFrom_nil] at h
    cases h
  | declaration t rest ht ih =>
    rw [piecesFrom_declaration ht] at h
    rcases List.mem_cons.mp h with h | h
    · cases h
      exact ne_nil_of_after? ht
    · exact ih h
  | kept lineStart c r hk ih =>
    rw [piecesFrom_kept hk] at h
    rcases List.mem_cons.mp h with h | h
    · cases h
    · exact ih h

/-- patches listed in any order do what their blocks do along the cut -/
theorem applyAll_eq_patchWith {ps : List Patch} {f : List Char → Option (List Char)}
    {text : List Char}
    (h : ∀ p, p ∈ ps ↔ ∃ sp ∈ spans [] text,
      p.start = sp.start ∧ p.stop = sp.stop ∧ f sp.source = some p.block) :
    Patch.applyAll ps text = patchWith f text := by
  have hf : Patch.Follow ps f 0 (pieces [] text) := by
    refine ⟨fun p hp _ => (h p).mp hp, fun sp hsp b hb => ?_, fun p _ hlt => by omega⟩
    exact ⟨⟨sp.start, sp.stop, b⟩, (h _).mpr ⟨sp, hsp, rfl, rfl, hb⟩, rfl, rfl⟩
  have hp := hf.flatMap_pieces fun s hs => ne_nil_of_mem_piecesFrom hs
  rw [flatMap_source_piecesFrom] at hp
  exact hp

/-- the patches of one pass -/
theorem mem_map_spans_iff {wanted : List Export} {block text : List Char} {p : Patch} :
    p ∈ (spans wanted text).map (fun sp => (⟨sp.start, sp.stop, block⟩ : Patch)) ↔
      ∃ sp ∈ spans [] text, p.start = sp.start ∧ p.stop = sp.stop ∧
        declares wanted sp.source = true ∧ p.block = block := by
  rw [List.mem_map]
  refine ⟨?_, ?_⟩
  · intro h
    obtain ⟨sp, hsp, rfl⟩ := h
    obtain ⟨hs, hd⟩ := mem_spans_iff.mp hsp
    exact ⟨sp, hs, rfl, rfl, hd, rfl⟩
  · intro h
    obtain ⟨sp, hs, h₁, h₂, hd, h₃⟩ := h
    refine ⟨sp, mem_spans_iff.mpr ⟨hs, hd⟩, ?_⟩
    rw [← h₁, ← h₂, ← h₃]

/-- a pass puts its block in the place of each of its spans, and leaves every other character -/
theorem replace_eq_applyAll (wanted : List Export) (block text : List Char) :
    replace wanted block text =
      Patch.applyAll ((spans wanted text).map fun sp => ⟨sp.start, sp.stop, block⟩) text := by
  rw [replace_eq_patchWith]
  refine (applyAll_eq_patchWith fun p => ?_).symm
  simp only [mem_map_spans_iff, blockFor_eq_some_iff]

/-! ## passes -/

theorem patchWith_congr {f g : List Char → Option (List Char)} {text : List Char}
    (h : ∀ s, .declaration s ∈ pieces [] text → f s = g s) :
    patchWith f text = patchWith g text := by
  apply List.flatMap_congr
  intro p hp
  cases p with
  | kept c => rfl
  | declaration s =>
    show (f s).getD s = (g s).getD s
    rw [h s hp]

theorem replace_of_not_occurs {wanted : List Export} {text : List Char}
    (h : occurs wanted text = false) (block : List Char) : replace wanted block text = text := by
  have hsrc := flatMap_source_pieces wanted text
  rw [replace]
  conv_rhs => rw [← hsrc]
  apply List.flatMap_congr
  intro p hp
  cases p with
  | kept c => rfl
  | declaration s =>
    rw [occurs_iff.mpr ⟨s, hp⟩] at h
    cases h

section
variable {path text : List Char} (hp : '\n' ∉ path)

def blockOf (path text : List Char) (e : Export) : List Char :=
  Export.block [e] path (lineBreakOf text)

/-- what stands for a declaration that does not have both exports -/
def singleBlock (path text s : List Char) : Option (List Char) :=
  (blockFor [.internal] (blockOf path text .internal) s).or
    (blockFor [.api] (blockOf path text .api) s)

include hp

theorem inert_blockOf (e : Export) (s b : List Char)
    (h : blockFor [e] (blockOf path text e) s = some b) : Inert b :=
  inert_of_blockFor (inert_block (List.cons_ne_nil _ _) hp (lineBreak_lineBreakOf text)) s b h

theorem inert_singleBlock (s b : List Char) (h : singleBlock path text s = some b) : Inert b := by
  rw [singleBlock, Option.or_eq_some_iff] at h
  rcases h with h | ⟨-, h⟩
  · exact inert_blockOf hp .internal s b h
  · exact inert_blockOf hp .api s b h

theorem replace_replace (x y : Export) :
    replace [y] (blockOf path text y) (replace [x] (blockOf path text x) text) =
      patchWith (fun s => (blockFor [x] (blockOf path text x) s).or
        (blockFor [y] (blockOf path text y) s)) text := by
  rw [replace_eq_patchWith, replace_eq_patchWith, patchWith_patchWith (inert_blockOf hp x)]

/-- the second pass may as well be made when its export was not found: it finds nothing -/
theorem rebind_of_not_occurs (hc : occurs Export.all text = false) :
    rebind path text = patchWith (singleBlock path text) text := by
  have hpass : ∀ e t, (hasImport e text = false → occurs [e] t = false) →
      rebindExport path (lineBreakOf text) e (hasImport e text) t =
        replace [e] (blockOf path text e) t := by
    intro e t h
    rw [rebindExport]
    split
    · rfl
    · next hn =>
      rw [Bool.not_eq_true] at hn
      rw [replace_of_not_occurs (h hn)]
  have hsecond : hasImport .api text = false →
      occurs [.api] (replace [.internal] (blockOf path text .internal) text) = false := by
    intro hn
    rw [replace_eq_patchWith, ← Bool.not_eq_true, occurs_patchWith_iff (inert_blockOf hp .internal)]
    intro hx
    obtain ⟨s, hs, -⟩ := hx
    have ho : occurs [.api] text = true := occurs_iff.mpr ⟨s, hs⟩
    rw [show occurs [.api] text = false from hn] at ho
    cases ho
  have hfirst := hpass .internal text id
  rw [rebind]
  simp only [hc, Bool.false_eq_true, if_false, hfirst, hpass .api _ hsecond]
  exact replace_replace hp .internal .api

/-- the block for both exports in a text -/
def jointBlock (path text s : List Char) : Option (List Char) :=
  blockFor Export.all (Export.block Export.all path (lineBreakOf text)) s

theorem inert_jointBlock (s b : List Char) (h : jointBlock path text s = some b) : Inert b :=
  inert_of_blockFor (inert_block (List.cons_ne_nil _ _) hp (lineBreak_lineBreakOf text)) s b h

omit hp in
theorem rebind_of_occurs (hc : occurs Export.all text = true) :
    rebind path text = patchWith (jointBlock path text) text := by
  rw [rebind]
  simp only [hc, if_true]
  exact replace_eq_patchWith _ _ _

end

/-! ## the fixed text -/

theorem occurs_of_occurs_all {text : List Char} (h : occurs Export.all text = true) (e : Export) :
    occurs [e] text = true := by
  obtain ⟨s, hs⟩ := occurs_iff.mp h
  obtain ⟨hs, hd⟩ := mem_pieces_iff.mp hs
  rw [declares_all, Bool.and_eq_true] at hd
  refine occurs_iff.mpr ⟨s, mem_pieces_iff.mpr ⟨hs, ?_⟩⟩
  cases e with
  | internal => exact hd.1
  | api => exact hd.2

theorem fix_text {path text : List Char} (hm : isPatched text = false) :
    (fix path text).text = rebind path text := by
  rw [fix, if_neg (by rw [hm]; decide)]
  split
  · next hn =>
    rw [Bool.not_eq_true', Bool.or_eq_false_iff] at hn
    have hc : occurs Export.all text = false := by
      rw [← Bool.not_eq_true]
      intro ho
      have hi : hasImport .internal text = true := occurs_of_occurs_all ho .internal
      rw [hn.1] at hi
      cases hi
    simp only [rebind, hc, hn.1, hn.2, rebindExport, Bool.false_eq_true, if_false]
  · show (if rebind path text = text then _ else _ : Fix).text = _
    split
    · next heq => exact heq.symm
    · rfl

/-- without a declaration of both exports, no declaration has both -/
theorem not_declares_both {text : List Char} (hc : occurs Export.all text = false) {s : List Char}
    (hs : .declaration s ∈ pieces [] text) (hi : declares [.internal] s = true) :
    declares [.api] s = false := by
  rw [← Bool.not_eq_true]
  intro ha
  have hd : declares Export.all s = true := by rw [declares_all, hi, ha]; rfl
  rw [occurs_iff.mpr ⟨s, mem_pieces_iff.mpr ⟨hs, hd⟩⟩] at hc
  cases hc

def patchesOf (path text : List Char) (e : Export) : List Patch :=
  (spans [e] text).map fun sp => ⟨sp.start, sp.stop, blockOf path text e⟩

theorem mem_patchesOf_iff {path text : List Char} {e : Export} {p : Patch} :
    p ∈ patchesOf path text e ↔
      ∃ sp ∈ spans [] text, p.start = sp.start ∧ p.stop = sp.stop ∧ declares [e] sp.source = true ∧
        p.block = blockOf path text e :=
  mem_map_spans_iff

theorem applyAll_patchesOf {path text : List Char} (hc : occurs Export.all text = false) :
    Patch.applyAll (patchesOf path text .internal ++ patchesOf path text .api) text =
      patchWith (singleBlock path text) text := by
  apply applyAll_eq_patchWith
  intro p
  rw [List.mem_append, mem_patchesOf_iff, mem_patchesOf_iff]
  refine ⟨?_, ?_⟩
  · intro h
    rcases h with ⟨sp, hs, h₁, h₂, hd, h₃⟩ | ⟨sp, hs, h₁, h₂, hd, h₃⟩
    · refine ⟨sp, hs, h₁, h₂, ?_⟩
      rw [singleBlock, blockFor, if_pos hd, h₃]
      rfl
    · refine ⟨sp, hs, h₁, h₂, ?_⟩
      have hi : ¬ declares [.internal] sp.source = true := by
        intro hi
        rw [not_declares_both hc (exists_mem_spans_iff.mp ⟨sp, hs, rfl⟩) hi] at hd
        cases hd
      rw [singleBlock, blockFor, if_neg hi, blockFor, if_pos hd, h₃]
      rfl
  · intro h
    obtain ⟨sp, hs, h₁, h₂, hb⟩ := h
    rw [singleBlock, blockFor, blockFor] at hb
    split at hb
    · next hd =>
      left
      exact ⟨sp, hs, h₁, h₂, hd, (Option.some.inj hb).symm⟩
    · split at hb
      · next hd =>
        right
        exact ⟨sp, hs, h₁, h₂, hd, (Option.some.inj hb).symm⟩
      · cases hb

theorem pairwise_apart {text : List Char} (hc : occurs Export.all text = false) :
    (spans [.internal] text ++ spans [.api] text).Pairwise Span.Apart := by
  rw [List.pairwise_append]
  refine ⟨(pairwise_spans _ _).imp Or.inl, (pairwise_spans _ _).imp Or.inl, ?_⟩
  intro a ha b hb
  rcases eq_or_apart (mem_spans_iff.mp ha).1 (mem_spans_iff.mp hb).1 with rfl | h
  · obtain ⟨hs, hi⟩ := mem_spans_iff.mp ha
    have hn := not_declares_both hc (exists_mem_spans_iff.mp ⟨a, hs, rfl⟩) hi
    rw [(mem_spans_iff.mp hb).2] at hn
    cases hn
  · exact h

/-- **Two passes are one simultaneous replacement.**  In a text without the marker and without a
declaration of both exports, the spans of the two exports have no position in common; the fixed
text is the text as it was with the block of its export in the place of each span and every other
character where it was; and the passes give that text in either order. -/
theorem fix_eq_applyAll {path text : List Char} (hp : '\n' ∉ path) (hm : isPatched text = false)
    (hc : occurs Export.all text = false) :
    (spans [.internal] text ++ spans [.api] text).Pairwise Span.Apart ∧
    (fix path text).text =
      Patch.applyAll (patchesOf path text .internal ++ patchesOf path text .api) text ∧
    replace [.api] (blockOf path text .api)
        (replace [.internal] (blockOf path text .internal) text) =
      Patch.applyAll (patchesOf path text .internal ++ patchesOf path text .api) text ∧
    replace [.internal] (blockOf path text .internal)
        (replace [.api] (blockOf path text .api) text) =
      Patch.applyAll (patchesOf path text .internal ++ patchesOf path text .api) text := by
  rw [applyAll_patchesOf hc]
  refine ⟨pairwise_apart hc, ?_, replace_replace hp .internal .api, ?_⟩
  · rw [fix_text hm, rebind_of_not_occurs hp hc]
  · rw [replace_replace hp .api .internal]
    apply patchWith_congr
    intro s hs
    rw [singleBlock, blockFor, blockFor]
    by_cases hi : declares [.internal] s = true
    · rw [if_pos hi, not_declares_both hc hs hi]
      rfl
    · rw [if_neg hi, Option.or_none]
      rfl

/-- one declaration of each export, the second over two lines and begun twice -/
def apartText : List Char :=
  "import \x7binternal\x7d ".toList ++ "from './_generated/api'\n".toList ++
    "import \x7b\nimport \x7bapi\x7d ".toList ++ "from './_generated/api'".toList

theorem fix_apartText :
    '\n' ∉ "../a".toList ∧ isPatched apartText = false ∧ occurs Export.all apartText = false ∧
      hasImport .internal apartText = true ∧ hasImport .api apartText = true ∧
      (spans [.internal] apartText ++ spans [.api] apartText).Pairwise Span.Apart ∧
      (fix "../a".toList apartText).text =
        Patch.applyAll (patchesOf "../a".toList apartText .internal ++
          patchesOf "../a".toList apartText .api) apartText := by
  have hp : '\n' ∉ "../a".toList := by decide
  have hm : isPatched apartText = false := by decide +kernel
  have hc : occurs Export.all apartText = false := by decide +kernel
  have h := fix_eq_applyAll hp hm hc
  exact ⟨hp, hm, hc, by decide +kernel, by decide +kernel, h.1, h.2.1⟩

/-- **Nothing is left and nothing is new.**  In the fixed text no declaration has both exports.  If
none had them before, neither export has a declaration; else an export has one iff one of its spans
in the text as it was is no span for both. -/
theorem occurs_fix_text {path text : List Char} (hp : '\n' ∉ path) (hm : isPatched text = false) :
    occurs Export.all (fix path text).text = false ∧
    (occurs Export.all text = false → ∀ e, hasImport e (fix path text).text = false) ∧
    (occurs Export.all text = true → ∀ e, hasImport e (fix path text).text = true ↔
      ∃ sp ∈ spans [e] text, sp ∉ spans Export.all text) := by
  rw [fix_text hm]
  cases hc : occurs Export.all text with
  | false =>
    rw [rebind_of_not_occurs hp hc]
    have hnone : ∀ e, occurs [e] (patchWith (singleBlock path text) text) = false := by
      intro e
      rw [← Bool.not_eq_true, occurs_patchWith_iff (inert_singleBlock hp)]
      intro hx
      obtain ⟨s, hs, hn⟩ := hx
      have hd := (mem_pieces_iff.mp hs).2
      rw [singleBlock, Option.or_eq_none_iff] at hn
      cases e with
      | internal =>
        rw [blockFor, if_pos hd] at hn
        cases hn.1
      | api =>
        rw [blockFor, blockFor, if_pos hd] at hn
        cases hn.2
    refine ⟨?_, fun _ => hnone, fun h => absurd h (by decide)⟩
    rw [← Bool.not_eq_true]
    intro ho
    have hi := occurs_of_occurs_all ho .internal
    rw [hnone .internal] at hi
    cases hi
  | true =>
    rw [rebind_of_occurs hc]
    have hleft : ∀ wanted, occurs wanted (patchWith (jointBlock path text) text) = true ↔
        ∃ sp ∈ spans wanted text, sp ∉ spans Export.all text := by
      intro wanted
      rw [occurs_patchWith_iff (inert_jointBlock hp)]
      refine ⟨?_, ?_⟩
      · intro hx
        obtain ⟨s, hs, hn⟩ := hx
        obtain ⟨sp, hsp, rfl⟩ := exists_mem_spans_iff.mpr hs
        refine ⟨sp, hsp, fun hall => ?_⟩
        rw [jointBlock, blockFor, if_pos (mem_spans_iff.mp hall).2] at hn
        cases hn
      · intro hx
        obtain ⟨sp, hsp, hall⟩ := hx
        refine ⟨sp.source, exists_mem_spans_iff.mp ⟨sp, hsp, rfl⟩, ?_⟩
        rw [jointBlock, blockFor, if_neg]
        intro hd
        exact hall (mem_spans_iff.mpr ⟨(mem_spans_iff.mp hsp).1, hd⟩)
    refine ⟨?_, fun h => absurd h (by decide), fun _ e => hleft [e]⟩
    rw [← Bool.not_eq_true, hleft]
    intro hx
    obtain ⟨sp, hsp, hall⟩ := hx
    exact hall hsp

/-- a declaration of both exports and one of the first alone -/
def jointText : List Char :=
  "import \x7bapi,internal\x7d ".toList ++ "from './_generated/api'\n".toList ++
    "import \x7binternal\x7d ".toList ++ "from './_generated/api'".toList

theorem occurs_fix_jointText :
    '\n' ∉ "../a".toList ∧ isPatched jointText = false ∧ occurs Export.all jointText = true ∧
      occurs Export.all (fix "../a".toList jointText).text = false ∧
      hasImport .internal (fix "../a".toList jointText).text = true ∧
      ¬ hasImport .api (fix "../a".toList jointText).text = true := by
  have hp : '\n' ∉ "../a".toList := by decide
  have hm : isPatched jointText = false := by decide +kernel
  have hc : occurs Export.all jointText = true := by decide +kernel
  obtain ⟨hnone, -, heach⟩ := occurs_fix_text hp hm
  refine ⟨hp, hm, hc, hnone, (heach hc .internal).mpr ?_, fun h => absurd ((heach hc .api).mp h) ?_⟩
  · decide +kernel
  · decide +kernel

end Declaration

end Rebind
