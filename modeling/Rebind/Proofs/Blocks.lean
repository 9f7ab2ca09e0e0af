import Rebind.Fix
import Rebind.Proofs.Cut

/-!
# Blocks in the place of declarations

`patchWith f text` puts blocks in the place of those declarations of the finest cut for which `f`
has one.  A binding block is `Inert`: it begins with a comment, no line of it begins a declaration,
and it does not end a line.

* `pieces_patchWith`     the cut of a text with inert blocks is the old cut, with the characters of
                         the blocks in it: no declaration comes up, goes away or moves its ends;
* `replace_eq_patchWith` `replace` is such a step, for the declarations of its names;
* `patchWith_patchWith`  two steps are one.

The one way in which a block could matter to the text before it is an opening that runs into it.
By `after?_seam` that opening was unclosed at the declaration which the block stands for, so the
two were one declaration and the cut took them together.
-/

namespace Rebind

/-! ## quiet texts -/

/-- no line of the text begins with the first character of a declaration -/
def quiet : Bool → List Char → Bool
  | _, [] => true
  | lineStart, c :: cs => !(lineStart && c == 'i') && quiet (c == '\n') cs

namespace Declaration

theorem quiet_append (lineStart : Bool) (x y : List Char) :
    quiet lineStart (x ++ y) = (quiet lineStart x && quiet (lineAfter lineStart x) y) := by
  induction x generalizing lineStart with
  | nil => rfl
  | cons c x ih =>
    rw [List.cons_append, quiet, quiet, ih, lineAfter_cons, Bool.and_assoc]

theorem quiet_line {l : List Char} (h : '\n' ∉ l) :
    quiet false l = true ∧ lineAfter false l = false := by
  induction l with
  | nil => exact ⟨rfl, rfl⟩
  | cons c l ih =>
    have hc : (c == '\n') = false := by
      have : c ≠ '\n' := fun h' => h (h' ▸ List.mem_cons_self)
      simpa using this
    rw [quiet, lineAfter_cons, hc]
    exact ih (fun h' => h (List.mem_cons_of_mem _ h'))

theorem piecesFrom_quiet {wanted : List Export} {lineStart : Bool} {s : List Char}
    (h : quiet lineStart s = true) (rest : List Char) :
    piecesFrom wanted lineStart (s ++ rest) =
      s.map .kept ++ piecesFrom wanted (lineAfter lineStart s) rest := by
  induction s generalizing lineStart with
  | nil => rfl
  | cons c s ih =>
    rw [quiet, Bool.and_eq_true] at h
    have hk : lineStart = true → after? wanted (c :: (s ++ rest)) = none := by
      intro hl
      rw [Option.eq_none_iff_forall_ne_some]
      intro y hy
      have hc : c = 'i' := Option.some.inj (head?_of_after? hy)
      have hn := h.1
      rw [hl, hc] at hn
      cases hn
    rw [List.cons_append, piecesFrom_kept hk, ih h.2, lineAfter_cons]
    rfl

/-- a block that begins with a comment, in which no declaration begins, and which does not end a
line -/
structure Inert (b : List Char) : Prop where
  head : b.head? = some '/'
  quiet : Rebind.quiet true b = true
  inLine : lineAfter true b = false

/-- what a binding has to be told about a line break -/
structure LineBreak (newline : List Char) : Prop where
  quiet : Rebind.quiet false newline = true
  ends : lineAfter false newline = true

theorem lineBreak_lineBreakOf (text : List Char) : LineBreak (lineBreakOf text) := by
  unfold lineBreakOf
  split
  · exact ⟨rfl, rfl⟩
  · exact ⟨rfl, rfl⟩

theorem quiet_bindingLine (e : Export) {path newline : List Char} (hp : '\n' ∉ path)
    (hn : LineBreak newline) :
    quiet true (bindingLine e.name path newline) = true ∧
      lineAfter true (bindingLine e.name path newline) = false := by
  have hname : '\n' ∉ e.name := by
    cases e with
    | internal => decide
    | api => decide
  have hword : '\n' ∉ "onst ".toList ∧ '\n' ∉ " = require('".toList ∧ '\n' ∉ "').".toList ∧
      '\n' ∉ " as any;".toList := by decide
  have hl : '\n' ∉ "onst ".toList ++ (e.name ++ (" = require('".toList ++ (path ++
      ("').".toList ++ (e.name ++ " as any;".toList))))) := by
    simp only [List.mem_append, not_or]
    exact ⟨hword.1, hname, hword.2.1, hp, hword.2.2.1, hname, hword.2.2.2⟩
  have hq := quiet_line hl
  have hx : quiet true linterException = true ∧ lineAfter true linterException = false := by
    decide +kernel
  have e₁ : bindingLine e.name path newline = linterException ++ (newline ++ ('c' ::
      ("onst ".toList ++ (e.name ++ (" = require('".toList ++ (path ++ ("').".toList ++
        (e.name ++ " as any;".toList)))))))) := by
    simp only [bindingLine, List.append_assoc]
    rfl
  refine ⟨?_, ?_⟩
  · rw [e₁, quiet_append, hx.1, hx.2, quiet_append, hn.quiet, hn.ends]
    exact hq.1
  · rw [e₁, lineAfter_append, hx.2, lineAfter_append, hn.ends]
    exact hq.2

/-- what two texts with a separator between them keep is kept by any number of texts -/
theorem intercalate_of_join {motive : List Char → Prop} {separator : List Char}
    (join : ∀ a b, motive a → motive b → motive (a ++ separator ++ b)) {ls : List (List Char)}
    (hne : ls ≠ []) (h : ∀ l ∈ ls, motive l) : motive (separator.intercalate ls) := by
  induction ls with
  | nil => exact absurd rfl hne
  | cons l ls ih =>
    obtain ⟨hl, hls⟩ := List.forall_mem_cons.mp h
    cases ls with
    | nil =>
      rw [List.intercalate_singleton]
      exact hl
    | cons m ls =>
      rw [List.intercalate_cons_cons]
      exact join l _ hl (ih (List.cons_ne_nil m ls) hls)

theorem inert_block {exports : List Export} (hne : exports ≠ []) {path newline : List Char}
    (hp : '\n' ∉ path) (hn : LineBreak newline) : Inert (Export.block exports path newline) := by
  have hh : quiet true header = true ∧ lineAfter true header = false ∧
      header.head? = some '/' := by decide +kernel
  -- the bindings, one under the other, each in a line of its own
  have hl : quiet true (newline.intercalate ((exports.map Export.name).map fun n =>
        bindingLine n path newline)) = true ∧
      lineAfter true (newline.intercalate ((exports.map Export.name).map fun n =>
        bindingLine n path newline)) = false := by
    refine intercalate_of_join (motive := fun b => quiet true b = true ∧ lineAfter true b = false)
      ?_ (by simpa using hne) ?_
    · rintro a b ⟨haq, hal⟩ ⟨hbq, hbl⟩
      constructor
      · rw [List.append_assoc, quiet_append, haq, hal, quiet_append, hn.quiet, hn.ends]
        exact hbq
      · rw [List.append_assoc, lineAfter_append, hal, lineAfter_append, hn.ends]
        exact hbl
    · intro l hmem
      rw [List.map_map] at hmem
      obtain ⟨e, -, rfl⟩ := List.mem_map.mp hmem
      exact quiet_bindingLine e hp hn
  refine ⟨?_, ?_, ?_⟩
  · rw [Export.block, bindingBlock, List.append_assoc, List.head?_append, hh.2.2]
    rfl
  · rw [Export.block, bindingBlock, List.append_assoc, quiet_append, hh.1, hh.2.1, quiet_append,
      hn.quiet, hn.ends, hl.1]
    rfl
  · rw [Export.block, bindingBlock, List.append_assoc, lineAfter_append, hh.2.1, lineAfter_append,
      hn.ends, hl.2]

/-! ## patched texts -/

end Declaration

/-- a piece with the block of a declaration, if there is one, in its place -/
def Piece.patch (f : List Char → Option (List Char)) : Piece → List Char
  | .kept c => [c]
  | .declaration s => (f s).getD s

def Piece.recut (f : List Char → Option (List Char)) : Piece → List Piece
  | .kept c => [.kept c]
  | .declaration s => ((f s).map fun b => b.map .kept).getD [.declaration s]

namespace Declaration

def patchFrom (f : List Char → Option (List Char)) (lineStart : Bool) (cs : List Char) :
    List Char :=
  (piecesFrom [] lineStart cs).flatMap (Piece.patch f)

/-- the text with blocks in the place of the declarations for which `f` has one -/
def patchWith (f : List Char → Option (List Char)) (text : List Char) : List Char :=
  patchFrom f true text

section
variable {f : List Char → Option (List Char)}

theorem patchFrom_nil (lineStart : Bool) : patchFrom f lineStart [] = [] := by
  rw [patchFrom, piecesFrom_nil]
  rfl

theorem patchFrom_declaration {s rest : List Char} (h : after? [] (s ++ rest) = some rest) :
    patchFrom f true (s ++ rest) = (f s).getD s ++ patchFrom f false rest := by
  rw [patchFrom, piecesFrom_declaration h, List.flatMap_cons]
  rfl

theorem patchFrom_kept {lineStart : Bool} {c : Char} {r : List Char}
    (h : lineStart = true → after? [] (c :: r) = none) :
    patchFrom f lineStart (c :: r) = c :: patchFrom f (c == '\n') r := by
  rw [patchFrom, piecesFrom_kept h, List.flatMap_cons]
  rfl

/-- the first declaration of a cut, if there is one, stands at a line start, and the text before it
is kept -/
theorem patchFrom_cases (lineStart : Bool) (cs : List Char) :
    patchFrom f lineStart cs = cs ∨
      ∃ a s rest, cs = a ++ (s ++ rest) ∧ lineAfter lineStart a = true ∧
        after? [] (s ++ rest) = some rest ∧
        patchFrom f lineStart cs = a ++ ((f s).getD s ++ patchFrom f false rest) := by
  induction lineStart, cs using cut_induction [] with
  | nil lineStart => exact Or.inl (patchFrom_nil lineStart)
  | declaration s rest h _ => exact Or.inr ⟨[], s, rest, rfl, rfl, h, patchFrom_declaration h⟩
  | kept lineStart c r h ih =>
    rw [patchFrom_kept h]
    rcases ih with ih | ⟨a, s, rest, hr, hl, hs, ih⟩
    · left
      rw [ih]
    · right
      refine ⟨c :: a, s, rest, by rw [hr]; rfl, hl, hs, ?_⟩
      rw [ih]
      rfl

theorem AtLineFeed.patchFrom {r : List Char} (h : AtLineFeed r) :
    AtLineFeed (Declaration.patchFrom f false r) := by
  rcases h with rfl | h
  · rw [patchFrom_nil]
    exact Or.inl rfl
  · obtain ⟨t, rfl⟩ := List.head?_eq_some_iff.mp h
    rw [patchFrom_kept (by intro h; cases h)]
    exact Or.inr rfl

theorem LineStops.patchFrom {r : List Char} (h : LineStops r) :
    LineStops (Declaration.patchFrom f false r) := by
  rcases h with h | ⟨t, rfl, h⟩
  · exact Or.inl h.patchFrom
  · rw [patchFrom_kept (by intro h; cases h)]
    exact Or.inr ⟨_, rfl, h.patchFrom⟩

/-- a declaration stays one when the text after it is patched -/
theorem after?_patchFrom {wanted : List Export} {s rest : List Char}
    (h : after? wanted (s ++ rest) = some rest) :
    after? wanted (s ++ patchFrom f false rest) = some (patchFrom f false rest) := by
  obtain ⟨g, hg, hs, hr⟩ := exists_form_of_append h
  rw [hs]
  exact after?_text g hg hr.patchFrom

variable (hf : ∀ s b, f s = some b → Inert b)
include hf

theorem fresh_patch {s rest : List Char} (h : after? [] (s ++ rest) = some rest)
    (rest' : List Char) : Fresh ((f s).getD s ++ rest') := by
  cases hb : f s with
  | none =>
    obtain ⟨g, -, hs, -⟩ := exists_form_of_append h
    rw [hs]
    exact Or.inl (head?_text g rest')
  | some b =>
    right
    rw [Option.getD_some, List.head?_append, (hf s b hb).head]
    rfl

/-- a character that begins no declaration begins none when the text after it is patched -/
theorem after?_patchFrom_eq_none {c : Char} {r : List Char} (h : after? [] (c :: r) = none) :
    after? [] (c :: patchFrom f (c == '\n') r) = none := by
  rcases patchFrom_cases (f := f) (c == '\n') r with hr | ⟨a, s, rest, hr, hl, hs, hp⟩
  · rw [hr]
    exact h
  · rw [Option.eq_none_iff_forall_ne_some]
    intro y hy
    have hlast : (c :: a).getLast? = some '\n' :=
      @getLast?_of_lineAfter false (c :: a) (List.cons_ne_nil _ _) hl
    rw [hp] at hy
    rw [hr] at h
    rcases after?_seam (a := c :: a) hlast (fresh_patch hf hs _) hy with ⟨t, -, -, ht⟩ | hu
    · have h' := ht (s ++ rest)
      rw [List.cons_append, h] at h'
      cases h'
    · have h' := hu.after? hs
      rw [List.cons_append, h] at h'
      cases h'

theorem piecesFrom_patchFrom (lineStart : Bool) (cs : List Char) :
    piecesFrom [] lineStart (patchFrom f lineStart cs) =
      (piecesFrom [] lineStart cs).flatMap (Piece.recut f) := by
  induction lineStart, cs using cut_induction [] with
  | nil lineStart => rw [patchFrom_nil, piecesFrom_nil]; rfl
  | declaration s rest h ih =>
    rw [patchFrom_declaration h, piecesFrom_declaration h, List.flatMap_cons, ← ih, Piece.recut]
    cases hb : f s with
    | none => exact piecesFrom_declaration (after?_patchFrom h)
    | some b =>
      have hin := hf s b hb
      rw [Option.getD_some, piecesFrom_quiet hin.quiet, hin.inLine]
      rfl
  | kept lineStart c r h ih =>
    rw [patchFrom_kept h, piecesFrom_kept h,
      piecesFrom_kept (fun hl => after?_patchFrom_eq_none hf (h hl)), ih, List.flatMap_cons]
    rfl

/-- **Inert blocks leave the cut as it is**: the other declarations stay, and none is new. -/
theorem pieces_patchWith (text : List Char) :
    pieces [] (patchWith f text) = (pieces [] text).flatMap (Piece.recut f) :=
  piecesFrom_patchFrom hf true text

/-- two steps are one: the second finds what the first has left -/
theorem patchWith_patchWith (g : List Char → Option (List Char)) (text : List Char) :
    patchWith g (patchWith f text) = patchWith (fun s => (f s).or (g s)) text := by
  show (pieces [] (patchWith f text)).flatMap (Piece.patch g) = (pieces [] text).flatMap _
  rw [pieces_patchWith hf, List.flatMap_assoc]
  apply List.flatMap_congr
  intro p _
  cases p with
  | kept c => rfl
  | declaration s =>
    show (((f s).map fun b => b.map Piece.kept).getD [.declaration s]).flatMap (Piece.patch g) =
      ((f s).or (g s)).getD s
    cases f s with
    | none => exact List.append_nil _
    | some b => exact Piece.flatMap_map_kept (fun c => rfl) _

end

/-! ## replacing, as a patched text -/

/-- one block for every declaration of `wanted` -/
def blockFor (wanted : List Export) (block : List Char) (s : List Char) : Option (List Char) :=
  if declares wanted s then some block else none

theorem blockFor_eq_some_iff {wanted : List Export} {block s b : List Char} :
    blockFor wanted block s = some b ↔ declares wanted s = true ∧ b = block := by
  rw [blockFor, Option.ite_none_right_eq_some, Option.some.injEq, eq_comm (a := block)]

theorem replace_eq_patchWith (wanted : List Export) (block text : List Char) :
    replace wanted block text = patchWith (blockFor wanted block) text := by
  show (pieces wanted text).flatMap (Piece.withBlock block) = (pieces [] text).flatMap _
  rw [pieces_eq_sift, List.flatMap_assoc]
  apply List.flatMap_congr
  intro p _
  cases p with
  | kept c => rfl
  | declaration s =>
    show (if declares wanted s then [Piece.declaration s] else s.map Piece.kept).flatMap
      (Piece.withBlock block) = (if declares wanted s then some block else none).getD s
    split
    · exact List.append_nil _
    · exact Piece.flatMap_map_kept (fun c => rfl) _

theorem inert_of_blockFor {wanted : List Export} {block : List Char} (hb : Inert block)
    (s b : List Char) (h : blockFor wanted block s = some b) : Inert b := by
  rwa [(blockFor_eq_some_iff.mp h).2]

/-! ## what occurs in a patched text -/

theorem mem_pieces_patchWith_iff {f : List Char → Option (List Char)}
    (hf : ∀ s b, f s = some b → Inert b) {s text : List Char} :
    .declaration s ∈ pieces [] (patchWith f text) ↔
      .declaration s ∈ pieces [] text ∧ f s = none := by
  rw [pieces_patchWith hf, List.mem_flatMap]
  refine ⟨?_, ?_⟩
  · intro h
    obtain ⟨p, hp, hs⟩ := h
    cases p with
    | kept c => simp [Piece.recut] at hs
    | declaration t =>
      rw [Piece.recut] at hs
      cases ht : f t with
      | none =>
        rw [ht] at hs
        obtain rfl : s = t := by simpa using hs
        exact ⟨hp, ht⟩
      | some b =>
        rw [ht] at hs
        simp at hs
  · intro h
    obtain ⟨hp, hn⟩ := h
    refine ⟨_, hp, ?_⟩
    rw [Piece.recut, hn]
    exact List.mem_singleton_self _

theorem occurs_patchWith_iff {f : List Char → Option (List Char)}
    (hf : ∀ s b, f s = some b → Inert b) {wanted : List Export} {text : List Char} :
    occurs wanted (patchWith f text) = true ↔
      ∃ s, .declaration s ∈ pieces wanted text ∧ f s = none := by
  rw [occurs_iff]
  refine ⟨?_, ?_⟩
  · intro h
    obtain ⟨s, hs⟩ := h
    obtain ⟨hs, hd⟩ := mem_pieces_iff.mp hs
    obtain ⟨hs, hn⟩ := (mem_pieces_patchWith_iff hf).mp hs
    exact ⟨s, mem_pieces_iff.mpr ⟨hs, hd⟩, hn⟩
  · intro h
    obtain ⟨s, hs, hn⟩ := h
    obtain ⟨hs, hd⟩ := mem_pieces_iff.mp hs
    exact ⟨s, mem_pieces_iff.mpr ⟨(mem_pieces_patchWith_iff hf).mpr ⟨hs, hn⟩, hd⟩⟩

end Declaration

end Rebind
