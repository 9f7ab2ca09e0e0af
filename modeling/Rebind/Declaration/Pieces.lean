import Rebind.Declaration

/-!
# a text cut at its declarations

`pieces wanted text` reads a text from left to right and cuts it into kept characters and whole
declarations.  A declaration is looked for at the start of the text and after each line feed; the
search goes on right after the end of one that was found.  The pieces, put together again, are the
text (`flatMap_source_pieces`), so

* `spans` (where the declarations are) and
* `replace` (another text in the place of each)

are two readings of one cut.
-/

namespace Rebind

inductive Piece where
  | kept (c : Char)
  | declaration (source : List Char)
  deriving DecidableEq

namespace Piece

def source : Piece → List Char
  | .kept c => [c]
  | .declaration s => s

/-- a piece with `block` in the place of a declaration -/
def withBlock (block : List Char) : Piece → List Char
  | .kept c => [c]
  | .declaration _ => block

def isDeclaration : Piece → Bool
  | .kept _ => false
  | .declaration _ => true

end Piece

namespace Declaration

/-! ## the text of a declaration

The opening holds no brace but its last character, the body ends at the first closing brace, and
between that brace and the specifier no quote stands.  So the text of a declaration is found
without reading it again (`textAt_append`). -/

/-- the text of the declaration that stands at the head of `cs`: over the first opening brace, the
closing brace after it and the quote after that, and on to the end of the line -/
def textAt (cs : List Char) : List Char :=
  let inside := cs.dropWhile (· != '{')
  let outside := inside.dropWhile (· != '}')
  let upToQuote := cs.takeWhile (· != '{') ++ inside.takeWhile (· != '}') ++
    outside.takeWhile (!isQuote ·)
  match outside.dropWhile (!isQuote ·) with
  | [] => upToQuote
  | q :: line => upToQuote ++ q :: firstLine line

theorem firstLine_append_drop (cs : List Char) :
    firstLine cs ++ cs.drop (firstLine cs).length = cs := by
  refine List.prefix_iff_eq_append.mp ?_
  have hline : cs.takeWhile (· != '\n') <+: cs := List.takeWhile_prefix _
  simp only [firstLine]
  split
  · have hlast : (cs.takeWhile (· != '\n')).dropLast <+: cs.takeWhile (· != '\n') :=
      List.dropLast_prefix _
    exact hlast.trans hline
  · exact hline

theorem afterBlanks?_eq_append {cs r : List Char} (h : afterBlanks? cs = some r) :
    ∃ w, (∀ c ∈ w, isBlank c = true) ∧ cs = w ++ r := by
  cases cs with
  | nil => simp at h
  | cons c cs =>
    rw [afterBlanks?_cons] at h
    split at h
    · next hc =>
      simp only [Option.some.injEq] at h
      refine ⟨c :: cs.takeWhile isBlank, ?_, ?_⟩
      · intro d hd
        rcases List.mem_cons.mp hd with rfl | hd
        · exact hc
        · exact (List.all_eq_true.mp List.all_takeWhile) d hd
      · rw [← h, List.cons_append, List.takeWhile_append_dropWhile]
    · simp at h

theorem ne_of_all {w : List Char} {x : Char} (h : w.all (· != x) = true) : ∀ c ∈ w, c ≠ x := by
  intro c hc
  simpa using List.all_eq_true.mp h c hc

theorem isQuote_of_all {w : List Char} (h : w.all (!isQuote ·) = true) :
    ∀ c ∈ w, isQuote c = false := by
  intro c hc
  simpa using List.all_eq_true.mp h c hc

/-- a blank is no brace -/
theorem ne_brace_of_isBlank {c : Char} (h : isBlank c = true) : c ≠ '{' := by
  rintro rfl
  exact absurd h (by decide)

/-- a blank is no quote -/
theorem isQuote_of_isBlank {c : Char} (h : isBlank c = true) : isQuote c = false := by
  cases hq : isQuote c with
  | false => rfl
  | true =>
    simp only [isQuote, Bool.or_eq_true, beq_iff_eq] at hq
    rcases hq with rfl | rfl
    · exact absurd h (by decide)
    · exact absurd h (by decide)

theorem afterOpening?_eq_append {cs r : List Char} (h : afterOpening? cs = some r) :
    ∃ w, (∀ c ∈ w, c ≠ '{') ∧ cs = w ++ '{' :: r := by
  simp only [afterOpening?, bind, Option.bind_eq_some_iff] at h
  obtain ⟨r₁, h₁, r₂, h₂, h₃⟩ := h
  have e₁ := afterLit?_eq_some_iff.mp h₁
  obtain ⟨w₂, b₂, e₂⟩ := afterBlanks?_eq_append h₂
  have e₃ := afterLit?_eq_some_iff.mp h₃
  have hi : ∀ c ∈ "import".toList, c ≠ '{' := ne_of_all (by decide)
  have ht : ∀ c ∈ "type".toList, c ≠ '{' := ne_of_all (by decide)
  cases hr : (afterLit? "type".toList r₂).bind afterBlanks? with
  | none =>
    rw [hr, Option.getD_none] at e₃
    refine ⟨"import".toList ++ w₂, ?_, by simp [e₁, e₂, e₃]⟩
    intro c hc
    rcases List.mem_append.mp hc with hc | hc
    · exact hi c hc
    · exact ne_brace_of_isBlank (b₂ c hc)
  | some r₃ =>
    rw [hr, Option.getD_some] at e₃
    obtain ⟨r₄, h₄, h₅⟩ := Option.bind_eq_some_iff.mp hr
    have e₄ := afterLit?_eq_some_iff.mp h₄
    obtain ⟨w₅, b₅, e₅⟩ := afterBlanks?_eq_append h₅
    refine ⟨"import".toList ++ w₂ ++ ("type".toList ++ w₅), ?_, by simp [e₁, e₂, e₄, e₅, e₃]⟩
    intro c hc
    rcases List.mem_append.mp hc with hc | hc
    · rcases List.mem_append.mp hc with hc | hc
      · exact hi c hc
      · exact ne_brace_of_isBlank (b₂ c hc)
    · rcases List.mem_append.mp hc with hc | hc
      · exact ht c hc
      · exact ne_brace_of_isBlank (b₅ c hc)

theorem afterSpecifier?_eq_append {cs r : List Char} (h : afterSpecifier? cs = some r) :
    ∃ q line, isQuote q = true ∧ cs = q :: line ∧ firstLine line ++ r = line := by
  cases cs with
  | nil => simp [afterSpecifier?] at h
  | cons q line =>
    simp only [afterSpecifier?] at h
    split at h
    · next hq =>
      simp only [Option.some.injEq] at h
      simp only [Bool.and_eq_true] at hq
      refine ⟨q, line, hq.1, rfl, ?_⟩
      rw [← h]
      exact firstLine_append_drop line
    · simp at h

theorem afterSource?_eq_append {cs r : List Char} (h : afterSource? cs = some r) :
    ∃ w q line, (∀ c ∈ w, isQuote c = false) ∧ isQuote q = true ∧ cs = w ++ q :: line ∧
      firstLine line ++ r = line := by
  simp only [afterSource?, bind, Option.bind_eq_some_iff] at h
  obtain ⟨r₁, h₁, r₂, h₂, r₃, h₃, r₄, h₄, h₅⟩ := h
  obtain ⟨w₂, b₂, e₂⟩ := afterBlanks?_eq_append h₂
  obtain ⟨w₄, b₄, e₄⟩ := afterBlanks?_eq_append h₄
  obtain ⟨q, line, hq, e₅, hl⟩ := afterSpecifier?_eq_append h₅
  have hb : ∀ c ∈ ['}'], isQuote c = false := isQuote_of_all (by decide)
  have hf : ∀ c ∈ "from".toList, isQuote c = false := isQuote_of_all (by decide)
  refine ⟨['}'] ++ w₂ ++ ("from".toList ++ w₄), q, line, ?_, hq, ?_, hl⟩
  · intro c hc
    rcases List.mem_append.mp hc with hc | hc
    · rcases List.mem_append.mp hc with hc | hc
      · exact hb c hc
      · exact isQuote_of_isBlank (b₂ c hc)
    · rcases List.mem_append.mp hc with hc | hc
      · exact hf c hc
      · exact isQuote_of_isBlank (b₄ c hc)
  · rw [afterLit?_eq_some_iff.mp h₁, e₂, afterLit?_eq_some_iff.mp h₃, e₄, e₅]
    simp

/-- a declaration is its text and what follows -/
theorem textAt_append {wanted : List Export} {cs r : List Char} (h : after? wanted cs = some r) :
    textAt cs ++ r = cs := by
  simp only [after?, bind, Option.bind_eq_some_iff] at h
  obtain ⟨r₁, h₁, r₂, h₂, h₃⟩ := h
  split at h₃
  · rw [Option.some.injEq] at h₃
    subst h₃
    obtain ⟨w₁, b₁, e₁⟩ := afterOpening?_eq_append h₁
    obtain ⟨w₂, q, line, b₂, hq, e₂, hl⟩ := afterSource?_eq_append h₂
    have p₁ : ∀ c ∈ w₁, (c != '{') = true := fun c hc => by simpa using b₁ c hc
    have p₂ : ∀ c ∈ w₂, (!isQuote c) = true := fun c hc => by simp [b₂ c hc]
    have hin : cs.dropWhile (· != '{') = '{' :: r₁ := by
      rw [e₁, List.dropWhile_append_of_pos p₁]
      rfl
    have hopen : cs.takeWhile (· != '{') = w₁ := by
      rw [e₁, List.takeWhile_append_of_pos p₁]
      simp
    have hout : ('{' :: r₁).dropWhile (· != '}') = w₂ ++ q :: line := by rw [← e₂]; rfl
    have hbody : ('{' :: r₁).takeWhile (· != '}') = '{' :: r₁.takeWhile (· != '}') := rfl
    have hquote : (w₂ ++ q :: line).dropWhile (!isQuote ·) = q :: line := by
      rw [List.dropWhile_append_of_pos p₂, List.dropWhile_cons_of_neg (by simp [hq])]
    have hmiddle : (w₂ ++ q :: line).takeWhile (!isQuote ·) = w₂ := by
      rw [List.takeWhile_append_of_pos p₂, List.takeWhile_cons_of_neg (by simp [hq])]
      simp
    have ht : textAt cs = w₁ ++ '{' :: r₁.takeWhile (· != '}') ++ w₂ ++ q :: firstLine line := by
      simp only [textAt, hin, hopen, hout, hbody, hquote, hmiddle]
    calc textAt cs ++ r₂
        = w₁ ++ '{' :: (r₁.takeWhile (· != '}') ++ (w₂ ++ q :: (firstLine line ++ r₂))) := by
          rw [ht]; simp
      _ = w₁ ++ '{' :: (r₁.takeWhile (· != '}') ++ r₁.dropWhile (· != '}')) := by rw [hl, e₂]
      _ = cs := by rw [List.takeWhile_append_dropWhile, e₁]
  · simp at h₃

/-- a declaration is not empty -/
theorem after?_length {wanted : List Export} {cs r : List Char} (h : after? wanted cs = some r) :
    r.length < cs.length := by
  simp only [after?, bind, Option.bind_eq_some_iff] at h
  obtain ⟨r₁, h₁, r₂, h₂, h₃⟩ := h
  split at h₃
  · rw [Option.some.injEq] at h₃
    subst h₃
    obtain ⟨w₁, _, e₁⟩ := afterOpening?_eq_append h₁
    obtain ⟨w₂, q, line, _, _, e₂, hl⟩ := afterSource?_eq_append h₂
    have hd := (List.dropWhile_sublist (l := r₁) (· != '}')).length_le
    have hc := congrArg List.length e₁
    have ho := congrArg List.length e₂
    have hr := congrArg List.length hl
    simp only [List.length_append, List.length_cons] at hc ho hr
    omega
  · simp at h₃

/-! ## the cut -/

/-- the pieces of `cs`; `lineStart` says whether a line begins here -/
def piecesFrom (wanted : List Export) (lineStart : Bool) (cs : List Char) : List Piece :=
  match cs with
  | [] => []
  | c :: r =>
    match _h : if lineStart then after? wanted (c :: r) else none with
    | some rest =>
      .declaration (textAt (c :: r)) :: piecesFrom wanted false rest
    | none => .kept c :: piecesFrom wanted (c == '\n') r
termination_by cs.length
decreasing_by
  · split at _h
    · exact after?_length _h
    · simp at _h
  · simp

def pieces (wanted : List Export) (text : List Char) : List Piece := piecesFrom wanted true text

theorem flatMap_source_piecesFrom (wanted : List Export) (lineStart : Bool) (cs : List Char) :
    (piecesFrom wanted lineStart cs).flatMap Piece.source = cs := by
  fun_induction piecesFrom wanted lineStart cs with
  | case1 => rfl
  | case2 b c r rest h ih =>
    have h' : after? wanted (c :: r) = some rest := by
      split at h
      · exact h
      · simp at h
    rw [List.flatMap_cons, ih]
    exact textAt_append h'
  | case3 b c r h ih => rw [List.flatMap_cons, ih]; rfl

/-- nothing is lost by a cut -/
theorem flatMap_source_pieces (wanted : List Export) (text : List Char) :
    (pieces wanted text).flatMap Piece.source = text :=
  flatMap_source_piecesFrom wanted true text

/-! ## readings of the cut -/

/-- where a declaration stands in a text, `stop` excluded, and its characters -/
structure Span where
  start : Nat
  stop : Nat
  source : List Char
  deriving DecidableEq

/-- the spans of the declarations among `ps`, the first piece standing at `pos` -/
def spansFrom : Nat → List Piece → List Span
  | _, [] => []
  | pos, .kept _ :: ps => spansFrom (pos + 1) ps
  | pos, .declaration s :: ps => ⟨pos, pos + s.length, s⟩ :: spansFrom (pos + s.length) ps

def spans (wanted : List Export) (text : List Char) : List Span :=
  spansFrom 0 (pieces wanted text)

def occurs (wanted : List Export) (text : List Char) : Bool :=
  (pieces wanted text).any Piece.isDeclaration

/-- the text with `block` in the place of each declaration -/
def replace (wanted : List Export) (block text : List Char) : List Char :=
  (pieces wanted text).flatMap (Piece.withBlock block)

end Declaration

end Rebind
