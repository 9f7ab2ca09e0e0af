import Mathlib
import Rebind.Arguments.Parse

/-!
# What the text of an argument says

An argument is classified by its text alone.  Here each kind of token is tied to the texts that
have it, said without the classification:

* `Abbreviates`  a long name, cut short or not, with at least one letter after the dashes;
* `spelled`      such a name, alone or with what it carries after an equals sign;
* `IsPlain`      no leading dash, a dash alone, or a text that names no option and reads as a
                 negative number or holds a space.

The six long names differ in their first letter, so an abbreviation has one meaning
(`optionsFrom_eq_singleton_iff`), and no long name has an equals sign, so neither has an
abbreviation.
-/

namespace Rebind.Arguments

/-! ## long names cut short -/

/-- `head` is the long name of `o` or the beginning of it, the dashes and at least a letter -/
structure Abbreviates (head : List Char) (o : Opt) : Prop where
  letter : 3 ≤ head.length
  begins : head <+: o.long

theorem Opt.mem_all (o : Opt) : o ∈ Opt.all := by
  cases o with
  | valued v => cases v <;> decide
  | flag f => cases f <;> decide

theorem Opt.eq_of_letter {o o' : Opt} (h : o.long.take 3 = o'.long.take 3) : o = o' := by
  have hall : ∀ o ∈ Opt.all, ∀ o' ∈ Opt.all, o.long.take 3 = o'.long.take 3 → o = o' := by decide
  exact hall o o.mem_all o' o'.mem_all h

theorem Abbreviates.take_eq {head : List Char} {o : Opt} (h : Abbreviates head o) :
    head.take 3 = o.long.take 3 := by
  obtain ⟨rest, hr⟩ := h.begins
  rw [← hr, List.take_append_of_le_length h.letter]

theorem Abbreviates.unique {head : List Char} {o o' : Opt} (h : Abbreviates head o)
    (h' : head <+: o'.long) : o' = o :=
  Opt.eq_of_letter ((Abbreviates.mk h.letter h').take_eq.symm.trans h.take_eq)

theorem Abbreviates.eq_dashes {head : List Char} {o : Opt} (h : Abbreviates head o) :
    ∃ s, head = '-' :: '-' :: s := by
  have hall : ∀ o ∈ Opt.all, o.long.take 2 = ['-', '-'] := by decide
  obtain ⟨rest, hr⟩ := h.begins
  have h2 : head.take 2 = ['-', '-'] := by
    rw [← hall o o.mem_all, ← hr, List.take_append_of_le_length (by have := h.letter; omega)]
  have hsplit := List.take_append_drop 2 head
  rw [h2] at hsplit
  exact ⟨head.drop 2, hsplit.symm⟩

theorem Abbreviates.ne_divider {head : List Char} {o : Opt} (h : Abbreviates head o) :
    head ≠ dividerText := by
  rintro rfl
  exact absurd h.letter (by decide)

theorem Abbreviates.not_mem {head : List Char} {o : Opt} (h : Abbreviates head o) :
    '=' ∉ head := by
  have hall : ∀ o ∈ Opt.all, '=' ∉ o.long := by decide
  exact fun hm => hall o o.mem_all (h.begins.subset hm)

/-- a text is the beginning of one long name only exactly when it abbreviates it -/
theorem optionsFrom_eq_singleton_iff {head : List Char} {o : Opt} :
    optionsFrom head = [o] ↔ Abbreviates head o := by
  unfold optionsFrom
  constructor
  · intro h
    have hmem : o ∈ Opt.all.filter fun o => head.isPrefixOf o.long := by
      rw [h]
      exact List.mem_singleton_self o
    have hb : head <+: o.long := List.isPrefixOf_iff_prefix.mp (List.mem_filter.mp hmem).2
    refine ⟨?_, hb⟩
    by_contra hlt
    -- the dashes alone begin every long name
    have hdash : head <+: ['-', '-'] := by
      have hall : ∀ o ∈ Opt.all, ['-', '-'] <+: o.long := by decide
      exact List.prefix_of_prefix_length_le hb (hall o o.mem_all) (by simp; omega)
    have hself : (Opt.all.filter fun o => head.isPrefixOf o.long) = Opt.all := by
      rw [List.filter_eq_self]
      intro o' _
      have hall : ∀ o ∈ Opt.all, ['-', '-'] <+: o.long := by decide
      exact List.isPrefixOf_iff_prefix.mpr (hdash.trans (hall o' o'.mem_all))
    rw [hself] at h
    cases h
  · intro h
    have hsame : (Opt.all.filter fun o => head.isPrefixOf o.long) =
        Opt.all.filter fun o' => o' = o := by
      apply List.filter_congr
      intro o' _
      rw [Bool.eq_iff_iff, List.isPrefixOf_iff_prefix, decide_eq_true_eq]
      constructor
      · exact h.unique
      · rintro rfl
        exact h.begins
    have hall : ∀ o ∈ Opt.all, (Opt.all.filter fun o' => o' = o) = [o] := by decide
    rw [hsame]
    exact hall o o.mem_all

/-! ## long options -/

def spelled (head : List Char) : Option (List Char) → List Char
  | none => head
  | some value => head ++ '=' :: value

theorem splitEquals_spelled {head : List Char} (h : '=' ∉ head) (carried : Option (List Char)) :
    splitEquals (spelled head carried) = (head, carried) := by
  have hne : ∀ c ∈ head, (c != '=') = true := by
    intro c hc
    rw [bne_iff_ne]
    rintro rfl
    exact h hc
  unfold splitEquals spelled
  cases carried with
  | none =>
    dsimp only
    rw [List.dropWhile_eq_nil_iff.mpr hne]
    show (head.takeWhile (· != '='), none) = (head, none)
    rw [List.takeWhile_eq_self_iff.mpr hne]
  | some value =>
    dsimp only
    rw [List.dropWhile_append_of_pos hne]
    show ((head ++ '=' :: value).takeWhile (· != '='), some value) = (head, some value)
    rw [List.takeWhile_append_of_pos hne]
    simp

theorem spelled_splitEquals (s : List Char) :
    s = spelled (splitEquals s).1 (splitEquals s).2 := by
  have hs := List.takeWhile_append_dropWhile (p := (· != '=')) (l := s)
  unfold splitEquals
  cases hd : s.dropWhile (· != '=') with
  | nil =>
    rw [hd, List.append_nil] at hs
    exact hs.symm
  | cons c value =>
    have hc : c = '=' := by
      have := List.head?_dropWhile_not (· != '=') s
      rw [hd] at this
      simpa using this
    rw [hd, hc] at hs
    exact hs.symm

theorem spelled_dashes {head : List Char} (s : List Char) (h : head = '-' :: '-' :: s)
    (carried : Option (List Char)) : ∃ s', spelled head carried = '-' :: '-' :: s' := by
  subst h
  cases carried with
  | none => exact ⟨s, rfl⟩
  | some value => exact ⟨s ++ '=' :: value, rfl⟩

theorem spelled_ne_divider {head : List Char} {o : Opt} (h : Abbreviates head o)
    (carried : Option (List Char)) : spelled head carried ≠ dividerText := by
  cases carried with
  | none => exact h.ne_divider
  | some value =>
    intro he
    have hlen := congrArg List.length he
    have hletter := h.letter
    simp only [spelled, dividerText, List.length_append, List.length_cons, List.length_nil] at hlen
    omega

theorem classify_dashes (s : List Char) :
    classify ('-' :: '-' :: s) =
      match optionsFrom (splitEquals ('-' :: '-' :: s)).1 with
      | [] => .ok (undecided ('-' :: '-' :: s))
      | [o] => .ok (o.token (splitEquals ('-' :: '-' :: s)).2)
      | os => .error ⟨'-' :: '-' :: s, os⟩ := rfl

theorem classify_spelled {head : List Char} {o : Opt} (h : Abbreviates head o)
    (carried : Option (List Char)) : classify (spelled head carried) = .ok (o.token carried) := by
  obtain ⟨s, hs⟩ := h.eq_dashes
  obtain ⟨s', hs'⟩ := spelled_dashes s hs carried
  have hsplit := splitEquals_spelled h.not_mem carried
  rw [hs'] at hsplit ⊢
  rw [classify_dashes, hsplit, optionsFrom_eq_singleton_iff.mpr h]

/-! ## all that classifying can give -/

/-- an argument that begins like an option, whether or not one can be told from it -/
def NamesOption (a : List Char) : Prop :=
  ['-', '-'] <+: a ∧ (∃ o : Opt, a.takeWhile (· != '=') <+: o.long) ∨
    ∃ c, (Flag.ofLetter? c).isSome ∧ ['-', c] <+: a

/-- an argument that may be a value -/
def IsPlain (a : List Char) : Prop :=
  a.head? ≠ some '-' ∨ a = ['-'] ∨ ¬ NamesOption a ∧ (isNegativeNumber a = true ∨ ' ' ∈ a)

theorem undecided_eq (a : List Char) :
    undecided a = .plain a ∧ (isNegativeNumber a = true ∨ ' ' ∈ a) ∨ undecided a = .unknown a ∧
      ¬ (isNegativeNumber a = true ∨ ' ' ∈ a) := by
  unfold undecided
  split
  · next h =>
    rw [Bool.or_eq_true, List.contains_iff_mem] at h
    exact .inl ⟨rfl, h⟩
  · next h =>
    rw [Bool.or_eq_true, List.contains_iff_mem] at h
    exact .inr ⟨rfl, h⟩

theorem optionsFrom_eq_nil_iff {head : List Char} :
    optionsFrom head = [] ↔ ¬ ∃ o : Opt, head <+: o.long := by
  unfold optionsFrom
  rw [List.filter_eq_nil_iff]
  simp only [List.isPrefixOf_iff_prefix]
  exact ⟨fun h ⟨o, ho⟩ => h o o.mem_all ho, fun h o _ ho => h ⟨o, ho⟩⟩

theorem namesOption_dashes_iff {s : List Char} :
    NamesOption ('-' :: '-' :: s) ↔
      ∃ o : Opt, (splitEquals ('-' :: '-' :: s)).1 <+: o.long := by
  have hfirst : (splitEquals ('-' :: '-' :: s)).1 = ('-' :: '-' :: s).takeWhile (· != '=') := by
    unfold splitEquals
    cases ('-' :: '-' :: s).dropWhile (· != '=') <;> rfl
  rw [hfirst]
  constructor
  · rintro (⟨-, h⟩ | ⟨c, hc, hp⟩)
    · exact h
    · obtain rfl : c = '-' := by simpa using hp
      cases hc
  · intro h
    exact .inl ⟨⟨s, rfl⟩, h⟩

/-- what the letter of a short flag carries -/
def carriedBy : List Char → Option (List Char)
  | [] => none
  | '=' :: value => some value
  | value => some value

theorem classify_undashed {a : List Char} (h : a.head? ≠ some '-' ∨ a = ['-']) :
    classify a = .ok (.plain a) := by
  apply classify.eq_3
  · rintro s rfl
    simp at h
  · rintro c s rfl
    simp at h

theorem classify_letter {c : Char} {f : Flag} (hc : Flag.ofLetter? c = some f) (s : List Char) :
    classify ('-' :: c :: s) = .ok (.shortFlag f (carriedBy s)) := by
  have hdash : c ≠ '-' := by
    rintro rfl
    cases hc
  rw [classify.eq_2 c s hdash, hc]
  show (match s with
    | [] => Except.ok (Token.shortFlag f none)
    | '=' :: value => Except.ok (Token.shortFlag f (some value))
    | value => Except.ok (Token.shortFlag f (some value))) = _
  unfold carriedBy
  split <;> rfl

theorem classify_unnamed {a : List Char} (hd : a.head? = some '-') (hone : a ≠ ['-'])
    (h : ¬ NamesOption a) : classify a = .ok (undecided a) := by
  obtain ⟨t, rfl⟩ := List.head?_eq_some_iff.mp hd
  cases t with
  | nil => exact absurd rfl hone
  | cons c s =>
    by_cases hc : c = '-'
    · subst hc
      rw [classify_dashes, optionsFrom_eq_nil_iff.mpr (mt namesOption_dashes_iff.mpr h)]
    · have hnone : Flag.ofLetter? c = none := by
        rw [← Option.not_isSome_iff_eq_none]
        exact fun hs => h (.inr ⟨c, hs, s, rfl⟩)
      rw [classify.eq_2 c s hc, hnone]

/-- a plain argument is classified as such -/
theorem classify_of_isPlain {a : List Char} (h : IsPlain a) : classify a = .ok (.plain a) := by
  by_cases hu : a.head? ≠ some '-' ∨ a = ['-']
  · exact classify_undashed hu
  · rw [not_or, not_not] at hu
    rcases h with hd | hone | ⟨hn, hv⟩
    · exact absurd hu.1 hd
    · exact absurd hone hu.2
    · rw [classify_unnamed hu.1 hu.2 hn]
      rcases undecided_eq a with ⟨e, -⟩ | ⟨-, hnot⟩
      · rw [e]
      · exact absurd hv hnot

/-- all that classifying can give -/
theorem classify_cases {a : List Char} {t : Token} (h : classify a = .ok t) :
    t = .plain a ∧ IsPlain a ∨ t = .unknown a ∨
    (∃ head o carried, Abbreviates head o ∧ a = spelled head carried ∧ t = o.token carried) ∨
    ∃ c f s, Flag.ofLetter? c = some f ∧ a = '-' :: c :: s ∧ t = .shortFlag f (carriedBy s) := by
  by_cases hu : a.head? ≠ some '-' ∨ a = ['-']
  · rw [classify_undashed hu] at h
    cases h
    exact .inl ⟨rfl, hu.imp_right .inl⟩
  · rw [not_or, not_not] at hu
    by_cases hn : NamesOption a
    · obtain ⟨rest, rfl⟩ := List.head?_eq_some_iff.mp hu.1
      have hnames := hn
      rcases hn with ⟨⟨s, hs⟩, -⟩ | ⟨c, hc, s, hs⟩
      · obtain rfl : '-' :: s = rest := (List.cons.inj hs).2
        rw [classify_dashes] at h
        split at h
        · next ho =>
          exact absurd (namesOption_dashes_iff.mp hnames) (optionsFrom_eq_nil_iff.mp ho)
        · next o ho =>
          cases h
          exact .inr (.inr (.inl ⟨_, o, _, optionsFrom_eq_singleton_iff.mp ho,
            spelled_splitEquals _, rfl⟩))
        · cases h
      · obtain rfl : c :: s = rest := (List.cons.inj hs).2
        obtain ⟨f, hf⟩ := Option.isSome_iff_exists.mp hc
        rw [classify_letter hf] at h
        cases h
        exact .inr (.inr (.inr ⟨c, f, s, hf, rfl, rfl⟩))
    · rw [classify_unnamed hu.1 hu.2 hn] at h
      cases h
      rcases undecided_eq a with ⟨e, hv⟩ | ⟨e, -⟩
      · exact .inl ⟨e, .inr (.inr ⟨hn, hv⟩)⟩
      · exact .inr (.inl e)

end Rebind.Arguments
