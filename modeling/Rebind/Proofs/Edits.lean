import Rebind.Proofs.Outcomes

/-!
# Steps of work on a text

A text is worked on in steps: it is fixed, by whatever path, or something is put before or after
it.  None of these takes the marker out of a text (`isPatched_apply`), and a fix writes it; so

    Edit.outcomes_eq : no match, no match, ..., perhaps fixed once, already patched, already patched, ...

is what the fixes among the steps answer, in whatever order the steps come.  A replacement of parts
could take the marker out again, so it is not among the steps here (`Edit.Adds`).
-/

namespace Rebind

/-- all that a fix can do -/
theorem fix_cases (path text : List Char) :
    isPatched text = true ∧ fix path text = ⟨text, .alreadyPatched⟩ ∨
    isPatched text = false ∧ fix path text = ⟨text, .noMatch⟩ ∨
    isPatched text = false ∧ (fix path text).outcome = .fixed ∧
      isPatched (fix path text).text = true := by
  cases hp : isPatched text with
  | true => exact .inl ⟨rfl, by rw [fix_eq, if_pos hp]⟩
  | false =>
    refine .inr ?_
    cases ho : isOpen text with
    | true => exact .inr ⟨rfl, outcome_fix_eq_fixed_iff.mpr ho, isPatched_fix ho⟩
    | false =>
      have hn : (hasImport .internal text || hasImport .api text) = false := by
        rw [isOpen, hp] at ho
        exact ho
      refine .inl ⟨rfl, ?_⟩
      rw [fix_eq, hp, hn]
      rfl

theorem fix_of_isPatched {text : List Char} (h : isPatched text = true) (path : List Char) :
    fix path text = ⟨text, .alreadyPatched⟩ := by
  rcases fix_cases path text with ⟨-, e⟩ | ⟨hn, -⟩ | ⟨hn, -⟩
  · exact e
  · rw [h] at hn
    cases hn
  · rw [h] at hn
    cases hn

theorem fix_fix (path path' text : List Char) :
    (fix path' (fix path text).text).text = (fix path text).text := text_fix (isOpen_fix path text)

namespace Edit

/-- the step fixes a text or adds to it -/
def Adds : Edit → Prop
  | .replace _ _ => False
  | _ => True

def applyAll (text : List Char) (edits : List Edit) : List Char := edits.foldl apply text

def outcomes (text : List Char) : List Edit → List Outcome
  | [] => []
  | .fix path :: edits => (Rebind.fix path text).outcome :: outcomes (Rebind.fix path text).text edits
  | e :: edits => outcomes (e.apply text) edits

theorem applyAll_append (text : List Char) (edits edits' : List Edit) :
    applyAll text (edits ++ edits') = applyAll (applyAll text edits) edits' :=
  List.foldl_append

/-! ## the marker stays -/

theorem isPatched_apply {text : List Char} (h : isPatched text = true) {e : Edit} (he : e.Adds) :
    isPatched (e.apply text) = true := by
  cases e with
  | fix path =>
    show isPatched (Rebind.fix path text).text = true
    rw [fix_of_isPatched h]
    exact h
  | append s => exact isPatched_of_infix (List.prefix_append text s).isInfix h
  | prepend s => exact isPatched_of_infix (List.suffix_append s text).isInfix h
  | replace a b => exact he.elim

theorem isPatched_applyAll {text : List Char} (h : isPatched text = true) {edits : List Edit}
    (he : ∀ e ∈ edits, e.Adds) : isPatched (applyAll text edits) = true := by
  induction edits generalizing text with
  | nil => exact h
  | cons e edits ih =>
    obtain ⟨hadds, hrest⟩ := List.forall_mem_cons.mp he
    exact ih (isPatched_apply h hadds) hrest

/-! ## what the fixes answer -/

theorem outcomes_of_isPatched {text : List Char} (h : isPatched text = true) {edits : List Edit}
    (he : ∀ e ∈ edits, e.Adds) : ∃ n, outcomes text edits = List.replicate n .alreadyPatched := by
  induction edits generalizing text with
  | nil => exact ⟨0, rfl⟩
  | cons e edits ih =>
    obtain ⟨hadds, hrest⟩ := List.forall_mem_cons.mp he
    obtain ⟨n, hn⟩ := ih (isPatched_apply h hadds) hrest
    cases e with
    | fix path =>
      refine ⟨n + 1, ?_⟩
      show (Rebind.fix path text).outcome :: outcomes (apply text (.fix path)) edits = _
      rw [hn, fix_of_isPatched h]
      rfl
    | append s => exact ⟨n, hn⟩
    | prepend s => exact ⟨n, hn⟩
    | replace a b => exact hadds.elim

/-- what the fixes among steps answer, from any text -/
theorem outcomes_eq (text : List Char) {edits : List Edit} (he : ∀ e ∈ edits, e.Adds) :
    ∃ m n middle, outcomes text edits =
        List.replicate m .noMatch ++ middle ++ List.replicate n .alreadyPatched ∧
      (middle = [] ∨ middle = [.fixed]) := by
  induction edits generalizing text with
  | nil => exact ⟨0, 0, [], rfl, .inl rfl⟩
  | cons e edits ih =>
    obtain ⟨hadds, hrest⟩ := List.forall_mem_cons.mp he
    cases e with
    | fix path =>
      show ∃ m n middle, (Rebind.fix path text).outcome :: outcomes (Rebind.fix path text).text edits =
        _ ∧ _
      rcases fix_cases path text with ⟨hp, e⟩ | ⟨-, e⟩ | ⟨-, ho, hp⟩
      · obtain ⟨n, hn⟩ := outcomes_of_isPatched hp hrest
        rw [e, hn]
        exact ⟨0, n + 1, [], rfl, .inl rfl⟩
      · obtain ⟨m, n, middle, hm, hor⟩ := ih text hrest
        rw [e, hm]
        exact ⟨m + 1, n, middle, rfl, hor⟩
      · obtain ⟨n, hn⟩ := outcomes_of_isPatched hp hrest
        rw [ho, hn]
        exact ⟨0, n, [.fixed], rfl, .inr rfl⟩
    | append s => exact ih _ hrest
    | prepend s => exact ih _ hrest
    | replace a b => exact hadds.elim

theorem count_fixed_outcomes (text : List Char) {edits : List Edit} (he : ∀ e ∈ edits, e.Adds) :
    (outcomes text edits).count .fixed ≤ 1 := by
  obtain ⟨m, n, middle, hm, hor⟩ := outcomes_eq text he
  rw [hm, List.count_append, List.count_append, List.count_replicate, List.count_replicate]
  rcases hor with rfl | rfl
  · exact Nat.zero_le 1
  · exact Nat.le_refl 1

/-- at most one fix changes the text, and every fix after it finds the text patched -/
theorem fixed_once (text : List Char) (edits : List Edit) (he : ∀ e ∈ edits, e.Adds) :
    (outcomes text edits).count .fixed ≤ 1 ∧
    (∀ before path rest, edits = before ++ .fix path :: rest →
      (Rebind.fix path (applyAll text before)).outcome = .fixed →
      isPatched (applyAll text (before ++ [.fix path])) = true ∧
      ∀ between path' rest', rest = between ++ .fix path' :: rest' →
        Rebind.fix path' (applyAll text (before ++ .fix path :: between)) =
          ⟨applyAll text (before ++ .fix path :: between), .alreadyPatched⟩) ∧
    ∀ path path', (Rebind.fix path' (Rebind.fix path text).text).text =
      (Rebind.fix path text).text := by
  refine ⟨count_fixed_outcomes text he, ?_, fun path path' => fix_fix path path' text⟩
  rintro before path rest rfl ho
  have hp : isPatched (applyAll text (before ++ [.fix path])) = true := by
    rw [applyAll_append]
    exact isPatched_fix (outcome_fix_eq_fixed_iff.mp ho)
  refine ⟨hp, ?_⟩
  rintro between path' rest' rfl
  have hbetween : ∀ e ∈ between, e.Adds := fun e hm =>
    he e (List.mem_append_right _ (List.mem_cons_of_mem _ (List.mem_append_left _ hm)))
  apply fix_of_isPatched
  rw [List.append_cons, applyAll_append]
  exact isPatched_applyAll hp hbetween

/-- a declaration comes into a text, is fixed by a path with the marker, and fixed again -/
def patience : List Edit :=
  [.fix ['a'], .append "import \x7bapi\x7d from './_generated/api'".toList,
    .fix ("'\n".toList ++ marker), .prepend ['/'], .fix ['b']]

theorem fixed_once_patience :
    outcomes [] patience = [.noMatch, .fixed, .alreadyPatched] ∧
    (Rebind.fix ['b'] (applyAll [] (patience.take 4))).text = applyAll [] (patience.take 4) := by
  obtain ⟨-, hfixed, -⟩ := fixed_once [] patience (by simp [patience, Adds])
  obtain ⟨-, hlater⟩ := hfixed (patience.take 2) ("'\n".toList ++ marker) _ rfl (by decide +kernel)
  refine ⟨by decide +kernel, ?_⟩
  have h := hlater [.prepend ['/']] ['b'] [] rfl
  exact congrArg Fix.text h

end Edit

end Rebind
