import Rebind.Path

/-!
# the order of paths

Names are ordered by their characters, these by code point, and paths by their names; at the first
difference the smaller element decides, and a list that ends first comes first.  This is not the
order of the path texts, where a slash is a character among others.

`lexLe` is the step from elements to lists.  It takes a total order to a total order
(`lexLe_total`, `lexLe_trans`, `lexLe_antisymm`), so it gives one for names and one for paths.
-/

namespace Rebind

section
variable {α : Type} [DecidableEq α] {le : α → α → Bool}

/-- the order of lists by their first difference -/
def lexLe (le : α → α → Bool) : List α → List α → Bool
  | [], _ => true
  | _ :: _, [] => false
  | a :: as, b :: bs => if a = b then lexLe le as bs else le a b

theorem lexLe_total (h : ∀ a b, le a b = true ∨ le b a = true) (as bs : List α) :
    lexLe le as bs = true ∨ lexLe le bs as = true := by
  induction as generalizing bs with
  | nil => exact Or.inl rfl
  | cons a as ih =>
    cases bs with
    | nil => exact Or.inr rfl
    | cons b bs =>
      by_cases e : a = b
      · subst e
        simpa [lexLe] using ih bs
      · have e' : b ≠ a := fun h => e h.symm
        simp only [lexLe, if_neg e, if_neg e']
        exact h a b

theorem lexLe_antisymm (h : ∀ a b, le a b = true → le b a = true → a = b) {as bs : List α}
    (h₁ : lexLe le as bs = true) (h₂ : lexLe le bs as = true) : as = bs := by
  induction as generalizing bs with
  | nil =>
    cases bs with
    | nil => rfl
    | cons b bs => simp [lexLe] at h₂
  | cons a as ih =>
    cases bs with
    | nil => simp [lexLe] at h₁
    | cons b bs =>
      by_cases e : a = b
      · subst e
        simp only [lexLe, if_true] at h₁ h₂
        rw [ih h₁ h₂]
      · have e' : b ≠ a := fun h => e h.symm
        simp only [lexLe, if_neg e] at h₁
        simp only [lexLe, if_neg e'] at h₂
        exact absurd (h a b h₁ h₂) e

theorem lexLe_trans (h : ∀ a b c, le a b = true → le b c = true → le a c = true)
    (anti : ∀ a b, le a b = true → le b a = true → a = b) {as bs cs : List α}
    (h₁ : lexLe le as bs = true) (h₂ : lexLe le bs cs = true) : lexLe le as cs = true := by
  induction as generalizing bs cs with
  | nil => rfl
  | cons a as ih =>
    cases bs with
    | nil => simp [lexLe] at h₁
    | cons b bs =>
      cases cs with
      | nil => simp [lexLe] at h₂
      | cons c cs =>
        by_cases e : a = b
        · subst e
          by_cases e' : a = c
          · subst e'
            simp only [lexLe, if_true] at h₁ h₂ ⊢
            exact ih h₁ h₂
          · simpa [lexLe, e'] using h₂
        · by_cases e' : b = c
          · subst e'
            simpa [lexLe, e] using h₁
          · simp only [lexLe, if_neg e] at h₁
            simp only [lexLe, if_neg e'] at h₂
            have hac : a ≠ c := by
              rintro rfl
              exact e (anti a b h₁ h₂)
            simp only [lexLe, if_neg hac]
            exact h a b c h₁ h₂

end

/-! ## characters, names, paths -/

/-- the order of characters by code point -/
def charLe (a b : Char) : Bool := a.toNat ≤ b.toNat

def nameLe : Name → Name → Bool := lexLe charLe

def namesLe : List Name → List Name → Bool := lexLe nameLe

theorem charLe_total (a b : Char) : charLe a b = true ∨ charLe b a = true := by
  simpa [charLe] using Nat.le_total a.toNat b.toNat

theorem charLe_antisymm (a b : Char) (h₁ : charLe a b = true) (h₂ : charLe b a = true) : a = b := by
  simp only [charLe, decide_eq_true_eq] at h₁ h₂
  exact Char.ext (UInt32.toNat_inj.mp (Nat.le_antisymm h₁ h₂))

theorem charLe_trans (a b c : Char) (h₁ : charLe a b = true) (h₂ : charLe b c = true) :
    charLe a c = true := by
  simp only [charLe, decide_eq_true_eq] at h₁ h₂ ⊢
  exact Nat.le_trans h₁ h₂

theorem nameLe_antisymm (a b : Name) (h₁ : nameLe a b = true) (h₂ : nameLe b a = true) : a = b :=
  lexLe_antisymm charLe_antisymm h₁ h₂

theorem nameLe_trans (a b c : Name) (h₁ : nameLe a b = true) (h₂ : nameLe b c = true) :
    nameLe a c = true :=
  lexLe_trans charLe_trans charLe_antisymm h₁ h₂

theorem namesLe_total (as bs : List Name) : namesLe as bs = true ∨ namesLe bs as = true :=
  lexLe_total (lexLe_total charLe_total) as bs

theorem namesLe_antisymm (as bs : List Name) (h₁ : namesLe as bs = true)
    (h₂ : namesLe bs as = true) : as = bs :=
  lexLe_antisymm nameLe_antisymm h₁ h₂

theorem namesLe_trans (as bs cs : List Name) (h₁ : namesLe as bs = true)
    (h₂ : namesLe bs cs = true) : namesLe as cs = true :=
  lexLe_trans nameLe_trans nameLe_antisymm h₁ h₂

end Rebind
