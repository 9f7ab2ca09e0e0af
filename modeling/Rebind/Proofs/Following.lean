import Rebind.Tree.Walk

/-!
# How a path is followed

`Tree.Follows` has a rule for each way to take a name of a path: to stay, to go up, to enter what is
found, to go on from a link's target, and to stop where nothing is.  A path leads to a place exactly
when the rules take it there (`Tree.placeFrom_eq_ok_iff`); what holds wherever paths lead is shown
rule by rule.
-/

namespace Rebind

namespace Tree
variable {making : Bool} {t : Tree} {links : Nat} {l : Location} {n : Name} {ns : List Name}

/-- the name `n`, with `ns` after it, is looked up in the directory `l` -/
structure LooksUp (making : Bool) (t : Tree) (l : Location) (n : Name) (ns : List Name) : Prop where
  isDirectory : t.isDirectory l = true
  notHere : ¬ (n = [] ∨ n = ['.'])
  notUp : n ≠ ['.', '.']
  noSlash : making = true → ns ≠ [[]]
  short : isLongName n = false

/-- following `ns` from `l` through at most so many links ends at the place -/
inductive Follows (making : Bool) (t : Tree) : Nat → Location → List Name → Place → Prop where
  | arrive {links : Nat} {l : Location} : Follows making t links l [] (.found l)
  | stay {links : Nat} {l : Location} {n : Name} {ns : List Name} {place : Place} :
      t.isDirectory l = true → n = [] ∨ n = ['.'] → Follows making t links l ns place →
      Follows making t links l (n :: ns) place
  | up {links : Nat} {l : Location} {ns : List Name} {place : Place} :
      t.isDirectory l = true → Follows making t links l.tail ns place →
      Follows making t links l (['.', '.'] :: ns) place
  | stop {links : Nat} {l : Location} {n : Name} :
      LooksUp making t l n [] → t.get? (n :: l) = none →
      Follows making t links l [n] (.free (n :: l))
  | link {links : Nat} {l : Location} {n : Name} {ns : List Name} {target : List Char}
      {place : Place} :
      LooksUp making t l n ns → t.get? (n :: l) = some (.link target) →
      Follows making t links (linkStart l target) (linkNames target ++ ns) place →
      Follows making t (links + 1) l (n :: ns) place
  | enter {links : Nat} {l : Location} {n : Name} {ns : List Name} {node : Node} {place : Place} :
      LooksUp making t l n ns → t.get? (n :: l) = some node → (∀ target, node ≠ .link target) →
      Follows making t links (n :: l) ns place → Follows making t links l (n :: ns) place

/-! ## one name -/

theorem placeFrom_nil : t.placeFrom making links l [] = .ok (.found l) := by
  cases links <;> rfl

theorem placeFrom_stay (hd : t.isDirectory l = true) (hn : n = [] ∨ n = ['.']) :
    t.placeFrom making links l (n :: ns) = t.placeFrom making links l ns := by
  cases links with
  | zero => rw [placeFrom, placeWith, hd, if_neg (by decide), if_pos (by simpa using hn)]
  | succ links => rw [placeFrom, placeWith, hd, if_neg (by decide), if_pos (by simpa using hn)]

theorem placeFrom_up (hd : t.isDirectory l = true) :
    t.placeFrom making links l (['.', '.'] :: ns) = t.placeFrom making links l.tail ns := by
  cases links with
  | zero => rw [placeFrom, placeWith, hd, if_neg (by decide), if_neg (by decide), if_pos rfl]
  | succ links => rw [placeFrom, placeWith, hd, if_neg (by decide), if_neg (by decide), if_pos rfl]

namespace LooksUp

/-- when paths are only read, the names after a name do not matter -/
theorem reading (h : LooksUp making t l n ns) (ms : List Name) : LooksUp false t l n ms :=
  ⟨h.isDirectory, h.notHere, h.notUp, fun h => (by cases h), h.short⟩

variable (h : LooksUp making t l n ns)
include h

theorem placeWith (follow : Location → List Name → Except Refused Place) :
    Tree.placeWith making follow t l (n :: ns) =
      match t.get? (n :: l) with
      | none => if ns = [] then .ok (.free (n :: l)) else .error .noEntry
      | some (.link target) => follow (linkStart l target) (linkNames target ++ ns)
      | some _ => Tree.placeWith making follow t (n :: l) ns := by
  have hslash : ¬ (making && decide (ns = [[]])) = true := by
    rw [Bool.and_eq_true, decide_eq_true_eq]
    exact fun hm => h.noSlash hm.1 hm.2
  rw [Tree.placeWith, h.isDirectory, if_neg (by decide), if_neg (by simpa using h.notHere),
    if_neg h.notUp, if_neg hslash, h.short]
  exact if_neg (by decide)

theorem placeFrom_link {target : List Char} (he : t.get? (n :: l) = some (.link target)) :
    t.placeFrom making (links + 1) l (n :: ns) =
      t.placeFrom making links (linkStart l target) (linkNames target ++ ns) := by
  rw [placeFrom, h.placeWith, he]

theorem placeFrom_enter {node : Node} (he : t.get? (n :: l) = some node)
    (hnode : ∀ target, node ≠ .link target) :
    t.placeFrom making links l (n :: ns) = t.placeFrom making links (n :: l) ns := by
  have hwith : ∀ follow, Tree.placeWith making follow t l (n :: ns) =
      Tree.placeWith making follow t (n :: l) ns := by
    intro follow
    rw [h.placeWith, he]
    cases node with
    | file bs => rfl
    | directory => rfl
    | link target => exact absurd rfl (hnode target)
  cases links with
  | zero => exact hwith _
  | succ links => exact hwith _

end LooksUp

theorem LooksUp.placeFrom_stop (h : LooksUp making t l n []) (he : t.get? (n :: l) = none) :
    t.placeFrom making links l [n] = .ok (.free (n :: l)) := by
  cases links with
  | zero => rw [placeFrom, h.placeWith, he]; rfl
  | succ links => rw [placeFrom, h.placeWith, he]; rfl

/-! ## a whole path -/

theorem follows_of_placeWith {follow : Location → List Name → Except Refused Place} {place : Place}
    (hfollow : ∀ l ns, follow l ns = .ok place →
      ∃ left, links = left + 1 ∧ Follows making t left l ns place)
    (h : placeWith making follow t l ns = .ok place) : Follows making t links l ns place := by
  induction ns generalizing l with
  | nil =>
    cases h
    exact .arrive
  | cons n ns ih =>
    rw [Tree.placeWith] at h
    split at h
    · cases h
    next hd =>
    have hd : t.isDirectory l = true := by simpa using hd
    split at h
    · next hn => exact .stay hd (by simpa using hn) (ih h)
    next hhere =>
    split at h
    · next hn =>
      subst hn
      exact .up hd (ih h)
    next hup =>
    split at h
    · cases h
    next hslash =>
    split at h
    · cases h
    next hlong =>
    have hn : LooksUp making t l n ns :=
      ⟨hd, by simpa using hhere, hup, fun hm => (by simpa [hm] using hslash), by simpa using hlong⟩
    split at h
    · next hnone =>
      split at h
      · next hns =>
        subst hns
        cases h
        exact .stop hn hnone
      · cases h
    · next target he =>
      obtain ⟨left, rfl, hf⟩ := hfollow _ _ h
      exact .link hn he hf
    · next node hnode he => exact .enter hn he (fun target => hnode target) (ih h)

/-- **A path leads where the rules take it.** -/
theorem placeFrom_eq_ok_iff {place : Place} :
    t.placeFrom making links l ns = .ok place ↔ Follows making t links l ns place := by
  constructor
  · intro h
    induction links generalizing l ns with
    | zero => exact follows_of_placeWith (fun _ _ hf => by cases hf) h
    | succ links ih => exact follows_of_placeWith (fun _ _ hf => ⟨links, rfl, ih hf⟩) h
  · intro h
    induction h with
    | arrive => exact placeFrom_nil
    | stay hd hn _ ih => rw [placeFrom_stay hd hn, ih]
    | up hd _ ih => rw [placeFrom_up hd, ih]
    | stop hn hnone => exact hn.placeFrom_stop hnone
    | link hn he _ ih => rw [hn.placeFrom_link he, ih]
    | enter hn he hnode _ ih => rw [hn.placeFrom_enter he hnode, ih]

end Tree

end Rebind
