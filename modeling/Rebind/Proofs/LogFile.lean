import Rebind.Invocation
import Rebind.Proofs.Reach

/-!
# Opening the log file

The log file is opened before anything else is done with the tree.  What is not there is made, the
directories above it first, and a path leads to a free place only where nothing is
(`Tree.Follows.isFree`, `Tree.free_of_lastPlace`); so no regular file changes, and at most one
appears, which is empty.

`Tree.Opened` says so for a file that may be opened, and `Invocation.opened_of_openSink` for the
sink of an invocation.  Where opening fails, directories may have been made, and no file.
-/

namespace Rebind

namespace Tree
variable {t t' : Tree} {cwd k : Location} {p : Path}

/-! ## free places -/

/-- nothing is at the place, and something can be made there -/
def IsFree (t : Tree) (k : Location) : Prop := k ≠ [] ∧ t.get? k = none

theorem Follows.isFree {making : Bool} {links : Nat} {l : Location} {ns : List Name}
    (h : Follows making t links l ns (.free k)) : t.IsFree k := by
  generalize hplace : Place.free k = place at h
  induction h with
  | arrive => cases hplace
  | stay _ _ _ ih => exact ih hplace
  | up _ _ ih => exact ih hplace
  | @stop links l n _ hnone =>
    cases hplace
    exact ⟨List.cons_ne_nil n l, hnone⟩
  | link _ _ _ ih => exact ih hplace
  | enter _ _ _ _ ih => exact ih hplace

theorem free_of_lastPlace (h : t.lastPlace cwd p = .ok (.free k)) : t.IsFree k := by
  unfold lastPlace at h
  split at h
  · cases h
  · next n _ =>
    obtain ⟨dir, -, h⟩ := bind_eq_ok_iff.mp h
    split at h
    · cases h
    split at h
    · cases h
    split at h
    · cases h
    split at h
    · cases h
    · next hnone =>
      cases h
      exact ⟨List.cons_ne_nil n dir, Option.not_isSome_iff_eq_none.mp hnone⟩

/-! ## files that may be opened -/

/-- from `t` to `t'` the regular files stay as they are, except that `file`, if there is one, is
made when it is not there -/
structure Opened (file : Option Location) (t t' : Tree) : Prop where
  here : ∀ l, file = some l → t'.bytes? l = some ((t.bytes? l).getD [])
  others : ∀ l, file ≠ some l → t'.bytes? l = t.bytes? l

namespace Opened

theorem refl (t : Tree) : Opened none t t := ⟨fun _ h => (by cases h), fun _ _ => rfl⟩

theorem of_none (h : Opened none t t') (l : Location) : t'.bytes? l = t.bytes? l :=
  h.others l (by simp)

theorem trans {file : Option Location} {t'' : Tree} (h : Opened none t t')
    (h' : Opened file t' t'') : Opened file t t'' := by
  refine ⟨fun l hl => ?_, fun l hl => ?_⟩
  · rw [h'.here l hl, h.of_none]
  · rw [h'.others l hl, h.of_none]

theorem makeDirectory (h : t.makeDirectory cwd p = .ok t') : Opened none t t' := by
  obtain ⟨-, -, h⟩ := handed_eq_ok_iff.mp h
  obtain ⟨place, hplace, h⟩ := bind_eq_ok_iff.mp h
  cases place with
  | found l => cases h
  | free k =>
    cases h
    obtain ⟨hne, hnone⟩ := free_of_lastPlace hplace
    refine ⟨fun _ h => (by cases h), fun l _ => ?_⟩
    unfold bytes?
    rw [get?_put t hne]
    by_cases hl : l = k
    · rw [if_pos hl, hl, hnone]
    · rw [if_neg hl]

theorem makeDirectoriesFrom (t : Tree) (cwd : Location) (depth : Nat) (p : Path) :
    Opened none t (t.makeDirectoriesFrom cwd depth p).1 := by
  fun_induction Tree.makeDirectoriesFrom t cwd depth p with
  | case1 => exact .refl t
  | case2 _ _ _ hmade => exact .makeDirectory hmade
  | case3 => exact .refl t
  | case4 _ _ _ _ _ _ _ habove ih => rwa [habove] at ih
  | case5 _ _ _ _ _ _ habove _ hmade ih =>
    rw [habove] at ih
    exact ih.trans (.makeDirectory hmade)
  | case6 _ _ _ _ _ _ habove _ _ ih => rwa [habove] at ih
  | case7 _ _ _ _ _ _ habove _ _ _ ih => rwa [habove] at ih
  | case8 => exact .refl t

theorem makeDirectories (t : Tree) (cwd : Location) (p : Path) :
    Opened none t (t.makeDirectories cwd p).1 := makeDirectoriesFrom t cwd makeLimit p

theorem openFile {l : Location} (h : t.openFile cwd p = .ok (l, t')) : Opened (some l) t t' := by
  obtain ⟨-, -, h⟩ := handed_eq_ok_iff.mp h
  obtain ⟨place, hplace, h⟩ := bind_eq_ok_iff.mp h
  cases place with
  | free k =>
    cases h
    obtain ⟨hne, hnone⟩ := (placeFrom_eq_ok_iff.mp hplace).isFree
    refine ⟨fun m hm => ?_, fun m hm => ?_⟩
    · cases hm
      rw [bytes?_put_file hne, if_pos rfl, bytes?, hnone]
      rfl
    · rw [bytes?_put_file hne, if_neg fun he => hm (congrArg some he.symm)]
  | found k =>
    have h : (if (t.bytes? k).isSome then .ok (k, t) else .error Refused.isDirectory) =
      Except.ok (l, t') := h
    split at h
    · next hfile =>
      cases h
      refine ⟨fun m hm => ?_, fun m hm => rfl⟩
      cases hm
      obtain ⟨bs, hbs⟩ := Option.isSome_iff_exists.mp hfile
      rw [hbs]
      rfl
    · cases h

end Opened

end Tree

/-! ## the sink of an invocation -/

namespace Invocation
variable {i : Invocation} {t t' : Tree}

theorem opened_of_openLog {p : Path} {r : Except Failure Location}
    (h : i.openLog t p = (t', r)) : Tree.Opened r.toOption t t' := by
  unfold openLog at h
  split at h
  · cases h
    exact .refl t
  next p _ =>
  split at h
  · next habove =>
    cases h
    have := Tree.Opened.makeDirectories t i.cwd p.parent
    rwa [habove] at this
  next t₁ habove =>
  have hmade := Tree.Opened.makeDirectories t i.cwd p.parent
  rw [habove] at hmade
  split at h
  · cases h
    exact hmade
  · next hopen =>
    cases h
    exact hmade.trans (.openFile hopen)

/-- opening the sink makes no file but the log file, and changes none -/
theorem opened_of_openSink {s : Settings} {r : Except Failure Log.Sink}
    (h : i.openSink t s = (t', r)) :
    Tree.Opened (r.toOption.bind Log.Sink.file) t t' := by
  unfold openSink at h
  dsimp only at h
  split at h
  · cases h
    exact .refl t
  · cases h
    exact .refl t
  · split at h
    · next hlog =>
      cases h
      exact opened_of_openLog hlog
    · next hlog =>
      cases h
      exact opened_of_openLog hlog

end Invocation

end Rebind
