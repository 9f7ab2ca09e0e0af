import Mathlib
import Rebind.Batch

/-!
# What does not depend on the bytes of files

Two trees have the same layout when they differ at most in the bytes of their regular files.  Where
a path leads, what the real path of a root is and which files are found below it are questions
about the layout alone: each function on the way to `Tree.realPath` and `Discovery.findNames` has
one equation here, in the order of the definitions.
-/

namespace Rebind

namespace Tree

/-- the trees differ at most in the bytes of their regular files -/
structure SameLayout (t t' : Tree) : Prop where
  keys : t'.entries.map Prod.fst = t.entries.map Prod.fst
  node : ∀ l, t'.get? l = t.get? l ∨ (t.bytes? l).isSome ∧ (t'.bytes? l).isSome

theorem bytes?_eq_some_iff {t : Tree} {l : Location} {bs : List UInt8} :
    t.bytes? l = some bs ↔ t.get? l = some (.file bs) := by
  unfold bytes?
  cases t.get? l with
  | none => simp
  | some n => cases n <;> simp

theorem bytes?_isSome_iff {t : Tree} {l : Location} :
    (t.bytes? l).isSome ↔ ∃ bs, t.get? l = some (.file bs) := by
  simp only [Option.isSome_iff_exists, bytes?_eq_some_iff]

/-! ## listing is a question about locations -/

/-- the name of a location in the directory `dir`, if it lies there -/
def nameIn? (dir : Location) : Location → Option Name
  | n :: l => if l = dir then some n else none
  | [] => none

theorem children_eq (t : Tree) (dir : Location) :
    t.children dir = (t.entries.map Prod.fst).filterMap (nameIn? dir) := by
  rw [List.filterMap_map]
  rfl

theorem below_eq (t : Tree) (dir : Location) :
    t.below dir = (t.entries.map Prod.fst).filterMap fun l =>
      (namesDown? dir [] l).filter (· ≠ []) := by
  rw [List.filterMap_map]
  rfl

namespace SameLayout
variable {t t' : Tree}

theorem refl (t : Tree) : SameLayout t t := ⟨rfl, fun _ => .inl rfl⟩

theorem trans {t'' : Tree} (h : SameLayout t t') (h' : SameLayout t' t'') : SameLayout t t'' := by
  refine ⟨h'.keys.trans h.keys, fun l => ?_⟩
  rcases h.node l with e | ⟨hf, hf'⟩
  · rcases h'.node l with e' | ⟨hf', hf''⟩
    · exact .inl (e'.trans e)
    · refine .inr ⟨?_, hf''⟩
      rwa [bytes?, e] at hf'
  · rcases h'.node l with e' | ⟨-, hf''⟩
    · refine .inr ⟨hf, ?_⟩
      rwa [bytes?, e']
    · exact .inr ⟨hf, hf''⟩

/-- at a location both trees have the same, or a file each -/
theorem cases (h : SameLayout t t') (l : Location) :
    t'.get? l = t.get? l ∨ ∃ bs bs', t.get? l = some (.file bs) ∧ t'.get? l = some (.file bs') := by
  rcases h.node l with e | ⟨hf, hf'⟩
  · exact .inl e
  · obtain ⟨bs, hbs⟩ := bytes?_isSome_iff.mp hf
    obtain ⟨bs', hbs'⟩ := bytes?_isSome_iff.mp hf'
    exact .inr ⟨bs, bs', hbs, hbs'⟩

theorem isDirectory (h : SameLayout t t') (l : Location) : t'.isDirectory l = t.isDirectory l := by
  unfold Tree.isDirectory
  rcases h.cases l with e | ⟨bs, bs', e, e'⟩
  · rw [e]
  · rw [e, e']
    simp

theorem isSome_bytes? (h : SameLayout t t') (l : Location) :
    (t'.bytes? l).isSome = (t.bytes? l).isSome := by
  rcases h.node l with e | ⟨hf, hf'⟩
  · rw [bytes?, e]
    rfl
  · rw [hf, hf']

theorem isSome_get? (h : SameLayout t t') (l : Location) :
    (t'.get? l).isSome = (t.get? l).isSome := by
  rcases h.cases l with e | ⟨bs, bs', e, e'⟩
  · rw [e]
  · rw [e, e']
    rfl

theorem children (h : SameLayout t t') (dir : Location) : t'.children dir = t.children dir := by
  rw [children_eq, children_eq, h.keys]

theorem below (h : SameLayout t t') (dir : Location) : t'.below dir = t.below dir := by
  rw [below_eq, below_eq, h.keys]

/-! ## following paths -/

theorem placeWith (h : SameLayout t t') (making : Bool)
    (follow : Location → List Name → Except Refused Place) (l : Location) (ns : List Name) :
    Tree.placeWith making follow t' l ns = Tree.placeWith making follow t l ns := by
  induction ns generalizing l with
  | nil => rfl
  | cons n ns ih =>
    rw [Tree.placeWith, Tree.placeWith, h.isDirectory, ih, ih, ih]
    rcases h.cases (n :: l) with e | ⟨bs, bs', e, e'⟩
    · rw [e]
    · rw [e, e']

theorem placeFrom (h : SameLayout t t') (making : Bool) (links : Nat) :
    t'.placeFrom making links = t.placeFrom making links := by
  induction links with
  | zero => funext l ns; exact h.placeWith making _ l ns
  | succ links ih =>
    funext l ns
    show Tree.placeWith making (t'.placeFrom making links) t' l ns = _
    rw [ih, h.placeWith]
    rfl

theorem place (h : SameLayout t t') (making : Bool) (cwd : Location) (p : Path) :
    t'.place making cwd p = t.place making cwd p := by
  rw [Tree.place, h.placeFrom]
  rfl

theorem target? (h : SameLayout t t') (cwd : Location) (p : Path) :
    t'.target? cwd p = t.target? cwd p := by
  rw [Tree.target?, h.place]
  rfl

theorem lastPlace (h : SameLayout t t') (cwd : Location) (p : Path) :
    t'.lastPlace cwd p = t.lastPlace cwd p := by
  simp only [Tree.lastPlace, h.target?, h.isDirectory, h.isSome_get?]

theorem ask (h : SameLayout t t') (cwd : Location) (text : List Char) (p : Path)
    (question : Location → Bool) : t'.ask cwd text p question = t.ask cwd text p question := by
  rw [Tree.ask, h.target?]
  rfl

theorem leadsSomewhere (h : SameLayout t t') (cwd : Location) (p : Path) :
    t'.leadsSomewhere cwd p = t.leadsSomewhere cwd p := h.ask cwd p.text p _

theorem leadsToDirectory (h : SameLayout t t') (cwd : Location) (p : Path) :
    t'.leadsToDirectory cwd p = t.leadsToDirectory cwd p := by
  rw [Tree.leadsToDirectory, h.ask, funext h.isDirectory]
  rfl

theorem leadsToFile (h : SameLayout t t') (cwd : Location) (p : Path) :
    t'.leadsToFile cwd p = t.leadsToFile cwd p := by
  rw [Tree.leadsToFile, h.ask, funext h.isSome_bytes?]
  rfl

theorem list (h : SameLayout t t') (cwd : Location) (p : Path) : t'.list cwd p = t.list cwd p := by
  simp only [Tree.list, h.target?, h.isDirectory, h.children]

theorem entryLeadsToDirectory (h : SameLayout t t') (cwd : Location) (dir : Path) (n : Name) :
    t'.entryLeadsToDirectory cwd dir n = t.entryLeadsToDirectory cwd dir n := by
  simp only [Tree.entryLeadsToDirectory, h.lastPlace, h.ask, funext h.isDirectory]
  split
  · next l _ =>
    rcases h.cases l with e | ⟨bs, bs', e, e'⟩
    · rw [e]
    · rw [e, e']
  · rfl

/-! ## real paths -/

theorem link? (h : SameLayout t t') (cwd : Location) (p : Path) :
    t'.link? cwd p = t.link? cwd p := by
  simp only [Tree.link?, h.lastPlace]
  split
  · next l _ =>
    rcases h.cases l with e | ⟨bs, bs', e, e'⟩
    · rw [e]
    · rw [e, e']
  · rfl
  · rfl

theorem resolveWith (h : SameLayout t t')
    (follow : Path → Met → List Name → Except Failure (Resolved × Met)) (cwd : Location) (p : Path)
    (met : Met) (ns : List Name) :
    Tree.resolveWith follow t' cwd p met ns = Tree.resolveWith follow t cwd p met ns := by
  induction ns generalizing p met with
  | nil => rfl
  | cons n ns ih => simp only [Tree.resolveWith, h.link?, ih]

theorem resolveFrom (h : SameLayout t t') (cwd : Location) (depth : Nat) :
    t'.resolveFrom cwd depth = t.resolveFrom cwd depth := by
  induction depth with
  | zero => funext p met ns; exact h.resolveWith _ cwd p met ns
  | succ depth ih =>
    funext p met ns
    show Tree.resolveWith (t'.resolveFrom cwd depth) t' cwd p met ns = _
    rw [ih, h.resolveWith]
    rfl

theorem realPath (h : SameLayout t t') (cwd : Location) (p : Path) :
    t'.realPath cwd p = t.realPath cwd p := by
  simp only [Tree.realPath, h.resolveFrom, h.target?]

/-! ## discovery -/

theorem visit (h : SameLayout t t') (cwd : Location) (root : Path) (depth : Nat)
    (names : List Name) :
    Discovery.visit t' cwd root depth names = Discovery.visit t cwd root depth names := by
  simp only [Discovery.visit, Discovery.enter, h.target?]

theorem directories (h : SameLayout t t') (cwd : Location) (root : Path) (names : List Name) :
    Discovery.directories t' cwd root names = Discovery.directories t cwd root names := by
  simp only [Discovery.directories, h.target?, h.visit, h.below, h.entryLeadsToDirectory]
  split
  · rfl
  · next l _ =>
    congr 1
    apply List.flatMap_congr
    intro ns _
    rcases h.cases (locationFrom l ns) with e | ⟨bs, bs', e, e'⟩
    · rw [e]
    · rw [e, e']

theorem search (h : SameLayout t t') (cwd : Location) (root : Path) (parts : List Discovery.Part) :
    Discovery.search t' cwd root parts = Discovery.search t cwd root parts := by
  induction parts with
  | nil => rfl
  | cons part parts ih =>
    funext names
    cases part with
    | anyDepth => simp only [Discovery.search, h.directories, ih]
    | wild atoms => simp only [Discovery.search, h.list, h.entryLeadsToDirectory, ih]
    | named n => simp only [Discovery.search, h.leadsSomewhere, h.leadsToDirectory, ih]
    | slash => rfl

theorem eligible (h : SameLayout t t') (cwd : Location) (extension : Extension) (p : Path)
    (names : List Name) :
    Discovery.eligible t' cwd extension p names = Discovery.eligible t cwd extension p names := by
  simp only [Discovery.eligible, h.leadsToFile]

theorem findNames (h : SameLayout t t') (cwd : Location) (root : Path) (extension : Extension) :
    Discovery.findNames t' cwd root extension = Discovery.findNames t cwd root extension := by
  simp only [Discovery.findNames, h.leadsToDirectory, Discovery.accepts_path,
    h.eligible, h.search]

end SameLayout

end Tree

end Rebind
