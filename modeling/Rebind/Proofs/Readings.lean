import Rebind.Text.Pattern

/-!
# What a pattern reads

`Pattern.Reads p behind w r` says, without an order of tries, that `p` may read `w` where `behind`
lies behind (the nearest character first) and `r` lies ahead of `w`.  The greedy reader finds
nothing else (`run_sound`), and where some reading leads on it finds one (`run_complete`): what
comes first may be taken back, so no choice that it makes can lose them all.

So a match is a reading (`exists_reads_of_matchAt`), and a position at which all readings end alike
has the match that any one of them gives (`matchAt_of_reads`).
-/

namespace Rebind

/-- the places that a pattern asks for, by what lies on either side -/
def LineBegins (behind : List Char) : Prop := ∀ c ∈ behind.head?, c = '\n'

def LineFeedAhead (r : List Char) : Prop := ∀ c ∈ r.head?, c = '\n'

namespace Cursor

theorem startsLine_iff {cur : Cursor} : cur.startsLine = true ↔ LineBegins cur.behind := by
  simp [startsLine, LineBegins, Option.all_eq_true]

theorem stopsLine_iff {cur : Cursor} : cur.stopsLine = true ↔ LineFeedAhead cur.ahead := by
  simp [stopsLine, LineFeedAhead, Option.all_eq_true]

end Cursor

theorem CharSet.forall_holds_except_iff {cs w : List Char} :
    (∀ c ∈ w, (CharSet.except cs).holds c = true) ↔ ∀ d ∈ cs, d ∉ w := by
  simp only [CharSet.holds, Bool.not_eq_true', List.contains_eq_mem, decide_eq_false_iff_not]
  exact ⟨fun h d hd hm => h d hm hd, fun h c hc hm => h c hm hc⟩

namespace Pattern

/-! ## readings -/

/-- `p` may read `w` between `behind` and `r` -/
def Reads : Pattern → List Char → List Char → List Char → Prop
  | .lit s, _, w, _ => w = s
  | .one k, _, w, _ => ∃ c, w = [c] ∧ k.holds c = true
  | .many k, _, w, _ => ∀ c ∈ w, k.holds c = true
  | .opt p, behind, w, r => w = [] ∨ p.Reads behind w r
  | .seq p q, behind, w, r =>
    ∃ u v, w = u ++ v ∧ p.Reads behind u (v ++ r) ∧ q.Reads (u.reverse ++ behind) v r
  | .ahead p, behind, w, r => w = [] ∧ ∃ u v, r = u ++ v ∧ p.Reads behind u v
  | .lineStart, behind, w, _ => w = [] ∧ LineBegins behind
  | .lineEnd, _, w, r => w = [] ∧ LineFeedAhead r
  | .wordEdge, behind, w, r => w = [] ∧ (Cursor.mk behind r).atWordEdge = true

theorem runMany_sound {k : CharSet} {next : Cursor → Option Cursor} {behind cs : List Char}
    {v : Cursor} (h : runMany k next behind cs = some v) :
    ∃ w r, cs = w ++ r ∧ (∀ c ∈ w, k.holds c = true) ∧ next ⟨w.reverse ++ behind, r⟩ = some v := by
  have stay : ∀ {behind cs : List Char}, next ⟨behind, cs⟩ = some v →
      ∃ w r, cs = w ++ r ∧ (∀ c ∈ w, k.holds c = true) ∧
        next ⟨w.reverse ++ behind, r⟩ = some v :=
    fun {_ cs} hn => ⟨[], cs, rfl, by simp, hn⟩
  induction cs generalizing behind with
  | nil => exact stay h
  | cons c cs ih =>
    rw [runMany] at h
    split at h
    · next hc =>
      rw [Option.orElse_eq_or, Option.or_eq_some_iff] at h
      rcases h with h | ⟨-, h⟩
      · obtain ⟨w, r, rfl, hw, hv⟩ := ih h
        refine ⟨c :: w, r, rfl, ?_, by simpa using hv⟩
        intro d hd
        rcases List.mem_cons.mp hd with rfl | hd
        · exact hc
        · exact hw d hd
      · exact stay h
    · exact stay h

theorem runMany_complete {k : CharSet} {next : Cursor → Option Cursor} {w : List Char}
    (hw : ∀ c ∈ w, k.holds c = true) {behind r : List Char}
    (h : (next ⟨w.reverse ++ behind, r⟩).isSome = true) :
    (runMany k next behind (w ++ r)).isSome = true := by
  induction w generalizing behind with
  | nil =>
    cases r with
    | nil => exact h
    | cons c r =>
      rw [List.nil_append, runMany]
      split
      · rw [Option.orElse_eq_or, Option.isSome_or, Bool.or_eq_true]
        exact Or.inr h
      · exact h
  | cons c w ih =>
    rw [List.cons_append, runMany, if_pos (hw c (by simp)), Option.orElse_eq_or, Option.isSome_or,
      Bool.or_eq_true]
    exact Or.inl (ih (fun d hd => hw d (by simp [hd])) (by simpa using h))

/-- what the reader finds is a reading, and leads on -/
theorem run_sound {p : Pattern} {next : Cursor → Option Cursor} {behind cs : List Char} {v : Cursor}
    (h : p.run next ⟨behind, cs⟩ = some v) :
    ∃ w r, cs = w ++ r ∧ p.Reads behind w r ∧ next ⟨w.reverse ++ behind, r⟩ = some v := by
  induction p generalizing next behind cs v with
  | lit s =>
    obtain ⟨r, hr, hv⟩ := Option.bind_eq_some_iff.mp h
    exact ⟨s, r, afterLit?_eq_some_iff.mp hr, rfl, hv⟩
  | one k =>
    cases cs with
    | nil => cases h
    | cons c r =>
      rw [run] at h
      split at h
      · next hc => exact ⟨[c], r, rfl, ⟨c, rfl, hc⟩, h⟩
      · cases h
  | many k => exact runMany_sound h
  | opt p ih =>
    rw [run, Option.orElse_eq_or, Option.or_eq_some_iff] at h
    rcases h with h | ⟨-, h⟩
    · obtain ⟨w, r, rfl, hw, hv⟩ := ih h
      exact ⟨w, r, rfl, Or.inr hw, hv⟩
    · exact ⟨[], cs, rfl, Or.inl rfl, h⟩
  | seq p q ihp ihq =>
    obtain ⟨u, r, rfl, hu, hq⟩ := ihp h
    obtain ⟨w, r, rfl, hw, hv⟩ := ihq hq
    refine ⟨u ++ w, r, by rw [List.append_assoc], ⟨u, w, rfl, hu, hw⟩, ?_⟩
    rw [List.reverse_append, List.append_assoc]
    exact hv
  | ahead p ih =>
    rw [run] at h
    split at h
    · next hp =>
      obtain ⟨v', hv'⟩ := Option.isSome_iff_exists.mp hp
      obtain ⟨w, r, rfl, hw, -⟩ := ih hv'
      exact ⟨[], w ++ r, rfl, ⟨rfl, w, r, rfl, hw⟩, h⟩
    · cases h
  | lineStart =>
    rw [run] at h
    split at h
    · next hs => exact ⟨[], cs, rfl, ⟨rfl, Cursor.startsLine_iff.mp hs⟩, h⟩
    · cases h
  | lineEnd =>
    rw [run] at h
    split at h
    · next hs => exact ⟨[], cs, rfl, ⟨rfl, Cursor.stopsLine_iff.mp hs⟩, h⟩
    · cases h
  | wordEdge =>
    rw [run] at h
    split at h
    · next hs => exact ⟨[], cs, rfl, ⟨rfl, hs⟩, h⟩
    · cases h

/-- where some reading leads on, the reader finds one that does -/
theorem run_complete {p : Pattern} {next : Cursor → Option Cursor} {behind w r : List Char}
    (hw : p.Reads behind w r) (h : (next ⟨w.reverse ++ behind, r⟩).isSome = true) :
    (p.run next ⟨behind, w ++ r⟩).isSome = true := by
  induction p generalizing next behind w r with
  | lit s =>
    obtain rfl : w = s := hw
    rw [run, afterLit?_append]
    exact h
  | one k =>
    obtain ⟨c, rfl, hc⟩ := hw
    show (if k.holds c = true then next ⟨c :: behind, r⟩ else none).isSome = true
    rw [if_pos hc]
    exact h
  | many k => exact runMany_complete hw h
  | opt p ih =>
    rw [run, Option.orElse_eq_or, Option.isSome_or, Bool.or_eq_true]
    rcases hw with rfl | hw
    · exact Or.inr h
    · exact Or.inl (ih hw h)
  | seq p q ihp ihq =>
    obtain ⟨u, v, rfl, hu, hv⟩ := hw
    rw [List.reverse_append, List.append_assoc] at h
    rw [List.append_assoc]
    exact ihp hu (ihq hv h)
  | ahead p ih =>
    obtain ⟨rfl, u, v, rfl, hu⟩ := hw
    have hp : (p.run some ⟨behind, u ++ v⟩).isSome = true := ih hu rfl
    show (if (p.run some ⟨behind, u ++ v⟩).isSome = true then next ⟨behind, u ++ v⟩
      else none).isSome = true
    rw [if_pos hp]
    exact h
  | lineStart =>
    obtain ⟨rfl, hs⟩ := hw
    have hs' : (Cursor.mk behind ([] ++ r)).startsLine = true := Cursor.startsLine_iff.mpr hs
    rw [run, if_pos hs']
    exact h
  | lineEnd =>
    obtain ⟨rfl, hs⟩ := hw
    have hs' : (Cursor.mk behind ([] ++ r)).stopsLine = true := Cursor.stopsLine_iff.mpr hs
    rw [run, if_pos hs']
    exact h
  | wordEdge =>
    obtain ⟨rfl, hs⟩ := hw
    have hs' : (Cursor.mk behind ([] ++ r)).atWordEdge = true := hs
    rw [run, if_pos hs']
    exact h

/-! ## readings of a sequence -/

theorem reads_plus {k : CharSet} {behind w r : List Char} :
    (plus k).Reads behind w r ↔ w ≠ [] ∧ ∀ c ∈ w, k.holds c = true := by
  refine ⟨?_, ?_⟩
  · intro hx
    obtain ⟨u, v, rfl, ⟨c, rfl, hc⟩, hv⟩ := hx
    exact ⟨by simp, List.forall_mem_cons.mpr ⟨hc, hv⟩⟩
  · intro hx
    obtain ⟨hne, hw⟩ := hx
    cases w with
    | nil => exact absurd rfl hne
    | cons c w => exact ⟨[c], w, rfl, ⟨c, rfl, hw c (by simp)⟩, fun d hd => hw d (by simp [hd])⟩

@[simp] theorem reads_nil {behind w r : List Char} : (inOrder []).Reads behind w r ↔ w = [] :=
  Iff.rfl

theorem reads_cons {p : Pattern} {ps : List Pattern} {behind w r : List Char} :
    (inOrder (p :: ps)).Reads behind w r ↔
      ∃ u v, w = u ++ v ∧ p.Reads behind u (v ++ r) ∧
        (inOrder ps).Reads (u.reverse ++ behind) v r := Iff.rfl

section
variable {ps : List Pattern} {behind w r : List Char}

theorem reads_lit_cons {s : List Char} :
    (inOrder (.lit s :: ps)).Reads behind w r ↔
      ∃ v, w = s ++ v ∧ (inOrder ps).Reads (s.reverse ++ behind) v r := by
  refine ⟨?_, ?_⟩
  · intro hx
    obtain ⟨u, v, hw, rfl, hv⟩ := hx
    exact ⟨v, hw, hv⟩
  · intro hx
    obtain ⟨v, hw, hv⟩ := hx
    exact ⟨s, v, hw, rfl, hv⟩

theorem reads_one_cons {k : CharSet} :
    (inOrder (.one k :: ps)).Reads behind w r ↔
      ∃ c v, w = c :: v ∧ k.holds c = true ∧ (inOrder ps).Reads (c :: behind) v r := by
  refine ⟨?_, ?_⟩
  · intro hx
    obtain ⟨u, v, hw, ⟨c, rfl, hc⟩, hv⟩ := hx
    exact ⟨c, v, hw, hc, hv⟩
  · intro hx
    obtain ⟨c, v, hw, hc, hv⟩ := hx
    exact ⟨[c], v, hw, ⟨c, rfl, hc⟩, hv⟩

theorem reads_opt_lit_cons {s : List Char} :
    (inOrder (.opt (.lit s) :: ps)).Reads behind w r ↔
      ∃ u v, w = u ++ v ∧ (u = [] ∨ u = s) ∧ (inOrder ps).Reads (u.reverse ++ behind) v r :=
  Iff.rfl

theorem reads_many_cons {k : CharSet} :
    (inOrder (.many k :: ps)).Reads behind w r ↔
      ∃ u v, w = u ++ v ∧ (∀ c ∈ u, k.holds c = true) ∧
        (inOrder ps).Reads (u.reverse ++ behind) v r := Iff.rfl

theorem reads_plus_cons {k : CharSet} :
    (inOrder (plus k :: ps)).Reads behind w r ↔
      ∃ u v, w = u ++ v ∧ (u ≠ [] ∧ ∀ c ∈ u, k.holds c = true) ∧
        (inOrder ps).Reads (u.reverse ++ behind) v r := by
  simp only [reads_cons, reads_plus]

theorem reads_opt_cons {p : Pattern} :
    (inOrder (.opt p :: ps)).Reads behind w r ↔
      ∃ u v, w = u ++ v ∧ (u = [] ∨ p.Reads behind u (v ++ r)) ∧
        (inOrder ps).Reads (u.reverse ++ behind) v r := Iff.rfl

/-- a part that takes nothing leaves what it was read in to the rest -/
theorem reads_cons_of_empty {p : Pattern} {P : Prop}
    (hp : ∀ {u}, p.Reads behind u (w ++ r) ↔ u = [] ∧ P)
    (hv : ∀ {u v}, w = u ++ v → p.Reads behind u (v ++ r) → u = []) :
    (inOrder (p :: ps)).Reads behind w r ↔ P ∧ (inOrder ps).Reads behind w r := by
  refine ⟨?_, ?_⟩
  · intro hx
    obtain ⟨u, v, hw, hu, hr⟩ := hx
    obtain rfl := hv hw hu
    obtain rfl : w = v := hw
    exact ⟨(hp.mp hu).2, hr⟩
  · intro hx
    obtain ⟨hP, hr⟩ := hx
    exact ⟨[], w, rfl, hp.mpr ⟨rfl, hP⟩, hr⟩

theorem reads_lineStart_cons :
    (inOrder (.lineStart :: ps)).Reads behind w r ↔
      LineBegins behind ∧ (inOrder ps).Reads behind w r :=
  reads_cons_of_empty Iff.rfl fun _ h => h.1

theorem reads_lineEnd_cons :
    (inOrder (.lineEnd :: ps)).Reads behind w r ↔
      LineFeedAhead (w ++ r) ∧ (inOrder ps).Reads behind w r :=
  reads_cons_of_empty Iff.rfl fun _ h => h.1

theorem reads_wordEdge_cons :
    (inOrder (.wordEdge :: ps)).Reads behind w r ↔
      (Cursor.mk behind (w ++ r)).atWordEdge = true ∧ (inOrder ps).Reads behind w r :=
  reads_cons_of_empty Iff.rfl fun _ h => h.1

theorem reads_ahead_cons {p : Pattern} :
    (inOrder (.ahead p :: ps)).Reads behind w r ↔
      (∃ u v, w ++ r = u ++ v ∧ p.Reads behind u v) ∧ (inOrder ps).Reads behind w r :=
  reads_cons_of_empty Iff.rfl fun _ h => h.1

end

theorem reads_inOrder_append {ps qs : List Pattern} {behind w r : List Char} :
    (inOrder (ps ++ qs)).Reads behind w r ↔
      ∃ u v, w = u ++ v ∧ (inOrder ps).Reads behind u (v ++ r) ∧
        (inOrder qs).Reads (u.reverse ++ behind) v r := by
  induction ps generalizing behind w with
  | nil =>
    refine ⟨fun h => ⟨[], w, rfl, rfl, h⟩, ?_⟩
    intro hx
    obtain ⟨u, v, rfl, hu, hv⟩ := hx
    obtain rfl : u = [] := hu
    exact hv
  | cons p ps ih =>
    refine ⟨?_, ?_⟩
    · intro hx
      obtain ⟨u, v, rfl, hu, hv⟩ := hx
      obtain ⟨v₁, v₂, rfl, h₁, h₂⟩ := ih.mp hv
      rw [List.append_assoc] at hu
      refine ⟨u ++ v₁, v₂, by rw [List.append_assoc], ⟨u, v₁, rfl, hu, h₁⟩, ?_⟩
      rw [List.reverse_append, List.append_assoc]
      exact h₂
    · intro hx
      obtain ⟨x, v₂, rfl, ⟨u, v₁, rfl, hu, h₁⟩, h₂⟩ := hx
      rw [List.reverse_append, List.append_assoc] at h₂
      refine ⟨u, v₁ ++ v₂, by rw [List.append_assoc], ?_, ih.mpr ⟨v₁, v₂, rfl, h₁, h₂⟩⟩
      rw [List.append_assoc]
      exact hu

/-! ## readings and matches -/

theorem exists_reads_of_matchAt {p : Pattern} {text : List Char} {s e : Nat}
    (h : p.matchAt text s = some e) :
    ∃ w r, text.drop s = w ++ r ∧ p.Reads (text.take s).reverse w r ∧
      e = (text.take s).length + w.length := by
  obtain ⟨v, hv, he⟩ := Option.map_eq_some_iff.mp h
  obtain ⟨w, r, hc, hw, hv⟩ := run_sound hv
  refine ⟨w, r, hc, hw, ?_⟩
  rw [← he, ← Option.some.inj hv]
  simp [Cursor.position, Nat.add_comm]

theorem matchAt_isSome_of_reads {p : Pattern} {text : List Char} {s : Nat} {w r : List Char}
    (hc : text.drop s = w ++ r) (hw : p.Reads (text.take s).reverse w r) :
    (p.matchAt text s).isSome = true := by
  have hr : (p.run some ⟨(text.take s).reverse, w ++ r⟩).isSome = true := run_complete hw rfl
  rw [matchAt, Cursor.inText, hc, Option.isSome_map]
  exact hr

end Pattern

end Rebind
