import Mathlib.Data.List.Induction
import Rebind.Proofs.Reach
import Rebind.Proofs.Tokens

/-!
# The grammar of the command line

A command line that is accepted is a row of groups: an option with its value in one argument or in
two, a long flag, or a cluster of the letter `v`.  `settingsOf` says what a row of groups sets
without going through it: the last value of each option, whether the check is asked for anywhere,
and how many times more words are.

* `Group.act`, `Group.tokens`  what one group does, and the tokens its arguments have;
* `parse_groups`               reading a row of groups lets them act one after the other;
* `isRow_of_fold`              whatever is accepted is such a row;
* `foldl_act`                  what groups do one after the other is what `settingsOf` says.
-/

namespace Rebind.Arguments

/-- arguments that belong together -/
inductive Group where
  /-- a name and its value in one argument -/
  | assigned (v : Valued) (head value : List Char)
  /-- a name and its value in two arguments -/
  | followed (v : Valued) (head value : List Char)
  | flag (f : Flag) (head : List Char)
  /-- a dash and that many letters, and one more -/
  | letters (more : Nat)
  /-- a dash, a letter and, after an equals sign, that many letters and one more -/
  | assignedLetters (more : Nat)

namespace Group

def arguments : Group → List (List Char)
  | assigned _ head value => [head ++ '=' :: value]
  | followed _ head value => [head, value]
  | flag _ head => [head]
  | letters more => ['-' :: List.replicate (more + 1) 'v']
  | assignedLetters more => ['-' :: 'v' :: '=' :: List.replicate (more + 1) 'v']

def Valid : Group → Prop
  | assigned v head _ => Abbreviates head (.valued v)
  | followed v head value => Abbreviates head (.valued v) ∧ IsPlain value ∧ value ≠ dividerText
  | flag f head => Abbreviates head (.flag f) ∧ f ≠ .help
  | letters _ => True
  | assignedLetters _ => True

def value? (v : Valued) : Group → Option (List Char)
  | assigned w _ value => if w = v then some value else none
  | followed w _ value => if w = v then some value else none
  | _ => none

def asksCheck : Group → Bool
  | flag .check _ => true
  | _ => false

def verbosity : Group → Nat
  | flag .verbose _ => 1
  | letters more => more + 1
  | assignedLetters more => more + 2
  | _ => 0

end Group

/-- the last value that groups have for an option -/
def lastValue? (v : Valued) (gs : List Group) : Option (List Char) :=
  (gs.filterMap (Group.value? v)).getLast?

/-- what a row of groups sets -/
def settingsOf (gs : List Group) : Settings where
  root := .value (((lastValue? .root gs).map Path.ofText).getD defaultRoot)
  extension := .value ((lastValue? .extension gs).getD defaultExtension)
  check := gs.any Group.asksCheck
  verbose := (gs.map Group.verbosity).sum
  logFile := (lastValue? .logFile gs).map fun s => .value (Path.ofText s)

/-! ## one group -/

namespace Group

def act (s : Settings) : Group → Settings
  | assigned v _ value => v.set s value
  | followed v _ value => v.set s value
  | flag .check _ => { s with check := true }
  | g => { s with verbose := s.verbose + g.verbosity }

def tokens : Group → List Token
  | assigned v _ value => [.valued v (some value)]
  | followed v _ value => [.valued v none, .plain value]
  | flag f _ => [.longFlag f none]
  | letters more => [.shortFlag .verbose (carriedBy (List.replicate more 'v'))]
  | assignedLetters more => [.shortFlag .verbose (some (List.replicate (more + 1) 'v'))]

end Group

/-! ## clusters -/

theorem cluster_replicate (more : Nat) :
    cluster .verbose (List.replicate more 'v') = .ok (List.replicate (more + 1) .verbose) := by
  induction more with
  | zero => rfl
  | succ more ih =>
    show (do let fs ← cluster .verbose (List.replicate more 'v'); return Flag.verbose :: fs) = _
    rw [ih]
    rfl

theorem foldlM_verbose (n : Nat) (s : Settings) :
    (List.replicate n Flag.verbose).foldlM Flag.act s = .ok { s with verbose := s.verbose + n } := by
  induction n generalizing s with
  | zero => rfl
  | succ n ih =>
    rw [List.replicate_succ, List.foldlM_cons]
    show (List.replicate n Flag.verbose).foldlM Flag.act { s with verbose := s.verbose + 1 } = _
    rw [ih]
    show Except.ok { s with verbose := s.verbose + 1 + n } = _
    rw [Nat.add_assoc, Nat.add_comm 1 n]

theorem shortFlags_carriedBy (more : Nat) :
    shortFlags .verbose (carriedBy (List.replicate more 'v')) =
      .ok (List.replicate (more + 1) .verbose) := by
  cases more with
  | zero => rfl
  | succ more => exact cluster_replicate (more + 1)

theorem ofLetter?_cases {c : Char} {f : Flag} (h : Flag.ofLetter? c = some f) :
    c = 'h' ∧ f = .help ∨ c = 'v' ∧ f = .verbose := by
  unfold Flag.ofLetter? at h
  split at h
  · cases h
    exact .inl ⟨rfl, rfl⟩
  · cases h
    exact .inr ⟨rfl, rfl⟩
  · cases h

/-- where all flags of a cluster act, all its letters are `v` -/
theorem eq_replicate_of_cluster {c : Char} {f : Flag} (hc : Flag.ofLetter? c = some f)
    {cs : List Char} {fs : List Flag} {s s' : Settings} (h : cluster f cs = .ok fs)
    (hact : fs.foldlM Flag.act s = .ok s') : c = 'v' ∧ cs = List.replicate cs.length 'v' := by
  -- the first flag has acted, so it is no call for help
  have hfirst : ∀ gs, fs = f :: gs → c = 'v' := by
    rintro gs rfl
    rcases ofLetter?_cases hc with ⟨-, rfl⟩ | ⟨rfl, -⟩
    · cases hact
    · rfl
  induction cs generalizing c f fs s with
  | nil =>
    cases h
    exact ⟨hfirst [] rfl, rfl⟩
  | cons d cs ih =>
    rw [cluster] at h
    split at h
    · cases h
    · next g hg =>
      obtain ⟨gs, hgs, h⟩ := bind_eq_ok_iff.mp h
      cases h
      rw [List.foldlM_cons] at hact
      obtain ⟨s₁, -, hrest⟩ := bind_eq_ok_iff.mp hact
      have hv := hfirst gs rfl
      obtain ⟨rfl, hcs⟩ := ih hg hgs hrest (by
        rintro hs rfl
        rcases ofLetter?_cases hg with ⟨-, rfl⟩ | ⟨rfl, -⟩
        · cases hrest
        · rfl)
      exact ⟨hv, congrArg ('v' :: ·) hcs⟩

/-- where all flags of a short flag act, its argument is a group -/
theorem exists_letters {c : Char} {f : Flag} (hc : Flag.ofLetter? c = some f) {cs : List Char}
    {fs : List Flag} {s s' : Settings} (h : shortFlags f (carriedBy cs) = .ok fs)
    (hact : fs.foldlM Flag.act s = .ok s') :
    ∃ g : Group, g.Valid ∧ ['-' :: c :: cs] = g.arguments := by
  have hsome : ∀ value, shortFlags f (some value) = .ok fs →
      value ≠ [] ∧ cluster f value = .ok fs := by
    intro value hv
    cases value with
    | nil => cases hv
    | cons d ds => exact ⟨List.cons_ne_nil d ds, hv⟩
  unfold carriedBy at h
  split at h
  · have hcluster : cluster f [] = .ok fs := h
    obtain ⟨rfl, -⟩ := eq_replicate_of_cluster hc hcluster hact
    exact ⟨.letters 0, trivial, rfl⟩
  · next value =>
    obtain ⟨hne, hcluster⟩ := hsome value h
    obtain ⟨rfl, hv⟩ := eq_replicate_of_cluster hc hcluster hact
    obtain ⟨more, hmore⟩ := Nat.exists_eq_add_one_of_ne_zero (mt List.length_eq_zero_iff.mp hne)
    rw [hmore] at hv
    refine ⟨.assignedLetters more, trivial, ?_⟩
    rw [hv]
    rfl
  · obtain ⟨-, hcluster⟩ := hsome cs h
    obtain ⟨rfl, hv⟩ := eq_replicate_of_cluster hc hcluster hact
    refine ⟨.letters cs.length, trivial, ?_⟩
    show ['-' :: 'v' :: cs] = ['-' :: 'v' :: List.replicate cs.length 'v']
    rw [← hv]

/-! ## reading a row of groups -/

theorem tokens_cons {a : List Char} {t : Token} (hd : a ≠ dividerText) (h : classify a = .ok t)
    (as : List (List Char)) : tokens (a :: as) = (tokens as).map (t :: ·) := by
  rw [tokens, if_neg hd, h]
  cases tokens as <;> rfl

theorem tokens_arguments {g : Group} (hg : g.Valid) (as : List (List Char)) :
    tokens (g.arguments ++ as) = (tokens as).map (g.tokens ++ ·) := by
  cases g with
  | assigned v head value =>
    exact tokens_cons (spelled_ne_divider hg (some value)) (classify_spelled hg (some value)) as
  | followed v head value =>
    obtain ⟨hhead, hplain, hne⟩ := hg
    show tokens (head :: value :: as) = _
    rw [tokens_cons hhead.ne_divider (classify_spelled hhead none),
      tokens_cons hne (classify_of_isPlain hplain)]
    cases tokens as <;> rfl
  | flag f head => exact tokens_cons hg.1.ne_divider (classify_spelled hg.1 none) as
  | letters more =>
    exact tokens_cons (by simp [dividerText])
      (classify_letter (by rfl) (List.replicate more 'v')) as
  | assignedLetters more =>
    exact tokens_cons (by simp [dividerText])
      (classify_letter (by rfl) ('=' :: List.replicate (more + 1) 'v')) as

theorem fold_tokens {g : Group} (hg : g.Valid) (s : Settings) (stray : List (List Char))
    (ts : List Token) : fold s stray (g.tokens ++ ts) = fold (g.act s) stray ts := by
  -- a cluster of `n` letters acts `n` times
  have hcluster : ∀ carried n, shortFlags .verbose carried = .ok (List.replicate n .verbose) →
      fold s stray (.shortFlag .verbose carried :: ts) =
        fold { s with verbose := s.verbose + n } stray ts := by
    intro carried n hn
    rw [fold, hn]
    show (do let s ← (List.replicate n Flag.verbose).foldlM Flag.act s; fold s stray ts) = _
    rw [foldlM_verbose]
    rfl
  cases g with
  | assigned v head value => rfl
  | followed v head value => rfl
  | flag f head =>
    cases f with
    | help => exact absurd rfl hg.2
    | check => rfl
    | verbose => rfl
  | letters more => exact hcluster _ _ (shortFlags_carriedBy more)
  | assignedLetters more => exact hcluster _ _ (cluster_replicate (more + 1))

theorem parse_groups {gs : List Group} (h : ∀ g ∈ gs, g.Valid) :
    parse (gs.flatMap Group.arguments) = .ok (gs.foldl Group.act {}) := by
  have htokens : tokens (gs.flatMap Group.arguments) = .ok (gs.flatMap Group.tokens) := by
    induction gs with
    | nil => rfl
    | cons g gs ih =>
      obtain ⟨hg, hgs⟩ := List.forall_mem_cons.mp h
      rw [List.flatMap_cons, tokens_arguments hg, ih hgs]
      rfl
  have hfold : ∀ s, fold s [] (gs.flatMap Group.tokens) = .ok (gs.foldl Group.act s) := by
    clear htokens
    induction gs with
    | nil => intro s; rfl
    | cons g gs ih =>
      intro s
      obtain ⟨hg, hgs⟩ := List.forall_mem_cons.mp h
      rw [List.flatMap_cons, fold_tokens hg, ih hgs]
      rfl
  rw [parse, htokens]
  exact hfold {}

/-! ## whatever is accepted -/

/-- an argument that nobody took is reported in the end -/
theorem fold_stray {s s' : Settings} {stray : List (List Char)} {ts : List Token}
    (h : fold s stray ts = .ok s') : stray = [] := by
  fun_induction fold s stray ts with
  | case1 => rfl
  | case2 => cases h
  | case3 _ _ _ _ ih => exact absurd (ih h) (by simp)
  | case4 _ _ _ ih => exact absurd (ih h) (by simp)
  | case5 _ _ _ _ ih => exact absurd (ih h) (by simp)
  | case6 _ _ _ _ _ ih => exact ih h
  | case7 _ _ _ _ _ ih => exact ih h
  | case8 => cases h
  | case9 => cases h
  | case10 _ _ _ _ ih =>
    obtain ⟨s₁, -, h⟩ := bind_eq_ok_iff.mp h
    exact ih s₁ h
  | case11 _ _ _ _ _ ih =>
    obtain ⟨fs, -, h⟩ := bind_eq_ok_iff.mp h
    obtain ⟨s₁, -, h⟩ := bind_eq_ok_iff.mp h
    exact ih s₁ h

/-- the first token of accepted arguments comes from the first of them, which is no divider -/
theorem exists_of_tokens_eq_cons {as : List (List Char)} {t : Token} {ts : List Token}
    (h : tokens as = .ok (t :: ts)) (ht : t ≠ .divider) :
    ∃ a rest, as = a :: rest ∧ a ≠ dividerText ∧ classify a = .ok t ∧ tokens rest = .ok ts := by
  cases as with
  | nil => cases h
  | cons a rest =>
    rw [tokens] at h
    split at h
    · cases h
      exact absurd rfl ht
    · next hd =>
      obtain ⟨t', ht', h⟩ := bind_eq_ok_iff.mp h
      obtain ⟨ts', hts', h⟩ := bind_eq_ok_iff.mp h
      cases h
      exact ⟨a, rest, rfl, hd, ht', hts'⟩

theorem isPlain_of_classify {a x : List Char} (h : classify a = .ok (.plain x)) : IsPlain a := by
  rcases classify_cases h with ⟨-, hp⟩ | ht | ⟨head, o, carried, -, -, ht⟩ | ⟨c, f, s, -, -, ht⟩
  · exact hp
  · cases ht
  · cases o <;> cases ht
  · cases ht

/-- the arguments are a row of groups -/
def IsRow (as : List (List Char)) : Prop :=
  ∃ gs : List Group, (∀ g ∈ gs, g.Valid) ∧ as = gs.flatMap Group.arguments

theorem IsRow.cons {g : Group} (hg : g.Valid) {as : List (List Char)} (h : IsRow as) :
    IsRow (g.arguments ++ as) := by
  obtain ⟨gs, hgs, rfl⟩ := h
  exact ⟨g :: gs, List.forall_mem_cons.mpr ⟨hg, hgs⟩, rfl⟩

/-- whatever is read to its end is a row of groups -/
theorem isRow_of_fold {as : List (List Char)} {ts : List Token} {s s' : Settings}
    (ht : tokens as = .ok ts) (hf : fold s [] ts = .ok s') : IsRow as := by
  cases as with
  | nil => exact ⟨[], fun g hg => absurd hg List.not_mem_nil, rfl⟩
  | cons a rest =>
    by_cases hd : a = dividerText
    · rw [tokens, if_pos hd] at ht
      cases ht
      have hf : fold s [dividerText] _ = .ok s' := hf
      cases fold_stray hf
    rw [tokens, if_neg hd] at ht
    obtain ⟨t, hclass, ht⟩ := bind_eq_ok_iff.mp ht
    obtain ⟨ts, hts, ht⟩ := bind_eq_ok_iff.mp ht
    cases ht
    rcases classify_cases hclass with ⟨rfl, -⟩ | rfl | ⟨head, o, carried, habb, rfl, rfl⟩ |
      ⟨c, f, cs, hc, rfl, rfl⟩
    · have hf : fold s [a] ts = .ok s' := hf
      cases fold_stray hf
    · have hf : fold s [a] ts = .ok s' := hf
      cases fold_stray hf
    · cases o with
      | valued v =>
        cases carried with
        | some value => exact .cons (g := .assigned v head value) habb (isRow_of_fold hts hf)
        | none =>
          -- the next argument has to be plain, and belongs to this one
          cases ts with
          | nil => cases hf
          | cons t ts =>
            cases t with
            | plain x =>
              obtain ⟨b, rest, rfl, hb, hclass, hts⟩ :=
                exists_of_tokens_eq_cons hts (fun h => by cases h)
              exact .cons (g := .followed v head b) ⟨habb, isPlain_of_classify hclass, hb⟩
                (isRow_of_fold hts hf)
            | divider => cases hf
            | valued => cases hf
            | longFlag => cases hf
            | shortFlag => cases hf
            | unknown => cases hf
      | flag f =>
        cases carried with
        | some value => cases hf
        | none =>
          obtain ⟨s₁, hact, hf⟩ := bind_eq_ok_iff.mp hf
          refine .cons (g := .flag f head) ⟨habb, ?_⟩ (isRow_of_fold hts hf)
          rintro rfl
          cases hact
    · obtain ⟨fs, hfs, hf⟩ := bind_eq_ok_iff.mp hf
      obtain ⟨s₁, hact, hf⟩ := bind_eq_ok_iff.mp hf
      obtain ⟨g, hg, hargs⟩ := exists_letters hc hfs hact
      show IsRow (['-' :: c :: cs] ++ rest)
      rw [hargs]
      exact .cons hg (isRow_of_fold hts hf)
termination_by as.length

/-! ## what a row of groups sets -/

theorem lastValue?_concat (v : Valued) (gs : List Group) (g : Group) :
    lastValue? v (gs ++ [g]) = (g.value? v).or (lastValue? v gs) := by
  unfold lastValue?
  rw [List.filterMap_append, List.getLast?_append]
  cases h : g.value? v with
  | none => rw [List.filterMap_cons_none h]; rfl
  | some value => rw [List.filterMap_cons_some h]; rfl

/-- one more group acts on what the groups before it set -/
theorem settingsOf_concat (gs : List Group) {g : Group}
    (h : ∀ v, g.value? v ≠ some dividerText) :
    settingsOf (gs ++ [g]) = g.act (settingsOf gs) := by
  have hset : ∀ v value, (∀ w, g.value? w = if v = w then some value else none) →
      g.asksCheck = false → g.verbosity = 0 →
      settingsOf (gs ++ [g]) = v.set (settingsOf gs) value := by
    intro v value hv hc hn
    have hne : value ≠ dividerText := by
      rintro rfl
      exact h v (by rw [hv, if_pos rfl])
    unfold settingsOf
    simp only [lastValue?_concat, hv, List.any_append, List.map_append, List.sum_append,
      List.any_cons, List.any_nil, List.map_cons, List.map_nil, List.sum_cons, List.sum_nil, hc, hn]
    cases v <;> simp [Valued.set, given, hne]
  have hflag : (∀ w, g.value? w = none) → settingsOf (gs ++ [g]) =
      { settingsOf gs with
        check := (settingsOf gs).check || g.asksCheck
        verbose := (settingsOf gs).verbose + g.verbosity } := by
    intro hv
    unfold settingsOf
    simp [lastValue?_concat, hv]
  cases g with
  | assigned v head value => exact hset v value (fun w => rfl) rfl rfl
  | followed v head value => exact hset v value (fun w => rfl) rfl rfl
  | flag f head =>
    rw [hflag fun w => rfl]
    cases f <;> simp [Group.act, Group.asksCheck, Group.verbosity]
  | letters more =>
    rw [hflag fun w => rfl]
    simp [Group.act, Group.asksCheck]
  | assignedLetters more =>
    rw [hflag fun w => rfl]
    simp [Group.act, Group.asksCheck]

theorem foldl_act {gs : List Group} (h : ∀ g ∈ gs, ∀ v, g.value? v ≠ some dividerText) :
    gs.foldl Group.act {} = settingsOf gs := by
  induction gs using List.reverseRecOn with
  | nil => rfl
  | append_singleton gs g ih =>
    have hgs := ih fun g' hg' => h g' (List.mem_append_left _ hg')
    have hg := h g (List.mem_append_right _ (List.mem_singleton_self g))
    rw [List.foldl_append, hgs, settingsOf_concat gs hg]
    rfl

/-! ## the grammar -/

/-- no argument is an option with a divider for its value -/
def NoneDivided (as : List (List Char)) : Prop :=
  ∀ a ∈ as, ∀ v head, Abbreviates head (.valued v) → a ≠ head ++ '=' :: dividerText

theorem value?_ne_divider {g : Group} (hg : g.Valid) (h : NoneDivided g.arguments) (v : Valued) :
    g.value? v ≠ some dividerText := by
  cases g with
  | assigned w head value =>
    intro he
    obtain ⟨-, rfl⟩ : w = v ∧ value = dividerText := by simpa [Group.value?] using he
    exact h _ (List.mem_singleton_self _) w head hg rfl
  | followed w head value =>
    intro he
    obtain ⟨-, rfl⟩ : w = v ∧ value = dividerText := by simpa [Group.value?] using he
    exact hg.2.2 rfl
  | flag => simp [Group.value?]
  | letters => simp [Group.value?]
  | assignedLetters => simp [Group.value?]

theorem isRow_of_parse {as : List (List Char)} {s : Settings} (h : parse as = .ok s) : IsRow as := by
  rw [parse] at h
  split at h
  · cases h
  · next ts hts => exact isRow_of_fold hts h

theorem parse_row {gs : List Group} (hgs : ∀ g ∈ gs, g.Valid)
    (h : NoneDivided (gs.flatMap Group.arguments)) :
    parse (gs.flatMap Group.arguments) = .ok (settingsOf gs) := by
  rw [parse_groups hgs, foldl_act]
  intro g hg v
  exact value?_ne_divider (hgs g hg) (fun a ha => h a (List.mem_flatMap.mpr ⟨g, hg, ha⟩)) v

/-- a command line is accepted exactly if it is a row of groups, and then sets what they say -/
theorem parse_eq_ok_iff_groups (as : List (List Char)) (h : NoneDivided as) (s : Settings) :
    parse as = .ok s ↔ ∃ gs : List Group, (∀ g ∈ gs, g.Valid) ∧ as = gs.flatMap Group.arguments ∧
      s = settingsOf gs := by
  constructor
  · intro hp
    obtain ⟨gs, hgs, rfl⟩ := isRow_of_parse hp
    refine ⟨gs, hgs, rfl, ?_⟩
    rw [parse_row hgs h] at hp
    exact (Except.ok.inj hp).symm
  · rintro ⟨gs, hgs, rfl, rfl⟩
    exact parse_row hgs h

/-- two roots, one of them a negative number, a check cut short, and letters in two clusters -/
def mixedGroups : List Group :=
  [.assigned .root "--ro".toList "a=b".toList, .letters 1, .flag .check "--c".toList,
    .followed .root "--root".toList "-5".toList, .assignedLetters 0]

theorem parse_mixed :
    parse ["--ro=a=b".toList, "-vv".toList, "--c".toList, "--root".toList, "-5".toList,
      "-v=v".toList] =
      .ok { root := .value ⟨.here, ["-5".toList]⟩, check := true, verbose := 4 } := by
  have hplain : IsPlain "-5".toList := by
    refine .inr (.inr ⟨?_, .inl (by decide)⟩)
    rintro (⟨hd, -⟩ | ⟨c, hc, hp⟩)
    · exact absurd hd (by decide)
    · obtain rfl : c = '5' := by simpa using hp
      cases hc
  have hnone : NoneDivided (mixedGroups.flatMap Group.arguments) := by
    rintro a ha v head - rfl
    have hall : ∀ a ∈ mixedGroups.flatMap Group.arguments, ¬ '=' :: dividerText <:+ a := by decide
    exact hall _ ha (List.suffix_append head _)
  refine (parse_eq_ok_iff_groups _ hnone _).mpr ⟨mixedGroups, ?_, rfl, by decide +kernel⟩
  simp only [mixedGroups, List.forall_mem_cons, Group.Valid]
  exact ⟨⟨by decide, by decide⟩, trivial, ⟨⟨by decide, by decide⟩, by decide⟩,
    ⟨⟨by decide, by decide⟩, hplain, by decide⟩, trivial, fun _ h => absurd h List.not_mem_nil⟩

end Rebind.Arguments
