import Rebind.Declaration.Patterns
import Rebind.Proofs.Readings
import Rebind.Proofs.Spans

/-!
# What the patterns accept

The three patterns, read by a greedy search that takes choices back, against the grammar of
declarations.  A pattern is taken apart where the grammar is: the opening, the braces, and the
clause behind them.

* In the opening and in the clause each optional part and each run is a part of the form, or of a
  run beside it: `..` and `/` are the beginning of the way, `;` is the beginning of the rest.
* The braces are read alike by both kinds of pattern (`reads_braces`).  A name in its place has its
  whole word in the body because nothing in front of it is a closing brace; a name that is looked
  for ahead lies in the body, since the look ends before the first closing brace.

So a reading is a form that begins and ends where a line does (`reads_pattern`).  A form has one end
only, so it does not matter which of its readings the search comes to first.
-/

namespace Rebind

namespace Sought

open Pattern Declaration

/-! ## the opening -/

theorem reads_blanks_cons {ps : List Pattern} {behind w r : List Char} :
    (inOrder (plus .blank :: ps)).Reads behind w r ↔
      ∃ u v, w = u ++ v ∧ Blanks u ∧ (inOrder ps).Reads (u.reverse ++ behind) v r := by
  simp only [reads_plus_cons, CharSet.holds, Blanks]

theorem openingText_eq (gap : List Char) (qualifier : Option (List Char)) :
    openingText gap qualifier =
      "import".toList ++ (gap ++ (qualifier.elim [] ("type".toList ++ ·) ++ ['{'])) := by
  delta openingText
  generalize "import".toList = word
  rw [List.append_assoc, List.append_assoc]

theorem reads_opening {behind w r : List Char} :
    (inOrder opening).Reads behind w r ↔
      LineBegins behind ∧ ∃ gap qualifier, Blanks gap ∧ (∀ w ∈ qualifier, Blanks w) ∧
        w = openingText gap qualifier := by
  simp only [opening, reads_lineStart_cons, reads_lit_cons, reads_blanks_cons, reads_opt_cons,
    reads_nil, openingText_eq]
  refine and_congr_right fun _ => ⟨?_, ?_⟩
  · intro hx
    obtain ⟨v, rfl, gap, v, rfl, hg, u, v, rfl, hu, v, rfl, rfl⟩ := hx
    rcases hu with rfl | ⟨v, rfl, w, v, rfl, hw, rfl⟩
    · exact ⟨gap, none, hg, by simp, rfl⟩
    · refine ⟨gap, some w, hg, ?_, by rw [List.append_nil]; rfl⟩
      intro w' hw'
      exact Option.some.inj hw' ▸ hw
  · intro hx
    obtain ⟨gap, qualifier, hg, hq, rfl⟩ := hx
    refine ⟨_, rfl, gap, _, rfl, hg, qualifier.elim [] ("type".toList ++ ·), _, rfl, ?_, [], rfl,
      rfl⟩
    cases qualifier with
    | none => exact Or.inl rfl
    | some w => exact Or.inr ⟨w, rfl, w, [], (List.append_nil w).symm, hq w rfl, rfl⟩

/-! ## the braces -/

theorem any_isWord_iff {o : Option Char} : o.any isWord = false ↔ ∀ c ∈ o, isWord c = false := by
  cases o with
  | none => simp
  | some c => simp

/-- in front of a word, a word begins where no word character lies behind -/
theorem atWordEdge_before {behind name r : List Char} (hn : name.head?.any isWord = true) :
    (Cursor.mk behind (name ++ r)).atWordEdge = true ↔ ∀ c ∈ behind.head?, isWord c = false := by
  cases name with
  | nil => cases hn
  | cons d name =>
    have hd : isWord d = true := hn
    rw [Cursor.atWordEdge, List.cons_append, List.head?_cons, Option.any_some, hd, bne_iff_ne,
      ne_eq, Bool.not_eq_true, any_isWord_iff]

/-- behind a word, it ends where no word character lies ahead -/
theorem atWordEdge_after {behind name r : List Char} (hn : name.getLast?.any isWord = true) :
    (Cursor.mk (name.reverse ++ behind) r).atWordEdge = true ↔ ∀ c ∈ r.head?, isWord c = false := by
  rw [← List.head?_reverse] at hn
  cases hname : name.reverse with
  | nil =>
    rw [hname] at hn
    cases hn
  | cons d name =>
    rw [hname] at hn
    have hd : isWord d = true := hn
    rw [Cursor.atWordEdge, List.cons_append, List.head?_cons, Option.any_some, hd, bne_iff_ne,
      ne_comm, ne_eq, Bool.not_eq_true, any_isWord_iff]

theorem name_word (e : Export) :
    e.name.head?.any isWord = true ∧ e.name.getLast?.any isWord = true ∧ '}' ∉ e.name := by
  cases e with
  | internal => decide
  | api => decide

theorem wordStops_behind_iff {a behind : List Char} (hb : behind.head? = some '{') :
    (∀ c ∈ (a.reverse ++ behind).head?, isWord c = false) ↔ ∀ c ∈ a.getLast?, isWord c = false := by
  rw [List.head?_append, List.head?_reverse, hb]
  cases a.getLast? with
  | none => simp; decide
  | some c => simp

theorem wordStops_ahead_iff {b r : List Char} :
    (∀ c ∈ (b ++ '}' :: r).head?, isWord c = false) ↔ ∀ c ∈ b.head?, isWord c = false := by
  cases b with
  | nil => simp; decide
  | cons c b => simp

theorem reads_named {e : Export} {behind w r : List Char} (hb : behind.head? = some '{') :
    (inOrder (named e)).Reads behind w r ↔
      ∃ a, w = a ++ e.name ∧ '}' ∉ a ∧ (∀ c ∈ a.getLast?, isWord c = false) ∧
        ∀ c ∈ r.head?, isWord c = false := by
  obtain ⟨hfirst, hlast, -⟩ := name_word e
  simp only [named, inBraces, reads_many_cons, reads_wordEdge_cons, reads_lit_cons, reads_nil,
    CharSet.forall_holds_except_iff, List.forall_mem_singleton]
  refine ⟨?_, ?_⟩
  · intro hx
    obtain ⟨a, _, rfl, ha, hbefore, _, rfl, hafter, rfl⟩ := hx
    rw [List.append_nil] at hbefore
    refine ⟨a, by rw [List.append_nil], ha, ?_, (atWordEdge_after hlast).mp hafter⟩
    exact (wordStops_behind_iff hb).mp ((atWordEdge_before hfirst).mp hbefore)
  · intro hx
    obtain ⟨a, rfl, ha, hbefore, hafter⟩ := hx
    refine ⟨a, e.name, rfl, ha, ?_, [], (List.append_nil _).symm, ?_, rfl⟩
    · exact (atWordEdge_before hfirst).mpr ((wordStops_behind_iff hb).mpr hbefore)
    · exact (atWordEdge_after hlast).mpr hafter

theorem reads_closing {behind w r : List Char} :
    (inOrder [inBraces, .lit ['}']]).Reads behind w r ↔ ∃ b, w = b ++ ['}'] ∧ '}' ∉ b := by
  simp only [inBraces, reads_many_cons, reads_lit_cons, reads_nil, CharSet.forall_holds_except_iff,
    List.forall_mem_singleton]
  refine ⟨?_, ?_⟩
  · intro hx
    obtain ⟨b, _, rfl, hb, _, rfl, rfl⟩ := hx
    exact ⟨b, rfl, hb⟩
  · intro hx
    obtain ⟨b, rfl, hb⟩ := hx
    exact ⟨b, _, rfl, hb, [], rfl, rfl⟩

/-- a look ahead for a name ends before the closing brace -/
theorem ahead_named_iff {e : Export} {behind body r : List Char} (hb : behind.head? = some '{')
    (hbody : '}' ∉ body) :
    (∃ u v, body ++ '}' :: r = u ++ v ∧ (inOrder (named e)).Reads behind u v) ↔
      WholeWord e.name body := by
  simp only [reads_named hb]
  refine ⟨?_, ?_⟩
  · intro hx
    obtain ⟨_, v, hv, a, rfl, ha, hbefore, hafter⟩ := hx
    have hno : '}' ∉ a ++ e.name := by
      rw [List.mem_append, not_or]
      exact ⟨ha, (name_word e).2.2⟩
    rcases List.append_eq_append_iff.mp hv with ⟨t, ht, hr⟩ | ⟨t, rfl, rfl⟩
    · cases t with
      | nil =>
        rw [List.append_nil] at ht
        exact ⟨a, [], by rw [List.append_nil, ht], hbefore, by simp⟩
      | cons d t =>
        obtain ⟨rfl, -⟩ := List.cons.inj hr
        exact absurd (ht ▸ List.mem_append_right _ List.mem_cons_self) hno
    · exact ⟨a, t, List.append_assoc a e.name t, hbefore, wordStops_ahead_iff.mp hafter⟩
  · intro hx
    obtain ⟨a, b, rfl, hbefore, hafter⟩ := hx
    have ha : '}' ∉ a := fun hm => hbody (List.mem_append_left _ hm)
    refine ⟨a ++ e.name, b ++ '}' :: r, by simp only [List.append_assoc], a, rfl, ha, hbefore, ?_⟩
    exact wordStops_ahead_iff.mpr hafter

theorem reads_aheads {ps : List Pattern} {behind w r : List Char} (es : List Export) :
    (inOrder (es.map (fun e => .ahead (inOrder (named e))) ++ ps)).Reads behind w r ↔
      (∀ e ∈ es, ∃ u v, w ++ r = u ++ v ∧ (inOrder (named e)).Reads behind u v) ∧
        (inOrder ps).Reads behind w r := by
  induction es with
  | nil => simp
  | cons e es ih =>
    rw [List.map_cons, List.cons_append, reads_ahead_cons, ih, List.forall_mem_cons, and_assoc]

/-- **Both kinds of pattern read the braces alike.** -/
theorem reads_braces {q : Sought} {behind w r : List Char} (hb : behind.head? = some '{') :
    (inOrder q.braces).Reads behind w r ↔
      ∃ body, w = body ++ ['}'] ∧ '}' ∉ body ∧ ∀ e ∈ q.exports, WholeWord e.name body := by
  cases q with
  | one e =>
    rw [braces, reads_inOrder_append]
    simp only [reads_named hb, reads_closing, exports, List.forall_mem_singleton]
    refine ⟨?_, ?_⟩
    · intro hx
      obtain ⟨_, _, rfl, ⟨a, rfl, ha, hbefore, hafter⟩, b, rfl, hb⟩ := hx
      rw [List.append_assoc] at hafter
      refine ⟨a ++ (e.name ++ b), by simp only [List.append_assoc], ?_, a, b, rfl, hbefore,
        wordStops_ahead_iff.mp hafter⟩
      rw [List.mem_append, List.mem_append, not_or, not_or]
      exact ⟨ha, (name_word e).2.2, hb⟩
    · intro hx
      obtain ⟨_, rfl, hbody, a, b, rfl, hbefore, hafter⟩ := hx
      rw [List.mem_append, List.mem_append, not_or, not_or] at hbody
      refine ⟨a ++ e.name, b ++ ['}'], by simp only [List.append_assoc],
        ⟨a, rfl, hbody.1, hbefore, ?_⟩, b, rfl, hbody.2.2⟩
      rw [List.append_assoc]
      exact wordStops_ahead_iff.mpr hafter
  | both =>
    rw [braces, reads_aheads, reads_closing]
    refine ⟨?_, ?_⟩
    · intro hx
      obtain ⟨hnames, body, rfl, hbody⟩ := hx
      refine ⟨body, rfl, hbody, fun e he => ?_⟩
      have := hnames e he
      rw [List.append_assoc] at this
      exact (ahead_named_iff hb hbody).mp this
    · intro hx
      obtain ⟨body, rfl, hbody, hnames⟩ := hx
      refine ⟨fun e he => ?_, body, rfl, hbody⟩
      rw [List.append_assoc]
      exact (ahead_named_iff hb hbody).mpr (hnames e he)

/-! ## the clause behind the braces -/

theorem holds_quote (c : Char) : (CharSet.among ['\'', '"']).holds c = isQuote c := by
  simp only [CharSet.holds, List.contains_cons, List.contains_nil, Bool.or_false, isQuote]

theorem not_mem_of_optional {c d : Char} {u : List Char} (hu : u = [] ∨ u = [d]) (h : c ≠ d) :
    c ∉ u := by
  rcases hu with rfl | rfl
  · exact List.not_mem_nil
  · exact fun hm => h (List.mem_singleton.mp hm)

theorem lineFeedAhead_iff {r : List Char} : LineFeedAhead r ↔ AtLineFeed r := by
  cases r with
  | nil => simp [LineFeedAhead, AtLineFeed]
  | cons c r => simp [LineFeedAhead, AtLineFeed]

theorem reads_lineStops {behind w r : List Char} :
    (inOrder [.ahead (inOrder [.opt (.lit ['\r']), .lineEnd])]).Reads behind w r ↔
      w = [] ∧ LineStops r := by
  simp only [reads_ahead_cons, reads_opt_lit_cons, reads_lineEnd_cons, reads_nil, lineFeedAhead_iff]
  refine ⟨?_, ?_⟩
  · intro hx
    obtain ⟨⟨_, v, hr, u, _, rfl, hu, hv, rfl⟩, rfl⟩ := hx
    obtain rfl : r = u ++ [] ++ v := hr
    rcases hu with rfl | rfl
    · exact ⟨rfl, Or.inl hv⟩
    · exact ⟨rfl, Or.inr ⟨v, rfl, hv⟩⟩
  · intro hx
    obtain ⟨rfl, h⟩ := hx
    rcases h with h | ⟨t, rfl, h⟩
    · exact ⟨⟨[], r, rfl, [], [], rfl, Or.inl rfl, h, rfl⟩, rfl⟩
    · exact ⟨⟨['\r'], t, rfl, ['\r'], [], rfl, Or.inr rfl, h, rfl⟩, rfl⟩

/-- the parts of a clause, one for each part of the pattern that is not fixed -/
theorem reads_clause {behind w r : List Char} :
    (inOrder clause).Reads behind w r ↔
      ∃ beforeFrom afterFrom openQuote dot slash way ext closeQuote semicolon rest,
        w = beforeFrom ++ ("from".toList ++ (afterFrom ++ openQuote :: ('.' :: (dot ++ (slash ++
          (way ++ ("/_generated/api".toList ++ (ext ++ closeQuote :: (semicolon ++ rest))))))))) ∧
        Blanks beforeFrom ∧ Blanks afterFrom ∧ isQuote openQuote = true ∧
        (dot = [] ∨ dot = ['.']) ∧ (slash = [] ∨ slash = ['/']) ∧ '\n' ∉ way ∧
        (ext = [] ∨ ext = ".js".toList) ∧ isQuote closeQuote = true ∧
        (semicolon = [] ∨ semicolon = [';']) ∧ '\r' ∉ rest ∧ '\n' ∉ rest ∧ LineStops r := by
  simp only [clause, reads_blanks_cons, reads_lit_cons, reads_one_cons, reads_opt_lit_cons,
    reads_many_cons, reads_lineStops, holds_quote, CharSet.forall_holds_except_iff,
    List.forall_mem_cons, List.not_mem_nil, false_imp_iff, implies_true, and_true]
  refine ⟨?_, ?_⟩
  · intro hx
    obtain ⟨beforeFrom, _, rfl, hbefore, _, rfl, afterFrom, _, rfl, hafter, openQuote, _, rfl,
      hopen, _, rfl, dot, _, rfl, hdot, slash, _, rfl, hslash, way, _, rfl, hway, _, rfl, ext, _,
      rfl, hext, closeQuote, _, rfl, hclose, semicolon, _, rfl, hsemi, rest, _, rfl, hrest, rfl,
      hstop⟩ := hx
    exact ⟨beforeFrom, afterFrom, openQuote, dot, slash, way, ext, closeQuote, semicolon, rest,
      by rw [List.append_nil]; rfl, hbefore, hafter, hopen, hdot, hslash, hway, hext, hclose, hsemi,
      hrest.1, hrest.2, hstop⟩
  · intro hx
    obtain ⟨beforeFrom, afterFrom, openQuote, dot, slash, way, ext, closeQuote, semicolon, rest,
      rfl, hbefore, hafter, hopen, hdot, hslash, hway, hext, hclose, hsemi, hreturn, hfeed,
      hstop⟩ := hx
    exact ⟨beforeFrom, _, rfl, hbefore, _, rfl, afterFrom, _, rfl, hafter, openQuote, _, rfl, hopen,
      _, rfl, dot, _, rfl, hdot, slash, _, rfl, hslash, way, _, rfl, hway, _, rfl, ext, _, rfl,
      hext, closeQuote, _, rfl, hclose, semicolon, _, rfl, hsemi, rest, [],
      (List.append_nil rest).symm, ⟨hreturn, hfeed⟩, rfl, hstop⟩

/-- a clause behind an opening and a body is the end of a form -/
theorem exists_form_of_clause {behind w r : List Char} (h : (inOrder clause).Reads behind w r)
    {gap body : List Char} {qualifier : Option (List Char)} (hg : Blanks gap)
    (hq : ∀ w ∈ qualifier, Blanks w) (hb : '}' ∉ body) :
    ∃ f : Form, f.text = openingText gap qualifier ++ (body ++ '}' :: w) ∧ f.body = body ∧
      LineStops r := by
  obtain ⟨beforeFrom, afterFrom, openQuote, dot, slash, way, ext, closeQuote, semicolon, rest, rfl,
    hbefore, hafter, hopen, hdot, hslash, hway, hext, hclose, hsemi, hreturn, hfeed, hstop⟩ :=
    reads_clause.mp h
  obtain ⟨x, hx⟩ : ∃ x, ext = if x = true then ".js".toList else [] := by
    rcases hext with rfl | rfl
    · exact ⟨false, rfl⟩
    · exact ⟨true, rfl⟩
  let f : Form :=
    { gap, qualifier, body, beforeFrom, afterFrom, openQuote, way := dot ++ (slash ++ way)
      hasExtension := x, closeQuote, rest := semicolon ++ rest
      gap_blanks := hg, qualifier_blanks := hq, body_open := hb
      beforeFrom_blanks := hbefore, afterFrom_blanks := hafter, openQuote_isQuote := hopen
      way_line := by
        rw [List.mem_append, List.mem_append, not_or, not_or]
        exact ⟨not_mem_of_optional hdot (by decide), not_mem_of_optional hslash (by decide), hway⟩
      closeQuote_isQuote := hclose
      rest_line := by
        rw [List.mem_append, not_or]
        exact ⟨not_mem_of_optional hsemi (by decide), hfeed⟩
      rest_noReturn := by
        rw [List.mem_append, not_or]
        exact ⟨not_mem_of_optional hsemi (by decide), hreturn⟩ }
  refine ⟨f, ?_, rfl, hstop⟩
  have hline : f.lineText = '.' :: (dot ++ (slash ++ (way ++ ("/_generated/api".toList ++
      (ext ++ closeQuote :: (semicolon ++ rest)))))) := by
    rw [hx]
    show '.' :: (dot ++ (slash ++ way)) ++ ("/_generated/api".toList ++ _) ++
      closeQuote :: (semicolon ++ rest) = _
    generalize "/_generated/api".toList = ending
    simp only [List.append_assoc, List.cons_append]
    rfl
  have hsource := f.sourceText_append []
  rw [List.append_nil, List.append_nil, hline] at hsource
  rw [Form.text, hsource, List.append_assoc]
  rfl

/-- what stands behind the body of a form is a clause: the optional parts are left out, what they
could take being in the way and the rest -/
theorem reads_clause_of_form (f : Form) {behind r : List Char} (hr : LineStops r) :
    ∃ w, f.sourceText = '}' :: w ∧ (inOrder clause).Reads behind w r := by
  have hsource := f.sourceText_append []
  rw [List.append_nil, List.append_nil] at hsource
  obtain ⟨ext, hending, hext⟩ : ∃ ext, endingText f.hasExtension = "/_generated/api".toList ++ ext ∧
      (ext = [] ∨ ext = ".js".toList) := by
    refine ⟨_, rfl, ?_⟩
    cases f.hasExtension with
    | false => exact Or.inl rfl
    | true => exact Or.inr rfl
  have hline : f.lineText = '.' :: ([] ++ ([] ++ (f.way ++ ("/_generated/api".toList ++
      (ext ++ f.closeQuote :: ([] ++ f.rest)))))) := by
    show '.' :: f.way ++ endingText f.hasExtension ++ f.closeQuote :: f.rest = _
    rw [hending]
    generalize "/_generated/api".toList = ending
    simp only [List.append_assoc, List.cons_append, List.nil_append]
  rw [hline] at hsource
  exact ⟨_, hsource, reads_clause.mpr ⟨f.beforeFrom, f.afterFrom, f.openQuote, [], [], f.way, ext,
    f.closeQuote, [], f.rest, rfl, f.beforeFrom_blanks, f.afterFrom_blanks, f.openQuote_isQuote,
    Or.inl rfl, Or.inl rfl, f.way_line, hext, f.closeQuote_isQuote, Or.inl rfl, f.rest_noReturn,
    f.rest_line, hr⟩⟩

/-! ## whole patterns -/

/-- **A reading of a pattern is a form of the grammar** that begins and ends where a line does. -/
theorem reads_pattern {q : Sought} {behind w r : List Char} :
    q.pattern.Reads behind w r ↔
      LineBegins behind ∧ (∃ f : Form, f.Names q.exports ∧ w = f.text) ∧ LineStops r := by
  have hbrace : ∀ gap qualifier,
      ((openingText gap qualifier).reverse ++ behind).head? = some '{' := by
    intro gap qualifier
    rw [List.head?_append, List.head?_reverse, getLast?_openingText]
    rfl
  rw [pattern, reads_inOrder_append]
  simp only [reads_inOrder_append, reads_opening]
  refine ⟨?_, ?_⟩
  · intro hx
    obtain ⟨_, _, rfl, ⟨hl, gap, qualifier, hg, hq, rfl⟩, _, v, rfl, hbr, hc⟩ := hx
    obtain ⟨body, rfl, hbody, hnames⟩ := (reads_braces (hbrace gap qualifier)).mp hbr
    obtain ⟨f, ht, rfl, hr⟩ := exists_form_of_clause hc hg hq hbody
    refine ⟨hl, ⟨f, hnames, ?_⟩, hr⟩
    rw [ht, List.append_assoc]
    rfl
  · intro hx
    obtain ⟨hl, ⟨f, hnames, rfl⟩, hr⟩ := hx
    obtain ⟨w, hs, hc⟩ := reads_clause_of_form f hr
    refine ⟨openingText f.gap f.qualifier, f.body ++ ['}'] ++ w, ?_,
      ⟨hl, f.gap, f.qualifier, f.gap_blanks, f.qualifier_blanks, rfl⟩, f.body ++ ['}'], w, rfl, ?_,
      hc⟩
    · rw [Form.text, hs, List.append_assoc, List.append_assoc]
      rfl
    · exact (reads_braces (hbrace f.gap f.qualifier)).mpr ⟨f.body, rfl, f.body_open, hnames⟩

end Sought

end Rebind
