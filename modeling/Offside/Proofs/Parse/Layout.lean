import Offside.Proofs.JavaScript.Link
import Offside.Proofs.Parse.ReadAlike
import Offside.Proofs.Token.Comments

namespace Offside

open Lexeme

namespace Lexeme

/-- If a line begins behind this line break, is not blank and is indented, it goes deeper than all the
given lines. -/
def Deeper (levels : List Nat) (text : List Char) : Prop :=
  ∀ c cs, text = c :: cs → isLineBreak c = true → (nextLine 0 cs).2 ≠ [] →
    0 < (nextLine 0 cs).1 → ∀ level ∈ levels, level < (nextLine 0 cs).1

instance (levels : List Nat) (text : List Char) : Decidable (Deeper levels text) :=
  match text with
  | [] => isTrue nofun
  | c :: cs => decidable_of_iff
      (isLineBreak c = true → (nextLine 0 cs).2 ≠ [] → 0 < (nextLine 0 cs).1 →
        ∀ level ∈ levels, level < (nextLine 0 cs).1)
      ⟨fun h _ _ heq => by cases heq; exact h, fun h => h c cs rfl⟩

section

variable {cs tail : List Char}

/-- What ends a line ends blanks and line comments. -/
theorem Closed.separate {text : List Char} (h : Closed text) {c : Char}
    (hc : isLineBreak c = true) : Separate (c :: tail) text where
  block := h
  line _ _ := .inr fun d hd => Option.mem_some.1 hd ▸ by simp [hc]
  word d _ _ hhead := by
    cases hhead
    cases hc

theorem nextLine_append_of_eq {width : Nat} {c : Char} (hc : isLineBreak c = true)
    (h : (nextLine width cs).2 = []) : nextLine width (cs ++ c :: tail) = nextLine 0 tail := by
  fun_induction nextLine width cs with
  | case1 => rw [List.nil_append, nextLine, if_pos hc]
  | case2 width d cs hd ih =>
    rw [List.cons_append, nextLine, if_pos hd]
    exact ih h
  | case3 width d cs hd hblank ih =>
    rw [List.cons_append, nextLine, if_neg hd, if_pos hblank]
    exact ih h
  | case4 => cases h

end

/-- The first text is what is left of a source, and the second one of that source with a line feed and
`next` behind it. -/
structure Extended (next : List Char) (cs ds : List Char) : Prop where
  eq : ds = cs ++ '\n' :: next
  closed : Throughout Closed cs

/-- A source is read as if nothing followed it, up to its last line end. -/
theorem readAlike_extended {next : List Char}
    (hnext : ∀ c ∈ next.head?, isBlank c = false ∧ isLineBreak c = false) :
    ReadAlike [] (Extended next) (· = skipBlanks true next) := by
  have hfirst : nextLine 0 next = (0, next) := by
    cases next with
    | nil => rfl
    | cons c cs => simp [nextLine, hnext c rfl]
  have hfeed : isLineBreak '\n' = true := rfl
  have hseparate {cs : List Char} (h : Throughout Closed cs) :
      Throughout (Separate ('\n' :: next)) cs := fun ds hds => (h ds hds).separate hfeed
  refine ⟨?_, ?_, ?_, ?_, ?_, ?_, ?_⟩
  · rintro cs _ ⟨rfl, hclosed⟩
    refine ⟨?_, hclosed.place (place_skipBlanks false cs)⟩
    have hstay : skipBlanks false ('\n' :: next) = '\n' :: next :=
      skipBlanks_of_noComment rfl (by simp) (by rintro (h | h) <;> cases h)
    rw [skipBlanks_append false (hseparate hclosed), hstay]
    split
    · next hnil => rw [hnil, List.nil_append]
    · rfl
  · rintro cs _ ⟨rfl, hclosed⟩
    by_cases hnil : skipBlanks true cs = []
    · exact .inl hnil
    · refine .inr ⟨?_, hclosed.place (place_skipBlanks true cs)⟩
      rw [skipBlanks_append true (hseparate hclosed), if_neg hnil]
  · rintro cs _ ⟨rfl, hclosed⟩ hnil
    rw [skipBlanks_append true (hseparate hclosed), if_pos hnil, skipBlanks_cons (.inr ⟨rfl, hfeed⟩)]
  · rintro cs _ ⟨rfl, -⟩ hlast d ds heq
    cases cs with
    | nil =>
      cases heq
      exact ⟨hfeed, .inl (by rw [hfirst])⟩
    | cons c cs =>
      obtain ⟨hc, hnil⟩ := hlast c cs rfl
      cases heq
      have hline : nextLine 0 (cs ++ '\n' :: next) = nextLine 0 next :=
        nextLine_append_of_eq hfeed hnil
      refine ⟨hc, .inl ?_⟩
      change (nextLine 0 (cs ++ '\n' :: next)).1 = 0
      rw [hline, hfirst]
  · rintro c cs _ ⟨rfl, hclosed⟩ hc hline
    refine ⟨c, cs ++ '\n' :: next, rfl, hc, ?_, ?_, ?_⟩
    · rw [nextLine_append_of_ne hline]
    · rw [nextLine_append_of_ne hline]
    · exact hclosed.place ((place_gap (.inr hc) cs).trans (place_nextLine 0 cs))
  · exact fun _ _ _ _ _ hlevel => absurd hlevel List.not_mem_nil
  · rintro c cs _ w ⟨rfl, hclosed⟩ hskip - hc hread
    refine ⟨cs ++ '\n' :: next, _, rfl, read_append hread (parted_cons (.inr hfeed) next), rfl, ?_⟩
    exact hclosed.place (place_word hskip hc hread)

/-- The same text twice, with lines that go deeper than those that are open for the first. -/
structure Nested (levels : List Nat) (cs ds : List Char) : Prop where
  eq : ds = cs
  deeper : Throughout (Deeper levels) cs

/-- Lines that are open around a source do not matter to deeper ones. -/
theorem readAlike_nested (levels : List Nat) : ReadAlike levels (Nested levels) (· = []) where
  blanks := by
    rintro cs _ ⟨rfl, hdeeper⟩
    exact ⟨rfl, hdeeper.place (place_skipBlanks false _)⟩
  lines := by
    rintro cs _ ⟨rfl, hdeeper⟩
    exact .inr ⟨rfl, hdeeper.place (place_skipBlanks true _)⟩
  used := by
    rintro cs _ ⟨rfl, -⟩ hnil
    exact hnil
  last := by
    rintro cs _ ⟨rfl, -⟩ hlast
    exact hlast.stops
  line := by
    rintro c cs _ ⟨rfl, hdeeper⟩ hc -
    exact ⟨c, cs, rfl, hc, rfl, rfl,
      hdeeper.place ((place_gap (.inr hc) cs).trans (place_nextLine 0 cs))⟩
  deeper := by
    rintro c cs _ ⟨-, hdeeper⟩ hc hline hpos
    exact hdeeper.here c cs rfl hc hline hpos
  word := by
    rintro c cs _ w ⟨rfl, hdeeper⟩ hskip - hc hread
    exact ⟨cs, w.rest, rfl, hread, rfl, hdeeper.place (place_word hskip hc hread)⟩

end Lexeme

namespace Parse

open TokenStream

variable {s t u : ParseState} {es fs : List Expr}

/-- A row that is read to the end goes on behind every row from the same place. -/
theorem Row.drop (h : Row s es t) (h' : Row s fs u) (hu : u.tokens.Blank) :
    ∃ gs, fs = es ++ gs ∧ Row t gs u := by
  have hmore {s t : ParseState} {st : Statement} (hs : statement s = .ok (some st) t) :
      ¬ s.tokens.Blank := by
    intro hblank
    obtain ⟨v, hv⟩ := statement_none.2 hblank
    cases hs.symm.trans hv
  induction h generalizing fs with
  | nil => exact ⟨fs, rfl, h'⟩
  | declaration hs _ ih =>
    cases h' with
    | nil => exact absurd hu (hmore hs)
    | declaration hs' h' =>
      cases hs.symm.trans hs'
      exact ih h'
    | expression hs' h' => cases hs.symm.trans hs'
  | expression hs _ ih =>
    cases h' with
    | nil => exact absurd hu (hmore hs)
    | declaration hs' h' => cases hs.symm.trans hs'
    | expression hs' h' =>
      cases hs.symm.trans hs'
      obtain ⟨gs, rfl, hgs⟩ := ih h'
      exact ⟨gs, rfl, hgs⟩

end Parse

namespace Program

open Parse TokenStream

variable {c : Context}

/-- Read in two contexts, a source says the same. -/
theorem javaScript_eq_of_parse {source : String} {c d : Context} {es fs : List Expr}
    (h : parse source c = .ok es) (h' : parse source d = .ok fs) :
    javaScript fs = javaScript es := by
  obtain ⟨gs, hgs, halike⟩ | ⟨-, cause, hcause⟩ :=
    parse_follows False h (fun hf => hf.elim) fun hf => hf.elim
  · cases hgs.symm.trans h'
    rw [← javaScript_erasedAll fs, Expr.Alike.map_erased halike, javaScript_erasedAll]
  · cases hcause.symm.trans h'

theorem parse_of_compile {source js : String} (h : compile source c = .ok js) :
    ∃ es, parse source c = .ok es ∧ javaScript es = js := by
  unfold compile at h
  cases hs : parse source c with
  | error e =>
    rw [hs] at h
    cases h
  | ok es =>
    rw [hs] at h
    cases h
    exact ⟨es, rfl, rfl⟩

/-- The first statements of a source make the program `js`. They are read up to where nothing but `rest`
is left, and lines of the widths in `levels` are still open there. -/
def LeavesOpen (source : String) (c : Context) (js : String) (rest : List Char)
    (levels : List Nat) : Prop :=
  ∃ es t, Row (.ofSource source c) es t ∧ javaScript es = js ∧ t.tokens.skipLines.pending = [] ∧
    t.tokens.skipLines.rest = skipBlanks true rest ∧ t.tokens.indents = levels

theorem toList_lines (p q : String) : (p ++ "\n" ++ q).toList = p.toList ++ '\n' :: q.toList := by
  rw [String.toList_append, String.toList_append, List.append_assoc]
  rfl

/-- The lines of a source are read up to their end when more of them follow. -/
theorem exists_leavesOpen {p q js : String}
    (hq : ∀ d ∈ q.toList.head?, isBlank d = false ∧ isLineBreak d = false)
    (hp : Throughout Closed p.toList) (hjs : compile p c = .ok js) :
    ∃ levels, LeavesOpen (p ++ "\n" ++ q) c js q.toList levels := by
  obtain ⟨es, hes, rfl⟩ := parse_of_compile hjs
  obtain ⟨s, hrow, hblank⟩ := parse_iff_row.1 hes
  have hstart : Abreast [] (Extended q.toList) (.ofSource p) (.ofSource (p ++ "\n" ++ q)) :=
    ⟨⟨rfl, rfl⟩, ⟨[], nofun, rfl⟩, toList_lines p q, hp⟩
  obtain ⟨t, hrow', hpending, hrest⟩ := row_readAlike (t := .ofSource (p ++ "\n" ++ q) c)
    (readAlike_extended hq) hrow hblank (.line (.inl hstart)) rfl
  exact ⟨t.tokens.indents, es, t, hrow', rfl, hpending, hrest, rfl⟩

/-- Behind the lines that are left open, deeper ones are read as they are on their own. -/
theorem parse_of_row_nested {q : String} {t u : ParseState} {gs : List Expr}
    (hpending : t.tokens.skipLines.pending = [])
    (hrest : t.tokens.skipLines.rest = skipBlanks true q.toList)
    (hdeeper : Throughout (Deeper t.tokens.indents) q.toList) (hrow : Row t gs u)
    (hu : u.tokens.Blank) : parse q t.context = .ok gs := by
  have htexts : Nested t.tokens.indents t.tokens.skipLines.rest
      (TokenStream.ofSource q).skipLines.rest := by
    refine ⟨hrest.symm, ?_⟩
    rw [hrest]
    exact hdeeper.place (place_skipBlanks true _)
  have hpast : PastStop t.tokens.indents (Nested t.tokens.indents) (· = []) t.tokens
      (.ofSource q) := .inr ⟨⟨hpending, rfl⟩, ⟨t.tokens.indents, fun _ h => h, rfl⟩, htexts⟩
  obtain ⟨v, hrow', hv, hrest'⟩ := row_readAlike (t := .ofSource q t.context)
    (readAlike_nested t.tokens.indents) hrow hu (.line (.inr hpast)) rfl
  exact parse_iff_row.2 ⟨v, hrow', hrest', hv⟩

/-- What the first source says stands as it is, and what the second one says too, unless a line of it
goes no deeper than one that the first source leaves open. -/
theorem compile_append {p q js js' all : String}
    (hq : ∀ d ∈ q.toList.head?, isBlank d = false ∧ isLineBreak d = false)
    (hp : Throughout Closed p.toList) (hjs : compile p c = .ok js) (hjs' : compile q c = .ok js')
    (hall : compile (p ++ "\n" ++ q) c = .ok all) :
    (∃ levels, LeavesOpen (p ++ "\n" ++ q) c js q.toList levels) ∧
      ∀ levels, LeavesOpen (p ++ "\n" ++ q) c js q.toList levels →
        Throughout (Deeper levels) q.toList → all = js ++ js' := by
  refine ⟨exists_leavesOpen hq hp hjs, ?_⟩
  rintro levels ⟨es, t, hrow, rfl, hpending, hrest, rfl⟩ hdeeper
  obtain ⟨fs, hfs, rfl⟩ := parse_of_compile hall
  obtain ⟨hs, hhs, rfl⟩ := parse_of_compile hjs'
  obtain ⟨u, hrow', hu⟩ := parse_iff_row.1 hfs
  obtain ⟨gs, rfl, hgs⟩ := hrow.drop hrow' hu
  have hparse := parse_of_row_nested hpending hrest hdeeper hgs hu
  rw [javaScript_append, javaScript_eq_of_parse hhs hparse]

set_option maxRecDepth 4000 in
theorem compile_append_deeper :
    let p := "f\n  a\n    b"
    let q := "g\n   c"
    Throughout Closed p.toList ∧ compile p = .ok "f(a, b);\n" ∧ compile q = .ok "g(c);\n" ∧
      LeavesOpen (p ++ "\n" ++ q) {} "f(a, b);\n" q.toList [2] ∧
      Throughout (Deeper [2]) q.toList ∧
      compile (p ++ "\n" ++ q) = .ok ("f(a, b);\n" ++ "g(c);\n") := by
  intro p q
  have hlist : q.toList = ['g', '\n', ' ', ' ', ' ', 'c'] := by decide
  have hq : ∀ d ∈ q.toList.head?, isBlank d = false ∧ isLineBreak d = false := by
    rw [hlist]
    intro d hd
    obtain rfl : 'g' = d := Option.mem_some.1 hd
    exact ⟨rfl, rfl⟩
  have hp : Throughout Closed p.toList := throughout_of_tails (by decide)
  have hjs : compile p = .ok "f(a, b);\n" := by cbv
  have hjs' : compile q = .ok "g(c);\n" := by cbv
  have hall : compile (p ++ "\n" ++ q) = .ok "f(a, b);\ng(c);\n" := by cbv
  let t : ParseState := ⟨⟨18, ['g', '\n', ' ', ' ', ' ', 'c'], [2], []⟩, {}⟩
  have hstatement : statement (.ofSource (p ++ "\n" ++ q)) =
      .ok (some (.expression (.apply (.name "f" none) [.name "a" none, .name "b" none]))) t := by
    cbv
  have hopen : LeavesOpen (p ++ "\n" ++ q) {} "f(a, b);\n" q.toList [2] :=
    ⟨_, t, .expression hstatement .nil, by cbv, rfl,
      congrArg (Lexeme.skipBlanks true) hlist.symm, rfl⟩
  have hdeeper : Throughout (Deeper [2]) q.toList := throughout_of_tails (by decide)
  have happend := (compile_append hq hp hjs hjs' hall).2 [2] hopen hdeeper
  exact ⟨hp, hjs, hjs', hopen, hdeeper, hall.trans (congrArg Except.ok happend)⟩

set_option maxRecDepth 4000 in
/-- The line of `c` goes deeper than that of `g`, but no deeper than one that `f` has left open. -/
theorem compile_append_left_open :
    let p := "f\n  a\n    b"
    let q := "g\n  c"
    Throughout Closed p.toList ∧ compile p = .ok "f(a, b);\n" ∧ compile q = .ok "g(c);\n" ∧
      compile (p ++ "\n" ++ q) = .ok "f(a, b);\ng;\nc;\n" ∧
      compile (p ++ "\n" ++ q) ≠ .ok ("f(a, b);\n" ++ "g(c);\n") := by
  intro p q
  have hp : Throughout Closed p.toList := throughout_of_tails (by decide)
  have hall : compile (p ++ "\n" ++ q) = .ok "f(a, b);\ng;\nc;\n" := by cbv
  refine ⟨hp, by cbv, by cbv, hall, fun happend => ?_⟩
  have hsame : "f(a, b);\ng;\nc;\n" = "f(a, b);\n" ++ "g(c);\n" :=
    Except.ok.inj (hall.symm.trans happend)
  exact absurd hsame (by decide)

end Program

end Offside
