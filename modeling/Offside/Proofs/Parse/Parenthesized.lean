import Mathlib
import Offside.Proofs.Parse.InStep
import Offside.Proofs.Parse.Verdict
import Offside.Proofs.Parse.Spelling

namespace Offside

namespace Lexeme

/-- No line ends and no comment begins anywhere in the text. -/
def Unbroken (cs : List Char) : Prop :=
  ∀ c ds, c :: ds <:+ cs → isLineBreak c = false ∧ NoComment c ds

section

variable {cs ds rest spelling text : List Char} {kind : TokenKind} {ws : List Piece}

theorem unbroken_of_pairs (hbreak : ∀ c ∈ cs, isLineBreak c = false)
    (hdashes : ¬ ['-', '-'] <:+: cs) (hbrace : ¬ ['\x7b', '-'] <:+: cs) : Unbroken cs := by
  intro c ds hsuffix
  refine ⟨hbreak c (hsuffix.subset List.mem_cons_self), fun hc hhead => ?_⟩
  obtain ⟨tail, rfl⟩ := List.head?_eq_some_iff.1 hhead
  have hpair : [c, '-'] <:+: cs := List.IsInfix.trans ⟨[], tail, rfl⟩ hsuffix.isInfix
  rcases hc with rfl | rfl
  · exact hdashes hpair
  · exact hbrace hpair

theorem Unbroken.suffix (h : Unbroken cs) (hds : ds <:+ cs) : Unbroken ds :=
  fun c tail htail => h c tail (htail.trans hds)

theorem Unbroken.closed (h : Unbroken cs) : Unbroken (cs ++ [')']) := by
  intro c ds hsuffix
  obtain hnil | ⟨front, hfront, hcs⟩ := List.suffix_concat_iff.1 hsuffix
  · cases hnil
  cases front with
  | nil =>
    cases hfront
    exact ⟨rfl, fun hc => by rcases hc with hc | hc <;> cases hc⟩
  | cons d front =>
    obtain ⟨rfl, rfl⟩ := List.cons.inj hfront
    obtain ⟨hbreak, hcomment⟩ := h _ _ hcs
    refine ⟨hbreak, fun hc hhead => hcomment hc ?_⟩
    cases front with
    | nil => cases hhead
    | cons e front => exact hhead

/-- Only blanks are skipped. -/
theorem Unbroken.skipBlanks_eq (h : Unbroken cs) (lines : Bool) :
    skipBlanks lines cs = cs.dropWhile isBlank := by
  induction cs with
  | nil => rw [skipBlanks, List.dropWhile_nil]
  | cons c cs ih =>
    obtain ⟨hbreak, hcomment⟩ := h c cs (List.suffix_refl _)
    by_cases hblank : isBlank c = true
    · rw [skipBlanks_cons (.inl hblank), List.dropWhile_cons_of_pos hblank]
      exact ih (h.suffix (List.suffix_cons c cs))
    · rw [skipBlanks_of_noComment (Bool.eq_false_iff.2 hblank) (fun _ => hbreak) hcomment,
        List.dropWhile_cons_of_neg hblank]

theorem Unbroken.skipBlanks_closed (h : Unbroken cs) :
    skipBlanks false (cs ++ [')']) = skipBlanks false cs ++ [')'] := by
  rw [h.closed.skipBlanks_eq, h.skipBlanks_eq,
    dropWhile_append_of_ends cs fun c hc => Option.mem_some.1 hc ▸ rfl]

theorem Ends.closed {p : Char → Bool} (hp : p ')' = false) (h : Ends p rest) :
    Ends p (rest ++ [')']) := by
  intro c hc
  cases rest with
  | nil => exact Option.mem_some.1 hc ▸ hp
  | cons d rest => exact h c hc

/-- A word ends before a closing parenthesis wherever it ends before nothing. -/
theorem IsWord.closed (h : IsWord spelling kind text rest) :
    IsWord spelling kind text (rest ++ [')']) := by
  cases h with
  | short htext hrest =>
    refine .short htext fun hnil hhead => hrest hnil ?_
    cases rest with
    | nil => cases hhead
    | cons d rest => exact hhead
  | long htext => exact .long htext
  | name hc hcs hrest => exact .name hc hcs (hrest.closed rfl)
  | integer hcs hrest hpoint =>
    refine .integer hcs (hrest.closed rfl) fun d ds heq => ?_
    rcases rest with _ | ⟨c, _ | ⟨e, rest⟩⟩
    · cases heq
    · cases heq
      rfl
    · cases heq
      exact hpoint _ _ rfl
  | float hcs hds hrest => exact .float hcs hds (hrest.closed rfl)
  | delimiter hc hquote => exact .delimiter hc hquote
  | symbol hletter hdigit hdelimiter hcs hrest =>
    exact .symbol hletter hdigit hdelimiter hcs (hrest.closed rfl)

theorem Lexes.congr (h : Lexes cs ws) (hskip : skipBlanks false ds = skipBlanks false cs) :
    Lexes ds ws := fun length rest hrest => h length rest (hrest.trans hskip)

/-- A text without unclosed strings has words, and one more if a parenthesis is put behind it. -/
theorem exists_lexes_closed (hcs : Unbroken cs) {ls : List Leaf} (h : leaves cs = some ls) :
    ∃ ws : List Piece, (∀ w ∈ ws, w.1 ≠ .terminator) ∧ Lexes cs ws ∧
      Lexes (cs ++ [')']) (ws ++ [(.delimiter, ")")]) := by
  have hskip (lines : Bool) : skipBlanks lines cs = skipBlanks true cs := by
    rw [hcs.skipBlanks_eq, hcs.skipBlanks_eq]
  fun_induction leaves cs generalizing ls with
  | case1 cs hnil =>
    have hblank : skipBlanks false cs = [] := (hskip false).trans hnil
    refine ⟨[], nofun, Lexes.nil.congr (by rw [hblank, skipBlanks]), ?_⟩
    refine (Lexes.paren (.inr rfl) .nil).congr ?_
    rw [hcs.skipBlanks_closed, hblank]
    have hdash : ')' = '-' → ([] : List Char).head? ≠ some '-' := fun h => by cases h
    exact (skipBlanks_of_toNat (by decide) hdash (by decide)).symm
  | case2 cs c rest hword word hread ih =>
    obtain ⟨ls', hls, -⟩ := Option.map_eq_some_iff.1 h
    have hvisible : skipBlanks false cs = c :: rest := (hskip false).trans hword
    have hsuffix : c :: rest <:+ cs := by
      rw [← hword, hcs.skipBlanks_eq]
      exact List.dropWhile_suffix isBlank
    have hbreak := (hcs c rest hsuffix).1
    obtain ⟨spelling, hrest, hisWord⟩ := isWord_of_read hread
    have hunbroken : Unbroken word.rest :=
      hcs.suffix ((hrest ▸ List.suffix_append spelling word.rest : word.rest <:+ rest).trans
        ((List.suffix_cons c rest).trans hsuffix))
    obtain ⟨ws, hws, hlexes, hclosed⟩ := ih hunbroken hls fun lines => by
      rw [hunbroken.skipBlanks_eq, hunbroken.skipBlanks_eq]
    have hread' : read c (rest ++ [')']) = .ok ⟨word.kind, word.text, word.rest ++ [')']⟩ := by
      rw [hrest, List.append_assoc]
      exact read_of_isWord hisWord.closed
    refine ⟨(word.kind, String.ofList word.text) :: ws, ?_, ?_, ?_⟩
    · exact List.forall_mem_cons.2 ⟨hisWord.kind_ne_terminator, hws⟩
    · exact .cons hbreak hvisible hread hlexes
    · have hvisible' : skipBlanks false (cs ++ [')']) = c :: (rest ++ [')']) := by
        rw [hcs.skipBlanks_closed, hvisible, List.cons_append]
      have hwords := Lexes.cons hbreak hvisible' hread' hclosed
      exact hwords
  | case3 => cases h

end

end Lexeme

namespace TokenStream

/-- The words of the first stream are ahead in the second one, with a parenthesis behind them. -/
def Closing (s t : TokenStream) : Prop :=
  ∃ ws : List Piece, (∀ w ∈ ws, w.1 ≠ .terminator) ∧ s.Ahead ws ∧
    t.Ahead (ws ++ [(.delimiter, ")")])

theorem companions_closing : Companions Closing Closing where
  behind := id
  back := by
    rintro s t token span ⟨ws, hws, hs, ht⟩ hkind
    exact ⟨(token.kind, token.text) :: ws, List.forall_mem_cons.2 ⟨hkind, hws⟩, hs.push token,
      ht.push { token with span }⟩
  next := by
    rintro s t ⟨ws, hws, hs, ht⟩
    cases ws with
    -- The first stream is at its end and the second at the parenthesis, which stops a parser too.
    | nil =>
      obtain ⟨s', hs⟩ := hs
      obtain ⟨token, t', ht, hclose, ht'⟩ := ht
      rw [hs, ht]
      refine .stop wordless_none (fun u hu => .inr (Option.mem_some.1 hu ▸ hclose))
        ⟨[], List.forall_mem_nil _, ?_, ?_⟩
      · exact (atEnd_iff_size.2 (next_none hs)).ahead
      · exact hclose ▸ ht'.push token
    | cons w ws =>
      obtain ⟨token, s', hs, rfl, hs'⟩ := hs
      obtain ⟨token', t', ht, hsame, ht'⟩ := ht
      obtain ⟨hkind, hws⟩ := List.forall_mem_cons.1 hws
      have htoken : token' = { token with span := token'.span } := by
        obtain ⟨kind, text, span⟩ := token
        obtain ⟨kind', text', span'⟩ := token'
        cases hsame
        rfl
      rw [hs, ht, htoken]
      exact .word hkind ⟨ws, hws, hs', ht'⟩

/-- Where no word comes in the first stream only the parenthesis is left in the second one. -/
theorem Closing.ahead_of_wordless {s t u : TokenStream} {o : Option Token} (h : Closing s t)
    (hs : s.next = .ok o u) (ho : Wordless o) : t.Ahead [(.delimiter, ")")] := by
  obtain ⟨ws, hkinds, hws, ht⟩ := h
  cases ws with
  | nil => exact ht
  | cons w ws =>
    obtain ⟨token, v, hv, rfl, -⟩ := hws
    cases hs.symm.trans hv
    exact absurd (ho token rfl) (hkinds _ List.mem_cons_self)

/-- A delimiter that was handed back is not blank. -/
theorem not_blank_push {s : TokenStream} {token : Token} (hkind : token.kind = .delimiter) :
    ¬ (s.push token).Blank := by
  rintro ⟨-, hpending⟩
  simp [skipLines, push, hkind] at hpending

end TokenStream

namespace Grammar

open Parse

variable {e : Expr} {ws : List Piece}

/-- A statement behind which no word comes is read in parentheses with any number of levels, unless
they are too few. -/
theorem inner_closing {s s' : ParseState} {u : TokenStream} {o : Option Token} {n : Nat}
    (hs : (ofRoom n).statement s = .ok (some (.expression e)) s')
    (hend : s'.tokens.next = .ok o u) (ho : TokenStream.Wordless o)
    (hkinds : ∀ w ∈ ws, w.1 ≠ .terminator) (hws : s.tokens.Ahead ws) (room : Nat) :
    Verdict (FacingIn s.context (ws ++ [(.delimiter, ")")])) (ofRoom room).inner
      (fun a t => a = e ∧ FacingIn s'.context [(.delimiter, ")")] t) (· = tooDeep) := by
  have hinner : (ofRoom n).inner s = .ok e s' := by
    rw [ofRoom_eq_above] at hs ⊢
    exact bind_of_ok hs
  have hsimulates := inner_simulates (E := (· = tooDeep)) TokenStream.companions_closing
    fun _ : room < n => rfl
  intro t ht
  have hsim := hsimulates s t e s' ⟨ws, hkinds, hws, ht.2⟩ ht.1 hinner
  cases hread : (ofRoom room).inner t with
  | error a t' =>
    rw [hread] at hsim
    exact hsim
  | ok a t' =>
    rw [hread] at hsim
    obtain ⟨rfl, hclosing, hcontext⟩ := hsim
    exact ⟨rfl, hcontext, hclosing.ahead_of_wordless hend ho⟩

end Grammar

namespace Parse

open Lexeme TokenStream

variable {c d : Context} {e : Expr} {source : String}

/-- The source is the expression alone, and `d` is known of names behind it. -/
def Single (source : String) (c : Context) (e : Expr) (d : Context) : Prop :=
  ∃ s t, statement (.ofSource source c) = .ok (some (.expression e)) s ∧ s.context = d ∧
    statement s = .ok none t

/-- The source is read within an expression before a closing parenthesis. -/
theorem Single.inner_verdict (h : Single source c e d) (hline : Unbroken source.toList) :
    ∃ ws : List Piece, Lexes (source.toList ++ [')']) (ws ++ [(.delimiter, ")")]) ∧
      ∀ room, Verdict (FacingIn c (ws ++ [(.delimiter, ")")])) (Grammar.ofRoom room).inner
        (fun a t => a = e ∧ FacingIn d [(.delimiter, ")")] t) (· = tooDeep) := by
  obtain ⟨v, t, hv, rfl, hnone⟩ := h
  have hleaves := statement_leaves hv
  rw [statement_leaves hnone] at hleaves
  obtain ⟨ls, hls, -⟩ := Option.map_eq_some_iff.1 hleaves
  obtain ⟨ws, hkinds, hlexes, hclosed⟩ := exists_lexes_closed hline hls
  obtain ⟨s', hs', hend⟩ := statement_some.1 hv
  rw [lineStatement_eq] at hs'
  have hahead : (TokenStream.ofSource source).skipLines.Ahead ws := by
    refine hlexes _ (skipBlanks true source.toList) ?_
    rw [hline.skipBlanks_eq true, ← hline.skipBlanks_eq false]
    exact skipBlanks_idem false _
  obtain ⟨o, u, hu, ⟨ho, rfl⟩ | ⟨token, rfl, hkind, rfl⟩⟩ := terminator_iff.1 hend
  · exact ⟨ws, hclosed, Grammar.inner_closing hs' hu ho hkinds hahead⟩
  -- A delimiter that ends the statement is left to the next one, but there is none.
  · exact absurd (statement_none.1 ⟨t, hnone⟩) (not_blank_push hkind)

/-- Parentheses around an expression on one line change nothing, if they open no level too many. -/
theorem statement_parenthesized (hbreak : ∀ ch ∈ source.toList, isLineBreak ch = false)
    (hdashes : ¬ ['-', '-'] <:+: source.toList) (hbrace : ¬ ['\x7b', '-'] <:+: source.toList)
    (h : Single source c e d) :
    Single ("(" ++ source ++ ")") c e d ∨
      ∃ t, statement (.ofSource ("(" ++ source ++ ")") c) = .error tooDeep t := by
  obtain ⟨ws, hclosed, hinner⟩ :=
    h.inner_verdict (unbroken_of_pairs hbreak hdashes hbrace)
  have hsource : ("(" ++ source ++ ")").toList = '(' :: (source.toList ++ [')']) := by simp
  have hlexes : Lexes ("(" ++ source ++ ")").toList
      ((.delimiter, "(") :: (ws ++ [(.delimiter, ")")])) := by
    rw [hsource]
    exact .paren (.inl rfl) hclosed
  have hskip : skipBlanks true ("(" ++ source ++ ")").toList = ("(" ++ source ++ ")").toList := by
    rw [hsource]
    exact skipBlanks_of_toNat (by decide) (fun h => by cases h) (by decide)
  have hgroup (room : Nat) : Verdict (FacingIn c ((.delimiter, "(") :: (ws ++ [(.delimiter, ")")])))
      (Grammar.simpleTermAbove (Grammar.beneath (room + 1))) (Found (· = e) (FacingIn d []))
      (· = tooDeep) := Grammar.simpleTerm_of_inner (hinner room)
  have hsum := Grammar.sum_of_term (Grammar.term_of_simple (hgroup 63) nofun) Grammar.bare_nil nofun
  have hword : ((TokenKind.delimiter, "(") :: (ws ++ [(.delimiter, ")")])).head? ≠
      some (.name, "type") := nofun
  have hlambda : ((TokenKind.delimiter, "(") :: (ws ++ [(.delimiter, ")")])).head? ≠
      some (.symbol, "\\") := nofun
  have hstatement := Grammar.statement_of_sum hword hlambda hsum
  obtain ⟨a, s, ⟨_, rfl, rfl⟩, hs, hcontext, hblank⟩ | ⟨a, s, rfl, hs⟩ :=
    statement_of_verdict ⟨rfl, hlexes _ _ rfl⟩ hskip hstatement
  · obtain ⟨t, ht⟩ := statement_none.2 hblank
    exact .inl ⟨s, t, hs, hcontext, ht⟩
  · exact .inr ⟨s, hs⟩

theorem statement_parenthesized_definition :
    let source := " n = f 2 * \"-\".x"
    let f := Ty.function .int .int
    let c := Context.empty.setValue "f" f
    let e := Expr.define "n" (.arithmetic .multiply
      (.apply (.name "f" (some f)) [.constant (.int 2)])
      (.member (.constant (.string "-")) (.name "x" none))) (some .number)
    let d := c.setValue "n" .number
    (∀ ch ∈ source.toList, isLineBreak ch = false) ∧ ¬ ['-', '-'] <:+: source.toList ∧
      ¬ ['\x7b', '-'] <:+: source.toList ∧ Single source c e d ∧
      (Single "( n = f 2 * \"-\".x)" c e d ∨
        ∃ t, statement (.ofSource "( n = f 2 * \"-\".x)" c) = .error tooDeep t) := by
  intro source f c e d
  have hbreak : ∀ ch ∈ source.toList, isLineBreak ch = false := by
    simp [source, isLineBreak]
  have hdashes : ¬ ['-', '-'] <:+: source.toList := by decide +kernel
  have hbrace : ¬ ['\x7b', '-'] <:+: source.toList := by decide +kernel
  have hfirst : statement (.ofSource source c) =
      .ok (some (.expression e)) ⟨⟨16, [], [], []⟩, d⟩ := by cbv
  obtain ⟨t, hend⟩ := statement_of_blank (s := ⟨⟨16, [], [], []⟩, d⟩) (blank_of_nil rfl rfl)
  have hsingle : Single source c e d := ⟨_, t, hfirst, rfl, hend⟩
  have hsource : "(" ++ source ++ ")" = "( n = f 2 * \"-\".x)" := by rfl
  have hboth := statement_parenthesized hbreak hdashes hbrace hsingle
  rw [hsource] at hboth
  exact ⟨hbreak, hdashes, hbrace, hsingle, hboth⟩

end Parse

end Offside
