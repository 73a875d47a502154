import Offside.Proofs.Token.Places
import Offside.Proofs.Token.Written

namespace Offside

open Lexeme

namespace Lexeme

/-- So many levels of block comments are closed within the text. -/
def closes : (depth : Nat) → List Char → Bool
  | 0, _ => true
  | _ + 1, [] => false
  | depth + 1, '\x7b' :: '-' :: cs => closes (depth + 2) cs
  | depth + 1, '-' :: '\x7d' :: cs => closes depth cs
  | depth + 1, _ :: cs => closes (depth + 1) cs

/-- If a block comment begins here it is closed. -/
def Closed (text : List Char) : Prop :=
  ∀ rest, text = '\x7b' :: '-' :: rest → closes 1 rest = true

instance (text : List Char) : Decidable (Closed text) :=
  match text with
  | [] => isTrue nofun
  | [_] => isTrue nofun
  | c :: d :: rest => decidable_of_iff (c = '\x7b' ∧ d = '-' → closes 1 rest = true)
      ⟨fun h _ heq => by cases heq; exact h ⟨rfl, rfl⟩, by rintro h ⟨rfl, rfl⟩; exact h rest rfl⟩

section

variable {cs tail : List Char}

theorem afterComment_append {depth : Nat} (h : closes depth cs = true) :
    afterComment depth (cs ++ tail) = afterComment depth cs ++ tail := by
  fun_induction closes depth cs with
  | case1 cs => rw [afterComment, afterComment]
  | case2 => cases h
  | case3 depth cs ih =>
    rw [List.cons_append, List.cons_append, afterComment, afterComment]
    exact ih h
  | case4 depth cs ih =>
    rw [List.cons_append, List.cons_append, afterComment, afterComment]
    exact ih h
  | case5 depth c cs hopen hclose ih =>
    have hsame (text : List Char) (htext : ∀ d ds, text = d :: ds → ∃ ds', cs = d :: ds') :
        afterComment (depth + 1) (c :: text) = afterComment (depth + 1) text := by
      refine afterComment_char ?_ ?_
      · rintro ⟨hc, ds, heq⟩
        obtain ⟨ds', hcs⟩ := htext _ _ heq
        exact hopen ds' hc hcs
      · rintro ⟨hc, ds, heq⟩
        obtain ⟨ds', hcs⟩ := htext _ _ heq
        exact hclose ds' hc hcs
    rw [List.cons_append, hsame cs fun d ds heq => ⟨ds, heq⟩, hsame (cs ++ tail), ih h]
    cases cs with
    | nil => cases h
    | cons e cs => exact fun d ds heq => ⟨cs, congrArg (· :: cs) (List.cons.inj heq).1⟩

theorem nextLine_append_of_ne {width : Nat} (h : (nextLine width cs).2 ≠ []) :
    nextLine width (cs ++ tail) = ((nextLine width cs).1, (nextLine width cs).2 ++ tail) := by
  fun_induction nextLine width cs with
  | case1 => exact absurd rfl h
  | case2 width c cs hc ih =>
    rw [List.cons_append, nextLine, if_pos hc]
    exact ih h
  | case3 width c cs hc hblank ih =>
    rw [List.cons_append, nextLine, if_neg hc, if_pos hblank]
    exact ih h
  | case4 width c cs hc hblank => rw [List.cons_append, nextLine, if_neg hc, if_neg hblank]

theorem nextLine_ne_nil {c : Char} (hc : isBlank c = false ∧ isLineBreak c = false) (hmem : c ∈ cs)
    (width : Nat) : (nextLine width cs).2 ≠ [] := by
  fun_induction nextLine width cs with
  | case1 => cases hmem
  | case2 width d cs hd ih =>
    refine ih (List.mem_of_ne_of_mem ?_ hmem)
    rintro rfl
    cases hd.symm.trans hc.2
  | case3 width d cs _ hd ih =>
    refine ih (List.mem_of_ne_of_mem ?_ hmem)
    rintro rfl
    cases hd.symm.trans hc.1
  | case4 => exact List.cons_ne_nil _ _

/-- Blanks and comments that begin here go no further when the tail is put behind them. -/
structure Separate (tail text : List Char) : Prop where
  block : Closed text
  line (rest : List Char) : text = '-' :: '-' :: rest →
    (∃ c ∈ rest, isLineBreak c = true) ∨ Ends (fun c => !isLineBreak c) tail
  word (c : Char) : text = [c] → NoComment c tail

theorem skipBlanks_append (lines : Bool) (h : Throughout (Separate tail) cs) :
    skipBlanks lines (cs ++ tail) =
      if skipBlanks lines cs = [] then skipBlanks lines tail else skipBlanks lines cs ++ tail := by
  fun_induction skipBlanks lines cs with
  | case1 => rw [if_pos rfl, List.nil_append]
  | case2 rest ih =>
    have hdrop : (rest ++ tail).dropWhile (fun c => !isLineBreak c) =
        rest.dropWhile (fun c => !isLineBreak c) ++ tail := by
      obtain ⟨c, hc, hbreak⟩ | hends := h.here.line rest rfl
      · rw [List.dropWhile_append, if_neg]
        intro hnil
        rw [List.isEmpty_iff, List.dropWhile_eq_nil_iff] at hnil
        simpa [hbreak] using hnil c hc
      · exact dropWhile_append_of_ends rest hends
    rw [List.cons_append, List.cons_append, skipBlanks, hdrop]
    exact ih (h.place (place_after ('-' :: '-' :: rest)))
  | case3 rest ih =>
    rw [List.cons_append, List.cons_append, skipBlanks,
      afterComment_append (h.here.block rest rfl)]
    exact ih (h.place (place_after ('\x7b' :: '-' :: rest)))
  | case4 d rest _ _ hgap ih =>
    rw [Bool.or_eq_true, Bool.and_eq_true] at hgap
    rw [List.cons_append, skipBlanks_cons hgap]
    exact ih (h.place (place_gap (hgap.imp_right And.right) rest))
  | case5 d rest hline hblock hgap =>
    rw [Bool.not_eq_true, Bool.or_eq_false_iff] at hgap
    rw [if_neg (List.cons_ne_nil d rest), List.cons_append]
    refine skipBlanks_of_noComment hgap.1 (fun hlines => by simpa [hlines] using hgap.2) ?_
    cases rest with
    | nil => exact h.here.word d rfl
    | cons e rest =>
      rintro hd ⟨⟩
      exact hd.elim (fun hd => hline rest hd rfl) fun hd => hblock rest hd rfl

end

/-- Where all strings are closed some word is read. -/
theorem exists_read_of_leaves {c : Char} {cs : List Char} (h : (leaves (c :: cs)).isSome)
    (hskip : skipBlanks false (c :: cs) = c :: cs) (hc : isLineBreak c = false) :
    ∃ w, read c cs = .ok w ∧ Place (c :: cs) w.rest ∧ (leaves w.rest).isSome := by
  have hlines := skipBlanks_lines hskip hc
  cases hread : read c cs with
  | error tail =>
    rw [leaves_unclosed hlines hread] at h
    cases h
  | ok w =>
    rw [leaves_word hlines hread, Option.isSome_map] at h
    exact ⟨w, rfl, place_word hskip hc hread, h⟩

theorem leaves_isSome_of_tokens {source : String} {ts : List Token}
    (h : (TokenStream.ofSource source).tokens = .ok ts) : (leaves source.toList).isSome := by
  have hleaves := TokenStream.tokens_leaves (.ofSource source)
  rw [h] at hleaves
  obtain ⟨ls, hls, -⟩ := Option.map_eq_some_iff.1 hleaves
  exact Option.isSome_of_eq_some hls

/-- If a comment begins here it ends in the text: a block comment is closed, and the line of a line
comment is ended. -/
def Shut (text : List Char) : Prop :=
  Closed text ∧ ∀ rest, text = '-' :: '-' :: rest → ∃ c ∈ rest, isLineBreak c = true

instance (text : List Char) : Decidable (Shut text) :=
  match text with
  | [] => isTrue ⟨nofun, nofun⟩
  | [_] => isTrue ⟨nofun, nofun⟩
  | c :: d :: rest => decidable_of_iff
      (Closed (c :: d :: rest) ∧ (c = '-' ∧ d = '-' → rest.any isLineBreak = true))
      ⟨fun h => ⟨h.1, fun _ heq => by cases heq; exact List.any_eq_true.1 (h.2 ⟨rfl, rfl⟩)⟩,
        fun h => ⟨h.1, by rintro ⟨rfl, rfl⟩; exact List.any_eq_true.2 (h.2 rest rfl)⟩⟩

/-- What follows the last line break. -/
def lastLine (cs : List Char) : List Char := cs.rtakeWhile fun c => !isLineBreak c

/-- One block comment and nothing else. -/
def IsBlockComment (cs : List Char) : Prop :=
  ∃ body, cs = '\x7b' :: '-' :: body ∧ closes 1 body = true ∧ afterComment 1 body = []

/-- A text behind which a comment may stand: it ends in a blank and within a line that is not blank,
and no string and no comment of it is open there. -/
structure Interruptible (cs : List Char) : Prop where
  blank (c : Char) : [c] <:+ cs → isBlank c = true
  shut : Throughout Shut cs
  closed : (leaves cs).isSome
  lines (c : Char) (ds : List Char) : c :: ds <:+ cs → isLineBreak c = true → (nextLine 0 ds).2 ≠ []

namespace Interruptible

variable {cs ds tail : List Char}

theorem place (h : Interruptible cs) (hplace : Place cs ds) (hclosed : (leaves ds).isSome) :
    Interruptible ds where
  blank c hc := h.blank c (hc.trans hplace.suffix)
  shut := h.shut.place hplace
  closed := hclosed
  lines c es hes := h.lines c es (hes.trans hplace.suffix)

theorem separate (h : Interruptible cs) (tail : List Char) : Throughout (Separate tail) cs := by
  intro ds hds
  refine ⟨(h.shut ds hds).1, fun rest hrest => .inl ((h.shut ds hds).2 rest hrest), ?_⟩
  rintro c rfl hc
  have hblank := h.blank c hds.suffix
  rcases hc with rfl | rfl <;> cases hblank

theorem skip (h : Interruptible cs) : Interruptible (skipBlanks false cs) := by
  refine h.place (place_skipBlanks false cs) ?_
  rw [leaves_congr (skipBlanks_skipBlanks false cs)]
  exact h.closed

theorem behindBreak {c : Char} (h : Interruptible (c :: cs)) (hc : isLineBreak c = true) :
    Interruptible cs := by
  refine h.place (place_gap (.inr hc) cs) ?_
  rw [← leaves_congr (skipBlanks_cons (.inr ⟨rfl, hc⟩))]
  exact h.closed

theorem line (h : Interruptible cs) : Interruptible (nextLine 0 cs).2 := by
  refine h.place (place_nextLine 0 cs) ?_
  rw [leaves_congr (skipBlanks_nextLine 0 cs)]
  exact h.closed

theorem exists_word {c : Char} (h : Interruptible (c :: cs))
    (hskip : skipBlanks false (c :: cs) = c :: cs) (hc : isLineBreak c = false) :
    ∃ w, read c cs = .ok w ∧ Interruptible w.rest := by
  obtain ⟨w, hread, hplace, hclosed⟩ := exists_read_of_leaves h.closed hskip hc
  exact ⟨w, hread, h.place hplace hclosed⟩

end Interruptible

/-- The last character of a word is no blank. -/
theorem IsWord.last_not_blank {c d : Char} {ds text rest : List Char} {kind : TokenKind}
    (h : IsWord (c :: ds) kind text rest) (hc : isBlank c = false)
    (hlast : (c :: ds).getLast? = some d) : isBlank d = false := by
  have hno {p : Char → Bool} (hp : ∀ c, isBlank c = true ∨ isLineBreak c = true → p c = false)
      (hd : p d = true) : isBlank d = false := by
    rw [← Bool.not_eq_true]
    intro hblank
    rw [hp d (.inl hblank)] at hd
    cases hd
  have hmem := List.mem_of_getLast? hlast
  cases h with
  | short htext hrest =>
    rw [← List.cons_append, List.getLast?_concat] at hlast
    cases hlast
    rfl
  | @long text rest htext =>
    have hquote : (quotes ++ text ++ ['"', '"'] ++ ['"']).getLast? = some '"' :=
      List.getLast?_concat
    rw [List.append_assoc (quotes ++ text)] at hquote
    cases hquote.symm.trans hlast
    rfl
  | name hletter hcs hrest =>
    obtain rfl | hmem := List.mem_cons.1 hmem
    · exact hc
    · exact hno (fun _ => not_nameChar_of_gap) (hcs d hmem)
  | integer hcs hrest hpoint => exact hno (fun _ => not_digit_of_gap) (hcs d hmem)
  | @float c e cs es rest hcs hds hrest =>
    have hdigits : (c :: (cs ++ '.' :: e :: es)).getLast? = (e :: es).getLast? := by
      rw [← List.cons_append, List.getLast?_append_cons, List.getLast?_cons_cons]
    rw [hdigits] at hlast
    exact hno (fun _ => not_digit_of_gap) (hds d (List.mem_of_getLast? hlast))
  | delimiter hdelimiter hquote =>
    cases hlast
    exact hc
  | symbol hletter hdigit hdelimiter hcs hrest =>
    obtain rfl | hmem := List.mem_cons.1 hmem
    · exact hc
    · exact hno (fun _ => not_symbol_of_gap) (hcs d hmem)

/-- Before a blank a word is read alike whatever stands behind the blank. -/
theorem Interruptible.read_append {c : Char} {cs : List Char} {w : Word}
    (h : Interruptible (c :: cs)) (hc : isBlank c = false) (hread : read c cs = .ok w)
    (tail : List Char) : read c (cs ++ tail) = .ok ⟨w.kind, w.text, w.rest ++ tail⟩ := by
  obtain ⟨ds, hcs, hword⟩ := isWord_of_read hread
  have hfront : SameFront w.rest (w.rest ++ tail) := by
    rcases hrest : w.rest with _ | ⟨d, _ | ⟨e, es⟩⟩
    · rw [hrest, List.append_nil] at hcs
      subst hcs
      have hd := List.getLast?_eq_some_getLast (List.cons_ne_nil c cs)
      have hblank := h.blank _ (List.singleton_suffix_iff_getLast?_eq_some.2 hd)
      exact nomatch hblank.symm.trans (hword.last_not_blank hc hd)
    · have hd := h.blank d ⟨c :: ds, by rw [hcs, hrest]; rfl⟩
      exact .parted (parted_cons (.inl hd) _) (parted_cons (.inl hd) _)
    · exact .two
  rw [hcs, List.append_assoc]
  exact read_of_isWord (hword.congr hfront)

/-- Two texts that differ in what stands behind a place where a comment may stand, or not at all. -/
inductive Inserted (x y : List Char) : List Char → List Char → Prop
  | ahead {cs : List Char} (h : Interruptible cs) : Inserted x y (cs ++ x) (cs ++ y)
  | behind {cs : List Char} : Inserted x y cs cs

/-- The same for texts that begin with no blank and no comment. -/
inductive Begun (x y : List Char) : List Char → List Char → Prop
  | ahead {c : Char} {cs : List Char} (h : Interruptible (c :: cs))
      (hskip : skipBlanks false (c :: cs) = c :: cs) : Begun x y (c :: (cs ++ x)) (c :: (cs ++ y))
  | behind {cs : List Char} : Begun x y cs cs

theorem Inserted.begun {x y cs ds : List Char} (hxy : skipBlanks false x = skipBlanks false y)
    (h : Inserted x y cs ds) : Begun x y (skipBlanks false cs) (skipBlanks false ds) := by
  cases h with
  | behind => exact .behind
  | @ahead cs h =>
    rw [skipBlanks_append false (h.separate x), skipBlanks_append false (h.separate y)]
    have hskip := h.skip
    have hidem := skipBlanks_idem false cs
    cases hcs : skipBlanks false cs with
    | nil =>
      rw [if_pos rfl, if_pos rfl, hxy]
      exact .behind
    | cons c cs =>
      rw [if_neg (List.cons_ne_nil c cs), if_neg (List.cons_ne_nil c cs)]
      rw [hcs] at hskip hidem
      exact .ahead hskip hidem

namespace Begun

variable {x y cs text : List Char} {c : Char}

theorem line (h : Begun x y (c :: cs) text) (hc : isLineBreak c = true) :
    ∃ ds, text = c :: ds ∧ Inserted x y cs ds ∧ (nextLine 0 ds).1 = (nextLine 0 cs).1 ∧
      Inserted x y (nextLine 0 cs).2 (nextLine 0 ds).2 := by
  cases h with
  | behind => exact ⟨cs, rfl, .behind, rfl, .behind⟩
  | @ahead c cs h hskip =>
    have hline := h.lines c cs List.suffix_rfl hc
    refine ⟨cs ++ y, rfl, .ahead (h.behindBreak hc), ?_, ?_⟩
    · rw [nextLine_append_of_ne hline, nextLine_append_of_ne hline]
    · rw [nextLine_append_of_ne hline, nextLine_append_of_ne hline]
      exact .ahead (h.behindBreak hc).line

theorem word (h : Begun x y (c :: cs) text) (hc : isLineBreak c = false) {w : Word}
    (hread : read c cs = .ok w) :
    ∃ ds rest, text = c :: ds ∧ read c ds = .ok ⟨w.kind, w.text, rest⟩ ∧
      Inserted x y w.rest rest := by
  cases h with
  | behind => exact ⟨cs, w.rest, rfl, hread, .behind⟩
  | @ahead c cs h hskip =>
    obtain ⟨v, hv, hrest⟩ := h.exists_word hskip hc
    have hblank := (noComment_of_skipBlanks hskip).1
    cases hread.symm.trans (h.read_append hblank hv x)
    exact ⟨cs ++ y, v.rest ++ y, rfl, h.read_append hblank hv y, .ahead hrest⟩

/-- A string that is not closed begins behind the insertion. -/
theorem unclosed (h : Begun x y (c :: cs) text) (hc : isLineBreak c = false) {rest : List Char}
    (hread : read c cs = .error rest) : text = c :: cs := by
  cases h with
  | behind => rfl
  | @ahead c cs h hskip =>
    obtain ⟨v, hv, -⟩ := h.exists_word hskip hc
    cases hread.symm.trans (h.read_append (noComment_of_skipBlanks hskip).1 hv x)

end Begun

end Lexeme

namespace TokenStream

variable {x y : List Char} {s t : TokenStream}

/-- Two streams with the same open lines, over texts that differ in what is inserted. -/
structure Beside (x y : List Char) (s t : TokenStream) : Prop where
  handed : s.pending = [] ∧ t.pending = []
  indents : t.indents = s.indents
  rest : Inserted x y s.rest t.rest

/-- Two steps find the same, but for the place where it stands. -/
inductive Alike (x y : List Char) : EStateM.Result Error TokenStream (Option Token) →
    EStateM.Result Error TokenStream (Option Token) → Prop
  | nothing {s t : TokenStream} : Alike x y (.ok none s) (.ok none t)
  | token {token : Token} {span : Span} {s t : TokenStream} (h : Beside x y s t) :
      Alike x y (.ok (some token) s) (.ok (some { token with span }) t)
  | failure {e e' : Error} {s t : TokenStream} (h : Beside x y s t) :
      Alike x y (.error e s) (.error e' t)

theorem read_alike (hxy : Lexeme.skipBlanks false x = Lexeme.skipBlanks false y)
    (handed : s.pending = [] ∧ t.pending = []) (hindents : t.indents = s.indents)
    {text text' : List Char} (h : Begun x y text text') :
    Alike x y (s.read text) (t.read text') := by
  fun_induction read s text generalizing t text' with
  | case1 s hs =>
    cases h with
    | behind =>
      rw [read, hindents, hs]
      exact .nothing
  | case2 s width outer hs =>
    cases h with
    | behind =>
      rw [read, hindents, hs]
      exact .token ⟨handed, rfl, .behind⟩
  | case3 s c cs hc hw ih =>
    obtain ⟨ds, rfl, -, hwidth, hline⟩ := h.line hc
    rw [read, if_pos hc, hindents, hwidth, if_pos hw]
    exact ih (t := { t with indents := (nextLine 0 cs).1 :: s.indents }) handed rfl (hline.begun hxy)
  | case4 s c cs hc hw =>
    obtain ⟨ds, rfl, hrest, hwidth, -⟩ := h.line hc
    rw [read, if_pos hc, hindents, hwidth, if_neg hw]
    exact .token ⟨handed, rfl, hrest⟩
  | case5 s c cs hc word hr =>
    obtain ⟨ds, rest, rfl, hread, hrest⟩ := h.word (Bool.eq_false_iff.2 hc) hr
    rw [read, if_neg hc, hread]
    exact .token ⟨handed, hindents, hrest⟩
  | case6 s c cs hc rest hr =>
    obtain rfl := h.unclosed (Bool.eq_false_iff.2 hc) hr
    rw [read, if_neg hc, hr]
    exact .failure ⟨handed, hindents, .behind⟩

theorem Beside.next (hxy : Lexeme.skipBlanks false x = Lexeme.skipBlanks false y)
    (h : Beside x y s t) : Alike x y s.next t.next := by
  have hread := read_alike hxy h.handed h.indents (h.rest.begun hxy)
  unfold TokenStream.next
  rw [h.handed.1, h.handed.2]
  exact hread

/-- The kind and the text of a token, or a failure. -/
def wordOf? (event : Except Error Token) : Option Piece :=
  event.toOption.map fun token => (token.kind, token.text)

theorem Beside.words (hxy : Lexeme.skipBlanks false x = Lexeme.skipBlanks false y)
    (h : Beside x y s t) : s.events.map wordOf? = t.events.map wordOf? := by
  fun_induction events s generalizing t with
  | case1 s u hs =>
    have hnext := h.next hxy
    rw [hs] at hnext
    rw [events_eq t]
    generalize t.next = step at hnext
    cases hnext
    rfl
  | case2 s token u hs ih =>
    have hnext := h.next hxy
    rw [hs] at hnext
    rw [events_eq t]
    generalize t.next = step at hnext
    cases hnext with
    | token h => exact congrArg (some (token.kind, token.text) :: ·) (ih h)
  | case3 s e u hs ih =>
    have hnext := h.next hxy
    rw [hs] at hnext
    rw [events_eq t]
    generalize t.next = step at hnext
    cases hnext with
    | failure h => exact congrArg (none :: ·) (ih h)

/-- The tokens are what is found before the first failure. -/
theorem tokens_eq_mapM (s : TokenStream) : s.tokens = s.events.mapM id := by
  fun_induction tokens s with
  | case1 s t hs =>
    rw [events_eq, hs]
    rfl
  | case2 s token t hs ih =>
    rw [events_eq, hs, ih]
    dsimp only
    rw [List.mapM_cons]
    cases t.events.mapM id <;> rfl
  | case3 s e t hs =>
    rw [events_eq, hs]
    dsimp only
    rw [List.mapM_cons]
    rfl

theorem words_tokens (s : TokenStream) :
    s.tokens.toOption.map (List.map fun token => (token.kind, token.text)) =
      (s.events.map wordOf?).mapM id := by
  rw [tokens_eq_mapM]
  induction s.events with
  | nil => rfl
  | cons event events ih =>
    rw [List.mapM_cons, List.map_cons, List.mapM_cons, ← ih]
    cases event with
    | error e => rfl
    | ok token => cases events.mapM id <;> rfl

end TokenStream

open TokenStream

/-- A comment may stand at the front of a text, and behind one that ends within a line. -/
theorem interruptible_of_tokens {p : String} {ts : List Token}
    (hblank : ∀ c ∈ p.toList.getLast?, isBlank c = true) (hp : (ofSource p).tokens = .ok ts)
    (hshut : Throughout Shut p.toList)
    (hlast : (∃ c ∈ p.toList, isLineBreak c = true) →
      ∃ c ∈ lastLine p.toList, isBlank c = false) : Interruptible p.toList where
  blank c hc := hblank c (List.singleton_suffix_iff_getLast?_eq_some.1 hc)
  shut := hshut
  closed := leaves_isSome_of_tokens hp
  lines c ds hds hc := by
    obtain ⟨d, hd, hblank⟩ := hlast ⟨c, hds.subset List.mem_cons_self, hc⟩
    have hbreak {e : Char} (he : e ∈ lastLine p.toList) : isLineBreak e = false := by
      simpa using List.mem_rtakeWhile_imp he
    -- The last line begins behind every line break.
    have hlater : lastLine p.toList <:+ ds := by
      have hsuffix : lastLine p.toList <:+ p.toList := List.rtakeWhile_suffix _ _
      obtain hlater | hearlier := List.suffix_or_suffix_of_suffix hsuffix hds
      · obtain heq | hlater := List.suffix_cons_iff.1 hlater
        · exact nomatch hc.symm.trans (hbreak (heq ▸ List.mem_cons_self))
        · exact hlater
      · exact nomatch hc.symm.trans (hbreak (hearlier.subset List.mem_cons_self))
    exact nextLine_ne_nil ⟨hblank, hbreak hd⟩ (hlater.subset hd) 0

/-- With a block comment within a line or without it, a source has the same words and terminators,
and fails at the same of them. It may hold anything that a comment can hold, line breaks too. -/
theorem events_comment {p comment q : String} {ts : List Token}
    (hcomment : IsBlockComment comment.toList)
    (hblank : ∀ c ∈ p.toList.getLast?, isBlank c = true) (hp : (ofSource p).tokens = .ok ts)
    (hshut : Throughout Shut p.toList)
    (hlast : (∃ c ∈ p.toList, isLineBreak c = true) →
      ∃ c ∈ lastLine p.toList, isBlank c = false) :
    (ofSource (p ++ comment ++ q)).events.map wordOf? = (ofSource (p ++ q)).events.map wordOf? ∧
      (ofSource (p ++ comment ++ q)).tokens.toOption.map (List.map fun t => (t.kind, t.text)) =
        (ofSource (p ++ q)).tokens.toOption.map (List.map fun t => (t.kind, t.text)) := by
  obtain ⟨body, hbody, hcloses, hnil⟩ := hcomment
  have hskip : Lexeme.skipBlanks false (comment.toList ++ q.toList) =
      Lexeme.skipBlanks false q.toList := by
    rw [hbody, List.cons_append, List.cons_append, Lexeme.skipBlanks,
      afterComment_append hcloses, hnil, List.nil_append]
  have hbeside : Beside (comment.toList ++ q.toList) q.toList (ofSource (p ++ comment ++ q))
      (ofSource (p ++ q)) := by
    refine ⟨⟨rfl, rfl⟩, rfl, ?_⟩
    show Inserted _ _ (p ++ comment ++ q).toList (p ++ q).toList
    rw [String.toList_append, String.toList_append, String.toList_append, List.append_assoc]
    exact .ahead (interruptible_of_tokens hblank hp hshut hlast)
  have hwords := hbeside.words hskip
  exact ⟨hwords, by rw [words_tokens, words_tokens, hwords]⟩

set_option maxRecDepth 4000 in
theorem events_comment_nested :
    let p := "f --\n \x7b-b-\x7d x "
    let comment := "\x7b- \" \x7b-\n-\x7d -- -\x7d"
    let q := "+ y\ng"
    IsBlockComment comment.toList ∧ Throughout Shut p.toList ∧
      (ofSource (p ++ comment ++ q)).tokens.toOption.map (List.map fun t => (t.kind, t.text)) =
        some [(.name, "f"), (.name, "x"), (.symbol, "+"), (.name, "y"), (.terminator, "\n"),
          (.name, "g")] := by
  intro p comment q
  have hlist : comment.toList = ['\x7b', '-', ' ', '"', ' ', '\x7b', '-', '\n', '-', '\x7d', ' ', '-',
      '-', ' ', '-', '\x7d'] := by decide
  have hcomment : IsBlockComment comment.toList := ⟨_, hlist, rfl, rfl⟩
  have hshut : Throughout Shut p.toList := throughout_of_tails (by decide)
  have htokens : (ofSource p).tokens = .ok [⟨.name, "f", ⟨0, 1⟩⟩, ⟨.name, "x", ⟨12, 13⟩⟩,
      ⟨.terminator, "", ⟨14, 14⟩⟩] := by
    have hsize : (ofSource p).size < 40 := by decide
    rw [← tokensWithin_eq_tokens hsize]
    cbv
  have hwithout : (ofSource (p ++ q)).tokens.toOption.map (List.map fun t => (t.kind, t.text)) =
      some [(.name, "f"), (.name, "x"), (.symbol, "+"), (.name, "y"), (.terminator, "\n"),
        (.name, "g")] := by
    have hsize : (ofSource (p ++ q)).size < 40 := by decide
    rw [← tokensWithin_eq_tokens hsize]
    cbv
  have hend : p.toList.getLast? = some ' ' := by cbv
  have hblank : ∀ c ∈ p.toList.getLast?, isBlank c = true := by simp [hend, isBlank, isLineBreak]
  have hlast : ∃ c ∈ lastLine p.toList, isBlank c = false := ⟨'x', by decide, rfl⟩
  have hsame := (events_comment (q := q) hcomment hblank htokens hshut fun _ => hlast).2
  exact ⟨hcomment, hshut, hsame.trans hwithout⟩

end Offside
