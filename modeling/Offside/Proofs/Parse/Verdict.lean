import Offside.Proofs.Parse.Statements

namespace Offside

/-- More levels are opened at once than there may be: `expression nested too deeply`. -/
def tooDeep : Error := .parse .nestedTooDeeply

namespace Parse

variable {α β : Type}

/-- From a state with `P`, the parser ends with a result and a state in `Q` or fails with an error
in `E`. -/
def Verdict (P : Assertion) (p : Parse α) (Q : α → Assertion) (E : Error → Prop) : Prop :=
  ∀ s, P s → match p s with
    | .ok a t => Q a t
    | .error e _ => E e

/-- The names have the types of `c`, and the pieces are ahead. -/
def FacingIn (c : Context) (ws : List Piece) : Assertion := fun s =>
  s.context = c ∧ s.tokens.Ahead ws

/-- Something with `G` has been found, and the state is in `S`. -/
abbrev Found (G : α → Prop) (S : Assertion) (o : Option α) : Assertion := fun s =>
  (∃ a, o = some a ∧ G a) ∧ S s

/-- In the context the parser reads the pieces up to `rest` and gives `a`. -/
def ReadsIn (c : Context) (p : Parse α) (ws : List Piece) (a : α) (rest : List Piece) : Prop :=
  Verdict (FacingIn c ws) p (fun b s => b = a ∧ FacingIn c rest s) fun _ => False

namespace Verdict

variable {P P' : Assertion} {Q Q' : α → Assertion} {R : β → Assertion} {E E' : Error → Prop}
  {p : Parse α} {f : α → Parse β}

theorem consequence (h : Verdict P p Q E) (hP : ∀ s, P' s → P s) (hQ : ∀ a s, Q a s → Q' a s)
    (hE : ∀ e, E e → E' e) : Verdict P' p Q' E' := by
  intro s hs
  have hh := h s (hP s hs)
  cases hp : p s with
  | ok a t =>
    rw [hp] at hh
    exact hQ a t hh
  | error e t =>
    rw [hp] at hh
    exact hE e hh

theorem post (h : Verdict P p Q E) (hQ : ∀ a s, Q a s → Q' a s) : Verdict P p Q' E :=
  h.consequence (fun _ => id) hQ fun _ => id

theorem pure {a : α} (h : ∀ s, P s → Q a s) : Verdict P (Pure.pure a) Q E := h

theorem throw {e : Error} (h : E e) : Verdict P (MonadExcept.throw e : Parse α) Q E := fun _ _ => h

theorem fail {cause : ParseError} (h : E (.parse cause)) :
    Verdict P (Parse.fail cause : Parse α) Q E := throw h

theorem bind (hp : Verdict P p Q E) (hf : ∀ a, Verdict (Q a) (f a) R E) :
    Verdict P (p >>= f) R E := by
  intro s hs
  have hh := hp s hs
  show match EStateM.bind p f s with
    | .ok b t => R b t
    | .error e _ => E e
  unfold EStateM.bind
  cases h : p s with
  | ok a t =>
    rw [h] at hh
    exact hf a t hh
  | error e t =>
    rw [h] at hh
    exact hh

theorem map {g : α → β} (hp : Verdict P p (fun a => R (g a)) E) : Verdict P (g <$> p) R E := by
  rw [← bind_pure_comp]
  exact hp.bind fun a => pure fun _ => id

/-- A parser that finds something. -/
theorem option {G : α → Prop} {S : Assertion} {p : Parse (Option α)} {f : Option α → Parse β}
    (hp : Verdict P p (Found G S) E) (hf : ∀ a, G a → Verdict S (f (some a)) R E) :
    Verdict P (p >>= f) R E := by
  refine hp.bind fun o s hs => ?_
  obtain ⟨⟨a, rfl, ha⟩, hs⟩ := hs
  exact hf a ha s hs

/-- A parser that does not fail gives a result. -/
theorem total (h : Verdict P p Q fun _ => False) {s : ParseState} (hs : P s) :
    ∃ a t, p s = .ok a t ∧ Q a t := by
  have hh := h s hs
  cases hp : p s with
  | ok a t =>
    rw [hp] at hh
    exact ⟨a, t, rfl, hh⟩
  | error e t =>
    rw [hp] at hh
    exact hh.elim

variable {c : Context} {w : Piece} {ws mid : List Piece} {a : α}

theorem ofReads (hp : ReadsIn c p ws a mid) (h : ∀ s, FacingIn c mid s → Q a s) :
    Verdict (FacingIn c ws) p Q E :=
  hp.consequence (fun _ => id) (fun _ s hs => hs.1 ▸ h s hs.2) fun _ => False.elim

theorem found {p : Parse (Option α)} (hp : ReadsIn c p ws (some a) mid) :
    Verdict (FacingIn c ws) p (Found (· = a) (FacingIn c mid)) E :=
  ofReads hp fun _ hs => ⟨⟨a, rfl, rfl⟩, hs⟩

/-- What has been read by one parser is behind the next one. -/
theorem after (hp : ReadsIn c p ws a mid) (hf : Verdict (FacingIn c mid) (f a) R E) :
    Verdict (FacingIn c ws) (p >>= f) R E :=
  (ofReads (Q := fun b s => b = a ∧ FacingIn c mid s) hp fun _ hs => ⟨rfl, hs⟩).bind
    fun _ s hs => hs.1 ▸ hf s hs.2

theorem ofNext {f : Option Token → Parse β} (h : ∀ t : Token, (t.kind, t.text) = w →
    Verdict (FacingIn c ws) (f (some t)) R E) :
    Verdict (FacingIn c (w :: ws)) (Parse.next >>= f) R E := by
  refine Verdict.bind (Q := fun o s => ∃ t : Token, o = some t ∧ (t.kind, t.text) = w ∧
    FacingIn c ws s) (fun s hs => ?_) fun o s hs => ?_
  · obtain ⟨token, t, ht, hw, hws⟩ := hs.2
    unfold Parse.next
    rw [ht]
    exact ⟨token, rfl, hw, hs.1, hws⟩
  · obtain ⟨t, rfl, hw, hs⟩ := hs
    exact h t hw s hs

theorem ofEnd {f : Option Token → Parse β} (h : Verdict (FacingIn c []) (f none) R E) :
    Verdict (FacingIn c []) (Parse.next >>= f) R E := by
  refine Verdict.bind (Q := fun o s => o = none ∧ FacingIn c [] s) (fun s hs => ?_)
    fun o s hs => ?_
  · obtain ⟨t, ht⟩ := hs.2
    unfold Parse.next
    rw [ht]
    exact ⟨rfl, hs.1, (TokenStream.atEnd_iff_size.2 (TokenStream.next_none ht)).ahead⟩
  · obtain ⟨rfl, hs⟩ := hs
    exact h s hs

theorem handBack {q : Parse β} (t : Token)
    (h : Verdict (FacingIn c ((t.kind, t.text) :: ws)) q R E) :
    Verdict (FacingIn c ws) (do Parse.push t; q) R E :=
  Verdict.bind (Q := fun _ => FacingIn c ((t.kind, t.text) :: ws))
    (fun _ hs => ⟨hs.1, hs.2.push t⟩) fun _ => h

/-- There is always a step left. -/
theorem ofSteps {f : Nat → Parse β} (h : ∀ n, Verdict P (f (n + 1)) R E) :
    Verdict P (Parse.steps >>= f) R E := fun s hs => h _ s hs

end Verdict

namespace ReadsIn

variable {c : Context} {p : Parse α} {f : α → Parse β} {a : α} {b : β} {ws mid rest : List Piece}

theorem pure : ReadsIn c (Pure.pure a) ws a ws := Verdict.pure fun _ hs => ⟨rfl, hs⟩

theorem bind (hp : ReadsIn c p ws a mid) (hf : ReadsIn c (f a) mid b rest) :
    ReadsIn c (p >>= f) ws b rest := Verdict.after hp hf

theorem map {g : α → β} (hp : ReadsIn c p ws a rest) : ReadsIn c (g <$> p) ws (g a) rest :=
  Verdict.map (Verdict.post hp fun _ _ hs => ⟨congrArg g hs.1, hs.2⟩)

theorem ofFound {p : Parse (Option α)}
    (h : Verdict (FacingIn c ws) p (Found (· = a) (FacingIn c rest)) fun _ => False) :
    ReadsIn c p ws (some a) rest := by
  refine h.post fun o s hs => ?_
  obtain ⟨⟨b, rfl, rfl⟩, hs⟩ := hs
  exact ⟨rfl, hs⟩

theorem check {r : Except Error α} (h : r = .ok a) : ReadsIn c (Parse.check r) ws a ws := by
  rw [h]
  exact pure

theorem valueTy? (x : String) : ReadsIn c (Parse.valueTy? x) ws (c.value? x) ws := by
  intro s hs
  exact ⟨congrArg (·.value? x) hs.1, hs⟩

end ReadsIn

variable {c : Context} {ws : List Piece}

theorem accept_readsIn (kind : TokenKind) (text : String) :
    ReadsIn c (accept kind text) ((kind, text) :: ws) true ws := by
  refine Verdict.ofNext fun t ht => ?_
  dsimp only
  rw [if_pos (Token.is_iff.2 ht)]
  exact ReadsIn.pure

theorem accept_skipsIn {kind : TokenKind} {text : String} (h : ws.head? ≠ some (kind, text)) :
    ReadsIn c (accept kind text) ws false ws := by
  cases ws with
  | nil => exact Verdict.ofEnd ReadsIn.pure
  | cons w ws =>
    refine Verdict.ofNext fun t ht => ?_
    have hne : ¬ t.is kind text = true := fun hi =>
      h (by rw [List.head?_cons, ← ht, Token.is_iff.1 hi])
    dsimp only
    rw [if_neg hne]
    exact Verdict.handBack t (ht ▸ ReadsIn.pure)

theorem expect_readsIn (kind : TokenKind) (text : String) :
    ReadsIn c (expect kind text) ((kind, text) :: ws) () ws :=
  (accept_readsIn kind text).bind .pure

end Parse

namespace Grammar

open Parse Offside.Expr

variable {below : Option Grammar} {c : Context} {ws rest : List Piece} {e : Expr}
  {P : Assertion} {G : Expr → Prop} {E : Error → Prop}

theorem word_readsIn {x : String} (htrue : x ≠ "True") (hfalse : x ≠ "False") :
    ReadsIn c (word x) ws (.name x (c.value? x)) ws := by
  unfold word
  rw [if_neg htrue, if_neg hfalse]
  exact (ReadsIn.valueTy? x).bind .pure

theorem simpleTerm_nameIn {x : String} (htrue : x ≠ "True") (hfalse : x ≠ "False") :
    ReadsIn c (simpleTermAbove below) ((.name, x) :: ws) (some (.name x (c.value? x))) ws := by
  refine Verdict.ofNext fun t ht => ?_
  injection ht with hkind htext
  dsimp only
  rw [hkind, htext]
  exact ReadsIn.map (word_readsIn htrue hfalse)

theorem integer_readsIn {digits : String} (h : Decimal.value digits.toList < 0x8000000000000000) :
    ReadsIn c (integer digits) ws
      (.constant (.int (Int64.ofNat (Decimal.value digits.toList)))) ws := by
  unfold integer
  dsimp only
  rw [if_pos h]
  exact .pure

theorem simpleTerm_integerIn {digits : String}
    (h : Decimal.value digits.toList < 0x8000000000000000) :
    ReadsIn c (simpleTermAbove below) ((.integer, digits) :: ws)
      (some (.constant (.int (Int64.ofNat (Decimal.value digits.toList))))) ws := by
  refine Verdict.ofNext fun t ht => ?_
  injection ht with hkind htext
  dsimp only
  rw [hkind, htext]
  exact ReadsIn.map (integer_readsIn h)

theorem simpleTerm_floatIn (digits : String) :
    ReadsIn c (simpleTermAbove below) ((.float, digits) :: ws)
      (some (.constant (.float (Decimal.readFloat digits.toList)))) ws := by
  refine Verdict.ofNext fun t ht => ?_
  injection ht with hkind htext
  dsimp only
  rw [hkind, htext]
  exact ReadsIn.pure

/-- What stands in parentheses is read one level down. -/
theorem simpleTerm_of_inner {g : Grammar} {d : Context} (h : Verdict (FacingIn c ws) g.inner
      (fun a s => G a ∧ FacingIn d ((.delimiter, ")") :: rest) s) E) :
    Verdict (FacingIn c ((.delimiter, "(") :: ws)) (simpleTermAbove (some g))
      (Found G (FacingIn d rest)) E := by
  refine Verdict.ofNext fun token ht => ?_
  dsimp only
  rw [(Prod.mk.inj ht).1, if_pos (Token.is_iff.2 ht)]
  refine Verdict.bind h fun a s hs => ?_
  have hclose : Verdict (FacingIn d ((.delimiter, ")") :: rest))
      (do expect .delimiter ")"; return some a) (Found G (FacingIn d rest)) E :=
    Verdict.after (expect_readsIn _ _) (Verdict.pure fun s ht => ⟨⟨a, rfl, hs.1⟩, ht⟩)
  exact hclose s hs.2

/-- No term begins here. -/
def Bare (ws : List Piece) : Prop := ∀ w ∈ ws.head?, w = (.delimiter, ")") ∨ w.1 = .symbol

theorem bare_nil : Bare [] := fun _ hw => nomatch hw

theorem simpleTerm_noneIn (h : Bare ws) : ReadsIn c (simpleTermAbove below) ws none ws := by
  cases ws with
  | nil => exact Verdict.ofEnd ReadsIn.pure
  | cons w ws =>
    refine Verdict.ofNext fun t ht => ?_
    have hback : Verdict (FacingIn c ws) (do push t; return none : Parse (Option Expr))
        (fun b s => b = none ∧ FacingIn c (w :: ws) s) (fun _ => False) :=
      Verdict.handBack t (ht ▸ ReadsIn.pure)
    have hopen : ¬ t.is .delimiter "(" = true := by
      rcases h w rfl with rfl | hkind
      · simp [Token.is, (Prod.mk.inj ht).2]
      · have htoken : t.kind = .symbol := (congrArg Prod.fst ht).trans hkind
        simp [Token.is, htoken]
    have hkind : t.kind = .delimiter ∨ t.kind = .symbol :=
      (h w rfl).imp (fun hw => (congrArg Prod.fst (ht.trans hw))) fun hw =>
        (congrArg Prod.fst ht).trans hw
    dsimp only
    rcases hkind with hkind | hkind <;> rw [hkind, if_neg hopen] <;> exact hback

/-- A simple term with no point behind it is a term. -/
theorem term_of_simple (h : Verdict P (simpleTermAbove below) (Found G (FacingIn c rest)) E)
    (hdot : rest.head? ≠ some (.symbol, ".")) :
    Verdict P (termAbove below) (Found G (FacingIn c rest)) E :=
  h.option fun e he => Verdict.map (Verdict.after (accept_skipsIn hdot)
    (Verdict.pure fun _ hs => ⟨⟨e, rfl, he⟩, hs⟩))

theorem terms_noneIn (h : Bare ws) (n : Nat) : ReadsIn c (termsAbove below n) ws [] ws := by
  cases n with
  | zero => exact ReadsIn.pure
  | succ n =>
    have hterm : ReadsIn c (termAbove below) ws none ws := (simpleTerm_noneIn h).bind .pure
    exact hterm.bind .pure

/-- A term behind which no other begins is a sequence. -/
theorem sequence_of_term (h : Verdict P (termAbove below) (Found G (FacingIn c rest)) E)
    (hrest : Bare rest) : Verdict P (sequenceAbove below) (Found G (FacingIn c rest)) E := by
  refine Verdict.ofSteps fun n => ?_
  have hterms : Verdict P (termsAbove below (n + 1))
      (fun es s => ∃ e, es = [e] ∧ G e ∧ FacingIn c rest s) E :=
    h.option fun e he => Verdict.after (terms_noneIn hrest n)
      (Verdict.pure fun s hs => ⟨e, rfl, he, hs⟩)
  refine hterms.bind fun es s hs => ?_
  obtain ⟨e, rfl, he, hs⟩ := hs
  exact ⟨⟨e, rfl, he⟩, hs⟩

/-- No operator of the tier comes next. -/
theorem fold_stopIn {tier : Tier} (h : ∀ op : Operator, ws.head? = some (.symbol, op.symbol) →
    op.tier ≠ tier) : ReadsIn c (foldAbove below tier e) ws e ws := by
  cases ws with
  | nil => exact Verdict.ofEnd ReadsIn.pure
  | cons w ws =>
    refine Verdict.ofNext fun t ht => ?_
    have hnone : operatorOf? tier t = none := by
      cases hop : operatorOf? tier t with
      | none => rfl
      | some op =>
        obtain ⟨hkind, htext, htier, -⟩ := operatorOf?_spec hop
        exact absurd htier (h op (by rw [List.head?_cons, ← ht, hkind, htext]))
    dsimp only
    rw [hnone]
    exact Verdict.handBack t (ht ▸ ReadsIn.pure)

/-- An operator of the tier takes its right operand one level down. -/
theorem fold_of_operand {tier : Tier} {op : Operator} {R : Expr → Assertion}
    (hop : op ≠ .arithmetic .equal) (htier : op.tier = tier)
    (h : Verdict (FacingIn c ws) (nested below fun g => do
      match ← g.operand tier with
      | none => fail (.missingOperand op)
      | some right => g.fold tier (← check (checkedOperation op e right))) R E) :
    Verdict (FacingIn c ((.symbol, op.symbol) :: ws)) (foldAbove below tier e) R E := by
  refine Verdict.ofNext fun t ht => ?_
  injection ht with hkind htext
  have hoperator : operatorOf? tier t = some op := by
    unfold operatorOf?
    rw [if_pos hkind, htext, Operator.ofSymbol?_symbol op hop]
    simp [htier]
  dsimp only
  rw [hoperator]
  exact h

/-- A term with no other and no operator behind it is a sum. -/
theorem sum_of_term (h : Verdict P (termAbove below) (Found G (FacingIn c rest)) E)
    (hrest : Bare rest) (hop : ∀ op : Operator, rest.head? ≠ some (.symbol, op.symbol)) :
    Verdict P (sumAbove below) (Found G (FacingIn c rest)) E := by
  have hfold (tier : Tier) (e : Expr) (he : G e) : Verdict (FacingIn c rest)
      (some <$> foldAbove below tier e) (Found G (FacingIn c rest)) E :=
    Verdict.map (Verdict.ofReads (fold_stopIn fun op heq => absurd heq (hop op)) fun s hs =>
      ⟨⟨e, rfl, he⟩, hs⟩)
  have hproduct : Verdict P (productAbove below) (Found G (FacingIn c rest)) E :=
    (sequence_of_term h hrest).option fun e he => hfold .product e he
  exact hproduct.option fun e he => hfold .sum e he

/-- A sum behind which nothing is left is a statement. -/
theorem statement_of_sum {d : Context} {room : Nat} (htype : ws.head? ≠ some (.name, "type"))
    (hlambda : ws.head? ≠ some (.symbol, "\\"))
    (h : Verdict (FacingIn c ws) (sumAbove (beneath room)) (Found G (FacingIn d [])) E) :
    Verdict (FacingIn c ws) (ofRoom room).statement
      (Found (fun a => ∃ e, a = .expression e ∧ G e) (FacingIn d [])) E := by
  rw [ofRoom_eq_above]
  refine Verdict.after (accept_skipsIn htype) (Verdict.after (accept_skipsIn hlambda)
    (h.option fun e he => ?_))
  refine Verdict.after (accept_skipsIn nofun) (Verdict.after (accept_skipsIn nofun) ?_)
  exact Verdict.pure fun s hs => ⟨⟨_, rfl, e, rfl, he⟩, hs⟩

end Grammar

/-- No blank stands before a name. -/
theorem Lexeme.skipBlanks_name {x : String} (hx : IsName x) (lines : Bool) (rest : List Char) :
    skipBlanks lines (x.toList ++ rest) = x.toList ++ rest := by
  obtain ⟨c, ds, hc, -, hchars⟩ := isName_iff.1 hx
  obtain ⟨hvisible, hdash, hbrace⟩ := visible_of_isNameChar (hchars c (hc ▸ List.mem_cons_self))
  rw [hc]
  exact skipBlanks_of_toNat hvisible (fun h => absurd h hdash) hbrace

namespace Parse

open TokenStream

variable {c : Context} {ws : List Piece} {E : Error → Prop} {source : String}

theorem statement_error {s t : ParseState} {e : Error} (h : lineStatement s = .error e t) :
    statement s = .error e t := by
  show statementWithin (s.tokens.size + 1) s = _
  rw [statementWithin_succ, bind_of_error h]

theorem parse_error {t : ParseState} {e : Error} (h : statement (.ofSource source c) = .error e t) :
    Program.parse source c = .error e := by
  have hrun : expressions (.ofSource source c) = .error e t := by
    show expressionsWithin ((ParseState.ofSource source c).tokens.size + 1) _ = _
    exact bind_of_error h
  exact run_of_error hrun

/-- A source that is one statement, with no blanks before it, is read as its words are, or refused
as they are. -/
theorem statement_of_verdict {Q : Statement → Prop} {d : Context}
    (hwords : FacingIn c ws (.ofSource source c))
    (hskip : Lexeme.skipBlanks true source.toList = source.toList)
    (h : Verdict (FacingIn c ws) (Grammar.ofRoom Grammar.maxNesting).statement
      (Found Q (FacingIn d [])) E) :
    (∃ a s, Q a ∧ statement (.ofSource source c) = .ok (some a) s ∧ s.context = d ∧
      s.tokens.Blank) ∨ ∃ e s, E e ∧ statement (.ofSource source c) = .error e s := by
  have hline : lineStatement (.ofSource source c) =
      (Grammar.ofRoom Grammar.maxNesting).statement (.ofSource source c) := by
    rw [lineStatement_eq]
    simp [TokenStream.skipLines, ParseState.ofSource, TokenStream.ofSource, hskip]
  have hread := h _ hwords
  cases hs : (Grammar.ofRoom Grammar.maxNesting).statement (.ofSource source c) with
  | error e t =>
    rw [hs] at hread
    exact .inr ⟨e, t, hread, statement_error (hline.trans hs)⟩
  | ok o t =>
    rw [hs] at hread
    obtain ⟨⟨a, rfl, ha⟩, hcontext, u, hu⟩ := hread
    have hend : terminator t = .ok () { t with tokens := u } := bind_of_ok (next_of_tokens hu)
    have hnil := atEnd_iff_size.2 (next_none hu)
    exact .inl ⟨a, _, ha, statement_some.2 ⟨t, hline.trans hs, hend⟩, hcontext,
      blank_of_nil hnil.1 hnil.2.2⟩

theorem parse_of_verdict {G : Expr → Prop} (hwords : FacingIn c ws (.ofSource source c))
    (hskip : Lexeme.skipBlanks true source.toList = source.toList)
    (h : Verdict (FacingIn c ws) (Grammar.ofRoom Grammar.maxNesting).statement
      (Found (fun a => ∃ e, a = .expression e ∧ G e) (FacingIn c [])) E) :
    (∃ e, G e ∧ Program.parse source c = .ok [e]) ∨
      ∃ e, E e ∧ Program.parse source c = .error e := by
  obtain ⟨a, s, ⟨e, rfl, he⟩, hs, -, hblank⟩ | ⟨e, s, he, hs⟩ := statement_of_verdict hwords hskip h
  · exact .inl ⟨e, he, parse_iff_row.2 ⟨_, .expression hs .nil, hblank⟩⟩
  · exact .inr ⟨e, he, parse_error hs⟩

end Parse

end Offside
