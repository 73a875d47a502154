import Offside.Proofs.Parse.Verdict

namespace Offside

namespace Parse

variable {α β : Type}

def Facing (ws : List Piece) : Assertion := fun s => s.context = {} ∧ s.tokens.Ahead ws

/-- The parser reads the pieces up to `rest` and gives `a`. -/
def Reads (p : Parse α) (ws : List Piece) (a : α) (rest : List Piece) : Prop :=
  Triple (Facing ws) p (fun b s => b = a ∧ Facing rest s) (fun _ => False)

namespace Reads

variable {p : Parse α} {f : α → Parse β} {a : α} {b : β} {ws mid rest : List Piece}

theorem pure : Reads (Pure.pure a) ws a ws := ReadsIn.pure

theorem bind (hp : Reads p ws a mid) (hf : Reads (f a) mid b rest) :
    Reads (p >>= f) ws b rest := ReadsIn.bind hp hf

theorem map {g : α → β} (hp : Reads p ws a rest) : Reads (g <$> p) ws (g a) rest := ReadsIn.map hp

theorem check {r : Except Error α} (h : r = .ok a) : Reads (Parse.check r) ws a ws :=
  ReadsIn.check h

/-- There are more steps than pieces. -/
theorem ofSteps {f : Nat → Parse β} (h : ∀ n, ws.length < n → Reads (f n) ws b rest) :
    Reads (Parse.steps >>= f) ws b rest := by
  refine Triple.bind (Q := fun n s => Facing ws s ∧ ws.length < n) (fun s hs => ?_)
    fun n s hs => h n hs.2 s hs.1
  exact ⟨hs, Nat.lt_succ_of_le hs.2.length_le⟩

end Reads

variable {ws : List Piece}

theorem accept_skips {kind : TokenKind} {text : String} (h : ws.head? ≠ some (kind, text)) :
    Reads (accept kind text) ws false ws := accept_skipsIn h

theorem comesNext_skips {kind : TokenKind} {text : String} (h : ws.head? ≠ some (kind, text)) :
    Reads (comesNext kind text) ws false ws := by
  cases ws with
  | nil => exact Verdict.ofEnd ReadsIn.pure
  | cons w ws =>
    refine Verdict.ofNext fun t ht => ?_
    have hne : t.is kind text = false := by
      rw [← Bool.not_eq_true]
      exact fun hi => h (by rw [List.head?_cons, ← ht, Token.is_iff.1 hi])
    refine Verdict.handBack t ?_
    rw [hne]
    exact ht ▸ ReadsIn.pure

end Parse

namespace Grammar

open Parse Offside.Expr

variable {below : Option Grammar} {ws mid rest : List Piece} {e left right : Expr}

/-- An expression ends here. -/
def Closed (ws : List Piece) : Prop := ∀ w ∈ ws.head?, w = (.delimiter, ")")

/-- No term begins here, and no member. -/
def Stop (ws : List Piece) : Prop :=
  ∀ w ∈ ws.head?, w = (.delimiter, ")") ∨ ∃ op : Operator, w = (.symbol, op.symbol)

theorem Closed.stop (h : Closed ws) : Stop ws := fun w hw => .inl (h w hw)

theorem Closed.head_ne (h : Closed ws) {kind : TokenKind} (hkind : kind ≠ .delimiter)
    (text : String) : ws.head? ≠ some (kind, text) := by
  intro hw
  cases h _ hw
  exact hkind rfl

theorem Stop.head_ne (h : Stop ws) {text : String} (htext : Operator.ofSymbol? text = none) :
    ws.head? ≠ some (.symbol, text) := by
  intro hw
  obtain hd | ⟨op, hop⟩ := h _ hw
  · cases hd
  · injection hop with _ hop
    have hsome := op.ofSymbol?_symbol_isSome
    rw [← hop, htext] at hsome
    cases hsome

theorem Stop.bare (h : Stop ws) : Bare ws :=
  fun w hw => (h w hw).imp_right fun ⟨_, hop⟩ => hop ▸ rfl

theorem simpleTerm_integer {n : Int64} (h : 0 ≤ n.toInt) :
    Reads (simpleTermAbove below) ((.integer, Decimal.natural n.toInt.natAbs) :: ws)
      (some (.constant (.int n))) ws := by
  have hlt := n.toInt_lt
  have hvalue : Decimal.value (Decimal.natural n.toInt.natAbs).toList = n.toInt.natAbs := by
    rw [Decimal.natural, String.toList_ofList, Decimal.value_digits]
  have hn : Int64.ofNat n.toInt.natAbs = n := by
    rw [← Int64.toInt_inj, Int64.toInt_ofNat_of_lt (by omega)]
    omega
  have hread : ReadsIn {} (simpleTermAbove below)
      ((.integer, Decimal.natural n.toInt.natAbs) :: ws) _ ws :=
    simpleTerm_integerIn (by rw [hvalue]; omega)
  rw [hvalue, hn] at hread
  exact hread

theorem simpleTerm_name {x : String} (htrue : x ≠ "True") (hfalse : x ≠ "False") :
    Reads (simpleTermAbove below) ((.name, x) :: ws) (some (.name x none)) ws :=
  simpleTerm_nameIn htrue hfalse

theorem simpleTerm_group {g : Grammar} (h : Reads g.inner ws e ((.delimiter, ")") :: rest)) :
    Reads (simpleTermAbove (some g)) ((.delimiter, "(") :: ws) (some e) rest :=
  ReadsIn.ofFound (simpleTerm_of_inner h)

theorem term_reads (h : Reads (simpleTermAbove below) ws (some e) rest)
    (hdot : rest.head? ≠ some (.symbol, ".")) : Reads (termAbove below) ws (some e) rest :=
  ReadsIn.ofFound (term_of_simple (.found h) hdot)

theorem sequence_one (h : Reads (termAbove below) ws (some e) rest) (hrest : Stop rest) :
    Reads (sequenceAbove below) ws (some e) rest :=
  ReadsIn.ofFound (sequence_of_term (.found h) hrest.bare)

theorem application_reads {terms : List Expr} (hrest : Stop rest)
    (he : checkedApply terms (chainTy terms.tail) = .ok e) :
    Reads (application terms) rest e rest :=
  (comesNext_skips (hrest.head_ne rfl)).bind (.check he)

theorem sequence_apply {callee argument : Expr} (hne : ws ≠ [])
    (hcallee : Reads (termAbove below) ws (some callee) mid)
    (hargument : Reads (termAbove below) mid (some argument) rest) (hrest : Stop rest)
    (he : checkedApply [callee, argument] argument.ty = .ok e) :
    Reads (sequenceAbove below) ws (some e) rest := by
  refine .ofSteps fun n hn => ?_
  have hlength := List.length_pos_iff.2 hne
  obtain ⟨m, rfl⟩ : ∃ m, n = m + 2 := ⟨n - 2, by omega⟩
  have hterms : Reads (termsAbove below (m + 2)) ws [callee, argument] rest :=
    hcallee.bind (Reads.bind (hargument.bind (Reads.bind (terms_noneIn hrest.bare m) .pure)) .pure)
  exact hterms.bind (.map (application_reads hrest he))

/-- No operator of the tier comes next. -/
theorem fold_stop {tier : Tier}
    (h : ∀ op : Operator, ws.head? = some (.symbol, op.symbol) → op.tier ≠ tier) :
    Reads (foldAbove below tier left) ws left ws := fold_stopIn h

theorem fold_closed {tier : Tier} (h : Closed ws) : Reads (foldAbove below tier left) ws left ws :=
  fold_stop fun _ hw => nomatch h _ hw

/-- An operator takes its right operand, and what follows is read on from there. -/
theorem fold_operation {g : Grammar} {op : Operator} {e' : Expr} (hop : op ≠ .arithmetic .equal)
    (hright : Reads (g.operand op.tier) ws (some right) mid)
    (he : checkedOperation op left right = .ok e)
    (hfold : Reads (g.fold op.tier e) mid e' rest) :
    Reads (foldAbove (some g) op.tier left) ((.symbol, op.symbol) :: ws) e' rest := by
  exact fold_of_operand hop rfl (hright.bind ((Reads.check he).bind hfold))

theorem product_of_sequence (h : Reads (sequenceAbove below) ws (some e) rest)
    (hrest : Closed rest) : Reads (productAbove below) ws (some e) rest :=
  h.bind (.map (fold_closed hrest))

theorem sum_of_sequence (h : Reads (sequenceAbove below) ws (some e) rest)
    (hrest : Closed rest) : Reads (sumAbove below) ws (some e) rest :=
  (product_of_sequence h hrest).bind (.map (fold_closed hrest))

theorem ofRoom_operand {room : Nat} {tier : Tier}
    (h : Reads (sequenceAbove (beneath room)) ws (some e) rest) (hrest : Closed rest) :
    Reads ((ofRoom room).operand tier) ws (some e) rest := by
  rw [ofRoom_eq_above]
  cases tier with
  | sum => exact product_of_sequence h hrest
  | product => exact h

theorem sum_operation {room : Nat} {op : Operator} (hop : op ≠ .arithmetic .equal)
    (hleft : Reads (sequenceAbove (beneath (room + 1))) ws (some left)
      ((.symbol, op.symbol) :: mid))
    (hright : Reads (sequenceAbove (beneath room)) mid (some right) rest) (hrest : Closed rest)
    (he : checkedOperation op left right = .ok e) :
    Reads (sumAbove (beneath (room + 1))) ws (some e) rest := by
  have hmore : Reads ((ofRoom room).fold op.tier e) rest e rest := by
    rw [ofRoom_eq_above]
    exact fold_closed hrest
  have hfold := fold_operation (g := ofRoom room) hop (ofRoom_operand hright hrest) he hmore
  cases htier : op.tier with
  | product =>
    rw [htier] at hfold
    exact Reads.bind (hleft.bind (.map hfold)) (.map (fold_closed hrest))
  | sum =>
    rw [htier] at hfold
    have hproduct : Reads (foldAbove (beneath (room + 1)) .product left)
        ((.symbol, op.symbol) :: mid) left ((.symbol, op.symbol) :: mid) := by
      refine fold_stop fun op' hop' => ?_
      injection hop' with hop'
      injection hop' with _ hsymbol
      rw [Operator.tier_eq, ← hsymbol, ← Operator.tier_eq, htier]
      exact fun h => nomatch h
    exact Reads.bind (hleft.bind (.map hproduct)) (.map hfold)

theorem statement_reads {room : Nat} (htype : ws.head? ≠ some (.name, "type"))
    (hlambda : ws.head? ≠ some (.symbol, "\\"))
    (h : Reads (sumAbove (beneath room)) ws (some e) rest) (hrest : Closed rest) :
    Reads (ofRoom room).statement ws (some (.expression e)) rest := by
  rw [ofRoom_eq_above]
  have hsymbol : TokenKind.symbol ≠ .delimiter := nofun
  have hcolon := hrest.head_ne hsymbol ":"
  have hequals := hrest.head_ne hsymbol "="
  refine (accept_skips htype).bind ((accept_skips hlambda).bind (h.bind ?_))
  exact (accept_skips hcolon).bind ((accept_skips hequals).bind .pure)

theorem inner_reads {room : Nat}
    (h : Reads (ofRoom room).statement ws (some (.expression e)) rest) :
    Reads (ofRoom room).inner ws e rest := by
  rw [ofRoom_eq_above] at h ⊢
  exact h.bind .pure

end Grammar

namespace Parse

variable {source : String} {ws : List Piece} {e : Expr}

/-- A source of one expression. -/
theorem parse_of_reads (hs : Facing ws (.ofSource source))
    (hskip : Lexeme.skipBlanks true source.toList = source.toList)
    (h : Reads (Grammar.ofRoom Grammar.maxNesting).statement ws (some (.expression e)) []) :
    Program.parse source = .ok [e] := by
  have hread : Verdict (FacingIn {} ws) (Grammar.ofRoom Grammar.maxNesting).statement
      (Found (fun a => ∃ e', a = .expression e' ∧ e' = e) (FacingIn {} [])) fun _ => False :=
    (Verdict.found h).post fun o s hs => ⟨hs.1.imp fun a ha => ⟨ha.1, e, ha.2, rfl⟩, hs.2⟩
  obtain ⟨_, rfl, hparse⟩ | ⟨_, hfalse, -⟩ := parse_of_verdict hs hskip hread
  · exact hparse
  · exact hfalse.elim

theorem first_of_reads (hs : Facing ws (.ofSource source))
    (hskip : Lexeme.skipBlanks true source.toList = source.toList)
    (h : Reads (Grammar.ofRoom Grammar.maxNesting).statement ws (some (.expression e)) []) :
    Parse.run first source = .ok (some e) := by
  obtain ⟨_, t, rfl, hread, -, -⟩ | ⟨_, _, hfalse, -⟩ :=
    statement_of_verdict (E := fun _ => False) hs hskip (Verdict.found h)
  · have hfirst : first (.ofSource source) = .ok (some e) t := by
      show firstWithin ((ParseState.ofSource source).tokens.size + 1) _ = _
      exact bind_of_ok hread
    exact run_of_ok hfirst
  · exact hfalse.elim

end Parse

end Offside
