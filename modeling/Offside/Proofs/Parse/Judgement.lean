import Offside.Parse.Grammar

namespace Offside

namespace TokenStream

/-- No word comes: a terminator, or nothing. -/
def Wordless (o : Option Token) : Prop := ∀ token ∈ o, token.kind = .terminator

/-- No word comes that an expression goes on with: a closing parenthesis, a terminator, or nothing.
-/
def Concludes (o : Option Token) : Prop :=
  ∀ token ∈ o, token.kind = .terminator ∨ (token.kind, token.text) = (.delimiter, ")")

theorem wordless_none : Wordless none := fun _ h => absurd h (Option.not_mem_none _)

theorem Wordless.concludes {o : Option Token} (h : Wordless o) : Concludes o :=
  fun token ht => .inl (h token ht)

theorem Concludes.kind_ne {token : Token} (h : Concludes (some token)) {kind : TokenKind}
    (hkind : kind = .name ∨ kind = .symbol) : token.kind ≠ kind := by
  have hends : token.kind = .terminator ∨ token.kind = .delimiter :=
    (h token rfl).imp_right fun hclose => (Prod.mk.inj hclose).1
  rcases hends with hk | hk <;> rcases hkind with rfl | rfl <;> rw [hk] <;> nofun

theorem Concludes.is_eq_false {token : Token} (h : Concludes (some token)) {kind : TokenKind}
    (hkind : kind = .name ∨ kind = .symbol) (text : String) : token.is kind text = false := by
  rw [Token.is, decide_eq_false (h.kind_ne hkind), Bool.false_and]

end TokenStream

namespace Parse

open TokenStream

variable {α β : Type}

/-- What came next is left, and the result is `a`. -/
def leave (a : α) : Option Token → Parse α
  | none => pure a
  | some token => do
    push token
    return a

/-- A loop that ends by itself: steps beyond what is left to read change nothing. -/
def SelfEnding (loop : Nat → Parse α) : Prop :=
  ∀ m n s, s.tokens.size < m → s.tokens.size < n → loop m s = loop n s

theorem SelfEnding.bind {loop : Nat → Parse α} (h : SelfEnding loop) (f : α → Parse β) :
    SelfEnding fun n => loop n >>= f := by
  intro m n s hm hn
  show EStateM.bind (loop m) f s = EStateM.bind (loop n) f s
  unfold EStateM.bind
  rw [h m n s hm hn]

section

variable {World : Type} (Took : World → Token → World → Prop)

/-- The given word has been taken. -/
def TookWord (kind : TokenKind) (text : String) (w w' : World) : Prop :=
  ∃ token, token.is kind text = true ∧ Took w token w'

/-- These names have been taken, one after another. -/
inductive TookNames : World → World → List String → Prop
  | nil {w : World} : TookNames w w []
  | cons {w w₁ w₂ : World} {token : Token} {names : List String} (hkind : token.kind = .name)
      (htoken : Took w token w₁) (hrest : TookNames w₁ w₂ names) :
      TookNames w w₂ (token.text :: names)

/-- How two parsers go on where no word comes that an expression goes on with. They leave there what
came, or the first one fails where there is no word at all. -/
inductive Stops (Inside : World → Prop) (R : World → α → α → Prop) (w : World)
    (f g : Option Token → Parse α) : Prop
  | leaving (a b : α) (h : R w a b) (hf : ∀ o, Concludes o → f o = leave a o ∧ g o = leave b o)
  | failing (hw : Inside w) (hf : ∀ o, Wordless o → ∃ cause, f o = fail cause)

/-- How two parsers go on where the same word comes: they take it or leave it. -/
inductive Turns (Holds : World → Parse α → Parse α → (World → α → α → Prop) → Prop)
    (R : World → α → α → Prop) (w : World) (token : Token) (span : Span) :
    Parse α → Parse α → Prop
  | taken {p q : Parse α} (h : ∀ w', Took w token w' → Holds w' p q R) :
      Turns Holds R w token span p q
  | left {a b : α} (h : R w a b) :
      Turns Holds R w token span (leave a (some token)) (leave b (some { token with span }))

/-- How two parsers go on where the same token comes, or none. They leave what came, the first one
fails, or they go on behind the token. -/
inductive Goes (Inside : World → Prop)
    (Holds : World → Parse α → Parse α → (World → α → α → Prop) → Prop)
    (R : World → α → α → Prop) (w : World) (f g : Option Token → Parse α) : Option Token → Prop
  | leaving {o : Option Token} (a b : α) (h : R w a b) (hf : f o = leave a o)
      (hg : g o = leave b o) : Goes Inside Holds R w f g o
  | failing {o : Option Token} {cause : ParseError} (hw : Inside w) (hf : f o = fail cause) :
      Goes Inside Holds R w f g o
  | taking {token : Token}
      (h : ∀ w', Took w token w' → Holds w' (f (some token)) (g (some token)) R) :
      Goes Inside Holds R w f g (some token)

theorem goes_of_stops {Inside : World → Prop}
    {Holds : World → Parse α → Parse α → (World → α → α → Prop) → Prop}
    {R : World → α → α → Prop} {w : World} {f g : Option Token → Parse α}
    (hstop : Stops Inside R w f g)
    (hword : ∀ token span, token.kind ≠ .terminator →
      Turns Took Holds R w token span (f (some token)) (g (some { token with span })))
    (o : Option Token) : Goes Took Inside Holds R w f g o := by
  by_cases hstops : Wordless o
  · cases hstop with
    | leaving a b h hleave =>
      obtain ⟨hf, hg⟩ := hleave o hstops.concludes
      exact .leaving a b h hf hg
    | failing hw hfail =>
      obtain ⟨cause, hf⟩ := hfail o hstops
      exact .failing hw hf
  · cases o with
    | none => exact absurd wordless_none hstops
    | some token =>
      have hkind : token.kind ≠ .terminator := fun h => hstops fun u hu => Option.mem_some.1 hu ▸ h
      have hturn := hword token token.span hkind
      generalize hf : f (some token) = p at hturn
      generalize hg : g (some { token with span := token.span }) = q at hturn
      cases hturn with
      | taken h => exact .taking fun w' htook => hf ▸ hg ▸ h w' htook
      | left h => exact .leaving _ _ h hf hg

/-- What holds of one item after another. -/
inductive Chained (R : World → World → α → α → Prop) : World → World → List α → List α → Prop
  | nil {w : World} : Chained R w w [] []
  | cons {w w₁ w₂ : World} {a b : α} {as bs : List α} (h : R w w₁ a b)
      (hrest : Chained R w₁ w₂ as bs) : Chained R w w₂ (a :: as) (b :: bs)

theorem Chained.forall_mem {World : Type} {R : World → World → α → α → Prop} {w w' : World}
    {as bs : List α} {P : α → Prop} (h : Chained R w w' as bs)
    (hR : ∀ w w' a b, R w w' a b → P a) : ∀ a ∈ as, P a := by
  induction h with
  | nil => exact List.forall_mem_nil P
  | cons h _ ih => exact List.forall_mem_cons.2 ⟨hR _ _ _ _ h, ih⟩

end

/-- A way to speak of two parsers that run side by side, or of one of them. What there is to say is
said at worlds, which tell how far reading has come. -/
structure Judgement where
  World : Type
  /-- Where the parsers begin at `w`, their results are in `R` of the world where they end. -/
  Holds {α : Type} (w : World) (p q : Parse α) (R : World → α → α → Prop) : Prop
  /-- Enough has been read for a parser to fail. -/
  Inside (w : World) : Prop
  Took (w : World) (token : Token) (w' : World) : Prop
  /-- Different numbers of tokens may be left in the two runs. -/
  Skewed : Prop
  inside {w w' : World} {token : Token} : Took w token w' → Inside w'
  pure {α : Type} {w : World} {a b : α} {R : World → α → α → Prop} (h : R w a b) :
    Holds w (Pure.pure a) (Pure.pure b) R
  bind {α β : Type} {w : World} {p q : Parse α} {f g : α → Parse β} {R : World → α → α → Prop}
    {S : World → β → β → Prop} (h : Holds w p q R)
    (hf : ∀ w' a b, (Inside w → Inside w') → R w' a b → Holds w' (f a) (g b) S) :
    Holds w (p >>= f) (q >>= g) S
  fail {α : Type} {w : World} {R : World → α → α → Prop} (hw : Inside w) (cause : ParseError)
    (q : Parse α) : Holds w (Parse.fail cause) q R
  next {α : Type} {w : World} {f g : Option Token → Parse α} {R : World → α → α → Prop}
    (hstop : Stops Inside R w f g)
    (hword : ∀ token span, token.kind ≠ .terminator →
      Turns Took Holds R w token span (f (some token)) (g (some { token with span }))) :
    Holds w (Parse.next >>= f) (Parse.next >>= g) R
  expect {kind : TokenKind} {w : World} (hkind : kind ≠ .terminator) (hw : Inside w)
    (text : String) :
    Holds w (Parse.expect kind text) (Parse.expect kind text) fun w' _ _ =>
      TookWord Took kind text w w'
  steps {α : Type} {w : World} {f g : Nat → Parse α} {R : World → α → α → Prop}
    (h : ∀ n, Holds w (f n) (g n) R) (hends : Skewed → SelfEnding f ∧ SelfEnding g) :
    Holds w (Parse.steps >>= f) (Parse.steps >>= g) R

namespace Judgement

variable (J : Judgement) {w : J.World} {p q : Parse α} {R S : J.World → α → α → Prop}
  {kind : TokenKind}

variable {J} in
theorem Holds.post (h : J.Holds w p q R)
    (hRS : ∀ w' a b, (J.Inside w → J.Inside w') → R w' a b → S w' a b) : J.Holds w p q S := by
  rw [← bind_pure p, ← bind_pure q]
  exact J.bind h fun w' a b hw hab => J.pure (hRS w' a b hw hab)

variable {J} in
theorem Holds.map {f g : α → β} {S : J.World → β → β → Prop} (h : J.Holds w p q R)
    (hRS : ∀ w' a b, (J.Inside w → J.Inside w') → R w' a b → S w' (f a) (g b)) :
    J.Holds w (f <$> p) (g <$> q) S := by
  rw [← bind_pure_comp, ← bind_pure_comp]
  exact J.bind h fun w' a b hw hab => J.pure (hRS w' a b hw hab)

/-- Whether a word has been taken. -/
inductive Accepted (kind : TokenKind) (text : String) (w : J.World) : J.World → Bool → Bool → Prop
  | no : Accepted kind text w w false false
  | yes {w' : J.World} (h : TookWord J.Took kind text w w') : Accepted kind text w w' true true

theorem inside_of_word {text : String} {w' : J.World} (h : TookWord J.Took kind text w w') :
    J.Inside w' := by
  obtain ⟨token, -, htoken⟩ := h
  exact J.inside htoken

/-- The two tests may be decided in two ways. -/
theorem turns_ite {c : Prop} {dec dec' : Decidable c} {token : Token} {span : Span}
    {p' q' : Parse α} (h : c → Turns J.Took J.Holds R w token span p q)
    (h' : ¬ c → Turns J.Took J.Holds R w token span p' q') :
    Turns J.Took J.Holds R w token span (@ite _ c dec p p') (@ite _ c dec' q q') := by
  by_cases hc : c
  · rw [if_pos hc, if_pos hc]
    exact h hc
  · rw [if_neg hc, if_neg hc]
    exact h' hc

theorem accept (hkind : kind = .name ∨ kind = .symbol) (text : String) (w : J.World) :
    J.Holds w (accept kind text) (accept kind text) (J.Accepted kind text w) := by
  refine J.next (.leaving false false .no fun o ho => ?_) fun token span _ => ?_
  · cases o with
    | none => exact ⟨rfl, rfl⟩
    | some token =>
      dsimp only
      rw [if_neg (by simp [ho.is_eq_false hkind text])]
      exact ⟨rfl, rfl⟩
  · exact J.turns_ite (fun htoken => .taken fun w' h => J.pure (.yes ⟨token, htoken, h⟩))
      fun _ => .left .no

theorem comesNext (hkind : kind = .name ∨ kind = .symbol) (text : String) (w : J.World) :
    J.Holds w (comesNext kind text) (comesNext kind text) fun w' b b' => w' = w ∧ b' = b := by
  refine J.next (.leaving false false ⟨rfl, rfl⟩ fun o ho => ?_) fun token span _ => ?_
  · cases o with
    | none => exact ⟨rfl, rfl⟩
    | some token =>
      dsimp only
      rw [ho.is_eq_false hkind text]
      exact ⟨rfl, rfl⟩
  · exact .left ⟨rfl, rfl⟩

/-- The name that has been taken, if there is one. -/
inductive Named (w : J.World) : J.World → Option String → Option String → Prop
  | none : Named w w none none
  | some {w' : J.World} {token : Token} (hkind : token.kind = .name) (h : J.Took w token w') :
      Named w w' (some token.text) (some token.text)

theorem named_first {w w' : J.World} {o o' : Option String} (h : J.Named w w' o o') :
    match o with
      | none => w' = w
      | some x => ∃ token, token.kind = .name ∧ token.text = x ∧ J.Took w token w' := by
  cases h with
  | none => rfl
  | some hkind htook => exact ⟨_, hkind, rfl, htook⟩

theorem name? (w : J.World) : J.Holds w name? name? (J.Named w) := by
  refine J.next (.leaving none none .none fun o ho => ?_) fun token span _ => ?_
  · cases o with
    | none => exact ⟨rfl, rfl⟩
    | some token =>
      dsimp only
      rw [if_neg (ho.kind_ne (.inl rfl))]
      exact ⟨rfl, rfl⟩
  · exact J.turns_ite (fun hkind => .taken fun w' h => J.pure (.some hkind h)) fun _ => .left .none

theorem name (hw : J.Inside w) :
    J.Holds w name name fun w' x y => y = x ∧ TookNames J.Took w w' [x] := by
  refine J.bind (J.name? w) fun w' o o' hin ho => ?_
  cases ho with
  | none => exact J.fail (hin hw) _ _
  | some hkind h => exact J.pure ⟨rfl, .cons hkind h .nil⟩

theorem names (hends : J.Skewed → SelfEnding namesWithin) (w : J.World) :
    J.Holds w names names fun w' xs ys => ys = xs ∧ TookNames J.Took w w' xs := by
  refine J.steps (fun n => ?_) fun h => ⟨hends h, hends h⟩
  induction n generalizing w with
  | zero => exact J.pure ⟨rfl, .nil⟩
  | succ n ih =>
    refine J.bind (J.name? w) fun w₁ o o' _ ho => ?_
    cases ho with
    | none => exact J.pure ⟨rfl, .nil⟩
    | some hkind h =>
      refine J.bind (ih w₁) fun w₂ xs ys _ hxs => J.pure ?_
      obtain ⟨rfl, hxs⟩ := hxs
      exact ⟨rfl, .cons hkind h hxs⟩

end Judgement

end Parse

end Offside
