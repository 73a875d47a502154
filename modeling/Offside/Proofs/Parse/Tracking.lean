import Offside.Program
import Offside.Proofs.Expr.Nodes
import Offside.Proofs.Parse.Productions
import Offside.Proofs.Parse.Triple

namespace Offside

namespace Parse

variable {α β : Type}

/-- An assertion on states that is kept up with along a run. -/
structure Tracking where
  World : Type
  /-- What is fixed during a run. -/
  Index : Type
  At (i : Index) (w : World) : Assertion
  /-- What holds after a failure of a parser that began at `w`. -/
  Fails (i : Index) (w : World) : Assertion
  Later (w w' : World) : Prop
  Inside (w : World) : Prop
  Took (w : World) (token : Token) (w' : World) : Prop
  refl (w : World) : Later w w
  trans {w w₁ w₂ : World} (h : Later w w₁) (h' : Later w₁ w₂) : Later w w₂
  later {w w' : World} {token : Token} (h : Took w token w') : Later w w'
  inside {w w' : World} {token : Token} (h : Took w token w') : Inside w'
  inside_mono {w w' : World} (h : Later w w') (hw : Inside w) : Inside w'
  fails_mono {i : Index} {w w' : World} {s : ParseState} (h : Later w w') (hs : Fails i w' s) :
    Fails i w s
  fails {i : Index} {w : World} {s : ParseState} (hw : Inside w) (hs : At i w s) : Fails i w s
  /-- A token that comes is taken or handed back. -/
  next {i : Index} {w : World} {s : ParseState} (hs : At i w s) : match s.tokens.next with
    | .ok none tokens => At i w { s with tokens }
    | .ok (some token) tokens =>
      At i w { s with tokens := tokens.push token } ∧
        ∃ w', Took w token w' ∧ At i w' { s with tokens }
    | .error _ tokens => Fails i w { s with tokens }
  skipLines {i : Index} {w : World} {s : ParseState} (hs : At i w s) :
    At i w { s with tokens := s.tokens.skipLines }

namespace Tracking

variable (T : Tracking) {w : T.World} {p : Parse α} {R S : T.World → α → Prop}

/-- From states at `w` the parser comes to a world where its result is in `R`. -/
def Holds (w : T.World) (p : Parse α) (R : T.World → α → Prop) : Prop :=
  ∀ i, Triple (T.At i w) p (fun a s => ∃ w', T.Later w w' ∧ T.At i w' s ∧ R w' a) (T.Fails i w)

variable {T}

theorem Holds.pure {a : α} (h : R w a) : T.Holds w (Pure.pure a) R :=
  fun _ _ hs => ⟨w, T.refl w, hs, h⟩

theorem Holds.throw (hw : T.Inside w) (e : Error) :
    T.Holds w (MonadExcept.throw e : Parse α) R :=
  fun _ _ hs => T.fails hw hs

theorem Holds.bind {f : α → Parse β} {S : T.World → β → Prop} (h : T.Holds w p R)
    (hf : ∀ w' a, T.Later w w' → R w' a → T.Holds w' (f a) S) : T.Holds w (p >>= f) S := by
  intro i
  refine (h i).bind fun a s hs => ?_
  obtain ⟨w₁, hw₁, hs, ha⟩ := hs
  have hrest := (hf w₁ a hw₁ ha i).consequence (fun _ => id)
    (fun b t ⟨w₂, hw₂, ht, hb⟩ => (⟨w₂, T.trans hw₁ hw₂, ht, hb⟩ :
      ∃ w', T.Later w w' ∧ T.At i w' t ∧ S w' b)) fun _ => T.fails_mono hw₁
  exact hrest s hs

theorem Holds.post (h : T.Holds w p R) (hRS : ∀ w' a, T.Later w w' → R w' a → S w' a) :
    T.Holds w p S :=
  fun i => (h i).post fun a _ ⟨w', hw', hs, ha⟩ => ⟨w', hw', hs, hRS w' a hw' ha⟩

theorem Holds.check {r : Except Error α} (hw : T.Inside w) (h : ∀ a, r = .ok a → R w a) :
    T.Holds w (Parse.check r) R := by
  cases r with
  | ok a => exact .pure (h a rfl)
  | error e => exact .throw hw e

theorem Holds.steps {f : Nat → Parse α} (h : ∀ n, T.Holds w (f n) R) :
    T.Holds w (Parse.steps >>= f) R :=
  fun i s hs => h _ i s hs

/-- What comes next is left or taken, or the parser fails. -/
inductive Turn (T : Tracking) (w : T.World) (R : T.World → α → Prop) (f : Option Token → Parse α) :
    Option Token → Prop
  | left {o : Option Token} {a : α} (h : R w a) (hf : f o = leave a o) : Turn T w R f o
  | failing {o : Option Token} {cause : ParseError} (hw : T.Inside w) (hf : f o = fail cause) :
      Turn T w R f o
  | taken {token : Token} (h : ∀ w', T.Took w token w' → T.Holds w' (f (some token)) R) :
      Turn T w R f (some token)

theorem Holds.next {f : Option Token → Parse α} (h : ∀ o, T.Turn w R f o) :
    T.Holds w (Parse.next >>= f) R := by
  intro i s hs
  have hnext := T.next hs
  rw [show (Parse.next >>= f) s = EStateM.bind Parse.next f s from rfl]
  unfold EStateM.bind Parse.next
  cases hn : s.tokens.next with
  | error e tokens =>
    rw [hn] at hnext
    exact hnext
  | ok o tokens =>
    rw [hn] at hnext
    have hback : T.At i w { s with tokens := o.elim tokens tokens.push } := by
      cases o with
      | none => exact hnext
      | some token => exact hnext.1
    dsimp only
    cases h o with
    | @left _ a ha hf =>
      rw [hf]
      cases o with
      | none => exact ⟨w, T.refl w, hback, ha⟩
      | some token => exact ⟨w, T.refl w, hback, ha⟩
    | failing hw hf =>
      rw [hf]
      cases o with
      | none => exact T.fails hw hback
      | some token =>
        obtain ⟨-, w', htook, hs'⟩ := hnext
        exact T.fails_mono (T.later htook) (T.fails (T.inside htook) hs')
    | taken hf =>
      obtain ⟨-, w', htook, hs'⟩ := hnext
      have hp := hf w' htook i _ hs'
      cases hr : f (some _) { s with tokens } with
      | ok a t =>
        rw [hr] at hp
        obtain ⟨w₂, hw₂, ht, ha⟩ := hp
        exact ⟨w₂, T.trans (T.later htook) hw₂, ht, ha⟩
      | error e t =>
        rw [hr] at hp
        exact T.fails_mono (T.later htook) hp

theorem Holds.accept (w : T.World) (kind : TokenKind) (text : String) :
    T.Holds w (accept kind text) fun w' b =>
      b = false ∧ w' = w ∨ b = true ∧ TookWord T.Took kind text w w' := by
  refine .next fun o => ?_
  cases o with
  | none => exact .left (.inl ⟨rfl, rfl⟩) rfl
  | some token =>
    by_cases htoken : token.is kind text = true
    · refine .taken fun w' h => ?_
      simp only [htoken]
      exact .pure (.inr ⟨rfl, token, htoken, h⟩)
    · refine .left (a := false) (.inl ⟨rfl, rfl⟩) ?_
      simp only [htoken]
      rfl

theorem Holds.expect (hw : T.Inside w) (kind : TokenKind) (text : String) :
    T.Holds w (expect kind text) fun w' _ => TookWord T.Took kind text w w' := by
  refine (Holds.accept w kind text).bind fun w' b _ hb => ?_
  rcases hb with ⟨rfl, rfl⟩ | ⟨rfl, hb⟩
  · exact .throw hw _
  · exact .pure hb

theorem Holds.comesNext (w : T.World) (kind : TokenKind) (text : String) :
    T.Holds w (comesNext kind text) fun w' _ => w' = w := by
  refine .next fun o => ?_
  cases o with
  | none => exact .left rfl rfl
  | some token => exact .left (a := token.is kind text) rfl rfl

variable (T) in
/-- Nothing but ends of lines has been taken. -/
inductive Blank : T.World → T.World → Prop
  | refl (w : T.World) : Blank w w
  | step {w w₁ w₂ : T.World} {token : Token} (hkind : token.kind = .terminator)
      (htoken : T.Took w token w₁) (hrest : Blank w₁ w₂) : Blank w w₂

theorem Holds.terminator (w : T.World) : T.Holds w terminator fun w' _ => T.Blank w w' := by
  refine .next fun o => ?_
  cases o with
  | none => exact .left (.refl w) rfl
  | some token =>
    cases hkind : token.kind with
    | terminator =>
      refine .taken fun w' h => ?_
      simp only [hkind]
      exact .pure (.step hkind h (.refl w'))
    | delimiter =>
      refine .left (a := ()) (.refl w) ?_
      simp only [hkind]
      rfl
    | _ =>
      refine .taken fun w' h => ?_
      simp only [hkind]
      exact .throw (T.inside h) _

/-- Blank statements are passed, and a statement that is found has been ended. -/
theorem Holds.statementWithin {Q : T.World → T.World → Statement → Prop}
    (hstatement : ∀ w, T.Holds w (Grammar.ofRoom Grammar.maxNesting).statement fun w' o =>
      match o with
      | none => w' = w
      | some found => Q w w' found)
    (steps : Nat) (w : T.World) :
    T.Holds w (statementWithin steps) fun w' o => match o with
      | none => T.Blank w w'
      | some found => ∃ v v', T.Blank w v ∧ Q v v' found ∧ T.Blank v' w' := by
  induction steps generalizing w with
  | zero => exact .pure (.refl w)
  | succ steps ih =>
    have hskip : T.Holds w Parse.skipLines fun w' _ => w' = w :=
      fun i s hs => ⟨w, T.refl w, T.skipLines hs, rfl⟩
    refine hskip.bind fun w' _ _ hw' => (hstatement w').bind fun w₁ o _ ho => ?_
    subst hw'
    cases o with
    | some found =>
      exact (Holds.terminator w₁).bind fun w₂ _ _ hend => .pure ⟨w', w₁, .refl w', ho, hend⟩
    | none =>
      obtain rfl : w₁ = w' := ho
      refine .next fun o => ?_
      cases o with
      | none => exact .left (Blank.refl w₁) rfl
      | some token =>
        refine .taken fun w₂ h₂ => ?_
        dsimp only
        split
        · next hkind =>
          refine (ih w₂).post fun w₃ o _ ho => ?_
          cases o with
          | none => exact .step hkind h₂ ho
          | some found =>
            obtain ⟨v, v', hblank, hfound, hend⟩ := ho
            exact ⟨v, v', .step hkind h₂ hblank, hfound, hend⟩
        · exact .throw (T.inside h₂) _

theorem Holds.valueTy? (w : T.World) (x : String) : T.Holds w (valueTy? x) fun w' _ => w' = w :=
  fun _ _ hs => ⟨w, T.refl w, hs, rfl⟩

theorem Holds.resolveTy (hw : T.Inside w) (x : String) :
    T.Holds w (Grammar.resolveTy x) fun w' _ => w' = w := by
  refine fun i => .get fun s hs => ?_
  split
  · exact .pure fun t ht => ⟨w, T.refl w, ht ▸ hs, rfl⟩
  · exact .throw fun t ht => T.fails hw (ht ▸ hs)

variable (T) in
/-- The second parser is not looked at. -/
abbrev judgement : Judgement where
  World := T.World
  Holds w p _ R := T.Holds w p fun w' a => ∃ b, R w' a b
  Inside := T.Inside
  Took := T.Took
  Skewed := False
  inside := T.inside
  pure {_ _ _ b _} h := .pure ⟨b, h⟩
  bind h hf := h.bind fun w' a hw ⟨b, hab⟩ => hf w' a b (T.inside_mono hw) hab
  fail hw cause _ := .throw hw (.parse cause)
  next hstop hword := by
    refine .next fun o => ?_
    cases goes_of_stops _ hstop hword o with
    | leaving a b h hf => exact .left ⟨b, h⟩ hf
    | failing hw hf => exact .failing hw hf
    | taking h => exact .taken h
  expect _ hw text := (Holds.expect hw _ text).post fun _ _ _ h => ⟨(), h⟩
  steps h _ := .steps h

/-- What is said of the first parser alone. -/
theorem Holds.alone {q : Parse α} (h : T.Holds w p R) :
    T.judgement.Holds w p q fun w' a _ => R w' a :=
  h.post fun _ a _ ha => ⟨a, ha⟩

theorem Holds.ofFirst {q : Parse α} (h : T.judgement.Holds w p q fun w' a _ => R w' a) :
    T.Holds w p R := by
  intro i
  refine (h i).post ?_
  rintro a s ⟨w', hw', hs, -, ha⟩
  exact ⟨w', hw', hs, ha⟩

variable (T) in
/-- What is written down in the context does not matter. -/
structure Quiet : Prop where
  setAlias {i : T.Index} {w : T.World} {s : ParseState} (hs : T.At i w s) (x : String) (t : Ty) :
    T.At i w { s with context := s.context.setAlias x t }
  setValue {i : T.Index} {w : T.World} {s : ParseState} (hs : T.At i w s) (x : String) (t : Ty) :
    T.At i w { s with context := s.context.setValue x t }
  inScope {α : Type} {w : T.World} {p : Parse α} {R : T.World → α → Prop} (h : T.Holds w p R) :
    T.Holds w (Parse.inScope p) R

theorem quiet_of_tokens (hAt : ∀ i w s c, T.At i w s → T.At i w { s with context := c })
    (hFails : ∀ i w s c, T.Fails i w s → T.Fails i w { s with context := c }) : T.Quiet where
  setAlias hs _ _ := hAt _ _ _ _ hs
  setValue hs _ _ := hAt _ _ _ _ hs
  inScope h i := (h i).inScope (fun _ hs => hAt _ _ _ _ hs)
    (fun _ _ ⟨w', hw', hs, ha⟩ => ⟨w', hw', hAt _ _ _ _ hs, ha⟩) fun _ hs => hFails _ _ _ _ hs

theorem Quiet.holds_setAlias (hT : T.Quiet) (w : T.World) (x : String) (t : Ty) :
    T.Holds w (Parse.setAlias x t) fun w' _ => w' = w :=
  fun _ _ hs => ⟨w, T.refl w, hT.setAlias hs x t, rfl⟩

theorem Quiet.holds_setValue (hT : T.Quiet) (w : T.World) (x : String) (t : Ty) :
    T.Holds w (Parse.setValue x t) fun w' _ => w' = w :=
  fun _ _ hs => ⟨w, T.refl w, hT.setValue hs x t, rfl⟩

theorem Quiet.bindParams (hT : T.Quiet) (hw : T.Inside w) (name : String) (params : List String)
    (declared : Option Ty) :
    T.Holds w (Grammar.bindParams name params declared) fun w' _ => w' = w := by
  cases declared with
  | none => exact .pure rfl
  | some t =>
    unfold Grammar.bindParams
    dsimp only
    split
    · next typed htyped =>
      clear htyped
      induction typed with
      | nil => exact .pure rfl
      | cons p ps ih =>
        refine (hT.holds_setValue w p.1 p.2).bind fun w' _ _ hw' => ?_
        rw [hw']
        exact ih
    · exact .throw hw _

theorem Quiet.typing (hT : T.Quiet) {below : Option Grammar} (hw : T.Inside w)
    (hty : T.Holds w (Grammar.nested below Grammar.functionTy) fun _ _ => True) (e : Expr) :
    T.Holds w (Grammar.typing below e) fun _ _ => True := by
  cases e with
  | name x t =>
    exact hty.bind fun w' t _ _ => (hT.holds_setValue w' x t).post fun _ _ _ _ => trivial
  | _ => exact .throw hw _

end Tracking

end Parse

namespace Grammar

open Parse

/-- What is said of the trees that are read: one rule for each way of building a tree. -/
structure Trees (T : Tracking) where
  /-- The trees that have been read between two worlds, at most so high. -/
  Tree (height : Nat) (w w' : T.World) (e : Expr) : Prop
  higher {n m : Nat} {w w' : T.World} {e : Expr} (hnm : n ≤ m) : Tree n w w' e → Tree m w w' e
  integer {w w' : T.World} {token : Token} (hkind : token.kind = .integer)
    (htoken : T.Took w token w') (hn : Decimal.value token.text.toList < 0x8000000000000000) :
    Tree 0 w w' (.constant (.int (Int64.ofNat (Decimal.value token.text.toList))))
  float {w w' : T.World} {token : Token} (hkind : token.kind = .float)
    (htoken : T.Took w token w') :
    Tree 0 w w' (.constant (.float (Decimal.readFloat token.text.toList)))
  string {w w' : T.World} {token : Token} (hkind : token.kind = .string)
    (htoken : T.Took w token w') : Tree 0 w w' (.constant (.string token.text))
  bool {w w' : T.World} {token : Token} (b : Bool) (hkind : token.kind = .name)
    (htext : token.text = if b then "True" else "False") (htoken : T.Took w token w') :
    Tree 0 w w' (.constant (.bool b))
  name {w w' : T.World} {token : Token} (hkind : token.kind = .name)
    (htoken : T.Took w token w') (t : Option Ty) : Tree 0 w w' (.name token.text t)
  group {n : Nat} {w w₁ w₂ w₃ : T.World} {e : Expr}
    (hopen : TookWord T.Took .delimiter "(" w w₁) (h : Tree n w₁ w₂ e)
    (hclose : TookWord T.Took .delimiter ")" w₂ w₃) : Tree n w w₃ e
  member {n : Nat} {w w₁ w₂ w₃ : T.World} {e key : Expr} (h : Tree n w w₁ e)
    (hdot : TookWord T.Took .symbol "." w₁ w₂) (hkey : Tree n w₂ w₃ key) :
    Tree (n + 1) w w₃ (.member e key)
  apply {n : Nat} {w w' : T.World} {callee : Expr} {arguments es' : List Expr}
    (h : Chained (fun w w' e _ => Tree n w w' e) w w' (callee :: arguments) es') :
    Tree (n + 1) w w' (.apply callee arguments)
  /-- Names without their types. -/
  head {n : Nat} {w w' : T.World} {es es' arguments : List Expr} {callee : Expr}
    {names : List String} (h : Chained (fun w w' e _ => Tree n w w' e) w w' es es')
    (hnames : es.mapM Expr.asName? = some names)
    (heq : names.map (Expr.name · none) = callee :: arguments) :
    Tree (n + 1) w w' (.apply callee arguments)
  operation {n : Nat} {w w₁ w₂ w₃ : T.World} {tier : Tier} {token : Token} {op : Operator}
    {left right : Expr} (h : Tree n w w₁ left) (hop : operatorOf? tier token = some op)
    (htoken : T.Took w₁ token w₂) (h' : Tree n w₂ w₃ right) :
    Tree (n + 1) w w₃ (Expr.operation op left right)
  lambda {n : Nat} {w w₁ w₂ w₃ w₄ : T.World} {params : List String} {body : Expr}
    (hslash : TookWord T.Took .symbol "\\" w w₁) (hparams : TookNames T.Took w₁ w₂ params)
    (harrow : TookWord T.Took .symbol "->" w₂ w₃) (h : Tree n w₃ w₄ body) :
    Tree (n + 1) w w₄ (.lambda params body)

/-- The same with what is said of the declarations and definitions, which change the context. -/
structure Growth (T : Tracking) extends Trees T where
  aliasing {w : T.World} (hw : T.Inside w) (x : String) (t : Ty) :
    T.Holds w (setAlias x t) fun _ _ => True
  typing {below : Option Grammar} {w : T.World} (hw : T.Inside w)
    (hty : T.Holds w (nested below functionTy) fun _ _ => True) (e : Expr) :
    T.Holds w (typing below e) fun _ _ => True
  definition {n m : Nat} {below : Option Grammar} {w w₁ w₂ : T.World} {e : Expr}
    (hinner : ∀ v, T.Inside v → T.Holds v (nested below inner) fun v' body => Tree m v v' body)
    (h : Tree n w w₁ e) (hequals : TookWord T.Took .symbol "=" w₁ w₂) :
    T.Holds w₂ (definition below e) fun w₃ d => Tree (m + 1) w w₃ d

/-- Where the context does not matter, definitions are trees like others. -/
structure QuietGrowth (T : Tracking) extends Trees T where
  quiet : T.Quiet
  function {n m : Nat} {w w₁ w₂ w₃ : T.World} {head body : Expr} {x : String}
    {params : List String} (h : Tree n w w₁ head) (hnames : head.headNames? = some (x :: params))
    (hequals : TookWord T.Took .symbol "=" w₁ w₂) (hbody : Tree m w₂ w₃ body) (t : Option Ty) :
    Tree (m + 1) w w₃ (.function x params body t)
  define {n m : Nat} {w w₁ w₂ w₃ : T.World} {x : String} {t : Option Ty} {value : Expr}
    (h : Tree n w w₁ (.name x t)) (hequals : TookWord T.Took .symbol "=" w₁ w₂)
    (hvalue : Tree m w₂ w₃ value) (t' : Option Ty) : Tree (m + 1) w w₃ (.define x value t')

namespace Trees

variable {T : Tracking} (G : Trees T)

theorem holds_integer {w w' : T.World} {token : Token} (hkind : token.kind = .integer)
    (htoken : T.Took w token w') :
    T.Holds w' (Grammar.integer token.text) fun w₁ e => G.Tree 0 w w₁ e := by
  unfold Grammar.integer
  dsimp only
  split
  · next hn => exact .pure (G.integer hkind htoken hn)
  · exact .throw (T.inside htoken) _

theorem holds_word {w w' : T.World} {token : Token} (hkind : token.kind = .name)
    (htoken : T.Took w token w') :
    T.Holds w' (word token.text) fun w₁ e => G.Tree 0 w w₁ e := by
  unfold word
  split
  · next htext => exact .pure (G.bool true hkind htext htoken)
  · split
    · next htext => exact .pure (G.bool false hkind htext htoken)
    · refine (Tracking.Holds.valueTy? w' token.text).bind fun w₁ t _ hw₁ => .pure ?_
      exact hw₁ ▸ G.name hkind htoken t

theorem holds_application {n : Nat} {w w' : T.World} {es es' : List Expr} (hw : T.Inside w')
    (h : Chained (fun w w' e _ => G.Tree n w w' e) w w' es es') :
    T.Holds w' (application es) fun w₁ e => G.Tree (n + 1) w w₁ e := by
  have hchecked (expected : Option Ty) :
      T.Holds w' (check (Expr.checkedApply es expected)) fun w₁ e => G.Tree (n + 1) w w₁ e := by
    refine .check hw fun e he => ?_
    obtain ⟨callee, arguments, rfl, rfl⟩ := Expr.eq_apply_of_checked he
    exact G.apply h
  refine (Tracking.Holds.comesNext w' .symbol "=").bind fun w₁ b _ hw₁ => ?_
  rw [hw₁]
  split
  · split
    · next names hnames =>
      refine .check hw fun e he => ?_
      obtain ⟨callee, arguments, heq, rfl⟩ := Expr.eq_apply_of_checked he
      exact G.head h hnames heq
    · exact hchecked _
  · exact hchecked _

end Trees

namespace QuietGrowth

variable {T : Tracking} (G : QuietGrowth T)

theorem holds_definition {n m : Nat} {below : Option Grammar} {w w₁ w₂ : T.World} {e : Expr}
    (hinner : ∀ v, T.Inside v → T.Holds v (nested below inner) fun v' body => G.Tree m v v' body)
    (h : G.Tree n w w₁ e) (hequals : TookWord T.Took .symbol "=" w₁ w₂) :
    T.Holds w₂ (definition below e) fun w₃ d => G.Tree (m + 1) w w₃ d := by
  have hw : T.Inside w₂ := by
    obtain ⟨token, -, htoken⟩ := hequals
    exact T.inside htoken
  unfold definition
  split
  · next x params hnames =>
    refine (Tracking.Holds.valueTy? w₂ x).bind fun w' declared _ hw' => ?_
    subst hw'
    have hbody : T.Holds w' (do
        bindParams x params declared
        nested below inner) fun w₃ body => G.Tree m w' w₃ body := by
      refine (G.quiet.bindParams hw x params declared).bind fun v _ _ hv => ?_
      rw [hv]
      exact hinner w' hw
    refine (G.quiet.inScope hbody).bind fun w₃ body _ hbody => .pure ?_
    exact G.function h hnames hequals hbody declared
  · next x t _ =>
    refine (Tracking.Holds.valueTy? w₂ x).bind fun w' declared _ hw' => ?_
    subst hw'
    refine (hinner w' hw).bind fun w₃ value hw₃ hvalue => ?_
    have hdefine : T.Holds w₃ (check (Expr.checkedDefine x value declared))
        fun w₄ d => G.Tree (m + 1) w w₄ d := by
      refine .check (T.inside_mono hw₃ hw) fun d hd => ?_
      rw [Expr.eq_define_of_checked hd]
      exact G.define h hequals hvalue _
    refine hdefine.bind fun w₄ d _ hd => ?_
    split
    · refine (G.quiet.holds_setValue w₄ x _).bind fun w₅ _ _ hw₅ => .pure ?_
      exact hw₅ ▸ hd
    · exact .pure hd
  · exact .throw hw _

def growth : Growth T where
  toTrees := G.toTrees
  aliasing {w} _ x t := (G.quiet.holds_setAlias w x t).post fun _ _ _ _ => trivial
  typing := G.quiet.typing
  definition := G.holds_definition

end QuietGrowth

namespace Growth

variable {T : Tracking} (G : Growth T)

/-- Of types nothing is said. -/
def productions : Productions T.judgement where
  Rooms room room' := room' = room
  Typed _ _ _ _ _ := True
  Tree n w w' e _ := G.Tree n w w' e
  Declared _ _ := True
  rooms h := Nat.succ.inj h
  cut h := nomatch h
  resolve _ h _ := (Tracking.Holds.resolveTy (T.inside h) _).post fun _ t _ _ => ⟨t, trivial⟩
  deeper _ := trivial
  list _ _ := trivial
  groupTy _ _ _ := trivial
  arrow _ _ _ := trivial
  higher := G.higher
  integer hkind h := (G.holds_integer hkind h).alone
  float := G.float
  string := G.string
  word hkind h := (G.holds_word hkind h).alone
  group := G.group
  member := G.member
  application hw h _ := (G.holds_application hw h).alone
  operation hw h hop htoken h' := .check hw fun d hd =>
    ⟨d, Expr.eq_operation_of_checked hd ▸ G.operation h hop htoken h'⟩
  lambda := G.lambda
  aliasing _ hw _ _ _ _ := (G.aliasing hw _ _).alone
  typing _ hty _ hcolon := by
    have hw := T.judgement.inside_of_word hcolon
    have hty : T.Holds _ (nested (beneath _) functionTy) fun _ _ => True :=
      Tracking.Holds.post (hty _ hw) fun _ _ _ _ => trivial
    exact (G.typing hw hty _).alone
  definition _ hinner h hequals :=
    (G.definition (fun v hv => .ofFirst (hinner v hv)) h hequals).alone

theorem level (room : Nat) :
    G.productions.Level room (ofRoom room) (ofRoom room) :=
  ofRoom_level nofun nofun rfl

theorem level_beneath (room lower lower' : Nat) (h : room = lower + 1) (h' : room = lower' + 1) :
    G.productions.Level lower (ofRoom lower) (ofRoom lower') := by
  obtain rfl : lower' = lower := by omega
  exact G.level lower'

theorem term (room : Nat) (w : T.World) :
    T.Holds w (termAbove (beneath room)) fun w' o => match o with
      | none => w' = w
      | some e => T.Inside w' ∧ G.Tree (simpleHeight room + room) w w' e := by
  have h := termAbove_holds (P := G.productions) rfl (G.level_beneath room) w
  refine Tracking.Holds.post h fun w' o _ ⟨o', ho⟩ => ?_
  cases o with
  | none => exact (found_inv ho).2
  | some e =>
    obtain ⟨e', -, h⟩ := found_inv ho
    exact ⟨h.inside, h.tree⟩

theorem nested_inner (room : Nat) {w : T.World} (hw : T.Inside w) :
    T.Holds w (nested (beneath room) inner) fun w' e => G.Tree (simpleHeight room) w w' e := by
  have h := nested_inner_holds (P := G.productions) rfl (G.level_beneath room) hw
  exact .ofFirst (h.post fun _ _ _ _ he => he.tree)

/-- What is said of a statement. -/
def Whole (w w' : T.World) : Statement → Prop
  | .expression e => T.Inside w' ∧ G.Tree (simpleHeight (maxNesting + 1)) w w' e
  | .declaration => T.Inside w'

theorem statementWithin (steps : Nat) (w : T.World) :
    T.Holds w (statementWithin steps) fun w' o => match o with
      | none => T.Blank w w'
      | some found => ∃ v v', T.Blank w v ∧ G.Whole v v' found ∧ T.Blank v' w' := by
  refine .statementWithin (fun w => ?_) steps w
  refine Tracking.Holds.post ((G.level maxNesting).statement w) fun w' o _ ho => ?_
  obtain ⟨o', ho⟩ := ho
  cases o with
  | none => exact (stated_inv ho).2
  | some found =>
    cases found with
    | declaration => exact (stated_inv ho).2.1
    | expression e =>
      obtain ⟨e', -, h⟩ := stated_inv ho
      exact ⟨h.inside, h.tree⟩

end Growth

/-- Heights need nothing but the trees. -/
def heights (T : Tracking) (hT : T.Quiet) : QuietGrowth T where
  Tree n _ _ e := e.height ≤ n
  quiet := hT
  higher hnm he := Nat.le_trans he hnm
  integer _ _ _ := Nat.le_refl 0
  float _ _ := Nat.le_refl 0
  string _ _ := Nat.le_refl 0
  bool _ _ _ _ := Nat.le_refl 0
  name _ _ _ := Nat.le_refl 0
  group _ h _ := h
  member h _ hkey := by
    simp only [Expr.height]
    omega
  apply h := by
    have hall := h.forall_mem fun _ _ _ _ h => h
    rw [List.forall_mem_cons] at hall
    have harguments := Expr.heightOfAll_le hall.2
    simp only [Expr.height]
    omega
  head {n _ _ _ _ _ _ names} _ _ heq := by
    have hnames : ∀ e ∈ names.map (Expr.name · none), e.height ≤ n := by
      intro e he
      obtain ⟨x, -, rfl⟩ := List.mem_map.1 he
      exact Nat.zero_le n
    rw [heq, List.forall_mem_cons] at hnames
    have harguments := Expr.heightOfAll_le hnames.2
    simp only [Expr.height]
    omega
  operation h _ _ h' := by
    rw [Expr.height_operation]
    omega
  lambda _ _ _ h := Nat.succ_le_succ h
  function _ _ _ h _ := Nat.succ_le_succ h
  define _ _ h _ := Nat.succ_le_succ h

end Grammar

end Offside
