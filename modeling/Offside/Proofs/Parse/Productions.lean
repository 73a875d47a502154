import Offside.Proofs.Parse.Judgement

namespace Offside

namespace Grammar

open Parse

/-- How high a simple term may be where `room` levels may be opened. With one level more it may be a
group, which holds from the inside out a simple term, its members, an application, and the operators
of both tiers. -/
def simpleHeight : (room : Nat) → Nat
  | 0 => 0
  | room + 1 => simpleHeight room + room + 1 + room + room

/-- How high an operand of the tier may be. -/
def operandHeight (room : Nat) : Tier → Nat
  | .product => simpleHeight room + room + 1
  | .sum => simpleHeight room + room + 1 + room

theorem simpleHeight_lt_succ (room : Nat) : simpleHeight room < simpleHeight (room + 1) := by
  rw [simpleHeight]
  omega

theorem operandHeight_le_succ (room : Nat) (tier : Tier) :
    operandHeight room tier ≤ operandHeight (room + 1) tier := by
  have hsimple := simpleHeight_lt_succ room
  cases tier <;> simp only [operandHeight] <;> omega

/-- What a judgement says of the types and trees that are read, and why it may go on saying so: one
rule for each way in which the grammar makes a type or a tree of others. -/
structure Productions (J : Judgement) where
  /-- How many levels may be open in the two runs. -/
  Rooms (room room' : Nat) : Prop
  /-- The types that have been read between two worlds, at most so deep. -/
  Typed (depth : Nat) (w w' : J.World) (t t' : Ty) : Prop
  /-- The trees that have been read between two worlds, at most so high. -/
  Tree (height : Nat) (w w' : J.World) (e e' : Expr) : Prop
  /-- A declaration has been read between two worlds. -/
  Declared (w w' : J.World) : Prop
  rooms {room room' : Nat} : Rooms (room + 1) (room' + 1) → Rooms room room'
  cut {α : Type} {room : Nat} {w : J.World} {R : J.World → α → α → Prop}
    (hrooms : Rooms (room + 1) 0) (p : Parse α) : J.Holds w p (fail .nestedTooDeeply) R
  resolve {w w' : J.World} {token : Token} (hkind : token.kind = .name) (h : J.Took w token w')
    (depth : Nat) : J.Holds w' (resolveTy token.text) (resolveTy token.text) (Typed depth w)
  deeper {n : Nat} {w w' : J.World} {t t' : Ty} : Typed n w w' t t' → Typed (n + 1) w w' t t'
  list {n : Nat} {w w₁ w₂ : J.World} {t t' : Ty} (hlist : TookWord J.Took .name "List" w w₁)
    (h : Typed n w₁ w₂ t t') : Typed (n + 1) w w₂ (.list t) (.list t')
  groupTy {n : Nat} {w w₁ w₂ w₃ : J.World} {t t' : Ty}
    (hopen : TookWord J.Took .delimiter "(" w w₁) (h : Typed n w₁ w₂ t t')
    (hclose : TookWord J.Took .delimiter ")" w₂ w₃) : Typed n w w₃ t t'
  arrow {n : Nat} {w w₁ w₂ w₃ : J.World} {t t' u u' : Ty} (h : Typed n w w₁ t t')
    (harrow : TookWord J.Took .symbol "->" w₁ w₂) (h' : Typed n w₂ w₃ u u') :
    Typed (n + 1) w w₃ (.function t u) (.function t' u')
  higher {n m : Nat} {w w' : J.World} {e e' : Expr} (hnm : n ≤ m) : Tree n w w' e e' →
    Tree m w w' e e'
  integer {w w' : J.World} {token : Token} (hkind : token.kind = .integer) (h : J.Took w token w') :
    J.Holds w' (integer token.text) (integer token.text) (Tree 0 w)
  float {w w' : J.World} {token : Token} (hkind : token.kind = .float) (h : J.Took w token w') :
    Tree 0 w w' (.constant (.float (Decimal.readFloat token.text.toList)))
      (.constant (.float (Decimal.readFloat token.text.toList)))
  string {w w' : J.World} {token : Token} (hkind : token.kind = .string) (h : J.Took w token w') :
    Tree 0 w w' (.constant (.string token.text)) (.constant (.string token.text))
  word {w w' : J.World} {token : Token} (hkind : token.kind = .name) (h : J.Took w token w') :
    J.Holds w' (word token.text) (word token.text) (Tree 0 w)
  group {n : Nat} {w w₁ w₂ w₃ : J.World} {e e' : Expr}
    (hopen : TookWord J.Took .delimiter "(" w w₁) (h : Tree n w₁ w₂ e e')
    (hclose : TookWord J.Took .delimiter ")" w₂ w₃) : Tree n w w₃ e e'
  member {n : Nat} {w w₁ w₂ w₃ : J.World} {e e' key key' : Expr} (h : Tree n w w₁ e e')
    (hdot : TookWord J.Took .symbol "." w₁ w₂) (hkey : Tree n w₂ w₃ key key') :
    Tree (n + 1) w w₃ (.member e key) (.member e' key')
  application {n : Nat} {w w' : J.World} {es es' : List Expr} (hw : J.Inside w')
    (h : Chained (Tree n) w w' es es') (hes : 2 ≤ es.length) :
    J.Holds w' (application es) (application es') (Tree (n + 1) w)
  operation {n : Nat} {w w₁ w₂ w₃ : J.World} {tier : Tier} {token : Token} {op : Operator}
    {e e' f f' : Expr} (hw : J.Inside w₃) (h : Tree n w w₁ e e')
    (hop : operatorOf? tier token = some op) (htoken : J.Took w₁ token w₂)
    (h' : Tree n w₂ w₃ f f') :
    J.Holds w₃ (check (Expr.checkedOperation op e f)) (check (Expr.checkedOperation op e' f'))
      (Tree (n + 1) w)
  lambda {n : Nat} {w w₁ w₂ w₃ w₄ : J.World} {params : List String} {e e' : Expr}
    (hslash : TookWord J.Took .symbol "\\" w w₁) (hparams : TookNames J.Took w₁ w₂ params)
    (harrow : TookWord J.Took .symbol "->" w₂ w₃) (h : Tree n w₃ w₄ e e') :
    Tree (n + 1) w w₄ (.lambda params e) (.lambda params e')
  aliasing {room room' : Nat} {w w₁ w₂ w₃ w₄ : J.World} {x : String} {t t' : Ty}
    (hrooms : Rooms room room') (hw : J.Inside w₄) (htype : TookWord J.Took .name "type" w w₁)
    (hname : TookNames J.Took w₁ w₂ [x]) (hequals : TookWord J.Took .symbol "=" w₂ w₃)
    (h : Typed room w₃ w₄ t t') :
    J.Holds w₄ (setAlias x t) (setAlias x t') fun w₅ _ _ => Declared w w₅
  typing {n room room' : Nat} {w w₁ w₂ : J.World} {e e' : Expr} (hrooms : Rooms room room')
    (hty : ∀ v, J.Inside v → J.Holds v (nested (beneath room) functionTy)
      (nested (beneath room') functionTy) (Typed room v))
    (h : Tree n w w₁ e e') (hcolon : TookWord J.Took .symbol ":" w₁ w₂) :
    J.Holds w₂ (typing (beneath room) e) (typing (beneath room') e') fun w₃ _ _ => Declared w w₃
  definition {n m room room' : Nat} {w w₁ w₂ : J.World} {e e' : Expr} (hrooms : Rooms room room')
    (hinner : ∀ v, J.Inside v → J.Holds v (nested (beneath room) inner)
      (nested (beneath room') inner) (Tree m v))
    (h : Tree n w w₁ e e') (hequals : TookWord J.Took .symbol "=" w₁ w₂) :
    J.Holds w₂ (definition (beneath room) e) (definition (beneath room') e') (Tree (m + 1) w)

namespace Productions

variable {J : Judgement} (P : Productions J)

/-- A tree that has been read, if there is one. -/
inductive Found (n : Nat) (w : J.World) : J.World → Option Expr → Option Expr → Prop
  | none : Found n w w none none
  | some {w' : J.World} {e e' : Expr} (hw : J.Inside w') (h : P.Tree n w w' e e') :
      Found n w w' (some e) (some e')

/-- A tree that has been read to its end. -/
structure Read (n : Nat) (w w' : J.World) (e e' : Expr) : Prop where
  inside : J.Inside w'
  tree : P.Tree n w w' e e'

/-- A statement that has been read, if there is one. -/
inductive Stated (n : Nat) (w : J.World) :
    J.World → Option Statement → Option Statement → Prop
  | none : Stated n w w none none
  | expression {w' : J.World} {e e' : Expr} (h : P.Read n w w' e e') :
      Stated n w w' (some (.expression e)) (some (.expression e'))
  | declaration {w' : J.World} (hw : J.Inside w') (h : P.Declared w w') :
      Stated n w w' (some .declaration) (some .declaration)

/-- What is said of the parsers of two levels. What is read on from a tree gets higher by one for
each level that is left. -/
structure Level (room : Nat) (g g' : Grammar) : Prop where
  functionTy {w : J.World} (hw : J.Inside w) :
    J.Holds w g.functionTy g'.functionTy (P.Typed (room + 1) w)
  tyAtom {w : J.World} (hw : J.Inside w) : J.Holds w g.tyAtom g'.tyAtom (P.Typed room w)
  simpleTerm (w : J.World) : J.Holds w g.simpleTerm g'.simpleTerm (P.Found (simpleHeight room) w)
  members {n : Nat} {w w₁ : J.World} {e e' : Expr} (h : P.Read n w w₁ e e')
    (hn : simpleHeight room ≤ n) :
    J.Holds w₁ (g.members e) (g'.members e') (P.Read (n + room) w)
  sequence (w : J.World) :
    J.Holds w g.sequence g'.sequence (P.Found (operandHeight room .product) w)
  product (w : J.World) : J.Holds w g.product g'.product (P.Found (operandHeight room .sum) w)
  fold {tier : Tier} {n : Nat} {w w₁ : J.World} {e e' : Expr} (h : P.Read n w w₁ e e')
    (hn : operandHeight room tier ≤ n) :
    J.Holds w₁ (g.fold tier e) (g'.fold tier e') (P.Read (n + room) w)
  statement (w : J.World) :
    J.Holds w g.statement g'.statement (P.Stated (simpleHeight (room + 1)) w)
  inner {w : J.World} (hw : J.Inside w) :
    J.Holds w g.inner g'.inner (P.Read (simpleHeight (room + 1)) w)

end Productions

variable {J : Judgement} {P : Productions J} {room room' : Nat}

theorem Productions.Read.higher {n m : Nat} {w w' : J.World} {e e' : Expr} (h : P.Read n w w' e e')
    (hnm : n ≤ m) : P.Read m w w' e e' :=
  ⟨h.inside, P.higher hnm h.tree⟩

theorem found_inv {n : Nat} {w w' : J.World} {o o' : Option Expr} (h : P.Found n w w' o o') :
    match o with
      | none => o' = none ∧ w' = w
      | some e => ∃ e', o' = some e' ∧ P.Read n w w' e e' := by
  cases h with
  | none => exact ⟨rfl, rfl⟩
  | some hw h => exact ⟨_, rfl, hw, h⟩

theorem stated_inv {n : Nat} {w w' : J.World} {o o' : Option Statement}
    (h : P.Stated n w w' o o') : match o with
      | none => o' = none ∧ w' = w
      | some (.expression e) => ∃ e', o' = some (.expression e') ∧ P.Read n w w' e e'
      | some .declaration => o' = some .declaration ∧ J.Inside w' ∧ P.Declared w w' := by
  cases h with
  | none => exact ⟨rfl, rfl⟩
  | expression h => exact ⟨_, rfl, h⟩
  | declaration hw h => exact ⟨rfl, hw, h⟩

theorem found_of_tree {n : Nat} {w w₁ : J.World} {p q : Parse Expr} (hw : J.Inside w₁)
    (h : J.Holds w₁ p q (P.Tree n w)) : J.Holds w₁ (some <$> p) (some <$> q) (P.Found n w) :=
  h.map fun _ _ _ hin he => .some (hin hw) he

theorem found_of_read {n : Nat} {w w₁ : J.World} {p q : Parse Expr}
    (h : J.Holds w₁ p q (P.Read n w)) : J.Holds w₁ (some <$> p) (some <$> q) (P.Found n w) :=
  h.map fun _ _ _ _ he => .some he.inside he.tree

variable (hrooms : P.Rooms room room')
  (hbelow : ∀ lower lower', room = lower + 1 → room' = lower' + 1 →
    P.Level lower (ofRoom lower) (ofRoom lower'))
include hrooms hbelow

theorem nested_holds {α : Type} {w : J.World} {p q : Grammar → Parse α}
    {R : J.World → α → α → Prop} (hw : J.Inside w)
    (h : ∀ lower, room = lower + 1 → ∀ g', P.Level lower (ofRoom lower) g' →
      J.Holds w (p (ofRoom lower)) (q g') R) :
    J.Holds w (nested (beneath room) p) (nested (beneath room') q) R := by
  cases room with
  | zero => exact J.fail hw _ _
  | succ lower =>
    cases room' with
    | zero => exact P.cut hrooms _
    | succ lower' => exact h lower rfl _ (hbelow lower lower' rfl rfl)

theorem nested_functionTy_holds {w : J.World} (hw : J.Inside w) :
    J.Holds w (nested (beneath room) functionTy) (nested (beneath room') functionTy)
      (P.Typed room w) := by
  refine nested_holds hrooms hbelow hw ?_
  rintro lower rfl g' hlevel
  exact hlevel.functionTy hw

theorem nested_inner_holds {w : J.World} (hw : J.Inside w) :
    J.Holds w (nested (beneath room) inner) (nested (beneath room') inner)
      (P.Read (simpleHeight room) w) := by
  refine nested_holds hrooms hbelow hw ?_
  rintro lower rfl g' hlevel
  exact hlevel.inner hw

theorem tyAtomAbove_holds {w : J.World} (hw : J.Inside w) :
    J.Holds w (tyAtomAbove (beneath room)) (tyAtomAbove (beneath room')) (P.Typed room w) := by
  refine J.next (.failing hw fun o ho => ?_) fun token span _ => ?_
  · cases o with
    | none => exact ⟨_, rfl⟩
    | some token =>
      have hkind := ho token rfl
      simp only [Token.is, hkind, decide_false, Bool.false_and, reduceCtorEq, Bool.false_eq_true,
        if_false]
      exact ⟨_, rfl⟩
  · refine J.turns_ite (fun hopen => .taken fun w₁ h₁ => ?_) fun _ =>
      J.turns_ite (fun hlist => .taken fun w₁ h₁ => ?_) fun _ =>
      J.turns_ite (fun hkind => .taken fun w₁ h₁ => P.resolve hkind h₁ room) fun _ =>
        .taken fun w₁ h₁ => J.fail (J.inside h₁) _ _
    · refine J.bind (nested_functionTy_holds hrooms hbelow (J.inside h₁)) fun w₂ t t' hin ht => ?_
      refine J.bind (J.expect (by decide) (hin (J.inside h₁)) _) fun w₃ _ _ _ hclose => J.pure ?_
      exact P.groupTy ⟨token, hopen, h₁⟩ ht hclose
    · have hatom : J.Holds w₁ (nested (beneath room) tyAtom) (nested (beneath room') tyAtom)
          fun w₂ t t' => P.Typed room w w₂ (.list t) (.list t') := by
        refine nested_holds hrooms hbelow (J.inside h₁) ?_
        rintro lower rfl g' hlevel
        exact (hlevel.tyAtom (J.inside h₁)).post fun _ _ _ _ ht => P.list ⟨token, hlist, h₁⟩ ht
      exact J.bind hatom fun w₂ t t' _ ht => J.pure ht

theorem functionTyAbove_holds {w : J.World} (hw : J.Inside w) :
    J.Holds w (functionTyAbove (beneath room)) (functionTyAbove (beneath room'))
      (P.Typed (room + 1) w) := by
  refine J.bind (tyAtomAbove_holds hrooms hbelow hw) fun w₁ t t' _ ht => ?_
  refine J.bind (J.accept (.inr rfl) _ w₁) fun w₂ b b' _ hb => ?_
  cases hb with
  | no => exact J.pure (P.deeper ht)
  | yes harrow =>
    have houtput := nested_functionTy_holds hrooms hbelow (J.inside_of_word harrow)
    exact J.bind houtput fun w₃ u u' _ hu => J.pure (P.arrow ht harrow hu)

theorem simpleTermAbove_holds (w : J.World) :
    J.Holds w (simpleTermAbove (beneath room)) (simpleTermAbove (beneath room'))
      (P.Found (simpleHeight room) w) := by
  refine J.next (.leaving none none .none fun o ho => ?_) fun token span _ => ?_
  · cases o with
    | none => exact ⟨rfl, rfl⟩
    | some token =>
      rcases ho token rfl with hend | hclose
      · simp [hend, Token.is, leave]
      · obtain ⟨hkind, htext⟩ := Prod.mk.inj hclose
        simp [hkind, htext, Token.is, leave]
  · have hleaf {w₁ : J.World} (h₁ : J.Took w token w₁) {p q : Parse Expr}
        (h : J.Holds w₁ p q (P.Tree 0 w)) :
        J.Holds w₁ (some <$> p) (some <$> q) (P.Found (simpleHeight room) w) :=
      found_of_tree (J.inside h₁) (h.post fun _ _ _ _ => P.higher (Nat.zero_le _))
    dsimp only
    split
    · next hkind => exact .taken fun w₁ h₁ => hleaf h₁ (P.integer hkind h₁)
    · next hkind =>
      refine .taken fun w₁ h₁ => J.pure (.some (J.inside h₁) ?_)
      exact P.higher (Nat.zero_le _) (P.float hkind h₁)
    · next hkind =>
      refine .taken fun w₁ h₁ => J.pure (.some (J.inside h₁) ?_)
      exact P.higher (Nat.zero_le _) (P.string hkind h₁)
    · next hkind => exact .taken fun w₁ h₁ => hleaf h₁ (P.word hkind h₁)
    · refine J.turns_ite (fun hopen => .taken fun w₁ h₁ => ?_) fun _ => .left .none
      refine J.bind (nested_inner_holds hrooms hbelow (J.inside h₁)) fun w₂ e e' _ he => ?_
      refine J.bind (J.expect (by decide) he.inside _) fun w₃ _ _ _ hclose => J.pure ?_
      exact .some (J.inside_of_word hclose) (P.group ⟨token, hopen, h₁⟩ he.tree hclose)

theorem membersAbove_holds {n : Nat} {w w₁ : J.World} {e e' : Expr} (h : P.Read n w w₁ e e')
    (hn : simpleHeight room ≤ n) :
    J.Holds w₁ (membersAbove (beneath room) e) (membersAbove (beneath room') e')
      (P.Read (n + room) w) := by
  refine J.bind (J.accept (.inr rfl) _ w₁) fun w₂ b b' _ hb => ?_
  cases hb with
  | no => exact J.pure (h.higher (Nat.le_add_right n room))
  | yes hdot =>
    refine nested_holds hrooms hbelow (J.inside_of_word hdot) ?_
    rintro lower rfl g' hlevel
    have hmono := simpleHeight_lt_succ lower
    refine J.bind (hlevel.simpleTerm w₂) fun w₃ o o' hin ho => ?_
    cases ho with
    | none => exact J.fail (J.inside_of_word hdot) _ _
    | some hw hkey =>
      have hmember := P.member h.tree hdot (P.higher (by omega) hkey)
      exact (hlevel.members ⟨hw, hmember⟩ (by omega)).post fun _ _ _ _ hmore =>
        hmore.higher (by omega)

theorem termAbove_holds (w : J.World) :
    J.Holds w (termAbove (beneath room)) (termAbove (beneath room'))
      (P.Found (simpleHeight room + room) w) := by
  refine J.bind (simpleTermAbove_holds hrooms hbelow w) fun w₁ o o' _ ho => ?_
  cases ho with
  | none => exact J.pure .none
  | some hw h => exact found_of_read (membersAbove_holds hrooms hbelow ⟨hw, h⟩ (Nat.le_refl _))

/-- With terms something has been read. -/
theorem termsAbove_holds (steps : Nat) (w : J.World) :
    J.Holds w (termsAbove (beneath room) steps) (termsAbove (beneath room') steps)
      fun w' es es' => Chained (P.Tree (simpleHeight room + room)) w w' es es' ∧
        (es ≠ [] ∨ J.Inside w → J.Inside w') := by
  induction steps generalizing w with
  | zero => exact J.pure ⟨.nil, fun h => h.resolve_left fun hne => hne rfl⟩
  | succ steps ih =>
    refine J.bind (termAbove_holds hrooms hbelow w) fun w₁ o o' _ ho => ?_
    cases ho with
    | none => exact J.pure ⟨.nil, fun h => h.resolve_left fun hne => hne rfl⟩
    | some hw h =>
      refine J.bind (ih w₁) fun w₂ es es' _ hes => J.pure ⟨.cons h hes.1, fun _ => ?_⟩
      exact hes.2 (.inr hw)

theorem sequenceAbove_holds (hends : J.Skewed → ∀ room, SelfEnding (termsAbove (beneath room)))
    (w : J.World) :
    J.Holds w (sequenceAbove (beneath room)) (sequenceAbove (beneath room'))
      (P.Found (operandHeight room .product) w) := by
  refine J.steps (fun n => ?_) fun h => ⟨(hends h room).bind _, (hends h room').bind _⟩
  refine J.bind (termsAbove_holds hrooms hbelow n w) fun w₁ es es' _ hes => ?_
  obtain ⟨hes, hinside⟩ := hes
  cases hes with
  | nil => exact J.pure .none
  | cons h hrest =>
    have hw := hinside (.inl (List.cons_ne_nil _ _))
    cases hrest with
    | nil => exact J.pure (.some hw (P.higher (Nat.le_succ _) h))
    | cons h' hrest =>
      exact found_of_tree hw (P.application hw (.cons h (.cons h' hrest)) (by simp))

theorem foldAbove_holds {tier : Tier} {n : Nat} {w w₁ : J.World} {e e' : Expr}
    (h : P.Read n w w₁ e e') (hn : operandHeight room tier ≤ n) :
    J.Holds w₁ (foldAbove (beneath room) tier e) (foldAbove (beneath room') tier e')
      (P.Read (n + room) w) := by
  have hstay : P.Read (n + room) w w₁ e e' := h.higher (Nat.le_add_right n room)
  refine J.next (.leaving e e' hstay fun o ho => ?_) fun token span _ => ?_
  · cases o with
    | none => exact ⟨rfl, rfl⟩
    | some token =>
      have hoperator : operatorOf? tier token = none := by
        rw [operatorOf?, if_neg (ho.kind_ne (.inr rfl))]
      dsimp only
      rw [hoperator]
      exact ⟨rfl, rfl⟩
  · dsimp only
    rw [show operatorOf? tier { token with span } = operatorOf? tier token from rfl]
    cases hop : operatorOf? tier token with
    | none => exact .left hstay
    | some op =>
      refine .taken fun w₂ h₂ => nested_holds hrooms hbelow (J.inside h₂) ?_
      rintro lower rfl g' hlevel
      have hmono := operandHeight_le_succ lower tier
      have hoperand : J.Holds w₂ ((ofRoom lower).operand tier) (g'.operand tier)
          (P.Found (operandHeight lower tier) w₂) := by
        cases tier with
        | sum => exact hlevel.product w₂
        | product => exact hlevel.sequence w₂
      refine J.bind hoperand fun w₃ o o' _ ho => ?_
      cases ho with
      | none => exact J.fail (J.inside h₂) _ _
      | some hw h' =>
        have hnode := P.operation hw h.tree hop h₂ (P.higher (by omega) h')
        refine J.bind hnode fun w₄ d d' hin hd => ?_
        exact (hlevel.fold ⟨hin hw, hd⟩ (by omega)).post fun _ _ _ _ hmore =>
          hmore.higher (by omega)

theorem productAbove_holds (hends : J.Skewed → ∀ room, SelfEnding (termsAbove (beneath room)))
    (w : J.World) :
    J.Holds w (productAbove (beneath room)) (productAbove (beneath room'))
      (P.Found (operandHeight room .sum) w) := by
  refine J.bind (sequenceAbove_holds hrooms hbelow hends w) fun w₁ o o' _ ho => ?_
  cases ho with
  | none => exact J.pure .none
  | some hw h => exact found_of_read (foldAbove_holds hrooms hbelow ⟨hw, h⟩ (Nat.le_refl _))

theorem sumAbove_holds (hends : J.Skewed → ∀ room, SelfEnding (termsAbove (beneath room)))
    (w : J.World) :
    J.Holds w (sumAbove (beneath room)) (sumAbove (beneath room'))
      (P.Found (simpleHeight (room + 1)) w) := by
  refine J.bind (productAbove_holds hrooms hbelow hends w) fun w₁ o o' _ ho => ?_
  cases ho with
  | none => exact J.pure .none
  | some hw h => exact found_of_read (foldAbove_holds hrooms hbelow ⟨hw, h⟩ (Nat.le_refl _))

theorem typeAlias_holds {w w₁ : J.World} (htype : TookWord J.Took .name "type" w w₁) :
    J.Holds w₁ (typeAlias (beneath room)) (typeAlias (beneath room'))
      fun w' _ _ => P.Declared w w' := by
  have hw := J.inside_of_word htype
  refine J.bind (J.name hw) fun w₂ x y hin hx => ?_
  obtain ⟨rfl, hname⟩ := hx
  refine J.bind (J.expect (by decide) (hin hw) _) fun w₃ _ _ _ hequals => ?_
  have hw₃ := J.inside_of_word hequals
  refine J.bind (nested_functionTy_holds hrooms hbelow hw₃) fun w₄ t t' hin ht => ?_
  exact P.aliasing hrooms (hin hw₃) htype hname hequals ht

theorem lambda_holds (hends : J.Skewed → SelfEnding namesWithin) {w w₁ : J.World}
    (hslash : TookWord J.Took .symbol "\\" w w₁) :
    J.Holds w₁ (lambda (beneath room)) (lambda (beneath room'))
      (P.Read (simpleHeight (room + 1)) w) := by
  have hlt := simpleHeight_lt_succ room
  have hw₁ := J.inside_of_word hslash
  refine J.bind (J.names hends w₁) fun w₂ params params' hin hparams => ?_
  obtain ⟨rfl, hparams⟩ := hparams
  refine J.bind (J.expect (by decide) (hin hw₁) _) fun w₃ _ _ _ harrow => ?_
  have hw₃ := J.inside_of_word harrow
  refine J.bind (nested_inner_holds hrooms hbelow hw₃) fun w₄ e e' _ he => J.pure ⟨he.inside, ?_⟩
  exact P.higher hlt (P.lambda hslash hparams harrow he.tree)

theorem definition_holds {n : Nat} {w w₁ w₂ : J.World} {e e' : Expr} (h : P.Tree n w w₁ e e')
    (hequals : TookWord J.Took .symbol "=" w₁ w₂) :
    J.Holds w₂ (definition (beneath room) e) (definition (beneath room') e')
      (P.Read (simpleHeight (room + 1)) w) := by
  have hinner (v : J.World) (hv : J.Inside v) := (nested_inner_holds hrooms hbelow hv).post
    fun _ _ _ _ he => he.tree
  refine (P.definition hrooms hinner h hequals).post fun w₃ d d' hin hd => ?_
  exact ⟨hin (J.inside_of_word hequals), P.higher (simpleHeight_lt_succ room) hd⟩

theorem statementAbove_holds (hnames : J.Skewed → SelfEnding namesWithin)
    (hends : J.Skewed → ∀ room, SelfEnding (termsAbove (beneath room))) (w : J.World) :
    J.Holds w (statementAbove (beneath room)) (statementAbove (beneath room'))
      (P.Stated (simpleHeight (room + 1)) w) := by
  refine J.bind (J.accept (.inl rfl) _ w) fun w₁ b b' _ hb => ?_
  cases hb with
  | yes htype =>
    refine J.bind (typeAlias_holds hrooms hbelow htype) fun w₂ _ _ hin h => ?_
    exact J.pure (.declaration (hin (J.inside_of_word htype)) h)
  | no =>
    refine J.bind (J.accept (.inr rfl) _ w) fun w₁ b b' _ hb => ?_
    cases hb with
    | yes hslash =>
      exact J.bind (lambda_holds hrooms hbelow hnames hslash) fun w₂ e e' _ he =>
        J.pure (.expression he)
    | no =>
      refine J.bind (sumAbove_holds hrooms hbelow hends w) fun w₁ o o' _ ho => ?_
      cases ho with
      | none => exact J.pure .none
      | some hw h =>
        refine J.bind (J.accept (.inr rfl) _ w₁) fun w₂ b b' _ hb => ?_
        cases hb with
        | yes hcolon =>
          have htyping := P.typing hrooms
            (fun v hv => nested_functionTy_holds hrooms hbelow hv) h hcolon
          exact J.bind htyping fun _ _ _ hin h =>
            J.pure (.declaration (hin (J.inside_of_word hcolon)) h)
        | no =>
          refine J.bind (J.accept (.inr rfl) _ w₁) fun w₂ b b' _ hb => ?_
          cases hb with
          | yes hequals =>
            exact J.bind (definition_holds hrooms hbelow h hequals) fun w₃ d d' _ hd =>
              J.pure (.expression hd)
          | no => exact J.pure (.expression ⟨hw, h⟩)

theorem innerAbove_holds (hnames : J.Skewed → SelfEnding namesWithin)
    (hends : J.Skewed → ∀ room, SelfEnding (termsAbove (beneath room))) {w : J.World}
    (hw : J.Inside w) :
    J.Holds w (innerAbove (beneath room)) (innerAbove (beneath room'))
      (P.Read (simpleHeight (room + 1)) w) := by
  refine J.bind (statementAbove_holds hrooms hbelow hnames hends w) fun w₁ o o' hin ho => ?_
  cases ho with
  | expression h => exact J.pure h
  | declaration => exact J.fail (hin hw) _ _
  | none =>
    refine J.next (.failing hw fun o _ => ?_) fun token span _ => .taken fun w₂ h₂ =>
      J.fail (J.inside h₂) _ _
    cases o with
    | none => exact ⟨_, rfl⟩
    | some token => exact ⟨_, rfl⟩

theorem above_level (hnames : J.Skewed → SelfEnding namesWithin)
    (hends : J.Skewed → ∀ room, SelfEnding (termsAbove (beneath room))) :
    P.Level room (above (beneath room)) (above (beneath room')) where
  functionTy := functionTyAbove_holds hrooms hbelow
  tyAtom := tyAtomAbove_holds hrooms hbelow
  simpleTerm := simpleTermAbove_holds hrooms hbelow
  members := membersAbove_holds hrooms hbelow
  sequence := sequenceAbove_holds hrooms hbelow hends
  product := productAbove_holds hrooms hbelow hends
  fold := foldAbove_holds hrooms hbelow
  statement := statementAbove_holds hrooms hbelow hnames hends
  inner := innerAbove_holds hrooms hbelow hnames hends

omit hrooms hbelow

/-- What is said of the productions is said of all that is read. -/
theorem ofRoom_level (hnames : J.Skewed → SelfEnding namesWithin)
    (hends : J.Skewed → ∀ room, SelfEnding (termsAbove (beneath room)))
    (hrooms : P.Rooms room room') : P.Level room (ofRoom room) (ofRoom room') := by
  induction room generalizing room' with
  | zero =>
    rw [ofRoom_eq_above, ofRoom_eq_above room']
    refine above_level hrooms ?_ hnames hends
    rintro lower lower' ⟨⟩
  | succ room ih =>
    rw [ofRoom_eq_above, ofRoom_eq_above room']
    refine above_level hrooms ?_ hnames hends
    rintro lower lower' ⟨⟩ rfl
    exact ih (P.rooms hrooms)

end Grammar

end Offside
