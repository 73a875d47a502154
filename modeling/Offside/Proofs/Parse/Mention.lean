import Offside.Proofs.Parse.Frame

namespace Offside

namespace TokenStream

/-- The tokens that are read in so many steps. -/
def upTo : (steps : Nat) → TokenStream → List Token
  | 0, _ => []
  | steps + 1, s =>
    match s.next with
    | .ok o t => o.toList ++ t.upTo steps
    | .error _ _ => []

/-- The name is among the tokens to come. -/
def Mentions (s : TokenStream) (x : String) : Prop :=
  ∃ steps, ∃ t ∈ s.upTo steps, t.kind = .name ∧ t.text = x

variable {s t : TokenStream} {token : Token} {x : String}

theorem mentions_of_next (h : s.next = .ok (some token) t) (hk : token.kind = .name) :
    s.Mentions token.text := by
  refine ⟨1, token, ?_, hk, rfl⟩
  rw [upTo, h]
  exact List.mem_cons_self

theorem mentions_of_rest {o : Option Token} (h : s.next = .ok o t) (hx : t.Mentions x) :
    s.Mentions x := by
  obtain ⟨steps, token, ht, hk, hx⟩ := hx
  refine ⟨steps + 1, token, ?_, hk, hx⟩
  rw [upTo, h]
  exact List.mem_append_right _ ht

theorem mentions_of_push (h : (s.push token).Mentions x) :
    token.kind = .name ∧ token.text = x ∨ s.Mentions x := by
  obtain ⟨steps, u, hu, hk, hx⟩ := h
  cases steps with
  | zero => cases hu
  | succ steps =>
    have hnext : (s.push token).next = .ok (some token) s := rfl
    rw [upTo, hnext] at hu
    obtain rfl | hu := List.mem_cons.1 hu
    · exact .inl ⟨hk, hx⟩
    · exact .inr ⟨steps, u, hu, hk, hx⟩

end TokenStream

namespace Parse

variable {α β : Type} {N : String → Prop}

/-- Two states with the same tokens, which mention no names but those in `N`. The contexts agree on
these, and on aliases. -/
structure Agreeing (N : String → Prop) (s t : ParseState) : Prop where
  tokens : t.tokens = s.tokens
  mentions (x : String) : s.tokens.Mentions x → N x
  alias? (x : String) : t.context.alias? x = s.context.alias? x
  value? (x : String) : N x → t.context.value? x = s.context.value? x

/-- In agreeing states the parser gives the same, which has `Q`, or fails with the same error. -/
def Concurs (N : String → Prop) (p : Parse α) (Q : α → Prop) : Prop :=
  ∀ s t, Agreeing N s t →
    (∃ a s' t', p s = .ok a s' ∧ p t = .ok a t' ∧ Agreeing N s' t' ∧ Q a) ∨
      ∃ e s' t', p s = .error e s' ∧ p t = .error e t'

namespace Concurs

variable {p : Parse α} {f : α → Parse β} {Q : α → Prop} {R : β → Prop}

theorem pure {a : α} (h : Q a) : Concurs N (Pure.pure a) Q :=
  fun s t hst => .inl ⟨a, s, t, rfl, rfl, hst, h⟩

theorem throw (e : Error) : Concurs N (MonadExcept.throw e) Q :=
  fun s t _ => .inr ⟨e, s, t, rfl, rfl⟩

theorem fail (cause : ParseError) : Concurs N (Parse.fail cause) Q := throw _

theorem check {r : Except Error α} (h : ∀ a, r = .ok a → Q a) : Concurs N (Parse.check r) Q := by
  cases r with
  | ok a => exact pure (h a rfl)
  | error e => exact throw e

theorem bind (hp : Concurs N p Q) (hf : ∀ a, Q a → Concurs N (f a) R) :
    Concurs N (p >>= f) R := by
  intro s t hst
  obtain ⟨a, s', t', hs, ht, hst', ha⟩ | ⟨e, s', t', hs, ht⟩ := hp s t hst
  · rw [bind_of_ok hs, bind_of_ok ht]
    exact hf a ha s' t' hst'
  · rw [bind_of_error hs, bind_of_error ht]
    exact .inr ⟨e, s', t', rfl, rfl⟩

theorem post {Q' : α → Prop} (h : Concurs N p Q) (hQ : ∀ a, Q a → Q' a) : Concurs N p Q' := by
  rw [← bind_pure p]
  exact h.bind fun a ha => pure (hQ a ha)

theorem next : Concurs N Parse.next fun o => ∀ t ∈ o, t.kind = .name → N t.text := by
  intro s t hst
  unfold Parse.next
  rw [hst.tokens]
  cases h : s.tokens.next with
  | ok o rest =>
    refine .inl ⟨o, _, _, rfl, rfl, ⟨rfl, fun x hx => ?_, hst.alias?, hst.value?⟩, ?_⟩
    · exact hst.mentions x (TokenStream.mentions_of_rest h hx)
    · rintro token rfl hk
      exact hst.mentions _ (TokenStream.mentions_of_next h hk)
  | error e rest => exact .inr ⟨e, _, _, rfl, rfl⟩

theorem push {token : Token} (h : token.kind = .name → N token.text) :
    Concurs N (Parse.push token) fun _ => True := by
  intro s t hst
  have htokens : t.tokens.push token = s.tokens.push token := by rw [hst.tokens]
  refine .inl ⟨(), _, _, rfl, rfl, ⟨htokens, fun x hx => ?_, hst.alias?, hst.value?⟩, trivial⟩
  obtain ⟨hk, rfl⟩ | hx := TokenStream.mentions_of_push hx
  · exact h hk
  · exact hst.mentions x hx

theorem steps : Concurs N Parse.steps fun _ => True := by
  intro s t hst
  refine .inl ⟨s.tokens.size + 1, s, t, rfl, ?_, hst, trivial⟩
  rw [← hst.tokens]
  rfl

theorem valueTy? {x : String} (h : N x) : Concurs N (Parse.valueTy? x) fun _ => True := by
  intro s t hst
  refine .inl ⟨s.context.value? x, s, t, rfl, ?_, hst, trivial⟩
  rw [← hst.value? x h]
  rfl

theorem setValue (x : String) (ty : Ty) : Concurs N (Parse.setValue x ty) fun _ => True := by
  intro s t hst
  refine .inl ⟨(), _, _, rfl, rfl, ⟨hst.tokens, hst.mentions, hst.alias?, fun y hy => ?_⟩, trivial⟩
  show (t.context.setValue x ty).value? y = (s.context.setValue x ty).value? y
  rw [Context.value?_setValue, Context.value?_setValue, hst.value? y hy]

theorem setAlias (x : String) (ty : Ty) : Concurs N (Parse.setAlias x ty) fun _ => True := by
  intro s t hst
  refine .inl ⟨(), _, _, rfl, rfl, ⟨hst.tokens, hst.mentions, fun y => ?_, hst.value?⟩, trivial⟩
  show (t.context.setAlias x ty).alias? y = (s.context.setAlias x ty).alias? y
  rw [Context.alias?_setAlias, Context.alias?_setAlias, hst.alias? y]

/-- What a parser that stays in its scope does in a scope of its own is not seen afterwards. -/
theorem inScope (h : Concurs N p Q) (hstays : Stays p) : Concurs N (Parse.inScope p) Q := by
  have hleft {s u : ParseState} {a : α} (hu : p { s with context := s.context.enter } = .ok a u) :
      u.context.exit = s.context := by
    have houter := (hstays s.context.scopes).ok rfl hu
    rw [Context.exit, houter]
    rfl
  intro s t hst
  unfold Parse.inScope
  obtain ⟨a, s', t', hs, ht, hst', ha⟩ | ⟨e, s', t', hs, ht⟩ :=
    h { s with context := s.context.enter } { t with context := t.context.enter }
      ⟨hst.tokens, hst.mentions, hst.alias?, hst.value?⟩
  · rw [hs, ht]
    refine .inl ⟨a, _, _, rfl, rfl, ⟨hst'.tokens, hst'.mentions, fun x => ?_, fun x hx => ?_⟩, ha⟩
    · rw [hleft hs, hleft ht]
      exact hst.alias? x
    · rw [hleft hs, hleft ht]
      exact hst.value? x hx
  · rw [hs, ht]
    exact .inr ⟨e, _, _, rfl, rfl⟩

theorem leave {a : α} {o : Option Token} (ho : ∀ t ∈ o, t.kind = .name → N t.text) (h : Q a) :
    Concurs N (Parse.leave a o) Q := by
  cases o with
  | none => exact pure h
  | some t => exact (push (ho t rfl)).bind fun _ _ => pure h

theorem comesNext (kind : TokenKind) (text : String) :
    Concurs N (Parse.comesNext kind text) fun _ => True := by
  refine next.bind fun o ho => ?_
  cases o with
  | none => exact pure trivial
  | some t => exact (push (ho t rfl)).bind fun _ _ => pure trivial

end Concurs

/-- The second of two parsers is not looked at: the first one is run twice. -/
abbrev concurrence (N : String → Prop) : Judgement where
  World := Unit
  Holds w p _ R := Concurs N p fun a => ∃ b, R w a b
  Inside _ := True
  Took _ token _ := token.kind = .name → N token.text
  Skewed := False
  inside _ := trivial
  pure {_ _ _ b _} h := .pure ⟨b, h⟩
  bind h hf := h.bind fun a ⟨b, hab⟩ => hf () a b id hab
  fail _ cause _ := .fail cause
  next hstop hword := by
    refine Concurs.next.bind fun o ho => ?_
    cases goes_of_stops _ hstop hword o with
    | leaving a b h hf =>
      rw [hf]
      exact .leave ho ⟨b, h⟩
    | failing _ hf =>
      rw [hf]
      exact .fail _
    | taking h => exact h () (ho _ rfl)
  expect {kind _} _ _ text := by
    have haccept : Concurs N (accept kind text) fun b =>
        b = true → ∃ token : Token, token.is kind text = true ∧
          (token.kind = .name → N token.text) := by
      refine Concurs.next.bind fun o ho => ?_
      cases o with
      | none => exact .pure nofun
      | some token =>
        dsimp only
        split
        · next htoken => exact .pure fun _ => ⟨token, htoken, ho token rfl⟩
        · exact (Concurs.push (ho token rfl)).bind fun _ _ => .pure nofun
    refine haccept.bind fun b hb => ?_
    cases b with
    | false => exact .fail _
    | true => exact .pure ⟨(), hb rfl⟩
  steps h _ := Concurs.steps.bind fun n _ => h n

end Parse

namespace Expr

/-- The name that a tree may be a definition of: its own, or that of the callee. -/
def target? : Expr → Option String
  | .name x _ => some x
  | .apply callee _ => callee.asName?
  | _ => none

/-- A tree that can only be the definition of a name in `N`. -/
def Targets (N : String → Prop) (e : Expr) : Prop := ∀ x, e.target? = some x → N x

variable {N : String → Prop}

theorem targets_of_target? {e : Expr} (h : e.target? = none) : e.Targets N := by
  intro x hx
  rw [h] at hx
  cases hx

theorem operation_target? (op : Operator) (left right : Expr) :
    (operation op left right).target? = none := by
  cases op <;> rfl

theorem target?_of_asName? {e : Expr} {x : String} (h : e.asName? = some x) :
    e.target? = some x := by
  cases e with
  | name y t => exact h
  | _ => cases h

theorem target?_of_headNames? {e : Expr} {x : String} {xs : List String}
    (h : e.headNames? = some (x :: xs)) : e.target? = some x := by
  cases e with
  | apply callee arguments =>
    have hmap : (callee :: arguments).map asName? = (x :: xs).map some := map_asName? h
    exact (List.cons.inj hmap).1
  | _ => cases h

theorem targets_of_checkedApply {terms : List Expr} {expected : Option Ty} {e : Expr}
    (hterms : ∀ t ∈ terms, t.Targets N) (h : checkedApply terms expected = .ok e) :
    e.Targets N := by
  obtain ⟨callee, arguments, rfl, rfl⟩ := eq_apply_of_checked h
  exact fun x hx => hterms callee List.mem_cons_self x (target?_of_asName? hx)

theorem targets_of_mapM_asName? {terms : List Expr} {names : List String}
    (hterms : ∀ t ∈ terms, t.Targets N) (h : terms.mapM asName? = some names) :
    ∀ x ∈ names, N x := by
  intro x hx
  obtain ⟨e, he, hname⟩ := exists_asName?_of_mapM h x hx
  exact hterms e he x (target?_of_asName? hname)

end Expr

namespace Grammar

open Parse Offside.Expr

variable {N : String → Prop}

theorem resolveTy_concurs (x : String) : Concurs N (resolveTy x) fun _ => True := by
  intro s t hst
  have hsame : (Ty.ofName? x).or (t.context.alias? x) =
      (Ty.ofName? x).or (s.context.alias? x) := by rw [hst.alias?]
  cases hs : (Ty.ofName? x).or (s.context.alias? x) with
  | some ty =>
    exact .inl ⟨ty, s, t, resolveTy_of_some hs, resolveTy_of_some (hsame.trans hs), hst, trivial⟩
  | none => exact .inr ⟨_, s, t, resolveTy_of_none hs, resolveTy_of_none (hsame.trans hs)⟩

theorem integer_concurs (digits : String) : Concurs N (integer digits) (Targets N) := by
  unfold integer
  dsimp only
  split
  · exact .pure (targets_of_target? rfl)
  · exact .fail _

theorem word_concurs {x : String} (hx : N x) : Concurs N (word x) (Targets N) := by
  unfold word
  split
  · exact .pure (targets_of_target? rfl)
  · split
    · exact .pure (targets_of_target? rfl)
    · refine (Concurs.valueTy? hx).bind fun t _ => .pure ?_
      rintro y ⟨⟩
      exact hx

theorem application_concurs {terms : List Expr} (hterms : ∀ e ∈ terms, e.Targets N) :
    Concurs N (application terms) (Targets N) := by
  refine (Concurs.comesNext _ _).bind fun b _ => ?_
  split
  · split
    · next names hnames =>
      refine .check fun e he => targets_of_checkedApply (List.forall_mem_map.2 ?_) he
      rintro x hx y ⟨⟩
      exact targets_of_mapM_asName? hterms hnames x hx
    · exact .check fun e he => targets_of_checkedApply hterms he
  · exact .check fun e he => targets_of_checkedApply hterms he

theorem bindParams_concurs (name : String) (params : List String) (declared : Option Ty) :
    Concurs N (bindParams name params declared) fun _ => True := by
  cases declared with
  | none => exact .pure trivial
  | some t =>
    unfold bindParams
    dsimp only
    split
    · next typed htyped =>
      clear htyped
      induction typed with
      | nil => exact .pure trivial
      | cons p ps ih => exact (Concurs.setValue p.1 p.2).bind fun _ _ => ih
    · exact .throw _

section

variable {below : Option Grammar} (hinner : Concurs N (nested below inner) (Targets N))
include hinner

theorem functionDefinition_concurs (hstays : Stays (nested below inner)) {name : String}
    (hname : N name) (params : List String) :
    Concurs N (functionDefinition below name params) (Targets N) := by
  refine (Concurs.valueTy? hname).bind fun declared _ => ?_
  have hbody := (bindParams_concurs name params declared).bind fun _ _ => hinner
  have hscope := (bindParams_stays name params declared).bind fun _ => hstays
  exact (hbody.inScope hscope).bind fun body _ => .pure (targets_of_target? rfl)

theorem variableDefinition_concurs {name : String} (hname : N name) :
    Concurs N (variableDefinition below name) (Targets N) := by
  refine (Concurs.valueTy? hname).bind fun declared _ => hinner.bind fun value _ => ?_
  refine Concurs.bind (Q := Targets N) (.check fun e he => ?_) fun e he => ?_
  · rw [eq_define_of_checked he]
    exact targets_of_target? rfl
  · split
    · exact (Concurs.setValue _ _).bind fun _ _ => .pure he
    · exact .pure he

theorem definition_concurs (hstays : Stays (nested below inner)) (target : Expr)
    (htarget : target.Targets N) : Concurs N (definition below target) (Targets N) := by
  unfold definition
  split
  · next name params hnames =>
    have hname := htarget name (target?_of_headNames? hnames)
    exact functionDefinition_concurs hinner hstays hname params
  · next name t _ => exact variableDefinition_concurs hinner (htarget name rfl)
  · exact .fail _

end

abbrev concurrent (N : String → Prop) : Productions (concurrence N) where
  Rooms room room' := room' = room
  Typed _ _ _ _ _ := True
  Tree _ _ _ e _ := e.Targets N
  Declared _ _ := True
  rooms h := Nat.succ.inj h
  cut h := nomatch h
  resolve _ _ _ := (resolveTy_concurs _).post fun t _ => ⟨t, trivial⟩
  deeper _ := trivial
  list _ _ := trivial
  groupTy _ _ _ := trivial
  arrow _ _ _ := trivial
  higher _ h := h
  integer _ _ := (integer_concurs _).post fun e he => ⟨e, he⟩
  float _ _ := targets_of_target? rfl
  string _ _ := targets_of_target? rfl
  word hkind h := (word_concurs (h hkind)).post fun e he => ⟨e, he⟩
  group _ h _ := h
  member _ _ _ := targets_of_target? rfl
  application _ h _ :=
    (application_concurs (h.forall_mem fun _ _ _ _ he => he)).post fun e he => ⟨e, he⟩
  operation _ _ _ _ _ := .check fun d hd => by
    rw [eq_operation_of_checked hd]
    exact ⟨d, targets_of_target? (operation_target? _ _ _)⟩
  lambda _ _ _ _ := targets_of_target? rfl
  aliasing _ _ _ _ _ _ := (Concurs.setAlias _ _).post fun _ _ => ⟨(), trivial⟩
  typing {_ _ _ _ _ _ e _} _ hty _ _ := by
    cases e with
    | name x t =>
      refine Concurs.bind (hty () trivial) fun t _ => ?_
      exact (Concurs.setValue x t).post fun _ _ => ⟨(), trivial⟩
    | _ => exact .fail _
  definition {_ _ room _ _ _ _ e _} _ hinner h _ := by
    have hinner := Concurs.post (hinner () trivial) fun _ ⟨_, he⟩ => he
    have hstays := (nested_inner_assigns room).stays
    exact (definition_concurs hinner hstays e h).post fun d hd => ⟨d, hd⟩

theorem nested_inner_concurs (N : String → Prop) (room : Nat) :
    Concurs N (nested (beneath room) inner) (Targets N) := by
  have hbelow (lower lower' : Nat) (h : room = lower + 1) (h' : room = lower' + 1) :
      (concurrent N).Level lower (ofRoom lower) (ofRoom lower') :=
    ofRoom_level nofun nofun (Nat.succ.inj (h'.symm.trans h))
  have h := nested_inner_holds (P := concurrent N) rfl hbelow (w := ()) trivial
  exact Concurs.post h fun e ⟨_, he⟩ => he.tree

end Grammar

end Offside
