import Offside.Proofs.Expr.Alike
import Offside.Proofs.Parse.Frame

namespace Offside

/-- `d` has the aliases of `c` and no types of values but those of `c`. -/
structure Context.Within (d c : Context) : Prop where
  alias? (x : String) : d.alias? x = c.alias? x
  value? (x : String) (t : Ty) : d.value? x = some t → c.value? x = some t

namespace Context

theorem Within.setAlias {c d : Context} (h : d.Within c) (x : String) (t : Ty) :
    (d.setAlias x t).Within (c.setAlias x t) where
  alias? y := by rw [alias?_setAlias, alias?_setAlias, h.alias?]
  value? y u hy := h.value? y u hy

theorem Within.setValue {c d : Context} (h : d.Within c) (x : String) (t : Ty) :
    (d.setValue x t).Within (c.setValue x t) where
  alias? y := h.alias? y
  value? y u := by
    rw [value?_setValue, value?_setValue]
    split
    · exact id
    · exact h.value? y u

/-- The type found for a name is kept only if none was known. -/
def record (c : Context) (x : String) (declared found : Option Ty) : Context :=
  match declared, found with
  | none, some t => c.setValue x t
  | _, _ => c

theorem alias?_record (c : Context) (x y : String) (declared found : Option Ty) :
    (c.record x declared found).alias? y = c.alias? y := by
  unfold record
  split <;> rfl

theorem value?_record (c : Context) (x y : String) (declared found : Option Ty) :
    (c.record x declared found).value? y =
      if y = x ∧ declared = none ∧ found ≠ none then found else c.value? y := by
  unfold record
  split
  · rw [value?_setValue]
    simp
  · next hneither =>
    rw [if_neg]
    rintro ⟨-, rfl, hfound⟩
    obtain ⟨t, ht⟩ := Option.ne_none_iff_exists'.1 hfound
    exact hneither t rfl ht

end Context

/-- A node that does not define a name within its own value, and defines no function. -/
def Expr.Settled : Expr → Prop
  | .define x value _ => x ∉ value.assigned
  | .function _ _ _ _ => False
  | _ => True

/-- How two runs go on: alike, or without anything that can be said of the second one. -/
inductive Accord where
  | alike
  | lost

/-- What has been read between two points: `kept` holds if the runs are still alike, and `lost` if
they no longer are. -/
inductive Accord.Since (kept lost : Prop) : Accord → Accord → Prop
  | alike (h : kept) : Since kept lost .alike .alike
  | losing (h : lost) : Since kept lost .alike .lost
  | lost : Since kept lost .lost .lost

namespace Accord

variable {kept kept' kept'' lost lost' lost'' : Prop} {w w₁ w₂ : Accord}

theorem Since.intro (h : kept) (w : Accord) : Since kept lost w w := by
  cases w with
  | alike => exact .alike h
  | lost => exact .lost

theorem Since.trans (h : Since kept lost w w₁) (h' : Since kept' lost' w₁ w₂)
    (hkept : kept → kept' → kept'') (hlost : lost ∨ lost' → lost'') :
    Since kept'' lost'' w w₂ := by
  cases h with
  | alike h =>
    cases h' with
    | alike h' => exact .alike (hkept h h')
    | losing h' => exact .losing (hlost (.inr h'))
  | losing h =>
    cases h'
    exact .losing (hlost (.inl h))
  | lost =>
    cases h'
    exact .lost

theorem Since.mono (h : Since kept lost w w₁) (hkept : kept → kept') (hlost : lost → lost') :
    Since kept' lost' w w₁ := by
  cases h with
  | alike h => exact .alike (hkept h)
  | losing h => exact .losing (hlost h)
  | lost => exact .lost

end Accord

namespace Parse

open Accord

variable {α β γ δ : Type} {less : Prop} {w : Accord}

/-- Two states with the same tokens. If `less` holds, less is known in the second one. -/
structure Paired (less : Prop) (s t : ParseState) : Prop where
  tokens : t.tokens = s.tokens
  within : less → t.context.Within s.context

/-- What `p` gives is related to what `q` gives in a paired state. Only a type error can stop `q`
where `p` comes to an end, and only if `less` does not hold. If it does, the runs may be lost. -/
def Follows (less : Prop) (w : Accord) (p : Parse α) (q : Parse β) (R : Accord → α → β → Prop) :
    Prop :=
  match w with
  | .alike => ∀ s t a s', Paired less s t → p s = .ok a s' →
    (∃ b t', q t = .ok b t' ∧ Paired less s' t' ∧ R .alike a b) ∨
      (¬ less ∧ ∃ cause t', q t = .error (.type cause) t') ∨ less ∧ ∃ b, R .lost a b
  | .lost => ∀ s a s', p s = .ok a s' → ∃ b, R .lost a b

namespace Follows

variable {p : Parse α} {q : Parse β} {R : Accord → α → β → Prop} {S : Accord → γ → δ → Prop}

theorem pure {a : α} {b : β} (h : R w a b) : Follows less w (Pure.pure a) (Pure.pure b) R := by
  cases w with
  | alike =>
    rintro s t a' s' hst ⟨⟩
    exact .inl ⟨b, t, rfl, hst, h⟩
  | lost =>
    rintro s a' s' ⟨⟩
    exact ⟨b, h⟩

theorem fail (cause : ParseError) (q : Parse β) : Follows less w (Parse.fail cause) q R := by
  cases w with
  | alike => exact fun _ _ _ _ _ h => nomatch h
  | lost => exact fun _ _ _ h => nomatch h

theorem check {r : Except Error α} {r' : Except Error β}
    (h : Expr.Carries less (R .alike) r r') :
    Follows less .alike (Parse.check r) (Parse.check r') R := by
  intro s t a s' hst hp
  cases r with
  | error e => cases hp
  | ok a' =>
    cases hp
    obtain ⟨b, rfl, hab⟩ | ⟨hless, cause, rfl⟩ := h a rfl
    · exact .inl ⟨b, t, rfl, hst, hab⟩
    · exact .inr (.inl ⟨hless, cause, t, rfl⟩)

theorem bind {f : α → Parse γ} {g : β → Parse δ} (hp : Follows less w p q R)
    (hf : ∀ w' a b, R w' a b → Follows less w' (f a) (g b) S) :
    Follows less w (p >>= f) (q >>= g) S := by
  cases w with
  | alike =>
    intro s t c s' hst hc
    obtain ⟨a, u, ha, hc⟩ := bind_ok hc
    obtain ⟨b, v, hb, huv, hab⟩ | ⟨hless, cause, v, hb⟩ | ⟨hless, b, hab⟩ := hp s t a u hst ha
    · rw [bind_of_ok hb]
      exact hf .alike a b hab u v c s' huv hc
    · exact .inr (.inl ⟨hless, cause, v, by rw [bind_of_error hb]⟩)
    · exact .inr (.inr ⟨hless, hf .lost a b hab u c s' hc⟩)
  | lost =>
    intro s c s' hc
    obtain ⟨a, u, ha, hc⟩ := bind_ok hc
    obtain ⟨b, hab⟩ := hp s a u ha
    exact hf .lost a b hab u c s' hc

theorem post {R' : Accord → α → β → Prop} (h : Follows less w p q R)
    (hR : ∀ w' a b, R w' a b → R' w' a b) : Follows less w p q R' := by
  rw [← bind_pure p, ← bind_pure q]
  exact h.bind fun w' a b hab => pure (hR w' a b hab)

/-- What does not depend on the context is read alike. -/
theorem blind {p : Parse α} (h : Blind p) :
    Follows less w p p fun w' a b => w' = w ∧ b = a := by
  cases w with
  | alike =>
    intro s t a s' hst hp
    obtain ⟨hcontext, hd⟩ := h.ok hp t.context
    rw [← hst.tokens] at hd
    refine .inl ⟨a, _, hd, ⟨rfl, fun hless => ?_⟩, rfl, rfl⟩
    rw [hcontext]
    exact hst.within hless
  | lost => exact fun _ a _ _ => ⟨a, rfl, rfl⟩

theorem blindBind {p : Parse α} (h : Blind p) {f : α → Parse γ} {g : α → Parse δ}
    (hf : ∀ a, Follows less w (f a) (g a) S) : Follows less w (p >>= f) (p >>= g) S := by
  refine (blind h).bind ?_
  rintro _ _ _ ⟨rfl, rfl⟩
  exact hf _

theorem leave {a : α} {b : β} (h : R w a b) (o : Option Token) :
    Follows less w (Parse.leave a o) (Parse.leave b o) R := by
  cases o with
  | none => exact pure h
  | some token => exact .blindBind (.push token) fun _ => pure h

/-- Runs that are lost stay so. -/
theorem since {p q : Parse α} {kept : α → α → Prop} {lost : α → Prop}
    (h : w = .alike → Follows less .alike p q fun w' a b => Since (kept a b) (lost a) .alike w') :
    Follows less w p q fun w' a b => Since (kept a b) (lost a) w w' := by
  cases w with
  | alike => exact h rfl
  | lost => exact fun _ a _ _ => ⟨a, .lost⟩

/-- What has been read before goes with what is read now. -/
theorem after {w₁ : Accord} {p q : Parse α} {kept lost : Prop} {kept' : α → α → Prop}
    {lost' : α → Prop} (h : Since kept lost w w₁)
    (halike : kept → Follows less .alike p q fun w' a b => Since (kept' a b) (lost' a) .alike w')
    (hlosing : lost → ∀ s a s', p s = .ok a s' → lost' a) :
    Follows less w₁ p q fun w' a b => Since (kept' a b) (lost' a) w w' := by
  cases h with
  | alike h => exact halike h
  | losing h => exact fun s a s' hp => ⟨a, .losing (hlosing h s a s' hp)⟩
  | lost => exact fun _ a _ _ => ⟨a, .lost⟩

end Follows

/-- Two runs of which the second one knows other types, or less if `less` holds. -/
abbrev lockstep (less : Prop) : Judgement where
  World := Accord
  Holds w p q R := Follows less w p q R
  Inside _ := True
  Took w _ w' := w' = w
  Skewed := False
  inside _ := trivial
  pure h := .pure h
  bind h hf := h.bind fun w' a b hab => hf w' a b id hab
  fail _ cause q := .fail cause q
  next {_ w _ _ _} hstop hword := by
    refine .blindBind .next fun o => ?_
    cases goes_of_stops _ hstop hword o with
    | leaving a b h hf hg =>
      rw [hf, hg]
      exact .leave h o
    | failing _ hf =>
      rw [hf]
      exact .fail _ _
    | taking h => exact h w rfl
  expect {kind _} _ _ text := by
    refine (Follows.blind (expect_blind kind text)).post ?_
    rintro w' _ _ ⟨rfl, -⟩
    exact ⟨⟨kind, text, ⟨0, 0⟩⟩, by simp [Token.is], rfl⟩
  steps h _ := .blindBind .steps h

theorem lockstep_word {kind : TokenKind} {text : String} {w w' : Accord}
    (h : TookWord (lockstep less).Took kind text w w') : w' = w := by
  obtain ⟨token, -, h⟩ := h
  exact h

theorem lockstep_names {names : List String} {w w' : (lockstep less).World}
    (h : TookNames (lockstep less).Took w w' names) : w' = w := by
  induction h with
  | nil => rfl
  | cons _ htoken _ ih => exact ih.trans htoken

theorem valueTy?_follows (x : String) :
    Follows less .alike (valueTy? x) (valueTy? x) fun w' t u =>
      w' = .alike ∧ (less → ∀ a, u = some a → t = some a) := by
  rintro s t _ s' hst ⟨⟩
  exact .inl ⟨_, t, rfl, hst, rfl, fun hless => (hst.within hless).value? x⟩

theorem setValue_follows (x : String) {a b : Ty} (h : less → b = a) :
    Follows less .alike (setValue x a) (setValue x b) fun w' _ _ => w' = .alike := by
  rintro s t _ s' hst ⟨⟩
  refine .inl ⟨(), _, rfl, ⟨hst.tokens, fun hless => ?_⟩, rfl⟩
  rw [h hless]
  exact (hst.within hless).setValue x a

theorem setAlias_follows (x : String) {a b : Ty} (h : less → b = a) :
    Follows less .alike (setAlias x a) (setAlias x b) fun w' _ _ => w' = .alike := by
  rintro s t _ s' hst ⟨⟩
  refine .inl ⟨(), _, rfl, ⟨hst.tokens, fun hless => ?_⟩, rfl⟩
  rw [h hless]
  exact (hst.within hless).setAlias x a

/-- A scope of its own matters only to what is known in it. -/
theorem Follows.inScope {p : Parse α} {q : Parse β} {R : Accord → α → β → Prop}
    (h : Follows less .alike p q R) (hless : ¬ less) :
    Follows less .alike (Parse.inScope p) (Parse.inScope q) R := by
  intro s t a s' hst hp
  unfold Parse.inScope at hp ⊢
  cases hs : p { s with context := s.context.enter } with
  | error e u =>
    rw [hs] at hp
    cases hp
  | ok a' u =>
    rw [hs] at hp
    cases hp
    obtain ⟨b, v, hb, huv, hab⟩ | ⟨-, cause, v, hb⟩ | ⟨hl, -⟩ :=
      h { s with context := s.context.enter } { t with context := t.context.enter } a u
        ⟨hst.tokens, fun hl => absurd hl hless⟩ hs
    · rw [hb]
      exact .inl ⟨b, _, rfl, ⟨huv.tokens, fun hl => absurd hl hless⟩, hab⟩
    · rw [hb]
      exact .inr (.inl ⟨hless, cause, _, rfl⟩)
    · exact absurd hl hless

end Parse

namespace Grammar

open Parse Accord Offside.Expr

variable {less : Prop} {below : Option Grammar}

/-- The trees that are read are alike, or the first one is not settled. -/
abbrev TreesFollow (less : Prop) (p q : Parse Expr) : Prop :=
  Follows less .alike p q fun w e f => Since (Alike less e f) (¬ e.All Settled) .alike w

theorem resolveTy_follows (x : String) :
    Follows less .alike (resolveTy x) (resolveTy x) fun w t u =>
      Since (less → u = t) False .alike w := by
  intro s t a s' hst hp
  have hsame (hless : less) : (Ty.ofName? x).or (t.context.alias? x) =
      (Ty.ofName? x).or (s.context.alias? x) := by
    rw [(hst.within hless).alias?]
  cases hs : (Ty.ofName? x).or (s.context.alias? x) with
  | none => cases (resolveTy_of_none hs).symm.trans hp
  | some a' =>
    cases (resolveTy_of_some hs).symm.trans hp
    cases ht : (Ty.ofName? x).or (t.context.alias? x) with
    | some b =>
      refine .inl ⟨b, t, resolveTy_of_some ht, hst, .alike fun hless => ?_⟩
      exact Option.some.inj (ht.symm.trans ((hsame hless).trans hs))
    | none =>
      refine .inr (.inl ⟨fun hless => ?_, .unknownTy x, t, resolveTy_of_none ht⟩)
      cases ht.symm.trans ((hsame hless).trans hs)

theorem integer_follows (digits : String) :
    TreesFollow less (integer digits) (integer digits) := by
  unfold integer
  dsimp only
  split
  · exact .pure (.alike (.refl _))
  · exact .fail _ _

theorem word_follows (x : String) : TreesFollow less (word x) (word x) := by
  unfold word
  split
  · exact .pure (.alike (.refl _))
  · split
    · exact .pure (.alike (.refl _))
    · refine (valueTy?_follows x).bind ?_
      rintro _ t u ⟨rfl, htu⟩
      exact .pure (.alike ⟨rfl, htu⟩)

theorem application_follows {es fs : List Expr} (h : List.Forall₂ (Alike less) es fs) :
    TreesFollow less (application es) (application fs) := by
  have htail (hless : less) (t : Ty) (ht : chainTy fs.tail = some t) :
      chainTy es.tail = some t := by
    cases h with
    | nil => exact ht
    | cons _ hs => exact Alike.chainTy_of_less hs hless ht
  have hchecked {es fs : List Expr} {expected expected' : Option Ty}
      (hexpected : less → ∀ t, expected' = some t → expected = some t)
      (h : List.Forall₂ (Alike less) es fs) :
      TreesFollow less (check (checkedApply es expected)) (check (checkedApply fs expected')) :=
    .check ((Alike.ofApply_checked hexpected h).mono fun _ _ => .alike)
  refine .blindBind (comesNext_blind _ _) fun b => ?_
  rw [Alike.mapM_asName? h]
  split
  · split
    · exact hchecked (fun _ _ => id) (List.forall₂_same.2 fun e _ => .refl e)
    · exact hchecked htail h
  · exact hchecked htail h

theorem all_settled_of_mapM_asName? {es : List Expr} {names : List String}
    (h : es.mapM asName? = some names) : ∀ e ∈ es, e.All Settled := by
  intro e he
  obtain ⟨x, t, rfl⟩ := exists_name_of_mapM_asName? h e he
  exact all_name.2 True.intro

theorem all_settled_of_headNames? {e : Expr} {names : List String}
    (h : e.headNames? = some names) : e.All Settled := by
  cases e with
  | apply callee arguments =>
    have hall := all_settled_of_mapM_asName? h
    exact all_apply.2 ⟨True.intro, List.forall_mem_cons.1 hall⟩
  | _ => cases h

/-- An application of settled terms only is settled. -/
theorem all_settled_of_application {es : List Expr} {s t : ParseState} {e : Expr}
    (h : application es s = .ok e t) (he : e.All Settled) : ∀ d ∈ es, d.All Settled := by
  have hchecked {expected : Option Ty} {s : ParseState}
      (h : check (checkedApply es expected) s = .ok e t) : ∀ d ∈ es, d.All Settled := by
    cases hr : checkedApply es expected with
    | error cause =>
      rw [hr] at h
      cases h
    | ok e' =>
      rw [hr] at h
      cases h
      obtain ⟨callee, arguments, rfl, rfl⟩ := eq_apply_of_checked hr
      exact List.forall_mem_cons.2 (all_apply.1 he).2
  obtain ⟨b, u, -, h⟩ := bind_ok h
  cases b with
  | false => exact hchecked h
  | true =>
    cases hnames : es.mapM asName? with
    | some names => exact all_settled_of_mapM_asName? hnames
    | none =>
      rw [hnames] at h
      exact hchecked h

theorem bindParams_cases (name : String) (params : List String) (declared : Option Ty)
    (s : ParseState) :
    (∃ t, bindParams name params declared s = .ok () t ∧ t.tokens = s.tokens) ∨
      ∃ cause, bindParams name params declared s = .error (.type cause) s := by
  cases declared with
  | none => exact .inl ⟨s, rfl, rfl⟩
  | some declared =>
    unfold bindParams
    dsimp only
    cases paramTys? declared params with
    | none => exact .inr ⟨_, rfl⟩
    | some typed => exact .inl ⟨_, setValues_ok typed s, rfl⟩

theorem bindParams_follows (hless : ¬ less) (name : String) (params : List String)
    (declared declared' : Option Ty) :
    Follows less .alike (bindParams name params declared) (bindParams name params declared')
      fun w _ _ => w = .alike := by
  intro s t a s' hst hp
  obtain ⟨u, hu, hsu⟩ | ⟨cause, hs⟩ := bindParams_cases name params declared s
  · cases hu.symm.trans hp
    obtain ⟨v, hv, htv⟩ | ⟨cause, ht⟩ := bindParams_cases name params declared' t
    · refine .inl ⟨(), v, hv, ⟨?_, fun hl => absurd hl hless⟩, rfl⟩
      rw [htv, hst.tokens, hsu]
    · exact .inr (.inl ⟨hless, cause, t, ht⟩)
  · cases hs.symm.trans hp

theorem variableDefinition_eq (x : String) (s : ParseState) :
    variableDefinition below x s =
      match nested below inner s with
      | .error e u => .error e u
      | .ok value u =>
        match checkedDefine x value (s.context.value? x) with
        | .error e => .error e u
        | .ok e => .ok e { u with context := u.context.record x (s.context.value? x) e.ty } := by
  unfold variableDefinition
  rw [bind_of_ok (show valueTy? x s = .ok (s.context.value? x) s from rfl)]
  cases hu : nested below inner s with
  | error e u => exact bind_of_error hu
  | ok value u =>
    rw [bind_of_ok hu]
    dsimp only
    cases checkedDefine x value (s.context.value? x) with
    | error e => rfl
    | ok e =>
      rw [bind_of_ok (show check (.ok e) u = .ok e u from rfl)]
      cases s.context.value? x with
      | some t => rfl
      | none =>
        dsimp only
        cases e.ty <;> rfl

/-- A name that its own value does not define ends up with the type of its definition. -/
theorem value?_record_self {c d : Context} {x : String} {value e : Expr}
    (h : d.Extends c value.assigned) (hx : x ∉ value.assigned)
    (he : checkedDefine x value (c.value? x) = .ok e) :
    (d.record x (c.value? x) e.ty).value? x = e.ty := by
  rw [Context.value?_record, h.eq_of_notMem hx]
  cases hc : c.value? x with
  | none => simp [eq_comm]
  | some t =>
    rw [hc] at he
    simp [ty_of_checkedDefine_some he]

/-- What two runs know still fits after both have recorded the type of a name, as long as its value
does not define the name: the type that was looked up before is then the one that is known. -/
theorem record_within {c d u v : Context} {x : String} {value value' e f : Expr}
    (huv : v.Within u) (hu : u.Extends c value.assigned) (hv : v.Extends d value'.assigned)
    (hx : x ∉ value.assigned) (hx' : x ∉ value'.assigned)
    (he : checkedDefine x value (c.value? x) = .ok e)
    (hf : checkedDefine x value' (d.value? x) = .ok f)
    (hty : ∀ t, f.ty = some t → e.ty = some t) :
    (v.record x (d.value? x) f.ty).Within (u.record x (c.value? x) e.ty) where
  alias? y := by rw [Context.alias?_record, Context.alias?_record, huv.alias?]
  value? y t hy := by
    by_cases hyx : y = x
    · subst hyx
      rw [value?_record_self hv hx' hf] at hy
      rw [value?_record_self hu hx he]
      exact hty t hy
    · have hother : ¬ (y = x ∧ d.value? x = none ∧ f.ty ≠ none) := fun h => hyx h.1
      have hother' : ¬ (y = x ∧ c.value? x = none ∧ e.ty ≠ none) := fun h => hyx h.1
      rw [Context.value?_record, if_neg hother] at hy
      rw [Context.value?_record, if_neg hother']
      exact huv.value? y t hy

/-- Only a name is the target of a definition or a declaration, and names are settled. -/
theorem all_settled_of_definition {target e : Expr} {s t : ParseState}
    (h : definition below target s = .ok e t) : target.All Settled := by
  obtain ⟨x, params, hnames, -⟩ | ⟨x, t, rfl, -⟩ | hfails := definition_cases below target
  · exact all_settled_of_headNames? hnames
  · exact all_name.2 True.intro
  · rw [hfails] at h
    cases h

theorem all_settled_of_typing {target : Expr} {s t : ParseState} {u : Unit}
    (h : typing below target s = .ok u t) : target.All Settled := by
  cases target with
  | name x t => exact all_name.2 True.intro
  | _ => cases h

theorem typing_follows
    (hty : Follows less .alike (nested below functionTy) (nested below functionTy) fun w t u =>
      Since (less → u = t) False .alike w) {e f : Expr} (hef : Alike less e f) :
    Follows less .alike (typing below e) (typing below f) fun w _ _ => w = .alike := by
  cases e with
  | name x t =>
    obtain ⟨u, rfl⟩ := hef.eq_name
    refine hty.bind ?_
    rintro _ t u (htu | hf)
    · exact setValue_follows x htu
    · exact hf.elim
  | _ => exact .fail _ _

section

variable (hinner : TreesFollow less (nested below inner) (nested below inner))
include hinner

/-- Without a declared type the parameters get no types, and the body sees what is known about other
values of these names: with less known, more of it may be refused. -/
theorem functionDefinition_follows (name : String) (params : List String) :
    TreesFollow less (functionDefinition below name params)
      (functionDefinition below name params) := by
  by_cases hless : less
  · intro s t e s' _ hp
    obtain ⟨declared, u, -, hp⟩ := bind_ok hp
    obtain ⟨body, v, -, hp⟩ := bind_ok hp
    cases hp
    exact .inr (.inr ⟨hless, body, .losing fun hall => (all_function.1 hall).1⟩)
  · refine (valueTy?_follows name).bind ?_
    rintro _ t u ⟨rfl, -⟩
    have hbody : TreesFollow less
        (do bindParams name params t; nested below inner)
        (do bindParams name params u; nested below inner) := by
      refine (bindParams_follows hless name params t u).bind ?_
      rintro _ _ _ rfl
      exact hinner
    refine (hbody.inScope hless).bind fun w body body' hbb' => .pure ?_
    refine hbb'.mono (fun h => ⟨?_, fun hl => absurd hl hless⟩) fun hlost hall => ?_
    · rw [Expr.erased, Expr.erased, h.erased]
    · exact hlost (all_function.1 hall).2

/-- What is found out about the name is recorded only after its value has been read. Both runs
record what they know then, as long as the value does not define the name. -/
theorem variableDefinition_follows (hassigns : Assigns (nested below inner) assigned) (x : String) :
    TreesFollow less (variableDefinition below x) (variableDefinition below x) := by
  intro s t e s' hst hp
  have hextends {s u : ParseState} {e : Expr} (hu : nested below inner s = .ok e u) :
      u.context.Extends s.context e.assigned := (hassigns s.context []).ok (.refl _ _) hu
  rw [variableDefinition_eq] at hp ⊢
  cases hu : nested below inner s with
  | error cause u =>
    rw [hu] at hp
    cases hp
  | ok value u =>
    rw [hu] at hp
    dsimp only at hp
    cases he : checkedDefine x value (s.context.value? x) with
    | error cause =>
      rw [he] at hp
      cases hp
    | ok e' =>
      rw [he] at hp
      cases hp
      have hparts (hall : e.All Settled) : x ∉ value.assigned ∧ value.All Settled := by
        rw [eq_define_of_checked he] at hall
        exact all_define.1 hall
      obtain ⟨value', v, hv, huv, hvalue⟩ | ⟨hless, cause, v, hv⟩ | ⟨hless, value', hlost⟩ :=
        hinner s t value u hst hu
      · rw [hv]
        dsimp only
        obtain ⟨hvalue⟩ := hvalue
        have hdeclared (hless : less) := (hst.within hless).value? x
        obtain ⟨f, hf, hef⟩ | ⟨hless, cause, hf⟩ := hvalue.ofDefine_checked x hdeclared e he
        · rw [hf]
          have hassigned : value'.assigned = value.assigned := by
            rw [← assigned_erased, hvalue.erased, assigned_erased]
          by_cases hx : less ∧ x ∈ value.assigned
          · exact .inr (.inr ⟨hx.1, f, .losing fun hall => (hparts hall).1 hx.2⟩)
          · refine .inl ⟨f, _, rfl, ⟨huv.tokens, fun hless => ?_⟩, .alike hef⟩
            have hnot : x ∉ value.assigned := fun hmem => hx ⟨hless, hmem⟩
            exact record_within (huv.within hless) (hextends hu) (hextends hv) hnot
              (hassigned ▸ hnot) he hf (hef.ty hless)
        · rw [hf]
          exact .inr (.inl ⟨hless, cause, v, rfl⟩)
      · rw [hv]
        exact .inr (.inl ⟨hless, cause, v, rfl⟩)
      · obtain ⟨hvalue⟩ | ⟨hvalue⟩ := hlost
        exact .inr (.inr ⟨hless, e, .losing fun hall => hvalue (hparts hall).2⟩)

theorem definition_follows (hassigns : Assigns (nested below inner) assigned) {e f : Expr}
    (hef : Alike less e f) : TreesFollow less (definition below e) (definition below f) := by
  obtain ⟨x, params, hnames, heq⟩ | ⟨x, t, rfl, heq⟩ | hfails := definition_cases below e
  · rw [heq, definition_of_headNames? below (hef.eq_headNames?.trans hnames)]
    exact functionDefinition_follows hinner x params
  · obtain ⟨u, rfl⟩ := hef.eq_name
    exact variableDefinition_follows hinner hassigns x
  · rw [hfails]
    exact .fail _ _

end

theorem since_of_chained {w w' : Accord} {es fs : List Expr}
    (h : Chained (fun w w' e f => Since (Alike less e f) (¬ e.All Settled) w w') w w' es fs) :
    Since (List.Forall₂ (Alike less) es fs) (¬ ∀ e ∈ es, e.All Settled) w w' := by
  induction h with
  | @nil w => exact .intro .nil w
  | cons h _ ih =>
    refine h.trans ih .cons fun hlost hall => ?_
    rw [List.forall_mem_cons] at hall
    exact hlost.elim (fun hlost => hlost hall.1) fun hlost => hlost hall.2

abbrev alike (less : Prop) : Productions (lockstep less) where
  Rooms room room' := room' = room
  Typed _ w w' t u := Since (less → u = t) False w w'
  Tree _ w w' e f := Since (Alike less e f) (¬ e.All Settled) w w'
  Declared w w' := w' = w
  rooms h := Nat.succ.inj h
  cut h := nomatch h
  resolve _ h _ := by
    cases h
    exact .since fun _ => resolveTy_follows _
  deeper h := h
  list hlist h := by
    cases lockstep_word hlist
    exact h.mono (fun htu hless => by rw [htu hless]) id
  groupTy hopen h hclose := by
    cases lockstep_word hopen
    cases lockstep_word hclose
    exact h
  arrow h harrow h' := by
    cases lockstep_word harrow
    exact h.trans h' (fun htu htu' hless => by rw [htu hless, htu' hless]) fun hf => hf.elim id id
  higher _ h := h
  integer _ h := by
    cases h
    exact .since fun _ => integer_follows _
  float _ h := by
    cases h
    exact .intro (.refl _) _
  string _ h := by
    cases h
    exact .intro (.refl _) _
  word _ h := by
    cases h
    exact .since fun _ => word_follows _
  group hopen h hclose := by
    cases lockstep_word hopen
    cases lockstep_word hclose
    exact h
  member h hdot hkey := by
    cases lockstep_word hdot
    refine h.trans hkey .ofMember fun hlost hall => ?_
    obtain ⟨-, htarget, hkey⟩ := all_member.1 hall
    exact hlost.elim (fun hlost => hlost htarget) fun hlost => hlost hkey
  application _ h _ := .after (since_of_chained h) application_follows fun hlost s e s' hp hall =>
    hlost (all_settled_of_application hp hall)
  operation {_ _ _ _ _ _ _ op _ _ _ _} _ h _ htoken h' := by
    cases htoken
    have hboth := h.trans h' And.intro id
    refine .after hboth (fun hops => ?_) fun hlost s e s' hp hall => ?_
    · exact .check ((Alike.ofOperation_checked op hops.1 hops.2).mono fun _ _ => .alike)
    · rw [eq_operation_of_checked (check_ok hp)] at hall
      obtain ⟨-, hleft, hright⟩ := all_operation.1 hall
      exact hlost.elim (fun hlost => hlost hleft) fun hlost => hlost hright
  lambda hslash hparams harrow h := by
    cases lockstep_word harrow
    cases lockstep_names hparams
    cases lockstep_word hslash
    exact h.mono (.ofLambda _) fun hlost hall => hlost (all_lambda.1 hall).2
  aliasing _ _ htype hname hequals h := by
    cases lockstep_word hequals
    cases lockstep_names hname
    cases lockstep_word htype
    obtain htu | hf := h
    · exact setAlias_follows _ htu
    · exact hf.elim
    · exact fun _ _ _ _ => ⟨(), rfl⟩
  typing hrooms hty h hcolon := by
    cases hrooms
    cases lockstep_word hcolon
    obtain hef | hlost := h
    · exact typing_follows (hty .alike trivial) hef
    · exact fun s u s' hp => absurd (all_settled_of_typing hp) hlost
    · exact fun _ _ _ _ => ⟨(), rfl⟩
  definition {_ _ room _ _ _ _ _ _} hrooms hinner h hequals := by
    cases hrooms
    cases lockstep_word hequals
    refine .after h (definition_follows (hinner .alike trivial) (nested_inner_assigns room)) ?_
    exact fun hlost s e s' hp => absurd (all_settled_of_definition hp) hlost

end Grammar

end Offside
