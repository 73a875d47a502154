import Mathlib.Data.List.Forall2
import Offside.Expr.JavaScript
import Offside.Proofs.Expr.Nodes
import Offside.Proofs.Ty

namespace Offside.Expr

theorem asName?_erased (e : Expr) : e.erased.asName? = e.asName? := by
  cases e <;> rfl

theorem headNames?_erased (e : Expr) : e.erased.headNames? = e.headNames? := by
  cases e with
  | apply callee arguments =>
    rw [erased, headNames?, headNames?, erasedAll_eq_map, ← List.map_cons, List.mapM_map]
    exact congrArg (fun f => (callee :: arguments).mapM f) (funext asName?_erased)
  | _ => rfl

theorem operand_erased (e : Expr) (text : String) : e.erased.operand text = e.operand text := by
  cases e <;> rfl

theorem memberText_erased (target : String) (key : Expr) (text : String) :
    memberText target key.erased text = memberText target key text := by
  cases key <;> rfl

/-- Static types leave no trace in the text. -/
theorem javaScript_erased (e : Expr) : e.erased.javaScript = e.javaScript := by
  induction e using Expr.induction with
  | constant value => rfl
  | name x t => rfl
  | operation op left right hleft hright =>
    rw [erased_operation]
    rcases op with op | op | op
    · cases op <;>
        simp only [operation, javaScript, operand_erased, hleft, hright]
    · simp only [operation, javaScript, operand_erased, hleft, hright]
    · simp only [operation, javaScript, operand_erased, hleft, hright]
  | define x value t ih => rw [erased, javaScript, javaScript, ih]
  | apply callee arguments hcallee harguments =>
    have htexts : arguments.map (fun e => e.erased.javaScript) = arguments.map javaScript :=
      List.map_congr_left harguments
    rw [erased, javaScript, javaScript, hcallee, erasedAll_eq_map, javaScripts_eq_map,
      javaScripts_eq_map, List.map_map, Function.comp_def, htexts]
  | member target key htarget hkey =>
    rw [erased, javaScript, javaScript, htarget, hkey, memberText_erased]
  | lambda params body ih => rw [erased, javaScript, javaScript, ih]
  | function f params body t ih => rw [erased, javaScript, javaScript, ih]

/-- The same tree but for static types. If `less` holds, its type is that of `e` or unknown. -/
structure Alike (less : Prop) (e f : Expr) : Prop where
  erased : f.erased = e.erased
  ty : less → ∀ t, f.ty = some t → e.ty = some t

/-- What the first computation gives is alike the result of the second one, which may only be
refused by a type error, and not even that if `less` holds. -/
def Carries {α β : Type} (less : Prop) (R : α → β → Prop) (r : Except Error α)
    (r' : Except Error β) : Prop :=
  ∀ a, r = .ok a → (∃ b, r' = .ok b ∧ R a b) ∨ ¬ less ∧ ∃ cause, r' = .error (.type cause)

variable {less : Prop}

theorem Carries.ok {α β : Type} {R : α → β → Prop} {a : α} {b : β} (h : R a b) :
    Carries less R (.ok a) (.ok b) := by
  rintro a' ⟨⟩
  exact .inl ⟨b, rfl, h⟩

theorem Carries.mono {α β : Type} {R R' : α → β → Prop} {r : Except Error α}
    {r' : Except Error β} (h : Carries less R r r') (hR : ∀ a b, R a b → R' a b) :
    Carries less R' r r' := by
  intro a ha
  refine (h a ha).imp_left ?_
  rintro ⟨b, hb, hab⟩
  exact ⟨b, hb, hR a b hab⟩

/-- A check that passes on more where types are missing. -/
theorem Carries.ite {α β : Type} {R : α → β → Prop} {a : α} {b : β} {e : Error}
    {cause : TypeError} {c c' : Prop} [Decidable c] [Decidable c'] (hc : less → c → c')
    (h : c → R a b) :
    Carries less R (if c then .ok a else .error e) (if c' then .ok b else .error (.type cause)) := by
  intro a' ha'
  split at ha'
  · next hpass =>
    cases ha'
    by_cases hpass' : c'
    · exact .inl ⟨b, if_pos hpass', h hpass⟩
    · exact .inr ⟨fun hless => hpass' (hc hless hpass), cause, if_neg hpass'⟩
  · cases ha'

namespace Alike

theorem refl (e : Expr) : Alike less e e := ⟨rfl, fun _ _ => id⟩

variable {e f left left' right right' value value' callee callee' : Expr}

theorem eq_asName? (h : Alike less e f) : f.asName? = e.asName? := by
  rw [← asName?_erased f, h.erased, asName?_erased]

theorem eq_headNames? (h : Alike less e f) : f.headNames? = e.headNames? := by
  rw [← headNames?_erased f, h.erased, headNames?_erased]

theorem eq_name {x : String} {t : Option Ty} (h : Alike less (.name x t) f) :
    ∃ u, f = .name x u := by
  have herased := h.erased
  cases f with
  | name y u =>
    cases herased
    exact ⟨u, rfl⟩
  | _ => cases herased

theorem all_ty (h : Alike less e f) (hless : less) {p : Ty → Bool} (hp : e.ty.all p = true) :
    f.ty.all p = true := by
  cases hf : f.ty with
  | none => rfl
  | some t =>
    rw [h.ty hless t hf] at hp
    exact hp

theorem ofOperation (op : Operator) (hl : Alike less left left') (hr : Alike less right right') :
    Alike less (operation op left right) (operation op left' right') := by
  refine ⟨by rw [erased_operation, erased_operation, hl.erased, hr.erased], fun _ t ht => ?_⟩
  cases op <;> exact ht

theorem ofOperation_checked (op : Operator) (hl : Alike less left left')
    (hr : Alike less right right') :
    Carries less (Alike less) (checkedOperation op left right)
      (checkedOperation op left' right') := by
  have hnode := ofOperation op hl hr
  cases op with
  | connective op => exact .ok hnode
  | comparison op =>
    refine .ite (fun hless hpass => ?_) fun _ => hnode
    rw [Bool.and_eq_true] at hpass ⊢
    exact ⟨hl.all_ty hless hpass.1, hr.all_ty hless hpass.2⟩
  | arithmetic op =>
    refine .ite (fun hless hpass => ?_) fun _ => hnode
    rw [Bool.and_eq_true] at hpass ⊢
    exact ⟨hl.all_ty hless hpass.1, hr.all_ty hless hpass.2⟩

theorem ofMember (htarget : Alike less left left') (hkey : Alike less right right') :
    Alike less (.member left right) (.member left' right') := by
  refine ⟨?_, fun _ t ht => ht⟩
  rw [Expr.erased, Expr.erased, htarget.erased, hkey.erased]

theorem ofLambda (params : List String) (hbody : Alike less e f) :
    Alike less (.lambda params e) (.lambda params f) := by
  refine ⟨?_, fun _ t ht => ht⟩
  rw [Expr.erased, Expr.erased, hbody.erased]

theorem ofDefine_checked (x : String) {declared declared' : Option Ty}
    (hdeclared : less → ∀ t, declared' = some t → declared = some t)
    (hvalue : Alike less value value') :
    Carries less (Alike less) (checkedDefine x value declared)
      (checkedDefine x value' declared') := by
  obtain ⟨cause, hfirst⟩ := checkedDefine_eq x value declared
  obtain ⟨cause', hsecond⟩ := checkedDefine_eq x value' declared'
  rw [hfirst, hsecond]
  refine .ite (fun hless hpass => ?_) fun hpass => ⟨?_, fun hless t ht => ?_⟩
  · cases hd : declared' with
    | none => rfl
    | some d =>
      rw [hdeclared hless d hd] at hpass
      exact hvalue.all_ty hless hpass
  · rw [Expr.erased, Expr.erased, hvalue.erased]
  · change value'.ty.or declared' = some t at ht
    show value.ty.or declared = some t
    cases hv' : value'.ty with
    | some a =>
      rw [hv', Option.some_or] at ht
      cases ht
      rw [hvalue.ty hless t hv', Option.some_or]
    | none =>
      rw [hv', Option.none_or] at ht
      rw [hdeclared hless t ht] at hpass ⊢
      cases hv : value.ty with
      | none => rfl
      | some a =>
        rw [hv] at hpass
        rw [Option.some_or, of_decide_eq_true hpass]

section

variable {es fs arguments arguments' : List Expr}

theorem map_erased (h : List.Forall₂ (Alike less) es fs) : fs.map Expr.erased = es.map Expr.erased := by
  induction h with
  | nil => rfl
  | cons he _ ih => rw [List.map_cons, List.map_cons, he.erased, ih]

theorem mapM_asName? (h : List.Forall₂ (Alike less) es fs) :
    fs.mapM asName? = es.mapM asName? := by
  induction h with
  | nil => rfl
  | cons he _ ih => rw [List.mapM_cons, List.mapM_cons, he.eq_asName?, ih]

theorem chainTy_of_less (h : List.Forall₂ (Alike less) es fs) (hless : less) {t : Ty}
    (ht : chainTy fs = some t) : chainTy es = some t := by
  induction h generalizing t with
  | nil => cases ht
  | @cons e f es fs he hes ih =>
    cases hes with
    | nil => exact he.ty hless t ht
    | @cons e' f' es fs he' hes =>
      rw [chainTy] at ht ⊢
      · obtain ⟨a, ha, ht⟩ := Option.bind_eq_some_iff.1 ht
        obtain ⟨b, hb, ht⟩ := Option.bind_eq_some_iff.1 ht
        rw [he.ty hless a ha, ih hb]
        exact ht
      · exact List.cons_ne_nil _ _
      · exact List.cons_ne_nil _ _

theorem acceptsArguments_of_less {t : Ty} {expected expected' : Option Ty} {count : Nat}
    (hexpected : ∀ a, expected' = some a → expected = some a)
    (h : acceptsArguments t expected count = true) :
    acceptsArguments t expected' count = true := by
  cases he' : expected' with
  | some a =>
    rw [hexpected a he'] at h
    exact h
  | none =>
    cases expected with
    | none => exact h
    | some a =>
      have hfunction : t.isFunction = true := by
        by_contra hn
        have hrefused := Ty.accepts_of_not_isFunction (Bool.eq_false_iff.2 hn) a
        exact absurd (hrefused.symm.trans h) Bool.false_ne_true
      simp [acceptsArguments, hfunction]

theorem afterArguments_of_less {t u : Option Ty} (h : ∀ a, u = some a → t = some a) (n : Nat)
    {a : Ty} (ha : Ty.afterArguments n u = some a) : Ty.afterArguments n t = some a := by
  induction n generalizing t u with
  | zero => exact h a ha
  | succ n ih =>
    refine ih (fun b hb => ?_) ha
    obtain ⟨c, hc, hb⟩ := Option.bind_eq_some_iff.1 hb
    rw [h c hc]
    exact hb

theorem ofApply (hcallee : Alike less callee callee')
    (harguments : List.Forall₂ (Alike less) arguments arguments') :
    Alike less (.apply callee arguments) (.apply callee' arguments') := by
  refine ⟨?_, fun hless t ht => ?_⟩
  · rw [Expr.erased, Expr.erased, hcallee.erased, erasedAll_eq_map, erasedAll_eq_map,
      map_erased harguments]
  · rw [Expr.ty, ← harguments.length_eq] at ht
    exact afterArguments_of_less (hcallee.ty hless) _ ht

theorem ofApply_checked {expected expected' : Option Ty}
    (hexpected : less → ∀ t, expected' = some t → expected = some t)
    (h : List.Forall₂ (Alike less) es fs) :
    Carries less (Alike less) (checkedApply es expected) (checkedApply fs expected') := by
  cases h with
  | nil => exact fun e he => nomatch he
  | @cons callee callee' arguments arguments' hcallee harguments =>
    obtain ⟨cause, hfirst⟩ := checkedApply_cons_eq callee arguments expected
    obtain ⟨cause', hsecond⟩ := checkedApply_cons_eq callee' arguments' expected'
    rw [hfirst, hsecond, ← harguments.length_eq]
    refine .ite (fun hless hpass => ?_) fun _ => ofApply hcallee harguments
    refine hcallee.all_ty hless ?_
    cases ht : callee.ty with
    | none => rfl
    | some t =>
      rw [ht] at hpass
      exact acceptsArguments_of_less (hexpected hless) hpass

end

end Alike

end Offside.Expr
