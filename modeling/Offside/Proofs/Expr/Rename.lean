import Offside.Eval.Evaluate
import Offside.Proofs.Expr.Nodes

namespace Offside

namespace Expr

mutual

/-- The names that a tree looks up or defines outside of the functions in it that take them as
parameters. A key that states itself is not looked up. -/
def free : Expr → List String
  | .constant _ => []
  | .name x _ => [x]
  | .comparison _ left right => left.free ++ right.free
  | .connective _ left right => left.free ++ right.free
  | .arithmetic _ left right => left.free ++ right.free
  | .define x value _ => x :: value.free
  | .apply callee arguments => callee.free ++ freeInAll arguments
  | .member target key => target.free ++ if (Key.ofExpr? key).isSome then [] else key.free
  | .lambda params body => body.free.filter (· ∉ params)
  | .function _ params body _ => body.free.filter (· ∉ params)

def freeInAll : List Expr → List String
  | [] => []
  | e :: es => e.free ++ freeInAll es

end

theorem freeInAll_eq_flatMap (es : List Expr) : freeInAll es = es.flatMap free := by
  induction es with
  | nil => rfl
  | cons e es ih => rw [freeInAll, ih, List.flatMap_cons]

theorem free_operation (op : Operator) (left right : Expr) :
    (operation op left right).free = left.free ++ right.free := by
  cases op <;> rfl

/-- Puts `q` in the place of `p`. -/
def replacing (p q x : String) : String := if x = p then q else x

theorem replacing_of_ne {p q x : String} (h : x ≠ p) : replacing p q x = x := if_neg h

theorem eq_of_replacing_eq {p q x y : String} (hx : x ≠ q) (hy : y ≠ q)
    (h : replacing p q x = replacing p q y) : x = y := by
  unfold replacing at h
  split at h <;> split at h
  · next hxp hyp => exact hxp.trans hyp.symm
  · exact absurd h.symm hy
  · exact absurd h hx
  · exact h

/-- Parameters hide what is around them. -/
def hide (params : List String) (σ : String → String) (x : String) : String :=
  if x ∈ params then x else σ x

mutual

/-- Renames the free names of a tree. -/
def rename : (σ : String → String) → Expr → Expr
  | _, .constant value => .constant value
  | σ, .name x t => .name (σ x) t
  | σ, .comparison op left right => .comparison op (left.rename σ) (right.rename σ)
  | σ, .connective op left right => .connective op (left.rename σ) (right.rename σ)
  | σ, .arithmetic op left right => .arithmetic op (left.rename σ) (right.rename σ)
  | σ, .define x value t => .define (σ x) (value.rename σ) t
  | σ, .apply callee arguments => .apply (callee.rename σ) (renameAll σ arguments)
  | σ, .member target key =>
    .member (target.rename σ) (if (Key.ofExpr? key).isSome then key else key.rename σ)
  | σ, .lambda params body => .lambda params (body.rename (hide params σ))
  | σ, .function f params body t => .function f params (body.rename (hide params σ)) t

def renameAll : (σ : String → String) → List Expr → List Expr
  | _, [] => []
  | σ, e :: es => e.rename σ :: renameAll σ es

end

theorem renameAll_eq_map (σ : String → String) (es : List Expr) :
    renameAll σ es = es.map (rename σ) := by
  induction es with
  | nil => rfl
  | cons e es ih => rw [renameAll, ih, List.map_cons]

theorem rename_operation (σ : String → String) (op : Operator) (left right : Expr) :
    (operation op left right).rename σ = operation op (left.rename σ) (right.rename σ) := by
  cases op <;> rfl

/-- Only free names matter to a renaming. -/
theorem rename_of_fixed {e : Expr} {σ : String → String} (h : ∀ x ∈ e.free, σ x = x) :
    e.rename σ = e := by
  have hbody : ∀ {params : List String} {body : Expr} {σ : String → String},
      (∀ x ∈ body.free.filter (· ∉ params), σ x = x) → ∀ x ∈ body.free, hide params σ x = x := by
    intro params body σ h x hx
    unfold hide
    split
    · rfl
    · next hout => exact h x (List.mem_filter.2 ⟨hx, decide_eq_true hout⟩)
  induction e using Expr.induction generalizing σ with
  | constant value => rfl
  | name x t => rw [rename, h x List.mem_cons_self]
  | operation op left right hleft hright =>
    rw [free_operation, List.forall_mem_append] at h
    rw [rename_operation, hleft h.1, hright h.2]
  | define x value t ih =>
    rw [free, List.forall_mem_cons] at h
    rw [rename, h.1, ih h.2]
  | apply callee arguments hcallee harguments =>
    rw [free, List.forall_mem_append, freeInAll_eq_flatMap, List.forall_mem_flatMap] at h
    have hall : arguments.map (rename σ) = arguments := by
      rw [List.map_congr_left fun a ha => harguments a ha (h.2 a ha), List.map_id'']
      exact fun _ => rfl
    rw [rename, hcallee h.1, renameAll_eq_map, hall]
  | member target key htarget hkey =>
    rw [free, List.forall_mem_append] at h
    rw [rename, htarget h.1]
    split
    · rfl
    · next hstated => rw [hkey (by rw [if_neg hstated] at h; exact h.2)]
  | lambda params body ih => rw [rename, ih (hbody h)]
  | function f params body t ih => rw [rename, ih (hbody h)]

/-- The node itself spells the name. -/
def Mentions (x : String) : Expr → Prop
  | .name y _ | .define y _ _ => y = x
  | .lambda params _ => x ∈ params
  | .function f params _ _ => f = x ∨ x ∈ params
  | _ => False

theorem not_mem_free_of_unmentioned {x : String} {e : Expr} (h : e.All fun n => ¬ n.Mentions x) :
    x ∉ e.free := by
  induction e using Expr.induction with
  | constant value => exact List.not_mem_nil
  | name y t =>
    intro hx
    exact h.self (List.mem_singleton.1 hx).symm
  | operation op left right hleft hright =>
    rw [free_operation, List.mem_append]
    exact not_or.2 ⟨hleft (all_operation.1 h).2.1, hright (all_operation.1 h).2.2⟩
  | define y value t ih =>
    rw [free, List.mem_cons]
    exact not_or.2 ⟨fun hx => h.self hx.symm, ih (all_define.1 h).2⟩
  | apply callee arguments hcallee harguments =>
    obtain ⟨-, hc, ha⟩ := all_apply.1 h
    rw [free, List.mem_append, freeInAll_eq_flatMap, List.mem_flatMap]
    rintro (hx | ⟨a, hmem, hx⟩)
    · exact hcallee hc hx
    · exact harguments a hmem (ha a hmem) hx
  | member target key htarget hkey =>
    obtain ⟨-, ht, hk⟩ := all_member.1 h
    rw [free, List.mem_append]
    rintro (hx | hx)
    · exact htarget ht hx
    · split at hx
      · cases hx
      · exact hkey hk hx
  | lambda params body ih => exact fun hx => ih (all_lambda.1 h).2 (List.mem_filter.1 hx).1
  | function f params body t ih => exact fun hx => ih (all_function.1 h).2 (List.mem_filter.1 hx).1

/-- An anonymous function uses its own parameters and, from outside, names in `shared`. -/
def Sees (shared : String → Prop) : Expr → Prop
  | .lambda params body => ∀ x ∈ body.free, x ∈ params ∨ shared x
  | _ => True

end Expr

/-- Which name of one program stands for which name of another one. -/
abbrev Names := String → String → Prop

namespace Names

def same (shared : String → Prop) : Names := fun x y => x = y ∧ shared x

/-- A binder of `x` against a binder of `y`. -/
def bind (S : Names) (x y : String) : Names :=
  fun a b => a = x ∧ b = y ∨ a ≠ x ∧ b ≠ y ∧ S a b

/-- Later binders hide earlier ones. -/
def bindAll (S : Names) (binders : List (String × String)) : Names :=
  binders.foldl (fun S e => S.bind e.1 e.2) S

/-- No name has two partners. -/
def Exact (S : Names) : Prop := ∀ a b x y, S a b → S x y → (a = x ↔ b = y)

variable {S T : Names}

theorem exact_eq : Exact Eq := by
  rintro a b x y rfl rfl
  exact Iff.rfl

theorem exact_same {shared : String → Prop} : (same shared).Exact := by
  rintro a b x y ⟨rfl, -⟩ ⟨rfl, -⟩
  exact Iff.rfl

theorem Exact.bind (h : S.Exact) (x y : String) : (S.bind x y).Exact := by
  rintro a b c d (⟨rfl, rfl⟩ | ⟨ha, hb, hab⟩) (⟨rfl, rfl⟩ | ⟨hc, hd, hcd⟩)
  · exact iff_of_true rfl rfl
  · exact iff_of_false hc.symm hd.symm
  · exact iff_of_false ha hb
  · exact h a b c d hab hcd

theorem Exact.bindAll (h : S.Exact) (binders : List (String × String)) :
    (S.bindAll binders).Exact := by
  induction binders generalizing S with
  | nil => exact h
  | cons e binders ih => exact ih (h.bind e.1 e.2)

theorem bindAll_mono (h : ∀ x y, S x y → T x y) (binders : List (String × String)) (x y : String)
    (hxy : S.bindAll binders x y) : T.bindAll binders x y := by
  induction binders generalizing S T with
  | nil => exact h x y hxy
  | cons e binders ih =>
    refine ih (fun a b hab => ?_) hxy
    exact hab.imp_right fun hab => ⟨hab.1, hab.2.1, h a b hab.2.2⟩

/-- Where the parameters are renamed by `σ`, a parameter stands for its image, and so does any other
name that did so before. -/
theorem bindAll_map {σ : String → String} {params : List String} {x : String}
    (hσ : ∀ z ∈ params, σ x = σ z → x = z) (hx : x ∈ params ∨ S x (σ x)) :
    S.bindAll (params.zip (params.map σ)) x (σ x) := by
  induction params generalizing S with
  | nil => exact hx.resolve_left List.not_mem_nil
  | cons z params ih =>
    rw [List.forall_mem_cons] at hσ
    refine ih hσ.2 ?_
    by_cases hz : x = z
    · exact .inr (.inl ⟨hz, congrArg σ hz⟩)
    · refine hx.imp ?_ ?_
      · exact fun hx => (List.mem_cons.1 hx).resolve_left hz
      · exact fun hx => .inr ⟨hz, fun heq => hz (hσ.1 heq), hx⟩

theorem bindAll_self {params : List String} {x : String} (hx : x ∈ params ∨ S x x) :
    S.bindAll (params.zip params) x x := by
  have hmap : S.bindAll (params.zip (params.map id)) x x := bindAll_map (fun _ _ => id) hx
  rwa [List.map_id] at hmap

end Names

namespace Expr

/-- Trees that do the same where `S` says which names stand for which. The bodies of anonymous
functions agree in names that are `shared` by all places they may be called from, and `code` holds
of any two anonymous functions that correspond. Bodies of function definitions do not matter. -/
inductive Renamed (shared : String → Prop) (code : Expr → Expr → Prop) : Names → Expr → Expr → Prop
  | constant {S : Names} (value : Literal) : Renamed shared code S (.constant value) (.constant value)
  | name {S : Names} {x y : String} {t t' : Option Ty} (h : S x y) :
      Renamed shared code S (.name x t) (.name y t')
  | comparison {S : Names} {op : Comparison} {left right left' right' : Expr}
      (hleft : Renamed shared code S left left') (hright : Renamed shared code S right right') :
      Renamed shared code S (.comparison op left right) (.comparison op left' right')
  | connective {S : Names} {op : Connective} {left right left' right' : Expr}
      (hleft : Renamed shared code S left left') (hright : Renamed shared code S right right') :
      Renamed shared code S (.connective op left right) (.connective op left' right')
  | arithmetic {S : Names} {op : Arithmetic} {left right left' right' : Expr}
      (hleft : Renamed shared code S left left') (hright : Renamed shared code S right right') :
      Renamed shared code S (.arithmetic op left right) (.arithmetic op left' right')
  | define {S : Names} {x y : String} {value value' : Expr} {t t' : Option Ty} (h : S x y)
      (hvalue : Renamed shared code S value value') :
      Renamed shared code S (.define x value t) (.define y value' t')
  | apply {S : Names} {callee callee' : Expr} {arguments arguments' : List Expr}
      (hcallee : Renamed shared code S callee callee')
      (hlength : arguments.length = arguments'.length)
      (harguments : ∀ e ∈ arguments.zip arguments', Renamed shared code S e.1 e.2) :
      Renamed shared code S (.apply callee arguments) (.apply callee' arguments')
  | member {S : Names} {target target' key key' : Expr}
      (htarget : Renamed shared code S target target')
      (hstated : Key.ofExpr? key = Key.ofExpr? key')
      (hkey : Key.ofExpr? key = none → Renamed shared code S key key') :
      Renamed shared code S (.member target key) (.member target' key')
  | lambda {S : Names} {params params' : List String} {body body' : Expr}
      (hcode : code (.lambda params body) (.lambda params' body'))
      (hcount : params.length = params'.length)
      (hshared : ∀ x, shared x → (Names.same shared).bindAll (params.zip params') x x)
      (hbody : Renamed shared code ((Names.same shared).bindAll (params.zip params')) body body') :
      Renamed shared code S (.lambda params body) (.lambda params' body')
  | function {S : Names} {f : String} {params params' : List String} {body body' : Expr}
      {t t' : Option Ty} :
      Renamed shared code S (.function f params body t) (.function f params' body' t')

variable {shared : String → Prop} {code : Expr → Expr → Prop} {S T : Names} {e e' : Expr}

theorem Renamed.mono (h : Renamed shared code S e e') (hST : ∀ x y, S x y → T x y) :
    Renamed shared code T e e' := by
  induction h with
  | constant value => exact .constant value
  | name h => exact .name (hST _ _ h)
  | comparison _ _ hleft hright => exact .comparison (hleft hST) (hright hST)
  | connective _ _ hleft hright => exact .connective (hleft hST) (hright hST)
  | arithmetic _ _ hleft hright => exact .arithmetic (hleft hST) (hright hST)
  | define h _ hvalue => exact .define (hST _ _ h) (hvalue hST)
  | apply _ hlength _ hcallee harguments =>
    exact .apply (hcallee hST) hlength fun e he => harguments e he hST
  | member _ hstated _ htarget hkey =>
    exact .member (htarget hST) hstated fun hnone => hkey hnone hST
  | lambda hcode hcount hshared hbody => exact .lambda hcode hcount hshared hbody
  | function => exact .function

theorem Renamed.code_of_lambda {params params' : List String} {body body' : Expr}
    (h : Renamed shared code S (.lambda params body) (.lambda params' body')) :
    code (.lambda params body) (.lambda params' body') := by
  cases h with
  | lambda hcode => exact hcode

theorem Renamed.ofOperation {op : Operator} {left right left' right' : Expr}
    (hleft : Renamed shared code S left left') (hright : Renamed shared code S right right') :
    Renamed shared code S (operation op left right) (operation op left' right') := by
  cases op with
  | arithmetic op => exact .arithmetic hleft hright
  | comparison op => exact .comparison hleft hright
  | connective op => exact .connective hleft hright

theorem isSome_ofExpr?_rename {σ : String → String} {key : Expr}
    (h : (Key.ofExpr? key).isSome = false) : Key.ofExpr? (key.rename σ) = Key.ofExpr? key := by
  cases key with
  | constant value => rfl
  | name x t => cases h
  | _ => rfl

/-- A tree whose functions see nothing but shared names, and itself under another naming. -/
theorem Renamed.of_rename (hcode : ∀ e, e.All (Sees shared) → code e e) {σ : String → String}
    (hσ : ∀ x, shared x → σ x = x) (he : e.All (Sees shared))
    (hS : ∀ x ∈ e.free, S x (σ x)) : Renamed shared code S e (e.rename σ) := by
  induction e using Expr.induction generalizing S σ with
  | constant value => exact .constant value
  | name x t => exact .name (hS x List.mem_cons_self)
  | operation op left right hleft hright =>
    rw [free_operation, List.forall_mem_append] at hS
    rw [rename_operation]
    obtain ⟨-, hl, hr⟩ := all_operation.1 he
    exact .ofOperation (hleft hσ hl hS.1) (hright hσ hr hS.2)
  | define x value t ih =>
    rw [free, List.forall_mem_cons] at hS
    exact .define hS.1 (ih hσ (all_define.1 he).2 hS.2)
  | apply callee arguments hcallee harguments =>
    rw [free, List.forall_mem_append, freeInAll_eq_flatMap, List.forall_mem_flatMap] at hS
    obtain ⟨-, hc, ha⟩ := all_apply.1 he
    rw [rename, renameAll_eq_map]
    refine .apply (hcallee hσ hc hS.1) (by rw [List.length_map]) ?_
    rw [← List.map_prod_left_eq_zip]
    intro p hp
    obtain ⟨a, hmem, rfl⟩ := List.mem_map.1 hp
    exact harguments a hmem hσ (ha a hmem) (hS.2 a hmem)
  | member target key htarget hkey =>
    rw [free, List.forall_mem_append] at hS
    obtain ⟨-, ht, hk⟩ := all_member.1 he
    rw [rename]
    split
    · next hstated =>
      refine .member (htarget hσ ht hS.1) rfl fun hnone => ?_
      rw [hnone] at hstated
      cases hstated
    · next hstated =>
      rw [if_neg hstated] at hS
      refine .member (htarget hσ ht hS.1) ?_ fun _ => hkey hσ hk hS.2
      exact (isSome_ofExpr?_rename (Bool.eq_false_iff.2 hstated)).symm
  | lambda params body ih =>
    obtain ⟨hself, hb⟩ := all_lambda.1 he
    have hhidden : ∀ x, x ∈ params ∨ shared x → hide params σ x = x := by
      intro x hx
      unfold hide
      split
      · rfl
      · next hout => exact hσ x (hx.resolve_left hout)
    -- The body uses parameters and shared names only, which the renaming leaves alone.
    have hfixed : body.rename (hide params σ) = body :=
      rename_of_fixed fun x hx => hhidden x (hself x hx)
    rw [rename, hfixed]
    refine .lambda (hcode _ he) rfl (fun x hx => Names.bindAll_self (.inr ⟨rfl, hx⟩)) ?_
    have hbody := ih (S := (Names.same shared).bindAll (params.zip params))
      (fun x hx => hhidden x (.inr hx)) hb ?_
    · rwa [hfixed] at hbody
    · intro x hx
      rw [hhidden x (hself x hx)]
      exact Names.bindAll_self ((hself x hx).imp_right fun hx => ⟨rfl, hx⟩)
  | function f params body t ih => exact .function

theorem Renamed.refl (hcode : ∀ e, e.All (Sees shared) → code e e) (he : e.All (Sees shared))
    (hS : ∀ x ∈ e.free, S x x) : Renamed shared code S e e := by
  have hid : e.rename id = e := rename_of_fixed fun _ _ => rfl
  have hsame : Renamed shared code S e (e.rename id) := .of_rename hcode (fun _ _ => rfl) he hS
  rwa [hid] at hsame

/-- The second tree is the first one, but that in some of its anonymous functions the parameter `p`
is called `q`. -/
inductive Reparametrized (p q : String) : Expr → Expr → Prop
  | same (e : Expr) : Reparametrized p q e e
  | param {params : List String} {body : Expr} (hp : p ∈ params) :
      Reparametrized p q (.lambda params body)
        (.lambda (params.map (replacing p q)) (body.rename (replacing p q)))
  | operation {op : Operator} {left right left' right' : Expr}
      (hleft : Reparametrized p q left left') (hright : Reparametrized p q right right') :
      Reparametrized p q (operation op left right) (operation op left' right')
  | define {x : String} {value value' : Expr} {t : Option Ty}
      (hvalue : Reparametrized p q value value') :
      Reparametrized p q (.define x value t) (.define x value' t)
  | apply {callee callee' : Expr} {arguments arguments' : List Expr}
      (hcallee : Reparametrized p q callee callee')
      (hlength : arguments.length = arguments'.length)
      (harguments : ∀ e ∈ arguments.zip arguments', Reparametrized p q e.1 e.2) :
      Reparametrized p q (.apply callee arguments) (.apply callee' arguments')
  | member {target target' key key' : Expr} (htarget : Reparametrized p q target target')
      (hkey : Reparametrized p q key key') :
      Reparametrized p q (.member target key) (.member target' key')
  | lambda {params : List String} {body body' : Expr} (hbody : Reparametrized p q body body') :
      Reparametrized p q (.lambda params body) (.lambda params body')
  | function {f : String} {params : List String} {body body' : Expr} {t : Option Ty}
      (hbody : Reparametrized p q body body') :
      Reparametrized p q (.function f params body t) (.function f params body' t)

variable {p q : String}

theorem Reparametrized.ofExpr?_eq (h : Reparametrized p q e e') :
    Key.ofExpr? e = Key.ofExpr? e' := by
  cases h with
  | same => rfl
  | @operation op => cases op <;> rfl
  | _ => rfl

/-- A function that does not mention `q` does not get at it by being called. -/
theorem sees_of_fresh (hsees : e.All (Sees (· ≠ p)))
    (hfresh : e.All fun n => ¬ n.Mentions q) : e.All (Sees fun x => x ≠ p ∧ x ≠ q) := by
  refine (hsees.and hfresh.all).imp ?_
  rintro n ⟨hn, hq⟩
  cases n with
  | lambda params body =>
    intro x hx
    refine (hn x hx).imp_right fun hxp => ⟨hxp, ?_⟩
    rintro rfl
    exact not_mem_free_of_unmentioned (all_lambda.1 hq).2 hx
  | _ => trivial

theorem Reparametrized.renamed (h : Reparametrized p q e e')
    (hsees : e.All (Sees (· ≠ p))) (hfresh : e.All fun n => ¬ n.Mentions q)
    (hS : ∀ x ∈ e.free, S x x) :
    Renamed (fun x => x ≠ p ∧ x ≠ q) (Reparametrized p q) S e e' := by
  induction h generalizing S with
  | same e => exact .refl (fun e _ => .same e) (sees_of_fresh hsees hfresh) hS
  | @param params body hp =>
    obtain ⟨hself, hb⟩ := all_lambda.1 (sees_of_fresh hsees hfresh)
    obtain ⟨hq, hq'⟩ := all_lambda.1 hfresh
    have hbind : ∀ x, x ≠ q → x ∈ params ∨ x ≠ p ∧ x ≠ q →
        (Names.same fun x => x ≠ p ∧ x ≠ q).bindAll (params.zip (params.map (replacing p q))) x
          (replacing p q x) := by
      intro x hxq hx
      refine Names.bindAll_map (fun z hz => eq_of_replacing_eq hxq ?_) (hx.imp_right fun hx => ?_)
      · rintro rfl
        exact hq hz
      · exact ⟨(replacing_of_ne hx.1).symm, hx⟩
    refine .lambda (.param hp) (by rw [List.length_map]) (fun x hx => ?_) ?_
    · have hx' := hbind x hx.2 (.inr hx)
      rwa [replacing_of_ne hx.1] at hx'
    · refine .of_rename (fun e _ => .same e) (fun x hx => replacing_of_ne hx.1) hb fun x hx => ?_
      refine hbind x ?_ (hself x hx)
      rintro rfl
      exact not_mem_free_of_unmentioned hq' hx
  | operation _ _ hleft hright =>
    rw [free_operation, List.forall_mem_append] at hS
    obtain ⟨-, hl, hr⟩ := all_operation.1 hsees
    obtain ⟨-, hl', hr'⟩ := all_operation.1 hfresh
    exact .ofOperation (hleft hl hl' hS.1) (hright hr hr' hS.2)
  | define _ ih =>
    rw [free, List.forall_mem_cons] at hS
    exact .define hS.1 (ih (all_define.1 hsees).2 (all_define.1 hfresh).2 hS.2)
  | apply _ hlength _ hcallee harguments =>
    rw [free, List.forall_mem_append, freeInAll_eq_flatMap, List.forall_mem_flatMap] at hS
    obtain ⟨-, hc, ha⟩ := all_apply.1 hsees
    obtain ⟨-, hc', ha'⟩ := all_apply.1 hfresh
    refine .apply (hcallee hc hc' hS.1) hlength fun e he => ?_
    have hmem := (List.of_mem_zip (a := e.1) (b := e.2) he).1
    exact harguments e he (ha _ hmem) (ha' _ hmem) (hS.2 _ hmem)
  | member _ hkeys htarget hkey =>
    rw [free, List.forall_mem_append] at hS
    obtain ⟨-, ht, hk⟩ := all_member.1 hsees
    obtain ⟨-, ht', hk'⟩ := all_member.1 hfresh
    refine .member (htarget ht ht' hS.1) hkeys.ofExpr?_eq fun hnone => hkey hk hk' ?_
    rw [hnone] at hS
    exact hS.2
  | @lambda params body body' hbody ih =>
    obtain ⟨hself, -⟩ := all_lambda.1 (sees_of_fresh hsees hfresh)
    exact .lambda (.lambda hbody) rfl (fun x hx => Names.bindAll_self (.inr ⟨rfl, hx⟩))
      (ih (all_lambda.1 hsees).2 (all_lambda.1 hfresh).2 fun x hx =>
        Names.bindAll_self ((hself x hx).imp_right fun hx => ⟨rfl, hx⟩))
  | function => exact .function

end Expr

end Offside
