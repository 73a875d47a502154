import Offside.Expr.Basic

namespace Offside.Expr

def operation : Operator → Expr → Expr → Expr
  | .arithmetic op, left, right => .arithmetic op left right
  | .comparison op, left, right => .comparison op left right
  | .connective op, left, right => .connective op left right

theorem eq_operation_of_checked {op : Operator} {left right e : Expr}
    (h : checkedOperation op left right = .ok e) : e = operation op left right := by
  cases op with
  | arithmetic op =>
    simp only [checkedOperation, checkedArithmetic] at h
    split at h <;> cases h
    rfl
  | comparison op =>
    simp only [checkedOperation, checkedComparison] at h
    split at h <;> cases h
    rfl
  | connective op =>
    cases h
    rfl

theorem checkedApply_cons_eq (callee : Expr) (arguments : List Expr) (expected : Option Ty) :
    ∃ cause, checkedApply (callee :: arguments) expected =
      if callee.ty.all (acceptsArguments · expected arguments.length) then
        .ok (.apply callee arguments)
      else .error (.type cause) := by
  rw [checkedApply]
  cases callee.ty with
  | none => exact ⟨.unknownTy "", rfl⟩
  | some t => exact ⟨_, rfl⟩

theorem eq_apply_of_checked {terms : List Expr} {expected : Option Ty} {e : Expr}
    (h : checkedApply terms expected = .ok e) :
    ∃ callee arguments, terms = callee :: arguments ∧ e = .apply callee arguments := by
  cases terms with
  | nil => cases h
  | cons callee arguments =>
    obtain ⟨cause, hcheck⟩ := checkedApply_cons_eq callee arguments expected
    rw [hcheck] at h
    split at h <;> cases h
    exact ⟨callee, arguments, rfl, rfl⟩

theorem checkedDefine_eq (x : String) (value : Expr) (declared : Option Ty) :
    ∃ cause, checkedDefine x value declared =
      if declared.all (fun d => value.ty.all (· = d)) then
        .ok (.define x value (value.ty.or declared))
      else .error (.type cause) := by
  cases declared with
  | none => exact ⟨.unknownTy x, rfl⟩
  | some expected =>
    unfold checkedDefine
    cases value.ty with
    | none => exact ⟨.unknownTy x, rfl⟩
    | some actual => exact ⟨.wrongDefinition x expected actual, by simp⟩

theorem eq_define_of_checked {x : String} {value e : Expr} {declared : Option Ty}
    (h : checkedDefine x value declared = .ok e) :
    e = .define x value (value.ty.or declared) := by
  obtain ⟨cause, hcheck⟩ := checkedDefine_eq x value declared
  rw [hcheck] at h
  split at h <;> cases h
  rfl

/-- A definition of a declared type is of that type. -/
theorem ty_of_checkedDefine_some {x : String} {value e : Expr} {t : Ty}
    (h : checkedDefine x value (some t) = .ok e) : e.ty = some t := by
  obtain ⟨cause, hcheck⟩ := checkedDefine_eq x value (some t)
  rw [hcheck] at h
  split at h
  · next hpass =>
    cases h
    show value.ty.or (some t) = some t
    cases hv : value.ty with
    | none => rfl
    | some a =>
      rw [hv] at hpass
      rw [Option.some_or, of_decide_eq_true hpass]
  · cases h

theorem map_asName? {es : List Expr} {names : List String} (h : es.mapM asName? = some names) :
    es.map asName? = names.map some := by
  induction es generalizing names with
  | nil =>
    cases h
    rfl
  | cons e es ih =>
    rw [List.mapM_cons] at h
    obtain ⟨x, hx, h⟩ := Option.bind_eq_some_iff.1 h
    obtain ⟨xs, hxs, h⟩ := Option.bind_eq_some_iff.1 h
    cases h
    rw [List.map_cons, List.map_cons, hx, ih hxs]

theorem exists_name_of_mapM_asName? {es : List Expr} {names : List String}
    (h : es.mapM asName? = some names) : ∀ e ∈ es, ∃ x t, e = .name x t := by
  intro e he
  have hmem : e.asName? ∈ es.map asName? := List.mem_map_of_mem he
  rw [map_asName? h] at hmem
  obtain ⟨x, -, hx⟩ := List.mem_map.1 hmem
  cases e with
  | name y t => exact ⟨y, t, rfl⟩
  | _ => cases hx

theorem exists_asName?_of_mapM {es : List Expr} {names : List String}
    (h : es.mapM asName? = some names) : ∀ x ∈ names, ∃ e ∈ es, e.asName? = some x := by
  intro x hx
  have hmem : some x ∈ names.map some := List.mem_map_of_mem hx
  rw [← map_asName? h] at hmem
  exact List.mem_map.1 hmem

@[elab_as_elim]
theorem induction {motive : Expr → Prop} (constant : ∀ value, motive (.constant value))
    (name : ∀ x t, motive (.name x t))
    (operation : ∀ op left right, motive left → motive right → motive (operation op left right))
    (define : ∀ x value t, motive value → motive (.define x value t))
    (apply : ∀ callee arguments, motive callee → (∀ a ∈ arguments, motive a) →
      motive (.apply callee arguments))
    (member : ∀ target key, motive target → motive key → motive (.member target key))
    (lambda : ∀ params body, motive body → motive (.lambda params body))
    (function : ∀ f params body t, motive body → motive (.function f params body t)) :
    ∀ e, motive e
  | .constant value => constant value
  | .name x t => name x t
  | .comparison op left right => operation (.comparison op) left right
      (induction constant name operation define apply member lambda function left)
      (induction constant name operation define apply member lambda function right)
  | .connective op left right => operation (.connective op) left right
      (induction constant name operation define apply member lambda function left)
      (induction constant name operation define apply member lambda function right)
  | .arithmetic op left right => operation (.arithmetic op) left right
      (induction constant name operation define apply member lambda function left)
      (induction constant name operation define apply member lambda function right)
  | .define x value t => define x value t
      (induction constant name operation define apply member lambda function value)
  | .apply callee arguments => apply callee arguments
      (induction constant name operation define apply member lambda function callee)
      fun a _ => induction constant name operation define apply member lambda function a
  | .member target key => member target key
      (induction constant name operation define apply member lambda function target)
      (induction constant name operation define apply member lambda function key)
  | .lambda params body => lambda params body
      (induction constant name operation define apply member lambda function body)
  | .function f params body t => function f params body t
      (induction constant name operation define apply member lambda function body)

mutual

/-- A tree and every tree within it. -/
def nodes : Expr → List Expr
  | .constant value => [.constant value]
  | .name x t => [.name x t]
  | .comparison op left right => .comparison op left right :: (left.nodes ++ right.nodes)
  | .connective op left right => .connective op left right :: (left.nodes ++ right.nodes)
  | .arithmetic op left right => .arithmetic op left right :: (left.nodes ++ right.nodes)
  | .define x value t => .define x value t :: value.nodes
  | .apply callee arguments =>
    .apply callee arguments :: (callee.nodes ++ nodesOfAll arguments)
  | .member target key => .member target key :: (target.nodes ++ key.nodes)
  | .lambda params body => .lambda params body :: body.nodes
  | .function f params body t => .function f params body t :: body.nodes

def nodesOfAll : List Expr → List Expr
  | [] => []
  | e :: es => e.nodes ++ nodesOfAll es

end

theorem nodesOfAll_eq_flatMap (es : List Expr) : nodesOfAll es = es.flatMap nodes := by
  induction es with
  | nil => rfl
  | cons e es ih => rw [nodesOfAll, ih, List.flatMap_cons]

/-- A tree of nodes with `P`. -/
def All (P : Expr → Prop) (e : Expr) : Prop := ∀ n ∈ e.nodes, P n

section

variable {P Q : Expr → Prop}

theorem All.self {e : Expr} (h : e.All P) : P e :=
  h e (by cases e <;> exact List.mem_cons_self)

theorem All.imp {e : Expr} (h : e.All P) (hPQ : ∀ n, P n → Q n) : e.All Q :=
  fun n hn => hPQ n (h n hn)

theorem All.and {e : Expr} (hP : e.All P) (hQ : e.All Q) : e.All fun n => P n ∧ Q n :=
  fun n hn => ⟨hP n hn, hQ n hn⟩

@[simp] theorem all_constant {value : Literal} :
    (Expr.constant value).All P ↔ P (.constant value) := by
  simp [All, nodes]

@[simp] theorem all_name {x : String} {t : Option Ty} : (Expr.name x t).All P ↔ P (.name x t) := by
  simp [All, nodes]

@[simp] theorem all_operation {op : Operator} {left right : Expr} :
    (operation op left right).All P ↔
      P (operation op left right) ∧ left.All P ∧ right.All P := by
  cases op <;> simp [All, nodes, operation, or_imp, forall_and]

@[simp] theorem all_define {x : String} {value : Expr} {t : Option Ty} :
    (Expr.define x value t).All P ↔ P (.define x value t) ∧ value.All P := by
  simp [All, nodes]

@[simp] theorem all_apply {callee : Expr} {arguments : List Expr} :
    (Expr.apply callee arguments).All P ↔
      P (.apply callee arguments) ∧ callee.All P ∧ ∀ a ∈ arguments, a.All P := by
  simp only [All, nodes, nodesOfAll_eq_flatMap, List.mem_cons, List.mem_append, List.mem_flatMap,
    or_imp, forall_and, forall_eq, forall_exists_index, and_imp]
  exact and_congr_right fun _ => and_congr_right fun _ =>
    ⟨fun h a ha n hn => h n a ha hn, fun h n a ha hn => h a ha n hn⟩

@[simp] theorem all_member {target key : Expr} :
    (Expr.member target key).All P ↔ P (.member target key) ∧ target.All P ∧ key.All P := by
  simp [All, nodes, or_imp, forall_and]

@[simp] theorem all_lambda {params : List String} {body : Expr} :
    (Expr.lambda params body).All P ↔ P (.lambda params body) ∧ body.All P := by
  simp [All, nodes]

@[simp] theorem all_function {f : String} {params : List String} {body : Expr} {t : Option Ty} :
    (Expr.function f params body t).All P ↔ P (.function f params body t) ∧ body.All P := by
  simp [All, nodes]

/-- What is within a tree has only nodes of that tree. -/
theorem All.all {e : Expr} (h : e.All P) : e.All (All P) := by
  induction e using Expr.induction with
  | constant value => exact all_constant.2 h
  | name x t => exact all_name.2 h
  | operation op left right hleft hright =>
    obtain ⟨-, hl, hr⟩ := all_operation.1 h
    exact all_operation.2 ⟨h, hleft hl, hright hr⟩
  | define x value t ih => exact all_define.2 ⟨h, ih (all_define.1 h).2⟩
  | apply callee arguments hcallee harguments =>
    obtain ⟨-, hc, ha⟩ := all_apply.1 h
    exact all_apply.2 ⟨h, hcallee hc, fun a hmem => harguments a hmem (ha a hmem)⟩
  | member target key htarget hkey =>
    obtain ⟨-, ht, hk⟩ := all_member.1 h
    exact all_member.2 ⟨h, htarget ht, hkey hk⟩
  | lambda params body ih => exact all_lambda.2 ⟨h, ih (all_lambda.1 h).2⟩
  | function f params body t ih => exact all_function.2 ⟨h, ih (all_function.1 h).2⟩

end

mutual

/-- The tree without its static types. -/
def erased : Expr → Expr
  | .constant value => .constant value
  | .name x _ => .name x none
  | .comparison op left right => .comparison op left.erased right.erased
  | .connective op left right => .connective op left.erased right.erased
  | .arithmetic op left right => .arithmetic op left.erased right.erased
  | .define x value _ => .define x value.erased none
  | .apply callee arguments => .apply callee.erased (erasedAll arguments)
  | .member target key => .member target.erased key.erased
  | .lambda params body => .lambda params body.erased
  | .function f params body _ => .function f params body.erased none

def erasedAll : List Expr → List Expr
  | [] => []
  | e :: es => e.erased :: erasedAll es

end

theorem erasedAll_eq_map (es : List Expr) : erasedAll es = es.map erased := by
  induction es with
  | nil => rfl
  | cons e es ih => rw [erasedAll, ih, List.map_cons]

theorem erased_operation (op : Operator) (left right : Expr) :
    (operation op left right).erased = operation op left.erased right.erased := by
  cases op <;> rfl

mutual

/-- How many nodes stand above the deepest leaf. -/
def height : Expr → Nat
  | .constant _ | .name _ _ => 0
  | .comparison _ left right | .connective _ left right | .arithmetic _ left right =>
    max left.height right.height + 1
  | .define _ value _ => value.height + 1
  | .apply callee arguments => max callee.height (heightOfAll arguments) + 1
  | .member target key => max target.height key.height + 1
  | .lambda _ body | .function _ _ body _ => body.height + 1

def heightOfAll : List Expr → Nat
  | [] => 0
  | e :: es => max e.height (heightOfAll es)

end

theorem height_operation (op : Operator) (left right : Expr) :
    (operation op left right).height = max left.height right.height + 1 := by
  cases op <;> rfl

theorem heightOfAll_le {es : List Expr} {n : Nat} (h : ∀ e ∈ es, e.height ≤ n) :
    heightOfAll es ≤ n := by
  induction es with
  | nil => exact Nat.zero_le n
  | cons e es ih =>
    rw [List.forall_mem_cons] at h
    exact Nat.max_le.2 ⟨h.1, ih h.2⟩

end Offside.Expr
