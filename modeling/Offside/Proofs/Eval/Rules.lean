import Offside.Eval.Evaluate

namespace Offside

open Eval

/-- What a body sees: the bindings of its caller and its parameters. -/
def Environment.withArguments (env : Environment) (params : List String)
    (arguments : List Value) : Environment :=
  { env with bindings := env.bindings.insertAll (params.zip arguments) }

/-- The bindings of the caller again, after all that a body has done. -/
def Environment.withBindingsOf (after env : Environment) : Environment :=
  { after with bindings := env.bindings }

/-- What is evaluated in any case, from left to right. -/
def Expr.parts : Expr → List Expr
  | .constant _ | .name _ _ | .lambda _ _ | .function _ _ _ _ => []
  | .comparison _ left right | .arithmetic _ left right => [left, right]
  | .connective _ left _ => [left]
  | .define _ value _ => [value]
  | .apply callee arguments => callee :: arguments
  | .member target key => if (Key.ofExpr? key).isSome then [target] else [target, key]

section

variable (call : Request → Reply) (run : Expr → Environment → Outcome Value → Prop)

/-- Expressions are evaluated one after another, up to the first that fails. -/
inductive InOrder : List Expr → Environment → Outcome (List Value) → Prop
  | nil {env : Environment} : InOrder [] env (.ok [] env)
  | cons {e : Expr} {es : List Expr} {env between after : Environment} {v : Value}
      {vs : List Value} (hfirst : run e env (.ok v between))
      (hothers : InOrder es between (.ok vs after)) : InOrder (e :: es) env (.ok (v :: vs) after)
  | first {e : Expr} {es : List Expr} {env after : Environment} {cause : Error}
      (hfirst : run e env (.error cause after)) : InOrder (e :: es) env (.error cause after)
  | later {e : Expr} {es : List Expr} {env between after : Environment} {v : Value}
      {cause : Error} (hfirst : run e env (.ok v between))
      (hothers : InOrder es between (.error cause after)) :
      InOrder (e :: es) env (.error cause after)

/-- A function that has `missing` parameters left is given enough arguments, and its body comes to
`q`. A function with more bound arguments than parameters is never entered. -/
structure Enters (params : List String) (body : Expr) (bound arguments : List Value)
    (env : Environment) (missing : Nat) (q : Outcome Value) : Prop where
  missing_eq : bound.length + missing = params.length
  enough : missing ≤ arguments.length
  body : run body (env.withArguments params (bound ++ arguments.take missing)) q

/-- Calls of functions whose bodies are evaluated by `run`. -/
inductive Calls : Value → List Value → Environment → Outcome Value → Prop
  | waits {id missing : Nat} {params : List String} {body : Expr} {bound arguments : List Value}
      {env : Environment} (hmissing : bound.length + missing = params.length)
      (hfew : arguments.length < missing) :
      Calls (.function id params body bound) arguments env
        (newFunction params body (bound ++ arguments) env)
  | fails {id missing : Nat} {params : List String} {body : Expr} {bound arguments : List Value}
      {env after : Environment} {cause : Error}
      (henters : Enters run params body bound arguments env missing (.error cause after)) :
      Calls (.function id params body bound) arguments env
        (.error cause (after.withBindingsOf env))
  | returns {id missing : Nat} {params : List String} {body : Expr}
      {bound arguments : List Value} {env after : Environment} {v : Value}
      (henters : Enters run params body bound arguments env missing (.ok v after))
      (hall : arguments.length = missing) :
      Calls (.function id params body bound) arguments env (.ok v (after.withBindingsOf env))
  | passesOn {id missing : Nat} {params : List String} {body : Expr}
      {bound arguments : List Value} {env after : Environment} {v : Value} {r : Outcome Value}
      (henters : Enters run params body bound arguments env missing (.ok v after))
      (hmany : missing < arguments.length)
      (hrest : Calls v (arguments.drop missing) (after.withBindingsOf env) r) :
      Calls (.function id params body bound) arguments env r
  | native {id : Nat} {name : String} {arguments : List Value} {env : Environment} :
      Calls (.native id name) arguments env
        ((call ⟨id, name, arguments, env.memory, env.unused⟩).outcome env)
  | notFunction {v : Value} {arguments : List Value} {env : Environment}
      (hkind : v.kind ≠ "function") :
      Calls v arguments env (.error (.runtime (.notFunction v.kind)) env)

/-- What an expression comes to once its parts have values. -/
inductive Finishes : Expr → List Value → Environment → Outcome Value → Prop
  | constant {value : Literal} {env : Environment} :
      Finishes (.constant value) [] env (.ok (.ofLiteral value) env)
  | name {x : String} {t : Option Ty} {env : Environment} {v : Value}
      (hx : env.bindings.find? x = some v) : Finishes (.name x t) [] env (.ok v env)
  | undefined {x : String} {t : Option Ty} {env : Environment}
      (hx : env.bindings.find? x = none) :
      Finishes (.name x t) [] env (.error (.runtime (.undefinedName x)) env)
  | comparison {op : Comparison} {left right : Expr} {a b : Value} {env : Environment} :
      Finishes (.comparison op left right) [a, b] env
        ((check ((op.apply a b).map .bool) : Eval Value) env)
  | decided {op : Connective} {left right : Expr} {a : Value} {env : Environment}
      (ha : op.isDecidedBy a = true) : Finishes (.connective op left right) [a] env (.ok a env)
  | undecided {op : Connective} {left right : Expr} {a : Value} {env : Environment}
      {r : Outcome Value} (ha : op.isDecidedBy a = false) (hright : run right env r) :
      Finishes (.connective op left right) [a] env r
  | arithmetic {op : Arithmetic} {left right : Expr} {a b : Value} {env : Environment} :
      Finishes (.arithmetic op left right) [a, b] env
        ((check (op.apply a b) : Eval Value) env)
  | define {x : String} {value : Expr} {t : Option Ty} {v : Value} {env : Environment} :
      Finishes (.define x value t) [v] env
        (.ok v { env with bindings := env.bindings.insert x v })
  | apply {callee : Expr} {arguments : List Expr} {f : Value} {vs : List Value}
      {env : Environment} {r : Outcome Value} (hcall : Calls call run f vs env r) :
      Finishes (.apply callee arguments) (f :: vs) env r
  | member {target key : Expr} {k : Key} {v : Value} {env : Environment}
      (hkey : Key.ofExpr? key = some k) :
      Finishes (.member target key) [v] env ((check (v.member k) : Eval Value) env)
  | memberAt {target key : Expr} {v w : Value} {env : Environment}
      (hkey : Key.ofExpr? key = none) :
      Finishes (.member target key) [v, w] env
        ((check ((Key.ofValue w).bind v.member) : Eval Value) env)
  | lambda {params : List String} {body : Expr} {env : Environment} :
      Finishes (.lambda params body) [] env (newFunction params body [] env)
  | function {f : String} {params : List String} {body : Expr} {t : Option Ty}
      {env : Environment} :
      Finishes (.function f params body t) [] env (.error (.runtime (.onlyCompiled f)) env)

/-- One level of evaluation, whose nested evaluations are those of `run`. -/
inductive Level : Expr → Environment → Outcome Value → Prop
  | part {e : Expr} {env after : Environment} {cause : Error}
      (hparts : InOrder run e.parts env (.error cause after)) : Level e env (.error cause after)
  | whole {e : Expr} {env between : Environment} {vs : List Value} {r : Outcome Value}
      (hparts : InOrder run e.parts env (.ok vs between))
      (hrest : Finishes call run e vs between r) : Level e env r

end

/-- An expression comes to an outcome, in room for so many nested evaluations. A derivation is
finite, and nothing but the room bounds its size. -/
def Evaluates (call : Request → Reply) : (room : Nat) → Expr → Environment → Outcome Value → Prop
  | 0, _, env, r => r = .error (.runtime .nestedTooDeeply) env
  | room + 1, e, env, r => Level call (Evaluates call room) e env r

/-- There is at most one outcome. -/
def Deterministic {α β : Type} (run : α → Environment → Outcome β → Prop) : Prop :=
  ∀ a env r r', run a env r → run a env r' → r = r'

variable {call : Request → Reply} {run : Expr → Environment → Outcome Value → Prop}

theorem InOrder.unique (hrun : Deterministic run) : Deterministic (InOrder run) := by
  intro es env r r' h h'
  induction h generalizing r' with
  | nil =>
    cases h'
    rfl
  | cons hv hvs ih =>
    cases h' with
    | cons hv' hvs' =>
      cases hrun _ _ _ _ hv hv'
      cases ih _ hvs'
      rfl
    | first hv' => cases hrun _ _ _ _ hv hv'
    | later hv' hvs' =>
      cases hrun _ _ _ _ hv hv'
      cases ih _ hvs'
  | first hv =>
    cases h' with
    | cons hv' _ => cases hrun _ _ _ _ hv hv'
    | first hv' =>
      cases hrun _ _ _ _ hv hv'
      rfl
    | later hv' _ => cases hrun _ _ _ _ hv hv'
  | later hv hvs ih =>
    cases h' with
    | cons hv' hvs' =>
      cases hrun _ _ _ _ hv hv'
      cases ih _ hvs'
    | first hv' => cases hrun _ _ _ _ hv hv'
    | later hv' hvs' =>
      cases hrun _ _ _ _ hv hv'
      cases ih _ hvs'
      rfl

section

variable {params : List String} {body : Expr} {bound arguments : List Value} {env : Environment}
  {missing missing' : Nat} {q q' : Outcome Value}

theorem Enters.not_waits (h : Enters run params body bound arguments env missing q)
    (hmissing : bound.length + missing' = params.length) : ¬ arguments.length < missing' := by
  have hsame : missing = missing' := Nat.add_left_cancel (h.missing_eq.trans hmissing.symm)
  rw [← hsame]
  exact Nat.not_lt.2 h.enough

theorem Enters.unique (hrun : Deterministic run)
    (h : Enters run params body bound arguments env missing q)
    (h' : Enters run params body bound arguments env missing' q') :
    missing = missing' ∧ q = q' := by
  have hsame : missing = missing' := Nat.add_left_cancel (h.missing_eq.trans h'.missing_eq.symm)
  subst hsame
  exact ⟨rfl, hrun _ _ _ _ h.body h'.body⟩

end

theorem Calls.unique (hrun : Deterministic run) {v : Value} {arguments : List Value}
    {env : Environment} {r r' : Outcome Value} (h : Calls call run v arguments env r)
    (h' : Calls call run v arguments env r') : r = r' := by
  induction h with
  | waits hmissing hfew =>
    cases h' with
    | waits => rfl
    | fails henters => exact absurd hfew (henters.not_waits hmissing)
    | returns henters => exact absurd hfew (henters.not_waits hmissing)
    | passesOn henters => exact absurd hfew (henters.not_waits hmissing)
    | notFunction hkind => exact absurd rfl hkind
  | fails henters =>
    cases h' with
    | waits hmissing hfew => exact absurd hfew (henters.not_waits hmissing)
    | fails henters' =>
      obtain ⟨-, hq⟩ := henters.unique hrun henters'
      cases hq
      rfl
    | returns henters' => cases (henters.unique hrun henters').2
    | passesOn henters' => cases (henters.unique hrun henters').2
    | notFunction hkind => exact absurd rfl hkind
  | returns henters hall =>
    cases h' with
    | waits hmissing hfew => exact absurd hfew (henters.not_waits hmissing)
    | fails henters' => cases (henters.unique hrun henters').2
    | returns henters' =>
      obtain ⟨-, hq⟩ := henters.unique hrun henters'
      cases hq
      rfl
    | passesOn henters' hmany =>
      obtain ⟨rfl, -⟩ := henters.unique hrun henters'
      exact absurd hall (Nat.ne_of_gt hmany)
    | notFunction hkind => exact absurd rfl hkind
  | passesOn henters hmany hrest ih =>
    cases h' with
    | waits hmissing hfew => exact absurd hfew (henters.not_waits hmissing)
    | fails henters' => cases (henters.unique hrun henters').2
    | returns henters' hall =>
      obtain ⟨rfl, -⟩ := henters.unique hrun henters'
      exact absurd hall (Nat.ne_of_gt hmany)
    | passesOn henters' _ hrest' =>
      obtain ⟨rfl, hq⟩ := henters.unique hrun henters'
      cases hq
      exact ih hrest'
    | notFunction hkind => exact absurd rfl hkind
  | native =>
    cases h' with
    | native => rfl
    | notFunction hkind => exact absurd rfl hkind
  | notFunction hkind =>
    cases h' with
    | notFunction => rfl
    | _ => exact absurd rfl hkind

theorem Finishes.unique (hrun : Deterministic run) {e : Expr} {vs : List Value}
    {env : Environment} {r r' : Outcome Value} (h : Finishes call run e vs env r)
    (h' : Finishes call run e vs env r') : r = r' := by
  cases h with
  | constant =>
    cases h'
    rfl
  | name hx =>
    cases h' with
    | name hx' =>
      cases hx.symm.trans hx'
      rfl
    | undefined hx' => cases hx.symm.trans hx'
  | undefined hx =>
    cases h' with
    | name hx' => cases hx.symm.trans hx'
    | undefined => rfl
  | comparison =>
    cases h'
    rfl
  | decided ha =>
    cases h' with
    | decided => rfl
    | undecided ha' => cases ha.symm.trans ha'
  | undecided ha hright =>
    cases h' with
    | decided ha' => cases ha.symm.trans ha'
    | undecided _ hright' => exact hrun _ _ _ _ hright hright'
  | arithmetic =>
    cases h'
    rfl
  | define =>
    cases h'
    rfl
  | apply hcall =>
    cases h' with
    | apply hcall' => exact hcall.unique hrun hcall'
  | member hkey =>
    cases h' with
    | member hkey' =>
      cases hkey.symm.trans hkey'
      rfl
  | memberAt =>
    cases h'
    rfl
  | lambda =>
    cases h'
    rfl
  | function =>
    cases h'
    rfl

theorem Level.unique (hrun : Deterministic run) : Deterministic (Level call run) := by
  intro e env r r' h h'
  have hsame := InOrder.unique hrun e.parts env
  cases h with
  | part hparts =>
    cases h' with
    | part hparts' =>
      cases hsame _ _ hparts hparts'
      rfl
    | whole hparts' => cases hsame _ _ hparts hparts'
  | whole hparts hrest =>
    cases h' with
    | part hparts' => cases hsame _ _ hparts hparts'
    | whole hparts' hrest' =>
      cases hsame _ _ hparts hparts'
      exact hrest.unique hrun hrest'

theorem Evaluates.unique (room : Nat) : Deterministic (Evaluates call room) := by
  induction room with
  | zero =>
    rintro e env r r' rfl rfl
    rfl
  | succ room ih => exact Level.unique ih

end Offside
