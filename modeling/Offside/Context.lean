import Offside.Bindings
import Offside.Ty

namespace Offside

structure Scope where
  aliases : Bindings Ty := {}
  values : Bindings Ty := {}

/-- There is always an innermost scope; those around it follow from the inside out. -/
structure Context where
  innermost : Scope := {}
  outer : List Scope := []

namespace Context

def empty : Context := {}

def scopes (c : Context) : List Scope := c.innermost :: c.outer

def depth (c : Context) : Nat := c.scopes.length

/-- The type an alias stands for, seen from the innermost scope. -/
def alias? (c : Context) (name : String) : Option Ty :=
  c.scopes.findSome? fun scope => scope.aliases.find? name

/-- The type of a value, seen from the innermost scope. -/
def value? (c : Context) (name : String) : Option Ty :=
  c.scopes.findSome? fun scope => scope.values.find? name

def setAlias (c : Context) (name : String) (t : Ty) : Context :=
  { c with innermost := { c.innermost with aliases := c.innermost.aliases.insert name t } }

def setValue (c : Context) (name : String) (t : Ty) : Context :=
  { c with innermost := { c.innermost with values := c.innermost.values.insert name t } }

def enter (c : Context) : Context :=
  ⟨{}, c.scopes⟩

/-- The outermost scope is never left. -/
def exit (c : Context) : Context :=
  match c.outer with
  | [] => c
  | scope :: outer => ⟨scope, outer⟩

theorem value?_setValue (c : Context) (name other : String) (t : Ty) :
    (c.setValue name t).value? other = if other = name then some t else c.value? other := by
  by_cases h : other = name <;>
    simp [value?, setValue, scopes, List.findSome?_cons, Bindings.find?_insert, h]

theorem alias?_setAlias (c : Context) (name other : String) (t : Ty) :
    (c.setAlias name t).alias? other = if other = name then some t else c.alias? other := by
  by_cases h : other = name <;>
    simp [alias?, setAlias, scopes, List.findSome?_cons, Bindings.find?_insert, h]

@[simp] theorem alias?_setValue (c : Context) (name other : String) (t : Ty) :
    (c.setValue name t).alias? other = c.alias? other := rfl

@[simp] theorem value?_setAlias (c : Context) (name other : String) (t : Ty) :
    (c.setAlias name t).value? other = c.value? other := rfl

@[simp] theorem value?_enter (c : Context) (name : String) :
    c.enter.value? name = c.value? name := rfl

@[simp] theorem exit_enter (c : Context) : c.enter.exit = c := rfl

@[simp] theorem depth_setValue (c : Context) (name : String) (t : Ty) :
    (c.setValue name t).depth = c.depth := rfl

@[simp] theorem depth_enter (c : Context) : c.enter.depth = c.depth + 1 := rfl

end Context

end Offside
