namespace Offside

/-- A later entry stands before an earlier one and hides it. -/
structure Bindings (α : Type) where
  entries : List (String × α) := []

namespace Bindings

variable {α : Type}

def empty : Bindings α := {}

def find? (b : Bindings α) (name : String) : Option α :=
  b.entries.lookup name

def insert (b : Bindings α) (name : String) (a : α) : Bindings α :=
  ⟨(name, a) :: b.entries⟩

def insertAll (b : Bindings α) (entries : List (String × α)) : Bindings α :=
  entries.foldl (fun b e => b.insert e.1 e.2) b

@[simp] theorem find?_empty (name : String) : (empty : Bindings α).find? name = none := rfl

theorem find?_insert (b : Bindings α) (name other : String) (a : α) :
    (b.insert name a).find? other = if other = name then some a else b.find? other := by
  rw [find?, insert, List.lookup_cons]
  by_cases h : other = name
  · simp [h]
  · simp [h, beq_false_of_ne h, find?]

@[simp] theorem find?_insert_self (b : Bindings α) (name : String) (a : α) :
    (b.insert name a).find? name = some a := by
  simp [find?_insert]

theorem find?_insert_of_ne (b : Bindings α) {name other : String} (a : α) (h : other ≠ name) :
    (b.insert name a).find? other = b.find? other := by
  simp [find?_insert, h]

end Bindings

end Offside
