namespace Offside.Text

/-- The items of a block stand on lines of their own, each behind its label. -/
inductive Outline where
  | leaf (text : String)
  | block (opening closing : String) (items : List (String × Outline))

namespace Outline

def indentation (level : Nat) : String := "".pushn ' ' (4 * level)

mutual

/-- The text of an outline that begins on a line indented by `level` steps. -/
def render (level : Nat) : Outline → String
  | .leaf text => text
  | .block opening closing [] => opening ++ closing
  | .block opening closing (item :: items) =>
    opening ++ "\n" ++ renderItems (level + 1) (item :: items) ++ indentation level ++ closing

def renderItems (level : Nat) : List (String × Outline) → String
  | [] => ""
  | (label, item) :: items =>
    indentation level ++ label ++ item.render level ++ ",\n" ++ renderItems level items

end

/-- A named group of unlabelled items. -/
def tuple (name : String) (items : List Outline) : Outline :=
  .block (name ++ "(") ")" (items.map (Prod.mk "" ·))

/-- A named group of labelled items. -/
def fields (name : String) (items : List (String × Outline)) : Outline :=
  .block (name ++ " \x7b") "\x7d" (items.map fun item => (item.1 ++ ": ", item.2))

def list (items : List Outline) : Outline :=
  .block "[" "]" (items.map (Prod.mk "" ·))

end Outline

end Offside.Text
