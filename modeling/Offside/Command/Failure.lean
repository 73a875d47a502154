import Offside.Decimal.Digits

namespace Offside

/-- What failed, and why, from the outermost cause to the innermost. -/
structure Failure where
  text : String
  causes : List String := []
  deriving DecidableEq

namespace Failure

/-- Says what was being done when something failed. -/
def during (text : String) (f : Failure) : Failure :=
  ⟨text, f.text :: f.causes⟩

/-- The lines of a text after the first one are indented. -/
def indent (spaces : String) (text : String) : String :=
  String.ofList (text.toList.flatMap fun c => if c = '\n' then c :: spaces.toList else [c])

def numbered : (n : Nat) → List String → String
  | _, [] => ""
  | n, cause :: causes =>
    "\n    " ++ Decimal.natural n ++ ": " ++ indent "       " cause ++ numbered (n + 1) causes

/-- Several causes are numbered, a single one is not. -/
def report (f : Failure) : String :=
  "Error: " ++ f.text ++
    (match f.causes with
    | [] => ""
    | [cause] => "\n\nCaused by:\n    " ++ indent "    " cause
    | causes => "\n\nCaused by:" ++ numbered 0 causes) ++
    "\n"

end Failure

end Offside
