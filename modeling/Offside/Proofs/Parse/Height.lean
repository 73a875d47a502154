import Mathlib
import Offside.Proofs.Parse.Progress

namespace Offside

namespace Grammar

theorem simpleHeight_lt_square (room : Nat) : simpleHeight (room + 1) < 2 * (room + 1) ^ 2 := by
  induction room with
  | zero => decide
  | succ room ih =>
    rw [simpleHeight]
    have hsquare : 2 * (room + 1 + 1) ^ 2 = 2 * (room + 1) ^ 2 + 4 * (room + 1) + 2 := by ring
    omega

end Grammar

namespace Parse

open Grammar

/-- However a source mixes groups, chains, applications, definitions and functions: no path through a
tree that the parser gives has more than `2 * (maxNesting + 1) ^ 2` nodes. -/
theorem statement_height {s t : ParseState} {e : Expr}
    (h : statement s = .ok (some (.expression e)) t) :
    e.height + 1 ≤ 2 * (maxNesting + 1) ^ 2 := by
  have hwithin :=
    (heights progress progress_quiet).growth.statementWithin (s.tokens.size + 1) (0 : Nat)
  obtain ⟨_, ⟨_, _, _, ⟨_, hlow⟩, _⟩, _⟩ := size_of_progress hwithin h
  have hlow : e.height ≤ simpleHeight (maxNesting + 1) := hlow
  exact Nat.lt_of_le_of_lt hlow (simpleHeight_lt_square maxNesting)

set_option maxRecDepth 4000 in
theorem statement_height_members :
    let e := Expr.define "g" (.lambda ["x"] (.apply (.name "f" none) [.member
      (.arithmetic .add (.arithmetic .multiply (.name "x" none) (.constant (.int 2)))
        (.constant (.int 1))) (.name "y" none)])) none
    ∃ t, statement (.ofSource "g = \\x -> f (x * 2 + 1).y") = .ok (some (.expression e)) t ∧
      e.height + 1 = 7 ∧ e.height + 1 ≤ 2 * (maxNesting + 1) ^ 2 := by
  intro e
  let t : ParseState := ⟨⟨25, [], [], []⟩, {}⟩
  have h : statement (.ofSource "g = \\x -> f (x * 2 + 1).y") = .ok (some (.expression e)) t := by
    cbv
  exact ⟨t, h, rfl, statement_height h⟩

end Parse

end Offside
