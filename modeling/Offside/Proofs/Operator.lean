import Offside.Operator

namespace Offside.Operator

theorem symbol_ofSymbol? {text : String} {op : Operator} (h : ofSymbol? text = some op) :
    op.symbol = text := by
  unfold ofSymbol? at h
  split at h <;> first | cases h; rfl | cases h

theorem ne_equal_of_ofSymbol? {text : String} {op : Operator} (h : ofSymbol? text = some op) :
    op ≠ .arithmetic .equal := by
  intro heq
  subst heq
  unfold ofSymbol? at h
  split at h <;> cases h

theorem ofSymbol?_symbol_isSome (op : Operator) : (ofSymbol? op.symbol).isSome := by
  rcases op with op | op | op <;> cases op <;> rfl

theorem tier_eq (op : Operator) :
    op.tier = if op.symbol = "+" ∨ op.symbol = "-" then .sum else .product := by
  rcases op with op | op | op <;> cases op <;> rfl

end Offside.Operator
