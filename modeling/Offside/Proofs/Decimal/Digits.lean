import Offside.Token.Lexeme

namespace Offside

open Lexeme

namespace Decimal

theorem digitChar_isDigit {d : Nat} (h : d < 10) : isDigit (digitChar d) = true := by
  have hall : ∀ d < 10, isDigit (digitChar d) = true := by decide
  exact hall d h

theorem digits_isDigit (n : Nat) : ∀ c ∈ digits n, isDigit c = true := by
  induction n using digits.induct with
  | case1 n h =>
    rw [digits, if_pos h]
    exact fun c hc => List.mem_singleton.1 hc ▸ digitChar_isDigit h
  | case2 n h ih =>
    rw [digits, if_neg h]
    intro c hc
    rcases List.mem_append.1 hc with hc | hc
    · exact ih c hc
    · exact List.mem_singleton.1 hc ▸ digitChar_isDigit (Nat.mod_lt n (by decide))

theorem digits_ne_nil (n : Nat) : digits n ≠ [] := by
  unfold digits
  split <;> simp

theorem integer_of_nonneg {n : Int} (h : 0 ≤ n) : integer n = natural n.natAbs :=
  if_neg (Int.not_lt.2 h)

theorem natural_inj {m n : Nat} (h : natural m = natural n) : m = n := by
  have hdigits := congrArg value (String.ofList_inj.1 h)
  rwa [value_digits, value_digits] at hdigits

/-- A natural number begins with a digit. -/
theorem natural_head (n : Nat) : ∃ c cs, (natural n).toList = c :: cs ∧ isLetter c = false := by
  have hdigits := digits_isDigit n
  rw [natural, String.toList_ofList]
  cases h : digits n with
  | nil => exact absurd h (digits_ne_nil n)
  | cons c cs =>
    refine ⟨c, cs, rfl, ?_⟩
    rw [h] at hdigits
    have hc := hdigits c List.mem_cons_self
    simp only [isDigit, isLetter, Bool.and_eq_true, decide_eq_true_eq, Bool.or_eq_false_iff,
      Bool.and_eq_false_iff, decide_eq_false_iff_not, Char.le_def, UInt32.le_iff_toNat_le] at hc ⊢
    simp at hc ⊢
    omega

end Decimal

end Offside
