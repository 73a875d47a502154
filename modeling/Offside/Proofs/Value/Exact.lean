import Mathlib
import Offside.Value.Arithmetic

namespace Offside

/-- The integers of 64 bits. -/
def IsWord (n : Int) : Prop := Int64.minValue.toInt ≤ n ∧ n ≤ Int64.maxValue.toInt

instance (n : Int) : Decidable (IsWord n) := inferInstanceAs (Decidable (_ ∧ _))

theorem isWord_iff {n : Int} : IsWord n ↔ -2 ^ 63 ≤ n ∧ n < 2 ^ 63 := by
  have hmin : Int64.minValue.toInt = -2 ^ 63 := rfl
  have hmax : Int64.maxValue.toInt = 2 ^ 63 - 1 := rfl
  rw [IsWord, hmin, hmax]
  omega

theorem isWord_toInt (a : Int64) : IsWord a.toInt :=
  ⟨a.minValue_le_toInt, a.toInt_le⟩

theorem toInt_ofInt {n : Int} (h : IsWord n) : (Int64.ofInt n).toInt = n :=
  Int64.toInt_ofInt_of_le (isWord_iff.1 h).1 (isWord_iff.1 h).2

theorem natAbs_tdiv_le_half (a : Int) {b : Int} (hb : 2 ≤ b.natAbs) :
    (a.tdiv b).natAbs ≤ a.natAbs / 2 := by
  rw [Int.natAbs_tdiv]
  exact Nat.div_le_div_left hb (by decide)

theorem isWord_tdiv_iff {a b : Int} (ha : IsWord a) (hb : b ≠ 0) :
    IsWord (a.tdiv b) ↔ ¬ (a = -2 ^ 63 ∧ b = -1) := by
  rw [isWord_iff] at *
  obtain rfl | hb1 := eq_or_ne b (-1)
  · rw [Int.tdiv_neg, Int.tdiv_one]
    omega
  obtain rfl | hb1 := eq_or_ne b 1
  · rw [Int.tdiv_one]
    omega
  have hhalf : (a.tdiv b).natAbs ≤ a.natAbs / 2 := natAbs_tdiv_le_half a (by omega)
  omega

theorem natAbs_tmod_lt (a : Int) {b : Int} (hb : b ≠ 0) : (a.tmod b).natAbs < b.natAbs := by
  rw [Int.natAbs_tmod]
  exact Nat.mod_lt _ (Int.natAbs_pos.2 hb)

theorem isWord_tmod (a : Int) {b : Int} (hb : b ≠ 0) (hword : IsWord b) : IsWord (a.tmod b) := by
  have hlt := natAbs_tmod_lt a hb
  rw [isWord_iff] at *
  omega

theorem not_isWord_pow {a : Int} (ha : 2 ≤ a.natAbs) {n : Nat} (hn : 64 ≤ n) :
    ¬ IsWord (a ^ n) := by
  have hbase : 2 ^ 64 ≤ a.natAbs ^ 64 := Nat.pow_le_pow_left ha 64
  have hexponent : a.natAbs ^ 64 ≤ a.natAbs ^ n := Nat.pow_le_pow_right (by omega) hn
  have habs : (a ^ n).natAbs = a.natAbs ^ n := Int.natAbs_pow a n
  rw [isWord_iff]
  omega

namespace Arithmetic

theorem fitted_of_isWord (op : Arithmetic) {n : Int} (h : IsWord n) :
    op.fitted n = .ok (.int (Int64.ofInt n)) := if_pos h

theorem fitted_of_not_isWord (op : Arithmetic) {n : Int} (h : ¬ IsWord n) :
    op.fitted n = .error (.integerOverflow op) := if_neg h

/-- What an operator makes of two integers if there is no bound on the results. The quotient is
rounded down, and the remainder has the sign of `a`. -/
def Exact : Arithmetic → (a b r : Int) → Prop
  | .add, a, b, r => r = a + b
  | .subtract, a, b, r => r = a - b
  | .multiply, a, b, r => r = a * b
  | .floorDivide, a, b, r => b ≠ 0 ∧ r = ⌊(a / b : ℚ)⌋
  | .remainder, a, b, r => b ≠ 0 ∧ b ∣ a - r ∧ |r| < |b| ∧ 0 ≤ r * a
  | .power, a, b, r => 0 ≤ b ∧ r = a ^ b.toNat
  | .divide, _, _, _ | .equal, _, _, _ => False

/-- Two integers stay integers. -/
def Integral (op : Arithmetic) (b : Int) : Prop :=
  op ≠ .divide ∧ op ≠ .equal ∧ (op = .power → 0 ≤ b)

def DividesByZero (op : Arithmetic) (b : Int) : Prop :=
  (op = .floorDivide ∨ op = .remainder) ∧ b = 0

/-- There is no remainder where there is no quotient, and no power with an exponent of more than 32
bits, though both may be words. -/
def Refuses (op : Arithmetic) (a b : Int) : Prop :=
  op = .remainder ∧ ¬ IsWord (a.tdiv b) ∨ op = .power ∧ 2 ^ 32 ≤ b

instance (op : Arithmetic) (a b : Int) : Decidable (op.Refuses a b) :=
  inferInstanceAs (Decidable (_ ∨ _))

theorem remainder_unique {a b r r' : Int} (h : Exact .remainder a b r)
    (h' : Exact .remainder a b r') : r = r' := by
  obtain ⟨-, hdvd, hlt, hsign⟩ := h
  obtain ⟨-, hdvd', hlt', hsign'⟩ := h'
  have hmultiple : |b| ∣ r - r' := (abs_dvd b _).2 (by simpa using dvd_sub hdvd' hdvd)
  rw [abs_lt] at hlt hlt'
  obtain ha | rfl | ha := lt_trichotomy a 0
  · have hr : r ≤ 0 := nonpos_of_mul_nonneg_left hsign ha
    have hr' : r' ≤ 0 := nonpos_of_mul_nonneg_left hsign' ha
    exact Int.sub_eq_zero.1 (Int.eq_zero_of_abs_lt_dvd hmultiple (abs_lt.2 (by omega)))
  · have hzero {r : Int} (hdvd : b ∣ 0 - r) (hlt : -|b| < r ∧ r < |b|) : r = 0 := by
      rw [zero_sub, dvd_neg] at hdvd
      exact Int.eq_zero_of_abs_lt_dvd ((abs_dvd b _).2 hdvd) (abs_lt.2 hlt)
    rw [hzero hdvd hlt, hzero hdvd' hlt']
  · have hr : 0 ≤ r := nonneg_of_mul_nonneg_left hsign ha
    have hr' : 0 ≤ r' := nonneg_of_mul_nonneg_left hsign' ha
    exact Int.sub_eq_zero.1 (Int.eq_zero_of_abs_lt_dvd hmultiple (abs_lt.2 (by omega)))

theorem Exact.unique {op : Arithmetic} {a b r r' : Int} (h : op.Exact a b r)
    (h' : op.Exact a b r') : r = r' := by
  cases op with
  | add | subtract | multiply => exact Eq.trans h h'.symm
  | floorDivide | power => exact h.2.trans h'.2.symm
  | remainder => exact remainder_unique h h'
  | divide | equal => exact h.elim

theorem exact_fdiv {a b : Int} (hb : b ≠ 0) : Exact .floorDivide a b (a.fdiv b) := by
  have hnonneg (a : Int) {b : Int} (hb : 0 ≤ b) : a.fdiv b = ⌊(a / b : ℚ)⌋ := by
    obtain ⟨n, rfl⟩ := Int.eq_ofNat_of_zero_le hb
    rw [Int.cast_natCast, Rat.floor_intCast_div_natCast, Int.fdiv_eq_ediv_of_nonneg _ hb]
  refine ⟨hb, ?_⟩
  obtain hb | hb := le_total 0 b
  · exact hnonneg a hb
  · have hneg := hnonneg (-a) (Int.neg_nonneg_of_nonpos hb)
    rwa [Int.neg_fdiv_neg, Int.cast_neg, Int.cast_neg, neg_div_neg_eq] at hneg

theorem exact_tmod {a b : Int} (hb : b ≠ 0) : Exact .remainder a b (a.tmod b) := by
  refine ⟨hb, Int.dvd_self_sub_tmod, ?_, ?_⟩
  · rw [Int.abs_eq_natAbs, Int.abs_eq_natAbs, Nat.cast_lt]
    exact natAbs_tmod_lt a hb
  · obtain ha | ha := le_total 0 a
    · exact mul_nonneg (Int.tmod_nonneg b ha) ha
    · have hneg : 0 ≤ (-a).tmod b := Int.tmod_nonneg b (Int.neg_nonneg_of_nonpos ha)
      rw [Int.neg_tmod] at hneg
      exact mul_nonneg_of_nonpos_of_nonpos (Int.nonpos_of_neg_nonneg hneg) ha

theorem exact_power {a b : Int} (hb : 0 ≤ b) : Exact .power a b (a ^ b.toNat) := ⟨hb, rfl⟩

/-- There are two powers of a small base, so that a large exponent need not be gone through. -/
theorem pow_of_natAbs_le_one {a : Int} (ha : a.natAbs ≤ 1) (n : Nat) :
    a ^ (if n = 0 then 0 else 2 - n % 2) = a ^ n := by
  obtain rfl | hn := eq_or_ne n 0
  · rfl
  rw [if_neg hn]
  obtain rfl | rfl | rfl : a = 0 ∨ a = 1 ∨ a = -1 := by omega
  · rw [zero_pow hn, zero_pow (by omega)]
  · rw [one_pow, one_pow]
  · exact neg_one_pow_congr (by grind)

theorem raise_eq (a : Int) (n : Nat) : raise a n = fitted .power (a ^ n) := by
  unfold raise
  split
  · next ha => exact congrArg _ (pow_of_natAbs_le_one ha n)
  · next ha =>
    split
    · next hn => exact (fitted_of_not_isWord _ (not_isWord_pow (by omega) hn)).symm
    · rfl

/-- Except for divisions by zero there is an exact result. It is given if it is a word and not
refused. -/
theorem onInts_eq {op : Arithmetic} {a b : Int} (hop : op.Integral b)
    (hzero : ¬ op.DividesByZero b) :
    ∃ r, op.Exact a b r ∧
      op.onInts a b = if op.Refuses a b then .error (.integerOverflow op) else op.fitted r := by
  obtain ⟨hdivide, hequal, hpower⟩ := hop
  cases op with
  | add => exact ⟨a + b, rfl, (if_neg (by simp [Refuses])).symm⟩
  | subtract => exact ⟨a - b, rfl, (if_neg (by simp [Refuses])).symm⟩
  | multiply => exact ⟨a * b, rfl, (if_neg (by simp [Refuses])).symm⟩
  | floorDivide =>
    have hb : b ≠ 0 := fun hb => hzero ⟨.inl rfl, hb⟩
    refine ⟨a.fdiv b, exact_fdiv hb, ?_⟩
    rw [if_neg (by simp [Refuses])]
    exact if_neg hb
  | remainder =>
    have hb : b ≠ 0 := fun hb => hzero ⟨.inr rfl, hb⟩
    refine ⟨a.tmod b, exact_tmod hb, (if_neg hb).trans ?_⟩
    by_cases hquotient : IsWord (a.tdiv b)
    · rw [fitted_of_isWord _ hquotient, if_neg (by simp [Refuses, hquotient])]
      rfl
    · rw [fitted_of_not_isWord _ hquotient, if_pos (.inl ⟨rfl, hquotient⟩)]
      rfl
  | power =>
    have hb : 0 ≤ b := hpower rfl
    refine ⟨a ^ b.toNat, exact_power hb, ?_⟩
    by_cases hlarge : 2 ^ 32 ≤ b
    · rw [if_pos (.inr ⟨rfl, hlarge⟩)]
      exact if_neg (by omega)
    · rw [if_neg (by simpa [Refuses] using hlarge), ← raise_eq]
      exact if_pos (by omega)
  | divide => exact absurd rfl hdivide
  | equal => exact absurd rfl hequal

theorem onInts_of_dividesByZero {op : Arithmetic} {a b : Int} (h : op.DividesByZero b) :
    op.onInts a b = .error .divisionByZero := by
  obtain ⟨rfl | rfl, hb⟩ := h
  · exact if_pos hb
  · exact if_pos hb

/-- The outcomes that there are. -/
theorem onInts_cases {op : Arithmetic} (a : Int) {b : Int} (hop : op.Integral b) :
    op.DividesByZero b ∧ op.onInts a b = .error .divisionByZero ∨
      ¬ op.DividesByZero b ∧ ∃ r, op.Exact a b r ∧
        (op.onInts a b = .error (.integerOverflow op) ∨
          IsWord r ∧ op.onInts a b = .ok (.int (Int64.ofInt r))) := by
  by_cases hzero : op.DividesByZero b
  · exact .inl ⟨hzero, onInts_of_dividesByZero hzero⟩
  · obtain ⟨r, hr, heq⟩ := onInts_eq hop hzero
    refine .inr ⟨hzero, r, hr, ?_⟩
    rw [heq]
    split
    · exact .inl rfl
    · by_cases hword : IsWord r
      · exact .inr ⟨hword, fitted_of_isWord op hword⟩
      · exact .inl (fitted_of_not_isWord op hword)

theorem integral_iff {op : Arithmetic} {b : Int64} :
    op.Integral b.toInt ↔ op ≠ .equal ∧ ¬ (op = .divide ∨ op = .power ∧ b < 0) := by
  rw [Integral, Int64.lt_iff_toInt_lt, ← Int.not_lt]
  have hzero : (0 : Int64).toInt = 0 := rfl
  tauto

theorem apply_ints {op : Arithmetic} {a b : Int64} (hop : op.Integral b.toInt) :
    op.apply (.int a) (.int b) = op.onInts a.toInt b.toInt := by
  obtain ⟨hequal, hints⟩ := integral_iff.1 hop
  simp only [apply, Value.number?, onNumbers, if_neg hequal, if_neg hints]

/-- An overflow is reported for results that are no words, and for two kinds of words: the remainder
of the smallest integer by `-1`, and powers of `0`, `1` and `-1` with large exponents. -/
theorem apply_overflow_iff {op : Arithmetic} {a b : Int64} (hop : op.Integral b.toInt)
    (hzero : ¬ op.DividesByZero b.toInt) :
    op.apply (.int a) (.int b) = .error (.integerOverflow op) ↔
      (∃ r, op.Exact a.toInt b.toInt r ∧ ¬ IsWord r) ∨
        op = .remainder ∧ a = Int64.minValue ∧ b = -1 ∨
        op = .power ∧ a.toInt.natAbs ≤ 1 ∧ 2 ^ 32 ≤ b.toInt := by
  have hquotient (hop : op = .remainder) :
      ¬ IsWord (a.toInt.tdiv b.toInt) ↔ a = Int64.minValue ∧ b = -1 := by
    have hb : b.toInt ≠ 0 := fun hb => hzero ⟨.inr hop, hb⟩
    rw [isWord_tdiv_iff (isWord_toInt a) hb, not_not, ← Int64.toInt_inj, ← Int64.toInt_inj]
    rfl
  obtain ⟨r, hr, heq⟩ := onInts_eq hop hzero
  rw [apply_ints hop, heq]
  split
  · next hrefuses =>
    refine iff_of_true rfl ?_
    obtain ⟨hop, hno⟩ | ⟨rfl, hlarge⟩ := hrefuses
    · exact .inr (.inl ⟨hop, (hquotient hop).1 hno⟩)
    · obtain ha | ha := Nat.lt_or_ge 1 a.toInt.natAbs
      · exact .inl ⟨_, ⟨hr.1, rfl⟩, not_isWord_pow ha (by omega)⟩
      · exact .inr (.inr ⟨rfl, ha, hlarge⟩)
  · next hrefuses =>
    constructor
    · intro hoverflow
      refine .inl ⟨r, hr, fun hword => ?_⟩
      rw [fitted_of_isWord _ hword] at hoverflow
      cases hoverflow
    · rintro (⟨r', hr', hword⟩ | ⟨hop, hab⟩ | ⟨hop, -, hlarge⟩)
      · rw [hr.unique hr']
        exact fitted_of_not_isWord _ hword
      · exact absurd (.inl ⟨hop, (hquotient hop).2 hab⟩) hrefuses
      · exact absurd (.inr ⟨hop, hlarge⟩) hrefuses

theorem apply_overflow_iff_power :
    Integral .power (40 : Int64).toInt ∧ ¬ DividesByZero .power (40 : Int64).toInt ∧
      Exact .power (3 : Int64).toInt (40 : Int64).toInt (3 ^ 40) ∧ ¬ IsWord (3 ^ 40) ∧
      Arithmetic.power.apply (.int 3) (.int 40) = .error (.integerOverflow .power) := by
  have hop : Integral .power (40 : Int64).toInt := ⟨by decide, by decide, fun _ => by decide⟩
  have hzero : ¬ DividesByZero .power (40 : Int64).toInt := by
    rintro ⟨h | h, -⟩ <;> cases h
  have hexact : Exact .power (3 : Int64).toInt (40 : Int64).toInt (3 ^ 40) := ⟨by decide, rfl⟩
  have hword : ¬ IsWord (3 ^ 40) := by decide
  exact ⟨hop, hzero, hexact, hword, (apply_overflow_iff hop hzero).2 (.inl ⟨_, hexact, hword⟩)⟩

/-- The remainder of the smallest integer by `-1` is `0`, and every power of `1` is `1`. -/
theorem apply_overflow_of_isWord :
    Arithmetic.remainder.apply (.int Int64.minValue) (.int (-1)) =
        .error (.integerOverflow .remainder) ∧
      Exact .remainder Int64.minValue.toInt (-1 : Int64).toInt 0 ∧ IsWord 0 ∧
      Arithmetic.power.apply (.int 1) (.int 4294967296) = .error (.integerOverflow .power) ∧
      Exact .power (1 : Int64).toInt (4294967296 : Int64).toInt 1 ∧ IsWord 1 := by
  refine ⟨rfl, ⟨by decide, by decide, by decide, by decide⟩, by decide, rfl, ⟨by decide, ?_⟩,
    by decide⟩
  exact (one_pow _).symm

end Arithmetic

end Offside
