import Mathlib
import Offside.Proofs.Value.Exact

namespace Offside

namespace Words

/-- Why a calculation stops. -/
inductive Stop where
  | given (cause : RuntimeError)
  /-- A step that is not checked has a result that is no word. -/
  | unchecked

def overflow (op : Arithmetic) : Stop := .given (.integerOverflow op)

def step (stop : Stop) (n : Int) : Except Stop Int64 :=
  if IsWord n then .ok (Int64.ofInt n) else .error stop

/-- The quotient, cut off. -/
def quotient (stop : Stop) (a b : Int64) : Except Stop Int64 := step stop (a.toInt.tdiv b.toInt)

/-- One division gives the quotient and the remainder, and neither if the quotient is no word. -/
def remainder (stop : Stop) (a b : Int64) : Except Stop Int64 := do
  let _ ← quotient stop a b
  step stop (a.toInt.tmod b.toInt)

/-- A quotient that is cut off is too large by one where it is negative and not exact. -/
def floorDivide (a b : Int64) : Except Stop Int64 := do
  let q ← quotient (overflow .floorDivide) a b
  let r ← remainder .unchecked a b
  if r ≠ 0 ∧ (a < 0) ≠ (b < 0) then step .unchecked (q.toInt - 1) else return q

def product (a b : Int64) : Except Stop Int64 := step (overflow .power) (a.toInt * b.toInt)

/-- `acc * base ^ n` by repeated squaring. -/
def raise (acc base : Int64) (n : Nat) : Except Stop Int64 :=
  if n = 0 then return acc
  else if n = 1 then product acc base
  else do
    let acc ← if n % 2 = 1 then product acc base else pure acc
    let square ← product base base
    raise acc square (n / 2)

/-- An operator that gives integers for integers. -/
def calculate (op : Arithmetic) (a b : Int64) : Except Stop Int64 :=
  match op with
  | .subtract => step (overflow op) (a.toInt - b.toInt)
  | .multiply => step (overflow op) (a.toInt * b.toInt)
  | .floorDivide => if b = 0 then .error (.given .divisionByZero) else floorDivide a b
  | .remainder => if b = 0 then .error (.given .divisionByZero) else remainder (overflow op) a b
  | .power => if b.toInt < 2 ^ 32 then raise 1 a b.toInt.toNat else .error (overflow op)
  | _ => step (overflow op) (a.toInt + b.toInt)

theorem step_of_isWord (stop : Stop) {n : Int} (h : IsWord n) :
    step stop n = .ok (Int64.ofInt n) := if_pos h

theorem step_of_not_isWord (stop : Stop) {n : Int} (h : ¬ IsWord n) :
    step stop n = .error stop := if_neg h

theorem step_toInt (stop : Stop) (a : Int64) : step stop a.toInt = .ok a := by
  rw [step_of_isWord stop (isWord_toInt a), Int64.ofInt_toInt]

theorem map_step (op : Arithmetic) (n : Int) :
    (step (overflow op) n).map Value.int = (op.fitted n).mapError .given := by
  by_cases h : IsWord n
  · rw [step_of_isWord _ h, Arithmetic.fitted_of_isWord op h]
    rfl
  · rw [step_of_not_isWord _ h, Arithmetic.fitted_of_not_isWord op h]
    rfl

/-- The quotient that is rounded down, from the one that is cut off. -/
theorem fdiv_eq_ite {a b : Int} (hb : b ≠ 0) :
    a.fdiv b = if a.tmod b ≠ 0 ∧ (a < 0) ≠ (b < 0) then a.tdiv b - 1 else a.tdiv b := by
  have hdvd : b ∣ a ↔ a.tmod b = 0 := Int.dvd_iff_tmod_eq_zero
  rw [Int.fdiv_eq_tdiv]
  obtain hb | hb := Int.lt_or_gt_of_ne hb
  · rw [Int.sign_eq_neg_one_of_neg hb]
    grind
  · rw [Int.sign_eq_one_of_pos hb]
    grind

/-- What is not divided exactly is divided by two at least. -/
theorem isWord_tdiv_sub_one {a b : Int} (ha : IsWord a) (h : a.tmod b ≠ 0) :
    IsWord (a.tdiv b - 1) := by
  obtain rfl | hb := eq_or_ne b 0
  · rw [Int.tdiv_zero]
    decide
  have hone : b ≠ 1 := fun hb => h (hb ▸ Int.tmod_one a)
  have hminus : b ≠ -1 := fun hb => h (hb ▸ (Int.tmod_neg a 1).trans (Int.tmod_one a))
  have hhalf : (a.tdiv b).natAbs ≤ a.natAbs / 2 := natAbs_tdiv_le_half a (by omega)
  rw [isWord_iff] at *
  omega

theorem toInt_eq_zero {a : Int64} : a.toInt = 0 ↔ a = 0 := Int64.toInt_inj (y := 0)

theorem toInt_ne_zero {a : Int64} (ha : a ≠ 0) : a.toInt ≠ 0 := mt toInt_eq_zero.1 ha

section

variable {a b : Int64}

theorem remainder_eq (stop : Stop) (hb : b ≠ 0) :
    remainder stop a b =
      if IsWord (a.toInt.tdiv b.toInt) then .ok (Int64.ofInt (a.toInt.tmod b.toInt))
      else .error stop := by
  have hremainder := isWord_tmod a.toInt (toInt_ne_zero hb) (isWord_toInt b)
  unfold remainder quotient
  split
  · next hquotient =>
    rw [step_of_isWord stop hquotient, step_of_isWord stop hremainder]
    rfl
  · next hquotient =>
    rw [step_of_not_isWord stop hquotient]
    rfl

/-- The signs of words, and whether they are zero, are those of the integers. -/
theorem differs_iff (hb : b ≠ 0) :
    Int64.ofInt (a.toInt.tmod b.toInt) ≠ 0 ∧ (a < 0) ≠ (b < 0) ↔
      a.toInt.tmod b.toInt ≠ 0 ∧ (a.toInt < 0) ≠ (b.toInt < 0) := by
  have hremainder := isWord_tmod a.toInt (toInt_ne_zero hb) (isWord_toInt b)
  rw [Int64.lt_iff_toInt_lt, Int64.lt_iff_toInt_lt, ne_eq (Int64.ofInt _), ← Int64.toInt_inj,
    toInt_ofInt hremainder]
  rfl

theorem floorDivide_eq (hb : b ≠ 0) :
    floorDivide a b = step (overflow .floorDivide) (a.toInt.fdiv b.toInt) := by
  have hne := toInt_ne_zero hb
  rw [floorDivide, quotient, remainder_eq .unchecked hb]
  by_cases hquotient : IsWord (a.toInt.tdiv b.toInt)
  · rw [step_of_isWord _ hquotient, if_pos hquotient, fdiv_eq_ite hne]
    simp only [Except.bind, bind, differs_iff hb, toInt_ofInt hquotient]
    split
    · next hdiffers =>
      have hword := isWord_tdiv_sub_one (isWord_toInt a) hdiffers.1
      rw [step_of_isWord _ hword, step_of_isWord _ hword]
    · exact (step_of_isWord _ hquotient).symm
  · -- The smallest integer by `-1` is divided exactly.
    obtain ⟨ha, hb⟩ := not_not.1 ((isWord_tdiv_iff (isWord_toInt a) hne).not.1 hquotient)
    have hexact : a.toInt.fdiv b.toInt = a.toInt.tdiv b.toInt := by rw [ha, hb]; rfl
    rw [hexact, step_of_not_isWord _ hquotient]
    rfl

end

theorem not_isWord_mul_pos {n m : Int} (hn : ¬ IsWord n) (hm : 0 < m) : ¬ IsWord (n * m) := by
  rw [isWord_iff] at *
  obtain hn | hn : n < -2 ^ 63 ∨ 2 ^ 63 ≤ n := by omega
  · have : n * m ≤ n := by nlinarith
    omega
  · have : n ≤ n * m := by nlinarith
    omega

/-- `2 ^ 63` is not a square. -/
theorem not_isWord_square_mul {n m : Int} (hn : ¬ IsWord (n * n)) (hm : m ≠ 0) :
    ¬ IsWord (n * n * m) := by
  have hsquare : 2 ^ 63 < n.natAbs * n.natAbs := by
    have hle : ¬ n.natAbs ≤ 3037000499 := fun hle => by
      have hmul : n.natAbs * n.natAbs ≤ 3037000499 * 3037000499 := Nat.mul_le_mul hle hle
      rw [isWord_iff, ← Int.natAbs_mul_self] at hn
      omega
    have hmul : 3037000500 * 3037000500 ≤ n.natAbs * n.natAbs :=
      Nat.mul_le_mul (by omega) (by omega)
    omega
  have hproduct : n.natAbs * n.natAbs ≤ (n * n * m).natAbs := by
    rw [Int.natAbs_mul, Int.natAbs_mul]
    exact Nat.le_mul_of_pos_right _ (Int.natAbs_pos.2 hm)
  rw [isWord_iff]
  omega

theorem product_of_isWord {a b : Int64} (h : IsWord (a.toInt * b.toInt)) :
    product a b = .ok (Int64.ofInt (a.toInt * b.toInt)) := step_of_isWord _ h

theorem product_of_not_isWord {a b : Int64} (h : ¬ IsWord (a.toInt * b.toInt)) :
    product a b = .error (overflow .power) := step_of_not_isWord _ h

/-- A product is zero only if a factor is. -/
theorem ofInt_mul_ne_zero {a b : Int64} (ha : a ≠ 0) (hb : b ≠ 0)
    (h : IsWord (a.toInt * b.toInt)) : Int64.ofInt (a.toInt * b.toInt) ≠ 0 := by
  rw [ne_eq, ← Int64.toInt_inj, toInt_ofInt h]
  exact mul_ne_zero (toInt_ne_zero ha) (toInt_ne_zero hb)

section

variable {acc base : Int64} {k : Nat}

/-- A square is a word if the power that it goes into is one. For this `acc` must not be zero. -/
theorem bind_square (hk : 0 < k) (hacc : acc ≠ 0 ∨ base = 0)
    (hraise : ∀ square : Int64, acc ≠ 0 ∨ square = 0 →
      raise acc square k = step (overflow .power) (acc.toInt * square.toInt ^ k)) :
    (product base base).bind (raise acc · k) =
      step (overflow .power) (acc.toInt * (base.toInt * base.toInt) ^ k) := by
  by_cases hword : IsWord (base.toInt * base.toInt)
  · have hnext : acc ≠ 0 ∨ Int64.ofInt (base.toInt * base.toInt) = 0 :=
      hacc.imp_right fun hbase => by rw [hbase]; rfl
    rw [product_of_isWord hword]
    refine (hraise _ hnext).trans ?_
    rw [toInt_ofInt hword]
  · have hbase : base ≠ 0 := by
      rintro rfl
      exact hword (by decide)
    have hothers : acc.toInt * (base.toInt * base.toInt) ^ (k - 1) ≠ 0 :=
      mul_ne_zero (toInt_ne_zero (hacc.resolve_right hbase))
        (pow_ne_zero _ (mul_ne_zero (toInt_ne_zero hbase) (toInt_ne_zero hbase)))
    have hpower : acc.toInt * (base.toInt * base.toInt) ^ k =
        base.toInt * base.toInt * (acc.toInt * (base.toInt * base.toInt) ^ (k - 1)) := by
      rw [mul_left_comm, ← pow_succ', Nat.sub_add_cancel hk]
    rw [product_of_not_isWord hword, hpower,
      step_of_not_isWord _ (not_isWord_square_mul hword hothers)]
    rfl

/-- A product is a word if its product with squares is one. -/
theorem bind_product {rest : Int64 → Except Stop Int64} (hacc : acc ≠ 0 ∨ base = 0)
    (hrest : ∀ next : Int64, next ≠ 0 ∨ base = 0 →
      rest next = step (overflow .power) (next.toInt * (base.toInt * base.toInt) ^ k)) :
    (product acc base).bind rest =
      step (overflow .power) (acc.toInt * base.toInt * (base.toInt * base.toInt) ^ k) := by
  by_cases hword : IsWord (acc.toInt * base.toInt)
  · have hnext : Int64.ofInt (acc.toInt * base.toInt) ≠ 0 ∨ base = 0 := by
      by_cases hbase : base = 0
      · exact .inr hbase
      · exact .inl (ofInt_mul_ne_zero (hacc.resolve_right hbase) hbase hword)
    rw [product_of_isWord hword]
    refine (hrest _ hnext).trans ?_
    rw [toInt_ofInt hword]
  · have hbase : base ≠ 0 := by
      rintro rfl
      exact hword (by rw [Int64.toInt_zero, mul_zero]; decide)
    have hpos : 0 < (base.toInt * base.toInt) ^ k :=
      pow_pos (mul_self_pos.2 (toInt_ne_zero hbase)) _
    rw [product_of_not_isWord hword, step_of_not_isWord _ (not_isWord_mul_pos hword hpos)]
    rfl

end

/-- No product on the way overflows unless the power does. -/
theorem raise_eq {acc base : Int64} {n : Nat} (hacc : acc ≠ 0 ∨ base = 0) :
    raise acc base n = step (overflow .power) (acc.toInt * base.toInt ^ n) := by
  induction n using Nat.strong_induction_on generalizing acc base with
  | h n ih =>
    unfold raise
    split
    · next hn =>
      rw [hn, pow_zero, mul_one, step_toInt]
      rfl
    split
    · next hn =>
      rw [hn, pow_one]
      rfl
    have hsquare (next : Int64) (hnext : next ≠ 0 ∨ base = 0) :=
      bind_square (k := n / 2) (by omega) hnext fun _ h => ih (n / 2) (by omega) h
    have hpower : base.toInt ^ n = base.toInt ^ (n % 2) * (base.toInt * base.toInt) ^ (n / 2) := by
      rw [← sq, ← pow_mul, ← pow_add, Nat.mod_add_div]
    rw [hpower]
    split
    · next hodd =>
      rw [hodd, pow_one, ← mul_assoc]
      exact bind_product hacc hsquare
    · next heven =>
      rw [Nat.mod_two_ne_one.1 heven, pow_zero, one_mul]
      exact hsquare acc hacc

/-- The steps come to what the operator makes of integers. -/
theorem map_calculate {op : Arithmetic} {a b : Int64} (hop : op.Integral b.toInt) :
    (calculate op a b).map Value.int = (op.onInts a.toInt b.toInt).mapError .given := by
  obtain ⟨hdivide, hequal, hpower⟩ := hop
  have hzero : b = 0 ↔ b.toInt = 0 := toInt_eq_zero.symm
  cases op with
  | add | subtract | multiply => exact map_step _ _
  | floorDivide =>
    simp only [calculate, Arithmetic.onInts, hzero]
    split
    · rfl
    · next hb => rw [floorDivide_eq (mt hzero.1 hb), map_step]
  | remainder =>
    simp only [calculate, Arithmetic.onInts, hzero]
    split
    · rfl
    · next hb =>
      rw [remainder_eq _ (mt hzero.1 hb)]
      split
      · next hquotient =>
        have hword := isWord_tmod a.toInt hb (isWord_toInt b)
        rw [Arithmetic.fitted_of_isWord _ hquotient, ← step_of_isWord (overflow .remainder) hword,
          map_step]
        rfl
      · next hquotient =>
        rw [Arithmetic.fitted_of_not_isWord _ hquotient]
        rfl
  | power =>
    have hb : 0 ≤ b.toInt := hpower rfl
    have hone : (1 : Int64) ≠ 0 ∨ a = 0 := .inl (by decide)
    simp only [calculate, Arithmetic.onInts]
    by_cases hsmall : b.toInt < 2 ^ 32
    · rw [if_pos hsmall, if_pos (by omega), raise_eq hone, map_step, Arithmetic.raise_eq,
        Int64.toInt_one, one_mul]
    · rw [if_neg hsmall, if_neg (by omega)]
      rfl
  | divide => exact absurd rfl hdivide
  | equal => exact absurd rfl hequal

theorem ne_unchecked_of_map {r : Except Stop Int64} {outcome : Except RuntimeError Value}
    (h : r.map Value.int = outcome.mapError .given) : r ≠ .error .unchecked := by
  rintro rfl
  cases outcome <;> cases h

end Words

namespace Arithmetic

variable {op : Arithmetic} {a b : Int64}

theorem dividesByZero_iff :
    op.DividesByZero b.toInt ↔ (op = .floorDivide ∨ op = .remainder) ∧ b = 0 :=
  and_congr_right fun _ => Words.toInt_eq_zero

theorem Exact.not_dividesByZero {a b r : Int} (h : op.Exact a b r) : ¬ op.DividesByZero b := by
  rintro ⟨rfl | rfl, hb⟩
  · exact h.1 hb
  · exact h.1 hb

/-- No step of the calculation in words leaves them unnoticed. The outcome is the exact result, a
division by zero or an overflow, and an overflow wherever the exact result is no word. -/
theorem apply_exact (hop : op.Integral b.toInt) :
    let outcome := op.apply (.int a) (.int b)
    Words.calculate op a b ≠ .error .unchecked ∧
      (Words.calculate op a b).map Value.int = outcome.mapError .given ∧
      (∀ v, outcome = .ok v → ∃ n : Int64, v = .int n ∧ op.Exact a.toInt b.toInt n.toInt) ∧
      (∀ cause, outcome = .error cause →
        cause = .divisionByZero ∨ cause = .integerOverflow op) ∧
      (outcome = .error .divisionByZero ↔ (op = .floorDivide ∨ op = .remainder) ∧ b = 0) ∧
      ∀ r, op.Exact a.toInt b.toInt r → ¬ IsWord r → outcome = .error (.integerOverflow op) := by
  intro outcome
  have hsteps : (Words.calculate op a b).map Value.int = outcome.mapError .given := by
    rw [Words.map_calculate hop, ← apply_ints hop]
  have hints : outcome = op.onInts a.toInt b.toInt := apply_ints hop
  refine ⟨Words.ne_unchecked_of_map hsteps, hsteps, ?_⟩
  rw [hints, ← dividesByZero_iff]
  obtain ⟨hzero, houtcome⟩ | ⟨hzero, r, hr, houtcome | ⟨hword, houtcome⟩⟩ :=
    onInts_cases a.toInt hop
  · rw [houtcome]
    refine ⟨nofun, fun cause hcause => .inl ?_, iff_of_true rfl hzero, fun r hr => ?_⟩
    · cases hcause
      rfl
    · exact absurd hzero hr.not_dividesByZero
  · rw [houtcome]
    refine ⟨nofun, fun cause hcause => .inr ?_, iff_of_false nofun hzero, fun _ _ _ => rfl⟩
    cases hcause
    rfl
  · rw [houtcome]
    refine ⟨fun v hv => ?_, nofun, iff_of_false nofun hzero, fun r' hr' hno => ?_⟩
    · cases hv
      exact ⟨_, rfl, by rwa [toInt_ofInt hword]⟩
    · exact absurd (hr.unique hr' ▸ hword) hno

/-- The smallest integer in three parts, of which the quotient is rounded down. -/
theorem apply_exact_quotient :
    let outcome := Arithmetic.floorDivide.apply (.int Int64.minValue) (.int 3)
    Integral .floorDivide (3 : Int64).toInt ∧ outcome = .ok (.int (-3074457345618258603)) ∧
      Exact .floorDivide Int64.minValue.toInt (3 : Int64).toInt (-3074457345618258603) ∧
      Words.calculate .floorDivide Int64.minValue 3 ≠ .error .unchecked := by
  intro outcome
  have hop : Integral .floorDivide (3 : Int64).toInt := ⟨by decide, by decide, nofun⟩
  have houtcome : outcome = .ok (.int (-3074457345618258603)) := rfl
  obtain ⟨hsteps, -, hexact, -⟩ := apply_exact (a := Int64.minValue) hop
  obtain ⟨n, hn, hr⟩ := hexact _ houtcome
  cases hn
  exact ⟨hop, houtcome, hr, hsteps⟩

end Arithmetic

end Offside
