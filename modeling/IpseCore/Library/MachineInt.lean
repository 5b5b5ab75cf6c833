import Mathlib

/-!
# Unsigned machine arithmetic

Unsigned integers of `w` bits are natural numbers below `2 ^ w`. The operations
below are the checked, saturating and wrapping variants of the usual primitive
integer types, stated on `ℕ` with the width as a parameter. Wrapping is the
behaviour of an optimised build without overflow checks.
-/

namespace Unsigned

/-- The largest value of `w` bits. -/
def maxOf (w : ℕ) : ℕ := 2 ^ w - 1

/-- Addition that fails on overflow. -/
def checkedAdd (w a b : ℕ) : Option ℕ := if a + b ≤ maxOf w then some (a + b) else none

/-- Subtraction that fails below zero. -/
def checkedSub (a b : ℕ) : Option ℕ := if b ≤ a then some (a - b) else none

/-- Multiplication that fails on overflow. -/
def checkedMul (w a b : ℕ) : Option ℕ := if a * b ≤ maxOf w then some (a * b) else none

/-- Exponentiation that fails on overflow. -/
def checkedPow (w base e : ℕ) : Option ℕ := if base ^ e ≤ maxOf w then some (base ^ e) else none

/-- Division that fails on a zero divisor. -/
def checkedDiv (a b : ℕ) : Option ℕ := if b = 0 then none else some (a / b)

/-- Addition clamped at the largest value. -/
def saturatingAdd (w a b : ℕ) : ℕ := min (a + b) (maxOf w)

/-- Multiplication clamped at the largest value. -/
def saturatingMul (w a b : ℕ) : ℕ := min (a * b) (maxOf w)

/-- Subtraction clamped at zero: truncated subtraction on `ℕ`. -/
def saturatingSub (a b : ℕ) : ℕ := a - b

/-- Addition modulo `2 ^ w`. -/
def wrappingAdd (w a b : ℕ) : ℕ := (a + b) % 2 ^ w

/-- Subtraction modulo `2 ^ w`, for operands below `2 ^ w`. -/
def wrappingSub (w a b : ℕ) : ℕ := (a + (2 ^ w - b % 2 ^ w)) % 2 ^ w

/-- Multiplication modulo `2 ^ w`. -/
def wrappingMul (w a b : ℕ) : ℕ := (a * b) % 2 ^ w

@[simp] theorem checkedAdd_eq_some_iff {w a b c : ℕ} :
    checkedAdd w a b = some c ↔ a + b ≤ maxOf w ∧ c = a + b := by
  unfold checkedAdd
  split_ifs with h <;> simp [h, eq_comm]

@[simp] theorem checkedAdd_eq_none_iff {w a b : ℕ} :
    checkedAdd w a b = none ↔ maxOf w < a + b := by
  unfold checkedAdd
  split_ifs with h <;> simp [h]
  omega

@[simp] theorem checkedSub_eq_some_iff {a b c : ℕ} :
    checkedSub a b = some c ↔ b ≤ a ∧ c = a - b := by
  unfold checkedSub
  split_ifs with h <;> simp [h, eq_comm]

@[simp] theorem checkedSub_eq_none_iff {a b : ℕ} : checkedSub a b = none ↔ a < b := by
  unfold checkedSub
  split_ifs with h <;> simp [h]
  omega

@[simp] theorem checkedMul_eq_some_iff {w a b c : ℕ} :
    checkedMul w a b = some c ↔ a * b ≤ maxOf w ∧ c = a * b := by
  unfold checkedMul
  split_ifs with h <;> simp [h, eq_comm]

@[simp] theorem checkedMul_eq_none_iff {w a b : ℕ} :
    checkedMul w a b = none ↔ maxOf w < a * b := by
  unfold checkedMul
  split_ifs with h <;> simp [h]
  omega

@[simp] theorem checkedPow_eq_some_iff {w base e c : ℕ} :
    checkedPow w base e = some c ↔ base ^ e ≤ maxOf w ∧ c = base ^ e := by
  unfold checkedPow
  split_ifs with h <;> simp [h, eq_comm]

@[simp] theorem checkedPow_eq_none_iff {w base e : ℕ} :
    checkedPow w base e = none ↔ maxOf w < base ^ e := by
  unfold checkedPow
  split_ifs with h <;> simp [h]
  omega

@[simp] theorem checkedDiv_eq_some_iff {a b c : ℕ} :
    checkedDiv a b = some c ↔ b ≠ 0 ∧ a / b = c := by
  unfold checkedDiv
  split_ifs <;> simp_all

@[simp] theorem checkedDiv_eq_none_iff {a b : ℕ} : checkedDiv a b = none ↔ b = 0 := by
  unfold checkedDiv
  split_ifs <;> simp_all

theorem saturatingMul_le (w a b : ℕ) : saturatingMul w a b ≤ a * b := by
  unfold saturatingMul
  omega

theorem saturatingAdd_le (w a b : ℕ) : saturatingAdd w a b ≤ a + b := by
  unfold saturatingAdd
  omega

theorem saturatingAdd_of_le {w a b : ℕ} (h : a + b ≤ maxOf w) : saturatingAdd w a b = a + b := by
  unfold saturatingAdd
  omega

theorem wrappingAdd_of_lt {w a b : ℕ} (h : a + b < 2 ^ w) : wrappingAdd w a b = a + b :=
  Nat.mod_eq_of_lt h

theorem wrappingSub_of_le {w a b : ℕ} (ha : a < 2 ^ w) (h : b ≤ a) :
    wrappingSub w a b = a - b := by
  unfold wrappingSub
  have hb : b % 2 ^ w = b := Nat.mod_eq_of_lt (by omega)
  rw [hb]
  have : a + (2 ^ w - b) = (a - b) + 2 ^ w := by omega
  rw [this, Nat.add_mod_right, Nat.mod_eq_of_lt (by omega)]

theorem wrappingAdd_lt (w a b : ℕ) : wrappingAdd w a b < 2 ^ w :=
  Nat.mod_lt _ (Nat.two_pow_pos w)

/-- A wrapping sum of a wrapped value is the exact sum, wrapped. -/
theorem wrappingAdd_mod (w a b : ℕ) : wrappingAdd w (a % 2 ^ w) b = (a + b) % 2 ^ w := by
  unfold wrappingAdd
  rw [Nat.mod_add_mod]

/-- A wrapping difference of a wrapped value is the exact difference, wrapped, when it does
not go below zero. -/
theorem wrappingSub_mod_of_le {w a b : ℕ} (h : b ≤ a) :
    wrappingSub w (a % 2 ^ w) b = (a - b) % 2 ^ w := by
  unfold wrappingSub
  have hlt : b % 2 ^ w < 2 ^ w := Nat.mod_lt _ (Nat.two_pow_pos w)
  have hdiv : 2 ^ w * (b / 2 ^ w) + b % 2 ^ w = b := Nat.div_add_mod b (2 ^ w)
  -- the wrapped complement of `b` adds whole turns of `2 ^ w` to `a - b`
  have hsum : a + (2 ^ w - b % 2 ^ w) = (a - b) + 2 ^ w * (b / 2 ^ w + 1) := by
    rw [Nat.mul_add, Nat.mul_one]
    omega
  rw [Nat.mod_add_mod, hsum, Nat.add_mul_mod_self_left]

/-- Adding a number and taking it away again gets back any value below `2 ^ w`. -/
theorem wrappingSub_wrappingAdd {w a : ℕ} (b : ℕ) (ha : a < 2 ^ w) :
    wrappingSub w (wrappingAdd w a b) b = a := by
  unfold wrappingAdd
  rw [wrappingSub_mod_of_le (Nat.le_add_left b a), Nat.add_sub_cancel, Nat.mod_eq_of_lt ha]

/-- A wrapping sum started at zero only reduces its term, which a wrapping product does anyway. -/
theorem wrappingMul_zero_wrappingAdd (w a b : ℕ) :
    wrappingMul w (wrappingAdd w 0 a) b = wrappingMul w a b := by
  unfold wrappingMul wrappingAdd
  rw [Nat.zero_add, Nat.mod_mul_mod]

end Unsigned
