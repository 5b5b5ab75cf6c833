import IpseCore.Library.Rounding

/-!
# `Percent` and its multiplication

`sp_arithmetic`'s per-things are fixed-point fractions with an accuracy; a
`Percent` counts parts per hundred. Decoding rejects values above the accuracy
and `from_parts` saturates, so a `Percent` never exceeds one: the structure
below carries that bound.

Multiplying a balance by a per-thing is `overflow_prune_mul`: the quotient by the
accuracy is scaled exactly, and `rational_mul_correction` adds the scaled
remainder, rounded as asked. With `Rounding::Nearest` the product is the exact
product rounded to nearest, an exact half rounded down.
-/

namespace IpseCore

/-- `Rounding` of the per-thing corrections. -/
inductive Rounding where
  | Up
  | Down
  | Nearest
  deriving DecidableEq, Repr

/-- `rational_mul_correction`: the part of `x * numer / denom` lost by dividing `x`
by `denom` first, recovered from the remainder and rounded. -/
def rationalMulCorrection (x numer denom : ℕ) (rounding : Rounding) : ℕ :=
  let rem := x % denom
  let remMulUpper := rem * numer
  let remMulDivInner := remMulUpper / denom
  match rounding with
  | .Down => remMulDivInner
  | .Up => if 0 < remMulUpper % denom then remMulDivInner + 1 else remMulDivInner
  | .Nearest => if denom / 2 < remMulUpper % denom then remMulDivInner + 1 else remMulDivInner

/-- `overflow_prune_mul`: `x` times `part / accuracy` without an intermediate overflow. -/
def overflowPruneMul (accuracy x part : ℕ) (rounding : Rounding) : ℕ :=
  x / accuracy * part + rationalMulCorrection x part accuracy rounding

/-- With rounding to nearest, `overflow_prune_mul` is the exact product rounded to
nearest with an exact half rounded down. -/
theorem overflowPruneMul_nearest {accuracy : ℕ} (hacc : 0 < accuracy) (x part : ℕ) :
    overflowPruneMul accuracy x part .Nearest = Rounding.roundHalfDown (x * part) accuracy := by
  have hx : x * part = accuracy * (x / accuracy * part) + x % accuracy * part := by
    conv_lhs => rw [← Nat.div_add_mod x accuracy]
    ring
  have hdiv : x * part / accuracy = x / accuracy * part + x % accuracy * part / accuracy := by
    rw [hx, Nat.add_comm, Nat.add_mul_div_left _ _ hacc, Nat.add_comm]
  have hmod : x * part % accuracy = x % accuracy * part % accuracy := by
    rw [hx, Nat.mul_add_mod]
  unfold overflowPruneMul rationalMulCorrection Rounding.roundHalfDown
  dsimp only
  rw [hdiv, hmod]
  split_ifs <;> omega

/-- `Percent`: parts per hundred, at most a hundred. -/
structure Percent where
  /-- `deconstruct`: the number of parts. -/
  parts : ℕ
  /-- Decoding rejects, and `from_parts` saturates, any value above the accuracy. -/
  parts_le : parts ≤ 100
  deriving DecidableEq

namespace Percent

/-- `ACCURACY` of `Percent`. -/
def ACCURACY : ℕ := 100

/-- `from_parts`: saturate at the accuracy. -/
def fromParts (parts : ℕ) : Percent := ⟨min parts 100, min_le_right _ _⟩

/-- `from_percent`, the `const fn` of `implement_per_thing!`. -/
def fromPercent (x : ℕ) : Percent :=
  ⟨min x 100 * 100 / 100, by rw [Nat.mul_div_cancel _ (by norm_num)]; exact min_le_right _ _⟩

/-- `Percent * N`: `overflow_prune_mul` with `Rounding::Nearest`. -/
def mul (p : Percent) (x : ℕ) : ℕ := overflowPruneMul ACCURACY x p.parts .Nearest

instance : HMul Percent ℕ ℕ := ⟨mul⟩

theorem hMul_def (p : Percent) (x : ℕ) : p * x = overflowPruneMul ACCURACY x p.parts .Nearest :=
  rfl

@[simp] theorem fromPercent_parts (x : ℕ) : (fromPercent x).parts = min x 100 := by
  simp [fromPercent]

/-- A percentage of `x` is at most `x`. -/
theorem mul_le (p : Percent) (x : ℕ) : p * x ≤ x := by
  rw [hMul_def, overflowPruneMul_nearest (by decide)]
  exact Rounding.roundHalfDown_mul_le x p.parts_le

/-- Complementary percentages of `x` add up to at most `x`: they never both round up. -/
theorem mul_add_mul_le {p q : Percent} (hpq : p.parts + q.parts = 100) (x : ℕ) :
    p * x + q * x ≤ x := by
  rw [hMul_def, hMul_def, overflowPruneMul_nearest (by decide),
    overflowPruneMul_nearest (by decide)]
  exact Rounding.roundHalfDown_add_complement x hpq

/-- Ten and ninety percent of `x` add up to at most `x`. -/
theorem ten_add_ninety_le (x : ℕ) : fromPercent 10 * x + fromPercent 90 * x ≤ x :=
  mul_add_mul_le (by simp) x

example : (fromPercent 34 * 10 : ℕ) = 3 ∧ (fromPercent 36 * 10 : ℕ) = 4 := by decide

end Percent

end IpseCore
