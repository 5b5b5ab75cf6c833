import Mathlib.Algebra.BigOperators.Group.Finset.Basic
import Mathlib.Algebra.BigOperators.Ring.List
import Mathlib.Tactic.Linarith
import Mathlib.Tactic.Ring

/-!
# Integer division, rounding and shares

Facts about floor division and rounding to nearest that a payout computation
needs: a rounded share of `x` never exceeds `x`, two complementary rounded
shares never exceed `x` together, floor shares proportional to weights sum to at
most the whole, and a geometric sequence of halvings stays within its total.
-/

namespace Rounding

/-- `n / d` rounded to the nearest integer, with an exact half rounded down. -/
def roundHalfDown (n d : ℕ) : ℕ := n / d + if d / 2 < n % d then 1 else 0

/-- A share `p / d` of `x`, rounded to nearest, is at most `x` when `p ≤ d`. -/
theorem roundHalfDown_mul_le (x : ℕ) {p d : ℕ} (hp : p ≤ d) : roundHalfDown (x * p) d ≤ x := by
  unfold roundHalfDown
  rcases Nat.eq_or_lt_of_le hp with rfl | hlt
  · rcases Nat.eq_zero_or_pos p with rfl | hd
    · simp
    · simp [Nat.mul_div_cancel _ hd, Nat.mul_mod_left]
  · rcases Nat.eq_zero_or_pos x with rfl | hx
    · simp
    · have hlt' : x * p < d * x := by nlinarith
      have : x * p / d < x := Nat.div_lt_of_lt_mul hlt'
      split_ifs <;> omega

/-- Two shares whose parts add up to the whole round up at most once between them:
their remainders add up to `0` or to `d`, and an exact half rounds down. -/
theorem roundHalfDown_add_complement (x : ℕ) {p q d : ℕ} (hpq : p + q = d) :
    roundHalfDown (x * p) d + roundHalfDown (x * q) d ≤ x := by
  rcases Nat.eq_zero_or_pos d with rfl | hd
  · obtain ⟨rfl, rfl⟩ : p = 0 ∧ q = 0 := by omega
    simp [roundHalfDown]
  unfold roundHalfDown
  set a := x * p
  set b := x * q
  have hsum : a + b = x * d := by simp only [a, b, ← Nat.mul_add, hpq]
  have hdiv : (a + b) / d = x := by rw [hsum, Nat.mul_div_cancel _ hd]
  have hmod : (a % d + b % d) % d = 0 := by
    rw [← Nat.add_mod, hsum, Nat.mul_mod_left]
  have hra : a % d < d := Nat.mod_lt _ hd
  have hrb : b % d < d := Nat.mod_lt _ hd
  rw [Nat.add_div hd] at hdiv
  split_ifs at hdiv with hcarry
  · -- the remainders add up to exactly `d`, so at most one exceeds a half
    have hexact : a % d + b % d = d := by
      rw [Nat.mod_eq_sub_mod hcarry, Nat.mod_eq_of_lt (by omega)] at hmod
      omega
    split_ifs <;> omega
  · -- both remainders vanish
    rw [Nat.mod_eq_of_lt (by omega)] at hmod
    split_ifs <;> omega

/-- Floor division of each term never adds up to more than floor division of the sum. -/
theorem sum_map_div_le {α : Type*} (l : List α) (f : α → ℕ) (t : ℕ) :
    (l.map fun a => f a / t).sum ≤ (l.map f).sum / t := by
  induction l with
  | nil => simp
  | cons a l ih =>
    simp only [List.map_cons, List.sum_cons]
    calc f a / t + (l.map fun a => f a / t).sum ≤ f a / t + (l.map f).sum / t := by omega
      _ ≤ (f a + (l.map f).sum) / t := Nat.div_add_div_le_add_div

/-- Shares of `x` proportional to weights that add up to `t` add up to at most `x`. -/
theorem sum_map_mul_div_le {α : Type*} (l : List α) (weight : α → ℕ) (x : ℕ)
    (ht : (l.map weight).sum = t) (hpos : 0 < t) :
    (l.map fun a => x * weight a / t).sum ≤ x := by
  calc (l.map fun a => x * weight a / t).sum ≤ (l.map fun a => x * weight a).sum / t :=
        sum_map_div_le l (fun a => x * weight a) t
    _ = x * t / t := by rw [List.sum_map_mul_left, ht]
    _ = x := Nat.mul_div_cancel _ hpos

/-- Successive halvings of a total, taken with floor division, stay within the total,
with room left for the next halving. -/
theorem sum_range_div_two_pow_add_le (T K : ℕ) :
    ∑ k ∈ Finset.range K, T / 2 ^ (k + 1) + T / 2 ^ K ≤ T := by
  induction K with
  | zero => simp
  | succ K ih =>
    have hhalf : T / 2 ^ (K + 1) = T / 2 ^ K / 2 := by
      rw [Nat.div_div_eq_div_mul, pow_succ]
    rw [Finset.sum_range_succ, hhalf]
    omega

/-- Successive halvings of a total, taken with floor division, stay within the total. -/
theorem sum_range_div_two_pow_le (T K : ℕ) : ∑ k ∈ Finset.range K, T / 2 ^ (k + 1) ≤ T := by
  exact le_trans (Nat.le_add_right _ _) (sum_range_div_two_pow_add_le T K)

/-- Among `2 * Y` consecutive numbers from zero, exactly `Y` are odd. -/
theorem sum_range_odd_const (Y c : ℕ) :
    ∑ x ∈ Finset.range (2 * Y), (if x % 2 = 1 then c else 0) = Y * c := by
  induction Y with
  | zero => simp
  | succ Y ih =>
    have hrange : 2 * (Y + 1) = 2 * Y + 1 + 1 := by ring
    rw [hrange, Finset.sum_range_succ, Finset.sum_range_succ, ih]
    have heven : (2 * Y) % 2 = 0 := by omega
    have hodd : (2 * Y + 1) % 2 = 1 := by omega
    simp only [heven, hodd, zero_ne_one, if_false, if_true]
    ring

end Rounding
