import Mathlib.Data.List.Basic
import Mathlib.Tactic.Common

/-!
# Slices

Rust's checked slicing, with `none` where Rust panics: `&v[lo..hi]` needs `lo ≤ hi ≤ len`,
`&v[lo..]` and `&v[..hi]` one bound each, and `v[lo..hi].clone_from_slice(src)` also a source of
length `hi - lo`. And the indices `(lo..=hi).rev().step_by(step)` runs through: `hi`,
`hi - step`, and so on while they stay at least `lo`. Every index of that sequence lies in
`[lo, hi]`, which is what bounds the slices such loops take. A loop that may panic is a
`List.foldlM` in `Option`, and `foldlM_invariant` is its rule: an invariant that each step keeps
without panicking, at every index of the loop, holds at the end of a loop that does not panic.
-/

namespace Slice

variable {α : Type*}

/-- `&v[lo..hi]`. -/
def range (l : List α) (lo hi : ℕ) : Option (List α) :=
  if lo ≤ hi ∧ hi ≤ l.length then some ((l.drop lo).take (hi - lo)) else none

/-- `&v[lo..]`. -/
def rangeFrom (l : List α) (lo : ℕ) : Option (List α) :=
  if lo ≤ l.length then some (l.drop lo) else none

/-- `&v[..hi]`. -/
def rangeTo (l : List α) (hi : ℕ) : Option (List α) :=
  if hi ≤ l.length then some (l.take hi) else none

/-- `v[lo..hi].clone_from_slice(src)`: the range replaced by a source of its length. -/
def cloneFrom (l : List α) (lo hi : ℕ) (src : List α) : Option (List α) :=
  if lo ≤ hi ∧ hi ≤ l.length ∧ src.length = hi - lo then some (l.take lo ++ src ++ l.drop hi)
  else none

/-- The indices of `(lo..=hi).rev().step_by(step)`, for a positive step. -/
def revStepBy (lo hi step : ℕ) : List ℕ :=
  (List.range (if lo ≤ hi then (hi - lo) / step + 1 else 0)).map fun k => hi - k * step

theorem range_of_le {l : List α} {lo hi : ℕ} (h : lo ≤ hi) (hlen : hi ≤ l.length) :
    range l lo hi = some ((l.drop lo).take (hi - lo)) :=
  if_pos ⟨h, hlen⟩

theorem rangeFrom_of_le {l : List α} {lo : ℕ} (h : lo ≤ l.length) :
    rangeFrom l lo = some (l.drop lo) :=
  if_pos h

theorem rangeTo_of_le {l : List α} {hi : ℕ} (h : hi ≤ l.length) :
    rangeTo l hi = some (l.take hi) :=
  if_pos h

theorem length_range {l : List α} {lo hi : ℕ} {s : List α} (h : range l lo hi = some s) :
    s.length = hi - lo := by
  unfold range at h
  split_ifs at h with hin
  · rw [Option.some.inj h.symm, List.length_take, List.length_drop]
    omega

theorem cloneFrom_of_le {l : List α} {lo hi : ℕ} {src : List α} (h : lo ≤ hi)
    (hlen : hi ≤ l.length) (hsrc : src.length = hi - lo) :
    cloneFrom l lo hi src = some (l.take lo ++ src ++ l.drop hi) :=
  if_pos ⟨h, hlen, hsrc⟩

/-- Cloning into a range keeps the length. -/
theorem length_cloneFrom {l : List α} {lo hi : ℕ} {src l' : List α}
    (h : cloneFrom l lo hi src = some l') : l'.length = l.length := by
  unfold cloneFrom at h
  split_ifs at h with hin
  obtain ⟨hlo, hhi, hsrc⟩ := hin
  rw [← Option.some.inj h, List.length_append, List.length_append, List.length_take,
    List.length_drop, hsrc]
  omega

/-- Every index of the reversed stepped range lies in `[lo, hi]`. -/
theorem mem_revStepBy {lo hi step i : ℕ} (h : i ∈ revStepBy lo hi step) : lo ≤ i ∧ i ≤ hi := by
  unfold revStepBy at h
  obtain ⟨k, hk, rfl⟩ := List.mem_map.mp h
  rw [List.mem_range] at hk
  split_ifs at hk with hle
  · -- `k ≤ (hi - lo) / step`, so `k * step ≤ hi - lo`
    have hk' : k * step ≤ (hi - lo) / step * step := Nat.mul_le_mul_right step (by omega)
    have hdiv : (hi - lo) / step * step ≤ hi - lo := Nat.div_mul_le_self _ _
    omega
  · omega

/-- The invariant rule of a loop in `Option`: if every step from a state with the invariant, at
an index of the loop, succeeds with the invariant, the whole loop succeeds with it. -/
theorem foldlM_invariant {β : Type*} {f : β → α → Option β} (I : β → Prop) {l : List α}
    (hstep : ∀ b, I b → ∀ a ∈ l, ∃ b', f b a = some b' ∧ I b') {b : β} (hb : I b) :
    ∃ b', l.foldlM f b = some b' ∧ I b' := by
  induction l generalizing b with
  | nil => exact ⟨b, rfl, hb⟩
  | cons a l ih =>
    obtain ⟨b₁, hb₁, hI⟩ := hstep b hb a List.mem_cons_self
    have htail : ∀ b, I b → ∀ a ∈ l, ∃ b', f b a = some b' ∧ I b' :=
      fun b' hb' a' ha' => hstep b' hb' a' (List.mem_cons_of_mem a ha')
    rw [List.foldlM_cons, hb₁, Option.bind_eq_bind, Option.bind_some]
    exact ih htail hI

end Slice
