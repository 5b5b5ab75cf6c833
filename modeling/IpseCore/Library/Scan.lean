import Mathlib

/-!
# The best of a scan

A loop `for i in 0..n { if key(i) < best { best = key(i); best_index = i } }` that starts from a
sentinel finds the least key among the first `n` indices, at the first index that reaches it:
a later index that ties it does not replace it, since the comparison is strict. `FirstLeast`
states this of a running best, `FirstLeast.step` says that one more index keeps it, and
`firstLeast_range` that the whole scan ends with it as long as the sentinel is no less than the
first key.

The keys need only a linear order in the sense of the core library, which the machine integers
have. A scan whose reads may fail is a `List.foldlM` in `Option`; when every read succeeds it is
the plain fold (`foldlM_eq_some_foldl`).
-/

namespace Scan

variable {β : Type*} [LE β] [LT β] [Std.IsLinearOrder β] [Std.LawfulOrderLT β]
  [DecidableLT β]

/-- One index of the scan: a strictly smaller key replaces the best and its index. -/
def bestStep (key : ℕ → β) (best : β × ℕ) (i : ℕ) : β × ℕ :=
  if key i < best.1 then (key i, i) else best

/-- `best` is the least of the first `n` keys, at the first index that reaches it. -/
structure FirstLeast (key : ℕ → β) (n : ℕ) (best : β × ℕ) : Prop where
  /-- The index is among the first `n`. -/
  index_lt : best.2 < n
  /-- The best is the key at its index. -/
  at_index : best.1 = key best.2
  /-- No key among the first `n` is smaller. -/
  le : ∀ j < n, best.1 ≤ key j
  /-- Every earlier index has a larger key. -/
  lt_of_lt : ∀ j < best.2, best.1 < key j

variable {key : ℕ → β}

/-- The first index against a sentinel no less than its key: ahead of it or equal, the scan
holds that key at index `0`. -/
theorem FirstLeast.first {top : β} (htop : key 0 ≤ top) :
    FirstLeast key 1 (bestStep key (top, 0) 0) := by
  have hbest : bestStep key (top, 0) 0 = (key 0, 0) := by
    unfold bestStep
    split_ifs with hlt
    · rfl
    · -- not below the sentinel and not above it: the key is the sentinel
      rw [Std.le_antisymm htop (Std.not_lt.mp hlt)]
  rw [hbest]
  refine ⟨Nat.one_pos, rfl, fun j hj => ?_, fun j hj => absurd hj (Nat.not_lt_zero j)⟩
  rw [Nat.lt_one_iff.mp hj]
  exact Std.le_refl _

/-- One more index keeps the first least. -/
theorem FirstLeast.step {n : ℕ} {best : β × ℕ} (h : FirstLeast key n best) :
    FirstLeast key (n + 1) (bestStep key best n) := by
  unfold bestStep
  split_ifs with hlt
  · -- a new least: below the old best, so below every key before it
    refine ⟨Nat.lt_succ_self n, rfl, fun j hj => ?_, fun j hj => ?_⟩
    · rcases Nat.lt_succ_iff_lt_or_eq.mp hj with hj | rfl
      · exact Std.le_of_lt (Std.lt_of_lt_of_le hlt (h.le j hj))
      · exact Std.le_refl _
    · exact Std.lt_of_lt_of_le hlt (h.le j hj)
  · -- a key no smaller leaves the best, which is no larger than it
    refine ⟨Nat.lt_succ_of_lt h.index_lt, h.at_index, fun j hj => ?_, h.lt_of_lt⟩
    rcases Nat.lt_succ_iff_lt_or_eq.mp hj with hj | rfl
    · exact h.le j hj
    · exact Std.not_lt.mp hlt

/-- The scan of the first `n` indices from a sentinel no less than the first key ends with the
first least key. -/
theorem firstLeast_range {n : ℕ} (hn : 0 < n) {top : β} (htop : key 0 ≤ top) :
    FirstLeast key n ((List.range n).foldl (bestStep key) (top, 0)) := by
  induction n with
  | zero => exact absurd hn (Nat.lt_irrefl 0)
  | succ n ih =>
    rw [List.range_succ, List.foldl_append, List.foldl_cons, List.foldl_nil]
    rcases Nat.eq_zero_or_pos n with rfl | hpos
    · exact FirstLeast.first htop
    · exact (ih hpos).step

/-- A scan in `Option` whose every step succeeds is the plain fold. -/
theorem foldlM_eq_some_foldl {α γ : Type*} {f : γ → α → Option γ} {g : γ → α → γ} {l : List α}
    (h : ∀ b, ∀ a ∈ l, f b a = some (g b a)) (b : γ) : l.foldlM f b = some (l.foldl g b) := by
  induction l generalizing b with
  | nil => rfl
  | cons a l ih =>
    rw [List.foldlM_cons, h b a List.mem_cons_self, Option.bind_eq_bind, Option.bind_some,
      List.foldl_cons]
    exact ih (fun b' a' ha' => h b' a' (List.mem_cons_of_mem a ha')) _

end Scan
