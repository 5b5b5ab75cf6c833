import Mathlib.Data.List.Infix
import Mathlib.Data.List.DropRight

/-!
# Vectors that keep their newest entries

Runtime storage often keeps a history in a `Vec` that is pushed at the end and, once it
held `cap` entries, cut with `split_off(len - cap)`. What is left is always a suffix of the
vector with the new entry, and ends with that entry, whatever `cap` is: properties of the
entries and of the order of consecutive ones survive the cut.

Which suffix is kept depends on where the length is measured and where the vector is cut.
Three conventions are met: the cut at `len - cap` made with the length before the push keeps
`cap + 1` entries (`push`); dropping the oldest entry once the pushed vector holds `cap` keeps
`cap - 1` (`pushDropFirst`); and emptying the vector once it holds `cap` restarts the window
(`pushRestart`). Each keeps a window `rtake` of everything pushed, stated once here.
-/

namespace BoundedLog

variable {α : Type*}

/-- Push `x`; once the vector held `cap` entries, keep the entries from `len - cap` on. -/
def push (cap : ℕ) (l : List α) (x : α) : List α :=
  let len := l.length
  let v := l ++ [x]
  if cap ≤ len then v.drop (len - cap) else v

variable {cap : ℕ} {l : List α} {x y : α}

theorem push_suffix : push cap l x <:+ l ++ [x] := by
  unfold push
  dsimp only
  split_ifs
  · exact List.drop_suffix _ _
  · exact List.suffix_refl _

theorem mem_push (h : y ∈ push cap l x) : y ∈ l ∨ y = x := by
  simpa using push_suffix.subset h

@[simp] theorem getLast?_push : (push cap l x).getLast? = some x := by
  unfold push
  dsimp only
  split_ifs
  · rw [List.getLast?_drop, if_neg (by rw [List.length_append, List.length_singleton]; omega),
      List.getLast?_concat]
  · exact List.getLast?_concat

theorem push_ne_nil : push cap l x ≠ [] := by
  intro hnil
  have hlast : (push cap l x).getLast? = some x := getLast?_push
  rw [hnil] at hlast
  cases hlast

theorem Pairwise.push {R : α → α → Prop} (h : (l ++ [x]).Pairwise R) :
    (push cap l x).Pairwise R :=
  h.sublist push_suffix.sublist

/-! ### Windows -/

/-- Push `x`, and drop the oldest entry once the pushed vector holds `cap` entries. -/
def pushDropFirst (cap : ℕ) (l : List α) (x : α) : List α :=
  let v := l ++ [x]
  if cap ≤ v.length then v.drop 1 else v

/-- Push `x`, after emptying the vector once it holds `cap` entries. -/
def pushRestart (cap : ℕ) (l : List α) (x : α) : List α :=
  if l.length = cap then [x] else l ++ [x]

theorem length_rtake (xs : List α) (n : ℕ) : (xs.rtake n).length = min n xs.length := by
  rw [List.rtake, List.length_drop]
  omega

theorem rtake_rtake_of_le {m n : ℕ} (h : m ≤ n) (xs : List α) : (xs.rtake n).rtake m = xs.rtake m := by
  have hlen := length_rtake xs n
  rw [List.rtake, hlen, List.rtake, List.drop_drop, List.rtake]
  congr 1
  omega

/-- `push` keeps the last `cap + 1` entries: the cut at `len - cap` is made with the length
the vector had before the push. -/
theorem push_rtake (xs : List α) (x : α) :
    push cap (xs.rtake (cap + 1)) x = (xs ++ [x]).rtake (cap + 1) := by
  have hlen := length_rtake xs (cap + 1)
  unfold push
  dsimp only
  rw [List.rtake_concat_succ]
  split_ifs with hcap
  · -- the window was full or one short of full: the cut removes what is one too many
    rw [List.drop_append_of_le_length (by omega)]
    congr 1
    rw [List.rtake, List.rtake, List.drop_drop]
    congr 1
    rw [List.rtake] at hlen
    rw [hlen]
    omega
  · have hall : xs.rtake (cap + 1) = xs := by
      rw [List.rtake, Nat.sub_eq_zero_of_le (by omega), List.drop_zero]
    have hall' : xs.rtake cap = xs := by
      rw [List.rtake, Nat.sub_eq_zero_of_le (by omega), List.drop_zero]
    rw [hall, hall']

/-- `pushDropFirst (n + 1)` keeps the last `n` entries. -/
theorem pushDropFirst_rtake (n : ℕ) (xs : List α) (x : α) :
    pushDropFirst (n + 1) (xs.rtake n) x = (xs ++ [x]).rtake n := by
  have hlen := length_rtake xs n
  unfold pushDropFirst
  dsimp only
  rw [List.length_append, List.length_singleton]
  split_ifs with hfull
  · cases n with
    | zero => simp
    | succ n =>
      rw [List.rtake_concat_succ, List.drop_append_of_le_length (by omega)]
      congr 1
      rw [List.rtake, List.rtake, List.drop_drop]
      congr 1
      omega
  · have hall : xs.rtake n = xs := by
      rw [List.rtake, Nat.sub_eq_zero_of_le (by omega), List.drop_zero]
    have hall' : (xs ++ [x]).rtake n = xs ++ [x] := by
      rw [List.rtake, List.length_append, List.length_singleton,
        Nat.sub_eq_zero_of_le (by omega), List.drop_zero]
    rw [hall, hall']

/-- After `k` pushes from the empty vector, `pushRestart` holds the last `(k - 1) % cap + 1`
entries: it fills up to `cap` entries and then starts again from one. -/
theorem pushRestart_rtake (hcap : 0 < cap) (xs : List α) (x : α) :
    pushRestart cap (xs.rtake ((xs.length - 1) % cap + 1)) x =
      (xs ++ [x]).rtake (xs.length % cap + 1) := by
  rw [List.rtake_concat_succ]
  unfold pushRestart
  have hr := Nat.mod_lt (xs.length - 1) hcap
  have hlen := length_rtake xs ((xs.length - 1) % cap + 1)
  rcases Nat.eq_zero_or_pos xs.length with hzero | hpos
  · rw [List.length_eq_zero_iff.mp hzero]
    simp [Nat.ne_of_lt hcap]
  · have hwin : (xs.rtake ((xs.length - 1) % cap + 1)).length = (xs.length - 1) % cap + 1 := by
      have hle := Nat.mod_le (xs.length - 1) cap
      rw [hlen]
      omega
    -- one more entry moves the count on by one, modulo `cap`
    have hstep : xs.length % cap = ((xs.length - 1) % cap + 1) % cap := by
      conv_lhs => rw [show xs.length = xs.length - 1 + 1 by omega]
      exact (Nat.mod_add_mod _ _ _).symm
    rw [hwin]
    split_ifs with hfull
    · -- a full window: the new window is the new entry alone
      rw [hfull, Nat.mod_self] at hstep
      rw [hstep, List.rtake_zero, List.nil_append]
    · have hlt : (xs.length - 1) % cap + 1 < cap := by omega
      rw [Nat.mod_eq_of_lt hlt] at hstep
      rw [hstep]

/-- A log kept through a fold: when each step pushes the image of its input with `op`, and
`op` keeps the window `rtake (size k)` of the `k` entries pushed so far, the fold from an empty
log holds the window of everything pushed. -/
theorem foldl_rtake {σ β : Type*} (get : σ → List α) (f : σ → β → σ) (g : β → α)
    (op : List α → α → List α) (size : ℕ → ℕ) (hf : ∀ s b, get (f s b) = op (get s) (g b))
    (hop : ∀ (xs : List α) x, op (xs.rtake (size xs.length)) x = (xs ++ [x]).rtake (size (xs.length + 1)))
    {s : σ} (hs : get s = []) (bs : List β) : get (bs.foldl f s) = (bs.map g).rtake (size bs.length) := by
  induction bs using List.reverseRecOn with
  | nil => simp [hs]
  | append_singleton bs b ih =>
    rw [List.foldl_append, List.foldl_cons, List.foldl_nil, hf, ih, List.map_append, List.map_singleton,
      List.length_append, List.length_singleton]
    simpa using hop (bs.map g) (g b)

end BoundedLog
