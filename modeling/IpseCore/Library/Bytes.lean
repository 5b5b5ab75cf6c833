import Mathlib.Tactic.Ring
import Mathlib.Data.List.Basic

/-!
# Little-endian bytes

Byte strings read least significant byte first, as a little-endian machine reads a `[u8]`
through a `*const u32` or hands out the bytes of a `[u32; n]`. A byte string has a value
(`value`), a number has its low bytes (`encode`), a byte string holds words of four bytes (`words`, a remainder of fewer than four dropped, as
`len / 4` drops it), and a word has four bytes (`wordBytes`). The lemmas tie them: the value of
an append and of a word's bytes, and the words of an append, prefix or suffix at a word
boundary.
-/

namespace LittleEndian

/-- The number a byte string stands for, least significant byte first. -/
def value : List UInt8 → ℕ
  | [] => 0
  | b :: bs => b.toNat + 256 * value bs

/-- The word of four bytes. -/
def word (b₀ b₁ b₂ b₃ : UInt8) : UInt32 := UInt32.ofNat (value [b₀, b₁, b₂, b₃])

/-- The words of a byte string, four bytes each; a remainder of fewer than four is dropped. -/
def words : List UInt8 → List UInt32
  | b₀ :: b₁ :: b₂ :: b₃ :: bs => word b₀ b₁ b₂ b₃ :: words bs
  | _ => []

/-- The four bytes of a word. -/
def wordBytes (w : UInt32) : List UInt8 :=
  [UInt8.ofNat w.toNat, UInt8.ofNat (w.toNat / 2 ^ 8), UInt8.ofNat (w.toNat / 2 ^ 16),
    UInt8.ofNat (w.toNat / 2 ^ 24)]

/-- The bytes of a sequence of words. -/
def bytes (ws : List UInt32) : List UInt8 := ws.flatMap wordBytes

/-- The `n` low bytes of a number, least significant first, as `to_le_bytes` gives them; the
reverse is what `to_be` leaves in memory. -/
def encode : ℕ → ℕ → List UInt8
  | 0, _ => []
  | n + 1, v => UInt8.ofNat v :: encode n (v / 256)

@[simp] theorem value_nil : value [] = 0 := rfl

@[simp] theorem value_cons (b : UInt8) (bs : List UInt8) :
    value (b :: bs) = b.toNat + 256 * value bs := rfl

theorem value_append (l₁ l₂ : List UInt8) :
    value (l₁ ++ l₂) = value l₁ + 256 ^ l₁.length * value l₂ := by
  induction l₁ with
  | nil => simp
  | cons b l₁ ih =>
    rw [List.cons_append, value_cons, value_cons, ih, List.length_cons, pow_succ]
    ring

@[simp] theorem length_wordBytes (w : UInt32) : (wordBytes w).length = 4 := rfl

/-- The bytes of a word are its digits in base 256. -/
theorem value_wordBytes (w : UInt32) : value (wordBytes w) = w.toNat := by
  have hlt : w.toNat < 2 ^ 32 := w.toNat_lt
  simp only [wordBytes, value_cons, value_nil, UInt8.toNat_ofNat']
  omega

@[simp] theorem length_encode (n v : ℕ) : (encode n v).length = n := by
  induction n generalizing v with
  | zero => rfl
  | succ n ih => rw [encode, List.length_cons, ih]

@[simp] theorem bytes_nil : bytes [] = [] := rfl

@[simp] theorem bytes_cons (w : UInt32) (ws : List UInt32) :
    bytes (w :: ws) = wordBytes w ++ bytes ws := rfl

@[simp] theorem length_bytes (ws : List UInt32) : (bytes ws).length = 4 * ws.length := by
  induction ws with
  | nil => rfl
  | cons w ws ih =>
    rw [bytes_cons, List.length_append, ih, length_wordBytes, List.length_cons]
    ring

/-- The first `4 * n` bytes of words are the bytes of the first `n` words. -/
theorem take_bytes (n : ℕ) (ws : List UInt32) : (bytes ws).take (4 * n) = bytes (ws.take n) := by
  induction ws generalizing n with
  | nil => simp
  | cons w ws ih =>
    cases n with
    | zero => simp
    | succ n =>
      rw [bytes_cons, show 4 * (n + 1) = 4 + 4 * n by ring, List.take_append,
        List.take_of_length_le (by simp), length_wordBytes, Nat.add_sub_cancel_left, ih,
        List.take_succ_cons, bytes_cons]

/-- The value of the bytes of two words. -/
theorem value_bytes_pair (w₀ w₁ : UInt32) :
    value (bytes [w₀, w₁]) = w₀.toNat + 2 ^ 32 * w₁.toNat := by
  rw [bytes_cons, bytes_cons, bytes_nil, List.append_nil, value_append, value_wordBytes,
    value_wordBytes, length_wordBytes]
  norm_num

/-- What `words` does not match has fewer than four bytes. -/
theorem length_lt_four {l : List UInt8}
    (hl : ∀ b₀ b₁ b₂ b₃ bs, l = b₀ :: b₁ :: b₂ :: b₃ :: bs → False) : l.length < 4 := by
  rcases l with _ | ⟨b₀, _ | ⟨b₁, _ | ⟨b₂, _ | ⟨b₃, bs⟩⟩⟩⟩
  · simp
  · simp
  · simp
  · simp
  · exact absurd rfl (hl b₀ b₁ b₂ b₃ bs)

theorem words_of_length_lt {l : List UInt8} (h : l.length < 4) : words l = [] := by
  rcases l with _ | ⟨b₀, _ | ⟨b₁, _ | ⟨b₂, _ | ⟨b₃, bs⟩⟩⟩⟩
  · rfl
  · rfl
  · rfl
  · rfl
  · simp only [List.length_cons] at h
    omega

@[simp] theorem length_words (l : List UInt8) : (words l).length = l.length / 4 := by
  induction l using words.induct with
  | case1 b₀ b₁ b₂ b₃ bs ih =>
    rw [words, List.length_cons, ih]
    simp only [List.length_cons]
    omega
  | case2 l hl =>
    have hshort := length_lt_four hl
    rw [words_of_length_lt hshort, List.length_nil]
    omega

/-- Words are read four bytes at a time, so at a word boundary the words of an append are the
words of its parts. -/
theorem words_append {l₁ : List UInt8} (h : 4 ∣ l₁.length) (l₂ : List UInt8) :
    words (l₁ ++ l₂) = words l₁ ++ words l₂ := by
  induction l₁ using words.induct with
  | case1 b₀ b₁ b₂ b₃ bs ih =>
    have hbs : 4 ∣ bs.length := by
      simp only [List.length_cons] at h
      omega
    simp only [List.cons_append, words, ih hbs]
  | case2 l hl =>
    -- fewer than four bytes and a length divisible by four: nothing
    have hshort := length_lt_four hl
    have hnil : l = [] := List.eq_nil_of_length_eq_zero (by omega)
    subst hnil
    rfl

/-- The words of the first `4 * n` bytes are the first `n` words. -/
theorem words_take (n : ℕ) (l : List UInt8) : words (l.take (4 * n)) = (words l).take n := by
  induction l using words.induct generalizing n with
  | case1 b₀ b₁ b₂ b₃ bs ih =>
    cases n with
    | zero => simp [words]
    | succ n =>
      rw [show 4 * (n + 1) = 4 * n + 1 + 1 + 1 + 1 by ring]
      simp only [List.take_succ_cons, words, ih]
  | case2 l hl =>
    have hshort := length_lt_four hl
    have htake : (l.take (4 * n)).length < 4 := by
      rw [List.length_take]
      omega
    rw [words_of_length_lt htake, words_of_length_lt hshort, List.take_nil]

/-- The words of the bytes from `4 * n` on are the words from `n` on. -/
theorem words_drop (n : ℕ) (l : List UInt8) : words (l.drop (4 * n)) = (words l).drop n := by
  induction l using words.induct generalizing n with
  | case1 b₀ b₁ b₂ b₃ bs ih =>
    cases n with
    | zero => simp
    | succ n =>
      rw [show 4 * (n + 1) = 4 * n + 1 + 1 + 1 + 1 by ring]
      simp only [List.drop_succ_cons, words, ih]
  | case2 l hl =>
    have hshort := length_lt_four hl
    have hdrop : (l.drop (4 * n)).length < 4 := by
      rw [List.length_drop]
      omega
    rw [words_of_length_lt hdrop, words_of_length_lt hshort, List.drop_nil]

end LittleEndian
