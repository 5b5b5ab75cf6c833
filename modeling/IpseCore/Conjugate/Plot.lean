import IpseCore.Conjugate.Shabal
import IpseCore.Runtime.Difficulty
import IpseCore.Library.Scan

/-!
# Plots and the scoop of a deadline

`verify_dl` recomputes the deadline a miner submits. `calculate_scoop` picks one of the 4096
scoops of a nonce from the signature and the height. `noncegen_rust` writes the nonce's plot,
262144 bytes of chained Shabal-256 hashes, into a cache. `gen_mirror_scoop_data` takes the
scoop's first half and its mirror's second half, and `find_best_deadline_rust` hashes them with
the signature. Every slice these functions take is checked and `shabal256_hash_fast` reads its
blocks unchecked, so each function is modelled in `Option`, `none` where Rust would panic or read
past a slice.

None of them does: the scoop is below 4096, `noncegen_rust` on a cache of its nonces keeps every
slice of both reversed loops inside the cache, the two halves lie inside the plot, and the
deadline is read from the 64 bytes given. The target they compute is the plot hashing the
runtime's `poc::Trait` uses, so over every run `verify_dl` runs to its comparison.
-/

namespace IpseCore.Conjugate

open LittleEndian

/-- `HASH_SIZE`. -/
def HASH_SIZE : ℕ := 32

/-- `HASH_CAP`. -/
def HASH_CAP : ℕ := 4096

/-- `NUM_SCOOPS`. -/
def NUM_SCOOPS : ℕ := 4096

/-- `SCOOP_SIZE`. -/
def SCOOP_SIZE : ℕ := 64

/-- `NONCE_SIZE`. -/
def NONCE_SIZE : ℕ := NUM_SCOOPS * SCOOP_SIZE

/-- `x.to_be()` seen as `[u32; 2]`: the big-endian bytes of a `u64`, read as little-endian
words. -/
def beWords (x : ℕ) : List UInt32 := words (encode 8 x).reverse

/-- `t[lo..lo + src.len()].clone_from_slice(src)` into a termination string. The array types fix
both lengths, so this cannot panic. -/
def cloneInto (t : Vector UInt32 16) (lo : ℕ) (src : List UInt32) : Vector UInt32 16 :=
  Vector.ofFn fun i => if lo ≤ i.1 ∧ i.1 < lo + src.length then src.getD (i.1 - lo) 0 else t.get i

/-- `calculate_scoop`: hash the signature and the big-endian height, and take the low four bits
of byte 30 and all of byte 31. -/
def calculateScoop (height : ℕ) (gensig : Vector UInt8 32) : Option UInt32 := do
  let data := gensig.toList ++ (encode 8 height).reverse ++ 0x80 :: List.replicate 23 0
  let newGensig ← hashFast [] (Vector.ofFn fun i => (words data).getD i 0)
  pure (((newGensig.getD 30 0 &&& 0x0F).toUInt32 <<< 8) ||| (newGensig.getD 31 0).toUInt32)

/-- One pass of either reversed loop of `noncegen_rust`: hash `cache[base + i..hi]` with the
termination string `term`, and store the hash in the 32 bytes before `base + i`. -/
def storeHash (cache : List UInt8) (term : Vector UInt32 16) (base i hi : ℕ) :
    Option (List UInt8) := do
  let seed ← Slice.range cache (base + i) hi
  let hash ← hashFast seed term
  Slice.cloneFrom cache (base + i - HASH_SIZE) (base + i) hash

/-- The last loop of a nonce: `cache[base + i] ^= final_buffer[i % HASH_SIZE]`. -/
def xorFinal (cache : List UInt8) (base : ℕ) (finalBuffer : List UInt8) : Option (List UInt8) :=
  (List.range NONCE_SIZE).foldlM
    (fun cache i =>
      if base + i < cache.length then
        some (cache.set (base + i)
          (cache.getD (base + i) 0 ^^^ finalBuffer.getD (i % HASH_SIZE) 0))
      else none)
    cache

/-- What `noncegen_rust` carries from one nonce to the next: the cache, and the two termination
strings each nonce rewrites. -/
structure Plotting where
  cache : List UInt8
  t1 : Vector UInt32 16
  t2 : Vector UInt32 16

/-- The body of the loop of `noncegen_rust`: the plot of its `n`-th nonce, at `n * NONCE_SIZE`. -/
def noncegenNonce (t3 : Vector UInt32 16) (localStartnonce : ℕ) (st : Plotting) (n : ℕ) :
    Option Plotting := do
  let base := n * NONCE_SIZE
  -- `encode` keeps the low 64 bits: `local_startnonce + n` wraps as in a release build
  let nonce := beWords (localStartnonce + n)
  let t1 := cloneInto st.t1 2 nonce
  let t2 := cloneInto st.t2 10 nonce
  let hash ← hashFast [] t1
  let cache ← Slice.cloneFrom st.cache (base + NONCE_SIZE - HASH_SIZE) (base + NONCE_SIZE) hash
  let t2 := cloneInto t2 0 (words hash)
  -- rounds 2 to 128: a seed of whole blocks ends with `t1`, one with half a block with `t2`
  let cache ← (Slice.revStepBy (NONCE_SIZE - HASH_CAP + HASH_SIZE) (NONCE_SIZE - HASH_SIZE)
      HASH_SIZE).foldlM
    (fun cache i => storeHash cache (if i % 64 = 0 then t1 else t2) base i (base + NONCE_SIZE))
    cache
  let cache ← (Slice.revStepBy HASH_SIZE (NONCE_SIZE - HASH_CAP) HASH_SIZE).foldlM
    (fun cache i => storeHash cache t3 base i (base + i + HASH_CAP)) cache
  let seed ← Slice.range cache base (base + NONCE_SIZE)
  let finalBuffer ← hashFast seed t1
  let cache ← xorFinal cache base finalBuffer
  pure ⟨cache, t1, t2⟩

/-- `noncegen_rust`: the plots of `local_nonces` nonces of account `numeric_id` from
`local_startnonce` on, written into `cache`. -/
def noncegenRust (cache : List UInt8) (numericId localStartnonce localNonces : ℕ) :
    Option (List UInt8) := do
  let numericId := beWords numericId
  let t1 := (cloneInto (Vector.replicate 16 0) 0 numericId).set 4 0x80
  let t2 := (cloneInto (Vector.replicate 16 0) 8 numericId).set 12 0x80
  let t3 := (Vector.replicate 16 0).set 0 0x80
  let st ← (List.range localNonces).foldlM (noncegenNonce t3 localStartnonce) ⟨cache, t1, t2⟩
  pure st.cache

/-- `gen_mirror_scoop_data`: the first half of scoop `scoop_data` and the second half of its
mirror `4095 - scoop_data`, a subtraction that overflows past scoop 4095. -/
def genMirrorScoopData (scoopData : ℕ) (cache : List UInt8) : Option (List UInt8) := do
  let addr := 64 * scoopData
  let mirrorScoop ← if scoopData ≤ 4095 then some (4095 - scoopData) else none
  let mirrorAddr := 64 * mirrorScoop
  let mirrorScoopData := List.replicate 64 0
  let first ← Slice.range cache addr (addr + 32)
  let mirrorScoopData ← Slice.cloneFrom mirrorScoopData 0 32 first
  let second ← Slice.range cache (mirrorAddr + 32) (mirrorAddr + 64)
  Slice.cloneFrom mirrorScoopData 32 64 second

/-- `find_best_deadline_rust`: the least deadline among the `number_of_nonces` scoops of `data`,
and its offset. -/
def findBestDeadlineRust (data : List UInt8) (numberOfNonces : ℕ) (gensig : Vector UInt8 32) :
    Option (UInt64 × ℕ) :=
  (List.range numberOfNonces).foldlM
    (fun best i => do
      let scoop ← Slice.range data (i * SCOOP_SIZE) (i * SCOOP_SIZE + SCOOP_SIZE)
      let result ← deadlineFast scoop gensig
      pure (if result < best.1 then (result, i) else best))
    (0xFFFFFFFFFFFFFFFF, 0)

/-- What `verify_dl` computes before it reads the base target: the scoop, the plot of the one
nonce in a fresh cache, the scoop's mirror data, and the deadline found in it. -/
def findTarget (accountId height : ℕ) (sig : Poc.Signature) (nonce : ℕ) : Option ℕ := do
  let scoopData ← calculateScoop height sig
  let cache ← noncegenRust (List.replicate 262144 0) accountId nonce 1
  let mirrorScoopData ← genMirrorScoopData scoopData.toNat cache
  let (target, _) ← findBestDeadlineRust mirrorScoopData 1 sig
  pure target.toNat

/-- The plot hashing of the runtime's `poc::Trait`: the target `verify_dl` finds, which it
always finds (`findTarget_eq`). -/
def scoopTarget (accountId height : ℕ) (sig : Poc.Signature) (nonce : ℕ) : ℕ :=
  (findTarget accountId height sig nonce).getD 0

/-! ### The scoop -/

/-- Four bits of one byte above the eight of another make a scoop number. -/
theorem scoopBits_lt (x y : UInt8) :
    (((x &&& 0x0F).toUInt32 <<< 8) ||| y.toUInt32).toNat < NUM_SCOOPS := by
  have hx : (x &&& 0x0F).toNat ≤ 15 := by
    rw [UInt8.toNat_and]
    exact Nat.and_le_right
  have hy : y.toNat < 2 ^ 12 := by
    have := y.toNat_lt
    omega
  have hshift : ((x &&& 0x0F).toUInt32 <<< 8).toNat < 2 ^ 12 := by
    have h8 : UInt32.toNat 8 % 32 = 8 := rfl
    rw [UInt32.toNat_shiftLeft, UInt8.toNat_toUInt32, h8, Nat.shiftLeft_eq]
    omega
  rw [UInt32.toNat_or, UInt8.toNat_toUInt32]
  exact Nat.or_lt_two_pow hshift hy

theorem calculateScoop_lt (height : ℕ) (gensig : Vector UInt8 32) :
    ∃ scoop, calculateScoop height gensig = some scoop ∧ scoop.toNat < NUM_SCOOPS := by
  obtain ⟨hash, hhash, -⟩ := length_hashFast []
    (Vector.ofFn fun i : Fin 16 =>
      (words (gensig.toList ++ (encode 8 height).reverse ++ 0x80 :: List.replicate 23 0)).getD i 0)
  refine ⟨_, ?_, scoopBits_lt (hash.getD 30 0) (hash.getD 31 0)⟩
  simp only [calculateScoop, hhash, Option.bind_eq_bind, Option.bind_some, Option.pure_def]

/-! ### Plotting stays inside the cache -/

/-- A pass of either loop stays inside the cache when `i` leaves room for the hash before it
and the hashed range ends inside the cache. -/
theorem storeHash_length {cache : List UInt8} (term : Vector UInt32 16) {base i hi : ℕ}
    (hi₁ : HASH_SIZE ≤ i) (hi₂ : base + i ≤ hi) (hhi : hi ≤ cache.length) :
    ∃ cache', storeHash cache term base i hi = some cache' ∧ cache'.length = cache.length := by
  obtain ⟨hash, hhash, hlen⟩ :=
    length_hashFast ((cache.drop (base + i)).take (hi - (base + i))) term
  have hclone : Slice.cloneFrom cache (base + i - HASH_SIZE) (base + i) hash =
      some (cache.take (base + i - HASH_SIZE) ++ hash ++ cache.drop (base + i)) := by
    apply Slice.cloneFrom_of_le (by omega) (by omega)
    rw [hlen]
    unfold HASH_SIZE at hi₁ ⊢
    omega
  refine ⟨_, ?_, Slice.length_cloneFrom hclone⟩
  simp only [storeHash, Slice.range_of_le hi₂ hhi, hhash, hclone, Option.bind_eq_bind,
    Option.bind_some]

/-- A reversed loop of passes stays inside a cache of length `L` when each of its indices does. -/
theorem storeHash_loop {idx : List ℕ} (term : ℕ → Vector UInt32 16) (base : ℕ) (hi : ℕ → ℕ) {L : ℕ}
    (hbounds : ∀ i ∈ idx, HASH_SIZE ≤ i ∧ base + i ≤ hi i ∧ hi i ≤ L) {cache : List UInt8}
    (hcache : cache.length = L) :
    ∃ cache', idx.foldlM (fun cache i => storeHash cache (term i) base i (hi i)) cache =
      some cache' ∧ cache'.length = L := by
  refine Slice.foldlM_invariant (fun c : List UInt8 => c.length = L) ?_ hcache
  intro c hc i hidx
  obtain ⟨h₁, h₂, h₃⟩ := hbounds i hidx
  obtain ⟨c', hc', hlen⟩ := storeHash_length (term i) h₁ h₂ (hc ▸ h₃)
  exact ⟨c', hc', hlen.trans hc⟩

/-- The indices of rounds 2 to 128 leave a hash before them and stay in the nonce. -/
theorem mem_roundsTwo {i : ℕ}
    (h : i ∈ Slice.revStepBy (NONCE_SIZE - HASH_CAP + HASH_SIZE) (NONCE_SIZE - HASH_SIZE)
      HASH_SIZE) : HASH_SIZE ≤ i ∧ i ≤ NONCE_SIZE := by
  have hi := Slice.mem_revStepBy h
  simp only [NONCE_SIZE, NUM_SCOOPS, SCOOP_SIZE, HASH_CAP, HASH_SIZE] at hi ⊢
  omega

/-- The indices of the later rounds leave a hash before them and `HASH_CAP` bytes after. -/
theorem mem_roundsThree {i : ℕ}
    (h : i ∈ Slice.revStepBy HASH_SIZE (NONCE_SIZE - HASH_CAP) HASH_SIZE) :
    HASH_SIZE ≤ i ∧ i + HASH_CAP ≤ NONCE_SIZE := by
  have hi := Slice.mem_revStepBy h
  simp only [NONCE_SIZE, NUM_SCOOPS, SCOOP_SIZE, HASH_CAP, HASH_SIZE] at hi ⊢
  omega

theorem xorFinal_length {cache : List UInt8} {base : ℕ} (h : base + NONCE_SIZE ≤ cache.length)
    (finalBuffer : List UInt8) :
    ∃ cache', xorFinal cache base finalBuffer = some cache' ∧ cache'.length = cache.length := by
  refine Slice.foldlM_invariant (fun c : List UInt8 => c.length = cache.length) ?_ rfl
  intro c hc i hi
  have hlt : base + i < c.length := by
    rw [List.mem_range] at hi
    omega
  exact ⟨_, if_pos hlt, by rw [List.length_set, hc]⟩

/-- A nonce whose plot fits in the cache is written without leaving it. -/
theorem noncegenNonce_length (t3 : Vector UInt32 16) (localStartnonce : ℕ) {st : Plotting}
    {n : ℕ} (h : n * NONCE_SIZE + NONCE_SIZE ≤ st.cache.length) :
    ∃ st', noncegenNonce t3 localStartnonce st n = some st' ∧
      st'.cache.length = st.cache.length := by
  have hsize : HASH_SIZE ≤ NONCE_SIZE := by decide
  -- the first hash, stored at the end of the nonce
  obtain ⟨hash, hhash, hlen⟩ := length_hashFast [] (cloneInto st.t1 2 (beWords (localStartnonce + n)))
  have hclone : Slice.cloneFrom st.cache (n * NONCE_SIZE + NONCE_SIZE - HASH_SIZE)
      (n * NONCE_SIZE + NONCE_SIZE) hash = some (st.cache.take (n * NONCE_SIZE + NONCE_SIZE -
        HASH_SIZE) ++ hash ++ st.cache.drop (n * NONCE_SIZE + NONCE_SIZE)) := by
    apply Slice.cloneFrom_of_le (by omega) h
    rw [hlen]
    unfold HASH_SIZE at hsize ⊢
    omega
  -- the two reversed loops
  obtain ⟨c₁, hc₁, hlen₁⟩ := storeHash_loop
    (fun i => if i % 64 = 0 then cloneInto st.t1 2 (beWords (localStartnonce + n))
      else cloneInto (cloneInto st.t2 10 (beWords (localStartnonce + n))) 0 (words hash))
    (n * NONCE_SIZE) (fun _ => n * NONCE_SIZE + NONCE_SIZE)
    (fun i hi => by
      have hbound := mem_roundsTwo hi
      exact ⟨hbound.1, by omega, h⟩)
    (Slice.length_cloneFrom hclone)
  obtain ⟨c₂, hc₂, hlen₂⟩ := storeHash_loop (fun _ => t3) (n * NONCE_SIZE)
    (fun i => n * NONCE_SIZE + i + HASH_CAP)
    (fun i hi => by
      have hbound := mem_roundsThree hi
      exact ⟨hbound.1, by omega, by omega⟩)
    hlen₁
  -- the final hash of the whole nonce, and the XOR with it
  have hseed : Slice.range c₂ (n * NONCE_SIZE) (n * NONCE_SIZE + NONCE_SIZE) =
      some ((c₂.drop (n * NONCE_SIZE)).take (n * NONCE_SIZE + NONCE_SIZE - n * NONCE_SIZE)) :=
    Slice.range_of_le (Nat.le_add_right _ _) (by omega)
  obtain ⟨buf, hbuf, -⟩ := length_hashFast
    ((c₂.drop (n * NONCE_SIZE)).take (n * NONCE_SIZE + NONCE_SIZE - n * NONCE_SIZE))
    (cloneInto st.t1 2 (beWords (localStartnonce + n)))
  obtain ⟨c₃, hc₃, hlen₃⟩ := xorFinal_length
    (show n * NONCE_SIZE + NONCE_SIZE ≤ c₂.length by omega) buf
  refine ⟨⟨c₃, cloneInto st.t1 2 (beWords (localStartnonce + n)),
    cloneInto (cloneInto st.t2 10 (beWords (localStartnonce + n))) 0 (words hash)⟩, ?_,
    show c₃.length = st.cache.length by omega⟩
  -- step by step: a `simp` here leaves the kernel a slow term to check
  rw [noncegenNonce, hhash, Option.bind_eq_bind, Option.bind_some, hclone, Option.bind_some]
  dsimp only
  rw [hc₁, Option.bind_some, hc₂, Option.bind_some, hseed, Option.bind_some, hbuf,
    Option.bind_some, hc₃, Option.bind_some]
  rfl

/-- Every nonce of the loop is written inside a cache of room for them all. -/
theorem noncegenNonces_length (t3 : Vector UInt32 16) (localStartnonce : ℕ) {localNonces : ℕ}
    {st : Plotting} (h : localNonces * NONCE_SIZE ≤ st.cache.length) :
    ∃ st', (List.range localNonces).foldlM (noncegenNonce t3 localStartnonce) st = some st' ∧
      st'.cache.length = st.cache.length := by
  refine Slice.foldlM_invariant (fun st' : Plotting => st'.cache.length = st.cache.length) ?_ rfl
  intro st' hst' n hn
  -- nonce `n` ends at `(n + 1) * NONCE_SIZE`, inside the room for `localNonces` nonces
  have hroom : (n + 1) * NONCE_SIZE ≤ localNonces * NONCE_SIZE :=
    Nat.mul_le_mul_right _ (List.mem_range.mp hn)
  have hfit : n * NONCE_SIZE + NONCE_SIZE ≤ st'.cache.length := by
    rw [Nat.succ_mul] at hroom
    omega
  obtain ⟨st'', hst'', hlen⟩ := noncegenNonce_length t3 localStartnonce hfit
  exact ⟨st'', hst'', hlen.trans hst'⟩

/-- `noncegen_rust` on a cache with room for its nonces keeps every slice inside the cache, and
the cache's length. -/
theorem noncegenRust_length {cache : List UInt8} {localNonces : ℕ}
    (h : localNonces * NONCE_SIZE ≤ cache.length) (numericId localStartnonce : ℕ) :
    ∃ cache', noncegenRust cache numericId localStartnonce localNonces = some cache' ∧
      cache'.length = cache.length := by
  -- the termination strings before the first nonce
  have hroom : localNonces * NONCE_SIZE ≤ (Plotting.mk cache
      ((cloneInto (Vector.replicate 16 0) 0 (beWords numericId)).set 4 0x80)
      ((cloneInto (Vector.replicate 16 0) 8 (beWords numericId)).set 12 0x80)).cache.length := h
  obtain ⟨st, hst, hlen⟩ :=
    noncegenNonces_length ((Vector.replicate 16 0).set 0 0x80) localStartnonce hroom
  refine ⟨st.cache, ?_, hlen⟩
  simp only [noncegenRust, hst, Option.bind_eq_bind, Option.bind_some, Option.pure_def]

/-! ### The scoop and its mirror -/

/-- Scoop `scoop_data` and its mirror lie inside a plot: the mirror data are the 32 bytes at
`64 * scoop_data` and the 32 at `64 * (4095 - scoop_data) + 32`. -/
theorem genMirrorScoopData_eq {scoopData : ℕ} (h : scoopData < NUM_SCOOPS) {cache : List UInt8}
    (hcache : cache.length = NONCE_SIZE) :
    genMirrorScoopData scoopData cache = some ((cache.drop (64 * scoopData)).take 32 ++
      (cache.drop (64 * (4095 - scoopData) + 32)).take 32) := by
  unfold NUM_SCOOPS at h
  have hlen : cache.length = 262144 := hcache
  have hfirst : Slice.range cache (64 * scoopData) (64 * scoopData + 32) =
      some ((cache.drop (64 * scoopData)).take 32) := by
    rw [Slice.range_of_le (by omega) (by omega), Nat.add_sub_cancel_left]
  have hsecond : Slice.range cache (64 * (4095 - scoopData) + 32) (64 * (4095 - scoopData) + 64) =
      some ((cache.drop (64 * (4095 - scoopData) + 32)).take 32) := by
    rw [Slice.range_of_le (by omega) (by omega)]
    congr 2
    omega
  have hl₁ : ((cache.drop (64 * scoopData)).take 32).length = 32 := by
    simp only [List.length_take, List.length_drop]
    omega
  have hl₂ : ((cache.drop (64 * (4095 - scoopData) + 32)).take 32).length = 32 := by
    simp only [List.length_take, List.length_drop]
    omega
  simp only [genMirrorScoopData, if_pos (show scoopData ≤ 4095 by omega), hfirst, hsecond,
    Option.bind_eq_bind, Option.bind_some]
  -- the first half over the zeroed buffer, then the second half after it
  rw [Slice.cloneFrom_of_le (by omega) (by simp) (by rw [hl₁]), Option.bind_some,
    Slice.cloneFrom_of_le (by omega) (by simp [hl₁]) (by rw [hl₂])]
  simp [hl₁]

/-! ### The deadline -/

/-- No deadline improves on `u64::MAX` without being below it. -/
theorem best_of_max (d : UInt64) :
    (if d < 0xFFFFFFFFFFFFFFFF then (d, 0) else ((0xFFFFFFFFFFFFFFFF : UInt64), 0)) = (d, 0) := by
  split_ifs with hlt
  · rfl
  · have hd := d.toNat_lt
    have hmax : d.toNat = (0xFFFFFFFFFFFFFFFF : UInt64).toNat := by
      rw [UInt64.lt_iff_toNat_lt] at hlt
      simp only [UInt64.reduceToNat] at hlt ⊢
      omega
    rw [UInt64.toNat_inj.mp hmax]

/-- With one nonce, `find_best_deadline_rust` reads just the 64 bytes it is given and returns
their deadline, at offset zero. -/
theorem findBestDeadlineRust_one {data : List UInt8} (h : data.length = SCOOP_SIZE)
    (gensig : Vector UInt8 32) :
    ∃ d, deadlineFast data gensig = some d ∧ findBestDeadlineRust data 1 gensig = some (d, 0) := by
  have hD : (words data).length = 16 := by
    rw [length_words, h]
    rfl
  obtain ⟨d, hd⟩ := Option.isSome_iff_exists.mp (deadlineFast_isSome hD gensig)
  have hscoop : Slice.range data (0 * SCOOP_SIZE) (0 * SCOOP_SIZE + SCOOP_SIZE) = some data := by
    rw [Slice.range_of_le (by omega) (by omega), Nat.zero_mul, List.drop_zero, Nat.zero_add,
      Nat.sub_zero, ← h, List.take_length]
  refine ⟨d, hd, ?_⟩
  simp only [findBestDeadlineRust, List.range_one, List.foldlM_cons, List.foldlM_nil, hscoop, hd,
    Option.bind_eq_bind, Option.bind_some, Option.pure_def, best_of_max]

/-! ### The best deadline of many nonces -/

/-- Scoop `i` of `data`: `&data[i * SCOOP_SIZE..i * SCOOP_SIZE + SCOOP_SIZE]` when it lies inside
`data`. -/
def scoopAt (data : List UInt8) (i : ℕ) : List UInt8 := (data.drop (i * SCOOP_SIZE)).take SCOOP_SIZE

/-- The deadline of scoop `i` of `data`. `deadlineFast` finds one for every scoop inside `data`
(`deadlineFast_scoopAt`); the `0` is never read for those. -/
def deadlineAt (data : List UInt8) (gensig : Vector UInt8 32) (i : ℕ) : UInt64 :=
  (deadlineFast (scoopAt data i) gensig).getD 0

theorem deadlineFast_scoopAt {data : List UInt8} {i : ℕ}
    (h : i * SCOOP_SIZE + SCOOP_SIZE ≤ data.length) (gensig : Vector UInt8 32) :
    deadlineFast (scoopAt data i) gensig = some (deadlineAt data gensig i) := by
  have hlen : (scoopAt data i).length = SCOOP_SIZE := by
    simp only [scoopAt, List.length_take, List.length_drop]
    omega
  have hD : (words (scoopAt data i)).length = 16 := by
    rw [length_words, hlen]
    rfl
  obtain ⟨d, hd⟩ := Option.isSome_iff_exists.mp (deadlineFast_isSome hD gensig)
  rw [deadlineAt, hd, Option.getD_some]

/-- On nonces whose scoops lie inside `data`, the loop of `find_best_deadline_rust` reads every
scoop and is the scan of their deadlines from `u64::MAX`. -/
theorem findBestDeadlineRust_eq_scan {data : List UInt8} {n : ℕ}
    (hlen : n * SCOOP_SIZE ≤ data.length) (gensig : Vector UInt8 32) :
    findBestDeadlineRust data n gensig = some ((List.range n).foldl
      (Scan.bestStep (deadlineAt data gensig)) (0xFFFFFFFFFFFFFFFF, 0)) := by
  refine Scan.foldlM_eq_some_foldl (fun best i hi => ?_) _
  have hin : i * SCOOP_SIZE + SCOOP_SIZE ≤ data.length :=
    calc i * SCOOP_SIZE + SCOOP_SIZE = (i + 1) * SCOOP_SIZE := (Nat.succ_mul i SCOOP_SIZE).symm
      _ ≤ n * SCOOP_SIZE := Nat.mul_le_mul_right _ (List.mem_range.mp hi)
      _ ≤ data.length := hlen
  have hscoop : Slice.range data (i * SCOOP_SIZE) (i * SCOOP_SIZE + SCOOP_SIZE) =
      some (scoopAt data i) := by
    rw [Slice.range_of_le (Nat.le_add_right _ _) hin, Nat.add_sub_cancel_left]
    rfl
  simp only [hscoop, deadlineFast_scoopAt hin, Option.bind_eq_bind, Option.bind_some,
    Option.pure_def, Scan.bestStep]

/-- `find_best_deadline_rust` over `n` nonces whose scoops lie inside `data` returns the least of
their deadlines, at the first offset that reaches it. -/
theorem findBestDeadlineRust_first_least {data : List UInt8} {n : ℕ} (hn : 0 < n)
    (hlen : n * SCOOP_SIZE ≤ data.length) (gensig : Vector UInt8 32) :
    ∃ best, findBestDeadlineRust data n gensig = some best ∧
      Scan.FirstLeast (deadlineAt data gensig) n best := by
  refine ⟨_, findBestDeadlineRust_eq_scan hlen gensig, Scan.firstLeast_range hn ?_⟩
  -- the sentinel `u64::MAX` is no less than any deadline
  rw [UInt64.le_iff_toNat_le]
  have := (deadlineAt data gensig 0).toNat_lt
  simp only [UInt64.reduceToNat]
  omega

/-- Two nonces of zeros. -/
theorem findBestDeadlineRust_first_least_two_nonces :
    0 < 2 ∧ 2 * SCOOP_SIZE ≤ (List.replicate 128 (0 : UInt8)).length ∧
      ∃ best, findBestDeadlineRust (List.replicate 128 0) 2 (Vector.replicate 32 0) = some best ∧
        Scan.FirstLeast (deadlineAt (List.replicate 128 0) (Vector.replicate 32 0)) 2 best :=
  ⟨by decide, by simp [SCOOP_SIZE],
    findBestDeadlineRust_first_least (by decide) (by simp [SCOOP_SIZE]) _⟩

/-! ### The target of `verify_dl` -/

/-- `verify_dl` always finds its target: none of the functions it calls panics or reads past a
slice. -/
theorem findTarget_eq (accountId height : ℕ) (sig : Poc.Signature) (nonce : ℕ) :
    findTarget accountId height sig nonce = some (scoopTarget accountId height sig nonce) := by
  obtain ⟨scoop, hscoop, hlt⟩ := calculateScoop_lt height sig
  -- the plot of the one nonce fills the fresh cache
  have hroom : 1 * NONCE_SIZE ≤ (List.replicate 262144 (0 : UInt8)).length := by
    rw [List.length_replicate]
    decide
  obtain ⟨cache, hcache, hlen⟩ := noncegenRust_length hroom accountId nonce
  have hplot : cache.length = NONCE_SIZE := by
    rw [hlen, List.length_replicate]
    rfl
  have hmirror := genMirrorScoopData_eq hlt hplot
  have hscoopSize : ((cache.drop (64 * scoop.toNat)).take 32 ++
      (cache.drop (64 * (4095 - scoop.toNat) + 32)).take 32).length = SCOOP_SIZE := by
    simp only [NONCE_SIZE, NUM_SCOOPS, SCOOP_SIZE] at hlt hplot ⊢
    simp only [List.length_append, List.length_take, List.length_drop]
    omega
  obtain ⟨d, -, hbest⟩ := findBestDeadlineRust_one hscoopSize sig
  have hfind : findTarget accountId height sig nonce = some d.toNat := by
    simp only [findTarget, hscoop, hcache, hmirror, hbest, Option.bind_eq_bind, Option.bind_some,
      Option.pure_def]
  rw [scoopTarget, hfind]
  rfl

end IpseCore.Conjugate

namespace IpseCore.Runtime

open Poc Conjugate

variable {A : Type} [DecidableEq A]

/-- With the runtime's plot hashing, no step of `verify_dl` reads outside a slice: hashes,
scoop, plot, mirror and deadline all stay in bounds. In every reachable state it then finds its
target and a nonzero base target, and compares. -/
theorem verifyDl_reads_in_bounds (treasuryId : A) (balances : Balances.State A)
    {w : Poc.World A}
    (hw : (machine (Poc.runtimeConfig treasuryId scoopTarget) balances).Reachable w) :
    (∀ data term, ∃ hash, hashFast data term = some hash ∧ hash.length = 32) ∧
    (∀ height sig, ∃ scoop, calculateScoop height sig = some scoop ∧ scoop.toNat < NUM_SCOOPS) ∧
    (∀ cache : List UInt8, cache.length = NONCE_SIZE → ∀ numericId localStartnonce,
      ∃ cache', noncegenRust cache numericId localStartnonce 1 = some cache' ∧
        cache'.length = NONCE_SIZE) ∧
    (∀ scoopData < NUM_SCOOPS, ∀ cache : List UInt8, cache.length = NONCE_SIZE →
      genMirrorScoopData scoopData cache = some ((cache.drop (64 * scoopData)).take 32 ++
        (cache.drop (64 * (4095 - scoopData) + 32)).take 32)) ∧
    (∀ data : List UInt8, data.length = SCOOP_SIZE → ∀ gensig,
      ∃ d, deadlineFast data gensig = some d ∧ findBestDeadlineRust data 1 gensig = some (d, 0)) ∧
    ∃ b, 1 ≤ b ∧ getCurrentBaseTarget w.handler = some b ∧
      ∀ accountId height sig nonce deadline, ∃ target,
        findTarget accountId height sig nonce = some target ∧
        verifyDl (Poc.runtimeConfig treasuryId scoopTarget) w.handler accountId height sig nonce
          deadline = some (decide (deadline = target / b)) := by
  have hgen : 0 < (Poc.runtimeConfig treasuryId scoopTarget).genesisBaseTarget := by
    show 0 < 366503875925
    decide
  obtain ⟨b, hb, hcur⟩ := (reachable_targetInv _ balances hgen hw).currentBaseTarget
  refine ⟨length_hashFast, calculateScoop_lt, ?_,
    fun scoopData hscoop cache hcache => genMirrorScoopData_eq hscoop hcache,
    fun data hdata gensig => findBestDeadlineRust_one hdata gensig, b, hb, hcur, ?_⟩
  · intro cache hcache numericId localStartnonce
    obtain ⟨cache', hplot, hlen⟩ :=
      noncegenRust_length (show 1 * NONCE_SIZE ≤ cache.length by omega) numericId localStartnonce
    exact ⟨cache', hplot, hlen.trans hcache⟩
  · intro accountId height sig nonce deadline
    have hverify := verifyDl_of_currentBaseTarget (Poc.runtimeConfig treasuryId scoopTarget) hcur hb
      accountId height sig nonce deadline
    rw [Poc.runtimeConfig_scoopTarget] at hverify
    exact ⟨scoopTarget accountId height sig nonce, findTarget_eq accountId height sig nonce,
      hverify⟩

/-- After `set_difficulty` and an adjustment, with no balances. -/
theorem verifyDl_reads_in_bounds_after_adjustment :
    let c := Poc.runtimeConfig (0 : ℕ) scoopTarget
    let w := (machine c ⟨fun _ => none, fun _ => [], 0⟩).run setThenAdjusted
    w.handler.targetInfo.map (·.baseTarget) = [366503875925, 366503875, 366503875] ∧
    (∀ data term, ∃ hash, hashFast data term = some hash ∧ hash.length = 32) ∧
    (∀ height sig, ∃ scoop, calculateScoop height sig = some scoop ∧ scoop.toNat < NUM_SCOOPS) ∧
    (∀ cache : List UInt8, cache.length = NONCE_SIZE → ∀ numericId localStartnonce,
      ∃ cache', noncegenRust cache numericId localStartnonce 1 = some cache' ∧
        cache'.length = NONCE_SIZE) ∧
    (∀ scoopData < NUM_SCOOPS, ∀ cache : List UInt8, cache.length = NONCE_SIZE →
      genMirrorScoopData scoopData cache = some ((cache.drop (64 * scoopData)).take 32 ++
        (cache.drop (64 * (4095 - scoopData) + 32)).take 32)) ∧
    (∀ data : List UInt8, data.length = SCOOP_SIZE → ∀ gensig,
      ∃ d, deadlineFast data gensig = some d ∧ findBestDeadlineRust data 1 gensig = some (d, 0)) ∧
    ∃ b, 1 ≤ b ∧ getCurrentBaseTarget w.handler = some b ∧
      ∀ accountId height sig nonce deadline, ∃ target,
        findTarget accountId height sig nonce = some target ∧
        verifyDl c w.handler accountId height sig nonce deadline =
          some (decide (deadline = target / b)) :=
  ⟨by decide +kernel, verifyDl_reads_in_bounds 0 _ (Machine.reachable_run _ _)⟩

end IpseCore.Runtime
