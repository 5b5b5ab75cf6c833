import IpseCore.Library.Bytes
import IpseCore.Library.Slices

/-!
# Shabal-256

The `shabal256` module of `conjugate-poc`. `shabal256_hash_fast` hashes a message of whole
64-byte blocks followed by a final block `term` given as sixteen words; the plotter and
`calculate_scoop` use it. `shabal256_deadline_fast` is the path `verify_dl` takes to a deadline:
it hashes the generation signature and one 64-byte scoop, handing each block to
`input_block_add_dl`, `perm_dl` and `input_block_sub_dl` as two 8-word halves, and returns the
first 64 bits of the hash.

Words are `u32` and every operation wraps, as `UInt32`'s do. The message words are read with
`get_unchecked`: reading past the end is undefined behaviour, and a function that makes such
reads returns `none` unless all of them are in bounds. A panicking slice gives `none` too.

The two paths agree (`deadlineFast_eq_hashFast`): each half-block step reads the word of the
whole block that the matching step of `perm` reads, and the `u64` made of `B[8]` and `B[9]` is
the little-endian value of the first eight bytes of the hash.
-/

namespace IpseCore.Conjugate

open LittleEndian

/-- `A_INIT`. -/
def A_INIT : Vector UInt32 12 :=
  #v[0x52F84552, 0xE54B7999, 0x2D8EE3EC, 0xB9645191, 0xE0078B86, 0xBB7C44C9, 0xD2B5C1CA,
    0xB0D2EB8C, 0x14CE5A45, 0x22AF50DC, 0xEFFDBC6B, 0xEB21B74A]

/-- `B_INIT`. -/
def B_INIT : Vector UInt32 16 :=
  #v[0xB555C6EE, 0x3E710596, 0xA72A652F, 0x9301515F, 0xDA28C1FA, 0x696FD868, 0x9CB6BF72,
    0x0AFE4002, 0xA6E03615, 0x5138C1D4, 0xBE216306, 0xB38B8890, 0x3EA8B96B, 0x3299ACE4,
    0x30924DD4, 0x55CB34A5]

/-- `C_INIT`. -/
def C_INIT : Vector UInt32 16 :=
  #v[0xB405F031, 0xC4233EBA, 0xB3733979, 0xC0DD9D55, 0xC51C28AE, 0xA327B8E1, 0x56C56167,
    0xED614433, 0x88B59D60, 0x60E2CEBA, 0x758B4B8B, 0x83E82A7F, 0xBC968828, 0xE6E00BF7,
    0xBA839E55, 0x9B491C60]

/-! ### Message blocks -/

/-- `input_block_add` and `input_block_sub`: combine each word of the state with the message
word beside it, as far as both go (`zip`). -/
def inputBlockWith (op : UInt32 → UInt32 → UInt32) (x : Vector UInt32 16) (data : List UInt32) :
    Vector UInt32 16 :=
  Vector.ofFn fun i => if h : i.1 < data.length then op x[i] data[i.1] else x[i]

/-- `input_block_add_dl` and `input_block_sub_dl`: the same with the block given as two
halves of which eight words each are read unchecked. -/
def inputBlockWithDl (op : UInt32 → UInt32 → UInt32) (x : Vector UInt32 16)
    (dataA dataB : List UInt32) : Option (Vector UInt32 16) :=
  if 8 ≤ dataA.length ∧ 8 ≤ dataB.length then
    some (Vector.ofFn fun i =>
      if i.1 < 8 then op x[i] (dataA.getD i 0) else op x[i] (dataB.getD (i - 8) 0))
  else none

/-- `input_block_add`. -/
def inputBlockAdd (b : Vector UInt32 16) (data : List UInt32) : Vector UInt32 16 :=
  inputBlockWith (· + ·) b data

/-- `input_block_sub`. -/
def inputBlockSub (c : Vector UInt32 16) (data : List UInt32) : Vector UInt32 16 :=
  inputBlockWith (· - ·) c data

/-- `input_block_add_dl`. -/
def inputBlockAddDl (b : Vector UInt32 16) (dataA dataB : List UInt32) :
    Option (Vector UInt32 16) :=
  inputBlockWithDl (· + ·) b dataA dataB

/-- `input_block_sub_dl`. -/
def inputBlockSubDl (c : Vector UInt32 16) (dataA dataB : List UInt32) :
    Option (Vector UInt32 16) :=
  inputBlockWithDl (· - ·) c dataA dataB

/-- `xor_w`: the block counter into `A[0]` and `A[1]`. -/
def xorW (a : Vector UInt32 12) (wLow wHigh : UInt32) : Vector UInt32 12 :=
  (a.set 0 (a[0] ^^^ wLow)).set 1 (a[1] ^^^ wHigh)

/-- `incr_w`: the block counter, a `u64` kept as its low and high words. -/
def incrW (wLow wHigh : UInt32) : UInt32 × UInt32 :=
  let wLow := wLow + 1
  (wLow, if wLow = 0 then wHigh + 1 else wHigh)

/-! ### The permutation -/

/-- `perm_elt`: one step of the permutation, on `A[xa0]` and then on `B[xb0]`. -/
def permElt (a : Vector UInt32 12) (b : Vector UInt32 16) (xa0 xa1 : Fin 12)
    (xb0 xb1 xb2 xb3 : Fin 16) (xc xm : UInt32) : Vector UInt32 12 × Vector UInt32 16 :=
  let a := a.set xa0 ((((a[xa0] ^^^ (((a[xa1] <<< 15) ||| (a[xa1] >>> 17)) * 5)) ^^^ xc) * 3) ^^^
    b[xb1] ^^^ (b[xb2] &&& ~~~b[xb3]) ^^^ xm)
  let b := b.set xb0 (~~~(((b[xb0] <<< 1) ||| (b[xb0] >>> 31)) ^^^ a[xa0]))
  (a, b)

/-- A line of `perm`: the indices into `A`, `B` and `C`, and the message word it reads. -/
structure PermStep where
  xa0 : Fin 12
  xa1 : Fin 12
  xb0 : Fin 16
  xb1 : Fin 16
  xb2 : Fin 16
  xb3 : Fin 16
  xc : Fin 16
  xm : Fin 16
  deriving DecidableEq, Repr

/-- The 48 lines of `perm`, in order. -/
def permSchedule : List PermStep :=
  [⟨0, 11, 0, 13, 9, 6, 8, 0⟩, ⟨1, 0, 1, 14, 10, 7, 7, 1⟩, ⟨2, 1, 2, 15, 11, 8, 6, 2⟩,
  ⟨3, 2, 3, 0, 12, 9, 5, 3⟩, ⟨4, 3, 4, 1, 13, 10, 4, 4⟩, ⟨5, 4, 5, 2, 14, 11, 3, 5⟩,
  ⟨6, 5, 6, 3, 15, 12, 2, 6⟩, ⟨7, 6, 7, 4, 0, 13, 1, 7⟩, ⟨8, 7, 8, 5, 1, 14, 0, 8⟩,
  ⟨9, 8, 9, 6, 2, 15, 15, 9⟩, ⟨10, 9, 10, 7, 3, 0, 14, 10⟩, ⟨11, 10, 11, 8, 4, 1, 13, 11⟩,
  ⟨0, 11, 12, 9, 5, 2, 12, 12⟩, ⟨1, 0, 13, 10, 6, 3, 11, 13⟩, ⟨2, 1, 14, 11, 7, 4, 10, 14⟩,
  ⟨3, 2, 15, 12, 8, 5, 9, 15⟩, ⟨4, 3, 0, 13, 9, 6, 8, 0⟩, ⟨5, 4, 1, 14, 10, 7, 7, 1⟩,
  ⟨6, 5, 2, 15, 11, 8, 6, 2⟩, ⟨7, 6, 3, 0, 12, 9, 5, 3⟩, ⟨8, 7, 4, 1, 13, 10, 4, 4⟩,
  ⟨9, 8, 5, 2, 14, 11, 3, 5⟩, ⟨10, 9, 6, 3, 15, 12, 2, 6⟩, ⟨11, 10, 7, 4, 0, 13, 1, 7⟩,
  ⟨0, 11, 8, 5, 1, 14, 0, 8⟩, ⟨1, 0, 9, 6, 2, 15, 15, 9⟩, ⟨2, 1, 10, 7, 3, 0, 14, 10⟩,
  ⟨3, 2, 11, 8, 4, 1, 13, 11⟩, ⟨4, 3, 12, 9, 5, 2, 12, 12⟩, ⟨5, 4, 13, 10, 6, 3, 11, 13⟩,
  ⟨6, 5, 14, 11, 7, 4, 10, 14⟩, ⟨7, 6, 15, 12, 8, 5, 9, 15⟩, ⟨8, 7, 0, 13, 9, 6, 8, 0⟩,
  ⟨9, 8, 1, 14, 10, 7, 7, 1⟩, ⟨10, 9, 2, 15, 11, 8, 6, 2⟩, ⟨11, 10, 3, 0, 12, 9, 5, 3⟩,
  ⟨0, 11, 4, 1, 13, 10, 4, 4⟩, ⟨1, 0, 5, 2, 14, 11, 3, 5⟩, ⟨2, 1, 6, 3, 15, 12, 2, 6⟩,
  ⟨3, 2, 7, 4, 0, 13, 1, 7⟩, ⟨4, 3, 8, 5, 1, 14, 0, 8⟩, ⟨5, 4, 9, 6, 2, 15, 15, 9⟩,
  ⟨6, 5, 10, 7, 3, 0, 14, 10⟩, ⟨7, 6, 11, 8, 4, 1, 13, 11⟩, ⟨8, 7, 12, 9, 5, 2, 12, 12⟩,
  ⟨9, 8, 13, 10, 6, 3, 11, 13⟩, ⟨10, 9, 14, 11, 7, 4, 10, 14⟩, ⟨11, 10, 15, 12, 8, 5, 9, 15⟩]

/-- `perm`: the 48 steps, each reading one of the 16 message words unchecked. -/
def perm (a : Vector UInt32 12) (b c : Vector UInt32 16) (data : List UInt32) :
    Option (Vector UInt32 12 × Vector UInt32 16) :=
  if 16 ≤ data.length then
    some (permSchedule.foldl (fun ab s =>
      permElt ab.1 ab.2 s.xa0 s.xa1 s.xb0 s.xb1 s.xb2 s.xb3 (c.get s.xc) (data.getD s.xm 0)) (a, b))
  else none

/-- The half of a block a line of `perm_dl` reads from: `data_a` or `data_b`. -/
inductive Half where
  | a
  | b
  deriving DecidableEq, Repr

/-- A line of `perm_dl`: a line of `perm` whose message word is word `xm` of one half. -/
structure PermDlStep where
  xa0 : Fin 12
  xa1 : Fin 12
  xb0 : Fin 16
  xb1 : Fin 16
  xb2 : Fin 16
  xb3 : Fin 16
  xc : Fin 16
  half : Half
  xm : Fin 8
  deriving DecidableEq, Repr

/-- The 48 lines of `perm_dl`, in order. -/
def permDlSchedule : List PermDlStep :=
  [⟨0, 11, 0, 13, 9, 6, 8, .a, 0⟩, ⟨1, 0, 1, 14, 10, 7, 7, .a, 1⟩, ⟨2, 1, 2, 15, 11, 8, 6, .a, 2⟩,
  ⟨3, 2, 3, 0, 12, 9, 5, .a, 3⟩, ⟨4, 3, 4, 1, 13, 10, 4, .a, 4⟩, ⟨5, 4, 5, 2, 14, 11, 3, .a, 5⟩,
  ⟨6, 5, 6, 3, 15, 12, 2, .a, 6⟩, ⟨7, 6, 7, 4, 0, 13, 1, .a, 7⟩, ⟨8, 7, 8, 5, 1, 14, 0, .b, 0⟩,
  ⟨9, 8, 9, 6, 2, 15, 15, .b, 1⟩, ⟨10, 9, 10, 7, 3, 0, 14, .b, 2⟩, ⟨11, 10, 11, 8, 4, 1, 13, .b, 3⟩,
  ⟨0, 11, 12, 9, 5, 2, 12, .b, 4⟩, ⟨1, 0, 13, 10, 6, 3, 11, .b, 5⟩, ⟨2, 1, 14, 11, 7, 4, 10, .b, 6⟩,
  ⟨3, 2, 15, 12, 8, 5, 9, .b, 7⟩, ⟨4, 3, 0, 13, 9, 6, 8, .a, 0⟩, ⟨5, 4, 1, 14, 10, 7, 7, .a, 1⟩,
  ⟨6, 5, 2, 15, 11, 8, 6, .a, 2⟩, ⟨7, 6, 3, 0, 12, 9, 5, .a, 3⟩, ⟨8, 7, 4, 1, 13, 10, 4, .a, 4⟩,
  ⟨9, 8, 5, 2, 14, 11, 3, .a, 5⟩, ⟨10, 9, 6, 3, 15, 12, 2, .a, 6⟩, ⟨11, 10, 7, 4, 0, 13, 1, .a, 7⟩,
  ⟨0, 11, 8, 5, 1, 14, 0, .b, 0⟩, ⟨1, 0, 9, 6, 2, 15, 15, .b, 1⟩, ⟨2, 1, 10, 7, 3, 0, 14, .b, 2⟩,
  ⟨3, 2, 11, 8, 4, 1, 13, .b, 3⟩, ⟨4, 3, 12, 9, 5, 2, 12, .b, 4⟩, ⟨5, 4, 13, 10, 6, 3, 11, .b, 5⟩,
  ⟨6, 5, 14, 11, 7, 4, 10, .b, 6⟩, ⟨7, 6, 15, 12, 8, 5, 9, .b, 7⟩, ⟨8, 7, 0, 13, 9, 6, 8, .a, 0⟩,
  ⟨9, 8, 1, 14, 10, 7, 7, .a, 1⟩, ⟨10, 9, 2, 15, 11, 8, 6, .a, 2⟩, ⟨11, 10, 3, 0, 12, 9, 5, .a, 3⟩,
  ⟨0, 11, 4, 1, 13, 10, 4, .a, 4⟩, ⟨1, 0, 5, 2, 14, 11, 3, .a, 5⟩, ⟨2, 1, 6, 3, 15, 12, 2, .a, 6⟩,
  ⟨3, 2, 7, 4, 0, 13, 1, .a, 7⟩, ⟨4, 3, 8, 5, 1, 14, 0, .b, 0⟩, ⟨5, 4, 9, 6, 2, 15, 15, .b, 1⟩,
  ⟨6, 5, 10, 7, 3, 0, 14, .b, 2⟩, ⟨7, 6, 11, 8, 4, 1, 13, .b, 3⟩, ⟨8, 7, 12, 9, 5, 2, 12, .b, 4⟩,
  ⟨9, 8, 13, 10, 6, 3, 11, .b, 5⟩, ⟨10, 9, 14, 11, 7, 4, 10, .b, 6⟩, ⟨11, 10, 15, 12, 8, 5, 9, .b, 7⟩]

/-- The word a line of `perm_dl` reads: `data_a[xm]` or `data_b[xm]`. -/
def Half.read : Half → List UInt32 → List UInt32 → Fin 8 → UInt32
  | .a, dataA, _, k => dataA.getD k 0
  | .b, _, dataB, k => dataB.getD k 0

/-- `perm_dl`: the 48 steps, each reading one of eight words of one half unchecked. -/
def permDl (a : Vector UInt32 12) (b c : Vector UInt32 16) (dataA dataB : List UInt32) :
    Option (Vector UInt32 12 × Vector UInt32 16) :=
  if 8 ≤ dataA.length ∧ 8 ≤ dataB.length then
    some (permDlSchedule.foldl (fun ab s =>
      permElt ab.1 ab.2 s.xa0 s.xa1 s.xb0 s.xb1 s.xb2 s.xb3 (c.get s.xc) (s.half.read dataA dataB s.xm))
      (a, b))
  else none

/-- The end of `apply_p`: `A[i] += C[i + 11] + C[i + 15] + C[i + 3]`, the indices mod 16. -/
def addC (a : Vector UInt32 12) (c : Vector UInt32 16) : Vector UInt32 12 :=
  Vector.ofFn fun i =>
    a[i] + c.get ⟨(i.1 + 11) % 16, Nat.mod_lt _ (by decide)⟩ +
      c.get ⟨(i.1 + 15) % 16, Nat.mod_lt _ (by decide)⟩ +
      c.get ⟨(i.1 + 3) % 16, Nat.mod_lt _ (by decide)⟩

/-- `apply_p` and `apply_p_dl`: rotate every word of `B` left by 17, permute, and add `C`
into `A`. -/
def applyPBy (permF : Vector UInt32 12 → Vector UInt32 16 →
      Option (Vector UInt32 12 × Vector UInt32 16))
    (a : Vector UInt32 12) (b c : Vector UInt32 16) :
    Option (Vector UInt32 12 × Vector UInt32 16) := do
  let (a, b) ← permF a (b.map fun x : UInt32 => (x <<< 17) ||| (x >>> 15))
  pure (addC a c, b)

/-- `apply_p`. -/
def applyP (a : Vector UInt32 12) (b c : Vector UInt32 16) (data : List UInt32) :
    Option (Vector UInt32 12 × Vector UInt32 16) :=
  applyPBy (fun a b => perm a b c data) a b c

/-- `apply_p_dl`. -/
def applyPDl (a : Vector UInt32 12) (b c : Vector UInt32 16) (dataA dataB : List UInt32) :
    Option (Vector UInt32 12 × Vector UInt32 16) :=
  applyPBy (fun a b => permDl a b c dataA dataB) a b c

/-! ### The two hashes -/

/-- The variables of both hash functions between blocks: `a`, `b`, `c` and the counter. -/
structure State where
  a : Vector UInt32 12
  b : Vector UInt32 16
  c : Vector UInt32 16
  wLow : UInt32
  wHigh : UInt32

/-- The state both functions start from. -/
def State.init : State := ⟨A_INIT, B_INIT, C_INIT, 1, 0⟩

/-- One pass of the loop of `shabal256_hash_fast`: add the block, permute, subtract it, swap
`B` and `C`, and count the block. -/
def hashBlock (block : List UInt32) (s : State) : Option State := do
  let b := inputBlockAdd s.b block
  let a := xorW s.a s.wLow s.wHigh
  let (a, b) ← applyP a b s.c block
  let c := inputBlockSub s.c block
  let (wLow, wHigh) := incrW s.wLow s.wHigh
  pure ⟨a, c, b, wLow, wHigh⟩

/-- The loop of `shabal256_hash_fast`: `num` blocks, the next at word `ptr`. -/
def hashBlocks (data : List UInt32) : ℕ → ℕ → State → Option State
  | 0, _, s => some s
  | num + 1, ptr, s => do
    let block ← Slice.rangeFrom data ptr
    let s ← hashBlock block s
    hashBlocks data num (ptr + 16) s

/-- The rounds after the final block (`for _ in 0..3`): swap `B` and `C`, add the counter, and
apply the permutation again. -/
def finalRounds (applyF : Vector UInt32 12 → Vector UInt32 16 → Vector UInt32 16 →
      Option (Vector UInt32 12 × Vector UInt32 16)) : ℕ → State → Option State
  | 0, s => some s
  | n + 1, s => do
    let a := xorW s.a s.wLow s.wHigh
    let (a, b) ← applyF a s.c s.b
    finalRounds applyF n ⟨a, b, s.b, s.wLow, s.wHigh⟩

/-- What `shabal256_hash_fast` does after its loop: the final block `term`, then three more
rounds. -/
def hashFinal (term : List UInt32) (s : State) : Option State := do
  let b := inputBlockAdd s.b term
  let a := xorW s.a s.wLow s.wHigh
  let (a, b) ← applyP a b s.c term
  finalRounds (fun a b c => applyP a b c term) 3 ⟨a, b, s.c, s.wLow, s.wHigh⟩

/-- `shabal256_hash_fast`: the `len >> 6` whole blocks of the message, then the final block;
the hash is the bytes of `B[8..16]`. -/
def hashFast (data : List UInt8) (term : Vector UInt32 16) : Option (List UInt8) := do
  let s ← hashBlocks (words data) (data.length >>> 6) 0 State.init
  let s ← hashFinal term.toList s
  pure (bytes (s.b.toList.drop 8))

/-- `shabal256_deadline_fast`: the block of the signature and the first half of the scoop,
then the final block of the second half and the word `0x80`, each given as two halves; the
result is `B` read as `[u64; 8]` at index 4, that is `B[8]` and `B[9]`. -/
def deadlineFast (data : List UInt8) (gensig : Vector UInt8 32) : Option UInt64 := do
  let s := State.init
  let data := words data
  let gensig := words gensig.toList
  let term : List UInt32 := [0x80, 0, 0, 0, 0, 0, 0, 0]
  let head ← Slice.rangeTo data 8
  let tail ← Slice.rangeFrom data 8
  let b ← inputBlockAddDl s.b gensig head
  let a := xorW s.a s.wLow s.wHigh
  let (a, b) ← applyPDl a b s.c gensig head
  let c ← inputBlockSubDl s.c gensig head
  let (wLow, wHigh) := incrW s.wLow s.wHigh
  -- `swap_bc`
  let (b, c) := (c, b)
  let b ← inputBlockAddDl b tail term
  let a := xorW a wLow wHigh
  let (a, b) ← applyPDl a b c tail term
  let s ← finalRounds (fun a b c => applyPDl a b c tail term) 3 ⟨a, b, c, wLow, wHigh⟩
  pure (UInt64.ofNat (s.b[8].toNat + 2 ^ 32 * s.b[9].toNat))

/-- The source's first test vector: 64 zero bytes and the final block `0x80`. -/
example : hashFast (List.replicate 64 0) (Vector.ofFn fun i => if i.1 = 0 then 0x80 else 0) =
    some [0xDA, 0x8F, 0x08, 0xC0, 0x2A, 0x67, 0xBA, 0x9A, 0x56, 0xBD, 0xD0, 0x79, 0x8E, 0x48,
      0xAE, 0x07, 0x14, 0x21, 0x5E, 0x09, 0x3B, 0x5B, 0x85, 0x06, 0x49, 0xA3, 0x77, 0x18, 0x99,
      0x3F, 0x54, 0xA2] := by
  decide +kernel

/-! ### The halves of a block read the whole block -/

/-- Where a half starts in the whole block. -/
def Half.offset : Half → ℕ
  | .a => 0
  | .b => 8

theorem Half.offset_le (h : Half) : h.offset ≤ 8 := by
  cases h <;> decide

/-- The line of `perm` a line of `perm_dl` stands for: the same indices, and the word of the
whole block its half-word is. -/
def PermDlStep.whole (s : PermDlStep) : PermStep :=
  ⟨s.xa0, s.xa1, s.xb0, s.xb1, s.xb2, s.xb3, s.xc,
    ⟨s.half.offset + s.xm, by have := s.half.offset_le; have := s.xm.isLt; omega⟩⟩

/-- `perm_dl` is written line for line after `perm`. -/
theorem permDlSchedule_whole : permDlSchedule.map PermDlStep.whole = permSchedule := by
  decide

section Halves

variable {dataA dataB : List UInt32}

/-- A word of a half is the word of the whole block at the half's offset. -/
theorem Half.read_eq (hA : dataA.length = 8) (h : Half) (k : Fin 8) :
    h.read dataA dataB k = (dataA ++ dataB).getD (h.offset + k) 0 := by
  cases h with
  | a =>
    have hk : k.1 < dataA.length := by omega
    simp [Half.read, Half.offset, List.getD_eq_getElem?_getD, List.getElem?_append_left hk]
  | b =>
    have hk : dataA.length ≤ 8 + k.1 := by omega
    simp [Half.read, Half.offset, List.getD_eq_getElem?_getD, List.getElem?_append_right hk, hA]

theorem inputBlockWithDl_eq (op : UInt32 → UInt32 → UInt32) (x : Vector UInt32 16)
    (hA : dataA.length = 8) (hB : 8 ≤ dataB.length) :
    inputBlockWithDl op x dataA dataB = some (inputBlockWith op x (dataA ++ dataB)) := by
  rw [inputBlockWithDl, inputBlockWith, if_pos ⟨by omega, hB⟩]
  congr 1
  apply Vector.ext
  intro i hi
  have hin : i < (dataA ++ dataB).length := by
    rw [List.length_append]
    omega
  simp only [Vector.getElem_ofFn, dif_pos hin, List.getElem_append]
  -- the first eight words come from `data_a`, the others from `data_b`
  split_ifs with h8 hA8 hA8
  · simp [List.getD_eq_getElem?_getD, List.getElem?_eq_getElem hA8]
  · omega
  · omega
  · have hB8 : i - 8 < dataB.length := by omega
    simp [List.getD_eq_getElem?_getD, hA, List.getElem?_eq_getElem hB8]

/-- `perm_dl` on the two halves is `perm` on the whole block. -/
theorem permDl_eq_perm (hA : dataA.length = 8) (hB : 8 ≤ dataB.length)
    (a : Vector UInt32 12) (b c : Vector UInt32 16) :
    permDl a b c dataA dataB = perm a b c (dataA ++ dataB) := by
  have hlen : 16 ≤ (dataA ++ dataB).length := by
    rw [List.length_append]
    omega
  rw [permDl, perm, if_pos ⟨by omega, hB⟩, if_pos hlen, ← permDlSchedule_whole, List.foldl_map]
  congr 2
  funext ab s
  rw [Half.read_eq hA]
  rfl

theorem applyPDl_eq_applyP (hA : dataA.length = 8) (hB : 8 ≤ dataB.length)
    (a : Vector UInt32 12) (b c : Vector UInt32 16) :
    applyPDl a b c dataA dataB = applyP a b c (dataA ++ dataB) := by
  simp only [applyPDl, applyP, permDl_eq_perm hA hB]

end Halves

/-! ### The deadline is the first eight bytes of the hash -/

theorem applyP_isSome {data : List UInt32} (h : 16 ≤ data.length) (a : Vector UInt32 12)
    (b c : Vector UInt32 16) : (applyP a b c data).isSome := by
  simp [applyP, applyPBy, perm, if_pos h]

theorem finalRounds_isSome {applyF : Vector UInt32 12 → Vector UInt32 16 → Vector UInt32 16 →
      Option (Vector UInt32 12 × Vector UInt32 16)}
    (happly : ∀ a b c, (applyF a b c).isSome) (n : ℕ) (s : State) :
    (finalRounds applyF n s).isSome := by
  induction n generalizing s with
  | zero => rfl
  | succ n ih =>
    obtain ⟨r, hr⟩ := Option.isSome_iff_exists.mp (happly (xorW s.a s.wLow s.wHigh) s.c s.b)
    simp only [finalRounds, hr, Option.bind_eq_bind, Option.bind_some]
    exact ih _

theorem hashBlock_isSome (block : List UInt32) (h : 16 ≤ block.length) (s : State) :
    (hashBlock block s).isSome := by
  obtain ⟨r, hr⟩ := Option.isSome_iff_exists.mp (applyP_isSome h (xorW s.a s.wLow s.wHigh)
    (inputBlockAdd s.b block) s.c)
  simp [hashBlock, hr]

theorem hashFinal_isSome (term : List UInt32) (h : 16 ≤ term.length) (s : State) :
    (hashFinal term s).isSome := by
  obtain ⟨r, hr⟩ := Option.isSome_iff_exists.mp (applyP_isSome h (xorW s.a s.wLow s.wHigh)
    (inputBlockAdd s.b term) s.c)
  simp only [hashFinal, hr, Option.bind_eq_bind, Option.bind_some]
  exact finalRounds_isSome (fun a b c => applyP_isSome h a b c) 3 _

/-- The loop of `shabal256_hash_fast` reads inside its message while `num` more blocks of sixteen
words fit after `ptr`. -/
theorem hashBlocks_isSome {data : List UInt32} (num : ℕ) {ptr : ℕ}
    (h : ptr + 16 * num ≤ data.length) (s : State) : (hashBlocks data num ptr s).isSome := by
  induction num generalizing ptr s with
  | zero => rfl
  | succ num ih =>
    have hptr : ptr ≤ data.length := by omega
    have hblock : 16 ≤ (data.drop ptr).length := by
      rw [List.length_drop]
      omega
    obtain ⟨s', hs'⟩ := Option.isSome_iff_exists.mp (hashBlock_isSome _ hblock s)
    simp only [hashBlocks, Slice.rangeFrom_of_le hptr, Option.bind_eq_bind, Option.bind_some, hs']
    exact ih (by omega) s'

/-- `shabal256_hash_fast` never reads outside its message: `len >> 6` blocks of sixteen words
fit in the `len / 4` words it reads the message as. Its hash is the bytes of `B[8..16]` of
the state it ends in. -/
theorem hashFast_spec (data : List UInt8) (term : Vector UInt32 16) :
    ∃ s : State, hashFast data term = some (bytes (s.b.toList.drop 8)) := by
  have hblocks : 0 + 16 * (data.length >>> 6) ≤ (words data).length := by
    rw [length_words, Nat.shiftRight_eq_div_pow]
    omega
  obtain ⟨s₁, hs₁⟩ := Option.isSome_iff_exists.mp (hashBlocks_isSome _ hblocks State.init)
  obtain ⟨s₂, hs₂⟩ := Option.isSome_iff_exists.mp
    (hashFinal_isSome term.toList (by simp) s₁)
  refine ⟨s₂, ?_⟩
  simp only [hashFast, hs₁, hs₂, Option.bind_eq_bind, Option.bind_some, Option.pure_def]

/-- The hash is 32 bytes. -/
theorem length_hashFast (data : List UInt8) (term : Vector UInt32 16) :
    ∃ hash, hashFast data term = some hash ∧ hash.length = 32 := by
  obtain ⟨s, hs⟩ := hashFast_spec data term
  refine ⟨_, hs, ?_⟩
  simp

/-- `B[8]` and `B[9]` as a `u64` are the first eight bytes of `B[8..16]`. -/
theorem value_take_bytes (b : Vector UInt32 16) :
    value ((bytes (b.toList.drop 8)).take 8) = b[8].toNat + 2 ^ 32 * b[9].toNat := by
  have hpair : (b.toList.drop 8).take 2 = [b[8], b[9]] := by
    apply List.ext_getElem
    · simp
    · intro i h₁ h₂
      simp only [List.length_take, List.length_drop, Vector.length_toList] at h₁
      rcases i with _ | _ | i
      · simp
      · simp
      · omega
  have htake : (bytes (b.toList.drop 8)).take 8 = (bytes (b.toList.drop 8)).take (4 * 2) := rfl
  rw [htake, take_bytes, hpair, value_bytes_pair]

/-- A list of sixteen words, read out word by word into a `[u32; 16]`. -/
theorem toList_ofFn_getD {l : List UInt32} (h : l.length = 16) :
    (Vector.ofFn fun i : Fin 16 => l.getD i 0).toList = l := by
  apply List.ext_getElem
  · simp [h]
  · intro i h₁ h₂
    simp [List.getD_eq_getElem?_getD, List.getElem?_eq_getElem h₂]

/-- On a message of sixteen words, the fast deadline is the generic block on the signature and
the first eight words, then the generic final block on the last eight words and the padding,
read out at `B[8]` and `B[9]`. -/
theorem deadlineFast_eq {data : List UInt8} (hD : (words data).length = 16)
    (gensig : Vector UInt8 32) :
    deadlineFast data gensig =
      (hashBlock (words gensig.toList ++ (words data).take 8) State.init >>=
        hashFinal ((words data).drop 8 ++ [0x80, 0, 0, 0, 0, 0, 0, 0])).map
        fun s => UInt64.ofNat (s.b[8].toNat + 2 ^ 32 * s.b[9].toNat) := by
  have hg : (words gensig.toList).length = 8 := by simp
  have hhead : ((words data).take 8).length = 8 := by simp [hD]
  have htail : ((words data).drop 8).length = 8 := by simp [hD]
  have hterm : 8 ≤ ([0x80, 0, 0, 0, 0, 0, 0, 0] : List UInt32).length := by decide
  have h8 : 8 ≤ (words data).length := by omega
  simp only [deadlineFast, Slice.rangeTo_of_le h8, Slice.rangeFrom_of_le h8, inputBlockAddDl,
    inputBlockSubDl, inputBlockWithDl_eq _ _ hg hhead.ge, inputBlockWithDl_eq _ _ htail hterm,
    applyPDl_eq_applyP hg hhead.ge, applyPDl_eq_applyP htail hterm, Option.bind_eq_bind,
    Option.bind_some]
  simp only [hashBlock, hashFinal, inputBlockAdd, inputBlockSub, Option.bind_eq_bind,
    Option.pure_def, Option.bind_some, Option.bind_assoc, Option.map_bind, Function.comp_def]
  simp only [Option.map_eq_bind, Function.comp_def]

/-- On a message of sixteen words the fast deadline reads inside the message. -/
theorem deadlineFast_isSome {data : List UInt8} (hD : (words data).length = 16)
    (gensig : Vector UInt8 32) : (deadlineFast data gensig).isSome := by
  obtain ⟨s₁, hs₁⟩ := Option.isSome_iff_exists.mp
    (hashBlock_isSome (words gensig.toList ++ (words data).take 8) (by simp [hD])
      State.init)
  obtain ⟨s₂, hs₂⟩ := Option.isSome_iff_exists.mp
    (hashFinal_isSome ((words data).drop 8 ++ [0x80, 0, 0, 0, 0, 0, 0, 0])
      (by simp [hD]) s₁)
  rw [deadlineFast_eq hD, hs₁, Option.bind_eq_bind, Option.bind_some, hs₂, Option.map_some]
  rfl

/-- `shabal256_deadline_fast` on a 64-byte scoop and a 32-byte signature is the first eight
bytes, as a little-endian `u64`, of `shabal256_hash_fast` on `gensig ++ scoop`. -/
theorem deadlineFast_eq_hashFast (data : Vector UInt8 64) (gensig : Vector UInt8 32) :
    ∃ hash, hashFast (gensig.toList ++ data.toList.take 32)
        (Vector.ofFn fun i => (words (data.toList.drop 32) ++ [0x80, 0, 0, 0, 0, 0, 0, 0]).getD i 0) =
          some hash ∧
      deadlineFast data.toList gensig = some (UInt64.ofNat (value (hash.take 8))) := by
  have hD : (words data.toList).length = 16 := by simp
  have hmsg : words (gensig.toList ++ data.toList.take 32) =
      words gensig.toList ++ (words data.toList).take 8 := by
    rw [words_append (by simp), ← words_take 8]
  have hnum : (gensig.toList ++ data.toList.take 32).length >>> 6 = 1 := by simp
  have hterm : (Vector.ofFn fun i : Fin 16 =>
      (words (data.toList.drop 32) ++ [0x80, 0, 0, 0, 0, 0, 0, 0]).getD i 0).toList =
        (words data.toList).drop 8 ++ [0x80, 0, 0, 0, 0, 0, 0, 0] := by
    rw [show data.toList.drop 32 = data.toList.drop (4 * 8) from rfl, words_drop]
    exact toList_ofFn_getD (by simp [hD])
  -- both sides run the same two blocks, and neither block can fail
  obtain ⟨s₁, hs₁⟩ := Option.isSome_iff_exists.mp
    (hashBlock_isSome (words gensig.toList ++ (words data.toList).take 8) (by simp)
      State.init)
  obtain ⟨s₂, hs₂⟩ := Option.isSome_iff_exists.mp
    (hashFinal_isSome ((words data.toList).drop 8 ++ [0x80, 0, 0, 0, 0, 0, 0, 0])
      (by simp) s₁)
  refine ⟨bytes (s₂.b.toList.drop 8), ?_, ?_⟩
  · rw [hashFast, hmsg, hnum, hterm]
    simp only [hashBlocks, Slice.rangeFrom_of_le (Nat.zero_le _), List.drop_zero,
      Option.bind_eq_bind, Option.bind_some, hs₁, hs₂, Option.pure_def]
  · rw [deadlineFast_eq hD, hs₁, Option.bind_eq_bind, Option.bind_some, hs₂, Option.map_some,
      value_take_bytes]

end IpseCore.Conjugate
