import Efs.World

/-!
# The bitmaps

`bitmap.h` and the part of `bitmap.c` on inode numbers: the bit macros on 64-bit
words, the scan of a block, and the allocator over the one block of the inode
bitmap, which is held in memory.
-/

namespace Efs

open Library

/-! ## The macros of `bitmap.h` -/

/-- `BITCOUNT64`. -/
def bitcount64 (n : BitVec 64) : BitVec 64 :=
  let u := n
  let u := u - ((n >>> 1) &&& 0x7777777777777777#64)
  let u := u - ((n >>> 2) &&& 0x3333333333333333#64)
  let u := u - ((n >>> 3) &&& 0x1111111111111111#64)
  ((u + (u >>> 4)) &&& 0x0f0f0f0f0f0f0f0f#64) % 255#64

/-- One line `i |= i >> s` of `NEXT_POW2_64`. -/
def smearBy (s : ℕ) (i : BitVec 64) : BitVec 64 := i ||| i >>> s

/-- The bit smear of `NEXT_POW2_64`. -/
def smear64 (n : BitVec 64) : BitVec 64 :=
  smearBy 32 (smearBy 16 (smearBy 8 (smearBy 4 (smearBy 2 (smearBy 1 n)))))

/-- `NEXT_POW2_64`. -/
def nextPow2_64 (n : BitVec 64) : BitVec 64 := smear64 n + 1

/-- `LEFTMOST_SET_BIT_MASK_64`. -/
def leftmostSetBitMask64 (n : BitVec 64) : BitVec 64 := nextPow2_64 n >>> 1

/-- `LEFTMOST_SET_BIT_64`. -/
def leftmostSetBit64 (n : BitVec 64) : BitVec 64 := bitcount64 (leftmostSetBitMask64 n - 1)

/-- `BITMAP_FIRST_EMPTY_64`. -/
def bitmapFirstEmpty64 (n : BitVec 64) : ℤ :=
  if ~~~n = 0 then -1
  else if ~~~n &&& (1#64 <<< 63) ≠ 0 then 63
  else (leftmostSetBit64 (~~~n)).toNat

/-! ## Words of a bitmap block -/

/-- `BITMAP_BITPERWORD`. -/
@[simp] def bitmapBitPerWord : ℕ := 64

/-- `BITMAP_WORD_PER_BLOCK`. -/
@[simp] def bitmapWordPerBlock : ℕ := 512

/-- `BITMAP_WORDID2BID`. -/
def bitmapWordId2Bid (wid : ℕ) : ℕ := bitmapStart + wid / bitmapWordPerBlock

/-- `BITMAP_DID2BID`. -/
def bitmapDid2Bid (did : ℕ) : ℕ := bitmapStart + did / (blkSz * 8)

/-- The `w`-th little-endian word of a block. -/
def word64 (d : Data) (w : ℕ) : BitVec 64 := BitVec.ofNat 64 (d.getLE (8 * w) 8)

/-- A block with its `w`-th word replaced. -/
def setWord64 (d : Data) (w : ℕ) (v : BitVec 64) : Data := d.putLE (8 * w) 8 v.toNat

/-- The scan `for(; p < end; p++)` over `n` words from the word `w` on: the
first word with a clear bit, and what the macro gives for it. -/
def scanWords (d : Data) : ℕ → ℕ → Option (ℕ × ℕ)
  | 0, _ => none
  | n + 1, w =>
    let tmp := bitmapFirstEmpty64 (word64 d w)
    if tmp ≠ -1 then some (w, tmp.toNat) else scanWords d n (w + 1)

/-- The statement `*p |= 1UL << tmp` at the word `w`. -/
def markWord (d : Data) (w tmp : ℕ) : Data := setWord64 d w (word64 d w ||| 1#64 <<< tmp)

/-- The statement `*p &= ~(1 << (7 - id % 8))` at the byte `id / 8`. -/
def clearByte (d : Data) (id : ℕ) : Data :=
  d.write (id / 8) 1 fun _ => d.get (id / 8) &&& ~~~(1#8 <<< (7 - id % 8))

/-! ## Inode numbers -/

/-- The globals of the inode bitmap. -/
structure InodeBitmap where
  /-- `ibm`, the one block of the inode bitmap. -/
  ibm : Data
  /-- `ibm_first_empty_word`. -/
  ibmFirstEmptyWord : ℕ
  /-- Whether `ibm_lock` is held. -/
  ibmLock : Bool

/-- `pthread_mutex_lock(&ibm_lock)`. -/
def lockIbm : Exec Halt InodeBitmap Unit := do
  let held ← Exec.read (·.ibmLock)
  Exec.when held (Exec.stop .deadlock)
  Exec.update ({ · with ibmLock := true })

/-- `pthread_mutex_unlock(&ibm_lock)`. -/
def unlockIbm : Exec Halt InodeBitmap Unit := Exec.update ({ · with ibmLock := false })

/-- What `ibm_alloc` finds in memory it never set: the value of the
uninitialised `tmp`, `none` for -1 and otherwise a bit number (every other value
makes the shift undefined), and the eight bytes after `ibm`. -/
structure Leftover where
  /-- The uninitialised `tmp`. -/
  tmp : Option (Fin 64)
  /-- The memory after the array. -/
  beyond : BitVec 64
  deriving DecidableEq

/-- `ibm_alloc`, with `none` at its exit `if(tmp == -1) return 0`, which leaves
the lock held. With the hint one past the last word the loop body never runs,
`tmp` keeps the left-over value and `p` points behind the array. -/
def ibmAllocExit (junk : Leftover) : Exec Halt InodeBitmap (Option ℕ) := do
  lockIbm
  let first ← Exec.read (·.ibmFirstEmptyWord)
  let d ← Exec.read (·.ibm)
  if first < bitmapWordPerBlock then
    match scanWords d (bitmapWordPerBlock - first) first with
    | none => return none
    | some (w, tmp) =>
      Exec.update ({ · with ibm := markWord d w tmp })
      let ret := w * bitmapBitPerWord + (63 - tmp)
      let full := ~~~(word64 (markWord d w tmp) w) = 0
      Exec.update ({ · with ibmFirstEmptyWord := if full then first + 1 else first })
      unlockIbm
      return some (ret % 2 ^ 16)
  else
    match junk.tmp with
    | none => return none
    | some tmp =>
      let ret := first * bitmapBitPerWord + (63 - tmp.val)
      let full := ~~~(junk.beyond ||| 1#64 <<< tmp.val) = 0
      Exec.update ({ · with ibmFirstEmptyWord := if full then first + 1 else first })
      unlockIbm
      return some (ret % 2 ^ 16)

/-- `ibm_alloc`: the failure exit returns 0. -/
def ibmAlloc (junk : Leftover) : Exec Halt InodeBitmap ℕ := do
  let exit ← ibmAllocExit junk
  return exit.getD 0

/-- `ibm_free`. -/
def ibmFree (w : World) (iid : ℕ) : Exec Halt InodeBitmap Unit := do
  Exec.when (iid = 0) (panic w .rootInodeFreed)
  lockIbm
  Exec.update fun s => { s with ibm := clearByte s.ibm iid }
  Exec.update fun s =>
    { s with ibmFirstEmptyWord := min s.ibmFirstEmptyWord (iid / bitmapBitPerWord) }
  unlockIbm

end Efs
