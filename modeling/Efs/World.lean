import Efs.Library.Exec
import Efs.Layout

/-!
# The world outside of the enclave

What the file system takes from elsewhere: the hash function and the cipher of
the crypto library, random numbers, the untrusted host that serves the disk and
`panic`, and the ways in which a run of the enclave can end early.
-/

namespace Efs

open Library

/-- The calls of `panic`, named after their messages. -/
inductive Panic
  | rootInodeFreed
  | cannotGetBitmapBlock
  | dataBitmapFull
  | superblockWrittenBack
  | inodeBitmapWrittenBack
  | blockTypeMismatch
  | blockWriteBackFailed
  | hashValidationFailed
  | superblockHashFailed
  | superblockRead
  | inodeBitmapRead
  | metadataBlockFreed
  | moveToHeadOverflow
  | cannotWriteBackNode
  | returnOfUnreferenced
  | dirreadFailed
  deriving DecidableEq, Repr

/-- Why a run cannot be continued. -/
inductive Halt
  /-- `panic` was called and the host does not return from it. -/
  | panic (p : Panic)
  /-- A mutex is locked that this thread already holds. -/
  | deadlock
  /-- A null pointer is dereferenced. -/
  | nullDeref
  /-- `cache_find` dropped a node from both queues; the run is not followed past it. -/
  | nodeLost
  /-- Memory that is freed, out of bounds or never set is used. -/
  | undefinedBehaviour
  deriving DecidableEq, Repr

/-- The world of a run. -/
structure World where
  /-- `sha256_block`. -/
  sha256 : Data → Key256
  /-- `aes128_block_encrypt`, with an iv and a key. -/
  encrypt : Key128 → Key128 → Data → Data
  /-- `aes128_block_decrypt`, with an iv and a key. -/
  decrypt : Key128 → Key128 → Data → Data
  /-- `blk_zero_encrypted`, what the host writes for `ocall_disk_setzero`. -/
  zeroEncrypted : Data
  /-- Whether the `n`-th call of the disk or of the crypto library fails. -/
  fails : ℕ → Bool
  /-- The `n`-th key that `key128_gen` gives. -/
  random : ℕ → Key128
  /-- Whether the host returns from `panic`. The `ocall_panic` of the repository
  loops for ever; a different host may return, and then the code goes on. -/
  panicReturns : Bool

/-- A world in which nothing fails and `panic` does not return: the hash of a block
is its first 32 bytes and the cipher does nothing. -/
def World.plain : World where
  sha256 d := d.sub 0 32
  encrypt _ _ d := d
  decrypt _ _ d := d
  zeroEncrypted := Bytes.zero
  fails _ := false
  random _ := Bytes.zero
  panicReturns := false

/-- A call of `panic`. -/
def panic {σ : Type} (w : World) (p : Panic) : Exec Halt σ Unit :=
  if w.panicReturns then pure () else Exec.stop (.panic p)

/-- A panic stops the run or changes nothing. -/
@[simp] theorem wp_panic {σ : Type} {w : World} {p : Panic} {Q : Unit → σ → Prop}
    {E : Halt → Prop} {s : σ} : Exec.Wp (panic w p) Q E s ↔
      (w.panicReturns = true → Q () s) ∧ (w.panicReturns = false → E (.panic p)) := by
  unfold panic
  cases w.panicReturns <;> simp

end Efs
