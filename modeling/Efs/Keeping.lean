import Efs.DataBitmap
import Efs.Library.Keeps

/-!
# What the calls leave alone

Calls on the block cache leave the inode cache, the inode bitmap and the search hint of
the data bitmap alone, whatever fails in them.
-/

namespace Efs

open Library

section

variable {σ α : Type} {γ : Type} {w : World} {k : CacheOf σ α} {f : σ → γ}

/-- `panic` changes nothing. -/
theorem keeps_panic (p : Panic) : Exec.Keeps f (panic w p) :=
  .ite (.pure ()) (.stop _)

/-! ## Caches that do not matter -/

/-- The cache and its callback are no part of what is looked at. -/
structure CacheOf.Apart (k : CacheOf σ α) (f : σ → γ) : Prop where
  /-- The cache does not matter. -/
  set : ∀ c s, f (k.set c s) = f s
  /-- The callback changes nothing that matters. -/
  contentCbWrite : ∀ content id dirty deleted,
    Exec.Keeps f (k.contentCbWrite content id dirty deleted)

variable (hk : k.Apart f)

include hk

/-- A store into a node of the cache. -/
theorem CacheOf.Apart.nodeStore (addr : ℕ) (g : Node α → Node α) :
    Exec.Keeps f (nodeStore k addr g) := .update fun s => hk.set _ s

/-- An evicted node goes through the callback, and may stay as a dangling one. -/
theorem CacheOf.Apart.freeEvicted (tofree : Option (Node α)) :
    Exec.Keeps f (freeEvicted w k tofree) := by
  cases tofree with
  | none => exact .pure ()
  | some n =>
    refine .bind (.bind (hk.contentCbWrite _ _ _ _) fun failed => ?_) fun failed => .when
      (keeps_panic _)
    exact .bind (.when (.update fun s => hk.set _ s)) fun _ => .pure failed

/-- `cache_find` moves nodes of the cache only. -/
theorem CacheOf.Apart.cacheFind (id : ℕ) (access : Bool) :
    Exec.Keeps f (cacheFind w k id access) := by
  refine .bind (.bind (.read _) fun _ => .when (.stop _)) fun _ => .bind (.read _) fun found => ?_
  refine .bind (.update fun s => hk.set _ s) fun _ => .bind (.when (.stop _)) fun _ => ?_
  exact .bind (.when (keeps_panic _)) fun _ => .bind (hk.freeEvicted _) fun _ => .pure _

/-- A call that looks a node up and then works on it. -/
theorem CacheOf.Apart.of_find {β : Type} (id : ℕ) (access : Bool)
    {x : Option (Node α) → Exec Halt σ β}
    (hx : ∀ node, Exec.Keeps f (x node)) : Exec.Keeps f (Efs.cacheFind w k id access >>= x) :=
  .bind (hk.cacheFind id access) hx

/-- The lock of a node is part of the cache. -/
theorem CacheOf.Apart.nodeLock (n : Node α) : Exec.Keeps f (nodeLock k n) :=
  .bind (.when (.stop _)) fun _ => hk.nodeStore _ _

/-- A release of the lock is a store into the node. -/
theorem CacheOf.Apart.nodeUnlock (n : Node α) : Exec.Keeps f (nodeUnlock k n) := hk.nodeStore _ _

/-- A reference is dropped in the cache. -/
theorem CacheOf.Apart.dropReference (n : Node α) : Exec.Keeps f (dropReference w k n) :=
  .bind (.when (keeps_panic _)) fun _ => hk.nodeStore _ _

/-- `cache_try_get` moves, locks and references nodes only. -/
theorem CacheOf.Apart.cacheTryGet (id : ℕ) (lock access : Bool) :
    Exec.Keeps f (cacheTryGet w k id lock access) := by
  refine hk.of_find id access fun node => ?_
  cases node with
  | none => exact .pure _
  | some n =>
    refine .bind (hk.nodeLock n) fun _ => .ite (.bind (hk.nodeUnlock n) fun _ => .pure _) ?_
    exact .bind (hk.nodeStore _ _) fun _ => .bind (.when (hk.nodeUnlock n)) fun _ => .pure _

/-- `cache_insert_get` inserts a node and hands an evicted one to the callback. -/
theorem CacheOf.Apart.cacheInsertGet (id : ℕ) (lock : Bool) :
    Exec.Keeps f (cacheInsertGet w k id lock) := by
  refine .bind (.bind (.read _) fun _ => .when (.stop _)) fun _ => .bind (.read _) fun n => ?_
  refine .bind (.read _) fun r => .bind (.update fun s => hk.set _ s) fun _ => .ite ?_ (.pure _)
  exact .bind (hk.freeEvicted _) fun _ => .bind (.when (hk.nodeLock n)) fun _ => .pure _

/-- `cache_make_dirty` marks a node. -/
theorem CacheOf.Apart.cacheMakeDirty (id : ℕ) : Exec.Keeps f (cacheMakeDirty w k id) := by
  refine hk.of_find id false fun node => ?_
  cases node with
  | none => exact .pure _
  | some n => exact .bind (hk.nodeStore _ _) fun _ => .pure _

/-- `cache_make_deleted` marks a node. -/
theorem CacheOf.Apart.cacheMakeDeleted (id : ℕ) : Exec.Keeps f (cacheMakeDeleted w k id) := by
  refine hk.of_find id false fun node => ?_
  cases node with
  | none => exact .pure _
  | some n => exact .bind (hk.nodeStore _ _) fun _ => .pure _

/-- `cache_node_lock` locks a node. -/
theorem CacheOf.Apart.cacheNodeLock (id : ℕ) : Exec.Keeps f (cacheNodeLock w k id) := by
  refine hk.of_find id false fun node => ?_
  cases node with
  | none => exact .pure _
  | some n => exact .bind (hk.nodeLock n) fun _ => .pure _

/-- `cache_node_unlock` unlocks a node. -/
theorem CacheOf.Apart.cacheNodeUnlock (id : ℕ) : Exec.Keeps f (cacheNodeUnlock w k id) := by
  refine hk.of_find id false fun node => ?_
  cases node with
  | none => exact .pure _
  | some n => exact .bind (hk.nodeUnlock n) fun _ => .pure _

/-- `cache_return` drops a reference. -/
theorem CacheOf.Apart.cacheReturn (id : ℕ) : Exec.Keeps f (cacheReturn w k id) := by
  refine hk.of_find id false fun node => ?_
  cases node with
  | none => exact .pure _
  | some n =>
    refine .bind (hk.nodeLock n) fun _ => .bind (hk.dropReference n) fun _ => ?_
    exact .bind (hk.nodeUnlock n) fun _ => .pure _

/-- `cache_unlock_return` unlocks a node and drops a reference. -/
theorem CacheOf.Apart.cacheUnlockReturn (id : ℕ) : Exec.Keeps f (cacheUnlockReturn w k id) := by
  refine hk.of_find id false fun node => ?_
  cases node with
  | none => exact .pure _
  | some n => exact .bind (hk.dropReference n) fun _ => .bind (hk.nodeUnlock n) fun _ => .pure _

end

/-! ## Blocks on the disk -/

section

variable {γ : Type} {w : World} {f : Sys → γ}

/-- What calls on the block cache leave alone. -/
def Sys.aside (s : Sys) : Cache Inode × InodeBitmap × ℕ := (s.icac, s.ibm, s.dbmFirstEmptyWord)

/-- Only what the calls on the block cache leave alone is looked at. -/
def Aside (f : Sys → γ) : Prop := ∀ s s' : Sys, s'.aside = s.aside → f s' = f s

/-- Only the block cache and what the calls on it leave alone are looked at. -/
def OffDisk (f : Sys → γ) : Prop :=
  ∀ s s' : Sys, s'.bcac = s.bcac → s'.aside = s.aside → f s' = f s

/-- What lies beside the block cache does not depend on the disk. -/
theorem Aside.offDisk (hf : Aside f) : OffDisk f := fun s s' _ h => hf s s' h

/-- A call that works on the disk and on `pd_wb` leaves the block cache. -/
theorem offDisk_bcac : OffDisk Sys.bcac := fun _ _ h _ => h

variable (hf : OffDisk f)

include hf

/-- An update of neither the block cache nor what lies beside it. -/
theorem OffDisk.update {g : Sys → Sys} (hg : ∀ s, (g s).bcac = s.bcac)
    (hg' : ∀ s, (g s).aside = s.aside) : Exec.Keeps f (Exec.update g : Exec Halt Sys Unit) :=
  .update fun s => hf _ _ (hg s) (hg' s)

/-- A call that leaves the enclave only counts as a call. -/
theorem OffDisk.external : Exec.Keeps f (external w) :=
  .bind (.read _) fun _ => .bind (hf.update (fun _ => rfl) fun _ => rfl) fun _ => .pure _

/-- `disk_read` reads the disk. -/
theorem OffDisk.diskRead (bid : ℕ) : Exec.Keeps f (diskRead w bid) :=
  .bind hf.external fun _ => .bind (.read _) fun _ => .pure _

/-- `disk_write` writes the disk. -/
theorem OffDisk.diskWrite (data : Data) (bid : ℕ) : Exec.Keeps f (diskWrite w data bid) :=
  .bind hf.external fun _ => .bind (.when (hf.update (fun _ => rfl) fun _ => rfl)) fun _ => .pure _

/-- `disk_setzero` writes the disk. -/
theorem OffDisk.diskSetzero (bid : ℕ) : Exec.Keeps f (diskSetzero w bid) :=
  .bind hf.external fun _ => .bind (.when (hf.update (fun _ => rfl) fun _ => rfl)) fun _ => .pure _

/-- Encryption touches no state but the count of calls. -/
theorem OffDisk.aes128BlockEncrypt (iv key : Key128) (data : Data) :
    Exec.Keeps f (aes128BlockEncrypt w iv key data) := .bind hf.external fun _ => .pure _

/-- Decryption touches no state but the count of calls. -/
theorem OffDisk.aes128BlockDecrypt (iv key : Key128) (data : Data) :
    Exec.Keeps f (aes128BlockDecrypt w iv key data) := .bind hf.external fun _ => .pure _

/-- A hash touches no state but the count of calls. -/
theorem OffDisk.sha256Block (data : Data) : Exec.Keeps f (sha256Block w data) :=
  .bind hf.external fun _ => .pure _

/-- A comparison of hashes touches no state but the count of calls. -/
theorem OffDisk.sha256Validate (data : Data) (hash : Key256) :
    Exec.Keeps f (sha256Validate w data hash) := by
  refine .bind (hf.sha256Block data) fun hash' => ?_
  cases hash' <;> exact .pure _

/-- A block that is written back goes to the disk, and its hash upwards. -/
theorem OffDisk.writeBack (bp : Block) (bid : ℕ) : Exec.Keeps f (writeBack w bp bid) := by
  refine .bind (hf.aes128BlockEncrypt _ _ _) fun data => ?_
  cases data with
  | none => exact .pure _
  | some data =>
    refine .bind (hf.diskWrite _ _) fun failed => .ite (.pure _) ?_
    exact .bind (hf.update (fun _ => rfl) fun _ => rfl) fun _ => .pure _

/-- The hash of a metadata block goes to the superblock. -/
theorem OffDisk.writeBackMetadata (bp : Block) (bid : ℕ) :
    Exec.Keeps f (writeBackMetadata w bp bid) := by
  refine .ite (.bind (keeps_panic _) fun _ => .pure _) (.bind (hf.sha256Block _) fun hash => ?_)
  cases hash with
  | none => exact .pure _
  | some hash => exact .bind (hf.update (fun _ => rfl) fun _ => rfl) fun _ => hf.writeBack _ _

/-- The hash of a data block goes to `pd_wb`. -/
theorem OffDisk.writeBackData (bp : Block) (bid : ℕ) : Exec.Keeps f (writeBackData w bp bid) := by
  refine .ite (.bind (keeps_panic _) fun _ => .pure _) (.bind (hf.sha256Block _) fun hash => ?_)
  cases hash with
  | none => exact .bind (keeps_panic _) fun _ => .pure _
  | some hash =>
    refine .bind (.read _) fun node => ?_
    cases node with
    | none => exact .bind (hf.update (fun _ => rfl) fun _ => rfl) fun _ => hf.writeBack _ _
    | some node => exact .bind (hf.update (fun _ => rfl) fun _ => rfl) fun _ => hf.writeBack _ _

/-- An entry is taken out of `pd_wb`. -/
theorem OffDisk.pdWbDelete (bid : ℕ) : Exec.Keeps f (pdWbDelete bid) :=
  .bind (.read _) fun _ => .bind (hf.update (fun _ => rfl) fun _ => rfl) fun _ => .pure _

/-- The callback of the block cache writes a dirty block back, and drops a deleted one. -/
theorem OffDisk.bcacheCbWrite (content : Option Block) (bid : ℕ) (dirty deleted : Bool) :
    Exec.Keeps f (bcacheCbWrite w content bid dirty deleted) := by
  refine .ite (.bind (hf.pdWbDelete _) fun _ => .pure _) (.ite (.pure _) ?_)
  refine .ite (.bind (keeps_panic _) fun _ => .pure _)
    (.ite (.bind (keeps_panic _) fun _ => .pure _) ?_)
  cases content with
  | none => exact .stop _
  | some bp => exact .ite (hf.writeBackMetadata _ _) (hf.writeBackData _ _)

/-- A fetch reads, decrypts and checks a block. -/
theorem OffDisk.getBlockFromDisk (bid : ℕ) (type : BlockType) (hashidx : HashIdx) (iv key : Key128)
    (expHash : Option Key256) :
      Exec.Keeps f (getBlockFromDisk w bid type hashidx iv key expHash) := by
  cases expHash with
  | none => exact .pure _
  | some hash =>
    refine .bind (hf.diskRead _) fun data => ?_
    cases data with
    | none => exact .pure _
    | some data =>
      refine .bind (hf.aes128BlockDecrypt _ _ _) fun data => ?_
      cases data with
      | none => exact .pure _
      | some data =>
        refine .bind (hf.sha256Validate _ _) fun failed => .ite ?_ (.pure _)
        exact .bind (.when (.stop _)) fun _ => .bind (keeps_panic _) fun _ => .pure _

end

/-! ## The block cache -/

section

variable {γ : Type} {w : World} {f : Sys → γ} (hf : Aside f)

include hf

/-- The block cache does not matter. -/
theorem Aside.apart : (bcacOf w).Apart f := ⟨fun _ _ => hf _ _ rfl, hf.offDisk.bcacheCbWrite⟩

/-- A load looks a block up in the block cache, and fetches it into the cache. -/
theorem Aside.bgetFromCacheLock (bid : ℕ) (hashidx : HashIdx) (iv key : Key128)
    (expHash : Option Key256) : Exec.Keeps f (bgetFromCacheLock w bid hashidx iv key expHash) := by
  refine .bind (hf.apart.cacheTryGet _ _ _) fun bp => ?_
  cases bp with
  | some bp => exact .pure _
  | none =>
    refine .bind (hf.apart.cacheInsertGet _ _) fun slot => ?_
    refine .ite (.bind (keeps_panic _) fun _ => .pure _)
      (.ite (.bind (keeps_panic _) fun _ => .pure _) ?_)
    cases slot with
    | none => exact .stop _
    | some bpp =>
      refine .bind (hf.offDisk.getBlockFromDisk _ _ _ _ _ _) fun block => ?_
      cases block with
      | none => exact .pure _
      | some block =>
        refine .bind (hf.apart.nodeStore _ _) fun _ => .bind (.when (.update fun _ => hf _ _ rfl))
          fun _ => ?_
        exact .pure _

/-- A block is marked dirty in the block cache. -/
theorem Aside.blockMakeDirty (bid : ℕ) : Exec.Keeps f (blockMakeDirty w bid) :=
  hf.apart.cacheMakeDirty bid

/-- A block is given back to the block cache. -/
theorem Aside.blockUnlockReturn (bid : ℕ) : Exec.Keeps f (blockUnlockReturn w bid) :=
  hf.apart.cacheUnlockReturn bid

omit hf in
/-- Reading a block changes nothing. -/
theorem keeps_blockAt (bp : ℕ) : Exec.Keeps f (blockAt bp) := by
  refine .bind (.read _) fun block => ?_
  cases block with
  | none => exact .stop _
  | some block => exact .pure _

/-- A store into the data of a cached block. -/
theorem Aside.dataStore (bp : ℕ) (g : Data → Data) : Exec.Keeps f (dataStore w bp g) :=
  hf.apart.nodeStore _ _

/-- A load of a metadata block. -/
theorem Aside.bgetMetadata (bid : ℕ) : Exec.Keeps f (bgetMetadata w bid) :=
  .bind (.read _) fun _ => hf.bgetFromCacheLock _ _ _ _ _

end

/-! ## The inode cache -/

section

variable {γ : Type} {w : World} {f : Sys → γ}

/-- Only the inode cache is looked at. -/
def OfIcac (f : Sys → γ) : Prop := ∀ s s' : Sys, s'.icac = s.icac → f s' = f s

/-- Only the inode cache and the inode bitmap are looked at. -/
def OffData (f : Sys → γ) : Prop := ∀ s s' : Sys, s'.icac = s.icac → s'.ibm = s.ibm → f s' = f s

/-- What shows the inode cache only shows no more than that and the inode bitmap. -/
theorem OfIcac.offData (hf : OfIcac f) : OffData f := fun s s' h _ => hf s s' h

/-- The inode cache and the inode bitmap lie beside the block cache. -/
theorem OffData.aside (hf : OffData f) : Aside f := by
  intro s s' h
  exact hf s s' (congrArg Prod.fst h) (congrArg (fun a => a.2.1) h)

/-- So does the inode cache alone. -/
theorem OfIcac.aside (hf : OfIcac f) : Aside f := hf.offData.aside

/-- The inode bitmap is looked at alone. -/
theorem offData_ibm : OffData Sys.ibm := fun _ _ _ h => h

variable (hf : OffData f)

include hf

/-- The search of `dbm_alloc` loads and changes bitmap blocks, and moves the hint. -/
theorem OffData.dbmAllocFrom (n ret wid : ℕ) : Exec.Keeps f (dbmAllocFrom w n ret wid) := by
  induction n generalizing ret wid with
  | zero => exact .bind (keeps_panic _) fun _ => .pure _
  | succ n ih =>
    refine .bind (hf.aside.bgetMetadata _) fun bp => ?_
    cases bp with
    | none => exact .bind (keeps_panic _) fun _ => .pure _
    | some bp =>
      refine .bind (keeps_blockAt _) fun block => ?_
      cases scanWords block.data (bitmapWordPerBlock - wid) wid with
      | none => exact .bind (hf.aside.blockUnlockReturn _) fun _ => ih _ _
      | some p =>
        refine .bind (hf.aside.dataStore _ _) fun _ => .bind
          (.when (.update fun _ => hf _ _ rfl rfl)) fun _ => ?_
        refine .bind (hf.aside.blockMakeDirty _) fun _ => .bind (hf.aside.blockUnlockReturn _)
          fun _ => ?_
        exact .bind (.update fun _ => hf _ _ rfl rfl) fun _ => .pure _

/-- An allocation of a block changes the data bitmap only. -/
theorem OffData.blockAlloc : Exec.Keeps f (blockAlloc w) := by
  refine .bind (.bind (.read _) fun _ => hf.dbmAllocFrom _ _ _) fun did => ?_
  cases did with
  | none => exact .pure _
  | some did => exact .bind (.update fun _ => hf _ _ rfl rfl) fun _ => .pure _

/-- `dbm_free` clears a bit of a bitmap block. -/
theorem OffData.dbmFree (did : ℕ) : Exec.Keeps f (dbmFree w did) := by
  refine .ite (.pure _) (.bind (hf.aside.bgetMetadata _) fun bp => ?_)
  cases bp with
  | none => exact .bind (keeps_panic _) fun _ => .pure _
  | some bp =>
    refine .bind (keeps_blockAt _) fun block => .bind (hf.aside.dataStore _ _) fun _ => ?_
    refine .bind (.update fun _ => hf _ _ rfl rfl) fun _ => .bind (hf.aside.blockMakeDirty _)
      fun failed => ?_
    exact .ite (.pure _) (hf.aside.blockUnlockReturn _)

/-- `block_free` clears a bit, and may set the block to zero. -/
theorem OffData.blockFree (bid : ℕ) (setzero : Bool) : Exec.Keeps f (blockFree w bid setzero) := by
  refine .bind (.when (keeps_panic _)) fun _ => .bind (hf.aside.offDisk.pdWbDelete _)
    fun failed => ?_
  refine .ite (.pure _) (.bind (hf.aside.apart.cacheMakeDeleted _) fun _ => .bind
    (.when ?_) fun _ => ?_)
  · exact .bind (hf.aside.offDisk.diskSetzero _) fun _ => .pure _
  · exact hf.dbmFree _

end

end Efs
