import Efs.Library.Loans
import Efs.VolumeCalls

/-!
# Inodes on loan

The references to the inodes in the inode cache as loans: what `iget_from_cache` gives is on
loan until it is returned. Each call says what it takes and gives back whatever else is on
loan, so the reference counts of a whole run can be told from the calls.
-/

namespace Efs

open Library

/-- The addresses and the reference counts of the cached inodes. -/
def Sys.loanTable (s : Sys) (i : ℕ) : Option (ℕ × ℕ) :=
    (s.icac.node i).map fun n => (n.addr, n.refcnt)

/-- The pointers that were given and not given back, with the numbers of their inodes. -/
def Sys.OnLoan (s : Sys) (loans : Multiset (ℕ × ℕ)) : Prop := Loans s.loanTable loans

/-- The loans `before` became the loans `after`, whatever else is on loan. -/
def Lends (before after : Multiset (ℕ × ℕ)) (s s' : Sys) : Prop :=
  ∀ others, s.OnLoan (before + others) → s'.OnLoan (after + others)

/-- A call on the inode `iid` left all files as they were, and changed the loans. -/
structure Passed (w : World) (live : Finset ℕ) (iid : ℕ) (before after : Multiset (ℕ × ℕ))
    (s s' : Sys) : Prop
    extends Visited w live iid s s' where
  /-- The loans. -/
  lends : Lends before after s s'

/-- Apart from the inodes in `mine`, fewer inodes are on loan than a queue has room for, by more
than `k`. -/
def Sys.FewOnLoan (k : ℕ) (mine : Multiset (ℕ × ℕ)) (s : Sys) : Prop :=
  ∃ others, s.OnLoan (mine + others) ∧ (others.map Prod.fst).toFinset.card + k < queueMaxLen

/-- There is room to go along the names of a path that are left, `n` of them: in the inode cache
for one more inode beside those in `mine`, in the block cache for the blocks of the inodes, and in
the bitmap when a file is to be made at the end. -/
structure Sys.RoomToWalk (creates : Prop) (mine : Multiset (ℕ × ℕ)) (n : ℕ) (s : Sys) : Prop where
  /-- Room in the inode cache. -/
  icac : s.FewOnLoan 1 mine
  /-- Room in the block cache. -/
  bcac : s.Roomy n
  /-- Free blocks for an entry. -/
  blocks : creates → s.HasBlocks 4

section

variable {w : World} {E : Halt → Prop} {live : Finset ℕ} {s s₁ s' : Sys} {i ip iid : ℕ}
  {inode : Inode}
  {g : Node Inode → Node Inode} {loans a b c : Multiset (ℕ × ℕ)}

/-! ## Loans -/

/-- An inode on loan is borrowed. -/
theorem Sys.OnLoan.borrowed (h : s.OnLoan loans) (hmem : (i, ip) ∈ loans) : s.Borrowed i ip := by
  obtain ⟨n, hn, hne⟩ := h.count_ne hmem
  obtain ⟨m, hm, heq⟩ := Option.map_eq_some_iff.mp hn
  cases heq
  exact ⟨m, hm, rfl, hne⟩

/-- Nothing is lent when nothing happens. -/
theorem Lends.refl (a : Multiset (ℕ × ℕ)) (s : Sys) : Lends a a s s := fun _ h => h

/-- Loans of two calls add up. -/
theorem Lends.trans (h₁ : Lends a b s s₁) (h₂ : Lends b c s₁ s') : Lends a c s s' :=
  fun others h => h₂ others (h₁ others h)

/-- Other loans stay. -/
theorem Lends.add (h : Lends a b s s') (c : Multiset (ℕ × ℕ)) : Lends (a + c) (b + c) s s' := by
  intro others hs
  rw [add_assoc] at hs ⊢
  exact h (c + others) hs

/-- Where no loan changes, all loans stay. -/
theorem Lends.keep (h : Lends 0 0 s s') (a : Multiset (ℕ × ℕ)) : Lends a a s s' := by
  have hadd := h.add a
  rw [zero_add] at hadd
  exact hadd

/-- A call that keeps the references lends nothing. -/
theorem Lends.of_table (h : s'.loanTable = s.loanTable) : Lends a a s s' := by
  intro others hs
  rw [Sys.OnLoan, h]
  exact hs

/-- A node that stays keeps its loans. -/
theorem NodeStays.loanTable (h : NodeStays s s' i) :
    s'.loanTable i = s.loanTable i ∨ s'.loanTable i = none ∧ ∃ p, s.loanTable i = some (p, 0) := by
  rcases h with hkept | ⟨hnone, n, hn, hzero⟩
  · left
    have hentry := congrArg (Option.map fun k : ℕ × ℕ × Bool × Bool × Option
      (ℕ × ℕ × ℕ × Key128 × Key128) =>
      (k.1, k.2.1)) hkept
    rw [Option.map_map, Option.map_map] at hentry
    exact hentry
  · right
    refine ⟨by rw [Sys.loanTable, hnone, Option.map_none], n.addr, ?_⟩
    rw [Sys.loanTable, hn, Option.map_some, hzero]

/-- A call that keeps the nodes lends nothing. -/
theorem Lends.of_stays (h : ∀ i, NodeStays s s' i) : Lends a a s s' :=
  fun _ hs => hs.of_table fun i => (h i).loanTable

/-- A scan lends nothing. -/
theorem Scanned.lends (h : Scanned w s s') : Lends a a s s' :=
    Lends.of_stays fun i => Or.inl (h.kept i)

/-- A change of a node that keeps its address and its count. -/
theorem InodeChanges.lends (hc : InodeChanges iid g s s') (hg : ∀ n, (g n).addr = n.addr ∧
    (g n).refcnt = n.refcnt) :
    Lends a a s s' := by
  apply Lends.of_table
  funext i
  unfold Sys.loanTable
  rw [hc.node]
  by_cases hi : i = iid
  · subst hi
    rw [Function.update_self, Option.map_map]
    refine congrArg (fun f => (s.icac.node i).map f) (funext fun n => ?_)
    rw [Function.comp_apply, (hg n).1, (hg n).2]
  · rw [Function.update_of_ne hi]

/-- A return gives one loan back. -/
theorem InodeChanges.lends_release (hc : InodeChanges iid Node.release s s') :
    Lends {(iid, ip)} 0 s s' := by
  intro others hs
  rw [zero_add]
  refine hs.giveBack (fun j hj => ?_) fun n hn => ?_
  · rw [Sys.loanTable, Sys.loanTable, hc.node_of_ne hj]
  · obtain ⟨m, hm, heq⟩ := Option.map_eq_some_iff.mp hn
    cases heq
    rw [Sys.loanTable, hc.node_self hm]
    rfl

/-- A fetch is one more loan. -/
theorem Fetched.lends (hf : Fetched w iid ip s s') : Lends 0 {(iid, ip)} s s' := by
  intro others hs
  rw [zero_add] at hs
  obtain ⟨n, inode, hn, haddr, _, _, hcount⟩ := hf.held
  refine hs.lend (fun j hj => ?_) ?_ fun q m hm => ?_
  · rcases hf.node j hj with heq | ⟨hnone, m, hm, hzero⟩
    · left
      rw [Sys.loanTable, Sys.loanTable, heq]
    · right
      refine ⟨by rw [Sys.loanTable, hnone, Option.map_none], m.addr, ?_⟩
      rw [Sys.loanTable, hm, Option.map_some, hzero]
  · rw [Sys.loanTable, hn, Option.map_some, haddr, hcount, Sys.loanTable, Option.map_map]
    rfl
  · obtain ⟨m', hm', heq⟩ := Option.map_eq_some_iff.mp hm
    cases heq
    exact hf.addr m' hm'

/-- Two passes make one. -/
theorem Passed.trans (h₁ : Passed w live iid a b s s₁) (h₂ : Passed w live iid b c s₁ s') :
    Passed w live iid a c s s' :=
  ⟨h₁.toVisited.trans h₂.toVisited, h₁.lends.trans h₂.lends⟩

/-! ## Room -/

/-- Loans keep their number within its bound. -/
theorem Lends.fewOnLoan {k : ℕ} (h : Lends a b s s') (hfew : s.FewOnLoan k a) :
    s'.FewOnLoan k b :=
  hfew.imp fun others hothers => ⟨h others hothers.1, hothers.2⟩

/-- With few inodes on loan the inode cache has room. -/
theorem Sys.FewOnLoan.roomy {k : ℕ} (h : s.FewOnLoan k a) (ha : a.card ≤ k) : s.icac.Roomy 0 := by
  obtain ⟨others, hloan, hfew⟩ := h
  refine ⟨(a.map Prod.fst).toFinset ∪ (others.map Prod.fst).toFinset, ?_, fun i href => ?_⟩
  · have hunion := Finset.card_union_le (a.map Prod.fst).toFinset (others.map Prod.fst).toFinset
    have hmine := Multiset.toFinset_card_le (a.map Prod.fst)
    rw [Multiset.card_map] at hmine
    omega
  · obtain ⟨n, hn⟩ := Option.ne_none_iff_exists'.mp fun hnone => href (Cache.refs_of_none hnone)
    rw [Cache.refs_of_some hn] at href
    have hmem := hloan.exists_mem (i := i) (p := n.addr) (n := n.refcnt)
      (by simp [Sys.loanTable, hn]) href
    rw [← Multiset.toFinset_add, ← Multiset.map_add, Multiset.mem_toFinset]
    exact Multiset.mem_map_of_mem Prod.fst hmem

/-- The references to the cached inodes are loans. -/
theorem exists_onLoan (hk : s.icac.Keyed) : ∃ loans, s.OnLoan loans := by
  refine Loans.exists_of_finite (s.icac.nodes.map fun n => n.id).toFinset fun i hi => ?_
  obtain ⟨n, hn⟩ : ∃ n, s.icac.node i = some n :=
    Option.ne_none_iff_exists'.mp fun hnone => hi (by simp [Sys.loanTable, hnone])
  obtain ⟨hmem, hid⟩ := hk.node_eq_some.mp hn
  exact List.mem_toFinset.mpr (List.mem_map.mpr ⟨n, hmem, hid⟩)

/-- No more inodes are held than the two queues of the inode cache can link. -/
theorem card_le_of_borrowed (hk : s.icac.Keyed) {ids : Finset ℕ}
    (h : ∀ i ∈ ids, ∃ ip, s.Borrowed i ip) : ids.card ≤ 2 * queueMaxLen := by
  have hsub : ids ⊆ (s.icac.nodes.map fun n => n.id).toFinset := by
    intro i hi
    obtain ⟨ip, n, hn, _⟩ := h i hi
    obtain ⟨hmem, hid⟩ := hk.node_eq_some.mp hn
    exact List.mem_toFinset.mpr (List.mem_map.mpr ⟨n, hmem, hid⟩)
  have hcard := (Finset.card_le_card hsub).trans (List.toFinset_card_le _)
  rw [List.length_map, Cache.nodes, List.length_append, ← hk.wf.lru.len_eq,
    ← hk.wf.fifo.len_eq] at hcard
  have hlru := hk.wf.lru.len_le
  have hfifo := hk.wf.fifo.len_le
  omega

/-- With few cached inodes few are on loan. -/
theorem fewOnLoan_of_length {k : ℕ} (hk : s.icac.Keyed)
    (h : s.icac.nodes.length + k < queueMaxLen) : s.FewOnLoan k 0 := by
  obtain ⟨loans, hloans⟩ := exists_onLoan hk
  refine ⟨loans, by rwa [zero_add], ?_⟩
  have hsub : (loans.map Prod.fst).toFinset ⊆ (s.icac.nodes.map fun n => n.id).toFinset := by
    intro i hi
    obtain ⟨l, hl, rfl⟩ := Multiset.mem_map.mp (Multiset.mem_toFinset.mp hi)
    obtain ⟨n, hn, _⟩ := hloans.borrowed hl
    obtain ⟨hmem, hid⟩ := hk.node_eq_some.mp hn
    exact List.mem_toFinset.mpr (List.mem_map.mpr ⟨n, hmem, hid⟩)
  have hcard := (Finset.card_le_card hsub).trans (List.toFinset_card_le _)
  rw [List.length_map] at hcard
  omega

/-- What is left of the room. -/
theorem Sys.RoomToWalk.spend {creates creates' : Prop} {m n : ℕ}
    (h : s.RoomToWalk creates a (m + n))
    (hspends : Spends m s s') (hlends : Lends a b s s') (hcreates : creates' → creates) :
    s'.RoomToWalk creates' b n :=
  ⟨hlends.fewOnLoan h.icac, hspends.roomy n h.bcac,
    fun hmake => (h.blocks (hcreates hmake)).mono hspends.openDids⟩

/-- A call that spends no block leaves the room. -/
theorem Sys.RoomToWalk.keep {creates creates' : Prop} {n : ℕ} (h : s.RoomToWalk creates a n)
    (hspends : Spends 0 s s') (hlends : Lends a b s s') (hcreates : creates' → creates) :
    s'.RoomToWalk creates' b n :=
  Sys.RoomToWalk.spend (by rwa [Nat.zero_add]) hspends hlends hcreates

/-- Room for a walk is room for a shorter one. -/
theorem Sys.RoomToWalk.mono {creates creates' : Prop} {m n : ℕ} (h : s.RoomToWalk creates a n)
    (hmn : m ≤ n) (hcreates : creates' → creates) : s.RoomToWalk creates' a m :=
  ⟨h.icac, h.bcac.mono hmn, fun hmake => h.blocks (hcreates hmake)⟩

/-- A walk with at most one inode on loan has room for one more. -/
theorem Sys.RoomToWalk.hasRoom {creates : Prop} {n : ℕ} (h : s.RoomToWalk creates a n)
    (ha : a.card ≤ 1) : s.HasRoom :=
  ⟨h.icac.roomy ha, h.bcac.mono (Nat.zero_le n)⟩

/-! ## Rules -/

variable (hw : w.Reliable) (h : s.Sound w live) (hin : s.Within live) (hmem : iid ∈ live)
  (hb : s.Borrowed iid ip)

include hw h hin hmem hb

/-- The rule for `inode_lock`. -/
theorem wp_inodeLock_passed (hun : s.Unlocked) {Q : Bool → Sys → Prop}
    (hQ : ∀ s', Passed w live iid 0 0 s s' → s'.Borrowed iid ip → s'.UnlockedBut iid → Q false s') :
    Exec.Wp (inodeLock w ip) Q E s := by
  obtain ⟨n, inode, hn, href, hcontent, hp, hiid⟩ := hb.pointsTo h.stored h.full
  have hlends : Exec.Wp (inodeLock w ip) (fun _ s' => Lends 0 0 s s') E s :=
    wp_inodeLock h.stored.icac hp hiid (hun iid) fun s' hc => hc.lends fun _ => ⟨rfl, rfl⟩
  have hvisited : Exec.Wp (inodeLock w ip) (fun r s' => r = false ∧ Visited w live iid s s' ∧
      s'.Borrowed iid ip ∧ s'.UnlockedBut iid) E s :=
    wp_inodeLock_visited hw h hin hmem hb hun fun s' hv hb' hun' => ⟨rfl, hv, hb', hun'⟩
  refine (hvisited.and hlends).imp fun r s' hpost => ?_
  obtain ⟨⟨rfl, hv, hb', hun'⟩, hl⟩ := hpost
  exact hQ s' ⟨hv, hl⟩ hb' hun'

/-- The rule for `inode_unlock`. -/
theorem wp_inodeUnlock_passed (hun : s.UnlockedBut iid) {Q : Bool → Sys → Prop}
    (hQ : ∀ s', Passed w live iid 0 0 s s' → s'.Borrowed iid ip → s'.Unlocked → Q false s') :
    Exec.Wp (inodeUnlock w ip) Q E s := by
  obtain ⟨n, inode, hn, href, hcontent, hp, hiid⟩ := hb.pointsTo h.stored h.full
  have hlends : Exec.Wp (inodeUnlock w ip) (fun _ s' => Lends 0 0 s s') E s :=
    wp_inodeUnlock h.stored.icac hp hiid fun s' hc => hc.lends fun _ => ⟨rfl, rfl⟩
  have hvisited : Exec.Wp (inodeUnlock w ip) (fun r s' => r = false ∧ Visited w live iid s s' ∧
      s'.Borrowed iid ip ∧ s'.Unlocked) E s :=
    wp_inodeUnlock_visited hw h hin hmem hb hun fun s' hv hb' hun' => ⟨rfl, hv, hb', hun'⟩
  refine (hvisited.and hlends).imp fun r s' hpost => ?_
  obtain ⟨⟨rfl, hv, hb', hun'⟩, hl⟩ := hpost
  exact hQ s' ⟨hv, hl⟩ hb' hun'

/-- The rule for `inode_unlock_return`. -/
theorem wp_inodeUnlockReturn_passed (hun : s.UnlockedBut iid) {Q : Bool → Sys → Prop}
    (hQ : ∀ s', Passed w live iid {(iid, ip)} 0 s s' → s'.Unlocked → Q false s') :
    Exec.Wp (inodeUnlockReturn w ip) Q E s := by
  obtain ⟨n, inode, hn, href, hcontent, hp, hiid⟩ := hb.pointsTo h.stored h.full
  refine wp_inodeUnlockReturn h.stored.icac hp hiid (fun m hm => ?_) fun s' hc => ?_
  · rw [hn] at hm
    cases hm
    exact href
  · obtain ⟨hv, hself⟩ := hc.released hw h hin hmem
    exact hQ s' ⟨hv, hc.lends_release⟩ (hv.unlocked hun hself)

/-- The rule for `inode_return` of an inode that is not locked. -/
theorem wp_inodeReturn_passed (hself : ∀ n, s.icac.node iid = some n → n.locked = false)
    {Q : Bool → Sys → Prop}
    (hQ : ∀ s', Passed w live iid {(iid, ip)} 0 s s' →
      (∀ n, s'.icac.node iid = some n → n.locked = false) →
      Q false s') :
    Exec.Wp (inodeReturn w ip) Q E s := by
  obtain ⟨n, inode, hn, href, hcontent, hp, hiid⟩ := hb.pointsTo h.stored h.full
  refine wp_inodeReturn h.stored.icac hp hiid (fun m hm => ?_) hself fun s' hc => ?_
  · rw [hn] at hm
    cases hm
    exact href
  · obtain ⟨hv, hself'⟩ := hc.released hw h hin hmem
    exact hQ s' ⟨hv, hc.lends_release⟩ hself'

omit hb in
/-- The rule for `iget_from_cache`. -/
theorem wp_igetFromCache_passed (hE : ¬s.HasRoom → ∀ e : Halt, e.NoRoom → E e)
    (hun : s.Unlocked) {Q : Option ℕ → Sys → Prop}
    (hQ : ∀ ip s', Passed w live iid 0 {(iid, ip)} s s' → s'.Borrowed iid ip → s'.Unlocked →
      Q (some ip) s') :
    Exec.Wp (igetFromCache w iid false) Q E s := by
  have hlends : Exec.Wp (igetFromCache w iid false) (fun r s' => ∃ ip, r = some ip ∧
    Lends 0 {(iid, ip)} s s') E s :=
    wp_igetFromCache hw h.stored h.full (h.lt iid hmem) (hun iid)
      (fun ip s' hf => ⟨ip, rfl, hf.lends⟩) hE
  have hvisited : Exec.Wp (igetFromCache w iid false) (fun r s' => ∃ ip, r = some ip ∧
    Visited w live iid s s' ∧
      s'.Borrowed iid ip ∧ s'.Unlocked) E s :=
    wp_igetFromCache_visited hw h hin hmem hE hun fun ip s' hv hb hun' => ⟨ip, rfl, hv, hb, hun'⟩
  refine (hvisited.and hlends).imp fun r s' hpost => ?_
  obtain ⟨⟨ip, rfl, hv, hb, hun'⟩, ip', heq, hl⟩ := hpost
  cases heq
  exact hQ ip s' ⟨hv, hl⟩ hb hun'

end

end Efs
