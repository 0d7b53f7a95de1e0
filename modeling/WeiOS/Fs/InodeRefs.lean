import Mathlib
import WeiOS.Lib.Holders
import WeiOS.Lib.Triple
import WeiOS.Fs.Directory

/-!
# Reference Counts of Inodes

What the functions of `kern/inode.c` and the path calls of `kern/sysfile.c` do to the reference
counts of the in-memory inodes, on every path through them. A state is described by an explicit count
`n` and by the set `L` of inodes that are locked; a function that returns an inode has added one
reference to it, and a function that fails has added none.

## Main results
- `namex_refs`: path resolution adds one reference to the inode it returns.
- `creatLink_refs`: what is left over after `creat`.
-/

namespace WeiOS.Dir

open WeiOS.Inode WeiOS.Lib

/-! ## §1 The inode cache is not touched by reads and writes -/

section
variable (s : FileSys)

@[simp] theorem setBlock_icache (b : Nat) (d : Block) : (setBlock s b d).icache = s.icache := (rfl)

@[simp] theorem setBody_icache (i : Nat) (b : Body) : (setBody s i b).icache = s.icache := (rfl)

@[simp] theorem setAddr_icache (i k a : Nat) : (setAddr s i k a).icache = s.icache := (rfl)

@[simp] theorem bzero_icache (b : Nat) : (bzero s b).icache = s.icache := (rfl)

@[simp] theorem setBit_icache (b : Nat) (f : BitVec 8 → BitVec 8) :
    (setBit s b f).icache = s.icache := (rfl)

@[simp] theorem readSuperblock_icache : (readSuperblock s).icache = s.icache := (rfl)

@[simp] theorem iupdate_icache (i : Nat) : (Inode.iupdate s i).icache = s.icache := (rfl)

@[simp] theorem clearDInode_icache (ino type : Nat) : (clearDInode s ino type).icache = s.icache :=
  (rfl)

@[simp] theorem bfree_icache (b : Nat) : (bfree s b).2.icache = s.icache := by
  unfold bfree
  dsimp only
  split <;> rfl

@[simp] theorem balloc_icache : (balloc s).2.icache = s.icache := by
  unfold balloc
  split <;> rfl

/-- Two states have the same inode cache. -/
def SameIcache (s s' : FileSys) : Prop := s'.icache = s.icache

/-- A loop whose body keeps the inode cache keeps it. -/
theorem foldl_icache {α : Type} {f : FileSys → α → FileSys}
    (hf : ∀ s a, (f s a).icache = s.icache) (l : List α) : SameIcache s (l.foldl f s) := by
  induction l generalizing s with
  | nil => rfl
  | cons a l ih => exact (ih (f s a)).trans (hf s a)

theorem freeSlot_icache (i j : Nat) : (freeSlot i s j).icache = s.icache := by
  unfold freeSlot
  dsimp only
  split <;> simp

@[simp] theorem freeDirect_icache (i : Nat) : (freeDirect s i).icache = s.icache := by
  have h : SameIcache s (freeDirect s i) := foldl_icache s (fun s j => freeSlot_icache s i j) _
  exact h

theorem freeEntry_icache (b j : Nat) : (freeEntry b s j).icache = s.icache := by
  unfold freeEntry
  dsimp only
  split <;> simp

@[simp] theorem freeEntries_icache (b : Nat) : (freeEntries s b).icache = s.icache := by
  have h : SameIcache s (freeEntries s b) := foldl_icache s (fun s j => freeEntry_icache s b j) _
  exact h

theorem freeTable_icache (b j : Nat) : (freeTable b s j).icache = s.icache := by
  unfold freeTable
  dsimp only
  split <;> simp

@[simp] theorem freeTables_icache (b : Nat) : (freeTables s b).icache = s.icache := by
  have h : SameIcache s (freeTables s b) := foldl_icache s (fun s j => freeTable_icache s b j) _
  exact h

@[simp] theorem ifree_icache (i : Nat) : (ifree s i).icache = s.icache := by
  have hi : (freeIndirect (freeDirect s i) i).icache = s.icache := by
    unfold freeIndirect
    dsimp only
    split <;> simp
  have hd : (freeDouble (freeIndirect (freeDirect s i) i) i).icache = s.icache := by
    unfold freeDouble
    dsimp only
    split <;> simp [hi]
  simpa [ifree] using hd

@[simp] theorem slotBlock_icache (i k : Nat) : (slotBlock s i k).2.icache = s.icache := by
  unfold slotBlock
  split
  · rfl
  · have h := balloc_icache s
    split <;> simp_all

@[simp] theorem entryBlock_icache (b j : Nat) : (entryBlock s b j).2.icache = s.icache := by
  unfold entryBlock
  split
  · rfl
  · have h := balloc_icache s
    split <;> simp_all

end

theorem bmap_icache {s s' : FileSys} {i lblkno b : Nat} (h : bmap s i lblkno = .ok (b, s')) :
    s'.icache = s.icache := by
  unfold bmap at h
  dsimp only at h
  by_cases hdirect : lblkno < NDIRECT
  · rw [if_pos hdirect] at h
    rw [← slotBlock_icache s i lblkno, Except.ok.inj h]
  rw [if_neg hdirect] at h
  by_cases hind : lblkno - NDIRECT < NINDIRECT
  · rw [if_pos hind] at h
    have hslot := slotBlock_icache s i NDIRECT
    obtain ⟨r, hr⟩ : ∃ r, slotBlock s i NDIRECT = r := ⟨_, rfl⟩
    rw [hr] at h hslot
    rcases r with ⟨_ | b1, s1⟩
    · cases h
      exact hslot
    · have hentry := entryBlock_icache s1 (b1 + 1) (lblkno - NDIRECT)
      rw [Except.ok.inj h] at hentry
      exact hentry.trans hslot
  rw [if_neg hind] at h
  by_cases hdbl : lblkno - NDIRECT - NINDIRECT < NDINDIRECT
  · rw [if_pos hdbl] at h
    have hslot := slotBlock_icache s i (NDIRECT + 1)
    split at h
    · next hs1 =>
      rw [hs1] at hslot
      cases h
      exact hslot
    · next b1 s1 _ hs1 =>
      rw [hs1] at hslot
      have hentry := entryBlock_icache s1 b1 ((lblkno - NDIRECT - NINDIRECT) / NINDIRECT)
      split at h
      · next hs2 =>
        rw [hs2] at hentry
        cases h
        exact hentry.trans hslot
      · next b2 s2 _ hs2 =>
        rw [hs2] at hentry
        split at h
        · cases h
        · have hlast := entryBlock_icache s2 b2 ((lblkno - NDIRECT - NINDIRECT) % NINDIRECT - 1)
          rw [Except.ok.inj h] at hlast
          exact hlast.trans (hentry.trans hslot)
  · rw [if_neg hdbl] at h
    cases h
    rfl

theorem writeLoop_icache {src : Nat → BitVec 8} {i offset nbytes fuel total : Nat}
    {s s' : FileSys} (h : writeLoop src i offset nbytes fuel total s = .ok s') :
    s'.icache = s.icache := by
  induction fuel generalizing total s with
  | zero =>
    cases h
    rfl
  | succ fuel ih =>
    unfold writeLoop at h
    split at h
    · dsimp only at h
      cases hb : bmap s i ((offset + total) / BLKSIZE) with
      | error e =>
        rw [hb] at h
        cases h
      | ok r =>
        rw [hb] at h
        have hstep := @bmap_icache _ r.2 _ _ r.1 hb
        exact (ih h).trans hstep
    · cases h
      rfl

theorem writei_icache {s s' : FileSys} {i : Nat} {src : Nat → BitVec 8} {offset nbytes : BitVec 32}
    {r : Int} (h : Inode.writei s i src offset nbytes = .ok (r, s')) : s'.icache = s.icache := by
  unfold Inode.writei at h
  dsimp only at h
  split at h
  · split at h <;> (cases h; rfl)
  split at h
  · cases h
    rfl
  split at h
  · cases h
  · next hloop =>
    have hl := writeLoop_icache hloop
    cases h
    rw [← hl]
    split <;> split <;> rfl

theorem readLoop_icache {i offset nbytes fuel total : Nat} {dst dst' : Block} {s s' : FileSys}
    (h : readLoop i offset nbytes fuel total dst s = .ok (dst', s')) : s'.icache = s.icache := by
  induction fuel generalizing total dst s with
  | zero =>
    cases h
    rfl
  | succ fuel ih =>
    unfold readLoop at h
    split at h
    · dsimp only at h
      cases hb : bmap s i ((offset + total) / BLKSIZE) with
      | error e =>
        rw [hb] at h
        cases h
      | ok r =>
        rw [hb] at h
        have hstep := @bmap_icache _ r.2 _ _ r.1 hb
        exact (ih h).trans hstep
    · cases h
      rfl

/-! ## §2 Counts and locks -/

/-- The reference counts are `n`, and the inodes in `L` are locked. -/
structure CacheInv (n : Nat → Nat) (L : Finset Nat) (s : Kern) : Prop where
  unlocked : s.fs.icache.locked = false
  ref : ∀ i, (s.node i).ref = n i
  freeNodup : s.fs.icache.freeList.Nodup
  freeRef : ∀ i ∈ s.fs.icache.freeList, n i = 0
  typed : ∀ i, (s.node i).valid = true → (s.node i).type ≠ 0
  slk : ∀ i, s.slk i = true ↔ i ∈ L
  held : ∀ i ∈ L, 0 < n i ∧ (s.node i).valid = true

/-- `k` more references fit into the counters. -/
def Small (k : Nat) (n : Nat → Nat) : Prop := ∀ i, n i + k < 2 ^ 32

theorem Small.mono {k k' : Nat} {n : Nat → Nat} (h : Small k n) (hk : k' ≤ k) : Small k' n := by
  intro i
  have := h i
  omega

theorem Small.addRef {k : Nat} {n : Nat → Nat} (h : Small (k + 1) n) (i : Nat) :
    Small k (addRef n i) := by
  intro j
  have := h j
  rw [addRef_apply]
  split <;> omega

/-- Any fault is accepted here. -/
abbrev AnyFault : Fault → Prop := fun _ => True

/-- Every fault is accepted but a sleep on a lock of the call's own. -/
abbrev NotSelfLock : Fault → Prop := fun e => e ≠ .selfLock

/-- At least the faults of `NotSelfLock` are accepted. -/
class Calm (E : Fault → Prop) : Prop where
  other : ∀ e, e ≠ .selfLock → E e

instance : Calm AnyFault := ⟨fun _ _ => trivial⟩
instance : Calm NotSelfLock := ⟨fun _ h => h⟩

section
variable {n : Nat → Nat} {L : Finset Nat} {i : Nat} {E : Fault → Prop} [Calm E]

/-- A change that leaves the inode cache and the locks alone. -/
theorem CacheInv.congr {s s' : Kern} (h : CacheInv n L s) (hc : s'.fs.icache = s.fs.icache)
    (hslk : s'.slk = s.slk) : CacheInv n L s' := by
  have hnode : ∀ i, s'.node i = s.node i := fun i => by rw [Kern.node, hc, Kern.node]
  refine ⟨?_, ?_, ?_, ?_, ?_, ?_, ?_⟩
  · rw [hc]
    exact h.unlocked
  · intro i
    rw [hnode]
    exact h.ref i
  · rw [hc]
    exact h.freeNodup
  · rw [hc]
    exact h.freeRef
  · intro i
    rw [hnode]
    exact h.typed i
  · intro i
    rw [hslk]
    exact h.slk i
  · intro i
    rw [hnode]
    exact h.held i

/-- **The structure `i` is written**; its count may change with it. -/
theorem CacheInv.write {s s' : Kern} {n' : Nat → Nat} {m : InodeCache.Inode}
    (h : CacheInv n L s) (hnode : ∀ j, s'.node j = if j = i then m else s.node j)
    (hslk : s'.slk = s.slk) (hlocked : s'.fs.icache.locked = false)
    (hfree : s'.fs.icache.freeList.Nodup) (hfreeRef : ∀ j ∈ s'.fs.icache.freeList, n' j = 0)
    (hother : ∀ j, j ≠ i → n' j = n j) (href : m.ref = n' i)
    (htype : m.valid = true → m.type ≠ 0) (hheld : i ∈ L → 0 < n' i ∧ m.valid = true) :
    CacheInv n' L s' := by
  refine ⟨hlocked, ?_, hfree, hfreeRef, ?_, ?_, ?_⟩
  · intro j
    rw [hnode]
    split
    · next hj => rw [href, hj]
    · next hj => rw [h.ref, hother j hj]
  · intro j
    rw [hnode]
    split
    · exact htype
    · exact h.typed j
  · intro j
    rw [hslk]
    exact h.slk j
  · intro j hj
    rw [hnode]
    split
    · next hji =>
      subst hji
      exact hheld hj
    · next hji =>
      rw [hother j hji]
      exact h.held j hj

/-- A field of the structure `i` is written that is not its count. -/
theorem CacheInv.setNode {s : Kern} (h : CacheInv n L s) {m : InodeCache.Inode}
    (href : m.ref = (s.node i).ref) (htype : m.valid = true → m.type ≠ 0)
    (hheld : i ∈ L → m.valid = true) : CacheInv n L { s with fs := setNode s.fs i m } := by
  refine h.write (i := i) (m := m) ?_ rfl h.unlocked h.freeNodup h.freeRef (fun _ _ => rfl) ?_ htype
    fun hi => ⟨(h.held i hi).1, hheld hi⟩
  · intro j
    simp [Kern.node, Dir.setNode, Function.update_apply]
  · rw [href, h.ref]

omit [Calm E] in
theorem modifyFs_refs {f : FileSys → FileSys} (hf : ∀ fs, (f fs).icache = fs.icache) :
    Triple (CacheInv n L) (modifyFs f) (fun _ => CacheInv n L) E :=
  Triple.update fun _ hs => hs.congr (hf _) rfl

theorem onFs_refs {α : Type} {f : FileSys → Except Inode.Fault (α × FileSys)}
    (hf : ∀ fs a fs', f fs = .ok (a, fs') → fs'.icache = fs.icache) :
    Triple (CacheInv n L) (onFs f) (fun _ => CacheInv n L) E := by
  intro s hs
  unfold onFs
  cases hr : f s.fs with
  | error e =>
    cases e
    exact Calm.other _ nofun
  | ok r => exact hs.congr (hf _ r.1 r.2 hr) rfl

/-! ## §3 Taking and giving up references -/

/-- A referenced inode gets one more reference. -/
theorem CacheInv.addRef {s s' : Kern} (h : CacheInv n L s) (hn : Small 1 n) (hi : 0 < n i)
    (hnode : ∀ j, s'.node j =
      if j = i then { s.node i with ref := ((s.node i).ref + 1) % 2 ^ 32 } else s.node j)
    (hslk : s'.slk = s.slk) (hlocked : s'.fs.icache.locked = false)
    (hfree : s'.fs.icache.freeList.Nodup)
    (hsub : ∀ j ∈ s'.fs.icache.freeList, j ∈ s.fs.icache.freeList) :
    CacheInv (addRef n i) L s' := by
  apply h.write hnode hslk hlocked hfree
  · intro j hj
    have hj0 := h.freeRef j (hsub j hj)
    rw [addRef_apply, if_neg, hj0]
    rintro rfl
    omega
  · intro j hj
    rw [addRef_apply, if_neg (Ne.symm hj), add_zero]
  · have := hn i
    simp only [addRef_self, h.ref]
    exact Nat.mod_eq_of_lt this
  · exact h.typed i
  · intro hi'
    rw [addRef_self]
    exact ⟨by omega, (h.held i hi').2⟩

omit [Calm E] in
/-- The inode cache is replaced by one that a function of the cache has returned. -/
theorem setIcache_triple {α : Type} {s : Kern} {c : InodeCache.Icache} {a : α}
    {Q : α → Kern → Prop} (h : Q a { s with fs := { s.fs with icache := c } }) :
    Triple (fun t => t = s)
      (do
        modifyFs fun fs => { fs with icache := c }
        pure a) Q E := by
  rintro t rfl
  exact h

/-- `iget` adds a reference to the inode it returns. -/
theorem iget_refs (hn : Small 1 n) (dev ino : Nat) :
    Triple (CacheInv n L) (iget dev ino) (fun i => CacheInv (addRef n i) L) E := by
  apply Triple.read
  intro s hs
  unfold InodeCache.iget
  rw [hs.unlocked, if_neg (by simp)]
  cases hfind : InodeCache.igetFinds s.fs.icache dev ino with
  | some i =>
    obtain ⟨_, hpos⟩ := InodeCache.igetFinds_some hfind
    apply setIcache_triple
    refine hs.addRef hn (hs.ref i ▸ hpos) ?_ rfl hs.unlocked (hs.freeNodup.erase i) fun j hj =>
      List.mem_of_mem_erase hj
    intro j
    simp [InodeCache.igetHit, Kern.node, Function.update_apply]
  | none =>
    cases hfree : s.fs.icache.freeList with
    | nil => exact Triple.fail (Calm.other _ nofun)
    | cons i rest =>
      have hnd := hs.freeNodup
      rw [hfree] at hnd
      obtain ⟨hnotin, hrest⟩ := List.nodup_cons.1 hnd
      have hzero : n i = 0 := hs.freeRef i (by simp [hfree])
      apply setIcache_triple
      refine hs.write (i := i)
        (m := { s.node i with ref := 1, dev := dev, ino := ino, valid := false })
        ?_ rfl hs.unlocked hrest ?_ ?_ ?_ ?_ ?_
      · intro j
        simp [InodeCache.igetMiss, InodeCache.putInodeInHash, Kern.node, Function.update_apply]
      · intro j hj
        have hj : j ∈ rest := hj
        rw [addRef_apply, if_neg, hs.freeRef j (by simp [hfree, hj])]
        rintro rfl
        exact hnotin hj
      · intro j hj
        rw [addRef_apply, if_neg (Ne.symm hj), add_zero]
      · simp [hzero]
      · simp
      · -- a locked inode has a reference, so it is not on the free list
        intro hi
        have := (hs.held i hi).1
        omega

omit [Calm E] in
/-- `iref` adds a reference to an inode that has one. -/
theorem iref_refs (hn : Small 1 n) (hi : 0 < n i) :
    Triple (CacheInv n L) (iref i) (fun j s => j = i ∧ CacheInv (addRef n i) L s) E := by
  apply Triple.read
  intro s hs
  unfold InodeCache.iref
  rw [hs.unlocked, if_neg (by simp)]
  apply setIcache_triple
  refine ⟨rfl, hs.addRef hn hi ?_ rfl rfl hs.freeNodup fun j hj => hj⟩
  intro j
  simp [Kern.node, Function.update_apply]

/-! ## §4 Locks -/

omit [Calm E] in
/-- `sleep_lock` takes a lock that is free. -/
theorem sleepLock_spec (s : Kern) (hE : s.slk i = true → E .selfLock) :
    Triple (fun t => t = s) (sleepLock i)
      (fun _ t => s.slk i = false ∧ t = { s with slk := Function.update s.slk i true })
      E := by
  apply Triple.read
  rintro _ rfl
  split
  · next hheld => exact Triple.fail (hE hheld)
  · next hfree =>
    apply Triple.update
    rintro t rfl
    exact ⟨by simpa using hfree, rfl⟩

/-- A lock on `i` that was just taken is added to the locks, once the inode is valid. -/
theorem CacheInv.lock {s t : Kern} (h : CacheInv n L s) (hfree : s.slk i = false) (hi : 0 < n i)
    (ht : t.slk = Function.update s.slk i true) (hunlocked : t.fs.icache.locked = false)
    (hfreeList : t.fs.icache.freeList = s.fs.icache.freeList) {m : InodeCache.Inode}
    (hnode : ∀ j, t.node j = if j = i then m else s.node j) (href : m.ref = n i)
    (hvalid : m.valid = true) (htype : m.type ≠ 0) :
    i ∉ L ∧ CacheInv n (insert i L) t := by
  have hiL : i ∉ L := by
    intro hi
    rw [(h.slk i).2 hi] at hfree
    cases hfree
  refine ⟨hiL, hunlocked, ?_, by rw [hfreeList]; exact h.freeNodup, ?_, ?_, ?_, ?_⟩
  · intro j
    rw [hnode]
    split
    · next hj => rw [href, hj]
    · exact h.ref j
  · rw [hfreeList]
    exact h.freeRef
  · intro j
    rw [hnode]
    split
    · exact fun _ => htype
    · exact h.typed j
  · intro j
    rw [ht, Finset.mem_insert]
    by_cases hj : j = i
    · subst hj
      simp
    · simpa [hj] using h.slk j
  · intro j hj
    rw [hnode]
    by_cases hji : j = i
    · subst hji
      rw [if_pos rfl]
      exact ⟨hi, hvalid⟩
    · rw [if_neg hji]
      exact h.held j ((Finset.mem_insert.1 hj).resolve_left hji)

/-- `ilock` locks a referenced inode; afterwards it is valid. -/
theorem ilock_refs (hi : 0 < n i) (hE : i ∈ L → E .selfLock) :
    Triple (CacheInv n L) (ilock i) (fun _ s => i ∉ L ∧ CacheInv n (insert i L) s) E := by
  apply Triple.read
  intro s hs
  have href : ¬ (s.node i).ref < 1 := by
    rw [hs.ref]
    omega
  rw [if_neg href]
  apply (sleepLock_spec s fun hheld => hE ((hs.slk i).1 hheld)).seq
  intro _
  apply Triple.assume (fun t ht => ht.1)
  intro hfree
  apply Triple.read
  rintro t ⟨_, rfl⟩
  by_cases hvalid : (s.node i).valid = true
  · have hv : (Kern.node { s with slk := Function.update s.slk i true } i).valid = true := hvalid
    rw [if_pos hv]
    apply Triple.ret
    rintro t rfl
    refine hs.lock hfree hi (m := s.node i) rfl hs.unlocked rfl ?_ (hs.ref i) hvalid
      (hs.typed i hvalid)
    intro j
    split
    · next hj =>
      rw [hj]
      rfl
    · rfl
  · have hv : ¬ (Kern.node { s with slk := Function.update s.slk i true } i).valid = true := hvalid
    rw [if_neg hv]
    refine Triple.seq (Triple.update (Q := fun _ t => t =
      { s with slk := Function.update s.slk i true, fs := loadInode s.fs i }) ?_) fun _ => ?_
    · rintro t rfl
      rfl
    apply Triple.read
    rintro t rfl
    split
    · exact Triple.fail (Calm.other _ nofun)
    · next htype =>
      refine Triple.seq (Triple.update (Q := fun _ t => i ∉ L ∧ CacheInv n (insert i L) t) ?_)
        fun _ => Triple.ret fun t ht => ht
      rintro t rfl
      refine hs.lock hfree hi (m := { (loadInode s.fs i).icache.inode i with valid := true })
        rfl hs.unlocked rfl ?_ ?_ rfl htype
      · intro j
        by_cases hj : j = i
        · subst hj
          simp [Kern.node, Dir.setNode]
        · simp [Kern.node, Dir.setNode, loadInode, Inode.setBody, hj]
      · rw [← hs.ref i]
        simp [Kern.node, Dir.setNode, loadInode, Inode.setBody]

omit [Calm E] in
/-- `iunlock` gives up a lock that is held. -/
theorem iunlock_refs (hi : i ∈ L) :
    Triple (CacheInv n L) (iunlock i)
      (fun r s => (r = 0 ∧ (s.node i).valid = true) ∧ CacheInv n (L.erase i) s) E := by
  apply Triple.read
  intro s hs
  obtain ⟨hpos, hvalid⟩ := hs.held i hi
  have hcond : ¬ (!s.slk i || decide ((s.node i).ref < 1)) = true := by
    rw [(hs.slk i).2 hi, hs.ref]
    simp
    omega
  rw [if_neg hcond]
  refine Triple.seq (Triple.update
    (Q := fun _ t => (t.node i).valid = true ∧ CacheInv n (L.erase i) t) ?_) fun _ =>
    Triple.ret fun t ht => ⟨⟨rfl, ht.1⟩, ht.2⟩
  rintro t rfl
  refine ⟨hvalid, hs.unlocked, hs.ref, hs.freeNodup, hs.freeRef, hs.typed, ?_, ?_⟩
  · intro j
    rw [Finset.mem_erase]
    by_cases hj : j = i
    · subst hj
      simp
    · simpa [hj] using hs.slk j
  · exact fun j hj => hs.held j (Finset.mem_of_mem_erase hj)

/-! ## §5 `iput` -/

/-- `iput` in full: the lock is free before and after, and the cache does its part on what is left
    after the inode was freed. -/
theorem iput_spec (s : Kern) (hE : s.slk i = true → E .selfLock) :
    Triple (fun t => t = s) (iput i)
      (fun _ t => s.slk i = false ∧
        ∃ c, InodeCache.iput (iputFree s.fs i).icache i = .ok c ∧
          t = { s with fs := { iputFree s.fs i with icache := c } }) E := by
  apply (sleepLock_spec s hE).seq
  intro _
  apply Triple.assume (fun t ht => ht.1)
  intro hfree
  refine Triple.seq (Triple.update (Q := fun _ t => t =
    { s with slk := Function.update s.slk i true, fs := iputFree s.fs i }) ?_) fun _ => ?_
  · rintro t ⟨_, rfl⟩
    rfl
  apply Triple.read
  rintro t rfl
  dsimp only
  cases hc : InodeCache.iput (iputFree s.fs i).icache i with
  | error e => exact Triple.fail (Calm.other _ nofun)
  | ok c =>
    refine Triple.seq (Triple.update (Q := fun _ t => t = { s with
      slk := Function.update s.slk i true, fs := { iputFree s.fs i with icache := c } }) ?_)
      fun _ => Triple.update ?_
    · rintro t rfl
      rfl
    · rintro t rfl
      refine ⟨hfree, c, rfl, ?_⟩
      rw [Function.update_idem, ← hfree, Function.update_eq_self]

/-- Freeing the inode on disk changes only the type in the cache. -/
theorem iputFree_icache (fs : FileSys) (i : Nat) :
    (iputFree fs i).icache = fs.icache ∨
      (fs.icache.inode i).valid = true ∧ (fs.icache.inode i).nlink = 0 ∧
        (fs.icache.inode i).ref = 1 ∧
        (iputFree fs i).icache = { fs.icache with
          inode := Function.update fs.icache.inode i { fs.icache.inode i with type := 0 } } := by
  unfold iputFree
  dsimp only
  split
  · next hc =>
    simp only [Bool.and_eq_true, beq_iff_eq] at hc
    refine Or.inr ⟨hc.1.1, hc.1.2, hc.2, ?_⟩
    rw [iupdate_icache]
    simp [Dir.setNode]
  · exact Or.inl rfl

/-- What `iput` does to the cache. -/
theorem icacheIput_ok {c c' : InodeCache.Icache} (h : InodeCache.iput c i = .ok c') :
    c'.locked = false ∧
      c'.inode = Function.update c.inode i { InodeCache.iputFree (c.inode i) with
        ref := ((c.inode i).ref + (2 ^ 32 - 1)) % 2 ^ 32 } ∧
      c'.freeList = if ((c.inode i).ref + (2 ^ 32 - 1)) % 2 ^ 32 = 0 then c.freeList ++ [i]
        else c.freeList := by
  have href : (InodeCache.iputFree (c.inode i)).ref = (c.inode i).ref := by
    unfold InodeCache.iputFree
    split <;> rfl
  unfold InodeCache.iput at h
  split at h
  · cases h
  · next hlock =>
    dsimp only at h
    rw [href] at h
    generalize ((c.inode i).ref + (2 ^ 32 - 1)) % 2 ^ 32 = k at h ⊢
    obtain rfl := Except.ok.inj h
    exact ⟨by simpa using hlock, rfl, rfl⟩

/-- `iput` gives up one reference. -/
theorem iput_refs (hn : Small 1 n) (hE : i ∈ L → E .selfLock) :
    Triple (CacheInv (addRef n i) L) (iput i) (fun _ => CacheInv n L) E := by
  intro s hs
  have hspec := iput_spec (i := i) s (fun hheld => hE ((hs.slk i).1 hheld)) s rfl
  cases hr : iput i s with
  | error e => rwa [hr] at hspec
  | ok r =>
    rw [hr] at hspec
    obtain ⟨hfree, c, hc, ht⟩ := hspec
    show CacheInv n L r.2
    rw [ht]
    have hiL : i ∉ L := by
      intro hi
      rw [(hs.slk i).2 hi] at hfree
      cases hfree
    have href : (s.fs.icache.inode i).ref = n i + 1 := by
      have := hs.ref i
      rwa [addRef_self] at this
    have hlt := hn i
    have hother : ∀ j, j ≠ i → n j = addRef n i j := by
      intro j hj
      rw [addRef_apply, if_neg (Ne.symm hj), add_zero]
    have hnotfree : i ∉ s.fs.icache.freeList := by
      intro hi
      have := hs.freeRef i hi
      rw [addRef_self] at this
      omega
    -- the structure that is left, whether or not the inode was freed
    obtain ⟨m, hm, hmref, hmvalid, hclock, hcfree⟩ : ∃ m : InodeCache.Inode,
        c.inode = Function.update s.fs.icache.inode i m ∧ m.ref = n i ∧
          (m.valid = true → m.type ≠ 0) ∧ c.locked = false ∧
          c.freeList = if n i = 0 then s.fs.icache.freeList ++ [i] else s.fs.icache.freeList := by
      have hsub : (n i + 1 + (2 ^ 32 - 1)) % 2 ^ 32 = n i := by omega
      obtain ⟨hclock, hcinode, hcfree⟩ := icacheIput_ok hc
      obtain heq | ⟨hv, hl, hr1, heq⟩ := iputFree_icache s.fs i
      · rw [heq, href, hsub] at hcinode hcfree
        refine ⟨_, hcinode, rfl, ?_, hclock, hcfree⟩
        unfold InodeCache.iputFree
        split
        · simp
        · exact hs.typed i
      · simp only [heq, Function.update_self, Function.update_idem, href, hsub] at hcinode hcfree
        refine ⟨_, hcinode, rfl, ?_, hclock, hcfree⟩
        have h0 : n i = 0 := by omega
        simp [InodeCache.iputFree, hv, hl, h0]
    refine hs.write (i := i) (m := m) ?_ rfl hclock ?_ ?_ hother hmref hmvalid fun hi =>
      absurd hi hiL
    · intro j
      simp [Kern.node, hm, Function.update_apply]
    · show c.freeList.Nodup
      rw [hcfree]
      split
      · exact List.nodup_append.2 ⟨hs.freeNodup, List.nodup_singleton i, by
          intro a ha b hb
          rintro rfl
          rw [List.mem_singleton.1 hb] at ha
          exact hnotfree ha⟩
      · exact hs.freeNodup
    · show ∀ j ∈ c.freeList, n j = 0
      intro j hj
      have hold : j ∈ s.fs.icache.freeList → n j = 0 := by
        intro hj
        have hne : j ≠ i := by
          rintro rfl
          exact hnotfree hj
        rw [hother j hne]
        exact hs.freeRef j hj
      rw [hcfree] at hj
      split at hj
      · next h0 =>
        obtain hj | hj := List.mem_append.1 hj
        · exact hold hj
        · rw [List.mem_singleton.1 hj]
          exact h0
      · exact hold hj

/-- `iunlockput` gives up the lock and the reference. -/
theorem iunlockput_refs (hn : Small 1 n) (hi : i ∈ L) :
    Triple (CacheInv (addRef n i) L) (iunlockput i) (fun _ => CacheInv n (L.erase i))
      E := by
  apply (iunlock_refs hi).seq
  intro r
  apply Triple.assume (fun s hs => hs.1.1)
  rintro rfl
  rw [if_pos rfl]
  exact (iput_refs hn fun hmem => absurd hmem (Finset.notMem_erase i L)).pre fun s hs => hs.2

/-! ## §6 Reading and writing -/

/-- A device driver that gives up the lock takes it again. -/
theorem relock_refs {α : Type} {m : FsM α} (hi : i ∈ L)
    (hm : Triple (CacheInv n (L.erase i)) m (fun _ => CacheInv n (L.erase i)) E)
    (hpos : 0 < n i) :
    Triple (CacheInv n (L.erase i))
      (do
        let a ← m
        let _ ← ilock i
        pure a)
      (fun _ => CacheInv n L) E := by
  apply hm.seq
  intro a
  apply (ilock_refs hpos fun hmem => absurd hmem (Finset.notMem_erase i L)).seq
  intro _
  apply Triple.ret
  intro s hs
  have := hs.2
  rwa [Finset.insert_erase hi] at this

theorem readi_refs (hi : i ∈ L) (dst : Block) (offset nbytes : Nat) :
    Triple (CacheInv n L) (readi i dst offset nbytes) (fun _ => CacheInv n L) E := by
  apply Triple.peek
  intro s hs
  obtain ⟨hpos, _⟩ := hs.held i hi
  split
  · split
    · exact Triple.ret fun t ht => ht
    · unfold devRead
      apply ((iunlock_refs hi).post fun _ _ h => h.2).seq
      intro _
      apply Triple.peek
      intro t ht
      cases t.devIn with
      | nil => exact Triple.fail (Calm.other _ nofun)
      | cons answer rest =>
        refine Triple.seq (Triple.update (Q := fun _ => CacheInv n (L.erase i)) ?_) fun _ => ?_
        · exact fun u hu => hu.congr rfl rfl
        apply (ilock_refs hpos fun hmem => absurd hmem (Finset.notMem_erase i L)).seq
        intro _
        have hdone : ∀ u : Kern, i ∉ L.erase i ∧ CacheInv n (insert i (L.erase i)) u →
            CacheInv n L u := by
          intro u hu
          have := hu.2
          rwa [Finset.insert_erase hi] at this
        cases answer with
        | none => exact Triple.ret hdone
        | some bs => exact Triple.ret hdone
  · split
    · exact Triple.ret fun t ht => ht
    · refine Triple.seq (onFs_refs (fun fs a fs' h => readLoop_icache h)) fun _ => ?_
      exact Triple.ret fun t ht => ht

theorem writei_refs (hi : i ∈ L) (src : Block) (offset nbytes : Nat) :
    Triple (CacheInv n L) (writei i src offset nbytes) (fun _ => CacheInv n L) E := by
  have hwrite : ∀ M : Finset Nat, Triple (CacheInv n M)
      (onFs fun fs => Inode.writei fs i src (BitVec.ofNat 32 offset) (BitVec.ofNat 32 nbytes))
      (fun _ => CacheInv n M) E :=
    fun M => onFs_refs fun fs a fs' h => writei_icache h
  apply Triple.peek
  intro s hs
  obtain ⟨hpos, _⟩ := hs.held i hi
  split
  · apply ((iunlock_refs hi).post fun _ _ h => h.2).seq
    intro _
    exact relock_refs hi (hwrite _) hpos
  · exact hwrite L

omit [Calm E] in
theorem iupdate_refs : Triple (CacheInv n L) (iupdate i) (fun _ => CacheInv n L) E :=
  modifyFs_refs fun fs => iupdate_icache fs i

omit [Calm E] in
theorem addLink_refs (d : Nat) :
    Triple (CacheInv n L) (addLink i d) (fun _ => CacheInv n L) E := by
  apply Triple.update
  intro s hs
  exact hs.setNode rfl (hs.typed i) fun hi => (hs.held i hi).2

/-! ## §7 Directories -/

/-- `dirlookup` adds a reference to the inode it finds. -/
def Found (n : Nat → Nat) (L : Finset Nat) (r : Int × Option (Nat × Nat)) (s : Kern) : Prop :=
  match r.2 with
  | none => CacheInv n L s
  | some (i, _) => r.1 = 0 ∧ CacheInv (addRef n i) L s

theorem dirlookupFrom_refs (hn : Small 1 n) {diri : Nat} (hi : diri ∈ L) (name : Name)
    (fuel off : Nat) :
    Triple (CacheInv n L) (dirlookupFrom diri name fuel off) (Found n L) E := by
  induction fuel generalizing off with
  | zero => exact Triple.fail (Calm.other _ nofun)
  | succ fuel ih =>
    apply Triple.peek
    intro s hs
    split
    · apply (readi_refs hi _ _ _).seq
      rintro ⟨r, d⟩
      dsimp only
      split
      · exact Triple.ret fun t ht => ht
      split
      · exact ih _
      split
      · apply (iget_refs hn _ _).seq
        intro ip
        exact Triple.ret fun t ht => ⟨rfl, ht⟩
      · exact ih _
    · exact Triple.ret fun t ht => ht

theorem dirlookup_refs (hn : Small 1 n) {diri : Nat} (hi : diri ∈ L) (name : Name) :
    Triple (CacheInv n L) (dirlookup diri name) (Found n L) E := by
  apply Triple.peek
  intro s hs
  split
  · exact Triple.ret fun t ht => ht
  · exact dirlookupFrom_refs hn hi name _ _

theorem freeDirent_refs {di : Nat} (hi : di ∈ L) (fuel off : Nat) (d : Block) :
    Triple (CacheInv n L) (freeDirent di fuel off d) (fun _ => CacheInv n L) E := by
  induction fuel generalizing off d with
  | zero => exact Triple.fail (Calm.other _ nofun)
  | succ fuel ih =>
    apply Triple.peek
    intro s hs
    split
    · apply (readi_refs hi _ _ _).seq
      rintro ⟨r, d⟩
      dsimp only
      split
      · exact Triple.fail (Calm.other _ nofun)
      split
      · exact Triple.ret fun t ht => ht
      · exact ih _ _
    · exact Triple.ret fun t ht => ht

/-- The part of `dirlink` that writes the entry. -/
theorem writeDirent_refs {di : Nat} (hi : di ∈ L) (name : Name) (ino : Nat) :
    Triple (CacheInv n L)
      (do
        let s ← get
        let (off, d) ← freeDirent di ((s.body di).fileSiz / DIRENT + 2) 0 s.junk
        if DIRSIZ < name.length + 2 then throw .overflow
        else
          let r ← writei di (setDirent d ino name) off DIRENT
          if r ≠ DIRENT then throw .panic else pure (0 : Int))
      (fun _ => CacheInv n L) E := by
  apply Triple.peek
  intro s hs
  apply (freeDirent_refs hi _ _ _).seq
  rintro ⟨off, d⟩
  dsimp only
  split
  · exact Triple.fail (Calm.other _ nofun)
  apply (writei_refs hi _ _ _).seq
  intro r
  split
  · exact Triple.fail (Calm.other _ nofun)
  · exact Triple.ret fun t ht => ht

/-- `dirlink` keeps all counts: if the name is already there, the inode that was found is put back. -/
theorem dirlink_refs (hn : Small 1 n) {di : Nat} (hi : di ∈ L) (name : Name) (ino : Nat)
    (hE : E .selfLock) :
    Triple (CacheInv n L) (dirlink di name ino) (fun _ => CacheInv n L) E := by
  apply (dirlookup_refs hn hi name).seq
  rintro ⟨r, e⟩
  dsimp only
  split
  · cases e with
    | none => exact Triple.fail (Calm.other _ nofun)
    | some x =>
      apply ((iput_refs hn fun _ => hE).pre fun s hs => hs.2).seq
      intro _
      exact Triple.ret fun t ht => ht
  · next hr =>
    -- nothing was found, so no reference was taken
    apply Triple.pre (P := CacheInv n L)
    · exact writeDirent_refs hi name ino
    · intro s hs
      cases e with
      | none => exact hs
      | some x => exact absurd hs.1 hr

theorem isDirEmptyFrom_refs (hi : i ∈ L) (fuel off : Nat) (d : Block) :
    Triple (CacheInv n L) (isDirEmptyFrom i fuel off d) (fun _ => CacheInv n L) E := by
  induction fuel generalizing off d with
  | zero => exact Triple.fail (Calm.other _ nofun)
  | succ fuel ih =>
    apply Triple.peek
    intro s hs
    split
    · apply (readi_refs hi _ _ _).seq
      rintro ⟨r, d⟩
      dsimp only
      split
      · exact Triple.fail (Calm.other _ nofun)
      split
      · exact ih _ _
      split
      · exact Triple.ret fun t ht => ht
      · exact ih _ _
    · exact Triple.ret fun t ht => ht

theorem isDirEmpty_refs (hi : i ∈ L) :
    Triple (CacheInv n L) (isDirEmpty i) (fun _ => CacheInv n L) E :=
  Triple.peek fun _ _ => isDirEmptyFrom_refs hi _ _ _

/-! ## §8 Paths -/

/-- A function that may return an inode adds one reference to it, and none when it returns none. -/
def Got (n : Nat → Nat) (L : Finset Nat) (r : Option Nat) (s : Kern) : Prop :=
  match r with
  | none => CacheInv n L s
  | some i => CacheInv (addRef n i) L s

theorem namexFrom_refs (hn : Small 2 n) (parent : Bool) (fuel : Nat) (start : Name) {curi : Nat} :
    Triple (CacheInv (addRef n curi) ∅) (namexFrom parent fuel start curi)
      (fun r => Got n ∅ r.1) E := by
  induction fuel generalizing start curi with
  | zero => exact Triple.fail (Calm.other _ (by simp))
  | succ fuel ih =>
    have hn1 : Small 1 n := hn.mono (by omega)
    have hpos : 0 < addRef n curi curi := by simp
    have hmem : curi ∈ insert curi (∅ : Finset Nat) := by simp
    have herase : (insert curi (∅ : Finset Nat)).erase curi = ∅ := by simp
    apply ((ilock_refs hpos (by simp)).post fun _ _ h => h.2).seq
    intro _
    dsimp only
    split
    · exact Triple.fail (Calm.other _ (by simp))
    split
    · apply ((iunlock_refs hmem).post fun _ _ h => h.2).seq
      intro _
      apply Triple.ret
      intro s hs
      rwa [herase] at hs
    apply (dirlookup_refs (hn.addRef curi) hmem _).seq
    rintro ⟨r, e⟩
    dsimp only
    split
    · next hr =>
      have hput := iunlockput_refs (E := E) (n := n) hn1 hmem
      rw [herase] at hput
      refine Triple.seq (hput.pre ?_) fun _ => Triple.ret fun s hs => hs
      intro s hs
      cases e with
      | none => exact hs
      | some x =>
        have := hs.1
        simp only at this
        omega
    · cases e with
      | none => exact Triple.fail (Calm.other _ (by simp))
      | some x =>
        obtain ⟨next, off⟩ := x
        -- the reference to the directory is exchanged for one to the entry
        have hput := iunlockput_refs (E := E) (n := addRef n next) (i := curi) (hn.addRef next) hmem
        rw [herase, addRef_comm] at hput
        apply (hput.pre fun s hs => hs.2).seq
        intro _
        split
        · exact Triple.ret fun s hs => hs
        · exact ih _

/-- **Path resolution** adds one reference to the inode it returns, also when it fails half-way. -/
theorem namex_refs (hn : Small 2 n) {pwd : Nat} (hpwd : 0 < n pwd) (path : Name) (parent : Bool) :
    Triple (CacheInv n ∅) (namex pwd path parent) (fun r => Got n ∅ r.1) E := by
  have hn1 : Small 1 n := hn.mono (by omega)
  unfold namex
  split
  · apply (iget_refs hn1 _ _).seq
    intro curi
    split
    · apply Triple.peek
      intro s hs
      exact Triple.ret fun t ht => ht
    · exact namexFrom_refs hn parent _ _
  · apply (iref_refs hn1 hpwd).seq
    intro curi
    apply Triple.assume (fun s hs => hs.1)
    rintro rfl
    exact (namexFrom_refs hn parent _ _).pre fun s hs => hs.2

theorem namei_refs (hn : Small 2 n) {pwd : Nat} (hpwd : 0 < n pwd) (path : Name) :
    Triple (CacheInv n ∅) (namei pwd path) (fun r => Got n ∅ r) E :=
  (namex_refs hn hpwd path false).map

/-! ## §9 Links -/

variable {pwd : Nat}

/-- `ilock` at the begin of a call, when no inode is locked. -/
theorem ilock_empty (hi : 0 < n i) :
    Triple (CacheInv n ∅) (ilock i) (fun _ => CacheInv n {i}) E :=
  (ilock_refs hi nofun).post fun _ _ h => h.2

/-- `iunlockput` of the only locked inode. -/
theorem iunlockput_singleton (hn : Small 1 n) :
    Triple (CacheInv (addRef n i) {i}) (iunlockput i) (fun _ => CacheInv n ∅) E := by
  have h := iunlockput_refs (E := E) (n := n) (L := {i}) hn (Finset.mem_singleton_self i)
  rwa [Finset.erase_singleton] at h

omit [Calm E] in
/-- `iunlock` of the only locked inode; it stays valid. -/
theorem iunlock_singleton :
    Triple (CacheInv n {i}) (iunlock i)
      (fun _ s => (s.node i).valid = true ∧ CacheInv n ∅ s) E := by
  apply (iunlock_refs (Finset.mem_singleton_self i)).post
  intro _ s hs
  have := hs.2
  rw [Finset.erase_singleton] at this
  exact ⟨hs.1.2, this⟩

theorem linkErr_refs (hn : Small 1 n) :
    Triple (CacheInv (addRef n i) ∅) (linkErr i) (fun _ => CacheInv n ∅) E := by
  apply (ilock_empty (by simp)).seq
  intro _
  apply (addLink_refs _).seq
  intro _
  apply iupdate_refs.seq
  intro _
  apply (iunlockput_singleton hn).seq
  intro _
  exact Triple.ret fun s hs => hs

/-- `link` gives back both inodes that it has found. -/
theorem link_refs (hn : Small 3 n) (hpwd : 0 < n pwd) (oldpname newpname : Name) :
    Triple (CacheInv n ∅) (link pwd oldpname newpname) (fun _ => CacheInv n ∅) AnyFault := by
  have hn1 : Small 1 n := hn.mono (by omega)
  apply (namei_refs (hn.mono (by omega)) hpwd oldpname).seq
  intro r
  cases r with
  | none => exact Triple.ret fun s hs => hs
  | some i =>
    apply (ilock_empty (n := addRef n i) (by simp)).seq
    intro _
    apply Triple.peek
    intro s hs
    split
    · apply (iunlockput_singleton hn1).seq
      intro _
      exact Triple.ret fun s hs => hs
    apply (addLink_refs _).seq
    intro _
    apply iupdate_refs.seq
    intro _
    apply (iunlock_singleton.post fun _ _ h => h.2).seq
    intro _
    have hpwd' : 0 < addRef n i pwd := by
      rw [addRef_apply]
      omega
    apply (namex_refs (hn.addRef i) hpwd' newpname true).seq
    rintro ⟨r, name⟩
    dsimp only
    cases r with
    | none => exact linkErr_refs hn1
    | some di =>
      have hn2 : Small 1 (addRef n i) := (hn.addRef i).mono (by omega)
      apply (ilock_empty (n := addRef (addRef n i) di) (by simp)).seq
      intro _
      have hlink : Triple (CacheInv (addRef (addRef n i) di) {di}) (linkInto di name i)
          (fun _ => CacheInv (addRef (addRef n i) di) {di}) AnyFault := by
        apply Triple.peek
        intro s hs
        split
        · exact Triple.ret fun s hs => hs
        · exact dirlink_refs ((hn.addRef i).addRef di) (Finset.mem_singleton_self di) _ _ trivial
      apply hlink.seq
      intro r
      split
      · apply (iunlockput_singleton hn2).seq
        intro _
        exact linkErr_refs hn1
      · apply iupdate_refs.seq
        intro _
        have hput := iput_refs (E := AnyFault) (n := addRef n di) (i := i) (L := {di})
          ((hn.addRef di).mono (by omega)) fun _ => trivial
        rw [addRef_comm] at hput
        apply hput.seq
        intro _
        apply (iunlockput_singleton hn1).seq
        intro _
        exact Triple.ret fun s hs => hs

/-- The part of `unlink` after both inodes are locked. -/
theorem unlinkFound_refs (hn : Small 2 n) {di : Nat} (hne : i ∉ ({di} : Finset Nat))
    {α : Type} (a : α) :
    Triple (CacheInv (addRef (addRef n di) i) (insert i {di}))
      (do
        iunlockput i
        iunlockput di
        pure a)
      (fun _ => CacheInv n ∅) E := by
  have hput := iunlockput_refs (E := E) (n := addRef n di) (i := i) (L := insert i {di}) (hn.addRef di)
    (Finset.mem_insert_self i _)
  rw [Finset.erase_insert hne] at hput
  apply hput.seq
  intro _
  apply (iunlockput_singleton (hn.mono (by omega))).seq
  intro _
  exact Triple.ret fun s hs => hs

/-- The part of `unlink` after both inodes are locked, to its end. -/
theorem unlinkEntry_refs (hn : Small 3 n) {di : Nat} (hne : i ∉ ({di} : Finset Nat)) (offset : Nat) :
    Triple (CacheInv (addRef (addRef n di) i) (insert i {di}))
      (do
        if !(← unlinkDir di i) then
          iunlockput i
          iunlockput di
          pure (-1)
        else
          let r ← writei di (fun _ => 0) offset DIRENT
          if r ≠ DIRENT then throw .panic
          else
            iupdate di
            iunlockput di
            nlinkDec i
            iupdate i
            iunlockput i
            pure (0 : Int))
      (fun _ => CacheInv n ∅) E := by
  have hi : i ∈ (insert i {di} : Finset Nat) := Finset.mem_insert_self i _
  have hdi : di ∈ (insert i {di} : Finset Nat) := by simp
  have hn1 : Small 1 n := hn.mono (by omega)
  have hdir : Triple (CacheInv (addRef (addRef n di) i) (insert i {di})) (unlinkDir di i)
      (fun _ => CacheInv (addRef (addRef n di) i) (insert i {di})) E := by
    apply Triple.peek
    intro s hs
    split
    · apply (isDirEmpty_refs hi).seq
      intro empty
      split
      · exact Triple.ret fun s hs => hs
      · apply (addLink_refs _).seq
        intro _
        exact Triple.ret fun s hs => hs
    · exact Triple.ret fun s hs => hs
  apply hdir.seq
  intro empty
  split
  · exact unlinkFound_refs (hn.mono (by omega)) hne _
  · -- the entry is cleared, then both inodes are given back, the directory first
    apply (writei_refs hdi _ _ _).seq
    intro r
    split
    · exact Triple.fail (Calm.other _ (by simp))
    apply iupdate_refs.seq
    intro _
    have hput := iunlockput_refs (E := E) (n := addRef n i) (i := di) (L := insert i {di})
      ((hn.addRef i).mono (by omega)) hdi
    have herase : (insert i {di} : Finset Nat).erase di = {i} := by
      rw [Finset.erase_insert_of_ne, Finset.erase_singleton, insert_empty_eq]
      rintro rfl
      exact hne (Finset.mem_singleton_self _)
    rw [herase, addRef_comm] at hput
    apply hput.seq
    intro _
    apply (addLink_refs _).seq
    intro _
    apply iupdate_refs.seq
    intro _
    apply (iunlockput_singleton hn1).seq
    intro _
    exact Triple.ret fun s hs => hs

/-- `unlink` gives back the directory and the inode that it has found there. -/
theorem unlink_refs (hn : Small 3 n) (hpwd : 0 < n pwd) (pathname : Name) :
    Triple (CacheInv n ∅) (unlink pwd pathname) (fun _ => CacheInv n ∅) AnyFault := by
  have hn1 : Small 1 n := hn.mono (by omega)
  apply (namex_refs (hn.mono (by omega)) hpwd pathname true).seq
  rintro ⟨r, name⟩
  dsimp only
  cases r with
  | none => exact Triple.ret fun s hs => hs
  | some di =>
    apply (ilock_empty (n := addRef n di) (by simp)).seq
    intro _
    have hdi : di ∈ ({di} : Finset Nat) := Finset.mem_singleton_self di
    apply (dirlookup_refs ((hn.addRef di).mono (by omega)) hdi name).seq
    rintro ⟨r, e⟩
    dsimp only
    split
    · next hr =>
      refine Triple.seq ((iunlockput_singleton hn1).pre ?_) fun _ => Triple.ret fun s hs => hs
      intro s hs
      cases e with
      | none => exact hs
      | some x =>
        have := hs.1
        simp only at this
        omega
    cases e with
    | none => exact Triple.fail trivial
    | some x =>
      obtain ⟨i, offset⟩ := x
      apply ((ilock_refs (n := addRef (addRef n di) i) (by simp) fun _ => trivial).pre
        fun s hs => hs.2).seq
      intro _
      apply Triple.assume (fun s hs => hs.1)
      intro hne
      apply Triple.pre (P := CacheInv (addRef (addRef n di) i) (insert i {di})) _ fun s hs => hs.2
      exact unlinkEntry_refs hn hne offset

/-- Where `creat` is before the new inode is linked. -/
def Creating (n : Nat → Nat) (r : Created) (s : Kern) : Prop :=
  match r with
  | .done none => CacheInv n ∅ s
  | .done (some i) => CacheInv (addRef n i) {i} s
  | .fresh di _ i => i ≠ di ∧ CacheInv (addRef (addRef n di) i) (insert i {di}) s

theorem ialloc_refs (hn : Small 1 n) (dev type : Nat) :
    Triple (CacheInv n L) (ialloc dev type) (Got n L) E := by
  apply Triple.peek
  intro s hs
  dsimp only
  split
  · exact Triple.ret fun t ht => ht
  · refine Triple.seq (modifyFs_refs fun fs => clearDInode_icache fs _ _) fun _ => ?_
    exact ((iget_refs hn _ _).post fun i t ht => ht).map

/-- The part of `creat` for a name that is already there. -/
theorem creatFound_refs (hn : Small 2 n) {di : Nat} (type : Nat) :
    Triple (CacheInv (addRef (addRef n di) i) {di})
      (do
        iunlockput di
        let _ ← ilock i
        let s ← get
        if (s.node i).type = type ∧ (s.node i).type = T_FILE then pure (.done (some i))
        else
          iunlockput i
          pure (.done none))
      (Creating n) E := by
  have hput := iunlockput_singleton (E := E) (n := addRef n i) (i := di) (hn.addRef i)
  rw [addRef_comm] at hput
  apply hput.seq
  intro _
  apply (ilock_empty (n := addRef n i) (by simp)).seq
  intro _
  apply Triple.peek
  intro s hs
  split
  · exact Triple.ret fun t ht => ht
  · apply (iunlockput_singleton (hn.mono (by omega))).seq
    intro _
    exact Triple.ret fun t ht => ht

omit [Calm E] in
/-- The part of `creat` that fills in the new inode. -/
theorem creatFresh_refs {di : Nat} (hne : i ∉ ({di} : Finset Nat)) (name : Name)
    (major minor : Nat) :
    Triple (CacheInv (addRef (addRef n di) i) (insert i {di}))
      (do
        modifyFs fun fs =>
          setBody (setNode fs i { fs.icache.inode i with nlink := 1 }) i
            { fs.body i with major := major, minor := minor }
        iupdate i
        pure (.fresh di name i))
      (Creating n) E := by
  refine Triple.seq (Triple.update
    (Q := fun _ => CacheInv (addRef (addRef n di) i) (insert i {di})) ?_) fun _ => ?_
  · intro s hs
    exact CacheInv.congr (hs.setNode (i := i)
      (m := { s.fs.icache.inode i with nlink := 1 }) rfl (hs.typed i)
      fun hi => (hs.held i hi).2) rfl rfl
  apply iupdate_refs.seq
  intro _
  apply Triple.ret
  intro s hs
  exact ⟨by simpa using hne, hs⟩

theorem creatInode_refs (hn : Small 3 n) (hpwd : 0 < n pwd) (pathname : Name)
    (type major minor : Nat) :
    Triple (CacheInv n ∅) (creatInode pwd pathname type major minor) (Creating n) AnyFault := by
  have hn1 : Small 1 n := hn.mono (by omega)
  apply (namex_refs (hn.mono (by omega)) hpwd pathname true).seq
  rintro ⟨r, name⟩
  dsimp only
  cases r with
  | none => exact Triple.ret fun s hs => hs
  | some di =>
    apply (ilock_empty (n := addRef n di) (by simp)).seq
    intro _
    have hdi : di ∈ ({di} : Finset Nat) := Finset.mem_singleton_self di
    have hn2 : Small 1 (addRef n di) := (hn.addRef di).mono (by omega)
    apply (dirlookup_refs hn2 hdi name).seq
    rintro ⟨r, e⟩
    dsimp only
    split
    · cases e with
      | none => exact Triple.fail trivial
      | some x =>
        obtain ⟨i, offset⟩ := x
        exact (creatFound_refs (hn.mono (by omega)) type).pre fun s hs => hs.2
    · next hr =>
      apply Triple.pre (P := CacheInv (addRef n di) {di})
      · apply Triple.peek
        intro s hs
        apply (ialloc_refs hn2 _ _).seq
        intro r
        cases r with
        | none => exact Triple.fail trivial
        | some i =>
          apply (ilock_refs (n := addRef (addRef n di) i) (by simp) fun _ => trivial).seq
          intro _
          apply Triple.assume (fun s hs => hs.1)
          intro hne
          exact (creatFresh_refs hne name major minor).pre fun s hs => hs.2
      · intro s hs
        cases e with
        | none => exact hs
        | some x =>
          have := hs.1
          simp only at this
          omega

theorem linkDots_refs (hn : Small 1 n) (type : Nat) {di : Nat} (hi : i ∈ L) (hE : E .selfLock) :
    Triple (CacheInv n L) (linkDots type di i) (fun _ => CacheInv n L) E := by
  unfold linkDots
  split
  · apply Triple.peek
    intro s hs
    apply (dirlink_refs hn hi _ _ hE).seq
    intro r
    split
    · exact Triple.ret fun t ht => ht
    apply Triple.peek
    intro t ht
    apply (dirlink_refs hn hi _ _ hE).seq
    intro r
    split
    · exact Triple.ret fun t ht => ht
    apply (addLink_refs _).seq
    intro _
    apply iupdate_refs.seq
    intro _
    exact Triple.ret fun t ht => ht
  · exact Triple.ret fun t ht => ht

/-- `creat` returns the new inode locked. -/
def GotLocked (n : Nat → Nat) (x : Option Nat) (s : Kern) : Prop :=
  match x with
  | none => CacheInv n ∅ s
  | some i => CacheInv (addRef n i) {i} s

/-- The dots of a new directory cannot be made: the parent is still locked, and a reference to it is
    left over. -/
def Leaks (type : Nat) (r : Created) (s : Kern) : Prop :=
  match r with
  | .done _ => False
  | .fresh di _ i => ∃ s', linkDots type di i s = .ok (false, s')

/-- **The second half of `creat`** returns the new inode locked, with one more reference. It leaves a
    reference to the parent behind if the dots cannot be made. -/
theorem creatLink_refs (hn : Small 3 n) (type : Nat) {r : Created} {s s' : Kern} {x : Option Nat}
    (hs : Creating n r s) (hr : creatLink type r s = .ok (x, s')) :
    (¬ Leaks type r s ∧ GotLocked n x s') ∨
    (Leaks type r s ∧ x = none ∧ ∃ di, CacheInv (addRef n di) {di} s') := by
  cases r with
  | done x =>
    obtain ⟨rfl, rfl⟩ := Prod.mk.inj (Except.ok.inj hr)
    refine Or.inl ⟨id, ?_⟩
    cases x with
    | none => exact hs
    | some i => exact hs
  | fresh di name i =>
    obtain ⟨hne, hs⟩ := hs
    have hdi : di ∈ (insert i {di} : Finset Nat) := by simp
    have hi : i ∈ (insert i {di} : Finset Nat) := by simp
    have hnotin : i ∉ ({di} : Finset Nat) := by simpa using hne
    have hn1 : Small 1 (addRef (addRef n di) i) := (hn.addRef di).addRef i
    obtain ⟨⟨dots, t⟩, hdots, hr⟩ := bind_eq_ok.1 hr
    have ht := (linkDots_refs (E := AnyFault) hn1 type hi trivial).of_ok hs hdots
    cases dots with
    | false =>
      -- only the new inode is released
      have hput : Triple (CacheInv (addRef (addRef n di) i) (insert i {di}))
          (do
            iunlockput i
            pure (none : Option Nat))
          (fun r s => r = none ∧ CacheInv (addRef n di) {di} s) AnyFault := by
        have h := iunlockput_refs (E := AnyFault) (n := addRef n di) (i := i)
          ((hn.addRef di).mono (by omega)) hi
        rw [Finset.erase_insert hnotin] at h
        apply h.seq
        intro _
        exact Triple.ret fun u hu => ⟨rfl, hu⟩
      obtain ⟨rfl, hs'⟩ := hput.of_ok ht hr
      exact Or.inr ⟨⟨t, hdots⟩, rfl, di, hs'⟩
    | true =>
      have hput : Triple (CacheInv (addRef (addRef n di) i) (insert i {di}))
          (do
            if (← dirlink di name ((← get).node i).ino) < 0 then throw .panic
            else
              iunlockput di
              pure (some i))
          (fun r s => r = some i ∧ CacheInv (addRef n i) {i} s) AnyFault := by
        apply Triple.peek
        intro u hu
        apply (dirlink_refs hn1 hdi _ _ trivial).seq
        intro r
        split
        · exact Triple.fail trivial
        have h := iunlockput_refs (E := AnyFault) (n := addRef n i) (i := di) (L := insert i {di})
          ((hn.addRef i).mono (by omega)) hdi
        have herase : (insert i {di} : Finset Nat).erase di = {i} := by
          rw [Finset.erase_insert_of_ne hne, Finset.erase_singleton, insert_empty_eq]
        rw [herase, addRef_comm] at h
        apply h.seq
        intro _
        exact Triple.ret fun v hv => ⟨rfl, hv⟩
      obtain ⟨rfl, hs'⟩ := hput.of_ok ht hr
      refine Or.inl ⟨?_, hs'⟩
      rintro ⟨t', ht'⟩
      rw [hdots] at ht'
      cases ht'

/-- `creat` stops at the dots of a new directory. -/
def CreatLeaks (pwd : Nat) (pathname : Name) (type major minor : Nat) (s : Kern) : Prop :=
  ∃ r t, creatInode pwd pathname type major minor s = .ok (r, t) ∧ Leaks type r t

/-- Only a directory has dots. -/
theorem not_creatLeaks {pathname : Name} {type major minor : Nat} {s : Kern} (ht : type ≠ T_DIR) :
    ¬ CreatLeaks pwd pathname type major minor s := by
  rintro ⟨r, t, _, hl⟩
  cases r with
  | done x => exact hl
  | fresh di name i =>
    obtain ⟨s', hs'⟩ := hl
    rw [linkDots, if_neg ht] at hs'
    cases hs'

/-- **`creat`** returns the new inode locked, with one more reference, unless it stops at the dots. -/
theorem creat_refs (hn : Small 3 n) (hpwd : 0 < n pwd) {pathname : Name} {type major minor : Nat}
    {s s' : Kern} {x : Option Nat} (hs : CacheInv n ∅ s)
    (hr : creat pwd pathname type major minor s = .ok (x, s')) :
    (¬ CreatLeaks pwd pathname type major minor s ∧ GotLocked n x s') ∨
    (CreatLeaks pwd pathname type major minor s ∧ x = none ∧
      ∃ di, CacheInv (addRef n di) {di} s') := by
  obtain ⟨⟨r, t⟩, ht, hr⟩ := bind_eq_ok.1 hr
  have hc := (creatInode_refs hn hpwd pathname type major minor).of_ok hs ht
  have hiff : CreatLeaks pwd pathname type major minor s ↔ Leaks type r t := by
    constructor
    · rintro ⟨r', t', ht', hl⟩
      obtain ⟨rfl, rfl⟩ := Prod.mk.inj (Except.ok.inj (ht.symm.trans ht'))
      exact hl
    · exact fun hl => ⟨r, t, ht, hl⟩
  rw [hiff]
  exact creatLink_refs hn type hc hr

/-- `mkdir` and `mknod` give the new inode back. -/
theorem creatAndPut_refs (hn : Small 3 n) (hpwd : 0 < n pwd) {pathname : Name}
    {type major minor : Nat} {s s' : Kern} {x : Int} (hs : CacheInv n ∅ s)
    (hr : creatAndPut pwd pathname type major minor s = .ok (x, s')) :
    (¬ CreatLeaks pwd pathname type major minor s ∧ CacheInv n ∅ s') ∨
    (CreatLeaks pwd pathname type major minor s ∧ ∃ di, CacheInv (addRef n di) {di} s') := by
  obtain ⟨⟨r, t⟩, ht, hr⟩ := bind_eq_ok.1 hr
  obtain ⟨hno, hinv⟩ | ⟨hleak, rfl, hinv⟩ := creat_refs hn hpwd hs ht
  · refine Or.inl ⟨hno, ?_⟩
    cases r with
    | none =>
      obtain ⟨_, rfl⟩ := Prod.mk.inj (Except.ok.inj hr)
      exact hinv
    | some i =>
      have hput : Triple (CacheInv (addRef n i) {i})
          (do
            iunlockput i
            pure (0 : Int))
          (fun _ => CacheInv n ∅) AnyFault := by
        apply (iunlockput_singleton (hn.mono (by omega))).seq
        intro _
        exact Triple.ret fun u hu => hu
      exact hput.of_ok hinv hr
  · obtain ⟨_, rfl⟩ := Prod.mk.inj (Except.ok.inj hr)
    exact Or.inr ⟨hleak, hinv⟩

end

end WeiOS.Dir
