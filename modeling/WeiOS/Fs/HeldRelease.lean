import Mathlib
import WeiOS.Lib.Ledger
import WeiOS.Fs.ByteArray
import WeiOS.Fs.HeldBuffers

/-!
# When a Call Releases What It Takes

The calls of `HeldBuffers` and the states from which they return with the buffers and spinlocks they were
called with. Each call has one lemma, which its callers use.

Most exits give back what was taken. `bfree` of a free block keeps the buffer of the bitmap, `bmap` keeps
the buffer of the table if the disk is full, and `iget` keeps the lock of the inode cache if no structure
is free.

## Main results
- `bfree_exactly`, `bmap_exactly`, `iget_exactly`: the conditions of the three calls.
- `helpers_release_iff`: exactly when each call gives back what it takes.
-/

set_option linter.style.nameCheck false

namespace WeiOS.Held

open WeiOS.Lib WeiOS.Lib.Taker
open WeiOS.Lib.Taker.Exactly (Each)
open WeiOS.Inode (FileSys Block BLKSIZE NDIRECT NINDIRECT NDINDIRECT T_DEV BITPB IBLOCK BITBLOCK word setWord
  setBlock setBody setAddr superblockOf findClear setBit bitSet byter slotBlock entryBlock memmove)
open WeiOS.InodeCache (Icache igetFinds igetHit igetMiss)

/-! ## §1 Buffers, exactly -/

section Buffers

/-- The call holds no spinlock, as a call must that may sleep. -/
def NoLocks (H : List Res) : Prop := ∀ l, .lock l ∉ H

theorem NoLocks.buf {H : List Res} (hH : NoLocks H) (b : Nat) : NoLocks (.buf b :: H) := fun l hl => by
  rcases List.mem_cons.1 hl with he | hl
  · cases he
  · exact hH l hl

variable {H : List Res} (hH : NoLocks H)

include hH

theorem getblk_exactly (b : Nat) :
    Exactly (getblk b) H (.buf b :: H) (fun _ => .buf b ∉ H) (fun s => ((), s)) := by
  unfold getblk
  -- the lock lies below the buffer when it is given back
  refine Exactly.conseq ((Exactly.take _ _).andThen ((Exactly.take _ _).andThen
    (Exactly.give _ _ _ ?_ ?_))) (fun s => ?_) fun _ _ => rfl
  · simp
  · simp
  · simp [hH .blkCache]

theorem ideReadWrite_exactly : Exactly ideReadWrite H H (fun _ => True) (fun s => ((), s)) := by
  unfold ideReadWrite
  refine Exactly.conseq ((Exactly.take _ _).andThen (Exactly.give _ _ _ ?_ ?_)) (fun s => ?_) fun _ _ => rfl
  · simp
  · simp
  · simp [hH .ide]

theorem bread_exactly (b : Nat) :
    Exactly (bread b) H (.buf b :: H) (fun _ => .buf b ∉ H) (fun s => ((), s)) := by
  unfold bread
  exact Exactly.conseq ((getblk_exactly hH b).andThen (ideReadWrite_exactly (hH.buf b))) (fun s => by simp)
    fun _ _ => rfl

theorem brelse_exactly (b : Nat) :
    Exactly (brelse b) (.buf b :: H) H (fun _ => True) (fun s => ((), s)) := by
  unfold brelse
  refine Exactly.conseq ((Exactly.take _ _).andThen ((Exactly.give _ _ (.lock .blkCache :: H) ?_ ?_).andThen
    (Exactly.give _ _ _ ?_ ?_))) (fun s => ?_) fun _ _ => rfl
  all_goals simp [hH .blkCache]

theorem logWrite_exactly : Exactly logWrite H H (fun _ => True) (fun s => ((), s)) := by
  unfold logWrite
  refine Exactly.conseq (Exactly.lookThen fun s₀ => Exactly.ite _ ((Exactly.take _ _).andThen
    (Exactly.give _ _ _ ?_ ?_)) (Exactly.pure () H)) (fun s => ?_) fun s _ => ?_
  all_goals simp [hH .log]

theorem readSuperblock_exactly : Exactly readSuperblock H H (fun _ => .buf 1 ∉ H)
    (fun s => ((), liftFs Inode.readSuperblock s)) := by
  unfold readSuperblock modifyFs
  exact Exactly.conseq ((bread_exactly hH 1).andThen ((Exactly.change _ _).andThen (brelse_exactly hH 1)))
    (fun s => by simp) fun _ _ => rfl

theorem bzero_exactly (b : Nat) : Exactly (bzero b) H H (fun _ => .buf b ∉ H)
    (fun s => ((), liftFs (fun fs => Inode.bzero fs b) s)) := by
  unfold bzero modifyFs
  exact Exactly.conseq ((bread_exactly hH b).andThen ((Exactly.change _ _).andThen
    ((logWrite_exactly (hH.buf b)).andThen (brelse_exactly hH b)))) (fun s => by simp) fun _ _ => rfl

end Buffers

/-! ## §2 The block allocator, exactly -/

/-- The loop of `balloc` gets its buffers: the bitmap blocks up to the first with a clear bit, and the
    block of that bit. -/
def ScanFree (H : List Res) (fs : FileSys) : List Nat → Prop
  | [] => True
  | k :: ks => .buf (BITBLOCK (k * BITPB) fs.sb) ∉ H ∧
    match findClear fs (k * BITPB) with
    | some a => .buf a ∉ H
    | none => ScanFree H fs ks

/-- `balloc` gets its buffers. -/
def AllocFree (H : List Res) (fs : FileSys) : Prop :=
  ScanFree H fs (List.range ((fs.sb.size + BITPB - 1) / BITPB))

/-- `bfree` gets its buffers, and the block is not free. -/
def FreeOk (H : List Res) (fs : FileSys) (blkno : Nat) : Prop :=
  .buf 1 ∉ H ∧ .buf (BITBLOCK blkno (superblockOf (fs.disk 1))) ∉ H ∧
    bitSet (fs.disk (BITBLOCK blkno (superblockOf (fs.disk 1)))) (blkno % BITPB) = true

/-- A call that holds no buffer gets all of them. -/
theorem scanFree_nil (fs : FileSys) (ks : List Nat) : ScanFree [] fs ks := by
  induction ks with
  | nil => trivial
  | cons k ks ih =>
    rw [ScanFree]
    refine ⟨by simp, ?_⟩
    cases findClear fs (k * BITPB) with
    | some a => simp
    | none => exact ih

/-- The result of the loop of `balloc`. -/
def allocFrom (ks : List Nat) (fs : FileSys) : Nat × FileSys :=
  match ks.findSome? fun k => findClear fs (k * BITPB) with
  | none => (0, fs)
  | some a => (a, Inode.bzero (setBit fs a (· ||| byter (a % BITPB))) a)

section Alloc

variable {H : List Res} (hH : NoLocks H)

include hH

theorem ballocFrom_exactly (ks : List Nat) :
    Exactly (ballocFrom ks) H H (fun s => ScanFree H s.fs ks) (onFs (allocFrom ks)) := by
  induction ks with
  | nil => exact (Exactly.pure 0 H).conseq (fun s => by simp [ScanFree]) fun _ _ => rfl
  | cons k ks ih =>
    unfold ballocFrom modifyFs
    -- the round of the loop, when `s₀` is the state that it starts in
    refine (Exactly.lookThen (P := fun s₀ s => .buf (BITBLOCK (k * BITPB) s₀.fs.sb) ∉ H ∧
        match findClear s₀.fs (k * BITPB) with
        | some a => .buf a ∉ H
        | none => ScanFree H s.fs ks)
      (f := fun s₀ s => match findClear s₀.fs (k * BITPB) with
        | some a => (a, liftFs (fun fs => Inode.bzero (setBit fs a (· ||| byter (a % BITPB))) a) s)
        | none => onFs (allocFrom ks) s) fun s₀ => ?_).conseq (fun s => Iff.rfl) fun s _ => ?_
    · dsimp only
      cases findClear s₀.fs (k * BITPB) with
      | none =>
        exact ((bread_exactly hH _).andThen ((brelse_exactly hH _).andThen ih)).conseq (fun s => by simp)
          fun _ _ => rfl
      | some a =>
        exact ((bread_exactly hH _).andThen ((Exactly.change _ _).andThen ((logWrite_exactly (hH.buf _)).andThen
          ((brelse_exactly hH _).andThen ((bzero_exactly hH a).andThen (Exactly.pure a H)))))).conseq
            (fun s => by simp) fun _ _ => rfl
    · cases hfind : findClear s.fs (k * BITPB) with
      | none => simp [onFs, allocFrom, hfind]
      | some a => simp [onFs, allocFrom, hfind, liftFs]

/-- **`balloc`** gives back what it takes. -/
theorem balloc_exactly : Exactly balloc H H (fun s => AllocFree H s.fs) (onFs Inode.balloc) := by
  have hres (fs : FileSys) : Inode.balloc fs = allocFrom (List.range ((fs.sb.size + BITPB - 1) / BITPB)) fs := by
    cases hfind : (List.range ((fs.sb.size + BITPB - 1) / BITPB)).findSome? fun k => findClear fs (k * BITPB) with
    | none => simp only [Inode.balloc, allocFrom, Inode.findFree, hfind]
    | some a => simp only [Inode.balloc, allocFrom, Inode.findFree, hfind]
  unfold balloc
  refine Exactly.conseq (Exactly.lookThen fun s₀ => ballocFrom_exactly hH _) (fun s => Iff.rfl) fun s _ => ?_
  exact congrArg (fun r : Nat × FileSys => (r.1, { s with fs := r.2 })) (hres s.fs)

/-- **`bfree`** gives back what it takes, unless the block is free already. -/
theorem bfree_exactly (blkno : Nat) :
    Exactly (bfree blkno) H H (fun s => FreeOk H s.fs blkno) (onFs fun fs => Inode.bfree fs blkno) := by
  unfold bfree modifyFs
  -- the exit for a free block leaves the buffer in the ledger, so it has no good state
  refine Exactly.conseq ((readSuperblock_exactly hH).andThen (Exactly.lookThen fun s₀ =>
    (bread_exactly hH (BITBLOCK blkno s₀.fs.sb)).andThen (Exactly.ite _ ((Exactly.change _ _).andThen
      ((logWrite_exactly (hH.buf _)).andThen ((brelse_exactly hH _).andThen (Exactly.pure 0 H))))
      (Exactly.forget (-1) _ H (onFs fun fs => Inode.bfree fs blkno))))) (fun s => ?_) fun s hs => ?_
  · simp [FreeOk, liftFs, Inode.readSuperblock]
  · by_cases hbit : bitSet ((liftFs Inode.readSuperblock s).fs.disk
        (BITBLOCK blkno (liftFs Inode.readSuperblock s).fs.sb)) (blkno % BITPB) = true
    · rw [if_pos hbit]
      simp only [liftFs] at hbit
      simp only [onFs, liftFs, Inode.bfree, if_pos hbit]
    · rw [if_neg hbit] at hs
      exact hs.2.2.elim

end Alloc

/-! ## §3 Inodes, exactly -/

/-- `iget` finds the inode, or a free structure for it. -/
def GetOk (c : Icache) (dev ino : Nat) : Prop := igetFinds c dev ino ≠ none ∨ c.freeList ≠ []

/-- The result of `iget` with a structure for the inode. -/
def getInode (dev ino : Nat) (s : Sys) : Option Nat × Sys :=
  match igetFinds s.fs.icache dev ino with
  | some i => (some i, setIcache (igetHit s.fs.icache i) s)
  | none =>
    match s.fs.icache.freeList with
    | [] => (none, s)
    | i :: rest => (some i, setIcache (igetMiss s.fs.icache i rest dev ino) s)

/-- The loop of `ialloc` gets its buffers: the inode blocks up to the first free inode on disk, for which
    `iget` has a structure. -/
def InodeScanOk (H : List Res) (fs : FileSys) (dev : Nat) : List Nat → Prop
  | [] => True
  | ino :: inos => .buf (IBLOCK ino fs.sb) ∉ H ∧
    if Dir.dType fs ino = 0 then GetOk fs.icache dev ino else InodeScanOk H fs dev inos

/-- The result of the loop of `ialloc`. -/
def allocInode (dev type : Nat) : List Nat → Sys → Option Nat × Sys
  | [], s => (none, s)
  | ino :: inos, s =>
    if Dir.dType s.fs ino = 0 then getInode dev ino (liftFs (fun fs => Dir.clearDInode fs ino type) s)
    else allocInode dev type inos s

theorem clearDInode_icache (s : Sys) (ino type : Nat) :
    (liftFs (fun fs => Dir.clearDInode fs ino type) s).fs.icache = s.fs.icache := by
  simp only [liftFs, Dir.clearDInode, setBlock]

section Inodes

variable {H : List Res} (hH : NoLocks H)

include hH

/-- **`iget`** gives the lock back, unless it has no structure left. -/
theorem iget_exactly (dev ino : Nat) :
    Exactly (iget dev ino) H H (fun s => GetOk s.fs.icache dev ino) (getInode dev ino) := by
  have hlock : Res.lock .icache ∉ H := hH .icache
  unfold iget
  -- the call under the lock, when `s₀` is the state that it finds
  refine ((Exactly.take _ H).andThen (Exactly.lookThen
    (P := fun s₀ _ => GetOk s₀.fs.icache dev ino)
    (f := fun s₀ s => match igetFinds s₀.fs.icache dev ino with
      | some i => (some i, setIcache (igetHit s₀.fs.icache i) s)
      | none =>
        match s₀.fs.icache.freeList with
        | [] => (none, s)
        | i :: rest => (some i, setIcache (igetMiss s₀.fs.icache i rest dev ino) s))
    fun s₀ => ?_)).conseq (fun s => by simp [hlock]) fun s _ => rfl
  have hgive : Exactly (give (.lock .icache) : SysM Unit) (.lock .icache :: H) H (fun _ => True)
      (fun s => ((), s)) := Exactly.give _ _ _ (by simp) (by simp)
  dsimp only
  rw [GetOk]
  cases igetFinds s₀.fs.icache dev ino with
  | some i =>
    exact ((Exactly.change _ _).andThen (hgive.andThen (Exactly.pure (some i) H))).conseq (fun s => by simp)
      fun _ _ => rfl
  | none =>
    cases s₀.fs.icache.freeList with
    | nil => exact (Exactly.forget none _ H fun s => (none, s)).conseq (fun s => by simp) fun _ _ => rfl
    | cons i rest =>
      exact ((Exactly.change _ _).andThen (hgive.andThen (Exactly.pure (some i) H))).conseq (fun s => by simp)
        fun _ _ => rfl

theorem iallocFrom_exactly (dev type : Nat) (inos : List Nat) :
    Exactly (iallocFrom dev type inos) H H (fun s => InodeScanOk H s.fs dev inos) (allocInode dev type inos) := by
  -- on the inode numbers that are left
  induction inos with
  | nil => exact (Exactly.pure none H).conseq (fun s => by simp [InodeScanOk]) fun _ _ => rfl
  | cons ino inos ih =>
    unfold iallocFrom modifyFs
    refine (Exactly.lookThen (P := fun s₀ s => .buf (IBLOCK ino s₀.fs.sb) ∉ H ∧
        if Dir.dType s₀.fs ino = 0 then GetOk s.fs.icache dev ino else InodeScanOk H s.fs dev inos)
      (f := fun s₀ s => if Dir.dType s₀.fs ino = 0
        then getInode dev ino (liftFs (fun fs => Dir.clearDInode fs ino type) s)
        else allocInode dev type inos s) fun s₀ => ?_).conseq (fun s => Iff.rfl) fun s _ => ?_
    · dsimp only
      by_cases hfree : Dir.dType s₀.fs ino = 0
      · simp only [if_pos hfree]
        refine ((bread_exactly hH _).andThen ((Exactly.change _ _).andThen ((logWrite_exactly (hH.buf _)).andThen
          ((brelse_exactly hH _).andThen (iget_exactly hH dev ino))))).conseq (fun s => ?_) fun s _ => rfl
        rw [clearDInode_icache]
        simp
      · simp only [if_neg hfree]
        exact ((bread_exactly hH _).andThen ((brelse_exactly hH _).andThen ih)).conseq (fun s => by simp)
          fun s _ => rfl
    · rw [allocInode]

/-- **`ialloc`** gives back what it takes, if `iget` does. -/
theorem ialloc_exactly (dev type : Nat) :
    Exactly (ialloc dev type) H H (fun s => InodeScanOk H s.fs dev (List.range' 1 (s.fs.sb.inodeBlks - 1)))
      (fun s => allocInode dev type (List.range' 1 (s.fs.sb.inodeBlks - 1)) s) := by
  unfold ialloc
  exact (Exactly.lookThen fun s₀ => iallocFrom_exactly hH dev type _).conseq (fun s => Iff.rfl) fun _ _ => rfl

/-- **`iupdate`** gives back what it takes. -/
theorem iupdate_exactly (i : Nat) :
    Exactly (iupdate i) H H (fun s => .buf (IBLOCK (s.fs.icache.inode i).ino s.fs.sb) ∉ H)
      (fun s => ((), liftFs (fun fs => Inode.iupdate fs i) s)) := by
  unfold iupdate modifyFs
  refine (Exactly.lookThen (P := fun s₀ _ => .buf (IBLOCK (s₀.fs.icache.inode i).ino s₀.fs.sb) ∉ H)
    (f := fun _ s => ((), liftFs (fun fs => Inode.iupdate fs i) s)) fun s₀ => ?_).conseq (fun s => Iff.rfl)
      fun s _ => rfl
  exact ((bread_exactly hH _).andThen ((Exactly.change _ _).andThen ((logWrite_exactly (hH.buf _)).andThen
    (brelse_exactly hH _)))).conseq (fun s => by simp) fun s _ => rfl

end Inodes

/-! ## §4 `ifree`, exactly -/

/-- The blocks that an inode names directly, the entries of a table and a table itself are freed as in
    `bfree`. -/
def SlotFreeOk (H : List Res) (i j : Nat) (fs : FileSys) : Prop :=
  (fs.body i).blkAddrs j ≠ 0 → FreeOk H fs ((fs.body i).blkAddrs j)

def EntryFreeOk (H : List Res) (blkno j : Nat) (fs : FileSys) : Prop :=
  word (fs.disk blkno) j ≠ 0 → FreeOk H fs (word (fs.disk blkno) j)

def TableFreeOk (H : List Res) (blkno : Nat) (fs : FileSys) : Prop :=
  .buf blkno ∉ H ∧
    Each (EntryFreeOk (.buf blkno :: H) blkno) (fun j fs => Inode.freeEntry blkno fs j) (List.range NINDIRECT) fs ∧
      FreeOk H (Inode.freeEntries fs blkno) blkno

def IndirectFreeOk (H : List Res) (i : Nat) (fs : FileSys) : Prop :=
  (fs.body i).blkAddrs NDIRECT ≠ 0 → TableFreeOk H ((fs.body i).blkAddrs NDIRECT) fs

/-- The tables in a doubly indirect block, and that block. -/
def TablesFreeOk (H : List Res) (blkno : Nat) (fs : FileSys) : Prop :=
  .buf blkno ∉ H ∧
    Each (fun j fs => word (fs.disk blkno) j ≠ 0 → TableFreeOk (.buf blkno :: H) (word (fs.disk blkno) j) fs)
      (fun j fs => Inode.freeTable blkno fs j) (List.range NINDIRECT) fs ∧
    FreeOk H (Inode.freeTables fs blkno) blkno

def DoubleFreeOk (H : List Res) (i : Nat) (fs : FileSys) : Prop :=
  (fs.body i).blkAddrs (NDIRECT + 1) ≠ 0 → TablesFreeOk H ((fs.body i).blkAddrs (NDIRECT + 1)) fs

/-- `ifree` gets its buffers, and each block is in use when it is freed. -/
def IfreeOk (H : List Res) (i : Nat) (fs : FileSys) : Prop :=
  let direct := Inode.freeDirect fs i
  let indirect := Inode.freeIndirect direct i
  let double := Inode.freeDouble indirect i
  Each (SlotFreeOk H i) (fun j fs => Inode.freeSlot i fs j) (List.range NDIRECT) fs ∧
    IndirectFreeOk H i direct ∧ DoubleFreeOk H i indirect ∧
      .buf (IBLOCK (double.icache.inode i).ino double.sb) ∉ H

/-- A loop that works on the file system only. -/
theorem each_fs (ok : Nat → FileSys → Prop) (f : FileSys → Nat → FileSys) (js : List Nat) (s : Sys) :
    Each (fun j s => ok j s.fs) (fun j => liftFs fun fs => f fs j) js s ↔ Each ok (fun j fs => f fs j) js s.fs := by
  induction js generalizing s with
  | nil => exact Iff.rfl
  | cons j js ih => exact and_congr Iff.rfl (ih _)

theorem foldl_liftFs (f : FileSys → Nat → FileSys) (js : List Nat) (s : Sys) :
    js.foldl (fun s j => liftFs (fun fs => f fs j) s) s = liftFs (fun fs => js.foldl f fs) s := by
  induction js generalizing s with
  | nil => rfl
  | cons j js ih => rw [List.foldl_cons, ih]; rfl

theorem freeTable_eq (blkno j : Nat) (fs : FileSys) :
    Inode.freeTable blkno fs j = if word (fs.disk blkno) j ≠ 0 then
      clearEntry blkno j (Inode.bfree (Inode.freeEntries fs (word (fs.disk blkno) j)) (word (fs.disk blkno) j)).2
    else fs := by
  rw [Inode.freeTable, ite_not]
  simp only [clearEntry]

section Free

variable {H : List Res}

theorem loopFs_exactly {body : Nat → SysM Unit} {P : Nat → FileSys → Prop} {f : FileSys → Nat → FileSys}
    (h : ∀ j, Exactly (body j) H H (fun s => P j s.fs) (fun s => ((), liftFs (fun fs => f fs j) s)))
    (js : List Nat) :
    Exactly (loop body js) H H (fun s => Each P (fun j fs => f fs j) js s.fs)
      (fun s => ((), liftFs (fun fs => js.foldl f fs) s)) :=
  (Exactly.loop h js).conseq (fun s => (each_fs P f js s).symm) fun s _ => by rw [foldl_liftFs]

/-- A step for a block number that is not 0. -/
theorem ifAddr_exactly (addr : FileSys → Nat) {m : Nat → SysM Unit} {P : Nat → FileSys → Prop}
    {f : Nat → FileSys → FileSys}
    (h : ∀ a, Exactly (m a) H H (fun s => P a s.fs) (fun s => ((), liftFs (f a) s))) :
    Exactly (look >>= fun s₀ => if addr s₀.fs ≠ 0 then m (addr s₀.fs) else pure ()) H H
      (fun s => addr s.fs ≠ 0 → P (addr s.fs) s.fs)
      (fun s => ((), liftFs (fun fs => if addr fs ≠ 0 then f (addr fs) fs else fs) s)) := by
  refine (Exactly.lookThen fun s₀ => Exactly.ite (addr s₀.fs ≠ 0) (h (addr s₀.fs))
    (Exactly.pure () H)).conseq (fun s => ?_) fun s _ => ?_
  · by_cases ha : addr s.fs ≠ 0 <;> simp [ha]
  · by_cases ha : addr s.fs ≠ 0 <;> simp [ha, liftFs]

variable (hH : NoLocks H)

include hH

theorem freeSlot_exactly (i j : Nat) :
    Exactly (freeSlot i j) H H (fun s => SlotFreeOk H i j s.fs)
      (fun s => ((), liftFs (fun fs => Inode.freeSlot i fs j) s)) := by
  refine ifAddr_exactly (m := fun a => bfree a >>= fun _ => modifyFs fun fs => setAddr fs i j 0)
    (P := fun a fs => FreeOk H fs a) (f := fun a fs => setAddr (Inode.bfree fs a).2 i j 0)
      (fun fs => (fs.body i).blkAddrs j) fun a => ?_
  exact ((bfree_exactly hH a).seq fun _ => Exactly.change _ H).conseq (fun s => by simp) fun _ _ => rfl

theorem freeEntry_exactly (blkno j : Nat) :
    Exactly (freeEntry blkno j) H H (fun s => EntryFreeOk H blkno j s.fs)
      (fun s => ((), liftFs (fun fs => Inode.freeEntry blkno fs j) s)) := by
  refine ifAddr_exactly (m := fun a => bfree a >>= fun _ => pure ()) (P := fun a fs => FreeOk H fs a)
    (f := fun a fs => (Inode.bfree fs a).2) (fun fs => word (fs.disk blkno) j) fun a => ?_
  exact ((bfree_exactly hH a).seq fun _ => Exactly.pure () H).conseq (fun s => by simp) fun _ _ => rfl

theorem freeEntries_exactly (blkno : Nat) :
    Exactly (loop (freeEntry blkno) (List.range NINDIRECT)) H H
      (fun s => Each (EntryFreeOk H blkno) (fun j fs => Inode.freeEntry blkno fs j) (List.range NINDIRECT) s.fs)
      (fun s => ((), liftFs (fun fs => Inode.freeEntries fs blkno) s)) := by
  refine (loopFs_exactly (P := EntryFreeOk H blkno) (f := Inode.freeEntry blkno) (freeEntry_exactly hH blkno)
    (List.range NINDIRECT)).conseq (fun s => Iff.rfl) fun s _ => ?_
  simp only [Inode.freeEntries]

theorem freeTableBlock_exactly (blkno : Nat) :
    Exactly (freeTableBlock blkno) H H (fun s => TableFreeOk H blkno s.fs)
      (fun s => ((), liftFs (fun fs => (Inode.bfree (Inode.freeEntries fs blkno) blkno).2) s)) := by
  unfold freeTableBlock
  refine ((bread_exactly hH blkno).andThen ((freeEntries_exactly (hH.buf blkno) blkno).andThen
    ((brelse_exactly hH blkno).andThen ((bfree_exactly hH blkno).seq fun _ => Exactly.pure () H)))).conseq
      (fun s => ?_) fun s _ => ?_
  · simp only [TableFreeOk, true_and, and_true, liftFs]
  · simp only [onFs_snd, liftFs_liftFs]

theorem freeIndirect_exactly (i : Nat) :
    Exactly (freeIndirect i) H H (fun s => IndirectFreeOk H i s.fs)
      (fun s => ((), liftFs (fun fs => Inode.freeIndirect fs i) s)) := by
  refine ifAddr_exactly (m := fun a => freeTableBlock a >>= fun _ => modifyFs fun fs => setAddr fs i NDIRECT 0)
    (P := fun a fs => TableFreeOk H a fs)
    (f := fun a fs => setAddr (Inode.bfree (Inode.freeEntries fs a) a).2 i NDIRECT 0)
      (fun fs => (fs.body i).blkAddrs NDIRECT) fun a => ?_
  exact ((freeTableBlock_exactly hH a).andThen (Exactly.change _ H)).conseq (fun s => by simp)
    fun _ _ => by simp only [liftFs_liftFs]

theorem freeTable_exactly (blkno j : Nat) :
    Exactly (freeTable blkno j) H H
      (fun s => word (s.fs.disk blkno) j ≠ 0 → TableFreeOk H (word (s.fs.disk blkno) j) s.fs)
      (fun s => ((), liftFs (fun fs => Inode.freeTable blkno fs j) s)) := by
  refine (ifAddr_exactly (m := fun a => freeTableBlock a >>= fun _ => modifyFs (clearEntry blkno j))
    (P := fun a fs => TableFreeOk H a fs)
    (f := fun a fs => clearEntry blkno j (Inode.bfree (Inode.freeEntries fs a) a).2)
    (fun fs => word (fs.disk blkno) j) fun a => ?_).conseq (fun s => Iff.rfl) fun s _ => ?_
  · exact ((freeTableBlock_exactly hH a).andThen (Exactly.change _ H)).conseq (fun s => by simp)
      fun _ _ => by simp only [liftFs_liftFs]
  · simp only [freeTable_eq]

theorem freeTables_exactly (blkno : Nat) :
    Exactly (loop (freeTable blkno) (List.range NINDIRECT)) H H
      (fun s => Each (fun j fs => word (fs.disk blkno) j ≠ 0 → TableFreeOk H (word (fs.disk blkno) j) fs)
        (fun j fs => Inode.freeTable blkno fs j) (List.range NINDIRECT) s.fs)
      (fun s => ((), liftFs (fun fs => Inode.freeTables fs blkno) s)) := by
  refine (loopFs_exactly (f := Inode.freeTable blkno)
    (P := fun j fs => word (fs.disk blkno) j ≠ 0 → TableFreeOk H (word (fs.disk blkno) j) fs)
    (freeTable_exactly hH blkno) (List.range NINDIRECT)).conseq (fun s => Iff.rfl) fun s _ => ?_
  simp only [Inode.freeTables]

theorem freeDouble_exactly (i : Nat) :
    Exactly (freeDouble i) H H (fun s => DoubleFreeOk H i s.fs)
      (fun s => ((), liftFs (fun fs => Inode.freeDouble fs i) s)) := by
  refine ifAddr_exactly (m := fun a => bread a >>= fun _ => loop (freeTable a) (List.range NINDIRECT) >>= fun _ =>
      brelse a >>= fun _ => bfree a >>= fun _ => modifyFs fun fs => setAddr fs i (NDIRECT + 1) 0)
    (P := fun a fs => TablesFreeOk H a fs)
    (f := fun a fs => setAddr (Inode.bfree (Inode.freeTables fs a) a).2 i (NDIRECT + 1) 0)
      (fun fs => (fs.body i).blkAddrs (NDIRECT + 1)) fun a => ?_
  refine ((bread_exactly hH a).andThen ((freeTables_exactly (hH.buf a) a).andThen
    ((brelse_exactly hH a).andThen ((bfree_exactly hH a).seq fun _ => Exactly.change _ H)))).conseq
      (fun s => ?_) fun s _ => ?_
  · simp only [TablesFreeOk, true_and, and_true, liftFs]
  · simp only [onFs_snd, liftFs_liftFs]

theorem freeDirect_exactly (i : Nat) :
    Exactly (loop (freeSlot i) (List.range NDIRECT)) H H
      (fun s => Each (SlotFreeOk H i) (fun j fs => Inode.freeSlot i fs j) (List.range NDIRECT) s.fs)
      (fun s => ((), liftFs (fun fs => Inode.freeDirect fs i) s)) := by
  refine (loopFs_exactly (P := SlotFreeOk H i) (f := Inode.freeSlot i) (freeSlot_exactly hH i)
    (List.range NDIRECT)).conseq (fun s => Iff.rfl) fun s _ => ?_
  simp only [Inode.freeDirect]

/-- **`ifree`** gives back what it takes, if each block is in use when it is freed. -/
theorem ifree_exactly (i : Nat) :
    Exactly (ifree i) H H (fun s => IfreeOk H i s.fs) (fun s => ((), liftFs (fun fs => Inode.ifree fs i) s)) := by
  unfold ifree
  refine ((freeDirect_exactly hH i).andThen ((freeIndirect_exactly hH i).andThen
    ((freeDouble_exactly hH i).andThen ((Exactly.change _ H).andThen (iupdate_exactly hH i))))).conseq
      (fun s => ?_) fun s _ => ?_
  · simp only [IfreeOk, true_and, liftFs, setBody]
  · simp only [liftFs_liftFs, Inode.ifree]

end Free

/-! ## §5 The blocks of a file, exactly -/

/-- `balloc` finds a block that is not block 0. -/
def NotFull (fs : FileSys) : Prop := ∃ a, Inode.findFree fs = some a ∧ a ≠ 0

/-- A slot of the inode that has no block gets one. -/
def SlotOk (H : List Res) (i k : Nat) (fs : FileSys) : Prop := (fs.body i).blkAddrs k = 0 → AllocFree H fs

/-- The table `b` is read, and there is a block for its entry `addr`. -/
def EntryOk (H : List Res) (b addr : Nat) (fs : FileSys) : Prop :=
  .buf b ∉ H ∧ (addr = 0 → AllocFree (.buf b :: H) fs ∧ NotFull fs)

/-- A new block, which `set` puts into its place. -/
def newAddr (set : Nat → Sys → Sys) (s : Sys) : Nat × Sys :=
  match onFs Inode.balloc s with
  | (0, s) => (0, s)
  | (a, s) => (a, set a s)

/-- The entry of a table that `get` reads and `set` writes. -/
def tableOut (get : Sys → Nat) (set : Nat → Sys → Sys) (s : Sys) : Nat × Sys :=
  if get s ≠ 0 then (get s, s) else newAddr set s

/-- The result of `wildAddr`. -/
def wildBlock (b : Nat) : Sys → Nat × Sys :=
  tableOut (fun s => s.wild b) fun addr s => { s with wild := Function.update s.wild b addr }

theorem balloc_ne_zero (fs : FileSys) : (Inode.balloc fs).1 ≠ 0 ↔ NotFull fs := by
  rw [Inode.balloc, NotFull]
  generalize Inode.findFree fs = o
  cases o with
  | none => simp
  | some a => simp

theorem slotBlock_onFs (i k : Nat) (s : Sys) :
    onFs (fun fs => slotBlock fs i k) s = tableOut (fun s => (s.fs.body i).blkAddrs k)
      (fun addr => liftFs fun fs => setAddr fs i k addr) s := by
  unfold tableOut newAddr onFs slotBlock
  by_cases haddr : (s.fs.body i).blkAddrs k = 0
  · simp only [haddr, ne_eq, not_true_eq_false, if_false]
    rcases Inode.balloc s.fs with ⟨_ | a, fs⟩ <;> rfl
  · simp only [if_pos haddr]

theorem entryBlock_onFs (b j : Nat) (s : Sys) :
    onFs (fun fs => entryBlock fs b j) s = tableOut (fun s => word (s.fs.disk b) j)
      (fun addr => liftFs fun fs => setBlock fs b (setWord (fs.disk b) j addr)) s := by
  unfold tableOut newAddr onFs entryBlock
  by_cases haddr : word (s.fs.disk b) j = 0
  · simp only [haddr, ne_eq, not_true_eq_false, if_false]
    rcases Inode.balloc s.fs with ⟨_ | a, fs⟩ <;> rfl
  · simp only [ne_eq, if_pos haddr]

section Map

variable {H : List Res} (hH : NoLocks H)

include hH

/-- A new block, after which the call has given back what it held; if it gives that back for a full disk
    too, the condition `full` is `True`, and otherwise the disk must not be full. -/
theorem newAddr_exactly {H' : List Res} {zero : SysM Nat} {k : Nat → SysM Nat} {full : Prop}
    {set : Nat → Sys → Sys} (hzero : Exactly zero H H' (fun _ => full) (fun s => (0, s)))
    (hk : ∀ a, Exactly (k a) H H' (fun _ => True) (fun s => (a, set a s))) :
    Exactly (balloc >>= fun a => if a = 0 then zero else k a) H H'
      (fun s => AllocFree H s.fs ∧ (¬ NotFull s.fs → full)) (newAddr set) := by
  refine ((balloc_exactly hH).seq fun a => Exactly.ite (a = 0) hzero (hk a)).conseq (fun s => ?_) fun s _ => ?_
  · rw [onFs_fst, ← balloc_ne_zero]
    by_cases ha : (Inode.balloc s.fs).1 = 0
    · simp [ha]
    · simp [ha]
  · unfold newAddr
    rcases onFs Inode.balloc s with ⟨_ | a, s'⟩
    · simp
    · simp

theorem slotAddr_exactly (i k : Nat) :
    Exactly (slotAddr i k) H H (fun s => SlotOk H i k s.fs) (onFs fun fs => slotBlock fs i k) := by
  unfold slotAddr
  refine (Exactly.lookThen (P := fun s₀ s => (s₀.fs.body i).blkAddrs k = 0 → AllocFree H s.fs)
    (f := fun s₀ s => if (s₀.fs.body i).blkAddrs k ≠ 0 then ((s₀.fs.body i).blkAddrs k, s)
      else newAddr (fun addr => liftFs fun fs => setAddr fs i k addr) s) fun s₀ => ?_).conseq
        (fun s => Iff.rfl) fun s _ => ?_
  · have hnew := newAddr_exactly hH (Exactly.pure 0 H) fun a =>
      ((Exactly.change (liftFs fun fs => setAddr fs i k a) H).andThen (Exactly.pure a H)).conseq
        (P := fun _ => True) (fun s => by simp) fun _ _ => rfl
    refine (Exactly.ite _ (Exactly.pure _ H) hnew).conseq (fun s => ?_) fun _ _ => rfl
    by_cases haddr : (s₀.fs.body i).blkAddrs k = 0 <;> simp [haddr]
  · exact slotBlock_onFs i k s

/-- **An entry of a table**: if the disk is full, the buffer of the table is kept. -/
theorem tableEntry_exactly (b : Nat) (get : Sys → Nat) (set : Nat → Sys → Sys) :
    Exactly (tableEntry b get set) H H (fun s => EntryOk H b (get s) s.fs) (tableOut get set) := by
  unfold tableEntry
  -- with an entry that is 0: the exit for a full disk forgets the buffer
  have hnew := newAddr_exactly (hH.buf b) (Exactly.forget 0 (.buf b) H fun s => (0, s)) fun a =>
    ((Exactly.change (set a) _).andThen ((logWrite_exactly (hH.buf b)).andThen
      ((brelse_exactly hH b).andThen (Exactly.pure a H)))).conseq (P := fun _ => True) (fun s => by simp)
        fun _ _ => rfl
  refine ((bread_exactly hH b).andThen (Exactly.lookThen fun s₀ => Exactly.ite (get s₀ ≠ 0)
    ((brelse_exactly hH b).andThen (Exactly.pure (get s₀) H)) hnew)).conseq (fun s => ?_) fun _ _ => rfl
  unfold EntryOk
  by_cases haddr : get s = 0 <;> simp [haddr]

theorem entryAddr_exactly (b j : Nat) :
    Exactly (entryAddr b j) H H (fun s => EntryOk H b (word (s.fs.disk b) j) s.fs)
      (onFs fun fs => entryBlock fs b j) :=
  (tableEntry_exactly hH b _ _).conseq (fun _ => Iff.rfl) fun s _ => entryBlock_onFs b j s

theorem wildAddr_exactly (b : Nat) :
    Exactly (wildAddr b) H H (fun s => EntryOk H b (s.wild b) s.fs) (wildBlock b) :=
  tableEntry_exactly hH b _ _

end Map

/-- A step for the block that was found, if there is one. -/
def Found (p : Nat × Sys) (ok : Nat → Sys → Prop) : Prop := p.1 ≠ 0 → ok p.1 p.2

def andFound (p : Nat × Sys) (f : Nat → Sys → Nat × Sys) : Nat × Sys := if p.1 = 0 then (0, p.2) else f p.1 p.2

/-- The result of `bmap`. -/
def mapBlock (i lblkno : Nat) (s : Sys) : Nat × Sys :=
  if lblkno < NDIRECT then onFs (fun fs => slotBlock fs i lblkno) s
  else
    let lblkno := lblkno - NDIRECT
    if lblkno < NINDIRECT then
      andFound (onFs (fun fs => slotBlock fs i NDIRECT) s) fun b => onFs fun fs => entryBlock fs b lblkno
    else
      let lblkno := lblkno - NINDIRECT
      if lblkno < NDINDIRECT then
        andFound (onFs (fun fs => slotBlock fs i (NDIRECT + 1)) s) fun b s =>
          andFound (onFs (fun fs => entryBlock fs b (lblkno / NINDIRECT)) s) fun b =>
            if lblkno % NINDIRECT = 0 then wildBlock b
            else onFs fun fs => entryBlock fs b (lblkno % NINDIRECT - 1)
      else (0, s)

/-- `bmap` gets its buffers, and if a table is read that has no block for the entry, the disk is not
    full. -/
def BmapOk (H : List Res) (i lblkno : Nat) (s : Sys) : Prop :=
  if lblkno < NDIRECT then SlotOk H i lblkno s.fs
  else
    let lblkno := lblkno - NDIRECT
    if lblkno < NINDIRECT then
      SlotOk H i NDIRECT s.fs ∧ Found (onFs (fun fs => slotBlock fs i NDIRECT) s) fun b s =>
        EntryOk H b (word (s.fs.disk b) lblkno) s.fs
    else
      let lblkno := lblkno - NINDIRECT
      if lblkno < NDINDIRECT then
        SlotOk H i (NDIRECT + 1) s.fs ∧ Found (onFs (fun fs => slotBlock fs i (NDIRECT + 1)) s) fun b s =>
          EntryOk H b (word (s.fs.disk b) (lblkno / NINDIRECT)) s.fs ∧
            Found (onFs (fun fs => entryBlock fs b (lblkno / NINDIRECT)) s) fun b s =>
              EntryOk H b (if lblkno % NINDIRECT = 0 then s.wild b
                else word (s.fs.disk b) (lblkno % NINDIRECT - 1)) s.fs
      else True

theorem onFs_eq {f : FileSys → Nat × FileSys} {s : Sys} {b : Nat} {fs : FileSys} (h : f s.fs = (b, fs)) :
    onFs f s = (b, { s with fs := fs }) := by
  rw [onFs, h]

/-- `bmap` of the block store, where it does not leave the table. -/
theorem mapBlock_eq {i lblkno : Nat} {s : Sys} {r : Nat × FileSys} (h : Inode.bmap s.fs i lblkno = .ok r) :
    mapBlock i lblkno s = (r.1, { s with fs := r.2 }) := by
  unfold Inode.bmap at h
  unfold mapBlock
  by_cases hlt : lblkno < NDIRECT
  · rw [if_pos hlt] at h ⊢
    rw [onFs, Except.ok.inj h]
  rw [if_neg hlt] at h ⊢
  dsimp only at h ⊢
  by_cases hin : lblkno - NDIRECT < NINDIRECT
  · rw [if_pos hin] at h ⊢
    rcases hslot : slotBlock s.fs i NDIRECT with ⟨_ | b, fs⟩
    all_goals
      rw [onFs_eq (f := fun fs => slotBlock fs i NDIRECT) hslot, andFound]
      rw [hslot] at h
      have hr := Except.ok.inj h
    · rw [if_pos rfl, ← hr]
    · rw [if_neg (Nat.succ_ne_zero b), onFs, hr]
  rw [if_neg hin] at h ⊢
  by_cases hdin : lblkno - NDIRECT - NINDIRECT < NDINDIRECT
  · rw [if_pos hdin] at h ⊢
    rcases hslot : slotBlock s.fs i (NDIRECT + 1) with ⟨_ | b, fs⟩
    all_goals
      rw [onFs_eq (f := fun fs => slotBlock fs i (NDIRECT + 1)) hslot, andFound]
      rw [hslot] at h
    · rw [if_pos rfl, ← Except.ok.inj h]
    -- the second table
    rw [if_neg (Nat.succ_ne_zero b)]
    dsimp only at h ⊢
    generalize (lblkno - NDIRECT - NINDIRECT) / NINDIRECT = n at h ⊢
    rcases hentry : entryBlock fs (b + 1) n with ⟨_ | b', fs'⟩
    all_goals
      rw [onFs_eq (f := fun fs => entryBlock fs (b + 1) n) hentry, andFound]
      simp only [hentry] at h
    · rw [if_pos rfl, ← Except.ok.inj h]
    rw [if_neg (Nat.succ_ne_zero b')]
    by_cases hr : (lblkno - NDIRECT - NINDIRECT) % NINDIRECT = 0
    · rw [if_pos hr] at h
      cases h
    · rw [if_neg hr] at h ⊢
      rw [onFs, Except.ok.inj h]
  · rw [if_neg hdin] at h ⊢
    rw [← Except.ok.inj h]

section File

variable {H : List Res} (hH : NoLocks H)

theorem found_exactly {m : SysM Nat} {k : Nat → SysM Nat} {P : Sys → Prop} {f : Sys → Nat × Sys}
    {Q : Nat → Sys → Prop} {g : Nat → Sys → Nat × Sys} (h : Exactly m H H P f)
    (hk : ∀ b, Exactly (k b) H H (Q b) (g b)) :
    Exactly (m >>= fun b => if b = 0 then pure 0 else k b) H H (fun s => P s ∧ Found (f s) Q)
      (fun s => andFound (f s) g) := by
  refine (h.seq fun b => Exactly.ite (b = 0) (Exactly.pure 0 H) (hk b)).conseq (fun s => ?_) fun s _ => rfl
  unfold Found
  by_cases hb : (f s).1 = 0 <;> simp [hb]

include hH

/-- **`bmap`** gives back what it takes, unless the disk is full when it has read a table. -/
theorem bmap_exactly (i lblkno : Nat) :
    Exactly (bmap i lblkno) H H (BmapOk H i lblkno) (mapBlock i lblkno) := by
  unfold bmap
  by_cases hlt : lblkno < NDIRECT
  · simp only [if_pos hlt]
    refine (slotAddr_exactly hH i lblkno).conseq (fun s => ?_) fun s _ => ?_
    · rw [BmapOk, if_pos hlt]
    · rw [mapBlock, if_pos hlt]
  by_cases hin : lblkno - NDIRECT < NINDIRECT
  · simp only [if_neg hlt, if_pos hin]
    refine (found_exactly (slotAddr_exactly hH i NDIRECT) fun b => entryAddr_exactly hH b _).conseq
      (fun s => ?_) fun s _ => ?_
    · simp only [BmapOk, if_neg hlt, if_pos hin]
    · simp only [mapBlock, if_neg hlt, if_pos hin]
  by_cases hdin : lblkno - NDIRECT - NINDIRECT < NDINDIRECT
  · simp only [if_neg hlt, if_neg hin, if_pos hdin]
    have hlast (b r : Nat) : Exactly (if r = 0 then wildAddr b else entryAddr b (r - 1)) H H
        (fun s => EntryOk H b (if r = 0 then s.wild b else word (s.fs.disk b) (r - 1)) s.fs)
        (if r = 0 then wildBlock b else onFs fun fs => entryBlock fs b (r - 1)) := by
      by_cases hr : r = 0
      · simpa only [if_pos hr] using wildAddr_exactly hH b
      · simpa only [if_neg hr] using entryAddr_exactly hH b (r - 1)
    refine (found_exactly (slotAddr_exactly hH i (NDIRECT + 1)) fun b =>
      found_exactly (entryAddr_exactly hH b _) fun b => hlast b _).conseq (fun s => ?_) fun s _ => ?_
    · simp only [BmapOk, if_neg hlt, if_neg hin, if_pos hdin]
    · simp only [mapBlock, if_neg hlt, if_neg hin, if_pos hdin]
  · simp only [if_neg hlt, if_neg hin, if_neg hdin]
    refine (Exactly.pure 0 H).conseq (fun s => ?_) fun s _ => ?_
    · simp only [BmapOk, if_neg hlt, if_neg hin, if_neg hdin]
    · simp only [mapBlock, if_neg hlt, if_neg hin, if_neg hdin]

end File

/-! ## §6 `readi` and `writei`, exactly -/

/-- Each round of the loop of `readi` finds its block and gets its buffer. -/
def ReadOk (H : List Res) (i offset nbytes : Nat) : Nat → Nat → Sys → Prop
  | 0, _, _ => True
  | fuel + 1, total, s => total < nbytes →
    let off := offset + total
    let p := mapBlock i (off / BLKSIZE) s
    BmapOk H i (off / BLKSIZE) s ∧ .buf p.1 ∉ H ∧
      ReadOk H i offset nbytes fuel (total + min (nbytes - total) (BLKSIZE - off % BLKSIZE)) p.2

/-- Each round of the loop of `writei` does, and what the loop does. -/
def WriteOk (H : List Res) (src : Nat → BitVec 8) (i offset nbytes : Nat) : Nat → Nat → Sys → Prop
  | 0, _, _ => True
  | fuel + 1, total, s => total < nbytes →
    let off := (offset + total) % 2 ^ 32
    let p := mapBlock i (off / BLKSIZE) s
    let wrbytes := min (nbytes - total) (BLKSIZE - off % BLKSIZE)
    BmapOk H i (off / BLKSIZE) s ∧ .buf p.1 ∉ H ∧
      WriteOk H src i offset nbytes fuel (total + wrbytes) (liftFs (fun fs =>
        setBlock fs p.1 (memmove (fs.disk p.1) (off % BLKSIZE) (fun k => src (total + k)) wrbytes)) p.2)

def writeFrom (src : Nat → BitVec 8) (i offset nbytes : Nat) : Nat → Nat → Sys → Sys
  | 0, _, s => s
  | fuel + 1, total, s =>
    if total < nbytes then
      let off := (offset + total) % 2 ^ 32
      let p := mapBlock i (off / BLKSIZE) s
      let wrbytes := min (nbytes - total) (BLKSIZE - off % BLKSIZE)
      writeFrom src i offset nbytes fuel (total + wrbytes) (liftFs (fun fs =>
        setBlock fs p.1 (memmove (fs.disk p.1) (off % BLKSIZE) (fun k => src (total + k)) wrbytes)) p.2)
    else s

/-- `readi` of a file at a good offset reads each of its blocks. -/
def ReadiOk (H : List Res) (i offset nbytes : Nat) (s : Sys) : Prop :=
  (s.fs.icache.inode i).type ≠ T_DEV → ¬ BadOffset s.fs i offset nbytes →
    let n := readCount s.fs i offset nbytes
    ReadOk H i offset n n 0 s

/-- `writei` writes each of its blocks, and the inode of a file that gets longer. -/
def WriteiOk (H : List Res) (src : Nat → BitVec 8) (i offset nbytes : Nat) (s : Sys) : Prop :=
  (s.fs.icache.inode i).type ≠ T_DEV → ¬ BadOffset s.fs i offset nbytes →
    let n := writeCount offset nbytes
    let fs := (writeFrom src i offset n n 0 s).fs
    WriteOk H src i offset n n 0 s ∧
      ((fs.body i).fileSiz < (offset + n) % 2 ^ 32 → .buf (IBLOCK (fs.icache.inode i).ino fs.sb) ∉ H)

section Copy

variable {H : List Res} (hH : NoLocks H)

include hH

theorem readLoop_exactly (i offset nbytes fuel total : Nat) (dst : Block) :
    ∃ out, Exactly (readLoop i offset nbytes fuel total dst) H H (ReadOk H i offset nbytes fuel total) out := by
  -- on the rounds that are left; the block of a round is that of `mapBlock` in the state it starts in
  induction fuel generalizing total dst with
  | zero => exact ⟨_, (Exactly.pure dst H).conseq (fun s => by simp [ReadOk]) fun _ _ => rfl⟩
  | succ fuel ih =>
    choose out hout using ih
    unfold readLoop
    by_cases hlt : total < nbytes
    · simp only [if_pos hlt]
      refine ⟨_, ((bmap_exactly hH i _).seq fun b => (bread_exactly hH b).andThen (Exactly.lookThen fun s₀ =>
        (brelse_exactly hH b).andThen (hout _ _))).conseq (fun s => ?_) fun _ _ => rfl⟩
      simp only [ReadOk, hlt, true_and, forall_const]
    · simp only [if_neg hlt]
      refine ⟨_, (Exactly.pure dst H).conseq (fun s => ?_) fun _ _ => rfl⟩
      simp only [ReadOk, hlt, false_imp_iff]

theorem writeLoop_exactly (src : Nat → BitVec 8) (i offset nbytes fuel total : Nat) :
    Exactly (writeLoop src i offset nbytes fuel total) H H (WriteOk H src i offset nbytes fuel total)
      (fun s => ((), writeFrom src i offset nbytes fuel total s)) := by
  -- as for `readi`, and the state of the next round has the bytes of this one
  induction fuel generalizing total with
  | zero => exact (Exactly.pure () H).conseq (fun s => by simp [WriteOk]) fun _ _ => rfl
  | succ fuel ih =>
    unfold writeLoop modifyFs
    by_cases hlt : total < nbytes
    · simp only [if_pos hlt]
      refine ((bmap_exactly hH i _).seq fun b => (bread_exactly hH b).andThen ((Exactly.change _ _).andThen
        ((logWrite_exactly (hH.buf b)).andThen ((brelse_exactly hH b).andThen (ih _))))).conseq
          (fun s => ?_) fun s _ => ?_
      · simp only [WriteOk, hlt, true_and, forall_const]
      · simp only [writeFrom, if_pos hlt]
    · simp only [if_neg hlt]
      refine (Exactly.pure () H).conseq (fun s => ?_) fun s _ => ?_
      · simp only [WriteOk, hlt, false_imp_iff]
      · simp only [writeFrom, if_neg hlt]

theorem growFile_exactly (i offset : Nat) :
    ∃ out, Exactly (growFile i offset) H H (fun s => (s.fs.body i).fileSiz < offset →
      .buf (IBLOCK (s.fs.icache.inode i).ino s.fs.sb) ∉ H) out := by
  unfold growFile modifyFs
  refine ⟨_, (Exactly.lookThen fun s₀ => Exactly.ite ((s₀.fs.body i).fileSiz < offset)
    ((Exactly.change _ H).andThen (iupdate_exactly hH i)) (Exactly.pure () H)).conseq (fun s => ?_) fun _ _ => rfl⟩
  by_cases hlt : (s.fs.body i).fileSiz < offset <;> simp [hlt, liftFs, setBody]

omit hH in
/-- The form of `readi` and `writei`: two checks, after which the call copies. -/
theorem copy_exactly {α : Type} {c d : Sys → Prop} [DecidablePred c] [DecidablePred d] {v : Sys → α} {w : α}
    {m : Sys → SysM α} {P : Sys → Sys → Prop} (h : ∀ s₀, ∃ out, Exactly (m s₀) H H (P s₀) out) :
    ∃ out, Exactly (look >>= fun s₀ => if c s₀ then pure (v s₀) else if d s₀ then pure w else m s₀) H H
      (fun s => ¬ c s → ¬ d s → P s s) out := by
  choose out hout using h
  refine ⟨_, (Exactly.lookThen fun s₀ => Exactly.ite (c s₀) (Exactly.pure (v s₀) H)
    (Exactly.ite (d s₀) (Exactly.pure w H) (hout s₀))).conseq (fun s => ?_) fun _ _ => rfl⟩
  by_cases hc : c s
  · simp [hc]
  · by_cases hd : d s <;> simp [hc, hd]

/-- **`readi`** gives back what it takes, if `bmap` does for each block. -/
theorem readi_exactly (i : Nat) (dst : Block) (offset nbytes : Nat) :
    ∃ out, Exactly (readi i dst offset nbytes) H H (ReadiOk H i offset nbytes) out := by
  refine copy_exactly (c := fun s₀ => (s₀.fs.icache.inode i).type = T_DEV)
    (d := fun s₀ => BadOffset s₀.fs i offset nbytes) (P := fun s₀ s => let n := readCount s₀.fs i offset nbytes
    ReadOk H i offset n n 0 s) fun s₀ => ?_
  obtain ⟨out, hloop⟩ := readLoop_exactly hH i offset (readCount s₀.fs i offset nbytes)
    (readCount s₀.fs i offset nbytes) 0 dst
  exact ⟨_, (hloop.seq fun dst => Exactly.pure _ H).conseq (fun s => by simp) fun _ _ => rfl⟩

/-- **`writei`** gives back what it takes, if `bmap` does for each block. -/
theorem writei_exactly (i : Nat) (src : Nat → BitVec 8) (offset nbytes : Nat) :
    ∃ out, Exactly (writei i src offset nbytes) H H (WriteiOk H src i offset nbytes) out := by
  refine copy_exactly (c := fun s₀ => (s₀.fs.icache.inode i).type = T_DEV)
    (d := fun s₀ => BadOffset s₀.fs i offset nbytes) (P := fun _ s => let n := writeCount offset nbytes
    let fs := (writeFrom src i offset n n 0 s).fs
    WriteOk H src i offset n n 0 s ∧
      ((fs.body i).fileSiz < (offset + n) % 2 ^ 32 → .buf (IBLOCK (fs.icache.inode i).ino fs.sb) ∉ H))
    fun s₀ => ?_
  obtain ⟨out, hgrow⟩ := growFile_exactly hH i ((offset + writeCount offset nbytes) % 2 ^ 32)
  exact ⟨_, ((writeLoop_exactly hH src i offset _ _ 0).andThen (hgrow.seq fun _ => Exactly.pure _ H)).conseq
    (fun s => by simp) fun _ _ => rfl⟩

end Copy

/-! ## §7 The helpers -/

theorem noLocks_bufs (H : List Nat) : NoLocks (H.map .buf) := fun l => by simp

/-- When each call, for a process that holds `H`, returns in the state `s` with what it held. -/
structure ReleaseConditions (H : List Res) (s : Sys) : Prop where
  balloc : Releases balloc H s ↔ AllocFree H s.fs
  bfree (blkno : Nat) : Releases (bfree blkno) H s ↔ FreeOk H s.fs blkno
  bzero (blkno : Nat) : Releases (bzero blkno) H s ↔ .buf blkno ∉ H
  bmap (i lblkno : Nat) : Releases (bmap i lblkno) H s ↔ BmapOk H i lblkno s
  readi (i : Nat) (dst : Block) (offset nbytes : Nat) :
    Releases (readi i dst offset nbytes) H s ↔ ReadiOk H i offset nbytes s
  writei (i : Nat) (src : Nat → BitVec 8) (offset nbytes : Nat) :
    Releases (writei i src offset nbytes) H s ↔ WriteiOk H src i offset nbytes s
  iget (dev ino : Nat) : Releases (iget dev ino) H s ↔ GetOk s.fs.icache dev ino
  ialloc (dev type : Nat) : Releases (ialloc dev type) H s ↔
    InodeScanOk H s.fs dev (List.range' 1 (s.fs.sb.inodeBlks - 1))
  iupdate (i : Nat) : Releases (iupdate i) H s ↔ .buf (IBLOCK (s.fs.icache.inode i).ino s.fs.sb) ∉ H
  ifree (i : Nat) : Releases (ifree i) H s ↔ IfreeOk H i s.fs

/-- **The helpers give back what they take** exactly under these conditions, whatever buffers the process
    holds already. -/
theorem helpers_release_iff (H : List Nat) (s : Sys) : ReleaseConditions (H.map .buf) s where
  balloc := (balloc_exactly (noLocks_bufs H)).releases_iff s
  bfree blkno := (bfree_exactly (noLocks_bufs H) blkno).releases_iff s
  bzero blkno := (bzero_exactly (noLocks_bufs H) blkno).releases_iff s
  bmap i lblkno := (bmap_exactly (noLocks_bufs H) i lblkno).releases_iff s
  readi i dst offset nbytes := by
    obtain ⟨out, h⟩ := readi_exactly (noLocks_bufs H) i dst offset nbytes
    exact h.releases_iff s
  writei i src offset nbytes := by
    obtain ⟨out, h⟩ := writei_exactly (noLocks_bufs H) i src offset nbytes
    exact h.releases_iff s
  iget dev ino := (iget_exactly (noLocks_bufs H) dev ino).releases_iff s
  ialloc dev type := (ialloc_exactly (noLocks_bufs H) dev type).releases_iff s
  iupdate i := (iupdate_exactly (noLocks_bufs H) i).releases_iff s
  ifree i := (ifree_exactly (noLocks_bufs H) i).releases_iff s

/-- Without buffers of its own a process gets them all. -/
theorem freeOk_nil (fs : FileSys) (blkno : Nat) :
    FreeOk [] fs blkno ↔ bitSet (fs.disk (BITBLOCK blkno (superblockOf (fs.disk 1)))) (blkno % BITPB) = true := by
  simp [FreeOk]

theorem balloc_releases (s : Sys) : Releases balloc [] s :=
  ((balloc_exactly (noLocks_bufs [])).releases_iff s).2 (scanFree_nil s.fs _)

/-- What `mkfs` makes, the same with a full bitmap and a table for the root directory, and a cache in which
    each structure is in use. -/
def mkfsSys (fs : FileSys) : Sys := ⟨fs, fun _ => 0, true, fun _ => none⟩

def fullTable : FileSys := setAddr Inode.fullRoot 0 NDIRECT 128

def busyInodes : FileSys := { Inode.mkfsRoot with icache := { Inode.mkfsRoot.icache with freeList := [] } }

/-- `bfree` of block 4000, which is free, keeps the bitmap; `bmap` keeps the table in block 128 if the disk is
    full; `iget` keeps its lock if no structure is left. -/
theorem helpers_keep : ¬ Releases (bfree 4000) [] (mkfsSys Inode.mkfsRoot) ∧
    ¬ Releases (bmap 0 20) [] (mkfsSys fullTable) ∧ ¬ Releases (iget 1 5) [] (mkfsSys busyInodes) := by
  have hH : NoLocks [] := noLocks_bufs []
  refine ⟨fun hrun => ?_, fun hrun => ?_, fun hrun => ?_⟩
  -- the bit of block 4000 is clear
  · have hok := ((bfree_exactly hH 4000).releases_iff _).1 hrun
    exact absurd ((freeOk_nil _ _).1 hok) (by decide +kernel)
  -- the table is there, its entry 9 is 0, and no bit is clear
  · have hok := ((bmap_exactly hH 0 20).releases_iff _).1 hrun
    rw [BmapOk, if_neg (by decide), if_pos (by decide)] at hok
    obtain ⟨a, ha, -⟩ := ((hok.2 (by decide +kernel)).2 (by decide +kernel)).2
    have hnone : (Inode.findFree (onFs (fun fs => slotBlock fs 0 NDIRECT) (mkfsSys fullTable)).2.fs).isNone := by
      decide +kernel
    rw [ha] at hnone
    cases hnone
  · rcases ((iget_exactly hH 1 5).releases_iff _).1 hrun with hfinds | hfree
    · exact hfinds (by decide +kernel)
    · exact hfree rfl

end WeiOS.Held
