import Mathlib
import WeiOS.Fs.BlockOwner
import WeiOS.Fs.Directory
import WeiOS.Fs.FileWrite

/-!
# What a Transaction Logs

The block allocator of `kern/bio.c` and the block layer of `kern/inode.c` once more, with the block
numbers that they pass to `log_write`. `begin_transaction` reserves `MAXOPBLOCKS` blocks in the log; a
round of `file_write`, and the `iput` that frees an inode, are to fit.

A round writes at most 18 blocks' worth of bytes, hence 19 blocks, and `balloc` zeroes no others than
these and the indirect block. With one bitmap block, and the block of the inode, that makes 22. Freeing
an inode logs the bitmap and the inode only: the tables are not logged.

## Main results
- `writei_fs`, `iputFree_fs`: the calls do to the file system what they do without the log.
- `writei_grows`: what a write logs.
- `transaction_fits`: no transaction exceeds its reservation.
- `fits_of_run`: nor does any in a run from a file system as `mkfs` leaves it.
-/

namespace WeiOS.Logged

open WeiOS.Lib
open WeiOS.Inode (FileSys Block Body Superblock Fault BLKSIZE NDIRECT NINDIRECT NDINDIRECT NDEV T_DEV
  E_BAD_DEV E_BAD_OFFSET MAXFILESIZ BITPB IBLOCK BITBLOCK word setWord setBlock setBody setAddr setBit
  bitSet byter memmove findClear findFree readSuperblock superblockOf Place stored entry FsInv)
open WeiOS.Syscall (MAXOPBLOCKS maxbytes)

/-! ## §1 The calls with the log -/

/-- The file system inside of a transaction, with the block numbers that were passed to `log_write`. -/
structure Tx where
  fs : FileSys
  logged : List Nat

/-- A function on the file system. -/
def Tx.onFs (t : Tx) (f : FileSys → FileSys) : Tx := { t with fs := f t.fs }

/-- `log_write` of the buffer of block `b`. -/
def Tx.logWrite (t : Tx) (b : Nat) : Tx := { t with logged := b :: t.logged }

/-- `bzero`. -/
def bzero (t : Tx) (blkno : Nat) : Tx := (t.onFs (Inode.bzero · blkno)).logWrite blkno

/-- `balloc`. -/
def balloc (t : Tx) : Nat × Tx :=
  match findFree t.fs with
  | none => (0, t)
  | some b =>
    (b, bzero ((t.onFs (setBit · b (· ||| byter (b % BITPB)))).logWrite (BITBLOCK b t.fs.sb)) b)

/-- `bfree`; what it returns is not looked at. -/
def bfree (t : Tx) (blkno : Nat) : Tx :=
  let t := t.onFs readSuperblock
  if bitSet (t.fs.disk (BITBLOCK blkno t.fs.sb)) (blkno % BITPB) then
    (t.onFs (setBit · blkno (· &&& ~~~ byter (blkno % BITPB)))).logWrite (BITBLOCK blkno t.fs.sb)
  else t

/-- `iupdate`. -/
def iupdate (t : Tx) (i : Nat) : Tx :=
  (t.onFs (Inode.iupdate · i)).logWrite (IBLOCK (t.fs.icache.inode i).ino t.fs.sb)

/-- The loop of `ifree` over the direct blocks. -/
def freeSlot (i : Nat) (t : Tx) (j : Nat) : Tx :=
  let a := (t.fs.body i).blkAddrs j
  if a ≠ 0 then (bfree t a).onFs (setAddr · i j 0) else t

def freeDirect (t : Tx) (i : Nat) : Tx := (List.range NDIRECT).foldl (freeSlot i) t

/-- The loop of `ifree` over the entries of an indirect block. -/
def freeEntry (blkno : Nat) (t : Tx) (j : Nat) : Tx :=
  let a := word (t.fs.disk blkno) j
  if a ≠ 0 then bfree t a else t

def freeEntries (t : Tx) (blkno : Nat) : Tx := (List.range NINDIRECT).foldl (freeEntry blkno) t

/-- The loop of `ifree` over the entries of a doubly indirect block. What it writes to that block is not
    logged. -/
def freeTable (blkno : Nat) (t : Tx) (j : Nat) : Tx :=
  let a := word (t.fs.disk blkno) j
  if a = 0 then t
  else
    (bfree (freeEntries t a) a).onFs fun s => setBlock s blkno (setWord (s.disk blkno) j 0)

def freeTables (t : Tx) (blkno : Nat) : Tx := (List.range NINDIRECT).foldl (freeTable blkno) t

/-- The part of `ifree` for the indirect block, and the one for the doubly indirect block. -/
def freeIndirect (t : Tx) (i : Nat) : Tx :=
  let a := (t.fs.body i).blkAddrs NDIRECT
  if a ≠ 0 then (bfree (freeEntries t a) a).onFs (setAddr · i NDIRECT 0) else t

def freeDouble (t : Tx) (i : Nat) : Tx :=
  let a := (t.fs.body i).blkAddrs (NDIRECT + 1)
  if a ≠ 0 then (bfree (freeTables t a) a).onFs (setAddr · i (NDIRECT + 1) 0) else t

/-- `ifree`. -/
def ifree (t : Tx) (i : Nat) : Tx :=
  let t := freeDouble (freeIndirect (freeDirect t i) i) i
  iupdate (t.onFs fun s => setBody s i { s.body i with fileSiz := 0 }) i

/-- The part of `iput` that frees an inode without links when the last reference goes. -/
def iputFree (t : Tx) (i : Nat) : Tx :=
  let n := t.fs.icache.inode i
  if n.valid && n.nlink == 0 && n.ref == 1 then
    iupdate ((ifree t i).onFs (Dir.setNode · i { n with type := 0 })) i
  else t

/-- `blk_addrs[k]`, with a new block if there is none. -/
def slotBlock (t : Tx) (i k : Nat) : Nat × Tx :=
  if (t.fs.body i).blkAddrs k ≠ 0 then ((t.fs.body i).blkAddrs k, t)
  else
    match balloc t with
    | (0, t) => (0, t)
    | (a, t) => (a, t.onFs (setAddr · i k a))

/-- Entry `j` of the block `b`, with a new block if there is none. -/
def entryBlock (t : Tx) (b j : Nat) : Nat × Tx :=
  if word (t.fs.disk b) j ≠ 0 then (word (t.fs.disk b) j, t)
  else
    match balloc t with
    | (0, t) => (0, t)
    | (a, t) => (a, (t.onFs fun s => setBlock s b (setWord (s.disk b) j a)).logWrite b)

/-- `bmap`. -/
def bmap (t : Tx) (i lblkno : Nat) : Except Fault (Nat × Tx) :=
  if lblkno < NDIRECT then .ok (slotBlock t i lblkno)
  else
    let lblkno := lblkno - NDIRECT
    if lblkno < NINDIRECT then
      match slotBlock t i NDIRECT with
      | (0, t) => .ok (0, t)
      | (b, t) => .ok (entryBlock t b lblkno)
    else
      let lblkno := lblkno - NINDIRECT
      if lblkno < NDINDIRECT then
        match slotBlock t i (NDIRECT + 1) with
        | (0, t) => .ok (0, t)
        | (b, t) =>
          match entryBlock t b (lblkno / NINDIRECT) with
          | (0, t) => .ok (0, t)
          | (b, t) =>
            if lblkno % NINDIRECT = 0 then .error .outOfBlock
            else .ok (entryBlock t b (lblkno % NINDIRECT - 1))
      else .ok (0, t)

/-- The loop of `writei`, from `total` on. -/
def writeLoop (src : Nat → BitVec 8) (i offset nbytes : Nat) : Nat → Nat → Tx → Except Fault Tx
  | 0, _, t => .ok t
  | fuel + 1, total, t =>
    if total < nbytes then
      let off := offset + total
      match bmap t i (off / BLKSIZE) with
      | .error e => .error e
      | .ok (b, t) =>
        let wrbytes := min (nbytes - total) (BLKSIZE - off % BLKSIZE)
        writeLoop src i offset nbytes fuel (total + wrbytes)
          ((t.onFs fun s => setBlock s b
            (memmove (s.disk b) (off % BLKSIZE) (fun k => src (total + k)) wrbytes)).logWrite b)
    else .ok t

/-- `writei`. -/
def writei (t : Tx) (i : Nat) (src : Nat → BitVec 8) (offset nbytes : BitVec 32) :
    Except Fault (Int × Tx) :=
  let off := offset.toNat
  if (t.fs.icache.inode i).type = T_DEV then
    match if NDEV ≤ (t.fs.body i).major then none else (t.fs.devStructs (t.fs.body i).major).write with
    | none => .ok (-E_BAD_DEV, t)
    | some write => .ok (write nbytes.toNat, t)
  else if (t.fs.body i).fileSiz < off ∨ (off + nbytes.toNat) % 2 ^ 32 < off then
    .ok (-E_BAD_OFFSET, t)
  else
    let n := if MAXFILESIZ < (off + nbytes.toNat) % 2 ^ 32 then (MAXFILESIZ + 2 ^ 32 - off) % 2 ^ 32
      else nbytes.toNat
    match writeLoop src i off n n 0 t with
    | .error e => .error e
    | .ok t =>
      let t :=
        if (t.fs.body i).fileSiz < off + n then
          iupdate (t.onFs fun s => setBody s i { s.body i with fileSiz := off + n }) i
        else t
      .ok (n, t)

/-! ## §2 The file system does not notice -/

section Sim

variable (t : Tx) (i : Nat)

/-- A result without the log. -/
def forget {α : Type} (r : α × Tx) : α × FileSys := (r.1, r.2.fs)

theorem balloc_fs : forget (balloc t) = Inode.balloc t.fs := by
  unfold balloc Inode.balloc
  cases findFree t.fs with
  | none => rfl
  | some b => rfl

theorem bfree_fs (b : Nat) : (bfree t b).fs = (Inode.bfree t.fs b).2 := by
  unfold bfree Inode.bfree
  dsimp only [Tx.onFs]
  split
  · rfl
  · rfl

theorem freeSlot_fs (j : Nat) : (freeSlot i t j).fs = Inode.freeSlot i t.fs j := by
  unfold freeSlot Inode.freeSlot
  dsimp only
  split
  · rw [← bfree_fs]
    rfl
  · rfl

theorem freeDirect_fs : (freeDirect t i).fs = Inode.freeDirect t.fs i :=
  (List.foldl_hom Tx.fs fun t j => (freeSlot_fs t i j).symm).symm

theorem freeEntry_fs (b j : Nat) : (freeEntry b t j).fs = Inode.freeEntry b t.fs j := by
  unfold freeEntry Inode.freeEntry
  dsimp only
  split
  · exact bfree_fs t _
  · rfl

theorem freeEntries_fs (b : Nat) : (freeEntries t b).fs = Inode.freeEntries t.fs b :=
  (List.foldl_hom Tx.fs fun t j => (freeEntry_fs t b j).symm).symm

theorem freeTable_fs (b j : Nat) : (freeTable b t j).fs = Inode.freeTable b t.fs j := by
  unfold freeTable Inode.freeTable
  dsimp only
  split
  · rfl
  · rw [← freeEntries_fs, ← bfree_fs]
    rfl

theorem freeTables_fs (b : Nat) : (freeTables t b).fs = Inode.freeTables t.fs b :=
  (List.foldl_hom Tx.fs fun t j => (freeTable_fs t b j).symm).symm

theorem freeIndirect_fs : (freeIndirect t i).fs = Inode.freeIndirect t.fs i := by
  unfold freeIndirect Inode.freeIndirect
  dsimp only
  split
  · rw [← freeEntries_fs, ← bfree_fs]
    rfl
  · rfl

theorem freeDouble_fs : (freeDouble t i).fs = Inode.freeDouble t.fs i := by
  unfold freeDouble Inode.freeDouble
  dsimp only
  split
  · rw [← freeTables_fs, ← bfree_fs]
    rfl
  · rfl

theorem ifree_fs : (ifree t i).fs = Inode.ifree t.fs i := by
  unfold ifree Inode.ifree
  dsimp only [Tx.onFs, iupdate, Tx.logWrite]
  rw [freeDouble_fs, freeIndirect_fs, freeDirect_fs]

/-- **`iput`** does to the file system what it does without the log. -/
theorem iputFree_fs : (iputFree t i).fs = Dir.iputFree t.fs i := by
  unfold iputFree Dir.iputFree
  dsimp only
  split
  · dsimp only [Tx.onFs, iupdate, Tx.logWrite]
    rw [ifree_fs]
  · rfl

theorem slotBlock_fs (k : Nat) : forget (slotBlock t i k) = Inode.slotBlock t.fs i k := by
  unfold slotBlock Inode.slotBlock
  split
  · rfl
  · rw [← balloc_fs]
    rcases balloc t with ⟨a, u⟩
    cases a with
    | zero => rfl
    | succ a => rfl

theorem entryBlock_fs (b j : Nat) : forget (entryBlock t b j) = Inode.entryBlock t.fs b j := by
  unfold entryBlock Inode.entryBlock
  split
  · rfl
  · rw [← balloc_fs]
    rcases balloc t with ⟨a, u⟩
    cases a with
    | zero => rfl
    | succ a => rfl

theorem bmap_fs (l : Nat) : (bmap t i l).map forget = Inode.bmap t.fs i l := by
  unfold bmap Inode.bmap
  dsimp only
  split
  · rw [← slotBlock_fs]
    rfl
  split
  · rw [← slotBlock_fs]
    rcases slotBlock t i NDIRECT with ⟨a, u⟩
    cases a with
    | zero => rfl
    | succ a => exact congrArg Except.ok (entryBlock_fs u _ _)
  split
  · rw [← slotBlock_fs]
    rcases slotBlock t i (NDIRECT + 1) with ⟨a, u⟩
    cases a with
    | zero => rfl
    | succ a =>
      simp only [forget, ← entryBlock_fs]
      rcases entryBlock u (a + 1) ((l - NDIRECT - NINDIRECT) / NINDIRECT) with ⟨b, v⟩
      cases b with
      | zero => rfl
      | succ b =>
        simp only
        split
        · rfl
        · exact congrArg Except.ok (entryBlock_fs v _ _)
  · rfl

theorem writeLoop_fs (src : Nat → BitVec 8) (offset nbytes fuel total : Nat) :
    (writeLoop src i offset nbytes fuel total t).map Tx.fs =
      Inode.writeLoop src i offset nbytes fuel total t.fs := by
  induction fuel generalizing total t with
  | zero => rfl
  | succ fuel ih =>
    unfold writeLoop Inode.writeLoop
    split
    · dsimp only
      rw [← bmap_fs]
      cases bmap t i ((offset + total) / BLKSIZE) with
      | error e => rfl
      | ok r => exact ih _ _
    · rfl

/-- **`writei`** does to the file system what it does without the log. -/
theorem writei_fs (src : Nat → BitVec 8) (offset nbytes : BitVec 32) :
    (writei t i src offset nbytes).map forget = Inode.writei t.fs i src offset nbytes := by
  unfold writei Inode.writei
  dsimp only
  split
  · cases (if NDEV ≤ (t.fs.body i).major then none
      else (t.fs.devStructs (t.fs.body i).major).write) with
    | none => rfl
    | some write => rfl
  split
  · rfl
  · rw [← writeLoop_fs]
    generalize (if MAXFILESIZ < (offset.toNat + nbytes.toNat) % 2 ^ 32 then
      (MAXFILESIZ + 2 ^ 32 - offset.toNat) % 2 ^ 32 else nbytes.toNat) = n
    cases writeLoop src i offset.toNat n n 0 t with
    | error e => rfl
    | ok u =>
      dsimp only [Except.map]
      split
      · rfl
      · rfl

end Sim

/-! ## §3 What a write logs -/

/-- The indirect block of inode `i`. -/
def Tx.table (t : Tx) (i : Nat) : Nat := (t.fs.body i).blkAddrs NDIRECT

/-- From `t` to `u` a write to inode `i` logs the bitmap, the indirect block and blocks in `D`. -/
structure Grows (i : Nat) (D : List Nat) (t u : Tx) : Prop where
  sb : u.fs.sb = t.fs.sb
  table : t.table i ≠ 0 → u.table i = t.table i
  logged : ∀ b ∈ u.logged, b ∈ t.logged ∨ b = t.fs.sb.bitmapStart ∨
    (u.table i ≠ 0 ∧ b = u.table i) ∨ b ∈ D

section Write

variable {t u v : Tx} {i a b : Nat} {D E : List Nat}

theorem Grows.refl (i : Nat) (t : Tx) : Grows i [] t t := ⟨rfl, fun _ => rfl, fun _ hb => Or.inl hb⟩

theorem Grows.trans (h : Grows i D t u) (h' : Grows i E u v) : Grows i (D ++ E) t v := by
  refine ⟨h'.sb.trans h.sb, ?_, ?_⟩
  · intro h0
    have hu := h.table h0
    rw [h'.table (by rwa [hu]), hu]
  · intro b hb
    rcases h'.logged b hb with hb | rfl | hb | hb
    · rcases h.logged b hb with hb | rfl | ⟨h0, rfl⟩ | hb
      · exact Or.inl hb
      · exact Or.inr (Or.inl rfl)
      · -- an indirect block that is there stays
        have hv := h'.table h0
        exact Or.inr (Or.inr (Or.inl ⟨by rwa [hv], hv.symm⟩))
      · exact Or.inr (Or.inr (Or.inr (List.mem_append_left _ hb)))
    · exact Or.inr (Or.inl (by rw [h.sb]))
    · exact Or.inr (Or.inr (Or.inl hb))
    · exact Or.inr (Or.inr (Or.inr (List.mem_append_right _ hb)))

theorem Grows.mono (h : Grows i D t u) (hDE : ∀ b ∈ D, b ∈ E) : Grows i E t u := by
  refine ⟨h.sb, h.table, fun b hb => ?_⟩
  rcases h.logged b hb with hb | hb | hb | hb
  · exact Or.inl hb
  · exact Or.inr (Or.inl hb)
  · exact Or.inr (Or.inr (Or.inl hb))
  · exact Or.inr (Or.inr (Or.inr (hDE b hb)))

/-- Something else is written in memory or on disk. -/
theorem Grows.onFs (h : Grows i D t u) {f : FileSys → FileSys} (hsb : (f u.fs).sb = u.fs.sb)
    (htable : ((f u.fs).body i).blkAddrs NDIRECT = u.table i) : Grows i D t (u.onFs f) := by
  have htable' : (u.onFs f).table i = u.table i := htable
  refine ⟨hsb.trans h.sb, fun h0 => htable'.trans (h.table h0), ?_⟩
  rw [htable']
  exact h.logged

/-- The indirect block is logged. -/
theorem Grows.logTable (h : Grows i D t u) (h0 : u.table i ≠ 0) :
    Grows i D t (u.logWrite (u.table i)) := by
  refine ⟨h.sb, h.table, fun c hc => ?_⟩
  rcases List.mem_cons.1 hc with rfl | hc
  · exact Or.inr (Or.inr (Or.inl ⟨h0, rfl⟩))
  · exact h.logged c hc

/-- A block that was logged becomes the indirect block, and is counted as such from then on. -/
theorem Grows.setTable (h : Grows i [a] t u) (h0 : t.table i = 0) (hu : u.table i = 0) (ha : a ≠ 0) :
    Grows i [] t (u.onFs (setAddr · i NDIRECT a)) ∧ (u.onFs (setAddr · i NDIRECT a)).table i = a := by
  have htable : (u.onFs (setAddr · i NDIRECT a)).table i = a := by
    simp [setAddr, setBody, Tx.table, Tx.onFs]
  refine ⟨⟨h.sb, fun hne => absurd h0 hne, fun c hc => ?_⟩, htable⟩
  rw [htable]
  rcases h.logged c hc with hc | hc | ⟨hne, -⟩ | hc
  · exact Or.inl hc
  · exact Or.inr (Or.inl hc)
  · exact absurd hu hne
  · exact Or.inr (Or.inr (Or.inl ⟨ha, List.mem_singleton.1 hc⟩))

theorem Grows.logWrite (h : Grows i D t u) (b : Nat) : Grows i (b :: D) t (u.logWrite b) := by
  refine ⟨h.sb, h.table, fun c hc => ?_⟩
  rcases List.mem_cons.1 hc with rfl | hc
  · exact Or.inr (Or.inr (Or.inr List.mem_cons_self))
  · rcases h.logged c hc with hc | hc | hc | hc
    · exact Or.inl hc
    · exact Or.inr (Or.inl hc)
    · exact Or.inr (Or.inr (Or.inl hc))
    · exact Or.inr (Or.inr (Or.inr (List.mem_cons_of_mem _ hc)))

theorem findFree_lt {s : FileSys} (h : findFree s = some b) : b < s.sb.size := by
  unfold findFree at h
  obtain ⟨k, -, hk⟩ := List.exists_of_findSome?_eq_some h
  obtain ⟨j, hj, rfl⟩ := Option.map_eq_some_iff.1 hk
  have hlt := List.mem_range.1 (List.mem_of_find?_eq_some hj)
  omega

theorem BITBLOCK_one (sb : Superblock) (h : b < BITPB) : BITBLOCK b sb = sb.bitmapStart := by
  unfold BITBLOCK
  rw [Nat.div_eq_of_lt h, Nat.zero_add]

/-- `balloc` logs the bitmap and the block that it returns. -/
theorem balloc_grows (i : Nat) (hsize : t.fs.sb.size ≤ BITPB) (hok : balloc t = (a, u)) :
    Grows i [a] t u ∧ u.table i = t.table i := by
  unfold balloc at hok
  cases hfind : findFree t.fs with
  | none =>
    rw [hfind] at hok
    obtain ⟨rfl, rfl⟩ := Prod.mk.inj hok
    exact ⟨(Grows.refl i t).mono (by simp), rfl⟩
  | some b =>
    rw [hfind] at hok
    obtain ⟨rfl, rfl⟩ := Prod.mk.inj hok
    refine ⟨⟨rfl, fun _ => rfl, fun c hc => ?_⟩, rfl⟩
    have hbit := BITBLOCK_one t.fs.sb (Nat.lt_of_lt_of_le (findFree_lt hfind) hsize)
    simp only [bzero, Tx.logWrite, Tx.onFs, List.mem_cons, hbit] at hc
    rcases hc with rfl | rfl | hc
    · exact Or.inr (Or.inr (Or.inr List.mem_cons_self))
    · exact Or.inr (Or.inl rfl)
    · exact Or.inl hc

/-- A block for a slot that is not the one of the indirect block. -/
theorem slotBlock_grows {k : Nat} (hsize : t.fs.sb.size ≤ BITPB) (hk : k ≠ NDIRECT)
    (hok : slotBlock t i k = (a, u)) : Grows i [a] t u := by
  unfold slotBlock at hok
  split at hok
  · obtain ⟨rfl, rfl⟩ := Prod.mk.inj hok
    exact (Grows.refl i t).mono (by simp)
  · rcases hb : balloc t with ⟨a', w⟩
    obtain ⟨hw, -⟩ := balloc_grows i hsize hb
    rw [hb] at hok
    cases a' with
    | zero =>
      obtain ⟨rfl, rfl⟩ := Prod.mk.inj hok
      exact hw
    | succ n =>
      obtain ⟨rfl, rfl⟩ := Prod.mk.inj hok
      refine hw.onFs rfl ?_
      simp [setAddr, setBody, Tx.table, hk.symm]

/-- The indirect block, which is counted as such; without one the block is 0. -/
theorem slotBlock_table (hsize : t.fs.sb.size ≤ BITPB) (hok : slotBlock t i NDIRECT = (a, u)) :
    Grows i [0] t u ∧ (a ≠ 0 → Grows i [] t u ∧ u.table i = a) := by
  unfold slotBlock at hok
  split at hok
  · obtain ⟨rfl, rfl⟩ := Prod.mk.inj hok
    exact ⟨(Grows.refl i t).mono (by simp), fun _ => ⟨.refl i t, rfl⟩⟩
  · next hzero =>
    have hzero : t.table i = 0 := not_not.1 hzero
    rcases hb : balloc t with ⟨a', w⟩
    obtain ⟨hw, htable⟩ := balloc_grows i hsize hb
    rw [hb] at hok
    cases a' with
    | zero =>
      obtain ⟨rfl, rfl⟩ := Prod.mk.inj hok
      exact ⟨hw, fun h0 => absurd rfl h0⟩
    | succ n =>
      obtain ⟨rfl, rfl⟩ := Prod.mk.inj hok
      have hset := hw.setTable hzero (htable.trans hzero) (Nat.succ_ne_zero n)
      exact ⟨hset.1.mono (by simp), fun _ => hset⟩

/-- A block for an entry of the indirect block. -/
theorem entryBlock_grows {j : Nat} (hsize : t.fs.sb.size ≤ BITPB) (hb0 : b ≠ 0)
    (hb : t.table i = b) (hok : entryBlock t b j = (a, u)) : Grows i [a] t u := by
  unfold entryBlock at hok
  split at hok
  · obtain ⟨rfl, rfl⟩ := Prod.mk.inj hok
    exact (Grows.refl i t).mono (by simp)
  · rcases hball : balloc t with ⟨a', w⟩
    obtain ⟨hw, htable⟩ := balloc_grows i hsize hball
    rw [hball] at hok
    cases a' with
    | zero =>
      obtain ⟨rfl, rfl⟩ := Prod.mk.inj hok
      exact hw
    | succ n =>
      obtain ⟨rfl, rfl⟩ := Prod.mk.inj hok
      -- the entry is written to the indirect block, which is logged
      have hwb : w.table i = b := htable.trans hb
      have hset := hw.onFs (f := fun s => setBlock s b (setWord (s.disk b) j (n + 1))) rfl rfl
      have hlog := hset.logTable (by rwa [← hwb] at hb0)
      rwa [show (w.onFs fun s => setBlock s b (setWord (s.disk b) j (n + 1))).table i = b from hwb]
        at hlog

/-- **`bmap`**, below the doubly indirect blocks: besides the block that it returns, it logs the bitmap
    and the indirect block. -/
theorem bmap_grows {l : Nat} (hsize : t.fs.sb.size ≤ BITPB) (hl : l < NDIRECT + NINDIRECT) :
    ∃ a u, bmap t i l = .ok (a, u) ∧ Grows i [a] t u := by
  unfold bmap
  dsimp only
  by_cases hdir : l < NDIRECT
  · rw [if_pos hdir]
    exact ⟨_, _, rfl, slotBlock_grows hsize (Nat.ne_of_lt hdir) rfl⟩
  · rw [if_neg hdir, if_pos (by omega)]
    rcases hslot : slotBlock t i NDIRECT with ⟨b, u⟩
    obtain ⟨hzero, hrest⟩ := slotBlock_table hsize hslot
    cases b with
    | zero => exact ⟨0, u, rfl, hzero⟩
    | succ n =>
      obtain ⟨hu, htable⟩ := hrest (Nat.succ_ne_zero n)
      have hsize' : u.fs.sb.size ≤ BITPB := by rwa [hu.sb]
      exact ⟨_, _, rfl, hu.trans (entryBlock_grows hsize' (Nat.succ_ne_zero n) htable rfl)⟩

/-- The blocks that the bytes from `total` on of a write are in. -/
def span (offset nbytes total : Nat) : Nat :=
  if total < nbytes then (offset + nbytes - 1) / BLKSIZE + 1 - (offset + total) / BLKSIZE else 0

/-- A turn of the loop writes to the end of its block, or to the end. -/
theorem span_step (offset : Nat) {nbytes total : Nat} (h : total < nbytes) :
    span offset nbytes (total + min (nbytes - total) (BLKSIZE - (offset + total) % BLKSIZE)) + 1 ≤
      span offset nbytes total := by
  have hmono : (offset + total) / BLKSIZE ≤ (offset + nbytes - 1) / BLKSIZE :=
    Nat.div_le_div_right (by omega)
  unfold span
  rw [if_pos h]
  split
  · unfold BLKSIZE at *
    omega
  · omega

/-- **The loop of `writei`** logs one more block for each block that it writes to. -/
theorem writeLoop_grows (src : Nat → BitVec 8) {offset nbytes : Nat}
    (hend : offset + nbytes ≤ MAXFILESIZ) (fuel total : Nat) (hsize : t.fs.sb.size ≤ BITPB) :
    ∃ D u, writeLoop src i offset nbytes fuel total t = .ok u ∧ Grows i D t u ∧
      D.length ≤ span offset nbytes total := by
  induction fuel generalizing total t with
  | zero => exact ⟨[], t, rfl, .refl i t, Nat.zero_le _⟩
  | succ fuel ih =>
    unfold writeLoop
    by_cases hlt : total < nbytes
    · rw [if_pos hlt]
      dsimp only
      have hl : (offset + total) / BLKSIZE < NDIRECT + NINDIRECT := by
        rw [Nat.div_lt_iff_lt_mul (by decide), ← Inode.MAXFILESIZ_eq]
        omega
      obtain ⟨a, u, hmap, hu⟩ := bmap_grows (i := i) hsize hl
      rw [hmap]
      dsimp only
      have hdata : Grows i [a, a] t ((u.onFs fun s => setBlock s a (memmove (s.disk a)
          ((offset + total) % BLKSIZE) (fun k => src (total + k))
          (min (nbytes - total) (BLKSIZE - (offset + total) % BLKSIZE)))).logWrite a) :=
        (hu.onFs rfl rfl).logWrite a
      have hone := hdata.mono (E := [a]) (by simp)
      obtain ⟨D, v, hrest, hv, hD⟩ := ih (total + min (nbytes - total)
        (BLKSIZE - (offset + total) % BLKSIZE)) (t := (u.onFs fun s => setBlock s a (memmove (s.disk a)
          ((offset + total) % BLKSIZE) (fun k => src (total + k))
          (min (nbytes - total) (BLKSIZE - (offset + total) % BLKSIZE)))).logWrite a)
        (by rwa [hone.sb])
      refine ⟨[a] ++ D, v, hrest, hone.trans hv, ?_⟩
      have hspan := span_step offset hlt
      simp only [List.length_append, List.length_singleton]
      omega
    · rw [if_neg hlt]
      exact ⟨[], t, rfl, .refl i t, Nat.zero_le _⟩

/-- **What a round of `file_write` logs**: the bitmap, the indirect block, the blocks that it writes to,
    and the block of the inode. -/
theorem writei_grows (src : Nat → BitVec 8) {offset nbytes : BitVec 32}
    (hsize : t.fs.sb.size ≤ BITPB) (hsiz : (t.fs.body i).fileSiz ≤ MAXFILESIZ)
    (hn : nbytes.toNat ≤ maxbytes) :
    ∃ D r u, writei t i src offset nbytes = .ok (r, u) ∧ Grows i D t u ∧ D.length ≤ 20 := by
  unfold writei
  dsimp only
  split
  · cases (if NDEV ≤ (t.fs.body i).major then none
      else (t.fs.devStructs (t.fs.body i).major).write) with
    | none => exact ⟨[], _, t, rfl, .refl i t, by simp⟩
    | some write => exact ⟨[], _, t, rfl, .refl i t, by simp⟩
  split
  · exact ⟨[], _, t, rfl, .refl i t, by simp⟩
  · next hoff =>
    obtain ⟨hoff, -⟩ := not_or.1 hoff
    have hle : offset.toNat ≤ MAXFILESIZ := Nat.le_trans (Nat.le_of_not_lt hoff) hsiz
    have hmax : MAXFILESIZ = 4239360 := by decide
    have hmaxbytes : maxbytes = 73728 := by decide
    -- the write is cut off where the file may end
    obtain ⟨n, hcut, hend, hshort⟩ : ∃ n, (if MAXFILESIZ < (offset.toNat + nbytes.toNat) % 2 ^ 32 then
        (MAXFILESIZ + 2 ^ 32 - offset.toNat) % 2 ^ 32 else nbytes.toNat) = n ∧
        offset.toNat + n ≤ MAXFILESIZ ∧ n ≤ maxbytes := by
      refine ⟨_, rfl, ?_, ?_⟩
      · split
        · omega
        · omega
      · split
        · omega
        · omega
    rw [hcut]
    obtain ⟨D, u, hloop, hu, hD⟩ := writeLoop_grows src hend n 0 (i := i) hsize
    have hspan : span offset.toNat n 0 ≤ 19 := by
      unfold span BLKSIZE
      split
      · omega
      · omega
    rw [hloop]
    dsimp only
    split
    · have hinode := ((hu.onFs (f := fun s => setBody s i { s.body i with
        fileSiz := offset.toNat + n }) rfl (by simp [setBody, Tx.table])).onFs
        (f := (Inode.iupdate · i)) rfl rfl).logWrite
          (IBLOCK (u.fs.icache.inode i).ino u.fs.sb)
      exact ⟨_, _, _, rfl, hinode, by simp only [List.length_cons]; omega⟩
    · exact ⟨D, _, u, rfl, hu, by omega⟩

/-- The blocks of a transaction that only writes. -/
theorem Grows.card (h : Grows i D t u) (hempty : t.logged = []) :
    u.logged.toFinset.card ≤ D.length + 2 := by
  have hsub : u.logged.toFinset ⊆ insert t.fs.sb.bitmapStart (insert (u.table i) D.toFinset) := by
    intro b hb
    rcases h.logged b (List.mem_toFinset.1 hb) with hb | rfl | ⟨-, rfl⟩ | hb
    · rw [hempty] at hb
      cases hb
    · exact Finset.mem_insert_self ..
    · exact Finset.mem_insert_of_mem (Finset.mem_insert_self ..)
    · exact Finset.mem_insert_of_mem (Finset.mem_insert_of_mem (List.mem_toFinset.2 hb))
  calc u.logged.toFinset.card
      ≤ (insert t.fs.sb.bitmapStart (insert (u.table i) D.toFinset)).card := Finset.card_le_card hsub
    _ ≤ (insert (u.table i) D.toFinset).card + 1 := Finset.card_insert_le ..
    _ ≤ D.toFinset.card + 1 + 1 := Nat.add_le_add_right (Finset.card_insert_le ..) 1
    _ ≤ D.length + 2 := Nat.add_le_add_right (List.toFinset_card_le D) 2

end Write

/-! ## §4 What freeing an inode logs -/

/-- A file system with one bitmap block: the superblock in memory is the one on disk, no file is larger
    than a write can make it, and inodes name data blocks only, which are behind the bitmap. -/
structure OneBitmap (s : FileSys) : Prop where
  size : s.sb.size ≤ BITPB
  super : superblockOf (s.disk 1) = s.sb
  start : 1 < s.sb.bitmapStart
  sizes : ∀ i, (s.body i).fileSiz ≤ MAXFILESIZ
  data : ∀ i π, stored s i π ≠ 0 → s.sb.bitmapStart < stored s i π ∧ stored s i π < s.sb.size

/-- While inode `i` of `s` is freed: superblock and inode structures are as before, block numbers are as
    before or cleared, and only the bitmap was logged. -/
structure Freeing (s : FileSys) (i : Nat) (t : Tx) : Prop where
  sb : t.fs.sb = s.sb
  super : t.fs.disk 1 = s.disk 1
  icache : t.fs.icache = s.icache
  addrs : ∀ k, (t.fs.body i).blkAddrs k = (s.body i).blkAddrs k ∨ (t.fs.body i).blkAddrs k = 0
  words : ∀ b, b ≠ s.sb.bitmapStart → ∀ j,
    word (t.fs.disk b) j = word (s.disk b) j ∨ word (t.fs.disk b) j = 0
  logged : ∀ b ∈ t.logged, b = s.sb.bitmapStart

section Free

variable {s : FileSys} {t : Tx} {i a b : Nat}

/-- A block that holds block numbers in range: it is not the bitmap, and not the superblock. -/
structure Table (s : FileSys) (b : Nat) : Prop where
  above : s.sb.bitmapStart < b
  entries : ∀ j < NINDIRECT, word (s.disk b) j ≠ 0 → word (s.disk b) j < s.sb.size

theorem Freeing.bfree (h : OneBitmap s) (hf : Freeing s i t) (ha : a < s.sb.size) :
    Freeing s i (bfree t a) := by
  have hsb : superblockOf (t.fs.disk 1) = s.sb := by rw [hf.super, h.super]
  have hbit := BITBLOCK_one s.sb (Nat.lt_of_lt_of_le ha h.size)
  unfold Logged.bfree
  dsimp only [Tx.onFs, readSuperblock]
  rw [hsb]
  split
  · -- the bit is cleared, and the bitmap is logged
    rw [hbit]
    have hdisk : ∀ b, b ≠ s.sb.bitmapStart → (setBit { t.fs with sb := s.sb } a
        (· &&& ~~~ byter (a % BITPB))).disk b = t.fs.disk b := by
      intro b hb
      simp [setBit, setBlock, hbit, hb]
    refine ⟨rfl, ?_, hf.icache, hf.addrs, ?_, ?_⟩
    · exact (hdisk 1 (Nat.ne_of_lt h.start)).trans hf.super
    · intro b hb j
      rw [Tx.logWrite, hdisk b hb]
      exact hf.words b hb j
    · intro b hb
      rcases List.mem_cons.1 hb with rfl | hb
      · rfl
      · exact hf.logged b hb
  · exact ⟨rfl, hf.super, hf.icache, hf.addrs, hf.words, hf.logged⟩

theorem Freeing.setAddr (hf : Freeing s i t) (k : Nat) :
    Freeing s i (t.onFs (Inode.setAddr · i k 0)) := by
  refine ⟨hf.sb, hf.super, hf.icache, fun m => ?_, hf.words, hf.logged⟩
  by_cases hm : m = k
  · exact Or.inr (by simp [Tx.onFs, Inode.setAddr, setBody, hm])
  · simpa [Tx.onFs, Inode.setAddr, setBody, hm] using hf.addrs m

theorem Freeing.freeEntries (h : OneBitmap s) (hf : Freeing s i t) (hb : Table s b) :
    Freeing s i (freeEntries t b) := by
  unfold Logged.freeEntries
  refine List.foldlRecOn _ _ hf fun t hf j hj => ?_
  unfold freeEntry
  dsimp only
  split
  · next hne =>
    apply hf.bfree h
    -- the entry is the one that was there at first
    have hword := (hf.words b (Nat.ne_of_gt hb.above) j).resolve_right hne
    rw [hword] at hne ⊢
    exact hb.entries j (List.mem_range.1 hj) hne
  · exact hf

/-- An entry of the doubly indirect block is cleared. -/
theorem Freeing.clearEntry (h : OneBitmap s) (hf : Freeing s i t) (hb : s.sb.bitmapStart < b) (j : Nat) :
    Freeing s i (t.onFs fun s => setBlock s b (setWord (s.disk b) j 0)) := by
  refine ⟨hf.sb, ?_, hf.icache, hf.addrs, fun c hc k => ?_, hf.logged⟩
  · have hb1 : 1 ≠ b := Nat.ne_of_lt (Nat.lt_trans h.start hb)
    exact (Function.update_of_ne hb1 _ _).trans hf.super
  · dsimp only [Tx.onFs, setBlock]
    by_cases hcb : c = b
    · subst hcb
      rw [Function.update_self]
      by_cases hkj : k = j
      · subst hkj
        exact Or.inr (Inode.word_setWord (by decide))
      · rw [Inode.word_setWord_of_ne hkj]
        exact hf.words c hc k
    · rw [Function.update_of_ne hcb]
      exact hf.words c hc k

theorem Freeing.freeTable (h : OneBitmap s) (hf : Freeing s i t) (hb : Table s b) {j : Nat}
    (hj : j < NINDIRECT)
    (htable : word (s.disk b) j ≠ 0 → Table s (word (s.disk b) j)) :
    Freeing s i (freeTable b t j) := by
  unfold Logged.freeTable
  dsimp only
  split
  · exact hf
  · next hne =>
    have hword := (hf.words b (Nat.ne_of_gt hb.above) j).resolve_right hne
    rw [hword] at hne ⊢
    have hfree := (hf.freeEntries h (htable hne)).bfree h (hb.entries j hj hne)
    exact hfree.clearEntry h hb.above j

theorem Freeing.freeTables (h : OneBitmap s) (hf : Freeing s i t) (hb : Table s b)
    (htables : ∀ j < NINDIRECT, word (s.disk b) j ≠ 0 → Table s (word (s.disk b) j)) :
    Freeing s i (freeTables t b) := by
  unfold Logged.freeTables
  refine List.foldlRecOn _ _ hf fun t hf j hj => ?_
  have hj := List.mem_range.1 hj
  exact hf.freeTable h hb hj (htables j hj)

/-- The blocks that inode `i` names in its slots. -/
theorem OneBitmap.slot (h : OneBitmap s) {k : Nat} (hk : k < NDIRECT + 2)
    (h0 : (s.body i).blkAddrs k ≠ 0) :
    s.sb.bitmapStart < (s.body i).blkAddrs k ∧ (s.body i).blkAddrs k < s.sb.size :=
  h.data i (.slot ⟨k, hk⟩) h0

theorem OneBitmap.indirect (h : OneBitmap s) (h0 : (s.body i).blkAddrs NDIRECT ≠ 0) :
    Table s ((s.body i).blkAddrs NDIRECT) := by
  refine ⟨(h.slot (by decide) h0).1, fun j hj hne => ?_⟩
  have hstored : stored s i (.ind ⟨j, hj⟩) = word (s.disk ((s.body i).blkAddrs NDIRECT)) j := if_neg h0
  rw [← hstored] at hne ⊢
  exact (h.data i _ hne).2

theorem OneBitmap.double (h : OneBitmap s) (h0 : (s.body i).blkAddrs (NDIRECT + 1) ≠ 0) :
    Table s ((s.body i).blkAddrs (NDIRECT + 1)) ∧ ∀ j < NINDIRECT,
      word (s.disk ((s.body i).blkAddrs (NDIRECT + 1))) j ≠ 0 →
        Table s (word (s.disk ((s.body i).blkAddrs (NDIRECT + 1))) j) := by
  have hdbl : ∀ j (hj : j < NINDIRECT), stored s i (.dbl ⟨j, hj⟩) =
      word (s.disk ((s.body i).blkAddrs (NDIRECT + 1))) j := fun j hj => if_neg h0
  refine ⟨⟨(h.slot (by decide) h0).1, fun j hj hne => ?_⟩, fun j hj hne => ⟨?_, fun z hz hnez => ?_⟩⟩
  · rw [← hdbl j hj] at hne ⊢
    exact (h.data i _ hne).2
  · rw [← hdbl j hj] at hne ⊢
    exact (h.data i _ hne).1
  · have hleaf : stored s i (.leaf ⟨j, hj⟩ ⟨z, hz⟩) =
        word (s.disk (word (s.disk ((s.body i).blkAddrs (NDIRECT + 1))) j)) z := by
      have hmid := hdbl j hj
      dsimp only [stored] at hmid ⊢
      rw [hmid]
      exact if_neg hne
    rw [← hleaf] at hnez ⊢
    exact (h.data i _ hnez).2

theorem Freeing.freeDirect (h : OneBitmap s) (hf : Freeing s i t) : Freeing s i (freeDirect t i) := by
  unfold Logged.freeDirect
  refine List.foldlRecOn _ _ hf fun t hf j hj => ?_
  unfold freeSlot
  dsimp only
  split
  · next hne =>
    have haddr := (hf.addrs j).resolve_right hne
    rw [haddr] at hne ⊢
    have hj : j < NDIRECT := List.mem_range.1 hj
    exact (hf.bfree h (h.slot (by omega) hne).2).setAddr j
  · exact hf

theorem Freeing.freeIndirect (h : OneBitmap s) (hf : Freeing s i t) :
    Freeing s i (freeIndirect t i) := by
  unfold Logged.freeIndirect
  dsimp only
  split
  · next hne =>
    have haddr := (hf.addrs NDIRECT).resolve_right hne
    rw [haddr] at hne ⊢
    exact ((hf.freeEntries h (h.indirect hne)).bfree h (h.slot (by decide) hne).2).setAddr NDIRECT
  · exact hf

theorem Freeing.freeDouble (h : OneBitmap s) (hf : Freeing s i t) : Freeing s i (freeDouble t i) := by
  unfold Logged.freeDouble
  dsimp only
  split
  · next hne =>
    have haddr := (hf.addrs (NDIRECT + 1)).resolve_right hne
    rw [haddr] at hne ⊢
    obtain ⟨htable, htables⟩ := h.double hne
    exact ((hf.freeTables h htable htables).bfree h (h.slot (by decide) hne).2).setAddr (NDIRECT + 1)
  · exact hf

/-- What `iupdate` logs, and what it leaves alone. -/
theorem iupdate_logged (t : Tx) (i : Nat) : (iupdate t i).fs.sb = t.fs.sb ∧
    (iupdate t i).fs.icache = t.fs.icache ∧
    (iupdate t i).logged = IBLOCK (t.fs.icache.inode i).ino t.fs.sb :: t.logged := ⟨rfl, rfl, rfl⟩

theorem ifree_logged (h : OneBitmap s) (i : Nat) : (ifree ⟨s, []⟩ i).fs.sb = s.sb ∧
    (ifree ⟨s, []⟩ i).fs.icache = s.icache ∧ ∀ b ∈ (ifree ⟨s, []⟩ i).logged,
      b = s.sb.bitmapStart ∨ b = IBLOCK (s.icache.inode i).ino s.sb := by
  have hstart : Freeing s i ⟨s, []⟩ :=
    ⟨rfl, rfl, rfl, fun _ => Or.inl rfl, fun _ _ _ => Or.inl rfl, by simp⟩
  have hf := ((hstart.freeDirect h).freeIndirect h).freeDouble h
  unfold ifree
  generalize freeDouble (freeIndirect (freeDirect ⟨s, []⟩ i) i) i = t at hf
  obtain ⟨hsb, hicache, hlog⟩ := iupdate_logged (t.onFs fun s => setBody s i { s.body i with
    fileSiz := 0 }) i
  refine ⟨hsb.trans hf.sb, hicache.trans hf.icache, fun b hb => ?_⟩
  rw [hlog] at hb
  rcases List.mem_cons.1 hb with rfl | hb
  · right
    dsimp only [Tx.onFs, setBody]
    rw [hf.icache, hf.sb]
  · exact Or.inl (hf.logged b hb)

/-- **Freeing an inode** logs the bitmap and the block of the inode. -/
theorem iputFree_logged (h : OneBitmap s) (i : Nat) : ∀ b ∈ (iputFree ⟨s, []⟩ i).logged,
    b = s.sb.bitmapStart ∨ b = IBLOCK (s.icache.inode i).ino s.sb := by
  obtain ⟨hsb, hicache, hlog⟩ := ifree_logged h i
  unfold iputFree
  dsimp only
  generalize ifree ⟨s, []⟩ i = t at hsb hicache hlog
  split
  · intro b hb
    rw [(iupdate_logged _ i).2.2] at hb
    rcases List.mem_cons.1 hb with rfl | hb
    · right
      simp [Tx.onFs, Dir.setNode, hsb]
    · exact hlog b hb
  · intro b hb
    cases hb

end Free

/-! ## §5 Transactions -/

section Transactions

variable {s : FileSys} {i : Nat}

/-- **No transaction exceeds its reservation**: neither a round of `file_write`, wherever in the file it
    starts, nor the `iput` that frees an inode, however large its file is. -/
theorem transaction_fits (h : OneBitmap s) (i : Nat) :
    (∀ src offset nbytes, nbytes.toNat ≤ maxbytes → ∃ r t,
      writei ⟨s, []⟩ i src offset nbytes = .ok (r, t) ∧ t.logged.toFinset.card ≤ MAXOPBLOCKS) ∧
    (iputFree ⟨s, []⟩ i).logged.toFinset.card ≤ MAXOPBLOCKS := by
  constructor
  · intro src offset nbytes hn
    obtain ⟨D, r, t, hok, hgrows, hD⟩ := writei_grows src (t := ⟨s, []⟩) h.size (h.sizes i) hn
    have hcard := hgrows.card rfl
    have hmax : MAXOPBLOCKS = 40 := rfl
    exact ⟨r, t, hok, by omega⟩
  · have hsub : (iputFree ⟨s, []⟩ i).logged.toFinset ⊆
        {s.sb.bitmapStart, IBLOCK (s.icache.inode i).ino s.sb} := by
      intro b hb
      rcases iputFree_logged h i b (List.mem_toFinset.1 hb) with rfl | rfl
      · exact Finset.mem_insert_self ..
      · exact Finset.mem_insert_of_mem (Finset.mem_singleton_self _)
    calc (iputFree ⟨s, []⟩ i).logged.toFinset.card
        ≤ ({s.sb.bitmapStart, IBLOCK (s.icache.inode i).ino s.sb} : Finset Nat).card :=
          Finset.card_le_card hsub
      _ ≤ 2 := Finset.card_le_two
      _ ≤ MAXOPBLOCKS := by decide

/-- A file system as `mkfs` leaves it has one bitmap block. -/
theorem oneBitmap_of_fsInv (h : FsInv s) : OneBitmap s where
  size := by
    rw [h.sb]
    decide
  super := h.super.trans h.sb.symm
  start := by
    rw [h.sb]
    decide
  sizes := h.sizes
  data i π hne := by
    rw [h.sb]
    exact (h.owned i π hne).1

/-- A full round across block ends, and the root directory given back. -/
theorem transaction_fits_mkfsRoot :
    (∃ r t, writei ⟨Inode.mkfsRoot, []⟩ 0 (fun _ => 1) 4090 73728 = .ok (r, t) ∧
      t.logged.toFinset.card ≤ MAXOPBLOCKS) ∧
    (iputFree ⟨Inode.mkfsRoot, []⟩ 0).logged.toFinset.card ≤ MAXOPBLOCKS := by
  have hfits := transaction_fits (oneBitmap_of_fsInv Inode.mkfsRoot_fsInv) 0
  exact ⟨hfits.1 _ _ _ (by decide), hfits.2⟩

/-! ## §6 Runs -/

/-- The transactions: rounds of `file_write`, and `iput`. -/
inductive TxOp where
  | write (i : Nat) (src : Nat → BitVec 8) (offset nbytes : BitVec 32)
  | iput (i : Nat)

/-- A transaction on the file system, and the blocks that it logs. -/
def transaction (s : FileSys) : TxOp → Except Fault Tx
  | .write i src offset nbytes => (writei ⟨s, []⟩ i src offset nbytes).map Prod.snd
  | .iput i => .ok (iputFree ⟨s, []⟩ i)

def step (s : FileSys) (o : TxOp) : Except Fault FileSys := (transaction s o).map Tx.fs

/-- A round of `file_write` has at most `maxbytes` bytes. -/
def TxOp.Round : TxOp → Prop
  | .write _ _ _ nbytes => nbytes.toNat ≤ maxbytes
  | .iput _ => True

/-- `iput` keeps the invariant of the file system. -/
theorem fsInv_iputFree (h : FsInv s) (i : Nat) : FsInv (Dir.iputFree s i) := by
  unfold Dir.iputFree
  dsimp only
  split
  · obtain ⟨hfree, -⟩ := h.ifree i
    have hinode : (Inode.ifree s i).icache = s.icache := by
      rw [← ifree_fs ⟨s, []⟩ i]
      exact (ifree_logged (oneBitmap_of_fsInv h) i).2.1
    generalize Inode.ifree s i = u at hfree hinode
    have hnode : FsInv (Dir.setNode u i { s.icache.inode i with type := 0 }) := by
      refine ⟨hfree.sb, hfree.super, hfree.marked, fun y => ?_, hfree.sizes, hfree.owned⟩
      by_cases hy : y = i
      · subst hy
        simpa [Dir.setNode] using h.inos y
      · simpa [Dir.setNode, hy] using hfree.inos y
    exact (hnode.iupdate i).1
  · exact h

/-- **Every transaction of a run fits**: from a file system as `mkfs` leaves it, in any order. -/
theorem fits_of_run (hs : FsInv s) {os : List TxOp} (hos : Meets step (fun _ o => o.Round) s os) :
    Along step (fun s o _ => ∀ t, transaction s o = .ok t → t.logged.toFinset.card ≤ MAXOPBLOCKS)
      s os := by
  refine along_of_meets FsInv (fun s o h hround => ?_) hs hos
  have hfits := transaction_fits (oneBitmap_of_fsInv h)
  cases o with
  | write i src offset nbytes =>
    obtain ⟨r, t, hok, hcard⟩ := (hfits i).1 src offset nbytes hround
    have htx : transaction s (.write i src offset nbytes) = .ok t := by
      simp only [transaction, hok]
      rfl
    -- the file system is the one that the write without the log leaves
    obtain ⟨r', s', hw, h'⟩ := h.writei i src offset nbytes
    have hsim := writei_fs ⟨s, []⟩ i src offset nbytes
    rw [hok, hw] at hsim
    obtain ⟨-, rfl⟩ := Prod.mk.inj (Except.ok.inj hsim)
    refine ⟨t.fs, by simp only [step, htx]; rfl, fun u hu => ?_, h'⟩
    obtain rfl := Except.ok.inj (htx.symm.trans hu)
    exact hcard
  | iput i =>
    refine ⟨_, rfl, fun u hu => ?_, ?_⟩
    · obtain rfl := Except.ok.inj hu
      exact (hfits i).2
    · rw [iputFree_fs]
      exact fsInv_iputFree h i

end Transactions

end WeiOS.Logged
