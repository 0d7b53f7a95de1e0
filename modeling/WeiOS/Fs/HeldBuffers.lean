import Mathlib
import WeiOS.Lib.Ledger
import WeiOS.Fs.Inode
import WeiOS.Fs.InodeCache
import WeiOS.Fs.Directory

/-!
# Buffers and Locks that a Call Holds

The block allocator of `kern/bio.c` and the block layer of `kern/inode.c` again, now with the buffers
that are `B_BUSY` and the spinlocks. The ledger has what the calling process holds; for what another
process holds a call waits until it is free. What the calls do to the disk and to the inodes is stated
with the functions of the block store.

A call that takes what it holds already waits for itself and does not return.

## Main definitions
- `Sys`, `SysM`: the system, and programs over it with the ledger.
- `balloc`, `bfree`, `bmap`, `readi`, `writei`, `iget`, `ialloc`, `iupdate`, `ifree`: the calls.
-/

set_option linter.style.nameCheck false

namespace WeiOS.Held

open WeiOS.Lib WeiOS.Lib.Taker
open WeiOS.Inode (FileSys Block BLKSIZE NDIRECT NINDIRECT NDINDIRECT NDEV T_DEV E_BAD_DEV E_BAD_OFFSET
  MAXFILESIZ BITPB IBLOCK BITBLOCK word setWord setBlock setBody setAddr findClear setBit bitSet byter memmove)
open WeiOS.InodeCache (Icache igetFinds igetHit igetMiss)

/-! ## §1 The state -/

inductive Lock where
  | blkCache
  | ide
  | log
  | icache
  deriving DecidableEq

/-- What a call can hold: the buffer of a block, and a spinlock. -/
inductive Res where
  | buf (b : Nat)
  | lock (l : Lock)
  deriving DecidableEq

/-- The file system; the number in memory before the data of a buffer; whether the log has room and a
    transaction is open; and the drivers that answer a read of so many bytes. -/
structure Sys where
  fs : FileSys
  wild : Nat → Nat
  logOpen : Bool
  devRead : Nat → Option (Nat → Int)

abbrev SysM := Taker Sys Res

/-- What a function of the block store does to the system. -/
def onFs (f : FileSys → α × FileSys) (s : Sys) : α × Sys := ((f s.fs).1, { s with fs := (f s.fs).2 })

def liftFs (f : FileSys → FileSys) (s : Sys) : Sys := { s with fs := f s.fs }

def modifyFs (f : FileSys → FileSys) : SysM Unit := change (liftFs f)

theorem liftFs_liftFs (f g : FileSys → FileSys) (s : Sys) :
    liftFs g (liftFs f s) = liftFs (fun fs => g (f fs)) s := by
  cases s
  rfl

theorem onFs_fst (f : FileSys → α × FileSys) (s : Sys) : (onFs f s).1 = (f s.fs).1 := by
  rw [onFs]

theorem onFs_snd (f : FileSys → α × FileSys) (s : Sys) :
    (onFs f s).2 = liftFs (fun fs => (f fs).2) s := by
  cases s
  rfl

/-! ## §2 Buffers -/

/-- `getblk`. Where it sleeps, for a buffer that another process holds or until a buffer is free, it goes on
    when there is one; for a buffer of its own a process sleeps for good. -/
def getblk (b : Nat) : SysM Unit := do
  take (.lock .blkCache)
  take (.buf b)
  give (.lock .blkCache)

/-- `ide_read_write`, as far as its lock goes. -/
def ideReadWrite : SysM Unit := do
  take (.lock .ide)
  give (.lock .ide)

/-- `bread`; a buffer that is valid is not read again, which makes no difference here. -/
def bread (b : Nat) : SysM Unit := do
  getblk b
  ideReadWrite

/-- `brelse`. -/
def brelse (b : Nat) : SysM Unit := do
  take (.lock .blkCache)
  give (.buf b)
  give (.lock .blkCache)

/-- `log_write`, as far as its lock goes. -/
def logWrite : SysM Unit := do
  -- the checks for room and for an open transaction come before the lock
  if (← look).logOpen then
    take (.lock .log)
    give (.lock .log)
  else pure ()

/-- `read_superblock`. -/
def readSuperblock : SysM Unit := do
  bread 1
  modifyFs fun fs => Inode.readSuperblock fs
  brelse 1

/-- `bzero`. -/
def bzero (blkno : Nat) : SysM Unit := do
  bread blkno
  modifyFs fun fs => Inode.bzero fs blkno
  logWrite
  brelse blkno

/-- The loop of `balloc` over the bitmap blocks with these numbers. -/
def ballocFrom : List Nat → SysM Nat
  | [] => pure 0
  | k :: ks => do
    let fs := (← look).fs
    let b := BITBLOCK (k * BITPB) fs.sb
    bread b
    match findClear fs (k * BITPB) with
    | some a => do
      modifyFs fun fs => setBit fs a (· ||| byter (a % BITPB))
      logWrite
      brelse b
      bzero a
      pure a
    | none => do
      brelse b
      ballocFrom ks

/-- `balloc`. -/
def balloc : SysM Nat := do
  let fs := (← look).fs
  ballocFrom (List.range ((fs.sb.size + BITPB - 1) / BITPB))

/-- `bfree`; for a block that is free already it returns with the buffer of the bitmap. -/
def bfree (blkno : Nat) : SysM Int := do
  readSuperblock
  let fs := (← look).fs
  let b := BITBLOCK blkno fs.sb
  bread b
  if bitSet (fs.disk b) (blkno % BITPB) then do
    modifyFs fun fs => setBit fs blkno (· &&& ~~~ byter (blkno % BITPB))
    logWrite
    brelse b
    pure 0
  else
    -- `return -1` before `brelse`
    pure (-1)

/-! ## §3 Inodes -/

def setIcache (c : Icache) (s : Sys) : Sys := liftFs (fun fs => { fs with icache := c }) s

/-- `iget`; without a free structure it returns 0 and keeps the lock. -/
def iget (dev ino : Nat) : SysM (Option Nat) := do
  take (.lock .icache)
  let c := (← look).fs.icache
  match igetFinds c dev ino with
  | some i => do
    change (setIcache (igetHit c i))
    give (.lock .icache)
    pure (some i)
  | none =>
    match c.freeList with
    -- `return 0` before the unlock
    | [] => pure none
    | i :: rest => do
      change (setIcache (igetMiss c i rest dev ino))
      give (.lock .icache)
      pure (some i)

/-- The loop of `ialloc` over these inode numbers. -/
def iallocFrom (dev type : Nat) : List Nat → SysM (Option Nat)
  | [] => pure none
  | ino :: inos => do
    let fs := (← look).fs
    let b := IBLOCK ino fs.sb
    bread b
    if Dir.dType fs ino = 0 then do
      modifyFs fun fs => Dir.clearDInode fs ino type
      logWrite
      brelse b
      iget dev ino
    else do
      brelse b
      iallocFrom dev type inos

/-- `ialloc`. -/
def ialloc (dev type : Nat) : SysM (Option Nat) := do
  let fs := (← look).fs
  iallocFrom dev type (List.range' 1 (fs.sb.inodeBlks - 1))

/-- `iupdate`. -/
def iupdate (i : Nat) : SysM Unit := do
  let fs := (← look).fs
  let b := IBLOCK (fs.icache.inode i).ino fs.sb
  bread b
  modifyFs fun fs => Inode.iupdate fs i
  logWrite
  brelse b

/-- The body of the first loop of `ifree`. -/
def freeSlot (i j : Nat) : SysM Unit := do
  let a := ((← look).fs.body i).blkAddrs j
  if a ≠ 0 then do
    let _ ← bfree a
    modifyFs fun fs => setAddr fs i j 0
  else pure ()

/-- The body of the loops of `ifree` over the entries of the table `blkno`. -/
def freeEntry (blkno j : Nat) : SysM Unit := do
  let a := word ((← look).fs.disk blkno) j
  if a ≠ 0 then do
    let _ ← bfree a
    pure ()
  else pure ()

/-- A table of `ifree` is read, the blocks in it are freed, and then the table itself. -/
def freeTableBlock (blkno : Nat) : SysM Unit := do
  bread blkno
  loop (freeEntry blkno) (List.range NINDIRECT)
  brelse blkno
  let _ ← bfree blkno
  pure ()

/-- The part of `ifree` for the indirect block. -/
def freeIndirect (i : Nat) : SysM Unit := do
  let a := ((← look).fs.body i).blkAddrs NDIRECT
  if a ≠ 0 then do
    freeTableBlock a
    modifyFs fun fs => setAddr fs i NDIRECT 0
  else pure ()

/-- `entry2[j] = 0` in the buffer of the block `blkno`. -/
def clearEntry (blkno j : Nat) (fs : FileSys) : FileSys :=
  setBlock fs blkno (setWord (fs.disk blkno) j 0)

/-- The body of the loop of `ifree` over the doubly indirect block. -/
def freeTable (blkno j : Nat) : SysM Unit := do
  let a := word ((← look).fs.disk blkno) j
  if a ≠ 0 then do
    freeTableBlock a
    modifyFs (clearEntry blkno j)
  else pure ()

/-- The part of `ifree` for the doubly indirect block. -/
def freeDouble (i : Nat) : SysM Unit := do
  let a := ((← look).fs.body i).blkAddrs (NDIRECT + 1)
  if a ≠ 0 then do
    bread a
    loop (freeTable a) (List.range NINDIRECT)
    brelse a
    let _ ← bfree a
    modifyFs fun fs => setAddr fs i (NDIRECT + 1) 0
  else pure ()

/-- `ifree`. -/
def ifree (i : Nat) : SysM Unit := do
  loop (freeSlot i) (List.range NDIRECT)
  freeIndirect i
  freeDouble i
  modifyFs fun fs => setBody fs i { fs.body i with fileSiz := 0 }
  iupdate i

/-! ## §4 The blocks of a file -/

/-- `blk_addrs[k]`, with a new block if there is none; 0 if the disk is full. -/
def slotAddr (i k : Nat) : SysM Nat := do
  let addr := ((← look).fs.body i).blkAddrs k
  if addr ≠ 0 then pure addr
  else do
    let addr ← balloc
    if addr = 0 then pure 0
    else do
      modifyFs fun fs => setAddr fs i k addr
      pure addr

/-- An entry of the table `b`, which `get` reads and `set` writes, with a new block if there is none; if
    the disk is full, `bmap` returns 0 without `brelse`. -/
def tableEntry (b : Nat) (get : Sys → Nat) (set : Nat → Sys → Sys) : SysM Nat := do
  bread b
  let addr := get (← look)
  if addr ≠ 0 then do
    brelse b
    pure addr
  else do
    let addr ← balloc
    -- `return 0` before `brelse`
    if addr = 0 then pure 0
    else do
      change (set addr)
      logWrite
      brelse b
      pure addr

/-- Entry `j` of the table `b`. -/
def entryAddr (b j : Nat) : SysM Nat :=
  tableEntry b (fun s => word (s.fs.disk b) j)
    fun addr => liftFs fun fs => setBlock fs b (setWord (fs.disk b) j addr)

/-- The number before the data of the buffer of the table `b`. -/
def wildAddr (b : Nat) : SysM Nat :=
  tableEntry b (fun s => s.wild b) fun addr s => { s with wild := Function.update s.wild b addr }

/-- `bmap`. In the doubly indirect range the entry of the second table is `r - 1`, which for `r = 0` is the
    number before the table. -/
def bmap (i lblkno : Nat) : SysM Nat := do
  if lblkno < NDIRECT then slotAddr i lblkno
  else
    let lblkno := lblkno - NDIRECT
    if lblkno < NINDIRECT then do
      let b ← slotAddr i NDIRECT
      if b = 0 then pure 0 else entryAddr b lblkno
    else
      let lblkno := lblkno - NINDIRECT
      if lblkno < NDINDIRECT then do
        let n := lblkno / NINDIRECT
        let r := lblkno % NINDIRECT
        let b ← slotAddr i (NDIRECT + 1)
        if b = 0 then pure 0
        else do
          let b ← entryAddr b n
          if b = 0 then pure 0
          else if r = 0 then wildAddr b
          else entryAddr b (r - 1)
      else pure 0

/-- The check of `readi` and `writei`, and how many bytes each copies. -/
def BadOffset (fs : FileSys) (i offset nbytes : Nat) : Prop :=
  (fs.body i).fileSiz < offset ∨ (offset + nbytes) % 2 ^ 32 < offset

instance (fs : FileSys) (i offset nbytes : Nat) : Decidable (BadOffset fs i offset nbytes) :=
  inferInstanceAs (Decidable (_ ∨ _))

def readCount (fs : FileSys) (i offset nbytes : Nat) : Nat :=
  if (fs.body i).fileSiz < (offset + nbytes) % 2 ^ 32 then (fs.body i).fileSiz - offset else nbytes

def writeCount (offset nbytes : Nat) : Nat :=
  if MAXFILESIZ < (offset + nbytes) % 2 ^ 32 then (MAXFILESIZ + 2 ^ 32 - offset) % 2 ^ 32 else nbytes

/-- The loop of `readi`, from `total` on; a round reads at least one byte. -/
def readLoop (i offset nbytes : Nat) : Nat → Nat → Block → SysM Block
  | 0, _, dst => pure dst
  | fuel + 1, total, dst =>
    if total < nbytes then do
      let off := offset + total
      -- on a full disk this is block 0
      let b ← bmap i (off / BLKSIZE)
      bread b
      let rdbytes := min (nbytes - total) (BLKSIZE - off % BLKSIZE)
      let fs := (← look).fs
      brelse b
      readLoop i offset nbytes fuel (total + rdbytes)
        (memmove dst total (fun k => fs.disk b (off % BLKSIZE + k)) rdbytes)
    else pure dst

/-- `dev_structs[major]` answers with a number, if there is a driver. -/
def devCall (major : Nat) (driver : Nat → Option (Nat → Int)) (nbytes : Nat) : Int :=
  match if NDEV ≤ major then none else driver major with
  | none => -E_BAD_DEV
  | some call => call nbytes

/-- `readi`: what it returns, and the buffer. -/
def readi (i : Nat) (dst : Block) (offset nbytes : Nat) : SysM (Int × Block) := do
  let s ← look
  if (s.fs.icache.inode i).type = T_DEV then pure (devCall (s.fs.body i).major s.devRead nbytes, dst)
  else if BadOffset s.fs i offset nbytes then pure (-E_BAD_OFFSET, dst)
  else do
    let n := readCount s.fs i offset nbytes
    let dst ← readLoop i offset n n 0 dst
    pure ((n : Int), dst)

/-- The loop of `writei`, from `total` on. -/
def writeLoop (src : Nat → BitVec 8) (i offset nbytes : Nat) : Nat → Nat → SysM Unit
  | 0, _ => pure ()
  | fuel + 1, total =>
    if total < nbytes then do
      let off := (offset + total) % 2 ^ 32
      let b ← bmap i (off / BLKSIZE)
      bread b
      let wrbytes := min (nbytes - total) (BLKSIZE - off % BLKSIZE)
      modifyFs fun fs =>
        setBlock fs b (memmove (fs.disk b) (off % BLKSIZE) (fun k => src (total + k)) wrbytes)
      logWrite
      brelse b
      writeLoop src i offset nbytes fuel (total + wrbytes)
    else pure ()

/-- The end of `writei`. -/
def growFile (i offset : Nat) : SysM Unit := do
  let fs := (← look).fs
  if (fs.body i).fileSiz < offset then do
    modifyFs fun fs => setBody fs i { fs.body i with fileSiz := offset }
    iupdate i
  else pure ()

/-- `writei`: what it returns. -/
def writei (i : Nat) (src : Nat → BitVec 8) (offset nbytes : Nat) : SysM Int := do
  let fs := (← look).fs
  if (fs.icache.inode i).type = T_DEV then
    pure (devCall (fs.body i).major (fun major => (fs.devStructs major).write) nbytes)
  else if BadOffset fs i offset nbytes then pure (-E_BAD_OFFSET)
  else do
    let n := writeCount offset nbytes
    writeLoop src i offset n n 0
    growFile i ((offset + n) % 2 ^ 32)
    pure (n : Int)

end WeiOS.Held
