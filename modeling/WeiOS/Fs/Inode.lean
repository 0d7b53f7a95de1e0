import Mathlib
import WeiOS.Fs.InodeCache

/-!
# Inodes and Disk Blocks

The block allocator of `kern/bio.c` (`bzero`, `balloc`, `bfree`) and the part of `kern/inode.c` that
stores files in blocks: `iupdate`, `ifree`, `bmap` and `writei`. The layout of the disk is the one
that `lib/mkfs.c` writes.

The buffer cache is a coherent block store here: `disk` has the bytes of every block, and `bread`
gives them. An inode structure is an index, as in the inode cache; the fields that the cache does not
read are in `body`.
-/

namespace WeiOS.Inode

open WeiOS.InodeCache (Icache)

/-! ## §1 Layout -/

/-- `include/param.h`, `include/fs.h` and `lib/mkfs.c`; sizes are 32-bit numbers. -/
def BLKSIZE : Nat := 4096
def FSSIZE : Nat := 5000
def LOGSIZE : Nat := 120
def NINODES : Nat := 200
def NDEV : Nat := 10
def NDIRECT : Nat := 11
def NINDIRECT : Nat := BLKSIZE / 4
def NDINDIRECT : Nat := NINDIRECT * NINDIRECT
def MAXFILE : Nat := NDIRECT + NINDIRECT + NDINDIRECT

/-- `MAXFILE * BLKSIZE` is more than 4 GB, so what is left of it is the part below the doubly
    indirect blocks. -/
def MAXFILESIZ : Nat := MAXFILE * BLKSIZE % 2 ^ 32

/-- Inodes and bitmap bits per block. -/
def IPB : Nat := BLKSIZE / 64
def BITPB : Nat := BLKSIZE * 8

/-- Inode types (`include/file.h`). -/
def T_DIR : Nat := 1
def T_FILE : Nat := 2
def T_DEV : Nat := 3

/-- Error codes (`include/error.h`). -/
def E_BAD_DEV : Int := 9
def E_BAD_OFFSET : Int := 10

structure Superblock where
  size : Nat
  dataBlks : Nat
  inodeBlks : Nat
  logBlks : Nat
  logStart : Nat
  inodeStart : Nat
  bitmapStart : Nat
  deriving DecidableEq

def IBLOCK (ino : Nat) (sb : Superblock) : Nat := ino / IPB + sb.inodeStart
def BITBLOCK (b : Nat) (sb : Superblock) : Nat := b / BITPB + sb.bitmapStart

/-- The bytes of a block. -/
abbrev Block := Nat → BitVec 8

/-- Entry `j` of a block of 32-bit numbers, and a write to it. -/
def word (d : Block) (j : Nat) : Nat :=
  (d (4 * j)).toNat + 2 ^ 8 * (d (4 * j + 1)).toNat + 2 ^ 16 * (d (4 * j + 2)).toNat +
    2 ^ 24 * (d (4 * j + 3)).toNat

def setWord (d : Block) (j v : Nat) : Block := fun k =>
  if k / 4 = j then BitVec.ofNat 8 (v / 2 ^ (8 * (k % 4))) else d k

/-- The bytes of a block that starts with the numbers `ws`. -/
def blockOf (ws : List Nat) : Block := fun k =>
  BitVec.ofNat 8 (ws.getD (k / 4) 0 / 2 ^ (8 * (k % 4)))

/-- The fields of `struct inode` that the inode cache does not read. -/
structure Body where
  major : Nat
  minor : Nat
  fileSiz : Nat
  blkAddrs : Nat → Nat

/-- `dev_struct`; a device answers a write of so many bytes. -/
structure DevStruct where
  write : Option (Nat → Int)

/-- The file system in memory and on disk. -/
structure FileSys where
  sb : Superblock
  disk : Nat → Block
  icache : Icache
  body : Nat → Body
  devStructs : Nat → DevStruct

/-- What stops a call: an access outside a block. -/
inductive Fault where
  | outOfBlock
  deriving DecidableEq

/-! ## §2 Blocks -/

def setBlock (s : FileSys) (b : Nat) (d : Block) : FileSys :=
  { s with disk := Function.update s.disk b d }

/-- The superblock in the bytes of a block. -/
def superblockOf (d : Block) : Superblock :=
  ⟨word d 0, word d 1, word d 2, word d 3, word d 4, word d 5, word d 6⟩

/-- `read_superblock`: the superblock is in block 1. -/
def readSuperblock (s : FileSys) : FileSys := { s with sb := superblockOf (s.disk 1) }

/-- `bzero`. -/
def bzero (s : FileSys) (blkno : Nat) : FileSys := setBlock s blkno fun _ => 0

/-- `1 << (j % 8)`. -/
def byter (j : Nat) : BitVec 8 := 1#8 <<< (j % 8)

/-- Bit `j` of a bitmap block. -/
def bitSet (d : Block) (j : Nat) : Bool := d (j / 8) &&& byter j != 0

/-- The inner loop of `balloc`: the first clear bit of the bitmap block for the blocks from `i` on. -/
def findClear (s : FileSys) (i : Nat) : Option Nat :=
  ((List.range (min BITPB (s.sb.size - i))).find? fun j => !bitSet (s.disk (BITBLOCK i s.sb)) j).map
    (i + ·)

/-- Both loops of `balloc`; one bitmap block has the bits of `BITPB` blocks. -/
def findFree (s : FileSys) : Option Nat :=
  (List.range ((s.sb.size + BITPB - 1) / BITPB)).findSome? fun k => findClear s (k * BITPB)

/-- A write to the bit of block `b`. -/
def setBit (s : FileSys) (b : Nat) (f : BitVec 8 → BitVec 8) : FileSys :=
  let d := s.disk (BITBLOCK b s.sb)
  setBlock s (BITBLOCK b s.sb)
    (Function.update d (b % BITPB / 8) (f (d (b % BITPB / 8))))

/-- `balloc`. -/
def balloc (s : FileSys) : Nat × FileSys :=
  match findFree s with
  | none => (0, s)
  | some b => (b, bzero (setBit s b (· ||| byter (b % BITPB))) b)

/-- `bfree`; it returns -1 for a block that is free already. -/
def bfree (s : FileSys) (blkno : Nat) : Int × FileSys :=
  let s := readSuperblock s
  if bitSet (s.disk (BITBLOCK blkno s.sb)) (blkno % BITPB) then
    (0, setBit s blkno (· &&& ~~~ byter (blkno % BITPB)))
  else (-1, s)

/-! ## §3 Inodes -/

def setBody (s : FileSys) (i : Nat) (b : Body) : FileSys :=
  { s with body := Function.update s.body i b }

/-- `i->blk_addrs[k] = a`. -/
def setAddr (s : FileSys) (i k a : Nat) : FileSys :=
  setBody s i { s.body i with blkAddrs := Function.update (s.body i).blkAddrs k a }

/-- The 32-bit numbers of `struct d_inode`, as `iupdate` fills it in. -/
def dInode (s : FileSys) (i k : Nat) : Nat :=
  match k with
  | 0 => (s.icache.inode i).type + 2 ^ 16 * (s.body i).major
  | 1 => (s.body i).minor + 2 ^ 16 * (s.icache.inode i).nlink
  | 2 => (s.body i).fileSiz
  | k + 3 => (s.body i).blkAddrs k

/-- `iupdate`: the 16 numbers of the inode go to its place in the inode blocks. -/
def iupdate (s : FileSys) (i : Nat) : FileSys :=
  let ino := (s.icache.inode i).ino
  let b := IBLOCK ino s.sb
  setBlock s b
    ((List.range 16).foldl (fun d k => setWord d (16 * (ino % IPB) + k) (dInode s i k)) (s.disk b))

/-- The loop of `ifree` over the direct blocks. -/
def freeSlot (i : Nat) (s : FileSys) (j : Nat) : FileSys :=
  let a := (s.body i).blkAddrs j
  if a ≠ 0 then setAddr (bfree s a).2 i j 0 else s

def freeDirect (s : FileSys) (i : Nat) : FileSys := (List.range NDIRECT).foldl (freeSlot i) s

/-- The loop of `ifree` over the entries of an indirect block. -/
def freeEntry (blkno : Nat) (s : FileSys) (j : Nat) : FileSys :=
  let a := word (s.disk blkno) j
  if a ≠ 0 then (bfree s a).2 else s

def freeEntries (s : FileSys) (blkno : Nat) : FileSys :=
  (List.range NINDIRECT).foldl (freeEntry blkno) s

/-- The loop of `ifree` over the entries of a doubly indirect block. -/
def freeTable (blkno : Nat) (s : FileSys) (j : Nat) : FileSys :=
  let a := word (s.disk blkno) j
  if a = 0 then s
  else
    let s := (bfree (freeEntries s a) a).2
    setBlock s blkno (setWord (s.disk blkno) j 0)

def freeTables (s : FileSys) (blkno : Nat) : FileSys :=
  (List.range NINDIRECT).foldl (freeTable blkno) s

/-- The part of `ifree` for the indirect block, and the one for the doubly indirect block. -/
def freeIndirect (s : FileSys) (i : Nat) : FileSys :=
  let a := (s.body i).blkAddrs NDIRECT
  if a ≠ 0 then setAddr (bfree (freeEntries s a) a).2 i NDIRECT 0 else s

def freeDouble (s : FileSys) (i : Nat) : FileSys :=
  let a := (s.body i).blkAddrs (NDIRECT + 1)
  if a ≠ 0 then setAddr (bfree (freeTables s a) a).2 i (NDIRECT + 1) 0 else s

/-- `ifree`. -/
def ifree (s : FileSys) (i : Nat) : FileSys :=
  let s := freeDouble (freeIndirect (freeDirect s i) i) i
  iupdate (setBody s i { s.body i with fileSiz := 0 }) i

/-! ## §4 Blocks of a file -/

/-- `blk_addrs[k]`, with a new block if there is none; 0 if the disk is full. -/
def slotBlock (s : FileSys) (i k : Nat) : Nat × FileSys :=
  if (s.body i).blkAddrs k ≠ 0 then ((s.body i).blkAddrs k, s)
  else
    match balloc s with
    | (0, s) => (0, s)
    | (a, s) => (a, setAddr s i k a)

/-- Entry `j` of the block `b`, with a new block if there is none; 0 if the disk is full. -/
def entryBlock (s : FileSys) (b j : Nat) : Nat × FileSys :=
  if word (s.disk b) j ≠ 0 then (word (s.disk b) j, s)
  else
    match balloc s with
    | (0, s) => (0, s)
    | (a, s) => (a, setBlock s b (setWord (s.disk b) j a))

/-- `bmap`. Each of the three parts has the same two steps, a slot of the inode and entries of
    blocks. In the last one the entry of the second block is `r - 1`, which for `r = 0` is not in the
    block. -/
def bmap (s : FileSys) (i lblkno : Nat) : Except Fault (Nat × FileSys) :=
  if lblkno < NDIRECT then .ok (slotBlock s i lblkno)
  else
    let lblkno := lblkno - NDIRECT
    if lblkno < NINDIRECT then
      match slotBlock s i NDIRECT with
      | (0, s) => .ok (0, s)
      | (b, s) => .ok (entryBlock s b lblkno)
    else
      let lblkno := lblkno - NINDIRECT
      if lblkno < NDINDIRECT then
        match slotBlock s i (NDIRECT + 1) with
        | (0, s) => .ok (0, s)
        | (b, s) =>
          match entryBlock s b (lblkno / NINDIRECT) with
          | (0, s) => .ok (0, s)
          | (b, s) =>
            if lblkno % NINDIRECT = 0 then .error .outOfBlock
            else .ok (entryBlock s b (lblkno % NINDIRECT - 1))
      else .ok (0, s)

/-- `memmove` of `n` bytes to offset `off` of a block. -/
def memmove (d : Block) (off : Nat) (src : Nat → BitVec 8) (n : Nat) : Block := fun k =>
  if off ≤ k ∧ k < off + n then src (k - off) else d k

/-- The loop of `writei`, from `total` on. Each round writes at least one byte, so `nbytes` rounds are
    enough. -/
def writeLoop (src : Nat → BitVec 8) (i offset nbytes : Nat) :
    Nat → Nat → FileSys → Except Fault FileSys
  | 0, _, s => .ok s
  | fuel + 1, total, s =>
    if total < nbytes then
      let off := offset + total
      match bmap s i (off / BLKSIZE) with
      | .error e => .error e
      | .ok (b, s) =>
        let wrbytes := min (nbytes - total) (BLKSIZE - off % BLKSIZE)
        writeLoop src i offset nbytes fuel (total + wrbytes)
          (setBlock s b (memmove (s.disk b) (off % BLKSIZE) (fun k => src (total + k)) wrbytes))
    else .ok s

/-- `writei` of `nbytes` bytes from `src`: what it returns, and the state. -/
def writei (s : FileSys) (i : Nat) (src : Nat → BitVec 8) (offset nbytes : BitVec 32) :
    Except Fault (Int × FileSys) :=
  let off := offset.toNat
  if (s.icache.inode i).type = T_DEV then
    match if NDEV ≤ (s.body i).major then none else (s.devStructs (s.body i).major).write with
    | none => .ok (-E_BAD_DEV, s)
    | some write => .ok (write nbytes.toNat, s)
  else if (s.body i).fileSiz < off ∨ (off + nbytes.toNat) % 2 ^ 32 < off then .ok (-E_BAD_OFFSET, s)
  else
    let n := if MAXFILESIZ < (off + nbytes.toNat) % 2 ^ 32 then (MAXFILESIZ + 2 ^ 32 - off) % 2 ^ 32
      else nbytes.toNat
    match writeLoop src i off n n 0 s with
    | .error e => .error e
    | .ok s =>
      let s :=
        if (s.body i).fileSiz < off + n then
          iupdate (setBody s i { s.body i with fileSiz := off + n }) i
        else s
      .ok (n, s)

end WeiOS.Inode
