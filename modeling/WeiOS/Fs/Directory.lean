import Mathlib
import WeiOS.Fs.Inode

/-!
# Directories and Paths

The part of `kern/inode.c` above the blocks of a file: `ialloc`, `ilock`, `iunlock`, `iput`,
`readi`, `dirlookup`, `dirlink` and `namex`, and the system calls of `kern/sysfile.c` that work on
paths only: `link`, `unlink`, `creat`, `mknod` and `mkdir`.

A call runs to completion before the next one starts. A call that does not return is a fault: a
panic, a sleep on a lock that nobody will release, or a step whose effect C leaves open (a name that
does not fit its buffer, a pointer that was never set). The transaction brackets of the log are not
part of this model.
-/

namespace WeiOS.Dir

open WeiOS.Inode
open WeiOS.InodeCache (Icache)

/-! ## §1 State -/

/-- `include/fs.h`, `include/param.h`, `include/error.h`. -/
def DIRSIZ : Nat := 14
def ROOTDEV : Nat := 1
def ROOTINO : Nat := 1
def E_BAD_PATH : Int := 14
def E_FILE_EXISTS : Int := 15

/-- `sizeof(struct dirent)`. -/
def DIRENT : Nat := 16

/-- A C string without its terminator. -/
abbrev Name := List (BitVec 8)

def slash : BitVec 8 := 47

/-- What stops a call. -/
inductive Fault where
  | outOfBlock  -- `bmap` leaves its block
  | overflow    -- a name does not fit its buffer
  | wild        -- an uninitialised pointer is followed
  | panic
  | hang        -- a loop without end, or input that never comes
  | selfLock    -- a sleep on the lock of an inode that the call has locked itself
  | noInode     -- `iget` found no free structure
  | deadlock
  deriving DecidableEq, Repr

/-- The file system with the sleep locks of the inodes. `devIn` has the answers of the devices to the
    reads to come; `junk` is what an uninitialised local buffer holds. -/
structure Kern where
  fs : FileSys
  slk : Nat → Bool
  devRead : Nat → Bool
  devIn : List (Option Name)
  junk : Block

/-- A kernel function: it returns a value and a state, or it does not return. -/
abbrev FsM := StateT Kern (Except Fault)

def Kern.node (s : Kern) (i : Nat) : InodeCache.Inode := s.fs.icache.inode i
def Kern.body (s : Kern) (i : Nat) : Body := s.fs.body i

/-- A function on the file system. -/
def onFs {α : Type} (f : FileSys → Except Inode.Fault (α × FileSys)) : FsM α := fun s =>
  match f s.fs with
  | .error .outOfBlock => .error .outOfBlock
  | .ok (a, fs) => .ok (a, { s with fs := fs })

def modifyFs (f : FileSys → FileSys) : FsM Unit := modify fun s => { s with fs := f s.fs }

/-- A write to the fields of an inode structure that the inode cache reads. -/
def setNode (fs : FileSys) (i : Nat) (n : InodeCache.Inode) : FileSys :=
  { fs with icache := { fs.icache with inode := Function.update fs.icache.inode i n } }

/-! ## §2 Inodes -/

/-- `sleep_lock`. A call runs alone, so a lock that is taken was taken by the call. -/
def sleepLock (i : Nat) : FsM Unit := do
  if (← get).slk i then throw .selfLock
  else modify fun s => { s with slk := Function.update s.slk i true }

/-- `sleep_unlock`. -/
def sleepUnlock (i : Nat) : FsM Unit :=
  modify fun s => { s with slk := Function.update s.slk i false }

/-- `iget`. -/
def iget (dev ino : Nat) : FsM Nat := do
  match InodeCache.iget (← get).fs.icache dev ino with
  | .error _ => throw .deadlock
  | .ok (none, _) => throw .noInode
  | .ok (some i, c) => do
    modifyFs fun fs => { fs with icache := c }
    pure i

/-- `iref`. -/
def iref (i : Nat) : FsM Nat := do
  match InodeCache.iref (← get).fs.icache i with
  | .error _ => throw .deadlock
  | .ok c => do
    modifyFs fun fs => { fs with icache := c }
    pure i

/-- The place of inode `ino` in the inode blocks: word `k` of its `struct d_inode`. -/
def dWord (fs : FileSys) (ino k : Nat) : Nat := word (fs.disk (IBLOCK ino fs.sb)) (16 * (ino % IPB) + k)

/-- `di->type`. -/
def dType (fs : FileSys) (ino : Nat) : Nat := dWord fs ino 0 % 2 ^ 16

/-- The inode on disk is cleared and gets its type. -/
def clearDInode (fs : FileSys) (ino type : Nat) : FileSys :=
  let b := IBLOCK ino fs.sb
  setBlock fs b
    ((List.range 16).foldl
      (fun d k => setWord d (16 * (ino % IPB) + k) (if k = 0 then type else 0)) (fs.disk b))

/-- `ialloc`; `none` if no inode is free on disk. -/
def ialloc (dev type : Nat) : FsM (Option Nat) := do
  let fs := (← get).fs
  match (List.range' 1 (fs.sb.inodeBlks - 1)).find? fun ino => dType fs ino = 0 with
  | none => pure none
  | some ino => do
    modifyFs fun fs => clearDInode fs ino type
    some <$> iget dev ino

/-- The inode is read from disk, into the structure `i`. -/
def loadInode (fs : FileSys) (i : Nat) : FileSys :=
  let n := fs.icache.inode i
  let w := dWord fs n.ino
  setBody (setNode fs i { n with type := w 0 % 2 ^ 16, nlink := w 1 / 2 ^ 16 }) i
    ⟨w 0 / 2 ^ 16, w 1 % 2 ^ 16, w 2, fun k => w (3 + k)⟩

/-- `ilock`. -/
def ilock (i : Nat) : FsM Int := do
  if ((← get).node i).ref < 1 then pure (-1)
  else
    sleepLock i
    if ((← get).node i).valid then pure 0
    else
      modifyFs fun fs => loadInode fs i
      if ((← get).node i).type = 0 then throw .panic
      else
        modifyFs fun fs => setNode fs i { fs.icache.inode i with valid := true }
        pure 0

/-- `iunlock`. -/
def iunlock (i : Nat) : FsM Int := do
  let s ← get
  if !s.slk i || (s.node i).ref < 1 then pure (-1)
  else
    sleepUnlock i
    pure 0

/-- The last reference to an inode without links frees it on disk. -/
def iputFree (fs : FileSys) (i : Nat) : FileSys :=
  let n := fs.icache.inode i
  if n.valid && n.nlink == 0 && n.ref == 1 then
    iupdate (setNode (ifree fs i) i { n with type := 0 }) i
  else fs

/-- `iput`. -/
def iput (i : Nat) : FsM Unit := do
  sleepLock i
  modifyFs fun fs => iputFree fs i
  match InodeCache.iput (← get).fs.icache i with
  | .error _ => throw .deadlock
  | .ok c => do
    modifyFs fun fs => { fs with icache := c }
    sleepUnlock i

/-- `iunlockput`. -/
def iunlockput (i : Nat) : FsM Unit := do
  if (← iunlock i) = 0 then iput i else pure ()

/-! ## §3 Reading and writing -/

/-- The loop of `readi`, from `total` on. -/
def readLoop (i offset nbytes : Nat) :
    Nat → Nat → Block → FileSys → Except Inode.Fault (Block × FileSys)
  | 0, _, dst, s => .ok (dst, s)
  | fuel + 1, total, dst, s =>
    if total < nbytes then
      let off := offset + total
      match bmap s i (off / BLKSIZE) with
      | .error e => .error e
      | .ok (b, s) =>
        let rdbytes := min (nbytes - total) (BLKSIZE - off % BLKSIZE)
        readLoop i offset nbytes fuel (total + rdbytes)
          (memmove dst total (fun k => s.disk b (off % BLKSIZE + k)) rdbytes) s
    else .ok (dst, s)

/-- A device read; the driver gives up the lock of the inode while it waits. -/
def devRead (i : Nat) (dst : Block) (nbytes : Nat) : FsM (Int × Block) := do
  let _ ← iunlock i
  match (← get).devIn with
  | [] => throw .hang
  | answer :: rest => do
    modify fun s => { s with devIn := rest }
    let _ ← ilock i
    match answer with
    | none => pure (-1, dst)
    | some bs => pure (min bs.length nbytes, memmove dst 0 (fun k => bs.getD k 0) (min bs.length nbytes))

/-- `readi`: what it returns, and the buffer. -/
def readi (i : Nat) (dst : Block) (offset nbytes : Nat) : FsM (Int × Block) := do
  let s ← get
  if (s.node i).type = T_DEV then
    if NDEV ≤ (s.body i).major ∨ ¬ s.devRead (s.body i).major then pure (-E_BAD_DEV, dst)
    else devRead i dst nbytes
  else if (s.body i).fileSiz < offset ∨ (offset + nbytes) % 2 ^ 32 < offset then
    pure (-E_BAD_OFFSET, dst)
  else
    let n := if (s.body i).fileSiz < (offset + nbytes) % 2 ^ 32 then (s.body i).fileSiz - offset
      else nbytes
    let dst ← onFs (readLoop i offset n n 0 dst)
    pure (n, dst)

/-- `writei`; a device driver gives up the lock of the inode while it writes. -/
def writei (i : Nat) (src : Block) (offset nbytes : Nat) : FsM Int := do
  let write := onFs fun fs =>
    Inode.writei fs i src (BitVec.ofNat 32 offset) (BitVec.ofNat 32 nbytes)
  let s ← get
  if (s.node i).type = T_DEV ∧ (s.body i).major < NDEV ∧
      (s.fs.devStructs (s.body i).major).write.isSome then
    let _ ← iunlock i
    let r ← write
    let _ ← ilock i
    pure r
  else write

/-! ## §4 Directory entries -/

/-- The two fields of `struct dirent`. -/
def direntIno (d : Block) : Nat := (d 0).toNat + 2 ^ 8 * (d 1).toNat
def direntName (d : Block) : Name := ((List.range DIRSIZ).map fun k => d (2 + k)).takeWhile (· ≠ 0)

/-- `direntry.ino = ino; strncpy(direntry.name, name, DIRSIZ)`: the name is followed by two
    terminators, and the bytes after them stay. -/
def setDirent (d : Block) (ino : Nat) (name : Name) : Block := fun k =>
  if k = 0 then BitVec.ofNat 8 ino
  else if k = 1 then BitVec.ofNat 8 (ino / 2 ^ 8)
  else if k < 2 + name.length + 2 then name.getD (k - 2) 0
  else d k

/-- The loop of `dirlookup`. The offset is a 32-bit number: a directory that reaches to the end of
    the address space is searched forever. -/
def dirlookupFrom (diri : Nat) (name : Name) : Nat → Nat → FsM (Int × Option (Nat × Nat))
  | 0, _ => throw .hang
  | fuel + 1, off => do
    let s ← get
    if off < (s.body diri).fileSiz then
      let (r, d) ← readi diri s.junk off DIRENT
      if r ≠ DIRENT then pure (r, none)
      else if direntIno d = 0 then dirlookupFrom diri name fuel ((off + DIRENT) % 2 ^ 32)
      else if direntName d = name.take DIRSIZ then
        let ip ← iget (s.node diri).dev (direntIno d)
        pure (0, some (ip, off))
      else dirlookupFrom diri name fuel ((off + DIRENT) % 2 ^ 32)
    else pure (-E_FILE_EXISTS, none)

/-- `dirlookup`: what it returns, and what it stores in `*istore` and `*offset`. -/
def dirlookup (diri : Nat) (name : Name) : FsM (Int × Option (Nat × Nat)) := do
  let s ← get
  if (s.node diri).type ≠ T_DIR then pure (-E_BAD_PATH, none)
  else dirlookupFrom diri name ((s.body diri).fileSiz / DIRENT + 2) 0

/-- The second loop of `dirlink`: the offset of the first free entry, and the entry read last. -/
def freeDirent (di : Nat) : Nat → Nat → Block → FsM (Nat × Block)
  | 0, _, _ => throw .hang
  | fuel + 1, off, d => do
    let s ← get
    if off < (s.body di).fileSiz then
      let (r, d) ← readi di d off DIRENT
      if r ≠ DIRENT then throw .panic
      else if direntIno d = 0 then pure (off, d)
      else freeDirent di fuel ((off + DIRENT) % 2 ^ 32) d
    else pure (off, d)

/-- `dirlink`. -/
def dirlink (di : Nat) (name : Name) (ino : Nat) : FsM Int := do
  let (r, e) ← dirlookup di name
  if r = 0 then
    match e with
    | none => throw .wild
    | some (i, _) => do
      iput i
      pure (-1)
  else
    let s ← get
    let (off, d) ← freeDirent di ((s.body di).fileSiz / DIRENT + 2) 0 s.junk
    if DIRSIZ < name.length + 2 then throw .overflow
    else
      let r ← writei di (setDirent d ino name) off DIRENT
      if r ≠ DIRENT then throw .panic else pure 0

/-! ## §5 Paths -/

/-- `strncpy(name, start, n)`: it copies one character even if `n` is 0. -/
def strncpy (start : Name) (n : Nat) : Name := start.take (max n 1)

/-- The loop of `namex` in the directory `curi`, at the rest `start` of the path. -/
def namexFrom (nameiparent : Bool) : Nat → Name → Nat → FsM (Option Nat × Name)
  | 0, _, _ => throw .hang
  | fuel + 1, start, curi => do
    let _ ← ilock curi
    let n := (start.takeWhile (· ≠ slash)).length
    if DIRSIZ ≤ n then throw .overflow
    else
      let name := strncpy start n
      let rest := start.drop n
      if rest = [] ∧ nameiparent then
        let _ ← iunlock curi
        pure (some curi, name)
      else
        let (r, e) ← dirlookup curi name
        if r < 0 then
          iunlockput curi
          pure (none, name)
        else
          match e with
          | none => throw .wild
          | some (next, _) => do
            iunlockput curi
            if rest = [] ∨ rest.tail = [] then pure (some next, name)
            else namexFrom nameiparent fuel rest.tail next

/-- `namex`: the inode, and the name. For the path `/` the name is never set. -/
def namex (pwd : Nat) (path : Name) (nameiparent : Bool) : FsM (Option Nat × Name) := do
  if path.head? = some slash then
    let curi ← iget ROOTDEV ROOTINO
    if path.length = 1 then
      let s ← get
      pure (some curi, ((List.range DIRSIZ).map s.junk).takeWhile (· ≠ 0))
    else namexFrom nameiparent path.length path.tail curi
  else
    let curi ← iref pwd
    namexFrom nameiparent (path.length + 1) path curi

/-- `namei`. -/
def namei (pwd : Nat) (path : Name) : FsM (Option Nat) := Prod.fst <$> namex pwd path false

/-- `namep`. -/
def namep (pwd : Nat) (path : Name) : FsM (Option Nat × Name) := namex pwd path true

/-! ## §6 Links -/

/-- `i->nlink` is a 16-bit number. -/
def addLink (i d : Nat) : FsM Unit :=
  modifyFs fun fs =>
    setNode fs i { fs.icache.inode i with nlink := ((fs.icache.inode i).nlink + d) % 2 ^ 16 }

def nlinkInc (i : Nat) : FsM Unit := addLink i 1
def nlinkDec (i : Nat) : FsM Unit := addLink i (2 ^ 16 - 1)

def iupdate (i : Nat) : FsM Unit := modifyFs fun fs => Inode.iupdate fs i

/-- The end of `link` after an error: the link that was added is taken back. -/
def linkErr (i : Nat) : FsM Int := do
  let _ ← ilock i
  nlinkDec i
  iupdate i
  iunlockput i
  pure (-1)

/-- The entry that `link` makes in the directory `di`. -/
def linkInto (di : Nat) (name : Name) (i : Nat) : FsM Int := do
  let s ← get
  if (s.node i).dev ≠ (s.node di).dev then pure (-1) else dirlink di name (s.node i).ino

/-- `link`. -/
def link (pwd : Nat) (oldpname newpname : Name) : FsM Int := do
  match ← namei pwd oldpname with
  | none => pure (-1)
  | some i => do
    let _ ← ilock i
    if ((← get).node i).type = T_DIR then
      iunlockput i
      pure (-1)
    else
      nlinkInc i
      iupdate i
      let _ ← iunlock i
      let (di, name) ← namep pwd newpname
      match di with
      | none => linkErr i
      | some di => do
        let _ ← ilock di
        if (← linkInto di name i) < 0 then
          iunlockput di
          linkErr i
        else
          iupdate di
          iput i
          iunlockput di
          pure 0

/-- The loop of `is_dir_empty`; a short read leaves the rest of the entry as it was. -/
def isDirEmptyFrom (i : Nat) : Nat → Nat → Block → FsM Bool
  | 0, _, _ => throw .hang
  | fuel + 1, off, d => do
    let s ← get
    if off < (s.body i).fileSiz then
      let (r, d) ← readi i d off DIRENT
      if r < 0 then throw .panic
      else if direntIno d = 0 then isDirEmptyFrom i fuel ((off + DIRENT) % 2 ^ 32) d
      else if direntName d ≠ [46, 46] ∧ direntName d ≠ [46] then pure false
      else isDirEmptyFrom i fuel ((off + DIRENT) % 2 ^ 32) d
    else pure true

/-- `is_dir_empty`. -/
def isDirEmpty (i : Nat) : FsM Bool := do
  let s ← get
  isDirEmptyFrom i ((s.body i).fileSiz / DIRENT + 2) 0 s.junk

/-- The part of `unlink` for directories; `false` if the directory is not empty. -/
def unlinkDir (di i : Nat) : FsM Bool := do
  if ((← get).node i).type = T_DIR then
    if !(← isDirEmpty i) then pure false
    else
      nlinkDec di
      pure true
  else pure true

/-- `unlink`. -/
def unlink (pwd : Nat) (pathname : Name) : FsM Int := do
  let (di, name) ← namep pwd pathname
  match di with
  | none => pure (-1)
  | some di => do
    let _ ← ilock di
    let (r, e) ← dirlookup di name
    if r < 0 then
      iunlockput di
      pure (-1)
    else
      match e with
      | none => throw .wild
      | some (i, offset) => do
        let _ ← ilock i
        if !(← unlinkDir di i) then
          iunlockput i
          iunlockput di
          pure (-1)
        else
          let r ← writei di (fun _ => 0) offset DIRENT
          if r ≠ DIRENT then throw .panic
          else
            iupdate di
            iunlockput di
            nlinkDec i
            iupdate i
            iunlockput i
            pure 0

/-- How far `creat` gets before the new inode is linked: it is done, or it has the locked parent, the
    name and the locked new inode. -/
inductive Created where
  | done (i : Option Nat)
  | fresh (di : Nat) (name : Name) (i : Nat)

/-- The first half of `creat`. -/
def creatInode (pwd : Nat) (pathname : Name) (type major minor : Nat) : FsM Created := do
  let (di, name) ← namep pwd pathname
  match di with
  | none => pure (.done none)
  | some di => do
    let _ ← ilock di
    let (r, e) ← dirlookup di name
    if 0 ≤ r then
      match e with
      | none => throw .wild
      | some (i, _) => do
        iunlockput di
        let _ ← ilock i
        let s ← get
        if (s.node i).type = type ∧ (s.node i).type = T_FILE then pure (.done (some i))
        else
          iunlockput i
          pure (.done none)
    else
      match ← ialloc ((← get).node di).dev type with
      | none => throw .panic
      | some i => do
        let _ ← ilock i
        modifyFs fun fs =>
          setBody (setNode fs i { fs.icache.inode i with nlink := 1 }) i
            { fs.body i with major := major, minor := minor }
        iupdate i
        pure (.fresh di name i)

/-- The part of `creat` for directories: the entries `.` and `..`, and the link to the parent; `false`
    if an entry cannot be made. -/
def linkDots (type di i : Nat) : FsM Bool := do
  if type = T_DIR then
    if (← dirlink i [46] ((← get).node i).ino) < 0 then pure false
    else if (← dirlink i [46, 46] ((← get).node di).ino) < 0 then pure false
    else
      nlinkInc di
      iupdate di
      pure true
  else pure true

/-- The second half of `creat`. When an entry of a new directory cannot be made, only the new inode
    is released. -/
def creatLink (type : Nat) : Created → FsM (Option Nat)
  | .done i => pure i
  | .fresh di name i => do
    if !(← linkDots type di i) then
      iunlockput i
      pure none
    else if (← dirlink di name ((← get).node i).ino) < 0 then throw .panic
    else
      iunlockput di
      pure (some i)

/-- `creat`. -/
def creat (pwd : Nat) (pathname : Name) (type major minor : Nat) : FsM (Option Nat) := do
  creatLink type (← creatInode pwd pathname type major minor)

/-- `mknod` and `mkdir` create an inode and release it. -/
def creatAndPut (pwd : Nat) (pathname : Name) (type major minor : Nat) : FsM Int := do
  match ← creat pwd pathname type major minor with
  | none => pure (-1)
  | some i => do
    iunlockput i
    pure 0

/-- `mknod`. -/
def mknod (pwd : Nat) (pathname : Name) (major minor : Nat) : FsM Int :=
  creatAndPut pwd pathname T_DEV major minor

/-- `mkdir`. -/
def mkdir (pwd : Nat) (pathname : Name) : FsM Int := creatAndPut pwd pathname T_DIR 0 0

end WeiOS.Dir
