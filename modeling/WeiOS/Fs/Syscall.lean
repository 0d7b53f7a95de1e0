import Mathlib
import WeiOS.Lib.Run
import WeiOS.Fs.Directory

/-!
# Open Files and Processes

The system calls that hold references to inodes: the file table of `kern/file.c`, `open`, `close`,
`dup`, `dup2` and `chdir` of `kern/sysfile.c`, and what `fork`, `exit` and `exec` of `kern/sysfunc.c` do to
files. A run is a sequence of calls by any processes.
-/

namespace WeiOS.Syscall

open WeiOS.Inode (FileSys Block T_DIR T_FILE word)
open WeiOS.Dir (Name Kern FsM DIRSIZ ROOTDEV ROOTINO readi namei creat iput iunlockput iunlock ilock
  iref link unlink mkdir mknod)

/-! ## §1 State -/

/-- `include/param.h` and `include/file.h`. -/
def NPROC : Nat := 1024
def NFILE : Nat := 200
def NOFILE : Nat := 16
def FS_NONE : Nat := 0
def FS_PIPE : Nat := 5
def O_RDONLY : Nat := 1
def O_WRONLY : Nat := 2
def O_RDWR : Nat := 4
def O_CREAT : Nat := 8

/-- `struct file` without the pipe. -/
structure File where
  type : Nat
  ref : Nat
  offset : Nat
  flag : Nat
  inode : Option Nat

/-- The fields of `struct proc` for files; `alive` until the process exits. -/
structure Proc where
  alive : Bool
  pwd : Nat
  openFileTable : Nat → Option Nat
  nOpfiles : Nat

/-- The kernel with its file table and its processes. -/
structure Sys where
  kern : Kern
  files : Nat → File
  flist : List Nat
  nOpenfiles : Nat
  procs : Nat → Proc
  rootproc : Nat

/-- What stops a system call. -/
inductive Fault where
  | fs (e : Dir.Fault)
  | corruption  -- the panics of `file_dup` and `file_close`, and a file table without a free file
  | pipe        -- `pipe_close` of a file that has no pipe
  | rootExit    -- the first process exits
  deriving DecidableEq

abbrev SysM := StateT Sys (Except Fault)

/-- A call into the file system. -/
def onKern {α : Type} (m : FsM α) : SysM α := fun s =>
  match m s.kern with
  | .error e => .error (.fs e)
  | .ok (a, k) => .ok (a, { s with kern := k })

def setFile (f : Nat) (v : File) : SysM Unit :=
  modify fun s => { s with files := Function.update s.files f v }

def setProc (p : Nat) (v : Proc) : SysM Unit :=
  modify fun s => { s with procs := Function.update s.procs p v }

/-- `curproc->open_file_table[fd] = f`. -/
def setFd (p fd : Nat) (f : Option Nat) : SysM Unit := do
  let q := (← get).procs p
  setProc p { q with openFileTable := Function.update q.openFileTable fd f }

def setNOpfiles (p n : Nat) : SysM Unit := do
  setProc p { (← get).procs p with nOpfiles := n }

/-! ## §2 The file table -/

/-- `file_alloc`. -/
def fileAlloc : SysM (Option Nat) := do
  let s ← get
  if s.nOpenfiles = NFILE then pure none
  else
    match s.flist with
    | [] => throw .corruption
    | f :: rest => do
      set { s with
        files := Function.update s.files f ⟨FS_NONE, 1, 0, 0, none⟩
        flist := rest
        nOpenfiles := s.nOpenfiles + 1 }
      pure (some f)

/-- `file_dup`. -/
def fileDup (f : Nat) : SysM Nat := do
  let v := (← get).files f
  if v.ref = 0 then throw .corruption
  else
    setFile f { v with ref := v.ref + 1 }
    pure f

/-- The part of `file_close` under the lock of the file table: the last reference puts the file back
    on the free list. -/
def fileRelease (f : Nat) : SysM (Option File) := do
  let s ← get
  let v := s.files f
  if v.ref = 0 then throw .corruption
  else if 0 < v.ref - 1 then
    setFile f { v with ref := v.ref - 1 }
    pure none
  else
    set { s with
      files := Function.update s.files f { v with ref := 0, type := FS_NONE }
      flist := f :: s.flist
      nOpenfiles := s.nOpenfiles - 1 }
    pure (some v)

/-- `file_close`. A file from `open` has no pipe. -/
def fileClose (f : Nat) : SysM Unit := do
  match ← fileRelease f with
  | none => pure ()
  | some v =>
    if v.type = FS_NONE then pure ()
    else if v.type = FS_PIPE then throw .pipe
    else
      match v.inode with
      | none => throw (.fs .wild)
      | some i => onKern (iput i)

/-! ## §3 Descriptors -/

/-- `is_bad_fd`. -/
def isBadFd (fd : Int) : Bool := decide (fd < 0) || decide ((NOFILE : Int) ≤ fd)

/-- `fd_alloc`; `none` for -1. -/
def fdAlloc (p : Nat) : SysM (Option Nat) := do
  let q := (← get).procs p
  if q.nOpfiles = NOFILE then pure none
  else pure ((List.range NOFILE).find? fun fd => (q.openFileTable fd).isNone)

/-- `dup`. -/
def dup (p : Nat) (fd : Int) : SysM Int := do
  if isBadFd fd then pure (-1)
  else
    let q := (← get).procs p
    match q.openFileTable fd.toNat with
    | none => pure (-1)
    | some f =>
      if q.nOpfiles = NOFILE then pure (-1)
      else
        match ← fdAlloc p with
        | none => pure (-1)
        | some fd2 => do
          let f ← fileDup f
          setFd p fd2 (some f)
          setNOpfiles p (((← get).procs p).nOpfiles + 1)
          pure fd2

/-- The file of a descriptor in use is closed. -/
def closeFd (p fd : Nat) : SysM Unit := do
  match ((← get).procs p).openFileTable fd with
  | none => pure ()
  | some f => do
    fileClose f
    setNOpfiles p (((← get).procs p).nOpfiles - 1)

/-- `dup2`. -/
def dup2 (p : Nat) (oldfd newfd : Int) : SysM Int := do
  if isBadFd oldfd || isBadFd newfd then pure (-1)
  else if oldfd = newfd then pure newfd
  else
    closeFd p newfd.toNat
    let f := ((← get).procs p).openFileTable oldfd.toNat
    setFd p newfd.toNat f
    match f with
    | none => pure 0
    | some f => do
      let _ ← fileDup f
      setNOpfiles p (((← get).procs p).nOpfiles + 1)
      pure 0

/-- `close`. -/
def close (p : Nat) (fd : Int) : SysM Int := do
  if isBadFd fd then pure (-1)
  else
    closeFd p fd.toNat
    setFd p fd.toNat none
    pure 0

/-- `exclus > 1`: two of `O_RDONLY`, `O_WRONLY` and `O_RDWR` are used at the same time. -/
def badFlag (flag : Nat) : Bool :=
  decide (1 < flag % 2 + flag / 2 % 2 + flag / 4 % 2)

/-- The inode that `open` opens, locked. -/
def openInode (pwd : Nat) (pathname : Name) (flag : Nat) : FsM (Option Nat) := do
  if flag &&& O_CREAT ≠ 0 then creat pwd pathname T_FILE 0 0
  else
    match ← namei pwd pathname with
    | none => pure none
    | some i => do
      let _ ← ilock i
      if ((← get).node i).type = T_DIR ∧ flag &&& O_RDONLY = 0 then
        iunlockput i
        pure none
      else pure (some i)

/-- `open`. -/
def open_ (p : Nat) (pathname : Name) (flag : Nat) : SysM Int := do
  if badFlag flag then pure (-1)
  else
    match ← onKern (openInode ((← get).procs p).pwd pathname flag) with
    | none => pure (-1)
    | some i => do
      match ← fdAlloc p with
      | none => do
        onKern (iunlockput i)
        pure (-1)
      | some fd => do
        match ← fileAlloc with
        | none => do
          onKern (iunlockput i)
          pure (-1)
        | some f => do
          let _ ← onKern (iunlock i)
          let s ← get
          let v := s.files f
          setFile f
            { v with
              inode := some i
              type := (s.kern.node i).type
              offset := 0
              flag := (v.flag ||| flag) % 2 ^ 16 }
          setFd p fd (some f)
          setNOpfiles p (((← get).procs p).nOpfiles + 1)
          pure fd

/-! ## §4 Processes -/

/-- `chdir`. -/
def chdir (p : Nat) (pathname : Name) : SysM Int := do
  let pwd := ((← get).procs p).pwd
  match ← onKern (namei pwd pathname) with
  | none => pure (-1)
  | some i => do
    let _ ← onKern (ilock i)
    if ((← get).kern.node i).type ≠ T_DIR then
      onKern (iunlockput i)
      pure (-1)
    else
      let _ ← onKern (iunlock i)
      onKern (iput pwd)
      setProc p { (← get).procs p with pwd := i }
      pure 0

/-- The loop of `dup_proc_struct` over the descriptors. -/
def dupFd (p son fd : Nat) : SysM Unit := do
  match ((← get).procs p).openFileTable fd with
  | none => pure ()
  | some f => do
    let f ← fileDup f
    setFd son fd (some f)

def dupFiles (p son : Nat) : List Nat → SysM Unit
  | [] => pure ()
  | fd :: fds => do
    dupFd p son fd
    dupFiles p son fds

/-- What `fork` does to files (`dup_proc_struct`): the descriptor `son` is a new one. -/
def fork (p son : Nat) : SysM Int := do
  setProc son ⟨true, 0, fun _ => none, 0⟩
  dupFiles p son (List.range NOFILE)
  let q := (← get).procs p
  setProc son { (← get).procs son with nOpfiles := q.nOpfiles, pwd := q.pwd }
  let _ ← onKern (iref q.pwd)
  pure son

/-- The loop of `exit` over the descriptors. -/
def closeOnExit (p fd : Nat) : SysM Unit := do
  match ((← get).procs p).openFileTable fd with
  | none => pure ()
  | some f => fileClose f

def closeFiles (p : Nat) : List Nat → SysM Unit
  | [] => pure ()
  | fd :: fds => do
    closeOnExit p fd
    closeFiles p fds

/-- What `exit` does to files. -/
def exit (p : Nat) : SysM Unit := do
  if p = (← get).rootproc then throw .rootExit
  else
    setProc p { (← get).procs p with alive := false }
    closeFiles p (List.range NOFILE)
    onKern (iput ((← get).procs p).pwd)
    setNOpfiles p 0

/-! ## §5 `exec` -/

/-- `include/mmu.h` and `include/elf.h`. -/
def PGSIZE : Nat := 4096
def UTOP : Nat := 0xEE800000
def ELF_MAGIC : Nat := 0x464C457F
def ELF_PROG_LOAD : Nat := 1

/-- The loop of `load_program`. -/
def loadProgram (i off size : Nat) : Nat → Nat → FsM Bool
  | 0, _ => throw .hang
  | fuel + 1, j => do
    if j < size then
      let nbytes := if size - j < PGSIZE then size - j else PGSIZE
      let (r, _) ← readi i (← get).junk ((off + j) % 2 ^ 32) nbytes
      if r ≠ nbytes then pure false
      else loadProgram i off size fuel ((j + PGSIZE) % 2 ^ 32)
    else pure true

/-- The loop of `exec` over the program headers; `vm j` is the success of `grow_vm` for header `j`. -/
def loadSegments (i : Nat) (vm : Nat → Bool) : Nat → Nat → Nat → FsM Bool
  | 0, _, _ => pure true
  | n + 1, j, off => do
    let (r, ph) ← readi i (← get).junk off 32
    let vaddr := word ph 2
    let filesz := word ph 4
    let memsz := word ph 5
    if r ≠ 32 then pure false
    else if word ph 0 ≠ ELF_PROG_LOAD then loadSegments i vm n (j + 1) ((off + 32) % 2 ^ 32)
    else if UTOP < vaddr ∨ (vaddr + memsz) % 2 ^ 32 < vaddr ∨ memsz < filesz then pure false
    else if !vm j then pure false
    else if vaddr % PGSIZE ≠ 0 then pure false
    else if !(← loadProgram i (word ph 1) filesz (filesz / PGSIZE + 2) 0) then pure false
    else loadSegments i vm n (j + 1) ((off + 32) % 2 ^ 32)

/-- The part of `exec` that reads the file. -/
def loadElf (i : Nat) (setupVm : Bool) (vm : Nat → Bool) : FsM Bool := do
  let (r, elfh) ← readi i (← get).junk 0 52
  if r < 0 then pure false
  else if word elfh 0 ≠ ELF_MAGIC then pure false
  else if !setupVm then pure false
  else loadSegments i vm (word elfh 11 % 2 ^ 16) 0 (word elfh 7)

/-- What `exec` does to files; `setupVm`, `vm` and `stack` say which of its requests for memory are
    met. -/
def exec (pwd : Nat) (pathname : Name) (setupVm : Bool) (vm : Nat → Bool) (stack : Bool) :
    FsM Int := do
  match ← namei pwd pathname with
  | none => pure (-1)
  | some i => do
    let _ ← ilock i
    let loaded ← loadElf i setupVm vm
    iunlockput i
    pure (if loaded && stack then 0 else -1)

/-! ## §6 Runs -/

inductive Call where
  | open_ (pathname : Name) (flag : Nat)
  | close (fd : Int)
  | dup (fd : Int)
  | dup2 (oldfd newfd : Int)
  | fork (son : Nat)
  | exit
  | chdir (pathname : Name)
  | link (oldpname newpname : Name)
  | unlink (pathname : Name)
  | mkdir (pathname : Name)
  | mknod (pathname : Name) (major minor : Nat)
  | exec (pathname : Name) (setupVm : Bool) (vm : Nat → Bool) (stack : Bool)

/-- A call by a process, with what its uninitialised buffers hold. -/
structure Op where
  proc : Nat
  junk : Block
  call : Call

/-- A path in memory ends at the first null byte. -/
def cstr (path : Name) : Name := path.takeWhile (· ≠ 0)

/-- A call of which only the effect counts here. -/
def effect {α : Type} (m : SysM α) : SysM Unit := do
  let _ ← m

/-- A call that only uses the working directory of the process. -/
def atPwd {α : Type} (p : Nat) (f : Nat → FsM α) : SysM Unit := do
  effect (onKern (f ((← get).procs p).pwd))

/-- The system call of process `p`. -/
def syscall (p : Nat) : Call → SysM Unit
  | .open_ pathname flag => effect (open_ p (cstr pathname) flag)
  | .close fd => effect (close p fd)
  | .dup fd => effect (dup p fd)
  | .dup2 oldfd newfd => effect (dup2 p oldfd newfd)
  | .fork son => effect (fork p son)
  | .exit => exit p
  | .chdir pathname => effect (chdir p (cstr pathname))
  | .link oldpname newpname => atPwd p fun pwd => link pwd (cstr oldpname) (cstr newpname)
  | .unlink pathname => atPwd p fun pwd => unlink pwd (cstr pathname)
  | .mkdir pathname => atPwd p fun pwd => mkdir pwd (cstr pathname)
  | .mknod pathname major minor => atPwd p fun pwd =>
      mknod pwd (cstr pathname) (major % 2 ^ 16) (minor % 2 ^ 16)
  | .exec pathname setupVm vm stack => atPwd p fun pwd => exec pwd (cstr pathname) setupVm vm stack

/-- One call, from the state between two calls to the next. -/
def step (s : Sys) (o : Op) : Except Fault Sys :=
  (syscall o.proc o.call { s with kern := { s.kern with junk := o.junk } }).map Prod.snd

/-- The file system as `forkret` finds it: `inode_init` has filled the inode cache. -/
def mount (disk : Nat → Block) (devStructs : Nat → Inode.DevStruct) : FileSys :=
  Inode.readSuperblock
    { sb := ⟨0, 0, 0, 0, 0, 0, 0⟩
      disk := disk
      icache := InodeCache.inodeInit
      body := fun _ => ⟨0, 0, 0, fun _ => 0⟩
      devStructs := devStructs }

/-- The system after `forkret`: the first process is in the root directory, whose inode is in the
    first free structure. -/
def boot (disk : Nat → Block) (devStructs : Nat → Inode.DevStruct) (devRead : Nat → Bool)
    (devIn : List (Option Name)) : Sys :=
  let fs := mount disk devStructs
  let root := InodeCache.NINODE - 1
  let icache := InodeCache.igetMiss fs.icache root fs.icache.freeList.tail ROOTDEV ROOTINO
  { kern :=
      { fs := { fs with icache := icache }
        slk := fun _ => false
        devRead := devRead
        devIn := devIn
        junk := fun _ => 0 }
    files := fun _ => ⟨FS_NONE, 0, 0, 0, none⟩
    flist := (List.range NFILE).reverse
    nOpenfiles := 0
    procs := fun p => ⟨p == 0, root, fun _ => none, 0⟩
    rootproc := 0 }

/-- A call is made by a process that has not exited, and `fork` gets a descriptor that is not in use. -/
def Allowed (s : Sys) (o : Op) : Prop :=
  (s.procs o.proc).alive = true ∧
    match o.call with
    | .fork son => son < NPROC ∧ (s.procs son).alive = false
    | _ => True

instance (s : Sys) (o : Op) : Decidable (Allowed s o) := by
  unfold Allowed
  cases o.call <;> infer_instance

/-! ## §7 A disk -/

/-- The disk that `mkfs` makes without files. The root directory fills block 127. -/
def mkfsDisk (b : Nat) : Block :=
  if b = 1 then
    Inode.blockOf [Inode.FSSIZE, Inode.FSSIZE - 127, Inode.NINODES, Inode.LOGSIZE, 2, 2 + Inode.LOGSIZE, 126]
  else if b = 122 then fun k =>
    if k < 64 then 0 else Inode.blockOf [T_DIR, 2 ^ 16, Inode.BLKSIZE, 127] (k - 64)
  else if b = 126 then fun k => if k < 16 then 255 else 0
  else if b = 127 then fun k =>
    [(1 : BitVec 8), 0, 46, 0, 0, 0, 0, 0, 0, 0, 0, 0, 0, 0, 0, 0, 1, 0, 46, 46].getD k 0
  else fun _ => 0

/-- The system on this disk, without devices. -/
def mkfsBoot : Sys := boot mkfsDisk (fun _ => ⟨none⟩) (fun _ => false) []

end WeiOS.Syscall
