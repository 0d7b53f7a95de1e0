import Mathlib

/-!
# System Call Stubs and Dispatcher

The two tables of the system calls: the stubs of `user/usys.c`, which put a number and up to five
arguments into registers, and `syscall` of `kern/syscall.c`, which `trap` calls with the registers of the
trap frame. An argument is a word of 32 bits on the way, and each side casts it from and to its own type.

## Main results
- `dispatched_iff`: every stub reaches the kernel function of its own name with its own arguments,
  except `fstat`, whose stub drops the descriptor, and `mknod`, whose dispatcher entry passes the major
  number twice.
-/

namespace WeiOS.Syscalls

abbrev Word := BitVec 32

/-! ## §1 The numbers of `include/syscall.h` -/

@[match_pattern] def SYS_puts : Nat := 0
@[match_pattern] def SYS_exit : Nat := 1
@[match_pattern] def SYS_wait : Nat := 2
@[match_pattern] def SYS_kill : Nat := 3
@[match_pattern] def SYS_getpid : Nat := 4
@[match_pattern] def SYS_getppid : Nat := 5
@[match_pattern] def SYS_alarm : Nat := 6
@[match_pattern] def SYS_cancel_alarm : Nat := 7
@[match_pattern] def SYS_yield : Nat := 8
@[match_pattern] def SYS_exofork : Nat := 9
@[match_pattern] def SYS_set_proc_trapframe : Nat := 10
@[match_pattern] def SYS_set_proc_pgfault_handler : Nat := 11
@[match_pattern] def SYS_page_alloc : Nat := 12
@[match_pattern] def SYS_page_map : Nat := 13
@[match_pattern] def SYS_page_unmap : Nat := 14
@[match_pattern] def SYS_fork : Nat := 15
@[match_pattern] def SYS_ipc_try_send : Nat := 16
@[match_pattern] def SYS_ipc_send : Nat := 17
@[match_pattern] def SYS_ipc_recv : Nat := 18
@[match_pattern] def SYS_sbrk : Nat := 19
@[match_pattern] def SYS_pipe : Nat := 20
@[match_pattern] def SYS_dup : Nat := 21
@[match_pattern] def SYS_dup2 : Nat := 22
@[match_pattern] def SYS_read : Nat := 23
@[match_pattern] def SYS_write : Nat := 24
@[match_pattern] def SYS_close : Nat := 25
@[match_pattern] def SYS_fstat : Nat := 26
@[match_pattern] def SYS_link : Nat := 27
@[match_pattern] def SYS_unlink : Nat := 28
@[match_pattern] def SYS_open : Nat := 29
@[match_pattern] def SYS_mkdir : Nat := 30
@[match_pattern] def SYS_chdir : Nat := 31
@[match_pattern] def SYS_printf : Nat := 32
@[match_pattern] def SYS_exec : Nat := 33
@[match_pattern] def SYS_mknod : Nat := 34
@[match_pattern] def SYS_welcome : Nat := 35
@[match_pattern] def SYS_lsdir : Nat := 36
@[match_pattern] def SYS_brk : Nat := 37

/-! ## §2 The kernel side -/

/-- What `syscall` invokes, with the arguments it is given. `clone` stands for `sys_fork`, which expands
    to it, `dupProcStruct` for `sys_exofork`, `exec` for `sys_exec`, which copies the vector first, and
    `bad` for the message about a bad number. -/
inductive KernelCall
  | puts (s : Word)
  | exit
  | wait
  | kill (pid : Word)
  | getpid
  | getppid
  | alarm (alarmticks handler : Word)
  | cancelAlarm
  | yield
  | dupProcStruct (flag : Word)
  | setProcTrapframe (pid tf : Word)
  | setProcPgfaultHandler (pid func : Word)
  | userPageAlloc (pid va perm : Word)
  | userPageMap (srcpid srcva dstpid dstva perm : Word)
  | userPageUnmap (pid va : Word)
  | clone (cflg : Word)
  | ipcTrySend (pid value srcva perm : Word)
  | ipcSend (toProc val pg perm : Word)
  | ipcRecv (pg : Word)
  | sbrk (n : Word)
  | brk (heapBreak : Word)
  | pipe (fd : Word)
  | dup (fd : Word)
  | dup2 (oldfd newfd : Word)
  | read (fd des nbytes : Word)
  | write (fd src nbytes : Word)
  | close (fd : Word)
  | fstat (fd sbuf : Word)
  | link (oldpname newpname : Word)
  | unlink (pathname : Word)
  | open (pathname flag : Word)
  | mknod (pathname : Word) (major minor : BitVec 16)
  | mkdir (pathname : Word)
  | chdir (pathname : Word)
  | printf (str ap : Word)
  | exec (pathname uargv : Word)
  | welcomeToWeiOS
  | lsTest (str : Word)
  | bad
  deriving DecidableEq, Repr

def CLONE_FORK : Word := 0x19960912

/-- The cast to `ushort`. -/
def ushort (a : Word) : BitVec 16 := a.setWidth 16

/-- `syscall`, as far as the function it invokes. -/
def syscall (syscallno a1 a2 a3 a4 a5 : Word) : KernelCall :=
  match syscallno.toNat with
  | SYS_puts => .puts a1
  | SYS_exit => .exit
  | SYS_wait => .wait
  | SYS_kill => .kill a1
  | SYS_getpid => .getpid
  | SYS_getppid => .getppid
  | SYS_alarm => .alarm a1 a2
  | SYS_cancel_alarm => .cancelAlarm
  | SYS_yield => .yield
  | SYS_exofork => .dupProcStruct 0
  | SYS_set_proc_trapframe => .setProcTrapframe a1 a2
  | SYS_set_proc_pgfault_handler => .setProcPgfaultHandler a1 a2
  | SYS_page_alloc => .userPageAlloc a1 a2 a3
  | SYS_page_map => .userPageMap a1 a2 a3 a4 a5
  | SYS_page_unmap => .userPageUnmap a1 a2
  | SYS_fork => .clone CLONE_FORK
  | SYS_ipc_try_send => .ipcTrySend a1 a2 a3 a4
  | SYS_ipc_send => .ipcSend a1 a2 a3 a4
  | SYS_ipc_recv => .ipcRecv a1
  | SYS_sbrk => .sbrk a1
  | SYS_pipe => .pipe a1
  | SYS_dup => .dup a1
  | SYS_dup2 => .dup2 a1 a2
  | SYS_read => .read a1 a2 a3
  | SYS_write => .write a1 a2 a3
  | SYS_close => .close a1
  | SYS_fstat => .fstat a1 a2
  | SYS_link => .link a1 a2
  | SYS_unlink => .unlink a1
  | SYS_open => .open a1 a2
  | SYS_mkdir => .mkdir a1
  | SYS_chdir => .chdir a1
  | SYS_printf => .printf a1 a2
  | SYS_exec => .exec a1 a2
  -- the source reads its second argument twice here
  | SYS_mknod => .mknod a1 (ushort a2) (ushort a2)
  | SYS_welcome => .welcomeToWeiOS
  | SYS_lsdir => .lsTest a1
  | SYS_brk => .brk a1
  | _ => .bad

/-- The registers of `struct pushregs` that carry a request. -/
structure Regs where
  eax : Word
  edx : Word
  ecx : Word
  ebx : Word
  edi : Word
  esi : Word
  deriving DecidableEq, Repr

/-- The branch `T_SYSCALL` of `trap`. -/
def trap (r : Regs) : KernelCall := syscall r.eax r.edx r.ecx r.ebx r.edi r.esi

/-! ## §3 The user side -/

/-- A call of a stub of `user/usys.c`, with its arguments in the types of the stub. -/
inductive Stub
  | fork
  | exit
  | sbrk (n : Word)
  | brk (heapBrk : Word)
  | wait
  | kill (pid : Word)
  | exec (pathname argv : Word)
  | pipe (fd : Word)
  | dup (fd : Word)
  | dup2 (oldfd newfd : Word)
  | read (fd des nbytes : Word)
  | write (fd src nbytes : Word)
  | close (fd : Word)
  | fstat (fd sbuf : Word)
  | link (oldpname newpname : Word)
  | unlink (pathname : Word)
  | open (pathname flag : Word)
  | mknod (pathname : Word) (major minor : BitVec 16)
  | mkdir (pathname : Word)
  | chdir (pathname : Word)
  | ipcTrySend (pid value srcva perm : Word)
  | ipcSend (toProc val pg perm : Word)
  | ipcRecv (pg : Word)
  | getpid
  | welcome
  | ls (path : Word)
  deriving DecidableEq, Repr

/-- The registers that the `asm` statement of `usyscall` sets up. -/
def usyscall (syscallno : Nat) (a1 a2 a3 a4 a5 : Word) : Regs where
  eax := BitVec.ofNat 32 syscallno
  edx := a1
  ecx := a2
  ebx := a3
  edi := a4
  esi := a5

/-- The request that a stub passes. -/
def Stub.request : Stub → Regs
  | .fork => usyscall SYS_fork 0 0 0 0 0
  | .exit => usyscall SYS_exit 0 0 0 0 0
  | .sbrk n => usyscall SYS_sbrk n 0 0 0 0
  | .brk heapBrk => usyscall SYS_brk heapBrk 0 0 0 0
  | .wait => usyscall SYS_wait 0 0 0 0 0
  | .kill pid => usyscall SYS_kill pid 0 0 0 0
  | .exec pathname argv => usyscall SYS_exec pathname argv 0 0 0
  | .pipe fd => usyscall SYS_pipe fd 0 0 0 0
  | .dup fd => usyscall SYS_dup fd 0 0 0 0
  | .dup2 oldfd newfd => usyscall SYS_dup2 oldfd newfd 0 0 0
  | .read fd des nbytes => usyscall SYS_read fd des nbytes 0 0
  | .write fd src nbytes => usyscall SYS_write fd src nbytes 0 0
  | .close fd => usyscall SYS_close fd 0 0 0 0
  -- the descriptor is not passed
  | .fstat _ sbuf => usyscall SYS_fstat sbuf 0 0 0 0
  | .link oldpname newpname => usyscall SYS_link oldpname newpname 0 0 0
  | .unlink pathname => usyscall SYS_unlink pathname 0 0 0 0
  | .open pathname flag => usyscall SYS_open pathname flag 0 0 0
  | .mknod pathname major minor =>
    usyscall SYS_mknod pathname (major.setWidth 32) (minor.setWidth 32) 0 0
  | .mkdir pathname => usyscall SYS_mkdir pathname 0 0 0 0
  | .chdir pathname => usyscall SYS_chdir pathname 0 0 0 0
  | .ipcTrySend pid value srcva perm => usyscall SYS_ipc_try_send pid value srcva perm 0
  | .ipcSend toProc val pg perm => usyscall SYS_ipc_send toProc val pg perm 0
  | .ipcRecv pg => usyscall SYS_ipc_recv pg 0 0 0 0
  | .getpid => usyscall SYS_getpid 0 0 0 0 0
  | .welcome => usyscall SYS_welcome 0 0 0 0 0
  | .ls path => usyscall SYS_lsdir path 0 0 0 0

/-! ## §4 The two tables against each other -/

/-- What a stub asks for: the kernel function of the same name with the same arguments. -/
def Stub.meant : Stub → KernelCall
  | .fork => .clone CLONE_FORK
  | .exit => .exit
  | .sbrk n => .sbrk n
  | .brk heapBrk => .brk heapBrk
  | .wait => .wait
  | .kill pid => .kill pid
  | .exec pathname argv => .exec pathname argv
  | .pipe fd => .pipe fd
  | .dup fd => .dup fd
  | .dup2 oldfd newfd => .dup2 oldfd newfd
  | .read fd des nbytes => .read fd des nbytes
  | .write fd src nbytes => .write fd src nbytes
  | .close fd => .close fd
  | .fstat fd sbuf => .fstat fd sbuf
  | .link oldpname newpname => .link oldpname newpname
  | .unlink pathname => .unlink pathname
  | .open pathname flag => .open pathname flag
  | .mknod pathname major minor => .mknod pathname major minor
  | .mkdir pathname => .mkdir pathname
  | .chdir pathname => .chdir pathname
  | .ipcTrySend pid value srcva perm => .ipcTrySend pid value srcva perm
  | .ipcSend toProc val pg perm => .ipcSend toProc val pg perm
  | .ipcRecv pg => .ipcRecv pg
  | .getpid => .getpid
  | .welcome => .welcomeToWeiOS
  | .ls path => .lsTest path

/-- The arguments on which the two tables agree. -/
def Stub.Passed : Stub → Prop
  | .fstat fd sbuf => fd = 0 ∧ sbuf = 0
  | .mknod _ major minor => minor = major
  | _ => True

@[simp] theorem ushort_setWidth (a : BitVec 16) : ushort (a.setWidth 32) = a := by
  unfold ushort
  rw [BitVec.setWidth_setWidth_of_le _ (by omega), BitVec.setWidth_eq]

/-- The dispatcher takes the request of `fstat` for a call with the buffer as descriptor. -/
theorem trap_fstat (fd sbuf : Word) : trap (Stub.fstat fd sbuf).request = .fstat sbuf 0 := rfl

/-- The dispatcher takes the request of `mknod` for a call with the major number as minor number. -/
theorem trap_mknod (pathname : Word) (major minor : BitVec 16) :
    trap (Stub.mknod pathname major minor).request = .mknod pathname major major := by
  have hraw : trap (Stub.mknod pathname major minor).request =
      .mknod pathname (ushort (major.setWidth 32)) (ushort (major.setWidth 32)) := rfl
  rw [hraw, ushort_setWidth]

/-- Every stub reaches the kernel function of its own name. -/
theorem dispatched_name (u : Stub) : (trap u.request).ctorIdx = u.meant.ctorIdx := by
  cases u <;> rfl

/-- **A stub reaches its kernel function with its own arguments** exactly when it is not an `fstat`
    with something to pass and not a `mknod` with two different numbers. -/
theorem dispatched_iff (u : Stub) : trap u.request = u.meant ↔ u.Passed := by
  cases u with
  | fstat fd sbuf =>
    rw [trap_fstat]
    simp only [Stub.meant, Stub.Passed, KernelCall.fstat.injEq]
    constructor
    · rintro ⟨rfl, rfl⟩
      exact ⟨rfl, rfl⟩
    · rintro ⟨rfl, rfl⟩
      exact ⟨rfl, rfl⟩
  | mknod pathname major minor =>
    rw [trap_mknod]
    simp only [Stub.meant, Stub.Passed, KernelCall.mknod.injEq, true_and]
    exact eq_comm
  | _ => exact iff_of_true rfl trivial

/-- `fstat(3, sbuf)` is dispatched as `fstat(sbuf, 0)`, and `mknod` of the device 1, 0 as one of the
    device 1, 1. -/
theorem not_dispatched :
    ¬ ∀ u : Stub, trap u.request = u.meant := by
  intro h
  have hfstat := h (.fstat 3 0x1000)
  revert hfstat
  decide

end WeiOS.Syscalls
