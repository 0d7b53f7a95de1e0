import Mathlib
import WeiOS.Lib.IntrusiveList
import WeiOS.Lib.Run
import WeiOS.Process.Pid
import WeiOS.Mm.PageTable

/-!
# Processes and the Scheduler

The processes of `kern/proc.c`, `kern/sched.c` and `kern/sysfunc.c` on one processor: run queues, wait
lists, the descriptor cache, process creation and exit, `wait`, `kill` and messages. The node
`kinds_list` of a descriptor is linked with real pointers, and serves all these lists.

A step is a section of `proc_table_lock`, from the point where the lock is taken to the point where it
is released, or to the switch to the scheduler. Between two steps interrupts may come in: a timer tick,
or a wake-up by a handler. The results of page and descriptor allocations are arguments.
-/

namespace WeiOS.Sched

open WeiOS.Lib

/-! ## §1 Data -/

/-- `enum proc_status`. -/
inductive Status where
  | runnable | running | ready | sleeping | zomble | free
  deriving DecidableEq, Repr

/-- The two queues that `proc_init` allocates; which of them is `run_queue` changes. -/
inductive QueueId where
  | fst | snd
  deriving DecidableEq, Repr

/-- The lists that a `kinds_list` node can be on: the run queues by priority, the list `sleep_alone` of
    a process, the wait lists of other parts of the kernel, and the cache of free descriptors. -/
inductive Head where
  | procsInQueue (q : QueueId) (k : Nat)
  | sleepAlone (p : Nat)
  | chan (c : Nat)
  | procsDescCache
  deriving DecidableEq, Repr

/-- `struct proc`, as far as these functions use it; `p->children` is given as a list. -/
structure Proc where
  pid : Nat
  ppid : Nat
  status : Status
  timeslice : Nat
  timesliceLeft : Nat
  sleepAvg : Nat
  sleepStartJiffs : Nat
  killed : Bool
  preempted : Bool
  waitForChild : Bool
  ipcRecving : Bool
  ipcDstva : Nat
  ipcValue : Nat
  ipcPerm : Nat
  ipcFrom : Nat
  procQueue : Option QueueId
  priority : Nat
  children : List Nat
  deriving DecidableEq, Repr

/-- A descriptor after `memset(p, 0, sizeof(struct proc))`; `RUNNABLE` is 0. -/
def Proc.zero : Proc :=
  ⟨0, 0, .runnable, 0, 0, 0, 0, false, false, false, false, 0, 0, 0, 0, none, 0, []⟩

/-- `struct proc_queue` without its lists. -/
structure ProcQueue where
  nProcs : Nat
  priorityBitmap : BitVec 64
  deriving DecidableEq, Repr

/-- Who runs: a process, which is then `c->proc`, or the scheduler, between the unlock after a switch
    and the next lock; the scheduler remembers the process that it switched away from. -/
inductive Mode where
  | process (p : Nat)
  | scheduler (p : Option Nat)
  deriving DecidableEq, Repr

/-- What is on the kernel stack of a process: nothing of interest, or the call that it is inside of. -/
inductive Cont where
  | run
  | wait
  | ipcRecv
  | ipcSend (pid receiver : Nat)
  | clone (son : Nat)
  | exit
  | exited
  deriving DecidableEq, Repr

structure Sys where
  links : Links (Node Head Nat)
  procs : Nat → Proc
  nDescs : Nat
  queues : QueueId → ProcQueue
  runQueue : QueueId
  exhaustedQueue : QueueId
  mode : Mode
  conts : Nat → Cont
  nProcsAlive : Nat
  idBitmap : Process.IdBitmap
  procTable : Nat → Option Nat
  rootproc : Nat
  jiffs : Nat

/-- How a step fails: it stops the machine, or it cannot be taken now. -/
inductive Fault where
  | null
  | garbage
  | bounds
  | diverges
  | panic
  | disabled
  deriving DecidableEq, Repr

/-! ## §2 Constants -/

/-- `include/sched.h`, `include/param.h`. -/
def N_PRIORITY : Nat := 40
def MAX_USER_PRIO : Nat := 40
def DEFAULT_USER_PRIO : Nat := 19
def MIN_TIMESLICE : Nat := 5
def DEFAULT_TIMESLICE : Nat := 100
def MAX_BONUS : Nat := MAX_USER_PRIO * 25 / 100
def MAX_SLEEP_AVG : Nat := DEFAULT_TIMESLICE * MAX_BONUS

/-- `include/error.h`. -/
def E_INVAL : Int := 3
def E_NO_MEM : Int := 4
def E_NO_FREE_PROC : Int := 5
def E_IPC_NOT_RECV : Int := 7

/-! ## §3 Lists and descriptors -/

/-- Access through a pointer. -/
def deref {α : Type} : Option α → Except Fault α
  | some a => .ok a
  | none => .error .null

def Sys.setProc (s : Sys) (p : Nat) (f : Proc → Proc) : Sys :=
  { s with procs := Function.update s.procs p (f (s.procs p)) }

def Sys.setQueue (s : Sys) (q : QueueId) (f : ProcQueue → ProcQueue) : Sys :=
  { s with queues := Function.update s.queues q (f (s.queues q)) }

/-- Process `p` goes on with `c` when it runs again. -/
def Sys.goto (s : Sys) (p : Nat) (c : Cont) : Sys := { s with conts := Function.update s.conts p c }

def listAdd (s : Sys) (p : Nat) (h : Head) : Except Fault Sys := do
  let links ← deref (s.links.add (.elem p) (.head h))
  return { s with links := links }

def listAddTail (s : Sys) (p : Nat) (h : Head) : Except Fault Sys := do
  let links ← deref (s.links.addTail (.elem p) (.head h))
  return { s with links := links }

def listDel (s : Sys) (p : Nat) : Except Fault Sys := do
  let links ← deref (s.links.del (.elem p))
  return { s with links := links }

/-- `add_proc_to_queue`; the bit is set in one of the two words of the bitmap. -/
def addProcToQueue (s : Sys) (q : QueueId) (p : Nat) : Except Fault Sys := do
  let k := (s.procs p).priority
  let s ← listAddTail (s.setQueue q fun Q => { Q with
    priorityBitmap := Q.priorityBitmap ||| 1#64 <<< k }) p (.procsInQueue q k)
  return (s.setQueue q fun Q => { Q with nProcs := (Q.nProcs + 1) % 2 ^ 32 }).setProc p fun P =>
    { P with procQueue := some q }

/-- The end of `del_proc_fron_queue`, after the node was taken out. -/
def leaveQueue (s : Sys) (q : QueueId) (p : Nat) : Sys :=
  let k := (s.procs p).priority
  let empty := s.links.isEmpty (.head (.procsInQueue q k))
  (s.setQueue q fun Q =>
    { nProcs := (Q.nProcs + (2 ^ 32 - 1)) % 2 ^ 32
      priorityBitmap := if empty then Q.priorityBitmap &&& ~~~(1#64 <<< k)
        else Q.priorityBitmap }).setProc p fun P => { P with procQueue := none }

/-- `del_proc_fron_queue`. -/
def delProcFronQueue (s : Sys) (p : Nat) : Except Fault Sys := do
  let q ← deref (s.procs p).procQueue
  let s ← listDel s p
  return leaveQueue s q p

/-- `find_first_set`. -/
def findFirstSet (bitmap : BitVec 64) : Nat :=
  ((List.range N_PRIORITY).find? fun idx => 1#64 <<< idx &&& bitmap ≠ 0#64).getD N_PRIORITY

/-- `recalculate_priority`; `CURRENT_BONUS` is computed in `uint32_t`. -/
def recalculatePriority (P : Proc) : Nat :=
  let bonus : Int := (P.sleepAvg * MAX_BONUS % 2 ^ 32 / MAX_SLEEP_AVG : Nat) - (MAX_BONUS / 2 : Nat)
  let priority : Int := P.priority - bonus
  if priority < 0 then 0
  else if priority > MAX_USER_PRIO - 1 then MAX_USER_PRIO - 1
  else priority.toNat

/-- `task_timeslice`. -/
def taskTimeslice (P : Proc) : Nat :=
  let x := if P.priority < 20 then DEFAULT_TIMESLICE * 4 else DEFAULT_TIMESLICE
  max (x * ( MAX_USER_PRIO - P.priority) / ( MAX_USER_PRIO / 2)) MIN_TIMESLICE

/-! ## §4 Switching -/

/-- `sched`: to the scheduler, which then releases `proc_table_lock`. -/
def sched (s : Sys) (p : Nat) : Except Fault Sys :=
  if (s.procs p).status = .running then .error .panic
  else .ok { s with mode := .scheduler (some p) }

/-- `yield`. -/
def yield (s : Sys) (p : Nat) : Except Fault Sys :=
  sched (s.setProc p fun P => { P with status := .runnable }) p

/-- The process that the scheduler comes from, which is on no queue, gets a new time slice. -/
def reenter (s : Sys) (p : Nat) : Except Fault Sys :=
  let timesliceLeft := (s.procs p).timesliceLeft
  let s := s.setProc p fun P => { P with priority := recalculatePriority P }
  let s := s.setProc p fun P => { P with timeslice := taskTimeslice P / 2, sleepAvg := 0 }
  if timesliceLeft = 0 then
    addProcToQueue (s.setProc p fun P => { P with timesliceLeft := P.timeslice }) s.exhaustedQueue p
  else
    addProcToQueue s s.runQueue p

/-- The scheduler puts the process that it comes from on a queue; an interrupt may have done so. -/
def requeue (s : Sys) (p : Nat) : Except Fault Sys :=
  if (s.procs p).procQueue.isSome then do
    let s ← delProcFronQueue s p
    reenter s p
  else
    reenter s p

/-- The scheduler takes the first process of the run queue, or idles. -/
def pick (s : Sys) : Except Fault Sys :=
  let prior := findFirstSet (s.queues s.runQueue).priorityBitmap
  if prior < N_PRIORITY then
    match s.links.next (.head (.procsInQueue s.runQueue prior)) with
    | some (.elem p) => do
      let s ← delProcFronQueue s p
      return { s.setProc p fun P => { P with status := .running } with mode := .process p }
    | some (.head _) => .error .garbage
    | none => .error .null
  else
    .ok { s with mode := .scheduler none }

/-- The queues change places when nothing is left to run. -/
def swapQueues (s : Sys) : Sys :=
  if (s.queues s.runQueue).nProcs = 0 then
    { s with runQueue := s.exhaustedQueue, exhaustedQueue := s.runQueue }
  else
    s

/-- One turn of the loop of `scheduler`, up to the switch; `p` is its variable. -/
def schedule (s : Sys) (p : Option Nat) : Except Fault Sys := do
  let s ← match p with
    | some p => if (s.procs p).status = .runnable then requeue s p else pure s
    | none => pure s
  pick (swapQueues s)

/-- The timer interrupt in process `p`. -/
def tick (s : Sys) (p : Nat) : Except Fault Sys :=
  let s := { s with jiffs := (s.jiffs + 1) % 2 ^ 32 }
  let s := s.setProc p fun P => { P with
    sleepAvg := P.sleepAvg - 1
    timesliceLeft := (P.timesliceLeft + (2 ^ 32 - 1)) % 2 ^ 32 }
  if (s.procs p).timesliceLeft = 0 then yield s p else .ok s

/-! ## §5 Sleeping and waking -/

/-- `sleep` on the list `h`, inside of the call `c`. -/
def sleep (s : Sys) (p : Nat) (h : Head) (c : Cont) : Except Fault Sys := do
  let s := s.setProc p fun P => { P with status := .sleeping, sleepStartJiffs := s.jiffs }
  let s ← listAddTail s p h
  sched (s.goto p c) p

/-- The loop body of `wakeup1`. -/
def wakeOne (s : Sys) (p : Nat) : Except Fault Sys := do
  let s ← listDel s p
  let s := s.setProc p fun P => { P with
    sleepAvg := (P.sleepAvg + (s.jiffs + (2 ^ 32 - P.sleepStartJiffs))) % 2 ^ 32
    sleepStartJiffs := 0
    status := .runnable }
  let s := s.setProc p fun P => { P with priority := recalculatePriority P }
  let s := s.setProc p fun P => { P with timeslice := taskTimeslice P / 2, sleepAvg := 0 }
  addProcToQueue s s.runQueue p

/-- The loop of `wakeup1` from the node `t` on; it also finds the best priority. -/
def wakeLoop (h : Head) : Nat → Node Head Nat → Nat → Sys → Except Fault (Sys × Nat)
  | n, t, best, s =>
    if t = .head h then .ok (s, best)
    else
      match n, t with
      | 0, _ => .error .diverges
      | _, .head _ => .error .garbage
      | n + 1, .elem p => do
        let next ← deref (s.links.next t)
        let s ← wakeOne s p
        wakeLoop h n next (min best (s.procs p).priority) s

/-- The end of `wakeup1`: the running process is preempted by a better one. -/
def preempt (s : Sys) (best : Nat) : Sys :=
  match s.mode with
  | .process p =>
    if best < (s.procs p).priority then s.setProc p fun P => { P with preempted := true } else s
  | .scheduler _ => s

/-- `wakeup1`; no list has more nodes than there are descriptors. -/
def wakeup1 (s : Sys) (h : Head) : Except Fault Sys := do
  let t ← deref (s.links.next (.head h))
  let (s, best) ← wakeLoop h s.nDescs t N_PRIORITY s
  return preempt s best

/-- `pid2proc`, `none` for its error. -/
def pid2proc (procs : Nat → Proc) (procTable : Nat → Option Nat) (cur pid : Nat) (check : Bool) :
    Except Fault (Option Nat) :=
  if pid = 0 then .ok (some cur)
  else if Process.NPROC < pid then .ok none
  else if pid = Process.NPROC then .error .bounds
  else
    match procTable pid with
    | none => .error .null
    | some p =>
      if (procs p).status = .free ∨ (procs p).pid ≠ pid then .ok none
      else if check ∧ p ≠ cur ∧ (procs p).ppid ≠ (procs cur).pid then .ok none
      else .ok (some p)

/-- What `kill` and `murder` do to the process they have found. -/
def killProc (s : Sys) (p : Nat) : Except Fault Sys := do
  let s := s.setProc p fun P => { P with killed := true }
  if (s.procs p).status = .sleeping then
    let s ← listDel (s.setProc p fun P => { P with status := .runnable }) p
    addProcToQueue s s.runQueue p
  else
    return s

/-- `kill` (with `check`) and `murder` (without). -/
def kill (s : Sys) (cur pid : Nat) (check : Bool) : Except Fault Sys :=
  if Process.NPROC < pid then .ok s
  else do
    match ← pid2proc s.procs s.procTable cur pid check with
    | some p => killProc s p
    | none => return s

/-! ## §6 Creation and exit -/

/-- `memset(p, 0, sizeof(struct proc))`, over the list head in the descriptor as well. -/
def zeroDesc (s : Sys) (p : Nat) : Sys :=
  { s with links := (s.links.setNext (.head (.sleepAlone p)) none).setPrev (.head (.sleepAlone p)) none
      }.setProc p fun _ => Proc.zero

/-- `get_proc_desc`: a cached descriptor, or a new one; it is zeroed. -/
def getProcDesc (s : Sys) (kmalloc : Bool) : Except Fault (Option Nat × Sys) :=
  match s.links.next (.head .procsDescCache) with
  | some (.elem p) => do
    let s ← listDel s p
    return (some p, zeroDesc s p)
  | some (.head .procsDescCache) =>
    if kmalloc then .ok (some s.nDescs, zeroDesc { s with nDescs := s.nDescs + 1 } s.nDescs)
    else .ok (none, s)
  | some (.head _) => .error .garbage
  | none => .error .null

/-- `proc_desc_destroy`. -/
def procDescDestroy (s : Sys) (p : Nat) : Except Fault Sys := do
  let idBitmap ← (Process.clearPid s.idBitmap (s.procs p).pid).mapError fun _ => Fault.bounds
  let s := { s with
    idBitmap := idBitmap
    procTable := Function.update s.procTable (s.procs p).pid none
    nProcsAlive := (s.nProcsAlive + (2 ^ 32 - 1)) % 2 ^ 32 }
  listAdd (s.setProc p fun P => { P with status := .free }) p .procsDescCache

/-- The results of the allocations that `proc_alloc` makes. -/
structure AllocResults where
  kmalloc : Bool
  setupVm : Bool
  kstack : Bool
  deriving DecidableEq, Repr

/-- The middle of `proc_alloc`: the descriptor `p` becomes a process with a pid of its own. -/
def initProc (s : Sys) (p : Nat) : Sys :=
  let pid := (Process.getPid s.idBitmap).1
  { s with
    nProcsAlive := (s.nProcsAlive + 1) % 2 ^ 32
    idBitmap := (Process.getPid s.idBitmap).2
    procTable := Function.update s.procTable pid (some p)
    links := s.links.init (.head (.sleepAlone p))
    conts := Function.update s.conts p .run }.setProc p fun P =>
      { P with pid := pid, status := .ready, children := [] }

/-- `proc_alloc`: a process, or the value that is returned. Its last failure returns the 0 that
    `proc_setup_vm` left in `r`, with nothing stored. -/
def procAlloc (s : Sys) (r : AllocResults) : Except Fault (Sys × Except Int Nat) :=
  if s.nProcsAlive = Process.NPROC then
    .ok (s, .error (-E_NO_FREE_PROC))
  else do
    match ← getProcDesc s r.kmalloc with
    | (none, s) => return (s, .error (-E_NO_MEM))
    | (some p, s) =>
      if !r.setupVm then
        return (← procDescDestroy s p, .error (-E_NO_MEM))
      else if !r.kstack then
        return (← procDescDestroy (initProc s p) p, .error 0)
      else
        return (initProc s p, .ok p)

/-- `dup_proc_struct` after `proc_alloc`: the son is a copy of its father, and RUNNABLE already. -/
def dupProc (s : Sys) (cur son : Nat) : Sys :=
  let left := max ((s.procs cur).timesliceLeft / 2) 1
  let s := s.setProc cur fun P => { P with timesliceLeft := left }
  s.setProc son fun P => { P with
    ppid := (s.procs cur).pid
    status := .runnable
    timesliceLeft := left
    timeslice := DEFAULT_TIMESLICE
    sleepAvg := (s.procs cur).sleepAvg
    priority := DEFAULT_USER_PRIO }

/-- `clone` up to the copy of the address space. When `proc_alloc` returns 0 without a process, the
    caller goes on with an uninitialised pointer. -/
def clone (s : Sys) (cur : Nat) (r : AllocResults) : Except Fault Sys := do
  match ← procAlloc s r with
  | (s, .ok son) => return (dupProc s cur son).goto cur (.clone son)
  | (s, .error e) => if e = 0 then throw .garbage else return s

/-- The end of `clone`: `ok` tells whether the flag was good and `cow_fork` succeeded. -/
def cloneFinish (s : Sys) (cur son : Nat) (ok : Bool) : Except Fault Sys :=
  if ok then
    let s := s.setProc cur fun P => { P with children := P.children ++ [son] }
    addProcToQueue (s.goto cur .run) s.runQueue son
  else
    .ok (s.goto cur .run)

/-- One child is handed to `rootproc`. -/
def reparent (rootproc cur : Nat) (procs : Nat → Proc) (c : Nat) : Nat → Proc :=
  let procs := Function.update procs cur
    { procs cur with children := (procs cur).children.erase c }
  let procs := Function.update procs c { procs c with ppid := (procs rootproc).pid }
  Function.update procs rootproc { procs rootproc with children := c :: (procs rootproc).children }

/-- The first section of `exit`. -/
def exit (s : Sys) (cur : Nat) : Except Fault Sys :=
  if cur = s.rootproc then .error .panic
  else
    let s := { s with procs := (s.procs cur).children.foldl (reparent s.rootproc cur) s.procs }
    .ok ((s.setProc cur fun P => { P with procQueue := none, status := .zomble }).goto cur .exit)

/-- The process that an exiting process takes for its father. -/
def fatherOf (procs : Nat → Proc) (procTable : Nat → Option Nat) (rootproc cur : Nat) :
    Except Fault Nat :=
  if (procs cur).ppid ≠ 0 then do deref (← pid2proc procs procTable cur (procs cur).ppid false)
  else .ok rootproc

/-- The last section of `exit`, after the files were closed. -/
def exitFinish (s : Sys) (cur : Nat) : Except Fault Sys := do
  let p ← fatherOf s.procs s.procTable s.rootproc cur
  let s ← if (s.procs p).waitForChild then wakeup1 s (.sleepAlone p) else pure s
  sched (s.goto cur .exited) cur

/-- `wait`, one turn of its loop. -/
def wait (s : Sys) (cur : Nat) : Except Fault Sys :=
  match (s.procs cur).children.find? fun c => (s.procs c).status = .zomble with
  | some c =>
    let s := s.setProc cur fun P => { P with children := P.children.erase c }
    procDescDestroy (s.goto cur .run) c
  | none =>
    sleep (s.setProc cur fun P => { P with waitForChild := true }) cur (.sleepAlone cur) .wait

/-! ## §7 Messages -/

/-- What `ipc_try_send` meets when it hands a page over: the page is mapped in the sender, with
    `PTE_W`, and `page_insert` succeeds in the receiver. -/
structure PageResults where
  mapped : Bool
  writable : Bool
  inserted : Bool
  deriving DecidableEq, Repr

/-- The page part of `ipc_try_send`: the permissions that the receiver is told, or an error. -/
def sendPage (dstva srcva perm : Nat) (pg : PageResults) : Except Int Nat :=
  if dstva < Paging.UTOP ∧ srcva < Paging.UTOP then
    if srcva % Paging.PGSIZE ≠ 0 then .error (-E_INVAL)
    else if !pg.mapped then .error (-E_INVAL)
    else if Paging.badPerm perm then .error (-E_INVAL)
    else if perm &&& Paging.PTE_W ≠ 0 ∧ !pg.writable then .error (-E_INVAL)
    else if !pg.inserted then .error (-E_NO_MEM)
    else .ok perm
  else
    .ok 0

/-- The start of `ipc_try_send`: the receiver is looked up before the lock is taken. The call returns
    `-E_BAD_PROC` when there is none. -/
def ipcLookup (s : Sys) (cur pid : Nat) : Except Fault Sys := do
  match ← pid2proc s.procs s.procTable cur pid false with
  | none => return s
  | some receiver => return s.goto cur (.ipcSend pid receiver)

/-- `ipc_try_send` under the lock, with its return value. -/
def ipcTrySend (s : Sys) (cur receiver value srcva perm : Nat) (pg : PageResults) :
    Except Fault (Sys × Int) :=
  if !(s.procs receiver).ipcRecving then
    .ok (s.goto cur .run, -E_IPC_NOT_RECV)
  else
    match sendPage (s.procs receiver).ipcDstva srcva perm pg with
    | .error e => .ok (s.goto cur .run, e)
    | .ok ipcPerm => do
      let s := s.setProc receiver fun P => { P with
        ipcPerm := ipcPerm
        ipcRecving := false
        ipcFrom := (s.procs cur).pid
        ipcValue := value }
      let s ← wakeup1 s (.sleepAlone receiver)
      return (s.goto cur .run, 0)

/-- `ipc_recv` up to its sleep, for an address that passes its check. -/
def ipcRecv (s : Sys) (cur dstva : Nat) : Except Fault Sys :=
  sleep (s.setProc cur fun P => { P with ipcDstva := dstva, ipcRecving := true }) cur
    (.sleepAlone cur) .ipcRecv

/-! ## §8 Steps and runs -/

/-- The steps: interrupts, the calls of the running process and their later sections, and the turn of
    the scheduler. -/
inductive Op where
  | wakeup (c : Nat)
  | tick
  | yield
  | sleep (c : Nat)
  | kill (pid : Nat) (check : Bool)
  | clone (r : AllocResults)
  | cloneFinish (ok : Bool)
  | wait
  | exit
  | exitFinish
  | ipcLookup (pid : Nat)
  | ipcTrySend (value srcva perm : Nat) (pg : PageResults)
  | ipcRecv (dstva : Nat)
  | ipcRecvReturn
  | schedule
  deriving DecidableEq, Repr

/-- A step of the running process `p`, by what it is inside of. -/
def procStep (s : Sys) (p : Nat) : Cont → Op → Except Fault Sys
  | .exited, _ => .error .disabled
  | _, .wakeup c => wakeup1 s (.chan c)
  | _, .tick => tick s p
  | _, .yield => yield s p
  | .run, .sleep c => sleep s p (.chan c) .run
  | .clone son, .sleep c => sleep s p (.chan c) (.clone son)
  | .exit, .sleep c => sleep s p (.chan c) .exit
  | .run, .kill pid check => kill s p pid check
  | .run, .clone r => clone s p r
  | .clone son, .cloneFinish ok => cloneFinish s p son ok
  | .run, .wait => wait s p
  | .wait, .wait => wait s p
  | .run, .exit => exit s p
  | .exit, .exitFinish => exitFinish s p
  | .run, .ipcLookup pid => ipcLookup s p pid
  | .ipcSend _ receiver, .ipcTrySend value srcva perm pg => do
    let (s, _) ← ipcTrySend s p receiver value srcva perm pg
    return s
  | .run, .ipcRecv dstva =>
    if dstva < Paging.UTOP ∧ dstva % Paging.PGSIZE ≠ 0 then .ok s else ipcRecv s p dstva
  | .ipcRecv, .ipcRecvReturn => .ok (s.goto p .run)
  | _, _ => .error .disabled

def step (s : Sys) (o : Op) : Except Fault Sys :=
  match s.mode with
  | .process p => procStep s p (s.conts p) o
  | .scheduler p =>
    match o with
    | .wakeup c => wakeup1 s (.chan c)
    | .tick => .ok { s with jiffs := (s.jiffs + 1) % 2 ^ 32 }
    | .schedule => schedule s p
    | _ => .error .disabled

/-- The heads that are initialised before the first process is made. -/
def initHead : Head → Bool
  | .procsInQueue _ k => decide (k < N_PRIORITY)
  | .sleepAlone _ => false
  | .chan _ => true
  | .procsDescCache => true

/-- After `proc_init`. No descriptor has been handed out; one that was not counts as free. -/
def procInit : Sys where
  links :=
    let self : Node Head Nat → Option (Node Head Nat)
      | .head h => if initHead h then some (.head h) else none
      | .elem _ => none
    ⟨self, self⟩
  procs := fun _ => { Proc.zero with status := .free }
  nDescs := 0
  queues := fun _ => ⟨0, 0⟩
  runQueue := .fst
  exhaustedQueue := .snd
  mode := .scheduler none
  conts := fun _ => .run
  nProcsAlive := 0
  idBitmap := fun _ => 0xFFFFFFFF#32
  procTable := fun _ => none
  rootproc := 0
  jiffs := 0

/-- `WeiOS_first_process`, with every allocation succeeding. -/
def firstProcess (s : Sys) : Except Fault Sys := do
  match ← procAlloc s ⟨true, true, true⟩ with
  | (s, .ok p) =>
    let s := s.setProc p fun P => { P with
      status := .runnable
      priority := DEFAULT_USER_PRIO
      timeslice := DEFAULT_TIMESLICE
      timesliceLeft := DEFAULT_TIMESLICE }
    let s ← addProcToQueue s s.runQueue p
    return { s with rootproc := p }
  | (_, .error _) => throw .panic

/-- A run of the machine from boot. -/
def runOps (ops : List Op) : Except Fault Sys := do
  let s ← firstProcess procInit
  ops.foldlM step s

end WeiOS.Sched
