import Mathlib
import WeiOS.Process.Sched

/-!
# Processes without Queues

What a step of the machine does to processes, with the run queues, priorities and pointers forgotten: of
a process there remain its status, its family, its messages and the call it is inside of. The scheduler
may run any process that is runnable, and a wake-up on a list of another part of the kernel may wake any
processes that sleep there.

`AStep` is the abstract step relation. Properties of whole runs that do not speak of queues are proved
about it.
-/

namespace WeiOS.Sched

/-! ## §1 Abstract states -/

/-- What scheduling does not touch, and the status. -/
def Proc.view (P : Proc) : Proc :=
  { P with
    timeslice := 0, timesliceLeft := 0, sleepAvg := 0, sleepStartJiffs := 0, preempted := false
    procQueue := none, priority := 0 }

structure Abs where
  procs : Nat → Proc
  cont : Nat → Cont
  mode : Mode
  procTable : Nat → Option Nat
  rootproc : Nat

def Sys.abs (s : Sys) : Abs :=
  ⟨fun y => (s.procs y).view, s.conts, s.mode, s.procTable, s.rootproc⟩

/-- Inside of these calls a process sleeps on its own `sleep_alone`. -/
def Cont.alone : Cont → Bool
  | .wait | .ipcRecv => true
  | _ => false

def Abs.setProc (a : Abs) (p : Nat) (f : Proc → Proc) : Abs :=
  { a with procs := Function.update a.procs p (f (a.procs p)) }

def Abs.goto (a : Abs) (p : Nat) (c : Cont) : Abs := { a with cont := Function.update a.cont p c }

/-- The pid table names `y`, or nobody, for `pid`. -/
def Abs.enter (a : Abs) (pid : Nat) (y : Option Nat) : Abs :=
  { a with procTable := Function.update a.procTable pid y }

/-- The scheduler switches to `y`. -/
def Abs.run (a : Abs) (y : Nat) : Abs :=
  { a.setProc y fun P => { P with status := .running } with mode := .process y }

/-- The children of `p` are handed to `rootproc`. -/
def Abs.handOver (a : Abs) (p : Nat) : Abs :=
  { a with procs := (a.procs p).children.foldl (reparent a.rootproc p) a.procs }

/-- The running process gives the processor up, in status `st` and inside of `c`. -/
def Abs.leave (a : Abs) (p : Nat) (st : Status) (c : Cont) : Abs :=
  { (a.setProc p fun P => { P with status := st }).goto p c with mode := .scheduler (some p) }

/-- A wake-up of `sleep_alone`. -/
def Abs.wakeAlone (a : Abs) (p : Nat) : Abs :=
  if (a.procs p).status = .sleeping ∧ (a.cont p).alone then
    a.setProc p fun P => { P with status := .runnable }
  else
    a

def Abs.kill (a : Abs) (p : Nat) : Abs :=
  a.setProc p fun P => { P with
    killed := true
    status := if P.status = .sleeping then .runnable else P.status }

/-- The processes in `W`, which were asleep, are woken up. -/
structure Wakes (W : Nat → Prop) (a a' : Abs) : Prop where
  woken : ∀ y, W y → (a.procs y).status = .sleeping ∧
    a'.procs y = { a.procs y with status := .runnable }
  other : ∀ y, ¬ W y → a'.procs y = a.procs y
  rest : a' = { a with procs := a'.procs }

section
variable (a : Abs) (p y : Nat) (f : Proc → Proc) (c : Cont) (st : Status) (o : Option Nat)

@[simp, grind =] theorem Abs.setProc_procs :
    (a.setProc p f).procs y = if y = p then f (a.procs p) else a.procs y := Function.update_apply ..
@[simp, grind =] theorem Abs.setProc_cont : (a.setProc p f).cont y = a.cont y := rfl
@[simp, grind =] theorem Abs.setProc_mode : (a.setProc p f).mode = a.mode := rfl
@[simp, grind =] theorem Abs.setProc_procTable : (a.setProc p f).procTable = a.procTable := rfl
@[simp, grind =] theorem Abs.goto_procTable : (a.goto p c).procTable = a.procTable := rfl
@[simp, grind =] theorem Abs.goto_procs : (a.goto p c).procs y = a.procs y := rfl
@[simp, grind =] theorem Abs.goto_cont :
    (a.goto p c).cont y = if y = p then c else a.cont y := Function.update_apply ..
@[simp, grind =] theorem Abs.goto_mode : (a.goto p c).mode = a.mode := rfl
@[simp, grind =] theorem Abs.leave_procs :
    (a.leave p st c).procs y = if y = p then { a.procs p with status := st } else a.procs y :=
  Function.update_apply ..
@[simp, grind =] theorem Abs.leave_cont :
    (a.leave p st c).cont y = if y = p then c else a.cont y := Function.update_apply ..
@[simp, grind =] theorem Abs.leave_mode : (a.leave p st c).mode = .scheduler (some p) := rfl
@[simp, grind =] theorem Abs.enter_procs : (a.enter p o).procs y = a.procs y := rfl
@[simp] theorem Abs.enter_procTable :
    (a.enter p o).procTable = Function.update a.procTable p o := rfl
@[simp, grind =] theorem Abs.enter_cont : (a.enter p o).cont y = a.cont y := rfl
@[simp, grind =] theorem Abs.enter_mode : (a.enter p o).mode = a.mode := rfl
@[simp, grind =] theorem Abs.run_procs : (a.run p).procs y =
    if y = p then { a.procs p with status := .running } else a.procs y := Function.update_apply ..
@[simp, grind =] theorem Abs.run_cont : (a.run p).cont y = a.cont y := rfl
@[simp, grind =] theorem Abs.run_mode : (a.run p).mode = .process p := rfl
@[simp, grind =] theorem Abs.handOver_cont : (a.handOver p).cont y = a.cont y := rfl
@[simp, grind =] theorem Abs.handOver_mode : (a.handOver p).mode = a.mode := rfl
@[simp, grind =] theorem Abs.kill_cont : (a.kill p).cont y = a.cont y := rfl
@[simp, grind =] theorem Abs.kill_mode : (a.kill p).mode = a.mode := rfl
@[simp, grind =] theorem Abs.kill_procs : (a.kill p).procs y =
    if y = p then { a.procs p with
      killed := true
      status := if (a.procs p).status = .sleeping then .runnable else (a.procs p).status }
    else a.procs y := Function.update_apply ..

@[simp, grind =] theorem Abs.wakeAlone_cont : (a.wakeAlone p).cont y = a.cont y := by
  unfold Abs.wakeAlone
  split
  · rfl
  · rfl

@[simp, grind =] theorem Abs.wakeAlone_mode : (a.wakeAlone p).mode = a.mode := by
  unfold Abs.wakeAlone
  split
  · rfl
  · rfl

@[grind =] theorem Abs.wakeAlone_procs : (a.wakeAlone p).procs y =
    if y = p ∧ (a.procs p).status = .sleeping ∧ (a.cont p).alone then
      { a.procs p with status := .runnable }
    else a.procs y := by
  unfold Abs.wakeAlone
  split
  · next h => simp [h]
  · next h => rw [if_neg fun hy => h hy.2]

end

/-! ## §2 Steps -/

/-- The children that have called `exit`. -/
def Abs.zombies (a : Abs) (p : Nat) : Option Nat :=
  (a.procs p).children.find? fun c => (a.procs c).status = .zomble

/-- What the steps of the machine can do. -/
inductive AStep (a : Abs) : Op → Abs → Prop where
  | wakeup {c : Nat} {W : Nat → Prop} {a' : Abs} (hW : ∀ y, W y → (a.cont y).alone = false)
      (h : Wakes W a a') : AStep a (.wakeup c) a'
  | tick : AStep a .tick a
  | tickYield {p : Nat} (hp : a.mode = .process p) :
      AStep a .tick (a.leave p .runnable (a.cont p))
  | yield {p : Nat} (hp : a.mode = .process p) : AStep a .yield (a.leave p .runnable (a.cont p))
  | sleep {p c : Nat} (hp : a.mode = .process p) (hc : (a.cont p).alone = false) :
      AStep a (.sleep c) (a.leave p .sleeping (a.cont p))
  | killNone {pid : Nat} {check : Bool} : AStep a (.kill pid check) a
  | kill {p y pid : Nat} {check : Bool} (hp : a.mode = .process p) (hc : a.cont p = .run)
      (hy : pid2proc a.procs a.procTable p pid check = .ok (some y)) :
      AStep a (.kill pid check) (a.kill y)
  | cloneNone {r : AllocResults} : AStep a (.clone r) a
  /-- A descriptor was taken and given back, under pid 0. -/
  | cloneFail {r : AllocResults} {y : Nat} (hy : (a.procs y).status = .free) :
      AStep a (.clone r) ((a.setProc y fun _ => { Proc.zero with status := .free }).enter 0 none)
  | clone {r : AllocResults} {p y pid : Nat} (hp : a.mode = .process p) (hc : a.cont p = .run)
      (hy : (a.procs y).status = .free) :
      AStep a (.clone r) ((((a.setProc y fun _ => { Proc.zero with
        pid := pid, ppid := (a.procs p).pid }).goto y .run).goto p (.clone y)).enter pid (some y))
  | cloneAbort {p son : Nat} (hp : a.mode = .process p) (hc : a.cont p = .clone son) :
      AStep a (.cloneFinish false) (a.goto p .run)
  | cloneFinish {p son : Nat} (hp : a.mode = .process p) (hc : a.cont p = .clone son) :
      AStep a (.cloneFinish true)
        ((a.setProc p fun P => { P with children := P.children ++ [son] }).goto p .run)
  | reap {p c : Nat} (hp : a.mode = .process p) (hc : a.cont p = .run ∨ a.cont p = .wait)
      (hz : a.zombies p = some c) :
      AStep a .wait ((((a.setProc p fun P => { P with
        children := P.children.erase c }).setProc c fun P =>
          { P with status := .free }).goto p .run).enter (a.procs c).pid none)
  | waitSleep {p : Nat} (hp : a.mode = .process p) (hc : a.cont p = .run ∨ a.cont p = .wait)
      (hz : a.zombies p = none) :
      AStep a .wait ((a.setProc p fun P => { P with waitForChild := true }).leave p .sleeping .wait)
  | exit {p : Nat} (hp : a.mode = .process p) (hc : a.cont p = .run) (hr : p ≠ a.rootproc) :
      AStep a .exit (((a.handOver p).setProc p fun P => { P with status := .zomble }).goto p .exit)
  | exitFinish {p f : Nat} (hp : a.mode = .process p) (hc : a.cont p = .exit)
      (hf : fatherOf a.procs a.procTable a.rootproc p = .ok f)
      (hst : (a.procs p).status ≠ .running) :
      AStep a .exitFinish ((if (a.procs f).waitForChild then a.wakeAlone f else a).leave p
        (a.procs p).status .exited)
  | lookupNone {pid : Nat} : AStep a (.ipcLookup pid) a
  | lookup {p t pid : Nat} (hp : a.mode = .process p) (hc : a.cont p = .run)
      (ht : pid2proc a.procs a.procTable p pid false = .ok (some t)) :
      AStep a (.ipcLookup pid) (a.goto p (.ipcSend pid t))
  | sendFail {p t pid value srcva perm : Nat} {pg : PageResults} (hp : a.mode = .process p)
      (hc : a.cont p = .ipcSend pid t) (hfail : (a.procs t).ipcRecving = true →
        ∃ e, sendPage (a.procs t).ipcDstva srcva perm pg = .error e) :
      AStep a (.ipcTrySend value srcva perm pg) (a.goto p .run)
  | send {p t pid value srcva perm ipcPerm : Nat} {pg : PageResults} (hp : a.mode = .process p)
      (hc : a.cont p = .ipcSend pid t) (hrecv : (a.procs t).ipcRecving = true)
      (hperm : sendPage (a.procs t).ipcDstva srcva perm pg = .ok ipcPerm) :
      AStep a (.ipcTrySend value srcva perm pg) (((a.setProc t fun P => { P with
        ipcPerm := ipcPerm
        ipcRecving := false
        ipcFrom := (a.procs p).pid
        ipcValue := value }).wakeAlone t).goto p .run)
  | recvBad {p dstva : Nat} (hp : a.mode = .process p) (hc : a.cont p = .run)
      (hbad : dstva < Paging.UTOP ∧ dstva % Paging.PGSIZE ≠ 0) : AStep a (.ipcRecv dstva) a
  | recv {p dstva : Nat} (hp : a.mode = .process p) (hc : a.cont p = .run)
      (hgood : ¬ (dstva < Paging.UTOP ∧ dstva % Paging.PGSIZE ≠ 0)) :
      AStep a (.ipcRecv dstva) ((a.setProc p fun P => { P with
        ipcDstva := dstva, ipcRecving := true }).leave p .sleeping .ipcRecv)
  | recvReturn {p : Nat} (hp : a.mode = .process p) (hc : a.cont p = .ipcRecv) :
      AStep a .ipcRecvReturn (a.goto p .run)
  | idle {q : Option Nat} (hm : a.mode = .scheduler q) :
      AStep a .schedule { a with mode := .scheduler none }
  | pick {q : Option Nat} {y : Nat} (hm : a.mode = .scheduler q)
      (hy : (a.procs y).status = .runnable) :
      AStep a .schedule (a.run y)

end WeiOS.Sched
