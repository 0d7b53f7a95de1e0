import Mathlib
import WeiOS.Lib.Run
import WeiOS.Fs.FileWrite
import WeiOS.Fs.RefRuns

/-!
# Updates inside Transactions

Where the system calls begin and end their transactions. A call is a program of pieces of kernel code
with `begin_transaction` and `end_transaction` between them; the processes run their programs piece by
piece in any order. A piece says in which states it calls `log_write`.

All pieces that may update the disk stand between the brackets of their call, but for one: `exit` puts
its working directory back without a transaction.

## Main results
- `stray_iff`: a run logs outside of transactions if and only if some `exit` frees its working
  directory.
- `exit_in_removed_directory`: a run that does.
-/

namespace WeiOS.Syscall

open WeiOS.Inode (T_DIR T_FILE T_DEV)
open WeiOS.Dir (Name Kern)

/-! ## §1 Programs -/

/-- What a process has still to do in a system call. -/
inductive Prog where
  | done
  | beginTransaction (k : Prog)
  | endTransaction (k : Prog)
  /-- A piece of kernel code, which may call `log_write` in the states where `logs` holds. -/
  | work (logs : Sys → Bool) (m : Sys → Except Fault (Prog × Sys))
  /-- `iput(curproc->pwd)` of `exit`. -/
  | putPwd (k : Prog)

/-- A piece of code, and what follows its result. -/
def piece {α : Type} (logs : Sys → Bool) (m : SysM α) (k : α → Prog) : Prog :=
  .work logs fun s =>
    match m s with
    | .error e => .error e
    | .ok (a, s') => .ok (k a, s')

/-- A piece that works on the file system: somewhere in it `log_write` may be called. -/
def update {α : Type} (m : SysM α) (k : α → Prog) : Prog := piece (fun _ => true) m k

/-- A piece that never calls `log_write`: it works on tables in memory. -/
def quiet {α : Type} (m : SysM α) (k : α → Prog) : Prog := piece (fun _ => false) m k

/-- A call with one transaction around all it does. -/
def transaction {α : Type} (m : SysM α) : Prog :=
  .beginTransaction (update m fun _ => .endTransaction .done)

/-! ## §2 The calls -/

/-- The part of `open` inside its transaction: the inode, the descriptor and the file. -/
def openLocked (p : Nat) (pathname : Name) (flag : Nat) : SysM (Option (Nat × Nat × Nat)) := do
  match ← onKern (openInode ((← get).procs p).pwd pathname flag) with
  | none => pure none
  | some i => do
    match ← fdAlloc p with
    | none => do
      onKern (Dir.iunlockput i)
      pure none
    | some fd => do
      match ← fileAlloc with
      | none => do
        onKern (Dir.iunlockput i)
        pure none
      | some f => do
        let _ ← onKern (Dir.iunlock i)
        pure (some (i, fd, f))

/-- The part of `open` after its transaction. -/
def openInstall (p flag : Nat) (r : Nat × Nat × Nat) : SysM Int := do
  let (i, fd, f) := r
  let s ← get
  let v := s.files f
  setFile f
    { v with
      inode := some i
      type := (s.kern.node i).type
      offset := 0
      flag := (v.flag ||| flag) % 2 ^ 16 }
  setFd p fd (some f)
  setNOpfiles p (((← get).procs p).nOpfiles + 1)
  pure fd

/-- The two parts make up `open`. -/
theorem open_eq (p : Nat) (pathname : Name) (flag : Nat) :
    open_ p pathname flag =
      if badFlag flag then pure (-1)
      else openLocked p pathname flag >>= fun r =>
        match r with
        | none => pure (-1)
        | some r => openInstall p flag r := by
  unfold open_ openLocked
  split
  · rfl
  simp only [bind_assoc]
  congr 1
  funext s
  congr 1
  funext i
  cases i with
  | none => simp
  | some i =>
    simp only [bind_assoc]
    congr 1
    funext fd
    cases fd with
    | none => simp
    | some fd =>
      simp only [bind_assoc]
      congr 1
      funext f
      cases f with
      | none => simp
      | some f =>
        simp only [bind_assoc, pure_bind]
        rfl

/-- `open`. -/
def openProg (p : Nat) (pathname : Name) (flag : Nat) : Prog :=
  if badFlag flag then .done
  else .beginTransaction (update (openLocked p pathname flag) fun r => .endTransaction
    (match r with
      | none => .done
      | some r => quiet (openInstall p flag r) fun _ => .done))

/-- `file_close`, before `k`: with the last reference the inode is put back in a transaction. -/
def closeProg (f : Nat) (k : Prog) : Prog :=
  quiet (fileRelease f) fun r =>
    match r with
    | none => k
    | some v =>
      if v.type = FS_NONE then k
      else if v.type = FS_PIPE then quiet (throw .pipe : SysM Unit) fun _ => k
      else
        match v.inode with
        | none => quiet (throw (.fs .wild) : SysM Unit) fun _ => k
        | some i => .beginTransaction (update (onKern (Dir.iput i)) fun _ => .endTransaction k)

/-- The descriptor `fd` of process `p`. -/
def fdFile (p fd : Nat) : SysM (Option Nat) := do
  pure (((← get).procs p).openFileTable fd)

/-- `close`. -/
def closeFdProg (p : Nat) (fd : Int) : Prog :=
  if isBadFd fd then .done
  else quiet (fdFile p fd.toNat) fun f =>
    match f with
    | none => quiet (setFd p fd.toNat none) fun _ => .done
    | some f => closeProg f
      (quiet (do
        setNOpfiles p (((← get).procs p).nOpfiles - 1)
        setFd p fd.toNat none) fun _ => .done)

/-- The rounds of `file_write`. -/
def writeRounds (f : Nat) (src : Nat → BitVec 8) (nbytes : Nat) : Nat → Nat → Prog
  | 0, _ => .done
  | fuel + 1, total =>
    if total < nbytes then
      let n := perop nbytes total
      .beginTransaction (update (writeRound f src total n) fun wrbytes => .endTransaction
        (if wrbytes ≠ n then .done else writeRounds f src nbytes fuel (total + n)))
    else .done

/-- `write`; the length is a signed number in `file_write`, so from `2 ^ 31` on nothing is written. -/
def writeProg (p : Nat) (fd : Int) (src : Nat → BitVec 8) (nbytes : Nat) : Prog :=
  if isBadFd fd then .done
  else quiet (fdFile p fd.toNat) fun f =>
    match f with
    | none => .done
    | some f => quiet (do pure ((← get).files f)) fun v =>
      if !writable v then .done
      else if v.type = FS_PIPE then quiet (throw .pipe : SysM Unit) fun _ => .done
      else if 2 ^ 31 ≤ nbytes then .done
      else writeRounds f src nbytes (nbytes + 1) 0

/-- The loop of `exit` over the descriptors. -/
def exitFiles (p : Nat) (k : Prog) : List Nat → Prog
  | [] => k
  | fd :: fds => quiet (fdFile p fd) fun f =>
    match f with
    | none => exitFiles p k fds
    | some f => closeProg f (exitFiles p k fds)

/-- `exit`. -/
def exitProg (p : Nat) : Prog :=
  quiet (do
    if p = (← get).rootproc then throw .rootExit
    else setProc p { (← get).procs p with alive := false })
    fun _ => exitFiles p (.putPwd (quiet (setNOpfiles p 0) fun _ => .done)) (List.range NOFILE)

inductive FsCall where
  | open_ (pathname : Name) (flag : Nat)
  | link (oldpname newpname : Name)
  | unlink (pathname : Name)
  | mkdir (pathname : Name)
  | mknod (pathname : Name) (major minor : Nat)
  | chdir (pathname : Name)
  | write (fd : Int) (src : Nat → BitVec 8) (nbytes : Nat)
  | close (fd : Int)
  | fork (son : Nat)
  | exec (pathname : Name) (setupVm : Bool) (vm : Nat → Bool) (stack : Bool)
  | exit

/-- The program of a call. `exec` reads the file in its transaction; what it does afterwards does not
    touch the file system. -/
def program (p : Nat) : FsCall → Prog
  | .open_ pathname flag => openProg p (cstr pathname) flag
  | .link oldpname newpname => transaction (syscall p (.link oldpname newpname))
  | .unlink pathname => transaction (syscall p (.unlink pathname))
  | .mkdir pathname => transaction (syscall p (.mkdir pathname))
  | .mknod pathname major minor => transaction (syscall p (.mknod pathname major minor))
  | .chdir pathname => transaction (syscall p (.chdir pathname))
  | .write fd src nbytes => writeProg p fd src nbytes
  | .close fd => closeFdProg p fd
  | .fork son => quiet (fork p son) fun _ => .done
  | .exec pathname setupVm vm stack => transaction (syscall p (.exec pathname setupVm vm stack))
  | .exit => exitProg p

/-! ## §3 Runs -/

/-- The system with the programs that its processes are in. `stray` tells that `log_write` was called
    by a process outside of its transaction. -/
structure Machine where
  sys : Sys
  prog : Nat → Prog
  inTransaction : Nat → Bool
  stray : Bool

/-- A process that is in no call starts one, or a process goes on. -/
inductive Act where
  | call (p : Nat) (junk : Inode.Block) (c : FsCall)
  | go (p : Nat)

/-- `iput` frees the inode on disk, and updates it with `iupdate`, which calls `log_write`. -/
def putLogs (k : Kern) (i : Nat) : Bool :=
  (k.node i).valid && (k.node i).nlink == 0 && (k.node i).ref == 1

def Machine.setProg (s : Machine) (p : Nat) (k : Prog) : Machine :=
  { s with prog := Function.update s.prog p k }

/-- A process goes on with its program. -/
def go (s : Machine) (p : Nat) : Except Fault Machine :=
  match s.prog p with
  | .done => .ok s
  | .beginTransaction k =>
    .ok { s.setProg p k with inTransaction := Function.update s.inTransaction p true }
  | .endTransaction k =>
    .ok { s.setProg p k with inTransaction := Function.update s.inTransaction p false }
  | .work logs m =>
    match m s.sys with
    | .error e => .error e
    | .ok (k, sys) =>
      .ok { s.setProg p k with
        sys := sys
        stray := s.stray || (logs s.sys && !s.inTransaction p) }
  | .putPwd k =>
    let i := (s.sys.procs p).pwd
    match onKern (Dir.iput i) s.sys with
    | .error e => .error e
    | .ok (_, sys) =>
      .ok { s.setProg p k with
        sys := sys
        stray := s.stray || (putLogs s.sys.kern i && !s.inTransaction p) }

def act (s : Machine) : Act → Except Fault Machine
  | .call p junk c =>
    match s.prog p with
    | .done =>
      .ok { s.setProg p (program p c) with
        sys := { s.sys with kern := { s.sys.kern with junk := junk } } }
    | _ => .ok s
  | .go p => go s p

/-- No process is in a call. -/
def Machine.start (sys : Sys) : Machine := ⟨sys, fun _ => .done, fun _ => false, false⟩

/-- If the process puts its working directory back on exit, it is not the last one to hold a directory
    without links. -/
def KeepsPwd (s : Machine) : Act → Prop
  | .call _ _ _ => True
  | .go p =>
    match s.prog p with
    | .putPwd _ => putLogs s.sys.kern (s.sys.procs p).pwd = false
    | _ => True

/-- Where `putLogs` does not hold, `iput` leaves the disk alone; where it does, it ends in `iupdate`. -/
theorem iputFree_of_putLogs (k : Kern) (i : Nat) :
    Dir.iputFree k.fs i =
      if putLogs k i then
        Inode.iupdate (Dir.setNode (Inode.ifree k.fs i) i { k.node i with type := 0 }) i
      else k.fs := rfl

/-! ## §4 Brackets -/

/-- The program is well bracketed, in a transaction (`true`) or outside: it may only log inside, and puts
    the working directory back only outside. -/
inductive Bracketed : Bool → Prog → Prop
  | done : Bracketed false .done
  | beginTransaction {k : Prog} : Bracketed true k → Bracketed false (.beginTransaction k)
  | endTransaction {k : Prog} : Bracketed false k → Bracketed true (.endTransaction k)
  | work {inTx : Bool} {logs : Sys → Bool} {m : Sys → Except Fault (Prog × Sys)} :
      (∀ s, logs s = true → inTx = true) →
      (∀ s k s', m s = .ok (k, s') → Bracketed inTx k) → Bracketed inTx (.work logs m)
  | putPwd {k : Prog} : Bracketed false k → Bracketed false (.putPwd k)

section
variable {α : Type} {m : SysM α} {k : α → Prog} {inTx : Bool}

theorem bracketed_piece {logs : Sys → Bool} (hlogs : ∀ s, logs s = true → inTx = true)
    (hk : ∀ a, Bracketed inTx (k a)) : Bracketed inTx (piece logs m k) := by
  apply Bracketed.work hlogs
  intro s q s' h
  cases hm : m s with
  | error e =>
    rw [hm] at h
    cases h
  | ok r =>
    rw [hm] at h
    obtain ⟨rfl, rfl⟩ := Prod.mk.inj (Except.ok.inj h)
    exact hk r.1

theorem bracketed_update (hk : ∀ a, Bracketed true (k a)) : Bracketed true (update m k) :=
  bracketed_piece (fun _ _ => rfl) hk

theorem bracketed_quiet (hk : ∀ a, Bracketed inTx (k a)) : Bracketed inTx (quiet m k) :=
  bracketed_piece (fun _ h => absurd h Bool.false_ne_true) hk

theorem bracketed_transaction : Bracketed false (transaction m) :=
  .beginTransaction (bracketed_update fun _ => .endTransaction .done)

/-- The programs of `file_close`: one transaction, or none. -/
theorem bracketed_closeProg {f : Nat} {k : Prog} (hk : Bracketed false k) :
    Bracketed false (closeProg f k) := by
  apply bracketed_quiet
  intro r
  cases r with
  | none => exact hk
  | some v =>
    dsimp only
    split
    · exact hk
    split
    · exact bracketed_quiet fun _ => hk
    split
    · exact bracketed_quiet fun _ => hk
    · exact .beginTransaction (bracketed_update fun _ => .endTransaction hk)

theorem bracketed_openProg (p : Nat) (pathname : Name) (flag : Nat) :
    Bracketed false (openProg p pathname flag) := by
  unfold openProg
  split
  · exact .done
  apply Bracketed.beginTransaction
  apply bracketed_update
  intro r
  apply Bracketed.endTransaction
  cases r with
  | none => exact .done
  | some r => exact bracketed_quiet fun _ => .done

theorem bracketed_closeFdProg (p : Nat) (fd : Int) : Bracketed false (closeFdProg p fd) := by
  unfold closeFdProg
  split
  · exact .done
  apply bracketed_quiet
  intro f
  cases f with
  | none => exact bracketed_quiet fun _ => .done
  | some f => exact bracketed_closeProg (bracketed_quiet fun _ => .done)

theorem bracketed_writeRounds (f : Nat) (src : Nat → BitVec 8) (nbytes fuel total : Nat) :
    Bracketed false (writeRounds f src nbytes fuel total) := by
  induction fuel generalizing total with
  | zero => exact .done
  | succ fuel ih =>
    unfold writeRounds
    split
    · apply Bracketed.beginTransaction
      apply bracketed_update
      intro wrbytes
      apply Bracketed.endTransaction
      split
      · exact .done
      · exact ih _
    · exact .done

theorem bracketed_writeProg (p : Nat) (fd : Int) (src : Nat → BitVec 8) (nbytes : Nat) :
    Bracketed false (writeProg p fd src nbytes) := by
  unfold writeProg
  split
  · exact .done
  apply bracketed_quiet
  intro f
  cases f with
  | none => exact .done
  | some f =>
    apply bracketed_quiet
    intro v
    split
    · exact .done
    split
    · exact bracketed_quiet fun _ => .done
    split
    · exact .done
    · exact bracketed_writeRounds _ _ _ _ _

theorem bracketed_exitFiles (p : Nat) {k : Prog} (hk : Bracketed false k) (fds : List Nat) :
    Bracketed false (exitFiles p k fds) := by
  induction fds with
  | nil => exact hk
  | cons fd fds ih =>
    apply bracketed_quiet
    intro f
    cases f with
    | none => exact ih
    | some f => exact bracketed_closeProg ih

/-- **Every call** is well bracketed. -/
theorem bracketed_program (p : Nat) (c : FsCall) : Bracketed false (program p c) := by
  cases c with
  | open_ pathname flag => exact bracketed_openProg _ _ _
  | write fd src nbytes => exact bracketed_writeProg _ _ _ _
  | close fd => exact bracketed_closeFdProg _ _
  | fork son => exact bracketed_quiet fun _ => .done
  | exit =>
    apply bracketed_quiet
    intro _
    apply bracketed_exitFiles
    exact .putPwd (bracketed_quiet fun _ => .done)
  | link oldpname newpname => exact bracketed_transaction
  | unlink pathname => exact bracketed_transaction
  | mkdir pathname => exact bracketed_transaction
  | mknod pathname major minor => exact bracketed_transaction
  | chdir pathname => exact bracketed_transaction
  | exec pathname setupVm vm stack => exact bracketed_transaction

end

/-! ## §5 Steps and runs -/

/-- Every process has a well bracketed rest of its call before it. -/
def BracketInv (s : Machine) : Prop := ∀ p, Bracketed (s.inTransaction p) (s.prog p)

section
variable {s s' : Machine} {p : Nat}

theorem BracketInv.setProg (h : BracketInv s) {k : Prog} (hk : Bracketed (s.inTransaction p) k)
    {sys : Sys} {stray : Bool} : BracketInv { s.setProg p k with sys := sys, stray := stray } := by
  intro q
  by_cases hq : q = p
  · subst hq
    simpa [Machine.setProg] using hk
  · simpa [Machine.setProg, hq] using h q

/-- A process begins or ends a transaction. -/
theorem BracketInv.setTransaction (h : BracketInv s) {k : Prog} {inTx : Bool}
    (hk : Bracketed inTx k) :
    BracketInv { s.setProg p k with
      inTransaction := Function.update s.inTransaction p inTx } := by
  intro q
  by_cases hq : q = p
  · subst hq
    simpa [Machine.setProg] using hk
  · simpa [Machine.setProg, hq] using h q

/-- **One step** keeps the brackets, and it is the first to log outside of a transaction exactly when a
    process frees its working directory on exit. -/
theorem act_stray (h : BracketInv s) {a : Act} (hact : act s a = .ok s') :
    BracketInv s' ∧ (s'.stray = false ↔ s.stray = false ∧ KeepsPwd s a) := by
  cases a with
  | call p junk c =>
    have hp := h p
    simp only [act] at hact
    split at hact
    · next hdone =>
      obtain rfl := Except.ok.inj hact
      rw [hdone] at hp
      have hout : s.inTransaction p = false := by
        generalize s.inTransaction p = b at hp
        cases hp
        rfl
      refine ⟨h.setProg ?_, (and_iff_left trivial).symm⟩
      rw [hout]
      exact bracketed_program p c
    · obtain rfl := Except.ok.inj hact
      exact ⟨h, (and_iff_left trivial).symm⟩
  | go p =>
    have hp := h p
    simp only [act, go] at hact
    simp only [KeepsPwd]
    generalize hin : s.inTransaction p = b at hp
    cases hprog : s.prog p with
    | done =>
      rw [hprog] at hact
      obtain rfl := Except.ok.inj hact
      exact ⟨h, (and_iff_left trivial).symm⟩
    | beginTransaction k =>
      rw [hprog] at hact hp
      obtain rfl := Except.ok.inj hact
      cases hp with
      | beginTransaction hk => exact ⟨h.setTransaction hk, (and_iff_left trivial).symm⟩
    | endTransaction k =>
      rw [hprog] at hact hp
      obtain rfl := Except.ok.inj hact
      cases hp with
      | endTransaction hk => exact ⟨h.setTransaction hk, (and_iff_left trivial).symm⟩
    | work logs m =>
      rw [hprog] at hact hp
      cases hp with
      | work hlogs hk =>
        simp only at hact
        cases hm : m s.sys with
        | error e =>
          rw [hm] at hact
          cases hact
        | ok r =>
          rw [hm] at hact
          obtain rfl := Except.ok.inj hact
          refine ⟨h.setProg ?_, ?_⟩
          · rw [hin]
            exact hk s.sys r.1 r.2 hm
          · -- where the piece logs, the process is in its transaction
            cases hl : logs s.sys with
            | false => simp [hin]
            | true => simp [hin, hlogs s.sys hl]
    | putPwd k =>
      rw [hprog] at hact hp
      cases hp with
      | putPwd hk =>
        simp only at hact
        cases hm : onKern (Dir.iput (s.sys.procs p).pwd) s.sys with
        | error e =>
          rw [hm] at hact
          cases hact
        | ok r =>
          rw [hm] at hact
          obtain rfl := Except.ok.inj hact
          refine ⟨h.setProg ?_, ?_⟩
          · rw [hin]
            exact hk
          · simp [hin]

end

/-- **Updates inside transactions**: when a run of calls gets to `s`, `log_write` was only called inside
    transactions if and only if no process has freed its working directory on exit. -/
theorem stray_iff (sys : Sys) {as : List Act} {s : Machine}
    (hrun : as.foldlM act (Machine.start sys) = .ok s) :
    s.stray = false ↔ Lib.Meets act KeepsPwd (Machine.start sys) as := by
  have hstart : BracketInv (Machine.start sys) := fun _ => .done
  have hall : ∀ (t : Machine) (as : List Act), BracketInv t → as.foldlM act t = .ok s →
      (s.stray = false ↔ t.stray = false ∧ Lib.Meets act KeepsPwd t as) := by
    intro t as
    induction as generalizing t with
    | nil =>
      intro _ hrun
      obtain rfl : t = s := Except.ok.inj hrun
      exact (and_iff_left trivial).symm
    | cons a as ih =>
      intro ht hrun
      rw [List.foldlM_cons] at hrun
      cases hact : act t a with
      | error e =>
        rw [hact] at hrun
        cases hrun
      | ok u =>
        rw [hact] at hrun
        obtain ⟨hu, hiff⟩ := act_stray ht hact
        rw [ih u hu hrun, hiff, and_assoc]
        apply and_congr_right'
        apply and_congr_right'
        constructor
        · intro h v hv
          exact Except.ok.inj (hact.symm.trans hv) ▸ h
        · exact fun h => h u hact
  rw [hall _ _ hstart hrun]
  exact and_iff_right rfl

/-- Process 1 works in `/a` when process 0 removes it, and exits. -/
def exitRun : List Act :=
  [.call 0 (fun _ => 0) (.fork 1), .go 0] ++
    .call 1 (fun _ => 0) (.chdir [47, 97]) :: List.replicate 3 (.go 1) ++
    .call 0 (fun _ => 0) (.unlink [47, 97]) :: List.replicate 3 (.go 0) ++
    .call 1 (fun _ => 0) .exit :: List.replicate 18 (.go 1)

/-- The last act of this run frees the directory while no process is in a transaction. -/
theorem exit_in_removed_directory :
    ∃ s, exitRun.foldlM act (Machine.start usedBoot) = .ok s ∧ s.stray = true :=
  Lib.exists_eq_ok_and (by decide +kernel)

theorem stray_iff_exitRun :
    ∃ s, exitRun.foldlM act (Machine.start usedBoot) = .ok s ∧
      (s.stray = false ↔ Lib.Meets act KeepsPwd (Machine.start usedBoot) exitRun) := by
  obtain ⟨s, hs⟩ : ∃ s, exitRun.foldlM act (Machine.start usedBoot) = .ok s :=
    Lib.exists_eq_ok (by decide +kernel)
  exact ⟨s, hs, stray_iff usedBoot hs⟩

end WeiOS.Syscall
