import WeiOS.Lib.Run

/-!
# Spinlocks and the Interrupt Flag

`special_cli`, `special_sli`, `spin_lock_irqsave` and `spin_unlock_irqrestore` of `kern/lock.c` on the one
CPU, under the threads that `sched` and `scheduler` of `kern/sched.c` switch between. A thread enters the
kernel through the trap gate of a system call, which leaves IF as it is, or through an interrupt gate,
which clears it; the flag that the outermost lock finds is kept in `cpu.int_enabled`, one place for all
threads, and `swtch` leaves that place as it is.

## Main results
- `restore_iff`: an outermost unlock gives the thread its own flag back exactly if `int_enabled` has it.
- `flag_of_run`: in every run from boot in which `swtch` resumes only threads whose own flag `int_enabled`
  has, each outermost unlock restores the flag of its outermost lock.
- `flag_of_other_thread`: a handler is switched away with IF clear, then a system call with IF set; the
  scheduler, which locked with IF clear, unlocks with IF set.
-/

namespace WeiOS.IntFlag

open WeiOS.Lib

/-! ## §1 The CPU -/

/-- What of `struct cpu` and EFLAGS the locks use. -/
structure Cpu where
  /-- EFLAGS_IF -/
  intFlag : Bool
  nClis : Int
  intEnabled : Bool
  deriving DecidableEq

/-- The panics of `lock.c`, `mycpu` and `sched`, and a step that the thread cannot take. -/
inductive Fault where
  | mycpu | sliInterruptible | sli | deadlock | notHeld | sched | notEnabled
  deriving DecidableEq

/-- `reflags`, then `cli`; after it `mycpu` does not panic. -/
def specialCli (c : Cpu) : Cpu where
  intFlag := false
  nClis := c.nClis + 1
  intEnabled := if c.nClis = 0 then c.intFlag else c.intEnabled

def specialSli (c : Cpu) : Except Fault Cpu :=
  if c.intFlag then .error .sliInterruptible
  else if c.nClis - 1 < 0 then .error .sli
  else if c.nClis - 1 = 0 ∧ c.intEnabled then .ok { c with nClis := c.nClis - 1, intFlag := true }
  else .ok { c with nClis := c.nClis - 1 }

/-! ## §2 Threads -/

/-- The spinlocks of the kernel. -/
inductive Lock where
  | procTableLock
  | other (n : Nat)
  deriving DecidableEq

/-- A thread, in the kernel or in user space. -/
structure Thread where
  /-- The locks it has taken and not given back. -/
  held : List Lock
  /-- IF as its last outermost `spin_lock_irqsave` found it, if it has made one. -/
  own : Option Bool
  /-- IF in the EFLAGS images of its trap frames, the innermost first. -/
  frames : List Bool

/-- The CPU, the words `locked` of the spinlocks, and the threads: the process `some p` and the scheduler
    `none`. As there is one CPU, a lock that is taken has it in `lk->cpu`. -/
structure Sys where
  cpu : Cpu
  locked : Lock → Bool
  cur : Option Nat
  thread : Option Nat → Thread

/-- The entry of `scheduler` from `init.c`, with IF clear since the boot sector. A new process stands at
    `forkret`: it will give back the `proc_table_lock` that the scheduler has taken for it, and return
    through a frame whose EFLAGS have IF set. -/
def boot : Sys where
  cpu := ⟨false, 0, false⟩
  locked := fun _ => false
  cur := none
  thread := fun
    | none => ⟨[], none, []⟩
    | some _ => ⟨[.procTableLock], none, [true]⟩

def Sys.me (s : Sys) : Thread := s.thread s.cur

/-- The current thread goes on as `t`. -/
def Sys.setMe (s : Sys) (t : Thread) : Sys := { s with thread := Function.update s.thread s.cur t }

/-- A process without a trap frame is in user space. -/
def Sys.inKernel (s : Sys) : Bool := s.cur.isNone || !s.me.frames.isEmpty

/-! ## §3 Steps -/

def spinLockIrqsave (s : Sys) (l : Lock) : Except Fault Sys :=
  if s.locked l then .error .deadlock
  else .ok { s with cpu := specialCli s.cpu, locked := Function.update s.locked l true }

def spinUnlockIrqrestore (s : Sys) (l : Lock) : Except Fault Sys :=
  if ¬ s.locked l then .error .notHeld
  else if s.cpu.intFlag then .error .mycpu
  else do
    let cpu ← specialSli s.cpu
    .ok { s with cpu, locked := Function.update s.locked l false }

/-- What the current thread can do. -/
inductive Op where
  | lock (l : Lock)
  | unlock (l : Lock)
  /-- `myproc`, and `switch_uvm`: `special_cli` and `special_sli` around an access to the CPU's data -/
  | myproc
  /-- `swtch` in `sched` and in `scheduler` -/
  | switchTo (t : Option Nat)
  /-- `int T_SYSCALL`, through a trap gate -/
  | syscall
  /-- an exception in user space, through an interrupt gate -/
  | fault
  /-- an interrupt, through an interrupt gate -/
  | interrupt
  | iret
  /-- `sti; hlt` of the idle scheduler -/
  | idle
  deriving DecidableEq

/-- The step of the current thread. It gives back only locks it has taken; it switches, between a process
    and the scheduler, holding exactly `proc_table_lock`; and it returns from a trap holding none. -/
def step (s : Sys) : Op → Except Fault Sys
  | .lock l =>
    if s.inKernel then do
      let s' ← spinLockIrqsave s l
      .ok (s'.setMe { s.me with
        held := l :: s.me.held
        own := if s.me.held = [] then some s.cpu.intFlag else s.me.own })
    else .error .notEnabled
  | .unlock l =>
    if l ∈ s.me.held then do
      let s' ← spinUnlockIrqrestore s l
      .ok (s'.setMe { s.me with held := s.me.held.erase l })
    else .error .notEnabled
  | .myproc =>
    if s.inKernel then do
      let cpu ← specialSli (specialCli s.cpu)
      .ok { s with cpu }
    else .error .notEnabled
  | .switchTo t =>
    if s.me.held = [.procTableLock] ∧ s.cur.isNone ≠ t.isNone then
      if s.cpu.intFlag then .error .sched else .ok { s with cur := t }
    else .error .notEnabled
  | .syscall =>
    if s.inKernel then .error .notEnabled
    else .ok (s.setMe { s.me with frames := s.cpu.intFlag :: s.me.frames })
  | .fault =>
    if s.inKernel then .error .notEnabled
    else .ok ({ s with cpu := { s.cpu with intFlag := false } }.setMe
      { s.me with frames := s.cpu.intFlag :: s.me.frames })
  | .interrupt =>
    if s.cpu.intFlag then
      .ok ({ s with cpu := { s.cpu with intFlag := false } }.setMe
        { s.me with frames := true :: s.me.frames })
    else .error .notEnabled
  | .iret =>
    match s.me.frames with
    | [] => .error .notEnabled
    | b :: frames =>
      if s.me.held = [] then
        .ok ({ s with cpu := { s.cpu with intFlag := b } }.setMe { s.me with frames })
      else .error .notEnabled
  | .idle =>
    if s.cur = none ∧ s.me.held = [] then .ok { s with cpu := { s.cpu with intFlag := true } }
    else .error .notEnabled

/-- The step gives the last lock of the thread back. -/
def Outermost (s : Sys) : Op → Prop
  | .unlock l => s.me.held = [l]
  | _ => False

instance (s : Sys) : ∀ o, Decidable (Outermost s o)
  | .unlock l => inferInstanceAs (Decidable (s.me.held = [l]))
  | .lock _ | .myproc | .switchTo _ | .syscall | .fault | .interrupt | .iret | .idle => isFalse id

/-- When an outermost unlock completes, IF is as the thread's outermost lock found it. -/
def Restores (s : Sys) (o : Op) (s' : Sys) : Prop :=
  Outermost s o → ∀ b, s.me.own = some b → s'.cpu.intFlag = b

/-- `swtch` resumes a thread that has locked under the flag that `int_enabled` has now, or a new process,
    which has not locked. -/
def Suits (s : Sys) : Op → Prop
  | .switchTo t => ∀ b ∈ (s.thread t).own, b = s.cpu.intEnabled
  | _ => True

instance (s : Sys) : ∀ o, Decidable (Suits s o)
  | .switchTo t => inferInstanceAs (Decidable (∀ b ∈ (s.thread t).own, b = s.cpu.intEnabled))
  | .lock _ | .unlock _ | .myproc | .syscall | .fault | .interrupt | .iret | .idle => isTrue trivial

/-! ## §4 What holds in every reachable state -/

/-- `n_clis` counts the locks of the current thread, under which IF is clear; the other threads stand in
    `swtch`, or at `forkret`, with `proc_table_lock`. -/
structure Inv (s : Sys) : Prop where
  nClis : s.cpu.nClis = s.me.held.length
  clear : s.me.held ≠ [] → s.cpu.intFlag = false
  others : ∀ t, t ≠ s.cur → (s.thread t).held = [.procTableLock]

/-- The current thread, if it holds a lock, has its own flag in `int_enabled`. -/
def Mine (s : Sys) : Prop := s.me.held ≠ [] → ∀ b ∈ s.me.own, b = s.cpu.intEnabled

theorem boot_inv : Inv boot where
  nClis := rfl
  clear := fun h => absurd rfl h
  others := by
    intro t ht
    cases t with
    | none => exact absurd rfl ht
    | some p => rfl

theorem boot_mine : Mine boot := fun h => absurd rfl h

variable {s s' : Sys} {o : Op} {l : Lock} {t : Thread}

@[simp] theorem setMe_me (s : Sys) (t : Thread) : (s.setMe t).me = t := Function.update_self ..
@[simp] theorem setMe_cpu (s : Sys) (t : Thread) : (s.setMe t).cpu = s.cpu := rfl
@[simp] theorem setMe_cur (s : Sys) (t : Thread) : (s.setMe t).cur = s.cur := rfl

theorem setMe_of_ne (s : Sys) (t : Thread) {u : Option Nat} (h : u ≠ s.cur) :
    (s.setMe t).thread u = s.thread u := Function.update_of_ne h ..

/-- The current thread goes on, on its own CPU. -/
theorem Inv.setMe (h : Inv s) {cpu : Cpu} {locked : Lock → Bool}
    (hn : cpu.nClis = t.held.length) (hc : t.held ≠ [] → cpu.intFlag = false) :
    Inv ({ s with cpu := cpu, locked := locked }.setMe t) where
  nClis := by simpa using hn
  clear := by simpa using hc
  others := by
    intro u hu
    have hsame := setMe_of_ne { s with cpu := cpu, locked := locked } t hu
    rw [hsame]
    exact h.others u hu

/-- With a lock held, `special_cli` counts and leaves `int_enabled` alone; without one it saves IF. -/
theorem specialCli_intEnabled (h : Inv s) : (specialCli s.cpu).intEnabled =
    if s.me.held = [] then s.cpu.intFlag else s.cpu.intEnabled := by
  have hzero : s.cpu.nClis = 0 ↔ s.me.held = [] := by
    rw [h.nClis, ← List.length_eq_zero_iff]
    exact Int.natCast_eq_zero
  simp only [specialCli, hzero]

/-- **`special_sli`, with the count above 0**: the last one turns IF to `int_enabled`. -/
theorem specialSli_eq {c : Cpu} (hc : c.intFlag = false) (hn : 0 < c.nClis) :
    specialSli c = .ok { c with
      nClis := c.nClis - 1
      intFlag := decide (c.nClis = 1) && c.intEnabled } := by
  have hge : ¬ c.nClis - 1 < 0 := by omega
  have hone : c.nClis - 1 = 0 ↔ c.nClis = 1 := by omega
  unfold specialSli
  rw [if_neg (by simp [hc]), if_neg hge]
  by_cases hlast : c.nClis = 1 ∧ c.intEnabled = true
  · rw [if_pos ⟨hone.2 hlast.1, hlast.2⟩]
    simp [hlast.1, hlast.2]
  · rw [if_neg (by rwa [hone])]
    have hoff : (decide (c.nClis = 1) && c.intEnabled) = false := by simpa using hlast
    rw [hoff, ← hc]

/-- Around `myproc` IF and the count are as before. -/
theorem myproc_eq (h : Inv s) : specialSli (specialCli s.cpu) =
    .ok { s.cpu with intEnabled := if s.me.held = [] then s.cpu.intFlag else s.cpu.intEnabled } := by
  have hn : 0 < (specialCli s.cpu).nClis := by
    have := h.nClis
    simp only [specialCli]
    omega
  rw [specialSli_eq rfl hn, specialCli_intEnabled h]
  cases hheld : s.me.held with
  | nil =>
    have hzero : s.cpu.nClis = 0 := by rw [h.nClis, hheld]; rfl
    simp [specialCli, hzero]
  | cons l ls =>
    have hclear : s.cpu.intFlag = false := h.clear (by simp [hheld])
    have hone : s.cpu.nClis + 1 ≠ 1 := by
      rw [h.nClis, hheld, List.length_cons]
      omega
    simp [specialCli, hclear, hone]

/-- **What an unlock does**: one lock fewer, and with the last one IF becomes `int_enabled`. -/
theorem unlock_cases (h : Inv s) (hstep : step s (.unlock l) = .ok s') :
    l ∈ s.me.held ∧ s' = ({ s with
      cpu := { s.cpu with
        nClis := s.cpu.nClis - 1
        intFlag := decide (s.cpu.nClis = 1) && s.cpu.intEnabled }
      locked := Function.update s.locked l false }).setMe { s.me with held := s.me.held.erase l } := by
  simp only [step] at hstep
  split at hstep
  · next hmem =>
    refine ⟨hmem, ?_⟩
    have hne : s.me.held ≠ [] := List.ne_nil_of_mem hmem
    have hpos : 0 < s.cpu.nClis := by
      rw [h.nClis]
      exact_mod_cast List.length_pos_of_mem hmem
    obtain ⟨s₁, hunlock, hs₁⟩ := bind_eq_ok.1 hstep
    simp only [spinUnlockIrqrestore] at hunlock
    split at hunlock
    · cases hunlock
    · rw [if_neg (by simp [h.clear hne]), specialSli_eq (h.clear hne) hpos] at hunlock
      obtain rfl := Except.ok.inj hunlock
      exact (Except.ok.inj hs₁).symm
  · cases hstep

/-! ## §5 One step -/

/-- **An outermost unlock turns IF to `int_enabled`**, whoever has set it. -/
theorem outermost_intFlag (h : Inv s) (hout : Outermost s o) (hstep : step s o = .ok s') :
    s'.cpu.intFlag = s.cpu.intEnabled := by
  cases o with
  | unlock l =>
    obtain ⟨_, rfl⟩ := unlock_cases h hstep
    have hone : s.cpu.nClis = 1 := by
      rw [h.nClis, hout]
      rfl
    simp [hone]
  | _ => exact absurd hout id

/-- **Exactly when an unlock restores**: the thread's own flag is the one in `int_enabled`. -/
theorem restore_iff (h : Inv s) (hout : Outermost s o) (hstep : step s o = .ok s') :
    Restores s o s' ↔ ∀ b ∈ s.me.own, b = s.cpu.intEnabled := by
  have hflag := outermost_intFlag h hout hstep
  constructor
  · intro hr b hb
    exact (hr hout b hb).symm.trans hflag
  · intro hown _ b hb
    exact hflag.trans (hown b hb).symm

/-- **The invariant is kept** by every step. -/
theorem step_inv (h : Inv s) (hstep : step s o = .ok s') : Inv s' := by
  cases o with
  | lock l =>
    simp only [step] at hstep
    split at hstep
    · obtain ⟨s₁, hlock, hs₁⟩ := bind_eq_ok.1 hstep
      simp only [spinLockIrqsave] at hlock
      split at hlock
      · cases hlock
      · obtain rfl := Except.ok.inj hlock
        obtain rfl := Except.ok.inj hs₁
        apply h.setMe
        · simp [specialCli, h.nClis]
        · intro _
          rfl
    · cases hstep
  | unlock l =>
    obtain ⟨hmem, rfl⟩ := unlock_cases h hstep
    apply h.setMe
    · have hlen := List.length_erase_of_mem hmem
      have hpos := List.length_pos_of_mem hmem
      have hn := h.nClis
      show s.cpu.nClis - 1 = ((s.me.held.erase l).length : Int)
      omega
    · -- a lock that is left is one of two at least
      intro hleft
      have hlen := List.length_erase_of_mem hmem
      have hpos : 0 < (s.me.held.erase l).length := List.length_pos_of_ne_nil hleft
      have hn := h.nClis
      have hone : s.cpu.nClis ≠ 1 := by omega
      simp [hone]
  | myproc =>
    simp only [step] at hstep
    split at hstep
    · rw [myproc_eq h] at hstep
      obtain rfl := Except.ok.inj hstep
      exact ⟨h.nClis, h.clear, h.others⟩
    · cases hstep
  | switchTo t =>
    simp only [step] at hstep
    split at hstep
    · next hgo =>
      obtain ⟨hheld, hother⟩ := hgo
      split at hstep
      · cases hstep
      · next hclear =>
        obtain rfl := Except.ok.inj hstep
        have hne : t ≠ s.cur := by
          rintro rfl
          exact hother rfl
        have hthere : (s.thread t).held = [.procTableLock] := h.others t hne
        refine ⟨?_, fun _ => by simpa using hclear, ?_⟩
        · calc s.cpu.nClis = s.me.held.length := h.nClis
            _ = (s.thread t).held.length := by rw [hheld, hthere]
        · intro u hu
          by_cases hcur : u = s.cur
          · rw [hcur]
            exact hheld
          · exact h.others u hcur
    · cases hstep
  | syscall =>
    simp only [step] at hstep
    split at hstep
    · cases hstep
    · obtain rfl := Except.ok.inj hstep
      exact h.setMe h.nClis h.clear
  | fault =>
    simp only [step] at hstep
    split at hstep
    · cases hstep
    · obtain rfl := Except.ok.inj hstep
      exact h.setMe h.nClis (fun _ => rfl)
  | interrupt =>
    simp only [step] at hstep
    split at hstep
    · obtain rfl := Except.ok.inj hstep
      exact h.setMe h.nClis (fun _ => rfl)
    · cases hstep
  | iret =>
    simp only [step] at hstep
    split at hstep
    · cases hstep
    · split at hstep
      · next hfree =>
        obtain rfl := Except.ok.inj hstep
        exact h.setMe h.nClis (fun hne => absurd hfree hne)
      · cases hstep
  | idle =>
    simp only [step] at hstep
    split at hstep
    · next hidle =>
      obtain rfl := Except.ok.inj hstep
      exact ⟨h.nClis, fun hne => absurd hidle.2 hne, h.others⟩
    · cases hstep

/-- **The thread that runs has its own flag in `int_enabled`**, through every step but a switch to one
    that has not. -/
theorem step_mine (h : Inv s) (hm : Mine s) (hC : Suits s o) (hstep : step s o = .ok s') : Mine s' := by
  cases o with
  | lock l =>
    simp only [step] at hstep
    split at hstep
    · obtain ⟨s₁, hlock, hs₁⟩ := bind_eq_ok.1 hstep
      simp only [spinLockIrqsave] at hlock
      split at hlock
      · cases hlock
      · obtain rfl := Except.ok.inj hlock
        obtain rfl := Except.ok.inj hs₁
        intro _
        simp only [setMe_me, setMe_cpu, specialCli_intEnabled h]
        split
        · -- the outermost lock: the flag it finds goes into both places
          intro b hb
          exact (Option.some.inj hb).symm
        · next hne => exact hm hne
    · cases hstep
  | unlock l =>
    obtain ⟨hmem, rfl⟩ := unlock_cases h hstep
    intro _
    simpa using hm (List.ne_nil_of_mem hmem)
  | myproc =>
    simp only [step] at hstep
    split at hstep
    · rw [myproc_eq h] at hstep
      obtain rfl := Except.ok.inj hstep
      intro hne
      have hheld : s.me.held ≠ [] := hne
      show ∀ b ∈ s.me.own, b = if s.me.held = [] then s.cpu.intFlag else s.cpu.intEnabled
      rw [if_neg hheld]
      exact hm hheld
    · cases hstep
  | switchTo t =>
    simp only [step] at hstep
    split at hstep
    · split at hstep
      · cases hstep
      · obtain rfl := Except.ok.inj hstep
        exact fun _ => hC
    · cases hstep
  | syscall =>
    simp only [step] at hstep
    split at hstep
    · cases hstep
    · obtain rfl := Except.ok.inj hstep
      simpa [Mine] using hm
  | fault =>
    simp only [step] at hstep
    split at hstep
    · cases hstep
    · obtain rfl := Except.ok.inj hstep
      simpa [Mine] using hm
  | interrupt =>
    simp only [step] at hstep
    split at hstep
    · obtain rfl := Except.ok.inj hstep
      simpa [Mine] using hm
    · cases hstep
  | iret =>
    simp only [step] at hstep
    split at hstep
    · cases hstep
    · split at hstep
      · obtain rfl := Except.ok.inj hstep
        simpa [Mine] using hm
      · cases hstep
  | idle =>
    simp only [step] at hstep
    split at hstep
    · obtain rfl := Except.ok.inj hstep
      exact hm
    · cases hstep

/-! ## §6 Runs -/

/-- **Every outermost unlock restores**, in every run from boot whose switches all suit. -/
theorem flag_of_run {ops : List Op} (hC : Meets step Suits boot ops) :
    Throughout step Restores boot ops := by
  apply throughout_of_meets (fun s => Inv s ∧ Mine s) _ ⟨boot_inv, boot_mine⟩ hC
  rintro s o s' ⟨hi, hm⟩ hCo hstep
  refine ⟨?_, step_inv hi hstep, step_mine hi hm hCo hstep⟩
  intro hout
  refine (restore_iff hi hout hstep).2 ?_ hout
  apply hm
  cases o with
  | unlock l => exact fun hnil => absurd (hnil.symm.trans hout) (by simp)
  | _ => exact absurd hout id

/-- The timer interrupts a process, which yields and gets the CPU back, with IF clear all the way. -/
theorem flag_of_run_sample : Throughout step Restores boot
    [.lock .procTableLock, .myproc, .switchTo (some 0), .unlock .procTableLock, .iret, .interrupt,
      .lock .procTableLock, .switchTo none, .unlock .procTableLock, .lock .procTableLock,
      .switchTo (some 0), .unlock .procTableLock, .iret] :=
  flag_of_run (by decide)

/-- **A handler goes on with interrupts on**: the timer handler of process 0 yields with IF clear; process 1
    makes a system call, with IF set, and gives the CPU up in it; the scheduler takes that flag over, and
    the handler, resumed, unlocks with IF set before it has sent the end of its interrupt. -/
theorem flag_of_other_thread : ¬ ∀ ops, Throughout step Restores boot ops := by
  intro h
  obtain ⟨s, hrun, s', hstep, hout, hown, hflag⟩ : ∃ s, [.lock .procTableLock, .switchTo (some 0),
      .unlock .procTableLock, .iret, .interrupt, .lock .procTableLock, .switchTo none,
      .unlock .procTableLock, .lock .procTableLock, .switchTo (some 1), .unlock .procTableLock, .iret,
      .syscall, .lock .procTableLock, .switchTo none, .unlock .procTableLock, .lock .procTableLock,
      .switchTo (some 0)].foldlM step boot = .ok s ∧
      ∃ s', step s (.unlock .procTableLock) = .ok s' ∧ Outermost s (.unlock .procTableLock) ∧
        s.me.own = some false ∧ s'.cpu.intFlag = true := by
    refine ⟨_, rfl, _, rfl, ?_, ?_, ?_⟩
    · decide
    · decide
    · decide
  exact Bool.false_ne_true (((h _).last hrun hstep hout false hown).symm.trans hflag)

end WeiOS.IntFlag
