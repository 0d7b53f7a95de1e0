import Mathlib

/-!
# Sleeplocks

`sleep_lock` and `sleep_unlock` of `kern/lock.c`, with `sleep` and `wakeup` of `kern/sysfunc.c` written
out: a process that finds the lock taken holds `slk->lk`, takes `proc_table_lock`, gives `slk->lk` up,
puts itself on the list and is switched away; after it was woken up it takes `slk->lk` again and repeats
the test. Each step here is one lock operation or the work between two of them, so two processes may
stand at any two of these points as far as the spinlocks allow it.

## Main results
- `sleeplock_of_run`: in every run one process at most has the lock, and nobody sleeps on a free lock.
-/

namespace WeiOS.SleepLock

/-! ## §1 Processes at a lock -/

/-- The next thing a process does. -/
inductive At where
  /-- Neither in the lock nor in one of its calls. -/
  | out
  /-- `sleep_lock`, at first and after each sleep: takes `slk->lk`. -/
  | enter
  /-- Makes the loop test under `slk->lk`. -/
  | test
  /-- `sleep`: takes `proc_table_lock`. -/
  | sleepTake
  /-- `sleep`: gives `slk->lk` up. -/
  | sleepDrop
  /-- `sleep`: goes on the list and is switched away. -/
  | block
  /-- SLEEPING on `slk->sleep_procs`. -/
  | asleep
  /-- RUNNABLE again; the scheduler takes `proc_table_lock` and switches to it. -/
  | runnable
  /-- Back in `sleep`: gives `proc_table_lock` up. -/
  | back
  /-- `sleep_lock`, the lock is its own: gives `slk->lk` up. -/
  | got
  /-- Between `sleep_lock` and `sleep_unlock`. -/
  | inside
  /-- `sleep_unlock`: takes `slk->lk`. -/
  | leave
  /-- `sleep_unlock`: clears `slk->locked`. -/
  | clear
  /-- `wakeup`: takes `proc_table_lock`. -/
  | wakeTake
  /-- `wakeup1`: empties the list. -/
  | wake
  /-- `wakeup`: gives `proc_table_lock` up. -/
  | wakeDrop
  /-- `sleep_unlock`: gives `slk->lk` up. -/
  | finish
  deriving DecidableEq

/-- The spinlock `slk->lk` is held here. -/
def At.holdsLk : At → Bool
  | .test | .sleepTake | .sleepDrop | .got | .clear | .wakeTake | .wake | .wakeDrop | .finish => true
  | _ => false

/-- `proc_table_lock` is held here. -/
def At.holdsTable : At → Bool
  | .sleepDrop | .block | .back | .wake | .wakeDrop => true
  | _ => false

/-- The sleeplock belongs to a process that stands here. -/
def At.owns : At → Bool
  | .got | .inside | .leave | .clear => true
  | _ => false

/-- The loop test has found the lock taken, under the `slk->lk` that is still held. -/
def At.decided : At → Bool
  | .sleepTake | .sleepDrop => true
  | _ => false

/-- Asleep, or past the point where `slk->lk` was given up for it. -/
def At.sleeps : At → Bool
  | .block | .asleep => true
  | _ => false

/-- A wake-up of all sleepers is still to come. -/
def At.wakes : At → Bool
  | .wakeTake | .wake => true
  | _ => false

/-- `struct sleeplock`, the holders of the two spinlocks, and the processes. -/
structure Sys where
  locked : Bool
  sleepProcs : List Nat
  lk : Option Nat
  tableLock : Option Nat
  pc : Nat → At

/-- `sleeplock_init`. -/
def sleeplockInit : Sys := ⟨false, [], none, none, fun _ => .out⟩

/-! ## §2 Steps -/

/-- Process `p` goes on to `a`. -/
def Sys.goto (s : Sys) (p : Nat) (a : At) : Sys := { s with pc := Function.update s.pc p a }

/-- `spin_lock_irqsave`: as long as another process holds the lock, `p` spins. -/
def takeLk (s : Sys) (p : Nat) (a : At) : Sys :=
  if s.lk = none then { s with lk := some p }.goto p a else s
def takeTable (s : Sys) (p : Nat) (a : At) : Sys :=
  if s.tableLock = none then { s with tableLock := some p }.goto p a else s

/-- `spin_unlock_irqrestore`. -/
def dropLk (s : Sys) (p : Nat) (a : At) : Sys := { s with lk := none }.goto p a
def dropTable (s : Sys) (p : Nat) (a : At) : Sys := { s with tableLock := none }.goto p a

/-- `wakeup1`: every process on the list becomes runnable. -/
def wakeup1 (s : Sys) : Sys :=
  { s with
    sleepProcs := []
    pc := fun q => if q ∈ s.sleepProcs then .runnable else s.pc q }

/-- `p` does the next thing; `sched` gives `proc_table_lock` to the scheduler, who drops it. -/
def advance (s : Sys) (p : Nat) : Sys :=
  match s.pc p with
  | .out | .inside | .asleep => s
  | .enter => takeLk s p .test
  | .test => if s.locked then s.goto p .sleepTake else { s with locked := true }.goto p .got
  | .sleepTake => takeTable s p .sleepDrop
  | .sleepDrop => dropLk s p .block
  | .block => dropTable { s with sleepProcs := s.sleepProcs ++ [p] } p .asleep
  | .runnable => takeTable s p .back
  | .back => dropTable s p .enter
  | .got => dropLk s p .inside
  | .leave => takeLk s p .clear
  | .clear => { s with locked := false }.goto p .wakeTake
  | .wakeTake => takeTable s p .wake
  | .wake => (wakeup1 s).goto p .wakeDrop
  | .wakeDrop => dropTable s p .finish
  | .finish => dropLk s p .out

/-- `kill`, a section of `proc_table_lock`: a sleeping process is taken off the list. -/
def kill (s : Sys) (p : Nat) : Sys :=
  if s.tableLock = none ∧ s.pc p = .asleep then
    { s with sleepProcs := s.sleepProcs.erase p }.goto p .runnable
  else
    s

/-- A process calls `sleep_lock`, or `sleep_unlock` as the holder; goes on; or is killed. -/
inductive Op where
  | sleepLock (p : Nat)
  | sleepUnlock (p : Nat)
  | advance (p : Nat)
  | kill (p : Nat)

def step (s : Sys) : Op → Sys
  | .sleepLock p => if s.pc p = .out then s.goto p .enter else s
  | .sleepUnlock p => if s.pc p = .inside then s.goto p .leave else s
  | .advance p => advance s p
  | .kill p => kill s p

/-! ## §3 The invariant -/

/-- What holds at every point: the spinlocks have the holders that the program points say, the taken
    lock has one owner, and a process sleeps on a free lock only while its wake-up is under way. -/
structure Inv (s : Sys) : Prop where
  lk : ∀ p, (s.pc p).holdsLk = true ↔ s.lk = some p
  table : ∀ p, (s.pc p).holdsTable = true ↔ s.tableLock = some p
  owner : ∀ p q, (s.pc p).owns = true → (s.pc q).owns = true → p = q
  owned : ∀ p, (s.pc p).owns = true → s.locked = true
  decided : ∀ p, (s.pc p).decided = true → s.locked = true
  nodup : s.sleepProcs.Nodup
  list : ∀ p, p ∈ s.sleepProcs ↔ s.pc p = .asleep
  awake : s.locked = false → ∀ p, (s.pc p).sleeps = true → ∃ q, (s.pc q).wakes = true

theorem sleeplockInit_inv : Inv sleeplockInit where
  lk := by simp [sleeplockInit, At.holdsLk]
  table := by simp [sleeplockInit, At.holdsTable]
  owner := by simp [sleeplockInit, At.owns]
  owned := by simp [sleeplockInit, At.owns]
  decided := by simp [sleeplockInit, At.decided]
  nodup := List.nodup_nil
  list := by simp [sleeplockInit]
  awake := by simp [sleeplockInit, At.sleeps]

variable {s : Sys} {p : Nat} {a : At}

@[simp] theorem goto_self (s : Sys) (p : Nat) (a : At) : (s.goto p a).pc p = a :=
  Function.update_self ..

@[simp] theorem goto_of_ne (s : Sys) (a : At) {p q : Nat} (h : q ≠ p) :
    (s.goto p a).pc q = s.pc q := Function.update_of_ne h ..

@[simp] theorem goto_locked (s : Sys) (p : Nat) (a : At) : (s.goto p a).locked = s.locked := rfl
@[simp] theorem goto_sleepProcs (s : Sys) (p : Nat) (a : At) :
    (s.goto p a).sleepProcs = s.sleepProcs := rfl
@[simp] theorem goto_lk (s : Sys) (p : Nat) (a : At) : (s.goto p a).lk = s.lk := rfl
@[simp] theorem goto_tableLock (s : Sys) (p : Nat) (a : At) :
    (s.goto p a).tableLock = s.tableLock := rfl

/-- Going from `b` to `a` takes nothing into the process's hand, and drops no wake-up to come. -/
def Goes (b a : At) : Prop :=
  (a.owns = true → b.owns = true) ∧ (a = .asleep ↔ b = .asleep) ∧
    (a.sleeps = true → b.sleeps = true ∨ b.decided = true) ∧ (b.wakes = true → a.wakes = true)

instance (b a : At) : Decidable (Goes b a) := by unfold Goes; infer_instance

/-- **One process goes on**, with the spinlocks as its new point says. -/
theorem Inv.goes (h : Inv s) (hgo : Goes (s.pc p) a) (hdec : a.decided = true → s.locked = true)
    {lk tableLock : Option Nat}
    (hlk : ∀ q, q ≠ p → (lk = some q ↔ s.lk = some q)) (hlkp : a.holdsLk = true ↔ lk = some p)
    (htab : ∀ q, q ≠ p → (tableLock = some q ↔ s.tableLock = some q))
    (htabp : a.holdsTable = true ↔ tableLock = some p) :
    Inv ({ s with lk := lk, tableLock := tableLock }.goto p a) := by
  obtain ⟨howns, hasleep, hsleeps, hwakes⟩ := hgo
  -- the old point of a process, whether it is `p` or not
  have hold : ∀ f : At → Bool, (f a = true → f (s.pc p) = true) →
      ∀ q, f (Function.update s.pc p a q) = true → f (s.pc q) = true := by
    intro f hf q hq
    by_cases hqp : q = p
    · subst hqp
      rw [Function.update_self] at hq
      exact hf hq
    · rwa [Function.update_of_ne hqp] at hq
  constructor
  · intro q
    by_cases hqp : q = p
    · subst hqp
      simpa using hlkp
    · simpa [hqp, h.lk q] using (hlk q hqp).symm
  · intro q
    by_cases hqp : q = p
    · subst hqp
      simpa using htabp
    · simpa [hqp, h.table q] using (htab q hqp).symm
  · intro q r hq hr
    exact h.owner q r (hold _ howns q hq) (hold _ howns r hr)
  · intro q hq
    exact h.owned q (hold _ howns q hq)
  · intro q hq
    by_cases hqp : q = p
    · subst hqp
      exact hdec (by simpa using hq)
    · exact h.decided q (by simpa [hqp] using hq)
  · exact h.nodup
  · intro q
    by_cases hqp : q = p
    · subst hqp
      simpa [hasleep] using h.list q
    · simpa [hqp] using h.list q
  · intro hfree q hq
    have hsleeper : (s.pc q).sleeps = true := by
      by_cases hqp : q = p
      · subst hqp
        rw [goto_self] at hq
        apply (hsleeps hq).resolve_right
        intro hd
        exact Bool.false_ne_true (hfree.symm.trans (h.decided q hd))
      · rwa [goto_of_ne _ _ hqp] at hq
    obtain ⟨r, hr⟩ := h.awake hfree q hsleeper
    refine ⟨r, ?_⟩
    by_cases hrp : r = p
    · subst hrp
      simpa using hwakes hr
    · simpa [hrp] using hr

/-! ## §4 Spinlock operations -/

theorem Inv.call (h : Inv s) (hgo : Goes (s.pc p) a) (hdec : a.decided = true → s.locked = true)
    (hlk : a.holdsLk = (s.pc p).holdsLk)
    (htab : a.holdsTable = (s.pc p).holdsTable) : Inv (s.goto p a) := by
  apply h.goes hgo hdec (fun _ _ => Iff.rfl) _ (fun _ _ => Iff.rfl)
  · rw [htab]
    exact h.table p
  · rw [hlk]
    exact h.lk p

theorem takeLk_inv (h : Inv s) (hgo : Goes (s.pc p) a) (hdec : a.decided = true → s.locked = true)
    (hlk : a.holdsLk = true)
    (htab : a.holdsTable = (s.pc p).holdsTable) : Inv (takeLk s p a) := by
  unfold takeLk
  split
  · next hfree =>
    apply h.goes hgo hdec _ _ (fun _ _ => Iff.rfl)
    · rw [htab]
      exact h.table p
    · intro q hq
      simp [hfree, Ne.symm hq]
    · simp [hlk]
  · exact h

theorem takeTable_inv (h : Inv s) (hgo : Goes (s.pc p) a) (hdec : a.decided = true → s.locked = true)
    (htab : a.holdsTable = true)
    (hlk : a.holdsLk = (s.pc p).holdsLk) : Inv (takeTable s p a) := by
  unfold takeTable
  split
  · next hfree =>
    apply h.goes hgo hdec (fun _ _ => Iff.rfl) _ _ _
    · rw [hlk]
      exact h.lk p
    · intro q hq
      simp [hfree, Ne.symm hq]
    · simp [htab]
  · exact h

theorem dropLk_inv (h : Inv s) (hgo : Goes (s.pc p) a) (hdec : a.decided = true → s.locked = true)
    (hheld : (s.pc p).holdsLk = true)
    (hlk : a.holdsLk = false) (htab : a.holdsTable = (s.pc p).holdsTable) : Inv (dropLk s p a) := by
  have hmine : s.lk = some p := (h.lk p).1 hheld
  apply h.goes hgo hdec _ _ (fun _ _ => Iff.rfl)
  · rw [htab]
    exact h.table p
  · intro q hq
    simp [hmine, Ne.symm hq]
  · simp [hlk]

theorem dropTable_inv (h : Inv s) (hgo : Goes (s.pc p) a) (hdec : a.decided = true → s.locked = true)
    (hheld : (s.pc p).holdsTable = true)
    (htab : a.holdsTable = false) (hlk : a.holdsLk = (s.pc p).holdsLk) : Inv (dropTable s p a) := by
  have hmine : s.tableLock = some p := (h.table p).1 hheld
  apply h.goes hgo hdec (fun _ _ => Iff.rfl) _ _ _
  · rw [hlk]
    exact h.lk p
  · intro q hq
    simp [hmine, Ne.symm hq]
  · simp [htab]

/-! ## §5 The other steps -/

/-- The free lock is taken. -/
theorem take_inv (h : Inv s) (hpc : s.pc p = .test) (hfree : s.locked = false) :
    Inv ({ s with locked := true }.goto p .got) := by
  have hnobody : ∀ q, (s.pc q).owns = false := by
    intro q
    apply Bool.eq_false_iff.2
    intro hq
    exact Bool.false_ne_true (hfree.symm.trans (h.owned q hq))
  have hp : ∀ q, (Function.update s.pc p .got q).owns = true → q = p := by
    intro q hq
    by_contra hqp
    rw [Function.update_of_ne hqp, hnobody] at hq
    exact Bool.false_ne_true hq
  constructor
  · apply (Function.forall_update_iff s.pc fun q b => b.holdsLk = true ↔ s.lk = some q).2
    constructor
    · have := h.lk p
      rwa [hpc] at this
    · exact fun q _ => h.lk q
  · apply (Function.forall_update_iff s.pc fun q b => b.holdsTable = true ↔ s.tableLock = some q).2
    constructor
    · have := h.table p
      rwa [hpc] at this
    · exact fun q _ => h.table q
  · intro q r hq hr
    rw [hp q hq, hp r hr]
  · exact fun _ _ => rfl
  · exact fun _ _ => rfl
  · exact h.nodup
  · apply (Function.forall_update_iff s.pc fun q b => q ∈ s.sleepProcs ↔ b = .asleep).2
    constructor
    · simpa [hpc] using h.list p
    · exact fun q _ => h.list q
  · intro htaken
    cases htaken

/-- The lock is given up; whoever sleeps on it is about to be woken up. -/
theorem clear_inv (h : Inv s) (hpc : s.pc p = .clear) :
    Inv ({ s with locked := false }.goto p .wakeTake) := by
  have howner : ∀ q, (s.pc q).owns = true → q = p := by
    intro q hq
    exact h.owner q p hq (by rw [hpc]; rfl)
  have hmine : s.lk = some p := (h.lk p).1 (by rw [hpc]; rfl)
  -- a process that has found the lock taken still holds `slk->lk`
  have hnone : ∀ q, (s.pc q).decided = true → q = p := by
    intro q hq
    have hlk : (s.pc q).holdsLk = true := by
      revert hq
      cases s.pc q <;> decide
    exact Option.some.inj ((((h.lk q).1 hlk).symm).trans hmine)
  have hout : ∀ q, ¬ (Function.update s.pc p .wakeTake q).owns = true := by
    apply (Function.forall_update_iff s.pc fun _ b => ¬ b.owns = true).2
    exact ⟨by decide, fun q hqp hq => hqp (howner q hq)⟩
  have hundecided : ∀ q, ¬ (Function.update s.pc p .wakeTake q).decided = true := by
    apply (Function.forall_update_iff s.pc fun _ b => ¬ b.decided = true).2
    exact ⟨by decide, fun q hqp hq => hqp (hnone q hq)⟩
  constructor
  · apply (Function.forall_update_iff s.pc fun q b => b.holdsLk = true ↔ s.lk = some q).2
    constructor
    · simp [At.holdsLk, hmine]
    · exact fun q _ => h.lk q
  · apply (Function.forall_update_iff s.pc fun q b => b.holdsTable = true ↔ s.tableLock = some q).2
    constructor
    · have := h.table p
      rwa [hpc] at this
    · exact fun q _ => h.table q
  · intro q r hq
    exact absurd hq (hout q)
  · intro q hq
    exact absurd hq (hout q)
  · intro q hq
    exact absurd hq (hundecided q)
  · exact h.nodup
  · apply (Function.forall_update_iff s.pc fun q b => q ∈ s.sleepProcs ↔ b = .asleep).2
    constructor
    · simpa [hpc] using h.list p
    · exact fun q _ => h.list q
  · exact fun _ _ _ => ⟨p, by simp [At.wakes]⟩

/-- A process that still holds `proc_table_lock` goes on the list. -/
theorem block_inv (h : Inv s) (hpc : s.pc p = .block) :
    Inv (dropTable { s with sleepProcs := s.sleepProcs ++ [p] } p .asleep) := by
  have hmine : s.tableLock = some p := (h.table p).1 (by rw [hpc]; rfl)
  have hnotin : p ∉ s.sleepProcs := by simp [h.list p, hpc]
  constructor
  · apply (Function.forall_update_iff s.pc fun q b => b.holdsLk = true ↔ s.lk = some q).2
    constructor
    · have := h.lk p
      rwa [hpc] at this
    · exact fun q _ => h.lk q
  · apply (Function.forall_update_iff s.pc fun q b => b.holdsTable = true ↔ none = some q).2
    constructor
    · simp [At.holdsTable]
    · intro q hqp
      simp [h.table q, hmine, Ne.symm hqp]
  · have howns : ∀ q, (Function.update s.pc p .asleep q).owns = true → (s.pc q).owns = true := by
      apply (Function.forall_update_iff s.pc fun q b => b.owns = true → (s.pc q).owns = true).2
      exact ⟨(by intro hq; cases hq), fun _ _ hq => hq⟩
    exact fun q r hq hr => h.owner q r (howns q hq) (howns r hr)
  · apply (Function.forall_update_iff s.pc fun _ b => b.owns = true → s.locked = true).2
    exact ⟨nofun, fun q _ => h.owned q⟩
  · apply (Function.forall_update_iff s.pc fun _ b => b.decided = true → s.locked = true).2
    exact ⟨nofun, fun q _ => h.decided q⟩
  · rw [dropTable]
    exact List.nodup_append.2 ⟨h.nodup, List.nodup_singleton p, by
      intro q hq r hr
      rw [List.mem_singleton.1 hr]
      rintro rfl
      exact hnotin hq⟩
  · apply (Function.forall_update_iff s.pc fun q b => q ∈ s.sleepProcs ++ [p] ↔ b = .asleep).2
    constructor
    · simp
    · intro q hqp
      simp [h.list q, hqp]
  · intro hfree _ _
    -- the list was left alone, so the wake-up was under way before
    obtain ⟨r, hr⟩ := h.awake hfree p (by rw [hpc]; rfl)
    refine ⟨r, ?_⟩
    have hrp : r ≠ p := by
      rintro rfl
      rw [hpc] at hr
      cases hr
    rwa [dropTable, goto_of_ne _ _ hrp]

/-- The list is emptied by the process that holds both spinlocks. -/
theorem wake_inv (h : Inv s) (hpc : s.pc p = .wake) : Inv ((wakeup1 s).goto p .wakeDrop) := by
  have hmine : s.tableLock = some p := (h.table p).1 (by rw [hpc]; rfl)
  have hmem : ∀ q, q ∈ s.sleepProcs → s.pc q = .asleep := fun q => (h.list q).1
  -- a woken process stands at `runnable`, where it holds as little as at `asleep`
  have hpoint : ∀ f : At → Bool, f .runnable = f .asleep → f .wakeDrop = f .wake →
      ∀ q, f (((wakeup1 s).goto p .wakeDrop).pc q) = f (s.pc q) := by
    intro f hrun hdrop
    apply (Function.forall_update_iff (wakeup1 s).pc fun q b => f b = f (s.pc q)).2
    constructor
    · rw [hpc, hdrop]
    · intro q _
      rw [wakeup1]
      dsimp only
      split
      · next hq => rw [hmem q hq, hrun]
      · rfl
  have hnosleep : ∀ q, (((wakeup1 s).goto p .wakeDrop).pc q).sleeps = false := by
    apply (Function.forall_update_iff (wakeup1 s).pc fun _ b => b.sleeps = false).2
    refine ⟨rfl, fun q hqp => ?_⟩
    rw [wakeup1]
    dsimp only
    split
    · rfl
    · next hq =>
      cases hq' : s.pc q with
      | asleep => exact absurd ((h.list q).2 hq') hq
      | block =>
        -- `proc_table_lock` is not free for a second process
        have := (h.table q).1 (by rw [hq']; rfl)
        exact absurd (Option.some.inj (this.symm.trans hmine)) hqp
      | _ => rfl
  constructor
  · intro q
    rw [hpoint At.holdsLk rfl rfl]
    exact h.lk q
  · intro q
    rw [hpoint At.holdsTable rfl rfl]
    exact h.table q
  · intro q r
    rw [hpoint At.owns rfl rfl, hpoint At.owns rfl rfl]
    exact h.owner q r
  · intro q
    rw [hpoint At.owns rfl rfl]
    exact h.owned q
  · intro q
    rw [hpoint At.decided rfl rfl]
    exact h.decided q
  · exact List.nodup_nil
  · intro q
    have := hnosleep q
    constructor
    · intro hq
      cases hq
    · intro hq
      rw [hq] at this
      cases this
  · intro _ q hq
    rw [hnosleep q] at hq
    cases hq

theorem kill_inv (h : Inv s) (p : Nat) : Inv (kill s p) := by
  unfold kill
  split
  · next hsleep =>
    obtain ⟨_, hpc⟩ := hsleep
    have hpoint : ∀ f : At → Bool, f .runnable = f .asleep →
        ∀ q, f (Function.update s.pc p .runnable q) = f (s.pc q) := by
      intro f hrun
      apply (Function.forall_update_iff s.pc fun q b => f b = f (s.pc q)).2
      exact ⟨by rw [hpc, hrun], fun _ _ => rfl⟩
    constructor
    · intro q
      show (Function.update s.pc p .runnable q).holdsLk = true ↔ _
      rw [hpoint At.holdsLk rfl]
      exact h.lk q
    · intro q
      show (Function.update s.pc p .runnable q).holdsTable = true ↔ _
      rw [hpoint At.holdsTable rfl]
      exact h.table q
    · intro q r hq hr
      apply h.owner q r
      · exact (hpoint At.owns rfl q).symm.trans hq
      · exact (hpoint At.owns rfl r).symm.trans hr
    · intro q hq
      exact h.owned q ((hpoint At.owns rfl q).symm.trans hq)
    · intro q hq
      exact h.decided q ((hpoint At.decided rfl q).symm.trans hq)
    · exact h.nodup.erase p
    · apply (Function.forall_update_iff s.pc fun q b => q ∈ s.sleepProcs.erase p ↔ b = .asleep).2
      constructor
      · simp [h.nodup.mem_erase_iff]
      · intro q hqp
        simp [h.nodup.mem_erase_iff, hqp, h.list q]
    · intro hfree q hq
      have hq : (s.pc q).sleeps = true := by
        revert hq
        exact (Function.forall_update_iff s.pc fun q b => b.sleeps = true → (s.pc q).sleeps = true).2
          ⟨(by intro hq; cases hq), fun _ _ hq => hq⟩ q
      obtain ⟨r, hr⟩ := h.awake hfree q hq
      exact ⟨r, (hpoint At.wakes rfl r).trans hr⟩
  · exact h

/-! ## §6 Runs -/

theorem advance_inv (h : Inv s) (p : Nat) : Inv (advance s p) := by
  cases hpc : s.pc p
  all_goals simp only [advance, hpc]
  case out => exact h
  case inside => exact h
  case asleep => exact h
  case enter => exact takeLk_inv h (by rw [hpc]; decide) nofun rfl (by rw [hpc]; rfl)
  case test =>
    split
    · next htaken =>
      apply h.call (a := .sleepTake) _ (fun _ => htaken)
      · rw [hpc]
        rfl
      · rw [hpc]
        rfl
      · rw [hpc]
        decide
    · next hfree => exact take_inv h hpc (Bool.eq_false_iff.2 hfree)
  case sleepTake =>
    exact takeTable_inv h (by rw [hpc]; decide) (fun _ => h.decided p (by rw [hpc]; rfl)) rfl
      (by rw [hpc]; rfl)
  case sleepDrop =>
    exact dropLk_inv h (by rw [hpc]; decide) nofun (by rw [hpc]; rfl) rfl (by rw [hpc]; rfl)
  case block => exact block_inv h hpc
  case runnable => exact takeTable_inv h (by rw [hpc]; decide) nofun rfl (by rw [hpc]; rfl)
  case back =>
    exact dropTable_inv h (by rw [hpc]; decide) nofun (by rw [hpc]; rfl) rfl (by rw [hpc]; rfl)
  case got =>
    exact dropLk_inv h (by rw [hpc]; decide) nofun (by rw [hpc]; rfl) rfl (by rw [hpc]; rfl)
  case leave => exact takeLk_inv h (by rw [hpc]; decide) nofun rfl (by rw [hpc]; rfl)
  case clear => exact clear_inv h hpc
  case wakeTake => exact takeTable_inv h (by rw [hpc]; decide) nofun rfl (by rw [hpc]; rfl)
  case wake => exact wake_inv h hpc
  case wakeDrop =>
    exact dropTable_inv h (by rw [hpc]; decide) nofun (by rw [hpc]; rfl) rfl (by rw [hpc]; rfl)
  case finish =>
    exact dropLk_inv h (by rw [hpc]; decide) nofun (by rw [hpc]; rfl) rfl (by rw [hpc]; rfl)

/-- **Step lemma**. -/
theorem step_inv (h : Inv s) (o : Op) : Inv (step s o) := by
  cases o with
  | sleepLock p =>
    simp only [step]
    split
    · next hpc => exact h.call (by rw [hpc]; decide) nofun (by rw [hpc]; rfl) (by rw [hpc]; rfl)
    · exact h
  | sleepUnlock p =>
    simp only [step]
    split
    · next hpc => exact h.call (by rw [hpc]; decide) nofun (by rw [hpc]; rfl) (by rw [hpc]; rfl)
    · exact h
  | advance p => exact advance_inv h p
  | kill p => exact kill_inv h p

theorem run_inv (h : Inv s) (ops : List Op) : Inv (ops.foldl step s) := by
  induction ops generalizing s with
  | nil => exact h
  | cons o ops ih => exact ih (step_inv h o)

/-- **Mutual exclusion without lost wake-ups**: after any steps of any processes, at most one of them
    is between `sleep_lock` and `sleep_unlock`, and when nobody is inside a section of `slk->lk` and
    the lock is free, nobody is asleep on its list. -/
theorem sleeplock_of_run (ops : List Op) :
    let s := ops.foldl step sleeplockInit
    (∀ p q, s.pc p = .inside → s.pc q = .inside → p = q) ∧
      (s.lk = none → s.locked = false → s.sleepProcs = [] ∧ ∀ p, s.pc p ≠ .asleep) := by
  intro s
  have h : Inv s := run_inv sleeplockInit_inv ops
  constructor
  · intro p q hp hq
    exact h.owner p q (by rw [hp]; rfl) (by rw [hq]; rfl)
  · intro hlk hfree
    have hnone : ∀ p, s.pc p ≠ .asleep := by
      intro p hp
      obtain ⟨r, hr⟩ := h.awake hfree p (by rw [hp]; rfl)
      -- the process that wakes the others up is inside its section
      have hheld : (s.pc r).holdsLk = true := by
        revert hr
        cases s.pc r <;> decide
      rw [h.lk r, hlk] at hheld
      cases hheld
    refine ⟨List.eq_nil_iff_forall_not_mem.2 ?_, hnone⟩
    intro p hp
    exact hnone p ((h.list p).1 hp)

end WeiOS.SleepLock
