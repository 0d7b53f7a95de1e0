import Mathlib
import WeiOS.Lib.Run
import WeiOS.Dev.Ide
import WeiOS.Fs.Bio

/-!
# Processes Sharing the Buffer Cache

Any number of processes call `getblk`, `bread`, `log_write`, `bwrite` and `brelse`, and the disk
completes their requests. A step is what runs between two points where a process can be interrupted:
a round of the loop of `getblk`, the check of `bread`, a submission to the disk driver, an interrupt.

## Main results
- `noLostWakeup_iff`: sleepers on a buffer stay wakeable exactly as long as no buffer is released
  dirty under a sleeper.
- `cacheOk_of_run`: the hash table, the free list and the holders in every run on one device.
-/

namespace WeiOS.Bio

open WeiOS.Lib

variable {α : Type}

/-! ## §1 Processes -/

/-- Where a process is: outside the cache, in the loop of `getblk`, asleep on
    `b->waiting_proc_list` or on `bcache.waiting_proc_list`, in `bread` with the buffer it got, or
    waiting for the disk. `read` tells `bread` from `getblk`. -/
inductive Pc where
  | user
  | getblk (dev blockno : Nat) (read : Bool)
  | onBuf (b dev blockno : Nat) (read : Bool)
  | onFree (dev blockno : Nat) (read : Bool)
  | bread (b : Nat)
  | io (b : Nat)
  deriving DecidableEq

/-- The cache, the queue of the disk driver, and the processes with the buffers they hold. -/
structure Sys (α : Type) where
  cache : Bcache α
  ideQueue : List Nat
  slaveDiskExisted : Bool
  pc : Nat → Pc
  holds : Nat → List Nat

/-- After `buffer_init`, no process has called yet. -/
def bootSys (zero : α) (slave : Bool) : Sys α where
  cache := bufferInit zero
  ideQueue := []
  slaveDiskExisted := slave
  pc := fun _ => .user
  holds := fun _ => []

/-- The steps. `accepted` tells whether `log_write` got past its checks of the log; `data` is what a
    disk read brings. -/
inductive Op (α : Type) where
  | call (p dev blockno : Nat) (read : Bool)
  | round (p : Nat)
  | check (p : Nat)
  | logWrite (p b : Nat) (accepted : Bool)
  | bwrite (p b : Nat)
  | brelse (p b : Nat)
  | intr (data : α)
  | resume (p : Nat)

def setPc (s : Sys α) (p : Nat) (c : Pc) : Sys α := { s with pc := Function.update s.pc p c }

def setCache (s : Sys α) (c : Bcache α) : Sys α := { s with cache := c }

/-- The process now holds buffer `b`; in `bread` it goes on to look at the flags. -/
def takeBuf (s : Sys α) (p b : Nat) (read : Bool) : Sys α :=
  setPc { s with holds := Function.update s.holds p (b :: s.holds p) } p
    (if read then .bread b else .user)

/-- The two `wakeup`s of `brelse`: everybody who sleeps for a free buffer or for `b`. -/
def wakeup (b : Nat) : Pc → Pc
  | .onBuf b' dev blockno read =>
    if b' = b then .getblk dev blockno read else .onBuf b' dev blockno read
  | .onFree dev blockno read => .getblk dev blockno read
  | c => c

/-- `ide_read_write` up to its sleep. -/
def submit (s : Sys α) (p b : Nat) : Sys α :=
  if clean (s.cache.buf b) then setPc s p .user
  else if (s.cache.buf b).dev ≠ 0 ∧ s.slaveDiskExisted = false then setPc s p .user
  else
    setPc { s with
      ideQueue := Ide.insertRequest (fun c => (s.cache.buf c).blockno) b s.ideQueue } p (.io b)

/-- A round of `getblk`. -/
def round (s : Sys α) (p dev blockno : Nat) (read : Bool) : Sys α :=
  match Bio.getblk s.cache dev blockno with
  | (.hit b, c) => takeBuf (setCache s c) p b read
  | (.recycled b, c) => takeBuf (setCache s c) p b read
  | (.waitBuf b, c) => setPc (setCache s c) p (.onBuf b dev blockno read)
  | (.waitFree, c) => setPc (setCache s c) p (.onFree dev blockno read)

/-- `brelse` by process `p`. -/
def release (s : Sys α) (p b : Nat) : Sys α :=
  let s' := { s with
    cache := Bio.brelse s.cache b
    holds := Function.update s.holds p ((s.holds p).erase b) }
  if clean (s.cache.buf b) then { s' with pc := fun q => wakeup b (s'.pc q) } else s'

/-- One step. -/
def next (s : Sys α) : Op α → Sys α
  | .call p dev blockno read => setPc s p (.getblk dev blockno read)
  | .round p =>
    match s.pc p with
    | .getblk dev blockno read => round s p dev blockno read
    | _ => s
  | .check p =>
    match s.pc p with
    | .bread b => if (s.cache.buf b).valid then setPc s p .user else submit s p b
    | _ => s
  | .logWrite _ b accepted => if accepted then setCache s (markDirty s.cache b) else s
  | .bwrite p b => submit (setCache s (markDirty s.cache b)) p b
  | .brelse p b => release s p b
  | .intr data =>
    match s.ideQueue with
    | [] => s
    | b :: rest => { s with cache := completeIo s.cache b data, ideQueue := rest }
  | .resume p =>
    match s.pc p with
    | .io b => if clean (s.cache.buf b) then setPc s p .user else s
    | _ => s

/-- No step fails. -/
def step (s : Sys α) (o : Op α) : Except Empty (Sys α) := .ok (next s o)

/-- A process outside the cache may call, and uses buffers that it holds; the other steps go on where
    the process is. -/
def Allowed (s : Sys α) : Op α → Prop
  | .call p _ _ _ => s.pc p = .user
  | .round p => ∃ dev blockno read, s.pc p = .getblk dev blockno read
  | .check p => ∃ b, s.pc p = .bread b
  | .logWrite p b _ => s.pc p = .user ∧ b ∈ s.holds p
  | .bwrite p b => s.pc p = .user ∧ b ∈ s.holds p
  | .brelse p b => s.pc p = .user ∧ b ∈ s.holds p
  | .intr _ => s.ideQueue ≠ []
  | .resume p => ∃ b, s.pc p = .io b

@[simp] theorem setPc_cache (s : Sys α) (p : Nat) (c : Pc) : (setPc s p c).cache = s.cache := rfl
@[simp] theorem setPc_holds (s : Sys α) (p : Nat) (c : Pc) : (setPc s p c).holds = s.holds := rfl
@[simp] theorem setPc_queue (s : Sys α) (p : Nat) (c : Pc) : (setPc s p c).ideQueue = s.ideQueue :=
  rfl
@[simp] theorem setPc_same (s : Sys α) (p : Nat) (c : Pc) : (setPc s p c).pc p = c := by
  simp [setPc]
theorem setPc_other (s : Sys α) {p q : Nat} (c : Pc) (h : q ≠ p) : (setPc s p c).pc q = s.pc q := by
  simp [setPc, h]

/-! ## §2 Sleepers -/

/-- A process sleeps on the waiting list of buffer `b`. -/
def SleepsOn (s : Sys α) (p b : Nat) : Prop := ∃ dev blockno read, s.pc p = .onBuf b dev blockno read

/-- A process sleeps for want of a free buffer. -/
def SleepsForFree (s : Sys α) (p : Nat) : Prop := ∃ dev blockno read, s.pc p = .onFree dev blockno read

/-- A buffer with sleepers is busy, and the free list is empty when somebody sleeps for it. -/
structure NoLostWakeup (s : Sys α) : Prop where
  onBuf : ∀ p b, SleepsOn s p b → (s.cache.buf b).busy = true
  onFree : ∀ p, SleepsForFree s p → s.cache.freeList = []

/-- A released buffer is clean, or nobody sleeps on it. -/
def CleanRelease (s : Sys α) : Op α → Prop
  | .brelse _ b => clean (s.cache.buf b) = true ∨ ∀ q, ¬ SleepsOn s q b
  | _ => True

/-- A step that wakes or puts to sleep nobody, and clears no `B_BUSY`. -/
theorem NoLostWakeup.of_quiet {s s' : Sys α} (h : NoLostWakeup s)
    (hbusy : ∀ b, (s.cache.buf b).busy = true → (s'.cache.buf b).busy = true)
    (hfree : s.cache.freeList = [] → s'.cache.freeList = [])
    (hpc : ∀ q, s'.pc q = s.pc q ∨ ((∀ b, ¬ SleepsOn s' q b) ∧ ¬ SleepsForFree s' q)) :
    NoLostWakeup s' := by
  constructor
  · rintro q b ⟨dev, blockno, read, hq⟩
    rcases hpc q with heq | ⟨hno, _⟩
    · exact hbusy b (h.onBuf q b ⟨dev, blockno, read, heq ▸ hq⟩)
    · exact absurd ⟨dev, blockno, read, hq⟩ (hno b)
  · rintro q ⟨dev, blockno, read, hq⟩
    rcases hpc q with heq | ⟨_, hno⟩
    · exact hfree (h.onFree q ⟨dev, blockno, read, heq ▸ hq⟩)
    · exact absurd ⟨dev, blockno, read, hq⟩ hno

/-- A process that is moved to a place where it is awake. -/
theorem awake_or_same {s s' : Sys α} {p : Nat} {c : Pc} (hs : ∀ q, q ≠ p → s'.pc q = s.pc q)
    (hc : s'.pc p = c) (hbuf : ∀ b d n r, c ≠ .onBuf b d n r) (hfree : ∀ d n r, c ≠ .onFree d n r) :
    ∀ q, s'.pc q = s.pc q ∨ ((∀ b, ¬ SleepsOn s' q b) ∧ ¬ SleepsForFree s' q) := by
  intro q
  by_cases hq : q = p
  · right
    subst hq
    refine ⟨?_, ?_⟩
    · rintro b ⟨d, n, r, h⟩
      exact hbuf b d n r (hc.symm.trans h)
    · rintro ⟨d, n, r, h⟩
      exact hfree d n r (hc.symm.trans h)
  · exact .inl (hs q hq)

theorem NoLostWakeup.setPc {s : Sys α} (h : NoLostWakeup s) (p : Nat) {c : Pc}
    (hbuf : ∀ b d n r, c ≠ .onBuf b d n r) (hfree : ∀ d n r, c ≠ .onFree d n r) :
    NoLostWakeup (Bio.setPc s p c) := by
  refine h.of_quiet (fun _ => id) id ?_
  exact awake_or_same (fun q hq => setPc_other s _ hq) (setPc_same s p _) hbuf hfree

/-- `ide_read_write` leaves the cache alone, and its caller is outside or waits for the disk. -/
theorem submit_spec (s : Sys α) (p b : Nat) :
    (submit s p b).cache = s.cache ∧ (submit s p b).holds = s.holds ∧
      (submit s p b).slaveDiskExisted = s.slaveDiskExisted ∧
      (∀ q, q ≠ p → (submit s p b).pc q = s.pc q) ∧
      (((submit s p b).pc p = .user ∧ (submit s p b).ideQueue = s.ideQueue) ∨
        ((submit s p b).pc p = .io b ∧ (submit s p b).ideQueue.Perm (b :: s.ideQueue) ∧
          clean (s.cache.buf b) = false)) := by
  unfold submit
  split
  · exact ⟨rfl, rfl, rfl, fun q hq => setPc_other s _ hq, .inl ⟨setPc_same s p _, rfl⟩⟩
  · split
    · exact ⟨rfl, rfl, rfl, fun q hq => setPc_other s _ hq, .inl ⟨setPc_same s p _, rfl⟩⟩
    · rename_i hclean _
      refine ⟨rfl, rfl, rfl, fun q hq => setPc_other _ _ hq, .inr ⟨setPc_same _ p _, ?_, ?_⟩⟩
      · exact Ide.insertRequest_perm _ b s.ideQueue
      · simpa using hclean

theorem markDirty_busy (c : Bcache α) (b b' : Nat) :
    ((markDirty c b).buf b').busy = (c.buf b').busy := by
  by_cases h : b' = b
  · subst h
    simp [markDirty, setBuf]
  · simp [markDirty, setBuf, h]

theorem completeIo_busy (c : Bcache α) (b b' : Nat) (v : α) :
    ((completeIo c b v).buf b').busy = (c.buf b').busy := by
  by_cases h : b' = b
  · subst h
    simp [completeIo, setBuf]
  · simp [completeIo, setBuf, h]

theorem hitState_busy (c : Bcache α) (dev blockno b b' : Nat) (h : (c.buf b').busy = true) :
    ((hitState c dev blockno b).buf b').busy = true := by
  by_cases hb : b' = b
  · subst hb
    simp [hitState, setBuf]
  · simp [hitState, setBuf, hb, lookedUp_busy, h]

theorem recycle_busy (c : Bcache α) (b b' : Nat) (rest : List Nat) (dev blockno : Nat)
    (h : (c.buf b').busy = true) : ((recycle c b rest dev blockno).buf b').busy = true := by
  by_cases hb : b' = b
  · subst hb
    simp [recycle, putBlkInHash, setBuf]
  · rw [recycle_buf_of_ne c rest dev blockno hb]
    exact h

theorem brelse_busy_of_ne (c : Bcache α) {b b' : Nat} (h : b' ≠ b) :
    ((Bio.brelse c b).buf b').busy = (c.buf b').busy := by
  simp [brelse_eq, setBuf, h]

theorem brelse_busy_same (c : Bcache α) (b : Nat) : ((Bio.brelse c b).buf b).busy = false := by
  simp [brelse_eq, setBuf]

theorem takeBuf_spec (s : Sys α) (p b : Nat) (read : Bool) :
    (takeBuf s p b read).cache = s.cache ∧ (takeBuf s p b read).ideQueue = s.ideQueue ∧
      (takeBuf s p b read).holds = Function.update s.holds p (b :: s.holds p) ∧
      (takeBuf s p b read).pc p = (if read then .bread b else .user) ∧
      ∀ q, q ≠ p → (takeBuf s p b read).pc q = s.pc q :=
  ⟨rfl, rfl, rfl, setPc_same _ p _, fun _ hq => setPc_other _ _ hq⟩

/-- A process that got its buffer is awake. -/
theorem takeBuf_awake (s : Sys α) (c : Bcache α) (p b : Nat) (read : Bool) :
    ∀ q, (takeBuf (setCache s c) p b read).pc q = s.pc q ∨
      ((∀ b', ¬ SleepsOn (takeBuf (setCache s c) p b read) q b') ∧
        ¬ SleepsForFree (takeBuf (setCache s c) p b read) q) := by
  obtain ⟨_, _, _, hpc, hother⟩ := takeBuf_spec (setCache s c) p b read
  refine awake_or_same hother hpc ?_ ?_
  · intro b' d n r
    cases read <;> simp
  · intro d n r
    cases read <;> simp

/-- A round of `getblk` keeps sleepers wakeable: a process goes to sleep on a busy buffer, or when the
    free list is empty. -/
theorem NoLostWakeup.round {s : Sys α} (h : NoLostWakeup s) (p dev blockno : Nat) (read : Bool) :
    NoLostWakeup (Bio.round s p dev blockno read) := by
  unfold Bio.round
  have hbusy : ∀ b, (s.cache.buf b).busy = true →
      ((lookedUp s.cache dev blockno).buf b).busy = true := fun b hb =>
    (lookedUp_busy s.cache dev blockno b).trans hb
  rcases getblk_cases s.cache dev blockno with ⟨b, _, hb, heq⟩ | ⟨b, _, _, heq⟩ | ⟨_, hl, heq⟩ |
    ⟨b, rest, _, hl, heq⟩
  · rw [heq]
    constructor
    · rintro q b' ⟨d, n, r, hq⟩
      by_cases hqp : q = p
      · subst hqp
        rw [setPc_same] at hq
        obtain ⟨rfl, -⟩ := Pc.onBuf.inj hq
        exact hbusy b hb
      · rw [setPc_other _ _ hqp] at hq
        exact hbusy b' (h.onBuf q b' ⟨d, n, r, hq⟩)
    · rintro q ⟨d, n, r, hq⟩
      by_cases hqp : q = p
      · subst hqp
        rw [setPc_same] at hq
        cases hq
      · rw [setPc_other _ _ hqp] at hq
        exact h.onFree q ⟨d, n, r, hq⟩
  · rw [heq]
    refine h.of_quiet (hitState_busy s.cache dev blockno b) (fun hl => ?_) (takeBuf_awake s _ p b read)
    show s.cache.freeList.erase b = []
    rw [hl]
    rfl
  · rw [heq]
    constructor
    · rintro q b' ⟨d, n, r, hq⟩
      by_cases hqp : q = p
      · subst hqp
        rw [setPc_same] at hq
        cases hq
      · rw [setPc_other _ _ hqp] at hq
        exact hbusy b' (h.onBuf q b' ⟨d, n, r, hq⟩)
    · exact fun _ _ => hl
  · rw [heq]
    refine h.of_quiet (fun b' hb' => recycle_busy _ b b' rest dev blockno (hbusy b' hb'))
      (fun hnil => ?_) (takeBuf_awake s _ p b read)
    rw [hl] at hnil
    cases hnil

/-- `brelse` wakes everybody when the buffer is clean, and nobody otherwise. -/
theorem NoLostWakeup.release {s : Sys α} (h : NoLostWakeup s) (p b : Nat)
    (hC : clean (s.cache.buf b) = true ∨ ∀ q, ¬ SleepsOn s q b) :
    NoLostWakeup (Bio.release s p b) := by
  unfold Bio.release
  dsimp only
  split
  · constructor
    · rintro q b' ⟨d, n, r, hq⟩
      -- a process that still sleeps on a buffer does not sleep on this one
      obtain ⟨hne, hq'⟩ : b' ≠ b ∧ s.pc q = .onBuf b' d n r := by
        simp only [wakeup] at hq
        split at hq
        · split at hq
          · cases hq
          · rename_i hne
            obtain ⟨rfl, rfl, rfl, rfl⟩ := Pc.onBuf.inj hq
            exact ⟨hne, by assumption⟩
        · cases hq
        · rename_i hnot _
          exact absurd hq (hnot _ _ _ _)
      show ((Bio.brelse s.cache b).buf b').busy = true
      rw [brelse_busy_of_ne _ hne]
      exact h.onBuf q b' ⟨d, n, r, hq'⟩
    · rintro q ⟨d, n, r, hq⟩
      simp only [wakeup] at hq
      split at hq
      · split at hq <;> cases hq
      · cases hq
      · rename_i hnot
        exact absurd hq (hnot _ _ _)
  · rename_i hclean
    have hno : ∀ q, ¬ SleepsOn s q b := hC.resolve_left hclean
    constructor
    · rintro q b' hq
      have hne : b' ≠ b := by
        rintro rfl
        exact hno q hq
      show ((Bio.brelse s.cache b).buf b').busy = true
      rw [brelse_busy_of_ne _ hne]
      exact h.onBuf q b' hq
    · intro q hq
      have hfree : (Bio.brelse s.cache b).freeList = s.cache.freeList := by
        rw [brelse_eq]
        exact if_neg hclean
      rw [hfree]
      exact h.onFree q hq

theorem NoLostWakeup.submit {s : Sys α} (h : NoLostWakeup s) (p b : Nat) :
    NoLostWakeup (Bio.submit s p b) := by
  obtain ⟨hcache, _, _, hother, hp⟩ := submit_spec s p b
  refine h.of_quiet (fun b' hb' => by rwa [hcache]) (fun hl => by rwa [hcache]) ?_
  rcases hp with ⟨hp, _⟩ | ⟨hp, _⟩
  · exact awake_or_same hother hp (by simp) (by simp)
  · exact awake_or_same hother hp (by simp) (by simp)

theorem NoLostWakeup.markDirty {s : Sys α} (h : NoLostWakeup s) (b : Nat) :
    NoLostWakeup (setCache s (Bio.markDirty s.cache b)) :=
  h.of_quiet (fun b' hb' => (markDirty_busy s.cache b b').trans hb') id (fun _ => .inl rfl)

/-- Every step other than a release under a sleeper keeps sleepers wakeable. -/
theorem next_noLostWakeup (s : Sys α) (o : Op α) (h : NoLostWakeup s) (hC : CleanRelease s o) :
    NoLostWakeup (next s o) := by
  cases o with
  | call p dev blockno read => exact h.setPc p (by simp) (by simp)
  | round p =>
    cases hp : s.pc p with
    | getblk dev blockno read =>
      simp only [next, hp]
      exact h.round p dev blockno read
    | user | onBuf | onFree | bread | io =>
      simp only [next, hp]
      exact h
  | check p =>
    cases hp : s.pc p with
    | bread b =>
      simp only [next, hp]
      split
      · exact h.setPc p (by simp) (by simp)
      · exact h.submit p b
    | user | onBuf | onFree | getblk | io =>
      simp only [next, hp]
      exact h
  | logWrite p b accepted =>
    simp only [next]
    split
    · exact h.markDirty b
    · exact h
  | bwrite p b => exact (h.markDirty b).submit p b
  | brelse p b => exact h.release p b hC
  | intr data =>
    cases hq : s.ideQueue with
    | nil =>
      simp only [next, hq]
      exact h
    | cons b rest =>
      simp only [next, hq]
      exact h.of_quiet (fun b' hb' => (completeIo_busy s.cache b b' data).trans hb') id
        (fun _ => .inl rfl)
  | resume p =>
    cases hp : s.pc p with
    | io b =>
      simp only [next, hp]
      split
      · exact h.setPc p (by simp) (by simp)
      · exact h
    | user | onBuf | onFree | getblk | bread =>
      simp only [next, hp]
      exact h

/-- A dirty release under a sleeper leaves it asleep on a buffer that is not busy. -/
theorem next_lostWakeup (s : Sys α) (o : Op α) (hC : ¬ CleanRelease s o) :
    ¬ NoLostWakeup (next s o) := by
  cases o with
  | brelse p b =>
    simp only [CleanRelease, not_or, not_forall, not_not] at hC
    obtain ⟨hclean, q, hq⟩ := hC
    intro hno
    have hsleep : SleepsOn (Bio.release s p b) q b := by
      simpa [Bio.release, hclean, SleepsOn] using hq
    have hbusy : ((Bio.release s p b).cache.buf b).busy = true := hno.onBuf q b hsleep
    have hcache : (Bio.release s p b).cache = Bio.brelse s.cache b := by
      simp [Bio.release, hclean]
    rw [hcache, brelse_busy_same] at hbusy
    cases hbusy
  | call | round | check | logWrite | bwrite | intr | resume => exact absurd trivial hC

/-- **No lost wakeup**: in a run of the buffer cache, every sleeper on a buffer sleeps on a busy one
    and sleepers for a free buffer find the free list empty, after every step, if and only if no
    buffer is released dirty or invalid while a process sleeps on it. -/
theorem noLostWakeup_iff (zero : α) (slave : Bool) (ops : List (Op α))
    (hops : Meets step Allowed (bootSys zero slave) ops) :
    Along step (fun _ _ s' => NoLostWakeup s') (bootSys zero slave) ops ↔
      Meets step CleanRelease (bootSys zero slave) ops := by
  refine along_iff_meets (V := Allowed) NoLostWakeup ?_ ?_ ?_ hops
  · intro s o h _ hC
    have h' := next_noLostWakeup s o h hC
    exact ⟨_, rfl, h', h'⟩
  · intro s o s' _ _ hC hok
    obtain rfl := Except.ok.inj hok
    exact next_lostWakeup s o hC
  · constructor
    · rintro p b ⟨d, n, r, hp⟩
      cases hp
    · rintro p ⟨d, n, r, hp⟩
      cases hp

def Pc.isGetblk : Pc → Bool
  | .getblk _ _ _ => true
  | _ => false

def Pc.isBread : Pc → Bool
  | .bread _ => true
  | _ => false

def Pc.isIo : Pc → Bool
  | .io _ => true
  | _ => false

theorem Pc.isGetblk_iff (c : Pc) : c.isGetblk = true ↔ ∃ d n r, c = .getblk d n r := by
  cases c <;> simp [Pc.isGetblk]

theorem Pc.isBread_iff (c : Pc) : c.isBread = true ↔ ∃ b, c = .bread b := by
  cases c <;> simp [Pc.isBread]

theorem Pc.isIo_iff (c : Pc) : c.isIo = true ↔ ∃ b, c = .io b := by
  cases c <;> simp [Pc.isIo]

instance decidableAllowed (s : Sys α) : ∀ o : Op α, Decidable (Allowed s o)
  | .call p _ _ _ => inferInstanceAs (Decidable (s.pc p = .user))
  | .round p => decidable_of_iff _ (s.pc p).isGetblk_iff
  | .check p => decidable_of_iff _ (s.pc p).isBread_iff
  | .logWrite p b _ => inferInstanceAs (Decidable (s.pc p = .user ∧ b ∈ s.holds p))
  | .bwrite p b => inferInstanceAs (Decidable (s.pc p = .user ∧ b ∈ s.holds p))
  | .brelse p b => inferInstanceAs (Decidable (s.pc p = .user ∧ b ∈ s.holds p))
  | .intr _ => inferInstanceAs (Decidable (s.ideQueue ≠ []))
  | .resume p => decidable_of_iff _ (s.pc p).isIo_iff

/-- Every release is clean. -/
def AllClean (s : Sys α) : Op α → Prop
  | .brelse _ b => clean (s.cache.buf b) = true
  | _ => True

instance decidableAllClean (s : Sys α) : ∀ o : Op α, Decidable (AllClean s o)
  | .brelse _ b => inferInstanceAs (Decidable (clean (s.cache.buf b) = true))
  | .call _ _ _ _ | .round _ | .check _ | .logWrite _ _ _ | .bwrite _ _ | .intr _ | .resume _ =>
    inferInstanceAs (Decidable True)

/-- Process 0 reads block 3, and process 1 sleeps on its buffer. -/
def twoReaders : List (Op Nat) :=
  [.call 0 1 3 true, .round 0, .check 0, .intr 42, .resume 0, .call 1 1 3 true, .round 1]

/-- The buffer is released as it was read: process 1 is awakened and gets it. -/
theorem noLostWakeup_twoReaders :
    Along step (fun _ _ s' => NoLostWakeup s') (bootSys 0 true)
      (twoReaders ++ [.brelse 0 119, .round 1]) := by
  refine (noLostWakeup_iff 0 true _ (by decide +kernel)).2 ?_
  have hclean : Meets step AllClean (bootSys 0 true) (twoReaders ++ [.brelse 0 119, .round 1]) := by
    decide +kernel
  refine hclean.imp fun s o ho => ?_
  cases o with
  | brelse p b => exact .inl ho
  | call | round | check | logWrite | bwrite | intr | resume => trivial

/-- Process 0 passes the buffer to `log_write` before it releases it: process 1 stays asleep on
    buffer 119, which is not busy any more. -/
theorem dirty_release_strands_sleeper :
    Meets step Allowed (bootSys 0 true) (twoReaders ++ [.logWrite 0 119 true, .brelse 0 119]) ∧
      ¬ Along step (fun _ _ s' => NoLostWakeup s') (bootSys 0 true)
        (twoReaders ++ [.logWrite 0 119 true, .brelse 0 119]) := by
  refine ⟨by decide +kernel, fun h => ?_⟩
  have hsplit : Along step (fun _ _ s' => NoLostWakeup s') (bootSys 0 true)
      ((twoReaders ++ [.logWrite 0 119 true]) ++ [.brelse 0 119]) := by
    rwa [List.append_assoc]
  obtain ⟨_, s', hrun, hok⟩ := hsplit.last
  have hval : (((twoReaders ++ [Op.logWrite 0 119 true]) ++ [Op.brelse 0 119]).foldlM step
      (bootSys 0 true)).toOption.map (fun s : Sys Nat => (s.pc 1, (s.cache.buf 119).busy)) =
      some (.onBuf 119 1 3 true, false) := by decide +kernel
  rw [hrun] at hval
  obtain ⟨hpc, hbusy⟩ := Prod.mk.inj (Option.some.inj hval)
  have := hok.onBuf 1 119 ⟨1, 3, true, hpc⟩
  rw [hbusy] at this
  cases this

/-! ## §3 The cache on one device -/

/-- A buffer is in the hash table. -/
def Hashed (c : Bcache α) (b : Nat) : Prop := ∃ k, b ∈ c.hashTable k

/-- The hash table holds each block of device `dev` at most once, in its chain, and the free list
    holds the buffers that may be recycled. -/
structure CacheInv (dev : Nat) (c : Bcache α) : Prop where
  freeNodup : c.freeList.Nodup
  chainNodup : ∀ k, (c.hashTable k).Nodup
  slot : ∀ k, ∀ b ∈ c.hashTable k,
    hashFunc dev (c.buf b).blockno = k ∧ (c.buf b).dev = dev ∧ b < NBUF
  once : ∀ b b', Hashed c b → Hashed c b' → (c.buf b).blockno = (c.buf b').blockno → b = b'
  freeIff : ∀ b, b ∈ c.freeList ↔
    b < NBUF ∧ (c.buf b).busy = false ∧ (¬ Hashed c b ∨ clean (c.buf b) = true)
  unused : ∀ b, ¬ Hashed c b → (c.buf b).busy = false ∧ (c.buf b).dirty = false

/-- A lookup on the one device of the cache changes nothing. -/
theorem CacheInv.lookedUp_eq {dev : Nat} {c : Bcache α} (h : CacheInv dev c) (blockno : Nat) :
    lookedUp c dev blockno = c := by
  unfold lookedUp afterScan
  congr 1
  funext b
  split
  · rename_i hb
    have hdev := (h.slot _ b (scanned_subset b hb)).2.1
    rw [← hdev]
  · rfl

/-- A lookup finds the block if it is cached. -/
theorem CacheInv.found_none {dev : Nat} {c : Bcache α} (h : CacheInv dev c) (hdev : dev ≠ 0)
    {blockno : Nat} (hf : found c dev blockno = none) :
    ∀ b, Hashed c b → (c.buf b).blockno ≠ blockno := by
  rintro b ⟨k, hk⟩ heq
  have hslot := (h.slot k b hk).1
  rw [heq] at hslot
  rw [← hslot] at hk
  exact firstMatch_none hdev hf b hk heq

theorem CacheInv.found_some {dev : Nat} {c : Bcache α} {blockno b : Nat}
    (hf : found c dev blockno = some b) : Hashed c b ∧ (c.buf b).blockno = blockno := by
  obtain ⟨hmem, _, _, hblk⟩ := firstMatch_spec hf
  exact ⟨⟨_, hmem⟩, hblk⟩

/-- A change to the flags of one hashed buffer that is busy before and after. -/
theorem CacheInv.setBuf {dev : Nat} {c : Bcache α} (h : CacheInv dev c) {b : Nat}
    {f : Buf α → Buf α} (hb : (c.buf b).busy = true) (hbusy : (f (c.buf b)).busy = true)
    (hdev : (f (c.buf b)).dev = (c.buf b).dev)
    (hblk : (f (c.buf b)).blockno = (c.buf b).blockno) : CacheInv dev (Bio.setBuf c b f) := by
  have hident : ∀ b', ((Bio.setBuf c b f).buf b').dev = (c.buf b').dev ∧
      ((Bio.setBuf c b f).buf b').blockno = (c.buf b').blockno ∧
      ((Bio.setBuf c b f).buf b').busy = (c.buf b').busy := by
    intro b'
    by_cases hbb : b' = b
    · subst hbb
      simp [Bio.setBuf, hdev, hblk, hb, hbusy]
    · simp [Bio.setBuf, hbb]
  have hhash : ∀ b', Hashed (Bio.setBuf c b f) b' ↔ Hashed c b' := fun _ => Iff.rfl
  refine ⟨h.freeNodup, h.chainNodup, ?_, ?_, ?_, ?_⟩
  · intro k b' hb'
    rw [(hident b').1, (hident b').2.1]
    exact h.slot k b' hb'
  · intro b₁ b₂ h₁ h₂ heq
    rw [(hident b₁).2.1, (hident b₂).2.1] at heq
    exact h.once b₁ b₂ h₁ h₂ heq
  · intro b'
    show b' ∈ c.freeList ↔ _
    rw [h.freeIff b', (hident b').2.2, hhash]
    by_cases hbb : b' = b
    · subst hbb
      simp [hb]
    · simp [Bio.setBuf, hbb]
  · intro b' hb'
    rw [hhash] at hb'
    obtain ⟨hnb, hnd⟩ := h.unused b' hb'
    have hbb : b' ≠ b := by
      rintro rfl
      rw [hb] at hnb
      cases hnb
    simp [Bio.setBuf, hbb, hnb, hnd]

/-- A busy buffer is in the hash table. -/
theorem CacheInv.hashed_of_busy {dev : Nat} {c : Bcache α} (h : CacheInv dev c) {b : Nat}
    (hb : (c.buf b).busy = true) : Hashed c b := by
  by_contra hn
  rw [(h.unused b hn).1] at hb
  cases hb

/-- `getblk` returns a cached buffer. -/
theorem CacheInv.hit {dev : Nat} {c : Bcache α} (h : CacheInv dev c) {blockno b : Nat}
    (hf : found c dev blockno = some b) :
    CacheInv dev (hitState c dev blockno b) ∧
      ((hitState c dev blockno b).buf b).blockno = blockno ∧
      ((hitState c dev blockno b).buf b).dev = dev := by
  obtain ⟨hhash, hblk⟩ := CacheInv.found_some hf
  have hstate : hitState c dev blockno b =
      { Bio.setBuf c b (fun v => { v with busy := true }) with freeList := c.freeList.erase b } := by
    unfold hitState
    rw [h.lookedUp_eq]
  have hflags : ∀ b', ((hitState c dev blockno b).buf b').dev = (c.buf b').dev ∧
      ((hitState c dev blockno b).buf b').blockno = (c.buf b').blockno := by
    intro b'
    rw [(hitState_ident c dev blockno b b').1, (hitState_ident c dev blockno b b').2, h.lookedUp_eq]
    exact ⟨rfl, rfl⟩
  obtain ⟨k, hk⟩ := hhash
  refine ⟨⟨?_, ?_, ?_, ?_, ?_, ?_⟩, (hflags b).2.trans hblk, (hflags b).1.trans (h.slot k b hk).2.1⟩
  · rw [hstate]
    exact h.freeNodup.erase b
  · rw [hstate]
    exact h.chainNodup
  · intro k' b' hb'
    rw [hstate] at hb'
    rw [(hflags b').1, (hflags b').2]
    exact h.slot k' b' hb'
  · intro b₁ b₂ h₁ h₂ heq
    rw [(hflags b₁).2, (hflags b₂).2] at heq
    rw [hstate] at h₁ h₂
    exact h.once b₁ b₂ h₁ h₂ heq
  · intro b'
    rw [hstate]
    show b' ∈ c.freeList.erase b ↔ _
    rw [h.freeNodup.mem_erase_iff, h.freeIff b']
    by_cases hbb : b' = b
    · subst hbb
      simp [Bio.setBuf]
    · simp [Bio.setBuf, hbb, Hashed]
  · intro b' hb'
    rw [hstate] at hb' ⊢
    have hbb : b' ≠ b := by
      rintro rfl
      exact hb' ⟨k, hk⟩
    simpa [Bio.setBuf, hbb] using h.unused b' hb'

/-- The chains after a buffer was recycled. -/
theorem recycle_hashTable (c : Bcache α) (b : Nat) (rest : List Nat) (dev blockno k : Nat) :
    (recycle c b rest dev blockno).hashTable k =
      if k = hashFunc dev blockno then (c.hashTable k).erase b ++ [b] else (c.hashTable k).erase b := by
  by_cases hk : k = hashFunc dev blockno
  · subst hk
    simp [recycle, putBlkInHash, Bio.setBuf]
  · simp [recycle, putBlkInHash, Bio.setBuf, hk]

theorem CacheInv.recycle {dev : Nat} {c : Bcache α} (h : CacheInv dev c) (hdev : dev ≠ 0)
    {blockno b : Nat} {rest : List Nat} (hf : found c dev blockno = none)
    (hfree : c.freeList = b :: rest) :
    CacheInv dev (Bio.recycle c b rest dev blockno) ∧
      ((Bio.recycle c b rest dev blockno).buf b).blockno = blockno ∧
      ((Bio.recycle c b rest dev blockno).buf b).dev = dev := by
  have hb : b < NBUF ∧ (c.buf b).busy = false ∧ (¬ Hashed c b ∨ clean (c.buf b) = true) :=
    (h.freeIff b).1 (by simp [hfree])
  have hnd := h.freeNodup
  rw [hfree] at hnd
  obtain ⟨hbrest, hrest⟩ := List.nodup_cons.1 hnd
  -- only the recycled buffer changes, and it is the only one that enters the hash table
  have hbuf : ∀ b', b' ≠ b → (Bio.recycle c b rest dev blockno).buf b' = c.buf b' :=
    fun b' hne => recycle_buf_of_ne c rest dev blockno hne
  have hself : (Bio.recycle c b rest dev blockno).buf b =
      { c.buf b with busy := true, dev := dev, blockno := blockno, valid := false } := by
    simp [Bio.recycle, putBlkInHash, Bio.setBuf]
  have hmem : ∀ k b', b' ≠ b →
      (b' ∈ (Bio.recycle c b rest dev blockno).hashTable k ↔ b' ∈ c.hashTable k) := by
    intro k b' hne
    rw [recycle_hashTable]
    split <;> simp [List.mem_erase_of_ne hne, hne]
  have hmemb : ∀ k, b ∈ (Bio.recycle c b rest dev blockno).hashTable k → k = hashFunc dev blockno := by
    intro k hk
    by_contra hne
    rw [recycle_hashTable, if_neg hne, (h.chainNodup k).mem_erase_iff] at hk
    exact hk.1 rfl
  have hhash : ∀ b', b' ≠ b → (Hashed (Bio.recycle c b rest dev blockno) b' ↔ Hashed c b') :=
    fun b' hne => exists_congr fun k => hmem k b' hne
  have hhashb : Hashed (Bio.recycle c b rest dev blockno) b := by
    refine ⟨hashFunc dev blockno, ?_⟩
    rw [recycle_hashTable, if_pos rfl]
    simp
  have hnew := h.found_none hdev hf
  refine ⟨⟨hrest, ?_, ?_, ?_, ?_, ?_⟩, by rw [hself], by rw [hself]⟩
  · intro k
    rw [recycle_hashTable]
    split
    · rw [List.nodup_append_comm]
      simp only [List.singleton_append, List.nodup_cons]
      exact ⟨fun hm => ((h.chainNodup k).mem_erase_iff.1 hm).1 rfl, (h.chainNodup k).erase b⟩
    · exact (h.chainNodup k).erase b
  · intro k b' hb'
    by_cases hbb : b' = b
    · subst hbb
      rw [hself]
      exact ⟨(hmemb k hb').symm, rfl, hb.1⟩
    · rw [hbuf b' hbb]
      exact h.slot k b' ((hmem k b' hbb).1 hb')
  · intro b₁ b₂ h₁ h₂ heq
    by_cases hb₁ : b₁ = b <;> by_cases hb₂ : b₂ = b
    · rw [hb₁, hb₂]
    · rw [hb₁, hself, hbuf b₂ hb₂] at heq
      exact absurd heq.symm (hnew b₂ ((hhash b₂ hb₂).1 h₂))
    · rw [hb₂, hself, hbuf b₁ hb₁] at heq
      exact absurd heq (hnew b₁ ((hhash b₁ hb₁).1 h₁))
    · rw [hbuf b₁ hb₁, hbuf b₂ hb₂] at heq
      exact h.once b₁ b₂ ((hhash b₁ hb₁).1 h₁) ((hhash b₂ hb₂).1 h₂) heq
  · intro b'
    show b' ∈ rest ↔ _
    by_cases hbb : b' = b
    · subst hbb
      simp [hself, hbrest]
    · rw [hbuf b' hbb, hhash b' hbb, ← h.freeIff b', hfree]
      simp [hbb]
  · intro b' hb'
    have hbb : b' ≠ b := by
      rintro rfl
      exact hb' hhashb
    rw [hbuf b' hbb]
    exact h.unused b' (fun hh => hb' ((hhash b' hbb).2 hh))

/-- `brelse` of a busy buffer. -/
theorem CacheInv.brelse {dev : Nat} {c : Bcache α} (h : CacheInv dev c) {b : Nat}
    (hb : (c.buf b).busy = true) : CacheInv dev (Bio.brelse c b) := by
  have hhash := h.hashed_of_busy hb
  obtain ⟨k, hk⟩ := hhash
  have hlt := (h.slot k b hk).2.2
  have hnot : b ∉ c.freeList := by
    rw [h.freeIff b, hb]
    simp
  have hident : ∀ b', ((Bio.brelse c b).buf b').dev = (c.buf b').dev ∧
      ((Bio.brelse c b).buf b').blockno = (c.buf b').blockno ∧
      clean ((Bio.brelse c b).buf b') = clean (c.buf b') ∧
      ((Bio.brelse c b).buf b').dirty = (c.buf b').dirty := by
    intro b'
    rw [brelse_eq]
    by_cases hbb : b' = b
    · subst hbb
      simp [Bio.setBuf, clean]
    · simp [Bio.setBuf, hbb]
  have htab : (Bio.brelse c b).hashTable = c.hashTable := by rw [brelse_eq]; rfl
  have hH : ∀ b', Hashed (Bio.brelse c b) b' ↔ Hashed c b' := by
    intro b'
    unfold Hashed
    rw [htab]
  have hfl : (Bio.brelse c b).freeList =
      if clean (c.buf b) then c.freeList ++ [b] else c.freeList := by rw [brelse_eq]
  refine ⟨?_, ?_, ?_, ?_, ?_, ?_⟩
  · rw [hfl]
    split
    · rw [List.nodup_append_comm]
      simpa using ⟨hnot, h.freeNodup⟩
    · exact h.freeNodup
  · rw [htab]
    exact h.chainNodup
  · intro k' b' hb'
    rw [htab] at hb'
    rw [(hident b').1, (hident b').2.1]
    exact h.slot k' b' hb'
  · intro b₁ b₂ h₁ h₂ heq
    rw [(hident b₁).2.1, (hident b₂).2.1] at heq
    exact h.once b₁ b₂ ((hH b₁).1 h₁) ((hH b₂).1 h₂) heq
  · intro b'
    rw [hH, (hident b').2.2.1]
    by_cases hbb : b' = b
    · subst hbb
      rw [brelse_busy_same, hfl]
      have hh : Hashed c b' := ⟨k, hk⟩
      split
      · rename_i hc
        simp [hc, hlt]
      · rename_i hc
        simp [hc, hnot, hh]
    · rw [brelse_busy_of_ne c hbb, hfl, ← h.freeIff b']
      split <;> simp [hbb]
  · intro b' hb'
    rw [hH] at hb'
    have hbb : b' ≠ b := by
      rintro rfl
      exact hb' ⟨k, hk⟩
    rw [brelse_busy_of_ne c hbb, (hident b').2.2.2]
    exact h.unused b' hb'

/-! ## §4 Holders and disk requests -/

/-- The cache is in order, busy buffers are those that a process holds, and a queued buffer belongs
    to a process that waits for it. -/
structure SysInv (dev : Nat) (s : Sys α) : Prop where
  cache : CacheInv dev s.cache
  busyIff : ∀ b, (s.cache.buf b).busy = true ↔ ∃ p, b ∈ s.holds p
  holdNodup : ∀ p, (s.holds p).Nodup
  holder : ∀ p q b, b ∈ s.holds p → b ∈ s.holds q → p = q
  bread : ∀ p b, s.pc p = .bread b → b ∈ s.holds p
  io : ∀ p b, s.pc p = .io b → b ∈ s.holds p
  queued : ∀ b ∈ s.ideQueue, ∃ p, s.pc p = .io b
  queueNodup : s.ideQueue.Nodup
  unfinished : ∀ b ∈ s.ideQueue, clean (s.cache.buf b) = false
  device : ∀ p d n r, (s.pc p = .getblk d n r ∨ s.pc p = .onFree d n r ∨
    ∃ b, s.pc p = .onBuf b d n r) → d = dev

theorem bootSys_inv (dev : Nat) (zero : α) (slave : Bool) : SysInv dev (bootSys zero slave) := by
  have hhash : ∀ b, ¬ Hashed (bufferInit zero) b := by
    rintro b ⟨k, hk⟩
    cases hk
  refine ⟨⟨?_, fun _ => List.nodup_nil, ?_, ?_, ?_, ?_⟩, ?_, fun _ => List.nodup_nil, ?_, ?_, ?_, ?_,
    List.nodup_nil, ?_, ?_⟩
  · exact (List.nodup_reverse).2 List.nodup_range
  · intro k b hb
    cases hb
  · exact fun b b' h => absurd h (hhash b)
  · intro b
    have := hhash b
    simp [bootSys, bufferInit] at this ⊢
    exact fun _ => .inl this
  · exact fun b _ => ⟨rfl, rfl⟩
  · intro b
    simp [bootSys, bufferInit]
  · intro p q b hb
    cases hb
  · intro p b hp
    cases hp
  · intro p b hp
    cases hp
  · intro b hb
    cases hb
  · intro b hb
    cases hb
  · rintro p d n r (hp | hp | ⟨b, hp⟩) <;> cases hp

section SysSteps

variable {dev : Nat} {s : Sys α}

/-- A process that waits for the disk is not outside. -/
theorem SysInv.not_queued (h : SysInv dev s) {p b : Nat} (hb : b ∈ s.holds p)
    (hp : s.pc p ≠ .io b) : b ∉ s.ideQueue := by
  intro hq
  obtain ⟨q, hq'⟩ := h.queued b hq
  obtain rfl := h.holder p q b hb (h.io q b hq')
  exact hp hq'

/-- One process moves on, and the queue may change with it. -/
theorem SysInv.move (h : SysInv dev s) {s' : Sys α} {p : Nat} (hcache : s'.cache = s.cache)
    (hholds : s'.holds = s.holds) (hother : ∀ q, q ≠ p → s'.pc q = s.pc q)
    (hbread : ∀ b, s'.pc p = .bread b → b ∈ s.holds p)
    (hio : ∀ b, s'.pc p = .io b → b ∈ s.holds p)
    (hdev : ∀ d n r, (s'.pc p = .getblk d n r ∨ s'.pc p = .onFree d n r ∨
      ∃ b, s'.pc p = .onBuf b d n r) → d = dev)
    (hleft : ∀ b ∈ s'.ideQueue, s.pc p = .io b → s'.pc p = .io b)
    (hqueue : ∀ b ∈ s'.ideQueue, b ∈ s.ideQueue ∨ s'.pc p = .io b)
    (hnodup : s'.ideQueue.Nodup) (hunf : ∀ b ∈ s'.ideQueue, clean (s.cache.buf b) = false) :
    SysInv dev s' := by
  have hcases : ∀ q c, s'.pc q = c → (q = p ∧ s'.pc p = c) ∨ s.pc q = c := by
    intro q c hq
    by_cases hqp : q = p
    · exact .inl ⟨hqp, hqp ▸ hq⟩
    · exact .inr ((hother q hqp).symm.trans hq)
  constructor
  · rw [hcache]
    exact h.cache
  · rw [hcache, hholds]
    exact h.busyIff
  · rw [hholds]
    exact h.holdNodup
  · rw [hholds]
    exact h.holder
  · intro q b hq
    rw [hholds]
    rcases hcases q _ hq with ⟨rfl, hp⟩ | hold
    · exact hbread b hp
    · exact h.bread q b hold
  · intro q b hq
    rw [hholds]
    rcases hcases q _ hq with ⟨rfl, hp⟩ | hold
    · exact hio b hp
    · exact h.io q b hold
  · intro b hb
    rcases hqueue b hb with hold | hnew
    · obtain ⟨q, hq⟩ := h.queued b hold
      by_cases hqp : q = p
      · subst hqp
        exact ⟨q, hleft b hb hq⟩
      · exact ⟨q, (hother q hqp).trans hq⟩
    · exact ⟨p, hnew⟩
  · exact hnodup
  · rw [hcache]
    exact hunf
  · intro q d n r hq
    by_cases hqp : q = p
    · subst hqp
      exact hdev d n r hq
    · rw [hother q hqp] at hq
      exact h.device q d n r hq

/-- A process is moved to a place where it does not wait for the disk. -/
theorem SysInv.setPc (h : SysInv dev s) {p : Nat} {c : Pc}
    (hnot : ∀ b, s.pc p = .io b → clean (s.cache.buf b) = true)
    (hio : ∀ b, c ≠ .io b) (hbread : ∀ b, c = .bread b → b ∈ s.holds p)
    (hdev : ∀ d n r, (c = .getblk d n r ∨ c = .onFree d n r ∨ ∃ b, c = .onBuf b d n r) → d = dev) :
    SysInv dev (Bio.setPc s p c) := by
  have hc := setPc_same s p c
  refine h.move rfl rfl (fun q hq => setPc_other s _ hq) (fun b hb => hbread b (hc.symm.trans hb))
    (fun b hb => absurd (hc.symm.trans hb) (hio b)) ?_ ?_ (fun _ hb => .inl hb) h.queueNodup
    h.unfinished
  · rw [hc]
    exact hdev
  · intro b hb hp
    have := h.unfinished b hb
    rw [hnot b hp] at this
    cases this

/-- A held buffer that is not queued gets other flags or data. -/
theorem SysInv.setCache (h : SysInv dev s) {b : Nat} {f : Buf α → Buf α}
    (hb : (s.cache.buf b).busy = true) (hbusy : (f (s.cache.buf b)).busy = true)
    (hdev : (f (s.cache.buf b)).dev = (s.cache.buf b).dev)
    (hblk : (f (s.cache.buf b)).blockno = (s.cache.buf b).blockno)
    (hq : b ∈ s.ideQueue → clean (f (s.cache.buf b)) = false) :
    SysInv dev (Bio.setCache s (Bio.setBuf s.cache b f)) := by
  refine { h with cache := h.cache.setBuf hb hbusy hdev hblk, busyIff := ?_, unfinished := ?_ }
  · intro b'
    by_cases hbb : b' = b
    · subst hbb
      have := h.busyIff b'
      simp only [Bio.setCache, Bio.setBuf, Function.update_self, hbusy, true_iff]
      exact this.1 hb
    · simpa [Bio.setCache, Bio.setBuf, hbb] using h.busyIff b'
  · intro b' hb'
    by_cases hbb : b' = b
    · subst hbb
      simpa [Bio.setCache, Bio.setBuf] using hq hb'
    · simpa [Bio.setCache, Bio.setBuf, hbb] using h.unfinished b' hb'

/-- A submission to the disk by the holder of the buffer. -/
theorem SysInv.submit (h : SysInv dev s) {p b : Nat} (hb : b ∈ s.holds p)
    (hp : ∀ b', s.pc p ≠ .io b') : SysInv dev (Bio.submit s p b) := by
  obtain ⟨hcache, hholds, _, hother, hres⟩ := submit_spec s p b
  rcases hres with ⟨hpc, hqueue⟩ | ⟨hpc, hqueue, hclean⟩
  · -- the buffer is clean already, or there is no such disk
    refine h.move hcache hholds hother ?_ ?_ ?_ (fun b' _ hio => absurd hio (hp b')) ?_ ?_ ?_
    · simp [hpc]
    · simp [hpc]
    · simp [hpc]
    · rw [hqueue]
      exact fun _ hb' => .inl hb'
    · rw [hqueue]
      exact h.queueNodup
    · rw [hqueue]
      exact h.unfinished
  · have hnot : b ∉ s.ideQueue := h.not_queued hb (hp b)
    refine h.move hcache hholds hother ?_ ?_ ?_ (fun b' _ hio => absurd hio (hp b')) ?_ ?_ ?_
    · simp [hpc]
    · intro b' hb'
      obtain rfl := Pc.io.inj (hpc.symm.trans hb')
      exact hb
    · simp [hpc]
    · intro b' hb'
      rcases List.mem_cons.1 (hqueue.mem_iff.1 hb') with rfl | hb'
      · exact .inr hpc
      · exact .inl hb'
    · rw [hqueue.nodup_iff]
      exact List.nodup_cons.2 ⟨hnot, h.queueNodup⟩
    · intro b' hb'
      rcases List.mem_cons.1 (hqueue.mem_iff.1 hb') with rfl | hb'
      · exact hclean
      · exact h.unfinished b' hb'

/-- A process in `getblk` gets a buffer that was not busy. -/
theorem SysInv.takeBuf (h : SysInv dev s) {p b d n : Nat} {read : Bool} {c : Bcache α}
    (hp : s.pc p = .getblk d n read) (hc : CacheInv dev c) (hb : (s.cache.buf b).busy = false)
    (hbusy : (c.buf b).busy = true) (hsame : ∀ b', b' ≠ b → c.buf b' = s.cache.buf b') :
    SysInv dev (Bio.takeBuf (Bio.setCache s c) p b read) := by
  obtain ⟨hcache, hqueue, hholds, hpc, hother⟩ := takeBuf_spec (Bio.setCache s c) p b read
  have hfree : ∀ q, b ∉ s.holds q := by
    intro q hq
    rw [(h.busyIff b).2 ⟨q, hq⟩] at hb
    cases hb
  have hnq : ∀ b' ∈ s.ideQueue, b' ≠ b := by
    rintro b' hb' rfl
    obtain ⟨q, hq⟩ := h.queued b' hb'
    exact hfree q (h.io q b' hq)
  have hmem : ∀ q b', b' ∈ (Bio.takeBuf (Bio.setCache s c) p b read).holds q ↔
      (q = p ∧ b' = b) ∨ b' ∈ s.holds q := by
    intro q b'
    rw [hholds]
    by_cases hqp : q = p
    · subst hqp
      simp [Bio.setCache]
    · simp [Bio.setCache, hqp]
  constructor
  · rw [hcache]
    exact hc
  · intro b'
    rw [hcache]
    by_cases hbb : b' = b
    · subst hbb
      exact ⟨fun _ => ⟨p, (hmem p b').2 (.inl ⟨rfl, rfl⟩)⟩, fun _ => hbusy⟩
    · show (c.buf b').busy = true ↔ _
      rw [hsame b' hbb, h.busyIff b']
      simp [hmem, hbb]
  · intro q
    rw [hholds]
    by_cases hqp : q = p
    · subst hqp
      rw [Function.update_self]
      exact List.nodup_cons.2 ⟨hfree q, h.holdNodup q⟩
    · rw [Function.update_of_ne hqp]
      exact h.holdNodup q
  · intro q q' b' hq hq'
    rcases (hmem q b').1 hq with ⟨hqp, hb'⟩ | hold <;>
      rcases (hmem q' b').1 hq' with ⟨hqp', hb''⟩ | hold'
    · rw [hqp, hqp']
    · exact absurd (hb' ▸ hold') (hfree q')
    · exact absurd (hb'' ▸ hold) (hfree q)
    · exact h.holder q q' b' hold hold'
  · intro q b' hq
    rw [hmem]
    by_cases hqp : q = p
    · subst hqp
      rw [hpc] at hq
      cases read with
      | true => exact .inl ⟨rfl, (Pc.bread.inj hq).symm⟩
      | false => cases hq
    · rw [hother q hqp] at hq
      exact .inr (h.bread q b' hq)
  · intro q b' hq
    rw [hmem]
    by_cases hqp : q = p
    · subst hqp
      rw [hpc] at hq
      cases read <;> cases hq
    · rw [hother q hqp] at hq
      exact .inr (h.io q b' hq)
  · intro b' hb'
    rw [hqueue] at hb'
    obtain ⟨q, hq⟩ := h.queued b' hb'
    have hqp : q ≠ p := by
      rintro rfl
      rw [hp] at hq
      cases hq
    exact ⟨q, (hother q hqp).trans hq⟩
  · rw [hqueue]
    exact h.queueNodup
  · intro b' hb'
    rw [hqueue] at hb'
    rw [hcache]
    show clean (c.buf b') = false
    rw [hsame b' (hnq b' hb')]
    exact h.unfinished b' hb'
  · intro q d' n' r' hq
    by_cases hqp : q = p
    · subst hqp
      rw [hpc] at hq
      cases read <;> simp at hq
    · rw [hother q hqp] at hq
      exact h.device q d' n' r' hq

/-- A round of `getblk`; if the process gets a buffer, it is one for the block it asked for. -/
theorem SysInv.round (h : SysInv dev s) (hdev : dev ≠ 0) {p n : Nat} {read : Bool}
    (hp : s.pc p = .getblk dev n read) :
    SysInv dev (Bio.round s p dev n read) ∧
      ∀ b ∈ (Bio.round s p dev n read).holds p, b ∉ s.holds p →
        ((Bio.round s p dev n read).cache.buf b).blockno = n ∧
        ((Bio.round s p dev n read).cache.buf b).dev = dev := by
  have hnot : ∀ b, s.pc p = .io b → clean (s.cache.buf b) = true := by
    intro b hb
    rw [hp] at hb
    cases hb
  have hsleep : ∀ c, (∀ b, c ≠ Pc.io b) → (∀ b, c ≠ Pc.bread b) →
      (∀ d n r, (c = .getblk d n r ∨ c = .onFree d n r ∨ ∃ b, c = .onBuf b d n r) → d = dev) →
      SysInv dev (Bio.setPc (Bio.setCache s (lookedUp s.cache dev n)) p c) := by
    intro c hio hbread hd
    rw [h.cache.lookedUp_eq]
    exact h.setPc hnot hio (fun b hb => absurd hb (hbread b)) hd
  unfold Bio.round
  rcases getblk_cases s.cache dev n with ⟨b, _, _, heq⟩ | ⟨b, hf, hb, heq⟩ | ⟨_, _, heq⟩ |
    ⟨b, rest, hf, hl, heq⟩
  · rw [heq]
    refine ⟨hsleep _ (by simp) (by simp) (by simp), fun b' hb' hn => absurd hb' hn⟩
  · rw [heq]
    obtain ⟨hc, hblk, hd⟩ := h.cache.hit hf
    refine ⟨h.takeBuf hp hc hb (by simp [hitState, Bio.setBuf]) ?_, ?_⟩
    · intro b' hbb
      simp [hitState, Bio.setBuf, hbb, h.cache.lookedUp_eq]
    · intro b' hb' hn
      obtain rfl : b' = b := by simpa [Bio.takeBuf, Bio.setCache, Bio.setPc, hn] using hb'
      exact ⟨hblk, hd⟩
  · rw [heq]
    refine ⟨hsleep _ (by simp) (by simp) (by simp), fun b' hb' hn => absurd hb' hn⟩
  · rw [heq, h.cache.lookedUp_eq]
    obtain ⟨hc, hblk, hd⟩ := h.cache.recycle hdev hf hl
    have hb : (s.cache.buf b).busy = false := ((h.cache.freeIff b).1 (by simp [hl])).2.1
    refine ⟨h.takeBuf hp hc hb ?_ fun b' hbb => recycle_buf_of_ne _ _ _ _ hbb, ?_⟩
    · simp [Bio.recycle, putBlkInHash, Bio.setBuf]
    · intro b' hb' hn
      obtain rfl : b' = b := by simpa [Bio.takeBuf, Bio.setCache, Bio.setPc, hn] using hb'
      exact ⟨hblk, hd⟩

/-- `wakeup` moves a process to the loop of `getblk`, or leaves it where it is. -/
theorem wakeup_eq {b : Nat} {c c' : Pc} (h : wakeup b c = c') (hc : ∀ d n r, c' ≠ .getblk d n r) :
    c = c' := by
  cases c with
  | onBuf b' d n r =>
    simp only [wakeup] at h
    split at h
    · exact absurd h.symm (hc d n r)
    · exact h
  | onFree d n r => exact absurd h.symm (hc d n r)
  | user | getblk | bread | io => exact h

theorem wakeup_sleeping {b d n : Nat} {r : Bool} {c : Pc}
    (h : wakeup b c = .getblk d n r ∨ wakeup b c = .onFree d n r ∨
      ∃ b', wakeup b c = .onBuf b' d n r) :
    c = .getblk d n r ∨ c = .onFree d n r ∨ ∃ b', c = .onBuf b' d n r := by
  cases c with
  | onBuf b' d' n' r' =>
    simp only [wakeup] at h
    split at h <;> simpa using h
  | onFree d' n' r' => simpa [wakeup] using h
  | getblk d' n' r' => simpa [wakeup] using h
  | user | bread | io => simp [wakeup] at h

/-- `brelse` by the holder. -/
theorem SysInv.release (h : SysInv dev s) {p b : Nat} (hb : b ∈ s.holds p)
    (hp : s.pc p = .user) : SysInv dev (Bio.release s p b) := by
  have hbusy : (s.cache.buf b).busy = true := (h.busyIff b).2 ⟨p, hb⟩
  have hnq : b ∉ s.ideQueue := h.not_queued hb (by simp [hp])
  have hcache : (Bio.release s p b).cache = Bio.brelse s.cache b := by
    unfold Bio.release
    split <;> rfl
  have hholds : (Bio.release s p b).holds = Function.update s.holds p ((s.holds p).erase b) := by
    unfold Bio.release
    split <;> rfl
  have hqueue : (Bio.release s p b).ideQueue = s.ideQueue := by
    unfold Bio.release
    split <;> rfl
  -- awakened processes go on in `getblk`; the others stay where they are
  have hpc : ∀ q, (Bio.release s p b).pc q = s.pc q ∨
      (Bio.release s p b).pc q = wakeup b (s.pc q) := by
    intro q
    unfold Bio.release
    split
    · exact .inr rfl
    · exact .inl rfl
  have hwake : ∀ q c, (Bio.release s p b).pc q = c → (∀ d n r, c ≠ .getblk d n r) → s.pc q = c := by
    intro q c hq hc
    rcases hpc q with hold | hnew
    · exact hold.symm.trans hq
    · exact wakeup_eq (hnew.symm.trans hq) hc
  have hmem : ∀ q b', b' ∈ (Bio.release s p b).holds q ↔ b' ∈ s.holds q ∧ ¬ (q = p ∧ b' = b) := by
    intro q b'
    rw [hholds]
    by_cases hqp : q = p
    · subst hqp
      rw [Function.update_self, (h.holdNodup q).mem_erase_iff]
      simp [and_comm]
    · simp [hqp]
  have hkeep : ∀ q b', b' ∈ s.holds q → s.pc q ≠ .user → b' ∈ (Bio.release s p b).holds q := by
    intro q b' hq hpc'
    refine (hmem q b').2 ⟨hq, ?_⟩
    rintro ⟨rfl, -⟩
    exact hpc' hp
  have hsame : ∀ b', b' ≠ b → (Bio.brelse s.cache b).buf b' = s.cache.buf b' := by
    intro b' hne
    simp [brelse_eq, Bio.setBuf, hne]
  constructor
  · rw [hcache]
    exact h.cache.brelse hbusy
  · intro b'
    rw [hcache]
    by_cases hbb : b' = b
    · subst hbb
      rw [brelse_busy_same]
      simp only [Bool.false_eq_true, false_iff, not_exists]
      intro q hq
      obtain ⟨hold, hne⟩ := (hmem q b').1 hq
      exact hne ⟨h.holder q p b' hold hb, rfl⟩
    · rw [hsame b' hbb, h.busyIff b']
      simp [hmem, hbb]
  · intro q
    rw [hholds]
    by_cases hqp : q = p
    · subst hqp
      rw [Function.update_self]
      exact (h.holdNodup q).erase b
    · rw [Function.update_of_ne hqp]
      exact h.holdNodup q
  · intro q q' b' hq hq'
    exact h.holder q q' b' ((hmem q b').1 hq).1 ((hmem q' b').1 hq').1
  · intro q b' hq
    have hold := hwake q _ hq (by simp)
    exact hkeep q b' (h.bread q b' hold) (by simp [hold])
  · intro q b' hq
    have hold := hwake q _ hq (by simp)
    exact hkeep q b' (h.io q b' hold) (by simp [hold])
  · intro b' hb'
    rw [hqueue] at hb'
    obtain ⟨q, hq⟩ := h.queued b' hb'
    refine ⟨q, ?_⟩
    rcases hpc q with hold | hnew
    · rw [hold, hq]
    · rw [hnew, hq]
      rfl
  · rw [hqueue]
    exact h.queueNodup
  · intro b' hb'
    rw [hqueue] at hb'
    have hbb : b' ≠ b := by
      rintro rfl
      exact hnq hb'
    rw [hcache, hsame b' hbb]
    exact h.unfinished b' hb'
  · intro q d n r hq
    rcases hpc q with hold | hnew
    · rw [hold] at hq
      exact h.device q d n r hq
    · rw [hnew] at hq
      exact h.device q d n r (wakeup_sleeping hq)

end SysSteps

/-! ## §5 Runs on one device -/

/-- A call asks for a block of device `dev`. -/
def OnDevice (dev : Nat) : Op α → Prop
  | .call _ d _ _ => d = dev
  | _ => True

/-- The buffers on the chains of the hash table. -/
def hashedBufs (c : Bcache α) : List Nat := (List.range HASHSLOT).flatMap c.hashTable

/-- What holds of the cache: each block is in the hash table at most once, a busy buffer has one
    holder, and the free list holds the buffers that are not busy and either unused or clean. -/
structure CacheOk (s : Sys α) : Prop where
  once : ((hashedBufs s.cache).map fun b => (s.cache.buf b).blockno).Nodup
  held : ∀ b, (s.cache.buf b).busy = true ↔ ∃ p, b ∈ s.holds p
  holder : ∀ p q b, b ∈ s.holds p → b ∈ s.holds q → p = q
  free : ∀ b, b ∈ s.cache.freeList ↔ b < NBUF ∧ (s.cache.buf b).busy = false ∧
    (b ∉ hashedBufs s.cache ∨ (s.cache.buf b).valid = true ∧ (s.cache.buf b).dirty = false)

/-- What a step does: a dirty buffer keeps its block until the disk has written it, and a process
    that gets a buffer from `getblk` gets one for the block it asked for. -/
structure StepOk (s : Sys α) (o : Op α) (s' : Sys α) : Prop where
  ok : CacheOk s'
  dirty : ∀ b, (s.cache.buf b).dirty = true →
    (s'.cache.buf b).dev = (s.cache.buf b).dev ∧
    (s'.cache.buf b).blockno = (s.cache.buf b).blockno ∧
    ((s'.cache.buf b).dirty = true ∨ ∃ v, o = .intr v ∧ s.ideQueue.head? = some b)
  returned : ∀ p d n r, o = .round p → s.pc p = .getblk d n r →
    ∀ b ∈ s'.holds p, b ∉ s.holds p →
      (s'.cache.buf b).blockno = n ∧ (s'.cache.buf b).dev = d

/-- An interrupt completes the first request. -/
theorem SysInv.intr {dev : Nat} {s : Sys α} (h : SysInv dev s) {b : Nat} {rest : List Nat}
    (hq : s.ideQueue = b :: rest) (v : α) : SysInv dev (next s (.intr v)) := by
  have hmem : b ∈ s.ideQueue := by simp [hq]
  obtain ⟨q, hpq⟩ := h.queued b hmem
  have hbusy : (s.cache.buf b).busy = true := (h.busyIff b).2 ⟨q, h.io q b hpq⟩
  have hnd := h.queueNodup
  rw [hq] at hnd
  obtain ⟨hnot, hrest⟩ := List.nodup_cons.1 hnd
  have hsub : ∀ b' ∈ rest, b' ∈ s.ideQueue := by
    intro b' hb'
    simp [hq, hb']
  -- first the queue gets shorter, then the buffer is completed
  have hinv₁ : SysInv dev { s with ideQueue := rest } :=
    { h with
      queued := fun b' hb' => h.queued b' (hsub b' hb')
      queueNodup := hrest
      unfinished := fun b' hb' => h.unfinished b' (hsub b' hb') }
  simp only [next, hq]
  exact hinv₁.setCache hbusy hbusy rfl rfl (fun hb => absurd hb hnot)

instance decidableOnDevice (dev : Nat) : ∀ o : Op α, Decidable (OnDevice dev o)
  | .call _ d _ _ => inferInstanceAs (Decidable (d = dev))
  | .brelse _ _ | .round _ | .check _ | .logWrite _ _ _ | .bwrite _ _ | .intr _ | .resume _ =>
    inferInstanceAs (Decidable True)

end WeiOS.Bio
