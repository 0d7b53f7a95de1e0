import Mathlib
import WeiOS.Process.SchedRuns

/-!
# Time Slices

A tick is charged to the running process by `p->timeslice_left -= 1` on an unsigned field, and the
process gives the processor up when nothing is left. The field is also halved by `dup_proc_struct`, and
renewed by `scheduler` on the way to the exhausted queue; all else leaves it alone.

The sleeping average and the jiffies feed the bonus of a priority. In the runs below they may change to
anything between two steps.

## Main results
- `step_slices`: every step leaves at least one tick to each process that can still run.
- `slices_of_run`: no charge wraps around, priorities stay in range, and the exhausted queue gets
  processes with a new time slice, after every run from boot.
-/

namespace WeiOS.Sched

open WeiOS.Lib

/-! ## §1 What leaves the time slices alone -/

/-- From `s` to `t` no time slice changes, and no `preempted` flag is cleared. -/
structure Kept (s t : Sys) : Prop where
  left : ∀ y, (t.procs y).timesliceLeft = (s.procs y).timesliceLeft
  preempted : ∀ y, (s.procs y).preempted = true → (t.procs y).preempted = true

section
variable {r s s' t : Sys} {p d y : Nat} {h : Head} {q : QueueId} {c : Cont} {o : Op}

theorem Kept.refl (s : Sys) : Kept s s := ⟨fun _ => rfl, fun _ hy => hy⟩

/-- Nothing is written to a descriptor. -/
theorem Kept.congr (hk : Kept r s) (hprocs : t.procs = s.procs) : Kept r t := by
  constructor
  · intro y
    rw [hprocs]
    exact hk.left y
  · intro y hy
    rw [hprocs]
    exact hk.preempted y hy

/-- Other fields of one descriptor are written. -/
theorem Kept.setProc (hk : Kept r s) {f : Proc → Proc}
    (hleft : (f (s.procs p)).timesliceLeft = (s.procs p).timesliceLeft)
    (hflag : (s.procs p).preempted = true → (f (s.procs p)).preempted = true) :
    Kept r (s.setProc p f) := by
  constructor
  · intro y
    rw [← hk.left y]
    by_cases hy : y = p
    · subst hy
      simpa [Sys.setProc] using hleft
    · simp [Sys.setProc, hy]
  · intro y hflag'
    have hold := hk.preempted y hflag'
    by_cases hy : y = p
    · subst hy
      simpa [Sys.setProc] using hflag hold
    · simpa [Sys.setProc, hy] using hold

theorem Kept.setQueue (hk : Kept r s) (f : ProcQueue → ProcQueue) : Kept r (s.setQueue q f) :=
  hk.congr rfl

theorem Kept.goto (hk : Kept r s) : Kept r (s.goto p c) := hk.congr rfl

theorem Kept.listAdd (hk : Kept r s) (hok : Sched.listAdd s p h = .ok s') : Kept r s' := by
  obtain ⟨links, _, hret⟩ := bind_eq_ok.1 hok
  obtain rfl := Except.ok.inj hret
  exact hk.congr rfl

theorem Kept.listAddTail (hk : Kept r s) (hok : Sched.listAddTail s p h = .ok s') : Kept r s' := by
  obtain ⟨links, _, hret⟩ := bind_eq_ok.1 hok
  obtain rfl := Except.ok.inj hret
  exact hk.congr rfl

theorem Kept.listDel (hk : Kept r s) (hok : Sched.listDel s p = .ok s') : Kept r s' := by
  obtain ⟨links, _, hret⟩ := bind_eq_ok.1 hok
  obtain rfl := Except.ok.inj hret
  exact hk.congr rfl

/-- Of the descriptor, `add_proc_to_queue` writes `proc_queue` only. -/
theorem addProcToQueue_procs (hok : addProcToQueue s q p = .ok s') :
    s'.procs = Function.update s.procs p { s.procs p with procQueue := some q } := by
  obtain ⟨t, hadd, hret⟩ := bind_eq_ok.1 hok
  obtain ⟨links, _, hlinks⟩ := bind_eq_ok.1 hadd
  obtain rfl := Except.ok.inj hlinks
  obtain rfl := Except.ok.inj hret
  rfl

theorem Kept.addProcToQueue (hk : Kept r s) (hok : Sched.addProcToQueue s q p = .ok s') :
    Kept r s' :=
  Kept.congr (s := s.setProc p fun P => { P with procQueue := some q })
    (hk.setProc rfl fun hf => hf) (addProcToQueue_procs hok)

theorem Kept.delProcFronQueue (hk : Kept r s) (hok : Sched.delProcFronQueue s p = .ok s') :
    Kept r s' := by
  obtain ⟨q, _, hok⟩ := bind_eq_ok.1 hok
  obtain ⟨t, hdel, hret⟩ := bind_eq_ok.1 hok
  obtain rfl := Except.ok.inj hret
  exact ((hk.listDel hdel).setQueue _).setProc (f := fun P => { P with procQueue := none }) rfl
    fun hf => hf

theorem Kept.sched (hk : Kept r s) (hok : Sched.sched s p = .ok s') : Kept r s' := by
  unfold Sched.sched at hok
  split at hok
  · cases hok
  · obtain rfl := Except.ok.inj hok
    exact hk.congr rfl

theorem Kept.yield (hk : Kept r s) (hok : Sched.yield s p = .ok s') : Kept r s' :=
  (hk.setProc rfl fun hf => hf).sched hok

theorem Kept.sleep (hk : Kept r s) (hok : Sched.sleep s p h c = .ok s') : Kept r s' := by
  obtain ⟨t, hadd, hsched⟩ := bind_eq_ok.1 hok
  have ht := (hk.setProc rfl fun hf => hf).listAddTail hadd
  exact ht.goto.sched hsched

theorem Kept.wakeOne (hk : Kept r s) (hok : Sched.wakeOne s p = .ok s') : Kept r s' := by
  obtain ⟨t, hdel, hadd⟩ := bind_eq_ok.1 hok
  have ht := hk.listDel hdel
  exact (((ht.setProc rfl fun hf => hf).setProc rfl fun hf => hf).setProc rfl
    fun hf => hf).addProcToQueue hadd

theorem Kept.wakeLoop {n best best' : Nat} {x : Node Head Nat} (hk : Kept r s)
    (hok : Sched.wakeLoop h n x best s = .ok (s', best')) : Kept r s' := by
  induction n generalizing x best s with
  | zero =>
    unfold Sched.wakeLoop at hok
    split at hok
    · obtain ⟨rfl, rfl⟩ := Prod.mk.inj (Except.ok.inj hok)
      exact hk
    · cases x with
      | head h' => cases hok
      | elem p => cases hok
  | succ n ih =>
    unfold Sched.wakeLoop at hok
    split at hok
    · obtain ⟨rfl, rfl⟩ := Prod.mk.inj (Except.ok.inj hok)
      exact hk
    · cases x with
      | head h' => cases hok
      | elem p =>
        obtain ⟨next, _, hok⟩ := bind_eq_ok.1 hok
        obtain ⟨t, hone, hrest⟩ := bind_eq_ok.1 hok
        exact ih (hk.wakeOne hone) hrest

/-- The flag is only ever set here. -/
theorem Kept.preempt (hk : Kept r s) (best : Nat) : Kept r (Sched.preempt s best) := by
  unfold Sched.preempt
  split
  · split
    · exact hk.setProc rfl fun _ => rfl
    · exact hk
  · exact hk

theorem Kept.wakeup1 (hk : Kept r s) (hok : Sched.wakeup1 s h = .ok s') : Kept r s' := by
  obtain ⟨x, _, hok⟩ := bind_eq_ok.1 hok
  obtain ⟨⟨t, best⟩, hloop, hret⟩ := bind_eq_ok.1 hok
  obtain rfl := Except.ok.inj hret
  exact (hk.wakeLoop hloop).preempt best

theorem Kept.kill {pid : Nat} {check : Bool} (hk : Kept r s)
    (hok : Sched.kill s p pid check = .ok s') : Kept r s' := by
  unfold Sched.kill at hok
  split at hok
  · obtain rfl := Except.ok.inj hok
    exact hk
  obtain ⟨found, _, hok⟩ := bind_eq_ok.1 hok
  cases found with
  | none =>
    obtain rfl := Except.ok.inj hok
    exact hk
  | some y =>
    have hkilled : Kept r (s.setProc y fun P => { P with killed := true }) :=
      hk.setProc rfl fun hf => hf
    dsimp only [killProc] at hok
    split at hok
    · obtain ⟨t, hdel, hadd⟩ := bind_eq_ok.1 hok
      exact ((hkilled.setProc rfl fun hf => hf).listDel hdel).addProcToQueue hadd
    · obtain rfl := Except.ok.inj hok
      exact hkilled

theorem Kept.procDescDestroy (hk : Kept r s) (hok : Sched.procDescDestroy s p = .ok s') :
    Kept r s' := by
  obtain ⟨bm, _, hadd⟩ := bind_eq_ok.1 hok
  refine Kept.listAdd (Kept.setProc ?_ rfl fun hf => hf) hadd
  exact hk.congr rfl

theorem Kept.cloneFinish {ok : Bool} (hk : Kept r s) (hok : Sched.cloneFinish s p y ok = .ok s') :
    Kept r s' := by
  unfold Sched.cloneFinish at hok
  split at hok
  · have hson : Kept r (s.setProc p fun P => { P with children := P.children ++ [y] }) :=
      hk.setProc rfl fun hf => hf
    exact hson.goto.addProcToQueue hok
  · obtain rfl := Except.ok.inj hok
    exact hk.goto

theorem Kept.wait (hk : Kept r s) (hok : Sched.wait s p = .ok s') : Kept r s' := by
  unfold Sched.wait at hok
  split at hok
  · refine Kept.procDescDestroy (Kept.goto (Kept.setProc hk ?_ ?_)) hok
    · rfl
    · exact fun hf => hf
  · refine Kept.sleep (Kept.setProc hk ?_ ?_) hok
    · rfl
    · exact fun hf => hf

theorem Kept.exit (hk : Kept r s) (hok : Sched.exit s p = .ok s') : Kept r s' := by
  unfold Sched.exit at hok
  split at hok
  · cases hok
  obtain rfl := Except.ok.inj hok
  refine Kept.goto (Kept.setProc (s := { s with
    procs := (s.procs p).children.foldl (reparent s.rootproc p) s.procs }) ?_ rfl fun hf => hf)
  -- handing the children over changes family ties only
  constructor
  · intro y
    obtain ⟨ppid, children, heq, _⟩ := reparent_foldl s.rootproc p (s.procs p).children s.procs y
    exact (congrArg Proc.timesliceLeft heq).trans (hk.left y)
  · intro y hy
    obtain ⟨ppid, children, heq, _⟩ := reparent_foldl s.rootproc p (s.procs p).children s.procs y
    exact (congrArg Proc.preempted heq).trans (hk.preempted y hy)

theorem Kept.exitFinish (hk : Kept r s) (hok : Sched.exitFinish s p = .ok s') : Kept r s' := by
  obtain ⟨f, _, hok⟩ := bind_eq_ok.1 hok
  dsimp only at hok
  split at hok
  · obtain ⟨t, hwake, hsched⟩ := bind_eq_ok.1 hok
    exact (hk.wakeup1 hwake).goto.sched hsched
  · exact hk.goto.sched hok

theorem Kept.ipcLookup {pid : Nat} (hk : Kept r s) (hok : Sched.ipcLookup s p pid = .ok s') :
    Kept r s' := by
  obtain ⟨found, _, hret⟩ := bind_eq_ok.1 hok
  cases found with
  | none =>
    obtain rfl := Except.ok.inj hret
    exact hk
  | some y =>
    obtain rfl := Except.ok.inj hret
    exact hk.goto

theorem Kept.ipcTrySend {value srcva perm : Nat} {pg : PageResults} {e : Int} (hk : Kept r s)
    (hok : Sched.ipcTrySend s p y value srcva perm pg = .ok (s', e)) : Kept r s' := by
  unfold Sched.ipcTrySend at hok
  split at hok
  · obtain ⟨rfl, rfl⟩ := Prod.mk.inj (Except.ok.inj hok)
    exact hk.goto
  split at hok
  · obtain ⟨rfl, rfl⟩ := Prod.mk.inj (Except.ok.inj hok)
    exact hk.goto
  · obtain ⟨t, hwake, hret⟩ := bind_eq_ok.1 hok
    obtain ⟨rfl, rfl⟩ := Prod.mk.inj (Except.ok.inj hret)
    exact ((hk.setProc rfl fun hf => hf).wakeup1 hwake).goto

theorem Kept.swapQueues (hk : Kept r s) : Kept r (Sched.swapQueues s) := by
  unfold Sched.swapQueues
  split
  · exact hk.congr rfl
  · exact hk

theorem Kept.pick (hk : Kept r s) (hok : Sched.pick s = .ok s') : Kept r s' := by
  unfold Sched.pick at hok
  dsimp only at hok
  split at hok
  · split at hok
    · next p _ =>
      obtain ⟨t, hdel, hret⟩ := bind_eq_ok.1 hok
      obtain rfl := Except.ok.inj hret
      have hrun := (hk.delProcFronQueue hdel).setProc (p := p)
        (f := fun P => { P with status := .running }) rfl fun hf => hf
      exact hrun.congr rfl
    · cases hok
    · cases hok
  · obtain rfl := Except.ok.inj hok
    exact hk.congr rfl

/-! ## §2 What changes them -/

theorem taskTimeslice_bounds (P : Proc) :
    2 ≤ taskTimeslice P / 2 ∧ taskTimeslice P / 2 ≤ DEFAULT_TIMESLICE * 4 := by
  unfold taskTimeslice DEFAULT_TIMESLICE MIN_TIMESLICE MAX_USER_PRIO
  dsimp only
  split
  · omega
  · omega

/-- **A process goes back on a queue**: with what is left of its time slice, or, when nothing is left,
    with a new one to the exhausted queue. -/
structure Renewed (q : QueueId) (p : Nat) (s t : Sys) : Prop where
  kept : (s.procs p).timesliceLeft ≠ 0 → Kept s t
  renewed : (s.procs p).timesliceLeft = 0 → ∃ n, 1 ≤ n ∧ n ≤ DEFAULT_TIMESLICE * 4 ∧
    Kept (s.setProc p fun P => { P with timesliceLeft := n }) t ∧ (t.procs p).procQueue = some q

theorem Renewed.other (hr : Renewed q p s t) (hy : y ≠ p) :
    (t.procs y).timesliceLeft = (s.procs y).timesliceLeft := by
  by_cases hzero : (s.procs p).timesliceLeft = 0
  · obtain ⟨n, _, _, hk, _⟩ := hr.renewed hzero
    rw [hk.left y]
    simp [Sys.setProc, hy]
  · exact (hr.kept hzero).left y

theorem Renewed.self (hr : Renewed q p s t) : 1 ≤ (t.procs p).timesliceLeft ∧
    ((s.procs p).timesliceLeft ≤ DEFAULT_TIMESLICE * 4 →
      (t.procs p).timesliceLeft ≤ DEFAULT_TIMESLICE * 4) := by
  by_cases hzero : (s.procs p).timesliceLeft = 0
  · obtain ⟨n, hpos, hle, hk, _⟩ := hr.renewed hzero
    rw [hk.left p]
    simpa [Sys.setProc] using ⟨hpos, fun _ => hle⟩
  · rw [(hr.kept hzero).left p]
    exact ⟨Nat.one_le_iff_ne_zero.2 hzero, id⟩

theorem Renewed.preempted (hr : Renewed q p s t) (hflag : (s.procs y).preempted = true) :
    (t.procs y).preempted = true := by
  by_cases hzero : (s.procs p).timesliceLeft = 0
  · obtain ⟨n, _, _, hk, _⟩ := hr.renewed hzero
    apply hk.preempted y
    by_cases hy : y = p
    · subst hy
      simpa [Sys.setProc] using hflag
    · simpa [Sys.setProc, hy] using hflag
  · exact (hr.kept hzero).preempted y hflag

theorem reenter_renewed (hk : Kept r s) (hok : reenter s p = .ok t) :
    Renewed s.exhaustedQueue p r t := by
  unfold reenter at hok
  dsimp only at hok
  constructor
  · intro hleft
    rw [if_neg (by rwa [hk.left p])] at hok
    exact ((hk.setProc rfl fun hf => hf).setProc rfl fun hf => hf).addProcToQueue hok
  · intro hzero
    rw [if_pos (by rwa [hk.left p])] at hok
    -- with nothing left, priority and time slice are computed anew
    obtain ⟨hpos, hle⟩ := taskTimeslice_bounds { s.procs p with
      priority := recalculatePriority (s.procs p) }
    refine ⟨_, Nat.le_trans (by omega) hpos, hle, Kept.addProcToQueue ⟨?_, ?_⟩ hok, ?_⟩
    · intro y
      by_cases hy : y = p
      · subst hy
        simp [Sys.setProc]
      · simpa [Sys.setProc, hy] using hk.left y
    · intro y hflag
      by_cases hy : y = p
      · subst hy
        simpa [Sys.setProc] using hk.preempted y (by simpa [Sys.setProc] using hflag)
      · simpa [Sys.setProc, hy] using hk.preempted y (by simpa [Sys.setProc, hy] using hflag)
    · rw [addProcToQueue_procs hok, Function.update_self]
      rfl

theorem requeue_renewed (hok : requeue s p = .ok t) : Renewed s.exhaustedQueue p s t := by
  unfold requeue at hok
  split at hok
  · -- an interrupt has put the process on a queue, which it leaves first
    obtain ⟨u, hdel, hre⟩ := bind_eq_ok.1 hok
    have hsame : u.exhaustedQueue = s.exhaustedQueue := by
      obtain ⟨q, _, hdel⟩ := bind_eq_ok.1 hdel
      obtain ⟨v, hlist, hret⟩ := bind_eq_ok.1 hdel
      obtain ⟨links, _, hlinks⟩ := bind_eq_ok.1 hlist
      obtain rfl := Except.ok.inj hlinks
      obtain rfl := Except.ok.inj hret
      rfl
    rw [← hsame]
    exact reenter_renewed ((Kept.refl s).delProcFronQueue hdel) hre
  · exact reenter_renewed (.refl s) hok

/-- **`clone`** writes the time slices of the caller and of a descriptor `d` that was free: nothing, or
    half of what the caller had. -/
structure Forked (p d : Nat) (s s' : Sys) : Prop where
  free : (s.procs d).status = .free
  mode : s'.mode = s.mode
  status : ∀ y, y ≠ d → (s'.procs y).status = (s.procs y).status
  preempted : ∀ y, y ≠ d → (s.procs y).preempted = true → (s'.procs y).preempted = true
  other : ∀ y, y ≠ d → y ≠ p → (s'.procs y).timesliceLeft = (s.procs y).timesliceLeft
  slice : (s'.procs p).timesliceLeft = (s.procs p).timesliceLeft ∧
      (s'.procs d).timesliceLeft = 0 ∧ (s'.procs d).status = .free ∨
    (s'.procs p).timesliceLeft = max ((s.procs p).timesliceLeft / 2) 1 ∧
      (s'.procs d).timesliceLeft = max ((s.procs p).timesliceLeft / 2) 1

theorem clone_forked {xs : Head → List Nat} (hi : Inv s xs) (hp : s.mode = .process p)
    {a : AllocResults} (hok : clone s p a = .ok s') : s' = s ∨ ∃ d, Forked p d s s' := by
  rcases clone_cases hok with hsame | ⟨d, u, hget, hrest⟩
  · exact Or.inl hsame
  obtain ⟨ys, hq, hlt, -, hnew, hu, -⟩ := getProcDesc_spec hi.queued hget
  have hfree := hi.desc_free hnew
  have hpd : p ≠ d := by
    rintro rfl
    exact (hi.cur_status hp).2.1 hfree
  have hprocs : u.procs = Function.update s.procs d Proc.zero := by rw [hu]; rfl
  have hmode : u.mode = s.mode := by rw [hu]; rfl
  refine Or.inr ⟨d, ?_⟩
  -- the fork fails and gives the descriptor back, or goes on in the caller
  rcases hrest with hdestroy | rfl
  · obtain ⟨xs', _, hs', _⟩ := procDescDestroy_spec hq hlt hdestroy
    have hprocs' : s'.procs = (u.freed d).procs := by rw [hs']; rfl
    have hother : ∀ y, y ≠ d → s'.procs y = s.procs y := by
      intro y hy
      simp [hprocs', Sys.freed, Sys.setProc, hprocs, hy]
    refine ⟨hfree, ?_, ?_, ?_, ?_, Or.inl ⟨?_, ?_, ?_⟩⟩
    · rw [hs']
      exact hmode
    · exact fun y hy => by rw [hother y hy]
    · exact fun y hy hflag => by rwa [hother y hy]
    · exact fun y hy _ => by rw [hother y hy]
    · rw [hother p hpd]
    · simp [hprocs', Sys.freed, Sys.setProc, hprocs, Proc.zero]
    · simp [hprocs', Sys.freed, Sys.setProc]
  · have hother : ∀ y, y ≠ d → ∃ n, ((dupProc (initProc u d) p d).goto p (.clone d)).procs y =
        { s.procs y with timesliceLeft := n } := by
      intro y hy
      by_cases hyp : y = p
      · subst hyp
        exact ⟨max ((s.procs y).timesliceLeft / 2) 1,
          by simp [dupProc, initProc, Sys.goto, Sys.setProc, hprocs, hy]⟩
      · exact ⟨(s.procs y).timesliceLeft,
          by simp [dupProc, initProc, Sys.goto, Sys.setProc, hprocs, hy, hyp]⟩
    refine ⟨hfree, hmode, ?_, ?_, ?_, Or.inr ⟨?_, ?_⟩⟩
    · intro y hy
      obtain ⟨n, hn⟩ := hother y hy
      rw [hn]
    · intro y hy hflag
      obtain ⟨n, hn⟩ := hother y hy
      rwa [hn]
    · intro y hy hyp
      simp [dupProc, initProc, Sys.goto, Sys.setProc, hprocs, hy, hyp]
    · simp [dupProc, initProc, Sys.goto, Sys.setProc, hprocs, hpd]
    · simp [dupProc, initProc, Sys.goto, Sys.setProc, hprocs, hpd]

/-- What a fork leaves to process `y`: what it had, its half, or an unused descriptor. -/
theorem Forked.slice_cases (hf : Forked p d s s') (y : Nat) :
    y ≠ d ∧ (s'.procs y).timesliceLeft = (s.procs y).timesliceLeft ∨
      (s'.procs y).timesliceLeft = max ((s.procs p).timesliceLeft / 2) 1 ∨
      y = d ∧ (s'.procs y).timesliceLeft = 0 ∧ (s'.procs y).status = .free := by
  by_cases hyd : y = d
  · subst hyd
    rcases hf.slice with ⟨-, hzero, hst⟩ | ⟨-, hhalf⟩
    · exact Or.inr (Or.inr ⟨rfl, hzero, hst⟩)
    · exact Or.inr (Or.inl hhalf)
  · by_cases hyp : y = p
    · subst hyp
      rcases hf.slice with ⟨hsame, -⟩ | ⟨hhalf, -⟩
      · exact Or.inl ⟨hyd, hsame⟩
      · exact Or.inr (Or.inl hhalf)
    · exact Or.inl ⟨hyd, hf.other y hyd hyp⟩

end

/-! ## §3 Every step -/

/-- Process `y` may still run on what is left of its time slice: it sleeps, or it runs, or it is
    runnable and not the one that the scheduler is about to put back. -/
def Abs.Live (a : Abs) (y : Nat) : Prop :=
  (a.procs y).status = .sleeping ∨ a.mode = .process y ∨
    (a.procs y).status = .runnable ∧ a.mode ≠ .scheduler (some y)

/-- Each of these has at least one tick left. -/
structure Slices (s : Sys) : Prop where
  live : ∀ y, s.abs.Live y → 1 ≤ (s.procs y).timesliceLeft
  le : ∀ y, (s.procs y).timesliceLeft ≤ DEFAULT_TIMESLICE * 4

section
variable {s s' t : Sys} {xs : Head → List Nat} {p y : Nat} {c : Cont} {o : Op} {a b : Abs}

theorem Abs.Live.of_sleeping (h : (a.procs y).status = .sleeping) : a.Live y := Or.inl h

theorem Abs.Live.of_mode (h : a.mode = .process y) : a.Live y := Or.inr (Or.inl h)

/-- A process that does not run is live if it was asleep, or if it is live now and its status is the
    same. -/
theorem Abs.Live.of_same (hm : a.mode = .process p) (hy : b.Live y) (hne : y ≠ p)
    (hmode : b.mode = .process p ∨ b.mode = .scheduler (some p))
    (hst : (b.procs y).status = (a.procs y).status ∨ (a.procs y).status = .sleeping ∨
      (b.procs y).status = .free) : a.Live y := by
  have hother : b.mode ≠ .process y := by
    intro h
    rcases hmode with hm' | hm'
    · exact hne (Mode.process.inj (h.symm.trans hm'))
    · cases h.symm.trans hm'
  rcases hst with hst | hst | hst
  · rcases hy with h | h | ⟨h, -⟩
    · exact Or.inl (hst ▸ h)
    · exact absurd h hother
    · exact Or.inr (Or.inr ⟨hst ▸ h, by rw [hm]; nofun⟩)
  · exact Or.inl hst
  · rcases hy with h | h | ⟨h, -⟩
    · cases h.symm.trans hst
    · exact absurd h hother
    · cases h.symm.trans hst

/-- **No process becomes live** but by a fork or by the scheduler. -/
theorem AStep.live (hstep : AStep a o b) (hclone : ∀ r, o ≠ .clone r) (hsched : o ≠ .schedule)
    (hy : b.Live y) : a.Live y := by
  -- nothing happens to those that do not run, and the one that runs is live
  have hkeep : ∀ {p}, a.mode = .process p →
      (b.mode = .process p ∨ b.mode = .scheduler (some p)) →
      (y ≠ p → (b.procs y).status = (a.procs y).status ∨ (a.procs y).status = .sleeping ∨
        (b.procs y).status = .free) → a.Live y := by
    intro p hm hmode hst
    by_cases hyp : y = p
    · subst hyp
      exact .of_mode hm
    · exact .of_same hm hy hyp hmode (hst hyp)
  cases hstep with
  | @wakeup c W _ hW hwakes =>
    by_cases hw : W y
    · exact .of_sleeping (hwakes.woken y hw).1
    · have hmode : b.mode = a.mode := by rw [hwakes.rest]
      unfold Abs.Live at hy ⊢
      rwa [hwakes.other y hw, hmode] at hy
  | tick => exact hy
  | tickYield hp => exact hkeep hp (Or.inr rfl) fun hne => Or.inl (by simp [hne])
  | yield hp => exact hkeep hp (Or.inr rfl) fun hne => Or.inl (by simp [hne])
  | sleep hp _ => exact hkeep hp (Or.inr rfl) fun hne => Or.inl (by simp [hne])
  | killNone => exact hy
  | kill hp _ _ => exact hkeep hp (Or.inl hp) fun _ => by grind
  | cloneNone => exact absurd rfl (hclone _)
  | cloneFail _ => exact absurd rfl (hclone _)
  | clone _ _ _ => exact absurd rfl (hclone _)
  | cloneAbort hp _ => exact hkeep hp (Or.inl hp) fun _ => Or.inl rfl
  | cloneFinish hp _ => exact hkeep hp (Or.inl hp) fun hne => Or.inl (by simp [hne])
  | reap hp _ _ => exact hkeep hp (Or.inl hp) fun hne => by grind
  | waitSleep hp _ _ => exact hkeep hp (Or.inr rfl) fun hne => Or.inl (by simp [hne])
  | @exit p hp _ _ =>
    refine hkeep hp (Or.inl hp) fun hne => Or.inl ?_
    obtain ⟨ppid, children, heq, _⟩ := a.handOver_procs p y
    rw [Abs.goto_procs, Abs.setProc_procs, if_neg hne, heq]
  | exitFinish hp _ _ _ =>
    refine hkeep hp (Or.inr rfl) fun hne => ?_
    split
    · grind
    · exact Or.inl (by simp [hne])
  | lookupNone => exact hy
  | lookup hp _ _ => exact hkeep hp (Or.inl hp) fun _ => Or.inl rfl
  | sendFail hp _ _ => exact hkeep hp (Or.inl hp) fun _ => Or.inl rfl
  | send hp _ _ _ => exact hkeep hp (Or.inl (by simpa using hp)) fun _ => by grind
  | recvBad _ _ _ => exact hy
  | recv hp _ _ => exact hkeep hp (Or.inr rfl) fun hne => Or.inl (by simp [hne])
  | recvReturn hp _ => exact hkeep hp (Or.inl hp) fun _ => Or.inl rfl
  | idle _ => exact absurd rfl hsched
  | pick _ _ => exact absurd rfl hsched

/-- The time slices are as they were. -/
theorem Slices.kept (hs : Slices s) (hk : Kept s t) (hlive : ∀ y, t.abs.Live y → s.abs.Live y) :
    Slices t := by
  constructor
  · intro y hy
    rw [hk.left y]
    exact hs.live y (hlive y hy)
  · intro y
    rw [hk.left y]
    exact hs.le y

/-- The charge does not wrap around. -/
theorem charge_eq {n : Nat} (hpos : 1 ≤ n) (hle : n ≤ DEFAULT_TIMESLICE * 4) :
    (n + (2 ^ 32 - 1)) % 2 ^ 32 = n - 1 := by
  unfold DEFAULT_TIMESLICE at hle
  omega

/-- **A tick** charges the running process, which gives the processor up with its last one. -/
theorem tick_slice (hs : Slices s) (hp : s.mode = .process p) (hok : tick s p = .ok s') :
    (s'.procs p).timesliceLeft + 1 = (s.procs p).timesliceLeft ∧
      (∀ y, y ≠ p → (s'.procs y).timesliceLeft = (s.procs y).timesliceLeft) ∧
      ((s'.procs p).timesliceLeft = 0 →
        s'.mode = .scheduler (some p) ∧ (s'.procs p).status = .runnable) := by
  have hpos := hs.live p (.of_mode hp)
  have hcharge := charge_eq hpos (hs.le p)
  unfold tick at hok
  dsimp only at hok
  split at hok
  · next hzero =>
    have hmode : s'.mode = .scheduler (some p) ∧ (s'.procs p).status = .runnable := by
      unfold yield sched at hok
      rw [if_neg (by simp [Sys.setProc])] at hok
      obtain rfl := Except.ok.inj hok
      exact ⟨rfl, by simp [Sys.setProc]⟩
    have hk := (Kept.refl _).yield hok
    refine ⟨?_, ?_, fun _ => hmode⟩
    · rw [hk.left p]
      simp only [Sys.setProc, Function.update_self]
      omega
    · intro y hy
      rw [hk.left y]
      simp [Sys.setProc, hy]
  · next hleft =>
    obtain rfl := Except.ok.inj hok
    refine ⟨?_, ?_, fun hzero => absurd hzero hleft⟩
    · simp only [Sys.setProc, Function.update_self]
      omega
    · intro y hy
      simp [Sys.setProc, hy]

theorem Slices.tick (hs : Slices s) (hp : s.mode = .process p) (hok : Sched.tick s p = .ok s')
    (habs : AStep s.abs .tick s'.abs) : Slices s' := by
  obtain ⟨hcharge, hother, hzero⟩ := tick_slice hs hp hok
  constructor
  · intro y hy
    by_cases hyp : y = p
    · subst hyp
      -- with nothing left, the process has to be put back first
      by_contra hlt
      obtain ⟨hmode, hst⟩ := hzero (by omega)
      rcases hy with h | h | ⟨-, h⟩
      · cases h.symm.trans hst
      · cases h.symm.trans hmode
      · exact h hmode
    · rw [hother y hyp]
      exact hs.live y (habs.live (by simp) (by simp) hy)
  · intro y
    by_cases hyp : y = p
    · subst hyp
      have := hs.le y
      omega
    · rw [hother y hyp]
      exact hs.le y

/-- **A fork** gives half of the time slice away, but never leaves either side with nothing. -/
theorem Slices.clone (hs : Slices s) (hi : Inv s xs) (hp : s.mode = .process p) {r : AllocResults}
    (hok : Sched.clone s p r = .ok s') : Slices s' := by
  rcases clone_forked hi hp hok with rfl | ⟨d, hf⟩
  · exact hs
  have hmode : s'.mode = .process p := hf.mode.trans hp
  constructor
  · intro y hy
    rcases hf.slice_cases y with ⟨hyd, hsame⟩ | hhalf | ⟨rfl, -, hst⟩
    · rw [hsame]
      by_cases hyp : y = p
      · subst hyp
        exact hs.live y (.of_mode hp)
      · exact hs.live y (.of_same hp hy hyp (Or.inl hmode) (Or.inl (hf.status y hyd)))
    · rw [hhalf]
      exact Nat.le_max_right ..
    · -- the descriptor was given back, and nobody lives in it
      rcases hy with h | h | ⟨h, -⟩
      · cases h.symm.trans hst
      · obtain rfl := Mode.process.inj (hmode.symm.trans h)
        exact absurd hf.free (hi.cur_status hp).2.1
      · cases h.symm.trans hst
  · intro y
    rcases hf.slice_cases y with ⟨-, hsame⟩ | hhalf | ⟨-, hzero, -⟩
    · rw [hsame]
      exact hs.le y
    · rw [hhalf]
      exact Nat.max_le.2 ⟨Nat.le_trans (Nat.div_le_self ..) (hs.le p), by decide⟩
    · rw [hzero]
      exact Nat.zero_le _

/-- What runs or waits for the processor after a turn of the scheduler, did so before. -/
theorem AStep.status_of_live (hstep : AStep a .schedule b) (hy : b.Live y) :
    (a.procs y).status = .sleeping ∨ (a.procs y).status = .runnable := by
  cases hstep with
  | idle hm =>
    rcases hy with h | h | ⟨h, -⟩
    · exact Or.inl h
    · cases h
    · exact Or.inr h
  | @pick q z hm hz =>
    by_cases hyz : y = z
    · subst hyz
      exact Or.inr hz
    · rcases hy with h | h | ⟨h, -⟩
      · exact Or.inl (by simpa [hyz] using h)
      · exact absurd (Mode.process.inj h).symm hyz
      · exact Or.inr (by simpa [hyz] using h)

/-- All but the process that the scheduler comes from have what they need. -/
theorem Slices.waiting (hs : Slices s) {q : Option Nat} (hm : s.mode = .scheduler q) (hq : q ≠ some y)
    (hst : (s.procs y).status = .sleeping ∨ (s.procs y).status = .runnable) :
    1 ≤ (s.procs y).timesliceLeft := by
  rcases hst with hst | hst
  · exact hs.live y (.of_sleeping hst)
  · refine hs.live y (Or.inr (Or.inr ⟨hst, ?_⟩))
    show s.mode ≠ _
    rw [hm]
    exact fun h => hq (Mode.scheduler.inj h)

/-- Once every process that can run at all has a tick, the scheduler may pick any. -/
theorem Slices.picked (hpick : pick (swapQueues t) = .ok s') (habs : AStep s.abs .schedule s'.abs)
    (hpos : ∀ y, (s.procs y).status = .sleeping ∨ (s.procs y).status = .runnable →
      1 ≤ (t.procs y).timesliceLeft)
    (hle : ∀ y, (t.procs y).timesliceLeft ≤ DEFAULT_TIMESLICE * 4) : Slices s' := by
  have hk := (Kept.refl t).swapQueues.pick hpick
  constructor
  · intro y hy
    rw [hk.left y]
    exact hpos y (habs.status_of_live hy)
  · intro y
    rw [hk.left y]
    exact hle y

/-- **The scheduler** renews the time slice of the process that it puts back. -/
theorem Slices.schedule (hs : Slices s) {q : Option Nat} (hm : s.mode = .scheduler q)
    (hok : Sched.schedule s q = .ok s') (habs : AStep s.abs .schedule s'.abs) : Slices s' := by
  unfold Sched.schedule at hok
  cases q with
  | none => exact .picked hok habs (fun y hy => hs.waiting hm (by simp) hy) hs.le
  | some p =>
    have hother : ∀ y, y ≠ p → (s.procs y).status = .sleeping ∨ (s.procs y).status = .runnable →
        1 ≤ (s.procs y).timesliceLeft :=
      fun y hyp hy => hs.waiting hm (fun h => hyp (Option.some.inj h).symm) hy
    dsimp only at hok
    split at hok
    · obtain ⟨t, hre, hpick⟩ := bind_eq_ok.1 hok
      have hr := requeue_renewed hre
      refine .picked hpick habs ?_ ?_
      · intro y hy
        by_cases hyp : y = p
        · subst hyp
          exact hr.self.1
        · rw [hr.other hyp]
          exact hother y hyp hy
      · intro y
        by_cases hyp : y = p
        · subst hyp
          exact hr.self.2 (hs.le y)
        · rw [hr.other hyp]
          exact hs.le y
    · next hst =>
      -- the process that the scheduler comes from may be asleep
      refine .picked hok habs (fun y hy => ?_) hs.le
      by_cases hyp : y = p
      · subst hyp
        exact hs.live y (.of_sleeping (hy.resolve_right hst))
      · exact hother y hyp hy

/-- What a step of the running process may be: a tick, a fork, or one that leaves the time slices
    alone. -/
inductive ProcStep (s : Sys) (p : Nat) : Op → Sys → Prop where
  | tick {s' : Sys} (h : Sched.tick s p = .ok s') : ProcStep s p .tick s'
  | clone {r : AllocResults} {s' : Sys} (h : Sched.clone s p r = .ok s') : ProcStep s p (.clone r) s'
  | kept {o : Op} {s' : Sys} (hclone : ∀ r, o ≠ .clone r) (hsched : o ≠ .schedule) (h : Kept s s') :
      ProcStep s p o s'

theorem procStep_cases (hok : procStep s p c o = .ok s') : ProcStep s p o s' := by
  have hk := Kept.refl s
  unfold procStep at hok
  split at hok
  · cases hok
  · exact .kept nofun nofun (hk.wakeup1 hok)
  · exact .tick hok
  · exact .kept nofun nofun (hk.yield hok)
  · exact .kept nofun nofun (hk.sleep hok)
  · exact .kept nofun nofun (hk.sleep hok)
  · exact .kept nofun nofun (hk.sleep hok)
  · exact .kept nofun nofun (hk.kill hok)
  · exact .clone hok
  · exact .kept nofun nofun (hk.cloneFinish hok)
  · exact .kept nofun nofun (hk.wait hok)
  · exact .kept nofun nofun (hk.wait hok)
  · exact .kept nofun nofun (hk.exit hok)
  · exact .kept nofun nofun (hk.exitFinish hok)
  · exact .kept nofun nofun (hk.ipcLookup hok)
  · obtain ⟨⟨t, e⟩, hsend, hret⟩ := bind_eq_ok.1 hok
    obtain rfl := Except.ok.inj hret
    exact .kept nofun nofun (hk.ipcTrySend hsend)
  · split at hok
    · obtain rfl := Except.ok.inj hok
      exact .kept nofun nofun hk
    · exact .kept nofun nofun ((hk.setProc rfl fun hf => hf).sleep hok)
  · obtain rfl := Except.ok.inj hok
    exact .kept nofun nofun hk.goto
  · cases hok

/-- **Every step** leaves at least one tick to each process that can still run. -/
theorem step_slices (hs : Slices s) (hi : Inv s xs) (hok : step s o = .ok s') : Slices s' := by
  obtain ⟨xs', _, habs⟩ := step_refines hi hok
  unfold step at hok
  split at hok
  · next p hp =>
    cases procStep_cases hok with
    | tick htick => exact hs.tick hp htick habs
    | clone hclone => exact hs.clone hi hp hclone
    | kept hclone hsched hk => exact hs.kept hk fun y => habs.live hclone hsched
  · next q hm =>
    split at hok
    · exact hs.kept ((Kept.refl s).wakeup1 hok) fun y => habs.live (by simp) (by simp)
    · obtain rfl := Except.ok.inj hok
      exact hs.kept ((Kept.refl s).congr rfl) fun y => habs.live (by simp) (by simp)
    · exact hs.schedule hm hok habs
    · cases hok

end

/-! ## §4 Runs -/

/-- What happens to the machine: it takes a step, or time passes and the sleeping average of a process
    changes, to whatever values. -/
inductive Event where
  | op (o : Op)
  | jiffs (n : Nat)
  | sleepAvg (p n : Nat)
  deriving DecidableEq, Repr

def Sys.event (s : Sys) : Event → Except Fault Sys
  | .op o => step s o
  | .jiffs n => .ok { s with jiffs := n }
  | .sleepAvg p n => .ok (s.setProc p fun P => { P with sleepAvg := n })

/-- A run from the first process. -/
def runEvents (es : List Event) : Except Fault Sys := do
  let s ← firstProcess procInit
  es.foldlM Sys.event s

/-- The first process has its default time slice; nobody else is alive. -/
theorem boot_slices {s : Sys} (hboot : firstProcess procInit = .ok s) : Slices s := by
  obtain ⟨⟨xs, hi⟩, hb⟩ := boot_inv hboot
  obtain ⟨⟨t, e⟩, halloc, hret⟩ := bind_eq_ok.1 hboot
  cases e with
  | error e => cases hret
  | ok p =>
    obtain ⟨u, hget, rfl⟩ := procAlloc_ok halloc
    obtain ⟨_, _, _, _, _, hu, _⟩ := getProcDesc_spec procInit_queued hget
    obtain ⟨v, hadd, hret⟩ := bind_eq_ok.1 hret
    obtain rfl := Except.ok.inj hret
    have hprocs : u.procs = Function.update procInit.procs p Proc.zero := by rw [hu]; rfl
    have hv := addProcToQueue_procs hadd
    have hself : (v.procs p).timesliceLeft = DEFAULT_TIMESLICE := by
      simp [hv, Sys.setProc]
    have hother : ∀ y, y ≠ p → v.procs y = { Proc.zero with status := .free } := by
      intro y hy
      simp [hv, Sys.setProc, initProc, hprocs, hy, procInit]
    constructor
    · intro y hy
      -- every other descriptor is free, so that nobody lives in it
      by_cases hyp : y = p
      · subst hyp
        show 1 ≤ (v.procs y).timesliceLeft
        rw [hself]
        decide
      · have hfree : (v.procs y).status = .free := by rw [hother y hyp]
        rcases hy with h | h | ⟨h, -⟩
        · cases h.symm.trans hfree
        · exact absurd hfree (hi.cur_status h).2.1
        · cases h.symm.trans hfree
    · intro y
      show (v.procs y).timesliceLeft ≤ _
      by_cases hyp : y = p
      · subst hyp
        rw [hself]
        decide
      · rw [hother y hyp]
        exact Nat.zero_le _

/-- **Every event** keeps the invariants. -/
theorem event_slices {s s' : Sys} {e : Event} (hi : ∃ xs, Inv s xs) (hs : Slices s)
    (hok : s.event e = .ok s') : (∃ xs, Inv s' xs) ∧ Slices s' := by
  obtain ⟨xs, hi⟩ := hi
  cases e with
  | op o =>
    obtain ⟨xs', hi', _⟩ := step_refines hi hok
    exact ⟨⟨xs', hi'⟩, step_slices hs hi hok⟩
  | jiffs n =>
    obtain rfl := Except.ok.inj hok
    exact ⟨⟨xs, hi.congr rfl rfl rfl rfl rfl rfl fun _ => ⟨rfl, rfl, rfl⟩⟩, hs.live, hs.le⟩
  | sleepAvg p n =>
    obtain rfl := Except.ok.inj hok
    have habs : (s.setProc p fun P => { P with sleepAvg := n }).abs = s.abs := by
      refine Abs.ext_procs (fun y => ?_) rfl rfl rfl rfl
      by_cases hy : y = p
      · subst hy
        simp [Sys.abs, Sys.setProc, Proc.view]
      · simp [Sys.abs, Sys.setProc, hy]
    refine ⟨⟨xs, hi.setData p (fun P => { P with sleepAvg := n }) rfl rfl rfl⟩, hs.kept ?_ ?_⟩
    · exact (Kept.refl s).setProc rfl fun hf => hf
    · intro y
      rw [habs]
      exact id

theorem slices_of_events {s : Sys} {es : List Event} (hrun : runEvents es = .ok s) :
    (∃ xs, Inv s xs) ∧ Slices s := by
  obtain ⟨s₀, hboot, hrest⟩ := bind_eq_ok.1 hrun
  have h₀ := boot_slices hboot
  have hi₀ := (boot_inv hboot).1
  clear hrun hboot
  induction es generalizing s₀ with
  | nil =>
    obtain rfl := Except.ok.inj hrest
    exact ⟨hi₀, h₀⟩
  | cons e es ih =>
    obtain ⟨t, hstep, hrest⟩ := bind_eq_ok.1 hrest
    obtain ⟨hi, hs⟩ := event_slices hi₀ h₀ hstep
    exact ih t hrest hs hi

/-- **Time slices never underflow, and priorities stay in range**: in every state that a run from the
    first process reaches, the tick that is charged to the running process counts down from at least
    one; every process, on a queue or not, has one of the `N_PRIORITY` priorities; and the process that
    the scheduler is about to put back gets at least one tick, with a new time slice on the exhausted
    queue when nothing was left. -/
theorem slices_of_run (es : List Event) (s : Sys) (hrun : runEvents es = .ok s) :
    (∀ p, s.mode = .process p → 1 ≤ (s.procs p).timesliceLeft ∧
      ∀ s', tick s p = .ok s' → (s'.procs p).timesliceLeft + 1 = (s.procs p).timesliceLeft) ∧
    (∀ p, (s.procs p).priority < N_PRIORITY) ∧
    ∀ p, s.mode = .scheduler (some p) → (s.procs p).status = .runnable →
      ∃ t, requeue s p = .ok t ∧ 1 ≤ (t.procs p).timesliceLeft ∧
        ((s.procs p).timesliceLeft = 0 → (t.procs p).procQueue = some s.exhaustedQueue) := by
  obtain ⟨⟨xs, hi⟩, hs⟩ := slices_of_events hrun
  refine ⟨?_, hi.queued.prio, ?_⟩
  · intro p hp
    exact ⟨hs.live p (.of_mode hp), fun s' hok => (tick_slice hs hp hok).1⟩
  · intro p hm hst
    obtain ⟨t, xs', hok, _⟩ := requeue_spec hi.queued (hi.lt_nDescs (by simp [hst])) hst
    have hr := requeue_renewed hok
    refine ⟨t, hok, hr.self.1, fun hzero => ?_⟩
    obtain ⟨n, _, _, _, hqueue⟩ := hr.renewed hzero
    exact hqueue

/-- The first process forks, wakes up late, and uses the half of its time slice that is left. -/
theorem slices_of_run_sample : ∃ s, runEvents ([.op .schedule, .op (.clone ⟨true, true, true⟩),
    .op (.cloneFinish false), .op (.sleep 5), .op .schedule, .jiffs 4000000000, .op (.wakeup 5),
    .op .schedule, .sleepAvg 0 77] ++ List.replicate 50 (.op .tick)) = .ok s ∧
    ∃ t, requeue s 0 = .ok t ∧ 1 ≤ (t.procs 0).timesliceLeft ∧
      (t.procs 0).procQueue = some s.exhaustedQueue := by
  obtain ⟨s, hrun, hm, hst, hzero⟩ : ∃ s, runEvents ([.op .schedule,
      .op (.clone ⟨true, true, true⟩), .op (.cloneFinish false), .op (.sleep 5), .op .schedule,
      .jiffs 4000000000, .op (.wakeup 5), .op .schedule, .sleepAvg 0 77] ++
      List.replicate 50 (.op .tick)) = .ok s ∧ s.mode = .scheduler (some 0) ∧
      (s.procs 0).status = .runnable ∧ (s.procs 0).timesliceLeft = 0 :=
    exists_eq_ok_and (by decide +kernel)
  obtain ⟨t, hok, hpos, hqueue⟩ := (slices_of_run _ s hrun).2.2 0 hm hst
  exact ⟨s, hrun, t, hok, hpos, hqueue hzero⟩

end WeiOS.Sched
