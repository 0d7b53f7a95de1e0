import Mathlib
import WeiOS.Process.SchedInv

/-!
# Runs of the Scheduler

The machine boots into one process, and from there on takes steps in any order. The scheduling
invariant holds after boot and is kept by every step, hence it holds in every reachable state; read off
the pointers, it says where each `kinds_list` node is.

## Main results
- `inv_of_run`: the invariant holds after every run, and the run is one of the abstract machine.
- `schedOk_of_run`: where the nodes are, after every run from boot.
-/

namespace WeiOS.Sched

open WeiOS.Lib

/-! ## §1 Boot -/

/-- After `proc_init` all lists are empty. -/
theorem procInit_queued : Queued none procInit fun _ => [] := by
  have hnext : ∀ h, Inited procInit h → procInit.links.next (.head h) = some (.head h) ∧
      procInit.links.prev (.head h) = some (.head h) := by
    intro h hi
    have hh : initHead h = true := by
      cases h with
      | procsInQueue q k => exact decide_eq_true hi
      | sleepAlone o => exact absurd hi.1 (Nat.not_lt_zero o)
      | chan c => rfl
      | procsDescCache => rfl
    simp [procInit, hh]
  constructor
  · constructor
    · intro h hi
      obtain ⟨hn, hp⟩ := hnext h hi
      exact ⟨by simp [Links.Linked, hn, hp], by simp⟩
    · simp
  · exact fun _ _ => rfl
  · intro h _
    by_cases hh : initHead h = true
    · exact Or.inr (by simp [procInit, hh])
    · exact Or.inl (by simp [procInit, hh])
  · simp
  · exact fun _ _ => ⟨rfl, by simp [procInit]⟩
  · simp [procInit, Proc.zero, N_PRIORITY]
  · simp [procInit]

/-- A process comes out of `proc_alloc`. -/
theorem procAlloc_ok {s t : Sys} {r : AllocResults} {y : Nat}
    (halloc : procAlloc s r = .ok (t, .ok y)) :
    ∃ u, getProcDesc s r.kmalloc = .ok (some y, u) ∧ t = initProc u y := by
  unfold procAlloc at halloc
  split at halloc
  · cases halloc
  obtain ⟨⟨d, u⟩, hget, hret⟩ := bind_eq_ok.1 halloc
  cases d with
  | none => cases hret
  | some y' =>
    dsimp only at hret
    split at hret
    · obtain ⟨v, _, hret⟩ := bind_eq_ok.1 hret
      cases hret
    · split at hret
      · obtain ⟨v, _, hret⟩ := bind_eq_ok.1 hret
        cases hret
      · cases hret
        exact ⟨u, hget, rfl⟩

/-- What the processes look like when the machine has booted. -/
structure Booted (s : Sys) : Prop where
  conts : ∀ y, s.conts y = .run
  status : ∀ y, (s.procs y).status = .free ∨ (s.procs y).status = .runnable
  ipcRecving : ∀ y, (s.procs y).ipcRecving = false

/-- **The first process** waits on the run queue. -/
theorem boot_inv {s : Sys} (hboot : firstProcess procInit = .ok s) : (∃ xs, Inv s xs) ∧ Booted s := by
  obtain ⟨⟨t, e⟩, halloc, hboot⟩ := bind_eq_ok.1 hboot
  cases e with
  | error e => cases hboot
  | ok p =>
    obtain ⟨u, hget, rfl⟩ := procAlloc_ok halloc
    obtain ⟨ys, hq, hlt, hn, _, hu, hsub⟩ := getProcDesc_spec procInit_queued hget
    obtain ⟨v, hadd, hret⟩ := bind_eq_ok.1 hboot
    obtain rfl := Except.ok.inj hret
    have hprocs : u.procs = Function.update procInit.procs p Proc.zero := by rw [hu]; rfl
    have hset := (initProc_spec hq hlt (by simp [hprocs, Proc.zero])).setProc (fun P => { P with
      status := .runnable
      priority := DEFAULT_USER_PRIO
      timeslice := DEFAULT_TIMESLICE
      timesliceLeft := DEFAULT_TIMESLICE }) (by simp [initProc, Sys.setProc])
      (by simp [initProc, Sys.setProc, hprocs, Proc.zero]) (by simp [N_PRIORITY, DEFAULT_USER_PRIO])
    obtain ⟨w, xs', hok, hqw, hmoved, hxs⟩ :=
      addProcToQueue_spec hset hlt (by simp [Sys.setProc]) (initProc u p).runQueue
    obtain rfl := Except.ok.inj (hok.symm.trans hadd)
    -- nobody sleeps, and nobody is being made
    have hnone : ∀ h, (∀ q k, h ≠ .procsInQueue q k) → ∀ y, y ∉ xs' h := by
      intro h hh y hy
      rw [hxs, Function.update_of_ne (hh _ _)] at hy
      exact absurd (hsub h y hh hy) (by simp)
    have hconts : ∀ y, w.conts y = .run := by
      intro y
      rw [hmoved]
      show Function.update u.conts p .run y = .run
      rw [hu]
      show Function.update procInit.conts p .run y = .run
      by_cases hyp : y = p
      · simp [hyp]
      · simp [hyp, procInit]
    have hprocs' : ∀ y, ((w.procs y).status = .free ∨ (w.procs y).status = .runnable) ∧
        (w.procs y).ipcRecving = false := by
      intro y
      rw [hmoved]
      by_cases hyp : y = p
      · simp [Sys.moved, Sys.setProc, initProc, hprocs, hyp, Proc.zero]
      · simp [Sys.moved, Sys.setProc, initProc, hprocs, hyp, procInit, Proc.zero]
    refine ⟨⟨xs', hqw.congr rfl rfl rfl fun _ => ⟨rfl, rfl, rfl⟩, ?_, ?_, ?_, ?_, ?_, ?_⟩,
      ⟨hconts, fun y => (hprocs' y).1, fun y => (hprocs' y).2⟩⟩
    · intro y hy
      have hyp : y ≠ p := by
        rintro rfl
        have hn : w.nDescs = u.nDescs := by rw [hmoved]; rfl
        exact absurd hlt (Nat.not_lt.2 (hn ▸ hy))
      rw [hmoved]
      simp [Sys.moved, Sys.setProc, initProc, hprocs, hyp, procInit]
    · exact fun c y hy => absurd hy (hnone _ (by simp) y)
    · exact fun o y hy => absurd hy (hnone _ (by simp) y)
    · intro q hq
      have hmode : w.mode = .scheduler none := by rw [hmoved, hu]; rfl
      have hq' : w.mode = .process q := hq
      rw [hmode] at hq'
      cases hq'
    · rw [hmoved]
      simp [Sys.moved, Sys.setProc]
    · intro q y hy
      have hy' : w.conts q = .clone y := hy
      rw [hconts q] at hy'
      cases hy'

/-! ## §2 Runs -/

/-- The runs of the abstract machine. -/
inductive AReach : Abs → List Op → Abs → Prop where
  | refl (a : Abs) : AReach a [] a
  | step {a b c : Abs} {o : Op} {os : List Op} (h : AStep a o b) (hrest : AReach b os c) :
      AReach a (o :: os) c

theorem foldlM_refines {s t : Sys} {xs : Head → List Nat} {os : List Op} (hi : Inv s xs)
    (hrun : os.foldlM step s = .ok t) : ∃ xs', Inv t xs' ∧ AReach s.abs os t.abs := by
  induction os generalizing s xs with
  | nil =>
    obtain rfl := Except.ok.inj hrun
    exact ⟨xs, hi, .refl _⟩
  | cons o os ih =>
    obtain ⟨u, hstep, hrest⟩ := bind_eq_ok.1 hrun
    obtain ⟨ys, hu, habs⟩ := step_refines hi hstep
    obtain ⟨xs', ht, hreach⟩ := ih hu hrest
    exact ⟨xs', ht, .step habs hreach⟩

/-- **The invariant holds in every reachable state.** -/
theorem inv_of_run {s : Sys} {ops : List Op} (hrun : runOps ops = .ok s) : ∃ xs, Inv s xs := by
  obtain ⟨s₀, hboot, hrest⟩ := bind_eq_ok.1 hrun
  obtain ⟨⟨xs₀, h₀⟩, _⟩ := boot_inv hboot
  obtain ⟨xs, hi, _⟩ := foldlM_refines h₀ hrest
  exact ⟨xs, hi⟩

/-! ## §3 Where the nodes are -/

/-- The lists as the pointers give them. `Inited` names the heads that exist: the two run queues with
    their 40 priorities, `sleep_alone` of the processes, the wait lists of the rest of the kernel, and
    the descriptor cache. -/
structure SchedOk (s : Sys) : Prop where
  once : ∀ h h' p, Inited s h → Inited s h' → OnList s.links h p → OnList s.links h' p → h = h'
  queued : ∀ q k p, Inited s (.procsInQueue q k) → OnList s.links (.procsInQueue q k) p →
    (s.procs p).status = .runnable ∧ (s.procs p).procQueue = some q
  unqueued : ∀ p, (∀ q k, Inited s (.procsInQueue q k) → ¬ OnList s.links (.procsInQueue q k) p) →
    (s.procs p).procQueue = none
  alone : ∀ o p, Inited s (.sleepAlone o) → OnList s.links (.sleepAlone o) p →
    (s.procs p).status = .sleeping
  chan : ∀ c p, OnList s.links (.chan c) p → (s.procs p).status = .sleeping
  running : ∀ h p, s.mode = .process p → Inited s h → ¬ OnList s.links h p

theorem Inv.schedOk {s : Sys} {xs : Head → List Nat} (hi : Inv s xs) : SchedOk s := by
  have hmem : ∀ {h p}, Inited s h → OnList s.links h p → p ∈ xs h :=
    fun hh hp => hi.queued.lists.mem_of_onList hh hp
  constructor
  · intro h h' p hh hh' hp hp'
    exact hi.queued.unique (hmem hh hp) (hmem hh' hp')
  · intro q k p hk hp
    obtain ⟨_, _, hst, hqueue, _⟩ := hi.queued.on _ p (hmem hk hp)
    exact ⟨hst, hqueue⟩
  · intro p hnot
    by_contra hsome
    obtain ⟨q, hq⟩ := Option.ne_none_iff_exists'.1 hsome
    have hp := hi.queued.mem_queue hq
    have hin := hi.queued.inited hp
    exact hnot q _ hin (hi.queued.lists.onList hin hp)
  · intro o p ho hp
    exact (hi.queued.on _ p (hmem ho hp)).2.2.1
  · intro c p hp
    have hc : Inited s (.chan c) := trivial
    exact (hi.queued.on _ p (hmem hc hp)).2.2.1
  · intro h p hm hh hp
    exact hi.cur_off hm h (hmem hh hp)

/-- **Scheduling state invariant**: after every run from boot. -/
theorem schedOk_of_run (ops : List Op) (s : Sys) (hrun : runOps ops = .ok s) : SchedOk s := by
  obtain ⟨xs, hi⟩ := inv_of_run hrun
  exact hi.schedOk

/-- The first process makes a child and waits for it; the child sleeps, and is woken up in the window
    in which the scheduler has released its lock. -/
theorem schedOk_of_run_sample : ∃ s, runOps [.schedule, .clone ⟨true, true, true⟩, .cloneFinish true,
    .wait, .schedule, .sleep 5, .wakeup 5, .schedule] = .ok s ∧ SchedOk s := by
  obtain ⟨s, hrun⟩ : ∃ s, runOps [.schedule, .clone ⟨true, true, true⟩, .cloneFinish true,
      .wait, .schedule, .sleep 5, .wakeup 5, .schedule] = .ok s := exists_eq_ok (by decide +kernel)
  exact ⟨s, hrun, schedOk_of_run _ s hrun⟩

end WeiOS.Sched
