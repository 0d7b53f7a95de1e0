import Mathlib
import WeiOS.Process.SchedRuns

/-!
# Exit

`exit` makes the running process a zombie, and only then closes its files, which takes time: it may be
interrupted, and it may sleep. Both of them end in a status that is not ZOMBLE any more. A process that
keeps the processor until the end of `exit` is a zombie from then on, until its parent's `wait` destroys
it; one that does not can never finish.

## Main results
- `exit_of_run`: zombies, in every run in which nothing takes the processor away inside of `exit`.
- `exit_panics`: a run in which a process sleeps inside of `exit`, and the machine stops.
- `exit_stuck`: after that, the process never gets through `exit`.
-/

namespace WeiOS.Sched

open WeiOS.Lib

/-! ## §1 The condition -/

/-- What takes the processor away from a process that has `timesliceLeft` ticks left. -/
def givesUp (timesliceLeft : Nat) : Op → Bool
  | .yield => true
  | .sleep _ => true
  | .tick => decide (timesliceLeft % 2 ^ 32 = 1)
  | _ => false

/-- A process inside of `exit` keeps the processor. -/
def Undisturbed (s : Sys) (o : Op) : Prop :=
  match s.mode with
  | .process p => s.conts p = .exit → givesUp (s.procs p).timesliceLeft o = false
  | .scheduler _ => True

instance (s : Sys) (o : Op) : Decidable (Undisturbed s o) := by
  unfold Undisturbed
  split
  · infer_instance
  · infer_instance

section
variable {s s' : Sys} {xs xs' : Head → List Nat} {a b : Abs} {p y : Nat} {o : Op}

theorem Undisturbed.keeps (hC : Undisturbed s o) (hp : s.mode = .process p) (hc : s.conts p = .exit) :
    givesUp (s.procs p).timesliceLeft o = false := by
  simp only [Undisturbed, hp] at hC
  exact hC hc

/-- It stays the running process, until it is through. -/
theorem Undisturbed.mode (hC : Undisturbed s o) (hi : Inv s xs) (hp : s.mode = .process p)
    (hc : s.conts p = .exit) (hstep : step s o = .ok s') :
    o = .exitFinish ∨ s'.mode = .process p := by
  have hkeep := hC.keeps hp hc
  have hproc : procStep s p .exit o = .ok s' := by
    rw [← hc]
    simpa [step, hp] using hstep
  cases o with
  | exitFinish => exact Or.inl rfl
  | wakeup c =>
    right
    obtain ⟨t, xs', hok, hwk⟩ := wakeup1_spec hi.queued (h := .chan c) trivial (by simp) (by simp)
    obtain rfl := Except.ok.inj (hok.symm.trans hproc)
    rw [hwk.moved]
    exact hp
  | tick =>
    right
    have hleft : (s.procs p).timesliceLeft % 2 ^ 32 ≠ 1 := by simpa [givesUp] using hkeep
    have hmore : ¬ ((s.procs p).timesliceLeft + (2 ^ 32 - 1)) % 2 ^ 32 = 0 := by omega
    have hs' : s'.mode = s.mode := by
      simp only [procStep, tick, Sys.setProc, Function.update_self, if_neg hmore] at hproc
      rw [← Except.ok.inj hproc]
    exact hs'.trans hp
  | yield => simp [givesUp] at hkeep
  | sleep c => simp [givesUp] at hkeep
  | _ => cases hproc

/-! ## §2 The invariant -/

/-- Who is inside of `exit`, or through. -/
structure ExitInv (a : Abs) : Prop where
  exit : ∀ p, a.cont p = .exit → a.mode = .process p ∧ (a.procs p).status = .zomble
  exited : ∀ p, a.cont p = .exited → a.mode ≠ .process p ∧
    ((a.procs p).status = .zomble ∨ (a.procs p).status = .free)

/-- A zombie that is through stays one until its parent's `wait`. -/
def Stays (a : Abs) (o : Op) (b : Abs) : Prop :=
  ∀ p, a.cont p = .exited → (a.procs p).status = .zomble →
    (b.cont p = .exited ∧ (b.procs p).status = .zomble) ∨
    (o = .wait ∧ (b.procs p).status = .free ∧
      ∃ q, a.mode = .process q ∧ p ∈ (a.procs q).children)

theorem ExitInv.step (hi : ExitInv a) (hstep : AStep a o b)
    (hkeep : ∀ p, a.mode = .process p → a.cont p = .exit → o = .exitFinish ∨ b.mode = .process p) :
    ExitInv b ∧ Stays a o b := by
  obtain ⟨hexit, hexited⟩ := hi
  cases hstep with
  | wakeup hW h =>
    have hst : ∀ y, (a.procs y).status ≠ .sleeping → b.procs y = a.procs y :=
      fun y hy => h.other y fun hw => hy (h.woken y hw).1
    rw [h.rest]
    refine ⟨⟨?_, ?_⟩, ?_⟩
    all_goals
      intro y hy
      grind
  | @exit p hp hc hr =>
    refine ⟨⟨?_, ?_⟩, ?_⟩
    all_goals
      intro y hy
      obtain ⟨_, _, hfam, _⟩ := a.handOver_procs p y
      grind
  | reap hp hc hz =>
    refine ⟨⟨?_, ?_⟩, ?_⟩
    all_goals
      intro y hy
      grind [Abs.zombies]
  | _ =>
    refine ⟨⟨?_, ?_⟩, ?_⟩
    all_goals
      intro y hy
      grind

theorem AStep.finished (hstep : AStep a .exitFinish b) (hp : a.mode = .process p) :
    a.cont p = .exit ∧ b.cont p = .exited ∧ (b.procs p).status = (a.procs p).status := by
  cases hstep with
  | exitFinish hp' hc hf hst =>
    obtain rfl := Mode.process.inj (hp.symm.trans hp')
    simp [hc]

/-- A process that was taken off the processor inside of `exit` stays there. -/
theorem AStep.stuck (hstep : AStep a o b) (hc : a.cont p = .exit) (hst : (a.procs p).status ≠ .zomble)
    (hfree : (a.procs p).status ≠ .free) (hcur : a.mode = .process p → (a.procs p).status = .running) :
    b.cont p = .exit ∧ (b.procs p).status ≠ .zomble ∧ (b.procs p).status ≠ .free := by
  cases hstep with
  | @wakeup c W _ hW h =>
    rw [h.rest]
    by_cases hw : W p
    · simp [(h.woken p hw).2, hc]
    · simp [h.other p hw, hc, hst, hfree]
  | @exit q hp hc hr =>
    obtain ⟨_, _, hfam, _⟩ := a.handOver_procs q p
    grind
  | reap hp hc hz => grind [Abs.zombies]
  | _ => grind

/-! ## §3 The end of `exit` -/

theorem pid2proc_ne_panic (procs : Nat → Proc) (procTable : Nat → Option Nat) (cur pid : Nat)
    (check : Bool) : pid2proc procs procTable cur pid check ≠ .error .panic := by
  unfold pid2proc
  split_ifs
  · nofun
  · nofun
  · nofun
  · cases procTable pid with
    | none => nofun
    | some y =>
      dsimp only
      split_ifs
      all_goals nofun

theorem fatherOf_ne_panic (procs : Nat → Proc) (procTable : Nat → Option Nat) (rootproc cur : Nat) :
    fatherOf procs procTable rootproc cur ≠ .error .panic := by
  unfold fatherOf
  split
  · intro h
    cases hlook : pid2proc procs procTable cur (procs cur).ppid false with
    | error e =>
      rw [hlook] at h
      obtain rfl := Except.error.inj h
      exact pid2proc_ne_panic _ _ _ _ _ hlook
    | ok r =>
      rw [hlook] at h
      cases r with
      | none => cases h
      | some f => cases h
  · nofun

theorem wakeAlone_ne_panic (hi : Inv s xs) : wakeup1 s (.sleepAlone y) ≠ .error .panic := by
  by_cases hin : Inited s (.sleepAlone y)
  · obtain ⟨t, _, hok, _⟩ := wakeup1_spec hi.queued hin (by simp) (by simp)
    rw [hok]
    nofun
  · intro h
    unfold wakeup1 at h
    rcases hi.queued.idle _ hin with hnone | hself
    · rw [hnone] at h
      cases h
    · have hloop : wakeLoop (.sleepAlone y) s.nDescs (.head (.sleepAlone y)) N_PRIORITY s =
          .ok (s, N_PRIORITY) := by
        unfold wakeLoop
        simp
      simp only [hself, deref, bind, Except.bind, hloop] at h
      cases h

/-- **A zombie does not run into the panic of `sched`.** -/
theorem exitFinish_ne_panic (hi : Inv s xs) (hp : s.mode = .process p) (hc : s.conts p = .exit)
    (hz : (s.procs p).status = .zomble) : step s .exitFinish ≠ .error .panic := by
  have hfin : step s .exitFinish = exitFinish s p := by simp [step, hp, hc, procStep]
  rw [hfin]
  intro h
  unfold exitFinish at h
  cases hf : fatherOf s.procs s.procTable s.rootproc p with
  | error e =>
    rw [hf] at h
    obtain rfl := Except.error.inj h
    exact fatherOf_ne_panic _ _ _ _ hf
  | ok f =>
    rw [hf] at h
    simp only [bind, Except.bind] at h
    split at h
    · cases hwake : wakeup1 s (.sleepAlone f) with
      | error e =>
        rw [hwake] at h
        obtain rfl := Except.error.inj h
        exact wakeAlone_ne_panic hi hwake
      | ok t =>
        obtain ⟨_, _, habs⟩ := wakeAlone_refines hi hwake
        have hproc := (hi.wakeAlone_cur hp f).1
        rw [← habs] at hproc
        have hst : (t.procs p).status = .zomble := (congrArg Proc.status hproc).trans hz
        simp [hwake, sched, Sys.goto, hst] at h
    · simp [pure, Except.pure, sched, Sys.goto, hz] at h

/-! ## §4 Runs -/

/-- What a step must leave of the promises about `exit`. -/
structure ExitOk (s : Sys) (o : Op) (s' : Sys) : Prop where
  /-- The final `sched` of `exit` is reached by a zombie, and does not panic. -/
  final : ∀ p, s'.mode = .process p → s'.conts p = .exit →
    (s'.procs p).status = .zomble ∧ step s' .exitFinish ≠ .error .panic
  done : ∀ p, s.mode = .process p → o = .exitFinish →
    s'.conts p = .exited ∧ (s'.procs p).status = .zomble
  /-- A process that is through is on no run queue. -/
  off : ∀ p q k, s'.conts p = .exited → Inited s' (.procsInQueue q k) →
    ¬ OnList s'.links (.procsInQueue q k) p
  /-- It stays a zombie until its parent's `wait`. -/
  stays : ∀ p, s.conts p = .exited → (s.procs p).status = .zomble →
    (s'.conts p = .exited ∧ (s'.procs p).status = .zomble) ∨
    (o = .wait ∧ (s'.procs p).status = .free ∧
      ∃ q, s.mode = .process q ∧ p ∈ (s.procs q).children)

theorem exitOk_step (hi : Inv s xs) (he : ExitInv s.abs) (hC : Undisturbed s o)
    (hstep : step s o = .ok s') : ExitOk s o s' ∧ (∃ xs', Inv s' xs') ∧ ExitInv s'.abs := by
  obtain ⟨xs', hi', habs⟩ := step_refines hi hstep
  obtain ⟨he', hstays⟩ := he.step habs fun p hp hc => hC.mode hi hp hc hstep
  refine ⟨⟨?_, ?_, ?_, hstays⟩, ⟨xs', hi'⟩, he'⟩
  · intro p hp hc
    have hz : (s'.procs p).status = .zomble := (he'.exit p hc).2
    exact ⟨hz, exitFinish_ne_panic hi' hp hc hz⟩
  · rintro p hp rfl
    obtain ⟨hc, hcont, hst⟩ := habs.finished hp
    exact ⟨hcont, hst.trans (he.exit p hc).2⟩
  · intro p q k hc hin hon
    have hrun := (hi'.schedOk.queued q k p hin hon).1
    have hst : (s'.procs p).status = .zomble ∨ (s'.procs p).status = .free := (he'.exited p hc).2
    simp [hrun] at hst

/-- **An exiting process ends as a zombie**, in every run from boot in which no process gives the
    processor up inside of `exit`. -/
theorem exit_of_run {s₀ : Sys} {ops : List Op} (hboot : firstProcess procInit = .ok s₀)
    (hC : Meets step Undisturbed s₀ ops) : Throughout step ExitOk s₀ ops := by
  obtain ⟨hi, hb⟩ := boot_inv hboot
  apply throughout_of_meets (fun s => (∃ xs, Inv s xs) ∧ ExitInv s.abs) _ _ hC
  · rintro s o s' ⟨⟨xs, hi⟩, he⟩ hCo hstep
    exact exitOk_step hi he hCo hstep
  · -- nobody has called `exit` yet
    refine ⟨hi, ?_, ?_⟩
    · intro p hp
      exact absurd ((hb.conts p).symm.trans hp) (by simp)
    · intro p hp
      exact absurd ((hb.conts p).symm.trans hp) (by simp)

/-- The first process makes a child, which calls `exit` and is waited for. -/
theorem exit_of_run_sample : ∃ s₀, firstProcess procInit = .ok s₀ ∧ Throughout step ExitOk s₀
    [.schedule, .clone ⟨true, true, true⟩, .cloneFinish true, .wait, .schedule, .exit, .tick, .exitFinish,
      .schedule, .wait] := by
  obtain ⟨s₀, hboot, hC⟩ : ∃ s₀, firstProcess procInit = .ok s₀ ∧ Meets step Undisturbed s₀
      [.schedule, .clone ⟨true, true, true⟩, .cloneFinish true, .wait, .schedule, .exit, .tick, .exitFinish,
        .schedule, .wait] := exists_eq_ok_and (by decide +kernel)
  exact ⟨s₀, hboot, exit_of_run hboot hC⟩

/-- **A run into the panic**: the child sleeps while it closes its files, as for a transfer of the disk,
    and is RUNNING when it comes to the end of `exit`. -/
theorem exit_panics : ∃ s p, runOps [.schedule, .clone ⟨true, true, true⟩, .cloneFinish true, .wait,
      .schedule, .exit, .sleep 0, .schedule, .wakeup 0, .schedule] = .ok s ∧
    s.mode = .process p ∧ s.conts p = .exit ∧ p ≠ s.rootproc ∧ (s.procs p).status = .running ∧
    step s .exitFinish = .error .panic := by
  obtain ⟨s, hrun, hmode, hc, hroot, hst, herr⟩ := exists_eq_ok_and
    (x := runOps [.schedule, .clone ⟨true, true, true⟩, .cloneFinish true, .wait,
      .schedule, .exit, .sleep 0, .schedule, .wakeup 0, .schedule])
    (P := fun s => s.mode = .process 1 ∧ s.conts 1 = .exit ∧ 1 ≠ s.rootproc ∧
      (s.procs 1).status = .running ∧ errorOf (step s .exitFinish) = some .panic) (by decide +kernel)
  exact ⟨s, 1, hrun, hmode, hc, hroot, hst, eq_error_of_errorOf herr⟩

/-- A process that was taken off the processor inside of `exit` never gets through. -/
theorem exit_stuck (hi : Inv s xs) (hstep : step s o = .ok s') (hc : s.conts p = .exit)
    (hst : (s.procs p).status ≠ .zomble) (hfree : (s.procs p).status ≠ .free) :
    s'.conts p = .exit ∧ (s'.procs p).status ≠ .zomble ∧ (s'.procs p).status ≠ .free := by
  obtain ⟨_, _, habs⟩ := step_refines hi hstep
  have hcur : s.abs.mode = .process p → (s.abs.procs p).status = .running := fun hp =>
    (hi.cur p hp).resolve_right fun hz => hst hz.1
  have hkeep := habs.stuck hc hst hfree hcur
  exact hkeep

end

end WeiOS.Sched
