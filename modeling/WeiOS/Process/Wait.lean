import Mathlib
import WeiOS.Process.Exit

/-!
# Waiting for Children

A process that calls `wait` looks through its children, and sleeps when none of them is a zombie. Two
things can give it a zombie to reap after that: a child that ends, which wakes it up, and a process that
ends and leaves children of its own to it, which does not.

## Main results
- `wait_of_run`: no zombie is missed, in every run in which the right process hears of each of them.
- `orphan_missed`: a run in which the first process sleeps in `wait` beside a zombie of its own.
-/

namespace WeiOS.Sched

open WeiOS.Lib

/-! ## §1 The condition -/

/-- Sleeping inside of `wait`. -/
def asleepInWait (procs : Nat → Proc) (conts : Nat → Cont) (y : Nat) : Prop :=
  (procs y).status = .sleeping ∧ conts y = .wait

/-- Through with `exit`, and not reaped yet. -/
def complete (procs : Nat → Proc) (conts : Nat → Cont) (c : Nat) : Prop :=
  (procs c).status = .zomble ∧ conts c = .exited

instance (procs : Nat → Proc) (conts : Nat → Cont) (y : Nat) : Decidable (asleepInWait procs conts y) :=
  inferInstanceAs (Decidable (_ ∧ _))

instance (procs : Nat → Proc) (conts : Nat → Cont) (c : Nat) : Decidable (complete procs conts c) :=
  inferInstanceAs (Decidable (_ ∧ _))

/-- The end of `exit` finds the process that waits for this child, and no zombies are left to a
    `rootproc` that waits already. -/
def Heard (s : Sys) (o : Op) : Prop :=
  match s.mode, o with
  | .process p, .exitFinish => ∀ y < s.nDescs, p ∈ (s.procs y).children →
      asleepInWait s.procs s.conts y →
      (fatherOf s.procs s.procTable s.rootproc p).toOption = some y
  | .process p, .exit => asleepInWait s.procs s.conts s.rootproc →
      ∀ c ∈ (s.procs p).children, ¬ complete s.procs s.conts c
  | _, _ => True

instance (s : Sys) (o : Op) : Decidable (Heard s o) := by
  unfold Heard
  generalize s.mode = m
  rcases m with p | q
  · rcases o with ⟨⟩ <;> infer_instance
  · infer_instance

/-! ## §2 The invariant -/

section
variable {s s' : Sys} {xs xs' : Head → List Nat} {a b : Abs} {p y : Nat} {o : Op}

/-- No zombie is missed. -/
def NoneMissed (procs : Nat → Proc) (conts : Nat → Cont) : Prop :=
  ∀ y c, asleepInWait procs conts y → c ∈ (procs y).children → ¬ complete procs conts c

structure WaitInv (a : Abs) : Prop where
  flag : ∀ y, asleepInWait a.procs a.cont y → (a.procs y).waitForChild = true
  none : NoneMissed a.procs a.cont

/-- No new sleepers, children of sleepers, or zombies. -/
theorem WaitInv.fewer (hi : WaitInv a)
    (hsleep : ∀ y, asleepInWait b.procs b.cont y → asleepInWait a.procs a.cont y ∧
      (b.procs y).waitForChild = (a.procs y).waitForChild ∧
      ∀ c ∈ (b.procs y).children, c ∈ (a.procs y).children)
    (hdone : ∀ c, complete b.procs b.cont c → complete a.procs a.cont c) : WaitInv b := by
  constructor
  · intro y hy
    obtain ⟨hold, hflag, _⟩ := hsleep y hy
    rw [hflag]
    exact hi.flag y hold
  · intro y c hy hc hz
    obtain ⟨hold, _, hsub⟩ := hsleep y hy
    exact hi.none y c hold (hsub c hc) (hdone c hz)

theorem WaitInv.step (hi : WaitInv a) (hstep : AStep a o b)
    (hcur : ∀ p, a.mode = .process p → (a.procs p).status ≠ .sleeping)
    (hexit : ∀ p, a.mode = .process p → o = .exit → asleepInWait a.procs a.cont a.rootproc →
      ∀ c ∈ (a.procs p).children, ¬ complete a.procs a.cont c)
    (hfin : ∀ p, a.mode = .process p → o = .exitFinish → ∀ y, p ∈ (a.procs y).children →
      asleepInWait a.procs a.cont y → fatherOf a.procs a.procTable a.rootproc p = .ok y) :
    WaitInv b := by
  cases hstep with
  | @wakeup c W _ hW h =>
    rw [h.rest]
    apply hi.fewer
    all_goals
      intro y hy
      by_cases hw : W y
      · have hwoken := h.woken y hw
        simp [asleepInWait, complete, hwoken] at hy
      · simpa [asleepInWait, complete, h.other y hw] using hy
  | @waitSleep p hp hc hz =>
    -- a process that goes to sleep has looked through its children
    have hclear : ∀ c ∈ (a.procs p).children, (a.procs c).status ≠ .zomble := by
      simpa [Abs.zombies] using hz
    obtain ⟨hflag, hnone⟩ := hi
    constructor
    · intro y hy
      have := hflag y
      grind [asleepInWait]
    · intro y c hy hc hz
      have := hnone y c
      have := hclear c
      grind [asleepInWait, complete]
  | @exit p hp hc hr =>
    have hold : ∀ y, asleepInWait (((a.handOver p).setProc p fun P =>
        { P with status := .zomble }).goto p .exit).procs (((a.handOver p).setProc p fun P =>
        { P with status := .zomble }).goto p .exit).cont y → y ≠ p ∧ asleepInWait a.procs a.cont y := by
      intro y hy
      obtain ⟨_, _, hfam, _⟩ := a.handOver_procs p y
      grind [asleepInWait]
    constructor
    · intro y hy
      obtain ⟨hyp, hsleep⟩ := hold y hy
      obtain ⟨_, _, hfam, _⟩ := a.handOver_procs p y
      have := hi.flag y hsleep
      grind
    · intro y c hy hc hz
      obtain ⟨hyp, hsleep⟩ := hold y hy
      obtain ⟨_, _, hfam, hsub⟩ := a.handOver_procs p y
      have hdone : complete a.procs a.cont c := by
        obtain ⟨_, _, hfam', _⟩ := a.handOver_procs p c
        grind [complete]
      have hchild : c ∈ ((a.handOver p).procs y).children := by grind
      rw [hfam] at hchild
      rcases hsub c hchild with hold | ⟨rfl, hnew⟩
      · exact hi.none y c hsleep hold hdone
      · exact hexit p hp rfl hsleep c hnew hdone
  | @exitFinish p f hp hc hf hst =>
    have hawake := hcur p hp
    constructor
    · intro y hy
      have := hi.flag y
      grind [asleepInWait, Cont.alone]
    · intro y c hy hchild hz
      have hsleep : y ≠ p ∧ asleepInWait a.procs a.cont y := by grind [asleepInWait, Cont.alone]
      have hold : c ∈ (a.procs y).children := by grind
      by_cases hcp : c = p
      · -- the one that waits for the new zombie has been woken up
        subst hcp
        have hfy := hfin c hp rfl y hold hsleep.2
        have hflag := hi.flag y hsleep.2
        grind [asleepInWait, Cont.alone]
      · have := hi.none y c hsleep.2 hold
        grind [complete, Cont.alone]
  | @cloneFinish p son hp hc =>
    have hawake := hcur p hp
    apply hi.fewer
    all_goals grind [asleepInWait, complete]
  | @reap p c hp hc hz =>
    have hawake := hcur p hp
    apply hi.fewer
    all_goals grind [asleepInWait, complete]
  | _ =>
    apply hi.fewer
    all_goals grind [asleepInWait, complete, Cont.alone]

/-! ## §3 Runs -/

/-- What a step must leave of the promises about `wait`. -/
structure WaitOk (s : Sys) (o : Op) (s' : Sys) : Prop where
  missed : NoneMissed s'.procs s'.conts
  /-- A turn of `wait` with a zombie among the children reaps one, and returns. -/
  reaps : ∀ p, s.mode = .process p → o = .wait →
    (∃ c ∈ (s.procs p).children, (s.procs c).status = .zomble) →
    s'.conts p = .run ∧
      ∃ c ∈ (s.procs p).children, (s.procs c).status = .zomble ∧ (s'.procs c).status = .free

theorem AStep.reaps (hstep : AStep a .wait b) (hp : a.mode = .process p)
    (hz : ∃ c ∈ (a.procs p).children, (a.procs c).status = .zomble) :
    b.cont p = .run ∧
      ∃ c ∈ (a.procs p).children, (a.procs c).status = .zomble ∧ (b.procs c).status = .free := by
  cases hstep with
  | @reap q c hq hc hfind =>
    obtain rfl := Mode.process.inj (hp.symm.trans hq)
    refine ⟨by simp, c, List.mem_of_find?_eq_some hfind, ?_, by simp⟩
    simpa using List.find?_some hfind
  | @waitSleep q hq hc hnone =>
    obtain rfl := Mode.process.inj (hp.symm.trans hq)
    obtain ⟨c, hmem, hst⟩ := hz
    have hclear : ∀ c ∈ (a.procs p).children, (a.procs c).status ≠ .zomble := by
      simpa [Abs.zombies] using hnone
    exact absurd hst (hclear c hmem)

theorem waitOk_step (hi : Inv s xs) (hw : WaitInv s.abs) (hC : Heard s o)
    (hstep : step s o = .ok s') : WaitOk s o s' ∧ (∃ xs', Inv s' xs') ∧ WaitInv s'.abs := by
  obtain ⟨xs', hi', habs⟩ := step_refines hi hstep
  have hw' : WaitInv s'.abs := by
    apply hw.step habs
    · exact fun p hp => (hi.cur_status hp).1
    · rintro p hp rfl
      have hm : s.mode = .process p := hp
      simp only [Heard, hm] at hC
      exact hC
    · rintro p hp rfl y hchild hsleep
      have hm : s.mode = .process p := hp
      have hsleep' : asleepInWait s.procs s.conts y := hsleep
      have hlt : y < s.nDescs := hi.lt_nDescs (by simp [hsleep'.1])
      simp only [Heard, hm] at hC
      exact eq_ok_of_toOption (hC y hlt hchild hsleep')
  refine ⟨⟨hw'.none, ?_⟩, ⟨xs', hi'⟩, hw'⟩
  rintro p hp rfl hz
  exact habs.reaps hp hz

/-- **No zombie is missed by `wait`**, in every run from boot whose steps are all heard. -/
theorem wait_of_run {s₀ : Sys} {ops : List Op} (hboot : firstProcess procInit = .ok s₀)
    (hC : Meets step Heard s₀ ops) : Throughout step WaitOk s₀ ops := by
  obtain ⟨hi, hb⟩ := boot_inv hboot
  apply throughout_of_meets (fun s => (∃ xs, Inv s xs) ∧ WaitInv s.abs) _ _ hC
  · rintro s o s' ⟨⟨xs, hi⟩, hw⟩ hCo hstep
    exact waitOk_step hi hw hCo hstep
  · -- nobody waits yet
    have hnobody : ∀ y, ¬ asleepInWait s₀.abs.procs s₀.abs.cont y := by
      rintro y ⟨_, hc⟩
      exact absurd ((hb.conts y).symm.trans hc) (by simp)
    exact ⟨hi, fun y hy => absurd hy (hnobody y), fun y c hy => absurd hy (hnobody y)⟩

/-- The first process waits for its child, and its child for a child of its own. -/
theorem wait_of_run_sample : ∃ s₀, firstProcess procInit = .ok s₀ ∧ Throughout step WaitOk s₀
    [.schedule, .clone ⟨true, true, true⟩, .cloneFinish true, .wait, .schedule, .clone ⟨true, true, true⟩,
      .cloneFinish true, .wait, .schedule, .exit, .exitFinish, .schedule, .wait, .exit, .exitFinish,
      .schedule, .wait] := by
  obtain ⟨s₀, hboot, hC⟩ : ∃ s₀, firstProcess procInit = .ok s₀ ∧ Meets step Heard s₀
      [.schedule, .clone ⟨true, true, true⟩, .cloneFinish true, .wait, .schedule, .clone ⟨true, true, true⟩,
        .cloneFinish true, .wait, .schedule, .exit, .exitFinish, .schedule, .wait, .exit, .exitFinish,
        .schedule, .wait] := exists_eq_ok_and (by decide +kernel)
  exact ⟨s₀, hboot, wait_of_run hboot hC⟩

/-- **Two runs in which a zombie is missed**. In the first a process ends after its child, and the zombie
    falls to the first process, which sleeps in `wait`. In the second an allocation has failed, and given
    the pid 0 of the first process away: the child of the process that gets it wakes up the first
    process, not its father. -/
theorem orphan_missed :
    (∃ s y c, runOps [.schedule, .clone ⟨true, true, true⟩, .cloneFinish true, .wait, .schedule,
        .clone ⟨true, true, true⟩, .cloneFinish true, .yield, .schedule, .exit, .exitFinish, .schedule,
        .exit] = .ok s ∧
      asleepInWait s.procs s.conts y ∧ c ∈ (s.procs y).children ∧ complete s.procs s.conts c) ∧
    ∃ s y c, runOps [.schedule, .clone ⟨true, false, true⟩, .clone ⟨true, true, true⟩, .cloneFinish true,
        .wait, .schedule, .clone ⟨true, true, true⟩, .cloneFinish true, .wait, .schedule, .exit,
        .exitFinish] = .ok s ∧
      asleepInWait s.procs s.conts y ∧ c ∈ (s.procs y).children ∧ complete s.procs s.conts c := by
  constructor
  · obtain ⟨s, hrun, hmissed⟩ := exists_eq_ok_and
      (x := runOps [.schedule, .clone ⟨true, true, true⟩, .cloneFinish true, .wait, .schedule,
        .clone ⟨true, true, true⟩, .cloneFinish true, .yield, .schedule, .exit, .exitFinish, .schedule,
        .exit])
      (P := fun s => asleepInWait s.procs s.conts 0 ∧ 2 ∈ (s.procs 0).children ∧
        complete s.procs s.conts 2) (by decide +kernel)
    exact ⟨s, 0, 2, hrun, hmissed⟩
  · obtain ⟨s, hrun, hmissed⟩ := exists_eq_ok_and
      (x := runOps [.schedule, .clone ⟨true, false, true⟩, .clone ⟨true, true, true⟩, .cloneFinish true,
        .wait, .schedule, .clone ⟨true, true, true⟩, .cloneFinish true, .wait, .schedule, .exit,
        .exitFinish])
      (P := fun s => asleepInWait s.procs s.conts 1 ∧ 2 ∈ (s.procs 1).children ∧
        complete s.procs s.conts 2) (by decide +kernel)
    exact ⟨s, 1, 2, hrun, hmissed⟩

end

end WeiOS.Sched
