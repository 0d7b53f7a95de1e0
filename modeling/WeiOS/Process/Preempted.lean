import Mathlib
import WeiOS.Process.TimeSlices

/-!
# The Preemption Flag

`wakeup1` sets `preempted` of the running process when it has woken up a better one, and `trap` tests
the flag on the way back to user mode and yields. Nothing clears it again but the `memset` of a free
descriptor: a process that was preempted once resumes with the flag still set, and yields at the end of
every trap from then on.

## Main results
- `step_preempted`: no step clears the flag of a process.
- `preempted_of_run`: a process that has yielded for the flag resumes with the flag set; the request is
  honoured once in the runs in which no trap returns with the flag set.
-/

namespace WeiOS.Sched

open WeiOS.Lib

/-! ## §1 The end of a trap -/

/-- Whether the end of `trap` yields for the running process. -/
def preempts (s : Sys) (p : Nat) : Bool := !(s.procs p).killed && (s.procs p).preempted

/-- The end of `trap`, for one that came from user mode, up to where the process gives the processor up
    or returns. The second test of `killed`, behind `yield`, comes when the process runs again. -/
def trapReturn (s : Sys) (p : Nat) : Except Fault Sys :=
  if (s.procs p).killed then exit s p
  else if (s.procs p).preempted then yield s p
  else .ok s

/-- The machine, with the processes noted that have given the processor up at the end of a trap, because
    their flag was set, and have not run since. -/
structure Traps where
  sys : Sys
  yielded : Nat → Bool

inductive TrapOp where
  | op (o : Op)
  | trapReturn
  deriving DecidableEq, Repr

/-- The machine is in state `s` now; the process that runs does not wait any longer. -/
def Traps.goOn (t : Traps) (s : Sys) : Traps :=
  match s.mode with
  | .process p => ⟨s, Function.update t.yielded p false⟩
  | .scheduler _ => ⟨s, t.yielded⟩

def Traps.step (t : Traps) : TrapOp → Except Fault Traps
  | .op o => do
    let s ← Sched.step t.sys o
    return t.goOn s
  | .trapReturn =>
    match t.sys.mode with
    | .process p =>
      if t.sys.conts p = .run then do
        let s ← trapReturn t.sys p
        return if preempts t.sys p then ⟨s, Function.update t.yielded p true⟩ else t.goOn s
      else
        .error .disabled
    | .scheduler _ => .error .disabled

/-- After boot. -/
def Traps.boot : Except Fault Traps := do
  let s ← firstProcess procInit
  return ⟨s, fun _ => false⟩

/-- The step from `t` to `t'` resumes the process that runs in `t'`, after it has yielded for the flag. -/
def Resumes (t t' : Traps) : Bool :=
  match t'.sys.mode with
  | .process p => t.yielded p
  | .scheduler _ => false

/-- The flag of the process that runs. -/
def Traps.flag (t : Traps) : Bool :=
  match t.sys.mode with
  | .process p => (t.sys.procs p).preempted
  | .scheduler _ => false

/-- The request is honoured: a process that has yielded for the flag resumes with the flag clear. -/
def Honoured (t : Traps) (_ : TrapOp) (t' : Traps) : Prop := Resumes t t' = true → t'.flag = false

/-- No trap returns with the flag set, to yield for it. -/
def ReturnsClear (t : Traps) (e : TrapOp) : Prop := e = .trapReturn →
  (match t.sys.mode with
    | .process p => preempts t.sys p
    | .scheduler _ => false) = false

instance (t : Traps) (e : TrapOp) : Decidable (ReturnsClear t e) := inferInstanceAs (Decidable (_ → _))

/-! ## §2 No step clears the flag -/

section
variable {s s' : Sys} {xs : Head → List Nat} {p y : Nat} {c : Cont} {o : Op} {a b : Abs}

theorem tick_preempted (hok : tick s p = .ok s') (hflag : (s.procs y).preempted = true) :
    (s'.procs y).preempted = true := by
  have hcharged : ∀ n m : Nat, ((s.setProc p fun P => { P with
      sleepAvg := n, timesliceLeft := m }).procs y).preempted = true := by
    intro n m
    by_cases hy : y = p
    · subst hy
      simpa [Sys.setProc] using hflag
    · simpa [Sys.setProc, hy] using hflag
  -- the charge leaves the flag alone, and so does a yield after the last tick
  unfold tick at hok
  dsimp only at hok
  split at hok
  · exact ((Kept.refl _).yield hok).preempted y (hcharged _ _)
  · obtain rfl := Except.ok.inj hok
    exact hcharged _ _

theorem schedule_preempted {q : Option Nat} (hok : schedule s q = .ok s')
    (hflag : (s.procs y).preempted = true) : (s'.procs y).preempted = true := by
  unfold schedule at hok
  cases q with
  | none => exact ((Kept.refl s).swapQueues.pick hok).preempted y hflag
  | some p =>
    dsimp only at hok
    split at hok
    · obtain ⟨t, hre, hpick⟩ := bind_eq_ok.1 hok
      exact ((Kept.refl t).swapQueues.pick hpick).preempted y ((requeue_renewed hre).preempted hflag)
    · exact ((Kept.refl s).swapQueues.pick hok).preempted y hflag

/-- **No step clears the flag** of a process. -/
theorem step_preempted (hi : Inv s xs) (hok : step s o = .ok s')
    (hst : (s.procs y).status ≠ .free) (hflag : (s.procs y).preempted = true) :
    (s'.procs y).preempted = true := by
  unfold step at hok
  split at hok
  · next p hp =>
    cases procStep_cases hok with
    | tick htick => exact tick_preempted htick hflag
    | clone hclone =>
      -- a fork starts a descriptor afresh, but one that was free
      rcases clone_forked hi hp hclone with rfl | ⟨d, hf⟩
      · exact hflag
      · exact hf.preempted y (fun hyd => hst (hyd ▸ hf.free)) hflag
    | kept _ _ hk => exact hk.preempted y hflag
  · split at hok
    · exact ((Kept.refl s).wakeup1 hok).preempted y hflag
    · obtain rfl := Except.ok.inj hok
      exact hflag
    · exact schedule_preempted hok hflag
    · cases hok

/-- A runnable process that does not run stays so until the scheduler picks it. -/
theorem AStep.runnable_stays (hstep : AStep a o b) (hst : (a.procs y).status = .runnable)
    (hm : a.mode ≠ .process y) (hm' : b.mode ≠ .process y) : (b.procs y).status = .runnable := by
  cases hstep with
  | @wakeup c W _ hW hwakes =>
    -- those that are woken up were asleep
    by_cases hw : W y
    · cases (hwakes.woken y hw).1.symm.trans hst
    · rwa [hwakes.other y hw]
  | @exit p hp _ _ =>
    have hne : y ≠ p := by
      rintro rfl
      exact hm hp
    -- the children of the process that exits get another father, and no other status
    obtain ⟨ppid, children, heq, _⟩ := a.handOver_procs p y
    rw [Abs.goto_procs, Abs.setProc_procs, if_neg hne, heq]
    exact hst
  | @reap p c hp _ hz =>
    have hzc : (a.procs c).status = .zomble := by
      simpa using List.find?_some hz
    have hne : y ≠ c := by
      rintro rfl
      cases hzc.symm.trans hst
    grind
  | exitFinish hp _ _ _ =>
    split
    · grind
    · grind
  | _ => grind

end

/-! ## §3 Runs -/

/-- The processes that have yielded for their flag wait for the processor, with the flag set. -/
structure Flags (t : Traps) : Prop where
  inv : ∃ xs, Inv t.sys xs
  yielded : ∀ p, t.yielded p = true → (t.sys.procs p).status = .runnable ∧
    (t.sys.procs p).preempted = true ∧ t.sys.mode ≠ .process p

section
variable {t t' : Traps} {s : Sys} {p y : Nat} {o : Op} {e : TrapOp}

theorem goOn_sys (t : Traps) (s : Sys) : (t.goOn s).sys = s := by
  unfold Traps.goOn
  split
  · rfl
  · rfl

theorem goOn_yielded (hy : (t.goOn s).yielded y = true) : t.yielded y = true ∧ s.mode ≠ .process y := by
  unfold Traps.goOn at hy
  split at hy
  · next p hp =>
    by_cases hyp : y = p
    · subst hyp
      simp at hy
    · refine ⟨by simpa [hyp] using hy, fun h => hyp ?_⟩
      exact Mode.process.inj (h.symm.trans hp)
  · next q hq => exact ⟨hy, by simp [hq]⟩

/-- A process that waits with its flag set goes on to do so. -/
theorem Flags.waits (hf : Flags t) (hstep : step t.sys o = .ok s) (hy : t.yielded y = true)
    (hm : s.mode ≠ .process y) : (s.procs y).status = .runnable ∧ (s.procs y).preempted = true := by
  obtain ⟨xs, hi⟩ := hf.inv
  obtain ⟨xs', _, habs⟩ := step_refines hi hstep
  obtain ⟨hst, hflag, hmode⟩ := hf.yielded y hy
  exact ⟨habs.runnable_stays hst hmode hm, step_preempted hi hstep (by simp [hst]) hflag⟩

theorem Flags.goOn (hf : Flags t) (hstep : step t.sys o = .ok s) : Flags (t.goOn s) := by
  obtain ⟨xs, hi⟩ := hf.inv
  obtain ⟨xs', hi', _⟩ := step_refines hi hstep
  refine ⟨⟨xs', by rwa [goOn_sys]⟩, ?_⟩
  intro y hy
  obtain ⟨hold, hm⟩ := goOn_yielded hy
  obtain ⟨hst, hflag⟩ := hf.waits hstep hold hm
  rw [goOn_sys]
  exact ⟨hst, hflag, hm⟩

/-- What a trap of the running process may come to: it yields for the flag, or it takes the step of
    `exit`, or none. -/
theorem trapReturn_cases (hok : t.step .trapReturn = .ok t') :
    ∃ p s, t.sys.mode = .process p ∧
      (preempts t.sys p = true ∧ step t.sys .yield = .ok s ∧ yield t.sys p = .ok s ∧
          t' = ⟨s, Function.update t.yielded p true⟩ ∨
        preempts t.sys p = false ∧ t' = t.goOn s ∧ (step t.sys .exit = .ok s ∨ s = t.sys)) := by
  dsimp only [Traps.step] at hok
  split at hok
  · next p hp =>
    split at hok
    · next hc =>
      obtain ⟨s, htrap, hret⟩ := bind_eq_ok.1 hok
      refine ⟨p, s, hp, ?_⟩
      have hstep : ∀ o, step t.sys o = procStep t.sys p .run o := by
        intro o
        unfold step
        rw [hp]
        dsimp only
        rw [hc]
      unfold trapReturn at htrap
      by_cases hkilled : (t.sys.procs p).killed = true
      · -- a killed process exits, whatever its flag
        have hpre : preempts t.sys p = false := by simp [preempts, hkilled]
        rw [if_pos hkilled] at htrap
        rw [hpre] at hret
        exact Or.inr ⟨hpre, (Except.ok.inj hret).symm, Or.inl ((hstep .exit).trans htrap)⟩
      · rw [if_neg hkilled] at htrap
        by_cases hflag : (t.sys.procs p).preempted = true
        · have hpre : preempts t.sys p = true := by simp [preempts, hkilled, hflag]
          rw [if_pos hflag] at htrap
          rw [hpre] at hret
          exact Or.inl ⟨hpre, (hstep .yield).trans htrap, htrap, (Except.ok.inj hret).symm⟩
        · have hpre : preempts t.sys p = false := by simp [preempts, hflag]
          rw [if_neg hflag] at htrap
          rw [hpre] at hret
          exact Or.inr ⟨hpre, (Except.ok.inj hret).symm, Or.inr (Except.ok.inj htrap).symm⟩
    · cases hok
  · cases hok

/-- **Every step** leaves the processes that have yielded with their flag set. -/
theorem Flags.step (hf : Flags t) (hok : t.step e = .ok t') : Flags t' := by
  cases e with
  | op o =>
    obtain ⟨s, hstep, hret⟩ := bind_eq_ok.1 hok
    obtain rfl := Except.ok.inj hret
    exact hf.goOn hstep
  | trapReturn =>
    obtain ⟨p, s, hp, hcase⟩ := trapReturn_cases hok
    rcases hcase with ⟨hpre, hstep, hyield, rfl⟩ | ⟨-, rfl, hstep | rfl⟩
    · -- the process that yields waits from now on, and the others still do
      obtain ⟨xs, hi⟩ := hf.inv
      obtain ⟨hi', habs⟩ := yield_refines hi hp hyield
      have hmode : s.mode = .scheduler (some p) := congrArg Abs.mode habs
      have hst : (s.abs.procs p).status = .runnable := by simp [habs]
      refine ⟨⟨xs, hi'⟩, fun y hy => ?_⟩
      by_cases hyp : y = p
      · subst hyp
        have hflag : (t.sys.procs y).preempted = true := by
          unfold preempts at hpre
          simp_all
        exact ⟨hst, ((Kept.refl _).yield hyield).preempted y hflag, by rw [hmode]; nofun⟩
      · have hold : t.yielded y = true := by simpa [hyp] using hy
        have hm : s.mode ≠ .process y := by
          rw [hmode]
          nofun
        obtain ⟨hst', hflag⟩ := hf.waits hstep hold hm
        exact ⟨hst', hflag, hm⟩
    · exact hf.goOn hstep
    · -- nothing happens, and the process that runs was not waiting
      refine ⟨by rw [goOn_sys]; exact hf.inv, fun y hy => ?_⟩
      rw [goOn_sys]
      exact hf.yielded y (goOn_yielded hy).1

/-- **The flag is still set** when a process resumes that has yielded for it. -/
theorem Flags.resumes (hf : Flags t) (hok : t.step e = .ok t') (hr : Resumes t t' = true) :
    t'.flag = true := by
  obtain ⟨xs, hi⟩ := hf.inv
  unfold Resumes at hr
  unfold Traps.flag
  cases hm : t'.sys.mode with
  | scheduler q => simp [hm] at hr
  | process p =>
    rw [hm] at hr
    obtain ⟨hst, hflag, hwait⟩ := hf.yielded p hr
    have hfree : (t.sys.procs p).status ≠ .free := by simp [hst]
    cases e with
    | op o =>
      obtain ⟨s, hstep, hret⟩ := bind_eq_ok.1 hok
      obtain rfl := Except.ok.inj hret
      rw [goOn_sys]
      exact step_preempted hi hstep hfree hflag
    | trapReturn =>
      obtain ⟨q, s, hq, hcase⟩ := trapReturn_cases hok
      rcases hcase with ⟨-, -, hyield, rfl⟩ | ⟨-, rfl, hstep | rfl⟩
      · -- after a yield the scheduler runs, and nobody resumes
        cases hm.symm.trans (congrArg Abs.mode (yield_refines hi hq hyield).2)
      · rw [goOn_sys]
        exact step_preempted hi hstep hfree hflag
      · rw [goOn_sys] at hm
        exact absurd hm hwait

/-- Without a yield for the flag nobody waits. -/
theorem step_unyielded (hC : ReturnsClear t e) (hnone : ∀ y, t.yielded y = false)
    (hok : t.step e = .ok t') : ∀ y, t'.yielded y = false := by
  have hgoOn : ∀ s y, (t.goOn s).yielded y = false := by
    intro s y
    by_contra hy
    have hold := (goOn_yielded (Bool.eq_true_of_not_eq_false hy)).1
    exact Bool.false_ne_true ((hnone y).symm.trans hold)
  cases e with
  | op o =>
    obtain ⟨s, _, hret⟩ := bind_eq_ok.1 hok
    obtain rfl := Except.ok.inj hret
    exact hgoOn s
  | trapReturn =>
    obtain ⟨p, s, hp, hcase⟩ := trapReturn_cases hok
    rcases hcase with ⟨hpre, -⟩ | ⟨-, rfl, -⟩
    · have hclear := hC rfl
      rw [hp] at hclear
      exact absurd (hclear.symm.trans hpre) Bool.false_ne_true
    · exact hgoOn s

end

theorem boot_flags {t : Traps} (hboot : Traps.boot = .ok t) : Flags t ∧ ∀ y, t.yielded y = false := by
  obtain ⟨s, hfirst, hret⟩ := bind_eq_ok.1 hboot
  obtain rfl := Except.ok.inj hret
  exact ⟨⟨(boot_inv hfirst).1, nofun⟩, fun _ => rfl⟩

/-- **A preemption request is honoured once** in every run in which no trap returns with the flag set;
    in every run at all, the flag is still set when a process resumes that has yielded for it. -/
theorem preempted_of_run {t : Traps} (es : List TrapOp) (hboot : Traps.boot = .ok t) :
    (Meets Traps.step ReturnsClear t es → Throughout Traps.step Honoured t es) ∧
      Throughout Traps.step (fun t _ t' => Resumes t t' = true → t'.flag = true) t es := by
  obtain ⟨hf, hnone⟩ := boot_flags hboot
  constructor
  · refine throughout_of_meets (fun t => ∀ y, t.yielded y = false) ?_ hnone
    intro t e t' hnone hC hok
    refine ⟨fun hr => ?_, step_unyielded hC hnone hok⟩
    unfold Resumes at hr
    split at hr
    · exact absurd hr (by simp [hnone])
    · cases hr
  · refine throughout_of_meets Flags ?_ hf (C := fun _ _ => True) (Meets.of_forall fun _ _ => trivial)
    exact fun t e t' hf _ hok => ⟨hf.resumes hok, hf.step hok⟩

/-- A process is woken up that is no better than the one that runs. -/
theorem preempted_of_run_sample : ∃ t, Traps.boot = .ok t ∧ Throughout Traps.step Honoured t
    [.op .schedule, .op (.clone ⟨true, true, true⟩), .op (.cloneFinish true), .op (.sleep 5),
      .op .schedule, .op (.wakeup 5), .trapReturn, .op .yield, .op .schedule, .trapReturn] := by
  obtain ⟨t, hboot, hC⟩ : ∃ t, Traps.boot = .ok t ∧ Meets Traps.step ReturnsClear t
      [.op .schedule, .op (.clone ⟨true, true, true⟩), .op (.cloneFinish true), .op (.sleep 5),
        .op .schedule, .op (.wakeup 5), .trapReturn, .op .yield, .op .schedule, .trapReturn] :=
    exists_eq_ok_and (by decide +kernel)
  exact ⟨t, hboot, (preempted_of_run _ hboot).1 hC⟩

/-- **The request is honoured again and again**: the child has become worse than its father by the time
    that the father wakes up. It yields at the end of the trap, and resumes when the father sleeps again,
    with the flag still set. -/
theorem preempted_again :
    ¬ ∀ es t, Traps.boot = .ok t → Throughout Traps.step Honoured t es := by
  intro h
  obtain ⟨t, hboot, hrun⟩ : ∃ t, Traps.boot = .ok t ∧
      ([.op .schedule, .op (.clone ⟨true, true, true⟩), .op (.cloneFinish true), .op (.sleep 5),
        .op .schedule, .op .yield, .op .schedule, .op .yield, .op .schedule, .op (.wakeup 5),
        .trapReturn, .op .schedule, .op (.sleep 5)].foldlM Traps.step t).toOption.any (fun u =>
          decide ((u.step (.op .schedule)).toOption.any (fun u' =>
            decide (Resumes u u' = true ∧ u'.flag = true)) = true)) = true :=
    exists_eq_ok_and (by decide +kernel)
  obtain ⟨u, hrun, hlast⟩ := exists_eq_ok_and hrun
  obtain ⟨u', hstep, hresumes, hflag⟩ := exists_eq_ok_and hlast
  have hclear := (h _ t hboot).last hrun hstep hresumes
  exact Bool.false_ne_true (hclear.symm.trans hflag)

end WeiOS.Sched
