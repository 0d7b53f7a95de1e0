import Mathlib
import WeiOS.Process.SchedLists
import WeiOS.Process.SchedModel

/-!
# The Scheduling Invariant

The node `kinds_list` of a descriptor is on at most one list: a running process is on none, a runnable
one on the run queue that its `proc_queue` names, a sleeping one on a wait list, a free one in the
descriptor cache. Every section of `proc_table_lock` keeps this, also the one in which the scheduler
puts a process back that an interrupt has woken up in the meantime.

## Main results
- `step_refines`: every step keeps the invariant, and is a step of the abstract machine.
- `schedOk_of_run`: where the nodes are, after every run from boot.
-/

namespace WeiOS.Sched

open WeiOS.Lib

/-! ## §1 The invariant -/

/-- The lists, and what the running process, the process that was made last and `rootproc` look like. -/
structure Inv (s : Sys) (xs : Head → List Nat) : Prop where
  queued : Queued none s xs
  unborn : ∀ y, s.nDescs ≤ y → (s.procs y).status = .free
  chan : ∀ c y, y ∈ xs (.chan c) → (s.conts y).alone = false
  alone : ∀ o y, y ∈ xs (.sleepAlone o) → (s.conts y).alone = true
  cur : ∀ p, s.mode = .process p → (s.procs p).status = .running ∨
    (s.procs p).status = .zomble ∧ s.conts p = .exit
  root : (s.procs s.rootproc).status ≠ .free ∧ (s.procs s.rootproc).status ≠ .zomble
  son : ∀ p y, s.conts p = .clone y → (s.procs y).status = .runnable ∧
    (s.procs y).procQueue = none ∧ s.mode ≠ .process y ∧ s.mode ≠ .scheduler (some y) ∧
    ∀ p', s.conts p' = .clone y → p' = p

section
variable {s s' : Sys} {xs xs' : Head → List Nat} {p y : Nat} {h : Head} {o : Op}

theorem Inv.lt_nDescs (hi : Inv s xs) (hy : (s.procs y).status ≠ .free) : y < s.nDescs := by
  by_contra hle
  exact hy (hi.unborn y (Nat.le_of_not_lt hle))

/-- The running process is neither asleep nor free, and on no list. -/
theorem Inv.cur_status (hi : Inv s xs) (hp : s.mode = .process p) :
    (s.procs p).status ≠ .sleeping ∧ (s.procs p).status ≠ .free ∧ (s.procs p).status ≠ .runnable := by
  rcases hi.cur p hp with hst | ⟨hst, _⟩
  · simp [hst]
  · simp [hst]

theorem Inv.cur_off (hi : Inv s xs) (hp : s.mode = .process p) (h : Head) : p ∉ xs h := by
  intro hmem
  have hon := (hi.queued.on h p hmem).2.2
  obtain ⟨hsleep, hfree, hrun⟩ := hi.cur_status hp
  cases h with
  | procsInQueue q k => exact hrun hon.1
  | sleepAlone o => exact hsleep hon.1
  | chan c => exact hsleep hon.1
  | procsDescCache => exact hfree hon.1

theorem Inv.cur_queue (hi : Inv s xs) (hp : s.mode = .process p) :
    (s.procs p).procQueue = none := (hi.queued.off p (hi.cur_off hp)).1

theorem Inv.cur_lt (hi : Inv s xs) (hp : s.mode = .process p) : p < s.nDescs :=
  hi.lt_nDescs (hi.cur_status hp).2.1

/-- Only a process inside of `exit` runs without being RUNNING. -/
theorem Inv.running (hi : Inv s xs) (hp : s.mode = .process p) (hc : s.conts p ≠ .exit) :
    (s.procs p).status = .running := by
  rcases hi.cur p hp with hst | ⟨_, he⟩
  · exact hst
  · exact absurd he hc

/-- A process that is being made is on no list. -/
theorem Inv.son_off (hi : Inv s xs) (hy : s.conts p = .clone y) (h : Head) : y ∉ xs h := by
  obtain ⟨hst, hqueue, _⟩ := hi.son p y hy
  exact hi.queued.not_mem hqueue (by simp [hst]) (by simp [hst]) h

/-- Only fields that the invariant does not speak of are written. -/
theorem Inv.congr (hi : Inv s xs) (hlinks : s'.links = s.links) (hqueues : s'.queues = s.queues)
    (hn : s'.nDescs = s.nDescs) (hmode : s'.mode = s.mode) (hconts : s'.conts = s.conts)
    (hroot : s'.rootproc = s.rootproc)
    (hprocs : ∀ y, (s'.procs y).status = (s.procs y).status ∧
      (s'.procs y).procQueue = (s.procs y).procQueue ∧
      (s'.procs y).priority = (s.procs y).priority) : Inv s' xs := by
  refine ⟨hi.queued.congr hlinks hqueues hn hprocs, ?_, ?_, ?_, ?_, ?_, ?_⟩
  · intro y hy
    rw [(hprocs y).1]
    exact hi.unborn y (hn ▸ hy)
  · rw [hconts]
    exact hi.chan
  · rw [hconts]
    exact hi.alone
  · intro p hp
    rw [(hprocs p).1, hconts]
    exact hi.cur p (hmode ▸ hp)
  · rw [hroot, (hprocs _).1]
    exact hi.root
  · intro p y hy
    rw [hconts] at hy
    rw [(hprocs y).1, (hprocs y).2.1, hmode, hconts]
    exact hi.son p y hy

/-- **Processes are taken off their wait lists** and made runnable; all others stay as they are. -/
theorem Inv.listed (hi : Inv s xs) (hq : Queued none s' xs')
    (hmoved : s' = s.moved s'.links s'.queues s'.procs)
    (hst : ∀ y, ((∃ h, y ∈ xs h) ∧ (s'.procs y).status = .runnable) ∨
      (s'.procs y).status = (s.procs y).status ∧
        (s'.procs y).procQueue = (s.procs y).procQueue)
    (hwaits : ∀ h y, (∀ q k, h ≠ .procsInQueue q k) → y ∈ xs' h → y ∈ xs h) : Inv s' xs' := by
  have hmode : s'.mode = s.mode := by rw [hmoved]; rfl
  have hconts : s'.conts = s.conts := by rw [hmoved]; rfl
  have hroot : s'.rootproc = s.rootproc := by rw [hmoved]; rfl
  have hn : s'.nDescs = s.nDescs := by rw [hmoved]; rfl
  -- a process that is on no list is not touched
  have hoff : ∀ y, (∀ h, y ∉ xs h) → (s'.procs y).status = (s.procs y).status ∧
      (s'.procs y).procQueue = (s.procs y).procQueue := by
    intro y hy
    rcases hst y with ⟨⟨h, hmem⟩, _⟩ | hsame
    · exact absurd hmem (hy h)
    · exact hsame
  refine ⟨hq, ?_, ?_, ?_, ?_, ?_, ?_⟩
  · intro y hy
    rw [hn] at hy
    rw [(hoff y fun h hmem => Nat.lt_irrefl y (Nat.lt_of_lt_of_le (hi.queued.on h y hmem).1 hy)).1]
    exact hi.unborn y hy
  · intro c y hy
    rw [hconts]
    exact hi.chan c y (hwaits _ y (by simp) hy)
  · intro o y hy
    rw [hconts]
    exact hi.alone o y (hwaits _ y (by simp) hy)
  · intro p hp
    rw [hmode] at hp
    rw [(hoff p (hi.cur_off hp)).1, hconts]
    exact hi.cur p hp
  · rw [hroot]
    rcases hst s.rootproc with ⟨_, hrun⟩ | ⟨hsame, _⟩
    · rw [hrun]
      simp
    · rw [hsame]
      exact hi.root
  · intro p y hy
    rw [hconts] at hy
    obtain ⟨hsame, hqueue⟩ := hoff y (hi.son_off hy)
    rw [hsame, hqueue, hmode, hconts]
    exact hi.son p y hy

/-- **The running process leaves**, for the scheduler. -/
theorem Inv.leave (hi : Inv s xs) (hp : s.mode = .process p) (hq : Queued none s' xs')
    {c : Cont} (hmode : s'.mode = .scheduler (some p)) (hconts : s'.conts = Function.update s.conts p c)
    (hroot : s'.rootproc = s.rootproc) (hn : s'.nDescs = s.nDescs)
    (hother : ∀ y, y ≠ p → (s'.procs y).status = (s.procs y).status ∧
      (s'.procs y).procQueue = (s.procs y).procQueue)
    (hfree : (s'.procs p).status ≠ .free)
    (hzomble : (s'.procs p).status = .zomble → p ≠ s.rootproc)
    (hc : c = s.conts p ∨ ∀ y, c ≠ .clone y)
    (hmem : ∀ h y, y ≠ p → (∀ q k, h ≠ .procsInQueue q k) → y ∈ xs' h → y ∈ xs h)
    (hchan : ∀ k, p ∈ xs' (.chan k) → c.alone = false)
    (halone : ∀ o, p ∈ xs' (.sleepAlone o) → c.alone = true) : Inv s' xs' := by
  refine ⟨hq, ?_, ?_, ?_, ?_, ?_, ?_⟩
  · intro y hy
    rw [hn] at hy
    have hyp : y ≠ p := Nat.ne_of_gt (Nat.lt_of_lt_of_le (hi.cur_lt hp) hy)
    rw [(hother y hyp).1]
    exact hi.unborn y hy
  · intro k y hy
    rw [hconts]
    by_cases hyp : y = p
    · rw [hyp] at hy ⊢
      rw [Function.update_self]
      exact hchan k hy
    · rw [Function.update_of_ne hyp]
      exact hi.chan k y (hmem _ y hyp (by simp) hy)
  · intro o y hy
    rw [hconts]
    by_cases hyp : y = p
    · rw [hyp] at hy ⊢
      rw [Function.update_self]
      exact halone o hy
    · rw [Function.update_of_ne hyp]
      exact hi.alone o y (hmem _ y hyp (by simp) hy)
  · intro q hq'
    rw [hmode] at hq'
    cases hq'
  · rw [hroot]
    by_cases hrp : s.rootproc = p
    · rw [hrp]
      exact ⟨hfree, fun hz => hzomble hz hrp.symm⟩
    · rw [(hother _ hrp).1]
      exact hi.root
  · intro q y hy
    -- a process is inside of `clone` with `y` after the step only if it was before
    have hold : ∀ r, s'.conts r = .clone y → s.conts r = .clone y := by
      intro r hr
      rw [hconts] at hr
      by_cases hrp : r = p
      · rw [hrp, Function.update_self] at hr
        rcases hc with hc | hc
        · rw [hrp, ← hc, hr]
        · exact absurd hr (hc y)
      · rwa [Function.update_of_ne hrp] at hr
    obtain ⟨hst, hqueue, hnot, _, huniq⟩ := hi.son q y (hold q hy)
    have hyp : y ≠ p := by
      rintro rfl
      exact hnot hp
    refine ⟨(hother y hyp).1.trans hst, (hother y hyp).2.trans hqueue, by simp [hmode], ?_, ?_⟩
    · rw [hmode]
      simpa using Ne.symm hyp
    · exact fun r hr => huniq r (hold r hr)

/-! ## §2 Wake-ups and switches -/

theorem view_congr {P Q : Proc} (hst : P.status = Q.status) (hdata : P.data = Q.data) :
    P.view = Q.view := by
  have hP : P.view = { P.data with status := P.status } := rfl
  have hQ : Q.view = { Q.data with status := Q.status } := rfl
  rw [hP, hQ, hst, hdata]

/-- An abstract state, field by field. -/
theorem Abs.ext_procs {a b : Abs} (hprocs : ∀ y, a.procs y = b.procs y) (hcont : a.cont = b.cont)
    (hmode : a.mode = b.mode) (htable : a.procTable = b.procTable) (hroot : a.rootproc = b.rootproc) :
    a = b := by
  cases a
  cases b
  simp only [Abs.mk.injEq]
  exact ⟨funext hprocs, hcont, hmode, htable, hroot⟩

/-- A wake-up keeps the invariant and wakes the processes of the list. -/
theorem Inv.woken (hi : Inv s xs) (hwk : Woken h s xs s' xs')
    (hw : (∃ o, h = .sleepAlone o) ∨ ∃ c, h = .chan c) :
    Inv s' xs' ∧ Wakes (fun y => y ∈ xs h) s.abs s'.abs := by
  constructor
  · apply hi.listed hwk.queued hwk.moved
    · intro y
      by_cases hy : y ∈ xs h
      · exact Or.inl ⟨⟨h, hy⟩, hwk.runnable y hy⟩
      · exact Or.inr ⟨hwk.status y hy, hwk.queue y hy⟩
    · exact hwk.waits
  · constructor
    · intro y hy
      have hon := (hi.queued.on h y hy).2.2
      have hst : (s.procs y).status = .sleeping := by
        rcases hw with ⟨o, rfl⟩ | ⟨c, rfl⟩
        · exact hon.1
        · exact hon.1
      refine ⟨hst, ?_⟩
      show (s'.procs y).view = { (s.procs y).view with status := .runnable }
      have hview : (s'.procs y).view = { (s'.procs y).data with status := (s'.procs y).status } := rfl
      rw [hview, hwk.data y, hwk.runnable y hy]
      rfl
    · intro y hy
      exact view_congr (hwk.status y hy) (hwk.data y)
    · rw [hwk.moved]
      rfl

theorem wakeup_refines (hi : Inv s xs) {c : Nat} (hstep : wakeup1 s (.chan c) = .ok s') :
    ∃ xs', Inv s' xs' ∧ AStep s.abs (.wakeup c) s'.abs := by
  obtain ⟨t, xs', hok, hwk⟩ := wakeup1_spec hi.queued (h := .chan c) trivial (by simp) (by simp)
  obtain rfl := Except.ok.inj (hok.symm.trans hstep)
  obtain ⟨hinv, hwakes⟩ := hi.woken hwk (Or.inr ⟨c, rfl⟩)
  exact ⟨xs', hinv, .wakeup (fun y hy => hi.chan c y hy) hwakes⟩

/-- `sleep_alone` holds its owner when it sleeps in one of the two calls, and nobody otherwise. -/
theorem Inv.mem_alone_iff (hi : Inv s xs) (o y : Nat) :
    y ∈ xs (.sleepAlone o) ↔ y = o ∧ (s.procs o).status = .sleeping ∧ (s.conts o).alone = true := by
  constructor
  · intro hy
    have hon := (hi.queued.on _ y hy).2.2
    obtain ⟨hst, _, rfl⟩ := hon
    exact ⟨rfl, hst, hi.alone _ y hy⟩
  · rintro ⟨rfl, hst, halone⟩
    have hlisted : ∃ h, y ∈ xs h := by
      by_contra hnone
      exact (hi.queued.off y fun h hmem => hnone ⟨h, hmem⟩).2 (by simp) hst
    obtain ⟨h, hmem⟩ := hlisted
    have hon := (hi.queued.on h y hmem).2.2
    cases h with
    | procsInQueue q k => simp [OnHead, hst] at hon
    | sleepAlone o =>
      obtain ⟨_, _, rfl⟩ := hon
      exact hmem
    | chan c =>
      have := hi.chan c y hmem
      rw [halone] at this
      cases this
    | procsDescCache => simp [OnHead, hst] at hon

theorem wakeAlone_refines (hi : Inv s xs) (hstep : wakeup1 s (.sleepAlone y) = .ok s') :
    ∃ xs', Inv s' xs' ∧ s'.abs = s.abs.wakeAlone y := by
  by_cases hy : (s.procs y).status = .free
  · obtain rfl := wakeup1_idle hi.queued (by simp [Inited, hy]) hstep
    refine ⟨xs, hi, ?_⟩
    have hawake : ¬ ((s'.abs.procs y).status = .sleeping ∧ (s'.abs.cont y).alone) := by
      rintro ⟨hst, _⟩
      have hst' : (s'.procs y).status = .sleeping := hst
      simp [hy] at hst'
    rw [Abs.wakeAlone, if_neg hawake]
  obtain ⟨t, xs', hok, hwk⟩ := wakeup1_spec hi.queued (h := .sleepAlone y) ⟨hi.lt_nDescs hy, hy⟩
    (by simp) (by simp)
  obtain rfl := Except.ok.inj (hok.symm.trans hstep)
  obtain ⟨hinv, hwakes⟩ := hi.woken hwk (Or.inl ⟨y, rfl⟩)
  refine ⟨xs', hinv, ?_⟩
  rw [hwakes.rest, Abs.wakeAlone]
  split
  · next hasleep =>
    refine Abs.ext_procs ?_ rfl rfl rfl rfl
    intro z
    by_cases hzy : z = y
    · subst hzy
      have hmem : z ∈ xs (.sleepAlone z) := (hi.mem_alone_iff z z).2 ⟨rfl, hasleep⟩
      simpa [Abs.setProc] using (hwakes.woken z hmem).2
    · have hmem : z ∉ xs (.sleepAlone y) := fun hm => hzy ((hi.mem_alone_iff y z).1 hm).1
      simpa [Abs.setProc, hzy] using hwakes.other z hmem
  · next hawake =>
    refine Abs.ext_procs ?_ rfl rfl rfl rfl
    intro z
    have hmem : z ∉ xs (.sleepAlone y) := fun hm => hawake ((hi.mem_alone_iff y z).1 hm).2
    simpa using hwakes.other z hmem

/-- `sched` out of a process that stays off the lists. -/
theorem sched_refines (hi : Inv s xs) (hp : s.mode = .process p) {st : Status} {c : Cont}
    (hst : st ≠ .sleeping) (hfree : st ≠ .free) (hzomble : st = .zomble → p ≠ s.rootproc)
    (hc : c = s.conts p ∨ ∀ y, c ≠ .clone y) :
    Inv { (s.setProc p fun P => { P with status := st }).goto p c with
        mode := .scheduler (some p) } xs ∧
      Sys.abs { (s.setProc p fun P => { P with status := st }).goto p c with
        mode := .scheduler (some p) } = s.abs.leave p st c := by
  have hset := ((hi.queued.take (hi.cur_off hp)).setProc (fun P => { P with status := st })
    (by simp [hfree, (hi.cur_status hp).2.1]) (hi.cur_queue hp) (hi.queued.prio p)).letGo
      (by simpa [Sys.setProc] using hst)
  constructor
  · refine hi.leave hp (hset.congr rfl rfl rfl fun _ => ⟨rfl, rfl, rfl⟩) rfl rfl rfl rfl
      ?_ ?_ ?_ ?_ ?_ ?_ ?_
    · intro y hyp
      simp [Sys.setProc, Sys.goto, hyp]
    · simpa [Sys.setProc, Sys.goto] using hfree
    · simpa [Sys.setProc, Sys.goto] using hzomble
    · exact hc
    · exact fun _ _ _ _ hy => hy
    · exact fun k hk => absurd hk (hi.cur_off hp _)
    · exact fun o ho => absurd ho (hi.cur_off hp _)
  · refine Abs.ext_procs ?_ rfl rfl rfl rfl
    intro y
    by_cases hyp : y = p
    · subst hyp
      simp [Sys.abs, Abs.leave, Abs.setProc, Abs.goto, Sys.setProc, Sys.goto, Proc.view]
    · simp [Sys.abs, Abs.leave, Abs.setProc, Abs.goto, Sys.setProc, Sys.goto, hyp]

theorem yield_refines (hi : Inv s xs) (hp : s.mode = .process p) (hstep : yield s p = .ok s') :
    Inv s' xs ∧ s'.abs = s.abs.leave p .runnable (s.conts p) := by
  have hgoto : (s.setProc p fun P => { P with status := .runnable }).goto p (s.conts p) =
      s.setProc p fun P => { P with status := .runnable } := by
    simp [Sys.goto, Sys.setProc]
  have hs' : s' = { (s.setProc p fun P => { P with status := .runnable }).goto p (s.conts p) with
      mode := .scheduler (some p) } := by
    rw [hgoto]
    simpa [yield, sched, Sys.setProc] using hstep.symm
  rw [hs']
  exact sched_refines hi hp (by simp) (by simp) (by simp) (Or.inl rfl)

theorem tick_refines (hi : Inv s xs) (hp : s.mode = .process p) (hstep : tick s p = .ok s') :
    ∃ xs', Inv s' xs' ∧ AStep s.abs .tick s'.abs := by
  -- the counters of the timer do not matter
  have hcount : Inv (({ s with jiffs := (s.jiffs + 1) % 2 ^ 32 } : Sys).setProc p fun P => { P with
      sleepAvg := P.sleepAvg - 1
      timesliceLeft := (P.timesliceLeft + (2 ^ 32 - 1)) % 2 ^ 32 }) xs := by
    refine hi.congr rfl rfl rfl rfl rfl rfl ?_
    intro y
    by_cases hyp : y = p
    · simp [Sys.setProc, hyp]
    · simp [Sys.setProc, hyp]
  have habs : Sys.abs (({ s with jiffs := (s.jiffs + 1) % 2 ^ 32 } : Sys).setProc p fun P =>
      { P with
        sleepAvg := P.sleepAvg - 1
        timesliceLeft := (P.timesliceLeft + (2 ^ 32 - 1)) % 2 ^ 32 }) = s.abs := by
    refine Abs.ext_procs ?_ rfl rfl rfl rfl
    intro y
    by_cases hyp : y = p
    · subst hyp
      simp [Sys.abs, Sys.setProc, Proc.view]
    · simp [Sys.abs, Sys.setProc, hyp]
  unfold tick at hstep
  dsimp only at hstep
  split at hstep
  · obtain ⟨hinv, hleave⟩ := yield_refines hcount hp hstep
    rw [habs] at hleave
    rw [hleave]
    exact ⟨xs, hinv, .tickYield hp⟩
  · obtain rfl := Except.ok.inj hstep
    rw [habs]
    exact ⟨xs, hcount, .tick⟩

/-- `sleep`, on the list that the call asks for. -/
theorem sleep_refines (hi : Inv s xs) (hp : s.mode = .process p) {c : Cont}
    (hh : h = .sleepAlone p ∧ c.alone = true ∨ (∃ k, h = .chan k) ∧ c.alone = false)
    (hc : c = s.conts p ∨ ∀ y, c ≠ .clone y) (hstep : sleep s p h c = .ok s') :
    ∃ xs', Inv s' xs' ∧ s'.abs = s.abs.leave p .sleeping c := by
  have hst : (s.procs p).status = .running ∨ (s.procs p).status = .zomble :=
    (hi.cur p hp).imp id And.left
  have hlt := hi.cur_lt hp
  have hinited : Inited s h := by
    rcases hh with ⟨rfl, _⟩ | ⟨⟨k, rfl⟩, _⟩
    · exact ⟨hlt, (hi.cur_status hp).2.1⟩
    · trivial
  obtain ⟨xs', hq, hs', hxs⟩ := sleep_spec hi.queued hlt hst (hi.cur_queue hp) hinited
    (hh.imp And.left And.left) hstep
  have hlist : ∀ h', h' ≠ h → xs' h' = xs h' := by
    intro h' hne
    rw [hxs, Function.update_of_ne hne]
  refine ⟨xs', ?_, ?_⟩
  · apply hi.leave hp hq
    · rw [hs']
    · rw [hs']
      rfl
    · rw [hs']
      rfl
    · rw [hs']
      rfl
    · intro y hyp
      rw [hs']
      simp [Sys.moved, Sys.goto, hyp]
    · rw [hs']
      simp [Sys.moved, Sys.goto]
    · rw [hs']
      simp [Sys.moved, Sys.goto]
    · exact hc
    · intro h' y hyp _ hy
      rw [hxs] at hy
      exact (mem_append_iff hyp h h').1 hy
    · intro k hk
      rcases hh with ⟨rfl, _⟩ | ⟨_, hal⟩
      · rw [hlist _ (by simp)] at hk
        exact absurd hk (hi.cur_off hp _)
      · exact hal
    · intro o ho
      rcases hh with ⟨_, hal⟩ | ⟨⟨k, rfl⟩, _⟩
      · exact hal
      · rw [hlist _ (by simp)] at ho
        exact absurd ho (hi.cur_off hp _)
  · rw [hs']
    refine Abs.ext_procs ?_ rfl rfl rfl rfl
    intro y
    by_cases hyp : y = p
    · subst hyp
      simp [Sys.abs, Abs.leave, Abs.setProc, Abs.goto, Sys.moved, Sys.goto, Proc.view]
    · simp [Sys.abs, Abs.leave, Abs.setProc, Abs.goto, Sys.moved, Sys.goto, hyp]

/-! ## §3 The scheduler and `kill` -/

theorem requeue_refines (hi : Inv s xs) (hm : s.mode = .scheduler (some p))
    (hst : (s.procs p).status = .runnable) (hstep : requeue s p = .ok s') :
    ∃ xs', Inv s' xs' ∧ s'.abs = s.abs ∧ s'.mode = .scheduler (some p) := by
  obtain ⟨t, xs', hok, hq, hmoved, hother, hdata, hst', hlist⟩ :=
    requeue_spec hi.queued (hi.lt_nDescs (by simp [hst])) hst
  obtain rfl := Except.ok.inj (hok.symm.trans hstep)
  have hmode : t.mode = s.mode := by rw [hmoved]; rfl
  have hconts : t.conts = s.conts := by rw [hmoved]; rfl
  have hroot : t.rootproc = s.rootproc := by rw [hmoved]; rfl
  have hn : t.nDescs = s.nDescs := by rw [hmoved]; rfl
  have hstatus : ∀ y, (t.procs y).status = (s.procs y).status := by
    intro y
    by_cases hyp : y = p
    · rw [hyp, hst', hst]
    · rw [hother y hyp]
  refine ⟨xs', ⟨hq, ?_, ?_, ?_, ?_, ?_, ?_⟩, ?_, hmode.trans hm⟩
  · intro y hy
    rw [hstatus]
    exact hi.unborn y (hn ▸ hy)
  · intro c y hy
    rw [hconts]
    rw [hlist _ (by simp)] at hy
    exact hi.chan c y hy
  · intro o y hy
    rw [hconts]
    rw [hlist _ (by simp)] at hy
    exact hi.alone o y hy
  · intro r hr
    rw [hmode, hm] at hr
    cases hr
  · rw [hroot, hstatus]
    exact hi.root
  · intro r y hy
    rw [hconts] at hy
    -- a process that is being made is not the one that the scheduler comes from
    have hyp : y ≠ p := by
      rintro rfl
      exact (hi.son r y hy).2.2.2.1 hm
    rw [hother y hyp, hmode, hconts]
    exact hi.son r y hy
  · refine Abs.ext_procs ?_ hconts hmode ?_ hroot
    · intro y
      apply view_congr (hstatus y)
      by_cases hyp : y = p
      · rw [hyp]
        exact hdata
      · rw [hother y hyp]
    · show t.procTable = s.procTable
      rw [hmoved]
      rfl

theorem pick_refines (hi : Inv s xs) {q : Option Nat} (hm : s.mode = .scheduler q)
    (hstep : pick s = .ok s') : ∃ xs', Inv s' xs' ∧ AStep s.abs .schedule s'.abs := by
  rcases pick_spec hi.queued hstep with rfl | ⟨r, k, p, xs', hp, hq, hs', hlist⟩
  · refine ⟨xs, ⟨hi.queued.congr rfl rfl rfl fun _ => ⟨rfl, rfl, rfl⟩, hi.unborn, hi.chan, hi.alone,
      nofun, hi.root, ?_⟩, .idle hm⟩
    intro p y hy
    obtain ⟨hst, hqueue, _, _, huniq⟩ := hi.son p y hy
    exact ⟨hst, hqueue, nofun, nofun, huniq⟩
  · obtain ⟨hlt, _, hst, hqueue, _⟩ := hi.queued.on _ p hp
    have hmode : s'.mode = .process p := by rw [hs']
    have hconts : s'.conts = s.conts := by rw [hs']; rfl
    have hroot : s'.rootproc = s.rootproc := by rw [hs']; rfl
    have hn : s'.nDescs = s.nDescs := by rw [hs']; rfl
    have hprocs : s'.procs = Function.update s.procs p
        { s.procs p with status := .running, procQueue := none } := by rw [hs']; rfl
    have hother : ∀ y, y ≠ p → s'.procs y = s.procs y := by
      intro y hyp
      rw [hprocs, Function.update_of_ne hyp]
    refine ⟨xs', ⟨hq, ?_, ?_, ?_, ?_, ?_, ?_⟩, ?_⟩
    · intro y hy
      rw [hn] at hy
      rw [hother y (Nat.ne_of_gt (Nat.lt_of_lt_of_le hlt hy))]
      exact hi.unborn y hy
    · intro c y hy
      rw [hconts]
      rw [hlist _ (by simp)] at hy
      exact hi.chan c y hy
    · intro o y hy
      rw [hconts]
      rw [hlist _ (by simp)] at hy
      exact hi.alone o y hy
    · intro y hy
      rw [hmode] at hy
      obtain rfl := Mode.process.inj hy
      exact Or.inl (by simp [hprocs])
    · rw [hroot]
      by_cases hrp : s.rootproc = p
      · simp [hprocs, hrp]
      · rw [hother _ hrp]
        exact hi.root
    · intro c y hy
      rw [hconts] at hy
      obtain ⟨hsty, hqy, _, _, huniq⟩ := hi.son c y hy
      have hyp : y ≠ p := by
        rintro rfl
        rw [hqy] at hqueue
        cases hqueue
      rw [hother y hyp, hmode, hconts]
      exact ⟨hsty, hqy, by simpa using Ne.symm hyp, nofun, huniq⟩
    · have habs : s'.abs = s.abs.run p := by
        rw [hs']
        refine Abs.ext_procs ?_ rfl rfl rfl rfl
        intro y
        by_cases hyp : y = p
        · subst hyp
          simp [Sys.abs, Sys.moved, Proc.view]
        · simp [Sys.abs, Sys.moved, hyp]
      rw [habs]
      exact .pick hm hst

/-- **One turn of the scheduler.** -/
theorem schedule_refines (hi : Inv s xs) {q : Option Nat} (hm : s.mode = .scheduler q)
    (hstep : schedule s q = .ok s') : ∃ xs', Inv s' xs' ∧ AStep s.abs .schedule s'.abs := by
  have hswap : ∀ {t : Sys} {ys : Head → List Nat}, Inv t ys → Inv (swapQueues t) ys ∧
      (swapQueues t).abs = t.abs ∧ (swapQueues t).mode = t.mode := by
    intro t ys ht
    unfold swapQueues
    split
    · exact ⟨ht.congr rfl rfl rfl rfl rfl rfl fun _ => ⟨rfl, rfl, rfl⟩, rfl, rfl⟩
    · exact ⟨ht, rfl, rfl⟩
  -- whether or not a process was put back, the abstract state is the same
  have htail : ∀ {t : Sys} {ys : Head → List Nat}, Inv t ys → t.abs = s.abs → t.mode = .scheduler q →
      pick (swapQueues t) = .ok s' → ∃ xs', Inv s' xs' ∧ AStep s.abs .schedule s'.abs := by
    intro t ys ht habs hmt hpick
    obtain ⟨hsw, habs', hm'⟩ := hswap ht
    obtain ⟨xs', hinv, hstep⟩ := pick_refines hsw (hm'.trans hmt) hpick
    rw [habs', habs] at hstep
    exact ⟨xs', hinv, hstep⟩
  unfold schedule at hstep
  cases q with
  | none => exact htail hi rfl hm hstep
  | some p =>
    dsimp only at hstep
    split at hstep
    · next hst =>
      obtain ⟨t, hre, hpick⟩ := bind_eq_ok.1 hstep
      obtain ⟨ys, hinv, habs, hmt⟩ := requeue_refines hi hm hst hre
      exact htail hinv habs hmt hpick
    · exact htail hi rfl hm hstep

theorem kill_refines (hi : Inv s xs) {pid : Nat} {check : Bool} (hp : s.mode = .process p)
    (hc : s.conts p = .run) (hstep : kill s p pid check = .ok s') :
    ∃ xs', Inv s' xs' ∧ AStep s.abs (.kill pid check) s'.abs := by
  unfold kill at hstep
  split at hstep
  · obtain rfl := Except.ok.inj hstep
    exact ⟨xs, hi, .killNone⟩
  obtain ⟨r, hlook, hstep⟩ := bind_eq_ok.1 hstep
  cases r with
  | none =>
    obtain rfl := Except.ok.inj hstep
    exact ⟨xs, hi, .killNone⟩
  | some y =>
    obtain ⟨xs', hq, hmoved, hother, hdata, hawake, hasleep, hwaits⟩ := killProc_spec hi.queued hstep
    refine ⟨xs', ?_, ?_⟩
    · apply hi.listed hq hmoved _ hwaits
      intro z
      by_cases hzy : z = y
      · subst hzy
        by_cases hst : (s.procs z).status = .sleeping
        · left
          refine ⟨?_, hasleep hst⟩
          by_contra hnone
          exact (hi.queued.off z fun h hmem => hnone ⟨h, hmem⟩).2 (by simp) hst
        · exact Or.inr (hawake hst)
      · exact Or.inr (by simp [hother z hzy])
    · have habs : s'.abs = s.abs.kill y := by
        rw [hmoved]
        refine Abs.ext_procs ?_ rfl rfl rfl rfl
        intro z
        by_cases hzy : z = y
        · subst hzy
          have hview : (s'.procs z).view =
              { (s'.procs z).data with status := (s'.procs z).status } := rfl
          show (s'.procs z).view = _
          rw [hview, hdata]
          by_cases hst : (s.procs z).status = .sleeping
          · rw [hasleep hst]
            simp [Sys.abs, Abs.kill, Abs.setProc, Proc.view, Proc.data, hst]
          · rw [(hawake hst).1]
            simp [Sys.abs, Abs.kill, Abs.setProc, Proc.view, Proc.data, hst]
        · show (s'.procs z).view = _
          rw [hother z hzy]
          simp [Sys.abs, Abs.kill, Abs.setProc, hzy]
      rw [habs]
      exact .kill hp hc hlook

/-! ## §4 Creation -/

/-- Data of a process are written. -/
theorem Inv.setData (hi : Inv s xs) (p : Nat) (f : Proc → Proc)
    (hst : (f (s.procs p)).status = (s.procs p).status)
    (hqueue : (f (s.procs p)).procQueue = (s.procs p).procQueue)
    (hprio : (f (s.procs p)).priority = (s.procs p).priority) : Inv (s.setProc p f) xs := by
  refine hi.congr rfl rfl rfl rfl rfl rfl ?_
  intro y
  by_cases hyp : y = p
  · subst hyp
    simp [Sys.setProc, hst, hqueue, hprio]
  · simp [Sys.setProc, hyp]

theorem abs_setProc {f : Proc → Proc} (hf : (f (s.procs p)).view = f (s.procs p).view) :
    (s.setProc p f).abs = s.abs.setProc p f := by
  refine Abs.ext_procs ?_ rfl rfl rfl rfl
  intro y
  by_cases hyp : y = p
  · subst hyp
    simp [Sys.abs, Abs.setProc, Sys.setProc, hf]
  · simp [Sys.abs, Abs.setProc, Sys.setProc, hyp]

/-- The running process goes into another call, or out of one. -/
theorem Inv.goto (hi : Inv s xs) (hp : s.mode = .process p) {c : Cont} (hc : ∀ y, c ≠ .clone y)
    (hz : (s.procs p).status = .running) : Inv (s.goto p c) xs := by
  have hold : ∀ r y, (s.goto p c).conts r = .clone y → s.conts r = .clone y := by
    intro r y hr
    by_cases hrp : r = p
    · rw [hrp] at hr
      exact absurd (by simpa [Sys.goto] using hr) (hc y)
    · simpa [Sys.goto, hrp] using hr
  refine ⟨hi.queued.congr rfl rfl rfl fun _ => ⟨rfl, rfl, rfl⟩, hi.unborn, ?_, ?_, ?_, hi.root, ?_⟩
  · intro k y hy
    have hyp : y ≠ p := fun he => hi.cur_off hp _ (he ▸ hy)
    simpa [Sys.goto, hyp] using hi.chan k y hy
  · intro o y hy
    have hyp : y ≠ p := fun he => hi.cur_off hp _ (he ▸ hy)
    simpa [Sys.goto, hyp] using hi.alone o y hy
  · intro r hr
    obtain rfl := Mode.process.inj (hp.symm.trans hr)
    exact Or.inl hz
  · intro r y hr
    obtain ⟨hst, hqueue, hm, hm', huniq⟩ := hi.son r y (hold r y hr)
    exact ⟨hst, hqueue, hm, hm', fun r' hr' => huniq r' (hold r' y hr')⟩

/-- **A process that is no longer being made** goes on the run queue. -/
theorem Inv.ready (hi : Inv s xs) (hst : (s.procs y).status = .runnable)
    (hqueue : (s.procs y).procQueue = none) (hnone : ∀ r, s.conts r ≠ .clone y) {q : QueueId}
    (hstep : addProcToQueue s q y = .ok s') : ∃ xs', Inv s' xs' ∧ s'.abs = s.abs := by
  have hoff := hi.queued.not_mem hqueue (by simp [hst]) (by simp [hst])
  obtain ⟨t, xs', hok, hq, hmoved, hxs⟩ :=
    addProcToQueue_spec (hi.queued.take hoff) (hi.lt_nDescs (by simp [hst])) hst q
  obtain rfl := Except.ok.inj (hok.symm.trans hstep)
  have hprocs : t.procs = Function.update s.procs y { s.procs y with procQueue := some q } := by
    rw [hmoved]
    rfl
  have hother : ∀ z, z ≠ y → t.procs z = s.procs z := by
    intro z hz
    rw [hprocs, Function.update_of_ne hz]
  have hstatus : ∀ z, (t.procs z).status = (s.procs z).status := by
    intro z
    by_cases hz : z = y
    · subst hz
      simp [hprocs]
    · rw [hother z hz]
  have hlist : ∀ h, (∀ q k, h ≠ .procsInQueue q k) → xs' h = xs h := by
    intro h hh
    rw [hxs, Function.update_of_ne (hh _ _)]
  have hmode : t.mode = s.mode := by rw [hmoved]; rfl
  have hconts : t.conts = s.conts := by rw [hmoved]; rfl
  have hroot : t.rootproc = s.rootproc := by rw [hmoved]; rfl
  have hn : t.nDescs = s.nDescs := by rw [hmoved]; rfl
  refine ⟨xs', ⟨hq, ?_, ?_, ?_, ?_, ?_, ?_⟩, ?_⟩
  · intro z hz
    rw [hstatus]
    exact hi.unborn z (hn ▸ hz)
  · intro c z hz
    rw [hconts]
    rw [hlist _ (by simp)] at hz
    exact hi.chan c z hz
  · intro o z hz
    rw [hconts]
    rw [hlist _ (by simp)] at hz
    exact hi.alone o z hz
  · intro r hr
    rw [hstatus, hconts]
    exact hi.cur r (hmode ▸ hr)
  · rw [hroot, hstatus]
    exact hi.root
  · intro r z hz
    rw [hconts] at hz
    have hzy : z ≠ y := by
      rintro rfl
      exact hnone r hz
    rw [hother z hzy, hmode, hconts]
    exact hi.son r z hz
  · rw [hmoved]
    refine Abs.ext_procs ?_ rfl rfl rfl rfl
    intro z
    by_cases hz : z = y
    · subst hz
      simp [Sys.abs, Sys.moved, Proc.view]
    · simp [Sys.abs, Sys.moved, hz]

theorem cloneFinish_refines (hi : Inv s xs) {son : Nat} {ok : Bool} (hp : s.mode = .process p)
    (hc : s.conts p = .clone son) (hstep : cloneFinish s p son ok = .ok s') :
    ∃ xs', Inv s' xs' ∧ AStep s.abs (.cloneFinish ok) s'.abs := by
  have hrun := hi.running hp (by simp [hc])
  obtain ⟨hst, hqueue, _, _, huniq⟩ := hi.son p son hc
  cases ok with
  | false =>
    obtain rfl := Except.ok.inj hstep
    exact ⟨xs, hi.goto hp (by simp) hrun, .cloneAbort hp hc⟩
  | true =>
    have hdata := hi.setData p (fun P => { P with children := P.children ++ [son] }) rfl rfl rfl
    have hgone : ∀ r, ((s.setProc p fun P => { P with
        children := P.children ++ [son] }).goto p .run).conts r ≠ .clone son := by
      intro r hr
      by_cases hrp : r = p
      · subst hrp
        simp [Sys.goto] at hr
      · exact hrp (huniq r (by simpa [Sys.goto, Sys.setProc, hrp] using hr))
    have hson : son ≠ p := by
      rintro rfl
      simp [hst] at hrun
    have hgoto := hdata.goto (c := .run) hp (by simp) (by simp [Sys.setProc, hrun])
    obtain ⟨xs', hinv, habs⟩ := hgoto.ready (y := son) (by simp [Sys.goto, Sys.setProc, hson, hst])
      (by simp [Sys.goto, Sys.setProc, hson, hqueue]) hgone hstep
    refine ⟨xs', hinv, ?_⟩
    have hset : (s.setProc p fun P => { P with children := P.children ++ [son] }).abs =
        s.abs.setProc p fun P => { P with children := P.children ++ [son] } := abs_setProc rfl
    have hfin : s'.abs = (s.abs.setProc p fun P => { P with
        children := P.children ++ [son] }).goto p .run := by
      rw [habs, ← hset]
      rfl
    rw [hfin]
    exact .cloneFinish hp hc

/-- **A free descriptor** has been made a process, or has been given back. -/
theorem Inv.made (hi : Inv s xs) (hp : s.mode = .process p) (hq : Queued none s' xs')
    (hn : s.nDescs ≤ s'.nDescs) (hlt : y < s'.nDescs) (hmode : s'.mode = s.mode)
    (hroot : s'.rootproc = s.rootproc) (hfree : (s.procs y).status = .free)
    (hother : ∀ z, z ≠ y → (s'.procs z).status = (s.procs z).status ∧
      (s'.procs z).procQueue = (s.procs z).procQueue)
    (hwaits : ∀ h z, (∀ q k, h ≠ .procsInQueue q k) → h ≠ .procsDescCache → z ∈ xs' h → z ∈ xs h)
    (hy : ∀ h, y ∈ xs' h → h = .procsDescCache)
    (hconts : s'.conts = s.conts ∨ (s.procs p).status = .running ∧
      s'.conts = Function.update (Function.update s.conts y .run) p (.clone y) ∧
      (s'.procs y).status = .runnable ∧ (s'.procs y).procQueue = none) : Inv s' xs' := by
  have hyp : y ≠ p := by
    rintro rfl
    exact (hi.cur_status hp).2.1 hfree
  have hcont : ∀ z, z ≠ y → z ≠ p → s'.conts z = s.conts z := by
    intro z hzy hzp
    rcases hconts with he | ⟨_, he, _⟩
    · rw [he]
    · rw [he, Function.update_of_ne hzp, Function.update_of_ne hzy]
  have hwait : ∀ h z, (∀ q k, h ≠ .procsInQueue q k) → h ≠ .procsDescCache → z ∈ xs' h →
      z ∈ xs h ∧ s'.conts z = s.conts z := by
    intro h z hh hcache hz
    have hzy : z ≠ y := by
      rintro rfl
      exact hcache (hy h hz)
    have hmem := hwaits h z hh hcache hz
    exact ⟨hmem, hcont z hzy fun he => hi.cur_off hp h (he ▸ hmem)⟩
  refine ⟨hq, ?_, ?_, ?_, ?_, ?_, ?_⟩
  · intro z hz
    have hzy : z ≠ y := Nat.ne_of_gt (Nat.lt_of_lt_of_le hlt hz)
    rw [(hother z hzy).1]
    exact hi.unborn z (Nat.le_trans hn hz)
  · intro c z hz
    obtain ⟨hmem, hsame⟩ := hwait _ z (by simp) (by simp) hz
    rw [hsame]
    exact hi.chan c z hmem
  · intro o z hz
    obtain ⟨hmem, hsame⟩ := hwait _ z (by simp) (by simp) hz
    rw [hsame]
    exact hi.alone o z hmem
  · intro r hr
    rw [hmode] at hr
    obtain rfl := Mode.process.inj (hp.symm.trans hr)
    rw [(hother p (Ne.symm hyp)).1]
    rcases hconts with he | ⟨hrun, _⟩
    · rw [he]
      exact hi.cur p hp
    · exact Or.inl hrun
  · rw [hroot]
    have hry : s.rootproc ≠ y := by
      intro he
      exact hi.root.1 (he ▸ hfree)
    rw [(hother _ hry).1]
    exact hi.root
  · intro r z hr
    -- the processes that were being made already are not the new one
    have hold : ∀ r z, s.conts r = .clone z → (s'.procs z).status = .runnable ∧
        (s'.procs z).procQueue = none ∧ s'.mode ≠ .process z ∧ s'.mode ≠ .scheduler (some z) ∧
        z ≠ y := by
      intro r z hr
      obtain ⟨hst, hqueue, hm, hm', _⟩ := hi.son r z hr
      have hzy : z ≠ y := by
        rintro rfl
        simp [hfree] at hst
      rw [hmode]
      exact ⟨(hother z hzy).1.trans hst, (hother z hzy).2.trans hqueue, hm, hm', hzy⟩
    rcases hconts with he | ⟨_, he, hst, hqueue⟩
    · rw [he] at hr
      obtain ⟨h₁, h₂, h₃, h₄, _⟩ := hold r z hr
      exact ⟨h₁, h₂, h₃, h₄, fun r' hr' => (hi.son r z hr).2.2.2.2 r' (he ▸ hr')⟩
    · have hcases : ∀ r, s'.conts r = .clone z → (r = p ∧ z = y) ∨ s.conts r = .clone z := by
        intro r hr
        rw [he] at hr
        by_cases hrp : r = p
        · rw [hrp, Function.update_self] at hr
          exact Or.inl ⟨hrp, (Cont.clone.inj hr).symm⟩
        · rw [Function.update_of_ne hrp] at hr
          by_cases hry : r = y
          · rw [hry, Function.update_self] at hr
            cases hr
          · rw [Function.update_of_ne hry] at hr
            exact Or.inr hr
      by_cases hzy : z = y
      · rw [hzy]
        refine ⟨hst, hqueue, ?_, ?_, ?_⟩
        · rw [hmode, hp]
          simpa using Ne.symm hyp
        · rw [hmode, hp]
          nofun
        · intro r' hr'
          rw [← hzy] at hr'
          have hnone : ∀ r, s'.conts r = .clone z → r = p := by
            intro r hr
            rcases hcases r hr with ⟨hrp, _⟩ | hr
            · exact hrp
            · exact absurd hzy (hold r z hr).2.2.2.2
          rw [hnone r hr, hnone r' hr']
      · have hr₀ := (hcases r hr).resolve_left fun hc => hzy hc.2
        obtain ⟨h₁, h₂, h₃, h₄, _⟩ := hold r z hr₀
        refine ⟨h₁, h₂, h₃, h₄, fun r' hr' => ?_⟩
        exact (hi.son r z hr₀).2.2.2.2 r' ((hcases r' hr').resolve_left fun hc => hzy hc.2)

/-- What `get_proc_desc` hands out was free. -/
theorem Inv.desc_free (hi : Inv s xs) (hy : s.nDescs ≤ y ∨ (s.procs y).status = .free) :
    (s.procs y).status = .free := by
  rcases hy with hy | hy
  · exact hi.unborn y hy
  · exact hy

theorem getProcDesc_none {kmalloc : Bool} (hget : getProcDesc s kmalloc = .ok (none, s')) :
    s' = s := by
  unfold getProcDesc at hget
  split at hget
  · obtain ⟨t, _, hget⟩ := bind_eq_ok.1 hget
    cases hget
  · split at hget
    · cases hget
    · cases hget
      rfl
  · cases hget
  · cases hget

/-- A descriptor is taken, and given back before it has become a process. -/
theorem cloneFail_refines (hi : Inv s xs) {kmalloc : Bool} {r : AllocResults} {u : Sys}
    (hp : s.mode = .process p) (hget : getProcDesc s kmalloc = .ok (some y, u))
    (hstep : procDescDestroy u y = .ok s') : ∃ xs', Inv s' xs' ∧ AStep s.abs (.clone r) s'.abs := by
  obtain ⟨ys, hq, hlt, hn, hnew, hu, hsub⟩ := getProcDesc_spec hi.queued hget
  obtain ⟨xs', hq', hs', hlist⟩ := procDescDestroy_spec hq hlt hstep
  have hfree := hi.desc_free hnew
  have hprocs : u.procs = Function.update s.procs y Proc.zero := by rw [hu]; rfl
  have hother : ∀ z, z ≠ y → s'.procs z = s.procs z := by
    intro z hz
    rw [hs']
    simp [Sys.moved, Sys.freed, Sys.setProc, hprocs, hz]
  have hconts : s'.conts = s.conts := by
    rw [hs', hu]
    rfl
  have hmode : s'.mode = s.mode := by
    rw [hs', hu]
    rfl
  have hroot : s'.rootproc = s.rootproc := by
    rw [hs', hu]
    rfl
  have hn' : s'.nDescs = u.nDescs := by
    rw [hs']
    rfl
  have hcache : ∀ h, y ∈ xs' h → h = .procsDescCache := by
    intro h hmem
    by_contra hne
    rw [hlist h hne] at hmem
    exact hq.inHand h hmem
  refine ⟨xs', ?_, ?_⟩
  · apply hi.made hp hq' (hn' ▸ hn) (hn' ▸ hlt) hmode hroot hfree
    · exact fun z hz => by simp [hother z hz]
    · intro h z hh hne hz
      rw [hlist h hne] at hz
      exact hsub h z hh hz
    · exact hcache
    · exact Or.inl hconts
  · have habs : s'.abs = (s.abs.setProc y fun _ => { Proc.zero with status := .free }).enter 0 none := by
      refine Abs.ext_procs ?_ hconts hmode ?_ hroot
      · intro z
        by_cases hz : z = y
        · subst hz
          rw [hs']
          simp [Sys.abs, Sys.moved, Sys.freed, Sys.setProc, Abs.setProc, hprocs, Proc.view, Proc.zero]
        · simp [Sys.abs, Abs.setProc, hother z hz, hz]
      · show s'.procTable = _
        rw [hs', hprocs, hu]
        simp [Sys.abs, Sys.moved, Proc.zero]
    rw [habs]
    exact .cloneFail (by simpa [Sys.abs, Proc.view] using hfree)

/-- A process is made. -/
theorem cloneOk_refines (hi : Inv s xs) {kmalloc : Bool} {r : AllocResults} {u : Sys}
    (hp : s.mode = .process p) (hc : s.conts p = .run)
    (hget : getProcDesc s kmalloc = .ok (some y, u)) :
    ∃ xs', Inv ((dupProc (initProc u y) p y).goto p (.clone y)) xs' ∧
      AStep s.abs (.clone r) ((dupProc (initProc u y) p y).goto p (.clone y)).abs := by
  obtain ⟨ys, hq, hlt, hn, hnew, hu, hsub⟩ := getProcDesc_spec hi.queued hget
  have hfree := hi.desc_free hnew
  have hrun := hi.running hp (by simp [hc])
  have hyp : y ≠ p := by
    rintro rfl
    exact (hi.cur_status hp).2.1 hfree
  have hpy : p ≠ y := hyp.symm
  have hprocs : u.procs = Function.update s.procs y Proc.zero := by rw [hu]; rfl
  have hinit := initProc_spec hq hlt (by simp [hprocs, Proc.zero])
  -- the father gives half of its time slice to the son
  have hleft : Queued (some y) ((initProc u y).setProc p fun P =>
      { P with timesliceLeft := max (P.timesliceLeft / 2) 1 }) ys := by
    refine hinit.congr rfl rfl rfl ?_
    intro z
    by_cases hz : z = p
    · simp [Sys.setProc, hz]
    · simp [Sys.setProc, hz]
  have hmade := (hleft.setProc (fun P => { P with
    ppid := (s.procs p).pid
    status := .runnable
    timesliceLeft := max ((s.procs p).timesliceLeft / 2) 1
    timeslice := DEFAULT_TIMESLICE
    sleepAvg := (s.procs p).sleepAvg
    priority := DEFAULT_USER_PRIO }) (by simp [initProc, Sys.setProc, hyp])
    (by simp [initProc, Sys.setProc, hyp, hprocs, Proc.zero])
    (by simp [N_PRIORITY, DEFAULT_USER_PRIO])).letGo (by simp [Sys.setProc])
  have hq' : Queued none ((dupProc (initProc u y) p y).goto p (.clone y)) ys := by
    refine hmade.congr rfl rfl rfl ?_
    intro z
    by_cases hz : z = y
    · simp [dupProc, initProc, Sys.setProc, Sys.goto, hz]
    · by_cases hzp : z = p
      · simp [dupProc, initProc, Sys.setProc, Sys.goto, hzp, hpy]
      · simp [dupProc, initProc, Sys.setProc, Sys.goto, hz, hzp]
  have hconts : ((dupProc (initProc u y) p y).goto p (.clone y)).conts =
      Function.update (Function.update s.conts y .run) p (.clone y) := by rw [hu]; rfl
  have hmode : ((dupProc (initProc u y) p y).goto p (.clone y)).mode = s.mode := by rw [hu]; rfl
  have hroot : ((dupProc (initProc u y) p y).goto p (.clone y)).rootproc = s.rootproc := by
    rw [hu]
    rfl
  have htable : ((dupProc (initProc u y) p y).goto p (.clone y)).procTable =
      Function.update s.procTable (Process.getPid u.idBitmap).1 (some y) := by
    rw [hu]
    rfl
  refine ⟨ys, ?_, ?_⟩
  · apply hi.made hp hq' hn hlt hmode hroot hfree
    · intro z hz
      by_cases hzp : z = p
      · simp [dupProc, initProc, Sys.setProc, Sys.goto, hzp, hpy, hprocs]
      · simp [dupProc, initProc, Sys.setProc, Sys.goto, hz, hzp, hprocs]
    · exact fun h z hh _ hz => hsub h z hh hz
    · exact fun h hmem => absurd hmem (hq.inHand h)
    · refine Or.inr ⟨hrun, hconts, ?_, ?_⟩
      · simp [dupProc, Sys.setProc, Sys.goto]
      · simp [dupProc, initProc, Sys.setProc, Sys.goto, hyp, hprocs, Proc.zero]
  · have habs : ((dupProc (initProc u y) p y).goto p (.clone y)).abs =
        (((s.abs.setProc y fun _ => { Proc.zero with
            pid := (Process.getPid u.idBitmap).1
            ppid := (s.abs.procs p).pid }).goto y .run).goto p (.clone y)).enter
          (Process.getPid u.idBitmap).1 (some y) := by
      refine Abs.ext_procs ?_ hconts hmode htable hroot
      intro z
      by_cases hz : z = y
      · simp [Sys.abs, dupProc, initProc, Sys.setProc, Sys.goto, Abs.setProc, Abs.goto, Proc.view,
          hz, hyp, hpy, hprocs, Proc.zero]
      · by_cases hzp : z = p
        · simp [Sys.abs, dupProc, initProc, Sys.setProc, Sys.goto, Abs.setProc, Abs.goto, Proc.view,
            hzp, hpy, hprocs]
        · simp [Sys.abs, dupProc, initProc, Sys.setProc, Sys.goto, Abs.setProc, Abs.goto, Proc.view,
            hz, hzp, hprocs]
    rw [habs]
    exact .clone hp hc (by simpa [Sys.abs, Proc.view] using hfree)

/-- What `clone` may do: nothing, or to take a descriptor, which it gives back or makes the son. -/
theorem clone_cases {r : AllocResults} (hok : clone s p r = .ok s') :
    s' = s ∨ ∃ d u, getProcDesc s r.kmalloc = .ok (some d, u) ∧
      (procDescDestroy u d = .ok s' ∨ s' = (dupProc (initProc u d) p d).goto p (.clone d)) := by
  unfold clone procAlloc at hok
  split at hok
  · -- there are too many processes
    simp only [bind, Except.bind] at hok
    split at hok
    · cases hok
    · obtain rfl := Except.ok.inj hok
      exact Or.inl rfl
  obtain ⟨⟨v, e⟩, halloc, hret⟩ := bind_eq_ok.1 hok
  obtain ⟨⟨d, u⟩, hget, hdesc⟩ := bind_eq_ok.1 halloc
  cases d with
  | none =>
    obtain ⟨rfl, rfl⟩ := Prod.mk.inj (Except.ok.inj hdesc)
    obtain rfl := getProcDesc_none hget
    obtain rfl := Except.ok.inj hret
    exact Or.inl rfl
  | some d =>
    refine Or.inr ⟨d, u, hget, ?_⟩
    dsimp only at hdesc
    split at hdesc
    · obtain ⟨w, hdestroy, hdesc⟩ := bind_eq_ok.1 hdesc
      obtain ⟨rfl, rfl⟩ := Prod.mk.inj (Except.ok.inj hdesc)
      obtain rfl := Except.ok.inj hret
      exact Or.inl hdestroy
    · split at hdesc
      · -- the caller goes on with a pointer that was never stored
        obtain ⟨w, _, hdesc⟩ := bind_eq_ok.1 hdesc
        obtain ⟨rfl, rfl⟩ := Prod.mk.inj (Except.ok.inj hdesc)
        cases hret
      · obtain ⟨rfl, rfl⟩ := Prod.mk.inj (Except.ok.inj hdesc)
        obtain rfl := Except.ok.inj hret
        exact Or.inr rfl

/-- **`clone`** up to the copy of the address space. -/
theorem clone_refines (hi : Inv s xs) {r : AllocResults} (hp : s.mode = .process p)
    (hc : s.conts p = .run) (hstep : clone s p r = .ok s') :
    ∃ xs', Inv s' xs' ∧ AStep s.abs (.clone r) s'.abs := by
  rcases clone_cases hstep with rfl | ⟨d, u, hget, hdestroy | rfl⟩
  · exact ⟨xs, hi, .cloneNone⟩
  · exact cloneFail_refines hi hp hget hdestroy
  · exact cloneOk_refines hi hp hc hget

/-! ## §5 `wait` and `exit` -/

theorem Inv.zomble_off (hi : Inv s xs) (hy : (s.procs y).status = .zomble) (h : Head) : y ∉ xs h := by
  intro hmem
  have hon := (hi.queued.on h y hmem).2.2
  cases h with
  | _ => simp [OnHead, hy] at hon

/-- **A zombie's descriptor is given back** by the running process. -/
theorem Inv.reaped (hi : Inv s xs) (hp : s.mode = .process p) (hyp : y ≠ p)
    (hy : (s.procs y).status = .zomble) (hstep : procDescDestroy s y = .ok s') :
    ∃ xs', Inv s' xs' ∧ s'.abs =
      (s.abs.setProc y fun P => { P with status := .free }).enter (s.procs y).pid none := by
  have hoff := hi.zomble_off hy
  have hlt := hi.lt_nDescs (by simp [hy] : (s.procs y).status ≠ .free)
  obtain ⟨xs', hq, hs', hlist⟩ := procDescDestroy_spec (hi.queued.take hoff).freed hlt hstep
  have hmode : s'.mode = s.mode := by rw [hs']; rfl
  have hconts : s'.conts = s.conts := by rw [hs']; rfl
  have hroot : s'.rootproc = s.rootproc := by rw [hs']; rfl
  have hn : s'.nDescs = s.nDescs := by rw [hs']; rfl
  have htable : s'.procTable = Function.update s.procTable (s.procs y).pid none := by rw [hs']
  have hprocs : s'.procs = Function.update s.procs y { s.procs y with status := .free } := by
    rw [hs']
    rfl
  have hother : ∀ z, z ≠ y → s'.procs z = s.procs z := by
    intro z hz
    rw [hprocs, Function.update_of_ne hz]
  refine ⟨xs', ⟨hq, ?_, ?_, ?_, ?_, ?_, ?_⟩, ?_⟩
  · intro z hz
    rw [hn] at hz
    rw [hother z (Nat.ne_of_gt (Nat.lt_of_lt_of_le hlt hz))]
    exact hi.unborn z hz
  · intro c z hz
    rw [hlist _ (by simp)] at hz
    rw [hconts]
    exact hi.chan c z hz
  · intro o z hz
    rw [hlist _ (by simp)] at hz
    rw [hconts]
    exact hi.alone o z hz
  · intro r hr
    rw [hmode] at hr
    obtain rfl := Mode.process.inj (hp.symm.trans hr)
    rw [hother p (Ne.symm hyp), hconts]
    exact hi.cur p hp
  · have hne : s.rootproc ≠ y := by
      intro he
      exact hi.root.2 (he ▸ hy)
    rw [hroot, hother _ hne]
    exact hi.root
  · intro r z hr
    rw [hconts] at hr
    obtain ⟨hst, _⟩ := hi.son r z hr
    have hz : z ≠ y := by
      rintro rfl
      simp [hy] at hst
    rw [hother z hz, hmode, hconts]
    exact hi.son r z hr
  · refine Abs.ext_procs ?_ hconts hmode htable hroot
    intro z
    by_cases hz : z = y
    · subst hz
      simp [Sys.abs, Abs.setProc, hprocs, Proc.view]
    · simp [Sys.abs, Abs.setProc, hprocs, hz]

theorem wait_refines (hi : Inv s xs) (hp : s.mode = .process p)
    (hc : s.conts p = .run ∨ s.conts p = .wait) (hstep : wait s p = .ok s') :
    ∃ xs', Inv s' xs' ∧ AStep s.abs .wait s'.abs := by
  have hrun : (s.procs p).status = .running := by
    apply hi.running hp
    rcases hc with hc | hc
    · simp [hc]
    · simp [hc]
  unfold wait at hstep
  split at hstep
  · next c hfind =>
    have hz : (s.procs c).status = .zomble := by simpa using List.find?_some hfind
    have hcp : c ≠ p := by
      rintro rfl
      simp [hz] at hrun
    have hset := (hi.setData p (fun P => { P with children := P.children.erase c }) rfl rfl rfl).goto
      (c := .run) hp (by simp) (by simp [Sys.setProc, hrun])
    obtain ⟨xs', hinv, habs⟩ := hset.reaped hp hcp (by simp [Sys.setProc, Sys.goto, hcp, hz]) hstep
    refine ⟨xs', hinv, ?_⟩
    have hfin : s'.abs = (((s.abs.setProc p fun P => { P with
        children := P.children.erase c }).setProc c fun P =>
          { P with status := .free }).goto p .run).enter (s.abs.procs c).pid none := by
      rw [habs]
      refine Abs.ext_procs ?_ rfl rfl ?_ rfl
      · intro z
        by_cases hz : z = c
        · simp [Sys.abs, Abs.setProc, Abs.goto, Sys.setProc, Sys.goto, hz, hcp, Proc.view]
        · by_cases hzp : z = p
          · simp [Sys.abs, Abs.setProc, Abs.goto, Sys.setProc, Sys.goto, hzp, Ne.symm hcp, Proc.view]
          · simp [Sys.abs, Abs.setProc, Abs.goto, Sys.setProc, Sys.goto, hz, hzp]
      · simp [Sys.abs, Sys.setProc, Sys.goto, hcp, Proc.view]
    rw [hfin]
    exact .reap hp hc hfind
  · next hfind =>
    have hset := hi.setData p (fun P => { P with waitForChild := true }) rfl rfl rfl
    obtain ⟨xs', hinv, habs⟩ := sleep_refines hset hp (Or.inl ⟨rfl, rfl⟩) (Or.inr (by simp)) hstep
    refine ⟨xs', hinv, ?_⟩
    have hdata : (s.setProc p fun P => { P with waitForChild := true }).abs =
        s.abs.setProc p fun P => { P with waitForChild := true } := abs_setProc rfl
    rw [habs, hdata]
    exact .waitSleep hp hc hfind

/-- Handing children over changes family ties only, and only `rootproc` gains children. -/
theorem reparent_foldl (rootproc cur : Nat) (cs : List Nat) (procs : Nat → Proc) (y : Nat) :
    ∃ ppid children, cs.foldl (reparent rootproc cur) procs y =
        { procs y with ppid := ppid, children := children } ∧
      ∀ c ∈ children, c ∈ (procs y).children ∨ y = rootproc ∧ c ∈ cs := by
  induction cs generalizing procs with
  | nil => exact ⟨(procs y).ppid, (procs y).children, rfl, fun c hc => Or.inl hc⟩
  | cons d cs ih =>
    obtain ⟨ppid, children, heq, hsub⟩ := ih (reparent rootproc cur procs d)
    have hone : ∃ q l, reparent rootproc cur procs d y = { procs y with ppid := q, children := l } ∧
        ∀ c ∈ l, c ∈ (procs y).children ∨ y = rootproc ∧ c = d := by
      refine ⟨(reparent rootproc cur procs d y).ppid, (reparent rootproc cur procs d y).children, ?_, ?_⟩
      · simp only [reparent, Function.update_apply]
        split_ifs <;> simp_all
      · intro c hc
        simp only [reparent, Function.update_apply] at hc
        split_ifs at hc <;> grind
    obtain ⟨q, l, hq, hl⟩ := hone
    refine ⟨ppid, children, by rw [List.foldl_cons, heq, hq], ?_⟩
    intro c hc
    rcases hsub c hc with hold | ⟨rfl, hnew⟩
    · rw [hq] at hold
      rcases hl c hold with hold | ⟨rfl, rfl⟩
      · exact Or.inl hold
      · exact Or.inr ⟨rfl, List.mem_cons_self⟩
    · exact Or.inr ⟨rfl, List.mem_cons_of_mem _ hnew⟩

theorem Abs.handOver_procs (a : Abs) (p y : Nat) :
    ∃ ppid children, (a.handOver p).procs y =
        { a.procs y with ppid := ppid, children := children } ∧
      ∀ c ∈ children, c ∈ (a.procs y).children ∨ y = a.rootproc ∧ c ∈ (a.procs p).children :=
  reparent_foldl a.rootproc p (a.procs p).children a.procs y

theorem reparent_foldl_view (rootproc cur : Nat) (cs : List Nat) (procs : Nat → Proc) :
    (fun y => (cs.foldl (reparent rootproc cur) procs y).view) =
      cs.foldl (reparent rootproc cur) fun y => (procs y).view := by
  induction cs generalizing procs with
  | nil => rfl
  | cons c cs ih =>
    have hone : (fun y => (reparent rootproc cur procs c y).view) =
        reparent rootproc cur (fun y => (procs y).view) c := by
      funext y
      simp only [reparent, Function.update_apply]
      split_ifs <;> simp_all [Proc.view]
    rw [List.foldl_cons, List.foldl_cons, ih, hone]

/-- **The running process becomes a zombie** and goes on inside of `exit`. -/
theorem Inv.zombify (hi : Inv s xs) (hp : s.mode = .process p) (hrun : (s.procs p).status = .running)
    (hroot : p ≠ s.rootproc) :
    Inv ((s.setProc p fun P => { P with procQueue := none, status := .zomble }).goto p .exit) xs := by
  have hset := ((hi.queued.take (hi.cur_off hp)).setProc
    (fun P => { P with procQueue := none, status := .zomble }) (by simp [hrun]) rfl
    (hi.queued.prio p)).letGo (by simp [Sys.setProc])
  have hoff : ∀ h y, y ∈ xs h → y ≠ p := by
    rintro h y hy rfl
    exact hi.cur_off hp h hy
  refine ⟨hset.congr rfl rfl rfl fun _ => ⟨rfl, rfl, rfl⟩, ?_, ?_, ?_, ?_, ?_, ?_⟩
  · intro y hy
    have hyp : y ≠ p := Nat.ne_of_gt (Nat.lt_of_lt_of_le (hi.cur_lt hp) hy)
    simpa [Sys.setProc, Sys.goto, hyp] using hi.unborn y hy
  · intro c y hy
    simpa [Sys.setProc, Sys.goto, hoff _ y hy] using hi.chan c y hy
  · intro o y hy
    simpa [Sys.setProc, Sys.goto, hoff _ y hy] using hi.alone o y hy
  · intro r hr
    obtain rfl := Mode.process.inj (hp.symm.trans hr)
    simp [Sys.setProc, Sys.goto]
  · simpa [Sys.setProc, Sys.goto, Ne.symm hroot] using hi.root
  · intro r y hr
    have hrp : r ≠ p := by
      rintro rfl
      simp [Sys.goto] at hr
    have hr' : s.conts r = .clone y := by simpa [Sys.goto, Sys.setProc, hrp] using hr
    obtain ⟨hst, hqueue, hm, hm', huniq⟩ := hi.son r y hr'
    have hyp : y ≠ p := by
      rintro rfl
      simp [hst] at hrun
    refine ⟨?_, ?_, hm, hm', ?_⟩
    · simpa [Sys.setProc, Sys.goto, hyp] using hst
    · simpa [Sys.setProc, Sys.goto, hyp] using hqueue
    · intro r' hr
      have hr'p : r' ≠ p := by
        rintro rfl
        simp [Sys.goto] at hr
      exact huniq r' (by simpa [Sys.goto, Sys.setProc, hr'p] using hr)

theorem exit_refines (hi : Inv s xs) (hp : s.mode = .process p) (hc : s.conts p = .run)
    (hstep : exit s p = .ok s') : ∃ xs', Inv s' xs' ∧ AStep s.abs .exit s'.abs := by
  have hrun := hi.running hp (by simp [hc])
  unfold exit at hstep
  split at hstep
  · cases hstep
  next hroot =>
  obtain rfl := Except.ok.inj hstep
  have hsame : ∀ y, ((s.procs p).children.foldl (reparent s.rootproc p) s.procs y).status =
        (s.procs y).status ∧
      ((s.procs p).children.foldl (reparent s.rootproc p) s.procs y).procQueue =
        (s.procs y).procQueue ∧
      ((s.procs p).children.foldl (reparent s.rootproc p) s.procs y).priority =
        (s.procs y).priority := by
    intro y
    obtain ⟨_, _, heq, _⟩ := reparent_foldl s.rootproc p (s.procs p).children s.procs y
    simp [heq]
  have hfam : Inv { s with
      procs := (s.procs p).children.foldl (reparent s.rootproc p) s.procs } xs :=
    hi.congr rfl rfl rfl rfl rfl rfl hsame
  refine ⟨xs, hfam.zombify hp ((hsame p).1.trans hrun) hroot, ?_⟩
  have hview := congrFun (reparent_foldl_view s.rootproc p (s.procs p).children s.procs)
  have habs : Sys.abs ((Sys.setProc { s with
        procs := (s.procs p).children.foldl (reparent s.rootproc p) s.procs } p fun P =>
        { P with procQueue := none, status := .zomble }).goto p .exit) =
      ((Abs.setProc { s.abs with
        procs := (s.abs.procs p).children.foldl (reparent s.abs.rootproc p) s.abs.procs } p fun P =>
        { P with status := .zomble }).goto p .exit) := by
    refine Abs.ext_procs ?_ rfl rfl rfl rfl
    intro y
    by_cases hyp : y = p
    · subst hyp
      have hsame : ∀ P Q : Proc, P.view = Q →
          Proc.view { P with procQueue := none, status := .zomble } = { Q with status := .zomble } := by
        rintro P Q rfl
        rfl
      simp only [Sys.abs, Abs.setProc, Abs.goto, Sys.setProc, Sys.goto, Function.update_self]
      exact hsame _ _ (hview y)
    · simp only [Sys.abs, Abs.setProc, Abs.goto, Sys.setProc, Sys.goto, Function.update_of_ne hyp]
      exact hview y
  rw [habs]
  exact .exit hp hc hroot

/-- A wake-up does not touch the running process. -/
theorem Inv.wakeAlone_cur (hi : Inv s xs) (hp : s.mode = .process p) (y : Nat) :
    (s.abs.wakeAlone y).procs p = s.abs.procs p ∧ (s.abs.wakeAlone y).cont = s.abs.cont ∧
      (s.abs.wakeAlone y).mode = s.abs.mode := by
  unfold Abs.wakeAlone
  split
  · next hasleep =>
    have hpy : p ≠ y := by
      rintro rfl
      exact (hi.cur_status hp).1 hasleep.1
    exact ⟨Function.update_of_ne hpy .., rfl, rfl⟩
  · exact ⟨rfl, rfl, rfl⟩

theorem exitFinish_refines (hi : Inv s xs) (hp : s.mode = .process p) (hc : s.conts p = .exit)
    (hstep : exitFinish s p = .ok s') : ∃ xs', Inv s' xs' ∧ AStep s.abs .exitFinish s'.abs := by
  obtain ⟨f, hf, hstep⟩ := bind_eq_ok.1 hstep
  obtain ⟨t, ys, hinv, habs, hstep⟩ : ∃ t ys, Inv t ys ∧
      t.abs = (if (s.abs.procs f).waitForChild then s.abs.wakeAlone f else s.abs) ∧
      sched (t.goto p .exited) p = .ok s' := by
    have hwaiting : (s.abs.procs f).waitForChild = (s.procs f).waitForChild := rfl
    dsimp only at hstep
    rw [hwaiting]
    split at hstep
    · next hw =>
      obtain ⟨t, hwake, hstep⟩ := bind_eq_ok.1 hstep
      obtain ⟨ys, hinv, habs⟩ := wakeAlone_refines hi hwake
      exact ⟨t, ys, hinv, by rw [habs, if_pos hw], hstep⟩
    · next hw => exact ⟨s, xs, hi, by rw [if_neg hw], hstep⟩
  -- the wake-up has not touched the process itself
  obtain ⟨hproc, hcont, hmode⟩ : t.abs.procs p = s.abs.procs p ∧ t.abs.cont = s.abs.cont ∧
      t.abs.mode = s.abs.mode := by
    rw [habs]
    split
    · exact hi.wakeAlone_cur hp f
    · exact ⟨rfl, rfl, rfl⟩
  have hpt : t.mode = .process p := hmode.trans hp
  have hct : t.conts p = .exit := (congrFun hcont p).trans hc
  unfold sched at hstep
  split at hstep
  · cases hstep
  next hnot =>
  have hnot' : (t.procs p).status ≠ .running := hnot
  have hst' : (t.procs p).status = (s.abs.procs p).status := by
    rw [← hproc]
    rfl
  obtain ⟨hz, _⟩ := (hinv.cur p hpt).resolve_left hnot'
  have hroot : p ≠ t.rootproc := by
    rintro rfl
    exact hinv.root.2 hz
  have hsleep : (t.procs p).status ≠ .sleeping := by simp [hz]
  have hfree : (t.procs p).status ≠ .free := by simp [hz]
  obtain ⟨hleft, habs'⟩ := sched_refines (c := .exited) hinv hpt hsleep hfree (fun _ => hroot)
    (Or.inr (by simp))
  have hs' : s' = { (t.setProc p fun P => { P with status := (t.procs p).status }).goto p .exited with
      mode := .scheduler (some p) } := by
    have hsame : (t.setProc p fun P => { P with status := (t.procs p).status }) = t := by
      simp [Sys.setProc]
    rw [hsame]
    exact (Except.ok.inj hstep).symm
  refine ⟨ys, hs' ▸ hleft, ?_⟩
  rw [hs', habs', habs, hst']
  exact .exitFinish hp hc hf (hst' ▸ hnot')

/-! ## §6 Messages -/

theorem ipcLookup_refines (hi : Inv s xs) (hp : s.mode = .process p) (hc : s.conts p = .run)
    {pid : Nat} (hstep : ipcLookup s p pid = .ok s') :
    ∃ xs', Inv s' xs' ∧ AStep s.abs (.ipcLookup pid) s'.abs := by
  obtain ⟨d, hlook, hret⟩ := bind_eq_ok.1 hstep
  cases d with
  | none =>
    obtain rfl := Except.ok.inj hret
    exact ⟨xs, hi, .lookupNone⟩
  | some t =>
    obtain rfl := Except.ok.inj hret
    exact ⟨xs, hi.goto hp (by simp) (hi.running hp (by simp [hc])), .lookup hp hc hlook⟩

theorem ipcTrySend_refines (hi : Inv s xs) (hp : s.mode = .process p) {t pid : Nat}
    (hc : s.conts p = .ipcSend pid t) {value srcva perm : Nat} {pg : PageResults} {r : Int}
    (hstep : ipcTrySend s p t value srcva perm pg = .ok (s', r)) :
    ∃ xs', Inv s' xs' ∧ AStep s.abs (.ipcTrySend value srcva perm pg) s'.abs := by
  have hrun := hi.running hp (by simp [hc])
  have hfail : Inv (s.goto p .run) xs := hi.goto hp (by simp) hrun
  unfold ipcTrySend at hstep
  split at hstep
  · next hnot =>
    obtain ⟨rfl, _⟩ := Prod.mk.inj (Except.ok.inj hstep)
    have hnot' : (s.procs t).ipcRecving = false := by simpa using hnot
    exact ⟨xs, hfail, .sendFail hp hc fun hr => absurd (hnot'.symm.trans hr) (by simp)⟩
  next hrecv =>
  split at hstep
  · next e hbad =>
    obtain ⟨rfl, _⟩ := Prod.mk.inj (Except.ok.inj hstep)
    exact ⟨xs, hfail, .sendFail hp hc fun _ => ⟨e, hbad⟩⟩
  next ipcPerm hperm =>
  obtain ⟨u, hwake, hret⟩ := bind_eq_ok.1 hstep
  obtain ⟨rfl, _⟩ := Prod.mk.inj (Except.ok.inj hret)
  have hset := hi.setData t (fun P => { P with
    ipcPerm := ipcPerm
    ipcRecving := false
    ipcFrom := (s.procs p).pid
    ipcValue := value }) rfl rfl rfl
  obtain ⟨xs', hinv, habs⟩ := wakeAlone_refines hset hwake
  have hdata : (s.setProc t fun P => { P with
      ipcPerm := ipcPerm
      ipcRecving := false
      ipcFrom := (s.procs p).pid
      ipcValue := value }).abs = s.abs.setProc t fun P => { P with
      ipcPerm := ipcPerm
      ipcRecving := false
      ipcFrom := (s.procs p).pid
      ipcValue := value } := abs_setProc rfl
  -- the sender goes on
  obtain ⟨hproc, _, hmode⟩ := hset.wakeAlone_cur hp t
  rw [← habs] at hproc hmode
  have hst : (u.abs.procs p).status = .running := by
    rw [hproc, hdata]
    by_cases htp : p = t
    · subst htp
      simpa [Abs.setProc, Sys.abs, Proc.view] using hrun
    · simpa [Abs.setProc, Sys.abs, Proc.view, htp] using hrun
  have hgoto : (u.goto p .run).abs = u.abs.goto p .run := rfl
  refine ⟨xs', hinv.goto (hmode.trans hp) (by simp) hst, ?_⟩
  rw [hgoto, habs, hdata]
  have hrecv' : (s.procs t).ipcRecving = true := by simpa using hrecv
  exact .send hp hc hrecv' hperm

theorem ipcRecv_refines (hi : Inv s xs) (hp : s.mode = .process p) (hc : s.conts p = .run)
    {dstva : Nat} (hgood : ¬ (dstva < Paging.UTOP ∧ dstva % Paging.PGSIZE ≠ 0)) (hstep : ipcRecv s p dstva = .ok s') :
    ∃ xs', Inv s' xs' ∧ AStep s.abs (.ipcRecv dstva) s'.abs := by
  have hset := hi.setData p (fun P => { P with ipcDstva := dstva, ipcRecving := true }) rfl rfl rfl
  obtain ⟨xs', hinv, habs⟩ := sleep_refines hset hp (Or.inl ⟨rfl, rfl⟩) (Or.inr (by simp)) hstep
  refine ⟨xs', hinv, ?_⟩
  have hdata : (s.setProc p fun P => { P with ipcDstva := dstva, ipcRecving := true }).abs =
      s.abs.setProc p fun P => { P with ipcDstva := dstva, ipcRecving := true } := abs_setProc rfl
  rw [habs, hdata]
  exact .recv hp hc hgood

/-! ## §7 Every step -/

theorem procStep_refines (hi : Inv s xs) (hp : s.mode = .process p)
    (hstep : procStep s p (s.conts p) o = .ok s') : ∃ xs', Inv s' xs' ∧ AStep s.abs o s'.abs := by
  have hyield : yield s p = .ok s' → ∃ xs', Inv s' xs' ∧ AStep s.abs .yield s'.abs := by
    intro h
    obtain ⟨hinv, habs⟩ := yield_refines hi hp h
    exact ⟨xs, hinv, habs ▸ .yield hp⟩
  have hsleep : ∀ c, (s.conts p).alone = false → sleep s p (.chan c) (s.conts p) = .ok s' →
      ∃ xs', Inv s' xs' ∧ AStep s.abs (.sleep c) s'.abs := by
    intro c hal h
    obtain ⟨xs', hinv, habs⟩ := sleep_refines hi hp (Or.inr ⟨⟨c, rfl⟩, hal⟩) (Or.inl rfl) h
    exact ⟨xs', hinv, habs ▸ .sleep hp hal⟩
  generalize hc : s.conts p = c at hstep hsleep
  unfold procStep at hstep
  split at hstep
  · cases hstep
  · exact wakeup_refines hi hstep
  · exact tick_refines hi hp hstep
  · exact hyield hstep
  · exact hsleep _ rfl hstep
  · exact hsleep _ rfl hstep
  · exact hsleep _ rfl hstep
  · exact kill_refines hi hp hc hstep
  · exact clone_refines hi hp hc hstep
  · exact cloneFinish_refines hi hp hc hstep
  · exact wait_refines hi hp (Or.inl hc) hstep
  · exact wait_refines hi hp (Or.inr hc) hstep
  · exact exit_refines hi hp hc hstep
  · exact exitFinish_refines hi hp hc hstep
  · exact ipcLookup_refines hi hp hc hstep
  · obtain ⟨⟨t, r⟩, hsend, hret⟩ := bind_eq_ok.1 hstep
    obtain rfl := Except.ok.inj hret
    exact ipcTrySend_refines hi hp hc hsend
  · split at hstep
    · next hbad =>
      obtain rfl := Except.ok.inj hstep
      exact ⟨xs, hi, .recvBad hp hc hbad⟩
    · next hgood => exact ipcRecv_refines hi hp hc hgood hstep
  · obtain rfl := Except.ok.inj hstep
    exact ⟨xs, hi.goto hp (by simp) (hi.running hp (by simp [hc])), .recvReturn hp hc⟩
  · cases hstep

/-- **Every step** keeps the invariant, and is a step of the abstract machine. -/
theorem step_refines (hi : Inv s xs) (hstep : step s o = .ok s') :
    ∃ xs', Inv s' xs' ∧ AStep s.abs o s'.abs := by
  unfold step at hstep
  split at hstep
  · next hp => exact procStep_refines hi hp hstep
  · next hm =>
    split at hstep
    · exact wakeup_refines hi hstep
    · obtain rfl := Except.ok.inj hstep
      exact ⟨xs, hi.congr rfl rfl rfl rfl rfl rfl fun _ => ⟨rfl, rfl, rfl⟩, .tick⟩
    · exact schedule_refines hi hm hstep
    · cases hstep

end

end WeiOS.Sched
