import Mathlib
import WeiOS.Process.TimeSlices

/-!
# No Process Starves

A process that has used its time slice up goes to `exhausted_queue`, and the two queues change places
only when `run_queue` is empty. So a process on `run_queue` can be passed over, by processes of better
priority and by those before it, but only for the ticks that they have left: what is charged to them is
never given back before the queues change. A fork is the exception: a process with one tick left forks
a son with one tick.

## Main results
- `schedule_on`: a turn of the scheduler takes no process off its queue but the one that it runs, and
  the queues change places only when nobody is on `run_queue`.
- `step_owed`: every step pays for the ticks that it charges.
- `not_starved`: how many ticks can be charged before a process on a queue runs.
-/

namespace WeiOS.Sched

open WeiOS.Lib

/-! ## §1 The counters of the queues -/

/-- The processes on the queue `q`. -/
def Sys.on (s : Sys) (q : QueueId) : Set Nat := {y | (s.procs y).procQueue = some q}

/-- `n_procs` of a queue counts its processes. -/
structure Counted (s : Sys) : Prop where
  finite : ∀ q, (s.on q).Finite
  count : ∀ q, (s.queues q).nProcs = (s.on q).ncard % 2 ^ 32

section
variable {r s s' t : Sys} {xs : Head → List Nat} {p d y : Nat} {h : Head} {q : QueueId} {c : Cont}

theorem Counted.congr (hc : Counted s) (hqueue : ∀ y, (t.procs y).procQueue = (s.procs y).procQueue)
    (hcount : ∀ q, (t.queues q).nProcs = (s.queues q).nProcs) : Counted t := by
  have hon : ∀ q, t.on q = s.on q := by
    intro q
    ext y
    simp [Sys.on, hqueue y]
  constructor
  · intro q
    rw [hon q]
    exact hc.finite q
  · intro q
    rw [hcount q, hon q]
    exact hc.count q

/-- What `add_proc_to_queue` writes. -/
theorem addProcToQueue_writes (hok : addProcToQueue s q p = .ok t) :
    t = s.moved t.links t.queues (Function.update s.procs p { s.procs p with procQueue := some q }) ∧
      ∀ q', (t.queues q').nProcs = if q' = q then ((s.queues q').nProcs + 1) % 2 ^ 32
        else (s.queues q').nProcs := by
  obtain ⟨u, hadd, hret⟩ := bind_eq_ok.1 hok
  obtain ⟨links, _, hlinks⟩ := bind_eq_ok.1 hadd
  obtain rfl := Except.ok.inj hlinks
  obtain rfl := Except.ok.inj hret
  refine ⟨rfl, ?_⟩
  intro q'
  by_cases hq : q' = q
  · subst hq
    simp [Sys.setQueue, Sys.setProc]
  · simp [Sys.setQueue, Sys.setProc, hq]

/-- What `del_proc_fron_queue` writes. -/
theorem delProcFronQueue_writes (hok : delProcFronQueue s p = .ok t) :
    ∃ q, (s.procs p).procQueue = some q ∧
      t = s.moved t.links t.queues (Function.update s.procs p { s.procs p with procQueue := none }) ∧
      ∀ q', (t.queues q').nProcs = if q' = q then ((s.queues q').nProcs + (2 ^ 32 - 1)) % 2 ^ 32
        else (s.queues q').nProcs := by
  obtain ⟨q, hq, hok⟩ := bind_eq_ok.1 hok
  obtain ⟨u, hdel, hret⟩ := bind_eq_ok.1 hok
  obtain ⟨links, _, hlinks⟩ := bind_eq_ok.1 hdel
  obtain rfl := Except.ok.inj hlinks
  obtain rfl := Except.ok.inj hret
  refine ⟨q, ?_, rfl, ?_⟩
  · cases hqueue : (s.procs p).procQueue with
    | none =>
      rw [hqueue] at hq
      cases hq
    | some q₀ =>
      rw [hqueue] at hq
      exact congrArg some (Except.ok.inj hq)
  · intro q'
    by_cases hq : q' = q
    · subst hq
      simp [leaveQueue, Sys.setQueue, Sys.setProc]
    · simp [leaveQueue, Sys.setQueue, Sys.setProc, hq]

theorem Counted.join (hc : Counted s) (hnone : (s.procs p).procQueue = none)
    (hok : addProcToQueue s q p = .ok t) : Counted t := by
  obtain ⟨ht, hcount⟩ := addProcToQueue_writes hok
  have hprocs : t.procs = Function.update s.procs p { s.procs p with procQueue := some q } := by
    rw [ht]
    rfl
  have hon : ∀ q', t.on q' = if q' = q then insert p (s.on q') else s.on q' := by
    intro q'
    ext y
    by_cases hy : y = p
    · subst hy
      by_cases hq : q' = q
      · simp [Sys.on, hprocs, hq]
      · simp [Sys.on, hprocs, hq, hnone, Ne.symm hq]
    · by_cases hq : q' = q
      · simp [Sys.on, hprocs, hq, hy]
      · simp [Sys.on, hprocs, hq, hy]
  have hoff : ∀ q', p ∉ s.on q' := by
    intro q' hp
    exact nomatch hnone.symm.trans hp
  constructor
  · intro q'
    rw [hon q']
    split
    · exact (hc.finite q').insert p
    · exact hc.finite q'
  · intro q'
    rw [hcount q', hon q', hc.count q']
    split
    · rw [Set.ncard_insert_of_notMem (hoff q') (hc.finite q')]
      omega
    · rfl

theorem Counted.leave (hc : Counted s) (hok : delProcFronQueue s p = .ok t) : Counted t := by
  obtain ⟨q, hq, ht, hcount⟩ := delProcFronQueue_writes hok
  have hprocs : t.procs = Function.update s.procs p { s.procs p with procQueue := none } := by
    rw [ht]
    rfl
  have hon : ∀ q', t.on q' = if q' = q then s.on q' \ {p} else s.on q' := by
    intro q'
    ext y
    by_cases hy : y = p
    · subst hy
      by_cases hq' : q' = q
      · simp [Sys.on, hprocs, hq']
      · simp [Sys.on, hprocs, hq', hq, Ne.symm hq']
    · by_cases hq' : q' = q
      · simp [Sys.on, hprocs, hq', hy]
      · simp [Sys.on, hprocs, hq', hy]
  constructor
  · intro q'
    rw [hon q']
    split
    · exact (hc.finite q').sdiff
    · exact hc.finite q'
  · intro q'
    rw [hcount q', hon q', hc.count q']
    split
    · next heq =>
      subst heq
      have hp : p ∈ s.on q' := hq
      have hpos := (Set.ncard_pos (hc.finite q')).2 ⟨p, hp⟩
      rw [Set.ncard_sdiff_singleton_of_mem hp]
      omega
    · rfl

/-! ## §2 What the steps of a process do to the queues -/

/-- From `r` to `s` processes join the run queue, and that is all that happens to the queues. -/
structure Calm (r s : Sys) : Prop where
  run : s.runQueue = r.runQueue
  exhausted : s.exhaustedQueue = r.exhaustedQueue
  descs : s.nDescs = r.nDescs
  queue : ∀ y, (s.procs y).procQueue = (r.procs y).procQueue ∨
    (r.procs y).procQueue = none ∧ (s.procs y).procQueue = some r.runQueue
  counted : Counted r → Counted s

theorem Calm.refl (s : Sys) : Calm s s := ⟨rfl, rfl, rfl, fun _ => Or.inl rfl, id⟩

/-- Nothing is written to a descriptor, nor to a queue. -/
theorem Calm.congr (hk : Calm r s) (hprocs : t.procs = s.procs) (hqueues : t.queues = s.queues)
    (hrun : t.runQueue = s.runQueue) (hexh : t.exhaustedQueue = s.exhaustedQueue)
    (hn : t.nDescs = s.nDescs) : Calm r t := by
  refine ⟨hrun.trans hk.run, hexh.trans hk.exhausted, hn.trans hk.descs, ?_, ?_⟩
  · intro y
    rw [hprocs]
    exact hk.queue y
  · intro hr
    exact (hk.counted hr).congr (fun y => by rw [hprocs]) fun q => by rw [hqueues]

/-- Other fields of one descriptor are written. -/
theorem Calm.setProc (hk : Calm r s) {f : Proc → Proc}
    (hf : (f (s.procs p)).procQueue = (s.procs p).procQueue) : Calm r (s.setProc p f) := by
  have hsame : ∀ y, ((s.setProc p f).procs y).procQueue = (s.procs y).procQueue := by
    intro y
    by_cases hy : y = p
    · subst hy
      simpa [Sys.setProc] using hf
    · simp [Sys.setProc, hy]
  refine ⟨hk.run, hk.exhausted, hk.descs, ?_, ?_⟩
  · intro y
    rw [hsame y]
    exact hk.queue y
  · intro hr
    exact (hk.counted hr).congr hsame fun _ => rfl

theorem Calm.goto (hk : Calm r s) : Calm r (s.goto p c) := hk.congr rfl rfl rfl rfl rfl

theorem Calm.listAdd (hk : Calm r s) (hok : Sched.listAdd s p h = .ok s') : Calm r s' := by
  obtain ⟨links, _, hret⟩ := bind_eq_ok.1 hok
  obtain rfl := Except.ok.inj hret
  exact hk.congr rfl rfl rfl rfl rfl

theorem Calm.listAddTail (hk : Calm r s) (hok : Sched.listAddTail s p h = .ok s') : Calm r s' := by
  obtain ⟨links, _, hret⟩ := bind_eq_ok.1 hok
  obtain rfl := Except.ok.inj hret
  exact hk.congr rfl rfl rfl rfl rfl

theorem Calm.listDel (hk : Calm r s) (hok : Sched.listDel s p = .ok s') : Calm r s' := by
  obtain ⟨links, _, hret⟩ := bind_eq_ok.1 hok
  obtain rfl := Except.ok.inj hret
  exact hk.congr rfl rfl rfl rfl rfl

/-- A process that is on no queue joins the run queue. -/
theorem Calm.join (hk : Calm r s) (hnone : (s.procs p).procQueue = none)
    (hok : addProcToQueue s s.runQueue p = .ok t) : Calm r t := by
  obtain ⟨ht, -⟩ := addProcToQueue_writes hok
  have hprocs : t.procs =
      Function.update s.procs p { s.procs p with procQueue := some s.runQueue } := by
    rw [ht]
    rfl
  refine ⟨?_, ?_, ?_, ?_, fun hr => (hk.counted hr).join hnone hok⟩
  · rw [ht]
    exact hk.run
  · rw [ht]
    exact hk.exhausted
  · rw [ht]
    exact hk.descs
  · intro y
    by_cases hy : y = p
    · subst hy
      right
      constructor
      · rcases hk.queue y with hsame | ⟨hold, -⟩
        · exact hsame.symm.trans hnone
        · exact hold
      · simp [hprocs, hk.run]
    · simpa [hprocs, hy] using hk.queue y

theorem Calm.sched (hk : Calm r s) (hok : Sched.sched s p = .ok s') : Calm r s' := by
  unfold Sched.sched at hok
  split at hok
  · cases hok
  · obtain rfl := Except.ok.inj hok
    exact hk.congr rfl rfl rfl rfl rfl

theorem Calm.yield (hk : Calm r s) (hok : Sched.yield s p = .ok s') : Calm r s' :=
  Calm.sched (s := s.setProc p fun P => { P with status := .runnable }) (hk.setProc rfl) hok

theorem Calm.sleep (hk : Calm r s) (hok : Sched.sleep s p h c = .ok s') : Calm r s' := by
  obtain ⟨t, hadd, hsched⟩ := bind_eq_ok.1 hok
  have hset : Calm r (s.setProc p fun P => { P with
      status := .sleeping, sleepStartJiffs := s.jiffs }) := hk.setProc rfl
  exact (hset.listAddTail hadd).goto.sched hsched

/-- The loop body of `wakeup1`, for a process that is on no queue. -/
theorem Calm.wakeOne (hk : Calm r s) (hnone : (s.procs p).procQueue = none)
    (hok : Sched.wakeOne s p = .ok s') : Calm r s' := by
  obtain ⟨t, hdel, hadd⟩ := bind_eq_ok.1 hok
  have ht := hk.listDel hdel
  have htp : (t.procs p).procQueue = none := by
    obtain ⟨links, _, hret⟩ := bind_eq_ok.1 hdel
    obtain rfl := Except.ok.inj hret
    exact hnone
  refine Calm.join (Calm.setProc (Calm.setProc (Calm.setProc ht ?_) ?_) ?_) ?_ hadd
  · rfl
  · rfl
  · rfl
  · simpa [Sys.setProc] using htp

/-- Those on a wait list are on no queue. -/
theorem Queued.waiting {x : Option Nat} (hq : Queued x s xs) (hh : ∀ q k, h ≠ .procsInQueue q k)
    (hp : p ∈ xs h) : (s.procs p).procQueue = none := by
  have hon := (hq.on h p hp).2.2
  cases h with
  | procsInQueue q k => exact absurd rfl (hh q k)
  | sleepAlone o => exact hon.2.1
  | chan c => exact hon.2
  | procsDescCache => exact hon.2

/-- The loop of `wakeup1`, from the first process of the list on. -/
theorem Calm.wakeLoop {n best best' : Nat} (hh : ∀ q k, h ≠ .procsInQueue q k)
    (hcache : h ≠ .procsDescCache) (hk : Calm r s) (hq : Queued none s xs)
    (hok : Sched.wakeLoop h n (((xs h).head?.map .elem).getD (.head h)) best s = .ok (s', best')) :
    Calm r s' := by
  induction n generalizing best s xs with
  | zero =>
    cases hl : xs h with
    | nil =>
      rw [hl] at hok
      simp only [Sched.wakeLoop, List.head?_nil, Option.map_none, Option.getD_none, if_true] at hok
      obtain ⟨rfl, -⟩ := Prod.mk.inj (Except.ok.inj hok)
      exact hk
    | cons p l =>
      rw [hl] at hok
      simp [Sched.wakeLoop] at hok
  | succ n ih =>
    cases hl : xs h with
    | nil =>
      rw [hl] at hok
      simp only [Sched.wakeLoop, List.head?_nil, Option.map_none, Option.getD_none, if_true] at hok
      obtain ⟨rfl, -⟩ := Prod.mk.inj (Except.ok.inj hok)
      exact hk
    | cons p l =>
      have hp : p ∈ xs h := by
        rw [hl]
        exact List.mem_cons_self
      obtain ⟨t, ys, hone, hqt, -, -, -, -, hys, -⟩ := wakeOne_spec hq hp hh hcache
      rw [hl, List.erase_cons_head] at hys
      have hnext := hq.next_first hl
      rw [hl] at hok
      simp only [Sched.wakeLoop, List.head?_cons, Option.map_some, Option.getD_some, reduceCtorEq,
        if_false, hnext, deref, hone, bind, Except.bind] at hok
      rw [← hys] at hok
      exact ih (hk.wakeOne (hq.waiting hh hp) hone) hqt hok

theorem Calm.preempt (hk : Calm r s) (best : Nat) : Calm r (Sched.preempt s best) := by
  unfold Sched.preempt
  split
  · split
    · exact hk.setProc rfl
    · exact hk
  · exact hk

theorem Calm.wakeup1 (hh : ∀ q k, h ≠ .procsInQueue q k) (hcache : h ≠ .procsDescCache)
    (hk : Calm r s) (hq : Queued none s xs) (hok : Sched.wakeup1 s h = .ok s') : Calm r s' := by
  by_cases hi : Inited s h
  · obtain ⟨x, hnext, hok⟩ := bind_eq_ok.1 hok
    rw [hq.lists.next_head hi] at hnext
    obtain rfl := Except.ok.inj hnext
    obtain ⟨⟨t, best⟩, hloop, hret⟩ := bind_eq_ok.1 hok
    obtain rfl := Except.ok.inj hret
    exact (hk.wakeLoop hh hcache hq hloop).preempt best
  · obtain rfl := wakeup1_idle hq hi hok
    exact hk

/-- A process that sleeps is on no queue. -/
theorem Queued.sleeping (hq : Queued none s xs) (hst : (s.procs p).status = .sleeping) :
    (s.procs p).procQueue = none := by
  have hlisted : ∃ h, p ∈ xs h := by
    by_contra hnone
    exact (hq.off p fun h hp => hnone ⟨h, hp⟩).2 (by simp) hst
  obtain ⟨h, hp⟩ := hlisted
  refine hq.waiting ?_ hp
  rintro q k rfl
  cases hst.symm.trans (hq.on _ p hp).2.2.1

theorem Calm.kill {pid : Nat} {check : Bool} (hk : Calm r s) (hq : Queued none s xs)
    (hok : Sched.kill s p pid check = .ok s') : Calm r s' := by
  unfold Sched.kill at hok
  split at hok
  · obtain rfl := Except.ok.inj hok
    exact hk
  obtain ⟨found, _, hok⟩ := bind_eq_ok.1 hok
  cases found with
  | none =>
    obtain rfl := Except.ok.inj hok
    exact hk
  | some y =>
    have hkilled : Calm r (s.setProc y fun P => { P with killed := true }) := hk.setProc rfl
    dsimp only [killProc] at hok
    split at hok
    · next hst =>
      obtain ⟨t, hdel, hadd⟩ := bind_eq_ok.1 hok
      have hnone := hq.sleeping (p := y) (by simpa [Sys.setProc] using hst)
      have hwoken : Calm r ((s.setProc y fun P => { P with killed := true }).setProc y fun P =>
          { P with status := .runnable }) := hkilled.setProc rfl
      refine (hwoken.listDel hdel).join ?_ hadd
      obtain ⟨links, _, hret⟩ := bind_eq_ok.1 hdel
      obtain rfl := Except.ok.inj hret
      simpa [Sys.setProc] using hnone
    · obtain rfl := Except.ok.inj hok
      exact hkilled

theorem Calm.procDescDestroy (hk : Calm r s) (hok : Sched.procDescDestroy s p = .ok s') :
    Calm r s' := by
  obtain ⟨bm, _, hadd⟩ := bind_eq_ok.1 hok
  refine Calm.listAdd (Calm.setProc ?_ rfl) hadd
  exact hk.congr rfl rfl rfl rfl rfl

/-- The son is on no queue before. -/
theorem Calm.cloneFinish {ok : Bool} (hk : Calm r s) (hson : (s.procs y).procQueue = none)
    (hok : Sched.cloneFinish s p y ok = .ok s') : Calm r s' := by
  unfold Sched.cloneFinish at hok
  split at hok
  · have hset : Calm r (s.setProc p fun P => { P with children := P.children ++ [y] }) :=
      hk.setProc rfl
    refine hset.goto.join ?_ hok
    by_cases hyp : y = p
    · subst hyp
      simpa [Sys.goto, Sys.setProc] using hson
    · simpa [Sys.goto, Sys.setProc, hyp] using hson
  · obtain rfl := Except.ok.inj hok
    exact hk.goto

theorem Calm.wait (hk : Calm r s) (hok : Sched.wait s p = .ok s') : Calm r s' := by
  unfold Sched.wait at hok
  split at hok
  · refine Calm.procDescDestroy (Calm.goto (Calm.setProc hk ?_)) hok
    rfl
  · refine Calm.sleep (Calm.setProc hk ?_) hok
    rfl

/-- The process that exits is on no queue before. -/
theorem Calm.exit (hk : Calm r s) (hp : (s.procs p).procQueue = none)
    (hok : Sched.exit s p = .ok s') : Calm r s' := by
  unfold Sched.exit at hok
  split at hok
  · cases hok
  obtain rfl := Except.ok.inj hok
  -- handing the children over changes family ties only
  have hsame : ∀ y, (((s.procs p).children.foldl (reparent s.rootproc p) s.procs) y).procQueue =
      (s.procs y).procQueue := by
    intro y
    obtain ⟨ppid, children, heq, _⟩ := reparent_foldl s.rootproc p (s.procs p).children s.procs y
    rw [heq]
  refine Calm.goto (Calm.setProc (s := { s with
    procs := (s.procs p).children.foldl (reparent s.rootproc p) s.procs }) ?_ ?_)
  · refine ⟨hk.run, hk.exhausted, hk.descs, ?_, ?_⟩
    · intro y
      show _ = _ ∨ _ = _ ∧ _ = _
      rw [hsame y]
      exact hk.queue y
    · intro hr
      exact (hk.counted hr).congr hsame fun _ => rfl
  · exact ((hsame p).trans hp).symm

theorem Calm.exitFinish (hk : Calm r s) (hq : Queued none s xs)
    (hok : Sched.exitFinish s p = .ok s') : Calm r s' := by
  obtain ⟨f, _, hok⟩ := bind_eq_ok.1 hok
  dsimp only at hok
  split at hok
  · obtain ⟨t, hwake, hsched⟩ := bind_eq_ok.1 hok
    exact (hk.wakeup1 (by simp) (by simp) hq hwake).goto.sched hsched
  · exact hk.goto.sched hok

theorem Calm.ipcLookup {pid : Nat} (hk : Calm r s) (hok : Sched.ipcLookup s p pid = .ok s') :
    Calm r s' := by
  obtain ⟨found, _, hret⟩ := bind_eq_ok.1 hok
  cases found with
  | none =>
    obtain rfl := Except.ok.inj hret
    exact hk
  | some y =>
    obtain rfl := Except.ok.inj hret
    exact hk.goto

theorem Calm.ipcTrySend {value srcva perm : Nat} {pg : PageResults} {e : Int} (hk : Calm r s)
    (hi : Inv s xs) (hok : Sched.ipcTrySend s p y value srcva perm pg = .ok (s', e)) :
    Calm r s' := by
  unfold Sched.ipcTrySend at hok
  split at hok
  · obtain ⟨rfl, rfl⟩ := Prod.mk.inj (Except.ok.inj hok)
    exact hk.goto
  split at hok
  · obtain ⟨rfl, rfl⟩ := Prod.mk.inj (Except.ok.inj hok)
    exact hk.goto
  · next ipcPerm _ =>
    obtain ⟨t, hwake, hret⟩ := bind_eq_ok.1 hok
    obtain ⟨rfl, rfl⟩ := Prod.mk.inj (Except.ok.inj hret)
    have hset := hi.setData y (fun P => { P with
      ipcPerm := ipcPerm
      ipcRecving := false
      ipcFrom := (s.procs p).pid
      ipcValue := value }) rfl rfl rfl
    exact ((hk.setProc rfl).wakeup1 (by simp) (by simp) hset.queued hwake).goto

theorem Calm.tick (hk : Calm r s) (hok : Sched.tick s p = .ok s') : Calm r s' := by
  unfold Sched.tick at hok
  dsimp only at hok
  have hset : Calm r (({ s with jiffs := (s.jiffs + 1) % 2 ^ 32 } : Sys).setProc p fun P => { P with
      sleepAvg := P.sleepAvg - 1
      timesliceLeft := (P.timesliceLeft + (2 ^ 32 - 1)) % 2 ^ 32 }) := by
    refine Calm.setProc ?_ rfl
    exact hk.congr rfl rfl rfl rfl rfl
  split at hok
  · exact hset.yield hok
  · obtain rfl := Except.ok.inj hok
    exact hset

/-- **Every step of a process** but a fork leaves the queues to those that join the run queue. -/
theorem procStep_calm (hi : Inv s xs) (hp : s.mode = .process p) {o : Op}
    (hok : procStep s p (s.conts p) o = .ok s') :
    Calm s s' ∨ ∃ a, o = .clone a ∧ clone s p a = .ok s' := by
  have hk := Calm.refl s
  have hq := hi.queued
  have hnone := hi.cur_queue hp
  generalize hc : s.conts p = c at hok
  unfold procStep at hok
  split at hok
  · cases hok
  · exact Or.inl (hk.wakeup1 (by simp) (by simp) hq hok)
  · exact Or.inl (hk.tick hok)
  · exact Or.inl (hk.yield hok)
  · exact Or.inl (hk.sleep hok)
  · exact Or.inl (hk.sleep hok)
  · exact Or.inl (hk.sleep hok)
  · exact Or.inl (hk.kill hq hok)
  · exact Or.inr ⟨_, rfl, hok⟩
  · exact Or.inl (hk.cloneFinish (hi.son p _ hc).2.1 hok)
  · exact Or.inl (hk.wait hok)
  · exact Or.inl (hk.wait hok)
  · exact Or.inl (hk.exit hnone hok)
  · exact Or.inl (hk.exitFinish hq hok)
  · exact Or.inl (hk.ipcLookup hok)
  · obtain ⟨⟨t, e⟩, hsend, hret⟩ := bind_eq_ok.1 hok
    obtain rfl := Except.ok.inj hret
    exact Or.inl (hk.ipcTrySend hi hsend)
  · split at hok
    · obtain rfl := Except.ok.inj hok
      exact Or.inl hk
    · exact Or.inl (Calm.sleep (hk.setProc rfl) hok)
  · obtain rfl := Except.ok.inj hok
    exact Or.inl hk.goto
  · cases hok

/-! ## §3 Ticks -/

/-- What may still be charged before the queues change places: the ticks of all processes but those on
    the exhausted queue. -/
def Sys.owed (s : Sys) : Nat :=
  ∑ y ∈ Finset.range s.nDescs,
    if (s.procs y).procQueue = some s.exhaustedQueue then 0 else (s.procs y).timesliceLeft

theorem Slices.owed_le (hs : Slices s) : s.owed ≤ s.nDescs * (DEFAULT_TIMESLICE * 4) := by
  have hle : ∀ y ∈ Finset.range s.nDescs, (if (s.procs y).procQueue = some s.exhaustedQueue then 0
      else (s.procs y).timesliceLeft) ≤ DEFAULT_TIMESLICE * 4 := by
    intro y _
    split
    · exact Nat.zero_le _
    · exact hs.le y
  calc s.owed ≤ ∑ _y ∈ Finset.range s.nDescs, DEFAULT_TIMESLICE * 4 := Finset.sum_le_sum hle
    _ = s.nDescs * (DEFAULT_TIMESLICE * 4) := by simp

/-- Nobody comes back from the exhausted queue, and no time slice grows but there. -/
theorem owed_mono (hn : t.nDescs = s.nDescs)
    (hstay : ∀ y, (s.procs y).procQueue = some s.exhaustedQueue →
      (t.procs y).procQueue = some t.exhaustedQueue)
    (hleft : ∀ y, (t.procs y).procQueue = some t.exhaustedQueue ∨
      (t.procs y).timesliceLeft ≤ (s.procs y).timesliceLeft) : t.owed ≤ s.owed := by
  unfold Sys.owed
  rw [hn]
  apply Finset.sum_le_sum
  intro y _
  split
  · exact Nat.zero_le _
  · next ht =>
    rw [if_neg fun hy => ht (hstay y hy)]
    exact (hleft y).resolve_left ht

theorem Calm.stays (hk : Calm s t) (hy : (s.procs y).procQueue = some q) :
    (t.procs y).procQueue = some q := by
  rcases hk.queue y with hsame | ⟨hnone, -⟩
  · exact hsame.trans hy
  · exact nomatch hnone.symm.trans hy

theorem Calm.owed_le (hk : Calm s t)
    (hleft : ∀ y, (t.procs y).timesliceLeft ≤ (s.procs y).timesliceLeft) : t.owed ≤ s.owed := by
  refine owed_mono hk.descs ?_ fun y => Or.inr (hleft y)
  intro y hy
  rw [hk.exhausted]
  exact hk.stays hy

/-- A tick that is charged is paid for by the process that runs. -/
theorem tick_owed (hs : Slices s) (hi : Inv s xs) (hp : s.mode = .process p)
    (hok : tick s p = .ok t) : t.owed + 1 ≤ s.owed := by
  have hk := (Calm.refl s).tick hok
  obtain ⟨hcharge, hother, -⟩ := tick_slice hs hp hok
  have hmem : p ∈ Finset.range s.nDescs := Finset.mem_range.2 (hi.cur_lt hp)
  have hpay : (if (s.procs p).procQueue = some s.exhaustedQueue then 0
      else (s.procs p).timesliceLeft) = (s.procs p).timesliceLeft :=
    if_neg (by simp [hi.cur_queue hp])
  unfold Sys.owed
  rw [hk.descs, hk.exhausted, ← Finset.add_sum_erase _ _ hmem, ← Finset.add_sum_erase _ _ hmem, hpay]
  -- the other processes have what they had
  have hrest : ∑ y ∈ (Finset.range s.nDescs).erase p,
      (if (t.procs y).procQueue = some s.exhaustedQueue then 0 else (t.procs y).timesliceLeft) ≤
      ∑ y ∈ (Finset.range s.nDescs).erase p,
      if (s.procs y).procQueue = some s.exhaustedQueue then 0 else (s.procs y).timesliceLeft := by
    apply Finset.sum_le_sum
    intro y hy
    split
    · exact Nat.zero_le _
    · next ht =>
      rw [if_neg fun hold => ht (hk.stays hold), hother y (Finset.ne_of_mem_erase hy)]
  have hself : (if (t.procs p).procQueue = some s.exhaustedQueue then 0
      else (t.procs p).timesliceLeft) ≤ (t.procs p).timesliceLeft := by
    split
    · exact Nat.zero_le _
    · exact Nat.le_refl _
  omega

/-! ## §4 Forks -/

theorem getProcDesc_descs {kmalloc : Bool} (hget : getProcDesc s kmalloc = .ok (some p, t)) :
    t.nDescs = s.nDescs ∨ p = s.nDescs ∧ t.nDescs = s.nDescs + 1 := by
  unfold getProcDesc at hget
  split at hget
  · obtain ⟨u, hdel, hret⟩ := bind_eq_ok.1 hget
    obtain ⟨links, _, hlinks⟩ := bind_eq_ok.1 hdel
    obtain rfl := Except.ok.inj hlinks
    obtain ⟨-, rfl⟩ := Prod.mk.inj (Except.ok.inj hret)
    exact Or.inl rfl
  · split at hget
    · obtain ⟨hp, rfl⟩ := Prod.mk.inj (Except.ok.inj hget)
      exact Or.inr ⟨(Option.some.inj hp).symm, rfl⟩
    · obtain ⟨hp, -⟩ := Prod.mk.inj (Except.ok.inj hget)
      cases hp
  · cases hget
  · cases hget

/-- What **a fork** of `p` does: nothing to the queues, and it shares the ticks of `p` with the
    descriptor `d`, which gets one more tick at most. -/
structure Bred (p d : Nat) (s t : Sys) : Prop where
  ne : d ≠ p
  run : t.runQueue = s.runQueue
  exhausted : t.exhaustedQueue = s.exhaustedQueue
  descs : t.nDescs = s.nDescs ∨ d = s.nDescs ∧ t.nDescs = s.nDescs + 1
  queue : ∀ y, (t.procs y).procQueue = (s.procs y).procQueue
  counts : ∀ q, (t.queues q).nProcs = (s.queues q).nProcs
  other : ∀ y, y ≠ d → y ≠ p → (t.procs y).timesliceLeft = (s.procs y).timesliceLeft
  shared : (t.procs p).timesliceLeft + (t.procs d).timesliceLeft ≤ (s.procs p).timesliceLeft + 1

theorem clone_bred (hs : Slices s) (hi : Inv s xs) (hp : s.mode = .process p) {a : AllocResults}
    (hok : clone s p a = .ok t) : t = s ∨ ∃ d, Bred p d s t := by
  rcases clone_cases hok with hsame | ⟨d, u, hget, hrest⟩
  · exact Or.inl hsame
  obtain ⟨ys, hq, hlt, -, hnew, hu, -⟩ := getProcDesc_spec hi.queued hget
  have hfree := hi.desc_free hnew
  have hdp : d ≠ p := by
    rintro rfl
    exact (hi.cur_status hp).2.1 hfree
  have hprocs : u.procs = Function.update s.procs d Proc.zero := by rw [hu]; rfl
  -- a free descriptor is on no queue
  have hnone : (s.procs d).procQueue = none := by
    cases hqueue : (s.procs d).procQueue with
    | none => rfl
    | some q => cases hfree.symm.trans (hi.queued.on _ d (hi.queued.mem_queue hqueue)).2.2.1
  refine Or.inr ⟨d, ?_⟩
  rcases hrest with hdestroy | rfl
  · obtain ⟨xs', _, ht, _⟩ := procDescDestroy_spec hq hlt hdestroy
    have hprocs' : t.procs = (u.freed d).procs := by rw [ht]; rfl
    have hother : ∀ y, y ≠ d → t.procs y = s.procs y := by
      intro y hy
      simp [hprocs', Sys.freed, Sys.setProc, hprocs, hy]
    have hself : t.procs d = { Proc.zero with status := .free } := by
      simp [hprocs', Sys.freed, Sys.setProc, hprocs]
    refine ⟨hdp, ?_, ?_, ?_, ?_, ?_, ?_, ?_⟩
    · rw [ht, hu]
      rfl
    · rw [ht, hu]
      rfl
    · have hn : t.nDescs = u.nDescs := by rw [ht]; rfl
      rw [hn]
      exact getProcDesc_descs hget
    · intro y
      by_cases hy : y = d
      · rw [hy, hself, hnone]
        rfl
      · rw [hother y hy]
    · intro q
      rw [ht, hu]
      rfl
    · exact fun y hy _ => by rw [hother y hy]
    · rw [hother p hdp.symm, hself]
      exact Nat.le_succ _
  · have hpos := hs.live p (.of_mode hp)
    refine ⟨hdp, ?_, ?_, ?_, ?_, ?_, ?_, ?_⟩
    · rw [hu]
      rfl
    · rw [hu]
      rfl
    · show u.nDescs = s.nDescs ∨ d = s.nDescs ∧ u.nDescs = s.nDescs + 1
      exact getProcDesc_descs hget
    · intro y
      by_cases hyd : y = d
      · subst hyd
        simp [dupProc, initProc, Sys.goto, Sys.setProc, hprocs, hdp, hnone, Proc.zero]
      · by_cases hyp : y = p
        · subst hyp
          simp [dupProc, initProc, Sys.goto, Sys.setProc, hprocs, hyd]
        · simp [dupProc, initProc, Sys.goto, Sys.setProc, hprocs, hyd, hyp]
    · intro q
      rw [hu]
      rfl
    · intro y hy hyp
      simp [dupProc, initProc, Sys.goto, Sys.setProc, hprocs, hy, hyp]
    · have hhalf : ∀ y, y = p ∨ y = d →
          (((dupProc (initProc u d) p d).goto p (.clone d)).procs y).timesliceLeft =
            max ((s.procs p).timesliceLeft / 2) 1 := by
        rintro y (rfl | rfl)
        · simp [dupProc, initProc, Sys.goto, Sys.setProc, hprocs, hdp.symm]
        · simp [dupProc, initProc, Sys.goto, Sys.setProc, hprocs, hdp.symm]
      rw [hhalf p (Or.inl rfl), hhalf d (Or.inr rfl)]
      omega

/-- What a fork adds to the ticks that may be charged. -/
theorem Bred.owed_le (hb : Bred p d s t) (hlt : p < s.nDescs) (hnone : (s.procs p).procQueue = none) :
    t.owed ≤ s.owed + 1 := by
  have hsub : Finset.range t.nDescs ⊆ insert d (Finset.range s.nDescs) := by
    intro y hy
    rw [Finset.mem_insert, Finset.mem_range]
    have hy := Finset.mem_range.1 hy
    rcases hb.descs with hn | ⟨hd, hn⟩
    · exact Or.inr (hn ▸ hy)
    · omega
  have hpmem : p ∈ (Finset.range s.nDescs).erase d :=
    Finset.mem_erase.2 ⟨hb.ne.symm, Finset.mem_range.2 hlt⟩
  let w (u : Sys) (y : Nat) : Nat :=
    if (u.procs y).procQueue = some s.exhaustedQueue then 0 else (u.procs y).timesliceLeft
  have hle : ∀ u y, w u y ≤ (u.procs y).timesliceLeft := by
    intro u y
    dsimp only [w]
    split
    · exact Nat.zero_le _
    · exact Nat.le_refl _
  have hpay : w s p = (s.procs p).timesliceLeft := if_neg (by simp [hnone])
  have hrest : ∀ y ∈ ((Finset.range s.nDescs).erase d).erase p, w t y = w s y := by
    intro y hy
    have hyp := Finset.ne_of_mem_erase hy
    have hyd := Finset.ne_of_mem_erase (Finset.mem_of_mem_erase hy)
    dsimp only [w]
    rw [hb.queue y, hb.other y hyd hyp]
  have hshared := hb.shared
  have htd := hle t d
  have htp := hle t p
  calc t.owed = ∑ y ∈ Finset.range t.nDescs, w t y := by
        unfold Sys.owed
        rw [hb.exhausted]
    _ ≤ ∑ y ∈ insert d (Finset.range s.nDescs), w t y :=
        Finset.sum_le_sum_of_subset hsub
    _ = w t d + (w t p + ∑ y ∈ ((Finset.range s.nDescs).erase d).erase p, w t y) := by
        rw [← Finset.add_sum_erase _ _ (Finset.mem_insert_self d _), Finset.erase_insert_eq_erase,
          ← Finset.add_sum_erase _ _ hpmem]
    _ = w t d + (w t p + ∑ y ∈ ((Finset.range s.nDescs).erase d).erase p, w s y) := by
        rw [Finset.sum_congr rfl hrest]
    _ ≤ 1 + (w s p + ∑ y ∈ ((Finset.range s.nDescs).erase d).erase p, w s y) := by omega
    _ = 1 + ∑ y ∈ (Finset.range s.nDescs).erase d, w s y := by
        rw [Finset.add_sum_erase _ _ hpmem]
    _ ≤ 1 + ∑ y ∈ Finset.range s.nDescs, w s y := by
        gcongr
        exact Finset.erase_subset ..
    _ = s.owed + 1 := Nat.add_comm ..

/-! ## §5 The turn of the scheduler -/

/-- The process `p`, which the scheduler comes from, goes on one of the queues. -/
structure Put (p : Nat) (s t : Sys) : Prop where
  run : t.runQueue = s.runQueue
  exhausted : t.exhaustedQueue = s.exhaustedQueue
  descs : t.nDescs = s.nDescs
  other : ∀ y, y ≠ p → (t.procs y).procQueue = (s.procs y).procQueue
  self : (t.procs p).procQueue =
    some (if (s.procs p).timesliceLeft = 0 then s.exhaustedQueue else s.runQueue)
  counted : Counted s → Counted t

theorem reenter_put (hnone : (s.procs p).procQueue = none) (hok : reenter s p = .ok t) :
    Put p s t := by
  -- priority and time slice are computed anew before the process is put on a queue
  have hjoin : ∀ {f : Proc → Proc} {q : QueueId}, (∀ P, (f P).procQueue = P.procQueue) →
      addProcToQueue (s.setProc p f) q p = .ok t →
      q = (if (s.procs p).timesliceLeft = 0 then s.exhaustedQueue else s.runQueue) → Put p s t := by
    intro f q hf hadd hq
    have hsame : ∀ y, ((s.setProc p f).procs y).procQueue = (s.procs y).procQueue := by
      intro y
      by_cases hy : y = p
      · subst hy
        simp [Sys.setProc, hf]
      · simp [Sys.setProc, hy]
    obtain ⟨ht, -⟩ := addProcToQueue_writes hadd
    have hprocs := addProcToQueue_procs hadd
    refine ⟨?_, ?_, ?_, ?_, ?_, ?_⟩
    · rw [ht]
      rfl
    · rw [ht]
      rfl
    · rw [ht]
      rfl
    · intro y hy
      rw [hprocs, Function.update_of_ne hy, hsame y]
    · rw [hprocs, Function.update_self, ← hq]
    · intro hc
      exact (hc.congr (t := s.setProc p f) hsame fun _ => rfl).join ((hsame p).trans hnone) hadd
  unfold reenter at hok
  dsimp only at hok
  split at hok
  · next hzero =>
    refine hjoin (f := fun P => { P with
      priority := recalculatePriority P
      timeslice := taskTimeslice { P with priority := recalculatePriority P } / 2
      sleepAvg := 0
      timesliceLeft := taskTimeslice { P with priority := recalculatePriority P } / 2 })
      (fun _ => rfl) ?_ (if_pos hzero).symm
    simpa [Sys.setProc] using hok
  · next hleft =>
    refine hjoin (f := fun P => { P with
      priority := recalculatePriority P
      timeslice := taskTimeslice { P with priority := recalculatePriority P } / 2
      sleepAvg := 0 }) (fun _ => rfl) ?_ (if_neg hleft).symm
    simpa [Sys.setProc] using hok

theorem requeue_put (hok : requeue s p = .ok t) : Put p s t := by
  unfold requeue at hok
  split at hok
  · obtain ⟨u, hdel, hre⟩ := bind_eq_ok.1 hok
    obtain ⟨q, _, hu, _⟩ := delProcFronQueue_writes hdel
    have hprocs : u.procs = Function.update s.procs p { s.procs p with procQueue := none } := by
      rw [hu]
      rfl
    have hrun : u.runQueue = s.runQueue := by rw [hu]; rfl
    have hexh : u.exhaustedQueue = s.exhaustedQueue := by rw [hu]; rfl
    have hput := reenter_put (by simp [hprocs]) hre
    refine ⟨hput.run.trans hrun, hput.exhausted.trans hexh, ?_, ?_, ?_, ?_⟩
    · rw [hput.descs, hu]
      rfl
    · intro y hy
      rw [hput.other y hy, hprocs, Function.update_of_ne hy]
    · rw [hput.self, hrun, hexh, hprocs, Function.update_self]
    · exact fun hc => hput.counted (hc.leave hdel)
  · next hnone => exact reenter_put (by simpa using hnone) hok

/-- What holds of the queues in every state that is reached. -/
structure Fair (s : Sys) : Prop where
  counted : Counted s
  ne : s.runQueue ≠ s.exhaustedQueue
  /-- The process that the scheduler comes from is on no queue, or was woken up since. -/
  last : ∀ p, s.mode = .scheduler (some p) → (s.procs p).procQueue = none ∨
    (s.procs p).procQueue = some s.runQueue ∧ 1 ≤ (s.procs p).timesliceLeft

/-- The first half of a turn: nobody leaves a queue for the other one. -/
structure Turn (s u : Sys) : Prop where
  queued : ∃ xs, Queued none u xs
  counted : Counted u
  run : u.runQueue = s.runQueue
  exhausted : u.exhaustedQueue = s.exhaustedQueue
  descs : u.nDescs = s.nDescs
  stays : ∀ y q, (s.procs y).procQueue = some q → (u.procs y).procQueue = some q
  owed : u.owed ≤ s.owed

theorem Turn.refl (hf : Fair s) (hi : Inv s xs) : Turn s s :=
  ⟨⟨xs, hi.queued⟩, hf.counted, rfl, rfl, rfl, fun _ _ hy => hy, Nat.le_refl _⟩

theorem requeue_turn (hf : Fair s) (hi : Inv s xs) (hm : s.mode = .scheduler (some p))
    (hst : (s.procs p).status = .runnable) (hok : requeue s p = .ok t) : Turn s t := by
  have hput := requeue_put hok
  have hr := requeue_renewed hok
  obtain ⟨t', ys, hok', hq, -⟩ := requeue_spec hi.queued (hi.lt_nDescs (by simp [hst])) hst
  obtain rfl := Except.ok.inj (hok.symm.trans hok')
  have hstays : ∀ y q, (s.procs y).procQueue = some q → (t.procs y).procQueue = some q := by
    intro y q hy
    by_cases hyp : y = p
    · subst hyp
      rcases hf.last y hm with hnone | ⟨hrun, hpos⟩
      · exact nomatch hnone.symm.trans hy
      · rw [hput.self, if_neg (by omega), ← hrun, hy]
    · rw [hput.other y hyp, hy]
  refine ⟨⟨ys, hq⟩, hput.counted hf.counted, hput.run, hput.exhausted, hput.descs, hstays, ?_⟩
  apply owed_mono hput.descs
  · intro y hy
    rw [hput.exhausted]
    exact hstays y _ hy
  · intro y
    by_cases hyp : y = p
    · subst hyp
      by_cases hzero : (s.procs y).timesliceLeft = 0
      · left
        rw [hput.self, if_pos hzero, hput.exhausted]
      · exact Or.inr (Nat.le_of_eq ((hr.kept hzero).left y))
    · exact Or.inr (Nat.le_of_eq (hr.other hyp))

/-- The process that the scheduler runs comes from the run queue. -/
theorem pick_cases (hq : Queued none s xs) (hok : pick s = .ok t) :
    t = { s with mode := .scheduler none } ∨ ∃ p, (s.procs p).procQueue = some s.runQueue ∧
      t.mode = .process p ∧ t.runQueue = s.runQueue ∧ t.exhaustedQueue = s.exhaustedQueue ∧
      t.nDescs = s.nDescs ∧ (∀ y, y ≠ p → t.procs y = s.procs y) ∧
      (t.procs p).timesliceLeft = (s.procs p).timesliceLeft ∧ (Counted s → Counted t) := by
  unfold pick at hok
  dsimp only at hok
  split at hok
  · next hprior =>
    right
    obtain ⟨p, l, hl⟩ := List.exists_cons_of_ne_nil
      ((hq.bitmap s.runQueue _ hprior).1 (findFirstSet_spec _ hprior))
    have hp : p ∈ xs (.procsInQueue s.runQueue
        (findFirstSet (s.queues s.runQueue).priorityBitmap)) := by
      rw [hl]
      exact List.mem_cons_self
    have hnext := hq.lists.next_head (hq.inited hp)
    rw [hl] at hnext
    simp only [hnext, List.head?_cons, Option.map_some, Option.getD_some] at hok
    obtain ⟨u, hdel, hret⟩ := bind_eq_ok.1 hok
    obtain rfl := Except.ok.inj hret
    obtain ⟨q, _, hu, _⟩ := delProcFronQueue_writes hdel
    have hprocs : u.procs = Function.update s.procs p { s.procs p with procQueue := none } := by
      rw [hu]
      rfl
    refine ⟨p, (hq.on _ p hp).2.2.2.1, rfl, ?_, ?_, ?_, ?_, ?_, ?_⟩
    · rw [hu]
      rfl
    · rw [hu]
      rfl
    · rw [hu]
      rfl
    · intro y hy
      simp [Sys.setProc, hprocs, hy]
    · simp [Sys.setProc, hprocs]
    · intro hc
      refine (hc.leave hdel).congr ?_ fun _ => rfl
      intro y
      by_cases hy : y = p
      · subst hy
        simp [Sys.setProc]
      · simp [Sys.setProc, hy]
  · exact Or.inl (Except.ok.inj hok).symm

/-- **A turn of the scheduler**: nobody leaves a queue but the process that runs, no ticks are given
    back, and the queues change places only when the run queue is empty. -/
theorem schedule_on (hf : Fair s) (hi : Inv s xs) {o : Option Nat} (hm : s.mode = .scheduler o)
    (hok : schedule s o = .ok t) : Fair t ∧ t.nDescs = s.nDescs ∧
      (∀ y q, (s.procs y).procQueue = some q → (t.procs y).procQueue = some q ∨ t.mode = .process y) ∧
      (t.runQueue = s.runQueue ∧ t.exhaustedQueue = s.exhaustedQueue ∧ t.owed ≤ s.owed ∨
        t.runQueue = s.exhaustedQueue ∧ t.exhaustedQueue = s.runQueue ∧
          (s.nDescs < 2 ^ 32 → ∀ y, (s.procs y).procQueue ≠ some s.runQueue)) := by
  obtain ⟨u, hturn, hpick⟩ : ∃ u, Turn s u ∧ pick (swapQueues u) = .ok t := by
    unfold schedule at hok
    cases o with
    | none => exact ⟨s, .refl hf hi, hok⟩
    | some p =>
      dsimp only at hok
      split at hok
      · next hst =>
        obtain ⟨u, hre, hpick⟩ := bind_eq_ok.1 hok
        exact ⟨u, requeue_turn hf hi hm hst hre, hpick⟩
      · exact ⟨s, .refl hf hi, hok⟩
  obtain ⟨ys, hq⟩ := hturn.queued
  have hne : u.runQueue ≠ u.exhaustedQueue := by
    rw [hturn.run, hturn.exhausted]
    exact hf.ne
  -- the queues change places
  obtain ⟨v, hv, hqv, hcv, hprocs, hn, hnev, hsame⟩ : ∃ v, swapQueues u = v ∧ Queued none v ys ∧
      Counted v ∧ v.procs = u.procs ∧ v.nDescs = u.nDescs ∧ v.runQueue ≠ v.exhaustedQueue ∧
      (v = u ∨ (u.queues u.runQueue).nProcs = 0 ∧ v.runQueue = u.exhaustedQueue ∧
        v.exhaustedQueue = u.runQueue) := by
    unfold swapQueues
    split
    · next hzero =>
      exact ⟨_, rfl, hq.congr rfl rfl rfl fun _ => ⟨rfl, rfl, rfl⟩,
        hturn.counted.congr (fun _ => rfl) fun _ => rfl, rfl, rfl, hne.symm,
        Or.inr ⟨hzero, rfl, rfl⟩⟩
    · exact ⟨u, rfl, hq, hturn.counted, rfl, rfl, hne, Or.inl rfl⟩
  rw [hv] at hpick
  -- the process that runs leaves the run queue
  obtain ⟨hct, hrun, hexh, hnt, hmode, hstay, howed⟩ : Counted t ∧ t.runQueue = v.runQueue ∧
      t.exhaustedQueue = v.exhaustedQueue ∧ t.nDescs = v.nDescs ∧
      (∀ p, t.mode ≠ .scheduler (some p)) ∧
      (∀ y, t.mode = .process y ∨ (t.procs y).procQueue = (v.procs y).procQueue) ∧
      t.owed ≤ v.owed := by
    rcases pick_cases hqv hpick with rfl | ⟨p, hp, hm', hr', he', hn', hother, hleft, hc'⟩
    · exact ⟨hcv.congr (fun _ => rfl) fun _ => rfl, rfl, rfl, rfl, by simp, fun _ => Or.inr rfl,
        Nat.le_refl _⟩
    · refine ⟨hc' hcv, hr', he', hn', by simp [hm'], ?_, owed_mono hn' ?_ ?_⟩
      · intro y
        by_cases hy : y = p
        · exact Or.inl (hy ▸ hm')
        · exact Or.inr (by rw [hother y hy])
      · intro y hy
        have hyp : y ≠ p := by
          rintro rfl
          exact hnev (Option.some.inj (hp.symm.trans hy))
        rw [hother y hyp, he']
        exact hy
      · intro y
        right
        by_cases hy : y = p
        · rw [hy]
          exact Nat.le_of_eq hleft
        · rw [hother y hy]
  refine ⟨⟨hct, ?_, fun p hp => absurd hp (hmode p)⟩, ?_, ?_, ?_⟩
  · rw [hrun, hexh]
    exact hnev
  · rw [hnt, hn, hturn.descs]
  · intro y q hy
    refine (hstay y).symm.imp ?_ id
    intro h
    rw [h, hprocs]
    exact hturn.stays y q hy
  · rcases hsame with rfl | ⟨hzero, hvr, hve⟩
    · exact Or.inl ⟨hrun.trans hturn.run, hexh.trans hturn.exhausted, howed.trans hturn.owed⟩
    · refine Or.inr ⟨?_, ?_, ?_⟩
      · rw [hrun, hvr, hturn.exhausted]
      · rw [hexh, hve, hturn.run]
      · intro hmem y hy
        -- the counter is zero, and does not wrap around
        have hon : y ∈ u.on u.runQueue := by
          rw [hturn.run]
          exact hturn.stays y _ hy
        have hpos := (Set.ncard_pos (hturn.counted.finite _)).2 ⟨y, hon⟩
        have hle : (u.on u.runQueue).ncard ≤ u.nDescs := by
          have hsub : u.on u.runQueue ⊆ ↑(Finset.range u.nDescs) := by
            intro z hz
            exact Finset.mem_coe.2 (Finset.mem_range.2 (hq.on _ z (hq.mem_queue hz)).1)
          simpa using Set.ncard_le_ncard hsub (Finset.finite_toSet _)
        have hcount := hturn.counted.count u.runQueue
        rw [hzero, Nat.mod_eq_of_lt (by rw [hturn.descs] at hle; omega)] at hcount
        omega

/-! ## §6 Every event -/

/-- The ticks that an event charges to a process. -/
def Sys.charge (s : Sys) : Event → Nat
  | .op .tick =>
    match s.mode with
    | .process _ => 1
    | .scheduler _ => 0
  | _ => 0

def Event.forks : Event → Nat
  | .op (.clone _) => 1
  | _ => 0

/-- What an event does to those that wait for the processor, and to the ticks that may be charged
    before they run. -/
structure Round (s : Sys) (e : Event) (t : Sys) : Prop where
  fair : Fair t
  descs : s.nDescs ≤ t.nDescs
  stays : ∀ y q, (s.procs y).procQueue = some q →
    (t.procs y).procQueue = some q ∨ t.mode = .process y
  queues : t.runQueue = s.runQueue ∧ t.exhaustedQueue = s.exhaustedQueue ∧
      t.owed + s.charge e ≤ s.owed + e.forks ∨
    t.runQueue = s.exhaustedQueue ∧ t.exhaustedQueue = s.runQueue ∧ s.charge e = 0 ∧
      (s.nDescs < 2 ^ 32 → ∀ y, (s.procs y).procQueue ≠ some s.runQueue)

theorem tick_queue (hok : tick s p = .ok t) (y : Nat) :
    (t.procs y).procQueue = (s.procs y).procQueue := by
  unfold tick at hok
  dsimp only at hok
  split at hok
  · unfold yield sched at hok
    rw [if_neg (by simp [Sys.setProc])] at hok
    obtain rfl := Except.ok.inj hok
    by_cases hy : y = p
    · subst hy
      simp [Sys.setProc]
    · simp [Sys.setProc, hy]
  · obtain rfl := Except.ok.inj hok
    by_cases hy : y = p
    · subst hy
      simp [Sys.setProc]
    · simp [Sys.setProc, hy]

/-- A step of a process switches to the scheduler, or not. -/
theorem AStep.mode_cases {a b : Abs} {o : Op} (hstep : AStep a o b) (hp : a.mode = .process p) :
    b.mode = .process p ∨ b.mode = .scheduler (some p) := by
  cases hstep with
  | @wakeup c W _ hW hwakes => exact Or.inl (by rw [hwakes.rest]; exact hp)
  | tick => exact Or.inl hp
  | tickYield h => exact Or.inr (by rw [Mode.process.inj (hp.symm.trans h)]; rfl)
  | yield h => exact Or.inr (by rw [Mode.process.inj (hp.symm.trans h)]; rfl)
  | sleep h _ => exact Or.inr (by rw [Mode.process.inj (hp.symm.trans h)]; rfl)
  | killNone => exact Or.inl hp
  | kill _ _ _ => exact Or.inl hp
  | cloneNone => exact Or.inl hp
  | cloneFail _ => exact Or.inl hp
  | clone _ _ _ => exact Or.inl hp
  | cloneAbort _ _ => exact Or.inl hp
  | cloneFinish _ _ => exact Or.inl hp
  | reap _ _ _ => exact Or.inl hp
  | waitSleep h _ _ => exact Or.inr (by rw [Mode.process.inj (hp.symm.trans h)]; rfl)
  | exit _ _ _ => exact Or.inl hp
  | exitFinish h _ _ _ => exact Or.inr (by rw [Mode.process.inj (hp.symm.trans h)]; rfl)
  | lookupNone => exact Or.inl hp
  | lookup _ _ _ => exact Or.inl hp
  | sendFail _ _ _ => exact Or.inl hp
  | send _ _ _ _ => exact Or.inl (by simpa using hp)
  | recvBad _ _ _ => exact Or.inl hp
  | recv h _ _ => exact Or.inr (by rw [Mode.process.inj (hp.symm.trans h)]; rfl)
  | recvReturn _ _ => exact Or.inl hp
  | idle h => cases hp.symm.trans h
  | pick h _ => cases hp.symm.trans h

/-- Processes join the run queue, and the charge is paid for. -/
theorem Calm.round (hk : Calm s t) (hf : Fair s) {e : Event}
    (hlast : ∀ p, t.mode = .scheduler (some p) → (t.procs p).procQueue = none ∨
      (t.procs p).procQueue = some s.runQueue ∧ 1 ≤ (t.procs p).timesliceLeft)
    (howed : t.owed + s.charge e ≤ s.owed + e.forks) : Round s e t where
  fair := by
    refine ⟨hk.counted hf.counted, ?_, ?_⟩
    · rw [hk.run, hk.exhausted]
      exact hf.ne
    · rw [hk.run]
      exact hlast
  descs := Nat.le_of_eq hk.descs.symm
  stays := fun _ _ hy => Or.inl (hk.stays hy)
  queues := Or.inl ⟨hk.run, hk.exhausted, howed⟩

theorem charge_eq_zero {o : Op} (ho : o ≠ .tick) : s.charge (.op o) = 0 := by
  cases o with
  | tick => exact absurd rfl ho
  | _ => rfl

theorem procStep_tick (hok : procStep s p c .tick = .ok t) : tick s p = .ok t := by
  cases c with
  | exited => cases hok
  | _ => exact hok

/-- **A step of a process.** -/
theorem procStep_round (hf : Fair s) (hs : Slices s) (hi : Inv s xs) (hp : s.mode = .process p)
    {o : Op} (hok : step s o = .ok t) : Round s (.op o) t := by
  obtain ⟨-, -, habs⟩ := step_refines hi hok
  have hmode : t.mode = .process p ∨ t.mode = .scheduler (some p) := habs.mode_cases hp
  have hpos := hs.live p (.of_mode hp)
  have hnone := hi.cur_queue hp
  have hself : ∀ y, t.mode = .scheduler (some y) → y = p := by
    intro y hy
    rcases hmode with h | h
    · cases h.symm.trans hy
    · exact (Option.some.inj (Mode.scheduler.inj (h.symm.trans hy))).symm
  have hproc : procStep s p (s.conts p) o = .ok t := by
    unfold step at hok
    rwa [hp] at hok
  by_cases ho : o = .tick
  · subst ho
    have htick := procStep_tick hproc
    refine ((Calm.refl s).tick htick).round hf ?_ ?_
    · intro y hy
      rw [hself y hy]
      exact Or.inl ((tick_queue htick p).trans hnone)
    · have hcharge : s.charge (.op .tick) = 1 := by simp [Sys.charge, hp]
      rw [hcharge]
      exact tick_owed hs hi hp htick
  cases procStep_cases hproc with
  | tick _ => exact absurd rfl ho
  | clone hclone =>
    rcases clone_bred hs hi hp hclone with rfl | ⟨d, hb⟩
    · exact (Calm.refl t).round hf hf.last (Nat.le_add_right ..)
    · refine ⟨⟨hf.counted.congr hb.queue hb.counts, ?_, ?_⟩, ?_, ?_, Or.inl ⟨hb.run, hb.exhausted, ?_⟩⟩
      · rw [hb.run, hb.exhausted]
        exact hf.ne
      · intro y hy
        rw [hself y hy]
        exact Or.inl ((hb.queue p).trans hnone)
      · rcases hb.descs with hn | ⟨-, hn⟩
        · exact Nat.le_of_eq hn.symm
        · omega
      · exact fun y q hy => Or.inl ((hb.queue y).trans hy)
      · rw [charge_eq_zero ho]
        exact hb.owed_le (hi.cur_lt hp) hnone
  | kept hclone hsched hkept =>
    have hk : Calm s t := by
      refine (procStep_calm hi hp hproc).resolve_right ?_
      rintro ⟨a, rfl, -⟩
      exact hclone a rfl
    refine hk.round hf ?_ ?_
    · intro y hy
      rw [hself y hy, hkept.left p]
      rcases hk.queue p with hsame | ⟨-, hrun⟩
      · exact Or.inl (hsame.trans hnone)
      · exact Or.inr ⟨hrun, hpos⟩
    · rw [charge_eq_zero ho]
      exact Nat.le_trans (hk.owed_le fun y => Nat.le_of_eq (hkept.left y)) (Nat.le_add_right ..)

/-- A wake-up while the scheduler is between two turns. -/
theorem wakeup_round (hf : Fair s) (hs : Slices s) (hi : Inv s xs) {n : Nat}
    (hok : wakeup1 s (.chan n) = .ok t) : Round s (.op (.wakeup n)) t := by
  have hk := (Calm.refl s).wakeup1 (by simp) (by simp) hi.queued hok
  have hkept := (Kept.refl s).wakeup1 hok
  obtain ⟨t', ys, hok', hw⟩ :=
    wakeup1_spec hi.queued (h := .chan n) trivial (by simp) (by simp)
  obtain rfl := Except.ok.inj (hok.symm.trans hok')
  have hmode : t.mode = s.mode := by rw [hw.moved]; rfl
  refine hk.round hf ?_ ?_
  · intro p hp
    rw [hkept.left p]
    by_cases hmem : p ∈ xs (.chan n)
    · -- it was asleep, so that it has a tick left
      have hpos := hs.live p (.of_sleeping (hi.queued.on _ p hmem).2.2.1)
      rcases hk.queue p with hsame | ⟨-, hrun⟩
      · exact Or.inl (hsame.trans (hi.queued.waiting (by simp) hmem))
      · exact Or.inr ⟨hrun, hpos⟩
    · rw [hw.queue p hmem]
      exact hf.last p (hmode.symm.trans hp)
  · rw [charge_eq_zero (by simp)]
    exact Nat.le_trans (hk.owed_le fun y => Nat.le_of_eq (hkept.left y)) (Nat.le_add_right ..)

/-- Other fields of the descriptors are written, and other variables. -/
theorem Fair.round (hf : Fair s) {e : Event} (hk : Calm s t) (hmode : t.mode = s.mode)
    (hqueue : ∀ y, (t.procs y).procQueue = (s.procs y).procQueue)
    (hleft : ∀ y, (t.procs y).timesliceLeft = (s.procs y).timesliceLeft) (hcharge : s.charge e = 0) :
    Round s e t := by
  refine hk.round hf ?_ ?_
  · intro p hp
    rw [hqueue p, hleft p]
    exact hf.last p (hmode.symm.trans hp)
  · rw [hcharge]
    exact Nat.le_trans (hk.owed_le fun y => Nat.le_of_eq (hleft y)) (Nat.le_add_right ..)

/-- **Every event.** -/
theorem event_round (hf : Fair s) (hs : Slices s) (hi : Inv s xs) {e : Event}
    (hok : s.event e = .ok t) : Round s e t := by
  cases e with
  | op o =>
    cases hm : s.mode with
    | process p => exact procStep_round hf hs hi hm hok
    | scheduler q =>
      have hstep : step s o = .ok t := hok
      unfold step at hstep
      rw [hm] at hstep
      dsimp only at hstep
      split at hstep
      · exact wakeup_round hf hs hi hstep
      · obtain rfl := Except.ok.inj hstep
        exact hf.round ((Calm.refl s).congr rfl rfl rfl rfl rfl) hm.symm (fun _ => rfl) (fun _ => rfl)
          (by simp [Sys.charge, hm])
      · obtain ⟨hft, hn, hstays, hqueues⟩ := schedule_on hf hi hm hstep
        refine ⟨hft, Nat.le_of_eq hn.symm, hstays, ?_⟩
        rcases hqueues with ⟨hrun, hexh, howed⟩ | ⟨hrun, hexh, hempty⟩
        · exact Or.inl ⟨hrun, hexh, howed⟩
        · exact Or.inr ⟨hrun, hexh, rfl, hempty⟩
      · cases hstep
  | jiffs n =>
    obtain rfl := Except.ok.inj hok
    exact hf.round ((Calm.refl s).congr rfl rfl rfl rfl rfl) rfl (fun _ => rfl) (fun _ => rfl) rfl
  | sleepAvg p n =>
    obtain rfl := Except.ok.inj hok
    have hsame : ∀ y, ((s.setProc p fun P => { P with sleepAvg := n }).procs y).procQueue =
          (s.procs y).procQueue ∧
        ((s.setProc p fun P => { P with sleepAvg := n }).procs y).timesliceLeft =
          (s.procs y).timesliceLeft := by
      intro y
      by_cases hy : y = p
      · subst hy
        simp [Sys.setProc]
      · simp [Sys.setProc, hy]
    exact hf.round ((Calm.refl s).setProc rfl) rfl (fun y => (hsame y).1) (fun y => (hsame y).2) rfl

end

/-! ## §7 Runs -/

/-- The ticks that a run charges to processes. -/
def charged : Sys → List Event → Nat
  | _, [] => 0
  | s, e :: es => s.charge e +
    match s.event e with
    | .ok t => charged t es
    | .error _ => 0

def forks (es : List Event) : Nat := (es.map Event.forks).sum

/-- What every event keeps. -/
structure Sound (s : Sys) : Prop where
  inv : ∃ xs, Inv s xs
  slices : Slices s
  fair : Fair s

section
variable {s t : Sys} {e : Event} {es : List Event} {x : Nat}

theorem Sound.event (h : Sound s) (hok : s.event e = .ok t) : Sound t ∧ Round s e t := by
  obtain ⟨⟨xs, hi⟩, hs, hf⟩ := h
  have hr := event_round hf hs hi hok
  obtain ⟨hi', hs'⟩ := event_slices ⟨xs, hi⟩ hs hok
  exact ⟨⟨hi', hs', hr.fair⟩, hr⟩

theorem Sound.descs_le (h : Sound s) (hrun : es.foldlM Sys.event s = .ok t) : s.nDescs ≤ t.nDescs := by
  induction es generalizing s with
  | nil =>
    obtain rfl := Except.ok.inj hrun
    exact Nat.le_refl _
  | cons e es ih =>
    obtain ⟨u, hok, hrest⟩ := bind_eq_ok.1 hrun
    obtain ⟨hu, hr⟩ := h.event hok
    exact Nat.le_trans hr.descs (ih hu hrest)

theorem charged_cons (hok : s.event e = .ok t) :
    charged s (e :: es) = s.charge e + charged t es := by
  simp only [charged, hok]

/-- **From the run queue**: what is owed is paid for once, and each fork adds a tick. -/
theorem Sound.charged_run (h : Sound s) (hrun : es.foldlM Sys.event s = .ok t)
    (hwait : Meets Sys.event (fun u _ => u.mode ≠ .process x) s es) (hmem : t.nDescs < 2 ^ 32)
    (hx : (s.procs x).procQueue = some s.runQueue ∨ s.mode = .process x) :
    charged s es ≤ s.owed + forks es := by
  induction es generalizing s with
  | nil => exact Nat.zero_le _
  | cons e es ih =>
    obtain ⟨hnot, hwait⟩ := hwait
    obtain ⟨u, hok, hrest⟩ := bind_eq_ok.1 hrun
    have hn := h.descs_le hrun
    obtain ⟨hu, hr⟩ := h.event hok
    -- `x` waits, so it is still on its queue
    have hxq := hx.resolve_right hnot
    rcases hr.queues with ⟨hq, -, howed⟩ | ⟨-, -, -, hempty⟩
    · have hrec := ih hu hrest (hwait u hok) (by
        rw [hq]
        exact hr.stays x _ hxq)
      rw [charged_cons hok]
      simp only [forks, List.map_cons, List.sum_cons] at hrec ⊢
      omega
    · -- the queues do not change places while somebody waits
      exact absurd hxq (hempty (by omega) x)

/-- **From the exhausted queue**: when the queues have changed places, every process may use up what it
    has left. -/
theorem Sound.charged_exhausted (h : Sound s) (hrun : es.foldlM Sys.event s = .ok t)
    (hwait : Meets Sys.event (fun u _ => u.mode ≠ .process x) s es) (hmem : t.nDescs < 2 ^ 32)
    (hx : (s.procs x).procQueue = some s.exhaustedQueue ∨ s.mode = .process x) :
    charged s es ≤ s.owed + forks es + t.nDescs * (DEFAULT_TIMESLICE * 4) := by
  induction es generalizing s with
  | nil => exact Nat.zero_le _
  | cons e es ih =>
    obtain ⟨hnot, hwait⟩ := hwait
    obtain ⟨u, hok, hrest⟩ := bind_eq_ok.1 hrun
    obtain ⟨hu, hr⟩ := h.event hok
    have hxq := hx.resolve_right hnot
    have hstay := hr.stays x _ hxq
    rw [charged_cons hok]
    simp only [forks, List.map_cons, List.sum_cons] at ih ⊢
    rcases hr.queues with ⟨-, hq, howed⟩ | ⟨hq, -, hcharge, -⟩
    · have hrec := ih hu hrest (hwait u hok) (by
        rw [hq]
        exact hstay)
      omega
    -- the queues change places, and from here on `x` is on the run queue
    · have hrec := hu.charged_run hrest (hwait u hok) hmem (by
        rw [hq]
        exact hstay)
      have howed := hu.slices.owed_le
      have hn : u.nDescs * (DEFAULT_TIMESLICE * 4) ≤ t.nDescs * (DEFAULT_TIMESLICE * 4) :=
        Nat.mul_le_mul_right _ (hu.descs_le hrest)
      simp only [forks] at hrec
      omega

/-- A process that is on a queue stays there until it runs. -/
theorem Sound.stays (h : Sound s) (hrun : es.foldlM Sys.event s = .ok t)
    (hwait : Meets Sys.event (fun u _ => u.mode ≠ .process x) s es) {q : QueueId}
    (hx : (s.procs x).procQueue = some q ∨ s.mode = .process x) :
    (t.procs x).procQueue = some q ∨ t.mode = .process x := by
  induction es generalizing s with
  | nil =>
    obtain rfl := Except.ok.inj hrun
    exact hx
  | cons e es ih =>
    obtain ⟨hnot, hwait⟩ := hwait
    obtain ⟨u, hok, hrest⟩ := bind_eq_ok.1 hrun
    obtain ⟨hu, hr⟩ := h.event hok
    exact ih hu hrest (hwait u hok) (hr.stays x _ (hx.resolve_right hnot))

end

/-- After boot the first process is on the run queue, and nobody else is on a queue. -/
theorem boot_fair {s : Sys} (hboot : firstProcess procInit = .ok s) : Fair s := by
  obtain ⟨⟨t, e⟩, halloc, hret⟩ := bind_eq_ok.1 hboot
  cases e with
  | error e => cases hret
  | ok p =>
    obtain ⟨u, hget, rfl⟩ := procAlloc_ok halloc
    obtain ⟨_, _, _, _, _, hu, _⟩ := getProcDesc_spec procInit_queued hget
    obtain ⟨v, hadd, hret⟩ := bind_eq_ok.1 hret
    obtain rfl := Except.ok.inj hret
    have hprocs : u.procs = Function.update procInit.procs p Proc.zero := by rw [hu]; rfl
    obtain ⟨hv, -⟩ := addProcToQueue_writes hadd
    have hmode : v.mode = .scheduler none := by
      rw [hv, hu]
      rfl
    have hbefore : ∀ y, (u.procs y).procQueue = none := by
      intro y
      by_cases hy : y = p
      · simp [hprocs, hy, Proc.zero]
      · simp [hprocs, hy, procInit, Proc.zero]
    have hinit : Counted procInit := by
      have hon : ∀ q, procInit.on q = ∅ := by
        intro q
        ext y
        simp [Sys.on, procInit, Proc.zero]
      refine ⟨fun q => by simp [hon q], fun q => ?_⟩
      rw [hon q, Set.ncard_empty]
      rfl
    have hjoined : Counted v := by
      refine (hinit.congr ?_ ?_).join ?_ hadd
      · intro y
        show _ = (none : Option QueueId)
        by_cases hy : y = p
        · subst hy
          simpa [initProc, Sys.setProc] using hbefore y
        · simpa [initProc, Sys.setProc, hy] using hbefore y
      · intro q
        rw [hu]
        rfl
      · simpa [initProc, Sys.setProc] using hbefore p
    refine ⟨hjoined.congr (fun _ => rfl) fun _ => rfl, ?_, ?_⟩
    · show v.runQueue ≠ v.exhaustedQueue
      rw [hv, hu]
      show QueueId.fst ≠ QueueId.snd
      decide
    · intro y hy
      cases hmode.symm.trans hy

theorem sound_of_events {s : Sys} {es : List Event} (hrun : runEvents es = .ok s) : Sound s := by
  obtain ⟨s₀, hboot, hrest⟩ := bind_eq_ok.1 hrun
  have h₀ : Sound s₀ := ⟨(boot_inv hboot).1, boot_slices hboot, boot_fair hboot⟩
  clear hrun hboot
  induction es generalizing s₀ with
  | nil =>
    obtain rfl := Except.ok.inj hrest
    exact h₀
  | cons e es ih =>
    obtain ⟨t, hstep, hrest⟩ := bind_eq_ok.1 hrest
    exact ih t hrest (h₀.event hstep).1

/-- **No process starves**: take any state of any run from the first process, and a process that is on
    one of the two queues there. However the run goes on, the process stays on its queue until it runs.
    Until then the timer charges other processes at most the ticks that they had left, and one more for
    each fork, when it waits on the run queue; and at most one full time slice for each descriptor on top
    of that, when it waits on the exhausted queue. -/
theorem not_starved (es₀ es : List Event) (s t : Sys) (x : Nat) (q : QueueId)
    (hrun : runEvents es₀ = .ok s) (hx : (s.procs x).procQueue = some q)
    (hrest : es.foldlM Sys.event s = .ok t)
    (hwait : Meets Sys.event (fun u _ => u.mode ≠ .process x) s es) (hmem : t.nDescs < 2 ^ 32) :
    ((t.procs x).procQueue = some q ∨ t.mode = .process x) ∧
      charged s es ≤ s.owed + forks es +
        if q = s.runQueue then 0 else t.nDescs * (DEFAULT_TIMESLICE * 4) := by
  have h := sound_of_events hrun
  refine ⟨h.stays hrest hwait (Or.inl hx), ?_⟩
  split
  · next hq =>
    subst hq
    exact h.charged_run hrest hwait hmem (Or.inl hx)
  · next hq =>
    have hexh : q = s.exhaustedQueue := by
      have hne := h.fair.ne
      cases q with
      | fst => cases hr : s.runQueue <;> cases he : s.exhaustedQueue <;> simp_all
      | snd => cases hr : s.runQueue <;> cases he : s.exhaustedQueue <;> simp_all
    subst hexh
    exact h.charged_exhausted hrest hwait hmem (Or.inl hx)

/-- A process uses up half of the first time slice, and the scheduler takes a turn. -/
def halfUsed : List Event := List.replicate 50 (.op .tick) ++ [.op .schedule]

/-- The first process forks, uses up its half of the time slice, and waits on the exhausted queue until
    its son has used up the other half. -/
theorem not_starved_fork : ∃ s t, runEvents ([.op .schedule, .op (.clone ⟨true, true, true⟩),
      .op (.cloneFinish true)] ++ halfUsed) = .ok s ∧ (s.procs 0).procQueue = some .snd ∧
    halfUsed.foldlM Sys.event s = .ok t ∧
    ((t.procs 0).procQueue = some .snd ∨ t.mode = .process 0) ∧
    charged s halfUsed ≤ s.owed + forks halfUsed + t.nDescs * (DEFAULT_TIMESLICE * 4) := by
  obtain ⟨s, hrun, hq, hwait, hother, hmore⟩ : ∃ s, runEvents ([.op .schedule,
      .op (.clone ⟨true, true, true⟩), .op (.cloneFinish true)] ++ halfUsed) = .ok s ∧
      (s.procs 0).procQueue = some .snd ∧
      Meets Sys.event (fun u _ => u.mode ≠ .process 0) s halfUsed ∧ s.runQueue = .fst ∧
      ((halfUsed.foldlM Sys.event s).toOption.any fun t => decide (t.nDescs < 2 ^ 32)) = true :=
    exists_eq_ok_and (by decide +kernel)
  obtain ⟨t, hrest, hmem⟩ := exists_eq_ok_and hmore
  obtain ⟨hstays, hle⟩ := not_starved _ _ s t 0 .snd hrun hq hrest hwait hmem
  rw [if_neg (by simp [hother])] at hle
  exact ⟨s, t, hrun, hq, hrest, hstays, hle⟩

end WeiOS.Sched
