import Mathlib
import WeiOS.Process.Sched

/-!
# Queues and Wait Lists

What each operation of the scheduler does to the lists of descriptors. `Queued x s xs` says that the
nodes `kinds_list` are linked into the lists `xs`, that every process looks as its list demands, and that
the process `x`, if any, is in hand: it has been taken off a list, or is about to be put on one.

## Main results
- `addProcToQueue_spec`, `delProcFronQueue_spec`: the run queues.
- `sleep_spec`, `wakeup1_spec`, `killProc_spec`: the wait lists.
- `requeue_spec`, `pick_spec`: the scheduler.
- `getProcDesc_spec`, `procDescDestroy_spec`: the descriptor cache.
-/

namespace WeiOS.Sched

open WeiOS.Lib

/-! ## §1 The lists -/

/-- The heads that carry a list: `sleep_alone` belongs to a process. -/
def Inited (s : Sys) : Head → Prop
  | .procsInQueue _ k => k < N_PRIORITY
  | .sleepAlone p => p < s.nDescs ∧ (s.procs p).status ≠ .free
  | .chan _ => True
  | .procsDescCache => True

/-- What a process on a list looks like. -/
def OnHead (P : Proc) (p : Nat) : Head → Prop
  | .procsInQueue q k => P.status = .runnable ∧ P.procQueue = some q ∧ P.priority = k
  | .sleepAlone o => P.status = .sleeping ∧ P.procQueue = none ∧ p = o
  | .chan _ => P.status = .sleeping ∧ P.procQueue = none
  | .procsDescCache => P.status = .free ∧ P.procQueue = none

/-- A head that carries no list is zeroed, or points at itself. -/
def Idle (L : Links (Node Head Nat)) (h : Head) : Prop :=
  L.next (.head h) = none ∨ L.next (.head h) = some (.head h)

/-- The lists are `xs`; the process `x`, if any, has just been taken off a list or is about to be put
    on one. -/
structure Queued (x : Option Nat) (s : Sys) (xs : Head → List Nat) : Prop where
  lists : Lists s.links (Inited s) xs
  empty : ∀ h, ¬ Inited s h → xs h = []
  idle : ∀ h, ¬ Inited s h → Idle s.links h
  on : ∀ h p, p ∈ xs h → p < s.nDescs ∧ x ≠ some p ∧ OnHead (s.procs p) p h
  off : ∀ p, (∀ h, p ∉ xs h) → (s.procs p).procQueue = none ∧
    (x ≠ some p → (s.procs p).status ≠ .sleeping)
  prio : ∀ p, (s.procs p).priority < N_PRIORITY
  bitmap : ∀ q k, k < N_PRIORITY →
    ((s.queues q).priorityBitmap.getLsbD k = true ↔ xs (.procsInQueue q k) ≠ [])

section
variable {x x' : Option Nat} {s s' : Sys} {xs xs' : Head → List Nat} {p y : Nat} {h : Head}
  {q : QueueId} {k : Nat}

/-- No process is on two lists. -/
theorem Queued.unique (hq : Queued x s xs) {h₁ h₂ : Head} (h₁p : p ∈ xs h₁) (h₂p : p ∈ xs h₂) :
    h₁ = h₂ := by
  by_contra hne
  have hin : ∀ h, p ∈ xs h → Inited s h := by
    intro h hp
    by_contra hni
    rw [hq.empty h hni] at hp
    cases hp
  exact hq.lists.disjoint h₁ h₂ (hin h₁ h₁p) (hin h₂ h₂p) hne p h₁p h₂p

theorem Queued.inited (hq : Queued x s xs) (hp : p ∈ xs h) : Inited s h := by
  by_contra hni
  rw [hq.empty h hni] at hp
  cases hp

theorem Queued.nodup (hq : Queued x s xs) (h : Head) : (xs h).Nodup := by
  by_cases hi : Inited s h
  · exact hq.lists.nodup hi
  · rw [hq.empty h hi]
    exact List.nodup_nil

/-- The process in hand is on no list. -/
theorem Queued.inHand (hq : Queued (some p) s xs) (h : Head) : p ∉ xs h := by
  intro hp
  exact (hq.on h p hp).2.1 rfl

/-- A process that is neither queued, nor asleep, nor free is on no list. -/
theorem Queued.not_mem (hq : Queued x s xs) (hqueue : (s.procs p).procQueue = none)
    (hsleep : (s.procs p).status ≠ .sleeping) (hfree : (s.procs p).status ≠ .free) (h : Head) :
    p ∉ xs h := by
  intro hp
  have hon := (hq.on h p hp).2.2
  cases h with
  | procsInQueue q k => simp [OnHead, hqueue] at hon
  | sleepAlone o => exact hsleep hon.1
  | chan c => exact hsleep hon.1
  | procsDescCache => exact hfree hon.1

/-- **One process is moved**: all others stay where they are and as they are. -/
theorem Queued.move (hq : Queued x s xs) (p : Nat) (hx : ∀ y, y ≠ p → (x' = some y ↔ x = some y))
    (hn : s'.nDescs = s.nDescs) (hprocs : ∀ y, y ≠ p → s'.procs y = s.procs y)
    (hlists : Lists s'.links (Inited s') xs') (hempty : ∀ h, ¬ Inited s' h → xs' h = [])
    (hidle : ∀ h, ¬ Inited s' h → Idle s'.links h)
    (hmem : ∀ h y, y ≠ p → (y ∈ xs' h ↔ y ∈ xs h))
    (hon : ∀ h, p ∈ xs' h → p < s.nDescs ∧ x' ≠ some p ∧ OnHead (s'.procs p) p h)
    (hoff : (∀ h, p ∉ xs' h) → (s'.procs p).procQueue = none ∧
      (x' ≠ some p → (s'.procs p).status ≠ .sleeping))
    (hprio : (s'.procs p).priority < N_PRIORITY)
    (hbitmap : ∀ q k, k < N_PRIORITY →
      ((s'.queues q).priorityBitmap.getLsbD k = true ↔ xs' (.procsInQueue q k) ≠ [])) :
    Queued x' s' xs' := by
  refine ⟨hlists, hempty, hidle, ?_, ?_, ?_, hbitmap⟩
  · intro h y hy
    rw [hn]
    by_cases hyp : y = p
    · rw [hyp] at hy ⊢
      exact hon h hy
    · obtain ⟨hlt, hxy, hhead⟩ := hq.on h y ((hmem h y hyp).1 hy)
      rw [hprocs y hyp]
      exact ⟨hlt, fun he => hxy ((hx y hyp).1 he), hhead⟩
  · intro y hy
    by_cases hyp : y = p
    · rw [hyp] at hy ⊢
      exact hoff hy
    · obtain ⟨hqueue, hsleep⟩ := hq.off y fun h hyh => hy h ((hmem h y hyp).2 hyh)
      rw [hprocs y hyp]
      exact ⟨hqueue, fun hxy => hsleep fun he => hxy ((hx y hyp).2 he)⟩
  · intro y
    by_cases hyp : y = p
    · rw [hyp]
      exact hprio
    · rw [hprocs y hyp]
      exact hq.prio y

/-- The heads stay initialised as long as no descriptor is freed or made. -/
theorem inited_congr (hn : s'.nDescs = s.nDescs)
    (hfree : ∀ y, (s'.procs y).status = .free ↔ (s.procs y).status = .free) :
    Inited s' = Inited s := by
  funext h
  cases h with
  | sleepAlone o => simp [Inited, hn, hfree]
  | _ => rfl

/-! ## §2 Bits of a priority bitmap -/

theorem getLsbD_setBit (bm : BitVec 64) {k : Nat} (hk : k < 64) (j : Nat) :
    (bm ||| 1#64 <<< k).getLsbD j = (bm.getLsbD j || decide (j = k)) := by
  rw [← BitVec.twoPow_eq, BitVec.getLsbD_or, BitVec.getLsbD_twoPow]
  by_cases hjk : j = k
  · subst hjk
    simp [hk]
  · simp [hjk, Ne.symm hjk]

theorem getLsbD_clearBit (bm : BitVec 64) (k : Nat) {j : Nat} (hj : j < 64) :
    (bm &&& ~~~(1#64 <<< k)).getLsbD j = (bm.getLsbD j && decide (j ≠ k)) := by
  rw [← BitVec.twoPow_eq, BitVec.getLsbD_and, BitVec.getLsbD_not, BitVec.getLsbD_twoPow]
  by_cases hjk : j = k
  · subst hjk
    simp [hj]
  · simp [hjk, Ne.symm hjk, hj]

/-- `find_first_set` finds a set bit, unless it finds none. -/
theorem findFirstSet_spec (bm : BitVec 64) (h : findFirstSet bm < N_PRIORITY) :
    bm.getLsbD (findFirstSet bm) = true := by
  unfold findFirstSet at h ⊢
  cases hf : (List.range N_PRIORITY).find? fun idx => 1#64 <<< idx &&& bm ≠ 0#64 with
  | none =>
    rw [hf] at h
    exact absurd h (Nat.lt_irrefl N_PRIORITY)
  | some k =>
    have hlt : k < N_PRIORITY := by simpa using List.mem_of_find?_eq_some hf
    have hbit := List.find?_some hf
    simp only [decide_eq_true_eq] at hbit
    exact (Process.shl_and_ne_zero_iff bm (hlt.trans (by decide))).1 hbit

/-! ## §3 Queues -/

/-- Only links, queues and descriptors are written. -/
def Sys.moved (s : Sys) (links : Links (Node Head Nat)) (queues : QueueId → ProcQueue)
    (procs : Nat → Proc) : Sys :=
  { s with links := links, queues := queues, procs := procs }

/-- Taking out an element that occurs once. -/
theorem erase_split {ys zs : List Nat} (hnd : (ys ++ p :: zs).Nodup) :
    (ys ++ p :: zs).erase p = ys ++ zs := by
  have hnot : p ∉ ys := fun hy => (List.nodup_append.1 hnd).2.2 p hy p List.mem_cons_self rfl
  rw [List.erase_append_right _ hnot, List.erase_cons_head]

/-- The heads stay as they are when one process is written and is not freed. -/
theorem inited_moved {links : Links (Node Head Nat)} {queues : QueueId → ProcQueue} {P : Proc}
    (hfree : P.status = .free ↔ (s.procs p).status = .free) :
    Inited (s.moved links queues (Function.update s.procs p P)) = Inited s := by
  apply inited_congr
  · rfl
  · intro y
    by_cases hyp : y = p
    · subst hyp
      simpa [Sys.moved] using hfree
    · simp [Sys.moved, hyp]

theorem mem_update_of_ne {l : List Nat} {h₁ h₂ : Head} (hne : h₂ ≠ h₁) :
    Function.update xs h₁ l h₂ = xs h₂ := Function.update_of_ne hne l xs

/-- The end of a list changes for one process only. -/
theorem mem_append_iff (hyp : y ≠ p) (h₁ h₂ : Head) :
    y ∈ Function.update xs h₁ (xs h₁ ++ [p]) h₂ ↔ y ∈ xs h₂ := by
  by_cases hh : h₂ = h₁
  · subst hh
    simp [hyp]
  · simp [hh]

theorem mem_erase_iff (hyp : y ≠ p) (h₁ h₂ : Head) :
    y ∈ Function.update xs h₁ ((xs h₁).erase p) h₂ ↔ y ∈ xs h₂ := by
  by_cases hh : h₂ = h₁
  · subst hh
    simp [hyp]
  · simp [hh]

/-- A queue with one process more at priority `k`, and with one less. -/
def ProcQueue.enter (Q : ProcQueue) (k : Nat) : ProcQueue :=
  ⟨(Q.nProcs + 1) % 2 ^ 32, Q.priorityBitmap ||| 1#64 <<< k⟩
def ProcQueue.leave (Q : ProcQueue) (k : Nat) (empty : Bool) : ProcQueue :=
  ⟨(Q.nProcs + (2 ^ 32 - 1)) % 2 ^ 32,
    if empty then Q.priorityBitmap &&& ~~~(1#64 <<< k) else Q.priorityBitmap⟩

theorem addProcToQueue_eq {links : Links (Node Head Nat)}
    (hadd : s.links.addTail (.elem p) (.head (.procsInQueue q (s.procs p).priority)) = some links) :
    addProcToQueue s q p = .ok (s.moved links
      (Function.update s.queues q ((s.queues q).enter (s.procs p).priority))
      (Function.update s.procs p { s.procs p with procQueue := some q })) := by
  simp [addProcToQueue, listAddTail, Sys.setQueue, hadd, deref, Sys.setProc, Sys.moved, bind,
    Except.bind, pure, Except.pure, ProcQueue.enter]

/-- **`add_proc_to_queue`**: the process in hand goes on the queue. -/
theorem addProcToQueue_spec (hq : Queued (some p) s xs) (hp : p < s.nDescs)
    (hst : (s.procs p).status = .runnable) (q : QueueId) :
    ∃ s' xs', addProcToQueue s q p = .ok s' ∧ Queued none s' xs' ∧
      s' = s.moved s'.links s'.queues
        (Function.update s.procs p { s.procs p with procQueue := some q }) ∧
      xs' = Function.update xs (.procsInQueue q (s.procs p).priority)
        (xs (.procsInQueue q (s.procs p).priority) ++ [p]) := by
  have hk := hq.prio p
  have hk64 : (s.procs p).priority < 64 := hk.trans (by decide)
  obtain ⟨links, hadd, hlists⟩ := hq.lists.addTail (i := .procsInQueue q (s.procs p).priority) hk
    (a := p) fun h _ => hq.inHand h
  refine ⟨_, _, addProcToQueue_eq hadd, ?_, rfl, rfl⟩
  have hin (queues : QueueId → ProcQueue) : Inited (s.moved links queues
      (Function.update s.procs p { s.procs p with procQueue := some q })) = Inited s :=
    inited_moved Iff.rfl
  apply hq.move p
  · exact fun y hyp => by simp [Ne.symm hyp]
  · rfl
  · exact fun y hyp => Function.update_of_ne hyp ..
  · rw [hin]
    exact hlists
  · intro h hni
    rw [hin] at hni
    rw [Function.update_of_ne]
    · exact hq.empty h hni
    · rintro rfl
      exact hni hk
  · intro h hni
    rw [hin] at hni
    have hnext := hq.lists.addTail_next_head (i := .procsInQueue q (s.procs p).priority) hk
      (fun h _ => hq.inHand h) hadd hni
    simpa [Idle, Sys.moved, hnext] using hq.idle h hni
  · exact fun h y hyp => mem_append_iff hyp _ h
  · intro h hmem
    refine ⟨hp, by simp, ?_⟩
    by_cases hh : h = .procsInQueue q (s.procs p).priority
    · subst hh
      simp [Sys.moved, OnHead, hst]
    · rw [mem_update_of_ne hh] at hmem
      exact absurd hmem (hq.inHand h)
  · intro hnot
    apply absurd _ (hnot (.procsInQueue q (s.procs p).priority))
    simp
  · simpa [Sys.moved] using hk
  · intro r j hj
    by_cases hr : r = q
    · subst hr
      have hold := hq.bitmap r j hj
      by_cases hjk : j = (s.procs p).priority
      · subst hjk
        simp [Sys.moved, ProcQueue.enter, getLsbD_setBit _ hk64]
      · simp only [Sys.moved, ProcQueue.enter, Function.update_self, getLsbD_setBit _ hk64, hjk,
          decide_false, Bool.or_false]
        rw [mem_update_of_ne (by simpa using hjk)]
        exact hold
    · rw [mem_update_of_ne (by simp [hr])]
      simpa [Sys.moved, hr] using hq.bitmap r j hj

theorem delProcFronQueue_eq {links : Links (Node Head Nat)} (hqueue : (s.procs p).procQueue = some q)
    (hdel : s.links.del (.elem p) = some links) :
    delProcFronQueue s p = .ok (s.moved links
      (Function.update s.queues q ((s.queues q).leave (s.procs p).priority
        (links.isEmpty (.head (.procsInQueue q (s.procs p).priority)))))
      (Function.update s.procs p { s.procs p with procQueue := none })) := by
  simp [delProcFronQueue, listDel, hqueue, hdel, deref, bind, Except.bind, pure, Except.pure,
    leaveQueue, Sys.setQueue, Sys.setProc, Sys.moved, ProcQueue.leave]

/-- **`del_proc_fron_queue`**: a queued process is taken in hand. -/
theorem delProcFronQueue_spec (hq : Queued none s xs) (hp : p ∈ xs (.procsInQueue q k)) :
    ∃ s' xs', delProcFronQueue s p = .ok s' ∧ Queued (some p) s' xs' ∧
      s' = s.moved s'.links s'.queues (Function.update s.procs p { s.procs p with procQueue := none }) ∧
      xs' = Function.update xs (.procsInQueue q k) ((xs (.procsInQueue q k)).erase p) := by
  obtain ⟨hlt, _, hst, hqueue, hprio⟩ := hq.on _ p hp
  have hk : k < N_PRIORITY := hprio ▸ hq.prio p
  obtain ⟨ys, zs, hsplit⟩ := List.append_of_mem hp
  have herase : (xs (.procsInQueue q k)).erase p = ys ++ zs := by
    rw [hsplit]
    exact erase_split (hsplit ▸ hq.nodup _)
  obtain ⟨links, hdel, hlists⟩ := hq.lists.del (i := .procsInQueue q k) hk hsplit
  rw [← herase] at hlists
  refine ⟨_, _, delProcFronQueue_eq hqueue hdel, ?_, rfl, rfl⟩
  have hin (queues : QueueId → ProcQueue) : Inited (s.moved links queues
      (Function.update s.procs p { s.procs p with procQueue := none })) = Inited s :=
    inited_moved Iff.rfl
  have hgone : ∀ h, p ∉ Function.update xs (.procsInQueue q k) ((xs (.procsInQueue q k)).erase p) h := by
    intro h hmem
    by_cases hh : h = .procsInQueue q k
    · rw [hh, Function.update_self] at hmem
      exact ((hq.nodup _).mem_erase_iff.1 hmem).1 rfl
    · rw [mem_update_of_ne hh] at hmem
      exact hh (hq.unique hmem hp)
  apply hq.move p
  · exact fun y hyp => by simp [Ne.symm hyp]
  · rfl
  · exact fun y hyp => Function.update_of_ne hyp ..
  · rw [hin]
    exact hlists
  · intro h hni
    rw [hin] at hni
    rw [Function.update_of_ne]
    · exact hq.empty h hni
    · rintro rfl
      exact hni hk
  · intro h hni
    rw [hin] at hni
    have hnext := hq.lists.del_next_head (i := .procsInQueue q k) hk hsplit hdel hni
    simpa [Idle, Sys.moved, hnext] using hq.idle h hni
  · exact fun h y hyp => mem_erase_iff hyp _ h
  · exact fun h hmem => absurd hmem (hgone h)
  · intro _
    simp [Sys.moved]
  · simpa [Sys.moved] using hq.prio p
  · intro r j hj
    have hempty := hlists.isEmpty_iff (i := .procsInQueue q k) hk
    rw [Function.update_self] at hempty
    by_cases hr : r = q
    · subst hr
      have hold := hq.bitmap r j hj
      by_cases hjk : j = k
      · subst hjk
        have hbit : (s.queues r).priorityBitmap.getLsbD j = true :=
          hold.2 (List.ne_nil_of_mem hp)
        simp only [Sys.moved, ProcQueue.leave, Function.update_self, hprio, ne_eq]
        rw [← hempty]
        cases links.isEmpty (.head (.procsInQueue r j))
        · simpa using hbit
        · simp [getLsbD_clearBit _ _ (hj.trans (by decide))]
      · rw [mem_update_of_ne (by simpa using hjk), ← hold]
        simp only [Sys.moved, ProcQueue.leave, Function.update_self, hprio]
        split
        · simp [getLsbD_clearBit _ _ (hj.trans (by decide : N_PRIORITY < 64)), hjk]
        · rfl
    · rw [mem_update_of_ne (by simp [hr])]
      simpa [Sys.moved, hr] using hq.bitmap r j hj

/-! ## §4 One process in hand -/

/-- Only links, queues, and the fields `status`, `proc_queue` and `priority` matter. -/
theorem Queued.congr (hq : Queued x s xs) (hlinks : s'.links = s.links)
    (hqueues : s'.queues = s.queues) (hn : s'.nDescs = s.nDescs)
    (hprocs : ∀ y, (s'.procs y).status = (s.procs y).status ∧
      (s'.procs y).procQueue = (s.procs y).procQueue ∧
      (s'.procs y).priority = (s.procs y).priority) : Queued x s' xs := by
  have hin : Inited s' = Inited s := inited_congr hn fun y => by rw [(hprocs y).1]
  constructor
  · rw [hlinks, hin]
    exact hq.lists
  · rw [hin]
    exact hq.empty
  · rw [hin, hlinks]
    exact hq.idle
  · intro h y hy
    obtain ⟨hlt, hx, hon⟩ := hq.on h y hy
    refine ⟨hn ▸ hlt, hx, ?_⟩
    obtain ⟨hst, hqueue, hprio⟩ := hprocs y
    cases h with
    | _ => simpa [OnHead, hst, hqueue, hprio] using hon
  · intro y hy
    rw [(hprocs y).1, (hprocs y).2.1]
    exact hq.off y hy
  · intro y
    rw [(hprocs y).2.2]
    exact hq.prio y
  · intro q k hk
    rw [hqueues]
    exact hq.bitmap q k hk

/-- A process that is on no list is taken in hand. -/
theorem Queued.take (hq : Queued none s xs) (hp : ∀ h, p ∉ xs h) : Queued (some p) s xs := by
  refine ⟨hq.lists, hq.empty, hq.idle, ?_, ?_, hq.prio, hq.bitmap⟩
  · intro h y hy
    obtain ⟨hlt, _, hon⟩ := hq.on h y hy
    refine ⟨hlt, ?_, hon⟩
    intro he
    obtain rfl := Option.some.inj he
    exact hp h hy
  · intro y hy
    obtain ⟨hqueue, hst⟩ := hq.off y hy
    exact ⟨hqueue, fun _ => hst (by simp)⟩

/-- It may stay off the lists when it is not asleep. -/
theorem Queued.letGo (hq : Queued (some p) s xs) (hst : (s.procs p).status ≠ .sleeping) :
    Queued none s xs := by
  refine ⟨hq.lists, hq.empty, hq.idle, ?_, ?_, hq.prio, hq.bitmap⟩
  · intro h y hy
    obtain ⟨hlt, _, hon⟩ := hq.on h y hy
    exact ⟨hlt, by simp, hon⟩
  · intro y hy
    obtain ⟨hqueue, hsleep⟩ := hq.off y hy
    refine ⟨hqueue, fun _ => ?_⟩
    by_cases hyp : y = p
    · rw [hyp]
      exact hst
    · exact hsleep (by simpa using Ne.symm hyp)

/-- The process in hand is written. -/
theorem Queued.setProc (hq : Queued (some p) s xs) (f : Proc → Proc)
    (hfree : (f (s.procs p)).status = .free ↔ (s.procs p).status = .free)
    (hqueue : (f (s.procs p)).procQueue = none) (hprio : (f (s.procs p)).priority < N_PRIORITY) :
    Queued (some p) (s.setProc p f) xs := by
  have hin : Inited (s.setProc p f) = Inited s := @inited_moved s p s.links s.queues _ hfree
  apply hq.move p
  · exact fun _ _ => Iff.rfl
  · rfl
  · exact fun y hyp => Function.update_of_ne hyp ..
  · rw [hin]
    exact hq.lists
  · rw [hin]
    exact hq.empty
  · rw [hin]
    exact hq.idle
  · exact fun _ _ _ => Iff.rfl
  · exact fun h hmem => absurd hmem (hq.inHand h)
  · intro _
    simpa [Sys.setProc] using hqueue
  · simpa [Sys.setProc] using hprio
  · exact hq.bitmap

theorem listDel_eq {links : Links (Node Head Nat)} (hdel : s.links.del (.elem p) = some links) :
    listDel s p = .ok (s.moved links s.queues s.procs) := by
  simp [listDel, hdel, deref, Sys.moved, bind, Except.bind, pure, Except.pure]

/-- `list_del` on a wait list or on the cache. -/
theorem listDel_spec (hq : Queued none s xs) (hp : p ∈ xs h)
    (hh : ∀ q k, h ≠ .procsInQueue q k) :
    ∃ links, s.links.del (.elem p) = some links ∧
      listDel s p = .ok (s.moved links s.queues s.procs) ∧ Queued (some p) (s.moved links s.queues s.procs)
        (Function.update xs h ((xs h).erase p)) := by
  obtain ⟨hlt, _, hon⟩ := hq.on _ p hp
  have hi := hq.inited hp
  obtain ⟨ys, zs, hsplit⟩ := List.append_of_mem hp
  have herase : (xs h).erase p = ys ++ zs := by
    rw [hsplit]
    exact erase_split (hsplit ▸ hq.nodup _)
  obtain ⟨links, hdel, hlists⟩ := hq.lists.del hi hsplit
  rw [← herase] at hlists
  have hgone : ∀ h', p ∉ Function.update xs h ((xs h).erase p) h' := by
    intro h' hmem
    by_cases hh' : h' = h
    · rw [hh', Function.update_self] at hmem
      exact ((hq.nodup _).mem_erase_iff.1 hmem).1 rfl
    · rw [mem_update_of_ne hh'] at hmem
      exact hh' (hq.unique hmem hp)
  refine ⟨links, hdel, listDel_eq hdel, ?_⟩
  apply hq.move p
  · exact fun y hyp => by simp [Ne.symm hyp]
  · rfl
  · exact fun _ _ => rfl
  · exact hlists
  · intro h' hni
    rw [Function.update_of_ne]
    · exact hq.empty h' hni
    · rintro rfl
      exact hni hi
  · intro h' hni
    have hnext := hq.lists.del_next_head hi hsplit hdel hni
    simpa [Idle, Sys.moved, hnext] using hq.idle h' hni
  · exact fun h' y hyp => mem_erase_iff hyp h h'
  · exact fun h' hmem => absurd hmem (hgone h')
  · intro _
    refine ⟨?_, by simp⟩
    cases h with
    | procsInQueue q k => exact absurd rfl (hh q k)
    | sleepAlone o => exact hon.2.1
    | chan c => exact hon.2
    | procsDescCache => exact hon.2
  · exact hq.prio p
  · intro q k hk
    rw [mem_update_of_ne (hh q k).symm]
    exact hq.bitmap q k hk

/-- The process in hand goes on a wait list or in the cache, as the list demands. -/
theorem Queued.putOn (hq : Queued (some p) s xs) (hlt : p < s.nDescs) (hi : Inited s h)
    (hh : ∀ q k, h ≠ .procsInQueue q k) (hon : OnHead (s.procs p) p h)
    {links : Links (Node Head Nat)} {l : List Nat} (hl : ∀ y, y ∈ l ↔ y = p ∨ y ∈ xs h)
    (hlists : Lists links (Inited s) (Function.update xs h l))
    (hnext : ∀ h, ¬ Inited s h → links.next (.head h) = s.links.next (.head h)) :
    Queued none (s.moved links s.queues s.procs) (Function.update xs h l) := by
  apply hq.move p
  · exact fun y hyp => by simp [Ne.symm hyp]
  · rfl
  · exact fun _ _ => rfl
  · exact hlists
  · intro h' hni
    rw [Function.update_of_ne]
    · exact hq.empty h' hni
    · rintro rfl
      exact hni hi
  · intro h' hni
    simpa [Idle, Sys.moved, hnext h' hni] using hq.idle h' hni
  · intro h' y hyp
    by_cases hh' : h' = h
    · subst hh'
      simp [hl, hyp]
    · rw [mem_update_of_ne hh']
  · intro h' hmem
    refine ⟨hlt, by simp, ?_⟩
    by_cases hh' : h' = h
    · rw [hh']
      exact hon
    · rw [mem_update_of_ne hh'] at hmem
      exact absurd hmem (hq.inHand h')
  · intro hnot
    apply absurd _ (hnot h)
    simp [hl]
  · exact hq.prio p
  · intro q k hk
    rw [mem_update_of_ne (hh q k).symm]
    exact hq.bitmap q k hk

/-! ## §5 Waking -/

/-- What scheduling does not touch. -/
def Proc.data (P : Proc) : Proc :=
  { P with
    status := .runnable, timeslice := 0, timesliceLeft := 0, sleepAvg := 0, sleepStartJiffs := 0
    preempted := false, procQueue := none, priority := 0 }

theorem recalculatePriority_lt (P : Proc) : recalculatePriority P < N_PRIORITY := by
  unfold recalculatePriority
  dsimp only
  split
  · decide
  · split
    · decide
    · unfold N_PRIORITY MAX_USER_PRIO at *
      omega

/-- The loop body of `wakeup1`: a process goes from its wait list to the run queue. -/
theorem wakeOne_spec (hq : Queued none s xs) (hp : p ∈ xs h) (hh : ∀ q k, h ≠ .procsInQueue q k)
    (hcache : h ≠ .procsDescCache) :
    ∃ s' xs', wakeOne s p = .ok s' ∧ Queued none s' xs' ∧
      s' = s.moved s'.links s'.queues s'.procs ∧ (∀ y, y ≠ p → s'.procs y = s.procs y) ∧
      (s'.procs p).data = (s.procs p).data ∧ (s'.procs p).status = .runnable ∧
      xs' h = (xs h).erase p ∧ ∀ h' y, (∀ q k, h' ≠ .procsInQueue q k) → y ∈ xs' h' → y ∈ xs h' := by
  obtain ⟨hlt, _, hon⟩ := hq.on h p hp
  have hst : (s.procs p).status = .sleeping ∧ (s.procs p).procQueue = none := by
    cases h with
    | procsInQueue q k => exact absurd rfl (hh q k)
    | sleepAlone o => exact ⟨hon.1, hon.2.1⟩
    | chan c => exact ⟨hon.1, hon.2⟩
    | procsDescCache => exact absurd rfl hcache
  obtain ⟨links, -, hdel, hhand⟩ := listDel_spec hq hp hh
  have hhand := hhand.setProc (fun P => { P with
      sleepAvg := (P.sleepAvg + (s.jiffs + (2 ^ 32 - P.sleepStartJiffs))) % 2 ^ 32
      sleepStartJiffs := 0
      status := .runnable }) (by simp [Sys.moved, hst.1]) hst.2 (hq.prio p)
  have hhand := hhand.setProc (fun P => { P with priority := recalculatePriority P })
    Iff.rfl (by simp [Sys.setProc, Sys.moved, hst.2]) (recalculatePriority_lt _)
  have hhand := hhand.setProc (fun P => { P with timeslice := taskTimeslice P / 2, sleepAvg := 0 })
    Iff.rfl (by simp [Sys.setProc, Sys.moved, hst.2])
    (by simpa [Sys.setProc, Sys.moved] using recalculatePriority_lt _)
  obtain ⟨s', xs', hadd, hqueued, hmoved, hxs⟩ :=
    addProcToQueue_spec hhand hlt (by simp [Sys.setProc, Sys.moved]) s.runQueue
  refine ⟨s', xs', ?_, hqueued, ?_, ?_, ?_, ?_, ?_, ?_⟩
  · unfold wakeOne
    rw [hdel]
    exact hadd
  · rw [hmoved]
    rfl
  · intro y hyp
    rw [hmoved]
    simp [Sys.moved, Sys.setProc, hyp]
  · rw [hmoved]
    simp [Sys.moved, Sys.setProc, Proc.data]
  · rw [hmoved]
    simp [Sys.moved, Sys.setProc]
  · rw [hxs, Function.update_of_ne (hh _ _), Function.update_self]
  · intro h' y hrun hy
    rw [hxs, Function.update_of_ne (hrun _ _)] at hy
    by_cases hh' : h' = h
    · subst hh'
      rw [Function.update_self] at hy
      exact List.mem_of_mem_erase hy
    · rwa [Function.update_of_ne hh'] at hy

/-- The node behind the first one of a list. -/
theorem Queued.next_first (hq : Queued x s xs) {l : List Nat} (hl : xs h = p :: l) :
    s.links.next (.elem p) = some ((l.head?.map .elem).getD (.head h)) := by
  have hi : Inited s h := hq.inited (by rw [hl]; exact List.mem_cons_self)
  have hc := (hq.lists.ring h hi).chain
  rw [hl, List.map_cons, List.cons_append, List.cons_append, List.isChain_cons_cons] at hc
  cases l with
  | nil => exact (List.isChain_cons_cons.1 hc.2).1.1
  | cons y l => exact (List.isChain_cons_cons.1 hc.2).1.1

/-- After a wake-up of the wait list `h`: its processes are runnable, all else is as before. -/
structure Woken (h : Head) (s : Sys) (xs : Head → List Nat) (s' : Sys) (xs' : Head → List Nat) :
    Prop where
  queued : Queued none s' xs'
  moved : s' = s.moved s'.links s'.queues s'.procs
  runnable : ∀ y ∈ xs h, (s'.procs y).status = .runnable
  status : ∀ y, y ∉ xs h → (s'.procs y).status = (s.procs y).status
  queue : ∀ y, y ∉ xs h → (s'.procs y).procQueue = (s.procs y).procQueue
  data : ∀ y, (s'.procs y).data = (s.procs y).data
  waits : ∀ h' y, (∀ q k, h' ≠ .procsInQueue q k) → y ∈ xs' h' → y ∈ xs h'

/-- The loop of `wakeup1` wakes all that is left of the list. -/
theorem wakeLoop_spec (hh : ∀ q k, h ≠ .procsInQueue q k) (hcache : h ≠ .procsDescCache) {n : Nat}
    (best : Nat) {l : List Nat} (hq : Queued none s xs) (hl : xs h = l) (hn : l.length ≤ n) :
    ∃ s' best' xs', wakeLoop h n ((l.head?.map .elem).getD (.head h)) best s = .ok (s', best') ∧
      Woken h s xs s' xs' := by
  induction l generalizing n best s xs with
  | nil =>
    refine ⟨s, best, xs, by unfold wakeLoop; simp, hq, rfl, ?_, ?_, ?_, ?_, ?_⟩
    · rw [hl]
      nofun
    · exact fun _ _ => rfl
    · exact fun _ _ => rfl
    · exact fun _ => rfl
    · exact fun _ _ _ hy => hy
  | cons p l ih =>
    cases n with
    | zero => simp at hn
    | succ n =>
      have hp : p ∈ xs h := by
        rw [hl]
        exact List.mem_cons_self
      obtain ⟨t, ys, hone, hqt, hmoved, hother, hdata, hst, hys, hwaits⟩ :=
        wakeOne_spec hq hp hh hcache
      rw [hl, List.erase_cons_head] at hys
      obtain ⟨s', best', xs', hloop, hw⟩ :=
        ih (min best (t.procs p).priority) hqt hys (Nat.le_of_succ_le_succ hn)
      have hpl : p ∉ l := by
        have := hq.nodup h
        rw [hl] at this
        exact (List.nodup_cons.1 this).1
      refine ⟨s', best', xs', ?_, hw.queued, ?_, ?_, ?_, ?_, ?_, ?_⟩
      · have hnext := hq.next_first hl
        simp [wakeLoop, hnext, deref, hone, bind, Except.bind, hloop]
      · rw [hw.moved, hmoved]
        rfl
      · intro y hy
        rw [hl] at hy
        by_cases hyl : y ∈ ys h
        · exact hw.runnable y hyl
        · rw [hw.status y hyl]
          rw [hys] at hyl
          obtain rfl := (List.mem_cons.1 hy).resolve_right hyl
          exact hst
      · intro y hy
        rw [hl, List.mem_cons, not_or] at hy
        rw [hw.status y (by rw [hys]; exact hy.2), hother y hy.1]
      · intro y hy
        rw [hl, List.mem_cons, not_or] at hy
        rw [hw.queue y (by rw [hys]; exact hy.2), hother y hy.1]
      · intro y
        rw [hw.data y]
        by_cases hyp : y = p
        · rw [hyp]
          exact hdata
        · rw [hother y hyp]
      · exact fun h' y hrun hy => hwaits h' y hrun (hw.waits h' y hrun hy)

/-- A list has no more nodes than there are descriptors. -/
theorem Queued.length_le (hq : Queued x s xs) (h : Head) : (xs h).length ≤ s.nDescs := by
  have hsub : xs h ⊆ List.range s.nDescs := by
    intro y hy
    exact List.mem_range.2 (hq.on h y hy).1
  have := (hq.nodup h).subperm hsub
  simpa using this.length_le

/-- The flag `preempted` of the running process does not matter. -/
theorem Woken.preempt {t : Sys} (hw : Woken h s xs t xs') (best : Nat) :
    Woken h s xs (preempt t best) xs' := by
  have hprocs : ∀ y, ∃ b, (Sched.preempt t best).procs y = { t.procs y with preempted := b } := by
    intro y
    unfold Sched.preempt
    split
    · next p _ =>
      split
      · by_cases hyp : y = p
        · subst hyp
          exact ⟨true, by simp [Sys.setProc]⟩
        · exact ⟨(t.procs y).preempted, by simp [Sys.setProc, hyp]⟩
      · exact ⟨(t.procs y).preempted, rfl⟩
    · exact ⟨(t.procs y).preempted, rfl⟩
  have hrest : Sched.preempt t best = t.moved t.links t.queues (Sched.preempt t best).procs := by
    unfold Sched.preempt
    split
    · split
      · rfl
      · rfl
    · rfl
  refine ⟨?_, ?_, ?_, ?_, ?_, ?_, hw.waits⟩
  · rw [hrest]
    apply hw.queued.congr
    · rfl
    · rfl
    · rfl
    · intro y
      obtain ⟨b, hb⟩ := hprocs y
      simp [Sys.moved, hb]
  · rw [hrest, hw.moved]
    rfl
  · intro y hy
    obtain ⟨b, hb⟩ := hprocs y
    rw [hb]
    exact hw.runnable y hy
  · intro y hy
    obtain ⟨b, hb⟩ := hprocs y
    rw [hb]
    exact hw.status y hy
  · intro y hy
    obtain ⟨b, hb⟩ := hprocs y
    rw [hb]
    exact hw.queue y hy
  · intro y
    obtain ⟨b, hb⟩ := hprocs y
    rw [hb]
    exact hw.data y

/-- **`wakeup1`** on an initialised wait list succeeds and wakes its processes. -/
theorem wakeup1_spec (hq : Queued none s xs) (hi : Inited s h) (hh : ∀ q k, h ≠ .procsInQueue q k)
    (hcache : h ≠ .procsDescCache) : ∃ s' xs', wakeup1 s h = .ok s' ∧ Woken h s xs s' xs' := by
  obtain ⟨t, best, xs', hloop, hw⟩ :=
    wakeLoop_spec hh hcache N_PRIORITY hq rfl (hq.length_le h)
  refine ⟨_, xs', ?_, hw.preempt best⟩
  simp [wakeup1, hq.lists.next_head hi, deref, bind, Except.bind, hloop, pure, Except.pure]

/-- On a list head in a descriptor that is not in use, `wakeup1` does nothing, or fails. -/
theorem wakeup1_idle (hq : Queued x s xs) (hni : ¬ Inited s h) (hwake : wakeup1 s h = .ok s') :
    s' = s := by
  obtain ⟨t, hnext, hwake⟩ := bind_eq_ok.1 hwake
  rcases hq.idle h hni with hnone | hself
  · rw [hnone] at hnext
    cases hnext
  · rw [hself] at hnext
    obtain rfl := Except.ok.inj hnext
    have hloop : wakeLoop h s.nDescs (.head h) N_PRIORITY s = .ok (s, N_PRIORITY) := by
      unfold wakeLoop
      simp
    rw [hloop] at hwake
    obtain rfl := Except.ok.inj hwake
    -- no process has a worse priority than this
    unfold Sched.preempt
    split
    · next p _ => rw [if_neg (Nat.not_lt.2 (Nat.le_of_lt (hq.prio p)))]
    · rfl

/-! ## §6 The scheduler -/

theorem reenter_spec (hq : Queued (some p) s xs) (hp : p < s.nDescs)
    (hst : (s.procs p).status = .runnable) :
    ∃ s' xs', reenter s p = .ok s' ∧ Queued none s' xs' ∧
      s' = s.moved s'.links s'.queues s'.procs ∧ (∀ y, y ≠ p → s'.procs y = s.procs y) ∧
      (s'.procs p).data = (s.procs p).data ∧ (s'.procs p).status = .runnable ∧
      ∀ h, (∀ q k, h ≠ .procsInQueue q k) → xs' h = xs h := by
  have hqueue : (s.procs p).procQueue = none := (hq.off p hq.inHand).1
  have hhand := hq.setProc (fun P => { P with priority := recalculatePriority P }) Iff.rfl hqueue
    (recalculatePriority_lt _)
  have hhand := hhand.setProc (fun P => { P with timeslice := taskTimeslice P / 2, sleepAvg := 0 })
    Iff.rfl (by simpa [Sys.setProc] using hqueue)
    (by simpa [Sys.setProc] using recalculatePriority_lt _)
  unfold reenter
  dsimp only
  split
  · have hhand := hhand.setProc (fun P => { P with timesliceLeft := P.timeslice })
      Iff.rfl (by simpa [Sys.setProc] using hqueue)
      (by simpa [Sys.setProc] using recalculatePriority_lt _)
    obtain ⟨s', xs', hadd, hqueued, hmoved, hxs⟩ :=
      addProcToQueue_spec hhand hp (by simpa [Sys.setProc] using hst) s.exhaustedQueue
    refine ⟨s', xs', hadd, hqueued, ?_, ?_, ?_, ?_, ?_⟩
    · rw [hmoved]
      rfl
    · intro y hyp
      rw [hmoved]
      simp [Sys.moved, Sys.setProc, hyp]
    · rw [hmoved]
      simp [Sys.moved, Sys.setProc, Proc.data]
    · rw [hmoved]
      simpa [Sys.moved, Sys.setProc] using hst
    · intro h hh
      rw [hxs, Function.update_of_ne (hh _ _)]
  · obtain ⟨s', xs', hadd, hqueued, hmoved, hxs⟩ :=
      addProcToQueue_spec hhand hp (by simpa [Sys.setProc] using hst) s.runQueue
    refine ⟨s', xs', hadd, hqueued, ?_, ?_, ?_, ?_, ?_⟩
    · rw [hmoved]
      rfl
    · intro y hyp
      rw [hmoved]
      simp [Sys.moved, Sys.setProc, hyp]
    · rw [hmoved]
      simp [Sys.moved, Sys.setProc, Proc.data]
    · rw [hmoved]
      simpa [Sys.moved, Sys.setProc] using hst
    · intro h hh
      rw [hxs, Function.update_of_ne (hh _ _)]

/-- A queued process is on the list of its priority. -/
theorem Queued.mem_queue (hq : Queued x s xs) (hqueue : (s.procs p).procQueue = some q) :
    p ∈ xs (.procsInQueue q (s.procs p).priority) := by
  by_contra hnot
  have hoff : ∀ h, p ∉ xs h := by
    intro h hp
    have hon := (hq.on h p hp).2.2
    cases h with
    | procsInQueue r k =>
      obtain ⟨_, hr, hk⟩ := hon
      rw [hqueue] at hr
      obtain rfl := Option.some.inj hr
      exact hnot (hk ▸ hp)
    | sleepAlone o => simp [OnHead, hqueue] at hon
    | chan c => simp [OnHead, hqueue] at hon
    | procsDescCache => simp [OnHead, hqueue] at hon
  rw [(hq.off p hoff).1] at hqueue
  cases hqueue

/-- **The scheduler's process goes back on a queue**, whether or not a wake-up has put it on one. -/
theorem requeue_spec (hq : Queued none s xs) (hp : p < s.nDescs)
    (hst : (s.procs p).status = .runnable) :
    ∃ s' xs', requeue s p = .ok s' ∧ Queued none s' xs' ∧
      s' = s.moved s'.links s'.queues s'.procs ∧ (∀ y, y ≠ p → s'.procs y = s.procs y) ∧
      (s'.procs p).data = (s.procs p).data ∧ (s'.procs p).status = .runnable ∧
      ∀ h, (∀ q k, h ≠ .procsInQueue q k) → xs' h = xs h := by
  unfold requeue
  cases hqueue : (s.procs p).procQueue with
  | none =>
    have hoff := hq.not_mem hqueue (by simp [hst]) (by simp [hst])
    simpa using reenter_spec (hq.take hoff) hp hst
  | some q =>
    obtain ⟨t, ys, hdel, hhand, hmoved, hys⟩ := delProcFronQueue_spec hq (hq.mem_queue hqueue)
    have hlt : p < t.nDescs := by
      rw [hmoved]
      exact hp
    have hstt : (t.procs p).status = .runnable := by
      rw [hmoved]
      simpa [Sys.moved] using hst
    obtain ⟨s', xs', hadd, hqueued, hmoved', hother, hdata, hst', hxs⟩ :=
      reenter_spec hhand hlt hstt
    refine ⟨s', xs', ?_, hqueued, ?_, ?_, ?_, hst', ?_⟩
    · simp [hdel, bind, Except.bind, hadd]
    · rw [hmoved', hmoved]
      rfl
    · intro y hyp
      rw [hother y hyp, hmoved]
      simp [Sys.moved, hyp]
    · rw [hdata, hmoved]
      simp [Sys.moved, Proc.data]
    · intro h hh
      rw [hxs h hh, hys, Function.update_of_ne (hh _ _)]

/-- The scheduler picks a process of the run queue, or idles. -/
theorem pick_spec (hq : Queued none s xs) (hpick : pick s = .ok s') :
    s' = { s with mode := .scheduler none } ∨
      ∃ q k p xs', p ∈ xs (.procsInQueue q k) ∧ Queued none s' xs' ∧
        s' = { s.moved s'.links s'.queues (Function.update s.procs p
          { s.procs p with status := .running, procQueue := none }) with mode := .process p } ∧
        ∀ h, (∀ q k, h ≠ .procsInQueue q k) → xs' h = xs h := by
  unfold pick at hpick
  dsimp only at hpick
  split at hpick
  · next hprior =>
    right
    have hbit := findFirstSet_spec _ hprior
    obtain ⟨p, l, hl⟩ := List.exists_cons_of_ne_nil ((hq.bitmap s.runQueue _ hprior).1 hbit)
    have hp : p ∈ xs (.procsInQueue s.runQueue
        (findFirstSet (s.queues s.runQueue).priorityBitmap)) := by
      rw [hl]
      exact List.mem_cons_self
    have hnext := hq.lists.next_head (hq.inited hp)
    rw [hl] at hnext
    simp only [hnext, List.head?_cons, Option.map_some, Option.getD_some] at hpick
    obtain ⟨t, ys, hdel, hhand, hmoved, hys⟩ := delProcFronQueue_spec hq hp
    simp only [hdel, bind, Except.bind, pure, Except.pure, Except.ok.injEq] at hpick
    refine ⟨_, _, p, ys, hp, ?_, ?_, ?_⟩
    · rw [← hpick]
      have hlet := (hhand.setProc (fun P => { P with status := .running })
        (by
          rw [hmoved]
          simp [Sys.moved, (hq.on _ p hp).2.2.1])
        (hhand.off p hhand.inHand).1 (hhand.prio p)).letGo (by simp [Sys.setProc])
      exact hlet.congr rfl rfl rfl fun _ => ⟨rfl, rfl, rfl⟩
    · rw [← hpick, hmoved]
      simp [Sys.setProc, Sys.moved]
    · intro h hh
      rw [hys, Function.update_of_ne (hh _ _)]
  · left
    exact (Except.ok.inj hpick).symm

/-! ## §7 Sleeping and killing -/

/-- **`sleep`** puts the running process on the wait list. -/
theorem sleep_spec (hq : Queued none s xs) (hp : p < s.nDescs)
    (hst : (s.procs p).status = .running ∨ (s.procs p).status = .zomble)
    (hqueue : (s.procs p).procQueue = none) (hi : Inited s h)
    (hh : h = .sleepAlone p ∨ ∃ c, h = .chan c) {c : Cont} (hsleep : sleep s p h c = .ok s') :
    ∃ xs', Queued none s' xs' ∧ s' = { (s.moved s'.links s.queues (Function.update s.procs p
        { s.procs p with status := .sleeping, sleepStartJiffs := s.jiffs })).goto p c with
        mode := .scheduler (some p) } ∧
      xs' = Function.update xs h (xs h ++ [p]) := by
  have hrun : ∀ q k, h ≠ .procsInQueue q k := by
    rintro q k rfl
    simp at hh
  have hoff : ∀ h, p ∉ xs h := by
    apply hq.not_mem hqueue
    · rcases hst with hst | hst
      · simp [hst]
      · simp [hst]
    · rcases hst with hst | hst
      · simp [hst]
      · simp [hst]
  have hhand := (hq.take hoff).setProc
    (fun P => { P with status := .sleeping, sleepStartJiffs := s.jiffs })
    (by rcases hst with hst | hst <;> simp [hst]) hqueue (hq.prio p)
  have hi' : Inited (s.setProc p fun P => { P with
      status := .sleeping, sleepStartJiffs := s.jiffs }) h := by
    rcases hh with rfl | ⟨c, rfl⟩
    · exact ⟨hp, by simp [Sys.setProc]⟩
    · trivial
  obtain ⟨links, hadd, hlists⟩ := hhand.lists.addTail hi' (a := p) fun h _ => hhand.inHand h
  have hon : OnHead ((s.setProc p fun P => { P with
      status := .sleeping, sleepStartJiffs := s.jiffs }).procs p) p h := by
    rcases hh with rfl | ⟨c, rfl⟩
    · simp [OnHead, Sys.setProc, hqueue]
    · simp [OnHead, Sys.setProc, hqueue]
  have hput := hhand.putOn hp hi' hrun hon (by simp [or_comm]) hlists fun h hni =>
    hhand.lists.addTail_next_head hi' (fun h _ => hhand.inHand h) hadd hni
  have hlinks : s.links.addTail (.elem p) (.head h) = some links := hadd
  simp [sleep, listAddTail, sched, Sys.setProc, Sys.goto, hlinks, deref, bind, Except.bind, pure,
    Except.pure] at hsleep
  refine ⟨_, ?_, ?_, rfl⟩
  · rw [← hsleep]
    exact hput.congr rfl rfl rfl fun _ => ⟨rfl, rfl, rfl⟩
  · rw [← hsleep]
    rfl

/-- What `kill` does to a process, asleep or not. -/
theorem killProc_spec (hq : Queued none s xs) (hkill : killProc s p = .ok s') :
    ∃ xs', Queued none s' xs' ∧ s' = s.moved s'.links s'.queues s'.procs ∧
      (∀ y, y ≠ p → s'.procs y = s.procs y) ∧
      (s'.procs p).data = { (s.procs p).data with killed := true } ∧
      ((s.procs p).status ≠ .sleeping → (s'.procs p).status = (s.procs p).status ∧
        (s'.procs p).procQueue = (s.procs p).procQueue) ∧
      ((s.procs p).status = .sleeping → (s'.procs p).status = .runnable) ∧
      ∀ h' y, (∀ q k, h' ≠ .procsInQueue q k) → y ∈ xs' h' → y ∈ xs h' := by
  have hkilled : Queued none (s.setProc p fun P => { P with killed := true }) xs := by
    apply hq.congr
    · rfl
    · rfl
    · rfl
    · intro y
      by_cases hyp : y = p
      · simp [Sys.setProc, hyp]
      · simp [Sys.setProc, hyp]
  by_cases hst : (s.procs p).status = .sleeping
  · have hlisted : ∃ h, p ∈ xs h := by
      by_contra hnone
      exact (hq.off p fun h hp => hnone ⟨h, hp⟩).2 (by simp) hst
    obtain ⟨h, hp⟩ := hlisted
    obtain ⟨hlt, _, hon⟩ := hq.on h p hp
    have hrun : ∀ q k, h ≠ .procsInQueue q k := by
      rintro q k rfl
      simp [OnHead, hst] at hon
    have hqueue : (s.procs p).procQueue = none := by
      cases h with
      | procsInQueue q k => exact absurd rfl (hrun q k)
      | sleepAlone o => exact hon.2.1
      | chan c => exact hon.2
      | procsDescCache => exact hon.2
    obtain ⟨links, hdel, -, hhand⟩ := listDel_spec hkilled hp hrun
    -- the status is written before the node is taken out, which makes no difference
    have hhand := hhand.setProc (fun P => { P with status := .runnable })
      (by simp [Sys.moved, Sys.setProc, hst]) (by simp [Sys.moved, Sys.setProc, hqueue])
      (by simpa [Sys.moved, Sys.setProc] using hq.prio p)
    obtain ⟨t, xs', hadd, hqueued, hmoved, hxs⟩ :=
      addProcToQueue_spec hhand hlt (by simp [Sys.setProc]) s.runQueue
    have hok : killProc s p = .ok t := by
      unfold killProc
      dsimp only
      rw [if_pos (by simpa [Sys.setProc] using hst)]
      have hdel' : listDel ((s.setProc p fun P => { P with killed := true }).setProc p fun P =>
          { P with status := .runnable }) p = .ok _ := listDel_eq hdel
      simp only [bind, Except.bind, hdel']
      exact hadd
    obtain rfl : t = s' := Except.ok.inj (hok.symm.trans hkill)
    refine ⟨xs', hqueued, ?_, ?_, ?_, ?_, ?_, ?_⟩
    · rw [hmoved]
      rfl
    · intro y hyp
      rw [hmoved]
      simp [Sys.moved, Sys.setProc, hyp]
    · rw [hmoved]
      simp [Sys.moved, Sys.setProc, Proc.data]
    · exact fun hne => absurd hst hne
    · intro _
      rw [hmoved]
      simp [Sys.moved, Sys.setProc]
    · intro h' y hrun' hy
      rw [hxs, Function.update_of_ne (hrun' _ _)] at hy
      by_cases hh' : h' = h
      · subst hh'
        rw [Function.update_self] at hy
        exact List.mem_of_mem_erase hy
      · rwa [Function.update_of_ne hh'] at hy
  · rw [killProc] at hkill
    simp only [Sys.setProc, Function.update_self, hst, if_false, pure, Except.pure,
      Except.ok.injEq] at hkill
    subst hkill
    refine ⟨xs, hkilled, rfl, ?_, ?_, ?_, ?_, ?_⟩
    · exact fun y hyp => by simp [hyp]
    · simp [Proc.data]
    · exact fun _ => by simp
    · exact fun hs => absurd hs hst
    · exact fun _ _ _ hy => hy

/-! ## §8 Descriptors -/

/-- The state with descriptor `p` free; it is in hand meanwhile. -/
def Sys.freed (s : Sys) (p : Nat) : Sys := s.setProc p fun P => { P with status := .free }

/-- A process in hand can be made free: nobody sleeps on its `sleep_alone` but itself. -/
theorem Queued.freed (hq : Queued (some p) s xs) : Queued (some p) (s.freed p) xs := by
  have halone : xs (.sleepAlone p) = [] := by
    apply List.eq_nil_iff_forall_not_mem.2
    intro y hy
    obtain ⟨_, hne, hon⟩ := hq.on _ y hy
    exact hne (by rw [hon.2.2])
  have hsub : ∀ h, Inited (s.freed p) h → Inited s h := by
    intro h hi
    cases h with
    | sleepAlone o =>
      refine ⟨hi.1, fun hfree => hi.2 ?_⟩
      by_cases hop : o = p
      · simp [Sys.freed, Sys.setProc, hop]
      · simpa [Sys.freed, Sys.setProc, hop] using hfree
    | _ => exact hi
  apply hq.move p
  · exact fun _ _ => Iff.rfl
  · rfl
  · exact fun y hyp => Function.update_of_ne hyp ..
  · exact hq.lists.mono hsub
  · intro h hni
    by_cases hp : h = .sleepAlone p
    · rw [hp]
      exact halone
    · apply hq.empty
      intro hi
      apply hni
      cases h with
      | sleepAlone o =>
        have hop : o ≠ p := fun he => hp (by rw [he])
        exact ⟨hi.1, by simpa [Sys.freed, Sys.setProc, hop] using hi.2⟩
      | _ => exact hi
  · intro h hni
    by_cases hi : Inited s h
    · -- this is the head of the process that is freed
      right
      have hnext := hq.lists.next_head hi
      have hp : h = .sleepAlone p := by
        by_contra hne
        apply hni
        cases h with
        | sleepAlone o =>
          have hop : o ≠ p := fun he => hne (by rw [he])
          exact ⟨hi.1, by simpa [Sys.freed, Sys.setProc, hop] using hi.2⟩
        | _ => exact hi
      rw [hp, halone] at hnext
      rw [hp]
      exact hnext
    · exact hq.idle h hi
  · exact fun _ _ _ => Iff.rfl
  · exact fun h hmem => absurd hmem (hq.inHand h)
  · intro _
    simpa [Sys.freed, Sys.setProc] using (hq.off p hq.inHand).1
  · simpa [Sys.freed, Sys.setProc] using hq.prio p
  · exact hq.bitmap

/-- Zeroing a free descriptor in hand, whose `sleep_alone` carries no list. -/
theorem Queued.zeroDesc (hq : Queued (some p) s xs) (hfree : (s.procs p).status = .free) :
    Queued (some p) ((Sched.zeroDesc s p).freed p) xs := by
  have hnot : ¬ Inited s (.sleepAlone p) := by simp [Inited, hfree]
  have hin : Inited ((Sched.zeroDesc s p).freed p) = Inited s := by
    apply inited_congr
    · rfl
    · intro y
      by_cases hyp : y = p
      · simp [Sys.freed, Sched.zeroDesc, Sys.setProc, hyp, hfree]
      · simp [Sys.freed, Sched.zeroDesc, Sys.setProc, hyp]
  apply hq.move p
  · exact fun _ _ => Iff.rfl
  · rfl
  · intro y hyp
    simp [Sys.freed, Sched.zeroDesc, Sys.setProc, hyp]
  · rw [hin]
    apply hq.lists.congr_head hnot
    intro b hb
    simp [Sys.freed, Sched.zeroDesc, Sys.setProc, hb]
  · rw [hin]
    exact hq.empty
  · intro h hni
    rw [hin] at hni
    by_cases hp : h = .sleepAlone p
    · left
      simp [Sys.freed, Sched.zeroDesc, Sys.setProc, hp]
    · simpa [Idle, Sys.freed, Sched.zeroDesc, Sys.setProc, hp] using hq.idle h hni
  · exact fun _ _ _ => Iff.rfl
  · exact fun h hmem => absurd hmem (hq.inHand h)
  · intro _
    simp [Sys.freed, Sched.zeroDesc, Sys.setProc, Proc.zero]
  · simp [Sys.freed, Sched.zeroDesc, Sys.setProc, Proc.zero, N_PRIORITY]
  · exact hq.bitmap

/-- A descriptor that was never handed out may be taken as a free one in hand. -/
theorem Queued.newDesc (hq : Queued none s xs) :
    Queued (some s.nDescs) ({ s with nDescs := s.nDescs + 1 }.setProc s.nDescs fun _ =>
      { Proc.zero with status := .free }) xs := by
  have hnew : ∀ h, s.nDescs ∉ xs h := by
    intro h hmem
    exact Nat.lt_irrefl _ (hq.on h _ hmem).1
  have hin : Inited ({ s with nDescs := s.nDescs + 1 }.setProc s.nDescs fun _ =>
      { Proc.zero with status := .free }) = Inited s := by
    funext h
    cases h with
    | sleepAlone o =>
      by_cases ho : o = s.nDescs
      · simp [Inited, Sys.setProc, ho]
      · have hlt : o < s.nDescs + 1 ↔ o < s.nDescs := by omega
        simp [Inited, Sys.setProc, ho, hlt]
    | _ => rfl
  constructor
  · rw [hin]
    exact hq.lists
  · rw [hin]
    exact hq.empty
  · rw [hin]
    exact hq.idle
  · intro h y hy
    obtain ⟨hlt, _, hon⟩ := hq.on h y hy
    have hne : y ≠ s.nDescs := Nat.ne_of_lt hlt
    refine ⟨Nat.lt_succ_of_lt hlt, by simpa using hne.symm, ?_⟩
    simpa [Sys.setProc, hne] using hon
  · intro y hy
    by_cases hne : y = s.nDescs
    · simp [Sys.setProc, hne, Proc.zero]
    · obtain ⟨hqueue, hst⟩ := hq.off y hy
      simpa [Sys.setProc, hne, hqueue] using fun _ => hst
  · intro y
    by_cases hne : y = s.nDescs
    · simp [Sys.setProc, hne, Proc.zero, N_PRIORITY]
    · simpa [Sys.setProc, hne] using hq.prio y
  · exact hq.bitmap

/-- **`get_proc_desc`** yields a zeroed descriptor that was free, or is new. -/
theorem getProcDesc_spec (hq : Queued none s xs) {kmalloc : Bool}
    (hget : getProcDesc s kmalloc = .ok (some p, s')) :
    ∃ xs', Queued (some p) (s'.freed p) xs' ∧ p < s'.nDescs ∧ s.nDescs ≤ s'.nDescs ∧
      (s.nDescs ≤ p ∨ (s.procs p).status = .free) ∧
      s' = { s.moved s'.links s.queues (Function.update s.procs p Proc.zero) with
        nDescs := s'.nDescs } ∧
      ∀ h y, (∀ q k, h ≠ .procsInQueue q k) → y ∈ xs' h → y ∈ xs h := by
  have hnext := hq.lists.next_head (i := .procsDescCache) trivial
  unfold getProcDesc at hget
  cases hl : xs .procsDescCache with
  | nil =>
    rw [hl] at hnext
    simp only [hnext, List.head?_nil, Option.map_none, Option.getD_none] at hget
    split at hget
    · simp only [Except.ok.injEq, Prod.mk.injEq, Option.some.injEq] at hget
      obtain ⟨rfl, rfl⟩ := hget
      refine ⟨xs, ?_, Nat.lt_succ_self _, Nat.le_succ _, Or.inl (Nat.le_refl _), rfl,
        fun _ _ _ hy => hy⟩
      have hnew := hq.newDesc.zeroDesc (by simp [Sys.setProc])
      apply hnew.congr
      · rfl
      · rfl
      · rfl
      · intro y
        by_cases hy : y = s.nDescs
        · simp [Sys.freed, zeroDesc, Sys.setProc, hy]
        · simp [Sys.freed, zeroDesc, Sys.setProc, hy]
    · simp at hget
  | cons d l =>
    rw [hl] at hnext
    simp only [hnext, List.head?_cons, Option.map_some, Option.getD_some] at hget
    have hd : d ∈ xs .procsDescCache := by
      rw [hl]
      exact List.mem_cons_self
    obtain ⟨hlt, _, hfree, _⟩ := hq.on _ d hd
    obtain ⟨links, -, hdel, hhand⟩ := listDel_spec hq hd (by simp)
    simp only [hdel, bind, Except.bind, pure, Except.pure, Except.ok.injEq, Prod.mk.injEq,
      Option.some.injEq] at hget
    obtain ⟨rfl, rfl⟩ := hget
    refine ⟨_, hhand.zeroDesc hfree, hlt, Nat.le_refl _, Or.inr hfree, rfl, ?_⟩
    intro h y hh hy
    by_cases hc : h = .procsDescCache
    · rw [hc, Function.update_self] at hy
      rw [hc]
      exact List.mem_of_mem_erase hy
    · rwa [Function.update_of_ne hc] at hy

/-- A new process has an empty `sleep_alone` of its own. -/
theorem initProc_spec (hq : Queued (some p) (s.freed p) xs) (hp : p < s.nDescs)
    (hqueue : (s.procs p).procQueue = none) : Queued (some p) (initProc s p) xs := by
  have hnot : ¬ Inited (s.freed p) (.sleepAlone p) := by simp [Inited, Sys.freed, Sys.setProc]
  have halone := hq.empty _ hnot
  have hsame : Function.update xs (.sleepAlone p) [] = xs := by
    rw [← halone]
    exact Function.update_eq_self ..
  have hin : Inited (initProc s p) = fun h => h = .sleepAlone p ∨ Inited (s.freed p) h := by
    funext h
    cases h with
    | sleepAlone o =>
      by_cases ho : o = p
      · simp [Inited, initProc, Sys.setProc, ho, hp]
      · simp [Inited, initProc, Sys.setProc, Sys.freed, ho]
    | _ => simp [Inited]
  apply hq.move p
  · exact fun _ _ => Iff.rfl
  · rfl
  · intro y hyp
    simp [Sys.freed, initProc, Sys.setProc, hyp]
  · have := hq.lists.init _ hnot
    rw [hsame] at this
    rw [hin]
    exact this
  · intro h hni
    rw [hin] at hni
    exact hq.empty h fun hi => hni (Or.inr hi)
  · intro h hni
    rw [hin] at hni
    have hne : h ≠ .sleepAlone p := fun he => hni (Or.inl he)
    have hidle : Idle s.links h := hq.idle h fun hi => hni (Or.inr hi)
    simpa [Idle, initProc, Sys.setProc, Links.init, hne] using hidle
  · exact fun _ _ _ => Iff.rfl
  · exact fun h hmem => absurd hmem (hq.inHand h)
  · intro _
    simpa [initProc, Sys.setProc] using hqueue
  · simpa [initProc, Sys.freed, Sys.setProc] using hq.prio p
  · exact hq.bitmap

/-- **`proc_desc_destroy`** puts the descriptor in the cache. -/
theorem procDescDestroy_spec (hq : Queued (some p) (s.freed p) xs) (hp : p < s.nDescs)
    (hdestroy : procDescDestroy s p = .ok s') :
    ∃ xs', Queued none s' xs' ∧ s' = { s.moved s'.links s.queues (s.freed p).procs with
        idBitmap := s'.idBitmap
        procTable := Function.update s.procTable (s.procs p).pid none
        nProcsAlive := s'.nProcsAlive } ∧
      ∀ h, h ≠ .procsDescCache → xs' h = xs h := by
  unfold procDescDestroy at hdestroy
  obtain ⟨bm, _, hdestroy⟩ := bind_eq_ok.1 hdestroy
  obtain ⟨links, hadd, hlists⟩ := hq.lists.add (i := .procsDescCache) trivial (a := p)
    fun h _ => hq.inHand h
  have hlinks : s.links.add (.elem p) (.head .procsDescCache) = some links := hadd
  simp only [listAdd, Sys.setProc, hlinks, deref, bind, Except.bind, pure, Except.pure,
    Except.ok.injEq] at hdestroy
  have hput := hq.putOn hp (h := .procsDescCache) trivial (by simp)
    ⟨by simp [Sys.freed, Sys.setProc], (hq.off p hq.inHand).1⟩ (by simp) hlists
    fun h hni => hq.lists.add_next_head (i := .procsDescCache) trivial (fun h _ => hq.inHand h) hadd hni
  refine ⟨Function.update xs .procsDescCache (p :: xs .procsDescCache), ?_, ?_, ?_⟩
  · rw [← hdestroy]
    exact hput.congr rfl rfl rfl fun _ => ⟨rfl, rfl, rfl⟩
  · rw [← hdestroy]
    rfl
  · intro h hne
    exact Function.update_of_ne hne ..

end

end WeiOS.Sched
