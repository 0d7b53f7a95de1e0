import Mathlib
import WeiOS.Lib.IntrusiveList
import WeiOS.Process.SchedLists

/-!
# The Bits and Lists of a Run Queue

One `struct proc_queue` at the level of its words: the 64-bit `priority_bitmap` is updated through a
pointer to one of its two 32-bit words, with `1 << p->priority` for priorities up to 39, and read as one
64-bit number by `find_first_set`. A shift by a register counts modulo 32 on this processor, so that
priority 32 and above gives the right bit of the upper word.

What the queue is for is said by `Waiting`: the processes in the order in which they were added.

## Main results
- `word_update_set`, `word_update_clear`: the update of one word, seen in the 64 bits.
- `add_represents`, `del_represents`: the two functions keep the representation.
- `runOps_spec`: bits, count, lists and first priority after any sequence of calls.
-/

namespace WeiOS.RunQueue

open WeiOS.Lib

/-- A pointer to a `struct proc`. -/
abbrev ProcPtr := BitVec 32

/-- `struct proc_queue` with the fields of processes that the functions use; `procQueue p` says that
    `p->proc_queue` points to this queue. -/
structure ProcQueue where
  nProcs : BitVec 32
  low : BitVec 32
  high : BitVec 32
  links : Links (Node Nat ProcPtr)
  priority : ProcPtr → Nat
  procQueue : ProcPtr → Bool

/-- `priority_bitmap` as one number. -/
def ProcQueue.priorityBitmap (Q : ProcQueue) : BitVec 64 := Q.high ++ Q.low

/-- `1 << n` for an `int`, as the processor shifts. -/
def shiftOne (n : Nat) : BitVec 32 := 1#32 <<< (n % 32)

/-- `*tbitmap = f(*tbitmap)`, where `tbitmap` points to the word for priority `k`. -/
def ProcQueue.updateWord (Q : ProcQueue) (k : Nat) (f : BitVec 32 → BitVec 32) : ProcQueue :=
  if 32 ≤ k then { Q with high := f Q.high } else { Q with low := f Q.low }

/-- `add_proc_to_queue`. -/
def addProcToQueue (Q : ProcQueue) (p : ProcPtr) : Option ProcQueue := do
  let Q := Q.updateWord (Q.priority p) (· ||| shiftOne (Q.priority p))
  let links ← Q.links.addTail (.elem p) (.head (Q.priority p))
  return { Q with
    links := links
    nProcs := Q.nProcs + 1
    procQueue := Function.update Q.procQueue p true }

/-- `del_proc_fron_queue`; a null `p->proc_queue` is a fault. -/
def delProcFronQueue (Q : ProcQueue) (p : ProcPtr) : Option ProcQueue :=
  if Q.procQueue p then do
    let links ← Q.links.del (.elem p)
    let Q := { Q with links := links }
    let Q := if links.isEmpty (.head (Q.priority p)) then
        Q.updateWord (Q.priority p) (· &&& ~~~ shiftOne (Q.priority p))
      else Q
    return { Q with nProcs := Q.nProcs - 1, procQueue := Function.update Q.procQueue p false }
  else none

/-- The queue that `proc_init` sets up: no bits, no processes, and a list for each priority. -/
structure Empty (Q : ProcQueue) : Prop where
  nProcs : Q.nProcs = 0
  low : Q.low = 0
  high : Q.high = 0
  lists : ∀ k < Sched.N_PRIORITY, Ring Q.links (.head k) []
  none : ∀ p, Q.procQueue p = false

/-- The calls on one queue, and writes of `p->priority` between them. -/
inductive Op where
  | add (p : ProcPtr)
  | del (p : ProcPtr)
  | setPriority (p : ProcPtr) (k : Nat)

def step (Q : ProcQueue) : Op → Option ProcQueue
  | .add p => addProcToQueue Q p
  | .del p => delProcFronQueue Q p
  | .setPriority p k => some { Q with priority := Function.update Q.priority p k }

def runOps : ProcQueue → List Op → Option ProcQueue
  | Q, [] => some Q
  | Q, o :: os => (step Q o).bind (runOps · os)

/-! ## §1 What the queue is for -/

/-- The processes that wait, in the order in which they were added, and all priorities. -/
structure Waiting where
  order : List ProcPtr
  priority : ProcPtr → Nat

/-- The processes of one priority, in the order in which they were added. -/
def Waiting.level (w : Waiting) (k : Nat) : List ProcPtr := w.order.filter fun p => w.priority p == k

def Waiting.step (w : Waiting) : Op → Waiting
  | .add p => { w with order := w.order ++ [p] }
  | .del p => { w with order := w.order.erase p }
  | .setPriority p k => { w with priority := Function.update w.priority p k }

/-- A process is added when it does not wait and its priority is in range, deleted when it waits, and
    its priority does not change while it waits. The address of a descriptor is not null. -/
def Waiting.Allows (w : Waiting) : Op → Prop
  | .add p => p ≠ 0 ∧ p ∉ w.order ∧ w.priority p < Sched.N_PRIORITY
  | .del p => p ∈ w.order
  | .setPriority p _ => p ∉ w.order

def Waiting.run : Waiting → List Op → Waiting
  | w, [] => w
  | w, o :: os => (w.step o).run os

/-- Every call of the sequence is allowed when it is made. -/
def Waiting.AllowsAll : Waiting → List Op → Prop
  | _, [] => True
  | w, o :: os => w.Allows o ∧ (w.step o).AllowsAll os

/-! ## §2 Words and bits -/

section Words

variable {k : Nat}

/-- A bit of the upper word is bit 32 and above of the bitmap. -/
theorem getLsbD_priorityBitmap (Q : ProcQueue) (j : Nat) :
    Q.priorityBitmap.getLsbD j = if j < 32 then Q.low.getLsbD j else Q.high.getLsbD (j - 32) := by
  rw [ProcQueue.priorityBitmap, BitVec.getLsbD_append]

theorem getLsbD_shiftOne (n j : Nat) : (shiftOne n).getLsbD j = decide (j = n % 32) := by
  rw [shiftOne, ← BitVec.twoPow_eq, BitVec.getLsbD_twoPow]
  by_cases hj : j = n % 32
  · subst hj
    simp [Nat.mod_lt n (show 32 > 0 by decide)]
  · simp [hj, Ne.symm hj]

/-- **Setting a bit** of one word is the 64-bit update that the scheduler's model makes. -/
theorem word_update_set (Q : ProcQueue) (hk : k < 64) :
    (Q.updateWord k (· ||| shiftOne k)).priorityBitmap = Q.priorityBitmap ||| 1#64 <<< k := by
  refine BitVec.eq_of_getLsbD_eq fun j hj => ?_
  rw [Sched.getLsbD_setBit _ hk, getLsbD_priorityBitmap, getLsbD_priorityBitmap, ProcQueue.updateWord]
  -- the four combinations of the word that is written and the word that is read
  by_cases hk32 : 32 ≤ k <;> by_cases hj32 : j < 32 <;>
    simp only [hk32, hj32, if_true, if_false, BitVec.getLsbD_or, getLsbD_shiftOne]
  · simp [show j ≠ k by omega]
  · simp [show j - 32 = k % 32 ↔ j = k by omega]
  · simp [show j = k % 32 ↔ j = k by omega]
  · simp [show j ≠ k by omega]

/-- **Clearing a bit** of one word, likewise. -/
theorem word_update_clear (Q : ProcQueue) (hk : k < 64) :
    (Q.updateWord k (· &&& ~~~ shiftOne k)).priorityBitmap = Q.priorityBitmap &&& ~~~(1#64 <<< k) := by
  refine BitVec.eq_of_getLsbD_eq fun j hj => ?_
  rw [Sched.getLsbD_clearBit _ k hj, getLsbD_priorityBitmap, getLsbD_priorityBitmap, ProcQueue.updateWord]
  by_cases hk32 : 32 ≤ k <;> by_cases hj32 : j < 32 <;>
    simp only [hk32, hj32, if_true, if_false, BitVec.getLsbD_and, BitVec.getLsbD_not, getLsbD_shiftOne]
  · simp [show j ≠ k by omega]
  · simp [show j - 32 = k % 32 ↔ j = k by omega, show j - 32 < 32 by omega]
  · simp [show j = k % 32 ↔ j = k by omega]
  · simp [show j ≠ k by omega]

end Words

/-! ## §3 The representation -/

/-- The queue holds the processes of `w`. -/
structure Represents (Q : ProcQueue) (w : Waiting) : Prop where
  lists : Lists Q.links (· < Sched.N_PRIORITY) w.level
  bits : ∀ k < Sched.N_PRIORITY, Q.priorityBitmap.getLsbD k = true ↔ w.level k ≠ []
  count : Q.nProcs = BitVec.ofNat 32 w.order.length
  queued : ∀ p, Q.procQueue p = true ↔ p ∈ w.order
  priority : Q.priority = w.priority
  nodup : w.order.Nodup
  inRange : ∀ p ∈ w.order, p ≠ 0 ∧ w.priority p < Sched.N_PRIORITY

variable {Q : ProcQueue} {w : Waiting} {p : ProcPtr} {k : Nat}

/-- The update of a word leaves the other fields alone. -/
theorem updateWord_other {Q₁ : ProcQueue} {f : BitVec 32 → BitVec 32} (h : Q₁ = Q.updateWord k f) :
    Q₁.nProcs = Q.nProcs ∧ Q₁.links = Q.links ∧ Q₁.priority = Q.priority ∧ Q₁.procQueue = Q.procQueue := by
  rw [h, ProcQueue.updateWord]
  split <;> exact ⟨rfl, rfl, rfl, rfl⟩

theorem mem_level : p ∈ w.level k ↔ p ∈ w.order ∧ w.priority p = k := by simp [Waiting.level]

theorem level_add (w : Waiting) (p : ProcPtr) :
    (w.step (.add p)).level = Function.update w.level (w.priority p) (w.level (w.priority p) ++ [p]) := by
  funext k
  by_cases hk : k = w.priority p
  · subst hk
    simp [Waiting.level, Waiting.step]
  · simp [Waiting.level, Waiting.step, Function.update_of_ne hk, Ne.symm hk]

theorem level_del (hnd : w.order.Nodup) (p : ProcPtr) :
    (w.step (.del p)).level = Function.update w.level (w.priority p) ((w.level (w.priority p)).erase p) := by
  funext k
  simp only [Waiting.level, Waiting.step]
  rw [hnd.erase_eq_filter, List.filter_filter]
  -- the other lists do not have the process
  by_cases hk : k = w.priority p
  · subst hk
    rw [Function.update_self, (hnd.filter _).erase_eq_filter, List.filter_filter]
    exact List.filter_congr fun y _ => Bool.and_comm _ _
  · rw [Function.update_of_ne hk]
    refine List.filter_congr fun y _ => ?_
    by_cases hy : y = p
    · subst hy
      simp [Ne.symm hk]
    · simp [hy]

theorem level_setPriority (hp : p ∉ w.order) (k : Nat) : (w.step (.setPriority p k)).level = w.level := by
  funext j
  refine List.filter_congr fun y hy => ?_
  have hne : y ≠ p := fun he => hp (he ▸ hy)
  simp [Waiting.step, Function.update_of_ne hne]

theorem Empty.represents (he : Empty Q) : Represents Q ⟨[], Q.priority⟩ where
  lists := ⟨he.lists, fun _ _ _ _ _ _ h => absurd h List.not_mem_nil⟩
  bits k _ := by
    rw [getLsbD_priorityBitmap, he.low, he.high]
    simp [Waiting.level]
  count := he.nProcs
  queued p := by simp [he.none p]
  priority := rfl
  nodup := List.nodup_nil
  inRange p hp := absurd hp List.not_mem_nil

/-- **`add_proc_to_queue`** puts the process at the end of its list. -/
theorem add_represents (hr : Represents Q w) (ha : w.Allows (.add p)) :
    ∃ Q', addProcToQueue Q p = some Q' ∧ Represents Q' (w.step (.add p)) := by
  obtain ⟨hp0, hnot, hlt⟩ := ha
  have hprio : Q.priority p = w.priority p := congrFun hr.priority p
  obtain ⟨links, hadd, hlists⟩ := hr.lists.addTail (i := w.priority p) hlt (a := p) fun j _ hm =>
    hnot (mem_level.1 hm).1
  obtain ⟨Q₁, hQ₁⟩ : ∃ Q₁, Q₁ = Q.updateWord (w.priority p) (· ||| shiftOne (w.priority p)) := ⟨_, rfl⟩
  obtain ⟨hn₁, hl₁, hp₁, hq₁⟩ := updateWord_other hQ₁
  refine ⟨{ Q₁ with links := links, nProcs := Q₁.nProcs + 1, procQueue := Function.update Q₁.procQueue p true },
    ?_, ?_⟩
  · rw [addProcToQueue]
    simp only [hprio, ← hQ₁, hl₁, congrFun hp₁ p, hadd]
    rfl
  · refine ⟨?_, fun k hk => ?_, ?_, fun y => ?_, ?_, ?_, fun y hy => ?_⟩
    · rw [level_add]
      exact hlists
    · -- bit `w.priority p` is set, and its list is not empty any more
      have hbit : Q₁.priorityBitmap.getLsbD k = (Q.priorityBitmap.getLsbD k || decide (k = w.priority p)) := by
        rw [hQ₁, word_update_set Q (hlt.trans (by decide)), Sched.getLsbD_setBit _ (hlt.trans (by decide))]
      rw [level_add]
      refine (Bool.eq_iff_iff.1 hbit).trans ?_
      by_cases hkp : k = w.priority p
      · simp [hkp]
      · simp [hkp, hr.bits k hk]
    · show Q₁.nProcs + 1 = BitVec.ofNat 32 (w.order ++ [p]).length
      rw [hn₁, hr.count, List.length_append, List.length_singleton, BitVec.ofNat_add]
      rfl
    · show Function.update Q₁.procQueue p true y = true ↔ y ∈ w.order ++ [p]
      rw [hq₁, List.mem_append, List.mem_singleton]
      by_cases hy : y = p
      · simp [hy]
      · simp [hy, hr.queued]
    · exact hp₁.trans hr.priority
    · exact List.nodup_append.2 ⟨hr.nodup, List.nodup_singleton p, fun y hy z hz he =>
        hnot (List.mem_singleton.1 hz ▸ he ▸ hy)⟩
    · rcases List.mem_append.1 hy with hy | hy
      · exact hr.inRange y hy
      · rw [List.mem_singleton.1 hy]
        exact ⟨hp0, hlt⟩

/-- **`del_proc_fron_queue`** takes the process out of its list; its bit goes with the last one. -/
theorem del_represents (hr : Represents Q w) (ha : w.Allows (.del p)) :
    ∃ Q', delProcFronQueue Q p = some Q' ∧ Represents Q' (w.step (.del p)) := by
  have hmem : p ∈ w.order := ha
  have hprio : Q.priority p = w.priority p := congrFun hr.priority p
  obtain ⟨-, hlt⟩ := hr.inRange p hmem
  obtain ⟨ys, zs, hsplit⟩ := List.append_of_mem (mem_level.2 ⟨hmem, rfl⟩ : p ∈ w.level (w.priority p))
  obtain ⟨links, hdel, hlists⟩ := hr.lists.del (i := w.priority p) hlt hsplit
  -- a process is on its list once, so that the list is split where it stands
  have hnd : (w.level (w.priority p)).Nodup := hr.nodup.filter _
  have herase : (w.level (w.priority p)).erase p = ys ++ zs := by
    have hnot : p ∉ ys := fun hy =>
      (List.nodup_append.1 (hsplit ▸ hnd)).2.2 p hy p List.mem_cons_self rfl
    rw [hsplit, List.erase_append_right _ hnot, List.erase_cons_head]
  rw [← herase, ← level_del hr.nodup p] at hlists
  obtain ⟨Q₁, hQ₁⟩ : ∃ Q₁, Q₁ = if links.isEmpty (.head (w.priority p)) then
      { Q with links := links }.updateWord (w.priority p) (· &&& ~~~ shiftOne (w.priority p))
    else { Q with links := links } := ⟨_, rfl⟩
  have hother : Q₁.nProcs = Q.nProcs ∧ Q₁.links = links ∧ Q₁.priority = Q.priority ∧
      Q₁.procQueue = Q.procQueue := by
    by_cases hempty : links.isEmpty (.head (w.priority p)) = true
    · rw [if_pos hempty] at hQ₁
      exact updateWord_other hQ₁
    · rw [if_neg hempty] at hQ₁
      rw [hQ₁]
      exact ⟨rfl, rfl, rfl, rfl⟩
  obtain ⟨hn₁, hl₁, hp₁, hq₁⟩ := hother
  refine ⟨{ Q₁ with nProcs := Q₁.nProcs - 1, procQueue := Function.update Q₁.procQueue p false }, ?_, ?_⟩
  · rw [delProcFronQueue, if_pos ((hr.queued p).2 hmem)]
    simp only [hprio, hdel, Option.bind_eq_bind, Option.bind_some, ← hQ₁]
    rfl
  · refine ⟨?_, fun k hk => ?_, ?_, fun y => ?_, ?_, ?_, fun y hy => ?_⟩
    · show Lists Q₁.links _ _
      rw [hl₁]
      exact hlists
    · -- the bit stays as long as the list is not empty
      have hisEmpty := hlists.isEmpty_iff (i := w.priority p) hlt
      have hother (hkp : k ≠ w.priority p) : (w.step (.del p)).level k = w.level k := by
        rw [level_del hr.nodup, Function.update_of_ne hkp]
      show Q₁.priorityBitmap.getLsbD k = true ↔ _
      by_cases hempty : links.isEmpty (.head (w.priority p)) = true
      · rw [hQ₁, if_pos hempty, word_update_clear _ (hlt.trans (by decide)),
          Sched.getLsbD_clearBit _ _ (hk.trans (by decide))]
        by_cases hkp : k = w.priority p
        · subst hkp
          simp [hisEmpty.1 hempty]
        · rw [hother hkp, ← hr.bits k hk]
          simp [hkp, ProcQueue.priorityBitmap]
      · rw [hQ₁, if_neg hempty]
        by_cases hkp : k = w.priority p
        · subst hkp
          have hne : w.level (w.priority p) ≠ [] := by simp [hsplit]
          exact iff_of_true ((hr.bits _ hk).2 hne) fun he => hempty (hisEmpty.2 he)
        · rw [hother hkp]
          exact hr.bits k hk
    · show Q₁.nProcs - 1 = BitVec.ofNat 32 (w.order.erase p).length
      obtain ⟨n, hn⟩ : ∃ n, w.order.length = n + 1 :=
        ⟨w.order.length - 1, by have := List.length_pos_of_mem hmem; omega⟩
      rw [hn₁, hr.count, List.length_erase_of_mem hmem, hn, BitVec.ofNat_add]
      exact BitVec.add_sub_cancel _ 1
    · show Function.update Q₁.procQueue p false y = true ↔ y ∈ w.order.erase p
      rw [hq₁, hr.nodup.mem_erase_iff]
      by_cases hy : y = p
      · simp [hy]
      · simp [hy, hr.queued]
    · exact hp₁.trans hr.priority
    · exact hr.nodup.erase p
    · exact hr.inRange y (List.mem_of_mem_erase hy)

theorem setPriority_represents (hr : Represents Q w) (ha : w.Allows (.setPriority p k)) :
    ∃ Q', step Q (.setPriority p k) = some Q' ∧ Represents Q' (w.step (.setPriority p k)) := by
  have hnot : p ∉ w.order := ha
  refine ⟨_, rfl, ?_⟩
  constructor
  · rw [level_setPriority hnot]
    exact hr.lists
  · rw [level_setPriority hnot]
    exact hr.bits
  · exact hr.count
  · exact hr.queued
  · show Function.update Q.priority p k = Function.update w.priority p k
    rw [hr.priority]
  · exact hr.nodup
  · intro y hy
    have hne : y ≠ p := fun he => hnot (he ▸ hy)
    refine ⟨(hr.inRange y hy).1, ?_⟩
    show Function.update w.priority p k y < _
    rw [Function.update_of_ne hne]
    exact (hr.inRange y hy).2

/-! ## §4 All sequences of calls -/

theorem step_represents (hr : Represents Q w) {o : Op} (ha : w.Allows o) :
    ∃ Q', step Q o = some Q' ∧ Represents Q' (w.step o) := by
  cases o with
  | add p => exact add_represents hr ha
  | del p => exact del_represents hr ha
  | setPriority p k => exact setPriority_represents hr ha

theorem runOps_represents {os : List Op} (hr : Represents Q w) (ha : w.AllowsAll os) :
    ∃ Q', runOps Q os = some Q' ∧ Represents Q' (w.run os) := by
  induction os generalizing Q w with
  | nil => exact ⟨Q, rfl, hr⟩
  | cons o os ih =>
    obtain ⟨Q₁, hstep, hr₁⟩ := step_represents hr ha.1
    obtain ⟨Q', hrun, hr'⟩ := ih hr₁ ha.2
    exact ⟨Q', by rw [runOps, hstep, Option.bind_some, hrun], hr'⟩

/-- There are fewer processes than addresses, so that the count does not wrap. -/
theorem Represents.length_lt (hr : Represents Q w) : w.order.length < 2 ^ 32 := by
  -- addresses are below 2 ^ 32, and 0 is none of a process
  have hnd : ((0 :: w.order).map BitVec.toNat).Nodup :=
    (List.nodup_cons.2 ⟨fun h0 => (hr.inRange 0 h0).1 rfl, hr.nodup⟩).map fun _ _ => BitVec.eq_of_toNat_eq
  have hsub : (0 :: w.order).map BitVec.toNat ⊆ List.range (2 ^ 32) := by
    intro n hn
    obtain ⟨p, -, rfl⟩ := List.mem_map.1 hn
    exact List.mem_range.2 p.isLt
  have hlen := (List.subperm_of_subset hnd hsub).length_le
  rw [List.length_map, List.length_cons, List.length_range] at hlen
  omega

/-- `find_first_set` returns the first priority whose bit is set. -/
theorem findFirstSet_eq_iff (bm : BitVec 64) (hk : k < Sched.N_PRIORITY) :
    Sched.findFirstSet bm = k ↔ bm.getLsbD k = true ∧ ∀ j < k, bm.getLsbD j = false := by
  have hbit (j : Nat) (hj : j < Sched.N_PRIORITY) :
      decide (1#64 <<< j &&& bm ≠ 0#64) = bm.getLsbD j := by
    rw [Bool.eq_iff_iff, decide_eq_true_iff, Process.shl_and_ne_zero_iff bm (hj.trans (by decide))]
  -- the loop stops at the first bit that is set
  have hfind : (List.range Sched.N_PRIORITY).find? (fun j => 1#64 <<< j &&& bm ≠ 0#64) = some k ↔
      bm.getLsbD k = true ∧ ∀ j < k, bm.getLsbD j = false := by
    rw [List.find?_range_eq_some, hbit k hk]
    simp only [List.mem_range, hk, true_and, Bool.not_eq_true']
    exact and_congr_right fun _ => forall₂_congr fun j hj => by rw [hbit j (hj.trans hk)]
  rw [← hfind, Sched.findFirstSet]
  cases (List.range Sched.N_PRIORITY).find? (fun j => 1#64 <<< j &&& bm ≠ 0#64) with
  | none => simp [Nat.ne_of_gt hk]
  | some i => simp

/-- It returns `N_PRIORITY` if no bit is set. -/
theorem findFirstSet_none_iff (bm : BitVec 64) :
    Sched.findFirstSet bm = Sched.N_PRIORITY ↔ ∀ j < Sched.N_PRIORITY, bm.getLsbD j = false := by
  constructor
  · intro hnone j hj
    by_contra hset
    rw [Bool.not_eq_false] at hset
    -- the first priority whose bit is set would have been returned
    have hex : ∃ j, j < Sched.N_PRIORITY ∧ bm.getLsbD j = true := ⟨j, hj, hset⟩
    obtain ⟨hlt, hfirst⟩ := Nat.find_spec hex
    have heq := (findFirstSet_eq_iff bm hlt).2 ⟨hfirst, fun i hi => by
      have hmin := Nat.find_min hex hi
      simpa [hi.trans hlt] using hmin⟩
    omega
  · intro hclear
    by_contra hne
    have hle : Sched.findFirstSet bm ≤ Sched.N_PRIORITY := by
      rw [Sched.findFirstSet]
      cases hf : (List.range Sched.N_PRIORITY).find? (fun j => 1#64 <<< j &&& bm ≠ 0#64) with
      | none => exact le_rfl
      | some i => exact (List.mem_range.1 (List.mem_of_find?_eq_some hf)).le
    have hlt : Sched.findFirstSet bm < Sched.N_PRIORITY := lt_of_le_of_ne hle hne
    exact absurd (Sched.findFirstSet_spec bm hlt) (by simp [hclear _ hlt])

/-- **A run queue** after any sequence of calls: the bits and the count say which processes wait, each
    list has them in the order in which they were added, and the first priority is the smallest. -/
theorem runOps_spec (Q₀ : ProcQueue) (os : List Op) (h₀ : Empty Q₀)
    (ha : Waiting.AllowsAll ⟨[], Q₀.priority⟩ os) :
    ∃ Q, runOps Q₀ os = some Q ∧
      let w := Waiting.run ⟨[], Q₀.priority⟩ os
      (∀ k < Sched.N_PRIORITY, Q.priorityBitmap.getLsbD k = true ↔ w.level k ≠ []) ∧
      Q.nProcs.toNat = w.order.length ∧
      (∀ k < Sched.N_PRIORITY, Ring Q.links (.head k) ((w.level k).map .elem)) ∧
      (∀ k < Sched.N_PRIORITY, Sched.findFirstSet Q.priorityBitmap = k ↔
        w.level k ≠ [] ∧ ∀ j < k, w.level j = []) ∧
      (Sched.findFirstSet Q.priorityBitmap = Sched.N_PRIORITY ↔ ∀ k < Sched.N_PRIORITY, w.level k = []) := by
  obtain ⟨Q, hrun, hr⟩ := runOps_represents h₀.represents ha
  have hclear (j : Nat) (hj : j < Sched.N_PRIORITY) : Q.priorityBitmap.getLsbD j = false ↔
      (Waiting.run ⟨[], Q₀.priority⟩ os).level j = [] := by
    rw [← not_iff_not, Bool.not_eq_false, hr.bits j hj]
  refine ⟨Q, hrun, hr.bits, ?_, hr.lists.ring, fun k hk => ?_, ?_⟩
  · rw [hr.count, BitVec.toNat_ofNat, Nat.mod_eq_of_lt hr.length_lt]
  · rw [findFirstSet_eq_iff _ hk, hr.bits k hk]
    exact and_congr_right fun _ => forall₂_congr fun j hj => hclear j (hj.trans hk)
  · rw [findFirstSet_none_iff]
    exact forall₂_congr hclear

/-- A queue as `proc_init` leaves it; all processes have priority 39. -/
def freshQueue : ProcQueue where
  nProcs := 0
  low := 0
  high := 0
  links := ⟨some, some⟩
  priority := fun _ => 39
  procQueue := fun _ => false

theorem freshQueue_empty : Empty freshQueue where
  nProcs := rfl
  low := rfl
  high := rfl
  lists k _ := ⟨by simp [Links.Linked, freshQueue], by simp⟩
  none _ := rfl

/-- Process 1 waits with priority 39; process 2 comes and goes with priority 31. -/
theorem runOps_spec_freshQueue :
    ∃ Q, runOps freshQueue [.add 1, .setPriority 2 31, .add 2, .del 2] = some Q ∧
      let w := Waiting.run ⟨[], freshQueue.priority⟩ [.add 1, .setPriority 2 31, .add 2, .del 2]
      (∀ k < Sched.N_PRIORITY, Q.priorityBitmap.getLsbD k = true ↔ w.level k ≠ []) ∧
      Q.nProcs.toNat = w.order.length ∧
      (∀ k < Sched.N_PRIORITY, Ring Q.links (.head k) ((w.level k).map .elem)) ∧
      (∀ k < Sched.N_PRIORITY, Sched.findFirstSet Q.priorityBitmap = k ↔
        w.level k ≠ [] ∧ ∀ j < k, w.level j = []) ∧
      (Sched.findFirstSet Q.priorityBitmap = Sched.N_PRIORITY ↔ ∀ k < Sched.N_PRIORITY, w.level k = []) :=
  runOps_spec freshQueue _ freshQueue_empty (by simp [Waiting.AllowsAll, Waiting.Allows, Waiting.step,
    freshQueue, Sched.N_PRIORITY])

end WeiOS.RunQueue
