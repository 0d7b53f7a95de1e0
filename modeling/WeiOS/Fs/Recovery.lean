import Mathlib
import WeiOS.Dev.Ide
import WeiOS.Fs.LogProtocol

/-!
# Recovery from the Log

`recover_from_log` of `kern/log.c`, as it runs in `log_init` at boot. Nobody has changed a buffer before it
runs, so a buffer that it reads holds what is on disk. It reads the header, reads the log blocks into the
buffers of their home blocks, writes these as one batch, and clears the header. A crash loses the buffers and
leaves the disk as the completed writes have made it; `attempt` is a recovery that crashed after some of the
writes of its batch, in any order.

## Main results
- `recoverFromLog_spec`: what an uninterrupted recovery does to the disk.
- `recovery_idempotent`: after any number of interrupted recoveries it has the same result.
-/

namespace WeiOS.Recovery

open Ide

/-! ## §1 The disk and the log header -/

/-- A block is the array of its words. -/
abbrev Block := Nat → BitVec 32

abbrev Disk := Nat → Block

/-- `struct log_header`. -/
structure LogHeader where
  nblks : BitVec 32
  blksNo : Nat → BitVec 32

/-- The number of turns of a loop up to `nblks`, a C `int`. -/
def LogHeader.count (lh : LogHeader) : Nat := lh.nblks.toInt.toNat

/-- The home block of the log block `i`. -/
def LogHeader.home (lh : LogHeader) (i : Nat) : Nat := (lh.blksNo i).toNat

/-- A request for a block behind the end of the disk is never started, so that the caller waits for ever. -/
def started (blkno : Nat) : Bool := decide (blkno < FSSIZE)

/-- The header that lies in a block. -/
def headerOf (b : Block) : LogHeader := ⟨b 0, fun i => b (i + 1)⟩

/-- `read_log_header`; the log starts at the block `start`. A longer list does not fit into `blks_no`. -/
def readLogHeader (start : Nat) (d : Disk) : Option LogHeader :=
  let lh := headerOf (d start)
  if started start && decide (lh.count ≤ Log.LOGSIZE) then some lh else none

/-- `write_log_header` with `nblks` set to 0, as recovery calls it. -/
def clearLogHeader (start : Nat) (d : Disk) : Option Disk :=
  if started start then some (Function.update d start (Function.update (d start) 0 0)) else none

/-! ## §2 Installing the log -/

/-- The loop of `keep_consistent_on_disk(1)` that fills the buffers of the batch: the buffer `i` stands for
    the home block `i` and holds the log block `i`. In its last turn all home blocks and one log block are
    held, and `getblk` waits for ever when there are not so many buffers. -/
def fillBatch (start : Nat) (lh : LogHeader) (d : Disk) : Option (Nat → Block) :=
  if decide (lh.count + 1 ≤ NBUF) &&
      (List.range lh.count).all fun i => started (start + i + 1) && started (lh.home i) then
    some fun i => d (start + i + 1)
  else none

/-- One write of the batch reaches the disk. -/
def writeHome (lh : LogHeader) (batch : Nat → Block) (d : Disk) (i : Nat) : Disk :=
  Function.update d (lh.home i) (batch i)

/-- The order in which `ide_write_dozens` queues the batch. -/
def elevator (lh : LogHeader) : List Nat :=
  (List.range lh.count).foldl (fun q i => insertRequest lh.home i q) []

/-- A recovery that crashed when the writes of the buffers `written` had reached the disk, in this order. -/
def attempt (start : Nat) (d : Disk) (written : List Nat) : Option Disk := do
  let lh ← readLogHeader start d
  let batch ← fillBatch start lh d
  some (written.foldl (writeHome lh batch) d)

/-- `recover_from_log`. -/
def recoverFromLog (start : Nat) (d : Disk) : Option Disk := do
  let lh ← readLogHeader start d
  if lh.nblks = 0 then
    clearLogHeader start d
  else do
    let batch ← fillBatch start lh d
    clearLogHeader start ((elevator lh).foldl (writeHome lh batch) d)

/-! ## §3 What a recovery does -/

/-- The log area `start, …, start + logBlks - 1` lies on the disk and is as large as `mkfs` makes it, at most
    `LOGSIZE`; its header lists at most `logBlks - 1` distinct home blocks of the disk, none of them in the
    log area. -/
structure GoodLog (start logBlks : Nat) (d : Disk) : Prop where
  size : logBlks ≤ Log.LOGSIZE
  area : start + logBlks ≤ FSSIZE
  count : (headerOf (d start)).nblks.toInt ≤ (logBlks : Int) - 1
  nonneg : 0 ≤ (headerOf (d start)).nblks.toInt
  onDisk : ∀ i < (headerOf (d start)).count, (headerOf (d start)).home i < FSSIZE
  outside : ∀ i < (headerOf (d start)).count,
    (headerOf (d start)).home i < start ∨ start + logBlks ≤ (headerOf (d start)).home i
  distinct : ∀ i < (headerOf (d start)).count, ∀ j < (headerOf (d start)).count,
    (headerOf (d start)).home i = (headerOf (d start)).home j → i = j

variable {start logBlks : Nat} {d : Disk}

theorem GoodLog.count_lt (h : GoodLog start logBlks d) : (headerOf (d start)).count < logBlks := by
  have hcount := h.count
  have hnonneg := h.nonneg
  unfold LogHeader.count
  omega

theorem GoodLog.readLogHeader (h : GoodLog start logBlks d) :
    Recovery.readLogHeader start d = some (headerOf (d start)) := by
  have hlt := h.count_lt
  have harea := h.area
  have hsize := h.size
  unfold Recovery.readLogHeader
  simp only
  rw [if_pos]
  rw [Bool.and_eq_true]
  exact ⟨decide_eq_true (by omega), decide_eq_true (by omega)⟩

theorem GoodLog.fillBatch (h : GoodLog start logBlks d) :
    Recovery.fillBatch start (headerOf (d start)) d = some fun i => d (start + i + 1) := by
  have hlt := h.count_lt
  have harea := h.area
  have hsize := h.size
  unfold Recovery.fillBatch
  rw [if_pos]
  rw [Bool.and_eq_true]
  refine ⟨decide_eq_true (hlt.trans_le (hsize.trans (by decide))), List.all_eq_true.2 ?_⟩
  intro i hi
  have hi : i < (headerOf (d start)).count := List.mem_range.1 hi
  rw [Bool.and_eq_true]
  exact ⟨decide_eq_true (by omega), decide_eq_true (h.onDisk i hi)⟩

theorem clearLogHeader_eq (h : GoodLog start logBlks d) (e : Disk) :
    clearLogHeader start e = some (Function.update e start (Function.update (e start) 0 0)) := by
  have hlt := h.count_lt
  have harea := h.area
  unfold clearLogHeader
  rw [if_pos]
  exact decide_eq_true (by omega)

/-- A home block is not a log block. -/
theorem GoodLog.home_ne (h : GoodLog start logBlks d) {i k : Nat}
    (hi : i < (headerOf (d start)).count) (hk : k ≤ (headerOf (d start)).count) :
    (headerOf (d start)).home i ≠ start + k := by
  have hlt := h.count_lt
  have := h.outside i hi
  omega

/-- The batch is queued completely. -/
theorem mem_elevator (lh : LogHeader) (i : Nat) : i ∈ elevator lh ↔ i < lh.count := by
  have hfold : ∀ (l q : List Nat),
      i ∈ l.foldl (fun q i => insertRequest lh.home i q) q ↔ i ∈ l ∨ i ∈ q := by
    intro l
    induction l with
    | nil => simp
    | cons a l ih =>
      intro q
      rw [List.foldl_cons, ih, (insertRequest_perm lh.home a q).mem_iff, List.mem_cons, List.mem_cons]
      tauto
  unfold elevator
  rw [hfold, List.mem_range]
  simp

section Writes

variable {lh : LogHeader} {batch : Nat → Block}

/-- Writes of the batch change home blocks only. -/
theorem foldl_writeHome_other {written : List Nat} {b : Nat} (hb : ∀ i ∈ written, lh.home i ≠ b)
    (d : Disk) : written.foldl (writeHome lh batch) d b = d b := by
  induction written generalizing d with
  | nil => rfl
  | cons i is ih =>
    rw [List.foldl_cons, ih fun j hj => hb j (List.mem_cons_of_mem i hj)]
    exact Function.update_of_ne (hb i List.mem_cons_self).symm _ _

/-- A home block that was written holds its log block, in whatever order the batch was written. -/
theorem foldl_writeHome_home {written : List Nat} {i : Nat} (hi : i ∈ written)
    (hinj : ∀ j ∈ written, lh.home j = lh.home i → j = i) (d : Disk) :
    written.foldl (writeHome lh batch) d (lh.home i) = batch i := by
  induction written generalizing d with
  | nil => exact absurd hi List.not_mem_nil
  | cons j js ih =>
    rw [List.foldl_cons]
    by_cases hmem : i ∈ js
    · exact ih hmem (fun k hk => hinj k (List.mem_cons_of_mem j hk)) _
    · -- the last write of the block is this one
      obtain rfl : i = j := (List.mem_cons.1 hi).resolve_right hmem
      rw [foldl_writeHome_other]
      · exact Function.update_self _ _ _
      · intro k hk heq
        exact hmem (hinj k (List.mem_cons_of_mem i hk) heq ▸ hk)

end Writes

/-- What the disk `d'` is after the log of the disk `d` was installed: every listed home block holds its log
    block, the header lists nothing, and the rest is as it was. -/
structure Installed (start : Nat) (d d' : Disk) : Prop where
  home : ∀ i < (headerOf (d start)).count, d' ((headerOf (d start)).home i) = d (start + i + 1)
  nblks : (headerOf (d' start)).nblks = 0
  header : ∀ k, 0 < k → d' start k = d start k
  other : ∀ b, b ≠ start → (∀ i < (headerOf (d start)).count, b ≠ (headerOf (d start)).home i) →
    d' b = d b

/-- The installed disk is determined. -/
theorem Installed.unique {d₁ d₂ : Disk} (h₁ : Installed start d d₁) (h₂ : Installed start d d₂)
    (hstart : ∀ i < (headerOf (d start)).count, (headerOf (d start)).home i ≠ start) : d₁ = d₂ := by
  funext b
  by_cases hb : b = start
  · subst hb
    funext k
    cases k with
    | zero => exact h₁.nblks.trans h₂.nblks.symm
    | succ k => rw [h₁.header _ (Nat.succ_pos k), h₂.header _ (Nat.succ_pos k)]
  · by_cases hhome : ∃ i < (headerOf (d start)).count, b = (headerOf (d start)).home i
    · obtain ⟨i, hi, rfl⟩ := hhome
      rw [h₁.home i hi, h₂.home i hi]
    · have hother : ∀ i < (headerOf (d start)).count, b ≠ (headerOf (d start)).home i :=
        fun i hi heq => hhome ⟨i, hi, heq⟩
      rw [h₁.other b hb hother, h₂.other b hb hother]

/-- **An uninterrupted recovery installs the log.** -/
theorem recoverFromLog_spec (h : GoodLog start logBlks d) :
    ∃ d', recoverFromLog start d = some d' ∧ Installed start d d' := by
  have hhome : ∀ i < (headerOf (d start)).count, (headerOf (d start)).home i ≠ start :=
    fun i hi => h.home_ne hi (Nat.zero_le _)
  unfold recoverFromLog
  rw [h.readLogHeader]
  simp only [Option.bind_eq_bind, Option.bind_some]
  split
  · rename_i hzero
    have hcount : (headerOf (d start)).count = 0 := by
      rw [LogHeader.count, hzero]
      rfl
    refine ⟨_, clearLogHeader_eq h d, ?_, ?_, ?_, ?_⟩
    · intro i hi
      omega
    · simp [headerOf]
    · intro k hk
      rw [Function.update_self, Function.update_of_ne (by omega)]
    · intro b hb _
      exact Function.update_of_ne hb _ _
  · rw [h.fillBatch, Option.bind_some]
    refine ⟨_, clearLogHeader_eq h _, ?_, ?_, ?_, ?_⟩
    · intro i hi
      rw [Function.update_of_ne (hhome i hi)]
      apply foldl_writeHome_home ((mem_elevator _ i).2 hi)
      intro j hj heq
      exact h.distinct j ((mem_elevator _ j).1 hj) i hi heq
    · simp [headerOf]
    · intro k hk
      rw [Function.update_self, Function.update_of_ne (by omega), foldl_writeHome_other]
      intro i hi
      exact hhome i ((mem_elevator _ i).1 hi)
    · intro b hb hother
      rw [Function.update_of_ne hb, foldl_writeHome_other]
      intro i hi heq
      exact hother i ((mem_elevator _ i).1 hi) heq.symm

/-! ## §4 Crashes -/

/-- Every disk that interrupted recoveries of `d` can leave agrees with `d` outside the home blocks. -/
def Crashed (start : Nat) (d e : Disk) : Prop :=
  ∀ b, (∀ i < (headerOf (d start)).count, b ≠ (headerOf (d start)).home i) → e b = d b

theorem Crashed.header {e : Disk} (hc : Crashed start d e) (h : GoodLog start logBlks d) :
    e start = d start :=
  hc start fun _ hi => (h.home_ne hi (Nat.zero_le _)).symm

theorem Crashed.log {e : Disk} (hc : Crashed start d e) (h : GoodLog start logBlks d) {i : Nat}
    (hi : i < (headerOf (d start)).count) : e (start + i + 1) = d (start + i + 1) :=
  hc _ fun _ hj => (h.home_ne hj (Nat.succ_le_of_lt hi)).symm

/-- The header and the log blocks survive, so the log is as good as before. -/
theorem Crashed.goodLog {e : Disk} (hc : Crashed start d e) (h : GoodLog start logBlks d) :
    GoodLog start logBlks e := by
  have heq := hc.header h
  constructor
  · exact h.size
  · exact h.area
  · rw [heq]
    exact h.count
  · rw [heq]
    exact h.nonneg
  · rw [heq]
    exact h.onDisk
  · rw [heq]
    exact h.outside
  · rw [heq]
    exact h.distinct

/-- **Step lemma**: one more interrupted recovery changes home blocks only. -/
theorem attempt_crashed {e : Disk} (hc : Crashed start d e) (h : GoodLog start logBlks d)
    {written : List Nat} (hw : ∀ i ∈ written, i < (headerOf (d start)).count) :
    ∃ e', attempt start e written = some e' ∧ Crashed start d e' := by
  have hgood := hc.goodLog h
  unfold attempt
  rw [hgood.readLogHeader]
  simp only [Option.bind_eq_bind, Option.bind_some, hgood.fillBatch]
  refine ⟨_, rfl, ?_⟩
  intro b hb
  rw [foldl_writeHome_other]
  · exact hc b hb
  · intro i hi heq
    rw [hc.header h] at heq
    exact hb i (hw i hi) heq.symm

/-- **Run lemma**: so do any number of them. -/
theorem attempts_crashed {e : Disk} (hc : Crashed start d e) (h : GoodLog start logBlks d)
    {crashes : List (List Nat)} (hw : ∀ w ∈ crashes, ∀ i ∈ w, i < (headerOf (d start)).count) :
    ∃ e', crashes.foldlM (attempt start) e = some e' ∧ Crashed start d e' := by
  induction crashes generalizing e with
  | nil => exact ⟨e, rfl, hc⟩
  | cons w ws ih =>
    obtain ⟨e₁, hok₁, hc₁⟩ := attempt_crashed hc h (hw w List.mem_cons_self)
    obtain ⟨e₂, hok₂, hc₂⟩ := ih hc₁ fun v hv => hw v (List.mem_cons_of_mem w hv)
    refine ⟨e₂, ?_, hc₂⟩
    rw [List.foldlM_cons, hok₁]
    exact hok₂

/-- What recovery makes of a crashed disk it makes of the disk itself. -/
theorem Crashed.installed {e e' : Disk} (hc : Crashed start d e) (h : GoodLog start logBlks d)
    (hi : Installed start e e') : Installed start d e' := by
  have heq := hc.header h
  constructor
  · intro i hlt
    rw [← heq] at hlt ⊢
    rw [hi.home i hlt, hc.log h (heq ▸ hlt)]
  · exact hi.nblks
  · intro k hk
    rw [hi.header k hk, heq]
  · intro b hb hother
    have hother' : ∀ i < (headerOf (e start)).count, b ≠ (headerOf (e start)).home i := by
      rw [heq]
      exact hother
    rw [hi.other b hb hother', hc b hother]

/-- **Recovery is idempotent under crashes**: after any finite sequence of recoveries that crashed after any
    of their home writes, an uninterrupted recovery yields the disk that one recovery yields at once. -/
theorem recovery_idempotent (start logBlks : Nat) (d : Disk) (h : GoodLog start logBlks d)
    (crashes : List (List Nat)) (hw : ∀ w ∈ crashes, ∀ i ∈ w, i < (headerOf (d start)).count) :
    ∃ d' e, recoverFromLog start d = some d' ∧ Installed start d d' ∧
      crashes.foldlM (attempt start) d = some e ∧ recoverFromLog start e = some d' := by
  obtain ⟨d', hok, hinst⟩ := recoverFromLog_spec h
  obtain ⟨e, hcrash, hc⟩ := attempts_crashed (fun _ _ => rfl : Crashed start d d) h hw
  obtain ⟨e', hok', hinst'⟩ := recoverFromLog_spec (hc.goodLog h)
  have heq : d' = e' := hinst.unique (hc.installed h hinst') fun i hi =>
    h.home_ne hi (Nat.zero_le _)
  exact ⟨d', e, hok, hinst, hcrash, heq ▸ hok'⟩

/-- A disk whose log of eight blocks from block 2 on lists the blocks 40 and 30. -/
def sampleDisk : Disk := fun b k =>
  if b = 2 then (if k = 0 then 2 else if k = 1 then 40 else 30) else BitVec.ofNat 32 (b + k)

theorem sampleDisk_goodLog : GoodLog 2 8 sampleDisk where
  size := by decide
  area := by decide
  count := by decide
  nonneg := by decide
  onDisk := by decide
  outside := by decide
  distinct := by decide

theorem recovery_idempotent_sample :
    ∃ d' e, recoverFromLog 2 sampleDisk = some d' ∧ Installed 2 sampleDisk d' ∧
      [[1], [], [1, 0]].foldlM (attempt 2) sampleDisk = some e ∧ recoverFromLog 2 e = some d' :=
  recovery_idempotent 2 8 sampleDisk sampleDisk_goodLog [[1], [], [1, 0]] (by decide)

end WeiOS.Recovery
