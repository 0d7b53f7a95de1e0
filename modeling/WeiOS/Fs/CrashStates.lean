import Mathlib
import WeiOS.Fs.CrashModel

/-!
# What a Crash Leaves to the Recovery

A disk whose log header lists nothing is left by recovery as it is; one whose header lists a transaction that
lies completely in the log gets its new contents. Every disk between two calls of a transaction is of one of
these kinds, and where no call writes more than one home block, a transaction that changes two blocks cannot
get from the old contents to the new ones without a disk that has some of each.

## Main results
- `recovers`: what recovery makes of both kinds of disk.
- `Early.call`: one more call before the log header is written.
-/

namespace WeiOS.Crash

open WeiOS.Lib Ide Bio
open WeiOS.Recovery (Block Disk LogHeader headerOf recoverFromLog)
open WeiOS.Commit (Config Sys InArea LogState)

/-! ## §1 Two kinds of disk -/

/-- The disk and the log area on it, which is as large as `mkfs` makes it, at most `LOGSIZE`. -/
structure Area (cfg : Config) : Prop where
  dev : cfg.dev ≠ 0
  diskExists : cfg.slaveDiskExisted = true
  area : cfg.start + cfg.size ≤ FSSIZE
  size : cfg.size ≤ Log.LOGSIZE
  pos : 0 < cfg.size

/-- All passed blocks have their old contents, those on the disk `d₀`. -/
def AllOld (d₀ : Disk) (ws : List (Nat × Block)) (d : Disk) : Prop := ∀ w ∈ ws, d w.1 = d₀ w.1

/-- All passed blocks have their new contents. -/
def AllNew (ws : List (Nat × Block)) (d : Disk) : Prop := ∀ w ∈ ws, d w.1 = w.2

/-- The log header on the disk lists nothing, and each passed block is old or new. -/
structure Uncommitted (cfg : Config) (d₀ : Disk) (ws : List (Nat × Block)) (d : Disk) : Prop where
  nblks : (headerOf (d cfg.start)).nblks = 0
  blocks : ∀ w ∈ ws, d w.1 = d₀ w.1 ∨ d w.1 = w.2

/-- The log header on the disk is `lh`, and the log has the new contents of all passed blocks. -/
structure Committed (cfg : Config) (lh : LogHeader) (ws : List (Nat × Block)) (d : Disk) : Prop where
  log : LogState cfg lh
  nblks : (headerOf (d cfg.start)).nblks = lh.nblks
  home : ∀ i < lh.count, (headerOf (d cfg.start)).home i = lh.home i
  blocks : ∀ w ∈ ws, ∃ i < lh.count, lh.home i = w.1 ∧ d (cfg.start + i + 1) = w.2

/-- The disks that the recovery can deal with. -/
def Survives (cfg : Config) (d₀ : Disk) (ws : List (Nat × Block)) (d : Disk) : Prop :=
  Uncommitted cfg d₀ ws d ∨ ∃ lh, Committed cfg lh ws d

variable {cfg : Config} {lh : LogHeader} {d₀ d d' e : Disk} {ws : List (Nat × Block)}

/-- A home block is not a block of the log. -/
theorem ne_of_outside {m n : Nat} (hm : InArea cfg m) (hn : ¬ InArea cfg n) : n ≠ m := by
  rintro rfl
  exact hn hm

theorem Area.start (h : Area cfg) : InArea cfg cfg.start := by
  have hpos := h.pos
  exact ⟨le_rfl, by omega⟩

theorem AllOld.uncommitted (hnblks : (headerOf (d cfg.start)).nblks = 0) (h : AllOld d₀ ws d) :
    Uncommitted cfg d₀ ws d := ⟨hnblks, fun w hw => .inl (h w hw)⟩

theorem AllNew.uncommitted (hnblks : (headerOf (d cfg.start)).nblks = 0) (h : AllNew ws d) :
    Uncommitted cfg d₀ ws d := ⟨hnblks, fun w hw => .inr (h w hw)⟩

/-- A call between two disks without a committed transaction. -/
theorem Uncommitted.halfway (h : Uncommitted cfg d₀ ws d) (h' : Uncommitted cfg d₀ ws d')
    (he : Halfway d d' e) : Uncommitted cfg d₀ ws e where
  nblks := by
    rcases he cfg.start with heq | heq
    · rw [heq]
      exact h.nblks
    · rw [heq]
      exact h'.nblks
  blocks := by
    intro w hw
    rcases he w.1 with heq | heq
    · rw [heq]
      exact h.blocks w hw
    · rw [heq]
      exact h'.blocks w hw

/-- A call that leaves the log area as it is. -/
theorem Committed.halfway (h : Committed cfg lh ws d) (hlog : ∀ m, InArea cfg m → d' m = d m)
    (he : Halfway d d' e) : Committed cfg lh ws e := by
  have hsame : ∀ i ≤ lh.count, e (cfg.start + i) = d (cfg.start + i) :=
    fun i hi => he.eq_of_eq (hlog _ (h.log.inArea hi))
  have hstart : e cfg.start = d cfg.start := hsame 0 (Nat.zero_le _)
  refine ⟨h.log, ?_, ?_, ?_⟩
  · rw [hstart]
    exact h.nblks
  · rw [hstart]
    exact h.home
  · intro w hw
    obtain ⟨i, hi, hhome, hdata⟩ := h.blocks w hw
    exact ⟨i, hi, hhome, (hsame (i + 1) hi).trans hdata⟩

/-! ## §2 The recovery -/

/-- **Recovery leaves the blocks as they are** if the log is empty. -/
theorem Uncommitted.recovers (harea : Area cfg) (hout : ∀ w ∈ ws, ¬ InArea cfg w.1)
    (h : Uncommitted cfg d₀ ws d) :
    ∃ d', recoverFromLog cfg.start d = some d' ∧ ∀ w ∈ ws, d' w.1 = d w.1 := by
  have hcount : (headerOf (d cfg.start)).count = 0 := by
    rw [LogHeader.count, h.nblks]
    rfl
  have hgood : Recovery.GoodLog cfg.start cfg.size d := by
    have hpos := harea.pos
    refine ⟨harea.size, harea.area, ?_, ?_, ?_, ?_, ?_⟩
    · rw [h.nblks]
      show (0 : Int) ≤ _
      omega
    · rw [h.nblks]
      exact le_rfl
    all_goals
      rw [hcount]
      intro i hi
      omega
  obtain ⟨d', hrun, hinst⟩ := Recovery.recoverFromLog_spec hgood
  refine ⟨d', hrun, fun w hw => hinst.other w.1 (ne_of_outside harea.start (hout w hw)) ?_⟩
  rw [hcount]
  intro i hi
  omega

/-- **Recovery installs** what is committed. -/
theorem Committed.recovers (h : Committed cfg lh ws d) :
    ∃ d', recoverFromLog cfg.start d = some d' ∧ AllNew ws d' := by
  have hcount : (headerOf (d cfg.start)).count = lh.count := by
    unfold LogHeader.count
    rw [h.nblks]
  have hgood : Recovery.GoodLog cfg.start cfg.size d := by
    refine ⟨h.log.size, h.log.area, ?_, ?_, ?_, ?_, ?_⟩
    · rw [h.nblks]
      exact h.log.count
    · rw [h.nblks]
      exact h.log.pos.le
    all_goals rw [hcount]
    · intro i hi
      rw [h.home i hi]
      exact h.log.onDisk i hi
    · intro i hi
      rw [h.home i hi]
      have hout := h.log.outside i hi
      unfold InArea at hout
      omega
    · intro i hi j hj heq
      rw [h.home i hi, h.home j hj] at heq
      exact h.log.distinct i hi j hj heq
  obtain ⟨d', hrun, hinst⟩ := Recovery.recoverFromLog_spec hgood
  refine ⟨d', hrun, ?_⟩
  intro w hw
  obtain ⟨i, hi, hhome, hdata⟩ := h.blocks w hw
  have hdone := hinst.home i (hcount.symm ▸ hi)
  rw [h.home i hi, hhome, hdata] at hdone
  exact hdone

/-! ## §3 Calls -/

/-- Recovery returns, and leaves all passed blocks old or all new. -/
def Atomic (cfg : Config) (d₀ : Disk) (ws : List (Nat × Block)) (e : Disk) : Prop :=
  ∃ d, recoverFromLog cfg.start e = some d ∧ (AllOld d₀ ws d ∨ AllNew ws d)

/-- At most one of the passed blocks changes. -/
def OneChanges (d₀ : Disk) (ws : List (Nat × Block)) : Prop :=
  ∀ v ∈ ws, ∀ w ∈ ws, v.2 ≠ d₀ v.1 → w.2 ≠ d₀ w.1 → v.1 = w.1

/-- Within the call, recovery can deal with the disk. -/
def Safe (cfg : Config) (d₀ : Disk) (ws : List (Nat × Block)) (c : Disk × Disk) : Prop :=
  ∀ e, Halfway c.1 c.2 e → Survives cfg d₀ ws e

/-- After one of the calls, some passed blocks are old and some are new, and nothing is in the log. -/
def Torn (cfg : Config) (d₀ : Disk) (ws : List (Nat × Block)) (calls : List (Disk × Disk)) : Prop :=
  ∃ c ∈ calls, Uncommitted cfg d₀ ws c.2 ∧ ¬ AllOld d₀ ws c.2 ∧ ¬ AllNew ws c.2

theorem Torn.append {calls : List (Disk × Disk)} (h : Torn cfg d₀ ws calls)
    (more : List (Disk × Disk)) : Torn cfg d₀ ws (calls ++ more) := by
  obtain ⟨c, hc, htorn⟩ := h
  exact ⟨c, List.mem_append_left _ hc, htorn⟩

/-- The calls so far, before the log header is written: where two blocks change, one of them has torn the
    transaction, or the disk has no new contents yet. -/
structure Early (cfg : Config) (d₀ : Disk) (ws : List (Nat × Block)) (t : Traced Sys Nat Block) : Prop where
  safe : ∀ c ∈ t.calls, Safe cfg d₀ ws c
  torn : ¬ OneChanges d₀ ws → Torn cfg d₀ ws t.calls ∨ AllOld d₀ ws t.sys.disk
  disk : Uncommitted cfg d₀ ws t.sys.disk

/-- The calls so far, later on. -/
structure Late (cfg : Config) (d₀ : Disk) (ws : List (Nat × Block)) (t : Traced Sys Nat Block) : Prop where
  safe : ∀ c ∈ t.calls, Safe cfg d₀ ws c
  torn : ¬ OneChanges d₀ ws → Torn cfg d₀ ws t.calls

variable {s t : Sys} {calls : List (Disk × Disk)}

/-- **One more call** that writes one block: where the disk had no new contents, it cannot have got two. -/
theorem Early.call (h : Early cfg d₀ ws ⟨s, calls⟩) {n : Nat} {x : Block}
    (hdisk : t.disk = Function.update s.disk n x) (ht : Uncommitted cfg d₀ ws t.disk) :
    Early cfg d₀ ws ⟨t, calls ++ [(s.disk, t.disk)]⟩ where
  safe := by
    intro c hc
    rcases List.mem_append.1 hc with hc | hc
    · exact h.safe c hc
    · rw [List.mem_singleton.1 hc]
      exact fun e he => .inl (h.disk.halfway ht he)
  torn := by
    intro htwo
    rcases h.torn htwo with htorn | hold
    · exact .inl (htorn.append _)
    · by_cases hold' : AllOld d₀ ws t.disk
      · exact .inr hold'
      · refine .inl ⟨(s.disk, t.disk), by simp, ht, hold', ?_⟩
        intro hnew
        apply htwo
        -- a block that changes is new now and was old before, so it is the one that was written
        have hwritten : ∀ w ∈ ws, w.2 ≠ d₀ w.1 → w.1 = n := by
          intro w hw hne
          by_contra hwn
          apply hne
          rw [← hnew w hw, ← hold w hw]
          show t.disk w.1 = s.disk w.1
          rw [hdisk, Function.update_of_ne hwn]
        intro v hv w hw hv' hw'
        rw [hwritten v hv hv', hwritten w hw hw']
  disk := ht

/-- A call that changes no block. -/
theorem Early.same (h : Early cfg d₀ ws ⟨s, calls⟩) (hdisk : t.disk = s.disk) :
    Early cfg d₀ ws ⟨t, calls⟩ := by
  refine ⟨h.safe, fun htwo => ?_, ?_⟩
  · show _ ∨ AllOld d₀ ws t.disk
    rw [hdisk]
    exact h.torn htwo
  · show Uncommitted cfg d₀ ws t.disk
    rw [hdisk]
    exact h.disk

/-- **All blocks are new**: the transaction has been torn, if it changes two. -/
theorem Early.late (h : Early cfg d₀ ws ⟨s, calls⟩) (hnew : AllNew ws s.disk) :
    Late cfg d₀ ws ⟨t, calls⟩ where
  safe := h.safe
  torn := by
    intro htwo
    refine (h.torn htwo).resolve_right fun hold => htwo ?_
    intro v hv w hw hv' hw'
    exact absurd ((hnew v hv).symm.trans (hold v hv)) hv'

theorem Late.call (h : Late cfg d₀ ws ⟨s, calls⟩) {c : Disk × Disk} (hc : Safe cfg d₀ ws c) :
    Late cfg d₀ ws ⟨t, calls ++ [c]⟩ where
  safe := by
    intro c' hc'
    rcases List.mem_append.1 hc' with hc' | hc'
    · exact h.safe c' hc'
    · rw [List.mem_singleton.1 hc']
      exact hc
  torn := fun htwo => (h.torn htwo).append _

/-! ## §4 All crash points -/

/-- Where at most one block changes, a disk without a committed transaction is all old or all new. -/
theorem Uncommitted.atomic (harea : Area cfg) (hout : ∀ w ∈ ws, ¬ InArea cfg w.1)
    (hdistinct : ∀ v ∈ ws, ∀ w ∈ ws, v.1 = w.1 → v = w) (h : Uncommitted cfg d₀ ws e)
    (hone : OneChanges d₀ ws) : Atomic cfg d₀ ws e := by
  obtain ⟨d, hrun, hsame⟩ := h.recovers harea hout
  refine ⟨d, hrun, ?_⟩
  by_cases hold : AllOld d₀ ws d
  · exact .inl hold
  · right
    -- the block that is not old is the only one that changes
    obtain ⟨v, hv, hne⟩ : ∃ v ∈ ws, d v.1 ≠ d₀ v.1 := by simpa [AllOld] using hold
    have hvnew : d v.1 = v.2 := by
      rw [hsame v hv] at hne ⊢
      exact (h.blocks v hv).resolve_left hne
    intro w hw
    by_cases hchanges : w.2 = d₀ w.1
    · rw [hsame w hw, hchanges]
      rcases h.blocks w hw with heq | heq
      · exact heq
      · exact heq.trans hchanges
    · have heq := hone v hv w hw (hvnew ▸ hne) hchanges
      rw [← hdistinct v hv w hw heq]
      exact hvnew

theorem Survives.atomic (harea : Area cfg) (hout : ∀ w ∈ ws, ¬ InArea cfg w.1)
    (hdistinct : ∀ v ∈ ws, ∀ w ∈ ws, v.1 = w.1 → v = w) (h : Survives cfg d₀ ws e)
    (hone : OneChanges d₀ ws) : Atomic cfg d₀ ws e := by
  rcases h with h | ⟨lh, h⟩
  · exact h.atomic harea hout hdistinct hone
  · obtain ⟨d, hrun, hnew⟩ := h.recovers
    exact ⟨d, hrun, .inr hnew⟩

/-- **A torn transaction** is neither undone nor completed. -/
theorem Torn.not_atomic (harea : Area cfg) (hout : ∀ w ∈ ws, ¬ InArea cfg w.1)
    (h : Torn cfg d₀ ws calls) : ∃ e, CrashPoint d calls e ∧ ¬ Atomic cfg d₀ ws e := by
  obtain ⟨c, hc, hdisk, hold, hnew⟩ := h
  refine ⟨c.2, .inr ⟨c, hc, Halfway.after _ _⟩, ?_⟩
  rintro ⟨d, hrun, hatomic⟩
  obtain ⟨d', hrun', hsame⟩ := hdisk.recovers harea hout
  obtain rfl : d = d' := Option.some.inj (hrun.symm.trans hrun')
  rcases hatomic with hold' | hnew'
  · exact hold fun w hw => (hsame w hw).symm.trans (hold' w hw)
  · exact hnew fun w hw => (hsame w hw).symm.trans (hnew' w hw)

end WeiOS.Crash
