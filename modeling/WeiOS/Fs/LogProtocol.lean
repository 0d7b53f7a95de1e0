import Mathlib
import WeiOS.Lib.Run

/-!
# Transactions of Concurrent Processes

`log.c`, as far as the processes share it: `begin_transaction`, `log_write`, `end_transaction` and the
commit that the last `end_transaction` runs. `begin_transaction` reserves `MAXOPBLOCKS` blocks for
every open transaction. The log of a machine has `log_blks` blocks, one of which is the header, so
`log_write` refuses the last block that the reservation counts on when `log_blks` is `LOGSIZE`.

## Main results
- `logOk_of_run`: safety of the protocol in every interleaving.
- `neverRefused_iff`: when a `log_write` inside a transaction is refused.
-/

namespace WeiOS.Log

open WeiOS.Lib

/-! ## §1 The log manager -/

/-- Most blocks that one operation writes (`include/param.h`). -/
def MAXOPBLOCKS : Nat := 40

/-- Length of `blks_no` (`include/param.h`). -/
def LOGSIZE : Nat := MAXOPBLOCKS * 3

/-- Where a process is: outside, in the loop of `begin_transaction`, asleep on `procs_waitting`,
    inside its transaction, in `log_write` past the checks, in `commit`, and after it. -/
inductive Pc where
  | out
  | begin
  | waiting
  | inTx
  | locking (blockno : Nat)
  | commit
  | committed
  deriving DecidableEq

/-- `struct log_manager` and the processes. `passed p` lists the block numbers that process `p` has
    passed to `log_write` in its transaction, `logged` those that went into the log since the last
    commit; the code does not read these two. -/
structure LogSys where
  size : Int
  committing : Bool
  nOccupiers : Int
  nblks : Nat
  blksNo : Nat → Nat
  pc : Nat → Pc
  passed : Nat → List Nat
  logged : List Nat

/-- What goes wrong: the panic of `end_transaction`, and a write behind the end of `blks_no`. -/
inductive Fault where
  | panic
  | blksNo
  deriving DecidableEq

/-- The state that `log_init` leaves, for a log of `size` blocks. -/
def logInit (size : Int) : LogSys where
  size := size
  committing := false
  nOccupiers := 0
  nblks := 0
  blksNo := fun _ => 0
  pc := fun _ => .out
  passed := fun _ => []
  logged := []

/-- The steps of a process. `log_write` makes its checks before it takes the lock. -/
inductive Op where
  | beginTransaction (p : Nat)
  | round (p : Nat)
  | logWrite (p blockno : Nat)
  | append (p : Nat)
  | endTransaction (p : Nat)
  | commit (p : Nat)
  | finish (p : Nat)
  deriving DecidableEq

def setPc (s : LogSys) (p : Nat) (c : Pc) : LogSys := { s with pc := Function.update s.pc p c }

/-- `wakeup(&log_manager.procs_waitting)`. -/
def wakeup (s : LogSys) : LogSys :=
  { s with
    pc := fun q => match s.pc q with
      | .waiting => .begin
      | c => c }

/-- A round of the loop of `begin_transaction`. -/
def round (s : LogSys) (p : Nat) : LogSys :=
  if s.committing then setPc s p .waiting
  else if (s.nblks : Int) + (s.nOccupiers + 1) * MAXOPBLOCKS > LOGSIZE then setPc s p .waiting
  else
    setPc { s with
      nOccupiers := s.nOccupiers + 1
      passed := Function.update s.passed p [] } p .inTx

/-- The checks of `log_write`, which decide whether it returns -1. -/
def refuses (s : LogSys) : Bool :=
  decide (LOGSIZE ≤ s.nblks ∨ s.size - 1 ≤ s.nblks) || decide (s.nOccupiers < 1)

/-- `log_write` up to the lock. -/
def logWrite (s : LogSys) (p blockno : Nat) : LogSys :=
  let s' := { s with passed := Function.update s.passed p (blockno :: s.passed p) }
  if refuses s then s' else setPc s' p (.locking blockno)

/-- The place of a block in the log header, the loop of `log_write`. -/
def findBlk (s : LogSys) (blockno : Nat) : Nat :=
  ((List.range s.nblks).find? fun i => decide (s.blksNo i = blockno)).getD s.nblks

/-- `log_write` under the lock. -/
def append (s : LogSys) (p blockno : Nat) : Except Fault LogSys :=
  let i := findBlk s blockno
  if LOGSIZE ≤ i then .error .blksNo
  else
    .ok (setPc { s with
      blksNo := Function.update s.blksNo i blockno
      nblks := s.nblks + if i = s.nblks then 1 else 0
      logged := blockno :: s.logged } p .inTx)

/-- `end_transaction` up to its call of `commit`. -/
def endTransaction (s : LogSys) (p : Nat) : Except Fault LogSys :=
  let s := { s with nOccupiers := s.nOccupiers - 1 }
  if s.committing then .error .panic
  else if s.nOccupiers = 0 then .ok (setPc { s with committing := true } p .commit)
  else .ok (wakeup (setPc s p .out))

/-- `commit`: the log is empty afterwards. -/
def commit (s : LogSys) (p : Nat) : LogSys :=
  setPc (if 0 < s.nblks then { s with nblks := 0, logged := [] } else { s with logged := [] }) p
    .committed

/-- The end of `end_transaction` after a commit. -/
def finish (s : LogSys) (p : Nat) : LogSys :=
  wakeup (setPc { s with committing := false } p .out)

/-- One step. -/
def step (s : LogSys) : Op → Except Fault LogSys
  | .beginTransaction p => .ok (setPc s p .begin)
  | .round p => .ok (round s p)
  | .logWrite p blockno => .ok (logWrite s p blockno)
  | .append p =>
    match s.pc p with
    | .locking blockno => append s p blockno
    | _ => .ok s
  | .endTransaction p => endTransaction s p
  | .commit p => .ok (commit s p)
  | .finish p => .ok (finish s p)

/-- Each process goes through its transactions in order. -/
def InOrder (s : LogSys) : Op → Prop
  | .beginTransaction p => s.pc p = .out
  | .round p => s.pc p = .begin
  | .logWrite p _ => s.pc p = .inTx
  | .append p => ∃ blockno, s.pc p = .locking blockno
  | .endTransaction p => s.pc p = .inTx
  | .commit p => s.pc p = .commit
  | .finish p => s.pc p = .committed

/-- A transaction calls `log_write` at most `MAXOPBLOCKS` times. -/
def FewCalls (s : LogSys) : Op → Prop
  | .logWrite p _ => (s.passed p).length < MAXOPBLOCKS
  | _ => True

/-- A transaction passes at most `MAXOPBLOCKS` distinct blocks to `log_write`. -/
def FewBlocks (s : LogSys) : Op → Prop
  | .logWrite p blockno => (blockno :: s.passed p).toFinset.card ≤ MAXOPBLOCKS
  | _ => True

theorem FewCalls.fewBlocks {s : LogSys} {o : Op} (h : FewCalls s o) : FewBlocks s o := by
  cases o with
  | logWrite p blockno =>
    have hlen : (s.passed p).length < MAXOPBLOCKS := h
    exact (List.toFinset_card_le (blockno :: s.passed p)).trans hlen
  | beginTransaction | round | append | endTransaction | commit | finish => trivial

/-! ## §2 The invariant -/

/-- The process is between its `begin_transaction` and its `end_transaction`. -/
def Pc.active : Pc → Bool
  | .inTx => true
  | .locking _ => true
  | _ => false

/-- The process is in the commit part of `end_transaction`. -/
def Pc.committing : Pc → Bool
  | .commit => true
  | .committed => true
  | _ => false

/-- The process is in `log_write`, before the lock. -/
def Pc.isLocking : Pc → Bool
  | .locking _ => true
  | _ => false

theorem Pc.isLocking_iff (c : Pc) : c.isLocking = true ↔ ∃ blockno, c = .locking blockno := by
  cases c <;> simp [Pc.isLocking]

/-- The blocks in the log header. -/
def header (s : LogSys) : List Nat := (List.range s.nblks).map s.blksNo

/-! Neither a round of `begin_transaction` nor the checks of `log_write` touch the log. -/

@[simp] theorem round_size (s : LogSys) (p : Nat) : (round s p).size = s.size := by
  unfold round
  split_ifs <;> rfl

@[simp] theorem round_header (s : LogSys) (p : Nat) : header (round s p) = header s := by
  unfold round
  split_ifs <;> rfl

@[simp] theorem round_logged (s : LogSys) (p : Nat) : (round s p).logged = s.logged := by
  unfold round
  split_ifs <;> rfl

@[simp] theorem logWrite_size (s : LogSys) (p b : Nat) : (logWrite s p b).size = s.size := by
  unfold logWrite
  dsimp only
  split_ifs <;> rfl

@[simp] theorem logWrite_header (s : LogSys) (p b : Nat) : header (logWrite s p b) = header s := by
  unfold logWrite
  dsimp only
  split_ifs <;> rfl

@[simp] theorem logWrite_logged (s : LogSys) (p b : Nat) :
    (logWrite s p b).logged = s.logged := by
  unfold logWrite
  dsimp only
  split_ifs <;> rfl

/-- The blocks that the log may have to hold so far: those of the header, and those that an open
    transaction has passed to `log_write`. -/
def claimed (s : LogSys) (ps : Finset Nat) : Finset Nat :=
  (header s).toFinset ∪ ps.biUnion fun p => (s.passed p).toFinset

/-- The blocks that process `p` has reserved and not passed to `log_write`. -/
def spare (s : LogSys) (p : Nat) : Nat := MAXOPBLOCKS - (s.passed p).toFinset.card

/-- `ps` are the processes with an open transaction; the log has room for all they may add. -/
structure LogInv (s : LogSys) (ps : Finset Nat) : Prop where
  mem : ∀ p, p ∈ ps ↔ (s.pc p).active = true
  occupiers : s.nOccupiers = ps.card
  blocks : ∀ p ∈ ps, (s.passed p).toFinset.card ≤ MAXOPBLOCKS
  locking : ∀ p b, s.pc p = .locking b → b ∈ s.passed p
  budget : (claimed s ps).card + ∑ p ∈ ps, spare s p ≤ LOGSIZE
  quiet : s.committing = true → ps = ∅
  committer : ∀ p, (s.pc p).committing = true → s.committing = true
  one : ∀ p q, (s.pc p).committing = true → (s.pc q).committing = true → p = q
  distinct : (header s).Nodup

theorem logInit_inv (size : Int) : LogInv (logInit size) ∅ := by
  refine ⟨?_, rfl, ?_, ?_, ?_, fun _ => rfl, ?_, ?_, List.nodup_nil⟩
  · intro p
    simp [logInit, Pc.active]
  · intro p hp
    cases hp
  · intro p b hp
    cases hp
  · exact Nat.zero_le _
  · intro p hp
    cases hp
  · intro p q hp
    cases hp

section Steps

variable {s s' : LogSys} {ps : Finset Nat} {p : Nat}

theorem length_header (s : LogSys) : (header s).length = s.nblks := by
  simp [header]

theorem LogInv.not_committing (h : LogInv s ps) (hp : (s.pc p).active = true) :
    s.committing = false := by
  by_contra hc
  have hnil := h.quiet (by simpa using hc)
  have hmem := (h.mem p).2 hp
  rw [hnil] at hmem
  cases hmem

/-- The header counts each block once. -/
theorem LogInv.card_header (h : LogInv s ps) : (header s).toFinset.card = s.nblks := by
  rw [List.toFinset_card_of_nodup h.distinct, length_header]

theorem LogInv.nblks_le (h : LogInv s ps) : s.nblks ≤ LOGSIZE := by
  have hsub : (header s).toFinset.card ≤ (claimed s ps).card :=
    Finset.card_le_card Finset.subset_union_left
  rw [h.card_header] at hsub
  have := h.budget
  omega

/-- A block that an open transaction is about to add to the header fits in there. -/
theorem LogInv.nblks_lt (h : LogInv s ps) {b : Nat} (hp : s.pc p = .locking b)
    (hb : b ∉ header s) : s.nblks < LOGSIZE := by
  have hmem : p ∈ ps := (h.mem p).2 (by rw [hp]; rfl)
  have hpassed := h.locking p b hp
  have hsub : insert b (header s).toFinset ⊆ claimed s ps := by
    refine Finset.insert_subset ?_ Finset.subset_union_left
    refine Finset.mem_union_right _ (Finset.mem_biUnion.2 ⟨p, hmem, ?_⟩)
    exact List.mem_toFinset.2 hpassed
  have hcard := Finset.card_le_card hsub
  rw [Finset.card_insert_of_notMem (by simpa using hb), h.card_header] at hcard
  have := h.budget
  omega

/-- One process moves between places outside a transaction and outside a commit. -/
theorem LogInv.setPc_idle (h : LogInv s ps) {c : Pc} (hold : (s.pc p).active = false)
    (hc : c.active = false) (hcc : c.committing = false) : LogInv (setPc s p c) ps := by
  have hpc : ∀ q, q ≠ p → (setPc s p c).pc q = s.pc q := fun q hq => by simp [setPc, hq]
  have hsame : (setPc s p c).pc p = c := by simp [setPc]
  refine ⟨?_, h.occupiers, h.blocks, ?_, h.budget, h.quiet, ?_, ?_, h.distinct⟩
  · intro q
    by_cases hq : q = p
    · subst hq
      rw [hsame, hc, h.mem q, hold]
    · rw [hpc q hq]
      exact h.mem q
  · intro q b hq
    by_cases hqp : q = p
    · rw [hqp, hsame] at hq
      rw [hq] at hc
      cases hc
    · rw [hpc q hqp] at hq
      exact h.locking q b hq
  · intro q hq
    by_cases hqp : q = p
    · rw [hqp, hsame, hcc] at hq
      cases hq
    · rw [hpc q hqp] at hq
      exact h.committer q hq
  · intro q q' hq hq'
    by_cases hqp : q = p
    · rw [hqp, hsame, hcc] at hq
      cases hq
    · by_cases hqp' : q' = p
      · rw [hqp', hsame, hcc] at hq'
        cases hq'
      · rw [hpc q hqp] at hq
        rw [hpc q' hqp'] at hq'
        exact h.one q q' hq hq'

/-- `wakeup` moves processes inside `begin_transaction` only. -/
theorem LogInv.wakeup (h : LogInv s ps) : LogInv (Log.wakeup s) ps := by
  have hpc : ∀ q, (Log.wakeup s).pc q = s.pc q ∨
      (s.pc q = .waiting ∧ (Log.wakeup s).pc q = .begin) := by
    intro q
    simp only [Log.wakeup]
    split
    · rename_i hq
      exact .inr ⟨hq, rfl⟩
    · exact .inl rfl
  have hact : ∀ q, ((Log.wakeup s).pc q).active = (s.pc q).active := by
    intro q
    rcases hpc q with hq | ⟨hw, hq⟩
    · rw [hq]
    · rw [hq, hw]
      rfl
  have hcom : ∀ q, ((Log.wakeup s).pc q).committing = (s.pc q).committing := by
    intro q
    rcases hpc q with hq | ⟨hw, hq⟩
    · rw [hq]
    · rw [hq, hw]
      rfl
  refine ⟨?_, h.occupiers, h.blocks, ?_, h.budget, h.quiet, ?_, ?_, h.distinct⟩
  · intro q
    rw [hact]
    exact h.mem q
  · intro q b hq
    rcases hpc q with heq | ⟨_, heq⟩
    · exact h.locking q b (heq.symm.trans hq)
    · rw [heq] at hq
      cases hq
  · intro q hq
    rw [hcom] at hq
    exact h.committer q hq
  · intro q q' hq hq'
    rw [hcom] at hq hq'
    exact h.one q q' hq hq'

/-- What is claimed and what is spare is at most the header and a full reservation for each open
    transaction. -/
theorem LogInv.reserved_le (h : LogInv s ps) :
    (claimed s ps).card + ∑ q ∈ ps, spare s q ≤ s.nblks + ps.card * MAXOPBLOCKS := by
  have hunion : (claimed s ps).card ≤ s.nblks + ∑ q ∈ ps, (s.passed q).toFinset.card := by
    calc (claimed s ps).card
        ≤ (header s).toFinset.card + (ps.biUnion fun q => (s.passed q).toFinset).card :=
          Finset.card_union_le _ _
      _ ≤ s.nblks + ∑ q ∈ ps, (s.passed q).toFinset.card := by
          rw [h.card_header]
          exact Nat.add_le_add_left Finset.card_biUnion_le _
  have hsum : ∑ q ∈ ps, (s.passed q).toFinset.card + ∑ q ∈ ps, spare s q =
      ps.card * MAXOPBLOCKS := by
    rw [← Finset.sum_add_distrib, ← smul_eq_mul, ← Finset.sum_const]
    refine Finset.sum_congr rfl fun q hq => ?_
    have := h.blocks q hq
    unfold spare
    omega
  omega

/-- The open transactions of the others claim and spare the same. -/
theorem claimed_congr (hhdr : header s' = header s) (hpassed : ∀ q ∈ ps, s'.passed q = s.passed q) :
    claimed s' ps = claimed s ps := by
  unfold claimed
  rw [hhdr]
  congr 1
  exact Finset.biUnion_congr rfl fun q hq => by rw [hpassed q hq]

theorem sum_spare_congr (hpassed : ∀ q ∈ ps, s'.passed q = s.passed q) :
    ∑ q ∈ ps, spare s' q = ∑ q ∈ ps, spare s q :=
  Finset.sum_congr rfl fun q hq => by rw [spare, spare, hpassed q hq]

/-- `begin_transaction` lets a process in only if the log has room for all open transactions. -/
theorem LogInv.round (h : LogInv s ps) (hp : s.pc p = .begin) :
    ∃ ps', LogInv (Log.round s p) ps' ∧
      (s.committing = true → (Log.round s p).nOccupiers = s.nOccupiers) := by
  have hold : (s.pc p).active = false := by rw [hp]; rfl
  unfold Log.round
  split
  · exact ⟨ps, h.setPc_idle hold rfl rfl, fun _ => rfl⟩
  · rename_i hcom
    split
    · exact ⟨ps, h.setPc_idle hold rfl rfl, fun _ => rfl⟩
    · rename_i hroom
      have hnot : p ∉ ps := by
        rw [h.mem p, hold]
        simp
      have hne : ∀ q ∈ ps, q ≠ p := by
        rintro q hq rfl
        exact hnot hq
      have hcard : (insert p ps).card = ps.card + 1 := Finset.card_insert_of_notMem hnot
      refine ⟨insert p ps, ?_, fun hc => absurd hc hcom⟩
      refine ⟨?_, ?_, ?_, ?_, ?_, ?_, ?_, ?_, h.distinct⟩
      · intro q
        by_cases hq : q = p
        · subst hq
          simp [setPc, Pc.active]
        · simpa [setPc, hq] using h.mem q
      · have hocc := h.occupiers
        simp only [setPc, hcard]
        omega
      · intro q hq
        by_cases hqp : q = p
        · subst hqp
          simp [setPc]
        · simpa [setPc, hqp] using h.blocks q (Finset.mem_of_mem_insert_of_ne hq hqp)
      · intro q b hq
        by_cases hqp : q = p
        · subst hqp
          simp [setPc] at hq
        · simp only [setPc, Function.update_of_ne hqp] at hq ⊢
          exact h.locking q b hq
      · -- the test of `begin_transaction` covers the open transactions and the new one
        generalize hs' : setPc { s with
            nOccupiers := s.nOccupiers + 1
            passed := Function.update s.passed p [] } p .inTx = s'
        have hpassed : ∀ q ∈ ps, s'.passed q = s.passed q := by
          intro q hq
          rw [← hs']
          simp [setPc, hne q hq]
        have hp' : s'.passed p = [] := by
          rw [← hs']
          simp [setPc]
        have hhdr : header s' = header s := by
          rw [← hs']
          rfl
        have hclaim : claimed s' (insert p ps) = claimed s ps := by
          rw [← claimed_congr hhdr hpassed]
          simp [claimed, Finset.biUnion_insert, hp']
        rw [hclaim, Finset.sum_insert hnot, sum_spare_congr hpassed, spare, hp']
        have hres := h.reserved_le
        have hroom' : (s.nblks : Int) + (ps.card + 1) * MAXOPBLOCKS ≤ LOGSIZE := by
          rw [h.occupiers] at hroom
          exact Int.not_lt.1 hroom
        have hroom'' : s.nblks + (ps.card + 1) * MAXOPBLOCKS ≤ LOGSIZE := by exact_mod_cast hroom'
        rw [Nat.add_mul] at hroom''
        simp only [List.toFinset_nil, Finset.card_empty]
        omega
      · exact fun hc => absurd hc hcom
      · intro q hq
        by_cases hqp : q = p
        · subst hqp
          simp [setPc, Pc.committing] at hq
        · simp only [setPc, Function.update_of_ne hqp] at hq ⊢
          exact h.committer q hq
      · intro q q' hq hq'
        by_cases hqp : q = p
        · subst hqp
          simp [setPc, Pc.committing] at hq
        · simp only [setPc, Function.update_of_ne hqp] at hq
          exact absurd (h.committer q hq) hcom

/-- A process moves inside its transaction. -/
theorem LogInv.moveActive (h : LogInv s ps) (hp : (s.pc p).active = true)
    (hother : ∀ q, q ≠ p → s'.pc q = s.pc q) (hpassed : ∀ q, q ≠ p → s'.passed q = s.passed q)
    (hact : (s'.pc p).active = true) (hocc : s'.nOccupiers = s.nOccupiers)
    (hcom : s'.committing = s.committing)
    (hblocks : (s'.passed p).toFinset.card ≤ MAXOPBLOCKS)
    (hlock : ∀ b, s'.pc p = .locking b → b ∈ s'.passed p)
    (hbudget : (claimed s' ps).card + spare s' p ≤ (claimed s ps).card + spare s p)
    (hdistinct : (header s').Nodup) : LogInv s' ps := by
  have hmem := (h.mem p).2 hp
  have hnc := h.not_committing hp
  have hnot : ∀ q, (s'.pc q).committing ≠ true := by
    intro q hq
    by_cases hqp : q = p
    · rw [hqp] at hq
      cases hs : s'.pc p <;> rw [hs] at hq hact <;> simp [Pc.committing, Pc.active] at hq hact
    · rw [hother q hqp] at hq
      rw [h.committer q hq] at hnc
      cases hnc
  refine ⟨?_, hocc.trans h.occupiers, ?_, ?_, ?_, ?_, ?_, ?_, hdistinct⟩
  · intro q
    by_cases hqp : q = p
    · subst hqp
      exact ⟨fun _ => hact, fun _ => hmem⟩
    · rw [hother q hqp]
      exact h.mem q
  · intro q hq
    by_cases hqp : q = p
    · rw [hqp]
      exact hblocks
    · rw [hpassed q hqp]
      exact h.blocks q hq
  · intro q b hq
    by_cases hqp : q = p
    · rw [hqp] at hq ⊢
      exact hlock b hq
    · rw [hpassed q hqp]
      exact h.locking q b ((hother q hqp).symm.trans hq)
  · have hrest : ∑ q ∈ ps.erase p, spare s' q = ∑ q ∈ ps.erase p, spare s q :=
      sum_spare_congr fun q hq => hpassed q (Finset.ne_of_mem_erase hq)
    have hold := h.budget
    rw [← Finset.add_sum_erase ps _ hmem] at hold ⊢
    omega
  · intro hc
    rw [hcom, hnc] at hc
    cases hc
  · exact fun q hq => absurd hq (hnot q)
  · exact fun q q' hq => absurd hq (hnot q)

/-- A call of `log_write` turns a reserved block into a claimed one, unless the transaction has passed
    that block before. -/
theorem claim_le (hmem : p ∈ ps) {b : Nat} (hhdr : header s' = header s)
    (hpassed : s'.passed = Function.update s.passed p (b :: s.passed p))
    (hblocks : (b :: s.passed p).toFinset.card ≤ MAXOPBLOCKS) :
    (claimed s' ps).card + spare s' p ≤ (claimed s ps).card + spare s p := by
  have hpp : s'.passed p = b :: s.passed p := by rw [hpassed, Function.update_self]
  have hsub : claimed s' ps ⊆ insert b (claimed s ps) := by
    intro x hx
    rw [claimed, hhdr, Finset.mem_union, Finset.mem_biUnion] at hx
    rw [Finset.mem_insert, claimed, Finset.mem_union, Finset.mem_biUnion]
    rcases hx with hx | ⟨q, hq, hx⟩
    · exact .inr (.inl hx)
    · by_cases hqp : q = p
      · rw [hqp, hpp, List.toFinset_cons, Finset.mem_insert] at hx
        rcases hx with hx | hx
        · exact .inl hx
        · exact .inr (.inr ⟨p, hmem, hx⟩)
      · rw [hpassed, Function.update_of_ne hqp] at hx
        exact .inr (.inr ⟨q, hq, hx⟩)
  have hcard := Finset.card_le_card hsub
  rw [List.toFinset_cons] at hblocks
  by_cases hb : b ∈ s.passed p
  · have hin : b ∈ claimed s ps := by
      refine Finset.mem_union_right _ (Finset.mem_biUnion.2 ⟨p, hmem, ?_⟩)
      exact List.mem_toFinset.2 hb
    rw [Finset.insert_eq_of_mem hin] at hcard
    have hsame : (b :: s.passed p).toFinset = (s.passed p).toFinset := by
      rw [List.toFinset_cons, Finset.insert_eq_of_mem (List.mem_toFinset.2 hb)]
    rw [spare, spare, hpp, hsame]
    omega
  · have hone := (hcard.trans (Finset.card_insert_le _ _))
    have hnew : (insert b (s.passed p).toFinset).card = (s.passed p).toFinset.card + 1 :=
      Finset.card_insert_of_notMem (by simpa using hb)
    rw [spare, spare, hpp, List.toFinset_cons]
    omega

theorem LogInv.logWrite (h : LogInv s ps) (hp : s.pc p = .inTx) (b : Nat)
    (hblocks : (b :: s.passed p).toFinset.card ≤ MAXOPBLOCKS) :
    LogInv (Log.logWrite s p b) ps := by
  have hact : (s.pc p).active = true := by rw [hp]; rfl
  have hmem := (h.mem p).2 hact
  unfold Log.logWrite
  dsimp only
  split
  · refine h.moveActive hact (fun _ _ => rfl) (fun q hq => by simp [hq]) hact rfl rfl ?_ ?_
      (claim_le hmem rfl rfl hblocks) h.distinct
    · simpa using hblocks
    · intro b' hb'
      rw [hp] at hb'
      cases hb'
  · refine h.moveActive hact (fun q hq => by simp [setPc, hq]) (fun q hq => by simp [setPc, hq]) ?_
      rfl rfl ?_ ?_ (claim_le hmem rfl rfl hblocks) h.distinct
    · simp [setPc, Pc.active]
    · simpa [setPc] using hblocks
    · intro b' hb'
      simp only [setPc, Function.update_self, Pc.locking.injEq] at hb'
      simp [setPc, hb']

/-- The place that `log_write` finds: the block's own, or behind the last one. -/
theorem findBlk_spec (s : LogSys) (b : Nat) :
    (findBlk s b < s.nblks ∧ s.blksNo (findBlk s b) = b) ∨
      (findBlk s b = s.nblks ∧ ∀ i < s.nblks, s.blksNo i ≠ b) := by
  unfold findBlk
  cases hf : (List.range s.nblks).find? fun i => decide (s.blksNo i = b) with
  | none =>
    refine .inr ⟨rfl, fun i hi => ?_⟩
    have := List.find?_eq_none.1 hf i (List.mem_range.2 hi)
    simpa using this
  | some i =>
    refine .inl ⟨List.mem_range.1 (List.mem_of_find?_eq_some hf), ?_⟩
    simpa using List.find?_some hf

/-- `log_write` adds the block to the header, unless it is there already. -/
theorem append_spec (p b : Nat) (hnew : b ∉ header s → s.nblks < LOGSIZE)
    (hle : s.nblks ≤ LOGSIZE) :
    ∃ s', Log.append s p b = .ok s' ∧ s'.pc = Function.update s.pc p .inTx ∧ s'.passed = s.passed ∧
      s'.nOccupiers = s.nOccupiers ∧ s'.committing = s.committing ∧ s'.size = s.size ∧
      s'.logged = b :: s.logged ∧
      (header s' = header s ∧ b ∈ header s ∨ header s' = header s ++ [b] ∧ b ∉ header s) := by
  rcases findBlk_spec s b with ⟨hi, hb⟩ | ⟨hi, hall⟩
  · have hne : findBlk s b ≠ s.nblks := by omega
    refine ⟨_, if_neg (show ¬ LOGSIZE ≤ findBlk s b by omega), rfl, rfl, rfl, rfl, rfl, rfl,
      .inl ⟨?_, ?_⟩⟩
    · have hsame : Function.update s.blksNo (findBlk s b) b = s.blksNo :=
        Function.update_eq_self_iff.2 hb.symm
      simp only [header, setPc, hne, if_false, Nat.add_zero, hsame]
    · exact List.mem_map.2 ⟨_, List.mem_range.2 hi, hb⟩
  · have hnot : b ∉ header s := by
      intro hmem
      obtain ⟨i, hi', heq⟩ := List.mem_map.1 hmem
      exact hall i (List.mem_range.1 hi') heq
    have hlt := hnew hnot
    refine ⟨_, if_neg (show ¬ LOGSIZE ≤ findBlk s b by omega), rfl, rfl, rfl, rfl, rfl, rfl,
      .inr ⟨?_, hnot⟩⟩
    simp only [header, setPc, hi, if_true, List.range_succ, List.map_append, List.map_cons,
      List.map_nil, Function.update_self]
    congr 1
    refine List.map_congr_left fun i hi' => ?_
    rw [Function.update_of_ne (Nat.ne_of_lt (List.mem_range.1 hi'))]

theorem LogInv.append (h : LogInv s ps) {b : Nat} (hp : s.pc p = .locking b) :
    ∃ s', Log.append s p b = .ok s' ∧ LogInv s' ps ∧ s'.size = s.size ∧ s'.logged = b :: s.logged ∧
      (header s').toFinset = insert b (header s).toFinset := by
  have hact : (s.pc p).active = true := by rw [hp]; rfl
  have hmem := (h.mem p).2 hact
  obtain ⟨s', hok, hpc, hpassed, hocc, hcom, hsize, hlogged, hhdr⟩ :=
    append_spec p b (fun hb => h.nblks_lt hp hb) h.nblks_le
  have hpp : s'.pc p = .inTx := by rw [hpc, Function.update_self]
  have hset : (header s').toFinset = insert b (header s).toFinset := by
    rcases hhdr with ⟨heq, hb⟩ | ⟨heq, _⟩
    · rw [heq, Finset.insert_eq_of_mem (List.mem_toFinset.2 hb)]
    · rw [heq, List.toFinset_append, Finset.insert_eq, Finset.union_comm]
      rfl
  have hclaim : claimed s' ps = claimed s ps := by
    have hb : b ∈ claimed s ps := by
      refine Finset.mem_union_right _ (Finset.mem_biUnion.2 ⟨p, hmem, ?_⟩)
      exact List.mem_toFinset.2 (h.locking p b hp)
    rw [claimed, hset, hpassed, Finset.insert_union]
    exact Finset.insert_eq_of_mem hb
  refine ⟨s', hok, ?_, hsize, hlogged, hset⟩
  apply h.moveActive hact
  · intro q hq
    rw [hpc, Function.update_of_ne hq]
  · intro q _
    rw [hpassed]
  · rw [hpp]
    rfl
  · exact hocc
  · exact hcom
  · rw [hpassed]
    exact h.blocks p hmem
  · intro b' hb'
    rw [hpp] at hb'
    cases hb'
  · rw [hclaim, spare, spare, hpassed]
  · rcases hhdr with ⟨heq, _⟩ | ⟨heq, hnot⟩
    · rw [heq]
      exact h.distinct
    · rw [heq, List.nodup_append_comm]
      exact List.nodup_cons.2 ⟨hnot, h.distinct⟩

/-- A process leaves its transaction; `cm` says whether it goes on to commit. -/
theorem LogInv.leave (h : LogInv s ps) (hp : s.pc p = .inTx) {c : Pc} {cm : Bool}
    (hc : c.active = false) (hquiet : cm = true → ps.erase p = ∅)
    (hcm : c.committing = true → cm = true) :
    LogInv (setPc { s with nOccupiers := s.nOccupiers - 1, committing := cm } p c) (ps.erase p) := by
  have hact : (s.pc p).active = true := by rw [hp]; rfl
  have hmem := (h.mem p).2 hact
  have hnc := h.not_committing hact
  have hnot : ∀ q, (s.pc q).committing ≠ true := by
    intro q hq
    rw [h.committer q hq] at hnc
    cases hnc
  generalize hs' : setPc { s with nOccupiers := s.nOccupiers - 1, committing := cm } p c = s'
  have hpcs : ∀ q, q ≠ p → s'.pc q = s.pc q := by
    intro q hq
    rw [← hs']
    simp [setPc, hq]
  have hpcp : s'.pc p = c := by
    rw [← hs']
    simp [setPc]
  have hpassed : s'.passed = s.passed := by
    rw [← hs']
    rfl
  have hhdr : header s' = header s := by
    rw [← hs']
    rfl
  refine ⟨?_, ?_, ?_, ?_, ?_, ?_, ?_, ?_, ?_⟩
  · intro q
    rw [Finset.mem_erase]
    by_cases hq : q = p
    · subst hq
      rw [hpcp, hc]
      simp
    · rw [hpcs q hq, h.mem q]
      simp [hq]
  · have hocc := h.occupiers
    have hcard := Finset.card_erase_add_one hmem
    have hnew : s'.nOccupiers = s.nOccupiers - 1 := by
      rw [← hs']
      rfl
    omega
  · intro q hq
    rw [hpassed]
    exact h.blocks q (Finset.mem_of_mem_erase hq)
  · intro q b hq
    by_cases hqp : q = p
    · rw [hqp, hpcp] at hq
      rw [hq] at hc
      cases hc
    · rw [hpcs q hqp] at hq
      rw [hpassed]
      exact h.locking q b hq
  · have hclaim : claimed s' (ps.erase p) ⊆ claimed s ps := by
      rw [claimed_congr hhdr fun q _ => by rw [hpassed]]
      exact Finset.union_subset_union_right
        (Finset.biUnion_subset_biUnion_of_subset_left _ (Finset.erase_subset p ps))
    have hcard := Finset.card_le_card hclaim
    have hold := h.budget
    rw [← Finset.add_sum_erase ps _ hmem] at hold
    rw [sum_spare_congr (s := s) fun q _ => by rw [hpassed]]
    omega
  · intro hc'
    rw [← hs'] at hc'
    exact hquiet hc'
  · intro q hq
    by_cases hqp : q = p
    · rw [hqp, hpcp] at hq
      rw [← hs']
      exact hcm hq
    · rw [hpcs q hqp] at hq
      exact absurd hq (hnot q)
  · intro q q' hq hq'
    by_cases hqp : q = p
    · by_cases hqp' : q' = p
      · rw [hqp, hqp']
      · rw [hpcs q' hqp'] at hq'
        exact absurd hq' (hnot q')
    · rw [hpcs q hqp] at hq
      exact absurd hq (hnot q)
  · rw [hhdr]
    exact h.distinct

/-- The last process to leave commits. -/
theorem LogInv.endTransaction (h : LogInv s ps) (hp : s.pc p = .inTx) :
    ∃ s' ps', Log.endTransaction s p = .ok s' ∧ LogInv s' ps' ∧ s'.size = s.size ∧
      s'.logged = s.logged ∧ header s' = header s := by
  have hact : (s.pc p).active = true := by rw [hp]; rfl
  have hmem := (h.mem p).2 hact
  have hnc := h.not_committing hact
  unfold Log.endTransaction
  dsimp only
  rw [if_neg (by simp [hnc])]
  split
  · rename_i hzero
    refine ⟨_, ps.erase p, rfl, h.leave hp rfl (fun _ => ?_) (fun _ => rfl), rfl, rfl, rfl⟩
    have hocc := h.occupiers
    have hcard := Finset.card_erase_add_one hmem
    exact Finset.card_eq_zero.1 (by omega)
  · refine ⟨_, ps.erase p, rfl, LogInv.wakeup ?_, rfl, rfl, rfl⟩
    have hleft := h.leave hp (c := .out) rfl (fun hf : false = true => by cases hf)
      (fun hf => by cases hf)
    rwa [← hnc] at hleft

/-- `commit` empties the log; nobody is in a transaction then. -/
theorem LogInv.commit (h : LogInv s ps) (hp : s.pc p = .commit) :
    LogInv (Log.commit s p) ps ∧ header (Log.commit s p) = [] ∧ (Log.commit s p).logged = [] ∧
      (Log.commit s p).size = s.size := by
  have hc : s.committing = true := h.committer p (by rw [hp]; rfl)
  have hnil := h.quiet hc
  subst hnil
  have hs' : Log.commit s p = setPc { s with nblks := 0, logged := [] } p .committed := by
    unfold Log.commit
    split
    · rfl
    · rename_i h0
      rw [Nat.eq_zero_of_not_pos h0]
  have hhdr : header (Log.commit s p) = [] := by
    rw [hs']
    rfl
  have hcm : ∀ q, ((Log.commit s p).pc q).committing = (s.pc q).committing := by
    intro q
    rw [hs']
    by_cases hq : q = p
    · subst hq
      simp [setPc, hp, Pc.committing]
    · simp [setPc, hq]
  refine ⟨⟨?_, ?_, ?_, ?_, ?_, fun _ => rfl, ?_, ?_, ?_⟩, hhdr, ?_, ?_⟩
  · intro q
    rw [hs']
    by_cases hq : q = p
    · subst hq
      simp [setPc, Pc.active]
    · simpa [setPc, hq] using h.mem q
  · rw [hs']
    exact h.occupiers
  · intro q hq
    cases hq
  · intro q b hq
    rw [hs'] at hq
    by_cases hqp : q = p
    · subst hqp
      simp [setPc] at hq
    · simp only [setPc, Function.update_of_ne hqp] at hq
      have := (h.mem q).2 (by rw [hq]; rfl)
      cases this
  · rw [claimed, hhdr]
    exact Nat.zero_le _
  · intro q _
    rw [hs']
    exact hc
  · intro q q' hq hq'
    rw [hcm] at hq hq'
    exact h.one q q' hq hq'
  · rw [hhdr]
    exact List.nodup_nil
  · rw [hs']
    rfl
  · rw [hs']
    rfl

theorem LogInv.finish (h : LogInv s ps) (hp : s.pc p = .committed) :
    LogInv (Log.finish s p) ps := by
  have hc : s.committing = true := h.committer p (by rw [hp]; rfl)
  have hnil := h.quiet hc
  subst hnil
  have hnone : ∀ q, q ≠ p → (s.pc q).committing ≠ true := fun q hq hcq =>
    hq (h.one q p hcq (by rw [hp]; rfl))
  have hnot : ∀ q, ((setPc { s with committing := false } p .out).pc q).committing ≠ true := by
    intro q hq
    by_cases hqp : q = p
    · subst hqp
      simp [setPc, Pc.committing] at hq
    · simp only [setPc, Function.update_of_ne hqp] at hq
      exact hnone q hqp hq
  refine LogInv.wakeup ⟨?_, h.occupiers, ?_, ?_, h.budget, ?_, ?_, ?_, h.distinct⟩
  · intro q
    by_cases hq : q = p
    · subst hq
      simp [setPc, Pc.active]
    · simpa [setPc, hq] using h.mem q
  · intro q hq
    cases hq
  · intro q b hq
    by_cases hqp : q = p
    · subst hqp
      simp [setPc] at hq
    · simp only [setPc, Function.update_of_ne hqp] at hq
      have := (h.mem q).2 (by rw [hq]; rfl)
      cases this
  · intro hf
    cases hf
  · exact fun q hq => absurd hq (hnot q)
  · exact fun q q' hq => absurd hq (hnot q)

end Steps

/-! ## §3 Safety -/

/-- What holds between steps. -/
structure LogOk (s : LogSys) : Prop where
  commit : ∀ p, s.pc p = .commit → s.nOccupiers = 0 ∧ s.committing = true
  nblks : s.nblks ≤ LOGSIZE
  distinct : (header s).Nodup

/-- While `committing` is set no process enters a transaction, and none is in `log_write`. -/
structure StepOk (s : LogSys) (o : Op) (s' : LogSys) : Prop where
  ok : LogOk s'
  noBegin : s.committing = true → s'.nOccupiers = s.nOccupiers
  noLogWrite : s.committing = true → ∀ p b, o ≠ .logWrite p b ∧ o ≠ .append p

theorem LogInv.logOk {s : LogSys} {ps : Finset Nat} (h : LogInv s ps) : LogOk s := by
  refine ⟨fun p hp => ?_, h.nblks_le, h.distinct⟩
  have hc := h.committer p (by rw [hp]; rfl)
  have hocc := h.occupiers
  rw [h.quiet hc] at hocc
  exact ⟨hocc, hc⟩

/-- The invariant of the whole system: the header lists what was logged since the last commit. -/
structure SysInv (size : Int) (s : LogSys) : Prop where
  inv : ∃ ps, LogInv s ps
  size : s.size = size
  logged : (header s).toFinset = s.logged.toFinset

theorem logInit_sysInv (size : Int) : SysInv size (logInit size) :=
  ⟨⟨∅, logInit_inv size⟩, rfl, rfl⟩

/-- **One step** of any process. -/
theorem step_ok (size : Int) (s : LogSys) (o : Op) (h : SysInv size s)
    (ho : InOrder s o ∧ FewBlocks s o) :
    ∃ s', step s o = .ok s' ∧ StepOk s o s' ∧ SysInv size s' := by
  obtain ⟨⟨ps, h⟩, hsize, hlogged⟩ := h
  obtain ⟨hord, hblocks⟩ := ho
  cases o with
  | beginTransaction p =>
    have hp : s.pc p = .out := hord
    have h' : LogInv (setPc s p .begin) ps := h.setPc_idle (by rw [hp]; rfl) rfl rfl
    exact ⟨_, rfl, ⟨h'.logOk, fun _ => rfl, by simp⟩, ⟨ps, h'⟩, hsize, hlogged⟩
  | round p =>
    obtain ⟨ps', h', hsame⟩ := h.round hord
    refine ⟨_, rfl, ⟨h'.logOk, hsame, by simp⟩, ⟨ps', h'⟩, ?_, ?_⟩
    · rw [round_size]
      exact hsize
    · rw [round_header, round_logged]
      exact hlogged
  | logWrite p b =>
    have hp : s.pc p = .inTx := hord
    have hnc := h.not_committing (p := p) (by rw [hp]; rfl)
    have h' := h.logWrite hp b hblocks
    refine ⟨_, rfl, ⟨h'.logOk, fun hc => ?_, fun hc => ?_⟩, ⟨ps, h'⟩, ?_, ?_⟩
    · rw [hnc] at hc
      cases hc
    · rw [hnc] at hc
      cases hc
    · rw [logWrite_size]
      exact hsize
    · rw [logWrite_header, logWrite_logged]
      exact hlogged
  | append p =>
    obtain ⟨b, hp⟩ := hord
    have hnc := h.not_committing (p := p) (by rw [hp]; rfl)
    obtain ⟨s', hok, h', hsize', hlogged', hset⟩ := h.append hp
    refine ⟨s', by simp only [step, hp, hok], ⟨h'.logOk, fun hc => ?_, fun hc => ?_⟩, ⟨ps, h'⟩,
      hsize'.trans hsize, ?_⟩
    · rw [hnc] at hc
      cases hc
    · rw [hnc] at hc
      cases hc
    · rw [hset, hlogged', hlogged, List.toFinset_cons]
  | endTransaction p =>
    have hp : s.pc p = .inTx := hord
    have hnc := h.not_committing (p := p) (by rw [hp]; rfl)
    obtain ⟨s', ps', hok, h', hsize', hlogged', hhdr⟩ := h.endTransaction hp
    refine ⟨s', hok, ⟨h'.logOk, fun hc => ?_, by simp⟩, ⟨ps', h'⟩, hsize'.trans hsize, ?_⟩
    · rw [hnc] at hc
      cases hc
    · rw [hhdr, hlogged', hlogged]
  | commit p =>
    obtain ⟨h', hhdr, hlogged', hsize'⟩ := h.commit hord
    refine ⟨_, rfl, ⟨h'.logOk, fun _ => ?_, by simp⟩, ⟨ps, h'⟩, hsize'.trans hsize, ?_⟩
    · unfold commit setPc
      split <;> rfl
    · rw [hhdr, hlogged']
  | finish p =>
    have h' := h.finish hord
    exact ⟨_, rfl, ⟨h'.logOk, fun _ => rfl, by simp⟩, ⟨ps, h'⟩, hsize, hlogged⟩

/-- **Safety of the log protocol**: any number of processes run transactions of at most `MAXOPBLOCKS`
    calls of `log_write` each, in any interleaving, on a log of any size. Then `end_transaction` never
    panics and `blks_no` is only written inside its bounds; a commit runs only without occupiers;
    while it runs no transaction is entered and no `log_write` is under way; and the header lists at
    most `LOGSIZE` blocks, none of them twice. -/
theorem logOk_of_run (size : Int) (ops : List Op)
    (hops : Meets step (fun s o => InOrder s o ∧ FewCalls s o) (logInit size) ops) :
    Along step StepOk (logInit size) ops := by
  refine along_of_meets (SysInv size) (fun s o h ho => ?_) (logInit_sysInv size) hops
  exact step_ok size s o h ⟨ho.1, ho.2.fewBlocks⟩

instance (s : LogSys) : (o : Op) → Decidable (InOrder s o)
  | .beginTransaction p => inferInstanceAs (Decidable (s.pc p = .out))
  | .round p => inferInstanceAs (Decidable (s.pc p = .begin))
  | .logWrite p _ => inferInstanceAs (Decidable (s.pc p = .inTx))
  | .append p => decidable_of_iff ((s.pc p).isLocking = true) (Pc.isLocking_iff _)
  | .endTransaction p => inferInstanceAs (Decidable (s.pc p = .inTx))
  | .commit p => inferInstanceAs (Decidable (s.pc p = .commit))
  | .finish p => inferInstanceAs (Decidable (s.pc p = .committed))

instance (s : LogSys) : (o : Op) → Decidable (FewCalls s o)
  | .logWrite p _ => inferInstanceAs (Decidable ((s.passed p).length < MAXOPBLOCKS))
  | .beginTransaction _ | .round _ | .append _ | .endTransaction _ | .commit _ | .finish _ =>
    isTrue trivial

instance (s : LogSys) : (o : Op) → Decidable (FewBlocks s o)
  | .logWrite p b => inferInstanceAs (Decidable ((b :: s.passed p).toFinset.card ≤ MAXOPBLOCKS))
  | .beginTransaction _ | .round _ | .append _ | .endTransaction _ | .commit _ | .finish _ =>
    isTrue trivial

/-- Two transactions at once: they log block 7 both, and the second to end commits. -/
def twoTransactions : List Op :=
  [.beginTransaction 1, .round 1, .beginTransaction 2, .round 2, .logWrite 1 7, .logWrite 2 7,
    .append 2, .append 1, .endTransaction 1, .beginTransaction 3, .round 3, .logWrite 3 8,
    .append 3, .endTransaction 2, .endTransaction 3, .beginTransaction 1, .round 1, .commit 3,
    .finish 3, .round 1]

theorem logOk_of_twoTransactions :
    Meets step (fun s o => InOrder s o ∧ FewCalls s o) (logInit LOGSIZE) twoTransactions ∧
      Along step StepOk (logInit LOGSIZE) twoTransactions := by
  have hops : Meets step (fun s o => InOrder s o ∧ FewCalls s o) (logInit LOGSIZE)
      twoTransactions := by decide +kernel
  exact ⟨hops, logOk_of_run LOGSIZE twoTransactions hops⟩

/-! ## §4 Refused writes -/

/-- A `log_write` gets past its checks; otherwise it returns -1 and the block is not logged. -/
def NotRefused (_ : LogSys) (o : Op) (s' : LogSys) : Prop :=
  match o with
  | .logWrite p blockno => s'.pc p = .locking blockno
  | _ => True

/-- At a call of `log_write`, fewer than `LOGSIZE - 1` different blocks were logged since the last
    commit. -/
def Room (s : LogSys) : Op → Prop
  | .logWrite _ _ => s.logged.toFinset.card < LOGSIZE - 1
  | _ => True

/-- On the log that `mkfs` makes, `log_write` refuses when the header is one block short of full,
    whether or not the block is in it. -/
theorem refuses_iff {s : LogSys} {p : Nat} (h : SysInv LOGSIZE s) (hp : s.pc p = .inTx) :
    refuses s = true ↔ LOGSIZE - 1 ≤ s.logged.toFinset.card := by
  obtain ⟨⟨ps, hinv⟩, hsize, hlogged⟩ := h
  have hmem : p ∈ ps := (hinv.mem p).2 (by rw [hp]; rfl)
  have hpos : 0 < ps.card := Finset.card_pos.2 ⟨p, hmem⟩
  have hocc := hinv.occupiers
  have hcard := hinv.card_header
  rw [hlogged] at hcard
  have hlog : LOGSIZE = 120 := rfl
  simp only [refuses, Bool.or_eq_true, decide_eq_true_eq, hsize, hcard]
  omega

theorem notRefused_logWrite_iff {s : LogSys} {p b : Nat} (h : SysInv LOGSIZE s)
    (hp : s.pc p = .inTx) :
    NotRefused s (.logWrite p b) (logWrite s p b) ↔ Room s (.logWrite p b) := by
  have hrefuses := refuses_iff h hp
  show (logWrite s p b).pc p = .locking b ↔ s.logged.toFinset.card < LOGSIZE - 1
  unfold logWrite
  dsimp only
  split
  · rename_i hr
    have hfull := hrefuses.1 hr
    refine ⟨fun hl => ?_, fun hlt => absurd hfull (Nat.not_le.2 hlt)⟩
    have : s.pc p = .locking b := hl
    rw [hp] at this
    cases this
  · rename_i hr
    refine ⟨fun _ => ?_, fun _ => by simp [setPc]⟩
    by_contra hfull
    exact hr (hrefuses.2 (Nat.not_lt.1 hfull))

/-- **When a reserved write is refused**: on the log that `mkfs` makes, in any interleaving of
    processes whose transactions pass at most `MAXOPBLOCKS` distinct blocks to `log_write`, no call of
    `log_write` is refused exactly when each one finds fewer than `LOGSIZE - 1` different blocks
    logged since the last commit. -/
theorem neverRefused_iff (ops : List Op)
    (hops : Meets step (fun s o => InOrder s o ∧ FewBlocks s o) (logInit LOGSIZE) ops) :
    Along step NotRefused (logInit LOGSIZE) ops ↔ Meets step Room (logInit LOGSIZE) ops := by
  refine along_iff_meets (SysInv LOGSIZE) (fun s o h hV hC => ?_) (fun s o s' h hV hC hok => ?_)
    (logInit_sysInv LOGSIZE) hops
  · obtain ⟨s', hok, _, h'⟩ := step_ok LOGSIZE s o h hV
    refine ⟨s', hok, ?_, h'⟩
    cases o with
    | logWrite p b =>
      obtain rfl : logWrite s p b = s' := Except.ok.inj hok
      exact (notRefused_logWrite_iff h hV.1).2 hC
    | beginTransaction | round | append | endTransaction | commit | finish => trivial
  · cases o with
    | logWrite p b =>
      obtain rfl : logWrite s p b = s' := Except.ok.inj hok
      exact fun hQ => hC ((notRefused_logWrite_iff h hV.1).1 hQ)
    | beginTransaction | round | append | endTransaction | commit | finish => exact absurd trivial hC

instance (s : LogSys) : (o : Op) → Decidable (Room s o)
  | .logWrite _ _ => inferInstanceAs (Decidable (s.logged.toFinset.card < LOGSIZE - 1))
  | .beginTransaction _ | .round _ | .append _ | .endTransaction _ | .commit _ | .finish _ =>
    isTrue trivial

theorem neverRefused_twoTransactions :
    Meets step (fun s o => InOrder s o ∧ FewBlocks s o) (logInit LOGSIZE) twoTransactions ∧
      Along step NotRefused (logInit LOGSIZE) twoTransactions := by
  have hops : Meets step (fun s o => InOrder s o ∧ FewBlocks s o) (logInit LOGSIZE)
      twoTransactions := by decide +kernel
  exact ⟨hops, (neverRefused_iff twoTransactions hops).2 (by decide +kernel)⟩

/-- Process `p` logs the `n` blocks from `b` on. -/
def logBlocks (p b n : Nat) : List Op :=
  (List.range n).flatMap fun i => [.logWrite p (b + i), .append p]

/-- Three transactions of `MAXOPBLOCKS` distinct blocks each, all open at once. The last block of the
    third is still to be logged. -/
def threeTransactions : List Op :=
  [.beginTransaction 1, .round 1, .beginTransaction 2, .round 2, .beginTransaction 3, .round 3] ++
    logBlocks 1 1000 MAXOPBLOCKS ++ logBlocks 2 2000 MAXOPBLOCKS ++ logBlocks 3 3000 (MAXOPBLOCKS - 1)

/-- The last block of the third transaction is refused. -/
theorem third_transaction_refused :
    Meets step (fun s o => InOrder s o ∧ FewBlocks s o) (logInit LOGSIZE)
        (threeTransactions ++ [.logWrite 3 3039]) ∧
      ¬ Along step NotRefused (logInit LOGSIZE) (threeTransactions ++ [.logWrite 3 3039]) := by
  refine ⟨by decide +kernel, fun hall => ?_⟩
  obtain ⟨t, t', hrun, hkept⟩ := hall.last
  have hpc : ((threeTransactions ++ [Op.logWrite 3 3039]).foldlM step
      (logInit LOGSIZE)).toOption.map (fun s => s.pc 3) = some Pc.inTx := by decide +kernel
  have hin : t'.pc 3 = .inTx := by
    rw [hrun] at hpc
    exact Option.some.inj hpc
  have hlock : t'.pc 3 = .locking 3039 := hkept
  rw [hin] at hlock
  cases hlock

end WeiOS.Log
