import Mathlib
import WeiOS.Lib.Crash
import WeiOS.Fs.Commit

/-!
# The Disk Writes of a Transaction

A transaction reads blocks with `bread`, changes some of them, passes these to `log_write` and gives them
back with `brelse`; the `end_transaction` that leaves nobody inside calls `commit`. Here each call of `bread`,
`bwrite` and `bwrite_dozens` records the disk before and after it. What `begin_transaction` and `end_transaction`
do besides, the count of the occupiers and the waiting, touches neither the cache nor the disk.

## Main results
- `commit_traces`: the recorded commit is `commit`.
-/

namespace WeiOS.Crash

open WeiOS.Lib Ide Bio
open WeiOS.Recovery (Block Disk LogHeader headerOf)
open WeiOS.Commit (Config Sys Wait M InArea)

/-! ## §1 Recorded calls -/

abbrev T := StateT (Traced Sys Nat Block) (Except Wait)

def io {α : Type} (m : M α) : T α := traced Sys.disk m

def quiet {α : Type} (m : M α) : T α := untraced m

/-! ## §2 The commit -/

/-- The loops over the logged blocks. -/
def forBlocks (turn : Nat → T Nat) : Nat → T (List Nat)
  | 0 => return []
  | i + 1 => do
    let bufArray ← forBlocks turn i
    let b ← turn i
    return bufArray ++ [b]

/-- What a turn of `write_log_blk` does with its two buffers. -/
def copyData (i toBuf fromBuf : Nat) : M Nat := do
  let t ← get
  Commit.setData toBuf (t.buf fromBuf).data
  Commit.brelse fromBuf
  modify fun t => { t with bufPtrs := Function.update t.bufPtrs i (t.buf toBuf).data }
  return toBuf

def copyToLog (cfg : Config) (i : Nat) : T Nat := do
  let s ← quiet get
  let toBuf ← io (Commit.bread cfg (cfg.start + i + 1))
  let fromBuf ← io (Commit.bread cfg (s.lheader.home i))
  quiet (copyData i toBuf fromBuf)

def writeLogBlk (cfg : Config) : T Unit := do
  let s ← quiet get
  let bufArray ← forBlocks (copyToLog cfg) s.lheader.count
  io (Commit.bwriteDozens cfg bufArray)
  quiet (Commit.brelseDozens bufArray)

def writeLogHeader (cfg : Config) : T Unit := do
  let s ← quiet get
  let buf ← io (Commit.bread cfg cfg.start)
  let t ← quiet get
  quiet (Commit.setData buf (Commit.putHeader s.lheader (t.buf buf).data))
  io (Commit.bwrite cfg buf)
  quiet (Commit.brelse buf)

def copyHome (cfg : Config) (i : Nat) : T Nat := do
  let s ← quiet get
  let b ← io (Commit.bread cfg (s.lheader.home i))
  quiet (Commit.setData b (s.bufPtrs i))
  return b

def keepConsistentOnDisk (cfg : Config) : T Unit := do
  let s ← quiet get
  if s.lheader.nblks = 0 then return
  else
    let bufArray ← forBlocks (copyHome cfg) s.lheader.count
    io (Commit.bwriteDozens cfg bufArray)
    quiet (Commit.brelseDozens bufArray)

def commit (cfg : Config) : T Unit := do
  let s ← quiet get
  if 0 < s.lheader.nblks.toInt then
    writeLogBlk cfg
    writeLogHeader cfg
    keepConsistentOnDisk cfg
    quiet (modify fun t => { t with lheader := { t.lheader with nblks := 0 } })
    writeLogHeader cfg

/-! ## §3 The transaction -/

/-- The place of a block in the log header, the loop of `log_write`. -/
def findBlk (lh : LogHeader) (blockno : Nat) : Nat :=
  ((List.range lh.count).find? fun i => decide (lh.blksNo i = BitVec.ofNat 32 blockno)).getD lh.count

/-- The log header after `log_write` of a block. -/
def append (lh : LogHeader) (blockno : Nat) : LogHeader where
  nblks := lh.nblks + if findBlk lh blockno = lh.count then 1 else 0
  blksNo := Function.update lh.blksNo (findBlk lh blockno) (BitVec.ofNat 32 blockno)

/-- `log_write` of a process that is inside a transaction, so that `n_occupiers` is positive. -/
def logWrite (cfg : Config) (b : Nat) : M Int := do
  let s ← get
  if (Log.LOGSIZE : Int) ≤ s.lheader.nblks.toInt ∨ (cfg.size : Int) - 1 ≤ s.lheader.nblks.toInt then
    return -1
  else
    set { s with lheader := append s.lheader (s.buf b).blockno, cache := markDirty s.cache b }
    return 0

/-- What a transaction does with a block: it reads it, or it also gives it new data and passes it to
    `log_write`. -/
inductive Access where
  | read (blkno : Nat)
  | write (blkno : Nat) (data : Block)

def Access.run (cfg : Config) : Access → T Unit
  | .read blkno => do
    let b ← io (Commit.bread cfg blkno)
    quiet (Commit.brelse b)
  | .write blkno data => do
    let b ← io (Commit.bread cfg blkno)
    quiet (Commit.setData b data)
    let _ ← quiet (logWrite cfg b)
    quiet (Commit.brelse b)

theorem Access.run_read (cfg : Config) (blkno : Nat) : (Access.read blkno).run cfg =
    (io (Commit.bread cfg blkno) >>= fun b => quiet (Commit.brelse b)) := rfl

theorem Access.run_write (cfg : Config) (blkno : Nat) (data : Block) :
    (Access.write blkno data).run cfg =
      (io (Commit.bread cfg blkno) >>= fun b => quiet (Commit.setData b data) >>= fun _ =>
        quiet (logWrite cfg b) >>= fun _ => quiet (Commit.brelse b)) := rfl

/-- A transaction and the commit at its end. -/
def transaction (cfg : Config) (accesses : List Access) : T Unit := do
  accesses.forM (Access.run cfg)
  commit cfg

/-- The blocks that a transaction passes to `log_write`, with their new contents. -/
def passed : List Access → List (Nat × Block)
  | [] => []
  | .read _ :: accesses => passed accesses
  | .write blkno data :: accesses => (blkno, data) :: passed accesses

/-! ## §4 Recording changes nothing -/

variable {cfg : Config}

theorem forBlocks_traces {turn : Nat → T Nat} {turn' : Nat → M Nat} (h : ∀ i, Traces (turn i) (turn' i))
    (n : Nat) : Traces (forBlocks turn n) (Commit.forBlocks turn' n) := by
  induction n with
  | zero => exact traces_pure _
  | succ n ih => exact ih.bind fun bufArray => (h n).bind fun b => traces_pure _

theorem copyToLog_traces (i : Nat) : Traces (copyToLog cfg i) (Commit.copyToLog cfg i) :=
  (traces_untraced _).bind fun _ => (traces_traced _).bind fun _ => (traces_traced _).bind fun _ =>
    traces_untraced _

theorem writeLogBlk_traces : Traces (writeLogBlk cfg) (Commit.writeLogBlk cfg) :=
  (traces_untraced _).bind fun _ => (forBlocks_traces copyToLog_traces _).bind fun _ =>
    (traces_traced _).bind fun _ => traces_untraced _

theorem writeLogHeader_traces : Traces (writeLogHeader cfg) (Commit.writeLogHeader cfg) :=
  (traces_untraced _).bind fun _ => (traces_traced _).bind fun _ => (traces_untraced _).bind fun _ =>
    (traces_untraced _).bind fun _ => (traces_traced _).bind fun _ => traces_untraced _

theorem copyHome_traces (i : Nat) : Traces (copyHome cfg i) (Commit.copyHome cfg i) :=
  (traces_untraced _).bind fun _ => (traces_traced _).bind fun _ => (traces_untraced _).bind fun _ =>
    traces_pure _

theorem keepConsistentOnDisk_traces :
    Traces (keepConsistentOnDisk cfg) (Commit.keepConsistentOnDisk cfg) := by
  apply (traces_untraced _).bind
  intro s
  split
  · exact traces_pure _
  · exact (forBlocks_traces copyHome_traces _).bind fun _ => (traces_traced _).bind fun _ =>
      traces_untraced _

/-- **The recorded commit does what `commit` does.** -/
theorem commit_traces : Traces (commit cfg) (Commit.commit cfg) := by
  apply (traces_untraced _).bind
  intro s
  split
  · exact writeLogBlk_traces.bind fun _ => writeLogHeader_traces.bind fun _ =>
      keepConsistentOnDisk_traces.bind fun _ => (traces_untraced _).bind fun _ => writeLogHeader_traces
  · exact traces_pure _

end WeiOS.Crash
