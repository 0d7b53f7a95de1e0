import Mathlib
import WeiOS.Lib.Triple
import WeiOS.Dev.Ide
import WeiOS.Fs.BufferCache
import WeiOS.Fs.Recovery

/-!
# The Calls of a Commit

`commit` of `kern/log.c`, as the process runs it that closes the last transaction, over the buffer cache of
`kern/bio.c` and the disk. The allocation of the `dozenbufs` is left out; where it fails, the kernel panics.

## Main results
- `serve_all`: a queue of dirty buffers of different blocks is written, in whatever order.
- `bread_spec`: `bread` of a block that nobody else uses. A block that is dirty in the cache goes to the
  disk here, because a buffer without `B_VALID` is handed to the disk driver.
-/

namespace WeiOS.Commit

open WeiOS.Lib Ide Bio
open WeiOS.Recovery (Block Disk LogHeader headerOf)

/-! ## §1 The machine -/

/-- The fields of `log_manager` that `log_init` sets, and `slave_disk_existed`. -/
structure Config where
  dev : Nat
  start : Nat
  size : Nat
  slaveDiskExisted : Bool

/-- The cache, the disk, `log_manager.lheader`, and the data of the static `buf_ptrs`; their other fields
    are copied but never read. -/
structure Sys where
  cache : Bcache Block
  disk : Disk
  lheader : LogHeader
  bufPtrs : Nat → Block

/-- Waits that only another process can end: for a busy buffer, for a free one, and for a request behind
    the end of the disk, which nobody starts. -/
inductive Wait where
  | buf | free | disk
  deriving DecidableEq

abbrev M := StateT Sys (Except Wait)

def Sys.buf (s : Sys) (b : Nat) : Bio.Buf Block := s.cache.buf b

/-- A change to one buffer. -/
def Sys.set (s : Sys) (b : Nat) (f : Bio.Buf Block → Bio.Buf Block) : Sys :=
  { s with cache := setBuf s.cache b f }

/-! ## §2 The disk driver, as seen by its only caller -/

/-- The disk does the request that is first in its queue, and `ide_intr` completes it: a dirty buffer is
    written, another one read. -/
def complete (s : Sys) (b : Nat) : Sys :=
  { s with
    disk := if (s.buf b).dirty then Function.update s.disk (s.buf b).blockno (s.buf b).data else s.disk
    cache := completeIo s.cache b (s.disk (s.buf b).blockno) }

def serve (b : Nat) : M Unit := do
  let s ← get
  if FSSIZE ≤ (s.buf b).blockno then throw .disk else set (complete s b)

def ideReadWrite (cfg : Config) (b : Nat) : M Unit := do
  let s ← get
  if clean (s.buf b) then return
  else if (s.buf b).dev ≠ 0 ∧ cfg.slaveDiskExisted = false then return
  else serve b

/-- All buffers are queued before the first request is started. -/
def ideWriteDozens (cfg : Config) (bufArray : List Nat) : M Unit := do
  let s ← get
  match bufArray with
  | [] => return
  | b :: _ =>
    if (s.buf b).dev ≠ 0 ∧ cfg.slaveDiskExisted = false then return
    else (insertRequests (fun c => (s.buf c).blockno) bufArray []).forM serve

/-! ## §3 The buffer cache -/

def bread (cfg : Config) (blkno : Nat) : M Nat := do
  let s ← get
  match getblk s.cache cfg.dev blkno with
  | (.hit b, c) | (.recycled b, c) =>
    set { s with cache := c }
    if (c.buf b).valid then
      return b
    else
      ideReadWrite cfg b
      return b
  | (.waitBuf _, _) => throw .buf
  | (.waitFree, _) => throw .free

def bwrite (cfg : Config) (b : Nat) : M Unit := do
  modify fun s => { s with cache := markDirty s.cache b }
  ideReadWrite cfg b

def brelse (b : Nat) : M Unit := modify fun s => { s with cache := Bio.brelse s.cache b }

def bwriteDozens (cfg : Config) (bufArray : List Nat) : M Unit := do
  modify fun s => { s with cache := bufArray.foldl markDirty s.cache }
  ideWriteDozens cfg bufArray

def brelseDozens (bufArray : List Nat) : M Unit := bufArray.forM brelse

/-- `memmove(b->data, …, BLKSIZE)`. -/
def setData (b : Nat) (data : Block) : M Unit := modify fun s => s.set b fun v => { v with data := data }

/-! ## §4 The log -/

/-- A loop over the logged blocks that puts a buffer into `dozens->buf_array[i]` in each turn. -/
def forBlocks (turn : Nat → M Nat) : Nat → M (List Nat)
  | 0 => return []
  | i + 1 => do
    let bufArray ← forBlocks turn i
    let b ← turn i
    return bufArray ++ [b]

/-- One turn of `write_log_blk`. -/
def copyToLog (cfg : Config) (i : Nat) : M Nat := do
  let s ← get
  let toBuf ← bread cfg (cfg.start + i + 1)
  let fromBuf ← bread cfg (s.lheader.home i)
  let t ← get
  setData toBuf (t.buf fromBuf).data
  brelse fromBuf
  modify fun t => { t with bufPtrs := Function.update t.bufPtrs i (t.buf toBuf).data }
  return toBuf

def writeLogBlk (cfg : Config) : M Unit := do
  let s ← get
  let bufArray ← forBlocks (copyToLog cfg) s.lheader.count
  bwriteDozens cfg bufArray
  brelseDozens bufArray

/-- The header block: `nblks` in its first word, and as many block numbers behind it as there are. -/
def putHeader (lh : LogHeader) (blk : Block) : Block := fun w =>
  if w = 0 then lh.nblks else if w - 1 < lh.count then lh.blksNo (w - 1) else blk w

def writeLogHeader (cfg : Config) : M Unit := do
  let s ← get
  let buf ← bread cfg cfg.start
  let t ← get
  setData buf (putHeader s.lheader (t.buf buf).data)
  bwrite cfg buf
  brelse buf

/-- One turn of `keep_consistent_on_disk(0)`. -/
def copyHome (cfg : Config) (i : Nat) : M Nat := do
  let s ← get
  let b ← bread cfg (s.lheader.home i)
  setData b (s.bufPtrs i)
  return b

def keepConsistentOnDisk (cfg : Config) : M Unit := do
  let s ← get
  if s.lheader.nblks = 0 then return
  else
    let bufArray ← forBlocks (copyHome cfg) s.lheader.count
    bwriteDozens cfg bufArray
    brelseDozens bufArray

def commit (cfg : Config) : M Unit := do
  let s ← get
  if 0 < s.lheader.nblks.toInt then
    writeLogBlk cfg
    writeLogHeader cfg
    keepConsistentOnDisk cfg
    modify fun t => { t with lheader := { t.lheader with nblks := 0 } }
    writeLogHeader cfg

/-! ## §5 Cached blocks and their contents -/

/-- Buffer `b` is cached for block `n`. -/
def Cached (s : Sys) (n b : Nat) : Prop := Hashed s.cache b ∧ (s.buf b).blockno = n

/-- The latest contents of a block: those of its buffer, if it has one with data, else those on disk. -/
def contents (cfg : Config) (s : Sys) (n : Nat) : Block :=
  match found s.cache cfg.dev n with
  | some b => if (s.buf b).valid || (s.buf b).dirty then (s.buf b).data else s.disk n
  | none => s.disk n

/-- The block has a buffer that is not written yet. -/
def DirtyBlk (s : Sys) (n : Nat) : Prop := ∃ b, Cached s n b ∧ (s.buf b).dirty = true

variable {cfg : Config} {s t : Sys} {n m b : Nat}

theorem found_iff (h : CacheInv cfg.dev s.cache) (hdev : cfg.dev ≠ 0) :
    found s.cache cfg.dev n = some b ↔ Cached s n b := by
  constructor
  · exact CacheInv.found_some
  · rintro ⟨hhash, hblk⟩
    cases hf : found s.cache cfg.dev n with
    | none => exact absurd hblk (h.found_none hdev hf b hhash)
    | some b' =>
      obtain ⟨hhash', hblk'⟩ := CacheInv.found_some hf
      rw [h.once b' b hhash' hhash (hblk'.trans hblk.symm)]

theorem contents_of_cached (h : CacheInv cfg.dev s.cache) (hdev : cfg.dev ≠ 0) (hb : Cached s n b)
    (hdata : (s.buf b).valid = true ∨ (s.buf b).dirty = true) : contents cfg s n = (s.buf b).data := by
  unfold contents
  rw [(found_iff h hdev).2 hb]
  exact if_pos (by simpa using hdata)

theorem contents_of_uncached (h : CacheInv cfg.dev s.cache) (hdev : cfg.dev ≠ 0)
    (hn : ∀ b, ¬ Cached s n b) : contents cfg s n = s.disk n := by
  unfold contents
  cases hf : found s.cache cfg.dev n with
  | none => rfl
  | some b => exact absurd ((found_iff h hdev).1 hf) (hn b)

@[simp] theorem set_buf_self (s : Sys) (b : Nat) (f : Bio.Buf Block → Bio.Buf Block) :
    (s.set b f).buf b = f (s.buf b) := by simp [Sys.set, Sys.buf, setBuf]

theorem set_buf_of_ne (s : Sys) (f : Bio.Buf Block → Bio.Buf Block) {b b' : Nat} (h : b' ≠ b) :
    (s.set b f).buf b' = s.buf b' := by simp [Sys.set, Sys.buf, setBuf, h]

/-! ## §6 The disk -/

/-- What the disk makes of a buffer. -/
def completed (s : Sys) (v : Bio.Buf Block) : Bio.Buf Block :=
  { v with data := if v.dirty then v.data else s.disk v.blockno, valid := true, dirty := false }

theorem complete_buf_self (s : Sys) (b : Nat) : (complete s b).buf b = completed s (s.buf b) :=
  Function.update_self ..

theorem complete_buf_of_ne (s : Sys) {b b' : Nat} (h : b' ≠ b) :
    (complete s b).buf b' = s.buf b' := by
  simp [complete, Sys.buf, completeIo, setBuf, h]

theorem complete_blockno (s : Sys) (b b' : Nat) :
    ((complete s b).buf b').blockno = (s.buf b').blockno := by
  by_cases h : b' = b
  · rw [h, complete_buf_self]
    rfl
  · rw [complete_buf_of_ne s h]

theorem serve_eq (hlt : (s.buf b).blockno < FSSIZE) : serve b s = .ok ((), complete s b) := by
  have hnot : ¬ FSSIZE ≤ (s.buf b).blockno := by omega
  simp only [serve, bind, StateT.bind, get, getThe, MonadStateOf.get, StateT.get, Except.bind, pure,
    Except.pure, if_neg hnot]
  rfl

/-- The buffers of `q` were dirty and are written: their data is on disk, in whatever order, and nothing
    else has changed. -/
structure Written (s : Sys) (q : List Nat) (t : Sys) : Prop where
  chains : t.cache.hashTable = s.cache.hashTable
  freeList : t.cache.freeList = s.cache.freeList
  lheader : t.lheader = s.lheader
  bufPtrs : t.bufPtrs = s.bufPtrs
  buf : ∀ b, t.buf b = if b ∈ q then { s.buf b with valid := true, dirty := false } else s.buf b
  disk : ∀ b ∈ q, t.disk (s.buf b).blockno = (s.buf b).data
  rest : ∀ m, (∀ b ∈ q, (s.buf b).blockno ≠ m) → t.disk m = s.disk m

/-- **A queue of dirty buffers of different blocks is written**, one after the other. -/
theorem serve_all {q : List Nat} (hq : q.Nodup) (hdirty : ∀ b ∈ q, (s.buf b).dirty = true)
    (hlt : ∀ b ∈ q, (s.buf b).blockno < FSSIZE)
    (hne : ∀ b ∈ q, ∀ b' ∈ q, (s.buf b).blockno = (s.buf b').blockno → b = b') :
    ∃ t, q.forM serve s = .ok ((), t) ∧ Written s q t := by
  induction q generalizing s with
  | nil =>
    refine ⟨s, rfl, rfl, rfl, rfl, rfl, fun b => by simp, by simp, fun _ _ => rfl⟩
  | cons b q ih =>
    obtain ⟨hbq, hq⟩ := List.nodup_cons.1 hq
    have hsame : ∀ b' ∈ q, (complete s b).buf b' = s.buf b' := by
      intro b' hb'
      apply complete_buf_of_ne
      rintro rfl
      exact hbq hb'
    obtain ⟨t, hrun, hw⟩ := ih (s := complete s b) hq
      (by
        intro b' hb'
        rw [hsame b' hb']
        exact hdirty b' (List.mem_cons_of_mem _ hb'))
      (by
        intro b' hb'
        rw [complete_blockno]
        exact hlt b' (List.mem_cons_of_mem _ hb'))
      (by
        intro b₁ h₁ b₂ h₂ heq
        rw [complete_blockno, complete_blockno] at heq
        exact hne b₁ (List.mem_cons_of_mem _ h₁) b₂ (List.mem_cons_of_mem _ h₂) heq)
    have hbdirty : (s.buf b).dirty = true := hdirty b List.mem_cons_self
    have hdisk : (complete s b).disk = Function.update s.disk (s.buf b).blockno (s.buf b).data := by
      simp [complete, hbdirty]
    -- the rest of the queue is for other blocks
    have hother : ∀ b' ∈ q, (s.buf b').blockno ≠ (s.buf b).blockno := by
      intro b' hb' heq
      obtain rfl := hne b' (List.mem_cons_of_mem _ hb') b List.mem_cons_self heq
      exact hbq hb'
    refine ⟨t, ?_, hw.chains, hw.freeList, hw.lheader, hw.bufPtrs, ?_, ?_, ?_⟩
    · show (serve b >>= fun _ => q.forM serve) s = _
      rw [run_bind_of_ok (serve_eq (hlt b List.mem_cons_self))]
      exact hrun
    · intro b'
      rw [hw.buf b']
      by_cases hbb : b' = b
      · subst hbb
        rw [if_neg hbq, if_pos List.mem_cons_self, complete_buf_self]
        simp [completed, hbdirty]
      · rw [complete_buf_of_ne s hbb]
        simp [hbb]
    · intro b' hb'
      rcases List.mem_cons.1 hb' with rfl | hb'
      · rw [hw.rest, hdisk, Function.update_self]
        intro b' hb'
        rw [complete_blockno]
        exact hother b' hb'
      · have hwritten := hw.disk b' hb'
        rwa [hsame b' hb'] at hwritten
    · intro m hm
      have hnb : (s.buf b).blockno ≠ m := hm b List.mem_cons_self
      rw [hw.rest, hdisk, Function.update_of_ne hnb.symm]
      intro b' hb'
      rw [complete_blockno]
      exact hm b' (List.mem_cons_of_mem _ hb')

/-! ## §7 The cache operations -/

/-- `bread` has got buffer `b` for block `n`: its data are the contents of the block, which are on disk
    now, and no other block has lost anything. -/
structure Got (cfg : Config) (s : Sys) (n b : Nat) (t : Sys) : Prop where
  cache : CacheInv cfg.dev t.cache
  idle : (s.buf b).busy = false
  busy : (t.buf b).busy = true
  cached : Cached t n b
  clean : clean (t.buf b) = true
  data : (t.buf b).data = contents cfg s n
  other : ∀ b', b' ≠ b → t.buf b' = s.buf b' ∧ (Hashed t.cache b' ↔ Hashed s.cache b')
  lost : ∀ m, m ≠ n → Cached s m b → Bio.clean (s.buf b) = true
  disk : t.disk = Function.update s.disk n (contents cfg s n)
  free : (DirtyBlk s n → t.cache.freeList.length = s.cache.freeList.length) ∧
    (¬ DirtyBlk s n → t.cache.freeList.length + 1 = s.cache.freeList.length)
  lheader : t.lheader = s.lheader
  bufPtrs : t.bufPtrs = s.bufPtrs

/-- A buffer for `n` is idle, and either written and as on disk, or dirty as `log_write` leaves it. -/
def Settled (s : Sys) (b : Nat) : Prop :=
  (s.buf b).busy = false ∧ (s.buf b).valid = !(s.buf b).dirty ∧
    ((s.buf b).dirty = false → (s.buf b).data = s.disk (s.buf b).blockno)

theorem clean_iff {v : Bio.Buf Block} : clean v = true ↔ v.valid = true ∧ v.dirty = false := by
  simp [clean]

/-- The state between `getblk` and the disk request. -/
theorem ideReadWrite_eq (hexists : cfg.slaveDiskExisted = true) (hclean : clean (s.buf b) = false)
    (hlt : (s.buf b).blockno < FSSIZE) : ideReadWrite cfg b s = .ok ((), complete s b) := by
  have hthere : ¬ ((s.buf b).dev ≠ 0 ∧ cfg.slaveDiskExisted = false) := by simp [hexists]
  have hrun := serve_eq hlt
  simp only [ideReadWrite, bind, StateT.bind, get, getThe, MonadStateOf.get, StateT.get, Except.bind,
    pure, Except.pure, hclean, if_neg hthere]
  exact hrun

/-- A buffer that was recycled is clean, or was never used. -/
theorem clean_of_free (h : CacheInv cfg.dev s.cache) (hb : b ∈ s.cache.freeList) :
    (s.buf b).busy = false ∧ (s.buf b).dirty = false ∧
      (Hashed s.cache b → clean (s.buf b) = true) := by
  obtain ⟨_, hidle, huse⟩ := (h.freeIff b).1 hb
  refine ⟨hidle, ?_, fun hhash => huse.resolve_left (not_not.2 hhash)⟩
  rcases huse with hnot | hclean
  · exact (h.unused b hnot).2
  · exact (clean_iff.1 hclean).2

theorem complete_inv (h : CacheInv cfg.dev s.cache) (hb : (s.buf b).busy = true) :
    CacheInv cfg.dev (complete s b).cache :=
  h.setBuf (f := completed s) hb hb rfl rfl

/-- `bread` after `getblk` has returned `b` in the cache `c`. -/
theorem bread_eq {c : Bcache Block} (hget : getblk s.cache cfg.dev n = (.hit b, c) ∨
      getblk s.cache cfg.dev n = (.recycled b, c)) :
    bread cfg n s = if (c.buf b).valid then .ok (b, { s with cache := c })
      else (ideReadWrite cfg b { s with cache := c }).map fun r => (b, r.2) := by
  rcases hget with heq | heq
  all_goals
    simp only [bread, bind, StateT.bind, get, getThe, MonadStateOf.get, StateT.get, Except.bind, pure,
      Except.pure, heq, set, StateT.set]
    split
    · rfl
    · show (ideReadWrite cfg b >>= fun _ => pure b) { s with cache := c } = _
      simp only [bind, StateT.bind]
      cases ideReadWrite cfg b { s with cache := c } with
      | error e => rfl
      | ok r => rfl

/-- The block is cached. -/
theorem bread_hit (h : CacheInv cfg.dev s.cache) (hdev : cfg.dev ≠ 0)
    (hexists : cfg.slaveDiskExisted = true) (hn : n < FSSIZE)
    (hf : found s.cache cfg.dev n = some b) (hb : (s.cache.buf b).busy = false)
    (heq : getblk s.cache cfg.dev n = (.hit b, hitState s.cache cfg.dev n b))
    (hsettled : Settled s b) : ∃ b t, bread cfg n s = .ok (b, t) ∧ Got cfg s n b t := by
  obtain ⟨hinv, hblk, _⟩ := h.hit hf
  have hcached : Cached s n b := (found_iff h hdev).1 hf
  obtain ⟨k, hk⟩ := hcached.1
  have hlt : b < Bio.NBUF := (h.slot k b hk).2.2
  obtain ⟨_, hvalid, hdata⟩ := hsettled
  -- the state when `getblk` returns
  have hsame : ∀ b', b' ≠ b → (hitState s.cache cfg.dev n b).buf b' = s.cache.buf b' := by
    intro b' hb'
    simp [hitState, setBuf, hb', h.lookedUp_eq]
  have hself : (hitState s.cache cfg.dev n b).buf b = { s.cache.buf b with busy := true } := by
    simp [hitState, setBuf, h.lookedUp_eq]
  have hhash : ∀ b', Hashed (hitState s.cache cfg.dev n b) b' ↔ Hashed s.cache b' := fun _ => Iff.rfl
  have hfree : (hitState s.cache cfg.dev n b).freeList = s.cache.freeList.erase b := rfl
  have hcontents : contents cfg s n = (s.buf b).data := by
    apply contents_of_cached h hdev hcached
    cases hd : (s.buf b).dirty with
    | true => exact .inr rfl
    | false => exact .inl (by rw [hvalid, hd]; rfl)
  rw [bread_eq (.inl heq)]
  cases hd : (s.buf b).dirty with
  | false =>
    have hv : (s.buf b).valid = true := by rw [hvalid, hd]; rfl
    have hmem : b ∈ s.cache.freeList := (h.freeIff b).2 ⟨hlt, hb, .inr (clean_iff.2 ⟨hv, hd⟩)⟩
    have hclean : ¬ DirtyBlk s n := by
      rintro ⟨b', hb', hd'⟩
      obtain rfl := h.once b' b hb'.1 hcached.1 (hb'.2.trans hcached.2.symm)
      rw [hd] at hd'
      cases hd'
    refine ⟨b, _, if_pos (by rw [hself]; exact hv), hinv, hb, ?_, ⟨⟨k, hk⟩, hblk⟩, ?_, ?_, ?_, ?_, ?_, ?_,
      rfl, rfl⟩
    · exact congrArg Bio.Buf.busy hself
    · exact (congrArg Bio.clean hself).trans (clean_iff.2 ⟨hv, hd⟩)
    · exact (congrArg Bio.Buf.data hself).trans hcontents.symm
    · exact fun b' hb' => ⟨hsame b' hb', hhash b'⟩
    · exact fun m hm hbm => absurd (hbm.2.symm.trans hcached.2) hm
    · -- the disk has these data already
      show s.disk = _
      rw [hcontents, hdata hd, hcached.2, Function.update_eq_self]
    · refine ⟨fun hdirty => absurd hdirty hclean, fun _ => ?_⟩
      show (s.cache.freeList.erase b).length + 1 = _
      rw [List.length_erase_of_mem hmem]
      exact Nat.sub_add_cancel (List.length_pos_of_mem hmem)
  | true =>
    have hv : (s.buf b).valid = false := by rw [hvalid, hd]; rfl
    have hmem : b ∉ s.cache.freeList := by
      intro hmem
      rw [(clean_of_free h hmem).2.1] at hd
      cases hd
    have hserve := ideReadWrite_eq (s := { s with cache := hitState s.cache cfg.dev n b }) hexists
      (b := b) (by simp [Sys.buf, hself, Bio.clean, show (s.cache.buf b).valid = false from hv])
      (by rw [Sys.buf, hblk]; exact hn)
    rw [if_neg (by rw [hself]; simp [show (s.cache.buf b).valid = false from hv]), hserve]
    have hdone := complete_buf_self { s with cache := hitState s.cache cfg.dev n b } b
    have hbuf : ({ s with cache := hitState s.cache cfg.dev n b } : Sys).buf b =
        { s.buf b with busy := true } := hself
    rw [hbuf] at hdone
    refine ⟨b, _, rfl, complete_inv hinv (congrArg Bio.Buf.busy hself), hb, ?_, ⟨⟨k, hk⟩, ?_⟩, ?_, ?_, ?_,
      ?_, ?_, ?_, rfl, rfl⟩
    · exact congrArg Bio.Buf.busy hdone
    · rw [complete_blockno]
      exact hblk
    · rw [hdone]
      rfl
    · rw [hdone, hcontents]
      exact if_pos hd
    · intro b' hb'
      rw [complete_buf_of_ne _ hb']
      exact ⟨hsame b' hb', hhash b'⟩
    · exact fun m hm hbm => absurd (hbm.2.symm.trans hcached.2) hm
    · have hnew : ({ s with cache := hitState s.cache cfg.dev n b } : Sys).buf b =
        { s.buf b with busy := true } := hself
      simp only [complete, hnew, hd, if_true, hcontents]
      rw [hcached.2]
    · refine ⟨fun _ => ?_, fun hclean => absurd ⟨b, hcached, hd⟩ hclean⟩
      show (s.cache.freeList.erase b).length = _
      rw [List.erase_of_not_mem hmem]

/-- The block is not cached, and the first free buffer is taken. -/
theorem bread_recycled (h : CacheInv cfg.dev s.cache) (hdev : cfg.dev ≠ 0)
    (hexists : cfg.slaveDiskExisted = true) (hn : n < FSSIZE) {rest : List Nat}
    (hf : found s.cache cfg.dev n = none) (hl : s.cache.freeList = b :: rest)
    (heq : getblk s.cache cfg.dev n =
      (.recycled b, recycle (lookedUp s.cache cfg.dev n) b rest cfg.dev n)) :
    ∃ b t, bread cfg n s = .ok (b, t) ∧ Got cfg s n b t := by
  rw [h.lookedUp_eq] at heq
  obtain ⟨hinv, hblk, _⟩ := h.recycle hdev hf hl
  have hbfree : b ∈ s.cache.freeList := by simp [hl]
  obtain ⟨hidle, hnd, hcleanb⟩ := clean_of_free h hbfree
  have hnone : ∀ b', ¬ Cached s n b' := fun b' hb' => h.found_none hdev hf b' hb'.1 hb'.2
  have hcontents : contents cfg s n = s.disk n := contents_of_uncached h hdev hnone
  have hself : (recycle s.cache b rest cfg.dev n).buf b =
      { s.cache.buf b with busy := true, dev := cfg.dev, blockno := n, valid := false } := by
    simp [recycle, putBlkInHash, setBuf]
  have hbuf : ({ s with cache := recycle s.cache b rest cfg.dev n } : Sys).buf b =
      { s.buf b with busy := true, dev := cfg.dev, blockno := n, valid := false } := hself
  have hserve := ideReadWrite_eq (s := { s with cache := recycle s.cache b rest cfg.dev n }) hexists
    (b := b) (by simp [hbuf, Bio.clean]) (by rw [hbuf]; exact hn)
  have hdone := complete_buf_self { s with cache := recycle s.cache b rest cfg.dev n } b
  rw [hbuf] at hdone
  have hhash : ∀ b', b' ≠ b →
      (Hashed (recycle s.cache b rest cfg.dev n) b' ↔ Hashed s.cache b') := by
    intro b' hb'
    apply exists_congr
    intro k
    rw [recycle_hashTable]
    split <;> simp [List.mem_erase_of_ne hb', hb']
  have hin : Hashed (recycle s.cache b rest cfg.dev n) b :=
    hinv.hashed_of_busy (congrArg Bio.Buf.busy hself)
  rw [bread_eq (.inr heq), if_neg (by rw [hself]; simp), hserve]
  refine ⟨b, _, rfl, complete_inv hinv (congrArg Bio.Buf.busy hself), hidle, ?_, ⟨hin, ?_⟩, ?_, ?_, ?_,
    ?_, ?_, ?_, rfl, rfl⟩
  · exact congrArg Bio.Buf.busy hdone
  · rw [complete_blockno]
    exact hblk
  · rw [hdone]
    rfl
  · rw [hdone, hcontents]
    exact if_neg (by simp [hnd])
  · intro b' hb'
    rw [complete_buf_of_ne _ hb']
    exact ⟨recycle_buf_of_ne s.cache rest cfg.dev n hb', hhash b' hb'⟩
  · exact fun m _ hbm => hcleanb hbm.1
  · simp only [complete, hbuf, hnd, hcontents, Function.update_eq_self]
    rfl
  · refine ⟨?_, fun _ => ?_⟩
    · rintro ⟨b', hb', _⟩
      exact absurd hb' (hnone b')
    · show rest.length + 1 = _
      rw [hl]
      rfl

/-- **`bread` of a block that nobody else uses** returns its buffer, or waits for a free one. -/
theorem bread_spec (h : CacheInv cfg.dev s.cache) (hdev : cfg.dev ≠ 0)
    (hexists : cfg.slaveDiskExisted = true) (hn : n < FSSIZE)
    (hsettled : ∀ b, Cached s n b → Settled s b) :
    (∃ b t, bread cfg n s = .ok (b, t) ∧ Got cfg s n b t) ∨
      (bread cfg n s = .error .free ∧ s.cache.freeList = [] ∧ ¬ DirtyBlk s n) := by
  rcases getblk_cases s.cache cfg.dev n with ⟨b, hf, hb, heq⟩ | ⟨b, hf, hb, heq⟩ | ⟨hf, hl, heq⟩ |
    ⟨b, rest, hf, hl, heq⟩
  · -- nobody holds the buffer
    have hidle : (s.cache.buf b).busy = false := (hsettled b ((found_iff h hdev).1 hf)).1
    rw [hb] at hidle
    cases hidle
  · left
    obtain ⟨hinv, hblk, _⟩ := h.hit hf
    exact bread_hit h hdev hexists hn hf hb heq (hsettled b ((found_iff h hdev).1 hf))
  · right
    refine ⟨?_, hl, ?_⟩
    · simp only [bread, bind, StateT.bind, get, getThe, MonadStateOf.get, StateT.get, Except.bind, pure,
        Except.pure, heq]
      rfl
    · rintro ⟨b, hb, _⟩
      exact h.found_none hdev hf b hb.1 hb.2
  · exact .inl (bread_recycled h hdev hexists hn hf hl heq)

end WeiOS.Commit
