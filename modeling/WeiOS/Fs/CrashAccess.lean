import Mathlib
import WeiOS.Fs.CrashStates

/-!
# The Accesses of a Transaction

Between two accesses no buffer is held, and each is as on disk or dirty as `log_write` leaves it. `bread` of a
dirty buffer, also by the transaction itself, writes it to its home block.

## Main results
- `Idle.read`: `bread` gets a buffer.
- `accesses_triple`: what all accesses of a transaction leave in the cache, in the log header and on the disk.
-/

namespace WeiOS.Crash

open WeiOS.Lib Ide Bio
open WeiOS.Recovery (Block Disk LogHeader headerOf)
open WeiOS.Commit (Config Sys Wait M InArea LogState Cached DirtyBlk Settled Got contents)

variable {cfg : Config} {lh : LogHeader} {s t u : Sys} {n m b i : Nat}

/-! ## §1 The log header -/

/-- The log header lists distinct home blocks of the disk, outside the log area, fewer than `size`. -/
structure Listed (cfg : Config) (lh : LogHeader) : Prop where
  nonneg : 0 ≤ lh.nblks.toInt
  count : lh.nblks.toInt ≤ (cfg.size : Int) - 1
  onDisk : ∀ i < lh.count, lh.home i < FSSIZE
  outside : ∀ i < lh.count, ¬ InArea cfg (lh.home i)
  distinct : ∀ i < lh.count, ∀ j < lh.count, lh.home i = lh.home j → i = j

/-- A block that the header lists. -/
def Lists (lh : LogHeader) (n : Nat) : Prop := ∃ i < lh.count, lh.home i = n

theorem Listed.logState (h : Listed cfg lh) (harea : Area cfg) (hpos : lh.nblks ≠ 0) :
    LogState cfg lh where
  dev := harea.dev
  diskExists := harea.diskExists
  area := harea.area
  size := harea.size
  pos := by
    have hnonneg := h.nonneg
    have hne : lh.nblks.toInt ≠ 0 := fun heq => hpos (BitVec.eq_of_toInt_eq (heq.trans (by rfl)))
    omega
  count := h.count
  onDisk := h.onDisk
  outside := h.outside
  distinct := h.distinct

theorem Listed.count_eq (h : Listed cfg lh) : (lh.count : Int) = lh.nblks.toInt :=
  Int.toNat_of_nonneg h.nonneg

theorem home_eq_iff (hn : n < FSSIZE) : lh.blksNo i = BitVec.ofNat 32 n ↔ lh.home i = n := by
  have hlt : n < 2 ^ 32 := hn.trans (by decide)
  rw [LogHeader.home, BitVec.toNat_eq, BitVec.toNat_ofNat, Nat.mod_eq_of_lt hlt]

/-- The loop of `log_write` finds the block in the header, or its end. -/
theorem findBlk_cases (lh : LogHeader) (hn : n < FSSIZE) :
    (findBlk lh n < lh.count ∧ lh.home (findBlk lh n) = n) ∨ (findBlk lh n = lh.count ∧ ¬ Lists lh n) := by
  unfold findBlk
  cases hf : (List.range lh.count).find? fun i => decide (lh.blksNo i = BitVec.ofNat 32 n) with
  | none =>
    right
    refine ⟨rfl, ?_⟩
    rintro ⟨i, hi, hhome⟩
    have hnone := List.find?_eq_none.1 hf i (List.mem_range.2 hi)
    exact hnone (decide_eq_true ((home_eq_iff hn).2 hhome))
  | some i =>
    left
    have hmem := List.mem_range.1 (List.mem_of_find?_eq_some hf)
    have hfound := List.find?_some hf
    exact ⟨hmem, (home_eq_iff hn).1 (of_decide_eq_true hfound)⟩

/-- A block that is listed already changes nothing. -/
theorem append_of_lists (hn : n < FSSIZE) (h : findBlk lh n < lh.count)
    (hhome : lh.home (findBlk lh n) = n) : append lh n = lh := by
  have hsame : BitVec.ofNat 32 n = lh.blksNo (findBlk lh n) := ((home_eq_iff hn).2 hhome).symm
  have hnblks : lh.nblks + 0 = lh.nblks := BitVec.add_zero lh.nblks
  unfold append
  rw [if_neg h.ne, hsame, Function.update_eq_self, hnblks]

/-- **`log_write` lists the block** and keeps those that were listed. -/
theorem append_spec (harea : Area cfg) (h : Listed cfg lh) (hroom : lh.count + 1 < cfg.size)
    (hn : n < FSSIZE) (hout : ¬ InArea cfg n) :
    Listed cfg (append lh n) ∧ (append lh n).count ≤ lh.count + 1 ∧
      ∀ m, Lists (append lh n) m ↔ Lists lh m ∨ m = n := by
  rcases findBlk_cases lh hn with ⟨hlt, hhome⟩ | ⟨hend, hnot⟩
  · -- the log merge
    rw [append_of_lists hn hlt hhome]
    refine ⟨h, Nat.le_succ _, fun m => ⟨.inl, ?_⟩⟩
    rintro (hm | rfl)
    · exact hm
    · exact ⟨_, hlt, hhome⟩
  · have hsize : cfg.size ≤ 120 := harea.size
    have hcount_eq := h.count_eq
    have hnblks : (append lh n).nblks.toInt = (lh.count : Int) + 1 := by
      show (lh.nblks + if findBlk lh n = lh.count then 1 else 0).toInt = _
      rw [if_pos hend, BitVec.toInt_add, hcount_eq]
      show (lh.nblks.toInt + 1).bmod (2 ^ 32) = _
      rw [Int.bmod_eq_of_le (by omega) (by omega)]
    have hcount : (append lh n).count = lh.count + 1 := by
      unfold LogHeader.count at hnblks ⊢
      omega
    have hold : ∀ i < lh.count, (append lh n).home i = lh.home i := by
      intro i hi
      show (Function.update lh.blksNo (findBlk lh n) _ i).toNat = _
      rw [hend, Function.update_of_ne hi.ne]
      rfl
    have hnew : (append lh n).home lh.count = n := by
      apply (home_eq_iff hn).1
      show Function.update lh.blksNo (findBlk lh n) _ lh.count = _
      rw [hend, Function.update_self]
    have hcases : ∀ i < (append lh n).count, i < lh.count ∨ i = lh.count := by omega
    refine ⟨⟨by omega, by omega, ?_, ?_, ?_⟩, hcount.le, ?_⟩
    · intro i hi
      rcases hcases i hi with hi | rfl
      · rw [hold i hi]
        exact h.onDisk i hi
      · rwa [hnew]
    · intro i hi
      rcases hcases i hi with hi | rfl
      · rw [hold i hi]
        exact h.outside i hi
      · rwa [hnew]
    · intro i hi j hj heq
      rcases hcases i hi with hi | rfl <;> rcases hcases j hj with hj | rfl
      · rw [hold i hi, hold j hj] at heq
        exact h.distinct i hi j hj heq
      · rw [hold i hi, hnew] at heq
        exact absurd ⟨i, hi, heq⟩ hnot
      · rw [hold j hj, hnew] at heq
        exact absurd ⟨j, hj, heq.symm⟩ hnot
      · rfl
    · intro m
      constructor
      · rintro ⟨i, hi, rfl⟩
        rcases hcases i hi with hi | rfl
        · exact .inl ⟨i, hi, (hold i hi).symm⟩
        · exact .inr hnew
      · rintro (⟨i, hi, rfl⟩ | rfl)
        · exact ⟨i, by omega, hold i hi⟩
        · exact ⟨lh.count, by omega, hnew⟩

/-! ## §2 Between two accesses -/

/-- No buffer is held; each is as on disk, or dirty and listed in the log. -/
structure Idle (cfg : Config) (s : Sys) : Prop where
  cache : CacheInv cfg.dev s.cache
  settled : ∀ b, Hashed s.cache b → Settled s b
  dirty : ∀ m, DirtyBlk s m → Lists s.lheader m
  log : Listed cfg s.lheader

theorem Idle.alone (h : Idle cfg s) : Commit.Alone s := by
  intro b hb
  obtain ⟨hidle, hvalid, _⟩ := h.settled b hb
  refine ⟨hidle, ?_⟩
  cases hd : (s.buf b).dirty with
  | false => exact .inl (Commit.clean_iff.2 ⟨by rw [hvalid, hd]; rfl, hd⟩)
  | true =>
    obtain ⟨i, hi, hhome⟩ := h.dirty _ ⟨b, ⟨hb, rfl⟩, hd⟩
    exact .inr ⟨rfl, i, hi, hhome.symm⟩

theorem Idle.ready (h : Idle cfg s) : Commit.Ready cfg s where
  cache := h.cache
  settled := fun b hb _ => h.settled b hb
  logClean := by
    intro m hm hd
    obtain ⟨i, hi, rfl⟩ := h.dirty m hd
    exact h.log.outside i hi hm

/-- A buffer has the contents of its block. -/
theorem Idle.contents_cached (harea : Area cfg) (h : Idle cfg s) (hb : Cached s m b) :
    contents cfg s m = (s.buf b).data := by
  apply Commit.contents_of_cached h.cache harea.dev hb
  rw [(h.settled b hb.1).2.1]
  cases (s.buf b).dirty
  · exact .inl rfl
  · exact .inr rfl

/-- A block that is not dirty is as on disk. -/
theorem Idle.contents_disk (harea : Area cfg) (h : Idle cfg s) (hm : ¬ DirtyBlk s m) :
    contents cfg s m = s.disk m := by
  by_cases hc : ∃ b, Cached s m b
  · obtain ⟨b, hb⟩ := hc
    have hclean : (s.buf b).dirty = false := by
      cases hd : (s.buf b).dirty with
      | true => exact absurd ⟨b, hb, hd⟩ hm
      | false => rfl
    rw [h.contents_cached harea hb, (h.settled b hb.1).2.2 hclean, hb.2]
  · exact Commit.contents_of_uncached h.cache harea.dev (not_exists.1 hc)

/-- **`bread` gets a buffer**: the log lists so few blocks that one is free. -/
theorem Idle.read (harea : Area cfg) (h : Idle cfg s) (hn : n < FSSIZE) :
    ∃ b t, Commit.bread cfg n s = .ok (b, t) ∧ Got cfg s n b t := by
  rcases Commit.bread_spec h.cache harea.dev harea.diskExists hn fun b hb => h.settled b hb.1 with
    hgot | ⟨_, hnone, _⟩
  · exact hgot
  · -- no free buffer means that all `NBUF` are dirty, more than the log lists
    exfalso
    have hcover := Commit.NBUF_le_of_alone harea.dev h.cache h.alone
    have hdirty := Commit.dirtyFrom_le s.lheader s 0
    have hcount := h.log.count
    have hcount_eq := h.log.count_eq
    have hsize : cfg.size ≤ Bio.NBUF := harea.size
    rw [hnone, List.length_nil] at hcover
    omega

/-- `bread` has got buffer `b` for block `n` in `t`; in `u` it has been given back, and nothing else has
    changed. -/
structure PutBack (cfg : Config) (s : Sys) (n b : Nat) (t u : Sys) : Prop where
  got : Got cfg s n b t
  cache : CacheInv cfg.dev u.cache
  hashed : ∀ b', Hashed u.cache b' ↔ Hashed t.cache b'
  other : ∀ b', b' ≠ b → u.buf b' = t.buf b'
  blockno : (u.buf b).blockno = (t.buf b).blockno
  settled : Settled u b
  disk : u.disk = t.disk

theorem PutBack.cached (hp : PutBack cfg s n b t u) : Cached u n b := by
  refine ⟨(hp.hashed b).2 hp.got.cached.1, ?_⟩
  rw [hp.blockno]
  exact hp.got.cached.2

/-- Another buffer is cached for a block as it was before the access. -/
theorem PutBack.cached_iff (hp : PutBack cfg s n b t u) {b' : Nat} (hb : b' ≠ b) :
    Cached u m b' ↔ Cached s m b' := by
  rw [← hp.got.cached_of_ne hb]
  unfold Cached
  rw [hp.hashed, hp.other b' hb]

theorem PutBack.ne_of_cached (hp : PutBack cfg s n b t u) (hm : m ≠ n) {b' : Nat}
    (hb : Cached u m b') : b' ≠ b := by
  rintro rfl
  exact hm (hb.2.symm.trans hp.cached.2)

theorem PutBack.settled_all (hp : PutBack cfg s n b t u) (h : Idle cfg s) {b' : Nat}
    (hb : Hashed u.cache b') : Settled u b' := by
  by_cases hbb : b' = b
  · rw [hbb]
    exact hp.settled
  · have hold : Cached s (u.buf b').blockno b' := (hp.cached_iff hbb).1 ⟨hb, rfl⟩
    have hne : (u.buf b').blockno ≠ n := by
      intro heq
      exact hbb (hp.cache.once b' b hb hp.cached.1 (heq.trans hp.cached.2.symm))
    have hsettled := h.settled b' hold.1
    have hbuf : u.buf b' = s.buf b' := (hp.other b' hbb).trans (hp.got.other b' hbb).1
    unfold Settled
    rw [hbuf, hp.disk, hp.got.disk, Function.update_of_ne (hbuf ▸ hne)]
    exact hsettled

/-- No other block has become dirty. -/
theorem PutBack.dirty (hp : PutBack cfg s n b t u) (hm : m ≠ n) (hd : DirtyBlk u m) :
    DirtyBlk s m := by
  obtain ⟨b', hb', hd⟩ := hd
  have hne := hp.ne_of_cached hm hb'
  refine ⟨b', (hp.cached_iff hne).1 hb', ?_⟩
  rwa [← (hp.got.other b' hne).1, ← hp.other b' hne]

/-- **The other blocks keep their contents.** -/
theorem PutBack.contents (hp : PutBack cfg s n b t u) (harea : Area cfg) (h : Idle cfg s)
    (hu : Idle cfg u) (hm : m ≠ n) : contents cfg u m = contents cfg s m := by
  by_cases hc : ∃ b', Cached u m b'
  · obtain ⟨b', hb'⟩ := hc
    have hne := hp.ne_of_cached hm hb'
    rw [hu.contents_cached harea hb', h.contents_cached harea ((hp.cached_iff hne).1 hb'),
      hp.other b' hne, (hp.got.other b' hne).1]
  · rw [Commit.contents_of_uncached hu.cache harea.dev (not_exists.1 hc), hp.disk, hp.got.disk,
      Function.update_of_ne hm]
    -- the block was not cached, or its buffer made room and was as on disk
    apply (h.contents_disk harea _).symm
    rintro ⟨b', hb', hd⟩
    by_cases hbb : b' = b
    · rw [hbb] at hb' hd
      rw [(Commit.clean_iff.1 (hp.got.lost m hm hb')).2] at hd
      cases hd
    · exact hc ⟨b', (hp.cached_iff hbb).2 hb'⟩

/-- A buffer of the block is the one that was given back. -/
theorem PutBack.dirty_self (hp : PutBack cfg s n b t u) (hd : DirtyBlk u n) : (u.buf b).dirty = true := by
  obtain ⟨b', hb', hd⟩ := hd
  rwa [hp.cache.once b' b hb'.1 hp.cached.1 (hb'.2.trans hp.cached.2.symm)] at hd

/-- **After an access** nothing is held, if the block is listed should it be dirty. -/
theorem PutBack.idle (hp : PutBack cfg s n b t u) (h : Idle cfg s) (hlog : Listed cfg u.lheader)
    (hlists : ∀ m, Lists s.lheader m → Lists u.lheader m)
    (hself : (u.buf b).dirty = true → Lists u.lheader n) : Idle cfg u where
  cache := hp.cache
  settled := fun _ hb => hp.settled_all h hb
  dirty := by
    intro m hd
    by_cases hm : m = n
    · rw [hm] at hd ⊢
      exact hself (hp.dirty_self hd)
    · exact hlists m (h.dirty m (hp.dirty hm hd))
  log := hlog

/-! ## §3 The accesses -/

/-- The block is given back as it is. -/
theorem putBack_released (hg : Got cfg s n b t) : PutBack cfg s n b t (Commit.released t b) where
  got := hg
  cache := hg.cache.brelse hg.busy
  hashed := fun _ => Commit.released_hashed
  other := by
    intro b' hb
    rw [Commit.released_buf, if_neg hb]
  blockno := Commit.released_blockno t b b
  settled := by
    obtain ⟨hvalid, hclean⟩ := Commit.clean_iff.1 hg.clean
    unfold Settled
    rw [Commit.released_buf, if_pos rfl]
    refine ⟨rfl, by simp [hvalid, hclean], fun _ => ?_⟩
    show (t.buf b).data = t.disk (t.buf b).blockno
    rw [hg.cached.2, hg.disk, Function.update_self, hg.data]
  disk := rfl

/-- The state after new data, `log_write` and `brelse`. -/
def logged (t : Sys) (b n : Nat) (x : Block) : Sys :=
  Commit.released { Commit.withData t b x with
    lheader := append t.lheader n, cache := markDirty (Commit.withData t b x).cache b } b

theorem logged_buf (t : Sys) (b n : Nat) (x : Block) (b' : Nat) : (logged t b n x).buf b' =
    if b' = b then { t.buf b with data := x, valid := false, dirty := true, busy := false }
    else t.buf b' := by
  by_cases hbb : b' = b
  · rw [if_pos hbb, logged, Commit.released_buf, if_pos hbb]
    simp [Sys.buf, markDirty, Commit.withData, Commit.Sys.set, Bio.setBuf]
  · rw [if_neg hbb, logged, Commit.released_buf, if_neg hbb]
    simp [Sys.buf, markDirty, Commit.withData, Commit.Sys.set, Bio.setBuf, hbb]

/-- The block is given back with new data, dirty. -/
theorem putBack_logged (hg : Got cfg s n b t) (x : Block) : PutBack cfg s n b t (logged t b n x) where
  got := hg
  cache := by
    have hdata : CacheInv cfg.dev (Commit.withData t b x).cache :=
      hg.cache.setBuf (f := fun v => { v with data := x }) hg.busy hg.busy rfl rfl
    have hbusy : ((Commit.withData t b x).cache.buf b).busy = true :=
      (Commit.withData_ident t b x b).1.trans hg.busy
    have hmark : CacheInv cfg.dev (markDirty (Commit.withData t b x).cache b) :=
      hdata.setBuf (f := fun v => { v with valid := false, dirty := true }) hbusy hbusy rfl rfl
    apply hmark.brelse
    simpa [markDirty, Bio.setBuf] using hbusy
  hashed := fun _ => Commit.released_hashed
  other := by
    intro b' hb
    rw [logged_buf, if_neg hb]
  blockno := by
    rw [logged_buf, if_pos rfl]
  settled := by
    unfold Settled
    rw [logged_buf, if_pos rfl]
    exact ⟨rfl, rfl, by simp⟩
  disk := rfl

/-- The blocks that a transaction passes: distinct blocks of the disk, outside the log area. -/
structure Passes (cfg : Config) (ws : List (Nat × Block)) : Prop where
  onDisk : ∀ w ∈ ws, w.1 < FSSIZE
  outside : ∀ w ∈ ws, ¬ InArea cfg w.1
  distinct : (ws.map Prod.fst).Nodup

/-- In a transaction that has passed the blocks `before` and will pass the blocks `after`. -/
structure Inside (cfg : Config) (d₀ : Disk) (before after : List (Nat × Block)) (s : Sys) : Prop where
  idle : Idle cfg s
  room : s.lheader.count + after.length < cfg.size
  listed : ∀ w ∈ before, Lists s.lheader w.1
  done : ∀ w ∈ before, contents cfg s w.1 = w.2
  todo : ∀ w ∈ after, contents cfg s w.1 = d₀ w.1

variable {d₀ : Disk} {before after ws : List (Nat × Block)} {calls : List (Disk × Disk)}

/-- **`bread` inside a transaction**: where it writes, it writes a block that the log does not have yet. -/
theorem Inside.bread_uncommitted (harea : Area cfg) (h : Inside cfg d₀ before after s)
    (hd : Uncommitted cfg d₀ (before ++ after) s.disk) (hg : Got cfg s n b t) :
    Uncommitted cfg d₀ (before ++ after) t.disk where
  nblks := by
    have hstart : t.disk cfg.start = s.disk cfg.start := by
      rw [hg.disk]
      by_cases hn : n = cfg.start
      · rw [hn, Function.update_self]
        exact h.idle.contents_disk harea (h.idle.ready.logClean _ harea.start)
      · exact Function.update_of_ne (Ne.symm hn) _ _
    rw [hstart]
    exact hd.nblks
  blocks := by
    intro w hw
    rw [hg.disk]
    by_cases hn : w.1 = n
    · rw [← hn, Function.update_self]
      rcases List.mem_append.1 hw with hw | hw
      · exact .inr (h.done w hw)
      · exact .inl (h.todo w hw)
    · rw [Function.update_of_ne hn]
      exact hd.blocks w hw

/-- The call of `bread`, recorded. -/
theorem Inside.read (harea : Area cfg) (h : Inside cfg d₀ before after s)
    (he : Early cfg d₀ (before ++ after) ⟨s, calls⟩) (hn : n < FSSIZE) :
    ∃ b t, io (Commit.bread cfg n) ⟨s, calls⟩ = .ok (b, ⟨t, calls ++ [(s.disk, t.disk)]⟩) ∧
      Got cfg s n b t ∧ Early cfg d₀ (before ++ after) ⟨t, calls ++ [(s.disk, t.disk)]⟩ := by
  obtain ⟨b, t, hrun, hg⟩ := h.idle.read harea hn
  exact ⟨b, t, traced_eq hrun calls, hg, he.call hg.disk (h.bread_uncommitted harea he.disk hg)⟩

/-- **A block is read** and given back. -/
theorem read_spec (harea : Area cfg) (h : Inside cfg d₀ before after s)
    (he : Early cfg d₀ (before ++ after) ⟨s, calls⟩) (hn : n < FSSIZE) :
    ∃ u calls', (Access.read n).run cfg ⟨s, calls⟩ = .ok ((), ⟨u, calls'⟩) ∧
      Inside cfg d₀ before after u ∧ Early cfg d₀ (before ++ after) ⟨u, calls'⟩ := by
  obtain ⟨b, t, hrun, hg, he⟩ := h.read harea he hn
  have hp := putBack_released hg
  have hheader : (Commit.released t b).lheader = s.lheader := hg.lheader
  have hclean : ((Commit.released t b).buf b).dirty = false := by
    rw [Commit.released_buf, if_pos rfl]
    exact (Commit.clean_iff.1 hg.clean).2
  have hidle : Idle cfg (Commit.released t b) := by
    apply hp.idle h.idle
    · rw [hheader]
      exact h.idle.log
    · rw [hheader]
      exact fun _ hm => hm
    · rw [hclean]
      simp
  -- the block has its data from the cache or from the disk, and the others are not touched
  have hcontents : ∀ m, contents cfg (Commit.released t b) m = contents cfg s m := by
    intro m
    by_cases hm : m = n
    · rw [hm, hidle.contents_cached harea hp.cached, Commit.released_buf, if_pos rfl]
      exact hg.data
    · exact hp.contents harea h.idle hidle hm
  refine ⟨Commit.released t b, calls ++ [(s.disk, t.disk)], ?_, ?_, he.same rfl⟩
  · rw [Access.run_read, run_bind_of_ok hrun]
    rfl
  · refine ⟨hidle, ?_, ?_, ?_, ?_⟩
    · rw [hheader]
      exact h.room
    · rw [hheader]
      exact h.listed
    · intro w hw
      rw [hcontents]
      exact h.done w hw
    · intro w hw
      rw [hcontents]
      exact h.todo w hw

/-- `log_write` has room. -/
theorem logWrite_eq (harea : Area cfg) (hlog : Listed cfg s.lheader) (hroom : s.lheader.count + 1 < cfg.size) :
    logWrite cfg b s = .ok (0, { s with
      lheader := append s.lheader (s.buf b).blockno, cache := markDirty s.cache b }) := by
  have hcount_eq := hlog.count_eq
  have hsize := harea.size
  have hfits : ¬ ((Log.LOGSIZE : Int) ≤ s.lheader.nblks.toInt ∨
      (cfg.size : Int) - 1 ≤ s.lheader.nblks.toInt) := by omega
  simp only [logWrite, bind, StateT.bind, get, getThe, MonadStateOf.get, StateT.get, Except.bind, pure,
    Except.pure, if_neg hfits]
  rfl

/-- **A block gets new data** and is passed to `log_write`. -/
theorem write_spec (harea : Area cfg) {x : Block} (hws : Passes cfg (before ++ (n, x) :: after))
    (h : Inside cfg d₀ before ((n, x) :: after) s)
    (he : Early cfg d₀ (before ++ (n, x) :: after) ⟨s, calls⟩) :
    ∃ u calls', (Access.write n x).run cfg ⟨s, calls⟩ = .ok ((), ⟨u, calls'⟩) ∧
      Inside cfg d₀ (before ++ [(n, x)]) after u ∧
      Early cfg d₀ (before ++ (n, x) :: after) ⟨u, calls'⟩ := by
  have hmem : (n, x) ∈ before ++ (n, x) :: after := by simp
  have hn : n < FSSIZE := hws.onDisk _ hmem
  have hout : ¬ InArea cfg n := hws.outside _ hmem
  obtain ⟨b, t, hrun, hg, he⟩ := h.read harea he hn
  have hp := putBack_logged hg x
  have hroom : s.lheader.count + (after.length + 1) < cfg.size := h.room
  obtain ⟨hlog, hcount, hlists⟩ := append_spec harea h.idle.log (by omega) hn hout
  have hheader : (logged t b n x).lheader = append s.lheader n := by
    show append t.lheader n = _
    rw [hg.lheader]
  have hidle : Idle cfg (logged t b n x) := by
    apply hp.idle h.idle
    · rw [hheader]
      exact hlog
    · intro m hm
      rw [hheader]
      exact (hlists m).2 (.inl hm)
    · intro _
      rw [hheader]
      exact (hlists n).2 (.inr rfl)
  -- the block is passed only once
  have hne : ∀ w, w ∈ before ∨ w ∈ after → w.1 ≠ n := by
    have hnodup := hws.distinct
    rw [List.map_append, List.map_cons] at hnodup
    have hnot := (List.nodup_middle.1 hnodup).notMem
    intro w hw heq
    apply hnot
    rw [← List.map_append]
    exact List.mem_map.2 ⟨w, List.mem_append.2 hw, heq⟩
  have hother : ∀ w, w ∈ before ∨ w ∈ after → contents cfg (logged t b n x) w.1 = contents cfg s w.1 :=
    fun w hw => hp.contents harea h.idle hidle (hne w hw)
  refine ⟨logged t b n x, calls ++ [(s.disk, t.disk)], ?_, ⟨hidle, ?_, ?_, ?_, ?_⟩, he.same rfl⟩
  · have hblk : ((Commit.withData t b x).buf b).blockno = n :=
      (Commit.withData_ident t b x b).2.2.2.trans hg.cached.2
    have hwrite := logWrite_eq (s := Commit.withData t b x) (b := b) harea
      (by
        show Listed cfg t.lheader
        rw [hg.lheader]
        exact h.idle.log)
      (by
        show t.lheader.count + 1 < cfg.size
        rw [hg.lheader]
        omega)
    rw [hblk] at hwrite
    have hset : quiet (Commit.setData b x) ⟨t, calls ++ [(s.disk, t.disk)]⟩ =
        .ok ((), ⟨Commit.withData t b x, calls ++ [(s.disk, t.disk)]⟩) := untraced_eq rfl _
    have hlogged : quiet (logWrite cfg b) ⟨Commit.withData t b x, calls ++ [(s.disk, t.disk)]⟩ = _ :=
      untraced_eq hwrite _
    rw [Access.run_write, run_bind_of_ok hrun, run_bind_of_ok hset, run_bind_of_ok hlogged]
    rfl
  · rw [hheader]
    omega
  · intro w hw
    rw [hheader, hlists]
    rcases List.mem_append.1 hw with hw | hw
    · exact .inl (h.listed w hw)
    · exact .inr (congrArg Prod.fst (List.mem_singleton.1 hw))
  · intro w hw
    rcases List.mem_append.1 hw with hw | hw
    · rw [hother w (.inl hw)]
      exact h.done w hw
    · rw [List.mem_singleton.1 hw, hidle.contents_cached harea hp.cached, logged_buf, if_pos rfl]
  · intro w hw
    rw [hother w (.inr hw)]
    exact h.todo w (List.mem_cons_of_mem _ hw)

/-- **All accesses of a transaction.** -/
theorem accesses_spec (harea : Area cfg) {accesses : List Access}
    (hreads : ∀ n, .read n ∈ accesses → n < FSSIZE) (hws : Passes cfg (before ++ passed accesses))
    (h : Inside cfg d₀ before (passed accesses) s)
    (he : Early cfg d₀ (before ++ passed accesses) ⟨s, calls⟩) :
    ∃ u calls', accesses.forM (Access.run cfg) ⟨s, calls⟩ = .ok ((), ⟨u, calls'⟩) ∧
      Inside cfg d₀ (before ++ passed accesses) [] u ∧
      Early cfg d₀ (before ++ passed accesses) ⟨u, calls'⟩ := by
  induction accesses generalizing before s calls with
  | nil =>
    refine ⟨s, calls, rfl, ?_, he⟩
    rwa [show before ++ passed [] = before from List.append_nil before]
  | cons a accesses ih =>
    have hreads' : ∀ n, .read n ∈ accesses → n < FSSIZE :=
      fun n hn => hreads n (List.mem_cons_of_mem _ hn)
    cases a with
    | read n =>
      obtain ⟨t, calls', hrun, h, he⟩ := read_spec harea h he (hreads n List.mem_cons_self)
      obtain ⟨u, calls'', hruns, h, he⟩ := ih hreads' hws h he
      refine ⟨u, calls'', ?_, h, he⟩
      show ((Access.run cfg _ >>= fun _ => accesses.forM (Access.run cfg)) : T Unit) _ = _
      rw [run_bind_of_ok hrun]
      exact hruns
    | write n x =>
      obtain ⟨t, calls', hrun, h, he⟩ := write_spec harea hws h he
      have hsame : before ++ passed (.write n x :: accesses) = before ++ [(n, x)] ++ passed accesses := by
        simp [passed]
      rw [hsame] at hws ⊢
      rw [show before ++ (n, x) :: passed accesses = before ++ [(n, x)] ++ passed accesses from hsame] at he
      obtain ⟨u, calls'', hruns, h, he⟩ := ih hreads' hws h he
      refine ⟨u, calls'', ?_, h, he⟩
      show ((Access.run cfg _ >>= fun _ => accesses.forM (Access.run cfg)) : T Unit) _ = _
      rw [run_bind_of_ok hrun]
      exact hruns

end WeiOS.Crash
