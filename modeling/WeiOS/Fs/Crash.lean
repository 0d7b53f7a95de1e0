import Mathlib
import WeiOS.Fs.CrashAccess

/-!
# Crashes of a Transaction

`write_log_blk` reads every logged block again, and `bread` of a block that is dirty writes it to its home
before `write_log_header` has listed it in the log. So a crash of a transaction that changes two blocks may
leave one of them new and the other one old, with an empty log; a transaction that changes one block is atomic.

## Main results
- `transaction_spec`: what all calls of a transaction and its commit leave on the disk.
- `atomic_iff`: when a transaction is atomic under crashes.
- `twoWrites_not_atomic`: one that is not.
-/

namespace WeiOS.Crash

open WeiOS.Lib Ide Bio
open WeiOS.Recovery (Block Disk LogHeader headerOf)
open WeiOS.Commit (Config Sys Wait M InArea Ours LogState Cached DirtyBlk Inv Got Logged Turn turned Copied
  Filled contents)

variable {cfg : Config} {lh : LogHeader} {s s₀ t u : Sys} {d₀ : Disk} {ws : List (Nat × Block)}
  {calls : List (Disk × Disk)} {held bs : List Nat} {n m b i : Nat}

/-! ## §1 Loops and blocks -/

/-- **Loop rule**: what every turn carries on holds when the loop is done. -/
theorem forBlocks_triple {turn : Nat → T Nat} {n : Nat} {I : Nat → List Nat → Traced Sys Nat Block → Prop}
    {E : Wait → Prop}
    (hturn : ∀ i < n, ∀ bs, Triple (I i bs) (turn i) (fun b => I (i + 1) (bs ++ [b])) E) :
    Triple (I 0 []) (forBlocks turn n) (I n) E := by
  induction n with
  | zero => exact Triple.ret fun t ht => ht
  | succ n ih =>
    apply (ih fun i hi => hturn i (by omega)).seq
    intro bs
    apply (hturn n (by omega) bs).seq
    intro b
    exact Triple.ret fun t ht => ht

/-- The transaction as `commit` finds it: all passed blocks are listed, with their new contents. -/
structure Group (cfg : Config) (lh : LogHeader) (s₀ : Sys) (ws : List (Nat × Block)) : Prop where
  log : LogState cfg lh
  listed : ∀ w ∈ ws, Lists lh w.1
  new : ∀ w ∈ ws, contents cfg s₀ w.1 = w.2

theorem Group.outside (hg : Group cfg lh s₀ ws) : ∀ w ∈ ws, ¬ InArea cfg w.1 := by
  intro w hw
  obtain ⟨i, hi, hhome⟩ := hg.listed w hw
  rw [← hhome]
  exact hg.log.outside i hi

/-- The home blocks are written, so the disk is all new. -/
theorem Group.allNew (hg : Group cfg lh s₀ ws) {d : Disk}
    (hd : ∀ i < lh.count, d (lh.home i) = contents cfg s₀ (lh.home i)) : AllNew ws d := by
  intro w hw
  obtain ⟨i, hi, hhome⟩ := hg.listed w hw
  rw [← hg.new w hw, ← hhome]
  exact hd i hi

/-- A disk with the same header and the same passed blocks. -/
theorem Uncommitted.congr {d d' : Disk} (h : Uncommitted cfg d₀ ws d) (hstart : d' cfg.start = d cfg.start)
    (hsame : ∀ w ∈ ws, d' w.1 = d w.1) : Uncommitted cfg d₀ ws d' where
  nblks := by
    rw [hstart]
    exact h.nblks
  blocks := by
    intro w hw
    rw [hsame w hw]
    exact h.blocks w hw

/-! ## §2 The log blocks -/

/-- Before turn `i` of `write_log_blk`, with the buffers and the calls so far. -/
structure Copying (cfg : Config) (lh : LogHeader) (s₀ : Sys) (d₀ : Disk) (ws : List (Nat × Block)) (i : Nat)
    (bs : List Nat) (t : Traced Sys Nat Block) : Prop where
  logged : Logged cfg lh s₀ True i bs t.sys
  bufs : ∀ j < i, ∃ b ∈ bs, (t.sys.buf b).blockno = cfg.start + j + 1 ∧
    (t.sys.buf b).data = contents cfg s₀ (lh.home j)
  early : Early cfg d₀ ws t

/-- A turn's calls, recorded. -/
theorem copyToLog_calls {f : Nat} {t₁ t₂ : Sys} (h : Turn cfg lh s₀ i bs s b f t₁ t₂)
    (hheader : s.lheader = lh) : copyToLog cfg i ⟨s, calls⟩ =
      .ok (b, ⟨turned i b f t₂, calls ++ [(s.disk, t₁.disk)] ++ [(t₁.disk, t₂.disk)]⟩) := by
  have hcall₁ : io (Commit.bread cfg (cfg.start + i + 1)) ⟨s, calls⟩ = _ := traced_eq h.read₁ calls
  have hcall₂ : io (Commit.bread cfg (lh.home i)) ⟨t₁, calls ++ [(s.disk, t₁.disk)]⟩ = _ :=
    traced_eq h.read₂ _
  show (io (Commit.bread cfg (cfg.start + i + 1)) >>= fun toBuf =>
    io (Commit.bread cfg (s.lheader.home i)) >>= fun fromBuf => quiet (copyData i toBuf fromBuf)) _ = _
  rw [hheader, run_bind_of_ok hcall₁, run_bind_of_ok hcall₂]
  rfl

/-- **One turn of `write_log_blk`** writes at most one home block, with its new contents. -/
theorem copyToLog_triple (hg : Group cfg lh s₀ ws) (hi : i < lh.count) (bs : List Nat) :
    Triple (Copying cfg lh s₀ d₀ ws i bs) (copyToLog cfg i)
      (fun b => Copying cfg lh s₀ d₀ ws (i + 1) (bs ++ [b])) (fun _ => False) := by
  rintro ⟨s, calls⟩ ⟨h, hbufs, he⟩
  rcases Commit.copyToLog_run hg.log hi h with ⟨b, f, t₁, t₂, hturn, hrun⟩ | ⟨_, hR⟩
  · rw [copyToLog_calls hturn h.lheader]
    have hnext := (Commit.copyToLog_triple hg.log hi bs).of_ok h hrun
    have hlogBlk : InArea cfg (cfg.start + i + 1) := hg.log.inArea (i := i + 1) hi
    have hstart : InArea cfg cfg.start := hg.log.inArea (i := 0) (Nat.zero_le _)
    -- the read of the log block writes no home block, and the read of the home block writes its contents
    have hdisk₁ : Uncommitted cfg d₀ ws t₁.disk := by
      apply he.disk.congr
      · rw [hturn.got₁.disk, Function.update_of_ne (by omega)]
      · intro w hw
        rw [hturn.got₁.disk, Function.update_of_ne (ne_of_outside hlogBlk (hg.outside w hw))]
    have hdisk₂ : Uncommitted cfg d₀ ws t₂.disk := by
      rw [hturn.got₂.disk]
      refine ⟨?_, fun w hw => ?_⟩
      · rw [Function.update_of_ne (ne_of_outside hstart (hg.log.outside i hi)).symm]
        exact hdisk₁.nblks
      · by_cases hwi : w.1 = lh.home i
        · right
          rw [hwi, Function.update_self, hturn.inv₁.homes i hi, ← hwi]
          exact hg.new w hw
        · rw [Function.update_of_ne hwi]
          exact hdisk₁.blocks w hw
    have he₁ := he.call (t := t₁) hturn.got₁.disk hdisk₁
    have he₂ := he₁.call (t := t₂) hturn.got₂.disk hdisk₂
    refine ⟨hnext, ?_, he₂.same rfl⟩
    intro j hj
    by_cases hji : j = i
    · rw [hji]
      exact ⟨b, by simp, hturn.logBuf hi⟩
    · obtain ⟨b', hb', hblk, hdata⟩ := hbufs j (by omega)
      obtain ⟨hne, hnf, hsame⟩ := hturn.kept h hb'
      refine ⟨b', List.mem_append_left _ hb', ?_⟩
      show ((turned i b f t₂).buf b').blockno = _ ∧ ((turned i b f t₂).buf b').data = _
      rw [Commit.turned_buf hne hnf, hsame]
      exact ⟨hblk, hdata⟩
  · exact absurd trivial hR

/-- The log has the new contents of all listed blocks, and its header lists nothing. -/
structure LogFull (cfg : Config) (lh : LogHeader) (s₀ : Sys) (d : Disk) : Prop where
  nblks : (headerOf (d cfg.start)).nblks = 0
  blocks : ∀ i < lh.count, d (cfg.start + i + 1) = contents cfg s₀ (lh.home i)

/-- **`write_log_blk`** tears a transaction that changes two blocks, and fills the log. -/
theorem writeLogBlk_triple (hg : Group cfg lh s₀ ws) :
    Triple (Copying cfg lh s₀ d₀ ws 0 []) (writeLogBlk cfg)
      (fun _ t => LogFull cfg lh s₀ t.sys.disk ∧ Late cfg d₀ ws t) (fun _ => False) := by
  apply Triple.look
  intro t ht
  rw [ht.logged.lheader]
  apply (forBlocks_triple (I := Copying cfg lh s₀ d₀ ws) fun i hi bs => copyToLog_triple hg hi bs).seq
  rintro bs ⟨s, calls⟩ ⟨h, hbufs, he⟩
  have hout := hg.outside
  change Logged cfg lh s₀ True lh.count bs s at h
  -- the buffers of the batch are those of the log blocks
  have hbatch : ∀ b ∈ bs, InArea cfg (s.buf b).blockno ∧ (s.buf b).blockno ≠ cfg.start := by
    intro b hb
    obtain ⟨h₁, h₂⟩ := h.bufs b hb
    have hlt := hg.log.count_lt
    exact ⟨⟨by omega, by omega⟩, by omega⟩
  have hnew : AllNew ws s.disk := by
    apply hg.allNew
    intro j hj
    rw [h.inv.disk_eq_of_free hg.log (LogState.ours_home hj) (h.flushed j hj)]
    · exact h.inv.homes j hj
    · exact fun b hb => (ne_of_outside (hbatch b hb).1 (hg.log.outside j hj)).symm
  obtain ⟨d, hrun, hdisk, hrest⟩ := Commit.bwriteDozens_spec hg.log h.inv h.nodup fun _ hb => hb
  have hinv := h.inv.flush hg.log (fun _ hb => hb) hrest
  obtain ⟨c, hrun', _⟩ := Commit.brelseDozens_spec hg.log hinv h.nodup fun b hb => (hdisk b hb).symm
  have hcall : io (Commit.bwriteDozens cfg bs) ⟨s, calls⟩ = _ := traced_eq hrun calls
  have hback : quiet (Commit.brelseDozens bs) ⟨{ s with disk := d }, calls ++ [(s.disk, d)]⟩ = _ :=
    untraced_eq hrun' _
  rw [run_bind_of_ok hcall, hback]
  have hheader' : d cfg.start = s.disk cfg.start := hrest _ fun b hb => (hbatch b hb).2
  have hd : Uncommitted cfg d₀ ws d := by
    apply he.disk.congr hheader'
    intro w hw
    exact hrest _ fun b hb => (ne_of_outside (hbatch b hb).1 (hout w hw)).symm
  refine ⟨⟨hd.nblks, ?_⟩, (he.late (t := s) hnew).call fun e hhalf => .inl (he.disk.halfway hd hhalf)⟩
  intro j hj
  obtain ⟨b, hb, hblk, hdata⟩ := hbufs j hj
  rw [← hdata, ← hdisk b hb, hblk]

/-! ## §3 The log header -/

/-- A block as on disk is written by nobody. -/
theorem bread_disk_same (hlog : LogState cfg lh) (h : Inv cfg lh s₀ held s) (hg : Got cfg s n b t)
    (ho : Ours cfg lh n) (hn : ¬ DirtyBlk s n) (hnot : ∀ b ∈ held, (s.buf b).blockno ≠ n) :
    t.disk = s.disk := by
  rw [hg.disk, ← h.disk_eq_of_free hlog ho hn hnot, Function.update_eq_self]

/-- **`write_log_header`** writes the header block, and nothing else. -/
theorem writeLogHeader_calls (hlog : LogState cfg lh) (h : Inv cfg lh s₀ [] s)
    (hfree : s.cache.freeList ≠ []) (calls : List (Disk × Disk)) :
    ∃ u blk, writeLogHeader cfg ⟨s, calls⟩ =
        .ok ((), ⟨u, calls ++ [(s.disk, s.disk)] ++ [(s.disk, u.disk)]⟩) ∧
      u.disk = Function.update s.disk cfg.start (Commit.putHeader s.lheader blk) := by
  have harea : InArea cfg cfg.start := hlog.inArea (i := 0) (Nat.zero_le _)
  rcases Commit.bread_spec h.cache hlog.dev hlog.diskExists (hlog.onDisk_of_ours (.inl harea))
      (h.settled_of (.inl harea) (by simp)) with ⟨b, t, hrun, hg⟩ | ⟨_, hnone, _⟩
  · -- `commit` keeps no block of the log dirty, so this `bread` writes nothing
    have hsame := bread_disk_same hlog h hg (.inl harea) (h.logClean _ harea) (by simp)
    have hinv := (hg.inv hlog h (.inl harea)).withData hlog (List.mem_singleton_self b)
      (x := Commit.putHeader s.lheader (t.buf b).data) (by
        intro i hi heq
        rw [hg.cached.2] at heq
        exact absurd (heq ▸ harea) (hlog.outside i hi))
    obtain ⟨d, hwrite, hd, hrest⟩ := Commit.bwrite_spec hlog hinv (List.mem_singleton_self b)
    rw [(Commit.withData_ident t b _ b).2.2.2, hg.cached.2] at hd hrest
    have hdisk : d = Function.update s.disk cfg.start (Commit.putHeader s.lheader (t.buf b).data) := by
      funext m
      by_cases hm : m = cfg.start
      · rw [hm, Function.update_self, hd, Commit.withData, Commit.set_buf_self]
      · rw [Function.update_of_ne hm, hrest m hm, ← hsame]
        rfl
    have hcall₁ : io (Commit.bread cfg cfg.start) ⟨s, calls⟩ = _ := traced_eq hrun calls
    have hcall₂ : io (Commit.bwrite cfg b)
        ⟨Commit.withData t b (Commit.putHeader s.lheader (t.buf b).data), calls ++ [(s.disk, t.disk)]⟩ = _ :=
      traced_eq hwrite _
    refine ⟨Commit.released { Commit.withData t b (Commit.putHeader s.lheader (t.buf b).data) with disk := d } b,
      (t.buf b).data, ?_, hdisk⟩
    show (io (Commit.bread cfg cfg.start) >>= fun buf => quiet get >>= fun t =>
      quiet (Commit.setData buf (Commit.putHeader s.lheader (t.buf buf).data)) >>= fun _ =>
      io (Commit.bwrite cfg buf) >>= fun _ => quiet (Commit.brelse buf)) _ = _
    rw [run_bind_of_ok hcall₁]
    show (io (Commit.bwrite cfg b) >>= fun _ => quiet (Commit.brelse b))
      ⟨Commit.withData t b (Commit.putHeader s.lheader (t.buf b).data), calls ++ [(s.disk, t.disk)]⟩ = _
    rw [run_bind_of_ok hcall₂]
    show Except.ok ((), Traced.mk (Commit.released { Commit.withData t b _ with disk := d } b)
      (calls ++ [(s.disk, t.disk)] ++ [(t.disk, d)])) = _
    rw [hsame]
    rfl
  · exact absurd hnone hfree

/-- The header that was written is the one in memory. -/
theorem putHeader_spec (lh : LogHeader) (blk : Block) :
    (headerOf (Commit.putHeader lh blk)).nblks = lh.nblks ∧
      ∀ i < lh.count, (headerOf (Commit.putHeader lh blk)).home i = lh.home i := by
  refine ⟨rfl, fun i hi => ?_⟩
  show ((if i + 1 = 0 then lh.nblks else if i + 1 - 1 < lh.count then lh.blksNo (i + 1 - 1)
    else blk (i + 1)) : BitVec 32).toNat = _
  rw [if_neg (Nat.succ_ne_zero i), Nat.add_sub_cancel, if_pos hi]
  rfl

/-- **The header is written**: from now on the transaction is committed. -/
theorem writeLogHeader_triple (hg : Group cfg lh s₀ ws) :
    Triple (fun t => Copied cfg lh s₀ True t.sys ∧ LogFull cfg lh s₀ t.sys.disk ∧ Late cfg d₀ ws t)
      (writeLogHeader cfg)
      (fun _ t => Copied cfg lh s₀ True t.sys ∧ Committed cfg lh ws t.sys.disk ∧ Late cfg d₀ ws t)
      (fun _ => False) := by
  rintro ⟨s, calls⟩ ⟨h, hfull, hl⟩
  have hstart : InArea cfg cfg.start := hg.log.inArea (i := 0) (Nat.zero_le _)
  have hfree : s.cache.freeList ≠ [] := by
    intro hnil
    have hroom := h.room trivial
    rw [hnil] at hroom
    exact Nat.not_lt_zero _ hroom
  obtain ⟨u, blk, hrun, hdisk⟩ := writeLogHeader_calls hg.log h.inv hfree calls
  have hcopied : Copied cfg lh s₀ True u :=
    (Commit.writeLogHeader_triple hg.log).of_ok h (writeLogHeader_traces.run hrun)
  have hheader : s.lheader = lh := h.lheader
  rw [hheader] at hdisk
  have hhead : u.disk cfg.start = Commit.putHeader lh blk := by rw [hdisk, Function.update_self]
  obtain ⟨hnblks, hhome⟩ := putHeader_spec lh blk
  have hcommitted : Committed cfg lh ws u.disk := by
    refine ⟨hg.log, ?_, ?_, ?_⟩
    · rw [hhead]
      exact hnblks
    · rw [hhead]
      exact hhome
    · intro w hw
      obtain ⟨i, hi, heq⟩ := hg.listed w hw
      refine ⟨i, hi, heq, ?_⟩
      rw [hdisk, Function.update_of_ne (by omega), hfull.blocks i hi, heq]
      exact hg.new w hw
  have hnew : AllNew ws s.disk := by
    apply hg.allNew
    intro j hj
    exact (h.inv.disk_eq hg.log (LogState.ours_home hj) (h.flushed j hj)).trans (h.inv.homes j hj)
  have hbefore : Uncommitted cfg d₀ ws s.disk := hnew.uncommitted hfull.nblks
  rw [hrun]
  refine ⟨hcopied, hcommitted, ?_⟩
  -- one block is written, so the crash comes before or after the header
  apply (hl.call (t := s) fun e he => .inl (hbefore.halfway hbefore he)).call
  intro e he
  have he : Halfway s.disk u.disk e := he
  rw [hdisk] at he
  rcases he.of_update with heq | heq
  · rw [heq]
    exact .inl hbefore
  · rw [heq, ← hdisk]
    exact .inr ⟨lh, hcommitted⟩

/-! ## §4 The home blocks -/

/-- Before turn `i` of `keep_consistent_on_disk`, with the calls so far. -/
structure Filling (cfg : Config) (lh : LogHeader) (s₀ : Sys) (d₀ : Disk) (ws : List (Nat × Block)) (i : Nat)
    (bs : List Nat) (t : Traced Sys Nat Block) : Prop where
  filled : Filled cfg lh s₀ True i bs t.sys
  committed : Committed cfg lh ws t.sys.disk
  late : Late cfg d₀ ws t

/-- **One turn of `keep_consistent_on_disk`** leaves the log alone. -/
theorem copyHome_triple (hg : Group cfg lh s₀ ws) (hi : i < lh.count) (bs : List Nat) :
    Triple (Filling cfg lh s₀ d₀ ws i bs) (copyHome cfg i)
      (fun b => Filling cfg lh s₀ d₀ ws (i + 1) (bs ++ [b])) (fun _ => False) := by
  rintro ⟨s, calls⟩ ⟨h, hcommitted, hl⟩
  obtain ⟨b, t, hread, hgot⟩ := (Filled.read hg.log hi h).resolve_right fun hwait => hwait.2 trivial
  have hheader : s.lheader = lh := h.lheader
  have hcall : io (Commit.bread cfg (lh.home i)) ⟨s, calls⟩ = _ := traced_eq hread calls
  have hrun : copyHome cfg i ⟨s, calls⟩ =
      .ok (b, ⟨Commit.withData t b (s.bufPtrs i), calls ++ [(s.disk, t.disk)]⟩) := by
    show (io (Commit.bread cfg (s.lheader.home i)) >>= fun b =>
      quiet (Commit.setData b (s.bufPtrs i)) >>= fun _ => pure b) _ = _
    rw [hheader, run_bind_of_ok hcall]
    rfl
  have hnext := (Commit.copyHome_triple hg.log hi bs).of_ok h ((copyHome_traces i).run hrun)
  have harea : ∀ m, InArea cfg m → t.disk m = s.disk m := by
    intro m hm
    rw [hgot.disk, Function.update_of_ne (ne_of_outside hm (hg.log.outside i hi)).symm]
  rw [hrun]
  -- the header and the log blocks are all that recovery needs
  refine ⟨hnext, hcommitted.halfway harea (Halfway.after _ _), ?_⟩
  exact hl.call fun e he => .inr ⟨lh, hcommitted.halfway harea he⟩

/-- **`keep_consistent_on_disk(0)`** leaves the log alone. -/
theorem keepConsistentOnDisk_triple (hg : Group cfg lh s₀ ws) :
    Triple (fun t => Copied cfg lh s₀ True t.sys ∧ Committed cfg lh ws t.sys.disk ∧ Late cfg d₀ ws t)
      (keepConsistentOnDisk cfg)
      (fun _ t => Committed cfg lh ws t.sys.disk ∧ Late cfg d₀ ws t) (fun _ => False) := by
  apply Triple.look
  rintro t ⟨ht, _⟩
  have hpos : t.sys.lheader.nblks ≠ 0 := by
    intro hzero
    have hpos := hg.log.pos
    rw [← ht.lheader, hzero] at hpos
    exact absurd hpos (by decide)
  rw [if_neg hpos, ht.lheader]
  apply Triple.pre (P := Filling cfg lh s₀ d₀ ws 0 [])
  · apply (forBlocks_triple (I := Filling cfg lh s₀ d₀ ws) fun i hi bs => copyHome_triple hg hi bs).seq
    rintro bs ⟨s, calls⟩ ⟨h, hcommitted, hl⟩
    change Filled cfg lh s₀ True lh.count bs s at h
    obtain ⟨d, hrun, hdisk, hrest⟩ := Commit.bwriteDozens_spec hg.log h.inv h.nodup fun _ hb => hb
    have hinv := h.inv.flush hg.log (fun _ hb => hb) hrest
    obtain ⟨c, hrun', _⟩ := Commit.brelseDozens_spec hg.log hinv h.nodup fun b hb => (hdisk b hb).symm
    have hcall : io (Commit.bwriteDozens cfg bs) ⟨s, calls⟩ = _ := traced_eq hrun calls
    have hback : quiet (Commit.brelseDozens bs) ⟨{ s with disk := d }, calls ++ [(s.disk, d)]⟩ = _ :=
      untraced_eq hrun' _
    -- the batch consists of home blocks
    have harea : ∀ m, InArea cfg m → d m = s.disk m := by
      intro m hm
      apply hrest
      intro b hb
      obtain ⟨j, hj, hblk⟩ := h.bufs b hb
      rw [hblk]
      exact ne_of_outside hm (hg.log.outside j hj)
    rw [run_bind_of_ok hcall, hback]
    refine ⟨hcommitted.halfway harea (Halfway.after _ _), ?_⟩
    exact hl.call fun e he => .inr ⟨lh, hcommitted.halfway harea he⟩
  · rintro t ⟨h, hcommitted, hl⟩
    refine ⟨⟨h.inv, h.lheader, List.nodup_nil, rfl, by simp, h.copies, h.flushed, ?_⟩, hcommitted, hl⟩
    exact fun hR => h.room hR

/-- **The log is emptied** when all home blocks are new. -/
theorem eraseLog_triple (hg : Group cfg lh s₀ ws) :
    Triple (fun t => Copied cfg lh s₀ True t.sys ∧ Committed cfg lh ws t.sys.disk ∧ Late cfg d₀ ws t)
      (quiet (modify fun t => { t with lheader := { t.lheader with nblks := 0 } }) >>= fun _ =>
        writeLogHeader cfg)
      (fun _ t => Late cfg d₀ ws t) (fun _ => False) := by
  rintro ⟨s, calls⟩ ⟨h, hcommitted, hl⟩
  change Copied cfg lh s₀ True s at h
  have hstart : InArea cfg cfg.start := hg.log.inArea (i := 0) (Nat.zero_le _)
  have hinv : Inv cfg lh s₀ [] { s with lheader := { s.lheader with nblks := 0 } } := h.inv.of_eq rfl rfl
  have hfree : s.cache.freeList ≠ [] := by
    intro hnil
    have hroom := h.room trivial
    rw [hnil] at hroom
    exact Nat.not_lt_zero _ hroom
  obtain ⟨u, blk, hrun, hdisk⟩ := writeLogHeader_calls hg.log hinv hfree calls
  have hset : quiet (modify fun t => { t with lheader := { t.lheader with nblks := 0 } }) ⟨s, calls⟩ =
      .ok (⟨⟩, ⟨{ s with lheader := { s.lheader with nblks := 0 } }, calls⟩) := untraced_eq rfl _
  have hnew : AllNew ws s.disk := by
    apply hg.allNew
    intro j hj
    exact (h.inv.disk_eq hg.log (LogState.ours_home hj) (h.flushed j hj)).trans (h.inv.homes j hj)
  have hafter : Uncommitted cfg d₀ ws u.disk := by
    apply AllNew.uncommitted
    · rw [hdisk, Function.update_self]
      rfl
    · intro w hw
      rw [hdisk, Function.update_of_ne (ne_of_outside hstart (hg.outside w hw))]
      exact hnew w hw
  rw [run_bind_of_ok hset, hrun]
  have hsame : Safe cfg d₀ ws (s.disk, s.disk) :=
    fun e he => .inr ⟨lh, hcommitted.halfway (fun _ _ => rfl) he⟩
  apply (hl.call (t := s) hsame).call
  intro e he
  have he : Halfway s.disk u.disk e := he
  rw [hdisk] at he
  rcases he.of_update with heq | heq
  · rw [heq]
    exact .inr ⟨lh, hcommitted⟩
  · rw [heq]
    exact .inl (hdisk ▸ hafter)

/-! ## §5 The transaction -/

/-- **A commit** tears a transaction that changes two blocks, and otherwise leaves no disk that recovery cannot
    deal with. -/
theorem commit_spec (hg : Group cfg lh s₀ ws) (h : Copying cfg lh s₀ d₀ ws 0 [] ⟨s, calls⟩) :
    ∃ t, commit cfg ⟨s, calls⟩ = .ok ((), t) ∧ Late cfg d₀ ws t := by
  -- the cache and the log manager go as in `commit` without the records
  have hblks : Triple (Copying cfg lh s₀ d₀ ws 0 []) (writeLogBlk cfg)
      (fun _ t => Copied cfg lh s₀ True t.sys ∧ LogFull cfg lh s₀ t.sys.disk ∧ Late cfg d₀ ws t)
      (fun _ => False) :=
    ((writeLogBlk_triple hg).both (writeLogBlk_traces.triple (Commit.writeLogBlk_triple hg.log))).conseq
      (fun t ht => ⟨ht, ht.logged⟩) fun _ t ht => ⟨ht.2, ht.1⟩
  have hhome : Triple
      (fun t => Copied cfg lh s₀ True t.sys ∧ Committed cfg lh ws t.sys.disk ∧ Late cfg d₀ ws t)
      (keepConsistentOnDisk cfg)
      (fun _ t => Copied cfg lh s₀ True t.sys ∧ Committed cfg lh ws t.sys.disk ∧ Late cfg d₀ ws t)
      (fun _ => False) :=
    ((keepConsistentOnDisk_triple hg).both
      (keepConsistentOnDisk_traces.triple (Commit.keepConsistentOnDisk_triple hg.log))).conseq
      (fun t ht => ⟨ht, ht.1⟩) fun _ t ht => ⟨ht.2, ht.1⟩
  have hparts : Triple (Copying cfg lh s₀ d₀ ws 0 []) (writeLogBlk cfg >>= fun _ =>
      writeLogHeader cfg >>= fun _ => keepConsistentOnDisk cfg >>= fun _ =>
      quiet (modify fun t => { t with lheader := { t.lheader with nblks := 0 } }) >>= fun _ =>
        writeLogHeader cfg) (fun _ t => Late cfg d₀ ws t) (fun _ => False) :=
    hblks.seq fun _ => (writeLogHeader_triple hg).seq fun _ => hhome.seq fun _ => eraseLog_triple hg
  have hcommit : commit cfg ⟨s, calls⟩ = (writeLogBlk cfg >>= fun _ => writeLogHeader cfg >>= fun _ =>
      keepConsistentOnDisk cfg >>= fun _ =>
      quiet (modify fun t => { t with lheader := { t.lheader with nblks := 0 } }) >>= fun _ =>
        writeLogHeader cfg) ⟨s, calls⟩ := by
    have hheader : s.lheader = lh := h.logged.lheader
    unfold commit
    show (if 0 < s.lheader.nblks.toInt then _ else _ : T Unit) _ = _
    rw [hheader, if_pos hg.log.pos]
  have hres := hparts _ h
  rw [← hcommit] at hres
  cases hrun : commit cfg ⟨s, calls⟩ with
  | error e =>
    rw [hrun] at hres
    exact hres.elim
  | ok r =>
    rw [hrun] at hres
    exact ⟨r.2, rfl, hres⟩

/-- What a transaction does: it reads and writes blocks of the disk, and passes distinct blocks outside the log
    area, which no earlier transaction has changed and left unwritten and for which the log has room. -/
structure Fits (cfg : Config) (s : Sys) (accesses : List Access) : Prop where
  reads : ∀ n, .read n ∈ accesses → n < FSSIZE
  passes : Passes cfg (passed accesses)
  settled : ∀ w ∈ passed accesses, ¬ DirtyBlk s w.1
  room : s.lheader.count + (passed accesses).length < cfg.size

variable {accesses : List Access}

/-- **A transaction and its commit**: it returns, no crash leaves a disk that recovery cannot deal with, and if
    it changes two blocks, one call leaves it torn. -/
theorem transaction_spec (harea : Area cfg) (hidle : Idle cfg s)
    (hempty : (headerOf (s.disk cfg.start)).nblks = 0) (hfits : Fits cfg s accesses) :
    ∃ t, transaction cfg accesses ⟨s, []⟩ = .ok ((), t) ∧ Late cfg s.disk (passed accesses) t := by
  have hold : AllOld s.disk (passed accesses) s.disk := fun _ _ => rfl
  have hinside : Inside cfg s.disk [] (passed accesses) s :=
    ⟨hidle, hfits.room, by simp, by simp, fun w hw => hidle.contents_disk harea (hfits.settled w hw)⟩
  have hearly : Early cfg s.disk ([] ++ passed accesses) ⟨s, []⟩ :=
    ⟨by simp, fun _ => .inr hold, hold.uncommitted hempty⟩
  have hpasses : Passes cfg ([] ++ passed accesses) := hfits.passes
  obtain ⟨u, calls, hrun, h, he⟩ := accesses_spec harea hfits.reads hpasses hinside hearly
  have hrun' : transaction cfg accesses ⟨s, []⟩ = commit cfg ⟨u, calls⟩ := by
    unfold transaction
    rw [run_bind_of_ok hrun]
  rw [hrun']
  by_cases hnblks : u.lheader.nblks = 0
  · -- nothing is logged, so nothing was passed
    have hcommit : commit cfg ⟨u, calls⟩ = .ok ((), ⟨u, calls⟩) := by
      unfold commit
      show (if 0 < u.lheader.nblks.toInt then _ else _ : T Unit) _ = _
      rw [hnblks, if_neg (by decide)]
      rfl
    have hnone : ∀ w, w ∉ passed accesses := by
      intro w hw
      obtain ⟨i, hi, _⟩ := h.listed w hw
      rw [LogHeader.count, hnblks] at hi
      exact absurd hi (Nat.not_lt_zero _)
    exact ⟨⟨u, calls⟩, hcommit, he.late fun w hw => absurd hw (hnone w)⟩
  · have hg : Group cfg u.lheader u (passed accesses) :=
      ⟨h.idle.log.logState harea hnblks, h.listed, h.done⟩
    apply commit_spec hg
    refine ⟨⟨h.idle.ready.inv, rfl, List.nodup_nil, rfl, by simp, by simp, by simp, ?_⟩, by simp, he⟩
    intro _
    exact (Nat.sub_zero _).symm ▸ Commit.room_of_alone hg.log h.idle.ready h.idle.alone

/-- **Crash atomicity**: the transaction and its commit return, and from every disk that a crash before, in or
    after one of their calls leaves, recovery makes one that has all old or all new contents. -/
def CrashAtomic (cfg : Config) (s : Sys) (accesses : List Access) : Prop :=
  ∃ t, transaction cfg accesses ⟨s, []⟩ = .ok ((), t) ∧
    ∀ e, CrashPoint s.disk t.calls e → Atomic cfg s.disk (passed accesses) e

theorem Passes.eq_of_fst (h : Passes cfg ws) : ∀ v ∈ ws, ∀ w ∈ ws, v.1 = w.1 → v = w :=
  fun _ hv _ hw heq => List.inj_on_of_nodup_map h.distinct hv hw heq

theorem atomic_of_one (harea : Area cfg) (hidle : Idle cfg s)
    (hempty : (headerOf (s.disk cfg.start)).nblks = 0) (hfits : Fits cfg s accesses)
    (hone : OneChanges s.disk (passed accesses)) : CrashAtomic cfg s accesses := by
  obtain ⟨t, hrun, hl⟩ := transaction_spec harea hidle hempty hfits
  refine ⟨t, hrun, ?_⟩
  have hout := hfits.passes.outside
  have hdistinct := hfits.passes.eq_of_fst
  rintro e (rfl | ⟨c, hc, he⟩)
  · exact (AllOld.uncommitted hempty fun _ _ => rfl).atomic harea hout hdistinct hone
  · exact (hl.safe c hc e he).atomic harea hout hdistinct hone

theorem not_atomic_of_two (harea : Area cfg) (hidle : Idle cfg s)
    (hempty : (headerOf (s.disk cfg.start)).nblks = 0) (hfits : Fits cfg s accesses)
    (htwo : ¬ OneChanges s.disk (passed accesses)) : ¬ CrashAtomic cfg s accesses := by
  rintro ⟨t, hrun, hatomic⟩
  obtain ⟨t', hrun', hl⟩ := transaction_spec harea hidle hempty hfits
  rw [hrun] at hrun'
  obtain rfl : t = t' := congrArg Prod.snd (Except.ok.inj hrun')
  obtain ⟨e, he, hnot⟩ := (hl.torn htwo).not_atomic harea hfits.passes.outside
  exact hnot (hatomic e he)

/-- **A transaction is atomic under crashes** exactly if it changes at most one block. -/
theorem atomic_iff (harea : Area cfg) (hidle : Idle cfg s)
    (hempty : (headerOf (s.disk cfg.start)).nblks = 0) (hfits : Fits cfg s accesses) :
    CrashAtomic cfg s accesses ↔ OneChanges s.disk (passed accesses) := by
  constructor
  · intro hatomic
    by_contra htwo
    exact not_atomic_of_two harea hidle hempty hfits htwo hatomic
  · exact atomic_of_one harea hidle hempty hfits

/-! ## §6 Two blocks -/

/-- Nothing is cached or logged yet. -/
def booted : Sys where
  cache := bufferInit fun _ => 0
  disk := fun _ _ => 0
  lheader := ⟨0, fun _ => 0⟩
  bufPtrs := fun _ _ => 0

/-- Block 200 gets new data, is read again, and so does block 300. -/
def twoWrites : List Access :=
  [.write 200 fun _ => 1, .read 200, .write 300 fun _ => 2]

theorem mkfsLog_area : Area Commit.mkfsLog where
  dev := by decide
  diskExists := rfl
  area := by decide
  size := by decide
  pos := by decide

theorem booted_idle : Idle Commit.mkfsLog booted := by
  have hnone : ∀ b, ¬ Hashed booted.cache b := by
    rintro b ⟨k, hk⟩
    cases hk
  refine ⟨(bootSys_inv 1 _ true).cache, fun b hb => absurd hb (hnone b), ?_, by decide, by decide, ?_, ?_, ?_⟩
  · rintro m ⟨b, hb, _⟩
    exact absurd hb.1 (hnone b)
  all_goals exact fun i hi => absurd hi (Nat.not_lt_zero i)

theorem twoWrites_fits : Fits Commit.mkfsLog booted twoWrites where
  reads := by
    intro n hn
    have hread : n = 200 := by simpa [twoWrites] using hn
    rw [hread]
    decide
  passes := by
    refine ⟨?_, ?_, by decide⟩
    · rintro w hw
      rcases List.mem_pair.1 hw with rfl | rfl
      all_goals exact by decide
    · rintro w hw ⟨_, hlt⟩
      rcases List.mem_pair.1 hw with rfl | rfl
      all_goals exact absurd hlt (by decide)
  settled := by
    rintro w - ⟨b, ⟨⟨k, hk⟩, _⟩, _⟩
    cases hk
  room := by decide

/-- The read between the two writes takes block 200 to its home. -/
theorem twoWrites_not_atomic : ¬ CrashAtomic Commit.mkfsLog booted twoWrites := by
  apply not_atomic_of_two mkfsLog_area booted_idle rfl twoWrites_fits
  intro hone
  have hone_ne : (fun _ => 1 : Block) ≠ booted.disk 200 := fun heq => absurd (congrFun heq 0) (by decide)
  have htwo_ne : (fun _ => 2 : Block) ≠ booted.disk 300 := fun heq => absurd (congrFun heq 0) (by decide)
  have heq := hone (200, fun _ => 1) (by simp [twoWrites, passed]) (300, fun _ => 2)
    (by simp [twoWrites, passed]) hone_ne htwo_ne
  exact absurd heq (by decide)

theorem atomic_iff_twoWrites :
    CrashAtomic Commit.mkfsLog booted twoWrites ↔ OneChanges booted.disk (passed twoWrites) :=
  atomic_iff mkfsLog_area booted_idle rfl twoWrites_fits

end WeiOS.Crash
