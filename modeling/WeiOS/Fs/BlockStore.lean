import Mathlib
import WeiOS.Fs.StoreModel

/-!
# The Log as a Store of Blocks

The buffer cache, the disk driver and the log together are a store of blocks: what the transactions of a run
read is what they would read from a map of blocks, whatever is cached, evicted and written early. A crash
anywhere in a run leaves, after recovery, what some transactions at the beginning of the run make of the blocks,
and of the transaction after these each block is old or written.

## Main results
- `run_refines`: runs of transactions over the blocks are runs over a map.
- `run_durable`: what a crash within a run leaves.
- `boots_refine`: any number of runs that end with a crash.
-/

namespace WeiOS.BlockStore

open WeiOS.Lib Ide Bio Crash
open WeiOS.Recovery (Block Disk LogHeader headerOf recoverFromLog)
open WeiOS.Commit (Config Sys InArea Ours LogState Cached DirtyBlk Settled Got Inv Logged Turn turned Copied
  Filled contents)

variable {α : Type} {cfg : Config} {lh : LogHeader} {s s₀ t u : Sys} {f g : Nat → Block}
  {ws : List (Nat × Block)} {W : Finset Nat} {calls : List (Disk × Disk)} {C : Disk × Disk → Prop}
  {n m b i : Nat} {x : Block}

/-! ## §1 One access -/

/-- Nothing is listed and nothing is held: the disk has the blocks `f`. -/
structure Rest (cfg : Config) (f : Nat → Block) (s : Sys) : Prop where
  idle : Idle cfg s
  nblks : s.lheader.nblks = 0
  header : (headerOf (s.disk cfg.start)).nblks = 0
  disk : SameOutside cfg s.disk f

/-- In a transaction that began with the blocks `f`, writes at most `ws`, has the blocks `g` now and has passed
    the blocks `W`. -/
structure Open (cfg : Config) (f : Nat → Block) (ws : List (Nat × Block)) (g : Nat → Block) (W : Finset Nat)
    (s : Sys) : Prop where
  idle : Idle cfg s
  lists : ∀ m, Lists s.lheader m ↔ m ∈ W
  count : s.lheader.count ≤ W.card
  contents : ∀ m, ¬ InArea cfg m → contents cfg s m = g m
  written : ∀ m, g m = f m ∨ (m, g m) ∈ ws
  disk : Pending cfg f ws s.disk

/-- All recorded calls are as `C` says. -/
def Calls (C : Disk × Disk → Prop) (calls : List (Disk × Disk)) : Prop := ∀ c ∈ calls, C c

theorem Calls.snoc {c : Disk × Disk} (h : Calls C calls) (hc : C c) : Calls C (calls ++ [c]) := by
  intro c' hc'
  rcases List.mem_append.1 hc' with hold | hnew
  · exact h c' hold
  · rw [List.mem_singleton.1 hnew]
    exact hc

/-- A crash within the call leaves what recovery can deal with. -/
def Good (cfg : Config) (f : Nat → Block) (ws : List (Nat × Block)) (g : Nat → Block) (c : Disk × Disk) : Prop :=
  ∀ e, Halfway c.1 c.2 e → Recoverable cfg f ws g e

/-- Calls that write no header are recoverable whatever comes out in the end. -/
def BeforeHeader (cfg : Config) (f : Nat → Block) (ws : List (Nat × Block)) (c : Disk × Disk) : Prop :=
  ∀ e, Halfway c.1 c.2 e → Pending cfg f ws e

theorem BeforeHeader.good {c : Disk × Disk} (h : BeforeHeader cfg f ws c) : Good cfg f ws g c :=
  fun e he => .inl (h e he)

/-- A buffer is given back as it was read. -/
theorem released_idle (harea : Area cfg) (h : Idle cfg s) (hg : Got cfg s n b t) :
    Idle cfg (Commit.released t b) ∧ ∀ m, contents cfg (Commit.released t b) m = contents cfg s m := by
  have hp := putBack_released hg
  have hheader : (Commit.released t b).lheader = s.lheader := hg.lheader
  have hclean : ((Commit.released t b).buf b).dirty = false := by
    rw [Commit.released_buf, if_pos rfl]
    exact (Commit.clean_iff.1 hg.clean).2
  have hidle : Idle cfg (Commit.released t b) := by
    apply hp.idle h
    · rw [hheader]
      exact h.log
    · rw [hheader]
      exact fun _ hm => hm
    · rw [hclean]
      simp
  refine ⟨hidle, fun m => ?_⟩
  by_cases hm : m = n
  · rw [hm, hidle.contents_cached harea hp.cached, Commit.released_buf, if_pos rfl]
    exact hg.data
  · exact hp.contents harea h hidle hm

/-- **`bread` inside a transaction** writes at most the block that it reads, with the contents it has now. -/
theorem Open.bread (harea : Area cfg) (h : Open cfg f ws g W s) (hn : n < FSSIZE) (hout : ¬ InArea cfg n)
    (hC : ∀ c, BeforeHeader cfg f ws c → C c) (hcalls : Calls C calls) :
    ∃ b t, io (Commit.bread cfg n) ⟨s, calls⟩ = .ok (b, ⟨t, calls ++ [(s.disk, t.disk)]⟩) ∧
      Got cfg s n b t ∧ Pending cfg f ws t.disk ∧ Calls C (calls ++ [(s.disk, t.disk)]) := by
  obtain ⟨b, t, hrun, hg⟩ := h.idle.read harea hn
  have hdisk : Pending cfg f ws t.disk := by
    rw [hg.disk]
    apply h.disk.update
    · rintro rfl
      exact absurd harea.start hout
    · intro _
      rw [h.contents n hout]
      exact h.written n
  exact ⟨b, t, traced_eq hrun calls, hg, hdisk, hcalls.snoc (hC _ fun e he => h.disk.halfway hdisk he)⟩

/-- **A block is read** with its contents. -/
theorem Open.readBlock (harea : Area cfg) (h : Open cfg f ws g W s) (hn : n < FSSIZE) (hout : ¬ InArea cfg n)
    (hC : ∀ c, BeforeHeader cfg f ws c → C c) (hcalls : Calls C calls) :
    ∃ u calls', readBlock cfg n ⟨s, calls⟩ = .ok (g n, ⟨u, calls'⟩) ∧ Open cfg f ws g W u ∧
      Calls C calls' := by
  obtain ⟨b, t, hrun, hg, hdisk, hcalls⟩ := h.bread harea hn hout hC hcalls
  obtain ⟨hidle, hcontents⟩ := released_idle harea h.idle hg
  have hheader : (Commit.released t b).lheader = s.lheader := hg.lheader
  refine ⟨Commit.released t b, calls ++ [(s.disk, t.disk)], ?_, ⟨hidle, ?_, ?_, ?_, h.written, hdisk⟩, hcalls⟩
  · show (io (Commit.bread cfg n) >>= fun b => quiet get >>= fun s => quiet (Commit.brelse b) >>= fun _ =>
      pure (s.buf b).data) _ = _
    rw [run_bind_of_ok hrun, ← h.contents n hout, ← hg.data]
    rfl
  · rw [hheader]
    exact h.lists
  · rw [hheader]
    exact h.count
  · intro m hm
    rw [hcontents]
    exact h.contents m hm

/-- What `log_write` of a block makes of the header, when the log has room. -/
theorem append_lists (harea : Area cfg) (h : Open cfg f ws g W s) (hn : n < FSSIZE) (hout : ¬ InArea cfg n)
    (hroom : W.card + 1 < cfg.size) : Listed cfg (append s.lheader n) ∧
      (∀ m, Lists (append s.lheader n) m ↔ m ∈ insert n W) ∧
      (append s.lheader n).count ≤ (insert n W).card := by
  have hcount := h.count
  obtain ⟨hlog, hle, hlists⟩ := append_spec harea h.idle.log (by omega) hn hout
  refine ⟨hlog, fun m => ?_, ?_⟩
  · rw [hlists, h.lists, Finset.mem_insert, or_comm]
  · by_cases hmem : n ∈ W
    · rw [Finset.insert_eq_of_mem hmem]
      rcases findBlk_cases s.lheader hn with ⟨hlt, hhome⟩ | ⟨_, hnot⟩
      · rw [append_of_lists hn hlt hhome]
        exact hcount
      · exact absurd ((h.lists n).2 hmem) hnot
    · rw [Finset.card_insert_of_notMem hmem]
      omega

/-- **A block gets new data** and is passed to `log_write`. -/
theorem Open.write (harea : Area cfg) (h : Open cfg f ws g W s) (hn : n < FSSIZE) (hout : ¬ InArea cfg n)
    (hroom : W.card + 1 < cfg.size) (hx : (n, x) ∈ ws) (hC : ∀ c, BeforeHeader cfg f ws c → C c)
    (hcalls : Calls C calls) :
    ∃ u calls', (Access.write n x).run cfg ⟨s, calls⟩ = .ok ((), ⟨u, calls'⟩) ∧
      Open cfg f ws (Function.update g n x) (insert n W) u ∧ Calls C calls' := by
  obtain ⟨b, t, hrun, hg, hdisk, hcalls⟩ := h.bread harea hn hout hC hcalls
  obtain ⟨hlog, hlists, hcount⟩ := append_lists harea h hn hout hroom
  have hp := putBack_logged hg x
  have hheader : (logged t b n x).lheader = append s.lheader n := by
    show append t.lheader n = _
    rw [hg.lheader]
  have hidle : Idle cfg (logged t b n x) := by
    apply hp.idle h.idle
    · rw [hheader]
      exact hlog
    · intro m hm
      rw [hheader]
      exact (hlists m).2 (Finset.mem_insert_of_mem ((h.lists m).1 hm))
    · intro _
      rw [hheader]
      exact (hlists n).2 (Finset.mem_insert_self n W)
  refine ⟨logged t b n x, calls ++ [(s.disk, t.disk)], ?_, ⟨hidle, ?_, ?_, ?_, ?_, hdisk⟩, hcalls⟩
  · have hblk : ((Commit.withData t b x).buf b).blockno = n :=
      (Commit.withData_ident t b x b).2.2.2.trans hg.cached.2
    have hsame : (Commit.withData t b x).lheader = s.lheader := hg.lheader
    have hle := h.count
    have hwrite := logWrite_eq (s := Commit.withData t b x) (b := b) harea
      (by
        rw [hsame]
        exact h.idle.log)
      (by
        rw [hsame]
        omega)
    rw [hblk] at hwrite
    have hset : quiet (Commit.setData b x) ⟨t, calls ++ [(s.disk, t.disk)]⟩ =
        .ok ((), ⟨Commit.withData t b x, calls ++ [(s.disk, t.disk)]⟩) := untraced_eq rfl _
    have hlogged : quiet (logWrite cfg b) ⟨Commit.withData t b x, calls ++ [(s.disk, t.disk)]⟩ = _ :=
      untraced_eq hwrite _
    rw [Access.run_write, run_bind_of_ok hrun, run_bind_of_ok hset, run_bind_of_ok hlogged]
    rfl
  · rw [hheader]
    exact hlists
  · rw [hheader]
    exact hcount
  · intro m hm
    by_cases hmn : m = n
    · rw [hmn, Function.update_self, hidle.contents_cached harea hp.cached, logged_buf, if_pos rfl]
    · rw [Function.update_of_ne hmn, hp.contents harea h.idle hidle hmn]
      exact h.contents m hm
  · intro m
    by_cases hmn : m = n
    · rw [hmn, Function.update_self]
      exact .inr hx
    · rw [Function.update_of_ne hmn]
      exact h.written m

/-- **The program runs** as over the map of the blocks. -/
theorem Open.exec (harea : Area cfg) (hC : ∀ c, BeforeHeader cfg f ws c → C c) (p : Prog α)
    (hfits : Fits cfg p g W) (hws : ∀ w ∈ p.writes g, w ∈ ws) (h : Open cfg f ws g W s)
    (hcalls : Calls C calls) :
    ∃ u calls' W', exec cfg p ⟨s, calls⟩ = .ok ((p.eval g).1, ⟨u, calls'⟩) ∧
      Open cfg f ws (p.eval g).2 W' u ∧ Calls C calls' := by
  induction p generalizing g W s calls with
  | done a => exact ⟨s, calls, W, rfl, h, hcalls⟩
  | read n next ih =>
    obtain ⟨hn, hout, hfits⟩ := hfits
    obtain ⟨t, calls₁, hrun, h, hcalls⟩ := h.readBlock harea hn hout hC hcalls
    -- the rest of the program may depend on what was read
    obtain ⟨u, calls₂, W', hruns, h, hcalls⟩ := ih (g n) hfits hws h hcalls
    refine ⟨u, calls₂, W', ?_, h, hcalls⟩
    show (BlockStore.readBlock cfg n >>= fun data => BlockStore.exec cfg (next data)) _ = _
    rw [run_bind_of_ok hrun]
    exact hruns
  | write n x next ih =>
    obtain ⟨hn, hout, hroom, hfits⟩ := hfits
    have hx : (n, x) ∈ ws := hws _ List.mem_cons_self
    obtain ⟨t, calls₁, hrun, h, hcalls⟩ := h.write harea hn hout hroom hx hC hcalls
    -- the map has the block now, and the rest of the program runs over it
    obtain ⟨u, calls₂, W', hruns, h, hcalls⟩ :=
      ih hfits (fun w hw => hws w (List.mem_cons_of_mem _ hw)) h hcalls
    refine ⟨u, calls₂, W', ?_, h, hcalls⟩
    show ((Access.write n x).run cfg >>= fun _ => BlockStore.exec cfg next) _ = _
    rw [run_bind_of_ok hrun]
    exact hruns

/-! ## §2 Buffers that a commit does not use -/

/-- The buffers of other blocks are as when the commit began. -/
def Foreign (cfg : Config) (s₀ s : Sys) : Prop :=
  ∀ b, Hashed s.cache b → ¬ Ours cfg s₀.lheader (s.buf b).blockno → Hashed s₀.cache b ∧ s.buf b = s₀.buf b

theorem Foreign.read (h : Foreign cfg s₀ s) (hg : Got cfg s n b t) (hn : Ours cfg s₀.lheader n) :
    Foreign cfg s₀ t := by
  intro b' hhash ho
  have hne : b' ≠ b := by
    rintro rfl
    rw [hg.cached.2] at ho
    exact ho hn
  obtain ⟨hbuf, hhash'⟩ := hg.other b' hne
  rw [hbuf] at ho ⊢
  exact h b' (hhash'.1 hhash) ho

theorem Foreign.congr (h : Foreign cfg s₀ s) (hhash : ∀ b, Hashed t.cache b ↔ Hashed s.cache b)
    (hblk : ∀ b, (t.buf b).blockno = (s.buf b).blockno)
    (hbuf : ∀ b, ¬ Ours cfg s₀.lheader (s.buf b).blockno → t.buf b = s.buf b) : Foreign cfg s₀ t := by
  intro b hb ho
  rw [hblk] at ho
  rw [hbuf b ho]
  exact h b ((hhash b).1 hb) ho

theorem Foreign.withData (h : Foreign cfg s₀ s) (hb : Ours cfg s₀.lheader (s.buf b).blockno) :
    Foreign cfg s₀ (Commit.withData s b x) := by
  have hhash : ∀ b', Hashed (Commit.withData s b x).cache b' ↔ Hashed s.cache b' := fun _ => Iff.rfl
  apply h.congr hhash fun b' => (Commit.withData_ident s b x b').2.2.2
  intro b' ho
  apply Commit.set_buf_of_ne
  rintro rfl
  exact ho hb

theorem Foreign.released (h : Foreign cfg s₀ s) (hb : Ours cfg s₀.lheader (s.buf b).blockno) :
    Foreign cfg s₀ (Commit.released s b) := by
  apply h.congr (fun _ => Commit.released_hashed) fun b' => Commit.released_blockno s b b'
  intro b' ho
  rw [Commit.released_buf, if_neg]
  rintro rfl
  exact ho hb

/-- The other fields of the state do not matter here. -/
theorem Foreign.of_cache (h : Foreign cfg s₀ s) (hc : t.cache = s.cache) : Foreign cfg s₀ t := by
  unfold Foreign Sys.buf at h ⊢
  rw [hc]
  exact h

theorem Foreign.brelseDozens {q : List Nat} (h : Foreign cfg s₀ s)
    (hq : ∀ b ∈ q, Ours cfg s₀.lheader (s.buf b).blockno) (hrun : Commit.brelseDozens q s = .ok ((), t)) :
    Foreign cfg s₀ t := by
  induction q generalizing s with
  | nil =>
    obtain rfl : s = t := congrArg Prod.snd (Except.ok.inj hrun)
    exact h
  | cons b q ih =>
    apply ih (s := Commit.released s b) (h.released (hq b List.mem_cons_self)) _ hrun
    intro b' hb'
    rw [Commit.released_blockno]
    exact hq b' (List.mem_cons_of_mem _ hb')

/-- **A batch is written and given back**, recorded. -/
theorem batch_calls (hlog : LogState cfg s₀.lheader) {q : List Nat} (h : Inv cfg s₀.lheader s₀ q s)
    (hnd : q.Nodup) (hf : Foreign cfg s₀ s) (calls : List (Disk × Disk)) :
    ∃ c d, (io (Commit.bwriteDozens cfg q) >>= fun _ => quiet (Commit.brelseDozens q)) ⟨s, calls⟩ =
        .ok ((), ⟨{ s with cache := c, disk := d }, calls ++ [(s.disk, d)]⟩) ∧
      Inv cfg s₀.lheader s₀ [] { s with cache := c, disk := d } ∧
      c.freeList.length = s.cache.freeList.length + q.length ∧
      (∀ m, DirtyBlk { s with cache := c, disk := d } m ↔ DirtyBlk s m) ∧
      Foreign cfg s₀ { s with cache := c, disk := d } ∧
      (∀ b ∈ q, d (s.buf b).blockno = (s.buf b).data) ∧
      ∀ m, (∀ b ∈ q, (s.buf b).blockno ≠ m) → d m = s.disk m := by
  obtain ⟨d, hrun, hdisk, hrest⟩ := Commit.bwriteDozens_spec hlog h hnd fun _ hb => hb
  have hinv := h.flush hlog (fun _ hb => hb) hrest
  obtain ⟨c, hrun', hinv', hlen, hdirty⟩ :=
    Commit.brelseDozens_spec hlog hinv hnd fun b hb => (hdisk b hb).symm
  have hcall : io (Commit.bwriteDozens cfg q) ⟨s, calls⟩ = _ := traced_eq hrun calls
  have hback : quiet (Commit.brelseDozens q) ⟨{ s with disk := d }, calls ++ [(s.disk, d)]⟩ = _ :=
    untraced_eq hrun' _
  refine ⟨c, d, ?_, hinv', hlen, hdirty, ?_, hdisk, hrest⟩
  · rw [run_bind_of_ok hcall]
    exact hback
  · have hf' : Foreign cfg s₀ { s with disk := d } := hf.of_cache rfl
    exact hf'.brelseDozens (fun b hb => (h.mine b hb).2.2.2) hrun'

/-- The run of `write_log_header`: it uses one buffer. -/
theorem header_run (hlog : LogState cfg lh) (h : Inv cfg lh s₀ [] s) (hfree : s.cache.freeList ≠ []) :
    ∃ b t d, Got cfg s cfg.start b t ∧ Commit.writeLogHeader cfg s = .ok ((), Commit.released
      { Commit.withData t b (Commit.putHeader s.lheader (t.buf b).data) with disk := d } b) := by
  have harea : InArea cfg cfg.start := hlog.inArea (i := 0) (Nat.zero_le _)
  rcases Commit.bread_spec h.cache hlog.dev hlog.diskExists (hlog.onDisk_of_ours (.inl harea))
      (h.settled_of (.inl harea) (by simp)) with ⟨b, t, hread, hg⟩ | ⟨_, hnone, _⟩
  · have hinv := (hg.inv hlog h (.inl harea)).withData hlog (List.mem_singleton_self b)
      (x := Commit.putHeader s.lheader (t.buf b).data) (by
        intro i hi heq
        rw [hg.cached.2] at heq
        exact absurd (heq ▸ harea) (hlog.outside i hi))
    obtain ⟨d, hwrite, _, _⟩ := Commit.bwrite_spec hlog hinv (List.mem_singleton_self b)
    refine ⟨b, t, d, hg, ?_⟩
    simp only [Commit.writeLogHeader, bind, StateT.bind, get, getThe, MonadStateOf.get, StateT.get,
      Except.bind, pure, Except.pure, hread]
    show (Commit.bwrite cfg b >>= fun _ => Commit.brelse b)
      (Commit.withData t b (Commit.putHeader s.lheader (t.buf b).data)) = _
    rw [run_bind_of_ok hwrite]
    rfl
  · exact absurd hnone hfree

theorem Foreign.header (hlog : LogState cfg s₀.lheader) (h : Inv cfg s₀.lheader s₀ [] s)
    (hfree : s.cache.freeList ≠ []) (hf : Foreign cfg s₀ s)
    (hrun : Commit.writeLogHeader cfg s = .ok ((), u)) : Foreign cfg s₀ u := by
  have harea : Ours cfg s₀.lheader cfg.start := .inl (hlog.inArea (i := 0) (Nat.zero_le _))
  obtain ⟨b, t, d, hg, hrun'⟩ := header_run hlog h hfree
  have hu : u = _ := congrArg Prod.snd (Except.ok.inj (hrun.symm.trans hrun'))
  have hdata : Foreign cfg s₀ (Commit.withData t b (Commit.putHeader s.lheader (t.buf b).data)) := by
    apply (hf.read hg harea).withData
    rw [hg.cached.2]
    exact harea
  have hdisk : Foreign cfg s₀
      { Commit.withData t b (Commit.putHeader s.lheader (t.buf b).data) with disk := d } :=
    hdata.of_cache rfl
  have hback := hdisk.released (b := b) (by
    show Ours cfg s₀.lheader ((Commit.withData t b _).buf b).blockno
    rw [(Commit.withData_ident t b _ b).2.2.2, hg.cached.2]
    exact harea)
  rw [hu]
  exact hback

/-- **`write_log_header`** writes the header block, and nothing else. -/
theorem header_calls (hlog : LogState cfg s₀.lheader) (h : Inv cfg s₀.lheader s₀ [] s)
    (hfree : s.cache.freeList ≠ []) (hf : Foreign cfg s₀ s) (calls : List (Disk × Disk)) :
    ∃ u blk, writeLogHeader cfg ⟨s, calls⟩ =
        .ok ((), ⟨u, calls ++ [(s.disk, s.disk)] ++ [(s.disk, u.disk)]⟩) ∧
      u.disk = Function.update s.disk cfg.start (Commit.putHeader s.lheader blk) ∧
      Inv cfg s₀.lheader s₀ [] u ∧ u.lheader = s.lheader ∧ (∀ m, DirtyBlk u m → DirtyBlk s m) ∧
      Foreign cfg s₀ u := by
  obtain ⟨u, blk, hrun, hdisk⟩ := writeLogHeader_calls hlog h hfree calls
  have hplain := writeLogHeader_traces.run hrun
  change Commit.writeLogHeader cfg s = .ok ((), u) at hplain
  refine ⟨u, blk, hrun, hdisk, ?_⟩
  have hforeign := hf.header hlog h hfree hplain
  rcases Commit.writeLogHeader_spec hlog h with ⟨c, d, _, hrun', hinv, _, _, hdirty⟩ | ⟨_, hnone⟩
  · obtain rfl : u = { s with cache := c, disk := d } :=
      congrArg Prod.snd (Except.ok.inj (hplain.symm.trans hrun'))
    exact ⟨hinv, rfl, hdirty, hforeign⟩
  · exact absurd hnone hfree

/-! ## §3 The log blocks -/

/-- The transaction as `commit` finds it: `s₀` has the blocks `g`, and those that are not listed are on disk. -/
structure Ends (cfg : Config) (f : Nat → Block) (ws : List (Nat × Block)) (g : Nat → Block) (s₀ : Sys) : Prop where
  log : LogState cfg s₀.lheader
  now : ∀ m, ¬ InArea cfg m → contents cfg s₀ m = g m
  written : ∀ m, g m = f m ∨ (m, g m) ∈ ws
  rest : ∀ m, ¬ InArea cfg m → ¬ Lists s₀.lheader m → s₀.disk m = g m

theorem Ends.home (he : Ends cfg f ws g s₀) (hi : i < s₀.lheader.count) :
    contents cfg s₀ (s₀.lheader.home i) = g (s₀.lheader.home i) :=
  he.now _ (he.log.outside i hi)

theorem Ends.not_ours (hm : ¬ InArea cfg m) (hlists : ¬ Lists s₀.lheader m) : ¬ Ours cfg s₀.lheader m := by
  rintro (harea | ⟨i, hi, rfl⟩)
  · exact hm harea
  · exact hlists ⟨i, hi, rfl⟩

/-- When the home blocks are written, the disk has the blocks `g`. -/
theorem Ends.disk (he : Ends cfg f ws g s₀) {d : Disk}
    (hhome : ∀ i < s₀.lheader.count, d (s₀.lheader.home i) = contents cfg s₀ (s₀.lheader.home i))
    (hframe : ∀ m, ¬ Ours cfg s₀.lheader m → d m = s₀.disk m) : SameOutside cfg d g := by
  intro m hm
  by_cases hlists : Lists s₀.lheader m
  · obtain ⟨i, hi, rfl⟩ := hlists
    rw [hhome i hi]
    exact he.home hi
  · rw [hframe m (Ends.not_ours hm hlists)]
    exact he.rest m hm hlists

theorem Ends.pending (he : Ends cfg f ws g s₀) {d : Disk} (hnblks : (headerOf (d cfg.start)).nblks = 0)
    (hd : SameOutside cfg d g) : Pending cfg f ws d := by
  refine ⟨hnblks, fun m hm => ?_⟩
  rw [hd m hm]
  exact he.written m

/-- Before turn `i` of `write_log_blk`, with the buffers and the calls so far. -/
structure Copying (cfg : Config) (f : Nat → Block) (ws : List (Nat × Block)) (C : Disk × Disk → Prop)
    (s₀ : Sys) (i : Nat) (bs : List Nat) (t : Traced Sys Nat Block) : Prop where
  logged : Logged cfg s₀.lheader s₀ True i bs t.sys
  bufs : ∀ j < i, ∃ b ∈ bs, (t.sys.buf b).blockno = cfg.start + j + 1 ∧
    (t.sys.buf b).data = contents cfg s₀ (s₀.lheader.home j)
  foreign : Foreign cfg s₀ t.sys
  disk : Pending cfg f ws t.sys.disk
  calls : Calls C t.calls

theorem Foreign.turned {f : Nat} {bs : List Nat} {t₁ t₂ : Sys} (hf : Foreign cfg s₀ s)
    (hlog : LogState cfg s₀.lheader) (hi : i < s₀.lheader.count)
    (h : Turn cfg s₀.lheader s₀ i bs s b f t₁ t₂) : Foreign cfg s₀ (turned i b f t₂) := by
  have hlogBlk : Ours cfg s₀.lheader (cfg.start + i + 1) := .inl (hlog.inArea (i := i + 1) hi)
  have hhome : Ours cfg s₀.lheader (s₀.lheader.home i) := LogState.ours_home hi
  have hread := (hf.read h.got₁ hlogBlk).read h.got₂ hhome
  have hb : (t₂.buf b).blockno = cfg.start + i + 1 := by
    rw [(h.got₂.other b h.ne.symm).1, h.got₁.cached.2]
  have hdata : Foreign cfg s₀ (Commit.withData t₂ b (t₂.buf f).data) := hread.withData (hb.symm ▸ hlogBlk)
  apply (hdata.released _).of_cache rfl
  rw [(Commit.withData_ident t₂ b _ f).2.2.2, h.got₂.cached.2]
  exact hhome

/-- **One turn of `write_log_blk`** writes a log block, or a home block that the program has written. -/
theorem copyToLog_triple (he : Ends cfg f ws g s₀) (hC : ∀ c, BeforeHeader cfg f ws c → C c)
    (hi : i < s₀.lheader.count) (bs : List Nat) :
    Triple (Copying cfg f ws C s₀ i bs) (copyToLog cfg i)
      (fun b => Copying cfg f ws C s₀ (i + 1) (bs ++ [b])) (fun _ => False) := by
  rintro ⟨s, calls⟩ ⟨h, hbufs, hf, hdisk, hcalls⟩
  rcases Commit.copyToLog_run he.log hi h with ⟨b, f', t₁, t₂, hturn, hrun⟩ | ⟨_, hR⟩
  · rw [copyToLog_calls hturn h.lheader]
    have hnext := (Commit.copyToLog_triple he.log hi bs).of_ok h hrun
    have hlogBlk : InArea cfg (cfg.start + i + 1) := he.log.inArea (i := i + 1) hi
    have hstart : InArea cfg cfg.start := he.log.inArea (i := 0) (Nat.zero_le _)
    have hdisk₁ : Pending cfg f ws t₁.disk := by
      rw [hturn.got₁.disk]
      exact hdisk.update (fun heq => by omega) fun hout => absurd hlogBlk hout
    have hdisk₂ : Pending cfg f ws t₂.disk := by
      rw [hturn.got₂.disk]
      apply hdisk₁.update
      · intro heq
        exact absurd (heq ▸ hstart) (he.log.outside i hi)
      · intro _
        rw [hturn.inv₁.homes i hi, he.home hi]
        exact he.written _
    have hcalls₁ := hcalls.snoc (hC (s.disk, t₁.disk) fun e hhalf => hdisk.halfway hdisk₁ hhalf)
    have hcalls₂ := hcalls₁.snoc (hC (t₁.disk, t₂.disk) fun e hhalf => hdisk₁.halfway hdisk₂ hhalf)
    refine ⟨hnext, ?_, hf.turned he.log hi hturn, hdisk₂, hcalls₂⟩
    intro j hj
    by_cases hji : j = i
    · rw [hji]
      exact ⟨b, by simp, hturn.logBuf hi⟩
    · obtain ⟨b', hb', hblk, hdata⟩ := hbufs j (by omega)
      obtain ⟨hne, hnf, hsame⟩ := hturn.kept h hb'
      refine ⟨b', List.mem_append_left _ hb', ?_⟩
      show ((turned i b f' t₂).buf b').blockno = _ ∧ ((turned i b f' t₂).buf b').data = _
      rw [Commit.turned_buf hne hnf, hsame]
      exact ⟨hblk, hdata⟩
  · exact absurd trivial hR

/-- Between the parts of `commit`, with the calls so far. -/
structure Between (cfg : Config) (C : Disk × Disk → Prop) (s₀ : Sys) (D : Disk → Prop)
    (t : Traced Sys Nat Block) : Prop where
  copied : Copied cfg s₀.lheader s₀ True t.sys
  foreign : Foreign cfg s₀ t.sys
  disk : D t.sys.disk
  calls : Calls C t.calls

theorem Between.room {D : Disk → Prop} (h : Between cfg C s₀ D ⟨s, calls⟩) : s.cache.freeList ≠ [] := by
  intro hnil
  have hroom : s₀.lheader.count < s.cache.freeList.length := h.copied.room trivial
  rw [hnil] at hroom
  exact Nat.not_lt_zero _ hroom

/-- The home blocks are written when a part of `commit` is done. -/
theorem Between.homes {D : Disk → Prop} (h : Between cfg C s₀ D ⟨s, calls⟩) (he : Ends cfg f ws g s₀) :
    SameOutside cfg s.disk g := by
  apply he.disk
  · intro i hi
    exact (h.copied.inv.disk_eq he.log (LogState.ours_home hi) (h.copied.flushed i hi)).trans
      (h.copied.inv.homes i hi)
  · exact h.copied.inv.frame

/-- The log has the blocks, and its header does not list them yet. -/
structure Filled₀ (cfg : Config) (lh : LogHeader) (g : Nat → Block) (d : Disk) : Prop where
  nblks : (headerOf (d cfg.start)).nblks = 0
  blocks : ∀ i < lh.count, d (cfg.start + i + 1) = g (lh.home i)

/-- **`write_log_blk`** fills the log. -/
theorem writeLogBlk_triple (he : Ends cfg f ws g s₀) (hC : ∀ c, BeforeHeader cfg f ws c → C c) :
    Triple (Copying cfg f ws C s₀ 0 []) (writeLogBlk cfg)
      (fun _ => Between cfg C s₀ (Filled₀ cfg s₀.lheader g)) (fun _ => False) := by
  apply Triple.look
  intro t ht
  rw [ht.logged.lheader]
  apply (forBlocks_triple (I := Copying cfg f ws C s₀) fun i hi bs => copyToLog_triple he hC hi bs).seq
  rintro bs ⟨s, calls⟩ ⟨h, hbufs, hf, hd, hcalls⟩
  change Logged cfg s₀.lheader s₀ True s₀.lheader.count bs s at h
  obtain ⟨c, d, hrun, hinv, hlen, hdirty, hforeign, hdisk, hrest⟩ := batch_calls he.log h.inv h.nodup hf calls
  -- the buffers of the batch are those of the log blocks
  have hbatch : ∀ b ∈ bs, InArea cfg (s.buf b).blockno ∧ (s.buf b).blockno ≠ cfg.start := by
    intro b hb
    obtain ⟨h₁, h₂⟩ := h.bufs b hb
    have hlt := he.log.count_lt
    exact ⟨⟨by omega, by omega⟩, by omega⟩
  have hheader : d cfg.start = s.disk cfg.start := hrest _ fun b hb => (hbatch b hb).2
  have hpending : Pending cfg f ws d := by
    apply hd.congr hheader
    intro m hm
    exact hrest m fun b hb heq => hm (heq ▸ (hbatch b hb).1)
  rw [hrun]
  refine ⟨⟨hinv, h.lheader, h.copies, fun j hj hdj => h.flushed j hj ((hdirty _).1 hdj), fun hR => ?_⟩,
    hforeign, ⟨hpending.nblks, ?_⟩, hcalls.snoc (hC _ fun e hhalf => hd.halfway hpending hhalf)⟩
  · have hroom := h.room hR
    have hle := Commit.dirtyFrom_le s₀.lheader s s₀.lheader.count
    have hlength := h.length
    show s₀.lheader.count < c.freeList.length
    omega
  · intro j hj
    obtain ⟨b, hb, hblk, hdata⟩ := hbufs j hj
    rw [← he.home hj, ← hdata, ← hdisk b hb, hblk]

/-! ## §4 The header and the home blocks -/

/-- **The header is written**: from now on recovery installs the transaction. -/
theorem writeLogHeader_triple (he : Ends cfg f ws g s₀) (hC : ∀ c, Good cfg f ws g c → C c) :
    Triple (Between cfg C s₀ (Filled₀ cfg s₀.lheader g)) (writeLogHeader cfg)
      (fun _ => Between cfg C s₀ (Decided cfg s₀.lheader g)) (fun _ => False) := by
  rintro ⟨s, calls⟩ h
  have hinv : Inv cfg s₀.lheader s₀ [] s := h.copied.inv
  obtain ⟨u, blk, hrun, hdisk, _, _, _, hforeign⟩ := header_calls he.log hinv h.room h.foreign calls
  have hcopied : Copied cfg s₀.lheader s₀ True u :=
    (Commit.writeLogHeader_triple he.log).of_ok h.copied (writeLogHeader_traces.run hrun)
  have hsame : SameOutside cfg s.disk g := h.homes he
  have hheader : s.lheader = s₀.lheader := h.copied.lheader
  rw [hheader] at hdisk
  obtain ⟨hnblks, hhome⟩ := putHeader_spec s₀.lheader blk
  have hstart : InArea cfg cfg.start := he.log.inArea (i := 0) (Nat.zero_le _)
  have hdecided : Decided cfg s₀.lheader g u.disk := by
    refine ⟨he.log, ?_, ?_, ?_, ?_⟩
    · rw [hdisk, Function.update_self]
      exact hnblks
    · rw [hdisk, Function.update_self]
      exact hhome
    · intro i hi
      rw [hdisk, Function.update_of_ne (by omega)]
      exact h.disk.blocks i hi
    · intro m hm _
      rw [hdisk, Function.update_of_ne (ne_of_outside hstart hm)]
      exact hsame m hm
  have hbefore : Pending cfg f ws s.disk := he.pending h.disk.nblks hsame
  rw [hrun]
  refine ⟨hcopied, hforeign, hdecided, ?_⟩
  -- one block is written, so the crash comes before or after the header
  apply (h.calls.snoc (hC (s.disk, s.disk) fun e hhalf => .inl (hbefore.halfway hbefore hhalf))).snoc
  apply hC
  intro e hhalf
  have hhalf : Halfway s.disk u.disk e := hhalf
  rw [hdisk] at hhalf
  rcases hhalf.of_update with heq | heq
  · rw [heq]
    exact .inl hbefore
  · rw [heq, ← hdisk]
    exact .inr ⟨_, hdecided⟩

/-- Before turn `i` of `keep_consistent_on_disk`, with the calls so far. -/
structure Filling (cfg : Config) (g : Nat → Block) (C : Disk × Disk → Prop) (s₀ : Sys) (i : Nat) (bs : List Nat)
    (t : Traced Sys Nat Block) : Prop where
  filled : Filled cfg s₀.lheader s₀ True i bs t.sys
  foreign : Foreign cfg s₀ t.sys
  disk : Decided cfg s₀.lheader g t.sys.disk
  calls : Calls C t.calls

/-- **One turn of `keep_consistent_on_disk`** leaves the log alone. -/
theorem copyHome_triple (he : Ends cfg f ws g s₀) (hC : ∀ c, Good cfg f ws g c → C c)
    (hi : i < s₀.lheader.count) (bs : List Nat) :
    Triple (Filling cfg g C s₀ i bs) (copyHome cfg i)
      (fun b => Filling cfg g C s₀ (i + 1) (bs ++ [b])) (fun _ => False) := by
  rintro ⟨s, calls⟩ ⟨h, hf, hd, hcalls⟩
  obtain ⟨b, t, hread, hgot⟩ := (Filled.read he.log hi h).resolve_right fun hwait => hwait.2 trivial
  have hheader : s.lheader = s₀.lheader := h.lheader
  have hcall : io (Commit.bread cfg (s₀.lheader.home i)) ⟨s, calls⟩ = _ := traced_eq hread calls
  have hrun : copyHome cfg i ⟨s, calls⟩ =
      .ok (b, ⟨Commit.withData t b (s.bufPtrs i), calls ++ [(s.disk, t.disk)]⟩) := by
    show (io (Commit.bread cfg (s.lheader.home i)) >>= fun b =>
      quiet (Commit.setData b (s.bufPtrs i)) >>= fun _ => pure b) _ = _
    rw [hheader, run_bind_of_ok hcall]
    rfl
  have hnext := (Commit.copyHome_triple he.log hi bs).of_ok h ((copyHome_traces i).run hrun)
  have hhome : Ours cfg s₀.lheader (s₀.lheader.home i) := LogState.ours_home hi
  have hsame : ∀ m, InArea cfg m ∨ ¬ Lists s₀.lheader m → t.disk m = s.disk m := by
    intro m hm
    rw [hgot.disk, Function.update_of_ne]
    rintro rfl
    rcases hm with harea | hnot
    · exact he.log.outside i hi harea
    · exact hnot ⟨i, hi, rfl⟩
  rw [hrun]
  refine ⟨hnext, (hf.read hgot hhome).withData ?_, hd.halfway hsame (Halfway.after _ _), ?_⟩
  · rw [hgot.cached.2]
    exact hhome
  · exact hcalls.snoc (hC _ fun e hhalf => .inr ⟨_, hd.halfway hsame hhalf⟩)

/-- **`keep_consistent_on_disk(0)`** leaves the log alone. -/
theorem keepConsistentOnDisk_triple (he : Ends cfg f ws g s₀) (hC : ∀ c, Good cfg f ws g c → C c) :
    Triple (Between cfg C s₀ (Decided cfg s₀.lheader g)) (keepConsistentOnDisk cfg)
      (fun _ => Between cfg C s₀ (Decided cfg s₀.lheader g)) (fun _ => False) := by
  apply Triple.look
  intro t ht
  have hpos : t.sys.lheader.nblks ≠ 0 := by
    intro hzero
    have hpos := he.log.pos
    rw [← ht.copied.lheader, hzero] at hpos
    exact absurd hpos (by decide)
  rw [if_neg hpos, ht.copied.lheader]
  apply Triple.pre (P := Filling cfg g C s₀ 0 [])
  · apply (forBlocks_triple (I := Filling cfg g C s₀) fun i hi bs => copyHome_triple he hC hi bs).seq
    rintro bs ⟨s, calls⟩ ⟨h, hf, hd, hcalls⟩
    change Filled cfg s₀.lheader s₀ True s₀.lheader.count bs s at h
    obtain ⟨c, d, hrun, hinv, hlen, hdirty, hforeign, _, hrest⟩ := batch_calls he.log h.inv h.nodup hf calls
    -- the batch consists of home blocks
    have hsame : ∀ m, InArea cfg m ∨ ¬ Lists s₀.lheader m → d m = s.disk m := by
      intro m hm
      apply hrest
      rintro b hb rfl
      obtain ⟨j, hj, hblk⟩ := h.bufs b hb
      rw [hblk] at hm
      rcases hm with harea | hnot
      · exact he.log.outside j hj harea
      · exact hnot ⟨j, hj, rfl⟩
    rw [hrun]
    refine ⟨⟨hinv, h.lheader, h.copies, fun j hj hdj => h.flushed j hj ((hdirty _).1 hdj), fun hR => ?_⟩,
      hforeign, hd.halfway hsame (Halfway.after _ _), ?_⟩
    · have hroom := h.room hR
      have hlength := h.length
      show s₀.lheader.count < c.freeList.length
      omega
    · exact hcalls.snoc (hC _ fun e hhalf => .inr ⟨_, hd.halfway hsame hhalf⟩)
  · rintro t ⟨h, hf, hd, hcalls⟩
    refine ⟨⟨h.inv, h.lheader, List.nodup_nil, rfl, by simp, h.copies, h.flushed, ?_⟩, hf, hd, hcalls⟩
    exact fun hR => h.room hR

/-- A header that lists nothing. -/
theorem listed_of_zero (harea : Area cfg) (h : lh.nblks = 0) : Listed cfg lh := by
  have hnone : ∀ i, ¬ i < lh.count := by
    intro i hi
    rw [LogHeader.count, h] at hi
    exact Nat.not_lt_zero i hi
  have hpos := harea.pos
  refine ⟨?_, ?_, ?_, ?_, ?_⟩
  · rw [h]
    exact le_rfl
  · rw [h]
    show (0 : Int) ≤ _
    omega
  all_goals exact fun i hi => absurd hi (hnone i)

/-- **After a commit nothing is held or dirty**: the buffers of listed blocks are written, the others are as
    before. -/
theorem idle_of_copied (harea : Area cfg) (hidle : Idle cfg s₀)
    (hinv : Inv cfg s₀.lheader s₀ [] u) (hf : Foreign cfg s₀ u) (hnblks : u.lheader.nblks = 0)
    (hflushed : ∀ j < s₀.lheader.count, ¬ DirtyBlk u (s₀.lheader.home j)) : Idle cfg u where
  cache := hinv.cache
  settled := by
    intro b hb
    by_cases ho : Ours cfg s₀.lheader (u.buf b).blockno
    · exact hinv.settled b hb ho List.not_mem_nil
    · obtain ⟨hhash, hbuf⟩ := hf b hb ho
      have hsettled := hidle.settled b hhash
      unfold Settled
      rw [hinv.frame _ ho, hbuf]
      exact hsettled
  dirty := by
    rintro m ⟨b, hb, hd⟩
    exfalso
    by_cases ho : Ours cfg s₀.lheader m
    · rcases ho with hm | ⟨j, hj, rfl⟩
      · exact hinv.logClean m hm ⟨b, hb, hd⟩
      · exact hflushed j hj ⟨b, hb, hd⟩
    · obtain ⟨hhash, hbuf⟩ := hf b hb.1 (hb.2.symm ▸ ho)
      obtain ⟨j, hj, hhome⟩ := hidle.dirty m ⟨b, ⟨hhash, hbuf ▸ hb.2⟩, hbuf ▸ hd⟩
      exact ho (.inr ⟨j, hj, hhome.symm⟩)
  log := listed_of_zero harea hnblks

/-- **The log is emptied**, and the store is at rest. -/
theorem eraseLog_triple (harea : Area cfg) (hidle : Idle cfg s₀) (he : Ends cfg f ws g s₀)
    (hC : ∀ c, Good cfg f ws g c → C c) :
    Triple (Between cfg C s₀ (Decided cfg s₀.lheader g))
      (quiet (modify fun t => { t with lheader := { t.lheader with nblks := 0 } }) >>= fun _ =>
        writeLogHeader cfg)
      (fun _ t => Rest cfg g t.sys ∧ Calls C t.calls) (fun _ => False) := by
  rintro ⟨s, calls⟩ h
  have hinv : Inv cfg s₀.lheader s₀ [] { s with lheader := { s.lheader with nblks := 0 } } :=
    h.copied.inv.of_eq rfl rfl
  have hforeign : Foreign cfg s₀ { s with lheader := { s.lheader with nblks := 0 } } := h.foreign.of_cache rfl
  obtain ⟨u, blk, hrun, hdisk, hinv', hheader, hdirty, hforeign'⟩ :=
    header_calls he.log hinv h.room hforeign calls
  have hset : quiet (modify fun t => { t with lheader := { t.lheader with nblks := 0 } }) ⟨s, calls⟩ =
      .ok (⟨⟩, ⟨{ s with lheader := { s.lheader with nblks := 0 } }, calls⟩) := untraced_eq rfl _
  have hnblks : u.lheader.nblks = 0 := by
    rw [hheader]
  have hempty : (headerOf (u.disk cfg.start)).nblks = 0 := by
    rw [hdisk, Function.update_self]
    rfl
  have hsame : SameOutside cfg u.disk g := by
    intro m hm
    rw [hdisk, Function.update_of_ne (ne_of_outside harea.start hm)]
    exact h.homes he m hm
  have hafter : Pending cfg f ws u.disk := he.pending hempty hsame
  rw [run_bind_of_ok hset, hrun]
  refine ⟨⟨idle_of_copied harea hidle hinv' hforeign' hnblks ?_, hnblks, hempty, hsame⟩, ?_⟩
  · intro j hj hd
    exact h.copied.flushed j hj (hdirty _ hd)
  · have hdecided : Decided cfg s₀.lheader g s.disk := h.disk
    apply (h.calls.snoc (hC (s.disk, s.disk)
      fun e hhalf => .inr ⟨_, hdecided.halfway (fun _ _ => rfl) hhalf⟩)).snoc
    apply hC
    intro e hhalf
    have hhalf : Halfway s.disk u.disk e := hhalf
    rw [hdisk] at hhalf
    rcases hhalf.of_update with heq | heq
    · rw [heq]
      exact .inr ⟨_, hdecided⟩
    · rw [heq]
      exact .inl (hdisk ▸ hafter)

/-- **The commit** of a transaction that has passed blocks. -/
theorem commit_spec (harea : Area cfg) (hidle : Idle cfg s) (he : Ends cfg f ws g s)
    (hpending : Pending cfg f ws s.disk) (hC : ∀ c, Good cfg f ws g c → C c) (hcalls : Calls C calls) :
    ∃ t, commit cfg ⟨s, calls⟩ = .ok ((), t) ∧ Rest cfg g t.sys ∧ Calls C t.calls := by
  have hparts : Triple (Copying cfg f ws C s 0 []) (writeLogBlk cfg >>= fun _ =>
      writeLogHeader cfg >>= fun _ => keepConsistentOnDisk cfg >>= fun _ =>
      quiet (modify fun t => { t with lheader := { t.lheader with nblks := 0 } }) >>= fun _ =>
        writeLogHeader cfg) (fun _ t => Rest cfg g t.sys ∧ Calls C t.calls) (fun _ => False) :=
    (writeLogBlk_triple he fun c hc => hC c hc.good).seq fun _ => (writeLogHeader_triple he hC).seq fun _ =>
      (keepConsistentOnDisk_triple he hC).seq fun _ => eraseLog_triple harea hidle he hC
  have hcommit : commit cfg ⟨s, calls⟩ = (writeLogBlk cfg >>= fun _ => writeLogHeader cfg >>= fun _ =>
      keepConsistentOnDisk cfg >>= fun _ =>
      quiet (modify fun t => { t with lheader := { t.lheader with nblks := 0 } }) >>= fun _ =>
        writeLogHeader cfg) ⟨s, calls⟩ := by
    unfold commit
    show (if 0 < s.lheader.nblks.toInt then _ else _ : T Unit) _ = _
    rw [if_pos he.log.pos]
  have hstart : Copying cfg f ws C s 0 [] ⟨s, calls⟩ := by
    refine ⟨⟨hidle.ready.inv, rfl, List.nodup_nil, rfl, by simp, by simp, by simp, ?_⟩, by simp, ?_, hpending,
      hcalls⟩
    · intro _
      exact (Nat.sub_zero _).symm ▸ Commit.room_of_alone he.log hidle.ready hidle.alone
    · exact fun b hb _ => ⟨hb, rfl⟩
  have hres := hparts _ hstart
  rw [← hcommit] at hres
  cases hrun : commit cfg ⟨s, calls⟩ with
  | error e =>
    rw [hrun] at hres
    exact hres.elim
  | ok r =>
    rw [hrun] at hres
    exact ⟨r.2, rfl, hres⟩

/-! ## §5 Runs -/

/-- At rest, a transaction begins. -/
theorem Rest.open (harea : Area cfg) (h : Rest cfg f s) : Open cfg f ws f ∅ s := by
  have hcount : s.lheader.count = 0 := by
    rw [LogHeader.count, h.nblks]
    rfl
  have hnone : ∀ m, ¬ Lists s.lheader m := by
    rintro m ⟨i, hi, _⟩
    rw [hcount] at hi
    exact Nat.not_lt_zero i hi
  refine ⟨h.idle, fun m => iff_of_false (hnone m) (Finset.notMem_empty m), hcount.le, ?_, fun m => .inl rfl,
    h.header, fun m hm => .inl (h.disk m hm)⟩
  intro m hm
  rw [h.idle.contents_disk harea fun hd => hnone m (h.idle.dirty m hd)]
  exact h.disk m hm

/-- **A transaction** returns what the program returns over the map, and leaves its blocks; no crash within it
    leaves a disk that recovery cannot deal with. -/
theorem transaction_spec (harea : Area cfg) (h : Rest cfg f s) {p : Prog α} (hfits : Fits cfg p f ∅)
    (hC : ∀ c, Good cfg f (p.writes f) (p.eval f).2 c → C c) (hcalls : Calls C calls) :
    ∃ t, transaction cfg p ⟨s, calls⟩ = .ok ((p.eval f).1, t) ∧ Rest cfg (p.eval f).2 t.sys ∧
      Calls C t.calls := by
  obtain ⟨u, calls₁, W, hrun, ho, hcalls⟩ :=
    (h.open harea).exec harea (fun c hc => hC c hc.good) p hfits (fun _ hw => hw) hcalls
  have hrun' : ∀ t, commit cfg ⟨u, calls₁⟩ = .ok ((), t) →
      transaction cfg p ⟨s, calls⟩ = .ok ((p.eval f).1, t) := by
    intro t ht
    show (exec cfg p >>= fun a => commit cfg >>= fun _ => pure a) _ = _
    rw [run_bind_of_ok hrun, run_bind_of_ok ht]
    rfl
  by_cases hnblks : u.lheader.nblks = 0
  · -- nothing is logged, so all blocks are on disk
    have hcommit : commit cfg ⟨u, calls₁⟩ = .ok ((), ⟨u, calls₁⟩) := by
      unfold commit
      show (if 0 < u.lheader.nblks.toInt then _ else _ : T Unit) _ = _
      rw [hnblks, if_neg (by decide)]
      rfl
    refine ⟨⟨u, calls₁⟩, hrun' _ hcommit, ⟨ho.idle, hnblks, ho.disk.nblks, ?_⟩, hcalls⟩
    intro m hm
    rw [← ho.contents m hm, ho.idle.contents_disk harea]
    intro hd
    obtain ⟨i, hi, _⟩ := ho.idle.dirty m hd
    rw [LogHeader.count, hnblks] at hi
    exact absurd hi (Nat.not_lt_zero _)
  · have he : Ends cfg f (p.writes f) (p.eval f).2 u := by
      refine ⟨ho.idle.log.logState harea hnblks, ho.contents, ho.written, ?_⟩
      intro m hm hlists
      rw [← ho.contents m hm, ho.idle.contents_disk harea fun hd => hlists (ho.idle.dirty m hd)]
    obtain ⟨t, hcommit, hrest, hcalls⟩ := commit_spec harea ho.idle he ho.disk hC hcalls
    exact ⟨t, hrun' t hcommit, hrest, hcalls⟩

/-- **Run lemma**: every transaction of a run finds the store at rest. -/
theorem run_spec (harea : Area cfg) {ps : List (Prog α)} (h : Rest cfg f s) (hfit : AllFit cfg ps f)
    (hC : ∀ pre p post, ps = pre ++ p :: post → ∀ c, Good cfg (MapProg.evalAll pre f).2
      (p.writes (MapProg.evalAll pre f).2) (p.eval (MapProg.evalAll pre f).2).2 c → C c)
    (hcalls : Calls C calls) :
    ∃ t, run cfg ps ⟨s, calls⟩ = .ok ((MapProg.evalAll ps f).1, t) ∧ Rest cfg (MapProg.evalAll ps f).2 t.sys ∧
      Calls C t.calls := by
  induction ps generalizing f s calls with
  | nil => exact ⟨⟨s, calls⟩, rfl, h, hcalls⟩
  | cons p ps ih =>
    obtain ⟨⟨t, calls₁⟩, hrun, hrest, hcalls⟩ :=
      transaction_spec harea h hfit.1 (hC [] p ps rfl) hcalls
    -- what is asked of a later transaction is asked after the first one has run
    have hC' : ∀ pre q post, ps = pre ++ q :: post → ∀ c, Good cfg (MapProg.evalAll pre (p.eval f).2).2
        (q.writes (MapProg.evalAll pre (p.eval f).2).2) (q.eval (MapProg.evalAll pre (p.eval f).2).2).2 c →
          C c := by
      intro pre q post hps
      exact hC (p :: pre) q post (by rw [hps, List.cons_append])
    obtain ⟨u, hruns, hrest', hcalls'⟩ := ih hrest hfit.2 hC' hcalls
    refine ⟨u, ?_, hrest', hcalls'⟩
    show (transaction cfg p >>= fun a => run cfg ps >>= fun as => pure (a :: as)) _ = _
    rw [run_bind_of_ok hrun, run_bind_of_ok hruns]
    rfl

/-- **The store refines a map of blocks**: a run of transactions, however many there are and whatever they
    choose by what they have read, returns what it returns over the map, and leaves the map on the disk. -/
theorem run_refines (harea : Area cfg) {ps : List (Prog α)} (h : Rest cfg f s) (hfit : AllFit cfg ps f) :
    ∃ t, run cfg ps ⟨s, []⟩ = .ok ((MapProg.evalAll ps f).1, t) ∧
      Rest cfg (MapProg.evalAll ps f).2 t.sys := by
  have hnone : Calls (fun _ => True) [] := fun c hc => absurd hc List.not_mem_nil
  obtain ⟨t, hrun, hrest, _⟩ := run_spec harea h hfit (fun _ _ _ _ _ _ => trivial) hnone
  exact ⟨t, hrun, hrest⟩

/-- Block 200 gets new data, and the next transaction copies it to block 300. -/
def copyRun : List (Prog Block) :=
  [.write 200 (fun _ => 1) (.done fun _ => 0),
    .read 200 fun data => .write 300 data (.read 300 fun copy => .done copy)]

theorem copyRun_fits (f : Nat → Block) : AllFit Commit.mkfsLog copyRun f := by
  have hout : ∀ n, 200 ≤ n → ¬ InArea Commit.mkfsLog n := by
    rintro n hn ⟨_, hlt⟩
    have hend : Commit.mkfsLog.start + Commit.mkfsLog.size = 122 := rfl
    omega
  refine ⟨⟨by decide, hout 200 le_rfl, by decide, trivial⟩, ?_, trivial⟩
  exact ⟨by decide, hout 200 le_rfl, by decide, hout 300 (by decide), by decide, by decide,
    hout 300 (by decide), trivial⟩

theorem booted_rest : Rest Commit.mkfsLog booted.disk booted :=
  ⟨booted_idle, rfl, rfl, fun _ _ => rfl⟩

/-- The copy is what was written. -/
theorem run_refines_copyRun : ∃ t, run Commit.mkfsLog copyRun ⟨booted, []⟩ =
      .ok ([(fun _ => 0 : Block), fun _ => 1], t) ∧
    Rest Commit.mkfsLog (MapProg.evalAll copyRun booted.disk).2 t.sys := by
  have hreads : (MapProg.evalAll copyRun booted.disk).1 = [(fun _ => 0 : Block), fun _ => 1] := by
    simp [copyRun, MapProg.evalAll, MapProg.eval]
  obtain ⟨t, hrun, hrest⟩ := run_refines mkfsLog_area booted_rest (copyRun_fits _)
  rw [hreads] at hrun
  exact ⟨t, hrun, hrest⟩

/-! ## §6 Crashes within a run -/

/-- What is left of a transaction over the blocks `f` that was cut off: each block is as before or as written; and
    if it changes one block, it is there as a whole or not at all. -/
structure CutOff (cfg : Config) (p : Prog α) (f : Nat → Block) (d : Disk) : Prop where
  blocks : ∀ m, ¬ InArea cfg m → d m = f m ∨ (m, d m) ∈ p.writes f
  atomic : p.OneChange f → SameOutside cfg d f ∨ SameOutside cfg d (p.eval f).2

/-- What is left of a run: the first transactions, and what is left of the next one. -/
def Survives (cfg : Config) (ps : List (Prog α)) (f : Nat → Block) (d : Disk) : Prop :=
  SameOutside cfg d f ∨
    ∃ pre p post, ps = pre ++ p :: post ∧ CutOff cfg p (MapProg.evalAll pre f).2 d

theorem CutOff.of_blocks {p : Prog α} {d : Disk}
    (h : ∀ m, ¬ InArea cfg m → d m = f m ∨ (m, d m) ∈ p.writes f) : CutOff cfg p f d := by
  classical
  refine ⟨h, fun hone => ?_⟩
  -- the log area is no block of the program
  have hbetween : p.Between f fun m => if InArea cfg m then f m else d m := by
    intro m
    by_cases hm : InArea cfg m
    · exact .inl (if_pos hm)
    · show (if InArea cfg m then f m else d m) = f m ∨ (m, if InArea cfg m then f m else d m) ∈ _
      rw [if_neg hm]
      exact h m hm
  rcases hbetween.eq_of_one hone with heq | heq
  · left
    intro m hm
    rw [← congrFun heq m, if_neg hm]
  · right
    intro m hm
    rw [← congrFun heq m, if_neg hm]

theorem CutOff.of_recovers (harea : Area cfg) {p : Prog α} {e d : Disk}
    (h : Recoverable cfg f (p.writes f) (p.eval f).2 e) (hrec : Recovers cfg e d) :
    (headerOf (d cfg.start)).nblks = 0 ∧ CutOff cfg p f d := by
  obtain ⟨hnblks, hblocks | hnew⟩ := h.recovers harea hrec
  · exact ⟨hnblks, .of_blocks hblocks⟩
  · refine ⟨hnblks, .of_blocks fun m hm => ?_⟩
    rw [hnew m hm]
    exact p.eval_cases f m

/-- **Durability**: a crash anywhere in a run, also one followed by crashes of the recovery, leaves what some first
    transactions make of the blocks, and of the next one what is left of it. -/
theorem run_durable (harea : Area cfg) {ps : List (Prog α)} (h : Rest cfg f s) (hfit : AllFit cfg ps f) :
    ∃ as t, run cfg ps ⟨s, []⟩ = .ok (as, t) ∧ ∀ e, CrashPoint s.disk t.calls e →
      (∃ d, Recovers cfg e d) ∧
        ∀ d, Recovers cfg e d → (headerOf (d cfg.start)).nblks = 0 ∧ Survives cfg ps f d := by
  have hnone : Calls (fun c => ∃ pre p post, ps = pre ++ p :: post ∧
      Good cfg (MapProg.evalAll pre f).2 (p.writes (MapProg.evalAll pre f).2)
        (p.eval (MapProg.evalAll pre f).2).2 c) [] := fun c hc => absurd hc List.not_mem_nil
  obtain ⟨t, hrun, _, hcalls⟩ := run_spec harea h hfit
    (fun pre p post hps c hc => ⟨pre, p, post, hps, hc⟩) hnone
  refine ⟨_, t, hrun, ?_⟩
  rintro e (rfl | ⟨c, hc, hhalf⟩)
  · -- before the first call
    have hstart : Recoverable cfg f ([] : List (Nat × Block)) f s.disk :=
      .inl ⟨h.header, fun m hm => .inl (h.disk m hm)⟩
    refine ⟨hstart.recovers_once harea, fun d hd => ?_⟩
    obtain ⟨hnblks, hblocks | hsame⟩ := hstart.recovers harea hd
    · exact ⟨hnblks, .inl fun m hm => (hblocks m hm).resolve_right List.not_mem_nil⟩
    · exact ⟨hnblks, .inl hsame⟩
  · obtain ⟨pre, p, post, hps, hgood⟩ := hcalls c hc
    have hrecoverable := hgood e hhalf
    refine ⟨hrecoverable.recovers_once harea, fun d hd => ?_⟩
    obtain ⟨hnblks, hcut⟩ := CutOff.of_recovers harea hrecoverable hd
    exact ⟨hnblks, .inr ⟨pre, p, post, hps, hcut⟩⟩

theorem run_durable_copyRun : ∃ as t, run Commit.mkfsLog copyRun ⟨booted, []⟩ = .ok (as, t) ∧
    ∀ e, CrashPoint booted.disk t.calls e → (∃ d, Recovers Commit.mkfsLog e d) ∧
      ∀ d, Recovers Commit.mkfsLog e d → (headerOf (d Commit.mkfsLog.start)).nblks = 0 ∧
        Survives Commit.mkfsLog copyRun booted.disk d :=
  run_durable mkfsLog_area booted_rest (copyRun_fits _)

/-! ## §7 Any number of boots -/

/-- Boots one after the other: each runs some transactions from an empty or any other cache that is in order, and
    crashes somewhere in them. -/
inductive Boots (cfg : Config) : Disk → List (List (Prog α)) → Disk → Prop
  | none (d : Disk) : Boots cfg d [] d
  | boot {s : Sys} {ps : List (Prog α)} {as : List α} {t : Traced Sys Nat Block} {e d d' : Disk}
      {lives : List (List (Prog α))} (hidle : Idle cfg s) (hnblks : s.lheader.nblks = 0)
      (hrun : run cfg ps ⟨s, []⟩ = .ok (as, t)) (hcrash : CrashPoint s.disk t.calls e)
      (hrec : Recovers cfg e d) (hrest : Boots cfg d lives d') : Boots cfg s.disk (ps :: lives) d'

/-- The same over the blocks: each boot runs into some blocks that its transactions can leave. -/
inductive MapBoots (cfg : Config) : (Nat → Block) → List (List (Prog α)) → (Nat → Block) → Prop
  | none (f : Nat → Block) : MapBoots cfg f [] f
  | boot {f g h : Nat → Block} {ps : List (Prog α)} {lives : List (List (Prog α))} (hleft : Survives cfg ps f g)
      (hrest : MapBoots cfg g lives h) : MapBoots cfg f (ps :: lives) h

/-- **Any number of boots and crashes** leave the blocks as the transactions, cut off at each crash, leave a map
    of blocks. -/
theorem boots_refine (harea : Area cfg) {lives : List (List (Prog α))} {d d' : Disk}
    (hfit : ∀ ps ∈ lives, ∀ f, AllFit cfg ps f) (hempty : (headerOf (d cfg.start)).nblks = 0)
    (h : Boots cfg d lives d') : MapBoots cfg d lives d' ∧ (headerOf (d' cfg.start)).nblks = 0 := by
  induction h with
  | none d => exact ⟨.none d, hempty⟩
  | @boot s ps as t e d d' lives hidle hnblks hrun hcrash hrec hrest ih =>
    have hstart : Rest cfg s.disk s := ⟨hidle, hnblks, hempty, fun _ _ => rfl⟩
    obtain ⟨as', t', hrun', hcuts⟩ := run_durable harea hstart (hfit ps List.mem_cons_self s.disk)
    obtain ⟨rfl, rfl⟩ : as = as' ∧ t = t' := Prod.mk.inj (Except.ok.inj (hrun.symm.trans hrun'))
    -- recovery leaves an empty log, with which the next boot begins
    obtain ⟨hnblks', hleft⟩ := (hcuts e hcrash).2 d hrec
    obtain ⟨hboots, hend⟩ := ih (fun qs hqs => hfit qs (List.mem_cons_of_mem _ hqs)) hnblks'
    exact ⟨.boot hleft hboots, hend⟩

/-- One boot, which crashes before its first call. -/
theorem boots_refine_copyRun : ∃ d, MapBoots Commit.mkfsLog booted.disk [copyRun] d ∧
    (headerOf (d Commit.mkfsLog.start)).nblks = 0 := by
  have hnone : Calls (fun _ => True) [] := fun c hc => absurd hc List.not_mem_nil
  obtain ⟨t, hrun, _⟩ := run_spec mkfsLog_area booted_rest (copyRun_fits booted.disk)
    (fun _ _ _ _ _ _ => trivial) hnone
  have hstart : Recoverable Commit.mkfsLog booted.disk [] booted.disk booted.disk :=
    .inl ⟨rfl, fun _ _ => .inl rfl⟩
  obtain ⟨d, hd⟩ := hstart.recovers_once mkfsLog_area
  have hboots : Boots Commit.mkfsLog booted.disk [copyRun] d :=
    .boot booted_idle rfl hrun (.inl rfl) hd (.none d)
  refine ⟨d, boots_refine mkfsLog_area ?_ rfl hboots⟩
  intro ps hps f
  rw [List.mem_singleton.1 hps]
  exact copyRun_fits f

end WeiOS.BlockStore
