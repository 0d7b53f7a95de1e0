import Mathlib
import WeiOS.Fs.CommitModel

/-!
# Buffers Held by a Commit

What holds between any two calls of `commit`: the cache is in order, the buffers that `commit` holds have
their data, and every logged block has the contents it had at first, in its buffer or on disk. Each call
of `kern/bio.c` that `commit` makes keeps it.

## Main results
- `Got.inv`, `Inv.withData`, `Inv.flush`, `Inv.released`: the invariant over each call.
- `bwriteDozens_spec`, `brelseDozens_spec`: a batch is written and given back.
-/

namespace WeiOS.Commit

open WeiOS.Lib Ide Bio
open WeiOS.Recovery (Block Disk LogHeader headerOf)

variable {cfg : Config} {s t : Sys} {n m b : Nat}

/-! ## §1 The log and its blocks -/

/-- A block of the log area. -/
def InArea (cfg : Config) (m : Nat) : Prop := cfg.start ≤ m ∧ m < cfg.start + cfg.size

/-- A block of the log area or a logged home block. -/
def Ours (cfg : Config) (lh : LogHeader) (m : Nat) : Prop :=
  InArea cfg m ∨ ∃ i < lh.count, m = lh.home i

/-- The log manager on its disk: at least one and at most `size - 1` distinct home blocks of the disk,
    outside the log area, which is as large as `mkfs` makes it, at most `LOGSIZE`. -/
structure LogState (cfg : Config) (lh : LogHeader) : Prop where
  dev : cfg.dev ≠ 0
  diskExists : cfg.slaveDiskExisted = true
  area : cfg.start + cfg.size ≤ FSSIZE
  size : cfg.size ≤ Log.LOGSIZE
  pos : 0 < lh.nblks.toInt
  count : lh.nblks.toInt ≤ (cfg.size : Int) - 1
  onDisk : ∀ i < lh.count, lh.home i < FSSIZE
  outside : ∀ i < lh.count, ¬ InArea cfg (lh.home i)
  distinct : ∀ i < lh.count, ∀ j < lh.count, lh.home i = lh.home j → i = j

variable {lh : LogHeader} {s₀ : Sys} {held : List Nat} {i : Nat}

theorem LogState.count_lt (hlog : LogState cfg lh) : lh.count < cfg.size := by
  have hpos := hlog.pos
  have hcount := hlog.count
  unfold LogHeader.count
  omega

theorem LogState.ours_home (hi : i < lh.count) : Ours cfg lh (lh.home i) := .inr ⟨i, hi, rfl⟩

theorem LogState.inArea (hlog : LogState cfg lh) (hi : i ≤ lh.count) : InArea cfg (cfg.start + i) := by
  have hlt := hlog.count_lt
  exact ⟨by omega, by omega⟩

theorem LogState.onDisk_of_ours (hlog : LogState cfg lh) (hm : Ours cfg lh m) : m < FSSIZE := by
  rcases hm with ⟨_, hlt⟩ | ⟨i, hi, rfl⟩
  · exact hlt.trans_le hlog.area
  · exact hlog.onDisk i hi

/-- **What holds between the calls of `commit`**: it holds the buffers `held`, which have their data; no
    other buffer of its blocks is busy; and the home blocks have the contents they had at first. -/
structure Inv (cfg : Config) (lh : LogHeader) (s₀ : Sys) (held : List Nat) (s : Sys) : Prop where
  cache : CacheInv cfg.dev s.cache
  mine : ∀ b ∈ held, Hashed s.cache b ∧ (s.buf b).busy = true ∧ clean (s.buf b) = true ∧
    Ours cfg lh (s.buf b).blockno
  settled : ∀ b, Hashed s.cache b → Ours cfg lh (s.buf b).blockno → b ∉ held → Settled s b
  homes : ∀ i < lh.count, contents cfg s (lh.home i) = contents cfg s₀ (lh.home i)
  logClean : ∀ m, InArea cfg m → ¬ DirtyBlk s m
  frame : ∀ m, ¬ Ours cfg lh m → s.disk m = s₀.disk m

/-- A buffer of ours has data. -/
theorem Inv.hasData (h : Inv cfg lh s₀ held s) (hb : Hashed s.cache b)
    (ho : Ours cfg lh (s.buf b).blockno) : (s.buf b).valid = true ∨ (s.buf b).dirty = true := by
  by_cases hmem : b ∈ held
  · exact .inl (clean_iff.1 (h.mine b hmem).2.2.1).1
  · have hvalid := (h.settled b hb ho hmem).2.1
    cases hd : (s.buf b).dirty with
    | true => exact .inr rfl
    | false => exact .inl (by rw [hvalid, hd]; rfl)

theorem Inv.contents_eq (hlog : LogState cfg lh) (h : Inv cfg lh s₀ held s) (hb : Cached s m b)
    (ho : Ours cfg lh m) : contents cfg s m = (s.buf b).data :=
  contents_of_cached h.cache hlog.dev hb (h.hasData hb.1 (hb.2.symm ▸ ho))

/-- A block that nobody has dirty and `commit` does not hold is as on disk. -/
theorem Inv.disk_eq_of_free (hlog : LogState cfg lh) (h : Inv cfg lh s₀ held s) (ho : Ours cfg lh m)
    (hm : ¬ DirtyBlk s m) (hnot : ∀ b ∈ held, (s.buf b).blockno ≠ m) : s.disk m = contents cfg s m := by
  by_cases hc : ∃ b, Cached s m b
  · obtain ⟨b, hb⟩ := hc
    have hclean : (s.buf b).dirty = false := by
      cases hd : (s.buf b).dirty with
      | true => exact absurd ⟨b, hb, hd⟩ hm
      | false => rfl
    have hfree : b ∉ held := fun hmem => hnot b hmem hb.2
    rw [h.contents_eq hlog hb ho, (h.settled b hb.1 (hb.2.symm ▸ ho) hfree).2.2 hclean, hb.2]
  · rw [contents_of_uncached h.cache hlog.dev (not_exists.1 hc)]

/-- A block that nobody has dirty is as on disk. -/
theorem Inv.disk_eq (hlog : LogState cfg lh) (h : Inv cfg lh s₀ [] s) (ho : Ours cfg lh m)
    (hm : ¬ DirtyBlk s m) : s.disk m = contents cfg s m :=
  h.disk_eq_of_free hlog ho hm (by simp)

/-! ## §2 What the calls preserve -/

theorem Got.not_held (hg : Got cfg s n b t) (h : Inv cfg lh s₀ held s) : b ∉ held := by
  intro hb
  have hbusy := (h.mine b hb).2.1
  rw [hg.idle] at hbusy
  cases hbusy

/-- Another block is cached as before, if it is not the one that made room. -/
theorem Got.cached_of_ne (hg : Got cfg s n b t) {b' : Nat} (hb : b' ≠ b) :
    Cached t m b' ↔ Cached s m b' := by
  obtain ⟨hbuf, hhash⟩ := hg.other b' hb
  unfold Cached
  rw [hbuf, hhash]

theorem Got.dirty_iff (hg : Got cfg s n b t) : DirtyBlk t m ↔ DirtyBlk s m ∧ m ≠ n := by
  constructor
  · rintro ⟨b', hb', hd⟩
    have hne : b' ≠ b := by
      rintro rfl
      rw [(clean_iff.1 hg.clean).2] at hd
      cases hd
    have hold := (hg.cached_of_ne hne).1 hb'
    refine ⟨⟨b', hold, (congrArg Bio.Buf.dirty (hg.other b' hne).1).symm.trans hd⟩, ?_⟩
    rintro rfl
    exact hne (hg.cache.once b' b hb'.1 hg.cached.1 (hb'.2.trans hg.cached.2.symm))
  · rintro ⟨⟨b', hb', hd⟩, hm⟩
    have hne : b' ≠ b := by
      rintro rfl
      rw [(clean_iff.1 (hg.lost m hm hb')).2] at hd
      cases hd
    exact ⟨b', (hg.cached_of_ne hne).2 hb', (congrArg Bio.Buf.dirty (hg.other b' hne).1).trans hd⟩

/-- **`bread` changes the contents of no block.** -/
theorem Got.contents_eq (hlog : LogState cfg lh) (h : Inv cfg lh s₀ held s) (hg : Got cfg s n b t)
    (hm : Ours cfg lh m) : contents cfg t m = contents cfg s m := by
  have hgot : contents cfg t n = contents cfg s n := by
    rw [contents_of_cached hg.cache hlog.dev hg.cached (.inl (clean_iff.1 hg.clean).1), hg.data]
  by_cases hmn : m = n
  · rw [hmn, hgot]
  · by_cases hc : ∃ b', Cached t m b'
    · obtain ⟨b', hb'⟩ := hc
      have hne : b' ≠ b := by
        rintro rfl
        exact hmn (hb'.2.symm.trans hg.cached.2)
      have hold := (hg.cached_of_ne hne).1 hb'
      have hdata := h.hasData hold.1 (hold.2.symm ▸ hm)
      rw [h.contents_eq hlog hold hm, ← (hg.other b' hne).1]
      apply contents_of_cached hg.cache hlog.dev hb'
      rwa [(hg.other b' hne).1]
    · rw [contents_of_uncached hg.cache hlog.dev (not_exists.1 hc), hg.disk, Function.update_of_ne hmn]
      by_cases hb : Cached s m b
      · -- its buffer made room, and was as on disk
        have hclean := clean_iff.1 (hg.lost m hmn hb)
        have ho : Ours cfg lh (s.buf b).blockno := hb.2.symm ▸ hm
        have hsettled := h.settled b hb.1 ho (hg.not_held h)
        rw [h.contents_eq hlog hb hm, hsettled.2.2 hclean.2, hb.2]
      · apply (contents_of_uncached h.cache hlog.dev _).symm
        intro b' hb'
        have hne : b' ≠ b := by
          rintro rfl
          exact hb hb'
        exact hc ⟨b', (hg.cached_of_ne hne).2 hb'⟩

/-- **`bread` takes one more buffer.** -/
theorem Got.inv (hlog : LogState cfg lh) (h : Inv cfg lh s₀ held s) (hg : Got cfg s n b t)
    (hn : Ours cfg lh n) : Inv cfg lh s₀ (held ++ [b]) t where
  cache := hg.cache
  mine := by
    intro b' hb'
    by_cases hbb : b' = b
    · rw [hbb]
      exact ⟨hg.cached.1, hg.busy, hg.clean, hg.cached.2.symm ▸ hn⟩
    · obtain ⟨hbuf, hhash⟩ := hg.other b' hbb
      rw [hbuf, hhash]
      exact h.mine b' (by simpa [hbb] using hb')
  settled := by
    intro b' hhash ho hb'
    obtain ⟨hnot, hbb⟩ : b' ∉ held ∧ b' ≠ b := by simpa using hb'
    obtain ⟨hbuf, hhash'⟩ := hg.other b' hbb
    have hne : (s.buf b').blockno ≠ n := by
      intro heq
      rw [← hbuf] at heq
      exact hbb (hg.cache.once b' b hhash hg.cached.1 (heq.trans hg.cached.2.symm))
    have hold := h.settled b' (hhash'.1 hhash) (hbuf ▸ ho) hnot
    unfold Settled
    rw [hbuf, hg.disk, Function.update_of_ne hne]
    exact hold
  homes := by
    intro i hi
    rw [hg.contents_eq hlog h (LogState.ours_home hi)]
    exact h.homes i hi
  logClean := by
    intro m hm hd
    exact h.logClean m hm (hg.dirty_iff.1 hd).1
  frame := by
    intro m hm
    have hne : m ≠ n := by
      rintro rfl
      exact hm hn
    rw [hg.disk, Function.update_of_ne hne]
    exact h.frame m hm

theorem Inv.congr (h : Inv cfg lh s₀ held s) {held' : List Nat} (hsame : ∀ b, b ∈ held' ↔ b ∈ held) :
    Inv cfg lh s₀ held' s where
  cache := h.cache
  mine := fun b hb => h.mine b ((hsame b).1 hb)
  settled := fun b hhash ho hb => h.settled b hhash ho (fun hmem => hb ((hsame b).2 hmem))
  homes := h.homes
  logClean := h.logClean
  frame := h.frame

/-- The copies in `buf_ptrs` and the header do not matter here. -/
theorem Inv.of_eq (h : Inv cfg lh s₀ held s) (hc : t.cache = s.cache) (hd : t.disk = s.disk) :
    Inv cfg lh s₀ held t := by
  obtain ⟨cache, disk, lheader, bufPtrs⟩ := t
  obtain rfl : cache = s.cache := hc
  obtain rfl : disk = s.disk := hd
  exact ⟨h.cache, h.mine, h.settled, h.homes, h.logClean, h.frame⟩

/-- Other data in a buffer. -/
def withData (s : Sys) (b : Nat) (data : Block) : Sys := s.set b fun v => { v with data := data }

theorem withData_ident (s : Sys) (b : Nat) (x : Block) (b' : Nat) :
    ((withData s b x).buf b').busy = (s.buf b').busy ∧ ((withData s b x).buf b').valid = (s.buf b').valid ∧
      ((withData s b x).buf b').dirty = (s.buf b').dirty ∧
      ((withData s b x).buf b').blockno = (s.buf b').blockno := by
  by_cases hbb : b' = b
  · subst hbb
    simp [withData]
  · rw [withData, set_buf_of_ne s _ hbb]
    exact ⟨rfl, rfl, rfl, rfl⟩

theorem withData_cached {x : Block} {b' : Nat} : Cached (withData s b x) m b' ↔ Cached s m b' := by
  unfold Cached
  rw [(withData_ident s b x b').2.2.2]
  exact Iff.rfl

theorem withData_dirty {x : Block} : DirtyBlk (withData s b x) m ↔ DirtyBlk s m := by
  apply exists_congr
  intro b'
  rw [withData_cached, (withData_ident s b x b').2.2.1]

/-- **`memmove` into a held buffer**: a home block only gets the contents it has. -/
theorem Inv.withData (hlog : LogState cfg lh) (h : Inv cfg lh s₀ held s) (hb : b ∈ held) {x : Block}
    (hx : ∀ i < lh.count, (s.buf b).blockno = lh.home i → x = contents cfg s₀ (lh.home i)) :
    Inv cfg lh s₀ held (withData s b x) := by
  obtain ⟨_, hbusy, _, _⟩ := h.mine b hb
  have hcache : CacheInv cfg.dev (Commit.withData s b x).cache :=
    h.cache.setBuf (f := fun v => { v with data := x }) hbusy hbusy rfl rfl
  refine ⟨hcache, ?_, ?_, ?_, ?_, h.frame⟩
  · intro b' hb'
    obtain ⟨h₁, h₂, h₃, h₄⟩ := withData_ident s b x b'
    have hclean : clean ((Commit.withData s b x).buf b') = clean (s.buf b') := by
      simp only [Bio.clean, h₂, h₃]
    rw [h₁, h₄, hclean]
    exact h.mine b' hb'
  · intro b' hhash ho hb'
    have hne : b' ≠ b := by
      rintro rfl
      exact hb' hb
    have hsame : (Commit.withData s b x).buf b' = s.buf b' := set_buf_of_ne s _ hne
    unfold Settled
    rw [hsame] at ho ⊢
    exact h.settled b' hhash ho hb'
  · intro i hi
    have ho : Ours cfg lh (lh.home i) := LogState.ours_home hi
    by_cases hc : ∃ b', Cached s (lh.home i) b'
    · obtain ⟨b', hb'⟩ := hc
      have hdata := h.hasData hb'.1 (hb'.2.symm ▸ ho)
      rw [← (withData_ident s b x b').2.1, ← (withData_ident s b x b').2.2.1] at hdata
      rw [contents_of_cached hcache hlog.dev (withData_cached.2 hb') hdata]
      by_cases hbb : b' = b
      · subst hbb
        rw [Commit.withData, set_buf_self]
        exact hx i hi hb'.2
      · rw [Commit.withData, set_buf_of_ne s _ hbb, ← h.contents_eq hlog hb' ho]
        exact h.homes i hi
    · rw [contents_of_uncached hcache hlog.dev fun b' hb' => hc ⟨b', withData_cached.1 hb'⟩,
        ← h.homes i hi, contents_of_uncached h.cache hlog.dev (not_exists.1 hc)]
      rfl
  · intro m hm hd
    exact h.logClean m hm (withData_dirty.1 hd)

/-- **Some of the held buffers are written.** -/
theorem Inv.flush (hlog : LogState cfg lh) (h : Inv cfg lh s₀ held s) {q : List Nat}
    (hq : ∀ b ∈ q, b ∈ held) {d : Disk}
    (hd : ∀ m, (∀ b ∈ q, (s.buf b).blockno ≠ m) → d m = s.disk m) :
    Inv cfg lh s₀ held { s with disk := d } where
  cache := h.cache
  mine := h.mine
  settled := by
    intro b hhash ho hb
    have hsame : d (s.buf b).blockno = s.disk (s.buf b).blockno := by
      apply hd
      intro b' hb' heq
      obtain rfl := h.cache.once b' b (h.mine b' (hq b' hb')).1 hhash heq
      exact hb (hq b' hb')
    obtain ⟨hidle, hvalid, hdata⟩ := h.settled b hhash ho hb
    exact ⟨hidle, hvalid, fun hclean => (hdata hclean).trans hsame.symm⟩
  homes := by
    intro i hi
    have ho : Ours cfg lh (lh.home i) := LogState.ours_home hi
    rw [← h.homes i hi]
    by_cases hc : ∃ b, Cached s (lh.home i) b
    · obtain ⟨b, hb⟩ := hc
      rw [h.contents_eq hlog hb ho]
      exact contents_of_cached h.cache hlog.dev hb (h.hasData hb.1 (hb.2.symm ▸ ho))
    · rw [contents_of_uncached h.cache hlog.dev (not_exists.1 hc)]
      refine (contents_of_uncached (s := { s with disk := d }) h.cache hlog.dev (not_exists.1 hc)).trans ?_
      apply hd
      intro b hb heq
      exact hc ⟨b, (h.mine b (hq b hb)).1, heq⟩
  logClean := h.logClean
  frame := by
    intro m hm
    refine (hd m ?_).trans (h.frame m hm)
    rintro b hb rfl
    exact hm (h.mine b (hq b hb)).2.2.2

/-- The state after `brelse`. -/
def released (s : Sys) (b : Nat) : Sys := { s with cache := Bio.brelse s.cache b }

theorem released_buf (s : Sys) (b b' : Nat) : (released s b).buf b' =
    if b' = b then { s.buf b with busy := false } else s.buf b' := by
  by_cases hbb : b' = b
  · subst hbb
    simp [released, Sys.buf, brelse_eq, setBuf]
  · simp [released, Sys.buf, brelse_eq, setBuf, hbb]

theorem released_hashed {b' : Nat} : Hashed (released s b).cache b' ↔ Hashed s.cache b' := by
  unfold Hashed released
  rw [brelse_eq]
  exact Iff.rfl

theorem released_blockno (s : Sys) (b b' : Nat) :
    ((released s b).buf b').blockno = (s.buf b').blockno := by
  rw [released_buf]
  split
  · next h => rw [h]
  · rfl

theorem released_cached {b' : Nat} : Cached (released s b) m b' ↔ Cached s m b' := by
  unfold Cached
  rw [released_hashed, released_blockno]

theorem released_dirty : DirtyBlk (released s b) m ↔ DirtyBlk s m := by
  apply exists_congr
  intro b'
  rw [released_cached, released_buf]
  split
  · next h => rw [h]
  · rfl

/-- **`brelse` of a buffer that is as on disk.** -/
theorem Inv.released (hlog : LogState cfg lh) (h : Inv cfg lh s₀ (b :: held) s) (hb : b ∉ held)
    (hdisk : (s.buf b).data = s.disk (s.buf b).blockno) :
    Inv cfg lh s₀ held (released s b) ∧
      (Commit.released s b).cache.freeList.length = s.cache.freeList.length + 1 := by
  obtain ⟨_, hbusy, hclean, _⟩ := h.mine b List.mem_cons_self
  have hcache : CacheInv cfg.dev (Commit.released s b).cache := h.cache.brelse hbusy
  refine ⟨⟨hcache, ?_, ?_, ?_, ?_, h.frame⟩, ?_⟩
  · intro b' hb'
    have hne : b' ≠ b := by
      rintro rfl
      exact hb hb'
    rw [released_hashed, released_buf, if_neg hne]
    exact h.mine b' (List.mem_cons_of_mem _ hb')
  · intro b' hhash ho hb'
    rw [released_blockno] at ho
    unfold Settled
    rw [released_buf]
    by_cases hbb : b' = b
    · obtain ⟨hv, hnd⟩ := clean_iff.1 hclean
      rw [if_pos hbb]
      exact ⟨rfl, by simp [hv, hnd], fun _ => hdisk⟩
    · rw [if_neg hbb]
      exact h.settled b' (released_hashed.1 hhash) ho (by simp [hbb, hb'])
  · intro i hi
    have ho : Ours cfg lh (lh.home i) := LogState.ours_home hi
    rw [← h.homes i hi]
    by_cases hc : ∃ b', Cached s (lh.home i) b'
    · obtain ⟨b', hb'⟩ := hc
      have hdata := h.hasData hb'.1 (hb'.2.symm ▸ ho)
      rw [h.contents_eq hlog hb' ho, contents_of_cached hcache hlog.dev (released_cached.2 hb')]
      · rw [released_buf]
        split
        · next hbb => rw [hbb]
        · rfl
      · rw [released_buf]
        split
        · next hbb =>
          rw [hbb] at hdata
          exact hdata
        · exact hdata
    · rw [contents_of_uncached h.cache hlog.dev (not_exists.1 hc),
        contents_of_uncached hcache hlog.dev fun b' hb' => hc ⟨b', released_cached.1 hb'⟩]
      rfl
  · intro m hm hd
    exact h.logClean m hm (released_dirty.1 hd)
  · have hfree : (Commit.released s b).cache.freeList = s.cache.freeList ++ [b] := by
      unfold Commit.released
      rw [brelse_eq]
      exact if_pos hclean
    rw [hfree, List.length_append]
    rfl

/-! ## §3 Writing and releasing a batch -/

/-- The buffers of `q` are marked. -/
def marked (s : Sys) (q : List Nat) : Sys := { s with cache := q.foldl markDirty s.cache }

theorem marked_spec (q : List Nat) (s : Sys) :
    (marked s q).cache.hashTable = s.cache.hashTable ∧ (marked s q).cache.freeList = s.cache.freeList ∧
      ∀ b, (marked s q).buf b =
        if b ∈ q then { s.buf b with valid := false, dirty := true } else s.buf b := by
  induction q generalizing s with
  | nil => exact ⟨rfl, rfl, fun b => by simp [marked]⟩
  | cons a q ih =>
    obtain ⟨h₁, h₂, h₃⟩ := ih (s.set a fun v => { v with valid := false, dirty := true })
    refine ⟨h₁, h₂, fun b => (h₃ b).trans ?_⟩
    by_cases hba : b = a
    · subst hba
      simp
    · simp [set_buf_of_ne s _ hba, hba]

/-- **A batch of held buffers is written**: only the disk changes, and each block of the batch gets the
    data of its buffer. -/
theorem write_batch (hlog : LogState cfg lh) (h : Inv cfg lh s₀ held s) {q queue : List Nat}
    (hperm : queue.Perm q) (hnd : q.Nodup) (hq : ∀ b ∈ q, b ∈ held) :
    ∃ d, queue.forM serve (marked s q) = .ok ((), { s with disk := d }) ∧
      (∀ b ∈ q, d (s.buf b).blockno = (s.buf b).data) ∧
      ∀ m, (∀ b ∈ q, (s.buf b).blockno ≠ m) → d m = s.disk m := by
  obtain ⟨hchains, hfree, hbuf⟩ := marked_spec q s
  have hin : ∀ b, b ∈ queue ↔ b ∈ q := fun b => hperm.mem_iff
  have hblk : ∀ b, ((marked s q).buf b).blockno = (s.buf b).blockno := by
    intro b
    rw [hbuf b]
    split <;> rfl
  have hdata : ∀ b, ((marked s q).buf b).data = (s.buf b).data := by
    intro b
    rw [hbuf b]
    split <;> rfl
  obtain ⟨t, hrun, hw⟩ := serve_all (s := marked s q) (hperm.nodup_iff.2 hnd)
    (by
      intro b hb
      rw [hbuf b, if_pos ((hin b).1 hb)])
    (by
      intro b hb
      rw [hblk]
      exact hlog.onDisk_of_ours (h.mine b (hq b ((hin b).1 hb))).2.2.2)
    (by
      intro b hb b' hb' heq
      rw [hblk, hblk] at heq
      exact h.cache.once b b' (h.mine b (hq b ((hin b).1 hb))).1 (h.mine b' (hq b' ((hin b').1 hb'))).1 heq)
  -- a buffer that was clean and marked and written is as before
  have hback : ∀ b, t.cache.buf b = s.cache.buf b := by
    intro b
    have htb := hw.buf b
    rw [hbuf b] at htb
    by_cases hb : b ∈ q
    · obtain ⟨hv, hd⟩ := clean_iff.1 (h.mine b (hq b hb)).2.2.1
      rw [if_pos ((hin b).2 hb), if_pos hb] at htb
      refine htb.trans ?_
      show _ = s.buf b
      rw [← hv, ← hd]
    · rw [if_neg fun hmem => hb ((hin b).1 hmem), if_neg hb] at htb
      exact htb
  have hcache : t.cache = s.cache := by
    have h₁ := hw.chains.trans hchains
    have h₂ := hw.freeList.trans hfree
    have h₃ : t.cache.buf = s.cache.buf := funext hback
    cases ht : t.cache
    cases hs : s.cache
    simp_all
  have ht : t = { s with disk := t.disk } := by
    have h₁ : t.lheader = s.lheader := hw.lheader
    have h₂ : t.bufPtrs = s.bufPtrs := hw.bufPtrs
    rw [← hcache, ← h₁, ← h₂]
  refine ⟨t.disk, hrun.trans (by rw [← ht]), ?_, ?_⟩
  · intro b hb
    have hwritten := hw.disk b ((hin b).2 hb)
    rwa [hblk, hdata] at hwritten
  · intro m hm
    apply hw.rest
    intro b hb
    rw [hblk]
    exact hm b ((hin b).1 hb)

/-- **`bwrite_dozens`** of held buffers. -/
theorem bwriteDozens_spec (hlog : LogState cfg lh) (h : Inv cfg lh s₀ held s) {q : List Nat}
    (hnd : q.Nodup) (hq : ∀ b ∈ q, b ∈ held) :
    ∃ d, bwriteDozens cfg q s = .ok ((), { s with disk := d }) ∧
      (∀ b ∈ q, d (s.buf b).blockno = (s.buf b).data) ∧
      ∀ m, (∀ b ∈ q, (s.buf b).blockno ≠ m) → d m = s.disk m := by
  have hperm : (insertRequests (fun c => ((marked s q).buf c).blockno) q []).Perm q := by
    simpa using insertRequests_perm (fun c => ((marked s q).buf c).blockno) q []
  obtain ⟨d, hrun, hdisk⟩ := write_batch hlog h hperm hnd hq
  refine ⟨d, ?_, hdisk⟩
  have hthere : ∀ b, ¬ (((marked s q).buf b).dev ≠ 0 ∧ cfg.slaveDiskExisted = false) := by
    simp [hlog.diskExists]
  show ideWriteDozens cfg q (marked s q) = _
  rw [← hrun]
  cases q with
  | nil => rfl
  | cons b q =>
    simp only [ideWriteDozens, bind, StateT.bind, get, getThe, MonadStateOf.get, StateT.get, Except.bind,
      pure, Except.pure, if_neg (hthere b)]

/-- **`bwrite`** of a held buffer. -/
theorem bwrite_spec (hlog : LogState cfg lh) (h : Inv cfg lh s₀ held s) (hb : b ∈ held) :
    ∃ d, bwrite cfg b s = .ok ((), { s with disk := d }) ∧ d (s.buf b).blockno = (s.buf b).data ∧
      ∀ m, m ≠ (s.buf b).blockno → d m = s.disk m := by
  have hq : ∀ b' ∈ [b], b' ∈ held := by
    intro b' hb'
    rw [List.mem_singleton.1 hb']
    exact hb
  obtain ⟨d, hrun, hdisk, hrest⟩ := write_batch hlog h (List.Perm.refl [b]) (List.nodup_singleton b) hq
  refine ⟨d, ?_, hdisk b (List.mem_singleton_self b), ?_⟩
  · have hbuf := (marked_spec [b] s).2.2 b
    rw [if_pos (List.mem_singleton_self b)] at hbuf
    have hlt : ((marked s [b]).buf b).blockno < FSSIZE := by
      rw [hbuf]
      exact hlog.onDisk_of_ours (h.mine b hb).2.2.2
    have hserve : [b].forM serve (marked s [b]) = .ok ((), complete (marked s [b]) b) := by
      show (serve b >>= fun _ => pure ()) (marked s [b]) = _
      rw [run_bind_of_ok (serve_eq hlt)]
      rfl
    show ideReadWrite cfg b (marked s [b]) = _
    rw [ideReadWrite_eq hlog.diskExists (by rw [hbuf]; rfl) hlt, ← hserve, hrun]
  · intro m hm
    apply hrest
    intro b' hb'
    rw [List.mem_singleton.1 hb']
    exact hm.symm

/-- **`brelse_dozens`** of all held buffers, each as on disk. -/
theorem brelseDozens_spec (hlog : LogState cfg lh) {q : List Nat} (h : Inv cfg lh s₀ q s) (hnd : q.Nodup)
    (hdisk : ∀ b ∈ q, (s.buf b).data = s.disk (s.buf b).blockno) :
    ∃ c, brelseDozens q s = .ok ((), { s with cache := c }) ∧
      Inv cfg lh s₀ [] { s with cache := c } ∧ c.freeList.length = s.cache.freeList.length + q.length ∧
      ∀ m, DirtyBlk { s with cache := c } m ↔ DirtyBlk s m := by
  induction q generalizing s with
  | nil => exact ⟨s.cache, rfl, h, rfl, fun m => Iff.rfl⟩
  | cons b q ih =>
    obtain ⟨hb, hnd⟩ := List.nodup_cons.1 hnd
    obtain ⟨hinv, hfree⟩ := h.released hlog hb (hdisk b List.mem_cons_self)
    have hrest : ∀ b' ∈ q,
        ((released s b).buf b').data = (released s b).disk ((released s b).buf b').blockno := by
      intro b' hb'
      have hne : b' ≠ b := by
        rintro rfl
        exact hb hb'
      rw [released_buf, if_neg hne]
      exact hdisk b' (List.mem_cons_of_mem _ hb')
    obtain ⟨c, hrun, hinv', hlen, hdirty⟩ := ih hinv hnd hrest
    refine ⟨c, hrun, hinv', ?_, fun m => (hdirty m).trans released_dirty⟩
    rw [hlen, hfree, List.length_cons]
    omega

end WeiOS.Commit
