import Mathlib
import WeiOS.Lib.Run
import WeiOS.Lib.IntrusiveList
import WeiOS.Mm.Buddy

/-!
# What a Call Does to the Zones

Every function of the page allocator works on one zone: it changes the free pages of that zone by a
number that can be read off its arguments, and leaves the other zone, the watermarks and the flags of
the pages alone. No assumption about the lists is needed for this.

## Main results
- `zoneMove_freePages`: a release.
- `zoneMove_bufferedRmqueue`: an allocation from a zone, with what it has checked.
- `allocPages_moves`: a call of `__alloc_pages`.
-/

namespace WeiOS.Buddy

open WeiOS.Lib

/-! ## §1 Moves -/

/-- Zone `z` gets `d` free pages more and keeps its watermark. The flags of the pages and the other
    zone stay as they are. -/
structure ZoneMove (z : ZoneId) (d : Int) (s s' : Mem) : Prop where
  flag : ∀ p, (s'.page p).flag = (s.page p).flag
  other : ∀ z', z' ≠ z → s'.zone z' = s.zone z'
  freePages : (s'.zone z).freePages = (s.zone z).freePages + d
  pagesLow : (s'.zone z).pagesLow = (s.zone z).pagesLow

section Moves

variable {z : ZoneId} {d d' : Int} {s s' s'' : Mem}

theorem ZoneMove.refl (z : ZoneId) (s : Mem) : ZoneMove z 0 s s :=
  ⟨fun _ => rfl, fun _ _ => rfl, (Int.add_zero _).symm, rfl⟩

theorem ZoneMove.trans (h : ZoneMove z d s s') (h' : ZoneMove z d' s' s'') :
    ZoneMove z (d + d') s s'' := by
  refine ⟨fun p => (h'.flag p).trans (h.flag p), fun z' hz => (h'.other z' hz).trans (h.other z' hz),
    ?_, h'.pagesLow.trans h.pagesLow⟩
  rw [h'.freePages, h.freePages]
  omega

theorem zoneMove_links (z : ZoneId) (s : Mem) (L : Links (Node ListId Nat)) :
    ZoneMove z 0 s { s with links := L } :=
  ⟨fun _ => rfl, fun _ _ => rfl, (Int.add_zero _).symm, rfl⟩

theorem zoneMove_listAdd {p : Nat} {l : ListId} (h : listAdd s p l = .ok s') :
    ZoneMove z 0 s s' := by
  unfold listAdd at h
  split at h
  · cases h
  · obtain rfl := Except.ok.inj h
    exact zoneMove_links z s _

theorem zoneMove_listDel {p : Nat} (h : listDel s p = .ok s') : ZoneMove z 0 s s' := by
  unfold listDel at h
  split at h
  · cases h
  · obtain rfl := Except.ok.inj h
    exact zoneMove_links z s _

/-- A descriptor changes apart from its flag. -/
theorem zoneMove_page (z : ZoneId) (s : Mem) (p : Nat) {pg : Page} (h : pg.flag = (s.page p).flag) :
    ZoneMove z 0 s { s with page := Function.update s.page p pg } := by
  refine ⟨fun q => ?_, fun _ _ => rfl, (Int.add_zero _).symm, rfl⟩
  by_cases hq : q = p
  · subst hq
    simpa using h
  · simp [hq]

theorem zoneMove_setPrivate (z : ZoneId) (s : Mem) (p v : Nat) : ZoneMove z 0 s (setPrivate s p v) :=
  zoneMove_page z s p rfl

theorem zoneMove_clearRef (z : ZoneId) (s : Mem) (p : Nat) : ZoneMove z 0 s (clearRef s p) :=
  zoneMove_page z s p rfl

theorem zoneMove_setZone (s : Mem) {f : Zone → Zone}
    (h : (f (s.zone z)).freePages = (s.zone z).freePages + d)
    (hlow : (f (s.zone z)).pagesLow = (s.zone z).pagesLow) : ZoneMove z d s (setZone s z f) := by
  refine ⟨fun _ => rfl, fun z' hz => ?_, ?_, ?_⟩
  · simp [setZone, hz]
  · simpa [setZone] using h
  · simpa [setZone] using hlow

theorem zoneMove_lockZone (h : lockZone s z = .ok s') : ZoneMove z 0 s s' := by
  unfold lockZone at h
  split at h
  · cases h
  · obtain rfl := Except.ok.inj h
    exact zoneMove_setZone s (Int.add_zero _).symm rfl

theorem lockZone_zone (h : lockZone s z = .ok s') :
    s'.zone z = { s.zone z with zoneLock := true } := by
  unfold lockZone at h
  split at h
  · cases h
  · obtain rfl := Except.ok.inj h
    simp [setZone]

theorem zoneMove_unlockZone (z : ZoneId) (s : Mem) : ZoneMove z 0 s (unlockZone s z) :=
  zoneMove_setZone s (Int.add_zero _).symm rfl

/-! ## §2 Release -/

theorem zoneMove_coalesce {n i k i' k' : Nat} (h : coalesce z n i k s = .ok (i', k', s')) :
    ZoneMove z 0 s s' := by
  induction n generalizing i k s with
  | zero =>
    obtain ⟨_, _, rfl⟩ : i = i' ∧ k = k' ∧ s = s' := by simpa [coalesce] using h
    exact ZoneMove.refl z s
  | succ n ih =>
    simp only [coalesce] at h
    split at h
    · obtain ⟨s₁, hdel, hrest⟩ := bind_eq_ok.1 h
      have hdec : ZoneMove z 0 s₁ (setZone s₁ z (decNrFree k)) :=
        zoneMove_setZone s₁ (Int.add_zero _).symm rfl
      exact (((zoneMove_listDel hdel).trans hdec).trans (zoneMove_setPrivate z _ _ _)).trans (ih hrest)
    · obtain ⟨_, _, rfl⟩ : i = i' ∧ k = k' ∧ s = s' := by simpa using h
      exact ZoneMove.refl z s

theorem zoneMove_freePagesBulk_block {p k : Nat} (h : __freePagesBulk s z p k = .ok s') :
    ZoneMove z (2 ^ k : Nat) s s' := by
  obtain ⟨⟨i, k', s₁⟩, hmerge, h⟩ := bind_eq_ok.1 h
  dsimp only at h
  split at h
  · cases h
  · obtain ⟨s₂, hadd, h⟩ := bind_eq_ok.1 h
    obtain rfl := Except.ok.inj h
    have hmoved := ((zoneMove_coalesce hmerge).trans (zoneMove_setPrivate z s₁
      ((s₁.zone z).zoneFirstPage + i) k')).trans (zoneMove_listAdd hadd)
    have hcount : ZoneMove z 0 s₂ (setZone s₂ z (incNrFree k')) :=
      zoneMove_setZone s₂ (Int.add_zero _).symm rfl
    have hfree : ZoneMove z (2 ^ k : Nat) (setZone s₂ z (incNrFree k'))
        (setZone (setZone s₂ z (incNrFree k')) z (addFreePages (2 ^ k : Nat))) :=
      zoneMove_setZone _ rfl rfl
    have hall := (hmoved.trans hcount).trans hfree
    simpa using hall

theorem zoneMove_freePagesBulk {l : ListId} {n : Nat} (h : freePagesBulk z l n s = .ok s') :
    ZoneMove z n s s' := by
  induction n generalizing s with
  | zero =>
    obtain rfl := Except.ok.inj h
    exact ZoneMove.refl z s
  | succ n ih =>
    obtain ⟨p, _, h⟩ := bind_eq_ok.1 h
    obtain ⟨s₁, hdel, h⟩ := bind_eq_ok.1 h
    obtain ⟨s₂, hfree, h⟩ := bind_eq_ok.1 h
    have hall := (((zoneMove_listDel hdel).trans (zoneMove_clearRef z s₁ p)).trans
      (zoneMove_freePagesBulk_block hfree)).trans (ih h)
    have hsum : (0 + 0 + ((2 ^ 0 : Nat) : Int) + n : Int) = ((n + 1 : Nat) : Int) := by
      push_cast
      omega
    rwa [hsum] at hall

theorem zoneMove_flush {c n : Nat} (h : flush z c n s = .ok s') : ZoneMove z n s s' := by
  induction n generalizing s with
  | zero =>
    obtain rfl := Except.ok.inj h
    exact ZoneMove.refl z s
  | succ n ih =>
    obtain ⟨s₁, hone, h⟩ := bind_eq_ok.1 h
    have hall := (zoneMove_freePagesBulk hone).trans (ih h)
    have hsum : (((1 : Nat) : Int) + n : Int) = ((n + 1 : Nat) : Int) := by
      push_cast
      omega
    rwa [hsum] at hall

theorem zoneMove_addPages {l : ListId} {p n : Nat} (h : addPages l p n s = .ok s') :
    ZoneMove z 0 s s' := by
  induction n generalizing s' with
  | zero =>
    obtain rfl := Except.ok.inj h
    exact ZoneMove.refl z s
  | succ n ih =>
    obtain ⟨s₁, hmore, hadd⟩ := bind_eq_ok.1 h
    exact (ih hmore).trans (zoneMove_listAdd hadd)

/-- The page goes on a page cache of the zone, the end of `free_hot_cold_page`. -/
theorem zoneMove_cache {p c : Nat}
    (h : (do
      let t ← listAdd s p (.pageset z c)
      pure (unlockZone (setZone t z (setPageset c fun ps => { ps with count := ps.count + 1 })) z)) =
        Except.ok s') : ZoneMove z 0 s s' := by
  obtain ⟨t, hadd, h⟩ := bind_eq_ok.1 h
  obtain rfl := Except.ok.inj h
  have hcount : ZoneMove z 0 t
      (setZone t z (setPageset c fun ps => { ps with count := ps.count + 1 })) :=
    zoneMove_setZone t (Int.add_zero _).symm rfl
  exact ((zoneMove_listAdd hadd).trans hcount).trans (zoneMove_unlockZone z _)

/-- `free_hot_cold_page` works on the zone that the descriptor names, and may flush its cache. -/
theorem zoneMove_freeHotColdPage {p c : Nat} (h : freeHotColdPage s p c = .ok s') :
    ∃ n : Nat, ZoneMove (pageZone s p) n s s' := by
  obtain ⟨s₁, hlock, h⟩ := bind_eq_ok.1 h
  dsimp only at h
  split at h
  · generalize (((s₁.zone (pageZone s p)).pageset c).high -
      ((s₁.zone (pageZone s p)).pageset c).low) / 2 +
        ((s₁.zone (pageZone s p)).pageset c).low = batch at h
    obtain ⟨s₂, hflush, h⟩ := bind_eq_ok.1 h
    refine ⟨batch, ?_⟩
    have hreset : ZoneMove (pageZone s p) 0 s₂ (setZone s₂ (pageZone s p) (setPageset c fun ps =>
        { ps with
          count := ps.count - batch
          batch := 0 })) := zoneMove_setZone s₂ (Int.add_zero _).symm rfl
    have hall := (((zoneMove_lockZone hlock).trans (zoneMove_flush hflush)).trans hreset).trans
      (zoneMove_cache h)
    simpa using hall
  · refine ⟨0, ?_⟩
    have hall := (zoneMove_lockZone hlock).trans (zoneMove_cache h)
    simpa using hall

theorem ZoneMove.pageZone (h : ZoneMove z d s s') (p : Nat) :
    Buddy.pageZone s' p = Buddy.pageZone s p := by
  unfold Buddy.pageZone
  rw [h.flag]

/-- **A release** moves pages into the zone that the descriptor names, and nothing into the other. -/
theorem zoneMove_freePages {p : Nat} (h : __freePages s p 0 = .ok s') :
    ∃ n : Nat, 0 < n ∧ ZoneMove (pageZone s p) n s s' := by
  obtain ⟨s₁, hhot, h⟩ := bind_eq_ok.1 h
  obtain ⟨n, hn⟩ := zoneMove_freeHotColdPage hhot
  dsimp only at h
  rw [hn.pageZone] at h
  obtain ⟨s₂, hlock, h⟩ := bind_eq_ok.1 h
  obtain ⟨s₃, hadd, h⟩ := bind_eq_ok.1 h
  obtain ⟨s₄, hfree, h⟩ := bind_eq_ok.1 h
  obtain rfl := Except.ok.inj h
  refine ⟨n + 1, Nat.succ_pos n, ?_⟩
  have hall := (((hn.trans (zoneMove_lockZone hlock)).trans (zoneMove_addPages hadd)).trans
    (zoneMove_freePagesBulk hfree)).trans (zoneMove_unlockZone (pageZone s p) s₄)
  simpa using hall

/-! ## §3 Allocation -/

theorem zoneMove_splitBlock {p k n : Nat} (h : splitBlock z p k n s = .ok s') : ZoneMove z 0 s s' := by
  induction n generalizing s with
  | zero =>
    obtain rfl := Except.ok.inj h
    exact ZoneMove.refl z s
  | succ n ih =>
    obtain ⟨s₁, hadd, h⟩ := bind_eq_ok.1 h
    have hinc : ZoneMove z 0 s₁ (setZone s₁ z (incNrFree (k + n))) :=
      zoneMove_setZone s₁ (Int.add_zero _).symm rfl
    exact (((zoneMove_listAdd hadd).trans hinc).trans (zoneMove_setPrivate z _ _ _)).trans (ih h)

theorem rmqueue_none {k : Nat} (h : __rmqueue s z k = .ok (none, s')) : s' = s := by
  unfold __rmqueue at h
  split at h
  · exact (Prod.mk.inj (Except.ok.inj h)).2.symm
  · obtain ⟨p, _, h⟩ := bind_eq_ok.1 h
    obtain ⟨s₁, _, h⟩ := bind_eq_ok.1 h
    obtain ⟨s₂, _, h⟩ := bind_eq_ok.1 h
    cases Except.ok.inj h

/-- A block of order `k` leaves the free lists. -/
theorem zoneMove_rmqueue {k p : Nat} (h : __rmqueue s z k = .ok (some p, s')) :
    ZoneMove z (-(2 ^ k : Nat)) s s' := by
  unfold __rmqueue at h
  split at h
  · cases Except.ok.inj h
  · rename_i currOrder _
    obtain ⟨q, _, h⟩ := bind_eq_ok.1 h
    obtain ⟨s₁, hdel, h⟩ := bind_eq_ok.1 h
    obtain ⟨s₂, hsplit, h⟩ := bind_eq_ok.1 h
    obtain ⟨_, rfl⟩ := Prod.mk.inj (Except.ok.inj h)
    have hmarked := (zoneMove_listDel (z := z) hdel).trans (zoneMove_setPrivate z s₁ q OUT_OF_BUDDY)
    generalize setPrivate s₁ q OUT_OF_BUDDY = s₃ at hmarked hsplit
    have hdec : ZoneMove z 0 s₃ (setZone s₃ z (decNrFree currOrder)) :=
      zoneMove_setZone s₃ (Int.add_zero _).symm rfl
    have hfree : ZoneMove z (-(2 ^ k : Nat)) (setZone s₃ z (decNrFree currOrder))
        (setZone (setZone s₃ z (decNrFree currOrder)) z (addFreePages (-(2 ^ k : Nat)))) :=
      zoneMove_setZone _ rfl rfl
    have hall := ((hmarked.trans hdec).trans hfree).trans (zoneMove_splitBlock hsplit)
    simpa using hall

/-- The refill loop takes at most as many pages as it is asked for. -/
theorem zoneMove_refill {c n : Nat} {b : Bool} (h : refill z c n s = .ok (b, s')) :
    ∃ j : Nat, j ≤ n ∧ ZoneMove z (-j) s s' := by
  -- on the pages that are still asked for; a round that finds none is the last
  induction n generalizing s with
  | zero =>
    obtain ⟨_, rfl⟩ := Prod.mk.inj (Except.ok.inj h)
    exact ⟨0, le_refl 0, ZoneMove.refl z s⟩
  | succ n ih =>
    obtain ⟨⟨o, s₁⟩, hrm, h⟩ := bind_eq_ok.1 h
    cases o with
    | none =>
      obtain ⟨_, rfl⟩ := Prod.mk.inj (Except.ok.inj h)
      obtain rfl := rmqueue_none hrm
      exact ⟨0, Nat.zero_le _, ZoneMove.refl z _⟩
    | some p =>
      obtain ⟨s₂, hadd, h⟩ := bind_eq_ok.1 h
      obtain ⟨j, hj, hrest⟩ := ih h
      have hcount : ZoneMove z 0 s₁
          (setZone s₁ z (setPageset c fun ps => { ps with count := ps.count + 1 })) :=
        zoneMove_setZone s₁ (Int.add_zero _).symm rfl
      have hall := (((zoneMove_rmqueue hrm).trans hcount).trans (zoneMove_listAdd hadd)).trans hrest
      have hsum : (-((2 ^ 0 : Nat) : Int) + 0 + 0 + -(j : Int)) = -((j + 1 : Nat) : Int) := by
        push_cast
        omega
      rw [hsum] at hall
      exact ⟨j + 1, by omega, hall⟩

theorem zoneMove_takeCached {c : Nat} {o : Option Nat} (h : takeCached s z c = .ok (o, s')) :
    ZoneMove z 0 s s' := by
  obtain ⟨p, _, h⟩ := bind_eq_ok.1 h
  obtain ⟨s₁, hdel, h⟩ := bind_eq_ok.1 h
  obtain ⟨_, rfl⟩ := Prod.mk.inj (Except.ok.inj h)
  have hcount : ZoneMove z 0 s (setZone s z (setPageset c fun ps => { ps with count := ps.count - 1 })) :=
    zoneMove_setZone s (Int.add_zero _).symm rfl
  exact (hcount.trans (zoneMove_listDel hdel)).trans (zoneMove_setPrivate z s₁ p OUT_OF_BUDDY)

/-- The pages that `buffered_rmqueue` puts on a page cache at once. -/
def batchSize (ps : Pageset) : Nat := (ps.high - ps.low) / 2 + 1

/-- `j` pages leave a zone after the test that `buffered_rmqueue` makes: part of a batch for page
    cache `c`, or a block of order `k`. -/
def Draws (zn : Zone) (k c j : Nat) : Prop :=
  if k = 0 then
    (zn.pageset c).count ≤ (zn.pageset c).low ∧ j ≤ batchSize (zn.pageset c) ∧
      ¬ (zn.freePages - batchSize (zn.pageset c)) % 2 ^ 32 ≤ zn.pagesLow % 2 ^ 32
  else j = 2 ^ k ∧ ¬ zn.freePages - (2 ^ k : Nat) ≤ zn.pagesLow

/-- **`buffered_rmqueue`** takes pages from the free lists of its zone after a test of its own. -/
theorem zoneMove_bufferedRmqueue {k gfpFlags : Nat} {o : Option Nat}
    (h : bufferedRmqueue s z k gfpFlags = .ok (o, s')) :
    ∃ j : Nat, ZoneMove z (-j) s s' ∧ (j = 0 ∨ Draws (s.zone z) k (gfpFlags &&& GFP_COLD) j) := by
  unfold bufferedRmqueue at h
  split at h
  · rename_i hk
    subst hk
    generalize gfpFlags &&& GFP_COLD = c at h
    dsimp only at h
    split at h
    · rename_i hcount
      have hbatch : ZoneMove z 0 s (setZone s z (setPageset c fun p => { p with
          batch := (((s.zone z).pageset c).high - ((s.zone z).pageset c).low) / 2 + 1 })) :=
        zoneMove_setZone s (Int.add_zero _).symm rfl
      split at h
      · obtain ⟨_, rfl⟩ := Prod.mk.inj (Except.ok.inj h)
        exact ⟨0, hbatch, .inl rfl⟩
      · rename_i htest
        obtain ⟨⟨b, s₁⟩, hrefill, h⟩ := bind_eq_ok.1 h
        obtain ⟨j, hj, hmove⟩ := zoneMove_refill hrefill
        have hdraw : Draws (s.zone z) 0 c j :=
          ⟨hcount, hj, by simpa [setZone, setPageset, batchSize] using htest⟩
        have hdrawn := hbatch.trans hmove
        rw [Int.zero_add] at hdrawn
        cases b with
        | false =>
          -- the pages of the failed refill stay in the page cache
          obtain ⟨_, rfl⟩ := Prod.mk.inj (Except.ok.inj h)
          exact ⟨j, hdrawn, .inr hdraw⟩
        | true =>
          have hreset : ZoneMove z 0 s₁ (setZone s₁ z (setPageset c fun p => { p with batch := 0 })) :=
            zoneMove_setZone s₁ (Int.add_zero _).symm rfl
          have hall := (hdrawn.trans hreset).trans (zoneMove_takeCached h)
          exact ⟨j, by simpa using hall, .inr hdraw⟩
    · exact ⟨0, zoneMove_takeCached h, .inl rfl⟩
  · rename_i hk
    split at h
    · obtain ⟨_, rfl⟩ := Prod.mk.inj (Except.ok.inj h)
      exact ⟨0, ZoneMove.refl z s, .inl rfl⟩
    · rename_i htest
      obtain ⟨⟨o₁, s₁⟩, hrm, h⟩ := bind_eq_ok.1 h
      cases o₁ with
      | none =>
        obtain ⟨_, rfl⟩ := Prod.mk.inj (Except.ok.inj h)
        obtain rfl := rmqueue_none hrm
        exact ⟨0, ZoneMove.refl z _, .inl rfl⟩
      | some p =>
        obtain ⟨_, rfl⟩ := Prod.mk.inj (Except.ok.inj h)
        have hall := (zoneMove_rmqueue hrm).trans (zoneMove_setPrivate z s₁ p OUT_OF_BUDDY)
        refine ⟨2 ^ k, by simpa using hall, .inr ?_⟩
        rw [Draws, if_neg hk]
        exact ⟨rfl, htest⟩

/-- The test that `__alloc_pages` makes before it asks a zone. -/
def Passes (s : Mem) (z : ZoneId) (k : Nat) : Prop :=
  ¬ (s.zone z).freePages - (2 ^ k : Nat) ≤ (s.zone z).pagesLow

/-- One round of the loop over the zones. -/
theorem zoneMove_tryZone {k gfpFlags : Nat} {o : Option Nat}
    (h : tryZone s z k gfpFlags = .ok (o, s')) :
    ∃ j : Nat, ZoneMove z (-j) s s' ∧
      (j = 0 ∨ Passes s z k ∧ Draws (s.zone z) k (gfpFlags &&& GFP_COLD) j) := by
  obtain ⟨s₁, hlock, h⟩ := bind_eq_ok.1 h
  have hlocked := zoneMove_lockZone hlock
  have hzone := lockZone_zone hlock
  split at h
  · obtain ⟨_, rfl⟩ := Prod.mk.inj (Except.ok.inj h)
    exact ⟨0, hlocked.trans (zoneMove_unlockZone z s₁), .inl rfl⟩
  · rename_i hpass
    obtain ⟨⟨o₁, s₂⟩, hbuf, h⟩ := bind_eq_ok.1 h
    obtain ⟨j, hmove, hdraw⟩ := zoneMove_bufferedRmqueue hbuf
    rw [hzone] at hpass hdraw
    refine ⟨j, ?_, hdraw.imp_right fun hd => ⟨hpass, hd⟩⟩
    cases o₁ with
    | none =>
      obtain ⟨_, rfl⟩ := Prod.mk.inj (Except.ok.inj h)
      simpa using hlocked.trans hmove
    | some p =>
      obtain ⟨_, rfl⟩ := Prod.mk.inj (Except.ok.inj h)
      simpa using (hlocked.trans hmove).trans (zoneMove_unlockZone z s₂)

theorem zoneMove_allocDma {k gfpFlags : Nat} {o : Option Nat}
    (h : allocDma s k gfpFlags = .ok (o, s')) :
    ∃ j : Nat, ZoneMove .kern (-j) s s' ∧
      (j = 0 ∨ Draws (s.zone .kern) k (gfpFlags &&& GFP_COLD) j) := by
  obtain ⟨s₁, hlock, h⟩ := bind_eq_ok.1 h
  have hlocked := zoneMove_lockZone hlock
  have hzone := lockZone_zone hlock
  dsimp only at h
  split at h
  · obtain ⟨_, rfl⟩ := Prod.mk.inj (Except.ok.inj h)
    exact ⟨0, hlocked.trans (zoneMove_unlockZone .kern s₁), .inl rfl⟩
  · obtain ⟨⟨o₁, s₂⟩, hbuf, h⟩ := bind_eq_ok.1 h
    obtain ⟨_, rfl⟩ := Prod.mk.inj (Except.ok.inj h)
    obtain ⟨j, hmove, hdraw⟩ := zoneMove_bufferedRmqueue hbuf
    rw [hzone] at hdraw
    exact ⟨j, by simpa using (hlocked.trans hmove).trans (zoneMove_unlockZone .kern s₂), hdraw⟩

theorem zoneMove_allocIrq {o : Option Nat} (h : allocIrq s = .ok (o, s')) :
    ∃ j : Nat, ZoneMove .kern (-j) s s' := by
  obtain ⟨s₁, hlock, h⟩ := bind_eq_ok.1 h
  have hlocked := zoneMove_lockZone hlock
  dsimp only at h
  split at h
  · obtain ⟨p, _, h⟩ := bind_eq_ok.1 h
    obtain ⟨s₂, hdel, h⟩ := bind_eq_ok.1 h
    obtain ⟨_, rfl⟩ := Prod.mk.inj (Except.ok.inj h)
    have htake : ZoneMove .kern (-1) s₂ (setZone s₂ .kern fun zn =>
        { zn with
          freePages := zn.freePages - 1
          pagesReserved := zn.pagesReserved - 1 }) := zoneMove_setZone s₂ rfl rfl
    have hall := ((hlocked.trans (zoneMove_listDel hdel)).trans htake).trans
      (zoneMove_unlockZone .kern _)
    exact ⟨1, by simpa using hall⟩
  · obtain ⟨_, rfl⟩ := Prod.mk.inj (Except.ok.inj h)
    exact ⟨0, hlocked.trans (zoneMove_unlockZone .kern s₁)⟩

/-- **`__alloc_pages`** takes pages from the normal zone, and then from the kernel zone. -/
theorem allocPages_moves {k gfpFlags : Nat} {o : Option Nat}
    (h : __allocPages s k gfpFlags = .ok (o, s')) :
    ∃ (t : Mem) (i j : Nat), ZoneMove .normal (-i) s t ∧ ZoneMove .kern (-j) t s' := by
  unfold __allocPages at h
  split at h
  · obtain ⟨_, rfl⟩ := Prod.mk.inj (Except.ok.inj h)
    exact ⟨s, 0, 0, ZoneMove.refl _ s, ZoneMove.refl _ s⟩
  dsimp only at h
  split at h
  · obtain ⟨j, hmove, _⟩ := zoneMove_allocDma h
    exact ⟨s, 0, j, ZoneMove.refl _ s, hmove⟩
  split at h
  · obtain ⟨j, hmove⟩ := zoneMove_allocIrq h
    exact ⟨s, 0, j, ZoneMove.refl _ s, hmove⟩
  obtain ⟨⟨o₁, s₁⟩, hnormal, h⟩ := bind_eq_ok.1 h
  obtain ⟨i, hi, _⟩ := zoneMove_tryZone hnormal
  cases o₁ with
  | some p =>
    obtain ⟨_, rfl⟩ := Prod.mk.inj (Except.ok.inj h)
    exact ⟨s₁, i, 0, hi, ZoneMove.refl _ s₁⟩
  | none =>
    obtain ⟨⟨o₂, s₂⟩, hkern, h⟩ := bind_eq_ok.1 h
    obtain ⟨j, hj, _⟩ := zoneMove_tryZone hkern
    cases o₂ with
    | some p =>
      obtain ⟨_, rfl⟩ := Prod.mk.inj (Except.ok.inj h)
      exact ⟨s₁, i, j, hi, hj⟩
    | none =>
      dsimp only at h
      split at h
      · -- a caller that waits does not return
        obtain ⟨_, _, h⟩ := bind_eq_ok.1 h
        cases h
      · obtain ⟨_, rfl⟩ := Prod.mk.inj (Except.ok.inj h)
        exact ⟨s₁, i, j, hi, hj⟩

end Moves

end WeiOS.Buddy
