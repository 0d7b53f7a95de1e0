import Mathlib
import WeiOS.Lib.Run
import WeiOS.Mm.Buddy
import WeiOS.Mm.PageAlloc
import WeiOS.Mm.ZoneMoves

/-!
# The Low Watermark

A request without `__GFP_IRQ` is meant to leave more than `pages_low` pages in its zone. A single page
comes from the page cache, and before the cache is refilled `buffered_rmqueue` tests that a whole batch
can go. `free_pages` is signed and `batch` is not, so the difference of a small zone wraps to a large
number, the test passes, and the refill loop takes every page the free lists have.

## Main results
- `watermark_kept`: runs in which no refill test wraps.
- `refill_empties_zone`: one request that takes all pages of a zone.
-/

namespace WeiOS.Buddy

open WeiOS.Lib

/-! ## §1 Calls -/

/-- `__alloc_pages` for any `int order`. -/
def allocPages (s : Mem) (order : Int) (gfpFlags : Nat) : Except Fault (Option Nat × Mem) :=
  if order < 0 then .ok (none, s) else __allocPages s order.toNat gfpFlags

/-- The calls. -/
inductive MemOp where
  | allocPages (order : Int) (gfpFlags : Nat)
  | freePage (page : Nat)

/-- One call. A caller that waits goes to sleep after the two rounds that a caller makes that does not
    wait; when it is woken up it starts over, like another call. -/
def memStep (s : Mem) : MemOp → Except Fault Mem
  | .allocPages order gfpFlags =>
    match allocPages s order gfpFlags with
    | .ok (_, s') => .ok s'
    | .error .asleep => (allocPages s order (gfpFlags - (gfpFlags &&& GFP_WAIT))).map Prod.snd
    | .error e => .error e
  | .freePage page => __freePage s page

/-- A call without `__GFP_IRQ` does not lower the free pages of a zone to its watermark or below. -/
def KeepsWatermark (s : Mem) (o : MemOp) (s' : Mem) : Prop :=
  (match o with
    | .allocPages _ gfpFlags => gfpFlags &&& GFP_IRQ = 0
    | .freePage _ => True) →
  ∀ z, (s'.zone z).freePages < (s.zone z).freePages →
    (s'.zone z).pagesLow < (s'.zone z).freePages

/-- The hot page cache of the zone needs no refill, or the zone has a whole batch of pages. -/
def HasBatch (s : Mem) (z : ZoneId) : Prop :=
  ((s.zone z).pageset 0).low < ((s.zone z).pageset 0).count ∨
    (batchSize ((s.zone z).pageset 0) : Int) ≤ (s.zone z).freePages

/-- A request for a single page meets no zone whose refill test wraps: the kernel zone for
    `__GFP_DMA`, else the normal zone and, if that has no page to give, the kernel zone. -/
def NoWrap (s : Mem) : MemOp → Prop
  | .allocPages order gfpFlags =>
    gfpFlags &&& GFP_IRQ = 0 → order = 0 →
      if gfpFlags &&& GFP_DMA ≠ 0 then HasBatch s .kern
      else
        (Passes s .normal 0 → HasBatch s .normal) ∧
        (Passes s .kern 0 → (∃ t, tryZone s .normal 0 (gfpFlags - (gfpFlags &&& GFP_COLD)) =
          .ok (none, t)) → HasBatch s .kern)
  | .freePage _ => True

/-! ## §2 The watermark -/

section Step

variable {z : ZoneId} {s s' t : Mem} {k c j gfpFlags : Nat} {o : Option Nat}

/-- What `buffered_rmqueue` draws leaves the zone above its watermark, unless the refill test wraps:
    without a wrap the unsigned comparison is the signed one. -/
theorem Draws.above {zn : Zone} (h : Draws zn k c j) (hlow : zn.pagesLow < 2 ^ 31)
    (hbatch : k = 0 → (zn.pageset c).low < (zn.pageset c).count ∨
      (batchSize (zn.pageset c) : Int) ≤ zn.freePages) : zn.pagesLow < zn.freePages - j := by
  unfold Draws at h
  split at h
  · rename_i hk
    obtain ⟨hcount, hj, htest⟩ := h
    have hle : (batchSize (zn.pageset c) : Int) ≤ zn.freePages :=
      (hbatch hk).resolve_left (by omega)
    omega
  · obtain ⟨rfl, htest⟩ := h
    omega

theorem ZoneMove.above (h : ZoneMove z (-j) s s') (hj : j = 0 ∨ (s.zone z).pagesLow <
    (s.zone z).freePages - j) (hlt : (s'.zone z).freePages < (s.zone z).freePages) :
    (s'.zone z).pagesLow < (s'.zone z).freePages := by
  rw [h.pagesLow]
  rw [h.freePages] at hlt ⊢
  rcases hj with rfl | hj
  · omega
  · omega

theorem cold_clear (gfpFlags : Nat) : (gfpFlags - (gfpFlags &&& GFP_COLD)) &&& GFP_COLD = 0 := by
  simp only [GFP_COLD, Nat.and_one_is_mod]
  omega

/-- Both zones, after a round in each of them. -/
theorem above_of_moves {i j : Nat} (hn : ZoneMove .normal (-i) s t) (hk : ZoneMove .kern (-j) t s')
    (hi : i = 0 ∨ (s.zone .normal).pagesLow < (s.zone .normal).freePages - i)
    (hj : j = 0 ∨ (s.zone .kern).pagesLow < (s.zone .kern).freePages - j) (z : ZoneId)
    (hlt : (s'.zone z).freePages < (s.zone z).freePages) :
    (s'.zone z).pagesLow < (s'.zone z).freePages := by
  cases z with
  | kern =>
    rw [← hn.other .kern (by decide)] at hj hlt
    exact hk.above hj hlt
  | normal =>
    rw [hk.other .normal (by decide)] at hlt ⊢
    exact hn.above hi hlt

/-- **An allocation** whose refill tests do not wrap. -/
theorem allocPages_above (hlow : ∀ z, (s.zone z).pagesLow < 2 ^ 31)
    (hC : NoWrap s (.allocPages k gfpFlags)) (hirq : gfpFlags &&& GFP_IRQ = 0)
    (h : __allocPages s k gfpFlags = .ok (o, s')) (z : ZoneId)
    (hlt : (s'.zone z).freePages < (s.zone z).freePages) :
    (s'.zone z).pagesLow < (s'.zone z).freePages := by
  replace hC := hC hirq
  unfold __allocPages at h
  split at h
  · obtain ⟨_, rfl⟩ := Prod.mk.inj (Except.ok.inj h)
    exact absurd hlt (lt_irrefl _)
  dsimp only at h
  split at h
  · rename_i hdma
    obtain ⟨j, hmove, hdraw⟩ := zoneMove_allocDma h
    rw [cold_clear] at hdraw
    refine above_of_moves (i := 0) (ZoneMove.refl .normal s) hmove (.inl rfl)
      (hdraw.imp_right fun hd => ?_) z hlt
    refine hd.above (hlow _) fun hk => ?_
    have hCk := hC (by simp [hk])
    rw [if_pos hdma] at hCk
    exact hCk
  rename_i hdma
  rw [if_neg (by simpa using hirq)] at h
  rw [if_neg hdma] at hC
  obtain ⟨⟨o₁, s₁⟩, hnormal, h⟩ := bind_eq_ok.1 h
  obtain ⟨i, hi, hdraw₁⟩ := zoneMove_tryZone hnormal
  rw [cold_clear] at hdraw₁
  have hi' : i = 0 ∨ (s.zone .normal).pagesLow < (s.zone .normal).freePages - i := by
    refine hdraw₁.imp_right fun ⟨hpass, hd⟩ => hd.above (hlow _) fun hk => ?_
    subst hk
    exact (hC rfl).1 hpass
  cases o₁ with
  | some p =>
    obtain ⟨_, rfl⟩ := Prod.mk.inj (Except.ok.inj h)
    exact above_of_moves (j := 0) hi (ZoneMove.refl .kern s₁) hi' (.inl rfl) z hlt
  | none =>
    obtain ⟨⟨o₂, s₂⟩, hkern, h⟩ := bind_eq_ok.1 h
    obtain ⟨j, hj, hdraw₂⟩ := zoneMove_tryZone hkern
    -- the round in the normal zone has not touched the kernel zone
    have hsame : s₁.zone .kern = s.zone .kern := hi.other .kern (by decide)
    rw [cold_clear, Passes, hsame] at hdraw₂
    have hj' : j = 0 ∨ (s.zone .kern).pagesLow < (s.zone .kern).freePages - j := by
      refine hdraw₂.imp_right fun ⟨hpass, hd⟩ => hd.above (hlow _) fun hk => ?_
      subst hk
      exact (hC rfl).2 hpass ⟨s₁, hnormal⟩
    have hs : s' = s₂ := by
      cases o₂ with
      | some p => exact (Prod.mk.inj (Except.ok.inj h)).2.symm
      | none =>
        dsimp only at h
        split at h
        · obtain ⟨_, _, h⟩ := bind_eq_ok.1 h
          cases h
        · exact (Prod.mk.inj (Except.ok.inj h)).2.symm
    subst hs
    exact above_of_moves hi hj hi' hj' z hlt

/-- Only the flag for the page cache matters to a round. -/
theorem tryZone_congr {f g : Nat} (h : f &&& GFP_COLD = g &&& GFP_COLD) :
    tryZone s z k f = tryZone s z k g := by
  unfold tryZone bufferedRmqueue
  rw [h]

theorem and_two_pow_eq (n i : Nat) : n &&& 2 ^ i = n / 2 ^ i % 2 * 2 ^ i := by
  rw [Nat.and_two_pow, Nat.testBit_eq_decide_div_mod_eq]
  rcases Nat.mod_two_eq_zero_or_one (n / 2 ^ i) with h | h <;> simp [h]

/-- Clearing `__GFP_WAIT` leaves the other flags alone. -/
theorem wait_clear (g : Nat) :
    (g - (g &&& GFP_WAIT)) &&& GFP_IRQ = g &&& GFP_IRQ ∧
      (g - (g &&& GFP_WAIT)) &&& GFP_DMA = g &&& GFP_DMA ∧
      (g - (g &&& GFP_WAIT)) &&& GFP_WAIT = 0 := by
  have hirq := fun n => and_two_pow_eq n 4
  have hdma := fun n => and_two_pow_eq n 3
  have hwait := fun n => and_two_pow_eq n 2
  simp only [Nat.reducePow] at hirq hdma hwait
  simp only [GFP_WAIT, GFP_IRQ, GFP_DMA, hirq, hdma, hwait]
  omega

theorem noWrap_clear_wait {order : Int} (h : NoWrap s (.allocPages order gfpFlags)) :
    NoWrap s (.allocPages order (gfpFlags - (gfpFlags &&& GFP_WAIT))) := by
  obtain ⟨hirq, hdma, _⟩ := wait_clear gfpFlags
  simp only [NoWrap, hirq, hdma, tryZone_congr ((cold_clear _).trans (cold_clear gfpFlags).symm)]
  exact h

/-- **One call** keeps the watermarks where they are, and the free pages above them. -/
theorem memStep_keepsWatermark {o : MemOp} (hlow : ∀ z, (s.zone z).pagesLow < 2 ^ 31)
    (hC : NoWrap s o) (h : memStep s o = .ok s') :
    KeepsWatermark s o s' ∧ ∀ z, (s'.zone z).pagesLow < 2 ^ 31 := by
  -- a call of `__alloc_pages`, with or without `__GFP_WAIT`
  have halloc : ∀ {order : Int} {g : Nat} {o : Option Nat}, NoWrap s (.allocPages order g) →
      allocPages s order g = .ok (o, s') →
      (g &&& GFP_IRQ = 0 → ∀ z, (s'.zone z).freePages < (s.zone z).freePages →
        (s'.zone z).pagesLow < (s'.zone z).freePages) ∧ ∀ z, (s'.zone z).pagesLow < 2 ^ 31 := by
    intro order g o hC h
    unfold allocPages at h
    split at h
    · obtain ⟨_, rfl⟩ := Prod.mk.inj (Except.ok.inj h)
      exact ⟨fun _ z hlt => absurd hlt (lt_irrefl _), hlow⟩
    · obtain ⟨n, rfl⟩ := Int.eq_ofNat_of_zero_le (not_lt.1 ‹¬order < 0›)
      refine ⟨fun hirq z hlt => allocPages_above hlow hC hirq h z hlt, fun z => ?_⟩
      obtain ⟨t, _, _, hn, hk⟩ := allocPages_moves h
      cases z with
      | kern =>
        rw [hk.pagesLow, hn.other .kern (by decide)]
        exact hlow .kern
      | normal =>
        rw [hk.other .normal (by decide), hn.pagesLow]
        exact hlow .normal
  -- a release lowers nothing
  have hrelease : ∀ (z : ZoneId) (n : Nat), ZoneMove z n s s' →
      (True → ∀ z, (s'.zone z).freePages < (s.zone z).freePages →
        (s'.zone z).pagesLow < (s'.zone z).freePages) ∧ ∀ z, (s'.zone z).pagesLow < 2 ^ 31 := by
    intro z n hmove
    refine ⟨fun _ z' hlt => ?_, fun z' => ?_⟩
    · by_cases hz : z' = z
      · subst hz
        rw [hmove.freePages] at hlt
        omega
      · rw [hmove.other z' hz] at hlt
        exact absurd hlt (lt_irrefl _)
    · by_cases hz : z' = z
      · rw [hz, hmove.pagesLow]
        exact hlow z
      · rw [hmove.other z' hz]
        exact hlow z'
  cases o with
  | allocPages order gfpFlags =>
    simp only [memStep] at h
    split at h
    · rename_i heq
      obtain rfl := Except.ok.inj h
      exact halloc hC heq
    · -- asleep after two rounds
      obtain ⟨o, heq⟩ : ∃ o, allocPages s order (gfpFlags - (gfpFlags &&& GFP_WAIT)) =
          .ok (o, s') := by
        cases heq : allocPages s order (gfpFlags - (gfpFlags &&& GFP_WAIT)) with
        | error e =>
          rw [heq] at h
          cases h
        | ok r =>
          rw [heq] at h
          obtain rfl := Except.ok.inj h
          exact ⟨r.1, rfl⟩
      obtain ⟨hkeep, hlow'⟩ := halloc (noWrap_clear_wait hC) heq
      rw [(wait_clear gfpFlags).1] at hkeep
      exact ⟨hkeep, hlow'⟩
    · cases h
  | freePage page =>
    simp only [memStep, __freePage] at h
    split at h
    · have hadd : ZoneMove .kern 1 s (setZone s .kern (addFreePages 1)) := zoneMove_setZone s rfl rfl
      exact hrelease .kern 1 (by simpa using hadd.trans (zoneMove_listAdd h))
    · obtain ⟨n, _, hmove⟩ := zoneMove_freePages h
      exact hrelease _ n hmove

end Step

/-! ## §3 Runs -/

/-- **The low watermark holds** in every run whose refill tests do not wrap: from any state, no call
    without `__GFP_IRQ` lowers a zone to its watermark, whatever calls and releases came before. -/
theorem watermark_kept (s : Mem) (hlow : ∀ z, (s.zone z).pagesLow < 2 ^ 31) (ops : List MemOp)
    (hC : Meets memStep NoWrap s ops) : Throughout memStep KeepsWatermark s ops :=
  throughout_of_meets (fun s => ∀ z, (s.zone z).pagesLow < 2 ^ 31)
    (fun _ _ _ hlow hC h => memStep_keepsWatermark hlow hC h) hlow hC

instance (s : Mem) (z : ZoneId) : Decidable (HasBatch s z) :=
  inferInstanceAs (Decidable (_ ∨ _))

instance (s : Mem) (z : ZoneId) (k : Nat) : Decidable (Passes s z k) :=
  inferInstanceAs (Decidable (¬ _))

instance (x : Except Fault (Option Nat × Mem)) : Decidable (∃ t, x = .ok (none, t)) :=
  match x with
  | .ok (none, t) => .isTrue ⟨t, rfl⟩
  | .ok (some _, _) => .isFalse (by simp)
  | .error _ => .isFalse (by simp)

instance (s : Mem) : ∀ o : MemOp, Decidable (NoWrap s o)
  | .allocPages order gfpFlags => inferInstanceAs (Decidable (gfpFlags &&& GFP_IRQ = 0 → order = 0 →
      if gfpFlags &&& GFP_DMA ≠ 0 then HasBatch s .kern
      else
        (Passes s .normal 0 → HasBatch s .normal) ∧
        (Passes s .kern 0 → (∃ t, tryZone s .normal 0 (gfpFlags - (gfpFlags &&& GFP_COLD)) =
          .ok (none, t)) → HasBatch s .kern)))
  | .freePage _ => inferInstanceAs (Decidable True)

/-- A kernel zone of six pages and two reserved pages, and an empty normal zone; the page caches hold
    `high` pages at most. -/
def cachedSix (high : Nat) : Except Fault Mem :=
  (bootZones (zeroMem 16) (14 * PGSIZE) 2 (8 * PGSIZE) 6 (16 * PGSIZE) 0).map fun s =>
    { s with zone := fun z => { s.zone z with pageset := fun _ => ⟨0, 0, high, 0⟩ } }

/-- A page for DMA, which takes a batch of two, two pages in one block, and a reserved page. -/
theorem watermark_kept_cachedSix : ∃ s s', cachedSix 2 = .ok s ∧
    [.allocPages 0 GFP_DMA, .allocPages 1 0, .allocPages 0 GFP_IRQ].foldlM memStep s = .ok s' ∧
    (s'.zone .kern).freePages = 3 ∧
    Throughout memStep KeepsWatermark s
      [.allocPages 0 GFP_DMA, .allocPages 1 0, .allocPages 0 GFP_IRQ] := by
  have hval : (cachedSix 2).toOption.map (fun s =>
      (decide (Meets memStep NoWrap s
          [.allocPages 0 GFP_DMA, .allocPages 1 0, .allocPages 0 GFP_IRQ] ∧
        (s.zone .kern).pagesLow < 2 ^ 31 ∧ (s.zone .normal).pagesLow < 2 ^ 31),
        ([.allocPages 0 GFP_DMA, .allocPages 1 0, .allocPages 0 GFP_IRQ].foldlM memStep
          s).toOption.map fun s' => (s'.zone .kern).freePages)) = some (true, some 3) := by
    decide +kernel
  cases hboot : cachedSix 2 with
  | error e =>
    rw [hboot] at hval
    cases hval
  | ok s =>
    rw [hboot] at hval
    obtain ⟨hmeets, hrun⟩ := Prod.mk.inj (Option.some.inj hval)
    obtain ⟨hmeets, hkern, hnormal⟩ := of_decide_eq_true hmeets
    obtain ⟨s', hs', hfree⟩ := Option.map_eq_some_iff.1 hrun
    refine ⟨s, s', rfl, eq_ok_of_toOption hs', hfree, watermark_kept s (fun z => ?_) _ hmeets⟩
    cases z with
    | kern => exact hkern
    | normal => exact hnormal

/-- After boot, one request for a page takes all six pages of the kernel zone off the free lists, down
    to the watermark, and fails. -/
theorem refill_empties_zone : ∃ s s', cachedSix 1024 = .ok s ∧
    memStep s (.allocPages 0 GFP_DMA) = .ok s' ∧
    (s.zone .kern).freePages = 8 ∧ (s'.zone .kern).freePages = 2 ∧ (s'.zone .kern).pagesLow = 2 ∧
    ¬ Throughout memStep KeepsWatermark s [.allocPages 0 GFP_DMA] := by
  have hval : (cachedSix 1024).toOption.map (fun s => ((s.zone .kern).freePages,
      (memStep s (.allocPages 0 GFP_DMA)).toOption.map fun s' =>
        ((s'.zone .kern).freePages, (s'.zone .kern).pagesLow))) = some (8, some (2, 2)) := by
    decide +kernel
  cases hboot : cachedSix 1024 with
  | error e =>
    rw [hboot] at hval
    cases hval
  | ok s =>
    rw [hboot] at hval
    obtain ⟨hbefore, hafter⟩ := Prod.mk.inj (Option.some.inj hval)
    obtain ⟨s', hs', hfree⟩ := Option.map_eq_some_iff.1 hafter
    obtain ⟨hfree, hlow⟩ := Prod.mk.inj hfree
    refine ⟨s, s', rfl, eq_ok_of_toOption hs', hbefore, hfree, hlow, fun hall => ?_⟩
    have hkeep := (hall s' (eq_ok_of_toOption hs')).1 rfl .kern (by rw [hbefore, hfree]; decide)
    rw [hfree, hlow] at hkeep
    exact absurd hkeep (by decide)

end WeiOS.Buddy
