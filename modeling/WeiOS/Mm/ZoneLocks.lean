import Mathlib
import WeiOS.Lib.Run
import WeiOS.Mm.Buddy
import WeiOS.Mm.PageAlloc
import WeiOS.Mm.ZoneMoves
import WeiOS.Mm.Watermark

/-!
# The Locks of the Zones

`__alloc_pages` locks a zone before it asks it for a page. In the loop over the zones the lock is
released after the watermark test fails and after a page was found, but not when `buffered_rmqueue`
has none to give. The next call that comes to this zone finds its lock taken.

## Main results
- `locks_released_iff`: the calls that leave both zones unlocked.
- `failed_refill_keeps_lock`: a request after which every other one ends in a panic.
-/

namespace WeiOS.Buddy

open WeiOS.Lib

/-! ## §1 A round -/

/-- No zone is locked. -/
def LocksFree (s : Mem) : Prop := ∀ z, (s.zone z).zoneLock = false

/-- The call takes no lock twice, returns, and leaves no zone locked. -/
def ReleasesLocks (r : Except Fault (Option Nat × Mem)) : Prop :=
  ∃ o s', r = .ok (o, s') ∧ LocksFree s'

section Rounds

variable {R : Int → Nat → Prop} {first size : ZoneId → Nat} {s s' : Mem} {held : List Nat}
  {z : ZoneId} {k gfpFlags : Nat}

/-- `buffered_rmqueue` always returns and never touches the lock. -/
theorem bufferedRmqueue_total (h : CacheInv R first size s held) (gfpFlags : Nat)
    (hpass : k ≠ 0 → Passes s z k) :
    ∃ o s', bufferedRmqueue s z k gfpFlags = .ok (o, s') ∧
      (s'.zone z).zoneLock = (s.zone z).zoneLock ∧
      (o.isSome = true ↔ Supplies (s.zone z) k (gfpFlags &&& GFP_COLD)) ∧
      (o = none → CacheInv R first size s' held) := by
  by_cases hk : k = 0
  · subst hk
    obtain ⟨o, s', hok, _, hinv, hlock, hiff⟩ := bufferedRmqueue_spec h z gfpFlags
    exact ⟨o, s', hok, hlock, hiff, fun ho => by simpa [ho] using hinv⟩
  · obtain ⟨o, s', hok, hlock, hiff, hsame⟩ := bufferedRmqueue_block h z hk gfpFlags (hpass hk)
    exact ⟨o, s', hok, hlock, hiff, fun ho => (hsame ho).symm ▸ h⟩

theorem lockZone_free (hfree : (s.zone z).zoneLock = false) :
    lockZone s z = .ok (setZone s z fun zn => { zn with zoneLock := true }) :=
  if_neg (by simp [hfree])

theorem CacheInv.lockZone (h : CacheInv R first size s held) (hlock : lockZone s z = .ok s') :
    CacheInv R first size s' held := by
  rcases lockZone_spec h z with hdead | ⟨t, hok, hinv⟩
  · rw [hdead] at hlock
    cases hlock
  · obtain rfl : t = s' := Except.ok.inj (hok.symm.trans hlock)
    exact hinv

/-- **One round** ends with the zone locked exactly if the test passes and there is no page. -/
theorem tryZone_lock (h : CacheInv R first size s held) (hfree : (s.zone z).zoneLock = false)
    (gfpFlags : Nat) :
    ∃ o s', tryZone s z k gfpFlags = .ok (o, s') ∧
      (o.isSome = true ↔ Passes s z k ∧ Supplies (s.zone z) k (gfpFlags &&& GFP_COLD)) ∧
      ((s'.zone z).zoneLock = false ↔
        (Passes s z k → Supplies (s.zone z) k (gfpFlags &&& GFP_COLD))) ∧
      (o = none → CacheInv R first size s' held) := by
  have hlock := lockZone_free hfree
  have hinv := h.lockZone hlock
  have hzone := lockZone_zone hlock
  generalize setZone s z (fun zn => { zn with zoneLock := true }) = s₁ at hlock hinv hzone
  have hsup : Supplies (s₁.zone z) k (gfpFlags &&& GFP_COLD) ↔
      Supplies (s.zone z) k (gfpFlags &&& GFP_COLD) := by
    rw [hzone]
    exact Iff.rfl
  have htest : Passes s₁ z k ↔ Passes s z k := by
    rw [Passes, Passes, hzone]
  unfold tryZone
  simp only [hlock, bind, Except.bind]
  by_cases hpass : Passes s z k
  · rw [if_neg (htest.2 hpass)]
    obtain ⟨o, s₂, hok, hlock₂, hiff, hinv₂⟩ :=
      bufferedRmqueue_total (k := k) hinv gfpFlags fun _ => htest.2 hpass
    rw [hsup] at hiff
    rw [hok]
    cases o with
    | none =>
      -- the round goes on without the unlock
      refine ⟨none, s₂, rfl, ?_, ?_, hinv₂⟩
      · rw [and_iff_right hpass]
        exact hiff
      · rw [forall_prop_of_true hpass, ← hiff, hlock₂, hzone]
        simp
    | some p =>
      refine ⟨some p, unlockZone s₂ z, rfl, ?_, ?_, fun ho => by cases ho⟩
      · rw [and_iff_right hpass]
        exact hiff
      · rw [forall_prop_of_true hpass, ← hiff]
        simp [unlockZone, setZone]
  · rw [if_pos (not_not.1 fun hn => hpass (htest.1 hn))]
    refine ⟨none, _, rfl, ?_, ?_, fun _ => unlockZone_spec hinv z⟩
    · simp [hpass]
    · simp [hpass, unlockZone, setZone]

theorem allocDma_releases (h : CacheInv R first size s held) (hfree : LocksFree s) :
    ReleasesLocks (allocDma s k gfpFlags) := by
  have hlock := lockZone_free (hfree .kern)
  have hinv := h.lockZone hlock
  have hother : ∀ {o : Option Nat} {s' : Mem}, allocDma s k gfpFlags = .ok (o, s') →
      (s'.zone .normal).zoneLock = false := by
    intro o s' hok
    obtain ⟨_, hmove, _⟩ := zoneMove_allocDma hok
    rw [hmove.other .normal (by decide)]
    exact hfree .normal
  have hreturn : ∃ o s', allocDma s k gfpFlags = .ok (o, s') ∧ (s'.zone .kern).zoneLock = false := by
    unfold allocDma
    simp only [hlock, bind, Except.bind]
    generalize setZone s .kern (fun zn => { zn with zoneLock := true }) = s₁ at hinv
    split
    · exact ⟨none, _, rfl, by simp [unlockZone, setZone]⟩
    · rename_i htest
      obtain ⟨o, s₂, hok, _⟩ := bufferedRmqueue_total (k := k) hinv gfpFlags
        fun hk hle => htest ⟨hle, hk⟩
      rw [hok]
      exact ⟨o, _, rfl, by simp [unlockZone, setZone]⟩
  obtain ⟨o, s', hok, hkern⟩ := hreturn
  refine ⟨o, s', hok, fun z => ?_⟩
  cases z with
  | kern => exact hkern
  | normal => exact hother hok

/-- A reserved page is there as long as the list is no shorter than the counter says. -/
theorem allocIrq_releases (h : CacheInv (fun r n => r ≤ n) first size s held) (hfree : LocksFree s) :
    ReleasesLocks (allocIrq s) := by
  have hlock := lockZone_free (hfree .kern)
  have hinv := h.lockZone hlock
  have hother : ∀ {o : Option Nat} {s' : Mem}, allocIrq s = .ok (o, s') →
      (s'.zone .normal).zoneLock = false := by
    intro o s' hok
    obtain ⟨_, hmove⟩ := zoneMove_allocIrq hok
    rw [hmove.other .normal (by decide)]
    exact hfree .normal
  have hreturn : ∃ o s', allocIrq s = .ok (o, s') ∧ (s'.zone .kern).zoneLock = false := by
    unfold allocIrq
    simp only [hlock, bind, Except.bind]
    generalize setZone s .kern (fun zn => { zn with zoneLock := true }) = s₁ at hinv
    split
    · rename_i hpos
      -- the counter is positive, so the list has a page
      obtain ⟨xs, fs, hs, hf, hcount, hres⟩ := hinv
      obtain ⟨p, rest, hxs⟩ : ∃ p rest, xs (.reserved .kern) = p :: rest :=
        List.exists_cons_of_ne_nil (List.ne_nil_of_length_pos (by omega))
      have hp : ∀ z, ¬ InZone first size z p := hf.reserved .kern p (by simp [hxs])
      obtain ⟨L, hentry, hdel, _⟩ := hf.take ⟨.kern, .inl rfl⟩ (by simp) (.inl hp) hxs
      rw [hentry]
      simp only [hdel]
      exact ⟨some p, _, rfl, by simp [unlockZone, setZone]⟩
    · exact ⟨none, _, rfl, by simp [unlockZone, setZone]⟩
  obtain ⟨o, s', hok, hkern⟩ := hreturn
  refine ⟨o, s', hok, fun z => ?_⟩
  cases z with
  | kern => exact hkern
  | normal => exact hother hok

end Rounds

/-! ## §2 Calls -/

/-- No zone that passes the watermark test is short of pages: the normal zone, or the kernel zone when
    the normal zone does not pass. Only requests that go through the loop over the zones need this. -/
def NoFailedRound (s : Mem) (order : Int) (gfpFlags : Nat) : Prop :=
  order < 0 ∨ MEMLEVEL ≤ order ∨ gfpFlags &&& GFP_DMA ≠ 0 ∨ gfpFlags &&& GFP_IRQ ≠ 0 ∨
    if Passes s .normal order.toNat then Supplies (s.zone .normal) order.toNat 0
    else Passes s .kern order.toNat → Supplies (s.zone .kern) order.toNat 0

section Calls

variable {first size : ZoneId → Nat} {s s' : Mem} {held : List Nat} {k gfpFlags : Nat}

/-- The loop over the zones, for a caller that does not wait. -/
theorem loop_releases_iff {R : Int → Nat → Prop} (h : CacheInv R first size s held)
    (hfree : LocksFree s) (hk : k < MEMLEVEL) (hdma : gfpFlags &&& GFP_DMA = 0)
    (hirq : gfpFlags &&& GFP_IRQ = 0) (hwait : gfpFlags &&& GFP_WAIT = 0) :
    ReleasesLocks (__allocPages s k gfpFlags) ↔
      if Passes s .normal k then Supplies (s.zone .normal) k 0
      else Passes s .kern k → Supplies (s.zone .kern) k 0 := by
  unfold __allocPages
  rw [if_neg (not_le.2 hk)]
  dsimp only
  rw [if_neg (not_not.2 hdma), if_neg (not_not.2 hirq)]
  have hcold := cold_clear gfpFlags
  generalize gfpFlags - (gfpFlags &&& GFP_COLD) = flags at hcold
  obtain ⟨o₁, s₁, hok₁, hsome₁, hlock₁, hinv₁⟩ :=
    tryZone_lock (k := k) h (hfree .normal) flags
  rw [hcold] at hsome₁ hlock₁
  obtain ⟨_, hmove₁, _⟩ := zoneMove_tryZone hok₁
  have hkern₁ : s₁.zone .kern = s.zone .kern := hmove₁.other .kern (by decide)
  simp only [hok₁, bind, Except.bind]
  cases o₁ with
  | some p =>
    -- a page of the normal zone
    obtain ⟨hpass, hsup⟩ := hsome₁.1 rfl
    rw [if_pos hpass]
    refine iff_of_true ⟨some p, s₁, rfl, fun z => ?_⟩ hsup
    cases z with
    | kern =>
      rw [hkern₁]
      exact hfree .kern
    | normal => exact hlock₁.2 fun _ => hsup
  | none =>
    have hfree₁ : (s₁.zone .kern).zoneLock = false := by
      rw [hkern₁]
      exact hfree .kern
    obtain ⟨o₂, s₂, hok₂, _, hlock₂, _⟩ := tryZone_lock (k := k) (hinv₁ rfl) hfree₁ flags
    rw [hcold, Passes, hkern₁] at hlock₂
    obtain ⟨_, hmove₂, _⟩ := zoneMove_tryZone hok₂
    have hnormal₂ : s₂.zone .normal = s₁.zone .normal := hmove₂.other .normal (by decide)
    have hiff : ReleasesLocks (.ok (o₂, s₂)) ↔
        (s₁.zone .normal).zoneLock = false ∧ (s₂.zone .kern).zoneLock = false := by
      rw [← hnormal₂]
      constructor
      · rintro ⟨_, _, hok, hfree₂⟩
        obtain ⟨_, rfl⟩ := Prod.mk.inj (Except.ok.inj hok)
        exact ⟨hfree₂ .normal, hfree₂ .kern⟩
      · rintro ⟨hn, hk⟩
        refine ⟨o₂, s₂, rfl, fun z => ?_⟩
        cases z with
        | kern => exact hk
        | normal => exact hn
    have hboth : ReleasesLocks (.ok (o₂, s₂)) ↔
        if Passes s .normal k then Supplies (s.zone .normal) k 0
        else Passes s .kern k → Supplies (s.zone .kern) k 0 := by
      rw [hiff, hlock₁, hlock₂]
      by_cases hpass : Passes s .normal k
      · -- the normal zone keeps its lock, whatever the kernel zone has
        have hno : ¬ Supplies (s.zone .normal) k 0 := fun hsup =>
          Bool.false_ne_true (hsome₁.2 ⟨hpass, hsup⟩)
        rw [if_pos hpass]
        exact iff_of_false (fun hn => hno (hn.1 hpass)) hno
      · rw [if_neg hpass]
        exact and_iff_right fun hp => absurd hp hpass
    simp only [hok₂]
    cases o₂ with
    | some p => exact hboth
    | none =>
      dsimp only
      rw [if_neg (not_not.2 hwait)]
      exact hboth

/-- **The zone locks are released** exactly if no round fails after its watermark test: for any state
    with its lists in order and no zone locked, any order and any flags without `__GFP_WAIT`. -/
theorem locks_released_iff (h : CacheInv (fun r n => r ≤ n) first size s held) (hfree : LocksFree s)
    (order : Int) (gfpFlags : Nat) (hwait : gfpFlags &&& GFP_WAIT = 0) :
    ReleasesLocks (allocPages s order gfpFlags) ↔ NoFailedRound s order gfpFlags := by
  have hnone : ReleasesLocks (.ok (none, s)) := ⟨none, s, rfl, hfree⟩
  unfold allocPages
  by_cases horder : order < 0
  · rw [if_pos horder]
    exact iff_of_true hnone (.inl horder)
  rw [if_neg horder, NoFailedRound, or_iff_right horder]
  obtain ⟨k, rfl⟩ := Int.eq_ofNat_of_zero_le (not_lt.1 horder)
  rw [Int.toNat_natCast, Nat.cast_le]
  by_cases hk : MEMLEVEL ≤ k
  · rw [__allocPages, if_pos hk]
    exact iff_of_true hnone (.inl hk)
  by_cases hdma : gfpFlags &&& GFP_DMA = 0
  · by_cases hirq : gfpFlags &&& GFP_IRQ = 0
    · rw [or_iff_right hk, or_iff_right (not_not.2 hdma), or_iff_right (not_not.2 hirq)]
      exact loop_releases_iff h hfree (not_le.1 hk) hdma hirq hwait
    · refine iff_of_true ?_ (.inr (.inr (.inl hirq)))
      rw [__allocPages, if_neg hk]
      dsimp only
      rw [if_neg (not_not.2 hdma), if_pos hirq]
      exact allocIrq_releases h hfree
  · refine iff_of_true ?_ (.inr (.inl hdma))
    rw [__allocPages, if_neg hk]
    dsimp only
    rw [if_pos hdma]
    exact allocDma_releases h hfree

end Calls

instance (zn : Zone) (k c : Nat) : Decidable (Supplies zn k c) :=
  inferInstanceAs (Decidable (if k = 0 then _ ∨ (¬ _ ∧ _) else ∃ j < MEMLEVEL, _ ∧ _))

instance (s : Mem) (order : Int) (gfpFlags : Nat) : Decidable (NoFailedRound s order gfpFlags) :=
  inferInstanceAs (Decidable (_ ∨ _ ∨ _ ∨ _ ∨
    if Passes s .normal order.toNat then Supplies (s.zone .normal) order.toNat 0
    else Passes s .kern order.toNat → Supplies (s.zone .kern) order.toNat 0))

instance (s : Mem) : Decidable (LocksFree s) :=
  decidable_of_iff ((s.zone .kern).zoneLock = false ∧ (s.zone .normal).zoneLock = false)
    ⟨fun h => fun | .kern => h.1 | .normal => h.2, fun h => ⟨h .kern, h .normal⟩⟩

/-- Two pages in one block, from a kernel zone of six. -/
theorem locks_released_iff_block : ∃ s,
    bootZones (zeroMem 16) (14 * PGSIZE) 2 (8 * PGSIZE) 6 (16 * PGSIZE) 0 = .ok s ∧
    LocksFree s ∧ NoFailedRound s 1 0 ∧ ReleasesLocks (allocPages s 1 0) := by
  obtain ⟨s, hok, hinv⟩ := bootZones_inv (zeroMem 16) (14 * PGSIZE) 2 (8 * PGSIZE) 6 (16 * PGSIZE) 0
    (by decide) (by decide) (by decide)
    (fun p h1 _ _ h4 => by simp [PGSIZE] at h1 h4; omega)
    (fun p _ _ h3 h4 => by omega) (fun p _ _ h3 h4 => by omega)
  have hval : (bootZones (zeroMem 16) (14 * PGSIZE) 2 (8 * PGSIZE) 6 (16 * PGSIZE) 0).toOption.map
      (fun s => decide (LocksFree s ∧ NoFailedRound s 1 0)) = some true := by decide +kernel
  rw [hok] at hval
  obtain ⟨hfree, hgood⟩ := of_decide_eq_true (Option.some.inj hval)
  have hinv' : CacheInv (fun r n => r ≤ n) _ _ s [] := (allocInv_iff.1 hinv).mono fun r n he => le_of_eq he
  exact ⟨s, hok, hfree, hgood, (locks_released_iff hinv' hfree 1 0 (by decide)).2 hgood⟩

/-- After boot, a request for one page finds the batch too large for the kernel zone and returns with
    the zone locked: the next request panics. -/
theorem failed_refill_keeps_lock : ∃ s s', cachedSix 1024 = .ok s ∧ LocksFree s ∧
    allocPages s 0 0 = .ok (none, s') ∧ (s'.zone .kern).zoneLock = true ∧
    allocPages s' 0 0 = .error .deadlock ∧ ¬ ReleasesLocks (allocPages s 0 0) := by
  have hval : (cachedSix 1024).toOption.map (fun s => (decide (LocksFree s),
      (allocPages s 0 0).toOption.map fun r =>
        (r.1, (r.2.zone .kern).zoneLock, errorOf (allocPages r.2 0 0)))) =
      some (true, some (none, true, some .deadlock)) := by decide +kernel
  cases hboot : cachedSix 1024 with
  | error e =>
    rw [hboot] at hval
    cases hval
  | ok s =>
    rw [hboot] at hval
    obtain ⟨hfree, hcall⟩ := Prod.mk.inj (Option.some.inj hval)
    obtain ⟨⟨o, s'⟩, hok, hafter⟩ := Option.map_eq_some_iff.1 hcall
    obtain ⟨rfl, hafter⟩ := Prod.mk.inj hafter
    obtain ⟨hlock, hnext⟩ := Prod.mk.inj hafter
    have hok' := eq_ok_of_toOption hok
    refine ⟨s, s', rfl, of_decide_eq_true hfree, hok', hlock, eq_error_of_errorOf hnext, ?_⟩
    rintro ⟨o', t, hok'', hfree'⟩
    obtain ⟨_, rfl⟩ := Prod.mk.inj (Except.ok.inj (hok'.symm.trans hok''))
    have := hfree' .kern
    rw [hlock] at this
    cases this

end WeiOS.Buddy
