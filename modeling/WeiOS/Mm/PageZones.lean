import Mathlib
import WeiOS.Lib.Run
import WeiOS.Lib.IntrusiveList
import WeiOS.Lib.Dyadic
import WeiOS.Mm.Buddy
import WeiOS.Mm.BuddyZone
import WeiOS.Mm.BuddyBoot
import WeiOS.Mm.PageAlloc
import WeiOS.Mm.ZoneMoves

/-!
# Pages and Their Zones

`free_hot_cold_page` finds the zone of a page in the lowest bit of its `flag`. `boot_zone_init` sets
that bit only in the descriptors at the start of its blocks. A page inside a block of the normal zone
keeps `flag = 0`: once the block is split and the page comes back, it goes to the kernel zone, and a
later request with `__GFP_DMA` may get it.

## Main results
- `bootZones_flag`: the flags after boot.
- `ownZone_of_run`: the releases that put a page back into its own zone, over whole runs.
- `normal_page_becomes_dma`: a page of the normal zone that is handed out for `__GFP_DMA`.
-/

namespace WeiOS.Buddy

open WeiOS.Lib

/-! ## §1 Flags -/

/-- All page descriptors keep their flags. -/
def SameFlags (s s' : Mem) : Prop := ∀ p, (s'.page p).flag = (s.page p).flag

theorem SameFlags.trans {s s' s'' : Mem} (h : SameFlags s s') (h' : SameFlags s' s'') :
    SameFlags s s'' :=
  fun p => (h' p).trans (h p)

/-- An allocation leaves the flags alone. -/
theorem sameFlags_allocPage {s s' : Mem} {gfpFlags : Nat} {o : Option Nat}
    (h : allocPage s gfpFlags = .ok (o, s')) : SameFlags s s' := by
  obtain ⟨t, _, _, hnormal, hkern⟩ := allocPages_moves h
  exact fun p => (hkern.flag p).trans (hnormal.flag p)

/-! ## §2 Flags after boot -/

/-- The pages of a zone of `n` pages, counted from its first one, at which `boot_zone_init` starts a
    block when `m` is the highest order: every `2 ^ m` pages as long as these are whole, and one for
    each binary digit of the rest. -/
def BlockStart (m n i : Nat) : Prop :=
  i < n ∧ (2 ^ m ∣ i ∨ ∃ k ≤ m, i = n - n % 2 ^ k)

instance (m n i : Nat) : Decidable (BlockStart m n i) :=
  inferInstanceAs (Decidable (_ ∧ (_ ∨ _)))

section Boot

variable {z : ZoneId} {s s' : Mem} {start : Nat}

/-- A block of order `k` is cut at `pos`, in the part of the zone that `bootLevel` works on. -/
theorem bootLevel_flag {k fuel r pos r' phy' : Nat} (hr : r ≤ fuel)
    (hn : start / PGSIZE + pos + r ≤ s.npagesNum)
    (h : bootLevel z k fuel r (start + PGSIZE * pos) s = .ok (r', phy', s')) :
    r' = r % 2 ^ k ∧ phy' = start + PGSIZE * (pos + (r - r % 2 ^ k)) ∧
      s'.npagesNum = s.npagesNum ∧
      ∀ q, (s'.page q).flag =
        if ∃ i < r - r % 2 ^ k, 2 ^ k ∣ i ∧ q = start / PGSIZE + pos + i then zoneFlag z
        else (s.page q).flag := by
  have hp2 := Nat.two_pow_pos k
  induction fuel generalizing r pos s with
  | zero =>
    obtain rfl : r = 0 := by omega
    obtain ⟨rfl, rfl, rfl⟩ : 0 = r' ∧ start + PGSIZE * pos = phy' ∧ s = s' := by
      simpa [bootLevel] using h
    simp
  | succ fuel ih =>
    by_cases hle : 2 ^ k ≤ r
    · rw [bootLevel, if_pos hle, pa2page_of_lt (by omega)] at h
      obtain ⟨s₁, hadd, h⟩ := bind_eq_ok.1 h
      rw [Nat.add_assoc, ← Nat.mul_add] at h
      have hs₁ : s₁.page = (bootPage s (start / PGSIZE + pos) (zoneFlag z) k).page ∧
          s₁.npagesNum = s.npagesNum := by
        unfold listAdd at hadd
        split at hadd
        · cases hadd
        · obtain rfl := Except.ok.inj hadd
          exact ⟨rfl, rfl⟩
      have hmod : (r - 2 ^ k) % 2 ^ k = r % 2 ^ k := (Nat.mod_eq_sub_mod hle).symm
      have hmodle : r % 2 ^ k ≤ r - 2 ^ k := by
        rw [← hmod]
        exact Nat.mod_le _ _
      obtain ⟨hr', hphy', hnp, hflag⟩ := ih (s := setZone s₁ z (incNrFree k)) (r := r - 2 ^ k)
        (by omega) (by
          show _ ≤ s₁.npagesNum
          rw [hs₁.2]
          omega) h
      refine ⟨hr'.trans hmod, ?_, hnp.trans hs₁.2, fun q => ?_⟩
      · rw [hphy', hmod]
        congr 2
        omega
      · rw [hflag q, hmod]
        have hold : ((setZone s₁ z (incNrFree k)).page q).flag =
            if q = start / PGSIZE + pos then zoneFlag z else (s.page q).flag := by
          show (s₁.page q).flag = _
          rw [hs₁.1]
          by_cases hq : q = start / PGSIZE + pos
          · simp [bootPage, hq]
          · simp [bootPage, hq]
        rw [hold]
        -- the first block starts at `pos`, the others `2 ^ k` further on
        by_cases hq : q = start / PGSIZE + pos
        · rw [if_pos hq, ite_self, if_pos ⟨0, by omega, Nat.dvd_zero _, by omega⟩]
        · rw [if_neg hq]
          refine if_congr ⟨?_, ?_⟩ rfl rfl
          · rintro ⟨i, hi, hdvd, rfl⟩
            exact ⟨2 ^ k + i, by omega, (Nat.dvd_add_right (Nat.dvd_refl _)).2 hdvd, by omega⟩
          · rintro ⟨i, hi, hdvd, rfl⟩
            have hpos : 0 < i := Nat.pos_of_ne_zero fun h0 => hq (by rw [h0, Nat.add_zero])
            have hki := Nat.le_of_dvd hpos hdvd
            exact ⟨i - 2 ^ k, by omega, Nat.dvd_sub hdvd (Nat.dvd_refl _), by omega⟩
    · rw [bootLevel, if_neg hle] at h
      obtain ⟨rfl, rfl, rfl⟩ : r = r' ∧ start + PGSIZE * pos = phy' ∧ s = s' := by simpa using h
      have hmod : r % 2 ^ k = r := Nat.mod_eq_of_lt (Nat.not_le.1 hle)
      simp [hmod]

/-- The levels below `m` cut the rest of the zone along its binary digits. -/
theorem bootLevels_flag {m r pos : Nat} (hr : r < 2 ^ m)
    (hn : start / PGSIZE + pos + r ≤ s.npagesNum)
    (h : bootLevels z m r (start + PGSIZE * pos) s = .ok s') :
    ∀ q, (s'.page q).flag =
      if ∃ k ≤ m, r - r % 2 ^ k < r ∧ q = start / PGSIZE + pos + (r - r % 2 ^ k) then zoneFlag z
      else (s.page q).flag := by
  induction m generalizing r pos s with
  | zero =>
    obtain rfl : r = 0 := by omega
    obtain rfl := Except.ok.inj h
    simp
  | succ m ih =>
    obtain ⟨⟨r₁, phy₁, s₁⟩, hlevel, h⟩ := bind_eq_ok.1 h
    obtain ⟨rfl, rfl, hnp, hflag⟩ := bootLevel_flag (Nat.le_refl r) (by exact hn) hlevel
    have hlt := Nat.mod_lt r (Nat.two_pow_pos m)
    have hmodle := Nat.mod_le r (2 ^ m)
    intro q
    rw [ih hlt (by rw [hnp]; show _ ≤ s.npagesNum; omega) h q, hflag q]
    have hmodmod : ∀ k ≤ m, r % 2 ^ m % 2 ^ k = r % 2 ^ k := fun k hk =>
      Nat.mod_mod_of_dvd r (Nat.pow_dvd_pow 2 hk)
    have htop : r % 2 ^ (m + 1) = r := Nat.mod_eq_of_lt hr
    by_cases hlow : ∃ k ≤ m, r % 2 ^ m - r % 2 ^ m % 2 ^ k < r % 2 ^ m ∧
        q = start / PGSIZE + (pos + (r - r % 2 ^ m)) + (r % 2 ^ m - r % 2 ^ m % 2 ^ k)
    · rw [if_pos hlow]
      obtain ⟨k, hk, hlt', hq⟩ := hlow
      rw [hmodmod k hk] at hlt' hq
      have hle : r % 2 ^ k ≤ r % 2 ^ m := by
        rw [← hmodmod k hk]
        exact Nat.mod_le _ _
      rw [if_pos ⟨k, by omega, by omega, by omega⟩]
    · rw [if_neg hlow]
      show (if _ then _ else (s.page q).flag) = _
      refine if_congr ⟨?_, ?_⟩ rfl rfl
      · -- below `2 ^ (m + 1)` there is one block of order `m` at most
        rintro ⟨i, hi, hdvd, hq⟩
        have hi0 : i = 0 := by
          obtain ⟨t, rfl⟩ := hdvd
          have : 2 ^ m * t < 2 ^ m * 1 := by
            have hdiv := Nat.div_add_mod r (2 ^ m)
            have hdivlt : r / 2 ^ m < 2 := by
              rw [Nat.div_lt_iff_lt_mul (Nat.two_pow_pos m), Nat.mul_comm, ← pow_succ]
              exact hr
            have hdivle : 2 ^ m * (r / 2 ^ m) ≤ 2 ^ m * 1 := Nat.mul_le_mul_left _ (by omega)
            omega
          have := Nat.lt_of_mul_lt_mul_left this
          have ht : t = 0 := by omega
          rw [ht, Nat.mul_zero]
        refine ⟨m + 1, Nat.le_refl _, ?_, ?_⟩
        · rw [htop]
          omega
        · rw [htop, hq, hi0]
          omega
      · rintro ⟨k, hk, hlt', hq⟩
        by_cases hkm : k = m + 1
        · rw [hkm, htop] at hq
          by_cases hzero : r - r % 2 ^ m = 0
          · -- nothing was cut at this level, so the block at `pos` is cut below
            exfalso
            refine hlow ⟨m, Nat.le_refl m, ?_, ?_⟩
            · rw [Nat.mod_mod]
              rw [hkm, htop] at hlt'
              omega
            · rw [Nat.mod_mod, hq]
              omega
          · exact ⟨0, by omega, Nat.dvd_zero _, by omega⟩
        · exfalso
          have hkm' : k ≤ m := by omega
          have hle : r % 2 ^ k ≤ r % 2 ^ m := by
            rw [← hmodmod k hkm']
            exact Nat.mod_le _ _
          refine hlow ⟨k, hkm', ?_, ?_⟩
          · rw [hmodmod k hkm']
            omega
          · rw [hmodmod k hkm', hq]
            omega

/-- The loop of `boot_zone_init` over the whole zone. -/
theorem bootLevels_whole_flag {m n : Nat} (hn : start / PGSIZE + n ≤ s.npagesNum)
    (h : bootLevels z (m + 1) n (start + PGSIZE * 0) s = .ok s') (q : Nat) :
    (s'.page q).flag =
      if start / PGSIZE ≤ q ∧ BlockStart m n (q - start / PGSIZE) then zoneFlag z
      else (s.page q).flag := by
  obtain ⟨⟨r₁, phy₁, s₁⟩, hlevel, h⟩ := bind_eq_ok.1 h
  obtain ⟨rfl, rfl, hnp, hflag⟩ := bootLevel_flag (Nat.le_refl n) (by exact hn) hlevel
  have hlt := Nat.mod_lt n (Nat.two_pow_pos m)
  have hmodle := Nat.mod_le n (2 ^ m)
  rw [bootLevels_flag hlt (by rw [hnp]; show _ ≤ s.npagesNum; omega) h q, hflag q]
  have hmodmod : ∀ k ≤ m, n % 2 ^ m % 2 ^ k = n % 2 ^ k := fun k hk =>
    Nat.mod_mod_of_dvd n (Nat.pow_dvd_pow 2 hk)
  have hmodle' : ∀ k ≤ m, n % 2 ^ k ≤ n % 2 ^ m := by
    intro k hk
    rw [← hmodmod k hk]
    exact Nat.mod_le _ _
  by_cases hstart : start / PGSIZE ≤ q ∧ BlockStart m n (q - start / PGSIZE)
  · rw [if_pos hstart]
    obtain ⟨hle, hi, hwhole | ⟨k, hk, hrest⟩⟩ := hstart
    · by_cases hin : q - start / PGSIZE < n - n % 2 ^ m
      · have hcut : ∃ i < n - n % 2 ^ m, 2 ^ m ∣ i ∧ q = start / PGSIZE + 0 + i :=
          ⟨_, hin, hwhole, by omega⟩
        rw [if_pos hcut, ite_self]
      · -- the last multiple of the largest block, where the rest starts
        refine if_pos ⟨m, Nat.le_refl _, ?_, ?_⟩
        · rw [Nat.mod_mod]
          omega
        · rw [Nat.mod_mod]
          have hdvd : 2 ^ m ∣ q - start / PGSIZE - (n - n % 2 ^ m) :=
            Nat.dvd_sub hwhole (Nat.dvd_sub_mod n)
          have := Nat.eq_zero_of_dvd_of_lt hdvd (by omega)
          omega
    · have := hmodle' k hk
      refine if_pos ⟨k, hk, ?_, ?_⟩
      · rw [hmodmod k hk]
        omega
      · rw [hmodmod k hk]
        omega
  · rw [if_neg hstart, if_neg, if_neg]
    · rfl
    · rintro ⟨i, hi, hdvd, rfl⟩
      refine hstart ⟨by omega, ?_⟩
      rw [Nat.add_zero, Nat.add_sub_cancel_left]
      exact ⟨by omega, .inl hdvd⟩
    · rintro ⟨k, hk, hlt', rfl⟩
      have := hmodle' k hk
      rw [hmodmod k hk] at hlt' hstart
      refine hstart ⟨by omega, by omega, .inr ⟨k, hk, by omega⟩⟩

theorem bootReserved_flag {n phy : Nat} (h : bootReserved z n phy s = .ok s') {q : Nat}
    (hq : ¬ (phy / PGSIZE ≤ q ∧ q < phy / PGSIZE + n)) :
    (s'.page q).flag = (s.page q).flag ∧ s'.npagesNum = s.npagesNum := by
  induction n generalizing phy s with
  | zero =>
    obtain rfl := Except.ok.inj h
    exact ⟨rfl, rfl⟩
  | succ n ih =>
    simp only [bootReserved, pa2page] at h
    split at h
    · obtain rfl := Except.ok.inj h
      exact ⟨rfl, rfl⟩
    · rename_i page hpage
      obtain ⟨s₁, hadd, h⟩ := bind_eq_ok.1 h
      have hdiv : (phy + PGSIZE) / PGSIZE = phy / PGSIZE + 1 := Nat.add_div_right _ (by decide)
      obtain ⟨hflag, hnp⟩ := ih h (by rw [hdiv]; omega)
      have hne : q ≠ page := by
        split at hpage
        · cases hpage
        · obtain rfl := Option.some.inj hpage
          omega
      unfold listAdd at hadd
      split at hadd
      · cases hadd
      · obtain rfl := Except.ok.inj hadd
        refine ⟨hflag.trans ?_, hnp⟩
        simp [bootPage, hne]

/-- **The flags that `boot_zone_init` writes**, outside the reserved pages. -/
theorem bootZoneInit_flag {reservedStart reservedSize n : Nat}
    (hn : start / PGSIZE + n ≤ s.npagesNum)
    (h : bootZoneInit s z reservedStart reservedSize start n = .ok s') {q : Nat}
    (hq : ¬ (reservedStart / PGSIZE ≤ q ∧ q < reservedStart / PGSIZE + reservedSize)) :
    (s'.page q).flag =
      if start / PGSIZE ≤ q ∧ BlockStart (MEMLEVEL - 1) n (q - start / PGSIZE) then zoneFlag z
      else (s.page q).flag := by
  obtain ⟨s₁, hres, hlevels⟩ := bind_eq_ok.1 h
  obtain ⟨hflag, hnp⟩ := bootReserved_flag hres hq
  rw [bootLevels_whole_flag (m := MEMLEVEL - 1) (by rw [hnp]; exact hn) hlevels q, hflag]
  rfl

end Boot

/-- The page range of each zone, by its first page and its size, as `bootZones` gets them. -/
structure Layout where
  npagesNum : Nat
  reservedStart : Nat
  reservedSize : Nat
  kernStart : Nat
  kernSize : Nat
  normalStart : Nat
  normalSize : Nat
  reserved_le : reservedStart / PGSIZE + reservedSize ≤ npagesNum
  kern_le : kernStart / PGSIZE + kernSize ≤ npagesNum
  normal_le : normalStart / PGSIZE + normalSize ≤ npagesNum
  reserved_kern : RangesApart (reservedStart / PGSIZE) reservedSize (kernStart / PGSIZE) kernSize
  reserved_normal :
    RangesApart (reservedStart / PGSIZE) reservedSize (normalStart / PGSIZE) normalSize
  kern_normal : RangesApart (kernStart / PGSIZE) kernSize (normalStart / PGSIZE) normalSize

/-- Page `p` is in the range of zone `z`. -/
def Layout.InZone (L : Layout) : ZoneId → Nat → Prop :=
  Buddy.InZone (perZone (L.kernStart / PGSIZE) (L.normalStart / PGSIZE))
    (perZone L.kernSize L.normalSize)

/-- The memory after boot: both zones on the zeroed page descriptors. -/
def Layout.boot (L : Layout) : Except Fault Mem :=
  bootZones (zeroMem L.npagesNum) L.reservedStart L.reservedSize L.kernStart L.kernSize
    L.normalStart L.normalSize

/-- The page is the first one of a block that `boot_zone_init` made of the normal zone. -/
def Layout.NormalStart (L : Layout) (p : Nat) : Prop :=
  BlockStart (MEMLEVEL - 1) L.normalSize (p - L.normalStart / PGSIZE)

/-- **Which zone a page is released to**: after boot, a page of the normal zone names its zone exactly
    if it starts a block. -/
theorem bootZones_flag (L : Layout) {s : Mem} (h : L.boot = .ok s) {z : ZoneId} {p : Nat}
    (hp : L.InZone z p) :
    (s.page p).flag &&& RESERVED_PAGE = 0 ∧
      (pageZone s p = z ↔ z = .kern ∨ L.NormalStart p) := by
  obtain ⟨s₁, hkern, hnormal⟩ := bind_eq_ok.1 h
  have hnp : s₁.npagesNum = L.npagesNum := by
    have hnone : Lists (zeroMem L.npagesNum).links (fun _ => False) (fun _ => []) :=
      ⟨fun _ h => h.elim, fun _ _ h => h.elim⟩
    obtain ⟨t, _, _, hok, _, _, _, _, _, _, hnp, _⟩ := bootZoneInit_spec hnone (z := .kern)
      (fun _ _ => id) L.reservedStart L.reservedSize L.kernStart (fun _ => L.kern_le) L.reserved_kern
      (fun _ h => h.elim)
    obtain rfl : t = s₁ := Except.ok.inj (hok.symm.trans hkern)
    exact hnp
  have hflag := bootZoneInit_flag (by rw [hnp]; exact L.normal_le) hnormal (q := p) (by omega)
  have hres : ¬ (L.reservedStart / PGSIZE ≤ p ∧ p < L.reservedStart / PGSIZE + L.reservedSize) := by
    rintro ⟨h1, h2⟩
    cases z with
    | kern => exact L.reserved_kern p h1 h2 hp.1 hp.2
    | normal => exact L.reserved_normal p h1 h2 hp.1 hp.2
  -- the kernel zone's own flag is the one of a zeroed descriptor
  have hzero : (s₁.page p).flag = 0 := by
    rw [bootZoneInit_flag L.kern_le hkern hres]
    split <;> rfl
  rw [hzero] at hflag
  have hiff : (L.normalStart / PGSIZE ≤ p ∧ L.NormalStart p) ↔ z = .normal ∧ L.NormalStart p := by
    refine and_congr_left fun hstart => ⟨fun hle => ?_, ?_⟩
    · have hlt : p - L.normalStart / PGSIZE < L.normalSize := hstart.1
      cases z with
      | kern => exact (L.kern_normal p hp.1 hp.2 hle (by omega)).elim
      | normal => rfl
    · rintro rfl
      exact hp.1
  by_cases hstart : z = .normal ∧ L.NormalStart p
  · replace hflag := hflag.trans (if_pos (hiff.2 hstart))
    obtain ⟨rfl, hstart⟩ := hstart
    refine ⟨by rw [hflag]; rfl, ?_⟩
    unfold pageZone
    rw [hflag]
    simp [zoneFlag, hstart]
  · replace hflag := hflag.trans (if_neg fun hc => hstart (hiff.1 hc))
    refine ⟨by rw [hflag]; rfl, ?_⟩
    unfold pageZone
    rw [hflag]
    cases z with
    | kern => simp
    | normal => simpa using hstart

/-! ## §3 Runs -/

/-- Pages were put into zone `z`, and the other zone is as before. -/
def PutBack (z : ZoneId) (s s' : Mem) : Prop :=
  (s.zone z).freePages < (s'.zone z).freePages ∧ ∀ z', z' ≠ z → s'.zone z' = s.zone z'

/-- A released page goes back to the zone whose range contains it, and a page handed out for
    `__GFP_DMA` is one of the kernel zone. -/
def OwnZone (L : Layout) (r : PageRun) (o : PageOp) (r' : PageRun) : Prop :=
  match o with
  | .freePage page => ∀ z, L.InZone z page → PutBack z r.mem r'.mem
  | .allocPage gfpFlags =>
    gfpFlags &&& GFP_DMA ≠ 0 → ∀ page, r'.held = page :: r.held → L.InZone .kern page

/-- A page of the normal zone is released only if it starts a block of the zone as it was booted. -/
def ReleasesStart (L : Layout) : PageOp → Prop
  | .freePage page => L.InZone .normal page → L.NormalStart page
  | .allocPage _ => True

section Runs

variable {L : Layout} {s₀ : Mem} {r r' : PageRun} {ops : List PageOp}

theorem sameFlags_pageStep {o : PageOp} (h : pageStep r o = .ok r') : SameFlags r.mem r'.mem := by
  cases o with
  | allocPage gfpFlags =>
    obtain ⟨⟨page, s⟩, halloc, h⟩ := bind_eq_ok.1 h
    obtain rfl := Except.ok.inj h
    exact sameFlags_allocPage halloc
  | freePage page =>
    obtain ⟨s, hfree, h⟩ := bind_eq_ok.1 h
    obtain rfl := Except.ok.inj h
    unfold __freePage at hfree
    split at hfree
    · exact (zoneMove_listAdd (z := .kern) hfree).flag
    · obtain ⟨_, _, hmove⟩ := zoneMove_freePages hfree
      exact hmove.flag

/-- The flags are the ones of the boot, in every state that a run reaches. -/
theorem sameFlags_run (h : ops.foldlM pageStep r = .ok r') : SameFlags r.mem r'.mem := by
  induction ops generalizing r with
  | nil =>
    obtain rfl := Except.ok.inj h
    exact fun _ => rfl
  | cons o ops ih =>
    rw [List.foldlM_cons] at h
    obtain ⟨r₁, hstep, hrest⟩ := bind_eq_ok.1 h
    exact (sameFlags_pageStep hstep).trans (ih hrest)

/-- A release that returns puts the page back into its own zone exactly if the flag says so. -/
theorem ownZone_free_iff (hboot : L.boot = .ok s₀) (hflags : SameFlags s₀ r.mem) {page : Nat}
    (h : pageStep r (.freePage page) = .ok r') :
    OwnZone L r (.freePage page) r' ↔ ReleasesStart L (.freePage page) := by
  obtain ⟨s, hfree, h⟩ := bind_eq_ok.1 h
  obtain rfl := Except.ok.inj h
  -- in a zone, the page is no reserved one
  have hmove : ∀ z, L.InZone z page → ∃ n : Nat, 0 < n ∧ ZoneMove (pageZone r.mem page) n r.mem s ∧
      (pageZone r.mem page = z ↔ z = .kern ∨ L.NormalStart page) := by
    intro z hz
    obtain ⟨hres, hzone⟩ := bootZones_flag L hboot hz
    rw [__freePage, if_neg (by rw [hflags page, hres]; simp)] at hfree
    obtain ⟨n, hpos, hmove⟩ := zoneMove_freePages hfree
    have hsame : pageZone r.mem page = pageZone s₀ page := by
      unfold pageZone
      rw [hflags page]
    exact ⟨n, hpos, hmove, by rw [hsame]; exact hzone⟩
  constructor
  · intro hown hnormal
    obtain ⟨n, _, hmove, hiff⟩ := hmove .normal hnormal
    by_contra hstart
    have hother : pageZone r.mem page ≠ .normal := fun he => by simpa [hstart] using hiff.1 he
    have hlt : (r.mem.zone .normal).freePages < (s.zone .normal).freePages := (hown .normal hnormal).1
    rw [hmove.other .normal (Ne.symm hother)] at hlt
    exact absurd hlt (lt_irrefl _)
  · intro hstart z hz
    obtain ⟨n, hpos, hmove, hiff⟩ := hmove z hz
    have hzone : pageZone r.mem page = z := by
      refine hiff.2 ?_
      cases z with
      | kern => exact .inl rfl
      | normal => exact .inr (hstart hz)
    rw [hzone] at hmove
    refine ⟨?_, hmove.other⟩
    show (r.mem.zone z).freePages < (s.zone z).freePages
    rw [hmove.freePages]
    omega

/-- Up to the first release the lists are in order. -/
theorem allocInv_of_no_free {first size : ZoneId → Nat} (hops : ∀ o ∈ ops, o.isFree = false)
    (hr : AllocInv first size r.mem r.held) (h : ops.foldlM pageStep r = .ok r') :
    AllocInv first size r'.mem r'.held := by
  induction ops generalizing r with
  | nil =>
    obtain rfl := Except.ok.inj h
    exact hr
  | cons o ops ih =>
    rw [List.foldlM_cons] at h
    obtain ⟨r₁, hstep, hrest⟩ := bind_eq_ok.1 h
    refine ih (fun o' ho' => hops o' (List.mem_cons_of_mem _ ho')) ?_ hrest
    cases o with
    | freePage page => cases hops _ List.mem_cons_self
    | allocPage gfpFlags =>
      obtain ⟨⟨page, s⟩, halloc, hstep⟩ := bind_eq_ok.1 hstep
      obtain rfl := Except.ok.inj hstep
      rcases allocPage_spec hr gfpFlags with hdead | hsleep | ⟨o, t, hok, hinv⟩
      · rw [hdead] at halloc
        cases halloc
      · rw [hsleep] at halloc
        cases halloc
      · obtain ⟨rfl, rfl⟩ := Prod.mk.inj (Except.ok.inj (hok.symm.trans halloc))
        exact hinv

theorem ownZone_alloc (hinv : AllocInv (perZone (L.kernStart / PGSIZE) (L.normalStart / PGSIZE))
      (perZone L.kernSize L.normalSize) r.mem r.held) {gfpFlags : Nat}
    (h : pageStep r (.allocPage gfpFlags) = .ok r') : OwnZone L r (.allocPage gfpFlags) r' := by
  intro hdma page hheld
  obtain ⟨⟨o, s⟩, halloc, h⟩ := bind_eq_ok.1 h
  obtain rfl := Except.ok.inj h
  have ho : o = some page := by
    cases o with
    | none =>
      have hlen := congrArg List.length hheld
      simp at hlen
    | some q => simpa using hheld
  subst ho
  unfold allocPage __allocPages at halloc
  rw [if_neg (by decide)] at halloc
  dsimp only at halloc
  rw [if_pos hdma] at halloc
  exact allocDma_inZone hinv halloc

/-- **Pages and their zones over whole runs**: boot the zones on zeroed descriptors, with any ranges
    apart from each other, and run any sequence of calls. Take any step that returns. If it is a
    release, the page goes back to its own zone exactly when it is no page of the normal zone, or
    starts a block of that zone as it was booted. If it is an allocation and no release came before
    it, a page for `__GFP_DMA` is one of the kernel zone. -/
theorem ownZone_of_run (L : Layout) :
    ∃ s₀, L.boot = .ok s₀ ∧ ∀ (ops : List PageOp) o r r', ops.foldlM pageStep ⟨s₀, []⟩ = .ok r →
      pageStep r o = .ok r' →
      (o.isFree = true → (OwnZone L r o r' ↔ ReleasesStart L o)) ∧
      (o.isFree = false → (∀ o' ∈ ops, o'.isFree = false) → OwnZone L r o r') := by
  obtain ⟨s₀, hboot, hinv⟩ := bootZones_inv (zeroMem L.npagesNum) L.reservedStart L.reservedSize
    L.kernStart L.kernSize L.normalStart L.normalSize L.reserved_le L.kern_le L.normal_le
    L.reserved_kern L.reserved_normal L.kern_normal
  refine ⟨s₀, hboot, fun ops o r r' hrun hstep => ⟨fun hfree => ?_, fun hfree hops => ?_⟩⟩
  · cases o with
    | allocPage gfpFlags => cases hfree
    | freePage page => exact ownZone_free_iff hboot (sameFlags_run hrun) hstep
  · cases o with
    | freePage page => cases hfree
    | allocPage gfpFlags => exact ownZone_alloc (allocInv_of_no_free hops hinv hrun) hstep

end Runs

/-- A kernel zone of 6 pages, from page 7 on, and a normal zone of 514 pages, from page 1024 on. -/
def smallLayout : Layout where
  npagesNum := 1538
  reservedStart := 0
  reservedSize := 2
  kernStart := 7 * PGSIZE
  kernSize := 6
  normalStart := 1024 * PGSIZE
  normalSize := 514
  reserved_le := by decide
  kern_le := by decide
  normal_le := by decide
  reserved_kern := .of_le (by decide) 6
  reserved_normal := .of_le (by decide) 514
  kern_normal := .of_le (by decide) 514

/-- A page of the kernel zone is taken and comes back. -/
theorem ownZone_of_run_small : ∃ s₀ r r', smallLayout.boot = .ok s₀ ∧
    [.allocPage GFP_DMA, .allocPage GFP_DMA].foldlM pageStep ⟨s₀, []⟩ = .ok r ∧ r.held = [10] ∧
    pageStep r (.freePage 10) = .ok r' ∧ OwnZone smallLayout r (.freePage 10) r' := by
  obtain ⟨s₀, hboot, hruns⟩ := ownZone_of_run smallLayout
  have hval : smallLayout.boot.toOption.map (fun s =>
      ([.allocPage GFP_DMA, .allocPage GFP_DMA].foldlM pageStep ⟨s, []⟩).toOption.map fun r =>
        (r.held, (pageStep r (.freePage 10)).toOption.isSome)) = some (some ([10], true)) := by
    decide +kernel
  rw [hboot] at hval
  obtain ⟨r, hr, hstep⟩ := Option.map_eq_some_iff.1 (Option.some.inj hval)
  obtain ⟨hheld, hsome⟩ := Prod.mk.inj hstep
  obtain ⟨r', hr'⟩ := Option.isSome_iff_exists.1 hsome
  have hrun := eq_ok_of_toOption hr
  have hfree := eq_ok_of_toOption hr'
  refine ⟨s₀, r, r', hboot, hrun, hheld, hfree, ((hruns _ _ _ _ hrun hfree).1 rfl).2 ?_⟩
  intro hnormal
  have hge : 1024 ≤ 10 := hnormal.1
  omega

/-- A page of the normal zone is taken and released; the release leaves the normal zone as it is, and
    the next request with `__GFP_DMA` gets the page. -/
theorem normal_page_becomes_dma : ∃ s₀ r₁ r₂ r₃, smallLayout.boot = .ok s₀ ∧
    pageStep ⟨s₀, []⟩ (.allocPage 0) = .ok r₁ ∧ r₁.held = [1534] ∧
    pageStep r₁ (.freePage 1534) = .ok r₂ ∧ ¬ OwnZone smallLayout r₁ (.freePage 1534) r₂ ∧
    pageStep r₂ (.allocPage GFP_DMA) = .ok r₃ ∧ r₃.held = [1534] ∧
    ¬ OwnZone smallLayout r₂ (.allocPage GFP_DMA) r₃ := by
  have hval : (do
      let s₀ ← smallLayout.boot
      let r₁ ← pageStep ⟨s₀, []⟩ (.allocPage 0)
      let r₂ ← pageStep r₁ (.freePage 1534)
      let r₃ ← pageStep r₂ (.allocPage GFP_DMA)
      pure (r₁.held, decide ((r₁.mem.zone .normal).freePages < (r₂.mem.zone .normal).freePages),
        r₂.held, r₃.held)).toOption = some ([1534], false, [], [1534]) := by decide +kernel
  obtain ⟨s₀, hboot, hval⟩ := bind_eq_ok.1 (eq_ok_of_toOption hval)
  obtain ⟨r₁, hr₁, hval⟩ := bind_eq_ok.1 hval
  obtain ⟨r₂, hr₂, hval⟩ := bind_eq_ok.1 hval
  obtain ⟨r₃, hr₃, hval⟩ := bind_eq_ok.1 hval
  simp only [pure, Except.pure, Except.ok.injEq, Prod.mk.injEq, decide_eq_false_iff_not] at hval
  obtain ⟨hheld₁, hnot, hheld₂, hheld₃⟩ := hval
  refine ⟨s₀, r₁, r₂, r₃, hboot, hr₁, hheld₁, hr₂, fun hown => ?_, hr₃, hheld₃, fun hown => ?_⟩
  · have hnormal : smallLayout.InZone .normal 1534 := by
      show _ ≤ _ ∧ _ < _
      decide
    exact hnot (hown .normal hnormal).1
  · have hkern : smallLayout.InZone .kern 1534 := hown (by decide) 1534 (by rw [hheld₂, hheld₃])
    have hlt : 1534 < 7 + 6 := hkern.2
    omega

end WeiOS.Buddy
