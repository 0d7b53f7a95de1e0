import Mathlib
import WeiOS.Lib.IntrusiveList
import WeiOS.Lib.Dyadic
import WeiOS.Mm.Buddy
import WeiOS.Mm.BuddyZone

/-!
# Booting the Zones

What `boot_zone_init` builds: the pages of the zone are cut into free blocks, largest orders first,
and the reserved pages go on a list of their own. `buddy_init` calls it for the kernel zone, with 512
reserved pages from 16 MB on, and for the normal zone behind them; but it computes the start of the
normal zone as `reserved_start + (reserved_size >> PGSHIFT)`, which is `reserved_start` itself.

## Main results
- `bootZoneInit_spec`: the blocks, lists and counters after `boot_zone_init`.
- `buddyInit_overlap`: after `buddy_init`, the first reserved page always lies in a free block of the
  normal zone.
-/

namespace WeiOS.Buddy

open WeiOS.Lib

/-! ## §1 Reserved pages -/

/-- `s'` differs from `s` in the links, the descriptors of the pages from `first` up to `first + n`,
    and the counters `nr_free` of zone `z`. -/
structure OnlyBoot (s s' : Mem) (z : ZoneId) (first n : Nat) : Prop where
  npages : s'.npagesNum = s.npagesNum
  page : ∀ p, ¬ (first ≤ p ∧ p < first + n) → s'.page p = s.page p
  other : ∀ z' ≠ z, s'.zone z' = s.zone z'
  zone : ∃ nr, s'.zone z = { s.zone z with nrFree := nr }

theorem OnlyBoot.refl (s : Mem) (z : ZoneId) (first n : Nat) : OnlyBoot s s z first n :=
  ⟨rfl, fun _ _ => rfl, fun _ _ => rfl, ⟨_, rfl⟩⟩

theorem OnlyBoot.trans {s s' s'' : Mem} {z : ZoneId} {first n : Nat}
    (h : OnlyBoot s s' z first n) (h' : OnlyBoot s' s'' z first n) : OnlyBoot s s'' z first n := by
  obtain ⟨nr, hz⟩ := h.zone
  obtain ⟨nr', hz'⟩ := h'.zone
  refine ⟨h'.npages.trans h.npages, fun p hp => (h'.page p hp).trans (h.page p hp),
    fun z' hne => (h'.other z' hne).trans (h.other z' hne), nr', ?_⟩
  rw [hz', hz]

theorem OnlyBoot.first {s s' : Mem} {z : ZoneId} {f n : Nat} (h : OnlyBoot s s' z f n) :
    (s'.zone z).zoneFirstPage = (s.zone z).zoneFirstPage := by
  obtain ⟨nr, hz⟩ := h.zone
  rw [hz]

theorem pa2page_of_lt {s : Mem} {start pos : Nat} (h : start / PGSIZE + pos < s.npagesNum) :
    pa2page s (start + PGSIZE * pos) = some (start / PGSIZE + pos) := by
  have hdiv : (start + PGSIZE * pos) / PGSIZE = start / PGSIZE + pos :=
    Nat.add_mul_div_left _ _ (by decide)
  rw [pa2page, hdiv, if_neg (by omega)]

theorem pa2page_of_ge {s : Mem} {start pos : Nat} (h : s.npagesNum ≤ start / PGSIZE + pos) :
    pa2page s (start + PGSIZE * pos) = none := by
  have hdiv : (start + PGSIZE * pos) / PGSIZE = start / PGSIZE + pos :=
    Nat.add_mul_div_left _ _ (by decide)
  rw [pa2page, hdiv, if_pos h]

/-- Writing a page descriptor and linking the page. -/
theorem listAdd_bootPage {s : Mem} {S : ListId → Prop} {xs : ListId → List Nat}
    (h : Lists s.links S xs) {l : ListId} (hl : S l) {p : Nat} (hp : ∀ l', S l' → p ∉ xs l')
    (flag pPrivate : Nat) :
    ∃ L, listAdd (bootPage s p flag pPrivate) p l =
        .ok { bootPage s p flag pPrivate with links := L } ∧
      Lists L S (Function.update xs l (p :: xs l)) := by
  obtain ⟨L, hadd, hlists⟩ := h.add hl hp
  refine ⟨L, ?_, hlists⟩
  have hadd' : (bootPage s p flag pPrivate).links.add (.elem p) (.head l) = some L := hadd
  simp [listAdd, hadd']

/-- The loop over the reserved pages, `c` of which have been linked. -/
theorem bootReserved_spec {z : ZoneId} {S : ListId → Prop} (start : Nat) (hz : S (.reserved z))
    (m c : Nat) {s : Mem} {xs : ListId → List Nat} (h : Lists s.links S xs)
    (hxs : xs (.reserved z) = (List.range' (start / PGSIZE) c).reverse)
    (hout : ∀ l, S l → l ≠ .reserved z → ∀ p ∈ xs l, ¬ (start / PGSIZE ≤ p ∧
      p < start / PGSIZE + (c + m))) :
    ∃ s' c', bootReserved z m (start + PGSIZE * c) s = .ok s' ∧
      Lists s'.links S (Function.update xs (.reserved z)
        (List.range' (start / PGSIZE) c').reverse) ∧
      c' = c + min m (s.npagesNum - (start / PGSIZE + c)) ∧
      OnlyBoot s s' z (start / PGSIZE) (c + m) ∧ s'.zone = s.zone := by
  induction m generalizing c s xs with
  | zero =>
    refine ⟨s, c, rfl, ?_, by omega, OnlyBoot.refl _ _ _ _, rfl⟩
    rw [← hxs, Function.update_eq_self]
    exact h
  | succ m ih =>
    by_cases hlt : start / PGSIZE + c < s.npagesNum
    · -- the next page exists and is linked in front
      have hnot : ∀ l', S l' → start / PGSIZE + c ∉ xs l' := by
        intro l' hl'
        by_cases hlr : l' = .reserved z
        · rw [hlr, hxs, List.mem_reverse, List.mem_range'_1]
          omega
        · intro hmem
          exact hout l' hl' hlr _ hmem ⟨by omega, by omega⟩
      obtain ⟨L, hadd, hlists⟩ := listAdd_bootPage h hz hnot (zoneFlag z ||| RESERVED_PAGE)
        OUT_OF_BUDDY
      have hxs' : Function.update xs (.reserved z) ((start / PGSIZE + c) :: xs (.reserved z))
          (.reserved z) = (List.range' (start / PGSIZE) (c + 1)).reverse := by
        rw [Function.update_self, hxs, List.range'_concat]
        simp
      obtain ⟨s', c', hok, hlists', hc', honly, hzone⟩ := ih (c + 1)
        (s := { bootPage s (start / PGSIZE + c) (zoneFlag z ||| RESERVED_PAGE) OUT_OF_BUDDY with
          links := L }) hlists hxs' (by
          intro l hl hlr p hp
          rw [Function.update_of_ne hlr] at hp
          have := hout l hl hlr p hp
          omega)
      refine ⟨s', c', ?_, ?_, ?_, ?_, hzone⟩
      · have hphy : start + PGSIZE * c + PGSIZE = start + PGSIZE * (c + 1) := by
          rw [Nat.mul_add, Nat.mul_one, Nat.add_assoc]
        simp only [bootReserved, pa2page_of_lt hlt, hadd, bind, Except.bind, hphy]
        exact hok
      · rw [Function.update_idem] at hlists'
        exact hlists'
      · rw [hc']
        show c + 1 + min m (s.npagesNum - (start / PGSIZE + (c + 1))) = _
        omega
      · refine ⟨honly.npages, fun p hp => ?_, fun z' _ => congrFun hzone z', ?_⟩
        · rw [honly.page p (by omega)]
          have : p ≠ start / PGSIZE + c := by
            rintro rfl
            exact hp ⟨by omega, by omega⟩
          simp [bootPage, this]
        · exact ⟨(s.zone z).nrFree, congrFun hzone z⟩
    · -- the machine has no more pages
      refine ⟨s, c, ?_, ?_, by omega, OnlyBoot.refl _ _ _ _, rfl⟩
      · simp only [bootReserved, pa2page_of_ge (Nat.not_lt.1 hlt)]
      · rw [← hxs, Function.update_eq_self]
        exact h

/-! ## §2 Free blocks -/

/-- Part of a zone has been cut into blocks: the orders from `m` on have their lists, and their
    blocks tile the first `pos` of the `n` pages. -/
structure BootRep (s : Mem) (z : ZoneId) (S : ListId → Prop) (xs : ListId → List Nat) (n m : Nat)
    (fs : Nat → List Nat) (pos : Nat) : Prop where
  lists : Lists s.links S xs
  heads : ∀ k < MEMLEVEL, S (.freeArea z k) ↔ m ≤ k
  areas : ∀ k < MEMLEVEL, m ≤ k → xs (.freeArea z k) = (fs k).map ((s.zone z).zoneFirstPage + ·)
  empty : ∀ k < m, fs k = []
  outside : ∀ l, S l → (∀ k < MEMLEVEL, l ≠ .freeArea z k) → ∀ p ∈ xs l,
    ¬ ((s.zone z).zoneFirstPage ≤ p ∧ p < (s.zone z).zoneFirstPage + n)
  tiling : Tiling (tagged MEMLEVEL fs) pos
  free : ∀ k < MEMLEVEL, ∀ i ∈ fs k, (s.page ((s.zone z).zoneFirstPage + i)).pPrivate = k
  nrFree : ∀ k < MEMLEVEL, m ≤ k → (s.zone z).nrFree k = (fs k).length

section Levels

variable {s : Mem} {z : ZoneId} {S : ListId → Prop} {xs : ListId → List Nat} {n m k : Nat}
  {fs : Nat → List Nat} {pos : Nat}

/-- One block of order `m` more. -/
theorem BootRep.addBlock (h : BootRep s z S xs n m fs pos) (hm : m < MEMLEVEL)
    (hpos : pos + 2 ^ m ≤ n) (hal : 2 ^ m ∣ pos) :
    ∃ L, listAdd (bootPage s ((s.zone z).zoneFirstPage + pos) (zoneFlag z) m)
        ((s.zone z).zoneFirstPage + pos) (.freeArea z m) =
          .ok { bootPage s ((s.zone z).zoneFirstPage + pos) (zoneFlag z) m with links := L } ∧
      BootRep (setZone { bootPage s ((s.zone z).zoneFirstPage + pos) (zoneFlag z) m with links := L }
          z (incNrFree m)) z S
        (Function.update xs (.freeArea z m)
          (((s.zone z).zoneFirstPage + pos) :: xs (.freeArea z m))) n m
        (Function.update fs m (pos :: fs m)) (pos + 2 ^ m) := by
  have hp2 := Nat.two_pow_pos m
  -- the page is behind all blocks, and inside the zone
  have hstart : ∀ j < MEMLEVEL, ∀ i ∈ fs j, i < pos := by
    intro j hj i hi
    have := h.tiling.le (mem_tagged.2 ⟨hj, hi⟩)
    have hp := Nat.two_pow_pos j
    simp only at this
    omega
  have hnot : ∀ l, S l → (s.zone z).zoneFirstPage + pos ∉ xs l := by
    intro l hl hmem
    by_cases harea : ∀ j < MEMLEVEL, l ≠ .freeArea z j
    · exact h.outside l hl harea _ hmem ⟨by omega, by omega⟩
    · push Not at harea
      obtain ⟨j, hj, rfl⟩ := harea
      rw [h.areas j hj ((h.heads j hj).1 hl)] at hmem
      obtain ⟨i, hi, heq⟩ := List.mem_map.1 hmem
      have := hstart j hj i hi
      omega
  obtain ⟨L, hadd, hlists⟩ := listAdd_bootPage h.lists ((h.heads m hm).2 (Nat.le_refl m)) hnot
    (zoneFlag z) m
  refine ⟨L, hadd, ?_⟩
  constructor
  · exact hlists
  · exact h.heads
  · intro j hj hmj
    by_cases hjm : j = m
    · subst hjm
      simp [setZone, incNrFree, bootPage, h.areas j hj hmj]
    · simpa [setZone, incNrFree, bootPage, hjm] using h.areas j hj hmj
  · intro j hj
    have hjm : j ≠ m := by omega
    rw [Function.update_of_ne hjm]
    exact h.empty j hj
  · intro l hl harea p hp
    rw [Function.update_of_ne (harea m hm)] at hp
    simpa [setZone, incNrFree, bootPage] using h.outside l hl harea p hp
  · exact (h.tiling.extend hal).of_perm (tagged_perm_cons fs hm pos)
  · intro j hj i hi
    by_cases hip : i = pos
    · subst hip
      have hjm : j = m := by
        by_contra hjm
        rw [Function.update_of_ne hjm] at hi
        exact absurd (hstart j hj i hi) (Nat.lt_irrefl i)
      simp [setZone, incNrFree, bootPage, hjm]
    · have hi' : i ∈ fs j := by
        by_cases hjm : j = m
        · subst hjm
          rw [Function.update_self] at hi
          exact (List.mem_cons.1 hi).resolve_left hip
        · rwa [Function.update_of_ne hjm] at hi
      simpa [setZone, incNrFree, bootPage, hip] using h.free j hj i hi'
  · intro j hj hmj
    by_cases hjm : j = m
    · subst hjm
      simp [setZone, incNrFree, bootPage, h.nrFree j hj hmj]
    · simpa [setZone, incNrFree, bootPage, hjm] using h.nrFree j hj hmj

/-- The inner loop of `boot_zone_init` cuts blocks of order `m` until the rest is too small. -/
theorem bootLevel_spec {start : Nat} (fuel r : Nat) (h : BootRep s z S xs n m fs pos)
    (hm : m < MEMLEVEL) (hfirst : (s.zone z).zoneFirstPage = start / PGSIZE)
    (hn : 0 < n → start / PGSIZE + n ≤ s.npagesNum) (hr : pos + r = n) (hfuel : r ≤ fuel)
    (hal : 2 ^ m ∣ pos) :
    ∃ s' xs' fs' pos' r', bootLevel z m fuel r (start + PGSIZE * pos) s =
        .ok (r', start + PGSIZE * pos', s') ∧ BootRep s' z S xs' n m fs' pos' ∧ pos' + r' = n ∧
      r' < 2 ^ m ∧ 2 ^ m ∣ pos' ∧ SameOff z xs xs' ∧ OnlyBoot s s' z (start / PGSIZE) n := by
  induction fuel generalizing s xs fs pos r with
  | zero =>
    have : r = 0 := by omega
    subst this
    exact ⟨s, xs, fs, pos, 0, rfl, h, hr, Nat.two_pow_pos m, hal, fun _ _ => rfl,
      OnlyBoot.refl _ _ _ _⟩
  | succ fuel ih =>
    have hp2 := Nat.two_pow_pos m
    by_cases hle : 2 ^ m ≤ r
    · obtain ⟨L, hadd, hrep⟩ := h.addBlock hm (by omega) hal
      have hlast := hn (by omega)
      have hpa : pa2page s (start + PGSIZE * pos) = some (start / PGSIZE + pos) :=
        pa2page_of_lt (by omega)
      rw [hfirst] at hadd hrep
      generalize hs₁ : setZone { bootPage s (start / PGSIZE + pos) (zoneFlag z) m with links := L }
        z (incNrFree m) = s₁ at hrep
      have honly : OnlyBoot s s₁ z (start / PGSIZE) n := by
        rw [← hs₁]
        refine ⟨rfl, fun p hp => ?_, fun z' hz' => ?_,
          ⟨Function.update (s.zone z).nrFree m ((s.zone z).nrFree m + 1), ?_⟩⟩
        · have : p ≠ start / PGSIZE + pos := by
            rintro rfl
            exact hp ⟨by omega, by omega⟩
          simp [setZone, bootPage, this]
        · simp [setZone, bootPage, hz']
        · simp [setZone, bootPage, incNrFree]
      obtain ⟨s', xs', fs', pos', r', hok, hrep', hr', hlt, hal', hoff, honly'⟩ :=
        ih (r - 2 ^ m) hrep (honly.first.trans hfirst) (by rw [honly.npages]; exact hn) (by omega)
          (by omega) ((Nat.dvd_add_right hal).2 (Nat.dvd_refl _))
      refine ⟨s', xs', fs', pos', r', ?_, hrep', hr', hlt, hal', ?_, honly.trans honly'⟩
      · simp only [bootLevel, if_pos hle, hpa, hadd, bind, Except.bind, hs₁]
        rw [Nat.add_assoc, ← Nat.mul_add]
        exact hok
      · intro l hl
        rw [hoff l hl, Function.update_of_ne (hl m hm)]
    · refine ⟨s, xs, fs, pos, r, ?_, h, hr, Nat.not_le.1 hle, hal, fun _ _ => rfl,
        OnlyBoot.refl _ _ _ _⟩
      simp only [bootLevel, if_neg hle]

/-- The head of a list that holds nothing yet is initialised. -/
theorem BootRep.initLevel (h : BootRep s z S xs n (m + 1) fs pos) (hm : m < MEMLEVEL) :
    BootRep
      { setZone s z (fun zn => { zn with nrFree := Function.update zn.nrFree m 0 }) with
        links := s.links.init (.head (.freeArea z m)) } z
      (fun l => l = .freeArea z m ∨ S l) (Function.update xs (.freeArea z m) []) n m fs pos := by
  have hnot : ¬ S (.freeArea z m) := fun hs => by
    have := (h.heads m hm).1 hs
    omega
  constructor
  · exact h.lists.init _ hnot
  · intro k hk
    by_cases hkm : k = m
    · simp [hkm]
    · simp only [ListId.freeArea.injEq, true_and, hkm, false_or, h.heads k hk]
      omega
  · intro k hk hmk
    by_cases hkm : k = m
    · subst hkm
      simp [setZone, h.empty k (Nat.lt_succ_self k)]
    · simpa [setZone, hkm] using h.areas k hk (by omega)
  · exact fun k hk => h.empty k (by omega)
  · intro l hl harea p hp
    have hlm : l ≠ .freeArea z m := harea m hm
    rw [Function.update_of_ne hlm] at hp
    simpa [setZone] using h.outside l (hl.resolve_left hlm) harea p hp
  · exact h.tiling
  · intro k hk i hi
    simpa [setZone] using h.free k hk i hi
  · intro k hk hmk
    by_cases hkm : k = m
    · subst hkm
      simp [setZone, h.empty k (Nat.lt_succ_self k)]
    · simpa [setZone, hkm] using h.nrFree k hk (by omega)

/-- The outer loop of `boot_zone_init`: all levels below `m`. -/
theorem bootLevels_spec (start r : Nat) (h : BootRep s z S xs n m fs pos)
    (hm : m ≤ MEMLEVEL) (hfirst : (s.zone z).zoneFirstPage = start / PGSIZE)
    (hn : 0 < n → start / PGSIZE + n ≤ s.npagesNum) (hr : pos + r = n) (hal : 2 ^ m ∣ pos)
    (hlast : m = 0 → r = 0) :
    ∃ s' S' xs' fs', bootLevels z m r (start + PGSIZE * pos) s = .ok s' ∧
      BootRep s' z S' xs' n 0 fs' n ∧ SameOff z xs xs' ∧
      (∀ l, S' l ↔ S l ∨ ∃ k < m, l = .freeArea z k) ∧
      OnlyBoot s s' z (start / PGSIZE) n := by
  induction m generalizing s S xs fs pos r with
  | zero =>
    have hr0 := hlast rfl
    have : pos = n := by omega
    subst this
    refine ⟨s, S, xs, fs, rfl, h, fun _ _ => rfl, fun l => ?_, OnlyBoot.refl _ _ _ _⟩
    simp
  | succ m ih =>
    have hm' : m < MEMLEVEL := by omega
    have hinit := h.initLevel hm'
    have honly₀ : OnlyBoot s
        { setZone s z (fun zn => { zn with nrFree := Function.update zn.nrFree m 0 }) with
          links := s.links.init (.head (.freeArea z m)) } z (start / PGSIZE) n := by
      refine ⟨rfl, fun _ _ => rfl, fun z' hz' => by simp [setZone, hz'],
        ⟨Function.update (s.zone z).nrFree m 0, by simp [setZone]⟩⟩
    obtain ⟨s₁, xs₁, fs₁, pos₁, r₁, hok₁, hrep₁, hr₁, hlt₁, hal₁, hoff₁, honly₁⟩ :=
      bootLevel_spec r r hinit hm' (honly₀.first.trans hfirst) hn hr (Nat.le_refl r)
        ((Nat.pow_dvd_pow 2 (Nat.le_succ m)).trans hal)
    obtain ⟨s₂, S₂, xs₂, fs₂, hok₂, hrep₂, hoff₂, hS₂, honly₂⟩ :=
      ih r₁ hrep₁ (by omega) (honly₁.first.trans (honly₀.first.trans hfirst))
        (by rw [honly₁.npages]; exact hn) hr₁ hal₁ (fun h0 => by
          subst h0
          simpa using hlt₁)
    refine ⟨s₂, S₂, xs₂, fs₂, ?_, hrep₂, ?_, ?_, honly₀.trans (honly₁.trans honly₂)⟩
    · unfold bootLevels
      simp only [bind, Except.bind]
      have hlinks : (setZone s z fun zn =>
          { zn with nrFree := Function.update zn.nrFree m 0 }).links = s.links := rfl
      rw [hlinks, hok₁]
      exact hok₂
    · intro l hl
      rw [hoff₂ l hl, hoff₁ l hl, Function.update_of_ne (hl m hm')]
    · intro l
      rw [hS₂]
      constructor
      · rintro ((rfl | hl) | ⟨k, hk, rfl⟩)
        · exact .inr ⟨m, by omega, rfl⟩
        · exact .inl hl
        · exact .inr ⟨k, by omega, rfl⟩
      · rintro (hl | ⟨k, hk, rfl⟩)
        · exact .inl (.inr hl)
        · by_cases hkm : k = m
          · exact .inl (.inl (by rw [hkm]))
          · exact .inr ⟨k, by omega, rfl⟩

end Levels

/-! ## §3 `boot_zone_init` -/

/-- The list heads of zone `z`. -/
def ZoneHead (z : ZoneId) (l : ListId) : Prop :=
  l = .reserved z ∨ l = .pageset z 0 ∨ l = .pageset z 1 ∨ ∃ k < MEMLEVEL, l = .freeArea z k

/-- Two ranges of pages, given by start and length, share no page. -/
def RangesApart (a m b n : Nat) : Prop := ∀ p, a ≤ p → p < a + m → b ≤ p → p < b + n → False

/-- A range that ends before the other one starts. -/
theorem RangesApart.of_le {a m b : Nat} (h : a + m ≤ b) (n : Nat) : RangesApart a m b n :=
  fun _ _ hlt hge _ => Nat.not_lt.2 (Nat.le_trans h hge) hlt

/-- **What `boot_zone_init` builds**: all pages of the zone are in free blocks, the reserved pages
    that exist are on their list, the page caches are empty, and other lists and pages are left
    alone. -/
theorem bootZoneInit_spec {s : Mem} {z : ZoneId} {S : ListId → Prop} {xs : ListId → List Nat}
    (h : Lists s.links S xs) (hS : ∀ l, ZoneHead z l → ¬ S l)
    (reservedStart reservedSize zoneStart : Nat) {n : Nat}
    (hn : 0 < n → zoneStart / PGSIZE + n ≤ s.npagesNum)
    (hapart : RangesApart (reservedStart / PGSIZE) reservedSize (zoneStart / PGSIZE) n)
    (hout : ∀ l, S l → ∀ p ∈ xs l,
      ¬ (zoneStart / PGSIZE ≤ p ∧ p < zoneStart / PGSIZE + n) ∧
      ¬ (reservedStart / PGSIZE ≤ p ∧ p < reservedStart / PGSIZE + reservedSize)) :
    ∃ s' xs' fs', bootZoneInit s z reservedStart reservedSize zoneStart n = .ok s' ∧
      ZoneRep s' z (fun l => S l ∨ ZoneHead z l) xs' n fs' [] [] ∧
      (∃ nr, s'.zone z = ⟨reservedSize + n, reservedSize, reservedSize, nr, fun _ => bootPageset,
        zoneStart / PGSIZE, false⟩) ∧
      xs' (.reserved z) = (List.range' (reservedStart / PGSIZE)
        (min reservedSize (s.npagesNum - reservedStart / PGSIZE))).reverse ∧
      xs' (.pageset z 0) = [] ∧ xs' (.pageset z 1) = [] ∧ (∀ l, S l → xs' l = xs l) ∧
      s'.npagesNum = s.npagesNum ∧ (∀ z' ≠ z, s'.zone z' = s.zone z') ∧
      (∀ p, ¬ (zoneStart / PGSIZE ≤ p ∧ p < zoneStart / PGSIZE + n) →
        ¬ (reservedStart / PGSIZE ≤ p ∧ p < reservedStart / PGSIZE + reservedSize) →
        s'.page p = s.page p) := by
  -- the three other heads of the zone
  have h₁ := (((h.init _ (hS (.reserved z) (.inl rfl))).init (.pageset z 0) (by
    simp [hS (.pageset z 0) (.inr (.inl rfl))])).init (.pageset z 1) (by
    simp [hS (.pageset z 1) (.inr (.inr (.inl rfl)))]))
  generalize hs₁ : bootZone s z reservedSize zoneStart n = s₁
  have hlinks₁ : s₁.links = ((s.links.init (.head (.reserved z))).init
      (.head (.pageset z 0))).init (.head (.pageset z 1)) := by
    rw [← hs₁]
    rfl
  have hzone₁ : s₁.zone z = ⟨reservedSize + n, reservedSize, reservedSize, (s.zone z).nrFree,
      fun _ => bootPageset, zoneStart / PGSIZE, false⟩ := by
    rw [← hs₁]
    simp [bootZone, setZone]
  have hpage₁ : s₁.page = s.page ∧ s₁.npagesNum = s.npagesNum := by
    rw [← hs₁]
    exact ⟨rfl, rfl⟩
  rw [← hlinks₁] at h₁
  generalize hS₁ : (fun j => j = ListId.pageset z 1 ∨ j = .pageset z 0 ∨ j = .reserved z ∨ S j) = S₁
    at h₁
  generalize hxs₁ : Function.update (Function.update (Function.update xs (.reserved z) [])
    (.pageset z 0) []) (.pageset z 1) [] = xs₁ at h₁
  have hxsS : ∀ l, S l → xs₁ l = xs l := by
    intro l hl
    have h1 : l ≠ .pageset z 1 := fun he => hS l (.inr (.inr (.inl he))) hl
    have h2 : l ≠ .pageset z 0 := fun he => hS l (.inr (.inl he)) hl
    have h3 : l ≠ .reserved z := fun he => hS l (.inl he) hl
    rw [← hxs₁, Function.update_of_ne h1, Function.update_of_ne h2, Function.update_of_ne h3]
  have hxsr : xs₁ (.reserved z) = [] ∧ xs₁ (.pageset z 0) = [] ∧ xs₁ (.pageset z 1) = [] := by
    rw [← hxs₁]
    simp
  -- the reserved pages
  obtain ⟨s₂, c, hok₂, h₂, hc, honly₂, hzone₂⟩ :=
    bootReserved_spec (z := z) (S := S₁) reservedStart (by rw [← hS₁]; simp)
      reservedSize 0 h₁ (by simp [hxsr.1]) (by
        intro l hl hlr p hp
        rw [← hS₁] at hl
        rcases hl with rfl | rfl | rfl | hl
        · rw [hxsr.2.2] at hp
          cases hp
        · rw [hxsr.2.1] at hp
          cases hp
        · exact absurd rfl hlr
        · rw [hxsS l hl] at hp
          simpa using (hout l hl p hp).2)
  have hfirst₂ : (s₂.zone z).zoneFirstPage = zoneStart / PGSIZE := by
    rw [hzone₂, hzone₁]
  have hrep₂ : BootRep s₂ z S₁ (Function.update xs₁ (.reserved z)
      (List.range' (reservedStart / PGSIZE) c).reverse) n MEMLEVEL (fun _ => []) 0 := by
    refine ⟨h₂, ?_, ?_, fun _ _ => rfl, ?_, ?_, ?_, ?_⟩
    · intro k hk
      have hnS : ¬ S (.freeArea z k) := hS _ (.inr (.inr (.inr ⟨k, hk, rfl⟩)))
      rw [← hS₁]
      simp only [reduceCtorEq, false_or, hnS, false_iff]
      omega
    · intro k hk hle
      omega
    · intro l hl harea p hp
      rw [hfirst₂]
      rw [← hS₁] at hl
      rcases hl with rfl | rfl | rfl | hl
      · rw [Function.update_of_ne (by simp), hxsr.2.2] at hp
        cases hp
      · rw [Function.update_of_ne (by simp), hxsr.2.1] at hp
        cases hp
      · rw [Function.update_self, List.mem_reverse, List.mem_range'_1] at hp
        rintro ⟨h1, h2⟩
        exact hapart p hp.1 (by omega) h1 h2
      · have hlr : l ≠ .reserved z := fun he => hS l (.inl he) hl
        rw [Function.update_of_ne hlr, hxsS l hl] at hp
        exact (hout l hl p hp).1
    · rw [tagged]
      simp only [List.map_nil]
      exact ⟨by simp, by simp⟩
    · intro k _ i hi
      cases hi
    · intro k hk hle
      omega
  obtain ⟨s₃, S₃, xs₃, fs₃, hok₃, hrep₃, hoff₃, hS₃, honly₃⟩ :=
    bootLevels_spec zoneStart n hrep₂ (Nat.le_refl _) hfirst₂
      (by rw [honly₂.npages, hpage₁.2]; exact hn) (by omega) (Nat.dvd_zero _)
      (fun h0 => absurd h0 (by decide))
  have hSeq : ∀ l, (S l ∨ ZoneHead z l) ↔ S₃ l := by
    intro l
    rw [hS₃, ← hS₁]
    unfold ZoneHead
    tauto
  have hnotarea : ∀ l, (S l ∨ l = .reserved z ∨ l = .pageset z 0 ∨ l = .pageset z 1) →
      ∀ k < MEMLEVEL, l ≠ .freeArea z k := by
    rintro l (hl | rfl | rfl | rfl) k hk he
    · exact hS _ (.inr (.inr (.inr ⟨k, hk, rfl⟩))) (he ▸ hl)
    · cases he
    · cases he
    · cases he
  refine ⟨s₃, xs₃, fs₃, ?_, ?_, ?_, ?_, ?_, ?_, ?_, ?_, ?_, ?_⟩
  · simp only [bootZoneInit, hs₁, bind, Except.bind]
    rw [Nat.mul_zero, Nat.add_zero] at hok₂ hok₃
    rw [hok₂]
    exact hok₃
  · refine ⟨hrep₃.lists.mono fun l hl => (hSeq l).1 hl, ?_, ?_, ?_, ?_, hrep₃.free, by simp, ?_⟩
    · exact fun k hk => .inr (.inr (.inr (.inr ⟨k, hk, rfl⟩)))
    · exact fun k hk => hrep₃.areas k hk (Nat.zero_le k)
    · intro l hl harea b hb i hi hmem
      rw [List.append_nil] at hb
      have hle := hrep₃.tiling.le hb
      obtain ⟨_, hib⟩ := mem_blockRange.1 hi
      exact hrep₃.outside l ((hSeq l).1 hl) harea _ hmem ⟨by omega, by omega⟩
    · simpa using hrep₃.tiling
    · exact fun k hk => hrep₃.nrFree k hk (Nat.zero_le k)
  · obtain ⟨nr, hz⟩ := honly₃.zone
    exact ⟨nr, by rw [hz, hzone₂, hzone₁]⟩
  · rw [hoff₃ _ (hnotarea _ (.inr (.inl rfl))), Function.update_self, hc, hpage₁.2]
    simp
  · rw [hoff₃ _ (hnotarea _ (.inr (.inr (.inl rfl)))), Function.update_of_ne (by simp), hxsr.2.1]
  · rw [hoff₃ _ (hnotarea _ (.inr (.inr (.inr rfl)))), Function.update_of_ne (by simp), hxsr.2.2]
  · intro l hl
    have hlr : l ≠ .reserved z := fun he => hS l (.inl he) hl
    rw [hoff₃ _ (hnotarea _ (.inl hl)), Function.update_of_ne hlr, hxsS l hl]
  · rw [honly₃.npages, honly₂.npages, hpage₁.2]
  · intro z' hz'
    rw [honly₃.other z' hz', hzone₂, ← hs₁]
    simp [bootZone, setZone, hz']
  · intro p hp hp'
    rw [honly₃.page p hp, honly₂.page p (by simpa using hp'), hpage₁.1]

/-! ## §4 Heads of other zones

`boot_zone_init` for one zone may relink pages that are on a list of the other zone. It never writes
the list heads of the other zone. -/

theorem listAdd_next_head {s s' : Mem} {p : Nat} {l l' : ListId} (h : listAdd s p l = .ok s')
    (hne : l' ≠ l) : s'.links.next (.head l') = s.links.next (.head l') := by
  unfold listAdd at h
  cases hadd : s.links.add (.elem p) (.head l) with
  | none =>
    rw [hadd] at h
    cases h
  | some L =>
    rw [hadd] at h
    obtain rfl := Except.ok.inj h
    exact Links.add_next_other hadd (by simp) (by simpa using hne)

theorem bootReserved_next_head {z : ZoneId} {l : ListId} (hl : ¬ ZoneHead z l) (n phy : Nat)
    {s s' : Mem} (h : bootReserved z n phy s = .ok s') :
    s'.links.next (.head l) = s.links.next (.head l) := by
  induction n generalizing phy s with
  | zero =>
    obtain rfl := Except.ok.inj h
    rfl
  | succ n ih =>
    unfold bootReserved at h
    cases hpa : pa2page s phy with
    | none =>
      rw [hpa] at h
      obtain rfl := Except.ok.inj h
      rfl
    | some page =>
      simp only [hpa] at h
      cases hadd : listAdd (bootPage s page (zoneFlag z ||| RESERVED_PAGE) OUT_OF_BUDDY) page
          (.reserved z) with
      | error e =>
        rw [hadd] at h
        cases h
      | ok s₁ =>
        rw [hadd] at h
        rw [ih _ h, listAdd_next_head hadd (fun he => hl (.inl he))]
        rfl

theorem bootLevel_next_head {z : ZoneId} {l : ListId} {k : Nat} (hl : l ≠ .freeArea z k)
    (fuel r phy : Nat) {s s' : Mem} {r' phy' : Nat}
    (h : bootLevel z k fuel r phy s = .ok (r', phy', s')) :
    s'.links.next (.head l) = s.links.next (.head l) := by
  induction fuel generalizing r phy s with
  | zero =>
    obtain ⟨-, -, rfl⟩ : r = r' ∧ phy = phy' ∧ s = s' := by simpa [bootLevel] using h
    rfl
  | succ fuel ih =>
    unfold bootLevel at h
    split at h
    · cases hpa : pa2page s phy with
      | none =>
        rw [hpa] at h
        obtain ⟨-, -, rfl⟩ : r = r' ∧ phy = phy' ∧ s = s' := by simpa using h
        rfl
      | some page =>
        simp only [hpa] at h
        cases hadd : listAdd (bootPage s page (zoneFlag z) k) page (.freeArea z k) with
        | error e =>
          rw [hadd] at h
          cases h
        | ok s₁ =>
          rw [hadd] at h
          rw [ih _ _ h]
          have hset : (setZone s₁ z (incNrFree k)).links = s₁.links := rfl
          rw [hset, listAdd_next_head hadd hl]
          rfl
    · obtain ⟨-, -, rfl⟩ : r = r' ∧ phy = phy' ∧ s = s' := by simpa using h
      rfl

theorem bootLevels_next_head {z : ZoneId} {l : ListId} (hl : ¬ ZoneHead z l) (m r phy : Nat)
    (hm : m ≤ MEMLEVEL) {s s' : Mem} (h : bootLevels z m r phy s = .ok s') :
    s'.links.next (.head l) = s.links.next (.head l) := by
  induction m generalizing r phy s with
  | zero =>
    obtain rfl := Except.ok.inj h
    rfl
  | succ k ih =>
    have hne : l ≠ .freeArea z k := fun he => hl (.inr (.inr (.inr ⟨k, by omega, he⟩)))
    unfold bootLevels at h
    simp only [bind, Except.bind] at h
    split at h
    · cases h
    · rename_i v hlev
      obtain ⟨r₁, phy₁, s₁⟩ := v
      rw [ih r₁ phy₁ (by omega) h, bootLevel_next_head hne _ _ _ hlev]
      simp [Links.init, setZone, hne]

theorem bootZoneInit_next_head {z : ZoneId} {l : ListId} (hl : ¬ ZoneHead z l) {s s' : Mem}
    {a b c d : Nat} (h : bootZoneInit s z a b c d = .ok s') :
    s'.links.next (.head l) = s.links.next (.head l) := by
  unfold bootZoneInit at h
  simp only [bind, Except.bind] at h
  split at h
  · cases h
  · rename_i s₁ hres
    rw [bootLevels_next_head hl _ _ _ (Nat.le_refl _) h, bootReserved_next_head hl _ _ hres]
    have h1 : l ≠ .reserved z := fun he => hl (.inl he)
    have h2 : l ≠ .pageset z 0 := fun he => hl (.inr (.inl he))
    have h3 : l ≠ .pageset z 1 := fun he => hl (.inr (.inr (.inl he)))
    simp [bootZone, setZone, Links.init, h1, h2, h3]

/-! ## §5 `buddy_init` -/

/-- Page `p` lies in a block on a free list of zone `z`. -/
def InFreeBlock (s : Mem) (z : ZoneId) (p : Nat) : Prop :=
  ∃ k < MEMLEVEL, ∃ q, OnList s.links (.freeArea z k) q ∧ q ≤ p ∧ p < q + 2 ^ k

/-- No page belongs to more than one of the reserved pages of the kernel zone and the free blocks of
    the two zones. -/
def ZonesDisjoint (s : Mem) : Prop :=
  ∀ p, ¬ (OnList s.links (.reserved .kern) p ∧ InFreeBlock s .kern p) ∧
    ¬ (OnList s.links (.reserved .kern) p ∧ InFreeBlock s .normal p) ∧
    ¬ (InFreeBlock s .kern p ∧ InFreeBlock s .normal p)

/-- Every page of a represented zone that is not held is in a free block. -/
theorem ZoneRep.inFreeBlock {s : Mem} {z : ZoneId} {S : ListId → Prop} {xs : ListId → List Nat}
    {n : Nat} {fs : Nat → List Nat} (h : ZoneRep s z S xs n fs [] []) {p : Nat}
    (hlo : (s.zone z).zoneFirstPage ≤ p) (hhi : p < (s.zone z).zoneFirstPage + n) :
    InFreeBlock s z p := by
  obtain ⟨⟨i, k⟩, hb, hin⟩ := h.tiling.exists_mem (i := p - (s.zone z).zoneFirstPage) (by omega)
  obtain ⟨hk, hi⟩ := mem_tagged.1 (by simpa using hb)
  obtain ⟨hip, hpi⟩ : i ≤ p - (s.zone z).zoneFirstPage ∧
      p - (s.zone z).zoneFirstPage < i + 2 ^ k := mem_blockRange.1 hin
  refine ⟨k, hk, (s.zone z).zoneFirstPage + i, h.lists.onList (h.heads k hk) ?_, ?_, ?_⟩
  · rw [h.areas k hk]
    exact List.mem_map_of_mem hi
  · omega
  · omega

/-- The numbers that `buddy_init` computes. -/
theorem buddyInit_eq (s : Mem) (bootNextFree : Nat) :
    buddyInit s bootNextFree =
      (bootZoneInit s .kern (4096 * PGSIZE) 512 (bootNextFree - KERNBASE)
        ((4096 * PGSIZE - (bootNextFree - KERNBASE)) / PGSIZE)).bind fun s' =>
      bootZoneInit s' .normal 0 0 (4096 * PGSIZE) (s.npagesNum - 4096) := by
  have h1 : PTSIZE <<< 2 = 4096 * PGSIZE := by decide
  have h2 : PDENTRIES / 2 = 512 := by decide
  have h3 : ∀ a, a >>> 12 = a / PGSIZE := fun a => Nat.shiftRight_eq_div_pow a 12
  have h4 : 4096 * PGSIZE + 512 / PGSIZE = 4096 * PGSIZE := by decide
  have h5 : 4096 * PGSIZE / PGSIZE = 4096 := by decide
  simp only [buddyInit, h1, h2, h3, h4, h5]
  rfl

/-- After `buddy_init` the first page on the reserved list lies in a free block of the normal
    zone. -/
theorem reserved_inFreeBlock (s : Mem) {bootNextFree : Nat} (hnp : 4096 < s.npagesNum)
    (hlt : bootNextFree - KERNBASE < 4096 * PGSIZE) :
    ∃ s' p, buddyInit s bootNextFree = .ok s' ∧ OnList s'.links (.reserved .kern) p ∧
      InFreeBlock s' .normal p := by
  have hstart : 4096 * PGSIZE / PGSIZE = 4096 := by decide
  have hpg : PGSIZE = 4096 := rfl
  have hnone : ∀ L : Links (Node ListId Nat), Lists L (fun _ => False) (fun _ => []) :=
    fun L => ⟨fun _ h => h.elim, fun _ _ h => h.elim⟩
  -- the kernel zone ends at 16 MB, and the reserved pages follow it
  have hend : (bootNextFree - KERNBASE) / PGSIZE +
      (4096 * PGSIZE - (bootNextFree - KERNBASE)) / PGSIZE ≤ 4096 := by
    generalize bootNextFree - KERNBASE = a at hlt
    rw [hpg] at hlt ⊢
    omega
  obtain ⟨s₁, xs₁, fs₁, hok₁, hrep₁, _, hres₁, _, _, _, hnp₁, _⟩ :=
    bootZoneInit_spec (z := .kern) (hnone s.links) (fun _ _ => id) (4096 * PGSIZE) 512
      (bootNextFree - KERNBASE) (n := (4096 * PGSIZE - (bootNextFree - KERNBASE)) / PGSIZE)
      (by omega) (fun p h1 _ _ h4 => by omega) (fun _ h => h.elim)
  rw [hstart] at hres₁
  obtain ⟨c, hc⟩ : ∃ c, min 512 (s.npagesNum - 4096) = c + 1 :=
    ⟨min 512 (s.npagesNum - 4096) - 1, by omega⟩
  rw [hc, List.range'_concat, List.reverse_append, List.reverse_singleton] at hres₁
  have hnext₁ : s₁.links.next (.head (.reserved .kern)) = some (.elem (4096 + c)) := by
    rw [hrep₁.lists.next_head (.inr (.inl rfl)), hres₁]
    simp
  -- the normal zone starts at 16 MB as well
  obtain ⟨s₂, xs₂, fs₂, hok₂, hrep₂, hzone₂, _⟩ :=
    bootZoneInit_spec (z := .normal) (hnone s₁.links) (fun _ _ => id) 0 0 (4096 * PGSIZE)
      (n := s.npagesNum - 4096) (by omega) (by unfold RangesApart; omega) (fun _ h => h.elim)
  have hfirst₂ : (s₂.zone .normal).zoneFirstPage = 4096 := by
    obtain ⟨nr, hz⟩ := hzone₂
    rw [hz]
    exact hstart
  refine ⟨s₂, 4096 + c, ?_, .first ?_, hrep₂.inFreeBlock ?_ ?_⟩
  · rw [buddyInit_eq, hok₁, Except.bind, hok₂]
  · rw [bootZoneInit_next_head (by simp [ZoneHead]) hok₂]
    exact hnext₁
  · rw [hfirst₂]
    exact Nat.le_add_right _ _
  · rw [hfirst₂]
    have hadd : 4096 + (s.npagesNum - 4096) = s.npagesNum := by omega
    rw [hadd]
    omega

/-- **The zones are never disjoint after boot**: whatever the memory size and the end of the boot
    allocations, `buddy_init` puts a reserved page of the kernel zone into a free block of the
    normal zone. -/
theorem buddyInit_overlap (s : Mem) (bootNextFree : Nat) (hnp : 4096 < s.npagesNum)
    (hstart : KERNBASE ≤ bootNextFree ∧ bootNextFree - KERNBASE < 4096 * PGSIZE) :
    ∃ s', buddyInit s bootNextFree = .ok s' ∧ ¬ ZonesDisjoint s' := by
  obtain ⟨s', p, hok, hres, hfree⟩ := reserved_inFreeBlock s hnp hstart.2
  exact ⟨s', hok, fun hdis => (hdis p).2.1 ⟨hres, hfree⟩⟩

/-- On a machine with 32 MB whose boot allocations end at 4 MB. -/
theorem buddyInit_overlap_32MB : ∃ s', buddyInit (zeroMem 8192) (KERNBASE + 1024 * PGSIZE) = .ok s' ∧
    ¬ ZonesDisjoint s' :=
  buddyInit_overlap (zeroMem 8192) (KERNBASE + 1024 * PGSIZE) (by simp [zeroMem])
    ⟨Nat.le_add_right _ _, by rw [Nat.add_sub_cancel_left]; decide⟩

/-- There the zones are not disjoint, though the normal zone has pages and the boot allocations end
    page aligned below 16 MB. -/
theorem zonesDisjoint_fails_32MB :
    ¬ ∀ npagesNum bootNextFree, 4096 < npagesNum → KERNBASE ≤ bootNextFree →
      (bootNextFree - KERNBASE) % PGSIZE = 0 → bootNextFree - KERNBASE < 4096 * PGSIZE →
      ∀ s', buddyInit (zeroMem npagesNum) bootNextFree = .ok s' → ZonesDisjoint s' := by
  intro hall
  have hsub : KERNBASE + 1024 * PGSIZE - KERNBASE = 1024 * PGSIZE := Nat.add_sub_cancel_left _ _
  have hlt : KERNBASE + 1024 * PGSIZE - KERNBASE < 4096 * PGSIZE := by rw [hsub]; decide
  obtain ⟨s', p, hok, hres, hfree⟩ := reserved_inFreeBlock (zeroMem 8192) (by simp [zeroMem]) hlt
  have hdis := hall 8192 (KERNBASE + 1024 * PGSIZE) (by decide) (Nat.le_add_right _ _)
    (by rw [hsub]; decide) hlt s' hok
  exact (hdis p).2.1 ⟨hres, hfree⟩

end WeiOS.Buddy
