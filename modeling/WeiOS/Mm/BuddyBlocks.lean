import Mathlib
import WeiOS.Mm.BuddyInvariant

/-!
# Cutting and Splitting Blocks

How `boot_zone_init` cuts a zone into blocks, and how `__rmqueue` splits a block. A zone may hand its pages
out in any way: a well-formed zone says what its free blocks are, and nothing about its other pages.

## Main results
- `bootZoneInit_tiles`: the blocks of a new zone, at most one of each order below the highest.
- `rmqueue_splits`: the block that `__rmqueue` returns, and what it leaves free, for every zone and order.
-/

namespace WeiOS.Buddy

open WeiOS.Lib

/-! ## §1 Blocks per order after boot -/

section Counts

variable {z : ZoneId} {s s' : Mem}

theorem listAdd_same {page : Nat} {l : ListId} (h : listAdd s page l = .ok s') :
    s'.zone = s.zone ∧ s'.npagesNum = s.npagesNum := by
  unfold listAdd at h
  cases hadd : s.links.add (.elem page) (.head l) with
  | none =>
    rw [hadd] at h
    cases h
  | some L =>
    rw [hadd] at h
    obtain rfl := Except.ok.inj h
    exact ⟨rfl, rfl⟩

/-- The inner loop of `boot_zone_init` cuts as many blocks of order `k` as there are in the rest. -/
theorem bootLevel_count {k : Nat} (fuel r phy : Nat) {r' phy' : Nat} (hfuel : r ≤ fuel)
    (hn : 0 < r → phy / PGSIZE + r ≤ s.npagesNum) (h : bootLevel z k fuel r phy s = .ok (r', phy', s')) :
    (s'.zone z).nrFree k = (s.zone z).nrFree k + r / 2 ^ k ∧ r' = r % 2 ^ k ∧
      (∀ j ≠ k, (s'.zone z).nrFree j = (s.zone z).nrFree j) ∧
      (0 < r' → phy' / PGSIZE + r' ≤ s'.npagesNum) := by
  induction fuel generalizing s r phy with
  | zero =>
    obtain rfl : r = 0 := Nat.le_zero.1 hfuel
    obtain ⟨rfl, rfl, rfl⟩ : 0 = r' ∧ phy = phy' ∧ s = s' := by simpa [bootLevel] using h
    simp
  | succ fuel ih =>
    have hpos := Nat.two_pow_pos k
    unfold bootLevel at h
    by_cases hle : 2 ^ k ≤ r
    · have hlast := hn (by omega)
      have hpage : pa2page s phy = some (phy / PGSIZE) := if_neg (by omega)
      rw [if_pos hle, hpage] at h
      dsimp only at h
      cases hadd : listAdd (bootPage s (phy / PGSIZE) (zoneFlag z) k) (phy / PGSIZE) (.freeArea z k) with
      | error e =>
        rw [hadd] at h
        cases h
      | ok s₁ =>
        rw [hadd] at h
        obtain ⟨hzone, hnp⟩ := listAdd_same hadd
        have hnext : (phy + PGSIZE * 2 ^ k) / PGSIZE = phy / PGSIZE + 2 ^ k :=
          Nat.add_mul_div_left _ _ (by decide)
        have hnp' : (setZone s₁ z (incNrFree k)).npagesNum = s.npagesNum := hnp
        obtain ⟨hcount, hrest, hother, hend⟩ := ih (r - 2 ^ k) (phy + PGSIZE * 2 ^ k)
          (s := setZone s₁ z (incNrFree k)) (by omega) (by
            rw [hnext, hnp']
            omega) h
        have hzone' : s₁.zone z = s.zone z := congrFun hzone z
        refine ⟨?_, ?_, ?_, hend⟩
        · rw [hcount]
          simp only [setZone, incNrFree, Function.update_self, hzone']
          have hdiv : r / 2 ^ k = (r - 2 ^ k) / 2 ^ k + 1 := Nat.div_eq_sub_div hpos hle
          omega
        · rw [hrest]
          exact (Nat.mod_eq_sub_mod hle).symm
        · intro j hj
          rw [hother j hj]
          simp [setZone, incNrFree, hzone', hj]
    · rw [if_neg hle] at h
      obtain ⟨rfl, rfl, rfl⟩ : r = r' ∧ phy = phy' ∧ s = s' := by simpa using h
      have hlt : r < 2 ^ k := Nat.not_le.1 hle
      exact ⟨by rw [Nat.div_eq_of_lt hlt]; rfl, (Nat.mod_eq_of_lt hlt).symm, fun _ _ => rfl, hn⟩

/-- **The outer loop**: below the first order, a block is cut exactly where the binary digit of the size is 1. -/
theorem bootLevels_count (m r phy : Nat) (hn : 0 < r → phy / PGSIZE + r ≤ s.npagesNum)
    (h : bootLevels z m r phy s = .ok s') :
    (∀ k < m, (s'.zone z).nrFree k = if k + 1 = m then r / 2 ^ k else r / 2 ^ k % 2) ∧
      ∀ k, m ≤ k → (s'.zone z).nrFree k = (s.zone z).nrFree k := by
  induction m generalizing s r phy with
  | zero =>
    obtain rfl : s = s' := Except.ok.inj h
    exact ⟨fun k hk => absurd hk (Nat.not_lt_zero k), fun _ _ => rfl⟩
  | succ m ih =>
    unfold bootLevels at h
    dsimp only at h
    generalize hs₀ : ({ setZone s z fun zn => { zn with nrFree := Function.update zn.nrFree m 0 } with
      links := (setZone s z fun zn => { zn with nrFree := Function.update zn.nrFree m 0 }).links.init
        (.head (.freeArea z m)) } : Mem) = s₀ at h
    have hnr : (s₀.zone z).nrFree = Function.update (s.zone z).nrFree m 0 := by
      rw [← hs₀]
      simp [setZone]
    have hnp : s₀.npagesNum = s.npagesNum := by
      rw [← hs₀]
      rfl
    cases hlevel : bootLevel z m r r phy s₀ with
    | error e =>
      rw [hlevel] at h
      cases h
    | ok out =>
      obtain ⟨r', phy', s₁⟩ := out
      rw [hlevel] at h
      obtain ⟨hcount, hrest, hother, hend⟩ :=
        bootLevel_count r r phy (Nat.le_refl r) (by rwa [hnp]) hlevel
      obtain ⟨hbelow, habove⟩ := ih r' phy' hend h
      refine ⟨?_, ?_⟩
      · intro k hk
        rcases Nat.lt_succ_iff_lt_or_eq.1 hk with hlt | rfl
        · -- the digits below order `m` are those of the rest
          have hdiv : r' / 2 ^ k = r / 2 ^ k % 2 ^ (m - k) := by
            have hpow : 2 ^ m = 2 ^ k * 2 ^ (m - k) := by rw [← Nat.pow_add, Nat.add_sub_cancel' hlt.le]
            rw [hrest, hpow]
            exact Nat.mod_mul_right_div_self ..
          rw [hbelow k hlt, hdiv, if_neg (by omega : ¬ k + 1 = m + 1)]
          split
          · next hkm =>
            have hone : m - k = 1 := by omega
            rw [hone, Nat.pow_one]
          · exact Nat.mod_mod_of_dvd _ (dvd_pow_self 2 (by omega))
        · rw [habove k (Nat.le_refl k), hcount, hnr, Function.update_self, if_pos rfl, Nat.zero_add]
      · intro k hk
        rw [habove k (by omega), hother k (by omega), hnr, Function.update_of_ne (by omega)]

theorem bootReserved_npages (m phy : Nat) (h : bootReserved z m phy s = .ok s') :
    s'.npagesNum = s.npagesNum := by
  induction m generalizing s phy with
  | zero => rw [← Except.ok.inj h]
  | succ m ih =>
    unfold bootReserved at h
    cases hpage : pa2page s phy with
    | none =>
      rw [hpage] at h
      rw [← Except.ok.inj h]
    | some page =>
      rw [hpage] at h
      dsimp only at h
      cases hadd : listAdd (bootPage s page (zoneFlag z ||| RESERVED_PAGE) OUT_OF_BUDDY) page (.reserved z) with
      | error e =>
        rw [hadd] at h
        cases h
      | ok s₁ =>
        rw [hadd] at h
        exact (ih (phy + PGSIZE) h).trans (listAdd_same hadd).2

end Counts

/-- **`boot_zone_init` tiles the zone**: its blocks partition the pages of the zone, each aligned to its size
    and marked with its order, at most one of each order below the highest; counters are right. -/
theorem bootZoneInit_tiles (s : Mem) (z : ZoneId) (reservedStart reservedSize zoneStart n : Nat)
    (hn : ∀ p, zoneStart / PGSIZE ≤ p → p < zoneStart / PGSIZE + n → p < s.npagesNum)
    (hapart : RangesApart (reservedStart / PGSIZE) reservedSize (zoneStart / PGSIZE) n) :
    ∃ s' fs, bootZoneInit s z reservedStart reservedSize zoneStart n = .ok s' ∧
      BlocksOk z (zoneStart / PGSIZE) n ⟨s', []⟩ fs ∧
      (s'.zone z).zoneFirstPage = zoneStart / PGSIZE ∧
      (∀ k < MEMLEVEL - 1, (fs k).length ≤ 1) ∧ (s'.zone z).freePages = reservedSize + n := by
  have hall : 0 < n → zoneStart / PGSIZE + n ≤ s.npagesNum := by
    generalize zoneStart / PGSIZE = first at hn
    intro hpos
    have hlast := hn (first + n - 1) (by omega) (by omega)
    omega
  obtain ⟨s', hok, xs, fs, hs, hinv⟩ :=
    bootZoneInit_inv s z reservedStart reservedSize zoneStart n hall hapart
  obtain ⟨fs, hblocks⟩ := hinv.zoneOk
  refine ⟨s', fs, hok, hblocks, hinv.base, ?_, ?_⟩
  · -- the counters tell how many blocks there are
    intro k hk
    rw [← hblocks.counted k (by omega)]
    unfold bootZoneInit at hok
    dsimp only at hok
    cases hres : bootReserved z reservedSize reservedStart (bootZone s z reservedSize zoneStart n) with
    | error e =>
      rw [hres] at hok
      cases hok
    | ok s₁ =>
      rw [hres] at hok
      have hnp : s₁.npagesNum = (bootZone s z reservedSize zoneStart n).npagesNum :=
        bootReserved_npages _ _ hres
      obtain ⟨hcount, _⟩ := bootLevels_count MEMLEVEL n zoneStart (by rwa [hnp]) hok
      have hlow : ¬ k + 1 = MEMLEVEL := by omega
      show (s'.zone z).nrFree k ≤ 1
      rw [hcount k (by omega), if_neg hlow]
      have hmod := Nat.mod_lt (n / 2 ^ k) Nat.two_pos
      omega
  · have hnone : Lists s.links (fun _ => False) (fun _ => []) :=
      ⟨fun _ h => h.elim, fun _ _ h => h.elim⟩
    obtain ⟨t, _, _, hok', _, ⟨_, hzone⟩, _⟩ := bootZoneInit_spec hnone (z := z)
      (fun _ _ => id) reservedStart reservedSize zoneStart hall hapart (fun _ h => h.elim)
    obtain rfl : s' = t := Except.ok.inj (hok.symm.trans hok')
    rw [hzone]

/-- A zone of 21 pages behind two reserved ones. -/
theorem bootZoneInit_tiles_small :
    ∃ s' fs, bootZoneInit (zeroMem 64) .normal (6 * PGSIZE) 2 (8 * PGSIZE) 21 = .ok s' ∧
      BlocksOk .normal (8 * PGSIZE / PGSIZE) 21 ⟨s', []⟩ fs ∧
      (s'.zone .normal).zoneFirstPage = 8 * PGSIZE / PGSIZE ∧
      (∀ k < MEMLEVEL - 1, (fs k).length ≤ 1) ∧ (s'.zone .normal).freePages = (2 : Nat) + (21 : Nat) := by
  have h₈ : 8 * PGSIZE / PGSIZE = 8 := by decide
  have h₆ : 6 * PGSIZE / PGSIZE = 6 := by decide
  apply bootZoneInit_tiles
  · intro p _ hp
    rw [h₈] at hp
    show p < 64
    omega
  · intro p _ hhi hlo _
    rw [h₆] at hhi
    rw [h₈] at hlo
    omega

/-! ## §2 Splitting a block -/

/-- **A well-formed zone**: `fs k` are the starts of the free blocks of order `k`, relative to the first page of
    the zone. They are disjoint and aligned, their heads are marked with their order, and `nr_free` counts
    them. Nothing is said about the other pages. -/
structure WellFormed (s : Mem) (z : ZoneId) (fs : Nat → List Nat) : Prop where
  lists : ∀ k < MEMLEVEL, Ring s.links (.head (.freeArea z k))
    (((fs k).map ((s.zone z).zoneFirstPage + ·)).map .elem)
  disjoint : ((tagged MEMLEVEL fs).flatMap blockRange).Nodup
  aligned : ∀ k < MEMLEVEL, ∀ i ∈ fs k, 2 ^ k ∣ i
  marked : ∀ k < MEMLEVEL, ∀ i ∈ fs k, (s.page ((s.zone z).zoneFirstPage + i)).pPrivate = k
  counted : ∀ k < MEMLEVEL, (s.zone z).nrFree k = (fs k).length

/-- `__rmqueue` for any `int`. -/
def rmqueue (s : Mem) (z : ZoneId) (order : Int) : Except Fault (Option Nat × Mem) :=
  if order < 0 then .ok (none, s) else __rmqueue s z order.toNat

/-- The free blocks after the block at `i` of order `k` was split down to order `o`: one more of each order in
    between. -/
def splitFrees (fs : Nat → List Nat) (i o k : Nat) (rest : List Nat) (j : Nat) : List Nat :=
  if j = k then rest else if o ≤ j ∧ j < k then (i + 2 ^ j) :: fs j else fs j

section Split

variable {s : Mem} {z : ZoneId} {fs : Nat → List Nat}

/-- The pages that are in no free block. -/
def loose (fs : Nat → List Nat) (n : Nat) : List (Nat × Nat) :=
  ((List.range n).filter fun i => decide (i ∉ (tagged MEMLEVEL fs).flatMap blockRange)).map fun i => (i, 0)

theorem blockRange_zero (l : List Nat) : (l.map fun i => (i, 0)).flatMap blockRange = l := by
  induction l with
  | nil => rfl
  | cons i l ih =>
    rw [List.map_cons, List.flatMap_cons, ih]
    rfl

/-- Free blocks and single pages tile the zone, up to any number behind the free blocks. -/
theorem WellFormed.tiling (h : WellFormed s z fs) {n : Nat}
    (hn : ∀ i ∈ (tagged MEMLEVEL fs).flatMap blockRange, i < n) :
    Tiling (tagged MEMLEVEL fs ++ (loose fs n ++ [])) n := by
  rw [List.append_nil]
  constructor
  · rw [List.flatMap_append, loose, blockRange_zero]
    generalize hcovered : (tagged MEMLEVEL fs).flatMap blockRange = covered at hn
    have hnd : covered.Nodup := hcovered ▸ h.disjoint
    apply (List.perm_ext_iff_of_nodup ?_ List.nodup_range).2
    · intro i
      simp only [List.mem_append, List.mem_filter, List.mem_range, decide_eq_true_eq]
      constructor
      · rintro (hi | ⟨hi, _⟩)
        · exact hn i hi
        · exact hi
      · intro hi
        by_cases hmem : i ∈ covered
        · exact .inl hmem
        · exact .inr ⟨hi, hmem⟩
    · apply hnd.append (List.nodup_range.filter _)
      intro i hi hi'
      have hnot := (List.mem_filter.1 hi').2
      exact absurd hi (by simpa using hnot)
  · intro b hb
    rcases List.mem_append.1 hb with hb | hb
    · obtain ⟨i, k⟩ := b
      obtain ⟨hk, hi⟩ := mem_tagged.1 hb
      exact h.aligned k hk i hi
    · obtain ⟨i, _, rfl⟩ := List.mem_map.1 hb
      exact one_dvd i

/-- The list heads of the free lists of a zone. -/
def AreaHead (z : ZoneId) (l : ListId) : Prop := ∃ k < MEMLEVEL, l = .freeArea z k

/-- The lists of these heads. -/
def areaLists (fs : Nat → List Nat) (first : Nat) : ListId → List Nat
  | .freeArea _ k => (fs k).map (first + ·)
  | _ => []

/-- **A well-formed zone is represented** when its other pages count as blocks on their way. -/
theorem WellFormed.rep (h : WellFormed s z fs) :
    ∃ n, ZoneRep s z (AreaHead z) (areaLists fs (s.zone z).zoneFirstPage) n fs (loose fs n) [] := by
  obtain ⟨n, hn⟩ : ∃ n, ∀ i ∈ (tagged MEMLEVEL fs).flatMap blockRange, i < n := by
    refine ⟨((tagged MEMLEVEL fs).flatMap blockRange).sum + 1, fun i hi => ?_⟩
    exact Nat.lt_succ_of_le (List.single_le_sum (fun _ _ => Nat.zero_le _) i hi)
  refine ⟨n, ⟨?_, ?_⟩, fun k hk => ⟨k, hk, rfl⟩, fun _ _ => rfl, ?_, h.tiling hn, h.marked, by simp,
    h.counted⟩
  · rintro _ ⟨k, hk, rfl⟩
    exact h.lists k hk
  · rintro _ _ ⟨k, hk, rfl⟩ ⟨j, hj, rfl⟩ hne a ha ha'
    obtain ⟨i, hi, rfl⟩ := List.mem_map.1 ha
    obtain ⟨i', hi', heq⟩ := List.mem_map.1 ha'
    obtain rfl : i' = i := Nat.add_left_cancel heq
    -- no two free blocks start at the same page
    have hsplit := (h.tiling hn).starts_nodup
    have hpair := List.nodup_map_iff_inj_on (List.Nodup.of_map _ hsplit) |>.1 hsplit
    have hkj := hpair (i', k) (List.mem_append_left _ (mem_tagged.2 ⟨hk, hi⟩)) (i', j)
      (List.mem_append_left _ (mem_tagged.2 ⟨hj, hi'⟩)) rfl
    exact hne (congrArg (fun b : Nat × Nat => ListId.freeArea z b.2) hkj)
  · rintro _ ⟨k, hk, rfl⟩ hnot
    exact absurd rfl (hnot k hk)

theorem wellFormed_of_rep {xs : ListId → List Nat} {n : Nat} {ts hs : List (Nat × Nat)}
    (h : ZoneRep s z (AreaHead z) xs n fs ts hs) : WellFormed s z fs where
  lists := by
    intro k hk
    rw [← h.areas k hk]
    exact h.lists.ring _ ⟨k, hk, rfl⟩
  disjoint := by
    have hnd := h.tiling.nodup
    rw [List.flatMap_append] at hnd
    exact (List.nodup_append.1 hnd).1
  aligned := fun k hk i hi => h.tiling.aligned (i, k) (List.mem_append_left _ (mem_tagged.2 ⟨hk, hi⟩))
  marked := h.free
  counted := h.nrFree

/-- The parts of a block that is split: what is returned, and one block of each order below that of the block. -/
theorem split_perm (i o d : Nat) : (blockRange (i, o + d)).Perm
    (blockRange (i, o) ++ ((List.range' o d).map fun j => (i + 2 ^ j, j)).flatMap blockRange) := by
  induction d with
  | zero => simp
  | succ d ih =>
    have hlast : ([o + d].map fun j => (i + 2 ^ j, j)).flatMap blockRange =
        blockRange (i + 2 ^ (o + d), o + d) := List.append_nil _
    rw [← Nat.add_assoc, blockRange_succ, List.range'_concat, Nat.one_mul, List.map_append, List.flatMap_append,
      hlast, ← List.append_assoc]
    exact ih.append_right _

theorem halved_eq (fs : Nat → List Nat) (i o d : Nat) (rest : List Nat) :
    halved (Function.update fs (o + d) rest) i o d = splitFrees fs i o (o + d) rest := by
  funext j
  unfold splitFrees
  rw [halved_apply]
  by_cases hj : j = o + d
  · subst hj
    rw [if_neg (by omega), if_pos rfl, Function.update_self]
  · rw [Function.update_of_ne hj, if_neg hj]

/-- **What `__rmqueue` does to a zone** that has a block: the first block of the smallest order `k` that has any is
    taken, its first `2 ^ o` pages are returned, and its other pages are one new free block of each order from
    `o` up to `k - 1`. -/
structure SplitOff (s : Mem) (z : ZoneId) (fs : Nat → List Nat) (o page : Nat) (s' : Mem) (k i : Nat)
    (rest : List Nat) : Prop where
  le : o ≤ k
  lt : k < MEMLEVEL
  smallest : ∀ j, o ≤ j → j < k → fs j = []
  block : fs k = i :: rest
  page : page = (s.zone z).zoneFirstPage + i
  aligned : 2 ^ o ∣ i
  parts : (blockRange (i, k)).Perm
    (blockRange (i, o) ++ ((List.range' o (k - o)).map fun j => (i + 2 ^ j, j)).flatMap blockRange)
  first : (s'.zone z).zoneFirstPage = (s.zone z).zoneFirstPage
  wellFormed : WellFormed s' z (splitFrees fs i o k rest)
  freePages : (s'.zone z).freePages = (s.zone z).freePages - (2 ^ o : Nat)

/-- **`__rmqueue` splits correctly** on every well-formed zone, for every order. -/
theorem rmqueue_splits (h : WellFormed s z fs) (order : Int) :
    ((0 ≤ order ∧ order < MEMLEVEL ∧ ∃ k < MEMLEVEL, order ≤ k ∧ fs k ≠ []) →
      ∃ page s', rmqueue s z order = .ok (some page, s') ∧ ∃ k i rest, SplitOff s z fs order.toNat page s' k i rest) ∧
    (¬ (0 ≤ order ∧ order < MEMLEVEL ∧ ∃ k < MEMLEVEL, order ≤ k ∧ fs k ≠ []) →
      rmqueue s z order = .ok (none, s)) := by
  obtain ⟨n, hrep⟩ := h.rep
  unfold rmqueue
  constructor
  · rintro ⟨hpos, _, k', hk', hle', hne⟩
    rw [if_neg (Int.not_lt.2 hpos)]
    obtain ⟨o, rfl⟩ := Int.eq_ofNat_of_zero_le hpos
    rw [Int.toNat_natCast]
    rcases rmqueue_halved hrep o with ⟨_, hall⟩ | ⟨d, i, rest, s', xs', hlt, hblock, hfirst, hok, hrep', honly, _, hfree⟩
    · exact absurd (hall k' hk' (Int.ofNat_le.1 hle')) hne
    · have hdvd : 2 ^ (o + d) ∣ i := h.aligned _ hlt i (by simp [hblock])
      rw [halved_eq] at hrep'
      refine ⟨_, s', hok, o + d, i, rest, Nat.le_add_right o d, hlt, hfirst, hblock, rfl, ?_, ?_, honly.first,
        wellFormed_of_rep hrep', hfree⟩
      · exact (Nat.pow_dvd_pow 2 (Nat.le_add_right o d)).trans hdvd
      · rw [Nat.add_sub_cancel_left]
        exact split_perm i o d
  · intro hnone
    split
    · rfl
    · next hpos =>
      obtain ⟨o, rfl⟩ := Int.eq_ofNat_of_zero_le (Int.not_lt.1 hpos)
      rw [Int.toNat_natCast]
      rcases rmqueue_halved hrep o with ⟨hok, _⟩ | ⟨d, i, rest, s', xs', hlt, hblock, _⟩
      · exact hok
      · have hsome : fs (o + d) ≠ [] := by
          rw [hblock]
          exact List.cons_ne_nil _ _
        have hord : o < MEMLEVEL := by omega
        exact absurd ⟨Int.natCast_nonneg o, Int.ofNat_lt.2 hord, o + d, hlt, Int.ofNat_le.2 (Nat.le_add_right o d),
          hsome⟩ hnone

end Split

/-- A zone whose only free block has the pages 8 to 15. -/
def oneBlock : Mem where
  npagesNum := 16
  page := fun p => if p = 8 then ⟨1, 3, 0⟩ else ⟨1, OUT_OF_BUDDY, 0⟩
  links :=
    { next := fun a => if a = .head (.freeArea .normal 3) then some (.elem 8)
        else if a = .elem 8 then some (.head (.freeArea .normal 3)) else some a
      prev := fun a => if a = .head (.freeArea .normal 3) then some (.elem 8)
        else if a = .elem 8 then some (.head (.freeArea .normal 3)) else some a }
  zone := fun _ => ⟨8, 0, 0, fun k => if k = 3 then 1 else 0, fun _ => bootPageset, 0, false⟩

theorem oneBlock_wellFormed : WellFormed oneBlock .normal fun k => if k = 3 then [8] else [] where
  lists := by
    intro k hk
    by_cases h3 : k = 3
    · subst h3
      refine ⟨?_, by decide⟩
      simp [oneBlock, Links.Linked, List.isChain_cons_cons]
    · rw [if_neg h3]
      refine ⟨?_, by simp⟩
      simp [oneBlock, Links.Linked, List.isChain_cons_cons, h3]
  disjoint := by decide
  aligned := by
    intro k _ i hi
    by_cases h3 : k = 3
    · subst h3
      rw [if_pos rfl, List.mem_singleton] at hi
      rw [hi]
      exact dvd_refl 8
    · rw [if_neg h3] at hi
      cases hi
  marked := by
    intro k _ i hi
    by_cases h3 : k = 3
    · subst h3
      rw [if_pos rfl, List.mem_singleton] at hi
      rw [hi]
      rfl
    · rw [if_neg h3] at hi
      cases hi
  counted := by
    intro k _
    by_cases h3 : k = 3
    · subst h3
      rfl
    · simp [oneBlock, h3]

/-- Two of its pages are asked for, and 4 and 2 pages are left. -/
theorem rmqueue_splits_oneBlock :
    ((0 ≤ (1 : Int) ∧ (1 : Int) < MEMLEVEL ∧ ∃ k < MEMLEVEL, (1 : Int) ≤ k ∧ (if k = 3 then [8] else []) ≠ []) →
      ∃ page s', rmqueue oneBlock .normal 1 = .ok (some page, s') ∧ ∃ k i rest,
        SplitOff oneBlock .normal (fun k => if k = 3 then [8] else []) (1 : Int).toNat page s' k i rest) ∧
    (¬ (0 ≤ (1 : Int) ∧ (1 : Int) < MEMLEVEL ∧
        ∃ k < MEMLEVEL, (1 : Int) ≤ k ∧ (if k = 3 then [8] else []) ≠ []) →
      rmqueue oneBlock .normal 1 = .ok (none, oneBlock)) :=
  rmqueue_splits oneBlock_wellFormed 1

end WeiOS.Buddy
