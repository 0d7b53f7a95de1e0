import Mathlib
import WeiOS.Lib.Run
import WeiOS.Lib.IntrusiveList
import WeiOS.Lib.Dyadic
import WeiOS.Mm.Buddy
import WeiOS.Mm.BuddyZone
import WeiOS.Mm.BuddyBoot

/-!
# The Buddy Invariant over Runs

A zone built by `boot_zone_init` is used through `__rmqueue` and `__free_pages_bulk`. As long as the
merge loop of `__free_pages_bulk` meets a buddy that is not free, at an order below `MEMLEVEL` and
before it leaves the zone, the free blocks and the held blocks partition the zone and all marks and
counters are right. The loop has no other bound: two free blocks of the highest order are merged
into a block of order `MEMLEVEL`, for which there is no list.

## Main results
- `zoneOk_of_stopsInside`: the invariant over whole runs.
- `topOrder_free_leaves_freeArea`: a run that ends with an access to `free_area[MEMLEVEL]`.
-/

namespace WeiOS.Buddy

open WeiOS.Lib

/-! ## §1 Runs -/

/-- The memory, and the blocks that callers of `__rmqueue` hold, as pairs of a page and an order. -/
structure ZoneRun where
  mem : Mem
  held : List (Nat × Nat)

/-- The operations on one zone. -/
inductive ZoneOp where
  | rmqueue (order : Nat)
  | freePagesBulk (page order : Nat)

/-- One call. -/
def zoneStep (z : ZoneId) (r : ZoneRun) : ZoneOp → Except Fault ZoneRun
  | .rmqueue order => do
    match ← __rmqueue r.mem z order with
    | (none, s) => pure ⟨s, r.held⟩
    | (some page, s) => pure ⟨s, (page, order) :: r.held⟩
  | .freePagesBulk page order => do
    let s ← __freePagesBulk r.mem z page order
    pure ⟨s, r.held.erase (page, order)⟩

/-- Orders are below `MEMLEVEL`, and only held blocks are released, with their order. -/
def ZoneAllowed (r : ZoneRun) : ZoneOp → Prop
  | .rmqueue order => order < MEMLEVEL
  | .freePagesBulk page order => (page, order) ∈ r.held

/-- The merging after a release stops in time. -/
def MergeStops (z : ZoneId) (n : Nat) (r : ZoneRun) : ZoneOp → Prop
  | .rmqueue _ => True
  | .freePagesBulk page order =>
    StopsInside r.mem z n (page - (r.mem.zone z).zoneFirstPage) order

/-- What holds of a zone with the `n` pages from `first` on: `fs k` are the pages on the free list of
    order `k`. -/
structure BlocksOk (z : ZoneId) (first n : Nat) (r : ZoneRun) (fs : Nat → List Nat) : Prop where
  lists : ∀ k < MEMLEVEL, Ring r.mem.links (.head (.freeArea z k)) ((fs k).map .elem)
  partition : ((tagged MEMLEVEL fs ++ r.held).flatMap blockRange).Perm (List.range' first n)
  aligned : ∀ k < MEMLEVEL, ∀ p ∈ fs k, 2 ^ k ∣ p - (r.mem.zone z).zoneFirstPage
  marked : ∀ k < MEMLEVEL, ∀ p ∈ fs k, (r.mem.page p).pPrivate = k
  counted : ∀ k < MEMLEVEL, (r.mem.zone z).nrFree k = (fs k).length
  total : (r.mem.zone z).freePages = (r.mem.zone z).pagesReserved +
    (∑ k ∈ Finset.range MEMLEVEL, (r.mem.zone z).nrFree k * 2 ^ k : Nat)

/-- The zone is in order, for some contents of the free lists. -/
def ZoneOk (z : ZoneId) (first n : Nat) (r : ZoneRun) : Prop := ∃ fs, BlocksOk z first n r fs

/-! ## §2 The invariant -/

/-- The representation of a zone whose other lists hold no page of it, with the held blocks of the
    run. -/
structure ZoneInv (z : ZoneId) (first n : Nat) (r : ZoneRun) (S : ListId → Prop)
    (xs : ListId → List Nat) (fs : Nat → List Nat) (hs : List (Nat × Nat)) : Prop where
  rep : ZoneRep r.mem z S xs n fs [] hs
  base : (r.mem.zone z).zoneFirstPage = first
  held : r.held = hs.map (shiftBlock first)
  orders : ∀ b ∈ hs, b.2 < MEMLEVEL
  apart : ∀ l, S l → (∀ k < MEMLEVEL, l ≠ .freeArea z k) → ∀ p ∈ xs l, ¬ (first ≤ p ∧ p < first + n)
  total : (r.mem.zone z).freePages + ((hs.map fun b => 2 ^ b.2).sum : Nat) =
    (r.mem.zone z).pagesReserved + n

section Invariant

variable {z : ZoneId} {first n : Nat} {r : ZoneRun} {S : ListId → Prop} {xs : ListId → List Nat}
  {fs : Nat → List Nat} {hs : List (Nat × Nat)}

theorem ZoneInv.zoneOk (h : ZoneInv z first n r S xs fs hs) : ZoneOk z first n r := by
  have htile := h.rep.tiling
  rw [List.nil_append] at htile
  refine ⟨fun k => (fs k).map (first + ·), ?_, ?_, ?_, ?_, ?_, ?_⟩
  · intro k hk
    rw [← h.base, ← h.rep.areas k hk]
    exact h.rep.lists.ring _ (h.rep.heads k hk)
  · rw [tagged_shiftBlock, h.held, ← List.map_append]
    exact htile.shift first
  · intro k hk p hp
    obtain ⟨i, hi, rfl⟩ := List.mem_map.1 hp
    rw [h.base, Nat.add_sub_cancel_left]
    exact htile.aligned (i, k) (List.mem_append_left _ (mem_tagged.2 ⟨hk, hi⟩))
  · intro k hk p hp
    obtain ⟨i, hi, rfl⟩ := List.mem_map.1 hp
    rw [← h.base]
    exact h.rep.free k hk i hi
  · intro k hk
    rw [h.rep.nrFree k hk, List.length_map]
  · -- the free blocks have the pages that the held ones leave
    have hsum : (∑ k ∈ Finset.range MEMLEVEL, (r.mem.zone z).nrFree k * 2 ^ k) =
        ((tagged MEMLEVEL fs).map fun b => 2 ^ b.2).sum := by
      rw [sum_tagged]
      refine Finset.sum_congr rfl fun k hk => ?_
      rw [h.rep.nrFree k (Finset.mem_range.1 hk)]
    have hall := htile.sum_sizes
    rw [List.map_append, List.sum_append] at hall
    have htotal := h.total
    rw [hsum]
    omega

/-- The fields of the zone that a call leaves alone. -/
theorem OnlyBlocks.pagesReserved {s s' : Mem} (h : OnlyBlocks s s' z n) :
    (s'.zone z).pagesReserved = (s.zone z).pagesReserved := by
  obtain ⟨fp, nr, hz⟩ := h.zone
  rw [hz]

theorem ZoneInv.rmqueue (h : ZoneInv z first n r S xs fs hs) {order : Nat} (ho : order < MEMLEVEL) :
    ∃ r', zoneStep z r (.rmqueue order) = .ok r' ∧
      ∃ xs' fs' hs', ZoneInv z first n r' S xs' fs' hs' := by
  rcases rmqueue_spec h.rep order with ⟨hnone, _⟩ | ⟨i, s', xs', fs', hsome, hrep, honly, hoff, hfp⟩
  · refine ⟨r, ?_, xs, fs, hs, h⟩
    simp only [zoneStep, hnone, bind, Except.bind]
    rfl
  · refine ⟨⟨s', ((r.mem.zone z).zoneFirstPage + i, order) :: r.held⟩, ?_, xs', fs',
      (i, order) :: hs, ?_⟩
    · simp only [zoneStep, hsome, bind, Except.bind]
      rfl
    · refine ⟨hrep, honly.first.trans h.base, ?_, ?_, ?_, ?_⟩
      · simp [h.held, h.base, shiftBlock]
      · intro b hb
        rcases List.mem_cons.1 hb with rfl | hb
        · exact ho
        · exact h.orders b hb
      · intro l hl harea
        rw [hoff l harea]
        exact h.apart l hl harea
      · have htotal := h.total
        rw [List.map_cons, List.sum_cons, honly.pagesReserved, hfp]
        push_cast at htotal ⊢
        omega

theorem ZoneInv.freePagesBulk (h : ZoneInv z first n r S xs fs hs) {page order : Nat}
    (hheld : (page, order) ∈ r.held) (hstop : MergeStops z n r (.freePagesBulk page order)) :
    ∃ r', zoneStep z r (.freePagesBulk page order) = .ok r' ∧
      ∃ xs' fs' hs', ZoneInv z first n r' S xs' fs' hs' := by
  -- the block is one of the held blocks of the representation
  rw [h.held] at hheld
  obtain ⟨⟨i, k⟩, hmem, heq⟩ := List.mem_map.1 hheld
  obtain ⟨rfl, rfl⟩ : first + i = page ∧ k = order := by simpa [shiftBlock] using heq
  have hin : i + 2 ^ k ≤ n :=
    h.rep.tiling.le (List.mem_append_right _ (List.mem_append_right _ hmem))
  rw [MergeStops, h.base, Nat.add_sub_cancel_left] at hstop
  obtain ⟨s', xs', fs', hok, hrep, honly, hoff, hfp⟩ :=
    freePagesBulk_spec h.rep hmem (h.orders _ hmem) (by
      intro l hl harea j hj hxs
      obtain ⟨_, hj'⟩ : i ≤ j ∧ j < i + 2 ^ k := mem_blockRange.1 hj
      rw [h.base] at hxs
      exact h.apart l hl harea _ hxs ⟨by omega, by omega⟩) hstop
  rw [h.base] at hok
  refine ⟨⟨s', r.held.erase (first + i, k)⟩, ?_, xs', fs', hs.erase (i, k), ?_⟩
  · simp only [zoneStep, hok, bind, Except.bind]
    rfl
  · refine ⟨hrep, honly.first.trans h.base, ?_, ?_, ?_, ?_⟩
    · rw [List.map_erase (shiftBlock_injective first), h.held]
      rfl
    · exact fun b hb => h.orders b (List.mem_of_mem_erase hb)
    · intro l hl harea
      rw [hoff l harea]
      exact h.apart l hl harea
    · have htotal := h.total
      have hsum : (hs.map fun b => 2 ^ b.2).sum =
          2 ^ k + ((hs.erase (i, k)).map fun b => 2 ^ b.2).sum := by
        rw [((List.perm_cons_erase hmem).map fun b : Nat × Nat => 2 ^ b.2).sum_eq,
          List.map_cons, List.sum_cons]
      rw [hsum] at htotal
      rw [honly.pagesReserved, hfp]
      push_cast at htotal ⊢
      omega

end Invariant

/-! ## §3 Whole runs -/

/-- Every step keeps the invariant. -/
theorem zoneStep_inv {z : ZoneId} {first n : Nat} {S : ListId → Prop} (r : ZoneRun) (o : ZoneOp)
    (h : ∃ xs fs hs, ZoneInv z first n r S xs fs hs) (ho : ZoneAllowed r o ∧ MergeStops z n r o) :
    ∃ r', zoneStep z r o = .ok r' ∧ ZoneOk z first n r' ∧
      ∃ xs fs hs, ZoneInv z first n r' S xs fs hs := by
  obtain ⟨xs, fs, hs, hinv⟩ := h
  have hstep : ∃ r', zoneStep z r o = .ok r' ∧ ∃ xs fs hs, ZoneInv z first n r' S xs fs hs := by
    cases o with
    | rmqueue order => exact hinv.rmqueue ho.1
    | freePagesBulk page order => exact hinv.freePagesBulk ho.1 ho.2
  obtain ⟨r', hok, xs', fs', hs', hinv'⟩ := hstep
  exact ⟨r', hok, hinv'.zoneOk, xs', fs', hs', hinv'⟩

/-- `boot_zone_init` establishes the invariant, with no block held. -/
theorem bootZoneInit_inv (s : Mem) (z : ZoneId) (reservedStart reservedSize zoneStart n : Nat)
    (hn : 0 < n → zoneStart / PGSIZE + n ≤ s.npagesNum)
    (hapart : RangesApart (reservedStart / PGSIZE) reservedSize (zoneStart / PGSIZE) n) :
    ∃ s', bootZoneInit s z reservedStart reservedSize zoneStart n = .ok s' ∧
      ∃ xs fs hs, ZoneInv z (zoneStart / PGSIZE) n ⟨s', []⟩ (ZoneHead z) xs fs hs := by
  have hnone : Lists s.links (fun _ => False) (fun _ => []) :=
    ⟨fun _ h => h.elim, fun _ _ h => h.elim⟩
  obtain ⟨s', xs, fs, hok, hrep, ⟨nr, hzone⟩, hres, hhot, hcold, _⟩ :=
    bootZoneInit_spec hnone (fun _ _ => id) reservedStart reservedSize zoneStart hn hapart
      (fun _ h => h.elim)
  refine ⟨s', hok, xs, fs, [], ?_, ?_, rfl, ?_, ?_, ?_⟩
  · have hS : (fun l => False ∨ ZoneHead z l) = ZoneHead z := by
      funext l
      exact false_or _
    rwa [hS] at hrep
  · rw [hzone]
  · intro b hb
    cases hb
  · -- the reserved pages lie outside the zone, and the page caches are empty
    rintro l (rfl | rfl | rfl | ⟨k, hk, rfl⟩) harea p hp ⟨hlo, hhi⟩
    · rw [hres, List.mem_reverse, List.mem_range'_1] at hp
      exact hapart p hp.1 (by omega) hlo hhi
    · rw [hhot] at hp
      cases hp
    · rw [hcold] at hp
      cases hp
    · exact harea k hk rfl
  · rw [hzone]
    simp

/-- **The buddy invariant**: take any zone that `boot_zone_init` builds on existing pages apart from
    the reserved ones, and any run of `__rmqueue` and of `__free_pages_bulk` on held blocks in which
    the merging after each release stops inside the zone and below order `MEMLEVEL`. Then no call
    leaves the `free_area` array, and after every call the free and the held blocks partition the
    zone, with all marks and counters right. -/
theorem zoneOk_of_stopsInside (s : Mem) (z : ZoneId) (reservedStart reservedSize zoneStart n : Nat)
    (hn : zoneStart / PGSIZE + n ≤ s.npagesNum)
    (hapart : RangesApart (reservedStart / PGSIZE) reservedSize (zoneStart / PGSIZE) n) :
    ∃ s', bootZoneInit s z reservedStart reservedSize zoneStart n = .ok s' ∧
      ZoneOk z (zoneStart / PGSIZE) n ⟨s', []⟩ ∧
      ∀ ops, Meets (zoneStep z) (fun r o => ZoneAllowed r o ∧ MergeStops z n r o) ⟨s', []⟩ ops →
        Along (zoneStep z) (fun _ _ r => ZoneOk z (zoneStart / PGSIZE) n r) ⟨s', []⟩ ops := by
  obtain ⟨s', hok, xs, fs, hs, hinv⟩ :=
    bootZoneInit_inv s z reservedStart reservedSize zoneStart n (fun _ => hn) hapart
  refine ⟨s', hok, hinv.zoneOk, fun ops hops => ?_⟩
  exact along_of_meets (fun r => ∃ xs fs hs, ZoneInv z _ n r (ZoneHead z) xs fs hs)
    (fun r o hr ho => zoneStep_inv r o hr ho) ⟨xs, fs, hs, hinv⟩ hops

instance decidableZoneAllowed (r : ZoneRun) : ∀ o : ZoneOp, Decidable (ZoneAllowed r o)
  | .rmqueue order => inferInstanceAs (Decidable (order < MEMLEVEL))
  | .freePagesBulk page order => inferInstanceAs (Decidable ((page, order) ∈ r.held))

instance decidableStopsInside (s : Mem) (z : ZoneId) (n i k : Nat) :
    Decidable (StopsInside s z n i k) :=
  inferInstanceAs (Decidable (∃ j < MEMLEVEL, k ≤ j ∧
    pageIsBuddy s ((s.zone z).zoneFirstPage + buddyStart i j) j = false ∧
    ∀ m < j, k ≤ m → buddyStart i m < n))

instance decidableMergeStops (z : ZoneId) (n : Nat) (r : ZoneRun) :
    ∀ o : ZoneOp, Decidable (MergeStops z n r o)
  | .rmqueue _ => inferInstanceAs (Decidable True)
  | .freePagesBulk page order => inferInstanceAs (Decidable
      (StopsInside r.mem z n (page - (r.mem.zone z).zoneFirstPage) order))

/-- The normal zone of a machine with 32 MB, as it is when the kernel boots. -/
def normalZone32MB : Except Fault Mem :=
  bootZoneInit (zeroMem 8192) .normal 0 0 (4096 * PGSIZE) 4096

/-- A page and a block are taken from the zone and released again, the page while one block of the
    highest order is in use. -/
theorem zoneOk_of_stopsInside_pages : ∃ s', normalZone32MB = .ok s' ∧
    Along (zoneStep .normal) (fun _ _ r => ZoneOk .normal 4096 4096 r) ⟨s', []⟩
      [.rmqueue 10, .rmqueue 0, .rmqueue 3, .freePagesBulk 6144 0, .freePagesBulk 6152 3] := by
  obtain ⟨s', hok, _, hruns⟩ := zoneOk_of_stopsInside (zeroMem 8192) .normal 0 0 (4096 * PGSIZE)
    4096 (by decide) (fun p _ h _ _ => absurd h (by omega))
  refine ⟨s', hok, hruns _ ?_⟩
  have hmeets : normalZone32MB.toOption.map (fun s => decide (Meets (zoneStep .normal)
      (fun r o => ZoneAllowed r o ∧ MergeStops .normal 4096 r o) ⟨s, []⟩
      [.rmqueue 10, .rmqueue 0, .rmqueue 3, .freePagesBulk 6144 0, .freePagesBulk 6152 3])) =
      some true := by decide +kernel
  unfold normalZone32MB at hmeets
  rw [hok] at hmeets
  exact of_decide_eq_true (Option.some.inj hmeets)

/-- Taking a block of the highest order and giving it back: its buddy is free, the loop merges the
    two and then indexes `free_area` with `MEMLEVEL`. -/
theorem topOrder_free_leaves_freeArea : ∃ s', normalZone32MB = .ok s' ∧
    Meets (zoneStep .normal) ZoneAllowed ⟨s', []⟩ [.rmqueue 10, .freePagesBulk 7168 10] ∧
    [ZoneOp.rmqueue 10, .freePagesBulk 7168 10].foldlM (zoneStep .normal) ⟨s', []⟩ =
      .error .freeArea ∧
    ¬ Along (zoneStep .normal) (fun _ _ r => ZoneOk .normal 4096 4096 r) ⟨s', []⟩
      [.rmqueue 10, .freePagesBulk 7168 10] := by
  have hval : normalZone32MB.toOption.map (fun s =>
      decide (Meets (zoneStep .normal) ZoneAllowed ⟨s, []⟩
        [.rmqueue 10, .freePagesBulk 7168 10]) &&
      match [ZoneOp.rmqueue 10, .freePagesBulk 7168 10].foldlM (zoneStep .normal) ⟨s, []⟩ with
      | .error e => decide (e = .freeArea)
      | .ok _ => false) = some true := by decide +kernel
  cases hboot : normalZone32MB with
  | error e =>
    rw [hboot] at hval
    cases hval
  | ok s' =>
    rw [hboot] at hval
    obtain ⟨hmeets, hfault⟩ := Bool.and_eq_true_iff.1 (Option.some.inj hval)
    have hrun : [ZoneOp.rmqueue 10, .freePagesBulk 7168 10].foldlM (zoneStep .normal) ⟨s', []⟩ =
        .error .freeArea := by
      split at hfault
      · rename_i e he
        rw [he, of_decide_eq_true hfault]
      · cases hfault
    refine ⟨s', rfl, of_decide_eq_true hmeets, hrun, fun h => ?_⟩
    have hsplit : Along (zoneStep .normal) (fun _ _ r => ZoneOk .normal 4096 4096 r) ⟨s', []⟩
      ([.rmqueue 10] ++ [.freePagesBulk 7168 10]) := h
    obtain ⟨_, r, hok, _⟩ := hsplit.last
    rw [List.singleton_append, hrun] at hok
    cases hok

end WeiOS.Buddy
