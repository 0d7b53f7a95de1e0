import Mathlib
import WeiOS.Lib.Run
import WeiOS.Lib.IntrusiveList
import WeiOS.Lib.Dyadic
import WeiOS.Mm.Buddy
import WeiOS.Mm.BuddyZone
import WeiOS.Mm.BuddyBoot
import WeiOS.Mm.ZoneMoves

/-!
# Page Frames Handed Out

`alloc_page` takes a page from the hot list of a zone, which is refilled from the buddy lists, or from
the reserved list. A frame is on one list, or held by one caller. `__free_page` breaks this: for
order 0 `__free_pages` calls `free_hot_page` and, with no return after it, puts the same page on the
hot list a second time.

## Main results
- `allocPage_spec`: an allocation returns a frame nobody holds, from any state in which the lists are
  in order.
- `held_nodup_of_no_alloc_after_free`: runs in which no allocation follows a release.
- `freed_page_handed_out_twice`: a run in which a frame is handed out twice.
-/

namespace WeiOS.Buddy

open WeiOS.Lib

/-! ## §1 Frames and lists -/

/-- The list heads of both zones. -/
def AnyHead (l : ListId) : Prop := ∃ z, ZoneHead z l

/-- Page `p` is one of the `size z` pages of zone `z`. -/
def InZone (first size : ZoneId → Nat) (z : ZoneId) (p : Nat) : Prop :=
  first z ≤ p ∧ p < first z + size z

/-- Page `p` is a block of its own outside the free blocks, when `hs` are these blocks. -/
def Taken (first : ZoneId → Nat) (hs : ZoneId → List (Nat × Nat)) (z : ZoneId) (p : Nat) : Prop :=
  ∃ i, (i, 0) ∈ hs z ∧ p = first z + i

/-- Every frame is at one place: in a free block, on a page cache, on the reserved list, or held. -/
structure FrameInv (first size : ZoneId → Nat) (s : Mem) (held : List Nat)
    (xs : ListId → List Nat) (fs : ZoneId → Nat → List Nat) (hs : ZoneId → List (Nat × Nat)) :
    Prop where
  rep : ∀ z, ZoneRep s z AnyHead xs (size z) (fs z) [] (hs z)
  base : ∀ z, (s.zone z).zoneFirstPage = first z
  apart : ∀ z z' p, InZone first size z p → InZone first size z' p → z = z'
  cached : ∀ z, ∀ c ≤ 1, ∀ p ∈ xs (.pageset z c), Taken first hs z p
  reserved : ∀ z, ∀ p ∈ xs (.reserved z), ∀ z', ¬ InZone first size z' p
  taken : ∀ p ∈ held, (∀ z, ¬ InZone first size z p) ∨ ∃ z, Taken first hs z p
  off : ∀ p ∈ held, ∀ l, AnyHead l → p ∉ xs l
  nodup : held.Nodup

/-- A zone is still represented when lists outside its free lists change, as long as none of them
    gets a page of a free block. -/
theorem ZoneRep.frame {s s' : Mem} {z : ZoneId} {S S' : ListId → Prop}
    {xs xs' : ListId → List Nat} {n : Nat} {fs : Nat → List Nat} {hs : List (Nat × Nat)}
    (h : ZoneRep s z S xs n fs [] hs) (hlists : Lists s'.links S' xs') (hS : ∀ l, S l → S' l)
    (harea : ∀ k < MEMLEVEL, xs' (.freeArea z k) = xs (.freeArea z k))
    (hout : ∀ l, S' l → (∀ k < MEMLEVEL, l ≠ .freeArea z k) → ∀ p ∈ xs' l, S l ∧ p ∈ xs l ∨
      ∀ b ∈ tagged MEMLEVEL fs, ∀ i ∈ blockRange b, p ≠ (s.zone z).zoneFirstPage + i)
    (hfirst : (s'.zone z).zoneFirstPage = (s.zone z).zoneFirstPage)
    (hnr : (s'.zone z).nrFree = (s.zone z).nrFree)
    (hmark : ∀ i < n, (s'.page ((s.zone z).zoneFirstPage + i)).pPrivate =
      (s.page ((s.zone z).zoneFirstPage + i)).pPrivate) :
    ZoneRep s' z S' xs' n fs [] hs := by
  have hlt : ∀ b ∈ tagged MEMLEVEL fs ++ ([] ++ hs), b.1 < n := by
    intro b hb
    have := h.tiling.le hb
    have := Nat.two_pow_pos b.2
    omega
  refine ⟨hlists, fun k hk => hS _ (h.heads k hk), ?_, ?_, h.tiling, ?_, ?_, ?_⟩
  · intro k hk
    rw [harea k hk, hfirst]
    exact h.areas k hk
  · intro l hl hla b hb i hi hmem
    rw [hfirst] at hmem
    rcases hout l hl hla _ hmem with ⟨hold, hmem'⟩ | hnew
    · exact h.outside l hold hla b hb i hi hmem'
    · rw [List.append_nil] at hb
      exact hnew b hb i hi rfl
  · intro k hk i hi
    rw [hfirst, hmark i (hlt (i, k) (List.mem_append_left _ (mem_tagged.2 ⟨hk, hi⟩)))]
    exact h.free k hk i hi
  · intro b hb
    rw [hfirst, hmark b.1 (hlt b (List.mem_append_right _ hb))]
    exact h.held b hb
  · intro k hk
    rw [hnr]
    exact h.nrFree k hk

/-- Held blocks and free blocks share no page. -/
theorem ZoneRep.held_not_free {s : Mem} {z : ZoneId} {S : ListId → Prop} {xs : ListId → List Nat}
    {n : Nat} {fs : Nat → List Nat} {hs : List (Nat × Nat)} (h : ZoneRep s z S xs n fs [] hs)
    {b b' : Nat × Nat} (hb : b ∈ tagged MEMLEVEL fs) (hb' : b' ∈ hs) {i : Nat}
    (hi : i ∈ blockRange b) : i ∉ blockRange b' := by
  have hnd := h.tiling.nodup
  rw [List.flatMap_append] at hnd
  intro hi'
  refine (List.disjoint_of_nodup_append hnd) (List.mem_flatMap.2 ⟨b, hb, hi⟩) ?_
  exact List.mem_flatMap.2 ⟨b', by simpa using hb', hi'⟩

section Frames

variable {first size : ZoneId → Nat} {s s' : Mem} {held : List Nat} {xs : ListId → List Nat}
  {fs : ZoneId → Nat → List Nat} {hs : ZoneId → List (Nat × Nat)} {z : ZoneId} {c p : Nat}

theorem anyHead_pageset (z : ZoneId) (hc : c ≤ 1) : AnyHead (.pageset z c) := by
  obtain rfl | rfl : c = 0 ∨ c = 1 := by omega
  · exact ⟨z, .inr (.inl rfl)⟩
  · exact ⟨z, .inr (.inr (.inl rfl))⟩

/-- The invariant reads the links, the marks and two fields of the zones. -/
theorem FrameInv.congr (h : FrameInv first size s held xs fs hs) (hlinks : s'.links = s.links)
    (hpage : ∀ p, (s'.page p).pPrivate = (s.page p).pPrivate)
    (hfirst : ∀ z, (s'.zone z).zoneFirstPage = (s.zone z).zoneFirstPage)
    (hnr : ∀ z, (s'.zone z).nrFree = (s.zone z).nrFree) : FrameInv first size s' held xs fs hs :=
  { h with
    rep := fun z => (h.rep z).congr hlinks hpage (hfirst z) (hnr z)
    base := fun z => (hfirst z).trans (h.base z) }

theorem FrameInv.setPageset (h : FrameInv first size s held xs fs hs) (z : ZoneId) (c : Nat)
    (f : Pageset → Pageset) :
    FrameInv first size (setZone s z (setPageset c f)) held xs fs hs := by
  refine h.congr rfl (fun _ => rfl) (fun z' => ?_) (fun z' => ?_)
  · by_cases hz : z' = z
    · subst hz
      simp [setZone, Buddy.setPageset]
    · simp [setZone, hz]
  · by_cases hz : z' = z
    · subst hz
      simp [setZone, Buddy.setPageset]
    · simp [setZone, hz]

/-- A page that is taken lies in its zone, in no free block. -/
theorem FrameInv.taken_inZone (h : FrameInv first size s held xs fs hs)
    (hp : Taken first hs z p) : InZone first size z p := by
  obtain ⟨i, hi, rfl⟩ := hp
  have hle : i + 2 ^ 0 ≤ size z :=
    (h.rep z).tiling.le (List.mem_append_right _ (List.mem_append_right _ hi))
  exact ⟨by omega, by omega⟩

theorem FrameInv.taken_not_free (h : FrameInv first size s held xs fs hs)
    (hp : Taken first hs z p) (z' : ZoneId) :
    ∀ b ∈ tagged MEMLEVEL (fs z'), ∀ i ∈ blockRange b, p ≠ (s.zone z').zoneFirstPage + i := by
  intro b hb i hi heq
  have hin := h.taken_inZone hp
  have hle : b.1 + 2 ^ b.2 ≤ size z' := (h.rep z').tiling.le (List.mem_append_left _ hb)
  obtain ⟨hbi, hib⟩ := mem_blockRange.1 hi
  rw [h.base] at heq
  -- the page is in one zone only, and there it is in one block only
  obtain rfl : z = z' := h.apart z z' p hin ⟨by omega, by omega⟩
  obtain ⟨j, hj, rfl⟩ := hp
  obtain rfl : j = i := by omega
  exact (h.rep z).held_not_free hb hj hi (start_mem_blockRange (j, 0))

theorem FrameInv.taken_mark (h : FrameInv first size s held xs fs hs) (hp : Taken first hs z p) :
    (s.page p).pPrivate = OUT_OF_BUDDY := by
  obtain ⟨i, hi, rfl⟩ := hp
  rw [← h.base z]
  exact (h.rep z).held (i, 0) hi

/-- `list_add` of a held page of a zone to a page cache of it. -/
theorem FrameInv.put (h : FrameInv first size s (p :: held) xs fs hs) (hp : Taken first hs z p)
    (hc : c ≤ 1) :
    ∃ L, listAdd s p (.pageset z c) = .ok { s with links := L } ∧
      FrameInv first size { s with links := L } held
        (Function.update xs (.pageset z c) (p :: xs (.pageset z c))) fs hs := by
  obtain ⟨L, hadd, hlists⟩ := (h.rep z).lists.add (anyHead_pageset z hc)
    (h.off p List.mem_cons_self)
  refine ⟨L, by simp [listAdd, hadd], ?_⟩
  obtain ⟨hnot, hnodup⟩ := List.nodup_cons.1 h.nodup
  constructor
  · intro z'
    refine (h.rep z').frame hlists (fun _ => id)
      (fun k _ => Function.update_of_ne (by simp) _ _) ?_ rfl rfl (fun _ _ => rfl)
    intro l hl _ q hq
    by_cases hlc : l = .pageset z c
    · subst hlc
      rw [Function.update_self] at hq
      rcases List.mem_cons.1 hq with rfl | hq
      · exact .inr (h.taken_not_free hp z')
      · exact .inl ⟨hl, hq⟩
    · rw [Function.update_of_ne hlc] at hq
      exact .inl ⟨hl, hq⟩
  · exact h.base
  · exact h.apart
  · intro z' c' hc' q hq
    by_cases hl : ListId.pageset z' c' = .pageset z c
    · obtain ⟨rfl, rfl⟩ := ListId.pageset.inj hl
      rw [Function.update_self] at hq
      rcases List.mem_cons.1 hq with rfl | hq
      · exact hp
      · exact h.cached z' c' hc' q hq
    · rw [Function.update_of_ne hl] at hq
      exact h.cached z' c' hc' q hq
  · intro z' q hq
    rw [Function.update_of_ne (by simp)] at hq
    exact h.reserved z' q hq
  · exact fun q hq => h.taken q (List.mem_cons_of_mem _ hq)
  · intro q hq l hl
    have hqp : q ≠ p := fun he => hnot (he ▸ hq)
    have hold := h.off q (List.mem_cons_of_mem _ hq) l hl
    by_cases hlc : l = .pageset z c
    · subst hlc
      rw [Function.update_self, List.mem_cons, not_or]
      exact ⟨hqp, hold⟩
    · rwa [Function.update_of_ne hlc]
  · exact hnodup

/-- `list_del` of the first page of a list that is no free list: the page is held then. -/
theorem FrameInv.take (h : FrameInv first size s held xs fs hs) {l : ListId} (hl : AnyHead l)
    (hnot : ∀ z, ∀ k < MEMLEVEL, l ≠ .freeArea z k)
    (hp : (∀ z, ¬ InZone first size z p) ∨ ∃ z, Taken first hs z p) {rest : List Nat}
    (hxs : xs l = p :: rest) :
    ∃ L, listEntry (s.links.next (.head l)) = .ok p ∧ listDel s p = .ok { s with links := L } ∧
      FrameInv first size { s with links := L } (p :: held) (Function.update xs l rest) fs hs := by
  have hxs' : xs l = [] ++ p :: rest := hxs
  obtain ⟨L, hdel, hlists⟩ := (h.rep .kern).lists.del hl hxs'
  rw [List.nil_append] at hlists
  have hsub : ∀ l', ∀ q ∈ Function.update xs l rest l', q ∈ xs l' := by
    intro l' q hq
    by_cases hll : l' = l
    · subst hll
      rw [Function.update_self] at hq
      rw [hxs]
      exact List.mem_cons_of_mem _ hq
    · rwa [Function.update_of_ne hll] at hq
  have hmem : p ∈ xs l := by simp [hxs]
  have hheld : p ∉ held := fun hq => h.off p hq l hl hmem
  refine ⟨L, ?_, by simp [listDel, hdel], ?_⟩
  · rw [(h.rep .kern).lists.next_head hl, hxs]
    rfl
  constructor
  · intro z'
    exact (h.rep z').frame hlists (fun _ => id)
      (fun k hk => Function.update_of_ne (hnot z' k hk).symm _ _)
      (fun l' hl' _ q hq => .inl ⟨hl', hsub l' q hq⟩) rfl rfl (fun _ _ => rfl)
  · exact h.base
  · exact h.apart
  · exact fun z' c' hc' q hq => h.cached z' c' hc' q (hsub _ q hq)
  · exact fun z' q hq => h.reserved z' q (hsub _ q hq)
  · intro q hq
    rcases List.mem_cons.1 hq with rfl | hq
    · exact hp
    · exact h.taken q hq
  · intro q hq l' hl' hmem'
    rcases List.mem_cons.1 hq with rfl | hq
    · -- the page was on this list only, and only once
      by_cases hll : l' = l
      · subst hll
        rw [Function.update_self] at hmem'
        have hnd := (h.rep .kern).lists.nodup hl
        rw [hxs] at hnd
        exact (List.nodup_cons.1 hnd).1 hmem'
      · exact (h.rep .kern).lists.disjoint l' l hl' hl hll q (hsub l' q hmem') hmem
    · exact h.off q hq l' hl' (hsub l' q hmem')
  · exact List.nodup_cons.2 ⟨hheld, h.nodup⟩

/-- A page that `__rmqueue` cuts out of the free blocks was on no other list. -/
theorem ZoneRep.new_block_off {S : ListId → Prop} {n : Nat} {fs fs' : Nat → List Nat}
    {bs : List (Nat × Nat)} {i k : Nat} {xs' : ListId → List Nat}
    (h : ZoneRep s z S xs n fs [] bs) (h' : ZoneRep s' z S xs' n fs' [] ((i, k) :: bs))
    (hfirst : (s'.zone z).zoneFirstPage = (s.zone z).zoneFirstPage) (hoff : SameOff z xs xs')
    {l : ListId} (hl : S l) : (s.zone z).zoneFirstPage + i ∉ xs' l := by
  have hle : i + 2 ^ k ≤ n := h'.tiling.le (b := (i, k)) (by simp)
  have hpos := Nat.two_pow_pos k
  by_cases harea : ∀ j < MEMLEVEL, l ≠ .freeArea z j
  · -- before, the page was in a free block, since the blocks that were held are still held
    rw [hoff l harea]
    obtain ⟨b, hb, hib⟩ := h.tiling.exists_mem (i := i) (by omega)
    rcases List.mem_append.1 hb with hb | hb
    · exact h.outside l hl harea b (List.mem_append_left _ hb) i hib
    · have htile : Tiling ((i, k) :: (tagged MEMLEVEL fs' ++ bs)) n :=
        h'.tiling.of_perm List.perm_middle.symm
      have hnb := htile.not_mem_tail (start_mem_blockRange (i, k))
        (List.mem_append_right (tagged MEMLEVEL fs') (by simpa using hb))
      exact absurd hib hnb
  · push Not at harea
    obtain ⟨j, hj, rfl⟩ := harea
    rw [h'.areas j hj, hfirst]
    intro hmem
    obtain ⟨i', hi', heq⟩ := List.mem_map.1 hmem
    have htile : Tiling ((i, k) :: (tagged MEMLEVEL fs' ++ bs)) n :=
      h'.tiling.of_perm List.perm_middle.symm
    have hne : i' ≠ i :=
      htile.start_ne (List.mem_append_left _ (mem_tagged.2 ⟨hj, hi'⟩))
    omega

/-- The pages on the free lists of a zone. -/
def listedPages (zn : Zone) : Nat := ∑ k ∈ Finset.range MEMLEVEL, zn.nrFree k * 2 ^ k

/-- Together with the blocks that are held they are all pages of the zone. -/
theorem FrameInv.listedPages_add (h : FrameInv first size s held xs fs hs) (z : ZoneId) :
    listedPages (s.zone z) + ((hs z).map fun b => 2 ^ b.2).sum = size z := by
  have hsum := (h.rep z).tiling.sum_sizes
  rw [List.map_append, List.sum_append, sum_tagged, List.nil_append] at hsum
  rw [← hsum, listedPages]
  congr 1
  exact Finset.sum_congr rfl fun k hk => by rw [(h.rep z).nrFree k (Finset.mem_range.1 hk)]

/-- When `__rmqueue` finds no page the free lists are empty. -/
theorem FrameInv.listedPages_of_none (h : FrameInv first size s held xs fs hs)
    (hnone : __rmqueue s z 0 = .ok (none, s)) : listedPages (s.zone z) = 0 := by
  rcases rmqueue_spec (h.rep z) 0 with ⟨_, hall⟩ | ⟨i, s', _, _, hsome, _⟩
  · refine Finset.sum_eq_zero fun k hk => ?_
    rw [(h.rep z).nrFree k (Finset.mem_range.1 hk), hall k (Finset.mem_range.1 hk) (Nat.zero_le k)]
    simp
  · rw [hnone] at hsome
    cases Except.ok.inj hsome

/-- `__rmqueue` of one page: it is held then. -/
theorem FrameInv.rmqueue (h : FrameInv first size s held xs fs hs) (z : ZoneId) :
    __rmqueue s z 0 = .ok (none, s) ∨
      ∃ p s' xs' fs' hs', __rmqueue s z 0 = .ok (some p, s') ∧
        FrameInv first size s' (p :: held) xs' fs' hs' ∧ Taken first hs' z p ∧
        OnlyBlocks s s' z (size z) ∧ SameOff z xs xs' ∧
        hs' z = (p - first z, 0) :: hs z := by
  rcases rmqueue_spec (h.rep z) 0 with ⟨hnone, _⟩ | ⟨i, s', xs', fz, hsome, hrep, honly, hoff, _⟩
  · exact .inl hnone
  right
  have hfirst := h.base z
  have hpoff : ∀ l, AnyHead l → first z + i ∉ xs' l := fun l hl => by
    rw [← hfirst]
    exact (h.rep z).new_block_off hrep honly.first hoff hl
  have hle : i + 2 ^ 0 ≤ size z := hrep.tiling.le (b := (i, 0)) (by simp)
  have hin : InZone first size z (first z + i) := ⟨by omega, by omega⟩
  have hmono : ∀ z' q, Taken first hs z' q →
      Taken first (Function.update hs z ((i, 0) :: hs z)) z' q := by
    rintro z' q ⟨j, hj, rfl⟩
    refine ⟨j, ?_, rfl⟩
    by_cases hz : z' = z
    · subst hz
      rw [Function.update_self]
      exact List.mem_cons_of_mem _ hj
    · rwa [Function.update_of_ne hz]
  rw [hfirst] at hsome
  refine ⟨first z + i, s', xs', Function.update fs z fz, Function.update hs z ((i, 0) :: hs z),
    hsome, ?_, ⟨i, by simp, rfl⟩, honly, hoff, by simp⟩
  have hbase : ∀ z', (s'.zone z').zoneFirstPage = (s.zone z').zoneFirstPage := by
    intro z'
    by_cases hz : z' = z
    · rw [hz, honly.first]
    · rw [honly.other z' hz]
  have hsame : ∀ l, (∀ k < MEMLEVEL, l ≠ .freeArea z k) → xs' l = xs l := hoff
  constructor
  · intro z'
    by_cases hz : z' = z
    · subst hz
      rw [Function.update_self, Function.update_self]
      exact hrep
    · -- the other zone: none of its pages is touched
      rw [Function.update_of_ne hz, Function.update_of_ne hz]
      refine (h.rep z').frame hrep.lists (fun _ => id) (fun k _ => hsame _ (by simp [hz])) ?_
        (hbase z') (by rw [honly.other z' hz]) ?_
      · intro l hl _ q hq
        by_cases harea : ∀ k < MEMLEVEL, l ≠ .freeArea z k
        · rw [hsame l harea] at hq
          exact .inl ⟨hl, hq⟩
        · push Not at harea
          obtain ⟨k, hk, rfl⟩ := harea
          right
          intro b hb j hj heq
          rw [hrep.areas k hk, honly.first, hfirst] at hq
          obtain ⟨i', hi', rfl⟩ := List.mem_map.1 hq
          have hle' : i' + 2 ^ k ≤ size z :=
            hrep.tiling.le (List.mem_append_left _ (mem_tagged.2 ⟨hk, hi'⟩))
          have hpos := Nat.two_pow_pos k
          have hleb := (h.rep z').tiling.le (List.mem_append_left _ hb)
          obtain ⟨_, hj'⟩ := mem_blockRange.1 hj
          rw [h.base z'] at heq
          exact hz (h.apart z' z (first z + i') ⟨by omega, by omega⟩ ⟨by omega, by omega⟩)
      · intro j hj
        refine honly.mark _ fun hin' => hz ?_
        rw [h.base z', hfirst] at hin'
        exact h.apart z' z (first z' + j) ⟨by omega, by omega⟩ hin'
  · exact fun z' => (hbase z').trans (h.base z')
  · exact h.apart
  · intro z' c' hc' q hq
    rw [hsame _ (by simp)] at hq
    exact hmono z' q (h.cached z' c' hc' q hq)
  · intro z' q hq
    rw [hsame _ (by simp)] at hq
    exact h.reserved z' q hq
  · intro q hq
    rcases List.mem_cons.1 hq with rfl | hq
    · exact .inr ⟨z, i, by simp, rfl⟩
    · rcases h.taken q hq with hout | ⟨z', hz'⟩
      · exact .inl hout
      · exact .inr ⟨z', hmono z' q hz'⟩
  · intro q hq l hl
    rcases List.mem_cons.1 hq with rfl | hq
    · exact hpoff l hl
    by_cases harea : ∀ k < MEMLEVEL, l ≠ .freeArea z k
    · rw [hsame l harea]
      exact h.off q hq l hl
    · -- a page on a free list of the zone is not held
      push Not at harea
      obtain ⟨k, hk, rfl⟩ := harea
      rw [hrep.areas k hk, honly.first, hfirst]
      intro hmem
      obtain ⟨i', hi', rfl⟩ := List.mem_map.1 hmem
      have hb : (i', k) ∈ tagged MEMLEVEL fz := mem_tagged.2 ⟨hk, hi'⟩
      have hle' : i' + 2 ^ k ≤ size z := hrep.tiling.le (List.mem_append_left _ hb)
      have hpos := Nat.two_pow_pos k
      have hin' : InZone first size z (first z + i') := ⟨by omega, by omega⟩
      rcases h.taken _ hq with hout | ⟨z', hz'⟩
      · exact hout z hin'
      · obtain rfl := h.apart z' z _ (h.taken_inZone hz') hin'
        obtain ⟨j, hj, heq⟩ := hz'
        obtain rfl : i' = j := by omega
        exact hrep.held_not_free hb (List.mem_cons_of_mem _ hj) (start_mem_blockRange (i', k))
          (start_mem_blockRange (i', 0))
  · refine List.nodup_cons.2 ⟨fun hq => ?_, h.nodup⟩
    rcases h.taken _ hq with hout | ⟨z', hz'⟩
    · exact hout z hin
    · obtain rfl := h.apart z' z _ (h.taken_inZone hz') hin
      obtain ⟨j, hj, heq⟩ := hz'
      have htile : Tiling ((i, 0) :: (tagged MEMLEVEL fz ++ hs z')) (size z') :=
        hrep.tiling.of_perm List.perm_middle.symm
      have hne : j ≠ i := htile.start_ne (List.mem_append_right (tagged MEMLEVEL fz) hj)
      omega

end Frames

/-! ## §2 Allocation -/

/-- Every frame is at one place, and the counters of the page caches and of the reserved pages are
    right. -/
structure AllocRep (first size : ZoneId → Nat) (s : Mem) (held : List Nat)
    (xs : ListId → List Nat) (fs : ZoneId → Nat → List Nat) (hs : ZoneId → List (Nat × Nat)) :
    Prop where
  frames : FrameInv first size s held xs fs hs
  count : ∀ z, ∀ c ≤ 1, ((s.zone z).pageset c).count = (xs (.pageset z c)).length
  reservedCount : (s.zone .kern).pagesReserved = ((xs (.reserved .kern)).length : Int)

/-- The pages `held` are held, and everything else is in order. -/
def AllocInv (first size : ZoneId → Nat) (s : Mem) (held : List Nat) : Prop :=
  ∃ xs fs hs, AllocRep first size s held xs fs hs

/-- The same with `R` between the counter of the reserved pages and the length of their list: releases
    let the two drift apart. -/
structure CacheRep (R : Int → Nat → Prop) (first size : ZoneId → Nat) (s : Mem) (held : List Nat)
    (xs : ListId → List Nat) (fs : ZoneId → Nat → List Nat) (hs : ZoneId → List (Nat × Nat)) :
    Prop where
  frames : FrameInv first size s held xs fs hs
  count : ∀ z, ∀ c ≤ 1, ((s.zone z).pageset c).count = (xs (.pageset z c)).length
  reservedCount : R (s.zone .kern).pagesReserved (xs (.reserved .kern)).length

def CacheInv (R : Int → Nat → Prop) (first size : ZoneId → Nat) (s : Mem) (held : List Nat) : Prop :=
  ∃ xs fs hs, CacheRep R first size s held xs fs hs

theorem allocInv_iff {first size : ZoneId → Nat} {s : Mem} {held : List Nat} :
    AllocInv first size s held ↔ CacheInv (fun r n => r = n) first size s held :=
  ⟨fun ⟨xs, fs, hs, h⟩ => ⟨xs, fs, hs, h.frames, h.count, h.reservedCount⟩,
    fun ⟨xs, fs, hs, h⟩ => ⟨xs, fs, hs, h.frames, h.count, h.reservedCount⟩⟩

/-- Two zones agree on what the invariant reads. -/
structure ZoneAgree (zn zn' : Zone) : Prop where
  first : zn'.zoneFirstPage = zn.zoneFirstPage
  nrFree : zn'.nrFree = zn.nrFree
  reserved : zn'.pagesReserved = zn.pagesReserved
  count : ∀ c, (zn'.pageset c).count = (zn.pageset c).count

section Alloc

variable {R : Int → Nat → Prop} {first size : ZoneId → Nat} {s s' : Mem} {held : List Nat}
  {z : ZoneId} {c : Nat}

theorem CacheInv.congr (h : CacheInv R first size s held) (hlinks : s'.links = s.links)
    (hpage : ∀ p, (s'.page p).pPrivate = (s.page p).pPrivate)
    (hzone : ∀ z, ZoneAgree (s.zone z) (s'.zone z)) : CacheInv R first size s' held := by
  obtain ⟨xs, fs, hs, hf, hcount, hres⟩ := h
  refine ⟨xs, fs, hs, hf.congr hlinks hpage (fun z => (hzone z).first) (fun z => (hzone z).nrFree),
    ?_, ?_⟩
  · intro z c hc
    rw [(hzone z).count, hcount z c hc]
  · rwa [(hzone .kern).reserved]

/-- A change to a zone that the invariant does not read. -/
theorem CacheInv.setZone (h : CacheInv R first size s held) (z : ZoneId) (f : Zone → Zone)
    (hf : ZoneAgree (s.zone z) (f (s.zone z))) : CacheInv R first size (setZone s z f) held := by
  refine h.congr rfl (fun _ => rfl) fun z' => ?_
  by_cases hz : z' = z
  · subst hz
    simpa [Buddy.setZone] using hf
  · simpa [Buddy.setZone, hz] using ⟨rfl, rfl, rfl, fun _ => rfl⟩

theorem CacheInv.mono {R' : Int → Nat → Prop} (h : CacheInv R first size s held)
    (hR : ∀ r n, R r n → R' r n) : CacheInv R' first size s held := by
  obtain ⟨xs, fs, hs, hf, hcount, hres⟩ := h
  exact ⟨xs, fs, hs, hf, hcount, hR _ _ hres⟩

theorem zoneAgree_batch (zn : Zone) (c batch : Nat) :
    ZoneAgree zn (setPageset c (fun p => { p with batch := batch }) zn) := by
  refine ⟨rfl, rfl, rfl, fun c' => ?_⟩
  by_cases hc : c' = c
  · subst hc
    simp [setPageset]
  · simp [setPageset, hc]

/-- Locking a zone succeeds or panics. -/
theorem lockZone_spec (h : CacheInv R first size s held) (z : ZoneId) :
    lockZone s z = .error .deadlock ∨
      ∃ s', lockZone s z = .ok s' ∧ CacheInv R first size s' held := by
  by_cases hl : (s.zone z).zoneLock = true
  · exact .inl (if_pos hl)
  · exact .inr ⟨_, if_neg hl, h.setZone z _ ⟨rfl, rfl, rfl, fun _ => rfl⟩⟩

theorem unlockZone_spec (h : CacheInv R first size s held) (z : ZoneId) :
    CacheInv R first size (unlockZone s z) held :=
  h.setZone z _ ⟨rfl, rfl, rfl, fun _ => rfl⟩

/-- One round of the refill loop: a page goes from the free blocks to the page cache. -/
theorem refill_step (h : CacheInv R first size s held) (z : ZoneId) (hc : c ≤ 1) :
    (__rmqueue s z 0 = .ok (none, s) ∧ listedPages (s.zone z) = 0) ∨
      ∃ p s₁ s', __rmqueue s z 0 = .ok (some p, s₁) ∧
        listAdd (setZone s₁ z (setPageset c fun p => { p with count := p.count + 1 })) p
          (.pageset z c) = .ok s' ∧
        CacheInv R first size s' held ∧
        ((s'.zone z).pageset c).count = ((s.zone z).pageset c).count + 1 ∧
        (s'.zone z).zoneLock = (s.zone z).zoneLock ∧
        listedPages (s.zone z) = listedPages (s'.zone z) + 1 := by
  obtain ⟨xs, fs, hs, hf, hcount, hres⟩ := h
  rcases hf.rmqueue z with hnone | ⟨p, s₁, xs₁, fs₁, hs₁, hsome, hf₁, hp, honly, hoff, hhs⟩
  · exact .inl ⟨hnone, hf.listedPages_of_none hnone⟩
  right
  have hpset : ∀ z', (s₁.zone z').pageset = (s.zone z').pageset ∧
      (s₁.zone z').pagesReserved = (s.zone z').pagesReserved := by
    intro z'
    by_cases hz : z' = z
    · subst hz
      obtain ⟨fp, nr, hzone⟩ := honly.zone
      rw [hzone]
      exact ⟨rfl, rfl⟩
    · rw [honly.other z' hz]
      exact ⟨rfl, rfl⟩
  have hf₂ : FrameInv first size
      (setZone s₁ z (setPageset c fun p => { p with count := p.count + 1 })) (p :: held) xs₁ fs₁ hs₁ :=
    hf₁.setPageset z c _
  obtain ⟨L, hadd, hf₃⟩ := hf₂.put hp hc
  refine ⟨p, s₁, _, hsome, hadd, ⟨_, _, _, hf₃, ?_, ?_⟩, ?_, ?_, ?_⟩
  · intro z' c' hc'
    have hold : ((s₁.zone z').pageset c').count = (xs₁ (.pageset z' c')).length := by
      rw [(hpset z').1, hcount z' c' hc', hoff _ (by simp)]
    by_cases hz : z' = z
    · subst hz
      by_cases hcc : c' = c
      · subst hcc
        simp [Buddy.setZone, setPageset, hold]
      · simp [Buddy.setZone, setPageset, hcc, hold]
    · simp [Buddy.setZone, hz, hold]
  · have hold : R (s₁.zone .kern).pagesReserved (xs₁ (.reserved .kern)).length := by
      rw [(hpset .kern).2, hoff _ (by simp)]
      exact hres
    by_cases hz : ZoneId.kern = z
    · subst hz
      simpa [Buddy.setZone, setPageset] using hold
    · simpa [Buddy.setZone, hz] using hold
  · simp [Buddy.setZone, setPageset, (hpset z).1]
  · obtain ⟨fp, nr, hzone⟩ := honly.zone
    simp [Buddy.setZone, setPageset, hzone]
  · -- one page more is held
    have hbefore := hf.listedPages_add z
    have hafter := hf₃.listedPages_add z
    have hone : 2 ^ (p - first z, 0).2 = 1 := rfl
    rw [hhs, List.map_cons, List.sum_cons, hone] at hafter
    omega

/-- **The refill loop** keeps the frames apart, and when it ends well it has put `n` pages on the
    page cache. -/
theorem refill_spec (hc : c ≤ 1) (n : Nat) (h : CacheInv R first size s held) :
    ∃ b s', refill z c n s = .ok (b, s') ∧ CacheInv R first size s' held ∧
      (b = true → ((s.zone z).pageset c).count + n ≤ ((s'.zone z).pageset c).count) ∧
      (s'.zone z).zoneLock = (s.zone z).zoneLock ∧ (b = true ↔ n ≤ listedPages (s.zone z)) := by
  induction n generalizing s with
  | zero => exact ⟨true, s, rfl, h, fun _ => Nat.le_refl _, rfl, by simp⟩
  | succ n ih =>
    rcases refill_step h z hc with ⟨hnone, hempty⟩ | ⟨p, s₁, s₂, hsome, hadd, h₂, hcount, hlock, hone⟩
    · refine ⟨false, s, ?_, h, fun hb => (by cases hb), rfl, by simp [hempty]⟩
      simp only [refill, hnone, bind, Except.bind]
      rfl
    · obtain ⟨b, s', hok, h', hle, hlock', hiff⟩ := ih h₂
      refine ⟨b, s', ?_, h', fun hb => ?_, hlock'.trans hlock, ?_⟩
      · simp only [refill, hsome, hadd, bind, Except.bind]
        exact hok
      · have := hle hb
        omega
      · rw [hiff, hone]
        omega

/-- The first page of a page cache that is not empty is handed out, a page of this zone. -/
theorem takeCached_spec (h : CacheInv R first size s held) (hc : c ≤ 1)
    (hpos : 0 < ((s.zone z).pageset c).count) :
    ∃ p s', takeCached s z c = .ok (some p, s') ∧ InZone first size z p ∧
      CacheInv R first size s' (p :: held) ∧ (s'.zone z).zoneLock = (s.zone z).zoneLock := by
  obtain ⟨xs, fs, hs, hf, hcount, hres⟩ := h
  obtain ⟨p, rest, hxs⟩ : ∃ p rest, xs (.pageset z c) = p :: rest := by
    rw [hcount z c hc] at hpos
    exact List.exists_cons_of_ne_nil (List.ne_nil_of_length_pos hpos)
  have hp : Taken first hs z p := hf.cached z c hc p (by simp [hxs])
  generalize hs₁ : Buddy.setZone s z (setPageset c fun p => { p with count := p.count - 1 }) = s₁
  have hf₁ : FrameInv first size s₁ held xs fs hs := by
    rw [← hs₁]
    exact hf.setPageset z c _
  obtain ⟨L, hentry, hdel, hf₂⟩ := hf₁.take (anyHead_pageset z hc) (by simp) (.inr ⟨z, hp⟩) hxs
  have hlinks : s₁.links = s.links := by
    rw [← hs₁]
    rfl
  rw [hlinks] at hentry
  refine ⟨p, setPrivate { s₁ with links := L } p OUT_OF_BUDDY, ?_, hf.taken_inZone hp, ⟨_, _, _,
    hf₂.congr rfl ?_ (fun _ => rfl) (fun _ => rfl), ?_, ?_⟩, ?_⟩
  · simp only [takeCached, hentry, hs₁, hdel, bind, Except.bind]
    rfl
  · -- the page carries this mark already
    intro q
    by_cases hq : q = p
    · subst hq
      simpa [setPrivate] using (hf₁.taken_mark hp).symm
    · simp [setPrivate, hq]
  · intro z' c' hc'
    have hold := hcount z' c' hc'
    rw [← hs₁]
    by_cases hzc : z' = z ∧ c' = c
    · obtain ⟨rfl, rfl⟩ := hzc
      simp [Buddy.setZone, setPrivate, Buddy.setPageset, hold, hxs]
    · rw [Function.update_of_ne (by simpa using hzc), ← hold]
      by_cases hz : z' = z
      · subst hz
        have hcc : c' ≠ c := fun he => hzc ⟨rfl, he⟩
        simp [Buddy.setZone, setPrivate, Buddy.setPageset, hcc]
      · simp [Buddy.setZone, setPrivate, hz]
  · rw [Function.update_of_ne (by simp), ← hs₁]
    by_cases hz : ZoneId.kern = z
    · subst hz
      simpa [Buddy.setZone, setPrivate, Buddy.setPageset] using hres
    · simpa [Buddy.setZone, setPrivate, hz] using hres
  · rw [← hs₁]
    simp [Buddy.setZone, setPrivate, Buddy.setPageset]

/-- A zone has a page on page cache `c`, or free blocks for a whole batch and a test that lets them go;
    for a block of order `k` it has a free block at least as large. -/
def Supplies (zn : Zone) (k c : Nat) : Prop :=
  if k = 0 then
    (zn.pageset c).low < (zn.pageset c).count ∨
      ¬ (zn.freePages - batchSize (zn.pageset c)) % 2 ^ 32 ≤ zn.pagesLow % 2 ^ 32 ∧
        batchSize (zn.pageset c) ≤ listedPages zn
  else ∃ j < MEMLEVEL, k ≤ j ∧ 0 < zn.nrFree j

/-- **`buffered_rmqueue`** for one page: it fails, or hands out a page of the zone that nobody holds. -/
theorem bufferedRmqueue_spec (h : CacheInv R first size s held) (z : ZoneId) (gfpFlags : Nat) :
    ∃ o s', bufferedRmqueue s z 0 gfpFlags = .ok (o, s') ∧ (∀ p ∈ o, InZone first size z p) ∧
      CacheInv R first size s' (o.toList ++ held) ∧ (s'.zone z).zoneLock = (s.zone z).zoneLock ∧
      (o.isSome = true ↔ Supplies (s.zone z) 0 (gfpFlags &&& GFP_COLD)) := by
  have hc : gfpFlags &&& GFP_COLD ≤ 1 := Nat.and_le_right
  unfold bufferedRmqueue
  rw [if_pos rfl, Supplies, if_pos rfl]
  generalize gfpFlags &&& GFP_COLD = c at hc
  dsimp only
  split
  · -- the cache has run low
    rename_i hcount
    rw [or_iff_right (not_lt.2 hcount)]
    have hbatch : (((s.zone z).pageset c).high - ((s.zone z).pageset c).low) / 2 + 1 =
        batchSize ((s.zone z).pageset c) := rfl
    rw [hbatch]
    have hpos : 0 < batchSize ((s.zone z).pageset c) := Nat.succ_pos _
    generalize hn : batchSize ((s.zone z).pageset c) = n at hpos ⊢
    have h₁ := h.setZone z (setPageset c fun p => { p with batch := n }) (zoneAgree_batch _ c _)
    have hlisted : listedPages ((Buddy.setZone s z (setPageset c fun p => { p with batch := n })).zone z) =
        listedPages (s.zone z) := by simp [Buddy.setZone, listedPages, setPageset]
    have hlock : ((Buddy.setZone s z (setPageset c fun p => { p with batch := n })).zone z).zoneLock =
        (s.zone z).zoneLock := by simp [Buddy.setZone, setPageset]
    have htest : ((Buddy.setZone s z (setPageset c fun p => { p with batch := n })).zone z).freePages =
          (s.zone z).freePages ∧
        ((Buddy.setZone s z (setPageset c fun p => { p with batch := n })).zone z).pagesLow =
          (s.zone z).pagesLow := by simp [Buddy.setZone, setPageset]
    rw [htest.1, htest.2]
    generalize Buddy.setZone s z (setPageset c fun p => { p with batch := n }) = s₁ at *
    split
    · rename_i hfail
      exact ⟨none, _, rfl, by simp, h₁, hlock, iff_of_false (by simp) fun hs => hs.1 hfail⟩
    · rename_i hpass
      obtain ⟨b, s₂, hok, h₂, hle, hlock₂, hiff⟩ := refill_spec (z := z) hc n h₁
      rw [hlisted] at hiff
      cases b with
      | false =>
        refine ⟨none, s₂, ?_, by simp, h₂, hlock₂.trans hlock, ?_⟩
        · simp only [hok, bind, Except.bind]
          rfl
        · exact iff_of_false (by simp) fun hs => Bool.false_ne_true (hiff.2 hs.2)
      | true =>
        have hpos : 0 < ((s₂.zone z).pageset c).count := by
          have := hle rfl
          omega
        have h₃ := h₂.setZone z (setPageset c fun p => { p with batch := 0 }) (zoneAgree_batch _ c _)
        obtain ⟨p, s₃, hok₃, hp, h₄, hlock₃⟩ := takeCached_spec (z := z) h₃ hc (by
          simpa [Buddy.setZone, setPageset] using hpos)
        refine ⟨some p, s₃, ?_, by simpa using hp, h₄, ?_, ?_⟩
        · simp only [hok, bind, Except.bind]
          exact hok₃
        · rw [hlock₃, ← hlock, ← hlock₂]
          simp [Buddy.setZone, setPageset]
        · exact iff_of_true rfl ⟨hpass, hiff.1 rfl⟩
  · rename_i hcount
    obtain ⟨p, s₁, hok, hp, h₁, hlock⟩ := takeCached_spec (z := z) h hc (by omega)
    exact ⟨some p, s₁, hok, by simpa using hp, h₁, hlock, by simp [not_le.1 hcount]⟩

/-- **`buffered_rmqueue`** for a block: it fails, or the zone has a block that is large enough. -/
theorem bufferedRmqueue_block (h : CacheInv R first size s held) (z : ZoneId) {k : Nat} (hk : k ≠ 0)
    (gfpFlags : Nat) (hpass : ¬ (s.zone z).freePages - (2 ^ k : Nat) ≤ (s.zone z).pagesLow) :
    ∃ o s', bufferedRmqueue s z k gfpFlags = .ok (o, s') ∧
      (s'.zone z).zoneLock = (s.zone z).zoneLock ∧
      (o.isSome = true ↔ Supplies (s.zone z) k (gfpFlags &&& GFP_COLD)) ∧
      (o = none → s' = s) := by
  obtain ⟨xs, fs, hs, hf, _, _⟩ := h
  unfold bufferedRmqueue
  rw [if_neg hk, if_neg hpass, Supplies, if_neg hk]
  rcases rmqueue_halved (hf.rep z) k with ⟨hnone, hall⟩ |
    ⟨d, i, rest, s', _, hlt, hfs, _, hsome, _, honly, _⟩
  · refine ⟨none, s, by simp only [hnone, bind, Except.bind]; rfl, rfl, ?_, fun _ => rfl⟩
    simp only [Option.isSome_none, Bool.false_eq_true, false_iff, not_exists, not_and, not_lt]
    intro j hj hkj
    rw [(hf.rep z).nrFree j hj, hall j hj hkj]
    simp
  · refine ⟨some ((s.zone z).zoneFirstPage + i), _, by simp only [hsome, bind, Except.bind]; rfl, ?_,
      ?_, fun ho => by cases ho⟩
    · obtain ⟨fp, nr, hzone⟩ := honly.zone
      simp [setPrivate, hzone]
    · simp only [Option.isSome_some, true_iff]
      refine ⟨k + d, hlt, Nat.le_add_right k d, ?_⟩
      rw [(hf.rep z).nrFree _ hlt, hfs]
      simp

/-- The result of an allocation: a panic on a lock, a sleep, or a return with the page held. -/
def AllocResult (first size : ZoneId → Nat) (held : List Nat)
    (r : Except Fault (Option Nat × Mem)) : Prop :=
  r = .error .deadlock ∨ r = .error .asleep ∨
    ∃ o s', r = .ok (o, s') ∧ AllocInv first size s' (o.toList ++ held)

theorem tryZone_spec (h : AllocInv first size s held) (z : ZoneId) (gfpFlags : Nat) :
    AllocResult first size held (tryZone s z 0 gfpFlags) := by
  unfold tryZone
  rcases lockZone_spec (allocInv_iff.1 h) z with hdead | ⟨s₁, hok, h₁⟩
  · exact .inl (by simp only [hdead, bind, Except.bind])
  right; right
  simp only [hok, bind, Except.bind]
  split
  · exact ⟨none, _, rfl, allocInv_iff.2 (unlockZone_spec h₁ z)⟩
  · obtain ⟨o, s₂, hok₂, _, h₂, _⟩ := bufferedRmqueue_spec h₁ z gfpFlags
    rw [hok₂]
    cases o with
    | none => exact ⟨none, s₂, rfl, allocInv_iff.2 h₂⟩
    | some p => exact ⟨some p, _, rfl, allocInv_iff.2 (unlockZone_spec h₂ z)⟩

theorem allocDma_spec (h : AllocInv first size s held) (gfpFlags : Nat) :
    AllocResult first size held (allocDma s 0 gfpFlags) := by
  unfold allocDma
  rcases lockZone_spec (allocInv_iff.1 h) .kern with hdead | ⟨s₁, hok, h₁⟩
  · exact .inl (by simp only [hdead, bind, Except.bind])
  right; right
  simp only [hok, bind, Except.bind]
  split
  · exact ⟨none, _, rfl, allocInv_iff.2 (unlockZone_spec h₁ .kern)⟩
  · obtain ⟨o, s₂, hok₂, _, h₂, _⟩ := bufferedRmqueue_spec h₁ .kern gfpFlags
    rw [hok₂]
    exact ⟨o, _, rfl, allocInv_iff.2 (unlockZone_spec h₂ .kern)⟩

/-- While the lists are in order, a page for `__GFP_DMA` is one of the kernel zone. -/
theorem allocDma_inZone (h : AllocInv first size s held) {gfpFlags p : Nat}
    (hok : allocDma s 0 gfpFlags = .ok (some p, s')) : InZone first size .kern p := by
  obtain ⟨s₁, hlock, hok⟩ := bind_eq_ok.1 hok
  have h₁ : AllocInv first size s₁ held := by
    rcases lockZone_spec (allocInv_iff.1 h) .kern with hdead | ⟨t, hlock', ht⟩
    · rw [hdead] at hlock
      cases hlock
    · obtain rfl : t = s₁ := Except.ok.inj (hlock'.symm.trans hlock)
      exact allocInv_iff.2 ht
  split at hok
  · cases hok
  · obtain ⟨o, s₂, hok₂, hin, _⟩ := bufferedRmqueue_spec (allocInv_iff.1 h₁) .kern gfpFlags
    rw [hok₂] at hok
    obtain ⟨rfl, _⟩ := Prod.mk.inj (Except.ok.inj hok)
    exact hin p rfl

/-- A reserved page: the list is as long as the counter says. -/
theorem allocIrq_spec (h : AllocInv first size s held) :
    AllocResult first size held (allocIrq s) := by
  unfold allocIrq
  rcases lockZone_spec (allocInv_iff.1 h) .kern with hdead | ⟨s₁, hok, h₁⟩
  · exact .inl (by simp only [hdead, bind, Except.bind])
  right; right
  simp only [hok, bind, Except.bind]
  split
  · rename_i hpos
    obtain ⟨xs, fs, hs, hf, hcount, hres⟩ := h₁
    obtain ⟨p, rest, hxs⟩ : ∃ p rest, xs (.reserved .kern) = p :: rest := by
      refine List.exists_cons_of_ne_nil (List.ne_nil_of_length_pos ?_)
      rw [hres] at hpos
      exact Int.natCast_pos.1 hpos
    have hp : ∀ z, ¬ InZone first size z p := hf.reserved .kern p (by simp [hxs])
    obtain ⟨L, hentry, hdel, hf₂⟩ := hf.take ⟨.kern, .inl rfl⟩ (by simp) (.inl hp) hxs
    rw [hentry]
    simp only [hdel]
    refine ⟨some p, _, rfl, _, _, _, hf₂.congr rfl (fun _ => rfl) ?_ ?_, ?_, ?_⟩
    · intro z
      cases z <;> simp [unlockZone, Buddy.setZone]
    · intro z
      cases z <;> simp [unlockZone, Buddy.setZone]
    · intro z c hc
      rw [Function.update_of_ne (by simp), ← hcount z c hc]
      cases z <;> simp [unlockZone, Buddy.setZone]
    · rw [Function.update_self]
      simp [unlockZone, Buddy.setZone, hres, hxs]
  · exact ⟨none, _, rfl, allocInv_iff.2 (unlockZone_spec h₁ .kern)⟩

/-- **`alloc_page`** never hands out a page that is held. -/
theorem allocPage_spec (h : AllocInv first size s held) (gfpFlags : Nat) :
    AllocResult first size held (allocPage s gfpFlags) := by
  unfold allocPage __allocPages
  rw [if_neg (by decide)]
  dsimp only
  split
  · exact allocDma_spec h _
  split
  · exact allocIrq_spec h
  generalize gfpFlags - (gfpFlags &&& GFP_COLD) = flags
  rcases tryZone_spec h .normal flags with hdead | hsleep | ⟨o, s₁, hok, h₁⟩
  · exact .inl (by simp only [hdead, bind, Except.bind])
  · exact .inr (.inl (by simp only [hsleep, bind, Except.bind]))
  simp only [hok, bind, Except.bind]
  cases o with
  | some p => exact .inr (.inr ⟨some p, s₁, rfl, h₁⟩)
  | none =>
    have h₁' : AllocInv first size s₁ held := h₁
    rcases tryZone_spec h₁' .kern flags with hdead | hsleep | ⟨o, s₂, hok₂, h₂⟩
    · exact .inl (by simp only [hdead])
    · exact .inr (.inl (by simp only [hsleep]))
    simp only [hok₂]
    cases o with
    | some p => exact .inr (.inr ⟨some p, s₂, rfl, h₂⟩)
    | none =>
      dsimp only
      split
      · -- a caller that waits locks the normal zone again and sleeps
        rcases lockZone_spec (allocInv_iff.1 h₂) .normal with hdead | ⟨s₃, hok₃, _⟩
        · exact .inl (by simp only [hdead])
        · exact .inr (.inl (by simp only [hok₃]))
      · exact .inr (.inr ⟨none, s₂, rfl, h₂⟩)

end Alloc

/-! ## §3 Runs -/

/-- Both zones are booted, the kernel zone with the reserved pages, as in `buddy_init` but with any
    page ranges. -/
def bootZones (s : Mem) (reservedStart reservedSize kernStart kernSize normalStart normalSize : Nat) :
    Except Fault Mem := do
  let s ← bootZoneInit s .kern reservedStart reservedSize kernStart kernSize
  bootZoneInit s .normal 0 0 normalStart normalSize

/-- One value for each zone. -/
def perZone (a b : Nat) : ZoneId → Nat
  | .kern => a
  | .normal => b

/-- The lists of a zone that has just been booted hold its reserved pages and pages of its range. -/
theorem ZoneRep.mem_booted {s : Mem} {z : ZoneId} {S : ListId → Prop} {xs : ListId → List Nat} {n : Nat}
    {fs : Nat → List Nat} (hrep : ZoneRep s z S xs n fs [] []) (hhot : xs (.pageset z 0) = [])
    (hcold : xs (.pageset z 1) = []) {l : ListId} (hl : ZoneHead z l) {p : Nat} (hp : p ∈ xs l) :
    p ∈ xs (.reserved z) ∨ (s.zone z).zoneFirstPage ≤ p ∧ p < (s.zone z).zoneFirstPage + n := by
  rcases hl with rfl | rfl | rfl | ⟨k, hk, rfl⟩
  · exact .inl hp
  · rw [hhot] at hp
    cases hp
  · rw [hcold] at hp
    cases hp
  · rw [hrep.areas k hk] at hp
    obtain ⟨i, hi, rfl⟩ := List.mem_map.1 hp
    have hle : i + 2 ^ k ≤ n := hrep.tiling.le (List.mem_append_left _ (mem_tagged.2 ⟨hk, hi⟩))
    have := Nat.two_pow_pos k
    exact .inr ⟨by omega, by omega⟩

/-- After booting two zones on pages of their own, no page is held. -/
theorem bootZones_inv (s : Mem)
    (reservedStart reservedSize kernStart kernSize normalStart normalSize : Nat)
    (hres : reservedStart / PGSIZE + reservedSize ≤ s.npagesNum)
    (hkern : kernStart / PGSIZE + kernSize ≤ s.npagesNum)
    (hnormal : normalStart / PGSIZE + normalSize ≤ s.npagesNum)
    (hrk : RangesApart (reservedStart / PGSIZE) reservedSize (kernStart / PGSIZE) kernSize)
    (hrn : RangesApart (reservedStart / PGSIZE) reservedSize (normalStart / PGSIZE) normalSize)
    (hkn : RangesApart (kernStart / PGSIZE) kernSize (normalStart / PGSIZE) normalSize) :
    ∃ s', bootZones s reservedStart reservedSize kernStart kernSize normalStart normalSize =
        .ok s' ∧
      AllocInv (perZone (kernStart / PGSIZE) (normalStart / PGSIZE)) (perZone kernSize normalSize)
        s' [] := by
  have hnone : Lists s.links (fun _ => False) (fun _ => []) :=
    ⟨fun _ h => h.elim, fun _ _ h => h.elim⟩
  obtain ⟨s₁, xs₁, fs₁, hok₁, hrep₁, ⟨nr₁, hzone₁⟩, hres₁, hhot₁, hcold₁, _, hnp₁, _⟩ :=
    bootZoneInit_spec hnone (z := .kern) (fun _ _ => id) reservedStart reservedSize kernStart (fun _ => hkern) hrk
      (fun _ h => h.elim)
  rw [Nat.min_eq_left (by omega)] at hres₁
  have hfirst₁ : (s₁.zone .kern).zoneFirstPage = kernStart / PGSIZE := by rw [hzone₁]
  -- what the lists of the kernel zone hold
  have hmem₁ : ∀ l, ZoneHead .kern l → ∀ p ∈ xs₁ l,
      (reservedStart / PGSIZE ≤ p ∧ p < reservedStart / PGSIZE + reservedSize) ∨
      (kernStart / PGSIZE ≤ p ∧ p < kernStart / PGSIZE + kernSize) := by
    intro l hl p hp
    have hin := hrep₁.mem_booted hhot₁ hcold₁ hl hp
    rwa [hres₁, List.mem_reverse, List.mem_range'_1, hfirst₁] at hin
  obtain ⟨s₂, xs₂, fs₂, hok₂, hrep₂, ⟨nr₂, hzone₂⟩, hres₂, hhot₂, hcold₂, hsame₂, _, hother₂, hpage₂⟩ :=
    bootZoneInit_spec hrep₁.lists (z := .normal) (by
      rintro l hn (hf | hk)
      · exact hf
      · rcases hn with rfl | rfl | rfl | ⟨k, _, rfl⟩ <;> simp [ZoneHead] at hk) 0 0 normalStart
      (n := normalSize) (by omega) (fun p _ h _ _ => by omega) (by
      rintro l (hf | hl) p hp
      · exact hf.elim
      · refine ⟨fun hin => ?_, by omega⟩
        rcases hmem₁ l hl p hp with h | h
        · exact hrn p h.1 h.2 hin.1 hin.2
        · exact hkn p h.1 h.2 hin.1 hin.2)
  have hkz : s₂.zone .kern = s₁.zone .kern := hother₂ .kern (by decide)
  have hany : (fun l => (False ∨ ZoneHead .kern l) ∨ ZoneHead .normal l) = AnyHead := by
    funext l
    refine propext ⟨?_, ?_⟩
    · rintro ((hf | hk) | hn)
      · exact hf.elim
      · exact ⟨.kern, hk⟩
      · exact ⟨.normal, hn⟩
    · rintro ⟨z, hz⟩
      cases z with
      | kern => exact .inl (.inr hz)
      | normal => exact .inr hz
  rw [hany] at hrep₂
  have hfirst₂ : (s₂.zone .normal).zoneFirstPage = normalStart / PGSIZE := by rw [hzone₂]
  have hsame : ∀ l, ZoneHead .kern l → xs₂ l = xs₁ l := fun l hl => hsame₂ l (.inr hl)
  have hres₂' : xs₂ (.reserved .normal) = [] := by simpa using hres₂
  -- the kernel zone has not changed
  have hrepk : ZoneRep s₂ .kern AnyHead xs₂ kernSize fs₁ [] [] := by
    refine hrep₁.frame hrep₂.lists ?_ ?_ ?_ (by rw [hkz]) (by rw [hkz]) ?_
    · rintro l (hf | hk)
      · exact hf.elim
      · exact ⟨.kern, hk⟩
    · exact fun k hk => hsame _ (.inr (.inr (.inr ⟨k, hk, rfl⟩)))
    · rintro l ⟨z, hz⟩ _ p hp
      cases z with
      | kern =>
        rw [hsame l hz] at hp
        exact .inl ⟨.inr hz, hp⟩
      | normal =>
        right
        intro b hb i hi heq
        have hle := hrep₁.tiling.le (List.mem_append_left _ hb)
        obtain ⟨_, hi'⟩ := mem_blockRange.1 hi
        rw [hfirst₁] at heq
        rcases hrep₂.mem_booted hhot₂ hcold₂ hz hp with hin | ⟨hlo, hhi⟩
        · rw [hres₂'] at hin
          cases hin
        · rw [hfirst₂] at hlo hhi
          exact hkn p (by omega) (by omega) hlo hhi
    · intro i hi
      rw [hfirst₁, hpage₂ _ (fun hin => hkn (kernStart / PGSIZE + i) (by omega) (by omega) hin.1 hin.2)
        (by omega)]
  have hcaches : ∀ z, ∀ c ≤ 1, xs₂ (.pageset z c) = [] := by
    intro z c hc
    obtain rfl | rfl : c = 0 ∨ c = 1 := by omega
    · cases z with
      | kern => rw [hsame _ (.inr (.inl rfl)), hhot₁]
      | normal => exact hhot₂
    · cases z with
      | kern => rw [hsame _ (.inr (.inr (.inl rfl))), hcold₁]
      | normal => exact hcold₂
  have hreslist : xs₂ (.reserved .kern) =
      (List.range' (reservedStart / PGSIZE) reservedSize).reverse := by
    rw [hsame _ (.inl rfl), hres₁]
  refine ⟨s₂, ?_, xs₂, fun | .kern => fs₁ | .normal => fs₂, fun _ => [], ⟨?_, ?_, ?_, ?_, ?_, ?_, ?_,
    List.nodup_nil⟩, ?_, ?_⟩
  · simp only [bootZones, hok₁, bind, Except.bind]
    exact hok₂
  · intro z
    cases z with
    | kern => exact hrepk
    | normal => exact hrep₂
  · intro z
    cases z with
    | kern => exact (congrArg Zone.zoneFirstPage hkz).trans hfirst₁
    | normal => exact hfirst₂
  · intro z z' p hz hz'
    cases z <;> cases z'
    · rfl
    · exact (hkn p hz.1 hz.2 hz'.1 hz'.2).elim
    · exact (hkn p hz'.1 hz'.2 hz.1 hz.2).elim
    · rfl
  · intro z c hc p hp
    rw [hcaches z c hc] at hp
    cases hp
  · intro z p hp z' hin
    cases z with
    | normal =>
      rw [hres₂'] at hp
      cases hp
    | kern =>
      rw [hreslist, List.mem_reverse, List.mem_range'_1] at hp
      cases z' with
      | kern => exact hrk p hp.1 hp.2 hin.1 hin.2
      | normal => exact hrn p hp.1 hp.2 hin.1 hin.2
  · intro p hp
    cases hp
  · intro p hp
    cases hp
  · intro z c hc
    rw [hcaches z c hc]
    cases z with
    | kern =>
      rw [hkz, hzone₁]
      rfl
    | normal =>
      rw [hzone₂]
      rfl
  · rw [hkz, hzone₁, hreslist]
    simp

/-- The memory, and the pages that callers of `alloc_page` hold. -/
structure PageRun where
  mem : Mem
  held : List Nat

/-- The calls. -/
inductive PageOp where
  | allocPage (gfpFlags : Nat)
  | freePage (page : Nat)

/-- One call. -/
def pageStep (r : PageRun) : PageOp → Except Fault PageRun
  | .allocPage gfpFlags => do
    let (page, s) ← allocPage r.mem gfpFlags
    pure ⟨s, page.toList ++ r.held⟩
  | .freePage page => do
    let s ← __freePage r.mem page
    pure ⟨s, r.held.erase page⟩

/-- Only held pages that are not reserved are released. -/
def PageAllowed (r : PageRun) : PageOp → Prop
  | .allocPage _ => True
  | .freePage page => page ∈ r.held ∧ (r.mem.page page).flag &&& RESERVED_PAGE = 0

def PageOp.isFree : PageOp → Bool
  | .allocPage _ => false
  | .freePage _ => true

/-- No page is allocated after a page has been released. -/
def NoAllocAfterFree (ops : List PageOp) : Prop :=
  ops.Pairwise fun o o' => o.isFree = true → o'.isFree = true

/-- Releases never make a page held twice. -/
theorem frees_nodup {r r' : PageRun} {ops : List PageOp} (hops : ∀ o ∈ ops, o.isFree = true)
    (hr : r.held.Nodup) (hrun : ops.foldlM pageStep r = .ok r') : r'.held.Nodup := by
  induction ops generalizing r with
  | nil =>
    obtain rfl := Except.ok.inj hrun
    exact hr
  | cons o ops ih =>
    cases o with
    | allocPage gfpFlags => cases hops _ List.mem_cons_self
    | freePage page =>
      simp only [List.foldlM_cons, pageStep, bind, Except.bind] at hrun
      cases hfree : __freePage r.mem page with
      | error e =>
        rw [hfree] at hrun
        cases hrun
      | ok s =>
        rw [hfree] at hrun
        exact ih (fun o ho => hops o (List.mem_cons_of_mem _ ho)) (hr.erase page) hrun

/-- Runs that allocate first and release afterwards. -/
theorem run_nodup {first size : ZoneId → Nat} {r r' : PageRun} {ops : List PageOp}
    (hops : NoAllocAfterFree ops) (hr : AllocInv first size r.mem r.held)
    (hrun : ops.foldlM pageStep r = .ok r') : r'.held.Nodup := by
  induction ops generalizing r with
  | nil =>
    obtain rfl := Except.ok.inj hrun
    obtain ⟨_, _, _, hrep⟩ := hr
    exact hrep.frames.nodup
  | cons o ops ih =>
    obtain ⟨hfirst, hrest⟩ := List.pairwise_cons.1 hops
    cases o with
    | allocPage gfpFlags =>
      simp only [List.foldlM_cons, pageStep, bind, Except.bind] at hrun
      rcases allocPage_spec hr gfpFlags with hdead | hsleep | ⟨o, s, hok, hinv⟩
      · rw [hdead] at hrun
        cases hrun
      · rw [hsleep] at hrun
        cases hrun
      · rw [hok] at hrun
        exact ih (r := ⟨s, o.toList ++ r.held⟩) hrest hinv hrun
    | freePage page =>
      -- from here on there are releases only
      obtain ⟨_, _, _, hrep⟩ := hr
      refine frees_nodup (fun o ho => ?_) hrep.frames.nodup hrun
      rcases List.mem_cons.1 ho with rfl | ho
      · rfl
      · exact hfirst o ho rfl

/-- **No frame is handed out twice as long as none comes back**: boot two zones of any size, on
    existing pages apart from each other and from the reserved ones, and run any sequence of
    `alloc_page` and `__free_page` in which no allocation follows a release. In every state reached
    the held pages are distinct. -/
theorem held_nodup_of_no_alloc_after_free (s : Mem)
    (reservedStart reservedSize kernStart kernSize normalStart normalSize : Nat)
    (hres : reservedStart / PGSIZE + reservedSize ≤ s.npagesNum)
    (hkern : kernStart / PGSIZE + kernSize ≤ s.npagesNum)
    (hnormal : normalStart / PGSIZE + normalSize ≤ s.npagesNum)
    (hrk : RangesApart (reservedStart / PGSIZE) reservedSize (kernStart / PGSIZE) kernSize)
    (hrn : RangesApart (reservedStart / PGSIZE) reservedSize (normalStart / PGSIZE) normalSize)
    (hkn : RangesApart (kernStart / PGSIZE) kernSize (normalStart / PGSIZE) normalSize) :
    ∃ s', bootZones s reservedStart reservedSize kernStart kernSize normalStart normalSize =
        .ok s' ∧
      ∀ ops, NoAllocAfterFree ops → ∀ r, ops.foldlM pageStep ⟨s', []⟩ = .ok r → r.held.Nodup := by
  obtain ⟨s', hok, hinv⟩ := bootZones_inv s reservedStart reservedSize kernStart kernSize
    normalStart normalSize hres hkern hnormal hrk hrn hkn
  exact ⟨s', hok, fun ops hops r hrun => run_nodup hops hinv hrun⟩

instance decidablePageAllowed (r : PageRun) : ∀ o : PageOp, Decidable (PageAllowed r o)
  | .allocPage _ => inferInstanceAs (Decidable True)
  | .freePage page => inferInstanceAs (Decidable
      (page ∈ r.held ∧ (r.mem.page page).flag &&& RESERVED_PAGE = 0))

/-- A kernel zone of six pages and two reserved pages: three pages are taken, one of them reserved,
    and one comes back. -/
theorem held_nodup_of_no_alloc_after_free_small :
    ∃ s' r, bootZones (zeroMem 16) (14 * PGSIZE) 2 (8 * PGSIZE) 6 (16 * PGSIZE) 0 = .ok s' ∧
      [.allocPage GFP_DMA, .allocPage GFP_IRQ, .allocPage GFP_DMA, .allocPage GFP_DMA,
        .freePage 10].foldlM pageStep ⟨s', []⟩ = .ok r ∧ r.held = [11, 15] ∧ r.held.Nodup := by
  obtain ⟨s', hok, hruns⟩ := held_nodup_of_no_alloc_after_free (zeroMem 16) (14 * PGSIZE) 2
    (8 * PGSIZE) 6 (16 * PGSIZE) 0 (by decide) (by decide) (by decide)
    (fun p h1 _ _ h4 => by simp [PGSIZE] at h1 h4; omega)
    (fun p _ _ h3 h4 => by omega) (fun p _ _ h3 h4 => by omega)
  have hval : (bootZones (zeroMem 16) (14 * PGSIZE) 2 (8 * PGSIZE) 6 (16 * PGSIZE) 0).toOption.map
      (fun s => ([.allocPage GFP_DMA, .allocPage GFP_IRQ, .allocPage GFP_DMA, .allocPage GFP_DMA,
        .freePage 10].foldlM pageStep ⟨s, []⟩).toOption.map PageRun.held) =
      some (some [11, 15]) := by decide +kernel
  rw [hok] at hval
  obtain ⟨r, hr, hheld⟩ := Option.map_eq_some_iff.1 (Option.some.inj hval)
  have hrun := eq_ok_of_toOption hr
  refine ⟨s', r, hok, hrun, hheld, hruns _ ?_ r hrun⟩
  simp [NoAllocAfterFree, PageOp.isFree]

/-- A kernel zone of six pages from page 8 on, and an empty normal zone. -/
def sixPages : Except Fault Mem := bootZones (zeroMem 14) 0 0 (8 * PGSIZE) 6 (14 * PGSIZE) 0

/-- Pages 11, 10, 9 and 8 are taken, after one attempt that only fills the hot list; then pages come
    back and are taken again. -/
def recycle : List PageOp :=
  [.allocPage GFP_DMA, .allocPage GFP_DMA, .allocPage GFP_DMA, .allocPage GFP_DMA,
    .allocPage GFP_DMA, .freePage 8, .allocPage GFP_DMA, .freePage 10, .allocPage GFP_DMA,
    .freePage 9, .freePage 10, .freePage 11, .allocPage GFP_DMA, .allocPage GFP_DMA]

/-- Every call is allowed and returns, and page 8 is handed out while it is still held. -/
theorem freed_page_handed_out_twice :
    ∃ s' r, sixPages = .ok s' ∧ Meets pageStep PageAllowed ⟨s', []⟩ recycle ∧
      recycle.foldlM pageStep ⟨s', []⟩ = .ok r ∧ r.held = [8, 11, 8] ∧ ¬ r.held.Nodup := by
  have hval : sixPages.toOption.map (fun s =>
      (decide (Meets pageStep PageAllowed ⟨s, []⟩ recycle),
        (recycle.foldlM pageStep ⟨s, []⟩).toOption.map PageRun.held)) =
      some (true, some [8, 11, 8]) := by decide +kernel
  cases hboot : sixPages with
  | error e =>
    rw [hboot] at hval
    cases hval
  | ok s' =>
    rw [hboot] at hval
    obtain ⟨hmeets, hrun⟩ := Prod.mk.inj (Option.some.inj hval)
    obtain ⟨r, hr, hheld⟩ := Option.map_eq_some_iff.1 hrun
    refine ⟨s', r, rfl, of_decide_eq_true hmeets, eq_ok_of_toOption hr, hheld, ?_⟩
    rw [hheld]
    decide

end WeiOS.Buddy
