import Mathlib
import WeiOS.Lib.IntrusiveList
import WeiOS.Lib.Dyadic
import WeiOS.Mm.Buddy

/-!
# The Blocks of a Zone

A zone of the buddy allocator represents a tiling of its pages: the free blocks, one list per order,
and the blocks that are held. `ZoneRep` ties the raw list pointers, the marks in the page descriptors
and the counters to such a tiling; taking a block off a free list, splitting it, merging it with its
buddy and putting it back are one lemma each.

The merge loop of `__free_pages_bulk` goes up to order `MEMLEVEL`, which is no index of `free_area`,
and at the end of a zone it looks at the descriptors of pages outside.

## Main results
- `rmqueue_spec`, `freePagesBulk_spec`: the two operations on the tiling, the second one under the
  condition that the merging stops below order `MEMLEVEL` and inside the zone.
-/

namespace WeiOS.Buddy

open WeiOS.Lib

/-! ## §1 Representation -/

/-- Zone `z` has the free blocks `fs` (start, relative to the first page, by order), the blocks `ts`
    on their way between lists, and the held blocks `hs`; together they tile its `n` pages. `xs` are
    the lists of the heads `S`. -/
structure ZoneRep (s : Mem) (z : ZoneId) (S : ListId → Prop) (xs : ListId → List Nat) (n : Nat)
    (fs : Nat → List Nat) (ts hs : List (Nat × Nat)) : Prop where
  lists : Lists s.links S xs
  heads : ∀ k < MEMLEVEL, S (.freeArea z k)
  areas : ∀ k < MEMLEVEL, xs (.freeArea z k) = (fs k).map ((s.zone z).zoneFirstPage + ·)
  outside : ∀ l, S l → (∀ k < MEMLEVEL, l ≠ .freeArea z k) →
    ∀ b ∈ tagged MEMLEVEL fs ++ ts, ∀ i ∈ blockRange b, (s.zone z).zoneFirstPage + i ∉ xs l
  tiling : Tiling (tagged MEMLEVEL fs ++ (ts ++ hs)) n
  free : ∀ k < MEMLEVEL, ∀ i ∈ fs k, (s.page ((s.zone z).zoneFirstPage + i)).pPrivate = k
  held : ∀ b ∈ hs, (s.page ((s.zone z).zoneFirstPage + b.1)).pPrivate = OUT_OF_BUDDY
  nrFree : ∀ k < MEMLEVEL, (s.zone z).nrFree k = (fs k).length

section Rep

variable {s s' : Mem} {z : ZoneId} {S : ListId → Prop} {xs : ListId → List Nat} {n : Nat}
  {fs : Nat → List Nat} {ts hs : List (Nat × Nat)} {i k : Nat}

/-- The representation reads the links, the marks, and two fields of the zone. -/
theorem ZoneRep.congr (h : ZoneRep s z S xs n fs ts hs) (hlinks : s'.links = s.links)
    (hpage : ∀ p, (s'.page p).pPrivate = (s.page p).pPrivate)
    (hfirst : (s'.zone z).zoneFirstPage = (s.zone z).zoneFirstPage)
    (hnr : (s'.zone z).nrFree = (s.zone z).nrFree) : ZoneRep s' z S xs n fs ts hs where
  lists := hlinks ▸ h.lists
  heads := h.heads
  areas := hfirst ▸ h.areas
  outside := hfirst ▸ h.outside
  tiling := h.tiling
  free := fun k hk i hi => by rw [hpage, hfirst]; exact h.free k hk i hi
  held := fun b hb => by rw [hpage, hfirst]; exact h.held b hb
  nrFree := hnr ▸ h.nrFree

theorem ZoneRep.perm_transit (h : ZoneRep s z S xs n fs ((i, k) :: ts) hs) :
    Tiling ((i, k) :: (tagged MEMLEVEL fs ++ (ts ++ hs))) n :=
  h.tiling.of_perm List.perm_middle.symm

/-- A block in transit starts inside the zone. -/
theorem ZoneRep.transit_lt (h : ZoneRep s z S xs n fs ((i, k) :: ts) hs) : i < n := by
  have hle : i + 2 ^ k ≤ n := h.perm_transit.le List.mem_cons_self
  have hpos := Nat.two_pow_pos k
  omega

/-- The start of a block in transit is on no list. -/
theorem ZoneRep.transit_not_mem (h : ZoneRep s z S xs n fs ((i, k) :: ts) hs) {l : ListId}
    (hl : S l) : (s.zone z).zoneFirstPage + i ∉ xs l := by
  by_cases harea : ∀ j < MEMLEVEL, l ≠ .freeArea z j
  · exact h.outside l hl harea (i, k) (by simp) i (start_mem_blockRange (i, k))
  · push Not at harea
    obtain ⟨j, hj, rfl⟩ := harea
    rw [h.areas j hj]
    intro hmem
    obtain ⟨i', hi', heq⟩ := List.mem_map.1 hmem
    have hmem' : (i', j) ∈ tagged MEMLEVEL fs ++ (ts ++ hs) :=
      List.mem_append_left _ (mem_tagged.2 ⟨hj, hi'⟩)
    exact h.perm_transit.start_ne hmem' (Nat.add_left_cancel heq)

/-- `list_add` of a block in transit, with the mark and the counter that go with it. -/
theorem ZoneRep.push (h : ZoneRep s z S xs n fs ((i, k) :: ts) hs) (hk : k < MEMLEVEL) :
    ∃ L, listAdd s ((s.zone z).zoneFirstPage + i) (.freeArea z k) = .ok { s with links := L } ∧
      ZoneRep (setPrivate (setZone { s with links := L } z (incNrFree k))
          ((s.zone z).zoneFirstPage + i) k) z S
        (Function.update xs (.freeArea z k) (((s.zone z).zoneFirstPage + i) :: xs (.freeArea z k)))
        n (Function.update fs k (i :: fs k)) ts hs := by
  obtain ⟨L, hadd, hlists⟩ := h.lists.add (h.heads k hk) (fun l hl => h.transit_not_mem hl)
  have hperm := tagged_perm_cons fs hk i
  have htile : Tiling (tagged MEMLEVEL (Function.update fs k (i :: fs k)) ++ (ts ++ hs)) n :=
    h.perm_transit.of_perm (hperm.append_right _)
  refine ⟨L, by simp [listAdd, hadd], ?_⟩
  constructor
  · exact hlists
  · exact h.heads
  · intro j hj
    by_cases hjk : j = k
    · subst hjk
      simp [setPrivate, setZone, incNrFree, h.areas j hj]
    · simpa [setPrivate, setZone, incNrFree, hjk] using h.areas j hj
  · intro l hl harea b hb j hj
    have hne : l ≠ .freeArea z k := harea k hk
    rw [Function.update_of_ne hne]
    have hb' : b ∈ tagged MEMLEVEL fs ++ ((i, k) :: ts) := by
      rcases List.mem_append.1 hb with hb | hb
      · rcases List.mem_cons.1 (hperm.mem_iff.1 hb) with rfl | hb
        · simp
        · exact List.mem_append_left _ hb
      · exact List.mem_append_right _ (List.mem_cons_of_mem _ hb)
    simpa [setPrivate, setZone, incNrFree] using h.outside l hl harea b hb' j hj
  · exact htile
  · -- the new mark is that of the pushed block, and the other blocks start elsewhere
    intro j hj a ha
    by_cases hai : a = i
    · subst hai
      have hjk : j = k := by
        by_contra hjk
        rw [Function.update_of_ne hjk] at ha
        exact h.perm_transit.start_ne (List.mem_append_left _ (mem_tagged.2 ⟨hj, ha⟩)) rfl
      simp [setPrivate, setZone, incNrFree, hjk]
    · have ha' : a ∈ fs j := by
        by_cases hjk : j = k
        · subst hjk
          rw [Function.update_self] at ha
          exact (List.mem_cons.1 ha).resolve_left hai
        · rwa [Function.update_of_ne hjk] at ha
      simpa [setPrivate, setZone, incNrFree, hai] using h.free j hj a ha'
  · intro b hb
    have hbi : b.1 ≠ i := h.perm_transit.start_ne (by simp [hb])
    simpa [setPrivate, setZone, incNrFree, hbi] using h.held b hb
  · intro j hj
    by_cases hjk : j = k
    · subst hjk
      simp [setPrivate, setZone, incNrFree, h.nrFree j hj]
    · simpa [setPrivate, setZone, incNrFree, hjk] using h.nrFree j hj

/-- `list_del` of a free block, with the counter and a new mark: the block is in transit. -/
theorem ZoneRep.pop (h : ZoneRep s z S xs n fs ts hs) (hk : k < MEMLEVEL) {ys zs : List Nat}
    (hfs : fs k = ys ++ i :: zs) :
    ∃ L, listDel s ((s.zone z).zoneFirstPage + i) = .ok { s with links := L } ∧
      ∀ v, ZoneRep (setPrivate (setZone { s with links := L } z (decNrFree k))
          ((s.zone z).zoneFirstPage + i) v) z S
        (Function.update xs (.freeArea z k) ((ys ++ zs).map ((s.zone z).zoneFirstPage + ·)))
        n (Function.update fs k (ys ++ zs)) ((i, k) :: ts) hs := by
  have hxs : xs (.freeArea z k) = ys.map ((s.zone z).zoneFirstPage + ·) ++
      ((s.zone z).zoneFirstPage + i) :: zs.map ((s.zone z).zoneFirstPage + ·) := by
    rw [h.areas k hk, hfs, List.map_append, List.map_cons]
  obtain ⟨L, hdel, hlists⟩ := h.lists.del (h.heads k hk) hxs
  rw [← List.map_append] at hlists
  have hperm := tagged_perm_remove hk hfs
  have htile : Tiling ((i, k) :: (tagged MEMLEVEL (Function.update fs k (ys ++ zs)) ++
      (ts ++ hs))) n := h.tiling.of_perm (hperm.symm.append_right _)
  have hsub : ∀ j, ∀ a ∈ Function.update fs k (ys ++ zs) j, a ∈ fs j := by
    intro j a ha
    by_cases hjk : j = k
    · subst hjk
      rw [Function.update_self] at ha
      rw [hfs]
      rcases List.mem_append.1 ha with ha | ha <;> simp [ha]
    · rwa [Function.update_of_ne hjk] at ha
  refine ⟨L, by simp [listDel, hdel], fun v => ?_⟩
  constructor
  · exact hlists
  · exact h.heads
  · intro j hj
    by_cases hjk : j = k
    · subst hjk
      simp [setPrivate, setZone, decNrFree]
    · simpa [setPrivate, setZone, decNrFree, hjk] using h.areas j hj
  · intro l hl harea b hb j hj
    have hne : l ≠ .freeArea z k := harea k hk
    rw [Function.update_of_ne hne]
    have hb' : b ∈ tagged MEMLEVEL fs ++ ts := by
      rcases List.mem_append.1 hb with hb | hb
      · exact List.mem_append_left _ (hperm.mem_iff.2 (List.mem_cons_of_mem _ hb))
      · rcases List.mem_cons.1 hb with rfl | hb
        · exact List.mem_append_left _ (hperm.mem_iff.2 List.mem_cons_self)
        · exact List.mem_append_right _ hb
    simpa [setPrivate, setZone, decNrFree] using h.outside l hl harea b hb' j hj
  · exact htile.of_perm List.perm_middle
  · intro j hj a ha
    have hai : a ≠ i :=
      htile.start_ne (List.mem_append_left _ (mem_tagged.2 ⟨hj, ha⟩))
    simpa [setPrivate, setZone, decNrFree, hai] using h.free j hj a (hsub j a ha)
  · intro b hb
    have hbi : b.1 ≠ i := htile.start_ne (by simp [hb])
    simpa [setPrivate, setZone, decNrFree, hbi] using h.held b hb
  · intro j hj
    by_cases hjk : j = k
    · subst hjk
      simp [setPrivate, setZone, decNrFree, h.nrFree j hj, hfs]
    · simpa [setPrivate, setZone, decNrFree, hjk] using h.nrFree j hj

/-- A change of the blocks in transit that keeps the tiling. -/
theorem ZoneRep.setTransit (h : ZoneRep s z S xs n fs ts hs) {ts' : List (Nat × Nat)}
    (htile : Tiling (tagged MEMLEVEL fs ++ (ts' ++ hs)) n)
    (hsub : ∀ b' ∈ ts', ∀ i ∈ blockRange b', ∃ b ∈ ts, i ∈ blockRange b) :
    ZoneRep s z S xs n fs ts' hs := by
  refine ⟨h.lists, h.heads, h.areas, ?_, htile, h.free, h.held, h.nrFree⟩
  intro l hl harea b hb i hi
  rcases List.mem_append.1 hb with hb | hb
  · exact h.outside l hl harea b (List.mem_append_left _ hb) i hi
  · obtain ⟨b', hb', hi'⟩ := hsub b hb i hi
    exact h.outside l hl harea b' (List.mem_append_right _ hb') i hi'

/-- Splitting a block in transit. -/
theorem ZoneRep.split (h : ZoneRep s z S xs n fs ((i, k + 1) :: ts) hs) :
    ZoneRep s z S xs n fs ((i + 2 ^ k, k) :: (i, k) :: ts) hs := by
  have htile := h.perm_transit.split
  refine h.setTransit (htile.of_perm ?_) ?_
  · -- both halves move to the front
    have h1 : (tagged MEMLEVEL fs ++ ((i + 2 ^ k, k) :: (i, k) :: (ts ++ hs))).Perm
        ((i + 2 ^ k, k) :: (i, k) :: (tagged MEMLEVEL fs ++ (ts ++ hs))) :=
      List.perm_middle.trans (List.perm_middle.cons _)
    exact h1.trans (List.Perm.swap _ _ _)
  · intro b hb j hj
    rcases List.mem_cons.1 hb with rfl | hb
    · exact ⟨(i, k + 1), List.mem_cons_self, by rw [blockRange_succ]; simp [hj]⟩
    · rcases List.mem_cons.1 hb with rfl | hb
      · exact ⟨(i, k + 1), List.mem_cons_self, by rw [blockRange_succ]; simp [hj]⟩
      · exact ⟨b, List.mem_cons_of_mem _ hb, hj⟩

/-- Merging two buddies in transit. -/
theorem ZoneRep.merge (h : ZoneRep s z S xs n fs ((i ^^^ 2 ^ k, k) :: (i, k) :: ts) hs) :
    ZoneRep s z S xs n fs ((i &&& (i ^^^ 2 ^ k), k + 1) :: ts) hs := by
  have htile : Tiling ((i, k) :: (i ^^^ 2 ^ k, k) :: (tagged MEMLEVEL fs ++ (ts ++ hs))) n := by
    refine h.perm_transit.of_perm ((List.Perm.swap _ _ _).trans (List.Perm.cons _ ?_))
    exact List.perm_middle.symm
  have hal : 2 ^ k ∣ i := htile.aligned (i, k) List.mem_cons_self
  refine h.setTransit (htile.merge.of_perm List.perm_middle) ?_
  intro b hb j hj
  rcases List.mem_cons.1 hb with rfl | hb
  · -- the merged block consists of the two halves
    rw [blockRange_succ] at hj
    rcases xor_two_pow_cases hal with ⟨_, hx, ha⟩ | ⟨l, _, hil, hx, ha⟩
    · rw [ha] at hj
      rcases List.mem_append.1 hj with hj | hj
      · exact ⟨(i, k), by simp, hj⟩
      · exact ⟨(i ^^^ 2 ^ k, k), by simp, hx ▸ hj⟩
    · rw [ha] at hj
      rcases List.mem_append.1 hj with hj | hj
      · exact ⟨(i ^^^ 2 ^ k, k), by simp, hx ▸ hj⟩
      · exact ⟨(i, k), by simp, hil ▸ hj⟩
  · exact ⟨b, by simp [hb], hj⟩

end Rep

/-! ## §2 The two operations -/

/-- `s'` differs from `s` in the links, the marks of the `n` pages of zone `z`, and its two
    counters. -/
structure OnlyBlocks (s s' : Mem) (z : ZoneId) (n : Nat) : Prop where
  npages : s'.npagesNum = s.npagesNum
  mark : ∀ p, ¬ ((s.zone z).zoneFirstPage ≤ p ∧ p < (s.zone z).zoneFirstPage + n) →
    (s'.page p).pPrivate = (s.page p).pPrivate
  flag : ∀ p, (s'.page p).flag = (s.page p).flag
  pRef : ∀ p, (s'.page p).pRef = (s.page p).pRef
  other : ∀ z' ≠ z, s'.zone z' = s.zone z'
  zone : ∃ fp nr, s'.zone z = { s.zone z with freePages := fp, nrFree := nr }

theorem OnlyBlocks.refl (s : Mem) (z : ZoneId) (n : Nat) : OnlyBlocks s s z n :=
  ⟨rfl, fun _ _ => rfl, fun _ => rfl, fun _ => rfl, fun _ _ => rfl, ⟨_, _, rfl⟩⟩

theorem OnlyBlocks.first {s s' : Mem} {z : ZoneId} {n : Nat} (h : OnlyBlocks s s' z n) :
    (s'.zone z).zoneFirstPage = (s.zone z).zoneFirstPage := by
  obtain ⟨fp, nr, hz⟩ := h.zone
  rw [hz]

theorem OnlyBlocks.trans {s s' s'' : Mem} {z : ZoneId} {n : Nat} (h : OnlyBlocks s s' z n)
    (h' : OnlyBlocks s' s'' z n) : OnlyBlocks s s'' z n := by
  have hfirst := h.first
  obtain ⟨fp, nr, hz⟩ := h.zone
  obtain ⟨fp', nr', hz'⟩ := h'.zone
  refine ⟨h'.npages.trans h.npages, fun p hp => ?_, fun p => (h'.flag p).trans (h.flag p),
    fun p => (h'.pRef p).trans (h.pRef p), fun z' hz' => (h'.other z' hz').trans (h.other z' hz'),
    ⟨fp', nr', ?_⟩⟩
  · rw [h'.mark p (by rwa [hfirst]), h.mark p hp]
  · rw [hz', hz]

/-- A mark and a counter change, after any change of the links. -/
theorem onlyBlocks_set (s : Mem) (L : Links (Node ListId Nat)) (z : ZoneId) {n i : Nat} (hi : i < n)
    (v : Nat) (f : Zone → Zone)
    (hf : ∀ zn, ∃ fp nr, f zn = { zn with freePages := fp, nrFree := nr }) :
    OnlyBlocks s (setPrivate (setZone { s with links := L } z f) ((s.zone z).zoneFirstPage + i) v)
      z n := by
  refine ⟨rfl, fun q hq => ?_, fun q => ?_, fun q => ?_, fun z' hz' => ?_, ?_⟩
  · have hne : q ≠ (s.zone z).zoneFirstPage + i := by
      rintro rfl
      exact hq ⟨by omega, by omega⟩
    simp [setPrivate, setZone, hne]
  · by_cases hq : q = (s.zone z).zoneFirstPage + i
    · subst hq
      simp [setPrivate, setZone]
    · simp [setPrivate, setZone, hq]
  · by_cases hq : q = (s.zone z).zoneFirstPage + i
    · subst hq
      simp [setPrivate, setZone]
    · simp [setPrivate, setZone, hq]
  · simp [setPrivate, setZone, hz']
  · obtain ⟨fp, nr, heq⟩ := hf (s.zone z)
    exact ⟨fp, nr, by simpa [setPrivate, setZone] using heq⟩

/-- The lists apart from the free lists of zone `z` stay the same. -/
def SameOff (z : ZoneId) (xs xs' : ListId → List Nat) : Prop :=
  ∀ l, (∀ k < MEMLEVEL, l ≠ .freeArea z k) → xs' l = xs l

theorem SameOff.update {z : ZoneId} {xs xs' : ListId → List Nat} (h : SameOff z xs xs') {k : Nat}
    (hk : k < MEMLEVEL) (l : List Nat) :
    SameOff z xs (Function.update xs' (.freeArea z k) l) := by
  intro l' hl'
  rw [Function.update_of_ne (hl' k hk)]
  exact h l' hl'

section Operations

variable {s : Mem} {z : ZoneId} {S : ListId → Prop} {xs : ListId → List Nat} {n : Nat}
  {fs : Nat → List Nat} {ts hs : List (Nat × Nat)}

/-- The free blocks after `d` halvings of the block at `i` down to order `order`: its upper halves are free. -/
def halved (fs : Nat → List Nat) (i order : Nat) : Nat → Nat → List Nat
  | 0 => fs
  | d + 1 => halved (Function.update fs (order + d) ((i + 2 ^ (order + d)) :: fs (order + d))) i order d

theorem halved_apply (fs : Nat → List Nat) (i order d j : Nat) : halved fs i order d j =
    if order ≤ j ∧ j < order + d then (i + 2 ^ j) :: fs j else fs j := by
  induction d generalizing fs with
  | zero => exact (if_neg (by omega)).symm
  | succ d ih =>
    unfold halved
    rw [ih]
    by_cases hj : j = order + d
    · subst hj
      rw [if_neg (by omega), if_pos (by omega), Function.update_self]
    · rw [Function.update_of_ne hj]
      by_cases hin : order ≤ j ∧ j < order + d
      · rw [if_pos hin, if_pos (by omega)]
      · rw [if_neg hin, if_neg (by omega)]

/-- The repair loop of `__rmqueue` splits the block down to the order asked for. -/
theorem splitBlock_halved {i order : Nat} (d : Nat) (hlt : order + d < MEMLEVEL)
    (h : ZoneRep s z S xs n fs ((i, order + d) :: ts) hs)
    (hmark : (s.page ((s.zone z).zoneFirstPage + i)).pPrivate = OUT_OF_BUDDY) :
    ∃ s' xs', splitBlock z ((s.zone z).zoneFirstPage + i) order d s = .ok s' ∧
      ZoneRep s' z S xs' n (halved fs i order d) ((i, order) :: ts) hs ∧ OnlyBlocks s s' z n ∧
      SameOff z xs xs' ∧ (s'.zone z).freePages = (s.zone z).freePages ∧
      (s'.page ((s.zone z).zoneFirstPage + i)).pPrivate = OUT_OF_BUDDY := by
  induction d generalizing s xs fs with
  | zero => exact ⟨s, xs, rfl, h, OnlyBlocks.refl s z n, fun _ _ => rfl, rfl, hmark⟩
  | succ d ih =>
    have hk : order + d < MEMLEVEL := by omega
    have hsplit : ZoneRep s z S xs n fs
        ((i + 2 ^ (order + d), order + d) :: (i, order + d) :: ts) hs := h.split
    obtain ⟨L, hadd, hrep⟩ := hsplit.push hk
    have hpos := Nat.two_pow_pos (order + d)
    have honly := onlyBlocks_set s L z (hsplit.transit_lt) (order + d) (incNrFree (order + d)) (fun zn => ⟨_, _, rfl⟩)
    generalize hs₁ : setPrivate (setZone { s with links := L } z (incNrFree (order + d)))
      ((s.zone z).zoneFirstPage + (i + 2 ^ (order + d))) (order + d) = s₁ at hrep honly
    have hfirst := honly.first
    -- the upper half is marked free, the lower half keeps its mark
    have hmark' : (s₁.page ((s₁.zone z).zoneFirstPage + i)).pPrivate = OUT_OF_BUDDY := by
      have hne : (s.zone z).zoneFirstPage + i ≠
          (s.zone z).zoneFirstPage + (i + 2 ^ (order + d)) := by omega
      rw [hfirst, ← hs₁]
      simpa [setPrivate, setZone, hne] using hmark
    obtain ⟨s', xs', hok, hrep', honly', hoff, hfp, hm⟩ := ih hk hrep hmark'
    rw [hfirst] at hok hm
    refine ⟨s', xs', ?_, hrep', honly.trans honly', ?_, ?_, hm⟩
    · simp only [splitBlock, Nat.add_assoc, hadd, bind, Except.bind, hs₁]
      exact hok
    · intro l hl
      rw [hoff l hl, Function.update_of_ne (hl _ hk)]
    · rw [hfp, ← hs₁]
      simp [setPrivate, setZone, incNrFree]

/-- The search of `__rmqueue` finds the first order with a free block. -/
theorem findArea_spec (h : ZoneRep s z S xs n fs ts hs) (order : Nat) :
    (findArea s z order = none ∧ ∀ k < MEMLEVEL, order ≤ k → fs k = []) ∨
      ∃ k i rest, findArea s z order = some k ∧ order ≤ k ∧ k < MEMLEVEL ∧ fs k = i :: rest ∧
        ∀ j, order ≤ j → j < k → fs j = [] := by
  have hempty : ∀ k < MEMLEVEL, s.links.isEmpty (.head (.freeArea z k)) = true ↔ fs k = [] := by
    intro k hk
    rw [h.lists.isEmpty_iff (h.heads k hk), h.areas k hk, List.map_eq_nil_iff]
  unfold findArea
  cases hfind : (List.range' order (MEMLEVEL - order)).find?
      (fun k => !s.links.isEmpty (.head (.freeArea z k))) with
  | none =>
    refine .inl ⟨rfl, fun k hk hle => ?_⟩
    have hmem : k ∈ List.range' order (MEMLEVEL - order) :=
      List.mem_range'_1.2 ⟨hle, by omega⟩
    have := List.find?_eq_none.1 hfind k hmem
    exact (hempty k hk).1 (by simpa using this)
  | some k =>
    obtain ⟨hle, hlt⟩ := List.mem_range'_1.1 (List.mem_of_find?_eq_some hfind)
    have hk : k < MEMLEVEL := by omega
    have hne : fs k ≠ [] := by
      intro he
      have := List.find?_some hfind
      rw [(hempty k hk).2 he] at this
      simp at this
    obtain ⟨i, rest, hfs⟩ := List.exists_cons_of_ne_nil hne
    refine .inr ⟨k, i, rest, rfl, hle, hk, hfs, fun j hj hjk => ?_⟩
    have hmem : j ∈ List.range' order (MEMLEVEL - order) := List.mem_range'_1.2 ⟨hj, by omega⟩
    obtain ⟨_, before, after, hsplit, hfail⟩ := List.find?_eq_some_iff_append.1 hfind
    have hsorted : (before ++ k :: after).Pairwise (· < ·) := hsplit ▸ List.pairwise_lt_range' ..
    have hbefore : j ∈ before := by
      rw [hsplit, List.mem_append, List.mem_cons] at hmem
      rcases hmem with hmem | rfl | hmem
      · exact hmem
      · exact absurd hjk (Nat.lt_irrefl j)
      · have hlt := List.rel_of_pairwise_cons (List.pairwise_append.1 hsorted).2.1 hmem
        exact absurd hjk (Nat.lt_asymm hlt)
    have hnot := hfail j hbefore
    exact (hempty j (by omega)).1 (by simpa using hnot)

/-- **`__rmqueue`** finds no block, or it takes the first one of the first order that has any, and splits
    it down to the order asked for. -/
theorem rmqueue_halved (h : ZoneRep s z S xs n fs ts hs) (order : Nat) :
    (__rmqueue s z order = .ok (none, s) ∧ ∀ k < MEMLEVEL, order ≤ k → fs k = []) ∨
      ∃ d i rest s' xs', order + d < MEMLEVEL ∧ fs (order + d) = i :: rest ∧
        (∀ j, order ≤ j → j < order + d → fs j = []) ∧
        __rmqueue s z order = .ok (some ((s.zone z).zoneFirstPage + i), s') ∧
        ZoneRep s' z S xs' n (halved (Function.update fs (order + d) rest) i order d) ts
          ((i, order) :: hs) ∧ OnlyBlocks s s' z n ∧ SameOff z xs xs' ∧
        (s'.zone z).freePages = (s.zone z).freePages - (2 ^ order : Nat) := by
  rcases findArea_spec h order with ⟨hnone, hall⟩ | ⟨k, i, rest, hsome, hle, hk, hfs, hfirst⟩
  · exact .inl ⟨by simp [__rmqueue, hnone], hall⟩
  · right
    obtain ⟨d, rfl⟩ : ∃ d, k = order + d := ⟨k - order, by omega⟩
    -- the first block of the list is in transit, marked as held
    have hfs' : fs (order + d) = [] ++ i :: rest := hfs
    obtain ⟨L, hdel, hpop⟩ := h.pop hk hfs'
    have hnext : s.links.next (.head (.freeArea z (order + d))) =
        some (.elem ((s.zone z).zoneFirstPage + i)) := by
      rw [h.lists.next_head (h.heads _ hk), h.areas _ hk, hfs]
      rfl
    generalize hs₂ : setZone (setZone (setPrivate { s with links := L }
      ((s.zone z).zoneFirstPage + i) OUT_OF_BUDDY) z (decNrFree (order + d))) z
      (addFreePages (-(2 ^ order : Nat))) = s₂
    have hrep : ZoneRep s₂ z S _ n _ ((i, order + d) :: ts) hs :=
      (hpop OUT_OF_BUDDY).congr (by rw [← hs₂]; rfl)
        (fun p => by rw [← hs₂]; simp [setPrivate, setZone])
        (by rw [← hs₂]; simp [setPrivate, setZone, addFreePages, decNrFree])
        (by rw [← hs₂]; simp [setPrivate, setZone, addFreePages, decNrFree])
    have honly : OnlyBlocks s s₂ z n := by
      have := onlyBlocks_set s L z (hpop OUT_OF_BUDDY).transit_lt OUT_OF_BUDDY
        (addFreePages (-(2 ^ order : Nat)) ∘ decNrFree (order + d)) (fun zn => ⟨_, _, rfl⟩)
      rw [← hs₂]
      convert this using 1
      simp [setPrivate, setZone]
    have hmark : (s₂.page ((s₂.zone z).zoneFirstPage + i)).pPrivate = OUT_OF_BUDDY := by
      rw [honly.first, ← hs₂]
      simp [setPrivate, setZone]
    have hfp₂ : (s₂.zone z).freePages = (s.zone z).freePages - (2 ^ order : Nat) := by
      rw [← hs₂]
      simp [setPrivate, setZone, addFreePages, decNrFree]
      omega
    obtain ⟨s', xs', hok, hrep', honly', hoff, hfp, hm⟩ := splitBlock_halved d hk hrep hmark
    rw [honly.first] at hok hm
    refine ⟨d, i, rest, s', xs', hk, hfs, hfirst, ?_, ?_, honly.trans honly', ?_, ?_⟩
    · simp only [__rmqueue, hsome, hnext, listEntry, hdel, Nat.add_sub_cancel_left, bind,
        Except.bind, hs₂, hok]
      rfl
    · -- the block keeps its mark, so it counts as held
      have htile : Tiling (tagged MEMLEVEL (halved (Function.update fs (order + d) rest) i order d) ++
          (ts ++ (i, order) :: hs)) n := by
        refine hrep'.tiling.of_perm (List.Perm.append_left _ ?_)
        exact List.perm_middle
      refine ⟨hrep'.lists, hrep'.heads, hrep'.areas, ?_, htile, hrep'.free, ?_, hrep'.nrFree⟩
      · intro l hl harea b hb
        refine hrep'.outside l hl harea b ?_
        rcases List.mem_append.1 hb with hb | hb
        · exact List.mem_append_left _ hb
        · exact List.mem_append_right _ (List.mem_cons_of_mem _ hb)
      · intro b hb
        rcases List.mem_cons.1 hb with rfl | hb
        · rw [honly'.first, honly.first]
          exact hm
        · exact hrep'.held b hb
    · intro l hl
      rw [hoff l hl, Function.update_of_ne (hl _ hk)]
    · rw [hfp, hfp₂]

/-- **`__rmqueue`** finds no block, or it takes one out of the free blocks, which is held then. -/
theorem rmqueue_spec (h : ZoneRep s z S xs n fs ts hs) (order : Nat) :
    (__rmqueue s z order = .ok (none, s) ∧ ∀ k < MEMLEVEL, order ≤ k → fs k = []) ∨
      ∃ i s' xs' fs', __rmqueue s z order = .ok (some ((s.zone z).zoneFirstPage + i), s') ∧
        ZoneRep s' z S xs' n fs' ts ((i, order) :: hs) ∧ OnlyBlocks s s' z n ∧ SameOff z xs xs' ∧
        (s'.zone z).freePages = (s.zone z).freePages - (2 ^ order : Nat) := by
  rcases rmqueue_halved h order with hnone | ⟨d, i, rest, s', xs', _, _, _, hok, hrep, honly, hoff, hfp⟩
  · exact .inl hnone
  · exact .inr ⟨i, s', xs', _, hok, hrep, honly, hoff, hfp⟩

/-- Walking up from order `k`, there is a buddy below order `MEMLEVEL` that is not free, and the
    buddies before it are pages of the zone. -/
def StopsInside (s : Mem) (z : ZoneId) (n i k : Nat) : Prop :=
  ∃ j < MEMLEVEL, k ≤ j ∧
    pageIsBuddy s ((s.zone z).zoneFirstPage + buddyStart i j) j = false ∧
    ∀ m < j, k ≤ m → buddyStart i m < n

/-- A page of the zone that passes `page_is_buddy` for the block in transit is a free block of the
    same order. -/
theorem ZoneRep.buddy_free {i k : Nat} (h : ZoneRep s z S xs n fs [(i, k)] hs) (hk : k < MEMLEVEL)
    (hlt : i ^^^ 2 ^ k < n)
    (hbuddy : pageIsBuddy s ((s.zone z).zoneFirstPage + (i ^^^ 2 ^ k)) k = true) :
    i ^^^ 2 ^ k ∈ fs k := by
  obtain ⟨m, _, hmem⟩ := h.perm_transit.buddy_mem hlt
  have hpriv : (s.page ((s.zone z).zoneFirstPage + (i ^^^ 2 ^ k))).pPrivate = k := by
    simp only [pageIsBuddy, Bool.and_eq_true, decide_eq_true_eq] at hbuddy
    exact hbuddy.1
  rw [List.nil_append] at hmem
  rcases List.mem_append.1 hmem with hm | hm
  · -- a free block is marked with its order
    obtain ⟨hm', hin⟩ := mem_tagged.1 hm
    have := h.free m hm' _ hin
    rw [hpriv] at this
    exact this ▸ hin
  · -- a held block is marked `OUT_OF_BUDDY`, which is no order
    have := h.held _ hm
    rw [hpriv] at this
    unfold MEMLEVEL at hk
    unfold OUT_OF_BUDDY at this
    omega

/-- The merge loop, from the block of order `k` around `i` on: what it looks at outside that block is
    as in the state `s₀` before the loop. -/
theorem coalesce_spec (s₀ : Mem) {i : Nat} (f l k : Nat) (hf : k + f = MEMLEVEL)
    (h : ZoneRep s z S xs n fs [(l, k)] hs) (hi : i ∈ blockRange (l, k))
    (hfirst : (s.zone z).zoneFirstPage = (s₀.zone z).zoneFirstPage)
    (hsame : ∀ p, p ∉ blockRange (l, k) →
      s.page ((s₀.zone z).zoneFirstPage + p) = s₀.page ((s₀.zone z).zoneFirstPage + p))
    (hstop : StopsInside s₀ z n i k) :
    ∃ l' k' s' xs' fs', coalesce z f l k s = .ok (l', k', s') ∧ k' < MEMLEVEL ∧
      ZoneRep s' z S xs' n fs' [(l', k')] hs ∧ OnlyBlocks s s' z n ∧ SameOff z xs xs' ∧
      (s'.zone z).freePages = (s.zone z).freePages := by
  obtain ⟨j, hj, hkj, hno, hin⟩ := hstop
  induction f generalizing l k s xs fs with
  | zero => omega
  | succ f ih =>
    have hk : k < MEMLEVEL := by omega
    have hal : 2 ^ k ∣ l := h.perm_transit.aligned (l, k) List.mem_cons_self
    have hstart : blockStart i k = l := blockStart_eq hal hi
    obtain ⟨hmerged, hnot, hmem⟩ := merged_eq_blockStart hal hi
    have hbuddy : buddyStart i k = l ^^^ 2 ^ k := by rw [buddyStart, hstart]
    -- the test reads the same as before the loop
    have htest : pageIsBuddy s ((s.zone z).zoneFirstPage + (l ^^^ 2 ^ k)) k =
        pageIsBuddy s₀ ((s₀.zone z).zoneFirstPage + buddyStart i k) k := by
      rw [hfirst, hbuddy]
      unfold pageIsBuddy
      rw [hsame _ hnot]
    unfold coalesce
    cases hb : pageIsBuddy s ((s.zone z).zoneFirstPage + (l ^^^ 2 ^ k)) k with
    | false =>
      exact ⟨l, k, s, xs, fs, by simp [hb], hk, h, OnlyBlocks.refl s z n, fun _ _ => rfl, rfl⟩
    | true =>
      have hkj' : k < j := by
        rcases Nat.lt_or_eq_of_le hkj with hlt | rfl
        · exact hlt
        · rw [← htest, hb] at hno
          cases hno
      have hlt : l ^^^ 2 ^ k < n := hbuddy ▸ hin k hkj' (Nat.le_refl _)
      obtain ⟨ys, zs, hfs⟩ := List.append_of_mem (h.buddy_free hk hlt hb)
      obtain ⟨L, hdel, hpop⟩ := h.pop hk hfs
      have honly := onlyBlocks_set s L z hlt IN_BUDDY (decNrFree k) (fun zn => ⟨_, _, rfl⟩)
      have hrep := (hpop IN_BUDDY).merge
      generalize hs₁ : setPrivate (setZone { s with links := L } z (decNrFree k))
        ((s.zone z).zoneFirstPage + (l ^^^ 2 ^ k)) IN_BUDDY = s₁ at hrep honly
      have hsame' : ∀ p, p ∉ blockRange (l &&& (l ^^^ 2 ^ k), k + 1) →
          s₁.page ((s₀.zone z).zoneFirstPage + p) = s₀.page ((s₀.zone z).zoneFirstPage + p) := by
        intro p hp
        have hpl : p ∉ blockRange (l, k) ∧ p ≠ l ^^^ 2 ^ k := by
          rw [blockRange_succ] at hp
          rw [List.mem_append, not_or] at hp
          rcases xor_two_pow_cases hal with ⟨_, hx, ha⟩ | ⟨l', _, hl', hx, ha⟩
          · rw [ha] at hp
            rw [hx]
            exact ⟨hp.1, fun he => hp.2 (he ▸ start_mem_blockRange (l + 2 ^ k, k))⟩
          · rw [ha] at hp
            rw [hx]
            exact ⟨hl' ▸ hp.2, fun he => hp.1 (he ▸ start_mem_blockRange (l', k))⟩
        rw [← hsame p hpl.1, ← hs₁, hfirst]
        simp [setPrivate, setZone, hpl.2]
      obtain ⟨l', k', s', xs', fs', hok, hk', hrep', honly', hoff, hfp⟩ :=
        ih (l &&& (l ^^^ 2 ^ k)) (k + 1) (by omega) hrep hmem (honly.first.trans hfirst) hsame'
          (by omega) (fun m hm hle => hin m hm (by omega))
      refine ⟨l', k', s', xs', fs', ?_, hk', hrep', honly.trans honly', ?_, ?_⟩
      · simp only [hb, if_true, hdel, bind, Except.bind, hs₁]
        exact hok
      · intro l'' hl''
        rw [hoff l'' hl'', Function.update_of_ne (hl'' _ hk)]
      · rw [hfp, ← hs₁]
        simp [setPrivate, setZone, decNrFree]

/-- **`__free_pages_bulk`** on a held block, as long as the merging stops in time: the block is free
    afterwards, merged or not. -/
theorem freePagesBulk_spec {i k : Nat} (h : ZoneRep s z S xs n fs [] hs) (hmem : (i, k) ∈ hs)
    (hk : k < MEMLEVEL) (hout : ∀ l, S l → (∀ k < MEMLEVEL, l ≠ .freeArea z k) →
      ∀ j ∈ blockRange (i, k), (s.zone z).zoneFirstPage + j ∉ xs l)
    (hstop : StopsInside s z n i k) :
    ∃ s' xs' fs', __freePagesBulk s z ((s.zone z).zoneFirstPage + i) k = .ok s' ∧
      ZoneRep s' z S xs' n fs' [] (hs.erase (i, k)) ∧ OnlyBlocks s s' z n ∧ SameOff z xs xs' ∧
      (s'.zone z).freePages = (s.zone z).freePages + (2 ^ k : Nat) := by
  -- the held block is in transit
  have hperm := List.perm_cons_erase hmem
  have hrep₀ : ZoneRep s z S xs n fs [(i, k)] (hs.erase (i, k)) := by
    refine ⟨h.lists, h.heads, h.areas, ?_, h.tiling.of_perm (hperm.symm.append_left _), h.free,
      fun b hb => h.held b (List.mem_of_mem_erase hb), h.nrFree⟩
    intro l hl harea b hb j hj
    rcases List.mem_append.1 hb with hb | hb
    · exact h.outside l hl harea b (List.mem_append_left _ hb) j hj
    · exact hout l hl harea j (List.mem_singleton.1 hb ▸ hj)
  obtain ⟨l', k', s₁, xs₁, fs₁, hok, hk', hrep₁, honly₁, hoff₁, hfp₁⟩ :=
    coalesce_spec s (MEMLEVEL - k) i k (by omega) hrep₀ (start_mem_blockRange (i, k)) rfl
      (fun _ _ => rfl) hstop
  obtain ⟨L, hadd, hrep₂⟩ := hrep₁.push hk'
  have hadd' : listAdd (setPrivate s₁ ((s₁.zone z).zoneFirstPage + l') k')
      ((s₁.zone z).zoneFirstPage + l') (.freeArea z k') =
      .ok { setPrivate s₁ ((s₁.zone z).zoneFirstPage + l') k' with links := L } := by
    unfold listAdd at hadd ⊢
    rw [show (setPrivate s₁ ((s₁.zone z).zoneFirstPage + l') k').links = s₁.links from rfl]
    cases hL : s₁.links.add (.elem ((s₁.zone z).zoneFirstPage + l')) (.head (.freeArea z k')) with
    | none =>
      rw [hL] at hadd
      cases hadd
    | some L' =>
      rw [hL] at hadd
      have : L' = L := congrArg Mem.links (Except.ok.inj hadd)
      rw [this]
  generalize hs₂ : setZone (setZone { setPrivate s₁ ((s₁.zone z).zoneFirstPage + l') k' with
    links := L } z (incNrFree k')) z (addFreePages (2 ^ k : Nat)) = s₂
  have hrep₃ : ZoneRep s₂ z S _ n _ [] (hs.erase (i, k)) :=
    hrep₂.congr (by rw [← hs₂]; rfl) (fun p => by rw [← hs₂]; simp [setPrivate, setZone])
      (by rw [← hs₂]; simp [setPrivate, setZone, addFreePages, incNrFree])
      (by rw [← hs₂]; simp [setPrivate, setZone, addFreePages, incNrFree])
  have honly₂ : OnlyBlocks s₁ s₂ z n := by
    have := onlyBlocks_set s₁ L z hrep₁.transit_lt k'
      (addFreePages (2 ^ k : Nat) ∘ incNrFree k') (fun zn => ⟨_, _, rfl⟩)
    rw [← hs₂]
    convert this using 1
    simp [setPrivate, setZone]
  refine ⟨s₂, _, _, ?_, hrep₃, honly₁.trans honly₂, ?_, ?_⟩
  · simp only [__freePagesBulk, Nat.add_sub_cancel_left, hok, bind, Except.bind,
      if_neg (Nat.not_le.2 hk')]
    rw [hadd']
    exact congrArg Except.ok hs₂
  · intro l hl
    rw [Function.update_of_ne (hl _ hk'), hoff₁ l hl]
  · rw [← hs₂, ← hfp₁]
    simp [setPrivate, setZone, addFreePages, incNrFree]

end Operations

end WeiOS.Buddy
