import Mathlib
import WeiOS.Lib.Run
import WeiOS.Mm.Slab
import WeiOS.Mm.SlabInvariant

/-!
# The Cache of Slab Descriptors

`meta_cache` keeps the descriptors of its slabs in its own objects: object 0 of a slab is the
descriptor of that slab, and `cache_grow` starts the chain of free objects at index 1. Slabs of
`meta_cache` never leave `slabs_partitial`, not even when they are full, so `kmem_cache_alloc` has to
find one with a free object there whenever `free_objects` is positive.

## Main results
- `MetaRep.alloc`, `MetaRep.free`: the two operations on the objects in use.
- `metaCache_sound`: chains, counts and objects, in every run.
-/

namespace WeiOS.Slab

open WeiOS.Lib

/-! ## §1 Calls -/

/-- The allocator and the objects of `meta_cache` that callers hold. -/
structure MetaRun where
  kmem : Kmem
  live : List Nat

/-- `kmem_cache_alloc(&meta_cache)` with the results of `alloc_page`, `kmem_cache_free` of an object of
    a slab, and a caller that writes to an object. -/
inductive MetaOp where
  | alloc (supply : List (Option (Nat × Bool)))
  | free (slabp objp : Nat)
  | write (objp : Nat) (v : SlabDesc)

/-- One call. -/
def metaStep (r : MetaRun) : MetaOp → Except Fault MetaRun
  | .alloc supply => do
    let (a, s) ← allocSlabDesc { r.kmem with supply := supply }
    pure ⟨s, a.toList ++ r.live⟩
  | .free slabp objp => do
    let s ← kmemCacheFreeBy (slabDestroy destroySlabDesc) .metaCache slabp objp r.kmem
    pure ⟨s, r.live.erase objp⟩
  | .write objp v => pure ⟨{ r.kmem with slab := Function.update r.kmem.slab objp v }, r.live⟩

/-- `alloc_page` returns fresh pages; only live objects are released and written to, and an object is
    released together with the slab of its page. -/
def MetaOk (r : MetaRun) : MetaOp → Prop
  | .alloc supply => ((supply.filterMap id).map Prod.fst).Nodup ∧
      ∀ p ∈ (supply.filterMap id).map Prod.fst, Mapped r.kmem.npagesNum p ∧ p ∉ r.kmem.held
  | .free slabp objp => objp ∈ r.live ∧
      ∃ p ∈ va2page r.kmem objp, (r.kmem.page p).lruPrev = slabp
  | .write objp _ => objp ∈ r.live

/-- The chains `fs` of the slabs, and the objects in use. -/
structure MetaChains (s : Kmem) (live : List Nat) (fs : Nat → List Nat) : Prop where
  chain : ∀ d ∈ slabs s .metaCache, Chain (s.slab d).objsDesc (s.slab d).free (fs d)
  acyclic : ∀ d ∈ slabs s .metaCache, (fs d).Nodup
  free : ∀ d ∈ slabs s .metaCache, ∀ i, i ∈ fs d ↔
    i < (s.cache .metaCache).nObjsPerSlab ∧ i ≠ 0 ∧ slotAddr s .metaCache d i ∉ live
  self : ∀ d ∈ slabs s .metaCache, d = slotAddr s .metaCache d 0 ∧ d ∉ live
  count : ∀ d ∈ slabs s .metaCache,
    (s.slab d).nInuse + (fs d).length = (s.cache .metaCache).nObjsPerSlab
  freeObjects : (s.cache .metaCache).freeObjects =
    ((slabs s .metaCache).map fun d => (fs d).length).sum
  inside : ∀ o ∈ live, ∃ d ∈ slabs s .metaCache, ∃ p ∈ s.held, ∃ i,
    0 < i ∧ i < (s.cache .metaCache).nObjsPerSlab ∧ (s.page p).lruPrev = d ∧
      o = slotAddr s .metaCache d i ∧ (s.slab d).objsDescArray = page2va p ∧
      page2va p + 2 * (s.cache .metaCache).nObjsPerSlab ≤ o ∧ o + sizeofSlab ≤ page2va p + SLAB_SIZE
  apart : live.Pairwise fun o o' => Apart o sizeofSlab o' sizeofSlab
  arrays : ∀ o ∈ live, ∀ d ∈ slabs s .metaCache,
    Apart o sizeofSlab (s.slab d).objsDescArray (2 * (s.cache .metaCache).nObjsPerSlab) ∧
      Apart o sizeofSlab d sizeofSlab

/-- What a call has to satisfy: the chains are right after it, no slab is gone, and if free objects
    were counted, the slab that an allocation picks had one. -/
def MetaSound (r : MetaRun) (o : MetaOp) (r' : MetaRun) : Prop :=
  (∃ fs, MetaChains r'.kmem r'.live fs) ∧
  slabs r.kmem .metaCache <+: slabs r'.kmem .metaCache ∧
  match o with
  | .alloc _ => 0 < (r.kmem.cache .metaCache).freeObjects →
      ∃ d ∈ slabs r.kmem .metaCache, pickSlab r.kmem .metaCache = some d ∧
        (r.kmem.slab d).free ≠ BUFCTL_END
  | _ => True

/-! ## §2 The objects in use -/

/-- The objects in use are those held by callers and the descriptors of the slabs themselves. -/
structure MetaRep (s : Kmem) (live : List Nat) (fs : Nat → List Nat) (pg : Nat → Nat) : Prop where
  inv : Inv s fs pg
  normal : ∀ i, slabs s (.normalCache i) = []
  used : ∀ a, a ∈ live ↔ ∃ d i, Used s fs .metaCache d i ∧ i ≠ 0 ∧ a = slotAddr s .metaCache d i
  nodup : live.Nodup

section Rep

variable {s s' : Kmem} {live : List Nat} {fs : Nat → List Nat} {pg : Nat → Nat} {d i a : Nat}

theorem MetaRep.mem_slabs (h : MetaRep s live fs pg) {c : CacheId} (hd : d ∈ slabs s c) :
    c = .metaCache ∧ d ∈ slabs s .metaCache := by
  cases c with
  | metaCache => exact ⟨rfl, hd⟩
  | normalCache i =>
    rw [h.normal] at hd
    cases hd

/-- A descriptor is object 0 of its slab. -/
theorem MetaRep.self (h : MetaRep s live fs pg) (hd : d ∈ slabs s .metaCache) :
    d = slotAddr s .metaCache d 0 := by
  have hself := (h.inv.metaSelf d hd).1
  simpa [slotAddr] using hself

theorem MetaRep.slot_mem_iff (h : MetaRep s live fs pg) (hd : d ∈ slabs s .metaCache)
    (hi : i < nObjsOf .metaCache) : slotAddr s .metaCache d i ∈ live ↔ i ≠ 0 ∧ i ∉ fs d := by
  rw [h.used]
  constructor
  · rintro ⟨d', i', hu, hne, heq⟩
    obtain ⟨rfl, rfl⟩ := h.inv.slot_inj hd hu.1 hi hu.2.1 heq
    exact ⟨hne, hu.2.2⟩
  · rintro ⟨hne, hnot⟩
    exact ⟨d, i, ⟨hd, hi, hnot⟩, hne, rfl⟩

/-- No caller holds the descriptor of a slab. -/
theorem MetaRep.desc_not_live (h : MetaRep s live fs pg) {c : CacheId} (hd : d ∈ slabs s c) :
    d ∉ live := by
  obtain ⟨rfl, hd⟩ := h.mem_slabs hd
  intro hmem
  rw [h.self hd, h.slot_mem_iff hd (by decide)] at hmem
  exact hmem.1 rfl

/-- There are fewer slabs than pages, so the number of free objects does not wrap. -/
theorem MetaRep.sum_lt (h : MetaRep s live fs pg) :
    ((slabs s .metaCache).map fun d => (fs d).length).sum < 2 ^ 32 := by
  have hlen : (slabs s .metaCache).length ≤ 2 ^ 16 := by
    have hnd : ((slabs s .metaCache).map pg).Nodup := by
      refine List.Nodup.map_on (fun d hd d' hd' he => ?_) (h.inv.nodup .metaCache)
      exact (h.inv.same_page hd hd' he).1
    have hsub : (slabs s .metaCache).map pg ⊆ List.range (2 ^ 16) := by
      intro p hp
      obtain ⟨d, hd, rfl⟩ := List.mem_map.1 hp
      have hmap := (h.inv.slabOk _ d hd).page.2
      unfold page2va SLAB_SIZE KERNBASE at hmap
      exact List.mem_range.2 (by omega)
    simpa using (hnd.subperm hsub).length_le
  have hle : ((slabs s .metaCache).map fun d => (fs d).length).sum ≤
      (slabs s .metaCache).length * 107 := by
    have hmax := List.sum_le_card_nsmul ((slabs s .metaCache).map fun d => (fs d).length) 107 (by
      intro x hx
      obtain ⟨d, hd, rfl⟩ := List.mem_map.1 hx
      have hcount := (h.inv.slabOk _ d hd).count
      have hn : nObjsOf .metaCache = 107 := by decide
      omega)
    simpa using hmax
  omega

/-- **The chains are right** as long as the representation holds. -/
theorem MetaRep.chains (h : MetaRep s live fs pg) : MetaChains s live fs := by
  have hn := (h.inv.geom .metaCache).2
  have hslot : ∀ o ∈ live, ∃ d ∈ slabs s .metaCache, ∃ i, 0 < i ∧ i < nObjsOf .metaCache ∧
      o = slotAddr s .metaCache d i := by
    intro o ho
    obtain ⟨d, i, hu, hne, rfl⟩ := (h.used o).1 ho
    exact ⟨d, hu.1, i, Nat.pos_of_ne_zero hne, hu.2.1, rfl⟩
  have harray : ∀ d ∈ slabs s .metaCache, (s.slab d).objsDescArray = page2va (pg d) := by
    intro d hd
    rw [(h.inv.slabOk _ d hd).array, if_pos (by decide)]
  refine ⟨fun d hd => (h.inv.slabOk _ d hd).chain, fun d hd => (h.inv.slabOk _ d hd).nodup, ?_, ?_,
    fun d hd => by rw [hn]; exact (h.inv.slabOk _ d hd).count, ?_, ?_, ?_, ?_⟩
  · intro d hd i
    rw [hn]
    constructor
    · intro hi
      have hlt := (h.inv.slabOk _ d hd).bound i hi
      exact ⟨hlt, fun he => (h.inv.metaSelf d hd).2 (he ▸ hi),
        fun hmem => ((h.slot_mem_iff hd hlt).1 hmem).2 hi⟩
    · rintro ⟨hlt, hne, hnot⟩
      by_contra hi
      exact hnot ((h.slot_mem_iff hd hlt).2 ⟨hne, hi⟩)
  · exact fun d hd => ⟨h.self hd, h.desc_not_live hd⟩
  · rw [h.inv.freeObjects, Nat.mod_eq_of_lt h.sum_lt]
  -- where an object lies: behind the index array of its page
  · intro o ho
    obtain ⟨d, hd, i, hpos, hlt, rfl⟩ := hslot o ho
    obtain ⟨hlo, hhi⟩ := h.inv.slot_inside hd hlt
    have hoff : objsOffset .metaCache = 2 * nObjsOf .metaCache := by decide
    have ho := h.inv.slabOk _ d hd
    refine ⟨d, hd, pg d, ho.held, i, hpos, by rw [hn]; exact hlt, ho.lruPrev, rfl, harray d hd, ?_, hhi⟩
    rw [hn]
    omega
  · refine List.Pairwise.imp_of_mem (fun {o o'} ho ho' hne => ?_) h.nodup
    obtain ⟨d, hd, i, _, hlt, rfl⟩ := hslot o ho
    obtain ⟨d', hd', i', _, hlt', rfl⟩ := hslot o' ho'
    refine h.inv.slot_apart hd hd' hlt hlt' ?_
    rintro ⟨rfl, rfl⟩
    exact hne rfl
  -- and apart from the descriptors, which are in slot 0 of their own slabs
  · intro o ho d' hd'
    obtain ⟨d, hd, i, hpos, hlt, rfl⟩ := hslot o ho
    have hin := h.inv.slot_inside hd hlt
    have hoff : objsOffset .metaCache = 2 * nObjsOf .metaCache := by decide
    have hfit : 2 * nObjsOf .metaCache ≤ SLAB_SIZE := by decide
    rw [hn, harray d' hd']
    refine ⟨?_, ?_⟩
    · by_cases hp : pg d = pg d'
      · right
        rw [← hp]
        omega
      · exact apart_of_page_ne hp ⟨by omega, hin.2⟩ ⟨le_rfl, by omega⟩
    · rw [h.self hd']
      refine h.inv.slot_apart hd hd' hlt (by decide) ?_
      rintro ⟨_, rfl⟩
      exact absurd hpos (lt_irrefl 0)

/-! ## §3 The operations -/

/-- `find_slab`: the object is one in use from now on. -/
theorem MetaRep.take (h : MetaRep s live fs pg) {rest : List Nat} (hd : d ∈ slabs s .metaCache)
    (hfs : fs d = i :: rest) :
    MetaRep (takeObj s .metaCache d).2 ((takeObj s .metaCache d).1 :: live)
        (Function.update fs d rest) pg ∧
      ∀ c, slabs (takeObj s .metaCache d).2 c = slabs s c := by
  obtain ⟨haddr, hinv, hkeeps, hused, hslot⟩ := h.inv.takeObj hd hfs
  have hslabs : ∀ c, slabs (takeObj s .metaCache d).2 c = slabs s c := by
    intro c
    by_cases hc : c = .metaCache
    · subst hc
      simp [slabs, takeObj]
    · simp [slabs, takeObj, hc]
  have hi : i ∈ fs d := by rw [hfs]; exact List.mem_cons_self
  have hlt := (h.inv.slabOk _ d hd).bound i hi
  refine ⟨⟨hinv, fun k => by rw [hslabs, h.normal], fun a => ?_, ?_⟩, hslabs⟩
  · rw [List.mem_cons]
    constructor
    · rintro (rfl | ha)
      · exact ⟨d, i, hused, fun he => (h.inv.metaSelf d hd).2 (he ▸ hi), haddr.trans hslot.symm⟩
      · obtain ⟨d', i', hu, hne, rfl⟩ := (h.used a).1 ha
        obtain ⟨hu', heq⟩ := hkeeps _ d' i' hu
        exact ⟨d', i', hu', hne, heq.symm⟩
    · rintro ⟨d', i', hu, hne, rfl⟩
      by_cases hsame : d' = d ∧ i' = i
      · obtain ⟨rfl, rfl⟩ := hsame
        exact .inl (hslot.trans haddr.symm)
      · -- every other slot in use was in use before
        have hnot : i' ∉ fs d' := by
          have hnot' := hu.2.2
          by_cases hdd : d' = d
          · subst hdd
            rw [Function.update_self] at hnot'
            rw [hfs, List.mem_cons, not_or]
            exact ⟨fun he => hsame ⟨rfl, he⟩, hnot'⟩
          · rwa [Function.update_of_ne hdd] at hnot'
        have hu' : Used s fs .metaCache d' i' := ⟨hslabs .metaCache ▸ hu.1, hu.2.1, hnot⟩
        exact .inr ((h.used _).2 ⟨d', i', hu', hne, (hkeeps _ d' i' hu').2⟩)
  · rw [haddr]
    exact List.nodup_cons.2 ⟨fun hmem => ((h.slot_mem_iff hd hlt).1 hmem).2 hi, h.nodup⟩

/-- A new slab has its own descriptor in use and nothing else. -/
theorem MetaRep.grow (h : MetaRep s live fs pg) {pg' : Nat → Nat}
    (hfresh : ∀ c, d ∉ slabs s c)
    (hf : Follows s fs pg s' (Function.update fs d (freshChain .metaCache)) pg')
    (hslabs : ∀ c, slabs s' c = if c = .metaCache then slabs s c ++ [d] else slabs s c) :
    MetaRep s' live (Function.update fs d (freshChain .metaCache)) pg' := by
  refine ⟨hf.inv, fun k => ?_, fun a => ?_, h.nodup⟩
  · rw [hslabs, if_neg (by simp), h.normal]
  · rw [h.used]
    constructor
    · rintro ⟨d', i', hu, hne, rfl⟩
      obtain ⟨hu', heq⟩ := hf.keeps _ d' i' hu
      exact ⟨d', i', hu', hne, heq.symm⟩
    · rintro ⟨d', i', hu, hne, rfl⟩
      obtain ⟨hd', hlt, hnot⟩ := hu
      by_cases hdd : d' = d
      · -- all its objects but the first are free
        subst hdd
        rw [Function.update_self, freshChain, List.mem_range'_1] at hnot
        have hfirst : firstFree .metaCache = 1 := rfl
        omega
      · rw [hslabs, if_pos rfl] at hd'
        rw [Function.update_of_ne hdd] at hnot
        have hu : Used s fs .metaCache d' i' :=
          ⟨(List.mem_append.1 hd').resolve_right fun hm => hdd (List.mem_singleton.1 hm), hlt, hnot⟩
        exact ⟨d', i', hu, hne, (hf.keeps _ d' i' hu).2⟩

/-- The results of `alloc_page` do not concern the objects. -/
theorem MetaRep.congr (h : MetaRep s live fs pg) (hinv : Inv s' fs pg) (hcache : s'.cache = s.cache)
    (hslab : ∀ c, ∀ d ∈ slabs s c, s'.slab d = s.slab d) : MetaRep s' live fs pg := by
  have hkeeps : Keeps s fs s' fs := keeps_congr hcache hslab
  refine ⟨hinv, fun k => by rw [slabs_congr hcache, h.normal], fun a => ?_, h.nodup⟩
  rw [h.used]
  constructor
  · rintro ⟨d, i, hu, hne, rfl⟩
    obtain ⟨hu', heq⟩ := hkeeps _ d i hu
    exact ⟨d, i, hu', hne, heq.symm⟩
  · rintro ⟨d, i, hu, hne, rfl⟩
    have hu' : Used s fs .metaCache d i := ⟨slabs_congr hcache .metaCache ▸ hu.1, hu.2.1, hu.2.2⟩
    exact ⟨d, i, hu', hne, (hkeeps _ d i hu').2⟩

/-- **`kmem_cache_alloc(&meta_cache)`** fails, or returns an object nobody held. -/
theorem MetaRep.alloc (h : MetaRep s live fs pg) (hsup : SupplyOk s) :
    ∃ o s' fs' pg', allocSlabDesc s = .ok (o, s') ∧ MetaRep s' (o.toList ++ live) fs' pg' ∧
      slabs s .metaCache <+: slabs s' .metaCache := by
  unfold allocSlabDesc kmemCacheAllocBy
  by_cases hfo : 0 < (s.cache .metaCache).freeObjects
  · obtain ⟨d, i, rest, hpick, hd, hfs⟩ := pickSlab_meta h.inv hfo
    obtain ⟨hrep, hslabs⟩ := h.take hd hfs
    rw [if_pos hfo, hpick]
    refine ⟨some (takeObj s .metaCache d).1, (takeObj s .metaCache d).2, _, _, rfl, hrep, ?_⟩
    rw [hslabs]
  · rw [if_neg hfo]
    rcases cacheGrow_meta (fun s => .ok (none, s)) h.inv hsup with
      ⟨s₁, hok, hf, hcache⟩ | ⟨d, s₁, pg₁, hok, hfresh, hf, hslabs⟩
    · -- no page: the caches are as before
      rw [hok]
      refine ⟨none, s₁, fs, pg, rfl, ⟨hf.inv, fun k => by rw [slabs_congr hcache, h.normal],
        fun a => ?_, h.nodup⟩, by rw [slabs_congr hcache]⟩
      rw [Option.toList_none, List.nil_append, h.used]
      constructor
      · rintro ⟨d, i, hu, hne, rfl⟩
        obtain ⟨hu', heq⟩ := hf.keeps _ d i hu
        exact ⟨d, i, hu', hne, heq.symm⟩
      · rintro ⟨d, i, hu, hne, rfl⟩
        have hu' : Used s fs .metaCache d i :=
          ⟨slabs_congr hcache .metaCache ▸ hu.1, hu.2.1, hu.2.2⟩
        exact ⟨d, i, hu', hne, (hf.keeps _ d i hu').2⟩
    · rw [hok]
      have hd : d ∈ slabs s₁ .metaCache := by
        rw [hslabs, if_pos rfl]
        exact List.mem_append_right _ (List.mem_singleton.2 rfl)
      obtain ⟨rest, hrest⟩ := freshChain_cons .metaCache
      obtain ⟨hrep, hslabs'⟩ := (h.grow hfresh hf hslabs).take hd
        (by rw [Function.update_self]; exact hrest)
      refine ⟨some (takeObj s₁ .metaCache d).1, (takeObj s₁ .metaCache d).2, _, _, rfl, hrep, ?_⟩
      rw [hslabs', hslabs, if_pos rfl]
      exact List.prefix_append _ _

/-- **`kmem_cache_free`** of an object that a caller holds: the slab has its descriptor in use, so it is
    not destroyed. -/
theorem MetaRep.free (h : MetaRep s live fs pg) (hd : d ∈ slabs s .metaCache)
    (hi : i < nObjsOf .metaCache) (hlive : slotAddr s .metaCache d i ∈ live)
    (destroy : Nat → Kmem → Except Fault Kmem) :
    ∃ s', kmemCacheFreeBy destroy .metaCache d (slotAddr s .metaCache d i) s = .ok s' ∧
      MetaRep s' (live.erase (slotAddr s .metaCache d i)) (Function.update fs d (i :: fs d)) pg ∧
      slabs s' .metaCache = slabs s .metaCache := by
  obtain ⟨hpos, hnot⟩ := (h.slot_mem_iff hd hi).1 hlive
  have hu : Used s fs .metaCache d i := ⟨hd, hi, hnot⟩
  have hdesc : ∀ c', ∀ d' ∈ slabs s c', d' ≠ slotAddr s .metaCache d i := by
    intro c' d' hd' he
    exact h.desc_not_live hd' (he ▸ hlive)
  obtain ⟨hinv, hs⟩ := h.inv.putObj hu fun _ => hdesc
  have hd' : d ∈ slabs (putObj s .metaCache d (slotAddr s .metaCache d i)) .metaCache := by
    rw [hs.slabs_eq]
    exact hd
  -- slot 0 of the slab, the descriptor itself, stays in use
  have huse := hinv.nInuse_pos ⟨hd', by decide, (hinv.metaSelf d hd').2⟩
  have hslot : ∀ {d' i'}, d' ∈ slabs s .metaCache →
      slotAddr (putObj s .metaCache d (slotAddr s .metaCache d i)) .metaCache d' i' =
        slotAddr s .metaCache d' i' := by
    intro d' i' hmem
    rw [slotAddr, hs.first_eq hmem]
    rfl
  refine ⟨_, if_neg (Nat.ne_of_gt huse), ⟨hinv, fun k => by rw [hs.slabs_eq, h.normal],
    fun a => ?_, h.nodup.erase _⟩, hs.slabs_eq _⟩
  rw [h.nodup.mem_erase_iff, h.used]
  constructor
  · rintro ⟨hne, d', i', hu', hne', rfl⟩
    refine ⟨d', i', ⟨by rw [hs.slabs_eq]; exact hu'.1, hu'.2.1, ?_⟩, hne', (hslot hu'.1).symm⟩
    by_cases hdd : d' = d
    · subst hdd
      rw [Function.update_self, List.mem_cons, not_or]
      exact ⟨fun he => hne (by rw [he]), hu'.2.2⟩
    · rw [Function.update_of_ne hdd]
      exact hu'.2.2
  · rintro ⟨d', i', hu', hne', rfl⟩
    obtain ⟨hmem, hlt, hnot'⟩ := hu'
    rw [hs.slabs_eq] at hmem
    rw [hslot hmem]
    by_cases hdd : d' = d
    · subst hdd
      rw [Function.update_self, List.mem_cons, not_or] at hnot'
      refine ⟨fun heq => hnot'.1 (h.inv.slot_inj hmem hd hlt hi heq).2, d', i',
        ⟨hmem, hlt, hnot'.2⟩, hne', rfl⟩
    · rw [Function.update_of_ne hdd] at hnot'
      exact ⟨fun heq => hdd (h.inv.slot_inj hmem hd hlt hi heq).1, d', i', ⟨hmem, hlt, hnot'⟩, hne', rfl⟩

end Rep

/-! ## §4 Runs -/

/-- **One call** keeps the representation and is sound. -/
theorem metaStep_sound {r : MetaRun} {o : MetaOp} (hrep : ∃ fs pg, MetaRep r.kmem r.live fs pg)
    (hok : MetaOk r o) :
    ∃ r', metaStep r o = .ok r' ∧ MetaSound r o r' ∧ ∃ fs pg, MetaRep r'.kmem r'.live fs pg := by
  obtain ⟨fs, pg, h⟩ := hrep
  cases o with
  | alloc supply =>
    have h₁ : MetaRep { r.kmem with supply := supply } r.live fs pg :=
      h.congr (h.inv.setSupply supply) rfl fun _ _ _ => rfl
    obtain ⟨a, s', fs', pg', hcall, hrep', hpre⟩ := h₁.alloc hok
    refine ⟨⟨s', a.toList ++ r.live⟩, ?_, ⟨⟨fs', hrep'.chains⟩, hpre, fun hfo => ?_⟩, fs', pg', hrep'⟩
    · simp only [metaStep, hcall, bind, Except.bind]
      rfl
    · obtain ⟨d, i, rest, hpick, hd, hfs⟩ := pickSlab_meta h.inv hfo
      refine ⟨d, hd, hpick, ?_⟩
      have hlt := (h.inv.slabOk _ d hd).bound i (by rw [hfs]; exact List.mem_cons_self)
      have hchain := (h.inv.slabOk _ d hd).chain
      have hn : nObjsOf .metaCache = 107 := by decide
      rw [hfs] at hchain
      rw [hchain.1, BUFCTL_END]
      omega
  | free slabp objp =>
    obtain ⟨hlive, p, hp, hslab⟩ := hok
    obtain ⟨d, i, hu, _, rfl⟩ := (h.used objp).1 hlive
    obtain ⟨hlo, hhi⟩ := h.inv.slot_inside hu.1 hu.2.1
    have hsize := (layout .metaCache).1
    rw [va2page_of_mem (h.inv.slabOk _ d hu.1).page (by omega) (by omega)] at hp
    -- the slab that `kmem_cache_free` finds by the page is that of the object
    obtain rfl : pg d = p := Option.some.inj hp
    obtain rfl : d = slabp := (h.inv.slabOk _ d hu.1).lruPrev.symm.trans hslab
    obtain ⟨s', hcall, hrep', hslabs⟩ := h.free hu.1 hu.2.1 hlive (slabDestroy destroySlabDesc)
    refine ⟨⟨s', r.live.erase (slotAddr r.kmem .metaCache d i)⟩, ?_,
      ⟨⟨_, hrep'.chains⟩, by rw [hslabs], trivial⟩, _, pg, hrep'⟩
    simp only [metaStep, hcall, bind, Except.bind]
    rfl
  | write objp v =>
    -- the callers' objects are no descriptors of slabs
    have hne : ∀ c, ∀ d ∈ slabs r.kmem c,
        Function.update r.kmem.slab objp v d = r.kmem.slab d := by
      intro c d hd
      have hdo : d ≠ objp := fun he => h.desc_not_live hd (by rw [he]; exact hok)
      exact Function.update_of_ne hdo _ _
    have hinv : Inv { r.kmem with slab := Function.update r.kmem.slab objp v } fs pg :=
      h.inv.congr rfl hne (fun _ _ _ => rfl) (fun c d hd => (h.inv.slabOk c d hd).held) rfl
    have hrep' := h.congr hinv rfl hne
    exact ⟨_, rfl, ⟨⟨fs, hrep'.chains⟩, List.prefix_rfl, trivial⟩, fs, pg, hrep'⟩

/-- **The cache of slab descriptors is sound**: from `slab_init` on, with any contents of memory, every
    sequence of allocations from `meta_cache`, writes to objects and releases of live objects keeps
    every chain acyclic, ended and equal to the free indices, the counts right, and the objects apart
    from each other, from the descriptors and from the index arrays; the slab that is picked has a free
    object, and no slab is destroyed. -/
theorem metaCache_sound (npagesNum : Nat) (slab : Nat → SlabDesc) (page : Nat → Page)
    (ops : List MetaOp) (hops : Meets metaStep MetaOk ⟨slabInit npagesNum slab page, []⟩ ops) :
    Along metaStep MetaSound ⟨slabInit npagesNum slab page, []⟩ ops := by
  obtain ⟨fs, pg, hinv, _⟩ := slabInit_inv npagesNum slab page
  refine along_of_meets (fun r => ∃ fs pg, MetaRep r.kmem r.live fs pg)
    (fun r o hrep hok => metaStep_sound hrep hok) ⟨fs, pg, hinv, fun _ => rfl, fun a => ?_, List.nodup_nil⟩
    hops
  refine iff_of_false List.not_mem_nil ?_
  rintro ⟨d, i, hu, _⟩
  exact absurd hu.1 List.not_mem_nil

instance decidableMetaOk (r : MetaRun) : ∀ o : MetaOp, Decidable (MetaOk r o)
  | .alloc supply => inferInstanceAs (Decidable (((supply.filterMap id).map Prod.fst).Nodup ∧
      ∀ p ∈ (supply.filterMap id).map Prod.fst,
        (p < r.kmem.npagesNum ∧ page2va p + SLAB_SIZE ≤ 2 ^ 32) ∧ p ∉ r.kmem.held))
  | .free slabp objp => inferInstanceAs (Decidable (objp ∈ r.live ∧
      ∃ p ∈ va2page r.kmem objp, (r.kmem.page p).lruPrev = slabp))
  | .write objp _ => inferInstanceAs (Decidable (objp ∈ r.live))

/-- Two objects are taken from a new slab, the first one is written to and released, and taken again. -/
theorem metaCache_sound_reuse : Along metaStep MetaSound
    ⟨slabInit 64 (fun _ => zeroSlab) (fun _ => ⟨false, false, none, 0⟩), []⟩
    [.alloc [some (10, false)], .alloc [], .write (page2va 10 + 214 + 36) ⟨1, 2, 3, 4, fun _ => 5⟩,
      .free (page2va 10 + 214) (page2va 10 + 214 + 36), .alloc [none]] :=
  metaCache_sound 64 _ _ _ (by decide +kernel)

end WeiOS.Slab
