import Mathlib
import WeiOS.Lib.Run
import WeiOS.Mm.Slab

/-!
# No Overlapping Objects

The invariant of the slab allocator and the exact condition under which `kmalloc` keeps it.

Every slab has a chain of free object indices, which determines `n_inuse` and, summed over the
slabs of a cache, `free_objects`. The descriptor of a slab is an object of `meta_cache` that is not
free. `kmem_cache_alloc` trusts `free_objects` to mean that the last slab on `slabs_empty` has a
free object; slabs are never moved off that list, so after a `kfree` into an older slab the last
one may be exhausted, and its `free` is `BUFCTL_END`.

## Main results
- `Inv.slot_apart`: different slots never overlap.
- `kmemCacheAlloc_spec`, `kfree_spec`: what the two operations do to the slots in use.
- `noOverlap_of_lastSlabFree`: runs in which the picked slab always has a free object never give out
  overlapping memory.
-/

namespace WeiOS.Slab

open WeiOS.Lib

/-! ## §1 Layout of a slab -/

/-- Number of objects of a slab. -/
def nObjsOf (c : CacheId) : Nat := (kmemCacheInit (objSizeOf c)).nObjsPerSlab

/-- Offset of the first object in its page: behind the index array, where that is on the page. -/
def objsOffset (c : CacheId) : Nat := if objSizeOf c < 512 then nObjsOf c * 2 else 0

/-- Index array and objects fit into a page; an index array outside it fits the descriptor. -/
theorem layout (c : CacheId) :
    0 < objSizeOf c ∧ objSizeOf c ≤ 4096 ∧ 0 < nObjsOf c ∧ nObjsOf c ≤ 120 ∧
      objsOffset c + nObjsOf c * objSizeOf c ≤ 4096 ∧ (¬ objSizeOf c < 512 → nObjsOf c ≤ 8) := by
  cases c with
  | metaCache => decide
  | normalCache i =>
    revert i
    decide

/-- Address of object `i` of slab `d`. -/
def slotAddr (s : Kmem) (c : CacheId) (d i : Nat) : Nat :=
  (s.slab d).firstObjMem + i * objSizeOf c

/-- `va2page` of an address on page `p`. -/
theorem va2page_of_mem {s : Kmem} {p a : Nat} (hp : Mapped s.npagesNum p) (hlo : page2va p ≤ a)
    (hhi : a < page2va p + SLAB_SIZE) : va2page s a = some p := by
  have hp := hp.1
  unfold page2va at hlo hhi
  have hdiv : (a - KERNBASE) / SLAB_SIZE = p := by
    unfold SLAB_SIZE at *
    omega
  unfold va2page
  split_ifs with h1 h2
  · omega
  · omega
  · rw [hdiv]

/-- The loop of `kmalloc` ends with a large enough size, within its eight rounds. -/
theorem cacheIdxLoop_spec {size : Nat} (hsize : size ≤ SLAB_SIZE) :
    cacheIdxLoop size 8 0 32 ≤ 7 ∧ size ≤ 32 * 2 ^ cacheIdxLoop size 8 0 32 := by
  unfold SLAB_SIZE at hsize
  simp only [cacheIdxLoop]
  split_ifs <;> omega

/-- The cache that `kmalloc` picks has large enough objects. -/
theorem le_objSizeOf_cacheIdx {size : Nat} (hsize : size ≤ SLAB_SIZE) (gfpFlags : Nat) :
    size ≤ objSizeOf (.normalCache (cacheIdx size gfpFlags)) := by
  obtain ⟨hle, hfit⟩ := cacheIdxLoop_spec hsize
  have hmod : (cacheIdx size gfpFlags).val % (NKMEMCACHE / 2) = cacheIdxLoop size 8 0 32 := by
    simp only [cacheIdx, NKMEMCACHE]
    split <;> omega
  rw [objSizeOf, hmod]
  exact hfit

/-! ## §2 Chains of free objects -/

/-- Following `next` from `f` gives the indices `fs` and then the end mark. -/
def Chain (next : Nat → Nat) : Nat → List Nat → Prop
  | f, [] => f = BUFCTL_END
  | f, i :: is => f = i ∧ Chain next (next i) is

theorem Chain.congr {next next' : Nat → Nat} {f : Nat} {fs : List Nat} (h : Chain next f fs)
    (heq : ∀ i ∈ fs, next' i = next i) : Chain next' f fs := by
  induction fs generalizing f with
  | nil => exact h
  | cons i is ih =>
    refine ⟨h.1, ?_⟩
    rw [heq i List.mem_cons_self]
    exact ih h.2 (fun j hj => heq j (List.mem_cons_of_mem _ hj))

/-- Putting an object back in front of the chain. -/
theorem Chain.put {next : Nat → Nat} {f i : Nat} {fs : List Nat} (h : Chain next f fs)
    (hi : i ∉ fs) : Chain (Function.update next i f) i (i :: fs) := by
  refine ⟨rfl, ?_⟩
  rw [Function.update_self]
  refine h.congr fun j hj => ?_
  have : j ≠ i := fun he => hi (he ▸ hj)
  simp [this]

/-- The chain that `cache_grow` writes, from index `k` on. -/
theorem chain_range' {next : Nat → Nat} {n : Nat} (hlast : next (n - 1) = BUFCTL_END)
    (hnext : ∀ i < n - 1, next i = i + 1) (m k : Nat) (hk : k + m + 1 = n) :
    Chain next k (List.range' k (m + 1)) := by
  induction m generalizing k with
  | zero =>
    refine ⟨rfl, ?_⟩
    have : k = n - 1 := by omega
    rw [this]
    exact hlast
  | succ m ih =>
    rw [List.range'_succ]
    refine ⟨rfl, ?_⟩
    rw [hnext k (by omega)]
    exact ih (k + 1) (by omega)

/-- A slab with an exhausted chain is the one with the end mark. -/
theorem Chain.exists_cons {next : Nat → Nat} {f : Nat} {fs : List Nat} (h : Chain next f fs)
    (hf : f ≠ BUFCTL_END) : ∃ rest, fs = f :: rest ∧ Chain next (next f) rest := by
  cases fs with
  | nil => exact absurd h hf
  | cons i rest =>
    obtain ⟨rfl, hrest⟩ := h
    exact ⟨rest, rfl, hrest⟩

/-! ## §3 The invariant -/

/-- Slab `d` of cache `c` lives on page `p` and has the free indices `fs`. -/
structure SlabOk (s : Kmem) (c : CacheId) (d : Nat) (fs : List Nat) (p : Nat) : Prop where
  held : p ∈ s.held
  page : Mapped s.npagesNum p
  inSlab : (s.page p).inSlab = true
  lruNext : (s.page p).lruNext = some c
  lruPrev : (s.page p).lruPrev = d
  first : (s.slab d).firstObjMem = page2va p + objsOffset c
  array : (s.slab d).objsDescArray =
    if objSizeOf c < 512 then page2va p else d + offsetofObjsDesc
  chain : Chain (s.slab d).objsDesc (s.slab d).free fs
  nodup : fs.Nodup
  bound : ∀ i ∈ fs, i < nObjsOf c
  count : (s.slab d).nInuse + fs.length = nObjsOf c

/-- The invariant, with the free indices `fs` and the page `pg` of each slab. -/
structure Inv (s : Kmem) (fs : Nat → List Nat) (pg : Nat → Nat) : Prop where
  geom : ∀ c, (s.cache c).objSize = objSizeOf c ∧ (s.cache c).nObjsPerSlab = nObjsOf c
  metaEmpty : (s.cache .metaCache).slabsEmpty = []
  normalPartitial : ∀ i, (s.cache (.normalCache i)).slabsPartitial = []
  nodup : ∀ c, (slabs s c).Nodup
  slabOk : ∀ c, ∀ d ∈ slabs s c, SlabOk s c d (fs d) (pg d)
  freeObjects : ∀ c, (s.cache c).freeObjects =
    ((slabs s c).map fun d => (fs d).length).sum % 2 ^ 32
  metaSelf : ∀ m ∈ slabs s .metaCache, m = (s.slab m).firstObjMem ∧ 0 ∉ fs m
  descUsed : ∀ c, ∀ d ∈ slabs s c, ∃ m ∈ slabs s .metaCache, ∃ j < nObjsOf .metaCache,
    j ∉ fs m ∧ d = slotAddr s .metaCache m j

/-- Object `i` of slab `d` is in use. -/
def Used (s : Kmem) (fs : Nat → List Nat) (c : CacheId) (d i : Nat) : Prop :=
  d ∈ slabs s c ∧ i < nObjsOf c ∧ i ∉ fs d

section Geometry

variable {s : Kmem} {fs : Nat → List Nat} {pg : Nat → Nat}

/-- A slot lies in the page of its slab, behind an index array on that page. -/
theorem Inv.slot_inside (h : Inv s fs pg) {c : CacheId} {d i : Nat} (hd : d ∈ slabs s c)
    (hi : i < nObjsOf c) :
    page2va (pg d) + objsOffset c ≤ slotAddr s c d i ∧
      slotAddr s c d i + objSizeOf c ≤ page2va (pg d) + SLAB_SIZE := by
  have hfirst := (h.slabOk c d hd).first
  obtain ⟨_, _, _, _, hfit, _⟩ := layout c
  unfold slotAddr SLAB_SIZE
  rw [hfirst]
  have : (i + 1) * objSizeOf c ≤ nObjsOf c * objSizeOf c := Nat.mul_le_mul_right _ hi
  rw [Nat.add_mul, Nat.one_mul] at this
  omega

/-- Addresses of slots are 32-bit addresses. -/
theorem Inv.slot_lt (h : Inv s fs pg) {c : CacheId} {d i : Nat} (hd : d ∈ slabs s c)
    (hi : i < nObjsOf c) : slotAddr s c d i < 2 ^ 32 := by
  have hin := (h.slot_inside hd hi).2
  have hpos := (layout c).1
  have hp := (h.slabOk c d hd).page.2
  omega

/-- A page belongs to one slab, and a slab to one cache. -/
theorem Inv.same_page (h : Inv s fs pg) {c c' : CacheId} {d d' : Nat} (hd : d ∈ slabs s c)
    (hd' : d' ∈ slabs s c') (hp : pg d = pg d') : d = d' ∧ c = c' := by
  have ho := h.slabOk c d hd
  have ho' := h.slabOk c' d' hd'
  refine ⟨?_, ?_⟩
  · rw [← ho.lruPrev, hp, ho'.lruPrev]
  · have := ho.lruNext
    rw [hp, ho'.lruNext] at this
    exact (Option.some.inj this).symm

theorem Inv.cache_unique (h : Inv s fs pg) {c c' : CacheId} {d : Nat} (hd : d ∈ slabs s c)
    (hd' : d ∈ slabs s c') : c = c' :=
  (h.same_page hd hd' rfl).2

/-- What lies in two different pages does not overlap. -/
theorem apart_of_page_ne {p p' a n b m : Nat} (hp : p ≠ p')
    (ha : page2va p ≤ a ∧ a + n ≤ page2va p + SLAB_SIZE)
    (hb : page2va p' ≤ b ∧ b + m ≤ page2va p' + SLAB_SIZE) : Apart a n b m := by
  unfold page2va SLAB_SIZE at *
  unfold Apart
  omega

/-- **Different slots never overlap.** -/
theorem Inv.slot_apart (h : Inv s fs pg) {c c' : CacheId} {d d' i i' : Nat} (hd : d ∈ slabs s c)
    (hd' : d' ∈ slabs s c') (hi : i < nObjsOf c) (hi' : i' < nObjsOf c')
    (hne : ¬ (d = d' ∧ i = i')) :
    Apart (slotAddr s c d i) (objSizeOf c) (slotAddr s c' d' i') (objSizeOf c') := by
  have hin := h.slot_inside hd hi
  have hin' := h.slot_inside hd' hi'
  by_cases hp : pg d = pg d'
  · -- the same slab: the indices differ
    obtain ⟨rfl, rfl⟩ := h.same_page hd hd' hp
    have hii : i ≠ i' := fun he => hne ⟨rfl, he⟩
    unfold Apart slotAddr
    rcases Nat.lt_or_gt_of_ne hii with hlt | hlt
    · left
      have : (i + 1) * objSizeOf c ≤ i' * objSizeOf c := Nat.mul_le_mul_right _ hlt
      rw [Nat.add_mul, Nat.one_mul] at this
      omega
    · right
      have : (i' + 1) * objSizeOf c ≤ i * objSizeOf c := Nat.mul_le_mul_right _ hlt
      rw [Nat.add_mul, Nat.one_mul] at this
      omega
  · exact apart_of_page_ne hp ⟨by omega, hin.2⟩ ⟨by omega, hin'.2⟩

/-- A slot address names its slab and index. -/
theorem Inv.slot_inj (h : Inv s fs pg) {c c' : CacheId} {d d' i i' : Nat} (hd : d ∈ slabs s c)
    (hd' : d' ∈ slabs s c') (hi : i < nObjsOf c) (hi' : i' < nObjsOf c')
    (heq : slotAddr s c d i = slotAddr s c' d' i') : d = d' ∧ i = i' := by
  by_contra hne
  have hap := h.slot_apart hd hd' hi hi' hne
  have hpos := (layout c).1
  have hpos' := (layout c').1
  unfold Apart at hap
  omega

/-- A free slot of `meta_cache` is not the descriptor of a slab. -/
theorem Inv.desc_ne_free (h : Inv s fs pg) {m j : Nat} (hm : m ∈ slabs s .metaCache)
    (hj : j ∈ fs m) {c : CacheId} {d : Nat} (hd : d ∈ slabs s c) :
    d ≠ slotAddr s .metaCache m j := by
  rintro rfl
  obtain ⟨m', hm', j', hlt', hj', heq⟩ := h.descUsed c _ hd
  obtain ⟨rfl, rfl⟩ := h.slot_inj hm hm' ((h.slabOk _ m hm).bound j hj) hlt' heq
  exact hj' hj

/-- The descriptor of a slab lies on a page of `meta_cache`. -/
theorem Inv.desc_page (h : Inv s fs pg) {c : CacheId} {d : Nat} (hd : d ∈ slabs s c) :
    ∃ m ∈ slabs s .metaCache, page2va (pg m) ≤ d ∧ d + sizeofSlab ≤ page2va (pg m) + SLAB_SIZE := by
  obtain ⟨m, hm, j, hj, _, rfl⟩ := h.descUsed c _ hd
  have hin := h.slot_inside hm hj
  exact ⟨m, hm, by omega, hin.2⟩

/-- A slot of a normal cache overlaps no index array. -/
theorem Inv.slot_apart_array (h : Inv s fs pg) {k : Fin NKMEMCACHE} {c' : CacheId} {d d' i : Nat}
    (hd : d ∈ slabs s (.normalCache k)) (hi : i < nObjsOf (.normalCache k))
    (hd' : d' ∈ slabs s c') :
    Apart (slotAddr s (.normalCache k) d i) (objSizeOf (.normalCache k))
      (s.slab d').objsDescArray (2 * nObjsOf c') := by
  have hin := h.slot_inside hd hi
  have harr := (h.slabOk c' d' hd').array
  obtain ⟨hpos, _, _, _, hfit, hbig⟩ := layout c'
  by_cases hsmall : objSizeOf c' < 512
  · rw [if_pos hsmall] at harr
    rw [harr]
    have hoff : objsOffset c' = nObjsOf c' * 2 := if_pos hsmall
    by_cases hp : pg d = pg d'
    · obtain ⟨rfl, rfl⟩ := h.same_page hd hd' hp
      right
      rw [hoff] at hin
      omega
    · refine apart_of_page_ne hp ⟨by omega, hin.2⟩ ⟨le_rfl, ?_⟩
      unfold SLAB_SIZE
      omega
  · -- the array is inside the descriptor, and that is on a page of `meta_cache`
    rw [if_neg hsmall] at harr
    rw [harr]
    obtain ⟨m, hm, hlo, hhi⟩ := h.desc_page hd'
    have hp : pg d ≠ pg m := by
      intro hp
      have := (h.same_page hd hm hp).2
      cases this
    have := hbig hsmall
    unfold sizeofSlab at hhi
    refine apart_of_page_ne hp ⟨by omega, hin.2⟩ ⟨by omega, ?_⟩
    unfold offsetofObjsDesc
    omega

/-- A slot of a normal cache overlaps no descriptor. -/
theorem Inv.slot_apart_desc (h : Inv s fs pg) {k : Fin NKMEMCACHE} {c' : CacheId} {d d' i : Nat}
    (hd : d ∈ slabs s (.normalCache k)) (hi : i < nObjsOf (.normalCache k))
    (hd' : d' ∈ slabs s c') :
    Apart (slotAddr s (.normalCache k) d i) (objSizeOf (.normalCache k)) d' sizeofSlab := by
  obtain ⟨m, hm, j, hj, _, rfl⟩ := h.descUsed c' _ hd'
  refine h.slot_apart hd hm hi hj ?_
  rintro ⟨rfl, _⟩
  have := h.cache_unique hd hm
  cases this

end Geometry

/-! ## §4 Changes that keep the invariant -/

section Changes

variable {s s' : Kmem} {fs : Nat → List Nat} {pg : Nat → Nat}

theorem SlabOk.congr {c : CacheId} {d p : Nat} {f : List Nat} (h : SlabOk s c d f p)
    (hslab : s'.slab d = s.slab d) (hpage : s'.page p = s.page p) (hheld : p ∈ s'.held)
    (hn : s'.npagesNum = s.npagesNum) : SlabOk s' c d f p where
  held := hheld
  page := hn ▸ h.page
  inSlab := by rw [hpage]; exact h.inSlab
  lruNext := by rw [hpage]; exact h.lruNext
  lruPrev := by rw [hpage]; exact h.lruPrev
  first := by rw [hslab]; exact h.first
  array := by rw [hslab]; exact h.array
  chain := by rw [hslab]; exact h.chain
  nodup := h.nodup
  bound := h.bound
  count := by rw [hslab]; exact h.count

theorem slabs_congr (hcache : s'.cache = s.cache) (c : CacheId) : slabs s' c = slabs s c := by
  simp [slabs, hcache]

/-- Only the descriptors of the slabs and their pages matter. -/
theorem Inv.congr (h : Inv s fs pg) (hcache : s'.cache = s.cache)
    (hslab : ∀ c, ∀ d ∈ slabs s c, s'.slab d = s.slab d)
    (hpage : ∀ c, ∀ d ∈ slabs s c, s'.page (pg d) = s.page (pg d))
    (hheld : ∀ c, ∀ d ∈ slabs s c, pg d ∈ s'.held)
    (hn : s'.npagesNum = s.npagesNum) : Inv s' fs pg where
  geom := hcache ▸ h.geom
  metaEmpty := hcache ▸ h.metaEmpty
  normalPartitial := hcache ▸ h.normalPartitial
  nodup := fun c => slabs_congr hcache c ▸ h.nodup c
  slabOk := fun c d hd => by
    rw [slabs_congr hcache] at hd
    exact (h.slabOk c d hd).congr (hslab c d hd) (hpage c d hd) (hheld c d hd) hn
  freeObjects := fun c => by
    rw [slabs_congr hcache, hcache]
    exact h.freeObjects c
  metaSelf := fun m hm => by
    rw [slabs_congr hcache] at hm
    rw [hslab _ m hm]
    exact h.metaSelf m hm
  descUsed := fun c d hd => by
    rw [slabs_congr hcache] at hd
    obtain ⟨m, hm, j, hj, hnot, heq⟩ := h.descUsed c d hd
    refine ⟨m, by rw [slabs_congr hcache]; exact hm, j, hj, hnot, ?_⟩
    rw [slotAddr, hslab _ m hm]
    exact heq

/-- A slot in use stays in use, at its address. -/
def Keeps (s : Kmem) (fs : Nat → List Nat) (s' : Kmem) (fs' : Nat → List Nat) : Prop :=
  ∀ c d i, Used s fs c d i → Used s' fs' c d i ∧ slotAddr s' c d i = slotAddr s c d i

theorem Keeps.trans {s'' : Kmem} {fs' fs'' : Nat → List Nat} (h : Keeps s fs s' fs')
    (h' : Keeps s' fs' s'' fs'') : Keeps s fs s'' fs'' := by
  intro c d i hu
  obtain ⟨hu', heq⟩ := h c d i hu
  obtain ⟨hu'', heq'⟩ := h' c d i hu'
  exact ⟨hu'', heq'.trans heq⟩

theorem keeps_congr (hcache : s'.cache = s.cache)
    (hslab : ∀ c, ∀ d ∈ slabs s c, s'.slab d = s.slab d) : Keeps s fs s' fs := by
  intro c d i hu
  refine ⟨⟨by rw [slabs_congr hcache]; exact hu.1, hu.2⟩, ?_⟩
  rw [slotAddr, hslab c d hu.1]
  rfl

/-- Changing the number of free indices of one slab in a sum over distinct slabs. -/
theorem sum_length_update (fs : Nat → List Nat) {l : List Nat} (hnd : l.Nodup) {d : Nat}
    (hd : d ∈ l) (f : List Nat) :
    (l.map fun x => (Function.update fs d f x).length).sum + (fs d).length =
      (l.map fun x => (fs x).length).sum + f.length := by
  induction l with
  | nil => cases hd
  | cons a l ih =>
    obtain ⟨hna, hnd⟩ := List.nodup_cons.1 hnd
    simp only [List.map_cons, List.sum_cons]
    by_cases had : a = d
    · subst had
      have : (l.map fun x => (Function.update fs a f x).length) =
          l.map fun x => (fs x).length := by
        refine List.map_congr_left fun x hx => ?_
        have : x ≠ a := fun he => hna (he ▸ hx)
        simp [this]
      rw [this, Function.update_self]
      omega
    · have hdl : d ∈ l := (List.mem_cons.1 hd).resolve_left (fun he => had he.symm)
      have := ih hnd hdl
      rw [Function.update_of_ne had]
      omega

/-- `s'` differs from `s` in the chain of slab `d` of cache `c`, and in what is no slab. -/
structure SetsFree (s s' : Kmem) (c : CacheId) (d fo : Nat) : Prop where
  cache : s'.cache = Function.update s.cache c { s.cache c with freeObjects := fo }
  first : (s'.slab d).firstObjMem = (s.slab d).firstObjMem
  array : (s'.slab d).objsDescArray = (s.slab d).objsDescArray
  other : ∀ c', ∀ d' ∈ slabs s c', d' ≠ d → s'.slab d' = s.slab d'
  page : s'.page = s.page
  held : s'.held = s.held
  npages : s'.npagesNum = s.npagesNum

section SetsFree

variable {c : CacheId} {d fo : Nat}

theorem SetsFree.slabs_eq (hs : SetsFree s s' c d fo) (c' : CacheId) :
    slabs s' c' = slabs s c' := by
  unfold slabs
  rw [hs.cache]
  by_cases hc : c' = c
  · subst hc
    simp
  · simp [hc]

theorem SetsFree.first_eq (hs : SetsFree s s' c d fo) {c' : CacheId} {d' : Nat}
    (hd' : d' ∈ slabs s c') : (s'.slab d').firstObjMem = (s.slab d').firstObjMem := by
  by_cases hdd : d' = d
  · rw [hdd]
    exact hs.first
  · rw [hs.other c' d' hd' hdd]

/-- A new chain of free objects for one slab: the counts follow it, and no descriptor becomes
    free. -/
theorem Inv.setFree (h : Inv s fs pg) (hd : d ∈ slabs s c) (hs : SetsFree s s' c d fo)
    {f : List Nat} (hchain : Chain (s'.slab d).objsDesc (s'.slab d).free f) (hnodup : f.Nodup)
    (hbound : ∀ i ∈ f, i < nObjsOf c) (hcount : (s'.slab d).nInuse + f.length = nObjsOf c)
    (hfo : fo < 2 ^ 32 ∧ (fo + (fs d).length) % 2 ^ 32 =
      ((s.cache c).freeObjects + f.length) % 2 ^ 32)
    (hmeta : c = .metaCache → ∀ j ∈ f, ∀ c', ∀ d' ∈ slabs s c',
      d' ≠ slotAddr s .metaCache d j) :
    Inv s' (Function.update fs d f) pg where
  geom := fun c' => by
    rw [hs.cache]
    by_cases hc : c' = c
    · subst hc
      simpa using h.geom c'
    · simpa [hc] using h.geom c'
  metaEmpty := by
    rw [hs.cache]
    by_cases hc : .metaCache = c
    · subst hc
      simpa using h.metaEmpty
    · simpa [hc] using h.metaEmpty
  normalPartitial := fun i => by
    rw [hs.cache]
    by_cases hc : .normalCache i = c
    · subst hc
      simpa using h.normalPartitial i
    · simpa [hc] using h.normalPartitial i
  nodup := fun c' => hs.slabs_eq c' ▸ h.nodup c'
  slabOk := fun c' d' hd' => by
    rw [hs.slabs_eq] at hd'
    have ho := h.slabOk c' d' hd'
    by_cases hdd : d' = d
    · subst hdd
      obtain rfl := h.cache_unique hd hd'
      rw [Function.update_self]
      exact ⟨hs.held ▸ ho.held, hs.npages ▸ ho.page, hs.page ▸ ho.inSlab, hs.page ▸ ho.lruNext,
        hs.page ▸ ho.lruPrev, hs.first ▸ ho.first, hs.array ▸ ho.array, hchain, hnodup, hbound,
        hcount⟩
    · rw [Function.update_of_ne hdd]
      exact ho.congr (hs.other c' d' hd' hdd) (by rw [hs.page]) (hs.held ▸ ho.held) hs.npages
  freeObjects := fun c' => by
    rw [hs.slabs_eq, hs.cache]
    by_cases hc : c' = c
    · subst hc
      have hsum := sum_length_update fs (h.nodup c') hd f
      have hold := h.freeObjects c'
      rw [Function.update_self]
      show fo = _
      omega
    · rw [Function.update_of_ne hc, h.freeObjects c']
      congr 2
      refine List.map_congr_left fun x hx => ?_
      have : x ≠ d := fun he => hc (h.cache_unique hx (he ▸ hd))
      simp [this]
  metaSelf := fun m hm => by
    rw [hs.slabs_eq] at hm
    obtain ⟨hself, hzero⟩ := h.metaSelf m hm
    refine ⟨by rw [hs.first_eq hm]; exact hself, ?_⟩
    by_cases hmd : m = d
    · subst hmd
      rw [Function.update_self]
      intro h0
      refine hmeta (h.cache_unique hd hm) 0 h0 _ m hm ?_
      simpa [slotAddr] using hself
    · rw [Function.update_of_ne hmd]
      exact hzero
  descUsed := fun c' d' hd' => by
    rw [hs.slabs_eq] at hd'
    obtain ⟨m, hm, j, hj, hnot, heq⟩ := h.descUsed c' d' hd'
    refine ⟨m, by rw [hs.slabs_eq]; exact hm, j, hj, ?_, by
      rw [slotAddr, hs.first_eq hm]; exact heq⟩
    by_cases hmd : m = d
    · subst hmd
      rw [Function.update_self]
      exact fun hjf => hmeta (h.cache_unique hd hm) j hjf c' d' hd' heq
    · rw [Function.update_of_ne hmd]
      exact hnot

/-- Slots in use stay in use, unless they are on the new chain. -/
theorem SetsFree.used (hs : SetsFree s s' c d fo) {f : List Nat} {c' : CacheId} {d' i : Nat}
    (hu : Used s fs c' d' i) (hnot : d' = d → i ∉ f) :
    Used s' (Function.update fs d f) c' d' i ∧ slotAddr s' c' d' i = slotAddr s c' d' i := by
  refine ⟨⟨by rw [hs.slabs_eq]; exact hu.1, hu.2.1, ?_⟩, ?_⟩
  · by_cases hdd : d' = d
    · subst hdd
      rw [Function.update_self]
      exact hnot rfl
    · rw [Function.update_of_ne hdd]
      exact hu.2.2
  · rw [slotAddr, hs.first_eq hu.1]
    rfl

end SetsFree

/-- `find_slab` on a slab with a free object `i`: the result is slot `i`, and it is in use now. -/
theorem Inv.takeObj (h : Inv s fs pg) {c : CacheId} {d i : Nat} {rest : List Nat}
    (hd : d ∈ slabs s c) (hfs : fs d = i :: rest) :
    (takeObj s c d).1 = slotAddr s c d i ∧
      Inv (takeObj s c d).2 (Function.update fs d rest) pg ∧
      Keeps s fs (takeObj s c d).2 (Function.update fs d rest) ∧
      Used (takeObj s c d).2 (Function.update fs d rest) c d i ∧
      slotAddr (takeObj s c d).2 c d i = slotAddr s c d i := by
  have ho := h.slabOk c d hd
  rw [hfs] at ho
  obtain ⟨hfree, hchain⟩ := ho.chain
  obtain ⟨hnot, hnodup⟩ := List.nodup_cons.1 ho.nodup
  have hi : i < nObjsOf c := ho.bound i List.mem_cons_self
  have hle := (layout c).2.2.2.1
  have haddr : objAddr s c d (s.slab d).free = slotAddr s c d i := by
    rw [objAddr, (h.geom c).1, hfree]
    exact Nat.mod_eq_of_lt (h.slot_lt hd hi)
  -- a slab descriptor is not a free object, so clearing the new object touches none
  have hne : c = .metaCache → ∀ c', ∀ d' ∈ slabs s c', d' ≠ slotAddr s c d i := by
    intro hc c' d' hd'
    subst hc
    exact h.desc_ne_free hd (by rw [hfs]; exact List.mem_cons_self) hd'
  have hslab : ∀ c', ∀ d' ∈ slabs s c', (Slab.takeObj s c d).2.slab d' =
      Function.update s.slab d
        { s.slab d with
          free := (s.slab d).objsDesc (s.slab d).free
          nInuse := ((s.slab d).nInuse + 1) % 2 ^ 16 } d' := by
    intro c' d' hd'
    unfold Slab.takeObj
    by_cases hc : c = .metaCache
    · have hd'ne := hne hc c' d' hd'
      rw [← haddr] at hd'ne
      simp only [if_pos hc]
      rw [Function.update_of_ne hd'ne]
    · simp only [if_neg hc]
  have hsd := hslab c d hd
  rw [Function.update_self] at hsd
  have hs : SetsFree s (Slab.takeObj s c d).2 c d
      (((s.cache c).freeObjects + (2 ^ 32 - 1)) % 2 ^ 32) := by
    refine ⟨rfl, by rw [hsd], by rw [hsd], ?_, rfl, rfl, rfl⟩
    intro c' d' hd' hdd
    rw [hslab c' d' hd', Function.update_of_ne hdd]
  have hcount := ho.count
  rw [List.length_cons] at hcount
  refine ⟨haddr, h.setFree hd hs ?_ hnodup ?_ ?_ ?_ ?_, ?_, ?_, ?_⟩
  · rw [hsd]
    show Chain (s.slab d).objsDesc ((s.slab d).objsDesc (s.slab d).free) rest
    rw [hfree]
    exact hchain
  · exact fun j hj => ho.bound j (List.mem_cons_of_mem _ hj)
  · rw [hsd]
    show ((s.slab d).nInuse + 1) % 2 ^ 16 + rest.length = nObjsOf c
    omega
  · rw [hfs, List.length_cons]
    omega
  · intro hc j hj c' d' hd'
    subst hc
    exact h.desc_ne_free hd (by rw [hfs]; exact List.mem_cons_of_mem _ hj) hd'
  · intro c' d' i' hu
    refine hs.used hu ?_
    rintro rfl hmem
    exact hu.2.2 (by rw [hfs]; exact List.mem_cons_of_mem _ hmem)
  · refine ⟨by rw [hs.slabs_eq]; exact hd, hi, ?_⟩
    rw [Function.update_self]
    exact hnot
  · rw [slotAddr, hs.first]
    rfl

/-- `kmem_cache_free` up to the check of `n_inuse`: a slot in use, which is no descriptor, goes back
    on the chain. -/
theorem Inv.putObj (h : Inv s fs pg) {c : CacheId} {d i : Nat} (hu : Used s fs c d i)
    (hdesc : c = .metaCache → ∀ c', ∀ d' ∈ slabs s c', d' ≠ slotAddr s c d i) :
    Inv (putObj s c d (slotAddr s c d i)) (Function.update fs d (i :: fs d)) pg ∧
      SetsFree s (putObj s c d (slotAddr s c d i)) c d
        (((s.cache c).freeObjects + 1) % 2 ^ 32) := by
  obtain ⟨hd, hi, hnot⟩ := hu
  have ho := h.slabOk c d hd
  have hpos := (layout c).1
  have hle := (layout c).2.2.2.1
  have hidx : (slotAddr s c d i + 2 ^ 32 - (s.slab d).firstObjMem) % 2 ^ 16 /
      (s.cache c).objSize = i := by
    have hin := (h.slot_inside hd hi).2
    rw [slotAddr, ho.first] at hin
    unfold SLAB_SIZE at hin
    have : (slotAddr s c d i + 2 ^ 32 - (s.slab d).firstObjMem) % 2 ^ 16 = i * objSizeOf c := by
      unfold slotAddr
      omega
    rw [this, (h.geom c).1, Nat.mul_div_cancel _ hpos]
  have hsd : (Slab.putObj s c d (slotAddr s c d i)).slab d =
      { s.slab d with
        objsDesc := Function.update (s.slab d).objsDesc i (s.slab d).free
        free := i
        nInuse := ((s.slab d).nInuse + (2 ^ 16 - 1)) % 2 ^ 16 } := by
    simp only [Slab.putObj, Function.update_self, hidx]
  have hs : SetsFree s (Slab.putObj s c d (slotAddr s c d i)) c d
      (((s.cache c).freeObjects + 1) % 2 ^ 32) := by
    refine ⟨rfl, by rw [hsd], by rw [hsd], ?_, rfl, rfl, rfl⟩
    intro c' d' hd' hdd
    simp [Slab.putObj, hdd]
  have hcount := ho.count
  -- the slot is in use, so the chain is not complete
  have hlen : (i :: fs d).length ≤ nObjsOf c := by
    have hnd : (i :: fs d).Nodup := List.nodup_cons.2 ⟨hnot, ho.nodup⟩
    have hsub : i :: fs d ⊆ List.range (nObjsOf c) := by
      intro j hj
      rcases List.mem_cons.1 hj with rfl | hj
      · exact List.mem_range.2 hi
      · exact List.mem_range.2 (ho.bound j hj)
    simpa using (hnd.subperm hsub).length_le
  rw [List.length_cons] at hlen
  refine ⟨h.setFree hd hs ?_ (List.nodup_cons.2 ⟨hnot, ho.nodup⟩) ?_ ?_ ?_ ?_, hs⟩
  · rw [hsd]
    exact ho.chain.put hnot
  · intro j hj
    rcases List.mem_cons.1 hj with rfl | hj
    · exact hi
    · exact ho.bound j hj
  · rw [hsd]
    show ((s.slab d).nInuse + (2 ^ 16 - 1)) % 2 ^ 16 + (i :: fs d).length = nObjsOf c
    rw [List.length_cons]
    omega
  · rw [List.length_cons]
    omega
  · intro hc j hj c' d' hd'
    rcases List.mem_cons.1 hj with rfl | hj
    · subst hc
      exact hdesc rfl c' d' hd'
    · subst hc
      exact h.desc_ne_free hd hj hd'

end Changes

/-! ## §5 Growing a cache -/

section Grow

variable {s s' s'' : Kmem} {fs fs' fs'' : Nat → List Nat} {pg pg' pg'' : Nat → Nat}

/-- Page `p` has been obtained and belongs to no slab yet. -/
structure Ready (s : Kmem) (pg : Nat → Nat) (p : Nat) : Prop where
  held : p ∈ s.held
  page : Mapped s.npagesNum p
  inSlab : (s.page p).inSlab = true
  unused : ∀ c, ∀ d ∈ slabs s c, pg d ≠ p

/-- The pages still to come from `alloc_page` are distinct, exist and are not held. -/
def SupplyOk (s : Kmem) : Prop :=
  ((s.supply.filterMap id).map Prod.fst).Nodup ∧
    ∀ p ∈ (s.supply.filterMap id).map Prod.fst, Mapped s.npagesNum p ∧ p ∉ s.held

/-- `s'` follows `s` in the course of an allocation. -/
structure Follows (s : Kmem) (fs : Nat → List Nat) (pg : Nat → Nat) (s' : Kmem)
    (fs' : Nat → List Nat) (pg' : Nat → Nat) : Prop where
  inv : Inv s' fs' pg'
  keeps : Keeps s fs s' fs'
  supply : SupplyOk s'
  ready : ∀ p, Ready s pg p → Ready s' pg' p

theorem Follows.refl (h : Inv s fs pg) (hsup : SupplyOk s) : Follows s fs pg s fs pg :=
  ⟨h, fun _ _ _ hu => ⟨hu, rfl⟩, hsup, fun _ hr => hr⟩

theorem Follows.trans (h : Follows s fs pg s' fs' pg') (h' : Follows s' fs' pg' s'' fs'' pg'') :
    Follows s fs pg s'' fs'' pg'' :=
  ⟨h'.inv, h.keeps.trans h'.keeps, h'.supply, fun p hr => h'.ready p (h.ready p hr)⟩

/-- `kmem_get_page` fails, or it gives a page that no slab uses. -/
theorem kmemGetPage_spec (h : Inv s fs pg) (hsup : SupplyOk s) :
    (∃ s', kmemGetPage s = (none, s') ∧ Follows s fs pg s' fs pg ∧ s'.cache = s.cache) ∨
      ∃ p s', kmemGetPage s = (some p, s') ∧ Follows s fs pg s' fs pg ∧ Ready s' pg p ∧
        p ∉ s.held ∧ s'.cache = s.cache := by
  unfold kmemGetPage allocPage
  cases hq : s.supply with
  | nil => exact .inl ⟨s, by simp, Follows.refl h hsup, rfl⟩
  | cons x rest =>
    cases x with
    | none =>
      refine .inl ⟨{ s with supply := rest }, rfl, ⟨?_, ?_, ?_, ?_⟩, rfl⟩
      · exact h.congr rfl (fun _ _ _ => rfl) (fun _ _ _ => rfl)
          (fun c d hd => (h.slabOk c d hd).held) rfl
      · exact keeps_congr rfl (fun _ _ _ => rfl)
      · unfold SupplyOk at hsup
        rw [hq] at hsup
        exact hsup
      · exact fun p hr => ⟨hr.held, hr.page, hr.inSlab, hr.unused⟩
    | some x =>
      obtain ⟨p, r⟩ := x
      unfold SupplyOk at hsup
      rw [hq] at hsup
      simp only [List.filterMap_cons, id_eq, List.map_cons, List.nodup_cons, List.mem_cons,
        forall_eq_or_imp] at hsup
      obtain ⟨⟨hnew, hnd⟩, ⟨hp, hheld⟩, hrest⟩ := hsup
      -- the new page is not held, so it is no page of a slab and no page obtained before
      have hunused : ∀ c, ∀ d ∈ slabs s c, pg d ≠ p := by
        intro c d hd he
        exact hheld (he ▸ (h.slabOk c d hd).held)
      refine .inr ⟨p, _, rfl, ⟨?_, ?_, ?_, ?_⟩, ?_, hheld, rfl⟩
      · refine h.congr rfl (fun _ _ _ => rfl) (fun c d hd => ?_)
          (fun c d hd => List.mem_cons_of_mem _ (h.slabOk c d hd).held) rfl
        have := hunused c d hd
        simp [setPageSlab, this]
      · exact keeps_congr rfl (fun _ _ _ => rfl)
      · refine ⟨hnd, fun q hq' => ⟨(hrest q hq').1, ?_⟩⟩
        show q ∉ p :: s.held
        rw [List.mem_cons, not_or]
        exact ⟨fun he => hnew (he ▸ hq'), (hrest q hq').2⟩
      · intro q hr
        have hqp : q ≠ p := fun he => hheld (he ▸ hr.held)
        refine ⟨List.mem_cons_of_mem _ hr.held, hr.page, ?_, hr.unused⟩
        simpa [setPageSlab, hqp] using hr.inSlab
      · exact ⟨List.mem_cons_self, hp, by simp [setPageSlab], hunused⟩

/-- `n_inuse` and `free` of a new slab: a slab of `meta_cache` holds its own descriptor. -/
def firstFree : CacheId → Nat
  | .metaCache => 1
  | .normalCache _ => 0

/-- The free indices of a new slab. -/
def freshChain (c : CacheId) : List Nat := List.range' (firstFree c) (nObjsOf c - firstFree c)

theorem firstFree_lt (c : CacheId) : firstFree c < nObjsOf c := by
  cases c with
  | metaCache => decide
  | normalCache i => exact (layout _).2.2.1

theorem freshChain_cons (c : CacheId) : ∃ rest, freshChain c = firstFree c :: rest := by
  have := firstFree_lt c
  obtain ⟨m, hm⟩ : ∃ m, nObjsOf c - firstFree c = m + 1 := ⟨nObjsOf c - firstFree c - 1, by omega⟩
  exact ⟨_, by rw [freshChain, hm, List.range'_succ]⟩

/-- The new slab is the last one of its cache. -/
theorem slabs_initSlab (h : Inv s fs pg) (c : CacheId) (p d k : Nat) (c' : CacheId) :
    slabs (initSlab s c p d k k) c' = if c' = c then slabs s c' ++ [d] else slabs s c' := by
  by_cases hc : c' = c
  · subst hc
    rw [if_pos rfl]
    cases c' with
    | metaCache => simp [slabs, initSlab, h.metaEmpty]
    | normalCache i => simp [slabs, initSlab]
  · simp [slabs, initSlab, hc]

/-- Where the descriptor of a new slab is: on the slab's own page in `meta_cache`, else an object of
    `meta_cache`. -/
def DescAt (s : Kmem) (fs : Nat → List Nat) (c : CacheId) (p d : Nat) : Prop :=
  (c = .metaCache ∧ d = page2va p + objsOffset .metaCache) ∨
    ∃ m ∈ slabs s .metaCache, ∃ j < nObjsOf .metaCache,
      c ≠ .metaCache ∧ j ∉ fs m ∧ d = slotAddr s .metaCache m j

section InitSlab

variable {c : CacheId} {p d : Nat}

theorem initSlab_slab_self (h : Inv s fs pg) :
    ((initSlab s c p d (firstFree c) (firstFree c)).slab d).firstObjMem =
        page2va p + objsOffset c ∧
      ((initSlab s c p d (firstFree c) (firstFree c)).slab d).objsDescArray =
        (if objSizeOf c < 512 then page2va p else d + offsetofObjsDesc) ∧
      Chain ((initSlab s c p d (firstFree c) (firstFree c)).slab d).objsDesc
        ((initSlab s c p d (firstFree c) (firstFree c)).slab d).free (freshChain c) ∧
      ((initSlab s c p d (firstFree c) (firstFree c)).slab d).nInuse = firstFree c := by
  obtain ⟨hsz, hn⟩ := h.geom c
  have hlt := firstFree_lt c
  refine ⟨?_, ?_, ?_, ?_⟩
  · simp only [initSlab, Function.update_self, hsz, hn, objsOffset]
    split <;> omega
  · simp only [initSlab, Function.update_self, hsz]
  · simp only [initSlab, Function.update_self, hn]
    obtain ⟨m, hm⟩ : ∃ m, nObjsOf c - firstFree c = m + 1 :=
      ⟨nObjsOf c - firstFree c - 1, by omega⟩
    rw [freshChain, hm]
    refine chain_range' (n := nObjsOf c) ?_ ?_ m _ (by omega)
    · simp
    · intro i hi
      simp [hi]
  · simp only [initSlab, Function.update_self]

theorem initSlab_slab_other {d' : Nat} (hd' : d' ≠ d) (k : Nat) :
    (initSlab s c p d k k).slab d' = s.slab d' := by
  simp [initSlab, hd']

/-- The second half of `cache_grow` adds a slab with all its objects free. -/
theorem Inv.initSlab (h : Inv s fs pg) (hr : Ready s pg p) (hfresh : ∀ c', d ∉ slabs s c')
    (hdesc : DescAt s fs c p d) :
    Inv (initSlab s c p d (firstFree c) (firstFree c)) (Function.update fs d (freshChain c))
      (Function.update pg d p) := by
  obtain ⟨hfirst, harray, hchain, hinuse⟩ := initSlab_slab_self (c := c) (p := p) (d := d) h
  have hlt := firstFree_lt c
  have hslabs := slabs_initSlab h c p d (firstFree c)
  have hmem : ∀ c' d', d' ∈ slabs (Slab.initSlab s c p d (firstFree c) (firstFree c)) c' →
      (c' = c ∧ d' = d) ∨ (d' ∈ slabs s c' ∧ d' ≠ d) := by
    intro c' d' hd'
    rw [hslabs] at hd'
    by_cases hold : d' ∈ slabs s c'
    · exact .inr ⟨hold, fun he => hfresh c' (he ▸ hold)⟩
    · split at hd'
      · rename_i hc
        exact .inl ⟨hc, by simpa [hold] using hd'⟩
      · exact absurd hd' hold
  have hmono : ∀ c' d', d' ∈ slabs s c' →
      d' ∈ slabs (Slab.initSlab s c p d (firstFree c) (firstFree c)) c' := by
    intro c' d' hd'
    rw [hslabs]
    split
    · exact List.mem_append_left _ hd'
    · exact hd'
  constructor
  · intro c'
    by_cases hc : c' = c
    · subst hc
      cases c' <;> simpa [Slab.initSlab] using h.geom _
    · simpa [Slab.initSlab, hc] using h.geom c'
  · cases c with
    | metaCache => simpa [Slab.initSlab] using h.metaEmpty
    | normalCache i => simpa [Slab.initSlab] using h.metaEmpty
  · intro i
    by_cases hc : .normalCache i = c
    · subst hc
      simpa [Slab.initSlab] using h.normalPartitial i
    · simpa [Slab.initSlab, hc] using h.normalPartitial i
  · intro c'
    rw [hslabs]
    split
    · refine List.nodup_append.2 ⟨h.nodup c', List.nodup_singleton d, ?_⟩
      rintro a ha b hb rfl
      exact hfresh c' (List.mem_singleton.1 hb ▸ ha)
    · exact h.nodup c'
  · -- the new slab has the layout that was written, the old ones are not touched
    intro c' d' hd'
    rcases hmem c' d' hd' with ⟨rfl, rfl⟩ | ⟨hold, hne⟩
    · rw [Function.update_self, Function.update_self]
      refine ⟨hr.held, hr.page, ?_, ?_, ?_, hfirst, harray, hchain, List.nodup_range', ?_, ?_⟩
      · simpa [Slab.initSlab] using hr.inSlab
      · simp [Slab.initSlab]
      · simp [Slab.initSlab]
      · intro i hi
        rw [freshChain, List.mem_range'] at hi
        omega
      · rw [hinuse, freshChain, List.length_range']
        omega
    · rw [Function.update_of_ne hne, Function.update_of_ne hne]
      have hp := hr.unused c' d' hold
      exact (h.slabOk c' d' hold).congr (initSlab_slab_other hne _)
        (by simp [Slab.initSlab, hp]) (h.slabOk c' d' hold).held rfl
  · intro c'
    rw [hslabs]
    have hrest : ((slabs s c').map fun x => (Function.update fs d (freshChain c) x).length) =
        (slabs s c').map fun x => (fs x).length := by
      refine List.map_congr_left fun x hx => ?_
      have : x ≠ d := fun he => hfresh c' (he ▸ hx)
      simp [this]
    have hold := h.freeObjects c'
    by_cases hc : c' = c
    · subst hc
      have hn := (h.geom c').2
      rw [if_pos rfl, List.map_append, List.sum_append, hrest]
      simp only [List.map_cons, List.map_nil, List.sum_cons, List.sum_nil, Function.update_self,
        freshChain, List.length_range']
      cases c' with
      | metaCache =>
        simp only [Slab.initSlab, Function.update_self, hn]
        simp only [firstFree] at hlt ⊢
        omega
      | normalCache i =>
        simp only [Slab.initSlab, Function.update_self, hn]
        simp only [firstFree] at hlt ⊢
        omega
    · rw [if_neg hc, hrest, ← hold]
      simp [Slab.initSlab, hc]
  · intro m hm
    rcases hmem _ m hm with ⟨hc, rfl⟩ | ⟨hold, hne⟩
    · subst hc
      rw [Function.update_self, hfirst]
      rcases hdesc with ⟨_, hd⟩ | ⟨_, _, _, _, hc, _⟩
      · exact ⟨hd, by simp [freshChain, firstFree]⟩
      · exact absurd rfl hc
    · rw [Function.update_of_ne hne, initSlab_slab_other hne]
      exact h.metaSelf m hold
  · intro c' d' hd'
    -- a descriptor that was an object in use before the change
    have hkeep : ∀ m ∈ slabs s .metaCache, ∀ j < nObjsOf .metaCache, j ∉ fs m →
        d' = slotAddr s .metaCache m j →
        ∃ m ∈ slabs (Slab.initSlab s c p d (firstFree c) (firstFree c)) .metaCache,
          ∃ j < nObjsOf .metaCache, j ∉ Function.update fs d (freshChain c) m ∧
            d' = slotAddr (Slab.initSlab s c p d (firstFree c) (firstFree c)) .metaCache m j := by
      intro m hm j hj hnot heq
      have hne : m ≠ d := fun he => hfresh _ (he ▸ hm)
      refine ⟨m, hmono _ m hm, j, hj, by rwa [Function.update_of_ne hne], ?_⟩
      rw [slotAddr, initSlab_slab_other hne]
      exact heq
    rcases hmem c' d' hd' with ⟨rfl, rfl⟩ | ⟨hold, hne⟩
    · rcases hdesc with ⟨hc, hd⟩ | ⟨m, hm, j, hj, _, hnot, heq⟩
      · subst hc
        refine ⟨d', hd', 0, by decide, ?_, ?_⟩
        · simp [freshChain, firstFree]
        · rw [slotAddr, hfirst, hd]
          simp
      · exact hkeep m hm j hj hnot heq
    · obtain ⟨m, hm, j, hj, hnot, heq⟩ := h.descUsed c' d' hold
      exact hkeep m hm j hj hnot heq

/-- Adding a slab on page `p` leaves the slots in use and the other pages obtained as they are. -/
theorem Follows.initSlab (hf : Follows s fs pg s' fs' pg') (hr : Ready s' pg' p)
    (hp : p ∉ s.held) (hfresh : ∀ c', d ∉ slabs s' c') (hdesc : DescAt s' fs' c p d) :
    Follows s fs pg (initSlab s' c p d (firstFree c) (firstFree c))
      (Function.update fs' d (freshChain c)) (Function.update pg' d p) := by
  have hslabs := slabs_initSlab hf.inv c p d (firstFree c)
  refine ⟨hf.inv.initSlab hr hfresh hdesc, ?_, hf.supply, ?_⟩
  · refine hf.keeps.trans ?_
    intro c' d' i hu
    have hne : d' ≠ d := fun he => hfresh c' (he ▸ hu.1)
    refine ⟨⟨?_, hu.2.1, by rw [Function.update_of_ne hne]; exact hu.2.2⟩, ?_⟩
    · rw [hslabs]
      split
      · exact List.mem_append_left _ hu.1
      · exact hu.1
    · rw [slotAddr, initSlab_slab_other hne]
      rfl
  · intro q hq
    have hqp : q ≠ p := fun he => hp (he ▸ hq.held)
    have hq' := hf.ready q hq
    refine ⟨hq'.held, hq'.page, by simpa [Slab.initSlab, hqp] using hq'.inSlab, ?_⟩
    intro c' d' hd'
    rw [hslabs] at hd'
    by_cases hdd : d' = d
    · rw [hdd, Function.update_self]
      exact hqp.symm
    · rw [Function.update_of_ne hdd]
      refine hq'.unused c' d' ?_
      split at hd'
      · exact (List.mem_append.1 hd').resolve_right (fun hm => hdd (List.mem_singleton.1 hm))
      · exact hd'

end InitSlab

/-- `cache_grow` fails, or it adds a slab of which all objects are free. -/
def GrowSpec (s : Kmem) (fs : Nat → List Nat) (pg : Nat → Nat) (c : CacheId)
    (r : Except Fault (Option Nat × Kmem)) : Prop :=
  (∃ s' fs' pg', r = .ok (none, s') ∧ Follows s fs pg s' fs' pg') ∨
    ∃ d s' fs' pg', r = .ok (some d, s') ∧ Follows s fs pg s' fs' pg' ∧ d ∈ slabs s' c ∧
      fs' d = freshChain c

theorem mem_slabs_initSlab (h : Inv s fs pg) (c : CacheId) (p d k : Nat) :
    d ∈ slabs (initSlab s c p d k k) c := by
  rw [slabs_initSlab h, if_pos rfl]
  exact List.mem_append_right _ (List.mem_singleton.2 rfl)

/-- `meta_cache` grows without asking for a descriptor: it fails, or a slab is appended. -/
theorem cacheGrow_meta (alloc : Kmem → Except Fault (Option Nat × Kmem)) (h : Inv s fs pg)
    (hsup : SupplyOk s) :
    (∃ s', cacheGrow alloc .metaCache s = .ok (none, s') ∧ Follows s fs pg s' fs pg ∧
        s'.cache = s.cache) ∨
      ∃ d s' pg', cacheGrow alloc .metaCache s = .ok (some d, s') ∧ (∀ c', d ∉ slabs s c') ∧
        Follows s fs pg s' (Function.update fs d (freshChain .metaCache)) pg' ∧
        (∀ c', slabs s' c' = if c' = .metaCache then slabs s c' ++ [d] else slabs s c') := by
  rcases kmemGetPage_spec h hsup with ⟨s', hget, hf, hcache⟩ | ⟨p, s', hget, hf, hr, hp, hcache⟩
  · exact .inl ⟨s', by simp [cacheGrow, hget], hf, hcache⟩
  · have hoff : page2va p + (s'.cache .metaCache).nObjsPerSlab * 2 =
        page2va p + objsOffset .metaCache := by
      rw [(hf.inv.geom .metaCache).2]
      rfl
    -- the descriptor is on the new page, and those of the other slabs are on theirs
    have hfresh : ∀ c', page2va p + objsOffset .metaCache ∉ slabs s' c' := by
      intro c' hd
      obtain ⟨m, hm, hlo, hhi⟩ := hf.inv.desc_page hd
      have hne := hr.unused _ m hm
      have hoff : objsOffset .metaCache + sizeofSlab ≤ SLAB_SIZE := by decide
      have hap := apart_of_page_ne (a := page2va p + objsOffset .metaCache) (n := sizeofSlab)
        (b := page2va p + objsOffset .metaCache) (m := sizeofSlab) hne.symm
        ⟨by omega, by omega⟩ ⟨hlo, hhi⟩
      have hpos : 0 < sizeofSlab := by decide
      unfold Apart at hap
      omega
    refine .inr ⟨_, _, _, ?_, fun c' => slabs_congr hcache c' ▸ hfresh c',
      hf.initSlab hr hp hfresh (.inl ⟨rfl, rfl⟩), fun c' => ?_⟩
    · simp only [cacheGrow, hget, hoff, firstFree]
    · rw [slabs_initSlab hf.inv, slabs_congr hcache]

theorem cacheGrow_meta_spec (alloc : Kmem → Except Fault (Option Nat × Kmem)) (h : Inv s fs pg)
    (hsup : SupplyOk s) : GrowSpec s fs pg .metaCache (cacheGrow alloc .metaCache s) := by
  rcases cacheGrow_meta alloc h hsup with ⟨s', hok, hf, _⟩ | ⟨d, s', pg', hok, _, hf, hslabs⟩
  · exact .inl ⟨s', fs, pg, hok, hf⟩
  · refine .inr ⟨d, s', _, pg', hok, hf, ?_, Function.update_self ..⟩
    rw [hslabs, if_pos rfl]
    exact List.mem_append_right _ (List.mem_singleton.2 rfl)

/-! ## §6 Allocation -/

/-- An allocation from cache `c` returned address `a`: slot `i` of slab `d`, which was not in use;
    if it is to hold a descriptor, no slab has its descriptor there yet. -/
structure Allocates (s : Kmem) (fs : Nat → List Nat) (pg : Nat → Nat) (c : CacheId) (a : Nat)
    (s' : Kmem) (fs' : Nat → List Nat) (pg' : Nat → Nat) (d i : Nat) : Prop where
  follows : Follows s fs pg s' fs' pg'
  used : Used s' fs' c d i
  addr : a = slotAddr s' c d i
  fresh : ∀ c', ¬ Used s fs c' d i
  notDesc : c = .metaCache → ∀ c', ∀ d' ∈ slabs s' c', d' ≠ a

/-- An allocation fails, or it returns a slot that was not in use. -/
def AllocSpec (s : Kmem) (fs : Nat → List Nat) (pg : Nat → Nat) (c : CacheId)
    (r : Except Fault (Option Nat × Kmem)) : Prop :=
  (∃ s' fs' pg', r = .ok (none, s') ∧ Follows s fs pg s' fs' pg') ∨
    ∃ a s' fs' pg' d i, r = .ok (some a, s') ∧ Allocates s fs pg c a s' fs' pg' d i

theorem Follows.takeObj (hf : Follows s fs pg s' fs' pg') {c : CacheId} {d i : Nat}
    {rest : List Nat} (hd : d ∈ slabs s' c) (hfs : fs' d = i :: rest) :
    Allocates s fs pg c (takeObj s' c d).1 (takeObj s' c d).2 (Function.update fs' d rest) pg'
      d i := by
  obtain ⟨haddr, hinv, hkeeps, hused, hslot⟩ := hf.inv.takeObj hd hfs
  have hslabs : ∀ c', slabs (Slab.takeObj s' c d).2 c' = slabs s' c' := by
    intro c'
    by_cases hc : c' = c
    · subst hc
      simp [slabs, Slab.takeObj]
    · simp [slabs, Slab.takeObj, hc]
  refine ⟨⟨hinv, hf.keeps.trans hkeeps, hf.supply, fun p hp => ?_⟩, hused, ?_, ?_, ?_⟩
  · have hr := hf.ready p hp
    exact ⟨hr.held, hr.page, hr.inSlab, fun c' d' hd' => hr.unused c' d' (hslabs c' ▸ hd')⟩
  · rw [haddr, hslot]
  · intro c' hu
    refine (hf.keeps c' d i hu).1.2.2 ?_
    rw [hfs]
    exact List.mem_cons_self
  · intro hc c' d' hd'
    subst hc
    rw [hslabs] at hd'
    rw [haddr]
    exact hf.inv.desc_ne_free hd (by rw [hfs]; exact List.mem_cons_self) hd'

/-- `kmem_cache_alloc` is right as long as the slab it picks has a free object. -/
theorem kmemCacheAllocBy_spec {grow : Kmem → Except Fault (Option Nat × Kmem)} {c : CacheId}
    (h : Inv s fs pg) (hsup : SupplyOk s) (hgrow : GrowSpec s fs pg c (grow s))
    (hpick : 0 < (s.cache c).freeObjects →
      ∃ d i rest, pickSlab s c = some d ∧ d ∈ slabs s c ∧ fs d = i :: rest) :
    AllocSpec s fs pg c (kmemCacheAllocBy grow c s) := by
  unfold kmemCacheAllocBy
  by_cases hfo : 0 < (s.cache c).freeObjects
  · obtain ⟨d, i, rest, hp, hd, hfs⟩ := hpick hfo
    rw [if_pos hfo, hp]
    exact .inr ⟨_, _, _, _, d, i, rfl, (Follows.refl h hsup).takeObj hd hfs⟩
  · rw [if_neg hfo]
    rcases hgrow with ⟨s', fs', pg', hr, hf⟩ | ⟨d, s', fs', pg', hr, hf, hd, hfs⟩
    · rw [hr]
      exact .inl ⟨s', fs', pg', rfl, hf⟩
    · rw [hr]
      obtain ⟨rest, hrest⟩ := freshChain_cons c
      rw [hrest] at hfs
      exact .inr ⟨_, _, _, _, d, _, rfl, hf.takeObj hd hfs⟩

/-- In `meta_cache`, counted free objects are found: every partial slab is looked at. -/
theorem pickSlab_meta (h : Inv s fs pg) (hfo : 0 < (s.cache .metaCache).freeObjects) :
    ∃ d i rest, pickSlab s .metaCache = some d ∧ d ∈ slabs s .metaCache ∧ fs d = i :: rest := by
  have hslabs : slabs s .metaCache = (s.cache .metaCache).slabsPartitial := by
    simp [slabs, h.metaEmpty]
  obtain ⟨d, hd, hne⟩ : ∃ d ∈ slabs s .metaCache, fs d ≠ [] := by
    by_contra hall
    push Not at hall
    have : ((slabs s .metaCache).map fun d => (fs d).length).sum = 0 := by
      refine List.sum_eq_zero ?_
      intro x hx
      obtain ⟨d, hd, rfl⟩ := List.mem_map.1 hx
      rw [hall d hd]
      rfl
    rw [h.freeObjects, this] at hfo
    simp at hfo
  have hmark : ∀ d ∈ slabs s .metaCache, fs d ≠ [] → (s.slab d).free ≠ BUFCTL_END := by
    intro d hd hne
    have ho := h.slabOk _ d hd
    obtain ⟨i, rest, hfs⟩ := List.exists_cons_of_ne_nil hne
    have hlt := ho.bound i (by rw [hfs]; exact List.mem_cons_self)
    have hch := ho.chain
    rw [hfs] at hch
    rw [hch.1]
    have := (layout .metaCache).2.2.2.1
    unfold BUFCTL_END
    omega
  cases hfind : (s.cache .metaCache).slabsPartitial.reverse.find?
      (fun d => (s.slab d).free != BUFCTL_END) with
  | none =>
    have := List.find?_eq_none.1 hfind d (List.mem_reverse.2 (hslabs ▸ hd))
    exact absurd (by simpa using this) (hmark d hd hne)
  | some d' =>
    have hd' : d' ∈ slabs s .metaCache := by
      rw [hslabs]
      exact List.mem_reverse.1 (List.mem_of_find?_eq_some hfind)
    have hfree : (s.slab d').free ≠ BUFCTL_END := by
      simpa using List.find?_some hfind
    obtain ⟨rest, hfs, _⟩ := (h.slabOk _ d' hd').chain.exists_cons hfree
    exact ⟨d', _, rest, by simp [pickSlab, hfind], hd', hfs⟩

theorem allocSlabDesc_spec (h : Inv s fs pg) (hsup : SupplyOk s) :
    AllocSpec s fs pg .metaCache (allocSlabDesc s) :=
  kmemCacheAllocBy_spec h hsup (cacheGrow_meta_spec _ h hsup) (pickSlab_meta h)

theorem kmemFreePage_eq {p va : Nat} (hva : va2page s va = some p) :
    kmemFreePage s va = freePage (clearPageSlab s p) p := by
  simp only [kmemFreePage, hva]

/-- Giving back a page that belongs to no slab. -/
theorem Inv.kmemFreePage (h : Inv s fs pg) {p : Nat} (hp : ∀ c, ∀ d ∈ slabs s c, pg d ≠ p)
    (hlt : Mapped s.npagesNum p) :
    Inv (kmemFreePage s (page2va p)) fs pg ∧ Keeps s fs (kmemFreePage s (page2va p)) fs := by
  have hend : page2va p < page2va p + SLAB_SIZE := Nat.lt_add_of_pos_right (by decide)
  have hva : va2page s (page2va p) = some p := va2page_of_mem hlt (Nat.le_refl _) hend
  rw [kmemFreePage_eq hva]
  refine ⟨h.congr rfl (fun _ _ _ => rfl) (fun c d hd => ?_) (fun c d hd => ?_) rfl,
    keeps_congr rfl (fun _ _ _ => rfl)⟩
  · have := hp c d hd
    simp [freePage, clearPageSlab, this]
  · exact (List.mem_erase_of_ne (hp c d hd)).2 (h.slabOk c d hd).held

theorem Follows.kmemFreePage (hf : Follows s fs pg s' fs' pg') {p : Nat} (hr : Ready s' pg' p)
    (hp : p ∉ s.held) : Follows s fs pg (kmemFreePage s' (page2va p)) fs' pg' := by
  obtain ⟨hinv, hkeeps⟩ := hf.inv.kmemFreePage hr.unused hr.page
  have hend : page2va p < page2va p + SLAB_SIZE := Nat.lt_add_of_pos_right (by decide)
  have heq := kmemFreePage_eq (va2page_of_mem hr.page (Nat.le_refl _) hend)
  refine ⟨hinv, hf.keeps.trans hkeeps, ?_, ?_⟩
  · rw [heq]
    refine ⟨hf.supply.1, fun q hq => ⟨(hf.supply.2 q hq).1, fun hmem => ?_⟩⟩
    exact (hf.supply.2 q hq).2 (List.mem_of_mem_erase hmem)
  · intro q hq
    have hqp : q ≠ p := fun he => hp (he ▸ hq.held)
    have hq' := hf.ready q hq
    rw [heq]
    refine ⟨(List.mem_erase_of_ne hqp).2 hq'.held, hq'.page, ?_, hq'.unused⟩
    simpa [freePage, clearPageSlab, hqp] using hq'.inSlab

/-- A normal cache grows by a page and an object of `meta_cache` for the descriptor. -/
theorem cacheGrow_normal_spec (h : Inv s fs pg) (hsup : SupplyOk s) (k : Fin NKMEMCACHE) :
    GrowSpec s fs pg (.normalCache k) (cacheGrow allocSlabDesc (.normalCache k) s) := by
  rcases kmemGetPage_spec h hsup with ⟨s₁, hget, hf, _⟩ | ⟨p, s₁, hget, hf, hr, hp, _⟩
  · exact .inl ⟨s₁, fs, pg, by simp [cacheGrow, hget], hf⟩
  · rcases allocSlabDesc_spec hf.inv hf.supply with
      ⟨s₂, fs₂, pg₂, hdesc, hf₂⟩ | ⟨a, s₂, fs₂, pg₂, m, j, hdesc, hall⟩
    · refine .inl ⟨_, fs₂, pg₂, ?_, (hf.trans hf₂).kmemFreePage (hf₂.ready p hr) hp⟩
      simp only [cacheGrow, hget, hdesc]
    · have hf₂ := hall.follows
      obtain ⟨hm, hj, hnot⟩ := hall.used
      refine .inr ⟨a, _, _, _, ?_, (hf.trans hf₂).initSlab (c := .normalCache k)
        (hf₂.ready p hr) hp (fun c' hd => hall.notDesc rfl c' a hd rfl)
        (.inr ⟨m, hm, j, hj, by simp, hnot, hall.addr⟩), mem_slabs_initSlab hf₂.inv _ _ _ _,
        by rw [Function.update_self]⟩
      simp only [cacheGrow, hget, hdesc, firstFree]

/-- **Allocation from a normal cache** returns a slot that was not in use, as long as the last slab
    has a free object whenever free objects are counted. -/
theorem kmemCacheAlloc_spec (h : Inv s fs pg) (hsup : SupplyOk s) (k : Fin NKMEMCACHE)
    (hlast : 0 < (s.cache (.normalCache k)).freeObjects →
      ∀ d ∈ (s.cache (.normalCache k)).slabsEmpty.getLast?, (s.slab d).free ≠ BUFCTL_END) :
    AllocSpec s fs pg (.normalCache k) (kmemCacheAlloc (.normalCache k) s) := by
  refine kmemCacheAllocBy_spec h hsup (cacheGrow_normal_spec h hsup k) fun hfo => ?_
  have hslabs : slabs s (.normalCache k) = (s.cache (.normalCache k)).slabsEmpty := by
    simp [slabs, h.normalPartitial k]
  cases hgl : (s.cache (.normalCache k)).slabsEmpty.getLast? with
  | none =>
    -- no slab at all, but then nothing is counted
    rw [h.freeObjects, hslabs, List.getLast?_eq_none_iff.1 hgl] at hfo
    simp at hfo
  | some d =>
    have hd : d ∈ slabs s (.normalCache k) := hslabs ▸ List.mem_of_getLast? hgl
    obtain ⟨rest, hfs, _⟩ := (h.slabOk _ d hd).chain.exists_cons (hlast hfo d hgl)
    exact ⟨d, _, rest, by simp [pickSlab, h.normalPartitial k, hgl], hd, hfs⟩

end Grow

/-! ## §7 Release -/

section Release

variable {s s' : Kmem} {fs : Nat → List Nat} {pg : Nat → Nat}

/-- A slab with an object in use has a count above zero. -/
theorem Inv.nInuse_pos (h : Inv s fs pg) {c : CacheId} {d i : Nat} (hu : Used s fs c d i) :
    0 < (s.slab d).nInuse := by
  obtain ⟨hd, hi, hnot⟩ := hu
  have ho := h.slabOk c d hd
  have hnd : (i :: fs d).Nodup := List.nodup_cons.2 ⟨hnot, ho.nodup⟩
  have hsub : i :: fs d ⊆ List.range (nObjsOf c) := by
    intro j hj
    rcases List.mem_cons.1 hj with rfl | hj
    · exact List.mem_range.2 hi
    · exact List.mem_range.2 (ho.bound j hj)
  have hlen := (hnd.subperm hsub).length_le
  rw [List.length_cons, List.length_range] at hlen
  have := ho.count
  omega

/-- `kfree` of a slot finds its slab and cache through the page; it does nothing on a reserved
    page. -/
theorem kfreeBy_slot (h : Inv s fs pg) {c : CacheId} {d i : Nat} (hd : d ∈ slabs s c)
    (hi : i < nObjsOf c) (free : CacheId → Nat → Nat → Kmem → Except Fault Kmem) :
    kfreeBy free (slotAddr s c d i) s =
      if (s.page (pg d)).reserved then .ok s else free c d (slotAddr s c d i) s := by
  have ho := h.slabOk c d hd
  obtain ⟨hlo, hhi⟩ := h.slot_inside hd hi
  have hpos := (layout c).1
  have hva : va2page s (slotAddr s c d i) = some (pg d) :=
    va2page_of_mem ho.page (by omega) (by omega)
  unfold kfreeBy
  rw [hva]
  simp only [ho.inSlab, ho.lruNext, ho.lruPrev, Bool.not_true, Bool.false_eq_true, if_false]

/-- Slots of normal caches in use stay in use, apart from those of `P`. -/
def KeepsBut (P : Nat → Nat → Prop) (s : Kmem) (fs : Nat → List Nat) (s' : Kmem)
    (fs' : Nat → List Nat) : Prop :=
  ∀ k d i, Used s fs (.normalCache k) d i → ¬ P d i →
    Used s' fs' (.normalCache k) d i ∧
      slotAddr s' (.normalCache k) d i = slotAddr s (.normalCache k) d i

theorem KeepsBut.trans {P : Nat → Nat → Prop} {s'' : Kmem} {fs' fs'' : Nat → List Nat}
    (h : KeepsBut P s fs s' fs') (h' : KeepsBut P s' fs' s'' fs'') : KeepsBut P s fs s'' fs'' := by
  intro k d i hu hP
  obtain ⟨hu', heq⟩ := h k d i hu hP
  obtain ⟨hu'', heq'⟩ := h' k d i hu' hP
  exact ⟨hu'', heq'.trans heq⟩

/-- `destroy_slab_desc` puts the object back into `meta_cache`; its slab has its own descriptor in
    use and stays. -/
theorem destroySlabDesc_spec (h : Inv s fs pg) {m j : Nat} (hu : Used s fs .metaCache m j)
    (hnot : ∀ c', ∀ d' ∈ slabs s c', d' ≠ slotAddr s .metaCache m j) :
    ∃ s' fs', destroySlabDesc (slotAddr s .metaCache m j) s = .ok s' ∧ Inv s' fs' pg ∧
      KeepsBut (fun _ _ => False) s fs s' fs' ∧ (∀ c, slabs s' c = slabs s c) ∧
      s'.page = s.page ∧ s'.npagesNum = s.npagesNum := by
  unfold destroySlabDesc
  rw [kfreeBy_slot h hu.1 hu.2.1]
  cases (s.page (pg m)).reserved with
  | true => exact ⟨s, fs, rfl, h, fun _ _ _ hu _ => ⟨hu, rfl⟩, fun _ => rfl, rfl, rfl⟩
  | false =>
    obtain ⟨hinv, hs⟩ := h.putObj hu (fun _ => hnot)
    have hm : m ∈ slabs (putObj s .metaCache m (slotAddr s .metaCache m j)) .metaCache := by
      rw [hs.slabs_eq]
      exact hu.1
    have hpos := hinv.nInuse_pos ⟨hm, by decide, (hinv.metaSelf m hm).2⟩
    refine ⟨_, _, ?_, hinv, ?_, hs.slabs_eq, rfl, rfl⟩
    · simp only [kmemCacheFreeBy, Bool.false_eq_true, if_false]
      exact if_neg (by omega)
    · intro k d i hud _
      refine hs.used hud ?_
      rintro rfl
      have := h.cache_unique hud.1 hu.1
      cases this

/-- Taking an unused slab off the list of its cache. -/
theorem Inv.unlinkSlab (h : Inv s fs pg) {k : Fin NKMEMCACHE} {d : Nat}
    (hd : d ∈ slabs s (.normalCache k)) (hzero : (s.slab d).nInuse = 0) :
    Inv (unlinkSlab s (.normalCache k) d) fs pg ∧
      (∀ c, slabs (unlinkSlab s (.normalCache k) d) c = (slabs s c).erase d) := by
  have ho := h.slabOk _ d hd
  have hslabs : ∀ c, slabs (Slab.unlinkSlab s (.normalCache k) d) c = (slabs s c).erase d := by
    intro c
    by_cases hc : c = .normalCache k
    · subst hc
      simp [slabs, Slab.unlinkSlab, h.normalPartitial k]
    · have hnot : d ∉ slabs s c := fun hd' => hc (h.cache_unique hd' hd)
      rw [List.erase_of_not_mem hnot]
      simp [slabs, Slab.unlinkSlab, hc]
  have hsub : ∀ c d', d' ∈ slabs (Slab.unlinkSlab s (.normalCache k) d) c → d' ∈ slabs s c := by
    intro c d' hd'
    rw [hslabs] at hd'
    exact List.mem_of_mem_erase hd'
  have hmeta : ∀ m, m ∈ slabs s .metaCache →
      m ∈ slabs (Slab.unlinkSlab s (.normalCache k) d) .metaCache := by
    intro m hm
    have hne : m ≠ d := by
      rintro rfl
      have := h.cache_unique hm hd
      cases this
    rw [hslabs]
    exact (List.mem_erase_of_ne hne).2 hm
  refine ⟨⟨?_, ?_, ?_, ?_, ?_, ?_, ?_, ?_⟩, hslabs⟩
  · intro c
    by_cases hc : c = .normalCache k
    · subst hc
      simpa [Slab.unlinkSlab] using h.geom _
    · simpa [Slab.unlinkSlab, hc] using h.geom c
  · simpa [Slab.unlinkSlab] using h.metaEmpty
  · intro i
    by_cases hc : CacheId.normalCache i = .normalCache k
    · rw [hc]
      simp [Slab.unlinkSlab, h.normalPartitial k]
    · simpa [Slab.unlinkSlab, hc] using h.normalPartitial i
  · intro c
    rw [hslabs]
    exact (h.nodup c).erase d
  · intro c d' hd'
    have ho' := h.slabOk c d' (hsub c d' hd')
    exact ho'.congr rfl rfl ho'.held rfl
  · intro c
    rw [hslabs]
    by_cases hc : c = .normalCache k
    · -- all objects of the slab are free, and they leave the count with it
      subst hc
      have hperm := List.perm_cons_erase hd
      have hsum := (hperm.map fun x => (fs x).length).sum_eq
      rw [List.map_cons, List.sum_cons] at hsum
      have hcount := ho.count
      have hold := h.freeObjects (.normalCache k)
      have hle := (layout (.normalCache k)).2.2.2.1
      simp only [Slab.unlinkSlab, Function.update_self, (h.geom _).2, hzero]
      omega
    · have hnot : d ∉ slabs s c := fun hd' => hc (h.cache_unique hd' hd)
      rw [List.erase_of_not_mem hnot]
      simpa [Slab.unlinkSlab, hc] using h.freeObjects c
  · exact fun m hm => h.metaSelf m (hsub _ m hm)
  · intro c d' hd'
    obtain ⟨m, hm, j, hj, hnot, heq⟩ := h.descUsed c d' (hsub c d' hd')
    exact ⟨m, hmeta m hm, j, hj, hnot, heq⟩

/-- Clearing a page that no slab uses touches no descriptor and no index array. -/
theorem Inv.clearPage_slab (h : Inv s fs pg) {p : Nat} (hp : ∀ c, ∀ d ∈ slabs s c, pg d ≠ p)
    {c : CacheId} {d : Nat} (hd : d ∈ slabs s c) :
    (clearPage s (page2va p)).slab d = s.slab d := by
  obtain ⟨m, hm, hlo, hhi⟩ := h.desc_page hd
  have hpm := hp _ m hm
  have hpd := hp c d hd
  have harr := (h.slabOk c d hd).array
  unfold sizeofSlab at hhi
  have hdesc : ¬ d / SLAB_SIZE = page2va p / SLAB_SIZE := by
    unfold page2va SLAB_SIZE KERNBASE at *
    omega
  have harray : ¬ (s.slab d).objsDescArray = page2va p := by
    rw [harr]
    unfold page2va offsetofObjsDesc SLAB_SIZE at *
    split <;> omega
  simp only [clearPage, if_neg hdesc, if_neg harray]

/-- `slab_destroy` on a slab without objects in use. -/
theorem slabDestroy_spec (h : Inv s fs pg) {k : Fin NKMEMCACHE} {d : Nat}
    (hd : d ∈ slabs s (.normalCache k)) (hzero : (s.slab d).nInuse = 0) :
    ∃ s' fs', slabDestroy destroySlabDesc d s = .ok s' ∧ Inv s' fs' pg ∧
      KeepsBut (fun d' _ => d' = d) s fs s' fs' := by
  have ho := h.slabOk _ d hd
  have hoff : objsOffset (.normalCache k) < SLAB_SIZE := by
    obtain ⟨hpos, _, hn, _, hfit, _⟩ := layout (.normalCache k)
    have := Nat.mul_pos hn hpos
    unfold SLAB_SIZE
    omega
  have hva : va2page s (s.slab d).firstObjMem = some (pg d) := by
    rw [ho.first]
    exact va2page_of_mem ho.page (Nat.le_add_right _ _) (Nat.add_lt_add_left hoff _)
  obtain ⟨hinv₁, hslabs₁⟩ := h.unlinkSlab hd hzero
  -- the slab is off its list, so its page is nobody's
  have hmem₁ : ∀ c d', d' ∈ slabs (unlinkSlab s (.normalCache k) d) c →
      d' ∈ slabs s c ∧ d' ≠ d := by
    intro c d' hd'
    rw [hslabs₁] at hd'
    exact ⟨List.mem_of_mem_erase hd', fun he => by
      rw [he] at hd'
      exact (List.Nodup.not_mem_erase (h.nodup c)) hd'⟩
  have hpage₁ : ∀ c, ∀ d' ∈ slabs (unlinkSlab s (.normalCache k) d) c, pg d' ≠ pg d := by
    intro c d' hd' he
    obtain ⟨hold, hne⟩ := hmem₁ c d' hd'
    exact hne (h.same_page hold hd he).1
  have hslab₂ : ∀ c, ∀ d' ∈ slabs (unlinkSlab s (.normalCache k) d) c,
      (clearPage (unlinkSlab s (.normalCache k) d) (page2va (pg d))).slab d' = s.slab d' :=
    fun c d' hd' => hinv₁.clearPage_slab hpage₁ hd'
  have hinv₂ : Inv (clearPage (unlinkSlab s (.normalCache k) d) (page2va (pg d))) fs pg :=
    hinv₁.congr rfl hslab₂ (fun _ _ _ => rfl) (fun c d' hd' => (hinv₁.slabOk c d' hd').held) rfl
  -- its descriptor is an object of `meta_cache`, and no slab has its descriptor there any more
  obtain ⟨m, hm, j, hj, hnot, heq⟩ := h.descUsed _ d hd
  have hm₁ : m ∈ slabs (unlinkSlab s (.normalCache k) d) .metaCache := by
    have hne : m ≠ d := by
      rintro rfl
      have := h.cache_unique hm hd
      cases this
    rw [hslabs₁]
    exact (List.mem_erase_of_ne hne).2 hm
  have heq₂ : d = slotAddr (clearPage (unlinkSlab s (.normalCache k) d) (page2va (pg d)))
      .metaCache m j := by
    rw [slotAddr, hslab₂ _ m hm₁]
    exact heq
  obtain ⟨s₃, fs₃, hok₃, hinv₃, hkeep₃, hslabs₃, hpg₃, hn₃⟩ :=
    destroySlabDesc_spec hinv₂ (m := m) (j := j) ⟨hm₁, hj, hnot⟩
      (fun c' d' hd' => heq₂ ▸ (hmem₁ c' d' hd').2)
  rw [← heq₂] at hok₃
  have hpage₃ : ∀ c, ∀ d' ∈ slabs s₃ c, pg d' ≠ pg d := by
    intro c d' hd'
    rw [hslabs₃] at hd'
    exact hpage₁ c d' hd'
  have hinv₄ : Inv (clearLru s₃ (pg d)) fs₃ pg := by
    refine hinv₃.congr rfl (fun _ _ _ => rfl) (fun c d' hd' => ?_)
      (fun c d' hd' => (hinv₃.slabOk c d' hd').held) rfl
    have := hpage₃ c d' hd'
    simp [clearLru, this]
  have hlt : Mapped (clearLru s₃ (pg d)).npagesNum (pg d) := by
    show Mapped s₃.npagesNum (pg d)
    rw [hn₃]
    exact ho.page
  obtain ⟨hinv₅, hkeep₅⟩ := hinv₄.kmemFreePage (p := pg d) hpage₃ hlt
  refine ⟨_, fs₃, ?_, hinv₅, ?_⟩
  · simp only [slabDestroy, hva, ho.lruNext, reduceCtorEq, if_false, hok₃]
  · intro k' d' i hu hne
    have hd₁ : d' ∈ slabs (unlinkSlab s (.normalCache k) d) (.normalCache k') := by
      rw [hslabs₁]
      exact (List.mem_erase_of_ne hne).2 hu.1
    obtain ⟨hu₃, heq₃⟩ := hkeep₃ k' d' i ⟨hd₁, hu.2⟩ id
    obtain ⟨hu₅, heq₅⟩ := hkeep₅ _ d' i hu₃
    refine ⟨hu₅, heq₅.trans (heq₃.trans ?_)⟩
    rw [slotAddr, hslab₂ _ d' hd₁]
    rfl

/-- **Release of an object**: the other objects in use stay where they are. -/
theorem kfree_spec (h : Inv s fs pg) {k : Fin NKMEMCACHE} {d i : Nat}
    (hu : Used s fs (.normalCache k) d i) :
    ∃ s' fs', kfree s (slotAddr s (.normalCache k) d i) = .ok s' ∧ Inv s' fs' pg ∧
      KeepsBut (fun d' i' => d' = d ∧ i' = i) s fs s' fs' := by
  unfold kfree
  rw [kfreeBy_slot h hu.1 hu.2.1]
  cases (s.page (pg d)).reserved with
  | true => exact ⟨s, fs, rfl, h, fun _ _ _ hu _ => ⟨hu, rfl⟩⟩
  | false =>
    obtain ⟨hinv, hs⟩ := h.putObj hu (by simp)
    have hkeep : KeepsBut (fun d' i' => d' = d ∧ i' = i) s fs
        (putObj s (.normalCache k) d (slotAddr s (.normalCache k) d i))
        (Function.update fs d (i :: fs d)) := by
      intro k' d' i' hu' hne
      refine hs.used hu' ?_
      rintro rfl hmem
      rcases List.mem_cons.1 hmem with rfl | hmem
      · exact hne ⟨rfl, rfl⟩
      · exact hu'.2.2 hmem
    simp only [kmemCacheFreeBy, Bool.false_eq_true, if_false]
    by_cases hzero : ((putObj s (.normalCache k) d
        (slotAddr s (.normalCache k) d i)).slab d).nInuse = 0
    · rw [if_pos hzero]
      obtain ⟨s', fs', hok, hinv', hkeep'⟩ :=
        slabDestroy_spec hinv (by rw [hs.slabs_eq]; exact hu.1) hzero
      refine ⟨s', fs', hok, hinv', hkeep.trans ?_⟩
      -- no object of a slab with count 0 is in use
      intro k' d' i' hu' _
      refine hkeep' k' d' i' hu' ?_
      rintro rfl
      have := hinv.nInuse_pos hu'
      omega
    · rw [if_neg hzero]
      exact ⟨_, _, rfl, hinv, hkeep⟩

end Release

/-! ## §8 Whole runs -/

/-- Every live object is a slot in use, large enough, and no two have the same address. -/
structure LiveOk (s : Kmem) (fs : Nat → List Nat) (live : List Obj) : Prop where
  slot : ∀ o ∈ live, o.size ≤ objSizeOf (.normalCache o.cache) ∧
    ∃ d i, Used s fs (.normalCache o.cache) d i ∧ o.addr = slotAddr s (.normalCache o.cache) d i
  nodup : (live.map Obj.addr).Nodup

/-- The invariant of a run. -/
def HeapInv (h : Heap) : Prop := ∃ fs pg, Inv h.kmem fs pg ∧ LiveOk h.kmem fs h.live

theorem slabInit_inv (npagesNum : Nat) (slab : Nat → SlabDesc)
    (page : Nat → Page) : HeapInv ⟨slabInit npagesNum slab page, []⟩ := by
  refine ⟨fun _ => [], fun _ => 0, ⟨fun c => ⟨rfl, rfl⟩, rfl, fun _ => rfl, ?_, ?_, ?_, ?_, ?_⟩,
    ⟨by simp, by simp⟩⟩ <;> simp [slabInit, slabs, kmemCacheInit]

/-- The invariant rules out overlaps. -/
theorem HeapInv.noOverlap {h : Heap} (hinv : HeapInv h) : NoOverlap h := by
  obtain ⟨fs, pg, hi, hl⟩ := hinv
  have hgeom := hi.geom
  refine ⟨?_, ?_, ?_⟩
  · intro o ho
    obtain ⟨hsize, d, i, hu, haddr⟩ := hl.slot o ho
    have hok := hi.slabOk _ d hu.1
    obtain ⟨hlo, hhi⟩ := hi.slot_inside hu.1 hu.2.1
    refine ⟨d, hu.1, pg d, hok.held, i, by rw [(hgeom _).2]; exact hu.2.1, hok.lruPrev, ?_, ?_, ?_,
      ?_⟩
    · rw [(hgeom _).1]
      exact haddr
    · rw [(hgeom _).1]
      exact hsize
    · omega
    · rw [(hgeom _).1, haddr]
      exact hhi
  · have hpair := List.pairwise_map.1 hl.nodup
    refine List.Pairwise.imp_of_mem ?_ hpair
    intro o o' ho ho' hne
    obtain ⟨_, d, i, hu, haddr⟩ := hl.slot o ho
    obtain ⟨_, d', i', hu', haddr'⟩ := hl.slot o' ho'
    rw [(hgeom _).1, (hgeom _).1, haddr, haddr']
    refine hi.slot_apart hu.1 hu'.1 hu.2.1 hu'.2.1 ?_
    rintro ⟨rfl, rfl⟩
    have hc := hi.cache_unique hu.1 hu'.1
    rw [hc] at haddr
    exact hne (haddr.trans haddr'.symm)
  · intro o ho c d' hd'
    obtain ⟨_, d, i, hu, haddr⟩ := hl.slot o ho
    rw [(hgeom _).1, (hgeom _).2, haddr]
    exact ⟨hi.slot_apart_desc hu.1 hu.2.1 hd', hi.slot_apart_array hu.1 hu.2.1 hd'⟩

/-- Live objects stay live slots while slots in use are kept. -/
theorem LiveOk.keeps {s s' : Kmem} {fs fs' : Nat → List Nat} {live : List Obj}
    (hl : LiveOk s fs live) (hk : Keeps s fs s' fs') : LiveOk s' fs' live := by
  refine ⟨fun o ho => ?_, hl.nodup⟩
  obtain ⟨hsize, d, i, hu, haddr⟩ := hl.slot o ho
  obtain ⟨hu', heq⟩ := hk _ d i hu
  exact ⟨hsize, d, i, hu', haddr.trans heq.symm⟩

/-- The results of `alloc_page` that come with a call do not concern the invariant. -/
theorem Inv.setSupply {s : Kmem} {fs : Nat → List Nat} {pg : Nat → Nat} (h : Inv s fs pg)
    (supply : List (Option (Nat × Bool))) : Inv { s with supply := supply } fs pg :=
  h.congr rfl (fun _ _ _ => rfl) (fun _ _ _ => rfl) (fun c d hd => (h.slabOk c d hd).held) rfl

/-- Every call keeps the invariant when the last slab has a free object. -/
theorem step_ok_of_lastSlabFree (h : Heap) (o : Op) (hinv : HeapInv h)
    (hc : Valid h o ∧ LastSlabFree h o) : ∃ h', step h o = .ok h' ∧ StepOk h o h' ∧ HeapInv h' := by
  obtain ⟨hv, hlast⟩ := hc
  suffices hsuf : ∃ h', step h o = .ok h' ∧ HeapInv h' by
    obtain ⟨h', hok, hinv'⟩ := hsuf
    exact ⟨h', hok, hinv'.noOverlap, hinv'⟩
  obtain ⟨fs, pg, hi, hl⟩ := hinv
  cases o with
  | kmalloc size gfpFlags supply =>
    obtain ⟨hpos, hle, hsup⟩ := hv
    have hguard : ¬ (SLAB_SIZE < size ∨ size = 0) := by omega
    have hkeep : ∀ s' fs', Keeps { h.kmem with supply := supply } fs s' fs' →
        Keeps h.kmem fs s' fs' := fun _ _ hk => hk
    rcases kmemCacheAlloc_spec (hi.setSupply supply) hsup (cacheIdx size gfpFlags) hlast with
      ⟨s', fs', pg', hok, hf⟩ | ⟨a, s', fs', pg', d, i, hok, hall⟩
    · exact ⟨⟨s', h.live⟩, by simp only [step, kmalloc, if_neg hguard, hok],
        fs', pg', hf.inv, hl.keeps (hkeep _ _ hf.keeps)⟩
    · have hl' := hl.keeps (hkeep _ _ hall.follows.keeps)
      refine ⟨⟨s', ⟨a, size, cacheIdx size gfpFlags⟩ :: h.live⟩,
        by simp only [step, kmalloc, if_neg hguard, hok], fs', pg', hall.follows.inv, ?_, ?_⟩
      · intro o ho
        rcases List.mem_cons.1 ho with rfl | ho
        · exact ⟨le_objSizeOf_cacheIdx hle gfpFlags, d, i, hall.used, hall.addr⟩
        · exact hl'.slot o ho
      · -- the new slot was not in use, those of the live objects were
        refine List.nodup_cons.2 ⟨?_, hl.nodup⟩
        intro hmem
        obtain ⟨o, ho, heq⟩ := List.mem_map.1 hmem
        obtain ⟨_, d', i', hu', haddr'⟩ := hl.slot o ho
        obtain ⟨hu'', heq''⟩ := hkeep _ _ hall.follows.keeps _ d' i' hu'
        have hsame : slotAddr s' (.normalCache o.cache) d' i' =
            slotAddr s' (.normalCache (cacheIdx size gfpFlags)) d i := by
          rw [heq'', ← haddr', heq]
          exact hall.addr
        obtain ⟨rfl, rfl⟩ := hall.follows.inv.slot_inj hu''.1 hall.used.1 hu''.2.1 hall.used.2.1 hsame
        exact hall.fresh _ hu'
  | kfree objp =>
    obtain ⟨o, ho, rfl⟩ := hv
    obtain ⟨_, d, i, hu, haddr⟩ := hl.slot o ho
    obtain ⟨s', fs', hok, hinv', hkeep⟩ := kfree_spec hi hu
    rw [← haddr] at hok
    refine ⟨⟨s', h.live.filter fun o' => o'.addr ≠ o.addr⟩, by simp only [step, hok], fs', pg,
      hinv', ?_, ?_⟩
    · intro o' ho'
      obtain ⟨hmem, hne⟩ := List.mem_filter.1 ho'
      obtain ⟨hsize, d', i', hu', haddr'⟩ := hl.slot o' hmem
      have hdiff : ¬ (d' = d ∧ i' = i) := by
        rintro ⟨rfl, rfl⟩
        have hc := hi.cache_unique hu'.1 hu.1
        rw [hc, ← haddr] at haddr'
        simp [haddr'] at hne
      obtain ⟨hu'', heq''⟩ := hkeep _ d' i' hu' hdiff
      exact ⟨hsize, d', i', hu'', haddr'.trans heq''.symm⟩
    · exact hl.nodup.sublist ((List.filter_sublist).map _)

/-- **No overlapping objects**: in every run of `kmalloc` and `kfree` from `slab_init` in which, at
    each `kmalloc` from a cache with counted free objects, the slab grown last has one, all live
    objects are slots of their slabs, large enough, and overlap neither each other nor any slab
    descriptor or index array. -/
theorem noOverlap_of_lastSlabFree (npagesNum : Nat) (slab : Nat → SlabDesc) (page : Nat → Page)
    (ops : List Op)
    (hops : Meets step (fun h o => Valid h o ∧ LastSlabFree h o)
      ⟨slabInit npagesNum slab page, []⟩ ops) :
    Along step StepOk ⟨slabInit npagesNum slab page, []⟩ ops :=
  along_of_meets HeapInv step_ok_of_lastSlabFree (slabInit_inv npagesNum slab page) hops

instance decidableValid (h : Heap) : ∀ o : Op, Decidable (Valid h o)
  | .kmalloc size _ supply => inferInstanceAs (Decidable (0 < size ∧ size ≤ SLAB_SIZE ∧
      ((supply.filterMap id).map Prod.fst).Nodup ∧
      ∀ p ∈ (supply.filterMap id).map Prod.fst,
        (p < h.kmem.npagesNum ∧ page2va p + SLAB_SIZE ≤ 2 ^ 32) ∧ p ∉ h.kmem.held))
  | .kfree objp => inferInstanceAs (Decidable (∃ o ∈ h.live, o.addr = objp))

instance decidableLastSlabFree (h : Heap) : ∀ o : Op, Decidable (LastSlabFree h o)
  | .kmalloc size gfpFlags _ => inferInstanceAs (Decidable
      (0 < (h.kmem.cache (.normalCache (cacheIdx size gfpFlags))).freeObjects →
        ∀ d ∈ (h.kmem.cache (.normalCache (cacheIdx size gfpFlags))).slabsEmpty.getLast?,
          (h.kmem.slab d).free ≠ BUFCTL_END))
  | .kfree _ => inferInstanceAs (Decidable True)

/-- A machine with 64 pages, all descriptors cleared. -/
def smallHeap : Heap := ⟨slabInit 64 (fun _ => zeroSlab) (fun _ => ⟨false, false, none, 0⟩), []⟩

/-- Two objects of half a page, one of them released and taken again, and one from another
    cache. -/
theorem noOverlap_of_lastSlabFree_reuse :
    Along step StepOk smallHeap [.kmalloc 2048 0 [some (10, false), some (11, false)],
      .kmalloc 1500 0 [], .kfree (page2va 10), .kmalloc 2048 0 [],
      .kmalloc 20 GFP_DMA [some (12, false)]] :=
  noOverlap_of_lastSlabFree _ _ _ _ (by decide +kernel)

/-- Two slabs of two objects each, all in use, then the first object is released. -/
def exhaustedLastSlab : List Op :=
  [.kmalloc 2048 0 [some (10, false), some (11, false)], .kmalloc 2048 0 [],
    .kmalloc 2048 0 [some (12, false)], .kmalloc 2048 0 [], .kfree (page2va 10)]

/-- One object is counted as free, the last slab has none: `kmalloc` takes index `BUFCTL_END` of it,
    an address outside every slab. -/
theorem exhaustedLastSlab_overlap :
    Meets step Valid smallHeap (exhaustedLastSlab ++ [.kmalloc 2048 0 []]) ∧
      ¬ Along step StepOk smallHeap (exhaustedLastSlab ++ [.kmalloc 2048 0 []]) := by
  refine ⟨by decide +kernel, fun h => ?_⟩
  obtain ⟨_, h', hrun, hok⟩ := h.last
  have hval : ((exhaustedLastSlab ++ [Op.kmalloc 2048 0 []]).foldlM step smallHeap).toOption.map
      (fun h : Heap => (h.live.head?.map Obj.addr, h.kmem.held)) =
      some (some (page2va 12 + 0xFFFF * 2048), [12, 11, 10]) := by decide +kernel
  rw [hrun] at hval
  obtain ⟨hhead, hheld⟩ := Prod.mk.inj (Option.some.inj hval)
  obtain ⟨o, ho, haddr⟩ := Option.map_eq_some_iff.1 hhead
  obtain ⟨d, _, p, hp, i, _, _, _, _, hlo, hhi⟩ := hok.slot o (List.mem_of_mem_head? ho)
  rw [hheld] at hp
  rw [haddr] at hhi
  unfold page2va SLAB_SIZE at hhi
  simp only [List.mem_cons, List.not_mem_nil, or_false] at hp
  omega

end WeiOS.Slab
