import Mathlib
import WeiOS.Lib.Run

/-!
# The Slab Allocator

Models `kern/slab.c` and `kern/kmalloc.c`: caches of equal-sized objects, one page a slab, the free
objects of a slab chained through an array of indices, and the slab descriptors themselves objects
of `meta_cache`.

Addresses are `Nat`, pages are numbers below `npages_num`, a `struct slab` is a record stored at its
address, and its `objsDesc` is the array that `objs_desc_array` points at. The page allocator is
outside: each `kmalloc` is given the results its calls of `alloc_page` will have. The cache locks
are left out, since a call never takes one twice.
-/

namespace WeiOS.Slab

open WeiOS.Lib

/-! ## §1 Data -/

/-- Virtual address of physical address 0 (`include/mem.h`). -/
def KERNBASE : Nat := 0xF0000000

/-- Size of a page, and of a slab (`include/slab.h`). -/
def SLAB_SIZE : Nat := 4096

/-- Marks the end of a chain of free objects. -/
def BUFCTL_END : Nat := 0xFFFF

/-- Number of normal caches: eight sizes, for ordinary and for DMA memory. -/
def NKMEMCACHE : Nat := 16

/-- `__GFP_DMA` (`include/buddy.h`). -/
def GFP_DMA : Nat := 0x0008

/-- `sizeof(struct slab)`. -/
def sizeofSlab : Nat := 36

/-- `offsetof(struct slab, objs_desc)`. -/
def offsetofObjsDesc : Nat := 12

/-- The caches: `meta_cache` and `normal_caches[i]`. -/
inductive CacheId where
  | metaCache
  | normalCache (i : Fin NKMEMCACHE)
  deriving DecidableEq

/-- `struct slab`; its list node is represented by the lists it is on. -/
structure SlabDesc where
  firstObjMem : Nat
  nInuse : Nat
  free : Nat
  objsDescArray : Nat
  objsDesc : Nat → Nat

/-- A cleared `struct slab`. -/
def zeroSlab : SlabDesc := ⟨0, 0, 0, 0, fun _ => 0⟩

/-- `kmem_cache_t` with its `struct kmem_list`. -/
structure KmemCache where
  objSize : Nat
  nObjsPerSlab : Nat
  slabsEmpty : List Nat
  slabsPartitial : List Nat
  freeObjects : Nat

/-- What the slab allocator keeps in a `struct page`. -/
structure Page where
  reserved : Bool
  inSlab : Bool
  lruNext : Option CacheId
  lruPrev : Nat

/-- The state: caches, slab descriptors, pages, the pages obtained from `alloc_page` and not given
    back, and the results of the next calls of `alloc_page` (page and `RESERVED_PAGE` flag). -/
structure Kmem where
  npagesNum : Nat
  cache : CacheId → KmemCache
  slab : Nat → SlabDesc
  page : Nat → Page
  held : List Nat
  supply : List (Option (Nat × Bool))

/-- Reading through a pointer that is not one. -/
inductive Fault where
  | noSlab
  | nullCache
  deriving DecidableEq

/-! ## §2 Pages -/

/-- `page2va`. -/
def page2va (page : Nat) : Nat := page * SLAB_SIZE + KERNBASE

/-- `va2page`. -/
def va2page (s : Kmem) (va : Nat) : Option Nat :=
  if va < KERNBASE then none
  else if s.npagesNum ≤ (va - KERNBASE) / SLAB_SIZE then none
  else some ((va - KERNBASE) / SLAB_SIZE)

/-- `alloc_page`: the next given result; what was in the descriptor's list node is lost. -/
def allocPage (s : Kmem) : Option Nat × Kmem :=
  match s.supply with
  | [] => (none, s)
  | none :: rest => (none, { s with supply := rest })
  | some (page, reserved) :: rest =>
    (some page,
      { s with
        supply := rest
        held := page :: s.held
        page := Function.update s.page page ⟨reserved, false, none, 0⟩ })

/-- `set_page_slab`. -/
def setPageSlab (s : Kmem) (page : Nat) : Kmem :=
  { s with page := Function.update s.page page { s.page page with inSlab := true } }

/-- `clear_page_slab`. -/
def clearPageSlab (s : Kmem) (page : Nat) : Kmem :=
  { s with page := Function.update s.page page { s.page page with inSlab := false } }

/-- `__free_page`: the page goes back to the page allocator. -/
def freePage (s : Kmem) (page : Nat) : Kmem :=
  { s with held := s.held.erase page }

/-- `kmem_get_page`. -/
def kmemGetPage (s : Kmem) : Option Nat × Kmem :=
  match allocPage s with
  | (none, s) => (none, s)
  | (some page, s) => (some page, setPageSlab s page)

/-- `kmem_free_page`. -/
def kmemFreePage (s : Kmem) (vaddr : Nat) : Kmem :=
  match va2page s vaddr with
  | none => s
  | some page => freePage (clearPageSlab s page) page

/-! ## §3 Allocation -/

/-- The second half of `cache_grow`: `slab` becomes the descriptor of a slab on `page`, with the
    given `n_inuse` and `free`. -/
def initSlab (s : Kmem) (c : CacheId) (page slab nInuse free : Nat) : Kmem :=
  let cachep := s.cache c
  let pVa := page2va page
  { s with
    page := Function.update s.page page { s.page page with lruNext := some c, lruPrev := slab }
    slab := Function.update s.slab slab
      { firstObjMem := if cachep.objSize < 512 then pVa + cachep.nObjsPerSlab * 2 else pVa
        nInuse := nInuse
        free := free
        objsDescArray := if cachep.objSize < 512 then pVa else slab + offsetofObjsDesc
        objsDesc := fun i =>
          if i < cachep.nObjsPerSlab - 1 then i + 1
          else if i = cachep.nObjsPerSlab - 1 then BUFCTL_END
          else (s.slab slab).objsDesc i }
    cache := Function.update s.cache c
      (match c with
        | .metaCache =>
          { cachep with
            slabsPartitial := cachep.slabsPartitial ++ [slab]
            freeObjects := (cachep.freeObjects + cachep.nObjsPerSlab + (2 ^ 32 - 1)) % 2 ^ 32 }
        | .normalCache _ =>
          { cachep with
            slabsEmpty := cachep.slabsEmpty ++ [slab]
            freeObjects := (cachep.freeObjects + cachep.nObjsPerSlab) % 2 ^ 32 }) }

/-- `cache_grow`; `allocSlabDesc` gives the descriptor of a slab outside `meta_cache`. -/
def cacheGrow (allocSlabDesc : Kmem → Except Fault (Option Nat × Kmem)) (c : CacheId) (s : Kmem) :
    Except Fault (Option Nat × Kmem) :=
  match kmemGetPage s with
  | (none, s) => .ok (none, s)
  | (some page, s) =>
    match c with
    | .metaCache =>
      let slab := page2va page + (s.cache c).nObjsPerSlab * 2
      .ok (some slab, initSlab s c page slab 1 1)
    | .normalCache _ =>
      match allocSlabDesc s with
      | .error e => .error e
      | .ok (none, s) => .ok (none, kmemFreePage s (page2va page))
      | .ok (some slab, s) => .ok (some slab, initSlab s c page slab 0 0)

/-- The slab that `kmem_cache_alloc` picks while it counts free objects: the last partial slab with
    a free object, else the last of the slabs listed as empty, whether it has one or not. -/
def pickSlab (s : Kmem) (c : CacheId) : Option Nat :=
  match (s.cache c).slabsPartitial.reverse.find? (fun d => (s.slab d).free != BUFCTL_END) with
  | some d => some d
  | none => (s.cache c).slabsEmpty.getLast?

/-- Address of object `i` of a slab, in 32-bit arithmetic. -/
def objAddr (s : Kmem) (c : CacheId) (d i : Nat) : Nat :=
  ((s.slab d).firstObjMem + i * (s.cache c).objSize) % 2 ^ 32

/-- `find_slab`, the end of `kmem_cache_alloc`: unchain the first free object of slab `d`, and
    clear it; an object of `meta_cache` is a `struct slab`. -/
def takeObj (s : Kmem) (c : CacheId) (d : Nat) : Nat × Kmem :=
  let slabp := s.slab d
  let objAddr := objAddr s c d slabp.free
  let slab := Function.update s.slab d
    { slabp with
      free := slabp.objsDesc slabp.free
      nInuse := (slabp.nInuse + 1) % 2 ^ 16 }
  (objAddr,
    { s with
      cache := Function.update s.cache c
        { s.cache c with freeObjects := ((s.cache c).freeObjects + (2 ^ 32 - 1)) % 2 ^ 32 }
      slab := if c = .metaCache then Function.update slab objAddr zeroSlab else slab })

/-- `kmem_cache_alloc`, over a given `cache_grow`. -/
def kmemCacheAllocBy (grow : Kmem → Except Fault (Option Nat × Kmem)) (c : CacheId) (s : Kmem) :
    Except Fault (Option Nat × Kmem) :=
  if 0 < (s.cache c).freeObjects then
    match pickSlab s c with
    | none => .error .noSlab
    | some d => .ok ((takeObj s c d).map some id)
  else
    match grow s with
    | .error e => .error e
    | .ok (none, s) => .ok (none, s)
    | .ok (some d, s) => .ok ((takeObj s c d).map some id)

/-- `alloc_slab_desc`: an object of `meta_cache`, which carries the descriptors of its own slabs. -/
def allocSlabDesc (s : Kmem) : Except Fault (Option Nat × Kmem) :=
  kmemCacheAllocBy (cacheGrow (fun s => .ok (none, s)) .metaCache) .metaCache s

/-- `kmem_cache_alloc` on a normal cache. -/
def kmemCacheAlloc (c : CacheId) (s : Kmem) : Except Fault (Option Nat × Kmem) :=
  kmemCacheAllocBy (cacheGrow allocSlabDesc c) c s

/-- The loop of `kmalloc`: double `tmp_size` until it reaches `size`, at most eight times. -/
def cacheIdxLoop (size : Nat) : Nat → Nat → Nat → Nat
  | 0, cacheIdx, _ => cacheIdx
  | fuel + 1, cacheIdx, tmpSize =>
    if tmpSize < size then cacheIdxLoop size fuel (cacheIdx + 1) (tmpSize * 2) else cacheIdx

/-- The index into `normal_caches` that `kmalloc` computes. -/
def cacheIdx (size gfpFlags : Nat) : Fin NKMEMCACHE :=
  ⟨(cacheIdxLoop size 8 0 32 + NKMEMCACHE / 2 * (if gfpFlags &&& GFP_DMA ≠ 0 then 1 else 0)) %
    NKMEMCACHE, Nat.mod_lt _ (by decide)⟩

/-- `kmalloc`. -/
def kmalloc (s : Kmem) (size gfpFlags : Nat) : Except Fault (Option Nat × Kmem) :=
  if SLAB_SIZE < size ∨ size = 0 then .ok (none, s)
  else kmemCacheAlloc (.normalCache (cacheIdx size gfpFlags)) s

/-! ## §4 Release -/

/-- `memset(page_va, 0, SLAB_SIZE)`: the descriptors on the page and the index array at its start
    are cleared. -/
def clearPage (s : Kmem) (pageVa : Nat) : Kmem :=
  { s with
    slab := fun a =>
      if a / SLAB_SIZE = pageVa / SLAB_SIZE then zeroSlab
      else if (s.slab a).objsDescArray = pageVa then { s.slab a with objsDesc := fun _ => 0 }
      else s.slab a }

/-- `list_del` and the count at the start of `slab_destroy`. -/
def unlinkSlab (s : Kmem) (c : CacheId) (d : Nat) : Kmem :=
  let cachep := s.cache c
  { s with
    cache := Function.update s.cache c
      { cachep with
        slabsEmpty := cachep.slabsEmpty.erase d
        slabsPartitial := cachep.slabsPartitial.erase d
        freeObjects := (cachep.freeObjects + (2 ^ 32 -
          (cachep.nObjsPerSlab - (s.slab d).nInuse))) % 2 ^ 32 } }

/-- The page's list node is cleared at the end of `slab_destroy`. -/
def clearLru (s : Kmem) (page : Nat) : Kmem :=
  { s with page := Function.update s.page page { s.page page with lruNext := none, lruPrev := 0 } }

/-- `slab_destroy`; `destroySlabDesc` frees the descriptor of a slab outside `meta_cache`. -/
def slabDestroy (destroySlabDesc : Nat → Kmem → Except Fault Kmem) (d : Nat) (s : Kmem) :
    Except Fault Kmem :=
  match va2page s (s.slab d).firstObjMem with
  | none => .error .nullCache
  | some page =>
    match (s.page page).lruNext with
    | none => .error .nullCache
    | some c =>
      let s := clearPage (unlinkSlab s c d) (page2va page)
      match (if c = .metaCache then .ok s else destroySlabDesc d s) with
      | .error e => .error e
      | .ok s => .ok (kmemFreePage (clearLru s page) (page2va page))

/-- The object goes back on the chain of its slab, the first half of `kmem_cache_free`. -/
def putObj (s : Kmem) (c : CacheId) (d objp : Nat) : Kmem :=
  let slabp := s.slab d
  let objIndex := (objp + 2 ^ 32 - slabp.firstObjMem) % 2 ^ 16 / (s.cache c).objSize
  { s with
    slab := Function.update s.slab d
      { slabp with
        objsDesc := Function.update slabp.objsDesc objIndex slabp.free
        free := objIndex
        nInuse := (slabp.nInuse + (2 ^ 16 - 1)) % 2 ^ 16 }
    cache := Function.update s.cache c
      { s.cache c with freeObjects := ((s.cache c).freeObjects + 1) % 2 ^ 32 } }

/-- `kmem_cache_free`, over a given `slab_destroy`. -/
def kmemCacheFreeBy (slabDestroy : Nat → Kmem → Except Fault Kmem) (c : CacheId) (d objp : Nat)
    (s : Kmem) : Except Fault Kmem :=
  let s := putObj s c d objp
  if (s.slab d).nInuse = 0 then slabDestroy d s else .ok s

/-- `kfree`, over a given `kmem_cache_free`. -/
def kfreeBy (kmemCacheFree : CacheId → Nat → Nat → Kmem → Except Fault Kmem) (objp : Nat)
    (s : Kmem) : Except Fault Kmem :=
  match va2page s objp with
  | none => .ok s
  | some page =>
    if (s.page page).reserved then .ok s
    else if !(s.page page).inSlab then .ok s
    else
      match (s.page page).lruNext with
      | none => .error .nullCache
      | some c => kmemCacheFree c (s.page page).lruPrev objp s

/-- `destroy_slab_desc`: `kfree` of an object of `meta_cache`. -/
def destroySlabDesc (d : Nat) (s : Kmem) : Except Fault Kmem :=
  kfreeBy (kmemCacheFreeBy (slabDestroy fun _ s => .ok s)) d s

/-- `kfree`. -/
def kfree (s : Kmem) (objp : Nat) : Except Fault Kmem :=
  kfreeBy (kmemCacheFreeBy (slabDestroy destroySlabDesc)) objp s

/-! ## §5 Steps and runs -/

/-- The object size of a cache, as `slab_init` sets it. -/
def objSizeOf : CacheId → Nat
  | .metaCache => sizeofSlab
  | .normalCache i => 32 * 2 ^ (i.val % (NKMEMCACHE / 2))

/-- `kmem_cache_init`. -/
def kmemCacheInit (objSize : Nat) : KmemCache where
  objSize := objSize
  nObjsPerSlab := if objSize < 512 then SLAB_SIZE / (objSize + 2) else SLAB_SIZE / objSize
  slabsEmpty := []
  slabsPartitial := []
  freeObjects := 0

/-- `slab_init`; memory and page descriptors are arbitrary. -/
def slabInit (npagesNum : Nat) (slab : Nat → SlabDesc) (page : Nat → Page) : Kmem where
  npagesNum := npagesNum
  cache := fun c => kmemCacheInit (objSizeOf c)
  slab := slab
  page := page
  held := []
  supply := []

/-- An object in use: its address, the size asked for, and the cache it came from. -/
structure Obj where
  addr : Nat
  size : Nat
  cache : Fin NKMEMCACHE
  deriving DecidableEq

/-- The allocator together with the objects its callers hold. -/
structure Heap where
  kmem : Kmem
  live : List Obj

/-- A call of the allocator; `kmalloc` comes with the results of its calls of `alloc_page`. -/
inductive Op where
  | kmalloc (size gfpFlags : Nat) (supply : List (Option (Nat × Bool)))
  | kfree (objp : Nat)

/-- One call. -/
def step (h : Heap) : Op → Except Fault Heap
  | .kmalloc size gfpFlags supply =>
    match kmalloc { h.kmem with supply := supply } size gfpFlags with
    | .error e => .error e
    | .ok (none, s) => .ok ⟨s, h.live⟩
    | .ok (some a, s) => .ok ⟨s, ⟨a, size, cacheIdx size gfpFlags⟩ :: h.live⟩
  | .kfree objp =>
    match kfree h.kmem objp with
    | .error e => .error e
    | .ok s => .ok ⟨s, h.live.filter fun o => o.addr ≠ objp⟩

/-- A page of the machine with an address above `KERNBASE`. -/
def Mapped (npagesNum page : Nat) : Prop :=
  page < npagesNum ∧ page2va page + SLAB_SIZE ≤ 2 ^ 32

/-- Sizes are between 1 and a page, `alloc_page` hands out distinct pages that are not held, and
    only live objects are freed. -/
def Valid (h : Heap) : Op → Prop
  | .kmalloc size _ supply => 0 < size ∧ size ≤ SLAB_SIZE ∧
      ((supply.filterMap id).map Prod.fst).Nodup ∧
      ∀ p ∈ (supply.filterMap id).map Prod.fst,
        Mapped h.kmem.npagesNum p ∧ p ∉ h.kmem.held
  | .kfree objp => ∃ o ∈ h.live, o.addr = objp

/-- All slabs of a cache. -/
def slabs (s : Kmem) (c : CacheId) : List Nat :=
  (s.cache c).slabsPartitial ++ (s.cache c).slabsEmpty

/-- Two stretches of memory, given by their starts and lengths, do not overlap. -/
def Apart (a n b m : Nat) : Prop := a + n ≤ b ∨ b + m ≤ a

/-- No memory is given out twice: every live object is a slot, large enough, of a slab of its cache
    and inside the page of that slab; the slots of live objects do not overlap; and none of them
    overlaps the descriptor or the index array of a slab. -/
structure NoOverlap (h : Heap) : Prop where
  slot : ∀ o ∈ h.live, ∃ d ∈ slabs h.kmem (.normalCache o.cache), ∃ page ∈ h.kmem.held,
    ∃ i < (h.kmem.cache (.normalCache o.cache)).nObjsPerSlab,
      (h.kmem.page page).lruPrev = d ∧
      o.addr = (h.kmem.slab d).firstObjMem + i * (h.kmem.cache (.normalCache o.cache)).objSize ∧
      o.size ≤ (h.kmem.cache (.normalCache o.cache)).objSize ∧
      page2va page ≤ o.addr ∧
      o.addr + (h.kmem.cache (.normalCache o.cache)).objSize ≤ page2va page + SLAB_SIZE
  live : h.live.Pairwise fun o o' =>
    Apart o.addr (h.kmem.cache (.normalCache o.cache)).objSize
      o'.addr (h.kmem.cache (.normalCache o'.cache)).objSize
  desc : ∀ o ∈ h.live, ∀ c, ∀ d ∈ slabs h.kmem c,
    Apart o.addr (h.kmem.cache (.normalCache o.cache)).objSize d sizeofSlab ∧
      Apart o.addr (h.kmem.cache (.normalCache o.cache)).objSize
        (h.kmem.slab d).objsDescArray (2 * (h.kmem.cache c).nObjsPerSlab)

/-- What a call has to satisfy. -/
def StepOk (_ : Heap) (_ : Op) (h' : Heap) : Prop := NoOverlap h'

/-- The condition on the state before a call: when `kmalloc` counts free objects in its cache, the
    most recently grown slab of that cache has one. -/
def LastSlabFree (h : Heap) : Op → Prop
  | .kmalloc size gfpFlags _ =>
    0 < (h.kmem.cache (.normalCache (cacheIdx size gfpFlags))).freeObjects →
      ∀ d ∈ (h.kmem.cache (.normalCache (cacheIdx size gfpFlags))).slabsEmpty.getLast?,
        (h.kmem.slab d).free ≠ BUFCTL_END
  | .kfree _ => True

end WeiOS.Slab
