import Mathlib
import WeiOS.Lib.IntrusiveList

/-!
# The Buddy Allocator

Models `kern/buddy.c` and `buddy_init` of `kern/pmap.c`: two zones with their free lists, per-cpu
page caches and reserved pages, all of them intrusive lists over the page descriptors.

Page descriptors and page frames are both named by their index in `pages`. Every list of the source
is a ring of raw pointers (`WeiOS.Lib.Links`): a page that is linked twice, or deleted from a list
it is not on, corrupts the lists here as it does there. Physical addresses are byte addresses below
`2 ^ 32`, so no sum of them wraps. The contents of pages and the wait queues are left out.
-/

set_option linter.style.nameCheck false

namespace WeiOS.Buddy

open WeiOS.Lib

/-! ## §1 Data -/

/-- Bytes in a page, and in the range of a page table (`include/mmu.h`). -/
def PGSIZE : Nat := 4096
def PDENTRIES : Nat := 1024
def PTSIZE : Nat := PGSIZE * PDENTRIES
def KERNBASE : Nat := 0xF0000000

/-- The levels contain 1, 2, 4, ... and 1024 contiguous page frames (`include/buddy.h`). -/
def MEMLEVEL : Nat := 11
def IN_BUDDY : Nat := 12
def OUT_OF_BUDDY : Nat := 13

/-- Bits of `flag` in a page descriptor (`include/mem.h`). -/
def RESERVED_PAGE : Nat := 0x0002

/-- Allocation flags (`include/buddy.h`). -/
def GFP_COLD : Nat := 0x0001
def GFP_WAIT : Nat := 0x0004
def GFP_DMA : Nat := 0x0008
def GFP_IRQ : Nat := 0x0010

/-- The two entries of `zones_list`. -/
inductive ZoneId where
  | kern
  | normal
  deriving DecidableEq

/-- The list heads of a zone: `free_area[k].free_list`, `pageset[c].free_list` (0 hot, 1 cold) and
    `reserved_pages_list`. -/
inductive ListId where
  | freeArea (z : ZoneId) (k : Nat)
  | pageset (z : ZoneId) (c : Nat)
  | reserved (z : ZoneId)
  deriving DecidableEq

/-- `struct page`; its list node is represented by the links. -/
structure Page where
  flag : Nat
  pPrivate : Nat
  pRef : Nat
  deriving DecidableEq

/-- `struct per_cpu_pageset`. -/
structure Pageset where
  count : Nat
  low : Nat
  high : Nat
  batch : Nat

/-- `struct zone`; `nrFree k` is `free_area[k].nr_free`. -/
structure Zone where
  freePages : Int
  pagesLow : Int
  pagesReserved : Int
  nrFree : Nat → Nat
  pageset : Nat → Pageset
  zoneFirstPage : Nat
  zoneLock : Bool

/-- Page descriptors, list pointers and zones. -/
structure Mem where
  npagesNum : Nat
  page : Nat → Page
  links : Links (Node ListId Nat)
  zone : ZoneId → Zone

/-- What ends a call other than a return: a null pointer, an index outside `free_area`, a list head
    taken for a page, a lock taken twice, and going to sleep. -/
inductive Fault where
  | nullPointer
  | freeArea
  | notPage
  | deadlock
  | asleep
  deriving DecidableEq

/-- What `mem_init` leaves for `buddy_init`: zeroed page descriptors, and the zones in `.bss`. -/
def zeroMem (npagesNum : Nat) : Mem where
  npagesNum := npagesNum
  page := fun _ => ⟨0, 0, 0⟩
  links := ⟨fun _ => none, fun _ => none⟩
  zone := fun _ => ⟨0, 0, 0, fun _ => 0, fun _ => ⟨0, 0, 0, 0⟩, 0, false⟩

/-! ## §2 State updates -/

/-- `page->p_private = v`. -/
def setPrivate (s : Mem) (page v : Nat) : Mem :=
  { s with page := Function.update s.page page { s.page page with pPrivate := v } }

/-- `page->p_ref = 0`. -/
def clearRef (s : Mem) (page : Nat) : Mem :=
  { s with page := Function.update s.page page { s.page page with pRef := 0 } }

/-- A change to one zone. -/
def setZone (s : Mem) (z : ZoneId) (f : Zone → Zone) : Mem :=
  { s with zone := Function.update s.zone z (f (s.zone z)) }

/-- `free_area[k].nr_free += 1`. -/
def incNrFree (k : Nat) (zn : Zone) : Zone :=
  { zn with nrFree := Function.update zn.nrFree k (zn.nrFree k + 1) }

/-- `free_area[k].nr_free -= 1`. -/
def decNrFree (k : Nat) (zn : Zone) : Zone :=
  { zn with nrFree := Function.update zn.nrFree k (zn.nrFree k - 1) }

/-- `free_pages += n`. -/
def addFreePages (n : Int) (zn : Zone) : Zone := { zn with freePages := zn.freePages + n }

/-- A change to one page cache. -/
def setPageset (c : Nat) (f : Pageset → Pageset) (zn : Zone) : Zone :=
  { zn with pageset := Function.update zn.pageset c (f (zn.pageset c)) }

/-- `list_add(&page->lru, list)`. -/
def listAdd (s : Mem) (page : Nat) (l : ListId) : Except Fault Mem :=
  match s.links.add (.elem page) (.head l) with
  | none => .error .nullPointer
  | some L => .ok { s with links := L }

/-- `list_del(&page->lru)`. -/
def listDel (s : Mem) (page : Nat) : Except Fault Mem :=
  match s.links.del (.elem page) with
  | none => .error .nullPointer
  | some L => .ok { s with links := L }

/-- `list_entry(node, struct page, lru)`, for use as a page. -/
def listEntry : Option (Node ListId Nat) → Except Fault Nat
  | some (.elem page) => .ok page
  | some (.head _) => .error .notPage
  | none => .error .nullPointer

/-- `spin_lock_irqsave(&z->zone_lock)`: taking a held lock panics. -/
def lockZone (s : Mem) (z : ZoneId) : Except Fault Mem :=
  if (s.zone z).zoneLock then .error .deadlock
  else .ok (setZone s z fun zn => { zn with zoneLock := true })

/-- `spin_unlock_irqrestore(&z->zone_lock)`. -/
def unlockZone (s : Mem) (z : ZoneId) : Mem :=
  setZone s z fun zn => { zn with zoneLock := false }

/-! ## §3 Blocks -/

/-- `page_is_buddy`. -/
def pageIsBuddy (s : Mem) (buddy order : Nat) : Bool :=
  decide ((s.page buddy).pPrivate = order) && decide ((s.page buddy).pRef = 0)

/-- The first order from `order` on with a block, the search of `__rmqueue`. -/
def findArea (s : Mem) (z : ZoneId) (order : Nat) : Option Nat :=
  (List.range' order (MEMLEVEL - order)).find? fun k => !s.links.isEmpty (.head (.freeArea z k))

/-- The repair loop of `__rmqueue`, with `d` halvings left to do above `order`: the upper half goes
    back to the free list of its order. -/
def splitBlock (z : ZoneId) (page order : Nat) : Nat → Mem → Except Fault Mem
  | 0, s => .ok s
  | d + 1, s => do
    let currOrder := order + d
    let buddy := page + 2 ^ currOrder
    let s ← listAdd s buddy (.freeArea z currOrder)
    splitBlock z page order d (setPrivate (setZone s z (incNrFree currOrder)) buddy currOrder)

/-- `__rmqueue`. -/
def __rmqueue (s : Mem) (z : ZoneId) (order : Nat) : Except Fault (Option Nat × Mem) :=
  match findArea s z order with
  | none => .ok (none, s)
  | some currOrder => do
    let page ← listEntry (s.links.next (.head (.freeArea z currOrder)))
    let s ← listDel s page
    let s := setPrivate s page OUT_OF_BUDDY
    let s := setZone (setZone s z (decNrFree currOrder)) z (addFreePages (-(2 ^ order : Nat)))
    let s ← splitBlock z page order (currOrder - order) s
    pure (some page, s)

/-- The merge loop of `__free_pages_bulk`, with `n` orders left below `MEMLEVEL`; it ends with the
    index and the order of the coalesced block. -/
def coalesce (z : ZoneId) : Nat → Nat → Nat → Mem → Except Fault (Nat × Nat × Mem)
  | 0, pageIdx, order, s => .ok (pageIdx, order, s)
  | n + 1, pageIdx, order, s =>
    let buddyIdx := pageIdx ^^^ 2 ^ order
    let buddy := (s.zone z).zoneFirstPage + buddyIdx
    if pageIsBuddy s buddy order then do
      let s ← listDel s buddy
      let s := setPrivate (setZone s z (decNrFree order)) buddy IN_BUDDY
      coalesce z n (pageIdx &&& buddyIdx) (order + 1) s
    else .ok (pageIdx, order, s)

/-- `__free_pages_bulk`. The loop runs while `order < MEMLEVEL`, so it can end with
    `order = MEMLEVEL`, which is no index of `free_area`. -/
def __freePagesBulk (s : Mem) (z : ZoneId) (page order : Nat) : Except Fault Mem := do
  let pageIdx := page - (s.zone z).zoneFirstPage
  let (idx, k, s) ← coalesce z (MEMLEVEL - order) pageIdx order s
  let coalesced := (s.zone z).zoneFirstPage + idx
  let s := setPrivate s coalesced k
  if MEMLEVEL ≤ k then .error .freeArea
  else do
    let s ← listAdd s coalesced (.freeArea z k)
    pure (setZone (setZone s z (incNrFree k)) z (addFreePages (2 ^ order : Nat)))

/-! ## §4 Page caches -/

/-- The loop of `free_pages_bulk`: the last page of the list goes back to the zone, `n` times. -/
def freePagesBulk (z : ZoneId) (l : ListId) : Nat → Mem → Except Fault Mem
  | 0, s => .ok s
  | n + 1, s => do
    let page ← listEntry (s.links.prev (.head l))
    let s ← listDel s page
    let s ← __freePagesBulk (clearRef s page) z page 0
    freePagesBulk z l n s

/-- The refill loop of `buffered_rmqueue`; `false` when the zone runs out of pages. -/
def refill (z : ZoneId) (c : Nat) : Nat → Mem → Except Fault (Bool × Mem)
  | 0, s => .ok (true, s)
  | n + 1, s => do
    match ← __rmqueue s z 0 with
    | (none, s) => pure (false, s)
    | (some page, s) =>
      let s := setZone s z (setPageset c fun p => { p with count := p.count + 1 })
      let s ← listAdd s page (.pageset z c)
      refill z c n s

/-- Takes the first page of a page cache, the third step of `buffered_rmqueue`. -/
def takeCached (s : Mem) (z : ZoneId) (c : Nat) : Except Fault (Option Nat × Mem) := do
  let page ← listEntry (s.links.next (.head (.pageset z c)))
  let s := setZone s z (setPageset c fun p => { p with count := p.count - 1 })
  let s ← listDel s page
  pure (some page, setPrivate s page OUT_OF_BUDDY)

/-- `buffered_rmqueue`. The check before a refill is made in unsigned arithmetic, since `batch` is
    unsigned. -/
def bufferedRmqueue (s : Mem) (z : ZoneId) (order gfpFlags : Nat) :
    Except Fault (Option Nat × Mem) :=
  if order = 0 then
    let c := gfpFlags &&& GFP_COLD
    let ps := (s.zone z).pageset c
    if ps.count ≤ ps.low then
      let batch := (ps.high - ps.low) / 2 + 1
      let s := setZone s z (setPageset c fun p => { p with batch := batch })
      if ((s.zone z).freePages - batch) % 2 ^ 32 ≤ (s.zone z).pagesLow % 2 ^ 32 then .ok (none, s)
      else do
        match ← refill z c batch s with
        | (false, s) => pure (none, s)
        | (true, s) => takeCached (setZone s z (setPageset c fun p => { p with batch := 0 })) z c
    else takeCached s z c
  else if (s.zone z).freePages - (2 ^ order : Nat) ≤ (s.zone z).pagesLow then .ok (none, s)
  else do
    match ← __rmqueue s z order with
    | (none, s) => pure (none, s)
    | (some page, s) => pure (some page, setPrivate s page OUT_OF_BUDDY)

/-- The zone that a page descriptor names. -/
def pageZone (s : Mem) (page : Nat) : ZoneId :=
  if (s.page page).flag &&& 1 = 0 then .kern else .normal

/-- The flush loop of `free_hot_cold_page`. -/
def flush (z : ZoneId) (c : Nat) : Nat → Mem → Except Fault Mem
  | 0, s => .ok s
  | n + 1, s => do
    let s ← freePagesBulk z (.pageset z c) 1 s
    flush z c n s

/-- `free_hot_cold_page`. -/
def freeHotColdPage (s : Mem) (page c : Nat) : Except Fault Mem := do
  let z := pageZone s page
  let s ← lockZone s z
  let ps := (s.zone z).pageset c
  let s ← if ps.high < ps.count then do
      let batch := (ps.high - ps.low) / 2 + ps.low
      let s ← flush z c batch s
      pure (setZone s z (setPageset c fun p => { p with count := p.count - batch, batch := 0 }))
    else pure s
  let s ← listAdd s page (.pageset z c)
  pure (unlockZone (setZone s z (setPageset c fun p => { p with count := p.count + 1 })) z)

/-! ## §5 Allocation and release -/

/-- One round of the loop over the zones in `__alloc_pages`: a zone without a page to give keeps its
    lock when `buffered_rmqueue` fails. -/
def tryZone (s : Mem) (z : ZoneId) (order gfpFlags : Nat) : Except Fault (Option Nat × Mem) := do
  let s ← lockZone s z
  if (s.zone z).freePages - (2 ^ order : Nat) ≤ (s.zone z).pagesLow then
    pure (none, unlockZone s z)
  else
    match ← bufferedRmqueue s z order gfpFlags with
    | (none, s) => pure (none, s)
    | (some page, s) => pure (some page, unlockZone s z)

/-- The branch of `__alloc_pages` for `__GFP_DMA`. -/
def allocDma (s : Mem) (order gfpFlags : Nat) : Except Fault (Option Nat × Mem) := do
  let s ← lockZone s .kern
  if (s.zone .kern).freePages - (2 ^ order : Nat) ≤ (s.zone .kern).pagesLow ∧ order ≠ 0 then
    pure (none, unlockZone s .kern)
  else
    let (page, s) ← bufferedRmqueue s .kern order gfpFlags
    pure (page, unlockZone s .kern)

/-- The branch of `__alloc_pages` for `__GFP_IRQ`: a reserved page. -/
def allocIrq (s : Mem) : Except Fault (Option Nat × Mem) := do
  let s ← lockZone s .kern
  if 0 < (s.zone .kern).pagesReserved then
    let page ← listEntry (s.links.next (.head (.reserved .kern)))
    let s ← listDel s page
    let s := setZone s .kern fun zn =>
      { zn with freePages := zn.freePages - 1, pagesReserved := zn.pagesReserved - 1 }
    pure (some page, unlockZone s .kern)
  else pure (none, unlockZone s .kern)

/-- `__alloc_pages`; a caller that waits does not return. -/
def __allocPages (s : Mem) (order gfpFlags : Nat) : Except Fault (Option Nat × Mem) :=
  if MEMLEVEL ≤ order then .ok (none, s)
  else
    let dma := gfpFlags &&& GFP_DMA
    let irq := gfpFlags &&& GFP_IRQ
    let wait := gfpFlags &&& GFP_WAIT
    let gfpFlags := gfpFlags - (gfpFlags &&& GFP_COLD)
    if dma ≠ 0 then allocDma s order gfpFlags
    else if irq ≠ 0 then allocIrq s
    else do
      match ← tryZone s .normal order gfpFlags with
      | (some page, s) => pure (some page, s)
      | (none, s) =>
        match ← tryZone s .kern order gfpFlags with
        | (some page, s) => pure (some page, s)
        | (none, s) =>
          if wait ≠ 0 then do
            let _ ← lockZone s .normal
            .error .asleep
          else pure (none, s)

/-- `alloc_page`. -/
def allocPage (s : Mem) (gfpFlags : Nat) : Except Fault (Option Nat × Mem) := __allocPages s 0 gfpFlags

/-- The pages of a block go on the hot list one by one, in `__free_pages`. -/
def addPages (l : ListId) (page : Nat) : Nat → Mem → Except Fault Mem
  | 0, s => .ok s
  | n + 1, s => do
    let s ← addPages l page n s
    listAdd s (page + n) l

/-- `__free_pages`. For a single page `free_hot_page` has put it on the hot list already when it is
    added there again. -/
def __freePages (s : Mem) (page order : Nat) : Except Fault Mem := do
  let s ← if order = 0 then freeHotColdPage s page 0 else pure s
  let z := pageZone s page
  let s ← lockZone s z
  let s ← addPages (.pageset z 0) page (2 ^ order) s
  let s ← freePagesBulk z (.pageset z 0) (2 ^ order) s
  pure (unlockZone s z)

/-- `__free_rerserved_page`. -/
def __freeRerservedPage (s : Mem) (page : Nat) : Except Fault Mem :=
  listAdd (setZone s .kern (addFreePages 1)) page (.reserved .kern)

/-- `__free_page`. -/
def __freePage (s : Mem) (page : Nat) : Except Fault Mem :=
  if (s.page page).flag &&& RESERVED_PAGE ≠ 0 then __freeRerservedPage s page
  else __freePages s page 0

/-! ## §6 Boot -/

/-- `pa2page`. -/
def pa2page (s : Mem) (pa : Nat) : Option Nat :=
  if s.npagesNum ≤ pa / PGSIZE then none else some (pa / PGSIZE)

/-- The value of `flag` for the pages of a zone. -/
def zoneFlag : ZoneId → Nat
  | .kern => 0
  | .normal => 1

/-- The page descriptors that `boot_zone_init` writes. -/
def bootPage (s : Mem) (page flag pPrivate : Nat) : Mem :=
  { s with page := Function.update s.page page ⟨flag, pPrivate, 0⟩ }

/-- The loop of `boot_zone_init` over the reserved pages, with `n` of them left. -/
def bootReserved (z : ZoneId) : Nat → Nat → Mem → Except Fault Mem
  | 0, _, s => .ok s
  | n + 1, reservedPhy, s =>
    match pa2page s reservedPhy with
    | none => .ok s
    | some page => do
      let s ← listAdd (bootPage s page (zoneFlag z ||| RESERVED_PAGE) OUT_OF_BUDDY) page (.reserved z)
      bootReserved z n (reservedPhy + PGSIZE) s

/-- The inner loop of `boot_zone_init`: blocks of order `k` while the rest of the zone is large
    enough. It returns the rest and where it starts. -/
def bootLevel (z : ZoneId) (k : Nat) : Nat → Nat → Nat → Mem → Except Fault (Nat × Nat × Mem)
  | 0, zoneSize, zonePagePhy, s => .ok (zoneSize, zonePagePhy, s)
  | fuel + 1, zoneSize, zonePagePhy, s =>
    if 2 ^ k ≤ zoneSize then
      match pa2page s zonePagePhy with
      | none => .ok (zoneSize, zonePagePhy, s)
      | some page => do
        let s ← listAdd (bootPage s page (zoneFlag z) k) page (.freeArea z k)
        bootLevel z k fuel (zoneSize - 2 ^ k) (zonePagePhy + PGSIZE * 2 ^ k)
          (setZone s z (incNrFree k))
    else .ok (zoneSize, zonePagePhy, s)

/-- The outer loop of `boot_zone_init`, over the orders below `m`, highest first. -/
def bootLevels (z : ZoneId) : Nat → Nat → Nat → Mem → Except Fault Mem
  | 0, _, _, s => .ok s
  | k + 1, zoneSize, zonePagePhy, s => do
    let s := setZone s z fun zn => { zn with nrFree := Function.update zn.nrFree k 0 }
    let s := { s with links := s.links.init (.head (.freeArea z k)) }
    let (zoneSize, zonePagePhy, s) ← bootLevel z k zoneSize zoneSize zonePagePhy s
    bootLevels z k zoneSize zonePagePhy s

/-- An empty page cache. -/
def bootPageset : Pageset := ⟨0, 0, PTSIZE / PGSIZE, 0⟩

/-- The fields and the other lists that `boot_zone_init` sets up first. -/
def bootZone (s : Mem) (z : ZoneId) (reservedSize zoneStart zoneSize : Nat) : Mem :=
  let s := setZone s z fun zn =>
    { zn with
      pagesReserved := reservedSize
      pagesLow := reservedSize
      zoneFirstPage := zoneStart / PGSIZE
      freePages := reservedSize + zoneSize
      zoneLock := false
      pageset := fun _ => bootPageset }
  { s with
    links := ((s.links.init (.head (.reserved z))).init (.head (.pageset z 0))).init
      (.head (.pageset z 1)) }

/-- `boot_zone_init`. -/
def bootZoneInit (s : Mem) (z : ZoneId) (reservedStart reservedSize zoneStart zoneSize : Nat) :
    Except Fault Mem := do
  let s := bootZone s z reservedSize zoneStart zoneSize
  let s ← bootReserved z reservedSize reservedStart s
  bootLevels z MEMLEVEL zoneSize zoneStart s

/-- `buddy_init`. `normal_start` is meant to be behind the reserved pages, but the number of reserved
    pages is shifted the wrong way. -/
def buddyInit (s : Mem) (bootNextFree : Nat) : Except Fault Mem := do
  let reservedStart := PTSIZE <<< 2
  let reservedSize := PDENTRIES / 2
  let kernelStart := bootNextFree - KERNBASE
  let kernelSize := (reservedStart - kernelStart) >>> 12
  let normalStart := reservedStart + (reservedSize >>> 12)
  let normalSize := s.npagesNum - (normalStart >>> 12)
  let s ← bootZoneInit s .kern reservedStart reservedSize kernelStart kernelSize
  bootZoneInit s .normal 0 0 normalStart normalSize

end WeiOS.Buddy
