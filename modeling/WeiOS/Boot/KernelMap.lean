import Mathlib
import WeiOS.Mm.PageTable

/-!
# The Kernel's Page Directory

`mem_init` of `kern/pmap.c` maps the page descriptors, a kernel stack and the physical memory into
`kern_pgdir`, the part that all address spaces share. Page tables come from `boot_alloc`, which hands out
the memory behind the kernel and takes nothing back. One entry of the directory points at the directory
itself, so that all page tables can be read in a window of the address space.

## Main results
- `mapLoop_spec`: a region is mapped, and the rest stays as it is.
- `kernel_mapped`: where every address leads after `mem_init`, and with which permissions.
-/

namespace WeiOS.Boot

open WeiOS.Paging (Pte PGSIZE PDENTRIES PDINDEX PTINDEX ROUNDUP PTE_P PTE_W PTE_U)

/-! ## §1 Data -/

/-- `include/mem.h`. -/
def PTSIZE : Nat := PGSIZE * PDENTRIES
def KERNBASE : Nat := 0xF0000000
def KSTACKTOP : Nat := KERNBASE
def KSTACKSIZE : Nat := PGSIZE
def MMIOLIM : Nat := 0xEFC00000
def MMIOBASE : Nat := MMIOLIM - PTSIZE
def ULIM : Nat := MMIOBASE - PTSIZE
def UVPT : Nat := ULIM - PTSIZE
def UPAGES : Nat := UVPT - PTSIZE

/-- `include/mmu.h`. -/
def PTE_PS : Nat := 0x080

/-- `sizeof(struct page)`. -/
def pageBytes : Nat := 20

/-- Memory at boot: its size in pages, `end`, `boot_next_free`, and the frames as page tables. -/
structure BootMem where
  npagesNum : Nat
  kernEnd : Nat
  nextFree : Nat
  table : Nat → Nat → Pte

/-- `PADDR`, and the frame behind an address of the kernel. -/
def PADDR (va : Nat) : Nat := (va + (2 ^ 32 - KERNBASE)) % 2 ^ 32
def frameOf (va : Nat) : Nat := PADDR va / PGSIZE

/-- An entry is written. -/
def BootMem.setEntry (s : BootMem) (f i : Nat) (e : Pte) : BootMem :=
  { s with table := Function.update s.table f (Function.update (s.table f) i e) }

/-- `memset` with 0 of `n` bytes from the frame `f` on. -/
def BootMem.clear (s : BootMem) (f n : Nat) : BootMem :=
  { s with table := fun g i =>
      if f * PGSIZE ≤ g * PGSIZE + 4 * i ∧ g * PGSIZE + 4 * i < f * PGSIZE + n then Pte.zero
      else s.table g i }

/-! ## §2 The functions of the boot -/

/-- `boot_alloc`. -/
def bootAlloc (s : BootMem) (n : Nat) : Nat × BootMem :=
  -- The first call starts behind the kernel.
  let s := if s.nextFree = 0 then { s with nextFree := ROUNDUP s.kernEnd } else s
  if n = 0 then (s.nextFree, s)
  else (s.nextFree, { s with nextFree := (s.nextFree + ROUNDUP n) % 2 ^ 32 })

/-- `boot_page_alloc` with `ALLOC_ZERO`: `va2page` knows the pages that exist. -/
def bootPageAlloc (s : BootMem) : Option Nat × BootMem :=
  let r := bootAlloc s PGSIZE
  (if frameOf r.1 < s.npagesNum then some (frameOf r.1) else none, r.2.clear (frameOf r.1) PGSIZE)

/-- `boot_pgdir_walk`: the page table of an address. -/
def bootPgdirWalk (s : BootMem) (pgdir va : Nat) (create : Bool) : Option Nat × BootMem :=
  let e := s.table pgdir (PDINDEX va)
  if e.present then (some e.frame, s)
  else if !create then (none, s)
  else
    match bootPageAlloc s with
    | (none, s) => (none, s)
    | (some f, s) => (some f, s.setEntry pgdir (PDINDEX va) ⟨f, PTE_P⟩)

/-- `entry |= perm`. -/
def orPerm (e : Pte) (perm : Nat) : Pte := { e with perm := e.perm ||| perm }

/-- The loop body of `boot_map_region`, with the page table `t` of `va`. -/
def mapPage (s : BootMem) (pgdir t va pa perm : Nat) : BootMem :=
  let s := s.setEntry t (PTINDEX va) ⟨pa / PGSIZE, pa % PGSIZE ||| perm ||| PTE_P⟩
  s.setEntry pgdir (PDINDEX va) (orPerm (s.table pgdir (PDINDEX va)) (perm ||| PTE_P))

/-- The loop of `boot_map_region`; `none` for its panic. -/
def mapLoop (pgdir paEnd perm : Nat) : Nat → Nat → Nat → BootMem → Option BootMem
  | 0, _, pa, s => if pa < paEnd then none else some s
  | fuel + 1, va, pa, s =>
    if pa < paEnd then
      match bootPgdirWalk s pgdir va true with
      | (none, _) => none
      | (some t, s) =>
        mapLoop pgdir paEnd perm fuel ((va + PGSIZE) % 2 ^ 32) ((pa + PGSIZE) % 2 ^ 32)
          (mapPage s pgdir t va pa perm)
    else
      some s

/-- `boot_map_region`; physical memory has `2 ^ 20` pages. -/
def bootMapRegion (s : BootMem) (pgdir va size pa perm : Nat) : Option BootMem :=
  if perm &&& PTE_PS = 0 then
    mapLoop pgdir ((pa + size) % 2 ^ 32) perm (2 ^ 20) va pa s
  else
    let e := s.table pgdir (PDINDEX va)
    some (s.setEntry pgdir (PDINDEX va)
      ⟨e.frame ||| pa / 2 ^ 22 * 2 ^ 10, e.perm ||| PTE_P ||| PTE_PS ||| perm⟩)

/-- `mem_init` up to `buddy_init`: the frame of `kern_pgdir`, the address of `pages`, and the memory. -/
def memInit (s : BootMem) (kernstack : Nat) : Option (Nat × Nat × BootMem) := do
  let r := bootAlloc s PGSIZE
  let pgdir := frameOf r.1
  let s := (r.2.clear pgdir PGSIZE).setEntry pgdir (PDINDEX UVPT) ⟨pgdir, PTE_U ||| PTE_P⟩
  let needBytes := pageBytes * s.npagesNum % 2 ^ 32
  let r := bootAlloc s needBytes
  let s := r.2.clear (frameOf r.1) needBytes
  let s ← bootMapRegion s pgdir UPAGES PTSIZE (PADDR r.1) (PTE_U ||| PTE_P)
  let s ← bootMapRegion s pgdir (KSTACKTOP - KSTACKSIZE) KSTACKSIZE (PADDR kernstack) (PTE_P ||| PTE_W)
  let s ← bootMapRegion s pgdir KERNBASE (ROUNDUP (0xffffffff - KERNBASE)) 0 (PTE_P ||| PTE_W)
  return (pgdir, r.1, s)

/-- The translation of an address by the processor, with the permissions that both entries give. -/
def translate (s : BootMem) (pgdir va : Nat) : Option (Nat × Nat) :=
  let e := s.table pgdir (PDINDEX va)
  let x := s.table e.frame (PTINDEX va)
  if e.present && x.present then some (x.frame * PGSIZE + va % PGSIZE, e.perm &&& x.perm) else none

/-! ## §3 The invariant -/

/-- The entry of a page, 0 when there is no page table. -/
def BootMem.entry (s : BootMem) (pgdir va : Nat) : Pte :=
  if (s.table pgdir (PDINDEX va)).present then
    s.table (s.table pgdir (PDINDEX va)).frame (PTINDEX va)
  else Pte.zero

/-- The slots of the directory that `mem_init` needs page tables for, and those without one. -/
def kernelSlots : Finset Nat :=
  (Finset.range PDENTRIES).filter fun d => d = PDINDEX UPAGES ∨ PDINDEX (KSTACKTOP - KSTACKSIZE) ≤ d

def BootMem.absent (s : BootMem) (pgdir : Nat) : Finset Nat :=
  kernelSlots.filter fun d => (s.table pgdir d).present = false

/-- Frames below `k` are in use. Apart from the window, each slot of the directory has a page table of its
    own, in a frame from `b` on, and there is memory for the page tables that are missing. -/
structure Good (s : BootMem) (pgdir b k : Nat) : Prop where
  low : b ≤ k
  next : s.nextFree = KERNBASE + PGSIZE * k
  room : k + (s.absent pgdir).card < 2 ^ 16
  fits : k + (s.absent pgdir).card ≤ s.npagesNum
  dir : pgdir < k
  table : ∀ d < PDENTRIES, d ≠ PDINDEX UVPT → (s.table pgdir d).present = true →
    b ≤ (s.table pgdir d).frame ∧ (s.table pgdir d).frame < k ∧ (s.table pgdir d).frame ≠ pgdir
  apart : ∀ d < PDENTRIES, ∀ d' < PDENTRIES, d ≠ PDINDEX UVPT → d' ≠ PDINDEX UVPT →
    (s.table pgdir d).present = true → (s.table pgdir d').present = true →
    (s.table pgdir d).frame = (s.table pgdir d').frame → d = d'

section
variable {s s₁ s' : BootMem} {pgdir a b d k n f i g j va va' pa perm t : Nat} {e : Pte}

theorem setEntry_npagesNum : (s.setEntry f i e).npagesNum = s.npagesNum := rfl
theorem clear_npagesNum : (s.clear f j).npagesNum = s.npagesNum := rfl
theorem setEntry_nextFree : (s.setEntry f i e).nextFree = s.nextFree := rfl
theorem clear_nextFree : (s.clear f j).nextFree = s.nextFree := rfl

theorem setEntry_table : (s.setEntry f i e).table g j = if g = f ∧ j = i then e else s.table g j := by
  unfold BootMem.setEntry
  by_cases hg : g = f
  · subst hg
    by_cases hj : j = i
    · simp [hj]
    · simp [hj]
  · simp [hg]

/-- A page is cleared. -/
theorem clear_table (hj : j < PDENTRIES) :
    (s.clear f PGSIZE).table g j = if g = f then Pte.zero else s.table g j := by
  unfold BootMem.clear
  unfold PDENTRIES at hj
  dsimp only
  by_cases hg : g = f
  · subst hg
    rw [if_pos rfl, if_pos]
    unfold PGSIZE
    omega
  · rw [if_neg hg, if_neg]
    unfold PGSIZE
    omega

theorem zero_present : Pte.zero.present = false := rfl

theorem present_or (e : Pte) (perm : Nat) : (orPerm e (perm ||| PTE_P)).present = true := by
  simp [orPerm, Pte.present, PTE_P, Nat.and_one_is_mod, Nat.or_mod_two_eq_one]

theorem slot_uvpt : PDINDEX UVPT = 956 := by decide

theorem mem_kernelSlots : d ∈ kernelSlots ↔ d < PDENTRIES ∧ (d = 955 ∨ 959 ≤ d) := by
  have hu : PDINDEX UPAGES = 955 := by decide
  have hk : PDINDEX (KSTACKTOP - KSTACKSIZE) = 959 := by decide
  rw [kernelSlots, Finset.mem_filter, Finset.mem_range, hu, hk]

theorem kernelSlots_lt (h : d ∈ kernelSlots) : d < PDENTRIES := (mem_kernelSlots.mp h).1

theorem not_uvpt (h : d ∈ kernelSlots) : d ≠ PDINDEX UVPT := by
  have hd := (mem_kernelSlots.mp h).2
  rw [slot_uvpt]
  omega

theorem card_kernelSlots : kernelSlots.card = 66 := by decide +kernel

theorem PDINDEX_lt (va : Nat) : PDINDEX va < PDENTRIES := Nat.mod_lt _ (by decide)
theorem PTINDEX_lt (va : Nat) : PTINDEX va < PDENTRIES := Nat.mod_lt _ (by decide)

/-- Two addresses are in one page if they have the same slots. -/
theorem page_eq_iff (hva : va < 2 ^ 32) (hva' : va' < 2 ^ 32) :
    va' / PGSIZE = va / PGSIZE ↔ PDINDEX va' = PDINDEX va ∧ PTINDEX va' = PTINDEX va := by
  unfold PDINDEX PTINDEX PGSIZE PDENTRIES
  omega

theorem frameOf_next (hk : k < 2 ^ 16) : frameOf (KERNBASE + PGSIZE * k) = k := by
  unfold frameOf PADDR KERNBASE PGSIZE
  omega

/-! ## §4 One page -/

theorem walk_present (h : (s.table pgdir (PDINDEX va)).present = true) :
    bootPgdirWalk s pgdir va true = (some (s.table pgdir (PDINDEX va)).frame, s) := by
  simp [bootPgdirWalk, h]

theorem Good.absent_lt (h : Good s pgdir b k) (hk : PDINDEX va ∈ kernelSlots)
    (hp : (s.table pgdir (PDINDEX va)).present = false) :
    PDINDEX va ∈ s.absent pgdir ∧ k + 1 < 2 ^ 16 ∧ k < s.npagesNum := by
  have hm : PDINDEX va ∈ s.absent pgdir := Finset.mem_filter.mpr ⟨hk, hp⟩
  have hc := Finset.card_pos.mpr ⟨_, hm⟩
  have hr := h.room
  have hf := h.fits
  exact ⟨hm, by omega, by omega⟩

/-- A new page table is the next free frame. -/
theorem walk_absent (h : Good s pgdir b k) (hs : PDINDEX va ∈ kernelSlots)
    (hp : (s.table pgdir (PDINDEX va)).present = false) :
    ∃ s₁, bootPgdirWalk s pgdir va true = (some k, s₁) ∧
      s₁.nextFree = (KERNBASE + PGSIZE * (k + 1)) % 2 ^ 32 ∧ s₁.npagesNum = s.npagesNum ∧
      ∀ g, ∀ i < PDENTRIES, s₁.table g i =
        if g = pgdir ∧ i = PDINDEX va then ⟨k, PTE_P⟩ else if g = k then Pte.zero else s.table g i := by
  obtain ⟨hm, hk, hq⟩ := h.absent_lt hs hp
  have hn : bootAlloc s PGSIZE = (KERNBASE + PGSIZE * k,
      { s with nextFree := (KERNBASE + PGSIZE * (k + 1)) % 2 ^ 32 }) := by
    have h0 : s.nextFree ≠ 0 := by
      rw [h.next]
      exact Nat.ne_of_gt (Nat.lt_of_lt_of_le (by decide) (Nat.le_add_right KERNBASE _))
    have h1 : ROUNDUP PGSIZE = PGSIZE := by decide
    have h2 : PGSIZE ≠ 0 := by decide
    unfold bootAlloc
    dsimp only
    rw [if_neg h0, if_neg h2, h1, h.next, Nat.mul_succ, Nat.add_assoc]
  generalize (KERNBASE + PGSIZE * (k + 1)) % 2 ^ 32 = next at hn ⊢
  have hw : bootPgdirWalk s pgdir va true = (some k,
      (({ s with nextFree := next } : BootMem).clear k PGSIZE).setEntry pgdir (PDINDEX va) ⟨k, PTE_P⟩) := by
    simp only [bootPgdirWalk, bootPageAlloc, hn, hp, frameOf_next (Nat.lt_of_succ_lt hk),
      if_pos hq, Bool.false_eq_true, if_false, Bool.not_true]
  refine ⟨_, hw, rfl, rfl, fun g i hi => ?_⟩
  rw [setEntry_table, clear_table hi]

/-- The directory may get permissions without harm. -/
theorem Good.congr (h : Good s pgdir b k) (hn : s'.nextFree = s.nextFree) (hq : s'.npagesNum = s.npagesNum)
    (hd : ∀ d < PDENTRIES, (s'.table pgdir d).frame = (s.table pgdir d).frame ∧
      (s'.table pgdir d).present = (s.table pgdir d).present) : Good s' pgdir b k := by
  have ha : s'.absent pgdir = s.absent pgdir :=
    Finset.filter_congr fun d hm => by rw [(hd d (kernelSlots_lt hm)).2]
  have hr : k + (s'.absent pgdir).card < 2 ^ 16 := by
    rw [ha]
    exact h.room
  have hf : k + (s'.absent pgdir).card ≤ s'.npagesNum := by
    rw [ha, hq]
    exact h.fits
  refine ⟨h.low, hn.trans h.next, hr, hf, h.dir, fun d hl hu hp => ?_, fun d hl d' hl' hu hu' hp hp' he => ?_⟩
  · rw [(hd d hl).2] at hp
    rw [(hd d hl).1]
    exact h.table d hl hu hp
  · rw [(hd d hl).2] at hp
    rw [(hd d' hl').2] at hp'
    rw [(hd d hl).1, (hd d' hl').1] at he
    exact h.apart d hl d' hl' hu hu' hp hp' he

/-- **`boot_pgdir_walk`** finds the page table of an address, or makes an empty one. -/
theorem walk_spec (h : Good s pgdir b k) (hs : PDINDEX va ∈ kernelSlots) :
    ∃ s₁ k₁, bootPgdirWalk s pgdir va true = (some (s₁.table pgdir (PDINDEX va)).frame, s₁) ∧
      Good s₁ pgdir b k₁ ∧ (s₁.table pgdir (PDINDEX va)).present = true ∧
      (∀ va', PDINDEX va' ≠ PDINDEX UVPT → s₁.entry pgdir va' = s.entry pgdir va') ∧
      (∀ d < PDENTRIES, d ≠ PDINDEX va → s₁.table pgdir d = s.table pgdir d) ∧
      (s₁.table pgdir (PDINDEX va) = s.table pgdir (PDINDEX va) ∨
        (s.table pgdir (PDINDEX va)).present = false ∧ (s₁.table pgdir (PDINDEX va)).perm = PTE_P) := by
  cases hp : (s.table pgdir (PDINDEX va)).present with
  | true => exact ⟨s, k, walk_present hp, h, hp, fun _ _ => rfl, fun _ _ _ => rfl, .inl rfl⟩
  | false =>
    obtain ⟨s₁, hw, hn, hq, ht⟩ := walk_absent h hs hp
    obtain ⟨hm, hk, -⟩ := h.absent_lt hs hp
    have hself : s₁.table pgdir (PDINDEX va) = ⟨k, PTE_P⟩ := by
      rw [ht _ _ (PDINDEX_lt va), if_pos ⟨rfl, rfl⟩]
    have hother : ∀ d < PDENTRIES, d ≠ PDINDEX va → s₁.table pgdir d = s.table pgdir d := by
      intro d hl hd
      rw [ht _ _ hl, if_neg fun hc => hd hc.2, if_neg (Nat.ne_of_lt h.dir)]
    have hleaf : ∀ g i, i < PDENTRIES → g ≠ pgdir → g < k → s₁.table g i = s.table g i := by
      intro g i hi hg hgk
      rw [ht _ _ hi, if_neg fun hc => hg hc.1, if_neg (Nat.ne_of_lt hgk)]
    have hpres : (s₁.table pgdir (PDINDEX va)).present = true := by simp [hself, Pte.present, PTE_P]
    have hgood : Good s₁ pgdir b (k + 1) := by
      have he : s₁.absent pgdir = (s.absent pgdir).erase (PDINDEX va) := by
        ext d
        simp only [BootMem.absent, Finset.mem_filter, Finset.mem_erase]
        by_cases hd : d = PDINDEX va
        · simp [hd, hpres]
        · refine ⟨fun hc => ⟨hd, hc.1, ?_⟩, fun hc => ⟨hc.2.1, ?_⟩⟩
          · rw [← hother d (kernelSlots_lt hc.1) hd]
            exact hc.2
          · rw [hother d (kernelSlots_lt hc.2.1) hd]
            exact hc.2.2
      have hc := Finset.card_erase_add_one hm
      rw [← he] at hc
      have hr := h.room
      have hf := h.fits
      refine ⟨Nat.le_succ_of_le h.low, ?_, by omega, by omega, Nat.lt_succ_of_lt h.dir, fun d hl hu hd => ?_,
        fun d hl d' hl' hu hu' hd hd' he => ?_⟩
      · -- The address does not wrap, since fewer than 2 ^ 16 frames are handed out.
        rw [hn]
        refine Nat.mod_eq_of_lt ?_
        clear hw hn ht hself hother hleaf hpres
        unfold KERNBASE PGSIZE
        omega
      · by_cases hdv : d = PDINDEX va
        · rw [hdv, hself]
          exact ⟨h.low, Nat.lt_succ_self k, (Nat.ne_of_lt h.dir).symm⟩
        · rw [hother d hl hdv] at hd ⊢
          exact (h.table d hl hu hd).imp_right (And.imp_left Nat.lt_succ_of_lt)
      · -- The new frame is above the frames of the other page tables.
        have hnew : ∀ d < PDENTRIES, d ≠ PDINDEX UVPT → d ≠ PDINDEX va →
            (s₁.table pgdir d).present = true → (s₁.table pgdir d).frame ≠ k := by
          intro d hl hu hdv hd
          rw [hother d hl hdv] at hd ⊢
          exact Nat.ne_of_lt (h.table d hl hu hd).2.1
        by_cases hdv : d = PDINDEX va <;> by_cases hdv' : d' = PDINDEX va
        · exact hdv.trans hdv'.symm
        · exact absurd (by rw [← he, hdv, hself]) (hnew d' hl' hu' hdv' hd')
        · exact absurd (by rw [he, hdv', hself]) (hnew d hl hu hdv hd)
        · rw [hother d hl hdv] at hd he
          rw [hother d' hl' hdv'] at hd' he
          exact h.apart d hl d' hl' hu hu' hd hd' he
    refine ⟨s₁, k + 1, by rw [hself]; exact hw, hgood, hpres, fun va' hu => ?_, hother,
      .inr ⟨rfl, by rw [hself]⟩⟩
    unfold BootMem.entry
    by_cases hd : PDINDEX va' = PDINDEX va
    · rw [hd, if_pos hpres, hself, hp, if_neg Bool.false_ne_true, ht _ _ (PTINDEX_lt va'),
        if_neg fun hc => Nat.ne_of_lt h.dir hc.1.symm, if_pos rfl]
    · rw [hother _ (PDINDEX_lt va') hd]
      by_cases hq : (s.table pgdir (PDINDEX va')).present = true
      · obtain ⟨-, hlt, hne⟩ := h.table _ (PDINDEX_lt va') hu hq
        rw [if_pos hq, if_pos hq, hleaf _ _ (PTINDEX_lt va') hne hlt]
      · rw [if_neg hq, if_neg hq]

theorem mapPage_table (ht : t ≠ pgdir) :
    (mapPage s pgdir t va pa perm).table g i =
      if g = pgdir ∧ i = PDINDEX va then orPerm (s.table pgdir (PDINDEX va)) (perm ||| PTE_P)
      else if g = t ∧ i = PTINDEX va then ⟨pa / PGSIZE, pa % PGSIZE ||| perm ||| PTE_P⟩
      else s.table g i := by
  unfold mapPage
  dsimp only
  rw [setEntry_table, setEntry_table, setEntry_table, if_neg fun hc : pgdir = t ∧ _ => ht hc.1.symm]

/-- What is mapped at a page, and the permissions of the slots of the directory. -/
structure Mapped (s s' : BootMem) (pgdir va pa perm n : Nat) : Prop where
  entry : ∀ va' < 2 ^ 32, PDINDEX va' ≠ PDINDEX UVPT → s'.entry pgdir va' =
    if va ≤ va' ∧ va' < va + PGSIZE * n then ⟨(pa + (va' - va)) / PGSIZE, perm ||| PTE_P⟩
    else s.entry pgdir va'
  slot : ∀ j < n, (s'.table pgdir (PDINDEX (va + PGSIZE * j))).present = true ∧
    (s'.table pgdir (PDINDEX (va + PGSIZE * j))).perm = perm ||| PTE_P
  same : ∀ d < PDENTRIES, (∀ j < n, d ≠ PDINDEX (va + PGSIZE * j)) → s'.table pgdir d = s.table pgdir d

/-- The slots that a region of `n` pages needs are free, or they have its permissions already. -/
def Fresh (s : BootMem) (pgdir va perm n : Nat) : Prop :=
  ∀ j < n, PDINDEX (va + PGSIZE * j) ∈ kernelSlots ∧
    ((s.table pgdir (PDINDEX (va + PGSIZE * j))).present = false ∨
      (s.table pgdir (PDINDEX (va + PGSIZE * j))).perm = perm ||| PTE_P)

/-- One page of a region. -/
theorem mapPage_spec (h : Good s pgdir b k) (hva : va < 2 ^ 32) (hal : PGSIZE ∣ va) (hpa : PGSIZE ∣ pa)
    (hf : Fresh s pgdir va perm 1) :
    ∃ t s₁ k₁, bootPgdirWalk s pgdir va true = (some t, s₁) ∧
      Good (mapPage s₁ pgdir t va pa perm) pgdir b k₁ ∧
      Mapped s (mapPage s₁ pgdir t va pa perm) pgdir va pa perm 1 := by
  obtain ⟨hs, hperm⟩ := hf 0 Nat.one_pos
  rw [Nat.mul_zero, Nat.add_zero] at hs hperm
  have hu := not_uvpt hs
  obtain ⟨s₁, k₁, hw, hg, hp, hent, hother, hslot⟩ := walk_spec h hs
  obtain ⟨-, hlt, hne⟩ := hg.table _ (PDINDEX_lt va) hu hp
  set t := (s₁.table pgdir (PDINDEX va)).frame with htab
  have hself : (mapPage s₁ pgdir t va pa perm).table pgdir (PDINDEX va) =
      orPerm (s₁.table pgdir (PDINDEX va)) (perm ||| PTE_P) := by
    rw [mapPage_table hne, if_pos ⟨rfl, rfl⟩]
  have hdir : ∀ d, d ≠ PDINDEX va →
      (mapPage s₁ pgdir t va pa perm).table pgdir d = s₁.table pgdir d := by
    intro d hd
    rw [mapPage_table hne, if_neg fun hc => hd hc.2, if_neg fun hc => hne hc.1.symm]
  have hleaf : ∀ g i, g ≠ pgdir → (mapPage s₁ pgdir t va pa perm).table g i =
      if g = t ∧ i = PTINDEX va then ⟨pa / PGSIZE, pa % PGSIZE ||| perm ||| PTE_P⟩
      else s₁.table g i := by
    intro g i hgp
    rw [mapPage_table hne, if_neg fun hc => hgp hc.1]
  refine ⟨t, s₁, k₁, hw, hg.congr rfl rfl fun d hd => ?_, fun va' hva' hu' => ?_, fun j hj => ?_, fun d hd hj => ?_⟩
  · by_cases hdv : d = PDINDEX va
    · rw [hdv, hself, present_or, hp]
      exact ⟨rfl, rfl⟩
    · rw [hdir d hdv]
      exact ⟨rfl, rfl⟩
  · have hpage : va ≤ va' ∧ va' < va + PGSIZE * 1 ↔ PDINDEX va' = PDINDEX va ∧ PTINDEX va' = PTINDEX va := by
      rw [← page_eq_iff hva hva']
      obtain ⟨a, rfl⟩ := hal
      unfold PGSIZE
      omega
    rw [← hent va' hu']
    unfold BootMem.entry
    by_cases hd : PDINDEX va' = PDINDEX va
    · rw [hd, hself, present_or, if_pos rfl, if_pos hp]
      change (mapPage s₁ pgdir t va pa perm).table t (PTINDEX va') = _
      rw [hleaf _ _ hne]
      by_cases hi : PTINDEX va' = PTINDEX va
      · have hin := hpage.mpr ⟨hd, hi⟩
        have hframe : (pa + (va' - va)) / PGSIZE = pa / PGSIZE := by
          obtain ⟨a, rfl⟩ := hpa
          unfold PGSIZE at hin ⊢
          omega
        rw [if_pos ⟨rfl, hi⟩, if_pos hin, hframe, Nat.mod_eq_zero_of_dvd hpa, Nat.zero_or]
      · rw [if_neg fun hc => hi hc.2, if_neg fun hc => hi (hpage.mp hc).2]
    · rw [hdir _ hd, if_neg fun hc => hd (hpage.mp hc).1]
      by_cases hq : (s₁.table pgdir (PDINDEX va')).present = true
      · -- Another slot has another page table.
        have hgp := (hg.table _ (PDINDEX_lt va') hu' hq).2.2
        have hgt : (s₁.table pgdir (PDINDEX va')).frame ≠ t := fun hc =>
          hd (hg.apart _ (PDINDEX_lt va') _ (PDINDEX_lt va) hu' hu hq hp hc)
        rw [if_pos hq, hleaf _ _ hgp, if_neg fun hc => hgt hc.1, if_pos hq]
      · rw [if_neg hq, if_neg hq]
  · obtain rfl : j = 0 := by omega
    rw [Nat.mul_zero, Nat.add_zero, hself]
    refine ⟨present_or _ _, ?_⟩
    change (s₁.table pgdir (PDINDEX va)).perm ||| (perm ||| PTE_P) = perm ||| PTE_P
    rcases hslot with hsame | ⟨-, hnew⟩
    · rw [hsame] at hp ⊢
      rw [hperm.resolve_left (by simp [hp]), Nat.or_self]
    · rw [hnew, Nat.or_comm, Nat.or_assoc, Nat.or_self]
  · have hdv : d ≠ PDINDEX va := hj 0 Nat.one_pos
    rw [hdir d hdv, hother d hd hdv]

/-! ## §5 Regions -/

theorem Fresh.head (h : Fresh s pgdir va perm (n + 1)) : Fresh s pgdir va perm 1 := fun j hj =>
  h j (by omega)

theorem Fresh.tail (h : Fresh s pgdir va perm (n + 1)) (hm : Mapped s s' pgdir va pa perm 1) :
    Fresh s' pgdir (va + PGSIZE) perm n := by
  intro j hj
  have hs := h (j + 1) (by omega)
  rw [Nat.mul_succ, Nat.add_comm (PGSIZE * j), ← Nat.add_assoc] at hs
  refine ⟨hs.1, ?_⟩
  by_cases hd : PDINDEX (va + PGSIZE + PGSIZE * j) = PDINDEX (va + PGSIZE * 0)
  · rw [hd]
    exact .inr (hm.slot 0 Nat.one_pos).2
  · rw [hm.same _ (PDINDEX_lt _) fun i hi => ?_]
    · exact hs.2
    · obtain rfl : i = 0 := by omega
      exact hd

/-- A region is its first page and the rest. -/
theorem Mapped.cons (h : Mapped s s₁ pgdir va pa perm 1)
    (h' : Mapped s₁ s' pgdir (va + PGSIZE) (pa + PGSIZE) perm n) :
    Mapped s s' pgdir va pa perm (n + 1) := by
  refine ⟨fun va' hva' hu => ?_, fun j hj => ?_, fun d hd hj => ?_⟩
  · rw [h'.entry va' hva' hu, h.entry va' hva' hu]
    by_cases hr : va + PGSIZE ≤ va' ∧ va' < va + PGSIZE + PGSIZE * n
    · have ha : pa + PGSIZE + (va' - (va + PGSIZE)) = pa + (va' - va) := by omega
      have hin : va ≤ va' ∧ va' < va + PGSIZE * (n + 1) := by
        rw [Nat.mul_succ]
        omega
      rw [if_pos hr, if_pos hin, ha]
    · have hin : (va ≤ va' ∧ va' < va + PGSIZE * (n + 1)) ↔ va ≤ va' ∧ va' < va + PGSIZE * 1 := by
        rw [Nat.mul_succ, Nat.mul_one]
        omega
      rw [if_neg hr]
      exact if_congr hin.symm rfl rfl
  · match j with
    | 0 =>
      by_cases hd : ∃ i < n, PDINDEX (va + PGSIZE * 0) = PDINDEX (va + PGSIZE + PGSIZE * i)
      · obtain ⟨i, hi, he⟩ := hd
        rw [he]
        exact h'.slot i hi
      · rw [h'.same _ (PDINDEX_lt _) fun i hi hc => hd ⟨i, hi, hc⟩]
        exact h.slot 0 Nat.one_pos
    | i + 1 =>
      rw [Nat.mul_succ, Nat.add_comm (PGSIZE * i), ← Nat.add_assoc]
      exact h'.slot i (by omega)
  · rw [h'.same d hd fun i hi => ?_]
    · exact h.same d hd fun i hi => hj i (by omega)
    · have hc := hj (i + 1) (by omega)
      rw [Nat.mul_succ, Nat.add_comm (PGSIZE * i), ← Nat.add_assoc] at hc
      exact hc

/-- **The loop of `boot_map_region`** maps its pages, and nothing else. -/
theorem mapLoop_spec (n : Nat) (fuel : Nat) (hfuel : n ≤ fuel) (h : Good s pgdir b k) (hal : PGSIZE ∣ va)
    (hpa : PGSIZE ∣ pa) (hva : va + PGSIZE * n ≤ 2 ^ 32) (hend : pa + PGSIZE * n < 2 ^ 32)
    (hf : Fresh s pgdir va perm n) :
    ∃ s' k', mapLoop pgdir (pa + PGSIZE * n) perm fuel (va % 2 ^ 32) pa s = some s' ∧
      Good s' pgdir b k' ∧ Mapped s s' pgdir va pa perm n := by
  induction n generalizing fuel va pa s k with
  | zero =>
    refine ⟨s, k, ?_, h, ?_, ?_, fun _ _ _ => rfl⟩
    · cases fuel <;> simp [mapLoop]
    · intro va' _ _
      rw [if_neg (by omega)]
    · intro j hj
      omega
  | succ n ih =>
    -- The first page keeps the slots of the others free, or gives them the same permissions.
    obtain ⟨fuel, rfl⟩ : ∃ m, fuel = m + 1 := ⟨fuel - 1, by omega⟩
    have hps : 0 < PGSIZE := by decide
    rw [Nat.mul_succ] at hva hend
    have hlt : va < 2 ^ 32 := by omega
    obtain ⟨t, s₁, k₁, hw, hg, hm⟩ := mapPage_spec h hlt hal hpa hf.head
    have hpn : (pa + PGSIZE) % 2 ^ 32 = pa + PGSIZE := Nat.mod_eq_of_lt (by omega)
    have he : pa + PGSIZE * (n + 1) = pa + PGSIZE + PGSIZE * n := by
      rw [Nat.mul_succ]
      omega
    obtain ⟨s', k', hl, hg', hm'⟩ := ih fuel (by omega) hg (Dvd.dvd.add hal dvd_rfl)
      (Dvd.dvd.add hpa dvd_rfl) (by omega) (by omega) (hf.tail hm)
    refine ⟨s', k', ?_, hg', hm.cons hm'⟩
    unfold mapLoop
    rw [if_pos (by omega), Nat.mod_eq_of_lt hlt, hw]
    dsimp only
    rw [hpn, he]
    exact hl

theorem bootMapRegion_spec (n va pa perm : Nat) (hn : n ≤ 2 ^ 20) (h : Good s pgdir b k) (hps : perm &&& PTE_PS = 0)
    (hal : PGSIZE ∣ va) (hpa : PGSIZE ∣ pa) (hlt : va < 2 ^ 32) (hva : va + PGSIZE * n ≤ 2 ^ 32)
    (hend : pa + PGSIZE * n < 2 ^ 32) (hf : Fresh s pgdir va perm n) :
    ∃ s' k', bootMapRegion s pgdir va (PGSIZE * n) pa perm = some s' ∧ Good s' pgdir b k' ∧
      Mapped s s' pgdir va pa perm n := by
  obtain ⟨s', k', hl, hg, hm⟩ := mapLoop_spec n (2 ^ 20) hn h hal hpa hva hend hf
  rw [Nat.mod_eq_of_lt hlt] at hl
  refine ⟨s', k', ?_, hg, hm⟩
  unfold bootMapRegion
  rw [if_pos hps, Nat.mod_eq_of_lt hend]
  exact hl

/-! ## §6 The address space of the kernel -/

theorem translate_eq : translate s pgdir va =
    if (s.entry pgdir va).present then
      some ((s.entry pgdir va).frame * PGSIZE + va % PGSIZE,
        (s.table pgdir (PDINDEX va)).perm &&& (s.entry pgdir va).perm)
    else none := by
  unfold translate BootMem.entry
  cases hp : (s.table pgdir (PDINDEX va)).present with
  | true => simp only [hp, Bool.true_and, if_true]
  | false => simp only [hp, Bool.false_and, Bool.false_eq_true, if_false, zero_present]

theorem translate_none_iff : translate s pgdir va = none ↔ (s.entry pgdir va).present = false := by
  rw [translate_eq]
  cases (s.entry pgdir va).present <;> simp

/-- An address of a region is in a slot of the region. -/
theorem region_slot (hal : PGSIZE ∣ va) (hin : va ≤ va' ∧ va' < va + PGSIZE * n) :
    ∃ j < n, PDINDEX va' = PDINDEX (va + PGSIZE * j) := by
  obtain ⟨a, rfl⟩ := hal
  have hj : PGSIZE * a + PGSIZE * ((va' - PGSIZE * a) / PGSIZE) = va' / PGSIZE * PGSIZE := by
    unfold PGSIZE at *
    omega
  refine ⟨(va' - PGSIZE * a) / PGSIZE, ?_, ?_⟩
  · unfold PGSIZE at *
    omega
  · rw [hj]
    unfold PDINDEX PGSIZE PDENTRIES
    omega

theorem Mapped.inside (h : Mapped s s' pgdir va pa perm n) (hal : PGSIZE ∣ va) (hpa : PGSIZE ∣ pa)
    (hva' : va' < 2 ^ 32) (hu : PDINDEX va' ≠ PDINDEX UVPT) (hin : va ≤ va' ∧ va' < va + PGSIZE * n) :
    translate s' pgdir va' = some (pa + (va' - va), perm ||| PTE_P) := by
  have he : s'.entry pgdir va' = ⟨(pa + (va' - va)) / PGSIZE, perm ||| PTE_P⟩ := by
    rw [h.entry va' hva' hu, if_pos hin]
  have hperm : (s'.table pgdir (PDINDEX va')).perm = perm ||| PTE_P := by
    obtain ⟨j, hj, hd⟩ := region_slot hal hin
    rw [hd]
    exact (h.slot j hj).2
  have ha : (pa + (va' - va)) / PGSIZE * PGSIZE + va' % PGSIZE = pa + (va' - va) := by
    obtain ⟨a, rfl⟩ := hal
    obtain ⟨c, rfl⟩ := hpa
    unfold PGSIZE at *
    omega
  have hp : (s'.entry pgdir va').present = true := by
    rw [he]
    simp [Pte.present, PTE_P, Nat.and_one_is_mod, Nat.or_mod_two_eq_one]
  rw [translate_eq, if_pos hp, he, hperm, ha, Nat.and_self]

/-- The slots of a region are its own. -/
theorem Mapped.elsewhere (h : Mapped s s' pgdir va pa perm n) (hva' : va' < 2 ^ 32)
    (hu : PDINDEX va' ≠ PDINDEX UVPT) (hout : ∀ j < n, PDINDEX va' ≠ PDINDEX (va + PGSIZE * j))
    (hal : PGSIZE ∣ va) : translate s' pgdir va' = translate s pgdir va' := by
  have hn : ¬(va ≤ va' ∧ va' < va + PGSIZE * n) := by
    intro hin
    obtain ⟨j, hj, hd⟩ := region_slot hal hin
    exact hout j hj hd
  rw [translate_eq, translate_eq, h.entry va' hva' hu, if_neg hn, h.same _ (PDINDEX_lt va') hout]

theorem Mapped.nowhere (h : Mapped s s' pgdir va pa perm n) (hva' : va' < 2 ^ 32)
    (hu : PDINDEX va' ≠ PDINDEX UVPT) (hout : ¬(va ≤ va' ∧ va' < va + PGSIZE * n))
    (hnone : translate s pgdir va' = none) : translate s' pgdir va' = none := by
  rw [translate_none_iff] at hnone ⊢
  rw [h.entry va' hva' hu, if_neg hout]
  exact hnone

/-- Where an address leads outside the window of the page tables, and the permissions. -/
def kernelMap (pages kernstack va : Nat) : Option (Nat × Nat) :=
  if UPAGES ≤ va ∧ va < UPAGES + PTSIZE then some (PADDR pages + (va - UPAGES), PTE_U ||| PTE_P)
  else if KSTACKTOP - KSTACKSIZE ≤ va ∧ va < KSTACKTOP then
    some (PADDR kernstack + (va - (KSTACKTOP - KSTACKSIZE)), PTE_P ||| PTE_W)
  else if KERNBASE ≤ va then some (va - KERNBASE, PTE_P ||| PTE_W)
  else none

/-! ### `mem_init` up to the regions -/

theorem bootAlloc_eq (m : Nat) (h0 : s.nextFree ≠ 0) (hlt : s.nextFree < 2 ^ 32) :
    bootAlloc s m = (s.nextFree, { s with nextFree := (s.nextFree + ROUNDUP m) % 2 ^ 32 }) := by
  unfold bootAlloc
  dsimp only
  rw [if_neg h0]
  by_cases hm : m = 0
  · have hz : ROUNDUP 0 = 0 := by decide
    rw [if_pos hm, hm, hz, Nat.add_zero, Nat.mod_eq_of_lt hlt]
  · rw [if_neg hm]

theorem bootAlloc_first (m : Nat) (h0 : s.nextFree = 0) :
    bootAlloc s m = bootAlloc { s with nextFree := ROUNDUP s.kernEnd } m := by
  unfold bootAlloc
  dsimp only
  rw [if_pos h0]
  by_cases hz : ROUNDUP s.kernEnd = 0
  · rw [if_pos hz]
  · rw [if_neg hz]

/-- A directory with nothing but the window. -/
theorem Good.start (pgdir k : Nat) (hnext : s.nextFree = KERNBASE + PGSIZE * k) (hdir : pgdir < k)
    (hroom : k + 66 < 2 ^ 16) (hfits : k + 66 ≤ s.npagesNum)
    (hz : ∀ d < PDENTRIES, d ≠ PDINDEX UVPT → s.table pgdir d = Pte.zero) : Good s pgdir k k := by
  have hc : (s.absent pgdir).card ≤ 66 := (Finset.card_filter_le _ _).trans card_kernelSlots.le
  refine ⟨Nat.le_refl k, hnext, by omega, by omega, hdir, fun d hl hu hp => ?_, fun d hl _ _ hu _ hp => ?_⟩
  · rw [hz d hl hu] at hp
    exact absurd hp (by decide)
  · rw [hz d hl hu] at hp
    exact absurd hp (by decide)

/-- `memset` of `pages` leaves the frames below alone. -/
theorem clear_below (hg : g < f) (hj : j < PDENTRIES) : (s.clear f n).table g j = s.table g j := by
  unfold BootMem.clear
  dsimp only
  rw [if_neg]
  unfold PGSIZE
  unfold PDENTRIES at hj
  omega

/-- The calls of `mem_init`. -/
theorem memInit_calls {s s₁ s₂ s₃ s₄ s₅ : BootMem} {a c kernstack : Nat}
    (hq : s₁.npagesNum = s.npagesNum)
    (h₁ : bootAlloc s PGSIZE = (a, s₁))
    (h₂ : bootAlloc ((s₁.clear (frameOf a) PGSIZE).setEntry (frameOf a) (PDINDEX UVPT)
      ⟨frameOf a, PTE_U ||| PTE_P⟩) (pageBytes * s.npagesNum % 2 ^ 32) = (c, s₂))
    (h₃ : bootMapRegion (s₂.clear (frameOf c) (pageBytes * s.npagesNum % 2 ^ 32)) (frameOf a) UPAGES PTSIZE
      (PADDR c) (PTE_U ||| PTE_P) = some s₃)
    (h₄ : bootMapRegion s₃ (frameOf a) (KSTACKTOP - KSTACKSIZE) KSTACKSIZE (PADDR kernstack)
      (PTE_P ||| PTE_W) = some s₄)
    (h₅ : bootMapRegion s₄ (frameOf a) KERNBASE (ROUNDUP (0xffffffff - KERNBASE)) 0 (PTE_P ||| PTE_W) =
      some s₅) : memInit s kernstack = some (frameOf a, c, s₅) := by
  unfold memInit
  rw [h₁]
  dsimp only
  rw [setEntry_npagesNum, clear_npagesNum, hq, h₂]
  dsimp only
  rw [h₃, Option.bind_eq_bind, Option.bind_some, h₄, Option.bind_some, h₅, Option.bind_some]
  rfl

theorem next_bounds (hk : k < 2 ^ 16) : KERNBASE + PGSIZE * k ≠ 0 ∧ KERNBASE + PGSIZE * k < 2 ^ 32 := by
  unfold KERNBASE PGSIZE
  omega

/-- The first page of `boot_alloc` is behind the kernel. -/
theorem bootAlloc_kernEnd (hs : s.nextFree = 0) (hk : ROUNDUP s.kernEnd = KERNBASE + PGSIZE * k)
    (hlt : k + 1 < 2 ^ 16) :
    ∃ s₁, bootAlloc s PGSIZE = (KERNBASE + PGSIZE * k, s₁) ∧ s₁.npagesNum = s.npagesNum ∧
      s₁.nextFree = KERNBASE + PGSIZE * (k + 1) := by
  have h1 : ROUNDUP PGSIZE = PGSIZE := by decide
  have hb := next_bounds (Nat.lt_of_succ_lt hlt)
  rw [bootAlloc_first _ hs, hk, bootAlloc_eq _ hb.1 hb.2]
  dsimp only
  rw [h1, Nat.add_assoc, ← Nat.mul_succ, Nat.mod_eq_of_lt (next_bounds hlt).2]
  exact ⟨_, rfl, rfl, rfl⟩

theorem bootAlloc_next {m q : Nat} (hs : s.nextFree = KERNBASE + PGSIZE * k) (hm : ROUNDUP q = PGSIZE * m)
    (hlt : k + m < 2 ^ 16) :
    ∃ s₁, bootAlloc s q = (KERNBASE + PGSIZE * k, s₁) ∧ s₁.npagesNum = s.npagesNum ∧
      s₁.table = s.table ∧ s₁.nextFree = KERNBASE + PGSIZE * (k + m) := by
  have hb := next_bounds (k := k) (by omega)
  rw [← hs] at hb
  rw [bootAlloc_eq _ hb.1 hb.2, hs, hm, Nat.add_assoc, ← Nat.mul_add, Nat.mod_eq_of_lt (next_bounds hlt).2]
  exact ⟨_, rfl, rfl, rfl, rfl⟩

/-- The directory before the regions are mapped. -/
theorem start_dir {q : Nat} (ht : s'.table = ((s.clear k PGSIZE).setEntry k (PDINDEX UVPT) e).table)
    (hd : d < PDENTRIES) :
    (s'.clear (k + 1) q).table k d = if d = PDINDEX UVPT then e else Pte.zero := by
  rw [clear_below (Nat.lt_succ_self k) hd, ht, setEntry_table, clear_table hd, if_pos rfl]
  exact if_congr (and_iff_right rfl) rfl rfl

/-- The frames that the kernel and the page descriptors take. -/
theorem boot_frames {q : Nat} (hend : KERNBASE ≤ a) (hroom : a + q + 70 * PGSIZE ≤ 2 ^ 32)
    (hfits : a + q + 70 * PGSIZE ≤ KERNBASE + PGSIZE * n) :
    ∃ k m, ROUNDUP a = KERNBASE + PGSIZE * k ∧ ROUNDUP q = PGSIZE * m ∧ q ≤ PGSIZE * m ∧
      k + 1 + m + 66 < 2 ^ 16 ∧ k + 1 + m + 66 ≤ n := by
  unfold ROUNDUP Paging.ROUNDDOWN
  unfold KERNBASE PGSIZE at *
  exact ⟨(a + 4095) / 4096 - 983040, (q + 4095) / 4096, by omega, by omega, by omega, by omega, by omega⟩

theorem slot_upages (hj : j < 1024) : PDINDEX (UPAGES + PGSIZE * j) = 955 := by
  have hu : UPAGES = 0xEEC00000 := by decide
  rw [hu]
  unfold PDINDEX PGSIZE PDENTRIES
  omega

theorem slot_kstack (hj : j < 1) : PDINDEX (KSTACKTOP - KSTACKSIZE + PGSIZE * j) = 959 := by
  obtain rfl : j = 0 := by omega
  decide

theorem slot_kernbase (hj : j < 65536) : 960 ≤ PDINDEX (KERNBASE + PGSIZE * j) := by
  unfold PDINDEX KERNBASE PGSIZE PDENTRIES
  omega

theorem Fresh.of_zero (hu : ∀ j < n, PDINDEX (va + PGSIZE * j) ∈ kernelSlots)
    (hz : ∀ j < n, s.table pgdir (PDINDEX (va + PGSIZE * j)) = Pte.zero) : Fresh s pgdir va perm n :=
  fun j hj => ⟨hu j hj, .inl (by rw [hz j hj, zero_present])⟩

/-- The three regions of `mem_init` are mapped one after the other. -/
theorem regions_mapped {kernstack pa : Nat} (h : Good s pgdir b k)
    (hz : ∀ d < PDENTRIES, d ≠ PDINDEX UVPT → s.table pgdir d = Pte.zero) (hpa : PGSIZE ∣ pa)
    (hlt : pa + PTSIZE < 2 ^ 32) (hal : PGSIZE ∣ kernstack) (hstack : KERNBASE ≤ kernstack)
    (hstack' : kernstack < 2 ^ 32) :
    ∃ s₄ s₅ s₆ k', bootMapRegion s pgdir UPAGES PTSIZE pa (PTE_U ||| PTE_P) = some s₄ ∧
      bootMapRegion s₄ pgdir (KSTACKTOP - KSTACKSIZE) KSTACKSIZE (PADDR kernstack) (PTE_P ||| PTE_W) =
        some s₅ ∧
      bootMapRegion s₅ pgdir KERNBASE (ROUNDUP (0xffffffff - KERNBASE)) 0 (PTE_P ||| PTE_W) = some s₆ ∧
      Good s₆ pgdir b k' ∧ Mapped s s₄ pgdir UPAGES pa (PTE_U ||| PTE_P) 1024 ∧
      Mapped s₄ s₅ pgdir (KSTACKTOP - KSTACKSIZE) (PADDR kernstack) (PTE_P ||| PTE_W) 1 ∧
      Mapped s₅ s₆ pgdir KERNBASE 0 (PTE_P ||| PTE_W) 65536 := by
  have hsize : PTSIZE = PGSIZE * 1024 := by decide
  have hsize' : KSTACKSIZE = PGSIZE * 1 := by decide
  have hsize'' : ROUNDUP (0xffffffff - KERNBASE) = PGSIZE * 65536 := by decide
  have hkpa : PGSIZE ∣ PADDR kernstack ∧ PADDR kernstack < 2 ^ 28 := by
    obtain ⟨c, rfl⟩ := hal
    unfold PADDR KERNBASE PGSIZE at *
    omega
  obtain ⟨s₄, k₄, h₄, hg₄, hm₄⟩ := bootMapRegion_spec 1024 UPAGES pa (PTE_U ||| PTE_P) (by decide) h
    (by decide) (by decide) hpa (by decide) (by decide) (by rw [← hsize]; exact hlt)
    (Fresh.of_zero (fun j hj => mem_kernelSlots.mpr ⟨PDINDEX_lt _, .inl (slot_upages hj)⟩) fun j hj => by
      rw [slot_upages hj]
      exact hz 955 (by decide) (by decide))
  have hz₄ : ∀ d < PDENTRIES, 957 ≤ d → s₄.table pgdir d = Pte.zero := by
    intro d hd hlow
    rw [hm₄.same d hd fun j hj => by rw [slot_upages hj]; omega]
    exact hz d hd (by rw [slot_uvpt]; omega)
  obtain ⟨s₅, k₅, h₅, hg₅, hm₅⟩ := bootMapRegion_spec 1 (KSTACKTOP - KSTACKSIZE) (PADDR kernstack)
    (PTE_P ||| PTE_W) (by decide) hg₄ (by decide) (by decide) hkpa.1 (by decide)
    (by decide) (Nat.lt_of_lt_of_le (Nat.add_lt_add_right hkpa.2 _) (by decide))
    (Fresh.of_zero (fun j hj => mem_kernelSlots.mpr ⟨PDINDEX_lt _, .inr (slot_kstack hj).ge⟩) fun j hj => by
      rw [slot_kstack hj]
      exact hz₄ 959 (by decide) (by decide))
  have hz₅ : ∀ d < PDENTRIES, 960 ≤ d → s₅.table pgdir d = Pte.zero := by
    intro d hd hlow
    rw [hm₅.same d hd fun j hj => by rw [slot_kstack hj]; omega]
    exact hz₄ d hd (by omega)
  obtain ⟨s₆, k₆, h₆, hg₆, hm₆⟩ := bootMapRegion_spec 65536 KERNBASE 0 (PTE_P ||| PTE_W) (by decide)
    hg₅ (by decide) (by decide) (Nat.dvd_zero _) (by decide) (by decide) (by decide)
    (Fresh.of_zero
      (fun j hj => mem_kernelSlots.mpr ⟨PDINDEX_lt _, .inr (Nat.le_trans (by decide) (slot_kernbase hj))⟩)
      fun j hj => hz₅ _ (PDINDEX_lt _) (slot_kernbase hj))
  exact ⟨s₄, s₅, s₆, k₆, by rw [hsize]; exact h₄, by rw [hsize'] at h₅ ⊢; exact h₅,
    by rw [hsize'']; exact h₆, hg₆, hm₄, hm₅, hm₆⟩

/-- The regions do not share slots, so each address is led by its own region. -/
theorem regions_translate {s₄ s₅ s₆ : BootMem} {pages kernstack : Nat}
    (hm₄ : Mapped s s₄ pgdir UPAGES (PADDR pages) (PTE_U ||| PTE_P) 1024)
    (hm₅ : Mapped s₄ s₅ pgdir (KSTACKTOP - KSTACKSIZE) (PADDR kernstack) (PTE_P ||| PTE_W) 1)
    (hm₆ : Mapped s₅ s₆ pgdir KERNBASE 0 (PTE_P ||| PTE_W) 65536)
    (hz : ∀ d < PDENTRIES, d ≠ PDINDEX UVPT → s.table pgdir d = Pte.zero) (hpages : PGSIZE ∣ PADDR pages)
    (hstack : PGSIZE ∣ PADDR kernstack) (hva : va < 2 ^ 32) (hu : PDINDEX va ≠ PDINDEX UVPT) :
    translate s₆ pgdir va = kernelMap pages kernstack va := by
  have hsize : PGSIZE * 1024 = PTSIZE := by decide
  have hsize' : KSTACKTOP - KSTACKSIZE + PGSIZE * 1 = KSTACKTOP := by decide
  have hsize'' : KERNBASE + PGSIZE * 65536 = 2 ^ 32 := by decide
  have halu : PGSIZE ∣ UPAGES := by decide
  have hals : PGSIZE ∣ KSTACKTOP - KSTACKSIZE := by decide
  have halk : PGSIZE ∣ KERNBASE := by decide
  unfold kernelMap
  by_cases h₄ : UPAGES ≤ va ∧ va < UPAGES + PTSIZE
  · rw [← hsize] at h₄
    obtain ⟨j, hj, hd⟩ := region_slot halu h₄
    rw [slot_upages hj] at hd
    rw [hm₆.elsewhere hva hu (fun i hi hc => by have := slot_kernbase hi; omega) halk,
      hm₅.elsewhere hva hu (fun i hi => by rw [hd, slot_kstack hi]; decide) hals,
      hm₄.inside halu hpages hva hu h₄, ← hsize, if_pos h₄]
    rfl
  · rw [if_neg h₄]
    rw [← hsize] at h₄
    by_cases h₅ : KSTACKTOP - KSTACKSIZE ≤ va ∧ va < KSTACKTOP
    · rw [if_pos h₅]
      rw [← hsize'] at h₅
      obtain ⟨j, hj, hd⟩ := region_slot hals h₅
      rw [slot_kstack hj] at hd
      rw [hm₆.elsewhere hva hu (fun i hi hc => by have := slot_kernbase hi; omega) halk,
        hm₅.inside hals hstack hva hu h₅]
      rfl
    · rw [if_neg h₅]
      rw [← hsize'] at h₅
      by_cases h₆ : KERNBASE ≤ va
      · rw [if_pos h₆, hm₆.inside halk (Nat.dvd_zero _) hva hu ⟨h₆, hsize''.symm ▸ hva⟩, Nat.zero_add]
        rfl
      · have hnone : translate s pgdir va = none := by
          rw [translate_none_iff]
          unfold BootMem.entry
          rw [hz _ (PDINDEX_lt va) hu, zero_present, if_neg Bool.false_ne_true, zero_present]
        rw [if_neg h₆]
        exact hm₆.nowhere hva hu (fun hc => h₆ hc.1)
          (hm₅.nowhere hva hu h₅ (hm₄.nowhere hva hu h₄ hnone))

/-- The window reads the directory and its page tables. -/
theorem window_translate {pn : Nat} (hw : s.table pgdir (PDINDEX UVPT) = ⟨pgdir, PTE_U ||| PTE_P⟩)
    (hpn : pn < 2 ^ 20) : translate s pgdir (UVPT + 4 * pn) =
      if (s.table pgdir (pn / PDENTRIES)).present then
        some ((s.table pgdir (pn / PDENTRIES)).frame * PGSIZE + 4 * (pn % PDENTRIES),
          (PTE_U ||| PTE_P) &&& (s.table pgdir (pn / PDENTRIES)).perm)
      else none := by
  have huv : UVPT = 0xEF000000 := by decide
  have hd : PDINDEX (UVPT + 4 * pn) = PDINDEX UVPT := by
    rw [slot_uvpt, huv]
    unfold PDINDEX PDENTRIES
    omega
  have hi : PTINDEX (UVPT + 4 * pn) = pn / PDENTRIES := by
    rw [huv]
    unfold PTINDEX PGSIZE PDENTRIES
    omega
  have ho : (UVPT + 4 * pn) % PGSIZE = 4 * (pn % PDENTRIES) := by
    rw [huv]
    unfold PGSIZE PDENTRIES
    omega
  have hp : (⟨pgdir, PTE_U ||| PTE_P⟩ : Pte).present = true := by
    simp [Pte.present, PTE_U, PTE_P]
  unfold translate
  simp only [hd, hi, ho, hw, hp, Bool.true_and]

/-- **The kernel's part of every address space.** After `mem_init` the page descriptors can be read by
    users, the kernel stack and the physical memory can be written by the kernel, and nothing else is
    mapped apart from the window. There, the entry of page `pn` is read at `UVPT + 4 * pn`. The page
    tables lie behind the descriptors, each in a page of its own. -/
theorem kernel_mapped (s : BootMem) (kernstack : Nat) (hs : s.nextFree = 0) (hend : KERNBASE ≤ s.kernEnd)
    (hroom : s.kernEnd + pageBytes * s.npagesNum + 70 * PGSIZE ≤ 2 ^ 32)
    (hfits : s.kernEnd + pageBytes * s.npagesNum + 70 * PGSIZE ≤ KERNBASE + PGSIZE * s.npagesNum)
    (hal : PGSIZE ∣ kernstack) (hstack : KERNBASE ≤ kernstack) (hlt : kernstack < 2 ^ 32) :
    ∃ pgdir pages s', memInit s kernstack = some (pgdir, pages, s') ∧
      (∀ va < 2 ^ 32, PDINDEX va ≠ PDINDEX UVPT →
        translate s' pgdir va = kernelMap pages kernstack va) ∧
      (∀ pn < 2 ^ 20, translate s' pgdir (UVPT + 4 * pn) =
        if (s'.table pgdir (pn / PDENTRIES)).present then
          some ((s'.table pgdir (pn / PDENTRIES)).frame * PGSIZE + 4 * (pn % PDENTRIES),
            (PTE_U ||| PTE_P) &&& (s'.table pgdir (pn / PDENTRIES)).perm)
        else none) ∧
      (∀ d < PDENTRIES, d ≠ PDINDEX UVPT → (s'.table pgdir d).present = true →
        PADDR pages + pageBytes * s.npagesNum ≤ (s'.table pgdir d).frame * PGSIZE ∧
        ∀ d' < PDENTRIES, d' ≠ PDINDEX UVPT → (s'.table pgdir d').present = true →
          (s'.table pgdir d).frame = (s'.table pgdir d').frame → d = d') := by
  obtain ⟨k, m, hk, hm, hq, hfit, hfit'⟩ := boot_frames hend hroom hfits
  have hneed : pageBytes * s.npagesNum % 2 ^ 32 = pageBytes * s.npagesNum := by
    refine Nat.mod_eq_of_lt (Nat.lt_of_lt_of_le ?_ hroom)
    unfold KERNBASE at hend
    omega
  have hpages : PADDR (KERNBASE + PGSIZE * (k + 1)) = PGSIZE * (k + 1) := by
    unfold PADDR KERNBASE PGSIZE
    omega
  have hkfr : frameOf (KERNBASE + PGSIZE * k) = k := frameOf_next (by omega)
  have hpfr : frameOf (KERNBASE + PGSIZE * (k + 1)) = k + 1 := frameOf_next (by omega)
  obtain ⟨s₁, h₁, hq₁, hn₁⟩ := bootAlloc_kernEnd hs hk (by omega)
  obtain ⟨s₂, h₂, hq₂, ht₂, hn₂⟩ := bootAlloc_next (k := k + 1) (m := m) (q := pageBytes * s.npagesNum)
    (s := (s₁.clear k PGSIZE).setEntry k (PDINDEX UVPT) ⟨k, PTE_U ||| PTE_P⟩)
    (by rw [setEntry_nextFree, clear_nextFree, hn₁]) hm (by omega)
  rw [setEntry_npagesNum, clear_npagesNum, hq₁] at hq₂
  set s₃ := s₂.clear (k + 1) (pageBytes * s.npagesNum) with hs₃
  have hdir : ∀ d < PDENTRIES, s₃.table k d =
      if d = PDINDEX UVPT then ⟨k, PTE_U ||| PTE_P⟩ else Pte.zero := fun d hd => start_dir ht₂ hd
  have hz : ∀ d < PDENTRIES, d ≠ PDINDEX UVPT → s₃.table k d = Pte.zero := by
    intro d hd hu
    rw [hdir d hd, if_neg hu]
  have hgood : Good s₃ k (k + 1 + m) (k + 1 + m) := by
    refine Good.start k (k + 1 + m) ?_ (by omega) hfit ?_ hz
    · rw [hs₃, clear_nextFree, hn₂]
    · rw [hs₃, clear_npagesNum, hq₂]
      exact hfit'
  have hpa : PGSIZE * (k + 1) + PTSIZE < 2 ^ 32 := by
    unfold PTSIZE PGSIZE PDENTRIES
    omega
  obtain ⟨s₄, s₅, s₆, k', h₄, h₅, h₆, hg, hm₄, hm₅, hm₆⟩ :=
    regions_mapped hgood hz (Nat.dvd_mul_right PGSIZE (k + 1)) hpa hal hstack hlt
  have hsame : s₆.table k (PDINDEX UVPT) = ⟨k, PTE_U ||| PTE_P⟩ := by
    have hlow : ∀ j < 65536, PDINDEX UVPT ≠ PDINDEX (KERNBASE + PGSIZE * j) := by
      intro j hj hc
      have hh := slot_kernbase hj
      rw [← hc, slot_uvpt] at hh
      omega
    rw [hm₆.same _ (PDINDEX_lt _) hlow,
      hm₅.same _ (PDINDEX_lt _) fun j hj => by rw [slot_kstack hj]; decide,
      hm₄.same _ (PDINDEX_lt _) fun j hj => by rw [slot_upages hj]; decide, hdir _ (PDINDEX_lt _), if_pos rfl]
  rw [← hpages] at h₄ hm₄
  refine ⟨k, KERNBASE + PGSIZE * (k + 1), s₆, ?_, fun va hva hu => ?_, fun pn hpn => window_translate hsame hpn,
    fun d hd hu hp => ⟨?_, fun d' hd' hu' hp' he => hg.apart d hd d' hd' hu hu' hp hp' he⟩⟩
  · have hcalls := @memInit_calls s s₁ s₂ s₄ s₅ s₆ (KERNBASE + PGSIZE * k) (KERNBASE + PGSIZE * (k + 1))
      kernstack hq₁ h₁
    rw [hkfr, hpfr, hneed] at hcalls
    exact hcalls h₂ h₄ h₅ h₆
  · refine regions_translate hm₄ hm₅ hm₆ hz ?_ ?_ hva hu
    · rw [hpages]
      exact Nat.dvd_mul_right PGSIZE (k + 1)
    · obtain ⟨c, rfl⟩ := hal
      unfold PADDR KERNBASE PGSIZE at *
      omega
  · rw [hpages]
    have hlow := (hg.table d hd hu hp).1
    unfold PGSIZE at *
    omega

end

/-- 32 MB of memory with anything in it. -/
def smallBoot : BootMem := ⟨8192, 0xF0120000, 0, fun f i => ⟨f, i⟩⟩

theorem kernel_mapped_small : ∃ pgdir pages s', memInit smallBoot 0xF0110000 = some (pgdir, pages, s') ∧
    translate s' pgdir 0xEFFFF010 = some (0x110010, PTE_P ||| PTE_W) ∧
    translate s' pgdir 0xF0123456 = some (0x123456, PTE_P ||| PTE_W) ∧ translate s' pgdir 0x1000 = none := by
  obtain ⟨pgdir, pages, s', hrun, hmap, -⟩ := kernel_mapped smallBoot 0xF0110000 rfl (by decide) (by decide)
    (by decide) (by decide) (by decide) (by decide)
  refine ⟨pgdir, pages, s', hrun, ?_, ?_, ?_⟩
  · rw [hmap _ (by decide) (by decide)]
    rfl
  · rw [hmap _ (by decide) (by decide)]
    rfl
  · rw [hmap _ (by decide) (by decide)]
    rfl

end WeiOS.Boot
