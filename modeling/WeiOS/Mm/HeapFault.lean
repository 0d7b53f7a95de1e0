import Mathlib
import WeiOS.Mm.PageTable
import WeiOS.Mm.PageRefs
import WeiOS.Mm.PageCalls
import WeiOS.Mm.PageMap
import WeiOS.Mm.Heap

/-!
# Page Faults in the Heap

`page_fault_handler` of `kern/trap.c` for an address in the heap, with `proc_region_alloc` of `kern/proc.c`. The
handler hands over the faulting address and a size of one page, and the allocator rounds both ends, so that an address
inside a page makes it map the next page as well. After a write the handler looks at the page table entry through the
page directory's own slot, and without a page table this is a fault in kernel mode.

## Main results
- `regionPage_spec`: one turn of the loop of `proc_region_alloc`.
- `heapFault_iff`: the faults that affect only their own page.
-/

namespace WeiOS.Paging.HeapFault

open WeiOS.Paging.PageMap

/-! ## §1 The source functions -/

/-- The body of the loop of `proc_region_alloc`; the failure is `-E_NO_MEM`. -/
def regionPage (s : Vm) (p : Proc) (va perm : Nat) : Bool × Vm :=
  match pageAlloc s with
  | (none, s) => (false, s)
  | (some f, s) => pageInsert s p f va (perm ||| PTE_P)

/-- The loop of `proc_region_alloc`; an address space has no more than `2 ^ 20` pages. -/
def regionLoop (p : Proc) (perm vaEnd : Nat) : Nat → Nat → Vm → Bool × Vm
  | 0, _, s => (true, s)
  | fuel + 1, vaT, s =>
    if vaT < vaEnd then
      match regionPage s p vaT perm with
      | (false, s) => (false, s)
      | (true, s) => regionLoop p perm vaEnd fuel ((vaT + PGSIZE) % 2 ^ 32) s
    else (true, s)

/-- `proc_region_alloc`. -/
def procRegionAlloc (s : Vm) (p : Proc) (va len perm : Nat) : Bool × Vm :=
  regionLoop p perm (ROUNDUP ((va + len) % 2 ^ 32)) (2 ^ 20) (ROUNDDOWN va) s

/-- The second half of `page_fault_handler`. The root process panics when it exits, and then nothing returns. -/
def heapFault (s : Vm) (p : Proc) (faltVa : Nat) : Option Vm :=
  if faltVa < s.heapPtr p ∧ s.baseMemSz p ≤ faltVa then
    match procRegionAlloc s p faltVa PGSIZE PTE_SYSCALL with
    | (true, s) => some s
    | (false, s) => if p = s.rootproc then none else some (exit s p)
  else some s

/-- `page_fault_handler`; `write` is `FEC_WR` of the error code. A read of `uvpt[PGNUM(falt_va)]` finds the entry in the
    page table of the address, and panics if there is none. -/
def pageFaultHandler (s : Vm) (p : Proc) (write : Bool) (faltVa : Nat) : Option Vm :=
  if write then
    match pdeAt s (p, PDINDEX faltVa) with
    | none => none
    | some t =>
      if (s.table t (PTINDEX faltVa)).perm &&& PTE_COW ≠ 0 then some (cowPgfault s p faltVa)
      else heapFault s p faltVa
  else heapFault s p faltVa

/-! ## §2 What a fault is for -/

/-- What `page_alloc` may hand out is below `npages_num`, is not mapped, and is no page table. -/
def Unused (s : Vm) : Prop :=
  ∀ f, s.kind f = .pool → s.allocated f = false →
    f < s.npagesNum ∧ (∀ e ∈ pteSlots, pteAt s e ≠ some f) ∧ ∀ e ∈ pdeSlots, pdeAt s e ≠ some f

/-- The state of memory when a process faults: an entry that is not present is 0, and the heap ends below
    `HEAPTOP`. -/
structure Ready (s : Vm) (p : Proc) : Prop where
  map : MapInv s
  unused : Unused s
  blank : ∀ e ∈ pdeSlots, ∀ t, pdeAt s e = some t → ∀ i < PDENTRIES,
    (s.table t i).present = false → s.table t i = Pte.zero
  top : s.heapPtr p ≤ HEAPTOP

/-- **A fault that affects its own page**: the page is present, writable and empty, and every other user page of every
    process has its mapping and its contents. -/
def FaultOk (s : Vm) (p : Proc) (va : Nat) : Option Vm → Prop
  | none => False
  | some s' =>
    (∃ e x, tr s' p va = some e ∧ effective s' p va = some x ∧ x &&& PTE_USTK = PTE_USTK ∧
      ∀ i, s'.data e.frame i = 0) ∧
    ∀ q v, UserPage v → (q, v) ≠ (p, ROUNDDOWN va) →
      tr s' q v = tr s q v ∧ ∀ e, tr s q v = some e → s'.data e.frame = s.data e.frame

/-- The address is the start of its page, there is a page, and there is a page table; for a read there may also be
    memory for one. -/
def Served (s : Vm) (p : Proc) (write : Bool) (va : Nat) : Prop :=
  PGSIZE ∣ va ∧ (pageAlloc s).1 ≠ none ∧
    ((pdeAt s (p, PDINDEX va)).isSome = true ∨ write = false ∧ (pageAlloc (pageAlloc s).2).1 ≠ none)

/-! ## §3 One page -/

section Page

variable {s s' : Vm} {p : Proc} {va f : Nat}

/-- `page_insert` fails when there is neither a page table nor memory for one. -/
theorem pageInsert_fst (s : Vm) (p : Proc) (f va perm : Nat) :
    (pageInsert s p f va perm).1 = ((pdeAt s (p, PDINDEX va)).isSome || (pageAlloc s).1.isSome) := by
  have hwalk : (pgdirWalk s p va true).1.isSome = ((pdeAt s (p, PDINDEX va)).isSome || (pageAlloc s).1.isSome) := by
    unfold pgdirWalk pdeAt
    dsimp only
    split
    · rfl
    · rw [if_neg (by decide)]
      cases halloc : pageAlloc s with
      | mk o s₁ => cases o <;> rfl
  rw [← hwalk]
  unfold pageInsert
  cases hw : pgdirWalk s p va true with
  | mk o s₁ =>
    cases o with
    | none => rfl
    | some t =>
      dsimp only
      split <;> rfl

/-- What `page_alloc` does, but for the page tables. -/
theorem pageAlloc_some {s₁ : Vm} (h : pageAlloc s = (some f, s₁)) :
    s.kind f = .pool ∧ s.allocated f = false ∧ s₁.allocated = Function.update s.allocated f true ∧
      s₁.kind = s.kind ∧ s₁.rootproc = s.rootproc ∧ (∀ i, s₁.data f i = 0) ∧ ∀ g, g ≠ f → s₁.data g = s.data g := by
  unfold pageAlloc at h
  split at h
  · cases h
  · cases h
  · split at h
    · next hfree =>
      cases h
      refine ⟨hfree.1, hfree.2, rfl, rfl, rfl, fun i => ?_, fun g hg => Function.update_of_ne hg ..⟩
      show Function.update s.data f _ f i = 0
      rw [Function.update_self]
    · cases h

theorem pageAlloc_none {s₁ : Vm} (h : pageAlloc s = (none, s₁)) :
    s₁.allocated = s.allocated ∧ s₁.kind = s.kind ∧ s₁.rootproc = s.rootproc ∧ s₁.data = s.data := by
  unfold pageAlloc at h
  split at h
  · cases h
    exact ⟨rfl, rfl, rfl, rfl⟩
  · cases h
    exact ⟨rfl, rfl, rfl, rfl⟩
  · split at h
    · cases h
    · cases h
      exact ⟨rfl, rfl, rfl, rfl⟩

/-- Unused frames are no page tables, in particular. -/
theorem Unused.fresh (h : Unused s) : Fresh s := by
  intro t ht e he
  cases halloc : pageAlloc s with
  | mk o s₁ =>
    rw [halloc] at ht
    obtain rfl : o = some t := ht
    obtain ⟨hkind, hfree, _⟩ := pageAlloc_some halloc
    exact (h t hkind hfree).2.2 e he

/-- What a step that maps pages may do to the frames: none is given back, only a frame that `page_alloc` hands out is
    written, and only such a frame becomes a page table. -/
structure Grows (s s' : Vm) : Prop where
  kind : s'.kind = s.kind
  rootproc : s'.rootproc = s.rootproc
  kept : ∀ g, s'.allocated g = false → s.allocated g = false
  data : ∀ g, (pageAlloc s).1 ≠ some g → s'.data g = s.data g
  dirs : ∀ e g, pdeAt s' e = some g → pdeAt s e = some g ∨ s'.allocated g = true

theorem pageAlloc_grows (s : Vm) : Grows s (pageAlloc s).2 := by
  have hdirs := pdeAt_congr (pageAlloc_frame s).1
  cases halloc : pageAlloc s with
  | mk o s₁ =>
    rw [halloc] at hdirs
    cases o with
    | none =>
      obtain ⟨hall, hkind, hroot, hdata⟩ := pageAlloc_none halloc
      refine ⟨hkind, hroot, fun g hg => by rw [← hall]; exact hg, fun g _ => by rw [hdata], fun e g he => .inl ?_⟩
      rw [← hdirs]
      exact he
    | some f =>
      obtain ⟨_, _, hall, hkind, hroot, _, hdata⟩ := pageAlloc_some halloc
      refine ⟨hkind, hroot, fun g hg => ?_, fun g hg => ?_, fun e g he => .inl ?_⟩
      · show s.allocated g = false
        by_cases hgf : g = f
        · rw [hgf, hall, Function.update_self] at hg
          cases hg
        · rwa [hall, Function.update_of_ne hgf] at hg
      · rw [halloc] at hg
        exact hdata g fun he => hg (by rw [he])
      · rw [← hdirs]
        exact he

theorem pgdirWalk_grows (s : Vm) (p : Proc) (va : Nat) : Grows s (pgdirWalk s p va true).2 := by
  unfold pgdirWalk
  dsimp only
  split
  · exact ⟨rfl, rfl, fun _ hg => hg, fun _ _ => rfl, fun _ _ he => .inl he⟩
  · rw [if_neg (by decide)]
    have hgrow := pageAlloc_grows s
    cases halloc : pageAlloc s with
    | mk o s₁ =>
      rw [halloc] at hgrow
      cases o with
      | none => exact hgrow
      | some t =>
        obtain ⟨_, _, hall, _⟩ := pageAlloc_some halloc
        refine ⟨hgrow.kind, hgrow.rootproc, hgrow.kept, hgrow.data, fun e g he => ?_⟩
        by_cases hslot : e = (p, PDINDEX va)
        · -- the new page table
          have hgt : g = t := by
            rw [hslot] at he
            have hself : pdeAt (setPde (incRef s₁ t) p (PDINDEX va) ⟨t, PTE_P⟩) (p, PDINDEX va) = some t := by
              simp [pdeAt, setPde, Pte.present, PTE_P]
            exact (Option.some.inj (hself.symm.trans he)).symm
          refine .inr ?_
          show s₁.allocated g = true
          rw [hgt, hall, Function.update_self]
        · have hother : pdeAt s₁ e = some g := by
            rw [← he]
            exact (pdeAt_setPde_of_ne hslot _).symm
          exact hgrow.dirs e g hother

/-- **`page_insert`** at an address that is not mapped. -/
theorem pageInsert_grows (h : MapInv s) (hfresh : Fresh s) (hva : va < UTOP) (habs : tr s p va = none) (perm : Nat) :
    Grows s (pageInsert s p f va perm).2 := by
  obtain ⟨o, s₁, hwalk, _, _, htr, htab⟩ := h.pgdirWalk (p := p) hfresh hva
  have hgrow := pgdirWalk_grows s p va
  rw [hwalk] at hgrow
  unfold pageInsert
  rw [hwalk]
  cases o with
  | none => exact hgrow
  | some t =>
    have ht : pdeAt s₁ (p, PDINDEX va) = some t := htab t rfl
    have hnot : ¬ (s₁.table t (PTINDEX va)).present = true := by
      intro hp
      have hsome := htr _ (mem_pteSlots_of_lt p hva)
      rw [trAt_eq ht, if_pos hp] at hsome
      rw [tr, ← hsome] at habs
      cases habs
    have hsame : ¬ ((s₁.table t (PTINDEX va)).present && (s₁.table t (PTINDEX va)).frame == f) = true := by
      simp [hnot]
    dsimp only
    rw [if_neg hsame, if_neg hnot]
    refine ⟨hgrow.kind, hgrow.rootproc, hgrow.kept, hgrow.data, fun e g he => hgrow.dirs e g ?_⟩
    rw [← he]
    exact (pdeAt_orPde (setPte s₁ t (PTINDEX va) ⟨f, perm ||| PTE_P⟩) p va perm (pdeAt_eq_some.1 ht).1 e).symm

theorem Unused.pageAlloc (hun : Unused s) (h : MapInv s) : Unused (Paging.pageAlloc s).2 := by
  have hgrow := pageAlloc_grows s
  intro g hg hfr
  obtain ⟨hnp, hm, ht⟩ := hun g (by rw [← hgrow.kind]; exact hg) (hgrow.kept g hfr)
  refine ⟨by rwa [(pageAlloc_frame s).2.1], fun e he => ?_, fun e he => ?_⟩
  · rw [pteAt_eq_map, (h.pageAlloc hun.fresh).2 e he, ← pteAt_eq_map]
    exact hm e he
  · rw [pdeAt_congr (pageAlloc_frame s).1]
    exact ht e he

/-- A page of a region is a frame that `page_alloc` handed out. -/
theorem regionPage_maps (h : MapInv s) (hun : Unused s) (hva : va < UTOP) {perm : Nat}
    (hok : regionPage s p va perm = (true, s')) :
    ∃ f x, (Paging.pageAlloc s).1 = some f ∧ tr s' p va = some ⟨f, x⟩ := by
  have h₁ := (h.pageAlloc hun.fresh).1
  have hun₁ := hun.pageAlloc h
  have hnp₁ := (pageAlloc_frame s).2.1
  unfold regionPage at hok
  cases halloc : Paging.pageAlloc s with
  | mk o s₁ =>
    rw [halloc] at h₁ hun₁ hnp₁ hok
    cases o with
    | none => cases hok
    | some f =>
      obtain ⟨hpool, hfree, _⟩ := pageAlloc_some halloc
      have hf : f < s₁.npagesNum := by
        rw [hnp₁]
        exact (hun f hpool hfree).1
      obtain ⟨b, s₂, hins, _, _, _, hdone⟩ := h₁.pageInsert (p := p) hun₁.fresh hva hf (perm ||| PTE_P)
      dsimp only at hok
      rw [hins] at hok
      obtain ⟨rfl, rfl⟩ := Prod.mk.inj hok
      exact ⟨f, _, rfl, (hdone rfl).1⟩

/-- A frame that is mapped keeps its contents. -/
theorem Grows.data_of_mapped (hgrow : Grows s s') (hun : Unused s) {e : Proc × Nat × Nat} (he : e ∈ pteSlots) {g : Nat}
    (hmap : pteAt s e = some g) : s'.data g = s.data g := by
  apply hgrow.data
  intro hc
  cases halloc : Paging.pageAlloc s with
  | mk o s₁ =>
    rw [halloc] at hc
    obtain rfl : o = some g := hc
    obtain ⟨hkind, hfree, _⟩ := pageAlloc_some halloc
    exact (hun g hkind hfree).2.1 e he hmap

/-- A step that maps nothing but frames in use leaves the unused frames unused. -/
theorem Unused.grow (hun : Unused s) (hgrow : Grows s s') (hnp : s'.npagesNum = s.npagesNum)
    (hmaps : ∀ e ∈ pteSlots, ∀ g, pteAt s' e = some g → s.allocated g = true ∨ pteAt s e = some g) : Unused s' := by
  intro g hg hfr
  have hfr₁ := hgrow.kept g hfr
  obtain ⟨hlt, hm, ht⟩ := hun g (by rw [← hgrow.kind]; exact hg) hfr₁
  refine ⟨by rwa [hnp], fun e he hmap => ?_, fun e he hdir => ?_⟩
  · rcases hmaps e he g hmap with hused | hold
    · rw [hused] at hfr₁
      cases hfr₁
    · exact hm e he hold
  · rcases hgrow.dirs e g hdir with hold | hused
    · exact ht e he hold
    · rw [hused] at hfr
      cases hfr

/-- **One page of a region**, at an address that is not mapped. -/
theorem regionPage_spec (h : MapInv s) (hun : Unused s) (hva : UserPage va) (habs : tr s p va = none) (perm : Nat) :
    ∃ b s', regionPage s p va perm = (b, s') ∧ MapInv s' ∧ s'.rootproc = s.rootproc ∧
      (b = true ↔ (pageAlloc s).1 ≠ none ∧
        ((pdeAt s (p, PDINDEX va)).isSome = true ∨ (pageAlloc (pageAlloc s).2).1 ≠ none)) ∧
      (b = true → Unused s' ∧
        (∃ f, tr s' p va = some ⟨f, perm ||| PTE_P ||| PTE_P⟩ ∧ ∀ i, s'.data f i = 0) ∧
        (∀ e ∈ pteSlots, e ≠ (p, PDINDEX va, PTINDEX va) → trAt s' e = trAt s e) ∧
        ∀ e ∈ pteSlots, ∀ x, trAt s e = some x → s'.data x.frame = s.data x.frame) := by
  obtain ⟨h₁, htr₁⟩ := h.pageAlloc hun.fresh
  have hgrow₁ := pageAlloc_grows s
  have hdirs₁ := pdeAt_congr (pageAlloc_frame s).1
  have hnp₁ := (pageAlloc_frame s).2.1
  have hun₁ := hun.pageAlloc h
  unfold regionPage
  cases halloc : pageAlloc s with
  | mk o s₁ =>
    rw [halloc] at h₁ htr₁ hgrow₁ hdirs₁ hnp₁ hun₁
    dsimp only at h₁ htr₁ hgrow₁ hdirs₁ hnp₁ hun₁
    cases o with
    | none => exact ⟨false, s₁, rfl, h₁, hgrow₁.rootproc, by simp, fun hc => by cases hc⟩
    | some f =>
      obtain ⟨hpool, hfree, hall, _, _, hzero, _⟩ := pageAlloc_some halloc
      have habs₁ : tr s₁ p va = none := (htr₁ _ (mem_pteSlots_of_lt p hva.1)).trans habs
      have hf : f < s₁.npagesNum := by
        rw [hnp₁]
        exact (hun f hpool hfree).1
      have htaken : s₁.allocated f = true := by rw [hall, Function.update_self]
      obtain ⟨b, s', hins, h', hnp', _, hok⟩ := h₁.pageInsert (p := p) hun₁.fresh hva.1 hf (perm ||| PTE_P)
      have hfst := pageInsert_fst s₁ p f va (perm ||| PTE_P)
      have hgrow := pageInsert_grows (f := f) h₁ hun₁.fresh hva.1 habs₁ (perm ||| PTE_P)
      rw [hins] at hfst hgrow
      dsimp only at hfst hgrow
      refine ⟨b, s', hins, h', hgrow.rootproc.trans hgrow₁.rootproc, ?_, fun hb => ?_⟩
      · rw [hfst, hdirs₁, Bool.or_eq_true]
        simp [Option.isSome_iff_ne_none]
      obtain ⟨hself, _, hother⟩ := hok hb
      refine ⟨hun₁.grow hgrow hnp' fun e he g hmap => ?_, ⟨f, hself, fun i => ?_⟩,
        fun e he hne => (hother e he hne).trans (htr₁ e he), fun e he x hx => ?_⟩
      · by_cases hslot : e = (p, PDINDEX va, PTINDEX va)
        · -- the new page is in use
          rw [pteAt_eq_map, hslot, show trAt s' (p, PDINDEX va, PTINDEX va) = _ from hself] at hmap
          obtain rfl : f = g := Option.some.inj hmap
          exact .inl htaken
        · rw [pteAt_eq_map, hother e he hslot, ← pteAt_eq_map] at hmap
          exact .inr hmap
      · -- the new page is not handed out again for the page table
        rw [hgrow.data f fun hc => ?_]
        · exact hzero i
        · cases hsecond : pageAlloc s₁ with
          | mk o s₂ =>
            rw [hsecond] at hc
            obtain rfl : o = some f := hc
            have := (pageAlloc_some hsecond).2.1
            rw [htaken] at this
            cases this
      · have hmap : pteAt s e = some x.frame := by
          rw [pteAt_eq_map, hx]
          rfl
        have hmap₁ : pteAt s₁ e = some x.frame := by rw [pteAt_eq_map, htr₁ e he, ← pteAt_eq_map, hmap]
        exact (hgrow.data_of_mapped hun₁ he hmap₁).trans (hgrow₁.data_of_mapped hun he hmap)

/-- After an exit nothing is mapped. -/
theorem freePdes_none (s : Vm) (p : Proc) (n : Nat) : ∀ d < n, pdeAt (freePdes s p n) (p, d) = none := by
  induction n with
  | zero => exact fun d hd => absurd hd (Nat.not_lt_zero d)
  | succ n ih =>
    intro d hd
    unfold freePdes
    dsimp only
    split
    · -- the entry is cleared, and the entries before it stay as they are
      generalize ((freePdes s p n).pgdir p n).frame = t
      have hpgdir : (pageDecreaseRef (freePtes (freePdes s p n) t PDENTRIES) t).pgdir = (freePdes s p n).pgdir := by
        obtain ⟨_, _, hdec, _⟩ := pageDecreaseRef_spec (freePtes (freePdes s p n) t PDENTRIES) t
        rw [hdec, (freePtes_same _ _ _).2.1]
      by_cases hdn : d = n
      · rw [hdn]
        simp [pdeAt, setPde, Pte.present, Pte.zero]
      · have hne : (p, d) ≠ (p, n) := fun hc => hdn (Prod.mk.inj hc).2
        rw [pdeAt_setPde_of_ne hne, pdeAt_congr hpgdir]
        exact ih d (by omega)
    · next hnot =>
      by_cases hdn : d = n
      · rw [hdn]
        exact if_neg hnot
      · exact ih d (by omega)

theorem tr_exit (hroot : p ≠ s.rootproc) (hva : va < UTOP) : tr (exit s p) p va = none := by
  unfold exit
  rw [if_neg hroot]
  exact trAt_eq_none (freePdes_none s p _ _ (PDINDEX_lt hva))

end Page

/-! ## §4 The handler -/

section Handler

variable {s : Vm} {p : Proc} {va : Nat} {write : Bool}

/-- A region that cannot be allocated ends the process. -/
theorem not_faultOk_of_exit {s₁ : Vm} (hva : va < UTOP) :
    ¬ FaultOk s p va (if p = s₁.rootproc then none else some (exit s₁ p)) := by
  split
  · exact fun hf => hf
  · next hroot =>
    rintro ⟨⟨e, _, he, _⟩, _⟩
    rw [tr_exit hroot hva] at he
    cases he

/-- The loop over one page. -/
theorem regionLoop_one (perm fuel : Nat) (hva : va + PGSIZE < 2 ^ 32) :
    regionLoop p perm (va + PGSIZE) (fuel + 2) va s = regionPage s p va perm := by
  have hnext : (va + PGSIZE) % 2 ^ 32 = va + PGSIZE := Nat.mod_eq_of_lt hva
  unfold regionLoop
  rw [if_pos (Nat.lt_add_of_pos_right (by decide))]
  cases hpage : regionPage s p va perm with
  | mk b s₁ =>
    cases b with
    | false => rfl
    | true =>
      show regionLoop p perm (va + PGSIZE) (fuel + 1) ((va + PGSIZE) % 2 ^ 32) s₁ = _
      rw [hnext]
      exact if_neg (Nat.lt_irrefl _)

/-- The loop over two pages. -/
theorem regionLoop_two (perm fuel : Nat) (hva : va < HEAPTOP) :
    regionLoop p perm (va + 2 * PGSIZE) (fuel + 3) va s =
      match regionPage s p va perm with
      | (false, s₁) => (false, s₁)
      | (true, s₁) => regionPage s₁ p (va + PGSIZE) perm := by
  have hnext : (va + PGSIZE) % 2 ^ 32 = va + PGSIZE := by simp only [HEAPTOP, PGSIZE] at *; omega
  have hnext₂ : (va + PGSIZE + PGSIZE) % 2 ^ 32 = va + 2 * PGSIZE := by simp only [HEAPTOP, PGSIZE] at *; omega
  unfold regionLoop
  rw [if_pos (Nat.lt_add_of_pos_right (by decide))]
  cases hpage : regionPage s p va perm with
  | mk b s₁ =>
    cases b with
    | false => rfl
    | true =>
      show regionLoop p perm (va + 2 * PGSIZE) (fuel + 2) ((va + PGSIZE) % 2 ^ 32) s₁ =
        regionPage s₁ p (va + PGSIZE) perm
      rw [hnext]
      unfold regionLoop
      rw [if_pos (by simp only [PGSIZE]; omega)]
      cases hsecond : regionPage s₁ p (va + PGSIZE) perm with
      | mk b s₂ =>
        cases b with
        | false => rfl
        | true =>
          show regionLoop p perm (va + 2 * PGSIZE) (fuel + 1) ((va + PGSIZE + PGSIZE) % 2 ^ 32) s₂ = _
          rw [hnext₂]
          exact if_neg (Nat.lt_irrefl _)

/-- The allocator rounds the end of the region up. -/
theorem regionEnd (hva : va + 2 * PGSIZE ≤ 2 ^ 32) :
    ROUNDUP ((va + PGSIZE) % 2 ^ 32) = if PGSIZE ∣ va then va + PGSIZE else ROUNDDOWN va + 2 * PGSIZE := by
  split
  · next hdvd =>
    simp only [ROUNDUP, ROUNDDOWN, PGSIZE] at *
    omega
  · next hdvd =>
    simp only [ROUNDUP, ROUNDDOWN, PGSIZE] at *
    omega

theorem ROUNDDOWN_of_dvd (hdvd : PGSIZE ∣ va) : ROUNDDOWN va = va := by
  rw [ROUNDDOWN, Nat.mod_eq_zero_of_dvd hdvd, Nat.sub_zero]

/-- A region of one page. -/
theorem procRegionAlloc_page (perm : Nat) (hdvd : PGSIZE ∣ va) (hva : va + 2 * PGSIZE ≤ 2 ^ 32) :
    procRegionAlloc s p va PGSIZE perm = regionPage s p va perm := by
  have hfuel : (2 : Nat) ^ 20 = (2 ^ 20 - 2) + 2 := by decide
  have hlt : va + PGSIZE < 2 ^ 32 := by simp only [PGSIZE] at *; omega
  unfold procRegionAlloc
  rw [regionEnd hva, if_pos hdvd, ROUNDDOWN_of_dvd hdvd, hfuel, regionLoop_one _ _ hlt]

/-- At the start of a page the handler maps one page. -/
theorem heapFault_aligned (hlo : s.baseMemSz p ≤ va) (hhi : va < s.heapPtr p) (hva : va < HEAPTOP)
    (hdvd : PGSIZE ∣ va) :
    heapFault s p va = match regionPage s p va PTE_SYSCALL with
      | (true, s₁) => some s₁
      | (false, s₁) => if p = s₁.rootproc then none else some (exit s₁ p) := by
  have hend : va + 2 * PGSIZE ≤ 2 ^ 32 := by simp only [HEAPTOP, PGSIZE] at *; omega
  unfold heapFault
  rw [if_pos ⟨hhi, hlo⟩, procRegionAlloc_page _ hdvd hend]

/-- Inside a page it maps two. -/
theorem heapFault_inside (hlo : s.baseMemSz p ≤ va) (hhi : va < s.heapPtr p) (hva : va < HEAPTOP)
    (hdvd : ¬ PGSIZE ∣ va) :
    heapFault s p va = match (match regionPage s p (ROUNDDOWN va) PTE_SYSCALL with
        | (false, s₁) => (false, s₁)
        | (true, s₁) => regionPage s₁ p (ROUNDDOWN va + PGSIZE) PTE_SYSCALL) with
      | (true, s₁) => some s₁
      | (false, s₁) => if p = s₁.rootproc then none else some (exit s₁ p) := by
  unfold heapFault procRegionAlloc
  have hfuel : (2 : Nat) ^ 20 = (2 ^ 20 - 3) + 3 := by decide
  have hend : va + 2 * PGSIZE ≤ 2 ^ 32 := by simp only [HEAPTOP, PGSIZE] at *; omega
  have hlt : ROUNDDOWN va < HEAPTOP := (Nat.sub_le _ _).trans_lt hva
  rw [if_pos ⟨hhi, hlo⟩, regionEnd hend, if_neg hdvd, hfuel, regionLoop_two _ _ hlt]

/-- The next page gets a frame that was not in use, so that its mapping is not what it was. -/
theorem not_faultOk_of_next {s₁ s₂ : Vm} (hva : va < HEAPTOP) (h₁ : MapInv s₁) (hun₁ : Unused s₁)
    (hsame : tr s₁ p (ROUNDDOWN va + PGSIZE) = tr s p (ROUNDDOWN va + PGSIZE))
    (hpage : regionPage s₁ p (ROUNDDOWN va + PGSIZE) PTE_SYSCALL = (true, s₂)) :
    ¬ FaultOk s p va (some s₂) := by
  have hlt : ROUNDDOWN va + PGSIZE < UTOP := by simp only [ROUNDDOWN, PGSIZE, HEAPTOP, UTOP] at *; omega
  have hdvd : PGSIZE ∣ ROUNDDOWN va + PGSIZE := (dvd_ROUNDDOWN va).add dvd_rfl
  rintro ⟨_, hother⟩
  obtain ⟨f, x, halloc, hmap⟩ := regionPage_maps h₁ hun₁ hlt hpage
  obtain ⟨hkept, _⟩ := hother p (ROUNDDOWN va + PGSIZE) ⟨hlt, hdvd⟩ (by simp [PGSIZE])
  rw [hmap, ← hsame] at hkept
  cases hcall : pageAlloc s₁ with
  | mk o t =>
    rw [hcall] at halloc
    obtain rfl : o = some f := halloc
    obtain ⟨hkind, hfree, _⟩ := pageAlloc_some hcall
    refine (hun₁ f hkind hfree).2.1 _ (mem_pteSlots_of_lt p hlt) ?_
    rw [pteAt_eq_map]
    exact congrArg (Option.map Pte.frame) hkept.symm

/-- **The second half of the handler**. -/
theorem heapFault_ok_iff (h : Ready s p) (hlo : s.baseMemSz p ≤ va) (hhi : va < s.heapPtr p)
    (habs : tr s p va = none) :
    FaultOk s p va (heapFault s p va) ↔ PGSIZE ∣ va ∧ (pageAlloc s).1 ≠ none ∧
      ((pdeAt s (p, PDINDEX va)).isSome = true ∨ (pageAlloc (pageAlloc s).2).1 ≠ none) := by
  have hva : va < HEAPTOP := hhi.trans_le h.top
  have hutop : va < UTOP := hva.trans (by decide)
  have hpage : UserPage (ROUNDDOWN va) := ⟨(Nat.sub_le _ _).trans_lt hutop, dvd_ROUNDDOWN va⟩
  obtain ⟨hpd, hpt⟩ := ROUNDDOWN_slot va
  have htr : ∀ t : Vm, tr t p (ROUNDDOWN va) = tr t p va := fun t => by rw [tr, tr, hpd, hpt]
  obtain ⟨b, s₁, hfirst, h₁, hroot₁, hb, hok⟩ :=
    regionPage_spec (p := p) h.map h.unused hpage ((htr s).trans habs) PTE_SYSCALL
  rw [hpd] at hb
  by_cases hdvd : PGSIZE ∣ va
  · -- one page
    rw [heapFault_aligned hlo hhi hva hdvd, ← hb]
    rw [ROUNDDOWN_of_dvd hdvd] at hfirst hok
    rw [hfirst]
    cases b with
    | false => exact iff_of_false (not_faultOk_of_exit hutop) fun hc => Bool.noConfusion hc.2
    | true =>
      obtain ⟨_, ⟨f, hself, hzero⟩, hother, hdata⟩ := hok rfl
      have hperm : (PTE_SYSCALL ||| PTE_P ||| PTE_P) &&& PTE_USTK = PTE_USTK := by decide
      refine iff_of_true ⟨⟨_, _, hself, ?_, hperm, hzero⟩, fun q v hv hne => ?_⟩ ⟨hdvd, rfl⟩
      · rw [h₁.effective_eq hutop, hself]
        rfl
      · have hslot : (q, PDINDEX v, PTINDEX v) ≠ (p, PDINDEX va, PTINDEX va) := by
          intro heq
          obtain ⟨hq, hslots⟩ := Prod.mk.inj heq
          have hvne : v ≠ va := fun hc => hne (by rw [hq, hc, ROUNDDOWN_of_dvd hdvd])
          exact slot_ne hv.2 hdvd hv.1 hutop hvne p (by rw [hslots])
        exact ⟨hother _ (mem_pteSlots_of_lt q hv.1) hslot, fun e he => hdata _ (mem_pteSlots_of_lt q hv.1) e he⟩
  · -- two pages, or an exit
    refine iff_of_false ?_ fun hc => hdvd hc.1
    rw [heapFault_inside hlo hhi hva hdvd, hfirst]
    cases b with
    | false => exact not_faultOk_of_exit hutop
    | true =>
      obtain ⟨hun₁, _, hother, _⟩ := hok rfl
      have hlt : ROUNDDOWN va + PGSIZE < UTOP := by simp only [ROUNDDOWN, PGSIZE, HEAPTOP, UTOP] at *; omega
      have hsame : tr s₁ p (ROUNDDOWN va + PGSIZE) = tr s p (ROUNDDOWN va + PGSIZE) := by
        apply hother _ (mem_pteSlots_of_lt p hlt)
        intro heq
        obtain ⟨_, hslots⟩ := Prod.mk.inj heq
        exact slot_ne ((dvd_ROUNDDOWN va).add dvd_rfl) hpage.2 hlt hpage.1 (by simp [PGSIZE]) p (by rw [hslots])
      cases hsecond : regionPage s₁ p (ROUNDDOWN va + PGSIZE) PTE_SYSCALL with
      | mk b s₂ =>
        dsimp only
        rw [hsecond]
        cases b with
        | false => exact not_faultOk_of_exit hutop
        | true => exact not_faultOk_of_next hva h₁ hun₁ hsame hsecond

/-- **The faults that affect only their own page**. -/
theorem heapFault_iff (h : Ready s p) (hlo : s.baseMemSz p ≤ va) (hhi : va < s.heapPtr p)
    (habs : tr s p va = none) :
    FaultOk s p va (pageFaultHandler s p write va) ↔ Served s p write va := by
  have hutop : va < UTOP := (hhi.trans_le h.top).trans (by decide)
  unfold Served
  cases write with
  | false =>
    show FaultOk s p va (heapFault s p va) ↔ _
    rw [heapFault_ok_iff h hlo hhi habs]
    simp
  | true =>
    unfold pageFaultHandler
    rw [if_pos rfl]
    cases ht : pdeAt s (p, PDINDEX va) with
    | none => exact iff_of_false (fun hc => hc) (by simp)
    | some t =>
      -- the entry is not present, so that it is 0
      have hnot : (s.table t (PTINDEX va)).present = false := by
        cases hp : (s.table t (PTINDEX va)).present with
        | false => rfl
        | true =>
          rw [tr, trAt_eq ht, if_pos hp] at habs
          cases habs
      have hslot : (p, PDINDEX va) ∈ pdeSlots := mem_pdeSlots.2 (PDINDEX_lt hutop)
      have hblank := h.blank _ hslot t ht _ (PTINDEX_lt va) hnot
      dsimp only
      rw [hblank, if_neg (by decide), heapFault_ok_iff h hlo hhi habs, ht]
      simp

end Handler

/-! ## §5 An empty address space -/

theorem tr_vmInit (supply : List (Option Nat)) (p : Proc) (va : Nat) : tr (vmInit supply) p va = none :=
  trAt_eq_none (pdeAt_vmInit supply _)

theorem vmInit_ready (supply : List (Option Nat)) (p : Proc) : Ready (vmInit supply) p where
  map := Heap.vmInit_mapInv supply
  unused f hf _ := by
    refine ⟨(vmInit_pageTablesOk supply).pool_lt f hf |>.2, fun e _ => ?_, fun e _ => ?_⟩
    · simp [pteAt, pdeAt_vmInit]
    · simp [pdeAt_vmInit]
  blank e _ t ht := by simp [pdeAt_vmInit] at ht
  top := by
    show UTEXT + 2 * PGSIZE ≤ HEAPTOP
    decide

/-- The second page of the heap is read, and there are two free pages. -/
theorem heapFault_iff_read :
    FaultOk (vmInit [some 16, some 17]) 1 (UTEXT + PGSIZE)
      (pageFaultHandler (vmInit [some 16, some 17]) 1 false (UTEXT + PGSIZE)) :=
  (heapFault_iff (vmInit_ready _ 1) (by decide) (by decide) (tr_vmInit ..)).2
    ⟨by decide, by decide, .inr ⟨rfl, by decide⟩⟩

/-- The sixth byte of the heap is read, and there are three free pages: the handler maps two of them. -/
theorem heapFault_inside_page :
    ¬ ∀ (s : Vm) (p : Proc) (write : Bool) (va : Nat), Ready s p → s.baseMemSz p ≤ va → va < s.heapPtr p →
      tr s p va = none → FaultOk s p va (pageFaultHandler s p write va) := by
  intro hall
  have hready := vmInit_ready [some 16, some 17, some 18] 1
  have hlo : (vmInit [some 16, some 17, some 18]).baseMemSz 1 ≤ UTEXT + 5 := by decide
  have hhi : UTEXT + 5 < (vmInit [some 16, some 17, some 18]).heapPtr 1 := by decide
  have hok := hall _ 1 false (UTEXT + 5) hready hlo hhi (tr_vmInit ..)
  have hdvd := ((heapFault_ok_iff hready hlo hhi (tr_vmInit ..)).1 hok).1
  exact absurd hdvd (by decide)

end WeiOS.Paging.HeapFault
