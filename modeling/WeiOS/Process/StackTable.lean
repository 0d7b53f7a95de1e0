import Mathlib
import WeiOS.Mm.HeapFault
import WeiOS.Process.Create

/-!
# The Page Table of a Kernel Stack

The kernel stack of a process lies above `UTOP`, and so the page table that maps it is the only frame of a process that
its page directory names outside of the user part. This file follows one such frame through everything that `kern/pmap.c`
and `kern/trap.c` do to page tables: it is in use, no page table entry maps it, and no directory entry of the user part
names it, so that nothing gives it back.

## Main results
- `Away.pageAlloc`, `Away.setPte`, `Away.setPde`: what keeps a frame out of the page tables.
- `Spared.pageRemove`, `Spared.pageInsert`: the calls of `kern/pmap.c` keep it in use.
- `Spared.pgdirFree`: the end of a process does, too.
- `Spared.pageFaultHandler`: so does a page fault.
-/

namespace WeiOS.Process.Create

open WeiOS.Paging (Vm Pte PGSIZE PDENTRIES PDINDEX PTINDEX UTEXT UTOP PTE_P PTE_W PTE_U PTE_COW PTE_SHARE PTE_SYSCALL
  pageAlloc pageDecreaseRef pageInsert pageLookup pageRemove pgdirWalk pgdirFree incRef setPte setPde orPde)
open WeiOS.Paging.HeapFault (regionPage regionLoop procRegionAlloc heapFault pageFaultHandler pageAlloc_some
  pageAlloc_none)

/-! ## §1 A frame that nothing names -/

/-- The directory entry of the kernel stack. -/
def STACKDIR : Nat := PDINDEX (KSTACKTOP - KSTACKSIZE)

/-- The directory entries whose page tables the kernel walks: those up to `UTOP`, where a region may end, and the one of
    the kernel stack. -/
def Walked (d : Nat) : Prop := d ≤ PDINDEX UTOP ∨ d = STACKDIR

/-- The directory entries whose frames the kernel gives back: the page tables of the user part, and the page directory
    itself. -/
def Named (d : Nat) : Prop := d < PDINDEX UTOP ∨ d = PDINDEX UVPT

/-- Frame `t` is not mapped, and it is neither a page directory nor a page table of the user part. -/
structure Away (kernPgdir : Nat → Pte) (t : Nat) (s : Vm) : Prop where
  pos : t ≠ 0
  dirs : ∀ q d, Named d → (s.pgdir q d).frame ≠ t
  entries : ∀ q d, Walked d → (s.pgdir q d).present = true → ∀ i, (s.table (s.pgdir q d).frame i).frame ≠ t
  kernel : (kernPgdir (PDINDEX UTOP)).present = true → ∀ i, (s.table (kernPgdir (PDINDEX UTOP)).frame i).frame ≠ t
  heap : ∀ q, s.heapPtr q ≤ UTOP

/-- Frame `t` is in use, and nothing that the kernel gives back. -/
structure Spared (kernPgdir : Nat → Pte) (t : Nat) (s : Vm) : Prop extends Away kernPgdir t s where
  held : s.allocated t = true

section Writes

variable {kern : Nat → Pte} {t f g i d va perm : Nat} {s s' : Vm} {p : Paging.Proc}

theorem walked_of_le (h : va ≤ UTOP) : Walked (PDINDEX va) := by
  refine .inl ?_
  rcases Nat.lt_or_eq_of_le h with hlt | heq
  · exact (Paging.PDINDEX_lt hlt).le
  · rw [heq]

theorem walked_stack : Walked (PDINDEX (KSTACKTOP - KSTACKSIZE)) := .inr rfl

/-- Whether a frame is away can be seen from the page tables and the heap bounds. -/
theorem Away.congr (h : Away kern t s) (hpgdir : s'.pgdir = s.pgdir) (htable : s'.table = s.table)
    (hheap : s'.heapPtr = s.heapPtr) : Away kern t s' where
  pos := h.pos
  dirs := by rw [hpgdir]; exact h.dirs
  entries := by rw [hpgdir, htable]; exact h.entries
  kernel := by rw [htable]; exact h.kernel
  heap := by rw [hheap]; exact h.heap

/-- A new frame has no entries. -/
theorem Away.pageAlloc (h : Away kern t s) : Away kern t (pageAlloc s).2 := by
  obtain ⟨hpgdir, _, hother, hnew⟩ := Paging.pageAlloc_frame s
  have htable : ∀ g i, ((Paging.pageAlloc s).2.table g i).frame ≠ t ∨
      (Paging.pageAlloc s).2.table g i = s.table g i := by
    intro g i
    by_cases hg : (Paging.pageAlloc s).1 = some g
    · exact .inl (by rw [hnew g hg]; exact h.pos.symm)
    · exact .inr (by rw [hother g hg])
  have hheap : (Paging.pageAlloc s).2.heapPtr = s.heapPtr := by
    unfold Paging.pageAlloc
    split
    · rfl
    · rfl
    · split <;> rfl
  refine ⟨h.pos, by rw [hpgdir]; exact h.dirs, ?_, ?_, by rw [hheap]; exact h.heap⟩
  · intro q d hd hp i
    rw [hpgdir] at hp ⊢
    rcases htable (s.pgdir q d).frame i with hne | heq
    · exact hne
    · rw [heq]
      exact h.entries q d hd hp i
  · intro hp i
    rcases htable (kern (PDINDEX UTOP)).frame i with hne | heq
    · exact hne
    · rw [heq]
      exact h.kernel hp i

theorem Away.setPte (h : Away kern t s) {e : Pte} (he : e.frame ≠ t) (g i : Nat) :
    Away kern t (setPte s g i e) := by
  have htable : ∀ g' j, (s.table g' j).frame ≠ t → ((Paging.setPte s g i e).table g' j).frame ≠ t := by
    intro g' j hne
    unfold Paging.setPte
    by_cases hg : g' = g
    · subst hg
      by_cases hj : j = i
      · simpa [hj] using he
      · simpa [hj] using hne
    · simpa [hg] using hne
  exact ⟨h.pos, h.dirs, fun q d hd hp j => htable _ _ (h.entries q d hd hp j), fun hp j => htable _ _ (h.kernel hp j),
    h.heap⟩

theorem Away.setPde (h : Away kern t s) {e : Pte} (hdir : Named d → e.frame ≠ t)
    (hentries : Walked d → e.present = true → ∀ i, (s.table e.frame i).frame ≠ t) :
    Away kern t (setPde s p d e) := by
  have hpgdir : ∀ q d', (Paging.setPde s p d e).pgdir q d' = e ∧ d' = d ∨
      (Paging.setPde s p d e).pgdir q d' = s.pgdir q d' := by
    intro q d'
    unfold Paging.setPde
    by_cases hq : q = p
    · subst hq
      by_cases hd : d' = d
      · exact .inl ⟨by simp [hd], hd⟩
      · exact .inr (by simp [hd])
    · exact .inr (by simp [hq])
  refine ⟨h.pos, fun q d' hd => ?_, fun q d' hd hp => ?_, h.kernel, h.heap⟩
  · rcases hpgdir q d' with ⟨heq, rfl⟩ | heq
    · rw [heq]
      exact hdir hd
    · rw [heq]
      exact h.dirs q d' hd
  · rcases hpgdir q d' with ⟨heq, rfl⟩ | heq
    · rw [heq] at hp ⊢
      exact hentries hd hp
    · rw [heq] at hp ⊢
      exact h.entries q d' hd hp

theorem Away.orPde (h : Away kern t s) (hp : (s.pgdir p (PDINDEX va)).present = true) :
    Away kern t (orPde s p va perm) :=
  h.setPde (fun hd => h.dirs p _ hd) fun hd _ => h.entries p _ hd hp

end Writes

/-! ## §2 Page tables -/

section Tables

variable {kern : Nat → Pte} {t f g i d va perm : Nat} {s s' : Vm} {p : Paging.Proc}

theorem Spared.congr (h : Spared kern t s) (hpgdir : s'.pgdir = s.pgdir) (htable : s'.table = s.table)
    (hheap : s'.heapPtr = s.heapPtr) (halloc : s'.allocated = s.allocated) : Spared kern t s' :=
  ⟨h.toAway.congr hpgdir htable hheap, by rw [halloc]; exact h.held⟩

/-- A frame in use is not handed out. -/
theorem Spared.pageAlloc (h : Spared kern t s) :
    Spared kern t (pageAlloc s).2 ∧ ∀ f, (Paging.pageAlloc s).1 = some f → f ≠ t := by
  cases halloc : Paging.pageAlloc s with
  | mk o s₁ =>
    have haway := h.toAway.pageAlloc
    rw [halloc] at haway
    cases o with
    | none =>
      refine ⟨⟨haway, ?_⟩, fun f hf => by cases hf⟩
      rw [(pageAlloc_none halloc).1]
      exact h.held
    | some f =>
      obtain ⟨_, hfree, hall, _⟩ := pageAlloc_some halloc
      have hne : f ≠ t := by
        rintro rfl
        rw [h.held] at hfree
        cases hfree
      refine ⟨⟨haway, ?_⟩, fun f' hf' => Option.some.inj hf' ▸ hne⟩
      show s₁.allocated t = true
      rw [hall, Function.update_of_ne hne.symm]
      exact h.held

theorem Spared.pageDecreaseRef (h : Spared kern t s) (hf : f ≠ t) : Spared kern t (pageDecreaseRef s f) := by
  obtain ⟨_, halloc, hpgdir, htable, _⟩ := Paging.pageDecreaseRef_spec s f
  have hheap : (Paging.pageDecreaseRef s f).heapPtr = s.heapPtr := by
    unfold Paging.pageDecreaseRef Paging.pageFree
    dsimp only
    split <;> rfl
  refine ⟨h.toAway.congr hpgdir htable hheap, ?_⟩
  rw [halloc]
  split
  · rw [Function.update_of_ne hf.symm]
    exact h.held
  · exact h.held

theorem Spared.setPte (h : Spared kern t s) {e : Pte} (he : e.frame ≠ t) (g i : Nat) : Spared kern t (setPte s g i e) :=
  ⟨h.toAway.setPte he g i, h.held⟩

/-- `pgdir_walk` may take a frame for a page table. -/
theorem Spared.pgdirWalk (h : Spared kern t s) (va : Nat) (create : Bool) : Spared kern t (pgdirWalk s p va create).2 := by
  unfold Paging.pgdirWalk
  dsimp only
  split
  · exact h
  · split
    · exact h
    · obtain ⟨h₁, hne⟩ := h.pageAlloc
      cases halloc : Paging.pageAlloc s with
      | mk o s₁ =>
        have hnew := (Paging.pageAlloc_frame s).2.2.2
        rw [halloc] at h₁ hne hnew
        cases o with
        | none => exact h₁
        | some g =>
          have hinc : Spared kern t (incRef s₁ g) := h₁.congr rfl rfl rfl rfl
          refine ⟨hinc.toAway.setPde (fun _ => hne g rfl) fun _ _ i => ?_, hinc.held⟩
          -- the new page table is empty
          show (s₁.table g i).frame ≠ t
          rw [hnew g rfl i]
          exact h.pos.symm

/-- The page that `page_lookup` finds, and its page table. -/
theorem Away.pageLookup (h : Away kern t s) (hd : Walked (PDINDEX va)) (hlook : pageLookup s p va = some (f, g)) :
    f ≠ t ∧ (s.pgdir p (PDINDEX va)).present = true ∧ (s.pgdir p (PDINDEX va)).frame = g := by
  unfold Paging.pageLookup at hlook
  rw [Paging.pgdirWalk_false] at hlook
  dsimp only at hlook
  cases hdir : Paging.pdeAt s (p, PDINDEX va) with
  | none =>
    rw [hdir] at hlook
    cases hlook
  | some g' =>
    rw [hdir] at hlook
    dsimp only at hlook
    split at hlook
    · cases hlook
    · cases hlook
      unfold Paging.pdeAt at hdir
      dsimp only at hdir
      split at hdir
      · next hp =>
        obtain rfl := Option.some.inj hdir
        exact ⟨h.entries p _ hd hp _, hp, rfl⟩
      · cases hdir

theorem Spared.pageRemove (h : Spared kern t s) (hd : Walked (PDINDEX va)) : Spared kern t (pageRemove s p va) := by
  unfold Paging.pageRemove
  split
  · exact h
  · next f g hlook => exact (h.pageDecreaseRef (h.toAway.pageLookup hd hlook).1).setPte h.pos.symm _ _

/-- The end of `page_insert`, when the entry has been cleared. -/
theorem Spared.mapPage (h : Spared kern t s) (hf : f ≠ t) (hp : (s.pgdir p (PDINDEX va)).present = true) (g i x : Nat) :
    Spared kern t (orPde (Paging.setPte s g i ⟨f, x⟩) p va perm) :=
  ⟨(h.toAway.setPte hf g i).orPde hp, h.held⟩

theorem Spared.pageInsert (h : Spared kern t s) (hd : Walked (PDINDEX va)) (hf : f ≠ t) (perm : Nat) :
    Spared kern t (pageInsert s p f va perm).2 := by
  have h₁ := h.pgdirWalk (p := p) va true
  unfold Paging.pageInsert
  cases hw : Paging.pgdirWalk s p va true with
  | mk o s₁ =>
    rw [hw] at h₁
    cases o with
    | none => exact h₁
    | some g =>
      obtain ⟨_, hp, _⟩ := pgdirWalk_dir hw
      dsimp only at h₁ ⊢
      split
      · exact h₁.mapPage hf hp _ _ _
      · refine Spared.congr (s := orPde _ p va perm) (Spared.mapPage ?_ hf ?_ _ _ _) rfl rfl rfl rfl
        · split
          · exact h₁.pageRemove hd
          · exact h₁
        · split
          · rw [(pageRemove_frame s₁ p va).1]
            exact hp
          · exact hp

end Tables

/-! ## §3 The end of a process -/

section Free

variable {kern : Nat → Pte} {t d n : Nat} {s : Vm} {p : Paging.Proc}

theorem Spared.freePtes (h : Spared kern t s) (hd : Walked d) (hp : (s.pgdir p d).present = true) (n : Nat) :
    Spared kern t (Paging.freePtes s (s.pgdir p d).frame n) := by
  induction n with
  | zero => exact h
  | succ n ih =>
    unfold Paging.freePtes
    dsimp only
    split
    · apply ih.pageDecreaseRef
      rw [(Paging.freePtes_same _ _ _).1]
      exact h.entries p d hd hp n
    · exact ih

theorem Spared.freePdes (h : Spared kern t s) (hn : n ≤ PDINDEX UTOP) : Spared kern t (Paging.freePdes s p n) := by
  induction n with
  | zero => exact h
  | succ n ih =>
    have h₁ := ih (Nat.le_of_succ_le hn)
    unfold Paging.freePdes
    dsimp only
    split
    · next hp =>
      have h₂ := (h₁.freePtes (.inl (Nat.le_of_succ_le hn)) hp PDENTRIES).pageDecreaseRef (h₁.dirs p n (.inl hn))
      exact ⟨h₂.toAway.setPde (fun _ => h.pos.symm) (fun _ hp => by cases hp), h₂.held⟩
    · exact h₁

/-- **`pgdir_free`** stops at `UTOP`. -/
theorem Spared.pgdirFree (h : Spared kern t s) : Spared kern t (pgdirFree s p) := h.freePdes (Nat.le_refl _)

theorem Spared.exit (h : Spared kern t s) : Spared kern t (Paging.exit s p) := by
  unfold Paging.exit
  split
  · exact h
  · exact h.pgdirFree

end Free

/-! ## §4 Page calls and page faults -/

section Calls

variable {kern : Nat → Pte} {t f va perm : Nat} {s s' : Vm} {p : Paging.Proc} {write : Bool}

theorem Spared.userPageAlloc (h : Spared kern t s) (target : Option Paging.Proc) (va perm : Nat) :
    Spared kern t (Paging.userPageAlloc s target va perm).2 := by
  unfold Paging.userPageAlloc
  split
  · exact h
  · next hva =>
    cases target with
    | none => exact h
    | some p =>
      obtain ⟨h₁, hne⟩ := h.pageAlloc
      dsimp only
      cases halloc : Paging.pageAlloc s with
      | mk o s₁ =>
        rw [halloc] at h₁ hne
        cases o with
        | none => exact h₁
        | some f =>
          have hd : Walked (PDINDEX va) := walked_of_le (Nat.lt_of_not_le fun hc => hva (.inl hc)).le
          have h₂ := Spared.pageInsert (p := p) h₁ hd (hne f rfl) perm
          dsimp only
          cases hins : Paging.pageInsert s₁ p f va perm with
          | mk b s₂ =>
            rw [hins] at h₂
            cases b with
            | true => exact h₂
            | false => exact h₂.pageDecreaseRef (hne f rfl)

theorem Spared.userPageMap (h : Spared kern t s) (src : Option Paging.Proc) (vaS : Nat) (dst : Option Paging.Proc)
    (vaD perm : Nat) : Spared kern t (Paging.userPageMap s src vaS dst vaD perm).2 := by
  unfold Paging.userPageMap
  split
  · exact h
  · next hS =>
    split
    · exact h
    · next hD =>
      split
      · exact h
      · split
        · next pS pD =>
          cases hlook : Paging.pageLookup s pS vaS with
          | none => exact h
          | some x =>
            obtain ⟨f, g⟩ := x
            have hwS : Walked (PDINDEX vaS) := walked_of_le (Nat.lt_of_not_le fun hc => hS (.inl hc)).le
            have hwD : Walked (PDINDEX vaD) := walked_of_le (Nat.lt_of_not_le fun hc => hD (.inl hc)).le
            have h₁ := Spared.pageInsert (p := pD) h hwD (h.toAway.pageLookup hwS hlook).1 perm
            dsimp only
            split
            · exact h
            · cases hins : Paging.pageInsert s pD f vaD perm with
              | mk b s₁ =>
                rw [hins] at h₁
                cases b <;> exact h₁
        · exact h

theorem Spared.userPageUpmap (h : Spared kern t s) (target : Option Paging.Proc) (va : Nat) :
    Spared kern t (Paging.userPageUpmap s target va).2 := by
  unfold Paging.userPageUpmap
  split
  · exact h
  · next hva =>
    cases target with
    | none => exact h
    | some p => exact h.pageRemove (walked_of_le (Nat.lt_of_not_le hva).le)

theorem Spared.memmove (h : Spared kern t s) (p : Paging.Proc) (dst src : Nat) :
    Spared kern t (Paging.memmove s p dst src) := by
  obtain ⟨data, hmove⟩ := Paging.memmove_spec s p dst src
  rw [hmove]
  exact h.congr rfl rfl rfl rfl

/-- **A copy-on-write fault**: every call keeps the frame, and so does the exit after a call that fails. -/
theorem Spared.cowPgfault (h : Spared kern t s) (p : Paging.Proc) (va : Nat) :
    Spared kern t (Paging.cowPgfault s p va) := by
  unfold Paging.cowPgfault
  dsimp only
  have h₁ := h.userPageAlloc (some p) Paging.PFTEMP Paging.PTE_USTK
  split
  · next s₁ halloc =>
    rw [halloc] at h₁
    exact h₁.exit
  next s₁ halloc =>
  rw [halloc] at h₁
  have h₂ := (h₁.memmove p Paging.PFTEMP (Paging.ROUNDDOWN va)).userPageUpmap (some p) (Paging.ROUNDDOWN va)
  split
  · next s₂ hupmap =>
    rw [hupmap] at h₂
    exact h₂.exit
  next s₂ hupmap =>
  rw [hupmap] at h₂
  have h₃ := h₂.userPageMap (some p) Paging.PFTEMP (some p) (Paging.ROUNDDOWN va) Paging.PTE_USTK
  split
  · next s₃ hmap =>
    rw [hmap] at h₃
    exact h₃.exit
  next s₃ hmap =>
  rw [hmap] at h₃
  have h₄ := h₃.userPageUpmap (some p) Paging.PFTEMP
  split
  · next s₄ hupmap₂ =>
    rw [hupmap₂] at h₄
    exact h₄.exit
  · next s₄ hupmap₂ =>
    rw [hupmap₂] at h₄
    exact h₄

theorem Spared.regionPage (h : Spared kern t s) (hd : Walked (PDINDEX va)) (perm : Nat) :
    Spared kern t (regionPage s p va perm).2 := by
  obtain ⟨h₁, hne⟩ := h.pageAlloc
  unfold Paging.HeapFault.regionPage
  cases halloc : Paging.pageAlloc s with
  | mk o s₁ =>
    rw [halloc] at h₁ hne
    cases o with
    | none => exact h₁
    | some f => exact h₁.pageInsert hd (hne f rfl) _

/-- A region of the user part may reach one page into the part above. -/
theorem walked_of_region (h : va < UTOP + PGSIZE) : Walked (PDINDEX va) := by
  have hutop : PDINDEX UTOP = 954 := by decide
  have hdiv : va / 2 ^ 22 < 955 := by
    rw [Nat.div_lt_iff_lt_mul (by decide)]
    exact h.trans (by decide)
  have hmod := Nat.mod_le (va / 2 ^ 22) PDENTRIES
  unfold Walked PDINDEX
  unfold PDINDEX at hutop
  omega

theorem Spared.regionLoop (h : Spared kern t s) {vaEnd : Nat} (hend : vaEnd ≤ UTOP + PGSIZE) (perm fuel va : Nat) :
    Spared kern t (regionLoop p perm vaEnd fuel va s).2 := by
  induction fuel generalizing va s with
  | zero => exact h
  | succ fuel ih =>
    unfold Paging.HeapFault.regionLoop
    split
    · next hlt =>
      have h₁ := h.regionPage (p := p) (walked_of_region (hlt.trans_le hend)) perm
      cases hpage : Paging.HeapFault.regionPage s p va perm with
      | mk b s₁ =>
        rw [hpage] at h₁
        cases b with
        | false => exact h₁
        | true => exact ih h₁ _
    · exact h

/-- The end of the region of a page fault. -/
theorem region_end_le (h : va < UTOP) : Paging.ROUNDUP ((va + PGSIZE) % 2 ^ 32) ≤ UTOP + PGSIZE := by
  unfold Paging.ROUNDUP Paging.ROUNDDOWN
  unfold UTOP PGSIZE at *
  omega

theorem Spared.heapFault (h : Spared kern t s) (hf : heapFault s p va = some s') : Spared kern t s' := by
  unfold Paging.HeapFault.heapFault at hf
  split at hf
  · next hva =>
    have hend := region_end_le (hva.1.trans_le (h.heap p))
    have h₁ := h.regionLoop (p := p) hend PTE_SYSCALL (2 ^ 20) (Paging.ROUNDDOWN va)
    unfold procRegionAlloc at hf
    cases hrun : Paging.HeapFault.regionLoop p PTE_SYSCALL (Paging.ROUNDUP ((va + PGSIZE) % 2 ^ 32)) (2 ^ 20)
        (Paging.ROUNDDOWN va) s with
    | mk b s₁ =>
      rw [hrun] at h₁ hf
      cases b with
      | true =>
        obtain rfl := Option.some.inj hf
        exact h₁
      | false =>
        dsimp only at hf
        split at hf
        · cases hf
        · obtain rfl := Option.some.inj hf
          exact h₁.exit
  · obtain rfl := Option.some.inj hf
    exact h

/-- **A page fault**. -/
theorem Spared.pageFaultHandler (h : Spared kern t s) (hf : pageFaultHandler s p write va = some s') :
    Spared kern t s' := by
  unfold Paging.HeapFault.pageFaultHandler at hf
  split at hf
  · split at hf
    · cases hf
    · split at hf
      · obtain rfl := Option.some.inj hf
        exact h.cowPgfault p va
      · exact h.heapFault hf
  · exact h.heapFault hf

end Calls

end WeiOS.Process.Create
