import Mathlib
import WeiOS.Process.StackTable

/-!
# The Life of a Process

A process from `clone` to the `wait` of its parent, as far as page frames are concerned: page faults, `exec` of
`kern/sysfunc.c` with `grow_vm` and `load_program` of `kern/pmap.c`, `exit`, and what `wait` gives back. The frames of a
process are given back in four places, and none of them thinks of the page table that maps the kernel stack.

## Main results
- `clone_spares`: a process that was created has a page table for its kernel stack.
- `Spared.exec`, `Spared.step`: everything that the process does afterwards keeps this page table.
- `lifeCycle_leaks`: the frames in use at the end are not those in use at the start.
-/

namespace WeiOS.Process.Create

open WeiOS.Lib
open WeiOS.Paging (Vm Pte PGSIZE PDENTRIES PDINDEX PTINDEX UTEXT UTOP PTE_P PTE_W PTE_U ROUNDUP
  pageAlloc pageDecreaseRef pageInsert pageLookup pageRemove pgdirWalk pgdirFree)
open WeiOS.Paging.HeapFault (procRegionAlloc pageFaultHandler)

/-! ## §1 `exec` -/

/-- `include/mem.h` and `include/elf.h`. -/
def USTACKBOTTOM : Nat := 0xD0000000 - PGSIZE
def ELF_MAGIC : Nat := 0x464c457f
def ELF_PROG_LOAD : Nat := 1

/-- The sizes of `struct Elf32_Ehdr` and `struct Elf32_Phdr`. -/
def EHDRSIZE : Nat := 52
def PHDRSIZE : Nat := 32

/-- A file on disk as `exec` reads it. The bytes after its end are those that `exec` finds on its own stack when it reads
    less than it asks for. -/
structure ExecFile where
  fileSiz : Nat
  byte : Nat → BitVec 8

/-- The 16-bit and the 32-bit number at an offset. -/
def ExecFile.half (f : ExecFile) (off : Nat) : Nat := (f.byte off).toNat + 2 ^ 8 * (f.byte (off + 1)).toNat
def ExecFile.word (f : ExecFile) (off : Nat) : Nat := f.half off + 2 ^ 16 * f.half (off + 2)

/-- `readi`: the number of bytes that are read; the error is `-E_BAD_OFFSET`. -/
def readi (f : ExecFile) (offset nbytes : Nat) : Option Nat :=
  if f.fileSiz < offset ∨ (offset + nbytes) % 2 ^ 32 < offset then none
  else some (if f.fileSiz < offset + nbytes then f.fileSiz - offset else nbytes)

/-- The fields of `struct Elf32_Phdr` that `exec` uses. -/
structure Phdr where
  pType : Nat
  pOffset : Nat
  pVaddr : Nat
  pFilesz : Nat
  pMemsz : Nat

/-- The program header at an offset. -/
def ExecFile.phdr (f : ExecFile) (off : Nat) : Phdr where
  pType := f.word off
  pOffset := f.word (off + 4)
  pVaddr := f.word (off + 8)
  pFilesz := f.word (off + 16)
  pMemsz := f.word (off + 20)

/-- The loop of `grow_vm`; an address space has no more than `2 ^ 20` pages. -/
def growLoop (p : Paging.Proc) (newsz : Nat) : Nat → Nat → Vm → Bool × Vm
  | 0, _, s => (true, s)
  | fuel + 1, va, s =>
    if va < newsz then
      match pgdirWalk s p va true with
      | (none, s) => (false, s)
      | (some t, s) =>
        if (s.table t (PTINDEX va)).present then growLoop p newsz fuel (va + PGSIZE) s
        else
          match pageAlloc s with
          | (none, s) => (false, s)
          | (some f, s) =>
            match pageInsert s p f va (PTE_W ||| PTE_U ||| PTE_P) with
            | (false, s) => (false, s)
            | (true, s) => growLoop p newsz fuel (va + PGSIZE) s
    else (true, s)

/-- `grow_vm`; 0 is a failure. -/
def growVm (s : Vm) (p : Paging.Proc) (oldsz newsz : Nat) : Nat × Vm :=
  if UTOP ≤ newsz then (0, s)
  else if newsz ≤ oldsz then (oldsz, s)
  else
    match growLoop p newsz (2 ^ 20) (ROUNDUP oldsz) s with
    | (false, s) => (0, s)
    | (true, s) => (newsz, s)

/-- The loop of `load_program`. It panics where there is no page table, and it does not look at `PTE_P`. -/
def loadLoop (p : Paging.Proc) (des : Nat) (file : ExecFile) (off size : Nat) : Nat → Nat → Vm → Option (Bool × Vm)
  | 0, _, s => some (true, s)
  | fuel + 1, j, s =>
    if j < size then
      match pgdirWalk s p (des + j) false with
      | (none, _) => none
      | (some t, s) =>
        let pa := (s.table t (PTINDEX (des + j))).frame
        let nbytes := if size - j < PGSIZE then size - j else PGSIZE
        match readi file ((off + j) % 2 ^ 32) nbytes with
        | none => some (false, s)
        | some n =>
          let page := fun a => if a < n then (file.byte ((off + j) % 2 ^ 32 + a)).toNat else s.data pa a
          let s := { s with data := Function.update s.data pa page }
          if n ≠ nbytes then some (false, s) else loadLoop p des file off size fuel (j + PGSIZE) s
    else some (true, s)

/-- `load_program`. -/
def loadProgram (s : Vm) (p : Paging.Proc) (des : Nat) (file : ExecFile) (off size : Nat) : Option (Bool × Vm) :=
  loadLoop p des file off size (2 ^ 20) 0 s

/-- The body of the loop of `exec` over the program headers: the new `base_mem_sz`, or nothing where `exec` fails. -/
def execPhdr (s : Vm) (npgdir : Paging.Proc) (file : ExecFile) (off baseMemSz : Nat) : Option (Option Nat × Vm) :=
  if readi file off PHDRSIZE ≠ some PHDRSIZE then some (none, s)
  else
    let ph := file.phdr off
    if ph.pType ≠ ELF_PROG_LOAD then some (some baseMemSz, s)
    else if UTOP < ph.pVaddr then some (none, s)
    else if (ph.pVaddr + ph.pMemsz) % 2 ^ 32 < ph.pVaddr then some (none, s)
    else if ph.pMemsz < ph.pFilesz then some (none, s)
    else
      match growVm s npgdir baseMemSz ((ph.pVaddr + ph.pMemsz) % 2 ^ 32) with
      | (baseMemSz, s) =>
        if baseMemSz = 0 then some (none, s)
        else if ph.pVaddr % PGSIZE ≠ 0 then some (none, s)
        else
          match loadProgram s npgdir ph.pVaddr file ph.pOffset ph.pFilesz with
          | none => none
          | some (false, s) => some (none, s)
          | some (true, s) => some (some baseMemSz, s)

/-- The loop of `exec` over `n` program headers. -/
def execPhdrs (npgdir : Paging.Proc) (file : ExecFile) : Nat → Nat → Nat → Vm → Option (Option Nat × Vm)
  | 0, _, baseMemSz, s => some (some baseMemSz, s)
  | n + 1, off, baseMemSz, s =>
    match execPhdr s npgdir file off baseMemSz with
    | some (some baseMemSz, s) => execPhdrs npgdir file n ((off + PHDRSIZE) % 2 ^ 32) baseMemSz s
    | r => r

/-- The frame of a page directory, which is in its slot for `UVPT`. -/
def pgdirFrame (s : Vm) (p : Paging.Proc) : Nat := (s.pgdir p (PDINDEX UVPT)).frame

/-- `exec_failure`, where there is a new page directory. -/
def execFailure (s : Vm) (npgdir : Paging.Proc) : Vm := pageDecreaseRef (pgdirFree s npgdir) (pgdirFrame s npgdir)

/-- The end of `exec`, when the process has its new page directory. -/
def execSwitch (s : Vm) (opgdir npgdir : Paging.Proc) (baseMemSz : Nat) : Vm :=
  let s := { s with
    baseMemSz := Function.update s.baseMemSz npgdir baseMemSz
    heapPtr := Function.update s.heapPtr npgdir (ROUNDUP baseMemSz) }
  let s := pgdirFree s opgdir
  let s := pageRemove s opgdir (KSTACKTOP - KSTACKSIZE)
  pageDecreaseRef s (pgdirFrame s opgdir)

/-- `exec` of a file by the process with page directory `opgdir`: whether it succeeds, and memory. The new page directory
    is named `npgdir`; `stack` is the page of the user stack with the arguments, or nothing where there are too many of
    them. -/
def exec (s : Vm) (kernPgdir : Nat → Pte) (opgdir npgdir : Paging.Proc) (file : ExecFile)
    (stack : Option (Nat → Nat)) : Option (Bool × Vm) :=
  if readi file 0 EHDRSIZE = none ∨ file.word 0 ≠ ELF_MAGIC then some (false, s)
  else
    match setupVm s kernPgdir npgdir with
    | (false, s) => some (false, s)
    | (true, s) =>
      match execPhdrs npgdir file (file.half 44) (file.word 28) UTEXT s with
      | none => none
      | some (none, s) => some (false, execFailure s npgdir)
      | some (some baseMemSz, s) =>
        match pageAlloc s with
        | (none, s) => some (false, execFailure s npgdir)
        | (some f, s) =>
          match pageInsert s npgdir f USTACKBOTTOM Paging.PTE_USTK with
          | (false, s) => some (false, execFailure (pageDecreaseRef s f) npgdir)
          | (true, s) =>
            match stack with
            | none => some (false, execFailure s npgdir)
            | some page =>
              let s := { s with data := Function.update s.data f page }
              match pageLookup s opgdir (KSTACKTOP - KSTACKSIZE) with
              | none => none
              | some (k, _) =>
                match pageInsert s npgdir k (KSTACKTOP - KSTACKSIZE) (PTE_P ||| PTE_W) with
                | (false, s) => some (false, execFailure s npgdir)
                | (true, s) => some (true, execSwitch s opgdir npgdir baseMemSz)

/-! ## §2 From `clone` to `wait` -/

/-- What `wait` gives back of a child's memory. -/
def waitFree (s : Vm) (p : Paging.Proc) : Vm :=
  let s := pageRemove s p (KSTACKTOP - KSTACKSIZE)
  pageDecreaseRef s (pgdirFrame s p)

/-- What happens to memory while a process lives: it faults, it executes a file, and its parent faults in a write. Loads
    and stores that do not fault leave the frames alone. -/
inductive Act where
  | touch (write : Bool) (va : Nat)
  | exec (npgdir : Paging.Proc) (file : ExecFile) (stack : Nat → Nat)
  | parentStore (va : Nat)

/-- Memory, the page directory of the process, and the frames that the parent's write faults are about: those that they
    take, those that they give back, and those that were mapped at the address. -/
structure Life where
  vm : Vm
  procPgdir : Paging.Proc
  copied : Nat → Bool

/-- One act. An `exec` is one that succeeds. -/
def step (kernPgdir : Nat → Pte) (parent : Paging.Proc) (l : Life) : Act → Option Life
  | .touch write va => (pageFaultHandler l.vm l.procPgdir write va).map fun vm => { l with vm := vm }
  | .exec npgdir file stack =>
    match exec l.vm kernPgdir l.procPgdir npgdir file (some stack) with
    | some (true, vm) => some { l with vm := vm, procPgdir := npgdir }
    | _ => none
  | .parentStore va =>
    (pageFaultHandler l.vm parent true va).map fun vm =>
      { l with
        vm := vm
        copied := fun f => l.copied f || (l.vm.allocated f != vm.allocated f) ||
          (decide (va < UTOP) && (pageLookup l.vm parent va).any (fun x => x.1 == f)) }

/-- A list of acts. -/
def steps (kernPgdir : Nat → Pte) (parent : Paging.Proc) : Life → List Act → Option Life
  | l, [] => some l
  | l, a :: acts =>
    match step kernPgdir parent l a with
    | none => none
    | some l => steps kernPgdir parent l acts

/-- **A life cycle**: process `cur` creates a process by a successful `clone(CLONE_FORK)`, the process acts and exits, and
    `cur` gets its pid from `wait`, perhaps after more write faults. -/
def lifeCycle (m : Machine) (cur : Proc) (r : Request) (acts : List Act) (stores : List Nat) : Option Life :=
  match clone m cur r CLONE_FORK with
  | .error _ => none
  | .ok (m₁, e) =>
    if e < 0 then none
    else
      match m₁.manager.procTable e.toNat with
      | none => none
      | some son =>
        let parent := (m₁.descs cur.desc).procPgdir
        match steps m.kernPgdir parent ⟨m₁.vm, (m₁.descs son).procPgdir, fun _ => false⟩ acts with
        | none => none
        | some l =>
          match steps m.kernPgdir parent { l with vm := Paging.exit l.vm l.procPgdir } (stores.map .parentStore) with
          | none => none
          | some l => some { l with vm := waitFree l.vm l.procPgdir }

/-- **No frame is leaked or lost**: apart from the copies of the parent, the frames in use are those from before. -/
def NoLeak (s : Vm) (l : Life) : Prop := ∀ f, l.copied f = false → l.vm.allocated f = s.allocated f

/-- A frame of the allocator that is in use, or another frame. -/
def InUse (s : Vm) (f : Nat) : Prop := s.kind f = .pool → s.allocated f = true

/-- The state when a process is created: what page tables and page directories name is in use, and the heaps end below
    `UTOP`. -/
structure Tidy (m : Machine) : Prop where
  zero : m.vm.kind 0 ≠ .pool
  dirs : ∀ q d, Named d → InUse m.vm (m.vm.pgdir q d).frame
  entries : ∀ q d, Walked d → (m.vm.pgdir q d).present = true → ∀ i, InUse m.vm (m.vm.table (m.vm.pgdir q d).frame i).frame
  kernel : (m.kernPgdir (PDINDEX UTOP)).present = true →
    ∀ i, InUse m.vm (m.vm.table (m.kernPgdir (PDINDEX UTOP)).frame i).frame
  heap : ∀ q, m.vm.heapPtr q ≤ UTOP

/-! ## §3 A page directory -/

section Directory

variable {kern : Nat → Pte} {t : Nat} {s s' : Vm} {i : Paging.Proc}

/-- A frame that is not in use is away. -/
theorem Tidy.away {m : Machine} (h : Tidy m) (hpool : m.vm.kind t = .pool) (hfree : m.vm.allocated t = false) :
    Away m.kernPgdir t m.vm := by
  have hne : ∀ f, InUse m.vm f → f ≠ t := by
    rintro f hf rfl
    have := hf hpool
    rw [hfree] at this
    cases this
  refine ⟨?_, fun q d hd => hne _ (h.dirs q d hd), fun q d hd hp i => hne _ (h.entries q d hd hp i),
    fun hp i => hne _ (h.kernel hp i), h.heap⟩
  rintro rfl
  exact h.zero hpool

/-- `setup_vm` names its own frame and the kernel's part. -/
theorem Away.setupVm (h : Away kern t s) (hne : (Paging.pageAlloc s).1 ≠ some t) :
    Away kern t (setupVm s kern i).2 := by
  have h₁ := h.pageAlloc
  unfold Create.setupVm
  cases halloc : Paging.pageAlloc s with
  | mk o s₁ =>
    rw [halloc] at h₁ hne
    cases o with
    | none => exact h₁
    | some f =>
      have hf : f ≠ t := fun hc => hne (congrArg some hc)
      refine ⟨h.pos, fun q d hd => ?_, fun q d hd hp j => ?_, h₁.kernel, h₁.heap⟩
      · by_cases hq : q = i
        · subst hq
          rcases hd with hd | hd
          · have hstack : d ≠ PDINDEX (KSTACKTOP - KSTACKSIZE) := fun hc => absurd (hc ▸ hd) (by decide)
            have huvpt : d ≠ PDINDEX UVPT := fun hc => absurd (hc ▸ hd) (by decide)
            simpa [hstack, huvpt, hd, Pte.zero] using h.pos.symm
          · simpa [hd] using hf
        · simpa [hq] using h₁.dirs q d hd
      · by_cases hq : q = i
        · subst hq
          have huvpt : d ≠ PDINDEX UVPT := by
            rintro rfl
            rcases hd with hd | hd <;> exact absurd hd (by decide)
          by_cases hstack : d = PDINDEX (KSTACKTOP - KSTACKSIZE)
          · simp [hstack, show PDINDEX (KSTACKTOP - KSTACKSIZE) ≠ PDINDEX UVPT by decide, Pte.zero, Pte.present] at hp
          · rcases Nat.lt_or_ge d (PDINDEX UTOP) with hlt | hge
            · simp [huvpt, hstack, hlt, Pte.zero, Pte.present] at hp
            · -- the page table at `UTOP` is one of the kernel's
              have hd : d = PDINDEX UTOP := Nat.le_antisymm (hd.resolve_right hstack) hge
              subst hd
              simp only [Function.update_self, Function.update_of_ne huvpt, Function.update_of_ne hstack,
                if_neg (Nat.lt_irrefl _)] at hp ⊢
              exact h₁.kernel hp j
        · simp only [Function.update_of_ne hq] at hp ⊢
          exact h₁.entries q d hd hp j

theorem Spared.setupVm (h : Spared kern t s) : Spared kern t (setupVm s kern i).2 := by
  obtain ⟨h₁, hne⟩ := h.pageAlloc
  refine ⟨h.toAway.setupVm fun hc => hne t hc rfl, ?_⟩
  unfold Create.setupVm
  cases halloc : Paging.pageAlloc s with
  | mk o s₁ =>
    rw [halloc] at h₁
    cases o <;> exact h₁.held

/-- `page_insert` finds what its walk has made. -/
theorem pageInsert_walk {p : Paging.Proc} {va f perm : Nat} (h : pgdirWalk s p va true = (some t, s')) :
    pageInsert s p f va perm = pageInsert s' p f va perm := by
  obtain ⟨_, hp, ht⟩ := pgdirWalk_dir h
  have hagain : pgdirWalk s' p va true = (some t, s') := by
    unfold Paging.pgdirWalk
    dsimp only
    rw [if_pos hp, ht]
  unfold Paging.pageInsert
  rw [h, hagain]

/-- **The page table of the stack**: a region in an empty directory entry takes a frame for its page table, and it is
    spared if it was away. -/
theorem stackPage_spares {perm : Nat} (hzero : s.pgdir i STACKDIR = Pte.zero)
    (h : ∀ t, s.kind t = .pool → s.allocated t = false → Away kern t s)
    (hok : Paging.HeapFault.regionPage s i (KSTACKTOP - KSTACKSIZE) perm = (true, s')) :
    ∃ t, s.kind t = .pool ∧ s.allocated t = false ∧ Spared kern t s' := by
  unfold Paging.HeapFault.regionPage at hok
  cases halloc : Paging.pageAlloc s with
  | mk o s₁ =>
    have hpgdir := (Paging.pageAlloc_frame s).1
    rw [halloc] at hok hpgdir
    cases o with
    | none => cases hok
    | some f =>
      obtain ⟨_, _, hall, hkind, _⟩ := Paging.HeapFault.pageAlloc_some halloc
      have hnot : ¬ (s₁.pgdir i (PDINDEX (KSTACKTOP - KSTACKSIZE))).present = true := by
        have hz : s₁.pgdir i (PDINDEX (KSTACKTOP - KSTACKSIZE)) = Pte.zero := by
          rw [hpgdir]
          exact hzero
        rw [hz]
        decide
      dsimp only at hok
      cases hw : Paging.pgdirWalk s₁ i (KSTACKTOP - KSTACKSIZE) true with
      | mk o s₃ =>
        have hwalk := hw
        unfold Paging.pgdirWalk at hwalk
        dsimp only at hwalk
        rw [if_neg hnot, if_neg (by decide)] at hwalk
        cases halloc₂ : Paging.pageAlloc s₁ with
        | mk o₂ s₂ =>
          have hnew := (Paging.pageAlloc_frame s₁).2.2.2
          rw [halloc₂] at hwalk hnew
          cases o₂ with
          | none =>
            obtain ⟨rfl, rfl⟩ := Prod.mk.inj hwalk
            unfold Paging.pageInsert at hok
            rw [hw] at hok
            cases hok
          | some t =>
            obtain ⟨hpool, hfree, hall₂, _⟩ := Paging.HeapFault.pageAlloc_some halloc₂
            have hft : f ≠ t := by
              rintro rfl
              rw [hall, Function.update_self] at hfree
              cases hfree
            have hfree₀ : s.allocated t = false := by rwa [hall, Function.update_of_ne hft.symm] at hfree
            have hpool₀ : s.kind t = .pool := by rw [← hkind]; exact hpool
            have haway := (h t hpool₀ hfree₀).pageAlloc
            rw [halloc] at haway
            have haway₂ := Away.pageAlloc haway
            rw [halloc₂] at haway₂
            -- the directory entry of the stack names the page table, which is empty
            obtain ⟨rfl, rfl⟩ := Prod.mk.inj hwalk
            have hinc : Away kern t (Paging.incRef s₂ t) := haway₂.congr rfl rfl rfl
            have hspared : Spared kern t
                (Paging.setPde (Paging.incRef s₂ t) i (PDINDEX (KSTACKTOP - KSTACKSIZE)) ⟨t, PTE_P⟩) := by
              refine ⟨hinc.setPde (fun hd => ?_) fun _ _ j => ?_, ?_⟩
              · rcases hd with hd | hd <;> exact absurd hd (by decide)
              · show (s₂.table t j).frame ≠ t
                rw [hnew t rfl j]
                exact haway₂.pos.symm
              · show s₂.allocated t = true
                rw [hall₂, Function.update_self]
            refine ⟨t, hpool₀, hfree₀, ?_⟩
            rw [pageInsert_walk hw] at hok
            have hlast := hspared.pageInsert (p := i) walked_stack hft (perm ||| PTE_P)
            rw [hok] at hlast
            exact hlast

end Directory

/-! ## §4 `exec` keeps a spared frame -/

section Exec

variable {kern : Nat → Pte} {t va : Nat} {s s' : Vm} {p i : Paging.Proc} {file : ExecFile}

theorem Spared.growLoop (h : Spared kern t s) {newsz : Nat} (hnew : newsz ≤ UTOP) (fuel va : Nat) :
    Spared kern t (growLoop p newsz fuel va s).2 := by
  induction fuel generalizing va s with
  | zero => exact h
  | succ fuel ih =>
    unfold Create.growLoop
    split
    · next hlt =>
      have h₁ := h.pgdirWalk (p := p) va true
      cases hw : Paging.pgdirWalk s p va true with
      | mk o s₁ =>
        rw [hw] at h₁
        cases o with
        | none => exact h₁
        | some g =>
          dsimp only
          split
          · exact ih h₁ _
          · obtain ⟨h₂, hne⟩ := Spared.pageAlloc h₁
            cases halloc : Paging.pageAlloc s₁ with
            | mk o s₂ =>
              rw [halloc] at h₂ hne
              cases o with
              | none => exact h₂
              | some f =>
                have hd : Walked (PDINDEX va) := walked_of_le (hlt.le.trans hnew)
                have h₃ := Spared.pageInsert (p := p) h₂ hd (hne f rfl) (PTE_W ||| PTE_U ||| PTE_P)
                dsimp only
                cases hins : Paging.pageInsert s₂ p f va (PTE_W ||| PTE_U ||| PTE_P) with
                | mk b s₃ =>
                  rw [hins] at h₃
                  cases b with
                  | false => exact h₃
                  | true => exact ih h₃ _
    · exact h

/-- `grow_vm` stays below `UTOP`. -/
theorem Spared.growVm (h : Spared kern t s) {oldsz : Nat} (hold : oldsz ≤ UTOP) (newsz : Nat) :
    Spared kern t (growVm s p oldsz newsz).2 ∧ (Create.growVm s p oldsz newsz).1 ≤ UTOP := by
  unfold Create.growVm
  split
  · exact ⟨h, Nat.zero_le _⟩
  · next htop =>
    split
    · exact ⟨h, hold⟩
    · have hnew : newsz ≤ UTOP := (Nat.lt_of_not_le htop).le
      have h₁ := h.growLoop (p := p) hnew (2 ^ 20) (ROUNDUP oldsz)
      cases hrun : Create.growLoop p newsz (2 ^ 20) (ROUNDUP oldsz) s with
      | mk b s₁ =>
        rw [hrun] at h₁
        cases b with
        | false => exact ⟨h₁, Nat.zero_le _⟩
        | true => exact ⟨h₁, hnew⟩

/-- `load_program` writes the contents of pages only. -/
theorem Spared.loadLoop {des off size fuel j : Nat} {b : Bool} (h : Spared kern t s)
    (hrun : loadLoop p des file off size fuel j s = some (b, s')) : Spared kern t s' := by
  induction fuel generalizing j s with
  | zero =>
    obtain ⟨_, rfl⟩ := Prod.mk.inj (Option.some.inj hrun)
    exact h
  | succ fuel ih =>
    unfold Create.loadLoop at hrun
    rw [Paging.pgdirWalk_false] at hrun
    split at hrun
    · cases hdir : Paging.pdeAt s (p, PDINDEX (des + j)) with
      | none =>
        rw [hdir] at hrun
        cases hrun
      | some g =>
        rw [hdir] at hrun
        dsimp only at hrun
        generalize (if size - j < PGSIZE then size - j else PGSIZE) = nbytes at hrun
        split at hrun
        · obtain ⟨_, rfl⟩ := Prod.mk.inj (Option.some.inj hrun)
          exact h
        · next n _ =>
          split at hrun
          · obtain ⟨_, rfl⟩ := Prod.mk.inj (Option.some.inj hrun)
            exact h.congr rfl rfl rfl rfl
          · refine ih ?_ hrun
            exact h.congr rfl rfl rfl rfl
    · obtain ⟨_, rfl⟩ := Prod.mk.inj (Option.some.inj hrun)
      exact h

/-- **One program header**. -/
theorem Spared.execPhdr (h : Spared kern t s) {off baseMemSz : Nat} (hbase : baseMemSz ≤ UTOP) {o : Option Nat}
    (hrun : execPhdr s i file off baseMemSz = some (o, s')) : Spared kern t s' ∧ ∀ sz, o = some sz → sz ≤ UTOP := by
  have hkeep : ∀ {o' : Option Nat}, (∀ sz, o' = some sz → sz ≤ UTOP) → some (o', s) = some (o, s') →
      Spared kern t s' ∧ ∀ sz, o = some sz → sz ≤ UTOP := by
    intro o' ho heq
    obtain ⟨rfl, rfl⟩ := Prod.mk.inj (Option.some.inj heq)
    exact ⟨h, ho⟩
  have hfail : ∀ sz, (none : Option Nat) = some sz → sz ≤ UTOP := fun sz hc => by cases hc
  unfold Create.execPhdr at hrun
  dsimp only at hrun
  split at hrun
  · exact hkeep hfail hrun
  split at hrun
  · exact hkeep (fun sz hsz => Option.some.inj hsz ▸ hbase) hrun
  split at hrun
  · exact hkeep hfail hrun
  split at hrun
  · exact hkeep hfail hrun
  split at hrun
  · exact hkeep hfail hrun
  -- the segment is inside of the user part
  obtain ⟨h₁, hsz⟩ := h.growVm (p := i) hbase (((file.phdr off).pVaddr + (file.phdr off).pMemsz) % 2 ^ 32)
  generalize Create.growVm s i baseMemSz _ = x at hrun h₁ hsz
  obtain ⟨sz, s₁⟩ := x
  dsimp only at hrun h₁ hsz
  split at hrun
  · obtain ⟨rfl, rfl⟩ := Prod.mk.inj (Option.some.inj hrun)
    exact ⟨h₁, hfail⟩
  split at hrun
  · obtain ⟨rfl, rfl⟩ := Prod.mk.inj (Option.some.inj hrun)
    exact ⟨h₁, hfail⟩
  split at hrun
  · cases hrun
  · next hload =>
    obtain ⟨rfl, rfl⟩ := Prod.mk.inj (Option.some.inj hrun)
    exact ⟨Spared.loadLoop h₁ hload, hfail⟩
  · next hload =>
    obtain ⟨rfl, rfl⟩ := Prod.mk.inj (Option.some.inj hrun)
    exact ⟨Spared.loadLoop h₁ hload, fun sz' hsz' => Option.some.inj hsz' ▸ hsz⟩

theorem Spared.execPhdrs (h : Spared kern t s) {n off baseMemSz : Nat} (hbase : baseMemSz ≤ UTOP) {o : Option Nat}
    (hrun : execPhdrs i file n off baseMemSz s = some (o, s')) : Spared kern t s' ∧ ∀ sz, o = some sz → sz ≤ UTOP := by
  induction n generalizing off baseMemSz s with
  | zero =>
    obtain ⟨rfl, rfl⟩ := Prod.mk.inj (Option.some.inj hrun)
    exact ⟨h, fun sz hsz => Option.some.inj hsz ▸ hbase⟩
  | succ n ih =>
    unfold Create.execPhdrs at hrun
    split at hrun
    · next sz s₁ hone =>
      obtain ⟨h₁, hsz⟩ := h.execPhdr hbase hone
      exact ih h₁ (hsz sz rfl) hrun
    · exact h.execPhdr hbase hrun

theorem Away.pgdirFrame (h : Away kern t s) (p : Paging.Proc) : pgdirFrame s p ≠ t := h.dirs p _ (.inr rfl)

theorem Spared.waitFree (h : Spared kern t s) (p : Paging.Proc) : Spared kern t (waitFree s p) := by
  have h₁ := h.pageRemove (p := p) walked_stack
  exact h₁.pageDecreaseRef (h₁.toAway.pgdirFrame p)

/-- `exec` gives back what `exit` and `wait` do. -/
theorem Spared.execSwitch (h : Spared kern t s) {baseMemSz : Nat} (hbase : baseMemSz ≤ UTOP) (opgdir npgdir : Paging.Proc) :
    Spared kern t (execSwitch s opgdir npgdir baseMemSz) := by
  unfold Create.execSwitch
  dsimp only
  have hround : ROUNDUP baseMemSz ≤ UTOP := by
    unfold ROUNDUP Paging.ROUNDDOWN
    unfold UTOP PGSIZE at *
    omega
  have hheap : Spared kern t { s with
      baseMemSz := Function.update s.baseMemSz npgdir baseMemSz
      heapPtr := Function.update s.heapPtr npgdir (ROUNDUP baseMemSz) } := by
    refine ⟨⟨h.pos, h.dirs, h.entries, h.kernel, fun q => ?_⟩, h.held⟩
    by_cases hq : q = npgdir
    · simpa [hq] using hround
    · simpa [hq] using h.heap q
  exact Spared.waitFree (Spared.pgdirFree (p := opgdir) hheap) opgdir

theorem Spared.execFailure (h : Spared kern t s) (npgdir : Paging.Proc) : Spared kern t (execFailure s npgdir) :=
  h.pgdirFree.pageDecreaseRef (h.toAway.pgdirFrame npgdir)

/-- **`exec`**, whether it succeeds or not. -/
theorem Spared.exec (h : Spared kern t s) {opgdir npgdir : Paging.Proc} {stack : Option (Nat → Nat)} {b : Bool}
    (hrun : exec s kern opgdir npgdir file stack = some (b, s')) : Spared kern t s' := by
  have hdone : ∀ {b' : Bool} {s₁ : Vm}, Spared kern t s₁ → some (b', s₁) = some (b, s') → Spared kern t s' := by
    intro b' s₁ h₁ heq
    obtain ⟨_, rfl⟩ := Prod.mk.inj (Option.some.inj heq)
    exact h₁
  unfold Create.exec at hrun
  split at hrun
  · exact hdone h hrun
  have h₁ := h.setupVm (i := npgdir)
  split at hrun
  · next s₁ hset =>
    rw [hset] at h₁
    exact hdone h₁ hrun
  next s₁ hset =>
  rw [hset] at h₁
  dsimp only at h₁
  split at hrun
  · cases hrun
  · next s₂ hphdrs => exact hdone ((h₁.execPhdrs (by decide) hphdrs).1.execFailure npgdir) hrun
  next baseMemSz s₂ hphdrs =>
  obtain ⟨h₂, hsz⟩ := h₁.execPhdrs (by decide) hphdrs
  have hbase := hsz baseMemSz rfl
  obtain ⟨h₃, hne⟩ := h₂.pageAlloc
  -- the user stack
  split at hrun
  · next s₃ halloc =>
    rw [halloc] at h₃
    exact hdone (h₃.execFailure npgdir) hrun
  next f s₃ halloc =>
  rw [halloc] at h₃ hne
  have h₄ := Spared.pageInsert (p := npgdir) h₃ (walked_of_le (show USTACKBOTTOM ≤ UTOP by decide)) (hne f rfl)
    Paging.PTE_USTK
  split at hrun
  · next s₄ hins =>
    rw [hins] at h₄
    exact hdone ((h₄.pageDecreaseRef (hne f rfl)).execFailure npgdir) hrun
  next s₄ hins =>
  rw [hins] at h₄
  cases stack with
  | none => exact hdone (Spared.execFailure h₄ npgdir) hrun
  | some page =>
    dsimp only at hrun
    have h₅ : Spared kern t { s₄ with data := Function.update s₄.data f page } := h₄.congr rfl rfl rfl rfl
    -- the kernel stack
    split at hrun
    · cases hrun
    next k g hlook =>
    have h₆ := h₅.pageInsert (p := npgdir) walked_stack (h₅.toAway.pageLookup walked_stack hlook).1 (PTE_P ||| PTE_W)
    split at hrun
    · next s₆ hins₂ =>
      rw [hins₂] at h₆
      exact hdone (h₆.execFailure npgdir) hrun
    · next s₆ hins₂ =>
      rw [hins₂] at h₆
      exact hdone (Spared.execSwitch h₆ hbase opgdir npgdir) hrun

end Exec

/-! ## §5 A life cycle -/

section Cycle

variable {kern : Nat → Pte} {t : Nat} {m m' : Machine} {cur p : Proc} {r : Request}

theorem getProcDesc_kernPgdir (m : Machine) (kmalloc : Option (Nat × List Nat)) :
    (getProcDesc m kmalloc).2.kernPgdir = m.kernPgdir ∧ (getProcDesc m kmalloc).2.vm = m.vm := by
  unfold getProcDesc
  cases m.manager.procsDescCache with
  | cons d rest => exact ⟨rfl, rfl⟩
  | nil => cases kmalloc <;> exact ⟨rfl, rfl⟩

/-- What `proc_alloc` returns without a process is not positive. -/
theorem procAlloc_none {e : Int} (hrun : procAlloc m r = .ok (m', e, none)) : e ≤ 0 := by
  unfold procAlloc at hrun
  split at hrun
  · obtain ⟨_, heq⟩ := Prod.mk.inj (Except.ok.inj hrun)
    rw [← (Prod.mk.inj heq).1]
    decide
  split at hrun
  · obtain ⟨_, heq⟩ := Prod.mk.inj (Except.ok.inj hrun)
    rw [← (Prod.mk.inj heq).1]
    decide
  split at hrun
  · obtain ⟨_, _, hrun⟩ := bind_eq_ok.1 hrun
    obtain ⟨_, heq⟩ := Prod.mk.inj (Except.ok.inj hrun)
    rw [← (Prod.mk.inj heq).1]
    decide
  dsimp only at hrun
  split at hrun
  · obtain ⟨_, _, hrun⟩ := bind_eq_ok.1 hrun
    obtain ⟨_, heq⟩ := Prod.mk.inj (Except.ok.inj hrun)
    rw [← (Prod.mk.inj heq).1]
  split at hrun
  · cases hrun
  · obtain ⟨_, heq⟩ := Prod.mk.inj (Except.ok.inj hrun)
    cases (Prod.mk.inj heq).2

/-- A frame that was away is away after `setup_vm`, if it is not in use then. -/
theorem setupVm_away {s s' : Vm} {i : Paging.Proc} (hset : setupVm s kern i = (true, s'))
    (h : ∀ t, s.kind t = .pool → s.allocated t = false → Away kern t s) :
    s'.pgdir i STACKDIR = Pte.zero ∧
      ∀ t, s'.kind t = .pool → s'.allocated t = false →
        s.kind t = .pool ∧ s.allocated t = false ∧ Away kern t s' := by
  rcases setupVm_spec s kern i with ⟨_, hno⟩ | ⟨_, vm', hset', _, hkind, halloc, _, hzero⟩
  · rw [hset] at hno
    cases hno
  rw [hset] at hset'
  obtain ⟨_, rfl⟩ := Prod.mk.inj hset'
  refine ⟨hzero, fun t hpool hfree => ?_⟩
  rw [hkind, pageAlloc_kind] at hpool
  rw [halloc] at hfree
  have hfree₀ := (Paging.HeapFault.pageAlloc_grows s).kept t hfree
  refine ⟨hpool, hfree₀, ?_⟩
  have haway := (h t hpool hfree₀).setupVm (i := i) fun hc => ?_
  · rw [hset] at haway
    exact haway
  · cases hp : Paging.pageAlloc s with
    | mk o s₁ =>
      rw [hp] at hc hfree
      obtain rfl : o = some t := hc
      rw [(Paging.HeapFault.pageAlloc_some hp).2.2.1, Function.update_self] at hfree
      cases hfree

/-- **`proc_alloc`**: the process that it makes has a page table for its kernel stack. -/
theorem procAlloc_spares (h : Tidy m) {e : Int} (hrun : procAlloc m r = .ok (m', e, some p)) :
    e = 0 ∧ ∃ t, m.vm.kind t = .pool ∧ m.vm.allocated t = false ∧ Spared m.kernPgdir t m'.vm := by
  unfold procAlloc at hrun
  split at hrun
  · obtain ⟨_, heq⟩ := Prod.mk.inj (Except.ok.inj hrun)
    cases (Prod.mk.inj heq).2
  obtain ⟨hkern, hvm⟩ := getProcDesc_kernPgdir m r.kmalloc
  split at hrun
  · obtain ⟨_, heq⟩ := Prod.mk.inj (Except.ok.inj hrun)
    cases (Prod.mk.inj heq).2
  next d m₁ hget =>
  rw [hget] at hkern hvm
  dsimp only at hkern hvm
  rw [hkern, hvm] at hrun
  split at hrun
  · obtain ⟨_, _, hrun⟩ := bind_eq_ok.1 hrun
    obtain ⟨_, heq⟩ := Prod.mk.inj (Except.ok.inj hrun)
    cases (Prod.mk.inj heq).2
  next vm₁ hset =>
  obtain ⟨hzero, haway⟩ := setupVm_away hset fun t hpool hfree => h.away hpool hfree
  dsimp only at hrun
  split at hrun
  · obtain ⟨_, _, hrun⟩ := bind_eq_ok.1 hrun
    obtain ⟨_, heq⟩ := Prod.mk.inj (Except.ok.inj hrun)
    cases (Prod.mk.inj heq).2
  next vm₂ hstack =>
  split at hrun
  · cases hrun
  obtain ⟨rfl, heq⟩ := Prod.mk.inj (Except.ok.inj hrun)
  refine ⟨(Prod.mk.inj heq).1.symm, ?_⟩
  have hpage : procRegionAlloc vm₁ r.pgdir (KSTACKTOP - KSTACKSIZE) PGSIZE (PTE_P ||| PTE_W) =
      Paging.HeapFault.regionPage vm₁ r.pgdir (KSTACKTOP - KSTACKSIZE) (PTE_P ||| PTE_W) :=
    Paging.HeapFault.procRegionAlloc_page _ (by decide) (by decide)
  rw [show KSTACKSIZE = PGSIZE from rfl] at hstack
  rw [show KSTACKTOP - PGSIZE = KSTACKTOP - KSTACKSIZE from rfl, hpage] at hstack
  obtain ⟨t, hpool, hfree, hspared⟩ := stackPage_spares hzero (fun t hp hf => (haway t hp hf).2.2) hstack
  obtain ⟨hpool₀, hfree₀, _⟩ := haway t hpool hfree
  exact ⟨t, hpool₀, hfree₀, hspared⟩

/-- The heap bounds of a child are those of its parent. -/
theorem dupProcStruct_spares (h : Tidy m) {e : Int} (hrun : dupProcStruct m cur r = .ok (m', e, some p)) :
    ∃ t, m.vm.kind t = .pool ∧ m.vm.allocated t = false ∧ Spared m.kernPgdir t m'.vm := by
  unfold dupProcStruct at hrun
  obtain ⟨⟨m₁, e₁, stored⟩, halloc, hrun⟩ := bind_eq_ok.1 hrun
  dsimp only at hrun
  split at hrun
  · obtain ⟨_, heq⟩ := Prod.mk.inj (Except.ok.inj hrun)
    cases (Prod.mk.inj heq).2
  cases stored with
  | none => cases hrun
  | some son =>
    obtain ⟨_, t, hpool, hfree, hspared⟩ := procAlloc_spares h halloc
    dsimp only at hrun
    split at hrun
    · cases hrun
    · obtain ⟨rfl, _⟩ := Prod.mk.inj (Except.ok.inj hrun)
      refine ⟨t, hpool, hfree, ⟨hspared.pos, hspared.dirs, hspared.entries, hspared.kernel, fun q => ?_⟩, hspared.held⟩
      show Function.update m₁.vm.heapPtr _ _ q ≤ UTOP
      by_cases hq : q = (m₁.descs son.desc).procPgdir
      · rw [hq, Function.update_self]
        exact hspared.heap _
      · rw [Function.update_of_ne hq]
        exact hspared.heap q

/-- **`clone`**: a successful call leaves a page table for the child's kernel stack. -/
theorem clone_spares (h : Tidy m) {e : Int} (hrun : clone m cur r CLONE_FORK = .ok (m', e)) (he : 0 ≤ e) :
    ∃ t, m.vm.kind t = .pool ∧ m.vm.allocated t = false ∧ Spared m.kernPgdir t m'.vm := by
  unfold clone at hrun
  obtain ⟨⟨m₁, e₁, stored⟩, hdup, hrun⟩ := bind_eq_ok.1 hrun
  cases stored with
  | none =>
    -- there is no process, and the value is negative
    obtain ⟨rfl, rfl⟩ := Prod.mk.inj (Except.ok.inj hrun)
    exfalso
    unfold dupProcStruct at hdup
    obtain ⟨⟨m₂, e₂, stored⟩, halloc, hdup⟩ := bind_eq_ok.1 hdup
    dsimp only at hdup
    split at hdup
    · next hne =>
      obtain ⟨rfl, heq⟩ := Prod.mk.inj (Except.ok.inj hdup)
      obtain ⟨rfl, _⟩ := Prod.mk.inj heq
      cases stored with
      | none => exact hne (Int.le_antisymm (procAlloc_none halloc) he)
      | some son => exact hne (procAlloc_spares h halloc).1
    · cases stored with
      | none => cases hdup
      | some son =>
        dsimp only at hdup
        split at hdup
        · cases hdup
        · obtain ⟨_, heq⟩ := Prod.mk.inj (Except.ok.inj hdup)
          cases (Prod.mk.inj heq).2
  | some son =>
    obtain ⟨t, hpool, hfree, hspared⟩ := dupProcStruct_spares h hdup
    dsimp only at hrun
    rw [if_pos (.inl rfl)] at hrun
    obtain ⟨⟨b, m₂⟩, hcow, hrun⟩ := bind_eq_ok.1 hrun
    have h₂ : Spared m.kernPgdir t m₂.vm :=
      cowFork_keeps (P := fun u => Spared m.kernPgdir t u.vm) (fun u u' _ _ _ _ _ _ hu hmap => by
        obtain ⟨_, _, rfl⟩ := userPageMap_eq hmap
        exact hu.userPageMap _ _ _ _ _) hspared hcow
    cases b with
    | true =>
      obtain ⟨rfl, _⟩ := Prod.mk.inj (Except.ok.inj hrun)
      exact ⟨t, hpool, hfree, h₂⟩
    | false =>
      obtain ⟨rfl, _⟩ := Prod.mk.inj (Except.ok.inj hrun)
      exact ⟨t, hpool, hfree, h₂.pgdirFree⟩

/-- The frame is in use, and no write fault of the parent was about it. -/
structure Left (kern : Nat → Pte) (t : Nat) (l : Life) : Prop where
  spared : Spared kern t l.vm
  copied : l.copied t = false

/-- **One act** of the process or its parent. -/
theorem Left.step {l l' : Life} (h : Left kern t l) {parent : Paging.Proc} {a : Act}
    (hrun : step kern parent l a = some l') : Left kern t l' := by
  cases a with
  | touch write va =>
    obtain ⟨vm, hvm, rfl⟩ := Option.map_eq_some_iff.1 hrun
    exact ⟨h.spared.pageFaultHandler hvm, h.copied⟩
  | exec npgdir file stack =>
    unfold Create.step at hrun
    dsimp only at hrun
    split at hrun
    · next vm hexec =>
      obtain rfl := Option.some.inj hrun
      exact ⟨h.spared.exec hexec, h.copied⟩
    · cases hrun
  | parentStore va =>
    obtain ⟨vm, hvm, rfl⟩ := Option.map_eq_some_iff.1 hrun
    have h₁ := h.spared.pageFaultHandler hvm
    refine ⟨h₁, ?_⟩
    have hpage : (decide (va < UTOP) && (pageLookup l.vm parent va).any (fun x => x.1 == t)) = false := by
      by_cases hva : va < UTOP
      · cases hlook : pageLookup l.vm parent va with
        | none => simp
        | some x => simp [(h.spared.toAway.pageLookup (walked_of_le hva.le) hlook).1]
      · simp [hva]
    simp [h.copied, h.spared.held, h₁.held, hpage]

/-- **A list of acts**. -/
theorem Left.steps {l l' : Life} (h : Left kern t l) {parent : Paging.Proc} {acts : List Act}
    (hrun : steps kern parent l acts = some l') : Left kern t l' := by
  induction acts generalizing l with
  | nil =>
    obtain rfl := Option.some.inj hrun
    exact h
  | cons a acts ih =>
    unfold Create.steps at hrun
    split at hrun
    · cases hrun
    · next l₁ hstep => exact ih (h.step hstep) hrun

/-- **A life cycle** leaves a frame in use that was not in use before. -/
theorem lifeCycle_left (h : Tidy m) {acts : List Act} {stores : List Nat} {l : Life}
    (hrun : lifeCycle m cur r acts stores = some l) :
    ∃ t, m.vm.allocated t = false ∧ l.vm.allocated t = true ∧ l.copied t = false := by
  unfold lifeCycle at hrun
  split at hrun
  · cases hrun
  next m₁ e hclone =>
  split at hrun
  · cases hrun
  next he =>
  obtain ⟨t, _, hfree, hspared⟩ := clone_spares h hclone (Int.not_lt.1 he)
  split at hrun
  · cases hrun
  dsimp only at hrun
  split at hrun
  · cases hrun
  next l₁ hacts =>
  have h₁ : Left m.kernPgdir t l₁ := Left.steps (l := ⟨m₁.vm, _, fun _ => false⟩) ⟨hspared, rfl⟩ hacts
  split at hrun
  · cases hrun
  next l₂ hstores =>
  have h₂ : Left m.kernPgdir t l₂ :=
    Left.steps (l := { l₁ with vm := Paging.exit l₁.vm l₁.procPgdir }) ⟨h₁.spared.exit, h₁.copied⟩ hstores
  obtain rfl := Option.some.inj hrun
  exact ⟨t, hfree, (h₂.spared.waitFree l₂.procPgdir).held, h₂.copied⟩

/-- **Every life cycle leaks**: the page table of the kernel stack stays in use. -/
theorem lifeCycle_leaks {m : Machine} (h : Tidy m) (cur : Proc) (r : Request) (acts : List Act) (stores : List Nat)
    (l : Life) (hrun : lifeCycle m cur r acts stores = some l) : ¬ NoLeak m.vm l := by
  obtain ⟨t, hfree, hused, hcopied⟩ := lifeCycle_left h hrun
  intro hno
  have := hno t hcopied
  rw [hused, hfree] at this
  cases this

end Cycle

/-! ## §6 The first process has a child -/

/-- A program without segments. -/
def emptyProgram : ExecFile where
  fileSiz := 52
  byte off := [0x7f, 0x45, 0x4c, 0x46].getD off 0

theorem rootMachine_tidy (supply : List (Option Nat)) : Tidy (rootMachine supply) where
  zero hc := absurd rfl ((Paging.vmInit_pageTablesOk supply).pool_lt 0 hc).1.ne
  dirs q d _ hpool := absurd rfl ((Paging.vmInit_pageTablesOk supply).pool_lt 0 hpool).1.ne
  entries q d _ hp := absurd hp (show ¬ Pte.zero.present = true by decide)
  kernel hp := absurd hp (show ¬ Pte.zero.present = true by decide)
  heap _ := show UTEXT + 2 * PGSIZE ≤ UTOP by decide

/-- The child executes a program and exits. -/
theorem lifeCycle_root : (lifeCycle (rootMachine ((List.range 7).map fun i => some (16 + i))) ⟨0, 0⟩
    ⟨some (1, []), 1⟩ [.exec 2 emptyProgram fun _ => 0] []).isSome = true := by
  decide +kernel

theorem lifeCycle_leaks_root :
    ∃ l, lifeCycle (rootMachine ((List.range 7).map fun i => some (16 + i))) ⟨0, 0⟩ ⟨some (1, []), 1⟩
        [.exec 2 emptyProgram fun _ => 0] [] = some l ∧
      ¬ NoLeak (rootMachine ((List.range 7).map fun i => some (16 + i))).vm l := by
  obtain ⟨l, hrun⟩ := Option.isSome_iff_exists.1 lifeCycle_root
  exact ⟨l, hrun, lifeCycle_leaks (rootMachine_tidy _) ⟨0, 0⟩ ⟨some (1, []), 1⟩ _ [] l hrun⟩

/-- The page table of the child's kernel stack is lost. -/
theorem lifeCycle_no_leak_fails :
    ¬ ∀ (m : Machine) (cur : Proc) (r : Request) (acts : List Act) (stores : List Nat) (l : Life), Tidy m →
      lifeCycle m cur r acts stores = some l → NoLeak m.vm l := by
  intro hall
  obtain ⟨l, hrun⟩ := Option.isSome_iff_exists.1 lifeCycle_root
  obtain ⟨t, hfree, hused, hcopied⟩ := lifeCycle_left (rootMachine_tidy _) hrun
  have := hall _ _ _ _ _ l (rootMachine_tidy _) hrun t hcopied
  rw [hused, hfree] at this
  cases this

end WeiOS.Process.Create
