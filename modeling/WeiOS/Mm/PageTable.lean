import Mathlib

/-!
# User Page Tables

`kern/pmap.c` from `page_alloc` to `page_remove`, and what works on top of it: the page calls, `sbrk`
and `brk` of `kern/sysfunc.c`, and the copy-on-write fault of `kern/trap.c`.

A page directory and its page tables are kept as the hardware sees them: directory entries name the
frame of a page table, and `table` has the contents of these frames. Only the user part of a page
directory is modelled. The allocator behind `page_alloc` is an oracle: `supply` lists its answers, a
null pointer or a frame, and only a free frame of its pool is handed out.
-/

namespace WeiOS.Paging

/-! ## §1 Data -/

/-- Addresses (`include/mem.h`, `include/mmu.h`). -/
def PGSIZE : Nat := 4096
def PDENTRIES : Nat := 1024
def UTOP : Nat := 0xEE800000
def HEAPTOP : Nat := 0xC0000000
def UTEXT : Nat := 0x08048000
def PFTEMP : Nat := UTEXT - PGSIZE

/-- Bits of a page table entry (`include/mmu.h`). -/
def PTE_P : Nat := 0x001
def PTE_W : Nat := 0x002
def PTE_U : Nat := 0x004
def PTE_AVAIL : Nat := 0xE00
def PTE_COW : Nat := 0x800
def PTE_SHARE : Nat := 0x400
def PTE_USTK : Nat := PTE_P ||| PTE_W ||| PTE_U
def PTE_SYSCALL : Nat := PTE_AVAIL ||| PTE_USTK

/-- Slots of the process table (`include/param.h`). -/
def NPROCS : Nat := 1024

abbrev Proc := Fin NPROCS

instance : NeZero NPROCS := ⟨by decide⟩

def PDINDEX (va : Nat) : Nat := va / 2 ^ 22 % PDENTRIES
def PTINDEX (va : Nat) : Nat := va / PGSIZE % PDENTRIES

/-- `ROUNDDOWN` and `ROUNDUP` to a page, on 32-bit addresses. -/
def ROUNDDOWN (a : Nat) : Nat := a - a % PGSIZE
def ROUNDUP (a : Nat) : Nat := ROUNDDOWN ((a + PGSIZE - 1) % 2 ^ 32)

/-- An entry of a page directory or a page table: the frame in the upper 20 bits, and the rest. -/
structure Pte where
  frame : Nat
  perm : Nat
  deriving DecidableEq

/-- The entry 0. -/
def Pte.zero : Pte := ⟨0, 0⟩

/-- `entry & PTE_P`. -/
def Pte.present (e : Pte) : Bool := e.perm &&& PTE_P != 0

/-- What a page frame is for: `page_alloc` may hand it out, it is one of the page tables that
    `boot_page_alloc` set up for the kernel's part of every address space, or it is neither. -/
inductive FrameKind where
  | pool
  | kernTable
  | other
  deriving DecidableEq

/-- Memory as far as user pages are concerned: page directories, page tables and page contents by
    frame, `p_ref` of the page descriptors, the frames that `page_alloc` has handed out, the heap bounds
    of the processes, and the process that must not exit. -/
structure Vm where
  npagesNum : Nat
  kind : Nat → FrameKind
  supply : List (Option Nat)
  pgdir : Proc → Nat → Pte
  table : Nat → Nat → Pte
  data : Nat → Nat → Nat
  pRef : Nat → BitVec 32
  allocated : Nat → Bool
  heapPtr : Proc → Nat
  baseMemSz : Proc → Nat
  rootproc : Proc

/-- Error codes. -/
inductive Err where
  | inval
  | badProc
  | noMem
  deriving DecidableEq

/-! ## §2 Frames -/

/-- `page_alloc(ALLOC_ZERO)`. -/
def pageAlloc (s : Vm) : Option Nat × Vm :=
  match s.supply with
  | [] => (none, s)
  | none :: rest => (none, { s with supply := rest })
  | some f :: rest =>
    if s.kind f = .pool ∧ s.allocated f = false then
      (some f,
        { s with
          supply := rest
          allocated := Function.update s.allocated f true
          pRef := Function.update s.pRef f 0
          table := Function.update s.table f fun _ => Pte.zero
          data := Function.update s.data f fun _ => 0 })
    else (none, { s with supply := rest })

/-- `page_free`. -/
def pageFree (s : Vm) (f : Nat) : Vm := { s with allocated := Function.update s.allocated f false }

/-- `page_decrease_ref`. -/
def pageDecreaseRef (s : Vm) (f : Nat) : Vm :=
  let s := { s with pRef := Function.update s.pRef f (s.pRef f - 1) }
  if s.pRef f = 0 then pageFree s f else s

/-- `pp->p_ref++`. -/
def incRef (s : Vm) (f : Nat) : Vm := { s with pRef := Function.update s.pRef f (s.pRef f + 1) }

/-! ## §3 Page tables -/

/-- A write to entry `i` of the page table in frame `t`. -/
def setPte (s : Vm) (t i : Nat) (e : Pte) : Vm :=
  { s with table := Function.update s.table t (Function.update (s.table t) i e) }

/-- A write to entry `d` of a page directory. -/
def setPde (s : Vm) (p : Proc) (d : Nat) (e : Pte) : Vm :=
  { s with pgdir := Function.update s.pgdir p (Function.update (s.pgdir p) d e) }

/-- `pgdir[PDINDEX(va)] |= perm`. -/
def orPde (s : Vm) (p : Proc) (va perm : Nat) : Vm :=
  let e := s.pgdir p (PDINDEX va)
  setPde s p (PDINDEX va) { e with perm := e.perm ||| perm }

/-- `pgdir_walk`: the frame of the page table for `va`. The entry is the one with index
    `PTINDEX va`. -/
def pgdirWalk (s : Vm) (p : Proc) (va : Nat) (create : Bool) : Option Nat × Vm :=
  let e := s.pgdir p (PDINDEX va)
  if e.present then (some e.frame, s)
  else if !create then (none, s)
  else
    match pageAlloc s with
    | (none, s) => (none, s)
    | (some t, s) => (some t, setPde (incRef s t) p (PDINDEX va) ⟨t, PTE_P⟩)

/-- `page_lookup`: the page that the entry for `va` names, and the entry. It does not look at
    `PTE_P`, so an empty entry names page 0. -/
def pageLookup (s : Vm) (p : Proc) (va : Nat) : Option (Nat × Nat) :=
  match (pgdirWalk s p va false).1 with
  | none => none
  | some t =>
    let e := s.table t (PTINDEX va)
    if s.npagesNum ≤ e.frame then none else some (e.frame, t)

/-- `page_remove`. -/
def pageRemove (s : Vm) (p : Proc) (va : Nat) : Vm :=
  match pageLookup s p va with
  | none => s
  | some (f, t) => setPte (pageDecreaseRef s f) t (PTINDEX va) Pte.zero

/-- `page_insert`; the error is -E_NO_MEM. -/
def pageInsert (s : Vm) (p : Proc) (f va perm : Nat) : Bool × Vm :=
  match pgdirWalk s p va true with
  | (none, s) => (false, s)
  | (some t, s) =>
    let e := s.table t (PTINDEX va)
    if e.present && e.frame == f then
      (true, orPde (setPte s t (PTINDEX va) ⟨f, perm ||| PTE_P⟩) p va perm)
    else
      let s := if e.present then pageRemove s p va else s
      (true, incRef (orPde (setPte s t (PTINDEX va) ⟨f, perm ||| PTE_P⟩) p va perm) f)

/-! ## §4 Page calls -/

/-- `perm & ~PTE_SYSCALL`. -/
def badPerm (perm : Nat) : Bool := perm &&& PTE_SYSCALL != perm

/-- `user_page_alloc`; `target` is the process that `pid2proc` finds. -/
def userPageAlloc (s : Vm) (target : Option Proc) (va perm : Nat) : Option Err × Vm :=
  if UTOP ≤ va ∨ badPerm perm then (some .inval, s)
  else
    match target with
    | none => (some .badProc, s)
    | some p =>
      match pageAlloc s with
      | (none, s) => (some .noMem, s)
      | (some f, s) =>
        match pageInsert s p f va perm with
        | (false, s) => (some .noMem, pageDecreaseRef s f)
        | (true, s) => (none, s)

/-- `user_page_map`; `src` and `dst` are the processes that `pid2proc` finds. -/
def userPageMap (s : Vm) (src : Option Proc) (vaS : Nat) (dst : Option Proc) (vaD perm : Nat) :
    Option Err × Vm :=
  if UTOP ≤ vaS ∨ vaS % PGSIZE ≠ 0 then (some .inval, s)
  else if UTOP ≤ vaD ∨ vaD % PGSIZE ≠ 0 then (some .inval, s)
  else if badPerm perm then (some .inval, s)
  else
    match src, dst with
    | some pS, some pD =>
      match pageLookup s pS vaS with
      | none => (some .inval, s)
      | some (f, t) =>
        if (s.table t (PTINDEX vaS)).perm &&& PTE_W = 0 ∧ perm &&& PTE_W ≠ 0 then (some .inval, s)
        else
          match pageInsert s pD f vaD perm with
          | (false, s) => (some .noMem, s)
          | (true, s) => (none, s)
    | _, _ => (some .badProc, s)

/-- `user_page_upmap`. -/
def userPageUpmap (s : Vm) (target : Option Proc) (va : Nat) : Option Err × Vm :=
  if UTOP ≤ va then (some .inval, s)
  else
    match target with
    | none => (some .badProc, s)
    | some p => (none, pageRemove s p va)

/-! ## §5 Heap -/

def setHeapPtr (s : Vm) (p : Proc) (a : Nat) : Vm :=
  { s with heapPtr := Function.update s.heapPtr p a }

/-- The loop of `sbrk`; an address space has no more than `2 ^ 20` pages. -/
def sbrkLoop (p : Proc) (baseAddr : Nat) : Nat → Nat → Vm → Vm
  | 0, _, s => s
  | fuel + 1, endAddr, s =>
    if endAddr < baseAddr then
      sbrkLoop p baseAddr fuel ((endAddr + PGSIZE) % 2 ^ 32) (pageRemove s p endAddr)
    else s

/-- `sbrk`. The amount to shrink by is taken modulo `0x7fffffff`, and a positive one is added to
    `heap_ptr` together with `heap_ptr`. -/
def sbrk (s : Vm) (p : Proc) (n : Int) : Vm :=
  let baseAddr := s.heapPtr p
  if n < 0 then
    let realN := (n % 2 ^ 32).toNat % 0x7fffffff
    let endAddr := ROUNDDOWN ((baseAddr + 2 ^ 32 - realN) % 2 ^ 32)
    if endAddr < ROUNDUP (s.baseMemSz p) then s
    else sbrkLoop p baseAddr (2 ^ 20) endAddr (setHeapPtr s p endAddr)
  else if 0 < n then
    let endAddr := (baseAddr + ROUNDUP n.toNat) % 2 ^ 32
    if HEAPTOP < endAddr ∨ endAddr < baseAddr then s
    else setHeapPtr s p ((baseAddr + endAddr) % 2 ^ 32)
  else s

/-- The loop of `brk`. -/
def brkLoop (p : Proc) (heapBreak : Nat) : Nat → Vm → Vm
  | 0, s => s
  | fuel + 1, s =>
    if heapBreak < s.heapPtr p then
      let a := (s.heapPtr p + 2 ^ 32 - PGSIZE) % 2 ^ 32
      brkLoop p heapBreak fuel (pageRemove (setHeapPtr s p a) p a)
    else s

/-- `brk`. -/
def brk (s : Vm) (p : Proc) (heapBreak : Nat) : Vm :=
  if s.heapPtr p < heapBreak then
    if ROUNDUP heapBreak ≤ HEAPTOP then setHeapPtr s p (ROUNDUP heapBreak) else s
  else if heapBreak < s.heapPtr p then
    if ROUNDDOWN heapBreak < ROUNDUP (s.baseMemSz p) then s
    else brkLoop p (ROUNDDOWN heapBreak) (2 ^ 20) s
  else s

/-! ## §6 Copy-on-write faults -/

/-- The inner loop of `pgdir_free`, over the entries below `n` of the page table in frame `t`. -/
def freePtes (s : Vm) (t : Nat) : Nat → Vm
  | 0 => s
  | n + 1 =>
    let s := freePtes s t n
    if (s.table t n).present then pageDecreaseRef s (s.table t n).frame else s

/-- The outer loop of `pgdir_free`, over the entries below `n` of the page directory. -/
def freePdes (s : Vm) (p : Proc) : Nat → Vm
  | 0 => s
  | n + 1 =>
    let s := freePdes s p n
    let e := s.pgdir p n
    if e.present then setPde (pageDecreaseRef (freePtes s e.frame PDENTRIES) e.frame) p n Pte.zero
    else s

/-- `pgdir_free`. -/
def pgdirFree (s : Vm) (p : Proc) : Vm := freePdes s p (PDINDEX UTOP)

/-- `exit`, as far as it concerns memory. The root process panics. -/
def exit (s : Vm) (p : Proc) : Vm := if p = s.rootproc then s else pgdirFree s p

/-- `memmove` of a page, through the page tables of the process. -/
def memmove (s : Vm) (p : Proc) (dst src : Nat) : Vm :=
  match pageLookup s p dst, pageLookup s p src with
  | some (d, _), some (f, _) => { s with data := Function.update s.data d (s.data f) }
  | _, _ => s

/-- `cow_pgfault`: each call that fails ends the process. -/
def cowPgfault (s : Vm) (p : Proc) (faltVa : Nat) : Vm :=
  let raddr := ROUNDDOWN faltVa
  match userPageAlloc s (some p) PFTEMP PTE_USTK with
  | (some _, s) => exit s p
  | (none, s) =>
    match userPageUpmap (memmove s p PFTEMP raddr) (some p) raddr with
    | (some _, s) => exit s p
    | (none, s) =>
      match userPageMap s (some p) PFTEMP (some p) raddr PTE_USTK with
      | (some _, s) => exit s p
      | (none, s) =>
        match userPageUpmap s (some p) PFTEMP with
        | (some _, s) => exit s p
        | (none, s) => s

end WeiOS.Paging
