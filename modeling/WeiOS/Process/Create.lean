import Mathlib
import WeiOS.Lib.Triple
import WeiOS.Fs.Syscall
import WeiOS.Mm.HeapFault
import WeiOS.Process.Lookup
import WeiOS.Process.Sched

/-!
# Creating Processes

`proc_alloc` of `kern/proc.c` and `clone` of `kern/sysfunc.c`, over the process manager, the page tables and the open
files together. There are five places where a creation can fail, and what has been done up to there is undone at most in
part: a descriptor that has no pid yet is destroyed as if it were process 0, a missing kernel stack is reported as a
success without a process, and `clone` gives back the child's pages only.

## Main results
- `procAlloc_refines`: the process manager alone does the same.
- `procAlloc_unchanged_iff`: the calls of `proc_alloc` that leave a process or no trace.
- `clone_unchanged_iff`: the calls of `clone` that leave no trace when they fail.
- `create_iff`: both together.
-/

namespace WeiOS.Process.Create

open WeiOS.Lib
open WeiOS.Paging (Vm Pte PGSIZE PDENTRIES PDINDEX PTINDEX UTEXT UTOP PTE_P PTE_W PTE_U PTE_COW PTE_SHARE PTE_SYSCALL
  pageAlloc pageInsert pageLookup pgdirWalk pgdirFree)
open WeiOS.Paging.HeapFault (regionPage procRegionAlloc procRegionAlloc_page)

/-! ## §1 State -/

/-- `include/mem.h`. -/
def KSTACKTOP : Nat := 0xF0000000
def KSTACKSIZE : Nat := PGSIZE
def UVPT : Nat := 0xEF000000
def GD_UT : Nat := 0x18
def GD_UD : Nat := 0x20

/-- `include/mmu.h`. -/
def USER_DPL : Nat := 3

/-- `include/proc.h`. -/
def CLONE_FORK : BitVec 32 := 0x19960912
def CLONE_VFORK : BitVec 32 := 0x19970717

/-- The segment registers of `struct trapframe`. -/
structure Trapframe where
  cs : Nat
  ds : Nat
  es : Nat
  fs : Nat
  gs : Nat
  ss : Nat
  deriving DecidableEq

/-- The fields of `struct proc` that a creation fills in; the pid is in the process manager, the files are in the file
    system. A page directory is named by an index of the page tables. -/
structure Desc where
  status : Sched.Status
  ppid : Nat
  procPgdir : Paging.Proc
  tf : Trapframe
  children : List Nat

/-- A descriptor after `memset`. -/
def zeroDesc : Desc := ⟨.runnable, 0, 0, ⟨0, 0, 0, 0, 0, 0⟩, []⟩

/-- The process manager, the descriptors by address, the pages that the slab allocator holds, the page tables with the
    kernel's page directory, the open files, and the processes that wait for the cpu. -/
structure Machine where
  manager : ProcManager
  descs : Nat → Desc
  heapPages : List Nat
  vm : Vm
  kernPgdir : Nat → Pte
  sys : Syscall.Sys
  runQueue : List Nat

/-- What stops a creation. -/
inductive Fault where
  | pid (e : Process.Fault)      -- `clear_pid` behind `id_bitmap`
  | slot (e : Lookup.SlotFault)  -- `pid2proc` through an empty slot
  | fs (e : Syscall.Fault)       -- a panic of `file_dup` or `iref`
  | noPage                       -- `page2va` of no page
  | garbage                      -- `dup_proc_struct` with a pointer that nobody has set

/-- What `kmalloc` returns for a descriptor, with the pages that the slab allocator takes for it, and the name that a new
    page directory gets. The other requests for memory are for frames, and `supply` of the page tables says how they
    end. -/
structure Request where
  kmalloc : Option (Nat × List Nat)
  pgdir : Paging.Proc

/-! ## §2 `proc_alloc` -/

/-- `get_proc_desc`. -/
def getProcDesc (m : Machine) (kmalloc : Option (Nat × List Nat)) : Option Nat × Machine :=
  match m.manager.procsDescCache with
  | d :: rest =>
    (some d, { m with
      manager := { m.manager with procsDescCache := rest }
      descs := Function.update m.descs d zeroDesc })
  | [] =>
    match kmalloc with
    | none => (none, m)
    | some (d, pages) =>
      (some d, { m with descs := Function.update m.descs d zeroDesc, heapPages := pages ++ m.heapPages })

/-- `proc_desc_destroy`. -/
def procDescDestroy (m : Machine) (p : Proc) : Except Fault Machine :=
  match Process.procDescDestroy m.manager p with
  | .error e => .error (.pid e)
  | .ok manager =>
    .ok { m with
      manager := manager
      descs := Function.update m.descs p.desc { m.descs p.desc with status := .free } }

/-- `setup_vm`, for a page directory that is named `i`. -/
def setupVm (vm : Vm) (kernPgdir : Nat → Pte) (i : Paging.Proc) : Bool × Vm :=
  match pageAlloc vm with
  | (none, vm) => (false, vm)
  | (some f, vm) =>
    let pgdir := fun d => if d < PDINDEX UTOP then Pte.zero else kernPgdir d
    let pgdir := Function.update pgdir (PDINDEX (KSTACKTOP - KSTACKSIZE)) Pte.zero
    let pgdir := Function.update pgdir (PDINDEX UVPT) ⟨f, PTE_P ||| PTE_U⟩
    (true, { vm with pgdir := Function.update vm.pgdir i pgdir })

/-- The middle of `proc_alloc`: the descriptor gets a pid and a slot. -/
def enter (m : Machine) (d : Nat) (i : Paging.Proc) : Machine :=
  { m with
    manager := { m.manager with
      nProcsAlive := (m.manager.nProcsAlive + 1) % 2 ^ 32
      idBitmap := (getPid m.manager.idBitmap).2
      procTable := Function.update m.manager.procTable (getPid m.manager.idBitmap).1 (some d)
      procs := ⟨d, (getPid m.manager.idBitmap).1⟩ :: m.manager.procs }
    descs := Function.update m.descs d { m.descs d with status := .ready, procPgdir := i, children := [] } }

/-- The trap frame of a new process. -/
def userTf : Trapframe where
  cs := GD_UT ||| USER_DPL
  ds := GD_UD ||| USER_DPL
  es := GD_UD ||| USER_DPL
  fs := GD_UD ||| USER_DPL
  gs := GD_UD ||| USER_DPL
  ss := GD_UD ||| USER_DPL

/-- `proc_alloc`: its value, and the process in `*new_proc_store`. Where there is no kernel stack, `r` still has the
    value of `proc_setup_vm`. -/
def procAlloc (m : Machine) (r : Request) : Except Fault (Machine × Int × Option Proc) :=
  if m.manager.nProcsAlive = NPROC then .ok (m, -eNoFreeProc, none)
  else
    match getProcDesc m r.kmalloc with
    | (none, m) => .ok (m, -eNoMem, none)
    | (some d, m) =>
      match setupVm m.vm m.kernPgdir r.pgdir with
      | (false, vm) => do
        -- the pid of a cleared descriptor is 0
        let m ← procDescDestroy { m with vm := vm } ⟨d, 0⟩
        return (m, -eNoMem, none)
      | (true, vm) =>
        let p : Proc := ⟨d, (getPid m.manager.idBitmap).1⟩
        let m := enter m d r.pgdir
        match procRegionAlloc vm r.pgdir (KSTACKTOP - KSTACKSIZE) KSTACKSIZE (PTE_P ||| PTE_W) with
        | (false, vm) => do
          let m ← procDescDestroy { m with vm := pgdirFree vm r.pgdir } p
          return (m, 0, none)
        | (true, vm) =>
          match pageLookup vm r.pgdir (KSTACKTOP - KSTACKSIZE) with
          | none => .error .noPage
          | some _ =>
            .ok ({ m with vm := vm, descs := Function.update m.descs d { m.descs d with tf := userTf } }, 0, some p)

/-! ## §3 `clone` -/

/-- `dup_proc_struct` of process `cur`: its value, and the process in `*proc_store`. -/
def dupProcStruct (m : Machine) (cur : Proc) (r : Request) : Except Fault (Machine × Int × Option Proc) := do
  match ← procAlloc m r with
  | (m, e, stored) =>
    if e ≠ 0 then return (m, e, none)
    else
      match stored with
      | none => throw .garbage
      | some son =>
        let dir := (m.descs cur.desc).procPgdir
        let sonDir := (m.descs son.desc).procPgdir
        let vm := { m.vm with
          baseMemSz := Function.update m.vm.baseMemSz sonDir (m.vm.baseMemSz dir)
          heapPtr := Function.update m.vm.heapPtr sonDir (m.vm.heapPtr dir) }
        match Syscall.fork cur.desc son.desc m.sys with
        | .error e => throw (.fs e)
        | .ok (_, sys) =>
          return ({ m with
            vm := vm
            sys := sys
            descs := Function.update m.descs son.desc { m.descs son.desc with ppid := cur.pid, status := .runnable } },
            son.pid, some son)

/-- `user_page_map`, called by process `cur`. -/
def userPageMap (m : Machine) (cur : Proc) (srcpid vaS dstpid vaD perm : Nat) :
    Except Fault (Option Paging.Err × Machine) :=
  let find := fun pid => (Lookup.pid2proc m.manager (fun d => (m.descs d).ppid) cur pid true).mapError Fault.slot
  let dir := fun (p : Proc) => (m.descs p.desc).procPgdir
  do
    let src ← find srcpid
    let dst ← (match src with
      | none => pure none
      | some _ => find dstpid : Except Fault (Option Proc))
    let (r, vm) := Paging.userPageMap m.vm (src.map dir) vaS (dst.map dir) vaD perm
    return (r, { m with vm := vm })

/-- `uvpd[d]`. -/
def uvpd (m : Machine) (cur : Proc) (d : Nat) : Pte := m.vm.pgdir (m.descs cur.desc).procPgdir d

/-- `uvpt[pn]`, where there is a page table. -/
def uvpt (m : Machine) (cur : Proc) (pn : Nat) : Pte := m.vm.table (uvpd m cur (pn / PDENTRIES)).frame (pn % PDENTRIES)

/-- `duppage`. -/
def duppage (m : Machine) (cur : Proc) (pid pNum : Nat) : Except Fault (Option Paging.Err × Machine) := do
  let va := pNum * PGSIZE
  let pt := (uvpt m cur pNum).perm
  if pt &&& PTE_SHARE ≠ 0 then userPageMap m cur cur.pid va pid va (PTE_SYSCALL &&& pt)
  else
    let perm := if pt &&& PTE_W ≠ 0 ∨ pt &&& PTE_COW ≠ 0 then PTE_U ||| PTE_P ||| PTE_COW else PTE_U ||| PTE_P
    match ← userPageMap m cur cur.pid va pid va perm with
    | (some e, m) => return (some e, m)
    | (none, m) =>
      if perm &&& PTE_COW ≠ 0 then userPageMap m cur cur.pid va cur.pid va perm
      else return (none, m)

/-- The inner loop of `cow_fork`. -/
def cowPages (cur son : Proc) : List Nat → Machine → Except Fault (Bool × Machine)
  | [], m => .ok (true, m)
  | pn :: pns, m =>
    if (uvpt m cur pn).present then do
      match ← duppage m cur son.pid pn with
      | (some _, m) => return (false, m)
      | (none, m) => cowPages cur son pns m
    else cowPages cur son pns m

/-- The outer loop of `cow_fork`. -/
def cowTables (cur son : Proc) : List Nat → Machine → Except Fault (Bool × Machine)
  | [], m => .ok (true, m)
  | d :: ds, m =>
    if (uvpd m cur d).present then do
      match ← cowPages cur son ((List.range PDENTRIES).map (d * PDENTRIES + ·)) m with
      | (false, m) => return (false, m)
      | (true, m) => cowTables cur son ds m
    else cowTables cur son ds m

/-- `cow_fork`. -/
def cowFork (m : Machine) (cur son : Proc) : Except Fault (Bool × Machine) :=
  cowTables cur son (List.range' (PDINDEX UTEXT) (PDINDEX UTOP - PDINDEX UTEXT)) m

/-- The end of `clone`: the child becomes a child of `cur`, and waits for the cpu. -/
def enqueue (m : Machine) (cur son : Proc) : Machine :=
  { m with
    descs := Function.update m.descs cur.desc
      { m.descs cur.desc with children := (m.descs cur.desc).children ++ [son.desc] }
    runQueue := m.runQueue ++ [son.desc] }

/-- `clone`. -/
def clone (m : Machine) (cur : Proc) (r : Request) (cflg : BitVec 32) : Except Fault (Machine × Int) := do
  match ← dupProcStruct m cur r with
  | (m, e, none) => return (m, e)
  | (m, _, some son) =>
    if cflg = CLONE_FORK ∨ cflg = CLONE_VFORK then
      match ← cowFork m cur son with
      | (true, m) => return (enqueue m cur son, son.pid)
      | (false, m) => return ({ m with vm := pgdirFree m.vm (m.descs son.desc).procPgdir }, -1)
    else return (m, -1)

/-! ## §4 What a failure may leave -/

/-- No trace: the pids, the table, the number of processes, the references of the caller's files and directory, and
    the frames in use are as they were. -/
structure Unchanged (cur : Proc) (m m' : Machine) : Prop where
  idBitmap : m'.manager.idBitmap = m.manager.idBitmap
  procTable : m'.manager.procTable = m.manager.procTable
  alive : m'.manager.nProcsAlive = m.manager.nProcsAlive
  files : ∀ fd f, (m.sys.procs cur.desc).openFileTable fd = some f → (m'.sys.files f).ref = (m.sys.files f).ref
  pwd : (m'.sys.kern.fs.icache.inode (m.sys.procs cur.desc).pwd).ref =
    (m.sys.kern.fs.icache.inode (m.sys.procs cur.desc).pwd).ref
  frames : m'.vm.allocated = m.vm.allocated
  heapPages : m'.heapPages = m.heapPages

/-- A process that is set up: it has its slot, its page directory has a kernel stack, and its trap frame is filled in. -/
structure SetUp (m : Machine) (p : Proc) : Prop where
  live : p ∈ m.manager.procs
  slot : m.manager.procTable p.pid = some p.desc
  status : (m.descs p.desc).status = .ready
  stack : pageLookup m.vm (m.descs p.desc).procPgdir (KSTACKTOP - KSTACKSIZE) ≠ none
  tf : (m.descs p.desc).tf = userTf

/-- **What `proc_alloc` should leave**: a process if it returns 0, no trace if it does not. -/
def AllocOk (cur : Proc) (m : Machine) : Except Fault (Machine × Int × Option Proc) → Prop
  | .error _ => False
  | .ok (m', e, stored) => (e = 0 → ∃ p, stored = some p ∧ SetUp m' p) ∧ (e ≠ 0 → Unchanged cur m m')

/-- **What `clone` should leave**: no trace if its value is negative. -/
def CloneOk (cur : Proc) (m : Machine) : Except Fault (Machine × Int) → Prop
  | .error _ => False
  | .ok (m', e) => e < 0 → Unchanged cur m m'

/-- The state when a process is created: the files that the caller has open are referenced, nobody is inside of the
    inode cache, and `page_alloc` hands out frames below `npages_num`. -/
structure Ready (m : Machine) (cur : Proc) : Prop where
  refs : ∀ fd < Syscall.NOFILE, ∀ f, (m.sys.procs cur.desc).openFileTable fd = some f → (m.sys.files f).ref ≠ 0
  icache : m.sys.kern.fs.icache.locked = false
  frames : ∀ f, m.vm.kind f = .pool → f < m.vm.npagesNum

/-- The creation stops before it has a descriptor. -/
def StopsEarly (m : Machine) (r : Request) : Prop :=
  m.manager.nProcsAlive = NPROC ∨ m.manager.procsDescCache = [] ∧ r.kmalloc = none

/-- There is a frame for the page directory, one for the kernel stack, and one for the page table of the stack. -/
def ThreeFrames (vm : Vm) : Prop :=
  (pageAlloc vm).1 ≠ none ∧ (pageAlloc (pageAlloc vm).2).1 ≠ none ∧
    (pageAlloc (pageAlloc (pageAlloc vm).2).2).1 ≠ none

/-- The flag asks for a copy of the address space, and the copy is made. -/
def Copied (m : Machine) (cur : Proc) (r : Request) (cflg : BitVec 32) : Prop :=
  (cflg = CLONE_FORK ∨ cflg = CLONE_VFORK) ∧
    ∃ m₁ e son m₂, dupProcStruct m cur r = .ok (m₁, e, some son) ∧ cowFork m₁ cur son = .ok (true, m₂)

/-! ## §5 Page directories and files -/

section Pages

variable {s s' : Vm} {i : Paging.Proc} {va f : Nat}

theorem pageRemove_frame (s : Vm) (i : Paging.Proc) (va : Nat) :
    (Paging.pageRemove s i va).pgdir = s.pgdir ∧ (Paging.pageRemove s i va).npagesNum = s.npagesNum := by
  unfold Paging.pageRemove
  split
  · exact ⟨rfl, rfl⟩
  · next f t _ =>
    obtain ⟨_, _, hpgdir, _, hnp, _⟩ := Paging.pageDecreaseRef_spec s f
    exact ⟨hpgdir, hnp⟩

/-- The page table that `pgdir_walk` finds or makes is in the page directory. -/
theorem pgdirWalk_dir {t : Nat} (h : pgdirWalk s i va true = (some t, s')) :
    s'.npagesNum = s.npagesNum ∧ (s'.pgdir i (PDINDEX va)).present = true ∧ (s'.pgdir i (PDINDEX va)).frame = t := by
  unfold pgdirWalk at h
  dsimp only at h
  split at h
  · next hp =>
    cases h
    exact ⟨rfl, hp, rfl⟩
  · rw [if_neg (by decide)] at h
    have hnp := (Paging.pageAlloc_frame s).2.1
    cases halloc : pageAlloc s with
    | mk o s₁ =>
      rw [halloc] at h hnp
      cases o with
      | none => cases h
      | some g =>
        cases h
        refine ⟨hnp, ?_, ?_⟩
        · simp [Paging.setPde, Pte.present, PTE_P]
        · simp [Paging.setPde]

/-- A page that was inserted is found. -/
theorem pageLookup_pageInsert {perm : Nat} (h : pageInsert s i f va perm = (true, s')) (hf : f < s.npagesNum) :
    pageLookup s' i va ≠ none := by
  unfold pageInsert at h
  cases hw : pgdirWalk s i va true with
  | mk o s₁ =>
    rw [hw] at h
    cases o with
    | none => cases h
    | some t =>
      obtain ⟨hnp, hp, ht⟩ := pgdirWalk_dir hw
      -- whatever was removed, the page directory is the one of the walk
      have hfound : ∀ s₂ : Vm, s₂.pgdir = s₁.pgdir → s₂.npagesNum = s₁.npagesNum → ∀ u : Vm,
          u.pgdir = (Paging.orPde (Paging.setPte s₂ t (PTINDEX va) ⟨f, perm ||| PTE_P⟩) i va perm).pgdir →
          u.table = (Paging.orPde (Paging.setPte s₂ t (PTINDEX va) ⟨f, perm ||| PTE_P⟩) i va perm).table →
          u.npagesNum = s₂.npagesNum → pageLookup u i va ≠ none := by
        intro s₂ hpgdir hnp₂ u hud hut hun
        have hdir : u.pgdir i (PDINDEX va) = ⟨t, (s₁.pgdir i (PDINDEX va)).perm ||| perm⟩ := by
          rw [hud]
          simp [Paging.orPde, Paging.setPde, Paging.setPte, hpgdir, ht]
        have hpres : (u.pgdir i (PDINDEX va)).present = true := by
          rw [hdir]
          simp only [Pte.present, bne_iff_ne, ne_eq] at hp ⊢
          intro h0
          rw [Nat.and_or_distrib_right] at h0
          exact hp (Nat.or_eq_zero_iff.1 h0).1
        have hpte : (u.table t (PTINDEX va)).frame = f := by
          rw [hut]
          simp [Paging.orPde, Paging.setPde, Paging.setPte]
        unfold pageLookup pgdirWalk
        dsimp only
        rw [if_pos hpres]
        dsimp only
        rw [hdir, hpte, if_neg (by rw [hun, hnp₂, hnp]; exact Nat.not_le.2 hf)]
        simp
      dsimp only at h
      split at h
      · cases h
        exact hfound s₁ rfl rfl _ rfl rfl rfl
      · split at h
        · cases h
          obtain ⟨hpgdir, hnpr⟩ := pageRemove_frame s₁ i va
          exact hfound _ hpgdir hnpr _ rfl rfl rfl
        · cases h
          exact hfound s₁ rfl rfl _ rfl rfl rfl

/-- What `page_alloc` hands out depends on the frames alone. -/
theorem pageAlloc_congr (hsupply : s'.supply = s.supply) (hkind : s'.kind = s.kind)
    (halloc : s'.allocated = s.allocated) :
    (pageAlloc s').1 = (pageAlloc s).1 ∧ (pageAlloc s').2.supply = (pageAlloc s).2.supply ∧
      (pageAlloc s').2.kind = (pageAlloc s).2.kind ∧ (pageAlloc s').2.allocated = (pageAlloc s).2.allocated := by
  unfold pageAlloc
  rw [hsupply, hkind, halloc]
  split
  · exact ⟨rfl, hsupply, hkind, halloc⟩
  · exact ⟨rfl, rfl, rfl, rfl⟩
  · split <;> exact ⟨rfl, rfl, rfl, rfl⟩

/-- `setup_vm` takes one frame, and leaves the kernel stack to `proc_alloc`. -/
theorem setupVm_spec (vm : Vm) (kernPgdir : Nat → Pte) (i : Paging.Proc) :
    (pageAlloc vm).1 = none ∧ (setupVm vm kernPgdir i).1 = false ∨
      (pageAlloc vm).1 ≠ none ∧ ∃ vm', setupVm vm kernPgdir i = (true, vm') ∧
        vm'.supply = (pageAlloc vm).2.supply ∧ vm'.kind = (pageAlloc vm).2.kind ∧
        vm'.allocated = (pageAlloc vm).2.allocated ∧ vm'.npagesNum = vm.npagesNum ∧
        vm'.pgdir i (PDINDEX (KSTACKTOP - KSTACKSIZE)) = Pte.zero := by
  have hnp := (Paging.pageAlloc_frame vm).2.1
  unfold setupVm
  cases halloc : pageAlloc vm with
  | mk o vm₁ =>
    rw [halloc] at hnp
    cases o with
    | none => exact .inl ⟨rfl, rfl⟩
    | some f =>
      refine .inr ⟨by simp, _, rfl, rfl, rfl, rfl, hnp, ?_⟩
      have hne : PDINDEX (KSTACKTOP - KSTACKSIZE) ≠ PDINDEX UVPT := by decide
      simp only [Function.update_self]
      rw [Function.update_of_ne hne, Function.update_self]

/-- `page_alloc` does not change what a frame is for. -/
theorem pageAlloc_kind (s : Vm) : (pageAlloc s).2.kind = s.kind := (Paging.HeapFault.pageAlloc_grows s).kind

theorem pageAlloc_pool (h : (pageAlloc s).1 = some f) : s.kind f = .pool := by
  cases halloc : pageAlloc s with
  | mk o s₁ =>
    rw [halloc] at h
    obtain rfl : o = some f := h
    exact (Paging.HeapFault.pageAlloc_some halloc).1

/-- **The kernel stack** takes a frame and another one for its page table. -/
theorem stack_spec (hempty : s.pgdir i (PDINDEX (KSTACKTOP - KSTACKSIZE)) = Pte.zero)
    (hfr : ∀ f, s.kind f = .pool → f < s.npagesNum) :
    ∃ b s', procRegionAlloc s i (KSTACKTOP - KSTACKSIZE) KSTACKSIZE (PTE_P ||| PTE_W) = (b, s') ∧
      (b = true ↔ (pageAlloc s).1 ≠ none ∧ (pageAlloc (pageAlloc s).2).1 ≠ none) ∧
      (b = true → pageLookup s' i (KSTACKTOP - KSTACKSIZE) ≠ none) := by
  have hpage : procRegionAlloc s i (KSTACKTOP - KSTACKSIZE) PGSIZE (PTE_P ||| PTE_W) =
      regionPage s i (KSTACKTOP - KSTACKSIZE) (PTE_P ||| PTE_W) := procRegionAlloc_page _ (by decide) (by decide)
  obtain ⟨hpgdir, hnp, _⟩ := Paging.pageAlloc_frame s
  have hnone : Paging.pdeAt (pageAlloc s).2 (i, PDINDEX (KSTACKTOP - KSTACKSIZE)) = none := by
    unfold Paging.pdeAt
    dsimp only
    rw [hpgdir, hempty]
    rfl
  show ∃ b s', procRegionAlloc s i (KSTACKTOP - KSTACKSIZE) PGSIZE (PTE_P ||| PTE_W) = (b, s') ∧ _
  rw [hpage]
  unfold regionPage
  cases halloc : pageAlloc s with
  | mk o s₁ =>
    rw [halloc] at hpgdir hnp hnone
    cases o with
    | none => exact ⟨false, s₁, rfl, by simp, fun hc => by cases hc⟩
    | some f =>
      have hf : f < s₁.npagesNum := by
        rw [hnp]
        exact hfr f (pageAlloc_pool (by rw [halloc]))
      have hfst := Paging.HeapFault.pageInsert_fst s₁ i f (KSTACKTOP - KSTACKSIZE) (PTE_P ||| PTE_W ||| PTE_P)
      rw [hnone] at hfst
      cases hins : pageInsert s₁ i f (KSTACKTOP - KSTACKSIZE) (PTE_P ||| PTE_W ||| PTE_P) with
      | mk b s' =>
        rw [hins] at hfst
        refine ⟨b, s', hins, ?_, fun hb => ?_⟩
        · obtain rfl : b = (pageAlloc s₁).1.isSome := hfst
          simp [Option.isSome_iff_ne_none]
        · rw [hb] at hins
          exact pageLookup_pageInsert hins hf

/-- **The three frames**: `setup_vm` takes one, and the kernel stack the other two. -/
theorem setupVm_stack (vm : Vm) (kernPgdir : Nat → Pte) (i : Paging.Proc)
    (hfr : ∀ f, vm.kind f = .pool → f < vm.npagesNum) :
    (pageAlloc vm).1 = none ∧ (setupVm vm kernPgdir i).1 = false ∨
      (pageAlloc vm).1 ≠ none ∧ ∃ vm₁ b vm₂, setupVm vm kernPgdir i = (true, vm₁) ∧
        procRegionAlloc vm₁ i (KSTACKTOP - KSTACKSIZE) KSTACKSIZE (PTE_P ||| PTE_W) = (b, vm₂) ∧
        (b = true ↔ (pageAlloc (pageAlloc vm).2).1 ≠ none ∧ (pageAlloc (pageAlloc (pageAlloc vm).2).2).1 ≠ none) ∧
        (b = true → pageLookup vm₂ i (KSTACKTOP - KSTACKSIZE) ≠ none) := by
  rcases setupVm_spec vm kernPgdir i with hno | ⟨hyes, vm₁, hset, hsupply, hkind, halloc, hnp, hzero⟩
  · exact .inl hno
  · have hfr₁ : ∀ f, vm₁.kind f = .pool → f < vm₁.npagesNum := by
      intro f hf
      rw [hkind, pageAlloc_kind] at hf
      rw [hnp]
      exact hfr f hf
    obtain ⟨b, vm₂, hstack, hb, hfound⟩ := stack_spec hzero hfr₁
    obtain ⟨hfst, hsupply₂, hkind₂, halloc₂⟩ := pageAlloc_congr hsupply hkind halloc
    rw [hfst, (pageAlloc_congr hsupply₂ hkind₂ halloc₂).1] at hb
    exact .inr ⟨hyes, vm₁, b, vm₂, hset, hstack, hb, hfound⟩

end Pages

section Files

open WeiOS.Syscall (SysM Sys dupFd dupFiles fileDup setFile setFd setProc)

variable {p son fd : Nat}

/-- The open files of process `p` are referenced, and nobody is inside of the inode cache. -/
def Referenced (p : Nat) (s : Sys) : Prop :=
  (∀ fd < Syscall.NOFILE, ∀ f, (s.procs p).openFileTable fd = some f → (s.files f).ref ≠ 0) ∧
    s.kern.fs.icache.locked = false

/-- A file that is referenced can be referenced again. -/
theorem fileDup_referenced {f : Nat} :
    Triple (fun s => Referenced p s ∧ (s.files f).ref ≠ 0) (fileDup f)
      (fun g s => g = f ∧ Referenced p s ∧ (s.files f).ref ≠ 0) fun _ => False := by
  rintro s ⟨⟨hrefs, hlock⟩, href⟩
  simp only [fileDup, bind, StateT.bind, Except.bind, get, getThe, MonadStateOf.get, StateT.get, pure, Except.pure,
    if_neg href, setFile, modify, modifyGet, MonadStateOf.modifyGet, StateT.modifyGet, StateT.pure]
  refine ⟨trivial, ⟨fun fd hfd g hg => ?_, hlock⟩, by simp⟩
  have hold := hrefs fd hfd g hg
  show (Function.update s.files f _ g).ref ≠ 0
  by_cases hgf : g = f
  · simp [hgf]
  · rwa [Function.update_of_ne hgf]

theorem setFd_referenced {f : Nat} :
    Triple (fun s => Referenced p s ∧ (s.files f).ref ≠ 0) (setFd son fd (some f))
      (fun _ => Referenced p) fun _ => False := by
  rintro s ⟨⟨hrefs, hlock⟩, href⟩
  refine ⟨fun k hk g hg => ?_, hlock⟩
  by_cases hp : p = son
  · -- the slot that was set names the file
    rw [hp] at hg hrefs
    by_cases hkfd : k = fd
    · have hgf : f = g := by simpa [hkfd] using hg
      rw [← hgf]
      exact href
    · exact hrefs k hk g (by simpa [hkfd] using hg)
  · exact hrefs k hk g (by simpa [hp] using hg)

theorem dupFd_referenced (hfd : fd < Syscall.NOFILE) :
    Triple (Referenced p) (dupFd p son fd) (fun _ => Referenced p) fun _ => False := by
  unfold dupFd
  apply Triple.read
  intro t ht
  cases hf : (t.procs p).openFileTable fd with
  | none => exact Triple.ret fun s hs => hs ▸ ht
  | some f =>
    apply Triple.seq (Q := fun g s => g = f ∧ Referenced p s ∧ (s.files f).ref ≠ 0)
    · exact fileDup_referenced.pre fun s hs => hs ▸ ⟨ht, ht.1 fd hfd f hf⟩
    · intro g
      exact Triple.assume (fun _ hs => hs.1) fun hg => hg ▸ setFd_referenced.pre fun s hs => hs.1 ▸ hs.2

theorem dupFiles_referenced (fds : List Nat) (hfds : ∀ fd ∈ fds, fd < Syscall.NOFILE) :
    Triple (Referenced p) (dupFiles p son fds) (fun _ => Referenced p) fun _ => False := by
  induction fds with
  | nil => exact Triple.ret fun _ hs => hs
  | cons fd fds ih =>
    apply Triple.seq (dupFd_referenced (hfds fd List.mem_cons_self))
    exact fun _ => ih fun k hk => hfds k (List.mem_cons_of_mem _ hk)

/-- **The files of a child**: a caller whose files are referenced does not panic. -/
theorem fork_ok {s : Sys} (h : Referenced p s) (son : Nat) : ∃ a s', Syscall.fork p son s = .ok (a, s') := by
  have hfork : Triple (Referenced p) (Syscall.fork p son) (fun _ _ => True) fun _ => False := by
    unfold Syscall.fork
    apply Triple.seq (Q := fun _ => Referenced p)
    · -- the child has no files yet
      refine Triple.update fun s hs => ⟨fun k hk g hg => ?_, hs.2⟩
      by_cases hp : p = son
      · simp [hp] at hg
      · exact hs.1 k hk g (by simpa [hp] using hg)
    intro _
    apply Triple.seq (dupFiles_referenced _ fun fd hfd => List.mem_range.1 hfd)
    intro _
    apply Triple.peek
    intro t ht
    apply Triple.peek
    intro u hu
    apply Triple.seq (Q := fun _ s => s.kern.fs.icache.locked = false)
    · exact Triple.update fun s hs => hs.2
    intro _
    apply Triple.seq (Q := fun _ _ => True)
    · intro s hs
      simp only [Syscall.onKern, Dir.iref, InodeCache.iref, bind, StateT.bind, Except.bind, get, getThe,
        MonadStateOf.get, StateT.get, pure, Except.pure, hs]
      trivial
    · exact fun _ => Triple.ret fun _ _ => trivial
  have := hfork s h
  cases hrun : Syscall.fork p son s with
  | error e => rw [hrun] at this; exact this.elim
  | ok r => exact ⟨r.1, r.2, rfl⟩

end Files

/-! ## §6 `proc_alloc` -/

section Alloc

variable {m m' : Machine} {cur p : Proc} {r : Request}

theorem alive_succ_ne (n : Nat) : (n + 1) % 2 ^ 32 ≠ n := by omega

theorem alive_pred_ne (n : Nat) : (n + (2 ^ 32 - 1)) % 2 ^ 32 ≠ n := by omega

theorem Unchanged.refl (cur : Proc) (m : Machine) : Unchanged cur m m where
  idBitmap := rfl
  procTable := rfl
  alive := rfl
  files _ _ _ := rfl
  pwd := rfl
  frames := rfl
  heapPages := rfl

/-- `proc_desc_destroy` always counts one process less. -/
theorem procDescDestroy_alive (h : procDescDestroy m p = .ok m') :
    m'.manager.nProcsAlive = (m.manager.nProcsAlive + (2 ^ 32 - 1)) % 2 ^ 32 := by
  unfold procDescDestroy at h
  cases hd : Process.procDescDestroy m.manager p with
  | error e =>
    rw [hd] at h
    cases h
  | ok manager =>
    rw [hd] at h
    cases h
    unfold Process.procDescDestroy at hd
    obtain ⟨bm, _, hok⟩ := bind_eq_ok.1 hd
    rw [← Except.ok.inj hok]

/-- `get_proc_desc` gives a cleared descriptor, if it gives one. -/
theorem getProcDesc_spec (m : Machine) (kmalloc : Option (Nat × List Nat)) :
    m.manager.procsDescCache = [] ∧ kmalloc = none ∧ getProcDesc m kmalloc = (none, m) ∨
      ¬ (m.manager.procsDescCache = [] ∧ kmalloc = none) ∧ ∃ d m₁, getProcDesc m kmalloc = (some d, m₁) ∧
        m₁.vm = m.vm ∧ m₁.sys = m.sys ∧ m₁.manager.nProcsAlive = m.manager.nProcsAlive := by
  unfold getProcDesc
  cases hcache : m.manager.procsDescCache with
  | cons d rest => exact .inr ⟨by simp, d, _, rfl, rfl, rfl, rfl⟩
  | nil =>
    cases kmalloc with
    | none => exact .inl ⟨rfl, rfl, rfl⟩
    | some k => exact .inr ⟨by simp, k.1, _, rfl, rfl, rfl, rfl⟩

/-- A call of `proc_alloc` that fails after it has a descriptor: it stops the kernel, it returns 0 without a process,
    or it has counted a process less. -/
def Fails (m : Machine) : Except Fault (Machine × Int × Option Proc) → Prop
  | .error _ => True
  | .ok (m', e, stored) => stored = none ∧ (e = 0 ∨ e < 0 ∧ m'.manager.nProcsAlive ≠ m.manager.nProcsAlive)

/-- **What `proc_alloc` does**: it stops early and changes nothing, it fails later, or it sets up a process. -/
theorem procAlloc_spec (hfr : ∀ f, m.vm.kind f = .pool → f < m.vm.npagesNum) :
    StopsEarly m r ∧ (∃ e < 0, procAlloc m r = .ok (m, e, none)) ∨
      ¬ StopsEarly m r ∧ ¬ ThreeFrames m.vm ∧ Fails m (procAlloc m r) ∨
      ¬ StopsEarly m r ∧ ThreeFrames m.vm ∧ ∃ m' p, procAlloc m r = .ok (m', 0, some p) ∧ SetUp m' p ∧
        m'.sys = m.sys ∧ m'.manager.nProcsAlive = (m.manager.nProcsAlive + 1) % 2 ^ 32 := by
  unfold procAlloc StopsEarly
  by_cases hfull : m.manager.nProcsAlive = NPROC
  · rw [if_pos hfull]
    exact .inl ⟨.inl hfull, -eNoFreeProc, by decide, rfl⟩
  rw [if_neg hfull]
  rcases getProcDesc_spec m r.kmalloc with ⟨hcache, hk, hget⟩ | ⟨hsome, d, m₁, hget, hvm, hsys, halive⟩
  · rw [hget]
    exact .inl ⟨.inr ⟨hcache, hk⟩, -eNoMem, by decide, rfl⟩
  have hearly : ¬ (m.manager.nProcsAlive = NPROC ∨ m.manager.procsDescCache = [] ∧ r.kmalloc = none) := by
    rintro (hc | hc)
    · exact hfull hc
    · exact hsome hc
  rw [hget]
  dsimp only
  rw [hvm]
  rcases setupVm_stack m.vm m₁.kernPgdir r.pgdir hfr with ⟨hno, hset⟩ | ⟨hyes, vm', b, vm₂, hset, hstack, hb, hfound⟩
  · -- no frame for the page directory
    refine .inr (.inl ⟨hearly, fun h3 => h3.1 hno, ?_⟩)
    cases hs : setupVm m.vm m₁.kernPgdir r.pgdir with
    | mk b vm' =>
      rw [hs] at hset
      obtain rfl : b = false := hset
      dsimp only
      cases hd : procDescDestroy { m₁ with vm := vm' } ⟨d, 0⟩ with
      | error e => trivial
      | ok m₂ =>
        refine ⟨rfl, .inr ⟨by decide, ?_⟩⟩
        rw [procDescDestroy_alive hd]
        show (m₁.manager.nProcsAlive + _) % _ ≠ _
        rw [halive]
        exact alive_pred_ne _
  rw [hset]
  dsimp only
  rw [hstack]
  cases b with
  | false =>
    -- no frame for the stack, or none for its page table
    refine .inr (.inl ⟨hearly, fun h3 => Bool.noConfusion (hb.2 h3.2), ?_⟩)
    dsimp only
    cases hd : procDescDestroy { enter m₁ d r.pgdir with vm := pgdirFree vm₂ r.pgdir }
        ⟨d, (getPid m₁.manager.idBitmap).1⟩ with
    | error e => trivial
    | ok m₂ => exact ⟨rfl, .inl rfl⟩
  | true =>
    refine .inr (.inr ⟨hearly, ⟨hyes, hb.1 rfl⟩, ?_⟩)
    have hlook := hfound rfl
    cases hl : pageLookup vm₂ r.pgdir (KSTACKTOP - KSTACKSIZE) with
    | none => exact absurd hl hlook
    | some x =>
      dsimp only
      rw [hl]
      refine ⟨_, _, rfl, ⟨List.mem_cons_self, ?_, ?_, ?_, ?_⟩, hsys, ?_⟩
      · simp [enter]
      · simp [enter]
      · simpa [enter] using hlook
      · simp
      · show (m₁.manager.nProcsAlive + 1) % _ = _
        rw [halive]

/-- How the allocations of a call end, for the process manager alone. -/
def results (m : Machine) (r : Request) : AllocResults where
  kmalloc := r.kmalloc.map Prod.fst
  setupVm := (pageAlloc m.vm).1.isSome
  kstack := (pageAlloc (pageAlloc m.vm).2).1.isSome && (pageAlloc (pageAlloc (pageAlloc m.vm).2).2).1.isSome

theorem getProcDesc_manager (m : Machine) (kmalloc : Option (Nat × List Nat)) :
    Process.getProcDesc m.manager (kmalloc.map Prod.fst) =
      ((getProcDesc m kmalloc).1, (getProcDesc m kmalloc).2.manager) := by
  unfold Process.getProcDesc getProcDesc
  cases hcache : m.manager.procsDescCache with
  | cons d rest => rfl
  | nil => cases kmalloc <;> rfl

/-- **Refinement**: what `proc_alloc` does to the process manager is what the process manager does on its own. -/
theorem procAlloc_refines (hfr : ∀ f, m.vm.kind f = .pool → f < m.vm.npagesNum) :
    (procAlloc m r).map (fun x => (x.1.manager, x.2)) =
      (Process.procAlloc m.manager (results m r)).mapError Fault.pid := by
  unfold procAlloc Process.procAlloc
  by_cases hfull : m.manager.nProcsAlive = NPROC
  · rw [if_pos hfull, if_pos hfull]
    rfl
  rw [if_neg hfull, if_neg hfull]
  rw [show (results m r).kmalloc = r.kmalloc.map Prod.fst from rfl, getProcDesc_manager]
  rcases getProcDesc_spec m r.kmalloc with ⟨_, _, hget⟩ | ⟨_, d, m₁, hget, hvm, _, _⟩
  · rw [hget]
    rfl
  rw [hget]
  dsimp only
  rw [hvm]
  rcases setupVm_stack m.vm m₁.kernPgdir r.pgdir hfr with ⟨hno, hset⟩ | ⟨hyes, vm', b, vm₂, hset, hstack, hb, hfound⟩
  · have hres : (results m r).setupVm = false := by simp [results, hno]
    rw [if_pos hres]
    cases hs : setupVm m.vm m₁.kernPgdir r.pgdir with
    | mk b vm' =>
      rw [hs] at hset
      obtain rfl : b = false := hset
      simp only [procDescDestroy]
      cases Process.procDescDestroy m₁.manager ⟨d, 0⟩ <;> rfl
  · have hres : ¬ (results m r).setupVm = false := by simp [results, hyes]
    have hkstack : (results m r).kstack = b := by
      rw [Bool.eq_iff_iff, hb]
      simp [results, Option.isSome_iff_ne_none]
    rw [if_neg hres, hset, hkstack]
    dsimp only
    rw [hstack]
    cases b with
    | false =>
      rw [if_pos rfl]
      simp only [procDescDestroy, enter]
      cases Process.procDescDestroy _ (⟨d, (getPid m₁.manager.idBitmap).1⟩ : Proc) <;> rfl
    | true =>
      rw [if_neg (by decide)]
      have hlook := hfound rfl
      cases hl : pageLookup vm₂ r.pgdir (KSTACKTOP - KSTACKSIZE) with
      | none => exact absurd hl hlook
      | some x =>
        dsimp only
        rw [hl]
        rfl

/-- **`proc_alloc`** leaves a process or no trace exactly when it stops early or has its three frames. -/
theorem procAlloc_unchanged_iff (cur : Proc) (hfr : ∀ f, m.vm.kind f = .pool → f < m.vm.npagesNum) :
    AllocOk cur m (procAlloc m r) ↔ StopsEarly m r ∨ ThreeFrames m.vm := by
  rcases procAlloc_spec (r := r) hfr with ⟨hearly, e, he, hrun⟩ | ⟨hearly, hframes, hfail⟩ |
    ⟨_, hframes, m', p, hrun, hup, _⟩
  · rw [hrun]
    exact iff_of_true ⟨fun h0 => absurd h0 he.ne, fun _ => Unchanged.refl cur m⟩ (.inl hearly)
  · apply iff_of_false
    · cases hrun : procAlloc m r with
      | error e => exact fun hok => hok
      | ok x =>
        obtain ⟨m', e, stored⟩ := x
        rw [hrun] at hfail
        obtain ⟨rfl, hzero | ⟨hneg, halive⟩⟩ := hfail
        · rintro ⟨hstored, _⟩
          obtain ⟨p, hp, _⟩ := hstored hzero
          cases hp
        · exact fun hok => halive (hok.2 hneg.ne).alive
    · rintro (h | h)
      · exact hearly h
      · exact hframes h
  · rw [hrun]
    exact iff_of_true ⟨fun _ => ⟨p, rfl, hup⟩, fun hne => absurd rfl hne⟩ (.inr hframes)

end Alloc

/-! ## §7 `clone` -/

section Clone

variable {m m' : Machine} {cur son : Proc} {r : Request}

section Keeps

variable {P : Machine → Prop}
  (hmap : ∀ m m' srcpid vaS dstpid vaD perm x, P m → userPageMap m cur srcpid vaS dstpid vaD perm = .ok (x, m') → P m')
include hmap

theorem duppage_keeps {pid pNum : Nat} {x : Option Paging.Err} (h : P m) (hrun : duppage m cur pid pNum = .ok (x, m')) :
    P m' := by
  unfold duppage at hrun
  dsimp only at hrun
  split at hrun
  · exact hmap _ _ _ _ _ _ _ _ h hrun
  · obtain ⟨⟨y, m₁⟩, hone, hrun⟩ := bind_eq_ok.1 hrun
    have h₁ := hmap _ _ _ _ _ _ _ _ h hone
    cases y with
    | some e =>
      rw [← (Prod.mk.inj (Except.ok.inj hrun)).2]
      exact h₁
    | none =>
      dsimp only at hrun
      split at hrun
      · exact hmap _ _ _ _ _ _ _ _ h₁ hrun
      · rw [← (Prod.mk.inj (Except.ok.inj hrun)).2]
        exact h₁

theorem cowPages_keeps {pns : List Nat} {b : Bool} (h : P m) (hrun : cowPages cur son pns m = .ok (b, m')) : P m' := by
  induction pns generalizing m with
  | nil =>
    rw [← (Prod.mk.inj (Except.ok.inj hrun)).2]
    exact h
  | cons pn pns ih =>
    unfold cowPages at hrun
    split at hrun
    · obtain ⟨⟨y, m₁⟩, hdup, hrun⟩ := bind_eq_ok.1 hrun
      have h₁ := duppage_keeps hmap h hdup
      cases y with
      | some e =>
        rw [← (Prod.mk.inj (Except.ok.inj hrun)).2]
        exact h₁
      | none => exact ih h₁ hrun
    · exact ih h hrun

theorem cowTables_keeps {ds : List Nat} {b : Bool} (h : P m) (hrun : cowTables cur son ds m = .ok (b, m')) : P m' := by
  induction ds generalizing m with
  | nil =>
    rw [← (Prod.mk.inj (Except.ok.inj hrun)).2]
    exact h
  | cons d ds ih =>
    unfold cowTables at hrun
    split at hrun
    · obtain ⟨⟨b₁, m₁⟩, hpages, hrun⟩ := bind_eq_ok.1 hrun
      have h₁ := cowPages_keeps hmap h hpages
      cases b₁ with
      | false =>
        rw [← (Prod.mk.inj (Except.ok.inj hrun)).2]
        exact h₁
      | true => exact ih h₁ hrun
    · exact ih h hrun

/-- **What every call of `user_page_map` keeps**, the copy of an address space keeps. -/
theorem cowFork_keeps {b : Bool} (h : P m) (hrun : cowFork m cur son = .ok (b, m')) : P m' :=
  cowTables_keeps hmap h hrun

end Keeps

/-- The calls that copy pages change page tables only. -/
theorem userPageMap_eq {srcpid vaS dstpid vaD perm : Nat} {x : Option Paging.Err}
    (h : userPageMap m cur srcpid vaS dstpid vaD perm = .ok (x, m')) :
    ∃ src dst, m' = { m with vm := (Paging.userPageMap m.vm src vaS dst vaD perm).2 } := by
  unfold userPageMap at h
  obtain ⟨src, _, h⟩ := bind_eq_ok.1 h
  obtain ⟨dst, _, h⟩ := bind_eq_ok.1 h
  exact ⟨_, _, (Prod.mk.inj (Except.ok.inj h)).2.symm⟩

theorem cowFork_manager {b : Bool} (hrun : cowFork m cur son = .ok (b, m')) : m'.manager = m.manager := by
  refine cowFork_keeps (P := fun u => u.manager = m.manager) (fun u u' _ _ _ _ _ _ hu hmap => ?_) rfl hrun
  obtain ⟨_, _, rfl⟩ := userPageMap_eq hmap
  exact hu

/-- A child that was counted and is not taken back is a trace. -/
theorem Unchanged.not_counted (hun : Unchanged cur m m') {m₁ : Machine}
    (hm : m₁.manager.nProcsAlive = (m.manager.nProcsAlive + 1) % 2 ^ 32) (h : m'.manager = m₁.manager) : False := by
  have halive := hun.alive
  rw [h, hm] at halive
  exact alive_succ_ne _ halive

/-- A failure of `proc_alloc` is one of `clone`. -/
theorem not_cloneOk_of_fails (cflg : BitVec 32) (hfail : Fails m (procAlloc m r)) :
    ¬ CloneOk cur m (clone m cur r cflg) := by
  cases hrun : procAlloc m r with
  | error e =>
    have hclone : clone m cur r cflg = .error e := by simp [clone, dupProcStruct, hrun, bind, Except.bind]
    rw [hclone]
    exact fun hok => hok
  | ok x =>
    obtain ⟨m', e, stored⟩ := x
    rw [hrun] at hfail
    obtain ⟨rfl, rfl | ⟨hneg, halive⟩⟩ := hfail
    · -- there is no child, but the value says that there is one
      have hclone : clone m cur r cflg = .error .garbage := by
        simp [clone, dupProcStruct, hrun, bind, Except.bind, throw, throwThe, MonadExceptOf.throw]
      rw [hclone]
      exact fun hok => hok
    · have hclone : clone m cur r cflg = .ok (m', e) := by
        simp [clone, dupProcStruct, hrun, bind, Except.bind, hneg.ne, pure, Except.pure]
      rw [hclone]
      exact fun hok => halive (hok hneg).alive

/-- A child that is set up gets the caller's files. -/
theorem dupProcStruct_child (h : Ready m cur) (hrun : procAlloc m r = .ok (m', 0, some son)) (hsys : m'.sys = m.sys) :
    ∃ m₁, dupProcStruct m cur r = .ok (m₁, son.pid, some son) ∧ m₁.manager = m'.manager := by
  have hrefs : Referenced cur.desc m'.sys := by
    rw [hsys]
    exact ⟨h.refs, h.icache⟩
  obtain ⟨a, sys, hfork⟩ := fork_ok hrefs son.desc
  simp [dupProcStruct, hrun, bind, Except.bind, hfork, pure, Except.pure]

/-- **Once there is a child**, only the whole copy leaves no trace of a failure. -/
theorem cloneOk_of_child {m₁ : Machine} (hdup : dupProcStruct m cur r = .ok (m₁, son.pid, some son))
    (hcount : m₁.manager.nProcsAlive = (m.manager.nProcsAlive + 1) % 2 ^ 32) (cflg : BitVec 32) :
    CloneOk cur m (clone m cur r cflg) ↔ Copied m cur r cflg := by
  have hcopied : Copied m cur r cflg ↔ (cflg = CLONE_FORK ∨ cflg = CLONE_VFORK) ∧
      ∃ m₂, cowFork m₁ cur son = .ok (true, m₂) := by
    unfold Copied
    rw [hdup]
    constructor
    · rintro ⟨hflg, m₁', e, son', m₂, heq, hcow⟩
      cases heq
      exact ⟨hflg, m₂, hcow⟩
    · rintro ⟨hflg, m₂, hcow⟩
      exact ⟨hflg, m₁, _, son, m₂, rfl, hcow⟩
  rw [hcopied]
  by_cases hflg : cflg = CLONE_FORK ∨ cflg = CLONE_VFORK
  · cases hcow : cowFork m₁ cur son with
    | error e =>
      have hclone : clone m cur r cflg = .error e := by simp [clone, hdup, bind, Except.bind, hflg, hcow]
      rw [hclone]
      exact iff_of_false (fun hok => hok) (by simp)
    | ok x =>
      obtain ⟨b, m₂⟩ := x
      have hman := cowFork_manager hcow
      cases b with
      | false =>
        -- the pages of the child are given back, and nothing else
        have hclone : clone m cur r cflg =
            .ok ({ m₂ with vm := pgdirFree m₂.vm (m₂.descs son.desc).procPgdir }, -1) := by
          simp [clone, hdup, bind, Except.bind, hflg, hcow, pure, Except.pure]
        rw [hclone]
        exact iff_of_false (fun hok => (hok (by decide)).not_counted hcount hman) (by simp)
      | true =>
        have hclone : clone m cur r cflg = .ok (enqueue m₂ cur son, son.pid) := by
          simp [clone, hdup, bind, Except.bind, hflg, hcow, pure, Except.pure]
        rw [hclone]
        exact iff_of_true (fun hneg => absurd hneg (by omega)) ⟨hflg, m₂, rfl⟩
  · -- the child stays as it is
    have hclone : clone m cur r cflg = .ok (m₁, -1) := by
      simp [clone, hdup, bind, Except.bind, hflg, pure, Except.pure]
    rw [hclone]
    exact iff_of_false (fun hok => (hok (by decide)).not_counted hcount rfl) fun hc => hflg hc.1

/-- **`clone`** leaves no trace exactly when it stops early or makes the whole copy. -/
theorem clone_unchanged_iff (h : Ready m cur) (cflg : BitVec 32) :
    CloneOk cur m (clone m cur r cflg) ↔ StopsEarly m r ∨ ThreeFrames m.vm ∧ Copied m cur r cflg := by
  rcases procAlloc_spec (r := r) h.frames with ⟨hearly, e, he, hrun⟩ | ⟨hearly, hframes, hfail⟩ |
    ⟨hearly, hframes, m', p, hrun, _, hsys, halive⟩
  · -- nothing was done
    have hclone : clone m cur r cflg = .ok (m, e) := by
      simp [clone, dupProcStruct, hrun, bind, Except.bind, he.ne, pure, Except.pure]
    rw [hclone]
    exact iff_of_true (fun _ => Unchanged.refl cur m) (.inl hearly)
  · apply iff_of_false (not_cloneOk_of_fails cflg hfail)
    rintro (hc | ⟨hc, _⟩)
    · exact hearly hc
    · exact hframes hc
  · obtain ⟨m₁, hdup, hman⟩ := dupProcStruct_child h hrun hsys
    have hcount : m₁.manager.nProcsAlive = (m.manager.nProcsAlive + 1) % 2 ^ 32 := by rw [hman, halive]
    rw [cloneOk_of_child hdup hcount cflg]
    exact ⟨fun hc => .inr ⟨hframes, hc⟩, fun hc => (hc.resolve_left hearly).2⟩

end Clone

/-! ## §8 The first process creates another one -/

/-- The first process, with an empty address space and the root directory; `page_alloc` will hand out the frames of
    `supply`. -/
def rootMachine (supply : List (Option Nat)) : Machine where
  manager :=
    { procInit with
      nProcsAlive := 1
      idBitmap := (getPid procInit.idBitmap).2
      procTable := Function.update procInit.procTable 0 (some 0)
      procs := [⟨0, 0⟩] }
  descs _ := zeroDesc
  heapPages := []
  vm := Paging.vmInit supply
  kernPgdir _ := Pte.zero
  sys := Syscall.mkfsBoot
  runQueue := []

theorem rootMachine_ready (supply : List (Option Nat)) : Ready (rootMachine supply) ⟨0, 0⟩ where
  refs fd _ f hf := by cases hf
  icache := by rfl
  frames f hf := ((Paging.vmInit_pageTablesOk supply).pool_lt f hf).2

/-- The copy of an address space, as a test. -/
theorem copied_of_run {m : Machine} {cur : Proc} {r : Request} {cflg : BitVec 32}
    (hflg : cflg = CLONE_FORK ∨ cflg = CLONE_VFORK)
    (hrun : (dupProcStruct m cur r).toOption.any (fun x => x.2.2.any fun son =>
      (cowFork x.1 cur son).toOption.any Prod.fst) = true) : Copied m cur r cflg := by
  refine ⟨hflg, ?_⟩
  cases hdup : dupProcStruct m cur r with
  | error e => simp [hdup, Except.toOption] at hrun
  | ok x =>
    obtain ⟨m₁, e, o⟩ := x
    cases o with
    | none => simp [hdup, Except.toOption] at hrun
    | some son =>
      cases hcow : cowFork m₁ cur son with
      | error e => simp [hdup, hcow, Except.toOption] at hrun
      | ok y =>
        obtain ⟨b, m₂⟩ := y
        obtain rfl : b = true := by simpa [hdup, hcow, Except.toOption] using hrun
        exact ⟨m₁, e, son, m₂, rfl, hcow⟩

/-- **Creations that leave a process or no trace**. -/
theorem create_iff {m : Machine} {cur : Proc} (h : Ready m cur) (r : Request) (cflg : BitVec 32) :
    (AllocOk cur m (procAlloc m r) ↔ StopsEarly m r ∨ ThreeFrames m.vm) ∧
      (CloneOk cur m (clone m cur r cflg) ↔ StopsEarly m r ∨ ThreeFrames m.vm ∧ Copied m cur r cflg) :=
  ⟨procAlloc_unchanged_iff cur h.frames, clone_unchanged_iff h cflg⟩

theorem rootMachine_frames : ThreeFrames (rootMachine [some 16, some 17, some 18]).vm :=
  ⟨by decide, by decide, by decide⟩

theorem rootMachine_copied :
    Copied (rootMachine [some 16, some 17, some 18]) ⟨0, 0⟩ ⟨some (1, []), 1⟩ CLONE_FORK := by
  apply copied_of_run (.inl rfl)
  decide +kernel

/-- There are three frames, and the caller has no pages to copy. -/
theorem create_iff_root :
    AllocOk ⟨0, 0⟩ (rootMachine [some 16, some 17, some 18])
        (procAlloc (rootMachine [some 16, some 17, some 18]) ⟨some (1, []), 1⟩) ∧
      CloneOk ⟨0, 0⟩ (rootMachine [some 16, some 17, some 18])
        (clone (rootMachine [some 16, some 17, some 18]) ⟨0, 0⟩ ⟨some (1, []), 1⟩ CLONE_FORK) := by
  obtain ⟨halloc, hclone⟩ :=
    create_iff (rootMachine_ready [some 16, some 17, some 18]) ⟨some (1, []), 1⟩ CLONE_FORK
  rw [halloc, hclone]
  exact ⟨.inr rootMachine_frames, .inr ⟨rootMachine_frames, rootMachine_copied⟩⟩

/-- There is no frame: the descriptor that was taken is destroyed as process 0. -/
theorem create_no_frame :
    ¬ ∀ (m : Machine) (cur : Proc) (r : Request) (cflg : BitVec 32), Ready m cur →
      AllocOk cur m (procAlloc m r) ∧ CloneOk cur m (clone m cur r cflg) := by
  intro hall
  have hready := rootMachine_ready []
  have hok := (hall _ _ ⟨some (1, []), 1⟩ CLONE_FORK hready).1
  rcases (procAlloc_unchanged_iff ⟨0, 0⟩ hready.frames).1 hok with (hfull | ⟨_, hnone⟩) | hframes
  · exact absurd hfull (by decide)
  · cases hnone
  · exact hframes.1 rfl

end WeiOS.Process.Create
