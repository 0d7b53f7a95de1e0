import Mathlib
import WeiOS.Lib.Run

/-!
# Process Identifiers

Models the pid allocator of `kern/proc.c`: `get_pid`, `clear_pid`, `get_proc_desc`,
`proc_desc_destroy` and the part of `proc_alloc` that manages `proc_manager`.

`get_pid` reads a pid as word `pid / 32`, bit `pid % 32` of `id_bitmap`; `clear_pid` divides by
`sizeof(uint32_t)` instead, so it writes word `pid / 4`, bit `pid % 4`.

## Main results
- `getPid_spec`: `get_pid` claims the lowest pid whose bit is set.
- `pidsOk_iff_destroys_small`: a run keeps the pid invariant exactly when every process it
  destroys has a pid below 4, the only pids on which the two encodings agree.
-/

namespace WeiOS.Process

open WeiOS.Lib

/-! ## §1 The process manager -/

/-- Total processes in the kernel (`include/mmu.h`). -/
def NPROC : Nat := 1024

/-- `sizeof(uint32_t)`. -/
def sizeofU32 : Nat := 4

/-- The word array `id_bitmap[32]`; a 0 bit means that the pid is occupied. -/
abbrev IdBitmap := Fin 32 → BitVec 32

/-- A process descriptor, as far as the pid allocator reads it: its address and its pid. -/
structure Proc where
  desc : Nat
  pid : Nat
deriving DecidableEq, Repr

/-- `struct proc_manager`, with the descriptors whose status is not `FREE` listed in `procs`. -/
structure ProcManager where
  nProcsAlive : Nat
  idBitmap : IdBitmap
  procTable : Nat → Option Nat
  procsDescCache : List Nat
  procs : List Proc

/-- What goes wrong in this file: an index outside `id_bitmap[0..31]`. -/
inductive Fault where
  | idBitmapBounds (tNo : Nat)
deriving DecidableEq, Repr

/-- Error codes of `include/error.h` that `proc_alloc` returns (negated). -/
def eNoMem : Int := 4
def eNoFreeProc : Int := 5

/-- `proc_init`: every pid is free. -/
def procInit : ProcManager where
  nProcsAlive := 0
  idBitmap := fun _ => 0xFFFFFFFF#32
  procTable := fun _ => none
  procsDescCache := []
  procs := []

/-! ## §2 The source functions -/

/-- The inner loop of `get_pid`: the first index `idx` with `(1 << idx) & word` non-zero. -/
def firstBit (word : BitVec 32) : Option Nat :=
  (List.range 32).find? (fun idx => (1#32 <<< idx) &&& word ≠ 0#32)

/-- The two loops of `get_pid`: the first word with a set bit, and that bit. -/
def findPid (bm : IdBitmap) : Option (Fin 32 × Nat) :=
  (List.finRange 32).findSome? (fun i => (firstBit (bm i)).map (fun idx => (i, idx)))

/-- `get_pid`: clears the bit it found and returns its number; returns 0 when no bit is set. -/
def getPid (bm : IdBitmap) : Nat × IdBitmap :=
  match findPid bm with
  | some (i, idx) => (idx + i * 32, Function.update bm i (bm i &&& ~~~(1#32 <<< idx)))
  | none => (0, bm)

/-- `clear_pid`: sets bit `pid % sizeof(uint32_t)` of word `pid / sizeof(uint32_t)`. -/
def clearPid (bm : IdBitmap) (pid : Nat) : Except Fault IdBitmap :=
  let tNo := pid / sizeofU32 % 2 ^ 16
  let idx := pid % sizeofU32 % 2 ^ 16
  if h : tNo < 32 then
    .ok (Function.update bm ⟨tNo, h⟩ (bm ⟨tNo, h⟩ ||| (1#32 <<< idx)))
  else
    .error (.idBitmapBounds tNo)

/-- `get_proc_desc`: a cached descriptor, or else the one `kmalloc` returns. -/
def getProcDesc (m : ProcManager) (kmalloc : Option Nat) : Option Nat × ProcManager :=
  match m.procsDescCache with
  | d :: rest => (some d, { m with procsDescCache := rest })
  | [] => (kmalloc, m)

/-- `proc_desc_destroy`. -/
def procDescDestroy (m : ProcManager) (p : Proc) : Except Fault ProcManager := do
  let bm ← clearPid m.idBitmap p.pid
  return { nProcsAlive := (m.nProcsAlive + (2 ^ 32 - 1)) % 2 ^ 32
           idBitmap := bm
           procTable := Function.update m.procTable p.pid none
           procsDescCache := p.desc :: m.procsDescCache
           procs := m.procs.erase p }

/-- The results of the allocations that `proc_alloc` makes. -/
structure AllocResults where
  kmalloc : Option Nat
  setupVm : Bool
  kstack : Bool
deriving DecidableEq, Repr

/-- `proc_alloc`, up to the set-up of the trap frame: its return value and the process it stores
    in `*new_proc_store`. A fresh descriptor is zeroed, so the first failure path destroys it
    under pid 0; the last one returns the 0 that `proc_setup_vm` left in `r`. -/
def procAlloc (m : ProcManager) (r : AllocResults) :
    Except Fault (ProcManager × Int × Option Proc) :=
  if m.nProcsAlive = NPROC then
    .ok (m, -eNoFreeProc, none)
  else
    match getProcDesc m r.kmalloc with
    | (none, m₁) => .ok (m₁, -eNoMem, none)
    | (some d, m₁) =>
      if r.setupVm = false then do
        let m₂ ← procDescDestroy m₁ ⟨d, 0⟩
        return (m₂, -eNoMem, none)
      else
        let p : Proc := ⟨d, (getPid m₁.idBitmap).1⟩
        let m₂ : ProcManager :=
          { m₁ with
            nProcsAlive := (m₁.nProcsAlive + 1) % 2 ^ 32
            idBitmap := (getPid m₁.idBitmap).2
            procTable := Function.update m₁.procTable p.pid (some d)
            procs := p :: m₁.procs }
        if r.kstack = false then do
          let m₃ ← procDescDestroy m₂ p
          return (m₃, 0, none)
        else
          .ok (m₂, 0, some p)

/-- The two operations on the live processes: creating one (every allocation succeeding, `d` the
    descriptor `kmalloc` would return) and destroying one. -/
inductive Op where
  | create (d : Nat)
  | destroy (p : Proc)
deriving DecidableEq, Repr

/-- One operation on the process manager. -/
def step (m : ProcManager) : Op → Except Fault ProcManager
  | .create d => (procAlloc m ⟨some d, true, true⟩).map Prod.fst
  | .destroy p => procDescDestroy m p

/-- Only live processes are destroyed. -/
def Valid (m : ProcManager) : Op → Prop
  | .create _ => True
  | .destroy p => p ∈ m.procs

/-- The processes that the run destroys have a pid below `sizeof(uint32_t)`. -/
def DestroysSmall (_ : ProcManager) : Op → Prop
  | .create _ => True
  | .destroy p => p.pid < sizeofU32

/-! ## §3 Bits of the pid bitmap -/

/-- Bit `k` of `id_bitmap`, read the way `get_pid` reads it. -/
def pidBit (bm : IdBitmap) (k : Nat) : Bool :=
  (bm (Fin.ofNat 32 (k / 32))).getLsbD (k % 32)

/-- The test of the inner loop of `get_pid` reads one bit. -/
theorem shl_and_ne_zero_iff {n : Nat} (w : BitVec n) {idx : Nat} (h : idx < n) :
    (1#n <<< idx) &&& w ≠ 0#n ↔ w.getLsbD idx = true := by
  rw [← BitVec.twoPow_eq, BitVec.twoPow_and]
  by_cases hb : w.getLsbD idx = true
  · have hne : BitVec.twoPow n idx ≠ 0#n := by
      intro h0
      have := congrArg BitVec.toNat h0
      rw [BitVec.toNat_twoPow_of_lt h] at this
      simp at this
    simp [hb, hne]
  · simp [hb]

theorem firstBit_some {w : BitVec 32} {idx : Nat} (h : firstBit w = some idx) :
    idx < 32 ∧ w.getLsbD idx = true := by
  have hlt : idx < 32 := by simpa using List.mem_of_find?_eq_some h
  have hbit := List.find?_some h
  simp only [decide_eq_true_eq] at hbit
  exact ⟨hlt, (shl_and_ne_zero_iff w hlt).1 hbit⟩

theorem firstBit_none {w : BitVec 32} (h : firstBit w = none) {idx : Nat} (hlt : idx < 32) :
    w.getLsbD idx = false := by
  have hn := List.find?_eq_none.1 h idx (List.mem_range.2 hlt)
  simp only [decide_eq_true_eq] at hn
  rw [shl_and_ne_zero_iff w hlt] at hn
  simpa using hn

/-- The scan finds a set bit whenever there is one. -/
theorem findPid_some_of_pidBit {bm : IdBitmap} {k : Nat} (hk : pidBit bm k = true) :
    ∃ i idx, findPid bm = some (i, idx) ∧ idx < 32 ∧ (bm i).getLsbD idx = true := by
  cases hf : findPid bm with
  | none =>
    have hw := List.findSome?_eq_none_iff.1 hf (Fin.ofNat 32 (k / 32)) (List.mem_finRange _)
    have hbit := firstBit_none (Option.map_eq_none_iff.1 hw) (Nat.mod_lt k (by omega : 0 < 32))
    rw [pidBit, hbit] at hk
    cases hk
  | some r =>
    obtain ⟨i, idx⟩ := r
    obtain ⟨j, _, hj⟩ := List.exists_of_findSome?_eq_some hf
    obtain ⟨idx', hidx', heq⟩ := Option.map_eq_some_iff.1 hj
    obtain ⟨rfl, rfl⟩ := Prod.mk.inj heq
    exact ⟨j, idx', rfl, firstBit_some hidx'⟩

/-- **`get_pid`** returns a pid whose bit was set, and clears exactly that bit. -/
theorem getPid_spec {bm : IdBitmap} {k : Nat} (hk : pidBit bm k = true) :
    (getPid bm).1 < NPROC ∧ pidBit bm (getPid bm).1 = true ∧
      ∀ j < NPROC, pidBit (getPid bm).2 j = (pidBit bm j && decide (j ≠ (getPid bm).1)) := by
  obtain ⟨i, idx, hf, hidx, hbit⟩ := findPid_some_of_pidBit hk
  have hget : getPid bm =
      (idx + i * 32, Function.update bm i (bm i &&& ~~~(1#32 <<< idx))) := by
    simp [getPid, hf]
  have hi : Fin.ofNat 32 ((idx + i * 32) / 32) = i := by
    ext; simp only [Fin.val_ofNat]; omega
  rw [hget]
  refine ⟨?_, ?_, fun j hj => ?_⟩
  · show idx + i * 32 < NPROC
    have := i.isLt
    unfold NPROC; omega
  · have hm : (idx + i * 32) % 32 = idx := by omega
    simp only [pidBit, hi, hm, hbit]
  · simp only [pidBit]
    unfold NPROC at hj
    by_cases hji : Fin.ofNat 32 (j / 32) = i
    · have hval : j / 32 = i := by
        have := congrArg Fin.val hji
        simp only [Fin.val_ofNat] at this
        omega
      rw [hji, Function.update_self, BitVec.getLsbD_and, BitVec.getLsbD_not, ← BitVec.twoPow_eq,
        BitVec.getLsbD_twoPow]
      have hlt : j % 32 < 32 := Nat.mod_lt _ (by omega)
      by_cases he : idx = j % 32
      · have hjeq : ¬ j ≠ idx + i * 32 := by omega
        rw [decide_eq_false hjeq]
        simp [he, hlt]
      · have hjne : j ≠ idx + i * 32 := by omega
        simp [he, hlt, hjne]
    · have hne : j ≠ idx + ↑i * 32 := by
        rintro rfl
        exact hji hi
      rw [Function.update_of_ne hji]
      simp [hne]

/-- On the pids below 4 `clear_pid` sets the bit that `get_pid` reads. -/
theorem clearPid_small (bm : IdBitmap) {pid : Nat} (h : pid < sizeofU32) :
    ∃ bm', clearPid bm pid = .ok bm' ∧
      ∀ j < NPROC, pidBit bm' j = (pidBit bm j || decide (j = pid)) := by
  unfold sizeofU32 at h
  have htno : pid / sizeofU32 % 2 ^ 16 = 0 := by unfold sizeofU32; omega
  have hidx : pid % sizeofU32 % 2 ^ 16 = pid := by unfold sizeofU32; omega
  refine ⟨Function.update bm 0 (bm 0 ||| (1#32 <<< pid)), ?_, fun j hj => ?_⟩
  · unfold clearPid
    simp only [htno, hidx]
    rfl
  · simp only [pidBit]
    unfold NPROC at hj
    by_cases hj0 : Fin.ofNat 32 (j / 32) = 0
    · have hval : j / 32 = 0 := by
        have := congrArg Fin.val hj0
        simp only [Fin.val_ofNat, Fin.val_zero] at this
        omega
      have hmod : j % 32 = j := by omega
      rw [hj0, Function.update_self, BitVec.getLsbD_or, ← BitVec.twoPow_eq,
        BitVec.getLsbD_twoPow, hmod]
      have hp : pid < 32 := by omega
      simp [hp, eq_comm]
    · have hne : j ≠ pid := by
        rintro rfl
        apply hj0
        ext; simp only [Fin.val_ofNat, Fin.val_zero]; omega
      rw [Function.update_of_ne hj0]
      simp [hne]

/-- From pid 4 on `clear_pid` never touches the bit of the pid it is given. -/
theorem clearPid_large {bm bm' : IdBitmap} {pid : Nat} (h : sizeofU32 ≤ pid) (hp : pid < NPROC)
    (hok : clearPid bm pid = .ok bm') : pidBit bm' pid = pidBit bm pid := by
  unfold NPROC at hp
  by_cases hlt : pid / sizeofU32 % 2 ^ 16 < 32
  · simp only [clearPid, dif_pos hlt] at hok
    obtain rfl := Except.ok.inj hok
    simp only [pidBit]
    by_cases hw : Fin.ofNat 32 (pid / 32) = ⟨pid / sizeofU32 % 2 ^ 16, hlt⟩
    · -- the two words differ from pid 4 on
      have hval : pid / 32 % 32 = pid / sizeofU32 % 2 ^ 16 := congrArg Fin.val hw
      unfold sizeofU32 at h hval
      rw [Nat.mod_eq_of_lt (by omega : pid / 32 < 32),
        Nat.mod_eq_of_lt (by omega : pid / 4 < 2 ^ 16)] at hval
      omega
    · rw [Function.update_of_ne hw]
  · simp only [clearPid, dif_neg hlt] at hok
    cases hok

/-! ## §4 The pid invariant -/

/-- The pids of the live processes are distinct, below `NPROC`, and are exactly the cleared bits
    of `id_bitmap`. -/
structure PidsOk (m : ProcManager) : Prop where
  distinct : (m.procs.map Proc.pid).Nodup
  bound : ∀ p ∈ m.procs, p.pid < NPROC
  bits : ∀ k < NPROC, pidBit m.idBitmap k = false ↔ k ∈ m.procs.map Proc.pid

/-- The invariant of a run: the pids are in order and `n_procs_alive` counts them. -/
structure Inv (m : ProcManager) : Prop extends PidsOk m where
  alive : m.nProcsAlive = m.procs.length

theorem procInit_inv : Inv procInit where
  distinct := by simp [procInit]
  bound := by simp [procInit]
  bits := by
    intro k _
    have hlt : k % 32 < 32 := Nat.mod_lt _ (by omega)
    have : (0xFFFFFFFF#32).getLsbD (k % 32) = true := by
      have hall : ∀ i < 32, (0xFFFFFFFF#32).getLsbD i = true := by decide
      exact hall _ hlt
    simp [procInit, pidBit, this]
  alive := by simp [procInit]

/-- There are at most `NPROC` live processes. -/
theorem PidsOk.length_le {m : ProcManager} (h : PidsOk m) : m.procs.length ≤ NPROC := by
  have hsub : m.procs.map Proc.pid ⊆ List.range NPROC := by
    intro k hk
    obtain ⟨p, hp, rfl⟩ := List.mem_map.1 hk
    exact List.mem_range.2 (h.bound p hp)
  simpa using (h.distinct.subperm hsub).length_le

/-- While a process can still be created, some pid bit is set. -/
theorem PidsOk.exists_free {m : ProcManager} (h : PidsOk m) (hlt : m.procs.length < NPROC) :
    ∃ k < NPROC, pidBit m.idBitmap k = true := by
  by_contra hnone
  push Not at hnone
  -- otherwise every pid below `NPROC` is live, which takes `NPROC` processes
  have hsub : List.range NPROC ⊆ m.procs.map Proc.pid := by
    intro k hk
    have hk' := List.mem_range.1 hk
    exact (h.bits k hk').1 (by simpa using hnone k hk')
  have := (List.nodup_range.subperm hsub).length_le
  simp at this
  omega

/-- A creation in an invariant state: either the table is full and nothing happens, or one process
    with an unused pid joins. -/
theorem create_inv {m : ProcManager} (h : Inv m) (d : Nat) :
    ∃ m', step m (.create d) = .ok m' ∧ Inv m' := by
  by_cases hfull : m.nProcsAlive = NPROC
  · exact ⟨m, by simp [step, procAlloc, hfull, Except.map], h⟩
  · have hlt : m.procs.length < NPROC := by
      have := h.toPidsOk.length_le
      have := h.alive
      omega
    obtain ⟨k, _, hkbit⟩ := h.toPidsOk.exists_free hlt
    obtain ⟨hpid, hfree, hbits⟩ := getPid_spec hkbit
    -- the descriptor comes from the cache or from `kmalloc`; the pid fields are the same
    obtain ⟨d', m₁, hdesc, hm₁⟩ : ∃ d' m₁, getProcDesc m (some d) = (some d', m₁) ∧
        m₁.nProcsAlive = m.nProcsAlive ∧ m₁.idBitmap = m.idBitmap ∧ m₁.procs = m.procs := by
      unfold getProcDesc
      cases m.procsDescCache with
      | nil => exact ⟨d, m, rfl, rfl, rfl, rfl⟩
      | cons d' rest => exact ⟨d', _, rfl, rfl, rfl, rfl⟩
    obtain ⟨hal, hbm, hps⟩ := hm₁
    have hnot : (getPid m.idBitmap).1 ∉ m.procs.map Proc.pid := by
      intro hmem
      have := (h.bits _ hpid).2 hmem
      rw [hfree] at this
      cases this
    refine ⟨_, by simp [step, procAlloc, hfull, hdesc, Except.map]; rfl, ?_⟩
    constructor
    · constructor
      · simpa [hps, hbm] using ⟨by simpa using hnot, h.distinct⟩
      · intro p hp
        rcases List.mem_cons.1 hp with rfl | hp
        · simpa [hbm] using hpid
        · exact h.bound p (by simpa [hps] using hp)
      · intro j hj
        have hb := h.bits j hj
        simp only [hbm, hps, hbits j hj, List.map_cons, List.mem_cons]
        by_cases hjp : j = (getPid m.idBitmap).1
        · simp [hjp]
        · simp only [hjp, ne_eq, not_false_eq_true, decide_true, Bool.and_true, false_or]
          exact hb
    · have : m.procs.length + 1 < 2 ^ 32 := by unfold NPROC at hlt; omega
      simp only [hal, hps, h.alive, List.length_cons]
      omega

/-- Destroying a live process with a pid below 4 keeps the invariant. -/
theorem destroy_small_inv {m : ProcManager} (h : Inv m) {p : Proc} (hp : p ∈ m.procs)
    (hsmall : p.pid < sizeofU32) : ∃ m', step m (.destroy p) = .ok m' ∧ Inv m' := by
  obtain ⟨bm', hok, hbits⟩ := clearPid_small m.idBitmap hsmall
  have hnodup : m.procs.Nodup := List.Nodup.of_map _ h.distinct
  -- the pids that remain are the old ones without `p.pid`
  have hrest : ∀ k, k ∈ (m.procs.erase p).map Proc.pid ↔ k ∈ m.procs.map Proc.pid ∧ k ≠ p.pid := by
    intro k
    simp only [List.mem_map, hnodup.mem_erase_iff]
    constructor
    · rintro ⟨q, ⟨hqp, hq⟩, rfl⟩
      exact ⟨⟨q, hq, rfl⟩, fun he => hqp (List.inj_on_of_nodup_map h.distinct hq hp he)⟩
    · rintro ⟨⟨q, hq, rfl⟩, hne⟩
      exact ⟨q, ⟨fun he => hne (by rw [he]), hq⟩, rfl⟩
  refine ⟨_, by simp [step, procDescDestroy, hok]; rfl, ?_⟩
  constructor
  · constructor
    · exact h.distinct.sublist ((List.erase_sublist).map _)
    · exact fun q hq => h.bound q (List.mem_of_mem_erase hq)
    · intro j hj
      show pidBit bm' j = false ↔ j ∈ (m.procs.erase p).map Proc.pid
      rw [hbits j hj, hrest, ← h.bits j hj]
      simp
  · have hpos : 0 < m.procs.length := List.length_pos_of_mem hp
    have hle := h.toPidsOk.length_le
    simp only [List.length_erase_of_mem hp, h.alive]
    unfold NPROC at hle
    omega

/-- Destroying a live process with a larger pid leaves its bit cleared, if it returns at all. -/
theorem destroy_large_not_pidsOk {m m' : ProcManager} (h : Inv m) {p : Proc} (hp : p ∈ m.procs)
    (hlarge : ¬ p.pid < sizeofU32) (hok : step m (.destroy p) = .ok m') : ¬ PidsOk m' := by
  intro h'
  have hlt := h.bound p hp
  have hnodup : m.procs.Nodup := List.Nodup.of_map _ h.distinct
  simp only [step, procDescDestroy] at hok
  cases hc : clearPid m.idBitmap p.pid with
  | error e =>
    rw [hc] at hok
    cases hok
  | ok bm' =>
    rw [hc] at hok
    obtain rfl := Except.ok.inj hok
    have hbit : pidBit bm' p.pid = false := by
      rw [clearPid_large (by omega) hlt hc]
      exact (h.bits _ hlt).2 (List.mem_map_of_mem hp)
    obtain ⟨q, hq, hqp⟩ := List.mem_map.1 ((h'.bits _ hlt).1 hbit)
    rw [hnodup.mem_erase_iff] at hq
    exact hq.1 (List.inj_on_of_nodup_map h.distinct hq.2 hp hqp)

/-- **Exact condition for distinct pids**: in a run that creates processes and destroys live ones,
    starting from `proc_init`, no index leaves `id_bitmap[0..31]` and the pids of the live processes
    are distinct, below `NPROC` and exactly the cleared bits after every step, if and only if every
    destroyed process has a pid below 4. -/
theorem pidsOk_iff_destroys_small (ops : List Op) (hvalid : Meets step Valid procInit ops) :
    Along step (fun _ _ m' => PidsOk m') procInit ops ↔ Meets step DestroysSmall procInit ops := by
  refine along_iff_meets Inv ?_ ?_ procInit_inv hvalid
  · intro m o hm hv hs
    cases o with
    | create d =>
      obtain ⟨m', hok, hinv⟩ := create_inv hm d
      exact ⟨m', hok, hinv.toPidsOk, hinv⟩
    | destroy p =>
      obtain ⟨m', hok, hinv⟩ := destroy_small_inv hm hv hs
      exact ⟨m', hok, hinv.toPidsOk, hinv⟩
  · intro m o m' hm hv hns hok
    cases o with
    | create d => exact absurd trivial hns
    | destroy p => exact destroy_large_not_pidsOk hm hv hns hok

/-- Two processes are created and the second one, with pid 1, is destroyed again. -/
theorem pidsOk_iff_destroys_small_two :
    Along step (fun _ _ m' => PidsOk m') procInit
        [.create 10, .create 20, .destroy ⟨20, 1⟩] ↔
      Meets step DestroysSmall procInit [.create 10, .create 20, .destroy ⟨20, 1⟩] := by
  apply pidsOk_iff_destroys_small
  refine ⟨trivial, fun m₁ h₁ => ⟨trivial, fun m₂ h₂ => ⟨?_, fun _ _ => trivial⟩⟩⟩
  obtain rfl := Except.ok.inj h₁
  obtain rfl := Except.ok.inj h₂
  show (⟨20, 1⟩ : Proc) ∈ [⟨20, 1⟩, ⟨10, 0⟩]
  decide

instance decidableValid (m : ProcManager) : ∀ o : Op, Decidable (Valid m o)
  | .create _ => isTrue trivial
  | .destroy p => inferInstanceAs (Decidable (p ∈ m.procs))

/-- The pids 0 to 33 are created and pid 5 is destroyed. -/
def doublePidPrefix : List Op :=
  (List.range 34).map Op.create ++ [.destroy ⟨5, 5⟩]

/-- Destroying pid 5 sets the bit of pid 33, so the next process is given the pid of a live one. -/
theorem doublePid_not_pidsOk :
    Meets step Valid procInit (doublePidPrefix ++ [.create 34]) ∧
      ¬ Along step (fun _ _ m' => PidsOk m') procInit (doublePidPrefix ++ [.create 34]) := by
  refine ⟨by decide +kernel, fun h => ?_⟩
  obtain ⟨_, m, hrun, hok⟩ := h.last
  have hcount : ((doublePidPrefix ++ [Op.create 34]).foldlM step procInit).toOption.map
      (fun m : ProcManager => (m.procs.map Proc.pid).count 33) = some 2 := by decide +kernel
  rw [hrun] at hcount
  have hle := List.nodup_iff_count_le_one.1 hok.distinct 33
  have heq : (m.procs.map Proc.pid).count 33 = 2 := by simpa [Except.toOption] using hcount
  omega

end WeiOS.Process
