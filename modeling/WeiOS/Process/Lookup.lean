import Mathlib
import WeiOS.Lib.Run
import WeiOS.Process.Pid

/-!
# Looking Up Processes

`pid2proc` of `kern/proc.c`, and the system calls that are given a pid. A slot of `proc_table` is null before its
pid is used and after its process is gone, and `pid2proc` reads through the slot without a test. Its bound is
`pid > NPROC`, so it takes the word behind the table for a slot as well.

## Main results
- `TableInv`: a slot that is not null has a live process with its pid.
- `lookup_iff`: the pids that are handled safely.
-/

namespace WeiOS.Process.Lookup

open WeiOS.Lib

/-! ## §1 The source functions -/

/-- What `pid2proc` reads through. -/
inductive SlotFault where
  | emptySlot (pid : Nat)
  | outOfRange (pid : Nat)
deriving DecidableEq, Repr

/-- `pid2proc`, called by process `cur`; `ppid` is the field of each descriptor. The answer is the process that is
    stored, or nothing for `-E_BAD_PROC`. -/
def pid2proc (m : ProcManager) (ppid : Nat → Nat) (cur : Proc) (pid : Nat) (check : Bool) :
    Except SlotFault (Option Proc) :=
  if pid = 0 then .ok (some cur)
  else if NPROC < pid then .ok none
  else if pid = NPROC then .error (.outOfRange pid)
  else
    match m.procTable pid with
    | none => .error (.emptySlot pid)
    | some d =>
      -- a descriptor that is not listed has the status `FREE`
      match m.procs.find? (·.desc = d) with
      | none => .ok none
      | some p =>
        if p.pid ≠ pid then .ok none
        else if check && p.desc != cur.desc && ppid p.desc != cur.pid then .ok none
        else .ok (some p)

/-- The calls that are given pids, with the arguments that are tested before. -/
inductive Call where
  | kill (pid : Nat)
  | userPageAlloc (pid : Nat) (badArgs : Bool)
  | userPageMap (srcpid dstpid : Nat) (badArgs : Bool)
  | userPageUpmap (pid : Nat) (badArgs : Bool)
  | ipcTrySend (pid : Nat)
  | sysSetProcTrapframe (pid : Nat)

/-- The pids that a call looks up, each with the `check` argument. `user_page_map` does not look for the target
    when there is no source. -/
def lookups (m : ProcManager) (ppid : Nat → Nat) (cur : Proc) : Call → List (Nat × Bool)
  | .kill pid => if NPROC < pid then [] else [(pid, true)]
  | .userPageAlloc pid badArgs => if badArgs then [] else [(pid, true)]
  | .userPageMap srcpid dstpid badArgs =>
    if badArgs then []
    else
      match pid2proc m ppid cur srcpid true with
      | .ok (some _) => [(srcpid, true), (dstpid, true)]
      | _ => [(srcpid, true)]
  | .userPageUpmap pid badArgs => if badArgs then [] else [(pid, true)]
  | .ipcTrySend pid => [(pid, false)]
  | .sysSetProcTrapframe pid => [(pid, true)]

/-- A process is created, with any of its allocations failing, or destroyed. -/
inductive Op where
  | create (r : AllocResults)
  | destroy (p : Proc)
deriving DecidableEq, Repr

def step (m : ProcManager) : Op → Except Fault ProcManager
  | .create r => (procAlloc m r).map Prod.fst
  | .destroy p => procDescDestroy m p

/-- `kmalloc` returns memory that is not in use, and only live processes are destroyed. -/
def Valid (m : ProcManager) : Op → Prop
  | .create r => ∀ d ∈ r.kmalloc, d ∉ m.procs.map Proc.desc ++ m.procsDescCache
  | .destroy p => p ∈ m.procs

instance (m : ProcManager) : (o : Op) → Decidable (Valid m o)
  | .create r => inferInstanceAs (Decidable (∀ d ∈ r.kmalloc, d ∉ m.procs.map Proc.desc ++ m.procsDescCache))
  | .destroy p => inferInstanceAs (Decidable (p ∈ m.procs))

/-! ## §2 What a lookup is for -/

/-- The pid names a live process. Two live processes may have one pid; it names the one in the table. -/
def Names (m : ProcManager) (pid : Nat) (p : Proc) : Prop :=
  p ∈ m.procs ∧ p.pid = pid ∧ m.procTable pid = some p.desc

/-- The caller itself, or a child of the caller. -/
def InFamily (ppid : Nat → Nat) (cur p : Proc) : Prop := p = cur ∨ ppid p.desc = cur.pid

/-- **A safe lookup**: it reads through no empty or foreign slot, it finds the caller for pid 0, and otherwise the
    process that the pid names, if the caller may have it. -/
def LookupOk (m : ProcManager) (ppid : Nat → Nat) (cur : Proc) (pid : Nat) (check : Bool) : Prop :=
  ∃ r, pid2proc m ppid cur pid check = .ok r ∧
    ∀ p, r = some p ↔ pid = 0 ∧ p = cur ∨ pid ≠ 0 ∧ Names m pid p ∧ (check = true → InFamily ppid cur p)

/-- The pid is 0, beyond `NPROC`, or its slot is not null. -/
def Slotted (m : ProcManager) (pid : Nat) : Prop := pid = 0 ∨ NPROC < pid ∨ m.procTable pid ≠ none

/-! ## §3 The table -/

/-- A slot that is not null has a live process with its pid, and each descriptor is used once. -/
structure TableInv (m : ProcManager) : Prop where
  named : ∀ k d, m.procTable k = some d → ⟨d, k⟩ ∈ m.procs
  descs : (m.procs.map Proc.desc ++ m.procsDescCache).Nodup
  bound : ∀ p ∈ m.procs, p.pid < NPROC

variable {m m' : ProcManager} {p : Proc}

theorem procInit_tableInv : TableInv procInit where
  named := by simp [procInit]
  descs := by simp [procInit]
  bound := by simp [procInit]

/-- `get_pid` stays in the table, also when no bit is set. -/
theorem getPid_lt (bm : IdBitmap) : (getPid bm).1 < NPROC := by
  unfold getPid
  cases hf : findPid bm with
  | none =>
    show 0 < NPROC
    decide
  | some r =>
    obtain ⟨i, idx⟩ := r
    obtain ⟨j, _, hj⟩ := List.exists_of_findSome?_eq_some hf
    obtain ⟨idx', hidx', heq⟩ := Option.map_eq_some_iff.1 hj
    obtain ⟨rfl, rfl⟩ := Prod.mk.inj heq
    have hlt := (firstBit_some hidx').1
    have := j.isLt
    show idx' + j * 32 < NPROC
    unfold NPROC
    omega

/-- What `proc_desc_destroy` does, if it returns. -/
theorem procDescDestroy_eq (h : procDescDestroy m p = .ok m') :
    m'.procTable = Function.update m.procTable p.pid none ∧ m'.procs = m.procs.erase p ∧
      m'.procsDescCache = p.desc :: m.procsDescCache := by
  obtain ⟨bm, _, hok⟩ := bind_eq_ok.1 h
  obtain rfl := Except.ok.inj hok
  exact ⟨rfl, rfl, rfl⟩

/-- A live process is destroyed. -/
theorem TableInv.destroy (h : TableInv m) (hp : p ∈ m.procs) (hok : procDescDestroy m p = .ok m') :
    TableInv m' := by
  obtain ⟨htable, hprocs, hcache⟩ := procDescDestroy_eq hok
  refine ⟨fun k d hk => ?_, ?_, fun q hq => ?_⟩
  · rw [htable] at hk
    by_cases hkp : k = p.pid
    · rw [hkp, Function.update_self] at hk
      cases hk
    · rw [Function.update_of_ne hkp] at hk
      rw [hprocs]
      have hne : (⟨d, k⟩ : Proc) ≠ p := fun he => hkp (by rw [← he])
      exact (List.mem_erase_of_ne hne).2 (h.named k d hk)
  · rw [hprocs, hcache]
    have hperm : (m.procs.map Proc.desc ++ m.procsDescCache).Perm
        ((m.procs.erase p).map Proc.desc ++ p.desc :: m.procsDescCache) := by
      have hsplit := ((List.perm_cons_erase hp).map Proc.desc).append_right m.procsDescCache
      exact hsplit.trans List.perm_middle.symm
    exact hperm.nodup_iff.1 h.descs
  · rw [hprocs] at hq
    exact h.bound q (List.mem_of_mem_erase hq)

/-- A descriptor that was never set up is destroyed, under pid 0. -/
theorem TableInv.drop {d : Nat} (h : TableInv m) (hd : d ∉ m.procs.map Proc.desc ++ m.procsDescCache)
    (hok : procDescDestroy m ⟨d, 0⟩ = .ok m') : TableInv m' := by
  obtain ⟨htable, hprocs, hcache⟩ := procDescDestroy_eq hok
  rw [List.mem_append, not_or] at hd
  have hnot : (⟨d, 0⟩ : Proc) ∉ m.procs := fun hc => hd.1 (List.mem_map_of_mem hc)
  rw [List.erase_of_not_mem hnot] at hprocs
  refine ⟨fun k e hk => ?_, ?_, ?_⟩
  · rw [htable] at hk
    rw [hprocs]
    by_cases hk0 : k = 0
    · rw [hk0, Function.update_self] at hk
      cases hk
    · rw [Function.update_of_ne hk0] at hk
      exact h.named k e hk
  · rw [hprocs, hcache]
    apply List.perm_middle.nodup_iff.2
    exact List.nodup_cons.2 ⟨by simpa using hd, h.descs⟩
  · rw [hprocs]
    exact h.bound

/-- A descriptor that is given a pid and a slot. -/
theorem TableInv.add {d n : Nat} {b : IdBitmap} (h : TableInv m)
    (hd : d ∉ m.procs.map Proc.desc ++ m.procsDescCache) :
    TableInv { m with
      nProcsAlive := n
      idBitmap := b
      procTable := Function.update m.procTable (getPid m.idBitmap).1 (some d)
      procs := ⟨d, (getPid m.idBitmap).1⟩ :: m.procs } := by
  refine ⟨fun k e hk => ?_, List.nodup_cons.2 ⟨hd, h.descs⟩, fun q hq => ?_⟩
  · by_cases hkp : k = (getPid m.idBitmap).1
    · rw [hkp] at hk ⊢
      obtain rfl : d = e := by simpa using hk
      exact List.mem_cons_self
    · have hold : m.procTable k = some e := by simpa [hkp] using hk
      exact List.mem_cons_of_mem _ (h.named k e hold)
  · rcases List.mem_cons.1 hq with rfl | hq
    · exact getPid_lt m.idBitmap
    · exact h.bound q hq

/-- `get_proc_desc` gives a descriptor that is nowhere else. -/
theorem TableInv.getProcDesc (h : TableInv m) {o : Option Nat}
    (hfresh : ∀ d ∈ o, d ∉ m.procs.map Proc.desc ++ m.procsDescCache) :
    ∃ o' m₁, Process.getProcDesc m o = (o', m₁) ∧ TableInv m₁ ∧
      ∀ d ∈ o', d ∉ m₁.procs.map Proc.desc ++ m₁.procsDescCache := by
  unfold Process.getProcDesc
  split
  · next d rest hcache =>
    have hdescs := h.descs
    rw [hcache] at hdescs
    have hcons := List.nodup_cons.1 (List.perm_middle.nodup_iff.1 hdescs)
    refine ⟨_, _, rfl, ⟨h.named, hcons.2, h.bound⟩, fun e he => ?_⟩
    obtain rfl := Option.some.inj he
    exact hcons.1
  · exact ⟨_, _, rfl, h, hfresh⟩

/-- **Step lemma**: creations and destructions keep the table in order. -/
theorem step_tableInv (h : TableInv m) {o : Op} (hv : Valid m o) (hok : step m o = .ok m') : TableInv m' := by
  cases o with
  | destroy p => exact h.destroy hv hok
  | create r =>
    obtain ⟨o', m₁, hdesc, h₁, hfresh⟩ := h.getProcDesc (o := r.kmalloc) hv
    have hok' : (procAlloc m r).map Prod.fst = .ok m' := hok
    unfold procAlloc at hok'
    split at hok'
    · obtain rfl := Except.ok.inj hok'
      exact h
    · rw [hdesc] at hok'
      cases o' with
      | none =>
        obtain rfl := Except.ok.inj hok'
        exact h₁
      | some d =>
        have hd := hfresh d rfl
        dsimp only at hok'
        split at hok'
        · -- no memory for a page directory
          cases hdrop : procDescDestroy m₁ ⟨d, 0⟩ with
          | error e =>
            rw [hdrop] at hok'
            cases hok'
          | ok m₂ =>
            rw [hdrop] at hok'
            obtain rfl := Except.ok.inj hok'
            exact h₁.drop hd hdrop
        · have hadd := h₁.add (n := (m₁.nProcsAlive + 1) % 2 ^ 32) (b := (getPid m₁.idBitmap).2) hd
          split at hok'
          · -- no memory for a kernel stack
            cases hdrop : procDescDestroy { m₁ with
                nProcsAlive := (m₁.nProcsAlive + 1) % 2 ^ 32
                idBitmap := (getPid m₁.idBitmap).2
                procTable := Function.update m₁.procTable (getPid m₁.idBitmap).1 (some d)
                procs := ⟨d, (getPid m₁.idBitmap).1⟩ :: m₁.procs } ⟨d, (getPid m₁.idBitmap).1⟩ with
            | error e =>
              rw [hdrop] at hok'
              cases hok'
            | ok m₂ =>
              rw [hdrop] at hok'
              obtain rfl := Except.ok.inj hok'
              exact hadd.destroy List.mem_cons_self hdrop
          · obtain rfl := Except.ok.inj hok'
            exact hadd

/-- **Run lemma**. -/
theorem run_tableInv {ops : List Op} (hv : Meets step Valid procInit ops)
    (hrun : ops.foldlM step procInit = .ok m) : TableInv m :=
  inv_of_foldlM TableInv (fun _ _ _ h hC hok => step_tableInv h hC hok) procInit_tableInv hv hrun

/-! ## §4 Lookups -/

section Lookups

variable {ppid : Nat → Nat} {cur : Proc} {pid : Nat} {check : Bool}

/-- The descriptor in a slot is the one of the live process with that pid. -/
theorem TableInv.find_desc (h : TableInv m) (hp : p ∈ m.procs) :
    m.procs.find? (·.desc = p.desc) = some p := by
  have hnodup : (m.procs.map Proc.desc).Nodup := h.descs.sublist (List.sublist_append_left ..)
  cases hf : m.procs.find? (·.desc = p.desc) with
  | none =>
    have hno := List.find?_eq_none.1 hf p hp
    simp at hno
  | some q =>
    have hdesc := List.find?_some hf
    simp only [decide_eq_true_eq] at hdesc
    rw [List.inj_on_of_nodup_map hnodup (List.mem_of_find?_eq_some hf) hp hdesc]

/-- **A lookup through a slot** that is not null finds the process there, if the caller may have it. -/
theorem TableInv.pid2proc_slot (h : TableInv m) {d : Nat} (hslot : m.procTable pid = some d) (hpos : pid ≠ 0) :
    pid2proc m ppid cur pid check =
      .ok (if check && d != cur.desc && ppid d != cur.pid then none else some ⟨d, pid⟩) := by
  have hp := h.named pid d hslot
  have hlt : pid < NPROC := h.bound _ hp
  have hfind := h.find_desc hp
  unfold pid2proc
  rw [if_neg hpos, if_neg (by omega), if_neg (by omega), hslot]
  dsimp only at hfind ⊢
  rw [hfind]
  dsimp only
  rw [if_neg (by simp)]
  split <;> rfl

theorem pid2proc_empty (hpos : pid ≠ 0) (hle : ¬ NPROC < pid) (hslot : m.procTable pid = none) :
    ∀ r, pid2proc m ppid cur pid check ≠ .ok r := by
  intro r hok
  unfold pid2proc at hok
  rw [if_neg hpos, if_neg hle] at hok
  split at hok
  · cases hok
  · rw [hslot] at hok
    cases hok

/-- The test of `pid2proc` is the family, for a caller that is live. -/
theorem inFamily_iff (h : TableInv m) (ppid : Nat → Nat) (check : Bool) (hcur : cur ∈ m.procs) {q : Proc}
    (hq : q ∈ m.procs) :
    (check = true → InFamily ppid cur q) ↔ ¬ (check && q.desc != cur.desc && ppid q.desc != cur.pid) = true := by
  have hnodup : (m.procs.map Proc.desc).Nodup := h.descs.sublist (List.sublist_append_left ..)
  have hself : q = cur ↔ q.desc = cur.desc :=
    ⟨fun he => by rw [he], fun he => List.inj_on_of_nodup_map hnodup hq hcur he⟩
  unfold InFamily
  rw [hself]
  simp only [Bool.and_eq_true, bne_iff_ne, ne_eq, not_and, Decidable.not_not, and_imp]
  constructor
  · intro hfam hc hne
    exact (hfam hc).resolve_left hne
  · intro htest hc
    by_cases he : q.desc = cur.desc
    · exact .inl he
    · exact .inr (htest hc he)

/-- **One lookup** is safe exactly for the pids that have a slot, or need none. -/
theorem lookupOk_iff (h : TableInv m) (hcur : cur ∈ m.procs) :
    LookupOk m ppid cur pid check ↔ Slotted m pid := by
  constructor
  · rintro ⟨r, hok, _⟩
    by_contra hno
    simp only [Slotted, not_or, not_not] at hno
    obtain ⟨hpos, hle, hslot⟩ := hno
    exact pid2proc_empty hpos hle hslot r hok
  · intro hs
    by_cases hpos : pid = 0
    · refine ⟨some cur, if_pos hpos, fun p => ?_⟩
      simp [hpos, eq_comm]
    · by_cases hbig : NPROC < pid
      · -- no process has such a pid
        refine ⟨none, by unfold pid2proc; rw [if_neg hpos, if_pos hbig], fun p => ?_⟩
        simp only [reduceCtorEq, hpos, false_and, false_or, ne_eq, not_false_eq_true, true_and, false_iff, not_and]
        rintro ⟨hp, hpid, _⟩
        have := h.bound p hp
        omega
      · obtain ⟨d, hslot⟩ := Option.ne_none_iff_exists'.1 ((hs.resolve_left hpos).resolve_left hbig)
        have hp := h.named pid d hslot
        have hfam := inFamily_iff h ppid check hcur hp
        refine ⟨_, h.pid2proc_slot hslot hpos, fun p => ?_⟩
        have hnames : Names m pid p ↔ p = ⟨d, pid⟩ := by
          constructor
          · rintro ⟨_, hpid, hdesc⟩
            obtain rfl := Option.some.inj (hslot.symm.trans hdesc)
            cases p
            simp_all
          · rintro rfl
            exact ⟨hp, rfl, hslot⟩
        simp only [hpos, false_and, false_or, ne_eq, not_false_eq_true, true_and, hnames]
        split
        · next htest =>
          simp only [reduceCtorEq, false_iff, not_and]
          rintro rfl hc
          exact hfam.1 hc htest
        · next htest =>
          constructor
          · intro he
            obtain rfl := Option.some.inj he
            exact ⟨rfl, hfam.2 htest⟩
          · rintro ⟨rfl, _⟩
            rfl

end Lookups

/-- **Pids from user programs**: after any creations and destructions, a lookup is safe exactly if the pid is 0,
    beyond `NPROC`, or its slot is not null, and a call is safe exactly if all pids it looks up are of these. -/
theorem lookup_iff {ops : List Op} (hv : Meets step Valid procInit ops)
    (hrun : ops.foldlM step procInit = .ok m) (ppid : Nat → Nat) {cur : Proc} (hcur : cur ∈ m.procs) :
    (∀ (pid : BitVec 32) (check : Bool), LookupOk m ppid cur pid.toNat check ↔ Slotted m pid.toNat) ∧
      ∀ c : Call, (∀ q ∈ lookups m ppid cur c, LookupOk m ppid cur q.1 q.2) ↔
        ∀ q ∈ lookups m ppid cur c, Slotted m q.1 := by
  have h := run_tableInv hv hrun
  refine ⟨fun pid check => lookupOk_iff h hcur, fun c => ?_⟩
  constructor
  · exact fun hall q hq => (lookupOk_iff h hcur).1 (hall q hq)
  · exact fun hall q hq => (lookupOk_iff h hcur).2 (hall q hq)

/-- Two processes are created, and one of them is destroyed. -/
def twoAndOne : List Op :=
  [.create ⟨some 10, true, true⟩, .create ⟨some 20, true, true⟩, .destroy ⟨20, 1⟩]

theorem lookup_iff_twoAndOne :
    ∃ m, twoAndOne.foldlM step procInit = .ok m ∧
      (∀ (pid : BitVec 32) (check : Bool),
        LookupOk m (fun _ => 0) ⟨10, 0⟩ pid.toNat check ↔ Slotted m pid.toNat) ∧
      ∀ c : Call, (∀ q ∈ lookups m (fun _ => 0) ⟨10, 0⟩ c, LookupOk m (fun _ => 0) ⟨10, 0⟩ q.1 q.2) ↔
        ∀ q ∈ lookups m (fun _ => 0) ⟨10, 0⟩ c, Slotted m q.1 := by
  have hv : Meets step Valid procInit twoAndOne := by decide +kernel
  have hm : (twoAndOne.foldlM step procInit).toOption.any (fun m => decide ((⟨10, 0⟩ : Proc) ∈ m.procs)) = true := by
    decide +kernel
  obtain ⟨m, hrun, hcur⟩ := exists_eq_ok_and hm
  exact ⟨m, hrun, lookup_iff hv hrun _ hcur⟩

/-- **The slot of a dead process**: the process that is left looks up pid 1. -/
theorem lookup_dead : ¬ ∀ (ops : List Op) (m : ProcManager), Meets step Valid procInit ops →
    ops.foldlM step procInit = .ok m → ∀ (ppid : Nat → Nat), ∀ cur ∈ m.procs, ∀ (pid : BitVec 32) (check : Bool),
      LookupOk m ppid cur pid.toNat check := by
  intro hall
  have hv : Meets step Valid procInit twoAndOne := by decide +kernel
  have hm : (twoAndOne.foldlM step procInit).toOption.any
      (fun m => decide ((⟨10, 0⟩ : Proc) ∈ m.procs ∧ m.procTable 1 = none)) = true := by
    decide +kernel
  obtain ⟨m, hrun, hcur, hslot⟩ := exists_eq_ok_and hm
  obtain ⟨r, hok, _⟩ := hall twoAndOne m hv hrun (fun _ => 0) _ hcur 1#32 true
  exact pid2proc_empty (by decide) (by decide) hslot r hok

end WeiOS.Process.Lookup
