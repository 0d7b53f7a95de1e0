import Mathlib
import WeiOS.Lib.Holders
import WeiOS.Lib.Triple
import WeiOS.Fs.Syscall

/-!
# Accounting of Open Files

Every `struct file` counts the descriptors that point to it, the file table counts the files that are
in use, and every process counts its descriptors. The calls change these counters in different
orders, so inside a call they are compared with an explicit count `n`, and with the descriptor tables
only between calls.

## Main results
- `filesOk_of_run`: all counters are right between any two calls of any run, and the file table is
  never found corrupt.
-/

namespace WeiOS.Syscall

open WeiOS.Dir (FsM)
open WeiOS.Lib (Triple holders addRef addRef_self addRef_apply)

/-! ## §1 Counts -/

/-- The number of descriptors of a process for the file `f`; an exited process has none. -/
def fdCount (q : Proc) (f : Nat) : Nat :=
  if q.alive then holders (Finset.range NOFILE) q.openFileTable f else 0

/-- The number of descriptors of all processes for the file `f`. -/
def slots (P : Nat → Proc) (f : Nat) : Nat := ∑ p ∈ Finset.range NPROC, fdCount (P p) f

/-- The number of open descriptors of a process. -/
def nOpen (q : Proc) : Nat :=
  ((Finset.range NOFILE).filter fun fd => (q.openFileTable fd).isSome).card

/-- Between two calls all counters are right. -/
structure FilesOk (s : Sys) : Prop where
  ref : ∀ f < NFILE, (s.files f).ref = slots s.procs f
  free : ∀ p < NPROC, (s.procs p).alive → ∀ fd < NOFILE, ∀ f,
    (s.procs p).openFileTable fd = some f → f < NFILE ∧ f ∉ s.flist
  count : (s.nOpenfiles : Int) = NFILE - s.flist.length
  nOpfiles : ∀ p < NPROC, (s.procs p).alive → (s.procs p).nOpfiles = nOpen (s.procs p)

/-- The descriptors of one process change: only its own counts do. -/
theorem slots_update {P : Nat → Proc} {p : Nat} (hp : p < NPROC) (q : Proc) (f : Nat) :
    slots (Function.update P p q) f + fdCount (P p) f = slots P f + fdCount q f := by
  have hmem : p ∈ Finset.range NPROC := Finset.mem_range.2 hp
  have hrest : ∑ p' ∈ (Finset.range NPROC).erase p, fdCount (Function.update P p q p') f =
      ∑ p' ∈ (Finset.range NPROC).erase p, fdCount (P p') f := by
    apply Finset.sum_congr rfl
    intro p' hp'
    rw [Function.update_of_ne (Finset.ne_of_mem_erase hp')]
  unfold slots
  rw [← Finset.add_sum_erase _ _ hmem, ← Finset.add_sum_erase _ (fun p' => fdCount (P p') f) hmem,
    hrest, Function.update_self]
  omega

/-- A file in a descriptor table is counted. -/
theorem slots_pos {P : Nat → Proc} {p fd f : Nat} (hp : p < NPROC) (ha : (P p).alive = true)
    (hfd : fd < NOFILE) (h : (P p).openFileTable fd = some f) : 0 < slots P f := by
  have hq : 0 < fdCount (P p) f := by
    rw [fdCount, if_pos ha]
    exact Lib.holders_pos_iff.2 ⟨fd, Finset.mem_range.2 hfd, h⟩
  have := Finset.single_le_sum (f := fun p => fdCount (P p) f) (fun _ _ => Nat.zero_le _)
    (Finset.mem_range.2 hp)
  exact lt_of_lt_of_le hq this

/-- A descriptor that was not in use gets the file `f`. -/
theorem slots_open {P : Nat → Proc} {p fd f : Nat} (hp : p < NPROC) (ha : (P p).alive = true)
    (hfd : fd < NOFILE) (hnone : (P p).openFileTable fd = none) {q : Proc}
    (hq : q.alive = true) (htab : q.openFileTable =
      Function.update (P p).openFileTable fd (some f)) :
    slots (Function.update P p q) = addRef (slots P) f := by
  funext g
  have hs := slots_update (P := P) hp q g
  have hh := Lib.holders_update (g := q.openFileTable) (Finset.mem_range.2 hfd)
    (f := (P p).openFileTable) (by intro fd' _ hne; rw [htab, Function.update_of_ne hne]) g
  rw [fdCount, if_pos ha, fdCount, if_pos hq] at hs
  rw [hnone, htab, Function.update_self, ← htab] at hh
  rw [addRef_apply]
  simp only [reduceCtorEq, if_false, Option.some.injEq] at hh
  omega

/-- A descriptor for the file `f` is cleared. -/
theorem slots_close {P : Nat → Proc} {p fd f : Nat} (hp : p < NPROC) (ha : (P p).alive = true)
    (hfd : fd < NOFILE) (hsome : (P p).openFileTable fd = some f) {q : Proc}
    (hq : q.alive = true) (htab : q.openFileTable =
      Function.update (P p).openFileTable fd none) :
    addRef (slots (Function.update P p q)) f = slots P := by
  funext g
  have hs := slots_update (P := P) hp q g
  have hh := Lib.holders_update (g := q.openFileTable) (Finset.mem_range.2 hfd)
    (f := (P p).openFileTable) (by intro fd' _ hne; rw [htab, Function.update_of_ne hne]) g
  rw [fdCount, if_pos ha, fdCount, if_pos hq] at hs
  rw [hsome, htab, Function.update_self, ← htab] at hh
  rw [addRef_apply]
  simp only [reduceCtorEq, if_false, Option.some.injEq] at hh
  omega

/-- The descriptor table of a process does not change. -/
theorem slots_same {P : Nat → Proc} {p : Nat} (hp : p < NPROC) {q : Proc}
    (ha : q.alive = (P p).alive) (htab : q.openFileTable = (P p).openFileTable) :
    slots (Function.update P p q) = slots P := by
  funext g
  have hs := slots_update (P := P) hp q g
  rw [fdCount, fdCount, ha, htab] at hs
  omega

theorem nOpen_congr {q q' : Proc} (h : q.openFileTable = q'.openFileTable) :
    nOpen q = nOpen q' := by
  unfold nOpen
  rw [h]

theorem nOpen_eq_holders (q : Proc) :
    nOpen q = holders (Finset.range NOFILE) (fun fd => (q.openFileTable fd).map fun _ => ()) () := by
  unfold nOpen holders
  congr 1
  apply Finset.filter_congr
  intro fd _
  cases hq : q.openFileTable fd <;> simp [hq]

/-- One entry of a descriptor table changes. -/
theorem nOpen_update {q r : Proc} {fd : Nat} {x : Option Nat} (hfd : fd < NOFILE)
    (htab : r.openFileTable = Function.update q.openFileTable fd x) :
    nOpen r + (if (q.openFileTable fd).isSome then 1 else 0) =
      nOpen q + (if x.isSome then 1 else 0) := by
  have hh := Lib.holders_update (b := ()) (g := fun fd => (r.openFileTable fd).map fun _ => ())
    (Finset.mem_range.2 hfd) (f := fun fd => (q.openFileTable fd).map fun _ => ())
    (by intro fd' _ hne; simp only [htab, Function.update_of_ne hne])
  simp only [htab, Function.update_self] at hh
  rw [← htab] at hh
  rw [nOpen_eq_holders, nOpen_eq_holders]
  cases hq : q.openFileTable fd <;> cases x <;> simp_all

/-! ## §2 The file table -/

/-- The file table agrees with the count `n`, and the processes are `P`. -/
structure FileTab (n : Nat → Nat) (P : Nat → Proc) (s : Sys) : Prop where
  procs : s.procs = P
  ref : ∀ f, (s.files f).ref = n f
  nodup : s.flist.Nodup
  free : ∀ f ∈ s.flist, f < NFILE ∧ n f = 0
  count : s.nOpenfiles + s.flist.length = NFILE
  bound : ∀ f, 0 < n f → f < NFILE

/-- The file table is not found corrupt. -/
def NotCorrupt (e : Fault) : Prop := e ≠ .corruption

section
variable {n : Nat → Nat} {P : Nat → Proc}

/-- A free list that misses a file is not full. -/
theorem FileTab.length_lt {s : Sys} (h : FileTab n P s) {f : Nat} (hf : 0 < n f) :
    s.flist.length < NFILE := by
  have hsub : s.flist.toFinset ⊆ (Finset.range NFILE).erase f := by
    intro g hg
    have hg' := h.free g (List.mem_toFinset.1 hg)
    apply Finset.mem_erase.2
    refine ⟨?_, Finset.mem_range.2 hg'.1⟩
    rintro rfl
    omega
  have hcard := Finset.card_le_card hsub
  rw [List.toFinset_card_of_nodup h.nodup,
    Finset.card_erase_of_mem (Finset.mem_range.2 (h.bound f hf)), Finset.card_range] at hcard
  have : 0 < NFILE := by decide
  omega

/-- The calls into the file system do not touch files and processes. -/
theorem onKern_fileTab {α : Type} (m : FsM α) :
    Triple (FileTab n P) (onKern m) (fun _ => FileTab n P) NotCorrupt := by
  intro s hs
  unfold onKern
  cases hm : m s.kern with
  | error e => simp [NotCorrupt]
  | ok r => exact ⟨hs.procs, hs.ref, hs.nodup, hs.free, hs.count, hs.bound⟩

theorem setProc_fileTab (p : Nat) (q : Proc) :
    Triple (FileTab n P) (setProc p q) (fun _ => FileTab n (Function.update P p q)) NotCorrupt := by
  apply Triple.update
  intro s hs
  exact ⟨by rw [hs.procs], hs.ref, hs.nodup, hs.free, hs.count, hs.bound⟩

theorem setFd_fileTab (p fd : Nat) (x : Option Nat) :
    Triple (FileTab n P) (setFd p fd x) (fun _ => FileTab n (Function.update P p
      { P p with openFileTable := Function.update (P p).openFileTable fd x })) NotCorrupt := by
  apply Triple.read
  intro t ht
  have hP := ht.procs
  subst hP
  apply (setProc_fileTab p _).pre
  rintro s rfl
  exact ht

theorem setNOpfiles_fileTab (p k : Nat) :
    Triple (FileTab n P) (setNOpfiles p k)
      (fun _ => FileTab n (Function.update P p { P p with nOpfiles := k })) NotCorrupt := by
  apply Triple.read
  intro t ht
  have hP := ht.procs
  subst hP
  apply (setProc_fileTab p _).pre
  rintro s rfl
  exact ht

theorem fileDup_fileTab {f : Nat} (hf : 0 < n f) :
    Triple (FileTab n P) (fileDup f) (fun a s => a = f ∧ FileTab (addRef n f) P s) NotCorrupt := by
  apply Triple.read
  intro t ht
  have hne : (t.files f).ref ≠ 0 := by
    rw [ht.ref]
    omega
  rw [if_neg hne]
  rintro s rfl
  refine ⟨rfl, ht.procs, ?_, ht.nodup, ?_, ht.count, ?_⟩
  · intro g
    rw [addRef_apply, ← ht.ref g]
    by_cases hg : f = g
    · subst hg
      simp
    · simp [hg, Ne.symm hg]
  · intro g hg
    have := ht.free g hg
    have hne : f ≠ g := by
      rintro rfl
      omega
    simpa [addRef_apply, hne] using this
  · intro g hg
    rw [addRef_apply] at hg
    by_cases h : f = g
    · subst h
      exact ht.bound f hf
    · simp only [h, if_false, add_zero] at hg
      exact ht.bound g hg

/-- A reference is given up; the last one puts the file on the free list. -/
theorem fileRelease_fileTab (f : Nat) :
    Triple (FileTab (addRef n f) P) (fileRelease f) (fun _ => FileTab n P) NotCorrupt := by
  apply Triple.read
  intro t ht
  have href : (t.files f).ref = n f + 1 := by rw [ht.ref, addRef_self]
  rw [if_neg (by omega)]
  have hother : ∀ g, f ≠ g → (t.files g).ref = n g := by
    intro g hg
    rw [ht.ref, addRef_apply, if_neg hg, add_zero]
  have hbound : ∀ g, 0 < n g → g < NFILE := by
    intro g hg
    apply ht.bound
    rw [addRef_apply]
    omega
  have hnf : ∀ g ∈ t.flist, f ≠ g ∧ n g = 0 := by
    intro g hg
    have := (ht.free g hg).2
    rw [addRef_apply] at this
    split at this <;> grind
  by_cases hlast : 0 < (t.files f).ref - 1
  · rw [if_pos hlast]
    rintro s rfl
    refine ⟨ht.procs, ?_, ht.nodup, fun g hg => ⟨(ht.free g hg).1, (hnf g hg).2⟩, ht.count, hbound⟩
    intro g
    by_cases hg : f = g
    · subst hg
      simp [href]
    · simpa [Ne.symm hg] using hother g hg
  · rw [if_neg hlast]
    have hzero : n f = 0 := by omega
    have hlt := ht.length_lt (f := f) (by simp)
    rintro s rfl
    refine ⟨ht.procs, ?_, ?_, ?_, ?_, hbound⟩
    · intro g
      by_cases hg : f = g
      · subst hg
        simp [hzero]
      · simpa [Ne.symm hg] using hother g hg
    · exact List.nodup_cons.2 ⟨fun hmem => (hnf f hmem).1 rfl, ht.nodup⟩
    · intro g hg
      obtain rfl | hg := List.mem_cons.1 hg
      · exact ⟨ht.bound g (by simp), hzero⟩
      · exact ⟨(ht.free g hg).1, (hnf g hg).2⟩
    · have := ht.count
      simp only [List.length_cons]
      omega

theorem fileClose_fileTab (f : Nat) :
    Triple (FileTab (addRef n f) P) (fileClose f) (fun _ => FileTab n P) NotCorrupt := by
  apply (fileRelease_fileTab f).seq
  intro r
  cases r with
  | none => exact Triple.ret fun _ hs => hs
  | some v =>
    dsimp only
    split
    · exact Triple.ret fun _ hs => hs
    split
    · exact Triple.fail (by simp [NotCorrupt])
    cases v.inode with
    | none => exact Triple.fail (by simp [NotCorrupt])
    | some i => exact onKern_fileTab _

/-- A new file has one reference. -/
theorem fileAlloc_fileTab :
    Triple (FileTab n P) fileAlloc
      (fun r s => match r with
        | none => FileTab n P s
        | some f => FileTab (addRef n f) P s) NotCorrupt := by
  apply Triple.read
  intro t ht
  by_cases hfull : t.nOpenfiles = NFILE
  · rw [if_pos hfull]
    rintro s rfl
    exact ht
  rw [if_neg hfull]
  have hcount := ht.count
  cases hl : t.flist with
  | nil =>
    rw [hl] at hcount
    exact absurd (by simpa using hcount) hfull
  | cons f rest =>
    rw [hl, List.length_cons] at hcount
    have hnd := ht.nodup
    rw [hl] at hnd
    obtain ⟨hnotin, hrest⟩ := List.nodup_cons.1 hnd
    obtain ⟨hf, hzero⟩ := ht.free f (by simp [hl])
    rintro s rfl
    refine ⟨ht.procs, ?_, hrest, ?_, ?_, ?_⟩
    · intro g
      rw [addRef_apply]
      by_cases hg : f = g
      · subst hg
        simp [hzero]
      · simpa [hg, Ne.symm hg] using ht.ref g
    · intro g hg
      have hne : f ≠ g := by
        rintro rfl
        exact hnotin hg
      have := ht.free g (by simp [hl, hg])
      simpa [addRef_apply, hne] using this
    · show s.nOpenfiles + 1 + rest.length = NFILE
      omega
    · intro g hg
      by_cases h : f = g
      · subst h
        exact hf
      · rw [addRef_apply, if_neg h] at hg
        exact ht.bound g hg

/-- The other fields of a file may be written. -/
theorem setFile_fileTab (f : Nat) (v : File) (hv : v.ref = n f) :
    Triple (FileTab n P) (setFile f v) (fun _ => FileTab n P) NotCorrupt := by
  apply Triple.update
  intro s hs
  refine ⟨hs.procs, ?_, hs.nodup, hs.free, hs.count, hs.bound⟩
  intro g
  by_cases hg : g = f
  · subst hg
    simpa using hv
  · simpa [hg] using hs.ref g

end

/-! ## §3 Descriptors -/

/-- The processes of a state between two calls. -/
structure ProcsOk (P : Nat → Proc) : Prop where
  bound : ∀ p, (P p).alive → p < NPROC
  nOpfiles : ∀ p, (P p).alive → (P p).nOpfiles = nOpen (P p)

/-- The invariant between two calls. -/
def FilesInv (s : Sys) : Prop := ProcsOk s.procs ∧ FileTab (slots s.procs) s.procs s

theorem FilesInv.intro {P : Nat → Proc} {s : Sys} (hP : ProcsOk P) (hs : FileTab (slots P) P s) :
    FilesInv s := by
  have h := hs.procs
  subst h
  exact ⟨hP, hs⟩

theorem FilesInv.filesOk {s : Sys} (h : FilesInv s) : FilesOk s where
  ref f _ := h.2.ref f
  free p hp ha fd hfd f hf := by
    have hpos := slots_pos hp ha hfd hf
    refine ⟨h.2.bound f hpos, fun hmem => ?_⟩
    have := (h.2.free f hmem).2
    omega
  count := by
    have := h.2.count
    omega
  nOpfiles p _ ha := h.1.nOpfiles p ha

section
variable {n : Nat → Nat} {P : Nat → Proc} {p : Nat}

/-- One process gets a descriptor table and a counter that fit together. -/
theorem ProcsOk.update (hP : ProcsOk P) {q : Proc} (hbound : q.alive → p < NPROC)
    (hq : q.alive → q.nOpfiles = nOpen q) : ProcsOk (Function.update P p q) where
  bound p' ha := by
    by_cases h : p' = p
    · subst h
      exact hbound (by simpa using ha)
    · exact hP.bound p' (by simpa [h] using ha)
  nOpfiles p' ha := by
    by_cases h : p' = p
    · subst h
      simpa using hq (by simpa using ha)
    · simpa [h] using hP.nOpfiles p' (by simpa [h] using ha)

/-- `fd_alloc` finds a descriptor that is not in use. -/
theorem fdAlloc_fileTab :
    Triple (FileTab n P) (fdAlloc p)
      (fun r s => FileTab n P s ∧
        ∀ fd, r = some fd → fd < NOFILE ∧ (P p).openFileTable fd = none) NotCorrupt := by
  apply Triple.peek
  intro t ht
  rw [ht.procs]
  dsimp only
  split
  · exact Triple.ret fun s hs => ⟨hs, by simp⟩
  · apply Triple.ret
    intro s hs
    refine ⟨hs, fun fd hfd => ⟨?_, ?_⟩⟩
    · exact List.mem_range.1 (List.mem_of_find?_eq_some hfd)
    · simpa using List.find?_some hfd

/-- A file with a reference of its own goes into a free descriptor, and the process counts it. -/
theorem installFd (hP : ProcsOk P) (ha : (P p).alive = true) {fd f : Nat} (hfd : fd < NOFILE)
    (hnone : (P p).openFileTable fd = none) {α : Type} (a : α) :
    Triple (FileTab (addRef (slots P) f) P)
      (do
        setFd p fd (some f)
        setNOpfiles p (((← get).procs p).nOpfiles + 1)
        pure a)
      (fun _ => FilesInv) NotCorrupt := by
  apply (setFd_fileTab p fd (some f)).seq
  intro _
  apply Triple.peek
  intro t ht
  rw [ht.procs, Function.update_self]
  apply (setNOpfiles_fileTab p _).seq
  intro _
  apply Triple.ret
  intro s hs
  rw [Function.update_idem, Function.update_self] at hs
  have hp := hP.bound p ha
  rw [← slots_open hp ha hfd hnone (q := { P p with
    openFileTable := Function.update (P p).openFileTable fd (some f)
    nOpfiles := (P p).nOpfiles + 1 }) ha rfl] at hs
  apply FilesInv.intro _ hs
  apply hP.update fun _ => hp
  intro _
  have hn := nOpen_update (q := P p) (r := { P p with
    openFileTable := Function.update (P p).openFileTable fd (some f)
    nOpfiles := (P p).nOpfiles + 1 }) (x := some f) hfd rfl
  have := hP.nOpfiles p ha
  rw [hnone] at hn
  simp only [Option.isSome_none, Option.isSome_some, if_true, Bool.false_eq_true, if_false] at hn
  simp only
  omega

theorem dup_filesInv (hP : ProcsOk P) (ha : (P p).alive = true) (fd : Int) :
    Triple (FileTab (slots P) P) (dup p fd) (fun _ => FilesInv) NotCorrupt := by
  have hdone : ∀ r : Int, Triple (FileTab (slots P) P) (pure r : SysM Int) (fun _ => FilesInv)
      NotCorrupt := fun r => Triple.ret fun s hs => FilesInv.intro hP hs
  unfold dup
  split
  · exact hdone _
  next hbad =>
  have hfd : fd.toNat < NOFILE := by
    simp only [isBadFd, Bool.or_eq_true, decide_eq_true_eq, not_or] at hbad
    omega
  apply Triple.peek
  intro t ht
  rw [ht.procs]
  dsimp only
  cases hf : (P p).openFileTable fd.toNat with
  | none => exact hdone _
  | some f =>
    dsimp only
    split
    · exact hdone _
    apply fdAlloc_fileTab.seq
    intro r
    cases r with
    | none => exact (hdone _).pre fun s hs => hs.1
    | some fd2 =>
      apply Triple.assume (fun s hs => hs.2 fd2 rfl)
      rintro ⟨hfd2, hnone⟩
      -- the file has a descriptor, so it has a reference
      apply ((fileDup_fileTab (slots_pos (hP.bound p ha) ha hfd hf)).pre fun s hs => hs.1).seq
      intro g
      apply Triple.assume (fun s hs => hs.1)
      rintro rfl
      exact (installFd hP ha hfd2 hnone _).pre fun s hs => hs.2

/-- The processes when descriptor `fd` of process `p` is taken as unused. -/
def cleared (P : Nat → Proc) (p fd : Nat) : Nat → Proc :=
  Function.update P p { P p with openFileTable := Function.update (P p).openFileTable fd none }

/-- A descriptor is closed: its pointer is still there, but it counts as unused. -/
theorem closeFd_fileTab (hP : ProcsOk P) (ha : (P p).alive = true) {fd : Nat} (hfd : fd < NOFILE) :
    Triple (FileTab (slots P) P) (closeFd p fd)
      (fun _ s => ∃ P', (P' p).alive = true ∧ (P' p).openFileTable = (P p).openFileTable ∧
        ProcsOk (cleared P' p fd) ∧ FileTab (slots (cleared P' p fd)) P' s) NotCorrupt := by
  apply Triple.peek
  intro t ht
  rw [ht.procs]
  cases hf : (P p).openFileTable fd with
  | none =>
    apply Triple.ret
    intro s hs
    have hsame : cleared P p fd = P := by
      unfold cleared
      rw [← hf, Function.update_eq_self, Function.update_eq_self]
    refine ⟨P, ha, rfl, ?_, ?_⟩
    · rwa [hsame]
    · rwa [hsame]
  | some f =>
    have hp := hP.bound p ha
    let q : Proc := { P p with
      openFileTable := Function.update (P p).openFileTable fd none
      nOpfiles := (P p).nOpfiles - 1 }
    have hslots : addRef (slots (Function.update P p q)) f = slots P :=
      slots_close hp ha hfd hf ha rfl
    rw [← hslots]
    apply (fileClose_fileTab f).seq
    intro _
    apply Triple.peek
    intro u hu
    rw [hu.procs]
    apply (setNOpfiles_fileTab p _).post
    intro _ s hs
    obtain ⟨P', hP'⟩ : ∃ P', P' = Function.update P p
        { P p with nOpfiles := (P p).nOpfiles - 1 } := ⟨_, rfl⟩
    have hclr : cleared P' p fd = Function.update P p q := by
      unfold cleared
      rw [hP', Function.update_idem, Function.update_self]
    refine ⟨P', by simpa [hP'] using ha, by simp [hP'], ?_, by rw [hclr, hP']; exact hs⟩
    rw [hclr]
    apply hP.update fun _ => hp
    intro _
    have hn := nOpen_update (q := P p) (r := q) (x := none) hfd rfl
    have := hP.nOpfiles p ha
    rw [hf] at hn
    simp only [Option.isSome_none, Option.isSome_some, if_true, Bool.false_eq_true, if_false] at hn
    show (P p).nOpfiles - 1 = nOpen q
    omega

theorem isBadFd_eq_false {fd : Int} (h : isBadFd fd = false) : fd.toNat < NOFILE := by
  simp only [isBadFd, Bool.or_eq_false_iff, decide_eq_false_iff_not] at h
  omega

theorem close_filesInv (hP : ProcsOk P) (ha : (P p).alive = true) (fd : Int) :
    Triple (FileTab (slots P) P) (close p fd) (fun _ => FilesInv) NotCorrupt := by
  unfold close
  split
  · exact Triple.ret fun s hs => FilesInv.intro hP hs
  next hbad =>
  apply (closeFd_fileTab hP ha (isBadFd_eq_false (by simpa using hbad))).seq
  intro _
  apply Triple.exists_pre
  intro P'
  apply Triple.assume (fun s hs => hs.2.2.1)
  intro hP'
  apply ((setFd_fileTab p fd.toNat none).pre fun s hs => hs.2.2.2).seq
  intro _
  exact Triple.ret fun s hs => FilesInv.intro hP' hs

theorem dup2_filesInv (hP : ProcsOk P) (ha : (P p).alive = true) (oldfd newfd : Int) :
    Triple (FileTab (slots P) P) (dup2 p oldfd newfd) (fun _ => FilesInv) NotCorrupt := by
  have hdone : ∀ r : Int, Triple (FileTab (slots P) P) (pure r : SysM Int) (fun _ => FilesInv)
      NotCorrupt := fun r => Triple.ret fun s hs => FilesInv.intro hP hs
  unfold dup2
  split
  · exact hdone _
  next hbad =>
  split
  · exact hdone _
  next hne =>
  simp only [Bool.or_eq_true, not_or, Bool.not_eq_true] at hbad
  have hold := isBadFd_eq_false hbad.1
  have hnew := isBadFd_eq_false hbad.2
  have hfds : oldfd.toNat ≠ newfd.toNat := by
    simp only [isBadFd, Bool.or_eq_false_iff, decide_eq_false_iff_not] at hbad
    omega
  apply (closeFd_fileTab hP ha hnew).seq
  intro _
  apply Triple.exists_pre
  intro P'
  apply Triple.assume (fun s hs => And.intro hs.1 hs.2.2.1)
  rintro ⟨ha', hP'⟩
  apply Triple.pre (P := FileTab (slots (cleared P' p newfd.toNat)) P') _ fun s hs => hs.2.2.2
  apply Triple.peek
  intro t ht
  rw [ht.procs]
  dsimp only
  apply (setFd_fileTab p newfd.toNat _).seq
  intro _
  cases hf : (P' p).openFileTable oldfd.toNat with
  | none => exact Triple.ret fun s hs => FilesInv.intro hP' hs
  | some f =>
    dsimp only
    -- the source descriptor is another one, so the file still has a reference
    have hac : (cleared P' p newfd.toNat p).alive = true := by simpa [cleared] using ha'
    have hpos : 0 < slots (cleared P' p newfd.toNat) f := by
      apply slots_pos (hP'.bound p hac) hac hold
      simpa [cleared, Function.update_of_ne hfds] using hf
    apply (fileDup_fileTab hpos).seq
    intro _
    apply Triple.peek
    intro u hu
    rw [hu.2.procs]
    apply ((setNOpfiles_fileTab p _).pre fun s hs => hs.2).seq
    intro _
    apply Triple.ret
    intro s hs
    have hnone : (cleared P' p newfd.toNat p).openFileTable newfd.toNat = none := by simp [cleared]
    let q : Proc := { P' p with
      openFileTable := Function.update (P' p).openFileTable newfd.toNat (some f)
      nOpfiles := (P' p).nOpfiles + 1 }
    have htab : q.openFileTable =
        Function.update (cleared P' p newfd.toNat p).openFileTable newfd.toNat (some f) := by
      simp [q, cleared]
    have hP2 : Function.update (cleared P' p newfd.toNat) p q = Function.update P' p q := by
      unfold cleared
      rw [Function.update_idem]
    have hs' : FileTab (slots (Function.update P' p q)) (Function.update P' p q) s := by
      rw [← hP2, slots_open (hP'.bound p hac) hac hnew hnone (q := q) ha' htab, hP2]
      rw [Function.update_idem, Function.update_self] at hs
      exact hs
    apply FilesInv.intro _ hs'
    rw [← hP2]
    apply hP'.update fun _ => hP'.bound p hac
    intro _
    have hn := nOpen_update (q := cleared P' p newfd.toNat p) (r := q) hnew htab
    have hcount := hP'.nOpfiles p hac
    rw [hnone] at hn
    simp only [Option.isSome_none, Option.isSome_some, if_true, Bool.false_eq_true, if_false] at hn
    have hno : (cleared P' p newfd.toNat p).nOpfiles = (P' p).nOpfiles := by simp [cleared]
    show (P' p).nOpfiles + 1 = nOpen q
    omega

theorem open_filesInv (hP : ProcsOk P) (ha : (P p).alive = true) (pathname : Dir.Name)
    (flag : Nat) :
    Triple (FileTab (slots P) P) (open_ p pathname flag) (fun _ => FilesInv) NotCorrupt := by
  have hdone : ∀ r : Int, Triple (FileTab (slots P) P) (pure r : SysM Int) (fun _ => FilesInv)
      NotCorrupt := fun r => Triple.ret fun s hs => FilesInv.intro hP hs
  unfold open_
  split
  · exact hdone _
  apply Triple.peek
  intro _ _
  apply (onKern_fileTab _).seq
  intro r
  cases r with
  | none => exact hdone _
  | some i =>
    apply fdAlloc_fileTab.seq
    intro r
    cases r with
    | none =>
      apply ((onKern_fileTab _).pre fun s hs => hs.1).seq
      intro _
      exact hdone _
    | some fd =>
      apply Triple.assume (fun s hs => hs.2 fd rfl)
      rintro ⟨hfd, hnone⟩
      apply (fileAlloc_fileTab.pre fun s hs => hs.1).seq
      intro r
      cases r with
      | none =>
        apply (onKern_fileTab _).seq
        intro _
        exact hdone _
      | some f =>
        apply (onKern_fileTab _).seq
        intro _
        apply Triple.peek
        intro t ht
        dsimp only
        refine Triple.seq (setFile_fileTab f _ (by exact ht.ref f)) fun _ => ?_
        exact installFd hP ha hfd hnone _

/-- A process may get another working directory. -/
theorem setPwd_filesInv (hP : ProcsOk P) (ha : (P p).alive = true) (i : Nat) :
    Triple (FileTab (slots P) P) (setProc p { P p with pwd := i }) (fun _ => FilesInv)
      NotCorrupt := by
  apply (setProc_fileTab p _).post
  intro _ s hs
  have hp := hP.bound p ha
  rw [← slots_same hp (q := { P p with pwd := i }) rfl rfl] at hs
  apply FilesInv.intro _ hs
  apply hP.update fun _ => hp
  intro _
  exact (hP.nOpfiles p ha).trans (nOpen_congr rfl)

theorem chdir_filesInv (hP : ProcsOk P) (ha : (P p).alive = true) (pathname : Dir.Name) :
    Triple (FileTab (slots P) P) (chdir p pathname) (fun _ => FilesInv) NotCorrupt := by
  have hdone : ∀ r : Int, Triple (FileTab (slots P) P) (pure r : SysM Int) (fun _ => FilesInv)
      NotCorrupt := fun r => Triple.ret fun s hs => FilesInv.intro hP hs
  unfold chdir
  apply Triple.peek
  intro _ _
  apply (onKern_fileTab _).seq
  intro r
  cases r with
  | none => exact hdone _
  | some i =>
    apply (onKern_fileTab _).seq
    intro _
    apply Triple.peek
    intro _ _
    split
    · apply (onKern_fileTab _).seq
      intro _
      exact hdone _
    · apply (onKern_fileTab _).seq
      intro _
      apply (onKern_fileTab _).seq
      intro _
      apply Triple.peek
      intro t ht
      rw [ht.procs]
      apply (setPwd_filesInv hP ha i).seq
      intro _
      exact Triple.ret fun s hs => hs

/-! ## §4 Processes -/

/-- The processes while `son` takes over the descriptors of `q`: those in `fds` are still to come. -/
structure Forking (q : Proc) (son : Nat) (fds : List Nat) (P : Nat → Proc) : Prop where
  alive : (P son).alive = true
  bound : ∀ p, (P p).alive → p < NPROC
  nOpfiles : ∀ p ≠ son, (P p).alive → (P p).nOpfiles = nOpen (P p)
  table : ∀ fd < NOFILE, (P son).openFileTable fd = if fd ∈ fds then none else q.openFileTable fd

theorem dupFd_fileTab {q : Proc} {son fd : Nat} {fds : List Nat} (hne : p ≠ son)
    (hq : P p = q) (ha : q.alive = true) (hF : Forking q son (fd :: fds) P) (hfd : fd < NOFILE)
    (hnotin : fd ∉ fds) :
    Triple (FileTab (slots P) P) (dupFd p son fd)
      (fun _ s => ∃ P', P' p = q ∧ Forking q son fds P' ∧ FileTab (slots P') P' s) NotCorrupt := by
  apply Triple.peek
  intro t ht
  rw [ht.procs, hq]
  cases hf : q.openFileTable fd with
  | none =>
    apply Triple.ret
    intro s hs
    refine ⟨P, hq, ⟨hF.alive, hF.bound, hF.nOpfiles, fun fd' hfd' => ?_⟩, hs⟩
    rw [hF.table fd' hfd']
    by_cases h : fd' = fd
    · subst h
      simp [hf]
    · simp [h]
  | some f =>
    have hp : (P p).alive = true := by rw [hq, ha]
    have hpos : 0 < slots P f := slots_pos (hF.bound p hp) hp hfd (by rw [hq, hf])
    apply (fileDup_fileTab hpos).seq
    intro g
    apply Triple.assume (fun s hs => hs.1)
    rintro rfl
    apply ((setFd_fileTab son fd (some g)).pre fun s hs => hs.2).post
    intro _ s hs
    have hson := hF.bound son hF.alive
    have hnone : (P son).openFileTable fd = none := by
      rw [hF.table fd hfd]
      simp
    rw [← slots_open hson hF.alive hfd hnone (q := { P son with
      openFileTable := Function.update (P son).openFileTable fd (some g) }) hF.alive rfl] at hs
    refine ⟨_, ?_, ⟨?_, ?_, ?_, ?_⟩, hs⟩
    · rw [Function.update_of_ne hne, hq]
    · simpa using hF.alive
    · intro p' hp'
      by_cases h : p' = son
      · subst h
        exact hson
      · exact hF.bound p' (by simpa [h] using hp')
    · intro p' hne' hp'
      rw [Function.update_of_ne hne'] at hp' ⊢
      exact hF.nOpfiles p' hne' hp'
    · intro fd' hfd'
      rw [Function.update_self]
      by_cases h : fd' = fd
      · subst h
        simp [hnotin, hf]
      · simp [h, hF.table fd' hfd']

/-- The loop of `dup_proc_struct` copies the descriptors one after the other. -/
theorem dupFiles_fileTab {q : Proc} {son : Nat} (hne : p ≠ son) (ha : q.alive = true)
    {fds : List Nat} (hnd : fds.Nodup) (hlt : ∀ fd ∈ fds, fd < NOFILE) (hq : P p = q)
    (hF : Forking q son fds P) :
    Triple (FileTab (slots P) P) (dupFiles p son fds)
      (fun _ s => ∃ P', P' p = q ∧ Forking q son [] P' ∧ FileTab (slots P') P' s) NotCorrupt := by
  induction fds generalizing P with
  | nil => exact Triple.ret fun s hs => ⟨P, hq, hF, hs⟩
  | cons fd fds ih =>
    obtain ⟨hnotin, hnd⟩ := List.nodup_cons.1 hnd
    apply (dupFd_fileTab hne hq ha hF (hlt fd (by simp)) hnotin).seq
    intro _
    apply Triple.exists_pre
    intro P'
    apply Triple.assume (fun s hs => And.intro hs.1 hs.2.1)
    rintro ⟨hq', hF'⟩
    exact (ih hnd (fun fd' h => hlt fd' (by simp [h])) hq' hF').pre fun s hs => hs.2.2

/-- The last steps of `fork`: the son gets the counter of its parent. -/
theorem Forking.procsOk {q : Proc} {son : Nat} (hF : Forking q son [] P)
    (hq : q.nOpfiles = nOpen q) (pwd : Nat) :
    ProcsOk (Function.update P son { P son with nOpfiles := q.nOpfiles, pwd := pwd }) where
  bound p' ha := by
    by_cases h : p' = son
    · subst h
      exact hF.bound _ hF.alive
    · exact hF.bound p' (by simpa [h] using ha)
  nOpfiles p' ha := by
    by_cases h : p' = son
    · subst h
      rw [Function.update_self, hq]
      unfold nOpen
      congr 1
      apply Finset.filter_congr
      intro fd hfd
      simp [hF.table fd (Finset.mem_range.1 hfd)]
    · rw [Function.update_of_ne h] at ha ⊢
      exact hF.nOpfiles p' h ha

theorem fork_filesInv (hP : ProcsOk P) (ha : (P p).alive = true) {son : Nat} (hson : son < NPROC)
    (hfree : (P son).alive = false) :
    Triple (FileTab (slots P) P) (fork p son) (fun _ => FilesInv) NotCorrupt := by
  have hne : p ≠ son := by
    rintro rfl
    simp [ha] at hfree
  unfold fork
  apply (setProc_fileTab son _).seq
  intro _
  -- the new descriptor table is empty, so no count changes
  have hslots : slots (Function.update P son ⟨true, 0, fun _ => none, 0⟩) = slots P := by
    funext f
    have h := slots_update (P := P) hson ⟨true, 0, fun _ => none, 0⟩ f
    have hzero : fdCount ⟨true, 0, fun _ => none, 0⟩ f = 0 := by simp [fdCount, holders]
    rw [hzero, fdCount, hfree] at h
    simpa using h
  rw [← hslots]
  have hF : Forking (P p) son (List.range NOFILE)
      (Function.update P son ⟨true, 0, fun _ => none, 0⟩) := by
    refine ⟨by simp, ?_, ?_, ?_⟩
    · intro p' hp'
      by_cases h : p' = son
      · subst h
        exact hson
      · exact hP.bound p' (by simpa [h] using hp')
    · intro p' h hp'
      rw [Function.update_of_ne h] at hp' ⊢
      exact hP.nOpfiles p' hp'
    · intro fd hfd
      simp [hfd]
  apply (dupFiles_fileTab hne ha List.nodup_range (fun fd h => List.mem_range.1 h)
    (Function.update_of_ne hne _ _) hF).seq
  intro _
  apply Triple.exists_pre
  intro P'
  apply Triple.assume (fun s hs => And.intro hs.1 hs.2.1)
  rintro ⟨hq', hF'⟩
  apply Triple.pre (P := FileTab (slots P') P') _ fun s hs => hs.2.2
  apply Triple.peek
  intro t ht
  rw [ht.procs, hq']
  apply Triple.peek
  intro u hu
  rw [hu.procs]
  apply (setProc_fileTab son _).seq
  intro _
  rw [← slots_same (hF'.bound son hF'.alive) (q := { P' son with
    nOpfiles := (P p).nOpfiles, pwd := (P p).pwd }) rfl rfl]
  apply (onKern_fileTab _).seq
  intro _
  exact Triple.ret fun s hs => FilesInv.intro (hF'.procsOk (hP.nOpfiles p ha) _) hs

/-- The references of the descriptors `fds` that `exit` has still to give up. -/
def pending (q : Proc) (fds : List Nat) (n : Nat → Nat) : Nat → Nat :=
  fds.foldr (fun fd n => match q.openFileTable fd with
    | none => n
    | some f => addRef n f) n

theorem closeOnExit_fileTab {q : Proc} (hq : (P p).openFileTable = q.openFileTable) (fd : Nat)
    (fds : List Nat) :
    Triple (FileTab (pending q (fd :: fds) n) P) (closeOnExit p fd)
      (fun _ => FileTab (pending q fds n) P) NotCorrupt := by
  apply Triple.peek
  intro t ht
  rw [ht.procs, hq]
  unfold pending
  rw [List.foldr_cons]
  cases q.openFileTable fd with
  | none => exact Triple.ret fun s hs => hs
  | some f => exact fileClose_fileTab f

theorem closeFiles_fileTab {q : Proc} (hq : (P p).openFileTable = q.openFileTable)
    (fds : List Nat) :
    Triple (FileTab (pending q fds n) P) (closeFiles p fds) (fun _ => FileTab n P)
      NotCorrupt := by
  induction fds with
  | nil => exact Triple.ret fun s hs => hs
  | cons fd fds ih =>
    apply (closeOnExit_fileTab hq fd fds).seq
    intro _
    exact ih

/-- What is pending is what the descriptors hold. -/
theorem pending_apply (q : Proc) {fds : List Nat} (hnd : fds.Nodup) (f : Nat) :
    pending q fds n f = n f + holders fds.toFinset q.openFileTable f := by
  induction fds with
  | nil => simp [pending, holders]
  | cons fd fds ih =>
    obtain ⟨hnotin, hnd⟩ := List.nodup_cons.1 hnd
    have ih := ih hnd
    have hcons : holders (fd :: fds).toFinset q.openFileTable f =
        holders fds.toFinset q.openFileTable f + if q.openFileTable fd = some f then 1 else 0 := by
      unfold holders
      rw [List.toFinset_cons, Finset.filter_insert]
      split
      · rw [Finset.card_insert_of_notMem (by simp [hnotin])]
      · simp
    have hstep : pending q (fd :: fds) n f =
        pending q fds n f + if q.openFileTable fd = some f then 1 else 0 := by
      unfold pending
      rw [List.foldr_cons]
      cases q.openFileTable fd with
      | none => simp
      | some g => simp [addRef_apply]
    omega

theorem exit_filesInv (hP : ProcsOk P) (ha : (P p).alive = true) :
    Triple (FileTab (slots P) P) (exit p) (fun _ => FilesInv) NotCorrupt := by
  unfold exit
  apply Triple.peek
  intro _ _
  split
  · exact Triple.fail (by simp [NotCorrupt])
  apply Triple.peek
  intro t ht
  rw [ht.procs]
  apply (setProc_fileTab p _).seq
  intro _
  have hp := hP.bound p ha
  -- the dead process owns no descriptor, so all its references are pending
  have hslots : slots P = pending (P p) (List.range NOFILE)
      (slots (Function.update P p { P p with alive := false })) := by
    funext f
    have h := slots_update (P := P) hp { P p with alive := false } f
    rw [fdCount, if_pos ha, fdCount] at h
    rw [pending_apply _ List.nodup_range, List.toFinset_range]
    simpa using h.symm
  have hdead : ProcsOk (Function.update P p { P p with alive := false }) :=
    hP.update (fun h => absurd h (by simp)) (fun h => absurd h (by simp))
  rw [hslots]
  apply (closeFiles_fileTab (by simp) _).seq
  intro _
  apply Triple.peek
  intro _ _
  apply (onKern_fileTab _).seq
  intro _
  apply (setNOpfiles_fileTab p 0).post
  intro _ s hs
  rw [← slots_same hp (q := { Function.update P p { P p with alive := false } p with
    nOpfiles := 0 }) (by simp) (by simp)] at hs
  apply FilesInv.intro _ hs
  exact hdead.update (fun h => absurd h (by simp)) (fun h => absurd h (by simp))

theorem atPwd_filesInv {α : Type} (hP : ProcsOk P) (f : Nat → FsM α) :
    Triple (FileTab (slots P) P) (atPwd p f) (fun _ => FilesInv) NotCorrupt := by
  apply Triple.peek
  intro _ _
  apply (onKern_fileTab _).seq
  intro _
  exact Triple.ret fun s hs => FilesInv.intro hP hs

/-! ## §5 Runs -/

theorem effect_filesInv {α : Type} {m : SysM α}
    (h : Triple (FileTab (slots P) P) m (fun _ => FilesInv) NotCorrupt) :
    Triple (FileTab (slots P) P) (effect m) (fun _ => FilesInv) NotCorrupt := by
  apply h.seq
  intro _
  exact Triple.ret fun s hs => hs

/-- **Every call** keeps the counters right, and none of them finds the file table corrupt. -/
theorem syscall_filesInv (hP : ProcsOk P) (ha : (P p).alive = true) (c : Call)
    (hson : ∀ son, c = .fork son → son < NPROC ∧ (P son).alive = false) :
    Triple (FileTab (slots P) P) (syscall p c) (fun _ => FilesInv) NotCorrupt := by
  cases c with
  | open_ pathname flag => exact effect_filesInv (open_filesInv hP ha _ _)
  | close fd => exact effect_filesInv (close_filesInv hP ha fd)
  | dup fd => exact effect_filesInv (dup_filesInv hP ha fd)
  | dup2 oldfd newfd => exact effect_filesInv (dup2_filesInv hP ha oldfd newfd)
  | fork son => exact effect_filesInv (fork_filesInv hP ha (hson son rfl).1 (hson son rfl).2)
  | exit => exact exit_filesInv hP ha
  | chdir pathname => exact effect_filesInv (chdir_filesInv hP ha _)
  | link oldpname newpname =>
    unfold syscall
    exact atPwd_filesInv hP _
  | unlink pathname =>
    unfold syscall
    exact atPwd_filesInv hP _
  | mkdir pathname =>
    unfold syscall
    exact atPwd_filesInv hP _
  | mknod pathname major minor =>
    unfold syscall
    exact atPwd_filesInv hP _
  | exec pathname setupVm vm stack =>
    unfold syscall
    exact atPwd_filesInv hP _

end

theorem step_filesInv {s : Sys} {o : Op} (h : FilesInv s) (hA : Allowed s o) :
    match step s o with
    | .ok s' => FilesInv s'
    | .error e => NotCorrupt e := by
  have hson : ∀ son, o.call = .fork son → son < NPROC ∧ (s.procs son).alive = false := by
    intro son hc
    have := hA.2
    rwa [hc] at this
  have hT := syscall_filesInv h.1 hA.1 o.call hson
    { s with kern := { s.kern with junk := o.junk } }
    ⟨rfl, h.2.ref, h.2.nodup, h.2.free, h.2.count, h.2.bound⟩
  unfold step
  cases hm : syscall o.proc o.call { s with kern := { s.kern with junk := o.junk } } with
  | error e =>
    rw [hm] at hT
    exact hT
  | ok r =>
    rw [hm] at hT
    exact hT

theorem boot_filesInv (disk : Nat → Inode.Block) (devStructs : Nat → Inode.DevStruct)
    (devRead : Nat → Bool) (devIn : List (Option Dir.Name)) :
    FilesInv (boot disk devStructs devRead devIn) := by
  have hzero : ∀ f, slots (boot disk devStructs devRead devIn).procs f = 0 := by
    intro f
    apply Finset.sum_eq_zero
    intro p _
    simp [fdCount, boot, holders]
  refine ⟨⟨?_, ?_⟩, ⟨rfl, fun f => (hzero f).symm, ?_, fun f hf => ⟨?_, hzero f⟩, ?_, ?_⟩⟩
  · intro p hp
    have : p = 0 := by simpa [boot] using hp
    subst this
    decide
  · intro p _
    simp [boot, nOpen]
  · exact List.nodup_reverse.2 List.nodup_range
  · simpa [boot] using hf
  · simp [boot]
  · intro f hf
    rw [hzero] at hf
    omega

/-- **Open-file accounting**: wherever a run of calls leads, all counters are right, and no call that
    may come next finds the file table corrupt. -/
theorem filesOk_of_run (disk : Nat → Inode.Block) (devStructs : Nat → Inode.DevStruct)
    (devRead : Nat → Bool) (devIn : List (Option Dir.Name)) {os : List Op} {s : Sys}
    (hA : Lib.Meets step Allowed (boot disk devStructs devRead devIn) os)
    (hrun : os.foldlM step (boot disk devStructs devRead devIn) = .ok s) :
    FilesOk s ∧ ∀ o, Allowed s o → step s o ≠ .error .corruption := by
  have hinv : FilesInv s := by
    apply Lib.inv_of_foldlM FilesInv _ (boot_filesInv disk devStructs devRead devIn) hA hrun
    intro t o t' ht ho hok
    have := step_filesInv ht ho
    rwa [hok] at this
  refine ⟨hinv.filesOk, fun o ho herr => ?_⟩
  have := step_filesInv hinv ho
  rw [herr] at this
  exact this rfl

/-- The root directory is opened, the descriptor is copied twice, and a child closes its copies. -/
def sampleRun : List Op :=
  [⟨0, fun _ => 0, .open_ [47] O_RDONLY⟩, ⟨0, fun _ => 0, .dup 0⟩, ⟨0, fun _ => 0, .dup2 1 5⟩,
    ⟨0, fun _ => 0, .fork 7⟩, ⟨7, fun _ => 0, .close 0⟩, ⟨7, fun _ => 0, .dup2 3 1⟩,
    ⟨7, fun _ => 0, .exit⟩]

theorem filesOk_of_run_sample :
    ∃ s, sampleRun.foldlM step mkfsBoot = .ok s ∧
      FilesOk s ∧ ∀ o, Allowed s o → step s o ≠ .error .corruption := by
  obtain ⟨s, hs⟩ : ∃ s, (sampleRun.foldlM step mkfsBoot).toOption = some s :=
    Option.isSome_iff_exists.1 (by decide +kernel)
  have hrun := Lib.eq_ok_of_toOption hs
  exact ⟨s, hrun, filesOk_of_run _ _ _ _ (by decide +kernel) hrun⟩

end WeiOS.Syscall
