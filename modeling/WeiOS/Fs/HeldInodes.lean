import Mathlib
import WeiOS.Fs.InodeRefs
import WeiOS.Fs.OpenFiles

/-!
# Who Holds an Inode

Between two calls an inode is held by open files and by the working directories of the processes that
have not exited, and its reference count is the number of these holders. One path breaks this: when
`mkdir` cannot make the entries of the new directory, `creat` keeps the parent locked and referenced.

## Main results
- `fileClose_held`: closing a file gives its inode back with the last reference.
- `openInode_refs`: the inode that `open` gets is locked, and has one more reference.
-/

namespace WeiOS.Syscall

open WeiOS.Inode (T_DIR T_FILE)
open WeiOS.Dir (Kern FsM Name CacheInv Got GotLocked Small AnyFault CreatLeaks namei namex ilock
  iunlock iput iunlockput creat readi)
open WeiOS.Lib (Triple holders addRef addRef_self addRef_apply addRef_add addRef_comm)

/-! ## §1 Holders -/

/-- The inode that a file in use points to; a pipe has none. -/
def fileInode (F : Nat → File) (f : Nat) : Option Nat :=
  if 0 < (F f).ref then (F f).inode else none

/-- The working directory of a process that has not exited. -/
def pwdOf (P : Nat → Proc) (p : Nat) : Option Nat :=
  if (P p).alive then some (P p).pwd else none

/-- The number of open files for an inode, and the number of processes that work in it. -/
def fileRefs (F : Nat → File) (i : Nat) : Nat := holders (Finset.range NFILE) (fileInode F) i
def pwdRefs (P : Nat → Proc) (i : Nat) : Nat := holders (Finset.range NPROC) (pwdOf P) i

/-- Every reference count is the number of holders. -/
def RefsExact (s : Sys) : Prop :=
  ∀ i, (s.kern.node i).ref = fileRefs s.files i + pwdRefs s.procs i

/-- In this state `namei` and `namep`, from any working directory in use, add one reference to the
    inode they return and none to others, also when they fail. -/
def NamexExact (s : Sys) : Prop :=
  ∀ p path parent r name k, (s.procs p).alive = true →
    namex (s.procs p).pwd path parent s.kern = .ok ((r, name), k) →
    ∀ i, (k.node i).ref = (s.kern.node i).ref + if r = some i then 1 else 0

/-! ## §2 Files -/

/-- The file table; `x` is a file that was just allocated. -/
structure FileHold (x : Option Nat) (s : Sys) : Prop where
  nodup : s.flist.Nodup
  free : ∀ f ∈ s.flist, f < NFILE ∧ (s.files f).ref = 0
  bound : ∀ f, 0 < (s.files f).ref → f < NFILE
  used : ∀ f, x ≠ some f → 0 < (s.files f).ref →
    (s.files f).type ≠ FS_NONE ∧ ∃ i, (s.files f).inode = some i
  fresh : ∀ f, x = some f → 0 < (s.files f).ref ∧ (s.files f).inode = none

/-- The processes are `P`, and the inodes are held by the files and, beyond them, as `w` says; those in
    `L` are locked. -/
structure Held (x : Option Nat) (L : Finset Nat) (w : Nat → Nat) (P : Nat → Proc) (s : Sys) :
    Prop where
  procs : s.procs = P
  files : FileHold x s
  cache : CacheInv (fileRefs s.files + w) L s.kern

/-- Any fault is accepted here. -/
abbrev AnyStop : Fault → Prop := fun _ => True

section
variable {x : Option Nat} {L : Finset Nat} {w : Nat → Nat} {P : Nat → Proc} {p i : Nat}

theorem fileRefs_le (F : Nat → File) (i : Nat) : fileRefs F i ≤ NFILE := by
  have := Lib.holders_le (Finset.range NFILE) (fileInode F) i
  rwa [Finset.card_range] at this

theorem pwdRefs_le (P : Nat → Proc) (i : Nat) : pwdRefs P i ≤ NPROC := by
  have := Lib.holders_le (Finset.range NPROC) (pwdOf P) i
  rwa [Finset.card_range] at this

/-- There are at most as many holders as files and processes. -/
theorem small_of_le {n : Nat → Nat} {k : Nat} (hn : ∀ i, n i ≤ NFILE)
    (hw : ∀ i, w i + k ≤ NPROC + 100) : Small k (n + w) := by
  intro i
  have := hn i
  have := hw i
  simp only [Pi.add_apply, NFILE, NPROC] at *
  omega

/-- A call into the file system that leaves the counts of other holders alone. -/
theorem onKern_held {α : Type} {m : FsM α} {w' : α → Nat → Nat} {L' : α → Finset Nat}
    (h : ∀ n : Nat → Nat, (∀ i, n i ≤ NFILE) →
      Triple (CacheInv (n + w) L) m (fun a => CacheInv (n + w' a) (L' a)) AnyFault) :
    Triple (Held x L w P) (onKern m) (fun a => Held x (L' a) (w' a) P) AnyStop := by
  intro s hs
  have hm := h (fileRefs s.files) (fileRefs_le s.files) s.kern hs.cache
  unfold onKern
  cases hr : m s.kern with
  | error e => trivial
  | ok r =>
    rw [hr] at hm
    exact ⟨hs.procs, ⟨hs.files.nodup, hs.files.free, hs.files.bound, hs.files.used,
      hs.files.fresh⟩, hm⟩

theorem setProc_held (q : Proc) :
    Triple (Held x L w P) (setProc p q) (fun _ => Held x L w (Function.update P p q)) AnyStop := by
  apply Triple.update
  intro s hs
  exact ⟨by rw [hs.procs], ⟨hs.files.nodup, hs.files.free, hs.files.bound, hs.files.used,
    hs.files.fresh⟩, hs.cache⟩

theorem setFd_held (fd : Nat) (f : Option Nat) :
    Triple (Held x L w P) (setFd p fd f) (fun _ => Held x L w (Function.update P p
      { P p with openFileTable := Function.update (P p).openFileTable fd f })) AnyStop := by
  apply Triple.peek
  intro t ht
  rw [ht.procs]
  exact setProc_held _

theorem setNOpfiles_held (k : Nat) :
    Triple (Held x L w P) (setNOpfiles p k)
      (fun _ => Held x L w (Function.update P p { P p with nOpfiles := k })) AnyStop := by
  apply Triple.peek
  intro t ht
  rw [ht.procs]
  exact setProc_held _

/-- One file is written. -/
theorem fileRefs_update {F : Nat → File} {f : Nat} (hf : f < NFILE) (v : File) (i : Nat) :
    fileRefs (Function.update F f v) i + (if fileInode F f = some i then 1 else 0) =
      fileRefs F i + (if (if 0 < v.ref then v.inode else none) = some i then 1 else 0) := by
  have h := Lib.holders_update (g := fileInode (Function.update F f v)) (b := i)
    (Finset.mem_range.2 hf) (f := fileInode F)
    (by intro g _ hg; simp [fileInode, Function.update_of_ne hg])
  have hself : fileInode (Function.update F f v) f = if 0 < v.ref then v.inode else none := by
    simp [fileInode]
  rw [hself] at h
  exact h

/-- **One file is written**, and the free list changes with it. -/
theorem FileHold.write {x' : Option Nat} {s s' : Sys} (h : FileHold x s) {f : Nat} {v : File}
    (hf : f < NFILE) (hfiles : s'.files = Function.update s.files f v) (hnodup : s'.flist.Nodup)
    (hflist : ∀ g ∈ s'.flist, if g = f then v.ref = 0 else g ∈ s.flist)
    (hx : ∀ g, g ≠ f → x' ≠ some g → x ≠ some g)
    (hused : x' ≠ some f → 0 < v.ref → v.type ≠ FS_NONE ∧ ∃ i, v.inode = some i)
    (hfresh : ∀ g, x' = some g → g = f ∧ 0 < v.ref ∧ v.inode = none) : FileHold x' s' := by
  refine ⟨hnodup, ?_, ?_, ?_, ?_⟩
  · intro g hg
    have hfree := hflist g hg
    rw [hfiles]
    by_cases hgf : g = f
    · subst hgf
      rw [if_pos rfl] at hfree
      exact ⟨hf, by simpa using hfree⟩
    · rw [if_neg hgf] at hfree
      simpa [hgf] using h.free g hfree
  · intro g hg
    rw [hfiles] at hg
    by_cases hgf : g = f
    · rw [hgf]
      exact hf
    · exact h.bound g (by simpa [hgf] using hg)
  · intro g hxg hg
    rw [hfiles] at hg ⊢
    by_cases hgf : g = f
    · subst hgf
      simpa using hused hxg (by simpa using hg)
    · simpa [hgf] using h.used g (hx g hgf hxg) (by simpa [hgf] using hg)
  · intro g hg
    obtain ⟨rfl, hpos, hnone⟩ := hfresh g hg
    rw [hfiles]
    simpa using ⟨hpos, hnone⟩

/-- A file in use is not on the free list. -/
theorem FileHold.notMem {s : Sys} (h : FileHold x s) {f : Nat} (hf : 0 < (s.files f).ref) :
    f ∉ s.flist := by
  intro hmem
  have := (h.free f hmem).2
  omega

/-- **A file in use is written** and stays in use. -/
theorem FileHold.writeUsed {s s' : Sys} (h : FileHold x s) {f : Nat} {v : File}
    (hpos : 0 < (s.files f).ref) (hx : x = none ∨ x = some f)
    (hfiles : s'.files = Function.update s.files f v) (hflist : s'.flist = s.flist)
    (htype : v.type ≠ FS_NONE) (hi : v.inode = some i) : FileHold none s' := by
  apply h.write (h.bound f hpos) hfiles
  · rw [hflist]
    exact h.nodup
  · intro g hg
    rw [hflist] at hg
    rw [if_neg]
    · exact hg
    · rintro rfl
      exact h.notMem hpos hg
  · intro g hgf _
    obtain rfl | rfl := hx
    · simp
    · exact fun hfg => hgf (Option.some.inj hfg).symm
  · exact fun _ _ => ⟨htype, i, hi⟩
  · intro g hg
    cases hg

theorem fileDup_held (f : Nat) :
    Triple (Held none L w P) (fileDup f) (fun a s => a = f ∧ Held none L w P s) AnyStop := by
  apply Triple.read
  intro s hs
  dsimp only
  split
  · exact Triple.fail trivial
  · next href =>
    rintro t rfl
    have hpos : 0 < (t.files f).ref := Nat.pos_of_ne_zero href
    obtain ⟨htype, i, hi⟩ := hs.files.used f (by simp) hpos
    have hsame : fileRefs (Function.update t.files f { t.files f with ref := (t.files f).ref + 1 }) =
        fileRefs t.files := by
      funext i
      have h := fileRefs_update (F := t.files) (hs.files.bound f hpos)
        { t.files f with ref := (t.files f).ref + 1 } i
      rw [fileInode, if_pos hpos] at h
      simpa using h
    refine ⟨rfl, hs.procs, hs.files.writeUsed hpos (Or.inl rfl) rfl rfl htype hi, ?_⟩
    show CacheInv (fileRefs (Function.update t.files f _) + w) L t.kern
    rw [hsame]
    exact hs.cache

/-- A reference to a file is given up; with the last one its inode comes into the hand of the caller. -/
theorem fileRelease_held (f : Nat) :
    Triple (Held none ∅ w P) (fileRelease f)
      (fun r s => match r with
        | none => Held none ∅ w P s
        | some v => v.type ≠ FS_NONE ∧ ∃ i, v.inode = some i ∧ Held none ∅ (addRef w i) P s)
      AnyStop := by
  apply Triple.read
  intro s hs
  dsimp only
  split
  · exact Triple.fail trivial
  next href =>
  have hpos : 0 < (s.files f).ref := Nat.pos_of_ne_zero href
  have hf := hs.files.bound f hpos
  obtain ⟨htype, i, hi⟩ := hs.files.used f (by simp) hpos
  split
  · next hmore =>
    rintro t rfl
    have hsame : fileRefs (Function.update t.files f
        { t.files f with ref := (t.files f).ref - 1 }) = fileRefs t.files := by
      funext j
      have h := fileRefs_update (F := t.files) hf { t.files f with ref := (t.files f).ref - 1 } j
      rw [fileInode, if_pos hpos, if_pos hmore] at h
      simpa using h
    refine ⟨hs.procs, hs.files.writeUsed hpos (Or.inl rfl) rfl rfl htype hi, ?_⟩
    show CacheInv (fileRefs (Function.update t.files f _) + w) ∅ t.kern
    rw [hsame]
    exact hs.cache
  · rintro t rfl
    have hgone : addRef (fileRefs (Function.update t.files f
        { t.files f with ref := 0, type := FS_NONE })) i = fileRefs t.files := by
      funext j
      have h := fileRefs_update (F := t.files) hf { t.files f with ref := 0, type := FS_NONE } j
      rw [fileInode, if_pos hpos, hi] at h
      rw [addRef_apply]
      simp only [lt_self_iff_false, if_false, reduceCtorEq, Option.some.injEq] at h
      omega
    refine ⟨htype, i, hi, hs.procs, ?_, ?_⟩
    · refine hs.files.write hf rfl ?_ ?_ (fun _ _ _ => by simp) ?_ (fun g hg => by cases hg)
      · exact List.nodup_cons.2 ⟨hs.files.notMem hpos, hs.files.nodup⟩
      · intro g hg
        split
        · rfl
        · next hgf => exact (List.mem_cons.1 hg).resolve_left hgf
      · intro _ h0
        exact absurd h0 (Nat.lt_irrefl 0)
    · show CacheInv (fileRefs (Function.update t.files f _) + addRef w i) ∅ t.kern
      rw [← addRef_add, add_comm, addRef_add, hgone, add_comm]
      exact hs.cache

/-- `file_close` gives back the inode with the last reference to the file. -/
theorem fileClose_held (hw : ∀ i, w i ≤ NPROC) (f : Nat) :
    Triple (Held none ∅ w P) (fileClose f) (fun _ => Held none ∅ w P) AnyStop := by
  apply (fileRelease_held f).seq
  intro r
  cases r with
  | none => exact Triple.ret fun s hs => hs
  | some v =>
    apply Triple.assume (fun s hs => hs.1)
    intro htype
    dsimp only
    rw [if_neg htype]
    split
    · exact Triple.fail trivial
    obtain ⟨j, hv⟩ | hv := Option.eq_none_or_eq_some v.inode |>.symm
    · rw [hv]
      apply Triple.pre (P := Held none ∅ (addRef w j) P)
      · apply onKern_held
        intro n hn
        rw [← addRef_add]
        exact Dir.iput_refs (small_of_le hn fun i => by have := hw i; omega) fun _ => trivial
      · rintro s ⟨_, i, hi, hs⟩
        obtain rfl : j = i := Option.some.inj hi
        exact hs
    · rw [hv]
      exact Triple.fail trivial

/-- A new file does not point to an inode yet. -/
theorem fileAlloc_held :
    Triple (Held none L w P) fileAlloc
      (fun r s => match r with
        | none => Held none L w P s
        | some f => Held (some f) L w P s) AnyStop := by
  apply Triple.read
  intro s hs
  split
  · rintro t rfl
    exact hs
  cases hl : s.flist with
  | nil => exact Triple.fail trivial
  | cons f rest =>
    rintro t rfl
    have hnd := hs.files.nodup
    rw [hl] at hnd
    obtain ⟨hnotin, hrest⟩ := List.nodup_cons.1 hnd
    obtain ⟨hf, hzero⟩ := hs.files.free f (by simp [hl])
    have hsame : fileRefs (Function.update t.files f ⟨FS_NONE, 1, 0, 0, none⟩) =
        fileRefs t.files := by
      funext j
      have h := fileRefs_update (F := t.files) hf ⟨FS_NONE, 1, 0, 0, none⟩ j
      rw [fileInode, hzero] at h
      simpa using h
    refine ⟨hs.procs, ?_, ?_⟩
    · refine hs.files.write hf rfl hrest ?_ (fun _ _ _ => by simp) (fun h => absurd rfl h) ?_
      · intro g hg
        have hg : g ∈ rest := hg
        rw [if_neg]
        · simp [hl, hg]
        · rintro rfl
          exact hnotin hg
      · intro g hg
        exact ⟨(Option.some.inj hg).symm, Nat.one_pos, rfl⟩
    · show CacheInv (fileRefs (Function.update t.files f _) + w) L t.kern
      rw [hsame]
      exact hs.cache

/-- The new file takes over a reference that was in hand. -/
theorem installFile_held {f : Nat} {v : File} (hv : 0 < v.ref) (htype : v.type ≠ FS_NONE)
    (hi : v.inode = some i) :
    Triple (Held (some f) L (addRef w i) P) (setFile f v) (fun _ => Held none L w P) AnyStop := by
  apply Triple.update
  intro s hs
  obtain ⟨hpos, hnone⟩ := hs.files.fresh f rfl
  have hgot : fileRefs (Function.update s.files f v) = addRef (fileRefs s.files) i := by
    funext j
    have h := fileRefs_update (F := s.files) (hs.files.bound f hpos) v j
    rw [fileInode, if_pos hpos, hnone, if_pos hv, hi] at h
    rw [addRef_apply]
    simp only [reduceCtorEq, if_false, Option.some.injEq] at h
    omega
  refine ⟨hs.procs, hs.files.writeUsed hpos (Or.inr rfl) rfl rfl htype hi, ?_⟩
  show CacheInv (fileRefs (Function.update s.files f v) + w) L s.kern
  rw [hgot, add_comm, ← addRef_add, add_comm, addRef_add]
  exact hs.cache

/-! ## §3 Opening and executing a file -/

/-- `open` of a file that is there. -/
theorem openExisting_refs {E : Dir.Fault → Prop} [Dir.Calm E] {n : Nat → Nat} {pwd : Nat}
    (hn : Small 2 n) (hpwd : 0 < n pwd) (pathname : Name) (flag : Nat) :
    Triple (CacheInv n ∅)
      (do
        match ← namei pwd pathname with
        | none => pure none
        | some i => do
          let _ ← ilock i
          if ((← get).node i).type = T_DIR ∧ flag &&& O_RDONLY = 0 then
            iunlockput i
            pure none
          else pure (some i))
      (GotLocked n) E := by
  apply (Dir.namei_refs hn hpwd pathname).seq
  intro r
  cases r with
  | none => exact Triple.ret fun s hs => hs
  | some i =>
    apply (Dir.ilock_empty (by simp)).seq
    intro _
    apply Triple.peek
    intro s hs
    split
    · apply (Dir.iunlockput_singleton (hn.mono (by omega))).seq
      intro _
      exact Triple.ret fun s hs => hs
    · exact Triple.ret fun s hs => hs

/-- The inode that `open` gets is locked, and has one more reference. -/
theorem openInode_refs {n : Nat → Nat} {pwd : Nat} (hn : Small 3 n) (hpwd : 0 < n pwd)
    (pathname : Name) (flag : Nat) :
    Triple (CacheInv n ∅) (openInode pwd pathname flag) (GotLocked n) AnyFault := by
  unfold openInode
  split
  · intro s hs
    cases hr : creat pwd pathname T_FILE 0 0 s with
    | error e => trivial
    | ok r =>
      obtain ⟨_, hgot⟩ | ⟨hleak, _⟩ := Dir.creat_refs hn hpwd hs hr
      · exact hgot
      · exact absurd hleak (Dir.not_creatLeaks (by decide))
  · exact openExisting_refs (hn.mono (by omega)) hpwd pathname flag

end

/-! ## §4 The first state -/

/-- After `forkret` the root directory is referenced, and no other inode. -/
theorem boot_cache (disk : Nat → Inode.Block) (devStructs : Nat → Inode.DevStruct)
    (devRead : Nat → Bool) (devIn : List (Option Name)) :
    CacheInv (fun i => if i = InodeCache.NINODE - 1 then 1 else 0) ∅
      (boot disk devStructs devRead devIn).kern := by
  have hnode : ∀ i, (boot disk devStructs devRead devIn).kern.node i =
      if i = InodeCache.NINODE - 1 then ⟨Dir.ROOTDEV, Dir.ROOTINO, 1, false, 0, 0⟩
      else ⟨0, 0, 0, false, 0, 0⟩ := by
    intro i
    simp [Kern.node, boot, mount, Inode.readSuperblock, InodeCache.igetMiss,
      InodeCache.putInodeInHash, InodeCache.inodeInit, Function.update_apply]
  have hfree : (boot disk devStructs devRead devIn).kern.fs.icache.freeList =
      (List.range (InodeCache.NINODE - 1)).reverse := rfl
  refine ⟨rfl, ?_, ?_, ?_, ?_, ?_, by simp⟩
  · intro i
    rw [hnode]
    split <;> rfl
  · rw [hfree]
    exact List.nodup_reverse.2 List.nodup_range
  · intro i hi
    rw [hfree, List.mem_reverse, List.mem_range] at hi
    rw [if_neg (Nat.ne_of_lt hi)]
  · intro i hi
    rw [hnode] at hi
    split at hi <;> cases hi
  · intro i
    simp [boot]

end WeiOS.Syscall
