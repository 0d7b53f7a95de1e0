import Mathlib
import WeiOS.Fs.HeldInodes

/-!
# Reference Counts over Runs

The system calls on the counts of `HeldInodes`: each of them gives back what it takes, so between two
calls every count is the number of holders. The one exception is `mkdir` when it stops at the dots of
the new directory.

## Main results
- `refsExact_of_run`: a run in which `mkdir` never stops at the dots keeps all counts exact.
- `parent_left_behind`: a run in which it does.
-/

namespace WeiOS.Syscall

open WeiOS.Inode (T_DIR T_FILE T_DEV)
open WeiOS.Dir (Kern FsM Name CacheInv Got GotLocked AnyFault CreatLeaks namei namex ilock iunlock
  iput iunlockput)
open WeiOS.Lib (Triple addRef addRef_self addRef_apply addRef_add addRef_comm)

/-! ## §1 Processes up to their descriptors -/

/-- The same processes are alive, in the same working directories. -/
def SamePwd (P P' : Nat → Proc) : Prop :=
  ∀ p, (P' p).alive = (P p).alive ∧ (P' p).pwd = (P p).pwd

/-- `Held`, whatever the descriptors of the processes are. -/
def HeldBy (x : Option Nat) (L : Finset Nat) (w : Nat → Nat) (P : Nat → Proc) (s : Sys) : Prop :=
  ∃ P', SamePwd P P' ∧ Held x L w P' s

/-- Between two calls: the inodes are held by the files and by the working directories. -/
def RefsInv (s : Sys) : Prop := Held none ∅ (pwdRefs s.procs) s.procs s

section
variable {x : Option Nat} {L : Finset Nat} {w : Nat → Nat} {P : Nat → Proc} {p i : Nat}

theorem SamePwd.pwdRefs_eq {P' : Nat → Proc} (h : SamePwd P P') : pwdRefs P' = pwdRefs P := by
  funext i
  apply Lib.holders_congr
  intro p _
  rw [pwdOf, pwdOf, (h p).1, (h p).2]

theorem SamePwd.update {P' : Nat → Proc} (h : SamePwd P P') {q : Proc}
    (ha : q.alive = (P' p).alive) (hpwd : q.pwd = (P' p).pwd) :
    SamePwd P (Function.update P' p q) := by
  intro p'
  by_cases hp : p' = p
  · subst hp
    rw [Function.update_self, ha, hpwd]
    exact h p'
  · rw [Function.update_of_ne hp]
    exact h p'

/-- Between two calls the counts are exact, and conversely. -/
theorem RefsInv.refsExact {s : Sys} (h : RefsInv s) : RefsExact s := by
  intro i
  exact h.cache.ref i

theorem HeldBy.refsInv {s : Sys} (h : HeldBy none ∅ (pwdRefs P) P s) : RefsInv s := by
  obtain ⟨P', hP, h⟩ := h
  have hprocs := h.procs
  unfold RefsInv
  rw [hprocs, hP.pwdRefs_eq]
  exact h

/-- A triple for all process tables that differ in the descriptors only. -/
theorem heldBy_triple {α : Type} {m : SysM α} {Q : α → Sys → Prop}
    (h : ∀ P', SamePwd P P' → Triple (Held x L w P') m Q AnyStop) :
    Triple (HeldBy x L w P) m Q AnyStop := by
  apply Triple.exists_pre
  intro P'
  apply Triple.assume (fun s hs => hs.1)
  intro hP
  exact (h P' hP).pre fun s hs => hs.2

theorem Held.heldBy {s : Sys} {P' : Nat → Proc} (h : Held x L w P' s) (hP : SamePwd P P') :
    HeldBy x L w P s := ⟨P', hP, h⟩

theorem onKern_heldBy {α : Type} {m : FsM α} {v : α → Nat → Nat} {M : α → Finset Nat}
    (h : ∀ n : Nat → Nat, (∀ i, n i ≤ NFILE) →
      Triple (CacheInv (n + w) L) m (fun a => CacheInv (n + v a) (M a)) AnyFault) :
    Triple (HeldBy x L w P) (onKern m) (fun a => HeldBy x (M a) (v a) P) AnyStop :=
  heldBy_triple fun _ hP => (onKern_held h).post fun _ _ hs => hs.heldBy hP

theorem setFd_heldBy (fd : Nat) (f : Option Nat) :
    Triple (HeldBy x L w P) (setFd p fd f) (fun _ => HeldBy x L w P) AnyStop :=
  heldBy_triple fun _ hP => (setFd_held fd f).post fun _ _ hs => hs.heldBy (hP.update rfl rfl)

theorem setNOpfiles_heldBy (k : Nat) :
    Triple (HeldBy x L w P) (setNOpfiles p k) (fun _ => HeldBy x L w P) AnyStop :=
  heldBy_triple fun _ hP => (setNOpfiles_held k).post fun _ _ hs => hs.heldBy (hP.update rfl rfl)

theorem fileDup_heldBy (f : Nat) :
    Triple (HeldBy none L w P) (fileDup f) (fun _ => HeldBy none L w P) AnyStop :=
  heldBy_triple fun _ hP => (fileDup_held f).post fun _ _ hs => hs.2.heldBy hP

theorem fileClose_heldBy (hw : ∀ i, w i ≤ NPROC) (f : Nat) :
    Triple (HeldBy none ∅ w P) (fileClose f) (fun _ => HeldBy none ∅ w P) AnyStop :=
  heldBy_triple fun _ hP => (fileClose_held hw f).post fun _ _ hs => hs.heldBy hP

theorem fdAlloc_heldBy :
    Triple (HeldBy x L w P) (fdAlloc p) (fun _ => HeldBy x L w P) AnyStop := by
  apply Triple.peek
  intro t ht
  dsimp only
  split
  · exact Triple.ret fun s hs => hs
  · exact Triple.ret fun s hs => hs

/-! ## §2 Descriptors -/

theorem dup_heldBy (fd : Int) :
    Triple (HeldBy none L w P) (dup p fd) (fun _ => HeldBy none L w P) AnyStop := by
  have hdone : ∀ r : Int, Triple (HeldBy none L w P) (pure r : SysM Int)
      (fun _ => HeldBy none L w P) AnyStop := fun r => Triple.ret fun s hs => hs
  unfold dup
  split
  · exact hdone _
  apply Triple.peek
  intro t ht
  dsimp only
  split
  · exact hdone _
  split
  · exact hdone _
  apply fdAlloc_heldBy.seq
  intro r
  cases r with
  | none => exact hdone _
  | some fd2 =>
    apply (fileDup_heldBy _).seq
    intro f
    apply (setFd_heldBy _ _).seq
    intro _
    apply Triple.peek
    intro u hu
    apply (setNOpfiles_heldBy _).seq
    intro _
    exact hdone _

theorem closeFd_heldBy (hw : ∀ i, w i ≤ NPROC) (fd : Nat) :
    Triple (HeldBy none ∅ w P) (closeFd p fd) (fun _ => HeldBy none ∅ w P) AnyStop := by
  apply Triple.peek
  intro t ht
  split
  · exact Triple.ret fun s hs => hs
  apply (fileClose_heldBy hw _).seq
  intro _
  apply Triple.peek
  intro u hu
  exact setNOpfiles_heldBy _

theorem close_heldBy (hw : ∀ i, w i ≤ NPROC) (fd : Int) :
    Triple (HeldBy none ∅ w P) (close p fd) (fun _ => HeldBy none ∅ w P) AnyStop := by
  unfold close
  split
  · exact Triple.ret fun s hs => hs
  apply (closeFd_heldBy hw _).seq
  intro _
  apply (setFd_heldBy _ _).seq
  intro _
  exact Triple.ret fun s hs => hs

theorem dup2_heldBy (hw : ∀ i, w i ≤ NPROC) (oldfd newfd : Int) :
    Triple (HeldBy none ∅ w P) (dup2 p oldfd newfd) (fun _ => HeldBy none ∅ w P) AnyStop := by
  unfold dup2
  split
  · exact Triple.ret fun s hs => hs
  split
  · exact Triple.ret fun s hs => hs
  apply (closeFd_heldBy hw _).seq
  intro _
  apply Triple.peek
  intro t ht
  apply (setFd_heldBy _ _).seq
  intro _
  split
  · exact Triple.ret fun s hs => hs
  apply (fileDup_heldBy _).seq
  intro _
  apply Triple.peek
  intro u hu
  apply (setNOpfiles_heldBy _).seq
  intro _
  exact Triple.ret fun s hs => hs

theorem dupFiles_heldBy (son : Nat) (fds : List Nat) :
    Triple (HeldBy none L w P) (dupFiles p son fds) (fun _ => HeldBy none L w P) AnyStop := by
  induction fds with
  | nil => exact Triple.ret fun s hs => hs
  | cons fd fds ih =>
    refine Triple.seq (Q := fun _ => HeldBy none L w P) ?_ fun _ => ih
    apply Triple.peek
    intro t ht
    split
    · exact Triple.ret fun s hs => hs
    apply (fileDup_heldBy _).seq
    intro f
    exact setFd_heldBy _ _

theorem closeFiles_heldBy (hw : ∀ i, w i ≤ NPROC) (fds : List Nat) :
    Triple (HeldBy none ∅ w P) (closeFiles p fds) (fun _ => HeldBy none ∅ w P) AnyStop := by
  induction fds with
  | nil => exact Triple.ret fun s hs => hs
  | cons fd fds ih =>
    refine Triple.seq (Q := fun _ => HeldBy none ∅ w P) ?_ fun _ => ih
    apply Triple.peek
    intro t ht
    split
    · exact Triple.ret fun s hs => hs
    · exact fileClose_heldBy hw _

/-! ## §3 Inodes in hand -/

/-- `namei` and `namep` add one reference to what they return. -/
def withRef (w : Nat → Nat) : Option Nat → Nat → Nat
  | none => w
  | some i => addRef w i

theorem got_withRef {n : Nat → Nat} {r : Option Nat} {s : Kern} (h : Got (n + w) L r s) :
    CacheInv (n + withRef w r) L s := by
  cases r with
  | none => exact h
  | some i =>
    unfold withRef
    rw [← addRef_add]
    exact h

/-- A working directory has a reference. -/
theorem pwd_pos {n : Nat → Nat} (hp : p < NPROC) (ha : (P p).alive = true) :
    0 < (n + pwdRefs P) (P p).pwd := by
  have hpos : 0 < pwdRefs P (P p).pwd := by
    apply Lib.holders_pos_iff.2
    exact ⟨p, Finset.mem_range.2 hp, by rw [pwdOf, if_pos ha]⟩
  show 0 < n (P p).pwd + pwdRefs P (P p).pwd
  omega

theorem small_pwdRefs {n : Nat → Nat} {k : Nat} (hn : ∀ i, n i ≤ NFILE) (hk : k ≤ 100) :
    Dir.Small k (n + pwdRefs P) := by
  apply small_of_le hn
  intro i
  have := pwdRefs_le P i
  omega

theorem HeldBy.proc_alive {s : Sys} (h : HeldBy x L w P s) (p : Nat) :
    (s.procs p).alive = (P p).alive := by
  obtain ⟨P', hP, h⟩ := h
  rw [h.procs]
  exact (hP p).1

/-- The process itself is looked up in the table. -/
theorem HeldBy.proc_pwd {s : Sys} (h : HeldBy x L w P s) (p : Nat) :
    (s.procs p).pwd = (P p).pwd := by
  obtain ⟨P', hP, h⟩ := h
  rw [h.procs]
  exact (hP p).2

theorem namei_heldBy (hp : p < NPROC) (ha : (P p).alive = true) (pathname : Name) :
    Triple (HeldBy none ∅ (pwdRefs P) P) (onKern (Dir.namei (P p).pwd pathname))
      (fun r => HeldBy none ∅ (withRef (pwdRefs P) r) P) AnyStop := by
  apply onKern_heldBy (M := fun _ => ∅)
  intro n hn
  apply (Dir.namei_refs (small_pwdRefs hn (by omega)) (pwd_pos hp ha) pathname).post
  intro r s hs
  exact got_withRef hs

theorem ilock_heldBy :
    Triple (HeldBy x ∅ (addRef w i) P) (onKern (ilock i)) (fun _ => HeldBy x {i} (addRef w i) P)
      AnyStop := by
  apply onKern_heldBy (M := fun _ => {i}) (v := fun _ => addRef w i)
  intro n _
  exact Dir.ilock_empty (by simp)

/-- An inode that is unlocked stays valid. -/
theorem iunlock_heldBy :
    Triple (HeldBy x {i} w P) (onKern (iunlock i))
      (fun _ s => (s.kern.node i).valid = true ∧ HeldBy x ∅ w P s) AnyStop := by
  rintro s ⟨P', hP, hs⟩
  have hm := Dir.iunlock_singleton (E := AnyFault) s.kern hs.cache
  unfold onKern
  cases hr : iunlock i s.kern with
  | error e => trivial
  | ok r =>
    rw [hr] at hm
    exact ⟨hm.1, P', hP, hs.procs, ⟨hs.files.nodup, hs.files.free, hs.files.bound, hs.files.used,
      hs.files.fresh⟩, hm.2⟩

theorem iunlockput_heldBy :
    Triple (HeldBy none {i} (addRef (pwdRefs P) i) P) (onKern (iunlockput i))
      (fun _ => HeldBy none ∅ (pwdRefs P) P) AnyStop := by
  apply onKern_heldBy (M := fun _ => ∅) (v := fun _ => pwdRefs P)
  intro n hn
  rw [← addRef_add]
  exact Dir.iunlockput_singleton (small_pwdRefs hn (by omega))

/-- The last reference in hand is given back. -/
theorem iput_heldBy (hw : ∀ i, w i ≤ NPROC + 1) :
    Triple (HeldBy none ∅ (addRef w i) P) (onKern (iput i)) (fun _ => HeldBy none ∅ w P)
      AnyStop := by
  apply onKern_heldBy (M := fun _ => ∅) (v := fun _ => w)
  intro n hn
  rw [← addRef_add]
  exact Dir.iput_refs (small_of_le hn fun i => by have := hw i; omega) nofun

/-! ## §4 `open` -/

/-- The new file gets the inode, and the process the descriptor. -/
theorem install_heldBy {f fd flag : Nat} :
    Triple (fun s => (s.kern.node i).valid = true ∧ HeldBy (some f) ∅ (addRef w i) P s)
      (do
        let s ← get
        let v := s.files f
        setFile f
          { v with
            inode := some i
            type := (s.kern.node i).type
            offset := 0
            flag := (v.flag ||| flag) % 2 ^ 16 }
        setFd p fd (some f)
        setNOpfiles p (((← get).procs p).nOpfiles + 1)
        pure (fd : Int))
      (fun _ => HeldBy none ∅ w P) AnyStop := by
  apply Triple.read
  rintro t ⟨hvalid, P', hP, ht⟩
  have hset := installFile_held (L := ∅) (w := w) (P := P') (f := f)
    (v := { t.files f with
      inode := some i
      type := (t.kern.node i).type
      offset := 0
      flag := ((t.files f).flag ||| flag) % 2 ^ 16 })
    (ht.files.fresh f rfl).1 (ht.cache.typed i hvalid) rfl
  refine ((hset.post fun _ _ hs => hs.heldBy hP).pre ?_).seq fun _ => ?_
  · rintro s rfl
    exact ht
  apply (setFd_heldBy _ _).seq
  intro _
  apply Triple.peek
  intro u hu
  apply (setNOpfiles_heldBy _).seq
  intro _
  exact Triple.ret fun s hs => hs

theorem fileAlloc_heldBy :
    Triple (HeldBy none L w P) fileAlloc
      (fun r s => match r with
        | none => HeldBy none L w P s
        | some f => HeldBy (some f) L w P s) AnyStop := by
  apply heldBy_triple
  intro P' hP
  apply fileAlloc_held.post
  intro r s hs
  cases r with
  | none => exact hs.heldBy hP
  | some f => exact hs.heldBy hP

/-- The file that `open` gets is locked, and has one more reference. -/
theorem openInode_heldBy (hp : p < NPROC) (ha : (P p).alive = true) (pathname : Name) (flag : Nat) :
    Triple (HeldBy none ∅ (pwdRefs P) P) (onKern (openInode (P p).pwd pathname flag))
      (fun r => HeldBy none (match r with | none => ∅ | some i => {i}) (withRef (pwdRefs P) r) P)
      AnyStop := by
  apply onKern_heldBy
  intro n hn
  apply (openInode_refs (small_pwdRefs hn (by omega)) (pwd_pos hp ha) pathname flag).post
  intro r s hs
  cases r with
  | none => exact hs
  | some i =>
    unfold withRef
    rw [← addRef_add]
    exact hs

theorem open_heldBy (hp : p < NPROC) (ha : (P p).alive = true) (pathname : Name) (flag : Nat) :
    Triple (HeldBy none ∅ (pwdRefs P) P) (open_ p pathname flag)
      (fun _ => HeldBy none ∅ (pwdRefs P) P) AnyStop := by
  have hdone : ∀ r : Int, Triple (HeldBy none ∅ (pwdRefs P) P) (pure r : SysM Int)
      (fun _ => HeldBy none ∅ (pwdRefs P) P) AnyStop := fun r => Triple.ret fun s hs => hs
  unfold open_
  split
  · exact hdone _
  apply Triple.peek
  intro t ht
  rw [ht.proc_pwd]
  apply (openInode_heldBy hp ha pathname flag).seq
  intro r
  cases r with
  | none => exact hdone _
  | some i =>
    apply fdAlloc_heldBy.seq
    intro r
    cases r with
    | none => exact iunlockput_heldBy.seq fun _ => hdone _
    | some fd =>
      apply fileAlloc_heldBy.seq
      intro r
      cases r with
      | none => exact iunlockput_heldBy.seq fun _ => hdone _
      | some f =>
        apply iunlock_heldBy.seq
        intro _
        exact install_heldBy

/-! ## §5 Processes -/

/-- A process gets another working directory, or stops to have one. -/
theorem pwdRefs_update (hp : p < NPROC) (q : Proc) (j : Nat) :
    pwdRefs (Function.update P p q) j + (if pwdOf P p = some j then 1 else 0) =
      pwdRefs P j + (if (if q.alive then some q.pwd else none) = some j then 1 else 0) := by
  have h := Lib.holders_update (f := pwdOf P) (g := pwdOf (Function.update P p q)) (b := j)
    (Finset.mem_range.2 hp) (by
      intro p' _ hp'
      simp [pwdOf, Function.update_of_ne hp'])
  have hself : pwdOf (Function.update P p q) p = if q.alive then some q.pwd else none := by
    simp [pwdOf]
  rwa [hself] at h

/-- The fields of a process are written; only its liveness and its working directory count. -/
theorem setProc_heldBy {q r : Proc} (ha : q.alive = r.alive) (hpwd : q.pwd = r.pwd) :
    Triple (HeldBy none ∅ w P) (setProc p q)
      (fun _ => HeldBy none ∅ w (Function.update P p r)) AnyStop := by
  apply heldBy_triple
  intro P' hP
  apply (setProc_held _).post
  intro _ s hs
  apply hs.heldBy
  intro p'
  by_cases hp : p' = p
  · subst hp
    rw [Function.update_self, Function.update_self]
    exact ⟨ha, hpwd⟩
  · rw [Function.update_of_ne hp, Function.update_of_ne hp]
    exact hP p'

theorem chdir_heldBy (hp : p < NPROC) (ha : (P p).alive = true) (pathname : Name) :
    Triple (HeldBy none ∅ (pwdRefs P) P) (chdir p pathname) (fun _ => RefsInv) AnyStop := by
  have hdone : ∀ r : Int, Triple (HeldBy none ∅ (pwdRefs P) P) (pure r : SysM Int)
      (fun _ => RefsInv) AnyStop := fun r => Triple.ret fun s hs => hs.refsInv
  apply Triple.peek
  intro t ht
  dsimp only
  rw [ht.proc_pwd]
  apply (namei_heldBy hp ha pathname).seq
  intro r
  cases r with
  | none => exact hdone _
  | some i =>
    apply ilock_heldBy.seq
    intro _
    apply Triple.peek
    intro u hu
    split
    · exact iunlockput_heldBy.seq fun _ => hdone _
    · apply (iunlock_heldBy.post fun _ _ h => h.2).seq
      intro _
      obtain ⟨q, hqa, hqp⟩ : ∃ q : Proc, q.alive = true ∧ q.pwd = i :=
        ⟨{ P p with pwd := i }, ha, rfl⟩
      -- the reference in hand becomes the one of the working directory, and the old one is put back
      have hmove : addRef (pwdRefs P) i = addRef (pwdRefs (Function.update P p q)) (P p).pwd := by
        funext j
        have h := pwdRefs_update (P := P) hp q j
        simp only [pwdOf, ha, hqa, hqp, if_true, Option.some.injEq] at h
        simp only [addRef_apply]
        omega
      rw [hmove]
      apply (iput_heldBy fun j => (pwdRefs_le _ j).trans (Nat.le_succ _)).seq
      intro _
      apply Triple.peek
      intro v hv
      have hva : (v.procs p).alive = q.alive := by rw [hv.proc_alive, ha, hqa]
      apply (setProc_heldBy (q := { v.procs p with pwd := i }) (r := q) hva hqp.symm).seq
      intro _
      exact Triple.ret fun s hs => hs.refsInv

theorem fork_heldBy (hp : p < NPROC) (ha : (P p).alive = true) {son : Nat} (hson : son < NPROC)
    (hfree : (P son).alive = false) :
    Triple (HeldBy none ∅ (pwdRefs P) P) (fork p son) (fun _ => RefsInv) AnyStop := by
  have hne : p ≠ son := by
    rintro rfl
    simp [ha] at hfree
  unfold fork
  apply (setProc_heldBy (r := ⟨true, 0, fun _ => none, 0⟩) rfl rfl).seq
  intro _
  apply (dupFiles_heldBy son _).seq
  intro _
  apply Triple.peek
  intro t ht
  dsimp only
  have hpwd : (t.procs p).pwd = (P p).pwd := by
    rw [ht.proc_pwd, Function.update_of_ne hne]
  rw [hpwd]
  apply Triple.peek
  intro u hu
  have hlive : (u.procs son).alive = true := by
    rw [hu.proc_alive, Function.update_self]
  let q : Proc := ⟨true, (P p).pwd, fun _ => none, 0⟩
  apply (setProc_heldBy (q := { u.procs son with
    nOpfiles := (t.procs p).nOpfiles, pwd := (P p).pwd }) (r := q) hlive rfl).seq
  intro _
  rw [Function.update_idem]
  -- the son is one more process in the working directory of its parent
  have hmore : addRef (pwdRefs P) (P p).pwd = pwdRefs (Function.update P son q) := by
    funext j
    have h := pwdRefs_update (P := P) hson q j
    simp only [pwdOf, hfree, q, if_true, Option.some.injEq, Bool.false_eq_true, if_false,
      reduceCtorEq, add_zero] at h
    rw [addRef_apply, ← h]
  refine Triple.seq (onKern_heldBy (M := fun _ => ∅)
    (v := fun _ => addRef (pwdRefs P) (P p).pwd) ?_) fun _ => ?_
  · intro n hn
    rw [← addRef_add]
    exact (Dir.iref_refs (small_pwdRefs hn (by omega)) (pwd_pos hp ha)).post fun _ _ h => h.2
  · rw [hmore]
    exact Triple.ret fun s hs => hs.refsInv

theorem exit_heldBy (hp : p < NPROC) (ha : (P p).alive = true) :
    Triple (HeldBy none ∅ (pwdRefs P) P) (exit p) (fun _ => RefsInv) AnyStop := by
  unfold exit
  apply Triple.peek
  intro t ht
  split
  · exact Triple.fail trivial
  apply Triple.peek
  intro v hv
  obtain ⟨q, hqa, hqp⟩ : ∃ q : Proc, q.alive = false ∧ q.pwd = (P p).pwd :=
    ⟨{ P p with alive := false }, rfl, rfl⟩
  have hvp : (v.procs p).pwd = q.pwd := by rw [hv.proc_pwd, hqp]
  apply (setProc_heldBy (q := { v.procs p with alive := false }) (r := q) hqa.symm hvp).seq
  intro _
  apply (closeFiles_heldBy (pwdRefs_le P) _).seq
  intro _
  apply Triple.peek
  intro u hu
  have hpwd : (u.procs p).pwd = (P p).pwd := by
    rw [hu.proc_pwd, Function.update_self, hqp]
  rw [hpwd]
  -- the reference of the working directory is the only one that the process still has
  have hlast : pwdRefs P = addRef (pwdRefs (Function.update P p q)) (P p).pwd := by
    funext j
    have h := pwdRefs_update (P := P) hp q j
    simp only [pwdOf, ha, hqa, if_true, Option.some.injEq, Bool.false_eq_true, if_false,
      reduceCtorEq, add_zero] at h
    rw [addRef_apply, ← h]
  rw [hlast]
  apply (iput_heldBy fun j => (pwdRefs_le _ j).trans (Nat.le_succ _)).seq
  intro _
  exact (setNOpfiles_heldBy _).post fun _ _ hs => hs.refsInv

/-! ## §6 `exec` -/

/-- A step that only reads the locked file keeps what is known of the cache. -/
theorem loadProgram_refs {n : Nat → Nat} (hi : i ∈ L) (off size fuel j : Nat) :
    Triple (CacheInv n L) (loadProgram i off size fuel j) (fun _ => CacheInv n L) AnyFault := by
  induction fuel generalizing j with
  | zero => exact Triple.fail trivial
  | succ fuel ih =>
    unfold loadProgram
    split
    · generalize (if size - j < PGSIZE then size - j else PGSIZE) = nbytes
      apply Triple.peek
      intro s hs
      apply (Dir.readi_refs hi _ _ _).seq
      rintro ⟨r, d⟩
      dsimp only
      split
      · exact Triple.ret fun t ht => ht
      · exact ih _
    · exact Triple.ret fun t ht => ht

theorem loadSegments_refs {n : Nat → Nat} (hi : i ∈ L) (vm : Nat → Bool) (k j off : Nat) :
    Triple (CacheInv n L) (loadSegments i vm k j off) (fun _ => CacheInv n L) AnyFault := by
  have hdone : ∀ b : Bool, Triple (CacheInv n L) (pure b : FsM Bool) (fun _ => CacheInv n L)
      AnyFault := fun b => Triple.ret fun t ht => ht
  induction k generalizing j off with
  | zero => exact hdone _
  | succ k ih =>
    unfold loadSegments
    apply Triple.peek
    intro s hs
    apply (Dir.readi_refs hi _ _ _).seq
    rintro ⟨r, ph⟩
    dsimp only
    split
    · exact hdone _
    split
    · exact ih _ _
    split
    · exact hdone _
    split
    · exact hdone _
    split
    · exact hdone _
    apply (loadProgram_refs hi _ _ _ _).seq
    intro ok
    split
    · exact hdone _
    · exact ih _ _

theorem loadElf_refs {n : Nat → Nat} (hi : i ∈ L) (setupVm : Bool) (vm : Nat → Bool) :
    Triple (CacheInv n L) (loadElf i setupVm vm) (fun _ => CacheInv n L) AnyFault := by
  have hdone : ∀ b : Bool, Triple (CacheInv n L) (pure b : FsM Bool) (fun _ => CacheInv n L)
      AnyFault := fun b => Triple.ret fun t ht => ht
  apply Triple.peek
  intro s hs
  apply (Dir.readi_refs hi _ _ _).seq
  rintro ⟨r, elfh⟩
  dsimp only
  split
  · exact hdone _
  split
  · exact hdone _
  split
  · exact hdone _
  · exact loadSegments_refs hi vm _ _ _

/-- `exec` gives the file back. -/
theorem exec_refs {n : Nat → Nat} {pwd : Nat} (hn : Dir.Small 2 n) (hpwd : 0 < n pwd)
    (pathname : Name) (setupVm : Bool) (vm : Nat → Bool) (stack : Bool) :
    Triple (CacheInv n ∅) (exec pwd pathname setupVm vm stack) (fun _ => CacheInv n ∅)
      AnyFault := by
  apply (Dir.namei_refs hn hpwd pathname).seq
  intro r
  cases r with
  | none => exact Triple.ret fun s hs => hs
  | some i =>
    apply (Dir.ilock_empty (n := addRef n i) (by simp)).seq
    intro _
    apply (loadElf_refs (Finset.mem_singleton_self i) setupVm vm).seq
    intro loaded
    apply (Dir.iunlockput_singleton (hn.mono (by omega))).seq
    intro _
    exact Triple.ret fun s hs => hs

/-! ## §7 All calls -/

/-- A call into the file system that gives back what it takes. -/
theorem atPwd_heldBy {α : Type} {f : Nat → FsM α} (hp : p < NPROC) (ha : (P p).alive = true)
    (h : ∀ n pwd, Dir.Small 3 n → 0 < n pwd →
      Triple (CacheInv n ∅) (f pwd) (fun _ => CacheInv n ∅) AnyFault) :
    Triple (HeldBy none ∅ (pwdRefs P) P) (atPwd p f) (fun _ => RefsInv) AnyStop := by
  apply Triple.peek
  intro t ht
  rw [ht.proc_pwd]
  refine Triple.seq (onKern_heldBy (M := fun _ => ∅) (v := fun _ => pwdRefs P) ?_) fun _ => ?_
  · intro n hn
    exact h _ _ (small_pwdRefs hn (by omega)) (pwd_pos hp ha)
  · exact Triple.ret fun s hs => hs.refsInv

/-- The call of a process does not stop at the dots of a new directory. -/
def KeepsParent (p : Nat) (c : Call) (s : Sys) : Prop :=
  match c with
  | .mkdir pathname => ¬ CreatLeaks (s.procs p).pwd (cstr pathname) T_DIR 0 0 s.kern
  | _ => True

/-- `mkdir` gives back what it takes when it does not stop at the dots. -/
theorem mkdir_heldBy (hp : p < NPROC) (ha : (P p).alive = true) (pathname : Name) :
    Triple (fun s => KeepsParent p (.mkdir pathname) s ∧ HeldBy none ∅ (pwdRefs P) P s)
      (syscall p (.mkdir pathname)) (fun _ => RefsInv) AnyStop := by
  rintro s ⟨hkeep, P', hP, hs⟩
  have hkeep : ¬ CreatLeaks (s.procs p).pwd (cstr pathname) T_DIR 0 0 s.kern := hkeep
  have hm : ∀ x k, Dir.mkdir (s.procs p).pwd (cstr pathname) s.kern = .ok (x, k) →
      CacheInv (fileRefs s.files + pwdRefs P) ∅ k := by
    intro x k hr
    have hpwd : (s.procs p).pwd = (P p).pwd := by rw [hs.procs, (hP p).2]
    rw [hpwd] at hr hkeep
    obtain ⟨_, hk⟩ | ⟨hleak, _⟩ := Dir.creatAndPut_refs
      (small_pwdRefs (fileRefs_le s.files) (by omega)) (pwd_pos hp ha) hs.cache hr
    · exact hk
    · exact absurd hleak hkeep
  simp only [syscall, atPwd, effect, bind, StateT.bind, get, getThe, MonadStateOf.get, StateT.get,
    pure, StateT.pure, Except.bind, Except.pure, onKern]
  cases hr : Dir.mkdir (s.procs p).pwd (cstr pathname) s.kern with
  | error e => trivial
  | ok r =>
    have hk := hm r.1 r.2 hr
    have hheld : HeldBy none ∅ (pwdRefs P) P { s with kern := r.2 } :=
      ⟨P', hP, hs.procs, ⟨hs.files.nodup, hs.files.free, hs.files.bound, hs.files.used,
        hs.files.fresh⟩, hk⟩
    exact hheld.refsInv

theorem effect_refsInv {α : Type} {m : SysM α} {Q : Sys → Prop} {R : Sys → Prop}
    (h : Triple Q m (fun _ => R) AnyStop) : Triple Q (effect m) (fun _ => R) AnyStop := by
  apply h.seq
  intro _
  exact Triple.ret fun s hs => hs

/-- **Every call** gives back the references that it takes, if it does not stop at the dots. -/
theorem syscall_refsInv (hp : p < NPROC) (ha : (P p).alive = true) (c : Call)
    (hson : ∀ son, c = .fork son → son < NPROC ∧ (P son).alive = false) :
    Triple (fun s => KeepsParent p c s ∧ HeldBy none ∅ (pwdRefs P) P s) (syscall p c)
      (fun _ => RefsInv) AnyStop := by
  have hdrop : ∀ s, KeepsParent p c s ∧ HeldBy none ∅ (pwdRefs P) P s →
      HeldBy none ∅ (pwdRefs P) P s := fun s hs => hs.2
  have hdone : ∀ {α : Type} {m : SysM α},
      Triple (HeldBy none ∅ (pwdRefs P) P) m (fun _ => HeldBy none ∅ (pwdRefs P) P) AnyStop →
      Triple (HeldBy none ∅ (pwdRefs P) P) (effect m) (fun _ => RefsInv) AnyStop :=
    fun h => effect_refsInv (h.post fun _ _ hs => hs.refsInv)
  cases c with
  | mkdir pathname => exact mkdir_heldBy hp ha pathname
  | open_ pathname flag => exact (hdone (open_heldBy hp ha _ _)).pre hdrop
  | close fd => exact (hdone (close_heldBy (pwdRefs_le P) fd)).pre hdrop
  | dup fd => exact (hdone (dup_heldBy fd)).pre hdrop
  | dup2 oldfd newfd => exact (hdone (dup2_heldBy (pwdRefs_le P) oldfd newfd)).pre hdrop
  | fork son =>
    exact (effect_refsInv (fork_heldBy hp ha (hson son rfl).1 (hson son rfl).2)).pre hdrop
  | exit => exact (exit_heldBy hp ha).pre hdrop
  | chdir pathname => exact (effect_refsInv (chdir_heldBy hp ha _)).pre hdrop
  | link oldpname newpname =>
    exact (atPwd_heldBy hp ha fun n pwd hn hpwd => Dir.link_refs hn hpwd _ _).pre hdrop
  | unlink pathname =>
    exact (atPwd_heldBy hp ha fun n pwd hn hpwd => Dir.unlink_refs hn hpwd _).pre hdrop
  | mknod pathname major minor =>
    refine (atPwd_heldBy (f := fun pwd => Dir.mknod pwd (cstr pathname) (major % 2 ^ 16)
      (minor % 2 ^ 16)) hp ha fun n pwd hn hpwd => ?_).pre hdrop
    intro s hs
    cases hr : Dir.mknod pwd (cstr pathname) (major % 2 ^ 16) (minor % 2 ^ 16) s with
    | error e => trivial
    | ok r =>
      obtain ⟨_, hk⟩ | ⟨hleak, _⟩ := Dir.creatAndPut_refs hn hpwd hs hr
      · exact hk
      · exact absurd hleak (Dir.not_creatLeaks (by decide))
  | exec pathname setupVm vm stack =>
    exact (atPwd_heldBy hp ha fun n pwd hn hpwd =>
      exec_refs (hn.mono (by omega)) hpwd _ _ _ _).pre hdrop

end

/-! ## §8 Runs -/

/-- The call is allowed, and it does not stop at the dots of a new directory. -/
def KeepsRefs (s : Sys) (o : Op) : Prop :=
  Allowed s o ∧ KeepsParent o.proc o.call { s with kern := { s.kern with junk := o.junk } }

theorem step_refsInv {s s' : Sys} {o : Op} (hf : FilesInv s) (h : RefsInv s) (hk : KeepsRefs s o)
    (hstep : step s o = .ok s') : RefsInv s' := by
  obtain ⟨⟨ha, hcall⟩, hkeep⟩ := hk
  have hp : o.proc < NPROC := hf.1.bound o.proc ha
  have hson : ∀ son, o.call = .fork son → son < NPROC ∧ (s.procs son).alive = false := by
    intro son hc
    rwa [hc] at hcall
  have hheld : HeldBy none ∅ (pwdRefs s.procs) s.procs
      { s with kern := { s.kern with junk := o.junk } } :=
    ⟨s.procs, fun _ => ⟨rfl, rfl⟩, rfl, ⟨h.files.nodup, h.files.free, h.files.bound, h.files.used,
      h.files.fresh⟩, h.cache.congr rfl rfl⟩
  unfold step at hstep
  cases hm : syscall o.proc o.call { s with kern := { s.kern with junk := o.junk } } with
  | error e =>
    rw [hm] at hstep
    cases hstep
  | ok r =>
    rw [hm] at hstep
    obtain rfl : r.2 = s' := Except.ok.inj hstep
    exact (syscall_refsInv hp ha o.call hson).of_ok ⟨hkeep, hheld⟩ hm

theorem boot_refsInv (disk : Nat → Inode.Block) (devStructs : Nat → Inode.DevStruct)
    (devRead : Nat → Bool) (devIn : List (Option Name)) :
    RefsInv (boot disk devStructs devRead devIn) := by
  have hcount : fileRefs (boot disk devStructs devRead devIn).files +
      pwdRefs (boot disk devStructs devRead devIn).procs =
        fun i => if i = InodeCache.NINODE - 1 then 1 else 0 := by
    funext i
    have hfiles : fileRefs (boot disk devStructs devRead devIn).files i = 0 := by
      apply Lib.holders_eq_zero_iff.2
      intro f _
      simp [fileInode, boot]
    have hpwd : pwdRefs (boot disk devStructs devRead devIn).procs i =
        if i = InodeCache.NINODE - 1 then 1 else 0 := by
      have hone : (Finset.range NPROC).filter
          (fun p => pwdOf (boot disk devStructs devRead devIn).procs p = some i) =
            if i = InodeCache.NINODE - 1 then {0} else ∅ := by
        ext p
        by_cases hp : p = 0
        · subst hp
          by_cases hi : i = InodeCache.NINODE - 1
          · simp [pwdOf, boot, hi, NPROC]
          · simp [pwdOf, boot, hi, Ne.symm hi]
        · by_cases hi : i = InodeCache.NINODE - 1
          · simp [pwdOf, boot, hp, hi, NPROC]
          · simp [pwdOf, boot, hp, hi]
      unfold pwdRefs Lib.holders
      rw [hone]
      split <;> rfl
    rw [Pi.add_apply, hfiles, hpwd, Nat.zero_add]
  refine ⟨rfl, ⟨List.nodup_reverse.2 List.nodup_range, ?_, ?_, ?_, by simp [boot]⟩, ?_⟩
  · intro f hf
    exact ⟨by simpa [boot] using hf, rfl⟩
  · exact fun f hf => absurd hf (Nat.lt_irrefl 0)
  · exact fun f _ hf => absurd hf (Nat.lt_irrefl 0)
  · rw [hcount]
    exact boot_cache disk devStructs devRead devIn

/-- `namei` and `namep` add one reference to what they return, from every working directory. -/
theorem RefsInv.namexExact {s : Sys} (hf : FilesInv s) (h : RefsInv s) : NamexExact s := by
  intro p path parent r name k ha hr i
  have hgot := (Dir.namex_refs (small_pwdRefs (P := s.procs) (fileRefs_le s.files) (by omega))
    (pwd_pos (hf.1.bound p ha) ha) path parent (E := AnyFault)).of_ok h.cache hr
  have hbase := h.cache.ref i
  cases r with
  | none =>
    have hk := CacheInv.ref hgot i
    simp only [reduceCtorEq, if_false, add_zero]
    rw [hk, hbase]
  | some j =>
    have hk := CacheInv.ref hgot i
    rw [addRef_apply] at hk
    simp only [Option.some.injEq]
    rw [hk, hbase]

theorem refsInv_of_run (disk : Nat → Inode.Block) (devStructs : Nat → Inode.DevStruct)
    (devRead : Nat → Bool) (devIn : List (Option Name)) {os : List Op} {s : Sys}
    (hk : Lib.Meets step KeepsRefs (boot disk devStructs devRead devIn) os)
    (hrun : os.foldlM step (boot disk devStructs devRead devIn) = .ok s) :
    FilesInv s ∧ RefsInv s := by
  apply Lib.inv_of_foldlM (fun s => FilesInv s ∧ RefsInv s) _
    ⟨boot_filesInv disk devStructs devRead devIn, boot_refsInv disk devStructs devRead devIn⟩
    hk hrun
  rintro t o t' ⟨hf, hr⟩ ho hok
  have hf' := step_filesInv hf ho.1
  rw [hok] at hf'
  exact ⟨hf', step_refsInv hf hr ho hok⟩

/-- **Exact reference counts**: in every state that a run reaches without stopping at the dots of a new
    directory, every reference count is the number of holders, and path resolution adds one reference
    to the inode it returns and none to others. -/
theorem refsExact_of_run (disk : Nat → Inode.Block) (devStructs : Nat → Inode.DevStruct)
    (devRead : Nat → Bool) (devIn : List (Option Name)) {os : List Op} {s : Sys}
    (hk : Lib.Meets step KeepsRefs (boot disk devStructs devRead devIn) os)
    (hrun : os.foldlM step (boot disk devStructs devRead devIn) = .ok s) :
    RefsExact s ∧ NamexExact s := by
  have hinv := refsInv_of_run disk devStructs devRead devIn hk hrun
  exact ⟨hinv.2.refsExact, hinv.2.namexExact hinv.1⟩

/-! ## §9 A parent left behind

The directory `/a` is still open when it is removed through another in-memory inode. Its disk inode is
taken for the next directory, and `iget` finds the open one, whose block belongs to somebody else by
then: the dots are there already, and `creat` returns without its parent. -/

/-- The disk of `mkfs` with one empty directory `/a`, inode 3 in block 128. -/
def usedDisk (b : Nat) : Inode.Block :=
  if b = 122 then fun k =>
    if k < 64 then 0
    else if k < 128 then Inode.blockOf [T_DIR, 2 ^ 16, Inode.BLKSIZE, 127] (k - 64)
    else if k < 192 then 0
    else Inode.blockOf [T_DIR, 2 ^ 16, 32, 128] (k - 192)
  else if b = 126 then fun k => if k < 16 then 255 else if k = 16 then 1 else 0
  else if b = 127 then fun k =>
    if k < 32 then mkfsDisk 127 k else [(3 : BitVec 8), 0, 97].getD (k - 32) 0
  else if b = 128 then fun k => if k = 0 then 3 else mkfsDisk 127 k
  else mkfsDisk b

def usedBoot : Sys := boot usedDisk (fun _ => ⟨none⟩) (fun _ => false) []

/-- `/r/./././z`: every dot takes a free inode structure, until the oldest one is used again. -/
def dotsPath : Name := [47, 114, 47] ++ (List.replicate 58 [46, 47]).flatten ++ [122]

/-- The calls up to the last one. -/
def leakRun : List Op :=
  [⟨0, fun _ => 0, .unlink [47, 97, 47, 122]⟩, ⟨0, fun _ => 0, .open_ [47, 97] O_RDONLY⟩,
    ⟨0, fun _ => 0, .unlink [47, 97]⟩, ⟨0, fun _ => 0, .mkdir [47, 114]⟩,
    ⟨0, fun _ => 0, .unlink dotsPath⟩]

/-- `mkdir /q`. -/
def leakOp : Op := ⟨0, fun _ => 0, .mkdir [47, 113]⟩

/-- A test for `KeepsParent`. -/
def keepsParent (p : Nat) (c : Call) (s : Sys) : Bool :=
  match c with
  | .mkdir pathname =>
    match Dir.creatInode (s.procs p).pwd (cstr pathname) T_DIR 0 0 s.kern with
    | .ok (.fresh di _ i, k) =>
      match Dir.linkDots T_DIR di i k with
      | .ok (dots, _) => dots
      | .error _ => true
    | _ => true
  | _ => true

theorem keepsParent_sound {p : Nat} {c : Call} {s : Sys} (h : keepsParent p c s = true) :
    KeepsParent p c s := by
  cases c with
  | mkdir pathname =>
    rintro ⟨r, k, hr, hl⟩
    cases r with
    | done x => exact hl
    | fresh di name i =>
      obtain ⟨k', hk'⟩ := hl
      simp only [keepsParent] at h
      rw [hr] at h
      simp only at h
      rw [hk'] at h
      cases h
  | _ => trivial

/-- A run is tested step by step, and its last state with `f`. -/
def testRun (f : Sys → Bool) : Sys → List Op → Bool
  | s, [] => f s
  | s, o :: os =>
    decide (Allowed s o) && keepsParent o.proc o.call { s with kern := { s.kern with junk := o.junk } } &&
      match step s o with
      | .error _ => false
      | .ok s' => testRun f s' os

theorem testRun_sound {f : Sys → Bool} {os : List Op} {s : Sys} (h : testRun f s os = true) :
    Lib.Meets step KeepsRefs s os ∧ ∃ t, os.foldlM step s = .ok t ∧ f t = true := by
  induction os generalizing s with
  | nil => exact ⟨trivial, s, rfl, h⟩
  | cons o os ih =>
    simp only [testRun, Bool.and_eq_true, decide_eq_true_eq] at h
    obtain ⟨⟨ha, hk⟩, hrest⟩ := h
    cases hstep : step s o with
    | error e =>
      rw [hstep] at hrest
      cases hrest
    | ok s' =>
      rw [hstep] at hrest
      obtain ⟨hm, t, hfold, hf⟩ := ih hrest
      refine ⟨⟨⟨ha, keepsParent_sound hk⟩, ?_⟩, t, ?_, hf⟩
      · intro u hu
        rw [hstep] at hu
        exact Except.ok.inj hu ▸ hm
      · rw [List.foldlM_cons, hstep]
        exact hfold

theorem refsExact_of_run_sample :
    ∃ s, sampleRun.foldlM step mkfsBoot = .ok s ∧ RefsExact s ∧ NamexExact s := by
  obtain ⟨hm, s, hrun, _⟩ := testRun_sound (f := fun _ => true) (s := mkfsBoot)
    (show testRun _ mkfsBoot sampleRun = true by decide +kernel)
  exact ⟨s, hrun, refsExact_of_run _ _ _ _ hm hrun⟩

/-- The first entry of the new directory `i` is `.` for inode 2 already, and all locks are free that
    putting it back needs. -/
def dotTaken (i : Nat) (k : Kern) : Bool :=
  (k.node i).type == T_DIR && (k.node i).dev == 1 && decide (0 < (k.body i).fileSiz) &&
    match Dir.readi i k.junk 0 Dir.DIRENT k with
    | .ok ((r, d), k) =>
      r == 16 && Dir.direntIno d == 2 && Dir.direntName d == [46] &&
        match Dir.iget 1 2 k with
        | .ok (j, k) =>
          match Dir.iput j k with
          | .ok (_, k) =>
            match Dir.iunlockput i k with
            | .ok _ => true
            | .error _ => false
          | .error _ => false
        | .error _ => false
    | .error _ => false

/-- The last call fails at the dots. -/
def leakTest (s : Sys) : Bool :=
  (s.procs 0).alive &&
  match Dir.creatInode (s.procs 0).pwd [47, 113] T_DIR 0 0 { s.kern with junk := fun _ => 0 } with
  | .ok (.fresh _ _ i, k) => dotTaken i k
  | _ => false

theorem leakRun_tested : testRun leakTest usedBoot leakRun = true := by decide +kernel

/-- The new directory `i` has an entry `.` for another inode, so `dirlink` refuses to make it. -/
theorem dirlink_of_dotTaken {i : Nat} {k : Kern} (h : dotTaken i k = true) (ino : Nat) :
    ∃ k' k'', Dir.dirlink i [46] ino k = .ok (-1, k') ∧ iunlockput i k' = .ok (⟨⟩, k'') := by
  simp only [dotTaken, Bool.and_eq_true, beq_iff_eq, decide_eq_true_eq] at h
  obtain ⟨⟨⟨htype, hdev⟩, hsize⟩, h⟩ := h
  split at h
  next r d k₁ hread =>
    simp only [Bool.and_eq_true, beq_iff_eq] at h
    obtain ⟨⟨⟨hr, hino⟩, hname⟩, h⟩ := h
    split at h
    next j k₂ hget =>
      split at h
      next k₃ hput =>
        split at h
        next k₄ hunlock =>
          refine ⟨k₃, k₄.2, ?_, hunlock⟩
          have hlook : Dir.dirlookup i [46] k = .ok ((0, some (j, 0)), k₂) := by
            show (if (k.node i).type ≠ T_DIR then _
              else Dir.dirlookupFrom i [46] ((k.body i).fileSiz / Dir.DIRENT + 2) 0 : FsM _) k = _
            rw [if_neg (not_not.2 htype)]
            show (if 0 < (k.body i).fileSiz then _ else _ : FsM _) k = _
            rw [if_pos hsize, Lib.run_bind_of_ok hread]
            dsimp only
            rw [if_neg (by simp [hr, Dir.DIRENT]), if_neg (by simp [hino]), if_pos (by rw [hname]; rfl),
              hino, hdev, Lib.run_bind_of_ok hget]
            rfl
          rw [Dir.dirlink, Lib.run_bind_of_ok hlook]
          dsimp only
          rw [if_pos rfl, Lib.run_bind_of_ok hput]
          rfl
        next => cases h
      next => cases h
    next => cases h
  next => cases h

/-- `mkdir` returns -1 and keeps the parent. -/
theorem mkdir_of_leakTest {s : Sys} (h : leakTest s = true) :
    ∃ k, Dir.mkdir (s.procs 0).pwd [47, 113] { s.kern with junk := fun _ => 0 } = .ok (-1, k) ∧
      CreatLeaks (s.procs 0).pwd [47, 113] T_DIR 0 0 { s.kern with junk := fun _ => 0 } := by
  simp only [leakTest, Bool.and_eq_true] at h
  replace h := h.2
  split at h
  next di name i k hcreat =>
    obtain ⟨k', k'', hlink, hput⟩ := dirlink_of_dotTaken h (k.node i).ino
    have hdots : Dir.linkDots T_DIR di i k = .ok (false, k') := by
      show (if T_DIR = T_DIR then _ else _ : FsM _) k = _
      rw [if_pos rfl]
      rw [Lib.run_bind_of_ok (show (get : FsM Kern) k = .ok (k, k) from rfl),
        Lib.run_bind_of_ok hlink]
      rfl
    refine ⟨k'', ?_, _, _, hcreat, k', hdots⟩
    have hrest : Dir.creatLink T_DIR (.fresh di name i) k = .ok (none, k'') := by
      show (Dir.linkDots T_DIR di i >>= _) k = _
      rw [Lib.run_bind_of_ok hdots]
      show (iunlockput i >>= _) k' = _
      rw [Lib.run_bind_of_ok hput]
      rfl
    have hall : Dir.creat (s.procs 0).pwd [47, 113] T_DIR 0 0 { s.kern with junk := fun _ => 0 } =
        .ok (none, k'') := by
      rw [Dir.creat, Lib.run_bind_of_ok hcreat, hrest]
    rw [Dir.mkdir, Dir.creatAndPut, Lib.run_bind_of_ok hall]
    rfl
  next => cases h

/-- **The parent is left behind**: after this run the root directory has one reference more than there
    are holders. -/
theorem parent_left_behind :
    ∃ s, (leakRun ++ [leakOp]).foldlM step usedBoot = .ok s ∧ ¬ RefsExact s := by
  obtain ⟨hmeets, t, hrun, htest⟩ := testRun_sound leakRun_tested
  have hinv := refsInv_of_run _ _ _ _ hmeets hrun
  have halive : (t.procs 0).alive = true := by
    simp only [leakTest, Bool.and_eq_true] at htest
    exact htest.1
  obtain ⟨k, hmkdir, hleak⟩ := mkdir_of_leakTest htest
  have hcache : CacheInv (fileRefs t.files + pwdRefs t.procs) ∅
      { t.kern with junk := fun _ => 0 } := hinv.2.cache.congr rfl rfl
  obtain ⟨hno, _⟩ | ⟨_, di, hk⟩ := Dir.creatAndPut_refs
    (small_pwdRefs (P := t.procs) (fileRefs_le t.files) (by omega))
    (pwd_pos (hinv.1.1.bound 0 halive) halive) hcache hmkdir
  · exact absurd hleak hno
  · refine ⟨{ t with kern := k }, ?_, ?_⟩
    · rw [List.foldlM_append, hrun]
      have hstep : step t leakOp = .ok { t with kern := k } := by
        simp only [step, syscall, leakOp, atPwd, effect, onKern, bind, StateT.bind, get, getThe,
          MonadStateOf.get, StateT.get, pure, StateT.pure, Except.bind, Except.pure]
        rw [show cstr [47, 113] = [47, 113] from rfl, hmkdir]
        rfl
      show (List.foldlM step t [leakOp]) = _
      rw [List.foldlM_cons, hstep]
      rfl
    · intro hexact
      have hdi := hexact di
      have hone := hk.ref di
      rw [addRef_self] at hone
      have hsum : (k.node di).ref = fileRefs t.files di + pwdRefs t.procs di := hdi
      rw [Pi.add_apply] at hone
      omega

end WeiOS.Syscall
