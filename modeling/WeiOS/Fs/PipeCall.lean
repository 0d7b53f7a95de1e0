import Mathlib
import WeiOS.Lib.Triple
import WeiOS.Fs.BlockOwner
import WeiOS.Fs.Syscall

/-!
# The Call `pipe`

`pipe` of `kern/sysfile.c` and `pipe_alloc` of `kern/pipe.c`. The two loops stop at slots that are in use, where free
slots are meant, and `pipe_alloc` gets pointers to these slots and overwrites them before it knows that it will
succeed. `n_opfiles` is never increased. When fewer than two slots are in use, one of the pointers leaves the table.

## Main results
- `pipe_iff`: the calls that take two free descriptors or none.
-/

namespace WeiOS.PipeCall

open WeiOS.Lib
open WeiOS.Syscall (File SysM NOFILE NFILE FS_NONE FS_PIPE O_RDONLY O_WRONLY fileAlloc fileRelease setFd onKern)

/-! ## §1 The source functions -/

/-- The kernel, and the `pipe` field of each file. -/
structure Sys where
  sys : Syscall.Sys
  pipeOf : Nat → Option Nat

inductive Fault where
  | sys (e : Syscall.Fault)
  | outOfBounds (fd : Nat)  -- a word behind `open_file_table`

abbrev PipeM := StateT Sys (Except Fault)

/-- A step that does not see the pipes. -/
def onSys {α : Type} (m : SysM α) : PipeM α := fun s =>
  match m s.sys with
  | .error e => .error (.sys e)
  | .ok (a, t) => .ok (a, { s with sys := t })

/-- `open_file_table[fd] = f` of process `p`, through a pointer. -/
def storeSlot (p fd : Nat) (f : Option Nat) : PipeM Unit :=
  if NOFILE ≤ fd then throw (.outOfBounds fd) else onSys (setFd p fd f)

/-- `open_file_table[fd]` of process `p`, through a pointer. -/
def loadSlot (p fd : Nat) : PipeM (Option Nat) := do
  if NOFILE ≤ fd then throw (.outOfBounds fd)
  else return ((← get).sys.procs p).openFileTable fd

/-- `file_close`; what `pipe_close` does to a pipe is not seen here. -/
def fileClose (f : Nat) : PipeM Unit := do
  match ← onSys (fileRelease f) with
  | none => pure ()
  | some v =>
    if v.type = FS_NONE ∨ v.type = FS_PIPE then pure ()
    else
      match v.inode with
      | none => throw (.sys (.fs .wild))
      | some i => onSys (onKern (Dir.iput i))

/-- One end of a new pipe. -/
def setEnd (f flag pipe : Nat) : PipeM Unit :=
  modify fun s =>
    let v := s.sys.files f
    { sys := { s.sys with files := Function.update s.sys.files f { v with type := FS_PIPE, flag := v.flag ||| flag } }
      pipeOf := Function.update s.pipeOf f (some pipe) }

/-- `if (*f) file_close(*f);` -/
def closeSlot (p fd : Nat) : PipeM Unit := do
  match ← loadSlot p fd with
  | none => pure ()
  | some f => fileClose f

/-- The label `pipe_alloc_failure`; the memory of the pipe is freed as well. -/
def pipeAllocFailure (p fd₁ fd₂ : Nat) : PipeM Bool := do
  closeSlot p fd₁
  closeSlot p fd₂
  return false

/-- `pipe_alloc`, with pointers to two slots; `mem` and `memData` are what `kmalloc` returns. -/
def pipeAlloc (p fd₁ fd₂ : Nat) (mem memData : Option Nat) : PipeM Bool := do
  storeSlot p fd₁ (← onSys fileAlloc)
  match ← loadSlot p fd₁ with
  | none => pipeAllocFailure p fd₁ fd₂
  | some f₁ =>
    storeSlot p fd₂ (← onSys fileAlloc)
    match ← loadSlot p fd₂ with
    | none => pipeAllocFailure p fd₁ fd₂
    | some f₂ =>
      match mem, memData with
      | some pipe, some _ =>
        setEnd f₁ O_RDONLY pipe
        setEnd f₂ O_WRONLY pipe
        return true
      | _, _ => pipeAllocFailure p fd₁ fd₂

/-- A loop of `pipe`, with `n` slots left: the first slot from `i` on that is in use. -/
def scan (table : Nat → Option Nat) : Nat → Nat → Nat
  | 0, i => i
  | n + 1, i => if (table i).isSome then i else scan table n (i + 1)

/-- `pipe` of process `p`: the two descriptors, or nothing for -1. -/
def pipe (p : Nat) (mem memData : Option Nat) : PipeM (Option (Nat × Nat)) := do
  let q := (← get).sys.procs p
  if (NOFILE : Int) - q.nOpfiles < 2 then return none
  else
    let fd₁ := scan q.openFileTable NOFILE 0
    let fd₂ := scan q.openFileTable (NOFILE - (fd₁ + 1)) (fd₁ + 1)
    if ← pipeAlloc p fd₁ fd₂ mem memData then return some (fd₁, fd₂)
    else return none

/-! ## §2 What the call is for -/

/-- **Two free descriptors or none**. -/
def PipeOk (p : Nat) (s : Sys) : Except Fault (Option (Nat × Nat) × Sys) → Prop
  | .error _ => False
  | .ok (some (fd₁, fd₂), s') =>
    fd₁ ≠ fd₂ ∧ fd₁ < NOFILE ∧ fd₂ < NOFILE ∧
      (s.sys.procs p).openFileTable fd₁ = none ∧ (s.sys.procs p).openFileTable fd₂ = none ∧
      (∀ fd, fd ≠ fd₁ → fd ≠ fd₂ → (s'.sys.procs p).openFileTable fd = (s.sys.procs p).openFileTable fd) ∧
      (s'.sys.procs p).nOpfiles = (s.sys.procs p).nOpfiles + 2
  | .ok (none, s') =>
    (∀ fd < NOFILE, (s'.sys.procs p).openFileTable fd = (s.sys.procs p).openFileTable fd) ∧
      (s'.sys.procs p).nOpfiles = (s.sys.procs p).nOpfiles ∧
      (∀ f, (s'.sys.files f).ref = (s.sys.files f).ref) ∧ s'.sys.nOpenfiles = s.sys.nOpenfiles

/-! ## §3 The slots -/

section Slots

variable {p fd fd₁ fd₂ : Nat} {x : Option Nat} {α : Type}

/-- The slot has this file. -/
def Holds (p fd : Nat) (x : Option Nat) (s : Sys) : Prop := (s.sys.procs p).openFileTable fd = x

/-- A loop that stops inside the table stops at a slot that is in use. -/
theorem scan_isSome (table : Nat → Option Nat) (n i : Nat) (h : scan table n i < i + n) :
    (table (scan table n i)).isSome = true := by
  induction n generalizing i with
  | zero => exact absurd h (Nat.lt_irrefl i)
  | succ n ih =>
    unfold scan at h ⊢
    split
    · assumption
    · next hfree =>
      rw [if_neg hfree] at h
      exact ih (i + 1) (by omega)

theorem le_scan (table : Nat → Option Nat) (n i : Nat) : i ≤ scan table n i := by
  induction n generalizing i with
  | zero => exact Nat.le_refl i
  | succ n ih =>
    unfold scan
    split
    · exact Nat.le_refl i
    · exact (Nat.le_succ i).trans (ih (i + 1))

/-- `file_alloc` takes a file from the free list, or none. -/
theorem fileAlloc_spec (P : Nat → Syscall.Proc) (free : List Nat) :
    Triple (fun t => t.procs = P ∧ t.flist = free) fileAlloc (fun o t => t.procs = P ∧ ∀ f ∈ o, f ∈ free)
      fun _ => True := by
  apply Triple.read
  rintro t ⟨hP, hfree⟩
  split
  · apply Triple.ret
    rintro s rfl
    exact ⟨hP, fun f hf => by cases hf⟩
  · cases hl : t.flist with
    | nil => exact Triple.fail trivial
    | cons f rest =>
      rintro s rfl
      refine ⟨hP, fun g hg => ?_⟩
      obtain rfl := Option.some.inj hg
      rw [← hfree, hl]
      exact List.mem_cons_self

theorem fileRelease_spec (P : Nat → Syscall.Proc) (f : Nat) :
    Triple (fun t => t.procs = P) (fileRelease f) (fun _ t => t.procs = P) fun _ => True := by
  apply Triple.read
  intro t hP
  dsimp only
  split
  · exact Triple.fail trivial
  · split
    · rintro s rfl
      exact hP
    · rintro s rfl
      exact hP

/-- A step that leaves the processes alone leaves the slots alone. -/
theorem onSys_holds {m : SysM α} (h : ∀ P, Triple (fun t => t.procs = P) m (fun _ t => t.procs = P) fun _ => True) :
    Triple (Holds p fd x) (onSys m) (fun _ => Holds p fd x) fun _ => True := by
  intro s hs
  unfold onSys
  cases hm : m s.sys with
  | error e => trivial
  | ok r =>
    have hprocs := (h s.sys.procs).of_ok rfl hm
    show (r.2.procs p).openFileTable fd = x
    rw [hprocs]
    exact hs

theorem fileClose_holds (f : Nat) :
    Triple (Holds p fd x) (fileClose f) (fun _ => Holds p fd x) fun _ => True := by
  apply (onSys_holds fun P => fileRelease_spec P f).seq
  intro o
  cases o with
  | none => exact Triple.ret fun _ hs => hs
  | some v =>
    dsimp only
    split
    · exact Triple.ret fun _ hs => hs
    · cases v.inode with
      | none => exact Triple.fail trivial
      | some i =>
        apply onSys_holds
        intro P t ht
        unfold onKern
        cases Dir.iput i t.kern with
        | error e => trivial
        | ok r => exact ht

theorem loadSlot_holds : Triple (Holds p fd x) (loadSlot p fd₁) (fun _ => Holds p fd x) fun _ => True := by
  unfold loadSlot
  split
  · exact Triple.fail trivial
  · exact Triple.peek fun t _ => Triple.ret fun _ hs => hs

/-- A store to a slot, and to another one. -/
theorem storeSlot_self {P : Sys → Prop} :
    Triple P (storeSlot p fd x) (fun _ => Holds p fd x) fun _ => True := by
  unfold storeSlot
  split
  · exact Triple.fail trivial
  · intro s _
    show (Function.update s.sys.procs p _ p).openFileTable fd = x
    rw [Function.update_self]
    exact Function.update_self ..

theorem storeSlot_other (hne : fd ≠ fd₂) (y : Option Nat) :
    Triple (Holds p fd x) (storeSlot p fd₂ y) (fun _ => Holds p fd x) fun _ => True := by
  unfold storeSlot
  split
  · exact Triple.fail trivial
  · intro s hs
    show (Function.update s.sys.procs p _ p).openFileTable fd = x
    rw [Function.update_self]
    show Function.update (s.sys.procs p).openFileTable fd₂ y fd = x
    rw [Function.update_of_ne hne]
    exact hs

theorem setEnd_holds (f flag pipe : Nat) :
    Triple (Holds p fd x) (setEnd f flag pipe) (fun _ => Holds p fd x) fun _ => True :=
  Triple.update fun _ hs => hs

theorem closeSlot_holds : Triple (Holds p fd x) (closeSlot p fd₁) (fun _ => Holds p fd x) fun _ => True := by
  apply loadSlot_holds.seq
  intro o
  cases o with
  | none => exact Triple.ret fun _ hs => hs
  | some f => exact fileClose_holds f

theorem pipeAllocFailure_holds :
    Triple (Holds p fd x) (pipeAllocFailure p fd₁ fd₂) (fun _ => Holds p fd x) fun _ => True := by
  apply closeSlot_holds.seq
  intro _
  apply closeSlot_holds.seq
  exact fun _ => Triple.ret fun _ hs => hs

/-- What comes after the store to the first slot. -/
theorem pipeAlloc_rest (hne : fd₁ ≠ fd₂) (mem memData : Option Nat) (f₁ : Nat) :
    Triple (Holds p fd₁ x) (do
      storeSlot p fd₂ (← onSys fileAlloc)
      match ← loadSlot p fd₂ with
      | none => pipeAllocFailure p fd₁ fd₂
      | some f₂ =>
        match mem, memData with
        | some pipe, some _ =>
          setEnd f₁ O_RDONLY pipe
          setEnd f₂ O_WRONLY pipe
          return true
        | _, _ => pipeAllocFailure p fd₁ fd₂) (fun _ => Holds p fd₁ x) fun _ => True := by
  have halloc : ∀ P, Triple (fun t => t.procs = P) fileAlloc (fun _ t => t.procs = P) fun _ => True := by
    intro P t ht
    have hspec := fileAlloc_spec P t.flist t ⟨ht, rfl⟩
    split at hspec
    · exact hspec.1
    · trivial
  apply (onSys_holds halloc).seq
  intro o
  apply (storeSlot_other hne o).seq
  intro _
  apply loadSlot_holds.seq
  intro o₂
  cases o₂ with
  | none => exact pipeAllocFailure_holds
  | some f₂ =>
    cases mem with
    | none => exact pipeAllocFailure_holds
    | some pipe =>
      cases memData with
      | none => exact pipeAllocFailure_holds
      | some _ =>
        apply (setEnd_holds f₁ O_RDONLY pipe).seq
        intro _
        apply (setEnd_holds f₂ O_WRONLY pipe).seq
        exact fun _ => Triple.ret fun _ hs => hs

/-- **The first slot is lost**: whatever comes after, it holds what `file_alloc` returned. -/
theorem pipeAlloc_slot (hne : fd₁ ≠ fd₂) (mem memData : Option Nat) (free : List Nat) :
    Triple (fun s => s.sys.flist = free) (pipeAlloc p fd₁ fd₂ mem memData)
      (fun _ s => ∃ x, Holds p fd₁ x s ∧ ∀ f ∈ x, f ∈ free) fun _ => True := by
  have halloc : Triple (fun s : Sys => s.sys.flist = free) (onSys fileAlloc) (fun o _ => ∀ f ∈ o, f ∈ free)
      fun _ => True := by
    intro s hs
    unfold onSys
    cases hm : fileAlloc s.sys with
    | error e => trivial
    | ok r => exact ((fileAlloc_spec s.sys.procs free).of_ok ⟨rfl, hs⟩ hm).2
  unfold pipeAlloc
  apply halloc.seq
  intro o
  apply Triple.assume (φ := ∀ f ∈ o, f ∈ free) (fun _ h => h)
  intro ho
  have hkeep : ∀ {m : PipeM Bool}, Triple (Holds p fd₁ o) m (fun _ => Holds p fd₁ o) (fun _ => True) →
      Triple (Holds p fd₁ o) m (fun _ s => ∃ x, Holds p fd₁ x s ∧ ∀ f ∈ x, f ∈ free) fun _ => True :=
    fun h => h.post fun _ s hs => ⟨o, hs, ho⟩
  apply storeSlot_self.seq
  intro _
  apply loadSlot_holds.seq
  intro o₁
  cases o₁ with
  | none => exact hkeep pipeAllocFailure_holds
  | some f₁ => exact hkeep (pipeAlloc_rest hne mem memData f₁)

/-- A pointer behind the table stops the call. -/
theorem pipeAlloc_outside (h : NOFILE ≤ fd₁) (fd₂ : Nat) (mem memData : Option Nat) (s : Sys) :
    ∃ e, pipeAlloc p fd₁ fd₂ mem memData s = .error e := by
  have hthrow : Triple (fun _ => True) (pipeAlloc p fd₁ fd₂ mem memData) (fun _ _ => False) fun _ => True := by
    apply Triple.seq (Q := fun _ _ => True)
    · intro s _
      cases onSys fileAlloc s <;> trivial
    · intro o
      apply Triple.seq (Q := fun _ _ => False)
      · unfold storeSlot
        rw [if_pos h]
        exact Triple.fail trivial
      · exact fun _ _ hf => hf.elim
  cases hok : pipeAlloc p fd₁ fd₂ mem memData s with
  | error e => exact ⟨e, rfl⟩
  | ok r => exact (hthrow.of_ok trivial hok).elim

end Slots

/-! ## §4 The call -/

/-- **`pipe`** takes two free descriptors or none exactly when it refuses because fewer than two are left, for every
    table whose files are in use and for every failure of the allocators. -/
theorem pipe_iff (s : Sys) (p : Nat) (mem memData : Option Nat)
    (hused : ∀ fd < NOFILE, ∀ f, (s.sys.procs p).openFileTable fd = some f → f ∉ s.sys.flist) :
    PipeOk p s (pipe p mem memData s) ↔ NOFILE < (s.sys.procs p).nOpfiles + 2 := by
  generalize hT : (s.sys.procs p).openFileTable = table at hused
  have hrun : pipe p mem memData s =
      (if (NOFILE : Int) - (s.sys.procs p).nOpfiles < 2 then pure none
      else do
        let fd₁ := scan table NOFILE 0
        let fd₂ := scan table (NOFILE - (fd₁ + 1)) (fd₁ + 1)
        if ← pipeAlloc p fd₁ fd₂ mem memData then return some (fd₁, fd₂)
        else return none : PipeM (Option (Nat × Nat))) s := by
    rw [← hT]
    rfl
  by_cases hfew : NOFILE < (s.sys.procs p).nOpfiles + 2
  · rw [if_pos (by omega)] at hrun
    rw [hrun]
    exact iff_of_true ⟨fun _ _ => rfl, rfl, fun _ => rfl, rfl⟩ hfew
  · rw [if_neg (by omega)] at hrun
    apply iff_of_false _ hfew
    intro hok
    rw [hrun] at hok
    have hused₁ := scan_isSome table NOFILE 0
    have hnext := le_scan table (NOFILE - (scan table NOFILE 0 + 1)) (scan table NOFILE 0 + 1)
    generalize scan table NOFILE 0 = fd₁ at hok hused₁ hnext
    generalize scan table (NOFILE - (fd₁ + 1)) (fd₁ + 1) = fd₂ at hok hnext
    cases hp : pipeAlloc p fd₁ fd₂ mem memData s with
    | error e =>
      simp only [bind, StateT.bind, hp, Except.bind] at hok
      exact hok
    | ok r =>
      obtain ⟨b, s'⟩ := r
      rw [run_bind_of_ok hp] at hok
      -- the first slot is in the table, as the call would have stopped otherwise
      have hin : fd₁ < NOFILE := by
        by_contra hout
        obtain ⟨e, herr⟩ := pipeAlloc_outside (p := p) (Nat.not_lt.1 hout) fd₂ mem memData s
        rw [hp] at herr
        cases herr
      obtain ⟨f, hf⟩ := Option.isSome_iff_exists.1 (hused₁ (by omega))
      cases b with
      | true =>
        -- the slot was in use, and the call takes it all the same
        obtain ⟨_, _, _, hnone, _⟩ := hok
        rw [hT, hf] at hnone
        cases hnone
      | false =>
        obtain ⟨x, hx, hfree⟩ := (pipeAlloc_slot (by omega) mem memData s.sys.flist).of_ok rfl hp
        have hsame : (s'.sys.procs p).openFileTable fd₁ = some f := by
          rw [hok.1 fd₁ hin, hT, hf]
        exact hused fd₁ hin f hf (hfree f (hx.symm.trans hsame))

/-- Every process has the files 0, 1 and 2 open, as a shell has, and the others are free. -/
def shell : Sys where
  sys :=
    { kern := ⟨Inode.mkfsRoot, fun _ => false, fun _ => false, [], fun _ => 0⟩
      files := fun f => ⟨if f < 3 then 2 else FS_NONE, if f < 3 then Syscall.NPROC else 0, 0, 0, none⟩
      flist := List.range' 3 197
      nOpenfiles := 3
      procs := fun _ => ⟨true, 0, fun fd => if fd < 3 then some fd else none, 3⟩
      rootproc := 0 }
  pipeOf := fun _ => none

theorem shell_used (p : Nat) :
    ∀ fd < NOFILE, ∀ f, (shell.sys.procs p).openFileTable fd = some f → f ∉ shell.sys.flist := by
  intro fd _ f hf hfree
  have hf' : (if fd < 3 then some fd else none) = some f := hf
  obtain ⟨hlo, _⟩ := List.mem_range'_1.1 hfree
  split at hf'
  · cases hf'
    omega
  · cases hf'

theorem pipe_iff_shell : PipeOk 1 shell (pipe 1 (some 100) (some 101) shell) ↔
    NOFILE < (shell.sys.procs 1).nOpfiles + 2 :=
  pipe_iff shell 1 (some 100) (some 101) (shell_used 1)

/-- **The shell calls `pipe`**, and its standard input and output are the pipe. -/
theorem shell_loses_files : ¬ ∀ (s : Sys) (p : Nat) (mem memData : Option Nat),
    (∀ fd < NOFILE, ∀ f, (s.sys.procs p).openFileTable fd = some f → f ∉ s.sys.flist) →
      PipeOk p s (pipe p mem memData s) := by
  intro hall
  have hok := hall shell 1 (some 100) (some 101) (shell_used 1)
  obtain ⟨s', hs'⟩ : ∃ s', pipe 1 (some 100) (some 101) shell = .ok (some (0, 1), s') := ⟨_, rfl⟩
  rw [hs'] at hok
  have hnone : (shell.sys.procs 1).openFileTable 0 = none := hok.2.2.2.1
  exact absurd hnone (by decide)

end WeiOS.PipeCall
