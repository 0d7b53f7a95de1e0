import Mathlib
import WeiOS.Lib.Triple
import WeiOS.Fs.SharedOffset
import WeiOS.Fs.DirEntries

/-!
# Reading and Writing Files

`read` and `write` of `kern/sysfile.c` with `file_read` and `file_write` of `kern/file.c`, for files that have an inode.
To the processes a file is an array of bytes, and what they share is an offset in it. A call finds the file behind a
descriptor, and moves the offset of this file by as much as it reads or writes; other files may have the same array.

## Main results
- `Shows.fileRead`, `Shows.fileWrite`: the two functions on arrays.
- `calls_run`: runs of calls of any processes on any descriptors.
-/

namespace WeiOS.Syscall

open WeiOS.Inode (Block BLKSIZE MAXFILESIZ T_DEV T_FILE FsInv Room Allocated contents overwrite placesOf fitting)
open WeiOS.Dir (ilock iunlock)

/-! ## §1 The source functions -/

/-- The checks of `file_read`. -/
def readable (v : File) : Bool := v.type != FS_NONE && (v.flag &&& (O_RDONLY ||| O_RDWR)) != 0

/-- `file_read`: what it returns, and the buffer. A file from `open` has no pipe. -/
def fileRead (f : Nat) (dst : Block) (nbytes : Nat) : SysM (Int × Block) := do
  let v := (← get).files f
  if !readable v then pure (-1, dst)
  else if v.type = FS_PIPE then throw .pipe
  else
    match v.inode with
    | none => throw (.fs .wild)
    | some i => do
      let _ ← onKern (ilock i)
      let r ← onKern (Dir.readi i dst ((← get).files f).offset nbytes)
      let v := (← get).files f
      if 0 ≤ r.1 then setFile f { v with offset := (v.offset + r.1.toNat) % 2 ^ 32 }
      let _ ← onKern (iunlock i)
      pure r

/-- The loop of `file_write`. -/
def fileWriteLoop (f : Nat) (src : Block) (nbytes : Nat) : Nat → Nat → SysM Int
  | 0, total => pure (total : Int)
  | fuel + 1, total =>
    if total < nbytes then do
      let wrbytes ← writeRound f src total (perop nbytes total)
      if wrbytes < 0 ∨ wrbytes ≠ perop nbytes total then pure (-1)
      else fileWriteLoop f src nbytes fuel (total + perop nbytes total)
    else pure (total : Int)

/-- `file_write`; each turn of the loop writes a byte at least. -/
def fileWrite (f : Nat) (src : Block) (nbytes : Int) : SysM Int := do
  let v := (← get).files f
  if !writable v then pure (-1)
  else if v.type = FS_PIPE then throw .pipe
  else fileWriteLoop f src nbytes.toNat nbytes.toNat 0

/-- `read`; a descriptor that is not open is a null pointer for `file_read`. -/
def read (p : Nat) (fd : Int) (des : Block) (nbytes : Nat) : SysM (Int × Block) := do
  if isBadFd fd then pure (-1, des)
  else
    match ((← get).procs p).openFileTable fd.toNat with
    | none => pure (-1, des)
    | some f => fileRead f des nbytes

/-- `write`; the length is a signed number in `file_write`. -/
def write (p : Nat) (fd : Int) (src : Block) (nbytes : Nat) : SysM Int := do
  if isBadFd fd then pure (-1)
  else
    match ((← get).procs p).openFileTable fd.toNat with
    | none => pure (-1)
    | some f => fileWrite f src (BitVec.ofNat 32 nbytes).toInt

/-- The calls that processes make. -/
inductive FileCall where
  | read (p : Nat) (fd : Int) (nbytes : Nat)
  | write (p : Nat) (fd : Int) (src : List (BitVec 8))

/-- One call: what it returns, and the bytes that it reads. -/
def callStep : FileCall → SysM (Int × List (BitVec 8))
  | .read p fd nbytes => do
    let r ← read p fd (fun _ => 0) nbytes
    pure (r.1, (List.range r.1.toNat).map r.2)
  | .write p fd src => do
    let r ← write p fd (fun k => src.getD k 0) src.length
    pure (r, [])

/-- Calls of any processes, in any order. -/
def callRun : List FileCall → SysM (List (Int × List (BitVec 8)))
  | [] => pure []
  | c :: cs => do
    let r ← callStep c
    let rs ← callRun cs
    pure (r :: rs)

/-! ## §2 Files as processes see them -/

/-- The arrays by their inodes, and for each file its inode, its flags, and its offset. `table` has the descriptors. -/
structure Files where
  bytes : Nat → List (Option (BitVec 8))
  inode : Nat → Option Nat
  flag : Nat → Nat
  offset : Nat → Nat
  table : Nat → Nat → Option Nat

namespace Files

/-- The file behind a descriptor. -/
def file (A : Files) (p : Nat) (fd : Int) : Option Nat := if isBadFd fd then none else A.table p fd.toNat

def canRead (A : Files) (f : Nat) : Bool := (A.flag f &&& (O_RDONLY ||| O_RDWR)) != 0
def canWrite (A : Files) (f : Nat) : Bool := (A.flag f &&& (O_WRONLY ||| O_RDWR)) != 0

/-- The next bytes of the file. -/
def ahead (A : Files) (f i n : Nat) : List (Option (BitVec 8)) := ((A.bytes i).drop (A.offset f)).take n

/-- The offset is moved. -/
def move (A : Files) (f n : Nat) : Files := { A with offset := Function.update A.offset f (A.offset f + n) }

/-- Bytes are written at the offset, and it is moved behind them. -/
def put (A : Files) (f i : Nat) (bs : List (Option (BitVec 8))) : Files :=
  { A with
    bytes := Function.update A.bytes i (overwrite (A.bytes i) (A.offset f) bs)
    offset := Function.update A.offset f (A.offset f + bs.length) }

/-- One call. -/
def step (A : Files) : FileCall → (Int × List (Option (BitVec 8))) × Files
  | .read p fd n =>
    match A.file p fd with
    | none => ((-1, []), A)
    | some f =>
      match A.inode f with
      | none => ((-1, []), A)
      | some i =>
        if A.canRead f then (((A.ahead f i n).length, A.ahead f i n), A.move f (A.ahead f i n).length)
        else ((-1, []), A)
  | .write p fd src =>
    match A.file p fd with
    | none => ((-1, []), A)
    | some f =>
      match A.inode f with
      | none => ((-1, []), A)
      | some i => if A.canWrite f then ((src.length, []), A.put f i (src.map some)) else ((-1, []), A)

def run (A : Files) : List FileCall → List (Int × List (Option (BitVec 8))) × Files
  | [] => ([], A)
  | c :: cs => ((A.step c).1 :: ((A.step c).2.run cs).1, ((A.step c).2.run cs).2)

end Files

/-- File `f` is open, and its inode `i` is that of a file, which nobody has locked. -/
structure Opened (s : Sys) (f i : Nat) : Prop where
  inode : (s.files f).inode = some i
  used : (s.files f).type ≠ FS_NONE
  notPipe : (s.files f).type ≠ FS_PIPE
  notDev : (s.kern.node i).type ≠ T_DEV
  ref : 1 ≤ (s.kern.node i).ref
  valid : (s.kern.node i).valid = true
  unlocked : s.kern.slk i = false
  allocated : Allocated s.kern.fs i

/-- The state of the kernel is that of the files. -/
structure Shows (s : Sys) (A : Files) : Prop where
  disk : FsInv s.kern.fs
  bytes : ∀ i, contents s.kern.fs i = A.bytes i
  opened : ∀ f i, A.inode f = some i → Opened s f i
  flag : ∀ f, A.inode f ≠ none → (s.files f).flag = A.flag f
  offset : ∀ f, A.inode f ≠ none → (s.files f).offset = A.offset f
  inside : ∀ f i, A.inode f = some i → A.offset f ≤ (A.bytes i).length
  table : ∀ p fd, (s.procs p).openFileTable fd = A.table p fd

/-- Calls on files that have an array, with room for what they write. -/
def CallAllowed (s : Sys) (A : Files) : FileCall → Prop
  | .read p fd n => n < 2 ^ 31 ∧ ∀ f, A.file p fd = some f → A.inode f ≠ none
  | .write p fd src => src.length < 2 ^ 31 ∧ ∀ f, A.file p fd = some f → ∃ i, A.inode f = some i ∧
      (A.canWrite f = true → A.offset f + src.length ≤ MAXFILESIZ ∧
        Room s.kern.fs i (placesOf (A.offset f + src.length)))

/-- Each call of the run is allowed when it comes. -/
def AllCallsAllowed : Sys → Files → List FileCall → Prop
  | _, _, [] => True
  | s, A, c :: cs => CallAllowed s A c ∧ ∀ r s', callStep c s = .ok (r, s') → AllCallsAllowed s' (A.step c).2 cs

section Calls

variable {s s' : Sys} {A : Files} {f i n total nbytes : Nat} {src : Block}

/-! ## §3 The critical sections -/

/-- The file system is `fs`, and the offset of the file is moved. -/
def moved (s : Sys) (f : Nat) (fs : Inode.FileSys) (n : Nat) : Sys :=
  { s with
    kern := { s.kern with fs := fs }
    files := Function.update s.files f { s.files f with offset := (s.files f).offset + n } }

/-- The lock is taken. -/
def locked (s : Sys) (i : Nat) : Sys := { s with kern := { s.kern with slk := Function.update s.kern.slk i true } }

/-- The file system is `fs`. -/
def withFs (s : Sys) (fs : Inode.FileSys) : Sys := { s with kern := { s.kern with fs := fs } }

theorem run_get (s : Sys) : (get : SysM Sys) s = .ok (s, s) := rfl

theorem onKern_of_ok {α : Type} {m : Dir.FsM α} {a : α} {k : Dir.Kern} (h : m s.kern = .ok (a, k)) :
    onKern m s = .ok (a, { s with kern := k }) := by
  unfold onKern
  rw [h]

theorem Opened.ilock (h : Opened s f i) : onKern (ilock i) s = .ok (0, locked s i) :=
  onKern_of_ok (ilock_valid h.ref h.valid h.unlocked)

/-- After the critical section the lock is as before. -/
theorem Opened.iunlock (h : Opened s f i) (fs : Inode.FileSys) (hic : fs.icache = s.kern.fs.icache) :
    onKern (iunlock i) (moved (locked s i) f fs n) = .ok (0, moved s f fs n) := by
  have href : 1 ≤ (Dir.Kern.node (moved (locked s i) f fs n).kern i).ref := by
    show 1 ≤ (fs.icache.inode i).ref
    rw [hic]
    exact h.ref
  have hslk : Function.update (Function.update s.kern.slk i true) i false = s.kern.slk := by
    rw [Function.update_idem, ← h.unlocked, Function.update_eq_self]
  rw [onKern_of_ok (iunlock_held href (Function.update_self ..))]
  show Except.ok (0, ({ s with
    kern := { s.kern with fs := fs, slk := Function.update (Function.update s.kern.slk i true) i false }
    files := Function.update s.files f { s.files f with offset := (s.files f).offset + n } } : Sys)) = _
  rw [hslk]
  rfl

/-- **One turn** of the loop of `file_write`. -/
theorem Opened.writeRound (h : Opened s f i) {fs : Inode.FileSys} (hn : 0 < n) (hsum : (s.files f).offset + n < 2 ^ 32)
    (hrun : Inode.writei s.kern.fs i (fun k => src (total + k)) (BitVec.ofNat 32 (s.files f).offset)
      (BitVec.ofNat 32 n) = .ok ((n : Int), fs)) (hic : fs.icache = s.kern.fs.icache) :
    writeRound f src total n s = .ok ((n : Int), moved s f fs n) := by
  have hnotDev : ¬ (((locked s i).kern.node i).type = T_DEV ∧ ((locked s i).kern.body i).major < Inode.NDEV ∧
      ((locked s i).kern.fs.devStructs ((locked s i).kern.body i).major).write.isSome) := fun hc => h.notDev hc.1
  have hwrite : onKern (Dir.writei i (fun k => src (total + k)) (s.files f).offset n) (locked s i) =
      .ok ((n : Int), withFs (locked s i) fs) := by
    apply onKern_of_ok (k := { (locked s i).kern with fs := fs })
    show (if _ then _ else _ : Dir.FsM Int) (locked s i).kern = _
    rw [if_neg hnotDev]
    unfold Dir.onFs
    dsimp only
    rw [show (locked s i).kern.fs = s.kern.fs from rfl, hrun]
  have hset : setFile f { s.files f with offset := ((s.files f).offset + (n : Int).toNat) % 2 ^ 32 }
      (withFs (locked s i) fs) = .ok (⟨⟩, moved (locked s i) f fs n) := by
    rw [Int.toNat_natCast, Nat.mod_eq_of_lt hsum]
    rfl
  rw [Syscall.writeRound, Lib.run_bind_of_ok (run_get _), h.inode]
  dsimp only
  rw [Lib.run_bind_of_ok h.ilock, Lib.run_bind_of_ok (run_get _)]
  rw [show (locked s i).files = s.files from rfl, Lib.run_bind_of_ok hwrite, Lib.run_bind_of_ok (run_get _),
    if_pos (by omega)]
  rw [show (withFs (locked s i) fs).files = s.files from rfl, Lib.run_bind_of_ok hset,
    Lib.run_bind_of_ok (h.iunlock fs hic)]
  rfl

/-- **`file_read`** -/
theorem Opened.fileRead (h : Opened s f i) (hr : readable (s.files f) = true) {m : Nat} {dst d : Block}
    (hsum : (s.files f).offset + m < 2 ^ 32)
    (hrun : Dir.readi i dst (s.files f).offset n (locked s i).kern = .ok (((m : Int), d), (locked s i).kern)) :
    Syscall.fileRead f dst n s = .ok (((m : Int), d), moved s f s.kern.fs m) := by
  have hread : onKern (Dir.readi i dst (s.files f).offset n) (locked s i) = .ok (((m : Int), d), locked s i) :=
    onKern_of_ok hrun
  have hset : setFile f { s.files f with offset := ((s.files f).offset + (m : Int).toNat) % 2 ^ 32 } (locked s i) =
      .ok (⟨⟩, moved (locked s i) f s.kern.fs m) := by
    rw [Int.toNat_natCast, Nat.mod_eq_of_lt hsum]
    rfl
  rw [Syscall.fileRead, Lib.run_bind_of_ok (run_get _)]
  dsimp only
  rw [hr, if_neg (by decide), if_neg h.notPipe, h.inode]
  dsimp only
  rw [Lib.run_bind_of_ok h.ilock, Lib.run_bind_of_ok (run_get _)]
  rw [show (locked s i).files = s.files from rfl, Lib.run_bind_of_ok hread, Lib.run_bind_of_ok (run_get _),
    if_pos (Int.natCast_nonneg m)]
  dsimp only
  rw [show (locked s i).files = s.files from rfl, Lib.run_bind_of_ok hset, Lib.run_bind_of_ok (h.iunlock _ rfl)]
  rfl

/-! ## §4 The functions on arrays -/

theorem overwrite_nil {α : Type} (l : List α) (off : Nat) : overwrite l off [] = l := by
  unfold overwrite
  rw [List.append_nil, List.length_nil, Nat.add_zero, List.take_append_drop]

/-- Two writes, one behind the other, are one. -/
theorem overwrite_overwrite {α : Type} {l : List α} {off : Nat} (hoff : off ≤ l.length) (xs ys : List α) :
    overwrite (overwrite l off xs) (off + xs.length) ys = overwrite l off (xs ++ ys) := by
  have hin : off + xs.length ≤ (overwrite l off xs).length := by
    rw [Inode.length_overwrite hoff]
    exact Nat.le_max_right ..
  apply List.ext_getElem?
  intro k
  rw [Inode.getElem?_overwrite hin, Inode.getElem?_overwrite hoff, Inode.getElem?_overwrite hoff, List.length_append]
  by_cases hys : off + xs.length ≤ k ∧ k < off + xs.length + ys.length
  · rw [if_pos hys, if_pos (by omega), List.getElem?_append_right (by omega)]
    congr 1
    omega
  · rw [if_neg hys]
    by_cases hxs : off ≤ k ∧ k < off + xs.length
    · rw [if_pos hxs, if_pos (by omega), List.getElem?_append_left (by omega)]
    · rw [if_neg hxs, if_neg (by omega)]

theorem Files.put_nil (A : Files) (f i : Nat) : A.put f i [] = A := by
  unfold Files.put
  rw [overwrite_nil, Function.update_eq_self, List.length_nil, Nat.add_zero, Function.update_eq_self]

theorem Files.put_put {A : Files} (hin : A.offset f ≤ (A.bytes i).length) (xs ys : List (Option (BitVec 8))) :
    (A.put f i xs).put f i ys = A.put f i (xs ++ ys) := by
  unfold Files.put
  simp only [Function.update_self, Function.update_idem]
  rw [overwrite_overwrite hin, List.length_append, Nat.add_assoc]

theorem Files.put_inside (hin : A.offset f ≤ (A.bytes i).length) (bs : List (Option (BitVec 8))) :
    (A.put f i bs).offset f ≤ ((A.put f i bs).bytes i).length := by
  show Function.update A.offset f _ f ≤ (Function.update A.bytes i _ i).length
  rw [Function.update_self, Function.update_self, Inode.length_overwrite hin]
  exact Nat.le_max_right ..

/-- A file is moved over an array that may have changed. -/
theorem Shows.moved (h : Shows s A) (hi : A.inode f = some i) {fs : Inode.FileSys} (hfs : FsInv fs)
    (hic : fs.icache = s.kern.fs.icache) (halloc : ∀ j, Allocated s.kern.fs j → Allocated fs j)
    {B : Nat → List (Option (BitVec 8))} (hB : ∀ j, contents fs j = B j) (hlen : ∀ j, (A.bytes j).length ≤ (B j).length)
    (hin : A.offset f + n ≤ (B i).length) :
    Shows (Syscall.moved s f fs n) { A with bytes := B, offset := Function.update A.offset f (A.offset f + n) } := by
  have hnode : ∀ j, (Dir.Kern.node (Syscall.moved s f fs n).kern j) = s.kern.node j := by
    intro j
    show fs.icache.inode j = _
    rw [hic]
    rfl
  have hother : ∀ g, g ≠ f → (Syscall.moved s f fs n).files g = s.files g := fun g hg => Function.update_of_ne hg ..
  have hself : (Syscall.moved s f fs n).files f = { s.files f with offset := (s.files f).offset + n } :=
    Function.update_self ..
  refine ⟨hfs, hB, fun g j hg => ?_, fun g hg => ?_, fun g hg => ?_, fun g j hg => ?_, h.table⟩
  · have ho := h.opened g j hg
    have hfields : ((Syscall.moved s f fs n).files g).inode = (s.files g).inode ∧
        ((Syscall.moved s f fs n).files g).type = (s.files g).type := by
      by_cases hgf : g = f
      · subst hgf
        rw [hself]
        exact ⟨rfl, rfl⟩
      · rw [hother g hgf]
        exact ⟨rfl, rfl⟩
    refine ⟨hfields.1.trans ho.inode, ?_, ?_, ?_, ?_, ?_, ho.unlocked, halloc j ho.allocated⟩
    · rw [hfields.2]
      exact ho.used
    · rw [hfields.2]
      exact ho.notPipe
    · rw [hnode]
      exact ho.notDev
    · rw [hnode]
      exact ho.ref
    · rw [hnode]
      exact ho.valid
  · by_cases hgf : g = f
    · subst hgf
      rw [hself]
      exact h.flag g hg
    · rw [hother g hgf]
      exact h.flag g hg
  · show _ = Function.update A.offset f _ g
    by_cases hgf : g = f
    · subst hgf
      rw [hself, Function.update_self, ← h.offset g hg]
    · rw [hother g hgf, Function.update_of_ne hgf]
      exact h.offset g hg
  · show Function.update A.offset f _ g ≤ (B j).length
    by_cases hgf : g = f
    · subst hgf
      obtain rfl := Option.some.inj (hi.symm.trans hg)
      rw [Function.update_self]
      exact hin
    · rw [Function.update_of_ne hgf]
      exact (h.inside g j hg).trans (hlen j)

/-- **A turn of `file_write`** -/
theorem Shows.writeRound (h : Shows s A) (src : Block) (total : Nat) (hi : A.inode f = some i) (hn : 0 < n) {m : Nat}
    (hnm : A.offset f + n ≤ m) (hmax : m ≤ MAXFILESIZ) (hroom : Room s.kern.fs i (placesOf m)) :
    ∃ s', Syscall.writeRound f src total n s = .ok ((n : Int), s') ∧
      Shows s' (A.put f i ((List.range n).map fun k => some (src (total + k)))) ∧ Room s'.kern.fs i (placesOf m) := by
  have hM : MAXFILESIZ = 4239360 := by decide
  have ho := h.opened f i hi
  have hoffset : (s.files f).offset = A.offset f := h.offset f (by rw [hi]; exact Option.some_ne_none i)
  have hsize : (A.bytes i).length = (s.kern.fs.body i).fileSiz := by
    rw [← h.bytes i, Inode.length_contents]
  have hin : (s.files f).offset ≤ (s.kern.fs.body i).fileSiz := by
    rw [hoffset, ← hsize]
    exact h.inside f i hi
  have hfit : fitting (s.files f).offset n = n := Nat.min_eq_left (by omega)
  have hdev : (s.kern.fs.icache.inode i).type ≠ T_DEV := ho.notDev
  have hsum : (s.files f).offset + n < 2 ^ 32 := by omega
  have hplaces : Room s.kern.fs i (placesOf ((s.files f).offset + fitting (s.files f).offset n)) := by
    rw [hfit, hoffset]
    exact Dir.Room.mono hnm hroom
  obtain ⟨fs, hrun, hfs, hic, halloc, _, hcont, hothers⟩ :=
    h.disk.writei_contents hdev ho.allocated hin hsum hplaces fun k => src (total + k)
  obtain ⟨fs', hrun', _, hroom', _, _⟩ :=
    h.disk.writei_bytes (n := n) hdev hin (by omega) (fun l hl => Inode.touched_placesOf (n := m) (by omega)) hroom
      fun k => src (total + k)
  rw [hfit] at hrun hcont
  obtain rfl : fs = fs' := (Prod.mk.inj (Except.ok.inj (hrun.symm.trans hrun'))).2
  refine ⟨Syscall.moved s f fs n, ho.writeRound hn hsum hrun hic, ?_, hroom'⟩
  have hlen : ((List.range n).map fun k => some (src (total + k))).length = n := by simp
  -- on the array of this file the write is an overwrite; the other files keep theirs
  have hbytes : ∀ j, contents fs j = (A.put f i ((List.range n).map fun k => some (src (total + k)))).bytes j := by
    intro j
    show _ = Function.update A.bytes i _ j
    by_cases hj : j = i
    · subst hj
      rw [Function.update_self, hcont, h.bytes, hoffset]
    · rw [Function.update_of_ne hj, (hothers j hj).2, h.bytes]
  have hmoved := h.moved (n := n) hi hfs hic (fun j hj => ?_) hbytes (fun j => ?_) ?_
  · unfold Files.put at hmoved ⊢
    rw [hlen]
    exact hmoved
  · by_cases hji : j = i
    · subst hji
      exact halloc
    · obtain ⟨hbody, hblocks⟩ := (hothers j hji).1
      intro k hk
      have hblock : Inode.blockAt fs j (k / BLKSIZE) = Inode.blockAt s.kern.fs j (k / BLKSIZE) := hblocks _
      have hmap := hj k (by rwa [hbody] at hk)
      unfold Inode.Mapped at hmap ⊢
      rw [hblock]
      exact hmap
  · show _ ≤ (Function.update A.bytes i _ j).length
    by_cases hji : j = i
    · subst hji
      rw [Function.update_self, Inode.length_overwrite (h.inside f j hi)]
      exact Nat.le_max_left ..
    · rw [Function.update_of_ne hji]
  · show _ ≤ (Function.update A.bytes i _ i).length
    rw [Function.update_self, Inode.length_overwrite (h.inside f i hi), hlen]
    exact Nat.le_max_right ..

/-- **The loop of `file_write`** -/
theorem Shows.fileWriteLoop {fuel : Nat} (h : Shows s A) (src : Block) (total : Nat)
    (hi : A.inode f = some i) (hfuel : nbytes - total ≤ fuel)
    (hle : total ≤ nbytes) {m : Nat} (hnm : A.offset f + (nbytes - total) ≤ m) (hmax : m ≤ MAXFILESIZ)
    (hroom : Room s.kern.fs i (placesOf m)) :
    ∃ s', Syscall.fileWriteLoop f src nbytes fuel total s = .ok ((nbytes : Int), s') ∧
      Shows s' (A.put f i ((List.range' total (nbytes - total)).map fun k => some (src k))) ∧
      Room s'.kern.fs i (placesOf m) := by
  induction fuel generalizing total s A with
  | zero =>
    obtain rfl : total = nbytes := by omega
    rw [Nat.sub_self, List.range'_zero, List.map_nil, Files.put_nil]
    exact ⟨s, rfl, h, hroom⟩
  | succ fuel ih =>
    unfold Syscall.fileWriteLoop
    by_cases hlt : total < nbytes
    · have hpos := perop_pos hlt
      have hper := perop_le nbytes total
      rw [if_pos hlt]
      generalize perop nbytes total = n at hpos hper
      obtain ⟨s₁, hround, hshows, hroom₁⟩ := h.writeRound src total hi hpos
        (show A.offset f + n ≤ m by omega) hmax hroom
      rw [Lib.run_bind_of_ok hround, if_neg (by omega)]
      have hlen : ((List.range n).map fun k => some (src (total + k))).length = n := by simp
      have hoff : (A.put f i ((List.range n).map fun k => some (src (total + k)))).offset f = A.offset f + n := by
        show Function.update A.offset f _ f = _
        rw [Function.update_self, hlen]
      -- the next turn begins where this one has moved the offset to
      obtain ⟨s', hloop, hshows', hroom'⟩ := ih hshows (total + n) hi (by omega) (by omega)
        (by rw [hoff]; omega) hroom₁
      refine ⟨s', hloop, ?_, hroom'⟩
      rw [Files.put_put (h.inside f i hi)] at hshows'
      have hsplit : List.range' total (nbytes - total) =
          (List.range n).map (total + ·) ++ List.range' (total + n) (nbytes - (total + n)) := by
        rw [← List.range'_eq_map_range, show nbytes - total = n + (nbytes - (total + n)) by omega,
          ← List.range'_append_1]
      rw [hsplit, List.map_append, List.map_map]
      exact hshows'
    · obtain rfl : total = nbytes := by omega
      rw [if_neg hlt, Nat.sub_self, List.range'_zero, List.map_nil, Files.put_nil]
      exact ⟨s, rfl, h, hroom⟩

theorem Opened.writable_eq (h : Opened s f i) (hflag : (s.files f).flag = A.flag f) :
    writable (s.files f) = A.canWrite f := by
  have hused : ((s.files f).type != FS_NONE) = true := bne_iff_ne.2 h.used
  unfold writable Files.canWrite
  rw [hused, Bool.true_and, hflag]

theorem Opened.readable_eq (h : Opened s f i) (hflag : (s.files f).flag = A.flag f) :
    readable (s.files f) = A.canRead f := by
  have hused : ((s.files f).type != FS_NONE) = true := bne_iff_ne.2 h.used
  unfold readable Files.canRead
  rw [hused, Bool.true_and, hflag]

/-- **`file_write`** of `nbytes` bytes. -/
theorem Shows.fileWrite (h : Shows s A) (src : Block) (nbytes : Nat) (hi : A.inode f = some i)
    (hw : A.canWrite f = true) {m : Nat}
    (hnm : A.offset f + nbytes ≤ m) (hmax : m ≤ MAXFILESIZ) (hroom : Room s.kern.fs i (placesOf m)) :
    ∃ s', Syscall.fileWrite f src (nbytes : Int) s = .ok ((nbytes : Int), s') ∧
      Shows s' (A.put f i ((List.range nbytes).map fun k => some (src k))) ∧ Room s'.kern.fs i (placesOf m) := by
  have ho := h.opened f i hi
  have hflag := h.flag f (by rw [hi]; exact Option.some_ne_none i)
  obtain ⟨s', hloop, hshows, hroom'⟩ := h.fileWriteLoop src 0 hi (Nat.le_refl nbytes)
    (Nat.zero_le _) hnm hmax hroom
  refine ⟨s', ?_, by rwa [Nat.sub_zero, ← List.range_eq_range'] at hshows, hroom'⟩
  rw [Syscall.fileWrite, Lib.run_bind_of_ok (run_get _)]
  rw [ho.writable_eq hflag, hw, if_neg (by decide), if_neg ho.notPipe, Int.toNat_natCast]
  exact hloop

/-- **`file_read`** of up to `n` bytes. -/
theorem Shows.fileRead (h : Shows s A) (hi : A.inode f = some i) (hr : A.canRead f = true) (hn : n < 2 ^ 31)
    (dst : Block) :
    ∃ d s', Syscall.fileRead f dst n s = .ok ((((A.ahead f i n).length : Int), d), s') ∧
      (List.range (A.ahead f i n).length).map (fun j => some (d j)) = A.ahead f i n ∧
      Shows s' (A.move f (A.ahead f i n).length) ∧ s'.kern = s.kern := by
  have hM : MAXFILESIZ = 4239360 := by decide
  have ho := h.opened f i hi
  have hsome : A.inode f ≠ none := by
    rw [hi]
    exact Option.some_ne_none i
  have hoffset := h.offset f hsome
  have hlen : (A.bytes i).length = (s.kern.fs.body i).fileSiz := by
    rw [← h.bytes i, Inode.length_contents]
  have hin := h.inside f i hi
  have hsize := h.disk.sizes i
  have hread := Inode.readi_contents (s := (locked s i).kern) (o := A.offset f) (k := n) ho.notDev hsize ho.allocated
    (by omega) (by omega) dst
  have hgood : ¬ (((locked s i).kern.body i).fileSiz < A.offset f ∨ 2 ^ 32 ≤ A.offset f + n) := by
    show ¬ ((s.kern.fs.body i).fileSiz < A.offset f ∨ 2 ^ 32 ≤ A.offset f + n)
    omega
  rw [if_neg hgood] at hread
  obtain ⟨d, hrun, hd, _⟩ := hread
  have hcount : min n (((locked s i).kern.body i).fileSiz - A.offset f) = (A.ahead f i n).length := by
    unfold Files.ahead
    rw [List.length_take, List.length_drop, hlen]
    rfl
  rw [hcount] at hrun hd
  have hahead : (A.ahead f i n).length ≤ (A.bytes i).length - A.offset f := by
    rw [← hcount, hlen]
    exact Nat.min_le_right ..
  refine ⟨d, Syscall.moved s f s.kern.fs (A.ahead f i n).length, ?_, ?_, ?_, rfl⟩
  · rw [← hoffset] at hrun
    exact ho.fileRead (by rw [ho.readable_eq (h.flag f hsome), hr]) (by omega) hrun
  · rw [hd]
    show ((contents s.kern.fs i).drop (A.offset f)).take n = _
    rw [h.bytes i]
    rfl
  · exact h.moved hi h.disk rfl (fun _ hj => hj) h.bytes (fun _ => Nat.le_refl _) (by omega)

/-! ## §5 Runs -/

/-- A descriptor that names no file. -/
theorem Shows.noFile {p : Nat} {fd : Int} (h : Shows s A) (hfile : A.file p fd = none) :
    isBadFd fd = true ∨ (s.procs p).openFileTable fd.toNat = none := by
  unfold Files.file at hfile
  split at hfile
  · next hbad => exact .inl hbad
  · exact .inr ((h.table p _).trans hfile)

theorem Shows.someFile {p : Nat} {fd : Int} (h : Shows s A) (hfile : A.file p fd = some f) :
    isBadFd fd = false ∧ (s.procs p).openFileTable fd.toNat = some f := by
  unfold Files.file at hfile
  split at hfile
  · cases hfile
  · next hbad => exact ⟨Bool.eq_false_iff.2 hbad, (h.table p _).trans hfile⟩

theorem Shows.read_file {p : Nat} {fd : Int} (h : Shows s A) (hfile : A.file p fd = some f) (des : Block) :
    Syscall.read p fd des n s = Syscall.fileRead f des n s := by
  obtain ⟨hgood, htable⟩ := h.someFile hfile
  unfold Syscall.read
  rw [hgood, if_neg Bool.false_ne_true, Lib.run_bind_of_ok (run_get _), htable]

theorem Shows.write_file {p : Nat} {fd : Int} (h : Shows s A) (hfile : A.file p fd = some f) (hn : n < 2 ^ 31) :
    Syscall.write p fd src n s = Syscall.fileWrite f src (n : Int) s := by
  obtain ⟨hgood, htable⟩ := h.someFile hfile
  have hint : (BitVec.ofNat 32 n).toInt = (n : Int) := by
    rw [BitVec.toInt_eq_toNat_of_lt, BitVec.toNat_ofNat, Nat.mod_eq_of_lt (by omega)]
    rw [BitVec.toNat_ofNat, Nat.mod_eq_of_lt (by omega)]
    omega
  unfold Syscall.write
  rw [hgood, if_neg Bool.false_ne_true, Lib.run_bind_of_ok (run_get _), htable, hint]

theorem map_getD (bs : List (BitVec 8)) : ((List.range bs.length).map fun k => some (bs.getD k 0)) = bs.map some := by
  apply List.ext_getElem?
  intro k
  rw [List.getElem?_map, List.getElem?_map]
  by_cases hk : k < bs.length
  · rw [List.getElem?_range hk, List.getElem?_eq_getElem hk, Option.map_some, Option.map_some,
      List.getD_eq_getElem _ _ hk]
  · rw [List.getElem?_eq_none (by rw [List.length_range]; omega), List.getElem?_eq_none (by omega)]
    rfl

/-- **`read`** -/
theorem Shows.read {p : Nat} {fd : Int} (h : Shows s A) (hok : CallAllowed s A (.read p fd n)) (des : Block) :
    ∃ r s', Syscall.read p fd des n s = .ok (r, s') ∧
      (r.1, (List.range r.1.toNat).map fun j => some (r.2 j)) = (A.step (.read p fd n)).1 ∧
      Shows s' (A.step (.read p fd n)).2 := by
  obtain ⟨hn, hinode⟩ := hok
  unfold Files.step
  dsimp only
  cases hfile : A.file p fd with
  | none =>
    -- a bad descriptor, or one without a file
    refine ⟨(-1, des), s, ?_, rfl, h⟩
    unfold Syscall.read
    rcases h.noFile hfile with hbad | hnone
    · rw [hbad, if_pos rfl]
      rfl
    · split
      · rfl
      · rw [Lib.run_bind_of_ok (run_get _), hnone]
        rfl
  | some f =>
    obtain ⟨i, hi⟩ := Option.ne_none_iff_exists'.1 (hinode f hfile)
    rw [h.read_file hfile]
    dsimp only
    rw [hi]
    dsimp only
    by_cases hr : A.canRead f = true
    · obtain ⟨d, s', hrun, hd, hshows, _⟩ := h.fileRead hi hr hn des
      rw [if_pos hr]
      refine ⟨_, s', hrun, ?_, hshows⟩
      dsimp only
      rw [Int.toNat_natCast, hd]
    · rw [if_neg hr]
      -- opened for writing only
      refine ⟨(-1, des), s, ?_, rfl, h⟩
      rw [Syscall.fileRead, Lib.run_bind_of_ok (run_get _), (h.opened f i hi).readable_eq (h.flag f (hinode f hfile)),
        Bool.eq_false_iff.2 hr]
      rfl

/-- **`write`** -/
theorem Shows.write {p : Nat} {fd : Int} {bs : List (BitVec 8)} (h : Shows s A)
    (hok : CallAllowed s A (.write p fd bs)) :
    ∃ s', Syscall.write p fd (fun k => bs.getD k 0) bs.length s = .ok ((A.step (.write p fd bs)).1.1, s') ∧
      Shows s' (A.step (.write p fd bs)).2 := by
  obtain ⟨hn, hinode⟩ := hok
  unfold Files.step
  dsimp only
  cases hfile : A.file p fd with
  | none =>
    refine ⟨s, ?_, h⟩
    unfold Syscall.write
    rcases h.noFile hfile with hbad | hnone
    · rw [hbad, if_pos rfl]
      rfl
    · split
      · rfl
      · rw [Lib.run_bind_of_ok (run_get _), hnone]
        rfl
  | some f =>
    obtain ⟨i, hi, hroom⟩ := hinode f hfile
    rw [h.write_file hfile hn]
    dsimp only
    rw [hi]
    dsimp only
    by_cases hw : A.canWrite f = true
    · obtain ⟨hmax, hroom⟩ := hroom hw
      obtain ⟨s', hrun, hshows, _⟩ := h.fileWrite (fun k => bs.getD k 0) bs.length hi hw (Nat.le_refl _) hmax hroom
      rw [if_pos hw]
      rw [map_getD] at hshows
      exact ⟨s', hrun, hshows⟩
    · rw [if_neg hw]
      -- opened for reading only
      refine ⟨s, ?_, h⟩
      rw [Syscall.fileWrite, Lib.run_bind_of_ok (run_get _),
        (h.opened f i hi).writable_eq (h.flag f (by rw [hi]; exact Option.some_ne_none i)), Bool.eq_false_iff.2 hw]
      rfl

/-- **Step lemma** -/
theorem Shows.step {c : FileCall} (h : Shows s A) (hc : CallAllowed s A c) :
    ∃ r s', callStep c s = .ok (r, s') ∧ (r.1, r.2.map some) = (A.step c).1 ∧ Shows s' (A.step c).2 := by
  cases c with
  | read p fd n =>
    obtain ⟨r, s', hrun, hr, hshows⟩ := h.read hc fun _ => 0
    refine ⟨(r.1, (List.range r.1.toNat).map r.2), s', ?_, ?_, hshows⟩
    · unfold callStep
      dsimp only
      rw [Lib.run_bind_of_ok hrun]
      rfl
    · rw [← hr, List.map_map]
      rfl
  | write p fd bs =>
    obtain ⟨s', hrun, hshows⟩ := h.write hc
    refine ⟨((A.step (.write p fd bs)).1.1, []), s', ?_, ?_, hshows⟩
    · unfold callStep
      dsimp only
      rw [Lib.run_bind_of_ok hrun]
      rfl
    · unfold Files.step
      dsimp only
      split
      · rfl
      · split
        · rfl
        · split <;> rfl

/-- **Files are arrays with offsets**: runs of `read` and `write` by any processes on any descriptors, in any order, read
    and return what they do on the arrays. -/
theorem calls_run {cs : List FileCall} (h : Shows s A) (hcs : AllCallsAllowed s A cs) :
    ∃ rs s', callRun cs s = .ok (rs, s') ∧ rs.map (fun r => (r.1, r.2.map some)) = (A.run cs).1 ∧
      Shows s' (A.run cs).2 := by
  induction cs generalizing s A with
  | nil => exact ⟨[], s, rfl, rfl, h⟩
  | cons c cs ih =>
    obtain ⟨hc, hrest⟩ := hcs
    obtain ⟨r, s₁, hstep, hr, hshows⟩ := h.step hc
    obtain ⟨rs, s', hrun, hrs, hshows'⟩ := ih hshows (hrest r s₁ hstep)
    refine ⟨r :: rs, s', ?_, ?_, hshows'⟩
    · unfold callRun
      rw [Lib.run_bind_of_ok hstep, Lib.run_bind_of_ok hrun]
      rfl
    · rw [List.map_cons, hr, hrs]
      rfl

end Calls

/-- Two processes have opened one file, each with an offset of its own. -/
def twoFiles : Sys :=
  { sampleSys with
    files := fun f => if f < 2 then ⟨T_FILE, 1, 0, O_RDWR, some 1⟩ else ⟨FS_NONE, 0, 0, 0, none⟩
    procs := fun p => ⟨true, 0, fun fd => if fd = 0 then some p else none, 1⟩ }

def twoFilesArrays : Files where
  bytes := contents sampleKern.fs
  inode f := if f < 2 then some 1 else none
  flag _ := O_RDWR
  offset _ := 0
  table p fd := if fd = 0 then some p else none

theorem twoFiles_shows : Shows twoFiles twoFilesArrays := by
  have hempty : (sampleKern.body 1).fileSiz = 0 := rfl
  refine ⟨sampleSys_opened.disk, fun _ => rfl, fun f i hi => ?_, fun f hf => ?_, fun f hf => ?_,
    fun _ _ _ => Nat.zero_le _,
    fun _ _ => rfl⟩
  all_goals
    have hlt : f < 2 := by
      by_contra hc
      first
        | exact hf (if_neg hc)
        | exact Option.some_ne_none i (hi.symm.trans (if_neg hc))
    have hfile : twoFiles.files f = ⟨T_FILE, 1, 0, O_RDWR, some 1⟩ := if_pos hlt
  · obtain rfl : 1 = i := Option.some.inj ((if_pos hlt).symm.trans hi)
    refine ⟨by rw [hfile], by rw [hfile]; decide, by rw [hfile]; decide, by decide, Nat.le_refl 1, rfl, rfl,
      fun k hk => ?_⟩
    exact absurd (hempty ▸ hk) (Nat.not_lt_zero k)
  · rw [hfile]
    rfl
  · rw [hfile]
    rfl

/-- What one process writes the other one reads. -/
theorem calls_run_twoFiles : ∃ rs s', callRun [.write 0 0 [10, 20, 30], .read 1 0 2] twoFiles = .ok (rs, s') ∧
    rs.map (fun r => (r.1, r.2.map some)) = [(3, []), (2, [some 10, some 20])] := by
  have hallowed : AllCallsAllowed twoFiles twoFilesArrays [.write 0 0 [10, 20, 30], .read 1 0 2] := by
    refine ⟨⟨by decide, fun f hf => ?_⟩, fun _ _ _ => ⟨⟨by decide, fun f hf => ?_⟩, fun _ _ _ => trivial⟩⟩
    · obtain rfl : 0 = f := Option.some.inj hf
      exact ⟨1, rfl, fun _ => ⟨by decide, by decide +kernel⟩⟩
    · obtain rfl : 1 = f := Option.some.inj hf
      exact Option.some_ne_none 1
  obtain ⟨rs, s', hrun, hrs, _⟩ := calls_run twoFiles_shows hallowed
  exact ⟨rs, s', hrun, hrs⟩

end WeiOS.Syscall
