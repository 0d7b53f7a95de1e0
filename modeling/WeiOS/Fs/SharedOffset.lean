import Mathlib
import WeiOS.Lib.Triple
import WeiOS.Fs.FileWrite
import WeiOS.Fs.FileData

/-!
# Writers That Share an Offset

Calls of `file_write` by any processes that share one `struct file`. A call takes one turn of its loop at
a time, and any other calls take theirs in between; a turn is atomic, since the lock of the inode is held
around it. `log` has the chunks in the order in which they were written.

## Main results
- `turn_spec`: a turn writes the next chunk of its call at the offset, or the call returns.
- `SharedInv.step`: the invariant of the chunks.
- `writes_interleave`: whole runs.
-/

namespace WeiOS.Syscall

open WeiOS.Inode (BLKSIZE MAXFILESIZ T_DEV T_FILE FsInv Room needed touched Mapped byteAt Overwrites)

/-! ## §1 Calls and their turns -/

/-- A call of `file_write`: the bytes at `src`, and `nbytes`. -/
structure WriteCall where
  src : Nat → BitVec 8
  nbytes : Int

/-- How far a call got: `total`, and what it returned. -/
structure Writer where
  total : Nat
  ret : Option Int

/-- The checks at the start of `file_write`. -/
def enter (v : File) : Writer := ⟨0, if writable v then none else some (-1)⟩

/-- One turn of the loop of `file_write`: how far the call is after it, and how many bytes it wrote. -/
def turn (f : Nat) (c : WriteCall) (w : Writer) : SysM (Writer × Nat) := do
  if (w.total : Int) < c.nbytes then
    let n := perop c.nbytes.toNat w.total
    let wrbytes ← writeRound f c.src w.total n
    if wrbytes < 0 ∨ wrbytes ≠ n then pure ({ w with ret := some (-1) }, wrbytes.toNat)
    else pure ({ w with total := w.total + n }, wrbytes.toNat)
  else pure ({ w with ret := some w.total }, 0)

/-- The chunks of a call for `nbytes` bytes, from `total` on: where each starts in `src`, and its
    length. -/
def chunksFrom (nbytes : Nat) : Nat → Nat → List (Nat × Nat)
  | 0, _ => []
  | fuel + 1, total =>
    if total < nbytes then (total, perop nbytes total) :: chunksFrom nbytes fuel (total + perop nbytes total)
    else []

/-- The chunks of a call. -/
def chunks (nbytes : Nat) : List (Nat × Nat) := chunksFrom nbytes nbytes 0

/-- A chunk that was written: its call, where it starts in `src`, its place in the file, its length. -/
structure Chunk (k : Nat) where
  call : Fin k
  start : Nat
  pos : Nat
  len : Nat

/-- The bytes of a chunk. -/
def Chunk.bytes {k : Nat} (calls : Fin k → WriteCall) (c : Chunk k) : List (BitVec 8) :=
  (List.range' c.start c.len).map (calls c.call).src

/-- The kernel with the calls, and the chunks written so far. -/
structure Writers (k : Nat) where
  sys : Sys
  writers : Fin k → Writer
  log : List (Chunk k)

section Runs

variable {k : Nat}

/-- All calls have started. -/
def started (f : Nat) (k : Nat) (s : Sys) : Writers k := ⟨s, fun _ => enter (s.files f), []⟩

/-- The next turn is taken by call `j`. -/
def writersStep (f : Nat) (calls : Fin k → WriteCall) (s : Writers k) (j : Fin k) :
    Except Fault (Writers k) :=
  if (s.writers j).ret.isSome then .ok s
  else
    match turn f (calls j) (s.writers j) s.sys with
    | .error e => .error e
    | .ok ((w, n), sys) =>
      let written := if 0 < n then [⟨j, (s.writers j).total, (s.sys.files f).offset, n⟩] else []
      .ok ⟨sys, Function.update s.writers j w, s.log ++ written⟩

/-! ## §2 What a run does -/

/-- File `f` is a regular file with inode `i`, open for writing. Nobody is in its critical section. -/
structure OpenedForWriting (s : Sys) (f i : Nat) : Prop where
  inode : (s.files f).inode = some i
  writable : writable (s.files f) = true
  notPipe : (s.files f).type ≠ FS_PIPE
  regular : (s.kern.node i).type = T_FILE
  ref : 1 ≤ (s.kern.node i).ref
  valid : (s.kern.node i).valid = true
  unlocked : s.kern.slk i = false
  disk : FsInv s.kern.fs
  offset : (s.files f).offset ≤ (s.kern.body i).fileSiz

/-- Where the offset ends up when all calls write all their bytes. -/
def finalOffset (s : Sys) (f : Nat) (calls : Fin k → WriteCall) : Nat :=
  (s.files f).offset + ∑ j, (calls j).nbytes.toNat

/-- The places of the blocks up to the final offset. -/
def finalPlaces (s : Sys) (f : Nat) (calls : Fin k → WriteCall) : Finset Inode.Place :=
  needed ((finalOffset s f calls + BLKSIZE - 1) / BLKSIZE)

/-- What the calls did to the file, in the state `t` that a run from `s` reached. -/
structure LosesNoWrite (s : Sys) (f i : Nat) (calls : Fin k → WriteCall) (t : Writers k) : Prop where
  /-- A call that returned wrote all its bytes. -/
  complete : ∀ j n, (t.writers j).ret = some n → n = (calls j).nbytes.toNat
  /-- The offset is moved by what the calls return. -/
  offset : ∀ n : Fin k → Int, (∀ j, (t.writers j).ret = some (n j)) →
    ((t.sys.files f).offset : Int) = (s.files f).offset + ∑ j, n j
  /-- Each chunk has its own range of the file. -/
  disjoint : t.log.Pairwise fun c d => c.pos + c.len ≤ d.pos
  /-- The chunks of a call are written in their order, each once. -/
  order : ∀ j, (t.writers j).ret.isSome →
    (t.log.filter (·.call = j)).map (fun c => (c.start, c.len)) = chunks (calls j).nbytes.toNat
  /-- Each chunk is in the file. -/
  own : ∀ c ∈ t.log, ∃ d, Dir.readi i (fun _ => 0) c.pos c.len t.sys.kern = .ok ((c.len, d), t.sys.kern) ∧
    (List.range c.len).map d = c.bytes calls
  /-- From the initial to the final offset the file has the chunks, one after the other. -/
  contents : ∃ d, Dir.readi i (fun _ => 0) (s.files f).offset ((t.sys.files f).offset - (s.files f).offset)
      t.sys.kern = .ok ((((t.sys.files f).offset - (s.files f).offset : Nat), d), t.sys.kern) ∧
    (List.range ((t.sys.files f).offset - (s.files f).offset)).map d = t.log.flatMap (Chunk.bytes calls)

/-! ## §3 One turn -/

section Turn

variable {s : Sys} {f i : Nat} {Q : Finset Inode.Place}

theorem perop_pos {nbytes total : Nat} (h : total < nbytes) : 0 < perop nbytes total := by
  have hmax : 0 < maxbytes := by decide
  unfold perop
  omega

theorem perop_le (nbytes total : Nat) : perop nbytes total ≤ nbytes - total := Nat.min_le_left _ _

theorem ilock_valid {s : Dir.Kern} (href : 1 ≤ (s.node i).ref) (hvalid : (s.node i).valid = true)
    (hfree : s.slk i = false) :
    Dir.ilock i s = .ok (0, { s with slk := Function.update s.slk i true }) := by
  have hnode : (Dir.Kern.node { s with slk := Function.update s.slk i true } i).valid = true := hvalid
  have hlt : ¬ (s.node i).ref < 1 := by omega
  have hlock : Dir.sleepLock i s = .ok (⟨⟩, { s with slk := Function.update s.slk i true }) := by
    show (if s.slk i = true then throw _ else modify _ : Dir.FsM Unit) s = _
    rw [hfree, if_neg Bool.false_ne_true]
    rfl
  show (if (s.node i).ref < 1 then pure (-1) else _ : Dir.FsM Int) s = _
  rw [if_neg hlt, Lib.run_bind_of_ok hlock]
  show (if _ then pure 0 else _ : Dir.FsM Int) _ = _
  rw [if_pos hnode]
  rfl

theorem iunlock_held {s : Dir.Kern} (href : 1 ≤ (s.node i).ref) (hheld : s.slk i = true) :
    Dir.iunlock i s = .ok (0, { s with slk := Function.update s.slk i false }) := by
  show (if _ then pure (-1) else _ : Dir.FsM Int) s = _
  rw [if_neg (by simp [hheld]; omega)]
  rfl

/-- **A round of `file_write`** within the limit and with room writes all its bytes at the offset, and
    moves the offset behind them. -/
theorem writeRound_spec (h : OpenedForWriting s f i) (src : Nat → BitVec 8) (total : Nat) {n : Nat} (hn : 0 < n)
    (hmax : (s.files f).offset + n ≤ MAXFILESIZ)
    (hQ : ∀ l, l * BLKSIZE < (s.files f).offset + n → touched l ⊆ Q) (hroom : Room s.kern.fs i Q) :
    ∃ s', writeRound f src total n s = .ok ((n : Int), s') ∧ OpenedForWriting s' f i ∧
      (s'.files f).offset = (s.files f).offset + n ∧ Room s'.kern.fs i Q ∧
      Overwrites s.kern.fs i (s.files f).offset (fun k => src (total + k))
        (fun k => (s.files f).offset ≤ k ∧ k < (s.files f).offset + n) s'.kern.fs := by
  have hM : MAXFILESIZ = 4239360 := by decide
  have hdev : (s.kern.fs.icache.inode i).type ≠ T_DEV := by
    show (s.kern.node i).type ≠ T_DEV
    rw [h.regular]
    decide
  obtain ⟨fs, hwrite, hfs, hroom', hsize, hover⟩ :=
    h.disk.writei_bytes hdev h.offset hmax hQ hroom fun k => src (total + k)
  -- the states inside the critical section
  generalize hk₁ : ({ s.kern with slk := Function.update s.kern.slk i true } : Dir.Kern) = k₁
  have hlock : onKern (Dir.ilock i) s = .ok (0, { s with kern := k₁ }) := by
    unfold onKern
    rw [ilock_valid h.ref h.valid h.unlocked, hk₁]
  have hwrite' : onKern (Dir.writei i (fun k => src (total + k)) (s.files f).offset n) { s with kern := k₁ } =
      .ok ((n : Int), { s with kern := { k₁ with fs := fs } }) := by
    have hnotDev : ¬ ((k₁.node i).type = T_DEV ∧ (k₁.body i).major < Inode.NDEV ∧
        (k₁.fs.devStructs (k₁.body i).major).write.isSome) := by
      rw [← hk₁]
      exact fun hc => hdev hc.1
    have hrun : Dir.writei i (fun k => src (total + k)) (s.files f).offset n k₁ =
        .ok ((n : Int), { k₁ with fs := fs }) := by
      show (if _ then _ else _ : Dir.FsM Int) k₁ = _
      rw [if_neg hnotDev]
      unfold Dir.onFs
      rw [← hk₁]
      dsimp only
      rw [hwrite]
    unfold onKern
    rw [hrun]
  have hoff : ((s.files f).offset + (n : Int).toNat) % 2 ^ 32 = (s.files f).offset + n := by
    rw [Int.toNat_natCast]
    exact Nat.mod_eq_of_lt (by omega)
  generalize hv : { s.files f with offset := (s.files f).offset + n } = v
  have hget : ∀ t : Sys, (get : SysM Sys) t = .ok (t, t) := fun _ => rfl
  have hset : setFile f v { s with kern := { k₁ with fs := fs } } =
      .ok (⟨⟩, { s with kern := { k₁ with fs := fs }, files := Function.update s.files f v }) := rfl
  have hunlock : onKern (Dir.iunlock i)
      { s with kern := { k₁ with fs := fs }, files := Function.update s.files f v } =
      .ok (0, { s with kern := { s.kern with fs := fs }, files := Function.update s.files f v }) := by
    have href : 1 ≤ (Dir.Kern.node { k₁ with fs := fs } i).ref := by
      show 1 ≤ (fs.icache.inode i).ref
      rw [hover.icache]
      exact h.ref
    unfold onKern
    rw [iunlock_held href (by rw [← hk₁]; simp)]
    have hslk : Function.update (Function.update s.kern.slk i true) i false = s.kern.slk := by
      rw [Function.update_idem, ← h.unlocked, Function.update_eq_self]
    rw [← hk₁]
    dsimp only
    rw [hslk]
  refine ⟨{ s with kern := { s.kern with fs := fs }, files := Function.update s.files f v }, ?_, ?_, ?_,
    hroom', hover⟩
  · rw [writeRound, Lib.run_bind_of_ok (hget _), h.inode]
    dsimp only
    rw [Lib.run_bind_of_ok hlock, Lib.run_bind_of_ok (hget _)]
    dsimp only
    rw [Lib.run_bind_of_ok hwrite', Lib.run_bind_of_ok (hget _), if_pos (by omega)]
    dsimp only
    rw [hoff, hv, Lib.run_bind_of_ok hset, Lib.run_bind_of_ok hunlock]
    rfl
  · have hnode : (Dir.Kern.node { s.kern with fs := fs } i) = s.kern.node i := by
      show fs.icache.inode i = _
      rw [hover.icache]
      rfl
    refine ⟨?_, ?_, ?_, ?_, ?_, ?_, h.unlocked, hfs, ?_⟩
    · simp [← hv, h.inode]
    · simp only [Function.update_self, ← hv]
      exact h.writable
    · simpa [← hv] using h.notPipe
    · rw [hnode]
      exact h.regular
    · rw [hnode]
      exact h.ref
    · rw [hnode]
      exact h.valid
    · simp only [Function.update_self, ← hv]
      show _ ≤ (fs.body i).fileSiz
      rw [hsize]
      exact Nat.le_max_right _ _
  · simp [← hv]

/-- **A turn**: the call returns what it has written, or writes its next chunk. -/
theorem turn_spec (h : OpenedForWriting s f i) (c : WriteCall) {w : Writer}
    (hmax : (s.files f).offset + (c.nbytes.toNat - w.total) ≤ MAXFILESIZ)
    (hQ : ∀ l, l * BLKSIZE < (s.files f).offset + (c.nbytes.toNat - w.total) → touched l ⊆ Q)
    (hroom : Room s.kern.fs i Q) :
    (c.nbytes.toNat ≤ w.total ∧ turn f c w s = .ok (({ w with ret := some w.total }, 0), s)) ∨
    (w.total < c.nbytes.toNat ∧ ∃ s', turn f c w s =
        .ok (({ w with total := w.total + perop c.nbytes.toNat w.total }, perop c.nbytes.toNat w.total), s') ∧
      OpenedForWriting s' f i ∧ (s'.files f).offset = (s.files f).offset + perop c.nbytes.toNat w.total ∧
      Room s'.kern.fs i Q ∧
      Overwrites s.kern.fs i (s.files f).offset (fun k => c.src (w.total + k))
        (fun k => (s.files f).offset ≤ k ∧ k < (s.files f).offset + perop c.nbytes.toNat w.total) s'.kern.fs) := by
  by_cases hlt : w.total < c.nbytes.toNat
  · right
    have hpos := perop_pos hlt
    have hle := perop_le c.nbytes.toNat w.total
    obtain ⟨s', hround, hopen, hoff, hroom', hover⟩ := writeRound_spec h c.src w.total hpos
      (by omega) (fun l hl => hQ l (by omega)) hroom
    refine ⟨hlt, s', ?_, hopen, hoff, hroom', hover⟩
    unfold turn
    rw [if_pos (by omega), Lib.run_bind_of_ok hround, if_neg (by omega), Int.toNat_natCast]
    rfl
  · left
    refine ⟨by omega, ?_⟩
    unfold turn
    rw [if_neg (by omega)]
    rfl

end Turn

/-! ## §4 Chunks -/

section Chunks

variable {calls : Fin k → WriteCall} {a b : Nat}

/-- The chunks follow each other in the file without gaps, from `a` to `b`. -/
def Consecutive : List (Chunk k) → Nat → Nat → Prop
  | [], a, b => a = b
  | c :: cs, a, b => c.pos = a ∧ Consecutive cs (a + c.len) b

theorem Consecutive.append {cs : List (Chunk k)} {c : Chunk k} (h : Consecutive cs a b) (hc : c.pos = b) :
    Consecutive (cs ++ [c]) a (b + c.len) := by
  induction cs generalizing a with
  | nil =>
    obtain rfl : a = b := h
    exact ⟨hc, rfl⟩
  | cons d cs ih => exact ⟨h.1, ih h.2⟩

theorem Consecutive.le {cs : List (Chunk k)} (h : Consecutive cs a b) : a ≤ b := by
  induction cs generalizing a with
  | nil => exact Nat.le_of_eq h
  | cons c cs ih => exact (Nat.le_add_right a c.len).trans (ih h.2)

/-- A chunk of the list lies between `a` and `b`. -/
theorem Consecutive.mem {cs : List (Chunk k)} (h : Consecutive cs a b) {c : Chunk k} (hc : c ∈ cs) :
    a ≤ c.pos ∧ c.pos + c.len ≤ b := by
  induction cs generalizing a with
  | nil => cases hc
  | cons d cs ih =>
    have hle := h.2.le
    cases hc with
    | head => exact ⟨Nat.le_of_eq h.1.symm, by rw [h.1]; exact hle⟩
    | tail _ hc =>
      obtain ⟨hge, hend⟩ := ih h.2 hc
      exact ⟨by omega, hend⟩

theorem Consecutive.disjoint {cs : List (Chunk k)} (h : Consecutive cs a b) :
    cs.Pairwise fun c d => c.pos + c.len ≤ d.pos := by
  induction cs generalizing a with
  | nil => exact List.Pairwise.nil
  | cons c cs ih =>
    refine List.Pairwise.cons (fun d hd => ?_) (ih h.2)
    rw [h.1]
    exact (h.2.mem hd).1

/-- What a file has between `a` and `b` when it has each chunk at its place. -/
theorem Consecutive.bytes {cs : List (Chunk k)} (h : Consecutive cs a b) {g : Nat → BitVec 8}
    (hg : ∀ c ∈ cs, ∀ m < c.len, g (c.pos + m) = (calls c.call).src (c.start + m)) :
    (List.range' a (b - a)).map g = cs.flatMap (Chunk.bytes calls) := by
  induction cs generalizing a with
  | nil =>
    obtain rfl : a = b := h
    simp
  | cons c cs ih =>
    have hle := h.2.le
    have hsplit : b - a = c.len + (b - (a + c.len)) := by omega
    have hfirst : (List.range' a c.len).map g = c.bytes calls := by
      unfold Chunk.bytes
      rw [List.range'_eq_map_range, List.range'_eq_map_range, List.map_map, List.map_map]
      refine List.map_congr_left fun m hm => ?_
      have hbyte := hg c List.mem_cons_self m (List.mem_range.1 hm)
      rw [h.1] at hbyte
      exact hbyte
    rw [hsplit, ← List.range'_append_1, List.map_append, hfirst, List.flatMap_cons,
      ih h.2 fun d hd => hg d (List.mem_cons_of_mem c hd)]

/-- More fuel than bytes that are left makes no difference. -/
theorem chunksFrom_fuel (nbytes fuel fuel' : Nat) {total : Nat} (hf : nbytes - total ≤ fuel)
    (hf' : nbytes - total ≤ fuel') : chunksFrom nbytes fuel total = chunksFrom nbytes fuel' total := by
  induction fuel generalizing fuel' total with
  | zero =>
    cases fuel' with
    | zero => rfl
    | succ fuel' =>
      unfold chunksFrom
      rw [if_neg (by omega)]
  | succ fuel ih =>
    cases fuel' with
    | zero =>
      unfold chunksFrom
      rw [if_neg (by omega)]
    | succ fuel' =>
      unfold chunksFrom
      by_cases hlt : total < nbytes
      · have hpos := perop_pos hlt
        rw [if_pos hlt, if_pos hlt, ih fuel' (by omega) (by omega)]
      · rw [if_neg hlt, if_neg hlt]

/-- The chunks that are left when `total` bytes are written. -/
def rest (nbytes total : Nat) : List (Nat × Nat) := chunksFrom nbytes (nbytes - total) total

theorem rest_of_le {nbytes total : Nat} (h : nbytes ≤ total) : rest nbytes total = [] := by
  unfold rest
  rw [Nat.sub_eq_zero_of_le h]
  rfl

theorem rest_of_lt {nbytes total : Nat} (h : total < nbytes) :
    rest nbytes total = (total, perop nbytes total) :: rest nbytes (total + perop nbytes total) := by
  have hpos := perop_pos h
  obtain ⟨fuel, hfuel⟩ := Nat.exists_eq_add_of_lt h
  unfold rest
  rw [show nbytes - total = fuel + 1 by omega, chunksFrom, if_pos h]
  rw [chunksFrom_fuel nbytes fuel (nbytes - (total + perop nbytes total)) (by omega) (by omega)]

end Chunks

/-! ## §5 Runs -/

section Inv

variable {s : Sys} {f i : Nat} {calls : Fin k → WriteCall} {t : Writers k}

/-- **The invariant**: the log has the chunks that are behind the calls, one after the other, and the
    file has their bytes. -/
structure SharedInv (s : Sys) (f i : Nat) (calls : Fin k → WriteCall) (t : Writers k) : Prop where
  opened : OpenedForWriting t.sys f i
  room : Room t.sys.kern.fs i (finalPlaces s f calls)
  bound : ∀ j, (t.writers j).total ≤ (calls j).nbytes.toNat
  offset : (t.sys.files f).offset = (s.files f).offset + ∑ j, (t.writers j).total
  returned : ∀ j n, (t.writers j).ret = some n →
    n = (t.writers j).total ∧ (calls j).nbytes.toNat ≤ (t.writers j).total
  order : ∀ j, (t.log.filter (·.call = j)).map (fun c => (c.start, c.len)) ++
    rest (calls j).nbytes.toNat (t.writers j).total = chunks (calls j).nbytes.toNat
  consecutive : Consecutive t.log (s.files f).offset (t.sys.files f).offset
  mapped : ∀ k, (s.files f).offset ≤ k → k < (t.sys.files f).offset → Mapped t.sys.kern.fs i k
  bytes : ∀ c ∈ t.log, ∀ m < c.len, byteAt t.sys.kern.fs i (c.pos + m) = (calls c.call).src (c.start + m)

theorem started_inv (h : OpenedForWriting s f i) (hroom : Room s.kern.fs i (finalPlaces s f calls)) :
    SharedInv s f i calls (started f k s) where
  opened := h
  room := hroom
  bound _ := Nat.zero_le _
  offset := by
    show _ = _ + ∑ _, 0
    rw [Finset.sum_const_zero, Nat.add_zero]
    rfl
  returned j n hret := by
    have hnone : enter (s.files f) = ⟨0, none⟩ := by
      unfold enter
      rw [if_pos h.writable]
    simp only [started, hnone] at hret
    cases hret
  order j := by
    show [] ++ chunksFrom _ (_ - 0) 0 = chunksFrom _ _ 0
    rw [Nat.sub_zero, List.nil_append]
  consecutive := rfl
  mapped k hge hlt := absurd (lt_of_le_of_lt hge hlt) (lt_irrefl _)
  bytes c hc := by cases hc

/-- What is left of a call fits below the limit. -/
theorem SharedInv.left_le (h : SharedInv s f i calls t) (j : Fin k) :
    (t.sys.files f).offset + ((calls j).nbytes.toNat - (t.writers j).total) ≤ finalOffset s f calls := by
  have hsum : ∑ j', (t.writers j').total + ((calls j).nbytes.toNat - (t.writers j).total) ≤
      ∑ j', (calls j').nbytes.toNat := by
    rw [← Finset.add_sum_erase _ _ (Finset.mem_univ j), ← Finset.add_sum_erase _ _ (Finset.mem_univ j)]
    have hrest := Finset.sum_le_sum (s := Finset.univ.erase j) fun j' _ => h.bound j'
    have hj := h.bound j
    omega
  have hoff := h.offset
  unfold finalOffset
  omega

theorem touched_finalPlaces {l : Nat} (hl : l * BLKSIZE < finalOffset s f calls) :
    touched l ⊆ finalPlaces s f calls := by
  apply Inode.touched_subset
  rw [Nat.lt_div_iff_mul_lt (by decide)]
  have hpos : 0 < BLKSIZE := by decide
  omega

/-- **One step** keeps the invariant: the chunk that it writes is the next one of its call, and goes
    behind all others. -/
theorem SharedInv.step (h : SharedInv s f i calls t) (hmax : finalOffset s f calls ≤ MAXFILESIZ) (j : Fin k) :
    ∃ t', writersStep f calls t j = .ok t' ∧ SharedInv s f i calls t' := by
  unfold writersStep
  by_cases hret : (t.writers j).ret.isSome
  · rw [if_pos hret]
    exact ⟨t, rfl, h⟩
  rw [if_neg hret]
  have hleft := h.left_le j
  rcases turn_spec h.opened (calls j) (w := t.writers j) (hleft.trans hmax)
    (fun l hl => touched_finalPlaces (hl.trans_le hleft)) h.room with
    ⟨hdone, hturn⟩ | ⟨hlt, sys, hturn, hopened, hoff, hroom, hover⟩
  · -- the call returns
    rw [hturn]
    dsimp only
    rw [if_neg (Nat.lt_irrefl 0), List.append_nil]
    refine ⟨_, rfl, ?_⟩
    have htotal : ∀ j', (Function.update t.writers j
        { t.writers j with ret := some ((t.writers j).total : Int) } j').total = (t.writers j').total := by
      intro j'
      by_cases hj : j' = j
      · rw [hj, Function.update_self]
      · rw [Function.update_of_ne hj]
    refine ⟨h.opened, h.room, fun j' => ?_, ?_, fun j' n hn => ?_, fun j' => ?_, h.consecutive, h.mapped, h.bytes⟩
    · rw [htotal]
      exact h.bound j'
    · simp only [htotal]
      exact h.offset
    · rw [htotal]
      dsimp only at hn
      by_cases hj : j' = j
      · subst hj
        rw [Function.update_self] at hn
        exact ⟨(Option.some.inj hn).symm, hdone⟩
      · rw [Function.update_of_ne hj] at hn
        exact h.returned j' n hn
    · rw [htotal]
      exact h.order j'
  · -- the call writes a chunk
    rw [hturn]
    dsimp only
    have hpos := perop_pos hlt
    have hle := perop_le (calls j).nbytes.toNat (t.writers j).total
    generalize hn : perop (calls j).nbytes.toNat (t.writers j).total = n at hpos hle hoff hover
    rw [if_pos hpos]
    refine ⟨_, rfl, ?_⟩
    have htotal : ∀ j', (Function.update t.writers j
        { t.writers j with total := (t.writers j).total + n } j').total =
        (t.writers j').total + if j' = j then n else 0 := by
      intro j'
      by_cases hj : j' = j
      · rw [hj, Function.update_self, if_pos rfl]
      · rw [Function.update_of_ne hj, if_neg hj, Nat.add_zero]
    have hbelow : (t.sys.files f).offset + n ≤ MAXFILESIZ := by omega
    have hge := h.consecutive.le
    -- what was written before is not in the range of the new chunk
    have hkept : ∀ k, (s.files f).offset ≤ k → k < (t.sys.files f).offset →
        Mapped sys.kern.fs i k ∧ byteAt sys.kern.fs i k = byteAt t.sys.kern.fs i k := by
      intro k hk hk'
      exact hover.kept i k (by omega) (fun hc => by omega) (h.mapped k hk hk')
    refine ⟨hopened, hroom, fun j' => ?_, ?_, fun j' m hm => ?_, fun j' => ?_, ?_, fun k hk hk' => ?_,
      fun c hc m hm => ?_⟩
    · rw [htotal]
      by_cases hj : j' = j
      · rw [hj, if_pos rfl]
        omega
      · rw [if_neg hj, Nat.add_zero]
        exact h.bound j'
    · simp only [htotal, Finset.sum_add_distrib, Finset.sum_ite_eq', Finset.mem_univ, if_true]
      rw [hoff, h.offset, Nat.add_assoc]
    · dsimp only at hm ⊢
      by_cases hj : j' = j
      · subst hj
        rw [Function.update_self] at hm
        rw [show (t.writers j').ret = some m from hm] at hret
        exact absurd rfl hret
      · rw [Function.update_of_ne hj] at hm ⊢
        exact h.returned j' m hm
    · rw [htotal, List.filter_append, List.map_append]
      by_cases hj : j' = j
      · subst hj
        have horder := h.order j'
        rw [rest_of_lt hlt, hn] at horder
        rw [if_pos rfl]
        simpa using horder
      · have hne : ¬ j = j' := fun hc => hj hc.symm
        rw [if_neg hj, Nat.add_zero]
        simpa [hne] using h.order j'
    · rw [hoff]
      exact h.consecutive.append rfl
    · dsimp only at hk' ⊢
      by_cases hnew : k < (t.sys.files f).offset
      · exact (hkept k hk hnew).1
      · exact (hover.written k (by omega) ⟨by omega, by omega⟩).1
    · rcases List.mem_append.1 hc with hold | hnew
      · obtain ⟨hlo, hhi⟩ := h.consecutive.mem hold
        rw [(hkept _ (by omega) (by omega)).2]
        exact h.bytes c hold m hm
      · obtain rfl := List.mem_singleton.1 hnew
        dsimp only at hm ⊢
        rw [(hover.written _ (by omega) ⟨by omega, by omega⟩).2]
        congr 1
        omega

/-- The kernel reads back what it wrote. -/
theorem SharedInv.readi (h : SharedInv s f i calls t) (hmax : finalOffset s f calls ≤ MAXFILESIZ) {p n : Nat}
    (hp : (s.files f).offset ≤ p) (hn : p + n ≤ (t.sys.files f).offset) :
    ∃ d, Dir.readi i (fun _ => 0) p n t.sys.kern = .ok (((n : Int), d), t.sys.kern) ∧
      (List.range n).map d = (List.range' p n).map (byteAt t.sys.kern.fs i) := by
  have hM : MAXFILESIZ = 4239360 := by decide
  have hoff : (t.sys.files f).offset ≤ finalOffset s f calls := by
    rw [h.offset]
    exact Nat.add_le_add_left (Finset.sum_le_sum fun j _ => h.bound j) _
  have hsize := h.opened.offset
  have hmod : (p + n) % 2 ^ 32 = p + n := Nat.mod_eq_of_lt (by omega)
  obtain ⟨d, hloop, hd⟩ := Inode.readLoop_bytes (show p + n ≤ MAXFILESIZ by omega) n 0 (by omega)
    (fun k hk hk' => h.mapped k (by omega) (by omega)) fun _ => 0
  refine ⟨d, ?_, ?_⟩
  · have hnotDev : (t.sys.kern.node i).type ≠ T_DEV := by
      rw [h.opened.regular]
      decide
    show (if (t.sys.kern.node i).type = T_DEV then _ else _ : Dir.FsM (Int × Inode.Block)) t.sys.kern = _
    rw [if_neg hnotDev, if_neg (by omega), hmod, if_neg (by omega)]
    have hon : Dir.onFs (Dir.readLoop i p n n 0 fun _ => 0) t.sys.kern = .ok (d, t.sys.kern) := by
      unfold Dir.onFs
      rw [hloop]
    rw [Lib.run_bind_of_ok hon]
    rfl
  · rw [List.range'_eq_map_range, List.map_map]
    refine List.map_congr_left fun m hm => ?_
    have hlt := List.mem_range.1 hm
    rw [hd, if_pos ⟨Nat.zero_le _, hlt⟩]
    rfl

theorem SharedInv.losesNoWrite (h : SharedInv s f i calls t) (hmax : finalOffset s f calls ≤ MAXFILESIZ) :
    LosesNoWrite s f i calls t where
  complete j n hret := by
    obtain ⟨rfl, hdone⟩ := h.returned j n hret
    exact_mod_cast Nat.le_antisymm (h.bound j) hdone
  offset n hret := by
    have hsum : ∑ j, n j = ((∑ j, (t.writers j).total : Nat) : Int) := by
      rw [Nat.cast_sum]
      exact Finset.sum_congr rfl fun j _ => (h.returned j _ (hret j)).1
    rw [h.offset, hsum, Nat.cast_add]
  disjoint := h.consecutive.disjoint
  order j hret := by
    obtain ⟨n, hn⟩ := Option.isSome_iff_exists.1 hret
    have horder := h.order j
    rwa [rest_of_le (h.returned j n hn).2, List.append_nil] at horder
  own c hc := by
    obtain ⟨hlo, hhi⟩ := h.consecutive.mem hc
    obtain ⟨d, hread, hd⟩ := h.readi hmax hlo hhi
    refine ⟨d, hread, hd.trans ?_⟩
    unfold Chunk.bytes
    rw [List.range'_eq_map_range, List.range'_eq_map_range, List.map_map, List.map_map]
    exact List.map_congr_left fun m hm => h.bytes c hc m (List.mem_range.1 hm)
  contents := by
    have hle := h.consecutive.le
    obtain ⟨d, hread, hd⟩ := h.readi hmax (Nat.le_refl _) (Nat.le_of_eq (Nat.add_sub_of_le hle))
    exact ⟨d, hread, hd.trans (h.consecutive.bytes h.bytes)⟩

/-- **Shared offsets lose no writes**: any processes write to one open file, in any order of their turns.
    With enough disk space and below the size limit, each chunk has its own range of the file, and from
    the initial to the final offset the file has an interleaving of the chunks of the calls. -/
theorem writes_interleave {s : Sys} {f i k : Nat} (h : OpenedForWriting s f i) (calls : Fin k → WriteCall)
    (hmax : finalOffset s f calls ≤ MAXFILESIZ) (hroom : Room s.kern.fs i (finalPlaces s f calls))
    (turns : List (Fin k)) :
    ∃ t, turns.foldlM (writersStep f calls) (started f k s) = .ok t ∧ LosesNoWrite s f i calls t := by
  have hrun : ∀ t, SharedInv s f i calls t →
      ∃ t', turns.foldlM (writersStep f calls) t = .ok t' ∧ SharedInv s f i calls t' := by
    induction turns with
    | nil => exact fun t ht => ⟨t, rfl, ht⟩
    | cons j turns ih =>
      intro t ht
      obtain ⟨t₁, hstep, ht₁⟩ := ht.step hmax j
      rw [List.foldlM_cons, hstep]
      exact ih t₁ ht₁
  obtain ⟨t, hok, ht⟩ := hrun _ (started_inv h hroom)
  exact ⟨t, hok, ht.losesNoWrite hmax⟩

end Inv

end Runs

/-! ### A run -/

/-- The file system of `mkfs` with an empty file that one structure has open. -/
def sampleKern : Dir.Kern where
  fs := { Inode.mkfsRoot with
    icache := { Inode.mkfsRoot.icache with
      inode := fun i => if i = 1 then ⟨1, 2, 1, true, T_FILE, 1⟩ else Inode.mkfsRoot.icache.inode i } }
  slk _ := false
  devRead _ := false
  devIn := []
  junk _ := 0

def sampleSys : Sys where
  kern := sampleKern
  files f := if f = 0 then ⟨T_FILE, 2, 0, O_RDWR, some 1⟩ else ⟨FS_NONE, 0, 0, 0, none⟩
  flist := []
  nOpenfiles := 1
  procs _ := ⟨true, 0, fun fd => if fd = 0 then some 0 else none, 1⟩
  rootproc := 0

theorem sampleSys_opened : OpenedForWriting sampleSys 0 1 where
  inode := rfl
  writable := rfl
  notPipe := by decide
  regular := rfl
  ref := Nat.le_refl 1
  valid := rfl
  unlocked := rfl
  disk := by
    have h := Inode.mkfsRoot_fsInv
    refine ⟨h.sb, h.super, h.marked, fun i => ?_, h.sizes, h.owned⟩
    by_cases hi : i = 1
    · subst hi
      decide
    · have hino := h.inos i
      simpa [sampleSys, sampleKern, hi] using hino
  offset := Nat.le_refl 0

/-- Two processes write 100000 and 3 bytes; the second call runs between the two turns of the first. -/
def sampleCalls : Fin 2 → WriteCall := ![⟨fun _ => 97, 100000⟩, ⟨fun _ => 98, 3⟩]

theorem writes_interleave_sample :
    ∃ t, [0, 1, 0, 0, 1].foldlM (writersStep 0 sampleCalls) (started 0 2 sampleSys) = .ok t ∧
      LosesNoWrite sampleSys 0 1 sampleCalls t :=
  writes_interleave sampleSys_opened sampleCalls (by decide +kernel) (by decide +kernel) _

end WeiOS.Syscall
