import Mathlib
import WeiOS.Fs.FileCalls

/-!
# Copying a File

The loop of `user/cp.c`, which is that of `user/mv.c` too, over `read` and `write` of the kernel. The target is not cut
off when it is opened: what it has behind the end of the source stays.

## Main results
- `copyLoop_copies`: the loop ends, and the target has the bytes of the source.
-/

namespace WeiOS.Syscall

open WeiOS.Inode (Block BLKSIZE MAXFILESIZ T_DIR T_FILE Room overwrite placesOf)

/-- `char buf[512]`. -/
def BUFSIZE : Nat := 512

/-- The loop of `wmain`: whether it has ended after that many turns. -/
def copyLoop (p : Nat) (fd1 fd2 : Int) : Nat → Block → SysM Bool
  | 0, _ => pure false
  | fuel + 1, buf => do
    let r ← read p fd1 buf BUFSIZE
    if 0 < r.1 then
      let w ← write p fd2 r.2 r.1.toNat
      if w < 0 then pure true else copyLoop p fd1 fd2 fuel r.2
    else pure true

/-- The bytes of the source from its offset on. -/
def Files.rest (A : Files) (f i : Nat) : List (Option (BitVec 8)) := (A.bytes i).drop (A.offset f)

/-- All of them are read from `f` and written to `g`. -/
def Files.copy (A : Files) (f i g j : Nat) : Files := (A.move f (A.rest f i).length).put g j (A.rest f i)

section Copy

variable {s : Sys} {A : Files} {f g i j p : Nat} {fd1 fd2 : Int}

/-- What is written back where it was read changes nothing. -/
theorem overwrite_self {α : Type} (l : List α) (off n : Nat) : overwrite l off ((l.drop off).take n) = l := by
  apply List.ext_getElem?
  intro k
  by_cases hoff : off ≤ l.length
  · rw [Inode.getElem?_overwrite hoff]
    split
    · next hk =>
      rw [List.length_take, List.length_drop] at hk
      rw [List.getElem?_take_of_lt (by omega), List.getElem?_drop]
      congr 1
      omega
    · rfl
  · rw [List.drop_eq_nil_of_le (by omega), List.take_nil, overwrite_nil]

/-- One turn leaves the source, whether it is the target or not. -/
theorem Files.turn_bytes (hfg : f ≠ g) (hij : i ≠ j ∨ A.offset f = A.offset g) (n m : Nat) :
    ((A.move f m).put g j (A.ahead f i n)).bytes i = A.bytes i := by
  show Function.update A.bytes j (overwrite (A.bytes j) (Function.update A.offset f _ g) (A.ahead f i n)) i = _
  rw [Function.update_of_ne hfg.symm]
  by_cases hne : i = j
  · subst hne
    rw [Function.update_self, ← hij.resolve_left (not_not.2 rfl)]
    exact overwrite_self ..
  · rw [Function.update_of_ne hne]

theorem Files.rest_step (hfg : f ≠ g) (hij : i ≠ j ∨ A.offset f = A.offset g) (n : Nat) :
    ((A.move f (A.ahead f i n).length).put g j (A.ahead f i n)).rest f i = (A.rest f i).drop n := by
  unfold Files.rest
  rw [Files.turn_bytes hfg hij n (A.ahead f i n).length]
  show (A.bytes i).drop (Function.update (Function.update A.offset f _) g _ f) = _
  rw [Function.update_of_ne hfg, Function.update_self, List.drop_drop]
  unfold Files.ahead
  rw [List.length_take, List.length_drop]
  by_cases hn : n ≤ (A.bytes i).length - A.offset f
  · rw [Nat.min_eq_left hn]
  · rw [List.drop_eq_nil_of_le (by omega), List.drop_eq_nil_of_le (by omega)]

/-- **A turn and the rest** -/
theorem Files.copy_step (hfg : f ≠ g) (hij : i ≠ j ∨ A.offset f = A.offset g) (hin : A.offset g ≤ (A.bytes j).length)
    (n : Nat) : ((A.move f (A.ahead f i n).length).put g j (A.ahead f i n)).copy f i g j = A.copy f i g j := by
  have hrest := Files.rest_step hfg hij n
  have happend : A.ahead f i n ++ (A.rest f i).drop n = A.rest f i := List.take_append_drop n _
  have hlength : (A.ahead f i n).length + ((A.rest f i).drop n).length = (A.rest f i).length := by
    rw [← List.length_append, happend]
  unfold Files.copy
  rw [hrest]
  generalize A.ahead f i n = now at *
  generalize (A.rest f i).drop n = later at *
  unfold Files.put Files.move
  congr 1
  · -- the bytes of both turns
    dsimp only
    rw [Function.update_self, Function.update_idem, Function.update_of_ne hfg.symm, Function.update_of_ne hfg.symm,
      Function.update_self, overwrite_overwrite hin, happend, Function.update_of_ne hfg.symm]
  · funext e
    dsimp only
    by_cases heg : e = g
    · subst heg
      rw [Function.update_self, Function.update_self, Function.update_of_ne hfg.symm, Function.update_of_ne hfg.symm,
        Function.update_self, ← hlength, Nat.add_assoc, Function.update_of_ne hfg.symm]
    · rw [Function.update_of_ne heg, Function.update_of_ne heg]
      by_cases hef : e = f
      · subst hef
        rw [Function.update_self, Function.update_self, Function.update_of_ne heg, Function.update_self, ← hlength,
          Nat.add_assoc]
      · rw [Function.update_of_ne hef, Function.update_of_ne hef, Function.update_of_ne heg, Function.update_of_ne hef]

/-- **The loop of `cp`** ends, when the disk has room for the copy. -/
theorem copyLoop_copies {fuel m : Nat} (h : Shows s A) (hfile₁ : A.file p fd1 = some f) (hi : A.inode f = some i)
    (hr : A.canRead f = true) (hfile₂ : A.file p fd2 = some g) (hj : A.inode g = some j) (hw : A.canWrite g = true)
    (hfg : f ≠ g) (hij : i ≠ j ∨ A.offset f = A.offset g) (hm : A.offset g + (A.rest f i).length ≤ m)
    (hmax : m ≤ MAXFILESIZ) (hroom : Room s.kern.fs j (placesOf m))
    (hfuel : (A.rest f i).length + BUFSIZE ≤ fuel * BUFSIZE)
    (buf : Block) : ∃ s', copyLoop p fd1 fd2 fuel buf s = .ok (true, s') ∧ Shows s' (A.copy f i g j) := by
  induction fuel generalizing s A buf with
  | zero =>
    simp only [BUFSIZE] at hfuel
    omega
  | succ fuel ih =>
    obtain ⟨d, s₁, hread, hd, hshows₁, hkern⟩ := h.fileRead hi hr (show BUFSIZE < 2 ^ 31 by decide) buf
    have hahead : A.ahead f i BUFSIZE = (A.rest f i).take BUFSIZE := rfl
    have hlen : (A.ahead f i BUFSIZE).length = min BUFSIZE (A.rest f i).length := by rw [hahead, List.length_take]
    unfold copyLoop
    rw [Lib.run_bind_of_ok ((h.read_file hfile₁ buf).trans hread)]
    dsimp only
    by_cases hpos : 0 < (A.ahead f i BUFSIZE).length
    · have hin := h.inside g j hj
      have hoff : (A.move f (A.ahead f i BUFSIZE).length).offset g = A.offset g := Function.update_of_ne hfg.symm ..
      have hle : (A.ahead f i BUFSIZE).length ≤ (A.rest f i).length := by omega
      obtain ⟨s₂, hwrite, hshows₂, hroom₂⟩ := hshows₁.fileWrite d (A.ahead f i BUFSIZE).length hj hw
        (show _ ≤ m by rw [hoff]; omega) hmax (by rw [hkern]; exact hroom)
      have hbuf : BUFSIZE = 512 := rfl
      rw [if_pos (by omega), Int.toNat_natCast, Lib.run_bind_of_ok
        ((hshows₁.write_file hfile₂ (by omega)).trans hwrite), if_neg (by omega)]
      rw [hd] at hshows₂
      -- the next turns see the same source, also where it is the target
      have hstep := Files.copy_step (i := i) (j := j) hfg hij hin BUFSIZE
      have hrest := Files.rest_step hfg hij BUFSIZE
      have hoff₁ : ((A.move f (A.ahead f i BUFSIZE).length).put g j (A.ahead f i BUFSIZE)).offset f =
          A.offset f + (A.ahead f i BUFSIZE).length := by
        show Function.update (Function.update A.offset f _) g _ f = _
        rw [Function.update_of_ne hfg, Function.update_self]
      have hoff₂ : ((A.move f (A.ahead f i BUFSIZE).length).put g j (A.ahead f i BUFSIZE)).offset g =
          A.offset g + (A.ahead f i BUFSIZE).length := by
        show Function.update _ g _ g = _
        rw [Function.update_self, hoff]
      have hij₂ := hij.imp_right fun heq =>
        (hoff₁.trans (congrArg (· + (A.ahead f i BUFSIZE).length) heq)).trans hoff₂.symm
      have hturns : ((A.rest f i).drop BUFSIZE).length + BUFSIZE ≤ fuel * BUFSIZE := by
        rw [List.length_drop]
        simp only [BUFSIZE] at *
        omega
      obtain ⟨s', hloop, hshows'⟩ := ih hshows₂ hfile₁ hi hr hfile₂ hj hw hij₂
        (by rw [hoff₂, hrest, List.length_drop]; omega) hroom₂ (by rw [hrest]; exact hturns) d
      rw [hstep] at hshows'
      exact ⟨s', hloop, hshows'⟩
    · have hnil : A.rest f i = [] := by
        rw [← List.length_eq_zero_iff]
        have : 0 < BUFSIZE := by decide
        omega
      have hnil' : A.ahead f i BUFSIZE = [] := by rw [hahead, hnil, List.take_nil]
      rw [if_neg (by omega)]
      refine ⟨s₁, rfl, ?_⟩
      unfold Files.copy
      rw [hnil, Files.put_nil]
      rwa [hnil'] at hshows₁

/-- **`cp`** of a file that was just opened: the target begins with the bytes of the source, and what it has behind them
    stays; no other file changes. -/
theorem cp_copies {fuel : Nat} (h : Shows s A) (hfile₁ : A.file p fd1 = some f) (hi : A.inode f = some i)
    (hr : A.canRead f = true) (hfile₂ : A.file p fd2 = some g) (hj : A.inode g = some j) (hw : A.canWrite g = true)
    (hfg : f ≠ g) (hoff₁ : A.offset f = 0) (hoff₂ : A.offset g = 0)
    (hroom : Room s.kern.fs j (placesOf (A.bytes i).length)) (hfuel : (A.bytes i).length + BUFSIZE ≤ fuel * BUFSIZE)
    (buf : Block) : ∃ s' A', copyLoop p fd1 fd2 fuel buf s = .ok (true, s') ∧ Shows s' A' ∧
      A'.bytes j = A.bytes i ++ (A.bytes j).drop (A.bytes i).length ∧ ∀ k, k ≠ j → A'.bytes k = A.bytes k := by
  have hrest : A.rest f i = A.bytes i := by
    unfold Files.rest
    rw [hoff₁, List.drop_zero]
  have hsize : (A.bytes i).length ≤ MAXFILESIZ := by
    rw [← h.bytes i, Inode.length_contents]
    exact h.disk.sizes i
  obtain ⟨s', hloop, hshows⟩ := copyLoop_copies h hfile₁ hi hr hfile₂ hj hw hfg (.inr (hoff₁.trans hoff₂.symm))
    (show A.offset g + (A.rest f i).length ≤ (A.bytes i).length by rw [hrest, hoff₂, Nat.zero_add]) hsize hroom
    (by rw [hrest]; exact hfuel) buf
  refine ⟨s', _, hloop, hshows, ?_, fun k hk => Function.update_of_ne hk ..⟩
  show Function.update A.bytes j (overwrite (A.bytes j) (Function.update A.offset f _ g) _) j = _
  rw [Function.update_self, Function.update_of_ne hfg.symm, hoff₂, hrest]
  unfold overwrite
  rw [List.take_zero, List.nil_append, Nat.zero_add]

end Copy

/-- The root directory is open, and an empty file. -/
def rootAndEmpty : Sys :=
  { sampleSys with
    files := fun f => if f = 0 then ⟨T_DIR, 1, 0, O_RDONLY, some 0⟩ else ⟨T_FILE, 1, 0, O_RDWR, some 1⟩
    procs := fun _ => ⟨true, 0, fun fd => if fd < 2 then some fd else none, 2⟩ }

def rootAndEmptyArrays : Files where
  bytes := Inode.contents sampleKern.fs
  inode f := if f = 0 then some 0 else if f = 1 then some 1 else none
  flag f := if f = 0 then O_RDONLY else O_RDWR
  offset _ := 0
  table _ fd := if fd < 2 then some fd else none

theorem rootAndEmpty_bytes : rootAndEmptyArrays.bytes = Inode.contents sampleKern.fs := rfl

theorem rootAndEmpty_shows : Shows rootAndEmpty rootAndEmptyArrays := by
  refine ⟨sampleSys_opened.disk, fun _ => rfl, fun f i hi => ?_, fun f hf => ?_, fun f hf => ?_,
    fun _ _ _ => Nat.zero_le _,
    fun _ _ => rfl⟩
  · unfold rootAndEmptyArrays at hi
    dsimp only at hi
    split at hi
    · next hf =>
      obtain rfl := Option.some.inj hi
      subst hf
      refine ⟨rfl, by decide, by decide, by decide, by decide, rfl, rfl, fun k hk => ?_⟩
      have hlt : k / BLKSIZE = 0 := Nat.div_eq_of_lt hk
      unfold Inode.Mapped
      rw [hlt]
      decide
    · split at hi
      · next hf =>
        obtain rfl := Option.some.inj hi
        subst hf
        exact ⟨rfl, by decide, by decide, by decide, by decide, rfl, rfl, fun k hk => absurd hk (Nat.not_lt_zero k)⟩
      · cases hi
  · unfold rootAndEmpty rootAndEmptyArrays
    dsimp only
    split <;> rfl
  · unfold rootAndEmpty rootAndEmptyArrays
    dsimp only
    split <;> rfl

theorem cp_copies_root : ∃ s', copyLoop 0 0 1 9 (fun _ => 0) rootAndEmpty = .ok (true, s') ∧
    Inode.contents s'.kern.fs 1 = Inode.contents sampleKern.fs 0 := by
  have hlen : (rootAndEmptyArrays.bytes 0).length = BLKSIZE := by
    rw [rootAndEmpty_bytes, Inode.length_contents]
    rfl
  have hempty : rootAndEmptyArrays.bytes 1 = [] := rfl
  have hroom : Room rootAndEmpty.kern.fs 1 (placesOf (rootAndEmptyArrays.bytes 0).length) := by
    rw [hlen]
    decide +kernel
  have hfuel : (rootAndEmptyArrays.bytes 0).length + BUFSIZE ≤ 9 * BUFSIZE := by
    rw [hlen]
    decide
  have hsource : rootAndEmptyArrays.file 0 0 = some 0 := rfl
  have htarget : rootAndEmptyArrays.file 0 1 = some 1 := rfl
  obtain ⟨s', A', hloop, hshows, hbytes, _⟩ := cp_copies rootAndEmpty_shows hsource rfl rfl htarget rfl rfl
    (by decide) rfl rfl hroom hfuel fun _ => 0
  refine ⟨s', hloop, ?_⟩
  rw [hshows.bytes, hbytes, hempty, List.drop_nil, List.append_nil, rootAndEmpty_bytes]

end WeiOS.Syscall
