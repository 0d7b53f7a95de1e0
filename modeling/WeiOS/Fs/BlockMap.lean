import Mathlib
import WeiOS.Fs.ByteArray
import WeiOS.Fs.Mkfs

/-!
# The Block Maps of the Kernel and of mkfs

A logical block number has a place: a slot of the inode, or an entry of a table. The kernel's `bmap` has
three ranges of places, `iappend` of `mkfs` has two. In the doubly indirect range the kernel takes entry
`r - 1` of the last table, which for `r = 0` lies before the table, and `mkfs` indexes its one indirect
table out of bounds.

## Main results
- `kernelEntry_dataPlace`, `mkfsEntry_dataPlace`: the first two ranges.
- `addressed_iff`: these are all.
-/

namespace WeiOS.Mkfs

open WeiOS.Inode

/-! ## §1 The place of a block number -/

/-- The number at a place of the inode that `iappend` has in `din`. -/
def storedAt (im : Image) (d : DInode) : Place → Nat
  | .slot k => d.blkAddrs k
  | .ind j => word (im.disk (d.blkAddrs NDIRECT)) j
  | .dbl n => word (im.disk (d.blkAddrs (NDIRECT + 1))) n
  | .leaf n z => word (im.disk (word (im.disk (d.blkAddrs (NDIRECT + 1))) n)) z

/-- The kernel has the block of `l` at place `π`, which is inside the inode or a table: `bmap` returns the number
    that is there afterwards, and returns it again. -/
def KernelEntry (l : Nat) (π : Place) : Prop :=
  ∀ (s : FileSys) (i : Nat), FsInv s →
    ∃ b s', bmap s i l = .ok (b, s') ∧ stored s' i π = b ∧ bmap s' i l = .ok (b, s')

/-- `mkfs` has the block of `l` at place `π`. -/
def MkfsEntry (l : Nat) (π : Place) : Prop :=
  ∀ (im : Image) (d : DInode), im.freeblock ≤ FSSIZE →
    ∃ x im' d', fileBlock im d l = some (x, im', d') ∧ storedAt im' d' π = x

/-- Block number `l` is addressed as it should be: there is a place for it in the kernel, the same in `mkfs`, and
    no other block number has that place. -/
def Addressed (l : Nat) : Prop :=
  ∃ π, KernelEntry l π ∧ MkfsEntry l π ∧ ∀ l' < MAXFILE, KernelEntry l' π → l' = l

section Entries

variable {l : Nat}

theorem kernelEntry_dataPlace (hl : l < NDIRECT + NINDIRECT) : KernelEntry l (dataPlace l) := by
  intro s i h
  obtain ⟨b, s', hmap, h', _, hb, hfull, _⟩ := h.bmap_grows i hl
  refine ⟨b, s', hmap, hb, ?_⟩
  by_cases h0 : b = 0
  · rw [h0]
    exact h'.bmap_full (hfull h0) i hl (hb.trans h0)
  · have hagain := bmap_of_mapped hl (show blockAt s' i l ≠ 0 by rw [hb]; exact h0)
    rw [hagain, hb]

theorem mkfsEntry_dataPlace (hl : l < NDIRECT + NINDIRECT) : MkfsEntry l (dataPlace l) := by
  intro im d hfree
  unfold fileBlock
  by_cases hdir : l < NDIRECT
  · rw [if_pos hdir, dataPlace_of_lt hdir]
    exact ⟨_, _, _, rfl, slot_blkAddrs im d l⟩
  · rw [if_neg hdir, if_pos (by omega), dataPlace_of_ge hdir hl]
    have haddr := slot_blkAddrs im d NDIRECT
    have hle := slot_freeblock_le im d NDIRECT
    generalize slot im d NDIRECT = out at haddr hle
    obtain ⟨t, im₁, d₁⟩ := out
    dsimp only at haddr hle ⊢
    by_cases h0 : word (im₁.disk t) (l - NDIRECT) = 0
    · rw [if_pos h0]
      refine ⟨_, _, _, rfl, ?_⟩
      -- the new number is in the table that was written
      have hsize : im₁.freeblock < 2 ^ 32 := by
        have hF : FSSIZE = 5000 := rfl
        omega
      have hdisk : Function.update im₁.disk t (setWord (im₁.disk t) (l - NDIRECT) im₁.freeblock) t =
          setWord (im₁.disk t) (l - NDIRECT) im₁.freeblock := Function.update_self ..
      show word (Function.update im₁.disk t _ (d₁.blkAddrs NDIRECT)) (l - NDIRECT) = _
      rw [haddr, hdisk]
      exact word_setWord hsize
    · rw [if_neg h0]
      refine ⟨_, _, _, rfl, ?_⟩
      show word (im₁.disk (d₁.blkAddrs NDIRECT)) (l - NDIRECT) = _
      rw [haddr]

/-! ## §2 The doubly indirect range -/

/-- `mkfs` has no blocks there. -/
theorem fileBlock_none (im : Image) (d : DInode) (hl : NDIRECT + NINDIRECT ≤ l) : fileBlock im d l = none := by
  unfold fileBlock
  rw [if_neg (by omega), if_neg (by omega)]

/-- A file that has one doubly indirect block, at entry `z` of table `n`, and its two tables. -/
def deepFile (n z : Nat) : FileSys :=
  { emptyFile with
    disk := fun b =>
      if b = 126 then fun k => if k < 16 then 255 else if k = 16 then 7 else 0
      else if b = 128 then setWord (fun _ => 0) n 129
      else if b = 129 then setWord (fun _ => 0) z 130
      else emptyFile.disk b
    body := fun i => if i = 1 then ⟨0, 0, 0, fun k => if k = NDIRECT + 1 then 128 else 0⟩ else emptyFile.body i }

/-- The places of the deep file, and the one of the root directory. -/
theorem stored_deepFile {n z : Nat} {i : Nat} {π : Place} (hne : stored (deepFile n z) i π ≠ 0) :
    (i = 0 ∧ π = .slot 0 ∧ stored (deepFile n z) i π = 127) ∨
      (i = 1 ∧ π = .slot ⟨NDIRECT + 1, by decide⟩ ∧ stored (deepFile n z) i π = 128) ∨
      (i = 1 ∧ (∃ j : Fin NINDIRECT, (j : Nat) = n ∧ π = .dbl j) ∧ stored (deepFile n z) i π = 129) ∨
      (i = 1 ∧ (∃ j k : Fin NINDIRECT, (j : Nat) = n ∧ (k : Nat) = z ∧ π = .leaf j k) ∧
        stored (deepFile n z) i π = 130) := by
  have htable : ∀ j : Nat, word ((deepFile n z).disk 128) j = if j = n then 129 else 0 := by
    intro j
    show word (setWord (fun _ => 0) n 129) j = _
    by_cases hj : j = n
    · rw [hj, word_setWord (by decide), if_pos rfl]
    · rw [word_setWord_of_ne hj, if_neg hj]
      rfl
  have hleaf : ∀ j : Nat, word ((deepFile n z).disk 129) j = if j = z then 130 else 0 := by
    intro j
    show word (setWord (fun _ => 0) z 130) j = _
    by_cases hj : j = z
    · rw [hj, word_setWord (by decide), if_pos rfl]
    · rw [word_setWord_of_ne hj, if_neg hj]
      rfl
  by_cases hi : i = 1
  · subst hi
    right
    have haddr : ∀ k, ((deepFile n z).body 1).blkAddrs k = if k = NDIRECT + 1 then 128 else 0 := fun _ => rfl
    have hdbl : ∀ j : Nat, entry (deepFile n z) 128 j = if j = n then 129 else 0 := fun j =>
      (entry_of_ne (by decide) j).trans (htable j)
    cases π with
    | slot k =>
      left
      simp only [stored, haddr] at hne ⊢
      by_cases hk : (k : Nat) = NDIRECT + 1
      · exact ⟨trivial, congrArg Place.slot (Fin.ext hk), if_pos hk⟩
      · exact absurd (if_neg hk) hne
    | ind j => exact absurd rfl hne
    | dbl j =>
      right
      left
      simp only [stored, haddr, if_true, hdbl] at hne ⊢
      by_cases hj : (j : Nat) = n
      · exact ⟨trivial, ⟨j, hj, rfl⟩, if_pos hj⟩
      · exact absurd (if_neg hj) hne
    | leaf j k =>
      right
      right
      simp only [stored, haddr, if_true, hdbl] at hne ⊢
      by_cases hj : (j : Nat) = n
      · rw [if_pos hj, entry_of_ne (by decide), hleaf] at hne ⊢
        by_cases hk : (k : Nat) = z
        · exact ⟨trivial, ⟨j, k, hj, hk, rfl⟩, if_pos hk⟩
        · exact absurd (if_neg hk) hne
      · rw [if_neg hj] at hne
        exact absurd rfl hne
  -- the other inodes are those of `mkfs`
  · left
    have hbody : (deepFile n z).body i = mkfsRoot.body i := if_neg hi
    have hno : ∀ k, k ≠ 0 → (mkfsRoot.body i).blkAddrs k = 0 := fun k hk => if_neg fun hc => hk hc.2
    have hsame : stored (deepFile n z) i π = stored mkfsRoot i π := by
      cases π with
      | slot k => simp only [stored, hbody]
      | ind j => simp only [stored, hbody, hno NDIRECT (by decide), entry, if_true]
      | dbl j => simp only [stored, hbody, hno (NDIRECT + 1) (by decide), entry, if_true]
      | leaf j k => simp only [stored, hbody, hno (NDIRECT + 1) (by decide), entry, if_true]
    rw [hsame] at hne ⊢
    exact stored_mkfsRoot hne

theorem deepFile_fsInv (n z : Nat) : FsInv (deepFile n z) where
  sb := rfl
  super := mkfsRoot_fsInv.super
  marked := by
    have hused : ∀ b, used (deepFile n z) b = bitSet (fun k => if k < 16 then 255 else if k = 16 then 7 else 0) b :=
      fun _ => rfl
    simp only [hused]
    decide +kernel
  inos := emptyFile_fsInv.inos
  sizes i := by
    by_cases hi : i = 1
    · subst hi
      exact Nat.zero_le _
    · have hbody : (deepFile n z).body i = emptyFile.body i := if_neg hi
      rw [hbody]
      exact emptyFile_fsInv.sizes i
  owned i π hne := by
    have hused : ∀ b, used (deepFile n z) b = bitSet (fun k => if k < 16 then 255 else if k = 16 then 7 else 0) b :=
      fun _ => rfl
    have hvalue := stored_deepFile hne
    refine ⟨?_, ?_, fun i' π' heq => ?_⟩
    · rcases hvalue with ⟨_, _, hv⟩ | ⟨_, _, hv⟩ | ⟨_, _, hv⟩ | ⟨_, _, hv⟩ <;> rw [hv] <;> decide
    · rw [hused]
      rcases hvalue with ⟨_, _, hv⟩ | ⟨_, _, hv⟩ | ⟨_, _, hv⟩ | ⟨_, _, hv⟩ <;> rw [hv] <;> decide +kernel
    · have hvalue' := stored_deepFile (show stored (deepFile n z) i' π' ≠ 0 by rw [heq]; exact hne)
      rw [heq] at hvalue'
      -- the number tells the place
      rcases hvalue with ⟨hi, hπ, hv⟩ | ⟨hi, hπ, hv⟩ | ⟨hi, ⟨j, hj, hπ⟩, hv⟩ | ⟨hi, ⟨j, k, hj, hk, hπ⟩, hv⟩ <;>
        rcases hvalue' with ⟨hi', hπ', hv'⟩ | ⟨hi', hπ', hv'⟩ | ⟨hi', ⟨j', hj', hπ'⟩, hv'⟩ |
          ⟨hi', ⟨j', k', hj', hk', hπ'⟩, hv'⟩ <;>
        first
        | exact absurd (hv.symm.trans hv') (by decide)
        | skip
      · exact ⟨hi'.trans hi.symm, hπ'.trans hπ.symm⟩
      · exact ⟨hi'.trans hi.symm, hπ'.trans hπ.symm⟩
      · obtain rfl : j' = j := Fin.ext (hj'.trans hj.symm)
        exact ⟨hi'.trans hi.symm, hπ'.trans hπ.symm⟩
      · obtain rfl : j' = j := Fin.ext (hj'.trans hj.symm)
        obtain rfl : k' = k := Fin.ext (hk'.trans hk.symm)
        exact ⟨hi'.trans hi.symm, hπ'.trans hπ.symm⟩

/-- `bmap` on a block that the doubly indirect block is for, when both tables are there. -/
theorem bmap_double {s u v : FileSys} {i k b c : Nat} (hk : k < NDINDIRECT)
    (hslot : slotBlock s i (NDIRECT + 1) = (b + 1, u))
    (hdbl : entryBlock u (b + 1) (k / NINDIRECT) = (c + 1, v)) :
    bmap s i (NDIRECT + NINDIRECT + k) = if k % NINDIRECT = 0 then .error .outOfBlock
      else .ok (entryBlock v (c + 1) (k % NINDIRECT - 1)) := by
  have hsub : NDIRECT + NINDIRECT + k - NDIRECT - NINDIRECT = k := by omega
  unfold bmap
  rw [if_neg (by omega)]
  dsimp only
  rw [if_neg (by omega), hsub, if_pos hk, hslot]
  simp only [hdbl]

/-- `bmap` in the deep file that has block `n * NINDIRECT + r` of the doubly indirect range. -/
theorem bmap_deepFile {n r : Nat} (hn : n < NINDIRECT) (hr : r < NINDIRECT) :
    bmap (deepFile n (r - 1)) 1 (NDIRECT + NINDIRECT + (n * NINDIRECT + r)) =
      if r = 0 then .error .outOfBlock else .ok (130, deepFile n (r - 1)) := by
  have hN : NINDIRECT = 1024 := rfl
  have hD : NDIRECT = 11 := rfl
  have hND : NDINDIRECT = 1024 * 1024 := rfl
  have hslot : slotBlock (deepFile n (r - 1)) 1 (NDIRECT + 1) = (127 + 1, deepFile n (r - 1)) := rfl
  have hdbl : entryBlock (deepFile n (r - 1)) (127 + 1) n = (128 + 1, deepFile n (r - 1)) := by
    have hword : word ((deepFile n (r - 1)).disk (127 + 1)) n = 129 := word_setWord (by decide)
    unfold entryBlock
    rw [hword]
    rfl
  have hleaf : entryBlock (deepFile n (r - 1)) (128 + 1) (r - 1) = (130, deepFile n (r - 1)) := by
    have hword : word ((deepFile n (r - 1)).disk (128 + 1)) (r - 1) = 130 := word_setWord (by decide)
    unfold entryBlock
    rw [hword]
    rfl
  have hdiv : (n * NINDIRECT + r) / NINDIRECT = n := by
    rw [hN] at hr ⊢
    omega
  have hmod : (n * NINDIRECT + r) % NINDIRECT = r := by
    rw [hN] at hr ⊢
    omega
  rw [bmap_double (by rw [hN] at hn hr ⊢; omega) hslot (by rw [hdiv]; exact hdbl), hmod]
  by_cases h0 : r = 0
  · rw [if_pos h0, if_pos h0]
  · rw [if_neg h0, if_neg h0, hleaf]

/-- No block of the doubly indirect range has a place of the first two. -/
theorem not_kernelEntry_dataPlace {l' : Nat} (hl : l < NDIRECT + NINDIRECT) (hl' : NDIRECT + NINDIRECT ≤ l')
    (hmax : l' < MAXFILE) : ¬ KernelEntry l' (dataPlace l) := by
  have hN : NINDIRECT = 1024 := rfl
  have hM : MAXFILE = NDIRECT + NINDIRECT + 1024 * 1024 := rfl
  obtain ⟨m, rfl⟩ := Nat.exists_eq_add_of_le hl'
  have hdm := Nat.div_add_mod m NINDIRECT
  rw [Nat.mul_comm] at hdm
  have hn : m / NINDIRECT < NINDIRECT := by
    rw [Nat.div_lt_iff_lt_mul (by decide), hN]
    omega
  have hr : m % NINDIRECT < NINDIRECT := Nat.mod_lt _ (by decide)
  generalize m / NINDIRECT = n at hdm hn
  generalize m % NINDIRECT = r at hdm hr
  subst hdm
  intro hentry
  obtain ⟨b, s', hmap, hstored, _⟩ := hentry (deepFile n (r - 1)) 1 (deepFile_fsInv _ _)
  rw [bmap_deepFile hn hr] at hmap
  by_cases h0 : r = 0
  · rw [if_pos h0] at hmap
    cases hmap
  · rw [if_neg h0] at hmap
    obtain ⟨rfl, rfl⟩ := Prod.mk.inj (Except.ok.inj hmap)
    have hempty : stored (deepFile n (r - 1)) 1 (dataPlace l) = 0 := by
      by_cases hdir : l < NDIRECT
      · rw [dataPlace_of_lt hdir]
        exact if_neg (by omega : ¬ l = NDIRECT + 1)
      · rw [dataPlace_of_ge hdir hl]
        rfl
    rw [hempty] at hstored
    cases hstored

/-- In the first two ranges, blocks have places of their own. -/
theorem eq_of_kernelEntry {l' : Nat} (hl : l < NDIRECT + NINDIRECT) (hl' : l' < NDIRECT + NINDIRECT)
    (hentry : KernelEntry l' (dataPlace l)) : l' = l := by
  obtain ⟨b, s', hmap, h', _, hb, _, hroom⟩ := mkfsRoot_fsInv.bmap_grows 1 hl'
  -- an empty file, and a disk with room
  have hholes : Room mkfsRoot 1 (touched l') := by
    have hcard : (touched l').card ≤ 2 := by
      unfold touched
      split
      · exact Nat.le_of_lt (Nat.lt_succ_of_le (Finset.card_singleton _).le)
      · exact Finset.card_le_two
    have hfree : 2 ≤ (freeBlocks mkfsRoot).card := by decide +kernel
    exact ((Finset.card_filter_le _ _).trans hcard).trans hfree
  obtain ⟨hb0, _⟩ := hroom (touched l') (fun _ => id) hholes
  obtain ⟨b', s'', hmap', hstored, _⟩ := hentry mkfsRoot 1 mkfsRoot_fsInv
  rw [hmap] at hmap'
  obtain ⟨rfl, rfl⟩ := Prod.mk.inj (Except.ok.inj hmap')
  have hplace : stored s' 1 (dataPlace l') ≠ 0 := by
    rw [show stored s' 1 (dataPlace l') = b from hb]
    exact hb0
  obtain ⟨_, heq⟩ := h'.place_unique hplace (hstored.trans hb.symm)
  exact (dataPlace_inj hl hl' heq).symm

/-- **Logical block addressing** is as it should be below the doubly indirect range, and nowhere else. -/
theorem addressed_iff (l : Nat) : Addressed l ↔ l < NDIRECT + NINDIRECT := by
  constructor
  · rintro ⟨π, _, hmkfs, _⟩
    obtain ⟨x, im', d', hblock, _⟩ := hmkfs blankImage ⟨0, 0, 0, 0, 0, fun _ => 0⟩ (by decide)
    by_contra hge
    rw [fileBlock_none _ _ (Nat.not_lt.1 hge)] at hblock
    cases hblock
  · intro hlow
    refine ⟨dataPlace l, kernelEntry_dataPlace hlow, mkfsEntry_dataPlace hlow, fun l' hmax hentry => ?_⟩
    by_cases hlow' : l' < NDIRECT + NINDIRECT
    · exact eq_of_kernelEntry hlow hlow' hentry
    · exact absurd hentry (not_kernelEntry_dataPlace hlow (Nat.not_lt.1 hlow') hmax)

/-- The first doubly indirect block: `bmap` leaves the table, and `mkfs` has no entry. -/
theorem block_1035_not_addressed :
    1035 < MAXFILE ∧ (∃ s, FsInv s ∧ bmap s 1 1035 = .error .outOfBlock) ∧
      (∀ im d, fileBlock im d 1035 = none) ∧ ¬ Addressed 1035 := by
  have hnone : ∀ im d, fileBlock im d 1035 = none := fun im d => fileBlock_none im d (by decide)
  refine ⟨by decide, ⟨deepFile 0 0, deepFile_fsInv 0 0, ?_⟩, hnone, ?_⟩
  · exact (bmap_deepFile (n := 0) (r := 0) (by decide) (by decide)).trans (if_pos rfl)
  · rintro ⟨π, _, hmkfs, _⟩
    obtain ⟨x, im', d', hblock, _⟩ := hmkfs blankImage ⟨0, 0, 0, 0, 0, fun _ => 0⟩ (by decide)
    rw [hnone] at hblock
    cases hblock

end Entries

end WeiOS.Mkfs
