import Mathlib
import WeiOS.Lib.Run
import WeiOS.Fs.Inode

/-!
# Who Owns a Disk Block

A block number is stored in a slot of an inode, in its indirect block, or in the tables of its doubly
indirect block. Starting from a file system as `mkfs` leaves it, `writei` and `ifree` keep each block
number in one place only, with its bit set in the bitmap.

`bmap` could leave the block with an entry of a doubly indirect table, but no write gets that far:
`MAXFILESIZ` ends where the doubly indirect blocks begin.

## Main results
- `FsInv.balloc`, `FsInv.bmap`, `FsInv.writei`: a write keeps the owners apart.
- `FsInv.ifree`: an inode gives up the blocks it owned and no others.
- `owned_of_run`: whole runs.
-/

namespace WeiOS.Inode

open WeiOS.Lib

/-! ## §1 Bytes, bits and words -/

theorem bit_getLsbD {k j : Nat} (hj : j < 8) : (1#8 <<< k).getLsbD j = (j == k) := by
  rw [← BitVec.twoPow_eq, BitVec.getLsbD_twoPow]
  by_cases h : k = j
  · simp [h, hj]
  · simp [h, Ne.symm h]

theorem and_byte_bit (x : BitVec 8) {k : Nat} (hk : k < 8) : (x &&& 1#8 <<< k != 0) = x.getLsbD k := by
  rw [← BitVec.twoPow_eq, BitVec.and_twoPow]
  have hne : BitVec.twoPow 8 k ≠ 0 := fun h => by
    have hbit := congrArg (fun y => BitVec.getLsbD y k) h
    simp [hk] at hbit
  cases x.getLsbD k with
  | false => simp
  | true => simpa using hne

theorem or_byte_bit (x : BitVec 8) (k : Nat) {j : Nat} (hj : j < 8) :
    (x ||| 1#8 <<< k).getLsbD j = (x.getLsbD j || j == k) := by
  rw [BitVec.getLsbD_or, bit_getLsbD hj]

theorem and_not_byte_bit (x : BitVec 8) (k : Nat) {j : Nat} (hj : j < 8) :
    (x &&& ~~~ (1#8 <<< k)).getLsbD j = (x.getLsbD j && j != k) := by
  rw [BitVec.getLsbD_and, BitVec.getLsbD_not, bit_getLsbD hj, decide_eq_true hj, Bool.true_and, bne]

theorem bitSet_eq (d : Block) (j : Nat) : bitSet d j = (d (j / 8)).getLsbD (j % 8) :=
  and_byte_bit _ (Nat.mod_lt _ (by decide))

/-- Setting and clearing bit `m` of a bitmap block. -/
theorem bitSet_or (d : Block) (m j : Nat) :
    bitSet (Function.update d (m / 8) (d (m / 8) ||| byter m)) j = (bitSet d j || j == m) := by
  rw [bitSet_eq, bitSet_eq]
  by_cases hbyte : j / 8 = m / 8
  · rw [hbyte, Function.update_self, byter,
      or_byte_bit _ _ (Nat.mod_lt _ (by decide))]
    congr 1
    rw [Bool.eq_iff_iff, beq_iff_eq, beq_iff_eq]
    omega
  · have hne : j ≠ m := fun h => hbyte (by rw [h])
    rw [Function.update_of_ne hbyte, beq_false_of_ne hne, Bool.or_false]

theorem bitSet_and_not (d : Block) (m j : Nat) :
    bitSet (Function.update d (m / 8) (d (m / 8) &&& ~~~ byter m)) j = (bitSet d j && j != m) := by
  rw [bitSet_eq, bitSet_eq]
  by_cases hbyte : j / 8 = m / 8
  · rw [hbyte, Function.update_self, byter,
      and_not_byte_bit _ _ (Nat.mod_lt _ (by decide))]
    congr 1
    rw [Bool.eq_iff_iff, bne_iff_ne, bne_iff_ne]
    omega
  · have hne : j ≠ m := fun h => hbyte (by rw [h])
    rw [Function.update_of_ne hbyte, bne_iff_ne.2 hne, Bool.and_true]

theorem word_zero (j : Nat) : word (fun _ => 0) j = 0 := rfl

theorem word_setWord_of_ne {d : Block} {j k : Nat} (h : k ≠ j) (v : Nat) :
    word (setWord d j v) k = word d k := by
  have hb : ∀ r < 4, setWord d j v (4 * k + r) = d (4 * k + r) := by
    intro r hr
    have hne : (4 * k + r) / 4 ≠ j := by omega
    simp [setWord, hne]
  unfold word
  rw [hb 1 (by decide), hb 2 (by decide), hb 3 (by decide)]
  rw [show setWord d j v (4 * k) = d (4 * k) from hb 0 (by decide)]

theorem word_setWord {d : Block} {j v : Nat} (hv : v < 2 ^ 32) : word (setWord d j v) j = v := by
  have hb : ∀ r < 4, setWord d j v (4 * j + r) = BitVec.ofNat 8 (v / 2 ^ (8 * r)) := by
    intro r hr
    have hdiv : (4 * j + r) / 4 = j := by omega
    have hmod : (4 * j + r) % 4 = r := by omega
    simp [setWord, hdiv, hmod]
  unfold word
  rw [hb 1 (by decide), hb 2 (by decide), hb 3 (by decide),
    show setWord d j v (4 * j) = BitVec.ofNat 8 (v / 2 ^ (8 * 0)) from hb 0 (by decide)]
  simp only [BitVec.toNat_ofNat]
  omega

/-! ## §2 Places and owners -/

/-- The superblock that `mkfs` writes, and the first data block. -/
def mkfsSb : Superblock := ⟨FSSIZE, FSSIZE - 127, NINODES, LOGSIZE, 2, 2 + LOGSIZE, 126⟩

def nmeta : Nat := 127

/-- The bitmap bit of block `b`; `mkfs` has one bitmap block. -/
def used (s : FileSys) (b : Nat) : Bool := bitSet (s.disk 126) b

/-- Where an inode stores block numbers: a slot, an entry of the indirect block, an entry of the
    doubly indirect block, and an entry of a block named there. -/
inductive Place where
  | slot (k : Fin (NDIRECT + 2))
  | ind (j : Fin NINDIRECT)
  | dbl (n : Fin NINDIRECT)
  | leaf (n z : Fin NINDIRECT)
  deriving DecidableEq

/-- Entry `j` of the block with number `b`, if there is one. -/
def entry (s : FileSys) (b j : Nat) : Nat := if b = 0 then 0 else word (s.disk b) j

/-- The block number stored at a place of inode `i`; 0 is no block. -/
def stored (s : FileSys) (i : Nat) : Place → Nat
  | .slot k => (s.body i).blkAddrs k
  | .ind j => entry s ((s.body i).blkAddrs NDIRECT) j
  | .dbl n => entry s ((s.body i).blkAddrs (NDIRECT + 1)) n
  | .leaf n z => entry s (entry s ((s.body i).blkAddrs (NDIRECT + 1)) n) z

/-- **Block ownership**: a block number is stored in one place over all inodes, names a data block of
    the disk, and has its bit set. -/
def Owned (s : FileSys) : Prop :=
  ∀ i π, stored s i π ≠ 0 →
    (nmeta ≤ stored s i π ∧ stored s i π < FSSIZE) ∧ used s (stored s i π) = true ∧
      ∀ i' π', stored s i' π' = stored s i π → i' = i ∧ π' = π

/-- A file system as `mkfs` leaves it: the superblock is the one on disk, the blocks before the first
    data block are marked, blocks are owned, and no file is too large. -/
structure FsInv (s : FileSys) : Prop where
  sb : s.sb = mkfsSb
  super : superblockOf (s.disk 1) = mkfsSb
  marked : ∀ b < nmeta, used s b = true
  inos : ∀ i, (s.icache.inode i).ino < NINODES
  sizes : ∀ i, (s.body i).fileSiz ≤ MAXFILESIZ
  owned : Owned s

/-- A block that holds block numbers of inode `i`. -/
def IsTable (s : FileSys) (i b : Nat) : Prop :=
  b ≠ 0 ∧ (b = stored s i (.slot ⟨NDIRECT, by decide⟩) ∨ b = stored s i (.slot ⟨NDIRECT + 1, by decide⟩) ∨
    ∃ n, b = stored s i (.dbl n))

section Owners

variable {s s' : FileSys} {i b : Nat}

theorem entry_congr {b : Nat} (h : b ≠ 0 → s'.disk b = s.disk b) (j : Nat) :
    entry s' b j = entry s b j := by
  unfold entry
  split
  · rfl
  · rename_i hb
    rw [h hb]

/-- What an inode stores depends on its slots and its tables only. -/
theorem stored_congr (hbody : (s'.body i).blkAddrs = (s.body i).blkAddrs)
    (hdisk : ∀ b, IsTable s i b → s'.disk b = s.disk b) (π : Place) : stored s' i π = stored s i π := by
  have hdbl : ∀ n : Fin NINDIRECT, stored s' i (.dbl n) = stored s i (.dbl n) := by
    intro n
    simp only [stored, hbody]
    exact entry_congr (fun hb => hdisk _ ⟨hb, .inr (.inl rfl)⟩) _
  cases π with
  | slot k => simp only [stored, hbody]
  | ind j =>
    simp only [stored, hbody]
    exact entry_congr (fun hb => hdisk _ ⟨hb, .inl rfl⟩) _
  | dbl n => exact hdbl n
  | leaf n z =>
    have hn := hdbl n
    simp only [stored] at hn ⊢
    rw [hn]
    exact entry_congr (fun hb => hdisk _ ⟨hb, .inr (.inr ⟨n, rfl⟩)⟩) _

/-- A table is a block that is owned. -/
theorem IsTable.stored (h : IsTable s i b) : ∃ π, Inode.stored s i π = b ∧ b ≠ 0 := by
  obtain ⟨hb, rfl | rfl | ⟨n, rfl⟩⟩ := h
  · exact ⟨_, rfl, hb⟩
  · exact ⟨_, rfl, hb⟩
  · exact ⟨_, rfl, hb⟩

theorem FsInv.table_ge (h : FsInv s) (ht : IsTable s i b) : nmeta ≤ b := by
  obtain ⟨π, rfl, hb⟩ := ht.stored
  exact (h.owned i π hb).1.1

/-- A write to a block that is no table and holds no metadata that matters. -/
theorem FsInv.setBlock (h : FsInv s) (d : Block) (hb : ∀ i, ¬ IsTable s i b) (h1 : b ≠ 1)
    (h126 : b ≠ 126) :
    FsInv (Inode.setBlock s b d) ∧ (∀ i π, Inode.stored (Inode.setBlock s b d) i π = Inode.stored s i π) ∧
      ∀ c, used (Inode.setBlock s b d) c = used s c := by
  have hdisk : ∀ c, c ≠ b → (Inode.setBlock s b d).disk c = s.disk c := fun c hc => by
    simp [Inode.setBlock, hc]
  have hstored : ∀ i π, Inode.stored (Inode.setBlock s b d) i π = Inode.stored s i π := by
    intro i π
    have hbody : ((Inode.setBlock s b d).body i).blkAddrs = (s.body i).blkAddrs := rfl
    refine stored_congr hbody (fun c hc => hdisk c ?_) π
    rintro rfl
    exact hb i hc
  have hused : ∀ c, used (Inode.setBlock s b d) c = used s c := by
    intro c
    unfold used
    rw [hdisk 126 (Ne.symm h126)]
  refine ⟨⟨h.sb, ?_, ?_, h.inos, h.sizes, ?_⟩, hstored, hused⟩
  · rw [hdisk 1 (Ne.symm h1)]
    exact h.super
  · intro c hc
    rw [hused]
    exact h.marked c hc
  · intro i π hne
    rw [hstored] at hne
    rw [hstored, hused]
    refine ⟨(h.owned i π hne).1, (h.owned i π hne).2.1, fun i' π' heq => ?_⟩
    rw [hstored] at heq
    exact (h.owned i π hne).2.2 i' π' heq

/-! ### The bitmap -/

theorem BITBLOCK_eq (hsb : s.sb = mkfsSb) (hb : b < FSSIZE) : BITBLOCK b s.sb = 126 ∧ b % BITPB = b := by
  have hlt : b < BITPB := lt_trans hb (by decide)
  rw [hsb]
  refine ⟨?_, Nat.mod_eq_of_lt hlt⟩
  simp [BITBLOCK, Nat.div_eq_of_lt hlt, mkfsSb]

theorem setBit_disk (hsb : s.sb = mkfsSb) (hb : b < FSSIZE) (f : BitVec 8 → BitVec 8) :
    setBit s b f = Inode.setBlock s 126 (Function.update (s.disk 126) (b / 8) (f (s.disk 126 (b / 8)))) := by
  obtain ⟨hblk, hmod⟩ := BITBLOCK_eq hsb hb
  unfold setBit
  rw [hblk, hmod]

/-- `balloc` finds the first block whose bit is clear. -/
theorem findFree_eq (hsb : s.sb = mkfsSb) :
    findFree s = (List.range FSSIZE).find? fun j => !used s j := by
  have hn : (s.sb.size + BITPB - 1) / BITPB = 1 := by
    rw [hsb]
    decide
  have hmin : min BITPB (s.sb.size - 0 * BITPB) = FSSIZE := by
    rw [hsb]
    decide
  have hblk : BITBLOCK (0 * BITPB) s.sb = 126 := by
    rw [hsb]
    decide
  unfold findFree
  rw [hn, List.range_one]
  simp only [List.findSome?_cons, List.findSome?_nil]
  unfold findClear
  rw [hmin, hblk]
  simp only [Nat.zero_mul, Nat.zero_add, Option.map_id']
  unfold used
  cases (List.range FSSIZE).find? fun j => !bitSet (s.disk 126) j <;> rfl

theorem bitSet_setBlock_self (d : Block) (c : Nat) : used (Inode.setBlock s 126 d) c = bitSet d c := by
  simp [used, Inode.setBlock]

/-- Tables are not in the bitmap block, so marking blocks changes no owner. -/
theorem FsInv.stored_bitmap (h : FsInv s) (d : Block) (i : Nat) (π : Place) :
    Inode.stored (Inode.setBlock s 126 d) i π = Inode.stored s i π := by
  have hbody : ((Inode.setBlock s 126 d).body i).blkAddrs = (s.body i).blkAddrs := rfl
  refine stored_congr hbody (fun c hc => ?_) π
  have hne : c ≠ 126 := by
    have hge := h.table_ge hc
    simp only [nmeta] at hge
    omega
  simp [Inode.setBlock, hne]

theorem FsInv.mark (h : FsInv s) {d : Block} (hmono : ∀ c, used s c = true → bitSet d c = true) :
    FsInv (Inode.setBlock s 126 d) := by
  refine ⟨h.sb, ?_, ?_, h.inos, h.sizes, ?_⟩
  · have hdisk : (Inode.setBlock s 126 d).disk 1 = s.disk 1 := by simp [Inode.setBlock]
    rw [hdisk]
    exact h.super
  · intro c hc
    rw [bitSet_setBlock_self]
    exact hmono c (h.marked c hc)
  · intro i π hne
    rw [h.stored_bitmap] at hne
    rw [h.stored_bitmap, bitSet_setBlock_self]
    obtain ⟨hrange, hbit, huniq⟩ := h.owned i π hne
    refine ⟨hrange, hmono _ hbit, fun i' π' heq => ?_⟩
    rw [h.stored_bitmap] at heq
    exact huniq i' π' heq

/-- **`balloc`**: the disk is full, or it hands out a data block that nobody owns, marked and
    zeroed. -/
theorem FsInv.balloc (h : FsInv s) :
    (Inode.balloc s = (0, s) ∧ ∀ b < FSSIZE, used s b = true) ∨
    ∃ b s', Inode.balloc s = (b, s') ∧ b ≠ 0 ∧ FsInv s' ∧ (nmeta ≤ b ∧ b < FSSIZE) ∧
      (∀ i π, Inode.stored s' i π = Inode.stored s i π) ∧ (∀ i π, Inode.stored s' i π ≠ b) ∧
      (∀ c, used s' c = (used s c || c == b)) ∧ s'.disk b = (fun _ => 0) ∧ s'.body = s.body := by
  unfold Inode.balloc
  rw [findFree_eq h.sb]
  cases hfind : (List.range FSSIZE).find? fun j => !used s j with
  | none =>
    refine .inl ⟨rfl, fun b hb => ?_⟩
    have := List.find?_eq_none.1 hfind b (List.mem_range.2 hb)
    simpa using this
  | some b =>
    have hb : b < FSSIZE := List.mem_range.1 (List.mem_of_find?_eq_some hfind)
    have hfree : used s b = false := by simpa using List.find?_some hfind
    have hge : nmeta ≤ b := by
      by_contra hlt
      rw [h.marked b (Nat.not_le.1 hlt)] at hfree
      cases hfree
    -- nobody stores the number, since its bit is clear
    have hfresh : ∀ i π, Inode.stored s i π ≠ b := by
      rintro i π rfl
      have hne : Inode.stored s i π ≠ 0 := by
        have : 0 < nmeta := by decide
        omega
      rw [(h.owned i π hne).2.1] at hfree
      cases hfree
    have hne126 : b ≠ 126 := by
      simp only [nmeta] at hge
      omega
    have hne1 : b ≠ 1 := by
      simp only [nmeta] at hge
      omega
    dsimp only
    rw [setBit_disk h.sb hb, (BITBLOCK_eq h.sb hb).2]
    generalize hd : Function.update (s.disk 126) (b / 8) (s.disk 126 (b / 8) ||| byter b) = d
    have hbits : ∀ c, bitSet d c = (used s c || c == b) := by
      intro c
      rw [← hd, bitSet_or]
      rfl
    have hmark := h.mark (d := d) fun c hc => by rw [hbits, hc, Bool.true_or]
    have hnot : ∀ i, ¬ IsTable (Inode.setBlock s 126 d) i b := by
      intro i ht
      obtain ⟨π, hπ, _⟩ := ht.stored
      rw [h.stored_bitmap] at hπ
      exact hfresh i π hπ
    obtain ⟨hinv, hstored, hused⟩ := hmark.setBlock (fun _ => 0) hnot hne1 hne126
    refine .inr ⟨b, _, rfl, ?_, hinv, ⟨hge, hb⟩, ?_, ?_, ?_, ?_, rfl⟩
    · rintro rfl
      exact absurd hge (by decide)
    · intro i π
      exact (hstored i π).trans (h.stored_bitmap d i π)
    · intro i π
      exact fun heq => hfresh i π (((hstored i π).trans (h.stored_bitmap d i π)).symm.trans heq)
    · intro c
      exact (hused c).trans ((bitSet_setBlock_self d c).trans (hbits c))
    · simp [bzero, Inode.setBlock]

/-! ## §3 Blocks of a file -/

/-- A block that nobody owns is stored at an empty place. -/
theorem Owned.link {i a : Nat} {π : Place} (h : Owned s) (h0 : stored s i π = 0)
    (hstored : ∀ i' π', stored s' i' π' = if i' = i ∧ π' = π then a else stored s i' π')
    (hfresh : ∀ i π, stored s i π ≠ a) (hrange : nmeta ≤ a ∧ a < FSSIZE) (hused : used s' a = true)
    (hmono : ∀ c, used s c = true → used s' c = true) : Owned s' := by
  intro i' π' hne
  rw [hstored] at hne
  by_cases hplace : i' = i ∧ π' = π
  · obtain ⟨rfl, rfl⟩ := hplace
    rw [hstored, if_pos ⟨rfl, rfl⟩]
    refine ⟨hrange, hused, fun i'' π'' heq => ?_⟩
    by_contra hother
    rw [hstored, if_neg hother] at heq
    exact hfresh i'' π'' heq
  · rw [if_neg hplace] at hne
    rw [hstored, if_neg hplace]
    obtain ⟨hr, hu, huniq⟩ := h i' π' hne
    refine ⟨hr, hmono _ hu, fun i'' π'' heq => ?_⟩
    rw [hstored] at heq
    by_cases hother : i'' = i ∧ π'' = π
    · rw [if_pos hother] at heq
      exact absurd heq.symm (hfresh i' π')
    · rw [if_neg hother] at heq
      exact huniq i'' π'' heq

theorem entry_zero_block {a : Nat} (hzero : s.disk a = fun _ => 0) (j : Nat) : entry s a j = 0 := by
  unfold entry
  rw [hzero]
  split
  · rfl
  · exact word_zero j

/-- A zeroed block in a slot that was empty. -/
theorem stored_setAddr {i a : Nat} {k : Fin (NDIRECT + 2)} (h0 : (s.body i).blkAddrs k = 0)
    (hzero : s.disk a = fun _ => 0) (i' : Nat) (π : Place) :
    stored (setAddr s i k a) i' π = if i' = i ∧ π = .slot k then a else stored s i' π := by
  by_cases hi : i' = i
  · subst hi
    have haddrs : ((setAddr s i' k a).body i').blkAddrs = Function.update (s.body i').blkAddrs k a := by
      simp [setAddr, setBody]
    -- a table that is new has no entries, as the missing one had none
    have htable : ∀ m j, entry s (Function.update (s.body i').blkAddrs k a m) j =
        entry s ((s.body i').blkAddrs m) j := by
      intro m j
      by_cases hm : m = k
      · rw [hm, Function.update_self, h0, entry_zero_block hzero]
        rfl
      · rw [Function.update_of_ne hm]
    cases π with
    | slot m =>
      by_cases hm : m = k
      · subst hm
        simp [stored, haddrs]
      · have hmk : (m : Nat) ≠ k := fun he => hm (Fin.ext he)
        simp [stored, haddrs, hm, hmk]
    | ind j =>
      simp only [stored, haddrs, reduceCtorEq, and_false, if_false]
      exact htable NDIRECT j
    | dbl n =>
      simp only [stored, haddrs, reduceCtorEq, and_false, if_false]
      exact htable (NDIRECT + 1) n
    | leaf n z =>
      simp only [stored, haddrs, reduceCtorEq, and_false, if_false]
      show entry s (entry s (Function.update (s.body i').blkAddrs k a (NDIRECT + 1)) n) z = _
      rw [htable]
  · have hbody : (setAddr s i k a).body i' = s.body i' := by simp [setAddr, setBody, hi]
    have haddrs : ((setAddr s i k a).body i').blkAddrs = (s.body i').blkAddrs := by rw [hbody]
    rw [if_neg fun hc => hi hc.1]
    exact stored_congr haddrs (fun _ _ => rfl) π

/-- An entry of the indirect block. -/
theorem FsInv.stored_setEntry (h : FsInv s) {i t a : Nat} (ht : (s.body i).blkAddrs NDIRECT = t)
    (ht0 : t ≠ 0) (j : Fin NINDIRECT) (ha : a < 2 ^ 32) (i' : Nat) (π : Place) :
    Inode.stored (Inode.setBlock s t (setWord (s.disk t) j a)) i' π =
      if i' = i ∧ π = .ind j then a else Inode.stored s i' π := by
  generalize hs' : Inode.setBlock s t (setWord (s.disk t) j a) = s'
  have hbody : s'.body = s.body := by
    rw [← hs']
    rfl
  have hself : s'.disk t = setWord (s.disk t) j a := by
    rw [← hs']
    simp [Inode.setBlock]
  have hdisk : ∀ c, c ≠ t → s'.disk c = s.disk c := by
    intro c hc
    rw [← hs']
    simp [Inode.setBlock, hc]
  -- the block is stored in this slot only
  have huniq : ∀ i'' π'', Inode.stored s i'' π'' = t → i'' = i ∧ π'' = .slot ⟨NDIRECT, by decide⟩ := by
    intro i'' π'' heq
    have hslot : Inode.stored s i (.slot ⟨NDIRECT, by decide⟩) = t := ht
    exact (h.owned i _ (by rw [hslot]; exact ht0)).2.2 i'' π'' (heq.trans hslot.symm)
  have hdbl : ∀ n : Fin NINDIRECT, Inode.stored s' i' (.dbl n) = Inode.stored s i' (.dbl n) := by
    intro n
    simp only [Inode.stored, hbody]
    refine entry_congr (fun _ => hdisk _ fun hc => ?_) _
    have := (huniq i' (.slot ⟨NDIRECT + 1, by decide⟩) hc).2
    simp at this
  cases π with
  | slot k => simp [Inode.stored, hbody]
  | ind j' =>
    by_cases hi : i' = i
    · subst hi
      have hent : ∀ s₁ : FileSys, entry s₁ t j' = word (s₁.disk t) j' := fun s₁ => by simp [entry, ht0]
      simp only [Inode.stored, hbody, ht, true_and, hent, hself, Place.ind.injEq]
      by_cases hj : j' = j
      · rw [if_pos hj, hj, word_setWord ha]
      · have hne : (j' : Nat) ≠ j := fun he => hj (Fin.ext he)
        rw [if_neg hj, word_setWord_of_ne hne]
    · rw [if_neg fun hc => hi hc.1]
      simp only [Inode.stored, hbody]
      refine entry_congr (fun _ => hdisk _ fun hc => ?_) _
      exact hi (huniq i' (.slot ⟨NDIRECT, by decide⟩) hc).1
  | dbl n =>
    rw [if_neg (by simp)]
    exact hdbl n
  | leaf n z =>
    rw [if_neg (by simp)]
    have hn := hdbl n
    simp only [Inode.stored] at hn ⊢
    rw [hn]
    refine entry_congr (fun _ => hdisk _ fun hc => ?_) _
    have := (huniq i' (.dbl n) hc).2
    simp at this

/-- A slot of an inode that has its block, or gets one. -/
theorem FsInv.slotBlock (h : FsInv s) (i : Nat) (k : Fin (NDIRECT + 2)) :
    ∃ b s', Inode.slotBlock s i k = (b, s') ∧ FsInv s' ∧ (b = 0 ∨ (s'.body i).blkAddrs k = b) := by
  unfold Inode.slotBlock
  by_cases hk : (s.body i).blkAddrs k = 0
  · rw [if_neg (by simpa using hk)]
    rcases h.balloc with ⟨hfull, _⟩ | ⟨b, s', halloc, hb, h', hrange, hstored, hfresh, hused, hzero, hbody⟩
    · rw [hfull]
      exact ⟨0, s, rfl, h, .inl rfl⟩
    · rw [halloc]
      have hpos : 0 < b := Nat.pos_of_ne_zero hb
      obtain ⟨b, rfl⟩ := Nat.exists_eq_succ_of_ne_zero hb
      have hk' : (s'.body i).blkAddrs k = 0 := by rw [hbody, hk]
      have hlink := stored_setAddr hk' hzero
      refine ⟨_, _, rfl, ⟨h'.sb, h'.super, h'.marked, h'.inos, fun i' => ?_, ?_⟩, .inr ?_⟩
      · by_cases hi : i' = i
        · subst hi
          simpa [setAddr, setBody] using h'.sizes i'
        · simpa [setAddr, setBody, hi] using h'.sizes i'
      · refine h'.owned.link (show Inode.stored s' i (.slot k) = 0 from hk') hlink hfresh hrange ?_
          (fun _ => id)
        show used s' (b + 1) = true
        simp [hused]
      · simp [setAddr, setBody]
  · rw [if_pos hk]
    exact ⟨_, s, rfl, h, .inr rfl⟩

/-- An entry of the indirect block. -/
theorem FsInv.entryBlock (h : FsInv s) {i t : Nat} (ht : (s.body i).blkAddrs NDIRECT = t) (ht0 : t ≠ 0)
    (j : Fin NINDIRECT) :
    ∃ b s', Inode.entryBlock s t j = (b, s') ∧ FsInv s' ∧ (b = 0 ∨ Inode.stored s' i (.ind j) = b) := by
  have hent : Inode.stored s i (.ind j) = word (s.disk t) j := by
    simp [Inode.stored, ht, entry, ht0]
  unfold Inode.entryBlock
  by_cases hj : word (s.disk t) j = 0
  · rw [if_neg (by simpa using hj)]
    rcases h.balloc with ⟨hfull, _⟩ | ⟨b, s', halloc, hb, h', hrange, hstored, hfresh, hused, hzero, hbody⟩
    · rw [hfull]
      exact ⟨0, s, rfl, h, .inl rfl⟩
    · rw [halloc]
      obtain ⟨b, rfl⟩ := Nat.exists_eq_succ_of_ne_zero hb
      have ht' : (s'.body i).blkAddrs NDIRECT = t := by rw [hbody, ht]
      have h32 : b + 1 < 2 ^ 32 := hrange.2.trans (by decide)
      have hlink := h'.stored_setEntry ht' ht0 j h32
      -- the table is a data block, so neither superblock nor bitmap
      have hrt : nmeta ≤ t := by
        have hslot : Inode.stored s' i (.slot ⟨NDIRECT, by decide⟩) = t := ht'
        have := (h'.owned i _ (by rw [hslot]; exact ht0)).1.1
        rwa [hslot] at this
      simp only [nmeta] at hrt
      have hdisk : ∀ c, c ≠ t → (Inode.setBlock s' t (setWord (s'.disk t) j (b + 1))).disk c = s'.disk c :=
        fun c hc => by simp [Inode.setBlock, hc]
      have hused' : ∀ c, used (Inode.setBlock s' t (setWord (s'.disk t) j (b + 1))) c = used s' c := by
        intro c
        unfold used
        rw [hdisk 126 (by omega)]
      refine ⟨_, _, rfl, ⟨h'.sb, ?_, fun c hc => ?_, h'.inos, h'.sizes, ?_⟩, .inr ?_⟩
      · rw [hdisk 1 (by omega)]
        exact h'.super
      · rw [hused']
        exact h'.marked c hc
      · refine h'.owned.link (hstored i (.ind j) ▸ hent.trans hj) hlink hfresh hrange ?_ ?_
        · rw [hused', hused]
          simp
        · intro c hc
          rwa [hused']
      · rw [hlink, if_pos ⟨rfl, rfl⟩]
  · rw [if_pos hj]
    exact ⟨_, s, rfl, h, .inr hent⟩

/-- Places of data blocks. -/
def Place.IsData : Place → Prop
  | .slot k => (k : Nat) < NDIRECT
  | .ind _ => True
  | .dbl _ | .leaf _ _ => False

/-- A data block is no table. -/
theorem FsInv.not_isTable (h : FsInv s) {i : Nat} {π : Place} (hπ : π.IsData)
    (hb : Inode.stored s i π = b) (i' : Nat) : ¬ IsTable s i' b := by
  rintro ⟨hb0, htable⟩
  have huniq := (h.owned i π (by rw [hb]; exact hb0)).2.2
  rw [hb] at huniq
  rcases htable with ht | ht | ⟨n, ht⟩
  · obtain ⟨_, rfl⟩ := huniq _ _ ht.symm
    exact absurd hπ (Nat.lt_irrefl _)
  · obtain ⟨_, rfl⟩ := huniq _ _ ht.symm
    exact absurd hπ (by simp [Place.IsData])
  · obtain ⟨_, rfl⟩ := huniq _ _ ht.symm
    exact hπ

/-- **`bmap`** below the doubly indirect blocks. -/
theorem FsInv.bmap (h : FsInv s) (i : Nat) {lblkno : Nat} (hl : lblkno < NDIRECT + NINDIRECT) :
    ∃ b s', Inode.bmap s i lblkno = .ok (b, s') ∧ FsInv s' ∧
      (b = 0 ∨ ∃ π : Place, π.IsData ∧ Inode.stored s' i π = b) := by
  unfold Inode.bmap
  by_cases hdir : lblkno < NDIRECT
  · rw [if_pos hdir]
    obtain ⟨b, s', hslot, h', hb⟩ := h.slotBlock i ⟨lblkno, hdir.trans (by decide)⟩
    have hslot' : Inode.slotBlock s i lblkno = (b, s') := hslot
    rw [hslot']
    exact ⟨b, s', rfl, h', hb.imp_right fun hb => ⟨.slot ⟨lblkno, hdir.trans (by decide)⟩, hdir, hb⟩⟩
  · rw [if_neg hdir]
    have hind : lblkno - NDIRECT < NINDIRECT := by omega
    dsimp only
    rw [if_pos hind]
    obtain ⟨t, s₁, hslot, h₁, ht⟩ := h.slotBlock i ⟨NDIRECT, by decide⟩
    have hslot' : Inode.slotBlock s i NDIRECT = (t, s₁) := hslot
    rw [hslot']
    by_cases ht0 : t = 0
    · subst ht0
      exact ⟨0, s₁, rfl, h₁, .inl rfl⟩
    · obtain ⟨t, rfl⟩ := Nat.exists_eq_succ_of_ne_zero ht0
      obtain ⟨b, s', hent, h', hb⟩ := h₁.entryBlock (ht.resolve_left ht0) ht0 ⟨lblkno - NDIRECT, hind⟩
      have hent' : Inode.entryBlock s₁ (t + 1) (lblkno - NDIRECT) = (b, s') := hent
      refine ⟨b, s', by simp only [hent'], h', hb.imp_right fun hb => ⟨.ind ⟨lblkno - NDIRECT, hind⟩, trivial, hb⟩⟩

/-! ## §4 Writes -/

theorem MAXFILESIZ_eq : MAXFILESIZ = (NDIRECT + NINDIRECT) * BLKSIZE := by decide

/-- Data goes to a data block, or to block 0 when the disk is full. -/
theorem FsInv.writeData (h : FsInv s) {i : Nat} (hb : b = 0 ∨ ∃ π : Place, π.IsData ∧ Inode.stored s i π = b)
    (d : Block) : FsInv (Inode.setBlock s b d) := by
  rcases hb with rfl | ⟨π, hπ, hstored⟩
  · refine (h.setBlock d (fun i ht => ht.1 rfl) (by decide) (by decide)).1
  · by_cases hb0 : b = 0
    · subst hb0
      exact (h.setBlock d (fun i ht => ht.1 rfl) (by decide) (by decide)).1
    · have hge : nmeta ≤ b := by
        have := (h.owned i π (by rw [hstored]; exact hb0)).1.1
        rwa [hstored] at this
      simp only [nmeta] at hge
      exact (h.setBlock d (h.not_isTable hπ hstored) (by omega) (by omega)).1

/-- The loop of `writei`, by induction on the rounds that are left. -/
theorem FsInv.writeLoop (src : Nat → BitVec 8) (i offset nbytes : Nat)
    (hmax : offset + nbytes ≤ MAXFILESIZ) (fuel total : Nat) (h : FsInv s) :
    ∃ s', Inode.writeLoop src i offset nbytes fuel total s = .ok s' ∧ FsInv s' := by
  induction fuel generalizing total s with
  | zero => exact ⟨s, rfl, h⟩
  | succ fuel ih =>
    unfold Inode.writeLoop
    split
    · rename_i hlt
      have hblk : (offset + total) / BLKSIZE < NDIRECT + NINDIRECT := by
        rw [Nat.div_lt_iff_lt_mul (by decide), ← MAXFILESIZ_eq]
        omega
      obtain ⟨b, s₁, hmap, h₁, hb⟩ := h.bmap i hblk
      dsimp only
      rw [hmap]
      exact ih _ (h₁.writeData hb _)
    · exact ⟨s, rfl, h⟩

/-- `iupdate` writes to an inode block. -/
theorem FsInv.iupdate (h : FsInv s) (i : Nat) :
    FsInv (Inode.iupdate s i) ∧ (∀ i' π, Inode.stored (Inode.iupdate s i) i' π = Inode.stored s i' π) ∧
      ∀ c, used (Inode.iupdate s i) c = used s c := by
  have hblk : 122 ≤ IBLOCK (s.icache.inode i).ino s.sb ∧ IBLOCK (s.icache.inode i).ino s.sb < 126 := by
    have hino := h.inos i
    have hdiv : (s.icache.inode i).ino / IPB < 4 := by
      rw [Nat.div_lt_iff_lt_mul (by decide)]
      exact hino.trans (by decide)
    have hstart : s.sb.inodeStart = 122 := by
      rw [h.sb]
      rfl
    unfold IBLOCK
    generalize (s.icache.inode i).ino / IPB = q at hdiv
    omega
  unfold Inode.iupdate
  refine h.setBlock _ (fun i' ht => ?_) (by omega) (by omega)
  have := h.table_ge ht
  simp only [nmeta] at this
  omega

/-- The size of a file is not stored with its blocks. -/
theorem FsInv.setFileSiz (h : FsInv s) (i : Nat) {n : Nat} (hn : n ≤ MAXFILESIZ) :
    FsInv (setBody s i { s.body i with fileSiz := n }) := by
  have haddrs : ∀ i', ((setBody s i { s.body i with fileSiz := n }).body i').blkAddrs =
      (s.body i').blkAddrs := by
    intro i'
    by_cases hi : i' = i
    · subst hi
      simp [setBody]
    · simp [setBody, hi]
  have hstored : ∀ i' π, Inode.stored (setBody s i { s.body i with fileSiz := n }) i' π =
      Inode.stored s i' π := fun i' π => stored_congr (haddrs i') (fun _ _ => rfl) π
  refine ⟨h.sb, h.super, h.marked, h.inos, fun i' => ?_, fun i' π hne => ?_⟩
  · by_cases hi : i' = i
    · subst hi
      simpa [setBody] using hn
    · simpa [setBody, hi] using h.sizes i'
  · rw [hstored] at hne
    rw [hstored]
    obtain ⟨hr, hu, huniq⟩ := h.owned i' π hne
    exact ⟨hr, hu, fun i'' π'' heq => huniq i'' π'' ((hstored i'' π'').symm.trans heq)⟩

/-- **`writei`** at any offset, of any number of bytes, keeps the owners apart. -/
theorem FsInv.writei (h : FsInv s) (i : Nat) (src : Nat → BitVec 8) (offset nbytes : BitVec 32) :
    ∃ r s', Inode.writei s i src offset nbytes = .ok (r, s') ∧ FsInv s' := by
  unfold Inode.writei
  dsimp only
  split
  · split
    · exact ⟨_, s, rfl, h⟩
    · exact ⟨_, s, rfl, h⟩
  · split
    · exact ⟨_, s, rfl, h⟩
    · rename_i hok
      have hoff : offset.toNat ≤ MAXFILESIZ := by
        have := h.sizes i
        omega
      have hsum : (offset.toNat + nbytes.toNat) % 2 ^ 32 = offset.toNat + nbytes.toNat := by
        have h₁ := offset.isLt
        have h₂ := nbytes.isLt
        omega
      generalize hn : (if MAXFILESIZ < (offset.toNat + nbytes.toNat) % 2 ^ 32 then
        (MAXFILESIZ + 2 ^ 32 - offset.toNat) % 2 ^ 32 else nbytes.toNat) = n
      have hmax : offset.toNat + n ≤ MAXFILESIZ := by
        have hM : MAXFILESIZ = 4239360 := by decide
        rw [hsum] at hn
        split at hn <;> omega
      obtain ⟨s₁, hloop, h₁⟩ := h.writeLoop src i offset.toNat n hmax n 0
      rw [hloop]
      dsimp only
      split
      · exact ⟨_, _, rfl, ((h₁.setFileSiz i hmax).iupdate i).1⟩
      · exact ⟨_, _, rfl, h₁⟩

end Owners

/-! ## §5 Freeing an inode -/

/-- The blocks of `P` are unmarked, and the bytes of other blocks than the bitmap and those of `T` are
    kept. -/
structure Freed (T P : Nat → Prop) (s s' : FileSys) : Prop where
  sb : s'.sb = s.sb
  icache : s'.icache = s.icache
  disk : ∀ c, c ≠ 126 → ¬ T c → s'.disk c = s.disk c
  bits : ∀ c, used s' c = true ↔ used s c = true ∧ ¬ P c

section Free

variable {s s₁ s₂ : FileSys} {T P Q : Nat → Prop} {b : Nat}

theorem Freed.refl (s : FileSys) : Freed T (fun _ => False) s s :=
  ⟨rfl, rfl, fun _ _ _ => rfl, fun _ => by simp⟩

theorem Freed.trans (h₁ : Freed T P s s₁) (h₂ : Freed T Q s₁ s₂) : Freed T (fun c => P c ∨ Q c) s s₂ where
  sb := h₂.sb.trans h₁.sb
  icache := h₂.icache.trans h₁.icache
  disk c hc ht := (h₂.disk c hc ht).trans (h₁.disk c hc ht)
  bits c := by
    rw [h₂.bits, h₁.bits, not_or, and_assoc]

theorem Freed.congr (h : Freed T P s s₁) (hPQ : ∀ c, P c ↔ Q c) : Freed T Q s s₁ :=
  ⟨h.sb, h.icache, h.disk, fun c => by rw [h.bits, hPQ]⟩

/-- The superblock in memory and on disk is the one of `mkfs`. -/
def SuperOk (s : FileSys) : Prop := s.sb = mkfsSb ∧ superblockOf (s.disk 1) = mkfsSb

theorem Freed.superOk (h : Freed T P s s₁) (hs : SuperOk s) (hT : ¬ T 1) : SuperOk s₁ := by
  refine ⟨h.sb.trans hs.1, ?_⟩
  rw [h.disk 1 (by decide) hT]
  exact hs.2

/-- `bfree` unmarks a block. -/
theorem bfree_freed (hs : SuperOk s) (hb : b < FSSIZE) :
    Freed T (· = b) s (bfree s b).2 ∧ (bfree s b).2.body = s.body := by
  have hread : readSuperblock s = s := by
    unfold readSuperblock
    rw [hs.2, ← hs.1]
  obtain ⟨hblk, hmod⟩ := BITBLOCK_eq hs.1 hb
  unfold bfree
  rw [hread]
  dsimp only
  rw [hblk, hmod]
  split
  · refine ⟨?_, rfl⟩
    dsimp only
    rw [setBit_disk hs.1 hb]
    refine ⟨rfl, rfl, fun c hc _ => by simp [Inode.setBlock, hc], fun c => ?_⟩
    rw [bitSet_setBlock_self, bitSet_and_not, Bool.and_eq_true, bne_iff_ne]
    rfl
  · rename_i hclear
    refine ⟨⟨rfl, rfl, fun _ _ _ => rfl, fun c => ⟨fun hc => ⟨hc, ?_⟩, And.left⟩⟩, rfl⟩
    rintro rfl
    exact hclear hc

/-- A loop that unmarks blocks one after the other; `I` says what else it does. -/
theorem freed_foldl {f : FileSys → Nat → FileSys} {P : Nat → Nat → Prop} {I : Nat → FileSys → Prop}
    (hT : ¬ T 1) (n : Nat) (h0 : I 0 s)
    (hstep : ∀ s₁ j, j < n → Freed T (fun c => ∃ k < j, P k c) s s₁ → SuperOk s₁ → I j s₁ →
      Freed T (P j) s₁ (f s₁ j) ∧ I (j + 1) (f s₁ j))
    (hs : SuperOk s) :
    Freed T (fun c => ∃ k < n, P k c) s ((List.range n).foldl f s) ∧
      I n ((List.range n).foldl f s) := by
  induction n with
  | zero =>
    refine ⟨(Freed.refl s).congr fun c => ?_, h0⟩
    simp
  | succ n ih =>
    obtain ⟨hfreed, hI⟩ := ih fun s₁ j hj => hstep s₁ j (by omega)
    rw [List.range_succ, List.foldl_append, List.foldl_cons, List.foldl_nil]
    obtain ⟨hlast, hI'⟩ := hstep _ n (Nat.lt_succ_self n) hfreed (hfreed.superOk hs hT) hI
    refine ⟨(hfreed.trans hlast).congr fun c => ?_, hI'⟩
    constructor
    · rintro (⟨k, hk, hP⟩ | hP)
      · exact ⟨k, by omega, hP⟩
      · exact ⟨n, by omega, hP⟩
    · rintro ⟨k, hk, hP⟩
      by_cases hkn : k = n
      · exact .inr (hkn ▸ hP)
      · exact .inl ⟨k, by omega, hP⟩

/-- Block numbers in a table, other than 0. -/
def Lists (s : FileSys) (t c : Nat) : Prop := c ≠ 0 ∧ ∃ j < NINDIRECT, word (s.disk t) j = c

/-- One entry of an indirect block. -/
theorem freeEntry_freed {t j : Nat} (hs : SuperOk s) (hrange : word (s.disk t) j < FSSIZE) :
    Freed T (fun c => c ≠ 0 ∧ word (s.disk t) j = c) s (freeEntry t s j) ∧
      (freeEntry t s j).body = s.body := by
  unfold freeEntry
  dsimp only
  by_cases h0 : word (s.disk t) j = 0
  · rw [if_neg (by simpa using h0)]
    refine ⟨(Freed.refl s).congr fun c => ?_, rfl⟩
    simp only [false_iff, not_and]
    rintro hc rfl
    exact hc h0
  · rw [if_pos h0]
    obtain ⟨hfree, hbody⟩ := bfree_freed (T := T) hs hrange
    refine ⟨hfree.congr fun c => ?_, hbody⟩
    constructor
    · rintro rfl
      exact ⟨h0, rfl⟩
    · rintro ⟨_, rfl⟩
      rfl

/-- The loop over the entries of an indirect block. -/
theorem freeEntries_freed {t : Nat} (hs : SuperOk s) (ht : t ≠ 126) (hT : ¬ T 1) (hTt : ¬ T t)
    (hrange : ∀ c, Lists s t c → c < FSSIZE) :
    Freed T (Lists s t) s (freeEntries s t) ∧ (freeEntries s t).body = s.body := by
  have hword : ∀ j < NINDIRECT, word (s.disk t) j < FSSIZE := by
    intro j hj
    by_cases h0 : word (s.disk t) j = 0
    · rw [h0]
      decide
    · exact hrange _ ⟨h0, j, hj, rfl⟩
  obtain ⟨hfreed, hbody⟩ := freed_foldl (I := fun _ s₁ => s₁.body = s.body) hT NINDIRECT rfl
    (fun s₁ j hj hsofar hs₁ hbody => by
      have hdisk := hsofar.disk t ht hTt
      obtain ⟨hfree, hbody'⟩ := freeEntry_freed (T := T) hs₁ (by rw [hdisk]; exact hword j hj)
      rw [hdisk] at hfree
      exact ⟨hfree, hbody'.trans hbody⟩) hs
  refine ⟨hfreed.congr fun c => ?_, hbody⟩
  unfold Lists
  constructor
  · rintro ⟨j, hj, hc, hw⟩
    exact ⟨hc, j, hj, hw⟩
  · rintro ⟨hc, j, hj, hw⟩
    exact ⟨j, hj, hc, hw⟩

/-- A block named in a doubly indirect block, or listed in such a block. -/
def Below (s : FileSys) (t j c : Nat) : Prop :=
  word (s.disk t) j ≠ 0 ∧ (c = word (s.disk t) j ∨ Lists s (word (s.disk t) j) c)

/-- An entry of a block that was only read so far is cleared. -/
theorem Freed.clearEntry {t : Nat} (h : Freed (fun _ => False) P s s₁) (ht : t ≠ 126) (j : Nat) :
    Freed (· = t) P s (Inode.setBlock s₁ t (setWord (s₁.disk t) j 0)) ∧
      (Inode.setBlock s₁ t (setWord (s₁.disk t) j 0)).body = s₁.body ∧
      ∀ k, k ≠ j → word ((Inode.setBlock s₁ t (setWord (s₁.disk t) j 0)).disk t) k =
        word (s.disk t) k := by
  have hused : ∀ c, used (Inode.setBlock s₁ t (setWord (s₁.disk t) j 0)) c = used s₁ c := by
    intro c
    simp [used, Inode.setBlock, Ne.symm ht]
  refine ⟨⟨h.sb, h.icache, fun c hc hct => ?_, fun c => ?_⟩, rfl, fun k hk => ?_⟩
  · have hsame : (Inode.setBlock s₁ t (setWord (s₁.disk t) j 0)).disk c = s₁.disk c := by
      simp [Inode.setBlock, hct]
    rw [hsame]
    exact h.disk c hc id
  · rw [hused]
    exact h.bits c
  · have hself : (Inode.setBlock s₁ t (setWord (s₁.disk t) j 0)).disk t = setWord (s₁.disk t) j 0 := by
      simp [Inode.setBlock]
    rw [hself, word_setWord_of_ne hk, h.disk t ht id]

/-- One entry of a doubly indirect block. -/
theorem freeTable_freed {t j : Nat} (hs : SuperOk s) (ht : t ≠ 126)
    (htable : word (s.disk t) j ≠ 0 → word (s.disk t) j ≠ 126 ∧
      word (s.disk t) j < FSSIZE ∧ ∀ c, Lists s (word (s.disk t) j) c → c < FSSIZE) :
    Freed (· = t) (Below s t j) s (freeTable t s j) ∧ (freeTable t s j).body = s.body ∧
      ∀ k, k ≠ j → word ((freeTable t s j).disk t) k = word (s.disk t) k := by
  by_cases h0 : word (s.disk t) j = 0
  · have hsame : freeTable t s j = s := if_pos h0
    rw [hsame]
    refine ⟨(Freed.refl s).congr fun c => ?_, rfl, fun _ _ => rfl⟩
    simp [Below, h0]
  · obtain ⟨h126, hlt, hrange⟩ := htable h0
    obtain ⟨hentries, hbody⟩ := freeEntries_freed (T := fun _ => False) hs h126 id id hrange
    obtain ⟨hlast, hbody'⟩ := bfree_freed (T := fun _ => False) (hentries.superOk hs id) hlt
    obtain ⟨hclear, hbody'', hwords⟩ := (hentries.trans hlast).clearEntry ht j
    have hdef : freeTable t s j = Inode.setBlock (bfree (freeEntries s (word (s.disk t) j))
        (word (s.disk t) j)).2 t (setWord ((bfree (freeEntries s (word (s.disk t) j))
          (word (s.disk t) j)).2.disk t) j 0) := if_neg h0
    rw [hdef]
    refine ⟨hclear.congr fun c => ?_, hbody''.trans (hbody'.trans hbody), hwords⟩
    simp only [Below, h0, ne_eq, not_false_eq_true, true_and, or_comm]

/-- The loop over the entries of a doubly indirect block. -/
theorem freeTables_freed {t : Nat} (hs : SuperOk s) (ht : t ≠ 1) (ht' : t ≠ 126)
    (htables : ∀ c, Lists s t c → c ≠ 126 ∧ c ≠ t ∧ c < FSSIZE ∧ ∀ c', Lists s c c' → c' < FSSIZE) :
    Freed (· = t) (fun c => ∃ j < NINDIRECT, Below s t j c) s (freeTables s t) ∧
      (freeTables s t).body = s.body := by
  have hT : ¬ (1 = t) := fun h => ht h.symm
  obtain ⟨hfreed, hI⟩ := freed_foldl
    (I := fun j s₁ => s₁.body = s.body ∧ ∀ k, j ≤ k → word (s₁.disk t) k = word (s.disk t) k)
    (P := Below s t) (T := (· = t)) hT NINDIRECT ⟨rfl, fun _ _ => rfl⟩
    (fun s₁ j hj hsofar hs₁ ⟨hbody, hrest⟩ => by
      have hword := hrest j (Nat.le_refl j)
      -- the tables themselves have not been written to
      have hlists : ∀ c, Lists s t c → ∀ c', Lists s₁ c c' ↔ Lists s c c' := by
        intro c hc c'
        have hdisk := hsofar.disk c (htables c hc).1 (htables c hc).2.1
        simp only [Lists, hdisk]
      have htable : word (s₁.disk t) j ≠ 0 → word (s₁.disk t) j ≠ 126 ∧
          word (s₁.disk t) j < FSSIZE ∧ ∀ c, Lists s₁ (word (s₁.disk t) j) c → c < FSSIZE := by
        rw [hword]
        intro h0
        have hc : Lists s t (word (s.disk t) j) := ⟨h0, j, hj, rfl⟩
        obtain ⟨h126, _, hlt, hrange⟩ := htables _ hc
        exact ⟨h126, hlt, fun c' hc' => hrange c' ((hlists _ hc c').1 hc')⟩
      obtain ⟨hfree, hbody', hkeep⟩ := freeTable_freed hs₁ ht' htable
      refine ⟨hfree.congr fun c => ?_, hbody'.trans hbody, fun k hk => ?_⟩
      · unfold Below
        rw [hword]
        refine and_congr_right fun h0 => ?_
        rw [hlists _ ⟨h0, j, hj, rfl⟩]
      · rw [hkeep k (by omega)]
        exact hrest k (by omega)) hs
  exact ⟨hfreed, hI.1⟩

/-- The bodies with the first `j` slots of inode `i` cleared. -/
def clearSlots (s : FileSys) (i j : Nat) : Nat → Body :=
  Function.update s.body i
    { s.body i with blkAddrs := fun k => if k < j then 0 else (s.body i).blkAddrs k }

theorem setAddr_clearSlots {i j : Nat} (h : s₁.body = clearSlots s i j) :
    (setAddr s₁ i j 0).body = clearSlots s i (j + 1) := by
  unfold setAddr setBody
  dsimp only
  rw [h]
  unfold clearSlots
  rw [Function.update_self, Function.update_idem]
  congr 2
  funext k
  by_cases hk : k = j
  · simp [hk]
  · have hiff : k < j + 1 ↔ k < j := by omega
    simp [hk, hiff]

theorem clearSlots_of_zero {i j : Nat} (h0 : (s.body i).blkAddrs j = 0) :
    clearSlots s i (j + 1) = clearSlots s i j := by
  have haddrs : (fun k => if k < j + 1 then 0 else (s.body i).blkAddrs k) =
      fun k => if k < j then 0 else (s.body i).blkAddrs k := by
    funext k
    by_cases hk : k = j
    · simp [hk, h0]
    · have hiff : k < j + 1 ↔ k < j := by omega
      simp [hiff]
  unfold clearSlots
  rw [haddrs]

/-- The slot `j` is not cleared yet. -/
theorem blkAddrs_clearSlots {i j : Nat} (h : s₁.body = clearSlots s i j) :
    (s₁.body i).blkAddrs j = (s.body i).blkAddrs j := by
  simp [h, clearSlots]

theorem setAddr_freed {i j a : Nat} (h : Freed T P s s₁) : Freed T P s (setAddr s₁ i j a) :=
  ⟨h.sb, h.icache, h.disk, h.bits⟩

/-- One direct slot. -/
theorem freeSlot_freed {i j : Nat} (hs : SuperOk s₁) (hbody : s₁.body = clearSlots s i j)
    (hrange : (s.body i).blkAddrs j < FSSIZE) :
    Freed T (fun c => c ≠ 0 ∧ (s.body i).blkAddrs j = c) s₁ (freeSlot i s₁ j) ∧
      (freeSlot i s₁ j).body = clearSlots s i (j + 1) := by
  unfold freeSlot
  dsimp only
  rw [blkAddrs_clearSlots hbody]
  by_cases h0 : (s.body i).blkAddrs j = 0
  · rw [if_neg (by simpa using h0)]
    refine ⟨(Freed.refl s₁).congr fun c => ?_, ?_⟩
    · simp only [false_iff, not_and]
      rintro hc rfl
      exact hc h0
    · rw [hbody, clearSlots_of_zero h0]
  · rw [if_pos h0]
    obtain ⟨hfree, hbody'⟩ := bfree_freed (T := T) hs hrange
    refine ⟨setAddr_freed (hfree.congr fun c => ?_), setAddr_clearSlots (hbody'.trans hbody)⟩
    constructor
    · rintro rfl
      exact ⟨h0, rfl⟩
    · rintro ⟨_, rfl⟩
      rfl

/-- The loop over the direct blocks. -/
theorem freeDirect_freed {i : Nat} (hs : SuperOk s) (hT : ¬ T 1)
    (hrange : ∀ j < NDIRECT, (s.body i).blkAddrs j < FSSIZE) :
    Freed T (fun c => ∃ j < NDIRECT, c ≠ 0 ∧ (s.body i).blkAddrs j = c) s (freeDirect s i) ∧
      (freeDirect s i).body = clearSlots s i NDIRECT := by
  have h0 : s.body = clearSlots s i 0 := by simp [clearSlots]
  exact freed_foldl (I := fun j s₁ => s₁.body = clearSlots s i j) hT NDIRECT h0
    (fun s₁ j hj _ hs₁ hbody => freeSlot_freed hs₁ hbody (hrange j hj)) hs

/-- The blocks that inode `i` owns. -/
def OwnedBy (s : FileSys) (i c : Nat) : Prop := c ≠ 0 ∧ ∃ π, stored s i π = c

theorem Freed.mono {T' : Nat → Prop} (h : Freed T P s s₁) (hT : ∀ c, T c → T' c) : Freed T' P s s₁ :=
  ⟨h.sb, h.icache, fun c hc ht => h.disk c hc fun hn => ht (hT c hn), h.bits⟩

/-- What inode `i` owns is below `FSSIZE` and not among the metadata. -/
theorem FsInv.ownedBy (h : FsInv s) {i c : Nat} (hc : OwnedBy s i c) :
    nmeta ≤ c ∧ c < FSSIZE ∧ used s c = true := by
  obtain ⟨hc0, π, rfl⟩ := hc
  obtain ⟨hr, hu, _⟩ := h.owned i π hc0
  exact ⟨hr.1, hr.2, hu⟩

/-- A block is owned at one place. -/
theorem FsInv.place_unique (h : FsInv s) {i i' : Nat} {π π' : Place} (h0 : stored s i π ≠ 0)
    (heq : stored s i' π' = stored s i π) : i' = i ∧ π' = π :=
  (h.owned i π h0).2.2 i' π' heq

theorem freeIndirect_freed {i : Nat} (hs : SuperOk s₁) (hbody : s₁.body = clearSlots s i NDIRECT)
    (ha : (s.body i).blkAddrs NDIRECT ≠ 126 ∧ (s.body i).blkAddrs NDIRECT < FSSIZE)
    (hrange : (s.body i).blkAddrs NDIRECT ≠ 0 → ∀ c, Lists s₁ ((s.body i).blkAddrs NDIRECT) c → c < FSSIZE) :
    Freed (fun _ => False) (fun c => (s.body i).blkAddrs NDIRECT ≠ 0 ∧
        (Lists s₁ ((s.body i).blkAddrs NDIRECT) c ∨ c = (s.body i).blkAddrs NDIRECT)) s₁ (freeIndirect s₁ i) ∧
      (freeIndirect s₁ i).body = clearSlots s i (NDIRECT + 1) := by
  unfold freeIndirect
  dsimp only
  rw [blkAddrs_clearSlots hbody]
  generalize hgen : (s.body i).blkAddrs NDIRECT = a at ha hrange
  by_cases h0 : a = 0
  · rw [if_neg (by simpa using h0)]
    refine ⟨(Freed.refl s₁).congr fun c => by simp [h0], ?_⟩
    rw [hbody, clearSlots_of_zero (hgen.trans h0)]
  · rw [if_pos h0]
    obtain ⟨hentries, hb₁⟩ := freeEntries_freed (T := fun _ => False) hs ha.1 id id (hrange h0)
    obtain ⟨hlast, hb₂⟩ := bfree_freed (T := fun _ => False) (hentries.superOk hs id) ha.2
    refine ⟨setAddr_freed ((hentries.trans hlast).congr fun c => ?_),
      setAddr_clearSlots (hb₂.trans (hb₁.trans hbody))⟩
    simp [h0]

theorem freeDouble_freed {i : Nat} (hs : SuperOk s₁) (hbody : s₁.body = clearSlots s i (NDIRECT + 1))
    (ha : (s.body i).blkAddrs (NDIRECT + 1) ≠ 1 ∧ (s.body i).blkAddrs (NDIRECT + 1) ≠ 126 ∧
      (s.body i).blkAddrs (NDIRECT + 1) < FSSIZE)
    (htables : (s.body i).blkAddrs (NDIRECT + 1) ≠ 0 → ∀ c, Lists s₁ ((s.body i).blkAddrs (NDIRECT + 1)) c →
      c ≠ 126 ∧ c ≠ (s.body i).blkAddrs (NDIRECT + 1) ∧ c < FSSIZE ∧ ∀ c', Lists s₁ c c' → c' < FSSIZE) :
    Freed (· = (s.body i).blkAddrs (NDIRECT + 1)) (fun c => (s.body i).blkAddrs (NDIRECT + 1) ≠ 0 ∧
        ((∃ j < NINDIRECT, Below s₁ ((s.body i).blkAddrs (NDIRECT + 1)) j c) ∨
          c = (s.body i).blkAddrs (NDIRECT + 1))) s₁ (freeDouble s₁ i) ∧
      (freeDouble s₁ i).body = clearSlots s i (NDIRECT + 2) := by
  unfold freeDouble
  dsimp only
  rw [blkAddrs_clearSlots hbody]
  generalize hgen : (s.body i).blkAddrs (NDIRECT + 1) = a at ha htables
  by_cases h0 : a = 0
  · rw [if_neg (by simpa using h0)]
    refine ⟨(Freed.refl s₁).congr fun c => by simp [h0], ?_⟩
    rw [hbody]
    exact (clearSlots_of_zero (hgen.trans h0)).symm
  · rw [if_pos h0]
    obtain ⟨htabs, hb₁⟩ := freeTables_freed hs ha.1 ha.2.1 (htables h0)
    obtain ⟨hlast, hb₂⟩ := bfree_freed (T := (· = a)) (htabs.superOk hs (Ne.symm ha.1)) ha.2.2
    refine ⟨setAddr_freed ((htabs.trans hlast).congr fun c => ?_),
      setAddr_clearSlots (hb₂.trans (hb₁.trans hbody))⟩
    simp only [h0, ne_eq, not_false_eq_true, true_and]

/-- The blocks of inode `i`, in the order in which `ifree` gets to them. -/
def Frees (s : FileSys) (i c : Nat) : Prop :=
  ((∃ j < NDIRECT, c ≠ 0 ∧ (s.body i).blkAddrs j = c) ∨
    ((s.body i).blkAddrs NDIRECT ≠ 0 ∧
      (Lists s ((s.body i).blkAddrs NDIRECT) c ∨ c = (s.body i).blkAddrs NDIRECT))) ∨
  ((s.body i).blkAddrs (NDIRECT + 1) ≠ 0 ∧
    ((∃ j < NINDIRECT, Below s ((s.body i).blkAddrs (NDIRECT + 1)) j c) ∨
      c = (s.body i).blkAddrs (NDIRECT + 1)))

theorem entry_of_ne {t : Nat} (ht : t ≠ 0) (j : Nat) : entry s t j = word (s.disk t) j := if_neg ht

theorem ne_zero_of_entry {t j : Nat} (h : entry s t j ≠ 0) : t ≠ 0 := by
  rintro rfl
  exact h rfl

/-- `ifree` gets to every place of the inode. -/
theorem frees_iff (s : FileSys) (i c : Nat) : Frees s i c ↔ OwnedBy s i c := by
  constructor
  · rintro ((⟨j, hj, hc, rfl⟩ | ⟨h0, ⟨hc, j, hj, rfl⟩ | rfl⟩) | ⟨h0, ⟨j, hj, he, rfl | ⟨hc, z, hz, rfl⟩⟩ | rfl⟩)
    · exact ⟨hc, .slot ⟨j, hj.trans (by decide)⟩, rfl⟩
    · exact ⟨hc, .ind ⟨j, hj⟩, entry_of_ne h0 j⟩
    · exact ⟨h0, .slot ⟨NDIRECT, by decide⟩, rfl⟩
    · exact ⟨he, .dbl ⟨j, hj⟩, entry_of_ne h0 j⟩
    · refine ⟨hc, .leaf ⟨j, hj⟩ ⟨z, hz⟩, ?_⟩
      simp only [stored]
      rw [entry_of_ne h0, entry_of_ne he]
    · exact ⟨h0, .slot ⟨NDIRECT + 1, by decide⟩, rfl⟩
  · rintro ⟨hc, π, rfl⟩
    cases π with
    | slot k =>
      obtain hk | hk | hk : (k : Nat) < NDIRECT ∨ (k : Nat) = NDIRECT ∨ (k : Nat) = NDIRECT + 1 := by
        have := k.isLt
        omega
      · exact .inl (.inl ⟨k, hk, hc, rfl⟩)
      · simp only [stored, hk] at hc ⊢
        exact .inl (.inr ⟨hc, .inr rfl⟩)
      · simp only [stored, hk] at hc ⊢
        exact .inr ⟨hc, .inr rfl⟩
    | ind j =>
      have h0 : (s.body i).blkAddrs NDIRECT ≠ 0 := ne_zero_of_entry hc
      exact .inl (.inr ⟨h0, .inl ⟨hc, j, j.isLt, (entry_of_ne h0 j).symm⟩⟩)
    | dbl n =>
      have h0 : (s.body i).blkAddrs (NDIRECT + 1) ≠ 0 := ne_zero_of_entry hc
      have hword : stored s i (.dbl n) = word (s.disk ((s.body i).blkAddrs (NDIRECT + 1))) n :=
        entry_of_ne h0 n
      rw [hword] at hc ⊢
      exact .inr ⟨h0, .inl ⟨n, n.isLt, hc, .inl rfl⟩⟩
    | leaf n z =>
      have he : entry s ((s.body i).blkAddrs (NDIRECT + 1)) n ≠ 0 := ne_zero_of_entry hc
      have h0 := ne_zero_of_entry he
      have hword := entry_of_ne (s := s) he z
      rw [entry_of_ne h0] at he hword
      refine .inr ⟨h0, .inl ⟨n, n.isLt, he, .inr ⟨hc, z, z.isLt, ?_⟩⟩⟩
      simp only [stored]
      rw [entry_of_ne h0]
      exact hword.symm

/-- Slots hold 0 or a data block. -/
theorem FsInv.slot_range (h : FsInv s) (i : Nat) {k : Nat} (hk : k < NDIRECT + 2) :
    (s.body i).blkAddrs k ≠ 1 ∧ (s.body i).blkAddrs k ≠ 126 ∧ (s.body i).blkAddrs k < FSSIZE := by
  by_cases h0 : (s.body i).blkAddrs k = 0
  · rw [h0]
    decide
  · obtain ⟨hge, hlt, _⟩ := h.ownedBy (c := (s.body i).blkAddrs k) ⟨h0, .slot ⟨k, hk⟩, rfl⟩
    simp only [nmeta] at hge
    omega

/-- **The loops of `ifree`** unmark what the inode owns, and clear its slots. -/
theorem FsInv.ifree_freed (h : FsInv s) (i : Nat) :
    Freed (· = (s.body i).blkAddrs (NDIRECT + 1)) (OwnedBy s i) s
        (freeDouble (freeIndirect (freeDirect s i) i) i) ∧
      (freeDouble (freeIndirect (freeDirect s i) i) i).body = clearSlots s i (NDIRECT + 2) := by
  have hs : SuperOk s := ⟨h.sb, h.super⟩
  have hown : ∀ c, Frees s i c → nmeta ≤ c ∧ c < FSSIZE := fun c hc => by
    obtain ⟨hge, hlt, _⟩ := h.ownedBy ((frees_iff s i c).1 hc)
    exact ⟨hge, hlt⟩
  have hr₁ := h.slot_range i (k := NDIRECT) (by decide)
  have hr₂ := h.slot_range i (k := NDIRECT + 1) (by decide)
  obtain ⟨hf₁, hb₁⟩ := freeDirect_freed (T := fun _ => False) (i := i) hs id
    (fun j hj => (h.slot_range i (hj.trans (by decide))).2.2)
  have hs₁ := hf₁.superOk hs id
  generalize freeDirect s i = s₁ at *
  have hlist₁ : ∀ t c, t ≠ 126 → (Lists s₁ t c ↔ Lists s t c) := by
    intro t c ht
    simp only [Lists, hf₁.disk t ht id]
  obtain ⟨hf₂, hb₂⟩ := freeIndirect_freed hs₁ hb₁ hr₁.2 (fun h0 c hc =>
    (hown c (.inl (.inr ⟨h0, .inl ((hlist₁ _ _ hr₁.2.1).1 hc)⟩))).2)
  have hs₂ := hf₂.superOk hs₁ id
  have hf₁₂ := hf₁.trans hf₂
  generalize freeIndirect s₁ i = s₂ at *
  have hdisk₂ : ∀ t, t ≠ 126 → s₂.disk t = s.disk t := fun t ht => hf₁₂.disk t ht id
  have hlist₂ : ∀ t c, t ≠ 126 → (Lists s₂ t c ↔ Lists s t c) := by
    intro t c ht
    simp only [Lists, hdisk₂ t ht]
  have hbelow : ∀ j c, j < NINDIRECT → (s.body i).blkAddrs (NDIRECT + 1) ≠ 0 →
      (Below s₂ ((s.body i).blkAddrs (NDIRECT + 1)) j c ↔ Below s ((s.body i).blkAddrs (NDIRECT + 1)) j c) := by
    intro j c hj h0
    unfold Below
    rw [hdisk₂ _ hr₂.2.1]
    refine and_congr_right fun he => or_congr_right ?_
    refine hlist₂ _ c ?_
    have := (hown _ (.inr ⟨h0, .inl ⟨j, hj, he, .inl rfl⟩⟩)).1
    simp only [nmeta] at this
    omega
  obtain ⟨hf₃, hb₃⟩ := freeDouble_freed hs₂ hb₂ hr₂ (fun h0 c hc => by
    obtain ⟨hc0, j, hj, rfl⟩ := (hlist₂ _ _ hr₂.2.1).1 hc
    have hB : ∀ c', Below s ((s.body i).blkAddrs (NDIRECT + 1)) j c' → nmeta ≤ c' ∧ c' < FSSIZE :=
      fun c' hc' => hown c' (.inr ⟨h0, .inl ⟨j, hj, hc'⟩⟩)
    have hself := hB _ ⟨hc0, .inl rfl⟩
    have h126 : word (s.disk ((s.body i).blkAddrs (NDIRECT + 1))) j ≠ 126 := by
      simp only [nmeta] at hself
      omega
    refine ⟨h126, fun heq => ?_, hself.2, fun c' hc' => (hB c' ⟨hc0, .inr ((hlist₂ _ _ h126).1 hc')⟩).2⟩
    -- the doubly indirect block is not one of its own entries
    have hdbl : stored s i (.dbl ⟨j, hj⟩) = stored s i (.slot ⟨NDIRECT + 1, by decide⟩) :=
      (entry_of_ne h0 j).trans heq
    have := (h.place_unique (π := .slot ⟨NDIRECT + 1, by decide⟩) h0 hdbl).2
    cases this)
  refine ⟨((hf₁₂.mono (fun _ hF => hF.elim)).trans hf₃).congr fun c => ?_, hb₃⟩
  rw [← frees_iff]
  unfold Frees
  refine or_congr (or_congr_right (and_congr_right fun _ => or_congr_left (hlist₁ _ c hr₁.2.1)))
    (and_congr_right fun h0 => or_congr_left (exists_congr fun j => ?_))
  exact and_congr_right fun hj => hbelow j c hj h0

/-- The places of a freed inode are empty, those of the others are as before. -/
theorem FsInv.stored_freed (h : FsInv s) {i : Nat} (hf : Freed (· = (s.body i).blkAddrs (NDIRECT + 1)) P s s₁)
    (hother : ∀ i', i' ≠ i → s₁.body i' = s.body i') (hself : ∀ k < NDIRECT + 2, (s₁.body i).blkAddrs k = 0)
    (i' : Nat) (π : Place) : stored s₁ i' π = if i' = i then 0 else stored s i' π := by
  by_cases hi : i' = i
  · subst hi
    have hind := hself NDIRECT (by decide)
    have hdbl := hself (NDIRECT + 1) (by decide)
    cases π with
    | slot k => simpa [stored] using hself k k.isLt
    | ind j => simp [stored, hind, entry]
    | dbl n => simp [stored, hdbl, entry]
    | leaf n z => simp [stored, hdbl, entry]
  · rw [if_neg hi]
    refine stored_congr (by rw [hother i' hi]) (fun c hc => hf.disk c ?_ ?_) π
    · have hge := h.table_ge hc
      simp only [nmeta] at hge
      omega
    · rintro rfl
      obtain ⟨π', hπ', h0⟩ := hc.stored
      have hslot : stored s i (.slot ⟨NDIRECT + 1, by decide⟩) ≠ 0 := h0
      exact hi (h.place_unique hslot hπ').1

/-- **`ifree`** keeps the owners apart, and clears exactly the bits of the blocks that the inode
    owned. -/
theorem FsInv.ifree (h : FsInv s) (i : Nat) :
    FsInv (Inode.ifree s i) ∧
      ∀ c, used (Inode.ifree s i) c = true ↔ used s c = true ∧ ¬ OwnedBy s i c := by
  obtain ⟨hf, hbody⟩ := h.ifree_freed i
  unfold Inode.ifree
  dsimp only
  generalize freeDouble (freeIndirect (freeDirect s i) i) i = s₃ at hf hbody
  generalize hs₄ : setBody s₃ i { s₃.body i with fileSiz := 0 } = s₄
  have hf₄ : Freed (· = (s.body i).blkAddrs (NDIRECT + 1)) (OwnedBy s i) s s₄ := by
    rw [← hs₄]
    exact ⟨hf.sb, hf.icache, hf.disk, hf.bits⟩
  have hother : ∀ i', i' ≠ i → s₄.body i' = s.body i' := by
    intro i' hi
    rw [← hs₄]
    simp [setBody, hbody, clearSlots, hi]
  have hself : ∀ k < NDIRECT + 2, (s₄.body i).blkAddrs k = 0 := by
    intro k hk
    rw [← hs₄]
    simp [setBody, hbody, clearSlots, hk]
  have hsize : (s₄.body i).fileSiz = 0 := by
    rw [← hs₄]
    simp [setBody]
  have hstored := h.stored_freed hf₄ hother hself
  have hs : SuperOk s₄ := hf₄.superOk ⟨h.sb, h.super⟩ (Ne.symm (h.slot_range i (by decide)).1)
  have hinv : FsInv s₄ := by
    refine ⟨hs.1, hs.2, fun b hb => ?_, fun i' => ?_, fun i' => ?_, fun i' π hne => ?_⟩
    · refine (hf₄.bits b).2 ⟨h.marked b hb, fun hown => ?_⟩
      have := (h.ownedBy hown).1
      omega
    · rw [hf₄.icache]
      exact h.inos i'
    · by_cases hi : i' = i
      · rw [hi, hsize]
        exact Nat.zero_le _
      · rw [hother i' hi]
        exact h.sizes i'
    · rw [hstored] at hne
      by_cases hi : i' = i
      · rw [if_pos hi] at hne
        exact absurd rfl hne
      · rw [if_neg hi] at hne
        rw [hstored, if_neg hi]
        obtain ⟨hr, hu, huniq⟩ := h.owned i' π hne
        refine ⟨hr, (hf₄.bits _).2 ⟨hu, ?_⟩, fun i'' π'' heq => ?_⟩
        · rintro ⟨_, π', hπ'⟩
          exact hi (huniq i π' hπ').1.symm
        · rw [hstored] at heq
          by_cases hi'' : i'' = i
          · rw [if_pos hi''] at heq
            exact absurd heq.symm hne
          · rw [if_neg hi''] at heq
            exact huniq i'' π'' heq
  obtain ⟨hinv', _, hused⟩ := hinv.iupdate i
  refine ⟨hinv', fun c => ?_⟩
  rw [hused]
  exact hf₄.bits c

end Free

/-! ## §6 Runs -/

inductive Op where
  | writei (i : Nat) (src : Nat → BitVec 8) (offset nbytes : BitVec 32)
  | ifree (i : Nat)

def step (s : FileSys) : Op → Except Fault FileSys
  | .writei i src offset nbytes => (writei s i src offset nbytes).map Prod.snd
  | .ifree i => .ok (ifree s i)

/-- Blocks are owned after the step, and an `ifree` clears exactly the bits of what was owned. -/
def StepOk (s : FileSys) (o : Op) (s' : FileSys) : Prop :=
  Owned s' ∧ ∀ i, o = .ifree i → ∀ b, used s' b = true ↔ used s b = true ∧ ¬ OwnedBy s i b

/-- **Block ownership**: from a file system as `mkfs` leaves it, any sequence of writes and of inodes
    that are freed, also one that fills the disk, keeps every block with one owner. -/
theorem owned_of_run {s : FileSys} (hs : FsInv s) (os : List Op) : Along step StepOk s os := by
  refine along_of_inv FsInv (fun s o h => ?_) hs os
  cases o with
  | writei i src offset nbytes =>
    obtain ⟨r, s', hw, h'⟩ := h.writei i src offset nbytes
    refine ⟨s', ?_, ⟨h'.owned, fun i hi => by cases hi⟩, h'⟩
    simp only [step, hw]
    rfl
  | ifree i =>
    obtain ⟨h', hbits⟩ := h.ifree i
    refine ⟨_, rfl, ⟨h'.owned, fun i' hi' => ?_⟩, h'⟩
    obtain rfl := Op.ifree.inj hi'
    exact hbits

/-- What `mkfs` makes without files: the root directory has one data block. Its inode is in memory. -/
def mkfsRoot : FileSys where
  sb := mkfsSb
  disk b :=
    if b = 1 then blockOf [FSSIZE, FSSIZE - 127, NINODES, LOGSIZE, 2, 2 + LOGSIZE, 126]
    else if b = 126 then fun k => if k < 16 then 255 else 0
    else fun _ => 0
  icache :=
    { InodeCache.inodeInit with
      inode := fun i => if i = 0 then ⟨1, 1, 1, true, T_DIR, 1⟩ else ⟨0, 0, 0, false, 0, 0⟩ }
  body i := ⟨0, 0, if i = 0 then BLKSIZE else 0, fun k => if i = 0 ∧ k = 0 then 127 else 0⟩
  devStructs _ := ⟨none⟩

/-- The root directory has one block. -/
theorem stored_mkfsRoot {i : Nat} {π : Place} (h : stored mkfsRoot i π ≠ 0) :
    i = 0 ∧ π = .slot 0 ∧ stored mkfsRoot i π = 127 := by
  cases π with
  | slot k =>
    by_cases hk : i = 0 ∧ (k : Nat) = 0
    · obtain ⟨rfl, hk0⟩ := hk
      obtain rfl : k = 0 := Fin.ext hk0
      exact ⟨rfl, rfl, rfl⟩
    · exact absurd (by simp only [stored, mkfsRoot, if_neg hk]) h
  | ind j => exact absurd (by simp [stored, mkfsRoot, entry, NDIRECT]) h
  | dbl n => exact absurd (by simp [stored, mkfsRoot, entry]) h
  | leaf n z => exact absurd (by simp [stored, mkfsRoot, entry]) h

theorem mkfsRoot_fsInv : FsInv mkfsRoot where
  sb := rfl
  super := by decide +kernel
  marked := by decide +kernel
  inos i := by
    by_cases hi : i = 0
    · simp [mkfsRoot, hi, NINODES]
    · simp [mkfsRoot, hi, NINODES]
  sizes i := by
    by_cases hi : i = 0
    · simp only [mkfsRoot, hi, if_true]
      decide
    · simp [mkfsRoot, hi]
  owned i π hne := by
    obtain ⟨rfl, rfl, h127⟩ := stored_mkfsRoot hne
    rw [h127]
    refine ⟨by decide, by decide +kernel, fun i' π' heq => ?_⟩
    obtain ⟨hi, hπ, _⟩ := stored_mkfsRoot (i := i') (π := π') (by rw [heq]; decide)
    exact ⟨hi, hπ⟩

/-- A write past the first block of the root directory, and its inode freed. -/
theorem owned_of_run_mkfsRoot :
    FsInv mkfsRoot ∧ Along step StepOk mkfsRoot [.writei 0 (fun _ => 1) 4090 5000, .ifree 0] :=
  ⟨mkfsRoot_fsInv, owned_of_run mkfsRoot_fsInv _⟩

end WeiOS.Inode
