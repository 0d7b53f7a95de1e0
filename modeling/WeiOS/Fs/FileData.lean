import Mathlib
import WeiOS.Fs.BlockOwner
import WeiOS.Fs.Directory

/-!
# The Bytes of a File

Below the doubly indirect blocks, byte `k` of a file is byte `k % BLKSIZE` of the block that is stored at
the place of logical block `k / BLKSIZE`. `bmap` fills empty places and leaves the others alone, so
`writei` changes the bytes it is given and no others, and `readi` reads them back.

A disk that is full is not reported: the data goes to block 0. `Room` says that there are free blocks for
the places that a write fills.

## Main results
- `FsInv.bmap_grows`: what one call of `bmap` does to the places and the blocks.
- `FsInv.writei_bytes`: a write overwrites its range, in its own file only.
- `readLoop_bytes`: a read of blocks that are there.
-/

namespace WeiOS.Inode

/-! ## §1 Bytes and places -/

/-- The place of logical block `l`, for blocks below the doubly indirect ones. -/
def dataPlace (l : Nat) : Place :=
  if h : l < NDIRECT then .slot ⟨l, Nat.lt_add_right 2 h⟩
  else .ind ⟨(l - NDIRECT) % NINDIRECT, Nat.mod_lt _ (by decide)⟩

/-- The block of logical block `l`; 0 if there is none. -/
def blockAt (s : FileSys) (i l : Nat) : Nat := stored s i (dataPlace l)

/-- Byte `k` of the file has a block. -/
def Mapped (s : FileSys) (i k : Nat) : Prop := blockAt s i (k / BLKSIZE) ≠ 0

/-- Byte `k` of the file. -/
def byteAt (s : FileSys) (i k : Nat) : BitVec 8 := s.disk (blockAt s i (k / BLKSIZE)) (k % BLKSIZE)

theorem NDIRECT_lt : NDIRECT < NDIRECT + 2 := by decide

/-- The places that `bmap` of logical block `l` fills: its own, and the one of the indirect block. -/
def touched (l : Nat) : Finset Place :=
  if l < NDIRECT then {dataPlace l} else {.slot ⟨NDIRECT, NDIRECT_lt⟩, dataPlace l}

/-- The places of the first `n` logical blocks. -/
def needed (n : Nat) : Finset Place := (Finset.range n).biUnion touched

/-- The places of `Q` that have no block. -/
def holes (s : FileSys) (i : Nat) (Q : Finset Place) : Finset Place := Q.filter fun π => stored s i π = 0

/-- The blocks whose bit is clear. -/
def freeBlocks (s : FileSys) : Finset Nat := (Finset.range FSSIZE).filter fun b => used s b = false

/-- The disk has a free block for each place of `Q` that has none. -/
def Room (s : FileSys) (i : Nat) (Q : Finset Place) : Prop :=
  (holes s i Q).card ≤ (freeBlocks s).card

instance (s : FileSys) (i : Nat) (Q : Finset Place) : Decidable (Room s i Q) :=
  inferInstanceAs (Decidable (_ ≤ _))

theorem dataPlace_of_lt {l : Nat} (hl : l < NDIRECT) :
    dataPlace l = .slot ⟨l, Nat.lt_add_right 2 hl⟩ := dif_pos hl

theorem dataPlace_of_ge {l : Nat} (hl : ¬ l < NDIRECT) (hlim : l < NDIRECT + NINDIRECT) :
    dataPlace l = .ind ⟨l - NDIRECT, by omega⟩ := by
  unfold dataPlace
  rw [dif_neg hl]
  congr 1
  apply Fin.ext
  exact Nat.mod_eq_of_lt (by omega)

theorem isData_dataPlace (l : Nat) : (dataPlace l).IsData := by
  unfold dataPlace
  split
  case isTrue hl => exact hl
  case isFalse hl => exact trivial

/-- Different logical blocks have different places. -/
theorem dataPlace_inj {l l' : Nat} (hl : l < NDIRECT + NINDIRECT) (hl' : l' < NDIRECT + NINDIRECT)
    (heq : dataPlace l = dataPlace l') : l = l' := by
  by_cases hd : l < NDIRECT
  · by_cases hd' : l' < NDIRECT
    · rw [dataPlace_of_lt hd, dataPlace_of_lt hd'] at heq
      simpa using heq
    · rw [dataPlace_of_lt hd, dataPlace_of_ge hd' hl'] at heq
      cases heq
  · by_cases hd' : l' < NDIRECT
    · rw [dataPlace_of_ge hd hl, dataPlace_of_lt hd'] at heq
      cases heq
    · rw [dataPlace_of_ge hd hl, dataPlace_of_ge hd' hl'] at heq
      simp only [Place.ind.injEq, Fin.mk.injEq] at heq
      omega

theorem touched_subset {l n : Nat} (hl : l < n) : touched l ⊆ needed n :=
  Finset.subset_biUnion_of_mem touched (Finset.mem_range.2 hl)

theorem dataPlace_mem_touched (l : Nat) : dataPlace l ∈ touched l := by
  unfold touched
  split
  · exact Finset.mem_singleton_self _
  · exact Finset.mem_insert_of_mem (Finset.mem_singleton_self _)

theorem indirect_mem_touched {l : Nat} (hl : ¬ l < NDIRECT) :
    Place.slot ⟨NDIRECT, by decide⟩ ∈ touched l := by
  unfold touched
  rw [if_neg hl]
  exact Finset.mem_insert_self _ _

/-! ## §2 Filling a place -/

section Fills

variable {s s₁ s₂ s' : FileSys} {i b : Nat} {π : Place} {Q : Finset Place}

/-- Inode `i` has the same blocks. -/
def SameBlocks (s s' : FileSys) (i : Nat) : Prop :=
  s'.body i = s.body i ∧ ∀ π, stored s' i π = stored s i π

theorem SameBlocks.trans (h₁ : SameBlocks s s₁ i) (h₂ : SameBlocks s₁ s₂ i) : SameBlocks s s₂ i :=
  ⟨h₂.1.trans h₁.1, fun π => (h₂.2 π).trans (h₁.2 π)⟩

/-- Nothing of what the file system had is lost: blocks stay at their places, data blocks keep their
    bytes, and only inode `i` gets blocks. -/
structure Grows (s : FileSys) (i : Nat) (s' : FileSys) : Prop where
  icache : s'.icache = s.icache
  devStructs : s'.devStructs = s.devStructs
  size : ∀ i, (s'.body i).fileSiz = (s.body i).fileSiz
  kept : ∀ i π, stored s i π ≠ 0 → stored s' i π = stored s i π
  data : ∀ i π, π.IsData → stored s i π ≠ 0 → s'.disk (stored s i π) = s.disk (stored s i π)
  others : ∀ i', i' ≠ i → SameBlocks s s' i'

theorem Grows.refl (s : FileSys) (i : Nat) : Grows s i s :=
  ⟨rfl, rfl, fun _ => rfl, fun _ _ _ => rfl, fun _ _ _ _ => rfl, fun _ _ => ⟨rfl, fun _ => rfl⟩⟩

theorem Grows.trans (h₁ : Grows s i s₁) (h₂ : Grows s₁ i s₂) : Grows s i s₂ where
  others i' hi := (h₁.others i' hi).trans (h₂.others i' hi)
  icache := h₂.icache.trans h₁.icache
  devStructs := h₂.devStructs.trans h₁.devStructs
  size i := (h₂.size i).trans (h₁.size i)
  kept i π h0 := by
    have hkept := h₁.kept i π h0
    rw [h₂.kept i π (by rw [hkept]; exact h0), hkept]
  data i π hπ h0 := by
    have hkept := h₁.kept i π h0
    have hdata := h₂.data i π hπ (by rw [hkept]; exact h0)
    rw [hkept] at hdata
    rw [hdata, h₁.data i π hπ h0]

/-- Place `π` of inode `i` is filled with block `b`, unless it had that block before. -/
structure Fill (s : FileSys) (i : Nat) (π : Place) (b : Nat) (s' : FileSys) : Prop where
  grows : Grows s i s'
  ne_zero : b ≠ 0
  stored : ∀ i' π', stored s' i' π' = if i' = i ∧ π' = π then b else stored s i' π'
  free : (freeBlocks s).card = (freeBlocks s').card + if Inode.stored s i π = 0 then 1 else 0

/-- A place that has a block. -/
theorem Fill.refl (h0 : Inode.stored s i π ≠ 0) : Fill s i π (Inode.stored s i π) s where
  grows := Grows.refl s i
  ne_zero := h0
  stored i' π' := by
    split
    case isTrue h =>
      obtain ⟨rfl, rfl⟩ := h
      rfl
    case isFalse => rfl
  free := by rw [if_neg h0, Nat.add_zero]

theorem Fill.stored_self (h : Fill s i π b s') : Inode.stored s' i π = b := by
  rw [h.stored, if_pos ⟨rfl, rfl⟩]

/-- A fill of a place of `Q` uses up no more than `Q` had room for. -/
theorem Fill.room (h : Fill s i π b s') (hπ : π ∈ Q) (hroom : Room s i Q) : Room s' i Q := by
  have hholes : holes s' i Q = (holes s i Q).erase π := by
    ext π'
    simp only [holes, Finset.mem_filter, Finset.mem_erase]
    rw [h.stored]
    by_cases heq : π' = π
    · simp [heq, h.ne_zero]
    · simp [heq]
  have hfree := h.free
  unfold Room at hroom ⊢
  rw [hholes]
  by_cases h0 : Inode.stored s i π = 0
  · have hmem : π ∈ holes s i Q := Finset.mem_filter.2 ⟨hπ, h0⟩
    rw [Finset.card_erase_of_mem hmem]
    rw [if_pos h0] at hfree
    omega
  · rw [if_neg h0] at hfree
    have hle : ((holes s i Q).erase π).card ≤ (holes s i Q).card := Finset.card_erase_le
    omega

/-- With room for a place that is empty, some block is free. -/
theorem Room.exists_free (hroom : Room s i Q) (hπ : π ∈ Q) (h0 : stored s i π = 0) :
    ∃ b < FSSIZE, used s b = false := by
  have hpos : 0 < (holes s i Q).card := Finset.card_pos.2 ⟨π, Finset.mem_filter.2 ⟨hπ, h0⟩⟩
  obtain ⟨b, hb⟩ := Finset.card_pos.1 (hpos.trans_le hroom)
  rw [freeBlocks, Finset.mem_filter, Finset.mem_range] at hb
  exact ⟨b, hb⟩

/-- `balloc` changes the block that it returns, and the bitmap. -/
theorem FsInv.balloc_new (h : FsInv s) (halloc : Inode.balloc s = (b, s')) (hb : b ≠ 0) :
    used s b = false ∧ b < FSSIZE ∧ s'.icache = s.icache ∧ s'.devStructs = s.devStructs ∧
      ∀ c, c ≠ 126 → c ≠ b → s'.disk c = s.disk c := by
  unfold Inode.balloc at halloc
  rw [findFree_eq h.sb] at halloc
  cases hfind : (List.range FSSIZE).find? fun j => !used s j with
  | none =>
    rw [hfind] at halloc
    exact absurd (congrArg Prod.fst halloc).symm hb
  | some a =>
    rw [hfind] at halloc
    obtain rfl : a = b := congrArg Prod.fst halloc
    obtain rfl : bzero (setBit s a (· ||| byter (a % BITPB))) a = s' := congrArg Prod.snd halloc
    have hlt : a < FSSIZE := List.mem_range.1 (List.mem_of_find?_eq_some hfind)
    refine ⟨by simpa using List.find?_some hfind, hlt, rfl, rfl, fun c hc hca => ?_⟩
    rw [setBit_disk h.sb hlt]
    simp [bzero, Inode.setBlock, hc, hca]

/-- The free blocks after one of them is marked. -/
theorem card_freeBlocks (hfree : used s b = false) (hb : b < FSSIZE)
    (hused : ∀ c, used s' c = (used s c || c == b)) :
    (freeBlocks s).card = (freeBlocks s').card + 1 := by
  have hmem : b ∈ freeBlocks s := Finset.mem_filter.2 ⟨Finset.mem_range.2 hb, hfree⟩
  have herase : freeBlocks s' = (freeBlocks s).erase b := by
    ext c
    simp only [freeBlocks, Finset.mem_filter, Finset.mem_erase, hused, Bool.or_eq_false_iff,
      beq_eq_false_iff_ne]
    constructor
    · rintro ⟨hc, hclear, hne⟩
      exact ⟨hne, hc, hclear⟩
    · rintro ⟨hne, hc, hclear⟩
      exact ⟨hc, hclear, hne⟩
  rw [herase, Finset.card_erase_of_mem hmem]
  have hpos := Finset.card_pos.2 ⟨b, hmem⟩
  omega

/-- A slot of an inode that has its block, or gets one. -/
theorem FsInv.slotBlock_fill (h : FsInv s) (i : Nat) (k : Fin (NDIRECT + 2)) :
    (Inode.slotBlock s i k = (0, s) ∧ stored s i (.slot k) = 0 ∧ ∀ b < FSSIZE, used s b = true) ∨
      ∃ b s', Inode.slotBlock s i k = (b, s') ∧ FsInv s' ∧ Fill s i (.slot k) b s' := by
  by_cases h0 : (s.body i).blkAddrs k = 0
  · rcases h.balloc with ⟨hfull, hused⟩ | ⟨b, s', halloc, hb, h', hrange, hstored, hfresh, hused, hzero, hbody⟩
    · refine .inl ⟨?_, h0, hused⟩
      unfold Inode.slotBlock
      rw [if_neg (not_not.2 h0), hfull]
      rfl
    · obtain ⟨b', s'', hslot, hinv, _⟩ := h.slotBlock i k
      obtain ⟨hclear, hlt, hicache, hdevs, hdisk⟩ := h.balloc_new halloc hb
      have heq : Inode.slotBlock s i k = (b, setAddr s' i k b) := by
        unfold Inode.slotBlock
        rw [if_neg (not_not.2 h0), halloc]
        obtain ⟨b, rfl⟩ := Nat.exists_eq_succ_of_ne_zero hb
        rfl
      obtain rfl : setAddr s' i k b = s'' := congrArg Prod.snd (heq.symm.trans hslot)
      have hk' : (s'.body i).blkAddrs k = 0 := by rw [hbody, h0]
      have hplace : ∀ i' π', stored (setAddr s' i k b) i' π' =
          if i' = i ∧ π' = .slot k then b else stored s i' π' := by
        intro i' π'
        rw [stored_setAddr hk' hzero, hstored]
      refine .inr ⟨b, _, heq, hinv, ⟨⟨hicache, hdevs, fun i' => ?_, fun i' π' hne => ?_, fun i' π' _ hne => ?_,
        fun i' hi => ⟨?_, fun π' => ?_⟩⟩, hb, hplace, ?_⟩⟩
      · by_cases hi : i' = i
        · subst hi
          simp [setAddr, setBody, hbody]
        · simp [setAddr, setBody, hi, hbody]
      · rw [hplace]
        split
        case isTrue hself =>
          obtain ⟨rfl, rfl⟩ := hself
          exact absurd h0 hne
        case isFalse => rfl
      · have hge := (h.owned i' π' hne).1.1
        simp only [nmeta] at hge
        exact hdisk _ (by omega) fun heq => hfresh i' π' ((hstored i' π').trans heq)
      · simp [setAddr, setBody, hi, hbody]
      · rw [hplace, if_neg fun hc => hi hc.1]
      · rw [if_pos (show stored s i (.slot k) = 0 from h0)]
        exact card_freeBlocks hclear hlt hused
  · refine .inr ⟨_, s, ?_, h, Fill.refl h0⟩
    unfold Inode.slotBlock
    rw [if_pos h0]
    rfl

/-- An entry of the indirect block that has its block, or gets one. -/
theorem FsInv.entryBlock_fill (h : FsInv s) {t : Nat} (ht : (s.body i).blkAddrs NDIRECT = t) (ht0 : t ≠ 0)
    (j : Fin NINDIRECT) :
    (Inode.entryBlock s t j = (0, s) ∧ stored s i (.ind j) = 0 ∧ ∀ b < FSSIZE, used s b = true) ∨
      ∃ b s', Inode.entryBlock s t j = (b, s') ∧ FsInv s' ∧ Fill s i (.ind j) b s' := by
  have hent : stored s i (.ind j) = word (s.disk t) j := by simp [stored, ht, entry, ht0]
  by_cases h0 : word (s.disk t) j = 0
  · rcases h.balloc with ⟨hfull, hused⟩ | ⟨b, s', halloc, hb, h', hrange, hstored, hfresh, hused, hzero, hbody⟩
    · refine .inl ⟨?_, hent.trans h0, hused⟩
      unfold Inode.entryBlock
      rw [if_neg (not_not.2 h0), hfull]
      rfl
    · obtain ⟨b', s'', hslot, hinv, _⟩ := h.entryBlock ht ht0 j
      obtain ⟨hclear, hlt, hicache, hdevs, hdisk⟩ := h.balloc_new halloc hb
      have heq : Inode.entryBlock s t j = (b, Inode.setBlock s' t (setWord (s'.disk t) j b)) := by
        unfold Inode.entryBlock
        rw [if_neg (not_not.2 h0), halloc]
        obtain ⟨b, rfl⟩ := Nat.exists_eq_succ_of_ne_zero hb
        rfl
      obtain rfl : Inode.setBlock s' t (setWord (s'.disk t) j b) = s'' := congrArg Prod.snd (heq.symm.trans hslot)
      have ht' : (s'.body i).blkAddrs NDIRECT = t := by rw [hbody, ht]
      have hplace : ∀ i' π', stored (Inode.setBlock s' t (setWord (s'.disk t) j b)) i' π' =
          if i' = i ∧ π' = .ind j then b else stored s i' π' := by
        intro i' π'
        rw [h'.stored_setEntry ht' ht0 j (hrange.2.trans (by decide)), hstored]
      -- the table is a place of its own, so it is no data block and not in the bitmap
      have hslot : stored s i (.slot ⟨NDIRECT, by decide⟩) = t := ht
      have ht126 : t ≠ 126 := by
        have hge := (h.owned i _ (by rw [hslot]; exact ht0)).1.1
        rw [hslot] at hge
        simp only [nmeta] at hge
        omega
      have hdisk' : ∀ c, c ≠ t → (Inode.setBlock s' t (setWord (s'.disk t) j b)).disk c = s'.disk c :=
        fun c hc => by simp [Inode.setBlock, hc]
      refine .inr ⟨b, _, heq, hinv, ⟨⟨hicache, hdevs, fun i' => ?_, fun i' π' hne => ?_, fun i' π' hπ' hne => ?_,
        fun i' hi => ⟨?_, fun π' => ?_⟩⟩, hb, hplace, ?_⟩⟩
      · show (s'.body i').fileSiz = _
        rw [hbody]
      · rw [hplace]
        split
        case isTrue hself =>
          obtain ⟨rfl, rfl⟩ := hself
          exact absurd (hent.trans h0) hne
        case isFalse => rfl
      · have hge := (h.owned i' π' hne).1.1
        simp only [nmeta] at hge
        rw [hdisk' _ fun heq => h.not_isTable hπ' heq i ⟨ht0, .inl hslot.symm⟩]
        exact hdisk _ (by omega) fun heq => hfresh i' π' ((hstored i' π').trans heq)
      · show s'.body i' = _
        rw [hbody]
      · rw [hplace, if_neg fun hc => hi hc.1]
      · rw [if_pos (hent.trans h0)]
        refine card_freeBlocks hclear hlt fun c => ?_
        have hused' : used (Inode.setBlock s' t (setWord (s'.disk t) j b)) c = used s' c := by
          unfold used
          rw [hdisk' 126 (Ne.symm ht126)]
        rw [hused', hused]
  · refine .inr ⟨_, s, ?_, h, Fill.refl (by rw [hent]; exact h0)⟩
    unfold Inode.entryBlock
    rw [if_pos h0, hent]

/-- **`bmap`** below the doubly indirect blocks: it keeps what is there. It returns the block of `lblkno`,
    or 0 if there is none and the disk is full. -/
theorem FsInv.bmap_grows (h : FsInv s) (i : Nat) {lblkno : Nat} (hl : lblkno < NDIRECT + NINDIRECT) :
    ∃ b s', Inode.bmap s i lblkno = .ok (b, s') ∧ FsInv s' ∧ Grows s i s' ∧
      blockAt s' i lblkno = b ∧ (b = 0 → ∀ c < FSSIZE, used s' c = true) ∧
      ∀ Q, touched lblkno ⊆ Q → Room s i Q → b ≠ 0 ∧ Room s' i Q := by
  -- with room for an empty place the disk is not full
  have hnotFull : ∀ {s : FileSys} {Q : Finset Place} {π : Place}, Room s i Q → π ∈ Q →
      stored s i π = 0 → ¬ ∀ b < FSSIZE, used s b = true := by
    intro s Q π hroom hπ h0 hfull
    obtain ⟨b, hb, hclear⟩ := hroom.exists_free hπ h0
    rw [hfull b hb] at hclear
    cases hclear
  unfold Inode.bmap
  by_cases hdir : lblkno < NDIRECT
  · rw [if_pos hdir]
    have hplace := dataPlace_of_lt hdir
    have hmem := dataPlace_mem_touched lblkno
    rcases h.slotBlock_fill i ⟨lblkno, Nat.lt_add_right 2 hdir⟩ with ⟨heq, h0, hfull⟩ | ⟨b, s', heq, h', hfill⟩
    · refine ⟨0, s, congrArg Except.ok heq, h, Grows.refl s i, ?_, fun _ => hfull, fun Q hQ hroom => ?_⟩
      · unfold blockAt
        rw [hplace]
        exact h0
      rw [hplace] at hmem
      exact absurd hfull (hnotFull hroom (hQ hmem) h0)
    · rw [← hplace] at hfill
      refine ⟨b, s', congrArg Except.ok heq, h', hfill.grows, hfill.stored_self,
        fun hb => absurd hb hfill.ne_zero, fun Q hQ hroom => ?_⟩
      exact ⟨hfill.ne_zero, hfill.room (hQ hmem) hroom⟩
  · rw [if_neg hdir]
    have hind : lblkno - NDIRECT < NINDIRECT := by omega
    have hplace := dataPlace_of_ge hdir hl
    have hmem := dataPlace_mem_touched lblkno
    have hmem' := indirect_mem_touched hdir
    dsimp only
    rw [if_pos hind]
    rcases h.slotBlock_fill i ⟨NDIRECT, by decide⟩ with ⟨heq, h0, hfull⟩ | ⟨t, s₁, heq, h₁, hfill₁⟩
    · have heq' : Inode.slotBlock s i NDIRECT = (0, s) := heq
      rw [heq']
      refine ⟨0, s, rfl, h, Grows.refl s i, ?_, fun _ => hfull, fun Q hQ hroom => ?_⟩
      · have htable : (s.body i).blkAddrs NDIRECT = 0 := h0
        unfold blockAt
        rw [hplace]
        simp only [stored, htable, entry, if_true]
      · exact absurd hfull (hnotFull hroom (hQ hmem') h0)
    · have heq' : Inode.slotBlock s i NDIRECT = (t, s₁) := heq
      have ht0 := hfill₁.ne_zero
      have ht : (s₁.body i).blkAddrs NDIRECT = t := hfill₁.stored_self
      rw [heq']
      obtain ⟨t, rfl⟩ := Nat.exists_eq_succ_of_ne_zero ht0
      rcases h₁.entryBlock_fill ht ht0 ⟨lblkno - NDIRECT, hind⟩ with ⟨heq, h0, hfull⟩ | ⟨b, s', heq, h', hfill⟩
      · refine ⟨0, s₁, congrArg Except.ok heq, h₁, hfill₁.grows, ?_, fun _ => hfull, fun Q hQ hroom => ?_⟩
        · unfold blockAt
          rw [hplace]
          exact h0
        rw [hplace] at hmem
        exact absurd hfull (hnotFull (hfill₁.room (hQ hmem') hroom) (hQ hmem) h0)
      · rw [← hplace] at hfill
        refine ⟨b, s', congrArg Except.ok heq, h', hfill₁.grows.trans hfill.grows, hfill.stored_self,
          fun hb => absurd hb hfill.ne_zero, fun Q hQ hroom => ?_⟩
        exact ⟨hfill.ne_zero, hfill.room (hQ hmem) (hfill₁.room (hQ hmem') hroom)⟩

end Fills

/-! ## §3 Writing -/

section Writes

variable {s s₁ s₂ s' : FileSys} {i b n off : Nat} {Q : Finset Place}

theorem MAXFILESIZ_div {k : Nat} (hk : k < MAXFILESIZ) : k / BLKSIZE < NDIRECT + NINDIRECT := by
  rw [Nat.div_lt_iff_lt_mul (by decide), ← MAXFILESIZ_eq]
  exact hk

theorem Grows.mapped {j : Nat} (h : Grows s j s') {k : Nat} (hk : Mapped s i k) : Mapped s' i k := by
  unfold Mapped blockAt
  rw [h.kept i _ hk]
  exact hk

theorem Grows.byteAt {j : Nat} (h : Grows s j s') {k : Nat} (hk : Mapped s i k) :
    Inode.byteAt s' i k = Inode.byteAt s i k := by
  have hkept : blockAt s' i (k / BLKSIZE) = blockAt s i (k / BLKSIZE) := h.kept i _ hk
  unfold Inode.byteAt
  rw [hkept, blockAt, h.data i _ (isData_dataPlace _) hk]

/-- The bytes of `P` are those of `src`, and the other bytes of all files are as before. -/
structure Overwrites (s : FileSys) (i off : Nat) (src : Nat → BitVec 8) (P : Nat → Prop) (s' : FileSys) :
    Prop where
  icache : s'.icache = s.icache
  devStructs : s'.devStructs = s.devStructs
  written : ∀ k < MAXFILESIZ, P k → Mapped s' i k ∧ byteAt s' i k = src (k - off)
  kept : ∀ i', ∀ k < MAXFILESIZ, ¬ (i' = i ∧ P k) → Mapped s i' k →
    Mapped s' i' k ∧ byteAt s' i' k = byteAt s i' k
  others : ∀ i', i' ≠ i → SameBlocks s s' i'

theorem Overwrites.trans {src : Nat → BitVec 8} {P₁ P₂ P : Nat → Prop} (h₁ : Overwrites s i off src P₁ s₁)
    (h₂ : Overwrites s₁ i off src P₂ s₂) (hP : ∀ k, P k ↔ P₁ k ∨ P₂ k) : Overwrites s i off src P s₂ where
  others i' hi := (h₁.others i' hi).trans (h₂.others i' hi)
  icache := h₂.icache.trans h₁.icache
  devStructs := h₂.devStructs.trans h₁.devStructs
  written k hk hPk := by
    by_cases hlast : P₂ k
    · exact h₂.written k hk hlast
    · obtain ⟨hm₁, hb₁⟩ := h₁.written k hk (((hP k).1 hPk).resolve_right hlast)
      obtain ⟨hm₂, hb₂⟩ := h₂.kept i k hk (fun hc => hlast hc.2) hm₁
      exact ⟨hm₂, hb₂.trans hb₁⟩
  kept i' k hk hout hm := by
    have hout₁ : ¬ (i' = i ∧ P₁ k) := fun hc => hout ⟨hc.1, (hP k).2 (.inl hc.2)⟩
    have hout₂ : ¬ (i' = i ∧ P₂ k) := fun hc => hout ⟨hc.1, (hP k).2 (.inr hc.2)⟩
    obtain ⟨hm₁, hb₁⟩ := h₁.kept i' k hk hout₁ hm
    obtain ⟨hm₂, hb₂⟩ := h₂.kept i' k hk hout₂ hm₁
    exact ⟨hm₂, hb₂.trans hb₁⟩

/-- Data for logical block `l` goes to its block. -/
theorem FsInv.writeBlock_overwrites (h : FsInv s) {l : Nat} (hl : l < NDIRECT + NINDIRECT)
    (hb : blockAt s i l = b) (hb0 : b ≠ 0) {o w : Nat} (ho : o + w ≤ BLKSIZE) (src : Nat → BitVec 8)
    (hoff : off ≤ l * BLKSIZE + o) :
    FsInv (Inode.setBlock s b (memmove (s.disk b) o (fun k => src (l * BLKSIZE + o - off + k)) w)) ∧
      (∀ Q, Room s i Q → Room (Inode.setBlock s b
        (memmove (s.disk b) o (fun k => src (l * BLKSIZE + o - off + k)) w)) i Q) ∧
      Overwrites s i off src (fun k => l * BLKSIZE + o ≤ k ∧ k < l * BLKSIZE + o + w)
        (Inode.setBlock s b (memmove (s.disk b) o (fun k => src (l * BLKSIZE + o - off + k)) w)) := by
  have hdata := isData_dataPlace l
  generalize hd : memmove (s.disk b) o (fun k => src (l * BLKSIZE + o - off + k)) w = d
  have hrange : nmeta ≤ b := by
    have hge := (h.owned i (dataPlace l) (by rw [← blockAt, hb]; exact hb0)).1.1
    rwa [← blockAt, hb] at hge
  simp only [nmeta] at hrange
  obtain ⟨hinv, hstored, hused⟩ := h.setBlock d (fun i' => h.not_isTable hdata hb i') (by omega : b ≠ 1)
    (by omega : b ≠ 126)
  have hblockAt : ∀ i' l', blockAt (Inode.setBlock s b d) i' l' = blockAt s i' l' :=
    fun i' l' => hstored i' _
  refine ⟨hinv, fun Q hroom => ?_, rfl, rfl, fun k hk hin => ?_, fun i' k hk hout hm => ?_,
    fun i' _ => ⟨rfl, hstored i'⟩⟩
  · unfold Room holes freeBlocks at hroom ⊢
    simp only [hstored, hused]
    exact hroom
  · obtain ⟨hge, hlt⟩ := hin
    have hkl : k / BLKSIZE = l := by
      rw [Nat.div_eq_iff (by decide)]
      have hpos : 0 < BLKSIZE := by decide
      omega
    have hmod : k % BLKSIZE = k - l * BLKSIZE := by
      rw [Nat.mod_eq_sub_div_mul, hkl]
    unfold Mapped byteAt
    rw [hblockAt, hkl, hb, hmod]
    refine ⟨hb0, ?_⟩
    have hself : (Inode.setBlock s b d).disk b = d := by simp [Inode.setBlock]
    rw [hself, ← hd]
    unfold memmove
    rw [if_pos (by omega)]
    dsimp only
    congr 1
    omega
  · refine ⟨by unfold Mapped; rw [hblockAt]; exact hm, ?_⟩
    unfold byteAt
    rw [hblockAt]
    by_cases hsame : blockAt s i' (k / BLKSIZE) = b
    · obtain ⟨rfl, hplace⟩ := h.place_unique (i := i) (π := dataPlace l)
        (by rw [← blockAt, hb]; exact hb0) (hsame.trans hb.symm)
      obtain rfl : k / BLKSIZE = l := dataPlace_inj (MAXFILESIZ_div hk) hl hplace
      have hself : (Inode.setBlock s b d).disk b = d := by simp [Inode.setBlock]
      rw [hsame, hself, ← hd]
      unfold memmove
      rw [if_neg]
      rintro ⟨hge, hlt⟩
      have hk' := Nat.div_add_mod k BLKSIZE
      rw [Nat.mul_comm] at hk'
      exact hout ⟨rfl, by omega, by omega⟩
    · have hother : (Inode.setBlock s b d).disk (blockAt s i' (k / BLKSIZE)) =
          s.disk (blockAt s i' (k / BLKSIZE)) := by
        simp [Inode.setBlock, hsame]
      rw [hother]

/-- The block map grows, and nothing is written. -/
theorem Grows.overwrites (h : Grows s i s') (src : Nat → BitVec 8) {P : Nat → Prop} (hP : ∀ k, ¬ P k) :
    Overwrites s i off src P s' where
  others := h.others
  icache := h.icache
  devStructs := h.devStructs
  written k _ hk := absurd hk (hP k)
  kept _ _ _ _ hm := ⟨h.mapped hm, h.byteAt hm⟩

/-- **The loop of `writei`**, by induction on the rounds that are left: with room it writes the rest of
    the bytes. -/
theorem FsInv.writeLoop_overwrites (src : Nat → BitVec 8) (hmax : off + n ≤ MAXFILESIZ)
    (hQ : ∀ l, l * BLKSIZE < off + n → touched l ⊆ Q) (fuel total : Nat) (hfuel : n - total ≤ fuel)
    (h : FsInv s) (hroom : Room s i Q) :
    ∃ s', Inode.writeLoop src i off n fuel total s = .ok s' ∧ FsInv s' ∧ Room s' i Q ∧
      (∀ i, (s'.body i).fileSiz = (s.body i).fileSiz) ∧
      Overwrites s i off src (fun k => off + total ≤ k ∧ k < off + n) s' := by
  induction fuel generalizing total s with
  | zero =>
    refine ⟨s, rfl, h, hroom, fun _ => rfl, (Grows.refl s i).overwrites src fun k => ?_⟩
    omega
  | succ fuel ih =>
    unfold Inode.writeLoop
    by_cases hlt : total < n
    · rw [if_pos hlt]
      dsimp only
      have hblk := MAXFILESIZ_div (show off + total < MAXFILESIZ by omega)
      have hdm := Nat.div_add_mod (off + total) BLKSIZE
      rw [Nat.mul_comm] at hdm
      have hmod : (off + total) % BLKSIZE < BLKSIZE := Nat.mod_lt _ (by decide)
      generalize (off + total) / BLKSIZE = l at hblk hdm
      generalize (off + total) % BLKSIZE = o at hdm hmod
      obtain ⟨b, s₁, hmap, h₁, hgrows, hb, _, hroom₁⟩ := h.bmap_grows i hblk
      rw [hmap]
      dsimp only
      obtain ⟨hb0, hroom₁⟩ := hroom₁ Q (hQ l (by omega)) hroom
      generalize hw : min (n - total) (BLKSIZE - o) = w
      obtain ⟨h₂, hroom₂, hover⟩ := h₁.writeBlock_overwrites hblk hb hb0
        (show o + w ≤ BLKSIZE by omega) src (show off ≤ l * BLKSIZE + o by omega)
      have htotal : l * BLKSIZE + o - off = total := by omega
      rw [htotal] at h₂ hroom₂ hover
      obtain ⟨s', hloop, h', hroom', hsize, hrest⟩ := ih (total + w) (by omega) h₂ (hroom₂ Q hroom₁)
      refine ⟨s', hloop, h', hroom', fun i' => (hsize i').trans (hgrows.size i'), ?_⟩
      have hnothing : Overwrites s i off src (fun _ => False) s₁ := hgrows.overwrites src fun _ => id
      apply (hnothing.trans hover fun k => Iff.rfl).trans hrest
      intro k
      simp only [false_or]
      omega
    · rw [if_neg hlt]
      refine ⟨s, rfl, h, hroom, fun _ => rfl, (Grows.refl s i).overwrites src fun k => ?_⟩
      omega

/-- `iupdate` writes to an inode block, so no byte of a file changes. -/
theorem FsInv.iupdate_grows (h : FsInv s) (i : Nat) : Grows s i (Inode.iupdate s i) where
  others i' _ := ⟨rfl, (h.iupdate i).2.1 i'⟩
  icache := rfl
  devStructs := rfl
  size _ := rfl
  kept i' π _ := (h.iupdate i).2.1 i' π
  data i' π _ h0 := by
    have hge := (h.owned i' π h0).1.1
    simp only [nmeta] at hge
    have hblk : IBLOCK (s.icache.inode i).ino s.sb < 126 := by
      have hdiv : (s.icache.inode i).ino / IPB < 4 := by
        rw [Nat.div_lt_iff_lt_mul (by decide)]
        exact (h.inos i).trans (by decide)
      have hstart : s.sb.inodeStart = 122 := by
        rw [h.sb]
        rfl
      unfold IBLOCK
      omega
    unfold Inode.iupdate
    have hne : stored s i' π ≠ IBLOCK (s.icache.inode i).ino s.sb := by omega
    simp [Inode.setBlock, hne]

/-- The size of a file is not stored with its blocks. -/
theorem stored_setFileSiz (s : FileSys) (i m i' : Nat) (π : Place) :
    stored (setBody s i { s.body i with fileSiz := m }) i' π = stored s i' π := by
  have haddrs : ((setBody s i { s.body i with fileSiz := m }).body i').blkAddrs = (s.body i').blkAddrs := by
    by_cases hi : i' = i
    · subst hi
      simp [setBody]
    · simp [setBody, hi]
  exact stored_congr haddrs (fun _ _ => rfl) π

theorem setFileSiz_overwrites (s : FileSys) (i off : Nat) (src : Nat → BitVec 8) (m : Nat) :
    Overwrites s i off src (fun _ => False) (setBody s i { s.body i with fileSiz := m }) := by
  have hblockAt : ∀ i' l, blockAt (setBody s i { s.body i with fileSiz := m }) i' l = blockAt s i' l :=
    fun i' l => stored_setFileSiz s i m i' (dataPlace l)
  refine ⟨rfl, rfl, fun _ _ hk => hk.elim, fun i' k _ _ hm => ⟨?_, ?_⟩, fun i' hi => ⟨?_, ?_⟩⟩
  · unfold Mapped
    rw [hblockAt]
    exact hm
  · unfold byteAt
    rw [hblockAt]
    rfl
  · simp [setBody, hi]
  · exact stored_setFileSiz s i m i'

theorem toNat_ofNat_of_lt {n : Nat} (hn : n < 2 ^ 32) : (BitVec.ofNat 32 n).toNat = n := by
  rw [BitVec.toNat_ofNat]
  exact Nat.mod_eq_of_lt hn

/-- **`writei`** within the limit and with room: it returns `n`, its bytes are those of `src`, all other
    bytes are as before, and the file grows to the end of the write. -/
theorem FsInv.writei_bytes (h : FsInv s) (hdev : (s.icache.inode i).type ≠ T_DEV)
    (hoff : off ≤ (s.body i).fileSiz) (hmax : off + n ≤ MAXFILESIZ)
    (hQ : ∀ l, l * BLKSIZE < off + n → touched l ⊆ Q) (hroom : Room s i Q) (src : Nat → BitVec 8) :
    ∃ s', Inode.writei s i src (BitVec.ofNat 32 off) (BitVec.ofNat 32 n) = .ok ((n : Int), s') ∧ FsInv s' ∧
      Room s' i Q ∧ (s'.body i).fileSiz = max (s.body i).fileSiz (off + n) ∧
      Overwrites s i off src (fun k => off ≤ k ∧ k < off + n) s' := by
  have hM : MAXFILESIZ = 4239360 := by decide
  have htoNat := toNat_ofNat_of_lt (by omega : off < 2 ^ 32)
  have hntoNat := toNat_ofNat_of_lt (by omega : n < 2 ^ 32)
  have hsum : (off + n) % 2 ^ 32 = off + n := Nat.mod_eq_of_lt (by omega)
  unfold Inode.writei
  dsimp only
  rw [htoNat, hntoNat, hsum, if_neg hdev, if_neg (by omega), if_neg (by omega)]
  obtain ⟨s₁, hloop, h₁, hroom₁, hsize, hover⟩ :=
    h.writeLoop_overwrites src hmax hQ n 0 (by omega) hroom
  rw [hloop]
  dsimp only
  by_cases hgrow : (s₁.body i).fileSiz < off + n
  · rw [if_pos hgrow]
    have h₂ := h₁.setFileSiz i hmax
    have hupd := h₂.iupdate i
    refine ⟨_, rfl, hupd.1, ?_, ?_, ?_⟩
    · have hstored : ∀ π, stored (Inode.iupdate (setBody s₁ i { s₁.body i with fileSiz := off + n }) i) i π =
          stored s₁ i π := by
        intro π
        rw [hupd.2.1, stored_setFileSiz]
      unfold Room holes freeBlocks at hroom₁ ⊢
      simp only [hstored, hupd.2.2]
      exact hroom₁
    · rw [(h₂.iupdate_grows i).size]
      have hs := hsize i
      simp only [setBody, Function.update_self]
      omega
    · have hsz := setFileSiz_overwrites s₁ i off src (off + n)
      have hup : Overwrites _ i off src (fun _ => False) _ := (h₂.iupdate_grows i).overwrites src fun _ => id
      apply (hover.trans hsz fun k => Iff.rfl).trans hup
      intro k
      simp only [Nat.add_zero, or_false]
  · rw [if_neg hgrow]
    refine ⟨s₁, rfl, h₁, hroom₁, ?_, ?_⟩
    · have hs := hsize i
      omega
    · simpa only [Nat.add_zero] using hover

end Writes

/-! ## §4 Reading -/

section Reads

variable {s : FileSys} {i off n : Nat}

/-- `bmap` of a block that is there. -/
theorem bmap_of_mapped {l : Nat} (hl : l < NDIRECT + NINDIRECT) (h0 : blockAt s i l ≠ 0) :
    bmap s i l = .ok (blockAt s i l, s) := by
  unfold bmap
  by_cases hdir : l < NDIRECT
  · rw [if_pos hdir]
    unfold blockAt at h0 ⊢
    rw [dataPlace_of_lt hdir] at h0 ⊢
    simp only [stored] at h0 ⊢
    unfold slotBlock
    rw [if_pos h0]
  · rw [if_neg hdir]
    dsimp only
    rw [if_pos (by omega)]
    unfold blockAt at h0 ⊢
    rw [dataPlace_of_ge hdir hl] at h0 ⊢
    simp only [stored] at h0 ⊢
    have ht0 := ne_zero_of_entry h0
    rw [entry_of_ne ht0] at h0 ⊢
    have hslot : slotBlock s i NDIRECT = ((s.body i).blkAddrs NDIRECT, s) := if_pos ht0
    rw [hslot]
    generalize (s.body i).blkAddrs NDIRECT = t at ht0 h0 ⊢
    obtain ⟨t, rfl⟩ := Nat.exists_eq_succ_of_ne_zero ht0
    have hent : entryBlock s (t + 1) (l - NDIRECT) = (word (s.disk (t + 1)) (l - NDIRECT), s) := if_pos h0
    exact congrArg Except.ok hent

/-- **The loop of `readi`** over blocks that are there, by induction on the rounds that are left: it
    changes nothing and copies the bytes of the file. -/
theorem readLoop_bytes (hmax : off + n ≤ MAXFILESIZ) (fuel total : Nat) (hfuel : n - total ≤ fuel)
    (hmapped : ∀ k, off + total ≤ k → k < off + n → Mapped s i k) (dst : Block) :
    ∃ d, Dir.readLoop i off n fuel total dst s = .ok (d, s) ∧
      ∀ j, d j = if total ≤ j ∧ j < n then byteAt s i (off + j) else dst j := by
  induction fuel generalizing total dst with
  | zero =>
    refine ⟨dst, rfl, fun j => ?_⟩
    rw [if_neg (by omega)]
  | succ fuel ih =>
    unfold Dir.readLoop
    by_cases hlt : total < n
    · rw [if_pos hlt]
      dsimp only
      have hblk := MAXFILESIZ_div (show off + total < MAXFILESIZ by omega)
      have hm := hmapped (off + total) (by omega) (by omega)
      have hdm := Nat.div_add_mod (off + total) BLKSIZE
      rw [Nat.mul_comm] at hdm
      have hmod : (off + total) % BLKSIZE < BLKSIZE := Nat.mod_lt _ (by decide)
      rw [bmap_of_mapped hblk hm]
      dsimp only
      generalize hl : (off + total) / BLKSIZE = l at hblk hdm
      generalize (off + total) % BLKSIZE = o at hdm hmod
      generalize hw : min (n - total) (BLKSIZE - o) = w
      obtain ⟨d, hloop, hd⟩ := ih (total + w) (by omega) (fun k hge hk => hmapped k (by omega) hk)
        (memmove dst total (fun k => s.disk (blockAt s i l) (o + k)) w)
      refine ⟨d, hloop, fun j => ?_⟩
      rw [hd]
      unfold memmove
      by_cases hrest : total + w ≤ j ∧ j < n
      · rw [if_pos hrest, if_pos (by omega)]
      · rw [if_neg hrest]
        by_cases hnow : total ≤ j ∧ j < total + w
        · rw [if_pos hnow, if_pos (by omega)]
          have hkl : (off + j) / BLKSIZE = l := by
            rw [Nat.div_eq_iff (by decide)]
            have hpos : 0 < BLKSIZE := by decide
            omega
          have hmod' : (off + j) % BLKSIZE = o + (j - total) := by
            rw [Nat.mod_eq_sub_div_mul, hkl]
            omega
          unfold byteAt
          rw [hkl, hmod']
        · rw [if_neg hnow, if_neg (by omega)]
    · rw [if_neg hlt]
      refine ⟨dst, rfl, fun j => ?_⟩
      rw [if_neg (by omega)]

end Reads

end WeiOS.Inode
