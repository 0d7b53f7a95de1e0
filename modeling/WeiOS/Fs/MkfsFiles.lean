import Mathlib
import WeiOS.Fs.Mkfs
import WeiOS.Fs.ByteArray

/-!
# The Files that mkfs Writes

`iappend` of `lib/mkfs.c` on the bytes of files: it puts its bytes behind those of one inode and leaves the
others alone. Blocks are counted by the places that have none: what a call takes is no more than the places
that its bytes need.

## Main results
- `Built.iappend`: one `iappend`.
- `Built.copyLoop`: a whole file is copied.
-/

namespace WeiOS.Mkfs

open WeiOS.Inode
open WeiOS.Dir (Name DIRSIZ ROOTINO slash)

/-! ## §1 Blocks to be taken -/

section Need

variable {im im' : Image} {inum fbn x : Nat} {d d' : DInode} {Q : Finset Place}

/-- The blocks before the first free one when all places of `Q` have theirs. -/
def need (s : FileSys) (freeblock inum : Nat) (Q : Finset Place) : Nat :=
  (holes s inum Q).card + freeblock

/-- What `iappend` does not touch before its end: the metadata, and the fields of `din` but the block numbers. -/
structure Keeps (im im' : Image) (d d' : DInode) : Prop where
  freeinode : im'.freeinode = im.freeinode
  metadata : ∀ b < nmeta, im'.disk b = im.disk b
  inode : ∃ a, d' = { d with blkAddrs := a } ∧ ∀ k, NDIRECT + 2 ≤ k → a k = d.blkAddrs k

theorem Keeps.refl (im : Image) (d : DInode) : Keeps im im d d := ⟨rfl, fun _ _ => rfl, _, rfl, fun _ _ => rfl⟩

theorem Keeps.trans {im₁ : Image} {d₁ : DInode} (h₁ : Keeps im im₁ d d₁) (h₂ : Keeps im₁ im' d₁ d') :
    Keeps im im' d d' := by
  obtain ⟨a₁, rfl, ha₁⟩ := h₁.inode
  obtain ⟨a₂, rfl, ha₂⟩ := h₂.inode
  exact ⟨h₂.freeinode.trans h₁.freeinode, fun b hb => (h₂.metadata b hb).trans (h₁.metadata b hb), a₂, rfl,
    fun k hk => (ha₂ k hk).trans (ha₁ k hk)⟩

/-- A place of `Q` that is filled is no hole any more. -/
theorem holes_fill {s s' : FileSys} {i b : Nat} {π : Place} (h : Fill s i π b s') (hπ : π ∈ Q)
    (h0 : stored s i π = 0) : (holes s' i Q).card + 1 ≤ (holes s i Q).card := by
  have hmem : π ∈ holes s i Q := Finset.mem_filter.2 ⟨hπ, h0⟩
  apply Finset.card_lt_card
  refine ⟨fun π' hπ' => ?_, fun hsub => ?_⟩
  · obtain ⟨hQ, hz⟩ := Finset.mem_filter.1 hπ'
    refine Finset.mem_filter.2 ⟨hQ, ?_⟩
    rw [h.stored] at hz
    split at hz
    · exact absurd hz h.ne_zero
    · exact hz
  · have hself := (Finset.mem_filter.1 (hsub hmem)).2
    rw [h.stored_self] at hself
    exact h.ne_zero hself

theorem holes_pos {s : FileSys} {i : Nat} {π : Place} (hπ : π ∈ Q) (h0 : stored s i π = 0) :
    0 < (holes s i Q).card :=
  Finset.card_pos.2 ⟨π, Finset.mem_filter.2 ⟨hπ, h0⟩⟩

/-- A slot of `din`. -/
theorem Loop.slot_need (h : Loop im inum d) (k : Fin (NDIRECT + 2)) (hQ : Place.slot k ∈ Q)
    (hneed : need (during im inum d) im.freeblock inum Q ≤ FSSIZE) (hslot : slot im d k = (x, im', d')) :
    im'.freeblock ≤ FSSIZE ∧
      need (during im' inum d') im'.freeblock inum Q ≤ need (during im inum d) im.freeblock inum Q ∧
      Keeps im im' d d' := by
  have haddr : stored (during im inum d) inum (.slot k) = d.blkAddrs k := by
    simp [stored, during, setBody, DInode.body]
  unfold need at hneed ⊢
  have hsl := hslot
  unfold slot at hsl
  by_cases h0 : d.blkAddrs k = 0
  · rw [if_pos h0] at hsl
    obtain ⟨rfl, rfl, rfl⟩ : im.freeblock = x ∧ _ = im' ∧ _ = d' := by simpa using hsl
    have hpos := holes_pos hQ (haddr.trans h0)
    have hfits : im.freeblock + 1 ≤ FSSIZE := by omega
    obtain ⟨heq, hx, _⟩ := h.slot_slotBlock k hslot hfits
    refine ⟨hfits, ?_, rfl, fun _ _ => rfl, _, rfl, fun k' hk' => ?_⟩
    · rcases h.inv.slotBlock_fill inum k with ⟨heq', _⟩ | ⟨b, s', heq', _, hfill⟩
      · rw [heq] at heq'
        exact absurd (Prod.mk.inj heq').1 hx
      · rw [heq] at heq'
        obtain ⟨_, rfl⟩ := Prod.mk.inj heq'
        have hless := holes_fill hfill hQ (haddr.trans h0)
        dsimp only
        omega
    · have hk := k.isLt
      exact Function.update_of_ne (by omega) ..
  · rw [if_neg h0] at hsl
    obtain ⟨rfl, rfl, rfl⟩ : d.blkAddrs k = x ∧ im = im' ∧ d = d' := by simpa using hsl
    exact ⟨by omega, Nat.le_refl _, .refl im d⟩

/-- **A step of the loop finds its block**, below the limit of a file and with room for the block. -/
theorem Loop.fileBlock_need (h : Loop im inum d) (hl : fbn < NDIRECT + NINDIRECT) (hQ : touched fbn ⊆ Q)
    (hneed : need (during im inum d) im.freeblock inum Q ≤ FSSIZE) :
    ∃ x im' d', fileBlock im d fbn = some (x, im', d') ∧ im'.freeblock ≤ FSSIZE ∧
      need (during im' inum d') im'.freeblock inum Q ≤ need (during im inum d) im.freeblock inum Q ∧
      Keeps im im' d d' := by
  unfold fileBlock
  have hmem := hQ (dataPlace_mem_touched fbn)
  by_cases hdir : fbn < NDIRECT
  · rw [if_pos hdir]
    rw [dataPlace_of_lt hdir] at hmem
    cases hslot : slot im d fbn with
    | mk x r => exact ⟨x, r.1, r.2, rfl, h.slot_need ⟨fbn, Nat.lt_add_right 2 hdir⟩ hmem hneed hslot⟩
  · have hind : fbn - NDIRECT < NINDIRECT := by omega
    have htab := hQ (indirect_mem_touched hdir)
    rw [if_neg hdir, if_pos hind]
    rw [dataPlace_of_ge hdir hl] at hmem
    cases hslot : slot im d NDIRECT with
    | mk t r =>
      obtain ⟨im₁, d₁⟩ := r
      obtain ⟨hfits, hneed₁, hkeep⟩ := h.slot_need ⟨NDIRECT, by decide⟩ htab hneed hslot
      obtain ⟨_, ht0, h₁⟩ := h.slot_slotBlock ⟨NDIRECT, by decide⟩ hslot hfits
      have ht : d₁.blkAddrs NDIRECT = t := by
        have hself := slot_blkAddrs im d NDIRECT
        rwa [hslot] at hself
      have haddr : ((during im₁ inum d₁).body inum).blkAddrs NDIRECT = t := by
        simp [during, setBody, DInode.body, ht]
      have hslot' : stored (during im₁ inum d₁) inum (.slot ⟨NDIRECT, by decide⟩) = t := haddr
      have hrange := h₁.stored_lt (by rw [hslot']; exact ht0)
      rw [hslot'] at hrange
      have hent : stored (during im₁ inum d₁) inum (.ind ⟨fbn - NDIRECT, hind⟩) =
          word (im₁.disk t) (fbn - NDIRECT) := by
        have hne : t ≠ 126 := by
          simp only [nmeta] at hrange
          omega
        have hdisk : (during im₁ inum d₁).disk t = im₁.disk t := if_neg hne
        simp only [stored, haddr, entry_of_ne ht0, hdisk]
      dsimp only
      by_cases h0 : word (im₁.disk t) (fbn - NDIRECT) = 0
      · rw [if_pos h0]
        have hpos := holes_pos hmem (hent.trans h0)
        have hneed' := hneed₁.trans hneed
        unfold need at hneed₁ hneed'
        have hfits' : im₁.freeblock + 1 ≤ FSSIZE := by omega
        refine ⟨_, _, _, rfl, hfits', ?_, hkeep.trans ⟨rfl, fun b hb => ?_, _, rfl, fun _ _ => rfl⟩⟩
        · obtain ⟨heq, hx, _⟩ := h₁.entry_entryBlock ht ht0 hind h0 hfits'
          rcases h₁.inv.entryBlock_fill haddr ht0 ⟨fbn - NDIRECT, hind⟩ with ⟨heq', _⟩ | ⟨b, s', heq', _, hfill⟩
          · rw [heq] at heq'
            exact absurd (Prod.mk.inj heq').1 hx
          · rw [heq] at heq'
            obtain ⟨_, rfl⟩ := Prod.mk.inj heq'
            have hless := holes_fill hfill hmem (hent.trans h0)
            unfold need
            simp only [wsect] at hless ⊢
            omega
        · exact Function.update_of_ne (by omega) ..
      · rw [if_neg h0]
        exact ⟨_, _, _, rfl, hfits, hneed₁, hkeep⟩

/-- **The loop of `iappend`**, by induction on the rounds that are left: it writes the rest of the bytes. -/
theorem Loop.appendLoop_overwrites (p : Nat → BitVec 8) {off n : Nat} (hmax : off + n ≤ MAXFILESIZ)
    (hQ : ∀ l, l * BLKSIZE < off + n → touched l ⊆ Q) (fuel total : Nat) (hfuel : n - total ≤ fuel)
    (h : Loop im inum d) (hneed : need (during im inum d) im.freeblock inum Q ≤ FSSIZE) :
    ∃ im' d', appendLoop p off n fuel total im d = some (im', d') ∧ Loop im' inum d' ∧
      need (during im' inum d') im'.freeblock inum Q ≤ need (during im inum d) im.freeblock inum Q ∧
      Keeps im im' d d' ∧
      Overwrites (during im inum d) inum off p (fun k => off + total ≤ k ∧ k < off + n)
        (during im' inum d') := by
  induction fuel generalizing total im d with
  | zero =>
    refine ⟨im, d, rfl, h, Nat.le_refl _, .refl im d, (Grows.refl _ inum).overwrites p fun k => ?_⟩
    omega
  | succ fuel ih =>
    unfold appendLoop
    by_cases hlt : total < n
    · rw [if_pos hlt]
      dsimp only
      have hblk := MAXFILESIZ_div (show off + total < MAXFILESIZ by omega)
      have hdm := Nat.div_add_mod (off + total) BLKSIZE
      rw [Nat.mul_comm] at hdm
      have hmod : (off + total) % BLKSIZE < BLKSIZE := Nat.mod_lt _ (by decide)
      generalize (off + total) / BLKSIZE = l at hblk hdm
      generalize (off + total) % BLKSIZE = o at hdm hmod
      -- the block of `mkfs` is the one of the kernel's `bmap`
      obtain ⟨x, im₁, d₁, hblock, hfits, hneed₁, hkeep₁⟩ := h.fileBlock_need hblk (hQ l (by omega)) hneed
      obtain ⟨_, hmap, hx0, h₁⟩ := h.fileBlock_bmap hblock hfits
      obtain ⟨b, s₁, hmap', _, hgrows, hb, _⟩ := h.inv.bmap_grows inum hblk
      rw [hmap] at hmap'
      obtain ⟨rfl, rfl⟩ := Prod.mk.inj (Except.ok.inj hmap')
      have hrange := h₁.stored_lt (π := dataPlace l) (by rw [← blockAt, hb]; exact hx0)
      rw [← blockAt, hb] at hrange
      have hdata : x ≠ 1 ∧ x ≠ 126 := by
        simp only [nmeta] at hrange
        omega
      have hdisk : (during im₁ inum d₁).disk x = im₁.disk x := if_neg hdata.2
      rw [hblock]
      dsimp only
      have hoff : off + total - l * BLKSIZE = o := by omega
      have hw : min (n - total) ((l + 1) * BLKSIZE - (off + total)) = min (n - total) (BLKSIZE - o) := by
        rw [Nat.succ_mul]
        congr 1
        omega
      rw [hoff, hw]
      generalize hw' : min (n - total) (BLKSIZE - o) = w
      obtain ⟨hinv₂, _, hover⟩ := h₁.inv.writeBlock_overwrites hblk hb hx0
        (show o + w ≤ BLKSIZE by omega) p (show off ≤ l * BLKSIZE + o by omega)
      have htotal : l * BLKSIZE + o - off = total := by omega
      have hstored : ∀ dat π, stored (Inode.setBlock (during im₁ inum d₁) x dat) inum π =
          stored (during im₁ inum d₁) inum π := fun dat => (h₁.inv.setBlock dat
        (fun i' => h₁.inv.not_isTable (isData_dataPlace l) hb i') hdata.1 hdata.2).2.1 inum
      rw [htotal, hdisk] at hinv₂ hover
      specialize hstored (memmove (im₁.disk x) o (fun k => p (total + k)) w)
      rw [setBlock_during (.inr hrange.1)] at hinv₂ hover hstored
      generalize hdat : memmove (im₁.disk x) o (fun k => p (total + k)) w = dat at hinv₂ hover hstored
      have h₂ : Loop (wsect im₁ x dat) inum d₁ := by
        refine ⟨hinv₂, h₁.ge, fun c hc => ?_⟩
        have hc' : im₁.freeblock ≤ c := hc
        have hne : c ≠ x := by omega
        exact (Function.update_of_ne hne ..).trans (h₁.blank c hc)
      have hneed₂ : need (during (wsect im₁ x dat) inum d₁) (wsect im₁ x dat).freeblock inum Q =
          need (during im₁ inum d₁) im₁.freeblock inum Q := by
        unfold need holes
        simp only [hstored]
        rfl
      have hkeep₂ : Keeps im₁ (wsect im₁ x dat) d₁ d₁ := by
        refine ⟨rfl, fun c hc => ?_, _, rfl, fun _ _ => rfl⟩
        have hne : c ≠ x := by omega
        exact Function.update_of_ne hne ..
      obtain ⟨im', d', hloop, h', hneed', hkeep', hrest⟩ :=
        ih (total + w) (by omega) h₂ (by rw [hneed₂]; exact hneed₁.trans hneed)
      rw [hneed₂] at hneed'
      refine ⟨im', d', hloop, h', hneed'.trans hneed₁, (hkeep₁.trans hkeep₂).trans hkeep', ?_⟩
      have hnothing : Overwrites (during im inum d) inum off p (fun _ => False) (during im₁ inum d₁) :=
        hgrows.overwrites p fun _ => id
      apply (hnothing.trans hover fun k => Iff.rfl).trans hrest
      intro k
      simp only [false_or]
      omega
    · rw [if_neg hlt]
      refine ⟨im, d, rfl, h, Nat.le_refl _, .refl im d, (Grows.refl _ inum).overwrites p fun k => ?_⟩
      omega

end Need

/-! ## §2 Inodes on the image -/

section Inodes

variable {im : Image} {inum i : Nat} {d : DInode}

theorem word_lt (b : Block) (j : Nat) : word b j < 2 ^ 32 := by
  have h0 := (b (4 * j)).isLt
  have h1 := (b (4 * j + 1)).isLt
  have h2 := (b (4 * j + 2)).isLt
  have h3 := (b (4 * j + 3)).isLt
  unfold word
  omega

/-- Numbers that are written next to each other. -/
theorem word_foldl_setWord (buf : Block) (base n : Nat) {ws : Nat → Nat} (hws : ∀ k < n, ws k < 2 ^ 32) (j : Nat) :
    word ((List.range n).foldl (fun b k => setWord b (base + k) (ws k)) buf) j =
      if base ≤ j ∧ j < base + n then ws (j - base) else word buf j := by
  induction n with
  | zero => rw [if_neg (by omega)]; rfl
  | succ n ih =>
    rw [List.range_succ, List.foldl_append]
    show word (setWord _ (base + n) (ws n)) j = _
    by_cases hj : j = base + n
    · subst hj
      rw [word_setWord (hws n (Nat.lt_succ_self n)), if_pos (by omega), Nat.add_sub_cancel_left]
    · rw [word_setWord_of_ne hj, ih fun k hk => hws k (Nat.lt_succ_of_lt hk)]
      by_cases hin : base ≤ j ∧ j < base + n
      · rw [if_pos hin, if_pos (by omega)]
      · rw [if_neg hin, if_neg (by omega)]

/-- The fields fit the structure. -/
structure DInode.Fits (d : DInode) : Prop where
  type : d.type < 2 ^ 16
  major : d.major < 2 ^ 16
  minor : d.minor < 2 ^ 16
  nlink : d.nlink < 2 ^ 16
  size : d.fileSiz < 2 ^ 32
  addrs : ∀ k < NDIRECT + 2, d.blkAddrs k < 2 ^ 32
  rest : ∀ k, NDIRECT + 2 ≤ k → d.blkAddrs k = 0

theorem rinode_fits (im : Image) (inum : Nat) : (rinode im inum).Fits := by
  have hw := word_lt (im.disk (IBLOCK inum sb))
  refine ⟨Nat.mod_lt _ (by decide), ?_, Nat.mod_lt _ (by decide), ?_, hw _, fun k hk => ?_, fun k hk => ?_⟩
  · exact (Nat.div_lt_iff_lt_mul (by decide)).2 (hw _)
  · exact (Nat.div_lt_iff_lt_mul (by decide)).2 (hw _)
  · show (if k < NDIRECT + 2 then _ else 0) < _
    rw [if_pos hk]
    exact hw _
  · show (if k < NDIRECT + 2 then _ else 0) = _
    rw [if_neg (Nat.not_lt.2 hk)]

theorem DInode.Fits.word_lt (h : d.Fits) : ∀ k < 16, d.word k < 2 ^ 32 := by
  have ht := h.type
  have hma := h.major
  have hmi := h.minor
  have hl := h.nlink
  intro k hk
  match k with
  | 0 =>
    show d.type + 2 ^ 16 * d.major < 2 ^ 32
    omega
  | 1 =>
    show d.minor + 2 ^ 16 * d.nlink < 2 ^ 32
    omega
  | 2 => exact h.size
  | k + 3 =>
    apply h.addrs k
    have hN : NDIRECT = 11 := rfl
    omega

/-- The buffer of `winode`. -/
def inodeBlock (im : Image) (inum : Nat) (d : DInode) : Block :=
  (List.range 16).foldl (fun buf k => setWord buf (16 * (inum % IPB) + k) (d.word k)) (im.disk (IBLOCK inum sb))

theorem winode_eq (im : Image) (inum : Nat) (d : DInode) :
    winode im inum d = wsect im (IBLOCK inum sb) (inodeBlock im inum d) := rfl

/-- **An inode is read as it was written.** -/
theorem rinode_winode (h : d.Fits) : rinode (winode im inum d) inum = d := by
  have hword : ∀ k < 16, word ((winode im inum d).disk (IBLOCK inum sb)) (16 * (inum % IPB) + k) = d.word k := by
    intro k hk
    rw [winode_eq]
    show word (Function.update im.disk _ _ _) _ = _
    rw [Function.update_self, inodeBlock, word_foldl_setWord _ _ _ h.word_lt, if_pos (by omega),
      Nat.add_sub_cancel_left]
  have h0 := hword 0 (by decide)
  have h1 := hword 1 (by decide)
  have h2 := hword 2 (by decide)
  have ht := h.type
  have hma := h.major
  have hmi := h.minor
  have hl := h.nlink
  have haddrs : (fun k => if k < NDIRECT + 2 then
      word ((winode im inum d).disk (IBLOCK inum sb)) (16 * (inum % IPB) + (3 + k)) else 0) = d.blkAddrs := by
    funext k
    by_cases hk : k < NDIRECT + 2
    · have hN : NDIRECT = 11 := rfl
      rw [if_pos hk, Nat.add_comm 3 k, hword (k + 3) (by omega)]
      rfl
    · rw [if_neg hk, h.rest k (Nat.not_lt.1 hk)]
  unfold rinode
  dsimp only
  rw [haddrs, h0, h1, h2]
  cases d
  simp only [DInode.word] at ht hma hmi hl ⊢
  congr 1
  · omega
  · omega
  · omega
  · omega

theorem rinode_winode_of_ne (h : d.Fits) (hi : i ≠ inum) : rinode (winode im inum d) i = rinode im i := by
  by_cases hb : IBLOCK i sb = IBLOCK inum sb
  · have hslot : i % IPB ≠ inum % IPB := by
      intro hmod
      unfold IBLOCK at hb
      have hdi := Nat.div_add_mod i IPB
      have hdn := Nat.div_add_mod inum IPB
      rw [Nat.add_right_cancel hb, hmod] at hdi
      exact hi (hdi.symm.trans hdn)
    have hword : ∀ k < 16, word ((winode im inum d).disk (IBLOCK i sb)) (16 * (i % IPB) + k) =
        word (im.disk (IBLOCK i sb)) (16 * (i % IPB) + k) := by
      intro k hk
      rw [winode_eq, hb]
      show word (Function.update im.disk _ _ _) _ = _
      rw [Function.update_self, inodeBlock, word_foldl_setWord _ _ _ h.word_lt, if_neg (by omega)]
    have haddrs : (fun k => if k < NDIRECT + 2 then
        word ((winode im inum d).disk (IBLOCK i sb)) (16 * (i % IPB) + (3 + k)) else 0) =
        (rinode im i).blkAddrs := by
      funext k
      show _ = if k < NDIRECT + 2 then _ else 0
      by_cases hk : k < NDIRECT + 2
      · have hN : NDIRECT = 11 := rfl
        rw [if_pos hk, if_pos hk, hword (3 + k) (by omega)]
      · rw [if_neg hk, if_neg hk]
    unfold rinode at haddrs ⊢
    dsimp only at haddrs ⊢
    rw [haddrs, hword 0 (by decide), hword 1 (by decide), hword 2 (by decide)]
  · rw [winode_eq]
    exact rinode_wsect hb

/-- `winode` in the file system of the image. -/
theorem view_winode (im : Image) (hi : inum < NINODES) (h : d.Fits) :
    view (winode im inum d) = setBlock (during im inum d) (IBLOCK inum sb) (inodeBlock im inum d) := by
  have hrange := IBLOCK_range hi
  have hdisk : (view (winode im inum d)).disk =
      Function.update (during im inum d).disk (IBLOCK inum sb) (inodeBlock im inum d) := by
    funext c
    show (if c = 126 then _ else Function.update im.disk _ _ c) =
      Function.update (fun c => if c = 126 then _ else im.disk c) _ _ c
    by_cases hc : c = IBLOCK inum sb
    · rw [hc, Function.update_self, Function.update_self, if_neg (by omega)]
      rfl
    · rw [Function.update_of_ne hc, Function.update_of_ne hc]
      rfl
  have hbody : (view (winode im inum d)).body = (during im inum d).body := by
    funext i
    show (if i < NINODES then (rinode (winode im inum d) i).body else ⟨0, 0, 0, fun _ => 0⟩) =
      Function.update (view im).body inum d.body i
    by_cases hin : i = inum
    · rw [hin, Function.update_self, if_pos hi, rinode_winode h]
    · rw [Function.update_of_ne hin, rinode_winode_of_ne h hin]
      rfl
  unfold setBlock
  rw [← hdisk]
  show view (winode im inum d) = { during im inum d with disk := (view (winode im inum d)).disk }
  unfold during setBody at hbody ⊢
  dsimp only at hbody ⊢
  rw [← hbody]
  rfl

end Inodes

/-! ## §3 Files -/

/-- An image between two calls. -/
structure Built (im : Image) : Prop where
  inv : FsInv (view im)
  ge : nmeta ≤ im.freeblock
  blank : ∀ b, im.freeblock ≤ b → im.disk b = fun _ => 0

/-- The file `i` has the bytes `bs`. -/
def Holds (s : FileSys) (i : Nat) (bs : List (BitVec 8)) : Prop :=
  (s.body i).fileSiz = bs.length ∧ ∀ k < bs.length, Mapped s i k ∧ byteAt s i k = bs.getD k 0

/-- What a call for the inode `inum` leaves alone. -/
structure Others (im : Image) (inum : Nat) (im' : Image) : Prop where
  freeinode : im'.freeinode = im.freeinode
  type : (rinode im' inum).type = (rinode im inum).type
  inodes : ∀ i < NINODES, i ≠ inum → rinode im' i = rinode im i
  files : ∀ i, i ≠ inum → ∀ bs, Holds (view im) i bs → Holds (view im') i bs

theorem Others.refl (im : Image) (inum : Nat) : Others im inum im :=
  ⟨rfl, rfl, fun _ _ _ => rfl, fun _ _ _ hbs => hbs⟩

theorem Others.trans {im im₁ im' : Image} {inum : Nat} (h₁ : Others im inum im₁) (h₂ : Others im₁ inum im') :
    Others im inum im' where
  freeinode := h₂.freeinode.trans h₁.freeinode
  type := h₂.type.trans h₁.type
  inodes i hi hne := (h₂.inodes i hi hne).trans (h₁.inodes i hi hne)
  files i hne bs hbs := h₂.files i hne bs (h₁.files i hne bs hbs)

section Files

variable {im im' : Image} {inum : Nat} {d : DInode} {Q : Finset Place} {bs : List (BitVec 8)}

theorem view_body {i : Nat} (hi : i < NINODES) : (view im).body i = (rinode im i).body := if_pos hi

theorem Built.loop (h : Built im) (hi : inum < NINODES) : Loop im inum (rinode im inum) :=
  ⟨by rw [during_rinode hi]; exact h.inv, h.ge, h.blank⟩

/-- `winode` at the end of `iappend` moves no block. -/
theorem Loop.winode (h : Loop im inum d) (hi : inum < NINODES) (hd : d.Fits) :
    Built (Mkfs.winode im inum d) ∧ Grows (during im inum d) inum (view (Mkfs.winode im inum d)) ∧
      ∀ i π, stored (view (Mkfs.winode im inum d)) i π = stored (during im inum d) i π := by
  have hrange := IBLOCK_range hi
  have hview := view_winode im hi hd
  obtain ⟨hinv, hstored, _⟩ := h.inv.setBlock (b := IBLOCK inum sb) (inodeBlock im inum d) (fun i ht => by
    have hge := h.inv.table_ge ht
    simp only [nmeta] at hge
    omega) (by omega) (by omega)
  rw [← hview] at hinv hstored
  refine ⟨⟨hinv, h.ge, fun b hb => ?_⟩, ⟨?_, ?_, fun i => ?_, fun i π _ => hstored i π, fun i π _ h0 => ?_, fun i _ => ?_⟩, hstored⟩
  · have hge := h.ge
    have hb' : im.freeblock ≤ b := hb
    simp only [nmeta] at hge
    exact (Function.update_of_ne (by omega) ..).trans (h.blank b hb')
  · rw [hview]; rfl
  · rw [hview]; rfl
  · rw [hview]; rfl
  · have hge := (h.inv.owned i π h0).1.1
    simp only [nmeta] at hge
    rw [hview]
    exact Function.update_of_ne (by omega) ..
  · refine ⟨?_, hstored i⟩
    rw [hview]; rfl

theorem during_setFileSiz (im : Image) (inum : Nat) (d : DInode) (m : Nat) :
    during im inum { d with fileSiz := m } =
      setBody (during im inum d) inum { (during im inum d).body inum with fileSiz := m } := by
  simp [during, setBody, DInode.body]

/-- **`iappend`** puts its bytes behind the file. -/
theorem Built.iappend (h : Built im) (hi : inum < NINODES) (hbs : Holds (view im) inum bs) (p : Nat → BitVec 8)
    {n : Nat} (hmax : bs.length + n ≤ MAXFILESIZ) (hQ : ∀ l, l * BLKSIZE < bs.length + n → touched l ⊆ Q)
    (hneed : need (view im) im.freeblock inum Q ≤ FSSIZE) :
    ∃ im', Mkfs.iappend im inum p n = some im' ∧ Built im' ∧
      Holds (view im') inum (bs ++ (List.range n).map p) ∧
      need (view im') im'.freeblock inum Q ≤ need (view im) im.freeblock inum Q ∧ Others im inum im' := by
  have hM : MAXFILESIZ = 4239360 := by decide
  have hsize : (rinode im inum).fileSiz = bs.length := by
    have hbody : (view im).body inum = (rinode im inum).body := view_body hi
    rw [← hbs.1, hbody]
    rfl
  have hview : during im inum (rinode im inum) = view im := during_rinode hi
  obtain ⟨im₁, d₁, hloop, h₁, hneed₁, hkeep, hover⟩ := (h.loop hi).appendLoop_overwrites p hmax hQ n 0 (by omega)
    (by rw [hview]; exact hneed)
  rw [hview] at hneed₁ hover
  -- the inode with its new size fits
  obtain ⟨a, rfl, ha⟩ := hkeep.inode
  have hfit := rinode_fits im inum
  generalize hd : ({ rinode im inum with blkAddrs := a, fileSiz := bs.length + n } : DInode) = d₂
  have hd₂ : d₂.Fits := by
    subst hd
    refine ⟨hfit.type, hfit.major, hfit.minor, hfit.nlink, ?_, fun k hk => ?_, fun k hk => ?_⟩
    · show bs.length + n < 2 ^ 32
      omega
    · show a k < 2 ^ 32
      have hst : stored (during im₁ inum { rinode im inum with blkAddrs := a }) inum (.slot ⟨k, hk⟩) = a k := by
        simp [stored, during, setBody, DInode.body]
      by_cases h0 : a k = 0
      · rw [h0]
        decide
      · have hlt := (h₁.inv.owned inum (.slot ⟨k, hk⟩) (by rw [hst]; exact h0)).1.2
        rw [hst] at hlt
        exact hlt.trans (by decide)
    · exact (ha k hk).trans (hfit.rest k hk)
  have hsized : during im₁ inum d₂ = setBody (during im₁ inum { rinode im inum with blkAddrs := a }) inum
      { (during im₁ inum { rinode im inum with blkAddrs := a }).body inum with fileSiz := bs.length + n } := by
    subst hd
    exact during_setFileSiz im₁ inum { rinode im inum with blkAddrs := a } (bs.length + n)
  have hover₂ : Overwrites _ inum bs.length p (fun _ => False) (during im₁ inum d₂) :=
    hsized ▸ setFileSiz_overwrites _ inum bs.length p (bs.length + n)
  have hstored₂ : ∀ π, stored (during im₁ inum d₂) inum π =
      stored (during im₁ inum { rinode im inum with blkAddrs := a }) inum π := by
    intro π
    rw [hsized]
    exact stored_setFileSiz ..
  have h₂ : Loop im₁ inum d₂ := ⟨hsized ▸ h₁.inv.setFileSiz inum hmax, h₁.ge, h₁.blank⟩
  obtain ⟨hbuilt, hgrows, hstored₃⟩ := h₂.winode hi hd₂
  refine ⟨Mkfs.winode im₁ inum d₂, ?_, hbuilt, ⟨?_, fun k hk => ?_⟩, ?_, ?_⟩
  · unfold Mkfs.iappend
    dsimp only
    rw [hsize, hloop, ← hd]
  all_goals
    have hsizes : ((view (Mkfs.winode im₁ inum d₂)).body inum).fileSiz = bs.length + n := by
      rw [hgrows.size, ← hd]
      simp [during, setBody, DInode.body]
    have hall := (hover.trans hover₂ fun k => Iff.rfl).trans (hgrows.overwrites p fun _ => id) fun k => Iff.rfl
    simp only [or_false, Nat.add_zero] at hall
  · rw [hsizes, List.length_append, List.length_map, List.length_range]
  · rw [List.length_append, List.length_map, List.length_range] at hk
    by_cases hold : k < bs.length
    · obtain ⟨hm, hb⟩ := hall.kept inum k (by omega) (fun hc => by omega) (hbs.2 k hold).1
      refine ⟨hm, ?_⟩
      rw [hb, (hbs.2 k hold).2, List.getD_append _ _ _ _ hold]
    · obtain ⟨hm, hb⟩ := hall.written k (by omega) ⟨by omega, by omega⟩
      refine ⟨hm, ?_⟩
      rw [hb, List.getD_append_right _ _ _ _ (by omega), List.getD_eq_getElem?_getD, List.getElem?_map,
        List.getElem?_range (by omega)]
      rfl
  · refine le_trans (le_of_eq ?_) hneed₁
    unfold need holes
    simp only [hstored₃, hstored₂]
    rfl
  · refine ⟨hkeep.freeinode, ?_, fun i hin hne => ?_, fun i hne bs' hbs' => ?_⟩
    · rw [rinode_winode hd₂, ← hd]
    · rw [rinode_winode_of_ne hd₂ hne]
      have hrange := IBLOCK_range hin
      unfold rinode
      rw [hkeep.metadata _ (by simp only [nmeta]; omega)]
    · obtain ⟨hbody, hblocks⟩ := hall.others i hne
      refine ⟨by rw [hbody]; exact hbs'.1, fun k hk => ?_⟩
      have hmaxi := h.inv.sizes i
      rw [hbs'.1] at hmaxi
      obtain ⟨hm, hb⟩ := hall.kept i k (by omega) (fun hc => hne hc.1) (hbs'.2 k hk).1
      exact ⟨hm, hb.trans (hbs'.2 k hk).2⟩

/-- **The loop that copies a file**, by induction on the rounds that are left. -/
theorem Built.copyLoop (hi : inum < NINODES) (fuel : Nat) (bytes : List (BitVec 8)) (hfuel : bytes.length < fuel)
    (h : Built im) (hbs : Holds (view im) inum bs) (hmax : bs.length + bytes.length ≤ MAXFILESIZ)
    (hQ : ∀ l, l * BLKSIZE < bs.length + bytes.length → touched l ⊆ Q)
    (hneed : need (view im) im.freeblock inum Q ≤ FSSIZE) :
    ∃ im', Mkfs.copyLoop inum fuel bytes im = some im' ∧ Built im' ∧ Holds (view im') inum (bs ++ bytes) ∧
      need (view im') im'.freeblock inum Q ≤ need (view im) im.freeblock inum Q ∧ Others im inum im' := by
  induction fuel generalizing im bs bytes with
  | zero => omega
  | succ fuel ih =>
    unfold Mkfs.copyLoop
    dsimp only
    have hpos : 0 < BLKSIZE := by decide
    by_cases hcc : 0 < min bytes.length BLKSIZE
    · rw [if_pos hcc]
      generalize hc : min bytes.length BLKSIZE = cc at hcc
      have hle : cc ≤ bytes.length := by omega
      have htake : (List.range cc).map (fun k => bytes.getD k 0) = bytes.take cc := by
        apply List.ext_getElem?
        intro k
        rw [List.getElem?_map, List.getElem?_take]
        by_cases hk : k < cc
        · rw [List.getElem?_range hk, if_pos hk, List.getElem?_eq_getElem (by omega : k < bytes.length)]
          exact congrArg some (List.getD_eq_getElem _ _ (by omega))
        · rw [List.getElem?_eq_none (by rw [List.length_range]; omega), if_neg hk]
          rfl
      obtain ⟨im₁, happ, h₁, hbs₁, hneed₁, ho₁⟩ := h.iappend hi hbs (fun k => bytes.getD k 0)
        (show bs.length + cc ≤ MAXFILESIZ by omega) (fun l hl => hQ l (by omega)) hneed
      rw [htake] at hbs₁
      have hlen : (bytes.drop cc).length = bytes.length - cc := List.length_drop
      have hlen' : (bs ++ bytes.take cc).length = bs.length + cc := by
        rw [List.length_append, List.length_take]
        omega
      obtain ⟨im', hrun, h', hbs', hneed', ho'⟩ := ih (bytes.drop cc) (by omega) h₁ hbs₁ (by omega)
        (fun l hl => hQ l (by omega)) (hneed₁.trans hneed)
      rw [List.append_assoc, List.take_append_drop] at hbs'
      rw [happ]
      exact ⟨im', hrun, h', hbs', hneed'.trans hneed₁, ho₁.trans ho'⟩
    · have hnil : bytes = [] := List.eq_nil_of_length_eq_zero (by omega)
      rw [if_neg hcc]
      subst hnil
      rw [List.append_nil]
      exact ⟨im, rfl, h, hbs, Nat.le_refl _, .refl im inum⟩

/-- **`ialloc`** takes an inode that was never used. -/
theorem Built.ialloc (h : Built im) (hi : im.freeinode < NINODES) {type : Nat} (htype : type < 2 ^ 16)
    (hfresh : (rinode im im.freeinode).body = ⟨0, 0, 0, fun _ => 0⟩) :
    ∃ im', Mkfs.ialloc im type = (im.freeinode, im') ∧ Built im' ∧ im'.freeinode = im.freeinode + 1 ∧
      im'.freeblock = im.freeblock ∧ (rinode im' im.freeinode).type = type ∧ Holds (view im') im.freeinode [] ∧
      (∀ i, i ≠ im.freeinode → rinode im' i = rinode im i) ∧
      (∀ i bs, Holds (view im) i bs → Holds (view im') i bs) ∧
      ∀ i π, stored (view im') i π = stored (view im) i π := by
  generalize hd : (⟨type, 0, 0, 1, 0, fun _ => 0⟩ : DInode) = d
  have hfit : d.Fits := by
    subst hd
    have hpos : ∀ n, 0 < 2 ^ n := fun n => Nat.two_pow_pos n
    exact ⟨htype, hpos 16, hpos 16, Nat.one_lt_two_pow (by decide), hpos 32, fun _ _ => hpos 32, fun _ _ => rfl⟩
  generalize hnum : im.freeinode = inum at hi hfresh
  have hduring : during { im with freeinode := inum + 1 } inum d = view im := by
    have hbody : (view im).body inum = d.body := by
      rw [← hd]
      exact (view_body hi).trans hfresh
    unfold during setBody
    rw [← hbody]
    show { view im with body := Function.update (view im).body inum ((view im).body inum) } = view im
    rw [Function.update_eq_self]
  have hloop : Loop { im with freeinode := inum + 1 } inum d := ⟨hduring ▸ h.inv, h.ge, h.blank⟩
  obtain ⟨hbuilt, hgrows, hstored⟩ := hloop.winode hi hfit
  rw [hduring] at hgrows hstored
  refine ⟨Mkfs.winode { im with freeinode := inum + 1 } inum d, ?_, hbuilt, rfl, rfl, ?_, ⟨?_, ?_⟩, fun i hne => ?_,
    fun i bs hbs => ⟨(hgrows.size i).trans hbs.1, fun k hk => ?_⟩, hstored⟩
  · unfold Mkfs.ialloc
    rw [hnum, hd]
  · rw [rinode_winode hfit, ← hd]
  · have hbody : (view im).body inum = d.body := by
      rw [← hd]
      exact (view_body hi).trans hfresh
    rw [hgrows.size, hbody, ← hd]
    rfl
  · exact fun k hk => absurd hk (Nat.not_lt_zero k)
  · exact rinode_winode_of_ne hfit hne
  · obtain ⟨hm, hb⟩ := hbs.2 k hk
    exact ⟨hgrows.mapped hm, (hgrows.byteAt hm).trans hb⟩

end Files

/-! ## §4 The root directory -/

/-- The bytes of an entry. -/
def entryBytes (ino : Nat) (name : Name) : List (BitVec 8) := (List.range Dir.DIRENT).map (dirent ino name)

/-- The entries of the root directory when the files `done` are copied: inode numbers and names. -/
def rootEntries (done : List InputFile) : List (Nat × Name) :=
  (ROOTINO, [46]) :: (ROOTINO, [46, 46]) :: (done.zipIdx 2).map fun e => (e.2, e.1.name)

/-- The root directory then. -/
def rootBytes (done : List InputFile) : List (BitVec 8) :=
  (rootEntries done).flatMap fun e => entryBytes e.1 e.2

theorem length_entryBytes (ino : Nat) (name : Name) : (entryBytes ino name).length = Dir.DIRENT := by
  simp [entryBytes]

theorem length_flatMap_entryBytes (es : List (Nat × Name)) :
    (es.flatMap fun e => entryBytes e.1 e.2).length = Dir.DIRENT * es.length := by
  induction es with
  | nil => rfl
  | cons e es ih =>
    rw [List.flatMap_cons, List.length_append, length_entryBytes, ih, List.length_cons, Nat.mul_succ, Nat.add_comm]

theorem length_rootBytes (done : List InputFile) :
    (rootBytes done).length = Dir.DIRENT * (done.length + 2) := by
  rw [rootBytes, length_flatMap_entryBytes]
  simp [rootEntries]

theorem rootBytes_append (done : List InputFile) (f : InputFile) :
    rootBytes (done ++ [f]) = rootBytes done ++ entryBytes (2 + done.length) f.name := by
  simp [rootBytes, rootEntries, List.zipIdx_append]

/-- The blocks of a file of `n` bytes, with its indirect block. -/
def blocksFor (n : Nat) : Nat :=
  (n + BLKSIZE - 1) / BLKSIZE + if NDIRECT * BLKSIZE < n then 1 else 0

theorem card_placesOf (n : Nat) : (placesOf n).card ≤ blocksFor n := by
  have hsub : placesOf n ⊆ (Finset.range ((n + BLKSIZE - 1) / BLKSIZE)).image dataPlace ∪
      if NDIRECT * BLKSIZE < n then {.slot ⟨NDIRECT, by decide⟩} else ∅ := by
    intro π hπ
    obtain ⟨l, hl, hmem⟩ := Finset.mem_biUnion.1 hπ
    have hdata : dataPlace l ∈ (Finset.range ((n + BLKSIZE - 1) / BLKSIZE)).image dataPlace :=
      Finset.mem_image_of_mem _ hl
    unfold touched at hmem
    split at hmem
    · rw [Finset.mem_singleton.1 hmem]
      exact Finset.mem_union_left _ hdata
    next hdir =>
      rcases Finset.mem_insert.1 hmem with rfl | hmem
      · have hlt := Finset.mem_range.1 hl
        rw [Nat.lt_div_iff_mul_lt (by decide)] at hlt
        have hpos : 0 < BLKSIZE := by decide
        have hge : NDIRECT * BLKSIZE ≤ l * BLKSIZE := Nat.mul_le_mul_right _ (Nat.not_lt.1 hdir)
        rw [if_pos (by omega)]
        exact Finset.mem_union_right _ (Finset.mem_singleton_self _)
      · rw [Finset.mem_singleton.1 hmem]
        exact Finset.mem_union_left _ hdata
  refine (Finset.card_le_card hsub).trans ((Finset.card_union_le _ _).trans (Nat.add_le_add ?_ ?_))
  · exact Finset.card_image_le.trans (le_of_eq (Finset.card_range _))
  · split
    · rfl
    · rfl

section Root

variable {im : Image} {bs : List (BitVec 8)}

theorem need_le (s : FileSys) (freeblock inum : Nat) (Q : Finset Place) :
    need s freeblock inum Q ≤ Q.card + freeblock :=
  Nat.add_le_add_right (Finset.card_filter_le _ _) _

/-- A directory that is not empty has its block. -/
theorem need_root (hbs : Holds (view im) ROOTINO bs) (hne : 0 < bs.length) :
    need (view im) im.freeblock ROOTINO (touched 0) = im.freeblock := by
  have hm := (hbs.2 0 hne).1
  have hnone : holes (view im) ROOTINO (touched 0) = ∅ := by
    rw [holes, Finset.filter_eq_empty_iff]
    intro π hπ
    obtain rfl : π = dataPlace 0 := Finset.mem_singleton.1 hπ
    exact hm
  unfold need
  rw [hnone, Finset.card_empty, Nat.zero_add]

/-- **An entry of the root directory**, which has one block. -/
theorem Built.enterRoot (h : Built im) (hbs : Holds (view im) ROOTINO bs) (hlen : bs.length + Dir.DIRENT ≤ BLKSIZE)
    (hneed : need (view im) im.freeblock ROOTINO (touched 0) ≤ FSSIZE) (ino : Nat) (name : Name) :
    ∃ im', Mkfs.enterRoot im ino name = some im' ∧ Built im' ∧
      Holds (view im') ROOTINO (bs ++ entryBytes ino name) ∧
      im'.freeblock ≤ need (view im) im.freeblock ROOTINO (touched 0) ∧ Others im ROOTINO im' := by
  have hM : MAXFILESIZ = 4239360 := by decide
  have hB : BLKSIZE = 4096 := rfl
  obtain ⟨im', hrun, h', hbs', hneed', ho⟩ := h.iappend (by decide : ROOTINO < NINODES) hbs (dirent ino name)
    (show bs.length + Dir.DIRENT ≤ MAXFILESIZ by omega) (Q := touched 0) (fun l hl => by
      obtain rfl : l = 0 := by
        rw [hB] at hl hlen
        omega
      rfl) hneed
  have hpos : 0 < (bs ++ entryBytes ino name).length := by
    rw [List.length_append, length_entryBytes]
    exact Nat.lt_add_left _ (by decide)
  have hroot := need_root hbs' hpos
  exact ⟨im', hrun, h', hbs', by omega, ho⟩

end Root

end WeiOS.Mkfs
