import Mathlib
import WeiOS.Fs.FileData

/-!
# mkfs

`lib/mkfs.c`, the program that writes the image of the file system. It has its own code for inodes, indirect
blocks and the bitmap, and takes blocks one after the other.

A step of its loop over the blocks of a file is a step of the kernel's `writei`, on a file system that has
the inodes of the image in memory and the bitmap that `mkfs` writes at its end.

## Main results
- `Loop.fileBlock_bmap`: the block that `mkfs` finds or takes is the one of the kernel's `bmap`.
-/

namespace WeiOS.Mkfs

open WeiOS.Inode
open WeiOS.InodeCache (Icache inodeInit)
open WeiOS.Dir (Name DIRSIZ ROOTINO slash)

/-! ## §1 The program -/

def nbitmap : Nat := FSSIZE / (BLKSIZE * 8) + 1
def ninodeblocks : Nat := NINODES / IPB + 1
def nlog : Nat := LOGSIZE

/-- `sb`. -/
def sb : Superblock :=
  let nmeta := 2 + nlog + ninodeblocks + nbitmap
  ⟨FSSIZE, FSSIZE - nmeta, NINODES, nlog, 2, 2 + nlog, 2 + nlog + ninodeblocks⟩

/-- `struct d_inode`. -/
structure DInode where
  type : Nat
  major : Nat
  minor : Nat
  nlink : Nat
  fileSiz : Nat
  blkAddrs : Nat → Nat

/-- The 32-bit numbers of the structure. -/
def DInode.word (d : DInode) : Nat → Nat
  | 0 => d.type + 2 ^ 16 * d.major
  | 1 => d.minor + 2 ^ 16 * d.nlink
  | 2 => d.fileSiz
  | k + 3 => d.blkAddrs k

/-- The image, and the counters of `mkfs`. -/
structure Image where
  disk : Nat → Block
  freeinode : Nat
  freeblock : Nat

/-- `wsect`. -/
def wsect (im : Image) (sec : Nat) (buf : Block) : Image :=
  { im with disk := Function.update im.disk sec buf }

/-- `winode`. -/
def winode (im : Image) (inum : Nat) (d : DInode) : Image :=
  let bn := IBLOCK inum sb
  wsect im bn
    ((List.range 16).foldl (fun buf k => setWord buf (16 * (inum % IPB) + k) (d.word k)) (im.disk bn))

/-- `rinode`. -/
def rinode (im : Image) (inum : Nat) : DInode :=
  let w := fun k => word (im.disk (IBLOCK inum sb)) (16 * (inum % IPB) + k)
  ⟨w 0 % 2 ^ 16, w 0 / 2 ^ 16, w 1 % 2 ^ 16, w 1 / 2 ^ 16, w 2,
    fun k => if k < NDIRECT + 2 then w (3 + k) else 0⟩

/-- `ialloc`. -/
def ialloc (im : Image) (type : Nat) : Nat × Image :=
  (im.freeinode, winode { im with freeinode := im.freeinode + 1 } im.freeinode ⟨type, 0, 0, 1, 0, fun _ => 0⟩)

/-- `blk_addrs[k]` of `din`, which gets the next free block if it is 0. -/
def slot (im : Image) (d : DInode) (k : Nat) : Nat × Image × DInode :=
  if d.blkAddrs k = 0 then
    (im.freeblock, { im with freeblock := im.freeblock + 1 },
      { d with blkAddrs := Function.update d.blkAddrs k im.freeblock })
  else (d.blkAddrs k, im, d)

/-- The block `x` of `iappend` for file block `fbn`. The index is out of `indirect` when there are more. -/
def fileBlock (im : Image) (d : DInode) (fbn : Nat) : Option (Nat × Image × DInode) :=
  if fbn < NDIRECT then some (slot im d fbn)
  else if fbn - NDIRECT < NINDIRECT then
    let (t, im, d) := slot im d NDIRECT
    let indirect := im.disk t
    if word indirect (fbn - NDIRECT) = 0 then
      some (im.freeblock, wsect { im with freeblock := im.freeblock + 1 } t
        (setWord indirect (fbn - NDIRECT) im.freeblock), d)
    else some (word indirect (fbn - NDIRECT), im, d)
  else none

/-- The loop of `iappend`, from `total` bytes on. -/
def appendLoop (p : Nat → BitVec 8) (off n : Nat) : Nat → Nat → Image → DInode → Option (Image × DInode)
  | 0, _, im, d => some (im, d)
  | fuel + 1, total, im, d =>
    if total < n then
      let fbn := (off + total) / BLKSIZE
      match fileBlock im d fbn with
      | none => none
      | some (x, im, d) =>
        let n1 := min (n - total) ((fbn + 1) * BLKSIZE - (off + total))
        appendLoop p off n fuel (total + n1)
          (wsect im x (memmove (im.disk x) (off + total - fbn * BLKSIZE) (fun k => p (total + k)) n1)) d
    else some (im, d)

/-- `iappend`. -/
def iappend (im : Image) (inum : Nat) (p : Nat → BitVec 8) (n : Nat) : Option Image :=
  let d := rinode im inum
  match appendLoop p d.fileSiz n n 0 im d with
  | none => none
  | some (im, d') => some (winode im inum { d' with fileSiz := d.fileSiz + n })

/-- The bitmap that `balloc` writes. -/
def bitmapOf (used : Nat) : Block :=
  (List.range used).foldl (fun buf i => Function.update buf (i / 8) (buf (i / 8) ||| byter i)) fun _ => 0

/-- `balloc`. -/
def balloc (im : Image) (used : Nat) : Image := wsect im sb.bitmapStart (bitmapOf used)

/-- `struct dirent` with the name as `strncpy` leaves it in a cleared structure. -/
def dirent (ino : Nat) (name : Name) : Block := fun k =>
  if k = 0 then BitVec.ofNat 8 ino
  else if k = 1 then BitVec.ofNat 8 (ino / 2 ^ 8)
  else (name.take DIRSIZ).getD (k - 2) 0

/-- A file on the command line: its name there, and its bytes. -/
structure InputFile where
  arg : Name
  bytes : List (BitVec 8)

/-- The name without a leading underscore. -/
def InputFile.name (f : InputFile) : Name :=
  if f.arg.head? = some 95 then f.arg.tail else f.arg

/-- The loop that copies a file; a `read` returns a whole buffer, or what is left. -/
def copyLoop (inum : Nat) : Nat → List (BitVec 8) → Image → Option Image
  | 0, _, im => some im
  | fuel + 1, bytes, im =>
    let cc := min bytes.length BLKSIZE
    if 0 < cc then
      match iappend im inum (fun k => bytes.getD k 0) cc with
      | none => none
      | some im => copyLoop inum fuel (bytes.drop cc) im
    else some im

/-- The entry `name` of the root directory. -/
def enterRoot (im : Image) (inum : Nat) (name : Name) : Option Image :=
  iappend im ROOTINO (dirent inum name) Dir.DIRENT

/-- One file of the loop of `main`. -/
def addFile (im : Image) (f : InputFile) : Option Image := do
  if slash ∈ f.arg then none
  else
    let (inum, im) := ialloc im T_FILE
    let im ← enterRoot im inum f.name
    copyLoop inum (f.bytes.length + 1) f.bytes im

/-- The root directory gets the size of its blocks. -/
def fixRoot (im : Image) : Image :=
  let d := rinode im ROOTINO
  winode im ROOTINO { d with fileSiz := (d.fileSiz / BLKSIZE + 1) * BLKSIZE }

/-- The image before the first inode: the superblock is in block 1. -/
def blankImage : Image where
  disk b := if b = 1 then
      blockOf [sb.size, sb.dataBlks, sb.inodeBlks, sb.logBlks, sb.logStart, sb.inodeStart, sb.bitmapStart]
    else fun _ => 0
  freeinode := 1
  freeblock := 2 + nlog + ninodeblocks + nbitmap

/-- The root directory with its two entries. -/
def makeRoot (im : Image) : Option Image := do
  let (rootino, im) := ialloc im T_DIR
  let im ← enterRoot im rootino [46]
  enterRoot im rootino [46, 46]

/-- `main`: the image that it writes, and `none` if an assertion fails. -/
def main (files : List InputFile) : Option Image := do
  let im ← makeRoot blankImage
  let im ← files.foldlM addFile im
  let im := fixRoot im
  some (balloc im im.freeblock)

/-! ## §2 The image as a file system -/

theorem sb_eq : sb = mkfsSb := by decide

theorem bitmapOf_succ (n : Nat) :
    bitmapOf (n + 1) = Function.update (bitmapOf n) (n / 8) (bitmapOf n (n / 8) ||| byter n) := by
  unfold bitmapOf
  rw [List.range_succ, List.foldl_append]
  rfl

theorem bitSet_bitmapOf (n j : Nat) : bitSet (bitmapOf n) j = decide (j < n) := by
  induction n with
  | zero => simp [bitmapOf, bitSet]
  | succ n ih =>
    rw [bitmapOf_succ, bitSet_or, ih, Bool.eq_iff_iff]
    simp only [Bool.or_eq_true, decide_eq_true_eq, beq_iff_eq]
    omega

/-- What `mkfs` keeps of an inode besides its type and links. -/
def DInode.body (d : DInode) : Body := ⟨d.major, d.minor, d.fileSiz, d.blkAddrs⟩

/-- The file system with all inodes of the image in memory, and the bitmap of the blocks that are taken. -/
def view (im : Image) : FileSys where
  sb := mkfsSb
  disk b := if b = 126 then bitmapOf im.freeblock else im.disk b
  icache := { inodeInit with inode := fun i => ⟨1, i % NINODES, 1, true, 0, 0⟩ }
  body i := if i < NINODES then (rinode im i).body else ⟨0, 0, 0, fun _ => 0⟩
  devStructs _ := ⟨none⟩

/-- The same inside `iappend`, which has the inode in `din`. -/
def during (im : Image) (inum : Nat) (d : DInode) : FileSys := setBody (view im) inum d.body

/-- The blocks of the inodes. -/
theorem IBLOCK_range {inum : Nat} (h : inum < NINODES) : 122 ≤ IBLOCK inum sb ∧ IBLOCK inum sb < 126 := by
  have hstart : sb.inodeStart = 122 := by decide
  have hdiv : inum / IPB < 4 := by
    rw [Nat.div_lt_iff_lt_mul (by decide)]
    exact h.trans (by decide)
  unfold IBLOCK
  rw [hstart]
  generalize inum / IPB = q at hdiv
  omega

section During

variable {im im' : Image} {inum b k : Nat} {d d' : DInode}

theorem rinode_wsect {i sec : Nat} {buf : Block} (h : IBLOCK i sb ≠ sec) :
    rinode (wsect im sec buf) i = rinode im i := by
  unfold rinode wsect
  simp only [Function.update_of_ne h]

theorem during_rinode (h : inum < NINODES) : during im inum (rinode im inum) = view im := by
  have hbody : (view im).body inum = (rinode im inum).body := if_pos h
  unfold during setBody
  rw [← hbody, Function.update_eq_self]

theorem used_during (im : Image) (inum : Nat) (d : DInode) (b : Nat) :
    used (during im inum d) b = decide (b < im.freeblock) := bitSet_bitmapOf im.freeblock b

/-- A block that holds no inodes and is not the bitmap. -/
theorem setBlock_during (hb : b < 122 ∨ nmeta ≤ b) (buf : Block) :
    setBlock (during im inum d) b buf = during (wsect im b buf) inum d := by
  have hne : b ≠ 126 := by
    simp only [nmeta] at hb
    omega
  have hdisk : Function.update (during im inum d).disk b buf = (view (wsect im b buf)).disk := by
    funext c
    show Function.update (fun c => if c = 126 then _ else im.disk c) b buf c =
      if c = 126 then _ else Function.update im.disk b buf c
    by_cases hc : c = b
    · subst hc
      rw [Function.update_self, Function.update_self, if_neg hne]
    · rw [Function.update_of_ne hc, Function.update_of_ne hc]
      rfl
  have hbody : (view im).body = (view (wsect im b buf)).body := by
    funext i
    show (if i < NINODES then _ else _) = if i < NINODES then _ else _
    by_cases hi : i < NINODES
    · have hrange := IBLOCK_range hi
      simp only [nmeta] at hb
      rw [if_pos hi, if_pos hi, rinode_wsect (by omega)]
    · rw [if_neg hi, if_neg hi]
  unfold setBlock
  rw [hdisk]
  unfold during setBody
  rw [hbody]
  rfl

theorem setAddr_during (a : Nat) : setAddr (during im inum d) inum k a =
    during im inum { d with blkAddrs := Function.update d.blkAddrs k a } := by
  unfold setAddr during setBody
  simp only [Function.update_self, Function.update_idem]
  rfl

/-- The kernel's `balloc` hands out the next block of `mkfs`. -/
theorem balloc_during (hlt : im.freeblock < FSSIZE) (hge : nmeta ≤ im.freeblock)
    (hblank : im.disk im.freeblock = fun _ => 0) :
    Inode.balloc (during im inum d) =
      (im.freeblock, during { im with freeblock := im.freeblock + 1 } inum d) := by
  have hfind : findFree (during im inum d) = some im.freeblock := by
    rw [findFree_eq rfl]
    rw [List.find?_range_eq_some]
    refine ⟨?_, List.mem_range.2 hlt, fun j hj => ?_⟩
    · simp [used_during]
    · simp [used_during, hj]
  unfold Inode.balloc
  rw [hfind]
  dsimp only
  rw [setBit_disk rfl hlt, (BITBLOCK_eq (s := during im inum d) rfl hlt).2]
  simp only [nmeta] at hge
  have hdisk : Function.update (Function.update (during im inum d).disk 126 (bitmapOf (im.freeblock + 1)))
      im.freeblock (fun _ => 0) = (view { im with freeblock := im.freeblock + 1 }).disk := by
    funext c
    show Function.update (Function.update (fun c => if c = 126 then _ else im.disk c) 126 _) _ _ c =
      if c = 126 then bitmapOf (im.freeblock + 1) else im.disk c
    by_cases hc : c = im.freeblock
    · rw [hc, Function.update_self, if_neg (by omega), hblank]
    · rw [Function.update_of_ne hc]
      by_cases hc' : c = 126
      · rw [hc', Function.update_self, if_pos rfl]
      · rw [Function.update_of_ne hc', if_neg hc', if_neg hc']
  have hbit : (during im inum d).disk 126 = bitmapOf im.freeblock := rfl
  congr 1
  unfold bzero setBlock
  rw [hbit, ← bitmapOf_succ]
  dsimp only
  rw [hdisk]
  rfl

/-- The loop of `iappend` is inside a file system that is as it should be, and blocks that are not taken
    are blank. -/
structure Loop (im : Image) (inum : Nat) (d : DInode) : Prop where
  inv : FsInv (during im inum d)
  ge : nmeta ≤ im.freeblock
  blank : ∀ b, im.freeblock ≤ b → im.disk b = fun _ => 0

/-- A block of an inode is one that is taken. -/
theorem Loop.stored_lt (h : Loop im inum d) {i : Nat} {π : Place} (h0 : stored (during im inum d) i π ≠ 0) :
    nmeta ≤ stored (during im inum d) i π ∧ stored (during im inum d) i π < im.freeblock := by
  obtain ⟨hr, hu, _⟩ := h.inv.owned i π h0
  rw [used_during] at hu
  exact ⟨hr.1, of_decide_eq_true hu⟩

theorem slot_freeblock (im : Image) (d : DInode) (k : Nat) :
    im.freeblock ≤ (slot im d k).2.1.freeblock ∧ (slot im d k).2.1.disk = im.disk := by
  unfold slot
  split
  · exact ⟨Nat.le_succ _, rfl⟩
  · exact ⟨Nat.le_refl _, rfl⟩

theorem slot_freeblock_le (im : Image) (d : DInode) (k : Nat) :
    (slot im d k).2.1.freeblock ≤ im.freeblock + 1 := by
  unfold slot
  split
  · exact Nat.le_refl _
  · exact Nat.le_succ _

/-- The block is in its slot afterwards. -/
theorem slot_blkAddrs (im : Image) (d : DInode) (k : Nat) :
    (slot im d k).2.2.blkAddrs k = (slot im d k).1 := by
  unfold slot
  split
  · exact Function.update_self ..
  · rfl

/-- A slot of `din` and the same slot in the kernel. -/
theorem Loop.slot_slotBlock (h : Loop im inum d) (k : Fin (NDIRECT + 2)) {x : Nat}
    (hslot : slot im d k = (x, im', d')) (hfits : im'.freeblock ≤ FSSIZE) :
    slotBlock (during im inum d) inum k = (x, during im' inum d') ∧ x ≠ 0 ∧ Loop im' inum d' := by
  have haddrs : ((during im inum d).body inum).blkAddrs = d.blkAddrs := by
    simp [during, setBody, DInode.body]
  unfold slot at hslot
  by_cases h0 : d.blkAddrs k = 0
  · rw [if_pos h0] at hslot
    obtain ⟨rfl, rfl, rfl⟩ : im.freeblock = x ∧ _ = im' ∧ _ = d' := by simpa using hslot
    have hne : im.freeblock ≠ 0 := by
      have hge := h.ge
      simp only [nmeta] at hge
      omega
    have heq : slotBlock (during im inum d) inum k = (im.freeblock,
        during { im with freeblock := im.freeblock + 1 } inum
          { d with blkAddrs := Function.update d.blkAddrs k im.freeblock }) := by
      unfold slotBlock
      rw [haddrs, if_neg (not_not.2 h0), balloc_during hfits h.ge (h.blank _ (Nat.le_refl _))]
      split
      next hzero => exact absurd (Prod.mk.inj hzero).1 hne
      next hpair =>
        obtain ⟨rfl, rfl⟩ := Prod.mk.inj hpair
        rw [setAddr_during]
    obtain ⟨b, s', hslot', hinv, _⟩ := h.inv.slotBlock inum k
    obtain rfl := congrArg Prod.snd (heq.symm.trans hslot')
    exact ⟨heq, hne, hinv, h.ge.trans (Nat.le_succ _), fun b hb => h.blank b (Nat.le_of_succ_le hb)⟩
  · rw [if_neg h0] at hslot
    obtain ⟨rfl, rfl, rfl⟩ : d.blkAddrs k = x ∧ im = im' ∧ d = d' := by simpa using hslot
    refine ⟨?_, h0, h⟩
    unfold slotBlock
    rw [haddrs, if_pos h0]

/-- An entry of the indirect block `t`, and the same entry in the kernel. -/
theorem Loop.entry_entryBlock (h : Loop im inum d) {t j : Nat} (ht : d.blkAddrs NDIRECT = t) (ht0 : t ≠ 0)
    (hj : j < NINDIRECT) (h0 : word (im.disk t) j = 0) (hfits : im.freeblock < FSSIZE) :
    entryBlock (during im inum d) t j = (im.freeblock,
        during (wsect { im with freeblock := im.freeblock + 1 } t (setWord (im.disk t) j im.freeblock)) inum d) ∧
      im.freeblock ≠ 0 ∧
      Loop (wsect { im with freeblock := im.freeblock + 1 } t (setWord (im.disk t) j im.freeblock)) inum d := by
  have haddrs : ((during im inum d).body inum).blkAddrs NDIRECT = t := by
    simp [during, setBody, DInode.body, ht]
  have hslot : stored (during im inum d) inum (.slot ⟨NDIRECT, by decide⟩) = t := haddrs
  have hrange := h.stored_lt (by rw [hslot]; exact ht0)
  rw [hslot] at hrange
  have hdisk : ∀ im' : Image, (during im' inum d).disk t = im'.disk t := by
    intro im'
    have hne : t ≠ 126 := by
      simp only [nmeta] at hrange
      omega
    exact if_neg hne
  have hne : im.freeblock ≠ 0 := by omega
  have heq : entryBlock (during im inum d) t j = (im.freeblock,
      during (wsect { im with freeblock := im.freeblock + 1 } t (setWord (im.disk t) j im.freeblock)) inum d) := by
    unfold entryBlock
    rw [hdisk, if_neg (not_not.2 h0), balloc_during hfits h.ge (h.blank _ (Nat.le_refl _))]
    split
    next hzero => exact absurd (Prod.mk.inj hzero).1 hne
    next hpair =>
      obtain ⟨rfl, rfl⟩ := Prod.mk.inj hpair
      rw [setBlock_during (.inr hrange.1), hdisk]
  obtain ⟨b, s', hent, hinv, _⟩ := h.inv.entryBlock haddrs ht0 ⟨j, hj⟩
  obtain rfl := congrArg Prod.snd (heq.symm.trans hent)
  refine ⟨heq, hne, hinv, h.ge.trans (Nat.le_succ _), fun b hb => ?_⟩
  have hb' : im.freeblock + 1 ≤ b := hb
  show Function.update im.disk t _ b = _
  rw [Function.update_of_ne (by omega)]
  exact h.blank b (Nat.le_of_succ_le hb')

/-- **The block of `mkfs` is the block of `bmap`**, as long as blocks are left. -/
theorem Loop.fileBlock_bmap (h : Loop im inum d) {fbn x : Nat} (hblk : fileBlock im d fbn = some (x, im', d'))
    (hfits : im'.freeblock ≤ FSSIZE) :
    fbn < NDIRECT + NINDIRECT ∧ bmap (during im inum d) inum fbn = .ok (x, during im' inum d') ∧ x ≠ 0 ∧
      Loop im' inum d' := by
  unfold fileBlock at hblk
  unfold bmap
  by_cases hdir : fbn < NDIRECT
  · rw [if_pos hdir] at hblk
    rw [if_pos hdir]
    obtain ⟨heq, hx, h'⟩ := h.slot_slotBlock ⟨fbn, Nat.lt_add_right 2 hdir⟩ (Option.some.inj hblk) hfits
    exact ⟨Nat.lt_add_right _ hdir, congrArg Except.ok heq, hx, h'⟩
  · rw [if_neg hdir] at hblk
    rw [if_neg hdir]
    dsimp only
    by_cases hind : fbn - NDIRECT < NINDIRECT
    · rw [if_pos hind] at hblk
      rw [if_pos hind]
      refine ⟨by omega, ?_⟩
      obtain ⟨hmono, hdisk⟩ := slot_freeblock im d NDIRECT
      cases hslot : slot im d NDIRECT with
      | mk t r =>
        obtain ⟨im₁, d₁⟩ := r
        rw [hslot] at hblk hmono hdisk
        dsimp only at hblk hmono hdisk
        have hfits₁ : im₁.freeblock ≤ FSSIZE := by
          split at hblk
          · obtain ⟨_, rfl, _⟩ : _ ∧ _ = im' ∧ _ := by simpa using hblk
            exact Nat.le_of_succ_le hfits
          · obtain ⟨_, rfl, _⟩ : _ ∧ im₁ = im' ∧ _ := by simpa using hblk
            exact hfits
        obtain ⟨heq, ht0, h₁⟩ := h.slot_slotBlock ⟨NDIRECT, by decide⟩ hslot hfits₁
        have heq' : slotBlock (during im inum d) inum NDIRECT = (t, during im₁ inum d₁) := heq
        have ht : d₁.blkAddrs NDIRECT = t := by
          have hself := slot_blkAddrs im d NDIRECT
          rwa [hslot] at hself
        have hne126 : t ≠ 126 := by
          have hs : stored (during im₁ inum d₁) inum (.slot ⟨NDIRECT, by decide⟩) = t := by
            simp [stored, during, setBody, DInode.body, ht]
          have hrange := h₁.stored_lt (by rw [hs]; exact ht0)
          rw [hs] at hrange
          simp only [nmeta] at hrange
          omega
        obtain ⟨a, rfl⟩ := Nat.exists_eq_succ_of_ne_zero ht0
        rw [heq']
        by_cases h0 : word (im₁.disk (a + 1)) (fbn - NDIRECT) = 0
        · rw [if_pos h0] at hblk
          obtain ⟨rfl, rfl, rfl⟩ : im₁.freeblock = x ∧ _ = im' ∧ d₁ = d' := by simpa using hblk
          obtain ⟨hentry, hx, h'⟩ := h₁.entry_entryBlock ht ht0 hind h0 hfits
          exact ⟨congrArg Except.ok hentry, hx, h'⟩
        · rw [if_neg h0] at hblk
          obtain ⟨rfl, rfl, rfl⟩ : word (im₁.disk (a + 1)) (fbn - NDIRECT) = x ∧ im₁ = im' ∧ d₁ = d' := by
            simpa using hblk
          refine ⟨congrArg Except.ok ?_, h0, h₁⟩
          have hd : (during im₁ inum d₁).disk (a + 1) = im₁.disk (a + 1) := if_neg hne126
          unfold entryBlock
          rw [hd, if_pos h0]
    · rw [if_neg hind] at hblk
      cases hblk

end During

end WeiOS.Mkfs
