import Mathlib
import WeiOS.Fs.MkfsFiles
import WeiOS.Fs.DirEntries

/-!
# The Image of mkfs in the Kernel

The whole of `main` in `lib/mkfs.c`, and what `kern/inode.c` finds on the image that it writes: `dirlookup` in
the root directory, `readi` of the files, the bitmap that `balloc` reads, and the blocks of the inodes.

## Main results
- `Progress.addFile`: one round of the loop over the files.
- `kernel_agrees`: the kernel finds every file, with its bytes.
-/

namespace WeiOS.Mkfs

open WeiOS.Inode WeiOS.Lib
open WeiOS.InodeCache (inodeInit)
open WeiOS.Dir (Name DIRSIZ ROOTINO slash Kern loadInode dWord)

/-! ## §1 One file after the other -/

/-- What `mkfs` has done after the files `done`. -/
structure Progress (done : List InputFile) (im : Image) : Prop where
  built : Built im
  freeinode : im.freeinode = 2 + done.length
  root : Holds (view im) ROOTINO (rootBytes done)
  rootType : (rinode im ROOTINO).type = T_DIR
  files : ∀ j f, done[j]? = some f → Holds (view im) (2 + j) f.bytes ∧ (rinode im (2 + j)).type = T_FILE
  fresh : ∀ i, im.freeinode ≤ i → i < NINODES → (rinode im i).body = ⟨0, 0, 0, fun _ => 0⟩
  room : im.freeblock ≤ nmeta + 1 + (done.map fun f => blocksFor f.bytes.length).sum

section Steps

variable {done rest : List InputFile} {f : InputFile} {im : Image}

theorem rootBytes_pos (done : List InputFile) : 0 < (rootBytes done).length := by
  rw [length_rootBytes]
  simp [Dir.DIRENT]

/-- **One round of the loop of `main`**: the file gets an inode, an entry and its blocks. -/
theorem Progress.addFile (h : Progress done im) (hcount : done.length + 1 < 199) (hslash : slash ∉ f.arg)
    (hsize : f.bytes.length ≤ MAXFILESIZ)
    (hfits : nmeta + 1 + ((done ++ [f]).map fun f => blocksFor f.bytes.length).sum ≤ FSSIZE) :
    ∃ im', Mkfs.addFile im f = some im' ∧ Progress (done ++ [f]) im' := by
  have hN : NINODES = 200 := rfl
  have hR : ROOTINO = 1 := rfl
  have hE : Dir.DIRENT = 16 := rfl
  have hB : BLKSIZE = 4096 := rfl
  rw [List.map_append, List.map_singleton, List.sum_append, List.sum_singleton] at hfits
  have hroom := h.room
  have hnum := h.freeinode
  have hino : im.freeinode < NINODES := by omega
  -- the inode
  obtain ⟨im₁, hrun₁, h₁, hnum₁, hblk₁, htype₁, hnew₁, hsame₁, hholds₁, _⟩ :=
    h.built.ialloc hino (show T_FILE < 2 ^ 16 by decide) (h.fresh _ (Nat.le_refl _) hino)
  have hroot₁ := hholds₁ _ _ h.root
  have hneed₁ := need_root hroot₁ (rootBytes_pos done)
  -- the entry
  have hlen := length_rootBytes done
  obtain ⟨im₂, hrun₂, h₂, hroot₂, hblk₂, ho₂⟩ := h₁.enterRoot hroot₁ (by rw [hlen, hE, hB]; omega)
    (by rw [hneed₁]; omega) im.freeinode f.name
  have hnew₂ := ho₂.files im.freeinode (by omega) [] hnew₁
  -- the bytes
  have hneed₂ := (need_le (view im₂) im₂.freeblock im.freeinode (placesOf f.bytes.length)).trans
    (Nat.add_le_add_right (card_placesOf f.bytes.length) _)
  obtain ⟨im₃, hrun₃, h₃, hbytes₃, hneed₃, ho₃⟩ := h₂.copyLoop hino (f.bytes.length + 1) f.bytes
    (Nat.lt_succ_self _) hnew₂ (by simpa using hsize) (Q := placesOf f.bytes.length)
    (fun l hl => touched_placesOf (by simpa using hl)) (by omega)
  rw [List.nil_append] at hbytes₃
  have hblk₃ : im₃.freeblock ≤ need (view im₃) im₃.freeblock im.freeinode (placesOf f.bytes.length) :=
    Nat.le_add_left _ _
  have hfree : im₃.freeinode = im.freeinode + 1 := by rw [ho₃.freeinode, ho₂.freeinode, hnum₁]
  have hinode : ∀ i < NINODES, i ≠ im.freeinode → i ≠ ROOTINO → rinode im₃ i = rinode im i := by
    intro i hi hne hne'
    rw [ho₃.inodes i hi hne, ho₂.inodes i hi hne', hsame₁ i hne]
  refine ⟨im₃, ?_, h₃, ?_, ?_, ?_, fun j g hj => ?_, fun i hge hlt => ?_, ?_⟩
  · unfold Mkfs.addFile
    rw [if_neg hslash, hrun₁]
    show (Mkfs.enterRoot im₁ im.freeinode f.name).bind _ = _
    rw [hrun₂]
    exact hrun₃
  · rw [hfree, hnum, List.length_append, List.length_singleton]
    omega
  · rw [rootBytes_append, ← hnum]
    exact ho₃.files ROOTINO (by omega) _ hroot₂
  · rw [ho₃.inodes ROOTINO (by decide) (by omega), ho₂.type, hsame₁ ROOTINO (by omega), h.rootType]
  · by_cases hold : j < done.length
    · rw [List.getElem?_append_left hold] at hj
      obtain ⟨hb, ht⟩ := h.files j g hj
      refine ⟨ho₃.files _ (by omega) _ (ho₂.files _ (by omega) _ (hholds₁ _ _ hb)), ?_⟩
      rw [hinode _ (by omega) (by omega) (by omega), ht]
    · rw [List.getElem?_append_right (by omega)] at hj
      have hj0 : j - done.length = 0 := by
        by_contra hne
        rw [List.getElem?_eq_none (by rw [List.length_singleton]; omega)] at hj
        cases hj
      rw [hj0] at hj
      obtain rfl : f = g := Option.some.inj hj
      have hjnum : 2 + j = im.freeinode := by omega
      rw [hjnum]
      exact ⟨hbytes₃, by rw [ho₃.type, ho₂.inodes _ hino (by omega), htype₁]⟩
  · rw [hinode i hlt (by omega) (by omega)]
    exact h.fresh i (by omega) hlt
  · rw [List.map_append, List.map_singleton, List.sum_append, List.sum_singleton]
    omega

/-- **The loop of `main`**, by induction on the files that are left. -/
theorem Progress.addFiles (rest : List InputFile) (h : Progress done im) (hcount : (done ++ rest).length < 199)
    (hrest : ∀ f ∈ rest, slash ∉ f.arg ∧ f.bytes.length ≤ MAXFILESIZ)
    (hfits : nmeta + 1 + ((done ++ rest).map fun f => blocksFor f.bytes.length).sum ≤ FSSIZE) :
    ∃ im', rest.foldlM Mkfs.addFile im = some im' ∧ Progress (done ++ rest) im' := by
  induction rest generalizing done im with
  | nil =>
    rw [List.append_nil]
    exact ⟨im, rfl, h⟩
  | cons f rest ih =>
    have hsplit : done ++ f :: rest = done ++ [f] ++ rest := by simp
    rw [hsplit] at hcount hfits ⊢
    obtain ⟨hslash, hsize⟩ := hrest f List.mem_cons_self
    obtain ⟨im₁, hrun, h₁⟩ := h.addFile (f := f) (by
      rw [List.length_append, List.length_append, List.length_singleton] at hcount
      omega) hslash hsize (by
      rw [List.map_append, List.sum_append] at hfits
      omega)
    obtain ⟨im', hrun', h'⟩ := ih h₁ hcount (fun g hg => hrest g (List.mem_cons_of_mem _ hg)) hfits
    refine ⟨im', ?_, h'⟩
    rw [List.foldlM_cons, hrun]
    exact hrun'

/-! ### The empty image -/

theorem rinode_blankImage {i : Nat} (hi : i < NINODES) : rinode blankImage i = ⟨0, 0, 0, 0, 0, fun _ => 0⟩ := by
  have hrange := IBLOCK_range hi
  have hzero : blankImage.disk (IBLOCK i sb) = fun _ => 0 := by
    have hne : IBLOCK i sb ≠ 1 := by omega
    simp only [blankImage, if_neg hne]
  have haddrs : (fun k => if k < NDIRECT + 2 then word (fun _ => 0) (16 * (i % IPB) + (3 + k)) else 0) = fun _ => 0 := by
    funext k
    rw [word_zero, ite_self]
  unfold rinode
  rw [hzero]
  dsimp only
  rw [haddrs]
  simp only [word_zero, Nat.zero_mod, Nat.zero_div]

theorem stored_blankImage (i : Nat) (π : Place) : stored (view blankImage) i π = 0 := by
  have hbody : ((view blankImage).body i).blkAddrs = fun _ => 0 := by
    show (if i < NINODES then (rinode blankImage i).body else ⟨0, 0, 0, fun _ => 0⟩).blkAddrs = _
    split
    next hi => rw [rinode_blankImage hi]; rfl
    next => rfl
  cases π <;> simp [stored, hbody, entry]

theorem blankImage_built : Built blankImage where
  inv := {
    sb := rfl
    super := by decide +kernel
    marked := fun b hb => (bitSet_bitmapOf nmeta b).trans (decide_eq_true hb)
    inos := fun i => Nat.mod_lt _ (by decide)
    sizes := fun i => by
      show (if i < NINODES then (rinode blankImage i).body else ⟨0, 0, 0, fun _ => 0⟩).fileSiz ≤ _
      split
      next hi => rw [rinode_blankImage hi]; exact Nat.zero_le _
      next => exact Nat.zero_le _
    owned := fun i π h0 => absurd (stored_blankImage i π) h0 }
  ge := by decide
  blank b hb := if_neg (by
    have hge : nmeta ≤ b := hb
    simp only [nmeta] at hge
    omega)

/-- **The root directory** with its two entries. -/
theorem makeRoot_progress : ∃ im, makeRoot blankImage = some im ∧ Progress [] im := by
  have hfresh : ∀ i < NINODES, (rinode blankImage i).body = ⟨0, 0, 0, fun _ => 0⟩ := by
    intro i hi
    rw [rinode_blankImage hi]
    rfl
  obtain ⟨im₁, hrun₁, h₁, hnum₁, hblk₁, htype₁, hroot₁, hsame₁, _, _⟩ :=
    blankImage_built.ialloc (by decide) (show T_DIR < 2 ^ 16 by decide) (hfresh _ (by decide))
  have hfree : im₁.freeblock = nmeta := hblk₁
  have hcard : (touched 0).card = 1 := rfl
  have hneed₁ := need_le (view im₁) im₁.freeblock ROOTINO (touched 0)
  have hF : nmeta + 1 ≤ FSSIZE := by decide
  obtain ⟨im₂, hrun₂, h₂, hroot₂, hblk₂, ho₂⟩ := h₁.enterRoot hroot₁ (by decide) (by omega) ROOTINO [46]
  have hneed₂ := need_root hroot₂ (by rw [List.nil_append, length_entryBytes]; decide)
  obtain ⟨im₃, hrun₃, h₃, hroot₃, hblk₃, ho₃⟩ := h₂.enterRoot hroot₂
    (by rw [List.nil_append, length_entryBytes]; decide) (by omega) ROOTINO [46, 46]
  refine ⟨im₃, ?_, h₃, ?_, ?_, ?_, fun j f hj => ?_, fun i hge hlt => ?_, ?_⟩
  · unfold makeRoot
    rw [hrun₁]
    show (Mkfs.enterRoot im₁ ROOTINO [46]).bind _ = _
    rw [hrun₂]
    exact hrun₃
  · rw [ho₃.freeinode, ho₂.freeinode, hnum₁]
    rfl
  · simpa [rootBytes, rootEntries] using hroot₃
  · rw [ho₃.type, ho₂.type]
    exact htype₁
  · simp at hj
  · rw [ho₃.freeinode, ho₂.freeinode, hnum₁] at hge
    have hne : i ≠ ROOTINO := by
      have hB : blankImage.freeinode = 1 := rfl
      have hR : ROOTINO = 1 := rfl
      omega
    rw [ho₃.inodes i hlt hne, ho₂.inodes i hlt hne, hsame₁ i hne]
    exact hfresh i hlt
  · show im₃.freeblock ≤ nmeta + 1 + 0
    omega

end Steps

/-! ## §2 The end of `main` -/

/-- The image that `main` writes for the files. -/
structure Written (files : List InputFile) (im : Image) : Prop where
  inv : FsInv (view im)
  disk : (view im).disk = im.disk
  ge : nmeta ≤ im.freeblock
  room : im.freeblock ≤ nmeta + 1 + (files.map fun f => blocksFor f.bytes.length).sum
  root : ∃ pad, Holds (view im) ROOTINO (rootBytes files ++ pad) ∧ (rootBytes files ++ pad).length = BLKSIZE
  rootType : (rinode im ROOTINO).type = T_DIR
  files : ∀ j f, files[j]? = some f → Holds (view im) (2 + j) f.bytes ∧ (rinode im (2 + j)).type = T_FILE

section Finish

variable {files : List InputFile} {im : Image}

/-- The bitmap is the one that the blocks had all the time. -/
theorem view_balloc (im : Image) : view (Mkfs.balloc im im.freeblock) = view im ∧
    (Mkfs.balloc im im.freeblock).disk = (view im).disk := by
  have hstart : sb.bitmapStart = 126 := by decide
  have hdisk : (Mkfs.balloc im im.freeblock).disk = (view im).disk := by
    funext c
    show Function.update im.disk sb.bitmapStart _ c = if c = 126 then _ else im.disk c
    rw [hstart]
    by_cases hc : c = 126
    · rw [hc, Function.update_self, if_pos rfl]
    · rw [Function.update_of_ne hc, if_neg hc]
  have hview : (view (Mkfs.balloc im im.freeblock)).disk = (view im).disk := by
    funext c
    show (if c = 126 then bitmapOf im.freeblock else (Mkfs.balloc im im.freeblock).disk c) = _
    rw [hdisk]
    show (if c = 126 then _ else if c = 126 then _ else im.disk c) = if c = 126 then _ else im.disk c
    split <;> rfl
  have hbody : (view (Mkfs.balloc im im.freeblock)).body = (view im).body := by
    funext i
    show (if i < NINODES then _ else _) = if i < NINODES then _ else _
    split
    next hi =>
      have hrange := IBLOCK_range hi
      have hrinode : rinode (Mkfs.balloc im im.freeblock) i = rinode im i := rinode_wsect (by rw [hstart]; omega)
      rw [hrinode]
    next => rfl
  refine ⟨?_, hdisk⟩
  show { view im with
    disk := (view (Mkfs.balloc im im.freeblock)).disk
    body := (view (Mkfs.balloc im im.freeblock)).body } = view im
  rw [hview, hbody]

/-- **The end of `main`**: the root directory gets the size of its block, and the bitmap is written. -/
theorem Progress.written (h : Progress files im) (hcount : files.length < 199) :
    Written files (Mkfs.balloc (fixRoot im) (fixRoot im).freeblock) := by
  have hB : BLKSIZE = 4096 := rfl
  have hE : Dir.DIRENT = 16 := rfl
  have hR : ROOTINO < NINODES := by decide
  have hlen := length_rootBytes files
  have hroot := h.root
  have hbody : (view im).body ROOTINO = (rinode im ROOTINO).body := view_body hR
  have hsize : (rinode im ROOTINO).fileSiz = (rootBytes files).length := by
    rw [← hroot.1, hbody]
    rfl
  have hnew : ((rinode im ROOTINO).fileSiz / BLKSIZE + 1) * BLKSIZE = BLKSIZE := by
    rw [hsize, hlen, hE, hB]
    omega
  generalize hd : ({ rinode im ROOTINO with fileSiz := BLKSIZE } : DInode) = d
  have hfix : fixRoot im = winode im ROOTINO d := by
    unfold fixRoot
    dsimp only
    rw [hnew, hd]
  have hfit : d.Fits := by
    subst hd
    have hr := rinode_fits im ROOTINO
    exact ⟨hr.type, hr.major, hr.minor, hr.nlink, show BLKSIZE < 2 ^ 32 by decide, hr.addrs, hr.rest⟩
  have hsized : during im ROOTINO d =
      setBody (view im) ROOTINO { (view im).body ROOTINO with fileSiz := BLKSIZE } := by
    rw [← during_rinode hR, ← hd]
    exact during_setFileSiz im ROOTINO (rinode im ROOTINO) BLKSIZE
  have hloop : Loop im ROOTINO d := by
    refine ⟨?_, h.built.ge, h.built.blank⟩
    rw [hsized]
    exact h.built.inv.setFileSiz ROOTINO (by decide)
  obtain ⟨hbuilt, hgrows, _⟩ := hloop.winode hR hfit
  -- no byte of a file moves
  have hbyte : ∀ i k, Mapped (view im) i k → Mapped (view (winode im ROOTINO d)) i k ∧
      byteAt (view (winode im ROOTINO d)) i k = byteAt (view im) i k := by
    intro i k hm
    have hblk : blockAt (during im ROOTINO d) i (k / BLKSIZE) = blockAt (view im) i (k / BLKSIZE) := by
      rw [hsized]
      exact stored_setFileSiz ..
    have hm' : Mapped (during im ROOTINO d) i k := by
      unfold Mapped
      rw [hblk]
      exact hm
    refine ⟨hgrows.mapped hm', (hgrows.byteAt hm').trans ?_⟩
    unfold byteAt
    rw [hblk]
    rfl
  have hsizes : ∀ i, i ≠ ROOTINO → ((view (winode im ROOTINO d)).body i).fileSiz = ((view im).body i).fileSiz := by
    intro i hi
    rw [hgrows.size, hsized]
    simp [setBody, hi]
  obtain ⟨hview, hdisk⟩ := view_balloc (fixRoot im)
  rw [hfix] at hview hdisk ⊢
  have hrinode : ∀ i < NINODES, rinode (Mkfs.balloc (winode im ROOTINO d) (winode im ROOTINO d).freeblock) i =
      rinode (winode im ROOTINO d) i := by
    intro i hi
    have hstart : sb.bitmapStart = 126 := by decide
    have hrange := IBLOCK_range hi
    exact rinode_wsect (by rw [hstart]; omega)
  refine ⟨?_, ?_, h.built.ge, h.room, ?_, ?_, fun j f hj => ?_⟩
  · rw [hview]
    exact hbuilt.inv
  · rw [hview, hdisk]
  · have hlt : (rootBytes files).length ≤ BLKSIZE := by
      rw [hlen, hE, hB]
      omega
    -- the rest of the block, whatever it is
    refine ⟨(List.range (BLKSIZE - (rootBytes files).length)).map fun k =>
      byteAt (view (winode im ROOTINO d)) ROOTINO ((rootBytes files).length + k), ?_⟩
    have hwhole : (rootBytes files ++ (List.range (BLKSIZE - (rootBytes files).length)).map fun k =>
        byteAt (view (winode im ROOTINO d)) ROOTINO ((rootBytes files).length + k)).length = BLKSIZE := by
      rw [List.length_append, List.length_map, List.length_range]
      omega
    rw [hview]
    refine ⟨⟨?_, fun k hk => ?_⟩, hwhole⟩
    · rw [hwhole, hgrows.size, hsized]
      simp [setBody]
    · rw [hwhole] at hk
      have hfirst : Mapped (view im) ROOTINO k := by
        have hm := (hroot.2 0 (rootBytes_pos files)).1
        unfold Mapped at hm ⊢
        rw [Nat.div_eq_of_lt hk]
        exact hm
      obtain ⟨hm, hb⟩ := hbyte _ _ hfirst
      refine ⟨hm, ?_⟩
      by_cases hin : k < (rootBytes files).length
      · rw [hb, (hroot.2 k hin).2, List.getD_append _ _ _ _ hin]
      · rw [List.getD_append_right _ _ _ _ (Nat.not_lt.1 hin), List.getD_eq_getElem?_getD, List.getElem?_map,
          List.getElem?_range (by omega), Option.map_some, Option.getD_some]
        congr 1
        omega
  · rw [hrinode _ hR, rinode_winode hfit, ← hd]
    exact h.rootType
  · have hjlt : j < files.length := (List.getElem?_eq_some_iff.1 hj).1
    have hN : NINODES = 200 := rfl
    have hne : 2 + j ≠ ROOTINO := by
      have hR' : ROOTINO = 1 := rfl
      omega
    obtain ⟨hb, ht⟩ := h.files j f hj
    rw [hview, hrinode _ (by omega), rinode_winode_of_ne hfit hne]
    refine ⟨⟨(hsizes _ hne).trans hb.1, fun k hk => ?_⟩, ht⟩
    obtain ⟨hm, hbk⟩ := hb.2 k hk
    obtain ⟨hm', hbk'⟩ := hbyte _ _ hm
    exact ⟨hm', hbk'.trans hbk⟩

end Finish

/-! ## §3 Inodes in the kernel -/

/-- The kernel has the inode `ino` of the image in its structure `i`, as `ilock` reads it. -/
structure Loaded (im : Image) (s : Kern) (i ino : Nat) : Prop where
  disk : s.fs.disk = im.disk
  sb : s.fs.sb = superblockOf (im.disk 1)
  ino : (s.node i).ino = ino
  loaded : loadInode s.fs i = s.fs

/-- All inodes of the image, each in a structure of its own. -/
def onDisk (im : Image) : FileSys :=
  let fs : FileSys :=
    { sb := superblockOf (im.disk 1)
      disk := im.disk
      icache := { inodeInit with inode := fun i => ⟨1, i, 1, true, 0, 0⟩ }
      body := fun _ => ⟨0, 0, 0, fun _ => 0⟩
      devStructs := fun _ => ⟨none⟩ }
  { fs with body := fun i => (loadInode fs i).body i }

section Kernel

variable {files : List InputFile} {im : Image} {s : Kern} {fs fs' : FileSys} {i i' ino : Nat} {bs : List (BitVec 8)}

/-- After `ilock` has read the inode, it is loaded. -/
theorem loaded_of_loadInode (hdisk : s.fs.disk = im.disk) (hsb : s.fs.sb = superblockOf (im.disk 1))
    (hino : (s.node i).ino = ino) : Loaded im { s with fs := loadInode s.fs i } i ino := by
  refine ⟨hdisk, hsb, ?_, ?_⟩
  · rw [← hino]
    simp [Kern.node, loadInode, setBody, Dir.setNode]
  · simp [loadInode, setBody, Dir.setNode, Dir.dWord]

/-- What an inode stores depends on its block numbers and on the disk. -/
theorem stored_of_addrs (haddrs : ∀ k < NDIRECT + 2, (fs'.body i').blkAddrs k = (fs.body i).blkAddrs k)
    (hdisk : fs'.disk = fs.disk) (π : Place) : stored fs' i' π = stored fs i π := by
  have hentry : entry fs' = entry fs := by
    funext b j
    unfold entry
    rw [hdisk]
  cases π with
  | slot k => exact haddrs k k.isLt
  | ind j => simp only [stored, haddrs NDIRECT (by decide), hentry]
  | dbl n => simp only [stored, haddrs (NDIRECT + 1) (by decide), hentry]
  | leaf n z => simp only [stored, haddrs (NDIRECT + 1) (by decide), hentry]

/-- The kernel and `mkfs` have the same superblock. -/
theorem Written.superblock (h : Written files im) : superblockOf (im.disk 1) = Mkfs.sb := by
  have hsuper := h.inv.super
  rw [h.disk] at hsuper
  rw [hsuper, sb_eq]

/-- The kernel reads the block numbers that `mkfs` wrote. -/
theorem Written.addrs (h : Written files im) (hdisk : fs.disk = im.disk) (hsb : fs.sb = superblockOf (im.disk 1))
    (hino : ino < NINODES) : ∀ k < NDIRECT + 2, dWord fs ino (3 + k) = ((view im).body ino).blkAddrs k := by
  intro k hk
  rw [view_body hino]
  show word (fs.disk (IBLOCK ino fs.sb)) _ = if k < NDIRECT + 2 then _ else 0
  rw [if_pos hk, hdisk, hsb, h.superblock]

theorem Loaded.body (h : Loaded im s i ino) :
    s.fs.body i = ⟨dWord s.fs ino 0 / 2 ^ 16, dWord s.fs ino 1 % 2 ^ 16, dWord s.fs ino 2,
      fun k => dWord s.fs ino (3 + k)⟩ := by
  have hnum : (s.fs.icache.inode i).ino = ino := h.ino
  have hload := congrArg (fun fs : FileSys => fs.body i) h.loaded
  rw [← hnum]
  refine hload.symm.trans ?_
  simp [loadInode, setBody]

theorem Loaded.type (h : Loaded im s i ino) : (s.node i).type = dWord s.fs ino 0 % 2 ^ 16 := by
  have hnum : (s.fs.icache.inode i).ino = ino := h.ino
  have hload := congrArg (fun fs : FileSys => (fs.icache.inode i).type) h.loaded
  rw [← hnum]
  refine hload.symm.trans ?_
  simp [loadInode, setBody, Dir.setNode]

/-- **A file of the image is a file of the kernel.** -/
theorem Written.loaded (h : Written files im) (hl : Loaded im s i ino) (hino : ino < NINODES)
    (hbs : Holds (view im) ino bs) : Holds s.fs i bs ∧ (s.node i).type = (rinode im ino).type := by
  have haddrs : ∀ k < NDIRECT + 2, (s.fs.body i).blkAddrs k = ((view im).body ino).blkAddrs k := by
    intro k hk
    rw [hl.body]
    exact h.addrs hl.disk hl.sb hino k hk
  have hdisk : s.fs.disk = (view im).disk := hl.disk.trans h.disk.symm
  have hblk : ∀ l, blockAt s.fs i l = blockAt (view im) ino l := fun l => stored_of_addrs haddrs hdisk _
  have hword : ∀ k, dWord s.fs ino k = word (im.disk (IBLOCK ino Mkfs.sb)) (16 * (ino % IPB) + k) := by
    intro k
    unfold dWord
    rw [hl.disk, hl.sb, h.superblock]
  refine ⟨⟨?_, fun k hk => ?_⟩, ?_⟩
  · rw [hl.body, ← hbs.1, view_body hino]
    exact hword 2
  · obtain ⟨hm, hb⟩ := hbs.2 k hk
    unfold Mapped at hm ⊢
    unfold byteAt at hb ⊢
    rw [hblk, hdisk]
    exact ⟨hm, hb⟩
  · rw [hl.type, hword]
    rfl

theorem Holds.alloc (h : Holds s.fs i bs) : Allocated s.fs i := by
  intro k hk
  rw [h.1] at hk
  exact (h.2 k hk).1

theorem Holds.bytesOf (h : Holds s.fs i bs) : Dir.bytesOf s.fs i = bs := by
  apply List.ext_getElem?
  intro k
  unfold Dir.bytesOf
  rw [List.getElem?_map, h.1]
  by_cases hk : k < bs.length
  · rw [List.getElem?_range hk, Option.map_some, (h.2 k hk).2, List.getElem?_eq_getElem hk,
      List.getD_eq_getElem _ _ hk]
  · rw [List.getElem?_eq_none (by rw [List.length_range]; omega), List.getElem?_eq_none (by omega)]
    rfl

/-- `readi` of a file of the image. -/
theorem Written.readi (h : Written files im) (hl : Loaded im s i ino) (hino : ino < NINODES)
    (hbs : Holds (view im) ino bs) (hfile : (rinode im ino).type = T_FILE) (dst : Block) {off n : Nat}
    (hoff : off ≤ bs.length) (hn : off + n < 2 ^ 32) :
    ∃ d, Dir.readi i dst off n s = .ok (((min n (bs.length - off) : Nat), d), s) ∧
      (List.range (min n (bs.length - off))).map d = (bs.drop off).take n := by
  obtain ⟨hholds, htype⟩ := h.loaded hl hino hbs
  have hsize : (s.body i).fileSiz = bs.length := hholds.1
  have hmax : (s.body i).fileSiz ≤ MAXFILESIZ := by
    rw [hsize, ← hbs.1]
    exact h.inv.sizes ino
  have hdev : (s.node i).type ≠ T_DEV := by
    rw [htype, hfile]
    decide
  have hread := readi_contents hdev hmax hholds.alloc (by omega : off < 2 ^ 32) (by omega : n < 2 ^ 32) dst
  rw [if_neg (by omega), Dir.contents_eq_bytesOf hholds.alloc, hholds.bytesOf, hsize] at hread
  obtain ⟨d, hrun, hbytes, _⟩ := hread
  refine ⟨d, hrun, ?_⟩
  have hsome : ((List.range (min n (bs.length - off))).map d).map some = ((bs.drop off).take n).map some := by
    rw [List.map_map, List.map_take, List.map_drop]
    exact hbytes
  exact List.map_injective_iff.2 (Option.some_injective _) hsome

/-! ## §4 Names in the kernel -/

theorem dirent_eq (ino : Nat) (name : Name) :
    dirent ino name = Dir.setDirent (fun _ => 0) ino (name.take DIRSIZ) := by
  funext k
  unfold dirent Dir.setDirent
  split
  · rfl
  · split
    · rfl
    next h0 h1 =>
      by_cases hk : k < 2 + (name.take DIRSIZ).length + 2
      · rw [if_pos hk]
      · rw [if_neg hk, List.getD_eq_default _ _ (by omega)]

/-- An entry of `mkfs` in the table of the kernel. -/
theorem slotOf_entries {es : List (Nat × Name)} {e : Nat × Name} {j : Nat} (he : es[j]? = some e)
    (hino : 0 < e.1 ∧ e.1 < 2 ^ 16) (hname : 0 ∉ e.2) (pad : List (BitVec 8)) :
    Dir.slotOf (Dir.entryAt ((es.flatMap fun e => entryBytes e.1 e.2) ++ pad) (Dir.DIRENT * j)) =
      some (e.2.take DIRSIZ, e.1) := by
  have hbytes : ∀ k < Dir.DIRENT,
      Dir.entryAt ((es.flatMap fun e => entryBytes e.1 e.2) ++ pad) (Dir.DIRENT * j) k = dirent e.1 e.2 k := by
    intro k hk
    unfold Dir.entryAt
    induction es generalizing j with
    | nil => simp at he
    | cons e' es ih =>
      rw [List.flatMap_cons, List.append_assoc]
      cases j with
      | zero =>
        obtain rfl : e' = e := Option.some.inj he
        rw [Nat.mul_zero, Nat.zero_add, List.getD_append _ _ _ _ (by rw [length_entryBytes]; exact hk), entryBytes,
          List.getD_eq_getElem?_getD, List.getElem?_map, List.getElem?_range hk]
        rfl
      | succ j =>
        have hlen : (entryBytes e'.1 e'.2).length = Dir.DIRENT := length_entryBytes ..
        rw [List.getD_append_right _ _ _ _ (by rw [hlen, Nat.mul_succ]; omega), hlen]
        have hoff : Dir.DIRENT * (j + 1) + k - Dir.DIRENT = Dir.DIRENT * j + k := by
          rw [Nat.mul_succ]
          omega
        rw [hoff]
        exact ih he
  have htake : 0 ∉ e.2.take DIRSIZ := fun hmem => hname (List.mem_of_mem_take hmem)
  rw [Dir.slotOf_congr hbytes, dirent_eq, Dir.slotOf_setDirent _ hino htake, List.take_take, Nat.min_self]

/-! ## §5 The whole image -/

/-- The files that `mkfs` is given: strings without a slash, names that fit an entry, and no more bytes than
    the disk has blocks for. -/
structure Input (files : List InputFile) : Prop where
  count : files.length < 199
  plain : ∀ f ∈ files, slash ∉ f.arg
  chars : ∀ f ∈ files, 0 ∉ f.name
  short : ∀ f ∈ files, f.name.length ≤ DIRSIZ
  special : ∀ f ∈ files, f.name ≠ [46] ∧ f.name ≠ [46, 46]
  distinct : (files.map InputFile.name).Nodup
  sizes : ∀ f ∈ files, f.bytes.length ≤ (NDIRECT + NINDIRECT) * BLKSIZE
  fits : nmeta + 1 + (files.map fun f => blocksFor f.bytes.length).sum ≤ FSSIZE

/-- What the kernel finds on the image. -/
structure Agrees (files : List InputFile) (im : Image) : Prop where
  /-- `dirlookup` in the root directory goes on to the inode of the file. -/
  lookup : ∀ j f, files[j]? = some f → ∀ s r, Loaded im s r ROOTINO →
    Dir.dirlookup r f.name s = (do
      let ip ← Dir.iget (s.node r).dev (2 + j)
      pure (0, some (ip, Dir.DIRENT * (2 + j))) : Dir.FsM (Int × Option (Nat × Nat))) s
  /-- `readi` of that inode copies the bytes of the file. -/
  read : ∀ j f, files[j]? = some f → ∀ s i, Loaded im s i (2 + j) → ∀ dst off n,
    off ≤ f.bytes.length → off + n < 2 ^ 32 →
    ∃ d, Dir.readi i dst off n s = .ok (((min n (f.bytes.length - off) : Nat), d), s) ∧
      (List.range (min n (f.bytes.length - off))).map d = (f.bytes.drop off).take n
  /-- The bitmap that `balloc` reads. -/
  bitmap : ∀ b < FSSIZE, bitSet (im.disk (BITBLOCK b (superblockOf (im.disk 1)))) (b % BITPB) =
    decide (b < im.freeblock)
  /-- The blocks of the inodes. -/
  apart : ∀ i < NINODES, ∀ π, stored (onDisk im) i π ≠ 0 →
    (nmeta ≤ stored (onDisk im) i π ∧ stored (onDisk im) i π < im.freeblock) ∧
      ∀ i' < NINODES, ∀ π', stored (onDisk im) i' π' = stored (onDisk im) i π → i' = i ∧ π' = π
  fits : nmeta ≤ im.freeblock ∧ im.freeblock ≤ FSSIZE

/-- The names of the root directory are distinct strings that fit. -/
theorem Input.entries (h : Input files) :
    ((rootEntries files).map Prod.snd).Nodup ∧ ∀ e ∈ rootEntries files, (0 < e.1 ∧ e.1 < 2 ^ 16) ∧ 0 ∉ e.2 ∧
      e.2.length ≤ DIRSIZ := by
  have hnames : (rootEntries files).map Prod.snd = [46] :: [46, 46] :: files.map InputFile.name := by
    have hzip : ((files.zipIdx 2).map fun e => (e.2, e.1.name)).map Prod.snd = files.map InputFile.name := by
      rw [List.map_map]
      show (files.zipIdx 2).map (InputFile.name ∘ Prod.fst) = _
      rw [← List.map_map, List.zipIdx_map_fst]
    show [46] :: [46, 46] :: _ = _
    rw [hzip]
  constructor
  · rw [hnames, List.nodup_cons, List.nodup_cons]
    refine ⟨fun hmem => ?_, fun hmem => ?_, h.distinct⟩
    · rcases List.mem_cons.1 hmem with heq | hmem
      · exact absurd heq (by decide)
      · obtain ⟨f, hf, hname⟩ := List.mem_map.1 hmem
        exact (h.special f hf).1 hname
    · obtain ⟨f, hf, hname⟩ := List.mem_map.1 hmem
      exact (h.special f hf).2 hname
  · intro e he
    rcases List.mem_cons.1 he with rfl | he
    · decide
    rcases List.mem_cons.1 he with rfl | he
    · decide
    obtain ⟨⟨f, n⟩, hmem, rfl⟩ := List.mem_map.1 he
    obtain ⟨hge, hlt, hget⟩ := List.mem_zipIdx hmem
    have hf : f ∈ files := by
      rw [hget]
      exact List.getElem_mem _
    have hcount := h.count
    exact ⟨by dsimp only; omega, h.chars f hf, h.short f hf⟩

/-- **`dirlookup`** in the root directory of the image. -/
theorem Written.dirlookup (h : Written files im) (hin : Input files) {r : Nat} (hl : Loaded im s r ROOTINO)
    {j : Nat} {f : InputFile} (hj : files[j]? = some f) :
    Dir.dirlookup r f.name s = (do
      let ip ← Dir.iget (s.node r).dev (2 + j)
      pure (0, some (ip, Dir.DIRENT * (2 + j))) : Dir.FsM (Int × Option (Nat × Nat))) s := by
  have hE : Dir.DIRENT = 16 := rfl
  have hB : BLKSIZE = 4096 := rfl
  obtain ⟨pad, hroot, hlen⟩ := h.root
  obtain ⟨hholds, htype⟩ := h.loaded hl (by decide) hroot
  have hwhole : Dir.DIRENT ∣ (rootBytes files ++ pad).length := by
    rw [hlen]
    decide
  have hdir : Dir.Readable s r := by
    refine ⟨htype.trans h.rootType, ?_, hholds.alloc, ?_⟩
    · have hsize : (s.body r).fileSiz = (rootBytes files ++ pad).length := hholds.1
      rw [hsize, hlen]
      decide
    · rw [hholds.bytesOf]
      exact hwhole
  have hjlt : j < files.length := (List.getElem?_eq_some_iff.1 hj).1
  have hcount := hin.count
  obtain ⟨hnodup, hall⟩ := hin.entries
  have hslot : ∀ (i : Nat) (e : Nat × Name), (rootEntries files)[i]? = some e →
      (Dir.table (rootBytes files ++ pad))[i]? = some (some (e.2, e.1)) := by
    intro i e he
    obtain ⟨hino, hchars, hshort⟩ := hall e (List.mem_of_getElem? he)
    have hlt : i < (rootEntries files).length := (List.getElem?_eq_some_iff.1 he).1
    have hentries : (rootEntries files).length = files.length + 2 := by simp [rootEntries]
    rw [Dir.getElem?_table, hlen, if_pos (by rw [hE, hB]; omega), rootBytes,
      slotOf_entries he hino hchars pad, List.take_of_length_le hshort]
  have hentry : (rootEntries files)[2 + j]? = some (2 + j, f.name) := by
    rw [Nat.add_comm 2 j]
    show ((files.zipIdx 2).map fun e => (e.2, e.1.name))[j]? = _
    rw [List.getElem?_map, List.getElem?_zipIdx, hj, Nat.add_comm j 2]
    rfl
  have hshort : f.name.take DIRSIZ = f.name :=
    List.take_of_length_le (hall _ (List.mem_of_getElem? hentry)).2.2
  have hfind : SlotTable.find f.name (Dir.table (rootBytes files ++ pad)) = some (2 + j, 2 + j) := by
    apply SlotTable.find_of_first (hslot _ _ hentry)
    intro i hi w hw
    -- an earlier entry has another name
    have hilt : i < (rootEntries files).length := by
      rw [rootEntries, List.length_cons, List.length_cons, List.length_map, List.length_zipIdx]
      omega
    have hei := List.getElem?_eq_getElem hilt
    have hkey := hslot _ _ hei
    rw [SlotTable.Holds, hkey] at hw
    obtain ⟨hname, _⟩ := Prod.mk.inj (Option.some.inj (Option.some.inj hw))
    have hsame : ((rootEntries files).map Prod.snd)[i]? = ((rootEntries files).map Prod.snd)[2 + j]? := by
      rw [List.getElem?_map, List.getElem?_map, hei, hentry, Option.map_some, Option.map_some, hname]
    have heq := (List.getElem?_inj (by rw [List.length_map]; exact hilt) hnodup).1 hsame
    omega
  rw [Dir.dirlookup_eq hdir, hholds.bytesOf, Dir.find_table hwhole, hshort, hfind]
  rfl

/-- **The kernel finds on the image what `mkfs` was given.** -/
theorem kernel_agrees (files : List InputFile) (hin : Input files) :
    ∃ im, main files = some im ∧ Agrees files im := by
  have hN : NINODES = 200 := rfl
  have hM := MAXFILESIZ_eq
  obtain ⟨im₀, hrun₀, h₀⟩ := makeRoot_progress
  obtain ⟨im₁, hrun₁, h₁⟩ := h₀.addFiles files hin.count
    (fun f hf => ⟨hin.plain f hf, by rw [hM]; exact hin.sizes f hf⟩) hin.fits
  rw [List.nil_append] at h₁
  have h := h₁.written hin.count
  generalize him : Mkfs.balloc (fixRoot im₁) (fixRoot im₁).freeblock = im at h
  have hnum : ∀ j f, files[j]? = some f → 2 + j < NINODES := by
    intro j f hj
    have hlt := (List.getElem?_eq_some_iff.1 hj).1
    have hcount := hin.count
    omega
  have hroom := h.room.trans hin.fits
  refine ⟨im, ?_, fun j f hj s r hl => h.dirlookup hin hl hj, fun j f hj s i hl dst off n hoff hn => ?_,
    fun b hb => ?_, fun i hi π h0 => ?_, h.ge, hroom⟩
  · unfold main
    rw [hrun₀]
    show (files.foldlM Mkfs.addFile im₀).bind _ = _
    rw [hrun₁, ← him]
    rfl
  · obtain ⟨hb, ht⟩ := h.files j f hj
    exact h.readi hl (hnum j f hj) hb ht dst hoff hn
  · have hsb := h.superblock
    rw [sb_eq] at hsb
    obtain ⟨hblock, hbit⟩ := BITBLOCK_eq (s := { view im with sb := superblockOf (im.disk 1) }) hsb hb
    have hblock' : BITBLOCK b (superblockOf (im.disk 1)) = 126 := hblock
    rw [hblock', hbit, ← h.disk]
    exact bitSet_bitmapOf im.freeblock b
  · have hstored : ∀ i < NINODES, ∀ π, stored (onDisk im) i π = stored (view im) i π := by
      intro i hi π
      refine stored_of_addrs (fun k hk => ?_) h.disk.symm π
      have haddr : dWord (onDisk im) i (3 + k) = ((view im).body i).blkAddrs k := h.addrs rfl rfl hi k hk
      rw [← haddr]
      simp [onDisk, loadInode, setBody, Dir.dWord]
    rw [hstored i hi π] at h0 ⊢
    obtain ⟨⟨hge, _⟩, hused, huniq⟩ := h.inv.owned i π h0
    have hlt : stored (view im) i π < im.freeblock :=
      of_decide_eq_true ((bitSet_bitmapOf im.freeblock _).symm.trans hused)
    refine ⟨⟨hge, hlt⟩, fun i' hi' π' heq => ?_⟩
    rw [hstored i' hi'] at heq
    exact huniq i' π' heq

/-- Two files, one of them under a name with an underscore. -/
def sampleFiles : List InputFile := [⟨[95, 99, 97, 116], [1, 2, 3]⟩, ⟨[110, 111, 116, 101], []⟩]

theorem kernel_agrees_sampleFiles : ∃ im, main sampleFiles = some im ∧ Agrees sampleFiles im :=
  kernel_agrees sampleFiles
    ⟨by decide, by decide, by decide, by decide, by decide, by decide, by decide, by decide⟩

end Kernel

end WeiOS.Mkfs
