import Mathlib
import WeiOS.Lib.Run
import WeiOS.Lib.SlotTable
import WeiOS.Fs.ByteArray

/-!
# Directories as Maps

The contents of a directory are a table of entries of 16 bytes, in which an entry with inode number 0 is free.
`dirlookup` and `dirlink` are given here on such contents; the functions of the kernel, on directories
whose blocks are there, come down to these.

The key of a name is what an entry keeps of it, its first `DIRSIZ` characters. `strncpy` leaves the bytes
behind the terminator as they were, and `strncmp` does not look at them.

## Main results
- `directory_is_map`: over every sequence of links and unlinks, a directory is a map from keys to inodes.
- `dirlookup_eq`, `dirlink_eq`: the kernel's functions on a directory.
-/

namespace WeiOS.Dir

open WeiOS.Inode WeiOS.Lib

/-! ## §1 Directories as byte arrays -/

/-- A string: the characters before its terminator. -/
structure CStr where
  chars : Name
  nonzero : 0 ∉ chars

/-- What a directory entry keeps of a name. -/
def CStr.key (name : CStr) : Name := name.chars.take DIRSIZ

/-- The entry at offset `off`. -/
def entryAt (D : List (BitVec 8)) (off : Nat) : Block := fun k => D.getD (off + k) 0

/-- The loop of `dirlookup`: the inode number and the offset of the entry. -/
def findFrom (D : List (BitVec 8)) (name : Name) : Nat → Nat → Option (Nat × Nat)
  | 0, _ => none
  | fuel + 1, off =>
    if off < D.length then
      if direntIno (entryAt D off) = 0 then findFrom D name fuel (off + DIRENT)
      else if direntName (entryAt D off) = name.take DIRSIZ then some (direntIno (entryAt D off), off)
      else findFrom D name fuel (off + DIRENT)
    else none

/-- `dirlookup`. -/
def find (D : List (BitVec 8)) (name : Name) : Option (Nat × Nat) := findFrom D name (D.length / DIRENT + 2) 0

/-- The loop of `dirlink`: the offset of the first free entry, and the entry read last. -/
def freeFrom (D : List (BitVec 8)) : Nat → Nat → Block → Nat × Block
  | 0, off, d => (off, d)
  | fuel + 1, off, d =>
    if off < D.length then
      if direntIno (entryAt D off) = 0 then (off, entryAt D off)
      else freeFrom D fuel (off + DIRENT) (entryAt D off)
    else (off, d)

/-- `dirlink`, with `junk` in `direntry` at first. -/
def enter (junk : Block) (D : List (BitVec 8)) (name : Name) (ino : Nat) : Int × List (BitVec 8) :=
  match find D name with
  | some _ => (-1, D)
  | none =>
    let (off, d) := freeFrom D (D.length / DIRENT + 2) 0 junk
    (0, overwrite D off ((List.range DIRENT).map (setDirent d ino name)))

/-- The part of `unlink` that clears the entry that `dirlookup` found. -/
def remove (D : List (BitVec 8)) (name : Name) : Int × List (BitVec 8) :=
  match find D name with
  | none => (-1, D)
  | some (_, off) => (0, overwrite D off (List.replicate DIRENT 0))

/-- What an entry says: a key and its inode number, unless it is free. -/
def slotOf (d : Block) : Option (Name × Nat) :=
  if direntIno d = 0 then none else some (direntName d, direntIno d)

/-- The table of a directory. -/
def table (D : List (BitVec 8)) : List (Option (Name × Nat)) :=
  (List.range (D.length / DIRENT)).map fun j => slotOf (entryAt D (DIRENT * j))

/-- The size is a multiple of the entry size, and the keys of the entries that are not free are distinct. -/
structure WellFormed (D : List (BitVec 8)) : Prop where
  whole : DIRENT ∣ D.length
  distinct : SlotTable.Distinct (table D)

/-! ## §2 Entries -/

section Entries

variable {D : List (BitVec 8)} {d d' : Block} {name : Name} {ino j : Nat}

theorem direntIno_congr (h : ∀ k < DIRENT, d k = d' k) : direntIno d = direntIno d' := by
  unfold direntIno
  rw [h 0 (by decide), h 1 (by decide)]

theorem direntName_congr (h : ∀ k < DIRENT, d k = d' k) : direntName d = direntName d' := by
  unfold direntName
  congr 1
  apply List.map_congr_left
  intro k hk
  have hlt : k < DIRSIZ := List.mem_range.1 hk
  apply h
  have hsize : DIRENT = 2 + DIRSIZ := rfl
  omega

theorem slotOf_congr (h : ∀ k < DIRENT, d k = d' k) : slotOf d = slotOf d' := by
  unfold slotOf
  rw [direntIno_congr h, direntName_congr h]

theorem direntIno_setDirent (d : Block) (name : Name) (hino : ino < 2 ^ 16) :
    direntIno (setDirent d ino name) = ino := by
  have h0 : setDirent d ino name 0 = BitVec.ofNat 8 ino := rfl
  have h1 : setDirent d ino name 1 = BitVec.ofNat 8 (ino / 2 ^ 8) := rfl
  unfold direntIno
  rw [h0, h1, BitVec.toNat_ofNat, BitVec.toNat_ofNat]
  omega

/-- The characters of a list up to its first zero. -/
theorem takeWhile_of_zero {l l' : List (BitVec 8)} (hl : 0 ∉ l) (hl' : l' = [] ∨ l'.head? = some 0) :
    (l ++ l').takeWhile (· ≠ 0) = l := by
  have hpos : ∀ c ∈ l, decide (c ≠ 0) = true := by
    intro c hc
    apply decide_eq_true
    rintro rfl
    exact hl hc
  rw [List.takeWhile_append_of_pos hpos]
  have hrest : l'.takeWhile (fun c => decide (c ≠ 0)) = [] := by
    rcases hl' with rfl | hhead
    · rfl
    · cases l' with
      | nil => rfl
      | cons c l' =>
        obtain rfl : c = 0 := Option.some.inj hhead
        rfl
  rw [hrest, List.append_nil]

/-- **What `strncpy` stores is the key**, whatever was in the entry before. -/
theorem direntName_setDirent (d : Block) (ino : Nat) (hname : 0 ∉ name) :
    direntName (setDirent d ino name) = name.take DIRSIZ := by
  have hbyte : ∀ k, setDirent d ino name (2 + k) = if k < name.length + 2 then name.getD k 0 else d (2 + k) := by
    intro k
    unfold setDirent
    rw [if_neg (by omega), if_neg (by omega), Nat.add_sub_cancel_left]
    by_cases hk : k < name.length + 2
    · rw [if_pos hk, if_pos (by omega)]
    · rw [if_neg hk, if_neg (by omega)]
  unfold direntName
  generalize hl : (List.range DIRSIZ).map (fun k => setDirent d ino name (2 + k)) = l
  have hlen : l.length = DIRSIZ := by
    rw [← hl, List.length_map, List.length_range]
  have hget : ∀ k < DIRSIZ, l[k]? = some (setDirent d ino name (2 + k)) := by
    intro k hk
    rw [← hl, List.getElem?_map, List.getElem?_range hk]
    rfl
  -- the characters of the name, and then its terminator
  have hsplit : l = name.take DIRSIZ ++ l.drop name.length := by
    apply List.ext_getElem?
    intro k
    by_cases hk : k < (name.take DIRSIZ).length
    · rw [List.getElem?_append_left hk]
      rw [List.length_take] at hk
      rw [hget k (by omega), hbyte, if_pos (by omega), List.getElem?_take_of_lt (by omega), List.getD_eq_getElem?_getD,
        List.getElem?_eq_getElem (by omega : k < name.length)]
      rfl
    · rw [List.getElem?_append_right (Nat.not_lt.1 hk), List.getElem?_drop]
      rw [List.length_take] at hk ⊢
      by_cases hlong : name.length ≤ DIRSIZ
      · congr 1
        omega
      · rw [List.getElem?_eq_none (by omega), List.getElem?_eq_none (by omega)]
  rw [hsplit]
  apply takeWhile_of_zero fun hmem => hname (List.mem_of_mem_take hmem)
  by_cases hshort : name.length < DIRSIZ
  · right
    rw [List.head?_drop, hget _ hshort, hbyte, if_pos (by omega), List.getD_eq_getElem?_getD,
      List.getElem?_eq_none (Nat.le_refl _)]
    rfl
  · left
    rw [List.drop_eq_nil_iff]
    omega

theorem slotOf_setDirent (d : Block) (hino : 0 < ino ∧ ino < 2 ^ 16) (hname : 0 ∉ name) :
    slotOf (setDirent d ino name) = some (name.take DIRSIZ, ino) := by
  unfold slotOf
  rw [direntIno_setDirent d name hino.2, direntName_setDirent d ino hname, if_neg (by omega)]

/-! ## §3 The table -/

theorem length_table (D : List (BitVec 8)) : (table D).length = D.length / DIRENT := by simp [table]

theorem getElem?_table (j : Nat) :
    (table D)[j]? = if j < D.length / DIRENT then some (slotOf (entryAt D (DIRENT * j))) else none := by
  unfold table
  rw [List.getElem?_map]
  by_cases hj : j < D.length / DIRENT
  · rw [if_pos hj, List.getElem?_range hj]
    rfl
  · rw [if_neg hj, List.getElem?_eq_none (by rw [List.length_range]; omega)]
    rfl

/-- The file of a directory consists of whole entries. -/
theorem exists_slots (hD : DIRENT ∣ D.length) : ∃ n, D.length = DIRENT * n ∧ D.length / DIRENT = n := by
  obtain ⟨n, hn⟩ := hD
  refine ⟨n, hn, ?_⟩
  rw [hn]
  exact Nat.mul_div_cancel_left n (by decide)

theorem drop_table_eq_nil {m : Nat} (hm : D.length / DIRENT ≤ m) : (table D).drop m = [] := by
  rwa [List.drop_eq_nil_iff, length_table]

/-- **An entry that is overwritten** is a slot that is put. -/
theorem table_overwrite (hD : DIRENT ∣ D.length) (hj : j ≤ (table D).length) (d : Block) :
    DIRENT ∣ (overwrite D (DIRENT * j) ((List.range DIRENT).map d)).length ∧
      table (overwrite D (DIRENT * j) ((List.range DIRENT).map d)) = SlotTable.put (table D) j (slotOf d) := by
  obtain ⟨n, hn, hslots⟩ := exists_slots hD
  have hE : DIRENT = 16 := rfl
  rw [length_table, hslots] at hj
  have hle : DIRENT * j ≤ D.length := by
    rw [hn, hE]
    omega
  have hbs : ((List.range DIRENT).map d).length = DIRENT := by rw [List.length_map, List.length_range]
  generalize hD' : overwrite D (DIRENT * j) ((List.range DIRENT).map d) = D'
  have hlen : D'.length = DIRENT * max n (j + 1) := by
    rw [← hD', length_overwrite hle, hbs, hn, hE]
    omega
  have hslots' : D'.length / DIRENT = max n (j + 1) := by
    rw [hlen, hE]
    omega
  refine ⟨⟨_, hlen⟩, ?_⟩
  have hentry : ∀ i k, k < DIRENT → entryAt D' (DIRENT * i) k = if i = j then d k else entryAt D (DIRENT * i) k := by
    intro i k hk
    unfold entryAt
    rw [List.getD_eq_getElem?_getD, ← hD', getElem?_overwrite hle, hbs]
    by_cases hi : i = j
    · subst hi
      rw [if_pos rfl, if_pos (by omega), Nat.add_sub_cancel_left, List.getElem?_map, List.getElem?_range hk]
      rfl
    · rw [if_neg hi, if_neg (by rw [hE] at hk ⊢; omega), List.getD_eq_getElem?_getD]
  apply List.ext_getElem?
  intro i
  rw [SlotTable.getElem?_put (by rw [length_table, hslots]; exact hj), getElem?_table, getElem?_table, hslots, hslots']
  by_cases hi : i = j
  · subst hi
    rw [if_pos (by omega), if_pos rfl]
    exact congrArg some (slotOf_congr fun k hk => (hentry i k hk).trans (if_pos rfl))
  · rw [if_neg hi]
    by_cases hin : i < n
    · rw [if_pos (by omega), if_pos hin]
      exact congrArg some (slotOf_congr fun k hk => (hentry i k hk).trans (if_neg hi))
    · rw [if_neg (by omega), if_neg hin]

theorem drop_table {m : Nat} (hm : m < D.length / DIRENT) :
    (table D).drop m = slotOf (entryAt D (DIRENT * m)) :: (table D).drop (m + 1) := by
  have hlt : m < (table D).length := by rw [length_table]; exact hm
  rw [List.drop_eq_getElem_cons hlt]
  congr 1
  have hget := getElem?_table (D := D) m
  rw [if_pos hm, List.getElem?_eq_getElem hlt] at hget
  exact Option.some.inj hget

/-- The loop of `dirlookup`, by induction on the rounds that are left. -/
theorem findFrom_table (hD : DIRENT ∣ D.length) (name : Name) (fuel m : Nat)
    (hfuel : D.length / DIRENT < m + fuel) :
    findFrom D name fuel (DIRENT * m) =
      (SlotTable.find (name.take DIRSIZ) ((table D).drop m)).map fun p => (p.2, DIRENT * (m + p.1)) := by
  obtain ⟨n, hn, hslots⟩ := exists_slots hD
  have hE : DIRENT = 16 := rfl
  rw [hslots] at hfuel
  induction fuel generalizing m with
  | zero =>
    have hnil : (table D).drop m = [] := drop_table_eq_nil (by omega)
    rw [hnil]
    rfl
  | succ fuel ih =>
    unfold findFrom
    by_cases hlt : m < n
    · rw [if_pos (by rw [hn, hE]; omega), drop_table (by omega)]
      have hnext : DIRENT * m + DIRENT = DIRENT * (m + 1) := by rw [Nat.mul_succ]
      have hshift : findFrom D name fuel (DIRENT * (m + 1)) =
          ((SlotTable.find (name.take DIRSIZ) ((table D).drop (m + 1))).map fun p => (p.1 + 1, p.2)).map
            fun p => (p.2, DIRENT * (m + p.1)) := by
        rw [ih (m + 1) (by omega), Option.map_map]
        congr 1
        funext p
        simp only [Function.comp_apply, Prod.mk.injEq, true_and]
        congr 1
        omega
      rw [hnext, hshift]
      unfold slotOf
      by_cases hfree : direntIno (entryAt D (DIRENT * m)) = 0
      · rw [if_pos hfree, if_pos hfree]
        rfl
      · rw [if_neg hfree, if_neg hfree, SlotTable.find_cons_some]
        by_cases hkey : direntName (entryAt D (DIRENT * m)) = name.take DIRSIZ
        · rw [if_pos hkey, if_pos hkey]
          rfl
        · rw [if_neg hkey, if_neg hkey]
    · have hnil : (table D).drop m = [] := drop_table_eq_nil (by omega)
      rw [if_neg (by rw [hn, hE]; omega), hnil]
      rfl

theorem find_table (hD : DIRENT ∣ D.length) (name : Name) :
    find D name = (SlotTable.find (name.take DIRSIZ) (table D)).map fun p => (p.2, DIRENT * p.1) := by
  have hloop := findFrom_table hD name (D.length / DIRENT + 2) 0 (by omega)
  rw [Nat.mul_zero, List.drop_zero] at hloop
  simp only [Nat.zero_add] at hloop
  exact hloop

/-- The loop of `dirlink`, by induction on the rounds that are left. -/
theorem freeFrom_table (hD : DIRENT ∣ D.length) (fuel m : Nat) (d : Block) (hm : m ≤ D.length / DIRENT)
    (hfuel : D.length / DIRENT < m + fuel) :
    (freeFrom D fuel (DIRENT * m) d).1 = DIRENT * (m + SlotTable.free ((table D).drop m)) := by
  obtain ⟨n, hn, hslots⟩ := exists_slots hD
  have hE : DIRENT = 16 := rfl
  rw [hslots] at hfuel hm
  induction fuel generalizing m d with
  | zero => omega
  | succ fuel ih =>
    unfold freeFrom
    by_cases hlt : m < n
    · rw [if_pos (by rw [hn, hE]; omega), drop_table (by omega)]
      unfold slotOf
      by_cases hfree : direntIno (entryAt D (DIRENT * m)) = 0
      · rw [if_pos hfree, if_pos hfree]
        rfl
      · rw [if_neg hfree, if_neg hfree, SlotTable.free_cons_some, ← Nat.mul_succ,
          ih (m + 1) _ (by omega) (by omega)]
        congr 1
        omega
    · have hnil : (table D).drop m = [] := drop_table_eq_nil (by omega)
      rw [if_neg (by rw [hn, hE]; omega), hnil]
      rfl

/-! ## §4 Links and unlinks -/

/-- A step of a directory: a link of an inode number of 16 bits, or an unlink. -/
inductive DirOp where
  | link (junk : Block) (name : CStr) (ino : Nat) (hino : 0 < ino ∧ ino < 2 ^ 16)
  | unlink (name : CStr)

/-- What a step returns, and the directory after it. -/
def DirOp.run (D : List (BitVec 8)) : DirOp → Int × List (BitVec 8)
  | .link junk name ino _ => enter junk D name.chars ino
  | .unlink name => remove D name.chars

def dirStep (D : List (BitVec 8)) (op : DirOp) : Except Empty (List (BitVec 8)) := .ok (op.run D).2

/-- What `dirlookup` reports is an entry of the directory with the key of the name. -/
def FindOk (D : List (BitVec 8)) : Prop :=
  ∀ (name : CStr) (ino off : Nat), find D name.chars = some (ino, off) →
    DIRENT ∣ off ∧ off + DIRENT ≤ D.length ∧ ino ≠ 0 ∧ direntIno (entryAt D off) = ino ∧
      direntName (entryAt D off) = name.key

/-- The effect of a step on the map from keys to inodes: keys stay distinct, and only the key of the step
    changes, unless it was there to be linked. -/
def DirOpOk (D : List (BitVec 8)) (op : DirOp) (D' : List (BitVec 8)) : Prop :=
  WellFormed D' ∧ FindOk D' ∧
    match op with
    | .link _ name ino _ =>
      if (find D name.chars).isSome then (op.run D).1 = -1 ∧ D' = D
      else (op.run D).1 = 0 ∧ (∃ off, find D' name.chars = some (ino, off)) ∧
        ∀ name' : CStr, name'.key ≠ name.key → find D' name'.chars = find D name'.chars
    | .unlink name =>
      ((op.run D).1 = 0 ↔ (find D name.chars).isSome) ∧ find D' name.chars = none ∧
        ∀ name' : CStr, name'.key ≠ name.key → find D' name'.chars = find D name'.chars

theorem WellFormed.findOk (h : WellFormed D) : FindOk D := by
  intro name ino off hfind
  rw [find_table h.whole] at hfind
  obtain ⟨⟨j, v⟩, hslot, heq⟩ := Option.map_eq_some_iff.1 hfind
  obtain ⟨rfl, rfl⟩ := Prod.mk.inj heq
  have hj := SlotTable.holds_of_find hslot
  unfold SlotTable.Holds at hj
  rw [getElem?_table] at hj
  by_cases hlt : j < D.length / DIRENT
  · rw [if_pos hlt] at hj
    have hentry := Option.some.inj hj
    unfold slotOf at hentry
    by_cases hfree : direntIno (entryAt D (DIRENT * j)) = 0
    · rw [if_pos hfree] at hentry
      cases hentry
    · rw [if_neg hfree] at hentry
      obtain ⟨hname, hino⟩ := Prod.mk.inj (Option.some.inj hentry)
      dsimp only
      refine ⟨Nat.dvd_mul_right _ _, ?_, ?_, hino, hname⟩
      · have hE : DIRENT = 16 := rfl
        rw [hE] at hlt ⊢
        omega
      · rw [← hino]
        exact hfree
  · rw [if_neg hlt] at hj
    cases hj

/-- **A link** of a name that is not there. -/
theorem WellFormed.enter (h : WellFormed D) (junk : Block) (name : CStr) (hino : 0 < ino ∧ ino < 2 ^ 16)
    (hnew : find D name.chars = none) :
    ∃ d, Dir.enter junk D name.chars ino =
        (0, overwrite D (DIRENT * SlotTable.free (table D)) ((List.range DIRENT).map d)) ∧
      slotOf d = some (name.key, ino) := by
  have hfree := freeFrom_table h.whole (D.length / DIRENT + 2) 0 junk (Nat.zero_le _) (by omega)
  rw [Nat.mul_zero, List.drop_zero, Nat.zero_add] at hfree
  unfold Dir.enter
  rw [hnew]
  generalize freeFrom D (D.length / DIRENT + 2) 0 junk = out at hfree
  obtain ⟨off, d⟩ := out
  dsimp only at hfree ⊢
  rw [hfree]
  exact ⟨_, rfl, slotOf_setDirent d hino name.nonzero⟩

theorem find_none_table (hD : DIRENT ∣ D.length) (name : CStr) :
    find D name.chars = none ↔ SlotTable.find name.key (table D) = none := by
  rw [find_table hD, Option.map_eq_none_iff]
  rfl

/-- A link keeps directories well formed. -/
theorem WellFormed.link_ok (h : WellFormed D) (junk : Block) (name : CStr) (hino : 0 < ino ∧ ino < 2 ^ 16) :
    DirOpOk D (.link junk name ino hino) ((DirOp.link junk name ino hino).run D).2 := by
  show DirOpOk D _ (Dir.enter junk D name.chars ino).2
  cases hfind : find D name.chars with
  | some p =>
    have hrun : Dir.enter junk D name.chars ino = (-1, D) := by
      unfold Dir.enter
      rw [hfind]
    rw [hrun]
    refine ⟨h, h.findOk, ?_⟩
    show if (find D name.chars).isSome then (Dir.enter junk D name.chars ino).1 = -1 ∧ D = D else _
    rw [hfind, if_pos Option.isSome_some, hrun]
    exact ⟨rfl, rfl⟩
  | none =>
    obtain ⟨d, hrun, hslot⟩ := h.enter junk name hino hfind
    have hnew := (find_none_table h.whole name).1 hfind
    obtain ⟨hle, _⟩ := SlotTable.free_spec (table D)
    obtain ⟨hwhole, htable⟩ := table_overwrite h.whole hle d
    rw [hslot] at htable
    rw [hrun]
    dsimp only
    generalize overwrite D (DIRENT * SlotTable.free (table D)) ((List.range DIRENT).map d) = D' at hwhole htable hrun
    have h' : WellFormed D' := by
      refine ⟨hwhole, ?_⟩
      rw [htable]
      exact h.distinct.put hle hnew ino
    refine ⟨h', h'.findOk, ?_⟩
    show if (find D name.chars).isSome then _ else (Dir.enter junk D name.chars ino).1 = 0 ∧ _
    rw [hfind, if_neg Bool.noConfusion, hrun]
    refine ⟨rfl, ⟨DIRENT * SlotTable.free (table D), ?_⟩, fun name' hkey => ?_⟩
    · rw [find_table hwhole, htable]
      have hself := SlotTable.find_put_some name.key h.distinct hnew ino
      rw [if_pos rfl] at hself
      exact congrArg (Option.map fun p => (p.2, DIRENT * p.1)) hself
    · rw [find_table hwhole, htable, find_table h.whole]
      have hother := SlotTable.find_put_some name'.key h.distinct hnew ino
      rw [if_neg hkey] at hother
      exact congrArg (Option.map fun p => (p.2, DIRENT * p.1)) hother

/-- An unlink keeps directories well formed. -/
theorem WellFormed.unlink_ok (h : WellFormed D) (name : CStr) :
    DirOpOk D (.unlink name) ((DirOp.unlink name).run D).2 := by
  show DirOpOk D _ (remove D name.chars).2
  have hres : ∀ D', ((DirOp.unlink name).run D).1 = (remove D name.chars).1 → WellFormed D' →
      ((remove D name.chars).1 = 0 ↔ (find D name.chars).isSome) → find D' name.chars = none →
      (∀ name' : CStr, name'.key ≠ name.key → find D' name'.chars = find D name'.chars) →
      DirOpOk D (.unlink name) D' := fun D' hrun h' hret hgone hother => ⟨h', h'.findOk, hret, hgone, hother⟩
  cases hfind : find D name.chars with
  | none =>
    have hrun : remove D name.chars = (-1, D) := by
      unfold remove
      rw [hfind]
    apply hres _ rfl
    · rw [hrun]
      exact h
    · rw [hrun, hfind]
      exact ⟨fun hc => absurd (show (-1 : Int) = 0 from hc) (by decide), fun hc => nomatch hc⟩
    · rw [hrun]
      exact hfind
    · rw [hrun]
      exact fun _ _ => rfl
  | some p =>
    rw [find_table h.whole] at hfind
    obtain ⟨⟨j, v⟩, hslot, rfl⟩ := Option.map_eq_some_iff.1 hfind
    have hrun : remove D name.chars = (0, overwrite D (DIRENT * j) ((List.range DIRENT).map fun _ => 0)) := by
      unfold remove
      rw [find_table h.whole, hslot]
      rfl
    have hle : j ≤ (table D).length := by
      by_contra hlt
      have hnone : (table D)[j]? = none := List.getElem?_eq_none (by omega)
      exact Option.some_ne_none _ ((SlotTable.holds_of_find hslot).symm.trans hnone)
    obtain ⟨hwhole, htable⟩ := table_overwrite h.whole hle fun _ => 0
    have hfree : slotOf (fun _ => 0) = none := rfl
    rw [hfree] at htable
    have hgone : ∀ k', SlotTable.find k' (SlotTable.put (table D) j none) =
        if k' = name.key then none else SlotTable.find k' (table D) :=
      fun k' => SlotTable.find_put_none h.distinct hslot
    rw [hrun]
    apply hres _ rfl
    · refine ⟨hwhole, ?_⟩
      rw [htable]
      exact h.distinct.clear hle
    · rw [hrun, find_table h.whole, hslot]
      exact ⟨fun _ => rfl, fun _ => rfl⟩
    · rw [find_none_table hwhole, htable, hgone, if_pos rfl]
    · intro name' hkey
      rw [find_table hwhole, htable, find_table h.whole]
      have hother := hgone name'.key
      rw [if_neg hkey] at hother
      exact congrArg (Option.map fun p => (p.2, DIRENT * p.1)) hother

/-- **Directories are maps**: over every sequence of links and unlinks. -/
theorem directory_is_map (h : WellFormed D) (ops : List DirOp) : Along dirStep DirOpOk D ops := by
  apply along_of_inv WellFormed _ h
  intro D op h
  have hok : DirOpOk D op (op.run D).2 := by
    cases op with
    | link junk name ino hino => exact h.link_ok junk name hino
    | unlink name => exact h.unlink_ok name
  exact ⟨_, rfl, hok, hok.1⟩

end Entries

theorem emptyDirectory_wellFormed : WellFormed [] :=
  ⟨Dvd.intro_left 0 rfl, fun _ _ _ _ _ hj => absurd hj SlotTable.not_holds_nil⟩

/-- A name that is linked, and linked again after an unlink. -/
theorem directory_is_map_empty : Along dirStep DirOpOk []
    [.link (fun _ => 1) ⟨[97], by decide⟩ 5 (by decide), .unlink ⟨[97], by decide⟩,
      .link (fun _ => 1) ⟨[97], by decide⟩ 6 (by decide)] :=
  directory_is_map emptyDirectory_wellFormed _

/-! ## §5 The directories of the kernel -/

section Kernel

variable {s : Kern} {i off : Nat}

/-- The contents of a file whose blocks are there. -/
def bytesOf (fs : FileSys) (i : Nat) : List (BitVec 8) := (List.range (fs.body i).fileSiz).map (byteAt fs i)

theorem length_bytesOf (fs : FileSys) (i : Nat) : (bytesOf fs i).length = (fs.body i).fileSiz := by simp [bytesOf]

theorem contents_eq_bytesOf (halloc : Allocated s.fs i) : contents s.fs i = (bytesOf s.fs i).map some := by
  unfold contents bytesOf
  rw [List.map_map]
  apply List.map_congr_left
  intro k hk
  exact fileByte_of_mapped (halloc k (List.mem_range.1 hk))

/-- A directory whose blocks are there, with whole entries. -/
structure Readable (s : Kern) (i : Nat) : Prop where
  dir : (s.node i).type = T_DIR
  size : (s.body i).fileSiz ≤ MAXFILESIZ
  alloc : Allocated s.fs i
  whole : DIRENT ∣ (bytesOf s.fs i).length

/-- `readi` of an entry. -/
theorem Readable.readi_entry (h : Readable s i) (dst : Block) (hoff : off < (bytesOf s.fs i).length)
    (hdvd : DIRENT ∣ off) :
    ∃ d, readi i dst off DIRENT s = .ok (((DIRENT : Int), d), s) ∧
      (∀ k < DIRENT, d k = entryAt (bytesOf s.fs i) off k) ∧ ∀ k, DIRENT ≤ k → d k = dst k := by
  have hM : MAXFILESIZ = 4239360 := by decide
  have hE : DIRENT = 16 := rfl
  have hsize := h.size
  have hdev : (s.node i).type ≠ T_DEV := by
    rw [h.dir]
    decide
  have hfits : off + DIRENT ≤ (s.body i).fileSiz := by
    obtain ⟨m, rfl⟩ := hdvd
    obtain ⟨n, hn⟩ := h.whole
    rw [hn, hE] at hoff
    have hlen := length_bytesOf s.fs i
    have hbody : (s.body i).fileSiz = (s.fs.body i).fileSiz := rfl
    rw [hbody, ← hlen, hn, hE]
    omega
  have hread := readi_contents hdev hsize h.alloc (by omega : off < 2 ^ 32) (by omega : DIRENT < 2 ^ 32) dst
  have hgood : ¬ ((s.body i).fileSiz < off ∨ 2 ^ 32 ≤ off + DIRENT) := by omega
  have hmin : min DIRENT ((s.body i).fileSiz - off) = DIRENT := by omega
  rw [if_neg hgood, hmin, contents_eq_bytesOf h.alloc] at hread
  obtain ⟨d, hrun, hbytes, hrest⟩ := hread
  refine ⟨d, hrun, fun k hk => ?_, hrest⟩
  have hget := congrArg (fun l : List (Option (BitVec 8)) => l[k]?) hbytes
  have hlt : off + k < (bytesOf s.fs i).length := by
    rw [length_bytesOf]
    show off + k < (s.body i).fileSiz
    omega
  rw [List.getElem?_map, List.getElem?_range hk, List.getElem?_take_of_lt hk, List.getElem?_drop, List.getElem?_map,
    List.getElem?_eq_getElem hlt] at hget
  have hval : d k = (bytesOf s.fs i)[off + k] := Option.some.inj (Option.some.inj hget)
  unfold entryAt
  rw [hval, List.getD_eq_getElem _ _ hlt]

/-- The loop of `dirlookup` in a directory, by induction on the rounds that are left. -/
theorem Readable.dirlookupFrom_eq (h : Readable s i) (name : Name) (fuel : Nat) (hdvd : DIRENT ∣ off)
    (hfuel : (bytesOf s.fs i).length < off + DIRENT * fuel) (hoff : off ≤ (bytesOf s.fs i).length) :
    dirlookupFrom i name fuel off s =
      match findFrom (bytesOf s.fs i) name fuel off with
      | some (ino, o) => (do
          let ip ← iget (s.node i).dev ino
          pure (0, some (ip, o)) : FsM (Int × Option (Nat × Nat))) s
      | none => .ok ((-E_FILE_EXISTS, none), s) := by
  have hM : MAXFILESIZ = 4239360 := by decide
  have hE : DIRENT = 16 := rfl
  have hlen : (bytesOf s.fs i).length = (s.body i).fileSiz := length_bytesOf s.fs i
  have hsize := h.size
  induction fuel generalizing off with
  | zero => omega
  | succ fuel ih =>
    unfold dirlookupFrom findFrom
    by_cases hlt : off < (bytesOf s.fs i).length
    · obtain ⟨d, hread, hd, _⟩ := h.readi_entry s.junk hlt hdvd
      have hend : off + DIRENT ≤ (bytesOf s.fs i).length := by
        obtain ⟨m, rfl⟩ := hdvd
        obtain ⟨n, hn⟩ := h.whole
        rw [hn, hE] at hlt ⊢
        omega
      have hwrap : (off + DIRENT) % 2 ^ 32 = off + DIRENT := Nat.mod_eq_of_lt (by omega)
      have hrec := ih (Nat.dvd_add hdvd (Nat.dvd_refl _)) (by rw [hE] at hfuel ⊢; omega) hend
      rw [if_pos hlt]
      show (if off < (s.body i).fileSiz then _ else _ : FsM _) s = _
      rw [if_pos (by omega), Lib.run_bind_of_ok hread]
      dsimp only
      rw [if_neg (by decide), hwrap, direntIno_congr hd, direntName_congr hd]
      by_cases hfree : direntIno (entryAt (bytesOf s.fs i) off) = 0
      · rw [if_pos hfree, if_pos hfree]
        exact hrec
      · rw [if_neg hfree, if_neg hfree]
        by_cases hkey : direntName (entryAt (bytesOf s.fs i) off) = name.take DIRSIZ
        · rw [if_pos hkey, if_pos hkey]
        · rw [if_neg hkey, if_neg hkey]
          exact hrec
    · rw [if_neg hlt]
      show (if off < (s.body i).fileSiz then _ else _ : FsM _) s = _
      rw [if_neg (by omega)]
      rfl

/-- **`dirlookup`** in a directory of the kernel. -/
theorem dirlookup_eq (h : Readable s i) (name : Name) :
    dirlookup i name s =
      match find (bytesOf s.fs i) name with
      | some (ino, off) => (do
          let ip ← iget (s.node i).dev ino
          pure (0, some (ip, off)) : FsM (Int × Option (Nat × Nat))) s
      | none => .ok ((-E_FILE_EXISTS, none), s) := by
  have hlen : (bytesOf s.fs i).length = (s.body i).fileSiz := length_bytesOf s.fs i
  have hE : DIRENT = 16 := rfl
  unfold dirlookup find
  show (if (s.node i).type ≠ T_DIR then _ else _ : FsM _) s = _
  rw [if_neg (not_not.2 h.dir), hlen]
  apply h.dirlookupFrom_eq name _ (Dvd.intro_left 0 (Nat.zero_mul _))
  · rw [hlen, hE]
    omega
  · exact Nat.zero_le _

/-- The loop of `dirlink` in a directory, by induction on the rounds that are left. -/
theorem Readable.freeDirent_eq (h : Readable s i) (fuel : Nat) {d d₀ : Block} (hd : ∀ k < DIRENT, d k = d₀ k)
    (hdvd : DIRENT ∣ off) (hfuel : (bytesOf s.fs i).length < off + DIRENT * fuel)
    (hoff : off ≤ (bytesOf s.fs i).length) :
    ∃ d', freeDirent i fuel off d s = .ok (((freeFrom (bytesOf s.fs i) fuel off d₀).1, d'), s) ∧
      (∀ k < DIRENT, d' k = (freeFrom (bytesOf s.fs i) fuel off d₀).2 k) ∧
      (freeFrom (bytesOf s.fs i) fuel off d₀).1 ≤ (bytesOf s.fs i).length := by
  have hM : MAXFILESIZ = 4239360 := by decide
  have hE : DIRENT = 16 := rfl
  have hlen : (bytesOf s.fs i).length = (s.body i).fileSiz := length_bytesOf s.fs i
  have hsize := h.size
  induction fuel generalizing off d d₀ with
  | zero => omega
  | succ fuel ih =>
    unfold freeDirent freeFrom
    by_cases hlt : off < (bytesOf s.fs i).length
    · obtain ⟨d₁, hread, hd₁, _⟩ := h.readi_entry d hlt hdvd
      have hend : off + DIRENT ≤ (bytesOf s.fs i).length := by
        obtain ⟨m, rfl⟩ := hdvd
        obtain ⟨n, hn⟩ := h.whole
        rw [hn, hE] at hlt ⊢
        omega
      have hwrap : (off + DIRENT) % 2 ^ 32 = off + DIRENT := Nat.mod_eq_of_lt (by omega)
      rw [if_pos hlt]
      show ∃ d', (if off < (s.body i).fileSiz then _ else _ : FsM _) s = _ ∧ _
      rw [if_pos (by omega), Lib.run_bind_of_ok hread]
      dsimp only
      rw [if_neg (by decide), hwrap, direntIno_congr hd₁]
      by_cases hfree : direntIno (entryAt (bytesOf s.fs i) off) = 0
      · rw [if_pos hfree, if_pos hfree]
        exact ⟨d₁, rfl, hd₁, hoff⟩
      · rw [if_neg hfree, if_neg hfree]
        exact ih hd₁ (Nat.dvd_add hdvd (Nat.dvd_refl _)) (by rw [hE] at hfuel ⊢; omega) hend
    · rw [if_neg hlt]
      show ∃ d', (if off < (s.body i).fileSiz then _ else _ : FsM _) s = _ ∧ _
      rw [if_neg (by omega)]
      exact ⟨d, rfl, hd, hoff⟩

theorem map_overwrite {α β : Type} (f : α → β) (l bs : List α) (off : Nat) :
    (overwrite l off bs).map f = overwrite (l.map f) off (bs.map f) := by
  unfold overwrite
  rw [List.map_append, List.map_append, List.map_take, List.map_drop, List.length_map]

/-- Room for some bytes is room for the first of them. -/
theorem Room.mono {fs : FileSys} {n n' : Nat} (hle : n ≤ n') (h : Room fs i (placesOf n')) : Room fs i (placesOf n) := by
  have hblocks : (n + BLKSIZE - 1) / BLKSIZE ≤ (n' + BLKSIZE - 1) / BLKSIZE := Nat.div_le_div_right (by omega)
  have hsub : placesOf n ⊆ placesOf n' :=
    Finset.biUnion_subset_biUnion_of_subset_left _ (Finset.range_subset_range.2 hblocks)
  exact (Finset.card_le_card (Finset.filter_subset_filter _ hsub)).trans h

/-- **`dirlink`** of a name that is not there and fits, in a directory of the kernel. -/
theorem dirlink_eq (h : Readable s i) (hinv : FsInv s.fs) (name : CStr) (ino : Nat)
    (hfits : name.chars.length + 2 ≤ DIRSIZ) (hnew : find (bytesOf s.fs i) name.chars = none)
    (hmax : (bytesOf s.fs i).length + DIRENT ≤ MAXFILESIZ)
    (hroom : Room s.fs i (placesOf ((bytesOf s.fs i).length + DIRENT))) :
    ∃ fs, dirlink i name.chars ino s = .ok (0, { s with fs := fs }) ∧ FsInv fs ∧
      bytesOf fs i = (enter s.junk (bytesOf s.fs i) name.chars ino).2 ∧
      ∀ i', i' ≠ i → contents fs i' = contents s.fs i' := by
  have hM : MAXFILESIZ = 4239360 := by decide
  have hE : DIRENT = 16 := rfl
  have hlen : (bytesOf s.fs i).length = (s.body i).fileSiz := length_bytesOf s.fs i
  have hdev : (s.node i).type ≠ T_DEV := by
    rw [h.dir]
    decide
  have hlookup : dirlookup i name.chars s = .ok ((-E_FILE_EXISTS, none), s) := by
    rw [dirlookup_eq h, hnew]
  obtain ⟨d, hloop, hd, hoff⟩ := h.freeDirent_eq ((s.body i).fileSiz / DIRENT + 2) (d := s.junk) (fun _ _ => rfl)
    (Dvd.intro_left 0 (Nat.zero_mul _)) (by rw [hlen, hE]; omega) (Nat.zero_le _)
  -- the array has the same free entry
  have henter : (enter s.junk (bytesOf s.fs i) name.chars ino).2 =
      overwrite (bytesOf s.fs i) (freeFrom (bytesOf s.fs i) ((s.body i).fileSiz / DIRENT + 2) 0 s.junk).1
        ((List.range DIRENT).map (setDirent d ino name.chars)) := by
    unfold enter
    rw [hnew, hlen]
    dsimp only
    congr 1
    apply List.map_congr_left
    intro k hk
    unfold setDirent
    rw [hd k (List.mem_range.1 hk)]
  rw [henter]
  generalize (freeFrom (bytesOf s.fs i) ((s.body i).fileSiz / DIRENT + 2) 0 s.junk).1 = off at hloop hoff
  have hfit : fitting off DIRENT = DIRENT := by
    unfold fitting
    omega
  have hbytes := readi_writei_contents hinv hdev h.alloc
  obtain ⟨fs, hwrite, hfs, halloc, hsize, hcont, hothers⟩ := hbytes.write (setDirent d ino name.chars) off DIRENT
    (by omega) (by omega) (by rw [hfit]; exact Room.mono (by omega) hroom)
  refine ⟨fs, ?_, hfs, ?_, hothers⟩
  · unfold dirlink
    rw [Lib.run_bind_of_ok hlookup]
    dsimp only
    rw [if_neg (by decide)]
    show (do
      let (off, d) ← freeDirent i ((s.body i).fileSiz / DIRENT + 2) 0 s.junk
      if DIRSIZ < name.chars.length + 2 then throw .overflow
      else
        let r ← writei i (setDirent d ino name.chars) off DIRENT
        if r ≠ DIRENT then throw .panic else pure 0 : FsM Int) s = _
    rw [Lib.run_bind_of_ok hloop]
    dsimp only
    rw [if_neg (by omega), Lib.run_bind_of_ok hwrite, hfit]
    rfl
  · rw [contents_eq_bytesOf h.alloc, hfit] at hcont
    have hafter : contents fs i = (bytesOf fs i).map some :=
      contents_eq_bytesOf (s := { s with fs := fs }) halloc
    rw [hafter] at hcont
    apply List.map_injective_iff.2 (Option.some_injective _)
    rw [hcont, map_overwrite, List.map_map]
    rfl

end Kernel

end WeiOS.Dir
