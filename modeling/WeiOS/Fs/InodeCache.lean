import Mathlib
import WeiOS.Lib.Run

/-!
# The In-Memory Inode Cache

Models `icache` of `kern/inode.c`: `inode_init`, `find_inode_in_hash`, `put_inode_in_hash`, `iget`,
`iput` and `iref`. An inode structure is an index below `NINODE`; the intrusive lists are Lean lists
of these indices, so a structure is linked into a list exactly when it is a member of it.

A released inode keeps its place in its hash chain while it waits on the free list. `iget` looks
only at the first entry of the chain with the requested identity, so a released entry hides a
referenced one behind it.

## Main results
- `iget_hit_inv`, `iget_miss_inv`: the two paths of `iget` keep the cache invariant.
- `unique_iff_notShadowed`: a run keeps in-memory inodes unique exactly when no `iget` meets a
  released entry that hides a referenced one.
-/

namespace WeiOS.InodeCache

open WeiOS.Lib

/-! ## §1 The cache -/

/-- Maximum number of active inodes (`include/param.h`). -/
def NINODE : Nat := 60

/-- Number of hash chains (`include/buffer.h`). -/
def HASHSLOT : Nat := 7

/-- `struct inode`, as far as the cache reads it. -/
structure Inode where
  dev : Nat
  ino : Nat
  ref : Nat
  valid : Bool
  type : Nat
  nlink : Nat
deriving DecidableEq, Repr, Inhabited

/-- The global `icache` with the inode structures themselves. -/
structure Icache where
  inode : Nat → Inode
  freeList : List Nat
  hashTable : Nat → List Nat
  locked : Bool

/-- `spin_lock_irqsave` panics when the lock is already held. -/
inductive Fault where
  | deadlock
deriving DecidableEq, Repr

/-- `inode_init`: all structures are zeroed and pushed on the free list one after the other. -/
def inodeInit : Icache where
  inode := fun _ => ⟨0, 0, 0, false, 0, 0⟩
  freeList := (List.range NINODE).reverse
  hashTable := fun _ => []
  locked := false

/-! ## §2 The source functions -/

/-- `icache_hash_func`, in 32-bit arithmetic. -/
def icacheHashFunc (dev ino : Nat) : Nat :=
  (dev * 5 + ino) % 2 ^ 32 % HASHSLOT

/-- The identity test of `find_inode_in_hash`. -/
def Inode.is (i : Inode) (dev ino : Nat) : Bool :=
  i.dev == dev && i.ino == ino

/-- `find_inode_in_hash`: the first entry of the chain with this identity. -/
def findInodeInHash (c : Icache) (dev ino : Nat) : Option Nat :=
  (c.hashTable (icacheHashFunc dev ino)).find? (fun i => (c.inode i).is dev ino)

/-- `list_del(&i->hash_node)`. -/
def delFromHash (c : Icache) (i : Nat) : Nat → List Nat :=
  fun k => (c.hashTable k).erase i

/-- `put_inode_in_hash`: the inode goes to the back of its chain. -/
def putInodeInHash (c : Icache) (i : Nat) : Icache :=
  let slot := icacheHashFunc (c.inode i).dev (c.inode i).ino
  { c with hashTable := Function.update c.hashTable slot (c.hashTable slot ++ [i]) }

/-- The hit path of `iget`. -/
def igetHit (c : Icache) (i : Nat) : Icache :=
  { c with
    inode := Function.update c.inode i
      { c.inode i with ref := ((c.inode i).ref + 1) % 2 ^ 32 }
    freeList := c.freeList.erase i }

/-- The miss path of `iget`: the head `i` of the free list is recycled for the new identity. -/
def igetMiss (c : Icache) (i : Nat) (rest : List Nat) (dev ino : Nat) : Icache :=
  putInodeInHash
    { c with
      inode := Function.update c.inode i
        { c.inode i with ref := 1, dev := dev, ino := ino, valid := false }
      freeList := rest
      hashTable := delFromHash c i } i

/-- The entry that `iget` accepts as a hit: the first one with this identity, if it is referenced. -/
def igetFinds (c : Icache) (dev ino : Nat) : Option Nat :=
  (findInodeInHash c dev ino).filter (fun i => decide (0 < (c.inode i).ref))

/-- `iget`. When the free list is exhausted it returns 0 without releasing `icache_lock`. -/
def iget (c : Icache) (dev ino : Nat) : Except Fault (Option Nat × Icache) :=
  if c.locked then .error .deadlock
  else
    match igetFinds c dev ino with
    | some i => .ok (some i, igetHit c i)
    | none =>
      match c.freeList with
      | [] => .ok (none, { c with locked := true })
      | i :: rest => .ok (some i, igetMiss c i rest dev ino)

/-- The part of `iput` under the sleep lock: the last reference to an unlinked inode frees it on
    disk (`ifree` and `iupdate` do not touch the cache) and invalidates the structure. -/
def iputFree (i : Inode) : Inode :=
  if i.valid && i.nlink == 0 && i.ref == 1 then { i with type := 0, valid := false } else i

/-- `iput`. -/
def iput (c : Icache) (i : Nat) : Except Fault Icache :=
  if c.locked then .error .deadlock
  else
    let node := iputFree (c.inode i)
    let ref' := (node.ref + (2 ^ 32 - 1)) % 2 ^ 32
    .ok { c with
          inode := Function.update c.inode i { node with ref := ref' }
          freeList := if ref' = 0 then c.freeList ++ [i] else c.freeList }

/-- `iref`. -/
def iref (c : Icache) (i : Nat) : Except Fault Icache :=
  if c.locked then .error .deadlock
  else
    .ok { c with
          inode := Function.update c.inode i
            { c.inode i with ref := ((c.inode i).ref + 1) % 2 ^ 32 } }

/-! ## §3 Runs -/

/-- The operations on the cache. -/
inductive Op where
  | iget (dev ino : Nat)
  | iref (i : Nat)
  | iput (i : Nat)
deriving DecidableEq, Repr

/-- One operation. -/
def step (c : Icache) : Op → Except Fault Icache
  | .iget dev ino => (iget c dev ino).map Prod.snd
  | .iref i => iref c i
  | .iput i => iput c i

/-- A caller of `iref` or `iput` holds a reference; a missing `iget` finds a free structure. -/
def Valid (c : Icache) : Op → Prop
  | .iget dev ino => igetFinds c dev ino = none → c.freeList ≠ []
  | .iref i => i < NINODE ∧ 0 < (c.inode i).ref
  | .iput i => i < NINODE ∧ 0 < (c.inode i).ref

/-- The structure `i` is referenced and stands for the on-disk inode `(dev, ino)`. -/
def Live (c : Icache) (dev ino i : Nat) : Prop :=
  i < NINODE ∧ 0 < (c.inode i).ref ∧ (c.inode i).is dev ino = true

/-- At most one referenced structure for each on-disk inode. -/
def Unique (c : Icache) : Prop :=
  ∀ dev ino i j, Live c dev ino i → Live c dev ino j → i = j

/-- What a step has to satisfy: structures are unique after it, and an `iget` of a referenced inode
    returns the structure that is already there. -/
def StepOk (c : Icache) (o : Op) (c' : Icache) : Prop :=
  Unique c' ∧
    ∀ dev ino i, o = .iget dev ino → Live c dev ino i → iget c dev ino = .ok (some i, c')

/-- In the chain that `iget` searches, a released first entry does not hide a referenced entry with
    the same identity. -/
def NotShadowed (c : Icache) : Op → Prop
  | .iget dev ino =>
    ∀ j, findInodeInHash c dev ino = some j → (c.inode j).ref = 0 →
      ∀ i ∈ c.hashTable (icacheHashFunc dev ino), (c.inode i).is dev ino = true →
        (c.inode i).ref = 0
  | .iref _ => True
  | .iput _ => True

/-- The cache invariant. -/
structure Inv (c : Icache) : Prop where
  unlocked : c.locked = false
  freeNodup : c.freeList.Nodup
  freeRef : ∀ i ∈ c.freeList, i < NINODE ∧ (c.inode i).ref = 0
  chainSlot : ∀ k, ∀ i ∈ c.hashTable k,
    i < NINODE ∧ k = icacheHashFunc (c.inode i).dev (c.inode i).ino
  chainNodup : ∀ k, (c.hashTable k).Nodup
  live : ∀ i < NINODE, 0 < (c.inode i).ref →
    i ∈ c.hashTable (icacheHashFunc (c.inode i).dev (c.inode i).ino)
  unique : Unique c

/-! ## §4 The two paths of `iget` -/

theorem inodeInit_inv : Inv inodeInit where
  unlocked := rfl
  freeNodup := List.nodup_reverse.2 List.nodup_range
  freeRef := by
    intro i hi
    exact ⟨by simpa [inodeInit] using hi, rfl⟩
  chainSlot := by simp [inodeInit]
  chainNodup := by simp [inodeInit]
  live := by simp [inodeInit]
  unique := by
    rintro dev ino i j ⟨_, h, _⟩
    simp [inodeInit] at h

/-- The identity test, spelled out. -/
theorem Inode.is_iff (i : Inode) (dev ino : Nat) :
    i.is dev ino = true ↔ i.dev = dev ∧ i.ino = ino := by
  simp [Inode.is]

/-- The first match in a chain is a member of the chain with the right identity. -/
theorem mem_of_findInodeInHash {c : Icache} {dev ino j : Nat}
    (h : findInodeInHash c dev ino = some j) :
    j ∈ c.hashTable (icacheHashFunc dev ino) ∧ (c.inode j).is dev ino = true := by
  have his := List.find?_some (p := fun i => (c.inode i).is dev ino) h
  exact ⟨List.mem_of_find?_eq_some h, his⟩

theorem igetFinds_some {c : Icache} {dev ino j : Nat} (h : igetFinds c dev ino = some j) :
    findInodeInHash c dev ino = some j ∧ 0 < (c.inode j).ref := by
  obtain ⟨hf, hr⟩ := Option.filter_eq_some_iff.1 h
  exact ⟨hf, by simpa using hr⟩

/-- Under the invariant a hit is a live structure. -/
theorem Inv.live_of_igetFinds {c : Icache} (h : Inv c) {dev ino j : Nat}
    (hj : igetFinds c dev ino = some j) : Live c dev ino j := by
  obtain ⟨hf, hr⟩ := igetFinds_some hj
  obtain ⟨hmem, his⟩ := mem_of_findInodeInHash hf
  exact ⟨(h.chainSlot _ j hmem).1, hr, his⟩

/-- A live structure is in the chain of its identity. -/
theorem Inv.mem_chain_of_live {c : Icache} (h : Inv c) {dev ino i : Nat}
    (hi : Live c dev ino i) : i ∈ c.hashTable (icacheHashFunc dev ino) := by
  obtain ⟨hlt, hr, his⟩ := hi
  obtain ⟨rfl, rfl⟩ := (Inode.is_iff _ _ _).1 his
  exact h.live i hlt hr

/-- If `iget` misses and no entry is shadowed, the identity has no live structure. -/
theorem Inv.not_live_of_miss {c : Icache} (h : Inv c) {dev ino : Nat}
    (hmiss : igetFinds c dev ino = none) (hns : NotShadowed c (.iget dev ino)) (i : Nat) :
    ¬ Live c dev ino i := by
  intro hi
  have hmem := h.mem_chain_of_live hi
  obtain ⟨_, hr, his⟩ := hi
  cases hf : findInodeInHash c dev ino with
  | none =>
    have := List.find?_eq_none.1 hf i hmem
    exact this his
  | some j =>
    have hj0 : (c.inode j).ref = 0 := by
      by_contra hne
      have : igetFinds c dev ino = some j :=
        Option.filter_eq_some_iff.2 ⟨hf, by simpa using Nat.pos_of_ne_zero hne⟩
      rw [hmiss] at this
      cases this
    have := hns j hf hj0 i hmem his
    omega

/-- Changing only the reference count of one structure that is not on the free list keeps the
    invariant, as long as a structure that becomes referenced was referenced before. -/
theorem Inv.setRef {c : Icache} (h : Inv c) {i : Nat} (node : Inode) (hlt : i < NINODE)
    (hpos : 0 < (c.inode i).ref) (hdev : node.dev = (c.inode i).dev)
    (hino : node.ino = (c.inode i).ino) (fl : List Nat)
    (hfl : fl = c.freeList ∨ (node.ref = 0 ∧ fl = c.freeList ++ [i])) :
    Inv { c with inode := Function.update c.inode i node, freeList := fl } := by
  have hnot : i ∉ c.freeList := fun hmem => by
    have := (h.freeRef i hmem).2
    omega
  -- the identities of all structures are what they were
  have hid : ∀ j, (Function.update c.inode i node j).dev = (c.inode j).dev ∧
      (Function.update c.inode i node j).ino = (c.inode j).ino := by
    intro j
    by_cases hj : j = i
    · subst hj
      simp [hdev, hino]
    · simp [hj]
  have hlive : ∀ dev ino j,
      Live { c with inode := Function.update c.inode i node, freeList := fl } dev ino j →
        Live c dev ino j := by
    rintro dev ino j ⟨hj, hr, his⟩
    have his' : (c.inode j).is dev ino = true := by
      rw [Inode.is_iff] at his ⊢
      simpa [(hid j).1, (hid j).2] using his
    by_cases hji : j = i
    · subst hji
      exact ⟨hj, hpos, his'⟩
    · exact ⟨hj, by simpa [hji] using hr, his'⟩
  refine ⟨h.unlocked, ?_, ?_, ?_, h.chainNodup, ?_, ?_⟩
  · rcases hfl with rfl | ⟨_, rfl⟩
    · exact h.freeNodup
    · exact List.nodup_append.2 ⟨h.freeNodup, List.nodup_singleton _, by
        intro a ha b hb
        rw [List.mem_singleton] at hb
        rintro rfl
        exact hnot (hb ▸ ha)⟩
  · intro j hj
    rcases hfl with rfl | ⟨h0, rfl⟩
    · have hji : j ≠ i := fun he => hnot (he ▸ hj)
      simpa [hji] using h.freeRef j hj
    · rcases List.mem_append.1 hj with hj | hj
      · have hji : j ≠ i := fun he => hnot (he ▸ hj)
        simpa [hji] using h.freeRef j hj
      · obtain rfl := List.mem_singleton.1 hj
        exact ⟨hlt, by simpa using h0⟩
  · intro k j hj
    simpa [(hid j).1, (hid j).2] using h.chainSlot k j hj
  · intro j hj hr
    have hrj : 0 < (c.inode j).ref := by
      by_cases hji : j = i
      · exact hji ▸ hpos
      · simpa [hji] using hr
    simpa [(hid j).1, (hid j).2] using h.live j hj hrj
  · intro dev ino a b ha hb
    exact h.unique dev ino a b (hlive _ _ _ ha) (hlive _ _ _ hb)

/-- The hit path keeps the invariant. -/
theorem iget_hit_inv {c : Icache} (h : Inv c) {dev ino j : Nat}
    (hj : igetFinds c dev ino = some j) : Inv (igetHit c j) := by
  obtain ⟨hlt, hr, _⟩ := h.live_of_igetFinds hj
  have hnot : j ∉ c.freeList := fun hmem => by
    have := (h.freeRef j hmem).2
    omega
  have hfl : c.freeList.erase j = c.freeList := List.erase_of_not_mem hnot
  exact h.setRef { c.inode j with ref := ((c.inode j).ref + 1) % 2 ^ 32 }
    hlt hr rfl rfl _ (.inl hfl)

/-- The chains after a miss: the recycled structure leaves its old chain and joins the new one. -/
theorem igetMiss_hashTable (c : Icache) (i : Nat) (rest : List Nat) (dev ino k : Nat) :
    (igetMiss c i rest dev ino).hashTable k =
      if k = icacheHashFunc dev ino then (c.hashTable k).erase i ++ [i]
      else (c.hashTable k).erase i := by
  by_cases hk : k = icacheHashFunc dev ino
  · subst hk
    simp [igetMiss, putInodeInHash, delFromHash]
  · simp [igetMiss, putInodeInHash, delFromHash, hk]

/-- The structures after a miss. -/
theorem igetMiss_inode (c : Icache) (i : Nat) (rest : List Nat) (dev ino : Nat) :
    (igetMiss c i rest dev ino).inode = Function.update c.inode i
      { c.inode i with ref := 1, dev := dev, ino := ino, valid := false } := rfl

/-- The miss path keeps the invariant when the identity had no live structure. -/
theorem iget_miss_inv {c : Icache} (h : Inv c) {dev ino i : Nat} {rest : List Nat}
    (hfree : c.freeList = i :: rest) (hnone : ∀ j, ¬ Live c dev ino j) :
    Inv (igetMiss c i rest dev ino) := by
  have hi := h.freeRef i (by simp [hfree])
  have hnd : (i :: rest).Nodup := hfree ▸ h.freeNodup
  have hself : (igetMiss c i rest dev ino).inode i =
      { c.inode i with ref := 1, dev := dev, ino := ino, valid := false } := by
    simp [igetMiss_inode]
  have hother : ∀ j, j ≠ i → (igetMiss c i rest dev ino).inode j = c.inode j := by
    intro j hj
    simp [igetMiss_inode, hj]
  have hlive : ∀ d n j, j ≠ i → Live (igetMiss c i rest dev ino) d n j → Live c d n j := by
    rintro d n j hj ⟨hlt, hr, his⟩
    rw [hother j hj] at hr his
    exact ⟨hlt, hr, his⟩
  refine ⟨h.unlocked, hnd.of_cons, ?_, ?_, ?_, ?_, ?_⟩
  · intro j hj
    have hji : j ≠ i := fun he => (List.nodup_cons.1 hnd).1 (he ▸ hj)
    rw [hother j hji]
    exact h.freeRef j (by simp [hfree, show j ∈ rest from hj])
  · intro k j hj
    rw [igetMiss_hashTable] at hj
    by_cases hji : j = i
    · subst hji
      refine ⟨hi.1, ?_⟩
      rw [hself]
      by_contra hk
      simp only [hk, if_false] at hj
      exact (h.chainNodup k).not_mem_erase hj
    · rw [hother j hji]
      apply h.chainSlot
      split at hj
      · rcases List.mem_append.1 hj with hj | hj
        · exact List.mem_of_mem_erase hj
        · exact absurd (List.mem_singleton.1 hj) hji
      · exact List.mem_of_mem_erase hj
  · intro k
    rw [igetMiss_hashTable]
    have her : ((c.hashTable k).erase i).Nodup := (h.chainNodup k).erase i
    split
    · exact List.nodup_append.2 ⟨her, List.nodup_singleton _, by
        intro a ha b hb
        rw [List.mem_singleton] at hb
        rintro rfl
        exact (h.chainNodup k).not_mem_erase (hb ▸ ha)⟩
    · exact her
  · intro j hlt hr
    rw [igetMiss_hashTable]
    by_cases hji : j = i
    · subst hji
      simp [hself]
    · rw [hother j hji] at hr ⊢
      have hmem := (List.mem_erase_of_ne hji).2 (h.live j hlt hr)
      split
      · exact List.mem_append_left _ hmem
      · exact hmem
  · -- a live structure of the new identity can only be the recycled one
    intro d n a b ha hb
    by_cases hd : d = dev ∧ n = ino
    · obtain ⟨rfl, rfl⟩ := hd
      have hai : a = i := by
        by_contra hne
        exact hnone a (hlive _ _ a hne ha)
      have hbi : b = i := by
        by_contra hne
        exact hnone b (hlive _ _ b hne hb)
      rw [hai, hbi]
    · have hne : ∀ x, Live (igetMiss c i rest dev ino) d n x → x ≠ i := by
        rintro x ⟨_, _, his⟩ rfl
        rw [hself, Inode.is_iff] at his
        exact hd ⟨his.1.symm, his.2.symm⟩
      exact h.unique d n a b (hlive _ _ a (hne a ha) ha) (hlive _ _ b (hne b hb) hb)

/-! ## §5 Whole runs -/

/-- Every operation of a run behaves when no entry is shadowed. -/
theorem step_ok_of_notShadowed (c : Icache) (o : Op) (h : Inv c) (hv : Valid c o)
    (hns : NotShadowed c o) : ∃ c', step c o = .ok c' ∧ StepOk c o c' ∧ Inv c' := by
  cases o with
  | iget dev ino =>
    cases hf : igetFinds c dev ino with
    | some j =>
      have higet : iget c dev ino = .ok (some j, igetHit c j) := by simp [iget, h.unlocked, hf]
      have hinv := iget_hit_inv h hf
      refine ⟨igetHit c j, by simp [step, higet, Except.map], ⟨hinv.unique, ?_⟩, hinv⟩
      intro dev' ino' i ho hi
      cases ho
      rw [h.unique _ _ i j hi (h.live_of_igetFinds hf)]
      exact higet
    | none =>
      obtain ⟨i, rest, hfree⟩ := List.exists_cons_of_ne_nil (hv hf)
      have higet : iget c dev ino = .ok (some i, igetMiss c i rest dev ino) := by
        simp [iget, h.unlocked, hf, hfree]
      have hnone := h.not_live_of_miss hf hns
      have hinv := iget_miss_inv h hfree hnone
      refine ⟨igetMiss c i rest dev ino, by simp [step, higet, Except.map],
        ⟨hinv.unique, ?_⟩, hinv⟩
      intro dev' ino' j ho hj
      cases ho
      exact absurd hj (hnone j)
  | iref i =>
    have hinv := h.setRef { c.inode i with ref := ((c.inode i).ref + 1) % 2 ^ 32 }
      hv.1 hv.2 rfl rfl _ (.inl rfl)
    exact ⟨_, by simp [step, iref, h.unlocked],
      ⟨hinv.unique, by intro _ _ _ ho; cases ho⟩, hinv⟩
  | iput i =>
    have hid : (iputFree (c.inode i)).dev = (c.inode i).dev ∧
        (iputFree (c.inode i)).ino = (c.inode i).ino := by
      unfold iputFree
      split <;> exact ⟨rfl, rfl⟩
    have hinv := h.setRef
      { iputFree (c.inode i) with ref := ((iputFree (c.inode i)).ref + (2 ^ 32 - 1)) % 2 ^ 32 }
      hv.1 hv.2 hid.1 hid.2
      (if ((iputFree (c.inode i)).ref + (2 ^ 32 - 1)) % 2 ^ 32 = 0
        then c.freeList ++ [i] else c.freeList)
      (by
        split
        · rename_i h0
          exact .inr ⟨h0, rfl⟩
        · exact .inl rfl)
    exact ⟨_, by simp only [step, iput, h.unlocked]; rfl,
      ⟨hinv.unique, by intro _ _ _ ho; cases ho⟩, hinv⟩

/-- A shadowed `iget` recycles a structure although a live one exists. -/
theorem not_unique_of_shadowed (c : Icache) (o : Op) (c' : Icache) (h : Inv c) (hv : Valid c o)
    (hs : ¬ NotShadowed c o) (hok : step c o = .ok c') : ¬ StepOk c o c' := by
  cases o with
  | iget dev ino =>
    simp only [NotShadowed] at hs
    push Not at hs
    obtain ⟨j, hf, hj0, i, hmem, his, hi0⟩ := hs
    have hmiss : igetFinds c dev ino = none := by
      cases hfi : igetFinds c dev ino with
      | none => rfl
      | some k =>
        obtain ⟨hk, hkr⟩ := igetFinds_some hfi
        rw [hf] at hk
        cases hk
        omega
    obtain ⟨f, rest, hfree⟩ := List.exists_cons_of_ne_nil (hv hmiss)
    have hfr := h.freeRef f (by simp [hfree])
    have hfi : i ≠ f := fun he => hi0 (he ▸ hfr.2)
    have higet : iget c dev ino = .ok (some f, igetMiss c f rest dev ino) := by
      simp [iget, h.unlocked, hmiss, hfree]
    rw [step, higet] at hok
    obtain rfl := Except.ok.inj hok
    rintro ⟨huniq, _⟩
    refine hfi (huniq dev ino i f ⟨(h.chainSlot _ i hmem).1, ?_, ?_⟩ ⟨hfr.1, ?_, ?_⟩)
    · simpa [igetMiss_inode, hfi] using Nat.pos_of_ne_zero hi0
    · simpa [igetMiss_inode, hfi] using his
    · simp [igetMiss_inode]
    · simp [igetMiss_inode, Inode.is_iff]
  | iref i => exact absurd trivial hs
  | iput i => exact absurd trivial hs

/-- **Exact condition for unique in-memory inodes**: in a run of `iget`, `iref` and `iput` from
    `inode_init` that never exhausts the free list, after every step at most one referenced
    structure has a given identity, and every `iget` of a referenced inode returns its structure,
    if and only if no `iget` of the run meets a released entry in front of a referenced one. -/
theorem unique_iff_notShadowed (ops : List Op) (hvalid : Meets step Valid inodeInit ops) :
    Along step StepOk inodeInit ops ↔ Meets step NotShadowed inodeInit ops :=
  along_iff_meets Inv step_ok_of_notShadowed not_unique_of_shadowed inodeInit_inv hvalid

instance decidableValid (c : Icache) : ∀ o : Op, Decidable (Valid c o)
  | .iget dev ino => inferInstanceAs (Decidable (igetFinds c dev ino = none → c.freeList ≠ []))
  | .iref i => inferInstanceAs (Decidable (i < NINODE ∧ 0 < (c.inode i).ref))
  | .iput i => inferInstanceAs (Decidable (i < NINODE ∧ 0 < (c.inode i).ref))

/-- Inode 5 is opened twice, one more reference is taken, and one is dropped. -/
theorem unique_iff_notShadowed_reopen :
    Along step StepOk inodeInit [.iget 1 5, .iget 1 5, .iref 59, .iput 59] ↔
      Meets step NotShadowed inodeInit [.iget 1 5, .iget 1 5, .iref 59, .iput 59] :=
  unique_iff_notShadowed _ (by decide +kernel)

/-- Inode 5 is opened, released and opened again. -/
def reopenPrefix : List Op := [.iget 1 5, .iput 59, .iget 1 5]

/-- One more `iget`: the released structure 59 hides structure 58 from it, and structure 57
    becomes a second live copy. -/
theorem reopened_inode_not_unique :
    Meets step Valid inodeInit (reopenPrefix ++ [.iget 1 5]) ∧
      ¬ Along step StepOk inodeInit (reopenPrefix ++ [.iget 1 5]) := by
  refine ⟨by decide +kernel, fun h => ?_⟩
  obtain ⟨_, c, hrun, hok, _⟩ := h.last
  have hlive : ((reopenPrefix ++ [Op.iget 1 5]).foldlM step inodeInit).toOption.map
      (fun c : Icache => (c.inode 58, c.inode 57)) =
      some (⟨1, 5, 1, false, 0, 0⟩, ⟨1, 5, 1, false, 0, 0⟩) := by decide +kernel
  rw [hrun] at hlive
  obtain ⟨h58, h57⟩ := Prod.mk.inj (Option.some.inj hlive)
  have := hok 1 5 58 57 ⟨by decide, by simp [h58], by simp [h58, Inode.is]⟩
    ⟨by decide, by simp [h57], by simp [h57, Inode.is]⟩
  omega

end WeiOS.InodeCache
