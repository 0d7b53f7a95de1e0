import Mathlib
import WeiOS.Lib.Run
import WeiOS.Dev.Ide

/-!
# The Buffer Cache

`bio.c`: the buffers of the block cache, their hash table and free list, and the operations that
processes call. `getblk` is a loop around `sleep`; one round of it runs under the cache lock, so it is
one step here.

## Main results
- `identityOk_iff`: when a lookup leaves the other buffers alone.
- `lookup_changes_device`: a lookup that moves a cached block to another device.
-/

namespace WeiOS.Bio

open WeiOS.Lib

/-! ## §1 Buffers -/

/-- Number of hash chains (`include/buffer.h`). -/
def HASHSLOT : Nat := 7

/-- Size of the disk block cache (`include/param.h`). -/
def NBUF : Nat := 120

/-- `struct buf`: its flag bits are `B_BUSY`, `B_VALID` and `B_DIRTY`. -/
structure Buf (α : Type) where
  data : α
  busy : Bool
  valid : Bool
  dirty : Bool
  dev : Nat
  blockno : Nat

/-- `struct blk_cache` with the buffers: the free list and the hash chains, from the front. -/
structure Bcache (α : Type) where
  buf : Nat → Buf α
  freeList : List Nat
  hashTable : Nat → List Nat

variable {α : Type}

/-- `hash_func`. -/
def hashFunc (dev blockno : Nat) : Nat := (dev * 5 + blockno) % 2 ^ 32 % HASHSLOT

/-- `buffer_init`: every buffer is zeroed and goes to the front of the free list. -/
def bufferInit (zero : α) : Bcache α where
  buf := fun _ => ⟨zero, false, false, false, 0, 0⟩
  freeList := (List.range NBUF).reverse
  hashTable := fun _ => []

/-- A change to one buffer. -/
def setBuf (s : Bcache α) (b : Nat) (f : Buf α → Buf α) : Bcache α :=
  { s with buf := Function.update s.buf b (f (s.buf b)) }

/-- The flags are exactly `B_VALID`, leaving `B_BUSY` aside. -/
def clean (v : Buf α) : Bool := v.valid && !v.dirty

/-! ## §2 Lookup -/

/-- The walk of `find_blk_in_hash` along a chain. The device is not compared but assigned, in the
    buffer that is looked at; the assignment counts as true unless `dev` is 0. -/
def findInChain (dev blockno : Nat) : List Nat → Bcache α → Option Nat × Bcache α
  | [], s => (none, s)
  | b :: rest, s =>
    let s := setBuf s b fun v => { v with dev := dev }
    if dev ≠ 0 ∧ (s.buf b).blockno = blockno then (some b, s) else findInChain dev blockno rest s

/-- `find_blk_in_hash`. -/
def findBlkInHash (s : Bcache α) (dev blockno : Nat) : Option Nat × Bcache α :=
  findInChain dev blockno (s.hashTable (hashFunc dev blockno)) s

/-- `put_blk_in_hash`. -/
def putBlkInHash (s : Bcache α) (b : Nat) : Bcache α :=
  let slot := hashFunc (s.buf b).dev (s.buf b).blockno
  { s with hashTable := Function.update s.hashTable slot (s.hashTable slot ++ [b]) }

/-- How a round of `getblk` ends: with a buffer, found in the cache or taken from the free list, or
    with a sleep on a busy buffer or for want of a free one. -/
inductive GetRes where
  | hit (b : Nat)
  | recycled (b : Nat)
  | waitBuf (b : Nat)
  | waitFree
  deriving DecidableEq

/-- The buffer goes from the free list and its old chain to the chain of its new block. -/
def recycle (s : Bcache α) (b : Nat) (rest : List Nat) (dev blockno : Nat) : Bcache α :=
  let s := { s with freeList := rest, hashTable := fun k => (s.hashTable k).erase b }
  putBlkInHash (setBuf s b fun v =>
    { v with busy := true, dev := dev, blockno := blockno, valid := false }) b

/-- One round of the loop of `getblk`. -/
def getblk (s : Bcache α) (dev blockno : Nat) : GetRes × Bcache α :=
  match findBlkInHash s dev blockno with
  | (some b, s) =>
    if (s.buf b).busy then (.waitBuf b, s)
    else
      (.hit b, { setBuf s b (fun v => { v with busy := true }) with freeList := s.freeList.erase b })
  | (none, s) =>
    match s.freeList with
    | [] => (.waitFree, s)
    | b :: rest => (.recycled b, recycle s b rest dev blockno)

/-- The buffer that `getblk` returns. -/
def GetRes.returned : GetRes → Option Nat
  | .hit b => some b
  | .recycled b => some b
  | .waitBuf _ => none
  | .waitFree => none

/-- The buffer that `getblk` takes for the requested block. -/
def GetRes.cacheHit : GetRes → Option Nat
  | .hit b => some b
  | .waitBuf b => some b
  | .recycled _ => none
  | .waitFree => none

/-! ## §3 Release and flags -/

/-- `brelse` without its wakeups: a buffer that is not clean stays off the free list. -/
def brelse (s : Bcache α) (b : Nat) : Bcache α :=
  let s := setBuf s b fun v => { v with busy := false }
  if clean (s.buf b) then { s with freeList := s.freeList ++ [b] } else s

theorem brelse_eq (s : Bcache α) (b : Nat) :
    brelse s b = { setBuf s b (fun v => { v with busy := false }) with
      freeList := if clean (s.buf b) then s.freeList ++ [b] else s.freeList } := by
  have hflags : clean ((setBuf s b fun v => { v with busy := false }).buf b) = clean (s.buf b) := by
    simp [setBuf, clean]
  unfold brelse
  dsimp only
  rw [hflags]
  split <;> rfl

/-- What `log_write` and `bwrite` do to the flags. -/
def markDirty (s : Bcache α) (b : Nat) : Bcache α :=
  setBuf s b fun v => { v with valid := false, dirty := true }

/-- What `ide_intr` does to the flags of the buffer it completes; `v` is what a read brings. -/
def completeIo (s : Bcache α) (b : Nat) (v : α) : Bcache α :=
  setBuf s b fun w =>
    { w with data := if w.dirty then w.data else v, valid := true, dirty := false }

/-! ## §4 What a lookup does to other buffers -/

/-- The buffers that a lookup walks over. -/
def scanned (s : Bcache α) (dev blockno : Nat) : List Nat → List Nat
  | [] => []
  | b :: rest =>
    if dev ≠ 0 ∧ (s.buf b).blockno = blockno then [b] else b :: scanned s dev blockno rest

/-- The buffer that a lookup ends with. -/
def firstMatch (s : Bcache α) (dev blockno : Nat) : List Nat → Option Nat
  | [] => none
  | b :: rest =>
    if dev ≠ 0 ∧ (s.buf b).blockno = blockno then some b else firstMatch s dev blockno rest

/-- Setting the device of one buffer changes no block number. -/
theorem setDev_blockno (s : Bcache α) (b dev c : Nat) :
    ((setBuf s b fun v => { v with dev := dev }).buf c).blockno = (s.buf c).blockno := by
  by_cases hc : c = b
  · subst hc
    simp [setBuf]
  · simp [setBuf, hc]

/-- The state after a walk along a chain: the buffers walked over have the device `dev`. -/
def afterScan (s : Bcache α) (dev blockno : Nat) (chain : List Nat) : Bcache α :=
  { s with
    buf := fun b =>
      if b ∈ scanned s dev blockno chain then { s.buf b with dev := dev } else s.buf b }

theorem findInChain_eq (dev blockno : Nat) (chain : List Nat) (s : Bcache α) :
    findInChain dev blockno chain s =
      (firstMatch s dev blockno chain, afterScan s dev blockno chain) := by
  unfold afterScan
  induction chain generalizing s with
  | nil => simp [findInChain, firstMatch, scanned]
  | cons b rest ih =>
    have hscan : ∀ l, scanned (setBuf s b fun v => { v with dev := dev }) dev blockno l =
        scanned s dev blockno l := by
      intro l
      induction l with
      | nil => rfl
      | cons c l ihl => simp only [scanned, setDev_blockno, ihl]
    have hfirst : ∀ l, firstMatch (setBuf s b fun v => { v with dev := dev }) dev blockno l =
        firstMatch s dev blockno l := by
      intro l
      induction l with
      | nil => rfl
      | cons c l ihl => simp only [firstMatch, setDev_blockno, ihl]
    simp only [findInChain, setDev_blockno, scanned, firstMatch]
    split
    · refine Prod.ext rfl ?_
      simp only [setBuf, Bcache.mk.injEq, and_true]
      funext c
      by_cases hc : c = b
      · simp [hc]
      · simp [hc]
    · rw [ih, hscan, hfirst]
      refine Prod.ext rfl ?_
      simp only [setBuf, Bcache.mk.injEq, and_true]
      funext c
      by_cases hc : c = b
      · simp [hc]
      · simp [hc]

theorem firstMatch_spec {s : Bcache α} {dev blockno b : Nat} {chain : List Nat}
    (h : firstMatch s dev blockno chain = some b) :
    b ∈ chain ∧ b ∈ scanned s dev blockno chain ∧ dev ≠ 0 ∧ (s.buf b).blockno = blockno := by
  induction chain with
  | nil => cases h
  | cons c rest ih =>
    simp only [firstMatch] at h
    split at h
    · rename_i hm
      obtain rfl := Option.some.inj h
      simp [scanned, hm]
    · rename_i hm
      obtain ⟨hmem, hscan, hdev, hblk⟩ := ih h
      refine ⟨List.mem_cons_of_mem _ hmem, ?_, hdev, hblk⟩
      rw [scanned, if_neg hm]
      exact List.mem_cons_of_mem _ hscan

theorem firstMatch_none {s : Bcache α} {dev blockno : Nat} (hdev : dev ≠ 0) {chain : List Nat}
    (h : firstMatch s dev blockno chain = none) : ∀ b ∈ chain, (s.buf b).blockno ≠ blockno := by
  induction chain with
  | nil => simp
  | cons c rest ih =>
    simp only [firstMatch] at h
    split at h
    · cases h
    · rename_i hm
      intro b hb
      rcases List.mem_cons.1 hb with rfl | hb
      · exact fun he => hm ⟨hdev, he⟩
      · exact ih h b hb

theorem scanned_subset {s : Bcache α} {dev blockno : Nat} {chain : List Nat} :
    ∀ b ∈ scanned s dev blockno chain, b ∈ chain := by
  induction chain with
  | nil => simp [scanned]
  | cons c rest ih =>
    intro b hb
    simp only [scanned] at hb
    split at hb
    · rw [List.mem_singleton] at hb
      simp [hb]
    · rcases List.mem_cons.1 hb with rfl | hb
      · exact List.mem_cons_self
      · exact List.mem_cons_of_mem _ (ih b hb)

section Getblk

variable (s : Bcache α) (dev blockno : Nat)

/-- The state in which `getblk` goes on after its lookup. -/
def lookedUp : Bcache α := afterScan s dev blockno (s.hashTable (hashFunc dev blockno))

theorem lookedUp_busy (b : Nat) : ((lookedUp s dev blockno).buf b).busy = (s.buf b).busy := by
  simp only [lookedUp, afterScan]
  split <;> rfl

theorem lookedUp_blockno (b : Nat) :
    ((lookedUp s dev blockno).buf b).blockno = (s.buf b).blockno := by
  simp only [lookedUp, afterScan]
  split <;> rfl

/-- The result of a lookup. -/
def found : Option Nat := firstMatch s dev blockno (s.hashTable (hashFunc dev blockno))

theorem findBlkInHash_eq :
    findBlkInHash s dev blockno = (found s dev blockno, lookedUp s dev blockno) :=
  findInChain_eq dev blockno _ s

/-- The state when `getblk` returns a buffer that it found. -/
def hitState (b : Nat) : Bcache α :=
  { setBuf (lookedUp s dev blockno) b (fun v => { v with busy := true }) with
    freeList := s.freeList.erase b }

/-- **The four ways out of a round of `getblk`.** -/
theorem getblk_cases :
    (∃ b, found s dev blockno = some b ∧ (s.buf b).busy = true ∧
      getblk s dev blockno = (.waitBuf b, lookedUp s dev blockno)) ∨
    (∃ b, found s dev blockno = some b ∧ (s.buf b).busy = false ∧
      getblk s dev blockno = (.hit b, hitState s dev blockno b)) ∨
    (found s dev blockno = none ∧ s.freeList = [] ∧
      getblk s dev blockno = (.waitFree, lookedUp s dev blockno)) ∨
    (∃ b rest, found s dev blockno = none ∧ s.freeList = b :: rest ∧
      getblk s dev blockno =
        (.recycled b, recycle (lookedUp s dev blockno) b rest dev blockno)) := by
  have hfree : (lookedUp s dev blockno).freeList = s.freeList := rfl
  unfold getblk
  rw [findBlkInHash_eq]
  cases hf : found s dev blockno with
  | some b =>
    dsimp only
    cases hb : (s.buf b).busy with
    | true => exact .inl ⟨b, rfl, hb, if_pos ((lookedUp_busy s dev blockno b).trans hb)⟩
    | false =>
      refine .inr (.inl ⟨b, rfl, hb, ?_⟩)
      rw [if_neg (by simp [lookedUp_busy, hb])]
      rfl
  | none =>
    dsimp only
    rw [hfree]
    cases hl : s.freeList with
    | nil => exact .inr (.inr (.inl ⟨rfl, rfl, rfl⟩))
    | cons b rest => exact .inr (.inr (.inr ⟨b, rest, rfl, rfl, rfl⟩))

end Getblk

/-- The buffer that `getblk` takes from the free list when the block is not found. -/
def recycledBuf (s : Bcache α) (dev blockno : Nat) : Option Nat :=
  match found s dev blockno with
  | some _ => none
  | none => s.freeList.head?

/-- Every buffer that the lookup walks over belongs to the requested device, apart from the one that
    is recycled. -/
def ScannedSameDev (s : Bcache α) (dev blockno : Nat) : Prop :=
  ∀ b ∈ scanned s dev blockno (s.hashTable (hashFunc dev blockno)),
    (s.buf b).dev = dev ∨ recycledBuf s dev blockno = some b

/-- What a lookup should do: buffers other than the returned one keep device and block number, and
    only a buffer cached for this device and block is a cache hit. -/
def IdentityOk (s : Bcache α) (dev blockno : Nat) : Prop :=
  (∀ b, (getblk s dev blockno).1.returned ≠ some b →
    ((getblk s dev blockno).2.buf b).dev = (s.buf b).dev ∧
    ((getblk s dev blockno).2.buf b).blockno = (s.buf b).blockno) ∧
  ∀ b, (getblk s dev blockno).1.cacheHit = some b →
    (s.buf b).dev = dev ∧ (s.buf b).blockno = blockno

theorem lookedUp_dev_iff (s : Bcache α) (dev blockno b : Nat) :
    ((lookedUp s dev blockno).buf b).dev = (s.buf b).dev ↔
      (b ∈ scanned s dev blockno (s.hashTable (hashFunc dev blockno)) → (s.buf b).dev = dev) := by
  simp only [lookedUp, afterScan]
  split
  · rename_i hb
    exact ⟨fun h _ => h.symm, fun h => (h hb).symm⟩
  · rename_i hb
    exact ⟨fun _ h => absurd h hb, fun _ => rfl⟩

theorem recycle_buf_of_ne (s : Bcache α) {b c : Nat} (rest : List Nat) (dev blockno : Nat)
    (h : c ≠ b) : (recycle s b rest dev blockno).buf c = s.buf c := by
  simp [recycle, putBlkInHash, setBuf, h]

theorem hitState_ident (s : Bcache α) (dev blockno b c : Nat) :
    ((hitState s dev blockno b).buf c).dev = ((lookedUp s dev blockno).buf c).dev ∧
      ((hitState s dev blockno b).buf c).blockno = ((lookedUp s dev blockno).buf c).blockno := by
  by_cases hc : c = b
  · subst hc
    simp [hitState, setBuf]
  · simp [hitState, setBuf, hc]

/-- **Lookups and identity**: `getblk` behaves exactly when all buffers it walks over belong to the
    requested device already. -/
theorem identityOk_iff (s : Bcache α) (dev blockno : Nat) :
    IdentityOk s dev blockno ↔ ScannedSameDev s dev blockno := by
  unfold IdentityOk ScannedSameDev recycledBuf
  rcases getblk_cases s dev blockno with ⟨b, hf, _, heq⟩ | ⟨b, hf, _, heq⟩ | ⟨hf, hl, heq⟩ |
    ⟨b, rest, hf, hl, heq⟩
  · -- the block is cached and busy: every buffer walked over counts
    obtain ⟨_, hscan, _, hblk⟩ := firstMatch_spec hf
    simp only [heq, hf, GetRes.returned, GetRes.cacheHit, reduceCtorEq, or_false]
    constructor
    · rintro ⟨hkeep, _⟩ c hc
      exact (lookedUp_dev_iff s dev blockno c).1 (hkeep c (by simp)).1 hc
    · intro hall
      refine ⟨fun c _ => ⟨(lookedUp_dev_iff s dev blockno c).2 (hall c), lookedUp_blockno s dev blockno c⟩,
        ?_⟩
      rintro c hc
      obtain rfl := Option.some.inj hc
      exact ⟨hall b hscan, hblk⟩
  · -- the block is cached: the hit must have been right, and the others before it as well
    obtain ⟨_, hscan, _, hblk⟩ := firstMatch_spec hf
    simp only [heq, hf, GetRes.returned, GetRes.cacheHit, reduceCtorEq, or_false]
    constructor
    · rintro ⟨hkeep, hhit⟩ c hc
      by_cases hcb : c = b
      · rw [hcb]
        exact (hhit b rfl).1
      · have hdev := (hkeep c (by simpa using fun he => hcb he.symm)).1
        rw [(hitState_ident s dev blockno b c).1] at hdev
        exact (lookedUp_dev_iff s dev blockno c).1 hdev hc
    · intro hall
      refine ⟨fun c _ => ⟨?_, ?_⟩, ?_⟩
      · rw [(hitState_ident s dev blockno b c).1]
        exact (lookedUp_dev_iff s dev blockno c).2 (hall c)
      · rw [(hitState_ident s dev blockno b c).2]
        exact lookedUp_blockno s dev blockno c
      · rintro c hc
        obtain rfl := Option.some.inj hc
        exact ⟨hall b hscan, hblk⟩
  · simp only [heq, hf, hl, GetRes.returned, GetRes.cacheHit, List.head?_nil, reduceCtorEq, or_false]
    constructor
    · rintro ⟨hkeep, _⟩ c hc
      exact (lookedUp_dev_iff s dev blockno c).1 (hkeep c (by simp)).1 hc
    · intro hall
      refine ⟨fun c _ => ⟨(lookedUp_dev_iff s dev blockno c).2 (hall c), lookedUp_blockno s dev blockno c⟩,
        by simp⟩
  · -- the buffer that is recycled may have belonged to any block
    simp only [heq, hf, hl, GetRes.returned, GetRes.cacheHit, List.head?_cons, Option.some.injEq]
    constructor
    · rintro ⟨hkeep, _⟩ c hc
      by_cases hcb : b = c
      · exact .inr hcb
      · have hdev := (hkeep c (by simpa using hcb)).1
        rw [recycle_buf_of_ne _ _ _ _ (Ne.symm hcb)] at hdev
        exact .inl ((lookedUp_dev_iff s dev blockno c).1 hdev hc)
    · intro hall
      refine ⟨fun c hc => ?_, by simp⟩
      have hcb : c ≠ b := fun he => hc (by rw [he])
      rw [recycle_buf_of_ne _ _ _ _ hcb]
      refine ⟨(lookedUp_dev_iff s dev blockno c).2 fun hscan => ?_, lookedUp_blockno s dev blockno c⟩
      exact (hall c hscan).resolve_right fun he => hcb he.symm

/-- The cache after block 7 of device 0 was requested: buffer 119 is cached for it. -/
def oneBlockCached : Bcache Nat := (getblk (bufferInit 0) 0 7).2

/-- Block 2 of device 1 is in the same chain. Looking it up leaves buffer 119, which still holds
    block 7, on device 1. -/
theorem lookup_changes_device :
    (oneBlockCached.buf 119).dev = 0 ∧ (getblk oneBlockCached 1 2).1 = .recycled 118 ∧
      ((getblk oneBlockCached 1 2).2.buf 119).dev = 1 ∧ ¬ IdentityOk oneBlockCached 1 2 := by
  have hdev : (oneBlockCached.buf 119).dev = 0 ∧ ((getblk oneBlockCached 1 2).2.buf 119).dev = 1 :=
    by decide +kernel
  have hres : (getblk oneBlockCached 1 2).1 = .recycled 118 := by decide +kernel
  refine ⟨hdev.1, hres, hdev.2, fun hok => ?_⟩
  have hkeep := (hok.1 119 (by rw [hres]; decide)).1
  rw [hdev.1, hdev.2] at hkeep
  exact absurd hkeep (by decide)

end WeiOS.Bio
