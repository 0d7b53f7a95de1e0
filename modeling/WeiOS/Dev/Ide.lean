import Mathlib
import WeiOS.Lib.Run

/-!
# The IDE Request Queue

Models `kern/ide.c`: `update_idequeue`, `ide_start`, `ide_intr`, `ide_read_write` and
`ide_write_dozens`, together with the disk controller they drive. Block contents are an arbitrary
type `α`. Buffers are indices; `ide_queue` is the list of the queued ones, its head first.

The interrupt handler takes the head of the queue for the request in flight. `update_idequeue`
scans from the back for a block number below that of the head, and when no other queued request
stands in the way it stops at the head itself and inserts the new buffer in front of it.

## Main results
- `insertRequest_head`: the exact case in which an insertion displaces the head.
- `headInFlight_iff_notDisplacing`: over whole runs, the head is always the request in flight, and
  every completed read delivers the buffer's own block, exactly when no submission displaces it.
-/

namespace WeiOS.Ide

open WeiOS.Lib

/-! ## §1 Buffers, requests and the controller -/

/-- Size of the file system in blocks (`include/param.h`). -/
def FSSIZE : Nat := 5000

/-- Size of the disk block cache (`include/param.h`). -/
def NBUF : Nat := 120

/-- `struct buf`, as far as the driver reads it; `dozenPtr` names the batch it belongs to. -/
structure Buf (α : Type) where
  dev : Nat
  blockno : Nat
  valid : Bool
  dirty : Bool
  data : α
  dozenPtr : Option Nat

/-- A command given to the controller: the buffer, drive and block, and the data of a write. -/
structure Request (α : Type) where
  buf : Nat
  drive : Nat
  blockno : Nat
  write : Option α

/-- `struct ide_manager` with the buffers, the request counts of the batches, and the hardware. -/
structure IdeManager (α : Type) where
  buf : Nat → Buf α
  ideQueue : List Nat
  nRequests : Nat
  nRequest : Nat → Int
  slaveDiskExisted : Bool
  inFlight : Option (Request α)
  disk : Nat → Nat → α

variable {α : Type}

/-- `ide_init`, with or without a slave disk; the buffers and the disks are arbitrary. -/
def ideInit (slave : Bool) (buf : Nat → Buf α) (disk : Nat → Nat → α) : IdeManager α where
  buf := buf
  ideQueue := []
  nRequests := 0
  nRequest := fun _ => 0
  slaveDiskExisted := slave
  inFlight := none
  disk := disk

/-! ## §2 The source functions -/

/-- The backward scan of `update_idequeue`: `b` goes in front of the last queued buffer whose block
    number is not below its own, or behind the first one when there is no such buffer. -/
def insertFromBack (blk : Nat → Nat) (b : Nat) (q : List Nat) : List Nat :=
  let back := q.reverse.takeWhile (fun f => !decide (blk b ≤ blk f))
  match q.reverse.dropWhile (fun f => !decide (blk b ≤ blk f)) with
  | fb :: front => front.reverse ++ b :: fb :: back.reverse
  | [] => q.head?.toList ++ b :: q.tail

/-- The list part of `update_idequeue`: `blk` gives the block number of a buffer. -/
def insertRequest (blk : Nat → Nat) (b : Nat) : List Nat → List Nat
  | [] => [b]
  | h :: t =>
    if blk h < blk b then
      h :: (t.takeWhile (fun f => !decide (blk b < blk f)) ++
        b :: t.dropWhile (fun f => !decide (blk b < blk f)))
    else if blk b < blk h then
      insertFromBack blk b (h :: t)
    else
      h :: b :: t

/-- `update_idequeue`. -/
def updateIdequeue (s : IdeManager α) (b : Nat) : IdeManager α :=
  { s with
    nRequests := (s.nRequests + 1) % 2 ^ 32
    ideQueue := insertRequest (fun f => (s.buf f).blockno) b s.ideQueue }

/-- The command that `ide_start` gives to the controller, with the data of a dirty buffer. -/
def command (s : IdeManager α) (b : Nat) : Request α where
  buf := b
  drive := (s.buf b).dev % 2
  blockno := (s.buf b).blockno
  write := if (s.buf b).dirty then some (s.buf b).data else none

/-- `ide_start`. -/
def ideStart (s : IdeManager α) (b : Nat) : IdeManager α :=
  if FSSIZE ≤ (s.buf b).blockno then s else { s with inFlight := some (command s b) }

/-- A buffer on an absent slave disk is refused. -/
def noDisk (s : IdeManager α) (b : Nat) : Bool :=
  decide ((s.buf b).dev ≠ 0) && !s.slaveDiskExisted

/-- The submission part of `ide_read_write`; its caller then sleeps until the buffer is valid. -/
def ideReadWrite (s : IdeManager α) (b : Nat) : IdeManager α :=
  if (s.buf b).valid && !(s.buf b).dirty then s
  else if noDisk s b then s
  else
    let s₁ := updateIdequeue s b
    if s₁.nRequests = 1 then ideStart s₁ b else s₁

/-- The submission part of `ide_write_dozens` for a batch with the buffers `bs`. -/
def ideWriteDozens (s : IdeManager α) (bs : List Nat) : IdeManager α :=
  match bs with
  | [] => s
  | b₀ :: _ =>
    if noDisk s b₀ then s
    else
      let s₁ := bs.foldl updateIdequeue s
      if s₁.nRequests = bs.length then
        match s₁.ideQueue with
        | tb :: _ => ideStart s₁ tb
        | [] => s₁
      else s₁

/-- The controller finishes the command in flight: a write reaches the disk. -/
def complete (s : IdeManager α) : IdeManager α :=
  { s with
    disk := match s.inFlight with
      | some ⟨_, drive, blockno, some d⟩ =>
        Function.update s.disk drive (Function.update (s.disk drive) blockno d)
      | _ => s.disk }

/-- What `insl` reads: the block of the command in flight, if that command is a read. -/
def insl (s : IdeManager α) (b : Nat) : α :=
  match s.inFlight with
  | some ⟨_, drive, blockno, none⟩ => s.disk drive blockno
  | _ => (s.buf b).data

/-- The buffer that `ide_intr` completes: read if it is not dirty, then valid and clean. -/
def completeBuf (s : IdeManager α) (b : Nat) : Buf α :=
  { s.buf b with
    data := if (s.buf b).dirty then (s.buf b).data else insl s b
    valid := true
    dirty := false
    dozenPtr := none }

/-- The first half of `ide_intr`: the head leaves the queue, completed, and its batch has one
    request less. -/
def finishHead (s : IdeManager α) (b : Nat) (rest : List Nat) : IdeManager α :=
  { s with
    buf := Function.update s.buf b (completeBuf s b)
    ideQueue := rest
    nRequests := (s.nRequests + (2 ^ 32 - 1)) % 2 ^ 32
    nRequest := match (s.buf b).dozenPtr with
      | some d => Function.update s.nRequest d (s.nRequest d - 1)
      | none => s.nRequest
    inFlight := none }

/-- The second half of `ide_intr`: start the disk on the next buffer in the queue. -/
def startNext (s : IdeManager α) : IdeManager α :=
  if s.nRequests = 0 then s
  else
    match s.ideQueue with
    | next :: _ => ideStart s next
    | [] => s

/-- `ide_intr`, run when the controller has finished the command in flight. -/
def ideIntr (s : IdeManager α) : IdeManager α :=
  let s₁ := complete s
  if s₁.nRequests = 0 then { s₁ with inFlight := none }
  else
    match s₁.ideQueue with
    | [] => { s₁ with inFlight := none }
    | b :: rest => startNext (finishHead s₁ b rest)

/-! ## §3 Steps and runs -/

/-- What can happen to the driver: the holder of a buffer that is not queued changes it, a buffer
    or a batch is submitted, or the interrupt of the command in flight arrives. -/
inductive Op (α : Type) where
  | touch (b : Nat) (v : Buf α)
  | readWrite (b : Nat)
  | writeDozens (bs : List Nat)
  | intr

/-- One step; none of them fails. -/
def step (s : IdeManager α) : Op α → Except Empty (IdeManager α)
  | .touch b v => .ok { s with buf := Function.update s.buf b v }
  | .readWrite b => .ok (ideReadWrite s b)
  | .writeDozens bs => .ok (ideWriteDozens s bs)
  | .intr => .ok (ideIntr s)

/-- A buffer is submitted or changed by its holder, who waits while it is queued; submitted block
    numbers are below `FSSIZE`; an interrupt belongs to a command in flight. -/
def Valid (s : IdeManager α) : Op α → Prop
  | .touch b _ => b ∉ s.ideQueue
  | .readWrite b => b < NBUF ∧ b ∉ s.ideQueue ∧ (s.buf b).blockno < FSSIZE
  | .writeDozens bs => bs.Nodup ∧
      ∀ b ∈ bs, b < NBUF ∧ b ∉ s.ideQueue ∧ (s.buf b).blockno < FSSIZE
  | .intr => s.inFlight ≠ none

/-- The head of the queue is the buffer most recently passed to `ide_start`. -/
def HeadInFlight (s : IdeManager α) : Prop :=
  s.ideQueue.head? = s.inFlight.map Request.buf

/-- What a step has to satisfy: the head is the request in flight afterwards; an interrupt removes
    and completes the buffer in flight; and if that was a read, the buffer is valid and holds the
    contents of its own block. -/
def StepOk (s : IdeManager α) (o : Op α) (s' : IdeManager α) : Prop :=
  HeadInFlight s' ∧
    (∀ r, (match o with | .intr => True | _ => False) → s.inFlight = some r →
      s.ideQueue = r.buf :: s'.ideQueue ∧ (s'.buf r.buf).valid = true ∧
        (s'.buf r.buf).dirty = false ∧
        ((s.buf r.buf).dirty = false →
          (s'.buf r.buf).data = s.disk ((s.buf r.buf).dev % 2) (s.buf r.buf).blockno))

/-- Of the block numbers `bs`, inserted one after the other behind a head `h` and other requests
    `t`, each is at least `h` or at most one that is already queued behind the head. -/
def NotDisplacing (h : Nat) : List Nat → List Nat → Prop
  | _, [] => True
  | t, b :: bs => (h ≤ b ∨ ∃ x ∈ t, b ≤ x) ∧ NotDisplacing h (b :: t) bs

/-- The condition on a submission: nothing is queued, or no submitted block number is below that of
    the head and above all the others. -/
def Submits (s : IdeManager α) (bs : List Nat) : Prop :=
  ∀ h t, s.ideQueue = h :: t →
    NotDisplacing (s.buf h).blockno (t.map fun f => (s.buf f).blockno)
      (bs.map fun f => (s.buf f).blockno)

/-- The condition under which a step keeps the head, stated on the state before it: what the guards
    of the two submission functions let through displaces nothing. -/
def NotDisplaced (s : IdeManager α) : Op α → Prop
  | .readWrite b => ((s.buf b).valid && !(s.buf b).dirty) = false → noDisk s b = false →
      Submits s [b]
  | .writeDozens bs => (∀ b₀ ∈ bs.head?, noDisk s b₀ = false) → Submits s bs
  | .touch _ _ => True
  | .intr => True

/-! ## §4 Insertion into the queue -/

section Insertion

variable (blk : Nat → Nat)

/-- The backward scan finds the last request that is not below `b`; the head is one. -/
theorem insertFromBack_split {b : Nat} {q : List Nat} (hq : ∃ f ∈ q, blk b ≤ blk f) :
    ∃ front fb back, q = front ++ fb :: back ∧ blk b ≤ blk fb ∧ (∀ f ∈ back, blk f < blk b) ∧
      insertFromBack blk b q = front ++ b :: fb :: back := by
  unfold insertFromBack
  have hsplit : q.reverse.takeWhile (fun f => !decide (blk b ≤ blk f)) ++
      q.reverse.dropWhile (fun f => !decide (blk b ≤ blk f)) = q.reverse :=
    List.takeWhile_append_dropWhile
  cases hd : q.reverse.dropWhile (fun f => !decide (blk b ≤ blk f)) with
  | nil =>
    obtain ⟨f, hf, hle⟩ := hq
    have := List.dropWhile_eq_nil_iff.1 hd f (List.mem_reverse.2 hf)
    simp [hle] at this
  | cons fb front =>
    rw [hd] at hsplit
    refine ⟨front.reverse, fb,
      (q.reverse.takeWhile (fun f => !decide (blk b ≤ blk f))).reverse, ?_, ?_, ?_, rfl⟩
    · have := congrArg List.reverse hsplit
      simpa using this.symm
    · have := List.head_dropWhile_not (fun f => !decide (blk b ≤ blk f))
        (by rw [hd]; exact List.cons_ne_nil _ _)
      simpa [hd] using this
    · intro f hf
      have := List.mem_takeWhile_imp (List.mem_reverse.1 hf)
      simpa using this

/-- An insertion adds one request and loses none. -/
theorem insertRequest_perm (b : Nat) (q : List Nat) :
    (insertRequest blk b q).Perm (b :: q) := by
  cases q with
  | nil => exact List.Perm.refl _
  | cons h t =>
    simp only [insertRequest]
    split
    · have hsplit : t.takeWhile (fun f => !decide (blk b < blk f)) ++
          t.dropWhile (fun f => !decide (blk b < blk f)) = t := List.takeWhile_append_dropWhile
      refine List.Perm.trans ?_ (List.Perm.swap b h t)
      refine List.Perm.cons h ?_
      conv_rhs => rw [← hsplit]
      exact List.perm_middle
    · split
      · rename_i _ hlt
        obtain ⟨front, fb, back, hq, _, _, hres⟩ :=
          insertFromBack_split blk ⟨h, List.mem_cons_self, hlt.le⟩
        rw [hres, hq]
        exact List.perm_middle
      · exact List.Perm.swap b h t

/-- **When an insertion displaces the head**: exactly if the new block number is below that of the
    head and above those of all other queued requests. -/
theorem insertRequest_head (b h : Nat) (t : List Nat) :
    (insertRequest blk b (h :: t)).head? =
      if blk h ≤ blk b ∨ ∃ x ∈ t, blk b ≤ blk x then some h else some b := by
  simp only [insertRequest]
  by_cases hgt : blk h < blk b
  · simp [hgt, hgt.le]
  · rw [if_neg hgt]
    by_cases hlt : blk b < blk h
    · rw [if_pos hlt]
      obtain ⟨front, fb, back, hq, hle, hback, hres⟩ :=
        insertFromBack_split blk ⟨h, List.mem_cons_self, hlt.le⟩
      rw [hres]
      cases front with
      | nil =>
        -- the scan went down to the head: everything behind it is smaller
        obtain ⟨rfl, rfl⟩ := List.cons.inj hq
        have hno : ¬ (blk h ≤ blk b ∨ ∃ x ∈ t, blk b ≤ blk x) := by
          rintro (hc | ⟨x, hx, hc⟩)
          · omega
          · have := hback x hx
            omega
        simp [if_neg hno]
      | cons a front =>
        obtain ⟨rfl, rfl⟩ := List.cons.inj hq
        have hyes : blk h ≤ blk b ∨ ∃ x ∈ front ++ fb :: back, blk b ≤ blk x :=
          .inr ⟨fb, by simp, hle⟩
        simp [if_pos hyes]
    · rw [if_neg hlt]
      have : blk h ≤ blk b := by omega
      simp [this]

/-- An insertion that does not displace the head adds one request behind it. -/
theorem insertRequest_cons {b h : Nat} {t : List Nat}
    (hnd : blk h ≤ blk b ∨ ∃ x ∈ t, blk b ≤ blk x) :
    ∃ t', insertRequest blk b (h :: t) = h :: t' ∧ t'.Perm (b :: t) := by
  have hhead := insertRequest_head blk b h t
  rw [if_pos hnd] at hhead
  obtain ⟨t', ht'⟩ := List.head?_eq_some_iff.1 hhead
  refine ⟨t', ht', ?_⟩
  have hp := insertRequest_perm blk b (h :: t)
  rw [ht'] at hp
  exact (hp.trans (List.Perm.swap h b t)).cons_inv

/-- The requests of a batch are inserted one after the other. -/
def insertRequests (bs q : List Nat) : List Nat :=
  bs.foldl (fun q b => insertRequest blk b q) q

theorem insertRequests_perm (bs q : List Nat) : (insertRequests blk bs q).Perm (bs ++ q) := by
  induction bs generalizing q with
  | nil => exact List.Perm.refl _
  | cons b bs ih =>
    refine (ih _).trans ?_
    exact ((insertRequest_perm blk b q).append_left bs).trans List.perm_middle

/-- Whether a batch displaces depends only on which block numbers are queued. -/
theorem NotDisplacing.congr {h : Nat} {t t' bs : List Nat} (ht : ∀ x, x ∈ t ↔ x ∈ t') :
    NotDisplacing h t bs ↔ NotDisplacing h t' bs := by
  induction bs generalizing t t' with
  | nil => exact Iff.rfl
  | cons b bs ih =>
    unfold NotDisplacing
    refine and_congr ?_ (ih (fun x => by simp [ht x]))
    simp [ht]

/-- A batch that displaces nothing leaves the head in place. -/
theorem insertRequests_head_of_notDisplacing {h : Nat} {t bs : List Nat}
    (hnd : NotDisplacing (blk h) (t.map blk) (bs.map blk)) :
    (insertRequests blk bs (h :: t)).head? = some h := by
  induction bs generalizing t with
  | nil => rfl
  | cons b bs ih =>
    obtain ⟨hb, hbs⟩ := hnd
    obtain ⟨t', ht', hperm⟩ := insertRequest_cons blk (b := b) (h := h) (t := t)
      (by simpa using hb)
    show (insertRequests blk bs (insertRequest blk b (h :: t))).head? = some h
    rw [ht']
    apply ih
    refine (NotDisplacing.congr fun x => ?_).2 hbs
    rw [← List.map_cons, List.mem_map, List.mem_map]
    simp [hperm.mem_iff]

/-- The head after a batch is the old head or a buffer of the batch. -/
theorem insertRequests_head_mem (bs : List Nat) (h : Nat) (t : List Nat) :
    ∃ x ∈ h :: bs, (insertRequests blk bs (h :: t)).head? = some x := by
  induction bs generalizing h t with
  | nil => exact ⟨h, List.mem_cons_self, rfl⟩
  | cons b bs ih =>
    have hhead := insertRequest_head blk b h t
    have : ∃ y ∈ [h, b], (insertRequest blk b (h :: t)).head? = some y := by
      split at hhead
      · exact ⟨h, by simp, hhead⟩
      · exact ⟨b, by simp, hhead⟩
    obtain ⟨y, hy, hhd⟩ := this
    obtain ⟨t', ht'⟩ := List.head?_eq_some_iff.1 hhd
    obtain ⟨x, hx, hres⟩ := ih y t'
    refine ⟨x, ?_, ?_⟩
    · simp only [List.mem_cons, List.not_mem_nil, or_false] at hx hy ⊢
      rcases hx with rfl | hx
      · rcases hy with rfl | rfl
        · exact .inl rfl
        · exact .inr (.inl rfl)
      · exact .inr (.inr hx)
    · show (insertRequests blk bs (insertRequest blk b (h :: t))).head? = some x
      rw [ht', hres]

/-- A batch that displaces something changes the head. -/
theorem insertRequests_head_of_displacing {h : Nat} {t bs : List Nat} (hh : h ∉ bs)
    (hnd : ¬ NotDisplacing (blk h) (t.map blk) (bs.map blk)) :
    (insertRequests blk bs (h :: t)).head? ≠ some h := by
  induction bs generalizing t with
  | nil => exact absurd trivial hnd
  | cons b bs ih =>
    rw [List.mem_cons, not_or] at hh
    show (insertRequests blk bs (insertRequest blk b (h :: t))).head? ≠ some h
    by_cases hb : blk h ≤ blk b ∨ ∃ x ∈ t, blk b ≤ blk x
    · obtain ⟨t', ht', hperm⟩ := insertRequest_cons blk hb
      rw [ht']
      apply ih hh.2
      intro hc
      refine hnd ⟨by simpa using hb, (NotDisplacing.congr fun x => ?_).1 hc⟩
      rw [← List.map_cons, List.mem_map, List.mem_map]
      simp [hperm.mem_iff]
    · -- `b` is the head now, and the old head never comes back to the front
      have hhead := insertRequest_head blk b h t
      rw [if_neg hb] at hhead
      obtain ⟨t', ht'⟩ := List.head?_eq_some_iff.1 hhead
      rw [ht']
      obtain ⟨x, hx, hres⟩ := insertRequests_head_mem blk bs b t'
      rw [hres]
      rintro ⟨⟩
      rcases List.mem_cons.1 hx with hxb | hxb
      · exact hh.1 hxb
      · exact hh.2 hxb

end Insertion

/-! ## §5 The driver invariant -/

/-- The command in flight is that of the head of the queue, the counter is the length of the queue,
    and the queued buffers are distinct buffers of the cache with block numbers on the disk. -/
structure Inv (s : IdeManager α) : Prop where
  flight : s.inFlight = s.ideQueue.head?.map (command s)
  count : s.nRequests = s.ideQueue.length
  nodup : s.ideQueue.Nodup
  bound : ∀ b ∈ s.ideQueue, b < NBUF ∧ (s.buf b).blockno < FSSIZE

theorem ideInit_inv (slave : Bool) (buf : Nat → Buf α) (disk : Nat → Nat → α) :
    Inv (ideInit slave buf disk) :=
  ⟨rfl, rfl, List.nodup_nil, by simp [ideInit]⟩

theorem Inv.headInFlight {s : IdeManager α} (h : Inv s) : HeadInFlight s := by
  unfold HeadInFlight
  rw [h.flight]
  cases s.ideQueue <;> rfl

/-- A queue of distinct cache buffers is short. -/
theorem length_le_NBUF {q : List Nat} (hnd : q.Nodup) (hb : ∀ b ∈ q, b < NBUF) :
    q.length ≤ NBUF := by
  have hsub : q ⊆ List.range NBUF := fun b hb' => List.mem_range.2 (hb b hb')
  simpa using (hnd.subperm hsub).length_le

/-- `update_idequeue`, repeated, changes only the queue and its counter. -/
theorem foldl_updateIdequeue (bs : List Nat) (s : IdeManager α) (hlt : s.nRequests < 2 ^ 32) :
    bs.foldl updateIdequeue s =
      { s with
        nRequests := (s.nRequests + bs.length) % 2 ^ 32
        ideQueue := insertRequests (fun f => (s.buf f).blockno) bs s.ideQueue } := by
  induction bs generalizing s with
  | nil =>
    have : (s.nRequests + ([] : List Nat).length) % 2 ^ 32 = s.nRequests := Nat.mod_eq_of_lt hlt
    rw [this]
    rfl
  | cons b bs ih =>
    rw [List.foldl_cons, ih _ (Nat.mod_lt _ (by norm_num))]
    simp only [updateIdequeue, insertRequests, List.foldl_cons, List.length_cons]
    congr 1
    omega

/-- A submission of the buffers `bs`: insert them, and start the head if the queue was empty. -/
def submit (s : IdeManager α) (bs : List Nat) : IdeManager α :=
  let s₁ := bs.foldl updateIdequeue s
  if s₁.nRequests = bs.length then
    match s₁.ideQueue with
    | tb :: _ => ideStart s₁ tb
    | [] => s₁
  else s₁

/-- The buffers of a submission are distinct cache buffers that are not queued yet. -/
def Fresh (s : IdeManager α) (bs : List Nat) : Prop :=
  bs.Nodup ∧ ∀ b ∈ bs, b < NBUF ∧ b ∉ s.ideQueue ∧ (s.buf b).blockno < FSSIZE

theorem fresh_singleton {s : IdeManager α} {b : Nat}
    (h : b < NBUF ∧ b ∉ s.ideQueue ∧ (s.buf b).blockno < FSSIZE) : Fresh s [b] :=
  ⟨List.nodup_singleton b, fun x hx => by rw [List.mem_singleton.1 hx]; exact h⟩

/-- The queue after a submission. -/
theorem submit_queue {s : IdeManager α} (h : Inv s) {bs : List Nat} (hf : Fresh s bs) :
    (insertRequests (fun f => (s.buf f).blockno) bs s.ideQueue).Nodup ∧
      (∀ b ∈ insertRequests (fun f => (s.buf f).blockno) bs s.ideQueue,
        b < NBUF ∧ (s.buf b).blockno < FSSIZE) ∧
      (insertRequests (fun f => (s.buf f).blockno) bs s.ideQueue).length =
        bs.length + s.ideQueue.length := by
  have hp := insertRequests_perm (fun f => (s.buf f).blockno) bs s.ideQueue
  refine ⟨?_, ?_, ?_⟩
  · rw [hp.nodup_iff, List.nodup_append]
    refine ⟨hf.1, h.nodup, fun a ha b hb hab => ?_⟩
    exact (hf.2 a ha).2.1 (hab ▸ hb)
  · intro b hb
    rcases List.mem_append.1 (hp.mem_iff.1 hb) with hb | hb
    · exact ⟨(hf.2 b hb).1, (hf.2 b hb).2.2⟩
    · exact h.bound b hb
  · rw [hp.length_eq, List.length_append]

/-- The counter after a submission does not wrap. -/
theorem submit_count {s : IdeManager α} (h : Inv s) {bs : List Nat} (hf : Fresh s bs) :
    (s.nRequests + bs.length) % 2 ^ 32 =
      (insertRequests (fun f => (s.buf f).blockno) bs s.ideQueue).length := by
  obtain ⟨hnd, hb, hlen⟩ := submit_queue h hf
  have := length_le_NBUF hnd (fun b hb' => (hb b hb').1)
  unfold NBUF at this
  rw [h.count]
  omega

/-- A submission that displaces nothing keeps the invariant. -/
theorem submit_inv {s : IdeManager α} (h : Inv s) {bs : List Nat} (hne : bs ≠ [])
    (hf : Fresh s bs) (hs : Submits s bs) : Inv (submit s bs) := by
  obtain ⟨hnd, hb, hlen⟩ := submit_queue h hf
  have hcount := submit_count h hf
  have hlt : s.nRequests < 2 ^ 32 := by
    have := length_le_NBUF h.nodup (fun b hb' => (h.bound b hb').1)
    unfold NBUF at this
    rw [h.count]
    omega
  unfold submit
  simp only [foldl_updateIdequeue bs s hlt]
  cases hq : s.ideQueue with
  | nil =>
    -- nothing was in flight: the head of the new queue is started
    rw [hq] at hnd hb hlen hcount
    have hpos : 0 < bs.length := List.length_pos_of_ne_nil hne
    rw [if_pos (by rw [hcount, hlen]; simp)]
    cases hq' : insertRequests (fun f => (s.buf f).blockno) bs [] with
    | nil =>
      rw [hq'] at hlen
      simp at hlen
      omega
    | cons tb rest =>
      rw [hq'] at hnd hb hcount
      have htb := (hb tb List.mem_cons_self).2
      simp only [ideStart, if_neg (by omega : ¬ FSSIZE ≤ (s.buf tb).blockno)]
      exact ⟨rfl, hcount, hnd, hb⟩
  | cons hd t =>
    -- a command is in flight already, and its buffer stays in front
    rw [hq] at hnd hb hlen hcount
    rw [if_neg (by rw [hcount, hlen]; simp)]
    have hhead := insertRequests_head_of_notDisplacing (fun f => (s.buf f).blockno) (hs hd t hq)
    refine ⟨?_, hcount, hnd, hb⟩
    show s.inFlight = _
    rw [h.flight, hq, hhead]
    rfl

/-- A submission that displaces the head breaks the property. -/
theorem submit_not_headInFlight {s : IdeManager α} (h : Inv s) {bs : List Nat}
    (hf : Fresh s bs) (hs : ¬ Submits s bs) : ¬ HeadInFlight (submit s bs) := by
  unfold Submits at hs
  push Not at hs
  obtain ⟨hd, t, hq, hdis⟩ := hs
  obtain ⟨hnd, hb, hlen⟩ := submit_queue h hf
  have hcount := submit_count h hf
  have hlt : s.nRequests < 2 ^ 32 := by
    have := length_le_NBUF h.nodup (fun b hb' => (h.bound b hb').1)
    unfold NBUF at this
    rw [h.count]
    omega
  have hnot : hd ∉ bs := fun hmem => (hf.2 hd hmem).2.1 (by simp [hq])
  have hhead := insertRequests_head_of_displacing (fun f => (s.buf f).blockno) hnot hdis
  unfold submit
  simp only [foldl_updateIdequeue bs s hlt]
  rw [hq] at hlen hcount
  rw [if_neg (by rw [hcount, hlen]; simp)]
  intro hin
  apply hhead
  unfold HeadInFlight at hin
  simp only [hq] at hin
  rw [hin, h.flight, hq]
  rfl

/-! ## §6 The interrupt -/

/-- Completing a read leaves the disk alone. -/
theorem complete_disk {s : IdeManager α} {b : Nat} (hflight : s.inFlight = some (command s b))
    (hd : (s.buf b).dirty = false) : (complete s).disk = s.disk := by
  simp [complete, hflight, command, hd]

/-- A read in flight delivers the block of its own buffer. -/
theorem completeBuf_data {s : IdeManager α} {b : Nat} (hflight : s.inFlight = some (command s b))
    (hd : (s.buf b).dirty = false) :
    (completeBuf s b).data = s.disk ((s.buf b).dev % 2) (s.buf b).blockno := by
  simp [completeBuf, hd, insl, hflight, command]

/-- Starting the next request restores the invariant. -/
theorem startNext_inv {s : IdeManager α} (hflight : s.inFlight = none)
    (hcount : s.nRequests = s.ideQueue.length) (hnd : s.ideQueue.Nodup)
    (hbound : ∀ b ∈ s.ideQueue, b < NBUF ∧ (s.buf b).blockno < FSSIZE) :
    Inv (startNext s) ∧ (startNext s).ideQueue = s.ideQueue ∧ (startNext s).buf = s.buf := by
  unfold startNext
  cases hq : s.ideQueue with
  | nil =>
    rw [hq] at hcount
    rw [if_pos (by simpa using hcount)]
    exact ⟨⟨by rw [hflight, hq]; rfl, by rw [hcount, hq], hq ▸ List.nodup_nil, hbound⟩, hq, rfl⟩
  | cons next rest =>
    rw [if_neg (by rw [hcount, hq]; simp)]
    have hnext := (hbound next (by simp [hq])).2
    have hstart : ideStart s next = { s with inFlight := some (command s next) } :=
      if_neg (by omega : ¬ FSSIZE ≤ (s.buf next).blockno)
    show Inv (ideStart s next) ∧ (ideStart s next).ideQueue = _ ∧ (ideStart s next).buf = _
    rw [hstart]
    exact ⟨⟨by rw [hq]; rfl, hcount, hnd, hbound⟩, hq, rfl⟩

/-- The interrupt completes the buffer in flight with the contents of its own block, and starts the
    next request. -/
theorem ideIntr_spec {s : IdeManager α} (h : Inv s) {b : Nat} {rest : List Nat}
    (hq : s.ideQueue = b :: rest) :
    Inv (ideIntr s) ∧ (ideIntr s).ideQueue = rest ∧ ((ideIntr s).buf b).valid = true ∧
      ((ideIntr s).buf b).dirty = false ∧
      ((s.buf b).dirty = false →
        ((ideIntr s).buf b).data = s.disk ((s.buf b).dev % 2) (s.buf b).blockno) := by
  have hflight : s.inFlight = some (command s b) := by rw [h.flight, hq]; rfl
  have hnd : (b :: rest).Nodup := hq ▸ h.nodup
  have hcount : s.nRequests = rest.length + 1 := by rw [h.count, hq]; rfl
  have hle := length_le_NBUF h.nodup (fun b hb' => (h.bound b hb').1)
  rw [hq, List.length_cons] at hle
  unfold NBUF at hle
  have hdec : (s.nRequests + (2 ^ 32 - 1)) % 2 ^ 32 = rest.length := by omega
  have hintr : ideIntr s = startNext (finishHead (complete s) b rest) := by
    unfold ideIntr
    have hne : ¬ (complete s).nRequests = 0 := by
      show ¬ s.nRequests = 0
      omega
    have hq' : (complete s).ideQueue = b :: rest := hq
    simp only [if_neg hne, hq']
  -- the other queued buffers are not touched
  have hother : ∀ x ∈ rest, (finishHead (complete s) b rest).buf x = s.buf x := by
    intro x hx
    have : x ≠ b := fun he => (List.nodup_cons.1 hnd).1 (he ▸ hx)
    simp [finishHead, this, complete]
  obtain ⟨hinv, hqueue, hbuf⟩ := startNext_inv (s := finishHead (complete s) b rest)
    rfl hdec (List.nodup_cons.1 hnd).2
    (fun x hx => by rw [hother x hx]; exact h.bound x (by rw [hq]; exact List.mem_cons_of_mem _ hx))
  rw [hintr, hqueue, hbuf]
  refine ⟨hinv, rfl, by simp [finishHead, completeBuf], by simp [finishHead, completeBuf], ?_⟩
  intro hd
  have hdata := completeBuf_data (s := complete s) (b := b) hflight hd
  rw [complete_disk hflight hd] at hdata
  have hbuf' : (finishHead (complete s) b rest).buf b = completeBuf (complete s) b := by
    simp [finishHead]
  rw [hbuf']
  exact hdata

/-! ## §7 Whole runs -/

/-- The submission part of `ide_read_write` is a submission of one buffer, unless a guard stops
    it. -/
theorem ideReadWrite_eq {s : IdeManager α} (h : Inv s) {b : Nat} (hf : Fresh s [b])
    (hv : ((s.buf b).valid && !(s.buf b).dirty) = false) (hd : noDisk s b = false) :
    ideReadWrite s b = submit s [b] := by
  have hcount := submit_count h hf
  have hrw : ideReadWrite s b =
      if (updateIdequeue s b).nRequests = 1 then ideStart (updateIdequeue s b) b
      else updateIdequeue s b := by
    simp only [ideReadWrite, hv, hd, Bool.false_eq_true, if_false]
  rw [hrw]
  by_cases h1 : (updateIdequeue s b).nRequests = 1
  · have hlen : s.ideQueue.length = 0 := by
      have hl := (submit_queue h hf).2.2
      have h1' : (s.nRequests + [b].length) % 2 ^ 32 = 1 := h1
      rw [hcount, hl] at h1'
      simpa using h1'
    have hq : (updateIdequeue s b).ideQueue = [b] := by
      simp [updateIdequeue, List.length_eq_zero_iff.1 hlen, insertRequest]
    have hsub : submit s [b] = match (updateIdequeue s b).ideQueue with
        | tb :: _ => ideStart (updateIdequeue s b) tb
        | [] => updateIdequeue s b := if_pos h1
    rw [hsub, hq, if_pos h1]
  · have hsub : submit s [b] = updateIdequeue s b := if_neg h1
    rw [hsub, if_neg h1]

theorem ideWriteDozens_eq {s : IdeManager α} {b₀ : Nat} {bs : List Nat}
    (hd : noDisk s b₀ = false) : ideWriteDozens s (b₀ :: bs) = submit s (b₀ :: bs) := by
  simp only [ideWriteDozens, hd, Bool.false_eq_true, if_false, submit]

/-- A step that leaves the state alone, or that is a good submission, is a good step. -/
theorem stepOk_of_inv {s s' : IdeManager α} {o : Op α} (ho : o ≠ .intr) (h : Inv s') :
    StepOk s o s' := by
  refine ⟨h.headInFlight, fun r hintr => ?_⟩
  cases o with
  | intr => exact absurd rfl ho
  | touch b v => exact hintr.elim
  | readWrite b => exact hintr.elim
  | writeDozens bs => exact hintr.elim

/-- Every step behaves when the head is not displaced. -/
theorem step_ok_of_notDisplaced (s : IdeManager α) (o : Op α) (h : Inv s) (hv : Valid s o)
    (hnd : NotDisplaced s o) : ∃ s', step s o = .ok s' ∧ StepOk s o s' ∧ Inv s' := by
  cases o with
  | touch b v =>
    have hbuf : ∀ x ∈ s.ideQueue, Function.update s.buf b v x = s.buf x := by
      intro x hx
      have : x ≠ b := fun he => hv (he ▸ hx)
      simp [this]
    have hinv : Inv { s with buf := Function.update s.buf b v } := by
      refine ⟨?_, h.count, h.nodup, fun x hx => ?_⟩
      swap
      · show x < NBUF ∧ (Function.update s.buf b v x).blockno < FSSIZE
        rw [hbuf x hx]
        exact h.bound x hx
      show s.inFlight = s.ideQueue.head?.map _
      rw [h.flight]
      cases hq : s.ideQueue with
      | nil => rfl
      | cons x t =>
        have : Function.update s.buf b v x = s.buf x := hbuf x (by simp [hq])
        simp [command, this]
    exact ⟨_, rfl, stepOk_of_inv (by simp) hinv, hinv⟩
  | readWrite b =>
    have hinv : Inv (ideReadWrite s b) := by
      cases hva : ((s.buf b).valid && !(s.buf b).dirty) with
      | true => simpa [ideReadWrite, hva] using h
      | false =>
        cases hdk : noDisk s b with
        | true => simpa [ideReadWrite, hva, hdk] using h
        | false =>
          have hf : Fresh s [b] := fresh_singleton hv
          rw [ideReadWrite_eq h hf hva hdk]
          exact submit_inv h (by simp) hf (hnd hva hdk)
    exact ⟨_, rfl, stepOk_of_inv (by simp) hinv, hinv⟩
  | writeDozens bs =>
    have hinv : Inv (ideWriteDozens s bs) := by
      cases bs with
      | nil => exact h
      | cons b₀ bs =>
        cases hdk : noDisk s b₀ with
        | true => simpa [ideWriteDozens, hdk] using h
        | false =>
          rw [ideWriteDozens_eq hdk]
          exact submit_inv h (by simp) hv (hnd (by simpa using hdk))
    exact ⟨_, rfl, stepOk_of_inv (by simp) hinv, hinv⟩
  | intr =>
    cases hq : s.ideQueue with
    | nil =>
      have : s.inFlight = none := by rw [h.flight, hq]; rfl
      exact absurd this hv
    | cons b rest =>
      obtain ⟨hinv, hqueue, hval, hdirty, hdata⟩ := ideIntr_spec h hq
      refine ⟨_, rfl, ⟨hinv.headInFlight, fun r _ hr => ?_⟩, hinv⟩
      have hbuf : r.buf = b := by
        rw [h.flight, hq] at hr
        cases hr
        rfl
      rw [hbuf, hqueue, hq]
      exact ⟨rfl, hval, hdirty, hdata⟩

/-- A displacing submission leaves a head that is not in flight. -/
theorem not_stepOk_of_displaced (s : IdeManager α) (o : Op α) (s' : IdeManager α) (h : Inv s)
    (hv : Valid s o) (hnd : ¬ NotDisplaced s o) (hok : step s o = .ok s') : ¬ StepOk s o s' := by
  rintro ⟨hhead, _⟩
  cases o with
  | touch b v => exact hnd trivial
  | intr => exact hnd trivial
  | readWrite b =>
    simp only [NotDisplaced] at hnd
    push Not at hnd
    obtain ⟨hva, hdk, hs⟩ := hnd
    have hf : Fresh s [b] := fresh_singleton hv
    obtain rfl := Except.ok.inj hok
    rw [ideReadWrite_eq h hf hva hdk] at hhead
    exact submit_not_headInFlight h hf hs hhead
  | writeDozens bs =>
    simp only [NotDisplaced] at hnd
    push Not at hnd
    obtain ⟨hdk, hs⟩ := hnd
    obtain rfl := Except.ok.inj hok
    cases bs with
    | nil => exact hs (fun _ _ _ => trivial)
    | cons b₀ bs =>
      rw [ideWriteDozens_eq (hdk b₀ rfl)] at hhead
      exact submit_not_headInFlight h hv hs hhead

/-- **Exact condition for the head to be the request in flight**: in every run of submissions and
    interrupts from `ide_init`, with buffers changed only by their holders, the head of the queue is
    the request in flight after every step, each interrupt completes the buffer last passed to
    `ide_start`, and a completed read holds the contents of its own block, if and only if no
    submission has a block number below that of the head and above all other queued ones. -/
theorem headInFlight_iff_notDisplacing (slave : Bool) (buf : Nat → Buf α) (disk : Nat → Nat → α)
    (ops : List (Op α)) (hvalid : Meets step Valid (ideInit slave buf disk) ops) :
    Along step StepOk (ideInit slave buf disk) ops ↔
      Meets step NotDisplaced (ideInit slave buf disk) ops :=
  along_iff_meets Inv step_ok_of_notDisplaced not_stepOk_of_displaced
    (ideInit_inv slave buf disk) hvalid

instance decidableValid (s : IdeManager α) : ∀ o : Op α, Decidable (Valid s o)
  | .touch b _ => inferInstanceAs (Decidable (b ∉ s.ideQueue))
  | .readWrite b =>
    inferInstanceAs (Decidable (b < NBUF ∧ b ∉ s.ideQueue ∧ (s.buf b).blockno < FSSIZE))
  | .writeDozens bs => inferInstanceAs (Decidable (bs.Nodup ∧
      ∀ b ∈ bs, b < NBUF ∧ b ∉ s.ideQueue ∧ (s.buf b).blockno < FSSIZE))
  | .intr => decidable_of_iff (s.inFlight.isSome = true) Option.isSome_iff_ne_none

/-- Buffer `b` stands for block `10 * b`, not read yet; every block holds its own number. -/
def freshBufs (b : Nat) : Buf Nat := ⟨0, 10 * b, false, false, 0, none⟩

/-- Two reads with rising block numbers, a batch behind them, and an interrupt. -/
theorem headInFlight_iff_notDisplacing_rising :
    Along step StepOk (ideInit false freshBufs fun _ n => n)
        [.readWrite 1, .readWrite 2, .writeDozens [4, 3], .intr] ↔
      Meets step NotDisplaced (ideInit false freshBufs fun _ n => n)
        [.readWrite 1, .readWrite 2, .writeDozens [4, 3], .intr] :=
  headInFlight_iff_notDisplacing _ _ _ _ (by decide +kernel)

/-- Block 20 is being read when block 10 is asked for. -/
def displacingRun : List (Op Nat) := [.readWrite 2, .readWrite 1, .intr]

/-- Buffer 1 goes in front of buffer 2, the interrupt completes buffer 1, and it ends up valid with
    the contents of block 20. -/
theorem displaced_head_reads_other_block :
    Meets step Valid (ideInit false freshBufs fun _ n => n) displacingRun ∧
      ¬ Along step StepOk (ideInit false freshBufs fun _ n => n) displacingRun ∧
      (displacingRun.foldlM step (ideInit false freshBufs fun _ n => n)).toOption.map
          (fun s : IdeManager Nat => ((s.buf 1).valid, (s.buf 1).blockno, (s.buf 1).data)) =
        some (true, 10, 20) := by
  refine ⟨by decide +kernel, fun h => ?_, by decide +kernel⟩
  obtain ⟨s₁, h₁, _, s₂, h₂, ⟨hhead, _⟩, _⟩ := h
  obtain rfl := Except.ok.inj h₁
  obtain rfl := Except.ok.inj h₂
  unfold HeadInFlight at hhead
  revert hhead
  decide +kernel

end WeiOS.Ide
