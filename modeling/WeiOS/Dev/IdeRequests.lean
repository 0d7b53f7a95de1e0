import Mathlib
import WeiOS.Dev.Ide

/-!
# Requests of Processes to the Disk

The driver of `kern/ide.c` together with the processes that use it. A process holds a buffer (`B_BUSY`) from
`getblk` to `brelse`; it submits a buffer it holds with `ide_read_write`, or collects buffers in a batch
(`dozens_init`, then one pointer for each buffer) and submits them with `bwrite_dozens`. It then sleeps, and
makes the loop test again whenever it is woken up. All buffers are on the root device.

## Main results
- `requests_of_run`: in every run the request counter is the length of the queue, no buffer is queued twice,
  the counter of a submitted batch is the number of its buffers still queued, and a submitted request returns
  only when its buffers have been completed.
-/

namespace WeiOS.Requests

open Ide hiding Op step Inv Valid StepOk

/-! ## §1 Processes and their batches -/

/-- `struct dozenbufs`, as its owner sees it; `n_request` is kept by the driver under `id`. -/
structure Batch where
  id : Nat
  nBufs : Nat
  bufArray : List Nat

/-- The call a process sleeps in. -/
inductive Call
  | none
  | readWrite (b : Nat)
  | writeDozens
  deriving DecidableEq

variable {α : Type}

/-- The driver, the holders of the buffers, and for each process its call and its batch. -/
structure Sys (α : Type) where
  ide : IdeManager α
  holder : Nat → Option Nat
  call : Nat → Call
  batch : Nat → Option Batch
  nextId : Nat

/-- The device of all buffers (`include/param.h`). -/
def ROOTDEV : Nat := 1

/-- The state after `ide_init` and `buffer_init`. -/
def start (slave : Bool) (zeros : α) (disk : Nat → Nat → α) : Sys α where
  ide := ideInit slave (fun _ => ⟨ROOTDEV, 0, false, false, zeros, none⟩) disk
  holder := fun _ => none
  call := fun _ => .none
  batch := fun _ => none
  nextId := 0

/-- The buffers in the batch of a process. -/
def Sys.array (s : Sys α) (p : Nat) : List Nat := ((s.batch p).map Batch.bufArray).getD []

def Sys.setBuf (s : Sys α) (b : Nat) (v : Buf α) : Sys α :=
  { s with ide := { s.ide with buf := Function.update s.ide.buf b v } }

/-- What a process or the hardware does next. -/
inductive Op (α : Type)
  /-- `getblk` gives the buffer to the process, for a block it may not have held before. -/
  | getblk (p b blockno : Nat)
  /-- The holder changes the contents or the flags. -/
  | touch (p b : Nat) (valid dirty : Bool) (data : α)
  | readWrite (p b : Nat)
  | dozensInit (p nBufs : Nat)
  /-- `dozens->buf_array[i] = b`, `b->dozen_ptr = dozens`. -/
  | attach (p b : Nat)
  | bwriteDozens (p : Nat)
  /-- A process whose call sleeps makes its loop test again. -/
  | wake (p : Nat)
  | brelse (p b : Nat)
  | intr

/-- The flags that `bwrite_dozens` gives to the buffers of a batch. -/
def markDirty (bs : List Nat) (buf : Nat → Buf α) : Nat → Buf α :=
  fun b => if b ∈ bs then { buf b with valid := false, dirty := true } else buf b

/-- `ide_read_write` of a held buffer up to its first sleep: it returns at once when the buffer is valid and
    clean (0) or its disk is absent (-1). -/
def readWrite (s : Sys α) (p b : Nat) : Sys α :=
  if (s.ide.buf b).valid && !(s.ide.buf b).dirty then s
  else if noDisk s.ide b then s
  else
    { s with
      ide := ideReadWrite s.ide b
      call := Function.update s.call p (.readWrite b) }

/-- `bwrite_dozens` up to its first sleep. An empty batch and one on an absent disk are refused (-1), and the
    caller releases the array. -/
def bwriteDozens (s : Sys α) (p : Nat) (B : Batch) : Sys α :=
  let ide := { s.ide with buf := markDirty B.bufArray s.ide.buf }
  match B.bufArray with
  | [] => { s with ide := ide, batch := Function.update s.batch p none }
  | b₀ :: _ =>
    if noDisk ide b₀ then { s with ide := ide, batch := Function.update s.batch p none }
    else
      { s with
        ide := ideWriteDozens ide B.bufArray
        call := Function.update s.call p .writeDozens }

/-- The loop test of a call, after which it returns or sleeps again; `ide_write_dozens` is followed by the
    release of the array. -/
def wake (s : Sys α) (p : Nat) : Sys α :=
  match s.call p with
  | .none => s
  | .readWrite b =>
    if (s.ide.buf b).valid && !(s.ide.buf b).dirty then
      { s with call := Function.update s.call p .none }
    else s
  | .writeDozens =>
    match s.batch p with
    | none => s
    | some B =>
      if 0 < s.ide.nRequest B.id then s
      else
        { s with
          call := Function.update s.call p .none
          batch := Function.update s.batch p none }

/-- One step. A process acts only outside of its calls, on buffers it holds, and leaves the buffers of its
    batch alone until the batch is done; a step it cannot take leaves everything as it is. -/
def step (s : Sys α) : Op α → Sys α
  | .getblk p b blockno =>
    if s.call p = .none ∧ s.holder b = none ∧ b < NBUF then
      { s.setBuf b { s.ide.buf b with
          blockno := blockno
          valid := (s.ide.buf b).valid && decide ((s.ide.buf b).blockno = blockno) } with
        holder := Function.update s.holder b (some p) }
    else s
  | .touch p b valid dirty data =>
    if s.call p = .none ∧ s.holder b = some p then
      s.setBuf b { s.ide.buf b with valid := valid, dirty := dirty, data := data }
    else s
  | .readWrite p b =>
    if s.call p = .none ∧ s.holder b = some p ∧ b ∉ s.array p then readWrite s p b else s
  | .dozensInit p nBufs =>
    if s.call p = .none ∧ s.batch p = none then
      { s with
        ide := { s.ide with nRequest := Function.update s.ide.nRequest s.nextId nBufs }
        batch := Function.update s.batch p (some ⟨s.nextId, nBufs, []⟩)
        nextId := s.nextId + 1 }
    else s
  | .attach p b =>
    match s.batch p with
    | none => s
    | some B =>
      if s.call p = .none ∧ s.holder b = some p ∧ b ∉ B.bufArray ∧ B.bufArray.length < B.nBufs then
        { s.setBuf b { s.ide.buf b with dozenPtr := some B.id } with
          batch := Function.update s.batch p (some { B with bufArray := B.bufArray ++ [b] }) }
      else s
  | .bwriteDozens p =>
    match s.batch p with
    | none => s
    | some B => if s.call p = .none ∧ B.bufArray.length = B.nBufs then bwriteDozens s p B else s
  | .wake p => wake s p
  | .brelse p b =>
    if s.call p = .none ∧ s.holder b = some p ∧ b ∉ s.array p then
      { s with holder := Function.update s.holder b none }
    else s
  | .intr => { s with ide := ideIntr s.ide }

/-! ## §2 What the driver does to the queue -/

/-- A submission adds buffers to the queue and changes neither buffers nor batches. -/
structure Submitted (s s' : IdeManager α) (bs : List Nat) : Prop where
  queue : s'.ideQueue.Perm (bs ++ s.ideQueue)
  count : s'.nRequests = (s.nRequests + bs.length) % 2 ^ 32
  buf : s'.buf = s.buf
  nRequest : s'.nRequest = s.nRequest
  slave : s'.slaveDiskExisted = s.slaveDiskExisted

theorem ideStart_submitted {s s' : IdeManager α} {bs : List Nat} (h : Submitted s s' bs) (b : Nat) :
    Submitted s (ideStart s' b) bs := by
  unfold ideStart
  split
  · exact h
  · exact ⟨h.queue, h.count, h.buf, h.nRequest, h.slave⟩

theorem foldl_submitted (s : IdeManager α) (bs : List Nat) (hlt : s.nRequests < 2 ^ 32) :
    Submitted s (bs.foldl updateIdequeue s) bs := by
  rw [foldl_updateIdequeue bs s hlt]
  exact ⟨insertRequests_perm _ bs s.ideQueue, rfl, rfl, rfl, rfl⟩

theorem ideReadWrite_submitted {s : IdeManager α} {b : Nat}
    (hv : ((s.buf b).valid && !(s.buf b).dirty) = false) (hd : noDisk s b = false)
    (hlt : s.nRequests < 2 ^ 32) : Submitted s (ideReadWrite s b) [b] := by
  have hsub := foldl_submitted s [b] hlt
  have hrw : ideReadWrite s b =
      if (updateIdequeue s b).nRequests = 1 then ideStart (updateIdequeue s b) b
      else updateIdequeue s b := by
    simp only [ideReadWrite, hv, hd, Bool.false_eq_true, if_false]
  rw [hrw]
  split
  · exact ideStart_submitted hsub b
  · exact hsub

theorem ideWriteDozens_submitted {s : IdeManager α} {b₀ : Nat} {bs : List Nat}
    (hd : noDisk s b₀ = false) (hlt : s.nRequests < 2 ^ 32) :
    Submitted s (ideWriteDozens s (b₀ :: bs)) (b₀ :: bs) := by
  have hsub := foldl_submitted s (b₀ :: bs) hlt
  simp only [ideWriteDozens, hd, Bool.false_eq_true, if_false]
  split
  · split
    · exact ideStart_submitted hsub _
    · exact hsub
  · exact hsub

/-- An interrupt completes the head of the queue. -/
structure Completed (s s' : IdeManager α) (b : Nat) (rest : List Nat) : Prop where
  queue : s'.ideQueue = rest
  count : s'.nRequests = (s.nRequests + (2 ^ 32 - 1)) % 2 ^ 32
  done : (s'.buf b).valid = true ∧ (s'.buf b).dirty = false ∧ (s'.buf b).dozenPtr = none
  dev : ∀ x, (s'.buf x).dev = (s.buf x).dev
  other : ∀ x, x ≠ b → s'.buf x = s.buf x
  nRequest : ∀ d, s'.nRequest d =
    if (s.buf b).dozenPtr = some d then s.nRequest d - 1 else s.nRequest d
  slave : s'.slaveDiskExisted = s.slaveDiskExisted

theorem ideStart_completed {s s' : IdeManager α} {b : Nat} {rest : List Nat}
    (h : Completed s s' b rest) (c : Nat) : Completed s (ideStart s' c) b rest := by
  unfold ideStart
  split
  · exact h
  · exact ⟨h.queue, h.count, h.done, h.dev, h.other, h.nRequest, h.slave⟩

theorem ideIntr_completed {s : IdeManager α} {b : Nat} {rest : List Nat}
    (hq : s.ideQueue = b :: rest) (hn : s.nRequests ≠ 0) : Completed s (ideIntr s) b rest := by
  have hintr : ideIntr s = startNext (finishHead (complete s) b rest) := by
    unfold ideIntr
    have hne : ¬ (complete s).nRequests = 0 := hn
    have hq' : (complete s).ideQueue = b :: rest := hq
    simp only [if_neg hne, hq']
  have hfinish : Completed s (finishHead (complete s) b rest) b rest := by
    refine ⟨rfl, rfl, ?_, ?_, ?_, ?_, rfl⟩
    · simp [finishHead, completeBuf]
    · intro x
      by_cases hx : x = b
      · subst hx
        simp [finishHead, completeBuf, complete]
      · simp [finishHead, hx, complete]
    · intro x hx
      simp [finishHead, hx, complete]
    · intro d
      have hptr : ((complete s).buf b).dozenPtr = (s.buf b).dozenPtr := rfl
      simp only [finishHead, hptr]
      cases hp : (s.buf b).dozenPtr with
      | none => simp [complete]
      | some e =>
        by_cases he : e = d
        · subst he
          simp [complete]
        · simp [complete, he, Function.update_of_ne (Ne.symm he)]
  rw [hintr]
  unfold startNext
  split
  · exact hfinish
  · split
    · exact ideStart_completed hfinish _
    · exact hfinish

/-- An interrupt that finds the queue empty changes no buffer and no counter. -/
theorem ideIntr_empty {s : IdeManager α} (hn : s.nRequests = 0) :
    (ideIntr s).ideQueue = s.ideQueue ∧ (ideIntr s).nRequests = s.nRequests ∧
      (ideIntr s).buf = s.buf ∧ (ideIntr s).nRequest = s.nRequest ∧
      (ideIntr s).slaveDiskExisted = s.slaveDiskExisted := by
  have hintr : ideIntr s = { complete s with inFlight := none } := by
    unfold ideIntr
    have hz : (complete s).nRequests = 0 := hn
    simp only [if_pos hz]
  rw [hintr]
  exact ⟨rfl, rfl, rfl, rfl, rfl⟩

/-! ## §3 The invariant -/

/-- The buffer has been completed: its contents and the disk agree. -/
def Done (s : Sys α) (b : Nat) : Prop := (s.ide.buf b).valid = true ∧ (s.ide.buf b).dirty = false

/-- A batch that is being collected. -/
structure Building (s : Sys α) (B : Batch) : Prop where
  nRequest : s.ide.nRequest B.id = B.nBufs
  ptr : ∀ b ∈ B.bufArray, (s.ide.buf b).dozenPtr = some B.id

/-- A batch whose owner sleeps in `ide_write_dozens`. -/
structure Running (s : Sys α) (B : Batch) : Prop where
  nRequest : s.ide.nRequest B.id = ((B.bufArray.filter (· ∈ s.ide.ideQueue)).length : Int)
  queued : ∀ b ∈ B.bufArray, b ∈ s.ide.ideQueue → (s.ide.buf b).dozenPtr = some B.id
  done : ∀ b ∈ B.bufArray, b ∉ s.ide.ideQueue → Done s b ∧ (s.ide.buf b).dozenPtr = none

/-- The invariant. The batch pointers are right as long as there is a disk: a batch that is refused for lack
    of a disk leaves its pointers behind, but then nothing is ever queued. -/
structure Inv (s : Sys α) : Prop where
  dev : ∀ b, (s.ide.buf b).dev = ROOTDEV
  heldLt : ∀ b p, s.holder b = some p → b < NBUF
  nodup : s.ide.ideQueue.Nodup
  count : s.ide.nRequests = s.ide.ideQueue.length
  queued : ∀ b ∈ s.ide.ideQueue, ∃ p, s.holder b = some p ∧
    ((s.call p = .readWrite b ∧ (s.ide.buf b).dozenPtr = none) ∨
      (s.call p = .writeDozens ∧ ∃ B, s.batch p = some B ∧ b ∈ B.bufArray))
  asleep : ∀ p b, s.call p = .readWrite b → s.holder b = some p ∧
    (∀ B, s.batch p = some B → b ∉ B.bufArray) ∧ (b ∉ s.ide.ideQueue → Done s b)
  array : ∀ p B, s.batch p = some B →
    B.bufArray.Nodup ∧ B.id < s.nextId ∧ ∀ b ∈ B.bufArray, s.holder b = some p
  ids : ∀ p p' B B', s.batch p = some B → s.batch p' = some B' → B.id = B'.id → p = p'
  building : ∀ p B, s.batch p = some B → s.call p ≠ .writeDozens → Building s B
  running : ∀ p B, s.batch p = some B → s.call p = .writeDozens → Running s B
  hasBatch : ∀ p, s.call p = .writeDozens → ∃ B, s.batch p = some B
  ptr : s.ide.slaveDiskExisted = true → ∀ b d, (s.ide.buf b).dozenPtr = some d →
    ∃ p B, s.batch p = some B ∧ B.id = d ∧ b ∈ B.bufArray
  absent : s.ide.slaveDiskExisted = false → ∀ p, s.call p = .none
  pending : ∀ b ∈ s.ide.ideQueue, ¬ Done s b

variable {s : Sys α}

theorem Inv.lt (h : Inv s) {b : Nat} (hb : b ∈ s.ide.ideQueue) : b < NBUF := by
  obtain ⟨p, hp, _⟩ := h.queued b hb
  exact h.heldLt b p hp

theorem Inv.length_le (h : Inv s) : s.ide.ideQueue.length ≤ NBUF :=
  length_le_NBUF h.nodup fun _ hb => h.lt hb

theorem Inv.nRequests_lt (h : Inv s) : s.ide.nRequests < 2 ^ 32 := by
  have hle := h.length_le
  unfold NBUF at hle
  rw [h.count]
  omega

/-- A buffer whose holder is in no call is not queued. -/
theorem Inv.not_queued (h : Inv s) {p b : Nat} (hp : s.holder b = some p) (hc : s.call p = .none) :
    b ∉ s.ide.ideQueue := by
  intro hb
  obtain ⟨p', hp', hcall⟩ := h.queued b hb
  obtain rfl : p = p' := Option.some.inj (hp.symm.trans hp')
  rw [hc] at hcall
  obtain ⟨hno, _⟩ | ⟨hno, _⟩ := hcall
  · cases hno
  · cases hno

/-- A buffer that nobody holds is not queued. -/
theorem Inv.not_queued_free (h : Inv s) {b : Nat} (hb : s.holder b = none) :
    b ∉ s.ide.ideQueue := by
  intro hmem
  obtain ⟨p, hp, _⟩ := h.queued b hmem
  rw [hb] at hp
  cases hp

/-- The test for the disk is the same for all buffers. -/
theorem Inv.noDisk (h : Inv s) (b : Nat) : noDisk s.ide b = !s.ide.slaveDiskExisted := by
  unfold Ide.noDisk
  rw [h.dev b]
  simp [ROOTDEV]

/-! ## §4 Steps outside of the driver -/

section Update

variable {γ : Type} {p q : Nat}

/-- The value of an updated function is the new one, or one of another index. -/
theorem update_cases {f : Nat → γ} {v c : γ} (h : Function.update f p v q = c) :
    (q = p ∧ c = v) ∨ (q ≠ p ∧ f q = c) := by
  by_cases hq : q = p
  · subst hq
    exact .inl ⟨rfl, by simpa using h.symm⟩
  · exact .inr ⟨hq, by simpa [hq] using h⟩

theorem update_some_cases {f : Nat → Option γ} {v c : γ} (h : Function.update f p (some v) q = some c) :
    (q = p ∧ c = v) ∨ (q ≠ p ∧ f q = some c) := by
  rcases update_cases h with ⟨hq, hc⟩ | hold
  · exact .inl ⟨hq, Option.some.inj hc⟩
  · exact .inr hold

/-- A value other than the new one was there before. -/
theorem update_back {f : Nat → γ} {v c : γ} (hne : c ≠ v) (h : Function.update f p v q = c) : q ≠ p ∧ f q = c :=
  (update_cases h).resolve_left fun hc => hne hc.2

theorem update_keep {f : Nat → γ} {v c : γ} (hq : q ≠ p) (h : f q = c) : Function.update f p v q = c :=
  (Function.update_of_ne hq v f).trans h

end Update

/-- A change to a buffer that is not queued, by which it keeps its device and its batch pointer. -/
theorem Inv.setBuf (h : Inv s) {b : Nat} (hb : b ∉ s.ide.ideQueue)
    (hfree : ∀ p, s.holder b = some p → s.call p = .none) {v : Buf α} (hdev : v.dev = ROOTDEV)
    (hptr : v.dozenPtr = (s.ide.buf b).dozenPtr) : Inv (s.setBuf b v) := by
  have hptr' : ∀ x, ((s.setBuf b v).ide.buf x).dozenPtr = (s.ide.buf x).dozenPtr := by
    intro x
    by_cases hx : x = b
    · subst hx
      simpa [Sys.setBuf] using hptr
    · simp [Sys.setBuf, hx]
  have hdone : ∀ x, x ≠ b → (Done (s.setBuf b v) x ↔ Done s x) := by
    intro x hx
    simp [Done, Sys.setBuf, hx]
  constructor
  · intro x
    by_cases hx : x = b
    · subst hx
      simpa [Sys.setBuf] using hdev
    · simpa [Sys.setBuf, hx] using h.dev x
  · exact h.heldLt
  · exact h.nodup
  · exact h.count
  · intro x hx
    rw [hptr']
    exact h.queued x hx
  · intro p x hcall
    obtain ⟨hheld, hnot, hd⟩ := h.asleep p x hcall
    refine ⟨hheld, hnot, fun hxq => (hdone x ?_).2 (hd hxq)⟩
    rintro rfl
    exact absurd ((hfree p hheld).symm.trans hcall) (by simp)
  · exact h.array
  · exact h.ids
  · intro p B hB hcall
    obtain ⟨hn, hp⟩ := h.building p B hB hcall
    exact ⟨hn, fun x hx => (hptr' x).trans (hp x hx)⟩
  · intro p B hB hcall
    obtain ⟨hn, hq, hd⟩ := h.running p B hB hcall
    refine ⟨hn, fun x hx hxq => (hptr' x).trans (hq x hx hxq), fun x hx hxq => ?_⟩
    obtain ⟨hdx, hpx⟩ := hd x hx hxq
    refine ⟨(hdone x ?_).2 hdx, (hptr' x).trans hpx⟩
    rintro rfl
    exact absurd ((hfree p ((h.array p B hB).2.2 x hx)).symm.trans hcall) (by simp)
  · exact h.hasBatch
  · intro hs x d hd
    rw [hptr'] at hd
    exact h.ptr hs x d hd
  · exact h.absent
  · intro x hx
    rw [hdone x (fun heq => hb (heq ▸ hx))]
    exact h.pending x hx

/-- A buffer changes hands while neither its old nor its new holder has a use for it. -/
theorem Inv.setHolder (h : Inv s) {b : Nat} {o : Option Nat} (hlt : ∀ p, o = some p → b < NBUF)
    (hb : b ∉ s.ide.ideQueue)
    (hcall : ∀ p, s.call p ≠ .readWrite b)
    (harray : ∀ p B, s.batch p = some B → b ∉ B.bufArray) :
    Inv { s with holder := Function.update s.holder b o } := by
  have hother : ∀ x, x ≠ b → Function.update s.holder b o x = s.holder x :=
    fun x hx => Function.update_of_ne hx _ _
  constructor
  · exact h.dev
  · intro x p hx
    by_cases hxb : x = b
    · subst hxb
      exact hlt p (by simpa using hx)
    · exact h.heldLt x p ((hother x hxb).symm.trans hx)
  · exact h.nodup
  · exact h.count
  · intro x hx
    have hxb : x ≠ b := fun heq => hb (heq ▸ hx)
    obtain ⟨p, hp, hwhy⟩ := h.queued x hx
    exact ⟨p, (hother x hxb).trans hp, hwhy⟩
  · intro p x hx
    have hxb : x ≠ b := fun heq => hcall p (heq ▸ hx)
    obtain ⟨hp, hrest⟩ := h.asleep p x hx
    exact ⟨(hother x hxb).trans hp, hrest⟩
  · intro p B hB
    obtain ⟨hnd, hid, hheld⟩ := h.array p B hB
    refine ⟨hnd, hid, fun x hx => ?_⟩
    have hxb : x ≠ b := fun heq => harray p B hB (heq ▸ hx)
    exact (hother x hxb).trans (hheld x hx)
  · exact h.ids
  · intro p B hB hc
    exact ⟨(h.building p B hB hc).nRequest, (h.building p B hB hc).ptr⟩
  · intro p B hB hc
    exact ⟨(h.running p B hB hc).nRequest, (h.running p B hB hc).queued, (h.running p B hB hc).done⟩
  · exact h.hasBatch
  · exact h.ptr
  · exact h.absent
  · exact h.pending

/-- A process without a batch begins to collect one. -/
theorem Inv.dozensInit (h : Inv s) {p : Nat} (hc : s.call p = .none) (hno : s.batch p = none)
    (nBufs : Nat) : Inv (step s (.dozensInit p nBufs)) := by
  have hstep : step s (.dozensInit p nBufs) =
      { s with
        ide := { s.ide with nRequest := Function.update s.ide.nRequest s.nextId nBufs }
        batch := Function.update s.batch p (some ⟨s.nextId, nBufs, []⟩)
        nextId := s.nextId + 1 } := if_pos ⟨hc, hno⟩
  rw [hstep]
  -- the number of the new batch is fresh
  have hcount : ∀ q B, s.batch q = some B →
      Function.update s.ide.nRequest s.nextId (nBufs : Int) B.id = s.ide.nRequest B.id := by
    intro q B hB
    exact Function.update_of_ne (Nat.ne_of_lt (h.array q B hB).2.1) _ _
  have hkeep : ∀ q B, s.batch q = some B →
      Function.update s.batch p (some ⟨s.nextId, nBufs, []⟩) q = some B := by
    intro q B hB
    apply update_keep _ hB
    rintro rfl
    rw [hno] at hB
    cases hB
  constructor
  · exact h.dev
  · exact h.heldLt
  · exact h.nodup
  · exact h.count
  · intro b hb
    obtain ⟨q, hq, hwhy⟩ := h.queued b hb
    refine ⟨q, hq, hwhy.imp_right ?_⟩
    rintro ⟨hcq, B, hB, hmem⟩
    exact ⟨hcq, B, hkeep q B hB, hmem⟩
  · intro q b hcq
    obtain ⟨hheld, hnot, hd⟩ := h.asleep q b hcq
    refine ⟨hheld, fun B hB => ?_, hd⟩
    obtain ⟨_, rfl⟩ | ⟨_, hB⟩ := update_some_cases hB
    · exact List.not_mem_nil
    · exact hnot B hB
  · intro q B hB
    obtain ⟨_, rfl⟩ | ⟨_, hB⟩ := update_some_cases hB
    · exact ⟨List.nodup_nil, Nat.lt_succ_self _, fun b hb => absurd hb List.not_mem_nil⟩
    · obtain ⟨hnd, hid, hheld⟩ := h.array q B hB
      exact ⟨hnd, Nat.lt_succ_of_lt hid, hheld⟩
  · intro q q' B B' hB hB' hid
    obtain ⟨rfl, rfl⟩ | ⟨_, hB⟩ := update_some_cases hB
    · obtain ⟨rfl, _⟩ | ⟨_, hB'⟩ := update_some_cases hB'
      · rfl
      · have := (h.array q' B' hB').2.1
        simp only at hid
        omega
    · obtain ⟨_, rfl⟩ | ⟨_, hB'⟩ := update_some_cases hB'
      · have := (h.array q B hB).2.1
        simp only at hid
        omega
      · exact h.ids q q' B B' hB hB' hid
  · intro q B hB hcq
    obtain ⟨_, rfl⟩ | ⟨_, hB⟩ := update_some_cases hB
    · exact ⟨Function.update_self _ _ _, fun b hb => absurd hb List.not_mem_nil⟩
    · obtain ⟨hn, hp⟩ := h.building q B hB hcq
      exact ⟨(hcount q B hB).trans hn, hp⟩
  · intro q B hB hcq
    obtain ⟨rfl, _⟩ | ⟨_, hB⟩ := update_some_cases hB
    · exact absurd (hc.symm.trans hcq) (by simp)
    · obtain ⟨hn, hq, hd⟩ := h.running q B hB hcq
      exact ⟨(hcount q B hB).trans hn, hq, hd⟩
  · intro q hcq
    obtain ⟨B, hB⟩ := h.hasBatch q hcq
    exact ⟨B, hkeep q B hB⟩
  · intro hs b d hd
    obtain ⟨q, B, hB, hid, hmem⟩ := h.ptr hs b d hd
    exact ⟨q, B, hkeep q B hB, hid, hmem⟩
  · exact h.absent
  · exact h.pending

/-- A held buffer joins the batch of its holder. -/
theorem Inv.attach (h : Inv s) {p b : Nat} {B : Batch} (hB : s.batch p = some B)
    (hc : s.call p = .none) (hp : s.holder b = some p) (hb : b ∉ B.bufArray) :
    Inv { s.setBuf b { s.ide.buf b with dozenPtr := some B.id } with
      batch := Function.update s.batch p (some { B with bufArray := B.bufArray ++ [b] }) } := by
  have hbq := h.not_queued hp hc
  have hbuf : ∀ x, x ≠ b →
      (s.setBuf b { s.ide.buf b with dozenPtr := some B.id }).ide.buf x = s.ide.buf x := by
    intro x hx
    simp [Sys.setBuf, hx]
  have hself : (s.setBuf b { s.ide.buf b with dozenPtr := some B.id }).ide.buf b =
      { s.ide.buf b with dozenPtr := some B.id } := by
    simp [Sys.setBuf]
  -- buffers of other batches have other holders
  have hne : ∀ q C x, q ≠ p → s.batch q = some C → x ∈ C.bufArray → x ≠ b := by
    rintro q C x hq hC hx rfl
    exact hq (Option.some.inj (((h.array q C hC).2.2 x hx).symm.trans hp))
  constructor
  · intro x
    by_cases hx : x = b
    · subst hx
      exact (congrArg Buf.dev hself).trans (h.dev x)
    · exact (congrArg Buf.dev (hbuf x hx)).trans (h.dev x)
  · exact h.heldLt
  · exact h.nodup
  · exact h.count
  · intro x hx
    have hxb : x ≠ b := fun heq => hbq (heq ▸ hx)
    obtain ⟨q, hq, hwhy⟩ := h.queued x hx
    refine ⟨q, hq, ?_⟩
    obtain ⟨hcq, hptr⟩ | ⟨hcq, C, hC, hmem⟩ := hwhy
    · exact .inl ⟨hcq, (congrArg Buf.dozenPtr (hbuf x hxb)).trans hptr⟩
    · have hqp : q ≠ p := by
        rintro rfl
        exact absurd (hc.symm.trans hcq) (by simp)
      exact .inr ⟨hcq, C, update_keep hqp hC, hmem⟩
  · intro q x hcq
    obtain ⟨hheld, hnot, hd⟩ := h.asleep q x hcq
    have hqp : q ≠ p := by
      rintro rfl
      exact absurd (hc.symm.trans hcq) (by simp)
    have hxb : x ≠ b := by
      rintro rfl
      exact hqp (Option.some.inj (hheld.symm.trans hp))
    refine ⟨hheld, fun C hC => ?_, fun hxq => ?_⟩
    · obtain ⟨heq, _⟩ | ⟨_, hC⟩ := update_some_cases hC
      · exact absurd heq hqp
      · exact hnot C hC
    · obtain ⟨hv, hdirty⟩ := hd hxq
      exact ⟨(congrArg Buf.valid (hbuf x hxb)).trans hv,
        (congrArg Buf.dirty (hbuf x hxb)).trans hdirty⟩
  · intro q C hC
    obtain ⟨rfl, rfl⟩ | ⟨_, hC⟩ := update_some_cases hC
    · obtain ⟨hnd, hid, hheld⟩ := h.array q B hB
      refine ⟨?_, hid, ?_⟩
      · apply List.nodup_append.2
        refine ⟨hnd, List.nodup_singleton b, ?_⟩
        rintro x hx y hy rfl
        exact hb (List.mem_singleton.1 hy ▸ hx)
      · intro x hx
        obtain hx | hx := List.mem_append.1 hx
        · exact hheld x hx
        · rw [List.mem_singleton.1 hx]
          exact hp
    · exact h.array q C hC
  · intro q q' C C' hC hC' hid
    obtain ⟨rfl, rfl⟩ | ⟨_, hold⟩ := update_some_cases hC
    · obtain ⟨rfl, _⟩ | ⟨_, hC'⟩ := update_some_cases hC'
      · rfl
      · exact h.ids q q' B C' hB hC' hid
    · obtain ⟨rfl, rfl⟩ | ⟨_, hold'⟩ := update_some_cases hC'
      · exact h.ids q q' C B hold hB hid
      · exact h.ids q q' C C' hold hold' hid
  · intro q C hC hcq
    obtain ⟨rfl, rfl⟩ | ⟨hq, hC⟩ := update_some_cases hC
    · obtain ⟨hn, hptr⟩ := h.building q B hB hcq
      refine ⟨hn, fun x hx => ?_⟩
      by_cases hxb : x = b
      · subst hxb
        exact congrArg Buf.dozenPtr hself
      · obtain hx | hx := List.mem_append.1 hx
        · exact (congrArg Buf.dozenPtr (hbuf x hxb)).trans (hptr x hx)
        · exact absurd (List.mem_singleton.1 hx) hxb
    · obtain ⟨hn, hptr⟩ := h.building q C hC hcq
      exact ⟨hn, fun x hx =>
        (congrArg Buf.dozenPtr (hbuf x (hne q C x hq hC hx))).trans (hptr x hx)⟩
  · intro q C hC hcq
    obtain ⟨rfl, _⟩ | ⟨hq, hC⟩ := update_some_cases hC
    · exact absurd (hc.symm.trans hcq) (by simp)
    · obtain ⟨hn, hqueued, hd⟩ := h.running q C hC hcq
      refine ⟨hn, fun x hx hxq =>
        (congrArg Buf.dozenPtr (hbuf x (hne q C x hq hC hx))).trans (hqueued x hx hxq), ?_⟩
      intro x hx hxq
      obtain ⟨⟨hv, hdirty⟩, hnone⟩ := hd x hx hxq
      have hx' := hbuf x (hne q C x hq hC hx)
      exact ⟨⟨(congrArg Buf.valid hx').trans hv, (congrArg Buf.dirty hx').trans hdirty⟩,
        (congrArg Buf.dozenPtr hx').trans hnone⟩
  · intro q hcq
    obtain ⟨C, hC⟩ := h.hasBatch q hcq
    have hqp : q ≠ p := by
      rintro rfl
      exact absurd (hc.symm.trans hcq) (by simp)
    exact ⟨C, update_keep hqp hC⟩
  · intro hs x d hd
    by_cases hxb : x = b
    · subst hxb
      have hdB : some B.id = some d := (congrArg Buf.dozenPtr hself).symm.trans hd
      exact ⟨p, { B with bufArray := B.bufArray ++ [x] }, Function.update_self _ _ _,
        Option.some.inj hdB, List.mem_append_right _ List.mem_cons_self⟩
    · have hd : (s.ide.buf x).dozenPtr = some d := (congrArg Buf.dozenPtr (hbuf x hxb)).symm.trans hd
      obtain ⟨q, C, hC, hid, hmem⟩ := h.ptr hs x d hd
      by_cases hq : q = p
      · subst hq
        obtain rfl : B = C := Option.some.inj (hB.symm.trans hC)
        exact ⟨q, { B with bufArray := B.bufArray ++ [b] }, Function.update_self _ _ _, hid,
          List.mem_append_left _ hmem⟩
      · exact ⟨q, C, update_keep hq hC, hid, hmem⟩
  · exact h.absent
  · rintro x hx ⟨hv, hdirty⟩
    have hx' := hbuf x (fun heq => hbq (heq ▸ hx))
    exact h.pending x hx ⟨(congrArg Buf.valid hx').symm.trans hv,
      (congrArg Buf.dirty hx').symm.trans hdirty⟩

/-! ## §5 Submissions, returns and interrupts -/

/-- A request of one buffer. -/
theorem Inv.readWrite (h : Inv s) {p b : Nat} (hc : s.call p = .none) (hp : s.holder b = some p)
    (hb : ∀ B, s.batch p = some B → b ∉ B.bufArray) : Inv (readWrite s p b) := by
  unfold Requests.readWrite
  split
  · exact h
  · rename_i hv
    split
    · exact h
    · rename_i hd
      have hv : ((s.ide.buf b).valid && !(s.ide.buf b).dirty) = false := by simpa using hv
      have hd : Ide.noDisk s.ide b = false := by simpa using hd
      have hslave : s.ide.slaveDiskExisted = true := by
        rw [h.noDisk] at hd
        simpa using hd
      obtain ⟨hqueue, hcount, hbuf, hnreq, hsl⟩ := ideReadWrite_submitted hv hd h.nRequests_lt
      have hbq := h.not_queued hp hc
      have hmem : ∀ x, x ∈ (ideReadWrite s.ide b).ideQueue ↔ x = b ∨ x ∈ s.ide.ideQueue := by
        intro x
        rw [hqueue.mem_iff]
        simp
      -- a buffer outside of its holder's batch has no batch pointer
      have hnone : (s.ide.buf b).dozenPtr = none := by
        by_contra hsome
        obtain ⟨d, hd'⟩ := Option.ne_none_iff_exists'.1 hsome
        obtain ⟨q, B, hB, _, hmemB⟩ := h.ptr hslave b d hd'
        obtain rfl : q = p := Option.some.inj (((h.array q B hB).2.2 b hmemB).symm.trans hp)
        exact hb B hB hmemB
      have hcall : ∀ q, q ≠ p → Function.update s.call p (.readWrite b) q = s.call q :=
        fun q hq => Function.update_of_ne hq _ _
      have hself : Function.update s.call p (.readWrite b) p = .readWrite b := Function.update_self _ _ _
      constructor
      · intro x
        simp only [hbuf]
        exact h.dev x
      · exact h.heldLt
      · exact hqueue.nodup_iff.2 (List.nodup_cons.2 ⟨hbq, h.nodup⟩)
      · have hlen := hqueue.length_eq
        simp only [List.length_append, List.length_singleton] at hlen hcount ⊢
        have hle := h.length_le
        unfold NBUF at hle
        rw [hcount, hlen, h.count]
        omega
      · intro x hx
        simp only [hbuf]
        obtain rfl | hx := (hmem x).1 hx
        · exact ⟨p, hp, .inl ⟨hself, hnone⟩⟩
        · obtain ⟨q, hq, hwhy⟩ := h.queued x hx
          have hqp : q ≠ p := by
            rintro rfl
            rw [hc] at hwhy
            simp at hwhy
          refine ⟨q, hq, ?_⟩
          simp only [hcall q hqp]
          exact hwhy
      · intro q x hqc
        simp only [Done, hbuf]
        obtain ⟨rfl, heq⟩ | ⟨_, hqc⟩ := update_cases hqc
        · obtain rfl : x = b := by simpa using heq
          exact ⟨hp, hb, fun hxq => absurd ((hmem x).2 (.inl rfl)) hxq⟩
        · obtain ⟨hheld, hnot, hdone⟩ := h.asleep q x hqc
          exact ⟨hheld, hnot, fun hxq => hdone fun hx => hxq ((hmem x).2 (.inr hx))⟩
      · exact h.array
      · exact h.ids
      · intro q B hB hqc
        have hold : s.call q ≠ .writeDozens := by
          intro hw
          by_cases hq : q = p
          · rw [hq, hc] at hw
            cases hw
          · exact hqc ((hcall q hq).trans hw)
        obtain ⟨hn, hptr⟩ := h.building q B hB hold
        refine ⟨by rw [hnreq]; exact hn, ?_⟩
        intro x hx
        simp only [hbuf]
        exact hptr x hx
      · intro q B hB hqc
        obtain ⟨rfl, heq⟩ | ⟨hqp, hqc⟩ := update_cases hqc
        · cases heq
        · obtain ⟨hn, hqueued, hdone⟩ := h.running q B hB hqc
          -- the new request is no buffer of this batch
          have hxb : ∀ x ∈ B.bufArray, x ≠ b := by
            rintro x hx rfl
            exact hqp (Option.some.inj (((h.array q B hB).2.2 x hx).symm.trans hp))
          have hsame : ∀ x ∈ B.bufArray,
              (x ∈ (ideReadWrite s.ide b).ideQueue ↔ x ∈ s.ide.ideQueue) := by
            intro x hx
            rw [hmem]
            simp [hxb x hx]
          refine ⟨?_, ?_, ?_⟩
          · rw [hnreq, hn]
            congr 2
            apply List.filter_congr
            intro x hx
            simp [hsame x hx]
          · intro x hx hxq
            simp only [hbuf]
            exact hqueued x hx ((hsame x hx).1 hxq)
          · intro x hx hxq
            simp only [Done, hbuf]
            exact hdone x hx (mt (hsame x hx).2 hxq)
      · intro q hqc
        obtain ⟨_, heq⟩ | ⟨_, hqc⟩ := update_cases hqc
        · cases heq
        · exact h.hasBatch q hqc
      · intro _ x d hd
        simp only [hbuf] at hd
        exact h.ptr hslave x d hd
      · intro hs
        simp only [hsl, hslave] at hs
        cases hs
      · intro x hx
        simp only [Done, hbuf]
        obtain rfl | hx := (hmem x).1 hx
        · rintro ⟨hvx, hdx⟩
          simp [hvx, hdx] at hv
        · exact h.pending x hx

/-- `bwrite_dozens` marks the buffers of a batch that is not submitted yet. -/
theorem Inv.markDirty (h : Inv s) {p : Nat} {B : Batch} (hB : s.batch p = some B)
    (hc : s.call p = .none) :
    Inv { s with ide := { s.ide with buf := Requests.markDirty B.bufArray s.ide.buf } } := by
  have hother : ∀ x, x ∉ B.bufArray → Requests.markDirty B.bufArray s.ide.buf x = s.ide.buf x :=
    fun x hx => if_neg hx
  have hptr : ∀ x, (Requests.markDirty B.bufArray s.ide.buf x).dozenPtr = (s.ide.buf x).dozenPtr := by
    intro x
    unfold Requests.markDirty
    split <;> rfl
  have hheldB := (h.array p B hB).2.2
  constructor
  · intro x
    show (Requests.markDirty B.bufArray s.ide.buf x).dev = ROOTDEV
    unfold Requests.markDirty
    split
    · exact h.dev x
    · exact h.dev x
  · exact h.heldLt
  · exact h.nodup
  · exact h.count
  · intro x hx
    simp only [hptr]
    exact h.queued x hx
  · intro q x hcq
    obtain ⟨hheld, hnot, hd⟩ := h.asleep q x hcq
    have hx : x ∉ B.bufArray := by
      intro hmem
      obtain rfl : q = p := Option.some.inj (hheld.symm.trans (hheldB x hmem))
      exact absurd (hc.symm.trans hcq) (by simp)
    simp only [Done, hother x hx]
    exact ⟨hheld, hnot, hd⟩
  · exact h.array
  · exact h.ids
  · intro q C hC hcq
    obtain ⟨hn, hp⟩ := h.building q C hC hcq
    exact ⟨hn, fun x hx => (hptr x).trans (hp x hx)⟩
  · intro q C hC hcq
    obtain ⟨hn, hqueued, hd⟩ := h.running q C hC hcq
    refine ⟨hn, fun x hx hxq => (hptr x).trans (hqueued x hx hxq), fun x hx hxq => ?_⟩
    have hxB : x ∉ B.bufArray := by
      intro hmem
      obtain rfl : q = p := Option.some.inj
        (((h.array q C hC).2.2 x hx).symm.trans (hheldB x hmem))
      exact absurd (hc.symm.trans hcq) (by simp)
    simp only [Done, hother x hxB]
    exact hd x hx hxq
  · exact h.hasBatch
  · intro hs x d hd
    exact h.ptr hs x d ((hptr x).symm.trans hd)
  · exact h.absent
  · intro x hx
    have hxB : x ∉ B.bufArray := fun hmem => h.not_queued (hheldB x hmem) hc hx
    simp only [Done, hother x hxB]
    exact h.pending x hx

/-- A batch is submitted completely. -/
theorem Inv.submitDozens (h : Inv s) {p : Nat} {B : Batch} (hB : s.batch p = some B)
    (hc : s.call p = .none) (hlen : B.bufArray.length = B.nBufs)
    (hslave : s.ide.slaveDiskExisted = true) (hdirty : ∀ b ∈ B.bufArray, ¬ Done s b)
    {ide : IdeManager α} (hsub : Submitted s.ide ide B.bufArray) :
    Inv { s with ide := ide, call := Function.update s.call p .writeDozens } := by
  obtain ⟨hqueue, hcount, hbuf, hnreq, hsl⟩ := hsub
  obtain ⟨hndB, _, hheldB⟩ := h.array p B hB
  have hnotq : ∀ b ∈ B.bufArray, b ∉ s.ide.ideQueue := fun b hb => h.not_queued (hheldB b hb) hc
  have hmem : ∀ x, x ∈ ide.ideQueue ↔ x ∈ B.bufArray ∨ x ∈ s.ide.ideQueue := by
    intro x
    rw [hqueue.mem_iff, List.mem_append]
  have hnodup : (B.bufArray ++ s.ide.ideQueue).Nodup := by
    apply List.nodup_append.2
    refine ⟨hndB, h.nodup, ?_⟩
    rintro x hx y hy rfl
    exact hnotq x hx hy
  have hcall : ∀ q, q ≠ p → Function.update s.call p .writeDozens q = s.call q :=
    fun q hq => Function.update_of_ne hq _ _
  -- buffers of other processes do not move
  have hsame : ∀ q x, q ≠ p → s.holder x = some q → (x ∈ ide.ideQueue ↔ x ∈ s.ide.ideQueue) := by
    intro q x hq hx
    rw [hmem]
    refine ⟨fun hor => hor.resolve_left fun hxB => ?_, .inr⟩
    exact hq (Option.some.inj (hx.symm.trans (hheldB x hxB)))
  constructor
  · intro x
    simp only [hbuf]
    exact h.dev x
  · exact h.heldLt
  · exact hqueue.nodup_iff.2 hnodup
  · have hlen' := hqueue.length_eq
    have hle : (B.bufArray ++ s.ide.ideQueue).length ≤ NBUF := by
      apply length_le_NBUF hnodup
      intro x hx
      obtain hx | hx := List.mem_append.1 hx
      · exact h.heldLt x p (hheldB x hx)
      · exact h.lt hx
    rw [List.length_append] at hlen' hle
    unfold NBUF at hle
    simp only [hcount, hlen', h.count]
    omega
  · intro x hx
    simp only [hbuf]
    obtain hx | hx := (hmem x).1 hx
    · exact ⟨p, hheldB x hx, .inr ⟨Function.update_self _ _ _, B, hB, hx⟩⟩
    · obtain ⟨q, hq, hwhy⟩ := h.queued x hx
      have hqp : q ≠ p := by
        rintro rfl
        rw [hc] at hwhy
        simp at hwhy
      refine ⟨q, hq, ?_⟩
      simp only [hcall q hqp]
      exact hwhy
  · intro q x hqc
    obtain ⟨_, heq⟩ | ⟨hqp, hqc⟩ := update_cases hqc
    · cases heq
    · obtain ⟨hheld, hnot, hd⟩ := h.asleep q x hqc
      refine ⟨hheld, hnot, fun hxq => ?_⟩
      simp only [Done, hbuf]
      exact hd (mt (hsame q x hqp hheld).2 hxq)
  · exact h.array
  · exact h.ids
  · intro q C hC hqc
    have hqp : q ≠ p := by
      rintro rfl
      exact hqc (Function.update_self _ _ _)
    have hold : s.call q ≠ .writeDozens := fun hw => hqc ((hcall q hqp).trans hw)
    obtain ⟨hn, hptr⟩ := h.building q C hC hold
    refine ⟨by rw [hnreq]; exact hn, fun x hx => ?_⟩
    simp only [hbuf]
    exact hptr x hx
  · intro q C hC hqc
    obtain ⟨rfl, _⟩ | ⟨hqp, hqc⟩ := update_cases hqc
    · -- the batch just submitted: all its buffers are queued
      obtain rfl : B = C := Option.some.inj (hB.symm.trans hC)
      obtain ⟨hn, hptr⟩ := h.building q B hB (by rw [hc]; simp)
      have hall : ∀ x ∈ B.bufArray, x ∈ ide.ideQueue := fun x hx => (hmem x).2 (.inl hx)
      refine ⟨?_, ?_, ?_⟩
      · have hfilter : B.bufArray.filter (· ∈ ide.ideQueue) = B.bufArray :=
          List.filter_eq_self.2 fun x hx => decide_eq_true (hall x hx)
        simp only [hnreq, hn, hfilter, hlen]
      · intro x hx _
        simp only [hbuf]
        exact hptr x hx
      · intro x hx hxq
        exact absurd (hall x hx) hxq
    · obtain ⟨hn, hqueued, hd⟩ := h.running q C hC hqc
      have hheldC := (h.array q C hC).2.2
      refine ⟨?_, ?_, ?_⟩
      · rw [hnreq, hn]
        congr 2
        apply List.filter_congr
        intro x hx
        simp [hsame q x hqp (hheldC x hx)]
      · intro x hx hxq
        simp only [hbuf]
        exact hqueued x hx ((hsame q x hqp (hheldC x hx)).1 hxq)
      · intro x hx hxq
        simp only [Done, hbuf]
        exact hd x hx (mt (hsame q x hqp (hheldC x hx)).2 hxq)
  · intro q hqc
    obtain ⟨rfl, _⟩ | ⟨_, hqc⟩ := update_cases hqc
    · exact ⟨B, hB⟩
    · exact h.hasBatch q hqc
  · intro _ x d hd
    simp only [hbuf] at hd
    exact h.ptr hslave x d hd
  · intro hs
    simp only [hsl, hslave] at hs
    cases hs
  · intro x hx
    simp only [Done, hbuf]
    obtain hx | hx := (hmem x).1 hx
    · exact hdirty x hx
    · exact h.pending x hx

/-- A process gives up its batch, none of whose buffers is queued or points to it any more. -/
theorem Inv.dropBatch (h : Inv s) {p : Nat} {B : Batch} (hB : s.batch p = some B)
    (hcall : ∀ b, s.call p ≠ .readWrite b) (hq : ∀ b ∈ B.bufArray, b ∉ s.ide.ideQueue)
    (hptr : s.ide.slaveDiskExisted = true →
      ∀ b ∈ B.bufArray, (s.ide.buf b).dozenPtr ≠ some B.id) :
    Inv { s with
      call := Function.update s.call p .none
      batch := Function.update s.batch p none } := by
  constructor
  · exact h.dev
  · exact h.heldLt
  · exact h.nodup
  · exact h.count
  · intro x hx
    obtain ⟨q, hheld, hwhy⟩ := h.queued x hx
    have hqp : q ≠ p := by
      rintro rfl
      obtain ⟨hcq, _⟩ | ⟨_, C, hC, hmem⟩ := hwhy
      · exact hcall x hcq
      · obtain rfl : B = C := Option.some.inj (hB.symm.trans hC)
        exact hq x hmem hx
    refine ⟨q, hheld, ?_⟩
    have hcq : Function.update s.call p .none q = s.call q := Function.update_of_ne hqp _ _
    have hbq : Function.update s.batch p none q = s.batch q := Function.update_of_ne hqp _ _
    simp only [hcq, hbq]
    exact hwhy
  · intro q x hqc
    obtain ⟨_, hqc⟩ := update_back (by simp) hqc
    obtain ⟨hheld, hnot, hd⟩ := h.asleep q x hqc
    exact ⟨hheld, fun C hC => hnot C (update_back (by simp) hC).2, hd⟩
  · intro q C hC
    exact h.array q C (update_back (by simp) hC).2
  · intro q q' C C' hC hC' hid
    exact h.ids q q' C C' (update_back (by simp) hC).2 (update_back (by simp) hC').2 hid
  · intro q C hC hqc
    obtain ⟨hqp, hC⟩ := update_back (by simp) hC
    have hold : s.call q ≠ .writeDozens := by
      intro hw
      apply hqc
      show Function.update s.call p .none q = _
      rw [Function.update_of_ne hqp, hw]
    exact ⟨(h.building q C hC hold).nRequest, (h.building q C hC hold).ptr⟩
  · intro q C hC hqc
    obtain ⟨_, hqc⟩ := update_back (by simp) hqc
    have hrun := h.running q C (update_back (by simp) hC).2 hqc
    exact ⟨hrun.nRequest, hrun.queued, hrun.done⟩
  · intro q hqc
    obtain ⟨hqp, hqc⟩ := update_back (by simp) hqc
    obtain ⟨C, hC⟩ := h.hasBatch q hqc
    exact ⟨C, update_keep hqp hC⟩
  · intro hs x d hd
    obtain ⟨q, C, hC, hid, hmem⟩ := h.ptr hs x d hd
    have hqp : q ≠ p := by
      rintro rfl
      obtain rfl : B = C := Option.some.inj (hB.symm.trans hC)
      exact hptr hs x hmem (hid ▸ hd)
    exact ⟨q, C, update_keep hqp hC, hid, hmem⟩
  · intro hs q
    show Function.update s.call p .none q = .none
    by_cases hqp : q = p
    · rw [hqp, Function.update_self]
    · rw [Function.update_of_ne hqp]
      exact h.absent hs q
  · exact h.pending

/-- A batch is written, or refused. -/
theorem Inv.bwriteDozens (h : Inv s) {p : Nat} {B : Batch} (hB : s.batch p = some B)
    (hc : s.call p = .none) (hlen : B.bufArray.length = B.nBufs) :
    Inv (bwriteDozens s p B) := by
  have hmark := h.markDirty hB hc
  have hnone : Function.update s.call p .none = s.call := by
    rw [← hc]
    exact Function.update_eq_self p s.call
  have hnoread : ∀ b, s.call p ≠ .readWrite b := by
    intro b heq
    exact absurd (hc.symm.trans heq) (by simp)
  have hheld := (h.array p B hB).2.2
  cases hbs : B.bufArray with
  | nil =>
    have hdrop := hmark.dropBatch hB hnoread
      (fun b hb => absurd (hbs ▸ hb) List.not_mem_nil)
      (fun _ b hb => absurd (hbs ▸ hb) List.not_mem_nil)
    simp only [Requests.bwriteDozens, hbs, hnone] at hdrop ⊢
    exact hdrop
  | cons b₀ bs =>
    simp only [hbs] at hmark
    simp only [Requests.bwriteDozens, hbs]
    have hdisk := hmark.noDisk b₀
    split
    · rename_i hd
      have hslave : s.ide.slaveDiskExisted = false := by
        rw [hd] at hdisk
        simpa using hdisk.symm
      have hdrop := hmark.dropBatch hB hnoread
        (fun b hb => hmark.not_queued (hheld b hb) hc)
        (fun hs => absurd (hslave.symm.trans hs) (by simp))
      simpa only [hnone] using hdrop
    · rename_i hd
      have hd := Bool.not_eq_true _ ▸ hd
      have hslave : s.ide.slaveDiskExisted = true := by
        rw [hd] at hdisk
        simpa using hdisk.symm
      have hsub : Requests.Submitted _ (ideWriteDozens _ (b₀ :: bs)) (b₀ :: bs) :=
        ideWriteDozens_submitted hd hmark.nRequests_lt
      rw [← hbs] at hsub ⊢
      refine (hbs ▸ hmark).submitDozens hB hc hlen hslave ?_ hsub
      rintro b hb ⟨hv, _⟩
      simp [Requests.markDirty, hb] at hv

/-- A completed buffer is one less of its batch in the queue. -/
theorem length_filter_cons {b : Nat} {l rest : List Nat} (hnd : l.Nodup) (hb : b ∈ l)
    (hr : b ∉ rest) :
    (l.filter (· ∈ b :: rest)).length = (l.filter (· ∈ rest)).length + 1 := by
  induction l with
  | nil => exact absurd hb List.not_mem_nil
  | cons a l ih =>
    obtain ⟨ha, hnd⟩ := List.nodup_cons.1 hnd
    by_cases hab : a = b
    · subst hab
      have hsame : l.filter (· ∈ a :: rest) = l.filter (· ∈ rest) := by
        apply List.filter_congr
        intro x hx
        have hxa : x ≠ a := fun heq => ha (heq ▸ hx)
        simp [hxa]
      rw [List.filter_cons_of_pos (by simp), List.filter_cons_of_neg (by simpa using hr), hsame,
        List.length_cons]
    · have hb : b ∈ l := (List.mem_cons.1 hb).resolve_left (Ne.symm hab)
      by_cases har : a ∈ rest
      · rw [List.filter_cons_of_pos (by simp [har]), List.filter_cons_of_pos (by simpa using har),
          List.length_cons, List.length_cons, ih hnd hb]
      · rw [List.filter_cons_of_neg (by simp [har, hab]), List.filter_cons_of_neg (by simpa using har),
          ih hnd hb]

/-- A queued buffer that points at a batch is one of its buffers, and the batch is written. -/
theorem Inv.writes_of_ptr (h : Inv s) {q b : Nat} {B : Batch} (hb : b ∈ s.ide.ideQueue) (hB : s.batch q = some B)
    (hptr : (s.ide.buf b).dozenPtr = some B.id) : s.call q = .writeDozens ∧ b ∈ B.bufArray := by
  obtain ⟨p, _, ⟨_, hno⟩ | ⟨hw, C, hC, hbC⟩⟩ := h.queued b hb
  · rw [hno] at hptr
    cases hptr
  · have hCid := (h.running p C hC hw).queued b hbC hb
    have hid : C.id = B.id := Option.some.inj (hCid.symm.trans hptr)
    obtain rfl := h.ids p q C B hC hB hid
    obtain rfl : C = B := Option.some.inj (hC.symm.trans hB)
    exact ⟨hw, hbC⟩

/-- The interrupt completes the head of the queue, and counts it in its batch. -/
theorem Inv.intr (h : Inv s) : Inv { s with ide := ideIntr s.ide } := by
  cases hq : s.ide.ideQueue with
  | nil =>
    have hn : s.ide.nRequests = 0 := by rw [h.count, hq, List.length_nil]
    obtain ⟨hqueue, hcount, hbuf, hnreq, hsl⟩ := ideIntr_empty hn
    have hdone : ∀ x, Done { s with ide := ideIntr s.ide } x ↔ Done s x := by
      intro x
      simp only [Done, hbuf]
    constructor
    · simpa only [hbuf] using h.dev
    · exact h.heldLt
    · simpa only [hqueue] using h.nodup
    · simpa only [hqueue, hcount] using h.count
    · simpa only [hqueue, hbuf] using h.queued
    · simpa only [hqueue, hdone] using h.asleep
    · exact h.array
    · exact h.ids
    · intro p B hB hc
      obtain ⟨hn', hp⟩ := h.building p B hB hc
      exact ⟨by simpa only [hnreq] using hn', by simpa only [hbuf] using hp⟩
    · intro p B hB hc
      obtain ⟨hn', hp, hd⟩ := h.running p B hB hc
      exact ⟨by simpa only [hnreq, hqueue] using hn', by simpa only [hbuf, hqueue] using hp,
        by simpa only [hbuf, hqueue, hdone] using hd⟩
    · exact h.hasBatch
    · simpa only [hsl, hbuf] using h.ptr
    · simpa only [hsl] using h.absent
    · simpa only [hqueue, hdone] using h.pending
  | cons b rest =>
    have hlen := h.count
    rw [hq, List.length_cons] at hlen
    obtain ⟨hqueue, hcount, ⟨hv, hdirty, hnone⟩, hdev, hother, hnreq, hsl⟩ :=
      ideIntr_completed hq (by omega)
    have hnd := h.nodup
    rw [hq] at hnd
    obtain ⟨hbr, hnd⟩ := List.nodup_cons.1 hnd
    have hbq : b ∈ s.ide.ideQueue := by rw [hq]; exact List.mem_cons_self
    have hmem : ∀ x, x ≠ b → (x ∈ (ideIntr s.ide).ideQueue ↔ x ∈ s.ide.ideQueue) := by
      intro x hx
      rw [hqueue, hq, List.mem_cons]
      simp [hx]
    have hin : ∀ x, x ∈ (ideIntr s.ide).ideQueue → x ≠ b ∧ x ∈ s.ide.ideQueue := by
      intro x hx
      have hxb : x ≠ b := by
        rintro rfl
        rw [hqueue] at hx
        exact hbr hx
      exact ⟨hxb, (hmem x hxb).1 hx⟩
    have hdone : ∀ x, x ≠ b → (Done { s with ide := ideIntr s.ide } x ↔ Done s x) := by
      intro x hx
      simp only [Done, hother x hx]
    have hdoneb : Done { s with ide := ideIntr s.ide } b := ⟨hv, hdirty⟩
    obtain ⟨p, hp, hwhy⟩ := h.queued b hbq
    have hholder : ∀ q, q ≠ p → s.holder b ≠ some q := by
      rintro q hqp heq
      exact hqp (Option.some.inj (heq.symm.trans hp))
    constructor
    · exact fun x => (hdev x).trans (h.dev x)
    · exact h.heldLt
    · simpa only [hqueue] using hnd
    · have hle := h.length_le
      rw [hq, List.length_cons] at hle
      unfold NBUF at hle
      simp only [hcount, hqueue]
      omega
    · intro x hx
      obtain ⟨hxb, hxq⟩ := hin x hx
      simp only [hother x hxb]
      exact h.queued x hxq
    · intro q x hc
      obtain ⟨hheld, hnot, hd⟩ := h.asleep q x hc
      refine ⟨hheld, hnot, fun hxq => ?_⟩
      by_cases hx : x = b
      · rw [hx]
        exact hdoneb
      · exact (hdone x hx).2 (hd (mt (hmem x hx).2 hxq))
    · exact h.array
    · exact h.ids
    · intro q B hB hc
      obtain ⟨hn, hptr⟩ := h.building q B hB hc
      -- a batch that is being collected has no buffer in the queue
      have hxb : ∀ x ∈ B.bufArray, x ≠ b := by
        rintro x hx rfl
        obtain rfl : q = p := Option.some.inj (((h.array q B hB).2.2 x hx).symm.trans hp)
        obtain ⟨_, hnoptr⟩ | ⟨hw, _⟩ := hwhy
        · exact absurd ((hptr x hx).symm.trans hnoptr) (by simp)
        · exact hc hw
      refine ⟨?_, fun x hx => ?_⟩
      · have hne : (s.ide.buf b).dozenPtr ≠ some B.id := fun heq => hc (h.writes_of_ptr hbq hB heq).1
        simp only [hnreq, if_neg hne]
        exact hn
      · simp only [hother x (hxb x hx)]
        exact hptr x hx
    · intro q B hB hc
      obtain ⟨hn, hqueued, hd⟩ := h.running q B hB hc
      obtain ⟨hndB, _, hheldB⟩ := h.array q B hB
      by_cases hbB : b ∈ B.bufArray
      · have hid := hqueued b hbB hbq
        refine ⟨?_, ?_, ?_⟩
        · have hless := length_filter_cons hndB hbB hbr
          rw [hq] at hn
          simp only [hnreq, if_pos hid, hn, hqueue]
          omega
        · intro x hx hxq
          obtain ⟨hxb, hxq⟩ := hin x hxq
          simp only [hother x hxb]
          exact hqueued x hx hxq
        · intro x hx hxq
          by_cases hxb : x = b
          · rw [hxb]
            exact ⟨hdoneb, hnone⟩
          · rw [hdone x hxb]
            simp only [hother x hxb]
            exact hd x hx (mt (hmem x hxb).2 hxq)
      · have hxb : ∀ x ∈ B.bufArray, x ≠ b := fun x hx heq => hbB (heq ▸ hx)
        have hne : (s.ide.buf b).dozenPtr ≠ some B.id := fun heq => hbB (h.writes_of_ptr hbq hB heq).2
        refine ⟨?_, ?_, ?_⟩
        · have hsame : B.bufArray.filter (· ∈ (ideIntr s.ide).ideQueue) =
              B.bufArray.filter (· ∈ s.ide.ideQueue) := by
            apply List.filter_congr
            intro x hx
            simp [hmem x (hxb x hx)]
          simp only [hnreq, if_neg hne, hn, hsame]
        · intro x hx hxq
          simp only [hother x (hxb x hx)]
          exact hqueued x hx (hin x hxq).2
        · intro x hx hxq
          rw [hdone x (hxb x hx)]
          simp only [hother x (hxb x hx)]
          exact hd x hx (mt (hmem x (hxb x hx)).2 hxq)
    · exact h.hasBatch
    · intro hs x d hdx
      by_cases hxb : x = b
      · rw [hxb] at hdx
        exact absurd (hnone.symm.trans hdx) (by simp)
      · simp only [hother x hxb] at hdx
        exact h.ptr (hsl.symm.trans hs) x d hdx
    · intro hs
      exact h.absent (hsl.symm.trans hs)
    · intro x hx
      obtain ⟨hxb, hxq⟩ := hin x hx
      rw [hdone x hxb]
      exact h.pending x hxq

/-- A request of one buffer returns when the buffer is completed. -/
theorem Inv.returnRead (h : Inv s) {p b : Nat} (hc : s.call p = .readWrite b) (hd : Done s b) :
    Inv { s with call := Function.update s.call p .none } := by
  have hkeep : ∀ q, q ≠ p → Function.update s.call p .none q = s.call q :=
    fun q hq => Function.update_of_ne hq _ _
  constructor
  · exact h.dev
  · exact h.heldLt
  · exact h.nodup
  · exact h.count
  · intro x hx
    obtain ⟨q, hheld, hwhy⟩ := h.queued x hx
    have hqp : q ≠ p := by
      rintro rfl
      rw [hc] at hwhy
      obtain ⟨heq, _⟩ | ⟨heq, _⟩ := hwhy
      · obtain rfl : b = x := by simpa using heq
        exact h.pending b hx hd
      · cases heq
    refine ⟨q, hheld, ?_⟩
    simp only [hkeep q hqp]
    exact hwhy
  · intro q x hqc
    exact h.asleep q x (update_back (by simp) hqc).2
  · exact h.array
  · exact h.ids
  · intro q B hB hqc
    have hold : s.call q ≠ .writeDozens := by
      intro hw
      by_cases hqp : q = p
      · rw [hqp, hc] at hw
        cases hw
      · exact hqc ((hkeep q hqp).trans hw)
    exact ⟨(h.building q B hB hold).nRequest, (h.building q B hB hold).ptr⟩
  · intro q B hB hqc
    have hrun := h.running q B hB (update_back (by simp) hqc).2
    exact ⟨hrun.nRequest, hrun.queued, hrun.done⟩
  · intro q hqc
    exact h.hasBatch q (update_back (by simp) hqc).2
  · exact h.ptr
  · intro hs q
    show Function.update s.call p .none q = .none
    by_cases hqp : q = p
    · rw [hqp, Function.update_self]
    · rw [hkeep q hqp]
      exact h.absent hs q
  · exact h.pending

/-- A batch has no request left when its owner may return, so that all its buffers are completed. -/
theorem Inv.batch_done (h : Inv s) {p : Nat} {B : Batch} (hB : s.batch p = some B)
    (hc : s.call p = .writeDozens) (hn : ¬ 0 < s.ide.nRequest B.id) :
    ∀ b ∈ B.bufArray, b ∉ s.ide.ideQueue ∧ Done s b ∧ (s.ide.buf b).dozenPtr = none := by
  obtain ⟨hcount, _, hd⟩ := h.running p B hB hc
  have hempty : B.bufArray.filter (· ∈ s.ide.ideQueue) = [] := by
    apply List.length_eq_zero_iff.1
    omega
  intro b hb
  have hbq : b ∉ s.ide.ideQueue := by
    have := List.filter_eq_nil_iff.1 hempty b hb
    simpa using this
  exact ⟨hbq, hd b hb hbq⟩

/-- **Step lemma**: every step keeps the invariant. -/
theorem step_inv (h : Inv s) (o : Op α) : Inv (step s o) := by
  cases o with
  | getblk p b blockno =>
    simp only [step]
    split
    · rename_i hcond
      obtain ⟨hc, hfree, hlt⟩ := hcond
      have hbq := h.not_queued_free hfree
      have hset := h.setBuf hbq (fun q hq => absurd (hfree.symm.trans hq) (by simp))
        (v := { s.ide.buf b with
          blockno := blockno
          valid := (s.ide.buf b).valid && decide ((s.ide.buf b).blockno = blockno) })
        (h.dev b) rfl
      apply hset.setHolder
      · exact fun q _ => hlt
      · exact hbq
      · intro q hq
        exact absurd (hfree.symm.trans (h.asleep q b hq).1) (by simp)
      · intro q B hB hmem
        exact absurd (hfree.symm.trans ((h.array q B hB).2.2 b hmem)) (by simp)
    · exact h
  | touch p b valid dirty data =>
    simp only [step]
    split
    · rename_i hcond
      obtain ⟨hc, hp⟩ := hcond
      apply h.setBuf (h.not_queued hp hc)
      · intro q hq
        obtain rfl : p = q := Option.some.inj (hp.symm.trans hq)
        exact hc
      · exact h.dev b
      · rfl
    · exact h
  | readWrite p b =>
    simp only [step]
    split
    · rename_i hcond
      obtain ⟨hc, hp, hb⟩ := hcond
      apply h.readWrite hc hp
      intro B hB hmem
      apply hb
      simpa [Sys.array, hB] using hmem
    · exact h
  | dozensInit p nBufs =>
    by_cases hcond : s.call p = .none ∧ s.batch p = none
    · exact h.dozensInit hcond.1 hcond.2 nBufs
    · simp only [step, if_neg hcond]
      exact h
  | attach p b =>
    simp only [step]
    cases hB : s.batch p with
    | none => exact h
    | some B =>
      simp only
      split
      · rename_i hcond
        obtain ⟨hc, hp, hb, _⟩ := hcond
        exact h.attach hB hc hp hb
      · exact h
  | bwriteDozens p =>
    simp only [step]
    cases hB : s.batch p with
    | none => exact h
    | some B =>
      simp only
      split
      · rename_i hcond
        exact h.bwriteDozens hB hcond.1 hcond.2
      · exact h
  | wake p =>
    simp only [step, wake]
    cases hc : s.call p with
    | none => exact h
    | readWrite b =>
      simp only
      split
      · rename_i hv
        exact h.returnRead hc (by simpa [Done] using hv)
      · exact h
    | writeDozens =>
      simp only
      cases hB : s.batch p with
      | none => exact h
      | some B =>
        simp only
        split
        · exact h
        · rename_i hn
          have hdone := h.batch_done hB hc hn
          apply h.dropBatch hB
          · intro b heq
            exact absurd (hc.symm.trans heq) (by simp)
          · exact fun b hb => (hdone b hb).1
          · intro _ b hb
            rw [(hdone b hb).2.2]
            simp
  | brelse p b =>
    simp only [step]
    split
    · rename_i hcond
      obtain ⟨hc, hp, hb⟩ := hcond
      have hheld : ∀ q, s.holder b = some q → q = p :=
        fun q hq => Option.some.inj (hq.symm.trans hp)
      apply h.setHolder (fun q hq => absurd hq (by simp)) (h.not_queued hp hc)
      · intro q hq
        obtain rfl := hheld q (h.asleep q b hq).1
        exact absurd (hc.symm.trans hq) (by simp)
      · intro q B hB hmem
        obtain rfl := hheld q ((h.array q B hB).2.2 b hmem)
        apply hb
        simpa [Sys.array, hB] using hmem
    · exact h
  | intr => exact h.intr

theorem run_inv (h : Inv s) (ops : List (Op α)) : Inv (ops.foldl step s) := by
  induction ops generalizing s with
  | nil => exact h
  | cons o ops ih => exact ih (step_inv h o)

/-! ## §6 Runs -/

end WeiOS.Requests
