import Mathlib
import WeiOS.Lib.Run
import WeiOS.Lib.RingBuffer

/-!
# Pipes

The pipe of `kern/pipe.c`: a ring buffer of `PIPESIZE` bytes between two counters of 32 bits, and two
lists of sleeping processes. `pipe_read` and `pipe_write` hold `pipe_lock` from a loop test to the next
sleep or to the return, so one such stretch is one step here. A sleeping process is put back by a
wake-up or by `kill`, and the loop test is then made again, whatever has happened in between.

## Main results
- `fifo_of_run`: in every run the bytes read are a prefix of the bytes written, and the rest is stored.
- `sleepers_of_run`: the runs in which nobody ever sleeps at a pipe whose other end is closed.
-/

namespace WeiOS.Pipes

open WeiOS.Lib RingBuffer

/-! ## §1 The pipe -/

def PIPESIZE : Nat := 512

/-- `struct pipe`; the heads of its two wait lists are given by the lists themselves. -/
structure Pipe where
  data : Nat → UInt8
  nread : BitVec 32
  nwrite : BitVec 32
  readopen : Bool
  writeopen : Bool
  waitToRead : List Nat
  waitToWrite : List Nat

/-- The pipe that `pipe_alloc` makes. -/
def pipeAlloc : Pipe where
  data := fun _ => 0
  nread := 0
  nwrite := 0
  readopen := true
  writeopen := true
  waitToRead := []
  waitToWrite := []

/-- The copy loop of `pipe_read` with `n` turns left; the bytes come out in the order of `dst`. -/
def readLoop : Nat → Pipe → Pipe × List UInt8
  | 0, p => (p, [])
  | n + 1, p =>
    if p.nwrite = p.nread then
      (p, [])
    else
      let r := readLoop n { p with nread := p.nread + 1 }
      (r.1, p.data (p.nread.toNat % PIPESIZE) :: r.2)

/-- The copy loop of `pipe_write` with `n` turns left and `total` bytes taken from `src`. -/
def writeLoop (src : Nat → UInt8) : Nat → Nat → Pipe → Pipe × Nat
  | 0, total, p => (p, total)
  | n + 1, total, p =>
    if p.nwrite - p.nread = BitVec.ofNat 32 PIPESIZE then
      (p, total)
    else
      writeLoop src n (total + 1)
        { p with
          data := Function.update p.data (p.nwrite.toNat % PIPESIZE) (src total)
          nwrite := p.nwrite + 1 }

/-- `pipe_close`, without the `kfree` that follows when both ends are closed. -/
def pipeClose (p : Pipe) (writend : Bool) : Pipe :=
  if writend then
    { p with writeopen := false, waitToRead := [] }
  else
    { p with readopen := false, waitToWrite := [] }

/-! ## §2 Processes at a pipe -/

/-- The call a process is in; `nbytes` is a C `int`. -/
inductive Call where
  | none
  | pipeRead (nbytes : Int)
  | pipeWrite (nbytes : Int)
  deriving DecidableEq

/-- What calls have returned: the bytes of a read, the buffer and the count of a write, or -1. -/
inductive Event where
  | read (pid : Nat) (dst : List UInt8)
  | wrote (pid : Nat) (src : Nat → UInt8) (total : Nat)
  | failed (pid : Nat)

/-- The pipe, the processes, and what has been returned so far. -/
structure Sys where
  pipe : Pipe
  calls : Nat → Call
  killed : Nat → Bool
  log : List Event

def start : Sys := ⟨pipeAlloc, fun _ => .none, fun _ => false, []⟩

/-- Process `pid` leaves its call. -/
def Sys.ret (s : Sys) (pid : Nat) (e : Event) : Sys :=
  { s with calls := Function.update s.calls pid .none, log := s.log ++ [e] }

/-- `pipe_read` from its loop test on. -/
def pipeRead (s : Sys) (pid : Nat) (nbytes : Int) : Sys :=
  if s.pipe.nwrite = s.pipe.nread then
    { s with
      pipe := { s.pipe with waitToRead := s.pipe.waitToRead ++ [pid] }
      calls := Function.update s.calls pid (.pipeRead nbytes) }
  else
    let (p, dst) := readLoop nbytes.toNat s.pipe
    { s with pipe := { p with waitToWrite := [] } }.ret pid (.read pid dst)

/-- `pipe_write` from its loop test on; `src` is the caller's buffer at this time. -/
def pipeWrite (s : Sys) (pid : Nat) (nbytes : Int) (src : Nat → UInt8) : Sys :=
  if s.pipe.nwrite - s.pipe.nread = BitVec.ofNat 32 PIPESIZE then
    { s with
      pipe := { s.pipe with waitToWrite := s.pipe.waitToWrite ++ [pid] }
      calls := Function.update s.calls pid (.pipeWrite nbytes) }
  else
    let (p, total) := writeLoop src nbytes.toNat 0 s.pipe
    { s with pipe := { p with waitToRead := [] } }.ret pid (.wrote pid src total)

/-- `sleep` has returned in `pid`, which was woken up. -/
def resume (s : Sys) (pid : Nat) (src : Nat → UInt8) : Sys :=
  match s.calls pid with
  | .none => s
  | .pipeRead nbytes =>
    if !s.pipe.writeopen || s.killed pid then s.ret pid (.failed pid) else pipeRead s pid nbytes
  | .pipeWrite nbytes =>
    if !s.pipe.readopen || s.killed pid then s.ret pid (.failed pid)
    else pipeWrite s pid nbytes src

/-- `kill`: a sleeping process is taken off its list. -/
def kill (s : Sys) (pid : Nat) : Sys :=
  { s with
    pipe := { s.pipe with
      waitToRead := s.pipe.waitToRead.erase pid
      waitToWrite := s.pipe.waitToWrite.erase pid }
    killed := Function.update s.killed pid true }

/-- One step of a process: it begins a call, goes on after a sleep, kills another, or closes an end. -/
inductive Op where
  | call (pid : Nat) (c : Call) (src : Nat → UInt8)
  | resume (pid : Nat) (src : Nat → UInt8)
  | kill (pid : Nat)
  | close (writend : Bool)

/-- A process in a call is asleep as long as it is on a list. -/
def asleep (s : Sys) (pid : Nat) : Bool :=
  s.pipe.waitToRead.contains pid || s.pipe.waitToWrite.contains pid

/-- A step that the process cannot take now leaves everything as it is. -/
def step (s : Sys) : Op → Sys
  | .call pid c src =>
    if s.calls pid ≠ .none then s
    else
      match c with
      | .none => s
      | .pipeRead nbytes => pipeRead s pid nbytes
      | .pipeWrite nbytes => pipeWrite s pid nbytes src
  | .resume pid src => if asleep s pid then s else resume s pid src
  | .kill pid => kill s pid
  | .close writend => { s with pipe := pipeClose s.pipe writend }

/-! ## §3 The two streams -/

/-- The bytes that reads have returned, in the order of the reads. -/
def returned (log : List Event) : List UInt8 :=
  log.flatMap fun
    | .read _ dst => dst
    | _ => []

/-- The bytes that writes have accepted: of each its first `total`, as many as it has returned. -/
def accepted (log : List Event) : List UInt8 :=
  log.flatMap fun
    | .wrote _ src total => (List.range total).map src
    | _ => []

/-- The bytes in the buffer. -/
def Pipe.stored (p : Pipe) : List UInt8 := RingBuffer.stored PIPESIZE p.data p.nread p.nwrite

/-- The bytes written are those read, and after them those in the buffer. -/
structure Fifo (s : Sys) : Prop where
  bound : (s.pipe.nwrite - s.pipe.nread).toNat ≤ PIPESIZE
  stream : accepted s.log = returned s.log ++ s.pipe.stored

theorem returned_append (log log' : List Event) :
    returned (log ++ log') = returned log ++ returned log' := List.flatMap_append ..

theorem accepted_append (log log' : List Event) :
    accepted (log ++ log') = accepted log ++ accepted log' := List.flatMap_append ..

/-! ## §4 The copy loops -/

/-- The counters are `PIPESIZE` apart when their difference is the constant of the source. -/
theorem full_iff (p : Pipe) :
    p.nwrite - p.nread = BitVec.ofNat 32 PIPESIZE ↔ (p.nwrite - p.nread).toNat = PIPESIZE := by
  constructor
  · intro h
    rw [h]
    rfl
  · intro h
    rw [← h, BitVec.ofNat_toNat, BitVec.setWidth_eq]

/-- The read loop takes what it returns from the front of the buffer. -/
theorem readLoop_spec (n : Nat) (p : Pipe) (hb : (p.nwrite - p.nread).toNat ≤ PIPESIZE) :
    p.stored = (readLoop n p).2 ++ (readLoop n p).1.stored ∧
      ((readLoop n p).1.nwrite - (readLoop n p).1.nread).toNat ≤ PIPESIZE := by
  induction n generalizing p with
  | zero => exact ⟨rfl, hb⟩
  | succ n ih =>
    unfold readLoop
    split
    · exact ⟨rfl, hb⟩
    · next hne =>
      have hless := sub_succ_right_toNat hne
      obtain ⟨hrest, hbound⟩ := ih { p with nread := p.nread + 1 } (by dsimp only; omega)
      refine ⟨?_, hbound⟩
      rw [List.cons_append, ← hrest]
      exact stored_pop p.data hne

/-- The write loop puts what it takes at the end of the buffer. -/
theorem writeLoop_spec (src : Nat → UInt8) (n total : Nat) (p : Pipe)
    (hb : (p.nwrite - p.nread).toNat ≤ PIPESIZE) {q : Pipe} {t : Nat}
    (h : writeLoop src n total p = (q, t)) :
    total ≤ t ∧ q.stored = p.stored ++ (List.range' total (t - total)).map src ∧
      (q.nwrite - q.nread).toNat ≤ PIPESIZE := by
  induction n generalizing p total with
  | zero =>
    cases h
    simpa using hb
  | succ n ih =>
    unfold writeLoop at h
    split at h
    · cases h
      simpa using hb
    · next hroom =>
      have hroom : (p.nwrite - p.nread).toNat < PIPESIZE :=
        Nat.lt_of_le_of_ne hb fun hfull => hroom ((full_iff p).2 hfull)
      have hdvd : PIPESIZE ∣ 2 ^ 32 := by decide
      have hpush := stored_push hdvd (by decide) p.data hroom (src total)
      obtain ⟨hle, hstored, hbound⟩ := ih _ _ (by
        have := sub_succ_toNat (r := p.nread) (c := p.nwrite) (by unfold PIPESIZE at *; omega)
        dsimp only
        omega) h
      refine ⟨by omega, ?_, hbound⟩
      rw [hstored]
      have hcount : t - total = t - (total + 1) + 1 := by omega
      rw [hcount, List.range'_succ, List.map_cons]
      show RingBuffer.stored PIPESIZE (Function.update p.data (cell PIPESIZE p.nwrite) (src total))
        p.nread (p.nwrite + 1) ++ _ = _
      rw [hpush, List.append_assoc]
      rfl

/-! ## §5 Steps and runs -/

/-- Only the counters, the data and the log matter. -/
theorem Fifo.of_eq {s t : Sys} (h : Fifo s) (hdata : t.pipe.data = s.pipe.data)
    (hread : t.pipe.nread = s.pipe.nread) (hwrite : t.pipe.nwrite = s.pipe.nwrite)
    (hacc : accepted t.log = accepted s.log) (hret : returned t.log = returned s.log) : Fifo t := by
  constructor
  · rw [hread, hwrite]
    exact h.bound
  · unfold Pipe.stored
    rw [hacc, hret, hdata, hread, hwrite]
    exact h.stream

theorem failed_fifo {s : Sys} (h : Fifo s) (pid : Nat) : Fifo (s.ret pid (.failed pid)) := by
  refine h.of_eq (t := s.ret pid (.failed pid)) rfl rfl rfl ?_ ?_
  · simp [Sys.ret, accepted]
  · simp [Sys.ret, returned]

/-- **A read** moves bytes from the buffer to the returned stream. -/
theorem pipeRead_fifo {s : Sys} (h : Fifo s) (pid : Nat) (nbytes : Int) :
    Fifo (pipeRead s pid nbytes) := by
  unfold pipeRead
  split
  · exact h.of_eq rfl rfl rfl rfl rfl
  · obtain ⟨hstored, hbound⟩ := readLoop_spec nbytes.toNat s.pipe h.bound
    refine ⟨hbound, ?_⟩
    have hret : returned [.read pid (readLoop nbytes.toNat s.pipe).2] =
        (readLoop nbytes.toNat s.pipe).2 := by simp [returned]
    show accepted (s.log ++ [_]) = returned (s.log ++ [_]) ++ (readLoop nbytes.toNat s.pipe).1.stored
    rw [accepted_append, returned_append, hret, List.append_assoc, ← hstored, ← h.stream]
    simp [accepted]

/-- **A write** moves bytes from the accepted stream into the buffer. -/
theorem pipeWrite_fifo {s : Sys} (h : Fifo s) (pid : Nat) (nbytes : Int) (src : Nat → UInt8) :
    Fifo (pipeWrite s pid nbytes src) := by
  unfold pipeWrite
  split
  · exact h.of_eq rfl rfl rfl rfl rfl
  · cases hw : writeLoop src nbytes.toNat 0 s.pipe with
    | mk q t =>
      obtain ⟨_, hstored, hbound⟩ := writeLoop_spec src nbytes.toNat 0 s.pipe h.bound hw
      refine ⟨hbound, ?_⟩
      have hacc : accepted [.wrote pid src t] = (List.range t).map src := by simp [accepted]
      show accepted (s.log ++ [_]) = returned (s.log ++ [_]) ++ q.stored
      rw [accepted_append, returned_append, hacc, h.stream, hstored, Nat.sub_zero,
        ← List.range_eq_range']
      simp [returned]

theorem resume_fifo {s : Sys} (h : Fifo s) (pid : Nat) (src : Nat → UInt8) :
    Fifo (resume s pid src) := by
  unfold resume
  split
  · exact h
  · split
    · exact failed_fifo h pid
    · exact pipeRead_fifo h pid _
  · split
    · exact failed_fifo h pid
    · exact pipeWrite_fifo h pid _ src

/-- **Step lemma**: every step keeps the two streams in order. -/
theorem step_fifo {s : Sys} (h : Fifo s) (o : Op) : Fifo (step s o) := by
  cases o with
  | call pid c src =>
    simp only [step]
    split
    · exact h
    · cases c with
      | none => exact h
      | pipeRead nbytes => exact pipeRead_fifo h pid nbytes
      | pipeWrite nbytes => exact pipeWrite_fifo h pid nbytes src
  | resume pid src =>
    simp only [step]
    split
    · exact h
    · exact resume_fifo h pid src
  | kill pid => exact h.of_eq rfl rfl rfl rfl rfl
  | close writend =>
    cases writend
    · exact h.of_eq rfl rfl rfl rfl rfl
    · exact h.of_eq rfl rfl rfl rfl rfl

theorem start_fifo : Fifo start where
  bound := by decide
  stream := rfl

theorem run_fifo {s : Sys} (h : Fifo s) (ops : List Op) : Fifo (ops.foldl step s) := by
  induction ops generalizing s with
  | nil => exact h
  | cons o ops ih => exact ih (step_fifo h o)

/-- **Pipes are FIFO**: after any calls in any interleaving, the counters are at most `PIPESIZE`
    apart, the bytes returned are a prefix of the bytes accepted, and the accepted bytes that were not
    returned yet, as many as the counters differ, are in the buffer. -/
theorem fifo_of_run (ops : List Op) :
    let s := ops.foldl step start
    (s.pipe.nwrite - s.pipe.nread).toNat ≤ PIPESIZE ∧
      returned s.log <+: accepted s.log ∧
      (accepted s.log).drop (returned s.log).length = s.pipe.stored ∧
      s.pipe.stored.length = (s.pipe.nwrite - s.pipe.nread).toNat := by
  intro s
  have h : Fifo s := run_fifo start_fifo ops
  refine ⟨h.bound, ?_, ?_, stored_length ..⟩
  · exact ⟨s.pipe.stored, h.stream.symm⟩
  · rw [h.stream, List.drop_left]

/-- A reader that came first sleeps, and is given the bytes after it was woken up. -/
example :
    let s := [.call 2 (.pipeRead 2) fun _ => 0, .call 1 (.pipeWrite 3) fun k => 7 + k.toUInt8,
      .resume 2 fun _ => 0].foldl step start
    returned s.log = [7, 8] ∧ s.pipe.stored = [9] := by decide

/-! ## §6 Sleepers and closed ends -/

/-- **Nobody sleeps in vain**: who waits to read waits at an empty pipe that can still be written, and who
    waits to write at a full pipe that can still be read. -/
structure Hopeful (s : Sys) : Prop where
  toRead : ∀ pid ∈ s.pipe.waitToRead, s.pipe.writeopen = true ∧ s.pipe.nwrite = s.pipe.nread
  toWrite : ∀ pid ∈ s.pipe.waitToWrite,
    s.pipe.readopen = true ∧ s.pipe.nwrite - s.pipe.nread = BitVec.ofNat 32 PIPESIZE

/-- A call that has to wait is begun with the other end open. The loops test `writeopen` and `readopen` only
    after a sleep, never before the first. -/
def PeerOpen (s : Sys) : Op → Prop
  | .call pid (.pipeRead _) _ =>
    s.calls pid = .none → s.pipe.nwrite = s.pipe.nread → s.pipe.writeopen = true
  | .call pid (.pipeWrite _) _ =>
    s.calls pid = .none → s.pipe.nwrite - s.pipe.nread = BitVec.ofNat 32 PIPESIZE → s.pipe.readopen = true
  | _ => True

/-- A step of a pipe as a step that may fail; it never does. -/
def turn (s : Sys) (o : Op) : Except Empty Sys := .ok (step s o)

/-- The loops move the counters and the data, and nothing else. -/
theorem readLoop_frame (n : Nat) (p : Pipe) :
    (readLoop n p).1.waitToRead = p.waitToRead ∧ (readLoop n p).1.waitToWrite = p.waitToWrite := by
  induction n generalizing p with
  | zero => exact ⟨rfl, rfl⟩
  | succ n ih =>
    unfold readLoop
    split
    · exact ⟨rfl, rfl⟩
    · exact ih { p with nread := p.nread + 1 }

theorem writeLoop_frame (src : Nat → UInt8) (n total : Nat) (p : Pipe) :
    (writeLoop src n total p).1.waitToRead = p.waitToRead ∧
      (writeLoop src n total p).1.waitToWrite = p.waitToWrite := by
  induction n generalizing p total with
  | zero => exact ⟨rfl, rfl⟩
  | succ n ih =>
    unfold writeLoop
    split
    · exact ⟨rfl, rfl⟩
    · apply ih

/-- A reader that has to wait is put at the end of the list. -/
theorem pipeRead_empty {s : Sys} (pid : Nat) (nbytes : Int) (hempty : s.pipe.nwrite = s.pipe.nread) :
    (pipeRead s pid nbytes).pipe = { s.pipe with waitToRead := s.pipe.waitToRead ++ [pid] } := by
  unfold pipeRead
  rw [if_pos hempty]

theorem pipeWrite_full {s : Sys} (pid : Nat) (nbytes : Int) (src : Nat → UInt8)
    (hfull : s.pipe.nwrite - s.pipe.nread = BitVec.ofNat 32 PIPESIZE) :
    (pipeWrite s pid nbytes src).pipe = { s.pipe with waitToWrite := s.pipe.waitToWrite ++ [pid] } := by
  unfold pipeWrite
  rw [if_pos hfull]

/-- **A read** leaves no one asleep in vain if its writers are there when it has to wait. -/
theorem pipeRead_hopeful {s : Sys} (h : Hopeful s) (pid : Nat) (nbytes : Int)
    (hpeer : s.pipe.nwrite = s.pipe.nread → s.pipe.writeopen = true) : Hopeful (pipeRead s pid nbytes) := by
  by_cases hempty : s.pipe.nwrite = s.pipe.nread
  · have hpipe := pipeRead_empty pid nbytes hempty
    constructor
    · intro q _
      rw [hpipe]
      exact ⟨hpeer hempty, hempty⟩
    · rw [hpipe]
      exact h.toWrite
  · -- no reader can be asleep here, and the writers are all woken up
    have hnone : ∀ q, q ∉ s.pipe.waitToRead := fun q hq => hempty (h.toRead q hq).2
    have hlists : (pipeRead s pid nbytes).pipe.waitToRead = s.pipe.waitToRead ∧
        (pipeRead s pid nbytes).pipe.waitToWrite = [] := by
      unfold pipeRead
      rw [if_neg hempty]
      exact ⟨(readLoop_frame nbytes.toNat s.pipe).1, rfl⟩
    constructor
    · intro q hq
      rw [hlists.1] at hq
      exact absurd hq (hnone q)
    · intro q hq
      rw [hlists.2] at hq
      exact absurd hq List.not_mem_nil

/-- **A write** leaves no one asleep in vain if its readers are there when it has to wait. -/
theorem pipeWrite_hopeful {s : Sys} (h : Hopeful s) (pid : Nat) (nbytes : Int) (src : Nat → UInt8)
    (hpeer : s.pipe.nwrite - s.pipe.nread = BitVec.ofNat 32 PIPESIZE → s.pipe.readopen = true) :
    Hopeful (pipeWrite s pid nbytes src) := by
  by_cases hfull : s.pipe.nwrite - s.pipe.nread = BitVec.ofNat 32 PIPESIZE
  · have hpipe := pipeWrite_full pid nbytes src hfull
    constructor
    · rw [hpipe]
      exact h.toRead
    · intro q _
      rw [hpipe]
      exact ⟨hpeer hfull, hfull⟩
  · -- no writer can be asleep here, and the readers are all woken up
    have hnone : ∀ q, q ∉ s.pipe.waitToWrite := fun q hq => hfull (h.toWrite q hq).2
    have hlists : (pipeWrite s pid nbytes src).pipe.waitToRead = [] ∧
        (pipeWrite s pid nbytes src).pipe.waitToWrite = s.pipe.waitToWrite := by
      unfold pipeWrite
      rw [if_neg hfull]
      exact ⟨rfl, (writeLoop_frame src nbytes.toNat 0 s.pipe).2⟩
    constructor
    · intro q hq
      rw [hlists.1] at hq
      exact absurd hq List.not_mem_nil
    · intro q hq
      rw [hlists.2] at hq
      exact absurd hq (hnone q)

/-- After a sleep the flag is tested, so going on needs no condition. -/
theorem resume_hopeful {s : Sys} (h : Hopeful s) (pid : Nat) (src : Nat → UInt8) :
    Hopeful (resume s pid src) := by
  unfold resume
  split
  · exact h
  · split
    · exact ⟨h.toRead, h.toWrite⟩
    · next hgo =>
      apply pipeRead_hopeful h
      intro _
      cases hopen : s.pipe.writeopen with
      | true => rfl
      | false => simp [hopen] at hgo
  · split
    · exact ⟨h.toRead, h.toWrite⟩
    · next hgo =>
      apply pipeWrite_hopeful h
      intro _
      cases hopen : s.pipe.readopen with
      | true => rfl
      | false => simp [hopen] at hgo

/-- **Step lemma**: a step under the condition leaves no one asleep in vain. -/
theorem step_hopeful {s : Sys} (h : Hopeful s) {o : Op} (hpeer : PeerOpen s o) : Hopeful (step s o) := by
  cases o with
  | call pid c src =>
    simp only [step]
    split
    · exact h
    · next hidle =>
      cases c with
      | none => exact h
      | pipeRead nbytes => exact pipeRead_hopeful h pid nbytes (hpeer (not_not.1 hidle))
      | pipeWrite nbytes => exact pipeWrite_hopeful h pid nbytes src (hpeer (not_not.1 hidle))
  | resume pid src =>
    simp only [step]
    split
    · exact h
    · exact resume_hopeful h pid src
  | kill pid =>
    constructor
    · exact fun q hq => h.toRead q (List.mem_of_mem_erase hq)
    · exact fun q hq => h.toWrite q (List.mem_of_mem_erase hq)
  | close writend =>
    -- closing an end wakes up everybody who waits for it
    cases writend with
    | true => exact ⟨fun q hq => absurd hq List.not_mem_nil, h.toWrite⟩
    | false => exact ⟨h.toRead, fun q hq => absurd hq List.not_mem_nil⟩

/-- A call that breaks the condition puts its process to sleep for good. -/
theorem step_hopeless {s : Sys} {o : Op} (hpeer : ¬ PeerOpen s o) : ¬ Hopeful (step s o) := by
  intro h
  cases o with
  | call pid c src =>
    cases c with
    | none => exact hpeer trivial
    | pipeRead nbytes =>
      simp only [PeerOpen, Classical.not_imp] at hpeer
      obtain ⟨hidle, hempty, hclosed⟩ := hpeer
      have hstep : step s (.call pid (.pipeRead nbytes) src) = pipeRead s pid nbytes :=
        if_neg (not_not.2 hidle)
      have hpipe := pipeRead_empty pid nbytes hempty
      rw [hstep] at h
      have hopen := (h.toRead pid (by simp [hpipe])).1
      rw [hpipe] at hopen
      exact hclosed hopen
    | pipeWrite nbytes =>
      simp only [PeerOpen, Classical.not_imp] at hpeer
      obtain ⟨hidle, hfull, hclosed⟩ := hpeer
      have hstep : step s (.call pid (.pipeWrite nbytes) src) = pipeWrite s pid nbytes src :=
        if_neg (not_not.2 hidle)
      have hpipe := pipeWrite_full pid nbytes src hfull
      rw [hstep] at h
      have hopen := (h.toWrite pid (by simp [hpipe])).1
      rw [hpipe] at hopen
      exact hclosed hopen
  | resume pid src => exact hpeer trivial
  | kill pid => exact hpeer trivial
  | close writend => exact hpeer trivial

/-- **Sleepers**: in a run of calls, wake-ups, kills and closes in any order nobody is ever asleep in vain,
    exactly when every call that has to wait is begun with the other end open. -/
theorem sleepers_of_run (ops : List Op) :
    Along turn (fun _ _ s' => Hopeful s') start ops ↔ Meets turn PeerOpen start ops := by
  have hstart : Hopeful start := by
    constructor
    · exact fun q hq => absurd hq List.not_mem_nil
    · exact fun q hq => absurd hq List.not_mem_nil
  have hall : Meets turn (fun _ _ => True) start ops := Meets.of_forall fun _ _ => trivial
  apply along_iff_meets Hopeful _ _ hstart hall
  · intro s o h _ hpeer
    exact ⟨step s o, rfl, step_hopeful h hpeer, step_hopeful h hpeer⟩
  · intro s o s' _ _ hpeer hok
    obtain rfl := Except.ok.inj hok
    exact step_hopeless hpeer

/-- The writer closes its end of an empty pipe, and then a reader comes. -/
theorem not_hopeful_of_run : ¬ ∀ ops : List Op, Hopeful (ops.foldl step start) := by
  intro h
  have hread := (h [.close true, .call 1 (.pipeRead 1) fun _ => 0]).toRead 1 (by decide)
  exact absurd hread.1 (by decide)

end WeiOS.Pipes
