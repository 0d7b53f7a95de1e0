import Mathlib
import WeiOS.Lib.RingBuffer

/-!
# Console Input

`kbd_intr` of `kern/kbd.c` puts the decoded keys into the queue `console_tty.write_buf`, which
`compatible_console_read` of `kern/console.c` empties. The two run with interrupts off, so that an interrupt
and a stretch of a read, from its loop test to the next sleep or to the return, are one step each. A reader
that slept makes the loop test again, or returns -1 when it was killed.

The bookkeeping of interrupts and readers is given once, over an interface `Device`. It is used at the queue of
the source, two counters of 32 bits and a buffer of `TTY_BUF` characters, and at a plain list.

## Main results
- `ttyDevice_simulates`: the queue of the source does what the list does, key by key and stretch by stretch.
- `console_refines`: so it does in every run, however often the counters wrap.
-/

namespace WeiOS.Console

open WeiOS.Lib RingBuffer

/-! ## §1 The queue -/

def TTY_BUF : Nat := 256

/-- `struct tty_queue`; its wait list belongs to the bookkeeping of the readers. -/
structure TtyQueue where
  rpos : BitVec 32
  wpos : BitVec 32
  buf : Nat → UInt8

/-- The two queues of `console_tty`. -/
structure Tty where
  readBuf : TtyQueue
  writeBuf : TtyQueue

/-- The character `CONTROL(X)`. -/
def CONTROL (x : Char) : UInt8 := x.toNat.toUInt8 - 0x40

def newline : UInt8 := 10

def carriageReturn : UInt8 := 13

def delete : UInt8 := 0x7f

/-- `buf[wpos++ % TTY_BUF] = c`. -/
def TtyQueue.put (q : TtyQueue) (c : UInt8) : TtyQueue :=
  { q with wpos := q.wpos + 1, buf := Function.update q.buf (q.wpos.toNat % TTY_BUF) c }

/-- `wpos - rpos < TTY_BUF`. -/
def TtyQueue.hasRoom (q : TtyQueue) : Bool := decide ((q.wpos - q.rpos).toNat < TTY_BUF)

/-- The loop of the key `Ctrl-U`, with a bound on its turns: each takes back one character. -/
def killLine : Nat → TtyQueue → TtyQueue
  | 0, q => q
  | turns + 1, q =>
    if q.wpos ≠ q.rpos ∧ q.buf ((q.wpos - 1).toNat % TTY_BUF) ≠ newline then
      killLine turns { q with wpos := q.wpos - 1 }
    else
      q

/-- A key as `kbd_get_data` decodes it, with the raw byte it stores through its argument. -/
structure Key where
  c : UInt8
  rc : UInt8

/-- One turn of the loop of `kbd_intr`: the queues after the key, and whether the readers are woken up. -/
def kbdKey (k : Key) (t : Tty) : Tty × Bool :=
  let t := if t.readBuf.hasRoom then { t with readBuf := t.readBuf.put k.rc } else t
  let wbuf := t.writeBuf
  if k.c = CONTROL 'P' then
    (t, false)
  else if k.c = CONTROL 'U' then
    ({ t with writeBuf := killLine (wbuf.wpos - wbuf.rpos).toNat wbuf }, false)
  else if k.c = delete ∨ k.c = CONTROL 'H' then
    if wbuf.wpos ≠ wbuf.rpos then
      ({ t with writeBuf := { wbuf with wpos := wbuf.wpos - 1 } }, false)
    else
      (t, false)
  else if k.c ≠ 0 ∧ wbuf.hasRoom = true then
    let c := if k.c = carriageReturn then newline else k.c
    let wbuf := wbuf.put c
    ({ t with writeBuf := wbuf },
      decide (c = newline ∨ wbuf.wpos = wbuf.rpos + BitVec.ofNat 32 TTY_BUF))
  else
    (t, false)

/-- A stretch of `compatible_console_read` with `n` characters left to read and `got` read so far: the
    queues, the characters read, and whether the call returns. Otherwise it sleeps on the empty queue. -/
def readStretch : Nat → List UInt8 → Tty → Tty × List UInt8 × Bool
  | 0, got, t => (t, got, true)
  | n + 1, got, t =>
    let q := t.writeBuf
    if q.rpos = q.wpos then
      (t, got, false)
    else
      let c := q.buf (q.rpos.toNat % TTY_BUF)
      let q := { q with rpos := q.rpos + 1 }
      if c = CONTROL 'D' then
        -- something was read: the character is put back for the next read
        let q := if got ≠ [] then { q with rpos := q.rpos - 1 } else q
        ({ t with writeBuf := q }, got, true)
      else if c = newline then
        ({ t with writeBuf := q }, got ++ [c], true)
      else
        readStretch n (got ++ [c]) { t with writeBuf := q }

/-! ## §2 Interrupts and readers -/

/-- What the bookkeeping uses of the queue. -/
structure Device (Q : Type) where
  key : Key → Q → Q × Bool
  stretch : Nat → List UInt8 → Q → Q × List UInt8 × Bool

/-- The queues of the source. -/
def ttyDevice : Device Tty := ⟨kbdKey, readStretch⟩

/-- What a read has returned: its characters, or -1. -/
inductive Event
  | read (pid : Nat) (dst : List UInt8)
  | failed (pid : Nat)

/-- A reader in its call: the characters it still asks for, and those it has. -/
structure Reader where
  left : Nat
  got : List UInt8

/-- The queue, the readers and what has been returned so far; `procsList` is the wait list. -/
structure Sys (Q : Type) where
  queue : Q
  procsList : List Nat
  readers : Nat → Option Reader
  killed : Nat → Bool
  log : List Event

variable {Q : Type}

/-- The loop of `kbd_intr`, over the data that `kbd_get_data` returns: it ends at a negative `char`. -/
def kbdIntr (D : Device Q) : List Key → Sys Q → Sys Q
  | [], s => s
  | k :: ks, s =>
    if k.c < 128 then
      let r := D.key k s.queue
      kbdIntr D ks { s with queue := r.1, procsList := if r.2 then [] else s.procsList }
    else
      s

/-- `compatible_console_read` from its loop test on. -/
def consoleRead (D : Device Q) (pid : Nat) (r : Reader) (s : Sys Q) : Sys Q :=
  let (queue, got, done) := D.stretch r.left r.got s.queue
  if done then
    { s with
      queue := queue
      readers := Function.update s.readers pid none
      log := s.log ++ [.read pid got] }
  else
    { s with
      queue := queue
      procsList := s.procsList ++ [pid]
      readers := Function.update s.readers pid (some ⟨r.left - (got.length - r.got.length), got⟩) }

/-- A step: an interrupt, a call with a length (a C `int`), a reader that goes on after its sleep, `kill`. -/
inductive Op
  | kbd (keys : List Key)
  | call (pid : Nat) (nbytes : Int)
  | resume (pid : Nat)
  | kill (pid : Nat)

/-- A step that the process cannot take now leaves everything as it is. -/
def step (D : Device Q) (s : Sys Q) : Op → Sys Q
  | .kbd keys => kbdIntr D keys s
  | .call pid nbytes =>
    if (s.readers pid).isSome then s else consoleRead D pid ⟨nbytes.toNat, []⟩ s
  | .resume pid =>
    match s.readers pid with
    | none => s
    | some r =>
      if pid ∈ s.procsList then s
      else if s.killed pid then
        { s with
          readers := Function.update s.readers pid none
          log := s.log ++ [.failed pid] }
      else
        consoleRead D pid r s
  | .kill pid =>
    { s with
      procsList := s.procsList.erase pid
      killed := Function.update s.killed pid true }

def start (q : Q) : Sys Q where
  queue := q
  procsList := []
  readers := fun _ => none
  killed := fun _ => false
  log := []

/-! ## §3 The editable list -/

/-- A key on a list of at most `TTY_BUF` characters: the list after the key, and whether the readers are
    woken up. -/
def listKey (k : Key) (l : List UInt8) : List UInt8 × Bool :=
  if k.c = CONTROL 'P' then
    (l, false)
  else if k.c = CONTROL 'U' then
    (l.rdropWhile (· ≠ newline), false)
  else if k.c = delete ∨ k.c = CONTROL 'H' then
    (l.dropLast, false)
  else if k.c ≠ 0 ∧ l.length < TTY_BUF then
    let c := if k.c = carriageReturn then newline else k.c
    (l ++ [c], decide (c = newline ∨ l.length + 1 = TTY_BUF))
  else
    (l, false)

/-- A stretch of a read on a list. -/
def listRead : Nat → List UInt8 → List UInt8 → List UInt8 × List UInt8 × Bool
  | 0, got, l => (l, got, true)
  | _ + 1, got, [] => ([], got, false)
  | n + 1, got, c :: l =>
    if c = CONTROL 'D' then (if got ≠ [] then c :: l else l, got, true)
    else if c = newline then (l, got ++ [c], true)
    else listRead n (got ++ [c]) l

def listDevice : Device (List UInt8) := ⟨listKey, listRead⟩

/-! ## §4 Simulation -/

/-- The characters in the queue. -/
def TtyQueue.chars (q : TtyQueue) : List UInt8 := stored TTY_BUF q.buf q.rpos q.wpos

/-- The queue represents the list `l`. -/
structure Represents (t : Tty) (l : List UInt8) : Prop where
  bound : l.length ≤ TTY_BUF
  chars : t.writeBuf.chars = l

theorem Represents.count {t : Tty} {l : List UInt8} (h : Represents t l) :
    (t.writeBuf.wpos - t.writeBuf.rpos).toNat = l.length := by
  rw [← h.chars, TtyQueue.chars, stored_length]

theorem Represents.empty_iff {t : Tty} {l : List UInt8} (h : Represents t l) :
    t.writeBuf.wpos = t.writeBuf.rpos ↔ l = [] := by
  rw [← List.length_eq_zero_iff, ← h.count]
  constructor
  · intro heq
    rw [heq, BitVec.sub_self]
    rfl
  · intro hzero
    have hsub := add_sub_toNat t.writeBuf.rpos t.writeBuf.wpos
    rw [hzero] at hsub
    simpa using hsub.symm

/-- Taking back the last character. -/
theorem Represents.back {t : Tty} {l : List UInt8} (h : Represents t l) (hl : l ≠ []) :
    Represents { t with writeBuf := { t.writeBuf with wpos := t.writeBuf.wpos - 1 } } l.dropLast ∧
      l = l.dropLast ++ [t.writeBuf.buf ((t.writeBuf.wpos - 1).toNat % TTY_BUF)] := by
  have hne : t.writeBuf.wpos ≠ t.writeBuf.rpos := mt h.empty_iff.1 hl
  have hlast : l = stored TTY_BUF t.writeBuf.buf t.writeBuf.rpos (t.writeBuf.wpos - 1) ++
      [t.writeBuf.buf ((t.writeBuf.wpos - 1).toNat % TTY_BUF)] := by
    rw [← h.chars]
    exact stored_last t.writeBuf.buf hne
  have hdrop : l.dropLast = stored TTY_BUF t.writeBuf.buf t.writeBuf.rpos (t.writeBuf.wpos - 1) := by
    rw [hlast, List.dropLast_concat]
  refine ⟨⟨?_, hdrop.symm⟩, ?_⟩
  · rw [List.length_dropLast]
    exact (Nat.sub_le _ _).trans h.bound
  · rw [hdrop]
    exact hlast

/-- Taking the first character. -/
theorem Represents.front {t : Tty} {c : UInt8} {l : List UInt8} (h : Represents t (c :: l)) :
    t.writeBuf.buf (t.writeBuf.rpos.toNat % TTY_BUF) = c ∧
      Represents { t with writeBuf := { t.writeBuf with rpos := t.writeBuf.rpos + 1 } } l := by
  have hne : t.writeBuf.wpos ≠ t.writeBuf.rpos := by
    intro heq
    exact List.cons_ne_nil c l (h.empty_iff.1 heq)
  have hpop := stored_pop (n := TTY_BUF) t.writeBuf.buf hne
  have hchars := h.chars
  rw [TtyQueue.chars, hpop] at hchars
  obtain ⟨hc, hl⟩ := List.cons.inj hchars
  have hbound := h.bound
  rw [List.length_cons] at hbound
  exact ⟨hc, ⟨by omega, hl⟩⟩

/-- Appending a character where there is room. -/
theorem Represents.put {t : Tty} {l : List UInt8} (h : Represents t l) (hroom : l.length < TTY_BUF)
    (c : UInt8) : Represents { t with writeBuf := t.writeBuf.put c } (l ++ [c]) := by
  have hdvd : TTY_BUF ∣ 2 ^ 32 := by decide
  have hlt : (t.writeBuf.wpos - t.writeBuf.rpos).toNat < TTY_BUF := by
    rw [h.count]
    exact hroom
  refine ⟨?_, ?_⟩
  · rw [List.length_append, List.length_singleton]
    exact hroom
  · have hpush := stored_push hdvd (by decide) t.writeBuf.buf hlt c
    rw [← h.chars]
    exact hpush

theorem Represents.hasRoom_iff {t : Tty} {l : List UInt8} (h : Represents t l) :
    t.writeBuf.hasRoom = true ↔ l.length < TTY_BUF := by
  unfold TtyQueue.hasRoom
  rw [decide_eq_true_iff, h.count]

/-- **`Ctrl-U`** takes back the characters behind the last newline, and its loop ends by itself. -/
theorem Represents.killLine {t : Tty} {l : List UInt8} (h : Represents t l) {turns : Nat}
    (hturns : l.length ≤ turns) :
    Represents { t with writeBuf := Console.killLine turns t.writeBuf }
      (l.rdropWhile (· ≠ newline)) := by
  induction turns generalizing t l with
  | zero =>
    obtain rfl := List.length_eq_zero_iff.1 (Nat.le_zero.1 hturns)
    exact h
  | succ turns ih =>
    rw [Console.killLine]
    by_cases hl : l = []
    · have heq := h.empty_iff.2 hl
      rw [if_neg (fun hcond => hcond.1 heq)]
      subst hl
      exact h
    · have hne : t.writeBuf.wpos ≠ t.writeBuf.rpos := mt h.empty_iff.1 hl
      obtain ⟨hback, hlast⟩ := h.back hl
      by_cases hnl : t.writeBuf.buf ((t.writeBuf.wpos - 1).toNat % TTY_BUF) = newline
      · -- the newline stays
        rw [if_neg (fun hcond => hcond.2 hnl)]
        have hstay : l.rdropWhile (· ≠ newline) = l := by
          rw [hlast, List.rdropWhile_concat_neg]
          exact fun hgo => of_decide_eq_true hgo hnl
        rw [hstay]
        exact h
      · rw [if_pos ⟨hne, hnl⟩]
        have hgo : l.rdropWhile (· ≠ newline) = l.dropLast.rdropWhile (· ≠ newline) := by
          conv_lhs => rw [hlast]
          rw [List.rdropWhile_concat_pos]
          exact decide_eq_true hnl
        rw [hgo]
        apply ih hback
        rw [List.length_dropLast]
        omega

/-- The raw bytes do not touch the queue of the readers. -/
theorem Represents.raw {t : Tty} {l : List UInt8} (h : Represents t l) (q : TtyQueue) :
    Represents { t with readBuf := q } l := ⟨h.bound, h.chars⟩

/-- **Key lemma**: a key does to the queue what it does to the list. -/
theorem kbdKey_represents {t : Tty} {l : List UInt8} (h : Represents t l) (k : Key) :
    Represents (kbdKey k t).1 (listKey k l).1 ∧ (kbdKey k t).2 = (listKey k l).2 := by
  unfold kbdKey listKey
  -- the raw queue first, then the cases of the `switch`
  generalize ht : (if t.readBuf.hasRoom = true then { t with readBuf := t.readBuf.put k.rc } else t) = u
  have hu : Represents u l := by
    rw [← ht]
    split
    · exact h.raw _
    · exact h
  simp only
  split
  · exact ⟨hu, rfl⟩
  · split
    · exact ⟨hu.killLine (le_of_eq hu.count.symm), rfl⟩
    · split
      · split
        · rename_i hne
          exact ⟨(hu.back (mt hu.empty_iff.2 hne)).1, rfl⟩
        · rename_i heq
          have hnil := hu.empty_iff.1 (not_not.1 heq)
          subst hnil
          exact ⟨hu, rfl⟩
      · by_cases hput : k.c ≠ 0 ∧ l.length < TTY_BUF
        · rw [if_pos ⟨hput.1, hu.hasRoom_iff.2 hput.2⟩, if_pos hput]
          have hnew := hu.put hput.2 (if k.c = carriageReturn then newline else k.c)
          refine ⟨hnew, ?_⟩
          simp only
          rw [decide_eq_decide]
          apply or_congr Iff.rfl
          rw [eq_add_iff (by decide), hnew.count, List.length_append, List.length_singleton]
        · rw [if_neg (fun hcond => hput ⟨hcond.1, hu.hasRoom_iff.1 hcond.2⟩), if_neg hput]
          exact ⟨hu, rfl⟩

/-- **Stretch lemma**: a stretch of a read does to the queue what it does to the list. -/
theorem readStretch_represents {n : Nat} {t : Tty} {l : List UInt8} (h : Represents t l)
    (got : List UInt8) :
    Represents (readStretch n got t).1 (listRead n got l).1 ∧
      (readStretch n got t).2 = (listRead n got l).2 := by
  induction n generalizing t l got with
  | zero => exact ⟨h, rfl⟩
  | succ n ih =>
    cases l with
    | nil =>
      have heq := h.empty_iff.2 rfl
      rw [readStretch, listRead]
      simp only [if_pos heq.symm, and_true]
      exact h
    | cons c l =>
      have hne : ¬ t.writeBuf.rpos = t.writeBuf.wpos := by
        intro heq
        exact List.cons_ne_nil c l (h.empty_iff.1 heq.symm)
      obtain ⟨hc, hfront⟩ := h.front
      rw [readStretch, listRead]
      simp only [if_neg hne, hc]
      split
      · split
        · -- the counter goes back to where it was
          refine ⟨?_, rfl⟩
          simp only [BitVec.add_sub_cancel]
          exact h
        · exact ⟨hfront, rfl⟩
      · split
        · exact ⟨hfront, rfl⟩
        · exact ih hfront (got ++ [c])

/-- A relation between the queues of two devices that keys and reads keep. -/
structure Simulates {Q R : Type} (D : Device Q) (E : Device R) (rel : Q → R → Prop) : Prop where
  key : ∀ k q r, rel q r → rel (D.key k q).1 (E.key k r).1 ∧ (D.key k q).2 = (E.key k r).2
  stretch : ∀ n got q r, rel q r →
    rel (D.stretch n got q).1 (E.stretch n got r).1 ∧ (D.stretch n got q).2 = (E.stretch n got r).2

/-- **The queue of the source simulates the editable list.** -/
theorem ttyDevice_simulates : Simulates ttyDevice listDevice Represents where
  key k _ _ h := kbdKey_represents h k
  stretch _ got _ _ h := readStretch_represents h got

/-! ## §5 Runs -/

/-- The two systems differ in their queues only, and these are related. -/
structure Related {Q R : Type} (rel : Q → R → Prop) (s : Sys Q) (t : Sys R) : Prop where
  queue : rel s.queue t.queue
  procsList : s.procsList = t.procsList
  readers : s.readers = t.readers
  killed : s.killed = t.killed
  log : s.log = t.log

variable {R : Type} {D : Device Q} {E : Device R} {rel : Q → R → Prop}

theorem kbdIntr_related (h : Simulates D E rel) (keys : List Key) {s : Sys Q} {t : Sys R}
    (hst : Related rel s t) : Related rel (kbdIntr D keys s) (kbdIntr E keys t) := by
  induction keys generalizing s t with
  | nil => exact hst
  | cons k ks ih =>
    rw [kbdIntr, kbdIntr]
    split
    · obtain ⟨hqueue, hwake⟩ := h.key k _ _ hst.queue
      apply ih
      refine ⟨hqueue, ?_, hst.readers, hst.killed, hst.log⟩
      simp only [hwake, hst.procsList]
    · exact hst

theorem consoleRead_related (h : Simulates D E rel) (pid : Nat) (r : Reader) {s : Sys Q} {t : Sys R}
    (hst : Related rel s t) : Related rel (consoleRead D pid r s) (consoleRead E pid r t) := by
  obtain ⟨hqueue, hrest⟩ := h.stretch r.left r.got _ _ hst.queue
  obtain ⟨hgot, hdone⟩ := Prod.ext_iff.1 hrest
  unfold consoleRead
  simp only [hgot, hdone]
  split
  · exact ⟨hqueue, hst.procsList, by simp only [hst.readers], hst.killed, by simp only [hst.log]⟩
  · exact ⟨hqueue, by simp only [hst.procsList], by simp only [hst.readers], hst.killed, hst.log⟩

/-- **Step lemma**: a step keeps the two systems related. -/
theorem step_related (h : Simulates D E rel) {s : Sys Q} {t : Sys R} (hst : Related rel s t)
    (o : Op) : Related rel (step D s o) (step E t o) := by
  cases o with
  | kbd keys => exact kbdIntr_related h keys hst
  | call pid nbytes =>
    simp only [step, hst.readers]
    split
    · exact hst
    · exact consoleRead_related h pid _ hst
  | resume pid =>
    simp only [step, hst.readers, hst.procsList, hst.killed]
    cases t.readers pid with
    | none => exact hst
    | some r =>
      simp only
      split
      · exact hst
      · split
        · exact ⟨hst.queue, rfl, rfl, rfl, by rw [hst.log]⟩
        · exact consoleRead_related h pid r hst
  | kill pid =>
    exact ⟨hst.queue, by rw [step, step, hst.procsList], hst.readers,
      by simp only [step, hst.killed], hst.log⟩

theorem run_related (h : Simulates D E rel) {s : Sys Q} {t : Sys R} (hst : Related rel s t)
    (ops : List Op) : Related rel (ops.foldl (step D) s) (ops.foldl (step E) t) := by
  induction ops generalizing s t with
  | nil => exact hst
  | cons o ops ih => exact ih (step_related h hst o)

/-- A queue whose counters are equal, at whatever value, represents the empty list. -/
theorem represents_nil {t : Tty} (ht : t.writeBuf.wpos = t.writeBuf.rpos) : Represents t [] where
  bound := Nat.zero_le _
  chars := by rw [TtyQueue.chars, ht, stored_self]

/-- **Console input refines an editable list**: after any interrupts, reads and kills, in any order and
    from any equal values of the two counters, the queue represents a list of at most `TTY_BUF` characters
    that is edited and read as `listKey` and `listRead` say, and the reads have returned the same. -/
theorem console_refines (t : Tty) (ht : t.writeBuf.wpos = t.writeBuf.rpos) (ops : List Op) :
    let s := ops.foldl (step ttyDevice) (start t)
    let a := ops.foldl (step listDevice) (start [])
    a.queue.length ≤ TTY_BUF ∧ s.queue.writeBuf.chars = a.queue ∧ s.log = a.log ∧
      s.readers = a.readers ∧ s.procsList = a.procsList := by
  intro s a
  have hstart : Related Represents (start t) (start []) :=
    ⟨represents_nil ht, rfl, rfl, rfl, rfl⟩
  have h : Related Represents s a := run_related ttyDevice_simulates hstart ops
  exact ⟨h.queue.bound, h.queue.chars, h.log, h.readers, h.procsList⟩

/-- The queue of the source at the end of the range of its counters. -/
def wrapping : Tty := ⟨⟨0, 0, fun _ => 0⟩, ⟨4294967295, 4294967295, fun _ => 0⟩⟩

theorem console_refines_wrapping :
    let ops := [.kbd [⟨97, 0⟩, ⟨98, 0⟩, ⟨8, 0⟩, ⟨13, 0⟩], .call 1 5]
    let s := ops.foldl (step ttyDevice) (start wrapping)
    let a := ops.foldl (step listDevice) (start [])
    a.queue.length ≤ TTY_BUF ∧ s.queue.writeBuf.chars = a.queue ∧ s.log = a.log ∧
      s.readers = a.readers ∧ s.procsList = a.procsList :=
  console_refines wrapping rfl _

/-! ## §6 What a read takes -/

/-- **A read on the list** takes a piece `t` off the front that holds no `Ctrl-D` and a newline only as its
    last character. It sleeps when the list is used up; it returns when it has its length or a newline, or in
    front of a `Ctrl-D`, which stays where it is unless nothing was read at all. -/
theorem listRead_takes (n : Nat) (got l : List UInt8) :
    ∃ t, (listRead n got l).2.1 = got ++ t ∧ t.length ≤ n ∧ CONTROL 'D' ∉ t ∧
      newline ∉ t.dropLast ∧
      ((listRead n got l = ([], got ++ t, false) ∧ l = t ∧ t.length < n) ∨
        (∃ l', listRead n got l = (l', got ++ t, true) ∧ l = t ++ l' ∧
          (t.length = n ∨ newline ∈ t ∨ (l'.head? = some (CONTROL 'D') ∧ got ++ t ≠ []))) ∨
        (∃ l', listRead n got l = (l', [], true) ∧ got ++ t = [] ∧ l = CONTROL 'D' :: l')) := by
  induction n generalizing got l with
  | zero =>
    refine ⟨[], by simp [listRead], le_refl 0, List.not_mem_nil, List.not_mem_nil, .inr (.inl ?_)⟩
    exact ⟨l, by simp [listRead], rfl, .inl rfl⟩
  | succ n ih =>
    cases l with
    | nil =>
      refine ⟨[], by simp [listRead], Nat.zero_le _, List.not_mem_nil, List.not_mem_nil, .inl ?_⟩
      exact ⟨by simp [listRead], rfl, Nat.succ_pos n⟩
    | cons c l =>
      by_cases hd : c = CONTROL 'D'
      · refine ⟨[], by simp [listRead, hd], Nat.zero_le _, List.not_mem_nil, List.not_mem_nil,
          .inr ?_⟩
        by_cases hgot : got = []
        · exact .inr ⟨l, by simp [listRead, hd, hgot], by simp [hgot], by rw [hd]⟩
        · refine .inl ⟨c :: l, by simp [listRead, hd, hgot], rfl, .inr (.inr ?_)⟩
          exact ⟨by simp [hd], by simpa using hgot⟩
      · by_cases hnl : c = newline
        · have hstep : listRead (n + 1) got (c :: l) = (l, got ++ [c], true) := by
            rw [listRead, if_neg hd, if_pos hnl]
          exact ⟨[c], by rw [hstep], by simp, by simpa using Ne.symm hd, by simp,
            .inr (.inl ⟨l, hstep, rfl, .inr (.inl (by simp [hnl]))⟩)⟩
        · obtain ⟨t, hgot, hlen, hnod, hnonl, hcases⟩ := ih (got ++ [c]) l
          have hstep : listRead (n + 1) got (c :: l) = listRead n (got ++ [c]) l := by
            rw [listRead, if_neg hd, if_neg hnl]
          have hassoc : got ++ [c] ++ t = got ++ (c :: t) := by simp
          rw [hassoc] at hgot hcases
          refine ⟨c :: t, by rw [hstep, hgot], by simpa using hlen, ?_, ?_, ?_⟩
          · exact fun hmem => (List.mem_cons.1 hmem).elim (fun h => hd h.symm) hnod
          · cases t with
            | nil => exact List.not_mem_nil
            | cons d t =>
              rw [List.dropLast_cons_cons]
              exact fun hmem => (List.mem_cons.1 hmem).elim (fun h => hnl h.symm) hnonl
          · rw [hstep]
            obtain ⟨hlist, hl, hlt⟩ | ⟨l', hlist, hl, hwhy⟩ | ⟨l', _, hempty, _⟩ := hcases
            · exact .inl ⟨hlist, by rw [hl], by simpa using hlt⟩
            · refine .inr (.inl ⟨l', hlist, by rw [hl]; rfl, ?_⟩)
              obtain hfull | hnewline | hstop := hwhy
              · exact .inl (by simpa using hfull)
              · exact .inr (.inl (List.mem_cons_of_mem c hnewline))
              · exact .inr (.inr hstop)
            · simp at hempty

end WeiOS.Console
