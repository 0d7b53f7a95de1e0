import Mathlib
import WeiOS.User.Ustring

/-!
# The Command Search of the Shell

Models `splicingcmd` and the loop of `runcmd` in `user/sh.c`, with `strlen`, `strcpy`, `strncpy` and
`strcat` of `user/ustring.c`, on bytes in memory. Every write is recorded by its address. The loops carry
a bound on their turns. All calls of `exec` fail, and leave the memory alone.

The loop goes on for as long as `splicingcmd` returns a string. For a word with a leading `/` it returns
the word each time without moving the position in `PATH`, while `exec` gets the buffer, which nothing has
written. The buffer of 20 bytes takes the longest directory with a word of three characters: one byte is
written behind the terminator of the spliced path.

## Main results
- `strncpy_spec`, `strcat_spec`: what the string functions write.
- `splicingcmd_spec`: one directory, as long as the path fits in the buffer.
- `runcmd_search_iff`: when the search ends in order and stays in its buffer.
-/

namespace WeiOS.PathSearch

open Ustring

/-! ## §1 Strings in memory -/

/-- Memory, and the addresses written. -/
structure State where
  mem : Memory
  written : List Addr

/-- `*d = b`. -/
def State.store (s : State) (d : Addr) (b : UInt8) : State := ⟨Ustring.store s.mem d b, d :: s.written⟩

/-- The loop of `strlen`; `i` is its counter. -/
def strlenLoop (m : Memory) (p : Addr) : Nat → Nat → Option Nat
  | 0, _ => none
  | turns + 1, i => if m (byteAt p i) = 0 then some i else strlenLoop m p turns (i + 1)

/-- `strlen`. -/
def strlen (turns : Nat) (m : Memory) (p : Addr) : Option Addr :=
  if p = 0 then some (-1) else (strlenLoop m p turns 0).map (BitVec.ofNat 32)

/-- The loop of `strcpy`. -/
def strcpyLoop : Nat → State → Addr → Addr → Option State
  | 0, _, _, _ => none
  | turns + 1, s, des, src =>
    let b := s.mem src
    if b ≠ 0 then strcpyLoop turns (s.store des b) (des + 1) (src + 1) else some (s.store des b)

/-- `strcpy`. -/
def strcpy (turns : Nat) (s : State) (des src : Addr) : Option State :=
  if des = 0 ∨ src = 0 then some s else strcpyLoop turns s des src

/-- The loop of `strncpy`; the terminator is written behind the bytes copied. -/
def strncpyLoop : Nat → State → Addr → Addr → Int → Option State
  | 0, _, _, _, _ => none
  | turns + 1, s, des, src, n =>
    let b := s.mem src
    if b ≠ 0 ∧ n - 1 > 0 then strncpyLoop turns (s.store des b) (des + 1) (src + 1) (n - 1)
    else some ((s.store des b).store (des + 1) 0)

/-- `strncpy`. -/
def strncpy (turns : Nat) (s : State) (des src : Addr) (n : Int) : Option State :=
  if des = 0 ∨ src = 0 then some s else strncpyLoop turns s des src n

/-- `strcat`. -/
def strcat (turns : Nat) (s : State) (des src : Addr) : Option State := do
  let len ← strlen turns s.mem des
  strcpy turns s (des + len) src

/-! ## §2 The search -/

def CMDLEN : Nat := 20

def SLASH : UInt8 := 47
def COLON : UInt8 := 58

def bytes (s : String) : List UInt8 := s.toList.map fun c => c.toNat.toUInt8

/-- The string literal `PATH`. -/
def PATH : List UInt8 := bytes "/:/bin/:/usr/bin/:/usr/local/bin/:"

/-- `while (PATH[e] != ':') e++`; `path` is the address of the literal. -/
def findColon (m : Memory) (path : Addr) : Nat → Nat → Option Nat
  | 0, _ => none
  | turns + 1, e => if m (byteAt path e) ≠ COLON then findColon m path turns (e + 1) else some e

/-- `splicingcmd`: the string returned, the new value of `*p`, and the memory. -/
def splicingcmd (turns : Nat) (path cmd rs : Addr) (s : State) (p : Nat) : Option (Addr × Nat × State) := do
  let n ← strlen turns s.mem path
  if cmd = 0 ∨ n.toNat ≤ p then
    return (0, p, s)
  else if s.mem cmd = SLASH then
    return (cmd, p, s)
  else
    let e ← findColon s.mem path turns p
    let l ← strlen turns s.mem cmd
    let len := BitVec.ofNat 32 (e - p) + l + 1
    let s ← strncpy turns s rs (byteAt path p) (e - p)
    let s ← strcat turns s rs cmd
    return (rs, e + 1, s.store (rs + len) 0)

/-- The loop of `runcmd`: the memories in which `exec` is called with the buffer, and the state at the end. -/
def search (turns : Nat) (path cmd rs : Addr) : Nat → State → Nat → Option (List Memory × State)
  | 0, _, _ => none
  | rounds + 1, s, p => do
    let (r, p, s) ← splicingcmd turns path cmd rs s p
    if r = 0 then
      return ([], s)
    else
      let (calls, t) ← search turns path cmd rs rounds s p
      return (s.mem :: calls, t)

/-! ## §3 What the string functions write -/

/-- The bytes at `p`. -/
def Bytes (m : Memory) (p : Addr) (bs : List UInt8) : Prop := ∀ i (h : i < bs.length), m (byteAt p i) = bs[i]

/-- The string at `p`. -/
structure CString (m : Memory) (p : Addr) (s : List UInt8) : Prop where
  bytes : Bytes m p (s ++ [0])
  nonzero : 0 ∉ s

/-- The bytes `bs` are written at `d`, one after the other. -/
def State.put (s : State) (d : Addr) : List UInt8 → State
  | [] => s
  | b :: bs => (s.store d b).put (d + 1) bs

section Strings

variable {m m' : Memory} {s t : State} {p d src des a : Addr} {bs str : List UInt8} {turns i : Nat}

theorem Bytes.tail {b : UInt8} (h : Bytes m p (b :: bs)) : Bytes m (p + 1) bs := fun i hi => by
  rw [byteAt_succ]
  exact h (i + 1) (by simpa using hi)

theorem Bytes.congr (h : Bytes m p bs) (hm : ∀ i < bs.length, m' (byteAt p i) = m (byteAt p i)) :
    Bytes m' p bs := fun i hi => (hm i hi).trans (h i hi)

theorem put_other (h : ∀ i < bs.length, a ≠ byteAt d i) : (s.put d bs).mem a = s.mem a := by
  induction bs generalizing s d with
  | nil => rfl
  | cons b bs ih =>
    rw [State.put, ih fun i hi => by rw [byteAt_succ]; exact h (i + 1) (by simpa using hi)]
    exact store_ne (by simpa using h 0 (by simp)) b

theorem put_bytes (hlen : bs.length ≤ 2 ^ 32) : Bytes (s.put d bs).mem d bs := by
  induction bs generalizing s d with
  | nil => exact fun i hi => absurd hi (Nat.not_lt_zero i)
  | cons b bs ih =>
    rintro (_ | i) hi
    · -- the first byte is not written again
      rw [State.put, put_other fun j hj he => ?_]
      · simp [State.store]
      · rw [byteAt_succ] at he
        have := (byteAt_inj (by omega) (by simp at hlen; omega)).1 he
        omega
    · rw [← byteAt_succ]
      exact ih (by simp at hlen; omega) i (by simpa using hi)

theorem mem_written_put : a ∈ (s.put d bs).written ↔ a ∈ s.written ∨ ∃ i < bs.length, a = byteAt d i := by
  induction bs generalizing s d with
  | nil => simp [State.put]
  | cons b bs ih =>
    rw [State.put, ih]
    simp only [State.store, List.mem_cons, byteAt_succ, List.length_cons]
    constructor
    · rintro ((rfl | h) | ⟨i, hi, rfl⟩)
      · exact .inr ⟨0, by omega, by simp⟩
      · exact .inl h
      · exact .inr ⟨i + 1, by omega, rfl⟩
    · rintro (h | ⟨_ | i, hi, rfl⟩)
      · exact .inl (.inr h)
      · exact .inl (.inl (by simp))
      · exact .inr ⟨i, by omega, rfl⟩

theorem strlenLoop_eq (h : CString m p str) (hi : i ≤ str.length) (hturns : str.length < i + turns) :
    strlenLoop m p turns i = some str.length := by
  induction turns generalizing i with
  | zero => omega
  | succ turns ih =>
    rw [strlenLoop, h.bytes i (by simp; omega)]
    rcases Nat.lt_or_eq_of_le hi with hlt | rfl
    · -- a byte of the string is not zero
      rw [List.getElem_append_left hlt, if_neg fun hz : str[i] = 0 => h.nonzero (hz ▸ List.getElem_mem hlt)]
      exact ih hlt (by omega)
    · rw [List.getElem_append_right le_rfl, if_pos (by simp)]

theorem strlen_eq (h : CString m p str) (hp : p ≠ 0) (hturns : str.length < turns) :
    strlen turns m p = some (BitVec.ofNat 32 str.length) := by
  rw [strlen, if_neg hp, strlenLoop_eq h (Nat.zero_le _) (by omega)]
  rfl

/-- No byte of the destination is a byte of the source. -/
def Apart (des src : Addr) (n k : Nat) : Prop := ∀ i < n, ∀ j < k, byteAt des i ≠ byteAt src j

theorem Apart.tail {n k : Nat} (h : Apart des src (n + 1) (k + 1)) : Apart (des + 1) (src + 1) n k :=
  fun i hi j hj => by
    rw [byteAt_succ, byteAt_succ]
    exact h (i + 1) (by omega) (j + 1) (by omega)

/-- A write to the destination leaves the source alone. -/
theorem Apart.store {n k : Nat} (h : Apart des src (n + 1) k) (b : UInt8) {j : Nat} (hj : j < k) :
    (s.store des b).mem (byteAt src j) = s.mem (byteAt src j) :=
  store_ne (by simpa using (h 0 (by omega) j hj).symm) b

theorem strcpyLoop_eq (hb : Bytes s.mem src (str ++ [0])) (h0 : 0 ∉ str)
    (hap : Apart des src (str.length + 1) (str.length + 1)) (hturns : str.length < turns) :
    strcpyLoop turns s des src = some (s.put des (str ++ [0])) := by
  induction str generalizing turns s des src with
  | nil =>
    obtain ⟨turns, rfl⟩ : ∃ k, turns = k + 1 := ⟨turns - 1, by simp at hturns; omega⟩
    have hz : s.mem src = 0 := by simpa using hb 0 (by simp)
    rw [strcpyLoop]
    rw [if_neg (by simp [hz]), hz]
    rfl
  | cons c str ih =>
    obtain ⟨turns, rfl⟩ : ∃ k, turns = k + 1 := ⟨turns - 1, by simp at hturns; omega⟩
    have hc : s.mem src = c := by simpa using hb 0 (by simp)
    rw [List.mem_cons, not_or] at h0
    rw [strcpyLoop]
    rw [hc, if_pos (Ne.symm h0.1)]
    have hb' : Bytes (s.store des c).mem (src + 1) (str ++ [0]) :=
      (Bytes.tail hb).congr fun i hi => by
        rw [byteAt_succ]
        exact hap.store c (by simp at hi ⊢; omega)
    exact ih hb' h0.2 (Apart.tail hap) (by simpa using hturns)

theorem strncpyLoop_eq (hb : Bytes s.mem src str) (h0 : 0 ∉ str) (hne : str ≠ [])
    (hap : Apart des src (str.length + 1) (str.length + 1)) (hturns : str.length < turns) :
    strncpyLoop turns s des src str.length = some (s.put des (str ++ [0])) := by
  induction str generalizing turns s des src with
  | nil => exact absurd rfl hne
  | cons c str ih =>
    obtain ⟨turns, rfl⟩ : ∃ k, turns = k + 1 := ⟨turns - 1, by simp at hturns; omega⟩
    have hc : s.mem src = c := by
      have h := hb 0 (by simp)
      rwa [byteAt_zero] at h
    rw [List.mem_cons, not_or] at h0
    rw [strncpyLoop]
    rw [hc]
    by_cases hstr : str = []
    · -- the last byte
      subst hstr
      rw [if_neg (by simp)]
      rfl
    · have hpos : 0 < str.length := List.length_pos_of_ne_nil hstr
      have hn : ((c :: str).length : Int) - 1 = str.length := by simp
      rw [hn, if_pos ⟨Ne.symm h0.1, by omega⟩]
      have hb' : Bytes (s.store des c).mem (src + 1) str :=
        (Bytes.tail hb).congr fun i hi => by
          rw [byteAt_succ]
          exact hap.store c (by simp; omega)
      exact ih hb' h0.2 hstr (Apart.tail hap) (by simpa using hturns)

theorem byteAt_byteAt (p : Addr) (i j : Nat) : byteAt (byteAt p i) j = byteAt p (i + j) := by
  rw [byteAt, byteAt, byteAt, BitVec.ofNat_add, BitVec.add_assoc]

theorem Bytes.append {cs : List UInt8} (hb : Bytes m p bs) (hc : Bytes m (byteAt p bs.length) cs) :
    Bytes m p (bs ++ cs) := fun i hi => by
  by_cases hlt : i < bs.length
  · rw [List.getElem_append_left hlt]
    exact hb i hlt
  · have h := hc (i - bs.length) (by simp at hi; omega)
    rw [byteAt_byteAt, Nat.add_sub_cancel' (by omega)] at h
    rw [List.getElem_append_right (by omega)]
    exact h

theorem Bytes.left {cs : List UInt8} (h : Bytes m p (bs ++ cs)) : Bytes m p bs := fun i hi => by
  rw [h i (by simp; omega), List.getElem_append_left hi]

end Strings

/-! ## §4 One directory -/

/-- The literal `PATH`, the word and the buffer of `runcmd` in memory: three objects that do not overlap,
    and no null pointers. -/
structure Layout (m : Memory) (path cmd rs : Addr) (word : List UInt8) : Prop where
  literal : CString m path PATH
  argv0 : CString m cmd word
  pathNonnull : path ≠ 0
  cmdNonnull : cmd ≠ 0
  rsNonnull : rs ≠ 0
  pathRoom : path.toNat + PATH.length < 2 ^ 32
  cmdRoom : cmd.toNat + word.length < 2 ^ 32
  rsRoom : rs.toNat + CMDLEN ≤ 2 ^ 32
  pathApart : path.toNat + PATH.length < rs.toNat ∨ rs.toNat + CMDLEN ≤ path.toNat
  cmdApart : cmd.toNat + word.length < rs.toNat ∨ rs.toNat + CMDLEN ≤ cmd.toNat

/-- The bytes of the buffer. -/
def InBuffer (rs a : Addr) : Prop := ∃ i < CMDLEN, a = byteAt rs i

section Search

variable {m m' : Memory} {s s' t : State} {path cmd rs r a : Addr} {word d rest : List UInt8}
  {turns rounds p p' : Nat} {calls : List Memory}

theorem not_inBuffer {q : Addr} {i n : Nat} (hq : q.toNat + n < 2 ^ 32) (hrs : rs.toNat + CMDLEN ≤ 2 ^ 32)
    (h : q.toNat + n < rs.toNat ∨ rs.toNat + CMDLEN ≤ q.toNat) (hi : i ≤ n) : ¬ InBuffer rs (byteAt q i) := by
  rintro ⟨j, hj, he⟩
  have htoNat := congrArg BitVec.toNat he
  rw [toNat_byteAt (by omega), toNat_byteAt (by omega)] at htoNat
  omega

/-- Writes to the buffer leave the literal and the word alone. -/
theorem Layout.congr (hl : Layout m path cmd rs word) (hm : ∀ a, ¬ InBuffer rs a → m' a = m a) :
    Layout m' path cmd rs word :=
  { hl with
    literal := ⟨hl.literal.bytes.congr fun i hi => hm _ (not_inBuffer hl.pathRoom hl.rsRoom hl.pathApart
      (by simp at hi; omega)), hl.literal.nonzero⟩
    argv0 := ⟨hl.argv0.bytes.congr fun i hi => hm _ (not_inBuffer hl.cmdRoom hl.rsRoom hl.cmdApart
      (by simp at hi; omega)), hl.argv0.nonzero⟩ }

theorem PATH_length : PATH.length = 34 := by decide

/-- The bytes of the literal from position `p` on. -/
theorem Layout.bytes_drop (hl : Layout m path cmd rs word) (p : Nat) : Bytes m (byteAt path p) (PATH.drop p) :=
  fun i hi => by
    rw [byteAt_byteAt, List.getElem_drop]
    exact hl.literal.bytes.left (p + i) (by simp at hi; omega)

/-- A directory at position `p` of the literal ends inside of it. -/
theorem dir_end (hdrop : PATH.drop p = d ++ COLON :: rest) : p + d.length < PATH.length := by
  have h := congrArg List.length hdrop
  simp at h
  omega

theorem Layout.dir_nonzero (hl : Layout m path cmd rs word) (hdrop : PATH.drop p = d ++ COLON :: rest) :
    (0 : UInt8) ∉ d := by
  intro h
  refine hl.literal.nonzero (List.mem_of_mem_drop (i := p) ?_)
  rw [hdrop]
  exact List.mem_append_left _ h

/-- From `s` to `s'` nothing but the buffer is written. -/
structure Buffered (rs : Addr) (s s' : State) : Prop where
  same : ∀ a, ¬ InBuffer rs a → s'.mem a = s.mem a
  written : ∀ a ∈ s'.written, a ∈ s.written ∨ InBuffer rs a

theorem Buffered.refl (rs : Addr) (s : State) : Buffered rs s s := ⟨fun _ _ => rfl, fun _ ha => .inl ha⟩

theorem Buffered.put (h : Buffered rs s s') {k : Nat} {bs : List UInt8} (hk : k + bs.length ≤ CMDLEN) :
    Buffered rs s (s'.put (byteAt rs k) bs) := by
  have hin : ∀ i < bs.length, InBuffer rs (byteAt (byteAt rs k) i) :=
    fun i hi => ⟨k + i, by omega, byteAt_byteAt ..⟩
  refine ⟨fun a ha => ?_, fun a ha => ?_⟩
  · rw [put_other fun i hi he => ha (by rw [he]; exact hin i hi)]
    exact h.same a ha
  · rcases mem_written_put.1 ha with ha | ⟨i, hi, rfl⟩
    · exact h.written a ha
    · exact .inr (hin i hi)

/-- At a directory of `PATH`, the scan stops at the colon behind it. -/
theorem findColon_eq (hb : Bytes m (byteAt path p) (d ++ COLON :: rest)) (hcolon : COLON ∉ d)
    (hturns : d.length < turns) : findColon m path turns p = some (p + d.length) := by
  induction d generalizing p turns with
  | nil =>
    obtain ⟨turns, rfl⟩ : ∃ k, turns = k + 1 := ⟨turns - 1, by simp at hturns; omega⟩
    have h : m (byteAt path p) = COLON := by simpa using hb 0 (by simp)
    rw [findColon, if_neg (not_not.2 h)]
    rfl
  | cons c d ih =>
    obtain ⟨turns, rfl⟩ : ∃ k, turns = k + 1 := ⟨turns - 1, by simp at hturns; omega⟩
    have h := hb 0 (by simp)
    rw [byteAt_zero] at h
    rw [List.mem_cons, not_or] at hcolon
    have hb' : Bytes m (byteAt path (p + 1)) (d ++ COLON :: rest) := by
      have htail := Bytes.tail hb
      rwa [show byteAt path p + 1 = byteAt path (p + 1) from byteAt_byteAt path p 1] at htail
    -- no character of the directory is a colon
    rw [findColon, if_pos (h ▸ Ne.symm hcolon.1), ih hb' hcolon.2 (by simpa using hturns), List.length_cons]
    congr 1
    omega

/-- At a directory, `splicingcmd` makes its three writes. -/
theorem splicingcmd_eq (hl : Layout s.mem path cmd rs word) (hne : word ≠ []) (hslash : word.head? ≠ some SLASH)
    (hdrop : PATH.drop p = d ++ COLON :: rest) (hcolon : COLON ∉ d) (hturns : 40 + word.length ≤ turns) :
    splicingcmd turns path cmd rs s p = (do
      let s ← strncpy turns s rs (byteAt path p) d.length
      let s ← strcat turns s rs cmd
      return (rs, p + d.length + 1, s.store (byteAt rs (d.length + word.length + 1)) 0)) := by
  have hL := PATH_length
  have hplen := dir_end hdrop
  have hb : Bytes s.mem (byteAt path p) (d ++ COLON :: rest) := hdrop ▸ hl.bytes_drop p
  have hfirst : s.mem cmd ≠ SLASH := by
    obtain ⟨w, ws, rfl⟩ := List.exists_cons_of_ne_nil hne
    have h : s.mem cmd = w := by simpa using hl.argv0.bytes 0 (by simp)
    rw [h]
    exact fun he => hslash (by rw [he]; rfl)
  have hnotEnd : ¬ (cmd = 0 ∨ (BitVec.ofNat 32 PATH.length).toNat ≤ p) := by
    rw [hL]
    rintro (h | h)
    · exact hl.cmdNonnull h
    · simp at h
      omega
  have hdiff : ((p + d.length : Nat) : Int) - (p : Int) = (d.length : Int) := by omega
  -- the index of the last write is computed modulo 2 ^ 32
  have hlen (t : State) : rs + (BitVec.ofNat 32 d.length + BitVec.ofNat 32 word.length + 1) =
      byteAt rs (d.length + word.length + 1) := by
    rw [byteAt, BitVec.ofNat_add, BitVec.ofNat_add]
    rfl
  rw [splicingcmd, strlen_eq hl.literal hl.pathNonnull (by omega)]
  simp only [Option.bind_eq_bind, Option.bind_some]
  rw [if_neg hnotEnd, if_neg hfirst, findColon_eq hb hcolon (by omega),
    strlen_eq hl.argv0 hl.cmdNonnull (by omega)]
  simp only [Option.bind_some, hdiff, Nat.add_sub_cancel_left, hlen s]

/-- The first write: the directory goes to the start of the buffer. -/
theorem strncpy_dir (hl : Layout s.mem path cmd rs word) (hdrop : PATH.drop p = d ++ COLON :: rest)
    (hd : d ≠ []) (hfits : d.length + 1 ≤ CMDLEN) (hturns : d.length < turns) :
    strncpy turns s rs (byteAt path p) d.length = some (s.put rs (d ++ [0])) := by
  have hplen := dir_end hdrop
  have hroom := hl.pathRoom
  have hb : Bytes s.mem (byteAt path p) (d ++ COLON :: rest) := hdrop ▸ hl.bytes_drop p
  -- the directory is read from the literal, which the buffer does not overlap
  have hap : Apart rs (byteAt path p) (d.length + 1) (d.length + 1) := fun i hi j hj he => by
    rw [byteAt_byteAt] at he
    exact not_inBuffer hroom hl.rsRoom hl.pathApart (show p + j ≤ PATH.length by omega) ⟨i, by omega, he.symm⟩
  rw [strncpy, if_neg]
  · exact strncpyLoop_eq hb.left (hl.dir_nonzero hdrop) hd hap hturns
  · rintro (h | h)
    · exact hl.rsNonnull h
    · have h0 := congrArg BitVec.toNat h
      rw [toNat_byteAt (by omega)] at h0
      exact hl.pathNonnull (BitVec.eq_of_toNat_eq (by simp at h0 ⊢; omega))

/-- The second write: the word goes behind the directory. -/
theorem strcat_word (hl : Layout s.mem path cmd rs word) (hdir : CString s.mem rs d)
    (hfits : d.length + word.length + 1 ≤ CMDLEN) (hturns : d.length + word.length < turns) :
    strcat turns s rs cmd = some (s.put (byteAt rs d.length) (word ++ [0])) := by
  have hC : CMDLEN = 20 := rfl
  have hroom := hl.rsRoom
  have hrs : rs.toNat ≠ 0 := fun h => hl.rsNonnull (BitVec.eq_of_toNat_eq h)
  -- the word is not in the buffer either
  have hap : Apart (byteAt rs d.length) cmd (word.length + 1) (word.length + 1) := fun i hi j hj he => by
    rw [byteAt_byteAt] at he
    exact not_inBuffer hl.cmdRoom hroom hl.cmdApart (show j ≤ word.length by omega)
      ⟨d.length + i, by omega, he.symm⟩
  rw [strcat, strlen_eq hdir hl.rsNonnull (by omega)]
  show strcpy turns s (byteAt rs d.length) cmd = _
  rw [strcpy, if_neg]
  · exact strcpyLoop_eq hl.argv0.bytes hl.argv0.nonzero hap (by omega)
  · rintro (h | h)
    · have h0 := congrArg BitVec.toNat h
      rw [toNat_byteAt (by omega)] at h0
      simp at h0
      omega
    · exact hl.cmdNonnull h

/-- After the two writes the buffer has the directory, and behind it the word. -/
theorem bytes_dir_word (hdir : Bytes s.mem rs d) (hfits : d.length + word.length + 1 ≤ CMDLEN) :
    Bytes (s.put (byteAt rs d.length) (word ++ [0])).mem rs (d ++ (word ++ [0])) := by
  have hC : CMDLEN = 20 := rfl
  refine Bytes.append (hdir.congr fun i hi => ?_) (put_bytes (by simp; omega))
  -- the word does not reach back to the directory
  rw [put_other fun j hj he => ?_]
  rw [byteAt_byteAt] at he
  have := (byteAt_inj (by omega) (by simp at hj; omega)).1 he
  omega

/-- **`splicingcmd`** at a directory with which the word fits in the buffer. -/
theorem splicingcmd_spec (hl : Layout s.mem path cmd rs word) (hne : word ≠ []) (hslash : word.head? ≠ some SLASH)
    (hdrop : PATH.drop p = d ++ COLON :: rest) (hcolon : COLON ∉ d) (hd : d ≠ [])
    (hfits : d.length + word.length + 2 ≤ CMDLEN) :
    ∃ s', (∀ turns ≥ 60, splicingcmd turns path cmd rs s p = some (rs, p + d.length + 1, s')) ∧
      CString s'.mem rs (d ++ word) ∧ (∀ a, ¬ InBuffer rs a → s'.mem a = s.mem a) ∧
      ∀ a ∈ s'.written, a ∈ s.written ∨ InBuffer rs a := by
  have hC : CMDLEN = 20 := rfl
  have hd0 := hl.dir_nonzero hdrop
  -- the state after each of the three writes
  obtain ⟨s₁, hs₁⟩ : ∃ s₁, s₁ = s.put rs (d ++ [0]) := ⟨_, rfl⟩
  have hbuf₁ : Buffered rs s s₁ := by
    have h : Buffered rs s (s.put (byteAt rs 0) (d ++ [0])) :=
      (Buffered.refl rs s).put (by simp; omega)
    rwa [byteAt_zero, ← hs₁] at h
  have hl₁ : Layout s₁.mem path cmd rs word := hl.congr hbuf₁.same
  have hdir : CString s₁.mem rs d := ⟨hs₁ ▸ put_bytes (by simp; omega), hd0⟩
  obtain ⟨s₂, hs₂⟩ : ∃ s₂, s₂ = s₁.put (byteAt rs d.length) (word ++ [0]) := ⟨_, rfl⟩
  have hbuf₂ : Buffered rs s s₂ := hs₂ ▸ hbuf₁.put (by simp; omega)
  obtain ⟨s₃, hs₃⟩ : ∃ s₃, s₃ = s₂.put (byteAt rs (d.length + word.length + 1)) [0] := ⟨_, rfl⟩
  have hbuf₃ : Buffered rs s s₃ := hs₃ ▸ hbuf₂.put (by simp; omega)
  refine ⟨s₃, fun turns hturns => ?_, ⟨?_, ?_⟩, hbuf₃.same, hbuf₃.written⟩
  · rw [splicingcmd_eq hl hne hslash hdrop hcolon (by omega),
      strncpy_dir hl hdrop hd (by omega) (by omega), ← hs₁]
    simp only [Option.bind_eq_bind, Option.bind_some]
    rw [strcat_word hl₁ hdir (by omega) (by omega), ← hs₂, hs₃]
    rfl
  · -- the third write is behind the terminator
    have hbytes : Bytes s₂.mem rs (d ++ (word ++ [0])) := hs₂ ▸ bytes_dir_word hdir.bytes.left (by omega)
    rw [List.append_assoc]
    refine hbytes.congr fun i hi => ?_
    rw [hs₃]
    refine store_ne (fun he => ?_) 0
    have := (byteAt_inj (by simp at hi; omega) (by omega)).1 he
    simp at hi
    omega
  · rw [List.mem_append, not_or]
    exact ⟨hd0, hl.argv0.nonzero⟩

/-- Behind the last directory, `splicingcmd` returns a null pointer. -/
theorem splicingcmd_end (hl : Layout s.mem path cmd rs word) (hp : PATH.length ≤ p) (hturns : 40 ≤ turns) :
    splicingcmd turns path cmd rs s p = some (0, p, s) := by
  have hL := PATH_length
  rw [splicingcmd, strlen_eq hl.literal hl.pathNonnull (by omega)]
  simp only [Option.bind_eq_bind, Option.bind_some]
  refine if_pos (.inr ?_)
  rw [hL] at hp ⊢
  simpa using hp

/-! ## §5 The search -/

/-- The position behind a directory and its colon. -/
theorem drop_next (hdrop : PATH.drop p = d ++ ([COLON] ++ rest)) : PATH.drop (p + d.length + 1) = rest := by
  rw [Nat.add_assoc, ← List.drop_drop, hdrop]
  simp [List.drop_append]

/-- **The search** through the directories `ds` that are left, if the word fits with all of them. -/
theorem search_spec (hne : word ≠ []) (hslash : word.head? ≠ some SLASH) {ds : List (List UInt8)}
    (hl : Layout s.mem path cmd rs word) (hdrop : PATH.drop p = ds.flatMap (· ++ [COLON]))
    (hds : ∀ d ∈ ds, COLON ∉ d ∧ d ≠ []) (hfits : ∀ d ∈ ds, d.length + word.length + 2 ≤ CMDLEN) :
    ∃ calls t, (∀ turns ≥ 60, ∀ rounds > ds.length, search turns path cmd rs rounds s p = some (calls, t)) ∧
      List.Forall₂ (fun m d => CString m rs (d ++ word)) calls ds ∧
      ∀ a ∈ t.written, a ∈ s.written ∨ InBuffer rs a := by
  induction ds generalizing s p with
  | nil =>
    refine ⟨[], s, fun turns hturns rounds hrounds => ?_, .nil, fun a ha => .inl ha⟩
    obtain ⟨rounds, rfl⟩ : ∃ k, rounds = k + 1 := ⟨rounds - 1, by simp at hrounds; omega⟩
    rw [search, splicingcmd_end hl (List.drop_eq_nil_iff.1 hdrop) (by omega)]
    rfl
  | cons d ds ih =>
    rw [List.flatMap_cons, List.append_assoc] at hdrop
    obtain ⟨hcolon, hd⟩ := hds d List.mem_cons_self
    -- the call leaves the literal and the word as they are, for the calls that follow
    obtain ⟨s', hrun, hstr, hsame, hwritten⟩ := splicingcmd_spec hl hne hslash hdrop hcolon hd
      (hfits d List.mem_cons_self)
    obtain ⟨calls, t, hsearch, hcalls, hafter⟩ := ih (hl.congr hsame) (drop_next hdrop)
      (fun d hd => hds d (List.mem_cons_of_mem _ hd)) fun d hd => hfits d (List.mem_cons_of_mem _ hd)
    refine ⟨s'.mem :: calls, t, fun turns hturns rounds hrounds => ?_, .cons hstr hcalls,
      fun a ha => (hafter a ha).elim (hwritten a) .inr⟩
    obtain ⟨rounds, rfl⟩ : ∃ k, rounds = k + 1 := ⟨rounds - 1, by simp at hrounds; omega⟩
    rw [search, hrun turns hturns]
    simp only [Option.bind_eq_bind, Option.bind_some]
    rw [if_neg hl.rsNonnull, hsearch turns hturns rounds (by simpa using hrounds)]
    rfl

/-- **A leading slash**: the word is returned again and again. -/
theorem search_slash (hl : Layout s.mem path cmd rs word) (hslash : word.head? = some SLASH) (hturns : 40 ≤ turns)
    (rounds : Nat) : search turns path cmd rs rounds s 0 = none := by
  have hL := PATH_length
  have hfirst : s.mem cmd = SLASH := by
    obtain ⟨ws, rfl⟩ : ∃ ws, word = SLASH :: ws := by
      cases word with
      | nil => cases hslash
      | cons w ws => exact ⟨ws, by rw [Option.some.inj hslash]⟩
    simpa using hl.argv0.bytes 0 (by simp)
  have hrun : splicingcmd turns path cmd rs s 0 = some (cmd, 0, s) := by
    rw [splicingcmd, strlen_eq hl.literal hl.pathNonnull (by omega)]
    simp only [Option.bind_eq_bind, Option.bind_some]
    rw [if_neg, if_pos hfirst]
    · rfl
    · rintro (h | h)
      · exact hl.cmdNonnull h
      · rw [hL] at h
        simp at h
  -- the position is still 0 after the call, so that the next one does the same
  induction rounds with
  | zero => rfl
  | succ rounds ih =>
    rw [search, hrun]
    simp only [Option.bind_eq_bind, Option.bind_some]
    rw [if_neg hl.cmdNonnull, ih]
    rfl

/-! ## §6 Words that are too long -/

theorem strcpyLoop_written {turns : Nat} {s t : State} {des src : Addr} (h : strcpyLoop turns s des src = some t)
    (ha : a ∈ s.written) : a ∈ t.written := by
  induction turns generalizing s des src with
  | zero => cases h
  | succ turns ih =>
    rw [strcpyLoop] at h
    split at h
    · exact ih h (List.mem_cons_of_mem _ ha)
    · rw [← Option.some.inj h]
      exact List.mem_cons_of_mem _ ha

theorem strcpy_written {des src : Addr} (h : strcpy turns s des src = some t) (ha : a ∈ s.written) :
    a ∈ t.written := by
  rw [strcpy] at h
  split at h
  · exact Option.some.inj h ▸ ha
  · exact strcpyLoop_written h ha

theorem strncpyLoop_written {turns : Nat} {s t : State} {des src : Addr} {n : Int}
    (h : strncpyLoop turns s des src n = some t) (ha : a ∈ s.written) : a ∈ t.written := by
  induction turns generalizing s des src n with
  | zero => cases h
  | succ turns ih =>
    rw [strncpyLoop] at h
    split at h
    · exact ih h (List.mem_cons_of_mem _ ha)
    · rw [← Option.some.inj h]
      exact List.mem_cons_of_mem _ (List.mem_cons_of_mem _ ha)

theorem strncpy_written {des src : Addr} {n : Int} (h : strncpy turns s des src n = some t) (ha : a ∈ s.written) :
    a ∈ t.written := by
  rw [strncpy] at h
  split at h
  · exact Option.some.inj h ▸ ha
  · exact strncpyLoop_written h ha

theorem strcat_written {des src : Addr} (h : strcat turns s des src = some t) (ha : a ∈ s.written) :
    a ∈ t.written := by
  obtain ⟨len, -, hcpy⟩ := Option.bind_eq_some_iff.1 h
  exact strcpy_written hcpy ha

/-- **No write is forgotten** by a call. -/
theorem splicingcmd_written (h : splicingcmd turns path cmd rs s p = some (r, p', s')) (ha : a ∈ s.written) :
    a ∈ s'.written := by
  obtain ⟨n, -, h⟩ := Option.bind_eq_some_iff.1 h
  split at h
  · cases h
    exact ha
  split at h
  · cases h
    exact ha
  -- past the two early returns, only writes are added
  obtain ⟨e, -, h⟩ := Option.bind_eq_some_iff.1 h
  obtain ⟨l, -, h⟩ := Option.bind_eq_some_iff.1 h
  obtain ⟨s₁, h₁, h⟩ := Option.bind_eq_some_iff.1 h
  obtain ⟨s₂, h₂, h⟩ := Option.bind_eq_some_iff.1 h
  cases h
  exact List.mem_cons_of_mem _ (strcat_written h₂ (strncpy_written h₁ ha))

/-- **No write is forgotten** by the search. -/
theorem search_written (h : search turns path cmd rs rounds s p = some (calls, t)) (ha : a ∈ s.written) :
    a ∈ t.written := by
  induction rounds generalizing s p calls with
  | zero => cases h
  | succ rounds ih =>
    obtain ⟨⟨r, p', s'⟩, hrun, h⟩ := Option.bind_eq_some_iff.1 h
    have ha' := splicingcmd_written hrun ha
    dsimp only at h
    split at h
    · cases h
      exact ha'
    · obtain ⟨⟨calls', t'⟩, hsearch, h⟩ := Option.bind_eq_some_iff.1 h
      cases h
      exact ih hsearch ha'

/-- **A directory with which the word does not fit**: the last write of the call is behind the buffer. -/
theorem splicingcmd_overflow (hl : Layout s.mem path cmd rs word) (hne : word ≠ [])
    (hslash : word.head? ≠ some SLASH) (hdrop : PATH.drop p = d ++ COLON :: rest) (hcolon : COLON ∉ d)
    (hd : d.length ≤ 15) (hlong : CMDLEN < d.length + word.length + 2) (hturns : 40 + word.length ≤ turns)
    (hrun : splicingcmd turns path cmd rs s p = some (r, p', s')) : r = rs ∧ ∃ a ∈ s'.written, ¬ InBuffer rs a := by
  have hC : CMDLEN = 20 := rfl
  -- the word and the buffer share the address space, so that the index does not wrap into the buffer
  have hbound : d.length + word.length + 1 < 2 ^ 32 := by
    have h₁ := hl.cmdRoom
    have h₂ := hl.rsRoom
    have h₃ := hl.cmdApart
    omega
  rw [splicingcmd_eq hl hne hslash hdrop hcolon hturns] at hrun
  obtain ⟨s₁, -, hrun⟩ := Option.bind_eq_some_iff.1 hrun
  obtain ⟨s₂, -, hrun⟩ := Option.bind_eq_some_iff.1 hrun
  cases hrun
  refine ⟨rfl, _, List.mem_cons_self, ?_⟩
  rintro ⟨i, hi, he⟩
  have := (byteAt_inj hbound (by omega)).1 he
  omega

/-- **A search** that comes to such a directory writes outside of the buffer. -/
theorem search_overflow (hne : word ≠ []) (hslash : word.head? ≠ some SLASH) (hturns : 60 + word.length ≤ turns)
    {ds : List (List UInt8)} (hl : Layout s.mem path cmd rs word)
    (hdrop : PATH.drop p = ds.flatMap (· ++ [COLON])) (hds : ∀ d ∈ ds, COLON ∉ d ∧ d ≠ [] ∧ d.length ≤ 15)
    (hlong : ∃ d ∈ ds, CMDLEN < d.length + word.length + 2)
    (h : search turns path cmd rs rounds s p = some (calls, t)) : ∃ a ∈ t.written, ¬ InBuffer rs a := by
  induction ds generalizing s p rounds calls with
  | nil => simp at hlong
  | cons d ds ih =>
    rw [List.flatMap_cons, List.append_assoc] at hdrop
    obtain ⟨hcolon, hd, hd15⟩ := hds d List.mem_cons_self
    cases rounds with
    | zero => cases h
    | succ rounds =>
      obtain ⟨⟨r, p', s'⟩, hrun, h⟩ := Option.bind_eq_some_iff.1 h
      by_cases hfits : d.length + word.length + 2 ≤ CMDLEN
      · -- the word fits here, and does not in a later directory
        obtain ⟨s'', hrun', -, hsame, -⟩ := splicingcmd_spec hl hne hslash hdrop hcolon hd hfits
        cases hrun.symm.trans (hrun' turns (by omega))
        have hlong' : ∃ d ∈ ds, CMDLEN < d.length + word.length + 2 := by
          obtain ⟨d', hd', hlong⟩ := hlong
          rcases List.mem_cons.1 hd' with rfl | hd'
          · omega
          · exact ⟨d', hd', hlong⟩
        dsimp only at h
        rw [if_neg hl.rsNonnull] at h
        obtain ⟨⟨calls', t'⟩, hsearch, h⟩ := Option.bind_eq_some_iff.1 h
        cases h
        exact ih (hl.congr hsame) (drop_next hdrop) (fun d hd => hds d (List.mem_cons_of_mem _ hd)) hlong' hsearch
      · obtain ⟨rfl, a, ha, hout⟩ := splicingcmd_overflow hl hne hslash hdrop hcolon hd15 (by omega) (by omega) hrun
        dsimp only at h
        rw [if_neg hl.rsNonnull] at h
        obtain ⟨⟨calls', t'⟩, hsearch, h⟩ := Option.bind_eq_some_iff.1 h
        cases h
        exact ⟨a, search_written hsearch ha, hout⟩

end Search

/-! ## §7 The command search -/

/-- The directories of `PATH`. -/
def dirs : List (List UInt8) := [bytes "/", bytes "/bin/", bytes "/usr/bin/", bytes "/usr/local/bin/"]

theorem PATH_eq : PATH = dirs.flatMap (· ++ [COLON]) := by decide

/-- What is to be tried for a word: the word itself if it has a leading slash, and else the word in each
    directory. -/
def paths (word : List UInt8) : List (List UInt8) :=
  if word.head? = some SLASH then [word] else dirs.map (· ++ word)

/-- The loop of `runcmd` ends; the strings passed to `exec` are `paths word`, in order, and all writes are
    to the buffer. -/
def SearchOk (s : State) (path cmd rs : Addr) (word : List UInt8) : Prop :=
  ∃ calls t, (∃ k, ∀ turns ≥ k, search turns path cmd rs turns s 0 = some (calls, t)) ∧
    List.Forall₂ (fun m str => CString m rs str) calls (paths word) ∧
    ∀ a ∈ t.written, a ∈ s.written ∨ InBuffer rs a

/-- Memory with the literal at 1000 and a word at 2000; the buffer is at 3000. -/
def sample (word : List UInt8) : State :=
  ⟨((State.put ⟨fun _ => 0, []⟩ 1000 (PATH ++ [0])).put 2000 (word ++ [0])).mem, []⟩

theorem sample_layout {word : List UInt8} (h0 : 0 ∉ word) (hlen : word.length ≤ 100) :
    Layout (sample word).mem 1000 2000 3000 word := by
  have hL := PATH_length
  refine ⟨⟨?_, by decide⟩, ⟨put_bytes (by simp; omega), h0⟩, by decide, by decide, by decide, by rw [hL]; decide,
    ?_, by decide, .inl (by rw [hL]; decide), .inl ?_⟩
  · -- the word is written behind the literal
    have hput : Bytes (State.put ⟨fun _ => 0, []⟩ 1000 (PATH ++ [0])).mem 1000 (PATH ++ [0]) := put_bytes (by decide)
    refine hput.congr fun i hi => ?_
    refine put_other fun j hj he => ?_
    have htoNat := congrArg BitVec.toNat he
    simp [hL] at hi hj
    rw [toNat_byteAt (show (1000 : Addr).toNat + i < 2 ^ 32 by simp; omega),
      toNat_byteAt (show (2000 : Addr).toNat + j < 2 ^ 32 by simp; omega)] at htoNat
    simp at htoNat
    omega
  · simp
    omega
  · simp
    omega

/-- **When the command search ends in order and stays in its buffer**: the word has no leading slash and at
    most three characters. -/
theorem runcmd_search_iff (s : State) (path cmd rs : Addr) (word : List UInt8)
    (hl : Layout s.mem path cmd rs word) (hne : word ≠ []) (hs : s.written = []) :
    SearchOk s path cmd rs word ↔ word.head? ≠ some SLASH ∧ word.length ≤ 3 := by
  have hds : ∀ d ∈ dirs, COLON ∉ d ∧ d ≠ [] ∧ d.length ≤ 15 := by decide
  have hdrop : PATH.drop 0 = dirs.flatMap (· ++ [COLON]) := PATH_eq
  constructor
  · rintro ⟨calls, t, ⟨k, hk⟩, -, hwritten⟩
    have hrun := hk (max k (60 + word.length)) (le_max_left ..)
    -- enough turns for the loops of every call
    have hturns : 60 + word.length ≤ max k (60 + word.length) := le_max_right ..
    have hslash : word.head? ≠ some SLASH := fun h => by
      rw [search_slash hl h (by omega)] at hrun
      cases hrun
    refine ⟨hslash, ?_⟩
    by_contra hlen
    -- the longest directory has fifteen characters
    have hlong : ∃ d ∈ dirs, CMDLEN < d.length + word.length + 2 :=
      ⟨bytes "/usr/local/bin/", by decide, by
        rw [show (bytes "/usr/local/bin/").length = 15 by decide, CMDLEN]
        omega⟩
    obtain ⟨a, ha, hout⟩ := search_overflow hne hslash hturns hl hdrop hds hlong hrun
    rcases hwritten a ha with h | h
    · rw [hs] at h
      cases h
    · exact hout h
  · rintro ⟨hslash, hlen⟩
    have hfits : ∀ d ∈ dirs, d.length + word.length + 2 ≤ CMDLEN := fun d hd => by
      have := (hds d hd).2.2
      rw [CMDLEN]
      omega
    obtain ⟨calls, t, hrun, hcalls, hwritten⟩ := search_spec hne hslash hl hdrop
      (fun d hd => ⟨(hds d hd).1, (hds d hd).2.1⟩) hfits
    have hlt : dirs.length < 60 := by decide
    refine ⟨calls, t, ⟨60, fun turns hturns => hrun turns hturns turns (by omega)⟩, ?_, hwritten⟩
    rw [paths, if_neg hslash, List.forall₂_map_right_iff]
    exact hcalls

theorem runcmd_search_iff_sample : SearchOk (sample (bytes "ls")) 1000 2000 3000 (bytes "ls") ↔
    (bytes "ls").head? ≠ some SLASH ∧ (bytes "ls").length ≤ 3 :=
  runcmd_search_iff _ 1000 2000 3000 _ (sample_layout (by decide) (by decide)) (by decide) rfl

/-- The word `/ls` is returned forever. -/
theorem runcmd_search_runs_on : ¬ ∀ (s : State) (path cmd rs : Addr) (word : List UInt8),
    Layout s.mem path cmd rs word → word ≠ [] → s.written = [] → SearchOk s path cmd rs word := by
  intro hall
  have hl : Layout (sample (bytes "/ls")).mem 1000 2000 3000 (bytes "/ls") :=
    sample_layout (by decide) (by decide)
  obtain ⟨calls, t, ⟨k, hk⟩, -⟩ := hall _ 1000 2000 3000 _ hl (by decide) rfl
  have hrun := hk (max k 40) (le_max_left ..)
  rw [search_slash hl rfl (le_max_right ..)] at hrun
  cases hrun

end WeiOS.PathSearch
