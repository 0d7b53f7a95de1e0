import Mathlib

/-!
# Copying Bytes

Models `memmove` of `lib/string.c` and `user/ustring.c`, which are the same function. Memory is a byte at
every 32-bit address; pointers are compared and moved as unsigned 32-bit numbers.

A byte loop that goes up is right if no byte of the source is written before it is read, and so is one
that goes down. These two conditions are about single addresses, and `memmove` picks the direction for
which its condition holds.

## Main results
- `copyUp_spec`, `copyDown_spec`: what the two loops leave in memory.
- `memmove_copies`: the copy is right for every overlap.
-/

namespace WeiOS.Ustring

abbrev Addr := BitVec 32

abbrev Memory := Addr → UInt8

/-- `*d = b`. -/
def store (m : Memory) (d : Addr) (b : UInt8) : Memory := Function.update m d b

/-- `while (n-- > 0) *d++ = *s++`. -/
def copyUp : Nat → Memory → Addr → Addr → Memory
  | 0, m, _, _ => m
  | n + 1, m, d, s => copyUp n (store m d (m s)) (d + 1) (s + 1)

/-- `while (n-- > 0) *--d = *--s`. -/
def copyDown : Nat → Memory → Addr → Addr → Memory
  | 0, m, _, _ => m
  | n + 1, m, d, s => copyDown n (store m (d - 1) (m (s - 1))) (d - 1) (s - 1)

/-- `memmove`: the memory after the call and the value returned. -/
def memmove (m : Memory) (dst src n : BitVec 32) : Memory × Addr :=
  if src < dst ∧ dst < src + n then (copyDown n.toNat m (dst + n) (src + n), dst)
  else (copyUp n.toNat m dst src, dst)

/-! ## §1 The loops -/

/-- The address of byte `i` behind `p`. -/
def byteAt (p : Addr) (i : Nat) : Addr := p + BitVec.ofNat 32 i

variable {m m' : Memory} {d s p a : Addr} {n i j : Nat}

@[simp] theorem byteAt_zero (p : Addr) : byteAt p 0 = p := by simp [byteAt]

theorem byteAt_succ (p : Addr) (i : Nat) : byteAt (p + 1) i = byteAt p (i + 1) := by
  rw [byteAt, byteAt, BitVec.ofNat_add, BitVec.add_assoc, BitVec.add_comm 1]
  rfl

theorem byteAt_succ_sub (p : Addr) (i : Nat) : byteAt p (i + 1) - 1 = byteAt p i := by
  rw [byteAt, byteAt, BitVec.ofNat_add, ← BitVec.add_assoc]
  exact BitVec.add_sub_cancel _ 1

theorem byteAt_inj (hi : i < 2 ^ 32) (hj : j < 2 ^ 32) : byteAt p i = byteAt p j ↔ i = j := by
  refine ⟨fun he => ?_, fun he => by rw [he]⟩
  have hofNat : BitVec.ofNat 32 i = BitVec.ofNat 32 j := (BitVec.add_right_inj p).1 he
  have htoNat := congrArg BitVec.toNat hofNat
  rwa [BitVec.toNat_ofNat, BitVec.toNat_ofNat, Nat.mod_eq_of_lt hi, Nat.mod_eq_of_lt hj] at htoNat

theorem store_ne (h : a ≠ d) (b : UInt8) : store m d b a = m a := Function.update_of_ne h ..

@[simp] theorem store_self (m : Memory) (d : Addr) (b : UInt8) : store m d b d = b :=
  Function.update_self ..

/-- `m'` has the `n` bytes of `m` at `s` also at `d`, and is `m` elsewhere. -/
structure Copied (m m' : Memory) (d s : Addr) (n : Nat) : Prop where
  bytes : ∀ i < n, m' (byteAt d i) = m (byteAt s i)
  frame : ∀ a, (∀ i < n, a ≠ byteAt d i) → m' a = m a

/-- **Upwards**: right if byte `i` of the destination is no later byte of the source. -/
theorem copyUp_spec (hn : n ≤ 2 ^ 32) (hahead : ∀ i j, i < j → j < n → byteAt d i ≠ byteAt s j) :
    Copied m (copyUp n m d s) d s n := by
  induction n generalizing m d s with
  | zero => exact ⟨fun i hi => absurd hi (Nat.not_lt_zero i), fun a _ => rfl⟩
  | succ n ih =>
    -- the first byte is written before the rest is read, and is no part of it
    have hrest := ih (m := store m d (m s)) (d := d + 1) (s := s + 1) (by omega) fun i j hij hj => by
      rw [byteAt_succ, byteAt_succ]
      exact hahead (i + 1) (j + 1) (by omega) (by omega)
    rw [copyUp]
    refine ⟨fun i hi => ?_, fun a ha => ?_⟩
    · cases i with
      | zero =>
        -- the first byte is not written again
        rw [hrest.frame (byteAt d 0) fun j hj he => ?_]
        · simp
        · rw [byteAt_succ] at he
          exact absurd ((byteAt_inj (by omega) (by omega)).1 he) (by omega)
      | succ i =>
        have hbyte := hrest.bytes i (by omega)
        rw [byteAt_succ, byteAt_succ] at hbyte
        rw [hbyte, store_ne]
        simpa using (hahead 0 (i + 1) (by omega) hi).symm
    · rw [hrest.frame a fun i hi => ?_, store_ne]
      · simpa using ha 0 (by omega)
      · rw [byteAt_succ]
        exact ha (i + 1) (by omega)

/-- **Downwards**: right if byte `j` of the destination is no earlier byte of the source. -/
theorem copyDown_spec (hn : n ≤ 2 ^ 32) (hbehind : ∀ i j, i < j → j < n → byteAt d j ≠ byteAt s i) :
    Copied m (copyDown n m (byteAt d n) (byteAt s n)) d s n := by
  induction n generalizing m with
  | zero => exact ⟨fun i hi => absurd hi (Nat.not_lt_zero i), fun a _ => rfl⟩
  | succ n ih =>
    rw [copyDown, byteAt_succ_sub, byteAt_succ_sub]
    have hrest := ih (m := store m (byteAt d n) (m (byteAt s n))) (by omega) fun i j hij hj =>
      hbehind i j hij (by omega)
    refine ⟨fun i hi => ?_, fun a ha => ?_⟩
    · rcases Nat.lt_succ_iff_lt_or_eq.1 hi with hlt | rfl
      · rw [hrest.bytes i hlt, store_ne]
        exact (hbehind i n hlt (by omega)).symm
      · -- the last byte is not written again
        rw [hrest.frame (byteAt d i) fun j hj he => ?_, store_self]
        exact absurd ((byteAt_inj (by omega) (by omega)).1 he) (by omega)
    · rw [hrest.frame a fun i hi => ha i (by omega), store_ne]
      exact ha n (by omega)

/-! ## §2 The direction -/

theorem toNat_byteAt (h : p.toNat + i < 2 ^ 32) : (byteAt p i).toNat = p.toNat + i := by
  rw [byteAt, BitVec.toNat_add, BitVec.toNat_ofNat, Nat.mod_eq_of_lt (show i < 2 ^ 32 by omega),
    Nat.mod_eq_of_lt h]

theorem memmove_copied (m : Memory) (dst src n : BitVec 32) (hsrc : src.toNat + n.toNat ≤ 2 ^ 32)
    (hdst : dst.toNat + n.toNat ≤ 2 ^ 32) : Copied m (memmove m dst src n).1 dst src n.toNat := by
  have hn : n.toNat ≤ 2 ^ 32 := by omega
  -- two bytes of the ranges are at one address only if their numbers say so
  have haddr (i j : Nat) (hi : i < n.toNat) (hj : j < n.toNat) (he : byteAt dst i = byteAt src j) :
      dst.toNat + i = src.toNat + j := by
    have htoNat := congrArg BitVec.toNat he
    rwa [toNat_byteAt (by omega), toNat_byteAt (by omega)] at htoNat
  rw [memmove]
  split
  · -- the source starts below the destination: its bytes are read from the end
    next hc =>
      have hlt : src.toNat < dst.toNat := hc.1
      have hend (p : Addr) : p + n = byteAt p n.toNat := by rw [byteAt, BitVec.ofNat_toNat, BitVec.setWidth_eq]
      rw [hend, hend]
      exact copyDown_spec hn fun i j hij hj he => absurd (haddr j i hj (by omega) he) (by omega)
  · next hc =>
      refine copyUp_spec hn fun i j hij hj he => hc ?_
      have heq := haddr i j (by omega) hj he
      -- an overlap with the source below the destination is the other case, for `src + n` does not wrap
      have hlt : src.toNat < dst.toNat := by omega
      refine ⟨hlt, ?_⟩
      rw [BitVec.lt_def, BitVec.toNat_add, Nat.mod_eq_of_lt (by omega)]
      omega

/-- **`memmove`** copies the bytes whatever the overlap, and changes nothing else. -/
theorem memmove_copies (m : Memory) (dst src n : BitVec 32) (hsrc : src.toNat + n.toNat ≤ 2 ^ 32)
    (hdst : dst.toNat + n.toNat ≤ 2 ^ 32) :
    (∀ i < n.toNat, (memmove m dst src n).1 (byteAt dst i) = m (byteAt src i)) ∧
      (∀ a : Addr, ¬ (dst.toNat ≤ a.toNat ∧ a.toNat < dst.toNat + n.toNat) →
        (memmove m dst src n).1 a = m a) ∧ (memmove m dst src n).2 = dst := by
  have hcopied := memmove_copied m dst src n hsrc hdst
  refine ⟨hcopied.bytes, fun a ha => hcopied.frame a fun i hi he => ha ?_, ?_⟩
  · rw [he, toNat_byteAt (by omega)]
    omega
  · rw [memmove]
    split <;> rfl

/-- Three bytes move up by one, over their own end. -/
theorem memmove_copies_overlap :
    let m : Memory := fun a => UInt8.ofNat a.toNat
    (∀ i < 3, (memmove m 11 10 3).1 (byteAt 11 i) = m (byteAt 10 i)) ∧
      (∀ a : Addr, ¬ (11 ≤ a.toNat ∧ a.toNat < 11 + 3) → (memmove m 11 10 3).1 a = m a) ∧
      (memmove m 11 10 3).2 = 11 :=
  memmove_copies _ 11 10 3 (by decide) (by decide)

end WeiOS.Ustring
