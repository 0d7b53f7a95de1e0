import Mathlib

/-!
# Ring Buffers with Free-Running Counters

A buffer of `n` cells is filled at the counter `c` and emptied at the counter `r`. Both counters are
machine words of `w` bits that are only ever incremented, and wrap; the cell of a counter is its value
modulo `n`. When `n` divides `2 ^ w` the wrap of a counter is not seen in the cells.

## Main results
- `stored_push`: filling a cell appends to the stored elements.
- `stored_pop`: the cell at the emptying counter holds the first of them.
- `stored_last`: the cell below the filling counter holds the last of them.
-/

namespace WeiOS.Lib.RingBuffer

variable {α : Type*} {w n : Nat}

/-- The cell of a counter. -/
def cell (n : Nat) (c : BitVec w) : Nat := c.toNat % n

/-- The stored elements, from the emptying counter `r` to the filling counter `c`. -/
def stored (n : Nat) (data : Nat → α) (r c : BitVec w) : List α :=
  (List.range (c - r).toNat).map fun k => data (cell n (r + BitVec.ofNat w k))

@[simp] theorem stored_length (data : Nat → α) (r c : BitVec w) :
    (stored n data r c).length = (c - r).toNat := by
  simp [stored]

@[simp] theorem stored_self (data : Nat → α) (r : BitVec w) : stored n data r r = [] := by
  simp [stored]

/-! ## §1 Counters -/

/-- The wrap of a counter is not seen modulo `n`. -/
theorem cell_add (hn : n ∣ 2 ^ w) (r : BitVec w) (k : Nat) :
    cell n (r + BitVec.ofNat w k) = (r.toNat + k) % n := by
  unfold cell
  rw [BitVec.toNat_add, BitVec.toNat_ofNat, Nat.add_mod_mod, Nat.mod_mod_of_dvd _ hn]

/-- Two offsets below `n` have different cells. -/
theorem cell_add_inj (hn : n ∣ 2 ^ w) (r : BitVec w) {j k : Nat} (hj : j < n) (hk : k < n)
    (h : cell n (r + BitVec.ofNat w j) = cell n (r + BitVec.ofNat w k)) : j = k := by
  rw [cell_add hn, cell_add hn] at h
  have hmod : j ≡ k [MOD n] := Nat.ModEq.add_left_cancel' r.toNat h
  exact Nat.ModEq.eq_of_lt_of_lt hmod hj hk

/-- The filling counter lies `c - r` behind the emptying counter. -/
theorem add_sub_toNat (r c : BitVec w) : r + BitVec.ofNat w (c - r).toNat = c := by
  rw [BitVec.ofNat_toNat, BitVec.setWidth_eq, BitVec.add_comm, BitVec.sub_add_cancel]

theorem sub_toNat_pos {r c : BitVec w} (h : c ≠ r) : 0 < (c - r).toNat := by
  apply Nat.pos_of_ne_zero
  intro hzero
  apply h
  rw [← add_sub_toNat r c, hzero]
  simp

theorem add_one_toNat (d : BitVec w) : (d + 1).toNat = (d.toNat + 1) % 2 ^ w := by
  have hone : (1 : BitVec w).toNat = 1 % 2 ^ w := BitVec.toNat_ofNat 1 w
  rw [BitVec.toNat_add, hone, Nat.add_mod_mod]

theorem sub_succ_toNat {r c : BitVec w} (h : (c - r).toNat + 1 < 2 ^ w) :
    (c + 1 - r).toNat = (c - r).toNat + 1 := by
  have hcomm : c + 1 - r = c - r + 1 := by ring
  rw [hcomm, add_one_toNat]
  exact Nat.mod_eq_of_lt h

theorem sub_succ_right_toNat {r c : BitVec w} (h : c ≠ r) :
    (c - (r + 1)).toNat + 1 = (c - r).toNat := by
  have hback : c - (r + 1) + 1 = c - r := by ring
  have hpos := sub_toNat_pos h
  rw [← hback, add_one_toNat] at hpos ⊢
  obtain hlt | hfull := Nat.lt_or_eq_of_le (c - (r + 1)).isLt
  · exact (Nat.mod_eq_of_lt hlt).symm
  · -- a difference of `2 ^ w - 1` would make the two counters equal
    have hfull : (c - (r + 1)).toNat + 1 = 2 ^ w := hfull
    rw [hfull, Nat.mod_self] at hpos
    exact absurd hpos (Nat.lt_irrefl 0)

/-! ## §2 Filling and emptying -/

/-- **Filling a cell** appends to the stored elements. -/
theorem stored_push (hn : n ∣ 2 ^ w) (hw : n < 2 ^ w) (data : Nat → α) {r c : BitVec w}
    (hroom : (c - r).toNat < n) (x : α) :
    stored n (Function.update data (cell n c) x) r (c + 1) = stored n data r c ++ [x] := by
  have hcount : (c + 1 - r).toNat = (c - r).toNat + 1 := sub_succ_toNat (by omega)
  unfold stored
  rw [hcount, List.range_succ, List.map_append, List.map_singleton]
  congr 1
  · -- the cells in use differ from the one that is filled
    apply List.map_congr_left
    intro k hk
    have hk : k < (c - r).toNat := List.mem_range.1 hk
    apply Function.update_of_ne
    intro hcell
    rw [← add_sub_toNat r c] at hcell
    have := cell_add_inj hn r (hk.trans hroom) hroom hcell
    omega
  · rw [add_sub_toNat, Function.update_self]

/-- **Emptying**: the cell at `r` holds the first stored element. -/
theorem stored_pop (data : Nat → α) {r c : BitVec w} (h : c ≠ r) :
    stored n data r c = data (cell n r) :: stored n data (r + 1) c := by
  unfold stored
  rw [← sub_succ_right_toNat h, List.range_succ_eq_map, List.map_cons, List.map_map]
  congr 1
  · simp
  · apply List.map_congr_left
    intro k _
    have hnext : r + BitVec.ofNat w (k + 1) = r + 1 + BitVec.ofNat w k := by
      rw [BitVec.ofNat_add, BitVec.add_comm (BitVec.ofNat w k), ← BitVec.add_assoc]
      rfl
    simp only [Function.comp_apply, Nat.succ_eq_add_one, hnext]

/-- **Taking back**: the cell below `c` holds the last stored element. -/
theorem stored_last (data : Nat → α) {r c : BitVec w} (h : c ≠ r) :
    stored n data r c = stored n data r (c - 1) ++ [data (cell n (c - 1))] := by
  have hcount : (c - r).toNat = (c - 1 - r).toNat + 1 := by
    have hback : c - 1 - r + 1 = c - r := by ring
    have hpos := sub_toNat_pos h
    rw [← hback, add_one_toNat] at hpos ⊢
    obtain hlt | hfull := Nat.lt_or_eq_of_le (c - 1 - r).isLt
    · exact Nat.mod_eq_of_lt hlt
    · have hfull : (c - 1 - r).toNat + 1 = 2 ^ w := hfull
      rw [hfull, Nat.mod_self] at hpos
      exact absurd hpos (Nat.lt_irrefl 0)
  unfold stored
  rw [hcount, List.range_succ, List.map_append, List.map_singleton, add_sub_toNat]

/-- The counters are `k` apart when their difference is the word `k`. -/
theorem eq_add_iff {r c : BitVec w} {k : Nat} (hk : k < 2 ^ w) :
    c = r + BitVec.ofNat w k ↔ (c - r).toNat = k := by
  constructor
  · rintro rfl
    rw [BitVec.add_comm, BitVec.add_sub_cancel, BitVec.toNat_ofNat, Nat.mod_eq_of_lt hk]
  · intro h
    rw [← h, add_sub_toNat]

end WeiOS.Lib.RingBuffer
