import Mathlib

/-!
# Counting Holders

Reference counting in the abstract: a finite set of slots, each of which may hold a value. The count
of a value is the number of slots that hold it. `holders_update` says how all counts change when one
slot is written.
-/

namespace WeiOS.Lib

variable {α β : Type*} [DecidableEq β] {S : Finset α} {get get' : α → Option β}
  {a : α} {b : β}

/-- The number of slots in `S` that hold `b`. -/
def holders (S : Finset α) (get : α → Option β) (b : β) : Nat :=
  (S.filter fun a => get a = some b).card

theorem holders_congr (h : ∀ a ∈ S, get' a = get a) (b : β) : holders S get' b = holders S get b := by
  unfold holders
  congr 1
  exact Finset.filter_congr fun a ha => by rw [h a ha]

theorem holders_le (S : Finset α) (get : α → Option β) (b : β) : holders S get b ≤ S.card :=
  Finset.card_filter_le _ _

theorem holders_pos_iff : 0 < holders S get b ↔ ∃ a ∈ S, get a = some b := by
  rw [holders, Finset.card_pos]
  simp [Finset.Nonempty]

theorem holders_eq_zero_iff : holders S get b = 0 ↔ ∀ a ∈ S, get a ≠ some b := by
  rw [holders, Finset.card_eq_zero, Finset.filter_eq_empty_iff]

/-- At most one slot holds a value when the slots that hold it are equal. -/
theorem holders_le_one (h : ∀ a ∈ S, ∀ a' ∈ S, get a = some b → get a' = some b → a = a') :
    holders S get b ≤ 1 := by
  refine Finset.card_le_one.2 fun a ha a' ha' => ?_
  obtain ⟨hS, hb⟩ := Finset.mem_filter.1 ha
  obtain ⟨hS', hb'⟩ := Finset.mem_filter.1 ha'
  exact h a hS a' hS' hb hb'

/-- **One slot is written**: the value that was in it has one holder less, the new one has one more. -/
theorem holders_update [DecidableEq α] {f g : α → Option β} (ha : a ∈ S)
    (hother : ∀ a' ∈ S, a' ≠ a → g a' = f a') (b : β) :
    holders S g b + (if f a = some b then 1 else 0) =
      holders S f b + (if g a = some b then 1 else 0) := by
  -- all slots but `a` count the same on both sides
  have hrest : holders (S.erase a) g b = holders (S.erase a) f b :=
    holders_congr (fun a' ha' => hother a' (Finset.mem_of_mem_erase ha') (Finset.ne_of_mem_erase ha')) b
  have hsplit : ∀ k : α → Option β,
      holders S k b = holders (S.erase a) k b + (if k a = some b then 1 else 0) := by
    intro k
    unfold holders
    rw [← Finset.insert_erase ha, Finset.filter_insert, Finset.erase_insert (Finset.notMem_erase a S)]
    split
    · rw [Finset.card_insert_of_notMem]
      simp
    · simp
  rw [hsplit g, hsplit f, hrest]
  omega

/-! ## Adding a holder -/

/-- The counts with one more holder of `b`. -/
def addRef (n : β → Nat) (b : β) : β → Nat := Function.update n b (n b + 1)

@[simp] theorem addRef_self (n : β → Nat) (b : β) : addRef n b b = n b + 1 := by simp [addRef]

theorem addRef_apply (n : β → Nat) (b c : β) :
    addRef n b c = n c + if b = c then 1 else 0 := by
  by_cases h : b = c
  · subst h
    simp
  · simp [addRef, h, Ne.symm h]

theorem addRef_comm (n : β → Nat) (b c : β) : addRef (addRef n b) c = addRef (addRef n c) b := by
  funext d
  simp only [addRef_apply]
  omega

theorem addRef_add (n m : β → Nat) (b : β) : addRef (n + m) b = n + addRef m b := by
  funext d
  simp only [addRef_apply, Pi.add_apply]
  omega

/-- A positive count has one reference that can be given up. -/
theorem exists_addRef {n : β → Nat} {b : β} (h : 0 < n b) : ∃ m, n = addRef m b := by
  refine ⟨Function.update n b (n b - 1), funext fun c => ?_⟩
  rw [addRef_apply, Function.update_apply]
  split
  · next hc =>
    subst hc
    simp only [if_true]
    omega
  · next hc => simp [Ne.symm hc]

end WeiOS.Lib
