import Mathlib

/-!
# Tables of Slots

A finite map kept in a list of slots: a slot is free, or holds a key with its value. New keys go into the
first free slot, or into a new one at the end; old keys are removed in place. As long as the keys of a table
are distinct, it is a map, and these are the operations of a map.

## Main results
- `find_eq_some`: the slot that a search finds is the one that holds the key.
- `Distinct.put`: a key that is not there may be put into a free slot.
- `find_put_some`, `find_put_none`: what a search finds afterwards.
-/

namespace WeiOS.Lib.SlotTable

variable {κ υ : Type*}

/-- Slot `j` of the table holds the key `k`, with value `v`. -/
def Holds (t : List (Option (κ × υ))) (j : Nat) (k : κ) (v : υ) : Prop := t[j]? = some (some (k, v))

/-- No key is held twice. -/
def Distinct (t : List (Option (κ × υ))) : Prop := ∀ j j' k v v', Holds t j k v → Holds t j' k v' → j = j'

/-- The first slot that holds the key, and its value. -/
def find [DecidableEq κ] (k : κ) : List (Option (κ × υ)) → Option (Nat × υ)
  | [] => none
  | none :: t => (find k t).map fun p => (p.1 + 1, p.2)
  | some (k', v) :: t => if k' = k then some (0, v) else (find k t).map fun p => (p.1 + 1, p.2)

/-- The first free slot, or the one behind the last. -/
def free : List (Option (κ × υ)) → Nat
  | [] => 0
  | none :: _ => 0
  | some _ :: t => free t + 1

/-- Slot `j` gets the contents `x`; it may be the one behind the last. -/
def put (t : List (Option (κ × υ))) (j : Nat) (x : Option (κ × υ)) : List (Option (κ × υ)) :=
  if j < t.length then t.set j x else t ++ [x]

variable {t t' : List (Option (κ × υ))} {j : Nat} {k k' : κ} {v : υ}

/-! ## §1 Searching -/

theorem not_holds_nil : ¬ Holds ([] : List (Option (κ × υ))) j k v := by simp [Holds]

theorem holds_cons_zero (x : Option (κ × υ)) : Holds (x :: t) 0 k v ↔ x = some (k, v) := by simp [Holds]

theorem holds_cons_succ (x : Option (κ × υ)) : Holds (x :: t) (j + 1) k v ↔ Holds t j k v := by simp [Holds]

theorem Distinct.tail {x : Option (κ × υ)} (h : Distinct (x :: t)) : Distinct t := by
  intro j j' k v v' hj hj'
  have heq := h (j + 1) (j' + 1) k v v' ((holds_cons_succ x).2 hj) ((holds_cons_succ x).2 hj')
  exact Nat.succ.inj heq

theorem free_cons_some (p : κ × υ) (t : List (Option (κ × υ))) : free (some p :: t) = free t + 1 := rfl

variable [DecidableEq κ]

theorem find_cons_some (k k' : κ) (v : υ) (t : List (Option (κ × υ))) :
    find k (some (k', v) :: t) = if k' = k then some (0, v) else (find k t).map fun p => (p.1 + 1, p.2) := rfl

/-- What a search finds is there. -/
theorem holds_of_find (h : find k t = some (j, v)) : Holds t j k v := by
  induction t generalizing j with
  | nil => cases h
  | cons x t ih =>
    have hrest : (find k t).map (fun p => (p.1 + 1, p.2)) = some (j, v) → Holds (x :: t) j k v := by
      intro hmap
      obtain ⟨⟨i, w⟩, hfind, heq⟩ := Option.map_eq_some_iff.1 hmap
      obtain ⟨rfl, rfl⟩ := Prod.mk.inj heq
      exact (holds_cons_succ x).2 (ih hfind)
    cases x with
    | none => exact hrest h
    | some p =>
      obtain ⟨k', v'⟩ := p
      unfold find at h
      by_cases hk : k' = k
      · rw [if_pos hk] at h
        obtain ⟨rfl, rfl⟩ := Prod.mk.inj (Option.some.inj h)
        exact (holds_cons_zero _).2 (by rw [hk])
      · rw [if_neg hk] at h
        exact hrest h

/-- A search finds nothing if no slot holds the key. -/
theorem find_eq_none : find k t = none ↔ ∀ j v, ¬ Holds t j k v := by
  constructor
  · intro h
    induction t with
    | nil => exact fun j v => not_holds_nil
    | cons x t ih =>
      have hrest : find k t = none ∧ ∀ v, x ≠ some (k, v) := by
        cases x with
        | none => exact ⟨Option.map_eq_none_iff.1 h, fun v hv => nomatch hv⟩
        | some p =>
          obtain ⟨k', v'⟩ := p
          unfold find at h
          by_cases hk : k' = k
          · rw [if_pos hk] at h
            cases h
          · rw [if_neg hk] at h
            refine ⟨Option.map_eq_none_iff.1 h, fun v hv => hk ?_⟩
            exact (Prod.mk.inj (Option.some.inj hv)).1
      intro j v hj
      cases j with
      | zero => exact hrest.2 v ((holds_cons_zero x).1 hj)
      | succ j => exact ih hrest.1 j v ((holds_cons_succ x).1 hj)
  · intro h
    cases hfind : find k t with
    | none => rfl
    | some p => exact absurd (holds_of_find hfind) (h p.1 p.2)

/-- A search ends at the first slot that holds the key. -/
theorem find_of_first (hj : Holds t j k v) (hfirst : ∀ i < j, ∀ w, ¬ Holds t i k w) : find k t = some (j, v) := by
  induction t generalizing j with
  | nil => exact absurd hj not_holds_nil
  | cons x t ih =>
    cases j with
    | zero =>
      obtain rfl := (holds_cons_zero x).1 hj
      rw [find_cons_some, if_pos rfl]
    | succ j =>
      have hrest : find k t = some (j, v) := by
        apply ih ((holds_cons_succ x).1 hj)
        intro i hi w hw
        exact hfirst (i + 1) (Nat.succ_lt_succ hi) w ((holds_cons_succ x).2 hw)
      cases x with
      | none =>
        rw [find, hrest]
        rfl
      | some p =>
        have hne : p.1 ≠ k := by
          rintro rfl
          exact hfirst 0 (Nat.succ_pos j) p.2 ((holds_cons_zero _).2 rfl)
        rw [find_cons_some, if_neg hne, hrest]
        rfl

/-- **The slot of a key** is the one that a search finds. -/
theorem find_eq_some (h : Distinct t) : find k t = some (j, v) ↔ Holds t j k v := by
  refine ⟨holds_of_find, fun hj => ?_⟩
  cases hfind : find k t with
  | none => exact absurd hj (find_eq_none.1 hfind j v)
  | some p =>
    obtain ⟨j', v'⟩ := p
    have hj' := holds_of_find hfind
    obtain rfl := h j' j k v' v hj' hj
    have heq := hj'.symm.trans hj
    simp only [Option.some.injEq, Prod.mk.injEq, true_and] at heq
    rw [heq]

/-- Two tables that hold a key alike. -/
theorem find_congr (h' : Distinct t') (heq : ∀ j v, Holds t' j k v ↔ Holds t j k v) :
    find k t' = find k t := by
  cases hfind : find k t with
  | none =>
    apply find_eq_none.2
    intro j v hj
    exact find_eq_none.1 hfind j v ((heq j v).1 hj)
  | some p => exact (find_eq_some h').2 ((heq p.1 p.2).2 (holds_of_find hfind))

/-! ## §2 Changing a slot -/

omit [DecidableEq κ] in
theorem getElem?_put (hj : j ≤ t.length) (x : Option (κ × υ)) (i : Nat) :
    (put t j x)[i]? = if i = j then some x else t[i]? := by
  unfold put
  by_cases hlt : j < t.length
  · rw [if_pos hlt, List.getElem?_set]
    by_cases hi : i = j
    · rw [if_pos hi.symm, if_pos hi, if_pos hlt]
    · rw [if_neg (Ne.symm hi), if_neg hi]
  · obtain rfl : j = t.length := by omega
    rw [if_neg hlt]
    by_cases hi : i = t.length
    · rw [if_pos hi, hi, List.getElem?_append_right (Nat.le_refl _), Nat.sub_self]
      rfl
    · rw [if_neg hi]
      by_cases hlt' : i < t.length
      · rw [List.getElem?_append_left hlt']
      · have hlen : (t ++ [x]).length = t.length + 1 := List.length_append
        rw [List.getElem?_eq_none (by omega : t.length ≤ i), List.getElem?_eq_none (by omega)]

omit [DecidableEq κ] in
theorem holds_put (hj : j ≤ t.length) {x : Option (κ × υ)} {i : Nat} :
    Holds (put t j x) i k v ↔ if i = j then x = some (k, v) else Holds t i k v := by
  unfold Holds
  rw [getElem?_put hj]
  by_cases hi : i = j
  · rw [if_pos hi, if_pos hi, Option.some.injEq]
  · rw [if_neg hi, if_neg hi]

/-- **A new key** may be put anywhere. -/
theorem Distinct.put (h : Distinct t) (hj : j ≤ t.length) (hnew : find k t = none) (v : υ) :
    Distinct (SlotTable.put t j (some (k, v))) := by
  intro i i' l w w' hi hi'
  rw [holds_put hj] at hi hi'
  by_cases hij : i = j
  · by_cases hij' : i' = j
    · rw [hij, hij']
    · rw [if_pos hij] at hi
      rw [if_neg hij'] at hi'
      obtain ⟨rfl, rfl⟩ := Prod.mk.inj (Option.some.inj hi)
      exact absurd hi' (find_eq_none.1 hnew _ _)
  · rw [if_neg hij] at hi
    by_cases hij' : i' = j
    · rw [if_pos hij'] at hi'
      obtain ⟨rfl, rfl⟩ := Prod.mk.inj (Option.some.inj hi')
      exact absurd hi (find_eq_none.1 hnew _ _)
    · rw [if_neg hij'] at hi'
      exact h i i' l w w' hi hi'

omit [DecidableEq κ] in
/-- A slot may be cleared. -/
theorem Distinct.clear (h : Distinct t) (hj : j ≤ t.length) : Distinct (SlotTable.put t j none) := by
  intro i i' l w w' hi hi'
  rw [holds_put hj] at hi hi'
  by_cases hij : i = j
  · rw [if_pos hij] at hi
    cases hi
  · by_cases hij' : i' = j
    · rw [if_pos hij'] at hi'
      cases hi'
    · rw [if_neg hij] at hi
      rw [if_neg hij'] at hi'
      exact h i i' l w w' hi hi'

omit [DecidableEq κ] in
/-- The slot where a new key goes. -/
theorem free_spec (t : List (Option (κ × υ))) :
    free t ≤ t.length ∧ ∀ k v, ¬ Holds t (free t) k v := by
  induction t with
  | nil => exact ⟨Nat.le_refl _, fun k v => not_holds_nil⟩
  | cons x t ih =>
    cases x with
    | none => exact ⟨Nat.zero_le _, fun k v hk => nomatch (holds_cons_zero none).1 hk⟩
    | some p =>
      refine ⟨Nat.succ_le_succ ih.1, fun k v hk => ih.2 k v ?_⟩
      exact (holds_cons_succ (some p)).1 hk

/-- **A search after a key is put** into the first free slot. -/
theorem find_put_some (k' : κ) (h : Distinct t) (hnew : find k t = none) (v : υ) :
    find k' (put t (free t) (some (k, v))) = if k' = k then some (free t, v) else find k' t := by
  obtain ⟨hle, hfree⟩ := free_spec t
  have h' := h.put hle hnew v
  by_cases hk : k' = k
  · rw [if_pos hk, find_eq_some h', holds_put hle, if_pos rfl, hk]
  · rw [if_neg hk]
    apply find_congr h'
    intro i w
    rw [holds_put hle]
    by_cases hi : i = free t
    · rw [if_pos hi, hi]
      refine ⟨fun heq => absurd ?_ hk, fun hw => absurd hw (hfree k' w)⟩
      exact (Prod.mk.inj (Option.some.inj heq)).1.symm
    · rw [if_neg hi]

/-- **A search after a key is removed.** -/
theorem find_put_none (h : Distinct t) (hk : find k t = some (j, v)) :
    find k' (put t j none) = if k' = k then none else find k' t := by
  have hj := holds_of_find hk
  have hle : j ≤ t.length := by
    by_contra hlt
    have hnone : t[j]? = none := List.getElem?_eq_none (by omega)
    exact Option.some_ne_none _ (hj.symm.trans hnone)
  have h' := h.clear hle
  by_cases heq : k' = k
  · rw [if_pos heq, heq]
    apply find_eq_none.2
    intro i w hi
    rw [holds_put hle] at hi
    by_cases hij : i = j
    · rw [if_pos hij] at hi
      cases hi
    · rw [if_neg hij] at hi
      exact hij (h i j k w v hi hj)
  · rw [if_neg heq]
    apply find_congr h'
    intro i w
    rw [holds_put hle]
    by_cases hij : i = j
    · rw [if_pos hij, hij]
      refine ⟨fun hc => (nomatch hc), fun hw => absurd ?_ heq⟩
      have hsame := hw.symm.trans hj
      simp only [Option.some.injEq, Prod.mk.injEq] at hsame
      exact hsame.1
    · rw [if_neg hij]

end WeiOS.Lib.SlotTable
