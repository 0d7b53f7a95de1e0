import Mathlib
import WeiOS.Lib.RedBlack
import WeiOS.User.Krbtree
import WeiOS.User.KrbtreeRep
import WeiOS.User.KrbtreeInsert
import WeiOS.User.KrbtreeDelete
import WeiOS.User.Umalloc

/-!
# The In-Order Successor

The node that follows `N` in order is the first node of its right subtree, or, if there is none, the
first ancestor with `N` on its left. `RBNodeSucceeder` climbs to that ancestor, but with a right child it
returns the right child itself, where `RBTreeMinimum` of it is meant. `MallocSearch` calls it only for a
node without a right child.

## Main results
- `head?_inorder_node`: the first node in order is the end of the way down the left children.
- `RBNodeSucceeder_spec`: what the function returns, for every node of every tree.
- `RBNodeSucceeder_iff`: when that is the node that follows.
-/

set_option linter.style.nameCheck false

namespace WeiOS.Krbtree

open WeiOS.Lib ColorTree

variable {α : Type*} [DecidableEq α] {h : Mem α} {t l r : ColorTree α} {fs : List (Frame α)} {c : Color}
  {n : α} {xs ys : List α}

/-! ## §1 What follows a node -/

omit [DecidableEq α] in
/-- The first node of a tree in order is the least one. -/
theorem head?_inorder_node (c : Color) (l : ColorTree α) (n : α) (r : ColorTree α) :
    (node c l n r).inorder.head? = some (least [] c l n r).node := by
  have hplug := plug_least [] c l n r
  rw [plug] at hplug
  -- nothing stands before the least node, and it has no left child
  rw [← hplug, inorder_plug, before_least, ColorTree.before, inorder, inorder]
  rfl

omit [DecidableEq α] in
/-- The nodes behind `n` are those of its right subtree, and then those behind the hole. -/
theorem behind_eq (hnd : (plug fs (node c l n r)).inorder.Nodup)
    (ht : (plug fs (node c l n r)).inorder = xs ++ n :: ys) : ys = r.inorder ++ after fs := by
  have hsplit : (plug fs (node c l n r)).inorder =
      (ColorTree.before fs ++ l.inorder) ++ n :: (r.inorder ++ after fs) := by
    rw [inorder_plug, inorder]
    simp only [List.append_assoc, List.cons_append]
  have hnot : n ∉ xs ∧ n ∉ ys := by
    rw [ht, List.nodup_middle, List.nodup_cons, List.mem_append, not_or] at hnd
    exact hnd.1
  -- a node occurs once in order, so that there is one way to split at it
  have heq := ht.symm.trans hsplit
  exact ((List.append_cons_inj_of_notMem hnot.1 hnot.2).1 heq).2.2

/-! ## §2 What the function returns -/

/-- `RBNodeSucceeder` at the root of a subtree: its right child, and else the first node behind the
    hole. -/
theorem RBNodeSucceeder_spec (hr : Rep h (plug fs (node c l n r))) :
    ∃ k, ∀ fuel ≥ k, RBNodeSucceeder h fuel (some n) =
      some (match r with
        | leaf => (after fs).head?
        | node _ _ y _ => some y) := by
  have hright : h.child .right (some n) = r.root := hr.at.2.2.1
  cases r with
  | leaf =>
    -- without a right child the function climbs
    obtain ⟨k, hk⟩ := climb_spec hr (x := n) rfl
    refine ⟨k, fun fuel hfuel => ?_⟩
    rw [RBNodeSucceeder, if_neg (by simp [hright, ColorTree.root]), hk fuel hfuel]
  | node c' l' y r' =>
    -- else it returns the right child, without going down
    refine ⟨0, fun fuel _ => ?_⟩
    rw [RBNodeSucceeder, if_pos (by simp [hright, ColorTree.root]), hright]
    rfl

/-- **When `RBNodeSucceeder` returns the node that follows**: unless the right child has a left child. -/
theorem RBNodeSucceeder_iff (h : Mem α) (t : ColorTree α) (xs ys : List α) (n : α) (hr : Rep h t)
    (ht : t.inorder = xs ++ n :: ys) :
    (∃ k, ∀ fuel ≥ k, RBNodeSucceeder h fuel (some n) = some ys.head?) ↔
      (h.child .right (some n) ≠ none → h.child .left (h.child .right (some n)) = none) := by
  obtain ⟨fs, c, l, r, rfl⟩ := exists_plug (show n ∈ t.inorder by simp [ht])
  obtain ⟨k, hk⟩ := RBNodeSucceeder_spec hr
  -- the two runs are the same run
  have hiff : (∃ k, ∀ fuel ≥ k, RBNodeSucceeder h fuel (some n) = some ys.head?) ↔
      RBNodeSucceeder h k (some n) = some ys.head? := by
    refine ⟨fun ⟨m, hm⟩ => ?_, fun hrun => ⟨k, fun fuel hfuel => ?_⟩⟩
    · rw [hk k le_rfl, ← hk (max k m) (le_max_left ..), hm (max k m) (le_max_right ..)]
    · rw [hk fuel hfuel, ← hk k le_rfl, hrun]
  have hright : h.child .right (some n) = r.root := hr.at.2.2.1
  rw [hiff, hk k le_rfl, behind_eq hr.nodup ht, hright]
  cases r with
  | leaf => simp [ColorTree.root, inorder]
  | node c' l' y r' =>
    have hleft : h.child .left (some y) = l'.root := hr.at.2.2.2.2.2.2.1
    rw [inorder, List.append_assoc, List.head?_append]
    cases l' with
    | leaf => simp [ColorTree.root, inorder, hleft]
    | node cl ll z lr =>
      -- the node that follows is in the left subtree of the right child, so it is not the right child
      obtain ⟨hnd, -, -⟩ := nodup_plug.1 hr.nodup
      have hnd' := (nodup_join (s := .left) (c := c)).1 hnd
      have hy : y ∉ (node cl ll z lr).inorder :=
        ((nodup_join (s := .left) (c := c')).1 hnd'.2.2.2.1).1
      have hne : y ≠ (least [] cl ll z lr).node := by
        rintro rfl
        exact hy (List.mem_of_mem_head? (head?_inorder_node cl ll z lr))
      rw [head?_inorder_node]
      simp [ColorTree.root, hleft, hne]

/-- Node 8 is the right child of node 6 and the last one in order. -/
theorem RBNodeSucceeder_iff_slipMem :
    (∃ k, ∀ fuel ≥ k, RBNodeSucceeder slipMem fuel (some 6) = some (some 8)) ↔
      (slipMem.child .right (some 6) ≠ none → slipMem.child .left (slipMem.child .right (some 6)) = none) :=
  RBNodeSucceeder_iff slipMem slipTree [3, 2, 4, 5, 1, 7] [8] 6 slipMem_wellFormed.rep (by decide)

/-- Node 7 follows the root of `slipTree`, and `RBNodeSucceeder` returns its parent, node 6. -/
theorem RBNodeSucceeder_skips : ¬ ∀ (h : Mem Nat) (t : ColorTree Nat) (xs ys : List Nat) (n : Nat),
    WellFormed h t → t.inorder = xs ++ n :: ys →
    ∃ k, ∀ fuel ≥ k, RBNodeSucceeder h fuel (some n) = some ys.head? := by
  intro hall
  obtain ⟨k, hk⟩ := hall slipMem slipTree [3, 2, 4, 5] [7, 6, 8] 1 slipMem_wellFormed (by decide)
  have h6 : RBNodeSucceeder slipMem k (some 1) = some (some 6) := rfl
  have h7 : RBNodeSucceeder slipMem k (some 1) = some (some 7) := hk k le_rfl
  exact absurd (h6.symm.trans h7) (by decide)

end WeiOS.Krbtree
