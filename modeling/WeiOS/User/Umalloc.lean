import Mathlib
import WeiOS.Lib.RedBlack
import WeiOS.User.Krbtree
import WeiOS.User.KrbtreeRep
import WeiOS.User.KrbtreeInsert

/-!
# The Search of malloc

`MallocSearch` of `user/umalloc.c` looks for the smallest free block that is large enough. It follows
the keys down the tree; if the path ends without the key itself, the answer is the last node or its
successor, which `RBNodeSucceeder` finds by climbing.

## Main results
- `climb_spec`: the climb of `RBNodeSucceeder` ends at the first node behind the hole.
- `MallocSearch_bestFit`: the search returns a node with the smallest sufficient key.
-/

set_option linter.style.nameCheck false

namespace WeiOS.Krbtree

open WeiOS.Lib ColorTree

variable {α : Type*} [DecidableEq α]

/-- The loop of `MallocSearch`: a node with the key, or the last node with the side on which the path
    leaves the tree. -/
def mallocLoop (h : Mem α) (key : Nat) : Nat → Option α → Option α → Side →
    Option (Option α ⊕ Option α × Side)
  | 0, _, _, _ => none
  | fuel + 1, tx, ty, side =>
    if tx = none then some (.inr (ty, side))
    else if h.key tx < key then mallocLoop h key fuel (h.child .right tx) tx .right
    else if key < h.key tx then mallocLoop h key fuel (h.child .left tx) tx .left
    else some (.inl tx)

/-- `MallocSearch`. -/
def MallocSearch (h : Mem α) (fuel key : Nat) : Option (Option α) :=
  if h.root = none then some none
  else
    -- `Ty` and `left` are not set before the first round
    match mallocLoop h key fuel h.root none .right with
    | none => none
    | some (.inl tx) => some tx
    | some (.inr (ty, .left)) => some ty
    | some (.inr (ty, .right)) => RBNodeSucceeder h fuel ty

variable {h : Mem α} {t : ColorTree α} {fs : List (Frame α)} {x : α} {key : Nat}

/-- **The climb of `RBNodeSucceeder`**: through all frames on their right side, to the first node behind
    the hole. -/
theorem climb_spec (hr : Rep h (plug fs t)) (hx : t.root = some x) :
    ∃ k, ∀ fuel ≥ k, climb h fuel (some x) = some (after fs).head? := by
  -- on the frames: a frame on its left side ends the climb, and its node is the next one
  induction fs generalizing t x with
  | nil =>
    refine ⟨1, fun fuel hfuel => ?_⟩
    obtain ⟨m, rfl⟩ : ∃ m, fuel = m + 1 := ⟨fuel - 1, by omega⟩
    have hp : h.parent (some x) = none := RepAt.parent hr.at hx
    rw [climb, if_neg (by simp [hp]), hp]
    rfl
  | cons f fs ih =>
    have hp : h.parent (some x) = some f.node := RepAt.parent hr.at hx
    have hne : f.other.root ≠ some x := fun he => (nodup_plug.1 hr.nodup).2.2 x (root_mem_inorder hx)
      (by simp [frameNodes, root_mem_inorder he])
    have hside : some x = h.child .right (some f.node) ↔ f.side = .right :=
      (hx ▸ hr.frames).child_eq_iff hne .right
    cases hs : f.side with
    | left =>
      refine ⟨1, fun fuel hfuel => ?_⟩
      obtain ⟨m, rfl⟩ : ∃ m, fuel = m + 1 := ⟨fuel - 1, by omega⟩
      rw [climb, hp, if_neg fun hc => absurd (hside.1 hc.2) (by simp [hs])]
      simp [ColorTree.after, hs]
    | right =>
      obtain ⟨k, hk⟩ := ih hr (root_join ..)
      refine ⟨k + 1, fun fuel hfuel => ?_⟩
      obtain ⟨m, rfl⟩ : ∃ m, fuel = m + 1 := ⟨fuel - 1, by omega⟩
      rw [climb, hp, if_pos ⟨by simp, hside.2 hs⟩, hk m (by omega)]
      simp [ColorTree.after, hs]

/-- The keys before a hole are smaller than `key`, and those behind it are greater. -/
structure Straddles (h : Mem α) (fs : List (Frame α)) (key : Nat) : Prop where
  before : ∀ y ∈ before fs, h.key (some y) < key
  after : ∀ y ∈ after fs, key < h.key (some y)

/-- The side of the hole below its parent. -/
def sideOf : List (Frame α) → Side
  | [] => .right
  | f :: _ => f.side

omit [DecidableEq α] in
/-- **The loop of `MallocSearch`** finds the key, or ends at the leaf that separates the keys. -/
theorem mallocLoop_spec (hat : RepAt h (parentOf fs) t)
    (hs : (keysOf h (plug fs t).inorder).Pairwise (· ≤ ·)) (hst : Straddles h fs key) :
    ∃ r, (∃ k, ∀ fuel ≥ k, mallocLoop h key fuel t.root (parentOf fs) (sideOf fs) = some r) ∧
      ((∃ x ∈ t.inorder, h.key (some x) = key ∧ r = .inl (some x)) ∨
        ∃ fs', plug fs t = plug fs' leaf ∧ Straddles h fs' key ∧ r = .inr (parentOf fs', sideOf fs')) := by
  -- on the subtree that is left, as for the place of a new node
  induction t generalizing fs with
  | leaf =>
    refine ⟨_, ⟨1, fun fuel hfuel => ?_⟩, .inr ⟨fs, rfl, hst, rfl⟩⟩
    obtain ⟨m, rfl⟩ : ∃ m, fuel = m + 1 := ⟨fuel - 1, by omega⟩
    simp [mallocLoop, ColorTree.root]
  | node c l x r ihl ihr =>
    obtain ⟨hl, hr⟩ := keys_node hs
    obtain ⟨_, hcl, hcr, _, hatl, hatr⟩ := hat
    rcases Nat.lt_trichotomy (h.key (some x)) key with hkey | hkey | hkey
    · have hst' : Straddles h (⟨.right, c, x, l⟩ :: fs) key := by
        refine ⟨fun y hy => ?_, fun y hy => hst.after y (by simpa [ColorTree.after] using hy)⟩
        simp only [ColorTree.before, List.mem_append, List.mem_singleton] at hy
        rcases hy with hy | hy | rfl
        · exact hst.before y hy
        · exact (hl y hy).trans_lt hkey
        · exact hkey
      obtain ⟨res, ⟨k, hk⟩, hres⟩ :=
        ihr (show RepAt h (parentOf (⟨.right, c, x, l⟩ :: fs)) r from hatr) hs hst'
      refine ⟨res, ⟨k + 1, fun fuel hfuel => ?_⟩, hres.imp_left ?_⟩
      · obtain ⟨m, rfl⟩ : ∃ m, fuel = m + 1 := ⟨fuel - 1, by omega⟩
        rw [ColorTree.root, mallocLoop, if_neg (by simp), if_pos hkey, hcr]
        exact hk m (by omega)
      · rintro ⟨y, hy, hyk⟩
        exact ⟨y, by simp [inorder, hy], hyk⟩
    · refine ⟨.inl (some x), ⟨1, fun fuel hfuel => ?_⟩, .inl ⟨x, by simp [inorder], hkey, rfl⟩⟩
      obtain ⟨m, rfl⟩ : ∃ m, fuel = m + 1 := ⟨fuel - 1, by omega⟩
      rw [ColorTree.root, mallocLoop, if_neg (by simp), if_neg (by omega), if_neg (by omega)]
    · have hst' : Straddles h (⟨.left, c, x, r⟩ :: fs) key := by
        refine ⟨fun y hy => hst.before y (by simpa [ColorTree.before] using hy), fun y hy => ?_⟩
        simp only [ColorTree.after, List.mem_append, List.mem_cons] at hy
        rcases hy with (rfl | hy) | hy
        · exact hkey
        · exact hkey.trans_le (hr y hy)
        · exact hst.after y hy
      obtain ⟨res, ⟨k, hk⟩, hres⟩ :=
        ihl (show RepAt h (parentOf (⟨.left, c, x, r⟩ :: fs)) l from hatl) hs hst'
      refine ⟨res, ⟨k + 1, fun fuel hfuel => ?_⟩, hres.imp_left ?_⟩
      · obtain ⟨m, rfl⟩ : ∃ m, fuel = m + 1 := ⟨fuel - 1, by omega⟩
        rw [ColorTree.root, mallocLoop, if_neg (by simp), if_neg (by omega), if_pos hkey, hcl]
        exact hk m (by omega)
      · rintro ⟨y, hy, hyk⟩
        exact ⟨y, by simp [inorder, hy], hyk⟩

omit [DecidableEq α] in
/-- At the leaf that separates the keys, the first node behind it is the best fit. -/
theorem after_head_bestFit (hs : (keysOf h (plug fs (leaf : ColorTree α)).inorder).Pairwise (· ≤ ·))
    (hst : Straddles h fs key) :
    ((after fs).head? = none ↔ ∀ y ∈ (plug fs (leaf : ColorTree α)).inorder, h.key (some y) < key) ∧
      ∀ x, (after fs).head? = some x → x ∈ (plug fs (leaf : ColorTree α)).inorder ∧
        key ≤ h.key (some x) ∧ ∀ y ∈ (plug fs (leaf : ColorTree α)).inorder,
          key ≤ h.key (some y) → h.key (some x) ≤ h.key (some y) := by
  rw [inorder_plug, inorder, List.append_nil] at hs ⊢
  cases ha : after fs with
  | nil => simpa using hst.before
  | cons x rest =>
    have hx := hst.after x (by simp [ha])
    refine ⟨iff_of_false (by simp) fun hall => ?_, fun x' hx' => ?_⟩
    · exact absurd (hall x (by simp)) (by omega)
    · obtain rfl : x = x' := by simpa using hx'
      refine ⟨by simp, hx.le, fun y hy hky => ?_⟩
      rw [ha, keysOf, List.pairwise_map, List.pairwise_append, List.pairwise_cons] at hs
      rcases List.mem_append.1 hy with hy | hy
      · exact absurd (hst.before y hy) (by omega)
      · rcases List.mem_cons.1 hy with rfl | hy
        · exact le_rfl
        · exact hs.2.1.1 y hy

/-- **`MallocSearch` is best fit**, in every search tree: it ends, with `&T->nil` iff all keys are too
    small, and else with a node whose key is the smallest sufficient one. -/
theorem MallocSearch_bestFit (h : Mem α) (t : ColorTree α) (key : Nat) (hr : Rep h t)
    (hs : (keysOf h t.inorder).Pairwise (· ≤ ·)) :
    ∃ r, (∃ k, ∀ fuel ≥ k, MallocSearch h fuel key = some r) ∧
      (r = none ↔ ∀ y ∈ t.inorder, h.key (some y) < key) ∧
      ∀ x, r = some x → x ∈ t.inorder ∧ key ≤ h.key (some x) ∧
        ∀ y ∈ t.inorder, key ≤ h.key (some y) → h.key (some x) ≤ h.key (some y) := by
  have hplug : Rep h (plug [] t) := hr
  have hroot : Straddles h [] key := ⟨fun y hy => absurd hy (by simp [ColorTree.before]),
    fun y hy => absurd hy (by simp [ColorTree.after])⟩
  obtain ⟨res, ⟨k, hk⟩, hres⟩ := mallocLoop_spec hplug.at hs hroot
  rw [← hr.root] at hk
  by_cases hempty : h.root = none
  · obtain rfl : t = leaf := by
      cases t with
      | leaf => rfl
      | node c l x r => exact absurd (hr.root.symm.trans hempty) (by simp [ColorTree.root])
    exact ⟨none, ⟨0, fun fuel _ => by rw [MallocSearch, if_pos hempty]⟩, by simp [inorder], by simp⟩
  · rcases hres with ⟨x, hx, hxk, rfl⟩ | ⟨fs, ht, hst, rfl⟩
    · refine ⟨some x, ⟨k, fun fuel hfuel => ?_⟩, iff_of_false (by simp) fun hall => ?_, fun x' hx' => ?_⟩
      · rw [MallocSearch, if_neg hempty, show mallocLoop h key fuel h.root none .right = _ from hk fuel hfuel]
      · exact absurd (hall x hx) (by omega)
      · obtain rfl := Option.some.inj hx'
        exact ⟨hx, hxk.ge, fun y _ hy => hxk.le.trans hy⟩
    · change t = plug fs leaf at ht
      subst ht
      obtain ⟨hnone, hsome⟩ := after_head_bestFit hs hst
      refine ⟨(after fs).head?, ?_, hnone, hsome⟩
      cases fs with
      | nil => exact absurd hr.root hempty
      | cons f fs =>
        cases hside : f.side with
        | left =>
          refine ⟨k, fun fuel hfuel => ?_⟩
          rw [MallocSearch, if_neg hempty, show mallocLoop h key fuel h.root none .right = _ from hk fuel hfuel]
          simp [sideOf, hside, parentOf, ColorTree.after]
        | right =>
          obtain ⟨_, hchild, _⟩ := hr.frames
          rw [hside] at hchild
          -- the successor of a node without a right child
          obtain ⟨k', hk'⟩ := climb_spec (show Rep h (plug fs (join f.side f.color leaf f.node f.other)) from hr)
            (root_join ..)
          refine ⟨max k k', fun fuel hfuel => ?_⟩
          rw [MallocSearch, if_neg hempty,
            show mallocLoop h key fuel h.root none .right = _ from hk fuel (by omega)]
          simp only [sideOf, hside, parentOf, RBNodeSucceeder]
          rw [if_neg (by simp [hchild, ColorTree.root]), hk' fuel (by omega)]
          simp [ColorTree.after, hside]

theorem MallocSearch_oneNode :
    ∃ r, (∃ k, ∀ fuel ≥ k, MallocSearch oneNode fuel 3 = some r) ∧
      (r = none ↔ ∀ y ∈ [1], oneNode.key (some y) < 3) ∧
      ∀ x, r = some x → x ∈ [1] ∧ 3 ≤ oneNode.key (some x) ∧
        ∀ y ∈ [1], 3 ≤ oneNode.key (some y) → oneNode.key (some x) ≤ oneNode.key (some y) :=
  MallocSearch_bestFit oneNode (node .black leaf 1 leaf) 3 oneNode_wellFormed.rep oneNode_wellFormed.sorted

end WeiOS.Krbtree
