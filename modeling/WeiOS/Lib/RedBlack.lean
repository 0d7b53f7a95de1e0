import Mathlib

/-!
# Red-Black Trees with a Hole

Binary trees with coloured nodes, and the same trees seen from one of their nodes: a subtree and the
frames on the way from it up to the root. Left and right are values of `Side`, so that a tree operation
and its mirror image are one definition.

## Main results
- `inorder_plug`: the nodes before and after the hole.
- `inorder_rotate`: a rotation does not change the order.
- `balanced_plug`, `noRedRed_plug`: the two colour invariants, split into subtree and frames.
-/

namespace WeiOS.Lib

/-! ## §1 Trees -/

inductive Color where
  | red
  | black
  deriving DecidableEq

inductive Side where
  | left
  | right
  deriving DecidableEq

/-- The opposite side. -/
def Side.other : Side → Side
  | .left => .right
  | .right => .left

@[simp] theorem Side.other_ne (s : Side) : s.other ≠ s := by cases s <;> simp [Side.other]

@[simp] theorem Side.ne_other (s : Side) : s ≠ s.other := by cases s <;> simp [Side.other]

theorem Side.eq_or_eq_other (s s' : Side) : s' = s ∨ s' = s.other := by
  cases s <;> cases s' <;> simp [Side.other]

/-- A binary tree with coloured nodes. -/
inductive ColorTree (α : Type*) where
  | leaf
  | node (c : Color) (l : ColorTree α) (x : α) (r : ColorTree α)

namespace ColorTree

variable {α : Type*}

/-- The node at the root, none for a leaf. -/
def root : ColorTree α → Option α
  | leaf => none
  | node _ _ x _ => some x

/-- Leaves are black. -/
def rootColor : ColorTree α → Color
  | leaf => .black
  | node c _ _ _ => c

/-- The nodes in order. -/
def inorder : ColorTree α → List α
  | leaf => []
  | node _ l x r => l.inorder ++ x :: r.inorder

/-- A node with the subtree `a` on side `s` and the subtree `b` on the other. -/
def join (s : Side) (c : Color) (a : ColorTree α) (x : α) (b : ColorTree α) : ColorTree α :=
  match s with
  | .left => node c a x b
  | .right => node c b x a

/-- The tree with a black root. -/
def blacken : ColorTree α → ColorTree α
  | leaf => leaf
  | node _ l x r => node .black l x r

@[simp] theorem root_join (s : Side) (c : Color) (a : ColorTree α) (x : α) (b : ColorTree α) :
    (join s c a x b).root = some x := by cases s <;> rfl

@[simp] theorem rootColor_join (s : Side) (c : Color) (a : ColorTree α) (x : α) (b : ColorTree α) :
    (join s c a x b).rootColor = c := by cases s <;> rfl

@[simp] theorem inorder_blacken (t : ColorTree α) : t.blacken.inorder = t.inorder := by
  cases t <;> rfl

@[simp] theorem blacken_join (s : Side) (c : Color) (a : ColorTree α) (x : α) (b : ColorTree α) :
    (join s c a x b).blacken = join s .black a x b := by cases s <;> rfl

/-- The same node, described from the other side. -/
theorem join_other (s : Side) (c : Color) (a : ColorTree α) (x : α) (b : ColorTree α) :
    join s.other c a x b = join s c b x a := by cases s <;> rfl

/-- Every node can be described from either side. -/
theorem exists_join (s : Side) (c : Color) (l : ColorTree α) (x : α) (r : ColorTree α) :
    ∃ a b, node c l x r = join s c a x b := by
  cases s with
  | left => exact ⟨l, r, rfl⟩
  | right => exact ⟨r, l, rfl⟩

theorem mem_inorder_join {s : Side} {c : Color} {a b : ColorTree α} {x y : α} :
    y ∈ (join s c a x b).inorder ↔ y = x ∨ y ∈ a.inorder ∨ y ∈ b.inorder := by
  cases s <;> simp [join, inorder] <;> tauto

theorem root_mem_inorder {t : ColorTree α} {x : α} (h : t.root = some x) : x ∈ t.inorder := by
  cases t with
  | leaf => cases h
  | node c l y r =>
    obtain rfl := Option.some.inj h
    simp [inorder]

theorem nodup_join {s : Side} {c : Color} {a b : ColorTree α} {x : α} :
    (join s c a x b).inorder.Nodup ↔ x ∉ a.inorder ∧ x ∉ b.inorder ∧ a.inorder.Nodup ∧
      b.inorder.Nodup ∧ ∀ y ∈ a.inorder, y ∉ b.inorder := by
  have hperm : (join s c a x b).inorder.Perm (x :: (a.inorder ++ b.inorder)) := by
    cases s with
    | left => exact List.perm_middle
    | right => exact List.perm_middle.trans (List.perm_append_comm.cons x)
  rw [hperm.nodup_iff, List.nodup_cons, List.mem_append, not_or, List.nodup_append]
  constructor
  · rintro ⟨⟨hxa, hxb⟩, ha, hb, hab⟩
    exact ⟨hxa, hxb, ha, hb, fun y hya hyb => hab y hya y hyb rfl⟩
  · rintro ⟨hxa, hxb, ha, hb, hab⟩
    exact ⟨⟨hxa, hxb⟩, ha, hb, fun y hya z hzb he => hab y hya (he ▸ hzb)⟩

/-- **A rotation** keeps the order of the nodes, whatever it does to the colours. -/
theorem inorder_rotate (s : Side) (c₁ c₂ c₃ c₄ : Color) (a b d : ColorTree α) (x y : α) :
    (join s c₁ (join s c₂ a x b) y d).inorder = (join s c₃ a x (join s c₄ b y d)).inorder := by
  cases s <;> simp [join, inorder]

theorem inorder_recolor (s : Side) (c c' : Color) (a b : ColorTree α) (x : α) :
    (join s c a x b).inorder = (join s c' a x b).inorder := by cases s <;> rfl

/-! ## §2 Frames -/

/-- A node above a hole: the side the hole is on, and the subtree on the other side. -/
structure Frame (α : Type*) where
  side : Side
  color : Color
  node : α
  other : ColorTree α

/-- The tree with the hole filled; the first frame is the parent of the hole. -/
def plug : List (Frame α) → ColorTree α → ColorTree α
  | [], t => t
  | f :: fs, t => plug fs (join f.side f.color t f.node f.other)

/-- The parent of the hole. -/
def parentOf : List (Frame α) → Option α
  | [] => none
  | f :: _ => some f.node

/-- The colour of the parent; what is above the root is black. -/
def parentColor : List (Frame α) → Color
  | [] => .black
  | f :: _ => f.color

/-- The nodes in order before the hole. -/
def before : List (Frame α) → List α
  | [] => []
  | f :: fs => before fs ++ match f.side with
    | .left => []
    | .right => f.other.inorder ++ [f.node]

/-- The nodes in order behind the hole. -/
def after : List (Frame α) → List α
  | [] => []
  | f :: fs => (match f.side with
    | .left => f.node :: f.other.inorder
    | .right => []) ++ after fs

/-- The nodes outside the hole. -/
def frameNodes : List (Frame α) → List α
  | [] => []
  | f :: fs => f.node :: (f.other.inorder ++ frameNodes fs)

theorem frameNodes_append (fs gs : List (Frame α)) :
    frameNodes (fs ++ gs) = frameNodes fs ++ frameNodes gs := by
  induction fs with
  | nil => rfl
  | cons f fs ih => simp [frameNodes, ih]

/-- **The order of the nodes**, seen from a hole. -/
theorem inorder_plug (fs : List (Frame α)) (t : ColorTree α) :
    (plug fs t).inorder = before fs ++ t.inorder ++ after fs := by
  induction fs generalizing t with
  | nil => simp [plug, before, after]
  | cons f fs ih =>
    rw [plug, ih]
    cases hs : f.side <;> simp [before, after, hs, join, inorder]

theorem frameNodes_perm (fs : List (Frame α)) : (before fs ++ after fs).Perm (frameNodes fs) := by
  induction fs with
  | nil => exact List.Perm.refl _
  | cons f fs ih =>
    cases hs : f.side with
    | left =>
      simp only [before, after, frameNodes, hs, List.append_nil]
      refine List.perm_middle.trans (List.Perm.cons _ ?_)
      have hmove : (before fs ++ (f.other.inorder ++ after fs)).Perm
          (f.other.inorder ++ (before fs ++ after fs)) := by
        rw [← List.append_assoc, ← List.append_assoc]
        exact List.perm_append_comm.append_right _
      exact hmove.trans (ih.append_left _)
    | right =>
      simp only [before, after, frameNodes, hs, List.nil_append]
      have hmove : (before fs ++ (f.other.inorder ++ [f.node]) ++ after fs).Perm
          (f.node :: (f.other.inorder ++ (before fs ++ after fs))) := by
        refine (List.perm_append_comm.append_right _).trans ?_
        simp only [List.append_assoc, List.singleton_append]
        exact List.perm_middle
      exact hmove.trans ((ih.append_left _).cons _)

theorem inorder_plug_perm (fs : List (Frame α)) (t : ColorTree α) :
    (plug fs t).inorder.Perm (t.inorder ++ frameNodes fs) := by
  rw [inorder_plug]
  refine (List.perm_append_comm.append_right _).trans ?_
  rw [List.append_assoc]
  exact (frameNodes_perm fs).append_left _

theorem mem_inorder_plug {fs : List (Frame α)} {t : ColorTree α} {x : α} :
    x ∈ (plug fs t).inorder ↔ x ∈ t.inorder ∨ x ∈ frameNodes fs := by
  rw [(inorder_plug_perm fs t).mem_iff, List.mem_append]

theorem nodup_plug {fs : List (Frame α)} {t : ColorTree α} :
    (plug fs t).inorder.Nodup ↔
      t.inorder.Nodup ∧ (frameNodes fs).Nodup ∧ ∀ x ∈ t.inorder, x ∉ frameNodes fs := by
  rw [(inorder_plug_perm fs t).nodup_iff, List.nodup_append]
  constructor
  · rintro ⟨ht, hfs, hdis⟩
    exact ⟨ht, hfs, fun x hx hx' => hdis x hx x hx' rfl⟩
  · rintro ⟨ht, hfs, hdis⟩
    exact ⟨ht, hfs, fun x hx y hy he => hdis x hx (he ▸ hy)⟩

/-- A node is above the hole on either side. -/
theorem plug_swap (s : Side) (c : Color) (x : α) (a b : ColorTree α) (fs : List (Frame α)) :
    plug (⟨s, c, x, b⟩ :: fs) a = plug (⟨s.other, c, x, a⟩ :: fs) b := by
  rw [plug, plug, join_other]

theorem plug_append (fs gs : List (Frame α)) (t : ColorTree α) :
    plug (fs ++ gs) t = plug gs (plug fs t) := by
  induction fs generalizing t with
  | nil => rfl
  | cons f fs ih => exact ih _

/-- The root of a tree is above the hole. -/
theorem root_plug_mem (f : Frame α) (fs : List (Frame α)) (t : ColorTree α) :
    ∃ x ∈ frameNodes (f :: fs), (plug (f :: fs) t).root = some x := by
  induction fs generalizing f t with
  | nil => exact ⟨f.node, by simp [frameNodes], root_join ..⟩
  | cons g fs ih =>
    obtain ⟨x, hx, hroot⟩ := ih g (join f.side f.color t f.node f.other)
    exact ⟨x, by rw [frameNodes]; simp [hx], hroot⟩

/-- What fills the hole may change as long as its nodes stay in order. -/
theorem inorder_plug_congr {fs : List (Frame α)} {t t' : ColorTree α} (h : t'.inorder = t.inorder) :
    (plug fs t').inorder = (plug fs t).inorder := by
  rw [inorder_plug, inorder_plug, h]

/-- Every node of a tree is at the root of a subtree. -/
theorem exists_plug {t : ColorTree α} {x : α} (h : x ∈ t.inorder) :
    ∃ fs c l r, t = plug fs (node c l x r) := by
  suffices hsuf : ∀ fs : List (Frame α), ∃ fs' c l r, plug fs t = plug fs' (node c l x r) from hsuf []
  induction t with
  | leaf => cases h
  | node c l y r ihl ihr =>
    intro fs
    rw [inorder, List.mem_append, List.mem_cons] at h
    rcases h with h | rfl | h
    · exact ihl h (⟨.left, c, y, r⟩ :: fs)
    · exact ⟨fs, c, l, r, rfl⟩
    · exact ihr h (⟨.right, c, y, l⟩ :: fs)

/-- The first node of a tree in order, with the frames from it to the root. -/
structure Least (α : Type*) where
  frames : List (Frame α)
  color : Color
  node : α
  right : ColorTree α

/-- The way down the left children of a node. -/
def least (fs : List (Frame α)) : Color → ColorTree α → α → ColorTree α → Least α
  | c, leaf, x, r => ⟨fs, c, x, r⟩
  | c, node c' l' x' r', x, r => least (⟨.left, c, x, r⟩ :: fs) c' l' x' r'

theorem plug_least (fs : List (Frame α)) (c : Color) (l : ColorTree α) (x : α) (r : ColorTree α) :
    plug (least fs c l x r).frames
        (node (least fs c l x r).color leaf (least fs c l x r).node (least fs c l x r).right) =
      plug fs (node c l x r) := by
  induction l generalizing fs c x r with
  | leaf => rfl
  | node c' l' x' r' ihl _ => exact ihl (⟨.left, c, x, r⟩ :: fs) c' x' r'

/-! ## §3 Colours -/

/-- A black node counts for the height. -/
def weight : Color → Nat
  | .red => 0
  | .black => 1

/-- All ways from the root to a leaf meet `n` black nodes. -/
def Balanced : ColorTree α → Nat → Prop
  | leaf, n => n = 0
  | node c l _ r, n => ∃ m, Balanced l m ∧ Balanced r m ∧ n = m + weight c

/-- With a subtree of black height `m` in the hole, the tree has black height `n`. -/
def FrameBalanced : List (Frame α) → Nat → Nat → Prop
  | [], m, n => m = n
  | f :: fs, m, n => Balanced f.other m ∧ FrameBalanced fs (m + weight f.color) n

/-- No red node has a red child. -/
def NoRedRed : ColorTree α → Prop
  | leaf => True
  | node c l _ r =>
    (c = .red → l.rootColor = .black ∧ r.rootColor = .black) ∧ NoRedRed l ∧ NoRedRed r

/-- The same for the frames, without the hole. -/
def FrameNoRedRed : List (Frame α) → Prop
  | [] => True
  | f :: fs => (f.color = .red → f.other.rootColor = .black ∧ parentColor fs = .black) ∧
      NoRedRed f.other ∧ FrameNoRedRed fs

theorem balanced_join {s : Side} {c : Color} {a b : ColorTree α} {x : α} {n : Nat} :
    Balanced (join s c a x b) n ↔ ∃ m, Balanced a m ∧ Balanced b m ∧ n = m + weight c := by
  cases s with
  | left => rfl
  | right =>
    constructor
    · rintro ⟨m, hb, ha, hn⟩
      exact ⟨m, ha, hb, hn⟩
    · rintro ⟨m, ha, hb, hn⟩
      exact ⟨m, hb, ha, hn⟩

theorem noRedRed_join {s : Side} {c : Color} {a b : ColorTree α} {x : α} :
    NoRedRed (join s c a x b) ↔
      (c = .red → a.rootColor = .black ∧ b.rootColor = .black) ∧ NoRedRed a ∧ NoRedRed b := by
  cases s with
  | left => simp [join, NoRedRed]
  | right =>
    simp only [join, NoRedRed]
    tauto

theorem Balanced.unique {t : ColorTree α} {m n : Nat} (hm : Balanced t m) (hn : Balanced t n) : m = n := by
  induction t generalizing m n with
  | leaf => exact hm.trans (Eq.symm hn)
  | node c l x r ihl _ =>
    obtain ⟨m', hl, _, rfl⟩ := hm
    obtain ⟨n', hl', _, rfl⟩ := hn
    rw [ihl hl hl']

theorem balanced_plug {fs : List (Frame α)} {t : ColorTree α} {n : Nat} :
    Balanced (plug fs t) n ↔ ∃ m, Balanced t m ∧ FrameBalanced fs m n := by
  induction fs generalizing t with
  | nil => simp [plug, FrameBalanced]
  | cons f fs ih =>
    rw [plug, ih]
    constructor
    · rintro ⟨m, hj, hfs⟩
      obtain ⟨m', ht, ho, rfl⟩ := balanced_join.1 hj
      exact ⟨m', ht, ho, hfs⟩
    · rintro ⟨m, ht, ho, hfs⟩
      exact ⟨_, balanced_join.2 ⟨m, ht, ho, rfl⟩, hfs⟩

theorem noRedRed_plug {fs : List (Frame α)} {t : ColorTree α} :
    NoRedRed (plug fs t) ↔
      NoRedRed t ∧ FrameNoRedRed fs ∧ (t.rootColor = .red → parentColor fs = .black) := by
  induction fs generalizing t with
  | nil => simp [plug, FrameNoRedRed, parentColor]
  | cons f fs ih =>
    rw [plug, ih, noRedRed_join, rootColor_join]
    simp only [FrameNoRedRed, parentColor]
    constructor
    · rintro ⟨⟨hcol, ht, ho⟩, hfs, hup⟩
      refine ⟨ht, ⟨fun hc => ⟨(hcol hc).2, hup hc⟩, ho, hfs⟩, fun htc => ?_⟩
      cases hc : f.color with
      | black => rfl
      | red => exact absurd ((hcol hc).1.symm.trans htc) (by simp)
    · rintro ⟨ht, ⟨hcol, ho, hfs⟩, htc⟩
      refine ⟨⟨fun hc => ⟨?_, (hcol hc).1⟩, ht, ho⟩, hfs, fun hc => (hcol hc).2⟩
      cases htc' : t.rootColor with
      | black => rfl
      | red => exact absurd ((htc htc').symm.trans hc) (by simp)

/-- The colours of a red-black tree: a black root, no red node with a red child, and as many black
    nodes on every way from the root to a leaf. -/
structure RedBlack (t : ColorTree α) : Prop where
  root : t.rootColor = .black
  noRedRed : NoRedRed t
  balanced : ∃ n, Balanced t n

theorem noRedRed_blacken {t : ColorTree α} (h : NoRedRed t) : NoRedRed t.blacken := by
  cases t with
  | leaf => trivial
  | node c l x r => exact ⟨by simp, h.2⟩

theorem balanced_blacken {t : ColorTree α} {n : Nat} (h : Balanced t n) : ∃ m, Balanced t.blacken m := by
  cases t with
  | leaf => exact ⟨n, h⟩
  | node c l x r =>
    obtain ⟨m, hl, hr, _⟩ := h
    exact ⟨m + 1, m, hl, hr, rfl⟩

/-- Blackening a red root adds one to the black height. -/
theorem balanced_blacken_red {t : ColorTree α} {n : Nat} (hc : t.rootColor = .red) (h : Balanced t n) :
    Balanced t.blacken (n + 1) := by
  cases t with
  | leaf => cases hc
  | node c l x r =>
    obtain ⟨m, hl, hr, hn⟩ := h
    rw [show c = .red from hc] at hn
    exact ⟨m, hl, hr, by rw [hn]; rfl⟩

theorem rootColor_blacken (t : ColorTree α) : t.blacken.rootColor = .black := by cases t <;> rfl

theorem blacken_of_black {t : ColorTree α} (h : t.rootColor = .black) : t.blacken = t := by
  cases t with
  | leaf => rfl
  | node c l x r => rw [blacken, ← show c = .black from h]

/-- A black node of a tree that has black height above zero. -/
theorem Balanced.exists_join {t : ColorTree α} {m : Nat} (h : Balanced t (m + 1)) (s : Side) :
    ∃ c a x b, t = join s c a x b := by
  cases t with
  | leaf => cases h
  | node c l x r =>
    obtain ⟨a, b, hab⟩ := ColorTree.exists_join s c l x r
    exact ⟨c, a, x, b, hab⟩

/-- Blackening the root repairs a red root. -/
theorem redBlack_blacken {t : ColorTree α} {n : Nat} (hred : NoRedRed t) (hbal : Balanced t n) :
    RedBlack t.blacken :=
  ⟨rootColor_blacken t, noRedRed_blacken hred, balanced_blacken hbal⟩

theorem rootColor_plug_cons (f : Frame α) (fs : List (Frame α)) (t t' : ColorTree α) :
    (plug (f :: fs) t).rootColor = (plug (f :: fs) t').rootColor := by
  induction fs generalizing f t t' with
  | nil => simp [plug]
  | cons g fs ih => exact ih g _ _

end ColorTree

end WeiOS.Lib
