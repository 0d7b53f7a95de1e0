import Mathlib
import WeiOS.Lib.RedBlack
import WeiOS.User.Krbtree

/-!
# Trees in Memory

The memory represents a tree if the fields of its nodes say what the tree says: colour, both children,
and the parent, which is `&T->nil` for the root. What is above a subtree is represented by its frames,
so that the effect of a pointer operation deep in a tree is stated for the subtree and the frames are
carried along.

## Main results
- `rep_plug_iff`: a tree with a hole is represented by the two parts.
- `Rep.rotate`: a rotation anywhere in the tree.
- `Rep.replace`, `Rep.setColor`: the other changes.
-/

namespace WeiOS.Krbtree

open WeiOS.Lib ColorTree

variable {α : Type*}

/-! ## §1 Representation -/

/-- The fields of the nodes of a subtree whose parent is `p`. -/
def RepAt (h : Mem α) : Option α → ColorTree α → Prop
  | _, .leaf => True
  | p, .node c l x r => h.color (some x) = c ∧ h.child .left (some x) = l.root ∧
      h.child .right (some x) = r.root ∧ h.parent (some x) = p ∧
      RepAt h (some x) l ∧ RepAt h (some x) r

/-- The fields of the nodes above a hole that is filled by `n`. -/
def RepFrames (h : Mem α) : Option α → List (Frame α) → Prop
  | n, [] => h.root = n
  | n, f :: fs => h.color (some f.node) = f.color ∧ h.child f.side (some f.node) = n ∧
      h.child f.side.other (some f.node) = f.other.root ∧
      h.parent (some f.node) = parentOf fs ∧ RepAt h (some f.node) f.other ∧
      RepFrames h (some f.node) fs

/-- The memory represents the tree, and no node occurs twice in it. -/
structure Rep (h : Mem α) (t : ColorTree α) : Prop where
  root : h.root = t.root
  nodes : RepAt h none t
  nodup : t.inorder.Nodup

section Rep

variable {h h' : Mem α} {s : Side} {c c' : Color} {a b d t t' : ColorTree α} {x y : α}
  {p n : Option α} {fs : List (Frame α)}

theorem repAt_join : RepAt h p (join s c a x b) ↔ h.color (some x) = c ∧
    h.child s (some x) = a.root ∧ h.child s.other (some x) = b.root ∧ h.parent (some x) = p ∧
    RepAt h (some x) a ∧ RepAt h (some x) b := by
  cases s with
  | left => rfl
  | right =>
    simp only [join, RepAt, Side.other]
    tauto

/-- Two memories agree on the fields of node `x`. -/
structure SameNode (h h' : Mem α) (x : α) : Prop where
  color : h'.color (some x) = h.color (some x)
  child : ∀ s, h'.child s (some x) = h.child s (some x)
  parent : h'.parent (some x) = h.parent (some x)

/-- **Frame rule**: a subtree depends on the fields of its own nodes only. -/
theorem RepAt.congr (hr : RepAt h p t) (hsame : ∀ x ∈ t.inorder, SameNode h h' x) :
    RepAt h' p t := by
  induction t generalizing p with
  | leaf => trivial
  | node c l x r ihl ihr =>
    obtain ⟨hc, hl, hr', hp, hrl, hrr⟩ := hr
    have hx := hsame x (by simp [inorder])
    exact ⟨hx.color.trans hc, (hx.child _).trans hl, (hx.child _).trans hr', hx.parent.trans hp,
      ihl hrl fun y hy => hsame y (by simp [inorder, hy]),
      ihr hrr fun y hy => hsame y (by simp [inorder, hy])⟩

/-- A subtree is hung below another parent: only the parent of its root has to change. -/
theorem RepAt.reparent (hr : RepAt h p t) (hnd : t.inorder.Nodup) (q : Option α)
    (hcolor : ∀ x ∈ t.inorder, h'.color (some x) = h.color (some x))
    (hchild : ∀ x ∈ t.inorder, ∀ s, h'.child s (some x) = h.child s (some x))
    (hroot : ∀ x, t.root = some x → h'.parent (some x) = q)
    (hparent : ∀ x ∈ t.inorder, t.root ≠ some x → h'.parent (some x) = h.parent (some x)) :
    RepAt h' q t := by
  cases t with
  | leaf => trivial
  | node c l x r =>
    obtain ⟨hc, hl, hr', _, hrl, hrr⟩ := hr
    obtain ⟨hxl, hxr, _⟩ := nodup_join (s := .left) (c := c).1 hnd
    have hx : x ∈ (node c l x r).inorder := by simp [inorder]
    refine ⟨(hcolor x hx).trans hc, (hchild x hx _).trans hl, (hchild x hx _).trans hr',
      hroot x rfl, hrl.congr fun y hy => ?_, hrr.congr fun y hy => ?_⟩
    · have hyt : y ∈ (node c l x r).inorder := by simp [inorder, hy]
      exact ⟨hcolor y hyt, hchild y hyt, hparent y hyt fun he => hxl (Option.some.inj he ▸ hy)⟩
    · have hyt : y ∈ (node c l x r).inorder := by simp [inorder, hy]
      exact ⟨hcolor y hyt, hchild y hyt, hparent y hyt fun he => hxr (Option.some.inj he ▸ hy)⟩

/-- **Frame rule** for what is above a hole. -/
theorem RepFrames.congr (hr : RepFrames h n fs) (hroot : h'.root = h.root)
    (hsame : ∀ x ∈ frameNodes fs, SameNode h h' x) : RepFrames h' n fs := by
  induction fs generalizing n with
  | nil => exact hroot.trans hr
  | cons f fs ih =>
    obtain ⟨hc, hn, ho, hp, hrep, hrest⟩ := hr
    have hx := hsame f.node (by simp [frameNodes])
    exact ⟨hx.color.trans hc, (hx.child _).trans hn, (hx.child _).trans ho, hx.parent.trans hp,
      hrep.congr fun y hy => hsame y (by simp [frameNodes, hy]),
      ih hrest fun y hy => hsame y (by simp [frameNodes, hy])⟩

/-- **A tree with a hole**: the frames know which node fills it, the subtree knows its parent. -/
theorem rep_plug_iff : h.root = (plug fs t).root ∧ RepAt h none (plug fs t) ↔
    RepAt h (parentOf fs) t ∧ RepFrames h t.root fs := by
  induction fs generalizing t with
  | nil => exact and_comm
  | cons f fs ih =>
    rw [plug, ih, repAt_join, root_join]
    simp only [parentOf, RepFrames]
    tauto

theorem Rep.at (hr : Rep h (plug fs t)) : RepAt h (parentOf fs) t :=
  (rep_plug_iff.1 ⟨hr.root, hr.nodes⟩).1

theorem Rep.frames (hr : Rep h (plug fs t)) : RepFrames h t.root fs :=
  (rep_plug_iff.1 ⟨hr.root, hr.nodes⟩).2

theorem rep_plug (hat : RepAt h (parentOf fs) t) (hfs : RepFrames h t.root fs)
    (hnd : (plug fs t).inorder.Nodup) : Rep h (plug fs t) := by
  obtain ⟨hroot, hnodes⟩ := rep_plug_iff.2 ⟨hat, hfs⟩
  exact ⟨hroot, hnodes, hnd⟩

theorem RepAt.parent (hr : RepAt h p t) (hx : t.root = some x) : h.parent (some x) = p := by
  cases t with
  | leaf => cases hx
  | node c l y r =>
    obtain rfl := Option.some.inj hx
    exact hr.2.2.2.1

/-- A hole on side `s` below a node is the only child of the node that is filled with `n`. -/
theorem RepFrames.child_eq_iff {f : Frame α} (hr : RepFrames h n (f :: fs)) (hne : f.other.root ≠ n)
    (s : Side) : n = h.child s (some f.node) ↔ f.side = s := by
  obtain ⟨_, hn, ho, _⟩ := hr
  rcases Side.eq_or_eq_other f.side s with rfl | rfl
  · simp [hn]
  · rw [ho]
    exact iff_of_false hne.symm (Side.ne_other _)

theorem RepFrames.parentColor (hr : RepFrames h n fs) (hnil : h.color none = .black) :
    h.color (parentOf fs) = parentColor fs := by
  cases fs with
  | nil => exact hnil
  | cons f fs => exact hr.1

theorem RepAt.rootColor (hr : RepAt h p t) (hnil : h.color none = .black) :
    h.color t.root = t.rootColor := by
  cases t with
  | leaf => exact hnil
  | node c l x r => exact hr.1

theorem Rep.congr (hr : Rep h t) (hroot : h'.root = h.root) (hsame : ∀ x ∈ t.inorder, SameNode h h' x) :
    Rep h' t :=
  ⟨hroot.trans hr.root, hr.nodes.congr hsame, hr.nodup⟩

/-- The memory represents one tree only. -/
theorem RepAt.unique {p' : Option α} (hr : RepAt h p t) (hr' : RepAt h p' t') (hroot : t.root = t'.root) :
    t = t' := by
  induction t generalizing t' p p' with
  | leaf =>
    cases t' with
    | leaf => rfl
    | node c' l' x' r' => cases hroot
  | node c l x r ihl ihr =>
    cases t' with
    | leaf => cases hroot
    | node c' l' x' r' =>
      obtain rfl := Option.some.inj hroot
      obtain ⟨hc, hl, hr, _, hrl, hrr⟩ := hr
      obtain ⟨hc', hl', hr', _, hrl', hrr'⟩ := hr'
      rw [ihl hrl hrl' (hl.symm.trans hl'), ihr hrr hrr' (hr.symm.trans hr'), ← hc, ← hc']

theorem ne_parentOf (hx : x ∉ frameNodes fs) : some x ≠ parentOf fs := by
  cases fs with
  | nil => simp [parentOf]
  | cons f fs =>
    rintro he
    exact hx (by simp [frameNodes, Option.some.inj he])

end Rep

/-- The keys stay, and so do the links of what is not among the nodes; `&T->nil` never is. -/
structure Keeps (h h' : Mem α) (nodes : List α) : Prop where
  key : h'.key = h.key
  child : ∀ z, (∀ x ∈ nodes, z ≠ some x) → ∀ s, h'.child s z = h.child s z
  parent : ∀ z, (∀ x ∈ nodes, z ≠ some x) → h'.parent z = h.parent z

theorem Keeps.refl (h : Mem α) (nodes : List α) : Keeps h h nodes :=
  ⟨rfl, fun _ _ _ => rfl, fun _ _ => rfl⟩

theorem Keeps.trans {h h' h'' : Mem α} {nodes : List α} (hk : Keeps h h' nodes)
    (hk' : Keeps h' h'' nodes) : Keeps h h'' nodes :=
  ⟨hk'.key.trans hk.key, fun z hz s => (hk'.child z hz s).trans (hk.child z hz s),
    fun z hz => (hk'.parent z hz).trans (hk.parent z hz)⟩

variable [DecidableEq α]

/-! ## §2 Field updates -/

section Fields

variable (h : Mem α) (n v : Option α) (s : Side) (c : Color)

@[simp] theorem setColor_color : (setColor h n c).color = Function.update h.color n c := rfl
@[simp] theorem setColor_child : (setColor h n c).child = h.child := rfl
@[simp] theorem setColor_parent : (setColor h n c).parent = h.parent := rfl
@[simp] theorem setColor_key : (setColor h n c).key = h.key := rfl
@[simp] theorem setColor_root : (setColor h n c).root = h.root := rfl

@[simp] theorem setParent_color : (setParent h n v).color = h.color := rfl
@[simp] theorem setParent_child : (setParent h n v).child = h.child := rfl
@[simp] theorem setParent_parent : (setParent h n v).parent = Function.update h.parent n v := rfl
@[simp] theorem setParent_key : (setParent h n v).key = h.key := rfl
@[simp] theorem setParent_root : (setParent h n v).root = h.root := rfl

@[simp] theorem setChild_color : (setChild h s n v).color = h.color := rfl
@[simp] theorem setChild_parent : (setChild h s n v).parent = h.parent := rfl
@[simp] theorem setChild_key : (setChild h s n v).key = h.key := rfl
@[simp] theorem setChild_root : (setChild h s n v).root = h.root := rfl

theorem setChild_child (s' : Side) (m : Option α) :
    (setChild h s n v).child s' m = if s' = s ∧ m = n then v else h.child s' m := by
  unfold setChild
  by_cases hs : s' = s
  · subst hs
    by_cases hm : m = n
    · subst hm
      simp
    · simp [hm]
  · simp [hs]

end Fields

theorem keeps_setColor (h : Mem α) (n : Option α) (c : Color) (nodes : List α) :
    Keeps h (setColor h n c) nodes := ⟨rfl, fun _ _ _ => rfl, fun _ _ => rfl⟩

/-! ## §3 The hole -/

section Hole

variable {h h' : Mem α} {s : Side} {c c' : Color} {a b d t t' : ColorTree α} {x y : α}
  {p n : Option α} {fs : List (Frame α)}

/-- The pointer to a hole becomes `v`. -/
def fill (h : Mem α) (fs : List (Frame α)) (v : Option α) : Mem α :=
  match fs with
  | [] => { h with root := v }
  | f :: _ => setChild h f.side (some f.node) v

@[simp] theorem fill_color (v : Option α) : (fill h fs v).color = h.color := by cases fs <;> rfl
@[simp] theorem fill_parent (v : Option α) : (fill h fs v).parent = h.parent := by cases fs <;> rfl
@[simp] theorem fill_key (v : Option α) : (fill h fs v).key = h.key := by cases fs <;> rfl

theorem fill_child (v : Option α) (m : Option α) (hm : m ≠ parentOf fs ∨ m = none) (s : Side) :
    (fill h fs v).child s m = h.child s m := by
  cases fs with
  | nil => rfl
  | cons f fs =>
    rw [fill, setChild_child, if_neg]
    rintro ⟨_, rfl⟩
    rcases hm with hm | hm
    · exact hm rfl
    · cases hm

/-- The test in `replaceChild` finds the hole. -/
theorem replaceChild_eq (hr : RepFrames h (some x) fs) (hx : x ∉ frameNodes fs) (v : Option α) :
    replaceChild h (parentOf fs) (some x) v = fill h fs v := by
  cases fs with
  | nil => rfl
  | cons f fs =>
    have hother : f.other.root ≠ some x := fun he => hx (by simp [frameNodes, root_mem_inorder he])
    rw [replaceChild, parentOf, if_neg (by simp)]
    cases hs : f.side with
    | left => rw [if_pos ((hr.child_eq_iff hother _).2 hs), fill, hs]
    | right =>
      rw [if_neg fun he => absurd ((hr.child_eq_iff hother _).1 he) (by simp [hs]), fill, hs]

theorem RepFrames.fill (hr : RepFrames h n fs) (hnd : (frameNodes fs).Nodup) (v : Option α) :
    RepFrames (fill h fs v) v fs := by
  cases fs with
  | nil => rfl
  | cons f fs =>
    obtain ⟨hc, hn, ho, hp, hrep, hrest⟩ := hr
    rw [frameNodes, List.nodup_cons, List.mem_append, not_or] at hnd
    obtain ⟨⟨hfo, hff⟩, _⟩ := hnd
    have hsame : ∀ y, y ≠ f.node → SameNode h (Krbtree.fill h (f :: fs) v) y := by
      intro y hy
      refine ⟨rfl, fun s => fill_child v _ (.inl ?_) s, rfl⟩
      simpa [parentOf] using hy
    refine ⟨hc, ?_, ?_, hp, hrep.congr fun y hy => hsame y ?_, hrest.congr rfl fun y hy => hsame y ?_⟩
    · simp [Krbtree.fill, setChild_child]
    · rw [Krbtree.fill, setChild_child, if_neg (by simp)]
      exact ho
    · rintro rfl
      exact hfo hy
    · rintro rfl
      exact hff hy

theorem fill_child_some (hx : x ∉ frameNodes fs) (v : Option α) (s : Side) :
    (fill h fs v).child s (some x) = h.child s (some x) :=
  fill_child v _ (.inl (ne_parentOf hx)) s

end Hole

/-! ## §4 Rotations -/

section Rotate

variable {h : Mem α} {s : Side} {c c' : Color} {a b d : ColorTree α} {x y : α} {fs : List (Frame α)}

theorem replaceChild_color (p n v : Option α) : (replaceChild h p n v).color = h.color := by
  unfold replaceChild
  split_ifs <;> rfl

theorem replaceChild_key (p n v : Option α) : (replaceChild h p n v).key = h.key := by
  unfold replaceChild
  split_ifs <;> rfl

@[simp] theorem rotate_color {n : Option α} : (rotate s h n).color = h.color := by
  simp only [rotate, setParent_color, setChild_color, replaceChild_color]
  split <;> rfl

@[simp] theorem rotate_key {n : Option α} : (rotate s h n).key = h.key := by
  simp only [rotate, setParent_key, setChild_key, replaceChild_key]
  split <;> rfl

/-- The pointers that a rotation of `x` and `y` moves. -/
structure Rotated (h h' : Mem α) (s : Side) (fs : List (Frame α)) (x y : α) (b : ColorTree α) : Prop where
  root : h'.root = (fill h fs (some y)).root
  child : ∀ s' z, h'.child s' z =
    if s' = s ∧ z = some y then some x
    else if s' = s.other ∧ z = some x then b.root
    else (fill h fs (some y)).child s' z
  parent : ∀ z, h'.parent z =
    if z = some x then some y
    else if z = some y then parentOf fs
    else if z ≠ none ∧ z = b.root then some x
    else h.parent z

/-- The memory when a rotation has moved the subtree between `x` and `y`. -/
def liftChild (h : Mem α) (s : Side) (x : α) (b : Option α) : Mem α :=
  let h := setChild h s.other (some x) b
  if b ≠ none then setParent h b (some x) else h

theorem liftChild_parent (h : Mem α) (s : Side) (x : α) (b z : Option α) :
    (liftChild h s x b).parent z = if z ≠ none ∧ z = b then some x else h.parent z := by
  unfold liftChild
  by_cases hb : b = none
  · subst hb
    simp
  · rw [if_pos hb]
    by_cases hz : z = b
    · simp [hz, hb]
    · simp [hz]

@[simp] theorem liftChild_child (h : Mem α) (s : Side) (x : α) (b : Option α) :
    (liftChild h s x b).child = (setChild h s.other (some x) b).child := by
  unfold liftChild
  split <;> rfl

@[simp] theorem liftChild_color (h : Mem α) (s : Side) (x : α) (b : Option α) :
    (liftChild h s x b).color = h.color := by
  unfold liftChild
  split <;> rfl

@[simp] theorem liftChild_root (h : Mem α) (s : Side) (x : α) (b : Option α) :
    (liftChild h s x b).root = h.root := by
  unfold liftChild
  split <;> rfl

theorem rotated (hr : Rep h (plug fs (join s c a x (join s c' b y d)))) :
    Rotated h (rotate s h (some x)) s fs x y b := by
  obtain ⟨_, _, hxy, hxp, _, hay⟩ := repAt_join.1 hr.at
  obtain ⟨_, hyb, _⟩ := repAt_join.1 hay
  rw [root_join] at hxy
  obtain ⟨hnd, hndf, hdis⟩ := nodup_plug.1 hr.nodup
  obtain ⟨hxa, hxj, _, hndj, _⟩ := nodup_join.1 hnd
  obtain ⟨hyb', _⟩ := nodup_join.1 hndj
  rw [mem_inorder_join, not_or, not_or] at hxj
  have hxney : x ≠ y := hxj.1
  have hxb : some x ≠ b.root := fun he => hxj.2.1 (root_mem_inorder he.symm)
  have hbf : ∀ z ∈ frameNodes fs, some z ≠ b.root := fun z hz he => hdis z (mem_inorder_join.2
    (.inr (.inr (mem_inorder_join.2 (.inr (.inl (root_mem_inorder he.symm))))))) hz
  have hxf : x ∉ frameNodes fs := hdis x (mem_inorder_join.2 (.inl rfl))
  have hyf : y ∉ frameNodes fs :=
    hdis y (mem_inorder_join.2 (.inr (.inr (mem_inorder_join.2 (.inl rfl)))))
  -- the memory when the rotation reaches the test for the place of `x`
  have hframes : RepFrames (setParent (liftChild h s x b.root) (some y) (parentOf fs)) (some x) fs := by
    have hfx := hr.frames
    rw [root_join] at hfx
    refine hfx.congr (liftChild_root ..) fun z hz => ?_
    have hzx : z ≠ x := fun he => hxf (he ▸ hz)
    have hzy : z ≠ y := fun he => hyf (he ▸ hz)
    exact ⟨by simp, fun s' => by simp [setChild_child, hzx], by
      simp [liftChild_parent, hzy, hbf z hz]⟩
  have heq : rotate s h (some x) = setParent (setChild (fill (setParent (liftChild h s x b.root) (some y)
      (parentOf fs)) fs (some y)) s (some y) (some x)) (some x) (some y) := by
    have hps : (setChild h s.other (some x) b.root).child s (some y) = b.root := by
      rw [setChild_child, if_neg (by simp [hxney.symm]), hyb]
    have hpx : (liftChild h s x b.root).parent (some x) = parentOf fs := by
      rw [liftChild_parent, if_neg (by simp [hxb]), hxp]
    have hpx' : (setParent (liftChild h s x b.root) (some y) (parentOf fs)).parent (some x) = parentOf fs := by
      simp [hxney, hpx]
    have h₂ : (if (setChild h s.other (some x) b.root).child s (some y) ≠ none
        then setParent (setChild h s.other (some x) b.root)
          ((setChild h s.other (some x) b.root).child s (some y)) (some x)
        else setChild h s.other (some x) b.root) = liftChild h s x b.root := by
      rw [hps]
      rfl
    simp only [rotate, hxy, hyb, h₂, hpx, hpx', replaceChild_eq hframes hxf]
  rw [heq]
  exact {
    root := by cases fs <;> simp [fill]
    child := by
      intro s' z
      rw [setParent_child, setChild_child]
      congr 1
      cases fs with
      | nil => simp [fill, setChild_child]
      | cons f fs =>
        have hxf' : x ≠ f.node := fun he => hxf (by simp [frameNodes, he])
        simp only [fill, setChild_child, setParent_child, liftChild_child]
        by_cases hz : z = some x
        · subst hz
          simp [hxf']
        · simp [hz]
    parent := by
      intro z
      simp only [setParent_parent, setChild_parent, fill_parent, Function.update_apply, liftChild_parent]
  }

/-- **A rotation anywhere in the tree.** -/
theorem Rep.rotate (hr : Rep h (plug fs (join s c a x (join s c' b y d)))) :
    Rep (rotate s h (some x)) (plug fs (join s c' (join s c a x b) y d)) := by
  have hrot := rotated hr
  obtain ⟨hcx, hxa, _, _, hra, hry⟩ := repAt_join.1 hr.at
  obtain ⟨hcy, _, hyd, _, hrb, hrd⟩ := repAt_join.1 hry
  obtain ⟨hnd, hndf, hdis⟩ := nodup_plug.1 hr.nodup
  obtain ⟨hxa', hxj, _, hndj, haj⟩ := nodup_join.1 hnd
  obtain ⟨hyb, hyd', hndb, _, hbd⟩ := nodup_join.1 hndj
  simp only [mem_inorder_join, not_or] at hxj haj
  have hxf : x ∉ frameNodes fs := hdis x (by simp [mem_inorder_join])
  have hyf : y ∉ frameNodes fs := hdis y (by simp [mem_inorder_join])
  have hbf : ∀ z ∈ b.inorder, z ∉ frameNodes fs := fun z hz => hdis z (by simp [mem_inorder_join, hz])
  -- a node other than `x`, `y`, the root of `b` and the parent of the hole
  have hsame : ∀ z, z ≠ x → z ≠ y → z ∉ b.inorder → z ∉ frameNodes fs →
      SameNode h (Krbtree.rotate s h (some x)) z := by
    intro z hzx hzy hzb hzf
    refine ⟨congrFun rotate_color _, fun s' => ?_, ?_⟩
    · rw [hrot.child, if_neg (by simp [hzy]), if_neg (by simp [hzx]), fill_child_some hzf]
    · rw [hrot.parent, if_neg (by simp [hzx]), if_neg (by simp [hzy]), if_neg]
      exact fun he => hzb (root_mem_inorder he.2.symm)
  refine rep_plug (repAt_join.2 ⟨(congrFun rotate_color _).trans hcy, ?_, ?_, ?_,
    repAt_join.2 ⟨(congrFun rotate_color _).trans hcx, ?_, ?_, ?_, ?_, ?_⟩, ?_⟩) ?_ ?_
  · rw [hrot.child, if_pos ⟨rfl, rfl⟩, root_join]
  · rw [hrot.child, if_neg (by simp), if_neg (by simp [Ne.symm hxj.1]), fill_child_some hyf, hyd]
  · rw [hrot.parent, if_neg (by simp [Ne.symm hxj.1]), if_pos rfl]
  · rw [hrot.child, if_neg (by simp [hxj.1]), if_neg (by simp), fill_child_some hxf, hxa]
  · rw [hrot.child, if_neg (by simp), if_pos ⟨rfl, rfl⟩]
  · rw [hrot.parent, if_pos rfl]
  -- of the subtrees, `a` and `d` stay as they are, and `b` gets a new parent
  · refine hra.congr fun z hz => hsame z ?_ ?_ ?_ (hdis z (by simp [mem_inorder_join, hz]))
    · rintro rfl
      exact hxa' hz
    · exact fun he => (haj z hz).1 he
    · exact fun hzb => (haj z hz).2.1 hzb
  · refine hrb.reparent hndb _ (fun z _ => congrFun rotate_color _) (fun z hz s' => ?_) (fun z hz => ?_)
      fun z hz hroot => ?_
    · rw [hrot.child, if_neg, if_neg, fill_child_some (hbf z hz)]
      · rintro ⟨_, he⟩
        exact hxj.2.1 (Option.some.inj he ▸ hz)
      · rintro ⟨_, he⟩
        exact hyb (Option.some.inj he ▸ hz)
    · rw [hrot.parent, if_neg, if_neg, if_pos ⟨by simp, hz.symm⟩]
      · rintro he
        exact hyb (Option.some.inj he ▸ root_mem_inorder hz)
      · rintro he
        exact hxj.2.1 (Option.some.inj he ▸ root_mem_inorder hz)
    · rw [hrot.parent, if_neg, if_neg, if_neg fun he => hroot he.2.symm]
      · rintro he
        exact hyb (Option.some.inj he ▸ hz)
      · rintro he
        exact hxj.2.1 (Option.some.inj he ▸ hz)
  · refine hrd.congr fun z hz => hsame z ?_ ?_ ?_ (hdis z (by simp [mem_inorder_join, hz]))
    · rintro rfl
      exact hxj.2.2 hz
    · rintro rfl
      exact hyd' hz
    · exact fun hzb => hbd z hzb hz
  -- the frames: the pointer to the hole is `y` now
  · rw [root_join]
    refine (hr.frames.fill hndf (some y)).congr hrot.root fun z hz => ?_
    have hzx : z ≠ x := fun he => hxf (he ▸ hz)
    have hzy : z ≠ y := fun he => hyf (he ▸ hz)
    refine ⟨by rw [rotate_color, fill_color], fun s' => ?_, ?_⟩
    · rw [hrot.child, if_neg (by simp [hzy]), if_neg (by simp [hzx])]
    · rw [hrot.parent, if_neg (by simp [hzx]), if_neg (by simp [hzy]), if_neg, fill_parent]
      exact fun he => hbf z (root_mem_inorder he.2.symm) hz
  · rw [inorder_plug_congr (inorder_rotate ..)]
    exact hr.nodup

theorem Rep.rotate_keeps (hr : Rep h (plug fs (join s c a x (join s c' b y d)))) :
    Keeps h (Krbtree.rotate s h (some x)) (plug fs (join s c a x (join s c' b y d))).inorder := by
  have hrot := rotated hr
  refine ⟨rotate_key, fun z hz s' => ?_, fun z hz => ?_⟩
  · have hzf : z ≠ parentOf fs ∨ z = none := by
      cases fs with
      | nil => exact Classical.or_iff_not_imp_left.2 fun he => by simpa [parentOf] using he
      | cons f fs => exact .inl (hz f.node (mem_inorder_plug.2 (.inr (by simp [frameNodes]))))
    rw [hrot.child, if_neg, if_neg, fill_child _ _ hzf]
    · exact fun he => hz x (mem_inorder_plug.2 (.inl (by simp [mem_inorder_join]))) he.2
    · exact fun he => hz y (mem_inorder_plug.2 (.inl (by simp [mem_inorder_join]))) he.2
  · rw [hrot.parent, if_neg, if_neg, if_neg]
    · rintro ⟨hne, he⟩
      obtain ⟨w, rfl⟩ := Option.ne_none_iff_exists'.1 hne
      exact hz w (mem_inorder_plug.2 (.inl (by simp [mem_inorder_join, root_mem_inorder he.symm]))) rfl
    · exact hz y (mem_inorder_plug.2 (.inl (by simp [mem_inorder_join])))
    · exact hz x (mem_inorder_plug.2 (.inl (by simp [mem_inorder_join])))

end Rotate

/-! ## §5 Colours -/

section Colours

variable {h : Mem α} {s : Side} {c c' : Color} {a b t : ColorTree α} {x : α} {p : Option α}
  {fs : List (Frame α)}

/-- **A node anywhere in the tree is recoloured.** -/
theorem Rep.setColor (hr : Rep h (plug fs (join s c a x b))) (c' : Color) :
    Rep (setColor h (some x) c') (plug fs (join s c' a x b)) := by
  obtain ⟨_, hxa, hxb, hp, hra, hrb⟩ := repAt_join.1 hr.at
  obtain ⟨hnd, hndf, hdis⟩ := nodup_plug.1 hr.nodup
  obtain ⟨hxa', hxb', _⟩ := nodup_join.1 hnd
  have hsame : ∀ z, z ≠ x → SameNode h (Krbtree.setColor h (some x) c') z := fun z hz =>
    ⟨by simp [hz], fun _ => rfl, rfl⟩
  refine rep_plug (repAt_join.2 ⟨by simp, hxa, hxb, hp, hra.congr fun z hz => hsame z ?_,
    hrb.congr fun z hz => hsame z ?_⟩) ?_ ?_
  · exact fun he => hxa' (he ▸ hz)
  · exact fun he => hxb' (he ▸ hz)
  · have hfs := hr.frames
    rw [root_join] at hfs ⊢
    exact hfs.congr rfl fun z hz => hsame z fun he => hdis x (by simp [mem_inorder_join]) (he ▸ hz)
  · rw [inorder_plug_congr (inorder_recolor ..)]
    exact hr.nodup

/-- The root of a subtree is blackened; for a leaf that is `&T->nil`, which is black. -/
theorem Rep.blacken (hr : Rep h (plug fs t)) (hnil : h.color none = .black) :
    Rep (Krbtree.setColor h t.root .black) (plug fs t.blacken) := by
  cases t with
  | leaf =>
    have heq : Krbtree.setColor h none .black = h := by
      rw [Krbtree.setColor, ← hnil, Function.update_eq_self]
    rwa [ColorTree.root, heq]
  | node c l x r => exact Rep.setColor (s := .left) hr .black

end Colours

/-! ## §6 Rearrangements -/

/-- The tree changes its shape and its colours: its nodes stay in order, and nothing else is touched. -/
structure Rearranged (h h' : Mem α) (t t' : ColorTree α) : Prop where
  rep : Rep h' t'
  inorder : t'.inorder = t.inorder
  nil : h'.color none = h.color none
  keeps : Keeps h h' t.inorder

section Rearranged

variable {h h' h'' : Mem α} {s : Side} {c c' : Color} {a b d t t' t'' : ColorTree α} {x y : α}
  {fs : List (Frame α)}

omit [DecidableEq α] in
theorem Rearranged.trans (hr : Rearranged h h' t t') (hr' : Rearranged h' h'' t' t'') :
    Rearranged h h'' t t'' :=
  ⟨hr'.rep, hr'.inorder.trans hr.inorder, hr'.nil.trans hr.nil, hr.keeps.trans (hr.inorder ▸ hr'.keeps)⟩

omit [DecidableEq α] in
/-- The parent of a hole, also if `&T->nil` fills it. -/
theorem Rearranged.hole_parent (hr : Rearranged h h' t (plug fs t'))
    (hp : h.parent t'.root = parentOf fs) : h'.parent t'.root = parentOf fs := by
  cases hroot : t'.root with
  | none =>
    rw [hroot] at hp
    rw [hr.keeps.parent none fun x _ => by simp, hp]
  | some x => exact RepAt.parent hr.rep.at hroot

theorem Rep.rearranged_rotate (hr : Rep h (plug fs (join s c a x (join s c' b y d)))) :
    Rearranged h (Krbtree.rotate s h (some x)) (plug fs (join s c a x (join s c' b y d)))
      (plug fs (join s c' (join s c a x b) y d)) :=
  ⟨hr.rotate, inorder_plug_congr (inorder_rotate ..), by rw [rotate_color], hr.rotate_keeps⟩

theorem Rep.rearranged_setColor (hr : Rep h (plug fs (join s c a x b))) (c' : Color) :
    Rearranged h (Krbtree.setColor h (some x) c') (plug fs (join s c a x b)) (plug fs (join s c' a x b)) :=
  ⟨hr.setColor c', inorder_plug_congr (inorder_recolor ..), by simp, keeps_setColor ..⟩

theorem Rep.rearranged_blacken (hr : Rep h (plug fs t)) (hnil : h.color none = .black) :
    Rearranged h (Krbtree.setColor h t.root .black) (plug fs t) (plug fs t.blacken) := by
  refine ⟨hr.blacken hnil, inorder_plug_congr (inorder_blacken t), ?_, keeps_setColor ..⟩
  rw [setColor_color, Function.update_apply, hnil]
  exact ite_self _

end Rearranged

end WeiOS.Krbtree
