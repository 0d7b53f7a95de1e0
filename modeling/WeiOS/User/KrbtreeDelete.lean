import Mathlib
import WeiOS.Lib.RedBlack
import WeiOS.User.Krbtree
import WeiOS.User.KrbtreeRep
import WeiOS.User.KrbtreeInsert

/-!
# Deletion from Red-Black Trees

`RBTreeDeleteNode` takes a node out of the tree, and if a black one is missing then,
`RBTreeDeleteFixup` climbs from there. The links stay a tree in every case. The colours do not: in the
left half of the loop the last case makes the sibling red where the right half gives it the colour of
the parent.

## Main results
- `deleteCases_up`, `deleteCases_last`: the rest of a round with a black sibling.
- `RBTreeDeleteFixup_spec`: the loop ends with the nodes in order, and it repairs the colours unless
  the climb ends in the case that is wrong.
- `RBTreeDeleteNode_removes`: deletion removes exactly one node.
- `RBTreeDeleteNode_redBlack_iff`: when the result is a red-black tree.
-/

set_option linter.style.nameCheck false

namespace WeiOS.Krbtree

open WeiOS.Lib ColorTree

variable {α : Type*} [DecidableEq α]

/-! ## §1 One round -/

section Round

variable {h : Mem α} {s : Side} {c : Color} {a b t : ColorTree α} {p w : α} {fs : List (Frame α)} {m : Nat}

/-- The state before a round of `RBTreeDeleteFixup`: below the hole a black node is missing. The parent
    of the node is also set if it is `&T->nil`. -/
structure FixInv (h : Mem α) (fs : List (Frame α)) (t : ColorTree α) : Prop where
  rep : Rep h (plug fs t)
  parent : h.parent t.root = parentOf fs
  nil : h.color none = .black
  noRedRed : NoRedRed t.blacken
  frames : FrameNoRedRed fs
  top : (plug fs leaf).rootColor = .black
  balanced : ∃ m k, Balanced t m ∧ FrameBalanced fs (m + 1) k

omit [DecidableEq α] in
/-- The pointers of a hole with its sibling. -/
theorem sibling_pointers (hr : Rep h (plug (⟨s, c, p, join s .black a w b⟩ :: fs) t))
    (hnil : h.color none = .black) :
    h.child s.other (some p) = some w ∧ h.child s (some w) = a.root ∧
      h.child s.other (some w) = b.root ∧ h.color a.root = a.rootColor ∧ h.color b.root = b.rootColor := by
  obtain ⟨_, _, hpw, _, hrw, _⟩ := hr.frames
  obtain ⟨_, hwa, hwb, _, hra, hrb⟩ := repAt_join.1 hrw
  exact ⟨hpw.trans (root_join ..), hwa, hwb, hra.rootColor hnil, hrb.rootColor hnil⟩

/-- **No red nephew**: the sibling becomes red, and the missing node moves up. -/
theorem deleteCases_up (hinv : FixInv h (⟨s, c, p, join s .black a w b⟩ :: fs) t)
    (ht : t.rootColor = .black) (ha : a.rootColor = .black) (hb : b.rootColor = .black) :
    ∃ h', deleteCases s h t.root (some w) = (h', some p) ∧
      FixInv h' fs (join s c t p (join s .red a w b)) ∧
      Rearranged h h' (plug (⟨s, c, p, join s .black a w b⟩ :: fs) t)
        (plug fs (join s c t p (join s .red a w b))) := by
  obtain ⟨_, hwa, hwb, hca, hcb⟩ := sibling_pointers hinv.rep hinv.nil
  have hr := hinv.rep
  rw [plug_swap] at hr
  have hre : Rearranged h (setColor h (some w) .red) (plug (⟨s, c, p, join s .black a w b⟩ :: fs) t)
      (plug (⟨s, c, p, join s .red a w b⟩ :: fs) t) := by
    rw [plug_swap, plug_swap s c p t (join s .red a w b)]
    exact hr.rearranged_setColor .red
  have hcases : deleteCases s h t.root (some w) = (setColor h (some w) .red, some p) := by
    rw [deleteCases, hwa, hwb, hca, hcb, if_pos ⟨ha, hb⟩]
    exact Prod.ext rfl hinv.parent
  have hrep : Rep (setColor h (some w) .red) (plug fs (join s c t p (join s .red a w b))) := hre.rep
  obtain ⟨hcol, hw, hframes⟩ := hinv.frames
  obtain ⟨_, hna, hnb⟩ := noRedRed_join.1 hw
  obtain ⟨m, k, hbt, hbw, hbfs⟩ := hinv.balanced
  obtain ⟨m', hba, hbb, hm⟩ := balanced_join.1 hbw
  obtain rfl : m = m' := Nat.succ.inj hm
  -- the subtree of the parent has one black node less on both sides now
  refine ⟨_, hcases, ⟨hrep, ?_, hre.nil.trans hinv.nil, ?_, hframes, top_of_cons hinv.top, m + weight c, k,
    balanced_join.2 ⟨m, hbt, balanced_join.2 ⟨m, hba, hbb, rfl⟩, rfl⟩, ?_⟩, hre⟩
  · rw [root_join]
    exact RepAt.parent hrep.at (root_join ..)
  · rw [blacken_join]
    refine noRedRed_join.2 ⟨by simp, ?_, noRedRed_join.2 ⟨fun _ => ⟨ha, hb⟩, hna, hnb⟩⟩
    exact blacken_of_black ht ▸ hinv.noRedRed
  · rw [Nat.add_right_comm]
    exact hbfs

/-- **Near nephew red**: a rotation of the sibling makes the far nephew red. -/
theorem rearranged_near {a₁ a₂ : ColorTree α} {z : α}
    (hr : Rep h (plug (⟨s, c, p, join s .black (join s .red a₁ z a₂) w b⟩ :: fs) t)) :
    Rearranged h (rotate s.other (setColor (setColor h (some z) .black) (some w) .red) (some w))
      (plug (⟨s, c, p, join s .black (join s .red a₁ z a₂) w b⟩ :: fs) t)
      (plug (⟨s, c, p, join s .black a₁ z (join s .red a₂ w b)⟩ :: fs) t) := by
  rw [plug_swap] at hr ⊢
  rw [plug_swap s c p t]
  have hz : Rearranged h (setColor h (some z) .black)
      (plug (⟨s.other, c, p, t⟩ :: fs) (join s .black (join s .red a₁ z a₂) w b))
      (plug (⟨s.other, c, p, t⟩ :: fs) (join s .black (join s .black a₁ z a₂) w b)) := by
    have hr' : Rep h (plug (⟨s, .black, w, b⟩ :: ⟨s.other, c, p, t⟩ :: fs) (join s .red a₁ z a₂)) := hr
    exact hr'.rearranged_setColor .black
  have hw := hz.rep.rearranged_setColor .red
  -- the rotation is about the other side, for which `join` is turned around
  have hrot := hw.rep
  rw [← join_other s .red, ← join_other s .black] at hrot
  have hlast := hrot.rearranged_rotate
  rw [join_other s .red, join_other s .black, join_other s .red, join_other s .black] at hlast
  exact (hz.trans hw).trans hlast

/-- **Far nephew red**: the sibling takes the place of the parent. -/
theorem rearranged_far (hr : Rep h (plug (⟨s, c, p, join s .black a w b⟩ :: fs) t))
    (hnil : h.color none = .black) (hp : h.parent t.root = some p) :
    Rearranged h (deleteLast s h t.root (some w)) (plug (⟨s, c, p, join s .black a w b⟩ :: fs) t)
      (plug fs (join s (siblingColor s c) (join s .black t p a) w b.blacken)) := by
  obtain ⟨c', hc'⟩ : ∃ c', c' = siblingColor s c := ⟨_, rfl⟩
  rw [← hc']
  have heq : deleteLast s h t.root (some w) =
      rotate s (setColor (setColor (setColor h (some w) c') (some p) .black) b.root .black) (some p) := by
    obtain ⟨_, _, hwb, _⟩ := sibling_pointers hr hnil
    have hpc : h.color (some p) = c := hr.frames.1
    simp only [deleteLast, hp, hpc, ← hc', setColor_parent, setColor_child, hwb]
  rw [heq]
  have hw : Rearranged h (setColor h (some w) c') (plug (⟨s, c, p, join s .black a w b⟩ :: fs) t)
      (plug fs (join s c t p (join s c' a w b))) := by
    rw [plug_swap] at hr
    have hw := hr.rearranged_setColor c'
    rw [← plug_swap, ← plug_swap] at hw
    exact hw
  have hp := hw.rep.rearranged_setColor .black
  -- the far nephew lies below two frames, that of the sibling and that of the parent
  have hb : Rearranged (setColor (setColor h (some w) c') (some p) .black)
      (setColor (setColor (setColor h (some w) c') (some p) .black) b.root .black)
      (plug fs (join s .black t p (join s c' a w b)))
      (plug fs (join s .black t p (join s c' a w b.blacken))) := by
    have hrep := hp.rep
    have hplug : ∀ d : ColorTree α, plug fs (join s .black t p (join s c' a w d)) =
        plug (⟨s.other, c', w, a⟩ :: ⟨s.other, .black, p, t⟩ :: fs) d := fun d => by
      rw [plug, plug, join_other, join_other]
    rw [hplug] at hrep ⊢
    rw [hplug]
    exact hrep.rearranged_blacken (hp.nil.trans (hw.nil.trans hnil))
  exact ((hw.trans hp).trans hb).trans hb.rep.rearranged_rotate

omit [DecidableEq α] in
/-- **The colours after the last case**: they are right unless the left half makes the sibling red where
    the parent was black, and there is a tree above. -/
theorem redBlack_last {k : Nat} (htn : NoRedRed t) (han : NoRedRed a) (hbn : NoRedRed b)
    (hb : b.rootColor = .red) (hbt : Balanced t m) (hba : Balanced a m) (hbb : Balanced b m)
    (hframes : FrameNoRedRed fs) (hcol : c = .red → parentColor fs = .black)
    (hbfs : FrameBalanced fs (m + 1 + weight c) k) (htop : (plug fs leaf).rootColor = .black) :
    RedBlack (plug fs (join s (siblingColor s c) (join s .black t p a) w b.blacken)).blacken ↔
      ¬ (s = .left ∧ c = .black ∧ fs ≠ []) := by
  have hbal : ∀ c', Balanced (join s c' (join s .black t p a) w b.blacken) (m + 1 + weight c') := fun c' =>
    balanced_join.2 ⟨m + 1, balanced_join.2 ⟨m, hbt, hba, rfl⟩, balanced_blacken_red hb hbb, rfl⟩
  have hred : ∀ c', NoRedRed (join s c' (join s .black t p a) w b.blacken) := fun c' =>
    noRedRed_join.2 ⟨fun _ => ⟨rootColor_join .., rootColor_blacken b⟩,
      noRedRed_join.2 ⟨by simp, htn, han⟩, noRedRed_blacken hbn⟩
  cases fs with
  | nil => exact iff_of_true (redBlack_blacken (hred _) (hbal _)) (by simp)
  | cons f fs =>
    by_cases hc : siblingColor s c = c
    · refine iff_of_true ?_ ?_
      · rw [hc]
        refine redBlack_blacken (noRedRed_plug.2 ⟨hred c, hframes, ?_⟩) (balanced_plug.2 ⟨_, hbal c, hbfs⟩)
        rwa [rootColor_join]
      · rintro ⟨rfl, rfl, _⟩
        cases hc
    · obtain ⟨rfl, rfl⟩ : s = .left ∧ c = .black := by
        cases s <;> cases c <;> simp [siblingColor] at hc ⊢
      refine iff_of_false (fun hrb => ?_) (by simp)
      -- the subtree has one black node too few for what is above it
      rw [blacken_of_black ((rootColor_plug_cons ..).trans htop)] at hrb
      obtain ⟨k', hk'⟩ := hrb.balanced
      obtain ⟨m', hm', hbfs'⟩ := balanced_plug.1 hk'
      have heq : m + 1 + weight .black = m + 1 + weight .red :=
        (hbfs.1.unique hbfs'.1).trans (hm'.unique (hbal .red))
      simp [weight] at heq

/-- **A red nephew**: the round ends at the root. -/
theorem deleteCases_last (hinv : FixInv h (⟨s, c, p, join s .black a w b⟩ :: fs) t)
    (ht : t.rootColor = .black) (hab : ¬ (a.rootColor = .black ∧ b.rootColor = .black)) :
    ∃ h' t', deleteCases s h t.root (some w) = (h', h'.root) ∧
      Rearranged h h' (plug (⟨s, c, p, join s .black a w b⟩ :: fs) t) t' ∧
      (RedBlack t'.blacken ↔ ¬ (s = .left ∧ c = .black ∧ fs ≠ [])) := by
  obtain ⟨hpw, hwa, hwb, hca, hcb⟩ := sibling_pointers hinv.rep hinv.nil
  obtain ⟨hcol, hw, hframes⟩ := hinv.frames
  obtain ⟨_, hna, hnb⟩ := noRedRed_join.1 hw
  obtain ⟨m, k, hbt, hbw, hbfs⟩ := hinv.balanced
  obtain ⟨m', hba, hbb, hm⟩ := balanced_join.1 hbw
  obtain rfl : m = m' := Nat.succ.inj hm
  have htn : NoRedRed t := blacken_of_black ht ▸ hinv.noRedRed
  have hpc : h.color (some p) = c := hinv.rep.frames.1
  have htop := top_of_cons hinv.top
  have hp : h.parent t.root = some p := hinv.parent
  cases hb : b.rootColor with
  | red =>
    -- the far nephew is red already
    refine ⟨_, _, ?_, rearranged_far hinv.rep hinv.nil hp,
      redBlack_last htn hna hnb hb hbt hba hbb hframes (fun hc => (hcol hc).2) hbfs htop⟩
    rw [deleteCases, hwa, hwb, hca, hcb, if_neg hab, if_neg (by simp [hb])]
  | black =>
    have ha : a.rootColor = .red := by
      cases ha : a.rootColor with
      | red => rfl
      | black => exact absurd ⟨ha, hb⟩ hab
    obtain ⟨a₁, z, a₂, rfl⟩ : ∃ a₁ z a₂, a = join s .red a₁ z a₂ := by
      cases a with
      | leaf => cases ha
      | node ca l z r =>
        obtain rfl : ca = .red := ha
        obtain ⟨a₁, a₂, hj⟩ := exists_join s .red l z r
        exact ⟨a₁, z, a₂, hj⟩
    have hnear := rearranged_near hinv.rep
    obtain ⟨h₁, hh₁⟩ : ∃ h₁, h₁ =
        rotate s.other (setColor (setColor h (some z) .black) (some w) .red) (some w) := ⟨_, rfl⟩
    rw [← hh₁] at hnear
    have hnil₁ : h₁.color none = .black := hnear.nil.trans hinv.nil
    have hp₁ : h₁.parent t.root = some p := hnear.hole_parent hinv.parent
    obtain ⟨hpz, _⟩ := sibling_pointers hnear.rep hnil₁
    obtain ⟨m', hba₁, hba₂, hm'⟩ := balanced_join.1 hba
    obtain rfl : m = m' := hm'
    obtain ⟨hred, hna₁, hna₂⟩ := noRedRed_join.1 hna
    refine ⟨_, _, ?_, hnear.trans (rearranged_far hnear.rep hnil₁ hp₁),
      redBlack_last htn hna₁ (noRedRed_join.2 ⟨fun _ => ⟨(hred rfl).2, hb⟩, hna₂, hnb⟩) (rootColor_join ..)
        hbt hba₁ (balanced_join.2 ⟨m, hba₂, hbb, rfl⟩) hframes (fun hc => (hcol hc).2) hbfs htop⟩
    rw [deleteCases, hwa, hwb, hca, hcb, if_neg hab, if_pos hb]
    simp only [root_join, ← hh₁, hp₁, hpz]

end Round

/-! ## §2 The loop -/

section Loop

variable {h h' : Mem α} {s : Side} {c c' : Color} {a b t : ColorTree α} {p w : α} {fs : List (Frame α)}

/-- The climb from a hole, with the colour of what fills it, ends in the case that is wrong: it passes
    black parents with a black sibling and two black nephews, up to the left child of a black node that is
    not the root and whose other child is black and has a red child. -/
def Slips : List (Frame α) → Color → Prop
  | f :: fs, .black => match f.other with
    | .node .black l _ r =>
      if l.rootColor = .black ∧ r.rootColor = .black then Slips fs f.color
      else f.side = .left ∧ f.color = .black ∧ fs ≠ []
    | _ => False
  | _, _ => False

omit [DecidableEq α] in
theorem slips_black : Slips (⟨s, c, p, join s .black a w b⟩ :: fs) .black ↔
    if a.rootColor = .black ∧ b.rootColor = .black then Slips fs c
    else s = .left ∧ c = .black ∧ fs ≠ [] := by
  cases s with
  | left => rfl
  | right =>
    exact iff_of_eq (if_congr and_comm rfl rfl)

omit [DecidableEq α] in
theorem not_slips_red : ¬ Slips (⟨s, c, p, join s .red a w b⟩ :: fs) c' := by
  cases s <;> cases c' <;> simp [Slips, join]

omit [DecidableEq α] in
theorem not_slips_of_red : ¬ Slips fs .red := by
  cases fs <;> simp [Slips]

/-- A red node takes the missing black, and so does the root. -/
theorem fixup_exit (hinv : FixInv h fs t) (hexit : fs = [] ∨ t.rootColor = .red) :
    ∃ h', (∃ k, ∀ fuel ≥ k, RBTreeDeleteFixup fuel h t.root = some h') ∧
      Rearranged h h' (plug fs t) (plug fs t.blacken) ∧ RedBlack (plug fs t.blacken) := by
  refine ⟨_, ⟨1, fun fuel hfuel => ?_⟩, hinv.rep.rearranged_blacken hinv.nil, ?_⟩
  · obtain ⟨m, rfl⟩ : ∃ m, fuel = m + 1 := ⟨fuel - 1, by omega⟩
    rw [RBTreeDeleteFixup, if_neg]
    rintro ⟨hroot, hcol⟩
    rcases hexit with rfl | hred
    · exact hroot hinv.rep.root.symm
    · rw [hinv.rep.at.rootColor hinv.nil, hred] at hcol
      cases hcol
  · obtain ⟨m, k, hbt, hbfs⟩ := hinv.balanced
    have hblack := rootColor_blacken t
    rcases hexit with rfl | hred
    · exact ⟨hblack, hinv.noRedRed, balanced_blacken hbt⟩
    · refine ⟨?_, noRedRed_plug.2 ⟨hinv.noRedRed, hinv.frames, fun hc => ?_⟩, k,
        balanced_plug.2 ⟨m + 1, balanced_blacken_red hred hbt, hbfs⟩⟩
      · cases fs with
        | nil => exact hblack
        | cons f fs => exact (rootColor_plug_cons ..).trans hinv.top
      · exact absurd (hblack.symm.trans hc) (by simp)

/-- A round that ends at the root is the last. -/
theorem fixup_root (hr : Rep h t) (hnil : h.color none = .black) :
    ∃ h', (∀ fuel ≥ 1, RBTreeDeleteFixup fuel h h.root = some h') ∧ Rearranged h h' t t.blacken := by
  have hplug : Rep h (plug [] t) := hr
  refine ⟨setColor h t.root .black, fun fuel hfuel => ?_, hplug.rearranged_blacken hnil⟩
  obtain ⟨m, rfl⟩ : ∃ m, fuel = m + 1 := ⟨fuel - 1, by omega⟩
  rw [RBTreeDeleteFixup, if_neg (by simp), hr.root]

/-- The test of the loop, and the test that chooses its half. -/
theorem fixup_step (hinv : FixInv h (⟨s, c, p, join s c' a w b⟩ :: fs) t) (ht : t.rootColor = .black)
    (m : Nat) : RBTreeDeleteFixup (m + 1) h t.root =
      RBTreeDeleteFixup m (deleteRound s h t.root).1 (deleteRound s h t.root).2 := by
  have hdis := (nodup_plug.1 hinv.rep.nodup).2.2
  have hroot : t.root ≠ h.root := by
    intro he
    obtain ⟨x, hx, hxr⟩ := root_plug_mem ⟨s, c, p, join s c' a w b⟩ fs t
    rw [hinv.rep.root, hxr] at he
    exact hdis x (root_mem_inorder he) hx
  have hne : (join s c' a w b).root ≠ t.root := by
    rw [root_join]
    exact fun he => hdis w (root_mem_inorder he.symm) (by simp [frameNodes, mem_inorder_join])
  have hp : h.parent t.root = some p := hinv.parent
  have hside : (if t.root = h.child .left (h.parent t.root) then Side.left else Side.right) = s := by
    have hchild := hinv.rep.frames.child_eq_iff hne .left
    rw [hp]
    cases s with
    | left => exact if_pos (hchild.2 rfl)
    | right => exact if_neg fun he => absurd (hchild.1 he) (by simp)
  rw [RBTreeDeleteFixup, if_pos ⟨hroot, (hinv.rep.at.rootColor hinv.nil).trans ht⟩, hside]

/-- A red sibling is rotated away: the hole is then below a red node with a black sibling. -/
theorem deleteSibling_red (hinv : FixInv h (⟨s, c, p, join s .red a w b⟩ :: fs) t) :
    ∃ h' w', deleteSibling s h t.root = (h', some w') ∧
      FixInv h' (⟨s, .red, p, a⟩ :: ⟨s, .black, w, b⟩ :: fs) t ∧
      Rearranged h h' (plug (⟨s, c, p, join s .red a w b⟩ :: fs) t)
        (plug (⟨s, .red, p, a⟩ :: ⟨s, .black, w, b⟩ :: fs) t) ∧
      ∃ a' b', a = join s .black a' w' b' := by
  have hp : h.parent t.root = some p := hinv.parent
  obtain ⟨_, _, hpw, _, hrw, _⟩ := hinv.rep.frames
  obtain ⟨hwc, _, _, hwp, _⟩ := repAt_join.1 hrw
  rw [root_join] at hpw
  obtain ⟨hcol, hw, hframes⟩ := hinv.frames
  obtain ⟨hnab, hna, hnb⟩ := noRedRed_join.1 hw
  obtain ⟨ha, hb⟩ := hnab rfl
  obtain rfl : c = .black := by
    cases c with
    | black => rfl
    | red => exact absurd ((rootColor_join ..).symm.trans (hcol rfl).1) (by simp)
  obtain ⟨m, k, hbt, hbw, hbfs⟩ := hinv.balanced
  obtain ⟨m', hba, hbb, hm⟩ := balanced_join.1 hbw
  obtain rfl : m + 1 = m' := hm
  obtain ⟨ca, a', w', b', rfl⟩ := hba.exists_join s
  obtain rfl : ca = .black := (rootColor_join ..).symm.trans ha
  -- the two recolourings and the rotation
  have hre : Rearranged h (rotate s (setColor (setColor h (some w) .black) (some p) .red) (some p))
      (plug (⟨s, .black, p, join s .red (join s .black a' w' b') w b⟩ :: fs) t)
      (plug (⟨s, .red, p, join s .black a' w' b'⟩ :: ⟨s, .black, w, b⟩ :: fs) t) := by
    have hr := hinv.rep
    rw [plug_swap] at hr
    have hw := hr.rearranged_setColor .black
    rw [← plug_swap, ← plug_swap] at hw
    have hw' : Rearranged h (setColor h (some w) .black)
        (plug (⟨s, .black, p, join s .red (join s .black a' w' b') w b⟩ :: fs) t)
        (plug fs (join s .black t p (join s .black (join s .black a' w' b') w b))) := hw
    have hp := hw'.rep.rearranged_setColor .red
    exact (hw'.trans hp).trans hp.rep.rearranged_rotate
  have hpar := hre.hole_parent hp
  have hpw' : (rotate s (setColor (setColor h (some w) .black) (some p) .red) (some p)).child s.other
      (some p) = some w' := by
    obtain ⟨_, _, hchild, _⟩ := hre.rep.frames
    exact hchild.trans (root_join ..)
  refine ⟨_, w', ?_, ⟨hre.rep, hpar, hre.nil.trans hinv.nil, hinv.noRedRed, ?_, ?_, m, k, hbt, hba, hbb, hbfs⟩,
    hre, a', b', rfl⟩
  · simp only [deleteSibling, hp, hpw, hwc, hwp, setColor_parent, if_pos]
    rw [hpar]
    exact Prod.ext rfl hpw'
  · exact ⟨fun _ => ⟨ha, rfl⟩, hna, by simp, hnb, hframes⟩
  · cases fs with
    | nil => exact rootColor_join ..
    | cons f fs => exact (rootColor_plug_cons f fs _ _).trans (top_of_cons hinv.top)

/-- **`RBTreeDeleteFixup`** ends; the nodes stay in order, and the colours are right unless the climb
    ends in the case that is wrong. -/
theorem RBTreeDeleteFixup_spec (hinv : FixInv h fs t) :
    ∃ h' t', (∃ k, ∀ fuel ≥ k, RBTreeDeleteFixup fuel h t.root = some h') ∧
      Rearranged h h' (plug fs t) t' ∧ (RedBlack t' ↔ ¬ Slips fs t.rootColor) := by
  -- on the frames above the hole, which a round with two black nephews moves up by one
  induction fs generalizing h t with
  | nil =>
    obtain ⟨h', hrun, hre, hrb⟩ := fixup_exit hinv (.inl rfl)
    exact ⟨h', _, hrun, hre, iff_of_true hrb (by simp [Slips])⟩
  | cons f fs ih =>
    cases ht : t.rootColor with
    | red =>
      obtain ⟨h', hrun, hre, hrb⟩ := fixup_exit hinv (.inr ht)
      exact ⟨h', _, hrun, hre, iff_of_true hrb not_slips_of_red⟩
    | black =>
      obtain ⟨s, c, p, o⟩ := f
      obtain ⟨m, k, _, ho, _⟩ := hinv.balanced
      obtain ⟨co, a, w, b, rfl⟩ := ho.exists_join s
      cases co with
      | black =>
        have hround : deleteRound s h t.root = deleteCases s h t.root (some w) := by
          have hp : h.parent t.root = some p := hinv.parent
          obtain ⟨hpw, _⟩ := sibling_pointers hinv.rep hinv.nil
          obtain ⟨_, _, _, _, hrw, _⟩ := hinv.rep.frames
          have hwc : h.color (some w) = .black := (repAt_join.1 hrw).1
          rw [deleteRound, deleteSibling, hp, hpw, if_neg (by simp [hwc])]
        by_cases hab : a.rootColor = .black ∧ b.rootColor = .black
        · obtain ⟨h₁, hcases, hinv₁, hre₁⟩ := deleteCases_up hinv ht hab.1 hab.2
          obtain ⟨h', t', ⟨k, hk⟩, hre, hrb⟩ := ih hinv₁
          refine ⟨h', t', ⟨k + 1, fun fuel hfuel => ?_⟩, hre₁.trans hre, ?_⟩
          · obtain ⟨m, rfl⟩ : ∃ m, fuel = m + 1 := ⟨fuel - 1, by omega⟩
            rw [fixup_step hinv ht, hround, hcases, ← hk m (by omega), root_join]
          · rw [hrb, rootColor_join, slips_black, if_pos hab]
        · obtain ⟨h₁, t₁, hcases, hre₁, hrb₁⟩ := deleteCases_last hinv ht hab
          obtain ⟨h', hrun, hre⟩ := fixup_root hre₁.rep (hre₁.nil.trans hinv.nil)
          refine ⟨h', t₁.blacken, ⟨2, fun fuel hfuel => ?_⟩, hre₁.trans hre, ?_⟩
          · obtain ⟨m, rfl⟩ : ∃ m, fuel = m + 1 := ⟨fuel - 1, by omega⟩
            rw [fixup_step hinv ht, hround, hcases, hrun m (by omega)]
          · rw [hrb₁, slips_black, if_neg hab]
      | red =>
        -- after the rotation the parent is red, so this round or the next test is the last
        obtain ⟨h₀, w', hsib, hinv₀, hre₀, a', b', rfl⟩ := deleteSibling_red hinv
        have hround : deleteRound s h t.root = deleteCases s h₀ t.root (some w') := by
          rw [deleteRound, hsib]
        by_cases hab : a'.rootColor = .black ∧ b'.rootColor = .black
        · obtain ⟨h₁, hcases, hinv₁, hre₁⟩ := deleteCases_up hinv₀ ht hab.1 hab.2
          obtain ⟨h', ⟨k, hk⟩, hre, hrb⟩ := fixup_exit hinv₁ (.inr (rootColor_join ..))
          refine ⟨h', _, ⟨k + 1, fun fuel hfuel => ?_⟩, (hre₀.trans hre₁).trans hre,
            iff_of_true hrb not_slips_red⟩
          obtain ⟨m, rfl⟩ : ∃ m, fuel = m + 1 := ⟨fuel - 1, by omega⟩
          rw [fixup_step hinv ht, hround, hcases, ← hk m (by omega), root_join]
        · obtain ⟨h₁, t₁, hcases, hre₁, hrb₁⟩ := deleteCases_last hinv₀ ht hab
          obtain ⟨h', hrun, hre⟩ := fixup_root hre₁.rep (hre₁.nil.trans hinv₀.nil)
          refine ⟨h', t₁.blacken, ⟨2, fun fuel hfuel => ?_⟩, (hre₀.trans hre₁).trans hre,
            iff_of_true (hrb₁.2 (by simp)) not_slips_red⟩
          obtain ⟨m, rfl⟩ : ∃ m, fuel = m + 1 := ⟨fuel - 1, by omega⟩
          rw [fixup_step hinv ht, hround, hcases, hrun m (by omega)]

end Loop

/-! ## §3 Taking the node out -/

section Splice

variable {h : Mem α} {s : Side} {c : Color} {d l r t : ColorTree α} {n x y : α} {fs : List (Frame α)}

theorem transplant_eq (hfs : RepFrames h (some x) fs) (hp : h.parent (some x) = parentOf fs)
    (hx : x ∉ frameNodes fs) (v : Option α) :
    RBTreeTransplant h (some x) v = setParent (fill h fs v) v (parentOf fs) := by
  simp only [RBTreeTransplant, hp, replaceChild_eq hfs hx, fill_parent]

/-- **`RBTreeTransplant`** of a node with one child. -/
theorem rep_transplant (hr : Rep h (plug fs (join s c leaf x d))) :
    Rep (RBTreeTransplant h (some x) d.root) (plug fs d) ∧
      (RBTreeTransplant h (some x) d.root).parent d.root = parentOf fs := by
  obtain ⟨_, _, _, hp, _, hrd⟩ := repAt_join.1 hr.at
  obtain ⟨hnd, hndf, hdis⟩ := nodup_plug.1 hr.nodup
  obtain ⟨_, _, _, hndd, _⟩ := nodup_join.1 hnd
  have hfx := hr.frames
  rw [root_join] at hfx
  have hdf : ∀ z ∈ d.inorder, z ∉ frameNodes fs := fun z hz => hdis z (by simp [mem_inorder_join, hz])
  rw [transplant_eq hfx hp (hdis x (by simp [mem_inorder_join]))]
  refine ⟨rep_plug ?_ ?_ ?_, by simp⟩
  · refine hrd.reparent hndd _ (fun z _ => by simp) (fun z hz s' => ?_) (fun z hz => by simp [hz])
      fun z hz hroot => ?_
    · rw [setParent_child, fill_child_some (hdf z hz)]
    · rw [setParent_parent, Function.update_of_ne (Ne.symm hroot), fill_parent]
  · refine (hfx.fill hndf d.root).congr rfl fun z hz => ⟨rfl, fun _ => rfl, ?_⟩
    rw [setParent_parent, Function.update_of_ne]
    exact fun he => hdf z (root_mem_inorder he.symm) hz
  · exact nodup_plug.2 ⟨hndd, hndf, hdf⟩

/-- Before `y` takes the place of `n`: its right subtree is what will be right of it, and the left subtree
    of `n` is still there. -/
structure Ready (h : Mem α) (fs : List (Frame α)) (c : Color) (l : ColorTree α) (n y : α)
    (r : ColorTree α) : Prop where
  frames : RepFrames h (some n) fs
  parent : h.parent (some n) = parentOf fs
  color : h.color (some n) = c
  left : h.child .left (some n) = l.root
  leftRep : RepAt h (some n) l
  right : h.child .right (some y) = r.root
  rightRep : RepAt h (some y) r
  nodup : (plug fs (node c l y r)).inorder.Nodup
  fresh : n ∉ (plug fs (node c l y r)).inorder
  nonempty : l.root ≠ none

/-- The successor has left its place further down in the right subtree. -/
theorem ready_of_rep (hr : Rep h (plug fs (node c l n r))) (hl : l.root ≠ none)
    (hy : y ∉ (plug fs (node c l n r)).inorder) :
    Ready (setParent (setChild h .right (some y) r.root) r.root (some y)) fs c l n y r := by
  obtain ⟨hnc, hnl, _, hp, hrl, hrr⟩ := hr.at
  obtain ⟨hnd, hndf, hdis⟩ := nodup_plug.1 hr.nodup
  obtain ⟨hnl', hnr', hndl, hndr, hlr⟩ := nodup_join (s := .left) (c := c).1 hnd
  rw [mem_inorder_plug, inorder, List.mem_append, List.mem_cons, not_or, not_or, not_or] at hy
  obtain ⟨⟨hyl, hyn, hyr⟩, hyf⟩ := hy
  have hrf : ∀ z ∈ r.inorder, z ∉ frameNodes fs := fun z hz => hdis z (by simp [inorder, hz])
  have hnf : n ∉ frameNodes fs := hdis n (by simp [inorder])
  -- two nodes are written: `y`, and what is left of the right subtree at its top
  have hsame : ∀ z, z ≠ y → some z ≠ r.root → SameNode h
      (setParent (setChild h .right (some y) r.root) r.root (some y)) z := fun z hzy hzr =>
    ⟨rfl, fun s => by simp [setChild_child, hzy], by simp [hzr]⟩
  refine ⟨hr.frames.congr rfl fun z hz => hsame z ?_ ?_, ?_, hnc, ?_, hrl.congr fun z hz => hsame z ?_ ?_,
    ?_, hrr.reparent hndr _ (fun _ _ => rfl) (fun z hz s => ?_) (fun z hz => by simp [hz])
      fun z hz hroot => ?_, ?_, ?_, hl⟩
  · exact fun he => hyf (he ▸ hz)
  · exact fun he => hrf z (root_mem_inorder he.symm) hz
  · have hnr : some n ≠ r.root := fun he => hnr' (root_mem_inorder he.symm)
    simp [hnr, hp]
  · rw [setParent_child, setChild_child, if_neg (by simp), hnl]
  · exact fun he => hyl (he ▸ hz)
  · exact fun he => hlr z hz (root_mem_inorder he.symm)
  · simp [setChild_child]
  · have hzy : z ≠ y := fun he => hyr (he ▸ hz)
    simp [setChild_child, hzy]
  · simp [Ne.symm hroot]
  · refine nodup_plug.2 ⟨nodup_join (s := .left).2 ⟨hyl, hyr, hndl, hndr, hlr⟩, hndf, fun z hz => ?_⟩
    change z ∈ (node c l y r).inorder at hz
    rw [inorder, List.mem_append, List.mem_cons] at hz
    rcases hz with hz | rfl | hz
    · exact hdis z (by simp [inorder, hz])
    · exact hyf
    · exact hrf z hz
  · rw [mem_inorder_plug, inorder, List.mem_append, List.mem_cons, not_or, not_or, not_or]
    exact ⟨⟨hnl', Ne.symm hyn, hnr'⟩, hnf⟩

/-- The successor is the right child. -/
theorem ready_child {cy : Color} (hr : Rep h (plug fs (node c l n (node cy leaf y r)))) (hl : l.root ≠ none) :
    Ready (setParent h r.root (some y)) fs c l n y r := by
  obtain ⟨hnc, hnl, _, hp, hrl, _, _, hyr, _, _, hrr⟩ := hr.at
  obtain ⟨hnd, hndf, hdis⟩ := nodup_plug.1 hr.nodup
  obtain ⟨hnl', hnr', hndl, hndr, hlr⟩ := nodup_join (s := .left) (c := c).1 hnd
  obtain ⟨_, hyr', _, hndr', _⟩ := nodup_join (s := .left) (c := cy).1 hndr
  -- the write of `setParent` changes nothing: `y` is the parent already
  have hsame : ∀ z ∈ (plug fs (node c l n (node cy leaf y r))).inorder,
      SameNode h (setParent h r.root (some y)) z := by
    intro z hz
    refine ⟨rfl, fun _ => rfl, ?_⟩
    by_cases hzr : some z = r.root
    · rw [setParent_parent, Function.update_apply, if_pos hzr]
      exact (hrr.parent hzr.symm).symm
    · simp [hzr]
  have hin : ∀ z ∈ frameNodes fs, z ∈ (plug fs (node c l n (node cy leaf y r))).inorder := fun z hz =>
    mem_inorder_plug.2 (.inr hz)
  have hin' : ∀ z ∈ (node c l n (node cy leaf y r)).inorder,
      z ∈ (plug fs (node c l n (node cy leaf y r))).inorder := fun z hz => mem_inorder_plug.2 (.inl hz)
  have hn := hsame n (hin' n (by simp [inorder]))
  refine ⟨hr.frames.congr rfl fun z hz => hsame z (hin z hz), hn.parent.trans hp, hnc, hnl,
    hrl.congr fun z hz => hsame z (hin' z (by simp [inorder, hz])), hyr,
    hrr.congr fun z hz => hsame z (hin' z (by simp [inorder, hz])), ?_, ?_, hl⟩
  · refine nodup_plug.2 ⟨nodup_join (s := .left).2 ⟨fun hy => hlr y hy (by simp [inorder]), hyr', hndl,
      hndr', fun z hz hz' => hlr z hz (by simp [inorder, hz'])⟩, hndf, fun z hz => ?_⟩
    change z ∈ (node c l y r).inorder at hz
    rw [inorder, List.mem_append, List.mem_cons] at hz
    refine hdis z ?_
    rcases hz with hz | rfl | hz <;> simp [inorder, *]
  · rw [mem_inorder_plug, inorder, List.mem_append, List.mem_cons, not_or, not_or, not_or]
    exact ⟨⟨hnl', fun he => hnr' (by simp [inorder, he]), fun hm => hnr' (by simp [inorder, hm])⟩,
      hdis n (by simp [inorder])⟩

@[simp] theorem transplant_color (v : Option α) : (RBTreeTransplant h (some x) v).color = h.color := by
  simp only [RBTreeTransplant, setParent_color, replaceChild_color]

@[simp] theorem transplant_key (v : Option α) : (RBTreeTransplant h (some x) v).key = h.key := by
  simp only [RBTreeTransplant, setParent_key, replaceChild_key]

@[simp] theorem detach_color : (detach h (some n) (some y)).color = h.color := by
  unfold detach
  split_ifs <;> simp

@[simp] theorem detach_key : (detach h (some n) (some y)).key = h.key := by
  unfold detach
  split_ifs <;> simp

/-- **The successor leaves its place**, and the parent of what is left there is set. -/
theorem ready_detach {ms : List (Frame α)} {cy : Color}
    (hr : Rep h (plug fs (node c l n (plug ms (node cy leaf y r))))) (hl : l.root ≠ none) :
    Ready (detach h (some n) (some y)) fs c l n y (plug ms r) ∧
      (r.root = none → (detach h (some n) (some y)).parent none = parentOf (ms ++ ⟨.right, c, y, l⟩ :: fs)) := by
  have hry : Rep h (plug (ms ++ ⟨.right, c, n, l⟩ :: fs) (node cy leaf y r)) := by
    rw [plug_append]
    exact hr
  obtain ⟨_, _, hyr, hyp, _, _⟩ := hry.at
  cases ms with
  | nil =>
    -- the successor is the right child; if it has no child, the parent of `NULL` is set
    have hdet : detach h (some n) (some y) = setParent h r.root (some y) := by
      rw [detach, if_pos (show h.parent (some y) = some n from hyp), hyr]
    rw [hdet]
    exact ⟨ready_child hr hl, fun hnone => by simp [hnone, parentOf]⟩
  | cons f ms =>
    obtain ⟨hnd, hndf, hdis⟩ := nodup_plug.1 hry.nodup
    obtain ⟨_, hyr', _⟩ := nodup_join (s := .left) (c := cy).1 hnd
    have hyf : y ∉ frameNodes (f :: ms ++ ⟨.right, c, n, l⟩ :: fs) := hdis y (by simp [inorder])
    have hne : h.parent (some y) ≠ some n := by
      rw [hyp]
      intro he
      obtain rfl : f.node = n := Option.some.inj he
      simp [frameNodes, frameNodes_append] at hndf
    obtain ⟨hrt, hpt⟩ := rep_transplant (s := .left) (show Rep h (plug _ (join .left cy leaf y r)) from hry)
    obtain ⟨x, hx, hroot⟩ := root_plug_mem f ms r
    have hrt' : Rep (RBTreeTransplant h (some y) r.root) (plug fs (node c l n (plug (f :: ms) r))) := by
      rw [plug_append] at hrt
      exact hrt
    obtain ⟨_, _, hnr, _⟩ := hrt'.at
    have hdet : detach h (some n) (some y) =
        setParent (setChild (RBTreeTransplant h (some y) r.root) .right (some y) (plug (f :: ms) r).root)
          (plug (f :: ms) r).root (some y) := by
      rw [detach, if_neg hne, hyr]
      simp only [hnr, setChild_child, and_self, if_true]
    rw [hdet]
    refine ⟨ready_of_rep hrt' hl ?_, fun hnone => ?_⟩
    · have hplug : plug fs (node c l n (plug (f :: ms) r)) = plug (f :: ms ++ ⟨.right, c, n, l⟩ :: fs) r := by
        rw [plug_append]
        rfl
      rw [hplug, mem_inorder_plug, not_or]
      exact ⟨hyr', hyf⟩
    · rw [hnone] at hpt
      simp [hroot, hnone, hpt, parentOf]

/-- **`y` takes the place of `n`.** -/
theorem rep_takePlace (hr : Ready h fs c l n y r) :
    Rep (takePlace h (some n) (some y)) (plug fs (node c l y r)) ∧
      (takePlace h (some n) (some y)).parent none = h.parent none ∧
      (takePlace h (some n) (some y)).color none = h.color none ∧
      (takePlace h (some n) (some y)).key = h.key := by
  obtain ⟨hnd, hndf, hdis⟩ := nodup_plug.1 hr.nodup
  obtain ⟨hyl, hyr, hndl, hndr, hlr⟩ := nodup_join (s := .left) (c := c).1 hnd
  have hyf : y ∉ frameNodes fs := hdis y (by simp [inorder])
  have hlf : ∀ z ∈ l.inorder, z ∉ frameNodes fs := fun z hz => hdis z (by simp [inorder, hz])
  have hrf : ∀ z ∈ r.inorder, z ∉ frameNodes fs := fun z hz => hdis z (by simp [inorder, hz])
  have hfresh := hr.fresh
  rw [mem_inorder_plug, inorder, List.mem_append, List.mem_cons, not_or, not_or, not_or] at hfresh
  obtain ⟨⟨hnl, hny, hnr⟩, hnf⟩ := hfresh
  -- the pointer writes in their order
  have heq : takePlace h (some n) (some y) = setColor (setParent (setChild (setParent
      (fill h fs (some y)) (some y) (parentOf fs)) .left (some y) l.root) l.root (some y)) (some y) c := by
    have hleft : (fill h fs (some y)).child .left (some n) = l.root := by
      rw [fill_child_some hnf, hr.left]
    simp only [takePlace, transplant_eq hr.frames hr.parent hnf, setParent_child, hleft, setChild_child,
      setParent_color, setChild_color, fill_color, hr.color, and_self, if_true]
  rw [heq]
  refine ⟨rep_plug ⟨by simp, ?_, ?_, ?_, ?_, ?_⟩ ?_ hr.nodup, ?_, by simp, by simp⟩
  · simp [setChild_child]
  · rw [setColor_child, setParent_child, setChild_child, if_neg (by simp), setParent_child,
      fill_child_some hyf, hr.right]
  · have hyl' : some y ≠ l.root := fun he => hyl (root_mem_inorder he.symm)
    simp [hyl']
  · refine hr.leftRep.reparent hndl _ (fun z hz => ?_) (fun z hz s' => ?_) (fun z hz => by simp [hz])
      fun z hz hroot => ?_
    · have hzy : z ≠ y := fun he => hyl (he ▸ hz)
      simp [hzy]
    · have hzy : z ≠ y := fun he => hyl (he ▸ hz)
      simp [setChild_child, hzy, fill_child_some (hlf z hz)]
    · have hzy : z ≠ y := fun he => hyl (he ▸ hz)
      simp [Ne.symm hroot, hzy]
  · refine hr.rightRep.congr fun z hz => ?_
    have hzy : z ≠ y := fun he => hyr (he ▸ hz)
    have hzl : some z ≠ l.root := fun he => hlr z (root_mem_inorder he.symm) hz
    exact ⟨by simp [hzy], fun s' => by simp [setChild_child, hzy, fill_child_some (hrf z hz)],
      by simp [hzy, hzl]⟩
  · refine (hr.frames.fill hndf (some y)).congr rfl fun z hz => ?_
    have hzy : z ≠ y := fun he => hyf (he ▸ hz)
    have hzl : some z ≠ l.root := fun he => hlf z (root_mem_inorder he.symm) hz
    exact ⟨by simp [hzy], fun s' => by simp [setChild_child, hzy], by simp [hzy, hzl]⟩
  · simp [Ne.symm hr.nonempty]

end Splice

/-! ## §4 The splice -/

section SplicePoint

variable {h : Mem α} {c : Color} {l r : ColorTree α} {n : α} {fs : List (Frame α)}

/-- Where the tree is shorter after the splice: the frames above, the colour that is gone, and the
    subtree that closes the gap. -/
structure SplicePoint (α : Type*) where
  frames : List (Frame α)
  color : Color
  rest : ColorTree α

/-- The node itself is spliced out if it has at most one child, and else its successor, which takes its
    place. -/
def spliceAt (fs : List (Frame α)) (c : Color) (l r : ColorTree α) : SplicePoint α :=
  match l, r with
  | leaf, r => ⟨fs, c, r⟩
  | node cl ll x lr, leaf => ⟨fs, c, node cl ll x lr⟩
  | node cl ll x lr, node cr rl z rr =>
    ⟨(least [] cr rl z rr).frames ++ ⟨.right, c, (least [] cr rl z rr).node, node cl ll x lr⟩ :: fs,
      (least [] cr rl z rr).color, (least [] cr rl z rr).right⟩

omit [DecidableEq α] in
/-- `RBTreeMinimum` goes down the left children. -/
theorem RBTreeMinimum_spec {p : Option α} {x : α} (ms : List (Frame α)) (hr : RepAt h p (node c l x r)) :
    ∃ k, ∀ fuel ≥ k, RBTreeMinimum h fuel (some x) = some (some (least ms c l x r).node) := by
  induction l generalizing p ms c x r with
  | leaf =>
    refine ⟨1, fun fuel hfuel => ?_⟩
    obtain ⟨m, rfl⟩ : ∃ m, fuel = m + 1 := ⟨fuel - 1, by omega⟩
    rw [RBTreeMinimum, hr.2.1, if_neg (by simp [ColorTree.root])]
    rfl
  | node c' l' x' r' ihl _ =>
    obtain ⟨_, hl, _, _, hrl, _⟩ := hr
    obtain ⟨k, hk⟩ := ihl (⟨.left, c, x, r⟩ :: ms) hrl
    refine ⟨k + 1, fun fuel hfuel => ?_⟩
    obtain ⟨m, rfl⟩ : ∃ m, fuel = m + 1 := ⟨fuel - 1, by omega⟩
    rw [RBTreeMinimum, hl, if_pos (by simp [ColorTree.root])]
    exact hk m (by omega)

omit [DecidableEq α] in
/-- Nothing stands before the least node. -/
theorem before_least (ms : List (Frame α)) (c : Color) (l : ColorTree α) (x : α) (r : ColorTree α) :
    before (least ms c l x r).frames = before ms := by
  induction l generalizing ms c x r with
  | leaf => rfl
  | node c' l' x' r' ihl _ => exact (ihl (⟨.left, c, x, r⟩ :: ms) c' x' r').trans (List.append_nil _)

/-- **The splice** takes the node out and leaves a tree; the parent of the gap is set. -/
theorem splice_spec (hr : Rep h (plug fs (node c l n r))) (hnil : h.color none = .black) :
    ∃ h', (∃ k, ∀ fuel ≥ k, splice fuel h (some n) =
        some (h', (spliceAt fs c l r).color, (spliceAt fs c l r).rest.root)) ∧
      Rep h' (plug (spliceAt fs c l r).frames (spliceAt fs c l r).rest) ∧
      h'.parent (spliceAt fs c l r).rest.root = parentOf (spliceAt fs c l r).frames ∧
      h'.color none = .black ∧ h'.key = h.key ∧
      (plug (spliceAt fs c l r).frames (spliceAt fs c l r).rest).inorder =
        before fs ++ (l.inorder ++ r.inorder) ++ after fs := by
  obtain ⟨hnc, hnl, hnr, hnp, hrl, hrr⟩ := hr.at
  -- no left child, no right child, or both
  cases l with
  | leaf =>
    obtain ⟨hrt, hpt⟩ := rep_transplant (s := .left) (show Rep h (plug fs (join .left c leaf n r)) from hr)
    refine ⟨_, ⟨0, fun fuel _ => ?_⟩, hrt, hpt, by simp [hnil], by simp, ?_⟩
    · rw [splice, if_pos (show h.child .left (some n) = none from hnl), hnr, hnc]
      rfl
    · rw [spliceAt, inorder_plug, inorder, List.nil_append]
  | node cl ll x lr =>
    cases r with
    | leaf =>
      obtain ⟨hrt, hpt⟩ := rep_transplant (s := .right)
        (show Rep h (plug fs (join .right c leaf n (node cl ll x lr))) from hr)
      refine ⟨_, ⟨0, fun fuel _ => ?_⟩, hrt, hpt, by simp [hnil], by simp, ?_⟩
      · rw [splice, if_neg (by simp [hnl, ColorTree.root]),
          if_pos (show h.child .right (some n) = none from hnr), hnl, hnc]
        rfl
      · rw [spliceAt, inorder_plug, inorder.eq_1, List.append_nil]
    | node cr rl z rr =>
      obtain ⟨k, hk⟩ := RBTreeMinimum_spec [] hrr
      obtain ⟨m, hm⟩ : ∃ m, m = least [] cr rl z rr := ⟨_, rfl⟩
      have hleast : plug m.frames (node m.color leaf m.node m.right) = node cr rl z rr :=
        hm ▸ plug_least [] cr rl z rr
      have hbefore : before m.frames = [] := hm ▸ before_least [] cr rl z rr
      have hsplice : spliceAt fs c (node cl ll x lr) (node cr rl z rr) =
          ⟨m.frames ++ ⟨.right, c, m.node, node cl ll x lr⟩ :: fs, m.color, m.right⟩ := by rw [hm]; rfl
      rw [hsplice]
      rw [← hm] at hk
      have hrm := hr
      rw [← hleast] at hrm
      obtain ⟨hready, hnone⟩ := ready_detach hrm (by simp [ColorTree.root])
      obtain ⟨hrep, hparent, hcolor, hkey⟩ := rep_takePlace hready
      have hplug : plug (m.frames ++ ⟨.right, c, m.node, node cl ll x lr⟩ :: fs) m.right =
          plug fs (node c (node cl ll x lr) m.node (plug m.frames m.right)) := plug_append ..
      rw [← hplug] at hrep
      refine ⟨_, ⟨k, fun fuel hfuel => ?_⟩, hrep, ?_, by rw [hcolor, detach_color, hnil],
        by rw [hkey, detach_key], ?_⟩
      · have hdeep : Rep h (plug (m.frames ++ ⟨.right, c, n, node cl ll x lr⟩ :: fs)
            (node m.color leaf m.node m.right)) := by
          rw [plug_append]
          exact hrm
        obtain ⟨hyc, _, hyr, _⟩ := hdeep.at
        rw [splice, if_neg (by simp [hnl, ColorTree.root]), if_neg (by simp [hnr, ColorTree.root]), hnr]
        simp only [ColorTree.root, hk fuel hfuel, Option.bind_eq_bind, Option.bind_some, hyc, hyr]
        rfl
      · cases hroot : m.right.root with
        | none => rw [hparent, hnone hroot]
        | some w => exact RepAt.parent hrep.at hroot
      · rw [hplug, inorder_plug, inorder, inorder_plug, hbefore, ← hleast, inorder_plug, hbefore]
        simp [inorder]

omit [DecidableEq α] in
/-- Another node in the place of `n` does not change the colours. -/
theorem redBlack_relabel {y : α} (h : RedBlack (plug fs (node c l n r))) : RedBlack (plug fs (node c l y r)) := by
  obtain ⟨hroot, hred, k, hbal⟩ := h
  obtain ⟨hn, hframes, hup⟩ := noRedRed_plug.1 hred
  obtain ⟨m, hbn, hbfs⟩ := balanced_plug.1 hbal
  refine ⟨?_, noRedRed_plug.2 ⟨hn, hframes, hup⟩, k, balanced_plug.2 ⟨m, hbn, hbfs⟩⟩
  cases fs with
  | nil => exact hroot
  | cons f fs => exact (rootColor_plug_cons ..).trans hroot

omit [DecidableEq α] in
/-- With a node of the colour that is gone in the gap, the tree has the colours it had before. -/
theorem redBlack_spliceAt (h : RedBlack (plug fs (node c l n r))) :
    ∃ s z, RedBlack (plug (spliceAt fs c l r).frames
      (join s (spliceAt fs c l r).color leaf z (spliceAt fs c l r).rest)) := by
  cases l with
  | leaf => exact ⟨.left, n, h⟩
  | node cl ll x lr =>
    cases r with
    | leaf => exact ⟨.right, n, h⟩
    | node cr rl z rr =>
      refine ⟨.left, (least [] cr rl z rr).node, ?_⟩
      have hplug := plug_least [] cr rl z rr
      rw [← show plug [] (node cr rl z rr) = node cr rl z rr from rfl, ← hplug] at h
      rw [spliceAt, plug_append]
      exact redBlack_relabel h

end SplicePoint

/-! ## §5 Deletion -/

section Delete

variable {h : Mem α} {c : Color} {l r : ColorTree α} {n : α} {fs : List (Frame α)}

/-- The deletion loses the balance of the tree. -/
def DeleteSlips (fs : List (Frame α)) (c : Color) (l r : ColorTree α) : Prop :=
  (spliceAt fs c l r).color = .black ∧ Slips (spliceAt fs c l r).frames (spliceAt fs c l r).rest.rootColor

omit [DecidableEq α] in
/-- The nodes around one node. -/
theorem around (hnd : (plug fs (node c l n r)).inorder.Nodup) :
    n ∉ before fs ++ (l.inorder ++ r.inorder) ++ after fs ∧
      (plug fs (node c l n r)).inorder = (before fs ++ l.inorder) ++ n :: (r.inorder ++ after fs) := by
  have heq : (plug fs (node c l n r)).inorder = (before fs ++ l.inorder) ++ n :: (r.inorder ++ after fs) := by
    simp [inorder_plug, inorder]
  rw [heq, List.nodup_middle, List.nodup_cons] at hnd
  exact ⟨by simpa using hnd.1, heq⟩

/-- **`RBTreeDeleteNode`** ends; the other nodes stay in order, and the colours are right unless the
    climb slips. -/
theorem RBTreeDeleteNode_spec (hw : WellFormed h (plug fs (node c l n r))) :
    ∃ h' t', (∃ k, ∀ fuel ≥ k, RBTreeDeleteNode fuel h (some n) = some h') ∧ Rep h' t' ∧
      h'.color none = .black ∧ h'.key = h.key ∧ (∀ s, h'.child s (some n) = none) ∧
      t'.inorder = before fs ++ (l.inorder ++ r.inorder) ++ after fs ∧
      (RedBlack t' ↔ ¬ DeleteSlips fs c l r) := by
  obtain ⟨h₁, ⟨k₁, hk₁⟩, hr₁, hp₁, hnil₁, hkey₁, hin₁⟩ := splice_spec hw.rep hw.nil
  obtain ⟨s, z, hroot, hred, k, hbal⟩ := redBlack_spliceAt hw.redBlack
  rw [DeleteSlips]
  generalize spliceAt fs c l r = g at *
  obtain ⟨hjoin, hframes, hup⟩ := noRedRed_plug.1 hred
  obtain ⟨hcol, _, hrest⟩ := noRedRed_join.1 hjoin
  obtain ⟨m, hbj, hbfs⟩ := balanced_plug.1 hbal
  obtain ⟨m', hleaf, hbrest, hm⟩ := balanced_join.1 hbj
  obtain rfl : m' = 0 := hleaf
  -- the two assignments to the node that is out of the tree
  have hn : n ∉ (plug g.frames g.rest).inorder := by
    rw [hin₁]
    exact (around hw.rep.nodup).1
  obtain ⟨h₂, hh₂⟩ : ∃ h₂, h₂ = setChild (setChild h₁ .left (some n) none) .right (some n) none := ⟨_, rfl⟩
  have hchild₂ : ∀ s, h₂.child s (some n) = none := by
    intro s
    cases s <;> simp [hh₂, setChild_child]
  have hr₂ : Rep h₂ (plug g.frames g.rest) := by
    refine hr₁.congr (by simp [hh₂]) fun z hz => ?_
    have hzn : z ≠ n := fun he => hn (he ▸ hz)
    exact ⟨by simp [hh₂], fun s => by simp [hh₂, setChild_child, hzn], by simp [hh₂]⟩
  have hnil₂ : h₂.color none = .black := by simp [hh₂, hnil₁]
  have hkey₂ : h₂.key = h.key := by simp [hh₂, hkey₁]
  have hrun : ∀ fuel ≥ k₁, RBTreeDeleteNode fuel h (some n) =
      if g.color = .black then RBTreeDeleteFixup fuel h₂ g.rest.root else some h₂ := by
    intro fuel hfuel
    rw [RBTreeDeleteNode, hk₁ fuel hfuel, hh₂]
    rfl
  cases hc : g.color with
  | red =>
    -- without a red node no path has fewer black ones
    refine ⟨h₂, _, ⟨k₁, fun fuel hfuel => by rw [hrun fuel hfuel, if_neg (by simp [hc])]⟩, hr₂, hnil₂, hkey₂,
      hchild₂, hin₁, iff_of_true ⟨?_, noRedRed_plug.2 ⟨hrest, hframes, fun _ => ?_⟩, k,
        balanced_plug.2 ⟨0, hbrest, ?_⟩⟩ (by simp)⟩
    · cases hfs : g.frames with
      | nil =>
        rw [hfs, plug, rootColor_join, hc] at hroot
        cases hroot
      | cons f gs => exact (rootColor_plug_cons ..).trans (hfs ▸ hroot)
    · exact hup (by rw [rootColor_join, hc])
    · rw [hm, hc] at hbfs
      exact hbfs
  | black =>
    -- what closes the gap is one black node short
    have htop : (plug g.frames (leaf : ColorTree α)).rootColor = .black := by
      cases hfs : g.frames with
      | nil => rfl
      | cons f gs => exact (rootColor_plug_cons ..).trans (hfs ▸ hroot)
    have hinv : FixInv h₂ g.frames g.rest := ⟨hr₂, by simpa [hh₂] using hp₁, hnil₂, noRedRed_blacken hrest,
      hframes, htop, 0, k, hbrest, by rw [hm, hc] at hbfs; exact hbfs⟩
    obtain ⟨h', t', ⟨k', hk'⟩, hre, hrb⟩ := RBTreeDeleteFixup_spec hinv
    refine ⟨h', t', ⟨max k₁ k', fun fuel hfuel => ?_⟩, hre.rep, hre.nil.trans hnil₂,
      hre.keeps.key.trans hkey₂, fun s => ?_, hre.inorder.trans hin₁, by simpa using hrb⟩
    · rw [hrun fuel (by omega), if_pos hc, hk' fuel (by omega)]
    · rw [hre.keeps.child (some n) (fun x hx he => hn (Option.some.inj he ▸ hx)) s, hchild₂]

omit [DecidableEq α] in
/-- **`RBTreeSearch`** finds every key of a search tree. -/
theorem searchFrom_spec {p : Option α} {t : ColorTree α} {key : Nat} (hat : RepAt h p t)
    (hs : (keysOf h t.inorder).Pairwise (· ≤ ·)) (hkey : ∃ x ∈ t.inorder, h.key (some x) = key) :
    ∃ y ∈ t.inorder, h.key (some y) = key ∧ ∃ k, ∀ fuel ≥ k, searchFrom h key fuel t.root = some (some y) := by
  induction t generalizing p with
  | leaf => simp [inorder] at hkey
  | node c l x r ihl ihr =>
    have hsplit : (keysOf h (plug [] (node c l x r)).inorder).Pairwise (· ≤ ·) := hs
    obtain ⟨hlx, hxr⟩ := keys_node hsplit
    obtain ⟨_, hcl, hcr, _, hatl, hatr⟩ := hat
    rw [inorder, keysOf, List.map_append, List.map_cons, List.pairwise_append, List.pairwise_cons] at hs
    obtain ⟨z, hz, hzk⟩ := hkey
    rw [inorder, List.mem_append, List.mem_cons] at hz
    rcases Nat.lt_trichotomy key (h.key (some x)) with hlt | heq | hgt
    · have hzl : z ∈ l.inorder := by
        rcases hz with hz | rfl | hz
        · exact hz
        · omega
        · have := hxr z hz
          omega
      obtain ⟨y, hy, hyk, k, hk⟩ := ihl hatl hs.1 ⟨z, hzl, hzk⟩
      refine ⟨y, by simp [inorder, hy], hyk, k + 1, fun fuel hfuel => ?_⟩
      obtain ⟨m, rfl⟩ : ∃ m, fuel = m + 1 := ⟨fuel - 1, by omega⟩
      rw [ColorTree.root, searchFrom, if_neg (by simp), if_pos hlt, hcl, hk m (by omega)]
    · refine ⟨x, by simp [inorder], heq.symm, 1, fun fuel hfuel => ?_⟩
      obtain ⟨m, rfl⟩ : ∃ m, fuel = m + 1 := ⟨fuel - 1, by omega⟩
      rw [ColorTree.root, searchFrom, if_neg (by simp), if_neg (by omega), if_neg (by omega)]
    · have hzr : z ∈ r.inorder := by
        rcases hz with hz | rfl | hz
        · have := hlx z hz
          omega
        · omega
        · exact hz
      obtain ⟨y, hy, hyk, k, hk⟩ := ihr hatr hs.2.1.2 ⟨z, hzr, hzk⟩
      refine ⟨y, by simp [inorder, hy], hyk, k + 1, fun fuel hfuel => ?_⟩
      obtain ⟨m, rfl⟩ : ∃ m, fuel = m + 1 := ⟨fuel - 1, by omega⟩
      rw [ColorTree.root, searchFrom, if_neg (by simp), if_neg (by omega), if_pos hgt, hcr, hk m (by omega)]

/-- **`RBTreeDeleteNode` removes exactly one node**, from every well-formed tree. -/
theorem RBTreeDeleteNode_removes (h : Mem α) (t : ColorTree α) (n : α) (hw : WellFormed h t)
    (hn : n ∈ t.inorder) :
    ∃ h' t', (∃ k, ∀ fuel ≥ k, RBTreeDeleteNode fuel h (some n) = some h') ∧ Rep h' t' ∧
      t'.inorder = t.inorder.erase n ∧ h'.key = h.key ∧ (keysOf h' t'.inorder).Pairwise (· ≤ ·) ∧
      (∀ x ∈ t'.inorder, ∃ y ∈ t'.inorder, h'.key (some y) = h'.key (some x) ∧
        ∃ k, ∀ fuel ≥ k, RBTreeSearch h' fuel (h'.key (some x)) = some (some y)) ∧
      ∀ s, h'.child s (some n) = none := by
  obtain ⟨fs, c, l, r, rfl⟩ := exists_plug hn
  obtain ⟨h', t', hrun, hr', hnil', hkey', hchild', hin', _⟩ := RBTreeDeleteNode_spec hw
  have herase : t'.inorder = (plug fs (node c l n r)).inorder.erase n := by
    obtain ⟨hnot, heq⟩ := around hw.rep.nodup
    have hleft : n ∉ before fs ++ l.inorder := fun hm => hnot (by
      rw [← List.append_assoc, List.append_assoc]
      exact List.mem_append_left _ hm)
    rw [heq, List.erase_append_right _ hleft, List.erase_cons_head, hin']
    simp
  have hsorted : (keysOf h' t'.inorder).Pairwise (· ≤ ·) := by
    rw [herase, keysOf, hkey']
    exact hw.sorted.sublist (List.erase_sublist.map _)
  refine ⟨h', t', hrun, hr', herase, hkey', hsorted, fun x hx => ?_, hchild'⟩
  obtain ⟨y, hy, hyk, k, hk⟩ := searchFrom_spec hr'.nodes hsorted ⟨x, hx, rfl⟩
  refine ⟨y, hy, hyk, k, fun fuel hfuel => ?_⟩
  rw [RBTreeSearch, hr'.root, hk fuel hfuel]

/-- **When the result is a red-black tree**: if the climb does not slip. -/
theorem RBTreeDeleteNode_redBlack_iff (h : Mem α) (fs : List (Frame α)) (c : Color) (l r : ColorTree α)
    (n : α) (hw : WellFormed h (plug fs (node c l n r))) :
    ∃ h', (∃ k, ∀ fuel ≥ k, RBTreeDeleteNode fuel h (some n) = some h') ∧
      ((h'.color none = .black ∧ ∃ t', Rep h' t' ∧ RedBlack t') ↔ ¬ DeleteSlips fs c l r) := by
  obtain ⟨h', t', hrun, hr', hnil', _, _, _, hrb⟩ := RBTreeDeleteNode_spec hw
  refine ⟨h', hrun, ?_, fun hslip => ⟨hnil', t', hr', hrb.2 hslip⟩⟩
  rintro ⟨_, t'', hr'', hrb''⟩
  rw [hr'.nodes.unique hr''.nodes (hr'.root.symm.trans hr''.root)] at hrb
  exact hrb.1 hrb''

end Delete

/-! ## §6 A tree that slips -/

/-- A tree of eight nodes; below the black node 2, which is not the root, the black sibling 4 of node 3
    has a red child. -/
def slipTree : ColorTree Nat :=
  node .black
    (node .black (node .black leaf 3 leaf) 2 (node .black leaf 4 (node .red leaf 5 leaf)))
    1
    (node .black (node .black leaf 7 leaf) 6 (node .black leaf 8 leaf))

/-- `slipTree` in memory. -/
def slipMem : Mem Nat where
  root := some 1
  color := fun n => if n = some 5 then .red else .black
  key := fun n => match n with
    | some 3 => 10
    | some 2 => 20
    | some 4 => 30
    | some 5 => 40
    | some 1 => 50
    | some 7 => 60
    | some 6 => 70
    | some 8 => 80
    | _ => 0
  child := fun s n => match s, n with
    | .left, some 1 => some 2
    | .right, some 1 => some 6
    | .left, some 2 => some 3
    | .right, some 2 => some 4
    | .right, some 4 => some 5
    | .left, some 6 => some 7
    | .right, some 6 => some 8
    | _, _ => none
  parent := fun n => match n with
    | some 2 | some 6 => some 1
    | some 3 | some 4 => some 2
    | some 5 => some 4
    | some 7 | some 8 => some 6
    | _ => none

theorem slipMem_wellFormed : WellFormed slipMem slipTree where
  rep := ⟨rfl, by simp [slipTree, slipMem, RepAt, ColorTree.root], by decide⟩
  nil := rfl
  sorted := by decide
  redBlack := ⟨rfl, by simp [slipTree, NoRedRed, rootColor], 3, 2,
    ⟨1, ⟨0, rfl, rfl, rfl⟩, ⟨0, rfl, ⟨0, rfl, rfl, rfl⟩, rfl⟩, rfl⟩,
    ⟨1, ⟨0, rfl, rfl, rfl⟩, ⟨0, rfl, rfl, rfl⟩, rfl⟩, rfl⟩

/-- What is left of `slipTree` without node 3: node 4 is red. -/
def slippedTree : ColorTree Nat :=
  node .black
    (node .red (node .black leaf 2 leaf) 4 (node .black leaf 5 leaf))
    1
    (node .black (node .black leaf 7 leaf) 6 (node .black leaf 8 leaf))

theorem slipMem_delete : ∃ h', (∀ fuel ≥ 2, RBTreeDeleteNode fuel slipMem (some 3) = some h') ∧
    Rep h' slippedTree := by
  refine ⟨(RBTreeDeleteNode 2 slipMem (some 3)).getD slipMem, fun fuel hfuel => ?_, ?_⟩
  · obtain ⟨m, rfl⟩ : ∃ m, fuel = m + 2 := ⟨fuel - 2, by omega⟩
    rfl
  · refine ⟨by decide, ?_, by decide⟩
    simp only [slippedTree, RepAt, ColorTree.root]
    decide

theorem not_balanced_slippedTree (n : Nat) : ¬ slippedTree.Balanced n := by
  rintro ⟨m, hleft, hright, _⟩
  have h₁ : m = 1 := hleft.unique ⟨1, ⟨0, rfl, rfl, rfl⟩, ⟨0, rfl, rfl, rfl⟩, rfl⟩
  have h₂ : m = 2 := hright.unique ⟨1, ⟨0, rfl, rfl, rfl⟩, ⟨0, rfl, rfl, rfl⟩, rfl⟩
  omega

/-- Deleting node 3 of `slipTree` leaves a tree that is not balanced. -/
theorem RBTreeDeleteNode_unbalances : ¬ ∀ (h : Mem Nat) (t : ColorTree Nat) (n : Nat), WellFormed h t →
    n ∈ t.inorder → ∃ h', (∃ k, ∀ fuel ≥ k, RBTreeDeleteNode fuel h (some n) = some h') ∧
      h'.color none = .black ∧ ∃ t', Rep h' t' ∧ RedBlack t' := by
  intro hall
  obtain ⟨h₁, ⟨k, hk⟩, _, t₁, hr₁, hrb⟩ := hall slipMem slipTree 3 slipMem_wellFormed (by decide)
  obtain ⟨h₂, hrun, hr₂⟩ := slipMem_delete
  have heq : h₁ = h₂ := Option.some.inj ((hk (max k 2) (by omega)).symm.trans (hrun (max k 2) (by omega)))
  subst heq
  obtain rfl := hr₁.nodes.unique hr₂.nodes (hr₁.root.symm.trans hr₂.root)
  obtain ⟨n, hbal⟩ := hrb.balanced
  exact not_balanced_slippedTree n hbal

theorem RBTreeDeleteNode_removes_slipMem :
    ∃ h' t', (∃ k, ∀ fuel ≥ k, RBTreeDeleteNode fuel slipMem (some 2) = some h') ∧ Rep h' t' ∧
      t'.inorder = [3, 4, 5, 1, 7, 6, 8] ∧ h'.key = slipMem.key ∧
      (keysOf h' t'.inorder).Pairwise (· ≤ ·) ∧
      (∀ x ∈ t'.inorder, ∃ y ∈ t'.inorder, h'.key (some y) = h'.key (some x) ∧
        ∃ k, ∀ fuel ≥ k, RBTreeSearch h' fuel (h'.key (some x)) = some (some y)) ∧
      ∀ s, h'.child s (some 2) = none :=
  RBTreeDeleteNode_removes slipMem slipTree 2 slipMem_wellFormed (by decide)

theorem RBTreeDeleteNode_redBlack_iff_slipMem :
    ∃ h', (∃ k, ∀ fuel ≥ k, RBTreeDeleteNode fuel slipMem (some 8) = some h') ∧
      ((h'.color none = .black ∧ ∃ t', Rep h' t' ∧ RedBlack t') ↔
        ¬ DeleteSlips [⟨.right, .black, 6, node .black leaf 7 leaf⟩, ⟨.right, .black, 1,
          node .black (node .black leaf 3 leaf) 2 (node .black leaf 4 (node .red leaf 5 leaf))⟩]
          .black leaf leaf) :=
  RBTreeDeleteNode_redBlack_iff slipMem [⟨.right, .black, 6, node .black leaf 7 leaf⟩, ⟨.right, .black, 1,
    node .black (node .black leaf 3 leaf) 2 (node .black leaf 4 (node .red leaf 5 leaf))⟩]
    .black leaf leaf 8 slipMem_wellFormed

end WeiOS.Krbtree
