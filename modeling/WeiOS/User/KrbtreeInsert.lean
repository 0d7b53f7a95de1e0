import Mathlib
import WeiOS.Lib.RedBlack
import WeiOS.User.Krbtree
import WeiOS.User.KrbtreeRep

/-!
# Insertion into Red-Black Trees

`RBTreeInsert` hangs the new red node below a leaf, and `RBTreeInsertFixup` climbs from it: as long as
the parent is red too, either the uncle is red and the violation moves up by two nodes, or one or two
rotations remove it.

## Main results
- `insertRound_spec`: one round of the loop.
- `RBTreeInsertFixup_spec`: the loop ends with a red-black tree, and the order of the nodes is kept.
- `RBTreeInsert_wellFormed`: insertion into any well-formed tree.
-/

set_option linter.style.nameCheck false

namespace WeiOS.Krbtree

open WeiOS.Lib ColorTree

variable {α : Type*}

/-! ## §1 Well-formed trees -/

/-- The keys of nodes given in order. -/
def keysOf (h : Mem α) (nodes : List α) : List Nat := nodes.map fun x => h.key (some x)

/-- The memory holds a red-black tree whose keys are in order. -/
structure WellFormed (h : Mem α) (t : ColorTree α) : Prop where
  rep : Rep h t
  nil : h.color none = .black
  sorted : (keysOf h t.inorder).Pairwise (· ≤ ·)
  redBlack : RedBlack t

variable [DecidableEq α]

/-- `rbtree_init` makes an empty tree. -/
theorem rbtreeInit_wellFormed (h : Mem α) : WellFormed (rbtreeInit h) leaf where
  rep := ⟨rfl, trivial, List.nodup_nil⟩
  nil := by simp [rbtreeInit, rbnodeInit]
  sorted := List.Pairwise.nil
  redBlack := ⟨rfl, trivial, 0, rfl⟩

/-! ## §2 The climb -/

section Climb

variable {h : Mem α} {s : Side} {c c' : Color} {t u w : ColorTree α} {p g : α} {fs gs : List (Frame α)}
  {f : Frame α}

/-- The state of the tree before a round of `RBTreeInsertFixup`: the subtree has a red root, whose
    parent may be red. -/
structure ClimbInv (h : Mem α) (fs : List (Frame α)) (t : ColorTree α) : Prop where
  rep : Rep h (plug fs t)
  nil : h.color none = .black
  red : t.rootColor = .red
  noRedRed : NoRedRed t
  frames : FrameNoRedRed fs
  top : (plug fs leaf).rootColor = .black
  balanced : ∃ n, Balanced (plug fs t) n

omit [DecidableEq α] in
/-- The pointers that a round of `RBTreeInsertFixup` follows first. -/
theorem climb_pointers {sf : Side} {n : α} (hr : Rep h (plug (⟨sf, c, p, u⟩ :: ⟨s, c', g, w⟩ :: gs) t))
    (hn : t.root = some n) : h.parent (some n) = some p ∧ h.parent (some p) = some g ∧
      h.child s.other (some g) = w.root := by
  obtain ⟨_, _, _, hpp, _, hfs⟩ := hr.frames
  obtain ⟨_, _, hgw, _⟩ := hfs
  exact ⟨hr.at.parent hn, hpp, hgw⟩

omit [DecidableEq α] in
theorem top_of_cons (htop : (plug (f :: fs) leaf).rootColor = .black) :
    (plug fs leaf).rootColor = .black := by
  cases fs with
  | nil => rfl
  | cons f' fs => exact (rootColor_plug_cons ..).trans htop

/-- **Red uncle**: the two red nodes get a black parent each, and the violation moves up. -/
theorem insertRound_red {sf : Side} {n : α}
    (hinv : ClimbInv h (⟨sf, .red, p, u⟩ :: ⟨s, .black, g, w⟩ :: gs) t) (hn : t.root = some n)
    (hw : w.rootColor = .red) :
    ClimbInv (insertRound s h (some n)).1 gs (join s .red (join sf .black t p u) g w.blacken) ∧
      (insertRound s h (some n)).2 = some g ∧ (insertRound s h (some n)).1.key = h.key := by
  obtain ⟨hnp, hpg, hgw⟩ := climb_pointers hinv.rep hn
  obtain ⟨wl, y, wr, rfl⟩ : ∃ wl y wr, w = node .red wl y wr := by
    cases w with
    | leaf => cases hw
    | node cw wl y wr => exact ⟨wl, y, wr, by rw [show cw = .red from hw]⟩
  have hwc : h.color (some y) = .red := by
    obtain ⟨_, _, _, _, _, _, _, _, _, hrw, _⟩ := hinv.rep.frames
    exact hrw.1
  have hround : insertRound s h (some n) =
      (setColor (setColor (setColor h (some p) .black) (some y) .black) (some g) .red, some g) := by
    simp [insertRound, hnp, hpg, hgw, ColorTree.root, hwc]
  rw [hround]
  obtain ⟨_, hu, _, hwr, hgs⟩ := hinv.frames
  refine ⟨⟨?_, by simp [hinv.nil], by simp, ?_, hgs, top_of_cons (top_of_cons hinv.top), ?_⟩, rfl, rfl⟩
  -- the tree in memory after each of the three recolourings
  · have hr : Rep h (plug (⟨s, .black, g, node .red wl y wr⟩ :: gs) (join sf .red t p u)) := hinv.rep
    have hp : Rep (setColor h (some p) .black)
        (plug gs (join s .black (join sf .black t p u) g (node .red wl y wr))) := hr.setColor .black
    rw [← join_other] at hp
    have hp' : Rep (setColor h (some p) .black)
        (plug (⟨s.other, .black, g, join sf .black t p u⟩ :: gs) (join .left .red wl y wr)) := hp
    have hy : Rep (setColor (setColor h (some p) .black) (some y) .black)
        (plug gs (join s.other .black (node .black wl y wr) g (join sf .black t p u))) :=
      hp'.setColor .black
    rw [join_other] at hy
    exact hy.setColor .red
  -- the grandparent is red now; only its own parent may be red as well
  · rw [noRedRed_join, noRedRed_join]
    exact ⟨fun _ => ⟨rootColor_join .., rfl⟩, ⟨by simp, hinv.noRedRed, hu⟩, by simp, hwr.2⟩
  · obtain ⟨k, hbal⟩ := hinv.balanced
    obtain ⟨m, ht, hu, ⟨m', hl, hr, hm⟩, hfs⟩ := balanced_plug.1 hbal
    refine ⟨k, balanced_plug.2 ⟨m + 1, balanced_join.2 ⟨m + 1, balanced_join.2 ⟨m, ht, hu, rfl⟩,
      ⟨m', hl, hr, ?_⟩, rfl⟩, hfs⟩⟩
    simp only [weight, Nat.add_zero] at hm ⊢
    rw [hm]

/-- **The last rotation**: the parent takes the place of the grandparent. -/
theorem rep_raise (hr : Rep h (plug (⟨s, c, p, u⟩ :: ⟨s, c', g, w⟩ :: gs) t)) :
    Rep (rotate s.other (setColor (setColor h (some p) .black) (some g) .red) (some g))
      (plug gs (join s.other .black (join s.other .red w g u) p t)) := by
  have hr' : Rep h (plug (⟨s, c', g, w⟩ :: gs) (join s c t p u)) := hr
  have hp : Rep (setColor h (some p) .black) (plug gs (join s c' (join s .black t p u) g w)) :=
    hr'.setColor .black
  have hg := hp.setColor .red
  rw [← join_other, ← join_other s .black] at hg
  exact hg.rotate

/-- **Black uncle**: after a rotation of the parent if the new node is an inner grandchild, the round
    ends with the rotation of the grandparent. -/
theorem insertRound_black {sf : Side} {n : α}
    (hinv : ClimbInv h (⟨sf, .red, p, u⟩ :: ⟨s, .black, g, w⟩ :: gs) t) (hn : t.root = some n)
    (hw : w.rootColor = .black) :
    ∃ h' x u' t' n', Rep h' (plug (⟨s, .red, x, u'⟩ :: ⟨s, .black, g, w⟩ :: gs) t') ∧
      h'.key = h.key ∧ h'.color = h.color ∧ t'.root = some n' ∧
      NoRedRed t' ∧ NoRedRed u' ∧ u'.rootColor = .black ∧
      (∀ m, Balanced t m → Balanced u m → Balanced t' m ∧ Balanced u' m) ∧
      (join s .red t' x u').inorder = (join sf .red t p u).inorder ∧
      insertRound s h (some n) =
        (rotate s.other (setColor (setColor h' (some x) .black) (some g) .red) (some g), some n') := by
  obtain ⟨hnp, hpg, hgw⟩ := climb_pointers hinv.rep hn
  obtain ⟨hcol, hu, _, hwr, hgs⟩ := hinv.frames
  have hwc : h.color w.root = .black := by
    obtain ⟨_, _, _, _, _, _, _, _, _, hrw, _⟩ := hinv.rep.frames
    exact (hrw.rootColor hinv.nil).trans hw
  have hnu : u.root ≠ some n := fun he => (nodup_plug.1 hinv.rep.nodup).2.2 n (root_mem_inorder hn)
    (by simp [frameNodes, root_mem_inorder he])
  have hside : some n = h.child s.other (some p) ↔ sf = s.other :=
    (hn ▸ hinv.rep.frames).child_eq_iff hnu s.other
  rcases Side.eq_or_eq_other s sf with rfl | rfl
  -- an outer grandchild stays where it is
  · have hround : insertRound sf h (some n) =
        (rotate sf.other (setColor (setColor h (some p) .black) (some g) .red) (some g), some n) := by
      have hside' : some n ≠ h.child sf.other (some p) := fun he => Side.ne_other _ (hside.1 he)
      simp [insertRound, hnp, hpg, hgw, hwc, hside']
    exact ⟨h, p, u, t, n, hinv.rep, rfl, rfl, hn, hinv.noRedRed, hu, (hcol rfl).1,
      fun m ht hu => ⟨ht, hu⟩, rfl, hround⟩
  -- an inner one changes places with its parent
  · obtain ⟨t₁, t₂, rfl⟩ : ∃ t₁ t₂, t = join s .red t₁ n t₂ := by
      have hred := hinv.red
      cases t with
      | leaf => cases hn
      | node ct l x r =>
        obtain rfl := Option.some.inj hn
        obtain rfl : ct = .red := hred
        exact exists_join s .red l x r
    have hr : Rep h (plug (⟨s, .black, g, w⟩ :: gs) (join s.other .red (join s .red t₁ n t₂) p u)) :=
      hinv.rep
    rw [join_other] at hr
    have hr' : Rep (rotate s h (some p))
        (plug (⟨s, .red, n, t₂⟩ :: ⟨s, .black, g, w⟩ :: gs) (join s .red u p t₁)) := hr.rotate
    obtain ⟨hpn, hng, _⟩ := climb_pointers hr' (root_join ..)
    obtain ⟨hcol', ht₁, ht₂⟩ := noRedRed_join.1 hinv.noRedRed
    have hround : insertRound s h (some n) =
        (rotate s.other (setColor (setColor (rotate s h (some p)) (some n) .black) (some g) .red)
          (some g), some p) := by
      simp [insertRound, hnp, hpg, hgw, hwc, ← hside.2 rfl, hpn, hng]
    refine ⟨rotate s h (some p), n, t₂, join s .red u p t₁, p, hr', rotate_key,
      rotate_color, root_join .., noRedRed_join.2 ⟨fun _ => ⟨(hcol rfl).1, (hcol' rfl).1⟩, hu, ht₁⟩,
      ht₂, (hcol' rfl).2, fun m ht hu => ?_, ?_, hround⟩
    · obtain ⟨m', ht₁, ht₂, hm⟩ := balanced_join.1 ht
      obtain rfl : m = m' := hm
      exact ⟨balanced_join.2 ⟨m, hu, ht₁, rfl⟩, ht₂⟩
    · rw [join_other]
      exact inorder_rotate ..

end Climb

/-! ## §3 The loop -/

section Loop

variable {h : Mem α} {t : ColorTree α} {fs : List (Frame α)}

/-- What the loop of `RBTreeInsertFixup` and the assignment behind it achieve. -/
def Repaired (h h' : Mem α) (nodes : List α) : Prop :=
  ∃ t', Rep h' t' ∧ h'.color none = .black ∧ h'.key = h.key ∧ t'.inorder = nodes ∧ RedBlack t'

/-- The loop stops below a black parent; the root is blackened. -/
theorem repaired_of_black (hr : Rep h t) (hnil : h.color none = .black) (hred : NoRedRed t)
    (hbal : ∃ n, Balanced t n) : Repaired h (setColor h h.root .black) t.inorder := by
  obtain ⟨n, hbal⟩ := hbal
  have hplug : Rep h (plug [] t) := hr
  have hb : Rep (setColor h t.root .black) t.blacken := hplug.blacken hnil
  rw [← hr.root] at hb
  refine ⟨t.blacken, hb, ?_, rfl, inorder_blacken t, redBlack_blacken hred hbal⟩
  by_cases hroot : h.root = none
  · simp [hroot]
  · simp [Ne.symm hroot, hnil]

omit [DecidableEq α] in
theorem Repaired.of_key {h' h'' : Mem α} {nodes : List α} (hrep : Repaired h' h'' nodes)
    (hkey : h'.key = h.key) : Repaired h h'' nodes := by
  obtain ⟨t', hr, hnil, hkey', hin, hrb⟩ := hrep
  exact ⟨t', hr, hnil, hkey'.trans hkey, hin, hrb⟩

omit [DecidableEq α] in
/-- A red parent has a black parent in turn. -/
theorem ClimbInv.grandparent {f : Frame α} (hinv : ClimbInv h (f :: fs) t) (hf : f.color = .red) :
    ∃ s g w gs, fs = ⟨s, .black, g, w⟩ :: gs := by
  obtain ⟨hcol, _⟩ := hinv.frames
  cases fs with
  | nil =>
    have htop : f.color = .black := (rootColor_join ..).symm.trans hinv.top
    exact absurd (hf.symm.trans htop) (by simp)
  | cons f' gs =>
    obtain ⟨s, c, g, w⟩ := f'
    obtain rfl : c = .black := (hcol hf).2
    exact ⟨s, g, w, gs, rfl⟩

/-- **`RBTreeInsertFixup`** ends and repairs the tree. -/
theorem RBTreeInsertFixup_spec (hinv : ClimbInv h fs t) :
    ∃ h', (∃ k, ∀ fuel ≥ k, RBTreeInsertFixup fuel h t.root = some h') ∧
      Repaired h h' (plug fs t).inorder := by
  -- on the frames above the red node: a round with a red uncle takes two of them away
  induction hlen : fs.length using Nat.strong_induction_on generalizing h fs t with
  | _ len ih =>
    obtain ⟨n, hn, hnp⟩ : ∃ n, t.root = some n ∧ h.parent (some n) = parentOf fs := by
      have hred := hinv.red
      cases t with
      | leaf => cases hred
      | node c l x r => exact ⟨x, rfl, RepAt.parent hinv.rep.at rfl⟩
    have hpc : h.color (h.parent (some n)) = parentColor fs := by
      rw [hnp, hinv.rep.frames.parentColor hinv.nil]
    rw [hn]
    cases hblack : parentColor fs with
    | black =>
      refine ⟨setColor h h.root .black, ⟨1, fun fuel hfuel => ?_⟩, repaired_of_black hinv.rep hinv.nil
        (noRedRed_plug.2 ⟨hinv.noRedRed, hinv.frames, fun _ => hblack⟩) hinv.balanced⟩
      obtain ⟨m, rfl⟩ : ∃ m, fuel = m + 1 := ⟨fuel - 1, by omega⟩
      rw [RBTreeInsertFixup, if_neg (by simp [hpc, hblack])]
    | red =>
      obtain ⟨sf, p, u, fs', rfl⟩ : ∃ sf p u fs', fs = ⟨sf, .red, p, u⟩ :: fs' := by
        cases fs with
        | nil => cases hblack
        | cons f fs' =>
          obtain ⟨sf, c, p, u⟩ := f
          obtain rfl : c = .red := hblack
          exact ⟨sf, p, u, fs', rfl⟩
      obtain ⟨s, g, w, gs, rfl⟩ := hinv.grandparent rfl
      obtain ⟨_, hpg, hgw⟩ := climb_pointers hinv.rep hn
      -- the test that chooses the half of the loop
      have hside : (if h.parent (some n) = h.child .left (h.parent (h.parent (some n))) then Side.left
          else Side.right) = s := by
        obtain ⟨_, _, _, _, _, hgfs⟩ := hinv.rep.frames
        have hwp : w.root ≠ some p := fun he => by
          have hnd := (nodup_plug.1 hinv.rep.nodup).2.1
          simp [frameNodes, root_mem_inorder he] at hnd
        have hchild := hgfs.child_eq_iff hwp .left
        rw [hnp, parentOf, hpg]
        cases s with
        | left => exact if_pos (hchild.2 rfl)
        | right => exact if_neg fun he => absurd (hchild.1 he) (by simp)
      have hstep : ∀ m, RBTreeInsertFixup (m + 1) h (some n) =
          RBTreeInsertFixup m (insertRound s h (some n)).1 (insertRound s h (some n)).2 := by
        intro m
        rw [RBTreeInsertFixup, if_pos (hpc.trans hblack), hside]
      cases hw : w.rootColor with
      | red =>
        -- the climb goes on at the grandparent
        obtain ⟨hinv', hn', hkey⟩ := insertRound_red hinv hn hw
        obtain ⟨h', ⟨k, hk⟩, hrep⟩ := ih gs.length (by simp [← hlen]) hinv' rfl
        refine ⟨h', ⟨k + 1, fun fuel hfuel => ?_⟩, ?_⟩
        · obtain ⟨m, rfl⟩ : ∃ m, fuel = m + 1 := ⟨fuel - 1, by omega⟩
          rw [hstep, hn', ← hk m (by omega), root_join]
        · have hin : (plug gs (join s .red (join sf .black t p u) g w.blacken)).inorder =
              (plug (⟨sf, .red, p, u⟩ :: ⟨s, .black, g, w⟩ :: gs) t).inorder := by
            refine inorder_plug_congr ?_
            cases s <;> cases sf <;> simp [join, inorder]
          exact hin ▸ hrep.of_key hkey
      | black =>
        obtain ⟨h', x, u', t', n', hr', hkey, hcol, hn', ht', hu', hub, hbal', hin, hround⟩ :=
          insertRound_black hinv hn hw
        have hr := rep_raise hr'
        obtain ⟨h'', hh''⟩ : ∃ h'', h'' =
            rotate s.other (setColor (setColor h' (some x) .black) (some g) .red) (some g) := ⟨_, rfl⟩
        rw [← hh''] at hr hround
        have hnil : h''.color none = .black := by simp [hh'', hcol, hinv.nil]
        have hkey' : h''.key = h.key := by simp [hh'', hkey]
        have hin' : (plug gs (join s.other .black (join s.other .red w g u') x t')).inorder =
            (plug (⟨sf, .red, p, u⟩ :: ⟨s, .black, g, w⟩ :: gs) t).inorder := by
          have hrot : (join s.other .black (join s.other .red w g u') x t').inorder =
              (join s .black (join s .red t' x u') g w).inorder := by
            rw [join_other, join_other]
            exact (inorder_rotate ..).symm
          have hup : (plug (⟨s, .black, g, w⟩ :: gs) (join s .red t' x u')).inorder =
              (plug (⟨s, .black, g, w⟩ :: gs) (join sf .red t p u)).inorder := inorder_plug_congr hin
          exact (inorder_plug_congr hrot).trans hup
        -- the next round finds a black parent
        have hpc' : h''.color (h''.parent (some n')) = .black := by
          obtain ⟨hxc, _, _, _, _, hrt⟩ := repAt_join.1 hr.at
          rw [hrt.parent hn', hxc]
        obtain ⟨hcolu, _, hcolw, hwr, hgs⟩ := hinv.frames
        have hred : NoRedRed (plug gs (join s.other .black (join s.other .red w g u') x t')) :=
          noRedRed_plug.2 ⟨noRedRed_join.2 ⟨by simp, noRedRed_join.2 ⟨fun _ => ⟨hw, hub⟩, hwr, hu'⟩, ht'⟩,
            hgs, by simp⟩
        have hbal : ∃ k, Balanced (plug gs (join s.other .black (join s.other .red w g u') x t')) k := by
          obtain ⟨k, hbal⟩ := hinv.balanced
          obtain ⟨m, ht, hu, hw, hfs⟩ := balanced_plug.1 hbal
          obtain ⟨ht', hu'⟩ := hbal' m ht hu
          exact ⟨k, balanced_plug.2 ⟨m + 1, balanced_join.2 ⟨m, balanced_join.2 ⟨m, hw, hu', rfl⟩, ht', rfl⟩,
            hfs⟩⟩
        refine ⟨setColor h'' h''.root .black, ⟨2, fun fuel hfuel => ?_⟩,
          hin' ▸ (repaired_of_black hr hnil hred hbal).of_key hkey'⟩
        obtain ⟨m, rfl⟩ : ∃ m, fuel = m + 2 := ⟨fuel - 2, by omega⟩
        rw [hstep, hround, RBTreeInsertFixup, if_neg (by simp [hpc'])]

end Loop

/-! ## §4 The place of the new node -/

section Place

variable {h : Mem α} {t l r : ColorTree α} {fs : List (Frame α)} {c : Color} {x n : α} {key : Nat}

omit [DecidableEq α] in
/-- In a tree with its keys in order, a node separates its two subtrees. -/
theorem keys_node (hs : (keysOf h (plug fs (node c l x r)).inorder).Pairwise (· ≤ ·)) :
    (∀ y ∈ l.inorder, h.key (some y) ≤ h.key (some x)) ∧
      ∀ y ∈ r.inorder, h.key (some x) ≤ h.key (some y) := by
  rw [inorder_plug, inorder, keysOf, List.pairwise_map, List.pairwise_append, List.pairwise_append,
    List.pairwise_append, List.pairwise_cons] at hs
  obtain ⟨⟨_, ⟨_, ⟨hxr, _⟩, hlx⟩, _⟩, _⟩ := hs
  exact ⟨fun y hy => hlx y hy x (by simp), hxr⟩

/-- The keys before a hole are at most `key`, and those behind it are greater. -/
structure Splits (h : Mem α) (fs : List (Frame α)) (key : Nat) : Prop where
  before : ∀ y ∈ before fs, h.key (some y) ≤ key
  after : ∀ y ∈ after fs, key < h.key (some y)

omit [DecidableEq α] in
/-- **The loop of `RBTreeInsert`** ends at the leaf that separates the keys. -/
theorem insertPos_spec (hat : RepAt h (parentOf fs) t)
    (hs : (keysOf h (plug fs t).inorder).Pairwise (· ≤ ·)) (hsplit : Splits h fs key) :
    ∃ fs', plug fs t = plug fs' leaf ∧ Splits h fs' key ∧
      ∃ k, ∀ fuel ≥ k, insertPos h key fuel (parentOf fs) t.root = some (parentOf fs') := by
  -- on the subtree that is left; what lies before and behind the path is split by the key
  induction t generalizing fs with
  | leaf =>
    refine ⟨fs, rfl, hsplit, 1, fun fuel hfuel => ?_⟩
    obtain ⟨m, rfl⟩ : ∃ m, fuel = m + 1 := ⟨fuel - 1, by omega⟩
    simp [insertPos, ColorTree.root]
  | node c l x r ihl ihr =>
    obtain ⟨hl, hr⟩ := keys_node hs
    obtain ⟨_, hcl, hcr, _, hatl, hatr⟩ := hat
    by_cases hkey : key < h.key (some x)
    · have hsplit' : Splits h (⟨.left, c, x, r⟩ :: fs) key := by
        refine ⟨fun y hy => hsplit.before y (by simpa [ColorTree.before] using hy), fun y hy => ?_⟩
        simp only [ColorTree.after, List.mem_append, List.mem_cons] at hy
        rcases hy with (rfl | hy) | hy
        · exact hkey
        · exact hkey.trans_le (hr y hy)
        · exact hsplit.after y hy
      obtain ⟨fs', hfs', hsp, k, hk⟩ := ihl (show RepAt h (parentOf (⟨.left, c, x, r⟩ :: fs)) l from hatl) hs hsplit'
      refine ⟨fs', hfs', hsp, k + 1, fun fuel hfuel => ?_⟩
      obtain ⟨m, rfl⟩ : ∃ m, fuel = m + 1 := ⟨fuel - 1, by omega⟩
      rw [ColorTree.root, insertPos, if_neg (by simp), if_pos hkey, hcl]
      exact hk m (by omega)
    -- a node with the same key comes before the new one
    · have hsplit' : Splits h (⟨.right, c, x, l⟩ :: fs) key := by
        refine ⟨fun y hy => ?_, fun y hy => hsplit.after y (by simpa [ColorTree.after] using hy)⟩
        simp only [ColorTree.before, List.mem_append, List.mem_singleton] at hy
        rcases hy with hy | hy | rfl
        · exact hsplit.before y hy
        · exact (hl y hy).trans (Nat.le_of_not_lt hkey)
        · exact Nat.le_of_not_lt hkey
      obtain ⟨fs', hfs', hsp, k, hk⟩ := ihr (show RepAt h (parentOf (⟨.right, c, x, l⟩ :: fs)) r from hatr) hs hsplit'
      refine ⟨fs', hfs', hsp, k + 1, fun fuel hfuel => ?_⟩
      obtain ⟨m, rfl⟩ : ∃ m, fuel = m + 1 := ⟨fuel - 1, by omega⟩
      rw [ColorTree.root, insertPos, if_neg (by simp), if_neg hkey, hcr]
      exact hk m (by omega)

/-- The link that `RBTreeInsert` sets below the last node is the hole. -/
theorem link_eq_fill (hsplit : Splits h fs (h.key (some n))) :
    (if parentOf fs = none then { h with root := some n }
      else if h.key (some n) < h.key (parentOf fs) then setChild h .left (parentOf fs) (some n)
      else setChild h .right (parentOf fs) (some n)) = fill h fs (some n) := by
  cases fs with
  | nil => rfl
  | cons f fs =>
    rw [parentOf, if_neg (by simp), fill]
    cases hside : f.side with
    | left => rw [if_pos (hsplit.after _ (by simp [ColorTree.after, hside]))]
    | right => rw [if_neg (Nat.not_lt.2 (hsplit.before _ (by simp [ColorTree.before, hside])))]

/-- **The new node** is hung into the hole. -/
theorem rep_link (hr : Rep h (plug fs leaf)) (hn : n ∉ (plug fs (leaf : ColorTree α)).inorder)
    (hc : h.color (some n) = .red) (hchild : ∀ s, h.child s (some n) = none) :
    Rep (fill (setParent h (some n) (parentOf fs)) fs (some n)) (plug fs (node .red leaf n leaf)) := by
  have hnf : n ∉ frameNodes fs := fun hm => hn (mem_inorder_plug.2 (.inr hm))
  have hndf := (nodup_plug.1 hr.nodup).2.1
  have hfs : RepFrames (setParent h (some n) (parentOf fs)) none fs := by
    refine hr.frames.congr rfl fun z hz => ?_
    have hzn : z ≠ n := fun he => hnf (he ▸ hz)
    exact ⟨rfl, fun s => rfl, by simp [hzn]⟩
  refine rep_plug ⟨by simp [hc], ?_, ?_, by simp, trivial, trivial⟩ (hfs.fill hndf _) ?_
  · rw [fill_child_some hnf, setParent_child, hchild, ColorTree.root]
  · rw [fill_child_some hnf, setParent_child, hchild, ColorTree.root]
  · rw [nodup_plug]
    exact ⟨by simp [inorder], hndf, by simpa [inorder] using hnf⟩

/-- `rbnode_init` of a node outside the tree. -/
theorem rep_rbnodeInit (hr : Rep h t) (hn : n ∉ t.inorder) (c : Color) :
    Rep (rbnodeInit h (some n) key c) t := by
  refine hr.congr rfl fun z hz => ?_
  have hzn : z ≠ n := fun he => hn (he ▸ hz)
  exact ⟨by simp [rbnodeInit, hzn], fun s => by simp [rbnodeInit, hzn], by simp [rbnodeInit, hzn]⟩

omit [DecidableEq α] in
/-- Where a node is inserted is seen in the order of the nodes. -/
theorem keysOf_insert {h' : Mem α} {pre post : List α} (hkey : ∀ y, y ≠ n → h'.key (some y) = h.key (some y))
    (hn : n ∉ pre ++ post) (hnk : h'.key (some n) = key)
    (hs : (keysOf h (pre ++ post)).Pairwise (· ≤ ·)) (hpre : ∀ y ∈ pre, h.key (some y) ≤ key)
    (hpost : ∀ y ∈ post, key < h.key (some y)) : (keysOf h' (pre ++ n :: post)).Pairwise (· ≤ ·) := by
  have hsame : ∀ y ∈ pre ++ post, h'.key (some y) = h.key (some y) := fun y hy =>
    hkey y fun he => hn (he ▸ hy)
  rw [keysOf, List.pairwise_map, List.pairwise_append] at hs ⊢
  obtain ⟨hsp, hsq, hspq⟩ := hs
  refine ⟨hsp.imp_of_mem fun hx hy hle => ?_, List.pairwise_cons.2 ⟨fun y hy => ?_,
    hsq.imp_of_mem fun hx hy hle => ?_⟩, fun x hx y hy => ?_⟩
  · rwa [hsame _ (by simp [hx]), hsame _ (by simp [hy])]
  · rw [hnk, hsame _ (by simp [hy])]
    exact (hpost y hy).le
  · rwa [hsame _ (by simp [hx]), hsame _ (by simp [hy])]
  · rw [hsame x (by simp [hx])]
    rcases List.mem_cons.1 hy with rfl | hy
    · rw [hnk]
      exact hpre x hx
    · rw [hsame y (by simp [hy])]
      exact hspq x hx y hy

/-- **`RBTreeInsert`** into any well-formed tree: it ends, the tree is well formed again, and the node
    stands behind all nodes with keys up to its own. -/
theorem RBTreeInsert_wellFormed (h : Mem α) (t : ColorTree α) (n : α) (key : Nat) (hw : WellFormed h t)
    (hn : n ∉ t.inorder) :
    ∃ h' t' pre post, (∃ k, ∀ fuel ≥ k,
        RBTreeInsert fuel (rbnodeInit h (some n) key .red) (some n) = some h') ∧
      WellFormed h' t' ∧ t.inorder = pre ++ post ∧ t'.inorder = pre ++ n :: post ∧
      h'.key (some n) = key ∧ (∀ x, x ≠ n → h'.key (some x) = h.key (some x)) ∧
      (∀ x ∈ pre, h'.key (some x) ≤ key) ∧ ∀ x ∈ post, key < h'.key (some x) := by
  obtain ⟨h₀, hh₀⟩ : ∃ h₀, h₀ = rbnodeInit h (some n) key .red := ⟨_, rfl⟩
  have hr₀ : Rep h₀ (plug [] t) := hh₀ ▸ rep_rbnodeInit hw.rep hn .red
  have hkn : h₀.key (some n) = key := by simp [hh₀, rbnodeInit]
  have hkey : ∀ y, y ≠ n → h₀.key (some y) = h.key (some y) := fun y hy => by
    simp [hh₀, rbnodeInit, hy]
  have hs₀ : (keysOf h₀ (plug [] t).inorder).Pairwise (· ≤ ·) := by
    have heq : keysOf h₀ t.inorder = keysOf h t.inorder :=
      List.map_congr_left fun y hy => hkey y fun he => hn (he ▸ hy)
    exact heq ▸ hw.sorted
  have hroot : Splits h₀ [] key := ⟨fun y hy => absurd hy (by simp [ColorTree.before]),
    fun y hy => absurd hy (by simp [ColorTree.after])⟩
  obtain ⟨fs, ht, hsplit, k, hk⟩ := insertPos_spec hr₀.at hs₀ hroot
  change t = plug fs leaf at ht
  subst ht
  change Rep h₀ (plug fs leaf) at hr₀
  -- the memory with the new node, and the state in which the climb starts
  have hlink := rep_link hr₀ hn (by simp [hh₀, rbnodeInit]) (by simp [hh₀, rbnodeInit])
  obtain ⟨hred, hframes, _⟩ := noRedRed_plug.1 hw.redBlack.noRedRed
  obtain ⟨m, hbal⟩ := hw.redBlack.balanced
  have hinv : ClimbInv (fill (setParent h₀ (some n) (parentOf fs)) fs (some n)) fs
      (node .red leaf n leaf) :=
    ⟨hlink, by simp [hh₀, rbnodeInit, hw.nil], rfl, by simp [NoRedRed, rootColor], hframes,
      hw.redBlack.root, m, by
        obtain ⟨m', hleaf, hfs⟩ := balanced_plug.1 hbal
        exact balanced_plug.2 ⟨m', ⟨m', hleaf, hleaf, rfl⟩, hfs⟩⟩
  obtain ⟨h', ⟨k', hk'⟩, t', hr', hnil', hkey', hin, hrb⟩ := RBTreeInsertFixup_spec hinv
  rw [inorder_plug] at hin
  have hkeys : h'.key = h₀.key := by simp [hkey']
  have hin₀ : (plug fs (leaf : ColorTree α)).inorder = ColorTree.before fs ++ ColorTree.after fs := by
    rw [inorder_plug, inorder, List.append_nil]
  rw [hin₀] at hn
  have hsorted : (keysOf h' t'.inorder).Pairwise (· ≤ ·) := by
    rw [hin, inorder, inorder, List.nil_append, List.append_assoc, List.singleton_append]
    refine keysOf_insert (h := h₀) (fun y _ => by rw [hkeys]) hn (by rw [hkeys, hkn]) ?_
      hsplit.before hsplit.after
    rw [← hin₀]
    exact hs₀
  refine ⟨h', t', ColorTree.before fs, ColorTree.after fs, ⟨max k k', fun fuel hfuel => ?_⟩,
    ⟨hr', hnil', hsorted, hrb⟩, hin₀, by simpa [inorder] using hin, by rw [hkeys, hkn],
    fun x hx => by rw [hkeys, hkey x hx], fun x hx => by rw [hkeys]; exact hsplit.before x hx,
    fun x hx => by rw [hkeys]; exact hsplit.after x hx⟩
  have hpos : insertPos h₀ (h₀.key (some n)) fuel none h₀.root = some (parentOf fs) := by
    rw [hkn, hr₀.root]
    exact hk fuel (by omega)
  have hsplit' : Splits (setParent h₀ (some n) (parentOf fs)) fs
      ((setParent h₀ (some n) (parentOf fs)).key (some n)) := by
    rw [setParent_key, hkn]
    exact ⟨hsplit.before, hsplit.after⟩
  have hfill := link_eq_fill hsplit'
  rw [← hh₀, RBTreeInsert, hpos]
  simp only [Option.bind_eq_bind, Option.bind_some]
  rw [hfill]
  exact hk' fuel (by omega)

/-- A tree of one black node. -/
def oneNode : Mem Nat where
  root := some 1
  color := fun _ => .black
  key := fun _ => 5
  child := fun _ _ => none
  parent := fun _ => none

theorem oneNode_wellFormed : WellFormed oneNode (node .black leaf 1 leaf) where
  rep := ⟨rfl, ⟨rfl, rfl, rfl, rfl, trivial, trivial⟩, by simp [inorder]⟩
  nil := rfl
  sorted := by simp [inorder, keysOf]
  redBlack := ⟨rfl, ⟨by simp, trivial, trivial⟩, 1, 0, rfl, rfl, rfl⟩

theorem RBTreeInsert_oneNode :
    ∃ h' t' pre post, (∃ k, ∀ fuel ≥ k,
        RBTreeInsert fuel (rbnodeInit oneNode (some 2) 5 .red) (some 2) = some h') ∧
      WellFormed h' t' ∧ [1] = pre ++ post ∧ t'.inorder = pre ++ 2 :: post ∧
      h'.key (some 2) = 5 ∧ (∀ x, x ≠ 2 → h'.key (some x) = oneNode.key (some x)) ∧
      (∀ x ∈ pre, h'.key (some x) ≤ 5) ∧ ∀ x ∈ post, 5 < h'.key (some x) :=
  RBTreeInsert_wellFormed oneNode (node .black leaf 1 leaf) 2 5 oneNode_wellFormed (by simp [inorder])

end Place

end WeiOS.Krbtree
