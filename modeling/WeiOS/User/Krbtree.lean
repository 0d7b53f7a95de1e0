import Mathlib
import WeiOS.Lib.RedBlack

/-!
# Red-Black Trees of the User Library

Models `lib/krbfunc.c`. The nodes are structures anywhere in memory, linked by `left`, `right` and
`parent`; `T->nil`, a structure of its own, stands for every missing child and for the parent of the
root, and has a colour and links like any other node.

A pointer is `none` for `&T->nil` and `some x` for node `x`. The memory holds one function per field;
`child .left` and `child .right` are the fields `left` and `right`, so the two mirror images that the
source writes out are one definition. A loop is given a number of rounds and fails if it needs more.
-/

set_option linter.style.nameCheck false

namespace WeiOS.Krbtree

open WeiOS.Lib

variable {α : Type*} [DecidableEq α]

/-- The fields of all nodes, `&T->nil` among them, and `T->root`. -/
structure Mem (α : Type*) where
  root : Option α
  color : Option α → Color
  key : Option α → Nat
  child : Side → Option α → Option α
  parent : Option α → Option α

/-! ## §1 Fields -/

/-- `n->color = c`. -/
def setColor (h : Mem α) (n : Option α) (c : Color) : Mem α :=
  { h with color := Function.update h.color n c }

/-- `n->left = v` or `n->right = v`. -/
def setChild (h : Mem α) (s : Side) (n v : Option α) : Mem α :=
  { h with child := Function.update h.child s (Function.update (h.child s) n v) }

/-- `n->parent = v`. -/
def setParent (h : Mem α) (n v : Option α) : Mem α :=
  { h with parent := Function.update h.parent n v }

/-- `rbnode_init`. -/
def rbnodeInit (h : Mem α) (n : Option α) (key : Nat) (color : Color) : Mem α where
  root := h.root
  key := Function.update h.key n key
  child := fun s => Function.update (h.child s) n none
  parent := Function.update h.parent n none
  color := Function.update h.color n color

/-- `rbtree_init`. -/
def rbtreeInit (h : Mem α) : Mem α := rbnodeInit { h with root := none } none 0 .black

/-! ## §2 Search -/

/-- `RBTreeMinimum`. -/
def RBTreeMinimum (h : Mem α) : Nat → Option α → Option (Option α)
  | 0, _ => none
  | fuel + 1, n => if h.child .left n ≠ none then RBTreeMinimum h fuel (h.child .left n) else some n

/-- The loop of `RBTreeSearch`. -/
def searchFrom (h : Mem α) (key : Nat) : Nat → Option α → Option (Option α)
  | 0, _ => none
  | fuel + 1, n =>
    if n = none then some none
    else if key < h.key n then searchFrom h key fuel (h.child .left n)
    else if h.key n < key then searchFrom h key fuel (h.child .right n)
    else some n

/-- `RBTreeSearch`. -/
def RBTreeSearch (h : Mem α) (fuel key : Nat) : Option (Option α) := searchFrom h key fuel h.root

/-- The climb of `RBNodeSucceeder`. -/
def climb (h : Mem α) : Nat → Option α → Option (Option α)
  | 0, _ => none
  | fuel + 1, n =>
    if h.parent n ≠ none ∧ n = h.child .right (h.parent n) then climb h fuel (h.parent n)
    else some (h.parent n)

/-- `RBNodeSucceeder`. -/
def RBNodeSucceeder (h : Mem α) (fuel : Nat) (n : Option α) : Option (Option α) :=
  if n ≠ none ∧ h.child .right n ≠ none then some (h.child .right n) else climb h fuel n

/-! ## §3 Rotations -/

/-- `v` takes the place of `n` below its parent `p`, or at the root: the test that both rotations and
    `RBTreeTransplant` make. -/
def replaceChild (h : Mem α) (p n v : Option α) : Mem α :=
  if p = none then { h with root := v }
  else if n = h.child .left p then setChild h .left p v
  else setChild h .right p v

/-- The two rotations: the child of `n` on the other side goes up, and `n` goes down on side `s`. -/
def rotate (s : Side) (h : Mem α) (n : Option α) : Mem α :=
  let m := h.child s.other n
  let h := setChild h s.other n (h.child s m)
  let h := if h.child s m ≠ none then setParent h (h.child s m) n else h
  let h := setParent h m (h.parent n)
  let h := replaceChild h (h.parent n) n m
  let h := setChild h s m n
  setParent h n m

/-- `LeftRotate`. -/
def LeftRotate (h : Mem α) (n : Option α) : Mem α := rotate .left h n

/-- `RightRotate`. -/
def RightRotate (h : Mem α) (n : Option α) : Mem α := rotate .right h n

/-- `RBTreeTransplant`: the parent of `dst` is set even if `dst` is `&T->nil`. -/
def RBTreeTransplant (h : Mem α) (src dst : Option α) : Mem α :=
  let h := replaceChild h (h.parent src) src dst
  setParent h dst (h.parent src)

/-! ## §4 Insertion -/

/-- One round of `RBTreeInsertFixup`, where the parent of `n` is a child of its own parent on side `s`;
    it returns where the next round starts. -/
def insertRound (s : Side) (h : Mem α) (n : Option α) : Mem α × Option α :=
  let y := h.child s.other (h.parent (h.parent n))
  if h.color y = .red then
    let h := setColor h (h.parent n) .black
    let h := setColor h y .black
    let h := setColor h (h.parent (h.parent n)) .red
    (h, h.parent (h.parent n))
  else
    let (h, n) := if n = h.child s.other (h.parent n) then (rotate s h (h.parent n), h.parent n)
      else (h, n)
    let h := setColor h (h.parent n) .black
    let h := setColor h (h.parent (h.parent n)) .red
    (rotate s.other h (h.parent (h.parent n)), n)

/-- `RBTreeInsertFixup`. -/
def RBTreeInsertFixup : Nat → Mem α → Option α → Option (Mem α)
  | 0, _, _ => none
  | fuel + 1, h, n =>
    if h.color (h.parent n) = .red then
      let s := if h.parent n = h.child .left (h.parent (h.parent n)) then .left else .right
      RBTreeInsertFixup fuel (insertRound s h n).1 (insertRound s h n).2
    else some (setColor h h.root .black)

/-- The loop of `RBTreeInsert`, which ends at the parent of the new node. -/
def insertPos (h : Mem α) (key : Nat) : Nat → Option α → Option α → Option (Option α)
  | 0, _, _ => none
  | fuel + 1, tp, tc =>
    if tc = none then some tp
    else if key < h.key tc then insertPos h key fuel tc (h.child .left tc)
    else insertPos h key fuel tc (h.child .right tc)

/-- `RBTreeInsert`. -/
def RBTreeInsert (fuel : Nat) (h : Mem α) (n : Option α) : Option (Mem α) := do
  let tp ← insertPos h (h.key n) fuel none h.root
  let h := setParent h n tp
  let h := if tp = none then { h with root := n }
    else if h.key n < h.key tp then setChild h .left tp n
    else setChild h .right tp n
  RBTreeInsertFixup fuel h n

/-! ## §5 Deletion -/

/-- The start of a round of `RBTreeDeleteFixup`, where `n` is a child on side `s`: a red sibling is
    rotated away. It returns the sibling after that. -/
def deleteSibling (s : Side) (h : Mem α) (n : Option α) : Mem α × Option α :=
  let w := h.child s.other (h.parent n)
  if h.color w = .red then
    let h := setColor h w .black
    let h := setColor h (h.parent w) .red
    let h := rotate s h (h.parent n)
    (h, h.child s.other (h.parent n))
  else (h, w)

/-- The colour of the sibling in the last case of a round: the right half of the source gives it the
    colour of the parent, the left half red. -/
def siblingColor (s : Side) (parent : Color) : Color := match s with
  | .left => .red
  | .right => parent

/-- The last case of a round, where the far child of the sibling `w` is red. -/
def deleteLast (s : Side) (h : Mem α) (n w : Option α) : Mem α :=
  let h := setColor h w (siblingColor s (h.color (h.parent n)))
  let h := setColor h (h.parent n) .black
  let h := setColor h (h.child s.other w) .black
  rotate s h (h.parent n)

/-- The rest of a round, with a black sibling `w`; it returns where the next round starts. -/
def deleteCases (s : Side) (h : Mem α) (n w : Option α) : Mem α × Option α :=
  if h.color (h.child s w) = .black ∧ h.color (h.child s.other w) = .black then
    let h := setColor h w .red
    (h, h.parent n)
  else
    let (h, w) :=
      if h.color (h.child s.other w) = .black then
        let h := setColor h (h.child s w) .black
        let h := setColor h w .red
        let h := rotate s.other h w
        (h, h.child s.other (h.parent n))
      else (h, w)
    let h := deleteLast s h n w
    (h, h.root)

/-- One round of `RBTreeDeleteFixup`. -/
def deleteRound (s : Side) (h : Mem α) (n : Option α) : Mem α × Option α :=
  let (h, w) := deleteSibling s h n
  deleteCases s h n w

/-- `RBTreeDeleteFixup`. -/
def RBTreeDeleteFixup : Nat → Mem α → Option α → Option (Mem α)
  | 0, _, _ => none
  | fuel + 1, h, n =>
    if n ≠ h.root ∧ h.color n = .black then
      let s := if n = h.child .left (h.parent n) then .left else .right
      RBTreeDeleteFixup fuel (deleteRound s h n).1 (deleteRound s h n).2
    else some (setColor h n .black)

/-- The part of `RBTreeDeleteNode` in which the successor `y` of `n` leaves its place. -/
def detach (h : Mem α) (n y : Option α) : Mem α :=
  if h.parent y = n then setParent h (h.child .right y) y
  else
    let h := RBTreeTransplant h y (h.child .right y)
    let h := setChild h .right y (h.child .right n)
    setParent h (h.child .right y) y

/-- The part of `RBTreeDeleteNode` in which `y` takes the place of `n`. -/
def takePlace (h : Mem α) (n y : Option α) : Mem α :=
  let h := RBTreeTransplant h n y
  let h := setChild h .left y (h.child .left n)
  let h := setParent h (h.child .left y) y
  setColor h y (h.color n)

/-- The first part of `RBTreeDeleteNode`: it takes the node out of the tree, and returns the colour
    that is gone (`TyOriginalColor`) and where a black one is missing (`Tx`). -/
def splice (fuel : Nat) (h : Mem α) (n : Option α) : Option (Mem α × Color × Option α) :=
  if h.child .left n = none then
    let x := h.child .right n
    some (RBTreeTransplant h n x, h.color n, x)
  else if h.child .right n = none then
    let x := h.child .left n
    some (RBTreeTransplant h n x, h.color n, x)
  else do
    let y ← RBTreeMinimum h fuel (h.child .right n)
    let x := h.child .right y
    pure (takePlace (detach h n y) n y, h.color y, x)

/-- `RBTreeDeleteNode`. -/
def RBTreeDeleteNode (fuel : Nat) (h : Mem α) (n : Option α) : Option (Mem α) := do
  let (h, yOriginalColor, x) ← splice fuel h n
  let h := setChild (setChild h .left n none) .right n none
  if yOriginalColor = .black then RBTreeDeleteFixup fuel h x else pure h

end WeiOS.Krbtree
