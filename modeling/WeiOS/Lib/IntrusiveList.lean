import Mathlib

/-!
# Intrusive Doubly Linked Lists

The circular lists of `include/kernel.h` over an arbitrary type of nodes: a list is a head node and
the nodes linked behind it, and every node stores its own two pointers, `none` for null. A write
through a null pointer is a fault (`none`).

`Ring L h xs` says that the list of head `h` has the nodes `xs`, in `next` order and without
repetition. Each operation has a specification on rings, and leaves every ring alone that does not
share a node with it.

`Lists L S xs` is a family of such lists, one for each head in `S`, that share no element. This is
the form in which a component with several lists over one kind of element is specified: `add` and
`del` change one entry of the family.
-/

namespace WeiOS.Lib

variable {N : Type*} [DecidableEq N]

/-! ## §1 Operations -/

/-- The two pointers of every node. -/
structure Links (N : Type*) where
  next : N → Option N
  prev : N → Option N

/-- `p->next = q`. -/
def Links.setNext (L : Links N) (p : N) (q : Option N) : Links N :=
  { L with next := Function.update L.next p q }

/-- `p->prev = q`. -/
def Links.setPrev (L : Links N) (p : N) (q : Option N) : Links N :=
  { L with prev := Function.update L.prev p q }

/-- `LIST_HEAD_INIT`. -/
def Links.init (L : Links N) (h : N) : Links N :=
  (L.setNext h (some h)).setPrev h (some h)

/-- `list_empty`. -/
def Links.isEmpty (L : Links N) (h : N) : Bool := decide (L.next h = some h)

/-- `list_add`, statement by statement. -/
def Links.add (L : Links N) (x h : N) : Option (Links N) := do
  let L := L.setNext x (L.next h)
  let n ← L.next h
  let L := L.setPrev n (some x)
  let L := L.setNext h (some x)
  pure (L.setPrev x (some h))

/-- `list_add_tail`, statement by statement. -/
def Links.addTail (L : Links N) (x h : N) : Option (Links N) := do
  let L := L.setNext x (some h)
  let L := L.setPrev x (L.prev h)
  let p ← L.prev x
  let L := L.setNext p (some x)
  pure (L.setPrev h (some x))

/-- `list_del`, statement by statement. -/
def Links.del (L : Links N) (x : N) : Option (Links N) := do
  let p ← L.prev x
  let L := L.setNext p (L.next x)
  let n ← L.next x
  let L := L.setPrev n (L.prev x)
  pure ((L.setNext x none).setPrev x none)

@[simp] theorem Links.setNext_next (L : Links N) (p : N) (q : Option N) :
    (L.setNext p q).next = Function.update L.next p q := rfl
@[simp] theorem Links.setNext_prev (L : Links N) (p : N) (q : Option N) :
    (L.setNext p q).prev = L.prev := rfl
@[simp] theorem Links.setPrev_next (L : Links N) (p : N) (q : Option N) :
    (L.setPrev p q).next = L.next := rfl
@[simp] theorem Links.setPrev_prev (L : Links N) (p : N) (q : Option N) :
    (L.setPrev p q).prev = Function.update L.prev p q := rfl

/-! ## §2 Rings -/

/-- `b` follows `a`. -/
def Links.Linked (L : Links N) (a b : N) : Prop := L.next a = some b ∧ L.prev b = some a

/-- The list of head `h` consists of the nodes `xs`. -/
structure Ring (L : Links N) (h : N) (xs : List N) : Prop where
  chain : List.IsChain L.Linked (h :: xs ++ [h])
  nodup : (h :: xs).Nodup

omit [DecidableEq N] in
/-- A chain reads the `next` of all its nodes but the last, and the `prev` of all but the first. -/
theorem isChain_congr {L L' : Links N} {l : List N} (hc : List.IsChain L.Linked l)
    (hnext : ∀ a ∈ l.dropLast, L'.next a = L.next a) (hprev : ∀ b ∈ l.tail, L'.prev b = L.prev b) :
    List.IsChain L'.Linked l := by
  induction l with
  | nil => exact List.isChain_nil
  | cons a l ih =>
    cases l with
    | nil => exact List.isChain_singleton a
    | cons b l =>
      rw [List.isChain_cons_cons] at hc ⊢
      refine ⟨⟨?_, ?_⟩, ih hc.2 ?_ ?_⟩
      · rw [hnext a (by simp)]
        exact hc.1.1
      · rw [hprev b (by simp)]
        exact hc.1.2
      · intro x hx
        exact hnext x (List.mem_cons_of_mem _ hx)
      · intro x hx
        exact hprev x (List.mem_cons_of_mem _ hx)

omit [DecidableEq N] in
/-- **Frame rule**: a ring depends on the pointers of its own nodes only. -/
theorem Ring.congr {L L' : Links N} {h : N} {xs : List N} (hr : Ring L h xs)
    (hsame : ∀ a ∈ h :: xs, L'.next a = L.next a ∧ L'.prev a = L.prev a) : Ring L' h xs := by
  refine ⟨isChain_congr hr.chain ?_ ?_, hr.nodup⟩
  · intro a ha
    rw [List.dropLast_concat] at ha
    exact (hsame a ha).1
  · intro b hb
    rw [List.cons_append, List.tail_cons, List.mem_append, List.mem_singleton] at hb
    rcases hb with hb | rfl
    · exact (hsame b (List.mem_cons_of_mem _ hb)).2
    · exact (hsame b List.mem_cons_self).2

/-- An initialised head is an empty list. -/
theorem ring_init (L : Links N) (h : N) : Ring (L.init h) h [] := by
  refine ⟨?_, List.nodup_singleton h⟩
  simp [Links.Linked, Links.init]

omit [DecidableEq N] in
/-- Chains that start at one node and stop at another are equal. -/
theorem isChain_unique {L : Links N} {a h : N} {l l' : List N}
    (hc : List.IsChain L.Linked (a :: (l ++ [h]))) (hc' : List.IsChain L.Linked (a :: (l' ++ [h])))
    (hl : h ∉ l) (hl' : h ∉ l') : l = l' := by
  induction l generalizing a l' with
  | nil =>
    cases l' with
    | nil => rfl
    | cons b l' =>
      have hnext := hc.rel.1.symm.trans hc'.rel.1
      exact absurd (Option.some.inj hnext ▸ List.mem_cons_self) hl'
  | cons b l ih =>
    cases l' with
    | nil =>
      have hnext := hc'.rel.1.symm.trans hc.rel.1
      exact absurd (Option.some.inj hnext ▸ List.mem_cons_self) hl
    | cons b' l' =>
      obtain rfl : b = b' := Option.some.inj (hc.rel.1.symm.trans hc'.rel.1)
      rw [ih hc.tail hc'.tail (fun hm => hl (List.mem_cons_of_mem _ hm))
        (fun hm => hl' (List.mem_cons_of_mem _ hm))]

omit [DecidableEq N] in
/-- The pointers determine the list of a head. -/
theorem Ring.unique {L : Links N} {h : N} {xs ys : List N} (hx : Ring L h xs) (hy : Ring L h ys) :
    xs = ys :=
  isChain_unique hx.chain hy.chain (List.nodup_cons.1 hx.nodup).1 (List.nodup_cons.1 hy.nodup).1

omit [DecidableEq N] in
/-- The first node of a list, or the head itself. -/
theorem Ring.next_head {L : Links N} {h : N} {xs : List N} (hr : Ring L h xs) :
    L.next h = some (xs.headD h) := by
  have hc := hr.chain
  cases xs with
  | nil => exact (List.isChain_cons_cons.1 hc).1.1
  | cons x xs => exact (List.isChain_cons_cons.1 hc).1.1

/-- `list_empty` tells whether there are nodes. -/
theorem Ring.isEmpty_iff {L : Links N} {h : N} {xs : List N} (hr : Ring L h xs) :
    L.isEmpty h = true ↔ xs = [] := by
  rw [Links.isEmpty, decide_eq_true_iff, hr.next_head]
  cases xs with
  | nil => simp
  | cons x xs =>
    have hne : x ≠ h := by
      rintro rfl
      exact (List.nodup_cons.1 hr.nodup).1 List.mem_cons_self
    simpa using hne

/-! ## §3 Insertion and deletion -/

/-- The links after `list_add` of `x` in front of `n`. -/
def Links.addResult (L : Links N) (x h n : N) : Links N :=
  (((L.setNext x (some n)).setPrev n (some x)).setNext h (some x)).setPrev x (some h)

theorem Links.add_eq {L : Links N} {x h n : N} (hx : x ≠ h) (hn : L.next h = some n) :
    L.add x h = some (L.addResult x h n) := by
  simp [Links.add, Links.addResult, hn, hx.symm]

/-- `list_add` puts a node in front. The node may have pointers from an earlier life. -/
theorem Ring.add {L : Links N} {h x : N} {xs : List N} (hr : Ring L h xs) (hx : x ∉ h :: xs) :
    Ring (L.addResult x h (xs.headD h)) h (x :: xs) := by
  obtain ⟨hxh, hxs⟩ : x ≠ h ∧ x ∉ xs := by simpa using hx
  have hnd : (h :: x :: xs).Nodup := by
    have := hr.nodup
    simp only [List.nodup_cons, List.mem_cons, not_or] at this ⊢
    exact ⟨⟨fun he => hxh he.symm, this.1⟩, hxs, this.2⟩
  refine ⟨?_, hnd⟩
  have hc := hr.chain
  rw [List.cons_append, List.cons_append, List.isChain_cons_cons]
  refine ⟨?_, ?_⟩
  · simp [Links.Linked, Links.addResult]
  · -- behind `x` nothing changes but the `prev` of the first old node
    cases xs with
    | nil => simp [Links.Linked, Links.addResult, hxh, hxh.symm]
    | cons y ys =>
      have hyh : y ≠ h := by
        rintro rfl
        exact (List.nodup_cons.1 hr.nodup).1 List.mem_cons_self
      have hxy : x ≠ y := fun he => hxs (he ▸ List.mem_cons_self)
      rw [List.cons_append, List.isChain_cons_cons]
      refine ⟨?_, ?_⟩
      · simp [Links.Linked, Links.addResult, hxh, hxy.symm]
      · rw [List.cons_append, List.cons_append, List.isChain_cons_cons] at hc
        have hys : y ∉ ys ++ [h] := by
          have := hr.nodup
          simp only [List.nodup_cons] at this
          simp [this.2.1, hyh]
        refine isChain_congr hc.2 ?_ ?_
        · intro a ha
          rw [← List.cons_append, List.dropLast_concat] at ha
          have hah : a ≠ h := fun he => (List.nodup_cons.1 hr.nodup).1 (he ▸ ha)
          have hax : a ≠ x := fun he => hxs (he ▸ ha)
          simp [Links.addResult, hah, hax]
        · intro b hb
          rw [List.tail_cons] at hb
          have hby : b ≠ y := fun he => hys (he ▸ hb)
          have hbx : b ≠ x := by
            rintro rfl
            rcases List.mem_append.1 hb with hb | hb
            · exact hxs (List.mem_cons_of_mem _ hb)
            · exact hxh (List.mem_singleton.1 hb)
          simp [Links.addResult, hby, hbx]

/-- `list_add` touches the new node, the head and the first node only. -/
theorem Links.addResult_other {L : Links N} {x h n a : N} (hax : a ≠ x) (hah : a ≠ h) (han : a ≠ n) :
    (L.addResult x h n).next a = L.next a ∧ (L.addResult x h n).prev a = L.prev a := by
  simp [Links.addResult, hax, hah, han]

/-- The links after `list_del` of `x` from between `p` and `n`. -/
def Links.delResult (L : Links N) (x p n : N) : Links N :=
  (((L.setNext p (some n)).setPrev n (some p)).setNext x none).setPrev x none

theorem Links.del_eq {L : Links N} {x p n : N} (hxp : x ≠ p) (hp : L.prev x = some p)
    (hn : L.next x = some n) : L.del x = some (L.delResult x p n) := by
  simp [Links.del, Links.delResult, hp, hn, hxp]

/-- `list_del` takes a node out. -/
theorem Ring.del {L : Links N} {h x : N} {xs ys : List N} (hr : Ring L h (xs ++ x :: ys)) :
    ∃ p n, p ∈ h :: xs ∧ n ∈ h :: ys ∧ L.prev x = some p ∧ L.next x = some n ∧
      Ring (L.delResult x p n) h (xs ++ ys) := by
  have hnd := hr.nodup
  have hc := hr.chain
  have hx : x ∉ h :: xs ∧ x ∉ ys := by
    have hsub : (h :: xs ++ x :: ys).Nodup := hnd
    rw [List.nodup_append] at hsub
    obtain ⟨_, hy, hdis⟩ := hsub
    exact ⟨fun hm => hdis x hm x List.mem_cons_self rfl, (List.nodup_cons.1 hy).1⟩
  -- split the ring at `x`: `h :: xs` ends in `p`, and `ys ++ [h]` starts with `n`
  obtain ⟨pre, p, hpre⟩ : ∃ pre p, h :: xs = pre ++ [p] :=
    ⟨_, _, (List.dropLast_append_getLast (List.cons_ne_nil h xs)).symm⟩
  obtain ⟨n, post, hpost⟩ : ∃ n post, ys ++ [h] = n :: post := by
    cases ys with
    | nil => exact ⟨h, [], rfl⟩
    | cons y ys => exact ⟨y, ys ++ [h], rfl⟩
  have hsplit : h :: (xs ++ x :: ys) ++ [h] = pre ++ p :: x :: n :: post := by
    have : h :: (xs ++ x :: ys) ++ [h] = (h :: xs) ++ x :: (ys ++ [h]) := by simp
    rw [this, hpre, hpost]
    simp
  rw [hsplit, List.isChain_split] at hc
  obtain ⟨hc₁, hc₂⟩ := hc
  rw [List.isChain_cons_cons, List.isChain_cons_cons] at hc₂
  obtain ⟨⟨hpx, hxp⟩, ⟨hxn, hnx⟩, hc₃⟩ := hc₂
  have hpmem : p ∈ h :: xs := by
    rw [hpre]
    simp
  have hnmem : n ∈ h :: ys := by
    have : n ∈ ys ++ [h] := by
      rw [hpost]
      exact List.mem_cons_self
    rcases List.mem_append.1 this with hm | hm
    · exact List.mem_cons_of_mem _ hm
    · rw [List.mem_singleton.1 hm]
      exact List.mem_cons_self
  have hpx' : p ≠ x := fun he => hx.1 (he ▸ hpmem)
  have hnx' : n ≠ x := by
    rintro rfl
    rcases List.mem_cons.1 hnmem with he | hm
    · exact hx.1 (he ▸ List.mem_cons_self)
    · exact hx.2 hm
  have hnd' : (pre ++ [p] ++ x :: ys).Nodup := by
    rw [← hpre]
    exact hnd
  refine ⟨p, n, hpmem, hnmem, hxp, hxn, ?_, ?_⟩
  · have hgoal : h :: (xs ++ ys) ++ [h] = pre ++ p :: n :: post := by
      have : h :: (xs ++ ys) ++ [h] = (h :: xs) ++ (ys ++ [h]) := by simp
      rw [this, hpre, hpost]
      simp
    rw [hgoal, List.isChain_split, List.isChain_cons_cons]
    have hprene : ∀ a ∈ pre, a ≠ p ∧ a ≠ x := by
      intro a ha
      rw [List.append_assoc, List.nodup_append] at hnd'
      exact ⟨fun he => hnd'.2.2 a ha p (by simp) he, fun he => hnd'.2.2 a ha x (by simp) he⟩
    have hheadx : ∀ b ∈ post, b ≠ x := by
      intro b hb he
      have : b ∈ ys ++ [h] := by
        rw [hpost]
        exact List.mem_cons_of_mem _ hb
      rcases List.mem_append.1 this with hm | hm
      · exact hx.2 (he ▸ hm)
      · exact hx.1 (by rw [← he, List.mem_singleton.1 hm]; exact List.mem_cons_self)
    have hysh : (ys ++ [h]).Nodup := by
      have h1 := List.nodup_cons.1 hnd
      rw [List.nodup_append] at h1
      have hys := List.nodup_cons.1 h1.2.2.1
      refine List.nodup_append.2 ⟨hys.2, List.nodup_singleton h, ?_⟩
      rintro a ha b hb rfl
      exact h1.1 (by rw [← List.mem_singleton.1 hb]; simp [ha])
    rw [hpost] at hysh
    refine ⟨isChain_congr hc₁ ?_ ?_, ⟨?_, ?_⟩, isChain_congr hc₃ ?_ ?_⟩
    · intro a ha
      rw [List.dropLast_concat] at ha
      simp [Links.delResult, (hprene a ha).1, (hprene a ha).2]
    · -- `n` is not among the nodes up to `p`, apart from the head, whose `prev` comes last
      intro b hb
      have hbx : b ≠ x := by
        have hb' : b ∈ pre ++ [p] := List.mem_of_mem_tail hb
        rw [← hpre] at hb'
        exact fun he => hx.1 (he ▸ hb')
      have hbn : b ≠ n := by
        rintro rfl
        rw [← hpre, List.tail_cons] at hb
        have h1 := List.nodup_cons.1 hnd
        rw [List.nodup_append] at h1
        rcases List.mem_cons.1 hnmem with he | hm
        · exact h1.1 (by rw [← he]; simp [hb])
        · exact h1.2.2.2 b hb b (List.mem_cons_of_mem _ hm) rfl
      simp [Links.delResult, hbx, hbn]
    · simp [Links.delResult, hpx']
    · simp [Links.delResult, hnx']
    · -- the nodes behind `x` come after `p`
      intro a ha
      have hap : a ≠ p ∧ a ≠ x := by
        have : a ∈ ys := by
          have hdl : (n :: post).dropLast = ys := by
            rw [← hpost, List.dropLast_concat]
          exact hdl ▸ ha
        rw [List.nodup_append] at hnd'
        exact ⟨fun he => hnd'.2.2 p (by simp) a (List.mem_cons_of_mem _ this) he.symm,
          fun he => hx.2 (he ▸ this)⟩
      simp [Links.delResult, hap.1, hap.2]
    · intro b hb
      rw [List.tail_cons] at hb
      have hbn : b ≠ n := fun he => (List.nodup_cons.1 hysh).1 (he ▸ hb)
      simp [Links.delResult, hbn, hheadx b hb]
  · have : (h :: (xs ++ ys)).Sublist (h :: (xs ++ x :: ys)) :=
      ((List.Sublist.refl xs).append (List.sublist_cons_self x ys)).cons_cons h
    exact hnd.sublist this

/-- `list_del` touches the node and its two neighbours only. -/
theorem Links.delResult_other {L : Links N} {x p n a : N} (hax : a ≠ x) (hap : a ≠ p) (han : a ≠ n) :
    (L.delResult x p n).next a = L.next a ∧ (L.delResult x p n).prev a = L.prev a := by
  simp [Links.delResult, hax, hap, han]

/-- `list_add` as a whole. -/
theorem Ring.exists_add {L : Links N} {h x : N} {xs : List N} (hr : Ring L h xs)
    (hx : x ∉ h :: xs) :
    ∃ L', L.add x h = some L' ∧ Ring L' h (x :: xs) ∧
      ∀ a ∉ x :: h :: xs, L'.next a = L.next a ∧ L'.prev a = L.prev a := by
  have hxh : x ≠ h := fun he => hx (he ▸ List.mem_cons_self)
  refine ⟨_, Links.add_eq hxh hr.next_head, hr.add hx, fun a ha => ?_⟩
  simp only [List.mem_cons, not_or] at ha
  refine Links.addResult_other ha.1 ha.2.1 ?_
  cases xs with
  | nil => exact ha.2.1
  | cons y ys => exact fun he => ha.2.2 (he ▸ List.mem_cons_self)

/-- `list_del` as a whole. -/
theorem Ring.exists_del {L : Links N} {h x : N} {xs ys : List N} (hr : Ring L h (xs ++ x :: ys)) :
    ∃ L', L.del x = some L' ∧ Ring L' h (xs ++ ys) ∧
      ∀ a ∉ h :: (xs ++ x :: ys), L'.next a = L.next a ∧ L'.prev a = L.prev a := by
  obtain ⟨p, n, hp, hn, hprev, hnext, hring⟩ := hr.del
  have hpx : x ≠ p := by
    rintro rfl
    have hnd : (h :: xs ++ x :: ys).Nodup := hr.nodup
    rw [List.nodup_append] at hnd
    exact hnd.2.2 x hp x List.mem_cons_self rfl
  refine ⟨_, Links.del_eq hpx hprev hnext, hring, fun a ha => ?_⟩
  apply Links.delResult_other
  · rintro rfl
    exact ha (by simp)
  · rintro rfl
    apply ha
    rcases List.mem_cons.1 hp with he | hm
    · exact he ▸ List.mem_cons_self
    · simp [hm]
  · rintro rfl
    apply ha
    rcases List.mem_cons.1 hn with he | hm
    · exact he ▸ List.mem_cons_self
    · simp [hm]

/-! ### Insertion at the end -/

/-- The same nodes, linked the other way round. -/
def Links.flip (L : Links N) : Links N := ⟨L.prev, L.next⟩

omit [DecidableEq N] in
@[simp] theorem Links.flip_flip (L : Links N) : L.flip.flip = L := rfl

omit [DecidableEq N] in
/-- A list read backwards. -/
theorem Ring.flip {L : Links N} {h : N} {xs : List N} (hr : Ring L h xs) :
    Ring L.flip h xs.reverse := by
  constructor
  · have hc := List.isChain_reverse.2 hr.chain
    have hrev : h :: xs.reverse ++ [h] = (h :: xs ++ [h]).reverse := by simp
    rw [hrev, List.isChain_reverse]
    exact hr.chain.imp fun a b hab => ⟨hab.2, hab.1⟩
  · have := hr.nodup
    simpa using this

/-- `list_add_tail` is `list_add` on the list read backwards. -/
theorem Links.addTail_eq {L L' : Links N} {x h : N} {xs : List N} (hr : Ring L h xs)
    (hx : x ∉ h :: xs) (hadd : L.flip.add x h = some L') : L.addTail x h = some L'.flip := by
  have hxh : x ≠ h := fun he => hx (he ▸ List.mem_cons_self)
  have hp := hr.flip.next_head
  have hpx : xs.reverse.headD h ≠ x := by
    intro he
    apply hx
    rw [← he]
    cases hrev : xs.reverse with
    | nil => simp
    | cons y ys =>
      have hy : y ∈ xs := by
        rw [← List.mem_reverse, hrev]
        exact List.mem_cons_self
      exact List.mem_cons_of_mem _ hy
  rw [Links.add_eq hxh hp] at hadd
  obtain rfl := Option.some.inj hadd
  have hprev : L.prev h = some (xs.reverse.headD h) := hp
  simp only [Links.addTail, Links.addResult, Links.flip, Links.setNext, Links.setPrev, hprev,
    Function.update_self, Option.bind_eq_bind, Option.bind_some, Option.pure_def,
    Option.some.injEq, Links.mk.injEq, and_true]
  -- the two writes to `next` are made in the other order
  exact Function.update_comm hpx.symm _ _ _

/-- `list_add_tail` as a whole. -/
theorem Ring.exists_addTail {L : Links N} {h x : N} {xs : List N} (hr : Ring L h xs)
    (hx : x ∉ h :: xs) :
    ∃ L', L.addTail x h = some L' ∧ Ring L' h (xs ++ [x]) ∧
      ∀ a ∉ x :: h :: xs, L'.next a = L.next a ∧ L'.prev a = L.prev a := by
  obtain ⟨L', hadd, hring, hframe⟩ := hr.flip.exists_add (x := x) (by simpa using hx)
  refine ⟨L'.flip, Links.addTail_eq hr hx hadd, ?_, ?_⟩
  · have := hring.flip
    simpa using this
  · intro a ha
    have hsame := hframe a (by simpa using ha)
    exact ⟨hsame.2, hsame.1⟩

/-! ## §4 Families of lists -/

/-- Nodes of a family of lists: the heads, and the elements. -/
inductive Node (ι α : Type*) where
  | head (i : ι)
  | elem (a : α)
  deriving DecidableEq

section Lists

variable {ι α : Type*} [DecidableEq ι] [DecidableEq α]

/-- The initialised heads `S` carry the lists `xs`, which share no element. -/
structure Lists (L : Links (Node ι α)) (S : ι → Prop) (xs : ι → List α) : Prop where
  ring : ∀ i, S i → Ring L (.head i) ((xs i).map .elem)
  disjoint : ∀ i j, S i → S j → i ≠ j → ∀ a ∈ xs i, a ∉ xs j

variable {L : Links (Node ι α)} {S : ι → Prop} {xs : ι → List α}

omit [DecidableEq ι] [DecidableEq α] in
theorem Lists.nodup (hl : Lists L S xs) {i : ι} (hi : S i) : (xs i).Nodup :=
  List.Nodup.of_map _ (List.nodup_cons.1 (hl.ring i hi).nodup).2

omit [DecidableEq ι] [DecidableEq α] in
/-- A head points at the first element of its list, or at itself. -/
theorem Lists.next_head (hl : Lists L S xs) {i : ι} (hi : S i) :
    L.next (.head i) = some (((xs i).head?.map .elem).getD (.head i)) := by
  rw [(hl.ring i hi).next_head]
  cases xs i <;> rfl

theorem Lists.isEmpty_iff (hl : Lists L S xs) {i : ι} (hi : S i) :
    L.isEmpty (.head i) = true ↔ xs i = [] := by
  rw [(hl.ring i hi).isEmpty_iff, List.map_eq_nil_iff]

/-- Initialising a head that carries no list yet. -/
theorem Lists.init (hl : Lists L S xs) (i : ι) (hi : ¬ S i) :
    Lists (L.init (.head i)) (fun j => j = i ∨ S j) (Function.update xs i []) := by
  have hne : ∀ j, S j → j ≠ i := fun j hj he => hi (he ▸ hj)
  refine ⟨?_, ?_⟩
  · rintro j (rfl | hj)
    · simpa using ring_init L (Node.head j)
    · rw [Function.update_of_ne (hne j hj)]
      refine (hl.ring j hj).congr fun a ha => ?_
      -- only the pointers of the new head are written
      have hai : a ≠ .head i := by
        rintro rfl
        rcases List.mem_cons.1 ha with he | hm
        · exact hne j hj (Node.head.inj he).symm
        · simp at hm
      simp [Links.init, hai]
  · rintro j k hj hk hjk a ha
    by_cases hki : k = i
    · simp [hki]
    · by_cases hji : j = i
      · simp [hji] at ha
      · rw [Function.update_of_ne hki]
        rw [Function.update_of_ne hji] at ha
        exact hl.disjoint j k (hj.resolve_left hji) (hk.resolve_left hki) hjk a ha

omit [DecidableEq ι] [DecidableEq α] in
/-- The pointers of a head that carries no list do not matter. -/
theorem Lists.congr_head (hl : Lists L S xs) {L' : Links (Node ι α)} {i : ι} (hi : ¬ S i)
    (hsame : ∀ b, b ≠ .head i → L'.next b = L.next b ∧ L'.prev b = L.prev b) : Lists L' S xs := by
  refine ⟨fun j hj => (hl.ring j hj).congr fun b hb => hsame b ?_, hl.disjoint⟩
  rintro rfl
  rcases List.mem_cons.1 hb with he | hm
  · exact hi (Node.head.inj he ▸ hj)
  · simp at hm

omit [DecidableEq ι] [DecidableEq α] in
/-- Restricting a family to fewer heads. -/
theorem Lists.mono {S' : ι → Prop} (hl : Lists L S xs) (hS : ∀ i, S' i → S i) : Lists L S' xs :=
  ⟨fun i hi => hl.ring i (hS i hi), fun i j hi hj => hl.disjoint i j (hS i hi) (hS j hj)⟩

omit [DecidableEq α] in
/-- The other lists of a family survive a change of list `i`. -/
theorem Lists.change (hl : Lists L S xs) {L' : Links (Node ι α)} {i : ι} {l : List α}
    (nodes : List α) (hring : Ring L' (.head i) (l.map .elem))
    (hframe : ∀ b, b ≠ .head i → b ∉ nodes.map .elem → L'.next b = L.next b ∧ L'.prev b = L.prev b)
    (hnodes : ∀ j, S j → j ≠ i → ∀ a ∈ nodes, a ∉ xs j) (hsub : ∀ a ∈ l, a ∈ nodes) :
    Lists L' S (Function.update xs i l) := by
  refine ⟨?_, ?_⟩
  · intro j hj
    by_cases hji : j = i
    · rw [hji, Function.update_self]
      exact hring
    · rw [Function.update_of_ne hji]
      refine (hl.ring j hj).congr fun b hb => hframe b ?_ ?_
      · rintro rfl
        rcases List.mem_cons.1 hb with he | hm
        · exact hji (Node.head.inj he).symm
        · simp at hm
      · intro hb'
        obtain ⟨a, ha, rfl⟩ := List.mem_map.1 hb'
        rcases List.mem_cons.1 hb with he | hm
        · cases he
        · obtain ⟨a', ha', he⟩ := List.mem_map.1 hm
          exact hnodes j hj hji a ha (Node.elem.inj he ▸ ha')
  · intro j k hj hk hjk a ha
    by_cases hji : j = i
    · rw [hji, Function.update_self] at ha
      have hki : k ≠ i := fun he => hjk (hji.trans he.symm)
      rw [Function.update_of_ne hki]
      exact hnodes k hk hki a (hsub a ha)
    · rw [Function.update_of_ne hji] at ha
      by_cases hki : k = i
      · rw [hki, Function.update_self]
        exact fun hm => hnodes j hj hji a (hsub a hm) ha
      · rw [Function.update_of_ne hki]
        exact hl.disjoint j k hj hk hjk a ha

/-- **Adding an element** that is on no list of the family. -/
theorem Lists.add (hl : Lists L S xs) {i : ι} (hi : S i) {a : α} (ha : ∀ j, S j → a ∉ xs j) :
    ∃ L', L.add (.elem a) (.head i) = some L' ∧ Lists L' S (Function.update xs i (a :: xs i)) := by
  have hnot : Node.elem a ∉ .head i :: (xs i).map Node.elem := by
    simpa using ha i hi
  obtain ⟨L', hadd, hring, hframe⟩ := (hl.ring i hi).exists_add hnot
  refine ⟨L', hadd, hl.change (a :: xs i) hring ?_ ?_ (fun _ hm => hm)⟩
  · intro b hbi hb
    refine hframe b ?_
    simpa [hbi] using hb
  · intro j hj hji b hb
    rcases List.mem_cons.1 hb with rfl | hb
    · exact ha j hj
    · exact hl.disjoint i j hi hj hji.symm b hb

/-- **Adding an element** at the end of list `i`. -/
theorem Lists.addTail (hl : Lists L S xs) {i : ι} (hi : S i) {a : α} (ha : ∀ j, S j → a ∉ xs j) :
    ∃ L', L.addTail (.elem a) (.head i) = some L' ∧
      Lists L' S (Function.update xs i (xs i ++ [a])) := by
  have hnot : Node.elem a ∉ .head i :: (xs i).map Node.elem := by
    simpa using ha i hi
  obtain ⟨L', hadd, hring, hframe⟩ := (hl.ring i hi).exists_addTail hnot
  refine ⟨L', hadd, hl.change (a :: xs i) ?_ ?_ ?_ ?_⟩
  · rw [List.map_append]
    exact hring
  · intro b hbi hb
    refine hframe b ?_
    simpa [hbi] using hb
  · intro j hj hji b hb
    rcases List.mem_cons.1 hb with rfl | hb
    · exact ha j hj
    · exact hl.disjoint i j hi hj hji.symm b hb
  · intro b hb
    simpa [or_comm] using hb

/-- **Deleting an element** of list `i`. -/
theorem Lists.del (hl : Lists L S xs) {i : ι} (hi : S i) {a : α} {ys zs : List α}
    (hxs : xs i = ys ++ a :: zs) :
    ∃ L', L.del (.elem a) = some L' ∧ Lists L' S (Function.update xs i (ys ++ zs)) := by
  have hr := hl.ring i hi
  rw [hxs, List.map_append, List.map_cons] at hr
  obtain ⟨L', hdel, hring, hframe⟩ := hr.exists_del
  refine ⟨L', hdel, hl.change (xs i) ?_ ?_ ?_ ?_⟩
  · rw [List.map_append]
    exact hring
  · intro b hbi hb
    refine hframe b ?_
    rw [hxs, List.map_append, List.map_cons] at hb
    simpa [hbi] using hb
  · intro j hj hji b hb
    exact hl.disjoint i j hi hj hji.symm b hb
  · intro b hb
    rw [hxs]
    rcases List.mem_append.1 hb with hb | hb
    · simp [hb]
    · simp [hb]

/-! The three operations write the `next` pointers of heads in `S` only. -/

theorem Lists.add_next_head (hl : Lists L S xs) {i : ι} (hi : S i) {a : α} (ha : ∀ j, S j → a ∉ xs j)
    {L' : Links (Node ι α)} (hadd : L.add (.elem a) (.head i) = some L') {j : ι} (hj : ¬ S j) :
    L'.next (.head j) = L.next (.head j) := by
  have hji : j ≠ i := fun he => hj (he ▸ hi)
  have hnot : Node.elem a ∉ .head i :: (xs i).map Node.elem := by
    simpa using ha i hi
  obtain ⟨L'', hadd', _, hframe⟩ := (hl.ring i hi).exists_add hnot
  obtain rfl := Option.some.inj (hadd'.symm.trans hadd)
  exact (hframe _ (by simp [hji])).1

theorem Lists.addTail_next_head (hl : Lists L S xs) {i : ι} (hi : S i) {a : α}
    (ha : ∀ j, S j → a ∉ xs j) {L' : Links (Node ι α)}
    (hadd : L.addTail (.elem a) (.head i) = some L') {j : ι} (hj : ¬ S j) :
    L'.next (.head j) = L.next (.head j) := by
  have hji : j ≠ i := fun he => hj (he ▸ hi)
  have hnot : Node.elem a ∉ .head i :: (xs i).map Node.elem := by
    simpa using ha i hi
  obtain ⟨L'', hadd', _, hframe⟩ := (hl.ring i hi).exists_addTail hnot
  obtain rfl := Option.some.inj (hadd'.symm.trans hadd)
  exact (hframe _ (by simp [hji])).1

theorem Lists.del_next_head (hl : Lists L S xs) {i : ι} (hi : S i) {a : α} {ys zs : List α}
    (hxs : xs i = ys ++ a :: zs) {L' : Links (Node ι α)} (hdel : L.del (.elem a) = some L') {j : ι}
    (hj : ¬ S j) : L'.next (.head j) = L.next (.head j) := by
  have hji : j ≠ i := fun he => hj (he ▸ hi)
  have hr := hl.ring i hi
  rw [hxs, List.map_append, List.map_cons] at hr
  obtain ⟨L'', hdel', _, hframe⟩ := hr.exists_del
  obtain rfl := Option.some.inj (hdel'.symm.trans hdel)
  exact (hframe _ (by simp [hji])).1

/-- What a walk along the `next` pointers from a head meets before it comes back or ends. -/
inductive OnList (L : Links (Node ι α)) (i : ι) : α → Prop where
  | first {a : α} (h : L.next (.head i) = some (.elem a)) : OnList L i a
  | next {a b : α} (ha : OnList L i a) (h : L.next (.elem a) = some (.elem b)) : OnList L i b

omit [DecidableEq ι] [DecidableEq α] in
theorem onList_of_isChain {i : ι} {a : α} (ha : OnList L i a) {l : List α} {t : List (Node ι α)}
    (hc : List.IsChain L.Linked (.elem a :: (l.map .elem ++ t))) : ∀ b ∈ l, OnList L i b := by
  induction l generalizing a with
  | nil => simp
  | cons c l ih =>
    rw [List.map_cons, List.cons_append, List.isChain_cons_cons] at hc
    have hc' : OnList L i c := .next ha hc.1.1
    intro b hb
    rcases List.mem_cons.1 hb with rfl | hb
    · exact hc'
    · exact ih hc' hc.2 b hb

omit [DecidableEq ι] [DecidableEq α] in
/-- The elements of a list are met by a walk. -/
theorem Lists.onList (hl : Lists L S xs) {i : ι} (hi : S i) {a : α} (ha : a ∈ xs i) :
    OnList L i a := by
  have hc := (hl.ring i hi).chain
  cases hxs : xs i with
  | nil => rw [hxs] at ha; cases ha
  | cons x rest =>
    rw [hxs, List.map_cons, List.cons_append, List.cons_append, List.isChain_cons_cons] at hc
    have hx : OnList L i x := .first hc.1.1
    rw [hxs] at ha
    rcases List.mem_cons.1 ha with rfl | ha
    · exact hx
    · exact onList_of_isChain hx hc.2 a ha

/-- A walk meets nothing else. -/
theorem Lists.mem_of_onList (hl : Lists L S xs) {i : ι} (hi : S i) {a : α} (ha : OnList L i a) :
    a ∈ xs i := by
  induction ha with
  | first h =>
    rw [hl.next_head hi] at h
    cases hxs : xs i with
    | nil => simp [hxs] at h
    | cons x rest =>
      simp only [hxs, List.head?_cons, Option.map_some, Option.getD_some, Option.some.injEq,
        Node.elem.injEq] at h
      simp [h]
  | next _ h ih =>
    obtain ⟨ys, zs, hsplit⟩ := List.append_of_mem ih
    have hr := hl.ring i hi
    rw [hsplit, List.map_append, List.map_cons] at hr
    obtain ⟨_, n, _, hn, _, hnext, _⟩ := hr.del
    rw [h] at hnext
    obtain rfl := Option.some.inj hnext
    -- the node behind is the head, or the next element
    rw [hsplit]
    simpa using Or.inr (Or.inr (by simpa using hn))

end Lists

/-- `list_add` writes the `next` of the new node and of the head only. -/
theorem Links.add_next_other {L L' : Links N} {x h a : N} (hadd : L.add x h = some L') (hx : a ≠ x)
    (hh : a ≠ h) : L'.next a = L.next a := by
  simp only [Links.add, Option.pure_def, Option.bind_eq_bind, Option.bind_eq_some_iff,
    Option.some.injEq] at hadd
  obtain ⟨n, _, rfl⟩ := hadd
  simp [hx, hh]

end WeiOS.Lib
