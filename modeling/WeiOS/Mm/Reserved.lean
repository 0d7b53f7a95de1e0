import Mathlib
import WeiOS.Lib.Run
import WeiOS.Lib.IntrusiveList
import WeiOS.Mm.Buddy
import WeiOS.Mm.PageAlloc
import WeiOS.Mm.ZoneMoves

/-!
# The Reserved Pages

A request with `__GFP_IRQ` takes a page off `reserved_pages_list` and lowers `free_pages` and
`pages_reserved`. `__free_rerserved_page` puts a page back on the list and raises `free_pages`, but not
`pages_reserved`: the counter, which decides whether there is a page to give, only goes down.

## Main results
- `reservedUsable_iff`: the runs in which counter and list agree.
- `reserved_pages_lost`: a request that fails although both reserved pages are on the list.
-/

namespace WeiOS.Buddy

open WeiOS.Lib

/-! ## §1 The list and the counter -/

/-- The reserved pages on the list of the kernel zone. -/
def ReservedList (s : Mem) (xs : List Nat) : Prop :=
  Ring s.links (.head (.reserved .kern)) (xs.map .elem)

theorem ReservedList.unique {s : Mem} {xs ys : List Nat} (hx : ReservedList s xs)
    (hy : ReservedList s ys) : xs = ys :=
  List.map_injective_iff.2 (fun _ _ he => Node.elem.inj he) (Ring.unique hx hy)

/-- Every reserved page is on the list or held, and the counter is the length of the list. -/
structure ReservedRep (r : PageRun) (xs : List Nat) : Prop where
  list : ReservedList r.mem xs
  count : (r.mem.zone .kern).pagesReserved = xs.length
  nodup : (xs ++ r.held).Nodup
  flag : ∀ p ∈ xs ++ r.held, (r.mem.page p).flag &&& RESERVED_PAGE ≠ 0
  unlocked : (r.mem.zone .kern).zoneLock = false

/-- Requests for a reserved page (`__get_reserved_page`), and releases of a page that is held. -/
def ReservedOp (r : PageRun) : PageOp → Prop
  | .allocPage gfpFlags => gfpFlags &&& GFP_IRQ ≠ 0 ∧ gfpFlags &&& GFP_DMA = 0
  | .freePage page => page ∈ r.held

/-- After the call `pages_reserved` is the length of the list, and a request fails only if the list was
    empty. -/
def ReservedUsable (r : PageRun) (o : PageOp) (r' : PageRun) : Prop :=
  (∃ xs, ReservedList r'.mem xs ∧ (r'.mem.zone .kern).pagesReserved = xs.length) ∧
  match o with
  | .allocPage _ => r'.held = r.held → ReservedList r.mem []
  | .freePage _ => True

section Steps

variable {r r' : PageRun} {xs : List Nat} {gfpFlags page : Nat}

theorem pageStep_irq (hop : ReservedOp r (.allocPage gfpFlags)) :
    pageStep r (.allocPage gfpFlags) = (do
      let (page, s) ← allocIrq r.mem
      pure ⟨s, page.toList ++ r.held⟩) := by
  obtain ⟨hirq, hdma⟩ := hop
  -- `__GFP_DMA` is looked at first, then `__GFP_IRQ`
  have hcall : allocPage r.mem gfpFlags = allocIrq r.mem := by
    unfold allocPage __allocPages
    rw [if_neg (by decide)]
    dsimp only
    rw [if_neg (not_not.2 hdma), if_pos hirq]
  rw [pageStep, hcall]

/-- **A request** takes the first page of the list. -/
theorem ReservedRep.alloc (h : ReservedRep r xs) (hop : ReservedOp r (.allocPage gfpFlags)) :
    ∃ r', pageStep r (.allocPage gfpFlags) = .ok r' ∧ ReservedRep r' xs.tail ∧
      r'.held = xs.head?.toList ++ r.held := by
  rw [pageStep_irq hop]
  unfold allocIrq
  have hlock : lockZone r.mem .kern = .ok (setZone r.mem .kern fun zn => { zn with zoneLock := true }) :=
    if_neg (by simp [h.unlocked])
  simp only [hlock, bind, Except.bind]
  have hcount : ((setZone r.mem .kern fun zn => { zn with zoneLock := true }).zone .kern).pagesReserved =
      xs.length := by simpa [setZone] using h.count
  rw [hcount]
  cases xs with
  | nil =>
    rw [if_neg (by simp)]
    refine ⟨_, rfl, ⟨h.list, ?_, h.nodup, h.flag, ?_⟩, rfl⟩
    · simpa [unlockZone, setZone] using h.count
    · simp [unlockZone, setZone]
  | cons p xs =>
    have hlist : Ring r.mem.links (.head (.reserved .kern)) ([] ++ .elem p :: xs.map .elem) := h.list
    obtain ⟨L, hdel, hring, _⟩ := hlist.exists_del
    have hnext : r.mem.links.next (.head (.reserved .kern)) = some (.elem p) := hlist.next_head
    rw [if_pos (by simp)]
    simp only [setZone, listDel, hnext, hdel, listEntry]
    refine ⟨_, rfl, ⟨hring, ?_, ?_, ?_, ?_⟩, rfl⟩
    · simp [unlockZone, setZone, h.count]
    · exact (List.perm_middle.nodup_iff).2 h.nodup
    · intro q hq
      refine h.flag q ?_
      simpa [or_left_comm] using hq
    · simp [unlockZone, setZone]

/-- **A release** puts the page back on the list, and the counter stays as it is. -/
theorem ReservedRep.free (h : ReservedRep r xs) (hop : ReservedOp r (.freePage page)) :
    ∃ r', pageStep r (.freePage page) = .ok r' ∧ ReservedList r'.mem (page :: xs) ∧
      (r'.mem.zone .kern).pagesReserved = xs.length := by
  have hheld : page ∈ r.held := hop
  have hnot : page ∉ xs := fun hmem => List.disjoint_of_nodup_append h.nodup hmem hheld
  obtain ⟨L, hadd, hring, _⟩ := h.list.exists_add (x := Node.elem page) (by simpa using hnot)
  have hflag := h.flag page (List.mem_append_right _ hheld)
  have hstep : pageStep r (.freePage page) =
      .ok ⟨{ setZone r.mem .kern (addFreePages 1) with links := L }, r.held.erase page⟩ := by
    have hadd' : (setZone r.mem .kern (addFreePages 1)).links.add (.elem page)
        (.head (.reserved .kern)) = some L := hadd
    have hcall : __freePage r.mem page =
        .ok { setZone r.mem .kern (addFreePages 1) with links := L } := by
      rw [__freePage, if_pos hflag]
      simp only [__freeRerservedPage, listAdd, hadd']
    rw [pageStep, hcall]
    rfl
  refine ⟨_, hstep, hring, ?_⟩
  simpa [setZone, addFreePages] using h.count

end Steps

/-! ## §2 Runs -/

/-- **Reserved pages stay usable** exactly as long as none of them comes back: a run of requests for
    reserved pages and releases of held ones keeps the counter at the length of the list, and fails
    only on an empty list, if and only if it has no release. -/
theorem reservedUsable_iff {r : PageRun} {xs : List Nat} (h : ReservedRep r xs) {ops : List PageOp}
    (hops : Meets pageStep ReservedOp r ops) :
    Along pageStep ReservedUsable r ops ↔ Meets pageStep (fun _ o => o.isFree = false) r ops := by
  refine along_iff_meets (fun r => ∃ xs, ReservedRep r xs) ?_ ?_ ⟨xs, h⟩ hops
  · rintro r o ⟨xs, h⟩ hop hno
    cases o with
    | freePage page => cases hno
    | allocPage gfpFlags =>
      obtain ⟨r', hok, h', hheld⟩ := h.alloc hop
      refine ⟨r', hok, ⟨⟨xs.tail, h'.list, h'.count⟩, fun hsame => ?_⟩, xs.tail, h'⟩
      cases xs with
      | nil => exact h.list
      | cons p xs =>
        rw [hheld] at hsame
        simp at hsame
  -- after a release the list is longer than the counter says
  · rintro r o r' ⟨xs, h⟩ hop hfree hok ⟨⟨ys, hys, hcount⟩, _⟩
    cases o with
    | allocPage gfpFlags => exact hfree rfl
    | freePage page =>
      obtain ⟨t, hok', hlist, hcount'⟩ := h.free hop
      obtain rfl : t = r' := Except.ok.inj (hok'.symm.trans hok)
      rw [hys.unique hlist, hcount'] at hcount
      simp at hcount

instance decidableReservedOp (r : PageRun) : ∀ o : PageOp, Decidable (ReservedOp r o)
  | .allocPage gfpFlags => inferInstanceAs (Decidable (gfpFlags &&& GFP_IRQ ≠ 0 ∧ gfpFlags &&& GFP_DMA = 0))
  | .freePage page => inferInstanceAs (Decidable (page ∈ r.held))

instance (s : Mem) (xs : List Nat) : Decidable (ReservedList s xs) :=
  decidable_of_iff
    (List.IsChain (fun a b => s.links.next a = some b ∧ s.links.prev b = some a)
        (Node.head (ListId.reserved .kern) :: xs.map Node.elem ++
          [Node.head (ListId.reserved .kern)]) ∧
      (Node.head (ListId.reserved .kern) :: xs.map Node.elem).Nodup)
    ⟨fun h => ⟨h.1, h.2⟩, fun h => ⟨h.chain, h.nodup⟩⟩

/-- A kernel zone of six pages and the reserved pages 14 and 15. -/
def twoReserved : Except Fault Mem :=
  bootZones (zeroMem 16) (14 * PGSIZE) 2 (8 * PGSIZE) 6 (16 * PGSIZE) 0

/-- Both reserved pages are taken, and a third request fails. -/
theorem reservedUsable_iff_three : ∃ s r, twoReserved = .ok s ∧
    [.allocPage GFP_IRQ, .allocPage GFP_IRQ, .allocPage GFP_IRQ].foldlM pageStep ⟨s, []⟩ = .ok r ∧
    r.held = [14, 15] ∧
    Along pageStep ReservedUsable ⟨s, []⟩
      [.allocPage GFP_IRQ, .allocPage GFP_IRQ, .allocPage GFP_IRQ] := by
  have hval : twoReserved.toOption.map (fun s =>
      (decide (Meets pageStep ReservedOp ⟨s, []⟩
          [.allocPage GFP_IRQ, .allocPage GFP_IRQ, .allocPage GFP_IRQ] ∧ ReservedList s [15, 14] ∧
          (s.zone .kern).pagesReserved = 2 ∧
          (∀ p ∈ [15, 14] ++ ([] : List Nat), (s.page p).flag &&& RESERVED_PAGE ≠ 0) ∧
          (s.zone .kern).zoneLock = false),
        ([.allocPage GFP_IRQ, .allocPage GFP_IRQ, .allocPage GFP_IRQ].foldlM pageStep
          ⟨s, []⟩).toOption.map PageRun.held)) = some (true, some [14, 15]) := by decide +kernel
  cases hboot : twoReserved with
  | error e =>
    rw [hboot] at hval
    cases hval
  | ok s =>
    rw [hboot] at hval
    obtain ⟨hgood, hrun⟩ := Prod.mk.inj (Option.some.inj hval)
    obtain ⟨hops, hlist, hcount, hflag, hlock⟩ := of_decide_eq_true hgood
    obtain ⟨r, hr, hheld⟩ := Option.map_eq_some_iff.1 hrun
    have hnodup : ([15, 14] ++ ([] : List Nat)).Nodup := by decide
    have hrep : ReservedRep ⟨s, []⟩ [15, 14] := ⟨hlist, hcount, hnodup, hflag, hlock⟩
    refine ⟨s, r, rfl, eq_ok_of_toOption hr, hheld, (reservedUsable_iff hrep hops).2 ?_⟩
    exact ⟨rfl, fun _ _ => ⟨rfl, fun _ _ => ⟨rfl, fun _ _ => trivial⟩⟩⟩

/-- Page 15 is taken and given back twice: the third request fails, with pages 15 and 14 on the list. -/
theorem reserved_pages_lost : ∃ s r, twoReserved = .ok s ∧
    Meets pageStep ReservedOp ⟨s, []⟩ [.allocPage GFP_IRQ, .freePage 15, .allocPage GFP_IRQ,
      .freePage 15, .allocPage GFP_IRQ] ∧
    [.allocPage GFP_IRQ, .freePage 15, .allocPage GFP_IRQ, .freePage 15,
      .allocPage GFP_IRQ].foldlM pageStep ⟨s, []⟩ = .ok r ∧
    r.held = [] ∧ ReservedList r.mem [15, 14] ∧ (r.mem.zone .kern).pagesReserved = 0 ∧
    ¬ Along pageStep ReservedUsable ⟨s, []⟩ [.allocPage GFP_IRQ, .freePage 15, .allocPage GFP_IRQ,
      .freePage 15, .allocPage GFP_IRQ] := by
  have hval : twoReserved.toOption.map (fun s =>
      (decide (Meets pageStep ReservedOp ⟨s, []⟩ [.allocPage GFP_IRQ, .freePage 15,
          .allocPage GFP_IRQ, .freePage 15, .allocPage GFP_IRQ]),
        ([.allocPage GFP_IRQ, .freePage 15, .allocPage GFP_IRQ, .freePage 15,
          .allocPage GFP_IRQ].foldlM pageStep ⟨s, []⟩).toOption.map fun r =>
          (r.held, decide (ReservedList r.mem [15, 14]), (r.mem.zone .kern).pagesReserved))) =
      some (true, some ([], true, 0)) := by decide +kernel
  cases hboot : twoReserved with
  | error e =>
    rw [hboot] at hval
    cases hval
  | ok s =>
    rw [hboot] at hval
    obtain ⟨hops, hrun⟩ := Prod.mk.inj (Option.some.inj hval)
    obtain ⟨r, hr, hafter⟩ := Option.map_eq_some_iff.1 hrun
    obtain ⟨hheld, hafter⟩ := Prod.mk.inj hafter
    obtain ⟨hlist, hcount⟩ := Prod.mk.inj hafter
    have hrun' := eq_ok_of_toOption hr
    have hlist' := of_decide_eq_true hlist
    refine ⟨s, r, rfl, of_decide_eq_true hops, hrun', hheld, hlist', hcount, fun hall => ?_⟩
    have hsplit : Along pageStep ReservedUsable ⟨s, []⟩
        ([.allocPage GFP_IRQ, .freePage 15, .allocPage GFP_IRQ, .freePage 15] ++
          [.allocPage GFP_IRQ]) := hall
    obtain ⟨_, t, hrun'', ⟨xs, hxs, hcount'⟩, _⟩ := hsplit.last
    obtain rfl : r = t := Except.ok.inj (hrun'.symm.trans hrun'')
    rw [hxs.unique hlist', hcount] at hcount'
    exact absurd hcount' (by decide)

end WeiOS.Buddy
