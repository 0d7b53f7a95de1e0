import Mathlib
import WeiOS.Mm.PageTable
import WeiOS.Mm.PageRefs
import WeiOS.Mm.PageCalls

/-!
# Checking User Memory

`user_mem_check` of `kern/pmap.c`. It tests whether the entries of a page have any bit of the mask where all are
meant, it does not look at `PTE_P`, and it adds the length in 32 bits.

## Main results
- `checkLoop_spec`: the loop goes to the first page that its two tests refuse.
- `checkOk_iff`: the arguments for which the answer is right.
-/

namespace WeiOS.UserMem

open WeiOS.Paging

/-! ## §1 The check -/

/-- The end of what a user program may read (`include/mem.h`). -/
def ULIM : Nat := 0xEF400000

/-- A page directory, and the words that the kernel reads at `KADDR` of each frame. -/
structure Space where
  pgdir : Nat → BitVec 32
  table : Nat → Nat → BitVec 32

/-- The directory entry of an address. -/
def Space.pde (m : Space) (va : Nat) : BitVec 32 := m.pgdir (PDINDEX va)

/-- The entry of an address in the page table at `PTE_ADDR` of its directory entry. -/
def Space.pte (m : Space) (va : Nat) : BitVec 32 := m.table ((m.pde va).toNat / PGSIZE) (PTINDEX va)

/-- The two tests of the loop: an entry passes when it has any bit of the mask. -/
def touches (m : Space) (perm : BitVec 32) (va : Nat) : Bool :=
  m.pde va &&& perm != 0 && m.pte va &&& perm != 0

/-- The loop of `user_mem_check`; it returns `va_t`. -/
def checkLoop (m : Space) (perm : BitVec 32) (vaEnd : Nat) : Nat → Nat → Nat
  | 0, vaT => vaT
  | fuel + 1, vaT =>
    if vaT < vaEnd then
      if touches m perm vaT then checkLoop m perm vaEnd fuel ((vaT + PGSIZE) % 2 ^ 32) else vaT
    else vaT

/-- `user_mem_check`: nothing if it returns 0, and `user_mem_check_addr` if it returns `-E_FAULT`. -/
def userMemCheck (m : Space) (va len perm : BitVec 32) : Option Nat :=
  let vaStart := va.toNat
  let vaEnd := (va.toNat + len.toNat) % 2 ^ 32
  if ULIM ≤ vaStart then some vaStart
  else if ULIM ≤ vaEnd then some ULIM
  else
    let vaT := checkLoop m perm (ROUNDUP vaEnd) (2 ^ 20) (ROUNDDOWN vaStart)
    if vaT < ROUNDUP vaEnd then
      some (if (ROUNDUP vaEnd + 2 ^ 32 - va.toNat) % 2 ^ 32 < PGSIZE then va.toNat else vaT)
    else none

/-! ## §2 What the check is for -/

/-- Both entries of the page are present and have all bits of the mask. -/
def Allows (m : Space) (perm : BitVec 32) (a : Nat) : Prop :=
  (m.pde a).getLsbD 0 = true ∧ (m.pte a).getLsbD 0 = true ∧ m.pde a &&& perm = perm ∧ m.pte a &&& perm = perm

/-- The address must not be accessed. -/
def Offends (m : Space) (perm : BitVec 32) (a : Nat) : Prop := ULIM ≤ a ∨ ¬ Allows m perm a

/-- **A right answer**: 0 only if no address of the range offends, and otherwise the first address that does, at or
    after the start. -/
def CheckOk (m : Space) (va len perm : BitVec 32) : Option Nat → Prop
  | none => ∀ a, va.toNat ≤ a → a < va.toNat + len.toNat → ¬ Offends m perm a
  | some x => va.toNat ≤ x ∧ Offends m perm x ∧ ∀ a, va.toNat ≤ a → a < x → ¬ Offends m perm a

/-- The walk over the pages from `lo` to `hi`. A page that is reached and passes the two tests has all bits, unless no
    byte is asked for; a page that is reached and does not pass lacks a bit, and it is not the first of several if the
    start is inside it. -/
def WalkOk (m : Space) (va len perm : BitVec 32) (lo hi : Nat) : Prop :=
  ∀ q, PGSIZE ∣ q → lo ≤ q → q < hi → (∀ r, PGSIZE ∣ r → lo ≤ r → r < q → touches m perm r = true) →
    (touches m perm q = true → 0 < len.toNat → Allows m perm q) ∧
      (touches m perm q = false → ¬ Allows m perm q ∧ (q < va.toNat → hi = q + PGSIZE))

/-- **The arguments for which the answer is right.** The start is beyond the limit; or the sum is, and everything up to
    the limit may be accessed; or the sum does not wrap around, and the walk is right; or it wraps around to an address
    in the page of the start, and this page lacks a bit and does not pass. -/
def Answerable (m : Space) (va len perm : BitVec 32) : Prop :=
  let vaEnd := (va.toNat + len.toNat) % 2 ^ 32
  ULIM ≤ va.toNat ∨
  (ULIM ≤ vaEnd ∧ ∀ a, va.toNat ≤ a → a < ULIM → Allows m perm a) ∨
  (va.toNat + len.toNat < ULIM ∧ WalkOk m va len perm (ROUNDDOWN va.toNat) (ROUNDUP vaEnd)) ∨
  (vaEnd < va.toNat ∧ ROUNDDOWN va.toNat < ROUNDUP vaEnd ∧ vaEnd < ULIM ∧
    touches m perm va.toNat = false ∧ ¬ Allows m perm va.toNat)

/-! ## §3 Pages -/

section Check

variable {m : Space} {perm va len : BitVec 32} {a q lo hi : Nat}

theorem ROUNDDOWN_page (hq : PGSIZE ∣ q) (hle : q ≤ a) (hlt : a < q + PGSIZE) : ROUNDDOWN a = q := by
  obtain ⟨x, rfl⟩ := hq
  simp only [ROUNDDOWN, PGSIZE] at *
  omega

/-- The entries of an address are those of its page. -/
theorem entries_page (hq : PGSIZE ∣ q) (hle : q ≤ a) (hlt : a < q + PGSIZE) :
    m.pde a = m.pde q ∧ m.pte a = m.pte q := by
  have hslot := ROUNDDOWN_slot a
  rw [ROUNDDOWN_page hq hle hlt] at hslot
  have hpde : m.pde a = m.pde q := by
    unfold Space.pde
    rw [hslot.1]
  refine ⟨hpde, ?_⟩
  unfold Space.pte
  rw [hpde, hslot.2]

theorem touches_page (hq : PGSIZE ∣ q) (hle : q ≤ a) (hlt : a < q + PGSIZE) :
    touches m perm a = touches m perm q := by
  obtain ⟨hpde, hpte⟩ := entries_page (m := m) hq hle hlt
  unfold touches
  rw [hpde, hpte]

theorem allows_page (hq : PGSIZE ∣ q) (hle : q ≤ a) (hlt : a < q + PGSIZE) :
    Allows m perm a ↔ Allows m perm q := by
  obtain ⟨hpde, hpte⟩ := entries_page (m := m) hq hle hlt
  unfold Allows
  rw [hpde, hpte]

theorem offends_iff (h : a < ULIM) : Offends m perm a ↔ ¬ Allows m perm a := by
  unfold Offends
  simp [Nat.not_le.2 h]

/-- **The loop** goes over pages that pass, up to the end or to the first page that does not. -/
theorem checkLoop_spec (m : Space) (perm : BitVec 32) {vaEnd : Nat} (hend : PGSIZE ∣ vaEnd) (hlim : vaEnd ≤ ULIM)
    (fuel vaT : Nat) (hpage : PGSIZE ∣ vaT) (hle : vaT ≤ vaEnd) (hfuel : (vaEnd - vaT) / PGSIZE ≤ fuel) :
    ∃ r, checkLoop m perm vaEnd fuel vaT = r ∧ PGSIZE ∣ r ∧ vaT ≤ r ∧ r ≤ vaEnd ∧
      (∀ q, PGSIZE ∣ q → vaT ≤ q → q < r → touches m perm q = true) ∧
      (r < vaEnd → touches m perm r = false) := by
  induction fuel generalizing vaT with
  | zero =>
    have heq : vaT = vaEnd := by
      obtain ⟨x, rfl⟩ := hpage
      obtain ⟨y, rfl⟩ := hend
      simp only [PGSIZE] at *
      omega
    exact ⟨vaT, rfl, hpage, Nat.le_refl _, hle, fun q _ h1 h2 => absurd h1 (Nat.not_le.2 h2),
      fun hlt => absurd heq (Nat.ne_of_lt hlt)⟩
  | succ fuel ih =>
    unfold checkLoop
    split
    · next hlt =>
      split
      · next hpass =>
        have hgap : PGSIZE ≤ vaEnd - vaT := Nat.le_of_dvd (by omega) (Nat.dvd_sub hend hpage)
        have hmod : (vaT + PGSIZE) % 2 ^ 32 = vaT + PGSIZE := by
          apply Nat.mod_eq_of_lt
          simp only [PGSIZE, ULIM] at *
          omega
        have hfuel' : (vaEnd - (vaT + PGSIZE)) / PGSIZE ≤ fuel := by
          simp only [PGSIZE] at *
          omega
        rw [hmod]
        obtain ⟨r, hr, hdvd, hlo, hhi, hbefore, hstop⟩ :=
          ih (vaT + PGSIZE) ((Nat.dvd_add_right hpage).2 (Nat.dvd_refl _)) (by omega) hfuel'
        refine ⟨r, hr, hdvd, by omega, hhi, fun q hq hqlo hqr => ?_, hstop⟩
        by_cases hfirst : q = vaT
        · rw [hfirst]
          exact hpass
        · apply hbefore q hq _ hqr
          -- the next page after `vaT`
          obtain ⟨x, rfl⟩ := hq
          obtain ⟨y, rfl⟩ := hpage
          simp only [PGSIZE] at *
          omega
      · next hpass =>
        exact ⟨vaT, rfl, hpage, Nat.le_refl _, hle, fun q _ h1 h2 => absurd h1 (Nat.not_le.2 h2),
          fun _ => Bool.eq_false_iff.2 hpass⟩
    · next hge =>
      exact ⟨vaT, rfl, hpage, Nat.le_refl _, hle, fun q _ h1 h2 => absurd h1 (Nat.not_le.2 h2),
        fun hlt => absurd hlt hge⟩

theorem checkLoop_done (m : Space) (perm : BitVec 32) (fuel : Nat) {vaEnd vaT : Nat} (h : vaEnd ≤ vaT) :
    checkLoop m perm vaEnd fuel vaT = vaT := by
  cases fuel with
  | zero => rfl
  | succ fuel => exact if_neg (Nat.not_lt.2 h)

theorem ROUNDDOWN_bounds (a : Nat) : PGSIZE ∣ ROUNDDOWN a ∧ ROUNDDOWN a ≤ a ∧ a < ROUNDDOWN a + PGSIZE := by
  refine ⟨dvd_ROUNDDOWN a, ?_⟩
  simp only [ROUNDDOWN, PGSIZE]
  omega

theorem ROUNDUP_bounds (h : a < ULIM) :
    PGSIZE ∣ ROUNDUP a ∧ a ≤ ROUNDUP a ∧ ROUNDUP a < a + PGSIZE ∧ ROUNDUP a ≤ ULIM := by
  refine ⟨dvd_ROUNDDOWN _, ?_⟩
  simp only [ROUNDUP, ROUNDDOWN, PGSIZE, ULIM] at *
  omega

theorem pages_lt_ulim (h : hi ≤ ULIM) : (hi - lo) / PGSIZE < 2 ^ 20 := by
  simp only [PGSIZE, ULIM] at *
  omega

/-- Two pages are a page apart. -/
theorem page_gap {x y : Nat} (hx : PGSIZE ∣ x) (hy : PGSIZE ∣ y) (h : x < y) : x + PGSIZE ≤ y := by
  obtain ⟨x, rfl⟩ := hx
  obtain ⟨y, rfl⟩ := hy
  simp only [PGSIZE] at *
  omega

theorem page_eq {x y : Nat} (hx : PGSIZE ∣ x) (hy : PGSIZE ∣ y) (hle : y ≤ x) (hlt : x < y + PGSIZE) : x = y := by
  obtain ⟨x, rfl⟩ := hx
  obtain ⟨y, rfl⟩ := hy
  simp only [PGSIZE] at *
  omega

/-- The page of an address is not before a page that the address is not before. -/
theorem le_ROUNDDOWN (hlo : PGSIZE ∣ lo) (h : lo ≤ a) : lo ≤ ROUNDDOWN a := by
  obtain ⟨x, rfl⟩ := hlo
  simp only [ROUNDDOWN, PGSIZE] at *
  omega

/-- The last page of a range that ends less than a page after its start. -/
theorem single_page (hS : PGSIZE ∣ lo) (hE : PGSIZE ∣ hi) (hlt : lo < hi) (h : hi < lo + 2 * PGSIZE) :
    hi = lo + PGSIZE :=
  page_eq hE ((Nat.dvd_add_right hS).2 (Nat.dvd_refl _)) (page_gap hS hE hlt) (by omega)

/-- The address that is reported: the start if the range ends in its page, and else the page. -/
theorem reported (hS : PGSIZE ∣ lo) (hE : PGSIZE ∣ hi) (hlo : lo ≤ a) (ha : a < lo + PGSIZE) (hlt : lo < hi)
    (hhi : hi ≤ ULIM) (x y : Nat) :
    (if (hi + 2 ^ 32 - a) % 2 ^ 32 < PGSIZE then x else y) = if lo < a ∧ hi = lo + PGSIZE then x else y := by
  have hgap := page_gap hS hE hlt
  apply if_congr _ rfl rfl
  have hsub : (hi + 2 ^ 32 - a) % 2 ^ 32 = hi - a := by
    simp only [PGSIZE, ULIM] at *
    omega
  rw [hsub]
  constructor
  · intro h
    have hpage := single_page hS hE hlt (by omega)
    exact ⟨by omega, hpage⟩
  · omega

/-- The pages from `lo` to `hi` are those of the range, below the limit. -/
structure Covers (va len : BitVec 32) (lo hi : Nat) : Prop where
  start : PGSIZE ∣ lo
  le_start : lo ≤ va.toNat
  start_lt : va.toNat < lo + PGSIZE
  stop : PGSIZE ∣ hi
  le_stop : va.toNat + len.toNat ≤ hi
  stop_lt : hi < va.toNat + len.toNat + PGSIZE
  limit : hi ≤ ULIM

/-- A page of the walk has an address at or after the start, which is the start or the page itself. -/
theorem Covers.address (h : Covers va len lo hi) (hq : PGSIZE ∣ q) (hlo : lo ≤ q) :
    ∃ a, va.toNat ≤ a ∧ q ≤ a ∧ a < q + PGSIZE ∧ (a = va.toNat ∨ a = q) := by
  rcases Nat.lt_or_ge q va.toNat with hlt | hge
  · have heq : q = lo := page_eq hq h.start hlo (hlt.trans h.start_lt)
    exact ⟨va.toNat, Nat.le_refl _, hlt.le, by rw [heq]; exact h.start_lt, .inl rfl⟩
  · exact ⟨q, hge, Nat.le_refl _, Nat.lt_add_of_pos_right (by decide), .inr rfl⟩

/-- What the walk has passed may be accessed, if it is right. -/
theorem Covers.allows (h : Covers va len lo hi) (hwalk : WalkOk m va len perm lo hi) {r : Nat} (hr : r ≤ hi)
    (hbefore : ∀ q, PGSIZE ∣ q → lo ≤ q → q < r → touches m perm q = true) (hva : va.toNat ≤ a) (har : a < r)
    (hlen : 0 < len.toNat) : Allows m perm a := by
  obtain ⟨hQ, hQa, haQ⟩ := ROUNDDOWN_bounds a
  have hQlo := le_ROUNDDOWN h.start (h.le_start.trans hva)
  have hQr : ROUNDDOWN a < r := hQa.trans_lt har
  rw [allows_page hQ hQa haQ]
  apply (hwalk _ hQ hQlo (hQr.trans_le hr) _).1 (hbefore _ hQ hQlo hQr) hlen
  exact fun r' hr' hlo' hlt' => hbefore r' hr' hlo' (hlt'.trans hQr)

/-- The walk goes to the end: every byte may be accessed. -/
theorem Covers.whole_iff (h : Covers va len lo hi)
    (hbefore : ∀ q, PGSIZE ∣ q → lo ≤ q → q < hi → touches m perm q = true) :
    CheckOk m va len perm none ↔ WalkOk m va len perm lo hi := by
  have hlimit := h.limit
  have hle := h.le_stop
  constructor
  · intro hall q hq hqlo hqhi _
    refine ⟨fun _ hlen => ?_, fun hno => ?_⟩
    · obtain ⟨a, hva, hqa, haq, hcase⟩ := h.address hq hqlo
      have hin : a < va.toNat + len.toNat := by
        rcases hcase with rfl | rfl
        · omega
        · have := page_gap hq h.stop hqhi
          have := h.stop_lt
          omega
      have hgood := hall a hva hin
      rw [offends_iff (by omega), Classical.not_not] at hgood
      exact (allows_page hq hqa haq).1 hgood
    · rw [hbefore q hq hqlo hqhi] at hno
      cases hno
  · intro hwalk a hva hin
    rw [offends_iff (by omega), Classical.not_not]
    exact h.allows hwalk (Nat.le_refl _) hbefore hva (by omega) (by omega)

/-- The walk stops in the only page, and the start, which is inside it, is reported. -/
theorem Covers.first_iff (h : Covers va len lo hi) (hone : lo < va.toNat ∧ hi = lo + PGSIZE)
    (hfail : touches m perm lo = false) :
    CheckOk m va len perm (some va.toNat) ↔ WalkOk m va len perm lo hi := by
  have hlimit := h.limit
  have hlt := h.start_lt
  have hoff : Offends m perm va.toNat ↔ ¬ Allows m perm lo := by
    rw [offends_iff (by omega), allows_page h.start h.le_start hlt]
  constructor
  · rintro ⟨_, hxoff, _⟩ q hq hqlo hqhi _
    obtain rfl : q = lo := page_eq hq h.start hqlo (by omega)
    refine ⟨fun hyes => ?_, fun _ => ⟨hoff.1 hxoff, fun _ => hone.2⟩⟩
    rw [hyes] at hfail
    cases hfail
  · intro hwalk
    have hnone : ∀ q, PGSIZE ∣ q → lo ≤ q → q < lo → touches m perm q = true :=
      fun q _ h1 h2 => absurd h1 (Nat.not_le.2 h2)
    have hnot := (hwalk lo h.start (Nat.le_refl _) (by omega) hnone).2 hfail
    exact ⟨Nat.le_refl _, hoff.2 hnot.1, fun a h1 h2 => absurd h1 (Nat.not_le.2 h2)⟩

/-- The walk stops at page `r`, which is reported. -/
theorem Covers.stop_iff (h : Covers va len lo hi) {r : Nat} (hone : ¬ (lo < va.toNat ∧ hi = lo + PGSIZE))
    (hr : PGSIZE ∣ r) (hlo : lo ≤ r) (hlt : r < hi)
    (hbefore : ∀ q, PGSIZE ∣ q → lo ≤ q → q < r → touches m perm q = true) (hfail : touches m perm r = false) :
    CheckOk m va len perm (some r) ↔ WalkOk m va len perm lo hi := by
  have hlimit := h.limit
  constructor
  · rintro ⟨hvr, hxoff, hfirst⟩ q hq hqlo hqhi hpass
    have hqr : q ≤ r := by
      by_contra hc
      rw [hpass r hr hlo (Nat.not_le.1 hc)] at hfail
      cases hfail
    refine ⟨fun hyes _ => ?_, fun hno => ?_⟩
    · have hne : q ≠ r := by
        rintro rfl
        rw [hyes] at hfail
        cases hfail
      obtain ⟨a, hva, hqa, haq, _⟩ := h.address hq hqlo
      have hgap := page_gap hq hr (by omega)
      have hgood := hfirst a hva (by omega)
      rw [offends_iff (by omega), Classical.not_not] at hgood
      exact (allows_page hq hqa haq).1 hgood
    · have heq : q = r := by
        by_contra hne
        rw [hbefore q hq hqlo (by omega)] at hno
        cases hno
      subst heq
      exact ⟨(offends_iff (by omega)).1 hxoff, fun hc => absurd hvr (Nat.not_le.2 hc)⟩
  · intro hwalk
    obtain ⟨hnot, hlast⟩ := (hwalk r hr hlo hlt hbefore).2 hfail
    have hvr : va.toNat ≤ r := by
      by_contra hc
      have hrlo : r = lo := page_eq hr h.start hlo ((Nat.not_le.1 hc).trans h.start_lt)
      exact hone ⟨by omega, by rw [← hrlo]; exact hlast (by omega)⟩
    refine ⟨hvr, (offends_iff (by omega)).2 hnot, fun a hva har => ?_⟩
    -- the range is not empty, as page `r` is one of its pages
    have hlen : 0 < len.toNat := by
      have hgap := page_gap hr h.stop hlt
      have := h.stop_lt
      omega
    rw [offends_iff (by omega), Classical.not_not]
    exact h.allows hwalk hlt.le hbefore hva har hlen

/-- **The walk** of a range that ends at `e`, when it stops at `r`. -/
theorem walk_iff {r e : Nat} (he : va.toNat + len.toNat = e) (hlim : e < ULIM)
    (hr : PGSIZE ∣ r) (hlo : ROUNDDOWN va.toNat ≤ r) (hhi : r ≤ ROUNDUP e)
    (hbefore : ∀ q, PGSIZE ∣ q → ROUNDDOWN va.toNat ≤ q → q < r → touches m perm q = true)
    (hstop : r < ROUNDUP e → touches m perm r = false) :
    CheckOk m va len perm (if r < ROUNDUP e then
      some (if (ROUNDUP e + 2 ^ 32 - va.toNat) % 2 ^ 32 < PGSIZE then va.toNat else r) else none) ↔
    WalkOk m va len perm (ROUNDDOWN va.toNat) (ROUNDUP e) := by
  obtain ⟨hS, hSv, hvS⟩ := ROUNDDOWN_bounds va.toNat
  obtain ⟨hE, heE, hEe, hElim⟩ := ROUNDUP_bounds hlim
  have hcov : Covers va len (ROUNDDOWN va.toNat) (ROUNDUP e) := by
    rw [← he] at heE hEe hE hElim ⊢
    exact ⟨hS, hSv, hvS, hE, heE, hEe, hElim⟩
  split
  · next hlt =>
    rw [reported hS hE hSv hvS (hlo.trans_lt hlt) hElim]
    by_cases hone : ROUNDDOWN va.toNat < va.toNat ∧ ROUNDUP e = ROUNDDOWN va.toNat + PGSIZE
    · have hrlo : r = ROUNDDOWN va.toNat := page_eq hr hS hlo (by rw [← hone.2]; exact hlt)
      rw [if_pos hone]
      exact hcov.first_iff hone (by rw [← hrlo]; exact hstop hlt)
    · rw [if_neg hone]
      exact hcov.stop_iff hone hr hlo hlt hbefore (hstop hlt)
  · next hge =>
    have hrE : r = ROUNDUP e := Nat.le_antisymm hhi (Nat.not_lt.1 hge)
    rw [hrE] at hbefore
    exact hcov.whole_iff hbefore

/-- The sum wraps around. Beyond the limit everything offends, so the answer 0 is wrong. -/
theorem wrap_iff {r e : Nat} (he : va.toNat + len.toNat = e + 2 ^ 32) (hlim : e < ULIM) (hva : va.toNat < ULIM)
    (hev : e < va.toNat) (hr : PGSIZE ∣ r) (hlo : ROUNDDOWN va.toNat ≤ r)
    (hhi : ROUNDDOWN va.toNat < ROUNDUP e → r ≤ ROUNDUP e)
    (hpass : ROUNDDOWN va.toNat < r → touches m perm va.toNat = true)
    (hstop : r < ROUNDUP e → touches m perm r = false) :
    CheckOk m va len perm (if r < ROUNDUP e then
      some (if (ROUNDUP e + 2 ^ 32 - va.toNat) % 2 ^ 32 < PGSIZE then va.toNat else r) else none) ↔
    ROUNDDOWN va.toNat < ROUNDUP e ∧ touches m perm va.toNat = false ∧ ¬ Allows m perm va.toNat := by
  obtain ⟨hS, hSv, hvS⟩ := ROUNDDOWN_bounds va.toNat
  obtain ⟨hE, heE, hEe, hElim⟩ := ROUNDUP_bounds hlim
  generalize ROUNDDOWN va.toNat = lo at *
  generalize ROUNDUP e = hi at *
  split
  · next hlt =>
    have hless : lo < hi := by omega
    have hone : lo < va.toNat ∧ hi = lo + PGSIZE := by
      have hpage := single_page hS hE hless (by omega)
      exact ⟨by omega, hpage⟩
    rw [reported hS hE hSv hvS hless hElim, if_pos hone]
    have hgap := page_gap hr hE hlt
    obtain rfl : r = lo := by omega
    have hfail : touches m perm va.toNat = false := by
      rw [touches_page hS hSv hvS]
      exact hstop hlt
    constructor
    · rintro ⟨_, hoff, _⟩
      exact ⟨hless, hfail, (offends_iff hva).1 hoff⟩
    · rintro ⟨_, _, hnot⟩
      exact ⟨Nat.le_refl _, (offends_iff hva).2 hnot, fun a h1 h2 => absurd h1 (Nat.not_le.2 h2)⟩
  · next hge =>
    constructor
    · intro hall
      exact absurd (.inl (Nat.le_refl _)) (hall ULIM (by omega) (by unfold ULIM; omega))
    · rintro ⟨hless, hno, _⟩
      rw [hpass (by omega)] at hno
      cases hno

/-- The walk of a range that wraps around. -/
theorem wrap_check {e : Nat} (he : va.toNat + len.toNat = e + 2 ^ 32) (hlim : e < ULIM) (hva : va.toNat < ULIM)
    (hev : e < va.toNat) :
    CheckOk m va len perm
      (if checkLoop m perm (ROUNDUP e) (2 ^ 20) (ROUNDDOWN va.toNat) < ROUNDUP e then
        some (if (ROUNDUP e + 2 ^ 32 - va.toNat) % 2 ^ 32 < PGSIZE then va.toNat else
          checkLoop m perm (ROUNDUP e) (2 ^ 20) (ROUNDDOWN va.toNat))
        else none) ↔
      ROUNDDOWN va.toNat < ROUNDUP e ∧ touches m perm va.toNat = false ∧ ¬ Allows m perm va.toNat := by
  obtain ⟨hS, hSv, hvS⟩ := ROUNDDOWN_bounds va.toNat
  obtain ⟨hE, _, _, hElim⟩ := ROUNDUP_bounds hlim
  rcases Nat.lt_or_ge (ROUNDUP e) (ROUNDDOWN va.toNat) with hless | hle
  · -- the walk does not begin
    rw [checkLoop_done m perm _ hless.le]
    exact wrap_iff he hlim hva hev hS (Nat.le_refl _) (fun hc => by omega) (fun hc => by omega)
      (fun hc => by omega)
  · obtain ⟨r, hloop, hr, hlo, hhi, hbefore, hstop⟩ := checkLoop_spec m perm hE hElim (2 ^ 20) _ hS hle
      (Nat.le_of_lt (pages_lt_ulim hElim))
    rw [hloop]
    refine wrap_iff he hlim hva hev hr hlo (fun _ => hhi) (fun hc => ?_) hstop
    rw [touches_page hS hSv hvS]
    exact hbefore _ hS (Nat.le_refl _) hc

end Check

/-- **The check is right exactly for these arguments**. -/
theorem checkOk_iff (m : Space) (va len perm : BitVec 32) :
    CheckOk m va len perm (userMemCheck m va len perm) ↔ Answerable m va len perm := by
  have hv := va.isLt
  have hl := len.isLt
  obtain ⟨hS, hSv, hvS⟩ := ROUNDDOWN_bounds va.toNat
  unfold userMemCheck Answerable
  dsimp only
  split
  · next hhigh =>
    -- the start itself offends
    refine iff_of_true ⟨Nat.le_refl _, .inl hhigh, fun a h1 h2 => absurd h1 (Nat.not_le.2 h2)⟩ (.inl hhigh)
  · next hlow =>
    split
    · next hend =>
      have hsum : ¬ va.toNat + len.toNat < ULIM := fun hc => by
        rw [Nat.mod_eq_of_lt (hc.trans (by decide))] at hend
        omega
      constructor
      · rintro ⟨_, _, hall⟩
        refine .inr (.inl ⟨hend, fun a h1 h2 => ?_⟩)
        exact Classical.not_not.1 ((offends_iff h2).not.1 (hall a h1 h2))
      · rintro (hc | ⟨_, hall⟩ | ⟨hc, _⟩ | ⟨_, _, hc, _⟩)
        · exact absurd hc hlow
        · refine ⟨by omega, .inl (Nat.le_refl _), fun a h1 h2 => ?_⟩
          rw [offends_iff h2]
          exact fun hno => hno (hall a h1 h2)
        · exact absurd hc hsum
        · exact absurd hend (Nat.not_le.2 hc)
    · next hend =>
      generalize he : (va.toNat + len.toNat) % 2 ^ 32 = e at *
      have hlim : e < ULIM := Nat.not_le.1 hend
      obtain ⟨hE, heE, hEe, hElim⟩ := ROUNDUP_bounds hlim
      have hcases : va.toNat + len.toNat = e ∨ va.toNat + len.toNat = e + 2 ^ 32 ∧ e < va.toNat := by omega
      rcases hcases with hsum | ⟨hsum, hev⟩
      · have hle : ROUNDDOWN va.toNat ≤ ROUNDUP e := by omega
        obtain ⟨r, hloop, hr, hlo, hhi, hbefore, hstop⟩ := checkLoop_spec m perm hE hElim (2 ^ 20) _ hS hle
          (Nat.le_of_lt (pages_lt_ulim hElim))
        rw [hloop, walk_iff hsum hlim hr hlo hhi hbefore hstop]
        constructor
        · exact fun hw => .inr (.inr (.inl ⟨by omega, hw⟩))
        · rintro (hc | ⟨hc, _⟩ | ⟨_, hw⟩ | ⟨hc, _⟩)
          · exact absurd hc hlow
          · exact absurd hc hend
          · exact hw
          · omega
      · rw [wrap_check hsum hlim (Nat.not_le.1 hlow) hev]
        constructor
        · rintro ⟨h1, h2⟩
          exact .inr (.inr (.inr ⟨hev, h1, hlim, h2⟩))
        · rintro (hc | ⟨hc, _⟩ | ⟨hc, _⟩ | ⟨_, h1, _, h2⟩)
          · exact absurd hc hlow
          · exact absurd hc hend
          · unfold ULIM at *
            omega
          · exact ⟨h1, h2⟩

/-- A process whose pages may all be read, and not written. -/
def readOnly : Space := ⟨fun _ => 5, fun _ _ => 5⟩

/-- **A page that may only be read** passes for one that may be written. -/
theorem readOnly_passes : ¬ ∀ m va len perm, CheckOk m va len perm (userMemCheck m va len perm) := by
  intro h
  have hcheck := h readOnly 0x08048000#32 1#32 7#32
  have hres : userMemCheck readOnly 0x08048000#32 1#32 7#32 = none := by decide +kernel
  rw [hres] at hcheck
  apply hcheck 0x08048000 (by decide) (by decide)
  apply Or.inr
  rintro ⟨_, _, hbits, _⟩
  exact absurd hbits (by decide)

end WeiOS.UserMem
