import Mathlib
import WeiOS.Lib.Run
import WeiOS.Mm.PageTable
import WeiOS.Mm.PageRefs
import WeiOS.Mm.PageCalls
import WeiOS.Mm.PageMap

/-!
# The Heap of a Process

`sbrk` and `brk` of `kern/sysfunc.c` over the page tables: where they move `heap_ptr`, what they return, and
which pages they take away. `sbrk` adds the end of the new region to `heap_ptr` where it means to add the size,
and it returns the end. Its negative argument is taken modulo `0x7fffffff` instead of being negated. `ROUNDUP` of
an address in the last page is 0.

## Main results
- `MapInv.sbrkLoop`, `MapInv.brkLoop`: the loops unmap exactly the pages between the two breaks.
- `heap_of_run`: the runs of `sbrk` and `brk` that manage one contiguous heap.
-/

namespace WeiOS.Paging

open WeiOS.Lib PageMap

/-! ## §1 What the loops unmap -/

section Loops

variable {s s' : Vm} {p : Proc}

/-- The pages from `lo` up to `hi` of one process are unmapped, its other pages are as before, and the heap
    bounds of all processes as well, but for the `heap_ptr` of this one. -/
structure Unmapped (s : Vm) (p : Proc) (lo hi : Nat) (s' : Vm) : Prop where
  inv : MapInv s'
  base : s'.baseMemSz = s.baseMemSz
  gone : ∀ v, UserPage v → lo ≤ v → v < hi → tr s' p v = none
  kept : ∀ v, UserPage v → ¬ (lo ≤ v ∧ v < hi) → tr s' p v = tr s p v

theorem pageRemove_baseMemSz (s : Vm) (p : Proc) (va : Nat) :
    (Paging.pageRemove s p va).baseMemSz = s.baseMemSz := by
  unfold Paging.pageRemove
  split
  · rfl
  · show (pageDecreaseRef s _).baseMemSz = _
    unfold pageDecreaseRef pageFree
    dsimp only
    split <;> rfl

theorem Unmapped.refl (h : MapInv s) {lo hi : Nat} (hle : hi ≤ lo) : Unmapped s p lo hi s where
  inv := h
  base := rfl
  gone := fun _ _ hlo hhi => absurd (hlo.trans_lt hhi) (Nat.not_lt.2 hle)
  kept := fun _ _ _ => rfl

/-- One page is removed. -/
theorem Unmapped.page (h : MapInv s) {va : Nat} (hva : UserPage va) :
    Unmapped s p va (va + PGSIZE) (Paging.pageRemove s p va) := by
  obtain ⟨h', _, _, hnone, hother⟩ := h.pageRemove (p := p) hva.1
  have hpage : ∀ v, UserPage v → va ≤ v ∧ v < va + PGSIZE → v = va := by
    rintro v hv ⟨hlo, hhi⟩
    obtain ⟨x, rfl⟩ := hv.2
    obtain ⟨y, rfl⟩ := hva.2
    simp only [PGSIZE] at *
    omega
  refine ⟨h', pageRemove_baseMemSz s p va, fun v hv hlo hhi => ?_, fun v hv hout => ?_⟩
  · rw [hpage v hv ⟨hlo, hhi⟩]
    exact hnone
  · have hne : v ≠ va := by
      rintro rfl
      exact hout ⟨Nat.le_refl v, Nat.lt_add_of_pos_right (by decide)⟩
    exact hother _ (mem_pteSlots_of_lt p hv.1) (slot_ne hv.2 hva.2 hv.1 hva.1 hne p)

/-- Pages that lie next to each other are removed one after the other. -/
theorem Unmapped.trans {t : Vm} {lo mid hi : Nat} (h : Unmapped s p lo mid s') (h' : Unmapped s' p mid hi t)
    (hlo : lo ≤ mid) (hhi : mid ≤ hi) : Unmapped s p lo hi t where
  inv := h'.inv
  base := h'.base.trans h.base
  gone := by
    intro v hv hle hlt
    by_cases hmid : mid ≤ v
    · exact h'.gone v hv hmid hlt
    · rw [h'.kept v hv fun hc => hmid hc.1]
      exact h.gone v hv hle (Nat.not_le.1 hmid)
  kept := by
    intro v hv hout
    rw [h'.kept v hv fun hc => hout ⟨hlo.trans hc.1, hc.2⟩]
    exact h.kept v hv fun hc => hout ⟨hc.1, hc.2.trans_le hhi⟩

/-- The same from the top. -/
theorem Unmapped.trans' {t : Vm} {lo mid hi : Nat} (h : Unmapped s p mid hi s') (h' : Unmapped s' p lo mid t)
    (hlo : lo ≤ mid) (hhi : mid ≤ hi) : Unmapped s p lo hi t where
  inv := h'.inv
  base := h'.base.trans h.base
  gone := by
    intro v hv hle hlt
    by_cases hmid : v < mid
    · exact h'.gone v hv hle hmid
    · rw [h'.kept v hv fun hc => hmid hc.2]
      exact h.gone v hv (Nat.not_lt.1 hmid) hlt
  kept := by
    intro v hv hout
    rw [h'.kept v hv fun hc => hout ⟨hc.1, hc.2.trans_le hhi⟩]
    exact h.kept v hv fun hc => hout ⟨hlo.trans hc.1, hc.2⟩

/-- The break is no part of the tables. -/
theorem MapInv.setHeapPtr (h : MapInv s) (a : Nat) : MapInv (Paging.setHeapPtr s p a) := h.congr rfl rfl rfl

/-- **The loop of `sbrk`** unmaps the pages from `lo` up. -/
theorem MapInv.sbrkLoop {lo hi : Nat} (fuel : Nat) (h : MapInv s) (hlo : PGSIZE ∣ lo) (hhi : PGSIZE ∣ hi)
    (hu : hi ≤ UTOP) (hfuel : (hi - lo) / PGSIZE ≤ fuel) :
    Unmapped s p lo hi (Paging.sbrkLoop p hi fuel lo s) ∧ (Paging.sbrkLoop p hi fuel lo s).heapPtr = s.heapPtr := by
  induction fuel generalizing lo s with
  | zero =>
    have hle : hi ≤ lo := by
      obtain ⟨x, rfl⟩ := hlo
      obtain ⟨y, rfl⟩ := hhi
      simp only [PGSIZE] at *
      omega
    exact ⟨.refl h hle, rfl⟩
  | succ fuel ih =>
    unfold Paging.sbrkLoop
    split
    · next hlt =>
      have hgap : PGSIZE ≤ hi - lo := Nat.le_of_dvd (by omega) (Nat.dvd_sub hhi hlo)
      have hmod : (lo + PGSIZE) % 2 ^ 32 = lo + PGSIZE := by
        apply Nat.mod_eq_of_lt
        simp only [PGSIZE, UTOP] at *
        omega
      have hfuel' : (hi - (lo + PGSIZE)) / PGSIZE ≤ fuel := by
        simp only [PGSIZE] at *
        omega
      have hpage := Unmapped.page (p := p) h ⟨hlt.trans_le hu, hlo⟩
      obtain ⟨hrest, hheap⟩ := ih hpage.inv ((Nat.dvd_add_right hlo).2 (Nat.dvd_refl _)) hfuel'
      rw [hmod]
      refine ⟨hpage.trans hrest (Nat.le_add_right _ _) (by omega), ?_⟩
      rw [hheap, pageRemove_heapPtr]
    · next hge => exact ⟨.refl h (Nat.not_lt.1 hge), rfl⟩

/-- **The loop of `brk`** unmaps them from the top, and takes `heap_ptr` along. -/
theorem MapInv.brkLoop {lo : Nat} (fuel : Nat) (h : MapInv s) (hlo : PGSIZE ∣ lo) (hhi : PGSIZE ∣ s.heapPtr p)
    (hle : lo ≤ s.heapPtr p) (hu : s.heapPtr p ≤ UTOP) (hfuel : (s.heapPtr p - lo) / PGSIZE ≤ fuel) :
    Unmapped s p lo (s.heapPtr p) (Paging.brkLoop p lo fuel s) ∧ (Paging.brkLoop p lo fuel s).heapPtr p = lo := by
  induction fuel generalizing s with
  | zero =>
    have heq : s.heapPtr p = lo := by
      obtain ⟨x, rfl⟩ := hlo
      obtain ⟨y, hy⟩ := hhi
      rw [hy] at hle hfuel ⊢
      simp only [PGSIZE] at *
      omega
    exact ⟨.refl h (Nat.le_of_eq heq), heq⟩
  | succ fuel ih =>
    unfold Paging.brkLoop
    split
    · next hlt =>
      have hgap : PGSIZE ≤ s.heapPtr p - lo := Nat.le_of_dvd (by omega) (Nat.dvd_sub hhi hlo)
      have hmod : (s.heapPtr p + 2 ^ 32 - PGSIZE) % 2 ^ 32 = s.heapPtr p - PGSIZE := by
        simp only [PGSIZE, UTOP] at *
        omega
      have hau : UserPage (s.heapPtr p - PGSIZE) := by
        refine ⟨?_, Nat.dvd_sub hhi (Nat.dvd_refl _)⟩
        simp only [PGSIZE, UTOP] at *
        omega
      dsimp only
      rw [hmod]
      have hpage := Unmapped.page (p := p) (h.setHeapPtr (p := p) (s.heapPtr p - PGSIZE)) hau
      generalize hs' : Paging.pageRemove (Paging.setHeapPtr s p (s.heapPtr p - PGSIZE)) p
        (s.heapPtr p - PGSIZE) = s' at hpage
      have hheap : s'.heapPtr p = s.heapPtr p - PGSIZE := by
        rw [← hs', pageRemove_heapPtr]
        simp [Paging.setHeapPtr]
      have hfuel' : (s'.heapPtr p - lo) / PGSIZE ≤ fuel := by
        rw [hheap]
        simp only [PGSIZE] at *
        omega
      obtain ⟨hrest, hend⟩ := ih hpage.inv (by rw [hheap]; exact hau.2) (by omega) (by omega) hfuel'
      rw [hheap] at hrest
      have htop : s.heapPtr p - PGSIZE + PGSIZE = s.heapPtr p := by omega
      rw [htop] at hpage
      -- the break moves before the page is removed, and the tables do not see it
      have hpage' : Unmapped s p (s.heapPtr p - PGSIZE) (s.heapPtr p) s' :=
        ⟨hpage.inv, hpage.base, hpage.gone, hpage.kept⟩
      exact ⟨hpage'.trans' hrest (by omega) (Nat.sub_le _ _), hend⟩
    · next hge => exact ⟨.refl h (Nat.not_lt.1 hge), Nat.le_antisymm (Nat.not_lt.1 hge) hle⟩

end Loops

/-! ## §2 Calls and what they return -/

namespace Heap

variable {s s' : Vm} {p : Proc}

/-- What `sbrk` returns; a null pointer is a failure. -/
def sbrkValue (s : Vm) (p : Proc) (n : Int) : Nat :=
  let baseAddr := s.heapPtr p
  if n < 0 then
    let realN := (n % 2 ^ 32).toNat % 0x7fffffff
    let endAddr := ROUNDDOWN ((baseAddr + 2 ^ 32 - realN) % 2 ^ 32)
    if endAddr < ROUNDUP (s.baseMemSz p) then 0 else endAddr
  else if 0 < n then
    let endAddr := (baseAddr + ROUNDUP n.toNat) % 2 ^ 32
    if HEAPTOP < endAddr ∨ endAddr < baseAddr then 0 else endAddr
  else baseAddr

/-- What `brk` returns. -/
def brkValue (s : Vm) (p : Proc) (heapBreak : Nat) : Int :=
  if s.heapPtr p < heapBreak then
    if ROUNDUP heapBreak ≤ HEAPTOP then 0 else -1
  else if heapBreak < s.heapPtr p then
    if ROUNDDOWN heapBreak < ROUNDUP (s.baseMemSz p) then -1 else 0
  else 0

/-- The two calls, with any `int` and any address. -/
inductive Op where
  | sbrk (n : BitVec 32)
  | brk (heapBreak : BitVec 32)

def next (p : Proc) (s : Vm) : Op → Vm
  | .sbrk n => Paging.sbrk s p n.toInt
  | .brk b => Paging.brk s p b.toNat

def step (p : Proc) (s : Vm) (o : Op) : Except Unit Vm := .ok (next p s o)

/-- The call does not report a failure. -/
def Succeeds (p : Proc) (s : Vm) : Op → Prop
  | .sbrk n => sbrkValue s p n.toInt ≠ 0
  | .brk b => brkValue s p b.toNat = 0

/-- The break that the caller asks for; it may be below address 0. -/
def requested (p : Proc) (s : Vm) : Op → Int
  | .sbrk n => s.heapPtr p + n.toInt
  | .brk b => b.toNat

/-- The rounded end of the program image. -/
def imageEnd (s : Vm) (p : Proc) : Nat := ROUNDUP (s.baseMemSz p)

/-- The range of `heap_ptr`. -/
structure InRange (p : Proc) (s : Vm) : Prop where
  aligned : PGSIZE ∣ s.heapPtr p
  image : imageEnd s p ≤ s.heapPtr p
  top : s.heapPtr p ≤ HEAPTOP

/-- **One call on a contiguous heap**. A shrink is a call that asks for a lower break, or sets one. What is
    mapped at or above the new break after a shrink was mapped before, and was no part of the heap. -/
structure CallOk (p : Proc) (s : Vm) (o : Op) (s' : Vm) : Prop where
  range : InRange p s'
  region : ∀ n, o = .sbrk n → 0 < n.toInt → Succeeds p s o →
    s.heapPtr p ≤ sbrkValue s p n.toInt ∧ sbrkValue s p n.toInt + n.toInt ≤ s'.heapPtr p
  shrink : Succeeds p s o → requested p s o < s.heapPtr p ∨ s'.heapPtr p < s.heapPtr p →
    (s'.heapPtr p : Int) = requested p s o - requested p s o % PGSIZE ∧
      ∀ v, UserPage v → s'.heapPtr p ≤ v → tr s' p v ≠ none → s.heapPtr p ≤ v ∧ tr s' p v = tr s p v
  failed : ¬ Succeeds p s o → s' = s

/-- The calls that do what they are for: a growth is refused, or so small in a heap so low that adding the old
    break twice does no harm; the heap shrinks by one byte, or the call for more is refused because of what is
    taken for its size, `2 ^ 31 + 1 + n`; the new break is not in the last page. -/
def Harmless (p : Proc) (s : Vm) : Op → Prop
  | .sbrk n =>
    if 0 < n.toInt then
      HEAPTOP < s.heapPtr p + ROUNDUP n.toNat ∨
        n.toNat ≤ s.heapPtr p ∧ 2 * s.heapPtr p + ROUNDUP n.toNat ≤ HEAPTOP
    else if n.toInt = -1 then PGSIZE < s.heapPtr p ∨ 0 < imageEnd s p ∧ imageEnd s p = s.heapPtr p
    else if n.toInt < 0 then
      n.toInt ≤ -3 ∧ 2 ^ 31 + 1 + n.toInt ≤ s.heapPtr p ∧
        (s.heapPtr p : Int) < imageEnd s p + (2 ^ 31 + 1 + n.toInt)
    else True
  | .brk b => b.toNat ≤ 2 ^ 32 - PGSIZE

/-- What `n % (~0x80000000)` is for a negative `n`. -/
theorem realN_eq {n : Int} (hlo : -2 ^ 31 ≤ n) (hneg : n < 0) :
    (n % 2 ^ 32).toNat % 0x7fffffff =
      if n = -1 then 1 else if n = -2 then 0 else (2 ^ 31 + 1 + n).toNat := by
  have hmod : (n % 2 ^ 32).toNat = (2 ^ 32 + n).toNat := by omega
  rw [hmod]
  split
  · next h =>
    rw [h]
    rfl
  · split
    · next h =>
      rw [h]
      rfl
    · omega

theorem ROUNDUP_eq {a : Nat} (h : a ≤ 2 ^ 32 - PGSIZE) :
    ROUNDUP a = (a + PGSIZE - 1) / PGSIZE * PGSIZE := by
  have hlt : a + PGSIZE - 1 < 2 ^ 32 := by
    simp only [PGSIZE] at *
    omega
  unfold ROUNDUP ROUNDDOWN
  rw [Nat.mod_eq_of_lt hlt]
  have := Nat.div_add_mod (a + PGSIZE - 1) PGSIZE
  rw [Nat.mul_comm] at this
  omega

/-- **`sbrk` that grows the heap**. -/
theorem sbrk_grow (h : InRange p s) {n : Int} (hpos : 0 < n) (hn : n < 2 ^ 31) :
    (HEAPTOP < s.heapPtr p + ROUNDUP n.toNat → sbrk s p n = s ∧ sbrkValue s p n = 0) ∧
      (s.heapPtr p + ROUNDUP n.toNat ≤ HEAPTOP →
        sbrk s p n = setHeapPtr s p ((2 * s.heapPtr p + ROUNDUP n.toNat) % 2 ^ 32) ∧
          sbrkValue s p n = s.heapPtr p + ROUNDUP n.toNat) := by
  have hround : ROUNDUP n.toNat ≤ 2 ^ 31 := by
    rw [ROUNDUP_eq (by simp only [PGSIZE]; omega)]
    simp only [PGSIZE]
    omega
  have htop := h.top
  have hsbrk : ∀ e, (s.heapPtr p + ROUNDUP n.toNat) % 2 ^ 32 = e →
      sbrk s p n = (if HEAPTOP < e ∨ e < s.heapPtr p then s else setHeapPtr s p ((s.heapPtr p + e) % 2 ^ 32)) ∧
        sbrkValue s p n = if HEAPTOP < e ∨ e < s.heapPtr p then 0 else e := by
    intro e he
    unfold sbrk sbrkValue
    dsimp only
    rw [if_neg (Int.not_lt.2 hpos.le), if_pos hpos, if_neg (Int.not_lt.2 hpos.le), if_pos hpos, he]
    exact ⟨rfl, rfl⟩
  generalize ROUNDUP n.toNat = r at hround hsbrk ⊢
  obtain ⟨hs, hv⟩ := hsbrk _ rfl
  constructor
  · intro hrefuse
    have hcond : HEAPTOP < (s.heapPtr p + r) % 2 ^ 32 ∨ (s.heapPtr p + r) % 2 ^ 32 < s.heapPtr p := by
      unfold HEAPTOP at *
      omega
    rw [if_pos hcond] at hs hv
    exact ⟨hs, hv⟩
  · intro hfits
    have hmod : (s.heapPtr p + r) % 2 ^ 32 = s.heapPtr p + r := by
      apply Nat.mod_eq_of_lt
      unfold HEAPTOP at hfits
      omega
    rw [hmod, if_neg (by omega)] at hs hv
    rw [hs, hv, ← Nat.add_assoc, ← Nat.two_mul]
    exact ⟨rfl, rfl⟩

/-- **`sbrk` that shrinks the heap**, by the amount `k` that the call takes from its argument. -/
theorem sbrk_shrink (hm : MapInv s) (h : InRange p s) {n : Int} (hneg : n < 0) {k : Nat}
    (hk : (n % 2 ^ 32).toNat % 0x7fffffff = k) (hle : k ≤ s.heapPtr p) :
    (s.heapPtr p - k < imageEnd s p → sbrk s p n = s ∧ sbrkValue s p n = 0) ∧
      (imageEnd s p ≤ s.heapPtr p - k →
        sbrkValue s p n = ROUNDDOWN (s.heapPtr p - k) ∧
          (sbrk s p n).heapPtr p = ROUNDDOWN (s.heapPtr p - k) ∧
          Unmapped s p (ROUNDDOWN (s.heapPtr p - k)) (s.heapPtr p) (sbrk s p n)) := by
  have htop : s.heapPtr p ≤ UTOP := h.top.trans (by decide)
  have hmod : (s.heapPtr p + 2 ^ 32 - k) % 2 ^ 32 = s.heapPtr p - k := by
    unfold UTOP at htop
    omega
  have hround : ROUNDDOWN (s.heapPtr p - k) < imageEnd s p ↔ s.heapPtr p - k < imageEnd s p := by
    obtain ⟨x, hx⟩ : PGSIZE ∣ imageEnd s p := dvd_ROUNDDOWN _
    rw [hx]
    simp only [ROUNDDOWN, PGSIZE]
    omega
  have hlen := pages_lt (ROUNDDOWN (s.heapPtr p - k)) htop
  unfold sbrk sbrkValue
  dsimp only
  rw [if_pos hneg, if_pos hneg, hk, hmod]
  constructor
  · intro hlow
    have himage : ROUNDDOWN (s.heapPtr p - k) < ROUNDUP (s.baseMemSz p) := hround.2 hlow
    rw [if_pos himage, if_pos himage]
    exact ⟨rfl, rfl⟩
  · intro hok
    have hnot : ¬ ROUNDDOWN (s.heapPtr p - k) < ROUNDUP (s.baseMemSz p) := fun hc =>
      Nat.not_lt.2 hok (hround.1 hc)
    rw [if_neg hnot, if_neg hnot]
    obtain ⟨hun, hheap⟩ := (hm.setHeapPtr (p := p) (ROUNDDOWN (s.heapPtr p - k))).sbrkLoop (p := p) (2 ^ 20)
      (dvd_ROUNDDOWN _) h.aligned htop (Nat.le_of_lt hlen)
    refine ⟨rfl, ?_, hun.inv, hun.base, hun.gone, hun.kept⟩
    rw [hheap]
    simp [setHeapPtr]

/-- A heap of more than one page loses its last page to `sbrk(-1)`, but not the image. -/
theorem sbrk_one (hm : MapInv s) (h : InRange p s) {n : Int} (hn : n = -1)
    (hroom : PGSIZE < s.heapPtr p ∨ 0 < imageEnd s p ∧ imageEnd s p = s.heapPtr p) :
    (sbrk s p n = s ∧ sbrkValue s p n = 0) ∨
    ∃ e, sbrkValue s p n = e ∧ 0 < e ∧ (sbrk s p n).heapPtr p = e ∧ PGSIZE ∣ e ∧ imageEnd s p ≤ e ∧
      e + PGSIZE = s.heapPtr p ∧ Unmapped s p e (s.heapPtr p) (sbrk s p n) := by
  obtain ⟨x, hx⟩ := h.aligned
  obtain ⟨y, hy⟩ : PGSIZE ∣ imageEnd s p := dvd_ROUNDDOWN _
  have hpos : 1 ≤ s.heapPtr p := by omega
  have hk : (n % 2 ^ 32).toNat % 0x7fffffff = 1 := by
    rw [hn]
    rfl
  obtain ⟨hrefused, hshrunk⟩ := sbrk_shrink hm h (by omega) hk hpos
  by_cases hlow : s.heapPtr p - 1 < imageEnd s p
  · exact .inl (hrefused hlow)
  · obtain ⟨hv, hheap, hun⟩ := hshrunk (Nat.not_lt.1 hlow)
    clear hk hrefused hshrunk
    have hdown : ROUNDDOWN (s.heapPtr p - 1) = s.heapPtr p - PGSIZE := by
      simp only [ROUNDDOWN, PGSIZE] at *
      omega
    rw [hdown] at hv hheap hun
    have hrest : imageEnd s p ≤ s.heapPtr p - PGSIZE ∧ 0 < s.heapPtr p - PGSIZE ∧
        s.heapPtr p - PGSIZE + PGSIZE = s.heapPtr p := by
      simp only [PGSIZE] at *
      omega
    exact .inr ⟨_, hv, hrest.2.1, hheap, Nat.dvd_sub h.aligned (Nat.dvd_refl _), hrest.1, hrest.2.2, hun⟩

/-- What is taken for the size leads below the image, so the call is refused. -/
theorem sbrk_far (hm : MapInv s) (h : InRange p s) {n : Int} (hlo : -2 ^ 31 ≤ n)
    (hfar : n ≤ -3 ∧ 2 ^ 31 + 1 + n ≤ s.heapPtr p ∧ (s.heapPtr p : Int) < imageEnd s p + (2 ^ 31 + 1 + n)) :
    sbrk s p n = s ∧ sbrkValue s p n = 0 := by
  obtain ⟨hn, hle, hlow⟩ := hfar
  have hneg : n < 0 := by omega
  have hone : n ≠ -1 := by omega
  have htwo : n ≠ -2 := by omega
  have hsize : (2 ^ 31 + 1 + n).toNat ≤ s.heapPtr p := by omega
  have hbelow : s.heapPtr p - (2 ^ 31 + 1 + n).toNat < imageEnd s p := by omega
  have hk := realN_eq hlo hneg
  rw [if_neg hone, if_neg htwo] at hk
  exact (sbrk_shrink hm h hneg hk hsize).1 hbelow

/-- **`brk`**: the break moves up, it moves down, or the call is refused. -/
theorem brk_cases (hm : MapInv s) (h : InRange p s) {b : Nat} (hb : b ≤ 2 ^ 32 - PGSIZE) :
    (b = s.heapPtr p ∧ brk s p b = s ∧ brkValue s p b = 0) ∨
    (brk s p b = s ∧ brkValue s p b = -1) ∨
    (s.heapPtr p < b ∧ ∃ e, e ≤ HEAPTOP ∧ PGSIZE ∣ e ∧ s.heapPtr p ≤ e ∧ brk s p b = setHeapPtr s p e ∧
      brkValue s p b = 0) ∨
    (b < s.heapPtr p ∧ imageEnd s p ≤ ROUNDDOWN b ∧ brkValue s p b = 0 ∧
      (brk s p b).heapPtr p = ROUNDDOWN b ∧ Unmapped s p (ROUNDDOWN b) (s.heapPtr p) (brk s p b)) := by
  unfold brk brkValue
  split
  · next hgt =>
    split
    · next htop =>
      refine .inr (.inr (.inl ⟨hgt, ROUNDUP b, htop, dvd_ROUNDDOWN _, ?_, rfl, rfl⟩))
      rw [ROUNDUP_eq hb]
      simp only [PGSIZE] at *
      omega
    · exact .inr (.inl ⟨rfl, rfl⟩)
  · next hge =>
    split
    · next hlt =>
      split
      · exact .inr (.inl ⟨rfl, rfl⟩)
      · next hok =>
        have htop : s.heapPtr p ≤ UTOP := h.top.trans (by decide)
        have hdown : ROUNDDOWN b ≤ s.heapPtr p := (Nat.sub_le _ _).trans hlt.le
        obtain ⟨hun, hheap⟩ := hm.brkLoop (p := p) (2 ^ 20) (dvd_ROUNDDOWN b) h.aligned hdown htop
          (Nat.le_of_lt (pages_lt _ htop))
        exact .inr (.inr (.inr ⟨hlt, Nat.not_lt.1 hok, rfl, hheap, hun⟩))
    · exact .inl ⟨by omega, rfl, rfl⟩

/-! ## §3 Steps and runs -/

/-- A call that leaves everything as it is. -/
theorem CallOk.same (h : InRange p s) {o : Op} (hfail : Succeeds p s o → requested p s o = s.heapPtr p ∧
    ∀ n, o = .sbrk n → n.toInt ≤ 0) : CallOk p s o s where
  range := h
  region := fun n ho hpos hok => absurd hpos (Int.not_lt.2 ((hfail hok).2 n ho))
  shrink := by
    intro hok hless
    have heq := (hfail hok).1
    omega
  failed := fun _ => rfl

/-- A call that moves the break down, to where it was asked to. -/
theorem CallOk.down (h : InRange p s) {o : Op} {e : Nat} (hheap : s'.heapPtr p = e) (he : PGSIZE ∣ e)
    (himage : imageEnd s p ≤ e) (hle : e ≤ s.heapPtr p)
    (hreq : (e : Int) = requested p s o - requested p s o % PGSIZE) (hun : Unmapped s p e (s.heapPtr p) s')
    (hok : Succeeds p s o) (hneg : ∀ n, o = .sbrk n → n.toInt ≤ 0) : CallOk p s o s' where
  range := by
    have hbase : imageEnd s' p = imageEnd s p := by
      unfold imageEnd
      rw [hun.base]
    refine ⟨?_, ?_, ?_⟩
    · rw [hheap]
      exact he
    · rw [hbase, hheap]
      exact himage
    · rw [hheap]
      exact hle.trans h.top
  region := fun n ho hpos _ => absurd hpos (Int.not_lt.2 (hneg n ho))
  shrink := by
    intro _ _
    rw [hheap]
    refine ⟨hreq, fun v hv hlo hmapped => ?_⟩
    have habove : s.heapPtr p ≤ v := by
      by_contra hc
      exact hmapped (hun.gone v hv hlo (Nat.not_le.1 hc))
    exact ⟨habove, hun.kept v hv fun hc => Nat.not_lt.2 habove hc.2⟩
  failed := fun hno => absurd hok hno

/-- A call that moves the break up. -/
theorem CallOk.up (h : InRange p s) {o : Op} {e : Nat} (he : PGSIZE ∣ e) (hle : s.heapPtr p ≤ e)
    (htop : e ≤ HEAPTOP) (hreq : s.heapPtr p ≤ requested p s o) (hok : Succeeds p s o)
    (hregion : ∀ n, o = .sbrk n → 0 < n.toInt →
      s.heapPtr p ≤ sbrkValue s p n.toInt ∧ sbrkValue s p n.toInt + n.toInt ≤ e) :
    CallOk p s o (setHeapPtr s p e) := by
  have hheap : (setHeapPtr s p e).heapPtr p = e := by simp [setHeapPtr]
  refine ⟨⟨?_, ?_, ?_⟩, fun n ho hpos _ => ?_, fun _ hless => ?_, fun hno => absurd hok hno⟩
  · rw [hheap]
    exact he
  · rw [hheap]
    exact h.image.trans hle
  · rw [hheap]
    exact htop
  · rw [hheap]
    exact hregion n ho hpos
  · rw [hheap] at hless
    omega

/-- `sbrk` for a positive number of bytes. -/
theorem sbrk_grow_ok (hm : MapInv s) (h : InRange p s) {b : BitVec 32} (hpos : 0 < b.toInt)
    (ho : Harmless p s (.sbrk b)) : CallOk p s (.sbrk b) (sbrk s p b.toInt) ∧ MapInv (sbrk s p b.toInt) := by
  have hsucc : Succeeds p s (.sbrk b) ↔ sbrkValue s p b.toInt ≠ 0 := Iff.rfl
  have hreq : requested p s (.sbrk b) = s.heapPtr p + b.toInt := rfl
  obtain ⟨hrefused, hgrown⟩ := sbrk_grow h hpos BitVec.toInt_lt
  have htoInt : (b.toNat : Int) = b.toInt := by
    rw [BitVec.toInt_eq_toNat_cond] at hpos ⊢
    split at hpos <;> omega
  have hnat : b.toInt.toNat = b.toNat := by omega
  simp only [Harmless, if_pos hpos] at ho
  rw [hnat] at hrefused hgrown
  rcases ho with hbig | ⟨hsmall, hfits⟩
  · obtain ⟨hs, hv⟩ := hrefused hbig
    rw [hs]
    exact ⟨.same h fun hok => absurd hv hok, hm⟩
  · obtain ⟨hs, hv⟩ := hgrown (by omega)
    have hmod : (2 * s.heapPtr p + ROUNDUP b.toNat) % 2 ^ 32 = 2 * s.heapPtr p + ROUNDUP b.toNat := by
      apply Nat.mod_eq_of_lt
      unfold HEAPTOP at hfits
      omega
    have hdvd : PGSIZE ∣ 2 * s.heapPtr p + ROUNDUP b.toNat :=
      (Nat.dvd_add_right (h.aligned.mul_left 2)).2 (dvd_ROUNDDOWN _)
    rw [hs, hmod]
    refine ⟨.up h hdvd (by omega) hfits (by omega) ?_ ?_, hm.setHeapPtr _⟩
    · rw [hsucc, hv]
      omega
    · intro n hn _
      obtain rfl := Op.sbrk.inj hn
      rw [hv]
      omega

/-- `sbrk` for a negative number of bytes. -/
theorem sbrk_shrink_ok (hm : MapInv s) (h : InRange p s) {b : BitVec 32} (hneg : b.toInt < 0)
    (ho : Harmless p s (.sbrk b)) : CallOk p s (.sbrk b) (sbrk s p b.toInt) ∧ MapInv (sbrk s p b.toInt) := by
  have hsucc : Succeeds p s (.sbrk b) ↔ sbrkValue s p b.toInt ≠ 0 := Iff.rfl
  have hreq : requested p s (.sbrk b) = s.heapPtr p + b.toInt := rfl
  simp only [Harmless, if_neg (Int.not_lt.2 hneg.le)] at ho
  by_cases hone : b.toInt = -1
  · rw [if_pos hone] at ho
    rcases sbrk_one hm h hone ho with ⟨hs, hv⟩ | ⟨e, hv, hpos', hheap, hdvd, himage, hle, hun⟩
    · rw [hs]
      exact ⟨.same h fun hok => absurd hv hok, hm⟩
    · refine ⟨.down h hheap hdvd himage (by omega) ?_ hun ?_ fun n hn => ?_, hun.inv⟩
      · rw [hreq, hone, ← hle]
        obtain ⟨x, rfl⟩ := hdvd
        simp only [PGSIZE]
        omega
      · rw [hsucc, hv]
        omega
      · obtain rfl := Op.sbrk.inj hn
        exact hneg.le
  · rw [if_neg hone, if_pos hneg] at ho
    obtain ⟨hs, hv⟩ := sbrk_far hm h (BitVec.le_toInt b) ho
    rw [hs]
    exact ⟨.same h fun hok => absurd hv hok, hm⟩

theorem brk_ok (hm : MapInv s) (h : InRange p s) {b : BitVec 32} (ho : Harmless p s (.brk b)) :
    CallOk p s (.brk b) (brk s p b.toNat) ∧ MapInv (brk s p b.toNat) := by
  have hsucc : Succeeds p s (.brk b) ↔ brkValue s p b.toNat = 0 := Iff.rfl
  have hreq : requested p s (.brk b) = b.toNat := rfl
  rcases brk_cases hm h ho with ⟨heq, hs, _⟩ | ⟨hs, hv⟩ | ⟨hgt, e, htop, hdvd, hle, hs, hv⟩ |
    ⟨hlt, himage, hv, hheap, hun⟩
  · -- the heap ends there already
    rw [hs]
    exact ⟨.same h fun _ => ⟨by omega, fun n hn => (by cases hn)⟩, hm⟩
  · rw [hs]
    refine ⟨.same h fun hok => ?_, hm⟩
    rw [hsucc, hv] at hok
    cases hok
  · rw [hs]
    exact ⟨.up h hdvd hle htop (by omega) (hsucc.2 hv) (fun n hn => by cases hn), hm.setHeapPtr _⟩
  · refine ⟨.down h hheap (dvd_ROUNDDOWN _) himage ((Nat.sub_le _ _).trans hlt.le) ?_ hun (hsucc.2 hv)
      (fun n hn => by cases hn), hun.inv⟩
    rw [hreq]
    unfold ROUNDDOWN
    have := Nat.mod_le b.toNat PGSIZE
    omega

/-- **Step lemma**: a harmless call manages a contiguous heap. -/
theorem step_heap (hm : MapInv s) (h : InRange p s) {o : Op} (ho : Harmless p s o) :
    CallOk p s o (next p s o) ∧ MapInv (next p s o) := by
  cases o with
  | sbrk b =>
    show CallOk p s (.sbrk b) (sbrk s p b.toInt) ∧ MapInv (sbrk s p b.toInt)
    rcases Int.lt_trichotomy b.toInt 0 with hneg | hzero | hpos
    · exact sbrk_shrink_ok hm h hneg ho
    · have hreq : requested p s (.sbrk b) = s.heapPtr p + b.toInt := rfl
      have hs : sbrk s p b.toInt = s := by simp [sbrk, hzero]
      rw [hs]
      refine ⟨.same h fun _ => ⟨by omega, fun n hn => ?_⟩, hm⟩
      obtain rfl := Op.sbrk.inj hn
      exact hzero.le
    · exact sbrk_grow_ok hm h hpos ho
  | brk b => exact brk_ok hm h ho

/-- **One contiguous heap**: in every run of `sbrk` and `brk` whose calls are harmless, `heap_ptr` stays in its
    range, a region that is returned is new heap, a shrink ends where it was asked to and unmaps what it gives up, and
    a failure changes nothing. -/
theorem heap_of_run (hm : MapInv s) (h : InRange p s) {os : List Op} (hC : Meets (step p) (Harmless p) s os) :
    Along (step p) (CallOk p) s os := by
  apply along_of_meets (fun s => MapInv s ∧ InRange p s) _ ⟨hm, h⟩ hC
  rintro s o ⟨hm, h⟩ ho
  obtain ⟨hok, hm'⟩ := step_heap hm h ho
  exact ⟨next p s o, rfl, hok, hm', hok.range⟩

instance (p : Proc) (s : Vm) : (o : Op) → Decidable (Harmless p s o)
  | .sbrk n => by
    unfold Harmless
    infer_instance
  | .brk b => inferInstanceAs (Decidable (b.toNat ≤ 2 ^ 32 - PGSIZE))

theorem vmInit_mapInv (supply : List (Option Nat)) : MapInv (vmInit supply) := by
  refine ⟨?_, ?_, ?_⟩
  all_goals
    intro e he
    rw [pdeAt_vmInit]
    intros
    contradiction

theorem vmInit_inRange : InRange 1 (vmInit []) := ⟨by decide, by decide, by decide⟩

/-- The heap grows by a page, is cut back by `sbrk` by one byte and by `brk` to an address inside its last page, and
    grows again. -/
theorem heap_of_run_small :
    Along (step 1) (CallOk 1) (vmInit []) [.brk 0x0804a123#32, .sbrk (-1#32), .brk 0x08049fff#32, .sbrk 100#32] := by
  apply heap_of_run (vmInit_mapInv _) vmInit_inRange
  decide +kernel

/-- A page is asked for five times. -/
def fivePages : List Op :=
  [.sbrk 4096#32, .sbrk 4096#32, .sbrk 4096#32, .sbrk 4096#32] ++ [.sbrk 4096#32]

/-- **The break wraps around**: after the fifth page `heap_ptr` is below the program. -/
theorem heap_out_of_range : ¬ ∀ os : List Op, Along (step 1) (CallOk 1) (vmInit []) os := by
  intro hall
  obtain ⟨t, t', hok, hcall⟩ := (hall fivePages).last
  have hheap : (fivePages.foldlM (step 1) (vmInit [])).toOption.map (fun s => (s.heapPtr 1, imageEnd s 1)) =
      some (0x0095f000, 0x08048000) := by
    decide +kernel
  have hrun : fivePages.foldlM (step 1) (vmInit []) = .ok t' := hok
  rw [hrun] at hheap
  obtain ⟨hptr, hend⟩ := Prod.mk.inj (Option.some.inj hheap)
  have himage := hcall.range.image
  rw [hptr, hend] at himage
  omega

end Heap

end WeiOS.Paging
