import Mathlib
import WeiOS.Lib.Run
import WeiOS.Lib.Holders
import WeiOS.Mm.PageTable

/-!
# Reference Counts of Page Frames

`p_ref` of a frame is meant to be the number of page table entries that map it, and one more if the
frame is a page table. This file counts these entries, and says what each kind of write does to the
counts: a frame is allocated, a page table is added, a page is mapped, mapped again or removed.

## Main results
- `VmInv`: what holds between two writes.
- `VmInv.pageAlloc`, `VmInv.addTable`, `VmInv.map`, `VmInv.unmap`: the writes keep it.
- `VmInv.decZero`, `VmInv.leak`: what a reference that is dropped by mistake does.
-/

namespace WeiOS.Paging

open WeiOS.Lib

/-! ## §1 Counting -/

/-- The entries of user page tables, and of user page directories. -/
@[irreducible] def pteSlots : Finset (Proc × Nat × Nat) :=
  Finset.univ ×ˢ (Finset.range (PDINDEX UTOP) ×ˢ Finset.range PDENTRIES)

@[irreducible] def pdeSlots : Finset (Proc × Nat) := Finset.univ ×ˢ Finset.range (PDINDEX UTOP)

/-- The frame of the page table that a directory entry names. -/
def pdeAt (s : Vm) (e : Proc × Nat) : Option Nat :=
  if (s.pgdir e.1 e.2).present then some (s.pgdir e.1 e.2).frame else none

/-- The frame that a page table entry maps. -/
def pteAt (s : Vm) (e : Proc × Nat × Nat) : Option Nat :=
  match pdeAt s (e.1, e.2.1) with
  | none => none
  | some t => if (s.table t e.2.2).present then some (s.table t e.2.2).frame else none

/-- The number of present entries that map frame `f`, and one more if `f` is a page table. -/
def mappings (s : Vm) (f : Nat) : Nat :=
  holders pteSlots (pteAt s) f +
    if 0 < holders pdeSlots (pdeAt s) f ∨ s.kind f = .kernTable then 1 else 0

/-- The page tables of the kernel are in use from the start. -/
def kernRef (s : Vm) (f : Nat) : Nat := if s.kind f = .kernTable then 1 else 0

/-- The number of entries that name frame `f`, those of page directories included. -/
def refs (s : Vm) (f : Nat) : Nat :=
  holders pteSlots (pteAt s) f + holders pdeSlots (pdeAt s) f + kernRef s f

theorem kernRef_congr {s s' : Vm} (h : s'.kind = s.kind) (f : Nat) : kernRef s' f = kernRef s f := by
  rw [kernRef, kernRef, h]

theorem refs_congr {s s' : Vm} (hkind : s'.kind = s.kind)
    (hpte : ∀ e ∈ pteSlots, pteAt s' e = pteAt s e) (hpde : ∀ e ∈ pdeSlots, pdeAt s' e = pdeAt s e)
    (f : Nat) : refs s' f = refs s f := by
  rw [refs, refs, holders_congr hpte, holders_congr hpde, kernRef_congr hkind]

theorem card_pteSlots : pteSlots.card = 1000341504 := by
  unfold pteSlots
  simp only [Finset.card_product, Finset.card_univ, Fintype.card_fin, Finset.card_range]
  decide

theorem refs_lt (s : Vm) (f : Nat) : refs s f < 2 ^ 32 := by
  have hpte := holders_le pteSlots (pteAt s) f
  have hpde := holders_le pdeSlots (pdeAt s) f
  have hcard := card_pteSlots
  have hcard' : pdeSlots.card = 976896 := by
    unfold pdeSlots
    simp only [Finset.card_product, Finset.card_univ, Fintype.card_fin, Finset.card_range]
    decide
  unfold refs kernRef
  split <;> omega

/-- A count that is right modulo `2 ^ 32` is 0 only if there is no reference. -/
theorem cast_refs_eq_zero_iff (s : Vm) (f : Nat) : ((refs s f : Nat) : BitVec 32) = 0 ↔ refs s f = 0 := by
  constructor
  · intro h
    have hnat := congrArg BitVec.toNat h
    rw [BitVec.natCast_eq_ofNat, BitVec.toNat_ofNat, Nat.mod_eq_of_lt (refs_lt s f)] at hnat
    exact hnat
  · intro h
    rw [h]
    rfl

/-! ## §2 The invariant -/

/-- The state between two writes. The frames in `hand` were allocated and are not mapped yet, and
    `δ f` says by how much `p_ref` of frame `f` is off. -/
structure VmInv (δ : Nat → BitVec 32) (hand : List Nat) (s : Vm) : Prop where
  pool_lt : ∀ f, s.kind f = .pool → 0 < f ∧ f < s.npagesNum
  zero_lt : 0 < s.npagesNum
  dirs : ∀ e ∈ pdeSlots, ∀ e' ∈ pdeSlots, ∀ t, pdeAt s e = some t → pdeAt s e' = some t → e = e'
  tables : ∀ e ∈ pdeSlots, ∀ t, pdeAt s e = some t → s.kind t = .pool ∧ s.allocated t = true
  entries : ∀ e ∈ pdeSlots, ∀ t, pdeAt s e = some t → ∀ i < PDENTRIES,
    s.table t i = Pte.zero ∨ (s.table t i).present = true ∧ (s.table t i).frame < s.npagesNum
  count : ∀ f, s.pRef f = (refs s f : BitVec 32) + δ f
  alloc : ∀ f, s.kind f = .pool → f ∉ hand → δ f = 0 → (s.allocated f = true ↔ 0 < refs s f)
  inHand : ∀ f ∈ hand, s.kind f = .pool ∧ s.allocated f = true ∧ refs s f = 0
  nodup : hand.Nodup
  off : ∀ f, s.kind f = .pool → δ f ≠ 0 → refs s f = 0

section Writes

variable {s s' : Vm} {δ : Nat → BitVec 32} {hand : List Nat} {p : Proc} {d i t f : Nat}

theorem mem_pdeSlots : (p, d) ∈ pdeSlots ↔ d < PDINDEX UTOP := by
  unfold pdeSlots
  simp only [Finset.mem_product, Finset.mem_univ, true_and, Finset.mem_range]

theorem mem_pteSlots : (p, d, i) ∈ pteSlots ↔ d < PDINDEX UTOP ∧ i < PDENTRIES := by
  unfold pteSlots
  simp only [Finset.mem_product, Finset.mem_univ, true_and, Finset.mem_range]

theorem pteAt_eq (h : pdeAt s (p, d) = some t) :
    pteAt s (p, d, i) =
      if (s.table t i).present then some (s.table t i).frame else none := by
  simp [pteAt, h]

theorem pdeAt_congr (hpgdir : s'.pgdir = s.pgdir) : pdeAt s' = pdeAt s := by
  funext e
  simp only [pdeAt, hpgdir]

theorem pteAt_of_dirs (hdirs : pdeAt s' = pdeAt s) (htable : s'.table = s.table) :
    pteAt s' = pteAt s := by
  funext e
  simp only [pteAt, hdirs, htable]

theorem pteAt_congr (hpgdir : s'.pgdir = s.pgdir) (htable : s'.table = s.table) :
    pteAt s' = pteAt s :=
  pteAt_of_dirs (pdeAt_congr hpgdir) htable

/-- The invariant reads page directories, the page tables they name, and the frames. -/
theorem VmInv.congr (h : VmInv δ hand s) (hnp : s'.npagesNum = s.npagesNum) (hpool : s'.kind = s.kind)
    (hdir : ∀ e ∈ pdeSlots, pdeAt s' e = pdeAt s e)
    (htable : ∀ e ∈ pdeSlots, ∀ t, pdeAt s e = some t → s'.table t = s.table t)
    (href : s'.pRef = s.pRef) (halloc : s'.allocated = s.allocated) : VmInv δ hand s' := by
  have hpte : ∀ e ∈ pteSlots, pteAt s' e = pteAt s e := by
    rintro ⟨p, d, i⟩ he
    have hmem : (p, d) ∈ pdeSlots := mem_pdeSlots.2 (mem_pteSlots.1 he).1
    cases hd : pdeAt s (p, d) with
    | none => simp [pteAt, hdir _ hmem, hd]
    | some t => rw [pteAt_eq hd, pteAt_eq ((hdir _ hmem).trans hd), htable _ hmem t hd]
  have hrefs : ∀ f, refs s' f = refs s f := refs_congr hpool hpte hdir
  refine ⟨?_, ?_, ?_, ?_, ?_, ?_, ?_, ?_, h.nodup, ?_⟩
  · intro f hf
    rw [hpool] at hf
    rw [hnp]
    exact h.pool_lt f hf
  · rw [hnp]
    exact h.zero_lt
  · intro e he e' he' t ht ht'
    rw [hdir e he] at ht
    rw [hdir e' he'] at ht'
    exact h.dirs e he e' he' t ht ht'
  · intro e he t ht
    rw [hdir e he] at ht
    rw [hpool, halloc]
    exact h.tables e he t ht
  · intro e he t ht i hi
    rw [hdir e he] at ht
    rw [htable e he t ht, hnp]
    exact h.entries e he t ht i hi
  · intro f
    rw [href, hrefs]
    exact h.count f
  · intro f hf hh hδ
    rw [hpool] at hf
    rw [halloc, hrefs]
    exact h.alloc f hf hh hδ
  · intro f hf
    rw [hpool, halloc, hrefs]
    exact h.inHand f hf
  · intro f hf hδ
    rw [hpool] at hf
    rw [hrefs]
    exact h.off f hf hδ

/-! ### One entry of a page table -/

theorem pteAt_setPte_self (ht : pdeAt s (p, d) = some t) (e : Pte) :
    pteAt (setPte s t i e) (p, d, i) = if e.present then some e.frame else none := by
  have ht' : pdeAt (setPte s t i e) (p, d) = some t := ht
  rw [pteAt_eq ht']
  simp [setPte]

/-- A page table belongs to one directory entry, so a write changes one mapping. -/
theorem VmInv.pteAt_setPte_of_ne (h : VmInv δ hand s) (hd : (p, d) ∈ pdeSlots)
    (ht : pdeAt s (p, d) = some t) (e : Pte) {e' : Proc × Nat × Nat} (he' : e' ∈ pteSlots)
    (hne : e' ≠ (p, d, i)) : pteAt (setPte s t i e) e' = pteAt s e' := by
  obtain ⟨p', d', i'⟩ := e'
  have hd' : (p', d') ∈ pdeSlots := mem_pdeSlots.2 (mem_pteSlots.1 he').1
  have hsame : pdeAt (setPte s t i e) (p', d') = pdeAt s (p', d') := rfl
  cases hp : pdeAt s (p', d') with
  | none => simp [pteAt, hsame, hp]
  | some t' =>
    rw [pteAt_eq (hsame.trans hp), pteAt_eq hp]
    by_cases htt : t' = t
    · subst htt
      obtain ⟨rfl, rfl⟩ := Prod.mk.inj (h.dirs _ hd _ hd' t' ht hp)
      have hi : i' ≠ i := by
        rintro rfl
        exact hne rfl
      simp [setPte, hi]
    · simp [setPte, htt]

/-- How the references change when one mapping does. -/
theorem refs_update {e : Proc × Nat × Nat} (he : e ∈ pteSlots) (hkind : s'.kind = s.kind)
    (hdirs : pdeAt s' = pdeAt s) (hother : ∀ e' ∈ pteSlots, e' ≠ e → pteAt s' e' = pteAt s e') (f : Nat) :
    refs s' f + (if pteAt s e = some f then 1 else 0) =
      refs s f + if pteAt s' e = some f then 1 else 0 := by
  have hupd := holders_update he hother f
  rw [refs, refs, hdirs, kernRef_congr hkind]
  omega

/-- How the references change when entry `i` of page table `t` is written. -/
theorem VmInv.refs_setPte (h : VmInv δ hand s) (hd : (p, d) ∈ pdeSlots) (ht : pdeAt s (p, d) = some t)
    (hi : i < PDENTRIES) (e : Pte) (f : Nat) :
    refs (setPte s t i e) f + (if pteAt s (p, d, i) = some f then 1 else 0) =
      refs s f + if e.present = true ∧ e.frame = f then 1 else 0 := by
  have hmem : (p, d, i) ∈ pteSlots := mem_pteSlots.2 ⟨mem_pdeSlots.1 hd, hi⟩
  have hother : ∀ e' ∈ pteSlots, e' ≠ (p, d, i) → pteAt (setPte s t i e) e' = pteAt s e' :=
    fun e' he' hne => h.pteAt_setPte_of_ne hd ht e he' hne
  have hdirs : pdeAt (setPte s t i e) = pdeAt s := rfl
  have hkind : (setPte s t i e).kind = s.kind := rfl
  have hupd := refs_update hmem hkind hdirs hother f
  rw [pteAt_setPte_self ht] at hupd
  have hiff : ((if e.present = true then some e.frame else none) = some f) ↔
      e.present = true ∧ e.frame = f := by
    by_cases he : e.present = true
    · simp [he]
    · simp [he]
  rw [if_congr hiff rfl rfl] at hupd
  exact hupd

/-- The entries of the page tables stay proper when a proper entry is written. -/
theorem VmInv.entries_setPte (h : VmInv δ hand s) {x : Pte}
    (hx : x = Pte.zero ∨ x.present = true ∧ x.frame < s.npagesNum) :
    ∀ e ∈ pdeSlots, ∀ t', pdeAt s e = some t' → ∀ j < PDENTRIES,
      (setPte s t i x).table t' j = Pte.zero ∨
        ((setPte s t i x).table t' j).present = true ∧
          ((setPte s t i x).table t' j).frame < s.npagesNum := by
  intro e he t' ht' j hj
  by_cases htt : t' = t
  · subst htt
    by_cases hji : j = i
    · subst hji
      simpa [setPte] using hx
    · simpa [setPte, hji] using h.entries e he t' ht' j hj
  · simpa [setPte, htt] using h.entries e he t' ht' j hj

theorem refs_pos_of_pde (hd : (p, d) ∈ pdeSlots) (ht : pdeAt s (p, d) = some t) : 0 < refs s t := by
  have := holders_pos_iff.2 ⟨(p, d), hd, ht⟩
  unfold refs
  omega

theorem refs_pos_of_pte (hd : d < PDINDEX UTOP) (hi : i < PDENTRIES)
    (hf : pteAt s (p, d, i) = some f) : 0 < refs s f := by
  have := holders_pos_iff.2 ⟨(p, d, i), mem_pteSlots.2 ⟨hd, hi⟩, hf⟩
  unfold refs
  omega

/-- `page_decrease_ref` takes a reference away, and gives the frame back with the last one. -/
theorem pageDecreaseRef_spec (s : Vm) (f : Nat) :
    (pageDecreaseRef s f).pRef = Function.update s.pRef f (s.pRef f - 1) ∧
    (pageDecreaseRef s f).allocated =
      (if s.pRef f - 1 = 0 then Function.update s.allocated f false else s.allocated) ∧
    (pageDecreaseRef s f).pgdir = s.pgdir ∧ (pageDecreaseRef s f).table = s.table ∧
    (pageDecreaseRef s f).npagesNum = s.npagesNum ∧ (pageDecreaseRef s f).kind = s.kind := by
  unfold pageDecreaseRef pageFree
  simp only [Function.update_self]
  split <;> simp

/-- **A mapping of frame `f` is removed.** -/
theorem VmInv.unmap (h : VmInv δ hand s) (hd : (p, d) ∈ pdeSlots) (ht : pdeAt s (p, d) = some t)
    (hi : i < PDENTRIES) (hf : pteAt s (p, d, i) = some f) :
    VmInv δ hand (setPte (pageDecreaseRef s f) t i Pte.zero) := by
  obtain ⟨href, halloc, hpgdir, htable, hnp, hpool⟩ := pageDecreaseRef_spec s f
  have hpos := refs_pos_of_pte (mem_pdeSlots.1 hd) hi hf
  -- the references are those after the write alone
  have hdirs : pdeAt (setPte (pageDecreaseRef s f) t i Pte.zero) = pdeAt s := pdeAt_congr hpgdir
  have htab : (setPte (pageDecreaseRef s f) t i Pte.zero).table = (setPte s t i Pte.zero).table := by
    simp only [setPte, htable]
  have hptes : pteAt (setPte (pageDecreaseRef s f) t i Pte.zero) = pteAt (setPte s t i Pte.zero) :=
    pteAt_congr hpgdir htab
  have hrefs : ∀ g, refs (setPte (pageDecreaseRef s f) t i Pte.zero) g + (if g = f then 1 else 0) =
      refs s g := by
    intro g
    have hset := h.refs_setPte hd ht hi Pte.zero g
    have heq : refs (setPte (pageDecreaseRef s f) t i Pte.zero) g = refs (setPte s t i Pte.zero) g := by
      refine refs_congr ?_ (fun _ _ => by rw [hptes]) (fun _ _ => by rw [hdirs]; rfl) g
      exact hpool
    rw [heq]
    rw [hf] at hset
    have hiff : (some f = some g) ↔ g = f := by
      rw [Option.some.injEq]
      exact eq_comm
    rw [if_congr hiff rfl rfl] at hset
    simpa [Pte.present, Pte.zero] using hset
  have hne : ∀ g, g ≠ f → refs (setPte (pageDecreaseRef s f) t i Pte.zero) g = refs s g := by
    intro g hg
    simpa [hg] using hrefs g
  have hself : refs (setPte (pageDecreaseRef s f) t i Pte.zero) f + 1 = refs s f := by
    simpa using hrefs f
  have hnew : s.pRef f - 1 = (refs (setPte (pageDecreaseRef s f) t i Pte.zero) f : BitVec 32) + δ f := by
    rw [h.count f, ← hself]
    push_cast
    ring
  have hδ : s.kind f = .pool → δ f = 0 := by
    intro hp
    by_contra hn
    have := h.off f hp hn
    omega
  have hzero : s.kind f = .pool → (s.pRef f - 1 = 0 ↔
      refs (setPte (pageDecreaseRef s f) t i Pte.zero) f = 0) := by
    intro hp
    rw [hnew, hδ hp, add_zero]
    exact cast_refs_eq_zero_iff _ f
  -- a frame that is still referenced stays allocated
  have hkeep : ∀ g, s.kind g = .pool → 0 < refs (setPte (pageDecreaseRef s f) t i Pte.zero) g →
      (pageDecreaseRef s f).allocated g = s.allocated g := by
    intro g hg hgpos
    rw [halloc]
    split
    · rename_i h0
      have hgf : g ≠ f := by
        rintro rfl
        have := (hzero hg).1 h0
        omega
      rw [Function.update_of_ne hgf]
    · rfl
  have hf' : f ∉ hand := fun hin => by
    have := (h.inHand f hin).2.2
    omega
  refine ⟨?_, ?_, ?_, ?_, ?_, ?_, ?_, ?_, h.nodup, ?_⟩
  · intro g hg
    simpa [setPte, hnp] using h.pool_lt g (by simpa [setPte, hpool] using hg)
  · simpa [setPte, hnp] using h.zero_lt
  · rw [hdirs]
    exact h.dirs
  · intro e he t' ht'
    rw [hdirs] at ht'
    obtain ⟨hp, ha⟩ := h.tables e he t' ht'
    have hpos' : 0 < refs (setPte (pageDecreaseRef s f) t i Pte.zero) t' :=
      refs_pos_of_pde (p := e.1) (d := e.2) he (by rw [hdirs]; exact ht')
    refine ⟨by simpa [setPte, hpool] using hp, ?_⟩
    exact (hkeep t' hp hpos').trans ha
  · intro e he t' ht' j hj
    rw [hdirs] at ht'
    rw [htab]
    simpa [setPte, hnp] using h.entries_setPte (t := t) (i := i) (.inl rfl) e he t' ht' j hj
  · intro g
    show (pageDecreaseRef s f).pRef g = _
    rw [href]
    by_cases hg : g = f
    · rw [hg, Function.update_self, hnew]
    · rw [Function.update_of_ne hg, h.count g, hne g hg]
  · intro g hg hh hδg
    have hg' : s.kind g = .pool := by simpa [setPte, hpool] using hg
    have hold := h.alloc g hg' hh hδg
    show (pageDecreaseRef s f).allocated g = true ↔ _
    by_cases hgf : g = f
    · subst hgf
      rw [halloc]
      constructor
      · intro ha
        by_contra hn
        have h0 := (hzero hg').2 (by omega)
        rw [if_pos h0, Function.update_self] at ha
        cases ha
      · intro hgpos
        rw [← halloc, hkeep g hg' hgpos]
        exact hold.2 hpos
    · rw [hne g hgf, ← hold, halloc]
      split
      · rw [Function.update_of_ne hgf]
      · exact Iff.rfl
  · intro g hg
    obtain ⟨hp, ha, h0⟩ := h.inHand g hg
    have hgf : g ≠ f := by
      rintro rfl
      exact hf' hg
    refine ⟨by simpa [setPte, hpool] using hp, ?_, (hne g hgf).trans h0⟩
    show (pageDecreaseRef s f).allocated g = true
    rw [halloc]
    split
    · rw [Function.update_of_ne hgf]
      exact ha
    · exact ha
  · intro g hg hδg
    have hg' : s.kind g = .pool := by simpa [setPte, hpool] using hg
    have h0 := h.off g hg' hδg
    have hgf : g ≠ f := by
      rintro rfl
      omega
    exact (hne g hgf).trans h0

/-- Only the counts and the allocated frames change. -/
theorem VmInv.recount {δ' : Nat → BitVec 32} {hand' : List Nat} (h : VmInv δ hand s)
    (hpgdir : s'.pgdir = s.pgdir) (htable : s'.table = s.table) (hnp : s'.npagesNum = s.npagesNum)
    (hpool : s'.kind = s.kind) (hcount : ∀ g, s'.pRef g = (refs s g : BitVec 32) + δ' g)
    (hkeep : ∀ g, s.kind g = .pool → 0 < refs s g → s'.allocated g = s.allocated g)
    (halloc : ∀ g, s.kind g = .pool → g ∉ hand' → δ' g = 0 → (s'.allocated g = true ↔ 0 < refs s g))
    (hhand : ∀ g ∈ hand', s.kind g = .pool ∧ s'.allocated g = true ∧ refs s g = 0)
    (hnodup : hand'.Nodup) (hoff : ∀ g, s.kind g = .pool → δ' g ≠ 0 → refs s g = 0) :
    VmInv δ' hand' s' := by
  have hdirs := pdeAt_congr hpgdir
  have hptes := pteAt_congr hpgdir htable
  have hrefs : ∀ g, refs s' g = refs s g := fun g => by
    exact refs_congr hpool (fun _ _ => by rw [hptes]) (fun _ _ => by rw [hdirs]) g
  refine ⟨?_, ?_, ?_, ?_, ?_, ?_, ?_, ?_, hnodup, ?_⟩
  · rw [hnp, hpool]
    exact h.pool_lt
  · rw [hnp]
    exact h.zero_lt
  · rw [hdirs]
    exact h.dirs
  · intro e he t ht
    rw [hdirs] at ht
    obtain ⟨hp, ha⟩ := h.tables e he t ht
    rw [hpool, hkeep t hp (refs_pos_of_pde (p := e.1) (d := e.2) he ht)]
    exact ⟨hp, ha⟩
  · rw [hdirs, htable, hnp]
    exact h.entries
  · intro g
    rw [hrefs]
    exact hcount g
  · intro g hg
    rw [hpool] at hg
    rw [hrefs]
    exact halloc g hg
  · intro g hg
    rw [hpool, hrefs]
    exact hhand g hg
  · intro g hg
    rw [hpool] at hg
    rw [hrefs]
    exact hoff g hg

/-- Page 0 is no page of the pool: a reference that is taken from it is only a wrong count. -/
theorem VmInv.decZero (h : VmInv δ hand s) :
    VmInv (Function.update δ 0 (δ 0 - 1)) hand (pageDecreaseRef s 0) := by
  obtain ⟨href, halloc, hpgdir, htable, hnp, hpool⟩ := pageDecreaseRef_spec s 0
  have hpos : ∀ g, s.kind g = .pool → g ≠ 0 := fun g hg => Nat.pos_iff_ne_zero.1 (h.pool_lt g hg).1
  have hsame : ∀ g, s.kind g = .pool → (pageDecreaseRef s 0).allocated g = s.allocated g := by
    intro g hg
    rw [halloc]
    split
    · rw [Function.update_of_ne (hpos g hg)]
    · rfl
  refine h.recount hpgdir htable hnp hpool ?_ (fun g hg _ => hsame g hg) ?_ ?_ h.nodup ?_
  · intro g
    rw [href]
    by_cases hg : g = 0
    · rw [hg, Function.update_self, Function.update_self, h.count 0]
      ring
    · rw [Function.update_of_ne hg, Function.update_of_ne hg]
      exact h.count g
  · intro g hg hh hδ
    rw [Function.update_of_ne (hpos g hg)] at hδ
    rw [hsame g hg]
    exact h.alloc g hg hh hδ
  · intro g hg
    obtain ⟨hp, ha, h0⟩ := h.inHand g hg
    rw [hsame g hp]
    exact ⟨hp, ha, h0⟩
  · intro g hg hδ
    rw [Function.update_of_ne (hpos g hg)] at hδ
    exact h.off g hg hδ

/-- A page without a reference goes to `page_decrease_ref`: its count wraps around, and it stays
    allocated. -/
theorem VmInv.leak (h : VmInv 0 (f :: hand) s) :
    VmInv (Function.update 0 f (-1)) hand (pageDecreaseRef s f) := by
  obtain ⟨href, halloc, hpgdir, htable, hnp, hpool⟩ := pageDecreaseRef_spec s f
  obtain ⟨_, _, hrf⟩ := h.inHand f List.mem_cons_self
  obtain ⟨_, hnd⟩ := List.nodup_cons.1 h.nodup
  have hcount : s.pRef f - 1 = -1 := by
    rw [h.count f, hrf]
    rfl
  have halloc' : (pageDecreaseRef s f).allocated = s.allocated := by
    rw [halloc, hcount, if_neg (by decide)]
  refine h.recount hpgdir htable hnp hpool ?_ (fun _ _ _ => by rw [halloc']) ?_ ?_ hnd ?_
  · intro g
    rw [href]
    by_cases hg : g = f
    · rw [hg, Function.update_self, Function.update_self, hcount, hrf]
      rfl
    · rw [Function.update_of_ne hg, Function.update_of_ne hg]
      exact h.count g
  · intro g hg hh hδ
    have hgf : g ≠ f := by
      rintro rfl
      rw [Function.update_self] at hδ
      exact absurd hδ (by decide)
    rw [halloc']
    exact h.alloc g hg (by simp [hgf, hh]) rfl
  · intro g hg
    rw [halloc']
    exact h.inHand g (List.mem_cons_of_mem _ hg)
  · intro g _ hδ
    have hgf : g = f := by
      by_contra hgf
      exact hδ (by rw [Function.update_of_ne hgf]; rfl)
    rw [hgf]
    exact hrf

/-- `page_alloc` fails, or hands out a page that is not in use, with its contents cleared. -/
theorem VmInv.pageAlloc (h : VmInv 0 hand s) :
    (∃ s', Paging.pageAlloc s = (none, s') ∧ VmInv 0 hand s' ∧ s'.pgdir = s.pgdir ∧
      s'.table = s.table) ∨
    ∃ f s', Paging.pageAlloc s = (some f, s') ∧ VmInv 0 (f :: hand) s' ∧ s'.pgdir = s.pgdir ∧
      (∀ i, s'.table f i = Pte.zero) ∧
      (∀ e ∈ pdeSlots, ∀ t, pdeAt s e = some t → s'.table t = s.table t) := by
  unfold Paging.pageAlloc
  split
  · exact .inl ⟨s, rfl, h, rfl, rfl⟩
  · exact .inl ⟨_, rfl, h.congr rfl rfl (fun _ _ => rfl) (fun _ _ _ _ => rfl) rfl rfl, rfl, rfl⟩
  · rename_i f rest _
    split
    · rename_i hfree
      obtain ⟨hpf, haf⟩ := hfree
      have hfh : f ∉ hand := fun hin => by
        rw [(h.inHand f hin).2.1] at haf
        cases haf
      have hrf : refs s f = 0 := by
        by_contra hn
        have := (h.alloc f hpf hfh rfl).2 (Nat.pos_of_ne_zero hn)
        rw [haf] at this
        cases this
      have hne : ∀ e ∈ pdeSlots, ∀ t, pdeAt s e = some t → t ≠ f := by
        rintro e he t ht rfl
        rw [(h.tables e he t ht).2] at haf
        cases haf
      refine .inr ⟨f, _, rfl, ?_, rfl, fun i => by simp, fun e he t ht => by simp [hne e he t ht]⟩
      generalize hs' : ({ s with
          supply := rest
          allocated := Function.update s.allocated f true
          pRef := Function.update s.pRef f 0
          table := Function.update s.table f fun _ => Pte.zero
          data := Function.update s.data f fun _ => 0 } : Vm) = s'
      have hdirs : pdeAt s' = pdeAt s := by
        rw [← hs']
        rfl
      have htable : ∀ e ∈ pdeSlots, ∀ t, pdeAt s e = some t → s'.table t = s.table t := by
        intro e he t ht
        rw [← hs']
        simp [hne e he t ht]
      have hptes : ∀ e ∈ pteSlots, pteAt s' e = pteAt s e := by
        rintro ⟨p, d, i⟩ he
        have hmem : (p, d) ∈ pdeSlots := mem_pdeSlots.2 (mem_pteSlots.1 he).1
        cases hd : pdeAt s (p, d) with
        | none => simp [pteAt, hdirs, hd]
        | some t => rw [pteAt_eq hd, pteAt_eq (by rw [hdirs]; exact hd), htable _ hmem t hd]
      have hpool : s'.kind = s.kind := by
        rw [← hs']
      have hrefs : ∀ g, refs s' g = refs s g :=
        refs_congr hpool hptes fun _ _ => by rw [hdirs]
      have hall : ∀ g, s'.allocated g = true ↔ g = f ∨ s.allocated g = true := by
        intro g
        rw [← hs']
        by_cases hg : g = f
        · simp [hg]
        · simp [hg]
      have hnp : s'.npagesNum = s.npagesNum := by
        rw [← hs']
      refine ⟨?_, ?_, ?_, ?_, ?_, ?_, ?_, ?_, List.nodup_cons.2 ⟨hfh, h.nodup⟩, ?_⟩
      · rw [hpool, hnp]
        exact h.pool_lt
      · rw [hnp]
        exact h.zero_lt
      · rw [hdirs]
        exact h.dirs
      · intro e he t ht
        rw [hdirs] at ht
        rw [hpool, hall]
        exact ⟨(h.tables e he t ht).1, .inr (h.tables e he t ht).2⟩
      · intro e he t ht i hi
        rw [hdirs] at ht
        rw [htable e he t ht, hnp]
        exact h.entries e he t ht i hi
      · intro g
        rw [hrefs, ← hs']
        by_cases hg : g = f
        · subst hg
          simp [hrf]
        · simpa [hg] using h.count g
      · intro g hg hh _
        have hgf : g ≠ f := fun he => hh (by simp [he])
        rw [hpool] at hg
        rw [hall, hrefs, ← h.alloc g hg (fun hin => hh (List.mem_cons_of_mem _ hin)) rfl]
        simp [hgf]
      · intro g hg
        rw [hpool, hall, hrefs]
        rcases List.mem_cons.1 hg with rfl | hg
        · exact ⟨hpf, .inl rfl, hrf⟩
        · obtain ⟨hp, ha, h0⟩ := h.inHand g hg
          exact ⟨hp, .inr ha, h0⟩
      · exact fun g _ hδ => absurd rfl hδ
    · exact .inl ⟨_, rfl, h.congr rfl rfl (fun _ _ => rfl) (fun _ _ _ _ => rfl) rfl rfl, rfl, rfl⟩

theorem present_or (perm : Nat) : (Pte.mk f (perm ||| PTE_P)).present = true := by
  have h : (perm ||| PTE_P) &&& PTE_P = PTE_P := by
    rw [Nat.and_comm, Nat.and_or_distrib_left]
    have hle : PTE_P &&& perm ≤ 1 := Nat.and_le_left
    have hone : PTE_P &&& PTE_P = 1 := rfl
    rw [hone]
    obtain h0 | h1 : PTE_P &&& perm = 0 ∨ PTE_P &&& perm = 1 := by omega
    · rw [h0]
      rfl
    · rw [h1]
      rfl
  simp only [Pte.present, h]
  rfl

theorem pdeAt_setPde_of_ne {e : Proc × Nat} (hne : e ≠ (p, d)) (x : Pte) :
    pdeAt (setPde s p d x) e = pdeAt s e := by
  obtain ⟨p', d'⟩ := e
  by_cases hp : p' = p
  · subst hp
    have hdd : d' ≠ d := fun he => hne (by rw [he])
    simp [pdeAt, setPde, hdd]
  · simp [pdeAt, setPde, hp]

theorem pageAlloc_same (s : Vm) {o : Option Nat} (h : Paging.pageAlloc s = (o, s')) :
    s'.npagesNum = s.npagesNum ∧ s'.kind = s.kind := by
  unfold Paging.pageAlloc at h
  split at h
  · obtain ⟨_, rfl⟩ := Prod.mk.inj h
    exact ⟨rfl, rfl⟩
  · obtain ⟨_, rfl⟩ := Prod.mk.inj h
    exact ⟨rfl, rfl⟩
  · split at h
    · obtain ⟨_, rfl⟩ := Prod.mk.inj h
      exact ⟨rfl, rfl⟩
    · obtain ⟨_, rfl⟩ := Prod.mk.inj h
      exact ⟨rfl, rfl⟩

/-- An empty page table is put into a page directory. -/
theorem VmInv.addTable (h : VmInv 0 (t :: hand) s) (hd : (p, d) ∈ pdeSlots)
    (hnone : pdeAt s (p, d) = none) (hzero : ∀ i, s.table t i = Pte.zero) :
    VmInv 0 hand (setPde (incRef s t) p d ⟨t, PTE_P⟩) ∧
      pdeAt (setPde (incRef s t) p d ⟨t, PTE_P⟩) (p, d) = some t ∧
      ∀ e ∈ pteSlots, pteAt (setPde (incRef s t) p d ⟨t, PTE_P⟩) e = pteAt s e := by
  obtain ⟨hpt, hat, hrt⟩ := h.inHand t List.mem_cons_self
  obtain ⟨hth, hnd⟩ := List.nodup_cons.1 h.nodup
  generalize hs' : setPde (incRef s t) p d ⟨t, PTE_P⟩ = s'
  have hself : pdeAt s' (p, d) = some t := by
    rw [← hs']
    simp [pdeAt, setPde, Pte.present, PTE_P]
  have hother : ∀ e, e ≠ (p, d) → pdeAt s' e = pdeAt s e := by
    intro e hne
    rw [← hs']
    exact pdeAt_setPde_of_ne hne _
  have htable : s'.table = s.table := by
    rw [← hs']
    rfl
  have hptes : ∀ e ∈ pteSlots, pteAt s' e = pteAt s e := by
    rintro ⟨p', d', i⟩ _
    by_cases hpd : (p', d') = (p, d)
    · -- the new table maps nothing, as the missing one did
      obtain ⟨rfl, rfl⟩ := Prod.mk.inj hpd
      rw [pteAt_eq hself, htable, hzero i]
      simp [pteAt, hnone, Pte.present, Pte.zero]
    · simp [pteAt, hother _ hpd, htable]
  have hrefs : ∀ g, refs s' g = refs s g + if g = t then 1 else 0 := by
    intro g
    have hupd := holders_update hd (fun e _ hne => hother e hne) g
    have hkind : s'.kind = s.kind := by
      rw [← hs']
      rfl
    rw [hnone, hself] at hupd
    have hiff : (some t = some g) ↔ g = t := by
      rw [Option.some.injEq]
      exact eq_comm
    rw [if_congr hiff rfl rfl] at hupd
    rw [refs, refs, holders_congr hptes, kernRef_congr hkind]
    simp only [reduceCtorEq, if_false] at hupd
    omega
  have hno : ∀ e ∈ pdeSlots, pdeAt s e ≠ some t := by
    intro e he ht
    have := refs_pos_of_pde (p := e.1) (d := e.2) he ht
    omega
  refine ⟨⟨?_, ?_, ?_, ?_, ?_, ?_, ?_, ?_, hnd, ?_⟩, hself, hptes⟩
  · rw [← hs']
    exact h.pool_lt
  · rw [← hs']
    exact h.zero_lt
  · intro e he e' he' t' ht ht'
    by_cases hpd : e = (p, d)
    · by_cases hpd' : e' = (p, d)
      · rw [hpd, hpd']
      · rw [hpd, hself] at ht
        rw [hother e' hpd', ← ht] at ht'
        exact absurd ht' (hno e' he')
    · rw [hother e hpd] at ht
      by_cases hpd' : e' = (p, d)
      · rw [hpd', hself] at ht'
        rw [← ht'] at ht
        exact absurd ht (hno e he)
      · rw [hother e' hpd'] at ht'
        exact h.dirs e he e' he' t' ht ht'
  · intro e he t' ht
    have hsame : s'.kind = s.kind ∧ s'.allocated = s.allocated := by
      rw [← hs']
      exact ⟨rfl, rfl⟩
    rw [hsame.1, hsame.2]
    by_cases hpd : e = (p, d)
    · rw [hpd, hself] at ht
      obtain rfl := Option.some.inj ht
      exact ⟨hpt, hat⟩
    · rw [hother e hpd] at ht
      exact h.tables e he t' ht
  · intro e he t' ht i hi
    have hnp : s'.npagesNum = s.npagesNum := by
      rw [← hs']
      rfl
    rw [htable, hnp]
    by_cases hpd : e = (p, d)
    · rw [hpd, hself] at ht
      obtain rfl := Option.some.inj ht
      exact .inl (hzero i)
    · rw [hother e hpd] at ht
      exact h.entries e he t' ht i hi
  · intro g
    rw [hrefs, ← hs']
    have hold := h.count g
    by_cases hg : g = t
    · subst hg
      simp only [setPde, incRef, Function.update_self, hold, if_true]
      push_cast
      ring
    · simpa [setPde, incRef, hg] using hold
  · intro g hg hh _
    have hsame : s'.kind = s.kind ∧ s'.allocated = s.allocated := by
      rw [← hs']
      exact ⟨rfl, rfl⟩
    rw [hsame.1] at hg
    rw [hsame.2, hrefs]
    by_cases hgt : g = t
    · subst hgt
      simp [hat]
    · rw [h.alloc g hg (by simp [hgt, hh]) rfl]
      simp [hgt]
  · intro g hg
    have hsame : s'.kind = s.kind ∧ s'.allocated = s.allocated := by
      rw [← hs']
      exact ⟨rfl, rfl⟩
    have hgt : g ≠ t := by
      rintro rfl
      exact hth hg
    rw [hsame.1, hsame.2, hrefs, if_neg hgt]
    exact h.inHand g (List.mem_cons_of_mem _ hg)
  · exact fun g _ hδ => absurd rfl hδ

/-- **A frame is mapped** at an entry that is not in use. -/
theorem VmInv.map (h : VmInv 0 hand s) (hd : (p, d) ∈ pdeSlots) (ht : pdeAt s (p, d) = some t)
    (hi : i < PDENTRIES) (hnone : pteAt s (p, d, i) = none) (hf : f < s.npagesNum)
    (huse : s.kind f = .pool → f ∈ hand ∨ 0 < refs s f) (perm : Nat) :
    VmInv 0 (hand.erase f) (incRef (setPte s t i ⟨f, perm ||| PTE_P⟩) f) := by
  have hrefs : ∀ g, refs (incRef (setPte s t i ⟨f, perm ||| PTE_P⟩) f) g =
      refs s g + if g = f then 1 else 0 := by
    intro g
    have hset := h.refs_setPte hd ht hi ⟨f, perm ||| PTE_P⟩ g
    have hiff : ((Pte.mk f (perm ||| PTE_P)).present = true ∧ f = g) ↔ g = f := by
      rw [present_or]
      simp [eq_comm]
    have heq : refs (incRef (setPte s t i ⟨f, perm ||| PTE_P⟩) f) g =
        refs (setPte s t i ⟨f, perm ||| PTE_P⟩) g := rfl
    rw [hnone, if_congr hiff rfl rfl] at hset
    rw [heq]
    simpa using hset
  have halloc : s.kind f = .pool → s.allocated f = true := by
    intro hp
    rcases huse hp with hin | hpos
    · exact (h.inHand f hin).2.1
    · by_cases hin : f ∈ hand
      · exact (h.inHand f hin).2.1
      · exact (h.alloc f hp hin rfl).2 hpos
  refine ⟨h.pool_lt, h.zero_lt, h.dirs, h.tables, ?_, ?_, ?_, ?_, h.nodup.erase f, ?_⟩
  · exact h.entries_setPte (.inr ⟨present_or perm, hf⟩)
  · intro g
    rw [hrefs]
    have hold := h.count g
    by_cases hg : g = f
    · subst hg
      simp only [setPte, incRef, Function.update_self, hold, if_true]
      push_cast
      ring
    · simpa [setPte, incRef, hg] using hold
  · intro g hg hh _
    rw [hrefs]
    by_cases hgf : g = f
    · subst hgf
      simp [halloc hg, incRef, setPte]
    · have hh' : g ∉ hand := fun hin => hh ((List.mem_erase_of_ne hgf).2 hin)
      rw [if_neg hgf, Nat.add_zero]
      exact h.alloc g hg hh' rfl
  · intro g hg
    have hgf : g ≠ f := by
      rintro rfl
      exact h.nodup.not_mem_erase hg
    rw [hrefs, if_neg hgf]
    exact h.inHand g (List.mem_of_mem_erase hg)
  · exact fun g _ hδ => absurd rfl hδ

/-- A mapped frame is mapped again, with other permissions. -/
theorem VmInv.remap (h : VmInv δ hand s) (hd : (p, d) ∈ pdeSlots) (ht : pdeAt s (p, d) = some t)
    (hi : i < PDENTRIES) (hmap : pteAt s (p, d, i) = some f) (hf : f < s.npagesNum) (perm : Nat) :
    VmInv δ hand (setPte s t i ⟨f, perm ||| PTE_P⟩) := by
  have hrefs : ∀ g, refs (setPte s t i ⟨f, perm ||| PTE_P⟩) g = refs s g := by
    intro g
    have hset := h.refs_setPte hd ht hi ⟨f, perm ||| PTE_P⟩ g
    rw [hmap, present_or] at hset
    simpa using hset
  refine ⟨h.pool_lt, h.zero_lt, h.dirs, h.tables, h.entries_setPte (.inr ⟨present_or perm, hf⟩), ?_, ?_,
    ?_, h.nodup, ?_⟩
  · intro g
    rw [hrefs]
    exact h.count g
  · intro g
    rw [hrefs]
    exact h.alloc g
  · intro g
    rw [hrefs]
    exact h.inHand g
  · intro g
    rw [hrefs]
    exact h.off g

/-- The permissions of a directory entry do not matter. -/
theorem pdeAt_orPde (s : Vm) (p : Proc) (va perm : Nat) (hp : (s.pgdir p (PDINDEX va)).present = true)
    (e : Proc × Nat) : pdeAt (orPde s p va perm) e = pdeAt s e := by
  obtain ⟨p', d'⟩ := e
  by_cases hpd : p' = p ∧ d' = PDINDEX va
  · obtain ⟨rfl, rfl⟩ := hpd
    have hpres : (Pte.mk (s.pgdir p' (PDINDEX va)).frame
        ((s.pgdir p' (PDINDEX va)).perm ||| perm)).present = true := by
      simp only [Pte.present, bne_iff_ne, ne_eq, Nat.and_or_distrib_right, Nat.or_eq_zero_iff] at hp ⊢
      exact fun h0 => hp h0.1
    simp [pdeAt, orPde, setPde, hp, hpres]
  · by_cases hpp : p' = p
    · subst hpp
      have hdd : d' ≠ PDINDEX va := fun he => hpd ⟨rfl, he⟩
      simp [pdeAt, orPde, setPde, hdd]
    · simp [pdeAt, orPde, setPde, hpp]

theorem VmInv.orPde (h : VmInv δ hand s) {va : Nat} (hp : (s.pgdir p (PDINDEX va)).present = true)
    (perm : Nat) : VmInv δ hand (Paging.orPde s p va perm) :=
  h.congr rfl rfl (fun e _ => pdeAt_orPde s p va perm hp e) (fun _ _ _ _ => rfl) rfl rfl

end Writes

end WeiOS.Paging
