import Mathlib
import WeiOS.Lib.Run
import WeiOS.Mm.PageTable
import WeiOS.Mm.PageRefs
import WeiOS.Mm.PageCalls

/-!
# Page Tables as a Map

The two levels of a page directory taken together are a map from pages to frames with permissions. This file
reads that map off the tables, and says what `page_insert` and `page_remove` do to it, with the permissions
that the directory entries add.

## Main results
- `MapInv`: the tables are apart, and no entry allows what its directory entry forbids.
- `MapInv.pageInsert`, `MapInv.pageRemove`: the two operations on the map.
- `PageMap.tables_map`: the same for every directory that the functions build.
-/

namespace WeiOS.Paging

open WeiOS.Lib

/-! ## §1 The map -/

/-- What a user page directory and its page table say about a slot, when both entries are present. -/
def trAt (s : Vm) (e : Proc × Nat × Nat) : Option Pte :=
  match pdeAt s (e.1, e.2.1) with
  | none => none
  | some t => if (s.table t e.2.2).present then some (s.table t e.2.2) else none

/-- The frame and the permission bits of an address. -/
def tr (s : Vm) (p : Proc) (va : Nat) : Option Pte := trAt s (p, PDINDEX va, PTINDEX va)

/-- The permission that the hardware grants: what both entries allow. -/
def effective (s : Vm) (p : Proc) (va : Nat) : Option Nat :=
  (tr s p va).map fun e => e.perm &&& (s.pgdir p (PDINDEX va)).perm

/-- The page tables of different directory entries are different, and every present entry names a frame
    below `npages_num` and allows no more than its directory entry. -/
structure MapInv (s : Vm) : Prop where
  dirs : ∀ e ∈ pdeSlots, ∀ e' ∈ pdeSlots, ∀ t, pdeAt s e = some t → pdeAt s e' = some t → e = e'
  frames : ∀ e ∈ pdeSlots, ∀ t, pdeAt s e = some t → ∀ i < PDENTRIES, (s.table t i).present = true →
    (s.table t i).frame < s.npagesNum
  perms : ∀ e ∈ pdeSlots, ∀ t, pdeAt s e = some t → ∀ i < PDENTRIES, (s.table t i).present = true →
    (s.table t i).perm &&& (s.pgdir e.1 e.2).perm = (s.table t i).perm

/-- `page_alloc` does not hand out a page table that is in use. -/
def Fresh (s : Vm) : Prop := ∀ t, (pageAlloc s).1 = some t → ∀ e ∈ pdeSlots, pdeAt s e ≠ some t

section Map

variable {s s' : Vm} {p : Proc} {va f t d i : Nat}

theorem trAt_eq (h : pdeAt s (p, d) = some t) :
    trAt s (p, d, i) = if (s.table t i).present then some (s.table t i) else none := by
  simp [trAt, h]

theorem trAt_eq_none (h : pdeAt s (p, d) = none) : trAt s (p, d, i) = none := by
  simp [trAt, h]

theorem trAt_congr (hdirs : pdeAt s' = pdeAt s) (htable : s'.table = s.table) : trAt s' = trAt s := by
  funext e
  simp only [trAt, hdirs, htable]

/-- The map and the mapped frames tell the same. -/
theorem pteAt_eq_map (s : Vm) (e : Proc × Nat × Nat) : pteAt s e = (trAt s e).map Pte.frame := by
  unfold pteAt trAt
  cases pdeAt s (e.1, e.2.1) with
  | none => rfl
  | some t =>
    dsimp only
    split <;> rfl

/-- The invariant reads page directories, page tables and the number of pages. -/
theorem MapInv.congr (h : MapInv s) (hpgdir : s'.pgdir = s.pgdir) (htable : s'.table = s.table)
    (hnp : s'.npagesNum = s.npagesNum) : MapInv s' := by
  have hdirs := pdeAt_congr hpgdir
  refine ⟨?_, ?_, ?_⟩
  · rw [hdirs]
    exact h.dirs
  · rw [hdirs, htable, hnp]
    exact h.frames
  · rw [hdirs, htable, hpgdir]
    exact h.perms

/-- An entry allows what its directory entry allows too, so the directory takes nothing away. -/
theorem MapInv.effective_eq (h : MapInv s) (hva : va < UTOP) : effective s p va = (tr s p va).map Pte.perm := by
  unfold effective tr
  cases ht : pdeAt s (p, PDINDEX va) with
  | none => rw [trAt_eq_none ht, Option.map_none, Option.map_none]
  | some t =>
    rw [trAt_eq ht]
    split
    · next hp =>
      have hperm := h.perms _ (mem_pdeSlots_of_lt p hva) t ht _ (PTINDEX_lt va) hp
      rw [Option.map_some, Option.map_some, hperm]
    · rfl

/-! ## §2 Writes -/

/-- More bits in a directory entry forbid nothing. -/
theorem and_or_of_and {a b : Nat} (h : a &&& b = a) (c : Nat) : a &&& (b ||| c) = a := by
  rw [Nat.and_or_distrib_left, h]
  exact Nat.eq_of_testBit_eq fun n => by simp +contextual

theorem MapInv.orPde (h : MapInv s) (hp : (s.pgdir p (PDINDEX va)).present = true) (perm : Nat) :
    MapInv (Paging.orPde s p va perm) := by
  have hdirs : pdeAt (Paging.orPde s p va perm) = pdeAt s := funext (pdeAt_orPde s p va perm hp)
  refine ⟨?_, ?_, ?_⟩
  · rw [hdirs]
    exact h.dirs
  · rw [hdirs]
    exact h.frames
  · rw [hdirs]
    intro e he t ht i hi hpres
    have hold := h.perms e he t ht i hi hpres
    show _ &&& (Function.update s.pgdir p _ e.1 e.2).perm = _
    by_cases hep : e.1 = p
    · rw [hep] at hold ⊢
      rw [Function.update_self]
      by_cases hed : e.2 = PDINDEX va
      · rw [hed] at hold ⊢
        rw [Function.update_self]
        exact and_or_of_and hold perm
      · rw [Function.update_of_ne hed]
        exact hold
    · rw [Function.update_of_ne hep]
      exact hold

/-- A write to one entry of a page table. -/
theorem MapInv.setPte (h : MapInv s) (hd : (p, d) ∈ pdeSlots) (ht : pdeAt s (p, d) = some t) {x : Pte}
    (hx : x.present = true → x.frame < s.npagesNum ∧ x.perm &&& (s.pgdir p d).perm = x.perm) :
    MapInv (Paging.setPte s t i x) := by
  have hdirs : pdeAt (Paging.setPte s t i x) = pdeAt s := rfl
  refine ⟨h.dirs, fun e he t' ht' j hj => ?_, fun e he t' ht' j hj => ?_⟩
  all_goals
    rw [hdirs] at ht'
    show ((Function.update s.table t _ t') j).present = true → _
    by_cases htt : t' = t
  · subst htt
    simp only [Paging.setPte, Function.update_self]
    by_cases hji : j = i
    · subst hji
      simp only [Function.update_self]
      exact fun hp => (hx hp).1
    · simp only [Function.update_of_ne hji]
      exact h.frames e he t' ht' j hj
  · simp only [Paging.setPte, Function.update_of_ne htt]
    exact h.frames e he t' ht' j hj
  · subst htt
    obtain rfl := h.dirs _ hd e he t' ht ht'
    simp only [Paging.setPte, Function.update_self]
    by_cases hji : j = i
    · subst hji
      simp only [Function.update_self]
      exact fun hp => (hx hp).2
    · simp only [Function.update_of_ne hji]
      exact h.perms _ he t' ht' j hj
  · simp only [Paging.setPte, Function.update_of_ne htt]
    exact h.perms e he t' ht' j hj

/-- The map after a write to one entry: only its slot changes, as page tables are apart. -/
theorem MapInv.trAt_setPte (h : MapInv s) (hd : (p, d) ∈ pdeSlots) (ht : pdeAt s (p, d) = some t) (x : Pte) :
    trAt (Paging.setPte s t i x) (p, d, i) = (if x.present then some x else none) ∧
      ∀ e ∈ pteSlots, e ≠ (p, d, i) → trAt (Paging.setPte s t i x) e = trAt s e := by
  have hdirs : pdeAt (Paging.setPte s t i x) = pdeAt s := rfl
  constructor
  · rw [trAt_eq (show pdeAt (Paging.setPte s t i x) (p, d) = some t from ht)]
    simp [Paging.setPte]
  · rintro ⟨p', d', i'⟩ he hne
    have hd' : (p', d') ∈ pdeSlots := mem_pdeSlots.2 (mem_pteSlots.1 he).1
    cases ht' : pdeAt s (p', d') with
    | none => rw [trAt_eq_none ht', trAt_eq_none (show pdeAt (Paging.setPte s t i x) (p', d') = none from ht')]
    | some t' =>
      rw [trAt_eq ht', trAt_eq (show pdeAt (Paging.setPte s t i x) (p', d') = some t' from ht')]
      by_cases htt : t' = t
      · subst htt
        obtain ⟨rfl, rfl⟩ := Prod.mk.inj (h.dirs _ hd _ hd' t' ht ht')
        have hi : i' ≠ i := by
          rintro rfl
          exact hne rfl
        simp [Paging.setPte, hi]
      · simp [Paging.setPte, htt]

/-- What `page_alloc` leaves alone. -/
theorem pageAlloc_frame (s : Vm) :
    (pageAlloc s).2.pgdir = s.pgdir ∧ (pageAlloc s).2.npagesNum = s.npagesNum ∧
      (∀ t, (pageAlloc s).1 ≠ some t → (pageAlloc s).2.table t = s.table t) ∧
      ∀ t, (pageAlloc s).1 = some t → ∀ i, (pageAlloc s).2.table t i = Pte.zero := by
  unfold pageAlloc
  split
  · exact ⟨rfl, rfl, fun _ _ => rfl, fun t ht => by cases ht⟩
  · exact ⟨rfl, rfl, fun _ _ => rfl, fun t ht => by cases ht⟩
  · next f rest _ =>
    split
    · refine ⟨rfl, rfl, fun t ht => ?_, fun t ht i => ?_⟩
      · have htf : t ≠ f := fun he => ht (by rw [he])
        exact Function.update_of_ne htf ..
      · obtain rfl := Option.some.inj ht
        show Function.update s.table f _ f i = _
        rw [Function.update_self]
    · exact ⟨rfl, rfl, fun _ _ => rfl, fun t ht => by cases ht⟩

/-- A page table that was handed out now is nobody's, and the others are as they were. -/
theorem MapInv.pageAlloc (h : MapInv s) (hfresh : Fresh s) :
    MapInv (Paging.pageAlloc s).2 ∧ ∀ e ∈ pteSlots, trAt (Paging.pageAlloc s).2 e = trAt s e := by
  obtain ⟨hpgdir, hnp, htable, _⟩ := pageAlloc_frame s
  have hdirs := pdeAt_congr hpgdir
  have hsame : ∀ e ∈ pdeSlots, ∀ t, pdeAt s e = some t → (Paging.pageAlloc s).2.table t = s.table t :=
    fun e he t ht => htable t fun hout => hfresh t hout e he ht
  refine ⟨⟨?_, ?_, ?_⟩, ?_⟩
  · rw [hdirs]
    exact h.dirs
  · rw [hdirs, hnp]
    intro e he t ht
    rw [hsame e he t ht]
    exact h.frames e he t ht
  · rw [hdirs, hpgdir]
    intro e he t ht
    rw [hsame e he t ht]
    exact h.perms e he t ht
  · rintro ⟨p, d, i⟩ he
    have hmem : (p, d) ∈ pdeSlots := mem_pdeSlots.2 (mem_pteSlots.1 he).1
    cases ht : pdeAt s (p, d) with
    | none => rw [trAt_eq_none ht, trAt_eq_none (by rw [hdirs]; exact ht)]
    | some t => rw [trAt_eq ht, trAt_eq (by rw [hdirs]; exact ht), hsame _ hmem t ht]

/-- An empty page table is put into a page directory. -/
theorem MapInv.addTable (h : MapInv s) (hnone : pdeAt s (p, d) = none)
    (hnew : ∀ e ∈ pdeSlots, pdeAt s e ≠ some t) (hzero : ∀ i, s.table t i = Pte.zero) :
    MapInv (setPde s p d ⟨t, PTE_P⟩) ∧ pdeAt (setPde s p d ⟨t, PTE_P⟩) (p, d) = some t ∧
      ∀ e ∈ pteSlots, trAt (setPde s p d ⟨t, PTE_P⟩) e = trAt s e := by
  have hself : pdeAt (setPde s p d ⟨t, PTE_P⟩) (p, d) = some t := by
    simp [pdeAt, setPde, Pte.present, PTE_P]
  have hother : ∀ e, e ≠ (p, d) → pdeAt (setPde s p d ⟨t, PTE_P⟩) e = pdeAt s e :=
    fun e hne => pdeAt_setPde_of_ne hne _
  have hempty : ∀ i, (s.table t i).present ≠ true := fun i => by
    rw [hzero i]
    decide
  refine ⟨⟨?_, ?_, ?_⟩, hself, ?_⟩
  · intro e he e' he' u hu hu'
    by_cases hed : e = (p, d)
    · by_cases hed' : e' = (p, d)
      · rw [hed, hed']
      · rw [hed, hself] at hu
        rw [hother e' hed', ← hu] at hu'
        exact absurd hu' (hnew e' he')
    · rw [hother e hed] at hu
      by_cases hed' : e' = (p, d)
      · rw [hed', hself] at hu'
        rw [← hu'] at hu
        exact absurd hu (hnew e he)
      · rw [hother e' hed'] at hu'
        exact h.dirs e he e' he' u hu hu'
  · intro e he u hu i hi hp
    by_cases hed : e = (p, d)
    · rw [hed, hself] at hu
      obtain rfl := Option.some.inj hu
      exact absurd hp (hempty i)
    · rw [hother e hed] at hu
      exact h.frames e he u hu i hi hp
  · intro e he u hu i hi hp
    by_cases hed : e = (p, d)
    · rw [hed, hself] at hu
      obtain rfl := Option.some.inj hu
      exact absurd hp (hempty i)
    · rw [hother e hed] at hu
      have hpde : (setPde s p d ⟨t, PTE_P⟩).pgdir e.1 e.2 = s.pgdir e.1 e.2 := by
        show Function.update s.pgdir p _ e.1 e.2 = _
        by_cases hep : e.1 = p
        · have hne : e.2 ≠ d := fun hd' => hed (Prod.ext hep hd')
          rw [hep, Function.update_self, Function.update_of_ne hne]
        · rw [Function.update_of_ne hep]
      rw [hpde]
      exact h.perms e he u hu i hi hp
  · rintro ⟨p', d', i⟩ _
    by_cases hed : (p', d') = (p, d)
    · rw [hed.symm] at hself hnone
      rw [trAt_eq hself, trAt_eq_none hnone]
      exact if_neg (hempty i)
    · cases hu : pdeAt s (p', d') with
      | none => rw [trAt_eq_none hu, trAt_eq_none ((hother _ hed).trans hu)]
      | some u =>
        rw [trAt_eq hu, trAt_eq ((hother _ hed).trans hu)]
        rfl

/-! ## §3 The functions of `pmap.c` -/

/-- **`pgdir_walk`** with `create`: the map stays as it is, also when a page table is added. -/
theorem MapInv.pgdirWalk (h : MapInv s) (hfresh : Fresh s) (hva : va < UTOP) :
    ∃ o s', Paging.pgdirWalk s p va true = (o, s') ∧ MapInv s' ∧ s'.npagesNum = s.npagesNum ∧
      (∀ e ∈ pteSlots, trAt s' e = trAt s e) ∧ ∀ t ∈ o, pdeAt s' (p, PDINDEX va) = some t := by
  have hd := mem_pdeSlots_of_lt p hva
  unfold Paging.pgdirWalk
  dsimp only
  split
  · next hp =>
    refine ⟨_, s, rfl, h, rfl, fun _ _ => rfl, fun t ht => ?_⟩
    obtain rfl := Option.some.inj ht
    exact pdeAt_eq_some.2 ⟨hp, rfl⟩
  · next hp =>
    rw [if_neg (by decide)]
    obtain ⟨hinv, htr⟩ := h.pageAlloc hfresh
    obtain ⟨hpgdir, hnp, _, hzero⟩ := pageAlloc_frame s
    have hdirs := pdeAt_congr hpgdir
    cases halloc : Paging.pageAlloc s with
    | mk o s₁ =>
      rw [halloc] at hinv htr hpgdir hnp hzero hdirs
      cases o with
      | none => exact ⟨none, s₁, rfl, hinv, hnp, htr, fun t ht => by cases ht⟩
      | some t =>
        have hinv' : MapInv (incRef s₁ t) := hinv.congr rfl rfl rfl
        have hnone : pdeAt (incRef s₁ t) (p, PDINDEX va) = none := by
          show pdeAt s₁ _ = none
          rw [hdirs]
          exact if_neg hp
        have hnew : ∀ e ∈ pdeSlots, pdeAt (incRef s₁ t) e ≠ some t := by
          intro e he
          show pdeAt s₁ e ≠ some t
          rw [hdirs]
          exact hfresh t (by rw [halloc]) e he
        obtain ⟨hadd, hself, htr'⟩ := hinv'.addTable hnone hnew (hzero t rfl)
        refine ⟨some t, _, rfl, hadd, hnp, fun e he => (htr' e he).trans (htr e he), fun u hu => ?_⟩
        obtain rfl := Option.some.inj hu
        exact hself

/-- `page_lookup` finds the frame of an address that is mapped. -/
theorem MapInv.pageLookup (h : MapInv s) (hva : va < UTOP) {e : Pte} (he : tr s p va = some e) :
    (Paging.pageLookup s p va).map Prod.fst = some e.frame := by
  unfold Paging.pageLookup
  rw [pgdirWalk_false]
  unfold tr at he
  cases ht : pdeAt s (p, PDINDEX va) with
  | none =>
    rw [trAt_eq_none ht] at he
    cases he
  | some t =>
    rw [trAt_eq ht] at he
    split at he
    · next hp =>
      obtain rfl := Option.some.inj he
      have hlt := h.frames _ (mem_pdeSlots_of_lt p hva) t ht _ (PTINDEX_lt va) hp
      dsimp only
      rw [if_neg (Nat.not_le.2 hlt), Option.map_some]
    · cases he

/-- **`page_remove`**: the address is not mapped any more, and every other slot keeps its entry. -/
theorem MapInv.pageRemove (h : MapInv s) (hva : va < UTOP) :
    MapInv (Paging.pageRemove s p va) ∧ (Paging.pageRemove s p va).pgdir = s.pgdir ∧
      (Paging.pageRemove s p va).npagesNum = s.npagesNum ∧ tr (Paging.pageRemove s p va) p va = none ∧
      ∀ e ∈ pteSlots, e ≠ (p, PDINDEX va, PTINDEX va) → trAt (Paging.pageRemove s p va) e = trAt s e := by
  have hd := mem_pdeSlots_of_lt p hva
  cases hlook : Paging.pageLookup s p va with
  | none =>
    -- nothing is mapped, as a present entry names a page
    have hnone : tr s p va = none := by
      cases he : tr s p va with
      | none => rfl
      | some e =>
        have hsome := h.pageLookup hva he
        rw [hlook] at hsome
        cases hsome
    have hsame : Paging.pageRemove s p va = s := by
      unfold Paging.pageRemove
      rw [hlook]
    rw [hsame]
    exact ⟨h, rfl, rfl, hnone, fun _ _ _ => rfl⟩
  | some x =>
    obtain ⟨f, t⟩ := x
    have ht : pdeAt s (p, PDINDEX va) = some t := by
      unfold Paging.pageLookup at hlook
      rw [pgdirWalk_false] at hlook
      cases ht : pdeAt s (p, PDINDEX va) with
      | none =>
        rw [ht] at hlook
        cases hlook
      | some u =>
        rw [ht] at hlook
        dsimp only at hlook
        split at hlook
        · cases hlook
        · cases hlook
          rfl
    have heq : Paging.pageRemove s p va = Paging.setPte (pageDecreaseRef s f) t (PTINDEX va) Pte.zero := by
      unfold Paging.pageRemove
      rw [hlook]
    obtain ⟨_, _, hpgdir, htable, hnp, _⟩ := pageDecreaseRef_spec s f
    have hdec : MapInv (pageDecreaseRef s f) := h.congr hpgdir htable hnp
    have hdirs := pdeAt_congr hpgdir
    have ht' : pdeAt (pageDecreaseRef s f) (p, PDINDEX va) = some t := by
      rw [hdirs]
      exact ht
    have hzero : ¬ Pte.zero.present = true := by decide
    obtain ⟨hself, hother⟩ := hdec.trAt_setPte (i := PTINDEX va) hd ht' Pte.zero
    rw [heq]
    refine ⟨hdec.setPte hd ht' fun hp => absurd hp hzero, hpgdir, hnp, hself, fun e he hne => ?_⟩
    rw [hother e he hne, trAt_congr hdirs htable]

/-- The last writes of `page_insert`: the entry, and the bits of its directory entry. -/
theorem MapInv.write (h : MapInv s) (hva : va < UTOP) (ht : pdeAt s (p, PDINDEX va) = some t)
    (hf : f < s.npagesNum) (perm : Nat) :
    let s' := Paging.orPde (Paging.setPte s t (PTINDEX va) ⟨f, perm ||| PTE_P⟩) p va perm
    MapInv s' ∧ tr s' p va = some ⟨f, perm ||| PTE_P⟩ ∧ perm &&& (s'.pgdir p (PDINDEX va)).perm = perm ∧
      ∀ e ∈ pteSlots, e ≠ (p, PDINDEX va, PTINDEX va) → trAt s' e = trAt s e := by
  intro s'
  have hd := mem_pdeSlots_of_lt p hva
  obtain ⟨hpres, _⟩ := pdeAt_eq_some.1 ht
  -- the two writes are to different places, so the directory can be taken first
  have hs' : s' = Paging.setPte (Paging.orPde s p va perm) t (PTINDEX va) ⟨f, perm ||| PTE_P⟩ := rfl
  have hor := h.orPde hpres perm
  have hdirs : pdeAt (Paging.orPde s p va perm) = pdeAt s := funext (pdeAt_orPde s p va perm hpres)
  have ht' : pdeAt (Paging.orPde s p va perm) (p, PDINDEX va) = some t := by
    rw [hdirs]
    exact ht
  have hpde : (s'.pgdir p (PDINDEX va)).perm = (s.pgdir p (PDINDEX va)).perm ||| perm := by
    show (Function.update s.pgdir p _ p (PDINDEX va)).perm = _
    rw [Function.update_self, Function.update_self]
    rfl
  have hbits : perm &&& (s'.pgdir p (PDINDEX va)).perm = perm := by
    rw [hpde, Nat.or_comm]
    exact and_or_of_and (Nat.and_self perm) _
  have hbit : PTE_P &&& (s'.pgdir p (PDINDEX va)).perm = PTE_P := by
    rw [hpde]
    apply and_or_of_and
    have hone : PTE_P &&& (s.pgdir p (PDINDEX va)).perm ≠ 0 := by
      rw [Nat.and_comm]
      simpa [Pte.present] using hpres
    have hle : PTE_P &&& (s.pgdir p (PDINDEX va)).perm ≤ PTE_P := Nat.and_le_left
    unfold PTE_P at *
    omega
  obtain ⟨hself, hother⟩ := hor.trAt_setPte (i := PTINDEX va) hd ht' ⟨f, perm ||| PTE_P⟩
  rw [if_pos (present_or perm)] at hself
  refine ⟨?_, hself, hbits, fun e he hne => ?_⟩
  · apply hor.setPte hd ht'
    intro _
    refine ⟨hf, ?_⟩
    show (perm ||| PTE_P) &&& (s'.pgdir p (PDINDEX va)).perm = perm ||| PTE_P
    rw [Nat.and_or_distrib_right, hbits, hbit]
  · rw [hs', hother e he hne, trAt_congr hdirs rfl]

/-- **`page_insert`**: it maps the page, or it fails and the map stays as it is. -/
theorem MapInv.pageInsert (h : MapInv s) (hfresh : Fresh s) (hva : va < UTOP) (hf : f < s.npagesNum)
    (perm : Nat) :
    ∃ b s', Paging.pageInsert s p f va perm = (b, s') ∧ MapInv s' ∧ s'.npagesNum = s.npagesNum ∧
      (b = false → ∀ e ∈ pteSlots, trAt s' e = trAt s e) ∧
      (b = true → tr s' p va = some ⟨f, perm ||| PTE_P⟩ ∧
        perm &&& (s'.pgdir p (PDINDEX va)).perm = perm ∧
        ∀ e ∈ pteSlots, e ≠ (p, PDINDEX va, PTINDEX va) → trAt s' e = trAt s e) := by
  obtain ⟨o, s₁, hwalk, h₁, hnp₁, htr₁, htab⟩ := h.pgdirWalk (p := p) hfresh hva
  unfold Paging.pageInsert
  rw [hwalk]
  cases o with
  | none => exact ⟨false, s₁, rfl, h₁, hnp₁, fun _ => htr₁, fun hc => by cases hc⟩
  | some t =>
    have ht : pdeAt s₁ (p, PDINDEX va) = some t := htab t rfl
    dsimp only
    split
    · obtain ⟨hinv, hself, hbits, hother⟩ := h₁.write hva ht (hnp₁ ▸ hf) perm
      refine ⟨true, _, rfl, hinv, hnp₁, (fun hc => by cases hc), fun _ => ⟨hself, hbits, fun e he hne => ?_⟩⟩
      exact (hother e he hne).trans (htr₁ e he)
    · -- a mapping of another page is removed first
      generalize hs₂ : (if (s₁.table t (PTINDEX va)).present = true then Paging.pageRemove s₁ p va else s₁) = s₂
      have hclear : MapInv s₂ ∧ s₂.pgdir = s₁.pgdir ∧ s₂.npagesNum = s₁.npagesNum ∧
          ∀ e ∈ pteSlots, e ≠ (p, PDINDEX va, PTINDEX va) → trAt s₂ e = trAt s₁ e := by
        rw [← hs₂]
        split
        · obtain ⟨hinv, hpgdir, hnp, _, hother⟩ := h₁.pageRemove (p := p) hva
          exact ⟨hinv, hpgdir, hnp, hother⟩
        · exact ⟨h₁, rfl, rfl, fun _ _ _ => rfl⟩
      obtain ⟨h₂, hpgdir₂, hnp₂, hother₂⟩ := hclear
      have ht₂ : pdeAt s₂ (p, PDINDEX va) = some t := by
        rw [pdeAt_congr hpgdir₂]
        exact ht
      have hf₂ : f < s₂.npagesNum := by
        rw [hnp₂, hnp₁]
        exact hf
      obtain ⟨hinv, hself, hbits, hother⟩ := h₂.write hva ht₂ hf₂ perm
      refine ⟨true, _, rfl, hinv.congr rfl rfl rfl, ?_, (fun hc => by cases hc),
        fun _ => ⟨hself, hbits, fun e he hne => ?_⟩⟩
      · exact hnp₂.trans hnp₁
      · exact (hother e he hne).trans ((hother₂ e he hne).trans (htr₁ e he))

end Map

/-! ## §4 Directories that the functions build -/

namespace PageMap

/-- The functions that write user page tables, on any page directory. -/
inductive Op where
  | pgdirWalk (p : Proc) (va : Nat) (create : Bool)
  | pageInsert (p : Proc) (f va perm : Nat)
  | pageRemove (p : Proc) (va : Nat)

def next (s : Vm) : Op → Vm
  | .pgdirWalk p va create => (pgdirWalk s p va create).2
  | .pageInsert p f va perm => (pageInsert s p f va perm).2
  | .pageRemove p va => pageRemove s p va

def step (s : Vm) (o : Op) : Except Unit Vm := .ok (next s o)

/-- A page-aligned user address. -/
def UserPage (va : Nat) : Prop := va < UTOP ∧ PGSIZE ∣ va

/-- The arguments the functions are called with, and an allocator that hands out fresh frames. -/
def Proper (s : Vm) (o : Op) : Prop :=
  Fresh s ∧
    match o with
    | .pgdirWalk _ va _ => UserPage va
    | .pageInsert _ f va perm => UserPage va ∧ f < s.npagesNum ∧ perm &&& PTE_SYSCALL = perm
    | .pageRemove _ va => UserPage va

/-- The maps agree on a page, and so do the permissions that the hardware grants there. -/
def SameAt (s s' : Vm) (q : Proc) (v : Nat) : Prop := tr s' q v = tr s q v ∧ effective s' q v = effective s q v

/-- The maps agree on every page but one, in every page directory. -/
def SameBut (s s' : Vm) (p : Proc) (va : Nat) : Prop :=
  ∀ q v, UserPage v → (q, v) ≠ (p, va) → SameAt s s' q v

/-- **What the functions do to the map**, and that `page_lookup` reads it. -/
def MapOk (s : Vm) (o : Op) (s' : Vm) : Prop :=
  (match o with
    | .pgdirWalk _ _ _ => ∀ q v, UserPage v → SameAt s s' q v
    | .pageInsert p f va perm =>
      if (pageInsert s p f va perm).1 then
        tr s' p va = some ⟨f, perm ||| PTE_P⟩ ∧ perm &&& (s'.pgdir p (PDINDEX va)).perm = perm ∧
          SameBut s s' p va
      else ∀ q v, UserPage v → SameAt s s' q v
    | .pageRemove p va => tr s' p va = none ∧ SameBut s s' p va) ∧
  ∀ q v e, UserPage v → tr s' q v = some e → (pageLookup s' q v).map Prod.fst = some e.frame

variable {s s' : Vm} {p : Proc} {va : Nat}

theorem mem_pteSlots_of_lt (q : Proc) {v : Nat} (hv : v < UTOP) : (q, PDINDEX v, PTINDEX v) ∈ pteSlots :=
  mem_pteSlots.2 ⟨PDINDEX_lt hv, PTINDEX_lt v⟩

/-- Slots that keep their entries keep what the hardware grants. -/
theorem sameAt_of_trAt (h : MapInv s) (h' : MapInv s') {q : Proc} {v : Nat} (hv : v < UTOP)
    (heq : trAt s' (q, PDINDEX v, PTINDEX v) = trAt s (q, PDINDEX v, PTINDEX v)) : SameAt s s' q v := by
  have htr : tr s' q v = tr s q v := heq
  refine ⟨htr, ?_⟩
  rw [h'.effective_eq hv, h.effective_eq hv, htr]

theorem sameAt_of_all (h : MapInv s) (h' : MapInv s') (hall : ∀ e ∈ pteSlots, trAt s' e = trAt s e) :
    ∀ q v, UserPage v → SameAt s s' q v :=
  fun q _ hv => sameAt_of_trAt h h' hv.1 (hall _ (mem_pteSlots_of_lt q hv.1))

theorem sameBut_of_other (h : MapInv s) (h' : MapInv s') (hva : UserPage va)
    (hother : ∀ e ∈ pteSlots, e ≠ (p, PDINDEX va, PTINDEX va) → trAt s' e = trAt s e) :
    SameBut s s' p va := by
  intro q v hv hne
  apply sameAt_of_trAt h h' hv.1
  apply hother _ (mem_pteSlots_of_lt q hv.1)
  intro heq
  obtain ⟨hq, hslot⟩ := Prod.mk.inj heq
  -- different pages have different slots
  have hvne : v ≠ va := fun hc => hne (by rw [hq, hc])
  exact slot_ne hv.2 hva.2 hv.1 hva.1 hvne p (by rw [hslot])

/-- **Step lemma**: each function does its part of the map, and keeps the tables in order. -/
theorem step_map (h : MapInv s) {o : Op} (ho : Proper s o) : MapOk s o (next s o) ∧ MapInv (next s o) := by
  have hread : ∀ {t : Vm}, MapInv t → ∀ q v e, UserPage v → tr t q v = some e →
      (pageLookup t q v).map Prod.fst = some e.frame := fun ht q v e hv he => ht.pageLookup hv.1 he
  obtain ⟨hfresh, harg⟩ := ho
  cases o with
  | pgdirWalk p va create =>
    cases create with
    | true =>
      obtain ⟨o, s', hwalk, h', _, htr, _⟩ := h.pgdirWalk (p := p) hfresh harg.1
      have hnext : next s (.pgdirWalk p va true) = s' := by
        simp only [next, hwalk]
      rw [hnext]
      exact ⟨⟨sameAt_of_all h h' htr, hread h'⟩, h'⟩
    | false =>
      have hnext : next s (.pgdirWalk p va false) = s := by
        simp only [next, pgdirWalk_false]
      rw [hnext]
      exact ⟨⟨fun _ _ _ => ⟨rfl, rfl⟩, hread h⟩, h⟩
  | pageInsert p f va perm =>
    obtain ⟨hva, hf, _⟩ := harg
    obtain ⟨b, s', hins, h', _, hfail, hok⟩ := h.pageInsert (p := p) hfresh hva.1 hf perm
    have hnext : next s (.pageInsert p f va perm) = s' := by
      simp only [next, hins]
    rw [hnext]
    refine ⟨⟨?_, hread h'⟩, h'⟩
    dsimp only
    rw [hins]
    cases b with
    | true =>
      obtain ⟨hself, hbits, hother⟩ := hok rfl
      exact ⟨hself, hbits, sameBut_of_other h h' hva hother⟩
    | false => exact sameAt_of_all h h' (hfail rfl)
  | pageRemove p va =>
    obtain ⟨h', _, _, hnone, hother⟩ := h.pageRemove (p := p) harg.1
    exact ⟨⟨⟨hnone, sameBut_of_other h h' harg hother⟩, hread h'⟩, h'⟩

/-- **Page tables implement a map**: from empty page directories on, in every run of the functions with an
    allocator that hands out fresh frames or fails, each call does to the map what it is for. -/
theorem tables_map {s : Vm} (hempty : ∀ e ∈ pdeSlots, pdeAt s e = none) {os : List Op}
    (hrun : Meets step Proper s os) : Along step MapOk s os := by
  have hinit : MapInv s := by
    refine ⟨?_, ?_, ?_⟩
    all_goals
      intro e he
      rw [hempty e he]
      intros
      contradiction
  apply along_of_meets MapInv _ hinit hrun
  intro s o h ho
  obtain ⟨hok, h'⟩ := step_map h ho
  exact ⟨next s o, rfl, hok, h'⟩

/-- A page is mapped in an empty page directory. -/
theorem tables_map_insert :
    Along step MapOk (vmInit [some 16]) [.pageInsert 1 17 UTEXT PTE_USTK] := by
  have hempty : ∀ e ∈ pdeSlots, pdeAt (vmInit [some 16]) e = none := fun e _ => pdeAt_vmInit _ e
  apply tables_map hempty
  refine ⟨⟨?_, ?_⟩, fun _ _ => trivial⟩
  · intro t _ e he
    rw [hempty e he]
    exact fun hc => by cases hc
  · exact ⟨⟨by decide, by decide⟩, by decide, by decide⟩

end PageMap

end WeiOS.Paging
