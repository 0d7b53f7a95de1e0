import Mathlib
import WeiOS.Mm.PageMap
import WeiOS.Mm.HeapFault

/-!
# Page Calls and the Contents of Pages

What the page calls do to the map of pages, to the counts and to the contents of all frames that are in use, when
`page_alloc` has a page for each of their requests. A call writes no frame but those that it is handed.

## Main results
- `Ok.insert`, `Ok.remove`: `page_insert` and `page_remove`.
- `Ok.mapPage`: `user_page_map`.
- `Ok.exit`: `exit`.
- `Ok.cowPgfault`: `cow_pgfault`.
- `Ok.regionPage`: a page of the heap.
-/

namespace WeiOS.Paging

open WeiOS.Paging.PageMap

/-! ## §1 Supply -/

/-- The next `k` requests for a page get one. -/
def Supplies : Vm → Nat → Prop
  | _, 0 => True
  | s, k + 1 => (pageAlloc s).1 ≠ none ∧ Supplies (pageAlloc s).2 k

/-- What no page call changes. -/
structure Same (s s' : Vm) : Prop where
  kind : s'.kind = s.kind
  npagesNum : s'.npagesNum = s.npagesNum
  rootproc : s'.rootproc = s.rootproc
  heapPtr : s'.heapPtr = s.heapPtr
  baseMemSz : s'.baseMemSz = s.baseMemSz

/-- A step that hands out nothing and writes into no page; it may give pages back. -/
structure Quiet (s s' : Vm) : Prop where
  same : Same s s'
  data : s'.data = s.data
  supply : s'.supply = s.supply
  freed : ∀ g, s'.allocated g = true → s.allocated g = true

section Quiet

variable {s s' t : Vm} {p : Proc} {va f k : Nat}

theorem Same.refl (s : Vm) : Same s s := ⟨rfl, rfl, rfl, rfl, rfl⟩

theorem Same.trans (h : Same s s') (h' : Same s' t) : Same s t where
  kind := h'.kind.trans h.kind
  npagesNum := h'.npagesNum.trans h.npagesNum
  rootproc := h'.rootproc.trans h.rootproc
  heapPtr := h'.heapPtr.trans h.heapPtr
  baseMemSz := h'.baseMemSz.trans h.baseMemSz

theorem Quiet.refl (s : Vm) : Quiet s s := ⟨Same.refl s, rfl, rfl, fun _ h => h⟩

theorem quiet_pageDecreaseRef (s : Vm) (f : Nat) : Quiet s (pageDecreaseRef s f) := by
  unfold pageDecreaseRef pageFree
  dsimp only
  split
  · refine ⟨⟨rfl, rfl, rfl, rfl, rfl⟩, rfl, rfl, fun g hg => ?_⟩
    change Function.update s.allocated f false g = true at hg
    by_cases hgf : g = f
    · rw [hgf, Function.update_self] at hg
      cases hg
    · rwa [Function.update_of_ne hgf] at hg
  · exact ⟨⟨rfl, rfl, rfl, rfl, rfl⟩, rfl, rfl, fun _ h => h⟩

theorem quiet_pageRemove (s : Vm) (p : Proc) (va : Nat) : Quiet s (pageRemove s p va) := by
  unfold pageRemove
  split
  · exact Quiet.refl s
  · next f t _ =>
    have h := quiet_pageDecreaseRef s f
    exact ⟨⟨h.same.kind, h.same.npagesNum, h.same.rootproc, h.same.heapPtr, h.same.baseMemSz⟩, h.data, h.supply,
      h.freed⟩

/-- What `page_alloc` answers depends on the supply and on what is handed out. -/
theorem pageAlloc_eq_some : (pageAlloc s).1 = some f ↔
    ∃ rest, s.supply = some f :: rest ∧ s.kind f = .pool ∧ s.allocated f = false := by
  unfold pageAlloc
  split
  · next h => simp [h]
  · next h => simp [h]
  · next g rest h =>
    split
    · next hfree =>
      simp only [h, List.cons.injEq, Option.some.injEq]
      constructor
      · rintro rfl
        exact ⟨rest, ⟨rfl, rfl⟩, hfree⟩
      · rintro ⟨_, ⟨rfl, _⟩, _⟩
        rfl
    · next hnot =>
      simp only [h, List.cons.injEq, Option.some.injEq, reduceCtorEq, false_iff, not_exists]
      rintro _ ⟨⟨rfl, _⟩, hfree⟩
      exact hnot hfree

theorem pageAlloc_supply (s : Vm) : (pageAlloc s).2.supply = s.supply.tail := by
  unfold pageAlloc
  split
  · next h => rw [h]; rfl
  · next h => rw [h]; rfl
  · next h =>
    split
    · rw [h]; rfl
    · rw [h]; rfl

/-- A supply does not get worse when pages are given back. -/
theorem Supplies.mono (hsupply : s'.supply = s.supply) (hkind : s'.kind = s.kind)
    (hfreed : ∀ g, s'.allocated g = true → s.allocated g = true) (h : Supplies s k) : Supplies s' k := by
  induction k generalizing s s' with
  | zero => trivial
  | succ k ih =>
    obtain ⟨hsome, hrest⟩ := h
    obtain ⟨f, hf⟩ := Option.ne_none_iff_exists'.1 hsome
    obtain ⟨rest, hs, hpool, hfree⟩ := pageAlloc_eq_some.1 hf
    have hfree' : s'.allocated f = false := by
      cases ha : s'.allocated f with
      | false => rfl
      | true =>
        rw [hfreed f ha] at hfree
        cases hfree
    have hf' : (pageAlloc s').1 = some f :=
      pageAlloc_eq_some.2 ⟨rest, hsupply.trans hs, (congrFun hkind f).trans hpool, hfree'⟩
    refine ⟨by rw [hf']; simp, ih ?_ ?_ ?_ hrest⟩
    · rw [pageAlloc_supply, pageAlloc_supply, hsupply]
    · rw [(HeapFault.pageAlloc_grows s').kind, (HeapFault.pageAlloc_grows s).kind, hkind]
    · cases halloc : pageAlloc s with
      | mk o t =>
        cases halloc' : pageAlloc s' with
        | mk o' t' =>
          rw [halloc] at hf
          rw [halloc'] at hf'
          obtain rfl : o = some f := hf
          obtain rfl : o' = some f := hf'
          intro g hg
          change t'.allocated g = true at hg
          show t.allocated g = true
          rw [(HeapFault.pageAlloc_some halloc').2.2.1] at hg
          rw [(HeapFault.pageAlloc_some halloc).2.2.1]
          by_cases hgf : g = f
          · rw [hgf, Function.update_self]
          · rw [Function.update_of_ne hgf] at hg ⊢
            exact hfreed g hg

theorem Quiet.supplies (h : Quiet s s') (hk : Supplies s k) : Supplies s' k :=
  hk.mono h.supply h.same.kind h.freed

theorem Supplies.of_succ (h : Supplies s (k + 1)) : Supplies s k := by
  induction k generalizing s with
  | zero => trivial
  | succ k ih => exact ⟨h.1, ih h.2⟩

theorem Supplies.of_le {j : Nat} (hj : j ≤ k) (h : Supplies s k) : Supplies s j := by
  induction k with
  | zero =>
    rw [Nat.le_zero.1 hj]
    exact h
  | succ k ih =>
    by_cases hjk : j = k + 1
    · rw [hjk]
      exact h
    · exact ih (by omega) h.of_succ

end Quiet

/-! ## §2 State -/

/-- The tables are in order and the counts are right; the frames in `hand` are not mapped yet. -/
structure Ok (hand : List Nat) (s : Vm) : Prop where
  refs : VmInv 0 hand s
  map : MapInv s

/-- The frame is not one that `page_alloc` may hand out. -/
def Live (s : Vm) (g : Nat) : Prop := s.kind g = .pool → s.allocated g = true

/-- The pages for a page table at `va`. -/
def cost (s : Vm) (p : Proc) (va : Nat) : Nat := if (pdeAt s (p, PDINDEX va)).isSome then 0 else 1

section Ok

variable {s s' t : Vm} {hand : List Nat} {p q : Proc} {va v f g k : Nat} {e : Pte}

theorem Ok.fresh (h : Ok hand s) : Fresh s := by
  intro t ht e he hdir
  obtain ⟨_, _, hpool, hfree⟩ := pageAlloc_eq_some.1 ht
  obtain ⟨_, hused⟩ := h.refs.tables e he t hdir
  rw [hused] at hfree
  cases hfree

theorem refs_pos_of_tr (hva : va < UTOP) (he : tr s p va = some e) : 0 < refs s e.frame := by
  apply refs_pos_of_pte (PDINDEX_lt hva) (PTINDEX_lt va)
  rw [pteAt_eq_map, show trAt s (p, PDINDEX va, PTINDEX va) = some e from he]
  rfl

/-- Where a page is mapped there is a page table. -/
theorem pdeAt_isSome_of_tr (he : tr s p va = some e) : (pdeAt s (p, PDINDEX va)).isSome = true := by
  unfold tr trAt at he
  cases ht : pdeAt s (p, PDINDEX va) with
  | none =>
    rw [ht] at he
    cases he
  | some t => rfl

/-- A mapped frame is a page, and in use. -/
theorem Ok.mapped (h : Ok hand s) (hva : va < UTOP) (he : tr s p va = some e) :
    e.frame < s.npagesNum ∧ e.present = true ∧ Live s e.frame := by
  have hpos := refs_pos_of_tr hva he
  have hslot := mem_pdeSlots_of_lt p hva
  unfold tr trAt at he
  cases ht : pdeAt s (p, PDINDEX va) with
  | none =>
    rw [ht] at he
    cases he
  | some t =>
    rw [ht] at he
    dsimp only at he
    split at he
    · next hp =>
      obtain rfl := Option.some.inj he
      refine ⟨h.map.frames _ hslot t ht _ (PTINDEX_lt va) hp, hp, fun hpool => ?_⟩
      by_cases hmem : (s.table t (PTINDEX va)).frame ∈ hand
      · exact (h.refs.inHand _ hmem).2.1
      · exact (h.refs.alloc _ hpool hmem rfl).2 hpos
    · cases he

/-- It is not in hand any more. -/
theorem Ok.not_mem_hand (h : Ok hand s) (hva : va < UTOP) (he : tr s p va = some e) : e.frame ∉ hand := by
  intro hmem
  have hpos := refs_pos_of_tr hva he
  rw [(h.refs.inHand _ hmem).2.2] at hpos
  exact Nat.lt_irrefl 0 hpos

theorem Ok.live_hand (h : Ok hand s) (hg : g ∈ hand) : Live s g := fun _ => (h.refs.inHand g hg).2.1

/-- The entry that is read is the one of the map. -/
theorem Ok.pageLookup (h : Ok hand s) (hva : va < UTOP) (he : tr s p va = some e) :
    ∃ t, Paging.pageLookup s p va = some (e.frame, t) ∧ s.table t (PTINDEX va) = e := by
  rw [h.refs.pageLookup hva]
  unfold tr trAt at he
  cases ht : pdeAt s (p, PDINDEX va) with
  | none =>
    rw [ht] at he
    cases he
  | some t =>
    rw [ht] at he
    dsimp only at he
    split at he
    · obtain rfl := Option.some.inj he
      exact ⟨t, rfl, rfl⟩
    · cases he

/-- `page_alloc` gets a page. -/
theorem pageAlloc_supplied (hk : Supplies s (k + 1)) : ∃ f s₁, pageAlloc s = (some f, s₁) ∧ Supplies s₁ k ∧
    Same s s₁ ∧ pdeAt s₁ = pdeAt s ∧ ¬ Live s f ∧ (∀ g, Live s g → Live s₁ g ∧ s₁.data g = s.data g) ∧
    ∀ i, s₁.data f i = 0 := by
  obtain ⟨f, hf⟩ := Option.ne_none_iff_exists'.1 hk.1
  have hpgdir := (pageAlloc_frame s).1
  have hnp := (pageAlloc_frame s).2.1
  have hsup := hk.2
  have hheap : (pageAlloc s).2.heapPtr = s.heapPtr ∧ (pageAlloc s).2.baseMemSz = s.baseMemSz := by
    unfold pageAlloc
    split
    · exact ⟨rfl, rfl⟩
    · exact ⟨rfl, rfl⟩
    · split <;> exact ⟨rfl, rfl⟩
  cases halloc : pageAlloc s with
  | mk o s₁ =>
    rw [halloc] at hf hsup hpgdir hnp hheap
    obtain rfl : o = some f := hf
    obtain ⟨hpool, hfree, hall, hkind, hroot, hzero, hdata⟩ := HeapFault.pageAlloc_some halloc
    have hnot : ¬ Live s f := by
      intro hlive
      rw [hlive hpool] at hfree
      cases hfree
    refine ⟨f, s₁, rfl, hsup, ⟨hkind, hnp, hroot, hheap.1, hheap.2⟩, pdeAt_congr hpgdir, hnot, ?_, hzero⟩
    intro g hg
    have hgf : g ≠ f := fun he => hnot (he ▸ hg)
    refine ⟨fun hgp => ?_, hdata g hgf⟩
    rw [hall, Function.update_of_ne hgf]
    apply hg
    rw [← hkind]
    exact hgp

/-- **`pgdir_walk`** with a page for each request. -/
theorem walk_supplied (p : Proc) (va : Nat) (hk : Supplies s (k + cost s p va)) :
    ∃ t s', pgdirWalk s p va true = (some t, s') ∧ Same s s' ∧ (∀ g, Live s g → s'.data g = s.data g) ∧
      Supplies s' k ∧ ∀ e, (pdeAt s e).isSome = true → (pdeAt s' e).isSome = true := by
  unfold pgdirWalk
  dsimp only
  by_cases hp : (s.pgdir p (PDINDEX va)).present = true
  · rw [if_pos hp]
    have hcost : cost s p va = 0 := by simp [cost, pdeAt, hp]
    rw [hcost] at hk
    exact ⟨_, s, rfl, Same.refl s, fun _ _ => rfl, hk, fun _ he => he⟩
  · have hcost : cost s p va = 1 := by simp [cost, pdeAt, hp]
    rw [hcost] at hk
    rw [if_neg hp, if_neg (by decide)]
    obtain ⟨t, s₁, halloc, hsup, hsame, hdirs, _, hlive, _⟩ := pageAlloc_supplied hk
    rw [halloc]
    refine ⟨t, _, rfl, ⟨hsame.kind, hsame.npagesNum, hsame.rootproc, hsame.heapPtr, hsame.baseMemSz⟩,
      fun g hg => (hlive g hg).2, ?_, ?_⟩
    · refine Supplies.mono ?_ ?_ ?_ hsup
      · rfl
      · rfl
      · exact fun g hg => hg
    · intro e he
      by_cases hslot : e = (p, PDINDEX va)
      · rw [hslot]
        simp [pdeAt, setPde, Pte.present, PTE_P]
      · rw [pdeAt_setPde_of_ne hslot]
        show (pdeAt s₁ e).isSome = true
        rw [hdirs]
        exact he

/-- The rest of `page_insert` hands out nothing, and leaves the page directories alone. -/
theorem pageInsert_quiet {s₁ : Vm} {t : Nat} (hwalk : pgdirWalk s p va true = (some t, s₁))
    (hpres : (s₁.pgdir p (PDINDEX va)).present = true) (f perm : Nat) :
    ∃ s', pageInsert s p f va perm = (true, s') ∧ Quiet s₁ s' ∧ pdeAt s' = pdeAt s₁ := by
  unfold pageInsert
  rw [hwalk]
  dsimp only
  have hdirs : ∀ s₂ : Vm, pdeAt s₂ = pdeAt s₁ → (s₂.pgdir p (PDINDEX va)).present = true →
      pdeAt (orPde (setPte s₂ t (PTINDEX va) ⟨f, perm ||| PTE_P⟩) p va perm) = pdeAt s₁ := by
    intro s₂ hs₂ hp₂
    rw [← hs₂]
    exact funext (pdeAt_orPde (setPte s₂ t (PTINDEX va) ⟨f, perm ||| PTE_P⟩) p va perm hp₂)
  split
  · exact ⟨_, rfl, ⟨⟨rfl, rfl, rfl, rfl, rfl⟩, rfl, rfl, fun _ hg => hg⟩, hdirs s₁ rfl hpres⟩
  · split
    · have hq := quiet_pageRemove s₁ p va
      have hpgdir : (pageRemove s₁ p va).pgdir = s₁.pgdir := by
        unfold pageRemove
        split
        · rfl
        · exact (pageDecreaseRef_spec s₁ _).2.2.1
      refine ⟨_, rfl, ⟨?_, hq.data, hq.supply, hq.freed⟩, ?_⟩
      · exact ⟨hq.same.kind, hq.same.npagesNum, hq.same.rootproc, hq.same.heapPtr, hq.same.baseMemSz⟩
      · exact hdirs _ (pdeAt_congr hpgdir) (by rw [hpgdir]; exact hpres)
    · exact ⟨_, rfl, ⟨⟨rfl, rfl, rfl, rfl, rfl⟩, rfl, rfl, fun _ hg => hg⟩, hdirs s₁ rfl hpres⟩

end Ok

/-! ## §3 Page calls -/

/-- What a call that maps a page leaves: its entry is `x`, and no page in use is written. -/
structure Inserted (s : Vm) (p : Proc) (va : Nat) (x : Pte) (s' : Vm) : Prop where
  same : Same s s'
  data : ∀ g, Live s g → s'.data g = s.data g
  table : (pdeAt s' (p, PDINDEX va)).isSome = true
  tables : ∀ e, (pdeAt s e).isSome = true → (pdeAt s' e).isSome = true
  self : tr s' p va = some x
  other : ∀ q v, UserPage v → (q, v) ≠ (p, va) → tr s' q v = tr s q v

section Calls

variable {s s' : Vm} {hand : List Nat} {p q : Proc} {va vd f k : Nat} {e : Pte}

/-- **`page_insert`** of a page that is in hand or in use. -/
theorem Ok.insert (h : Ok hand s) (hva : UserPage va) (hf : f < s.npagesNum)
    (huse : s.kind f = .pool → f ∈ hand ∨ 0 < Paging.refs s f) (perm : Nat) (hk : Supplies s (k + cost s p va)) :
    ∃ s', pageInsert s p f va perm = (true, s') ∧ Ok (hand.erase f) s' ∧ Supplies s' k ∧
      Inserted s p va ⟨f, perm ||| PTE_P⟩ s' := by
  obtain ⟨t, s₁, hwalk, hsame, hdata, hsup, htabs⟩ := walk_supplied p va hk
  obtain ⟨o, s₁', hwalk', _, _, _, htab⟩ := h.map.pgdirWalk (p := p) h.fresh hva.1
  obtain ⟨rfl, rfl⟩ : o = some t ∧ s₁' = s₁ := by
    have heq := hwalk'.symm.trans hwalk
    exact ⟨congrArg Prod.fst heq, congrArg Prod.snd heq⟩
  have ht : pdeAt s₁' (p, PDINDEX va) = some t := htab t rfl
  obtain ⟨s', hins, hquiet, hdirs⟩ := pageInsert_quiet hwalk (pdeAt_eq_some.1 ht).1 f perm
  obtain ⟨b, s₂, hins₂, _, hinv, _, _⟩ := h.refs.pageInsert (p := p) hva.1 hf huse perm
  obtain ⟨b', s₃, hins₃, hmap, _, _, hok⟩ := h.map.pageInsert (p := p) h.fresh hva.1 hf perm
  obtain ⟨rfl, rfl⟩ := Prod.mk.inj (hins₂.symm.trans hins)
  obtain ⟨rfl, rfl⟩ := Prod.mk.inj (hins₃.symm.trans hins)
  obtain ⟨hself, _, hother⟩ := hok rfl
  rw [if_pos rfl] at hinv
  refine ⟨_, hins, ⟨hinv, hmap⟩, hquiet.supplies hsup, hsame.trans hquiet.same, fun g hg => ?_, ?_, ?_, hself, ?_⟩
  · exact (congrFun hquiet.data g).trans (hdata g hg)
  · rw [hdirs, ht]
    rfl
  · intro e he
    rw [hdirs]
    exact htabs e he
  · intro q v hv hne
    exact (sameBut_of_other h.map hmap hva hother q v hv hne).1

/-- **`page_remove`** of a page that is mapped. -/
theorem Ok.remove (h : Ok hand s) (hva : UserPage va) (he : tr s p va = some e) :
    Ok hand (pageRemove s p va) ∧ pdeAt (pageRemove s p va) = pdeAt s ∧ tr (pageRemove s p va) p va = none ∧
      ∀ q v, UserPage v → (q, v) ≠ (p, va) → tr (pageRemove s p va) q v = tr s q v := by
  have hclean : Dirty s p va = false := by
    have hmap : Paging.mapped s p va = some e.frame := by
      unfold Paging.mapped
      rw [pteAt_eq_map, show trAt s (p, PDINDEX va, PTINDEX va) = some e from he]
      rfl
    rw [Dirty, hmap, Option.isNone_some, Bool.and_false]
  obtain ⟨hrefs, hdirs, _⟩ := h.refs.pageRemove (p := p) hva.1
  obtain ⟨hmap, _, _, hnone, hother⟩ := h.map.pageRemove (p := p) hva.1
  rw [hclean] at hrefs
  exact ⟨⟨hrefs, hmap⟩, hdirs, hnone,
    fun q v hv hne => (sameBut_of_other h.map hmap hva hother q v hv hne).1⟩

/-- **`user_page_map`** of a page that is mapped, with no more than the source may do. -/
theorem Ok.mapPage (h : Ok hand s) (hva : UserPage va) (hvd : UserPage vd) (he : tr s p va = some e) {perm : Nat}
    (hperm : badPerm perm = false) (hw : perm &&& PTE_W ≠ 0 → e.perm &&& PTE_W ≠ 0)
    (hk : Supplies s (k + cost s q vd)) :
    ∃ s', userPageMap s (some p) va (some q) vd perm = (none, s') ∧ Ok hand s' ∧ Supplies s' k ∧
      Inserted s q vd ⟨e.frame, perm ||| PTE_P⟩ s' := by
  obtain ⟨t, hlook, hentry⟩ := h.pageLookup hva.1 he
  obtain ⟨hf, _, _⟩ := h.mapped hva.1 he
  obtain ⟨s', hins, hok, hsup, hinserted⟩ := h.insert (p := q) hvd hf
    (fun _ => .inr (refs_pos_of_tr hva.1 he)) perm hk
  rw [List.erase_of_not_mem (h.not_mem_hand hva.1 he)] at hok
  refine ⟨s', ?_, hok, hsup, hinserted⟩
  have hno : ∀ {v : Nat}, UserPage v → ¬ (UTOP ≤ v ∨ v % PGSIZE ≠ 0) := by
    intro v hv hc
    rcases hc with hc | hc
    · exact absurd hv.1 (Nat.not_lt.2 hc)
    · exact hc (Nat.mod_eq_zero_of_dvd hv.2)
  unfold userPageMap
  rw [if_neg (hno hva), if_neg (hno hvd), if_neg (by rw [hperm]; exact Bool.false_ne_true)]
  dsimp only
  rw [hlook]
  dsimp only
  rw [hentry, if_neg (fun hc => hw hc.2 hc.1), hins]

theorem supplies_cost (hk : Supplies s (k + 2)) : Supplies s (k + cost s p va + 1) := by
  refine hk.of_le ?_
  unfold cost
  split <;> omega

/-- **`pgdir_walk`** maps nothing. -/
theorem Ok.walk (h : Ok hand s) (hva : va < UTOP) (hk : Supplies s (k + cost s p va)) :
    ∃ t s', pgdirWalk s p va true = (some t, s') ∧ Ok hand s' ∧ Supplies s' k ∧ Same s s' ∧
      pdeAt s' (p, PDINDEX va) = some t ∧ (∀ q v, v < UTOP → tr s' q v = tr s q v) ∧
      ∀ g, Live s g → s'.data g = s.data g := by
  obtain ⟨t, s', hwalk, hsame, hdata, hsup, _⟩ := walk_supplied p va hk
  obtain ⟨o, s₁, hwalk₁, hmap, _, htr, htab⟩ := h.map.pgdirWalk (p := p) h.fresh hva
  obtain ⟨o', s₂, hwalk₂, hrefs, _⟩ := h.refs.pgdirWalk (p := p) hva
  rw [hwalk] at hwalk₁ hwalk₂
  obtain ⟨rfl, rfl⟩ := Prod.mk.inj hwalk₁
  obtain ⟨rfl, rfl⟩ := Prod.mk.inj hwalk₂
  exact ⟨t, _, hwalk, ⟨hrefs, hmap⟩, hsup, hsame, htab t rfl, fun q v hv => htr _ (mem_pteSlots_of_lt q hv), hdata⟩

/-- A page from `page_alloc` is mapped. -/
theorem Ok.newPage (h : Ok hand s) (hva : UserPage va) (perm : Nat) (hk : Supplies s (k + cost s p va + 1)) :
    ∃ f s₁ s', pageAlloc s = (some f, s₁) ∧ pageInsert s₁ p f va perm = (true, s') ∧ Ok hand s' ∧ Supplies s' k ∧
      Inserted s p va ⟨f, perm ||| PTE_P⟩ s' ∧ ¬ Live s f ∧ ∀ i, s'.data f i = 0 := by
  obtain ⟨f, s₁, halloc, hsup, hsame, hdirs, hnot, hlive, hzero⟩ := pageAlloc_supplied hk
  have hk₁ : Supplies s₁ (k + cost s₁ p va) := by
    unfold cost at hsup ⊢
    rwa [hdirs]
  have hrefs₁ : VmInv 0 (f :: hand) s₁ := by
    rcases h.refs.pageAlloc with ⟨s₂, halloc₂, _⟩ | ⟨g, s₂, halloc₂, hinv, _⟩
    · rw [halloc] at halloc₂
      cases halloc₂
    · rw [halloc] at halloc₂
      cases halloc₂
      exact hinv
  obtain ⟨hmap₁, htr₁⟩ := h.map.pageAlloc h.fresh
  rw [halloc] at hmap₁ htr₁
  have h₁ : Ok (f :: hand) s₁ := ⟨hrefs₁, hmap₁⟩
  have hf := (h₁.refs.pool_lt f (hrefs₁.inHand f List.mem_cons_self).1).2
  obtain ⟨s', hins, hok, hsup', hi⟩ :=
    h₁.insert (p := p) hva hf (fun _ => .inl List.mem_cons_self) perm hk₁
  rw [List.erase_cons_head] at hok
  refine ⟨f, s₁, s', halloc, hins, hok, hsup', ⟨hsame.trans hi.same, fun g hg => ?_, hi.table, fun e he => ?_,
    hi.self, fun q v hv hne => ?_⟩, hnot, fun i => ?_⟩
  · exact (hi.data g (hlive g hg).1).trans (hlive g hg).2
  · apply hi.tables
    rw [hdirs]
    exact he
  · exact (hi.other q v hv hne).trans (htr₁ _ (mem_pteSlots_of_lt q hv.1))
  · rw [hi.data f (h₁.live_hand List.mem_cons_self)]
    exact hzero i

/-- What `pgdir_free` leaves: the page tables are no longer named, and pages are given back. -/
structure Freed (s : Vm) (p : Proc) (s' : Vm) : Prop where
  quiet : Quiet s s'
  table : s'.table = s.table
  others : ∀ q, q ≠ p → s'.pgdir q = s.pgdir q
  dirs : ∀ d, s'.pgdir p d = s.pgdir p d ∨ s'.pgdir p d = Pte.zero

theorem quiet_freePtes (s : Vm) (t n : Nat) : Quiet s (freePtes s t n) := by
  induction n with
  | zero => exact Quiet.refl s
  | succ n ih =>
    unfold freePtes
    dsimp only
    split
    · have hq := quiet_pageDecreaseRef (freePtes s t n) ((freePtes s t n).table t n).frame
      exact ⟨ih.same.trans hq.same, hq.data.trans ih.data, hq.supply.trans ih.supply,
        fun g hg => ih.freed g (hq.freed g hg)⟩
    · exact ih

theorem freePdes_freed (s : Vm) (p : Proc) (n : Nat) : Freed s p (freePdes s p n) := by
  induction n with
  | zero => exact ⟨Quiet.refl s, rfl, fun _ _ => rfl, fun _ => .inl rfl⟩
  | succ n ih =>
    unfold freePdes
    dsimp only
    split
    · generalize ((freePdes s p n).pgdir p n).frame = t
      have hptes := quiet_freePtes (freePdes s p n) t PDENTRIES
      have hdec := quiet_pageDecreaseRef (freePtes (freePdes s p n) t PDENTRIES) t
      obtain ⟨_, _, hpgdir, htable, _⟩ := pageDecreaseRef_spec (freePtes (freePdes s p n) t PDENTRIES) t
      obtain ⟨htable₁, hpgdir₁, _⟩ := freePtes_same (freePdes s p n) t PDENTRIES
      have hsame := ih.quiet.same.trans (hptes.same.trans hdec.same)
      have hdirs := hpgdir.trans hpgdir₁
      have htabs := htable.trans (htable₁.trans ih.table)
      have hdata := hdec.data.trans (hptes.data.trans ih.quiet.data)
      have hsupply := hdec.supply.trans (hptes.supply.trans ih.quiet.supply)
      have hfree := fun g hg => ih.quiet.freed g (hptes.freed g (hdec.freed g hg))
      generalize pageDecreaseRef (freePtes (freePdes s p n) t PDENTRIES) t = s₂ at hsame hdirs htabs hdata hsupply hfree
      have hself : (setPde s₂ p n Pte.zero).pgdir p = Function.update (s₂.pgdir p) n Pte.zero :=
        Function.update_self ..
      refine ⟨⟨⟨hsame.kind, hsame.npagesNum, hsame.rootproc, hsame.heapPtr, hsame.baseMemSz⟩, hdata, hsupply, hfree⟩,
        htabs, fun q hq => ?_, fun d => ?_⟩
      · refine (Function.update_of_ne hq ..).trans ?_
        rw [hdirs]
        exact ih.others q hq
      · rw [hself, hdirs]
        by_cases hd : d = n
        · rw [hd, Function.update_self]
          exact .inr rfl
        · rw [Function.update_of_ne hd]
          exact ih.dirs d
    · exact ih

/-- **`exit`**: the process has no pages any more, and the others have theirs. -/
theorem Ok.exit (h : Ok hand s) (hroot : p ≠ s.rootproc) : Ok hand (Paging.exit s p) ∧ Quiet s (Paging.exit s p) ∧
    (∀ va < UTOP, tr (Paging.exit s p) p va = none) ∧ ∀ q va, q ≠ p → tr (Paging.exit s p) q va = tr s q va := by
  have hrefs := h.refs.exit p
  have hnone := fun va (hva : va < UTOP) => HeapFault.tr_exit hroot hva
  have hfreed : Freed s p (Paging.exit s p) := by
    unfold Paging.exit
    rw [if_neg hroot]
    unfold pgdirFree
    exact freePdes_freed s p _
  generalize Paging.exit s p = s' at hrefs hnone hfreed
  have hdirs : ∀ e t, pdeAt s' e = some t → pdeAt s e = some t ∧ s'.pgdir e.1 e.2 = s.pgdir e.1 e.2 := by
    rintro ⟨q, d⟩ t ht
    by_cases hq : q = p
    · subst hq
      rcases hfreed.dirs d with hd | hd
      · refine ⟨?_, hd⟩
        unfold pdeAt at ht ⊢
        rwa [hd] at ht
      · unfold pdeAt at ht
        rw [hd] at ht
        cases ht
    · refine ⟨?_, congrFun (hfreed.others q hq) d⟩
      unfold pdeAt at ht ⊢
      rwa [hfreed.others q hq] at ht
  refine ⟨⟨hrefs, ?_, ?_, ?_⟩, hfreed.quiet, hnone, fun q va hq => ?_⟩
  · intro e he e' he' t ht ht'
    exact h.map.dirs e he e' he' t (hdirs e t ht).1 (hdirs e' t ht').1
  · intro e he t ht
    rw [hfreed.table, hfreed.quiet.same.npagesNum]
    exact h.map.frames e he t (hdirs e t ht).1
  · intro e he t ht
    rw [hfreed.table, (hdirs e t ht).2]
    exact h.map.perms e he t (hdirs e t ht).1
  · unfold tr trAt pdeAt
    rw [hfreed.others q hq, hfreed.table]

/-! ## §4 Faults -/

/-- **`cow_pgfault`** on a page that is mapped: the page is mapped again, to a frame of its own that holds the same. -/
theorem Ok.cowPgfault (h : Ok hand s) (hva : va < UTOP) (he : tr s p (ROUNDDOWN va) = some e)
    (htemp : tr s p PFTEMP = none) (hk : Supplies s (k + 2)) :
    ∃ f s', Paging.cowPgfault s p va = s' ∧ Ok hand s' ∧ Supplies s' k ∧ Same s s' ∧ ¬ Live s f ∧
      tr s' p (ROUNDDOWN va) = some ⟨f, PTE_USTK⟩ ∧ s'.data f = s.data e.frame ∧
      ∀ q v, UserPage v → (q, v) ≠ (p, ROUNDDOWN va) → tr s' q v = tr s q v ∧
        ∀ x, tr s q v = some x → s'.data x.frame = s.data x.frame := by
  have htop : UserPage PFTEMP := ⟨by decide, by decide⟩
  have hra : UserPage (ROUNDDOWN va) := ⟨(Nat.sub_le _ _).trans_lt hva, dvd_ROUNDDOWN va⟩
  have hne : ((p, PFTEMP) : Proc × Nat) ≠ (p, ROUNDDOWN va) := by
    intro heq
    rw [(Prod.mk.inj heq).2, he] at htemp
    cases htemp
  -- the copy is made at `PFTEMP`
  obtain ⟨f, s₀, s₁, halloc, hins, h₁, hsup₁, hi₁, hnot, hzero⟩ := h.newPage (p := p) htop PTE_USTK (supplies_cost hk)
  have hlive : ∀ q v x, UserPage v → tr s q v = some x → Live s x.frame ∧ x.frame ≠ f := by
    intro q v x hv hx
    obtain ⟨_, _, hl⟩ := h.mapped hv.1 hx
    exact ⟨hl, fun heq => hnot (heq ▸ hl)⟩
  have he₁ : tr s₁ p (ROUNDDOWN va) = some e := (hi₁.other p _ hra hne.symm).trans he
  obtain ⟨t, hlookt, _⟩ := h₁.pageLookup htop.1 hi₁.self
  obtain ⟨u, hlooku, _⟩ := h₁.pageLookup hra.1 he₁
  have hmove : memmove s₁ p PFTEMP (ROUNDDOWN va) =
      { s₁ with data := Function.update s₁.data f (s₁.data e.frame) } := by
    unfold memmove
    rw [hlookt, hlooku]
  have hself₂ : Function.update s₁.data f (s₁.data e.frame) f = s.data e.frame := by
    obtain ⟨hl, _⟩ := hlive p _ e hra he
    rw [Function.update_self]
    exact hi₁.data _ hl
  have hcopy : ∀ x, Live s x → x ≠ f → Function.update s₁.data f (s₁.data e.frame) x = s.data x :=
    fun x hx hxf => (Function.update_of_ne hxf ..).trans (hi₁.data x hx)
  generalize Function.update s₁.data f (s₁.data e.frame) = bytes at hmove hself₂ hcopy
  have h₂ : Ok hand { s₁ with data := bytes } :=
    ⟨h₁.refs.congr rfl rfl (fun _ _ => rfl) (fun _ _ _ _ => rfl) rfl rfl, h₁.map.congr rfl rfl rfl⟩
  -- the page is removed
  obtain ⟨h₃, hdirs₃, _, hother₃⟩ := h₂.remove hra he₁
  have hq₃ := quiet_pageRemove { s₁ with data := bytes } p (ROUNDDOWN va)
  generalize hs₃ : pageRemove { s₁ with data := bytes } p (ROUNDDOWN va) = s₃ at h₃ hdirs₃ hother₃ hq₃
  have htemp₃ : tr s₃ p PFTEMP = some ⟨f, PTE_USTK ||| PTE_P⟩ := (hother₃ p PFTEMP htop hne).trans hi₁.self
  -- the copy is mapped there
  have hcost : cost s₃ p (ROUNDDOWN va) = 0 := by
    have hsome : (pdeAt s₃ (p, PDINDEX (ROUNDDOWN va))).isSome = true := by
      rw [hdirs₃]
      exact hi₁.tables _ (pdeAt_isSome_of_tr he)
    unfold cost
    rw [if_pos hsome]
  have hsup₃ : Supplies s₃ (k + cost s₃ p (ROUNDDOWN va)) := by
    rw [hcost]
    refine hq₃.supplies (Supplies.mono ?_ ?_ ?_ hsup₁)
    · rfl
    · rfl
    · exact fun _ hg => hg
  obtain ⟨s₄, hmap₄, h₄, hsup₄, hi₄⟩ := h₃.mapPage (q := p) htop hra htemp₃
    (show badPerm PTE_USTK = false by decide) (fun _ => show (PTE_USTK ||| PTE_P) &&& PTE_W ≠ 0 by decide) hsup₃
  have htemp₄ : tr s₄ p PFTEMP = some ⟨f, PTE_USTK ||| PTE_P⟩ := (hi₄.other p PFTEMP htop hne).trans htemp₃
  -- and `PFTEMP` is removed
  obtain ⟨h₅, _, hnone₅, hother₅⟩ := h₄.remove htop htemp₄
  have hq₅ := quiet_pageRemove s₄ p PFTEMP
  have hsame₃ : Same s₁ s₃ :=
    ⟨hq₃.same.kind, hq₃.same.npagesNum, hq₃.same.rootproc, hq₃.same.heapPtr, hq₃.same.baseMemSz⟩
  have hdata : ∀ q v x, UserPage v → tr s₃ q v = some x → (pageRemove s₄ p PFTEMP).data x.frame = bytes x.frame := by
    intro q v x hv hx
    obtain ⟨_, _, hl⟩ := h₃.mapped hv.1 hx
    rw [hq₅.data, hi₄.data _ hl, hq₃.data]
  refine ⟨f, pageRemove s₄ p PFTEMP, ?_, h₅, hq₅.supplies hsup₄,
    hi₁.same.trans (hsame₃.trans (hi₄.same.trans hq₅.same)), hnot, ?_, ?_, ?_⟩
  · have hup : userPageUpmap (memmove s₁ p PFTEMP (ROUNDDOWN va)) (some p) (ROUNDDOWN va) = (none, s₃) := by
      unfold userPageUpmap
      rw [if_neg (Nat.not_le.2 hra.1), hmove]
      dsimp only
      rw [hs₃]
    have hup₅ : userPageUpmap s₄ (some p) PFTEMP = (none, pageRemove s₄ p PFTEMP) := by
      unfold userPageUpmap
      rw [if_neg (by decide)]
    have hpage : userPageAlloc s (some p) PFTEMP PTE_USTK = (none, s₁) := by
      unfold userPageAlloc
      rw [if_neg (by decide), halloc]
      dsimp only
      rw [hins]
    unfold Paging.cowPgfault
    rw [hpage]
    dsimp only
    rw [hup]
    dsimp only
    rw [hmap₄]
    dsimp only
    rw [hup₅]
  · exact (hother₅ p _ hra hne.symm).trans hi₄.self
  · exact (hdata p PFTEMP _ htop htemp₃).trans hself₂
  · intro q v hv hqv
    by_cases htmp : ((q, v) : Proc × Nat) = (p, PFTEMP)
    · obtain ⟨rfl, rfl⟩ := Prod.mk.inj htmp
      rw [htemp]
      exact ⟨hnone₅, fun x hx => by cases hx⟩
    · have h₃' : tr s₃ q v = tr s q v := (hother₃ q v hv hqv).trans (hi₁.other q v hv htmp)
      refine ⟨?_, fun x hx => ?_⟩
      · exact ((hother₅ q v hv htmp).trans (hi₄.other q v hv hqv)).trans h₃'
      · obtain ⟨hl, hxf⟩ := hlive q v x hv hx
        exact (hdata q v x hv (h₃'.trans hx)).trans (hcopy _ hl hxf)

/-- **One page of a region**: a new page, which holds zeros. -/
theorem Ok.regionPage (h : Ok hand s) (hva : UserPage va) (hk : Supplies s (k + 2)) :
    ∃ f s', HeapFault.regionPage s p va PTE_SYSCALL = (true, s') ∧ Ok hand s' ∧ Supplies s' k ∧
      Inserted s p va ⟨f, PTE_SYSCALL⟩ s' ∧ ¬ Live s f ∧ ∀ i, s'.data f i = 0 := by
  obtain ⟨f, s₁, s', halloc, hins, hok, hsup, hi, hnot, hzero⟩ := h.newPage (p := p) hva (PTE_SYSCALL ||| PTE_P)
    (supplies_cost hk)
  refine ⟨f, s', ?_, hok, hsup, hi, hnot, hzero⟩
  unfold HeapFault.regionPage
  rw [halloc]
  exact hins

end Calls

end WeiOS.Paging
