import Mathlib
import WeiOS.Lib.Run
import WeiOS.Lib.Holders
import WeiOS.Mm.PageTable
import WeiOS.Mm.PageRefs

/-!
# Page Calls and Reference Counts

What the page calls, `sbrk`, `brk` and copy-on-write faults do to the reference counts. Two of them
get the counts wrong. `page_lookup` takes an empty entry for a mapping of page 0, so `page_remove` of
an address that is not mapped takes a reference from page 0. And `user_page_alloc` hands a page
without references to `page_decrease_ref` when there is no memory for a page table, which makes the
count wrap around and keeps the page from the allocator.

## Main results
- `step_spec`: one call, with what the counts are off by after it.
- `refsOk_iff`: the runs in which all counts stay right.
-/

namespace WeiOS.Paging

open WeiOS.Lib

/-! ## §1 Page tables and pages -/

section Calls

variable {s s' : Vm} {δ : Nat → BitVec 32} {hand : List Nat} {p : Proc} {va f t : Nat}

theorem PDINDEX_lt (h : va < UTOP) : PDINDEX va < PDINDEX UTOP := by
  have hutop : PDINDEX UTOP = 954 := by decide
  have hdiv : va / 2 ^ 22 < 954 := by
    rw [Nat.div_lt_iff_lt_mul (by decide)]
    exact h
  rw [hutop]
  exact (Nat.mod_le _ _).trans_lt hdiv

theorem PTINDEX_lt (va : Nat) : PTINDEX va < PDENTRIES := Nat.mod_lt _ (by decide)

theorem mem_pdeSlots_of_lt (p : Proc) (h : va < UTOP) : (p, PDINDEX va) ∈ pdeSlots :=
  mem_pdeSlots.2 (PDINDEX_lt h)

/-- The frame that the process has mapped at `va`. -/
def mapped (s : Vm) (p : Proc) (va : Nat) : Option Nat := pteAt s (p, PDINDEX va, PTINDEX va)

theorem pdeAt_eq_some : pdeAt s (p, PDINDEX va) = some t ↔
    (s.pgdir p (PDINDEX va)).present = true ∧ (s.pgdir p (PDINDEX va)).frame = t := by
  unfold pdeAt
  split
  · rename_i hp
    simp [hp]
  · rename_i hp
    simp [hp]

theorem pgdirWalk_false (s : Vm) (p : Proc) (va : Nat) :
    pgdirWalk s p va false = (pdeAt s (p, PDINDEX va), s) := by
  unfold pgdirWalk pdeAt
  dsimp only
  split <;> rfl

/-- `page_lookup` finds a page whenever there is a page table. -/
theorem VmInv.pageLookup (h : VmInv δ hand s) (hva : va < UTOP) :
    Paging.pageLookup s p va =
      (pdeAt s (p, PDINDEX va)).map fun t => ((s.table t (PTINDEX va)).frame, t) := by
  unfold Paging.pageLookup
  rw [pgdirWalk_false]
  cases hd : pdeAt s (p, PDINDEX va) with
  | none => rfl
  | some t =>
    have hlt : (s.table t (PTINDEX va)).frame < s.npagesNum := by
      rcases h.entries _ (mem_pdeSlots_of_lt p hva) t hd _ (PTINDEX_lt va) with h0 | ⟨_, hlt⟩
      · rw [h0]
        exact h.zero_lt
      · exact hlt
    simp only [Option.map_some]
    rw [if_neg (Nat.not_le.2 hlt)]

/-- There is a page table for the address, and the address is not mapped in it. -/
def Dirty (s : Vm) (p : Proc) (va : Nat) : Bool :=
  (pdeAt s (p, PDINDEX va)).isSome && (mapped s p va).isNone

/-- What removing an address does to the counts. -/
def offBy (δ : Nat → BitVec 32) (dirty : Bool) : Nat → BitVec 32 :=
  if dirty then Function.update δ 0 (δ 0 - 1) else δ

theorem pageRemove_same (s : Vm) (p : Proc) (va : Nat) :
    (Paging.pageRemove s p va).npagesNum = s.npagesNum ∧ (Paging.pageRemove s p va).kind = s.kind := by
  unfold Paging.pageRemove
  split
  · exact ⟨rfl, rfl⟩
  · rename_i f t _
    obtain ⟨_, _, _, _, hnp, hpool⟩ := pageDecreaseRef_spec s f
    exact ⟨hnp, hpool⟩

theorem pageRemove_heapPtr (s : Vm) (p : Proc) (va : Nat) :
    (Paging.pageRemove s p va).heapPtr = s.heapPtr := by
  unfold Paging.pageRemove
  split
  · rfl
  · show (pageDecreaseRef s _).heapPtr = _
    unfold pageDecreaseRef pageFree
    dsimp only
    split <;> rfl

/-- **`page_remove`**. -/
theorem VmInv.pageRemove (h : VmInv δ hand s) (hva : va < UTOP) :
    VmInv (offBy δ (Dirty s p va)) hand (Paging.pageRemove s p va) ∧
      pdeAt (Paging.pageRemove s p va) = pdeAt s ∧ mapped (Paging.pageRemove s p va) p va = none ∧
      ∀ e ∈ pteSlots, e ≠ (p, PDINDEX va, PTINDEX va) →
        pteAt (Paging.pageRemove s p va) e = pteAt s e := by
  have hd := mem_pdeSlots_of_lt p hva
  unfold Paging.pageRemove
  rw [h.pageLookup hva]
  cases ht : pdeAt s (p, PDINDEX va) with
  | none =>
    have hnone : mapped s p va = none := by simp [mapped, pteAt, ht]
    refine ⟨?_, rfl, hnone, fun _ _ _ => rfl⟩
    simpa [offBy, Dirty, ht] using h
  | some t =>
    simp only [Option.map_some]
    generalize hf : (s.table t (PTINDEX va)).frame = f
    obtain ⟨_, _, hpgdir, htable, _, _⟩ := pageDecreaseRef_spec s f
    have hdirs : pdeAt (setPte (pageDecreaseRef s f) t (PTINDEX va) Pte.zero) = pdeAt s :=
      pdeAt_congr hpgdir
    have hptes : pteAt (setPte (pageDecreaseRef s f) t (PTINDEX va) Pte.zero) =
        pteAt (setPte s t (PTINDEX va) Pte.zero) :=
      pteAt_congr hpgdir (by simp only [setPte, htable])
    refine ⟨?_, hdirs, ?_, ?_⟩
    · rcases h.entries _ hd t ht _ (PTINDEX_lt va) with h0 | ⟨hpres, _⟩
      · -- an empty entry: page 0 loses a reference
        have hzero : f = 0 := by rw [← hf, h0]; rfl
        have hdirty : Dirty s p va = true := by
          simp [Dirty, ht, mapped, pteAt_eq ht, h0, Pte.present, Pte.zero]
        rw [hdirty, offBy, if_pos rfl, hzero]
        refine h.decZero.congr rfl rfl ?_ ?_ rfl rfl
        · intro e _
          rfl
        · intro e _ t' _
          by_cases htt : t' = t
          · subst htt
            obtain ⟨_, _, _, htable', _, _⟩ := pageDecreaseRef_spec s 0
            simp only [setPte, Function.update_self, htable']
            rw [Function.update_eq_self_iff]
            exact h0.symm
          · simp [setPte, htt]
      · have hmap : pteAt s (p, PDINDEX va, PTINDEX va) = some f := by
          rw [pteAt_eq ht, if_pos hpres, hf]
        have hclean : Dirty s p va = false := by
          simp [Dirty, mapped, hmap]
        rw [hclean, offBy]
        exact h.unmap hd ht (PTINDEX_lt va) hmap
    · rw [mapped, hptes, pteAt_setPte_self ht]
      rfl
    · intro e he hne
      rw [hptes]
      exact h.pteAt_setPte_of_ne hd ht _ he hne

/-- `pgdir_walk` with `create`: it fails when there is neither a page table nor memory for one. -/
theorem VmInv.pgdirWalk (h : VmInv 0 hand s) (hva : va < UTOP) :
    ∃ o s', Paging.pgdirWalk s p va true = (o, s') ∧ VmInv 0 hand s' ∧
      (∀ e ∈ pteSlots, pteAt s' e = pteAt s e) ∧ (∀ g, refs s g ≤ refs s' g) ∧
      s'.npagesNum = s.npagesNum ∧ s'.kind = s.kind ∧
      (o = none ↔ pdeAt s (p, PDINDEX va) = none ∧ (Paging.pageAlloc s).1 = none) ∧
      ∀ t ∈ o, pdeAt s' (p, PDINDEX va) = some t := by
  have hd := mem_pdeSlots_of_lt p hva
  unfold Paging.pgdirWalk
  dsimp only
  split
  · rename_i hp
    have ht := pdeAt_eq_some.2 ⟨hp, rfl⟩
    refine ⟨_, s, rfl, h, fun _ _ => rfl, fun _ => Nat.le_refl _, rfl, rfl, ?_, ?_⟩
    · simp [ht]
    · intro t hmem
      obtain rfl := Option.some.inj hmem
      exact ht
  · rename_i hp
    have hnone : pdeAt s (p, PDINDEX va) = none := by
      simp [pdeAt, hp]
    rw [if_neg (by decide)]
    rcases h.pageAlloc with ⟨s', hfail, h', hpgdir, htable⟩ | ⟨t, s', hok, h', hpgdir, hzero, htable⟩
    · rw [hfail]
      have hdirs := pdeAt_congr hpgdir
      have hptes := pteAt_congr hpgdir htable
      refine ⟨none, s', rfl, h', fun e _ => by rw [hptes], fun g => ?_, ?_, ?_, ?_, by simp⟩
      · exact (refs_congr (pageAlloc_same s hfail).2 (fun _ _ => by rw [hptes])
          (fun _ _ => by rw [hdirs]) g).ge
      · exact (pageAlloc_same s hfail).1
      · exact (pageAlloc_same s hfail).2
      · simp [hnone]
    · rw [hok]
      have hdirs := pdeAt_congr hpgdir
      have hptes : ∀ e ∈ pteSlots, pteAt s' e = pteAt s e := by
        rintro ⟨p', d', i⟩ he
        have hmem : (p', d') ∈ pdeSlots := mem_pdeSlots.2 (mem_pteSlots.1 he).1
        cases hd' : pdeAt s (p', d') with
        | none => simp [pteAt, hdirs, hd']
        | some t' => rw [pteAt_eq hd', pteAt_eq (by rw [hdirs]; exact hd'), htable _ hmem t' hd']
      obtain ⟨hadd, hself, hptes'⟩ := h'.addTable hd (by rw [hdirs]; exact hnone) hzero
      refine ⟨some t, _, rfl, hadd, fun e he => (hptes' e he).trans (hptes e he), fun g => ?_, ?_, ?_,
        ?_, ?_⟩
      · have hsub : holders pdeSlots (pdeAt s) g ≤ holders pdeSlots
            (pdeAt (setPde (incRef s' t) p (PDINDEX va) ⟨t, PTE_P⟩)) g := by
          refine Finset.card_le_card fun e he => ?_
          obtain ⟨hmem, hg⟩ := Finset.mem_filter.1 he
          refine Finset.mem_filter.2 ⟨hmem, ?_⟩
          have hne : e ≠ (p, PDINDEX va) := by
            rintro rfl
            rw [hnone] at hg
            cases hg
          rw [← hg, ← hdirs]
          exact pdeAt_setPde_of_ne hne _
        have hkind : (setPde (incRef s' t) p (PDINDEX va) ⟨t, PTE_P⟩).kind = s.kind :=
          (pageAlloc_same s hok).2
        rw [refs, refs, holders_congr fun e he => (hptes' e he).trans (hptes e he), kernRef_congr hkind]
        omega
      · exact (pageAlloc_same s hok).1
      · exact (pageAlloc_same s hok).2
      · simp
      · intro t' ht'
        obtain rfl := Option.some.inj ht'
        exact hself

/-- **`page_insert`** of a page that is in hand or in use. -/
theorem VmInv.pageInsert (h : VmInv 0 hand s) (hva : va < UTOP) (hf : f < s.npagesNum)
    (huse : s.kind f = .pool → f ∈ hand ∨ 0 < refs s f) (perm : Nat) :
    ∃ b s', Paging.pageInsert s p f va perm = (b, s') ∧
      (b = false ↔ pdeAt s (p, PDINDEX va) = none ∧ (Paging.pageAlloc s).1 = none) ∧
      VmInv 0 (if b then hand.erase f else hand) s' ∧ (b = true → mapped s' p va = some f) ∧
      ∀ e ∈ pteSlots, e ≠ (p, PDINDEX va, PTINDEX va) → pteAt s' e = pteAt s e := by
  have hd := mem_pdeSlots_of_lt p hva
  have hi := PTINDEX_lt va
  have hmem : (p, PDINDEX va, PTINDEX va) ∈ pteSlots := mem_pteSlots.2 ⟨mem_pdeSlots.1 hd, hi⟩
  obtain ⟨o, s₁, hwalk, h₁, hptes₁, hrefs₁, hnp₁, hpool₁, hfail, htab⟩ := h.pgdirWalk (p := p) hva
  unfold Paging.pageInsert
  rw [hwalk]
  cases o with
  | none => exact ⟨false, s₁, rfl, by simpa using hfail, h₁, by simp, fun e he _ => hptes₁ e he⟩
  | some t =>
    have ht : pdeAt s₁ (p, PDINDEX va) = some t := htab t rfl
    have hpres : (s₁.pgdir p (PDINDEX va)).present = true := (pdeAt_eq_some.1 ht).1
    have hnofail : ¬ (pdeAt s (p, PDINDEX va) = none ∧ (Paging.pageAlloc s).1 = none) :=
      fun hc => by simpa using hfail.2 hc
    have hf₁ : f < s₁.npagesNum := by rw [hnp₁]; exact hf
    -- the rest of the function sees the table `t`
    have hset : ∀ s₂ : Vm, pdeAt s₂ = pdeAt s₁ → ∀ x : Pte,
        pteAt (setPte s₂ t (PTINDEX va) x) (p, PDINDEX va, PTINDEX va) =
          if x.present then some x.frame else none := fun s₂ hs₂ x =>
      pteAt_setPte_self (by rw [hs₂]; exact ht) x
    dsimp only
    split
    · rename_i hsame
      simp only [Bool.and_eq_true, beq_iff_eq] at hsame
      have hmap : pteAt s₁ (p, PDINDEX va, PTINDEX va) = some f := by
        rw [pteAt_eq ht, if_pos hsame.1, hsame.2]
      have hnot : f ∉ hand := fun hin => by
        have := (h₁.inHand f hin).2.2
        have := refs_pos_of_pte (mem_pdeSlots.1 hd) hi hmap
        omega
      have h₂ := (h₁.remap hd ht hi hmap hf₁ perm).orPde hpres perm
      have hdirs := funext (pdeAt_orPde (setPte s₁ t (PTINDEX va) ⟨f, perm ||| PTE_P⟩) p va perm hpres)
      have hptes := pteAt_of_dirs hdirs
        (show (Paging.orPde (setPte s₁ t (PTINDEX va) ⟨f, perm ||| PTE_P⟩) p va perm).table = _ from rfl)
      refine ⟨true, _, rfl, by simpa using hnofail, ?_, fun _ => ?_, fun e he hne => ?_⟩
      · rw [if_pos rfl, List.erase_of_not_mem hnot]
        exact h₂
      · rw [mapped, hptes, hset s₁ rfl, present_or, if_pos rfl]
      · rw [hptes, h₁.pteAt_setPte_of_ne hd ht _ he hne]
        exact hptes₁ e he
    · rename_i hdiff
      -- the entry is empty after a mapping of another frame is removed
      have hclear : ∃ s₂, s₂ = (if (s₁.table t (PTINDEX va)).present = true then
            Paging.pageRemove s₁ p va else s₁) ∧ VmInv 0 hand s₂ ∧ pdeAt s₂ = pdeAt s₁ ∧
          pteAt s₂ (p, PDINDEX va, PTINDEX va) = none ∧
          (∀ e ∈ pteSlots, e ≠ (p, PDINDEX va, PTINDEX va) → pteAt s₂ e = pteAt s₁ e) ∧
          refs s₁ f ≤ refs s₂ f := by
        by_cases hp : (s₁.table t (PTINDEX va)).present = true
        · have hne : (s₁.table t (PTINDEX va)).frame ≠ f := by
            intro he
            simp [hp, he] at hdiff
          have hmap : mapped s₁ p va = some (s₁.table t (PTINDEX va)).frame := by
            rw [mapped, pteAt_eq ht, if_pos hp]
          obtain ⟨hinv, hdirs, hnone, hother⟩ := h₁.pageRemove (p := p) hva
          have hclean : Dirty s₁ p va = false := by simp [Dirty, hmap]
          rw [hclean] at hinv
          refine ⟨_, rfl, ?_⟩
          rw [if_pos hp]
          refine ⟨hinv, hdirs, hnone, hother, ?_⟩
          have hupd := refs_update hmem (pageRemove_same s₁ p va).2 hdirs hother f
          rw [← mapped, hmap, ← mapped, hnone] at hupd
          simp only [Option.some.injEq, hne, if_false, reduceCtorEq] at hupd
          omega
        · refine ⟨_, rfl, ?_⟩
          rw [if_neg hp]
          exact ⟨h₁, rfl, by rw [pteAt_eq ht, if_neg hp], fun _ _ _ => rfl, Nat.le_refl _⟩
      obtain ⟨s₂, hs₂, h₂, hdirs₂, hnone₂, hother₂, hle₂⟩ := hclear
      rw [← hs₂]
      have ht₂ : pdeAt s₂ (p, PDINDEX va) = some t := by rw [hdirs₂]; exact ht
      have hpres₂ : (s₂.pgdir p (PDINDEX va)).present = true := (pdeAt_eq_some.1 ht₂).1
      have hnp₂ : s₂.npagesNum = s₁.npagesNum ∧ s₂.kind = s₁.kind := by
        rw [hs₂]
        split
        · exact pageRemove_same s₁ p va
        · exact ⟨rfl, rfl⟩
      have huse₂ : s₂.kind f = .pool → f ∈ hand ∨ 0 < refs s₂ f := by
        intro hp
        rw [hnp₂.2, hpool₁] at hp
        rcases huse hp with hin | hpos
        · exact .inl hin
        · have := hrefs₁ f
          exact .inr (by omega)
      have h₃ := (h₂.map hd ht₂ hi hnone₂ (by rw [hnp₂.1]; exact hf₁) huse₂ perm).orPde
        hpres₂ perm
      have hdirs := funext (pdeAt_orPde (setPte s₂ t (PTINDEX va) ⟨f, perm ||| PTE_P⟩) p va perm hpres₂)
      have hptes := pteAt_of_dirs hdirs
        (show (Paging.orPde (setPte s₂ t (PTINDEX va) ⟨f, perm ||| PTE_P⟩) p va perm).table = _ from rfl)
      refine ⟨true, _, rfl, by simpa using hnofail, ?_, fun _ => ?_, fun e he hne => ?_⟩
      · rw [if_pos rfl]
        exact h₃
      · show pteAt (Paging.orPde (setPte s₂ t (PTINDEX va) ⟨f, perm ||| PTE_P⟩) p va perm) _ = _
        rw [hptes, hset s₂ hdirs₂, present_or, if_pos rfl]
      · show pteAt (Paging.orPde (setPte s₂ t (PTINDEX va) ⟨f, perm ||| PTE_P⟩) p va perm) _ = _
        rw [hptes, h₂.pteAt_setPte_of_ne hd ht₂ _ he hne, hother₂ e he hne]
        exact hptes₁ e he

/-- `user_page_alloc` gets both pages it may need, or none at all: it gets no page, or there is a page
    table for `va`, or it gets a second page for one. -/
def TableAvail (s : Vm) (p : Proc) (va : Nat) : Prop :=
  (Paging.pageAlloc s).1 = none ∨ (pdeAt s (p, PDINDEX va)).isSome = true ∨
    (Paging.pageAlloc (Paging.pageAlloc s).2).1 ≠ none

theorem update_neg_one_ne_zero (f : Nat) :
    (Function.update (0 : Nat → BitVec 32) f (-1)) ≠ 0 := by
  intro h
  have hone : (-1 : BitVec 32) = 0 := by simpa using congrFun h f
  exact absurd hone (by decide)

/-- **`user_page_alloc`** that passes its checks. -/
theorem VmInv.userPageAlloc (h : VmInv 0 [] s) (hva : va < UTOP) {perm : Nat}
    (hperm : badPerm perm = false) :
    ∃ err s' δ, Paging.userPageAlloc s (some p) va perm = (err, s') ∧ VmInv δ [] s' ∧
      (δ = 0 ↔ TableAvail s p va) ∧
      (err = none → δ = 0 ∧ mapped s' p va ≠ none ∧
        ∀ e ∈ pteSlots, e ≠ (p, PDINDEX va, PTINDEX va) → pteAt s' e = pteAt s e) := by
  unfold Paging.userPageAlloc
  rw [if_neg (by simp [hperm, hva])]
  dsimp only
  rcases h.pageAlloc with ⟨s₁, hfail, h₁, _, _⟩ | ⟨f, s₁, hok, h₁, hpgdir, _, htable⟩
  · rw [hfail]
    refine ⟨_, s₁, 0, rfl, h₁, ?_, by simp⟩
    simp [TableAvail, hfail]
  · rw [hok]
    dsimp only
    have hpf := (h₁.inHand f List.mem_cons_self).1
    obtain ⟨b, s₂, hins, hb, h₂, hmap, hother⟩ := h₁.pageInsert (p := p) hva (h₁.pool_lt f hpf).2
      (fun _ => .inl List.mem_cons_self) perm
    rw [hins]
    rw [pdeAt_congr hpgdir] at hb
    have havail : TableAvail s p va ↔ b = true := by
      have hb' : b = true ↔ ¬ (pdeAt s (p, PDINDEX va) = none ∧ (Paging.pageAlloc s₁).1 = none) := by
        rw [← hb]
        simp
      rw [TableAvail, hok, hb']
      cases pdeAt s (p, PDINDEX va) <;> simp
    cases b with
    | false =>
      refine ⟨_, _, _, rfl, VmInv.leak (by simpa using h₂), ?_, by simp⟩
      rw [havail]
      exact ⟨fun h0 => absurd h0 (update_neg_one_ne_zero f), fun hf => by cases hf⟩
    | true =>
      refine ⟨_, _, 0, rfl, by simpa using h₂, by simp [havail], fun _ => ⟨rfl, ?_, ?_⟩⟩
      · rw [hmap rfl]
        simp
      · intro e he hne
        rw [hother e he hne]
        obtain ⟨p', d', i⟩ := e
        have hmem : (p', d') ∈ pdeSlots := mem_pdeSlots.2 (mem_pteSlots.1 he).1
        cases hd : pdeAt s (p', d') with
        | none => simp [pteAt, pdeAt_congr hpgdir, hd]
        | some t =>
          rw [pteAt_eq hd, pteAt_eq (by rw [pdeAt_congr hpgdir]; exact hd), htable _ hmem t hd]

/-- **`user_page_map`**. -/
theorem VmInv.userPageMap (h : VmInv 0 [] s) (src dst : Option Proc) (vaS vaD perm : Nat) :
    ∃ err s', Paging.userPageMap s src vaS dst vaD perm = (err, s') ∧ VmInv 0 [] s' ∧
      (err = none → ∃ pD, dst = some pD ∧ mapped s' pD vaD ≠ none ∧
        ∀ e ∈ pteSlots, e ≠ (pD, PDINDEX vaD, PTINDEX vaD) → pteAt s' e = pteAt s e) := by
  unfold Paging.userPageMap
  split
  · exact ⟨_, s, rfl, h, by simp⟩
  rename_i hS
  split
  · exact ⟨_, s, rfl, h, by simp⟩
  rename_i hD
  split
  · exact ⟨_, s, rfl, h, by simp⟩
  split
  · rename_i pS pD
    have hvaS : vaS < UTOP := by omega
    have hvaD : vaD < UTOP := by omega
    rw [h.pageLookup hvaS]
    cases ht : pdeAt s (pS, PDINDEX vaS) with
    | none => exact ⟨_, s, rfl, h, by simp⟩
    | some t =>
      simp only [Option.map_some]
      split
      · exact ⟨_, s, rfl, h, by simp⟩
      · -- the page is mapped, or it is page 0
        have hentry := h.entries _ (mem_pdeSlots_of_lt pS hvaS) t ht _ (PTINDEX_lt vaS)
        have hlt : (s.table t (PTINDEX vaS)).frame < s.npagesNum := by
          rcases hentry with h0 | ⟨_, hlt⟩
          · rw [h0]
            exact h.zero_lt
          · exact hlt
        have huse : s.kind (s.table t (PTINDEX vaS)).frame = .pool →
            (s.table t (PTINDEX vaS)).frame ∈ [] ∨ 0 < refs s (s.table t (PTINDEX vaS)).frame := by
          intro hp
          rcases hentry with h0 | ⟨hpres, _⟩
          · have := (h.pool_lt _ hp).1
            rw [h0] at this
            exact absurd this (Nat.lt_irrefl 0)
          · exact .inr (refs_pos_of_pte (PDINDEX_lt hvaS) (PTINDEX_lt vaS)
              (by rw [pteAt_eq ht, if_pos hpres]))
        obtain ⟨b, s', hins, _, h', hmap, hother⟩ := h.pageInsert (p := pD) hvaD hlt huse perm
        rw [hins]
        cases b with
        | false => exact ⟨_, s', rfl, h', by simp⟩
        | true => exact ⟨_, s', rfl, by simpa using h', fun _ => ⟨pD, rfl, by simp [hmap], hother⟩⟩
  · exact ⟨_, s, rfl, h, by simp⟩

/-! ## §2 Heap -/

/-- `k` references too many were taken from page 0. -/
def atZero (k : Nat) : Nat → BitVec 32 := Function.update 0 0 (-(k : BitVec 32))

theorem offBy_atZero (k : Nat) (dirty : Bool) :
    offBy (atZero k) dirty = atZero (k + if dirty then 1 else 0) := by
  unfold offBy atZero
  cases dirty with
  | false => simp
  | true =>
    simp only [if_true, Function.update_self, Function.update_idem]
    congr 1
    push_cast
    ring

/-- Two pages of the address space have different entries. -/
theorem slot_ne {a b : Nat} (ha : PGSIZE ∣ a) (hb : PGSIZE ∣ b) (hau : a < UTOP) (hbu : b < UTOP)
    (hne : a ≠ b) (p : Proc) : (p, PDINDEX a, PTINDEX a) ≠ (p, PDINDEX b, PTINDEX b) := by
  obtain ⟨x, rfl⟩ := ha
  obtain ⟨y, rfl⟩ := hb
  intro heq
  simp only [Prod.mk.injEq, true_and, PDINDEX, PTINDEX, PDENTRIES, PGSIZE, UTOP] at heq hau hbu hne
  omega

theorem Dirty_congr {a : Nat} (hdirs : pdeAt s' = pdeAt s) (hmap : mapped s' p a = mapped s p a) :
    Dirty s' p a = Dirty s p a := by
  unfold Dirty
  rw [hdirs, hmap]

/-- The pages from `lo` up to `hi`. -/
def pagesUp (lo hi : Nat) : List Nat := (List.range ((hi - lo) / PGSIZE)).map (lo + PGSIZE * ·)

theorem mem_pagesUp {lo hi a : Nat} (h : a ∈ pagesUp lo hi) (hlo : PGSIZE ∣ lo) :
    lo ≤ a ∧ a < hi ∧ PGSIZE ∣ a := by
  obtain ⟨k, hk, rfl⟩ := List.mem_map.1 h
  rw [List.mem_range, Nat.lt_div_iff_mul_lt (by decide)] at hk
  refine ⟨Nat.le_add_right _ _, ?_, (Nat.dvd_add_right hlo).2 (Nat.dvd_mul_right _ _)⟩
  have hpg : PGSIZE = 4096 := rfl
  rw [hpg] at hk ⊢
  omega

theorem pagesUp_cons {lo hi : Nat} (hlo : PGSIZE ∣ lo) (hhi : PGSIZE ∣ hi) (hlt : lo < hi) :
    pagesUp lo hi = lo :: pagesUp (lo + PGSIZE) hi := by
  obtain ⟨x, rfl⟩ := hlo
  obtain ⟨y, rfl⟩ := hhi
  have hxy : x < y := Nat.lt_of_mul_lt_mul_left hlt
  have hn : (PGSIZE * y - PGSIZE * x) / PGSIZE = (PGSIZE * y - (PGSIZE * x + PGSIZE)) / PGSIZE + 1 := by
    simp only [PGSIZE]
    omega
  unfold pagesUp
  rw [hn, List.range_succ_eq_map, List.map_cons, List.map_map]
  simp only [Nat.mul_zero, Nat.add_zero, List.cons.injEq, true_and]
  refine List.map_congr_left fun k _ => ?_
  simp only [Function.comp, PGSIZE]
  omega

theorem pagesUp_concat {lo hi : Nat} (hlo : PGSIZE ∣ lo) (hhi : PGSIZE ∣ hi) (hlt : lo < hi) :
    pagesUp lo hi = pagesUp lo (hi - PGSIZE) ++ [hi - PGSIZE] := by
  obtain ⟨x, rfl⟩ := hlo
  obtain ⟨y, rfl⟩ := hhi
  have hxy : x < y := Nat.lt_of_mul_lt_mul_left hlt
  have hn : (PGSIZE * y - PGSIZE * x) / PGSIZE = (PGSIZE * y - PGSIZE - PGSIZE * x) / PGSIZE + 1 := by
    simp only [PGSIZE]
    omega
  unfold pagesUp
  rw [hn, List.range_succ, List.map_append]
  simp only [List.map_cons, List.map_nil]
  have hlast : PGSIZE * x + PGSIZE * ((PGSIZE * y - PGSIZE - PGSIZE * x) / PGSIZE) =
      PGSIZE * y - PGSIZE := by
    simp only [PGSIZE]
    omega
  rw [hlast]

/-- The loop of `sbrk` takes a reference from page 0 for each page that is not mapped. -/
theorem VmInv.sbrkLoop {k lo hi : Nat} (fuel : Nat) (h : VmInv (atZero k) [] s) (hlo : PGSIZE ∣ lo)
    (hhi : PGSIZE ∣ hi) (hu : hi ≤ UTOP) (hfuel : (hi - lo) / PGSIZE ≤ fuel) :
    VmInv (atZero (k + (pagesUp lo hi).countP (Dirty s p))) [] (Paging.sbrkLoop p hi fuel lo s) := by
  induction fuel generalizing lo s k with
  | zero =>
    have hnil : pagesUp lo hi = [] := by
      unfold pagesUp
      rw [Nat.le_zero.1 hfuel]
      rfl
    rw [hnil]
    exact h
  | succ fuel ih =>
    unfold Paging.sbrkLoop
    split
    · rename_i hlt
      obtain ⟨hinv, hdirs, _, hother⟩ := h.pageRemove (p := p) (lt_of_lt_of_le hlt hu)
      rw [offBy_atZero] at hinv
      have hmod : (lo + PGSIZE) % 2 ^ 32 = lo + PGSIZE := by
        refine Nat.mod_eq_of_lt ?_
        simp only [PGSIZE, UTOP] at *
        omega
      rw [hmod, pagesUp_cons hlo hhi hlt, List.countP_cons]
      have hrest := ih hinv ((Nat.dvd_add_right hlo).2 (Nat.dvd_refl _)) (by
        simp only [PGSIZE] at *
        omega)
      -- the other pages are as dirty as before
      have hcount : (pagesUp (lo + PGSIZE) hi).countP (Dirty (Paging.pageRemove s p lo) p) =
          (pagesUp (lo + PGSIZE) hi).countP (Dirty s p) := by
        refine List.countP_congr fun a ha => ?_
        obtain ⟨h1, h2, h3⟩ := mem_pagesUp ha ((Nat.dvd_add_right hlo).2 (Nat.dvd_refl _))
        have hau : a < UTOP := lt_of_lt_of_le h2 hu
        have hne : a ≠ lo := by
          simp only [PGSIZE] at h1
          omega
        have hmem : (p, PDINDEX a, PTINDEX a) ∈ pteSlots :=
          mem_pteSlots.2 ⟨PDINDEX_lt hau, PTINDEX_lt a⟩
        rw [Dirty_congr hdirs (hother _ hmem (slot_ne h3 hlo hau (lt_of_lt_of_le hlt hu) hne p))]
      rw [hcount] at hrest
      rwa [Nat.add_right_comm, Nat.add_assoc] at hrest
    · rename_i hge
      have hnil : pagesUp lo hi = [] := by
        unfold pagesUp
        rw [Nat.sub_eq_zero_of_le (Nat.not_lt.1 hge)]
        rfl
      rw [hnil]
      exact h

theorem VmInv.setHeapPtr (h : VmInv δ hand s) (p : Proc) (a : Nat) :
    VmInv δ hand (Paging.setHeapPtr s p a) :=
  h.congr rfl rfl (fun _ _ => rfl) (fun _ _ _ _ => rfl) rfl rfl

/-- The loop of `brk` does the same from the top. -/
theorem VmInv.brkLoop {k lo : Nat} (fuel : Nat) (h : VmInv (atZero k) [] s) (hlo : PGSIZE ∣ lo)
    (hhi : PGSIZE ∣ s.heapPtr p) (hu : s.heapPtr p ≤ UTOP)
    (hfuel : (s.heapPtr p - lo) / PGSIZE ≤ fuel) :
    VmInv (atZero (k + (pagesUp lo (s.heapPtr p)).countP (Dirty s p))) []
      (Paging.brkLoop p lo fuel s) := by
  induction fuel generalizing s k with
  | zero =>
    have hnil : pagesUp lo (s.heapPtr p) = [] := by
      unfold pagesUp
      rw [Nat.le_zero.1 hfuel]
      rfl
    rw [hnil]
    exact h
  | succ fuel ih =>
    unfold Paging.brkLoop
    split
    · rename_i hlt
      have hge : PGSIZE ≤ s.heapPtr p - lo := Nat.le_of_dvd (by omega) (Nat.dvd_sub hhi hlo)
      have hmod : (s.heapPtr p + 2 ^ 32 - PGSIZE) % 2 ^ 32 = s.heapPtr p - PGSIZE := by
        simp only [PGSIZE, UTOP] at *
        omega
      have hau : s.heapPtr p - PGSIZE < UTOP := by
        simp only [PGSIZE, UTOP] at *
        omega
      have hadvd : PGSIZE ∣ s.heapPtr p - PGSIZE := Nat.dvd_sub hhi (Nat.dvd_refl _)
      dsimp only
      rw [hmod]
      obtain ⟨hinv, hdirs, _, hother⟩ :=
        (h.setHeapPtr p (s.heapPtr p - PGSIZE)).pageRemove (p := p) hau
      rw [offBy_atZero] at hinv
      generalize hs' : Paging.pageRemove (Paging.setHeapPtr s p (s.heapPtr p - PGSIZE)) p
        (s.heapPtr p - PGSIZE) = s' at hinv hdirs hother
      have hheap : s'.heapPtr p = s.heapPtr p - PGSIZE := by
        rw [← hs', pageRemove_heapPtr]
        simp [Paging.setHeapPtr]
      have hfuel' : (s.heapPtr p - PGSIZE - lo) / PGSIZE ≤ fuel := by
        clear hinv hdirs hother hs' hheap ih h
        simp only [PGSIZE] at *
        omega
      have hrest := ih hinv (by rw [hheap]; exact hadvd) (by rw [hheap]; omega) (by
        rw [hheap]
        exact hfuel')
      have hcount : (pagesUp lo (s.heapPtr p - PGSIZE)).countP (Dirty s' p) =
          (pagesUp lo (s.heapPtr p - PGSIZE)).countP (Dirty s p) := by
        refine List.countP_congr fun a ha => ?_
        obtain ⟨_, h2, h3⟩ := mem_pagesUp ha hlo
        have hmem : (p, PDINDEX a, PTINDEX a) ∈ pteSlots :=
          mem_pteSlots.2 ⟨PDINDEX_lt (h2.trans hau), PTINDEX_lt a⟩
        rw [Dirty_congr (s := s) hdirs
          (hother _ hmem (slot_ne h3 hadvd (h2.trans hau) hau (Nat.ne_of_lt h2) p))]
      rw [hheap, hcount] at hrest
      have hfirst : Dirty (Paging.setHeapPtr s p (s.heapPtr p - PGSIZE)) p (s.heapPtr p - PGSIZE) =
          Dirty s p (s.heapPtr p - PGSIZE) := rfl
      rw [hfirst] at hrest
      rw [pagesUp_concat hlo hhi hlt, List.countP_append, List.countP_singleton]
      rwa [Nat.add_right_comm, Nat.add_assoc] at hrest
    · rename_i hge
      have hnil : pagesUp lo (s.heapPtr p) = [] := by
        unfold pagesUp
        rw [Nat.sub_eq_zero_of_le (Nat.not_lt.1 hge)]
        rfl
      rw [hnil]
      exact h

/-- The pages that `sbrk` removes. -/
def sbrkPages (s : Vm) (p : Proc) (n : Int) : List Nat :=
  let baseAddr := s.heapPtr p
  let endAddr := ROUNDDOWN ((baseAddr + 2 ^ 32 - (n % 2 ^ 32).toNat % 0x7fffffff) % 2 ^ 32)
  if n < 0 ∧ ROUNDUP (s.baseMemSz p) ≤ endAddr then pagesUp endAddr baseAddr else []

/-- The pages that `brk` removes. -/
def brkPages (s : Vm) (p : Proc) (heapBreak : Nat) : List Nat :=
  if heapBreak < s.heapPtr p ∧ ROUNDUP (s.baseMemSz p) ≤ ROUNDDOWN heapBreak then
    pagesUp (ROUNDDOWN heapBreak) (s.heapPtr p)
  else []

theorem dvd_ROUNDDOWN (a : Nat) : PGSIZE ∣ ROUNDDOWN a := Nat.dvd_sub_mod a

/-- An address space has less than `2 ^ 20` pages below `UTOP`. -/
theorem pages_lt (lo : Nat) {hi : Nat} (hu : hi ≤ UTOP) : (hi - lo) / PGSIZE < 2 ^ 20 := by
  simp only [PGSIZE, UTOP] at *
  omega

/-- The count of page 0 is right after all if no page was removed that was not mapped. -/
theorem atZero_eq_zero_iff {l : List Nat} (hl : l.length < 2 ^ 20) :
    atZero (0 + l.countP (Dirty s p)) = 0 ↔ ∀ a ∈ l, Dirty s p a = false := by
  have hle := List.countP_le_length (p := Dirty s p) (l := l)
  have hzero : atZero (0 + l.countP (Dirty s p)) = 0 ↔ l.countP (Dirty s p) = 0 := by
    rw [Nat.zero_add, atZero]
    constructor
    · intro h
      have h0 : -((l.countP (Dirty s p) : Nat) : BitVec 32) = 0 := by simpa using congrFun h 0
      have hnat := congrArg BitVec.toNat (neg_eq_zero.1 h0)
      rw [BitVec.natCast_eq_ofNat, BitVec.toNat_ofNat, Nat.mod_eq_of_lt (by omega)] at hnat
      exact hnat
    · intro h
      rw [h]
      simp
  rw [hzero, List.countP_eq_zero]
  simp only [Bool.not_eq_true]

theorem length_pagesUp (lo hi : Nat) : (pagesUp lo hi).length = (hi - lo) / PGSIZE := by
  simp [pagesUp]

theorem VmInv.atZero (h : VmInv 0 hand s) : VmInv (atZero 0) hand s := by
  have h0 : Paging.atZero 0 = 0 := by simp [Paging.atZero]
  rwa [h0]

/-- **`sbrk`** takes a reference from page 0 for each page it removes that is not mapped. -/
theorem VmInv.sbrk (h : VmInv 0 [] s) (hheap : PGSIZE ∣ s.heapPtr p) (hu : s.heapPtr p ≤ UTOP)
    (n : Int) : ∃ δ, VmInv δ [] (Paging.sbrk s p n) ∧
      (δ = 0 ↔ ∀ a ∈ sbrkPages s p n, Dirty s p a = false) := by
  unfold Paging.sbrk sbrkPages
  dsimp only
  generalize (s.heapPtr p + 2 ^ 32 - (n % 2 ^ 32).toNat % 0x7fffffff) % 2 ^ 32 = e
  by_cases hn : n < 0
  · rw [if_pos hn]
    split
    · rename_i hlow
      rw [if_neg fun hc => Nat.not_le.2 hlow hc.2]
      exact ⟨0, h, by simp⟩
    · rename_i hlow
      rw [if_pos ⟨hn, Nat.not_lt.1 hlow⟩]
      have hinv := (h.setHeapPtr p (ROUNDDOWN e)).atZero
      have hlen := pages_lt (ROUNDDOWN e) hu
      refine ⟨_, hinv.sbrkLoop (2 ^ 20) (dvd_ROUNDDOWN e) hheap hu (Nat.le_of_lt hlen), ?_⟩
      exact atZero_eq_zero_iff (by rwa [length_pagesUp])
  · rw [if_neg hn]
    -- a heap that grows gets no pages yet
    refine ⟨0, ?_, by simp [hn]⟩
    split
    · split
      · exact h
      · exact h.setHeapPtr p _
    · exact h

/-- **`brk`** does the same. -/
theorem VmInv.brk (h : VmInv 0 [] s) (hheap : PGSIZE ∣ s.heapPtr p) (hu : s.heapPtr p ≤ UTOP)
    (heapBreak : Nat) : ∃ δ, VmInv δ [] (Paging.brk s p heapBreak) ∧
      (δ = 0 ↔ ∀ a ∈ brkPages s p heapBreak, Dirty s p a = false) := by
  unfold Paging.brk brkPages
  split
  · rename_i hgt
    refine ⟨0, ?_, by simp [Nat.lt_asymm hgt]⟩
    split
    · exact h.setHeapPtr p _
    · exact h
  · split
    · rename_i hlt
      split
      · rename_i hlow
        rw [if_neg fun hc => Nat.not_le.2 hlow hc.2]
        exact ⟨0, h, by simp⟩
      · rename_i hlow
        rw [if_pos ⟨hlt, Nat.not_lt.1 hlow⟩]
        have hlen := pages_lt (ROUNDDOWN heapBreak) hu
        refine ⟨_, h.atZero.brkLoop (2 ^ 20) (dvd_ROUNDDOWN heapBreak) hheap hu (Nat.le_of_lt hlen), ?_⟩
        exact atZero_eq_zero_iff (by rwa [length_pagesUp])
    · rename_i hge
      rw [if_neg fun hc => hge hc.1]
      exact ⟨0, h, by simp⟩

/-! ## §3 Exit and copy-on-write faults -/

/-- A page table that maps nothing is taken out of its page directory. -/
theorem VmInv.dropTable {d : Nat} (h : VmInv δ hand s) (hd : (p, d) ∈ pdeSlots)
    (ht : pdeAt s (p, d) = some t) (hempty : ∀ i < PDENTRIES, s.table t i = Pte.zero) :
    VmInv δ hand (setPde (pageDecreaseRef s t) p d Pte.zero) := by
  obtain ⟨href, halloc, hpgdir, htable, hnp, hpool⟩ := pageDecreaseRef_spec s t
  have hpos := refs_pos_of_pde hd ht
  have hpt := (h.tables _ hd t ht).1
  generalize hs' : setPde (pageDecreaseRef s t) p d Pte.zero = s'
  have hself : pdeAt s' (p, d) = none := by
    rw [← hs']
    simp [pdeAt, setPde, Pte.present, Pte.zero]
  have hother : ∀ e, e ≠ (p, d) → pdeAt s' e = pdeAt s e := by
    intro e hne
    rw [← hs', pdeAt_setPde_of_ne hne, pdeAt_congr hpgdir]
  have hsub : ∀ e t', pdeAt s' e = some t' → e ≠ (p, d) ∧ pdeAt s e = some t' := by
    intro e t' ht'
    have hne : e ≠ (p, d) := by
      rintro rfl
      rw [hself] at ht'
      cases ht'
    exact ⟨hne, (hother e hne).symm.trans ht'⟩
  have htab : s'.table = s.table := by
    rw [← hs']
    exact htable
  have hptes : ∀ e ∈ pteSlots, pteAt s' e = pteAt s e := by
    rintro ⟨p', d', i⟩ he
    by_cases hpd : (p', d') = (p, d)
    · obtain ⟨rfl, rfl⟩ := Prod.mk.inj hpd
      rw [pteAt_eq ht, hempty i (mem_pteSlots.1 he).2]
      simp [pteAt, hself, Pte.present, Pte.zero]
    · simp [pteAt, hother _ hpd, htab]
  have hrefs : ∀ g, refs s' g + (if g = t then 1 else 0) = refs s g := by
    intro g
    have hupd := holders_update hd (fun e _ hne => hother e hne) g
    have hkind : s'.kind = s.kind := by
      rw [← hs']
      exact hpool
    have hiff : (some t = some g) ↔ g = t := by
      rw [Option.some.injEq]
      exact eq_comm
    rw [ht, hself, if_congr hiff rfl rfl] at hupd
    rw [refs, refs, holders_congr hptes, kernRef_congr hkind]
    simp only [reduceCtorEq, if_false] at hupd
    omega
  have hne : ∀ g, g ≠ t → refs s' g = refs s g := fun g hg => by simpa [hg] using hrefs g
  have hrt : refs s' t + 1 = refs s t := by simpa using hrefs t
  have hδ : δ t = 0 := by
    by_contra hn
    have := h.off t hpt hn
    omega
  have hnew : s.pRef t - 1 = (refs s' t : BitVec 32) + δ t := by
    rw [h.count t, ← hrt]
    push_cast
    ring
  have hzero : s.pRef t - 1 = 0 ↔ refs s' t = 0 := by
    rw [hnew, hδ, add_zero]
    exact cast_refs_eq_zero_iff _ t
  have hall : s'.allocated = if s.pRef t - 1 = 0 then Function.update s.allocated t false
      else s.allocated := by
    rw [← hs']
    exact halloc
  have hkeep : ∀ g, g ≠ t → s'.allocated g = s.allocated g := by
    intro g hg
    rw [hall]
    split
    · rw [Function.update_of_ne hg]
    · rfl
  have hsame : s'.kind = s.kind ∧ s'.npagesNum = s.npagesNum := by
    rw [← hs']
    exact ⟨hpool, hnp⟩
  have hth : t ∉ hand := fun hin => by
    have := (h.inHand t hin).2.2
    omega
  refine ⟨?_, ?_, ?_, ?_, ?_, ?_, ?_, ?_, h.nodup, ?_⟩
  · rw [hsame.1, hsame.2]
    exact h.pool_lt
  · rw [hsame.2]
    exact h.zero_lt
  · intro e he e' he' t' ht₁ ht₂
    exact h.dirs e he e' he' t' (hsub e t' ht₁).2 (hsub e' t' ht₂).2
  · intro e he t' ht'
    obtain ⟨hne', ht''⟩ := hsub e t' ht'
    have htt : t' ≠ t := by
      rintro rfl
      exact hne' (h.dirs e he _ hd t' ht'' ht)
    rw [hsame.1, hkeep t' htt]
    exact h.tables e he t' ht''
  · intro e he t' ht' i hi
    rw [htab, hsame.2]
    exact h.entries e he t' (hsub e t' ht').2 i hi
  · intro g
    have hrefs' : s'.pRef = Function.update s.pRef t (s.pRef t - 1) := by
      rw [← hs']
      exact href
    rw [hrefs']
    by_cases hg : g = t
    · rw [hg, Function.update_self, hnew]
    · rw [Function.update_of_ne hg, hne g hg]
      exact h.count g
  · intro g hg hh hδg
    rw [hsame.1] at hg
    by_cases hgt : g = t
    · subst hgt
      rw [hall]
      have hold := (h.tables _ hd g ht).2
      split
      · rename_i h0
        rw [Function.update_self]
        have := hzero.1 h0
        simp [this]
      · rename_i h0
        have : refs s' g ≠ 0 := fun hz => h0 (hzero.2 hz)
        simp [hold, Nat.pos_of_ne_zero this]
    · rw [hkeep g hgt, hne g hgt]
      exact h.alloc g hg hh hδg
  · intro g hg
    have hgt : g ≠ t := by
      rintro rfl
      exact hth hg
    rw [hsame.1, hkeep g hgt, hne g hgt]
    exact h.inHand g hg
  · intro g hg hδg
    rw [hsame.1] at hg
    have hgt : g ≠ t := by
      rintro rfl
      exact hδg hδ
    rw [hne g hgt]
    exact h.off g hg hδg

/-- The first `n` entries of a page table are cleared. -/
def clearTable (s : Vm) (t n : Nat) : Nat → Nat → Pte :=
  Function.update s.table t fun i => if i < n then Pte.zero else s.table t i

/-- The state `s` with the page tables `tb`. -/
def withTable (s : Vm) (tb : Nat → Nat → Pte) : Vm := { s with table := tb }

theorem clearTable_succ (s : Vm) (t n : Nat) : clearTable s t (n + 1) =
    Function.update (clearTable s t n) t (Function.update (clearTable s t n t) n Pte.zero) := by
  unfold clearTable
  rw [Function.update_self, Function.update_idem]
  congr 1
  funext i
  by_cases hin : i = n
  · simp [hin]
  · have hiff : i < n + 1 ↔ i < n := by omega
    simp [Function.update_of_ne hin, hiff]

theorem clearTable_succ_of_zero (h0 : s.table t n = Pte.zero) :
    clearTable s t (n + 1) = clearTable s t n := by
  have hold : clearTable s t n t n = Pte.zero := by simp [clearTable, h0]
  rw [clearTable_succ, ← hold, Function.update_eq_self, Function.update_eq_self]

theorem freePtes_same (s : Vm) (t n : Nat) :
    (freePtes s t n).table = s.table ∧ (freePtes s t n).pgdir = s.pgdir ∧
      (freePtes s t n).npagesNum = s.npagesNum ∧ (freePtes s t n).kind = s.kind ∧
      (freePtes s t n).rootproc = s.rootproc := by
  induction n with
  | zero => exact ⟨rfl, rfl, rfl, rfl, rfl⟩
  | succ n ih =>
    unfold freePtes
    dsimp only
    split
    · obtain ⟨_, _, hpgdir, htable, hnp, hpool⟩ := pageDecreaseRef_spec (freePtes s t n)
        ((freePtes s t n).table t n).frame
      refine ⟨htable.trans ih.1, hpgdir.trans ih.2.1, hnp.trans ih.2.2.1, hpool.trans ih.2.2.2.1, ?_⟩
      rw [← ih.2.2.2.2]
      unfold pageDecreaseRef pageFree
      dsimp only
      split <;> rfl
    · exact ih

/-- The inner loop of `pgdir_free`, with the entries cleared that it has dealt with. -/
theorem VmInv.freePtes {d : Nat} (h : VmInv δ hand s) (hd : (p, d) ∈ pdeSlots)
    (ht : pdeAt s (p, d) = some t) (n : Nat) (hn : n ≤ PDENTRIES) :
    VmInv δ hand (withTable (Paging.freePtes s t n) (clearTable s t n)) := by
  induction n with
  | zero =>
    refine h.congr rfl rfl (fun _ _ => rfl) (fun _ _ t' _ => ?_) rfl rfl
    simp [withTable, clearTable]
  | succ n ih =>
    have hinv := ih (Nat.le_of_succ_le hn)
    obtain ⟨htab, hpgdir, hnp, hpool, _⟩ := freePtes_same s t n
    have ht' : pdeAt (withTable (Paging.freePtes s t n) (clearTable s t n)) (p, d) = some t := by
      exact (congrFun (pdeAt_congr (s := s) hpgdir) _).trans ht
    have hclear : clearTable s t n t n = s.table t n := by simp [clearTable]
    unfold Paging.freePtes
    dsimp only
    rw [htab]
    split
    · rename_i hpres
      have hmap : pteAt (withTable (Paging.freePtes s t n) (clearTable s t n)) (p, d, n) =
          some (s.table t n).frame := by
        rw [pteAt_eq ht']
        show (if (clearTable s t n t n).present then some (clearTable s t n t n).frame else none) = _
        rw [hclear, if_pos hpres]
      have hun := hinv.unmap hd ht' hn hmap
      obtain ⟨href, halloc, hdir, _, hnp', hpool'⟩ :=
        pageDecreaseRef_spec (withTable (Paging.freePtes s t n) (clearTable s t n)) (s.table t n).frame
      obtain ⟨href₂, halloc₂, hdir₂, _, hnp₂, hpool₂⟩ :=
        pageDecreaseRef_spec (Paging.freePtes s t n) (s.table t n).frame
      refine hun.congr (hnp₂.trans hnp'.symm) (hpool₂.trans hpool'.symm) ?_ ?_ (href₂.trans href.symm)
        (halloc₂.trans halloc.symm)
      · intro e _
        exact congrFun (pdeAt_congr (hdir₂.trans hdir.symm)) e
      · intro e _ t' _
        have hset := (pageDecreaseRef_spec (withTable (Paging.freePtes s t n) (clearTable s t n))
          (s.table t n).frame).2.2.2.1
        unfold setPte
        dsimp only
        rw [hset, clearTable_succ]
        rfl
    · rename_i habs
      have h0 : s.table t n = Pte.zero := by
        rcases h.entries _ hd t ht n hn with h0 | ⟨hpres, _⟩
        · exact h0
        · exact absurd hpres habs
      rw [clearTable_succ_of_zero h0]
      exact hinv

/-- One round of the outer loop of `pgdir_free`. -/
theorem VmInv.freePde {d n : Nat} (h : VmInv δ hand s) (hd : (p, d) ∈ pdeSlots)
    (ht : pdeAt s (p, d) = some t) (hn : n = PDENTRIES) :
    VmInv δ hand (setPde (pageDecreaseRef (Paging.freePtes s t n) t) p d Pte.zero) := by
  have hclear := h.freePtes hd ht n (Nat.le_of_eq hn)
  obtain ⟨htab, hpgdir, hnp, hpool, _⟩ := freePtes_same s t n
  have hdrop := hclear.dropTable hd ((congrFun (pdeAt_congr (s := s) hpgdir) _).trans ht)
    (fun i hi => by simp [withTable, clearTable, hn, hi])
  obtain ⟨href, halloc, hdir, htab', hnp', hpool'⟩ :=
    pageDecreaseRef_spec (withTable (Paging.freePtes s t n) (clearTable s t n)) t
  obtain ⟨href₂, halloc₂, hdir₂, htab₂, hnp₂, hpool₂⟩ :=
    pageDecreaseRef_spec (Paging.freePtes s t n) t
  refine hdrop.congr (hnp₂.trans hnp'.symm) (hpool₂.trans hpool'.symm) ?_ ?_ (href₂.trans href.symm)
    (halloc₂.trans halloc.symm)
  · intro e _
    refine congrFun (pdeAt_congr ?_) e
    simp only [setPde, hdir, hdir₂]
    rfl
  · -- the table that was freed is in no page directory any more
    intro e he t' ht'
    have hne : e ≠ (p, d) := by
      rintro rfl
      simp [pdeAt, setPde, Pte.present, Pte.zero] at ht'
    rw [pdeAt_setPde_of_ne hne, pdeAt_congr (hdir.trans hpgdir)] at ht'
    have htt : t' ≠ t := by
      rintro rfl
      exact hne (h.dirs e he _ hd t' ht' ht)
    refine (congrFun htab₂ t').trans ((congrFun htab' t').trans ?_).symm
    rw [htab]
    simp [withTable, clearTable, htt]

/-- The outer loop of `pgdir_free`. -/
theorem VmInv.freePdes (h : VmInv δ hand s) (n : Nat) (hn : n ≤ PDINDEX UTOP) :
    VmInv δ hand (Paging.freePdes s p n) := by
  induction n with
  | zero => exact h
  | succ n ih =>
    have hinv := ih (Nat.le_of_succ_le hn)
    unfold Paging.freePdes
    dsimp only
    split
    · rename_i hpres
      refine hinv.freePde (mem_pdeSlots.2 hn) ?_ rfl
      simp [pdeAt, hpres]
    · exact hinv

/-- **`exit`** gives all references of the process back. -/
theorem VmInv.exit (h : VmInv δ hand s) (p : Proc) : VmInv δ hand (Paging.exit s p) := by
  unfold Paging.exit
  split
  · exact h
  · exact h.freePdes _ (Nat.le_refl _)

/-- **`user_page_upmap`** of a page that is mapped. -/
theorem VmInv.userPageUpmap (h : VmInv 0 [] s) (hva : va < UTOP) (hmap : mapped s p va ≠ none) :
    Paging.userPageUpmap s (some p) va = (none, Paging.pageRemove s p va) ∧
      VmInv 0 [] (Paging.pageRemove s p va) := by
  have hclean : Dirty s p va = false := by
    rw [Dirty, Option.isNone_eq_false_iff.2 (Option.isSome_iff_ne_none.2 hmap), Bool.and_false]
  refine ⟨?_, ?_⟩
  · unfold Paging.userPageUpmap
    rw [if_neg (Nat.not_le.2 hva)]
  · have hrem := (h.pageRemove (p := p) hva).1
    rwa [hclean] at hrem

theorem ROUNDDOWN_slot (va : Nat) :
    PDINDEX (ROUNDDOWN va) = PDINDEX va ∧ PTINDEX (ROUNDDOWN va) = PTINDEX va := by
  simp only [PDINDEX, PTINDEX, ROUNDDOWN, PGSIZE, PDENTRIES]
  omega

theorem mapped_ROUNDDOWN (s : Vm) (p : Proc) (va : Nat) :
    mapped s p (ROUNDDOWN va) = mapped s p va := by
  unfold mapped
  rw [(ROUNDDOWN_slot va).1, (ROUNDDOWN_slot va).2]

/-- A page that was mapped stays mapped when only the entry of another one is written, and that one
    is mapped then. -/
theorem mapped_of_other {a b : Nat} (ha : a < UTOP) (hmap : mapped s p a ≠ none)
    (hb : mapped s' p b ≠ none)
    (hother : ∀ e ∈ pteSlots, e ≠ (p, PDINDEX b, PTINDEX b) → pteAt s' e = pteAt s e) :
    mapped s' p a ≠ none := by
  by_cases hslot : (p, PDINDEX a, PTINDEX a) = (p, PDINDEX b, PTINDEX b)
  · unfold mapped at hb ⊢
    rwa [hslot]
  · unfold mapped at hmap ⊢
    rwa [hother _ (mem_pteSlots.2 ⟨PDINDEX_lt ha, PTINDEX_lt a⟩) hslot]

theorem memmove_spec (s : Vm) (p : Proc) (dst src : Nat) : ∃ data, memmove s p dst src = { s with data } := by
  unfold memmove
  split
  · exact ⟨_, rfl⟩
  · exact ⟨s.data, rfl⟩

/-- **`cow_pgfault`** on a page that is mapped. -/
theorem VmInv.cowPgfault (h : VmInv 0 [] s) (hva : va < UTOP) (hmap : mapped s p va ≠ none) :
    ∃ δ, VmInv δ [] (Paging.cowPgfault s p va) ∧ (δ = 0 ↔ TableAvail s p PFTEMP) := by
  have htemp : PFTEMP < UTOP := by decide
  have hra : ROUNDDOWN va < UTOP := (Nat.sub_le _ _).trans_lt hva
  obtain ⟨err, s₁, δ, halloc, h₁, hδ, hok⟩ := h.userPageAlloc (p := p) htemp
    (show badPerm PTE_USTK = false by decide)
  unfold Paging.cowPgfault
  rw [halloc]
  cases err with
  | some e => exact ⟨δ, h₁.exit p, hδ⟩
  | none =>
    obtain ⟨rfl, htmp₁, hother₁⟩ := hok rfl
    refine ⟨0, ?_, hδ⟩
    dsimp only
    have hmap₁ : mapped s₁ p (ROUNDDOWN va) ≠ none := by
      refine mapped_of_other hra ?_ htmp₁ hother₁
      rwa [mapped_ROUNDDOWN]
    obtain ⟨data, hmove⟩ := memmove_spec s₁ p PFTEMP (ROUNDDOWN va)
    have h₂ : VmInv 0 [] (memmove s₁ p PFTEMP (ROUNDDOWN va)) := by
      rw [hmove]
      exact h₁.congr rfl rfl (fun _ _ => rfl) (fun _ _ _ _ => rfl) rfl rfl
    have hmap₂ : mapped (memmove s₁ p PFTEMP (ROUNDDOWN va)) p (ROUNDDOWN va) ≠ none := by
      rw [hmove]
      exact hmap₁
    obtain ⟨hup, h₃⟩ := h₂.userPageUpmap hra hmap₂
    rw [hup]
    dsimp only
    -- the copy is mapped over the page that has just been removed
    obtain ⟨err, s₄, hum, h₄, hok₄⟩ := h₃.userPageMap (some p) (some p) PFTEMP (ROUNDDOWN va) PTE_USTK
    rw [hum]
    cases err with
    | some e => exact h₄.exit p
    | none =>
      dsimp only
      obtain ⟨pD, hpD, hra₄, hother₄⟩ := hok₄ rfl
      obtain rfl := Option.some.inj hpD
      have htmp₄ : mapped s₄ p PFTEMP ≠ none := by
        by_cases hslot : (p, PDINDEX PFTEMP, PTINDEX PFTEMP) =
            (p, PDINDEX (ROUNDDOWN va), PTINDEX (ROUNDDOWN va))
        · unfold mapped at hra₄ ⊢
          rwa [hslot]
        · have hmem : (p, PDINDEX PFTEMP, PTINDEX PFTEMP) ∈ pteSlots :=
            mem_pteSlots.2 ⟨PDINDEX_lt htemp, PTINDEX_lt PFTEMP⟩
          unfold mapped
          rw [hother₄ _ hmem hslot, (h₂.pageRemove (p := p) hra).2.2.2 _ hmem hslot, hmove]
          exact htmp₁
      obtain ⟨hup₄, h₅⟩ := h₄.userPageUpmap htemp htmp₄
      rw [hup₄]
      exact h₅

end Calls

/-! ## §4 Runs -/

/-- The calls; a process that `pid2proc` does not find is `none`. -/
inductive Op where
  | userPageAlloc (target : Option Proc) (va perm : Nat)
  | userPageMap (src : Option Proc) (vaS : Nat) (dst : Option Proc) (vaD perm : Nat)
  | userPageUpmap (target : Option Proc) (va : Nat)
  | sbrk (p : Proc) (n : Int)
  | brk (p : Proc) (heapBreak : Nat)
  | cowFault (p : Proc) (faltVa : Nat)

def next (s : Vm) : Op → Vm
  | .userPageAlloc target va perm => (userPageAlloc s target va perm).2
  | .userPageMap src vaS dst vaD perm => (userPageMap s src vaS dst vaD perm).2
  | .userPageUpmap target va => (userPageUpmap s target va).2
  | .sbrk p n => sbrk s p n
  | .brk p heapBreak => brk s p heapBreak
  | .cowFault p faltVa => cowPgfault s p faltVa

def step (s : Vm) (o : Op) : Except Unit Vm := .ok (next s o)

/-- The entry for `va` is present and marked copy-on-write. -/
def CowPage (s : Vm) (p : Proc) (va : Nat) : Bool :=
  match pdeAt s (p, PDINDEX va) with
  | none => false
  | some t => (s.table t (PTINDEX va)).present && (s.table t (PTINDEX va)).perm &&& PTE_COW != 0

/-- The heap is made of pages below `UTOP`, and `page_fault_handler` calls `cow_pgfault` on pages
    that are marked copy-on-write. -/
def Allowed (s : Vm) : Op → Prop
  | .userPageAlloc _ _ _ | .userPageMap _ _ _ _ _ | .userPageUpmap _ _ => True
  | .sbrk p _ | .brk p _ => PGSIZE ∣ s.heapPtr p ∧ s.heapPtr p ≤ UTOP
  | .cowFault p faltVa => faltVa < UTOP ∧ CowPage s p faltVa = true

/-- The calls that get the counts right: pages are removed only where a page is mapped or the page
    table is missing too, and `user_page_alloc` finds a page table or memory for one. -/
def Counted (s : Vm) : Op → Prop
  | .userPageAlloc target va perm =>
    UTOP ≤ va ∨ badPerm perm = true ∨ ∀ p ∈ target, TableAvail s p va
  | .userPageMap _ _ _ _ _ => True
  | .userPageUpmap target va => UTOP ≤ va ∨ ∀ p ∈ target, Dirty s p va = false
  | .sbrk p n => ∀ a ∈ sbrkPages s p n, Dirty s p a = false
  | .brk p heapBreak => ∀ a ∈ brkPages s p heapBreak, Dirty s p a = false
  | .cowFault p _ => TableAvail s p PFTEMP

/-- Page tables are proper: each is named by one directory entry, comes from `page_alloc`, and its
    entries are empty or map a page of the machine. -/
structure PageTablesOk (s : Vm) : Prop where
  pool_lt : ∀ f, s.kind f = .pool → 0 < f ∧ f < s.npagesNum
  zero_lt : 0 < s.npagesNum
  dirs : ∀ e ∈ pdeSlots, ∀ e' ∈ pdeSlots, ∀ t, pdeAt s e = some t → pdeAt s e' = some t → e = e'
  tables : ∀ e ∈ pdeSlots, ∀ t, pdeAt s e = some t → s.kind t = .pool
  entries : ∀ e ∈ pdeSlots, ∀ t, pdeAt s e = some t → ∀ i < PDENTRIES,
    s.table t i = Pte.zero ∨ (s.table t i).present = true ∧ (s.table t i).frame < s.npagesNum

/-- Reference counts are right: `p_ref` is the number of mappings, and a frame is with the allocator
    exactly when there is none. -/
def RefsOk (s : Vm) : Prop :=
  (∀ f, (s.pRef f).toNat = mappings s f) ∧
    ∀ f, s.kind f = .pool → (s.allocated f = true ↔ 0 < mappings s f)

section Runs

variable {s s' : Vm} {δ : Nat → BitVec 32}

/-- A page table is named once, and is none of the kernel's. -/
theorem mappings_eq_refs (hdirs : ∀ e ∈ pdeSlots, ∀ e' ∈ pdeSlots, ∀ t, pdeAt s e = some t →
      pdeAt s e' = some t → e = e')
    (htables : ∀ e ∈ pdeSlots, ∀ t, pdeAt s e = some t → s.kind t = .pool) (f : Nat) :
    mappings s f = refs s f := by
  have hle : holders pdeSlots (pdeAt s) f ≤ 1 :=
    holders_le_one fun e he e' he' ht ht' => hdirs e he e' he' f ht ht'
  unfold mappings refs kernRef
  by_cases hpos : 0 < holders pdeSlots (pdeAt s) f
  · obtain ⟨e, he, ht⟩ := holders_pos_iff.1 hpos
    have hkind := htables e he f ht
    rw [if_pos (.inl hpos), if_neg (by simp [hkind])]
    omega
  · have h0 : holders pdeSlots (pdeAt s) f = 0 := by omega
    simp [h0]

theorem mappings_lt (s : Vm) (f : Nat) : mappings s f < 2 ^ 32 - 1 := by
  have hle := holders_le pteSlots (pteAt s) f
  rw [card_pteSlots] at hle
  unfold mappings
  split <;> omega

theorem VmInv.mappings_eq_refs {hand : List Nat} (h : VmInv δ hand s) (f : Nat) :
    mappings s f = refs s f :=
  Paging.mappings_eq_refs h.dirs (fun e he t ht => (h.tables e he t ht).1) f

/-- The counts are right when nothing is off. -/
theorem VmInv.refsOk_iff_delta (h : VmInv δ [] s) : RefsOk s ↔ δ = 0 := by
  constructor
  · rintro ⟨hcount, _⟩
    funext f
    have href := h.count f
    have hcast : s.pRef f = (refs s f : BitVec 32) := by
      rw [← h.mappings_eq_refs f, ← hcount f, BitVec.natCast_eq_ofNat, BitVec.ofNat_toNat,
        BitVec.setWidth_eq]
    rw [hcast] at href
    simpa using href.symm
  · rintro rfl
    refine ⟨fun f => ?_, fun f hf => ?_⟩
    · rw [h.count f, h.mappings_eq_refs f]
      simp only [Pi.zero_apply, add_zero, BitVec.natCast_eq_ofNat, BitVec.toNat_ofNat]
      exact Nat.mod_eq_of_lt (refs_lt s f)
    · rw [h.mappings_eq_refs f]
      exact h.alloc f hf (List.not_mem_nil) rfl

/-- A state with proper page tables and right counts. -/
theorem PageTablesOk.vmInv (h : PageTablesOk s) (hrefs : RefsOk s) : VmInv 0 [] s := by
  have hmap := Paging.mappings_eq_refs h.dirs h.tables
  refine ⟨h.pool_lt, h.zero_lt, h.dirs, fun e he t ht => ?_, h.entries, fun f => ?_,
    fun f hf _ _ => ?_, by simp, List.nodup_nil, fun _ _ h0 => absurd rfl h0⟩
  · have hkind := h.tables e he t ht
    refine ⟨hkind, (hrefs.2 t hkind).2 ?_⟩
    rw [hmap]
    exact refs_pos_of_pde (p := e.1) (d := e.2) he ht
  · have hcount := hrefs.1 f
    rw [← hmap f, ← hcount]
    simp
  · rw [← hmap f]
    exact hrefs.2 f hf

theorem mapped_of_cowPage {p : Proc} {va : Nat} (h : CowPage s p va = true) : mapped s p va ≠ none := by
  unfold CowPage at h
  cases ht : pdeAt s (p, PDINDEX va) with
  | none => simp [ht] at h
  | some t =>
    rw [ht] at h
    have hpres := (Bool.and_eq_true _ _ ▸ h).1
    simp [mapped, pteAt_eq ht, hpres]

/-- **One call.** Counts are off by `δ` after it, and not at all when the call is counted. -/
theorem step_spec (h : VmInv 0 [] s) (o : Op) (hV : Allowed s o) :
    ∃ δ, VmInv δ [] (next s o) ∧ (δ = 0 ↔ Counted s o) := by
  cases o with
  | userPageAlloc target va perm =>
    by_cases hcheck : UTOP ≤ va ∨ badPerm perm = true
    · have hsame : userPageAlloc s target va perm = (some .inval, s) := by
        unfold userPageAlloc
        rw [if_pos hcheck]
      refine ⟨0, ?_, by simpa [Counted] using hcheck.imp_right .inl⟩
      simp only [next, hsame]
      exact h
    · obtain ⟨hva, hperm⟩ := not_or.1 hcheck
      cases target with
      | none =>
        have hsame : userPageAlloc s none va perm = (some .badProc, s) := by
          unfold userPageAlloc
          rw [if_neg hcheck]
        refine ⟨0, ?_, by simp [Counted]⟩
        simp only [next, hsame]
        exact h
      | some p =>
        obtain ⟨err, s', δ, hcall, h', hδ, _⟩ := h.userPageAlloc (p := p) (Nat.not_le.1 hva)
          (Bool.not_eq_true _ ▸ hperm)
        refine ⟨δ, ?_, ?_⟩
        · simp only [next, hcall]
          exact h'
        · rw [hδ]
          simp [Counted, hva, hperm]
  | userPageMap src vaS dst vaD perm =>
    obtain ⟨err, s', hcall, h', _⟩ := h.userPageMap src dst vaS vaD perm
    refine ⟨0, ?_, by simp [Counted]⟩
    simp only [next, hcall]
    exact h'
  | userPageUpmap target va =>
    by_cases hva : UTOP ≤ va
    · have hsame : userPageUpmap s target va = (some .inval, s) := by
        unfold userPageUpmap
        rw [if_pos hva]
      refine ⟨0, ?_, by simp [Counted, hva]⟩
      simp only [next, hsame]
      exact h
    · cases target with
      | none =>
        have hsame : userPageUpmap s none va = (some .badProc, s) := by
          unfold userPageUpmap
          rw [if_neg hva]
        refine ⟨0, ?_, by simp [Counted]⟩
        simp only [next, hsame]
        exact h
      | some p =>
        have hcall : userPageUpmap s (some p) va = (none, pageRemove s p va) := by
          unfold userPageUpmap
          rw [if_neg hva]
        refine ⟨offBy 0 (Dirty s p va), ?_, ?_⟩
        · simp only [next, hcall]
          exact (h.pageRemove (Nat.not_le.1 hva)).1
        · simp only [Counted, hva, false_or, Option.mem_some_iff, forall_eq']
          cases Dirty s p va with
          | false => simp [offBy]
          | true => simp [offBy]
  | sbrk p n => exact h.sbrk hV.1 hV.2 n
  | brk p heapBreak => exact h.brk hV.1 hV.2 heapBreak
  | cowFault p faltVa => exact h.cowPgfault hV.1 (mapped_of_cowPage hV.2)

/-- **When reference counts are right**: from a state with proper page tables and right counts, in any
    sequence of page calls, heap changes and copy-on-write faults of any processes, the counts are
    right after every call exactly when each call is counted. -/
theorem refsOk_iff (hwf : PageTablesOk s) (hrefs : RefsOk s) {os : List Op}
    (hos : Meets step Allowed s os) :
    Along step (fun _ _ s' => RefsOk s') s os ↔ Meets step Counted s os := by
  refine along_iff_meets (VmInv 0 []) (fun s o h hV hC => ?_) (fun s o s' h hV hC hok => ?_)
    (hwf.vmInv hrefs) hos
  · obtain ⟨δ, h', hδ⟩ := step_spec h o hV
    obtain rfl := hδ.2 hC
    exact ⟨_, rfl, h'.refsOk_iff_delta.2 rfl, h'⟩
  · obtain ⟨δ, h', hδ⟩ := step_spec h o hV
    obtain rfl : next s o = s' := Except.ok.inj hok
    exact fun hQ => hC (hδ.1 (h'.refsOk_iff_delta.1 hQ))

end Runs

instance (s : Vm) (p : Proc) (va : Nat) : Decidable (TableAvail s p va) :=
  inferInstanceAs (Decidable (_ ∨ _ ∨ _))

instance (s : Vm) : (o : Op) → Decidable (Allowed s o)
  | .userPageAlloc _ _ _ | .userPageMap _ _ _ _ _ | .userPageUpmap _ _ => isTrue trivial
  | .sbrk p _ | .brk p _ => inferInstanceAs (Decidable (PGSIZE ∣ s.heapPtr p ∧ s.heapPtr p ≤ UTOP))
  | .cowFault p faltVa => inferInstanceAs (Decidable (faltVa < UTOP ∧ CowPage s p faltVa = true))

instance (s : Vm) : (o : Op) → Decidable (Counted s o)
  | .userPageAlloc target va perm =>
    inferInstanceAs (Decidable (UTOP ≤ va ∨ badPerm perm = true ∨ ∀ p ∈ target, TableAvail s p va))
  | .userPageMap _ _ _ _ _ => isTrue trivial
  | .userPageUpmap target va =>
    inferInstanceAs (Decidable (UTOP ≤ va ∨ ∀ p ∈ target, Dirty s p va = false))
  | .sbrk p n => inferInstanceAs (Decidable (∀ a ∈ sbrkPages s p n, Dirty s p a = false))
  | .brk p heapBreak => inferInstanceAs (Decidable (∀ a ∈ brkPages s p heapBreak, Dirty s p a = false))
  | .cowFault p _ => inferInstanceAs (Decidable (TableAvail s p PFTEMP))

/-- A machine of 64 pages without user pages. `page_alloc` will hand out the frames of `supply`, which
    are among the last 48, and the kernel has a page table in frame 8. -/
def vmInit (supply : List (Option Nat)) : Vm where
  npagesNum := 64
  kind f := if f = 8 then .kernTable else if 16 ≤ f ∧ f < 64 then .pool else .other
  supply := supply
  pgdir _ _ := Pte.zero
  table _ _ := Pte.zero
  data _ _ := 0
  pRef f := if f = 8 then 1 else 0
  allocated _ := false
  heapPtr _ := UTEXT + 2 * PGSIZE
  baseMemSz _ := UTEXT
  rootproc := 0

theorem pdeAt_vmInit (supply : List (Option Nat)) (e : Proc × Nat) :
    pdeAt (vmInit supply) e = none :=
  if_neg (show ¬ Pte.zero.present = true by decide)

theorem vmInit_pageTablesOk (supply : List (Option Nat)) : PageTablesOk (vmInit supply) where
  pool_lt f hf := by
    simp only [vmInit] at hf ⊢
    split at hf
    · cases hf
    · split at hf
      · omega
      · cases hf
  zero_lt := Nat.zero_lt_succ 63
  dirs e _ e' _ t ht _ := by simp [pdeAt_vmInit] at ht
  tables e _ t ht := by simp [pdeAt_vmInit] at ht
  entries e _ t ht := by simp [pdeAt_vmInit] at ht

theorem vmInit_refsOk (supply : List (Option Nat)) : RefsOk (vmInit supply) := by
  have hpde : ∀ f, holders pdeSlots (pdeAt (vmInit supply)) f = 0 := fun f =>
    holders_eq_zero_iff.2 fun e _ => by simp [pdeAt_vmInit]
  have hpte : ∀ f, holders pteSlots (pteAt (vmInit supply)) f = 0 := fun f =>
    holders_eq_zero_iff.2 fun e _ => by simp [pteAt, pdeAt_vmInit]
  refine ⟨fun f => ?_, fun f hf => ?_⟩
  · rw [mappings, hpte, hpde]
    simp only [vmInit]
    by_cases hf : f = 8
    · simp [hf]
    · have hne : (if 16 ≤ f ∧ f < 64 then FrameKind.pool else .other) ≠ .kernTable := by
        split <;> simp
      simp [hf, hne]
  · rw [mappings, hpte, hpde, hf]
    simp [vmInit]

/-- Pages are allocated, shared, copied and given back. -/
def pageRun : List Op :=
  [.userPageAlloc (some 1) UTEXT PTE_USTK,
    .userPageMap (some 1) UTEXT (some 2) (UTEXT + PGSIZE) (PTE_P ||| PTE_U ||| PTE_COW),
    .cowFault 2 (UTEXT + PGSIZE + 4),
    .userPageAlloc (some 2) UTEXT PTE_USTK,
    .brk 2 UTEXT,
    .userPageUpmap (some 1) UTEXT]

theorem refsOk_pageRun :
    Meets step Allowed (vmInit [some 16, some 17, some 18, some 19, some 20, some 21]) pageRun ∧
      Along step (fun _ _ s' => RefsOk s') (vmInit [some 16, some 17, some 18, some 19, some 20, some 21])
        pageRun := by
  have hos : Meets step Allowed (vmInit [some 16, some 17, some 18, some 19, some 20, some 21])
      pageRun := by decide +kernel
  exact ⟨hos, (refsOk_iff (vmInit_pageTablesOk _) (vmInit_refsOk _) hos).2 (by decide +kernel)⟩

/-- One page is mapped, and the next one is unmapped. -/
def upmapRun : List Op :=
  [.userPageAlloc (some 1) UTEXT PTE_USTK] ++ [.userPageUpmap (some 1) (UTEXT + PGSIZE)]

/-- **The address of a page that is not mapped is removed**: `p_ref` of page 0 wraps around. -/
theorem unmapped_page_removed :
    Meets step Allowed (vmInit [some 16, some 17]) upmapRun ∧
      ¬ Along step (fun _ _ s' => RefsOk s') (vmInit [some 16, some 17]) upmapRun := by
  refine ⟨by decide +kernel, fun hall => ?_⟩
  obtain ⟨t, t', hrun, hrefs⟩ := hall.last
  have hzero : (upmapRun.foldlM step (vmInit [some 16, some 17])).toOption.map
      (fun s => (s.pRef 0).toNat) = some (2 ^ 32 - 1) := by
    decide +kernel
  have hp : (t'.pRef 0).toNat = 2 ^ 32 - 1 := by
    have hrun' : upmapRun.foldlM step (vmInit [some 16, some 17]) = .ok t' := hrun
    rw [hrun'] at hzero
    exact Option.some.inj hzero
  -- there are far fewer entries than that
  have hlt := mappings_lt t' 0
  have hcount := hrefs.1 0
  omega

end WeiOS.Paging
