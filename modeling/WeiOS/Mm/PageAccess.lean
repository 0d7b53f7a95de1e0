import Mathlib
import WeiOS.Lib.Run
import WeiOS.Mm.PageCalls

/-!
# User Pages and the Frames Behind Them

`user_page_alloc`, `user_page_map`, `user_page_upmap` and `ipc_try_send` of `kern/sysfunc.c`: which frames
they put into user page tables. A frame comes from `page_alloc` in the same call, or from the source of a
mapping. `page_lookup` does not look at `PTE_P`: when the source has a page table but no page at the
address, it returns page 0, which is then mapped for the target.

## Main results
- `access_iff`: the runs in which all calls stay within the frames they may use.
- `page_zero_mapped`: a run in which a process gets page 0.
-/

namespace WeiOS.PageAccess

open WeiOS.Lib WeiOS.Paging

/-! ## §1 Calls -/

/-- Memory, and what `ipc_recv` and `ipc_try_send` leave in the processes. -/
structure Sys where
  vm : Vm
  ipcRecving : Proc → Bool
  ipcDstva : Proc → Nat
  ipcPerm : Proc → Nat
  ipcFrom : Proc → Proc
  ipcValue : Proc → Nat
  /-- Ghost: the frames that `page_alloc` handed out for user mappings. -/
  userFrames : List Nat

inductive IpcErr where
  | badProc
  | ipcNotRecv
  | inval
  | noMem
  deriving DecidableEq

/-- What an accepted message leaves in the receiver. -/
def deliver (s : Sys) (cur receiver : Proc) (value perm : Nat) : Sys :=
  { s with
    ipcPerm := Function.update s.ipcPerm receiver perm
    ipcRecving := Function.update s.ipcRecving receiver false
    ipcFrom := Function.update s.ipcFrom receiver cur
    ipcValue := Function.update s.ipcValue receiver value }

/-- Both sides of a message want a page. -/
def SendsPage (s : Sys) (receiver : Proc) (srcva : Nat) : Prop :=
  s.ipcDstva receiver < UTOP ∧ srcva < UTOP

instance (s : Sys) (receiver : Proc) (srcva : Nat) : Decidable (SendsPage s receiver srcva) :=
  inferInstanceAs (Decidable (_ ∧ _))

/-- `ipc_try_send` by process `cur`; `target` is the process that `pid2proc` finds. -/
def ipcTrySend (s : Sys) (cur : Proc) (target : Option Proc) (value srcva perm : Nat) :
    Option IpcErr × Sys :=
  match target with
  | none => (some .badProc, s)
  | some receiver =>
    if s.ipcRecving receiver = false then (some .ipcNotRecv, s)
    else if SendsPage s receiver srcva then
      if srcva % PGSIZE ≠ 0 then (some .inval, s)
      else
        match pageLookup s.vm cur srcva with
        | none => (some .inval, s)
        | some (f, t) =>
          if badPerm perm then (some .inval, s)
          else if perm &&& PTE_W ≠ 0 ∧ (s.vm.table t (PTINDEX srcva)).perm &&& PTE_W = 0 then
            (some .inval, s)
          else
            match pageInsert s.vm receiver f (s.ipcDstva receiver) perm with
            | (false, vm) => (some .noMem, { s with vm })
            | (true, vm) => (none, deliver { s with vm } cur receiver value perm)
    else (none, deliver s cur receiver value 0)

/-- `ipc_recv` up to its sleep. -/
def ipcRecv (s : Sys) (cur : Proc) (dstva : Nat) : Sys :=
  if dstva < UTOP ∧ dstva % PGSIZE ≠ 0 then s
  else
    { s with
      ipcDstva := Function.update s.ipcDstva cur dstva
      ipcRecving := Function.update s.ipcRecving cur true }

/-- The calls; a process that `pid2proc` does not find is `none`. -/
inductive Op where
  | userPageAlloc (target : Option Proc) (va perm : Nat)
  | userPageMap (src : Option Proc) (vaS : Nat) (dst : Option Proc) (vaD perm : Nat)
  | userPageUpmap (target : Option Proc) (va : Nat)
  | ipcTrySend (cur : Proc) (target : Option Proc) (value srcva perm : Nat)
  | ipcRecv (cur : Proc) (dstva : Nat)

def next (s : Sys) : Op → Sys
  | .userPageAlloc target va perm =>
    { s with
      vm := (userPageAlloc s.vm target va perm).2
      userFrames :=
        if (userPageAlloc s.vm target va perm).1 = none then (pageAlloc s.vm).1.toList ++ s.userFrames
        else s.userFrames }
  | .userPageMap src vaS dst vaD perm => { s with vm := (userPageMap s.vm src vaS dst vaD perm).2 }
  | .userPageUpmap target va => { s with vm := (userPageUpmap s.vm target va).2 }
  | .ipcTrySend cur target value srcva perm => (ipcTrySend s cur target value srcva perm).2
  | .ipcRecv cur dstva => ipcRecv s cur dstva

def step (s : Sys) (o : Op) : Except Unit Sys := .ok (next s o)

/-! ## §2 What the calls may do -/

/-- The page table entry for `va`, empty if there is no page table. -/
def pteOf (s : Vm) (p : Proc) (va : Nat) : Pte :=
  match pdeAt s (p, PDINDEX va) with
  | none => Pte.zero
  | some t => s.table t (PTINDEX va)

/-- The source of a mapping: the address is mapped there, and writable if `perm` says so. -/
def Offered (s : Vm) (p : Proc) (va perm : Nat) : Prop :=
  mapped s p va ≠ none ∧ (perm &&& PTE_W ≠ 0 → (pteOf s p va).perm &&& PTE_W ≠ 0)

/-- A successful mapping, or a message that carries a page, has a source that offers it. -/
def SourceOk (s : Sys) : Op → Prop
  | .userPageMap (some pS) vaS dst vaD perm =>
    (userPageMap s.vm (some pS) vaS dst vaD perm).1 = none → Offered s.vm pS vaS perm
  | .ipcTrySend cur (some receiver) value srcva perm =>
    SendsPage s receiver srcva → (ipcTrySend s cur (some receiver) value srcva perm).1 = none →
      Offered s.vm cur srcva perm
  | _ => True

/-- Every frame in user space was handed out for a user mapping. -/
def FramesOk (s : Sys) : Prop :=
  ∀ p va f, va < UTOP → mapped s.vm p va = some f → f ∈ s.userFrames

def AccessOk (s : Sys) (o : Op) (s' : Sys) : Prop := SourceOk s o ∧ FramesOk s'

/-- `page_insert` gets a page table for `va`. -/
def TableFor (s : Vm) (p : Proc) (va : Nat) : Prop :=
  ¬ (pdeAt s (p, PDINDEX va) = none ∧ (pageAlloc s).1 = none)

instance (s : Vm) (p : Proc) (va : Nat) : Decidable (TableFor s p va) :=
  inferInstanceAs (Decidable (¬ (_ ∧ _)))

/-- The source has a page table without a page at the address, the mapping is not to be writable, and
    there is a page table for it, or memory for one. -/
def FromNowhere (s : Vm) (pS : Proc) (vaS : Nat) (pD : Proc) (vaD perm : Nat) : Prop :=
  vaS < UTOP ∧ vaS % PGSIZE = 0 ∧ vaD < UTOP ∧ badPerm perm = false ∧ perm &&& PTE_W = 0 ∧
    Dirty s pS vaS = true ∧ TableFor s pD vaD

instance (s : Vm) (pS : Proc) (vaS : Nat) (pD : Proc) (vaD perm : Nat) :
    Decidable (FromNowhere s pS vaS pD vaD perm) :=
  inferInstanceAs (Decidable (_ ∧ _ ∧ _ ∧ _ ∧ _ ∧ _ ∧ _))

/-- The call does not map from nowhere. -/
def Sourced (s : Sys) : Op → Prop
  | .userPageMap (some pS) vaS (some pD) vaD perm =>
    ¬ (vaD % PGSIZE = 0 ∧ FromNowhere s.vm pS vaS pD vaD perm)
  | .ipcTrySend cur (some receiver) _ srcva perm =>
    ¬ (s.ipcRecving receiver = true ∧ FromNowhere s.vm cur srcva receiver (s.ipcDstva receiver) perm)
  | _ => True

instance (s : Sys) : (o : Op) → Decidable (Sourced s o)
  | .userPageMap (some pS) vaS (some pD) vaD perm =>
    inferInstanceAs (Decidable (¬ (vaD % PGSIZE = 0 ∧ FromNowhere s.vm pS vaS pD vaD perm)))
  | .ipcTrySend cur (some receiver) _ srcva perm =>
    inferInstanceAs (Decidable (¬ (s.ipcRecving receiver = true ∧
      FromNowhere s.vm cur srcva receiver (s.ipcDstva receiver) perm)))
  | .userPageMap none _ _ _ _ | .userPageMap (some _) _ none _ _ | .ipcTrySend _ none _ _ _
  | .userPageAlloc _ _ _ | .userPageUpmap _ _ | .ipcRecv _ _ => isTrue trivial

/-! ## §3 Counts that do not matter -/

/-- The memories `s` and `t` differ at most in what is known about page 0, and in the counts of the frames
    `leaked`. -/
def Like (leaked : List Nat) (s t : Vm) : Prop :=
  (∃ r a, t = { s with pRef := r, allocated := a }) ∧
    (∀ f, f ≠ 0 → f ∉ leaked → t.pRef f = s.pRef f) ∧
    ∀ f, s.kind f = .pool → t.allocated f = s.allocated f

variable {s t : Vm} {leaked hand : List Nat} {p : Proc} {va f perm : Nat}

theorem Like.refl (s : Vm) : Like leaked s s := ⟨⟨_, _, rfl⟩, fun _ _ _ => rfl, fun _ _ => rfl⟩

theorem Like.pdeAt (h : Like leaked s t) : Paging.pdeAt t = Paging.pdeAt s := by
  obtain ⟨⟨r, a, rfl⟩, _, _⟩ := h
  rfl

theorem Like.pteAt (h : Like leaked s t) : Paging.pteAt t = Paging.pteAt s := by
  obtain ⟨⟨r, a, rfl⟩, _, _⟩ := h
  rfl

theorem Like.mapped (h : Like leaked s t) : Paging.mapped t = Paging.mapped s := by
  obtain ⟨⟨r, a, rfl⟩, _, _⟩ := h
  rfl

theorem Like.dirty (h : Like leaked s t) : Dirty t = Dirty s := by
  obtain ⟨⟨r, a, rfl⟩, _, _⟩ := h
  rfl

theorem Like.pteOf (h : Like leaked s t) : PageAccess.pteOf t = PageAccess.pteOf s := by
  obtain ⟨⟨r, a, rfl⟩, _, _⟩ := h
  rfl

theorem Like.table (h : Like leaked s t) : t.table = s.table := by
  obtain ⟨⟨r, a, rfl⟩, _, _⟩ := h
  rfl

theorem Like.pageLookup (h : Like leaked s t) : Paging.pageLookup t = Paging.pageLookup s := by
  obtain ⟨⟨r, a, rfl⟩, _, _⟩ := h
  funext p va
  unfold Paging.pageLookup
  rw [pgdirWalk_false, pgdirWalk_false]
  rfl

theorem Like.setPte (h : Like leaked s t) (n i : Nat) (e : Pte) :
    Like leaked (Paging.setPte s n i e) (Paging.setPte t n i e) := by
  obtain ⟨⟨r, a, rfl⟩, hr, ha⟩ := h
  exact ⟨⟨r, a, rfl⟩, hr, ha⟩

theorem Like.setPde (h : Like leaked s t) (p : Proc) (d : Nat) (e : Pte) :
    Like leaked (Paging.setPde s p d e) (Paging.setPde t p d e) := by
  obtain ⟨⟨r, a, rfl⟩, hr, ha⟩ := h
  exact ⟨⟨r, a, rfl⟩, hr, ha⟩

theorem Like.orPde (h : Like leaked s t) (p : Proc) (va perm : Nat) :
    Like leaked (Paging.orPde s p va perm) (Paging.orPde t p va perm) := by
  obtain ⟨⟨r, a, rfl⟩, hr, ha⟩ := h
  exact ⟨⟨r, a, rfl⟩, hr, ha⟩

theorem Like.incRef (h : Like leaked s t) (hf : f ∉ leaked) :
    Like leaked (Paging.incRef s f) (Paging.incRef t f) := by
  obtain ⟨⟨r, a, rfl⟩, hr, ha⟩ := h
  refine ⟨⟨_, a, rfl⟩, fun g hg hnot => ?_, ha⟩
  by_cases hgf : g = f
  · subst hgf
    show Function.update r g (r g + 1) g = Function.update s.pRef g (s.pRef g + 1) g
    rw [Function.update_self, Function.update_self, show r g = s.pRef g from hr g hg hnot]
  · show Function.update r f _ g = Function.update s.pRef f _ g
    rw [Function.update_of_ne hgf, Function.update_of_ne hgf]
    exact hr g hg hnot

theorem pageDecreaseRef_eq (s : Vm) (f : Nat) : Paging.pageDecreaseRef s f =
    { s with
      pRef := Function.update s.pRef f (s.pRef f - 1)
      allocated := if s.pRef f - 1 = 0 then Function.update s.allocated f false else s.allocated } := by
  unfold Paging.pageDecreaseRef pageFree
  simp only [Function.update_self]
  split <;> rfl

/-- Page 0 is none of the pool, so nobody asks whether it is allocated. -/
theorem Like.pageDecreaseRef (h : Like leaked s t) (hzero : s.kind 0 ≠ .pool) (hf : f ∉ leaked) :
    Like leaked (Paging.pageDecreaseRef s f) (Paging.pageDecreaseRef t f) := by
  obtain ⟨⟨r, a, rfl⟩, hr, ha⟩ := h
  rw [pageDecreaseRef_eq, pageDecreaseRef_eq]
  refine ⟨⟨_, _, rfl⟩, fun g hg hnot => ?_, fun g hg => ?_⟩
  · by_cases hgf : g = f
    · subst hgf
      simp only [Function.update_self]
      rw [show r g = s.pRef g from hr g hg hnot]
    · simp only [Function.update_of_ne hgf]
      exact hr g hg hnot
  · have hag : a g = s.allocated g := ha g hg
    have hg0 : g ≠ 0 := by
      rintro rfl
      exact hzero hg
    show (if r f - 1 = 0 then Function.update a f false else a) g =
      (if s.pRef f - 1 = 0 then Function.update s.allocated f false else s.allocated) g
    by_cases hgf : g = f
    · subst hgf
      rw [show r g = s.pRef g from hr g hg0 hf]
      split
      · simp
      · exact hag
    · have hkeep : ∀ (c : Prop) [Decidable c] (x : Nat → Bool),
          (if c then Function.update x f false else x) g = x g := by
        intro c _ x
        split
        · exact Function.update_of_ne hgf ..
        · rfl
      rw [hkeep, hkeep, hag]

/-- Page 0 loses a reference. -/
theorem Like.zero (h : Like leaked s t) (hzero : s.kind 0 ≠ .pool) :
    Like leaked (Paging.pageDecreaseRef s 0) t := by
  obtain ⟨⟨r, a, rfl⟩, hr, ha⟩ := h
  rw [pageDecreaseRef_eq]
  refine ⟨⟨r, a, rfl⟩, fun g hg hnot => ?_, fun g hg => ?_⟩
  · dsimp only
    rw [Function.update_of_ne hg]
    exact hr g hg hnot
  · have hg0 : g ≠ 0 := by
      rintro rfl
      exact hzero hg
    show a g = (if s.pRef 0 - 1 = 0 then Function.update s.allocated 0 false else s.allocated) g
    rw [show a g = s.allocated g from ha g hg]
    split
    · rw [Function.update_of_ne hg0]
    · rfl

/-- A frame that was handed out and never mapped loses a reference that nobody had. -/
theorem Like.leak (h : Like leaked s t) (hcount : s.pRef f = 0) :
    Like (f :: leaked) (Paging.pageDecreaseRef s f) t := by
  obtain ⟨⟨r, a, rfl⟩, hr, ha⟩ := h
  have hwrap : ¬ s.pRef f - 1 = 0 := by
    rw [hcount]
    decide
  rw [pageDecreaseRef_eq, if_neg hwrap]
  refine ⟨⟨r, a, rfl⟩, fun g hg hnot => ?_, ha⟩
  obtain ⟨hgf, hnot⟩ : g ≠ f ∧ g ∉ leaked := by simpa using hnot
  dsimp only
  rw [Function.update_of_ne hgf]
  exact hr g hg hnot

/-- **`page_alloc`** hands out the same frame. -/
theorem Like.pageAlloc (h : Like leaked s t) :
    (Paging.pageAlloc s).1 = (Paging.pageAlloc t).1 ∧
      Like leaked (Paging.pageAlloc s).2 (Paging.pageAlloc t).2 := by
  obtain ⟨⟨r, a, rfl⟩, hr, ha⟩ := h
  rcases s with ⟨npagesNum, kind, supply, pgdir, table, data, pRef, allocated, heapPtr, baseMemSz, rootproc⟩
  dsimp only at hr ha
  unfold Paging.pageAlloc
  cases supply with
  | nil => exact ⟨rfl, ⟨r, a, rfl⟩, hr, ha⟩
  | cons o rest =>
    cases o with
    | none => exact ⟨rfl, ⟨r, a, rfl⟩, hr, ha⟩
    | some f =>
      dsimp only
      by_cases hfree : kind f = .pool ∧ allocated f = false
      · rw [if_pos hfree, if_pos ⟨hfree.1, (ha f hfree.1).trans hfree.2⟩]
        refine ⟨rfl, ⟨_, _, rfl⟩, fun g hg hnot => ?_, fun g hg => ?_⟩
        · by_cases hgf : g = f
          · simp [hgf]
          · simp only [Function.update_of_ne hgf]
            exact hr g hg hnot
        · by_cases hgf : g = f
          · simp [hgf]
          · simp only [Function.update_of_ne hgf]
            exact ha g hg
      · rw [if_neg hfree, if_neg fun hc => hfree ⟨hc.1, (ha f hc.1).symm.trans hc.2⟩]
        exact ⟨rfl, ⟨r, a, rfl⟩, hr, ha⟩

/-! ## §4 Walks, removals and insertions -/

/-- What is known between two calls: some memory with right counts, apart from the frames `leaked`, which
    the allocator will not get back. -/
structure Inv (leaked : List Nat) (s t : Vm) : Prop where
  like : Like leaked s t
  vm : VmInv 0 leaked t

theorem zero_ne_pool (h : VmInv 0 hand t) : t.kind 0 ≠ .pool :=
  fun hk => absurd (h.pool_lt 0 hk).1 (Nat.lt_irrefl 0)

theorem Like.kind (h : Like leaked s t) : t.kind = s.kind := by
  obtain ⟨⟨r, a, rfl⟩, _, _⟩ := h
  rfl

/-- **`pgdir_walk`** with `create`. -/
theorem Like.pgdirWalk (h : Like leaked s t) (hv : VmInv 0 hand t) (hsub : ∀ f ∈ leaked, f ∈ hand) (p : Proc)
    (va : Nat) :
    (Paging.pgdirWalk s p va true).1 = (Paging.pgdirWalk t p va true).1 ∧
      Like leaked (Paging.pgdirWalk s p va true).2 (Paging.pgdirWalk t p va true).2 := by
  obtain ⟨halloc, hlike⟩ := h.pageAlloc
  have hpgdir : t.pgdir = s.pgdir := by
    obtain ⟨⟨r, a, rfl⟩, _, _⟩ := h
    rfl
  unfold Paging.pgdirWalk
  rw [hpgdir]
  dsimp only
  split
  · exact ⟨rfl, h⟩
  · rw [if_neg (by decide), if_neg (by decide)]
    rcases hv.pageAlloc with ⟨t', hfail, _⟩ | ⟨f, t', hok, hv', _⟩
    · rw [hfail] at halloc hlike ⊢
      cases hs : Paging.pageAlloc s with
      | mk o s' =>
        rw [hs] at halloc hlike
        obtain rfl : o = none := halloc
        exact ⟨rfl, hlike⟩
    · rw [hok] at halloc hlike ⊢
      cases hs : Paging.pageAlloc s with
      | mk o s' =>
        rw [hs] at halloc hlike
        obtain rfl : o = some f := halloc
        have hf : f ∉ leaked := fun hin => (List.nodup_cons.1 hv'.nodup).1 (hsub f hin)
        exact ⟨rfl, (hlike.incRef hf).setPde p _ _⟩

/-- A frame that is mapped is none of those in hand. -/
theorem not_mem_of_mapped (hv : VmInv 0 hand t) (hva : va < UTOP) (hm : mapped t p va = some f) :
    f ∉ hand := by
  intro hin
  have hzero := (hv.inHand f hin).2.2
  have hpos := refs_pos_of_pte (PDINDEX_lt hva) (PTINDEX_lt va) hm
  omega

/-- What `page_lookup` finds: no page table, an empty entry, or a page. -/
theorem lookup_cases (hv : VmInv 0 hand t) (p : Proc) (hva : va < UTOP) :
    (pageLookup t p va = none ∧ mapped t p va = none ∧ Dirty t p va = false) ∨
    (∃ n, pageLookup t p va = some (0, n) ∧ t.table n (PTINDEX va) = Pte.zero ∧ mapped t p va = none ∧
      Dirty t p va = true ∧ pteOf t p va = t.table n (PTINDEX va)) ∨
    ∃ f n, pageLookup t p va = some (f, n) ∧ mapped t p va = some f ∧ Dirty t p va = false ∧
      pteOf t p va = t.table n (PTINDEX va) ∧ f < t.npagesNum := by
  rw [hv.pageLookup hva]
  cases ht : pdeAt t (p, PDINDEX va) with
  | none => exact .inl ⟨rfl, by simp [mapped, pteAt, ht], by simp [Dirty, ht]⟩
  | some n =>
    rcases hv.entries _ (mem_pdeSlots_of_lt p hva) n ht _ (PTINDEX_lt va) with h0 | ⟨hpres, hlt⟩
    · have hnone : mapped t p va = none := by
        rw [mapped, pteAt_eq ht, h0]
        rfl
      refine .inr (.inl ⟨n, ?_, h0, hnone, ?_, by simp [pteOf, ht]⟩)
      · rw [Option.map_some, h0]
        rfl
      · simp [Dirty, ht, hnone]
    · have hmap : mapped t p va = some (t.table n (PTINDEX va)).frame := by
        rw [mapped, pteAt_eq ht, if_pos hpres]
      exact .inr (.inr ⟨_, n, rfl, hmap, by simp [Dirty, hmap], by simp [pteOf, ht], hlt⟩)

/-- **`page_remove`** of a mapped page. -/
theorem Like.pageRemove (h : Like leaked s t) (hv : VmInv 0 hand t) (hsub : ∀ f ∈ leaked, f ∈ hand)
    (hva : va < UTOP) (hclean : Dirty t p va = false) :
    Like leaked (Paging.pageRemove s p va) (Paging.pageRemove t p va) := by
  have hzero : s.kind 0 ≠ .pool := h.kind ▸ zero_ne_pool hv
  unfold Paging.pageRemove
  rw [← h.pageLookup]
  rcases lookup_cases hv p hva with ⟨hl, _⟩ | ⟨n, _, _, _, hd, _⟩ | ⟨f, n, hl, hm, _⟩
  · rw [hl]
    exact h
  · rw [hclean] at hd
    cases hd
  · rw [hl]
    exact (h.pageDecreaseRef hzero fun hin => not_mem_of_mapped hv hva hm (hsub f hin)).setPte n _ _

/-- **`page_remove`** of an address that is not mapped only takes a reference from page 0. -/
theorem Like.pageRemove_dirty (h : Like leaked s t) (hv : VmInv 0 hand t) (hva : va < UTOP)
    (hdirty : Dirty t p va = true) : Like leaked (Paging.pageRemove s p va) t := by
  have hzero : s.kind 0 ≠ .pool := h.kind ▸ zero_ne_pool hv
  rcases lookup_cases hv p hva with ⟨_, _, hd⟩ | ⟨n, hl, h0, _⟩ | ⟨f, n, _, _, hd, _⟩
  · rw [hdirty] at hd
    cases hd
  · rw [h.pageLookup] at hl
    rw [h.table] at h0
    unfold Paging.pageRemove
    rw [hl]
    have hsame : Paging.setPte (Paging.pageDecreaseRef s 0) n (PTINDEX va) Pte.zero =
        Paging.pageDecreaseRef s 0 := by
      have htable : (Paging.pageDecreaseRef s 0).table = s.table := by rw [pageDecreaseRef_eq]
      unfold Paging.setPte
      rw [htable, ← h0, Function.update_eq_self, Function.update_eq_self, ← htable]
    show Like leaked (Paging.setPte (Paging.pageDecreaseRef s 0) n (PTINDEX va) Pte.zero) t
    rw [hsame]
    exact h.zero hzero
  · rw [hdirty] at hd
    cases hd

/-- **`page_insert`** goes the same way. -/
theorem Like.pageInsert (h : Like leaked s t) (hv : VmInv 0 hand t) (hsub : ∀ f ∈ leaked, f ∈ hand)
    (hva : va < UTOP) (hf : f ∉ leaked) (perm : Nat) :
    (Paging.pageInsert s p f va perm).1 = (Paging.pageInsert t p f va perm).1 ∧
      Like leaked (Paging.pageInsert s p f va perm).2 (Paging.pageInsert t p f va perm).2 := by
  obtain ⟨o, t₁, hwalk, hv₁, _, _, _, _, _, htab⟩ := hv.pgdirWalk (p := p) hva
  obtain ⟨hsame, hlike⟩ := h.pgdirWalk hv hsub p va
  cases hs : Paging.pgdirWalk s p va true with
  | mk o' s₁ =>
    rw [hs, hwalk] at hsame hlike
    obtain rfl : o' = o := hsame
    have hlike : Like leaked s₁ t₁ := hlike
    unfold Paging.pageInsert
    rw [hs, hwalk]
    cases o' with
    | none => exact ⟨rfl, hlike⟩
    | some n =>
      dsimp only
      rw [hlike.table]
      split
      · exact ⟨rfl, (hlike.setPte n _ _).orPde p va perm⟩
      · refine ⟨rfl, ?_⟩
        dsimp only
        split
        · next hpres =>
          have hclean : Dirty t₁ p va = false := by
            have hm : Paging.mapped t₁ p va = some (t₁.table n (PTINDEX va)).frame := by
              rw [Paging.mapped, pteAt_eq (htab n rfl), hlike.table, if_pos hpres]
            simp [Dirty, hm]
          exact (((hlike.pageRemove hv₁ hsub hva hclean).setPte n _ _).orPde p va perm).incRef hf
        · exact ((hlike.setPte n _ _).orPde p va perm).incRef hf

/-- An insertion that gets no page table changes no mapping. -/
theorem pageInsert_false (hv : VmInv 0 hand t) (hva : va < UTOP)
    (hins : (pageInsert t p f va perm).1 = false) :
    ∀ e ∈ pteSlots, pteAt (pageInsert t p f va perm).2 e = pteAt t e := by
  obtain ⟨o, t₁, hwalk, _, hptes, _⟩ := hv.pgdirWalk (p := p) hva
  cases o with
  | none =>
    have hres : pageInsert t p f va perm = (false, t₁) := by
      unfold pageInsert
      rw [hwalk]
    rw [hres]
    exact hptes
  | some n =>
    unfold pageInsert at hins
    rw [hwalk] at hins
    dsimp only at hins
    split at hins <;> cases hins

/-! ## §5 One call -/

/-- Only one address is mapped anew, to the frame `f` if at all. -/
theorem mapped_of_other {s s' : Vm} {p : Proc} {va f : Nat}
    (hself : mapped s' p va = some f ∨ mapped s' p va = mapped s p va)
    (hother : ∀ e ∈ pteSlots, e ≠ (p, PDINDEX va, PTINDEX va) → pteAt s' e = pteAt s e) :
    ∀ p' va' g, va' < UTOP → mapped s' p' va' = some g → mapped s p' va' = some g ∨ g = f := by
  intro p' va' g hva' hg
  by_cases hslot : (p', PDINDEX va', PTINDEX va') = (p, PDINDEX va, PTINDEX va)
  · have hto : mapped s' p' va' = mapped s' p va := by
      unfold mapped
      rw [hslot]
    have hfrom : mapped s p' va' = mapped s p va := by
      unfold mapped
      rw [hslot]
    rw [hto] at hg
    rw [hfrom]
    rcases hself with hf | hsame
    · exact .inr (Option.some.inj (hg.symm.trans hf))
    · exact .inl (hsame.symm.trans hg)
  · left
    unfold mapped at hg ⊢
    rwa [← hother _ (mem_pteSlots.2 ⟨PDINDEX_lt hva', PTINDEX_lt va'⟩) hslot]

/-- **A page of one process is inserted for another**: `user_page_map` and `ipc_try_send` after their
    lookup. -/
theorem share_spec (h : Inv leaked s t) {pS : Proc} (pD : Proc) {vaS vaD n : Nat} (hvaS : vaS < UTOP)
    (hvaD : vaD < UTOP) (hl : pageLookup s pS vaS = some (f, n)) (perm : Nat) :
    ∃ b s' t', pageInsert s pD f vaD perm = (b, s') ∧ Inv leaked s' t' ∧ (b = true ↔ TableFor s pD vaD) ∧
      ∀ p va g, va < UTOP → mapped s' p va = some g → mapped s p va = some g ∨ b = true ∧ g = f := by
  have hmem : ∀ g ∈ leaked, g ∈ leaked := fun _ hg => hg
  -- the frame is mapped, or it is page 0
  obtain ⟨hlt, huse, hf⟩ : f < t.npagesNum ∧ (t.kind f = .pool → f ∈ leaked ∨ 0 < refs t f) ∧ f ∉ leaked := by
    rw [← h.like.pageLookup] at hl
    rcases lookup_cases h.vm pS hvaS with ⟨hl', _⟩ | ⟨n', hl', _⟩ | ⟨g, n', hl', hm, _, _, hlt⟩
    · rw [hl'] at hl
      cases hl
    · rw [hl'] at hl
      obtain ⟨rfl, _⟩ := Prod.mk.inj (Option.some.inj hl)
      refine ⟨h.vm.zero_lt, fun hk => absurd hk (zero_ne_pool h.vm), fun hin => ?_⟩
      exact (zero_ne_pool h.vm) (h.vm.inHand _ hin).1
    · rw [hl'] at hl
      obtain ⟨rfl, _⟩ := Prod.mk.inj (Option.some.inj hl)
      exact ⟨hlt, fun _ => .inr (refs_pos_of_pte (PDINDEX_lt hvaS) (PTINDEX_lt vaS) hm),
        not_mem_of_mapped h.vm hvaS hm⟩
  obtain ⟨b, t', hins, hb, hvm, hmap, hother⟩ := h.vm.pageInsert (p := pD) hvaD hlt huse perm
  obtain ⟨hsame, hlike⟩ := h.like.pageInsert (p := pD) h.vm hmem hvaD hf perm
  rw [hins] at hsame hlike
  have hkeep : VmInv 0 leaked t' := by
    rw [List.erase_of_not_mem hf, ite_self] at hvm
    exact hvm
  refine ⟨b, (pageInsert s pD f vaD perm).2, t', Prod.ext hsame rfl, ⟨hlike, hkeep⟩, ?_, ?_⟩
  · have halloc := h.like.pageAlloc.1
    rw [TableFor, ← h.like.pdeAt, halloc, ← hb]
    simp
  · rw [← h.like.mapped, ← hlike.mapped]
    cases b with
    | true =>
      intro p va g hva hg
      exact (mapped_of_other (.inl (hmap rfl)) hother p va g hva hg).imp_right fun hgf => ⟨rfl, hgf⟩
    | false =>
      -- without a page table nothing is mapped anew
      intro p va g hva hg
      have hfalse : (pageInsert t pD f vaD perm).1 = false := by rw [hins]
      have hptes := pageInsert_false h.vm hvaD hfalse
      rw [hins] at hptes
      left
      unfold Paging.mapped at hg ⊢
      rwa [← hptes _ (mem_pteSlots.2 ⟨PDINDEX_lt hva, PTINDEX_lt va⟩)]

/-- There is a memory like this one whose counts are right. -/
def Sound (s : Vm) : Prop := ∃ leaked t, Inv leaked s t

/-- **`user_page_alloc`** maps the frame that `page_alloc` hands out. -/
theorem userPageAlloc_spec (h : Sound s) (target : Option Proc) (va perm : Nat) :
    Sound (userPageAlloc s target va perm).2 ∧ ∀ p va' g, va' < UTOP →
      mapped (userPageAlloc s target va perm).2 p va' = some g →
        mapped s p va' = some g ∨
          (userPageAlloc s target va perm).1 = none ∧ (pageAlloc s).1 = some g := by
  obtain ⟨leaked, t, hi⟩ := h
  unfold userPageAlloc
  split
  · exact ⟨⟨leaked, t, hi⟩, fun _ _ _ _ hg => .inl hg⟩
  · next hcheck =>
    have hva : va < UTOP := by
      by_contra hle
      exact hcheck (.inl (Nat.not_lt.1 hle))
    cases target with
    | none => exact ⟨⟨leaked, t, hi⟩, fun _ _ _ _ hg => .inl hg⟩
    | some p =>
      dsimp only
      obtain ⟨halloc, hlike⟩ := hi.like.pageAlloc
      rcases hi.vm.pageAlloc with ⟨t₁, hfail, hv₁, hpgdir, htable⟩ | ⟨f, t₁, hok, hv₁, hpgdir, _, htable⟩
      · cases hs : pageAlloc s with
        | mk o s₁ =>
          rw [hs, hfail] at halloc hlike
          obtain rfl : o = none := halloc
          have hlike : Like leaked s₁ t₁ := hlike
          refine ⟨⟨leaked, t₁, hlike, hv₁⟩, fun p va' g _ hg => .inl ?_⟩
          rw [← hi.like.mapped]
          rw [← hlike.mapped] at hg
          unfold Paging.mapped at hg ⊢
          rwa [pteAt_congr hpgdir htable] at hg
      · cases hs : pageAlloc s with
        | mk o s₁ =>
          rw [hs, hok] at halloc hlike
          obtain rfl : o = some f := halloc
          have hlike : Like leaked s₁ t₁ := hlike
          have hf : f ∉ leaked := (List.nodup_cons.1 hv₁.nodup).1
          have hpool := (hv₁.inHand f List.mem_cons_self).1
          -- the frame that is handed out was mapped nowhere
          have hptes : ∀ e ∈ pteSlots, pteAt t₁ e = pteAt t e := by
            rintro ⟨p', d', i⟩ he
            have hmem : (p', d') ∈ pdeSlots := mem_pdeSlots.2 (mem_pteSlots.1 he).1
            cases hd : pdeAt t (p', d') with
            | none => simp [pteAt, pdeAt_congr hpgdir, hd]
            | some n => rw [pteAt_eq hd, pteAt_eq (by rw [pdeAt_congr hpgdir]; exact hd), htable _ hmem n hd]
          obtain ⟨b, t₂, hins, _, hv₂, hmap, hother⟩ := hv₁.pageInsert (p := p) hva
            (hv₁.pool_lt f hpool).2 (fun _ => .inl List.mem_cons_self) perm
          obtain ⟨hsame, hlike₂⟩ := hlike.pageInsert (p := p) hv₁ (fun _ => List.mem_cons_of_mem _) hva hf perm
          rw [hins] at hsame hlike₂
          have hothers : ∀ e ∈ pteSlots, e ≠ (p, PDINDEX va, PTINDEX va) → pteAt t₂ e = pteAt t e :=
            fun e he hne => (hother e he hne).trans (hptes e he)
          cases hi₂ : pageInsert s₁ p f va perm with
          | mk b' s₂ =>
            rw [hi₂] at hsame hlike₂
            obtain rfl : b' = b := hsame
            have hlike₂ : Like leaked s₂ t₂ := hlike₂
            dsimp only
            rw [hi₂]
            cases b' with
            | true =>
              have hv₂ : VmInv 0 leaked t₂ := by simpa using hv₂
              refine ⟨⟨leaked, t₂, hlike₂, hv₂⟩, fun p' va' g hva' hg => ?_⟩
              rw [← hi.like.mapped]
              rw [← hlike₂.mapped] at hg
              exact (mapped_of_other (.inl (hmap rfl)) hothers p' va' g hva' hg).imp_right
                fun hgf => ⟨rfl, by rw [hgf]⟩
            | false =>
              -- `page_decrease_ref` of a page without references: the allocator does not get it back
              have hv₂ : VmInv 0 (f :: leaked) t₂ := by simpa using hv₂
              have hcount : s₂.pRef f = 0 := by
                have hne : f ≠ 0 := Nat.pos_iff_ne_zero.1 (hv₁.pool_lt f hpool).1
                rw [← hlike₂.2.1 f hne hf, hv₂.count f, (hv₂.inHand f List.mem_cons_self).2.2]
                rfl
              have hleak : Like (f :: leaked) (pageDecreaseRef s₂ f) t₂ := hlike₂.leak hcount
              refine ⟨⟨_, t₂, hleak, hv₂⟩, ?_⟩
              have hmaps : Paging.mapped (pageDecreaseRef s₂ f) = Paging.mapped s₂ :=
                hleak.mapped.symm.trans hlike₂.mapped
              -- without a page table nothing is mapped anew
              have hfalse : (pageInsert t₁ p f va perm).1 = false := by rw [hins]
              have hkeep := pageInsert_false hv₁ hva hfalse
              rw [hins] at hkeep
              intro p' va' g hva' hg
              left
              rw [hmaps, ← hlike₂.mapped] at hg
              rw [← hi.like.mapped]
              have hsmem : (p', PDINDEX va', PTINDEX va') ∈ pteSlots :=
                mem_pteSlots.2 ⟨PDINDEX_lt hva', PTINDEX_lt va'⟩
              unfold Paging.mapped at hg ⊢
              rwa [hkeep _ hsmem, hptes _ hsmem] at hg

/-- **`user_page_upmap`** maps nothing. -/
theorem userPageUpmap_spec (h : Sound s) (target : Option Proc) (va : Nat) :
    Sound (userPageUpmap s target va).2 ∧ ∀ p va' g, va' < UTOP →
      mapped (userPageUpmap s target va).2 p va' = some g → mapped s p va' = some g := by
  obtain ⟨leaked, t, hi⟩ := h
  unfold userPageUpmap
  split
  · exact ⟨⟨leaked, t, hi⟩, fun _ _ _ _ hg => hg⟩
  · next hlt =>
    have hva : va < UTOP := Nat.not_le.1 hlt
    cases target with
    | none => exact ⟨⟨leaked, t, hi⟩, fun _ _ _ _ hg => hg⟩
    | some p =>
      dsimp only
      cases hd : Dirty t p va with
      | true =>
        have hlike := hi.like.pageRemove_dirty hi.vm hva hd
        refine ⟨⟨leaked, t, hlike, hi.vm⟩, fun p' va' g _ hg => ?_⟩
        rwa [← hi.like.mapped, hlike.mapped]
      | false =>
        have hlike := hi.like.pageRemove hi.vm (fun _ hf => hf) hva hd
        obtain ⟨hv, _, hnone, hother⟩ := hi.vm.pageRemove (p := p) hva
        rw [hd] at hv
        refine ⟨⟨leaked, _, hlike, hv⟩, fun p' va' g hva' hg => ?_⟩
        rw [← hlike.mapped] at hg
        rw [← hi.like.mapped]
        by_cases hslot : (p', PDINDEX va', PTINDEX va') = (p, PDINDEX va, PTINDEX va)
        · unfold Paging.mapped at hg hnone
          rw [hslot, hnone] at hg
          cases hg
        · unfold Paging.mapped at hg ⊢
          rwa [← hother _ (mem_pteSlots.2 ⟨PDINDEX_lt hva', PTINDEX_lt va'⟩) hslot]

theorem Sound.lookup_cases (h : Sound s) (p : Proc) (hva : va < UTOP) :
    (pageLookup s p va = none ∧ Dirty s p va = false) ∨
    (∃ n, pageLookup s p va = some (0, n) ∧ (s.table n (PTINDEX va)).perm = 0 ∧ mapped s p va = none ∧
      Dirty s p va = true) ∨
    ∃ f n, pageLookup s p va = some (f, n) ∧ mapped s p va = some f ∧ Dirty s p va = false ∧
      pteOf s p va = s.table n (PTINDEX va) := by
  obtain ⟨leaked, t, hi⟩ := h
  have hcases := PageAccess.lookup_cases hi.vm p hva
  rw [hi.like.pageLookup, hi.like.mapped, hi.like.dirty, hi.like.pteOf, hi.like.table] at hcases
  rcases hcases with ⟨hl, _, hd⟩ | ⟨n, hl, h0, hm, hd, _⟩ | ⟨f, n, hl, hm, hd, he, _⟩
  · exact .inl ⟨hl, hd⟩
  · exact .inr (.inl ⟨n, hl, by rw [h0]; rfl, hm, hd⟩)
  · exact .inr (.inr ⟨f, n, hl, hm, hd, he⟩)

section Share

variable {pS pD : Proc} {vaS vaD n : Nat}

/-- **A page that is not from nowhere** is offered by its source. -/
theorem share_good (h : Sound s) (pD : Proc) (perm : Nat) (hvaS : vaS < UTOP) (hvaD : vaD < UTOP)
    (hl : pageLookup s pS vaS = some (f, n))
    (hw : ¬ (perm &&& PTE_W ≠ 0 ∧ (s.table n (PTINDEX vaS)).perm &&& PTE_W = 0))
    (hC : ¬ (perm &&& PTE_W = 0 ∧ Dirty s pS vaS = true ∧ TableFor s pD vaD)) :
    Sound (pageInsert s pD f vaD perm).2 ∧
      ((pageInsert s pD f vaD perm).1 = true → Offered s pS vaS perm) ∧
      ∀ p va g, va < UTOP → mapped (pageInsert s pD f vaD perm).2 p va = some g →
        mapped s p va = some g ∨ mapped s pS vaS = some g := by
  have hsound := h
  obtain ⟨leaked, t, hi⟩ := h
  obtain ⟨b, s', t', hins, hi', hb, hnew⟩ := share_spec hi pD hvaS hvaD hl perm
  rw [hins]
  -- if the page is inserted, it is mapped at the source
  have hoffer : b = true → mapped s pS vaS = some f ∧ Offered s pS vaS perm := by
    intro hbt
    rcases hsound.lookup_cases pS hvaS with ⟨hl', _⟩ | ⟨n', hl', h0, _, hd⟩ | ⟨f', n', hl', hm, _, he⟩
    · rw [hl'] at hl
      cases hl
    · rw [hl'] at hl
      obtain ⟨_, rfl⟩ := Prod.mk.inj (Option.some.inj hl)
      rw [h0, Nat.zero_and] at hw
      have hread : perm &&& PTE_W = 0 := by
        by_contra hne
        exact hw ⟨hne, rfl⟩
      exact absurd ⟨hread, hd, hb.1 hbt⟩ hC
    · rw [hl'] at hl
      obtain ⟨rfl, rfl⟩ := Prod.mk.inj (Option.some.inj hl)
      refine ⟨hm, by simp [hm], fun hwrite => ?_⟩
      rw [he]
      exact fun hro => hw ⟨hwrite, hro⟩
  refine ⟨⟨leaked, t', hi'⟩, fun hbt => (hoffer hbt).2, fun p va g hva hg => ?_⟩
  rcases hnew p va g hva hg with hold | ⟨hbt, rfl⟩
  · exact .inl hold
  · exact .inr (hoffer hbt).1

/-- **An empty entry is taken for a mapping of page 0.** -/
theorem share_bad (h : Sound s) (hvaS : vaS < UTOP) (hvaD : vaD < UTOP) (hd : Dirty s pS vaS = true)
    (htab : TableFor s pD vaD) (perm : Nat) :
    ∃ n, pageLookup s pS vaS = some (0, n) ∧ (pageInsert s pD 0 vaD perm).1 = true ∧
      ¬ Offered s pS vaS perm := by
  have hsound := h
  obtain ⟨leaked, t, hi⟩ := h
  rcases hsound.lookup_cases pS hvaS with ⟨_, hd'⟩ | ⟨n', hl', _, hm, _⟩ | ⟨f', n', _, _, hd', _⟩
  · rw [hd] at hd'
    cases hd'
  · obtain ⟨b, s', t', hins, _, hb, _⟩ := share_spec hi pD hvaS hvaD hl' perm
    refine ⟨n', hl', ?_, fun ho => ho.1 hm⟩
    rw [hins]
    exact hb.2 htab
  · rw [hd] at hd'
    cases hd'

end Share

variable {S S' : Sys} {o : Op}

/-- **`user_page_map`.** -/
theorem userPageMap_good (h : Sound s) (src dst : Option Proc) (vaS vaD perm : Nat)
    (hC : ∀ pS pD, src = some pS → dst = some pD →
      ¬ (vaD % PGSIZE = 0 ∧ FromNowhere s pS vaS pD vaD perm)) :
    Sound (userPageMap s src vaS dst vaD perm).2 ∧
      ((userPageMap s src vaS dst vaD perm).1 = none → ∀ pS ∈ src, Offered s pS vaS perm) ∧
      ∀ p va g, va < UTOP → mapped (userPageMap s src vaS dst vaD perm).2 p va = some g →
        mapped s p va = some g ∨ ∃ pS ∈ src, vaS < UTOP ∧ mapped s pS vaS = some g := by
  have hstay : Sound s ∧ ((some Err.inval = none) → ∀ pS ∈ src, Offered s pS vaS perm) ∧
      ∀ p va g, va < UTOP → mapped s p va = some g →
        mapped s p va = some g ∨ ∃ pS ∈ src, vaS < UTOP ∧ mapped s pS vaS = some g :=
    ⟨h, fun hf => (by cases hf), fun _ _ _ _ hg => .inl hg⟩
  unfold userPageMap
  split
  · exact hstay
  next hS =>
  split
  · exact hstay
  next hD =>
  split
  · exact hstay
  next hperm =>
  have hvaS : vaS < UTOP := by omega
  have hvaD : vaD < UTOP := by omega
  cases src with
  | none => exact ⟨h, fun hf => (by cases hf), fun _ _ _ _ hg => .inl hg⟩
  | some pS =>
    cases dst with
    | none => exact ⟨h, fun hf => (by cases hf), fun _ _ _ _ hg => .inl hg⟩
    | some pD =>
      dsimp only
      cases hl : pageLookup s pS vaS with
      | none => exact hstay
      | some r =>
        obtain ⟨f, n⟩ := r
        dsimp only
        split
        · exact hstay
        · next hw =>
          obtain ⟨hsound, hoffer, hnew⟩ := share_good h pD perm hvaS hvaD hl
            (fun hc => hw ⟨hc.2, hc.1⟩) (fun hc => hC pS pD rfl rfl ⟨by omega, hvaS, by omega, hvaD,
              by simpa using hperm, hc.1, hc.2.1, hc.2.2⟩)
          cases hins : pageInsert s pD f vaD perm with
          | mk b s' =>
            rw [hins] at hsound hoffer hnew
            cases b with
            | false =>
              exact ⟨hsound, fun hf => (by cases hf), fun p va g hva hg =>
                (hnew p va g hva hg).imp_right fun hm => ⟨pS, rfl, hvaS, hm⟩⟩
            | true =>
              refine ⟨hsound, fun _ pS' hpS' => ?_, fun p va g hva hg =>
                (hnew p va g hva hg).imp_right fun hm => ⟨pS, rfl, hvaS, hm⟩⟩
              obtain rfl := Option.some.inj hpS'
              exact hoffer rfl

theorem userPageMap_bad (h : Sound s) {pS pD : Proc} {vaS vaD : Nat} (hD : vaD % PGSIZE = 0)
    (hfrom : FromNowhere s pS vaS pD vaD perm) :
    (userPageMap s (some pS) vaS (some pD) vaD perm).1 = none ∧ ¬ Offered s pS vaS perm := by
  obtain ⟨hvaS, hS, hvaD, hperm, hread, hd, htab⟩ := hfrom
  obtain ⟨n, hl, hins, hnot⟩ := share_bad h hvaS hvaD hd htab perm
  refine ⟨?_, hnot⟩
  unfold userPageMap
  rw [if_neg (by omega), if_neg (by omega), if_neg (by simp [hperm])]
  dsimp only
  rw [hl]
  dsimp only
  rw [if_neg fun hc => hc.2 hread]
  cases hi : pageInsert s pD 0 vaD perm with
  | mk b s' =>
    rw [hi] at hins
    obtain rfl : b = true := hins
    rfl

theorem ipcTrySend_userFrames (S : Sys) (cur : Proc) (target : Option Proc) (value srcva perm : Nat) :
    (ipcTrySend S cur target value srcva perm).2.userFrames = S.userFrames := by
  unfold ipcTrySend
  repeat' split
  all_goals rfl

/-- **`ipc_try_send`** of a page. -/
theorem ipcTrySend_good (h : Sound S.vm) (cur receiver : Proc) (value srcva perm : Nat)
    (hC : ¬ (S.ipcRecving receiver = true ∧
      FromNowhere S.vm cur srcva receiver (S.ipcDstva receiver) perm)) :
    Sound (ipcTrySend S cur (some receiver) value srcva perm).2.vm ∧
      (SendsPage S receiver srcva → (ipcTrySend S cur (some receiver) value srcva perm).1 = none →
        Offered S.vm cur srcva perm) ∧
      ∀ p va g, va < UTOP → mapped (ipcTrySend S cur (some receiver) value srcva perm).2.vm p va = some g →
        mapped S.vm p va = some g ∨ srcva < UTOP ∧ mapped S.vm cur srcva = some g := by
  unfold ipcTrySend
  dsimp only
  split
  · exact ⟨h, fun _ hf => (by cases hf), fun _ _ _ _ hg => .inl hg⟩
  next hrecv =>
  split
  next hboth =>
    split
    · exact ⟨h, fun _ hf => (by cases hf), fun _ _ _ _ hg => .inl hg⟩
    next hS =>
    cases hl : pageLookup S.vm cur srcva with
    | none => exact ⟨h, fun _ hf => (by cases hf), fun _ _ _ _ hg => .inl hg⟩
    | some r =>
      obtain ⟨f, n⟩ := r
      dsimp only
      split
      · exact ⟨h, fun _ hf => (by cases hf), fun _ _ _ _ hg => .inl hg⟩
      next hperm =>
      split
      · exact ⟨h, fun _ hf => (by cases hf), fun _ _ _ _ hg => .inl hg⟩
      next hw =>
      obtain ⟨hsound, hoffer, hnew⟩ := share_good h receiver perm hboth.2 hboth.1 hl hw
        (fun hc => hC ⟨by simpa using hrecv, hboth.2, by simpa using hS, hboth.1, by simpa using hperm,
          hc.1, hc.2.1, hc.2.2⟩)
      cases hins : pageInsert S.vm receiver f (S.ipcDstva receiver) perm with
      | mk b vm =>
        rw [hins] at hsound hoffer hnew
        have hnew' : ∀ p va g, va < UTOP → mapped vm p va = some g →
            mapped S.vm p va = some g ∨ srcva < UTOP ∧ mapped S.vm cur srcva = some g :=
          fun p va g hva hg => (hnew p va g hva hg).imp_right fun hm => ⟨hboth.2, hm⟩
        cases b with
        | false => exact ⟨hsound, fun _ hf => (by cases hf), hnew'⟩
        | true => exact ⟨hsound, fun _ _ => hoffer rfl, hnew'⟩
  next hboth => exact ⟨h, fun hsend => absurd hsend hboth, fun _ _ _ _ hg => .inl hg⟩

theorem ipcTrySend_bad (h : Sound S.vm) {cur receiver : Proc} (value : Nat) {srcva : Nat}
    (hrecv : S.ipcRecving receiver = true)
    (hfrom : FromNowhere S.vm cur srcva receiver (S.ipcDstva receiver) perm) :
    SendsPage S receiver srcva ∧ (ipcTrySend S cur (some receiver) value srcva perm).1 = none ∧
      ¬ Offered S.vm cur srcva perm := by
  obtain ⟨hvaS, hS, hvaD, hperm, hread, hd, htab⟩ := hfrom
  obtain ⟨n, hl, hins, hnot⟩ := share_bad h hvaS hvaD hd htab perm
  refine ⟨⟨hvaD, hvaS⟩, ?_, hnot⟩
  unfold ipcTrySend
  dsimp only
  rw [if_neg (by simp [hrecv]), if_pos ⟨hvaD, hvaS⟩, if_neg (by omega), hl]
  dsimp only
  rw [if_neg (by simp [hperm]), if_neg fun hc => hc.1 hread]
  cases hi : pageInsert S.vm receiver 0 (S.ipcDstva receiver) perm with
  | mk b vm =>
    rw [hi] at hins
    obtain rfl : b = true := hins
    rfl

/-- **One call** that does not map from nowhere. -/
theorem step_access (h : Sound S.vm) (hF : FramesOk S) (hC : Sourced S o) :
    AccessOk S o (next S o) ∧ Sound (next S o).vm := by
  cases o with
  | userPageAlloc target va perm =>
    obtain ⟨hsound, hnew⟩ := userPageAlloc_spec h target va perm
    refine ⟨⟨trivial, fun p va' f hva' hf => ?_⟩, hsound⟩
    show f ∈ if _ then _ else _
    rcases hnew p va' f hva' hf with hold | ⟨hok, halloc⟩
    · have hin := hF p va' f hva' hold
      split
      · exact List.mem_append_right _ hin
      · exact hin
    · rw [if_pos hok, halloc]
      exact List.mem_append_left _ (List.mem_singleton_self f)
  | userPageMap src vaS dst vaD perm =>
    obtain ⟨hsound, hoffer, hnew⟩ := userPageMap_good h src dst vaS vaD perm
      (fun pS pD hs hd => by
        subst hs hd
        exact hC)
    refine ⟨⟨?_, fun p va f hva hf => ?_⟩, hsound⟩
    · cases src with
      | none => trivial
      | some pS => exact fun hok => hoffer hok pS rfl
    · rcases hnew p va f hva hf with hold | ⟨pS, _, hvaS, hm⟩
      · exact hF p va f hva hold
      · exact hF pS vaS f hvaS hm
  | userPageUpmap target va =>
    obtain ⟨hsound, hold⟩ := userPageUpmap_spec h target va
    exact ⟨⟨trivial, fun p va' f hva' hf => hF p va' f hva' (hold p va' f hva' hf)⟩, hsound⟩
  | ipcTrySend cur target value srcva perm =>
    cases target with
    | none => exact ⟨⟨trivial, hF⟩, h⟩
    | some receiver =>
      obtain ⟨hsound, hoffer, hnew⟩ := ipcTrySend_good h cur receiver value srcva perm hC
      have hghost : (ipcTrySend S cur (some receiver) value srcva perm).2.userFrames = S.userFrames :=
        ipcTrySend_userFrames S cur (some receiver) value srcva perm
      refine ⟨⟨hoffer, fun p va f hva hf => ?_⟩, hsound⟩
      show f ∈ (ipcTrySend S cur (some receiver) value srcva perm).2.userFrames
      rw [hghost]
      rcases hnew p va f hva hf with hold | ⟨hsrc, hm⟩
      · exact hF p va f hva hold
      · exact hF cur srcva f hsrc hm
  | ipcRecv cur dstva =>
    have hsame : (ipcRecv S cur dstva).vm = S.vm ∧ (ipcRecv S cur dstva).userFrames = S.userFrames := by
      unfold ipcRecv
      split <;> exact ⟨rfl, rfl⟩
    have hvm : (next S (.ipcRecv cur dstva)).vm = S.vm := hsame.1
    have hghost : (next S (.ipcRecv cur dstva)).userFrames = S.userFrames := hsame.2
    rw [AccessOk, FramesOk, hvm, hghost]
    exact ⟨⟨trivial, hF⟩, h⟩

/-- One call that does. -/
theorem step_not_access (h : Sound S.vm) (hC : ¬ Sourced S o) : ¬ AccessOk S o (next S o) := by
  rintro ⟨hsrc, _⟩
  cases o with
  | userPageMap src vaS dst vaD perm =>
    cases src with
    | none => exact hC trivial
    | some pS =>
      cases dst with
      | none => exact hC trivial
      | some pD =>
        obtain ⟨hD, hfrom⟩ := Decidable.not_not.1 hC
        obtain ⟨hok, hnot⟩ := userPageMap_bad h hD hfrom
        exact hnot (hsrc hok)
  | ipcTrySend cur target value srcva perm =>
    cases target with
    | none => exact hC trivial
    | some receiver =>
      obtain ⟨hrecv, hfrom⟩ := Decidable.not_not.1 hC
      obtain ⟨hsend, hok, hnot⟩ := ipcTrySend_bad h value hrecv hfrom
      exact hnot (hsrc hsend hok)
  | userPageAlloc _ _ _ => exact hC trivial
  | userPageUpmap _ _ => exact hC trivial
  | ipcRecv _ _ => exact hC trivial

/-! ## §6 Runs -/

/-- **Frames in user space**: the calls put only frames into user page tables that were handed out for user
    mappings, each from a source that offers it, exactly in the runs without a mapping from nowhere. -/
theorem access_iff {s : Sys} (hwf : PageTablesOk s.vm) (hrefs : RefsOk s.vm) (hframes : FramesOk s)
    (os : List Op) : Along step AccessOk s os ↔ Meets step Sourced s os := by
  have hinit : Sound s.vm ∧ FramesOk s := ⟨⟨[], s.vm, .refl s.vm, hwf.vmInv hrefs⟩, hframes⟩
  apply along_iff_meets (V := fun _ _ => True) (fun s => Sound s.vm ∧ FramesOk s) _ _ hinit (.of_forall fun _ _ => trivial)
  · intro s o ⟨hs, hF⟩ _ hC
    obtain ⟨hgood, hs'⟩ := step_access hs hF hC
    exact ⟨next s o, rfl, hgood, hs', hgood.2⟩
  · intro s o s' ⟨hs, _⟩ _ hC hok
    obtain rfl : next s o = s' := Except.ok.inj hok
    exact step_not_access hs hC

/-- No process waits for a message, and no page is in use. -/
def sysInit (supply : List (Option Nat)) : Sys where
  vm := vmInit supply
  ipcRecving _ := false
  ipcDstva _ := UTOP
  ipcPerm _ := 0
  ipcFrom _ := 0
  ipcValue _ := 0
  userFrames := []

theorem sysInit_framesOk (supply : List (Option Nat)) : FramesOk (sysInit supply) := by
  intro p va f _ hf
  simp [sysInit, mapped, pteAt, pdeAt_vmInit] at hf

/-- A page is allocated, mapped for a second process, and sent to a third one. -/
def accessRun : List Op :=
  [.userPageAlloc (some 1) UTEXT PTE_USTK,
    .userPageMap (some 1) UTEXT (some 2) (UTEXT + PGSIZE) (PTE_P ||| PTE_U ||| PTE_W),
    .ipcRecv 3 UTEXT,
    .ipcTrySend 2 (some 3) 7 (UTEXT + PGSIZE) (PTE_P ||| PTE_U),
    .ipcTrySend 3 (some 1) 7 UTEXT (PTE_P ||| PTE_U ||| PTE_W),
    .userPageUpmap (some 1) UTEXT]

theorem access_accessRun :
    Along step AccessOk (sysInit [some 16, some 17, some 18, some 19, some 20]) accessRun :=
  (access_iff (vmInit_pageTablesOk _) (vmInit_refsOk _) (sysInit_framesOk _) _).2 (by decide +kernel)

/-- A page is allocated, and the next one is mapped for a second process, to be read. -/
def nowhereRun : List Op :=
  [.userPageAlloc (some 1) UTEXT PTE_USTK] ++
    [.userPageMap (some 1) (UTEXT + PGSIZE) (some 2) UTEXT (PTE_P ||| PTE_U)]

/-- **Page 0 is mapped for a process**, from an address where its source has no page. -/
theorem page_zero_mapped :
    ¬ Along step AccessOk (sysInit [some 16, some 17, some 18]) nowhereRun := by
  intro hall
  obtain ⟨t, t', hrun, _, hframes⟩ := hall.last
  have hzero : (nowhereRun.foldlM step (sysInit [some 16, some 17, some 18])).toOption.map
      (fun s => (mapped s.vm 2 UTEXT, s.userFrames)) = some (some 0, [16]) := by
    decide +kernel
  have hrun' : nowhereRun.foldlM step (sysInit [some 16, some 17, some 18]) = .ok t' := hrun
  rw [hrun'] at hzero
  obtain ⟨hmap, hghost⟩ := Prod.mk.inj (Option.some.inj hzero)
  have hin := hframes 2 UTEXT 0 (by decide) hmap
  rw [hghost] at hin
  exact absurd hin (by decide)

end WeiOS.PageAccess
