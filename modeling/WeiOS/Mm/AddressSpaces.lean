import Mathlib
import WeiOS.Mm.PageContents

/-!
# Address Spaces

`duppage` and `cow_fork` of `kern/sysfunc.c` over the page tables, and the processor's loads and stores with
`page_fault_handler` of `kern/trap.c` behind them. What a user program may think of it is stated on its own: each
process has pages of its own, which a fork copies at once, and pages that it shares, which a fork shares too.

## Main results
- `Rel`: what the page tables have to do with the address spaces.
- `Rel.fresh`, `Rel.copied`, `Rel.store`: a new page, a page that two processes have, and a write.
-/

namespace WeiOS.Paging.Cow

open WeiOS.Paging.PageMap
open WeiOS.Paging.HeapFault (pageFaultHandler)

/-! ## §1 The source functions -/

/-- `uvpd[d]`. -/
def uvpd (s : Vm) (cur : Proc) (d : Nat) : Pte := s.pgdir cur d

/-- `uvpt[pn]`, where there is a page table. -/
def uvpt (s : Vm) (cur : Proc) (pn : Nat) : Pte := s.table (uvpd s cur (pn / PDENTRIES)).frame (pn % PDENTRIES)

/-- `duppage`. -/
def duppage (s : Vm) (cur son : Proc) (pNum : Nat) : Option Err × Vm :=
  let va := pNum * PGSIZE
  let pt := (uvpt s cur pNum).perm
  if pt &&& PTE_SHARE ≠ 0 then userPageMap s (some cur) va (some son) va (PTE_SYSCALL &&& pt)
  else
    let perm := if pt &&& PTE_W ≠ 0 ∨ pt &&& PTE_COW ≠ 0 then PTE_U ||| PTE_P ||| PTE_COW else PTE_U ||| PTE_P
    match userPageMap s (some cur) va (some son) va perm with
    | (some e, s) => (some e, s)
    | (none, s) =>
      if perm &&& PTE_COW ≠ 0 then userPageMap s (some cur) va (some cur) va perm else (none, s)

/-- The inner loop of `cow_fork`. -/
def cowPages (cur son : Proc) : List Nat → Vm → Bool × Vm
  | [], s => (true, s)
  | pn :: pns, s =>
    if (uvpt s cur pn).present then
      match duppage s cur son pn with
      | (some _, s) => (false, s)
      | (none, s) => cowPages cur son pns s
    else cowPages cur son pns s

/-- The outer loop of `cow_fork`. -/
def cowTables (cur son : Proc) : List Nat → Vm → Bool × Vm
  | [], s => (true, s)
  | d :: ds, s =>
    if (uvpd s cur d).present then
      match cowPages cur son (List.range' (d * PDENTRIES) PDENTRIES) s with
      | (false, s) => (false, s)
      | (true, s) => cowTables cur son ds s
    else cowTables cur son ds s

/-- `cow_fork`. -/
def cowFork (s : Vm) (cur son : Proc) : Bool × Vm :=
  cowTables cur son (List.range' (PDINDEX UTEXT) (PDINDEX UTOP - PDINDEX UTEXT)) s

/-- What `dup_proc_struct` copies of the heap. -/
def copyHeap (s : Vm) (cur son : Proc) : Vm :=
  { s with
    heapPtr := Function.update s.heapPtr son (s.heapPtr cur)
    baseMemSz := Function.update s.baseMemSz son (s.baseMemSz cur) }

/-- `clone`, as far as it concerns memory, for a child that `proc_alloc` has set up. A failure panics here. -/
def fork (s : Vm) (cur son : Proc) : Option Vm :=
  match cowFork (copyHeap s cur son) cur son with
  | (true, s) => some s
  | (false, _) => none

/-- The frame that the processor finds for a user access. -/
def access (s : Vm) (p : Proc) (write : Bool) (va : Nat) : Option Nat :=
  match tr s p va, effective s p va with
  | some e, some x => if x &&& PTE_U ≠ 0 ∧ (write = true → x &&& PTE_W ≠ 0) then some e.frame else none
  | _, _ => none

/-- An access, tried again after a page fault. A second fault for it would come again and again. -/
def reach (s : Vm) (p : Proc) (write : Bool) (va : Nat) : Option (Nat × Vm) :=
  match access s p write va with
  | some f => some (f, s)
  | none =>
    match pageFaultHandler s p write va with
    | none => none
    | some s => (access s p write va).map (·, s)

/-- A byte is read. -/
def load (s : Vm) (p : Proc) (va : Nat) : Option (Nat × Vm) :=
  (reach s p false va).map fun x => (x.2.data x.1 (va % PGSIZE), x.2)

/-- A byte of a frame is written. -/
def poke (s : Vm) (f i : Nat) (b : UInt8) : Vm :=
  { s with data := Function.update s.data f (Function.update (s.data f) i b.toNat) }

/-- A byte is written. -/
def store (s : Vm) (p : Proc) (va : Nat) (b : UInt8) : Option Vm :=
  (reach s p true va).map fun x => poke x.2 x.1 (va % PGSIZE) b

/-- What processes do: system calls, and accesses. -/
inductive Op where
  | alloc (p : Proc) (v : Nat)
  | unmap (p : Proc) (v : Nat)
  | exit (p : Proc)
  | fork (cur son : Proc)
  | load (p : Proc) (va : Nat)
  | store (p : Proc) (va : Nat) (b : UInt8)

/-- One step, with the byte that it reads. -/
def step (s : Vm) : Op → Option (Option Nat × Vm)
  | .alloc p v =>
    match userPageAlloc s (some p) v PTE_USTK with
    | (none, s) => some (none, s)
    | (some _, _) => none
  | .unmap p v =>
    match userPageUpmap s (some p) v with
    | (none, s) => some (none, s)
    | (some _, _) => none
  | .exit p => if p = s.rootproc then none else some (none, exit s p)
  | .fork cur son => (fork s cur son).map (none, ·)
  | .load p va => (load s p va).map fun x => (some x.1, x.2)
  | .store p va b => (store s p va b).map (none, ·)

/-- Steps of any processes, in any order. -/
def run (s : Vm) : List Op → Option (List (Option Nat) × Vm)
  | [] => some ([], s)
  | o :: os =>
    match step s o with
    | none => none
    | some (r, s) => (run s os).map fun x => (r :: x.1, x.2)

/-! ## §2 Address spaces -/

/-- A page of a process: its own bytes, or an object that other processes may have too. -/
inductive Page where
  | own (write : Bool) (bytes : Nat → Nat)
  | shared (write : Bool) (object : Nat)

def Page.writable : Page → Bool
  | .own write _ => write
  | .shared write _ => write

/-- The pages by their addresses, the bytes of the objects, the next object, and the bounds of the heaps. -/
structure Spaces where
  page : Proc → Nat → Option Page
  object : Nat → Nat → Nat
  next : Nat
  base : Proc → Nat
  top : Proc → Nat

namespace Spaces

def setPage (A : Spaces) (p : Proc) (v : Nat) (pg : Option Page) : Spaces :=
  { A with page := Function.update A.page p (Function.update (A.page p) v pg) }

def bytes (A : Spaces) : Page → Nat → Nat
  | .own _ bytes => bytes
  | .shared _ o => A.object o

def read (A : Spaces) (p : Proc) (va : Nat) : Option Nat :=
  (A.page p (ROUNDDOWN va)).map fun pg => A.bytes pg (va % PGSIZE)

def write (A : Spaces) (p : Proc) (va : Nat) (b : UInt8) : Spaces :=
  match A.page p (ROUNDDOWN va) with
  | none => A
  | some (.own w bytes) =>
    A.setPage p (ROUNDDOWN va) (some (.own w (Function.update bytes (va % PGSIZE) b.toNat)))
  | some (.shared _ o) =>
    { A with object := Function.update A.object o (Function.update (A.object o) (va % PGSIZE) b.toNat) }

/-- A new object of zeros. -/
def addPage (A : Spaces) (p : Proc) (v : Nat) : Spaces :=
  { A.setPage p v (some (.shared true A.next)) with
    object := Function.update A.object A.next fun _ => 0
    next := A.next + 1 }

def InHeap (A : Spaces) (p : Proc) (va : Nat) : Prop := A.base p ≤ va ∧ va < A.top p

/-- The heap grows where it is used. An address inside a page brings the next page too, and what was there is gone. -/
def touch (A : Spaces) (p : Proc) (va : Nat) : Spaces :=
  if (A.page p (ROUNDDOWN va)).isSome then A
  else if PGSIZE ∣ va then A.addPage p va
  else (A.addPage p (ROUNDDOWN va)).addPage p (ROUNDDOWN va + PGSIZE)

/-- Where the first page table starts that a fork copies. -/
def forkBase : Nat := PDINDEX UTEXT * PDENTRIES * PGSIZE

/-- The pages of `cur` below `b` are copied to `son`; an object stays the same object. -/
def forkBelow (A : Spaces) (cur son : Proc) (b : Nat) : Spaces :=
  { A with page := fun q v => if q = son ∧ forkBase ≤ v ∧ v < b then A.page cur v else A.page q v }

def copyHeap (A : Spaces) (cur son : Proc) : Spaces :=
  { A with
    base := Function.update A.base son (A.base cur)
    top := Function.update A.top son (A.top cur) }

def step (A : Spaces) : Op → Option Nat × Spaces
  | .alloc p v => (none, A.setPage p v (some (.own true fun _ => 0)))
  | .unmap p v => (none, A.setPage p v none)
  | .exit p => (none, { A with page := Function.update A.page p fun _ => none })
  | .fork cur son => (none, (A.copyHeap cur son).forkBelow cur son UTOP)
  | .load p va => ((A.touch p va).read p va, A.touch p va)
  | .store p va b => (none, (A.touch p va).write p va b)

def run (A : Spaces) : List Op → List (Option Nat) × Spaces
  | [] => ([], A)
  | o :: os => ((A.step o).1 :: ((A.step o).2.run os).1, ((A.step o).2.run os).2)

end Spaces

/-- What the processes may do: a page that is removed is there; the root process does not exit; a fork is
    into an empty address space, and there is memory; an access is to a page that allows it or into the
    heap, where the first write needs a page table. -/
def Allowed (s : Vm) (A : Spaces) : Op → Prop
  | .alloc _ v => UserPage v ∧ v ≠ PFTEMP ∧ Supplies s 2
  | .unmap p v => UserPage v ∧ (A.page p v).isSome = true
  | .exit p => p ≠ s.rootproc
  | .fork cur son => cur ≠ son ∧ (∀ v, UserPage v → A.page son v = none) ∧
      Supplies s (PDINDEX UTOP - PDINDEX UTEXT)
  | .load p va => va < UTOP ∧ ((A.page p (ROUNDDOWN va)).isSome = true ∨ A.InHeap p va ∧ Supplies s 4)
  | .store p va _ => va < UTOP ∧ Supplies s 4 ∧
      ((∃ pg, A.page p (ROUNDDOWN va) = some pg ∧ pg.writable = true) ∨
        A.page p (ROUNDDOWN va) = none ∧ A.InHeap p va ∧ (pdeAt s (p, PDINDEX va)).isSome = true)

/-- Every step of the run is allowed where it is made. -/
def AllAllowed : Vm → Spaces → List Op → Prop
  | _, _, [] => True
  | s, A, o :: os => Allowed s A o ∧ ∀ r s', step s o = some (r, s') → AllAllowed s' (A.step o).2 os

/-! ## §3 The page tables and the address spaces -/

/-- An entry and the page that it stands for. -/
inductive Agree (s : Vm) (object : Nat → Nat → Nat) : Option Pte → Option Page → Prop
  | none : Agree s object none none
  | own {e : Pte} {w : Bool} {bytes : Nat → Nat} (user : e.perm &&& PTE_U ≠ 0) (own : e.perm &&& PTE_SHARE = 0)
      (write : w = true ↔ e.perm &&& PTE_W ≠ 0 ∨ e.perm &&& PTE_COW ≠ 0) (data : s.data e.frame = bytes) :
      Agree s object (some e) (some (.own w bytes))
  | shared {e : Pte} {w : Bool} {o : Nat} (user : e.perm &&& PTE_U ≠ 0) (share : e.perm &&& PTE_SHARE ≠ 0)
      (write : w = true ↔ e.perm &&& PTE_W ≠ 0) (cow : w = false → e.perm &&& PTE_COW = 0)
      (data : s.data e.frame = object o) : Agree s object (some e) (some (.shared w o))

/-- The address has an entry and a page. -/
structure Holds (s : Vm) (A : Spaces) (q : Proc) (v : Nat) (e : Pte) (pg : Page) : Prop where
  page : UserPage v
  entry : tr s q v = some e
  value : A.page q v = some pg

/-- When two addresses may have the same frame: they are the same object, or neither can be written in place. -/
def Together (e : Pte) (pg : Page) (e' : Pte) (pg' : Page) : Prop :=
  (∃ w w' o, pg = .shared w o ∧ pg' = .shared w' o) ∨
    (∃ w bytes, pg = .own w bytes) ∧ (∃ w bytes, pg' = .own w bytes) ∧
      e.perm &&& PTE_W = 0 ∧ e'.perm &&& PTE_W = 0

/-- The page tables are those of the address spaces. -/
structure Rel (hand : List Nat) (s : Vm) (A : Spaces) : Prop where
  ok : Ok hand s
  agree : ∀ q v, UserPage v → Agree s A.object (tr s q v) (A.page q v)
  frames : ∀ {q v e pg q' v' e' pg'}, Holds s A q v e pg → Holds s A q' v' e' pg' → e.frame = e'.frame →
    (q, v) = (q', v') ∨ Together e pg e' pg'
  objects : ∀ {q v e w q' v' e' w' o}, Holds s A q v e (.shared w o) → Holds s A q' v' e' (.shared w' o) →
    e.frame = e'.frame
  next : ∀ {q v e w o}, Holds s A q v e (.shared w o) → o < A.next
  temp : ∀ q, A.page q PFTEMP = none
  base : A.base = s.baseMemSz
  top : A.top = s.heapPtr
  heap : ∀ p va, A.InHeap p va → UTEXT ≤ va ∧ va < HEAPTOP

section Rel

variable {hand : List Nat} {s s' : Vm} {A A' : Spaces} {p q cur son : Proc} {v va : Nat} {e x y : Pte} {pg : Page}

theorem Agree.congr {object object' : Nat → Nat → Nat} {a : Option Pte} {b : Option Page} (h : Agree s object a b)
    (hdata : ∀ z, a = some z → s'.data z.frame = s.data z.frame)
    (hobject : ∀ w o, b = some (.shared w o) → object' o = object o) : Agree s' object' a b := by
  cases h with
  | none => exact .none
  | own user own write data => exact .own user own write ((hdata _ rfl).trans data)
  | shared user share write cow data =>
    exact .shared user share write cow ((hdata _ rfl).trans (data.trans (hobject _ _ rfl).symm))

theorem Spaces.setPage_self (A : Spaces) (p : Proc) (v : Nat) (b : Option Page) : (A.setPage p v b).page p v = b := by
  show Function.update A.page p (Function.update (A.page p) v b) p v = b
  rw [Function.update_self, Function.update_self]

theorem Spaces.setPage_of_ne {u : Nat} (A : Spaces) (b : Option Page) (hne : (q, u) ≠ (p, v)) :
    (A.setPage p v b).page q u = A.page q u := by
  show Function.update A.page p (Function.update (A.page p) v b) q u = _
  by_cases hq : q = p
  · subst hq
    rw [Function.update_self, Function.update_of_ne fun heq => hne (by rw [heq])]
  · rw [Function.update_of_ne hq]

theorem Together.symm {e e' : Pte} {pg pg' : Page} (h : Together e pg e' pg') : Together e' pg' e pg := by
  rcases h with ⟨w, w', o, h₁, h₂⟩ | ⟨h₁, h₂, h₃, h₄⟩
  · exact .inl ⟨w', w, o, h₂, h₁⟩
  · exact .inr ⟨h₂, h₁, h₄, h₃⟩

/-- Where there is a page there is an entry. -/
theorem Rel.entry (h : Rel hand s A) (hv : UserPage v) (hpg : A.page p v = some pg) :
    ∃ e, Holds s A p v e pg ∧ Agree s A.object (some e) (some pg) := by
  have hagree := h.agree p v hv
  rw [hpg] at hagree
  cases htr : tr s p v with
  | none =>
    rw [htr] at hagree
    cases hagree
  | some e =>
    rw [htr] at hagree
    exact ⟨e, ⟨hv, htr, hpg⟩, hagree⟩

theorem Rel.absent (h : Rel hand s A) (hv : UserPage v) (hpg : A.page p v = none) : tr s p v = none := by
  have hagree := h.agree p v hv
  rw [hpg] at hagree
  cases htr : tr s p v with
  | none => rfl
  | some e =>
    rw [htr] at hagree
    cases hagree

theorem Rel.missing (h : Rel hand s A) (hv : UserPage v) (he : tr s p v = none) : A.page p v = none := by
  cases hpg : A.page p v with
  | none => rfl
  | some pg =>
    obtain ⟨e, hold, _⟩ := h.entry hv hpg
    rw [hold.entry] at he
    cases he

/-- Where there is an entry there is a page. -/
theorem Rel.value (h : Rel hand s A) (hv : UserPage v) (he : tr s p v = some e) :
    ∃ pg, Holds s A p v e pg ∧ Agree s A.object (some e) (some pg) := by
  have hagree := h.agree p v hv
  rw [he] at hagree
  cases hpg : A.page p v with
  | none =>
    rw [hpg] at hagree
    cases hagree
  | some pg =>
    rw [hpg] at hagree
    exact ⟨pg, ⟨hv, he, hpg⟩, hagree⟩

/-- The address spaces matter at user pages only. -/
theorem Rel.congr (h : Rel hand s A) (hpage : ∀ q v, UserPage v → A'.page q v = A.page q v)
    (hobject : A'.object = A.object)
    (hnext : A'.next = A.next) (hbase : A'.base = A.base) (htop : A'.top = A.top) : Rel hand s A' := by
  have hold : ∀ {q v e pg}, Holds s A' q v e pg → Holds s A q v e pg :=
    fun h' => ⟨h'.page, h'.entry, (hpage _ _ h'.page).symm.trans h'.value⟩
  refine ⟨h.ok, fun q v hv => ?_, fun h₁ h₂ => h.frames (hold h₁) (hold h₂), fun h₁ h₂ => h.objects (hold h₁) (hold h₂),
    fun h₁ => ?_, fun q => ?_, hbase.trans h.base, htop.trans h.top, fun p va hin => h.heap p va ?_⟩
  · rw [hpage q v hv, hobject]
    exact h.agree q v hv
  · rw [hnext]
    exact h.next (hold h₁)
  · rw [hpage q PFTEMP ⟨by decide, by decide⟩]
    exact h.temp q
  · unfold Spaces.InHeap at hin ⊢
    rw [← hbase, ← htop]
    exact hin

/-- **A frame that nobody has** is mapped for a page. -/
theorem Rel.fresh (h : Rel hand s A) (hok : Ok hand s') (hsame : Same s s') (hself : tr s' p v = some x)
    (hnot : ¬ Live s x.frame)
    (hother : ∀ q u, UserPage u → (q, u) ≠ (p, v) → tr s' q u = tr s q u ∧
      ∀ z, tr s q u = some z → s'.data z.frame = s.data z.frame)
    (hv : v ≠ PFTEMP) (hpage : A'.page p v = some pg)
    (hpages : ∀ q u, (q, u) ≠ (p, v) → A'.page q u = A.page q u)
    (hobject : ∀ o < A.next, A'.object o = A.object o) (hnext : A.next ≤ A'.next)
    (hagree : Agree s' A'.object (some x) (some pg))
    (hnew : ∀ w o, pg = .shared w o → A.next ≤ o ∧ o < A'.next)
    (hbase : A'.base = A.base) (htop : A'.top = A.top) : Rel hand s' A' := by
  have hold : ∀ {q u e' pg'}, (q, u) ≠ (p, v) → Holds s' A' q u e' pg' → Holds s A q u e' pg' := fun hne h' =>
    ⟨h'.page, (hother _ _ h'.page hne).1.symm.trans h'.entry, (hpages _ _ hne).symm.trans h'.value⟩
  have hnow : ∀ {e' pg'}, Holds s' A' p v e' pg' → e' = x ∧ pg' = pg := fun h' =>
    ⟨Option.some.inj (h'.entry.symm.trans hself), Option.some.inj (h'.value.symm.trans hpage)⟩
  have hapart : ∀ {q u e' pg'}, Holds s A q u e' pg' → e'.frame ≠ x.frame := by
    intro q u e' pg' h' heq
    obtain ⟨_, _, hlive⟩ := h.ok.mapped h'.page.1 h'.entry
    exact hnot (heq ▸ hlive)
  -- each part holds of the new page by its frame, and of the others as before
  refine ⟨hok, fun q u hu => ?_, ?_, ?_, ?_, fun q => ?_, ?_, ?_, fun q va hin => h.heap q va ?_⟩
  · by_cases hslot : (q, u) = (p, v)
    · obtain ⟨rfl, rfl⟩ := Prod.mk.inj hslot
      rw [hself, hpage]
      exact hagree
    · obtain ⟨htr, hdata⟩ := hother q u hu hslot
      rw [htr, hpages q u hslot]
      refine (h.agree q u hu).congr hdata fun w o ho => ?_
      obtain ⟨_, h', _⟩ := h.entry hu ho
      exact hobject o (h.next h')
  · intro q u e₁ pg₁ q' u' e₂ pg₂ h₁ h₂ heq
    by_cases hslot₁ : (q, u) = (p, v)
    · by_cases hslot₂ : (q', u') = (p, v)
      · exact .inl (hslot₁.trans hslot₂.symm)
      · obtain ⟨rfl, rfl⟩ := Prod.mk.inj hslot₁
        rw [(hnow h₁).1] at heq
        exact absurd heq.symm (hapart (hold hslot₂ h₂))
    · by_cases hslot₂ : (q', u') = (p, v)
      · obtain ⟨rfl, rfl⟩ := Prod.mk.inj hslot₂
        rw [(hnow h₂).1] at heq
        exact absurd heq (hapart (hold hslot₁ h₁))
      · exact h.frames (hold hslot₁ h₁) (hold hslot₂ h₂) heq
  · intro q u e₁ w q' u' e₂ w' o h₁ h₂
    by_cases hslot₁ : (q, u) = (p, v)
    · obtain ⟨rfl, rfl⟩ := Prod.mk.inj hslot₁
      obtain ⟨rfl, hpg₁⟩ := hnow h₁
      by_cases hslot₂ : (q', u') = (q, u)
      · obtain ⟨rfl, rfl⟩ := Prod.mk.inj hslot₂
        rw [(hnow h₂).1]
      · exact absurd (h.next (hold hslot₂ h₂)) (Nat.not_lt.2 (hnew w o hpg₁.symm).1)
    · by_cases hslot₂ : (q', u') = (p, v)
      · obtain ⟨rfl, rfl⟩ := Prod.mk.inj hslot₂
        exact absurd (h.next (hold hslot₁ h₁)) (Nat.not_lt.2 (hnew w' o (hnow h₂).2.symm).1)
      · exact h.objects (hold hslot₁ h₁) (hold hslot₂ h₂)
  · intro q u e' w o h'
    by_cases hslot : (q, u) = (p, v)
    · obtain ⟨rfl, rfl⟩ := Prod.mk.inj hslot
      exact (hnew w o (hnow h').2.symm).2
    · exact (h.next (hold hslot h')).trans_le hnext
  · rw [hpages q PFTEMP fun heq => hv (Prod.mk.inj heq).2.symm]
    exact h.temp q
  · rw [hbase, h.base, hsame.baseMemSz]
  · rw [htop, h.top, hsame.heapPtr]
  · unfold Spaces.InHeap at hin ⊢
    rw [← hbase, ← htop]
    exact hin

/-- **A page that a second process gets** has the same frame, and cannot be written in place if it is not shared. -/
theorem Rel.copied (h : Rel hand s A) (hold : Holds s A cur v e pg) (hne : cur ≠ son)
    (hok : Ok hand s') (hsame : Same s s')
    (hson : tr s' son v = some x) (hcur : tr s' cur v = some y) (hx : x.frame = e.frame) (hy : y.frame = e.frame)
    (hother : ∀ q u, UserPage u → (q, u) ≠ (son, v) → (q, u) ≠ (cur, v) → tr s' q u = tr s q u)
    (hdata : ∀ q u z, UserPage u → tr s q u = some z → s'.data z.frame = s.data z.frame)
    (hax : Agree s' A.object (some x) (some pg)) (hay : Agree s' A.object (some y) (some pg))
    (hW : ∀ w bytes, pg = .own w bytes → x.perm &&& PTE_W = 0 ∧ y.perm &&& PTE_W = 0) :
    Rel hand s' (A.setPage son v (some pg)) := by
  have hcurne : (cur, v) ≠ (son, v) := fun heq => hne (Prod.mk.inj heq).1
  -- each address is as it was, or one of the two that have the page
  have hback : ∀ {q u z pg'}, Holds s' (A.setPage son v (some pg)) q u z pg' →
      (Holds s A q u z pg' ∧ (q, u) ≠ (cur, v)) ∨ (pg' = pg ∧ z.frame = e.frame ∧
        ∀ w bytes, pg = .own w bytes → z.perm &&& PTE_W = 0) := by
    intro q u z pg' h'
    by_cases hslot : (q, u) = (son, v)
    · obtain ⟨rfl, rfl⟩ := Prod.mk.inj hslot
      obtain rfl : z = x := Option.some.inj (h'.entry.symm.trans hson)
      have hpg := h'.value.symm.trans (A.setPage_self q u (some pg))
      exact .inr ⟨Option.some.inj hpg, hx, fun w bytes hown => (hW w bytes hown).1⟩
    · have hvalue := (A.setPage_of_ne (some pg) hslot).symm.trans h'.value
      by_cases hslot' : (q, u) = (cur, v)
      · obtain ⟨rfl, rfl⟩ := Prod.mk.inj hslot'
        obtain rfl : z = y := Option.some.inj (h'.entry.symm.trans hcur)
        exact .inr ⟨Option.some.inj (hvalue.symm.trans hold.value), hy, fun w bytes hown => (hW w bytes hown).2⟩
      · exact .inl ⟨⟨h'.page, (hother q u h'.page hslot hslot').symm.trans h'.entry, hvalue⟩, hslot'⟩
  have hmixed : ∀ {q u z pg' e' pg''}, Holds s A q u z pg' → (q, u) ≠ (cur, v) → pg'' = pg → e'.frame = e.frame →
      (∀ w bytes, pg = .own w bytes → e'.perm &&& PTE_W = 0) → z.frame = e'.frame → Together z pg' e' pg'' := by
    intro q u z pg' e' pg'' h₁ hslot hpg he hw heq
    rcases h.frames h₁ hold (heq.trans he) with hsame | hshared | ⟨hown₁, ⟨w, bytes, hown⟩, hw₁, _⟩
    · exact absurd hsame hslot
    · rw [hpg]
      exact .inl hshared
    · exact .inr ⟨hown₁, ⟨w, bytes, hpg.trans hown⟩, hw₁, hw w bytes hown⟩
  refine ⟨hok, fun q u hu => ?_, ?_, ?_, ?_, fun q => ?_, ?_, ?_, fun q va hin => h.heap q va hin⟩
  · by_cases hslot : (q, u) = (son, v)
    · obtain ⟨rfl, rfl⟩ := Prod.mk.inj hslot
      rw [hson, Spaces.setPage_self]
      exact hax
    · rw [A.setPage_of_ne _ hslot]
      by_cases hslot' : (q, u) = (cur, v)
      · obtain ⟨rfl, rfl⟩ := Prod.mk.inj hslot'
        rw [hcur, hold.value]
        exact hay
      · rw [hother q u hu hslot hslot']
        exact (h.agree q u hu).congr (hdata q u · hu) fun _ _ _ => rfl
  · intro q u e₁ pg₁ q' u' e₂ pg₂ h₁ h₂ heq
    rcases hback h₁ with ⟨h₁', hslot₁⟩ | ⟨rfl, he₁, hw₁⟩
    · rcases hback h₂ with ⟨h₂', _⟩ | ⟨hpg₂, he₂, hw₂⟩
      · exact h.frames h₁' h₂' heq
      · exact .inr (hmixed h₁' hslot₁ hpg₂ he₂ hw₂ heq)
    · rcases hback h₂ with ⟨h₂', hslot₂⟩ | ⟨hpg₂, he₂, hw₂⟩
      · exact .inr (hmixed h₂' hslot₂ rfl he₁ hw₁ heq.symm).symm
      · right
        rw [hpg₂]
        cases pg₁ with
        | own w bytes => exact .inr ⟨⟨w, bytes, rfl⟩, ⟨w, bytes, rfl⟩, hw₁ w bytes rfl, hw₂ w bytes rfl⟩
        | shared w o => exact .inl ⟨w, w, o, rfl, rfl⟩
  · intro q u e₁ w q' u' e₂ w' o h₁ h₂
    rcases hback h₁ with ⟨h₁', _⟩ | ⟨hpg₁, he₁, _⟩
    · rcases hback h₂ with ⟨h₂', _⟩ | ⟨hpg₂, he₂, _⟩
      · exact h.objects h₁' h₂'
      · rw [he₂]
        rw [← hpg₂] at hold
        exact h.objects h₁' hold
    · rw [he₁]
      rw [← hpg₁] at hold
      rcases hback h₂ with ⟨h₂', _⟩ | ⟨_, he₂, _⟩
      · exact h.objects hold h₂'
      · exact he₂.symm
  · intro q u e' w o h'
    rcases hback h' with ⟨h'', _⟩ | ⟨hpg, _⟩
    · exact h.next h''
    · rw [← hpg] at hold
      exact h.next hold
  · have hv : (q, PFTEMP) ≠ (son, v) := by
      intro heq
      have hnone := h.temp cur
      rw [(Prod.mk.inj heq).2, hold.value] at hnone
      cases hnone
    rw [A.setPage_of_ne _ hv]
    exact h.temp q
  · exact h.base.trans hsame.baseMemSz.symm
  · exact h.top.trans hsame.heapPtr.symm

/-- **Pages that are removed**, and those that stay. -/
theorem Rel.fewer (h : Rel hand s A) (hok : Ok hand s') (hsame : Same s s')
    (hdata : ∀ q u z, UserPage u → tr s q u = some z → s'.data z.frame = s.data z.frame)
    (hpages : ∀ q u, UserPage u → tr s' q u = none ∧ A'.page q u = none ∨
      tr s' q u = tr s q u ∧ A'.page q u = A.page q u)
    (hobject : A'.object = A.object) (hnext : A'.next = A.next) (hbase : A'.base = A.base) (htop : A'.top = A.top) :
    Rel hand s' A' := by
  have hback : ∀ {q u z pg'}, Holds s' A' q u z pg' → Holds s A q u z pg' := by
    intro q u z pg' h'
    rcases hpages q u h'.page with ⟨hnone, _⟩ | ⟨htr, hpg⟩
    · rw [h'.entry] at hnone
      cases hnone
    · exact ⟨h'.page, htr.symm.trans h'.entry, hpg.symm.trans h'.value⟩
  refine ⟨hok, fun q u hu => ?_, fun h₁ h₂ => h.frames (hback h₁) (hback h₂),
    fun h₁ h₂ => h.objects (hback h₁) (hback h₂), fun h₁ => ?_, fun q => ?_,
    hbase.trans (h.base.trans hsame.baseMemSz.symm), htop.trans (h.top.trans hsame.heapPtr.symm),
    fun q va hin => h.heap q va ?_⟩
  · rcases hpages q u hu with ⟨hnone, hpg⟩ | ⟨htr, hpg⟩
    · rw [hnone, hpg]
      exact .none
    · rw [htr, hpg, hobject]
      exact (h.agree q u hu).congr (hdata q u · hu) fun _ _ _ => rfl
  · rw [hnext]
    exact h.next (hback h₁)
  · rcases hpages q PFTEMP ⟨by decide, by decide⟩ with ⟨_, hpg⟩ | ⟨_, hpg⟩
    · exact hpg
    · exact hpg.trans (h.temp q)
  · unfold Spaces.InHeap at hin ⊢
    rw [← hbase, ← htop]
    exact hin

/-- A byte of a frame changes, and no table. -/
theorem Ok.poke (h : Ok hand s) (f i : Nat) (b : UInt8) : Ok hand (Cow.poke s f i b) :=
  ⟨h.refs.congr rfl rfl (fun _ _ => rfl) (fun _ _ _ _ => rfl) rfl rfl, h.map.congr rfl rfl rfl⟩

/-- Memory with other bytes in one frame. -/
def fill (s : Vm) (f : Nat) (bytes : Nat → Nat) : Vm := { s with data := Function.update s.data f bytes }

theorem Ok.fill (h : Ok hand s) (f : Nat) (bytes : Nat → Nat) : Ok hand (Cow.fill s f bytes) :=
  ⟨h.refs.congr rfl rfl (fun _ _ => rfl) (fun _ _ _ _ => rfl) rfl rfl, h.map.congr rfl rfl rfl⟩

/-- A page of the process's own gets other bytes. -/
theorem Rel.fill {w : Bool} {bytes : Nat → Nat} (h : Rel hand s A) (hold : Holds s A p v e (.own w bytes))
    (hw : e.perm &&& PTE_W ≠ 0) (page : Nat → Nat) :
    Rel hand (Cow.fill s e.frame page) (A.setPage p v (some (.own w page))) := by
  have hback : ∀ {q u z pg'}, (q, u) ≠ (p, v) →
      Holds (Cow.fill s e.frame page) (A.setPage p v (some (.own w page))) q u z pg' →
        Holds s A q u z pg' := fun hslot h' =>
    ⟨h'.page, h'.entry, (A.setPage_of_ne _ hslot).symm.trans h'.value⟩
  have hapart : ∀ {q u z pg'}, (q, u) ≠ (p, v) → Holds s A q u z pg' → z.frame ≠ e.frame := by
    intro q u z pg' hslot h' heq
    rcases h.frames h' hold heq with hsame | ⟨_, _, _, _, hc⟩ | ⟨_, _, _, hc⟩
    · exact hslot hsame
    · cases hc
    · exact hw hc
  have hnow : ∀ {z pg'}, Holds (Cow.fill s e.frame page) (A.setPage p v (some (.own w page))) p v z pg' →
        z = e ∧ pg' = .own w page := fun h' =>
    ⟨Option.some.inj (h'.entry.symm.trans hold.entry), Option.some.inj (h'.value.symm.trans (A.setPage_self _ _ _))⟩
  refine ⟨Ok.fill h.ok _ _, fun q u hu => ?_, ?_, ?_, ?_, fun q => ?_, h.base, h.top, h.heap⟩
  · by_cases hslot : (q, u) = (p, v)
    · obtain ⟨rfl, rfl⟩ := Prod.mk.inj hslot
      have hagree := h.agree q u hu
      rw [hold.entry, hold.value] at hagree
      rw [Spaces.setPage_self, show tr (Cow.fill s e.frame page) q u = some e from hold.entry]
      cases hagree with
      | own user own write data => exact .own user own write (Function.update_self ..)
    · rw [A.setPage_of_ne _ hslot]
      refine (h.agree q u hu).congr (fun z hz => ?_) fun _ _ _ => rfl
      obtain ⟨pg', h', _⟩ := h.value hu hz
      exact Function.update_of_ne (hapart hslot h') ..
  · intro q u e₁ pg₁ q' u' e₂ pg₂ h₁ h₂ heq
    by_cases hslot₁ : (q, u) = (p, v)
    · by_cases hslot₂ : (q', u') = (p, v)
      · exact .inl (hslot₁.trans hslot₂.symm)
      · obtain ⟨rfl, rfl⟩ := Prod.mk.inj hslot₁
        rw [(hnow h₁).1] at heq
        exact absurd heq.symm (hapart hslot₂ (hback hslot₂ h₂))
    · by_cases hslot₂ : (q', u') = (p, v)
      · obtain ⟨rfl, rfl⟩ := Prod.mk.inj hslot₂
        rw [(hnow h₂).1] at heq
        exact absurd heq (hapart hslot₁ (hback hslot₁ h₁))
      · exact h.frames (hback hslot₁ h₁) (hback hslot₂ h₂) heq
  · intro q u e₁ w₁ q' u' e₂ w₂ o h₁ h₂
    have hne : ∀ {q u z w' o'},
        Holds (Cow.fill s e.frame page) (A.setPage p v (some (.own w page))) q u z (.shared w' o') →
        (q, u) ≠ (p, v) := by
      intro q u z w' o' h' hslot
      obtain ⟨rfl, rfl⟩ := Prod.mk.inj hslot
      cases (hnow h').2
    exact h.objects (hback (hne h₁) h₁) (hback (hne h₂) h₂)
  · intro q u e' w' o h'
    refine h.next (hback (fun hslot => ?_) h')
    obtain ⟨rfl, rfl⟩ := Prod.mk.inj hslot
    cases (hnow h').2
  · have hv : (q, PFTEMP) ≠ (p, v) := by
      intro heq
      have hnone := h.temp p
      rw [(Prod.mk.inj heq).2, hold.value] at hnone
      cases hnone
    rw [A.setPage_of_ne _ hv]
    exact h.temp q

/-- A write to a page of the process's own. -/
theorem Rel.storeOwn {w : Bool} {bytes : Nat → Nat} (h : Rel hand s A) (hold : Holds s A p v e (.own w bytes))
    (hw : e.perm &&& PTE_W ≠ 0) (i : Nat) (b : UInt8) :
    Rel hand (poke s e.frame i b) (A.setPage p v (some (.own w (Function.update bytes i b.toNat)))) := by
  have hdata : s.data e.frame = bytes := by
    have hagree := h.agree p v hold.page
    rw [hold.entry, hold.value] at hagree
    cases hagree with
    | own _ _ _ data => exact data
  rw [← hdata] at hold ⊢
  exact h.fill hold hw _

/-- A write to an object. -/
theorem Rel.storeShared {w : Bool} {o : Nat} (h : Rel hand s A) (hold : Holds s A p v e (.shared w o))
    (i : Nat) (b : UInt8) :
    Rel hand (poke s e.frame i b)
      { A with object := Function.update A.object o (Function.update (A.object o) i b.toNat) } := by
  have hback : ∀ {q u z pg'}, Holds (poke s e.frame i b)
      { A with object := Function.update A.object o (Function.update (A.object o) i b.toNat) } q u z pg' →
        Holds s A q u z pg' := fun h' => ⟨h'.page, h'.entry, h'.value⟩
  refine ⟨Ok.poke h.ok _ _ _, fun q u hu => ?_, fun h₁ h₂ => h.frames (hback h₁) (hback h₂),
    fun h₁ h₂ => h.objects (hback h₁) (hback h₂), fun h₁ => h.next (hback h₁), h.temp, h.base, h.top, h.heap⟩
  show Agree _ _ (tr s q u) (A.page q u)
  cases hpg : A.page q u with
  | none =>
    rw [h.absent hu hpg]
    exact .none
  | some pg' =>
    obtain ⟨z, h', hagree⟩ := h.entry hu hpg
    rw [h'.entry]
    cases hagree with
    | own user own write data =>
      refine .own user own write (Eq.trans (Function.update_of_ne (fun heq => ?_) ..) data)
      rcases h.frames h' hold heq with hslot | ⟨_, _, _, hc, _⟩ | ⟨_, ⟨_, _, hc⟩, _⟩
      · obtain ⟨rfl, rfl⟩ := Prod.mk.inj hslot
        have hc := h'.value.symm.trans hold.value
        cases hc
      · cases hc
      · cases hc
    | @shared z w' o' user share write cow data =>
      refine .shared user share write cow ?_
      by_cases ho : o' = o
      · subst ho
        have heq : z.frame = e.frame := h.objects h' hold
        have hdata : s.data e.frame = A.object o' := heq ▸ data
        show Function.update s.data e.frame (Function.update (s.data e.frame) i b.toNat) z.frame =
          Function.update A.object o' (Function.update (A.object o') i b.toNat) o'
        rw [heq, Function.update_self, Function.update_self, hdata]
      · show Function.update s.data e.frame _ z.frame = Function.update A.object o _ o'
        rw [Function.update_of_ne ho, Function.update_of_ne fun heq => ?_]
        · exact data
        · rcases h.frames h' hold heq with hslot | ⟨_, _, _, h₁, h₂⟩ | ⟨_, ⟨_, _, hc⟩, _⟩
          · obtain ⟨rfl, rfl⟩ := Prod.mk.inj hslot
            have hc := h'.value.symm.trans hold.value
            cases hc
            exact ho rfl
          · cases h₁
            cases h₂
            exact ho rfl
          · cases hc

/-- **A write** in place. -/
theorem Rel.store (h : Rel hand s A) (hold : Holds s A p (ROUNDDOWN va) e pg) (hw : e.perm &&& PTE_W ≠ 0) (b : UInt8) :
    Rel hand (poke s e.frame (va % PGSIZE) b) (A.write p va b) := by
  unfold Spaces.write
  rw [hold.value]
  cases pg with
  | own w bytes => exact h.storeOwn hold hw _ b
  | shared w o => exact h.storeShared hold _ b

/-- The child's heap. -/
theorem Rel.copyHeap (h : Rel hand s A) (cur son : Proc) : Rel hand (Cow.copyHeap s cur son) (A.copyHeap cur son) := by
  have hback : ∀ {q u z pg'}, Holds (Cow.copyHeap s cur son) (A.copyHeap cur son) q u z pg' →
      Holds s A q u z pg' := fun h' => ⟨h'.page, h'.entry, h'.value⟩
  refine ⟨?_, fun q u hu => (h.agree q u hu).congr (fun _ _ => rfl) fun _ _ _ => rfl,
    fun h₁ h₂ => h.frames (hback h₁) (hback h₂), fun h₁ h₂ => h.objects (hback h₁) (hback h₂),
    fun h₁ => h.next (hback h₁), h.temp, ?_, ?_, fun p va hin => ?_⟩
  · exact ⟨h.ok.refs.congr rfl rfl (fun _ _ => rfl) (fun _ _ _ _ => rfl) rfl rfl, h.ok.map.congr rfl rfl rfl⟩
  · show Function.update A.base son (A.base cur) = Function.update s.baseMemSz son (s.baseMemSz cur)
    rw [h.base]
  · show Function.update A.top son (A.top cur) = Function.update s.heapPtr son (s.heapPtr cur)
    rw [h.top]
  · obtain ⟨hlo, hhi⟩ := hin
    change Function.update A.base son (A.base cur) p ≤ va at hlo
    change va < Function.update A.top son (A.top cur) p at hhi
    by_cases hp : p = son
    · rw [hp, Function.update_self] at hlo hhi
      exact h.heap cur va ⟨hlo, hhi⟩
    · rw [Function.update_of_ne hp] at hlo hhi
      exact h.heap p va ⟨hlo, hhi⟩

end Rel

end WeiOS.Paging.Cow
