import Mathlib
import WeiOS.Mm.CowFork
import WeiOS.Process.Create

/-!
# The Pages of a Fork

`cow_fork` calls `user_page_map` with the pids of both processes, and `pid2proc` finds them in each call. Over the page
tables alone it is then the copy of an address space.

## Main results
- `cowFork_eq`: `cow_fork` with its lookups, and without.
- `cowFork_rel`: the child gets the address space of its parent.
-/

namespace WeiOS.Process.Create

open WeiOS.Paging (Vm Pte PGSIZE PDENTRIES PDINDEX UTEXT UTOP Supplies)

/-- `pid2proc` finds the process under its own pid. -/
def Finds (m : Machine) (cur p : Proc) : Prop :=
  Lookup.pid2proc m.manager (fun d => (m.descs d).ppid) cur p.pid true = .ok (some p)

/-- The page directory of a process. -/
def dirOf (m : Machine) (p : Proc) : Paging.Proc := (m.descs p.desc).procPgdir

/-- The machine with other page tables. -/
def withVm (m : Machine) (vm : Vm) : Machine := { m with vm := vm }

section ForkPages

variable {m : Machine} {cur son src dst : Proc} {vm : Vm}

theorem userPageMap_found (hsrc : Finds m cur src) (hdst : Finds m cur dst) (vaS vaD perm : Nat) :
    userPageMap (withVm m vm) cur src.pid vaS dst.pid vaD perm =
      .ok ((Paging.userPageMap vm (some (dirOf m src)) vaS (some (dirOf m dst)) vaD perm).1,
        withVm m (Paging.userPageMap vm (some (dirOf m src)) vaS (some (dirOf m dst)) vaD perm).2) := by
  unfold Finds at hsrc hdst
  unfold userPageMap withVm
  dsimp only
  rw [hsrc]
  change Except.bind ((Lookup.pid2proc m.manager (fun d => (m.descs d).ppid) cur dst.pid true).mapError Fault.slot) _ = _
  rw [hdst]
  rfl

theorem duppage_eq (hcur : Finds m cur cur) (hson : Finds m cur son) (pn : Nat) :
    duppage (withVm m vm) cur son.pid pn =
      .ok ((Paging.Cow.duppage vm (dirOf m cur) (dirOf m son) pn).1,
        withVm m (Paging.Cow.duppage vm (dirOf m cur) (dirOf m son) pn).2) := by
  have huvpt : uvpt (withVm m vm) cur pn = Paging.Cow.uvpt vm (dirOf m cur) pn := rfl
  unfold duppage Paging.Cow.duppage
  dsimp only
  rw [huvpt]
  split
  · rw [userPageMap_found hcur hson]
  · rw [userPageMap_found hcur hson]
    generalize Paging.userPageMap vm (some (dirOf m cur)) (pn * PGSIZE) (some (dirOf m son)) (pn * PGSIZE) _ = r
    obtain ⟨e, vm₁⟩ := r
    cases e with
    | some e => rfl
    | none =>
      dsimp only [bind, Except.bind]
      rw [userPageMap_found hcur hcur]
      -- the parent's entry is written only if it is marked copy-on-write
      split
      · rw [if_pos (by decide), if_pos (by decide)]
      · rw [if_neg (by decide), if_neg (by decide)]
        rfl

theorem cowPages_eq (hcur : Finds m cur cur) (hson : Finds m cur son) (pns : List Nat) :
    cowPages cur son pns (withVm m vm) =
      .ok ((Paging.Cow.cowPages (dirOf m cur) (dirOf m son) pns vm).1,
        withVm m (Paging.Cow.cowPages (dirOf m cur) (dirOf m son) pns vm).2) := by
  induction pns generalizing vm with
  | nil => rfl
  | cons pn pns ih =>
    have huvpt : uvpt (withVm m vm) cur pn = Paging.Cow.uvpt vm (dirOf m cur) pn := rfl
    unfold cowPages Paging.Cow.cowPages
    rw [huvpt]
    split
    · rw [duppage_eq hcur hson]
      generalize Paging.Cow.duppage vm (dirOf m cur) (dirOf m son) pn = r
      obtain ⟨e, vm₁⟩ := r
      cases e with
      | some e => rfl
      | none => exact ih
    · exact ih

theorem pages_range (d : Nat) : (List.range PDENTRIES).map (d * PDENTRIES + ·) =
    List.range' (d * PDENTRIES) PDENTRIES := (List.range'_eq_map_range ..).symm

theorem cowTables_eq (hcur : Finds m cur cur) (hson : Finds m cur son) (ds : List Nat) :
    cowTables cur son ds (withVm m vm) =
      .ok ((Paging.Cow.cowTables (dirOf m cur) (dirOf m son) ds vm).1,
        withVm m (Paging.Cow.cowTables (dirOf m cur) (dirOf m son) ds vm).2) := by
  induction ds generalizing vm with
  | nil => rfl
  | cons d ds ih =>
    have huvpd : uvpd (withVm m vm) cur d = Paging.Cow.uvpd vm (dirOf m cur) d := rfl
    unfold cowTables Paging.Cow.cowTables
    rw [huvpd]
    split
    · rw [cowPages_eq hcur hson, pages_range]
      generalize Paging.Cow.cowPages (dirOf m cur) (dirOf m son) (List.range' (d * PDENTRIES) PDENTRIES) vm = r
      obtain ⟨b, vm₁⟩ := r
      cases b with
      | false => rfl
      | true => exact ih
    · exact ih

/-- **`cow_fork`** finds both processes in each call. -/
theorem cowFork_eq (hcur : Finds m cur cur) (hson : Finds m cur son) :
    cowFork m cur son = .ok ((Paging.Cow.cowFork m.vm (dirOf m cur) (dirOf m son)).1,
      withVm m (Paging.Cow.cowFork m.vm (dirOf m cur) (dirOf m son)).2) := by
  have h : cowTables cur son (List.range' (PDINDEX UTEXT) (PDINDEX UTOP - PDINDEX UTEXT)) (withVm m m.vm) = _ :=
    cowTables_eq hcur hson _
  exact h

/-- **The child gets the address space of its parent**, and all other processes keep theirs. -/
theorem cowFork_rel {hand : List Nat} {A : Paging.Cow.Spaces} (hcur : Finds m cur cur) (hson : Finds m cur son)
    (hvm : m.vm = Paging.Cow.copyHeap vm (dirOf m cur) (dirOf m son)) (h : Paging.Cow.Rel hand vm A)
    (hne : dirOf m cur ≠ dirOf m son) (hslots : ∀ v, Paging.PageMap.UserPage v → A.page (dirOf m son) v = none)
    (hk : Supplies vm (PDINDEX UTOP - PDINDEX UTEXT)) :
    ∃ m', cowFork m cur son = .ok (true, m') ∧
      Paging.Cow.Rel hand m'.vm ((A.copyHeap (dirOf m cur) (dirOf m son)).forkBelow (dirOf m cur) (dirOf m son) UTOP) := by
  obtain ⟨s', hfork, hrel, _⟩ := h.fork (k := 0) hne hslots (by rwa [Nat.zero_add])
  rw [cowFork_eq hcur hson, hvm]
  unfold Paging.Cow.fork at hfork
  generalize Paging.Cow.cowFork (Paging.Cow.copyHeap vm (dirOf m cur) (dirOf m son)) (dirOf m cur) (dirOf m son) = r
    at hfork
  obtain ⟨b, vm'⟩ := r
  cases b with
  | false => cases hfork
  | true =>
    cases hfork
    exact ⟨_, rfl, hrel⟩

end ForkPages

end WeiOS.Process.Create
