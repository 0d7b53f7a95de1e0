import Mathlib
import WeiOS.Mm.AddressSpaces

/-!
# Copy-on-Write Fork

After a fork the two processes have the same frames, and a page that could be written is marked copy-on-write for both.
The first write gets a copy. Runs of forks, loads and stores by any processes read what they would read if each fork had
copied all bytes at once, up to the pages that the heap maps: these are shared, and a fork shares them with the child.

## Main results
- `Rel.duppage`, `Rel.fork`: one page, and an address space.
- `Rel.reach`: a page fault.
- `cow_run`: all runs.
- `cow_private`: nobody else writes a page of a process's own.
-/

namespace WeiOS.Paging.Cow

open WeiOS.Paging.PageMap
open WeiOS.Paging.HeapFault (pageFaultHandler)

section Fork

variable {hand : List Nat} {s s' : Vm} {A : Spaces} {p q cur son : Proc} {v va pn k d n b : Nat} {e x : Pte} {pg : Page}

/-! ## §1 One page -/

/-- The bits that `duppage` passes on for a shared page. -/
theorem shared_bits (pt : Nat) {b : Nat} (hb : PTE_SYSCALL &&& b = b) (hp : PTE_P &&& b = 0) :
    ((PTE_SYSCALL &&& pt) ||| PTE_P) &&& b = pt &&& b := by
  rw [Nat.and_or_distrib_right, hp, Nat.or_zero, Nat.and_comm PTE_SYSCALL, Nat.and_assoc, hb]

theorem shared_perm (pt : Nat) : badPerm (PTE_SYSCALL &&& pt) = false := by
  have h : (PTE_SYSCALL &&& pt) &&& PTE_SYSCALL = PTE_SYSCALL &&& pt := by
    rw [Nat.and_comm PTE_SYSCALL, Nat.and_assoc, Nat.and_self]
  unfold badPerm
  rw [h]
  simp

/-- The bits of an entry that is marked copy-on-write. -/
theorem cow_bits : (PTE_U ||| PTE_P ||| PTE_COW ||| PTE_P) &&& PTE_U ≠ 0 ∧
    (PTE_U ||| PTE_P ||| PTE_COW ||| PTE_P) &&& PTE_SHARE = 0 ∧
    (PTE_U ||| PTE_P ||| PTE_COW ||| PTE_P) &&& PTE_COW ≠ 0 ∧
    (PTE_U ||| PTE_P ||| PTE_COW ||| PTE_P) &&& PTE_W = 0 := by decide

/-- The bits of an entry that nobody may write. -/
theorem read_bits : (PTE_U ||| PTE_P ||| PTE_P) &&& PTE_U ≠ 0 ∧ (PTE_U ||| PTE_P ||| PTE_P) &&& PTE_SHARE = 0 ∧
    (PTE_U ||| PTE_P ||| PTE_P) &&& PTE_COW = 0 ∧ (PTE_U ||| PTE_P ||| PTE_P) &&& PTE_W = 0 := by decide

/-- What is mapped keeps its contents when a page is mapped. -/
theorem Inserted.data_of_mapped (h : Ok hand s) (hi : Inserted s p v x s') {u : Nat} {z : Pte} (hu : UserPage u)
    (hz : tr s q u = some z) : s'.data z.frame = s.data z.frame :=
  hi.data _ (h.mapped hu.1 hz).2.2

/-- The child gets the page, with less than the parent may do or the same. -/
theorem Rel.mapSon (h : Rel hand s A) (hne : cur ≠ son) (hold : Holds s A cur v e pg) (hok : Ok hand s')
    (hi : Inserted s son v x s') (hx : x.frame = e.frame) (hax : Agree s A.object (some x) (some pg))
    (hW : ∀ w bytes, pg = .own w bytes → x.perm &&& PTE_W = 0 ∧ e.perm &&& PTE_W = 0) :
    Rel hand s' (A.setPage son v (some pg)) := by
  have hcurne : (cur, v) ≠ (son, v) := fun heq => hne (Prod.mk.inj heq).1
  have hdata : ∀ q u z, UserPage u → tr s q u = some z → s'.data z.frame = s.data z.frame :=
    fun q u z hu hz => Inserted.data_of_mapped h.ok hi hu hz
  have hay : Agree s A.object (some e) (some pg) := by
    have hagree := h.agree cur v hold.page
    rwa [hold.entry, hold.value] at hagree
  refine h.copied hold hne hok hi.same hi.self ((hi.other cur v hold.page hcurne).trans hold.entry) hx rfl
    (fun q u hu hs _ => hi.other q u hu hs) hdata ?_ ?_ hW
  · refine hax.congr (fun z hz => ?_) fun _ _ _ => rfl
    obtain rfl := Option.some.inj hz
    rw [hx]
    exact hdata cur v e hold.page hold.entry
  · refine hay.congr (fun z hz => ?_) fun _ _ _ => rfl
    obtain rfl := Option.some.inj hz
    exact hdata cur v e hold.page hold.entry

/-- **`duppage`** -/
theorem Rel.duppage (h : Rel hand s A) (hne : cur ≠ son) (hold : Holds s A cur v e pg) (hslot : A.page son v = none)
    (hpn : pn * PGSIZE = v) (huvpt : uvpt s cur pn = e) (hk : Supplies s (k + cost s son v)) :
    ∃ s', Cow.duppage s cur son pn = (none, s') ∧ Rel hand s' (A.setPage son v (some pg)) ∧ Supplies s' k ∧
      (pdeAt s' (son, PDINDEX v)).isSome = true ∧ ∀ t, (pdeAt s t).isSome = true → (pdeAt s' t).isSome = true := by
  have hagree := h.agree cur v hold.page
  rw [hold.entry, hold.value] at hagree
  unfold Cow.duppage
  dsimp only
  rw [huvpt, hpn]
  cases hagree with
  | @shared _ w o user share write cow data =>
    have hw : PTE_SYSCALL &&& e.perm &&& PTE_W = e.perm &&& PTE_W := by
      rw [Nat.and_comm PTE_SYSCALL, Nat.and_assoc]
      rfl
    obtain ⟨s', hmap, hok, hsup, hi⟩ := h.ok.mapPage (q := son) hold.page hold.page hold.entry (shared_perm e.perm)
      (fun hc => by rwa [hw] at hc) hk
    rw [if_pos share]
    refine ⟨s', hmap, ?_, hsup, hi.table, hi.tables⟩
    refine h.mapSon hne hold hok hi rfl ?_ fun w bytes hc => by cases hc
    refine .shared ?_ ?_ ?_ ?_ data
    · rw [shared_bits e.perm (by decide) (by decide)]
      exact user
    · rw [shared_bits e.perm (by decide) (by decide)]
      exact share
    · rw [shared_bits e.perm (by decide) (by decide)]
      exact write
    · rw [shared_bits e.perm (by decide) (by decide)]
      exact cow
  | @own _ w bytes user own write data =>
    rw [if_neg (not_not.2 own)]
    by_cases hw : e.perm &&& PTE_W ≠ 0 ∨ e.perm &&& PTE_COW ≠ 0
    · rw [if_pos hw]
      have htrue : w = true := write.2 hw
      obtain ⟨s₁, hmap₁, hok₁, hsup₁, hi₁⟩ := h.ok.mapPage (q := son) hold.page hold.page hold.entry
        (show badPerm (PTE_U ||| PTE_P ||| PTE_COW) = false by decide) (fun hc => absurd rfl hc) hk
      have hcurne : (cur, v) ≠ (son, v) := fun heq => hne (Prod.mk.inj heq).1
      have he₁ : tr s₁ cur v = some e := (hi₁.other cur v hold.page hcurne).trans hold.entry
      -- the parent's page table exists
      have hcost : cost s₁ cur v = 0 := by
        unfold cost
        rw [if_pos (pdeAt_isSome_of_tr he₁)]
      obtain ⟨s₂, hmap₂, hok₂, hsup₂, hi₂⟩ := hok₁.mapPage (q := cur) hold.page hold.page he₁
        (show badPerm (PTE_U ||| PTE_P ||| PTE_COW) = false by decide) (fun hc => absurd rfl hc)
        (show Supplies s₁ (k + cost s₁ cur v) by rw [hcost]; exact hsup₁)
      rw [hmap₁]
      dsimp only
      rw [if_pos (by decide)]
      have hdata : ∀ q u z, UserPage u → tr s q u = some z → s₂.data z.frame = s.data z.frame := by
        intro q u z hu hz
        have hslot' : (q, u) ≠ (son, v) := by
          intro heq
          obtain ⟨rfl, rfl⟩ := Prod.mk.inj heq
          rw [h.absent hu hslot] at hz
          cases hz
        have hz₁ : tr s₁ q u = some z := (hi₁.other q u hu hslot').trans hz
        exact (Inserted.data_of_mapped hok₁ hi₂ hu hz₁).trans (Inserted.data_of_mapped h.ok hi₁ hu hz)
      have hax : Agree s₂ A.object (some ⟨e.frame, PTE_U ||| PTE_P ||| PTE_COW ||| PTE_P⟩) (some (.own w bytes)) := by
        refine .own cow_bits.1 cow_bits.2.1 ⟨fun _ => .inr cow_bits.2.2.1, fun _ => htrue⟩ ?_
        exact (hdata cur v e hold.page hold.entry).trans data
      refine ⟨s₂, hmap₂, ?_, hsup₂, hi₂.tables _ hi₁.table, fun t ht => hi₂.tables t (hi₁.tables t ht)⟩
      refine h.copied hold hne hok₂ (hi₁.same.trans hi₂.same) ((hi₂.other son v hold.page hcurne.symm).trans hi₁.self)
        hi₂.self rfl rfl (fun q u hu hs hc => ?_) hdata hax hax fun _ _ _ => ⟨cow_bits.2.2.2, cow_bits.2.2.2⟩
      exact (hi₂.other q u hu hc).trans (hi₁.other q u hu hs)
    · rw [if_neg hw]
      have hzero : e.perm &&& PTE_W = 0 := by
        by_contra hc
        exact hw (.inl hc)
      obtain ⟨s₁, hmap₁, hok₁, hsup₁, hi₁⟩ := h.ok.mapPage (q := son) hold.page hold.page hold.entry
        (show badPerm (PTE_U ||| PTE_P) = false by decide) (fun hc => absurd rfl hc) hk
      rw [hmap₁]
      dsimp only
      rw [if_neg (by decide)]
      refine ⟨s₁, rfl, ?_, hsup₁, hi₁.table, hi₁.tables⟩
      refine h.mapSon hne hold hok₁ hi₁ rfl ?_ fun _ _ _ => ⟨read_bits.2.2.2, hzero⟩
      refine .own read_bits.1 read_bits.2.1 ⟨fun hc => absurd (write.1 hc) hw, fun hc => ?_⟩ data
      rcases hc with hc | hc
      · exact absurd read_bits.2.2.2 hc
      · exact absurd read_bits.2.2.1 hc

/-! ## §2 The address space -/

theorem lt_nextPage {u : Nat} (hu : PGSIZE ∣ u) (hb : PGSIZE ∣ b) : u < b + PGSIZE ↔ u < b ∨ u = b := by
  obtain ⟨i, rfl⟩ := hu
  obtain ⟨j, rfl⟩ := hb
  simp only [PGSIZE]
  omega

theorem forkBelow_page (A : Spaces) (cur son q : Proc) (b u : Nat) : (A.forkBelow cur son b).page q u =
    if q = son ∧ Spaces.forkBase ≤ u ∧ u < b then A.page cur u else A.page q u := rfl

/-- One page more is copied. -/
theorem Rel.nextPage (h : Rel hand s ((A.forkBelow cur son b).setPage son b (A.page cur b))) (hb : PGSIZE ∣ b)
    (hbase : Spaces.forkBase ≤ b) : Rel hand s (A.forkBelow cur son (b + PGSIZE)) := by
  refine h.congr (fun q u hu => ?_) rfl rfl rfl rfl
  by_cases hslot : (q, u) = (son, b)
  · obtain ⟨rfl, rfl⟩ := Prod.mk.inj hslot
    rw [Spaces.setPage_self]
    exact if_pos ⟨rfl, hbase, Nat.lt_add_of_pos_right (by decide)⟩
  · rw [Spaces.setPage_of_ne _ _ hslot, forkBelow_page, forkBelow_page]
    have hiff : (q = son ∧ Spaces.forkBase ≤ u ∧ u < b + PGSIZE) ↔ q = son ∧ Spaces.forkBase ≤ u ∧ u < b := by
      rw [lt_nextPage hu.2 hb]
      constructor
      · rintro ⟨hq, hlo, hlt | heq⟩
        · exact ⟨hq, hlo, hlt⟩
        · exact absurd (by rw [hq, heq]) hslot
      · rintro ⟨hq, hlo, hlt⟩
        exact ⟨hq, hlo, .inl hlt⟩
    simp only [hiff]

/-- Pages that the parent does not have are not copied. -/
theorem Rel.noPages {b' : Nat} (h : Rel hand s (A.forkBelow cur son b)) (hle : b ≤ b')
    (hslots : ∀ v, UserPage v → A.page son v = none)
    (hnone : ∀ u, UserPage u → b ≤ u → u < b' → A.page cur u = none) : Rel hand s (A.forkBelow cur son b') := by
  refine h.congr (fun q u hu => ?_) rfl rfl rfl rfl
  rw [forkBelow_page, forkBelow_page]
  by_cases hq : q = son ∧ Spaces.forkBase ≤ u ∧ u < b'
  · obtain ⟨rfl, hlo, hlt⟩ := hq
    rw [if_pos ⟨rfl, hlo, hlt⟩]
    by_cases hb : u < b
    · rw [if_pos ⟨rfl, hlo, hb⟩]
    · rw [if_neg fun hc => hb hc.2.2, hnone u hu (Nat.not_lt.1 hb) hlt, hslots u hu]
  · rw [if_neg hq, if_neg fun hc => hq ⟨hc.1, hc.2.1, hc.2.2.trans_le hle⟩]

/-- The addresses of a page number. -/
theorem page_index (hpn : pn < PDINDEX UTOP * PDENTRIES) : UserPage (pn * PGSIZE) ∧
    PDINDEX (pn * PGSIZE) = pn / PDENTRIES ∧ PTINDEX (pn * PGSIZE) = pn % PDENTRIES := by
  have htop : PDINDEX UTOP * PDENTRIES * PGSIZE = UTOP := by decide
  refine ⟨⟨?_, Nat.dvd_mul_left ..⟩, ?_, ?_⟩
  · rw [← htop]
    exact Nat.mul_lt_mul_of_pos_right hpn (by decide)
  · have hlt : pn < 954 * 1024 := hpn
    simp only [PDINDEX, PGSIZE, PDENTRIES]
    omega
  · simp only [PTINDEX, PGSIZE, PDENTRIES]
    omega

/-- `uvpt[pn]` is the entry of the page. -/
theorem uvpt_eq (hpn : pn < PDINDEX UTOP * PDENTRIES)
    (hpde : (pdeAt s (cur, pn / PDENTRIES)).isSome = true) :
    tr s cur (pn * PGSIZE) = if (uvpt s cur pn).present then some (uvpt s cur pn) else none := by
  obtain ⟨hv, hd, hi⟩ := page_index hpn
  obtain ⟨t, ht⟩ := Option.isSome_iff_exists.1 hpde
  have hframe : (uvpd s cur (pn / PDENTRIES)).frame = t := by
    rw [← hd] at ht ⊢
    exact (pdeAt_eq_some.1 ht).2
  unfold tr uvpt
  rw [hd, hi, trAt_eq ht, hframe]

/-- **The inner loop of `cow_fork`** -/
theorem Rel.cowPages (hne : cur ≠ son) (hslots : ∀ v, UserPage v → A.page son v = none) (hd : d < PDINDEX UTOP)
    (hlo : PDINDEX UTEXT ≤ d) (hpn : d * PDENTRIES ≤ pn) (hn : pn + n ≤ (d + 1) * PDENTRIES)
    (h : Rel hand s (A.forkBelow cur son (pn * PGSIZE))) (hpde : (pdeAt s (cur, d)).isSome = true)
    (hk : Supplies s (k + if (pdeAt s (son, d)).isSome then 0 else 1)) :
    ∃ s', Cow.cowPages cur son (List.range' pn n) s = (true, s') ∧
      Rel hand s' (A.forkBelow cur son ((pn + n) * PGSIZE)) ∧ Supplies s' k ∧
      ∀ t, (pdeAt s t).isSome = true → (pdeAt s' t).isSome = true := by
  induction n generalizing pn s with
  | zero => exact ⟨s, rfl, h, hk.of_le (Nat.le_add_right ..), fun _ ht => ht⟩
  | succ n ih =>
    have hdiv : pn / PDENTRIES = d := by
      simp only [PDENTRIES] at *
      omega
    have hlt : pn < PDINDEX UTOP * PDENTRIES := by
      have : d < 954 := hd
      show pn < 954 * 1024
      simp only [PDENTRIES] at *
      omega
    obtain ⟨hv, hdir, _⟩ := page_index hlt
    rw [hdiv] at hdir
    have hbase : Spaces.forkBase ≤ pn * PGSIZE :=
      Nat.mul_le_mul_right _ ((Nat.mul_le_mul_right _ hlo).trans hpn)
    have hentry : tr s cur (pn * PGSIZE) = if (uvpt s cur pn).present then some (uvpt s cur pn) else none :=
      uvpt_eq hlt (by rw [hdiv]; exact hpde)
    have hnext : pn + 1 + n ≤ (d + 1) * PDENTRIES := by omega
    have hlast : (pn + 1 + n) * PGSIZE = (pn + (n + 1)) * PGSIZE := by rw [Nat.add_right_comm, Nat.add_assoc]
    have hson : (A.forkBelow cur son (pn * PGSIZE)).page son (pn * PGSIZE) = none := by
      rw [forkBelow_page, if_neg fun hc => Nat.lt_irrefl _ hc.2.2]
      exact hslots _ hv
    have hcur : (A.forkBelow cur son (pn * PGSIZE)).page cur (pn * PGSIZE) = A.page cur (pn * PGSIZE) := by
      rw [forkBelow_page, if_neg fun hc => hne hc.1]
    show ∃ s', Cow.cowPages cur son (pn :: List.range' (pn + 1) n) s = (true, s') ∧ _
    unfold Cow.cowPages
    split
    · next hp =>
      -- the page is there: it is shared from now on
      rw [if_pos hp] at hentry
      obtain ⟨pg, hold, _⟩ := h.value hv hentry
      have hk' : Supplies s (k + cost s son (pn * PGSIZE)) := by
        unfold cost
        rw [hdir]
        exact hk
      obtain ⟨s₁, hdup, hrel₁, hsup₁, htab₁, htabs₁⟩ := h.duppage hne hold hson rfl rfl hk'
      rw [hdup]
      dsimp only
      have hrel : Rel hand s₁ (A.forkBelow cur son ((pn + 1) * PGSIZE)) := by
        have hpg : A.page cur (pn * PGSIZE) = some pg := hcur.symm.trans hold.value
        rw [← hpg] at hrel₁
        rw [Nat.add_mul, Nat.one_mul]
        exact hrel₁.nextPage hv.2 hbase
      rw [hdir] at htab₁
      obtain ⟨s', hloop, hrel', hsup', htabs'⟩ := ih (by omega) hnext hrel (htabs₁ _ hpde)
        (by rw [if_pos htab₁]; exact hsup₁)
      rw [hlast] at hrel'
      exact ⟨s', hloop, hrel', hsup', fun t ht => htabs' t (htabs₁ t ht)⟩
    · next hp =>
      -- nothing to copy: the page is missing on both sides
      rw [if_neg hp] at hentry
      have hrel : Rel hand s (A.forkBelow cur son ((pn + 1) * PGSIZE)) := by
        rw [Nat.add_mul, Nat.one_mul]
        refine h.noPages (Nat.le_add_right ..) hslots fun u hu hlo hhi => ?_
        have hu' : u = pn * PGSIZE := ((lt_nextPage hu.2 hv.2).1 hhi).resolve_left (Nat.not_lt.2 hlo)
        rw [hu', ← hcur]
        exact h.missing hv hentry
      obtain ⟨s', hloop, hrel', hsup', htabs'⟩ := ih (by omega) hnext hrel hpde hk
      rw [hlast] at hrel'
      exact ⟨s', hloop, hrel', hsup', htabs'⟩

/-- **The outer loop of `cow_fork`** -/
theorem Rel.cowTables (hne : cur ≠ son) (hslots : ∀ v, UserPage v → A.page son v = none)
    (hlo : PDINDEX UTEXT ≤ d) (hn : d + n ≤ PDINDEX UTOP)
    (h : Rel hand s (A.forkBelow cur son (d * PDENTRIES * PGSIZE))) (hk : Supplies s (k + n)) :
    ∃ s', Cow.cowTables cur son (List.range' d n) s = (true, s') ∧
      Rel hand s' (A.forkBelow cur son ((d + n) * PDENTRIES * PGSIZE)) ∧ Supplies s' k := by
  induction n generalizing d s with
  | zero => exact ⟨s, rfl, h, hk⟩
  | succ n ih =>
    have hd : d < PDINDEX UTOP := by omega
    have hlast : (d + 1 + n) * PDENTRIES * PGSIZE = (d + (n + 1)) * PDENTRIES * PGSIZE := by
      rw [Nat.add_right_comm, Nat.add_assoc]
    have hsucc : d * PDENTRIES + PDENTRIES = (d + 1) * PDENTRIES := by rw [Nat.add_mul, Nat.one_mul]
    show ∃ s', Cow.cowTables cur son (d :: List.range' (d + 1) n) s = (true, s') ∧ _
    unfold Cow.cowTables
    split
    · next hp =>
      -- the child may need a page table for the pages of this one
      have hpde : (pdeAt s (cur, d)).isSome = true := by
        have hsome : pdeAt s (cur, d) = some (uvpd s cur d).frame := if_pos hp
        rw [hsome]
        rfl
      have hk' : Supplies s (k + n + if (pdeAt s (son, d)).isSome then 0 else 1) := by
        refine hk.of_le ?_
        split <;> omega
      obtain ⟨s₁, hloop, hrel, hsup, _⟩ :=
        Rel.cowPages hne hslots hd hlo (Nat.le_refl _) (Nat.le_of_eq hsucc) h hpde hk'
      rw [hloop]
      dsimp only
      rw [hsucc] at hrel
      obtain ⟨s', hloop', hrel', hsup'⟩ := ih (by omega) (by omega) hrel hsup
      rw [hlast] at hrel'
      exact ⟨s', hloop', hrel', hsup'⟩
    · next hp =>
      -- without the page table none of its pages is there
      have hrel : Rel hand s (A.forkBelow cur son ((d + 1) * PDENTRIES * PGSIZE)) := by
        have hle : d * PDENTRIES * PGSIZE ≤ (d + 1) * PDENTRIES * PGSIZE :=
          Nat.mul_le_mul_right _ (Nat.mul_le_mul_right _ (Nat.le_succ d))
        refine h.noPages hle hslots fun u hu hfrom hto => ?_
        have hdir : PDINDEX u = d := by
          have h954 : d < 954 := hd
          simp only [PDINDEX, PDENTRIES, PGSIZE] at hfrom hto ⊢
          omega
        have htr : tr s cur u = none := by
          unfold tr
          refine trAt_eq_none ?_
          rw [hdir]
          exact if_neg hp
        have hnone := h.missing hu htr
        rwa [forkBelow_page, if_neg fun hc => hne hc.1] at hnone
      obtain ⟨s', hloop', hrel', hsup'⟩ := ih (by omega) (by omega) hrel (hk.of_le (by omega))
      rw [hlast] at hrel'
      exact ⟨s', hloop', hrel', hsup'⟩

/-- **`cow_fork`**: the child has the parent's pages. -/
theorem Rel.fork (h : Rel hand s A) (hne : cur ≠ son) (hslots : ∀ v, UserPage v → A.page son v = none)
    (hk : Supplies s (k + (PDINDEX UTOP - PDINDEX UTEXT))) :
    ∃ s', Cow.fork s cur son = some s' ∧ Rel hand s' ((A.copyHeap cur son).forkBelow cur son UTOP) ∧ Supplies s' k := by
  have hcopy := h.copyHeap cur son
  have hstart : Rel hand (Cow.copyHeap s cur son)
      ((A.copyHeap cur son).forkBelow cur son (PDINDEX UTEXT * PDENTRIES * PGSIZE)) := by
    refine hcopy.congr (fun q u _ => ?_) rfl rfl rfl rfl
    rw [forkBelow_page, if_neg]
    rintro ⟨_, hlo, hhi⟩
    exact Nat.lt_irrefl _ (hhi.trans_le hlo)
  have hsup : Supplies (Cow.copyHeap s cur son) (k + (PDINDEX UTOP - PDINDEX UTEXT)) := by
    refine Supplies.mono ?_ ?_ ?_ hk
    · rfl
    · rfl
    · exact fun _ hg => hg
  obtain ⟨s', hloop, hrel, hsup'⟩ := Rel.cowTables hne (A := A.copyHeap cur son) hslots (Nat.le_refl _)
    (by decide) hstart hsup
  have hend : (PDINDEX UTEXT + (PDINDEX UTOP - PDINDEX UTEXT)) * PDENTRIES * PGSIZE = UTOP := by decide
  rw [hend] at hrel
  refine ⟨s', ?_, hrel, hsup'⟩
  unfold Cow.fork cowFork
  rw [hloop]

/-! ## §3 Accesses -/

theorem tr_ROUNDDOWN (s : Vm) (p : Proc) (va : Nat) : tr s p (ROUNDDOWN va) = tr s p va := by
  unfold tr
  rw [(ROUNDDOWN_slot va).1, (ROUNDDOWN_slot va).2]

/-- The processor finds the frame of a page that allows the access. -/
theorem Rel.access (h : Rel hand s A) (hva : va < UTOP) (hold : Holds s A p (ROUNDDOWN va) e pg) {w : Bool}
    (hw : w = true → e.perm &&& PTE_W ≠ 0) : Cow.access s p w va = some e.frame := by
  have htr : tr s p va = some e := (tr_ROUNDDOWN s p va).symm.trans hold.entry
  have huser : e.perm &&& PTE_U ≠ 0 := by
    have hagree := h.agree p _ hold.page
    rw [hold.entry, hold.value] at hagree
    cases hagree with
    | own user => exact user
    | shared user => exact user
  unfold Cow.access
  rw [h.ok.map.effective_eq hva, htr]
  exact if_pos ⟨huser, hw⟩

/-- It faults where there is no entry, and for a write to an entry without `PTE_W`. -/
theorem access_none (hm : MapInv s) (hva : va < UTOP)
    (hno : tr s p va = none ∨ ∃ e, tr s p va = some e ∧ e.perm &&& PTE_W = 0) {w : Bool}
    (hw : w = true ∨ tr s p va = none) : Cow.access s p w va = none := by
  unfold Cow.access
  rw [hm.effective_eq hva]
  cases htr : tr s p va with
  | none => rfl
  | some e =>
    obtain rfl : w = true := hw.resolve_right (by rw [htr]; exact Option.some_ne_none e)
    rcases hno with hno | ⟨e', he', hzero⟩
    · rw [htr] at hno
      cases hno
    · rw [htr] at he'
      obtain rfl := Option.some.inj he'
      exact if_neg fun hc => hc.2 rfl hzero

/-- The bits of a page of the heap. -/
theorem heap_bits : PTE_SYSCALL &&& PTE_U ≠ 0 ∧ PTE_SYSCALL &&& PTE_SHARE ≠ 0 ∧ PTE_SYSCALL &&& PTE_W ≠ 0 := by
  decide

/-- The bits of a copied page. -/
theorem copy_bits : PTE_USTK &&& PTE_U ≠ 0 ∧ PTE_USTK &&& PTE_SHARE = 0 ∧ PTE_USTK &&& PTE_W ≠ 0 := by
  decide

/-- A page of the heap. -/
theorem Rel.addPage (h : Rel hand s A) (hv : UserPage v) (htemp : v ≠ PFTEMP) (hk : Supplies s (k + 2)) :
    ∃ s', HeapFault.regionPage s p v PTE_SYSCALL = (true, s') ∧ Rel hand s' (A.addPage p v) ∧ Supplies s' k := by
  obtain ⟨f, s', hpage, hok, hsup, hi, hnot, hzero⟩ := h.ok.regionPage (p := p) hv hk
  refine ⟨s', hpage, ?_, hsup⟩
  refine h.fresh hok hi.same hi.self hnot (fun q u hu hne => ⟨hi.other q u hu hne, fun z hz => ?_⟩) htemp
    (A.setPage_self p v _) (fun q u hne => A.setPage_of_ne _ hne) (fun o ho => ?_) (Nat.le_succ _) ?_ ?_ rfl rfl
  · exact Inserted.data_of_mapped h.ok hi hu hz
  · exact Function.update_of_ne (Nat.ne_of_lt ho) ..
  · refine .shared heap_bits.1 heap_bits.2.1 ⟨fun _ => heap_bits.2.2, fun _ => rfl⟩ (fun hc => by cases hc) ?_
    show s'.data f = Function.update A.object A.next (fun _ => 0) A.next
    rw [Function.update_self]
    exact funext hzero
  · intro w o ho
    cases ho
    exact ⟨Nat.le_refl _, Nat.lt_succ_self _⟩

theorem touch_absent (hnone : A.page p (ROUNDDOWN va) = none) : A.touch p va = if PGSIZE ∣ va then A.addPage p va
    else (A.addPage p (ROUNDDOWN va)).addPage p (ROUNDDOWN va + PGSIZE) := by
  unfold Spaces.touch
  rw [hnone]
  exact if_neg Bool.false_ne_true

/-- A new page of the process's own. -/
theorem Rel.newPage (h : Rel hand s A) (hv : UserPage v) (htemp : v ≠ PFTEMP) (hk : Supplies s (k + cost s p v + 1)) :
    ∃ f s₁ s', pageAlloc s = (some f, s₁) ∧ pageInsert s₁ p f v PTE_USTK = (true, s') ∧
      Rel hand s' (A.setPage p v (some (.own true fun _ => 0))) ∧ Supplies s' k ∧
      Inserted s p v ⟨f, PTE_USTK⟩ s' := by
  obtain ⟨f, s₁, s', halloc, hins, hok, hsup, hi, hnot, hzero⟩ := h.ok.newPage (p := p) hv PTE_USTK hk
  refine ⟨f, s₁, s', halloc, hins, ?_, hsup, hi⟩
  refine h.fresh hok hi.same hi.self hnot (fun q u hu hne => ⟨hi.other q u hu hne, fun z hz => ?_⟩) htemp
    (A.setPage_self p v _) (fun q u hne => A.setPage_of_ne _ hne) (fun _ _ => rfl) (Nat.le_refl _) ?_ ?_ rfl rfl
  · exact Inserted.data_of_mapped h.ok hi hu hz
  · exact .own copy_bits.1 copy_bits.2.1 ⟨fun _ => .inl copy_bits.2.2, fun _ => rfl⟩ (funext hzero)
  · intro w o hc
    cases hc

/-- **`user_page_alloc`** of a page of the process's own. -/
theorem Rel.alloc (h : Rel hand s A) (hv : UserPage v) (htemp : v ≠ PFTEMP) (hk : Supplies s (k + 2)) :
    ∃ s', userPageAlloc s (some p) v PTE_USTK = (none, s') ∧
      Rel hand s' (A.setPage p v (some (.own true fun _ => 0))) ∧ Supplies s' k := by
  obtain ⟨f, s₁, s', halloc, hins, hrel, hsup, _⟩ := h.newPage (p := p) hv htemp (supplies_cost hk)
  refine ⟨s', ?_, hrel, hsup⟩
  unfold userPageAlloc
  rw [if_neg, halloc]
  · dsimp only
    rw [hins]
  · rintro (hc | hc)
    · exact absurd hv.1 (Nat.not_lt.2 hc)
    · exact absurd hc (by decide)

/-- **`user_page_upmap`** of a page that is there. -/
theorem Rel.unmap (h : Rel hand s A) (hv : UserPage v) (hpg : A.page p v = some pg) :
    ∃ s', userPageUpmap s (some p) v = (none, s') ∧ Rel hand s' (A.setPage p v none) := by
  obtain ⟨e, hold, _⟩ := h.entry hv hpg
  obtain ⟨hok, _, hnone, hother⟩ := h.ok.remove hv hold.entry
  have hquiet := quiet_pageRemove s p v
  refine ⟨pageRemove s p v, ?_, h.fewer hok hquiet.same (fun q u z _ _ => congrFun hquiet.data z.frame)
    (fun q u hu => ?_) rfl rfl rfl rfl⟩
  · unfold userPageUpmap
    rw [if_neg (Nat.not_le.2 hv.1)]
  · by_cases hslot : (q, u) = (p, v)
    · obtain ⟨rfl, rfl⟩ := Prod.mk.inj hslot
      exact .inl ⟨hnone, A.setPage_self q u none⟩
    · exact .inr ⟨hother q u hu hslot, A.setPage_of_ne none hslot⟩

/-- **`exit`** -/
theorem Rel.exit (h : Rel hand s A) (hroot : p ≠ s.rootproc) :
    Rel hand (Paging.exit s p) { A with page := Function.update A.page p fun _ => none } := by
  obtain ⟨hok, hquiet, hnone, hother⟩ := h.ok.exit hroot
  refine h.fewer hok hquiet.same (fun q u z _ _ => congrFun hquiet.data z.frame) (fun q u hu => ?_) rfl rfl rfl rfl
  by_cases hq : q = p
  · subst hq
    refine .inl ⟨hnone u hu.1, ?_⟩
    show Function.update A.page q _ q u = none
    rw [Function.update_self]
  · exact .inr ⟨hother q u hq, congrFun (Function.update_of_ne hq ..) u⟩

/-- **A fault in the heap** -/
theorem Rel.heapFault (h : Rel hand s A) (hnone : A.page p (ROUNDDOWN va) = none) (hin : A.InHeap p va)
    (hk : Supplies s 4) : ∃ s', HeapFault.heapFault s p va = some s' ∧ Rel hand s' (A.touch p va) ∧
      ∃ o, (A.touch p va).page p (ROUNDDOWN va) = some (.shared true o) := by
  obtain ⟨hlo, hhi⟩ := hin
  obtain ⟨htext, htop⟩ := h.heap p va ⟨hlo, hhi⟩
  rw [h.base] at hlo
  rw [h.top] at hhi
  have huser : UserPage (ROUNDDOWN va) := by
    refine ⟨(Nat.sub_le _ _).trans_lt (htop.trans_le ?_), dvd_ROUNDDOWN va⟩
    decide
  have htemp : ROUNDDOWN va ≠ PFTEMP := by
    simp only [ROUNDDOWN, PFTEMP, UTEXT, PGSIZE] at *
    omega
  rw [touch_absent hnone]
  by_cases hdvd : PGSIZE ∣ va
  · have hround : ROUNDDOWN va = va := HeapFault.ROUNDDOWN_of_dvd hdvd
    rw [hround] at huser htemp
    obtain ⟨s', hpage, hrel, _⟩ := h.addPage (p := p) (k := 2) huser htemp hk
    rw [HeapFault.heapFault_aligned hlo hhi htop hdvd, hpage, if_pos hdvd, hround]
    exact ⟨s', rfl, hrel, A.next, A.setPage_self p va _⟩
  · have hnext : UserPage (ROUNDDOWN va + PGSIZE) := by
      refine ⟨?_, Nat.dvd_add (dvd_ROUNDDOWN va) (Nat.dvd_refl _)⟩
      simp only [ROUNDDOWN, UTOP, HEAPTOP, PGSIZE] at *
      omega
    have htemp' : ROUNDDOWN va + PGSIZE ≠ PFTEMP := by
      simp only [ROUNDDOWN, PFTEMP, UTEXT, PGSIZE] at *
      omega
    obtain ⟨s₁, hpage₁, hrel₁, hsup₁⟩ := h.addPage (p := p) (k := 2) huser htemp hk
    obtain ⟨s', hpage', hrel', _⟩ := hrel₁.addPage (p := p) (k := 0) hnext htemp' hsup₁
    rw [HeapFault.heapFault_inside hlo hhi htop hdvd, hpage₁, if_neg hdvd]
    dsimp only
    rw [hpage']
    refine ⟨s', rfl, hrel', A.next, ?_⟩
    have hne : (p, ROUNDDOWN va) ≠ (p, ROUNDDOWN va + PGSIZE) := by
      intro heq
      exact absurd (Prod.mk.inj heq).2 (Nat.ne_of_lt (Nat.lt_add_of_pos_right (by decide)))
    exact ((A.addPage p (ROUNDDOWN va)).setPage_of_ne _ hne).trans (A.setPage_self p _ _)

/-- **A fault on a page that is marked copy-on-write** changes no page. -/
theorem Rel.cowPgfault {bytes : Nat → Nat} (h : Rel hand s A) (hva : va < UTOP)
    (hold : Holds s A p (ROUNDDOWN va) e (.own true bytes)) (hk : Supplies s 2) :
    ∃ f, Rel hand (Paging.cowPgfault s p va) A ∧
      Holds (Paging.cowPgfault s p va) A p (ROUNDDOWN va) ⟨f, PTE_USTK⟩ (.own true bytes) := by
  have htemp : tr s p PFTEMP = none := h.absent ⟨by decide, by decide⟩ (h.temp p)
  obtain ⟨f, s', hs', hok, _, hsame, hnot, hself, hdata, hother⟩ :=
    h.ok.cowPgfault (k := 0) hva hold.entry htemp hk
  rw [hs']
  have hbytes : s.data e.frame = bytes := by
    have hagree := h.agree p _ hold.page
    rw [hold.entry, hold.value] at hagree
    cases hagree with
    | own _ _ _ data => exact data
  have hv : ROUNDDOWN va ≠ PFTEMP := by
    intro heq
    have hnone := h.temp p
    rw [← heq, hold.value] at hnone
    cases hnone
  refine ⟨f, ?_, hold.page, hself, hold.value⟩
  refine h.fresh hok hsame hself hnot hother hv hold.value (fun _ _ _ => rfl) (fun _ _ => rfl) (Nat.le_refl _) ?_ ?_
    rfl rfl
  · exact .own copy_bits.1 copy_bits.2.1 ⟨fun _ => .inl copy_bits.2.2, fun _ => rfl⟩ (hdata.trans hbytes)
  · intro w o hc
    cases hc

/-- **A read** finds the page, or the heap grows. -/
theorem Rel.reachRead (h : Rel hand s A) (hva : va < UTOP)
    (hok : (A.page p (ROUNDDOWN va)).isSome = true ∨ A.InHeap p va ∧ Supplies s 4) :
    ∃ e pg s', reach s p false va = some (e.frame, s') ∧ Rel hand s' (A.touch p va) ∧
      Holds s' (A.touch p va) p (ROUNDDOWN va) e pg := by
  have huser : UserPage (ROUNDDOWN va) := ⟨(Nat.sub_le _ _).trans_lt hva, dvd_ROUNDDOWN va⟩
  unfold reach
  cases hpg : A.page p (ROUNDDOWN va) with
  | some pg =>
    obtain ⟨e, hold, _⟩ := h.entry huser hpg
    have htouch : A.touch p va = A := by
      unfold Spaces.touch
      rw [hpg]
      exact if_pos rfl
    rw [h.access hva hold (fun hc => by cases hc), htouch]
    exact ⟨e, pg, s, rfl, h, hold⟩
  | none =>
    rw [hpg] at hok
    obtain ⟨hin, hk⟩ := hok.resolve_left Bool.false_ne_true
    obtain ⟨s', hfault, hrel, o, ho⟩ := h.heapFault hpg hin hk
    obtain ⟨e, hold, _⟩ := hrel.entry huser ho
    have htr : tr s p va = none := (tr_ROUNDDOWN s p va).symm.trans (h.absent huser hpg)
    have hhandler : pageFaultHandler s p false va = some s' := hfault
    rw [access_none h.ok.map hva (.inl htr) (.inr htr)]
    dsimp only
    rw [hhandler]
    dsimp only
    rw [hrel.access hva hold (fun hc => by cases hc)]
    exact ⟨e, _, s', rfl, hrel, hold⟩

/-- **A write** finds the page, gets a copy of it, or the heap grows. -/
theorem Rel.reachWrite (h : Rel hand s A) (hva : va < UTOP) (hk : Supplies s 4)
    (hok : (∃ pg, A.page p (ROUNDDOWN va) = some pg ∧ pg.writable = true) ∨
      A.page p (ROUNDDOWN va) = none ∧ A.InHeap p va ∧ (pdeAt s (p, PDINDEX va)).isSome = true) :
    ∃ e pg s', reach s p true va = some (e.frame, s') ∧ Rel hand s' (A.touch p va) ∧
      Holds s' (A.touch p va) p (ROUNDDOWN va) e pg ∧ e.perm &&& PTE_W ≠ 0 := by
  have huser : UserPage (ROUNDDOWN va) := ⟨(Nat.sub_le _ _).trans_lt hva, dvd_ROUNDDOWN va⟩
  unfold reach
  rcases hok with ⟨pg, hpg, hwrite⟩ | ⟨hnone, hin, hpde⟩
  · have htouch : A.touch p va = A := by
      unfold Spaces.touch
      rw [hpg]
      exact if_pos rfl
    rw [htouch]
    obtain ⟨e, hold, hagree⟩ := h.entry huser hpg
    by_cases hw : e.perm &&& PTE_W = 0
    · -- it is marked copy-on-write
      cases hagree with
      | shared user share write cow data => exact absurd hw (write.1 hwrite)
      | @own _ w bytes user own write data =>
        obtain rfl : w = true := hwrite
        have hcow : e.perm &&& PTE_COW ≠ 0 := (write.1 rfl).resolve_left (not_not.2 hw)
        have htr : tr s p va = some e := (tr_ROUNDDOWN s p va).symm.trans hold.entry
        obtain ⟨f, hrel, hnew⟩ := h.cowPgfault hva hold (hk.of_le (by decide))
        have hhandler : pageFaultHandler s p true va = some (Paging.cowPgfault s p va) := by
          unfold pageFaultHandler
          unfold tr trAt at htr
          cases ht : pdeAt s (p, PDINDEX va) with
          | none =>
            rw [ht] at htr
            cases htr
          | some t =>
            rw [ht] at htr
            dsimp only at htr ⊢
            split at htr
            · rw [if_pos rfl, Option.some.inj htr, if_pos hcow]
            · cases htr
        rw [access_none h.ok.map hva (.inr ⟨e, htr, hw⟩) (.inl rfl)]
        dsimp only
        rw [hhandler]
        dsimp only
        rw [hrel.access hva hnew fun _ => copy_bits.2.2]
        exact ⟨_, _, _, rfl, hrel, hnew, copy_bits.2.2⟩
    · rw [h.access hva hold fun _ => hw]
      exact ⟨e, pg, s, rfl, h, hold, hw⟩
  · obtain ⟨s', hfault, hrel, o, ho⟩ := h.heapFault hnone hin hk
    obtain ⟨e, hold, hagree⟩ := hrel.entry huser ho
    have hw : e.perm &&& PTE_W ≠ 0 := by
      cases hagree with
      | shared user share write cow data => exact write.1 rfl
    have htr : tr s p va = none := (tr_ROUNDDOWN s p va).symm.trans (h.absent huser hnone)
    have hhandler : pageFaultHandler s p true va = some s' := by
      obtain ⟨t, ht⟩ := Option.isSome_iff_exists.1 hpde
      have hzero : s.table t (PTINDEX va) = Pte.zero := by
        rcases h.ok.refs.entries _ (mem_pdeSlots_of_lt p hva) t ht _ (PTINDEX_lt va) with hz | ⟨hp, _⟩
        · exact hz
        · unfold tr at htr
          rw [trAt_eq ht, if_pos hp] at htr
          cases htr
      unfold pageFaultHandler
      rw [if_pos rfl, ht]
      dsimp only
      rw [hzero, if_neg (by decide)]
      exact hfault
    rw [access_none h.ok.map hva (.inl htr) (.inl rfl)]
    dsimp only
    rw [hhandler]
    dsimp only
    rw [hrel.access hva hold fun _ => hw]
    exact ⟨e, _, s', rfl, hrel, hold, hw⟩

end Fork

/-! ## §4 A small machine -/

open WeiOS.Lib (holders holders_eq_zero_iff)

/-- The requests for pages get the frames of the list. -/
theorem supplies_of_frames {s : Vm} {fs : List Nat} {rest : List (Option Nat)} (hs : s.supply = fs.map some ++ rest)
    (hfree : ∀ f ∈ fs, s.kind f = .pool ∧ s.allocated f = false) (hnodup : fs.Nodup) : Supplies s fs.length := by
  induction fs generalizing s with
  | nil => trivial
  | cons f fs ih =>
    have halloc : pageAlloc s = (some f,
        { s with
          supply := fs.map some ++ rest
          allocated := Function.update s.allocated f true
          pRef := Function.update s.pRef f 0
          table := Function.update s.table f fun _ => Pte.zero
          data := Function.update s.data f fun _ => 0 }) := by
      unfold pageAlloc
      rw [hs]
      exact if_pos (hfree f List.mem_cons_self)
    refine ⟨by rw [halloc]; exact Option.some_ne_none f, ?_⟩
    rw [halloc]
    refine ih rfl (fun g hg => ?_) (List.nodup_cons.1 hnodup).2
    obtain ⟨hpool, hfree⟩ := hfree g (List.mem_cons_of_mem f hg)
    refine ⟨hpool, ?_⟩
    have hgf : g ≠ f := fun heq => (List.nodup_cons.1 hnodup).1 (heq ▸ hg)
    exact (Function.update_of_ne hgf ..).trans hfree

/-- A machine of 2048 pages without user pages; the next `n` requests get the frames from 16 on. -/
def roomy (n : Nat) : Vm :=
  { vmInit ((List.range' 16 n).map some) with
    npagesNum := 2048
    kind := fun f => if 16 ≤ f ∧ f < 2048 then .pool else .other
    pRef := fun _ => 0 }

def noPages : Spaces := ⟨fun _ _ => none, fun _ _ => 0, 0, fun _ => UTEXT, fun _ => UTEXT + 2 * PGSIZE⟩

theorem roomy_supplies {n : Nat} (hn : n ≤ 2032) : Supplies (roomy n) n := by
  have hsupply : (roomy n).supply = (List.range' 16 n).map some ++ [] := by
    rw [List.append_nil]
    rfl
  have hfree : ∀ f ∈ List.range' 16 n, (roomy n).kind f = .pool ∧ (roomy n).allocated f = false := by
    intro f hf
    have hmem := List.mem_range'_1.1 hf
    exact ⟨if_pos ⟨hmem.1, by omega⟩, rfl⟩
  have h := supplies_of_frames hsupply hfree List.nodup_range'
  rwa [List.length_range'] at h

theorem pdeAt_roomy (n : Nat) (e : Proc × Nat) : pdeAt (roomy n) e = none :=
  if_neg (show ¬ Pte.zero.present = true by decide)

theorem roomy_ok (n : Nat) : Ok [] (roomy n) := by
  have hwf : PageTablesOk (roomy n) := by
    refine ⟨fun f hf => ?_, Nat.zero_lt_succ 2047, fun e _ e' _ t ht => ?_, fun e _ t ht => ?_, fun e _ t ht => ?_⟩
    · change (if 16 ≤ f ∧ f < 2048 then FrameKind.pool else .other) = .pool at hf
      show 0 < f ∧ f < 2048
      split at hf
      · omega
      · cases hf
    all_goals
      rw [pdeAt_roomy] at ht
      cases ht
  have hpde : ∀ f, holders pdeSlots (pdeAt (roomy n)) f = 0 := fun f =>
    holders_eq_zero_iff.2 fun e _ => by simp [pdeAt_roomy]
  have hpte : ∀ f, holders pteSlots (pteAt (roomy n)) f = 0 := fun f =>
    holders_eq_zero_iff.2 fun e _ => by simp [pteAt, pdeAt_roomy]
  have hkind : ∀ f, (roomy n).kind f ≠ .kernTable := by
    intro f
    change (if 16 ≤ f ∧ f < 2048 then FrameKind.pool else .other) ≠ .kernTable
    split <;> simp
  have hzero : ∀ f, mappings (roomy n) f = 0 := by
    intro f
    simp [mappings, hpde, hpte, hkind f]
  have hrefs : RefsOk (roomy n) := by
    refine ⟨fun f => ?_, fun f _ => ?_⟩
    · rw [hzero]
      rfl
    · rw [hzero]
      exact ⟨fun hc => absurd hc Bool.false_ne_true, fun hc => absurd hc (Nat.lt_irrefl 0)⟩
  refine ⟨hwf.vmInv hrefs, fun e _ e' _ t ht => ?_, fun e _ t ht => ?_, fun e _ t ht => ?_⟩
  all_goals
    rw [pdeAt_roomy] at ht
    cases ht

theorem roomy_rel (n : Nat) : Rel [] (roomy n) noPages where
  ok := roomy_ok n
  agree q v _ := by
    have htr : tr (roomy n) q v = none := trAt_eq_none (pdeAt_roomy n _)
    rw [htr]
    exact .none
  frames h := by cases h.value
  objects h := by cases h.value
  next h := by cases h.value
  temp _ := rfl
  base := rfl
  top := rfl
  heap p va hin := ⟨hin.1, hin.2.trans (show UTEXT + 2 * PGSIZE < HEAPTOP by decide)⟩

/-! ## §5 Runs -/

section Runs

variable {hand : List Nat} {s : Vm} {A : Spaces}

theorem step_fork {s s' : Vm} {cur son : Proc} (h : Cow.fork s cur son = some s') :
    step s (.fork cur son) = some (none, s') := by
  show (Cow.fork s cur son).map (none, ·) = _
  rw [h]
  rfl

/-- **Step lemma** -/
theorem Rel.step {o : Op} (h : Rel hand s A) (ho : Allowed s A o) :
    ∃ s', Cow.step s o = some ((A.step o).1, s') ∧ Rel hand s' (A.step o).2 := by
  cases o with
  | alloc p v =>
    obtain ⟨hv, htemp, hk⟩ := ho
    obtain ⟨s', halloc, hrel, _⟩ := h.alloc (p := p) (k := 0) hv htemp hk
    refine ⟨s', ?_, hrel⟩
    unfold Cow.step
    simp only [halloc]
    rfl
  | unmap p v =>
    obtain ⟨hv, hsome⟩ := ho
    obtain ⟨pg, hpg⟩ := Option.isSome_iff_exists.1 hsome
    obtain ⟨s', hunmap, hrel⟩ := h.unmap hv hpg
    refine ⟨s', ?_, hrel⟩
    unfold Cow.step
    simp only [hunmap]
    rfl
  | exit p =>
    refine ⟨Paging.exit s p, ?_, h.exit ho⟩
    show (if p = s.rootproc then none else some (none, Paging.exit s p)) = _
    rw [if_neg ho]
    rfl
  | fork cur son =>
    obtain ⟨hne, hslots, hk⟩ := ho
    obtain ⟨s', hfork, hrel, _⟩ := h.fork (k := 0) hne hslots (hk.of_le (by omega))
    exact ⟨s', step_fork hfork, hrel⟩
  | load p va =>
    obtain ⟨hva, hok⟩ := ho
    obtain ⟨e, pg, s', hreach, hrel, hold⟩ := h.reachRead hva hok
    refine ⟨s', ?_, hrel⟩
    have hvalue : (A.touch p va).read p va = some (s'.data e.frame (va % PGSIZE)) := by
      have hagree := hrel.agree p _ hold.page
      rw [hold.entry, hold.value] at hagree
      unfold Spaces.read
      rw [hold.value]
      cases hagree with
      | own _ _ _ data =>
        rw [data]
        rfl
      | shared _ _ _ _ data =>
        rw [data]
        rfl
    show (load s p va).map (fun x => (some x.1, x.2)) = _
    unfold load
    rw [hreach]
    show some (some (s'.data e.frame (va % PGSIZE)), s') = some ((A.touch p va).read p va, s')
    rw [hvalue]
  | store p va b =>
    obtain ⟨hva, hk, hok⟩ := ho
    obtain ⟨e, pg, s', hreach, hrel, hold, hw⟩ := h.reachWrite hva hk hok
    refine ⟨poke s' e.frame (va % PGSIZE) b, ?_, hrel.store hold hw b⟩
    show (Cow.store s p va b).map (none, ·) = _
    unfold Cow.store
    rw [hreach]
    rfl

/-- **Copy-on-write is invisible**: runs of forks, loads and stores by any processes, in any order, read what they
    read from the address spaces. -/
theorem cow_run {os : List Op} (h : Rel hand s A) (hos : AllAllowed s A os) :
    ∃ s', run s os = some ((A.run os).1, s') ∧ Rel hand s' (A.run os).2 := by
  induction os generalizing s A with
  | nil => exact ⟨s, rfl, h⟩
  | cons o os ih =>
    -- the step lemma keeps the relation, so the rest of the run has it too
    obtain ⟨s₁, hstep, hrel⟩ := h.step hos.1
    obtain ⟨s', hrun, hrel'⟩ := ih hrel (hos.2 _ _ hstep)
    refine ⟨s', ?_, hrel'⟩
    unfold run
    rw [hstep]
    dsimp only
    rw [hrun]
    rfl

end Runs

/-- Process 1 has got a page. -/
def onePage : Vm := (userPageAlloc (roomy 1000) (some 1) UTEXT PTE_USTK).2

def onePageSpaces : Spaces := noPages.setPage 1 UTEXT (some (.own true fun _ => 0))

theorem onePage_rel : Rel [] onePage onePageSpaces ∧ Supplies onePage 998 := by
  obtain ⟨s, halloc, hrel, hsup⟩ := (roomy_rel 1000).alloc (p := 1) ⟨by decide, by decide⟩
    (show UTEXT ≠ PFTEMP by decide) (roomy_supplies (show 998 + 2 ≤ 2032 by decide))
  unfold onePage
  rw [halloc]
  exact ⟨hrel, hsup⟩

/-- It forks, and the child writes to the page. -/
def forkRun : List Op := [.fork 1 2, .store 2 UTEXT 7, .load 1 UTEXT]

theorem forkRun_allowed : AllAllowed onePage onePageSpaces forkRun := by
  obtain ⟨hrel, hsup⟩ := onePage_rel
  have hva : UTEXT < UTOP := by decide
  have hslots : ∀ v, UserPage v → onePageSpaces.page 2 v = none := fun v _ => rfl
  obtain ⟨s, hfork, _, hsup'⟩ := hrel.fork (k := 4) (show (1 : Proc) ≠ 2 by decide) hslots (hsup.of_le (by decide))
  refine ⟨⟨by decide, hslots, hsup.of_le (by decide)⟩, fun r t ht => ?_⟩
  obtain rfl : t = s := by
    rw [step_fork hfork] at ht
    exact (Prod.mk.inj (Option.some.inj ht)).2.symm
  exact ⟨⟨hva, hsup', .inl ⟨.own true fun _ => 0, rfl, rfl⟩⟩, fun _ _ _ => ⟨⟨hva, .inl rfl⟩, fun _ _ _ => trivial⟩⟩

theorem cow_run_small : ∃ s', run onePage forkRun = some ([none, none, some 0], s') := by
  obtain ⟨s', hrun, _⟩ := cow_run onePage_rel.1 forkRun_allowed
  exact ⟨s', hrun⟩

/-! ## §6 Private pages -/

section Private

variable {hand : List Nat} {s : Vm} {A : Spaces} {p cur son : Proc} {v va : Nat}

/-- The process may change the page: the heap may grow over it, too. -/
def Touches (p : Proc) (v : Nat) : Op → Prop
  | .alloc q u | .unmap q u => q = p ∧ u = v
  | .exit q => q = p
  | .fork _ son => son = p
  | .load q va => q = p ∧ ROUNDDOWN va + PGSIZE = v
  | .store q va _ => q = p ∧ (ROUNDDOWN va = v ∨ ROUNDDOWN va + PGSIZE = v)

theorem touch_page {w : Bool} {bytes : Nat → Nat} {q : Proc} (hpage : A.page p v = some (.own w bytes))
    (hnext : ¬ (q = p ∧ ROUNDDOWN va + PGSIZE = v)) : (A.touch q va).page p v = some (.own w bytes) := by
  unfold Spaces.touch
  split
  · exact hpage
  · next habsent =>
    have hhere : (p, v) ≠ (q, ROUNDDOWN va) := by
      intro heq
      obtain ⟨rfl, rfl⟩ := Prod.mk.inj heq
      rw [hpage] at habsent
      exact habsent rfl
    split
    · next hdvd =>
      rw [HeapFault.ROUNDDOWN_of_dvd hdvd] at hhere
      exact (A.setPage_of_ne _ hhere).trans hpage
    · have hthere : (p, v) ≠ (q, ROUNDDOWN va + PGSIZE) := by
        intro heq
        obtain ⟨rfl, rfl⟩ := Prod.mk.inj heq
        exact hnext ⟨rfl, rfl⟩
      exact ((A.addPage q _).setPage_of_ne _ hthere).trans ((A.setPage_of_ne _ hhere).trans hpage)

/-- What other processes do, and what the process does elsewhere, leaves the page. -/
theorem step_page {w : Bool} {bytes : Nat → Nat} {o : Op} (hpage : A.page p v = some (.own w bytes))
    (ho : ¬ Touches p v o) : (A.step o).2.page p v = some (.own w bytes) := by
  cases o with
  | alloc q u =>
    refine (A.setPage_of_ne _ fun heq => ?_).trans hpage
    obtain ⟨rfl, rfl⟩ := Prod.mk.inj heq
    exact ho ⟨rfl, rfl⟩
  | unmap q u =>
    refine (A.setPage_of_ne _ fun heq => ?_).trans hpage
    obtain ⟨rfl, rfl⟩ := Prod.mk.inj heq
    exact ho ⟨rfl, rfl⟩
  | exit q => exact (congrFun (Function.update_of_ne (Ne.symm ho) ..) v).trans hpage
  | fork cur son =>
    show (Spaces.forkBelow (A.copyHeap cur son) cur son UTOP).page p v = _
    rw [forkBelow_page, if_neg fun hc => ho hc.1.symm]
    exact hpage
  | load q va => exact touch_page hpage ho
  | store q va b =>
    have htouch : (A.touch q va).page p v = some (.own w bytes) :=
      touch_page hpage fun hc => ho ⟨hc.1, .inr hc.2⟩
    show ((A.touch q va).write q va b).page p v = _
    unfold Spaces.write
    split
    · exact htouch
    · refine (Spaces.setPage_of_ne _ _ fun heq => ?_).trans htouch
      obtain ⟨rfl, rfl⟩ := Prod.mk.inj heq
      exact ho ⟨rfl, .inl rfl⟩
    · exact htouch

theorem run_page {w : Bool} {bytes : Nat → Nat} {os : List Op} (hpage : A.page p v = some (.own w bytes))
    (hos : ∀ o ∈ os, ¬ Touches p v o) : (A.run os).2.page p v = some (.own w bytes) := by
  induction os generalizing A with
  | nil => exact hpage
  | cons o os ih =>
    exact ih (step_page hpage (hos o List.mem_cons_self)) fun o' ho' => hos o' (List.mem_cons_of_mem o ho')

theorem run_snoc (A : Spaces) (os : List Op) (o : Op) :
    (A.run (os ++ [o])).1 = (A.run os).1 ++ [((A.run os).2.step o).1] := by
  induction os generalizing A with
  | nil => rfl
  | cons o' os ih =>
    show (A.step o').1 :: ((A.step o').2.run (os ++ [o])).1 = _
    rw [ih]
    rfl

/-- **A fork takes a snapshot**: what parent and child had in pages of their own they go on reading there, each until it
    changes the page itself, whatever all other processes do. -/
theorem fork_private {w : Bool} {bytes : Nat → Nat} {os : List Op} (h : Rel hand s A) (hva : va < UTOP)
    (hbase : Spaces.forkBase ≤ ROUNDDOWN va) (hpage : A.page cur (ROUNDDOWN va) = some (.own w bytes))
    (hp : p = cur ∨ p = son) (hallowed : AllAllowed s A (.fork cur son :: os ++ [.load p va]))
    (hos : ∀ o ∈ os, ¬ Touches p (ROUNDDOWN va) o) :
    ∃ rs s', run s (.fork cur son :: os ++ [.load p va]) = some (rs ++ [some (bytes (va % PGSIZE))], s') := by
  have hne : cur ≠ son := hallowed.1.1
  have hfork : (A.step (.fork cur son)).2.page p (ROUNDDOWN va) = some (.own w bytes) := by
    have hlt : ROUNDDOWN va < UTOP := (Nat.sub_le _ _).trans_lt hva
    show (Spaces.forkBelow (A.copyHeap cur son) cur son UTOP).page p (ROUNDDOWN va) = _
    rw [forkBelow_page]
    rcases hp with rfl | rfl
    · rw [if_neg fun hc => hne hc.1]
      exact hpage
    · rw [if_pos ⟨rfl, hbase, hlt⟩]
      exact hpage
  have hend : (A.run (.fork cur son :: os)).2.page p (ROUNDDOWN va) = some (.own w bytes) := by
    show ((A.step (.fork cur son)).2.run os).2.page p (ROUNDDOWN va) = _
    exact run_page hfork hos
  obtain ⟨s', hrun, _⟩ := cow_run h hallowed
  refine ⟨(A.run (.fork cur son :: os)).1, s', ?_⟩
  rw [hrun, List.cons_append, ← List.cons_append, run_snoc]
  have hread : ((A.run (.fork cur son :: os)).2.step (.load p va)).1 = some (bytes (va % PGSIZE)) := by
    generalize (A.run (.fork cur son :: os)).2 = B at hend
    have htouch : B.touch p va = B := by
      unfold Spaces.touch
      rw [hend]
      exact if_pos rfl
    show (B.touch p va).read p va = _
    rw [htouch]
    unfold Spaces.read
    rw [hend]
    rfl
  rw [hread]

end Private

theorem fork_private_small :
    ∃ rs s', run onePage (.fork 1 2 :: [.store 2 UTEXT 7] ++ [.load 1 UTEXT]) = some (rs ++ [some 0], s') := by
  have hallowed : AllAllowed onePage onePageSpaces (.fork 1 2 :: [.store 2 UTEXT 7] ++ [.load 1 UTEXT]) :=
    forkRun_allowed
  have hos : ∀ o ∈ [Op.store 2 UTEXT 7], ¬ Touches 1 (ROUNDDOWN UTEXT) o := by
    intro o ho
    rw [List.mem_singleton.1 ho]
    exact fun hc => absurd hc.1 (by decide)
  have hpage : onePageSpaces.page 1 (ROUNDDOWN UTEXT) = some (.own true fun _ => 0) := rfl
  exact fork_private onePage_rel.1 (show UTEXT < UTOP by decide)
    (show Spaces.forkBase ≤ ROUNDDOWN UTEXT by decide) hpage (.inl rfl) hallowed hos

end WeiOS.Paging.Cow
