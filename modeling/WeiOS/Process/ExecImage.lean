import Mathlib
import WeiOS.Mm.CowFork
import WeiOS.Process.Life

/-!
# The Image of a Program

The loop of `exec` over the program headers, with `grow_vm` and `load_program` of `kern/pmap.c`. As far as the new
program can tell it is about one array of bytes: a header makes it longer, and overwrites its part with bytes of the
file. The page tables that the loop builds hold this array, page by page.

A header whose segment starts below `UTEXT` is not tested for. `grow_vm` maps no page for it, and `load_program` does
not look at `PTE_P`.

## Main results
- `Grown.growVm`, `Grown.loadProgram`: what the two functions do to the array.
- `exec_loads`: the loop succeeds exactly if the array can be built, and then memory holds it.
-/

namespace WeiOS.Process.Create

open WeiOS.Paging (Vm Pte PGSIZE PDENTRIES PDINDEX PTINDEX UTEXT UTOP PTE_P PTE_W PTE_U PTE_USTK PFTEMP ROUNDUP ROUNDDOWN
  Supplies Ok pageAlloc pageInsert pgdirWalk pdeAt tr)
open WeiOS.Paging.PageMap (UserPage)
open WeiOS.Paging.Cow (Spaces Page Rel Holds)

/-! ## §1 The array -/

/-- A byte of the file that goes to address `a`, or the byte that is there. -/
def segmentTo (file : ExecFile) (des off size : Nat) (img : Nat → Nat) : Nat → Nat :=
  fun a => if des ≤ a ∧ a < des + size then (file.byte (off + (a - des))).toNat else img a

/-- A segment that `exec` loads: it ends below `UTOP`, starts a page, and is in the file. -/
def Loadable (file : ExecFile) (ph : Phdr) : Prop :=
  ph.pVaddr + ph.pMemsz < UTOP ∧ ph.pFilesz ≤ ph.pMemsz ∧ ph.pVaddr % PGSIZE = 0 ∧
    (ph.pFilesz = 0 ∨ ph.pOffset + ph.pFilesz ≤ file.fileSiz)

instance (file : ExecFile) (ph : Phdr) : Decidable (Loadable file ph) := inferInstanceAs (Decidable (_ ∧ _))

/-- One header: the end of the array, and its bytes. -/
def loadHeader (file : ExecFile) (off : Nat) (st : Nat × (Nat → Nat)) : Option (Nat × (Nat → Nat)) :=
  let ph := file.phdr off
  if readi file off PHDRSIZE ≠ some PHDRSIZE then none
  else if ph.pType ≠ ELF_PROG_LOAD then some st
  else if Loadable file ph then
    some (max st.1 (ph.pVaddr + ph.pMemsz), segmentTo file ph.pVaddr ph.pOffset ph.pFilesz st.2)
  else none

/-- `n` headers. -/
def loadImage (file : ExecFile) : Nat → Nat → Nat × (Nat → Nat) → Option (Nat × (Nat → Nat))
  | 0, _, st => some st
  | n + 1, off, st =>
    match loadHeader file off st with
    | none => none
    | some st => loadImage file n ((off + PHDRSIZE) % 2 ^ 32) st

/-- The segments of the `n` headers start at `UTEXT` or above. -/
def Placed (file : ExecFile) : Nat → Nat → Prop
  | 0, _ => True
  | n + 1, off => ((file.phdr off).pType = ELF_PROG_LOAD → UTEXT ≤ (file.phdr off).pVaddr) ∧
      Placed file n ((off + PHDRSIZE) % 2 ^ 32)

/-! ## §2 The pages -/

/-- The page of an array at `v`. -/
def pageOf (img : Nat → Nat) (v : Nat) : Page := .own true fun i => if i < PGSIZE then img (v + i) else 0

/-- The address spaces, where process `p` has the pages of an array, from `UTEXT` to `base`. -/
def withImage (A : Spaces) (p : Paging.Proc) (base : Nat) (img : Nat → Nat) : Spaces :=
  { A with page := Function.update A.page p fun v => if UTEXT ≤ v ∧ v < base then some (pageOf img v) else none }

/-- The new page directory holds the array, in pages that can be written. -/
structure Grown (hand : List Nat) (s : Vm) (A : Spaces) (p : Paging.Proc) (base : Nat) (img : Nat → Nat) : Prop where
  rel : Rel hand s (withImage A p base img)
  writable : ∀ v e, UserPage v → tr s p v = some e → e.perm &&& PTE_W ≠ 0

/-- The pages that begin between two addresses. -/
@[irreducible] def pages (lo hi : Nat) : Nat := (hi + (PGSIZE - 1)) / PGSIZE - (lo + (PGSIZE - 1)) / PGSIZE

section Image

variable {hand : List Nat} {s s' : Vm} {A : Spaces} {p : Paging.Proc} {file : ExecFile} {img : Nat → Nat}
  {base newsz v va n off k : Nat}

theorem withImage_page (A : Spaces) (p : Paging.Proc) (base : Nat) (img : Nat → Nat) (v : Nat) :
    (withImage A p base img).page p v = if UTEXT ≤ v ∧ v < base then some (pageOf img v) else none := by
  show Function.update A.page p _ p v = _
  rw [Function.update_self]

theorem withImage_other {q : Paging.Proc} (hq : q ≠ p) (v : Nat) : (withImage A p base img).page q v = A.page q v := by
  show Function.update A.page p _ q v = _
  rw [Function.update_of_ne hq]

/-- The end of the array matters up to its page only. -/
theorem Grown.congr {base' : Nat} (h : Grown hand s A p base img)
    (hbase : ∀ v, PGSIZE ∣ v → (v < base ↔ v < base')) : Grown hand s A p base' img := by
  refine ⟨h.rel.congr (fun q v hv => ?_) rfl rfl rfl rfl, h.writable⟩
  by_cases hq : q = p
  · subst hq
    rw [withImage_page, withImage_page]
    simp only [hbase v hv.2]
  · rw [withImage_other hq, withImage_other hq]

/-! ## §3 `grow_vm` -/

/-- One page. -/
theorem Grown.page (h : Grown hand s A p va img) (hva : UserPage va) (htext : UTEXT ≤ va)
    (himg : ∀ a ≥ va, img a = 0) (hk : Supplies s (k + 2)) :
    ∃ t s₁ f s₂ s', pgdirWalk s p va true = (some t, s₁) ∧ (s₁.table t (PTINDEX va)).present = false ∧
      pageAlloc s₁ = (some f, s₂) ∧ pageInsert s₂ p f va (PTE_W ||| PTE_U ||| PTE_P) = (true, s') ∧
      Grown hand s' A p (va + PGSIZE) img ∧ Supplies s' k := by
  have hwalkk : Supplies s (k + 1 + Paging.cost s p va) := by
    refine hk.of_le ?_
    unfold Paging.cost
    split <;> omega
  obtain ⟨t, s₁, hwalk, hok₁, hsup₁, hsame, hdir, htr, hdata⟩ := h.rel.ok.walk hva.1 hwalkk
  have hrel₁ : Rel hand s₁ (withImage A p va img) := by
    refine h.rel.fewer hok₁ hsame (fun q u z hu hz => ?_) (fun q u hu => .inr ⟨htr q u hu.1, rfl⟩) rfl rfl rfl rfl
    exact hdata _ (h.rel.ok.mapped hu.1 hz).2.2
  have habsent : tr s₁ p va = none := by
    refine hrel₁.absent hva ?_
    rw [withImage_page, if_neg fun hc => Nat.lt_irrefl va hc.2]
  have hpresent : (s₁.table t (PTINDEX va)).present = false := by
    unfold tr at habsent
    rw [Paging.trAt_eq hdir] at habsent
    split at habsent
    · cases habsent
    · next hp => exact Bool.eq_false_iff.2 hp
  have hcost : Paging.cost s₁ p va = 0 := by
    unfold Paging.cost
    rw [hdir]
    rfl
  have htemp : va ≠ PFTEMP := by
    intro heq
    rw [heq] at htext
    exact absurd htext (by decide)
  obtain ⟨f, s₂, s', halloc, hins, hrel', hsup', hi⟩ := hrel₁.newPage (p := p) (k := k) hva htemp
    (by rw [hcost]; exact hsup₁)
  refine ⟨t, s₁, f, s₂, s', hwalk, hpresent, halloc, hins, ⟨hrel'.congr (fun q u hu => ?_) rfl rfl rfl rfl,
    fun v e hv he => ?_⟩, hsup'⟩
  · by_cases hslot : (q, u) = (p, va)
    · obtain ⟨rfl, rfl⟩ := Prod.mk.inj hslot
      rw [Spaces.setPage_self, withImage_page, if_pos ⟨htext, Nat.lt_add_of_pos_right (by decide)⟩]
      have hzero : (fun i => if i < PGSIZE then img (u + i) else 0) = fun _ => 0 := by
        funext i
        rw [himg (u + i) (Nat.le_add_right u i), ite_self]
      unfold pageOf
      rw [hzero]
    · rw [Spaces.setPage_of_ne _ _ hslot]
      by_cases hq : q = p
      · subst hq
        have hne : u ≠ va := fun heq => hslot (by rw [heq])
        have hiff : u < va + PGSIZE ↔ u < va := by
          rw [Paging.Cow.lt_nextPage hu.2 hva.2]
          exact ⟨fun hc => hc.resolve_right hne, .inl⟩
        rw [withImage_page, withImage_page]
        simp only [hiff]
      · rw [withImage_other hq, withImage_other hq]
  · by_cases hslot : (p, v) = (p, va)
    · rw [(Prod.mk.inj hslot).2, hi.self] at he
      rw [← Option.some.inj he]
      exact Paging.Cow.copy_bits.2.2
    · rw [hi.other p v hv hslot, htr p v hv.1] at he
      exact h.writable v e hv he

theorem pages_le {a b c d : Nat} (hab : a ≤ b) (hcd : c ≤ d) : pages b c ≤ pages a d := by
  unfold pages
  exact (Nat.sub_le_sub_left (Nat.div_le_div_right (by omega)) _).trans
    (Nat.sub_le_sub_right (Nat.div_le_div_right (by omega)) _)

theorem pages_add {a b c : Nat} (hab : a ≤ b) (hbc : b ≤ c) : pages a c = pages a b + pages b c := by
  have h₁ : (a + (PGSIZE - 1)) / PGSIZE ≤ (b + (PGSIZE - 1)) / PGSIZE := Nat.div_le_div_right (by omega)
  have h₂ : (b + (PGSIZE - 1)) / PGSIZE ≤ (c + (PGSIZE - 1)) / PGSIZE := Nat.div_le_div_right (by omega)
  unfold pages
  omega

theorem pages_succ (hva : PGSIZE ∣ va) (hlt : va < newsz) : pages va newsz = pages (va + PGSIZE) newsz + 1 := by
  obtain ⟨i, rfl⟩ := hva
  unfold pages
  simp only [PGSIZE] at *
  omega

/-- **The loop of `grow_vm`** -/
theorem Grown.growLoop {fuel : Nat} (h : Grown hand s A p va img) (hva : PGSIZE ∣ va) (htext : UTEXT ≤ va)
    (htop : newsz < UTOP) (himg : ∀ a ≥ va, img a = 0) (hfuel : pages va newsz ≤ fuel)
    (hk : Supplies s (k + 2 * pages va newsz)) :
    ∃ s', Create.growLoop p newsz (fuel + 1) va s = (true, s') ∧
      Grown hand s' A p (max va newsz) img ∧ Supplies s' k := by
  induction fuel generalizing va s with
  | zero =>
    have hle : ¬ va < newsz := by
      intro hlt
      rw [pages_succ hva hlt] at hfuel
      omega
    unfold Create.growLoop
    rw [if_neg hle, Nat.max_eq_left (Nat.not_lt.1 hle)]
    exact ⟨s, rfl, h, hk.of_le (Nat.le_add_right ..)⟩
  | succ fuel ih =>
    unfold Create.growLoop
    by_cases hlt : va < newsz
    · rw [if_pos hlt]
      rw [pages_succ hva hlt] at hk hfuel
      -- each page needs at most two frames: its own, and that of a page table
      have hk' : Supplies s (k + 2 * pages (va + PGSIZE) newsz + 2) := hk.of_le (by omega)
      obtain ⟨t, s₁, f, s₂, s₃, hwalk, hpresent, halloc, hins, hgrown, hsup⟩ :=
        h.page ⟨hlt.trans htop, hva⟩ htext himg hk'
      rw [hwalk]
      dsimp only
      rw [hpresent, if_neg Bool.false_ne_true, halloc]
      dsimp only
      rw [hins]
      obtain ⟨s', hloop, hgrown', hsup'⟩ := ih hgrown (Nat.dvd_add hva (Nat.dvd_refl _)) (by omega)
        (fun a ha => himg a (by omega)) (by omega) hsup
      refine ⟨s', hloop, hgrown'.congr fun v hv => ?_, hsup'⟩
      -- the last page may end behind `newsz`
      obtain ⟨i, rfl⟩ := hva
      obtain ⟨j, rfl⟩ := hv
      simp only [PGSIZE] at *
      omega
    · rw [if_neg hlt, Nat.max_eq_left (Nat.not_lt.1 hlt)]
      exact ⟨s, rfl, h, hk.of_le (Nat.le_add_right ..)⟩

theorem ROUNDUP_spec {a : Nat} (ha : a < UTOP) : PGSIZE ∣ ROUNDUP a ∧ a ≤ ROUNDUP a ∧ ROUNDUP a < a + PGSIZE := by
  have hmod : (a + PGSIZE - 1) % 2 ^ 32 = a + PGSIZE - 1 := by
    apply Nat.mod_eq_of_lt
    simp only [UTOP, PGSIZE] at *
    omega
  unfold ROUNDUP
  rw [hmod]
  refine ⟨Paging.dvd_ROUNDDOWN _, ?_, ?_⟩
  all_goals
    simp only [ROUNDDOWN, PGSIZE]
    omega

/-- **`grow_vm`** makes the array longer. -/
theorem Grown.growVm (h : Grown hand s A p base img) (htext : UTEXT ≤ base) (hbase : base < UTOP) (htop : newsz < UTOP)
    (himg : ∀ a ≥ base, img a = 0) (hk : Supplies s (k + 2 * pages base newsz)) :
    ∃ s', Create.growVm s p base newsz = (max base newsz, s') ∧ Grown hand s' A p (max base newsz) img ∧
      Supplies s' k := by
  unfold Create.growVm
  rw [if_neg (Nat.not_le.2 htop)]
  by_cases hle : newsz ≤ base
  · rw [if_pos hle, Nat.max_eq_left hle]
    exact ⟨s, rfl, h, hk.of_le (Nat.le_add_right ..)⟩
  · rw [if_neg hle, Nat.max_eq_right (Nat.le_of_not_le hle)]
    obtain ⟨hdvd, hlo, hhi⟩ := ROUNDUP_spec hbase
    generalize ROUNDUP base = start at hdvd hlo hhi
    have hstart : Grown hand s A p start img := by
      refine h.congr fun v hv => ?_
      obtain ⟨i, rfl⟩ := hdvd
      obtain ⟨j, rfl⟩ := hv
      simp only [PGSIZE] at *
      omega
    have hfuel : pages start newsz ≤ 2 ^ 20 - 1 := by
      unfold pages
      simp only [PGSIZE, UTOP] at *
      omega
    have hneed : Supplies s (k + 2 * pages start newsz) := by
      have hpages := pages_le hlo (Nat.le_refl newsz)
      exact hk.of_le (by omega)
    obtain ⟨s', hloop, hgrown, hsup⟩ := hstart.growLoop hdvd (htext.trans hlo) htop (fun a ha => himg a (hlo.trans ha))
      hfuel hneed
    rw [show (2 : Nat) ^ 20 = 2 ^ 20 - 1 + 1 by decide, hloop]
    refine ⟨s', rfl, hgrown.congr fun v hv => ?_, hsup⟩
    obtain ⟨i, rfl⟩ := hdvd
    obtain ⟨j, rfl⟩ := hv
    simp only [PGSIZE] at *
    omega

/-! ## §4 `load_program` -/

theorem segmentTo_byte {size i : Nat} (hi : i < size) :
    segmentTo file va off size img (va + i) = (file.byte (off + i)).toNat := by
  unfold segmentTo
  rw [if_pos ⟨Nat.le_add_right va i, Nat.add_lt_add_left hi va⟩, Nat.add_sub_cancel_left]

theorem segmentTo_outside {size a : Nat} (ha : a < va ∨ va + size ≤ a) : segmentTo file va off size img a = img a := by
  unfold segmentTo
  rw [if_neg]
  omega

theorem segmentTo_zero (file : ExecFile) (va off : Nat) (img : Nat → Nat) : segmentTo file va off 0 img = img := by
  funext a
  exact segmentTo_outside (Nat.lt_or_ge a va)

/-- **One page of the file** -/
theorem Grown.chunk {size j : Nat} (h : Grown hand s A p base (segmentTo file va off j img)) (hva : PGSIZE ∣ va)
    (hj : PGSIZE ∣ j) (hlt : j < size) (htext : UTEXT ≤ va) (hsize : va + size ≤ base) (hbase : base < UTOP) :
    ∃ t, pdeAt s (p, PDINDEX (va + j)) = some t ∧
      Grown hand (Paging.Cow.fill s (s.table t (PTINDEX (va + j))).frame fun a =>
        if a < min (size - j) PGSIZE then (file.byte (off + j + a)).toNat
        else s.data (s.table t (PTINDEX (va + j))).frame a) A p base
        (segmentTo file va off (j + min (size - j) PGSIZE) img) := by
  have hpage : UserPage (va + j) := ⟨by omega, Nat.dvd_add hva hj⟩
  have hvalue : (withImage A p base (segmentTo file va off j img)).page p (va + j) =
      some (pageOf (segmentTo file va off j img) (va + j)) := by
    rw [withImage_page, if_pos]
    omega
  obtain ⟨e, he, hagree⟩ := h.rel.entry hpage hvalue
  have hentry := he.entry
  obtain ⟨t, ht⟩ := Option.isSome_iff_exists.1 (Paging.pdeAt_isSome_of_tr hentry)
  have hframe : s.table t (PTINDEX (va + j)) = e := by
    unfold tr at hentry
    rw [Paging.trAt_eq ht] at hentry
    split at hentry
    · exact Option.some.inj hentry
    · cases hentry
  have hdata : s.data e.frame = fun i => if i < PGSIZE then segmentTo file va off j img (va + j + i) else 0 := by
    cases hagree with
    | own user own write data => exact data
  refine ⟨t, ht, ?_⟩
  rw [hframe]
  generalize hn : min (size - j) PGSIZE = n
  have hnsize : n ≤ PGSIZE := hn ▸ Nat.min_le_right ..
  have hfill := h.rel.fill he (h.writable _ e hpage hentry)
    fun a => if a < n then (file.byte (off + j + a)).toNat else s.data e.frame a
  refine ⟨hfill.congr (fun q u hu => ?_) rfl rfl rfl rfl, h.writable⟩
  by_cases hslot : (q, u) = (p, va + j)
  · obtain ⟨rfl, rfl⟩ := Prod.mk.inj hslot
    rw [Spaces.setPage_self, withImage_page, if_pos (by omega)]
    unfold pageOf
    congr 2
    funext i
    rw [hdata]
    dsimp only
    by_cases hi : i < n
    · rw [if_pos hi, if_pos (hi.trans_le hnsize), Nat.add_assoc, segmentTo_byte (Nat.add_lt_add_left hi j),
        Nat.add_assoc]
    · rw [if_neg hi]
      congr 1
      rw [segmentTo_outside (.inr (by omega)), segmentTo_outside (.inr (by omega))]
  · rw [Spaces.setPage_of_ne _ _ hslot]
    by_cases hq : q = p
    · subst hq
      rw [withImage_page, withImage_page]
      have hne : u ≠ va + j := fun heq => hslot (by rw [heq])
      have hsame : pageOf (segmentTo file va off (j + n) img) u = pageOf (segmentTo file va off j img) u := by
        unfold pageOf
        congr 1
        funext i
        split
        · next hi =>
          -- the chunk is in another page
          have hapart : u + i < va + j ∨ va + j + n ≤ u + i := by
            obtain ⟨x, hx⟩ := hu.2
            obtain ⟨y, hy⟩ := hpage.2
            simp only [PGSIZE] at *
            omega
          unfold segmentTo
          have hiff : (va ≤ u + i ∧ u + i < va + (j + n)) ↔ va ≤ u + i ∧ u + i < va + j := by omega
          simp only [hiff]
        · rfl
      rw [hsame]
    · rw [withImage_other hq, withImage_other hq]

theorem readi_fits {n : Nat} (hfits : off + n ≤ file.fileSiz) (hsiz : file.fileSiz < 2 ^ 32) :
    readi file off n = some n := by
  have hmod : (off + n) % 2 ^ 32 = off + n := Nat.mod_eq_of_lt (hfits.trans_lt hsiz)
  unfold readi
  rw [hmod, if_neg (by omega), if_neg (Nat.not_lt.2 hfits)]

theorem loadLoop_done {fuel size j : Nat} (hle : size ≤ j) (s : Vm) :
    loadLoop p va file off size fuel j s = some (true, s) := by
  cases fuel with
  | zero => rfl
  | succ fuel => exact if_neg (Nat.not_lt.2 hle)

/-- **The loop of `load_program`** -/
theorem Grown.loadLoop {fuel size j : Nat} (h : Grown hand s A p base (segmentTo file va off j img)) (hva : PGSIZE ∣ va)
    (hj : PGSIZE ∣ j) (hle : j ≤ size) (htext : UTEXT ≤ va) (hsize : va + size ≤ base) (hbase : base < UTOP)
    (hfits : off + size ≤ file.fileSiz) (hsiz : file.fileSiz < 2 ^ 32) (hfuel : size - j ≤ fuel * PGSIZE)
    (hk : Supplies s k) :
    ∃ s', Create.loadLoop p va file off size fuel j s = some (true, s') ∧
      Grown hand s' A p base (segmentTo file va off size img) ∧ Supplies s' k := by
  induction fuel generalizing j s with
  | zero =>
    obtain rfl : j = size := by omega
    exact ⟨s, rfl, h, hk⟩
  | succ fuel ih =>
    rcases Nat.eq_or_lt_of_le hle with rfl | hlt
    · exact ⟨s, loadLoop_done (Nat.le_refl _) s, h, hk⟩
    · obtain ⟨t, ht, hgrown⟩ := h.chunk hva hj hlt htext hsize hbase
      have hn : (if size - j < PGSIZE then size - j else PGSIZE) = min (size - j) PGSIZE := by
        split <;> omega
      have hmod : (off + j) % 2 ^ 32 = off + j := Nat.mod_eq_of_lt (by omega)
      unfold Create.loadLoop
      rw [if_pos hlt, Paging.pgdirWalk_false, ht]
      dsimp only
      rw [hn, hmod, readi_fits (show off + j + min (size - j) PGSIZE ≤ file.fileSiz by omega) hsiz]
      dsimp only
      rw [if_neg (not_not.2 rfl)]
      have hsup : ∀ f bytes, Supplies (Paging.Cow.fill s f bytes) k := by
        intro f bytes
        refine Paging.Supplies.mono ?_ ?_ ?_ hk
        · rfl
        · rfl
        · exact fun _ hg => hg
      -- the last turn reads what is left, the others a whole page
      rcases Nat.lt_or_ge size (j + PGSIZE) with hlast | hmore
      · have hmin : min (size - j) PGSIZE = size - j := Nat.min_eq_left (by omega)
        rw [hmin, Nat.add_sub_cancel' hle] at hgrown
        rw [hmin]
        exact ⟨_, loadLoop_done (Nat.le_of_lt hlast) _, hgrown, hsup _ _⟩
      · have hmin : min (size - j) PGSIZE = PGSIZE := Nat.min_eq_right (by omega)
        rw [hmin] at hgrown
        rw [hmin]
        refine ih hgrown (Nat.dvd_add hj (Nat.dvd_refl _)) hmore ?_ (hsup _ _)
        rw [Nat.add_mul, Nat.one_mul] at hfuel
        omega

/-- **`load_program`** puts bytes of the file into the array. -/
theorem Grown.loadProgram {size : Nat} (h : Grown hand s A p base img) (hva : PGSIZE ∣ va) (htext : UTEXT ≤ va)
    (hsize : va + size ≤ base) (hbase : base < UTOP) (hfits : size = 0 ∨ off + size ≤ file.fileSiz)
    (hsiz : file.fileSiz < 2 ^ 32) (hk : Supplies s k) :
    ∃ s', Create.loadProgram s p va file off size = some (true, s') ∧
      Grown hand s' A p base (segmentTo file va off size img) ∧ Supplies s' k := by
  rcases hfits with rfl | hfits
  · rw [segmentTo_zero]
    exact ⟨s, loadLoop_done (Nat.le_refl 0) s, h, hk⟩
  · rw [← segmentTo_zero file va off img] at h
    have htop : UTOP ≤ 2 ^ 20 * PGSIZE := by decide
    exact h.loadLoop hva (Nat.dvd_zero _) (Nat.zero_le _) htext hsize hbase hfits hsiz (by omega) hk

/-! ## §5 The loop over the headers -/

/-- Where `load_program` succeeds the file has all bytes of the segment. -/
theorem loadLoop_fits {fuel size j : Nat}
    (hrun : loadLoop p va file off size fuel j s = some (true, s')) (hlt : j < size)
    (hoff : off + j < 2 ^ 32) (hsiz : file.fileSiz < 2 ^ 32) (hfuel : size - j ≤ fuel * PGSIZE) :
    off + size ≤ file.fileSiz := by
  induction fuel generalizing j s with
  | zero => omega
  | succ fuel ih =>
    unfold Create.loadLoop at hrun
    rw [if_pos hlt, Nat.mod_eq_of_lt hoff] at hrun
    split at hrun
    · cases hrun
    · next t s₁ _ =>
      dsimp only at hrun
      generalize hnb : (if size - j < PGSIZE then size - j else PGSIZE) = nbytes at hrun
      cases hread : readi file (off + j) nbytes with
      | none =>
        rw [hread] at hrun
        cases hrun
      | some n =>
        rw [hread] at hrun
        dsimp only at hrun
        split at hrun
        · cases hrun
        · next hn =>
          -- a short read is refused, so the file goes on to the end of this page
          obtain rfl : n = nbytes := not_not.1 hn
          have hchunk : off + j + n ≤ file.fileSiz := by
            unfold readi at hread
            split at hread
            · cases hread
            · have := Option.some.inj hread
              split at this <;> omega
          rcases Nat.lt_or_ge (j + PGSIZE) size with hmore | hlast
          · have hn' : n = PGSIZE := by rw [← hnb, if_neg (by omega)]
            refine ih hrun hmore (by omega) ?_
            rw [Nat.add_mul, Nat.one_mul] at hfuel
            omega
          · have hn' : n = size - j := by
              rw [← hnb]
              split <;> omega
            omega

theorem growVm_fst {b : Nat} (hrun : growVm s p base newsz = (b, s')) (hb : b ≠ 0) :
    newsz < UTOP ∧ b = max base newsz := by
  unfold growVm at hrun
  split at hrun
  · exact absurd (Prod.mk.inj hrun).1.symm hb
  · next htop =>
    refine ⟨Nat.not_le.1 htop, ?_⟩
    split at hrun
    · next hle => rw [← (Prod.mk.inj hrun).1, Nat.max_eq_left hle]
    · next hle =>
      split at hrun
      · exact absurd (Prod.mk.inj hrun).1.symm hb
      · rw [← (Prod.mk.inj hrun).1, Nat.max_eq_right (Nat.le_of_not_le hle)]

theorem word_lt (file : ExecFile) (off : Nat) : file.word off < 2 ^ 32 := by
  have h₀ := (file.byte off).isLt
  have h₁ := (file.byte (off + 1)).isLt
  have h₂ := (file.byte (off + 2)).isLt
  have h₃ := (file.byte (off + 2 + 1)).isLt
  unfold ExecFile.word ExecFile.half
  omega

/-- What the checks of `exec` say when no sum wraps around. -/
theorem loadable_iff : Loadable file (file.phdr off) ↔
    ¬ UTOP < (file.phdr off).pVaddr ∧
    ¬ ((file.phdr off).pVaddr + (file.phdr off).pMemsz) % 2 ^ 32 < (file.phdr off).pVaddr ∧
    ¬ (file.phdr off).pMemsz < (file.phdr off).pFilesz ∧
    ((file.phdr off).pVaddr + (file.phdr off).pMemsz) % 2 ^ 32 < UTOP ∧ (file.phdr off).pVaddr % PGSIZE = 0 ∧
    ((file.phdr off).pFilesz = 0 ∨ (file.phdr off).pOffset + (file.phdr off).pFilesz ≤ file.fileSiz) := by
  have hv : (file.phdr off).pVaddr < 2 ^ 32 := word_lt file _
  have hm : (file.phdr off).pMemsz < 2 ^ 32 := word_lt file _
  have htop : UTOP < 2 ^ 32 := by decide
  unfold Loadable
  omega

/-- **A header**: if `exec` accepts it, it is one of the array. -/
theorem execPhdr_image {b : Nat} (hsiz : file.fileSiz < 2 ^ 32)
    (hrun : execPhdr s p file off base = some (some b, s')) (img : Nat → Nat) :
    ∃ img', loadHeader file off (base, img) = some (b, img') := by
  unfold execPhdr at hrun
  unfold loadHeader
  dsimp only at hrun ⊢
  split at hrun
  · cases hrun
  · next hread =>
    rw [if_neg hread]
    split at hrun
    · next htype =>
      rw [if_pos htype, ← Option.some.inj (Prod.mk.inj (Option.some.inj hrun)).1]
      exact ⟨img, rfl⟩
    · next htype =>
      rw [if_neg htype]
      split at hrun
      · cases hrun
      split at hrun
      · cases hrun
      split at hrun
      · cases hrun
      next htop hwrap hfile =>
      generalize hgrow : growVm s p base _ = r at hrun
      obtain ⟨b', s₁⟩ := r
      dsimp only at hrun
      split at hrun
      · cases hrun
      next hb =>
      obtain ⟨hlt, hmax⟩ := growVm_fst hgrow hb
      split at hrun
      · cases hrun
      next halign =>
      split at hrun
      · cases hrun
      · cases hrun
      next s₂ hload =>
      have hoff : (file.phdr off).pOffset < 2 ^ 32 := word_lt file _
      have hsize : (file.phdr off).pFilesz < 2 ^ 32 := word_lt file _
      have hfits : (file.phdr off).pFilesz = 0 ∨
          (file.phdr off).pOffset + (file.phdr off).pFilesz ≤ file.fileSiz := by
        rcases Nat.eq_zero_or_pos (file.phdr off).pFilesz with h | h
        · exact .inl h
        · exact .inr (loadLoop_fits hload h hoff hsiz (by simp only [PGSIZE]; omega))
      have hloadable := loadable_iff.2 ⟨htop, hwrap, hfile, hlt, not_not.1 halign, hfits⟩
      have hmod : ((file.phdr off).pVaddr + (file.phdr off).pMemsz) % 2 ^ 32 =
          (file.phdr off).pVaddr + (file.phdr off).pMemsz :=
        Nat.mod_eq_of_lt (hloadable.1.trans (by decide))
      rw [if_pos hloadable, ← Option.some.inj (Prod.mk.inj (Option.some.inj hrun)).1, hmax, hmod]
      exact ⟨_, rfl⟩

/-- What the loop over the headers keeps. -/
structure Loaded (hand : List Nat) (s : Vm) (A : Spaces) (p : Paging.Proc) (base : Nat) (img : Nat → Nat) : Prop
    extends Grown hand s A p base img where
  text : UTEXT ≤ base
  top : base < UTOP
  zero : ∀ a ≥ base, img a = 0

/-- **A header** of the array, with memory enough for it. -/
theorem Loaded.execPhdr {b : Nat} {img' : Nat → Nat} (h : Loaded hand s A p base img) (hsiz : file.fileSiz < 2 ^ 32)
    (hplaced : (file.phdr off).pType = ELF_PROG_LOAD → UTEXT ≤ (file.phdr off).pVaddr)
    (himage : loadHeader file off (base, img) = some (b, img')) (hk : Supplies s (k + 2 * pages base b)) :
    ∃ s', Create.execPhdr s p file off base = some (some b, s') ∧ Loaded hand s' A p b img' ∧ Supplies s' k := by
  unfold loadHeader at himage
  unfold Create.execPhdr
  dsimp only at himage ⊢
  split at himage
  · cases himage
  · next hread =>
    rw [if_neg hread]
    split at himage
    · next htype =>
      obtain ⟨rfl, rfl⟩ := Prod.mk.inj (Option.some.inj himage)
      rw [if_pos htype]
      exact ⟨s, rfl, h, hk.of_le (Nat.le_add_right ..)⟩
    · next htype =>
      rw [if_neg htype]
      split at himage
      · next hloadable =>
        obtain ⟨rfl, rfl⟩ := Prod.mk.inj (Option.some.inj himage)
        obtain ⟨htop, hwrap, hfile, hlt, halign, hfits⟩ := loadable_iff.1 hloadable
        have hmod : ((file.phdr off).pVaddr + (file.phdr off).pMemsz) % 2 ^ 32 =
            (file.phdr off).pVaddr + (file.phdr off).pMemsz :=
          Nat.mod_eq_of_lt (hloadable.1.trans (by decide))
        rw [if_neg htop, if_neg hwrap, if_neg hfile, hmod]
        rw [hmod] at hlt
        have htext := hplaced (not_not.1 htype)
        have hneed : pages base ((file.phdr off).pVaddr + (file.phdr off).pMemsz) ≤
            pages base (max base ((file.phdr off).pVaddr + (file.phdr off).pMemsz)) :=
          pages_le (Nat.le_refl _) (Nat.le_max_right ..)
        obtain ⟨s₁, hgrow, hgrown, hsup⟩ := h.toGrown.growVm h.text h.top hlt h.zero
          (k := k) (hk.of_le (by omega))
        rw [hgrow]
        dsimp only
        have hpos : UTEXT ≤ max base ((file.phdr off).pVaddr + (file.phdr off).pMemsz) :=
          h.text.trans (Nat.le_max_left ..)
        have hzero : max base ((file.phdr off).pVaddr + (file.phdr off).pMemsz) ≠ 0 :=
          Nat.ne_of_gt ((show 0 < UTEXT by decide).trans_le hpos)
        rw [if_neg hzero, if_neg (not_not.2 halign)]
        have hend : (file.phdr off).pVaddr + (file.phdr off).pFilesz ≤
            max base ((file.phdr off).pVaddr + (file.phdr off).pMemsz) := by omega
        have htop' : max base ((file.phdr off).pVaddr + (file.phdr off).pMemsz) < UTOP := Nat.max_lt.2 ⟨h.top, hlt⟩
        obtain ⟨s₂, hload, hgrown', hsup'⟩ := hgrown.loadProgram (Nat.dvd_of_mod_eq_zero halign) htext hend htop'
          hfits hsiz hsup
        rw [hload]
        refine ⟨s₂, rfl, ⟨hgrown', hpos, htop', fun a ha => ?_⟩, hsup'⟩
        rw [segmentTo_outside (.inr (hend.trans ha))]
        exact h.zero a ((Nat.le_max_left ..).trans ha)
      · cases himage

theorem loadHeader_le {b : Nat} {img' : Nat → Nat}
    (h : loadHeader file off (base, img) = some (b, img')) : base ≤ b := by
  unfold loadHeader at h
  dsimp only at h
  split at h
  · cases h
  split at h
  · exact Nat.le_of_eq (Prod.mk.inj (Option.some.inj h)).1
  split at h
  · rw [← (Prod.mk.inj (Option.some.inj h)).1]
    exact Nat.le_max_left ..
  · cases h

theorem loadImage_le {b : Nat} {img' : Nat → Nat}
    (h : loadImage file n off (base, img) = some (b, img')) : base ≤ b := by
  induction n generalizing off base img with
  | zero => exact Nat.le_of_eq (Prod.mk.inj (Option.some.inj h)).1
  | succ n ih =>
    unfold loadImage at h
    split at h
    · cases h
    · next st hst =>
      exact (loadHeader_le hst).trans (ih h)

/-- **The loop of `exec`** accepts no file but those of which the array can be built. -/
theorem execPhdrs_image {b : Nat} (hsiz : file.fileSiz < 2 ^ 32)
    (hrun : execPhdrs p file n off base s = some (some b, s')) (img : Nat → Nat) :
    ∃ img', loadImage file n off (base, img) = some (b, img') := by
  induction n generalizing off base s img with
  | zero =>
    obtain ⟨hb, _⟩ := Prod.mk.inj (Option.some.inj hrun)
    exact ⟨img, by rw [← Option.some.inj hb]; rfl⟩
  | succ n ih =>
    unfold execPhdrs at hrun
    split at hrun
    · next b₁ s₁ hphdr =>
      obtain ⟨img₁, himage⟩ := execPhdr_image hsiz hphdr img
      obtain ⟨img', himage'⟩ := ih hrun img₁
      refine ⟨img', ?_⟩
      unfold loadImage
      rw [himage]
      exact himage'
    · next hno => exact absurd hrun (hno b s')

/-- **The loop of `exec`** builds the array in memory. -/
theorem Loaded.execPhdrs {b : Nat} {img' : Nat → Nat} (h : Loaded hand s A p base img) (hsiz : file.fileSiz < 2 ^ 32)
    (hplaced : Placed file n off) (himage : loadImage file n off (base, img) = some (b, img'))
    (hk : Supplies s (k + 2 * pages base b)) :
    ∃ s', Create.execPhdrs p file n off base s = some (some b, s') ∧ Loaded hand s' A p b img' ∧ Supplies s' k := by
  induction n generalizing off base img s with
  | zero =>
    obtain ⟨rfl, rfl⟩ := Prod.mk.inj (Option.some.inj himage)
    exact ⟨s, rfl, h, hk.of_le (Nat.le_add_right ..)⟩
  | succ n ih =>
    obtain ⟨hfirst, hrest⟩ := hplaced
    unfold loadImage at himage
    split at himage
    · cases himage
    · next st hst =>
      obtain ⟨b₁, img₁⟩ := st
      -- the pages of the first segment and of the others are counted apart
      have hpages := pages_add (loadHeader_le hst) (loadImage_le himage)
      obtain ⟨s₁, hphdr, hloaded, hsup⟩ := h.execPhdr hsiz hfirst hst (k := k + 2 * pages b₁ b) (hk.of_le (by omega))
      unfold Create.execPhdrs
      rw [hphdr]
      exact ih hloaded hrest himage hsup

end Image

/-! ## §6 The program -/

section Program

variable {hand : List Nat} {s : Vm} {A : Spaces} {p : Paging.Proc} {file : ExecFile} {n off k : Nat}

/-- A page directory without pages holds the empty array. -/
theorem Loaded.start (h : Rel hand s A) (hnew : ∀ v, UserPage v → A.page p v = none) :
    Loaded hand s A p UTEXT fun _ => 0 := by
  refine ⟨⟨h.congr (fun q v hv => ?_) rfl rfl rfl rfl, fun v e hv he => ?_⟩, Nat.le_refl _, by decide, fun _ _ => rfl⟩
  · by_cases hq : q = p
    · subst hq
      rw [withImage_page, if_neg (by omega), hnew v hv]
    · exact withImage_other hq v
  · rw [h.absent hv (hnew v hv)] at he
    cases he

/-- The program finds the bytes of the array. -/
theorem Loaded.load {base va : Nat} {img : Nat → Nat} (h : Loaded hand s A p base img) (htext : UTEXT ≤ va)
    (hva : va < base) : Paging.Cow.load s p va = some (img va, s) := by
  have hround : UserPage (ROUNDDOWN va) := ⟨(Nat.sub_le ..).trans_lt (hva.trans h.top), Paging.dvd_ROUNDDOWN va⟩
  have hvalue : (withImage A p base img).page p (ROUNDDOWN va) = some (pageOf img (ROUNDDOWN va)) := by
    have hlow : UTEXT ≤ ROUNDDOWN va := by
      unfold ROUNDDOWN
      simp only [UTEXT, PGSIZE] at *
      omega
    rw [withImage_page, if_pos ⟨hlow, (Nat.sub_le ..).trans_lt hva⟩]
  obtain ⟨e, he, hagree⟩ := h.rel.entry hround hvalue
  have haccess := h.rel.access (w := false) (hva.trans h.top) he fun hc => by cases hc
  have hbyte : s.data e.frame (va % PGSIZE) = img va := by
    have hsplit : ROUNDDOWN va + va % PGSIZE = va := Nat.sub_add_cancel (Nat.mod_le ..)
    cases hagree with
    | own user own write data =>
      rw [data]
      dsimp only
      rw [if_pos (Nat.mod_lt _ (by decide)), hsplit]
  unfold Paging.Cow.load Paging.Cow.reach
  rw [haccess, Option.map_some]
  dsimp only
  rw [hbyte]

/-- **`exec` loads the program**: with enough memory the loop over the program headers succeeds exactly if the segments
    make an array, and then the new address space holds this array, byte for byte, and all others are as before. -/
theorem exec_loads (h : Rel hand s A) (hnew : ∀ v, UserPage v → A.page p v = none) (hplaced : Placed file n off)
    (hsiz : file.fileSiz < 2 ^ 32)
    (hk : ∀ b img, loadImage file n off (UTEXT, fun _ => 0) = some (b, img) → Supplies s (k + 2 * pages UTEXT b)) :
    match loadImage file n off (UTEXT, fun _ => 0) with
    | some (b, img) => ∃ s', execPhdrs p file n off UTEXT s = some (some b, s') ∧ Rel hand s' (withImage A p b img) ∧
        Supplies s' k ∧ ∀ va, UTEXT ≤ va → va < b → Paging.Cow.load s' p va = some (img va, s')
    | none => ∀ b s', execPhdrs p file n off UTEXT s ≠ some (some b, s') := by
  cases himage : loadImage file n off (UTEXT, fun _ => 0) with
  | none =>
    intro b s' hrun
    obtain ⟨img, hsome⟩ := execPhdrs_image hsiz hrun fun _ => 0
    rw [himage] at hsome
    cases hsome
  | some st =>
    obtain ⟨b, img⟩ := st
    obtain ⟨s', hrun, hloaded, hsup⟩ := (Loaded.start h hnew).execPhdrs hsiz hplaced himage (hk b img himage)
    exact ⟨s', hrun, hloaded.rel, hsup, fun va htext hva => hloaded.load htext hva⟩

end Program

/-- A program of three bytes and two more that are zero. -/
def smallFile : ExecFile where
  fileSiz := 35
  byte a := [1, 0, 0, 0, 32, 0, 0, 0, 0, 0x80, 4, 8, 0, 0, 0, 0, 3, 0, 0, 0, 5, 0, 0, 0, 7, 0, 0, 0, 0, 0x10, 0, 0,
    10, 20, 30].getD a 0

theorem exec_loads_small : ∃ s', execPhdrs 1 smallFile 1 0 UTEXT (Paging.Cow.roomy 2) = some (some (UTEXT + 5), s') ∧
    Paging.Cow.load s' 1 (UTEXT + 1) = some (20, s') := by
  have himage : loadImage smallFile 1 0 (UTEXT, fun _ => 0) =
      some (UTEXT + 5, segmentTo smallFile UTEXT 32 3 fun _ => 0) := by
    rfl
  have hneed : 2 * pages UTEXT (UTEXT + 5) = 2 := by
    unfold pages
    decide
  have hplaced : Placed smallFile 1 0 := ⟨fun _ => by decide, trivial⟩
  have hnew : ∀ v, UserPage v → Paging.Cow.noPages.page 1 v = none := fun _ _ => rfl
  have hloads := exec_loads (k := 0) (Paging.Cow.roomy_rel 2) hnew hplaced (by decide) fun b img himg => by
    rw [himage] at himg
    obtain ⟨rfl, rfl⟩ := Prod.mk.inj (Option.some.inj himg)
    rw [hneed]
    exact Paging.Cow.roomy_supplies (by decide)
  rw [himage] at hloads
  obtain ⟨s', hrun, _, _, hload⟩ := hloads
  exact ⟨s', hrun, hload (UTEXT + 1) (by decide) (by decide)⟩

end WeiOS.Process.Create
