import Mathlib

/-!
# Dyadic Blocks and Tilings

A block of order `k` is a run of `2 ^ k` consecutive numbers that starts at a multiple of `2 ^ k`.
A tiling of `n` is a list of blocks that together contain each number below `n` exactly once. The
two operations of a buddy allocator are splitting a block into two halves and merging two buddies.

## Main results
- `Tiling.split`, `Tiling.merge`: both keep a tiling.
- `Tiling.buddy_mem`: the buddy of a block of a tiling, when it lies below `n`, starts a block that
  is not larger.
- `tagged_perm_cons`, `tagged_perm_remove`: blocks kept in one list per order.
-/

namespace WeiOS.Lib

/-! ## §1 Blocks -/

/-- The numbers of the block `b`, given by its start and its order. -/
def blockRange (b : Nat × Nat) : List Nat := List.range' b.1 (2 ^ b.2)

theorem mem_blockRange {b : Nat × Nat} {i : Nat} :
    i ∈ blockRange b ↔ b.1 ≤ i ∧ i < b.1 + 2 ^ b.2 := by
  rw [blockRange, List.mem_range'_1]

theorem start_mem_blockRange (b : Nat × Nat) : b.1 ∈ blockRange b :=
  mem_blockRange.2 ⟨Nat.le_refl _, Nat.lt_add_of_pos_right (Nat.two_pow_pos _)⟩

/-- A block is its lower half followed by its upper half. -/
theorem blockRange_succ (i k : Nat) :
    blockRange (i, k + 1) = blockRange (i, k) ++ blockRange (i + 2 ^ k, k) := by
  have hpow : 2 ^ (k + 1) = 2 ^ k + 2 ^ k := by rw [Nat.pow_succ, Nat.mul_two]
  simp only [blockRange, hpow]
  rw [← List.range'_append_1]

/-- **Two blocks that meet are nested**: the larger one contains the smaller one. -/
theorem block_subset {l s k m x : Nat} (hl : 2 ^ k ∣ l) (hs : 2 ^ m ∣ s) (hkm : k ≤ m)
    (hx : x ∈ blockRange (l, k)) (hx' : x ∈ blockRange (s, m)) :
    s ≤ l ∧ l + 2 ^ k ≤ s + 2 ^ m := by
  obtain ⟨hlx, hxl⟩ : l ≤ x ∧ x < l + 2 ^ k := mem_blockRange.1 hx
  obtain ⟨hsx, hxs⟩ : s ≤ x ∧ x < s + 2 ^ m := mem_blockRange.1 hx'
  -- all four ends are multiples of `2 ^ k`
  obtain ⟨c, hc⟩ : 2 ^ k ∣ 2 ^ m := Nat.pow_dvd_pow 2 hkm
  obtain ⟨a, rfl⟩ := hl
  obtain ⟨b, rfl⟩ := Dvd.dvd.trans ⟨c, hc⟩ hs
  rw [hc] at hxs ⊢
  have hba : b ≤ a := by
    by_contra hab
    have : 2 ^ k * (a + 1) ≤ 2 ^ k * b := Nat.mul_le_mul_left _ (by omega)
    rw [Nat.mul_add, Nat.mul_one] at this
    omega
  have hab : a < b + c := by
    by_contra hab
    have : 2 ^ k * (b + c) ≤ 2 ^ k * a := Nat.mul_le_mul_left _ (by omega)
    rw [Nat.mul_add] at this
    omega
  refine ⟨Nat.mul_le_mul_left _ hba, ?_⟩
  have : 2 ^ k * (a + 1) ≤ 2 ^ k * (b + c) := Nat.mul_le_mul_left _ hab
  rwa [Nat.mul_add, Nat.mul_one, Nat.mul_add] at this

/-! ## §2 Buddies -/

theorem xor_one_cases (q : Nat) :
    (q % 2 = 0 ∧ q ^^^ 1 = q + 1 ∧ q &&& (q ^^^ 1) = q) ∨
      (q % 2 = 1 ∧ q ^^^ 1 = q - 1 ∧ q &&& (q ^^^ 1) = q - 1) := by
  have hdiv : (q ^^^ 1) / 2 = q / 2 := by rw [Nat.xor_div_two]; simp
  have hmod := @Nat.xor_mod_two_eq_one q 1
  have hadiv : (q &&& (q ^^^ 1)) / 2 = q / 2 := by rw [Nat.and_div_two, hdiv, Nat.and_self]
  have hamod := @Nat.and_mod_two_eq_one q (q ^^^ 1)
  rcases Nat.mod_two_eq_zero_or_one q with h | h
  · have h1 : (q ^^^ 1) % 2 = 1 := hmod.2 (by omega)
    have h2 : ¬ (q &&& (q ^^^ 1)) % 2 = 1 := fun hc => by have := (hamod.1 hc).1; omega
    exact .inl ⟨h, by omega, by omega⟩
  · have h1 : ¬ (q ^^^ 1) % 2 = 1 := fun hc => hmod.1 hc (by omega)
    have h2 : ¬ (q &&& (q ^^^ 1)) % 2 = 1 := fun hc => h1 (hamod.1 hc).2
    exact .inr ⟨h, by omega, by omega⟩

/-- **Buddies**: of two buddies of order `k` one is the lower half and one the upper half of a block
    of order `k + 1`, and `&&&` gives the start of that block. -/
theorem xor_two_pow_cases {i k : Nat} (hi : 2 ^ k ∣ i) :
    (2 ^ (k + 1) ∣ i ∧ i ^^^ 2 ^ k = i + 2 ^ k ∧ i &&& (i ^^^ 2 ^ k) = i) ∨
      (∃ l, 2 ^ (k + 1) ∣ l ∧ i = l + 2 ^ k ∧ i ^^^ 2 ^ k = l ∧ i &&& (i ^^^ 2 ^ k) = l) := by
  obtain ⟨q, rfl⟩ := hi
  have hshift : ∀ a, 2 ^ k * a = a <<< k := fun a => by rw [Nat.shiftLeft_eq, Nat.mul_comm]
  have hone : 2 ^ k = 1 <<< k := by rw [Nat.shiftLeft_eq, Nat.one_mul]
  have hxor : (2 ^ k * q) ^^^ 2 ^ k = 2 ^ k * (q ^^^ 1) := by
    conv_lhs => rw [hshift, hone, ← Nat.shiftLeft_xor_distrib]
    exact (hshift _).symm
  have hand : (2 ^ k * q) &&& (2 ^ k * (q ^^^ 1)) = 2 ^ k * (q &&& (q ^^^ 1)) := by
    rw [hshift, hshift, hshift, Nat.shiftLeft_and_distrib]
  rw [hxor, hand, Nat.pow_succ]
  rcases xor_one_cases q with ⟨hq, hx, ha⟩ | ⟨hq, hx, ha⟩
  · left
    rw [ha, hx]
    refine ⟨Nat.mul_dvd_mul_left _ (Nat.dvd_of_mod_eq_zero hq), ?_, rfl⟩
    rw [Nat.mul_add, Nat.mul_one]
  · right
    rw [ha, hx]
    refine ⟨2 ^ k * (q - 1), Nat.mul_dvd_mul_left _ (Nat.dvd_of_mod_eq_zero (by omega)), ?_, rfl, rfl⟩
    have : q = (q - 1) + 1 := by omega
    conv_lhs => rw [this, Nat.mul_add, Nat.mul_one]

/-- Start of the block of order `k` that contains `i`. -/
def blockStart (i k : Nat) : Nat := i / 2 ^ k * 2 ^ k

theorem blockStart_eq {i l k : Nat} (hl : 2 ^ k ∣ l) (hi : i ∈ blockRange (l, k)) :
    blockStart i k = l := by
  obtain ⟨hli, hil⟩ : l ≤ i ∧ i < l + 2 ^ k := mem_blockRange.1 hi
  obtain ⟨q, rfl⟩ := hl
  have hdiv : i / 2 ^ k = q := by
    rw [Nat.div_eq_iff (Nat.two_pow_pos k)]
    rw [Nat.mul_comm q]
    omega
  rw [blockStart, hdiv, Nat.mul_comm]

/-- Start of the buddy of the block of order `k` that contains `i`. -/
def buddyStart (i k : Nat) : Nat := blockStart i k ^^^ 2 ^ k

/-- A buddy lies outside the block, and merging gives the block of the next order. -/
theorem merged_eq_blockStart {i l k : Nat} (hl : 2 ^ k ∣ l) (hi : i ∈ blockRange (l, k)) :
    l &&& (l ^^^ 2 ^ k) = blockStart i (k + 1) ∧ l ^^^ 2 ^ k ∉ blockRange (l, k) ∧
      i ∈ blockRange (l &&& (l ^^^ 2 ^ k), k + 1) := by
  obtain ⟨hli, hil⟩ : l ≤ i ∧ i < l + 2 ^ k := mem_blockRange.1 hi
  have hpos := Nat.two_pow_pos k
  have hpow : 2 ^ (k + 1) = 2 ^ k + 2 ^ k := by rw [Nat.pow_succ, Nat.mul_two]
  rcases xor_two_pow_cases hl with ⟨hd, hx, ha⟩ | ⟨m, hd, hlm, hx, ha⟩
  · have hmem : i ∈ blockRange (l, k + 1) := by
      have : l ≤ i ∧ i < l + 2 ^ (k + 1) := ⟨hli, by omega⟩
      exact mem_blockRange.2 this
    rw [ha]
    refine ⟨(blockStart_eq hd hmem).symm, ?_, hmem⟩
    rw [hx]
    intro hc
    have : l ≤ l + 2 ^ k ∧ l + 2 ^ k < l + 2 ^ k := mem_blockRange.1 hc
    omega
  · have hmem : i ∈ blockRange (m, k + 1) := by
      have : m ≤ i ∧ i < m + 2 ^ (k + 1) := ⟨by omega, by omega⟩
      exact mem_blockRange.2 this
    rw [ha]
    refine ⟨(blockStart_eq hd hmem).symm, ?_, hmem⟩
    rw [hx]
    intro hc
    have : l ≤ m ∧ m < l + 2 ^ k := mem_blockRange.1 hc
    omega

/-! ## §3 Tilings -/

/-- The blocks `bs` are aligned, and contain each number below `n` exactly once. -/
structure Tiling (bs : List (Nat × Nat)) (n : Nat) : Prop where
  perm : (bs.flatMap blockRange).Perm (List.range n)
  aligned : ∀ b ∈ bs, 2 ^ b.2 ∣ b.1

namespace Tiling

variable {bs bs' : List (Nat × Nat)} {n i k : Nat}

theorem of_perm (h : Tiling bs n) (hp : bs'.Perm bs) : Tiling bs' n :=
  ⟨(hp.flatMap_right blockRange).trans h.perm, fun b hb => h.aligned b (hp.mem_iff.1 hb)⟩

theorem nodup (h : Tiling bs n) : (bs.flatMap blockRange).Nodup :=
  h.perm.nodup_iff.2 List.nodup_range

/-- Every block lies below `n`. -/
theorem le (h : Tiling bs n) {b : Nat × Nat} (hb : b ∈ bs) : b.1 + 2 ^ b.2 ≤ n := by
  have hpos := Nat.two_pow_pos b.2
  have hlast : b.1 + 2 ^ b.2 - 1 ∈ bs.flatMap blockRange :=
    List.mem_flatMap.2 ⟨b, hb, mem_blockRange.2 ⟨by omega, by omega⟩⟩
  have := List.mem_range.1 (h.perm.mem_iff.1 hlast)
  omega

/-- Every number below `n` is in a block. -/
theorem exists_mem (h : Tiling bs n) (hi : i < n) : ∃ b ∈ bs, i ∈ blockRange b :=
  List.mem_flatMap.1 (h.perm.mem_iff.2 (List.mem_range.2 hi))

/-- No other block contains a number of the first one. -/
theorem not_mem_tail {b : Nat × Nat} (h : Tiling (b :: bs) n) (hi : i ∈ blockRange b)
    {b' : Nat × Nat} (hb' : b' ∈ bs) : i ∉ blockRange b' := by
  have hnd := h.nodup
  rw [List.flatMap_cons, List.nodup_append] at hnd
  exact fun hi' => hnd.2.2 i hi i (List.mem_flatMap.2 ⟨b', hb', hi'⟩) rfl

/-- Splitting a block into its halves. -/
theorem split (h : Tiling ((i, k + 1) :: bs) n) : Tiling ((i, k) :: (i + 2 ^ k, k) :: bs) n := by
  have hal := h.aligned (i, k + 1) List.mem_cons_self
  have hk : 2 ^ k ∣ i := Dvd.dvd.trans (Nat.pow_dvd_pow 2 (Nat.le_succ k)) hal
  refine ⟨?_, ?_⟩
  · have hp := h.perm
    rw [List.flatMap_cons, blockRange_succ, List.append_assoc] at hp
    exact hp
  · intro b hb
    rcases List.mem_cons.1 hb with rfl | hb
    · exact hk
    · rcases List.mem_cons.1 hb with rfl | hb
      · exact (Nat.dvd_add_right hk).2 (Nat.dvd_refl _)
      · exact h.aligned b (List.mem_cons_of_mem _ hb)

/-- Merging two buddies. -/
theorem merge (h : Tiling ((i, k) :: (i ^^^ 2 ^ k, k) :: bs) n) :
    Tiling ((i &&& (i ^^^ 2 ^ k), k + 1) :: bs) n := by
  have hal : 2 ^ k ∣ i := h.aligned (i, k) List.mem_cons_self
  have hrest : ∀ b ∈ bs, 2 ^ b.2 ∣ b.1 := fun b hb =>
    h.aligned b (List.mem_cons_of_mem _ (List.mem_cons_of_mem _ hb))
  have hp := h.perm
  rw [List.flatMap_cons, List.flatMap_cons, ← List.append_assoc] at hp
  rcases xor_two_pow_cases hal with ⟨hdvd, hx, ha⟩ | ⟨l, hdvd, hil, hx, ha⟩
  · rw [ha]
    rw [hx] at hp
    refine ⟨?_, ?_⟩
    · rw [List.flatMap_cons, blockRange_succ]
      exact hp
    · intro b hb
      rcases List.mem_cons.1 hb with rfl | hb
      · exact hdvd
      · exact hrest b hb
  · -- `i` is the upper half: the halves come in the other order
    rw [ha]
    rw [hx, hil] at hp
    refine ⟨?_, ?_⟩
    · rw [List.flatMap_cons, blockRange_succ]
      exact (List.perm_append_comm.append_right _).trans hp
    · intro b hb
      rcases List.mem_cons.1 hb with rfl | hb
      · exact hdvd
      · exact hrest b hb

/-- **The buddy of a block starts a block**, of the same order or a smaller one, when it lies below
    `n`: a larger block that contains it would contain its buddy too. -/
theorem buddy_mem (h : Tiling ((i, k) :: bs) n) (hlt : i ^^^ 2 ^ k < n) :
    ∃ m ≤ k, (i ^^^ 2 ^ k, m) ∈ bs := by
  have hal : 2 ^ k ∣ i := h.aligned (i, k) List.mem_cons_self
  have hpos := Nat.two_pow_pos k
  have hcases := xor_two_pow_cases hal
  generalize i ^^^ 2 ^ k = j at hlt hcases ⊢
  obtain ⟨⟨s, m⟩, hb, hj⟩ := h.exists_mem hlt
  -- the buddy is not in the block itself
  have hbs : (s, m) ∈ bs := by
    rcases List.mem_cons.1 hb with heq | hb
    · obtain ⟨rfl, rfl⟩ := Prod.mk.inj heq
      have hin : s ≤ j ∧ j < s + 2 ^ m := mem_blockRange.1 hj
      rcases hcases with ⟨_, hjs, _⟩ | ⟨l, _, hsl, hjl, _⟩
      · omega
      · omega
    · exact hb
  have hs : 2 ^ m ∣ s := h.aligned (s, m) hb
  obtain ⟨hsj, hjs⟩ := mem_blockRange.1 hj
  -- the common block of order `k + 1`, which no larger aligned block cuts
  obtain ⟨l, hl, hli, hlj, hile, hjle⟩ : ∃ l, 2 ^ (k + 1) ∣ l ∧ l ≤ i ∧ l ≤ j ∧
      i < l + 2 ^ (k + 1) ∧ j < l + 2 ^ (k + 1) := by
    have hpow : 2 ^ (k + 1) = 2 ^ k + 2 ^ k := by rw [Nat.pow_succ, Nat.mul_two]
    rcases hcases with ⟨hd, hji, _⟩ | ⟨l, hd, hil, hjl, _⟩
    · exact ⟨i, hd, by omega, by omega, by omega, by omega⟩
    · exact ⟨l, hd, by omega, by omega, by omega, by omega⟩
  have hm : m ≤ k := by
    by_contra hmk
    obtain ⟨hsl, hls⟩ := block_subset hl hs (by omega : k + 1 ≤ m)
      (mem_blockRange.2 ⟨hlj, hjle⟩) hj
    have hi : s ≤ i ∧ i < s + 2 ^ m := ⟨by omega, by omega⟩
    exact h.not_mem_tail (start_mem_blockRange (i, k)) hbs (mem_blockRange.2 hi)
  -- a block of order at most `k` that contains the multiple `j` of `2 ^ k` starts there
  have hjk : 2 ^ k ∣ j := by
    have hd : 2 ^ k ∣ 2 ^ (k + 1) := Nat.pow_dvd_pow 2 (Nat.le_succ k)
    rcases hcases with ⟨hd', rfl, _⟩ | ⟨l, hd', _, rfl, _⟩
    · exact (Nat.dvd_add_right (hd.trans hd')).2 (Nat.dvd_refl _)
    · exact hd.trans hd'
  have hjs' := (block_subset hs hjk hm hj (start_mem_blockRange (j, k))).1
  have heq : s = j := Nat.le_antisymm hsj hjs'
  exact ⟨m, hm, heq ▸ hbs⟩

/-- Blocks of a tiling start at different places. -/
theorem starts_nodup (h : Tiling bs n) : (bs.map Prod.fst).Nodup := by
  have hnd := h.nodup
  clear h
  induction bs with
  | nil => exact List.nodup_nil
  | cons b bs ih =>
    rw [List.flatMap_cons, List.nodup_append] at hnd
    obtain ⟨_, hbs, hdis⟩ := hnd
    refine List.nodup_cons.2 ⟨fun hm => ?_, ih hbs⟩
    obtain ⟨b', hb', heq⟩ := List.mem_map.1 hm
    refine hdis b.1 (start_mem_blockRange b) b.1 (List.mem_flatMap.2 ⟨b', hb', ?_⟩) rfl
    rw [← heq]
    exact start_mem_blockRange b'

/-- A tiling of `n` and a block that starts at `n`. -/
theorem extend (h : Tiling bs n) (hn : 2 ^ k ∣ n) : Tiling ((n, k) :: bs) (n + 2 ^ k) := by
  refine ⟨?_, ?_⟩
  · rw [List.flatMap_cons, List.range_add, blockRange]
    refine List.perm_append_comm.trans (h.perm.append ?_)
    rw [List.range'_eq_map_range]
  · intro b hb
    rcases List.mem_cons.1 hb with rfl | hb
    · exact hn
    · exact h.aligned b hb

/-- The first block does not start where another one does. -/
theorem start_ne {b b' : Nat × Nat} (h : Tiling (b :: bs) n) (hb' : b' ∈ bs) : b'.1 ≠ b.1 := by
  intro he
  have := h.starts_nodup
  rw [List.map_cons, List.nodup_cons] at this
  exact this.1 (he ▸ List.mem_map_of_mem hb')

end Tiling

/-! ## §4 Blocks kept in one list per order -/

/-- The blocks of the orders below `m`, when `xs k` lists the starts of those of order `k`. -/
def tagged (m : Nat) (xs : Nat → List Nat) : List (Nat × Nat) :=
  (List.range m).flatMap fun k => (xs k).map fun i => (i, k)

theorem mem_tagged {m : Nat} {xs : Nat → List Nat} {i k : Nat} :
    (i, k) ∈ tagged m xs ↔ k < m ∧ i ∈ xs k := by
  simp [tagged]

theorem tagged_succ (m : Nat) (xs : Nat → List Nat) :
    tagged (m + 1) xs = tagged m xs ++ (xs m).map fun i => (i, m) := by
  simp [tagged, List.range_succ]

theorem tagged_congr {m : Nat} {xs xs' : Nat → List Nat} (h : ∀ k < m, xs' k = xs k) :
    tagged m xs' = tagged m xs := by
  unfold tagged
  refine List.flatMap_congr fun k hk => ?_
  rw [h k (List.mem_range.1 hk)]

/-- A list of one order is replaced. -/
theorem tagged_update_perm {m : Nat} {xs : Nat → List Nat} {k : Nat} (hk : k < m) (l l' : List Nat)
    (hl : (xs k).Perm (l ++ l')) :
    (tagged m xs).Perm ((l.map fun i => (i, k)) ++ tagged m (Function.update xs k l')) := by
  induction m with
  | zero => omega
  | succ m ih =>
    rw [tagged_succ, tagged_succ]
    by_cases hkm : k = m
    · subst hkm
      have hlow : tagged k (Function.update xs k l') = tagged k xs :=
        tagged_congr fun j hj => Function.update_of_ne (by omega) _ _
      rw [Function.update_self, hlow]
      have hp := (hl.map fun i => (i, k)).append_left (tagged k xs)
      rw [List.map_append, ← List.append_assoc] at hp
      refine hp.trans ?_
      rw [← List.append_assoc]
      exact List.perm_append_comm.append_right _
    · rw [Function.update_of_ne (fun he => hkm he.symm), ← List.append_assoc]
      exact (ih (by omega)).append_right _

/-- A block is added to the list of its order. -/
theorem tagged_perm_cons {m : Nat} (xs : Nat → List Nat) {k : Nat} (hk : k < m) (i : Nat) :
    (tagged m (Function.update xs k (i :: xs k))).Perm ((i, k) :: tagged m xs) := by
  have h : (tagged m (Function.update xs k (i :: xs k))).Perm ([(i, k)] ++
      tagged m (Function.update (Function.update xs k (i :: xs k)) k (xs k))) :=
    tagged_update_perm hk [i] (xs k) (by simp)
  rw [Function.update_idem, Function.update_eq_self] at h
  exact h

/-- A block is taken from the list of its order. -/
theorem tagged_perm_remove {m : Nat} {xs : Nat → List Nat} {k : Nat} (hk : k < m) {i : Nat}
    {ys zs : List Nat} (hxs : xs k = ys ++ i :: zs) :
    (tagged m xs).Perm ((i, k) :: tagged m (Function.update xs k (ys ++ zs))) := by
  refine tagged_update_perm hk [i] (ys ++ zs) ?_
  rw [hxs]
  exact List.perm_middle

/-- The total size of the blocks, counted order by order. -/
theorem sum_tagged (m : Nat) (xs : Nat → List Nat) :
    ((tagged m xs).map fun b => 2 ^ b.2).sum = ∑ k ∈ Finset.range m, (xs k).length * 2 ^ k := by
  induction m with
  | zero => rfl
  | succ m ih =>
    rw [tagged_succ, List.map_append, List.sum_append, ih, Finset.sum_range_succ, List.map_map]
    congr 1
    simp [Function.comp_def]

/-- The blocks of a tiling have `n` numbers in all. -/
theorem Tiling.sum_sizes {bs : List (Nat × Nat)} {n : Nat} (h : Tiling bs n) :
    (bs.map fun b => 2 ^ b.2).sum = n := by
  have hlen := h.perm.length_eq
  rw [List.length_flatMap, List.length_range] at hlen
  simpa [blockRange] using hlen

/-! ## §5 Blocks counted from another origin -/

/-- A block whose start is given relative to `a`. -/
def shiftBlock (a : Nat) (b : Nat × Nat) : Nat × Nat := (a + b.1, b.2)

theorem shiftBlock_injective (a : Nat) : Function.Injective (shiftBlock a) := by
  rintro ⟨i, k⟩ ⟨i', k'⟩ h
  simp only [shiftBlock, Prod.mk.injEq] at h
  exact Prod.ext (by omega) h.2

theorem blockRange_shiftBlock (a : Nat) (b : Nat × Nat) :
    blockRange (shiftBlock a b) = (blockRange b).map (a + ·) := by
  simp only [blockRange, shiftBlock]
  rw [List.map_add_range']

theorem tagged_shiftBlock (a m : Nat) (xs : Nat → List Nat) :
    tagged m (fun k => (xs k).map (a + ·)) = (tagged m xs).map (shiftBlock a) := by
  simp [tagged, List.map_flatMap, shiftBlock, Function.comp_def]

/-- A tiling of the numbers below `n` tiles the `n` numbers from `a` on when it is shifted. -/
theorem Tiling.shift {bs : List (Nat × Nat)} {n : Nat} (h : Tiling bs n) (a : Nat) :
    ((bs.map (shiftBlock a)).flatMap blockRange).Perm (List.range' a n) := by
  have hmap : (bs.map (shiftBlock a)).flatMap blockRange = (bs.flatMap blockRange).map (a + ·) := by
    rw [List.flatMap_map, List.map_flatMap]
    exact List.flatMap_congr fun b _ => blockRange_shiftBlock a b
  rw [hmap]
  refine (h.perm.map (a + ·)).trans ?_
  rw [List.range_eq_range', List.map_add_range', Nat.add_zero]

end WeiOS.Lib
