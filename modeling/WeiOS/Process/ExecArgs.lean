import Mathlib

/-!
# The Argument Block of exec

The part of `exec` in `kern/sysfunc.c` that builds the stack of the new program. The stack is one page; the
kernel writes it downwards through its own address of the page, and rounds each string down to a word. No
length is checked.

## Main results
- `strncpy_spec`: what one `strncpy` writes, for a string of its own length.
- `pushStrings_inPage`: the strings, while they fit.
- `argBlock_iff`: the block is correct exactly when the strings and the table fit in the page.
-/

namespace WeiOS.Exec

/-! ## §1 The code -/

/-- `include/mmu.h`, `include/mem.h`, `include/param.h`. -/
def PGSIZE : Nat := 4096
def USTACKSIZE : Nat := PGSIZE
def USTACKBOTTOM : Nat := 0xD0000000 - PGSIZE
def UTOP : Nat := 0xEE800000
def MAXARG : Nat := 32

/-- A C string without its terminator. -/
abbrev Str := List (BitVec 8)

/-- The memory at the kernel's addresses, and the addresses that were written to. -/
structure Mem where
  bytes : Nat → BitVec 8
  written : List Nat

/-- `*a = b`, with a 32-bit address. -/
def Mem.store (m : Mem) (a : Nat) (b : BitVec 8) : Mem :=
  ⟨Function.update m.bytes (a % 2 ^ 32) b, a % 2 ^ 32 :: m.written⟩

/-- `strncpy(des, src, n)`: it stops after the terminator, or when `n` characters are copied, and then
    writes a terminator. -/
def strncpy (m : Mem) (des : Nat) : Str → Int → Mem
  | [], _ => (m.store des 0).store (des + 1) 0
  | c :: src, n =>
    if 0 < n - 1 then strncpy (m.store des c) (des + 1) src (n - 1)
    else (m.store des c).store (des + 1) 0

/-- `vesp_to_esp`: the user's address. -/
def vespToEsp (esp : Nat) : Nat := esp % PGSIZE + USTACKBOTTOM

/-- `int slen`. -/
def toInt (n : Nat) : Int := (BitVec.ofNat 32 n).toInt

/-- `esp = (esp - slen - 1) & ~3`, in 32-bit arithmetic. -/
def lower (esp slen : Nat) : Nat := (esp + 2 ^ 32 - slen % 2 ^ 32 + 2 ^ 32 - 1) % 2 ^ 32 / 4 * 4

/-- The loop over `argv`: memory, `esp`, and the pointers in `uargv`. -/
def pushStrings : List Str → Mem → Nat → List Nat → Mem × Nat × List Nat
  | [], m, esp, ptrs => (m, esp, ptrs)
  | s :: argv, m, esp, ptrs =>
    let esp := lower esp s.length
    pushStrings argv (strncpy m esp s (toInt s.length)) esp (ptrs ++ [vespToEsp esp])

/-- `memmove` of bytes to address `des`. -/
def storeBytes (m : Mem) (des : Nat) : List (BitVec 8) → Mem
  | [] => m
  | b :: bs => storeBytes (m.store des b) (des + 1) bs

/-- The bytes of a 32-bit number. -/
def wordBytes (w : Nat) : List (BitVec 8) :=
  (List.range 4).map fun k => BitVec.ofNat 8 (w / 2 ^ (8 * k))

/-- The table `uargv`: `argc`, the address of the pointers, the pointers, and 0. -/
def uargv (esp : Nat) (ptrs : List Nat) : List Nat :=
  ptrs.length :: vespToEsp ((esp + 2 ^ 32 - (ptrs.length + 1) * 4) % 2 ^ 32) :: (ptrs ++ [0])

/-- The stack of the new program: memory, and the `esp` that the kernel has. `va` is the kernel's
    address of the page. -/
def buildStack (va : Nat) (argv : List Str) (m : Mem) : Mem × Nat :=
  let (m, esp, ptrs) := pushStrings argv m (va + USTACKSIZE - 1) []
  let top := (esp + 2 ^ 32 - (3 + ptrs.length) * 4) % 2 ^ 32
  (storeBytes m top ((uargv esp ptrs).flatMap wordBytes), top)

/-! ## §2 What the program reads -/

/-- The user's byte at address `a`, in the stack page. -/
def userByte (va : Nat) (m : Mem) (a : Nat) : Option (BitVec 8) :=
  if USTACKBOTTOM ≤ a ∧ a < USTACKBOTTOM + PGSIZE then some (m.bytes (va + (a - USTACKBOTTOM))) else none

/-- The user's bytes from address `a` on. -/
def userBytes (va : Nat) (m : Mem) (a n : Nat) : Option (List (BitVec 8)) :=
  (List.range n).mapM fun k => userByte va m (a + k)

/-- **The argument block** for `argv` at `esp`: the writes stay in the page, and the program reads `argc`,
    the address of its pointers, the pointers with a 0 behind them, and at each pointer its string. -/
def ArgBlock (va : Nat) (argv : List Str) (m : Mem) (esp : Nat) : Prop :=
  (∀ a ∈ m.written, va ≤ a ∧ a < va + PGSIZE) ∧
    ∃ p, ∃ q : Nat → Nat,
      userBytes va m (vespToEsp esp) 4 = some (wordBytes argv.length) ∧
      userBytes va m (vespToEsp esp + 4) 4 = some (wordBytes p) ∧
      (∀ i, (hi : i < argv.length) → userBytes va m (p + 4 * i) 4 = some (wordBytes (q i)) ∧
        userBytes va m (q i) ((argv.get ⟨i, hi⟩).length + 1) = some (argv.get ⟨i, hi⟩ ++ [0])) ∧
      userBytes va m (p + 4 * argv.length) 4 = some (wordBytes 0)

/-- The words that a string takes. -/
def words (slen : Nat) : Nat := (slen + 4) / 4

/-- The bytes that the block takes. The byte above the first string is not used. -/
def blockSize : List Str → Nat
  | [] => 12
  | s :: argv => 4 * words (s.length + 1) + ((argv.map fun s => 4 * words s.length).sum + 4 * (3 + (argv.length + 1)))

/-! ## §3 Writes -/

section Writes

variable {m : Mem} {va : Nat}

theorem store_written (m : Mem) (a : Nat) (b : BitVec 8) : (m.store a b).written = a % 2 ^ 32 :: m.written := rfl

theorem store_bytes_self {a : Nat} (ha : a < 2 ^ 32) (b : BitVec 8) : (m.store a b).bytes a = b := by
  unfold Mem.store
  rw [Nat.mod_eq_of_lt ha]
  exact Function.update_self _ _ _

theorem store_bytes_of_ne {a c : Nat} (ha : a < 2 ^ 32) (hc : c ≠ a) (b : BitVec 8) :
    (m.store a b).bytes c = m.bytes c := by
  unfold Mem.store
  rw [Nat.mod_eq_of_lt ha]
  exact Function.update_of_ne hc _ _

/-- Nothing is taken back from the writes. -/
theorem strncpy_written_subset (m : Mem) (des : Nat) (s : Str) (n : Int) :
    m.written ⊆ (strncpy m des s n).written := by
  induction s generalizing m des n with
  | nil => exact fun a ha => List.mem_cons_of_mem _ (List.mem_cons_of_mem _ ha)
  | cons c s ih =>
    unfold strncpy
    split
    · exact fun a ha => ih _ _ _ (List.mem_cons_of_mem _ ha)
    · exact fun a ha => List.mem_cons_of_mem _ (List.mem_cons_of_mem _ ha)

/-- `strncpy` always writes to its destination. -/
theorem strncpy_first (m : Mem) (des : Nat) (s : Str) (n : Int) :
    des % 2 ^ 32 ∈ (strncpy m des s n).written := by
  cases s with
  | nil => exact List.mem_cons_of_mem _ List.mem_cons_self
  | cons c s =>
    unfold strncpy
    split
    · exact strncpy_written_subset _ _ _ _ List.mem_cons_self
    · exact List.mem_cons_of_mem _ List.mem_cons_self

/-- **`strncpy` of a whole string**: it writes the string and a terminator, and for the empty string a
    second terminator. -/
theorem strncpy_spec (m : Mem) (des : Nat) (s : Str) (hdes : des + s.length + 1 < 2 ^ 32) :
    (∀ a ∈ (strncpy m des s s.length).written, a ∈ m.written ∨ des ≤ a ∧ a ≤ des + max s.length 1) ∧
      (∀ k ≤ s.length, (strncpy m des s s.length).bytes (des + k) = (s ++ [0]).getD k 0) ∧
      ∀ a, a < des ∨ des + max s.length 1 < a → (strncpy m des s s.length).bytes a = m.bytes a := by
  induction s generalizing m des with
  | nil =>
    have h₀ : des < 2 ^ 32 := by omega
    have h₁ : des + 1 < 2 ^ 32 := by simpa using hdes
    refine ⟨fun a ha => ?_, fun k hk => ?_, fun a ha => ?_⟩
    · simp only [strncpy, store_written, List.mem_cons, Nat.mod_eq_of_lt h₀, Nat.mod_eq_of_lt h₁] at ha
      rcases ha with rfl | rfl | ha
      · right
        simp
      · right
        simp
      · exact .inl ha
    · obtain rfl : k = 0 := Nat.le_zero.1 hk
      unfold strncpy
      rw [Nat.add_zero des, store_bytes_of_ne h₁ (by omega), store_bytes_self h₀]
      rfl
    · have hmax : max ([] : Str).length 1 = 1 := rfl
      rw [hmax] at ha
      unfold strncpy
      rw [store_bytes_of_ne h₁ (by omega), store_bytes_of_ne h₀ (by omega)]
  | cons c s ih =>
    simp only [List.length_cons] at hdes ⊢
    have h₀ : des < 2 ^ 32 := by omega
    have h₁ : des + 1 < 2 ^ 32 := by omega
    cases s with
    | nil =>
      -- one character is copied, and a terminator follows
      have hrun : strncpy m des [c] ((([] : Str).length + 1 : Nat) : Int) = (m.store des c).store (des + 1) 0 := by
        unfold strncpy
        rw [if_neg (by simp)]
      rw [hrun]
      refine ⟨fun a ha => ?_, fun k hk => ?_, fun a ha => ?_⟩
      · simp only [store_written, List.mem_cons, Nat.mod_eq_of_lt h₀, Nat.mod_eq_of_lt h₁] at ha
        rcases ha with rfl | rfl | ha
        · right
          simp
        · right
          simp
        · exact .inl ha
      · obtain rfl | rfl : k = 0 ∨ k = 1 := by
          simp only [List.length_nil] at hk
          omega
        · rw [Nat.add_zero des, store_bytes_of_ne h₁ (by omega), store_bytes_self h₀]
          rfl
        · rw [store_bytes_self h₁]
          rfl
      · simp only [List.length_nil] at ha
        rw [store_bytes_of_ne h₁ (by omega), store_bytes_of_ne h₀ (by omega)]
    | cons d s =>
      have hrun : strncpy m des (c :: d :: s) (((d :: s).length + 1 : Nat) : Int) =
          strncpy (m.store des c) (des + 1) (d :: s) ((d :: s).length : Nat) := by
        rw [strncpy, if_pos (by simp only [List.length_cons]; omega)]
        congr 1
        omega
      obtain ⟨hw, hb, hk⟩ := ih (m.store des c) (des + 1) (by simp only [List.length_cons] at hdes ⊢; omega)
      rw [hrun]
      have hmax : max ((d :: s).length + 1) 1 = (d :: s).length + 1 := by omega
      have hmax' : max (d :: s).length 1 = (d :: s).length := by simp
      rw [hmax]
      rw [hmax'] at hw hk
      refine ⟨fun a ha => ?_, fun k hk' => ?_, fun a ha => ?_⟩
      · rcases hw a ha with hold | hnew
        · rw [store_written, Nat.mod_eq_of_lt h₀, List.mem_cons] at hold
          rcases hold with rfl | hold
          · right
            omega
          · exact .inl hold
        · right
          omega
      · cases k with
        | zero =>
          rw [Nat.add_zero des, hk des (by omega), store_bytes_self h₀]
          rfl
        | succ k =>
          rw [show des + (k + 1) = des + 1 + k by omega, hb k (by omega)]
          rfl
      · rw [hk a (by omega), store_bytes_of_ne h₀ (by omega)]

/-- `memmove`. -/
theorem storeBytes_spec (m : Mem) (des : Nat) (bs : List (BitVec 8)) (hdes : des + bs.length ≤ 2 ^ 32) :
    (∀ a ∈ (storeBytes m des bs).written, a ∈ m.written ∨ des ≤ a ∧ a < des + bs.length) ∧
      (∀ k < bs.length, (storeBytes m des bs).bytes (des + k) = bs.getD k 0) ∧
      ∀ a, a < des ∨ des + bs.length ≤ a → (storeBytes m des bs).bytes a = m.bytes a := by
  induction bs generalizing m des with
  | nil => exact ⟨fun a ha => .inl ha, fun k hk => absurd hk (Nat.not_lt_zero k), fun _ _ => rfl⟩
  | cons b bs ih =>
    simp only [List.length_cons] at hdes ⊢
    have h₀ : des < 2 ^ 32 := by omega
    obtain ⟨hw, hb, hk⟩ := ih (m.store des b) (des + 1) (by omega)
    unfold storeBytes
    refine ⟨fun a ha => ?_, fun k hk' => ?_, fun a ha => ?_⟩
    · rcases hw a ha with hold | hnew
      · rw [store_written, Nat.mod_eq_of_lt h₀, List.mem_cons] at hold
        rcases hold with rfl | hold
        · right
          omega
        · exact .inl hold
      · right
        omega
    · cases k with
      | zero =>
        rw [Nat.add_zero des, hk des (by omega), store_bytes_self h₀]
        rfl
      | succ k =>
        rw [show des + (k + 1) = des + 1 + k by omega, hb k (by omega)]
        rfl
    · rw [hk a (by omega), store_bytes_of_ne h₀ (by omega)]

theorem storeBytes_written_subset (m : Mem) (des : Nat) (bs : List (BitVec 8)) :
    m.written ⊆ (storeBytes m des bs).written := by
  induction bs generalizing m des with
  | nil => exact fun a ha => ha
  | cons b bs ih => exact fun a ha => ih _ _ (List.mem_cons_of_mem _ ha)

theorem length_wordBytes (w : Nat) : (wordBytes w).length = 4 := by simp [wordBytes]

theorem length_flatMap_wordBytes (ws : List Nat) : (ws.flatMap wordBytes).length = 4 * ws.length := by
  induction ws with
  | nil => rfl
  | cons w ws ih =>
    rw [List.flatMap_cons, List.length_append, length_wordBytes, ih, List.length_cons]
    omega

/-- The bytes of word `i` of a table. -/
theorem getD_flatMap_wordBytes (ws : List Nat) {i k : Nat} (hi : i < ws.length) (hk : k < 4) :
    (ws.flatMap wordBytes).getD (4 * i + k) 0 = (wordBytes (ws.getD i 0)).getD k 0 := by
  induction ws generalizing i with
  | nil => cases hi
  | cons w ws ih =>
    rw [List.flatMap_cons]
    cases i with
    | zero =>
      rw [List.getD_append _ _ _ _ (by rw [length_wordBytes]; omega), Nat.mul_zero, Nat.zero_add]
      rfl
    | succ i =>
      rw [List.getD_append_right _ _ _ _ (by rw [length_wordBytes]; omega), length_wordBytes,
        show 4 * (i + 1) + k - 4 = 4 * i + k by omega, ih (Nat.lt_of_succ_lt_succ hi)]
      rfl

end Writes

/-! ## §4 The strings -/

section Strings

variable {va e e' : Nat} {es : List Nat}

/-- The page at the kernel's address `va`. -/
structure PageAt (va : Nat) : Prop where
  aligned : va % PGSIZE = 0
  fits : va + PGSIZE ≤ 2 ^ 32

/-- A string in the page, from offset `e` downwards. -/
def lowerOff (e slen : Nat) : Nat := (e - slen - 1) / 4 * 4

/-- The offsets of the strings in the page, from offset `e` downwards, and the lowest one; `none` if they
    do not fit. -/
def place : Nat → List Str → Option (List Nat × Nat)
  | e, [] => some ([], e)
  | e, s :: argv =>
    if s.length + 1 ≤ e then
      (place (lowerOff e s.length) argv).map fun r => (lowerOff e s.length :: r.1, r.2)
    else none

theorem lowerOff_mod (e slen : Nat) : lowerOff e slen % 4 = 0 := Nat.mul_mod_left _ _

/-- `esp` of a string that fits. -/
theorem lower_eq (hva : PageAt va) (he : e < PGSIZE) {slen : Nat} (hs : slen + 1 ≤ e) :
    lower (va + e) slen = va + lowerOff e slen := by
  have ha := hva.aligned
  have hf := hva.fits
  simp only [PGSIZE] at ha hf he
  unfold lower lowerOff
  omega

/-- `esp` of a string that does not fit is outside the page. -/
theorem lower_outside (hva : PageAt va) (he : e < PGSIZE) {slen : Nat} (hs : ¬ slen + 1 ≤ e) (hlen : slen < UTOP) :
    ¬ (va ≤ lower (va + e) slen ∧ lower (va + e) slen < va + PGSIZE) ∧ lower (va + e) slen < 2 ^ 32 := by
  have ha := hva.aligned
  have hf := hva.fits
  simp only [PGSIZE, UTOP] at ha hf he hlen ⊢
  unfold lower
  omega

theorem toInt_of_lt {n : Nat} (h : n < PGSIZE) : toInt n = n := by
  simp only [PGSIZE] at h
  unfold toInt
  rw [BitVec.toInt_eq_toNat_cond, BitVec.toNat_ofNat]
  omega

theorem vespToEsp_eq (hva : PageAt va) (he : e < PGSIZE) : vespToEsp (va + e) = USTACKBOTTOM + e := by
  have ha := hva.aligned
  simp only [PGSIZE] at ha he
  unfold vespToEsp
  simp only [PGSIZE]
  omega

/-- **Strings that fit**: each is at its offset, with a terminator, and nothing else is written to. -/
theorem pushStrings_fit (hva : PageAt va) (argv : List Str) (m : Mem) (ptrs : List Nat) (he : e < PGSIZE)
    (he4 : e % 4 = 0 ∨ e = 4095) (hplace : place e argv = some (es, e')) :
    ∃ m', pushStrings argv m (va + e) ptrs = (m', va + e', ptrs ++ es.map (USTACKBOTTOM + ·)) ∧
      e' ≤ e ∧ es.length = argv.length ∧
      (∀ a ∈ m'.written, a ∈ m.written ∨ va + e' ≤ a ∧ a < va + e) ∧
      (∀ a, a < va + e' ∨ va + e ≤ a → m'.bytes a = m.bytes a) ∧
      ∀ (i : Nat) (s : Str), argv[i]? = some s → ∃ x : Nat, es[i]? = some x ∧ e' ≤ x ∧ x + s.length + 1 ≤ e ∧
        ∀ k ≤ s.length, m'.bytes (va + x + k) = (s ++ [0]).getD k 0 := by
  induction argv generalizing m ptrs e es with
  | nil =>
    obtain ⟨rfl, rfl⟩ : [] = es ∧ e = e' := by simpa [place] using hplace
    refine ⟨m, by simp [pushStrings], Nat.le_refl _, rfl, fun a ha => .inl ha, fun _ _ => rfl, fun i s hs => ?_⟩
    simp at hs
  | cons s argv ih =>
    unfold place at hplace
    by_cases hs : s.length + 1 ≤ e
    · rw [if_pos hs] at hplace
      obtain ⟨⟨es', e''⟩, hrest, heq⟩ := Option.map_eq_some_iff.1 hplace
      obtain ⟨rfl, rfl⟩ : lowerOff e s.length :: es' = es ∧ e'' = e' := by simpa using heq
      have hpage : 4 ≤ PGSIZE := by decide
      have hlow : lowerOff e s.length + max s.length 1 < e := by
        unfold lowerOff
        omega
      have hmod := lowerOff_mod e s.length
      generalize hx : lowerOff e s.length = x at hlow hrest hmod
      have hf := hva.fits
      have hlow' := lower_eq hva he hs
      rw [hx] at hlow'
      obtain ⟨hw, hb, hkeep⟩ := strncpy_spec m (va + x) s (by omega)
      obtain ⟨m', hrun, hle, hlen, hw', hkeep', hstr⟩ :=
        ih (strncpy m (va + x) s s.length) (ptrs ++ [USTACKBOTTOM + x]) (e := x) (by omega) (.inl hmod) hrest
      refine ⟨m', ?_, by omega, by rw [List.length_cons, List.length_cons, hlen], fun a ha => ?_, fun a ha => ?_,
        fun i s' hs' => ?_⟩
      · unfold pushStrings
        dsimp only
        rw [hlow', toInt_of_lt (by omega), vespToEsp_eq hva (by omega), hrun]
        simp
      · rcases hw' a ha with hold | hnew
        · rcases hw a hold with hold | hnew
          · exact .inl hold
          · right
            omega
        · right
          omega
      · rw [hkeep' a (by omega), hkeep a (by omega)]
      · cases i with
        | zero =>
          obtain rfl : s = s' := by simpa using hs'
          refine ⟨x, rfl, hle, by omega, fun k hk => ?_⟩
          rw [hkeep' _ (by omega), hb k hk]
        | succ i =>
          obtain ⟨y, hy, hey, hyx, hbytes⟩ := hstr i s' (by simpa using hs')
          exact ⟨y, by simpa using hy, hey, by omega, hbytes⟩
    · rw [if_neg hs] at hplace
      cases hplace

theorem pushStrings_written_subset (argv : List Str) (m : Mem) (esp : Nat) (ptrs : List Nat) :
    m.written ⊆ (pushStrings argv m esp ptrs).1.written := by
  induction argv generalizing m esp ptrs with
  | nil => exact fun a ha => ha
  | cons s argv ih => exact fun a ha => ih _ _ _ (strncpy_written_subset _ _ _ _ ha)

/-- **Strings that do not fit**: the first one that does not is written to below the page. -/
theorem pushStrings_outside (hva : PageAt va) (argv : List Str) (hlen : ∀ s ∈ argv, s.length < UTOP) (m : Mem)
    (ptrs : List Nat) (he : e < PGSIZE) (hplace : place e argv = none) :
    ∃ a ∈ (pushStrings argv m (va + e) ptrs).1.written, ¬ (va ≤ a ∧ a < va + PGSIZE) := by
  induction argv generalizing m ptrs e with
  | nil => cases hplace
  | cons s argv ih =>
    unfold place at hplace
    unfold pushStrings
    dsimp only
    by_cases hs : s.length + 1 ≤ e
    · rw [if_pos hs, Option.map_eq_none_iff] at hplace
      have hlow : lowerOff e s.length < PGSIZE := by
        unfold lowerOff
        omega
      rw [lower_eq hva he hs]
      exact ih (fun s hs => hlen s (List.mem_cons_of_mem _ hs)) _ _ hlow hplace
    · obtain ⟨hout, hlt⟩ := lower_outside hva he hs (hlen s List.mem_cons_self)
      refine ⟨lower (va + e) s.length, ?_, hout⟩
      apply pushStrings_written_subset
      have hfirst := strncpy_first m (lower (va + e) s.length) s (toInt s.length)
      rwa [Nat.mod_eq_of_lt hlt] at hfirst

/-- The strings fit if there is a byte for each of theirs. -/
theorem place_eq (argv : List Str) (he : e % 4 = 0) :
    if (argv.map fun s => 4 * words s.length).sum ≤ e then
      ∃ es, place e argv = some (es, e - (argv.map fun s => 4 * words s.length).sum)
    else place e argv = none := by
  induction argv generalizing e with
  | nil => exact ⟨[], rfl⟩
  | cons s argv ih =>
    have ih := ih (lowerOff_mod e s.length)
    rw [List.map_cons, List.sum_cons]
    unfold place
    have hfit : s.length + 1 ≤ e ↔ 4 * words s.length ≤ e := by
      unfold words
      omega
    have hoff : s.length + 1 ≤ e → lowerOff e s.length = e - 4 * words s.length := by
      intro hs
      unfold lowerOff words
      omega
    generalize (argv.map fun s => 4 * words s.length).sum = total at ih ⊢
    generalize 4 * words s.length = n at hfit hoff ⊢
    by_cases hs : s.length + 1 ≤ e
    · rw [if_pos hs]
      rw [hoff hs] at ih ⊢
      by_cases hrest : total ≤ e - n
      · rw [if_pos hrest] at ih
        obtain ⟨es, hes⟩ := ih
        rw [if_pos (by omega), hes]
        refine ⟨(e - n) :: es, ?_⟩
        rw [Option.map_some]
        congr 2
        omega
      · rw [if_neg hrest] at ih
        rw [if_neg (by omega), ih]
        rfl
    · rw [if_neg hs, if_neg (by omega)]

/-- The block fits in the page exactly when the strings do and leave room for the table. -/
theorem blockSize_le_iff (argv : List Str) (h : argv ≠ []) :
    blockSize argv ≤ PGSIZE ↔ ∃ es e', place (PGSIZE - 1) argv = some (es, e') ∧ 4 * (3 + argv.length) ≤ e' := by
  cases argv with
  | nil => exact absurd rfl h
  | cons s argv =>
    have hrest := place_eq argv (lowerOff_mod (PGSIZE - 1) s.length)
    have hsize : blockSize (s :: argv) = 4 * words (s.length + 1) +
        ((argv.map fun s => 4 * words s.length).sum + 4 * (3 + (argv.length + 1))) := rfl
    rw [hsize]
    unfold place
    have hoff : s.length + 1 ≤ PGSIZE - 1 → lowerOff (PGSIZE - 1) s.length + 4 * words (s.length + 1) = PGSIZE := by
      intro hs
      simp only [PGSIZE] at hs ⊢
      unfold lowerOff words
      omega
    have hbig : ¬ s.length + 1 ≤ PGSIZE - 1 → PGSIZE ≤ 4 * words (s.length + 1) := by
      intro hs
      simp only [PGSIZE] at hs ⊢
      unfold words
      omega
    generalize (argv.map fun s => 4 * words s.length).sum = total at hrest ⊢
    generalize 4 * words (s.length + 1) = n at hoff hbig ⊢
    rw [List.length_cons]
    by_cases hs : s.length + 1 ≤ PGSIZE - 1
    · have hoff := hoff hs
      rw [if_pos hs]
      by_cases hfit : total ≤ lowerOff (PGSIZE - 1) s.length
      · rw [if_pos hfit] at hrest
        obtain ⟨es, hes⟩ := hrest
        rw [hes]
        constructor
        · intro hle
          exact ⟨_, _, rfl, by dsimp only; omega⟩
        · rintro ⟨es', e', heq, hle⟩
          obtain ⟨_, rfl⟩ : _ ∧ lowerOff (PGSIZE - 1) s.length - total = e' := by simpa using heq
          omega
      · rw [if_neg hfit] at hrest
        rw [hrest]
        constructor
        · intro hle
          omega
        · rintro ⟨es', e', heq, _⟩
          cases heq
    · have hbig := hbig hs
      rw [if_neg hs]
      constructor
      · intro hle
        omega
      · rintro ⟨es', e', heq, _⟩
        cases heq

end Strings

/-! ## §5 The block -/

section Block

variable {va e' : Nat} {es : List Nat} {argv : List Str} {m : Mem}

theorem mapM_eq_some {α β : Type} {f : α → Option β} {g : α → β} {l : List α}
    (h : ∀ a ∈ l, f a = some (g a)) : l.mapM f = some (l.map g) := by
  induction l with
  | nil => rfl
  | cons a l ih =>
    rw [List.mapM_cons, h a List.mem_cons_self, ih fun b hb => h b (List.mem_cons_of_mem _ hb)]
    rfl

/-- User bytes inside the page. -/
theorem userBytes_eq (va : Nat) (m : Mem) {x n : Nat} (h : x + n ≤ PGSIZE) :
    userBytes va m (USTACKBOTTOM + x) n = some ((List.range n).map fun k => m.bytes (va + x + k)) := by
  apply mapM_eq_some
  intro k hk
  have hlt := List.mem_range.1 hk
  unfold userByte
  have hoff : USTACKBOTTOM + x + k - USTACKBOTTOM = x + k := by omega
  rw [if_pos (by omega), hoff, ← Nat.add_assoc]

/-- A list is read at `a` if each of its bytes is there. -/
theorem range_map_eq {bs : List (BitVec 8)} {f : Nat → BitVec 8} {n : Nat} (hn : bs.length = n)
    (h : ∀ k < n, f k = bs.getD k 0) : (List.range n).map f = bs := by
  subst hn
  apply List.ext_getElem (by simp)
  intro k h₁ h₂
  simp only [List.getElem_map, List.getElem_range]
  rw [h k h₂, List.getD_eq_getElem _ _ h₂]

/-- The strings are between `va + e'` and the last byte of the page, and `es` has their places. -/
structure Pushed (va e' : Nat) (es : List Nat) (argv : List Str) (m : Mem) : Prop where
  low : e' ≤ 4095
  length : es.length = argv.length
  written : ∀ a ∈ m.written, va + e' ≤ a ∧ a < va + 4095
  strings : ∀ (i : Nat) (s : Str), argv[i]? = some s → ∃ x : Nat, es[i]? = some x ∧ e' ≤ x ∧ x + s.length + 1 ≤ 4095 ∧
    ∀ k ≤ s.length, m.bytes (va + x + k) = (s ++ [0]).getD k 0

/-- **The table** is below the strings, inside the page, if there is room for it. -/
theorem Pushed.argBlock (h : Pushed va e' es argv m) (hva : PageAt va) (hmax : argv.length < MAXARG)
    (hroom : 4 * (3 + argv.length) ≤ e') :
    ArgBlock va argv
      (storeBytes m ((va + e' + 2 ^ 32 - (3 + argv.length) * 4) % 2 ^ 32)
        ((uargv (va + e') (es.map (USTACKBOTTOM + ·))).flatMap wordBytes))
      ((va + e' + 2 ^ 32 - (3 + argv.length) * 4) % 2 ^ 32) := by
  have hf := hva.fits
  have ha := hva.aligned
  have hle := h.low
  have hes := h.length
  have hpage : PGSIZE = 4096 := rfl
  simp only [MAXARG] at hmax
  simp only [PGSIZE] at ha hf
  obtain ⟨x, hx⟩ := Nat.exists_eq_add_of_le hroom
  have htop : (va + e' + 2 ^ 32 - (3 + argv.length) * 4) % 2 ^ 32 = va + x := by omega
  have hptr : (va + e' + 2 ^ 32 - (argv.length + 1) * 4) % 2 ^ 32 = va + (x + 8) := by omega
  have htable : uargv (va + e') (es.map (USTACKBOTTOM + ·)) =
      argv.length :: (USTACKBOTTOM + (x + 8)) :: (es.map (USTACKBOTTOM + ·) ++ [0]) := by
    unfold uargv
    rw [List.length_map, hes, hptr, vespToEsp_eq hva (by omega)]
  rw [htop, htable]
  generalize hws : argv.length :: (USTACKBOTTOM + (x + 8)) :: (es.map (USTACKBOTTOM + ·) ++ [0]) = ws
  have hwslen : ws.length = argv.length + 3 := by
    rw [← hws]
    simp [hes]
  have hflat := length_flatMap_wordBytes ws
  obtain ⟨hw', hb', hkeep'⟩ := storeBytes_spec m (va + x) (ws.flatMap wordBytes) (by omega)
  -- word `i` of the table
  have hword : ∀ i < ws.length, userBytes va (storeBytes m (va + x) (ws.flatMap wordBytes))
      (USTACKBOTTOM + (x + 4 * i)) 4 = some (wordBytes (ws.getD i 0)) := by
    intro i hi
    rw [userBytes_eq _ _ (by omega)]
    congr 1
    apply range_map_eq (length_wordBytes _)
    intro k hk
    rw [show va + (x + 4 * i) + k = va + x + (4 * i + k) by omega, hb' _ (by omega)]
    exact getD_flatMap_wordBytes ws hi hk
  refine ⟨fun a hmem => ?_, USTACKBOTTOM + (x + 8), fun i => USTACKBOTTOM + es.getD i 0, ?_, ?_,
    fun i hi => ⟨?_, ?_⟩, ?_⟩
  · rcases hw' a hmem with hold | hnew
    · have := h.written a hold
      omega
    · omega
  · have hread := hword 0 (by omega)
    rw [vespToEsp_eq hva (by omega)]
    rw [← hws] at hread ⊢
    exact hread
  · have hread := hword 1 (by omega)
    rw [vespToEsp_eq hva (by omega)]
    rw [← hws] at hread ⊢
    exact hread
  · have hread := hword (i + 2) (by omega)
    have hget : ws.getD (i + 2) 0 = USTACKBOTTOM + es.getD i 0 := by
      rw [← hws, List.getD_cons_succ, List.getD_cons_succ,
        List.getD_append _ _ _ _ (by rw [List.length_map, hes]; exact hi)]
      rw [List.getD_eq_getElem _ _ (by rw [List.length_map, hes]; exact hi),
        List.getD_eq_getElem _ _ (by rw [hes]; exact hi), List.getElem_map]
    rw [hget] at hread
    rw [show USTACKBOTTOM + (x + 8) + 4 * i = USTACKBOTTOM + (x + 4 * (i + 2)) by omega]
    exact hread
  · obtain ⟨y, hy, hey, hfit, hbytes⟩ := h.strings i (argv.get ⟨i, hi⟩) (List.getElem?_eq_getElem hi)
    have hyD : es.getD i 0 = y := by
      rw [List.getD_eq_getElem?_getD, hy]
      rfl
    dsimp only
    rw [hyD, userBytes_eq _ _ (by omega)]
    congr 1
    apply range_map_eq (by simp)
    intro k hk
    rw [hkeep' _ (by omega)]
    exact hbytes k (by omega)
  · have hread := hword (argv.length + 2) (by omega)
    have hget : ws.getD (argv.length + 2) 0 = 0 := by
      rw [← hws, List.getD_cons_succ, List.getD_cons_succ,
        List.getD_append_right _ _ _ _ (by rw [List.length_map, hes]), List.length_map, hes, Nat.sub_self]
      rfl
    rw [hget] at hread
    rw [show USTACKBOTTOM + (x + 8) + 4 * argv.length = USTACKBOTTOM + (x + 4 * (argv.length + 2)) by omega]
    exact hread

/-- Without the room the table begins below the page. -/
theorem Pushed.not_argBlock (h : Pushed va e' es argv m) (hva : PageAt va) (hmax : argv.length < MAXARG)
    (hroom : ¬ 4 * (3 + argv.length) ≤ e') :
    ¬ ArgBlock va argv
      (storeBytes m ((va + e' + 2 ^ 32 - (3 + argv.length) * 4) % 2 ^ 32)
        ((uargv (va + e') (es.map (USTACKBOTTOM + ·))).flatMap wordBytes))
      ((va + e' + 2 ^ 32 - (3 + argv.length) * 4) % 2 ^ 32) := by
  intro hblock
  have hf := hva.fits
  have hle := h.low
  have hpage : PGSIZE = 4096 := rfl
  simp only [MAXARG] at hmax
  simp only [PGSIZE] at hf
  have htop : (va + e' + 2 ^ 32 - (3 + argv.length) * 4) % 2 ^ 32 < 2 ^ 32 := Nat.mod_lt _ (by decide)
  have hout : ¬ (va ≤ (va + e' + 2 ^ 32 - (3 + argv.length) * 4) % 2 ^ 32 ∧
      (va + e' + 2 ^ 32 - (3 + argv.length) * 4) % 2 ^ 32 < va + PGSIZE) := by omega
  generalize (va + e' + 2 ^ 32 - (3 + argv.length) * 4) % 2 ^ 32 = top at htop hout hblock
  apply hout
  apply hblock.1
  unfold uargv
  rw [List.flatMap_cons]
  have hne : ∃ b bs, wordBytes (es.map (USTACKBOTTOM + ·)).length = b :: bs := ⟨_, _, rfl⟩
  obtain ⟨b, bs, hb⟩ := hne
  rw [hb, List.cons_append]
  unfold storeBytes
  apply storeBytes_written_subset
  rw [store_written, Nat.mod_eq_of_lt htop]
  exact List.mem_cons_self

/-- **The argument block of `exec`** is correct exactly when the strings, each rounded up to words, and the
    table fit in the page of the stack. -/
theorem argBlock_iff (hva : PageAt va) {argv : List Str} (h0 : argv ≠ []) (hmax : argv.length < MAXARG)
    (hlen : ∀ s ∈ argv, s.length < UTOP) (bytes : Nat → BitVec 8) :
    ArgBlock va argv (buildStack va argv ⟨bytes, []⟩).1 (buildStack va argv ⟨bytes, []⟩).2 ↔
      blockSize argv ≤ PGSIZE := by
  have hlast : PGSIZE - 1 < PGSIZE := by decide
  have hstart : va + USTACKSIZE - 1 = va + (PGSIZE - 1) := rfl
  rw [blockSize_le_iff argv h0]
  unfold buildStack
  rw [hstart]
  cases hplace : place (PGSIZE - 1) argv with
  | none =>
    -- a string is written below the page
    constructor
    · rintro ⟨hin, _⟩
      obtain ⟨a, hmem, hout⟩ := pushStrings_outside hva argv hlen ⟨bytes, []⟩ [] hlast hplace
      exact absurd (hin a (storeBytes_written_subset _ _ _ hmem)) hout
    · rintro ⟨es, e', heq, _⟩
      cases heq
  | some r =>
    obtain ⟨es, e'⟩ := r
    obtain ⟨m', hrun, hle, hes, hw, _, hstr⟩ :=
      pushStrings_fit hva argv ⟨bytes, []⟩ [] hlast (.inr rfl) hplace
    have hpushed : Pushed va e' es argv m' :=
      ⟨hle, hes, fun a ha => (hw a ha).resolve_left (fun hc => by cases hc), hstr⟩
    rw [hrun]
    simp only [List.nil_append, List.length_map, hes]
    have hiff : (∃ es' e'', some (es, e') = some (es', e'') ∧ 4 * (3 + argv.length) ≤ e'') ↔
        4 * (3 + argv.length) ≤ e' := by
      constructor
      · rintro ⟨es', e'', heq, hle⟩
        obtain ⟨_, rfl⟩ : es = es' ∧ e' = e'' := by simpa using heq
        exact hle
      · exact fun hle => ⟨es, e', rfl, hle⟩
    rw [hiff]
    by_cases hroom : 4 * (3 + argv.length) ≤ e'
    · exact iff_of_true (hpushed.argBlock hva hmax hroom) hroom
    · exact iff_of_false (hpushed.not_argBlock hva hmax hroom) hroom

/-- Two arguments. -/
theorem argBlock_iff_two :
    ArgBlock 0xF0100000 [[108, 115], [97]] (buildStack 0xF0100000 [[108, 115], [97]] ⟨fun _ => 0, []⟩).1
        (buildStack 0xF0100000 [[108, 115], [97]] ⟨fun _ => 0, []⟩).2 ↔
      blockSize [[108, 115], [97]] ≤ PGSIZE :=
  argBlock_iff ⟨by decide, by decide⟩ (by decide) (by decide) (by decide) _

/-- One argument of 4096 characters begins below the page. -/
theorem long_argument_leaves_page :
    ¬ ArgBlock 0xF0100000 [List.replicate 4096 97] (buildStack 0xF0100000 [List.replicate 4096 97] ⟨fun _ => 0, []⟩).1
        (buildStack 0xF0100000 [List.replicate 4096 97] ⟨fun _ => 0, []⟩).2 := by
  rintro ⟨hin, _⟩
  have hplace : place (PGSIZE - 1) [List.replicate 4096 97] = none := by
    unfold place
    rw [if_neg]
    rw [List.length_replicate]
    decide
  obtain ⟨a, hmem, hout⟩ := pushStrings_outside (⟨by decide, by decide⟩ : PageAt 0xF0100000)
    [List.replicate 4096 (97 : BitVec 8)] (by
      intro s hs
      obtain rfl := List.mem_singleton.1 hs
      rw [List.length_replicate]
      decide) ⟨fun _ => 0, []⟩ [] (by decide) hplace
  exact hout (hin a (storeBytes_written_subset _ _ _ hmem))

end Block

end WeiOS.Exec
