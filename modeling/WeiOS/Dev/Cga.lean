import Mathlib
import WeiOS.Lib.Run

/-!
# The Text Console

Models `kern/cga.c`: the screen of 80 columns and 25 rows, with the cursor in two variables and one
16-bit cell for each place. All writes to cells are recorded by their index.

`cga_putc` wraps with `if (++cursor_x > 80)`, one column too late: after the 80th character of a line the
cursor is in column 80, which is the first place of the next row, and in the last row it is behind the
screen. The character that is put there wraps, and the one after it takes the same place.

`Screen` is a terminal that wraps when column 79 has been written; its places cannot be off the screen.

## Main results
- `Shows.newLine`, `Shows.put`, `Shows.erase`: the code and the terminal move together as long as no
  character is put in column 79.
- `cgaPutc_shows_iff`: a run agrees with the terminal exactly if that holds at each of its steps.
-/

namespace WeiOS.Cga

open WeiOS.Lib

/-- A character with its attribute. -/
abbrev Cell := BitVec 16

/-! ## §1 The code -/

/-- The variables of `cga.c`, the location register of the hardware, and the cells written so far. -/
structure Display where
  cursorX : Nat
  cursorY : Nat
  mem : Nat → Cell
  location : Nat
  written : List Nat

/-- `cga_mem[i] = v`. -/
def Display.write (s : Display) (i : Nat) (v : Cell) : Display :=
  { s with mem := Function.update s.mem i v, written := i :: s.written }

/-- `cursor_y * 80 + cursor_x` as `ushort`. -/
def Display.cursorPos (s : Display) : Nat := (s.cursorY * 80 + s.cursorX) % 2 ^ 16

/-- `move_cursor`. -/
def moveCursor (s : Display) : Display := { s with location := s.cursorPos }

/-- A blank of `scroll_screen`, white on black. -/
def scrollBlank : Cell := 0x07#16 <<< 8 ||| 0x20#16

/-- A blank of `cga_clear`, bright white on black. -/
def clearBlank : Cell := 0x20#16 ||| 0x0f#16 <<< 8

/-- `for (i = k; i < k + n; i++) cga_mem[i] = f`, where `f` may read the cells. -/
def fill (f : Display → Nat → Cell) (k n : Nat) (s : Display) : Display :=
  (List.range' k n).foldl (fun s i => s.write i (f s i)) s

/-- `scroll_screen`. -/
def scrollScreen (s : Display) : Display :=
  let s := fill (fun s i => s.mem (i + 80)) 0 (80 * 24) s
  let s := fill (fun _ _ => scrollBlank) (80 * 24) 80 s
  { s with cursorY := 24 }

/-- `cga_clear`. -/
def cgaClear (s : Display) : Display :=
  let s := fill (fun _ _ => clearBlank) 0 (80 * 25) s
  moveCursor { s with cursorX := 0, cursorY := 0 }

/-- The end of `cga_putc`. -/
def finish (s : Display) : Display := moveCursor (if 25 ≤ s.cursorY then scrollScreen s else s)

/-- `cga_putc` of a newline. -/
def putNewline (s : Display) : Display :=
  finish { s with cursorY := (s.cursorY + 1) % 2 ^ 16, cursorX := 0 }

/-- `cga_putc` of a character without a case of its own; at the end of the line it calls itself. -/
def putDefault (s : Display) (c : BitVec 8) (attr : Cell) : Display :=
  let s := s.write s.cursorPos (c.setWidth 16 ||| attr)
  let s := { s with cursorX := (s.cursorX + 1) % 2 ^ 16 }
  finish (if 80 < s.cursorX then putNewline { s with cursorX := 0 } else s)

def BACKSPACE : BitVec 8 := 8
def TAB : BitVec 8 := 9
def NEWLINE : BitVec 8 := 10
def RETURN : BitVec 8 := 13
def BLANK : BitVec 8 := 32

/-- `cga_putc`. -/
def cgaPutc (s : Display) (c : BitVec 8) (attr : Cell) : Display :=
  if c = BACKSPACE then
    finish (if 0 < s.cursorX then
      { s with cursorX := s.cursorX - 1 }.write (s.cursorPos - 1) (BLANK.setWidth 16 ||| attr) else s)
  else if c = NEWLINE then putNewline s
  else if c = RETURN then finish { s with cursorX := 0 }
  else if c = TAB then
    let s := putDefault s BLANK attr
    let s := putDefault s BLANK attr
    let s := putDefault s BLANK attr
    finish (putDefault s BLANK attr)
  else putDefault s c attr

/-- `cga_init`, where `mem` is what the cells hold. -/
def cgaInit (mem : Nat → Cell) : Display := cgaClear ⟨0, 0, mem, 0, []⟩

/-! ## §2 The terminal -/

/-- A screen with its cursor. -/
structure Screen where
  cells : Fin 25 → Fin 80 → Cell
  row : Fin 25
  col : Fin 80

/-- The empty screen. -/
def Screen.cleared : Screen := ⟨fun _ _ => clearBlank, 0, 0⟩

/-- To the start of the next row; the screen scrolls by one row in the last one. -/
def Screen.newLine (S : Screen) : Screen :=
  if h : S.row.val + 1 < 25 then { S with row := ⟨S.row.val + 1, h⟩, col := 0 }
  else
    { cells := fun r c => if h : r.val + 1 < 25 then S.cells ⟨r.val + 1, h⟩ c else scrollBlank
      row := 24
      col := 0 }

/-- The place of row `r` and column `c` gets `v`. -/
def Screen.set (S : Screen) (r : Fin 25) (c : Fin 80) (v : Cell) : Screen :=
  { S with cells := Function.update S.cells r (Function.update (S.cells r) c v) }

/-- One place is written, and the cursor advances; behind the last column the line wraps. -/
def Screen.put (S : Screen) (v : Cell) : Screen :=
  if h : S.col.val + 1 < 80 then { S.set S.row S.col v with col := ⟨S.col.val + 1, h⟩ }
  else (S.set S.row S.col v).newLine

/-- Back by one place within the line. -/
def Screen.erase (S : Screen) (v : Cell) : Screen :=
  if 0 < S.col.val then
    let c : Fin 80 := ⟨S.col - 1, by omega⟩
    { S.set S.row c v with col := c }
  else S

/-- The terminal's reaction to a character. -/
def Screen.putc (S : Screen) (c : BitVec 8) (attr : Cell) : Screen :=
  let blank := BLANK.setWidth 16 ||| attr
  if c = BACKSPACE then S.erase blank
  else if c = NEWLINE then S.newLine
  else if c = RETURN then { S with col := 0 }
  else if c = TAB then (((S.put blank).put blank).put blank).put blank
  else S.put (c.setWidth 16 ||| attr)

/-! ## §3 What the code shows -/

/-- The code shows the screen: cells and cursor are the same, and no other cell has been written. -/
structure Shows (s : Display) (S : Screen) : Prop where
  cells : ∀ (r : Fin 25) (c : Fin 80), s.mem (r * 80 + c) = S.cells r c
  x : s.cursorX = S.col
  y : s.cursorY = S.row
  written : ∀ i ∈ s.written, i < 80 * 25

section Fill

variable {f : Display → Nat → Cell} {k n i : Nat} {s : Display}

theorem fill_succ (f : Display → Nat → Cell) (k n : Nat) (s : Display) :
    fill f k (n + 1) s = (fill f k n s).write (k + n) (f (fill f k n s) (k + n)) := by
  rw [fill, List.range'_concat, List.foldl_append, Nat.one_mul]
  rfl

@[simp] theorem cursorX_fill (f : Display → Nat → Cell) (k n : Nat) (s : Display) :
    (fill f k n s).cursorX = s.cursorX := by
  induction n with
  | zero => rfl
  | succ n ih => rw [fill_succ]; exact ih

theorem written_fill (h : i ∈ (fill f k n s).written) : i ∈ s.written ∨ k ≤ i ∧ i < k + n := by
  induction n with
  | zero => exact .inl h
  | succ n ih =>
    rw [fill_succ] at h
    rcases List.mem_cons.1 h with rfl | h
    · exact .inr ⟨by omega, by omega⟩
    · rcases ih h with h | h
      · exact .inl h
      · exact .inr ⟨h.1, by omega⟩

/-- A fill whose values come from cells that it has not written yet. -/
theorem mem_fill (g : Nat → Cell)
    (hf : ∀ t i, (∀ j, i ≤ j → t.mem j = s.mem j) → k ≤ i → f t i = g i) :
    (fill f k n s).mem i = if k ≤ i ∧ i < k + n then g i else s.mem i := by
  induction n generalizing i with
  | zero => rw [if_neg (by omega)]; rfl
  | succ n ih =>
    -- the value of the last cell comes from cells that are not written yet
    have hval : f (fill f k n s) (k + n) = g (k + n) := by
      refine hf _ _ (fun j hj => ?_) (by omega)
      rw [ih, if_neg (by omega)]
    rw [fill_succ, hval]
    show Function.update _ _ _ _ = _
    by_cases hi : i = k + n
    · rw [hi, Function.update_self, if_pos (by omega)]
    · rw [Function.update_of_ne hi, ih]
      by_cases hlt : k ≤ i ∧ i < k + n
      · rw [if_pos hlt, if_pos (by omega)]
      · rw [if_neg hlt, if_neg (by omega)]

end Fill

variable {s : Display} {S : Screen} {c : BitVec 8} {attr v : Cell}

theorem Shows.cursorPos (h : Shows s S) : s.cursorPos = S.row * 80 + S.col := by
  rw [Display.cursorPos, h.x, h.y, Nat.mod_eq_of_lt (by omega)]

/-- The register of the hardware is not part of what is shown. -/
theorem shows_moveCursor : Shows (moveCursor s) S ↔ Shows s S :=
  ⟨fun h => ⟨h.cells, h.x, h.y, h.written⟩, fun h => ⟨h.cells, h.x, h.y, h.written⟩⟩

/-- In the rows of the screen, `cga_putc` ends without scrolling. -/
theorem Shows.finish (h : Shows s S) : Shows (finish s) S := by
  rw [Cga.finish, if_neg (by rw [h.y]; omega), shows_moveCursor]
  exact h

/-- `cga_init` shows the empty screen, whatever was in the cells. -/
theorem cgaInit_shows (mem : Nat → Cell) : Shows (cgaInit mem) .cleared := by
  rw [cgaInit, cgaClear, shows_moveCursor]
  refine ⟨fun r c => ?_, rfl, rfl, fun i hi => ?_⟩
  · dsimp only
    rw [mem_fill (fun _ => clearBlank) fun _ _ _ _ => rfl, if_pos (by omega)]
    rfl
  · dsimp only at hi
    rcases written_fill hi with hi | hi
    · cases hi
    · omega

/-- The cells of the screen after `scroll_screen`. -/
theorem mem_scrollScreen (s : Display) (i : Nat) : (scrollScreen s).mem i =
    if 80 * 24 ≤ i ∧ i < 80 * 25 then scrollBlank else if i < 80 * 24 then s.mem (i + 80) else s.mem i := by
  rw [scrollScreen]
  dsimp only
  rw [mem_fill (fun _ => scrollBlank) fun _ _ _ _ => rfl]
  split
  · rfl
  · -- each row is copied from the one below, which has not been written
    rw [mem_fill (fun i => s.mem (i + 80)) fun t i ht _ => ht _ (by omega)]
    simp only [Nat.zero_le, true_and, Nat.zero_add]

/-- **A newline** moves the code and the terminal to the same place. -/
theorem Shows.newLine (h : Shows s S) : Shows (putNewline s) S.newLine := by
  rw [putNewline, Cga.finish, shows_moveCursor]
  have hy := h.y
  by_cases hrow : S.row.val + 1 < 25
  · rw [if_neg (by show ¬ 25 ≤ (s.cursorY + 1) % 2 ^ 16; omega), Screen.newLine, dif_pos hrow]
    refine ⟨h.cells, rfl, ?_, h.written⟩
    show (s.cursorY + 1) % 2 ^ 16 = S.row.val + 1
    omega
  · -- the last row: both scroll
    rw [if_pos (by show 25 ≤ (s.cursorY + 1) % 2 ^ 16; omega), Screen.newLine, dif_neg hrow]
    refine ⟨fun r c => ?_, ?_, rfl, fun i hi => ?_⟩
    · rw [mem_scrollScreen]
      show _ = if h : r.val + 1 < 25 then S.cells ⟨r.val + 1, h⟩ c else scrollBlank
      by_cases hr : r.val + 1 < 25
      · rw [if_neg (by omega), if_pos (by omega), dif_pos hr, ← h.cells ⟨r + 1, hr⟩ c]
        show s.mem _ = s.mem _
        congr 1
        show _ = (r.val + 1) * 80 + c.val
        omega
      · rw [if_pos (by omega), dif_neg hr]
    · rw [scrollScreen]
      dsimp only
      rw [cursorX_fill, cursorX_fill]
      rfl
    · rw [scrollScreen] at hi
      dsimp only at hi
      rcases written_fill hi with hi | hi
      · rcases written_fill hi with hi | hi
        · exact h.written i hi
        · omega
      · omega

/-- Writing a cell of the screen. -/
theorem Shows.set (h : Shows s S) (r : Fin 25) (c : Fin 80) (v : Cell) :
    Shows (s.write (r * 80 + c) v) (S.set r c v) := by
  refine ⟨fun r' c' => ?_, h.x, h.y, fun i hi => ?_⟩
  · rw [Display.write, Screen.set]
    dsimp only
    by_cases hr : r' = r
    · subst hr
      rw [Function.update_self]
      by_cases hc : c' = c
      · rw [hc, Function.update_self, Function.update_self]
      · have hne : c'.val ≠ c.val := fun he => hc (Fin.ext he)
        rw [Function.update_of_ne (by omega), Function.update_of_ne hc, h.cells]
    · have hne : r'.val ≠ r.val := fun he => hr (Fin.ext he)
      rw [Function.update_of_ne (by omega), Function.update_of_ne hr, h.cells]
  · rcases List.mem_cons.1 hi with rfl | hi
    · omega
    · exact h.written i hi

/-- **A character** left of the last column. -/
theorem Shows.put (h : Shows s S) (hcol : s.cursorX + 1 < 80) (c : BitVec 8) (attr : Cell) :
    Shows (putDefault s c attr) (S.put (c.setWidth 16 ||| attr)) := by
  have hset := h.set S.row S.col (c.setWidth 16 ||| attr)
  rw [← h.cursorPos] at hset
  have hx := h.x
  rw [Screen.put, dif_pos (by omega), putDefault]
  dsimp only
  rw [if_neg (by show ¬ 80 < (s.cursorX + 1) % 2 ^ 16; omega)]
  refine Shows.finish ⟨hset.cells, ?_, hset.y, hset.written⟩
  show (s.cursorX + 1) % 2 ^ 16 = S.col.val + 1
  omega

/-- **A backspace** erases within the line. -/
theorem Shows.erase (h : Shows s S) (v : Cell) :
    Shows (Cga.finish (if 0 < s.cursorX then { s with cursorX := s.cursorX - 1 }.write (s.cursorPos - 1) v else s))
      (S.erase v) := by
  refine Shows.finish ?_
  have hx := h.x
  by_cases hcol : 0 < S.col.val
  · have hset := h.set S.row ⟨S.col - 1, by omega⟩ v
    rw [if_pos (by omega), h.cursorPos, Screen.erase, if_pos hcol]
    have hpos : S.row.val * 80 + S.col.val - 1 = S.row.val * 80 + (S.col.val - 1) := by omega
    rw [hpos]
    refine ⟨hset.cells, ?_, hset.y, hset.written⟩
    show s.cursorX - 1 = S.col.val - 1
    rw [hx]
  · -- in column 0 there is nothing to erase
    rw [if_neg (by omega), Screen.erase, if_neg hcol]
    exact h

/-! ## §4 All sequences of characters -/

/-- The columns that a character takes. -/
def width (c : BitVec 8) : Nat :=
  if c = BACKSPACE ∨ c = NEWLINE ∨ c = RETURN then 0 else if c = TAB then 4 else 1

/-- The character does not reach column 79. -/
def Fits (s : Display) (c : BitVec 8) : Prop := width c = 0 ∨ s.cursorX + width c < 80

theorem cursorX_finish (s : Display) : (finish s).cursorX = s.cursorX := by
  rw [finish, moveCursor]
  dsimp only
  split
  · rw [scrollScreen]
    dsimp only
    rw [cursorX_fill, cursorX_fill]
  · rfl

/-- The column after a character: the code goes on to column 80, from where it wraps. -/
theorem cursorX_putDefault (h : s.cursorX ≤ 80) (c : BitVec 8) (attr : Cell) :
    (putDefault s c attr).cursorX = if s.cursorX = 80 then 0 else s.cursorX + 1 := by
  rw [putDefault, cursorX_finish]
  have ht : (s.write s.cursorPos (c.setWidth 16 ||| attr)).cursorX = s.cursorX := rfl
  generalize s.write s.cursorPos (c.setWidth 16 ||| attr) = t at ht
  dsimp only
  -- the code wraps only past column 80
  by_cases h80 : s.cursorX = 80
  · rw [if_pos (show 80 < (t.cursorX + 1) % 2 ^ 16 by omega), if_pos h80, putNewline, cursorX_finish]
  · rw [if_neg (show ¬ 80 < (t.cursorX + 1) % 2 ^ 16 by omega), if_neg h80]
    dsimp only
    omega

/-- The column of the terminal, which wraps after column 79. -/
theorem col_put (S : Screen) (v : Cell) :
    (S.put v).col.val = if S.col.val = 79 then 0 else S.col.val + 1 := by
  rw [Screen.put]
  by_cases hcol : S.col.val + 1 < 80
  · rw [dif_pos hcol, if_neg (by omega)]
  · rw [dif_neg hcol, if_pos (by omega), Screen.newLine]
    split <;> rfl

/-- **One call** that fits. -/
theorem Shows.putc (h : Shows s S) (c : BitVec 8) (attr : Cell) (hfits : Fits s c) :
    Shows (cgaPutc s c attr) (S.putc c attr) := by
  rw [cgaPutc, Screen.putc]
  dsimp only
  split
  · exact h.erase _
  split
  · exact h.newLine
  split
  · exact Shows.finish ⟨h.cells, rfl, h.y, h.written⟩
  split
  · next hb hn hr ht =>
    have hx : s.cursorX + 4 < 80 := by simpa [Fits, width, ht, TAB, BACKSPACE, NEWLINE, RETURN] using hfits
    -- four characters, each left of the last column
    have h₁ := h.put (by omega) BLANK attr
    have e₁ := cursorX_putDefault (s := s) (by omega) BLANK attr
    rw [if_neg (by omega)] at e₁
    have h₂ := h₁.put (by omega) BLANK attr
    have e₂ := cursorX_putDefault (s := putDefault s BLANK attr) (by omega) BLANK attr
    rw [if_neg (by omega)] at e₂
    have h₃ := h₂.put (by omega) BLANK attr
    have e₃ := cursorX_putDefault (s := putDefault (putDefault s BLANK attr) BLANK attr) (by omega) BLANK attr
    rw [if_neg (by omega)] at e₃
    exact (h₃.put (by omega) BLANK attr).finish
  · next hb hn hr ht =>
    have hx : s.cursorX + 1 < 80 := by simpa [Fits, width, hb, hn, hr, ht] using hfits
    exact h.put hx c attr

/-- **One call** that reaches column 79: the cursor of the code is behind that of the terminal, or in
    column 80. -/
theorem Shows.not_putc (h : Shows s S) (c : BitVec 8) (attr : Cell) (hfits : ¬ Fits s c) :
    ¬ Shows (cgaPutc s c attr) (S.putc c attr) := by
  intro hafter
  have hx := h.x
  have hx' := hafter.x
  rw [Fits, width, not_or] at hfits
  obtain ⟨hw, hcol⟩ := hfits
  have hkeys : ¬ (c = BACKSPACE ∨ c = NEWLINE ∨ c = RETURN) := fun hk => hw (if_pos hk)
  rw [if_neg hkeys] at hcol
  simp only [not_or] at hkeys
  obtain ⟨hb, hn, hr⟩ := hkeys
  rw [cgaPutc, Screen.putc, if_neg hb, if_neg hn, if_neg hr] at hx'
  dsimp only at hx'
  rw [if_neg hb, if_neg hn, if_neg hr] at hx'
  by_cases ht : c = TAB
  · rw [if_pos ht] at hcol
    rw [if_pos ht, if_pos ht, cursorX_finish] at hx'
    -- the columns after each of the four blanks, on both sides
    have e₁ := cursorX_putDefault (s := s) (by omega) BLANK attr
    have l₁ : (putDefault s BLANK attr).cursorX ≤ 80 := by rw [e₁]; split <;> omega
    have e₂ := cursorX_putDefault l₁ BLANK attr
    have l₂ : (putDefault (putDefault s BLANK attr) BLANK attr).cursorX ≤ 80 := by rw [e₂]; split <;> omega
    have e₃ := cursorX_putDefault l₂ BLANK attr
    have l₃ : (putDefault (putDefault (putDefault s BLANK attr) BLANK attr) BLANK attr).cursorX ≤ 80 := by
      rw [e₃]; split <;> omega
    rw [cursorX_putDefault l₃, e₃, e₂, e₁] at hx'
    rw [col_put, col_put, col_put, col_put] at hx'
    have hlt := S.col.isLt
    rw [hx] at hx' hcol
    -- a tab reaches column 79 from one of the last four columns
    generalize S.col.val = x at hx' hcol hlt
    rcases (show x = 76 ∨ x = 77 ∨ x = 78 ∨ x = 79 by omega) with rfl | rfl | rfl | rfl <;> simp at hx'
  · -- an ordinary character in column 79: the terminal wraps, the code does not yet
    rw [if_neg ht] at hcol
    rw [if_neg ht, if_neg ht, cursorX_putDefault (by omega), col_put] at hx'
    rw [if_neg (by omega), if_pos (by omega)] at hx'
    omega

/-- The code and the terminal side by side. -/
def step (t : Display × Screen) (k : BitVec 8 × Cell) : Except Empty (Display × Screen) :=
  .ok (cgaPutc t.1 k.1 k.2, t.2.putc k.1 k.2)

/-- After a character the screen shows what the terminal shows, with the cursor in its 80 columns and 25
    rows, and every cell written so far is on the screen. -/
def Faithful (t : Display × Screen) : Prop :=
  Shows t.1 t.2 ∧ t.1.cursorX < 80 ∧ t.1.cursorY < 25 ∧ ∀ i ∈ t.1.written, i < 80 * 25

/-- **A run** from the cleared screen is faithful to the terminal exactly if no character reaches
    column 79. -/
theorem cgaPutc_faithful_iff (mem : Nat → Cell) (ks : List (BitVec 8 × Cell)) :
    Along step (fun _ _ t' => Faithful t') (cgaInit mem, .cleared) ks ↔
      Meets step (fun t k => Fits t.1 k.1) (cgaInit mem, .cleared) ks := by
  refine along_iff_meets (V := fun _ _ => True) (fun t => Shows t.1 t.2) (fun t k h _ hfits => ?_)
    (fun t k t' h _ hfits hok hgood => ?_) (cgaInit_shows mem) (Meets.of_forall fun _ _ => trivial)
  · have h' := h.putc k.1 k.2 hfits
    refine ⟨_, rfl, ⟨h', ?_, ?_, h'.written⟩, h'⟩
    · rw [h'.x]
      exact Fin.isLt _
    · rw [h'.y]
      exact Fin.isLt _
  · obtain rfl := Except.ok.inj hok
    exact h.not_putc k.1 k.2 hfits hgood.1

/-- The letter `a`, white on black. -/
def letter : BitVec 8 × Cell := (97, 0x0700)

/-- Letters up to the end of a line leave the cursor in column 80. -/
theorem letters_leave (n : Nat) (t : Display × Screen) (h : t.1.cursorX + (n + 1) = 80) :
    ¬ Along step (fun _ _ t' => Faithful t') t (List.replicate (n + 1) letter) := by
  induction n generalizing t with
  | zero =>
    rintro ⟨t', hok, ⟨-, hx, -⟩, -⟩
    obtain rfl := Except.ok.inj hok
    have hcol : (putDefault t.1 97 0x0700).cursorX = 80 := by
      rw [cursorX_putDefault (by omega), if_neg (by omega)]
      omega
    exact absurd (hcol ▸ hx : (80 : Nat) < 80) (lt_irrefl 80)
  | succ n ih =>
    rintro ⟨t', hok, -, hrest⟩
    obtain rfl := Except.ok.inj hok
    refine ih _ ?_ hrest
    show (putDefault t.1 97 0x0700).cursorX + (n + 1) = 80
    rw [cursorX_putDefault (by omega), if_neg (by omega)]
    omega

/-- Eighty letters from the cleared screen. -/
theorem cgaPutc_leaves_screen : ¬ ∀ (mem : Nat → Cell) (ks : List (BitVec 8 × Cell)),
    Along step (fun _ _ t' => Faithful t') (cgaInit mem, .cleared) ks :=
  fun hall => letters_leave 79 (cgaInit fun _ => 0, .cleared) rfl (hall _ _)

end WeiOS.Cga
