import Mathlib
import WeiOS.Dev.Console

/-!
# The Keyboard

`kern/kbd.c`: `kbd_get_data` turns the scan codes of the keyboard into characters, and `kbd_intr` hands
them to the console. A press is one code, or two for the keys behind `0xE0`; a release has the upper bit
set. What a key means depends on the keys that are held.

## Main results
- `decode_typed`: the codes of any strokes are decoded to the characters that were typed.
- `typed_reaches_console`: each stroke reaches the console once, however the codes come in.
-/

namespace WeiOS.Console

/-! ## §1 Tables -/

/-- `include/kbd.h`. -/
def NO : UInt8 := 0
def SHIFT : UInt8 := 0x01
def CTL : UInt8 := 0x02
def ALT : UInt8 := 0x04
def CAPSLOCK : UInt8 := 0x08
def NUMLOCK : UInt8 := 0x10
def SCROLLLOCK : UInt8 := 0x20
def E0ESC : UInt8 := 0x40

def shiftcode (data : UInt8) : UInt8 :=
  if data = 0x1D ∨ data = 0x9D then CTL
  else if data = 0x2A ∨ data = 0x36 then SHIFT
  else if data = 0x38 ∨ data = 0xB8 then ALT
  else NO

def togglecode (data : UInt8) : UInt8 :=
  if data = 0x3A then CAPSLOCK
  else if data = 0x45 then NUMLOCK
  else if data = 0x46 then SCROLLLOCK
  else NO

/-- The characters of a row. -/
def chars (s : String) : List UInt8 := s.toList.map fun c => c.toNat.toUInt8

/-- A table: its first entries, and the others by their index. -/
def lookup (row : List UInt8) (more : List (UInt8 × UInt8)) (data : UInt8) : UInt8 :=
  match more.lookup data with
  | some c => c
  | none => row.getD data.toNat NO

/-- `KEY_UP`, `KEY_DN`, `KEY_PGUP`, `KEY_PGDN`, `KEY_LF`, `KEY_RT`, `KEY_HOME`, `KEY_END`, `KEY_INS` and
    `KEY_DEL`. -/
def specialKeys : List (UInt8 × UInt8) :=
  [(0xC8, 0xE2), (0xD0, 0xE3), (0xC9, 0xE6), (0xD1, 0xE7), (0xCB, 0xE4), (0xCD, 0xE5), (0x97, 0xE0),
    (0xCF, 0xE1), (0xD2, 0xE8), (0xD3, 0xE9)]

def normalmap : UInt8 → UInt8 :=
  lookup ([NO, 0x1B] ++ chars "1234567890-=\x08\tqwertyuiop[]\n" ++ [NO] ++ chars "asdfghjkl;'`" ++ [NO] ++
    chars "\\zxcvbnm,./" ++ [NO] ++ chars "*" ++ [NO] ++ chars " " ++ List.replicate 13 NO ++
    chars "789-456+1230.") ([(0x9C, newline), (0xB5, 0x2F)] ++ specialKeys)

def shiftmap : UInt8 → UInt8 :=
  lookup ([NO, 0x1B] ++ chars "!@#$%^&*()_+\x08\tQWERTYUIOP\x7b\x7d\n" ++ [NO] ++ chars "ASDFGHJKL:\"~" ++
    [NO] ++ chars "|ZXCVBNM<>?" ++ [NO] ++ chars "*" ++ [NO] ++ chars " " ++ List.replicate 13 NO ++
    chars "789-456+1230.") ([(0x9C, newline), (0xB5, 0x2F)] ++ specialKeys)

def ctlmap : UInt8 → UInt8 :=
  lookup (List.replicate 16 NO ++ "QWERTYUIOP".toList.map CONTROL ++ [NO, NO, carriageReturn, NO] ++
    "ASDFGHJKL".toList.map CONTROL ++ List.replicate 4 NO ++ "\\ZXCVBNM".toList.map CONTROL ++ [NO, NO] ++
    ['/'].map CONTROL) ([(0x9C, carriageReturn), (0xB5, CONTROL '/')] ++ specialKeys)

/-! ## §2 The driver -/

/-- `charcode[shift & (CTL | SHIFT)]`. -/
def charcode (shift : UInt8) : UInt8 → UInt8 :=
  if shift &&& CTL ≠ 0 then ctlmap else if shift &&& SHIFT ≠ 0 then shiftmap else normalmap

/-- What `CAPSLOCK` makes of a character. -/
def capital (c : UInt8) : UInt8 :=
  if 0x61 ≤ c ∧ c ≤ 0x7A then c - 0x20 else if 0x41 ≤ c ∧ c ≤ 0x5A then c + 0x20 else c

/-- `kbd_get_data` with data in the controller: the character and the new `shift`, of which no key sets a
    bit above `E0ESC`. -/
def kbdGetData (shift data : UInt8) : UInt8 × UInt8 :=
  if data = 0xE0 then (0, shift ||| E0ESC)
  else if data &&& 0x80 ≠ 0 then
    -- a key is released
    let data := if shift &&& E0ESC ≠ 0 then data else data &&& 0x7F
    (0, shift &&& ~~~(shiftcode data ||| E0ESC))
  else
    -- behind an escape the code counts with the upper bit
    let r := if shift &&& E0ESC ≠ 0 then (data ||| 0x80, shift &&& ~~~E0ESC) else (data, shift)
    let shift := (r.2 ||| shiftcode r.1) ^^^ togglecode r.1
    let c := charcode shift r.1
    (if shift &&& CAPSLOCK ≠ 0 then capital c else c, shift)

/-- The reads of one interrupt, from the codes that wait in the controller: the keys, the new `shift`, and
    the codes that are left when the loop ends at a negative `char`. -/
def kbdDrain (shift : UInt8) : List UInt8 → List Key × UInt8 × List UInt8
  | [] => ([], shift, [])
  | b :: bs =>
    let r := kbdGetData shift b
    if r.1 < 128 then
      let d := kbdDrain r.2 bs
      (⟨r.1, b⟩ :: d.1, d.2)
    else
      ([⟨r.1, b⟩], r.2, bs)

/-- All codes decoded one after the other. -/
def decode (shift : UInt8) : List UInt8 → List Key
  | [] => []
  | b :: bs => ⟨(kbdGetData shift b).1, b⟩ :: decode (kbdGetData shift b).2 bs

/-! ## §3 Typing -/

/-- A key that has codes: `0xE0` is no press and no release. -/
structure KeyCode where
  code : UInt8
  ne : code ≠ 0x60 ∧ code ≠ 0xE0

/-- Something is done with a key. -/
inductive Stroke where
  | press (k : KeyCode)
  | release (k : KeyCode)

/-- The codes that the keyboard sends. -/
def Stroke.codes : Stroke → List UInt8
  | .press k => if k.code < 0x80 then [k.code] else [0xE0, k.code &&& 0x7F]
  | .release k => if k.code < 0x80 then [k.code ||| 0x80] else [0xE0, k.code]

/-- The last stroke of a key with this meaning was a press; the strokes come with the newest first. -/
def held (m : UInt8) : List Stroke → Bool
  | [] => false
  | .press k :: past => shiftcode k.code == m || held m past
  | .release k :: past => shiftcode k.code != m && held m past

/-- A key with this meaning was pressed an odd number of times. -/
def locked (m : UInt8) : List Stroke → Bool
  | [] => false
  | .press k :: past => (togglecode k.code == m) ^^ locked m past
  | .release _ :: past => locked m past

/-- The character that a press gives, after the strokes of `past`. -/
def typedChar (past : List Stroke) (k : KeyCode) : UInt8 :=
  let now := .press k :: past
  let c := if held CTL now then ctlmap k.code
    else if held SHIFT now then shiftmap k.code
    else normalmap k.code
  if locked CAPSLOCK now then capital c else c

/-- The keys that the console sees: a character with the last code of each press. -/
def typed (past : List Stroke) : List Stroke → List Key
  | [] => []
  | .press k :: es =>
    (if k.code < 0x80 then [⟨typedChar past k, k.code⟩]
      else [⟨0, 0xE0⟩, ⟨typedChar past k, k.code &&& 0x7F⟩]) ++ typed (.press k :: past) es
  | .release k :: es => (Stroke.release k).codes.map (fun b => ⟨0, b⟩) ++ typed (.release k :: past) es

/-! ## §4 The bits of `shift` -/

/-- The bits of the keys that are held, and of the locks that are on. -/
def modifiers (shift ctl alt : Bool) : UInt8 :=
  (if shift then SHIFT else 0) ||| (if ctl then CTL else 0) ||| (if alt then ALT else 0)

def locks (caps num scroll : Bool) : UInt8 :=
  (if caps then CAPSLOCK else 0) ||| (if num then NUMLOCK else 0) ||| (if scroll then SCROLLLOCK else 0)

/-- `shift` between two strokes. -/
def shiftOf (past : List Stroke) : UInt8 :=
  modifiers (held SHIFT past) (held CTL past) (held ALT past) |||
    locks (locked CAPSLOCK past) (locked NUMLOCK past) (locked SCROLLLOCK past)

theorem shiftcode_mem (b : UInt8) : shiftcode b ∈ [NO, SHIFT, CTL, ALT] := by
  unfold shiftcode
  split
  · decide
  · split
    · decide
    · split <;> decide

theorem togglecode_mem (b : UInt8) : togglecode b ∈ [NO, CAPSLOCK, NUMLOCK, SCROLLLOCK] := by
  unfold togglecode
  split
  · decide
  · split
    · decide
    · split <;> decide

theorem cases_of_mem {a b c d : UInt8} {x : UInt8} (hx : x ∈ [a, b, c, d]) : x = a ∨ x = b ∨ x = c ∨ x = d := by
  simpa only [List.mem_cons, List.not_mem_nil, or_false] using hx

section
variable (a b c : Bool) {x : UInt8}

theorem modifiers_press (hx : x ∈ [NO, SHIFT, CTL, ALT]) :
    modifiers a b c ||| x = modifiers (x == SHIFT || a) (x == CTL || b) (x == ALT || c) := by
  rcases cases_of_mem hx with rfl | rfl | rfl | rfl <;> cases a <;> cases b <;> cases c <;> rfl

theorem modifiers_release (hx : x ∈ [NO, SHIFT, CTL, ALT]) :
    modifiers a b c &&& ~~~(x ||| E0ESC) = modifiers (x != SHIFT && a) (x != CTL && b) (x != ALT && c) := by
  rcases cases_of_mem hx with rfl | rfl | rfl | rfl <;> cases a <;> cases b <;> cases c <;> rfl

theorem locks_press (hx : x ∈ [NO, CAPSLOCK, NUMLOCK, SCROLLLOCK]) :
    locks a b c ^^^ x = locks ((x == CAPSLOCK) ^^ a) ((x == NUMLOCK) ^^ b) ((x == SCROLLLOCK) ^^ c) := by
  rcases cases_of_mem hx with rfl | rfl | rfl | rfl <;> cases a <;> cases b <;> cases c <;> rfl

theorem locks_release (hx : x ∈ [NO, SHIFT, CTL, ALT]) : locks a b c &&& ~~~(x ||| E0ESC) = locks a b c := by
  rcases cases_of_mem hx with rfl | rfl | rfl | rfl <;> cases a <;> cases b <;> cases c <;> rfl

/-- The locks are no modifiers. -/
theorem modifiers_and_lock (hx : x ∈ [NO, CAPSLOCK, NUMLOCK, SCROLLLOCK]) : modifiers a b c &&& x = 0 := by
  rcases cases_of_mem hx with rfl | rfl | rfl | rfl <;> cases a <;> cases b <;> cases c <;> rfl

theorem modifiers_esc : modifiers a b c &&& E0ESC = 0 ∧ modifiers a b c &&& ~~~E0ESC = modifiers a b c := by
  cases a <;> cases b <;> cases c <;> exact ⟨rfl, rfl⟩

theorem locks_esc : locks a b c &&& E0ESC = 0 ∧ locks a b c &&& ~~~E0ESC = locks a b c := by
  cases a <;> cases b <;> cases c <;> exact ⟨rfl, rfl⟩

theorem modifiers_held : modifiers a b c &&& SHIFT = (if a then SHIFT else 0) ∧
    modifiers a b c &&& CTL = if b then CTL else 0 := by
  cases a <;> cases b <;> cases c <;> exact ⟨rfl, rfl⟩

theorem locks_held : locks a b c &&& SHIFT = 0 ∧ locks a b c &&& CTL = 0 ∧
    locks a b c &&& CAPSLOCK = if a then CAPSLOCK else 0 := by
  cases a <;> cases b <;> cases c <;> exact ⟨rfl, rfl, rfl⟩

end

theorem ite_ne_zero {b : Bool} {m : UInt8} (hm : m ≠ 0) : (if b then m else 0) ≠ 0 ↔ b = true := by
  cases b with
  | false => simp
  | true => simpa using hm

theorem or_and (p q x : UInt8) : (p ||| q) &&& x = p &&& x ||| q &&& x :=
  UInt8.toBitVec_inj.mp BitVec.and_or_distrib_right

/-- Bits that are not set before do not see the others. -/
theorem or_xor {p q y : UInt8} (h : p &&& y = 0) : (p ||| q) ^^^ y = p ||| (q ^^^ y) := by
  apply UInt8.toBitVec_inj.mp
  ext i hi
  have hbit : (p.toBitVec[i] && y.toBitVec[i]) = false := by
    rw [← BitVec.getElem_and, ← UInt8.toBitVec_and, h]
    exact BitVec.getElem_zero hi
  simp only [UInt8.toBitVec_xor, UInt8.toBitVec_or, BitVec.getElem_xor, BitVec.getElem_or]
  revert hbit
  cases p.toBitVec[i] <;> cases y.toBitVec[i] <;> simp

theorem shiftOf_press (past : List Stroke) (k : KeyCode) :
    (shiftOf past ||| shiftcode k.code) ^^^ togglecode k.code = shiftOf (.press k :: past) := by
  unfold shiftOf
  rw [UInt8.or_assoc, UInt8.or_comm (locks _ _ _), ← UInt8.or_assoc, modifiers_press _ _ _ (shiftcode_mem _),
    or_xor (modifiers_and_lock _ _ _ (togglecode_mem _)), locks_press _ _ _ (togglecode_mem _)]
  rfl

theorem shiftOf_release (past : List Stroke) (k : KeyCode) :
    shiftOf past &&& ~~~(shiftcode k.code ||| E0ESC) = shiftOf (.release k :: past) := by
  unfold shiftOf
  rw [or_and, modifiers_release _ _ _ (shiftcode_mem _), locks_release _ _ _ (shiftcode_mem _)]
  rfl

theorem esc_clear {x : UInt8} (hx : x ∈ [NO, SHIFT, CTL, ALT]) : E0ESC &&& ~~~(x ||| E0ESC) = 0 := by
  rcases cases_of_mem hx with rfl | rfl | rfl | rfl <;> rfl

theorem shiftOf_release_esc (past : List Stroke) (k : KeyCode) :
    (shiftOf past ||| E0ESC) &&& ~~~(shiftcode k.code ||| E0ESC) = shiftOf (.release k :: past) := by
  rw [or_and, shiftOf_release, esc_clear (shiftcode_mem _), UInt8.or_zero]

/-- The escape is set between the two codes of a key only. -/
theorem esc_shiftOf (past : List Stroke) : shiftOf past &&& E0ESC = 0 ∧
    (shiftOf past ||| E0ESC) &&& E0ESC ≠ 0 ∧ (shiftOf past ||| E0ESC) &&& ~~~E0ESC = shiftOf past := by
  have h0 : shiftOf past &&& E0ESC = 0 := by
    unfold shiftOf
    rw [or_and, (modifiers_esc _ _ _).1, (locks_esc _ _ _).1]
    rfl
  have h1 : shiftOf past &&& ~~~E0ESC = shiftOf past := by
    unfold shiftOf
    rw [or_and, (modifiers_esc _ _ _).2, (locks_esc _ _ _).2]
  have h2 : E0ESC &&& ~~~E0ESC = 0 := rfl
  refine ⟨h0, ?_, ?_⟩
  · rw [or_and, h0]
    decide
  · rw [or_and, h1, h2, UInt8.or_zero]

theorem shiftOf_held (past : List Stroke) : (shiftOf past &&& SHIFT ≠ 0 ↔ held SHIFT past = true) ∧
    (shiftOf past &&& CTL ≠ 0 ↔ held CTL past = true) ∧
    (shiftOf past &&& CAPSLOCK ≠ 0 ↔ locked CAPSLOCK past = true) := by
  unfold shiftOf
  obtain ⟨hs, hc⟩ := modifiers_held (held SHIFT past) (held CTL past) (held ALT past)
  obtain ⟨hs', hc', hcaps⟩ := locks_held (locked CAPSLOCK past) (locked NUMLOCK past) (locked SCROLLLOCK past)
  have hcaps' : modifiers (held SHIFT past) (held CTL past) (held ALT past) &&& CAPSLOCK = 0 :=
    modifiers_and_lock _ _ _ (by simp)
  rw [or_and, or_and, or_and, hs, hs', hc, hc', hcaps, hcaps', UInt8.or_zero, UInt8.or_zero, UInt8.zero_or]
  exact ⟨ite_ne_zero (by decide), ite_ne_zero (by decide), ite_ne_zero (by decide)⟩

theorem charcode_shiftOf (past : List Stroke) (b : UInt8) : charcode (shiftOf past) b =
    if held CTL past then ctlmap b else if held SHIFT past then shiftmap b else normalmap b := by
  obtain ⟨hs, hc, -⟩ := shiftOf_held past
  unfold charcode
  simp only [hs, hc]
  split
  · rfl
  · split <;> rfl

/-! ## §5 Decoding -/

theorem plain_toNat : ∀ n < 128, n &&& 128 = 0 ∧ (n ||| 128) &&& 128 = 128 ∧ (n ||| 128) &&& 127 = n ∧
    (n ||| 128) - 128 = n := by
  decide +kernel

theorem extended_toNat : ∀ n < 128, (n + 128) &&& 128 = 128 ∧ (n + 128) &&& 127 = n ∧ n ||| 128 = n + 128 := by
  decide +kernel

theorem plain_code {b : UInt8} (hb : b < 0x80) : b ≠ 0xE0 ∧ b &&& 0x80 = 0 ∧ (b ||| 0x80) &&& 0x80 ≠ 0 ∧
    (b ||| 0x80) &&& 0x7F = b ∧ (b ≠ 0x60 → b ||| 0x80 ≠ 0xE0) := by
  obtain ⟨h1, h2, h3, h4⟩ := plain_toNat b.toNat (UInt8.lt_iff_toNat_lt.mp hb)
  refine ⟨?_, UInt8.toNat_inj.mp h1, fun hc => ?_, UInt8.toNat_inj.mp h3, fun hne hc => hne ?_⟩
  · rintro rfl
    exact absurd hb (by decide)
  · have hz : (b.toNat ||| 128) &&& 128 = 0 := congrArg UInt8.toNat hc
    omega
  · have he : b.toNat ||| 128 = 224 := congrArg UInt8.toNat hc
    rw [he] at h4
    exact UInt8.toNat_inj.mp h4.symm

theorem extended_code {b : UInt8} (hb : ¬b < 0x80) : b &&& 0x80 ≠ 0 ∧ b &&& 0x7F ≠ 0xE0 ∧
    (b &&& 0x7F) &&& 0x80 = 0 ∧ (b &&& 0x7F) ||| 0x80 = b := by
  have hlow : 128 ≤ b.toNat := Nat.not_lt.mp fun hc => hb (UInt8.lt_iff_toNat_lt.mpr hc)
  have hhigh := b.toNat_lt
  obtain ⟨n, hn⟩ := Nat.exists_eq_add_of_le' hlow
  have hn128 : n < 128 := by omega
  obtain ⟨h1, h2, h3⟩ := extended_toNat n hn128
  rw [← hn] at h1 h2 h3
  have hand : (b &&& 0x7F).toNat = n := h2
  refine ⟨fun hc => ?_, fun hc => ?_, UInt8.toNat_inj.mp ?_, UInt8.toNat_inj.mp ?_⟩
  · have hz : b.toNat &&& 128 = 0 := congrArg UInt8.toNat hc
    omega
  · have he : (b &&& 0x7F).toNat = 224 := congrArg UInt8.toNat hc
    omega
  · rw [UInt8.toNat_and, hand]
    exact (plain_toNat n hn128).1
  · rw [UInt8.toNat_or, hand]
    exact h3

section
variable (past : List Stroke) (k : KeyCode)

theorem escape : kbdGetData (shiftOf past) 0xE0 = (0, shiftOf past ||| E0ESC) := rfl

/-- The character of a press, with the new `shift`. -/
theorem pressed (c : UInt8) (hc : c = charcode (shiftOf (.press k :: past)) k.code) :
    (if shiftOf (.press k :: past) &&& CAPSLOCK ≠ 0 then capital c else c) = typedChar past k := by
  subst hc
  rw [charcode_shiftOf]
  exact if_congr (shiftOf_held _).2.2 rfl rfl

theorem press_plain (h : k.code < 0x80) :
    kbdGetData (shiftOf past) k.code = (typedChar past k, shiftOf (.press k :: past)) := by
  obtain ⟨hne, hup, -⟩ := plain_code h
  unfold kbdGetData
  rw [if_neg hne, if_neg (not_not.2 hup), if_neg (not_not.2 (esc_shiftOf past).1)]
  dsimp only
  rw [shiftOf_press, pressed past k _ rfl]

theorem press_extended (h : ¬k.code < 0x80) :
    kbdGetData (shiftOf past ||| E0ESC) (k.code &&& 0x7F) = (typedChar past k, shiftOf (.press k :: past)) := by
  obtain ⟨-, hne, hup, hor⟩ := extended_code h
  obtain ⟨-, hesc, hclear⟩ := esc_shiftOf past
  unfold kbdGetData
  rw [if_neg hne, if_neg (not_not.2 hup), if_pos hesc, hclear, hor]
  dsimp only
  rw [shiftOf_press, pressed past k _ rfl]

theorem release_plain (h : k.code < 0x80) :
    kbdGetData (shiftOf past) (k.code ||| 0x80) = (0, shiftOf (.release k :: past)) := by
  obtain ⟨-, -, hup, hand, hne⟩ := plain_code h
  unfold kbdGetData
  rw [if_neg (hne k.ne.1), if_pos hup, if_neg (not_not.2 (esc_shiftOf past).1)]
  dsimp only
  rw [hand, shiftOf_release]

theorem release_extended (h : ¬k.code < 0x80) :
    kbdGetData (shiftOf past ||| E0ESC) k.code = (0, shiftOf (.release k :: past)) := by
  unfold kbdGetData
  rw [if_neg k.ne.2, if_pos (extended_code h).1, if_pos (esc_shiftOf past).2.1]
  dsimp only
  rw [shiftOf_release_esc]

end

/-- **What is typed is what is decoded**: each press gives the character that its key has under the keys
    held and the locks on, at its last code, and every other code gives none. -/
theorem decode_typed (past es : List Stroke) :
    decode (shiftOf past) (es.flatMap Stroke.codes) = typed past es := by
  induction es generalizing past with
  | nil => rfl
  | cons e es ih =>
    rw [List.flatMap_cons]
    -- after the codes of a stroke `shift` is that of one more stroke in the past
    cases e with
    | press k =>
      unfold typed
      by_cases hk : k.code < 0x80
      · have hcodes : (Stroke.press k).codes = [k.code] := if_pos hk
        rw [if_pos hk, hcodes, List.singleton_append, decode, press_plain past k hk, ih]
        rfl
      · have hcodes : (Stroke.press k).codes = [0xE0, k.code &&& 0x7F] := if_neg hk
        rw [if_neg hk, hcodes, List.cons_append, List.singleton_append, decode, escape, decode,
          press_extended past k hk, ih]
        rfl
    | release k =>
      unfold typed
      by_cases hk : k.code < 0x80
      · have hcodes : (Stroke.release k).codes = [k.code ||| 0x80] := if_pos hk
        rw [hcodes, List.singleton_append, decode, release_plain past k hk, ih]
        rfl
      · have hcodes : (Stroke.release k).codes = [0xE0, k.code] := if_neg hk
        rw [hcodes, List.cons_append, List.singleton_append, decode, escape, decode,
          release_extended past k hk, ih]
        rfl

/-! ## §6 Interrupts -/

/-- The driver, the codes in the controller, and the console. -/
structure Keyboard (Q : Type) where
  shift : UInt8
  waiting : List UInt8
  console : Sys Q

/-- A code comes in, the interrupt is taken, or a process does something with the console. -/
inductive Act where
  | code (b : UInt8)
  | intr
  | call (pid : Nat) (nbytes : Int)
  | resume (pid : Nat)
  | kill (pid : Nat)

/-- What a step of a process is for the console. -/
def Act.op : Act → Option Op
  | .code _ => none
  | .intr => none
  | .call pid nbytes => some (.call pid nbytes)
  | .resume pid => some (.resume pid)
  | .kill pid => some (.kill pid)

/-- `kbd_intr` reads the codes that wait. -/
def act {Q : Type} (D : Device Q) (s : Keyboard Q) : Act → Keyboard Q
  | .code b => { s with waiting := s.waiting ++ [b] }
  | .intr =>
    let d := kbdDrain s.shift s.waiting
    ⟨d.2.1, d.2.2, step D s.console (.kbd d.1)⟩
  | .call pid nbytes => { s with console := step D s.console (.call pid nbytes) }
  | .resume pid => { s with console := step D s.console (.resume pid) }
  | .kill pid => { s with console := step D s.console (.kill pid) }

/-- The codes that came in. -/
def arrived : List Act → List UInt8
  | [] => []
  | .code b :: acts => b :: arrived acts
  | _ :: acts => arrived acts

/-- A key that does not end the loop. -/
def ordinary (k : Key) : Bool := decide (k.c < 128)

/-- The keys that interrupts bring, and what the processes do. -/
def keysOf : List Op → List Key
  | [] => []
  | .kbd keys :: ops => keys ++ keysOf ops
  | _ :: ops => keysOf ops

def callsOf : List Op → List Op
  | [] => []
  | .kbd _ :: ops => callsOf ops
  | o :: ops => o :: callsOf ops

section
variable {Q : Type} {D : Device Q}

theorem decode_append (shift : UInt8) (bs cs : List UInt8) :
    ∃ shift', decode shift (bs ++ cs) = decode shift bs ++ decode shift' cs := by
  induction bs generalizing shift with
  | nil => exact ⟨shift, rfl⟩
  | cons b bs ih =>
    obtain ⟨shift', h⟩ := ih (kbdGetData shift b).2
    exact ⟨shift', congrArg (List.cons _) h⟩

/-- An interrupt decodes the codes in front and leaves the others, also for those that come in later. -/
theorem kbdDrain_decode (shift : UInt8) (bs later : List UInt8) : (kbdDrain shift bs).1 ++
    decode (kbdDrain shift bs).2.1 ((kbdDrain shift bs).2.2 ++ later) = decode shift (bs ++ later) := by
  induction bs generalizing shift with
  | nil => rfl
  | cons b bs ih =>
    unfold kbdDrain
    dsimp only
    split
    · exact congrArg (List.cons _) (ih _)
    · rfl

/-- The loop handles every key that it reads, but for the one that ends it. -/
theorem kbdIntr_drain (shift : UInt8) (bs : List UInt8) (s : Sys Q) :
    kbdIntr D (kbdDrain shift bs).1 s = kbdIntr D ((kbdDrain shift bs).1.filter ordinary) s := by
  induction bs generalizing shift s with
  | nil => rfl
  | cons b bs ih =>
    unfold kbdDrain
    dsimp only
    split
    · next hlt =>
      rw [List.filter_cons_of_pos (by exact decide_eq_true hlt), kbdIntr, kbdIntr, if_pos hlt, if_pos hlt]
      exact ih _ _
    · next hlt =>
      rw [List.filter_cons_of_neg (by simpa [ordinary] using hlt), kbdIntr, if_neg hlt]
      rfl

/-- The codes are consumed in order, each by one interrupt. -/
theorem run_keys (s : Keyboard Q) (acts : List Act) : ∃ ops,
    (acts.foldl (act D) s).console = ops.foldl (step D) s.console ∧
    callsOf ops = acts.filterMap Act.op ∧
    keysOf ops ++ (decode (acts.foldl (act D) s).shift (acts.foldl (act D) s).waiting).filter ordinary =
      (decode s.shift (s.waiting ++ arrived acts)).filter ordinary := by
  induction acts generalizing s with
  | nil => exact ⟨[], rfl, rfl, by rw [arrived, List.append_nil]; rfl⟩
  | cons a acts ih =>
    rw [List.foldl_cons]
    obtain ⟨ops, hrun, hcalls, hkeys⟩ := ih (act D s a)
    cases a with
    | code b =>
      -- what comes in now is read by a later interrupt
      refine ⟨ops, hrun, hcalls, hkeys.trans ?_⟩
      rw [arrived, act, List.append_assoc, List.singleton_append]
    | intr =>
      refine ⟨.kbd ((kbdDrain s.shift s.waiting).1.filter ordinary) :: ops, ?_, hcalls, ?_⟩
      · rw [hrun, List.foldl_cons]
        congr 1
        exact kbdIntr_drain s.shift s.waiting s.console
      · have hdrain := congrArg (List.filter ordinary) (kbdDrain_decode s.shift s.waiting (arrived acts))
        rw [List.filter_append] at hdrain
        rw [keysOf, List.append_assoc, hkeys]
        exact hdrain
    | call pid nbytes => exact ⟨.call pid nbytes :: ops, hrun, congrArg (List.cons _) hcalls, hkeys⟩
    | resume pid => exact ⟨.resume pid :: ops, hrun, congrArg (List.cons _) hcalls, hkeys⟩
    | kill pid => exact ⟨.kill pid :: ops, hrun, congrArg (List.cons _) hcalls, hkeys⟩

end

/-- **From the keys to the readers**: however the codes come in, the interrupts are taken and the processes
    read, the characters typed reach the editable list once and in order, as far as their codes were read,
    and the readers get what it holds. -/
theorem typed_reaches_console (t : Tty) (ht : t.writeBuf.wpos = t.writeBuf.rpos) (acts : List Act)
    (es : List Stroke) (more : List UInt8) (h : arrived acts ++ more = es.flatMap Stroke.codes) :
    let s := acts.foldl (act ttyDevice) ⟨0, [], start t⟩
    ∃ ops, callsOf ops = acts.filterMap Act.op ∧ keysOf ops <+: (typed [] es).filter ordinary ∧
      (s.waiting = [] → more = [] → keysOf ops = (typed [] es).filter ordinary) ∧
      let a := ops.foldl (step listDevice) (start [])
      s.console.queue.writeBuf.chars = a.queue ∧ s.console.log = a.log ∧ s.console.readers = a.readers ∧
        s.console.procsList = a.procsList := by
  intro s
  obtain ⟨ops, hrun, hcalls, hkeys⟩ := run_keys (D := ttyDevice) ⟨0, [], start t⟩ acts
  have htyped : decode 0 (arrived acts ++ more) = typed [] es := by
    rw [h]
    exact decode_typed [] es
  obtain ⟨shift, happend⟩ := decode_append 0 (arrived acts) more
  -- what waits in the controller and what has not come in yet is missing at the end
  have hall : keysOf ops ++ ((decode s.shift s.waiting).filter ordinary ++ (decode shift more).filter ordinary) =
      (typed [] es).filter ordinary := by
    rw [← List.append_assoc, ← htyped, happend, List.filter_append]
    exact congrArg (· ++ _) hkeys
  -- for the console the run is one of interrupts that bring these keys
  have hstart : Related Represents (start t) (start []) := ⟨represents_nil ht, rfl, rfl, rfl, rfl⟩
  have hrel := run_related ttyDevice_simulates hstart ops
  rw [← hrun] at hrel
  refine ⟨ops, hcalls, ⟨_, hall⟩, fun hw hm => ?_, hrel.queue.chars, hrel.log, hrel.readers, hrel.procsList⟩
  rw [hw, hm] at hall
  rw [← hall]
  exact (List.append_nil _).symm

theorem shiftKey_ne : (0x2A : UInt8) ≠ 0x60 ∧ (0x2A : UInt8) ≠ 0xE0 := by decide
theorem letterKey_ne : (0x1E : UInt8) ≠ 0x60 ∧ (0x1E : UInt8) ≠ 0xE0 := by decide
theorem upKey_ne : (0xC8 : UInt8) ≠ 0x60 ∧ (0xC8 : UInt8) ≠ 0xE0 := by decide

/-- Shift, a letter and the key up, which ends the loop of its interrupt. -/
def someStrokes : List Stroke :=
  [.press ⟨0x2A, shiftKey_ne⟩, .press ⟨0x1E, letterKey_ne⟩, .press ⟨0xC8, upKey_ne⟩,
    .release ⟨0x1E, letterKey_ne⟩]

def someActs : List Act := [.code 0x2A, .code 0x1E, .code 0xE0, .code 0x48, .code 0x9E, .intr, .intr]

theorem typed_reaches_console_up : ∃ ops, callsOf ops = [] ∧
    keysOf ops = (typed [] someStrokes).filter ordinary ∧
    (someActs.foldl (act ttyDevice) ⟨0, [], start ⟨⟨0, 0, fun _ => 0⟩, ⟨0, 0, fun _ => 0⟩⟩⟩).console.log =
      (ops.foldl (step listDevice) (start [])).log := by
  obtain ⟨ops, hcalls, -, hkeys, -, hlog, -⟩ := typed_reaches_console
    ⟨⟨0, 0, fun _ => 0⟩, ⟨0, 0, fun _ => 0⟩⟩ rfl someActs someStrokes [] (by decide +kernel)
  exact ⟨ops, hcalls, hkeys (by decide +kernel) rfl, hlog⟩

end WeiOS.Console
