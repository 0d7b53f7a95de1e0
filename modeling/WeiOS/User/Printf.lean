import Mathlib
import WeiOS.Lib.Run

/-!
# The Two Formatters

`vprintfmt` of `lib/printfmt.c` writes to the console, `printfmt` of `user/uprintf.c` to a descriptor. The
second was copied from the first, and differs from it in the treatment of negative numbers, in the colour
controller that only the kernel knows and in the directives `%e` (kernel) and `%c` (user). The output of a
formatter is the list of the characters it puts; a format is a C string, given by its characters up to the
terminator.

## Main results
- `vprintfmt_ok`: the kernel's formatter writes the numeral of every argument.
- `printfmt_ok`: what the user's formatter writes.
- `printf_agree_iff`: the two agree exactly when every argument of a `%d` is not negative or is `-2^30`.
-/

namespace WeiOS.Printf

open WeiOS.Lib

abbrev Word := BitVec 32

/-- An argument of the variable part: a word, or a pointer to a string. -/
inductive Arg
  | word (w : Word)
  | str (s : List Char)
  deriving DecidableEq, Repr

inductive Err
  /-- The format is read behind its terminator. -/
  | overread
  /-- There is no argument, or one of the other kind. -/
  | badArg
  /-- `num_stack` is too short. -/
  | stackOverflow
  deriving DecidableEq, Repr

abbrev Out := Except Err (List Char)

/-! ## §1 Numbers -/

/-- The loop that fills `num_stack`, which has `room` places left; the last digit comes first. -/
def numStack (radix : Nat) : Nat → Nat → Except Err (List Nat)
  | _, 0 => .ok []
  | 0, _ + 1 => .error .stackOverflow
  | room + 1, n + 1 => do
    let rest ← numStack radix room ((n + 1) / radix)
    .ok ((n + 1) % radix :: rest)

/-- `hex_map`. -/
def hexMap : List Char :=
  ['0', '1', '2', '3', '4', '5', '6', '7', '8', '9', 'A', 'B', 'C', 'D', 'E', 'F']

/-- The character `(d | 0x30) & 0xff`. -/
def radixChar (d : Nat) : Char := Char.ofNat ((d ||| 0x30) &&& 0xff)

def hexChar (d : Nat) : Char := hexMap.getD d '?'

/-- The common body of the number writers of both formatters: `num_stack` has `room` places. -/
def writeNumber (room radix : Nat) (char : Nat → Char) (n : Word) : Out :=
  if n = 0 then
    .ok [char 0]
  else do
    let stack ← numStack radix room n.toNat
    .ok (stack.reverse.map char)

/-- `screen_write_hex`. -/
def screenWriteHex : Word → Out := writeNumber 8 16 hexChar

/-- `screen_write_radix`. -/
def screenWriteRadix (n : Word) (radix : Nat) : Out := writeNumber 12 radix radixChar n

/-- `printf_write_hex`. -/
def printfWriteHex : Word → Out := writeNumber 8 16 hexChar

/-- `printf_write_radix`. -/
def printfWriteRadix (n : Word) (radix : Nat) : Out := writeNumber 12 radix radixChar n

/-! ## §2 Arguments -/

/-- `va_arg(ap, uint32_t)` and `va_arg(ap, int32_t)`. -/
def vaWord : List Arg → Except Err (Word × List Arg)
  | .word w :: ap => .ok (w, ap)
  | _ => .error .badArg

/-- `va_arg(ap, const char *)`. -/
def vaStr : List Arg → Except Err (List Char × List Arg)
  | .str s :: ap => .ok (s, ap)
  | _ => .error .badArg

/-! ## §3 The kernel's formatter -/

/-- `is_color_controller`, without the value of the colour: `some true` for the digit `0`. -/
def isColorController (c : Char) : Option Bool :=
  if '0' ≤ c ∧ c ≤ '9' then some (decide (c = '0'))
  else if 'a' ≤ c ∧ c ≤ 'f' then some false
  else if 'A' ≤ c ∧ c ≤ 'F' then some false
  else none

/-- One turn of the automaton of `set_local_attr`; `6` accepts and `7` rejects. -/
def attrStatus (status : Nat) (c : Char) : Nat :=
  match status with
  | 1 => if c = '[' then 2 else 7
  | 2 =>
    match isColorController c with
    | some true => 3
    | some false => 4
    | none => 7
  | 3 => if c = 'm' then 6 else if isColorController c = some false then 5 else 7
  | 4 => if (isColorController c).isSome then 5 else 7
  | _ => if c = 'm' then 6 else 7

/-- `set_local_attr`, as far as the rest of the string it returns. A rejected controller takes one more
    character with it, which may be the terminator. -/
def setLocalAttr (status : Nat) : List Char → Out
  | [] => .error .overread
  | c :: s =>
    match attrStatus status c with
    | 6 => .ok s
    | 7 =>
      match s with
      | [] => .error .overread
      | _ :: s => .ok s
    | status => setLocalAttr status s

/-- `err_string`; the entries that the table leaves out are null pointers. -/
def errString : Nat → Option (List Char)
  | 1 => some "unspecific error".toList
  | 2 => some "bad proceess".toList
  | 3 => some "invalid parameter".toList
  | 4 => some "out of memory".toList
  | 5 => some "out of procs".toList
  | 6 => some "segment fault".toList
  | 7 => some "process is not recving".toList
  | 8 => some "unexpected end of file".toList
  | 11 => some "no free space on disk".toList
  | 12 => some "too many files are open".toList
  -- the table gives the entry of `E_NOT_FOUND` twice, and the later one stands
  | 13 => some "file is not a valid executable".toList
  | 14 => some "invalid path".toList
  | 15 => some "file already exists".toList
  | 17 => some "operation not supported".toList
  | _ => none

def MAXERROR : Int := 18

/-- `print_error`. -/
def printError (errno : Word) : Out :=
  let errno := -errno.toInt
  if errno > MAXERROR ∨ errno < 1 then .ok []
  else
    match errString errno.toNat with
    | some s => .ok s
    | none => .error .badArg

/-- The directive `%d` of the kernel. -/
def kernelDec (d : Word) : Out :=
  if d.toInt < 0 then do
    let digits ← screenWriteRadix (d * (-1)) 10
    .ok ('-' :: digits)
  else
    screenWriteRadix d 10

/-- The `switch` of `vprintfmt`: what the directive `c` puts, and the arguments it leaves. -/
def kernelDirective (c : Char) (ap : List Arg) : Except Err (List Char × List Arg) :=
  match c with
  | 'o' => do
    let (n, ap) ← vaWord ap
    let digits ← screenWriteRadix n 8
    .ok ('0' :: digits, ap)
  | 'd' => do
    let (d, ap) ← vaWord ap
    let text ← kernelDec d
    .ok (text, ap)
  | 'u' => do
    let (n, ap) ← vaWord ap
    let digits ← screenWriteRadix n 10
    .ok (digits, ap)
  | 'x' => do
    let (n, ap) ← vaWord ap
    let digits ← screenWriteHex n
    .ok (digits, ap)
  | 'p' => do
    let (n, ap) ← vaWord ap
    let digits ← screenWriteHex n
    .ok ('0' :: 'x' :: digits, ap)
  | 's' => vaStr ap
  | 'e' => do
    let (n, ap) ← vaWord ap
    let text ← printError n
    .ok (text, ap)
  | c => .ok ([c], ap)

/-- The loop of `vprintfmt`, with a bound on its turns: each of them takes a character of the format. -/
def vprintfmtLoop : Nat → List Char → List Arg → Out
  | _, [], _ => .ok []
  | 0, _ :: _, _ => .error .overread
  | turns + 1, c :: s, ap =>
    if c ≠ '%' ∧ c ≠ '\x1b' then do
      let rest ← vprintfmtLoop turns s ap
      .ok (c :: rest)
    else if c = '\x1b' then do
      let s ← setLocalAttr 1 s
      vprintfmtLoop turns s ap
    else
      match s with
      | [] => .error .overread
      | c :: s => do
        let (text, ap) ← kernelDirective c ap
        let rest ← vprintfmtLoop turns s ap
        .ok (text ++ rest)

/-- `vprintfmt`. -/
def vprintfmt (str : List Char) (ap : List Arg) : Out := vprintfmtLoop str.length str ap

/-! ## §4 The user's formatter -/

/-- The directive `%d` of the user: the sign bit is masked out. -/
def userDec (d : Word) : Out :=
  if d.toInt < 0 then do
    let digits ← printfWriteRadix (d &&& ~~~0x80000000) 10
    .ok ('-' :: digits)
  else
    printfWriteRadix d 10

/-- The `switch` of `printfmt`: what the directive `c` puts, and the arguments it leaves. -/
def userDirective (c : Char) (ap : List Arg) : Except Err (List Char × List Arg) :=
  match c with
  | 'o' => do
    let (n, ap) ← vaWord ap
    let digits ← printfWriteRadix n 8
    .ok ('0' :: digits, ap)
  | 'd' => do
    let (d, ap) ← vaWord ap
    let text ← userDec d
    .ok (text, ap)
  | 'u' => do
    let (n, ap) ← vaWord ap
    let digits ← printfWriteRadix n 10
    .ok (digits, ap)
  | 'x' => do
    let (n, ap) ← vaWord ap
    let digits ← printfWriteHex n
    .ok (digits, ap)
  | 'p' => do
    let (n, ap) ← vaWord ap
    let digits ← printfWriteHex n
    .ok ('0' :: 'x' :: digits, ap)
  | 's' => vaStr ap
  | 'c' => do
    let (n, ap) ← vaWord ap
    .ok ([Char.ofNat (n.toNat % 256)], ap)
  | c => .ok ([c], ap)

/-- The loop of `printfmt`. -/
def printfmt : List Char → List Arg → Out
  | [], _ => .ok []
  | ['%'], _ => .error .overread
  | '%' :: c :: s, ap => do
    let (text, ap) ← userDirective c ap
    let rest ← printfmt s ap
    .ok (text ++ rest)
  | c :: s, ap => do
    let rest ← printfmt s ap
    .ok (c :: rest)

/-! ## §5 Numerals -/

/-- The numeral of a number, without leading zeros. -/
def numeral (radix : Nat) (char : Nat → Char) (n : Nat) : List Char :=
  if n = 0 then [char 0] else (Nat.digits radix n).reverse.map char

/-- The digits are those of the positional system, as long as `num_stack` holds them. -/
theorem numStack_eq {radix : Nat} (hr : 2 ≤ radix) {room n : Nat} (hn : n < radix ^ room) :
    numStack radix room n = .ok (Nat.digits radix n) := by
  induction room generalizing n with
  | zero =>
    rw [pow_zero] at hn
    obtain rfl : n = 0 := by omega
    rw [numStack, Nat.digits_zero]
  | succ room ih =>
    cases n with
    | zero => rw [numStack, Nat.digits_zero]
    | succ n =>
      have hquot : (n + 1) / radix < radix ^ room := by
        apply Nat.div_lt_of_lt_mul
        rwa [pow_succ, Nat.mul_comm] at hn
      have hdigits : Nat.digits radix (n + 1) =
          (n + 1) % radix :: Nat.digits radix ((n + 1) / radix) :=
        Nat.digits_def' (by omega) (Nat.succ_pos n)
      rw [numStack, ih hquot, hdigits]
      rfl

/-- **A number writer writes the numeral** of its argument. -/
theorem writeNumber_eq {room radix : Nat} (hr : 2 ≤ radix) (hroom : 2 ^ 32 ≤ radix ^ room)
    (char : Nat → Char) (n : Word) :
    writeNumber room radix char n = .ok (numeral radix char n.toNat) := by
  unfold writeNumber numeral
  by_cases hn : n = 0
  · simp [hn]
  · have hpos : n.toNat ≠ 0 := fun h => hn (BitVec.eq_of_toNat_eq h)
    rw [if_neg hn, if_neg hpos, numStack_eq hr (n.isLt.trans_le hroom)]
    rfl

/-- The signed decimal numeral of a word. -/
def decimal (d : Word) : List Char :=
  if d.toInt < 0 then '-' :: numeral 10 radixChar d.toInt.natAbs
  else numeral 10 radixChar d.toInt.natAbs

theorem screenWriteRadix_eq {radix : Nat} (hr : 8 ≤ radix) (n : Word) :
    screenWriteRadix n radix = .ok (numeral radix radixChar n.toNat) := by
  apply writeNumber_eq (by omega)
  calc 2 ^ 32 ≤ 8 ^ 12 := by norm_num
    _ ≤ radix ^ 12 := Nat.pow_le_pow_left hr 12

theorem screenWriteHex_eq (n : Word) : screenWriteHex n = .ok (numeral 16 hexChar n.toNat) :=
  writeNumber_eq (by norm_num) (by norm_num) hexChar n

theorem printfWriteRadix_eq {radix : Nat} (hr : 8 ≤ radix) (n : Word) :
    printfWriteRadix n radix = .ok (numeral radix radixChar n.toNat) :=
  screenWriteRadix_eq hr n

theorem printfWriteHex_eq (n : Word) : printfWriteHex n = .ok (numeral 16 hexChar n.toNat) :=
  screenWriteHex_eq n

/-- The numeral determines the number. -/
theorem numeral_radixChar_injective {m n : Nat}
    (h : numeral 10 radixChar m = numeral 10 radixChar n) : m = n := by
  have hvalue : ∀ k, ((numeral 10 radixChar k).reverse.map fun c => c.toNat % 16) =
      if k = 0 then [0] else Nat.digits 10 k := by
    intro k
    unfold numeral
    split
    · decide
    · simp only [List.map_reverse, List.reverse_reverse, List.map_map]
      have hback : ∀ d ∈ Nat.digits 10 k, ((fun c : Char => c.toNat % 16) ∘ radixChar) d = id d := by
        intro d hd
        have hlt : d < 10 := Nat.digits_lt_base (by norm_num) hd
        interval_cases d <;> decide
      rw [List.map_congr_left hback, List.map_id]
  have hof : ∀ k, Nat.ofDigits 10 (if k = 0 then [0] else Nat.digits 10 k) = k := by
    intro k
    split
    · rename_i hk
      rw [hk]
      rfl
    · exact Nat.ofDigits_digits 10 k
  rw [← hof m, ← hof n, ← hvalue m, ← hvalue n, h]

/-- No digit is a minus sign. -/
theorem minus_not_mem_numeral (n : Nat) : '-' ∉ numeral 10 radixChar n := by
  unfold numeral
  split
  · decide
  · intro hmem
    obtain ⟨d, hd, hc⟩ := List.mem_map.1 hmem
    have hlt : d < 10 := Nat.digits_lt_base (by norm_num) (List.mem_reverse.1 hd)
    revert hc
    interval_cases d <;> decide

/-! ## §6 Formats -/

/-- A piece of a format, with the argument that matches it. -/
inductive Piece
  | char (c : Char)
  | dec (d : Word)
  | unsigned (n : Word)
  | oct (n : Word)
  | hex (n : Word)
  | ptr (n : Word)
  | str (s : List Char)
  | percent

/-- An ordinary character stands for itself: it neither ends the format nor starts a directive or a
    colour controller. -/
def Piece.Ordinary : Piece → Prop
  | .char c => c ≠ '\x00' ∧ c ≠ '%' ∧ c ≠ '\x1b'
  | _ => True

/-- The characters of a piece in the format. -/
def Piece.fmt : Piece → List Char
  | .char c => [c]
  | .dec _ => ['%', 'd']
  | .unsigned _ => ['%', 'u']
  | .oct _ => ['%', 'o']
  | .hex _ => ['%', 'x']
  | .ptr _ => ['%', 'p']
  | .str _ => ['%', 's']
  | .percent => ['%', '%']

def Piece.args : Piece → List Arg
  | .dec n | .unsigned n | .oct n | .hex n | .ptr n => [.word n]
  | .str s => [.str s]
  | .char _ | .percent => []

/-- What a piece is meant to print. -/
def Piece.text : Piece → List Char
  | .char c => [c]
  | .dec d => decimal d
  | .unsigned n => numeral 10 radixChar n.toNat
  | .oct n => '0' :: numeral 8 radixChar n.toNat
  | .hex n => numeral 16 hexChar n.toNat
  | .ptr n => '0' :: 'x' :: numeral 16 hexChar n.toNat
  | .str s => s
  | .percent => ['%']

/-- What the user's formatter prints for a `%d`. -/
def userDecimal (d : Word) : List Char :=
  if d.toInt < 0 then '-' :: numeral 10 radixChar (d.toNat - 2 ^ 31)
  else numeral 10 radixChar d.toNat

/-- What the user's formatter prints for a piece. -/
def Piece.userText : Piece → List Char
  | .dec d => userDecimal d
  | p => p.text

def fmtOf (ps : List Piece) : List Char := ps.flatMap Piece.fmt

def argsOf (ps : List Piece) : List Arg := ps.flatMap Piece.args

def textOf (ps : List Piece) : List Char := ps.flatMap Piece.text

/-! ## §7 What each formatter prints -/

theorem kernelDec_eq (d : Word) : kernelDec d = .ok (decimal d) := by
  unfold kernelDec decimal
  split
  · rename_i hneg
    have hmag : (d * (-1)).toNat = d.toInt.natAbs := by
      have hmul : d * (-1) = -d := by ring
      rw [hmul]
      rw [BitVec.toInt_eq_toNat_cond] at hneg ⊢
      rw [BitVec.toNat_neg]
      have := d.isLt
      split_ifs at hneg ⊢ <;> omega
    rw [screenWriteRadix_eq (by norm_num), hmag]
    rfl
  · rename_i hpos
    have hmag : d.toNat = d.toInt.natAbs := by
      rw [BitVec.toInt_eq_toNat_cond] at hpos ⊢
      have := d.isLt
      split_ifs at hpos ⊢ <;> omega
    rw [screenWriteRadix_eq (by norm_num), hmag]

theorem userDec_eq (d : Word) : userDec d = .ok (userDecimal d) := by
  unfold userDec userDecimal
  split
  · rename_i hneg
    have hmask : (d &&& ~~~0x80000000).toNat = d.toNat - 2 ^ 31 := by
      have hand : d &&& ~~~0x80000000 = d &&& BitVec.ofNat 32 (2 ^ 31 - 1) := rfl
      rw [hand, BitVec.toNat_and, BitVec.toNat_ofNat]
      rw [show (2 ^ 31 - 1) % 2 ^ 32 = 2 ^ 31 - 1 by norm_num, Nat.and_two_pow_sub_one_eq_mod]
      rw [BitVec.toInt_eq_toNat_cond] at hneg
      have := d.isLt
      split_ifs at hneg <;> omega
    rw [printfWriteRadix_eq (by norm_num), hmask]
    rfl
  · rw [printfWriteRadix_eq (by norm_num)]

/-- The kernel's loop takes a directive off the format. -/
theorem vprintfmtLoop_directive {c : Char} {ap ap' : List Arg} {text : List Char}
    (hdir : kernelDirective c ap = .ok (text, ap')) (turns : Nat) (s : List Char) :
    vprintfmtLoop (turns + 1) ('%' :: c :: s) ap = (vprintfmtLoop turns s ap').map (text ++ ·) := by
  rw [vprintfmtLoop, if_neg (by decide), if_neg (by decide)]
  simp only [hdir, bind, Except.bind]
  cases vprintfmtLoop turns s ap' <;> rfl

theorem printfmt_directive {c : Char} {ap ap' : List Arg} {text : List Char}
    (hdir : userDirective c ap = .ok (text, ap')) (s : List Char) :
    printfmt ('%' :: c :: s) ap = (printfmt s ap').map (text ++ ·) := by
  rw [printfmt, hdir]
  cases hrest : printfmt s ap' <;> simp only [bind, Except.bind, Except.map, hrest]

/-- A piece is a character, or a directive that takes its own argument and prints its text. -/
theorem Piece.kernel (p : Piece) (ap : List Arg) :
    (∃ c, p = .char c) ∨
      ∃ c, p.fmt = ['%', c] ∧ kernelDirective c (p.args ++ ap) = .ok (p.text, ap) := by
  cases p with
  | char c => exact .inl ⟨c, rfl⟩
  | dec d =>
    refine .inr ⟨'d', rfl, ?_⟩
    simp only [Piece.args, List.cons_append, List.nil_append, kernelDirective, vaWord, bind,
      Except.bind, kernelDec_eq]
    rfl
  | unsigned n =>
    refine .inr ⟨'u', rfl, ?_⟩
    simp only [Piece.args, List.cons_append, List.nil_append, kernelDirective, vaWord, bind,
      Except.bind, screenWriteRadix_eq (show 8 ≤ 10 by norm_num)]
    rfl
  | oct n =>
    refine .inr ⟨'o', rfl, ?_⟩
    simp only [Piece.args, List.cons_append, List.nil_append, kernelDirective, vaWord, bind,
      Except.bind, screenWriteRadix_eq (show 8 ≤ 8 by norm_num)]
    rfl
  | hex n =>
    refine .inr ⟨'x', rfl, ?_⟩
    simp only [Piece.args, List.cons_append, List.nil_append, kernelDirective, vaWord, bind,
      Except.bind, screenWriteHex_eq]
    rfl
  | ptr n =>
    refine .inr ⟨'p', rfl, ?_⟩
    simp only [Piece.args, List.cons_append, List.nil_append, kernelDirective, vaWord, bind,
      Except.bind, screenWriteHex_eq]
    rfl
  | str t => exact .inr ⟨'s', rfl, rfl⟩
  | percent => exact .inr ⟨'%', rfl, rfl⟩

/-- The user's formatter treats a piece like the kernel's, up to the text of a `%d`. -/
theorem Piece.user (p : Piece) (ap : List Arg) :
    (∃ c, p = .char c) ∨
      ∃ c, p.fmt = ['%', c] ∧ userDirective c (p.args ++ ap) = .ok (p.userText, ap) := by
  cases p with
  | char c => exact .inl ⟨c, rfl⟩
  | dec d =>
    refine .inr ⟨'d', rfl, ?_⟩
    simp only [Piece.args, List.cons_append, List.nil_append, userDirective, vaWord, bind,
      Except.bind, userDec_eq]
    rfl
  | unsigned n =>
    refine .inr ⟨'u', rfl, ?_⟩
    simp only [Piece.args, List.cons_append, List.nil_append, userDirective, vaWord, bind,
      Except.bind, printfWriteRadix_eq (show 8 ≤ 10 by norm_num)]
    rfl
  | oct n =>
    refine .inr ⟨'o', rfl, ?_⟩
    simp only [Piece.args, List.cons_append, List.nil_append, userDirective, vaWord, bind,
      Except.bind, printfWriteRadix_eq (show 8 ≤ 8 by norm_num)]
    rfl
  | hex n =>
    refine .inr ⟨'x', rfl, ?_⟩
    simp only [Piece.args, List.cons_append, List.nil_append, userDirective, vaWord, bind,
      Except.bind, printfWriteHex_eq]
    rfl
  | ptr n =>
    refine .inr ⟨'p', rfl, ?_⟩
    simp only [Piece.args, List.cons_append, List.nil_append, userDirective, vaWord, bind,
      Except.bind, printfWriteHex_eq]
    rfl
  | str t => exact .inr ⟨'s', rfl, rfl⟩
  | percent => exact .inr ⟨'%', rfl, rfl⟩

/-- An ordinary piece is not empty in the format. -/
theorem length_le_fmtOf (ps : List Piece) : ps.length ≤ (fmtOf ps).length := by
  induction ps with
  | nil => exact le_refl 0
  | cons p ps ih =>
    have hpos : 1 ≤ p.fmt.length := by cases p <;> simp [Piece.fmt]
    simp only [fmtOf, List.flatMap_cons, List.length_append, List.length_cons] at ih ⊢
    omega

/-- **The kernel's formatter prints the meant text**: the numeral of every argument. -/
theorem vprintfmt_ok {ps : List Piece} (hps : ∀ p ∈ ps, p.Ordinary) :
    vprintfmt (fmtOf ps) (argsOf ps) = .ok (textOf ps) := by
  suffices hloop : ∀ turns, ps.length ≤ turns →
      vprintfmtLoop turns (fmtOf ps) (argsOf ps) = .ok (textOf ps) from
    hloop _ (length_le_fmtOf ps)
  induction ps with
  | nil =>
    intro turns _
    cases turns <;> rfl
  | cons p ps ih =>
    intro turns hturns
    obtain ⟨turns, rfl⟩ : ∃ t, turns = t + 1 := ⟨turns - 1, by simp at hturns; omega⟩
    have hrest := ih (fun q hq => hps q (List.mem_cons_of_mem p hq)) turns (by simpa using hturns)
    simp only [fmtOf, argsOf, textOf, List.flatMap_cons] at hrest ⊢
    obtain ⟨c, rfl⟩ | ⟨c, hfmt, hdir⟩ := p.kernel (ps.flatMap Piece.args)
    · obtain ⟨_, hpercent, hesc⟩ := hps _ List.mem_cons_self
      simp only [Piece.fmt, Piece.args, Piece.text, List.cons_append, List.nil_append, vprintfmtLoop]
      rw [if_pos ⟨hpercent, hesc⟩, hrest]
      rfl
    · rw [hfmt, List.cons_append, List.cons_append, List.nil_append,
        vprintfmtLoop_directive hdir turns, hrest]
      rfl

/-- **What the user's formatter prints.** -/
theorem printfmt_ok {ps : List Piece} (hps : ∀ p ∈ ps, p.Ordinary) :
    printfmt (fmtOf ps) (argsOf ps) = .ok (ps.flatMap Piece.userText) := by
  induction ps with
  | nil => rfl
  | cons p ps ih =>
    have hrest := ih fun q hq => hps q (List.mem_cons_of_mem p hq)
    simp only [fmtOf, argsOf, List.flatMap_cons] at hrest ⊢
    obtain ⟨c, rfl⟩ | ⟨c, hfmt, hdir⟩ := p.user (ps.flatMap Piece.args)
    · obtain ⟨_, hpercent, _⟩ := hps _ List.mem_cons_self
      simp only [Piece.fmt, Piece.args, List.cons_append, List.nil_append]
      rw [printfmt, hrest]
      · rfl
      · intro h
        exact absurd h hpercent
      · intro _ _ h
        exact absurd h hpercent
    · rw [hfmt, List.cons_append, List.cons_append, List.nil_append, printfmt_directive hdir, hrest]
      rfl

/-! ## §8 Where the two agree -/

/-- The arguments of `%d` that both formatters print alike. -/
def Alike (d : Word) : Prop := 0 ≤ d.toInt ∨ d.toInt = -2 ^ 30

instance (d : Word) : Decidable (Alike d) := inferInstanceAs (Decidable (_ ∨ _))

theorem userDecimal_eq_iff (d : Word) : userDecimal d = decimal d ↔ Alike d := by
  have hlt := d.isLt
  have hint := BitVec.toInt_eq_toNat_cond d
  unfold userDecimal decimal Alike
  split
  · rename_i hneg
    constructor
    · intro h
      have hmag := numeral_radixChar_injective (List.cons.inj h).2
      right
      split_ifs at hint <;> omega
    · rintro (hpos | hmin)
      · omega
      · have hmag : d.toNat - 2 ^ 31 = d.toInt.natAbs := by
          split_ifs at hint <;> omega
        rw [hmag]
  · rename_i hpos
    have hmag : d.toNat = d.toInt.natAbs := by
      split_ifs at hint <;> omega
    rw [hmag]
    exact iff_of_true rfl (.inl (by omega))

/-- Two texts that end in a minus sign and a numeral end in the same numeral. -/
theorem numeral_suffix_unique {u v x y : List Char} (hx : '-' ∉ x) (hy : '-' ∉ y)
    (h : u ++ '-' :: x = v ++ '-' :: y) : x = y := by
  induction u generalizing v with
  | nil =>
    cases v with
    | nil => exact (List.cons.inj h).2
    | cons c v =>
      have htail := (List.cons.inj h).2
      exact absurd (htail ▸ List.mem_append_right v List.mem_cons_self) hx
  | cons c u ih =>
    cases v with
    | nil =>
      have htail := (List.cons.inj h).2
      exact absurd (htail ▸ List.mem_append_right u List.mem_cons_self) hy
    | cons c' v => exact ih (List.cons.inj h).2

/-- A `%d` that is not printed alike makes any two texts differ that end in it. -/
theorem text_ne_of_not_alike {d : Word} (hd : ¬ Alike d) (u v : List Char) :
    u ++ userDecimal d ≠ v ++ decimal d := by
  intro h
  have hneg : d.toInt < 0 := by
    by_contra hpos
    exact hd (.inl (by omega))
  have hne := mt (userDecimal_eq_iff d).1 hd
  simp only [userDecimal, decimal, if_pos hneg] at h hne
  apply hne
  rw [numeral_suffix_unique (minus_not_mem_numeral _) (minus_not_mem_numeral _) h]

/-- The texts agree exactly when they agree piece by piece. -/
theorem userText_eq_iff (ps : List Piece) :
    ps.flatMap Piece.userText = textOf ps ↔ ∀ d, Piece.dec d ∈ ps → Alike d := by
  induction ps using List.reverseRecOn with
  | nil => simp [textOf]
  | append_singleton ps p ih =>
    simp only [textOf, List.flatMap_append, List.flatMap_singleton] at ih ⊢
    by_cases hp : p.userText = p.text
    · rw [hp, List.append_left_inj, ih]
      constructor
      · intro h d hd
        obtain hmem | hlast := List.mem_append.1 hd
        · exact h d hmem
        · obtain rfl : Piece.dec d = p := List.mem_singleton.1 hlast
          exact (userDecimal_eq_iff d).1 hp
      · intro h d hd
        exact h d (List.mem_append_left _ hd)
    · -- only a `%d` is printed differently
      obtain ⟨d, rfl⟩ : ∃ d, p = .dec d := by
        cases p with
        | dec d => exact ⟨d, rfl⟩
        | _ => exact absurd rfl hp
      have hd : ¬ Alike d := mt (userDecimal_eq_iff d).2 hp
      constructor
      · intro h
        exact absurd h (text_ne_of_not_alike hd _ _)
      · intro h
        exact absurd (h d (by simp)) hd

/-- The two formatters print the same, and both print the numeral of every argument. -/
def Agree (ps : List Piece) : Prop :=
  printfmt (fmtOf ps) (argsOf ps) = vprintfmt (fmtOf ps) (argsOf ps) ∧
    printfmt (fmtOf ps) (argsOf ps) = .ok (textOf ps) ∧
    vprintfmt (fmtOf ps) (argsOf ps) = .ok (textOf ps)

/-- **The two formatters agree** on a format exactly when every argument of a `%d` in it is not negative
    or is `-2^30`, the one negative number whose magnitude is left when the sign bit is masked out. -/
theorem printf_agree_iff (ps : List Piece) (hps : ∀ p ∈ ps, p.Ordinary) :
    Agree ps ↔ ∀ d, Piece.dec d ∈ ps → Alike d := by
  rw [← userText_eq_iff]
  unfold Agree
  rw [printfmt_ok hps, vprintfmt_ok hps]
  constructor
  · rintro ⟨h, _, _⟩
    exact Except.ok.inj h
  · intro h
    rw [h]
    exact ⟨rfl, rfl, rfl⟩

theorem printf_agree_iff_sample :
    Agree [.char 'n', .dec 7, .hex 255] ↔
      ∀ d, Piece.dec d ∈ [Piece.char 'n', .dec 7, .hex 255] → Alike d :=
  printf_agree_iff _ (by
    intro p hp
    simp only [List.mem_cons, List.not_mem_nil, or_false] at hp
    obtain rfl | rfl | rfl := hp
    · exact ⟨by decide, by decide, by decide⟩
    · trivial
    · trivial)

/-- `printf("%d", -1)` prints `-2147483647`. -/
theorem printf_disagree :
    ¬ ∀ ps : List Piece, (∀ p ∈ ps, p.Ordinary) → Agree ps := by
  intro h
  have hagree := h [.dec (-1)] (by simp [Piece.Ordinary])
  have huser : printfmt (fmtOf [.dec (-1)]) (argsOf [.dec (-1)]) = .ok "-2147483647".toList := by
    rfl
  have hkernel : vprintfmt (fmtOf [.dec (-1)]) (argsOf [.dec (-1)]) = .ok "-1".toList := by
    rfl
  rw [Agree, huser, hkernel] at hagree
  revert hagree
  decide

end WeiOS.Printf
