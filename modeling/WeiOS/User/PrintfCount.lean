import Mathlib
import WeiOS.User.Printf

/-!
# What the Kernel's Formatter Reads and Counts

`vprintfmt` of `lib/printfmt.c` once more, now with the number that it adds to `*cnt`. The scan of the
format passes the terminator in two places: a `%` that is the last character takes the terminator for its
directive, and the exit of `set_local_attr` for a malformed controller, `return s+1`, takes the bad
character and one more. A minus sign that `%d` puts is not counted.

How a format is divided into characters, directives and colour controllers is said by `Reads`, without
the automaton.

## Main results
- `setLocalAttr_took`, `setLocalAttr_cut`: which part of the format a colour controller takes.
- `exists_reads`: every format is divided in this way.
- `directive_counts`: what one directive adds to the count.
- `vprintfmt_respects_iff`: when the formatter stays in its format and counts what it puts.
- `vprintfmt_text`: the characters are those of the formatter without the count.
-/

namespace WeiOS.Printfmt

open Printf (Arg Err Word)

/-! ## §1 The formatter with its count -/

/-- The characters put and the value returned. -/
abbrev Put := Except Err (List Char × Word)

/-- The common body of `screen_write_hex` and `screen_write_radix`. -/
def writeNumber (room radix : Nat) (char : Nat → Char) (n : Word) : Put :=
  if n = 0 then
    .ok ([char 0], 1)
  else do
    let stack ← Printf.numStack radix room n.toNat
    .ok (stack.reverse.map char, BitVec.ofNat 32 stack.length)

/-- `screen_write_hex`. -/
def screenWriteHex : Word → Put := writeNumber 8 16 Printf.hexChar

/-- `screen_write_radix`. -/
def screenWriteRadix (n : Word) (radix : Nat) : Put := writeNumber 12 radix Printf.radixChar n

/-- The loop of `cga_puts`, which `console_puts` calls. -/
def cgaPuts : List Char → Word → List Char × Word
  | [], i => ([], i)
  | c :: s, i => (c :: (cgaPuts s (i + 1)).1, (cgaPuts s (i + 1)).2)

/-- `console_puts`. -/
def consolePuts (s : List Char) : List Char × Word := cgaPuts s 0

/-- `print_error`. -/
def printError (errno : Word) : Put :=
  let errno := -errno.toInt
  if errno > Printf.MAXERROR ∨ errno < 1 then .ok ([], 0)
  else
    match Printf.errString errno.toNat with
    | some s => .ok (consolePuts s)
    | none => .error .badArg

/-- The `switch` of `vprintfmt`: what the directive `c` puts, what it adds to `count`, and the arguments
    it leaves. -/
def directive (c : Char) (ap : List Arg) : Except Err (List Char × Word × List Arg) :=
  match c with
  | 'o' => do
    let (n, ap) ← Printf.vaWord ap
    let (digits, k) ← screenWriteRadix n 8
    .ok ('0' :: digits, 1 + k, ap)
  | 'd' => do
    let (d, ap) ← Printf.vaWord ap
    if d.toInt < 0 then
      let (digits, k) ← screenWriteRadix (d * (-1)) 10
      .ok ('-' :: digits, k, ap)
    else
      let (digits, k) ← screenWriteRadix d 10
      .ok (digits, k, ap)
  | 'u' => do
    let (n, ap) ← Printf.vaWord ap
    let (digits, k) ← screenWriteRadix n 10
    .ok (digits, k, ap)
  | 'x' => do
    let (n, ap) ← Printf.vaWord ap
    let (digits, k) ← screenWriteHex n
    .ok (digits, k, ap)
  | 'p' => do
    let (n, ap) ← Printf.vaWord ap
    let (digits, k) ← screenWriteHex n
    .ok ('0' :: 'x' :: digits, k + 2, ap)
  | 's' => do
    let (s, ap) ← Printf.vaStr ap
    .ok ((consolePuts s).1, (consolePuts s).2, ap)
  | 'e' => do
    let (n, ap) ← Printf.vaWord ap
    let (text, k) ← printError n
    .ok (text, k, ap)
  | c => .ok ([c], 1, ap)

/-- The loop of `vprintfmt`, with a bound on its turns and the value of `count`. -/
def vprintfmtLoop : Nat → List Char → List Arg → Word → Put
  | _, [], _, count => .ok ([], count)
  | 0, _ :: _, _, _ => .error .overread
  | turns + 1, c :: s, ap, count =>
    if c ≠ '%' ∧ c ≠ '\x1b' then do
      let (rest, count) ← vprintfmtLoop turns s ap (count + 1)
      .ok (c :: rest, count)
    else if c = '\x1b' then do
      let s ← Printf.setLocalAttr 1 s
      vprintfmtLoop turns s ap count
    else
      match s with
      | [] => .error .overread
      | c :: s => do
        let (text, k, ap) ← directive c ap
        let (rest, count) ← vprintfmtLoop turns s ap (count + k)
        .ok (text ++ rest, count)

/-- `vprintfmt`: the characters put and the new value of `*cnt`. -/
def vprintfmt (str : List Char) (cnt : Word) (ap : List Arg) : Put := do
  let (text, count) ← vprintfmtLoop str.length str ap 0
  .ok (text, cnt + count)

/-! ## §2 How a format is divided -/

/-- A digit of a colour controller. -/
def IsDigit (c : Char) : Prop := (Printf.isColorController c).isSome

instance (c : Char) : Decidable (IsDigit c) := inferInstanceAs (Decidable ((Printf.isColorController c).isSome))

/-- What follows the escape character in a colour controller. -/
inductive Controller : List Char → Prop
  | reset : Controller ['[', '0', 'm']
  | colour (d e : Char) : IsDigit d → IsDigit e → ¬ (d = '0' ∧ e = '0') → Controller ['[', d, e, 'm']

/-- A controller begins with these characters, and then something is missing. -/
inductive Beginning : List Char → Prop
  | nil : Beginning []
  | bracket : Beginning ['[']
  | one (d : Char) : IsDigit d → Beginning ['[', d]
  | two (d e : Char) : IsDigit d → IsDigit e → ¬ (d = '0' ∧ e = '0') → Beginning ['[', d, e]

/-- A controller begins with `u`, and the character `c` does not continue it. -/
inductive Breaks : List Char → Char → Prop
  | nil (c : Char) : c ≠ '[' → Breaks [] c
  | bracket (c : Char) : ¬ IsDigit c → Breaks ['['] c
  | zero (c : Char) : c ≠ 'm' → ¬ (IsDigit c ∧ c ≠ '0') → Breaks ['[', '0'] c
  | one (d c : Char) : IsDigit d → d ≠ '0' → ¬ IsDigit c → Breaks ['[', d] c
  | two (d e c : Char) : IsDigit d → IsDigit e → ¬ (d = '0' ∧ e = '0') → c ≠ 'm' → Breaks ['[', d, e] c

/-- What is taken behind an escape character: a controller, or the beginning of one with the character
    that breaks it and one more. -/
inductive Took : List Char → Prop
  | controller {u : List Char} : Controller u → Took u
  | malformed {u : List Char} {c : Char} (x : Char) : Breaks u c → Took (u ++ [c, x])

/-- The format ends too early behind an escape character. -/
inductive Cut : List Char → Prop
  | beginning {u : List Char} : Beginning u → Cut u
  | broken {u : List Char} {c : Char} : Breaks u c → Cut (u ++ [c])

/-- The directives of a format, and whether its end is the end of a part. -/
inductive Reads : List Char → List Char → Bool → Prop
  | done : Reads [] [] true
  | percent : Reads ['%'] [] false
  | cut {u : List Char} : Cut u → Reads ('\x1b' :: u) [] false
  | char {c : Char} {s ds : List Char} {b : Bool} : c ≠ '%' → c ≠ '\x1b' → Reads s ds b → Reads (c :: s) ds b
  | directive {c : Char} {s ds : List Char} {b : Bool} : Reads s ds b → Reads ('%' :: c :: s) (c :: ds) b
  | controller {u s ds : List Char} {b : Bool} : Took u → Reads s ds b → Reads ('\x1b' :: (u ++ s)) ds b

/-! ## §3 Colour controllers -/

section Controllers

variable {c d e : Char} {s u : List Char} {k : Nat}

theorem isColorController_true : Printf.isColorController c = some true ↔ c = '0' := by
  unfold Printf.isColorController
  split
  · simp
  · next h =>
    have hc : c ≠ '0' := fun he => h (by rw [he]; decide)
    split
    · simp [hc]
    · split <;> simp [hc]

theorem isColorController_false : Printf.isColorController c = some false ↔ IsDigit c ∧ c ≠ '0' := by
  rw [IsDigit, Ne, ← isColorController_true]
  cases Printf.isColorController c with
  | none => simp
  | some b => cases b <;> simp

theorem isColorController_none : Printf.isColorController c = none ↔ ¬ IsDigit c := by
  rw [IsDigit, Bool.not_eq_true, Option.isSome_eq_false_iff, Option.isNone_iff_eq_none]

theorem setLocalAttr_step (h : Printf.attrStatus k c ≠ 6) (h' : Printf.attrStatus k c ≠ 7) (s : List Char) :
    Printf.setLocalAttr k (c :: s) = Printf.setLocalAttr (Printf.attrStatus k c) s := by
  rw [Printf.setLocalAttr.eq_def]
  dsimp only
  split
  · next heq => exact absurd heq h
  · next heq => exact absurd heq h'
  · rfl

/-- The turns of the automaton before its last one. -/
theorem setLocalAttr_bracket (s : List Char) :
    Printf.setLocalAttr 1 ('[' :: s) = Printf.setLocalAttr 2 s :=
  setLocalAttr_step (by decide) (by decide) s

theorem setLocalAttr_zero (s : List Char) : Printf.setLocalAttr 2 ('0' :: s) = Printf.setLocalAttr 3 s :=
  setLocalAttr_step (by decide) (by decide) s

theorem setLocalAttr_fst (hd : IsDigit d) (h0 : d ≠ '0') (s : List Char) :
    Printf.setLocalAttr 2 (d :: s) = Printf.setLocalAttr 4 s := by
  have hst : Printf.attrStatus 2 d = 4 := by rw [Printf.attrStatus, isColorController_false.2 ⟨hd, h0⟩]
  rw [setLocalAttr_step (by omega) (by omega), hst]

/-- The second digit, after any first one. -/
theorem setLocalAttr_snd (hd : IsDigit d) (he : IsDigit e) (h0 : ¬ (d = '0' ∧ e = '0')) (s : List Char) :
    Printf.setLocalAttr 2 (d :: e :: s) = Printf.setLocalAttr 5 s := by
  by_cases hd0 : d = '0'
  · have he0 : e ≠ '0' := fun h => h0 ⟨hd0, h⟩
    have hm : e ≠ 'm' := fun h => absurd (h ▸ he) (by decide)
    have hst : Printf.attrStatus 3 e = 5 := by
      simp only [Printf.attrStatus, if_neg hm, if_pos (isColorController_false.2 ⟨he, he0⟩)]
    rw [hd0, setLocalAttr_zero, setLocalAttr_step (by omega) (by omega), hst]
  · have hst : Printf.attrStatus 4 e = 5 := by
      simp only [Printf.attrStatus]
      exact if_pos he
    rw [setLocalAttr_fst hd hd0, setLocalAttr_step (by omega) (by omega), hst]

theorem setLocalAttr_accept (h : Printf.attrStatus k c = 6) (s : List Char) :
    Printf.setLocalAttr k (c :: s) = .ok s := by
  rw [Printf.setLocalAttr.eq_def]
  simp only [h]

/-- The exit for a malformed controller takes one more character. -/
theorem setLocalAttr_reject (h : Printf.attrStatus k c = 7) (s : List Char) :
    Printf.setLocalAttr k (c :: s) = match s with
      | [] => .error .overread
      | _ :: s => .ok s := by
  rw [Printf.setLocalAttr.eq_def]
  cases s with
  | nil => simp only [h]
  | cons x s => simp only [h]

/-- The state of the automaton behind a beginning, in which the next character is rejected. -/
theorem setLocalAttr_breaks (h : Breaks u c) :
    ∃ k, Printf.attrStatus k c = 7 ∧ ∀ s, Printf.setLocalAttr 1 (u ++ s) = Printf.setLocalAttr k s := by
  cases h with
  | nil _ hc => exact ⟨1, if_neg hc, fun s => rfl⟩
  | bracket _ hc =>
    refine ⟨2, ?_, setLocalAttr_bracket⟩
    rw [Printf.attrStatus, isColorController_none.2 hc]
  | zero _ hm hc =>
    refine ⟨3, ?_, fun s => (setLocalAttr_bracket _).trans (setLocalAttr_zero s)⟩
    simp only [Printf.attrStatus, if_neg hm, isColorController_false, if_neg hc]
  | one d _ hd h0 hc =>
    refine ⟨4, ?_, fun s => (setLocalAttr_bracket _).trans (setLocalAttr_fst hd h0 s)⟩
    simp only [Printf.attrStatus]
    exact if_neg hc
  | two d e _ hd he h0 hm =>
    exact ⟨5, if_neg hm, fun s => (setLocalAttr_bracket _).trans (setLocalAttr_snd hd he h0 s)⟩

/-- **What is taken**: a controller, or a malformed one with one more character. -/
theorem setLocalAttr_took (h : Took u) (s : List Char) : Printf.setLocalAttr 1 (u ++ s) = .ok s := by
  cases h with
  | controller hu =>
    cases hu with
    | reset =>
      exact (setLocalAttr_bracket _).trans ((setLocalAttr_zero _).trans (setLocalAttr_accept (by decide) s))
    | colour d e hd he h0 =>
      exact (setLocalAttr_bracket _).trans
        ((setLocalAttr_snd hd he h0 _).trans (setLocalAttr_accept (by decide) s))
  | malformed x hb =>
    obtain ⟨k, hk, hrun⟩ := setLocalAttr_breaks hb
    rw [List.append_assoc, hrun]
    exact setLocalAttr_reject hk _

/-- **Reading behind the terminator**: the controller is not finished, or it is broken by the last
    character. -/
theorem setLocalAttr_cut (h : Cut u) : Printf.setLocalAttr 1 u = .error .overread := by
  cases h with
  | beginning hu =>
    cases hu with
    | nil => rfl
    | bracket => rfl
    | one d hd =>
      by_cases h0 : d = '0'
      · rw [h0]
        rfl
      · rw [setLocalAttr_bracket, setLocalAttr_fst hd h0]
        rfl
    | two d e hd he h0 =>
      rw [setLocalAttr_bracket, setLocalAttr_snd hd he h0]
      rfl
  | broken hb =>
    obtain ⟨k, hk, hrun⟩ := setLocalAttr_breaks hb
    rw [hrun]
    exact setLocalAttr_reject hk _

/-- A character that breaks a beginning is the last one, or is taken with the next one. -/
theorem Breaks.cut_or_took (h : Breaks u c) (s : List Char) :
    Cut (u ++ c :: s) ∨ ∃ v t, Took v ∧ u ++ c :: s = v ++ t := by
  cases s with
  | nil => exact .inl (.broken h)
  | cons x t => exact .inr ⟨u ++ [c, x], t, .malformed x h, by simp⟩

/-- What follows an escape character is cut, or a part of it is taken. -/
theorem cut_or_took (s : List Char) : Cut s ∨ ∃ u t, Took u ∧ s = u ++ t := by
  -- by the characters of the string, as far as they continue a controller
  rcases s with _ | ⟨b, s⟩
  · exact .inl (.beginning .nil)
  by_cases hb : b = '['
  swap
  · exact (Breaks.nil b hb).cut_or_took s
  subst hb
  rcases s with _ | ⟨d, s⟩
  · exact .inl (.beginning .bracket)
  by_cases hd : IsDigit d
  swap
  · exact (Breaks.bracket d hd).cut_or_took s
  rcases s with _ | ⟨e, s⟩
  · exact .inl (.beginning (.one d hd))
  by_cases hreset : d = '0' ∧ e = 'm'
  · obtain ⟨rfl, rfl⟩ := hreset
    exact .inr ⟨_, s, .controller .reset, rfl⟩
  by_cases he : IsDigit e ∧ ¬ (d = '0' ∧ e = '0')
  swap
  · -- the second character is neither `m` after a zero nor a digit that fits
    by_cases hd0 : d = '0'
    · subst hd0
      refine (Breaks.zero e (fun h => hreset ⟨rfl, h⟩) fun h => he ⟨h.1, fun h' => h.2 h'.2⟩).cut_or_took s
    · exact (Breaks.one d e hd hd0 fun h => he ⟨h, fun h' => hd0 h'.1⟩).cut_or_took s
  obtain ⟨he, h0⟩ := he
  rcases s with _ | ⟨m, s⟩
  · exact .inl (.beginning (.two d e hd he h0))
  by_cases hm : m = 'm'
  · subst hm
    exact .inr ⟨_, s, .controller (.colour d e hd he h0), rfl⟩
  · exact (Breaks.two d e m hd he h0 hm).cut_or_took s

end Controllers

/-- Every format is divided into parts. -/
theorem exists_reads (s : List Char) : ∃ ds b, Reads s ds b := by
  -- by the length: a directive and a controller take several characters
  induction hn : s.length using Nat.strong_induction_on generalizing s with
  | _ n ih =>
    rcases s with _ | ⟨c, s⟩
    · exact ⟨_, _, .done⟩
    by_cases hesc : c = '\x1b'
    · subst hesc
      rcases cut_or_took s with hcut | ⟨u, t, hu, rfl⟩
      · exact ⟨_, _, .cut hcut⟩
      · obtain ⟨ds, b, ht⟩ := ih t.length (by rw [← hn]; simp) t rfl
        exact ⟨ds, b, .controller hu ht⟩
    by_cases hper : c = '%'
    · subst hper
      rcases s with _ | ⟨d, s⟩
      · exact ⟨_, _, .percent⟩
      · obtain ⟨ds, b, hs⟩ := ih s.length (by rw [← hn]; simp) s rfl
        exact ⟨d :: ds, b, .directive hs⟩
    · obtain ⟨ds, b, hs⟩ := ih s.length (by rw [← hn]; simp) s rfl
      exact ⟨ds, b, .char hper hesc hs⟩

/-! ## §4 Directives and their arguments -/

/-- The directives that take an argument. -/
def TakesWord (c : Char) : Prop := c = 'o' ∨ c = 'd' ∨ c = 'u' ∨ c = 'x' ∨ c = 'p' ∨ c = 'e'

instance (c : Char) : Decidable (TakesWord c) := by unfold TakesWord; infer_instance

/-- The argument of a directive. -/
def argOf (c : Char) (ap : List Arg) : Option Arg := if TakesWord c ∨ c = 's' then ap.head? else none

/-- The arguments that it leaves. -/
def leaves (c : Char) (ap : List Arg) : List Arg := if TakesWord c ∨ c = 's' then ap.tail else ap

/-- The directives of a format, each with its argument. -/
def given : List Char → List Arg → List (Char × Option Arg)
  | [], _ => []
  | c :: ds, ap => (c, argOf c ap) :: given ds (leaves c ap)

/-- The argument is of the kind that the directive takes. -/
def Fits (q : Char × Option Arg) : Prop :=
  (TakesWord q.1 → ∃ w, q.2 = some (.word w)) ∧ (q.1 = 's' → ∃ t, q.2 = some (.str t))

/-- The arguments match the format. -/
def Matching (str : List Char) (ap : List Arg) : Prop :=
  ∀ ds b, Reads str ds b → ∀ q ∈ given ds ap, Fits q

/-- A negative number for `%d`. -/
def negative (q : Char × Option Arg) : Bool :=
  decide (q.1 = 'd') && match q.2 with
    | some (.word w) => decide (w.toInt < 0)
    | _ => false

/-- An error number for `%e` whose entry in `err_string` is missing, or behind the end of the table. -/
def noText (q : Char × Option Arg) : Bool :=
  decide (q.1 = 'e') && match q.2 with
    | some (.word w) =>
      decide (1 ≤ -w.toInt ∧ -w.toInt ≤ Printf.MAXERROR) && (Printf.errString (-w.toInt).toNat).isNone
    | _ => false

theorem writeNumber_eq {room radix : Nat} (hr : 2 ≤ radix) (hroom : 2 ^ 32 ≤ radix ^ room)
    (char : Nat → Char) (n : Word) : ∃ t, writeNumber room radix char n = .ok (t, BitVec.ofNat 32 t.length) := by
  unfold writeNumber
  by_cases hn : n = 0
  · exact ⟨[char 0], by rw [if_pos hn]; rfl⟩
  · rw [if_neg hn, Printf.numStack_eq hr (n.isLt.trans_le hroom)]
    exact ⟨_, by rw [List.length_map, List.length_reverse]; rfl⟩

theorem screenWriteRadix_eq (radix : Nat) (hr : 8 ≤ radix) (n : Word) :
    ∃ t, screenWriteRadix n radix = .ok (t, BitVec.ofNat 32 t.length) := by
  apply writeNumber_eq (by omega)
  calc 2 ^ 32 ≤ 8 ^ 12 := by norm_num
    _ ≤ radix ^ 12 := Nat.pow_le_pow_left hr 12

theorem screenWriteHex_eq (n : Word) : ∃ t, screenWriteHex n = .ok (t, BitVec.ofNat 32 t.length) :=
  writeNumber_eq (by norm_num) (by norm_num) _ n

theorem cgaPuts_eq (s : List Char) (i : Word) : cgaPuts s i = (s, i + BitVec.ofNat 32 s.length) := by
  induction s generalizing i with
  | nil => simp [cgaPuts]
  | cons c s ih =>
    rw [cgaPuts, ih, List.length_cons, Nat.add_comm s.length, BitVec.ofNat_add, ← BitVec.add_assoc]
    rfl

theorem consolePuts_eq (s : List Char) : consolePuts s = (s, BitVec.ofNat 32 s.length) := by
  rw [consolePuts, cgaPuts_eq]
  exact congrArg _ (BitVec.zero_add _)

theorem Fits.word {c : Char} {ap : List Arg} (h : Fits (c, argOf c ap)) (hc : TakesWord c) :
    ∃ w ap', ap = .word w :: ap' := by
  obtain ⟨w, hw⟩ := h.1 hc
  rw [argOf, if_pos (.inl hc)] at hw
  cases ap with
  | nil => cases hw
  | cons a ap' => exact ⟨w, ap', by rw [Option.some.inj hw]⟩

theorem Fits.str {ap : List Arg} (h : Fits ('s', argOf 's' ap)) : ∃ t ap', ap = .str t :: ap' := by
  obtain ⟨t, ht⟩ := h.2 rfl
  rw [argOf, if_pos (.inr rfl)] at ht
  cases ap with
  | nil => cases ht
  | cons a ap' => exact ⟨t, ap', by rw [Option.some.inj ht]⟩

/-- What `%e` puts: nothing, or the text of the error, which it needs to have. -/
theorem printError_eq (w : Word) : if noText ('e', some (.word w)) then printError w = .error .badArg
    else ∃ t, printError w = .ok (t, BitVec.ofNat 32 t.length) := by
  rw [printError]
  dsimp only [noText]
  by_cases hrange : 1 ≤ -w.toInt ∧ -w.toInt ≤ Printf.MAXERROR
  · have hn : ¬ (-w.toInt > Printf.MAXERROR ∨ -w.toInt < 1) := by omega
    rw [if_neg hn]
    obtain ⟨o, ho⟩ : ∃ o, Printf.errString (-w.toInt).toNat = o := ⟨_, rfl⟩
    simp only [ho]
    cases o with
    | none => simp [hrange]
    | some t => simp [consolePuts_eq]
  · have hn : -w.toInt > Printf.MAXERROR ∨ -w.toInt < 1 := by omega
    simp [hrange, hn]

/-- A directive counts what it puts, but for the minus sign; the one of an error without a text reads
    behind the table of texts. -/
def Counts (c : Char) (ap : List Arg) : Prop :=
  if noText (c, argOf c ap) then directive c ap = .error .badArg
  else ∃ t k, directive c ap = .ok (t, k, leaves c ap) ∧
    k + (if negative (c, argOf c ap) then 1 else 0) = BitVec.ofNat 32 t.length

/-- What a directive is to do with a word: `text` is the result of its writer, and `k` what it adds. -/
theorem Counts.word {c : Char} {w : Word} {ap : List Arg} {t : List Char} {k : Word} (hc : TakesWord c)
    (hrun : directive c (.word w :: ap) = .ok (t, k, ap))
    (hk : k + (if negative (c, some (.word w)) then 1 else 0) = BitVec.ofNat 32 t.length)
    (htext : noText (c, some (.word w)) = false) : Counts c (.word w :: ap) := by
  have harg : argOf c (.word w :: ap) = some (.word w) := if_pos (.inl hc)
  have hleaves : leaves c (.word w :: ap) = ap := if_pos (.inl hc)
  unfold Counts
  rw [harg, hleaves, htext, if_neg Bool.false_ne_true]
  exact ⟨t, k, hrun, hk⟩

/-- `%d` does not count the minus sign. -/
theorem counts_decimal (w : Word) (ap : List Arg) : Counts 'd' (.word w :: ap) := by
  by_cases hneg : w.toInt < 0
  · obtain ⟨t, ht⟩ := screenWriteRadix_eq 10 (by omega) (w * (-1))
    refine .word (t := '-' :: t) (k := BitVec.ofNat 32 t.length) (by decide) ?_ ?_ rfl
    · show (if w.toInt < 0 then _ else _) = _
      rw [if_pos hneg, ht]
      rfl
    · simp [negative, hneg, BitVec.ofNat_add]
  · obtain ⟨t, ht⟩ := screenWriteRadix_eq 10 (by omega) w
    refine .word (t := t) (k := BitVec.ofNat 32 t.length) (by decide) ?_ ?_ rfl
    · show (if w.toInt < 0 then _ else _) = _
      rw [if_neg hneg, ht]
      rfl
    · simp [negative, hneg]

/-- `%e` puts the text of an error number, if it has one. -/
theorem counts_error (w : Word) (ap : List Arg) : Counts 'e' (.word w :: ap) := by
  have hprint := printError_eq w
  by_cases htext : noText ('e', some (.word w)) = true
  · rw [if_pos htext] at hprint
    have harg : argOf 'e' (.word w :: ap) = some (.word w) := rfl
    unfold Counts
    rw [harg, if_pos htext]
    show ((printError w).bind fun r => .ok (r.1, r.2, ap)) = _
    rw [hprint]
    rfl
  · rw [if_neg htext] at hprint
    obtain ⟨t, ht⟩ := hprint
    refine .word (t := t) (k := BitVec.ofNat 32 t.length) (by decide) ?_ ?_ (by simpa using htext)
    · show ((printError w).bind fun r => .ok (r.1, r.2, ap)) = _
      rw [ht]
      rfl
    · simp [negative]

/-- **One directive**: it counts what it puts, but for the minus sign. -/
theorem directive_counts (c : Char) (ap : List Arg) (hfits : Fits (c, argOf c ap)) : Counts c ap := by
  by_cases hc : TakesWord c
  · obtain ⟨w, ap, rfl⟩ := hfits.word hc
    -- the six directives that take a word
    rcases hc with rfl | rfl | rfl | rfl | rfl | rfl
    · obtain ⟨t, ht⟩ := screenWriteRadix_eq 8 (by omega) w
      refine .word (t := '0' :: t) (k := 1 + BitVec.ofNat 32 t.length) (by decide) ?_ ?_ rfl
      · show ((screenWriteRadix w 8).bind fun r => .ok ('0' :: r.1, 1 + r.2, ap)) = _
        rw [ht]
        rfl
      · simp [negative, Nat.add_comm t.length, BitVec.ofNat_add]
    · exact counts_decimal w ap
    · obtain ⟨t, ht⟩ := screenWriteRadix_eq 10 (by omega) w
      refine .word (t := t) (k := BitVec.ofNat 32 t.length) (by decide) ?_ ?_ rfl
      · show ((screenWriteRadix w 10).bind fun r => .ok (r.1, r.2, ap)) = _
        rw [ht]
        rfl
      · simp [negative]
    · obtain ⟨t, ht⟩ := screenWriteHex_eq w
      refine .word (t := t) (k := BitVec.ofNat 32 t.length) (by decide) ?_ ?_ rfl
      · show ((screenWriteHex w).bind fun r => .ok (r.1, r.2, ap)) = _
        rw [ht]
        rfl
      · simp [negative]
    · obtain ⟨t, ht⟩ := screenWriteHex_eq w
      refine .word (t := '0' :: 'x' :: t) (k := BitVec.ofNat 32 t.length + 2) (by decide) ?_ ?_ rfl
      · show ((screenWriteHex w).bind fun r => .ok ('0' :: 'x' :: r.1, r.2 + 2, ap)) = _
        rw [ht]
        rfl
      · simp [negative, BitVec.ofNat_add, BitVec.add_assoc]
    · exact counts_error w ap
  unfold Counts
  by_cases hs : c = 's'
  · subst hs
    obtain ⟨t, ap, rfl⟩ := hfits.str
    rw [show noText ('s', argOf 's' (.str t :: ap)) = false from rfl, if_neg Bool.false_ne_true]
    refine ⟨t, BitVec.ofNat 32 t.length, ?_, by simp [negative]⟩
    show Except.ok ((consolePuts t).1, (consolePuts t).2, ap) = _
    rw [consolePuts_eq]
    rfl
  · -- any other character is put as it is
    have hd : c ≠ 'd' := fun h => hc (by simp [TakesWord, h])
    have he : c ≠ 'e' := fun h => hc (by simp [TakesWord, h])
    have hleaves : leaves c ap = ap := if_neg fun h => h.elim hc hs
    rw [show noText (c, argOf c ap) = false by simp [noText, he], if_neg Bool.false_ne_true, hleaves]
    refine ⟨[c], 1, ?_, by simp [negative, hd]⟩
    unfold directive
    split <;> first | rfl | exact absurd rfl hs | exact absurd (by decide) hc

/-! ## §5 Whole formats -/

section Loop

variable {s ds : List Char} {b : Bool} {ap : List Arg}

/-! One turn for each kind of part. -/

theorem vprintfmtLoop_char {c : Char} (hper : c ≠ '%') (hesc : c ≠ '\x1b') (turns : Nat) (s : List Char)
    (ap : List Arg) (count : Word) : vprintfmtLoop (turns + 1) (c :: s) ap count =
      (vprintfmtLoop turns s ap (count + 1)).bind fun r => .ok (c :: r.1, r.2) := by
  rw [vprintfmtLoop.eq_def]
  exact if_pos ⟨hper, hesc⟩

theorem vprintfmtLoop_controller (turns : Nat) (s : List Char) (ap : List Arg) (count : Word) :
    vprintfmtLoop (turns + 1) ('\x1b' :: s) ap count =
      (Printf.setLocalAttr 1 s).bind fun s => vprintfmtLoop turns s ap count := by
  rw [vprintfmtLoop.eq_def]
  rfl

theorem vprintfmtLoop_directive (turns : Nat) (c : Char) (s : List Char) (ap : List Arg) (count : Word) :
    vprintfmtLoop (turns + 1) ('%' :: c :: s) ap count =
      (directive c ap).bind fun r => (vprintfmtLoop turns s r.2.2 (count + r.2.1)).bind fun r' =>
        .ok (r.1 ++ r'.1, r'.2) := by
  rw [vprintfmtLoop.eq_def]
  rfl

/-- **A format that ends where a part ends**: everything is counted but the minus signs. -/
theorem vprintfmtLoop_ok (hr : Reads s ds true) (hfits : ∀ q ∈ given ds ap, Fits q)
    (htext : ∀ q ∈ given ds ap, noText q = false) {turns : Nat} (hturns : s.length ≤ turns) (count : Word) :
    ∃ t k, vprintfmtLoop turns s ap count = .ok (t, count + k) ∧
      k + BitVec.ofNat 32 ((given ds ap).countP negative) = BitVec.ofNat 32 t.length := by
  generalize hb : true = b at hr
  induction hr generalizing ap turns count with
  | done => exact ⟨[], 0, by rw [vprintfmtLoop]; simp, by simp [given]⟩
  | percent => cases hb
  | cut _ => cases hb
  | @char c s ds b hper hesc _ ih =>
    obtain ⟨turns, rfl⟩ : ∃ m, turns = m + 1 := ⟨turns - 1, by simp at hturns; omega⟩
    -- an ordinary character is put and counted
    obtain ⟨t, k, hrun, hk⟩ := ih hfits htext (by simpa using hturns) (count + 1) hb
    refine ⟨c :: t, 1 + k, ?_, ?_⟩
    · rw [vprintfmtLoop_char hper hesc, hrun, BitVec.add_assoc]
      rfl
    · rw [BitVec.add_assoc, hk, List.length_cons, Nat.add_comm, BitVec.ofNat_add]
      rfl
  | @directive c s ds b _ ih =>
    obtain ⟨turns, rfl⟩ : ∃ m, turns = m + 1 := ⟨turns - 1, by simp at hturns; omega⟩
    have hq : (c, argOf c ap) ∈ given (c :: ds) ap := List.mem_cons_self
    have hdir := directive_counts c ap (hfits _ hq)
    rw [Counts, htext _ hq, if_neg Bool.false_ne_true] at hdir
    -- the directive counts its characters, but for a minus sign
    obtain ⟨t₁, k₁, hrun₁, hk₁⟩ := hdir
    obtain ⟨t, k, hrun, hk⟩ := ih (show ∀ q ∈ given ds (leaves c ap), Fits q from fun q h =>
      hfits q (List.mem_cons_of_mem _ h))
      (fun q h => htext q (List.mem_cons_of_mem _ h)) (show s.length ≤ turns by simp at hturns; omega) (count + k₁) hb
    refine ⟨t₁ ++ t, k₁ + k, ?_, ?_⟩
    · rw [vprintfmtLoop_directive, hrun₁, ← BitVec.add_assoc]
      show (vprintfmtLoop turns s (leaves c ap) (count + k₁)).bind _ = _
      rw [hrun]
      rfl
    · rw [given, List.countP_cons, List.length_append, BitVec.ofNat_add, BitVec.ofNat_add, ← hk, ← hk₁]
      have hsign : BitVec.ofNat 32 (if negative (c, argOf c ap) = true then 1 else 0) =
          (if negative (c, argOf c ap) = true then 1 else 0 : Word) := by split <;> rfl
      rw [hsign]
      ac_rfl
  | @controller u s ds b htook _ ih =>
    obtain ⟨turns, rfl⟩ : ∃ m, turns = m + 1 := ⟨turns - 1, by simp at hturns; omega⟩
    -- a colour controller puts nothing and is not counted
    obtain ⟨t, k, hrun, hk⟩ := ih hfits htext (show s.length ≤ turns by simp at hturns; omega) count hb
    refine ⟨t, k, ?_, hk⟩
    rw [vprintfmtLoop_controller, setLocalAttr_took htook]
    exact hrun

/-- **Otherwise** the formatter reads behind the format, or the text of an error that has none. -/
theorem vprintfmtLoop_error (hr : Reads s ds b) (hfits : ∀ q ∈ given ds ap, Fits q)
    (hbad : b = false ∨ ∃ q ∈ given ds ap, noText q = true) {turns : Nat} (hturns : s.length ≤ turns)
    (count : Word) : ∃ e, vprintfmtLoop turns s ap count = .error e := by
  induction hr generalizing ap turns count with
  | done => simp [given] at hbad
  | percent =>
    obtain ⟨turns, rfl⟩ : ∃ m, turns = m + 1 := ⟨turns - 1, by simp at hturns; omega⟩
    -- the character behind the last `%` is the terminator
    exact ⟨.overread, rfl⟩
  | cut hcut =>
    obtain ⟨turns, rfl⟩ : ∃ m, turns = m + 1 := ⟨turns - 1, by simp at hturns; omega⟩
    refine ⟨.overread, ?_⟩
    rw [vprintfmtLoop_controller, setLocalAttr_cut hcut]
    rfl
  | @char c s ds b hper hesc _ ih =>
    obtain ⟨turns, rfl⟩ : ∃ m, turns = m + 1 := ⟨turns - 1, by simp at hturns; omega⟩
    obtain ⟨e, hrun⟩ := ih hfits hbad (by simpa using hturns) (count + 1)
    refine ⟨e, ?_⟩
    rw [vprintfmtLoop_char hper hesc, hrun]
    rfl
  | @directive c s ds b _ ih =>
    obtain ⟨turns, rfl⟩ : ∃ m, turns = m + 1 := ⟨turns - 1, by simp at hturns; omega⟩
    have hdir := directive_counts c ap (hfits _ List.mem_cons_self)
    unfold Counts at hdir
    rw [vprintfmtLoop_directive]
    by_cases htext : noText (c, argOf c ap) = true
    · rw [if_pos htext] at hdir
      -- this error number has no text
      refine ⟨.badArg, ?_⟩
      rw [hdir]
      rfl
    · rw [if_neg htext] at hdir
      obtain ⟨t₁, k₁, hrun₁, -⟩ := hdir
      -- the fault is behind this directive
      have hrest : b = false ∨ ∃ q ∈ given ds (leaves c ap), noText q = true := by
        refine hbad.imp_right fun ⟨q, hq, hn⟩ => ?_
        rcases List.mem_cons.1 hq with rfl | hq
        · exact absurd hn htext
        · exact ⟨q, hq, hn⟩
      obtain ⟨e, hrun⟩ := ih (fun q h => hfits q (List.mem_cons_of_mem _ h)) hrest
        (show s.length ≤ turns by simp at hturns; omega) (count + k₁)
      refine ⟨e, ?_⟩
      rw [hrun₁]
      show (vprintfmtLoop turns s (leaves c ap) (count + k₁)).bind _ = _
      rw [hrun]
      rfl
  | @controller u s ds b htook _ ih =>
    obtain ⟨turns, rfl⟩ : ∃ m, turns = m + 1 := ⟨turns - 1, by simp at hturns; omega⟩
    obtain ⟨e, hrun⟩ := ih hfits hbad (show s.length ≤ turns by simp at hturns; omega) count
    refine ⟨e, ?_⟩
    rw [vprintfmtLoop_controller, setLocalAttr_took htook]
    exact hrun

theorem length_given (ds : List Char) (ap : List Arg) : (given ds ap).length = ds.length := by
  induction ds generalizing ap with
  | nil => rfl
  | cons c ds ih => rw [given, List.length_cons, ih, List.length_cons]

theorem Reads.length_le (hr : Reads s ds b) : ds.length ≤ s.length := by
  induction hr with
  | done | percent | cut _ => exact Nat.zero_le _
  | char _ _ _ ih => exact ih.trans (Nat.le_succ _)
  | directive _ ih => simp; omega
  | controller _ _ ih => simp; omega

end Loop

/-- The formatter ends without reading behind the format, and adds to `*cnt` the number of characters
    that it puts. -/
def Respects (str : List Char) (cnt : Word) (ap : List Arg) : Prop :=
  ∃ t cnt', vprintfmt str cnt ap = .ok (t, cnt') ∧ cnt' = cnt + BitVec.ofNat 32 t.length

/-- **When `vprintfmt` respects its format**: no `%` and no colour controller is cut off by the end of the
    format, no `%d` has a negative number, and the error numbers have texts. -/
theorem vprintfmt_respects_iff (str : List Char) (cnt : Word) (ap : List Arg) (hlen : str.length < 2 ^ 32)
    (hm : Matching str ap) : Respects str cnt ap ↔
      ∃ ds, Reads str ds true ∧ ∀ q ∈ given ds ap, negative q = false ∧ noText q = false := by
  constructor
  · rintro ⟨t, cnt', hrun, hcnt⟩
    obtain ⟨ds, b, hr⟩ := exists_reads str
    have hfits := hm ds b hr
    rw [vprintfmt] at hrun
    by_cases hbad : b = false ∨ ∃ q ∈ given ds ap, noText q = true
    · obtain ⟨e, herr⟩ := vprintfmtLoop_error hr hfits hbad le_rfl 0
      rw [herr] at hrun
      cases hrun
    · simp only [not_or, Bool.not_eq_false, not_exists, not_and, Bool.not_eq_true] at hbad
      obtain ⟨rfl, htext⟩ := hbad
      obtain ⟨t', k, hok, hk⟩ := vprintfmtLoop_ok hr hfits htext le_rfl 0
      rw [hok] at hrun
      obtain ⟨rfl, rfl⟩ := Prod.mk.inj (Except.ok.inj hrun)
      refine ⟨ds, hr, fun q hq => ⟨?_, htext q hq⟩⟩
      -- there are fewer directives than numbers, so that the count of minus signs does not wrap to zero
      have hk' : k = BitVec.ofNat 32 t'.length := by
        have h := (BitVec.add_right_inj cnt).1 hcnt
        rwa [show (0 : Word) + k = k from BitVec.zero_add k] at h
      have hzero : BitVec.ofNat 32 ((given ds ap).countP negative) = 0 := by
        rw [hk'] at hk
        exact (BitVec.add_right_inj _).1 (hk.trans (BitVec.add_zero _).symm)
      have hlt : (given ds ap).countP negative < 2 ^ 32 :=
        (List.countP_le_length.trans (length_given ds ap).le).trans_lt (hr.length_le.trans_lt hlen)
      have hcount : (given ds ap).countP negative = 0 := by
        have h := congrArg BitVec.toNat hzero
        rwa [BitVec.toNat_ofNat, Nat.mod_eq_of_lt hlt] at h
      simpa using List.countP_eq_zero.1 hcount q hq
  · rintro ⟨ds, hr, hgood⟩
    obtain ⟨t, k, hok, hk⟩ := vprintfmtLoop_ok hr (hm ds true hr) (fun q hq => (hgood q hq).2) le_rfl 0
    have hcount : (given ds ap).countP negative = 0 :=
      List.countP_eq_zero.2 fun q hq => by simp [(hgood q hq).1]
    refine ⟨t, cnt + (0 + k), by rw [vprintfmt, hok]; rfl, ?_⟩
    rw [hcount] at hk
    rw [← hk]
    congr 1
    exact (BitVec.zero_add k).trans (BitVec.add_zero k).symm

theorem vprintfmt_respects_iff_sample :
    Respects ['%', 'd'] 0 [.word 5] ↔
      ∃ ds, Reads ['%', 'd'] ds true ∧ ∀ q ∈ given ds [.word 5], negative q = false ∧ noText q = false := by
  refine vprintfmt_respects_iff ['%', 'd'] 0 [.word 5] (by decide) fun ds b hr => ?_
  cases hr with
  | char hper _ _ => exact absurd rfl hper
  | directive hr =>
    cases hr
    intro q hq
    rw [List.mem_singleton.1 hq]
    exact ⟨fun _ => ⟨5, rfl⟩, fun h => absurd h (by decide)⟩

/-- The format `%` is read behind its terminator. -/
theorem vprintfmt_overreads : ¬ ∀ (str : List Char) (cnt : Word) (ap : List Arg), str.length < 2 ^ 32 →
    Matching str ap → Respects str cnt ap := by
  intro hall
  obtain ⟨t, cnt', hrun, -⟩ := hall ['%'] 0 [] (by decide) fun ds b hr => by
    cases hr with
    | percent => simp [given]
    | char hper _ _ => exact absurd rfl hper
  cases hrun

/-! ## §6 The characters -/

section Text

variable {ap : List Arg}

theorem writeNumber_fst (room radix : Nat) (char : Nat → Char) (n : Word) :
    (writeNumber room radix char n).map Prod.fst = Printf.writeNumber room radix char n := by
  unfold writeNumber Printf.writeNumber
  split
  · rfl
  · cases Printf.numStack radix room n.toNat <;> rfl

theorem printError_fst (w : Word) : (printError w).map Prod.fst = Printf.printError w := by
  unfold printError Printf.printError
  dsimp only
  split
  · rfl
  · cases Printf.errString (-w.toInt).toNat with
    | none => rfl
    | some t => simp [consolePuts_eq, Except.map]

/-- A directive puts what the formatter without the count puts. -/
theorem directive_text (c : Char) (ap : List Arg) :
    (directive c ap).map (fun r => (r.1, r.2.2)) = Printf.kernelDirective c ap := by
  unfold directive Printf.kernelDirective
  split
  · rcases ap with _ | ⟨w | t, ap⟩
    · rfl
    · show ((writeNumber 12 8 Printf.radixChar w).bind _).map _ = (Printf.writeNumber 12 8 Printf.radixChar w).bind _
      rw [← writeNumber_fst]
      cases writeNumber 12 8 Printf.radixChar w <;> rfl
    · rfl
  · rcases ap with _ | ⟨w | t, ap⟩
    · rfl
    · show (if w.toInt < 0 then _ else _ : Except Err (List Char × Word × List Arg)).map _ =
        (Printf.kernelDec w).bind _
      rw [Printf.kernelDec]
      split
      · show ((writeNumber 12 10 Printf.radixChar (w * (-1))).bind _).map _ =
          ((Printf.writeNumber 12 10 Printf.radixChar (w * (-1))).bind _).bind _
        rw [← writeNumber_fst]
        cases writeNumber 12 10 Printf.radixChar (w * (-1)) <;> rfl
      · show ((writeNumber 12 10 Printf.radixChar w).bind _).map _ =
          (Printf.writeNumber 12 10 Printf.radixChar w).bind _
        rw [← writeNumber_fst]
        cases writeNumber 12 10 Printf.radixChar w <;> rfl
    · rfl
  · rcases ap with _ | ⟨w | t, ap⟩
    · rfl
    · show ((writeNumber 12 10 Printf.radixChar w).bind _).map _ = (Printf.writeNumber 12 10 Printf.radixChar w).bind _
      rw [← writeNumber_fst]
      cases writeNumber 12 10 Printf.radixChar w <;> rfl
    · rfl
  · rcases ap with _ | ⟨w | t, ap⟩
    · rfl
    · show ((writeNumber 8 16 Printf.hexChar w).bind _).map _ = (Printf.writeNumber 8 16 Printf.hexChar w).bind _
      rw [← writeNumber_fst]
      cases writeNumber 8 16 Printf.hexChar w <;> rfl
    · rfl
  · rcases ap with _ | ⟨w | t, ap⟩
    · rfl
    · show ((writeNumber 8 16 Printf.hexChar w).bind _).map _ = (Printf.writeNumber 8 16 Printf.hexChar w).bind _
      rw [← writeNumber_fst]
      cases writeNumber 8 16 Printf.hexChar w <;> rfl
    · rfl
  · rcases ap with _ | ⟨w | t, ap⟩
    · rfl
    · rfl
    · show Except.ok ((consolePuts t).1, ap) = _
      rw [consolePuts_eq]
      rfl
  · rcases ap with _ | ⟨w | t, ap⟩
    · rfl
    · show ((printError w).bind _).map _ = (Printf.printError w).bind _
      rw [← printError_fst]
      cases printError w <;> rfl
    · rfl
  · first | rfl | (split <;> first | rfl | contradiction)

/-- **The characters** are those of the formatter without the count. -/
theorem vprintfmtLoop_text (turns : Nat) (s : List Char) (ap : List Arg) (count : Word) :
    (vprintfmtLoop turns s ap count).map Prod.fst = Printf.vprintfmtLoop turns s ap := by
  induction turns generalizing s ap count with
  | zero => cases s <;> rfl
  | succ turns ih =>
    rcases s with _ | ⟨c, s⟩
    · rfl
    -- a turn puts a controller, a directive or a character, in both models alike
    by_cases hesc : c = '\x1b'
    · subst hesc
      rw [vprintfmtLoop_controller, Printf.vprintfmtLoop.eq_def]
      show ((Printf.setLocalAttr 1 s).bind _).map _ = (Printf.setLocalAttr 1 s).bind _
      cases Printf.setLocalAttr 1 s with
      | error e => rfl
      | ok s => exact ih s ap count
    by_cases hper : c = '%'
    · subst hper
      rcases s with _ | ⟨c, s⟩
      · rfl
      rw [vprintfmtLoop_directive, Printf.vprintfmtLoop.eq_def]
      show ((directive c ap).bind _).map _ = (Printf.kernelDirective c ap).bind _
      rw [← directive_text]
      cases directive c ap with
      | error e => rfl
      | ok r =>
        show ((vprintfmtLoop turns s r.2.2 (count + r.2.1)).bind _).map _ =
          (Printf.vprintfmtLoop turns s r.2.2).bind _
        rw [← ih s r.2.2 (count + r.2.1)]
        cases vprintfmtLoop turns s r.2.2 (count + r.2.1) <;> rfl
    · rw [vprintfmtLoop_char hper hesc, Printf.vprintfmtLoop.eq_def]
      dsimp only
      rw [if_pos ⟨hper, hesc⟩, ← ih s ap (count + 1)]
      cases vprintfmtLoop turns s ap (count + 1) <;> rfl

/-- **The two models of the formatter** put the same characters. -/
theorem vprintfmt_text (str : List Char) (cnt : Word) (ap : List Arg) :
    (vprintfmt str cnt ap).map Prod.fst = Printf.vprintfmt str ap := by
  rw [vprintfmt, Printf.vprintfmt, ← vprintfmtLoop_text str.length str ap 0]
  cases vprintfmtLoop str.length str ap 0 <;> rfl

end Text

end WeiOS.Printfmt
