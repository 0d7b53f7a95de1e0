import Mathlib
import WeiOS.Lib.Run

/-!
# The Parser of the Shell

The recursive-descent parser of `user/sh.c`. A pointer into the command line is the list of the characters
from it up to the terminator, so that `*s` at the empty list is the terminator, and a pointer that is moved
past it is the error `overread`. `malloc` is taken to succeed. The loops and the recursion of the parser carry
a bound on their turns; that it is never reached is part of the results.

## Main results
- `parsecmd_iff`: the parser returns a tree exactly for the derivations of the grammar.
- `parsecmd_total`: otherwise it panics; it never reads past the terminator and never runs forever.
- `parsecmd_render`: a tree that the parser returns comes back from its own rendering.
-/

namespace WeiOS.Shell

open WeiOS.Lib

/-! ## §1 Commands -/

def MAXARGS : Nat := 10

def O_RDONLY : Nat := 0x1
def O_WRONLY : Nat := 0x2
def O_CREAT : Nat := 0x8

/-- The structures `execcmd`, `redircmd`, `pipecmd` and `backcmd` behind a `struct cmd *`. An empty slot of
    `argv` is a null pointer. -/
inductive Cmd
  | exec (argv : List (Option (List Char)))
  | redir (type : Char) (cmd : Cmd) (file : List Char) (mode fd : Nat)
  | pipe (left right : Cmd)
  | back (cmd : Cmd)
  deriving DecidableEq, Repr

inductive Err
  | panic (msg : String)
  /-- A pointer is moved past the terminator. -/
  | overread
  /-- A write behind the end of an array. -/
  | overflow
  /-- The bound on the turns is reached. -/
  | turns
  deriving DecidableEq, Repr

/-- `execcmd`. -/
def execcmd : Cmd := .exec (List.replicate MAXARGS none)

/-- `redircmd`. -/
def redircmd (subcmd : Cmd) (file : List Char) (type : Char) : Cmd :=
  .redir type subcmd file (if type = '<' then O_RDONLY else O_WRONLY ||| O_CREAT)
    (if type = '<' then 0 else 1)

/-- The assignment `cmd->argv[argc] = arg`, where `cmd` is the `execcmd` at the bottom of the redirections
    wrapped around it so far. -/
def Cmd.setArg (argc : Nat) (arg : Option (List Char)) : Cmd → Cmd
  | .exec argv => .exec (argv.set argc arg)
  | .redir type cmd file mode fd => .redir type (cmd.setArg argc arg) file mode fd
  | cmd => cmd

def storeArg (cmd : Cmd) (argc : Nat) (arg : Option (List Char)) : Except Err Cmd :=
  if argc < MAXARGS then .ok (cmd.setArg argc arg) else .error .overflow

/-! ## §2 Tokens -/

def whitespace : List Char := [' ', '\t', '\r', '\n', '\x0b']

def symbols : List Char := ['<', '|', '>', '&']

/-- `strchr`, as a test. -/
def strchr (s : List Char) (c : Char) : Bool := decide (c ∈ s)

/-- The character under a pointer. -/
def deref : List Char → Char
  | [] => '\x00'
  | c :: _ => c

/-- `s++`. -/
def next : List Char → Except Err (List Char)
  | [] => .error .overread
  | _ :: s => .ok s

/-- The loop `while (s < es && strchr(whitespace, *s)) s++`. -/
def skipSpace : List Char → List Char
  | [] => []
  | c :: s => if strchr whitespace c then skipSpace s else c :: s

/-- The loop over the characters of a word. -/
def skipWord : List Char → List Char
  | [] => []
  | c :: s => if !strchr whitespace c && !strchr symbols c then skipWord s else c :: s

/-- The result of `gettoken`: the kind of token, its two ends, and the pointer behind it. -/
structure Token where
  ret : Char
  q : List Char
  eq : List Char
  ps : List Char
  deriving DecidableEq, Repr

/-- `gettoken`. -/
def gettoken (ps : List Char) : Except Err Token := do
  let s := skipSpace ps
  let c := deref s
  let e ←
    if c = '\x00' then .ok s
    else if c = '&' ∨ c = '|' ∨ c = '<' ∨ c = '>' then next s
    else .ok (skipWord s)
  let ret := if c = '\x00' ∨ c = '&' ∨ c = '|' ∨ c = '<' ∨ c = '>' then c else 'a'
  .ok ⟨ret, s, e, skipSpace e⟩

/-- `peek`: the answer, and the pointer behind the spaces. -/
def peek (ps toks : List Char) : Bool × List Char :=
  let s := skipSpace ps
  (decide (deref s ≠ '\x00') && strchr toks (deref s), s)

/-- `safe_copy`. For `src = des` the copying loop would write behind the one byte that is allocated. -/
def safeCopy (src des : List Char) : Except Err (List Char) :=
  let n := src.length - des.length
  if n = 0 then .error .overflow else .ok (src.take n)

/-! ## §3 The parser -/

/-- `parseredirs`. -/
def parseredirs : Nat → Cmd → List Char → Except Err (Cmd × List Char)
  | 0, _, _ => .error .turns
  | turns + 1, cmd, ps =>
    let p := peek ps ['<', '>']
    if p.1 then do
      let tok ← gettoken p.2
      let arg ← gettoken tok.ps
      if arg.ret ≠ 'a' then
        .error (.panic "missing file for redirection!!!\n")
      else if tok.ret = '<' then do
        let file ← safeCopy arg.q arg.eq
        parseredirs turns (redircmd cmd file '<') arg.ps
      else if tok.ret = '>' then do
        let file ← safeCopy arg.q arg.eq
        parseredirs turns (redircmd cmd file '>') arg.ps
      else
        parseredirs turns cmd arg.ps
    else
      .ok (cmd, p.2)

/-- The last statement of `parseexec`, which ends the vector. -/
def endArgs (argc : Nat) (ret : Cmd) (ps : List Char) : Except Err (Cmd × List Char) := do
  let ret ← storeArg ret argc none
  .ok (ret, ps)

/-- The loop of `parseexec`. -/
def parseargs : Nat → Nat → Cmd → List Char → Except Err (Cmd × List Char)
  | 0, _, _, _ => .error .turns
  | turns + 1, argc, ret, ps =>
    let p := peek ps ['|', '&']
    if p.1 then
      endArgs argc ret p.2
    else do
      let tok ← gettoken p.2
      if tok.ret = '\x00' then
        endArgs argc ret tok.ps
      else if tok.ret ≠ 'a' then
        .error (.panic "syntax error!!!\n")
      else do
        let arg ← safeCopy tok.q tok.eq
        let ret ← storeArg ret argc (some arg)
        if argc + 1 ≥ MAXARGS then
          .error (.panic "too many args!!!\n")
        else do
          let r ← parseredirs (tok.ps.length + 1) ret tok.ps
          parseargs turns (argc + 1) r.1 r.2

/-- `parseexec`. -/
def parseexec (ps : List Char) : Except Err (Cmd × List Char) := do
  let r ← parseredirs (ps.length + 1) execcmd ps
  parseargs (r.2.length + 1) 0 r.1 r.2

/-- `parsepipe`. -/
def parsepipe : Nat → List Char → Except Err (Cmd × List Char)
  | 0, _ => .error .turns
  | turns + 1, ps => do
    let l ← parseexec ps
    let p := peek l.2 ['|']
    if p.1 then do
      let tok ← gettoken p.2
      let r ← parsepipe turns tok.ps
      .ok (.pipe l.1 r.1, r.2)
    else
      .ok (l.1, p.2)

/-- The loop of `parseline`. -/
def parseback : Nat → Cmd → List Char → Except Err (Cmd × List Char)
  | 0, _, _ => .error .turns
  | turns + 1, cmd, ps =>
    let p := peek ps ['&']
    if p.1 then do
      let tok ← gettoken p.2
      parseback turns (.back cmd) tok.ps
    else
      .ok (cmd, p.2)

/-- `parseline`. -/
def parseline (ps : List Char) : Except Err (Cmd × List Char) := do
  let r ← parsepipe (ps.length + 1) ps
  parseback (r.2.length + 1) r.1 r.2

/-- `parsecmd`. -/
def parsecmd (s : List Char) : Except Err Cmd := do
  let r ← parseline s
  let p := peek r.2 []
  if p.2 ≠ [] then
    .error (.panic "parsecmd error!!!\n")
  else
    .ok r.1

/-! ## §4 The grammar -/

/-- A character of a word. -/
def WordChar (c : Char) : Prop := c ∉ whitespace ∧ c ∉ symbols

/-- A word is a non-empty run of characters other than whitespace and symbols; being part of a C string,
    it does not contain the terminator. -/
structure Word (w : List Char) : Prop where
  ne_nil : w ≠ []
  no_nul : '\x00' ∉ w
  chars : ∀ c ∈ w, WordChar c

inductive Tok
  | sym (c : Char)
  | word (w : List Char)

/-- The string is made of these tokens, with whitespace where one likes. A word is a maximal run: the
    character behind it, if any, is not a word character. -/
inductive Spells : List Tok → List Char → Prop
  | nil {ws : List Char} (hws : ∀ c ∈ ws, c ∈ whitespace) : Spells [] ws
  | sym {ws : List Char} {c : Char} {ts : List Tok} {s : List Char}
      (hws : ∀ c ∈ ws, c ∈ whitespace) (hc : c ∈ symbols) (hs : Spells ts s) :
      Spells (.sym c :: ts) (ws ++ c :: s)
  | word {ws w : List Char} {ts : List Tok} {s : List Char}
      (hws : ∀ c ∈ ws, c ∈ whitespace) (hw : Word w) (hend : ∀ c ∈ s.head?, ¬ WordChar c)
      (hs : Spells ts s) : Spells (.word w :: ts) (ws ++ (w ++ s))

/-- `redir = ('<' | '>') word`. -/
structure Redir where
  type : Char
  file : List Char

def Redir.tokens (r : Redir) : List Tok := [.sym r.type, .word r.file]

def Redir.Ok (r : Redir) : Prop := r.type = '<' ∨ r.type = '>'

/-- `exec = redir* (word redir*)*`. -/
structure Exec where
  redirs : List Redir
  args : List (List Char × List Redir)

def argTokens (a : List Char × List Redir) : List Tok := .word a.1 :: a.2.flatMap Redir.tokens

def Exec.tokens (e : Exec) : List Tok := e.redirs.flatMap Redir.tokens ++ e.args.flatMap argTokens

/-- Every redirection is one, and there are at most `MAXARGS - 1` words. -/
structure Exec.Ok (e : Exec) : Prop where
  redirs : ∀ r ∈ e.redirs, r.Ok
  args : ∀ a ∈ e.args, ∀ r ∈ a.2, r.Ok
  count : e.args.length ≤ MAXARGS - 1

/-- `pipe = exec ['|' pipe]`. -/
inductive Pipe
  | last (e : Exec)
  | cons (e : Exec) (p : Pipe)

def Pipe.tokens : Pipe → List Tok
  | .last e => e.tokens
  | .cons e p => e.tokens ++ .sym '|' :: p.tokens

def Pipe.Ok : Pipe → Prop
  | .last e => e.Ok
  | .cons e p => e.Ok ∧ p.Ok

/-- `line = pipe '&'*`. -/
structure Line where
  pipe : Pipe
  amps : Nat

def Line.tokens (d : Line) : List Tok := d.pipe.tokens ++ List.replicate d.amps (.sym '&')

/-- `d` is a derivation of the string `s`. -/
def Line.Derives (d : Line) (s : List Char) : Prop := d.pipe.Ok ∧ Spells d.tokens s

/-- The vector of the words, ended by null pointers. -/
def argvOf (ws : List (List Char)) : List (Option (List Char)) :=
  ws.map some ++ List.replicate (MAXARGS - ws.length) none

/-- Redirections wrap a command in the order in which they are read. -/
def wrap (rs : List Redir) (cmd : Cmd) : Cmd := rs.foldl (fun c r => redircmd c r.file r.type) cmd

def Exec.tree (e : Exec) : Cmd :=
  wrap (e.redirs ++ e.args.flatMap Prod.snd) (.exec (argvOf (e.args.map Prod.fst)))

def Pipe.tree : Pipe → Cmd
  | .last e => e.tree
  | .cons e p => .pipe e.tree p.tree

/-- The tree of a derivation. -/
def Line.tree (d : Line) : Cmd := Nat.iterate Cmd.back d.amps d.pipe.tree

/-! ## §5 The tokenizer reads the tokens -/

theorem skipSpace_append {ws : List Char} (hws : ∀ c ∈ ws, c ∈ whitespace) (s : List Char) :
    skipSpace (ws ++ s) = skipSpace s := by
  induction ws with
  | nil => rfl
  | cons c ws ih =>
    have hc : strchr whitespace c = true := decide_eq_true (hws c List.mem_cons_self)
    rw [List.cons_append, skipSpace, if_pos hc]
    exact ih fun d hd => hws d (List.mem_cons_of_mem c hd)

theorem skipSpace_cons {c : Char} (hc : c ∉ whitespace) (s : List Char) :
    skipSpace (c :: s) = c :: s := by
  have hc : ¬ strchr whitespace c = true := by simpa [strchr] using hc
  rw [skipSpace, if_neg hc]

theorem skipSpace_length_le (s : List Char) : (skipSpace s).length ≤ s.length := by
  induction s with
  | nil => exact le_refl 0
  | cons c s ih =>
    rw [skipSpace]
    split
    · exact ih.trans (Nat.le_succ _)
    · exact le_refl _

theorem skipWord_append {w : List Char} (hw : ∀ c ∈ w, WordChar c) {s : List Char}
    (hend : ∀ c ∈ s.head?, ¬ WordChar c) : skipWord (w ++ s) = s := by
  induction w with
  | nil =>
    cases s with
    | nil => rfl
    | cons c s =>
      have hc : ¬ WordChar c := hend c rfl
      rw [List.nil_append, skipWord, if_neg]
      simpa [WordChar, strchr] using hc
  | cons c w ih =>
    have hc : WordChar c := hw c List.mem_cons_self
    rw [List.cons_append, skipWord, if_pos]
    · exact ih fun d hd => hw d (List.mem_cons_of_mem c hd)
    · simpa [WordChar, strchr] using hc

theorem not_mem_whitespace_of_symbol {c : Char} (hc : c ∈ symbols) : c ∉ whitespace := by
  simp only [symbols, List.mem_cons, List.not_mem_nil, or_false] at hc
  obtain rfl | rfl | rfl | rfl := hc <;> decide

/-- The four forms of a pointer after `skipSpace`, by the tokens behind it. -/
theorem skipSpace_nil {s : List Char} (h : Spells [] s) : skipSpace s = [] := by
  cases h with
  | nil hws => simpa [skipSpace] using skipSpace_append hws []

theorem skipSpace_sym {c : Char} {ts : List Tok} {s : List Char} (h : Spells (.sym c :: ts) s) :
    ∃ s', skipSpace s = c :: s' ∧ c ∈ symbols ∧ Spells ts s' ∧ s'.length < s.length := by
  cases h with
  | @sym ws _ _ s' hws hc hs =>
    refine ⟨s', ?_, hc, hs, ?_⟩
    · rw [skipSpace_append hws, skipSpace_cons (not_mem_whitespace_of_symbol hc)]
    · simp only [List.length_append, List.length_cons]
      omega

theorem skipSpace_word {w : List Char} {ts : List Tok} {s : List Char}
    (h : Spells (.word w :: ts) s) :
    ∃ s', skipSpace s = w ++ s' ∧ Word w ∧ (∀ c ∈ s'.head?, ¬ WordChar c) ∧ Spells ts s' ∧
      s'.length < s.length := by
  cases h with
  | @word ws _ _ s' hws hw hend hs =>
    have hpos := List.length_pos_iff.2 hw.ne_nil
    refine ⟨s', ?_, hw, hend, hs, ?_⟩
    · obtain ⟨c, w, rfl⟩ := List.exists_cons_of_ne_nil hw.ne_nil
      rw [skipSpace_append hws, List.cons_append]
      exact skipSpace_cons (hw.chars c List.mem_cons_self).1 _
    · simp only [List.length_append]
      omega

theorem blank_nil : ∀ c ∈ ([] : List Char), c ∈ whitespace :=
  fun _ hc => absurd hc List.not_mem_nil

/-- Spaces before the tokens can be skipped. -/
theorem Spells.skip {ts : List Tok} {s : List Char} (h : Spells ts s) : Spells ts (skipSpace s) := by
  cases ts with
  | nil =>
    rw [skipSpace_nil h]
    exact .nil fun c hc => absurd hc List.not_mem_nil
  | cons t ts =>
    cases t with
    | sym c =>
      obtain ⟨s', hskip, hc, hs, _⟩ := skipSpace_sym h
      rw [hskip]
      have := Spells.sym blank_nil hc hs
      simpa using this
    | word w =>
      obtain ⟨s', hskip, hw, hend, hs, _⟩ := skipSpace_word h
      rw [hskip]
      have := Spells.word blank_nil hw hend hs
      simpa using this

theorem gettoken_nil {s : List Char} (h : Spells [] s) :
    gettoken s = .ok ⟨'\x00', [], [], []⟩ := by
  unfold gettoken
  rw [skipSpace_nil h]
  rfl

theorem gettoken_sym {c : Char} {ts : List Tok} {s : List Char} (h : Spells (.sym c :: ts) s) :
    ∃ tok, gettoken s = .ok tok ∧ tok.ret = c ∧ Spells ts tok.ps ∧ tok.ps.length < s.length := by
  obtain ⟨s', hskip, hc, hs, hlen⟩ := skipSpace_sym h
  refine ⟨⟨c, c :: s', s', skipSpace s'⟩, ?_, rfl, hs.skip, (skipSpace_length_le s').trans_lt hlen⟩
  have hkind : c = '&' ∨ c = '|' ∨ c = '<' ∨ c = '>' := by
    simp only [symbols, List.mem_cons, List.not_mem_nil, or_false] at hc
    tauto
  have hnul : c ≠ '\x00' := by
    obtain rfl | rfl | rfl | rfl := hkind <;> decide
  unfold gettoken
  simp only [hskip, deref, if_neg hnul, if_pos hkind, if_pos (Or.inr hkind), next, bind, Except.bind]

theorem gettoken_word {w : List Char} {ts : List Tok} {s : List Char}
    (h : Spells (.word w :: ts) s) :
    ∃ tok, gettoken s = .ok tok ∧ tok.ret = 'a' ∧ safeCopy tok.q tok.eq = .ok w ∧
      Spells ts tok.ps ∧ tok.ps.length < s.length := by
  obtain ⟨s', hskip, hw, hend, hs, hlen⟩ := skipSpace_word h
  refine ⟨⟨'a', w ++ s', s', skipSpace s'⟩, ?_, rfl, ?_, hs.skip,
    (skipSpace_length_le s').trans_lt hlen⟩
  · obtain ⟨c, v, rfl⟩ := List.exists_cons_of_ne_nil hw.ne_nil
    have hnul : c ≠ '\x00' := fun heq => hw.no_nul (heq ▸ List.mem_cons_self)
    have hkind : ¬ (c = '&' ∨ c = '|' ∨ c = '<' ∨ c = '>') := by
      have hc := (hw.chars c List.mem_cons_self).2
      simp only [symbols, List.mem_cons, List.not_mem_nil, or_false] at hc
      tauto
    have hskipw := skipWord_append hw.chars hend
    rw [List.cons_append] at hskip hskipw
    unfold gettoken
    simp only [hskip, deref, if_neg hnul, if_neg hkind, hskipw, bind, Except.bind, List.cons_append]
    rw [if_neg]
    tauto
  · have hpos := List.length_pos_iff.2 hw.ne_nil
    have hcount : (w ++ s').length - s'.length = w.length := by
      rw [List.length_append]
      omega
    unfold safeCopy
    simp only [hcount]
    rw [if_neg (by omega), List.take_left]

/-- The tokens start with one of these symbols. -/
def Starts (toks : List Char) (ts : List Tok) : Prop := ∃ c ∈ toks, ∃ ts', ts = .sym c :: ts'

/-- **`peek` tells whether the next token is one of the symbols asked for.** -/
theorem peek_iff {toks : List Char} (htoks : ∀ c ∈ toks, c ∈ symbols) {ts : List Tok}
    {s : List Char} (h : Spells ts s) : (peek s toks).1 = true ↔ Starts toks ts := by
  cases ts with
  | nil => simp [peek, skipSpace_nil h, deref, Starts]
  | cons t ts =>
    cases t with
    | sym c =>
      obtain ⟨s', hskip, hc, _, _⟩ := skipSpace_sym h
      have hnul : c ≠ '\x00' := by
        rintro rfl
        exact absurd hc (by decide)
      simp [peek, hskip, deref, Starts, strchr, hnul]
    | word w =>
      obtain ⟨s', hskip, hw, _, _, _⟩ := skipSpace_word h
      obtain ⟨c, v, rfl⟩ := List.exists_cons_of_ne_nil hw.ne_nil
      have hc : c ∉ toks := fun hmem => (hw.chars c List.mem_cons_self).2 (htoks c hmem)
      simp [peek, hskip, deref, Starts, strchr, hc]

theorem peek_snd (s toks : List Char) : (peek s toks).2 = skipSpace s := rfl

/-- Every string without the terminator is made of tokens. -/
theorem exists_spells (s : List Char) (hs : '\x00' ∉ s) : ∃ ts, Spells ts s := by
  induction hn : s.length using Nat.strong_induction_on generalizing s with
  | _ n ih =>
    subst hn
    cases s with
    | nil => exact ⟨[], .nil fun c hc => absurd hc List.not_mem_nil⟩
    | cons c s =>
      have hnul : '\x00' ∉ s := fun h => hs (List.mem_cons_of_mem c h)
      obtain ⟨ts, hts⟩ := ih s.length (Nat.lt_succ_self _) s hnul rfl
      by_cases hspace : c ∈ whitespace
      · -- a space in front changes nothing
        refine ⟨ts, ?_⟩
        cases hts with
        | @nil ws hws => exact .nil (List.forall_mem_cons.2 ⟨hspace, hws⟩)
        | @sym ws d us v hws hd hv =>
          have hblank : ∀ d ∈ c :: ws, d ∈ whitespace := List.forall_mem_cons.2 ⟨hspace, hws⟩
          exact Spells.sym hblank hd hv
        | @word ws w us v hws hw hend hv =>
          have hblank : ∀ d ∈ c :: ws, d ∈ whitespace := List.forall_mem_cons.2 ⟨hspace, hws⟩
          exact Spells.word hblank hw hend hv
      · by_cases hsym : c ∈ symbols
        · exact ⟨.sym c :: ts, .sym blank_nil hsym hts⟩
        · -- the word goes on as long as word characters follow
          have hpred : ∀ d, (decide (d ∉ whitespace ∧ d ∉ symbols)) = true ↔ WordChar d := by
            intro d
            exact decide_eq_true_iff
          let p : Char → Bool := fun d => decide (d ∉ whitespace ∧ d ∉ symbols)
          have hsplit : c :: s.takeWhile p ++ s.dropWhile p = c :: s := by
            rw [List.cons_append, List.takeWhile_append_dropWhile]
          obtain ⟨us, hus⟩ := ih (s.dropWhile p).length
            (Nat.lt_succ_of_le (List.dropWhile_suffix p).length_le) (s.dropWhile p)
            (fun h => hnul ((List.dropWhile_suffix p).subset h)) rfl
          refine ⟨.word (c :: s.takeWhile p) :: us, ?_⟩
          have hword : Word (c :: s.takeWhile p) := by
            refine ⟨List.cons_ne_nil _ _, ?_, ?_⟩
            · intro h
              obtain heq | hmem := List.mem_cons.1 h
              · exact hs (heq ▸ List.mem_cons_self)
              · exact hnul ((List.takeWhile_prefix p).subset hmem)
            · intro d hd
              obtain rfl | hmem := List.mem_cons.1 hd
              · exact ⟨hspace, hsym⟩
              · exact (hpred d).1 (List.mem_takeWhile_imp (p := p) hmem)
          have hend : ∀ d ∈ (s.dropWhile p).head?, ¬ WordChar d := by
            intro d hd hchar
            have hnot := List.head?_dropWhile_not p s
            rw [Option.mem_def] at hd
            rw [hd] at hnot
            have hp : p d = true := (hpred d).2 hchar
            simp [hp] at hnot
          have := Spells.word blank_nil hword hend hus
          rwa [List.nil_append, hsplit] at this

/-! ## §6 Redirections -/

theorem redir_symbols : ∀ c ∈ ['<', '>'], c ∈ symbols := by simp [symbols]

/-- One turn of `parseredirs` at a redirection. -/
theorem parseredirs_redir {r : Redir} (hr : r.Ok) {ts : List Tok} {s : List Char}
    (h : Spells (r.tokens ++ ts) s) (turns : Nat) (cmd : Cmd) :
    ∃ s', Spells ts s' ∧ s'.length < s.length ∧
      parseredirs (turns + 1) cmd s = parseredirs turns (redircmd cmd r.file r.type) s' := by
  have hstart : (peek s ['<', '>']).1 = true := by
    rw [peek_iff redir_symbols h]
    obtain heq | heq := hr
    · exact ⟨'<', by simp, _, by rw [← heq]; rfl⟩
    · exact ⟨'>', by simp, _, by rw [← heq]; rfl⟩
  obtain ⟨tok, htok, hret, hs, hlen⟩ := gettoken_sym h.skip
  obtain ⟨arg, harg, hreta, hcopy, hsa, hlena⟩ := gettoken_word hs
  have hle := skipSpace_length_le s
  refine ⟨arg.ps, hsa, by omega, ?_⟩
  rw [parseredirs]
  simp only [hstart, if_true, peek_snd, htok, harg, hreta, hret, bind, Except.bind, ne_eq,
    not_true_eq_false, if_false, hcopy]
  obtain heq | heq := hr
  · rw [heq, if_pos rfl]
  · rw [heq, if_neg (by decide), if_pos rfl]

/-- One turn of `parseredirs` where no redirection starts. -/
theorem parseredirs_done {ts : List Tok} {s : List Char} (h : Spells ts s)
    (hstart : ¬ Starts ['<', '>'] ts) (turns : Nat) (cmd : Cmd) :
    parseredirs (turns + 1) cmd s = .ok (cmd, skipSpace s) := by
  have hno : ¬ (peek s ['<', '>']).1 = true := mt (peek_iff redir_symbols h).1 hstart
  rw [parseredirs, if_neg hno]
  rfl

/-- One turn of `parseredirs` at a symbol without a word behind it. -/
theorem parseredirs_panic {c : Char} (hc : c ∈ ['<', '>']) {ts : List Tok} {s : List Char}
    (h : Spells (.sym c :: ts) s) (hword : ∀ w ts', ts ≠ .word w :: ts') (turns : Nat) (cmd : Cmd) :
    parseredirs (turns + 1) cmd s = .error (.panic "missing file for redirection!!!\n") := by
  have hstart : (peek s ['<', '>']).1 = true := (peek_iff redir_symbols h).2 ⟨c, hc, ts, rfl⟩
  obtain ⟨tok, htok, hret, hs, hlen⟩ := gettoken_sym h.skip
  have harg : ∃ arg, gettoken tok.ps = .ok arg ∧ arg.ret ≠ 'a' := by
    cases ts with
    | nil => exact ⟨_, gettoken_nil hs, by decide⟩
    | cons t ts =>
      cases t with
      | sym d =>
        obtain ⟨arg, harg, hreta, _, _⟩ := gettoken_sym hs
        obtain ⟨_, _, hd, _, _⟩ := skipSpace_sym hs
        refine ⟨arg, harg, ?_⟩
        rintro heq
        rw [← hreta, heq] at hd
        exact absurd hd (by decide)
      | word w => exact absurd rfl (hword w ts)
  obtain ⟨arg, harg, hreta⟩ := harg
  rw [parseredirs]
  simp only [hstart, if_true, peek_snd, htok, harg, bind, Except.bind, ne_eq, hreta,
    not_false_eq_true]

/-- **`parseredirs` reads all redirections** in front of the rest of the tokens. -/
theorem parseredirs_complete {rs : List Redir} (hrs : ∀ r ∈ rs, r.Ok) {ts : List Tok}
    (hend : ¬ Starts ['<', '>'] ts) {s : List Char} (h : Spells (rs.flatMap Redir.tokens ++ ts) s)
    (turns : Nat) (hturns : s.length < turns) (cmd : Cmd) :
    ∃ s', parseredirs turns cmd s = .ok (wrap rs cmd, s') ∧ Spells ts s' ∧ s'.length ≤ s.length := by
  induction rs generalizing s turns cmd with
  | nil =>
    obtain ⟨t, rfl⟩ : ∃ t, turns = t + 1 := ⟨turns - 1, by omega⟩
    exact ⟨skipSpace s, parseredirs_done h hend t cmd, Spells.skip h, skipSpace_length_le s⟩
  | cons r rs ih =>
    obtain ⟨t, rfl⟩ : ∃ t, turns = t + 1 := ⟨turns - 1, by omega⟩
    rw [List.flatMap_cons, List.append_assoc] at h
    obtain ⟨s', hs', hlen, hstep⟩ := parseredirs_redir (hrs r List.mem_cons_self) h t cmd
    obtain ⟨s'', hok, hs'', hlen''⟩ := ih (fun q hq => hrs q (List.mem_cons_of_mem r hq)) hs'
      t (by omega) (redircmd cmd r.file r.type)
    exact ⟨s'', hstep.trans hok, hs'', by omega⟩

/-- The call panicked. -/
def Panics {α : Type} (x : Except Err α) : Prop := ∃ msg, x = .error (.panic msg)

/-- **`parseredirs` panics or has read all redirections.** -/
theorem parseredirs_sound {turns : Nat} {ts : List Tok} {s : List Char} (h : Spells ts s)
    (hturns : s.length < turns) (cmd : Cmd) :
    Panics (parseredirs turns cmd s) ∨
      ∃ rs ts' s', (∀ r ∈ rs, r.Ok) ∧ ts = rs.flatMap Redir.tokens ++ ts' ∧
        ¬ Starts ['<', '>'] ts' ∧ parseredirs turns cmd s = .ok (wrap rs cmd, s') ∧
        Spells ts' s' ∧ s'.length ≤ s.length := by
  induction turns generalizing ts s cmd with
  | zero => omega
  | succ t ih =>
    by_cases hstart : Starts ['<', '>'] ts
    · obtain ⟨c, hc, ts, rfl⟩ := hstart
      by_cases hword : ∃ w ts', ts = .word w :: ts'
      · obtain ⟨w, ts, rfl⟩ := hword
        have hr : (Redir.mk c w).Ok := by simpa [Redir.Ok] using hc
        obtain ⟨s', hs', hlen, hstep⟩ := parseredirs_redir hr (show Spells (_ ++ ts) s from h) t cmd
        obtain hpanic | ⟨rs, ts', s'', hrs, hts, hend, hok, hs'', hlen''⟩ :=
          ih hs' (by omega) (redircmd cmd w c)
        · left
          rw [hstep]
          exact hpanic
        · right
          refine ⟨⟨c, w⟩ :: rs, ts', s'', List.forall_mem_cons.2 ⟨hr, hrs⟩, ?_, hend,
            hstep.trans hok, hs'', by omega⟩
          rw [hts]
          rfl
      · left
        exact ⟨_, parseredirs_panic hc h (fun w ts' heq => hword ⟨w, ts', heq⟩) t cmd⟩
    · right
      exact ⟨[], ts, skipSpace s, fun r hr => absurd hr List.not_mem_nil, rfl, hstart,
        parseredirs_done h hstart t cmd, h.skip, skipSpace_length_le s⟩

/-! ## §7 Commands to be executed -/

theorem wrap_setArg (rs : List Redir) (cmd : Cmd) (argc : Nat) (arg : Option (List Char)) :
    (wrap rs cmd).setArg argc arg = wrap rs (cmd.setArg argc arg) := by
  unfold wrap
  induction rs generalizing cmd with
  | nil => rfl
  | cons r rs ih =>
    rw [List.foldl_cons, ih]
    rfl

theorem wrap_append (rs qs : List Redir) (cmd : Cmd) : wrap (rs ++ qs) cmd = wrap qs (wrap rs cmd) :=
  List.foldl_append

/-- Filling the first empty slot of the vector appends a word. -/
theorem argvOf_set {ws : List (List Char)} (hws : ws.length < MAXARGS) (w : List Char) :
    (argvOf ws).set ws.length (some w) = argvOf (ws ++ [w]) := by
  obtain ⟨k, hk⟩ : ∃ k, MAXARGS - ws.length = k + 1 := ⟨MAXARGS - ws.length - 1, by omega⟩
  have hk' : MAXARGS - (ws ++ [w]).length = k := by
    rw [List.length_append, List.length_singleton]
    omega
  unfold argvOf
  rw [hk, hk', List.set_append_right _ _ (by simp), List.length_map, Nat.sub_self,
    List.replicate_succ, List.set_cons_zero, List.map_append]
  simp

/-- Ending the vector changes nothing: the slots behind the words are empty already. -/
theorem argvOf_end {ws : List (List Char)} (hws : ws.length < MAXARGS) :
    (argvOf ws).set ws.length none = argvOf ws := by
  obtain ⟨k, hk⟩ : ∃ k, MAXARGS - ws.length = k + 1 := ⟨MAXARGS - ws.length - 1, by omega⟩
  unfold argvOf
  rw [hk, List.set_append_right _ _ (by simp), List.length_map, Nat.sub_self,
    List.replicate_succ, List.set_cons_zero]

theorem argvOf_nil : Cmd.exec (argvOf []) = execcmd := rfl

/-- The tokens that end an `exec`. -/
def Ends (ts : List Tok) : Prop := ts = [] ∨ Starts ['|', '&'] ts

theorem ends_symbols : ∀ c ∈ ['|', '&'], c ∈ symbols := by simp [symbols]

theorem Ends.not_redir {ts : List Tok} (h : Ends ts) : ¬ Starts ['<', '>'] ts := by
  rintro ⟨c, hc, ts', rfl⟩
  obtain hnil | ⟨d, hd, ts'', heq⟩ := h
  · cases hnil
  · cases heq
    simp only [List.mem_cons, List.not_mem_nil, or_false] at hc hd
    obtain rfl | rfl := hc <;> obtain hd | hd := hd <;> exact absurd hd (by decide)

/-- The vector after the words `ws`, with the redirections `rs` around it. -/
def partialExec (rs : List Redir) (ws : List (List Char)) : Cmd := wrap rs (.exec (argvOf ws))

/-- The loop of `parseexec` where the command ends. -/
theorem parseargs_end {ts : List Tok} {s : List Char} (h : Spells ts s) (hend : Ends ts)
    (ws : List (List Char)) (hws : ws.length < MAXARGS) (turns : Nat) (rs : List Redir) :
    ∃ s', parseargs (turns + 1) ws.length (partialExec rs ws) s = .ok (partialExec rs ws, s') ∧
      Spells ts s' ∧ s'.length ≤ s.length := by
  have hstop : ∀ s', endArgs ws.length (partialExec rs ws) s' = .ok (partialExec rs ws, s') := by
    intro s'
    unfold endArgs storeArg partialExec
    rw [if_pos hws, wrap_setArg, Cmd.setArg, argvOf_end hws]
    rfl
  rw [parseargs]
  by_cases hpeek : (peek s ['|', '&']).1 = true
  · simp only [if_pos hpeek]
    exact ⟨_, hstop _, h.skip, skipSpace_length_le s⟩
  · obtain rfl : ts = [] := by
      obtain hnil | hstart := hend
      · exact hnil
      · exact absurd ((peek_iff ends_symbols h).2 hstart) hpeek
    simp only [if_neg hpeek, peek_snd, gettoken_nil h.skip, bind, Except.bind, if_true]
    exact ⟨[], hstop _, .nil (by simp), Nat.zero_le _⟩

/-- The loop of `parseexec` at a word that still fits. -/
theorem parseargs_word {w : List Char} {ts : List Tok} {s : List Char}
    (h : Spells (.word w :: ts) s) (ws : List (List Char)) (hws : ws.length + 1 < MAXARGS)
    (turns : Nat) (rs : List Redir) :
    ∃ s', Spells ts s' ∧ s'.length < s.length ∧
      parseargs (turns + 1) ws.length (partialExec rs ws) s =
        (parseredirs (s'.length + 1) (partialExec rs (ws ++ [w])) s').bind
          fun r => parseargs turns (ws ++ [w]).length r.1 r.2 := by
  have hpeek : ¬ (peek s ['|', '&']).1 = true := by
    rw [peek_iff ends_symbols h]
    rintro ⟨c, _, ts', heq⟩
    cases heq
  obtain ⟨tok, htok, hret, hcopy, hs, hlen⟩ := gettoken_word h.skip
  have hle := skipSpace_length_le s
  refine ⟨tok.ps, hs, by omega, ?_⟩
  have hstore : storeArg (partialExec rs ws) ws.length (some w) = .ok (partialExec rs (ws ++ [w])) := by
    unfold storeArg partialExec
    rw [if_pos (by omega), wrap_setArg, Cmd.setArg, argvOf_set (by omega)]
  rw [parseargs]
  simp only [if_neg hpeek, peek_snd, htok, hret, bind, Except.bind, hcopy, hstore]
  rw [if_neg (by decide), if_neg (by decide), if_neg (by omega)]
  simp only [List.length_append, List.length_singleton]

/-- The loop of `parseexec` at one word too many. -/
theorem parseargs_panic {w : List Char} {ts : List Tok} {s : List Char}
    (h : Spells (.word w :: ts) s) (ws : List (List Char)) (hws : ws.length + 1 = MAXARGS)
    (turns : Nat) (rs : List Redir) :
    Panics (parseargs (turns + 1) ws.length (partialExec rs ws) s) := by
  have hpeek : ¬ (peek s ['|', '&']).1 = true := by
    rw [peek_iff ends_symbols h]
    rintro ⟨c, _, ts', heq⟩
    cases heq
  obtain ⟨tok, htok, hret, hcopy, hs, hlen⟩ := gettoken_word h.skip
  refine ⟨"too many args!!!\n", ?_⟩
  rw [parseargs]
  simp only [if_neg hpeek, peek_snd, htok, hret, bind, Except.bind, hcopy, storeArg]
  rw [if_neg (by decide), if_neg (by decide), if_pos (by omega)]
  simp only [if_pos (show ws.length + 1 ≥ MAXARGS by omega)]

/-- A rest of the tokens that ends the command ends it after redirections and words as well. -/
theorem not_starts_args {as : List (List Char × List Redir)} {ts : List Tok} (hts : Ends ts) :
    ¬ Starts ['<', '>'] (as.flatMap argTokens ++ ts) := by
  cases as with
  | nil => exact hts.not_redir
  | cons a as =>
    rintro ⟨c, _, ts', heq⟩
    cases heq

/-- **The loop of `parseexec` reads all words** with their redirections. -/
theorem parseargs_complete {as : List (List Char × List Redir)} (has : ∀ a ∈ as, ∀ r ∈ a.2, r.Ok)
    {ts : List Tok} (hts : Ends ts) {s : List Char} (h : Spells (as.flatMap argTokens ++ ts) s)
    (turns : Nat) (hturns : s.length < turns) (ws : List (List Char))
    (hws : ws.length + as.length < MAXARGS) (rs : List Redir) :
    ∃ s', parseargs turns ws.length (partialExec rs ws) s =
        .ok (partialExec (rs ++ as.flatMap Prod.snd) (ws ++ as.map Prod.fst), s') ∧
      Spells ts s' ∧ s'.length ≤ s.length := by
  induction as generalizing s turns ws rs with
  | nil =>
    obtain ⟨t, rfl⟩ : ∃ t, turns = t + 1 := ⟨turns - 1, by omega⟩
    have hend := parseargs_end h hts ws (by simpa using hws) t rs
    simpa using hend
  | cons a as ih =>
    obtain ⟨t, rfl⟩ : ∃ t, turns = t + 1 := ⟨turns - 1, by omega⟩
    rw [List.length_cons] at hws
    rw [List.flatMap_cons, argTokens, List.cons_append, List.cons_append, List.append_assoc] at h
    obtain ⟨s₁, hs₁, hlen₁, hstep⟩ := parseargs_word h ws (by omega) t rs
    obtain ⟨s₂, hredirs, hs₂, hlen₂⟩ :=
      parseredirs_complete (has a List.mem_cons_self) (not_starts_args hts) hs₁ _
        (Nat.lt_succ_self _) (partialExec rs (ws ++ [a.1]))
    obtain ⟨s₃, hok, hs₃, hlen₃⟩ := ih (fun b hb => has b (List.mem_cons_of_mem a hb)) hs₂
      t (by omega) (ws ++ [a.1]) (by simp; omega) (rs ++ a.2)
    refine ⟨s₃, ?_, hs₃, by omega⟩
    have hwrap : wrap a.2 (partialExec rs (ws ++ [a.1])) = partialExec (rs ++ a.2) (ws ++ [a.1]) :=
      (wrap_append _ _ _).symm
    rw [hstep, hredirs, hwrap]
    simpa [Except.bind] using hok

/-- **The loop of `parseexec` panics or has read all words.** -/
theorem parseargs_sound {turns : Nat} {ts : List Tok} {s : List Char} (h : Spells ts s)
    (hturns : s.length < turns) (hstart : ¬ Starts ['<', '>'] ts) (ws : List (List Char))
    (hws : ws.length < MAXARGS) (rs : List Redir) :
    Panics (parseargs turns ws.length (partialExec rs ws) s) ∨
      ∃ (as : List (List Char × List Redir)) (ts' : List Tok) (s' : List Char),
        (∀ a ∈ as, ∀ r ∈ a.2, r.Ok) ∧ ws.length + as.length < MAXARGS ∧
        ts = as.flatMap argTokens ++ ts' ∧ Ends ts' ∧
        parseargs turns ws.length (partialExec rs ws) s =
          .ok (partialExec (rs ++ as.flatMap Prod.snd) (ws ++ as.map Prod.fst), s') ∧
        Spells ts' s' ∧ s'.length ≤ s.length := by
  induction turns generalizing ts s ws rs with
  | zero => omega
  | succ t ih =>
    -- an `exec` goes on exactly as long as words follow
    by_cases hword : ∃ w ts', ts = .word w :: ts'
    · obtain ⟨w, ts, rfl⟩ := hword
      obtain hfit | hfull : ws.length + 1 < MAXARGS ∨ ws.length + 1 = MAXARGS := by omega
      · obtain ⟨s₁, hs₁, hlen₁, hstep⟩ := parseargs_word h ws hfit t rs
        obtain ⟨msg, hpanic⟩ | ⟨qs, ts₂, s₂, hqs, hts₂, hend₂, hok₂, hs₂, hlen₂⟩ :=
          parseredirs_sound hs₁ (Nat.lt_succ_self _) (partialExec rs (ws ++ [w]))
        · left
          rw [hstep, hpanic]
          exact ⟨msg, rfl⟩
        · have hwrap : wrap qs (partialExec rs (ws ++ [w])) = partialExec (rs ++ qs) (ws ++ [w]) :=
            (wrap_append _ _ _).symm
          rw [hstep, hok₂, hwrap]
          obtain hpanic | ⟨as, ts₃, s₃, has, hcount, hts₃, hend₃, hok₃, hs₃, hlen₃⟩ :=
            ih hs₂ (by omega) hend₂ (ws ++ [w]) (by simpa using hfit) (rs ++ qs)
          · exact .inl hpanic
          · right
            refine ⟨(w, qs) :: as, ts₃, s₃, List.forall_mem_cons.2 ⟨hqs, has⟩, ?_, ?_, hend₃, ?_, hs₃,
              by omega⟩
            · simp only [List.length_append, List.length_cons, List.length_nil] at hcount ⊢
              omega
            · rw [hts₂, hts₃]
              simp [argTokens]
            · simpa [Except.bind] using hok₃
      · exact .inl (parseargs_panic h ws hfull t rs)
    · have hend : Ends ts := by
        cases ts with
        | nil => exact .inl rfl
        | cons u ts =>
          cases u with
          | word w => exact absurd ⟨w, ts, rfl⟩ hword
          | sym c =>
            obtain ⟨_, _, hc, _, _⟩ := skipSpace_sym h
            right
            refine ⟨c, ?_, ts, rfl⟩
            have hnot : c ∉ ['<', '>'] := fun hmem => hstart ⟨c, hmem, ts, rfl⟩
            simp only [symbols, List.mem_cons, List.not_mem_nil, or_false] at hc hnot ⊢
            tauto
      right
      obtain ⟨s', hok, hs', hlen⟩ := parseargs_end h hend ws hws t rs
      exact ⟨[], ts, s', by simp, by simpa using hws, rfl, hend, by simpa using hok, hs', hlen⟩

/-- **`parseexec` reads every `exec` of the grammar** that ends here. -/
theorem parseexec_complete {e : Exec} (he : e.Ok) {ts : List Tok} (hts : Ends ts) {s : List Char}
    (h : Spells (e.tokens ++ ts) s) :
    ∃ s', parseexec s = .ok (e.tree, s') ∧ Spells ts s' ∧ s'.length ≤ s.length := by
  rw [Exec.tokens, List.append_assoc] at h
  obtain ⟨s₁, hredirs, hs₁, hlen₁⟩ := parseredirs_complete he.redirs (not_starts_args hts) h _
    (Nat.lt_succ_self _) execcmd
  have hcount : ([] : List (List Char)).length + e.args.length < MAXARGS := by
    have := he.count
    simp only [MAXARGS, List.length_nil] at this ⊢
    omega
  obtain ⟨s₂, hargs, hs₂, hlen₂⟩ := parseargs_complete he.args hts hs₁ _ (Nat.lt_succ_self _) []
    hcount e.redirs
  refine ⟨s₂, ?_, hs₂, by omega⟩
  unfold parseexec
  rw [hredirs]
  exact hargs

/-- **`parseexec` panics or has read an `exec` of the grammar.** -/
theorem parseexec_sound {ts : List Tok} {s : List Char} (h : Spells ts s) :
    Panics (parseexec s) ∨
      ∃ e ts' s', Exec.Ok e ∧ ts = e.tokens ++ ts' ∧ Ends ts' ∧ parseexec s = .ok (e.tree, s') ∧
        Spells ts' s' ∧ s'.length ≤ s.length := by
  unfold parseexec
  obtain ⟨msg, hpanic⟩ | ⟨rs, ts₁, s₁, hrs, hts₁, hend₁, hok₁, hs₁, hlen₁⟩ :=
    parseredirs_sound h (Nat.lt_succ_self _) execcmd
  · left
    rw [hpanic]
    exact ⟨msg, rfl⟩
  · rw [hok₁]
    obtain ⟨msg, hpanic⟩ | ⟨as, ts₂, s₂, has, hcount, hts₂, hend₂, hok₂, hs₂, hlen₂⟩ :=
      parseargs_sound hs₁ (Nat.lt_succ_self _) hend₁ [] (by decide) rs
    · left
      exact ⟨msg, hpanic⟩
    · right
      have hok : Exec.Ok ⟨rs, as⟩ := by
        refine ⟨hrs, has, ?_⟩
        simp only [MAXARGS, List.length_nil] at hcount ⊢
        omega
      refine ⟨⟨rs, as⟩, ts₂, s₂, hok, ?_, hend₂, hok₂, hs₂, by omega⟩
      rw [hts₁, hts₂, Exec.tokens, List.append_assoc]

/-! ## §8 Pipes and lines -/

theorem pipe_symbols : ∀ c ∈ ['|'], c ∈ symbols := by simp [symbols]

theorem back_symbols : ∀ c ∈ ['&'], c ∈ symbols := by simp [symbols]

/-- The tokens that end a `pipe`. -/
def EndsPipe (ts : List Tok) : Prop := ts = [] ∨ Starts ['&'] ts

theorem EndsPipe.ends {ts : List Tok} (h : EndsPipe ts) : Ends ts := by
  obtain hnil | ⟨c, hc, ts', rfl⟩ := h
  · exact .inl hnil
  · exact .inr ⟨c, List.mem_cons_of_mem _ hc, ts', rfl⟩

/-- One turn of `parsepipe` at a `pipe` that goes on. -/
theorem parsepipe_cons {l : Cmd} {ts : List Tok} {s s' : List Char}
    (hexec : parseexec s = .ok (l, s')) (h : Spells (.sym '|' :: ts) s') (turns : Nat) :
    ∃ s'', Spells ts s'' ∧ s''.length < s'.length ∧
      parsepipe (turns + 1) s = (parsepipe turns s'').map fun r => (.pipe l r.1, r.2) := by
  have hpeek : (peek s' ['|']).1 = true := (peek_iff pipe_symbols h).2 ⟨'|', by simp, ts, rfl⟩
  obtain ⟨tok, htok, _, hs, hlen⟩ := gettoken_sym h.skip
  have hle := skipSpace_length_le s'
  refine ⟨tok.ps, hs, by omega, ?_⟩
  rw [parsepipe, hexec]
  simp only [bind, Except.bind, if_pos hpeek, peek_snd, htok]
  cases parsepipe turns tok.ps <;> rfl

/-- One turn of `parsepipe` at a `pipe` that ends. -/
theorem parsepipe_last {l : Cmd} {ts : List Tok} {s s' : List Char}
    (hexec : parseexec s = .ok (l, s')) (h : Spells ts s') (hno : ¬ Starts ['|'] ts) (turns : Nat) :
    parsepipe (turns + 1) s = .ok (l, skipSpace s') := by
  have hpeek : ¬ (peek s' ['|']).1 = true := mt (peek_iff pipe_symbols h).1 hno
  rw [parsepipe, hexec]
  simp only [bind, Except.bind, if_neg hpeek, peek_snd]

/-- **`parsepipe` reads every `pipe` of the grammar** that ends here. -/
theorem parsepipe_complete {p : Pipe} (hp : p.Ok) {ts : List Tok} (hts : EndsPipe ts) {s : List Char}
    (h : Spells (p.tokens ++ ts) s) (turns : Nat) (hturns : s.length < turns) :
    ∃ s', parsepipe turns s = .ok (p.tree, s') ∧ Spells ts s' ∧ s'.length ≤ s.length := by
  induction p generalizing s turns with
  | last e =>
    obtain ⟨t, rfl⟩ : ∃ t, turns = t + 1 := ⟨turns - 1, by omega⟩
    obtain ⟨s₁, hexec, hs₁, hlen₁⟩ := parseexec_complete hp hts.ends h
    have hno : ¬ Starts ['|'] ts := by
      rintro ⟨c, hc, ts', rfl⟩
      obtain hnil | ⟨d, hd, ts'', heq⟩ := hts
      · cases hnil
      · cases heq
        simp only [List.mem_singleton] at hc hd
        rw [hc] at hd
        exact absurd hd (by decide)
    have hle := skipSpace_length_le s₁
    exact ⟨skipSpace s₁, parsepipe_last hexec hs₁ hno t, hs₁.skip, by omega⟩
  | cons e p ih =>
    obtain ⟨t, rfl⟩ : ∃ t, turns = t + 1 := ⟨turns - 1, by omega⟩
    rw [Pipe.tokens, List.append_assoc, List.cons_append] at h
    have hbar : Ends (.sym '|' :: (p.tokens ++ ts)) := .inr ⟨'|', by simp, _, rfl⟩
    obtain ⟨s₁, hexec, hs₁, hlen₁⟩ := parseexec_complete hp.1 hbar h
    obtain ⟨s₂, hs₂, hlen₂, hstep⟩ := parsepipe_cons hexec hs₁ t
    obtain ⟨s₃, hok, hs₃, hlen₃⟩ := ih hp.2 hs₂ t (by omega)
    refine ⟨s₃, ?_, hs₃, by omega⟩
    rw [hstep, hok]
    rfl

/-- **`parsepipe` panics or has read a `pipe` of the grammar.** -/
theorem parsepipe_sound {turns : Nat} {ts : List Tok} {s : List Char} (h : Spells ts s)
    (hturns : s.length < turns) :
    Panics (parsepipe turns s) ∨
      ∃ (p : Pipe) (ts' : List Tok) (s' : List Char), p.Ok ∧ ts = p.tokens ++ ts' ∧ EndsPipe ts' ∧
        parsepipe turns s = .ok (p.tree, s') ∧ Spells ts' s' ∧ s'.length ≤ s.length := by
  induction turns generalizing ts s with
  | zero => omega
  | succ t ih =>
    obtain ⟨msg, hpanic⟩ | ⟨e, ts₁, s₁, he, hts₁, hend₁, hok₁, hs₁, hlen₁⟩ := parseexec_sound h
    · left
      refine ⟨msg, ?_⟩
      rw [parsepipe, hpanic]
      rfl
    · by_cases hbar : Starts ['|'] ts₁
      · obtain ⟨c, hc, ts₂, rfl⟩ := hbar
        obtain rfl : c = '|' := List.mem_singleton.1 hc
        obtain ⟨s₂, hs₂, hlen₂, hstep⟩ := parsepipe_cons hok₁ hs₁ t
        obtain ⟨msg, hpanic⟩ | ⟨p, ts₃, s₃, hp, hts₃, hend₃, hok₃, hs₃, hlen₃⟩ := ih hs₂ (by omega)
        · left
          refine ⟨msg, ?_⟩
          rw [hstep, hpanic]
          rfl
        · right
          refine ⟨.cons e p, ts₃, s₃, ⟨he, hp⟩, ?_, hend₃, ?_, hs₃, by omega⟩
          · rw [hts₁, hts₃, Pipe.tokens, List.append_assoc, List.cons_append]
          · rw [hstep, hok₃]
            rfl
      · right
        have hend : EndsPipe ts₁ := by
          obtain hnil | ⟨c, hc, ts₂, rfl⟩ := hend₁
          · exact .inl hnil
          · right
            refine ⟨c, ?_, ts₂, rfl⟩
            obtain rfl | hmem := List.mem_cons.1 hc
            · exact absurd ⟨'|', by simp, ts₂, rfl⟩ hbar
            · exact hmem
        have hle := skipSpace_length_le s₁
        exact ⟨.last e, ts₁, skipSpace s₁, he, hts₁, hend, parsepipe_last hok₁ hs₁ hbar t, hs₁.skip,
          by omega⟩

/-- One turn of the loop of `parseline` at an `&`. -/
theorem parseback_amp {ts : List Tok} {s : List Char} (h : Spells (.sym '&' :: ts) s) (turns : Nat)
    (cmd : Cmd) : ∃ s', Spells ts s' ∧ s'.length < s.length ∧
      parseback (turns + 1) cmd s = parseback turns (.back cmd) s' := by
  have hpeek : (peek s ['&']).1 = true := (peek_iff back_symbols h).2 ⟨'&', by simp, ts, rfl⟩
  obtain ⟨tok, htok, _, hs, hlen⟩ := gettoken_sym h.skip
  have hle := skipSpace_length_le s
  refine ⟨tok.ps, hs, by omega, ?_⟩
  rw [parseback]
  simp only [if_pos hpeek, peek_snd, htok, bind, Except.bind]

/-- **The loop of `parseline` reads all `&`** and always ends. -/
theorem parseback_spec {turns : Nat} {ts : List Tok} {s : List Char} (h : Spells ts s)
    (hturns : s.length < turns) (cmd : Cmd) :
    ∃ (n : Nat) (ts' : List Tok) (s' : List Char), ts = List.replicate n (.sym '&') ++ ts' ∧
      ¬ Starts ['&'] ts' ∧ parseback turns cmd s = .ok (Nat.iterate Cmd.back n cmd, s') ∧
      Spells ts' s' := by
  induction turns generalizing ts s cmd with
  | zero => omega
  | succ t ih =>
    by_cases hamp : Starts ['&'] ts
    · obtain ⟨c, hc, ts₁, rfl⟩ := hamp
      obtain rfl : c = '&' := List.mem_singleton.1 hc
      obtain ⟨s₁, hs₁, hlen₁, hstep⟩ := parseback_amp h t cmd
      obtain ⟨n, ts₂, s₂, hts₂, hno, hok, hs₂⟩ := ih hs₁ (by omega) (.back cmd)
      refine ⟨n + 1, ts₂, s₂, ?_, hno, hstep.trans hok, hs₂⟩
      rw [hts₂, List.replicate_succ, List.cons_append]
    · have hpeek : ¬ (peek s ['&']).1 = true := mt (peek_iff back_symbols h).1 hamp
      refine ⟨0, ts, skipSpace s, rfl, hamp, ?_, h.skip⟩
      rw [parseback, if_neg hpeek]
      rfl

/-! ## §9 The whole parser -/

/-- Only the empty list of tokens has nothing but spaces. -/
theorem skipSpace_eq_nil_iff {ts : List Tok} {s : List Char} (h : Spells ts s) :
    skipSpace s = [] ↔ ts = [] := by
  constructor
  · intro hskip
    cases ts with
    | nil => rfl
    | cons t ts =>
      cases t with
      | sym c =>
        obtain ⟨s', heq, _⟩ := skipSpace_sym h
        rw [hskip] at heq
        cases heq
      | word w =>
        obtain ⟨s', heq, hw, _⟩ := skipSpace_word h
        rw [hskip] at heq
        exact absurd (List.append_eq_nil_iff.1 heq.symm).1 hw.ne_nil
  · rintro rfl
    exact skipSpace_nil h

/-- The number of `&` at the end is determined by the rest of the tokens. -/
theorem replicate_amps_unique {m n : Nat} {ts : List Tok} (hts : ¬ Starts ['&'] ts)
    (h : List.replicate m (.sym '&') = List.replicate n (.sym '&') ++ ts) : m = n ∧ ts = [] := by
  have hmem : ∀ t ∈ ts, t = .sym '&' := by
    intro t ht
    have hall : t ∈ List.replicate m (Tok.sym '&') := by
      rw [h]
      exact List.mem_append_right _ ht
    exact List.eq_of_mem_replicate hall
  cases ts with
  | nil =>
    refine ⟨?_, rfl⟩
    have hlen := congrArg List.length h
    simpa using hlen
  | cons t ts =>
    obtain rfl := hmem t List.mem_cons_self
    exact absurd ⟨'&', by simp, ts, rfl⟩ hts

/-- **The parser returns the tree of every derivation.** -/
theorem parsecmd_complete {d : Line} {s : List Char} (hd : d.Derives s) :
    parsecmd s = .ok d.tree := by
  obtain ⟨hpipe, h⟩ := hd
  have hend : EndsPipe (List.replicate d.amps (Tok.sym '&')) := by
    cases d.amps with
    | zero => exact .inl rfl
    | succ n => exact .inr ⟨'&', by simp, _, List.replicate_succ⟩
  obtain ⟨s₁, hok₁, hs₁, hlen₁⟩ := parsepipe_complete hpipe hend h _ (Nat.lt_succ_self _)
  obtain ⟨n, ts₂, s₂, hts₂, hno, hok₂, hs₂⟩ :=
    parseback_spec hs₁ (Nat.lt_succ_self _) d.pipe.tree
  obtain ⟨hn, rfl⟩ := replicate_amps_unique hno hts₂
  have hline : parseline s = .ok (d.tree, s₂) := by
    unfold parseline
    rw [hok₁, Line.tree, hn]
    exact hok₂
  unfold parsecmd
  rw [hline]
  simp only [bind, Except.bind, peek_snd, skipSpace_nil hs₂]
  rfl

/-- **The parser panics or returns the tree of a derivation.** -/
theorem parsecmd_sound {s : List Char} (hs : '\x00' ∉ s) :
    Panics (parsecmd s) ∨ ∃ d : Line, d.Derives s ∧ parsecmd s = .ok d.tree := by
  obtain ⟨ts, h⟩ := exists_spells s hs
  obtain ⟨msg, hpanic⟩ | ⟨p, ts₁, s₁, hp, hts₁, _, hok₁, hs₁, _⟩ :=
    parsepipe_sound h (Nat.lt_succ_self _)
  · left
    refine ⟨msg, ?_⟩
    unfold parsecmd parseline
    rw [hpanic]
    rfl
  · obtain ⟨n, ts₂, s₂, hts₂, _, hok₂, hs₂⟩ := parseback_spec hs₁ (Nat.lt_succ_self _) p.tree
    have hline : parseline s = .ok (Nat.iterate Cmd.back n p.tree, s₂) := by
      unfold parseline
      rw [hok₁]
      exact hok₂
    by_cases hrest : ts₂ = []
    · right
      refine ⟨⟨p, n⟩, ⟨hp, ?_⟩, ?_⟩
      · have htokens : ts = Line.tokens ⟨p, n⟩ := by
          rw [hts₁, hts₂, hrest, List.append_nil]
          rfl
        exact htokens ▸ h
      · unfold parsecmd
        rw [hline]
        simp only [bind, Except.bind, peek_snd, (skipSpace_eq_nil_iff hs₂).2 hrest]
        rfl
    · left
      refine ⟨"parsecmd error!!!\n", ?_⟩
      unfold parsecmd
      rw [hline]
      have hne : skipSpace s₂ ≠ [] := mt (skipSpace_eq_nil_iff hs₂).1 hrest
      exact if_pos hne

/-- **The parser accepts exactly its grammar**, and what it returns is the tree of the derivation. -/
theorem parsecmd_iff {s : List Char} (hs : '\x00' ∉ s) (t : Cmd) :
    parsecmd s = .ok t ↔ ∃ d : Line, d.Derives s ∧ t = d.tree := by
  constructor
  · intro hok
    obtain ⟨msg, hpanic⟩ | ⟨d, hd, hd'⟩ := parsecmd_sound hs
    · rw [hok] at hpanic
      cases hpanic
    · exact ⟨d, hd, Except.ok.inj (hok.symm.trans hd')⟩
  · rintro ⟨d, hd, rfl⟩
    exact parsecmd_complete hd

/-- **The parser always returns a tree or panics**: it neither reads past the terminator nor writes behind
    an array, and it terminates. -/
theorem parsecmd_total {s : List Char} (hs : '\x00' ∉ s) :
    (∃ t, parsecmd s = .ok t) ∨ Panics (parsecmd s) := by
  obtain hpanic | ⟨d, _, hok⟩ := parsecmd_sound hs
  · exact .inr hpanic
  · exact .inl ⟨d.tree, hok⟩

/-! ## §10 Rendering -/

/-- The redirections of a tree, in the order in which they were read. -/
def Cmd.redirText : Cmd → List Char
  | .redir type cmd file _ _ => cmd.redirText ++ type :: file
  | _ => []

/-- The words of a tree, each behind a space. -/
def Cmd.wordText : Cmd → List Char
  | .redir _ cmd _ _ _ => cmd.wordText
  | .exec argv => (argv.filterMap id).flatMap (' ' :: ·)
  | _ => []

/-- A command line for a tree. -/
def render : Cmd → List Char
  | .back cmd => render cmd ++ ['&']
  | .pipe left right => render left ++ '|' :: render right
  | cmd => cmd.redirText ++ cmd.wordText

theorem redirText_wrap (rs : List Redir) (argv : List (Option (List Char))) :
    (wrap rs (.exec argv)).redirText = rs.flatMap fun r => r.type :: r.file := by
  induction rs using List.reverseRecOn with
  | nil => rfl
  | append_singleton rs r ih =>
    rw [wrap_append, List.flatMap_append, ← ih, List.flatMap_singleton]
    rfl

theorem wordText_wrap (rs : List Redir) (ws : List (List Char)) :
    (wrap rs (.exec (argvOf ws))).wordText = ws.flatMap (' ' :: ·) := by
  induction rs using List.reverseRecOn with
  | nil =>
    have hwords : (argvOf ws).filterMap id = ws := by
      simp [argvOf, List.filterMap_append]
    exact congrArg (List.flatMap (' ' :: ·)) hwords
  | append_singleton rs r ih =>
    rw [wrap_append, ← ih]
    rfl

theorem render_wrap (rs : List Redir) (ws : List (List Char)) :
    render (wrap rs (.exec (argvOf ws))) =
      (rs.flatMap fun r => r.type :: r.file) ++ ws.flatMap (' ' :: ·) := by
  rw [← redirText_wrap rs (argvOf ws), ← wordText_wrap rs ws]
  obtain rfl | ⟨qs, r, rfl⟩ := List.eq_nil_or_concat' rs
  · rfl
  · rw [wrap_append]
    rfl

/-- The words of a spelled list of tokens are words. -/
theorem Spells.word_of_mem {ts : List Tok} {s : List Char} (h : Spells ts s) {w : List Char}
    (hw : .word w ∈ ts) : Word w := by
  induction h with
  | nil => exact absurd hw List.not_mem_nil
  | sym _ _ _ ih =>
    obtain heq | hmem := List.mem_cons.1 hw
    · cases heq
    · exact ih hmem
  | word _ hword _ _ ih =>
    obtain heq | hmem := List.mem_cons.1 hw
    · cases heq
      exact hword
    · exact ih hmem

/-- A string that does not go on with a word. -/
def Breaks (s : List Char) : Prop := ∀ c ∈ s.head?, ¬ WordChar c

theorem breaks_cons {c : Char} (hc : ¬ WordChar c) (s : List Char) : Breaks (c :: s) := by
  intro d hd
  obtain rfl : c = d := by simpa using hd
  exact hc

theorem spells_symbol {c : Char} (hc : c ∈ symbols) {ts : List Tok} {s : List Char}
    (h : Spells ts s) : Spells (.sym c :: ts) (c :: s) :=
  Spells.sym blank_nil hc h

theorem spells_words {ws : List (List Char)} (hws : ∀ w ∈ ws, Word w) {ts : List Tok}
    {s : List Char} (h : Spells ts s) (hs : Breaks s) :
    Spells (ws.map .word ++ ts) (ws.flatMap (' ' :: ·) ++ s) ∧ Breaks (ws.flatMap (' ' :: ·) ++ s) := by
  induction ws with
  | nil => exact ⟨h, hs⟩
  | cons w ws ih =>
    obtain ⟨hrest, hbreaks⟩ := ih fun v hv => hws v (List.mem_cons_of_mem w hv)
    have hspace : ∀ c ∈ [' '], c ∈ whitespace := by simp [whitespace]
    have hword := Spells.word hspace (hws w List.mem_cons_self) hbreaks hrest
    refine ⟨?_, ?_⟩
    · simpa using hword
    · rw [List.flatMap_cons, List.cons_append, List.cons_append]
      exact breaks_cons (fun hc => hc.1 (by simp [whitespace])) _

theorem Redir.Ok.symbol {r : Redir} (hr : r.Ok) : r.type ∈ symbols := by
  obtain heq | heq := hr <;> rw [heq] <;> simp [symbols]

theorem spells_redirs {rs : List Redir} (hrs : ∀ r ∈ rs, r.Ok ∧ Word r.file) {ts : List Tok}
    {s : List Char} (h : Spells ts s) (hs : Breaks s) :
    Spells (rs.flatMap Redir.tokens ++ ts) ((rs.flatMap fun r => r.type :: r.file) ++ s) ∧
      Breaks ((rs.flatMap fun r => r.type :: r.file) ++ s) := by
  induction rs with
  | nil => exact ⟨h, hs⟩
  | cons r rs ih =>
    obtain ⟨hrest, hbreaks⟩ := ih fun q hq => hrs q (List.mem_cons_of_mem r hq)
    obtain ⟨hr, hfile⟩ := hrs r List.mem_cons_self
    have hword := Spells.word blank_nil hfile hbreaks hrest
    have hsym := spells_symbol hr.symbol hword
    refine ⟨?_, ?_⟩
    · simpa [Redir.tokens] using hsym
    · rw [List.flatMap_cons, List.cons_append, List.cons_append]
      exact breaks_cons (fun hc => hc.2 hr.symbol) _

/-- The redirections of an `exec`, in the order in which they are read. -/
def Exec.allRedirs (e : Exec) : List Redir := e.redirs ++ e.args.flatMap Prod.snd

/-- The derivation of a rendered `exec`: the redirections come first. -/
def Exec.canon (e : Exec) : Exec := ⟨e.allRedirs, e.args.map fun a => (a.1, [])⟩

theorem Exec.canon_tokens (e : Exec) :
    e.canon.tokens = e.allRedirs.flatMap Redir.tokens ++ (e.args.map Prod.fst).map .word := by
  unfold Exec.canon Exec.tokens
  congr 1
  induction e.args with
  | nil => rfl
  | cons a as ih =>
    rw [List.map_cons, List.flatMap_cons, ih]
    rfl

theorem Exec.canon_tree (e : Exec) : e.canon.tree = e.tree := by
  have hredirs : (e.args.map fun a => (a.1, ([] : List Redir))).flatMap Prod.snd = [] := by
    induction e.args with
    | nil => rfl
    | cons a as ih => simp
  have hwords : (e.args.map fun a => (a.1, ([] : List Redir))).map Prod.fst = e.args.map Prod.fst := by
    rw [List.map_map]
    rfl
  simp only [Exec.tree, Exec.canon, hredirs, hwords, List.append_nil, Exec.allRedirs]

theorem Exec.Ok.allRedirs {e : Exec} (he : e.Ok) : ∀ r ∈ e.allRedirs, r.Ok := by
  intro r hr
  obtain hmem | hmem := List.mem_append.1 hr
  · exact he.redirs r hmem
  · obtain ⟨a, ha, hra⟩ := List.mem_flatMap.1 hmem
    exact he.args a ha r hra

theorem Exec.Ok.canon {e : Exec} (he : e.Ok) : e.canon.Ok := by
  refine ⟨he.allRedirs, ?_, ?_⟩
  · intro a ha r hr
    obtain ⟨b, _, rfl⟩ := List.mem_map.1 ha
    exact absurd hr List.not_mem_nil
  · unfold Exec.canon
    rw [List.length_map]
    exact he.count

/-- The words and the files of an `exec` stand among its tokens. -/
theorem Exec.file_mem_tokens {e : Exec} {r : Redir} (hr : r ∈ e.allRedirs) :
    .word r.file ∈ e.tokens := by
  unfold Exec.tokens
  obtain hmem | hmem := List.mem_append.1 hr
  · exact List.mem_append_left _ (List.mem_flatMap.2 ⟨r, hmem, by simp [Redir.tokens]⟩)
  · obtain ⟨a, ha, hra⟩ := List.mem_flatMap.1 hmem
    apply List.mem_append_right
    refine List.mem_flatMap.2 ⟨a, ha, List.mem_cons_of_mem _ ?_⟩
    exact List.mem_flatMap.2 ⟨r, hra, by simp [Redir.tokens]⟩

theorem Exec.word_mem_tokens {e : Exec} {w : List Char} (hw : w ∈ e.args.map Prod.fst) :
    .word w ∈ e.tokens := by
  obtain ⟨a, ha, rfl⟩ := List.mem_map.1 hw
  exact List.mem_append_right _ (List.mem_flatMap.2 ⟨a, ha, List.mem_cons_self⟩)

theorem Exec.spells_render {e : Exec} (he : e.Ok) (hwords : ∀ w, .word w ∈ e.tokens → Word w)
    {ts : List Tok} {s : List Char} (h : Spells ts s) (hs : Breaks s) :
    Spells (e.canon.tokens ++ ts) (render e.tree ++ s) := by
  obtain ⟨hargs, hbreaks⟩ :=
    spells_words (fun w hw => hwords w (Exec.word_mem_tokens hw)) h hs
  obtain ⟨hall, _⟩ := spells_redirs
    (fun r hr => ⟨he.allRedirs r hr, hwords _ (Exec.file_mem_tokens hr)⟩) hargs hbreaks
  rw [Exec.canon_tokens, Exec.tree, render_wrap, List.append_assoc, List.append_assoc]
  exact hall

def Pipe.canon : Pipe → Pipe
  | .last e => .last e.canon
  | .cons e p => .cons e.canon p.canon

theorem Pipe.canon_tree (p : Pipe) : p.canon.tree = p.tree := by
  induction p with
  | last e => exact e.canon_tree
  | cons e p ih => rw [Pipe.canon, Pipe.tree, Pipe.tree, e.canon_tree, ih]

theorem Pipe.canon_ok {p : Pipe} (hp : p.Ok) : p.canon.Ok := by
  induction p with
  | last e => exact Exec.Ok.canon hp
  | cons e p ih => exact ⟨hp.1.canon, ih hp.2⟩

theorem Pipe.spells_render {p : Pipe} (hp : p.Ok) (hwords : ∀ w, .word w ∈ p.tokens → Word w)
    {ts : List Tok} {s : List Char} (h : Spells ts s) (hs : Breaks s) :
    Spells (p.canon.tokens ++ ts) (render p.tree ++ s) := by
  induction p with
  | last e => exact Exec.spells_render hp hwords h hs
  | cons e p ih =>
    have hbar : '|' ∈ symbols := by simp [symbols]
    have htail := ih hp.2 fun w hw =>
      hwords w (List.mem_append_right _ (List.mem_cons_of_mem _ hw))
    have hhead := Exec.spells_render hp.1 (fun w hw => hwords w (List.mem_append_left _ hw))
      (spells_symbol hbar htail) (breaks_cons (fun hc => hc.2 hbar) _)
    rw [Pipe.canon, Pipe.tokens, Pipe.tree, render, List.append_assoc, List.append_assoc]
    exact hhead

theorem render_back (n : Nat) (cmd : Cmd) :
    render (Nat.iterate Cmd.back n cmd) = render cmd ++ List.replicate n '&' := by
  induction n with
  | zero => rw [Function.iterate_zero, id_eq, List.replicate_zero, List.append_nil]
  | succ n ih =>
    rw [Function.iterate_succ', Function.comp_apply, render, ih, List.replicate_succ',
      List.append_assoc]

/-- **The rendering of a derivation's tree has a derivation** with the same tree. -/
theorem Line.derives_render {d : Line} {s : List Char} (hd : d.Derives s) :
    ∃ d' : Line, d'.Derives (render d.tree) ∧ d'.tree = d.tree := by
  obtain ⟨hpipe, h⟩ := hd
  have hamp : '&' ∈ symbols := by simp [symbols]
  have hamps : ∀ n, Spells (List.replicate n (.sym '&')) (List.replicate n '&') := by
    intro n
    induction n with
    | zero => exact .nil fun c hc => absurd hc List.not_mem_nil
    | succ n ih => exact spells_symbol hamp ih
  have hbreaks : Breaks (List.replicate d.amps '&') := by
    intro c hc hword
    have hmem := List.mem_of_mem_head? hc
    rw [List.eq_of_mem_replicate hmem] at hword
    exact hword.2 hamp
  refine ⟨⟨d.pipe.canon, d.amps⟩, ⟨Pipe.canon_ok hpipe, ?_⟩, ?_⟩
  · rw [Line.tree, render_back]
    exact Pipe.spells_render hpipe
      (fun w hw => h.word_of_mem (List.mem_append_left _ hw)) (hamps d.amps) hbreaks
  · rw [Line.tree, Line.tree, Pipe.canon_tree]

/-- **A tree that the parser returns comes back from its own rendering.** -/
theorem parsecmd_render {s : List Char} (hs : '\x00' ∉ s) {t : Cmd} (ht : parsecmd s = .ok t) :
    parsecmd (render t) = .ok t := by
  obtain ⟨d, hd, rfl⟩ := (parsecmd_iff hs t).1 ht
  obtain ⟨d', hd', htree⟩ := Line.derives_render hd
  rw [parsecmd_complete hd', htree]

/-- **The parser and its grammar**: for every C string `parsecmd` returns a tree or panics; it returns a
    tree exactly when the string has a derivation, and then the tree of the derivation; and parsing the
    rendering of that tree gives it back. -/
theorem parsecmd_grammar (s : List Char) (hs : '\x00' ∉ s) :
    ((∃ t, parsecmd s = .ok t) ∨ Panics (parsecmd s)) ∧
      (∀ t, parsecmd s = .ok t ↔ ∃ d : Line, d.Derives s ∧ t = d.tree) ∧
      ∀ t, parsecmd s = .ok t → parsecmd (render t) = .ok t :=
  ⟨parsecmd_total hs, parsecmd_iff hs, fun _ ht => parsecmd_render hs ht⟩

theorem parsecmd_grammar_sample :
    ((∃ t, parsecmd "ls <f | wc &".toList = .ok t) ∨ Panics (parsecmd "ls <f | wc &".toList)) ∧
      (∀ t, parsecmd "ls <f | wc &".toList = .ok t ↔
        ∃ d : Line, d.Derives "ls <f | wc &".toList ∧ t = d.tree) ∧
      ∀ t, parsecmd "ls <f | wc &".toList = .ok t → parsecmd (render t) = .ok t :=
  parsecmd_grammar _ (by decide)

end WeiOS.Shell
