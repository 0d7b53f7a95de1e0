import Mathlib
import WeiOS.Lib.MapProgram
import WeiOS.Fs.Crash

/-!
# Transactions as Programs over Blocks

A system call reads blocks with `bread`, chooses what it writes by what it has read, and passes the blocks it
changes to `log_write`. As a program over the blocks outside of the log area it knows nothing of the cache, the
log or the disk. What the disk should hold in the middle of such a program, and what recovery makes of it, is
stated here.

## Main results
- `Pending.recovers`, `Decided.recovers`: the recovery before and after the log header is written.
-/

namespace WeiOS.BlockStore

open WeiOS.Lib Ide Bio Crash
open WeiOS.Recovery (Block Disk LogHeader headerOf recoverFromLog)
open WeiOS.Commit (Config Sys InArea Ours LogState)

/-- What a system call does between `begin_transaction` and `end_transaction`. -/
abbrev Prog (α : Type) := MapProg Nat Block α

/-! ## §1 Running a program -/

variable {α : Type}

/-- A block is read: `bread`, the data of the buffer, `brelse`. -/
def readBlock (cfg : Config) (blkno : Nat) : T Block := do
  let b ← io (Commit.bread cfg blkno)
  let s ← quiet get
  quiet (Commit.brelse b)
  return (s.buf b).data

def exec (cfg : Config) : Prog α → T α
  | .done a => return a
  | .read blkno next => do
    let data ← readBlock cfg blkno
    exec cfg (next data)
  | .write blkno data next => do
    (Access.write blkno data).run cfg
    exec cfg next

/-- A program and the commit at its end. -/
def transaction (cfg : Config) (p : Prog α) : T α := do
  let a ← exec cfg p
  commit cfg
  return a

/-- Transactions one after the other. -/
def run (cfg : Config) : List (Prog α) → T (List α)
  | [] => return []
  | p :: ps => do
    let a ← transaction cfg p
    let as ← run cfg ps
    return a :: as

/-! ## §2 What fits into the log -/

/-- The program uses blocks of the disk outside of the log area, and before each `log_write` the log lists, with
    the blocks `W` that it lists already, less than it has room for. -/
def Fits (cfg : Config) : Prog α → (Nat → Block) → Finset Nat → Prop
  | .done _, _, _ => True
  | .read n next, f, W => n < FSSIZE ∧ ¬ InArea cfg n ∧ Fits cfg (next (f n)) f W
  | .write n x next, f, W => n < FSSIZE ∧ ¬ InArea cfg n ∧ W.card + 1 < cfg.size ∧
      Fits cfg next (Function.update f n x) (insert n W)

/-- Each transaction fits, in the state that the ones before leave. -/
def AllFit (cfg : Config) : List (Prog α) → (Nat → Block) → Prop
  | [], _ => True
  | p :: ps, f => Fits cfg p f ∅ ∧ AllFit cfg ps (p.eval f).2

/-! ## §3 What is on the disk -/

/-- Two disks agree outside of the log area. -/
def SameOutside (cfg : Config) (d f : Nat → Block) : Prop := ∀ m, ¬ InArea cfg m → d m = f m

/-- The log header lists nothing, and each block is as before or as written. -/
structure Pending (cfg : Config) (f : Nat → Block) (ws : List (Nat × Block)) (d : Disk) : Prop where
  nblks : (headerOf (d cfg.start)).nblks = 0
  blocks : ∀ m, ¬ InArea cfg m → d m = f m ∨ (m, d m) ∈ ws

/-- The log header lists `lh`: the listed blocks are in the log, and all others are in place. -/
structure Decided (cfg : Config) (lh : LogHeader) (g : Nat → Block) (d : Disk) : Prop where
  log : LogState cfg lh
  nblks : (headerOf (d cfg.start)).nblks = lh.nblks
  home : ∀ i < lh.count, (headerOf (d cfg.start)).home i = lh.home i
  blocks : ∀ i < lh.count, d (cfg.start + i + 1) = g (lh.home i)
  rest : ∀ m, ¬ InArea cfg m → ¬ Lists lh m → d m = g m

/-- The disks that the recovery can deal with. -/
def Recoverable (cfg : Config) (f : Nat → Block) (ws : List (Nat × Block)) (g : Nat → Block) (d : Disk) : Prop :=
  Pending cfg f ws d ∨ ∃ lh, Decided cfg lh g d

variable {cfg : Config} {lh : LogHeader} {f g : Nat → Block} {ws : List (Nat × Block)} {d d' e : Disk}
  {n : Nat} {x : Block}

theorem Pending.congr (h : Pending cfg f ws d) (hstart : d' cfg.start = d cfg.start)
    (hsame : SameOutside cfg d' d) : Pending cfg f ws d' where
  nblks := by
    rw [hstart]
    exact h.nblks
  blocks := by
    intro m hm
    rw [hsame m hm]
    exact h.blocks m hm

/-- One block is written. -/
theorem Pending.update (h : Pending cfg f ws d)
    (hstart : n = cfg.start → x = d cfg.start) (hx : ¬ InArea cfg n → x = f n ∨ (n, x) ∈ ws) :
    Pending cfg f ws (Function.update d n x) where
  nblks := by
    by_cases hn : n = cfg.start
    · rw [hn, Function.update_self, hstart hn]
      exact h.nblks
    · rw [Function.update_of_ne (Ne.symm hn)]
      exact h.nblks
  blocks := by
    intro m hm
    by_cases hmn : m = n
    · subst hmn
      rw [Function.update_self]
      exact hx hm
    · rw [Function.update_of_ne hmn]
      exact h.blocks m hm

theorem Pending.halfway (h : Pending cfg f ws d) (h' : Pending cfg f ws d') (he : Halfway d d' e) :
    Pending cfg f ws e where
  nblks := by
    rcases he cfg.start with heq | heq
    · rw [heq]
      exact h.nblks
    · rw [heq]
      exact h'.nblks
  blocks := by
    intro m hm
    rcases he m with heq | heq
    · rw [heq]
      exact h.blocks m hm
    · rw [heq]
      exact h'.blocks m hm

/-- A call that leaves the log area as it is, and changes listed blocks only. -/
theorem Decided.halfway (h : Decided cfg lh g d)
    (hsame : ∀ m, InArea cfg m ∨ ¬ Lists lh m → d' m = d m) (he : Halfway d d' e) : Decided cfg lh g e := by
  have hlog : ∀ i ≤ lh.count, e (cfg.start + i) = d (cfg.start + i) :=
    fun i hi => he.eq_of_eq (hsame _ (.inl (h.log.inArea hi)))
  have hstart : e cfg.start = d cfg.start := hlog 0 (Nat.zero_le _)
  refine ⟨h.log, ?_, ?_, ?_, ?_⟩
  · rw [hstart]
    exact h.nblks
  · rw [hstart]
    exact h.home
  · intro i hi
    exact (hlog (i + 1) hi).trans (h.blocks i hi)
  · intro m hm hlists
    rw [he.eq_of_eq (hsame m (.inr hlists))]
    exact h.rest m hm hlists

/-! ## §4 Recovery -/

theorem Pending.count (h : Pending cfg f ws d) (i : Nat) : ¬ i < (headerOf (d cfg.start)).count := by
  intro hi
  rw [LogHeader.count, h.nblks] at hi
  exact Nat.not_lt_zero i hi

theorem Pending.goodLog (harea : Area cfg) (h : Pending cfg f ws d) :
    Recovery.GoodLog cfg.start cfg.size d := by
  refine ⟨harea.size, harea.area, ?_, ?_, ?_, ?_, ?_⟩
  · rw [h.nblks]
    have hpos := harea.pos
    show (0 : Int) ≤ _
    omega
  · rw [h.nblks]
    exact le_rfl
  all_goals exact fun i hi => absurd hi (h.count i)

/-- An empty log is left as it is. -/
theorem Pending.recovers (harea : Area cfg) (h : Pending cfg f ws d) :
    ∃ d', recoverFromLog cfg.start d = some d' ∧ (headerOf (d' cfg.start)).nblks = 0 ∧
      SameOutside cfg d' d := by
  obtain ⟨d', hrun, hinst⟩ := Recovery.recoverFromLog_spec (h.goodLog harea)
  refine ⟨d', hrun, hinst.nblks, fun m hm => ?_⟩
  exact hinst.other m (ne_of_outside harea.start hm) fun i hi => absurd hi (h.count i)

/-- What the header on the disk lists. -/
theorem Decided.lists (h : Decided cfg lh g d) : (headerOf (d cfg.start)).count = lh.count ∧
    ∀ i < (headerOf (d cfg.start)).count, (headerOf (d cfg.start)).home i = lh.home i := by
  have hcount : (headerOf (d cfg.start)).count = lh.count := by
    unfold LogHeader.count
    rw [h.nblks]
  exact ⟨hcount, fun i hi => h.home i (hcount ▸ hi)⟩

theorem Decided.goodLog (h : Decided cfg lh g d) : Recovery.GoodLog cfg.start cfg.size d := by
  obtain ⟨hcount, hhome⟩ := h.lists
  refine ⟨h.log.size, h.log.area, ?_, ?_, ?_, ?_, ?_⟩
  · rw [h.nblks]
    exact h.log.count
  · rw [h.nblks]
    exact h.log.pos.le
  · intro i hi
    rw [hhome i hi]
    exact h.log.onDisk i (hcount ▸ hi)
  · intro i hi
    have hout := h.log.outside i (hcount ▸ hi)
    rw [hhome i hi]
    unfold InArea at hout
    omega
  · intro i hi j hj heq
    rw [hhome i hi, hhome j hj] at heq
    exact h.log.distinct i (hcount ▸ hi) j (hcount ▸ hj) heq

/-- **A log that lists blocks is installed**, and all blocks are then those of the program. -/
theorem Decided.recovers (harea : Area cfg) (h : Decided cfg lh g d) :
    ∃ d', recoverFromLog cfg.start d = some d' ∧ (headerOf (d' cfg.start)).nblks = 0 ∧
      SameOutside cfg d' g := by
  obtain ⟨hcount, hhome⟩ := h.lists
  obtain ⟨d', hrun, hinst⟩ := Recovery.recoverFromLog_spec h.goodLog
  refine ⟨d', hrun, hinst.nblks, fun m hm => ?_⟩
  by_cases hlists : Lists lh m
  · obtain ⟨i, hi, rfl⟩ := hlists
    rw [← h.home i hi, hinst.home i (hcount.symm ▸ hi), h.blocks i hi, h.home i hi]
  · rw [hinst.other m (ne_of_outside harea.start hm), h.rest m hm hlists]
    intro i hi heq
    exact hlists ⟨i, hcount ▸ hi, (heq.trans (hhome i hi)).symm⟩

/-- **A recovery that crashes** leaves again a disk that recovery can deal with. -/
theorem Recoverable.crashed (h : Recoverable cfg f ws g d) (hc : Recovery.Crashed cfg.start d e) :
    Recoverable cfg f ws g e := by
  rcases h with h | ⟨lh, h⟩
  · have hsame : e = d := funext fun m => hc m fun i hi => absurd hi (h.count i)
    rw [hsame]
    exact .inl h
  · right
    obtain ⟨_, hhome⟩ := h.lists
    refine ⟨lh, h.halfway ?_ (Halfway.after d e)⟩
    rintro m hm
    apply hc
    rintro i hi rfl
    rw [hhome i hi] at hm
    have hlt := (h.lists.1 ▸ hi : i < lh.count)
    rcases hm with hin | hnot
    · exact h.log.outside i hlt hin
    · exact hnot ⟨i, hlt, rfl⟩

/-- The recoveries of a boot: some are cut off after any of their home writes, and the last one is not. -/
def Recovers (cfg : Config) (e d : Disk) : Prop :=
  ∃ (crashes : List (List Nat)) (e' : Disk), (∀ w ∈ crashes, ∀ i ∈ w, i < (headerOf (e cfg.start)).count) ∧
    crashes.foldlM (Recovery.attempt cfg.start) e = some e' ∧ recoverFromLog cfg.start e' = some d

/-- **Recovery from any crash**: each block is as before or as the program writes it, or all blocks are those of
    the whole program. -/
theorem Recoverable.recovers (harea : Area cfg) (h : Recoverable cfg f ws g e) (hrec : Recovers cfg e d) :
    (headerOf (d cfg.start)).nblks = 0 ∧
      ((∀ m, ¬ InArea cfg m → d m = f m ∨ (m, d m) ∈ ws) ∨ SameOutside cfg d g) := by
  obtain ⟨crashes, e', hw, hrun, hlast⟩ := hrec
  have hgood : Recovery.GoodLog cfg.start cfg.size e := by
    rcases h with h | ⟨lh, h⟩
    · exact h.goodLog harea
    · exact h.goodLog
  obtain ⟨e₁, hrun₁, hc⟩ := Recovery.attempts_crashed (fun _ _ => rfl) hgood hw
  obtain rfl : e₁ = e' := Option.some.inj (hrun₁.symm.trans hrun)
  rcases h.crashed hc with h | ⟨lh, h⟩
  · obtain ⟨d', hrun', hnblks, hsame⟩ := h.recovers harea
    obtain rfl : d' = d := Option.some.inj (hrun'.symm.trans hlast)
    refine ⟨hnblks, .inl fun m hm => ?_⟩
    rw [hsame m hm]
    exact h.blocks m hm
  · obtain ⟨d', hrun', hnblks, hsame⟩ := h.recovers harea
    obtain rfl : d' = d := Option.some.inj (hrun'.symm.trans hlast)
    exact ⟨hnblks, .inr hsame⟩

/-- Recovery finds its end from every such disk. -/
theorem Recoverable.recovers_once (harea : Area cfg) (h : Recoverable cfg f ws g e) :
    ∃ d, Recovers cfg e d := by
  have hrun : ∃ d, recoverFromLog cfg.start e = some d := by
    rcases h with h | ⟨lh, h⟩
    · obtain ⟨d, hrun, _⟩ := h.recovers harea
      exact ⟨d, hrun⟩
    · obtain ⟨d, hrun, _⟩ := h.recovers harea
      exact ⟨d, hrun⟩
  obtain ⟨d, hrun⟩ := hrun
  exact ⟨d, [], e, by simp, rfl, hrun⟩

end WeiOS.BlockStore
