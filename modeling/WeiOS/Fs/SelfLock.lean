import Mathlib
import WeiOS.Fs.HeldInodes

/-!
# Self-Deadlock on Inode Locks

A call that sleeps on the lock of an inode that it has locked itself never wakes up. The path calls of
`kern/sysfile.c` lock inodes that they find by name, and two names may stand for one inode. For each of
`open`, `link`, `unlink`, `mkdir`, `mknod` and `chdir` this module says exactly in which states it
happens.

## Main results
- `selfLock_iff`: a call sleeps on none of its own locks if and only if the names in it are clear.
- `unlink_dot`: removing `/.` is not clear.
-/

namespace WeiOS.Dir

open WeiOS.Inode WeiOS.Lib

/-! ## §1 Clear names -/

/-- The inodes in `L` are locked: the entry `name` of the directory `di`, if there is one, stands for
    another inode. -/
def EntryClear (L : Finset Nat) (di : Nat) (name : Name) : Kern → Prop :=
  After (dirlookup di name) fun r _ => ∀ i off, r.2 = some (i, off) → i ∉ L

/-- The last name of the path does not stand for the directory that it is in. -/
def UnlinkClear (pwd : Nat) (pathname : Name) : Kern → Prop :=
  After (namep pwd pathname) fun r =>
    match r.1 with
    | none => fun _ => True
    | some di => After (ilock di) fun _ => EntryClear {di} di r.2

/-- The part of `link` that counts the new link to the file; `false` for a directory. -/
def linkCount (i : Nat) : FsM Bool := do
  let _ ← ilock i
  if ((← get).node i).type = T_DIR then pure false
  else
    nlinkInc i
    iupdate i
    let _ ← iunlock i
    pure true

/-- The new name of the file `i` in the directory `di` does not stand for `di` yet, and `di` is not the
    file itself, unless the entry is not written. -/
def LinkEntryClear (i di : Nat) (name : Name) : Kern → Prop :=
  After (ilock di) fun _ s =>
    ((s.node i).dev = (s.node di).dev → EntryClear {di} di name s) ∧
      (i = di → After (linkInto di name i) (fun r _ => r < 0) s)

/-- The names of `link` are clear. -/
def LinkClear (pwd : Nat) (oldpname newpname : Name) : Kern → Prop :=
  After (namei pwd oldpname) fun r =>
    match r with
    | none => fun _ => True
    | some i => After (linkCount i) fun isFile =>
      if isFile then
        After (namep pwd newpname) fun r =>
          match r.1 with
          | none => fun _ => True
          | some di => LinkEntryClear i di r.2
      else fun _ => True

/-- The inode on disk that `creat` takes for a new file is not the one of the directory. -/
def NewInodeClear (pwd : Nat) (pathname : Name) (type : Nat) : Kern → Prop :=
  After (namep pwd pathname) fun r =>
    match r.1 with
    | none => fun _ => True
    | some di => After (ilock di) fun _ => After (dirlookup di r.2) fun e s =>
      e.1 < 0 → After (ialloc (s.node di).dev type) (fun i _ => i ≠ some di) s

/-- The dots of the new directory `i` in `di` do not stand for `i` or `di` before they are written. -/
def DotsClear (di i : Nat) : Kern → Prop := fun s =>
  EntryClear {i, di} i [46] s ∧
    After (dirlink i [46] (s.node i).ino) (fun r t => 0 ≤ r → EntryClear {i, di} i [46, 46] t) s

/-- The new entries of `creat` are not there yet, or stand for other inodes. -/
def EntriesClear (type di : Nat) (name : Name) (i : Nat) : Kern → Prop := fun s =>
  (type = T_DIR → DotsClear di i s) ∧
    After (linkDots type di i) (fun dots t => dots = true → EntryClear {i, di} di name t) s

/-- The names of `creat` are clear. -/
def CreatClear (pwd : Nat) (pathname : Name) (type major minor : Nat) : Kern → Prop := fun s =>
  NewInodeClear pwd pathname type s ∧
    After (creatInode pwd pathname type major minor) (fun r =>
      match r with
      | .done _ => fun _ => True
      | .fresh di name i => EntriesClear type di name i) s

/-! ## §2 Locks -/

section
variable {n : Nat → Nat} {L : Finset Nat} {s : Kern} {i di pwd : Nat}

/-- A lock that is held cannot be taken again. -/
theorem sleepLock_held (hs : CacheInv n L s) (hi : i ∈ L) : sleepLock i s = .error .selfLock := by
  have hslk := (hs.slk i).2 hi
  simp [sleepLock, get, getThe, MonadStateOf.get, StateT.get, bind, StateT.bind, Except.bind, pure,
    Except.pure, hslk, throw, throwThe, MonadExceptOf.throw, StateT.lift]

/-- `ilock` waits for itself exactly on an inode that is locked. -/
theorem ilock_noSelfLock (hs : CacheInv n L s) (hi : 0 < n i) :
    Avoids .selfLock (ilock i) s ↔ i ∉ L := by
  constructor
  · intro h hmem
    have href : ¬ (s.node i).ref < 1 := by
      rw [hs.ref]
      omega
    apply h
    show (if (s.node i).ref < 1 then _ else _ : FsM Int) s = _
    rw [if_neg href]
    simp only [bind, StateT.bind, sleepLock_held hs hmem, Except.bind]
  · intro hmem
    exact (ilock_refs hi fun h => absurd h hmem).avoids hs

/-- `iput` waits for itself exactly on an inode that is locked. -/
theorem iput_noSelfLock (hs : CacheInv (addRef n i) L s) (hn : Small 1 n) :
    Avoids .selfLock (iput i) s ↔ i ∉ L := by
  constructor
  · intro h hmem
    apply h
    simp only [iput, bind, StateT.bind, sleepLock_held hs hmem, Except.bind]
  · intro hmem
    exact (iput_refs hn fun h => absurd h hmem).avoids hs

/-! ## §3 `dirlink` -/

/-- **`dirlink`** waits for itself exactly when the name is there and stands for a locked inode. -/
theorem dirlink_noSelfLock (hs : CacheInv n L s) (hn : Small 1 n) (hi : di ∈ L) (name : Name)
    (ino : Nat) : Avoids .selfLock (dirlink di name ino) s ↔ EntryClear L di name s := by
  apply (dirlookup_refs hn hi name).avoids_bind hs
  rintro ⟨r, e⟩ t ht
  cases e with
  | none =>
    have hclear : ∀ i off, (none : Option (Nat × Nat)) = some (i, off) → i ∉ L := nofun
    refine ⟨fun _ => hclear, fun _ => ?_⟩
    dsimp only
    split
    · exact avoids_throw nofun
    · exact (writeDirent_refs hi name ino).avoids ht
  | some x =>
    obtain ⟨i, off⟩ := x
    obtain ⟨hr, ht⟩ := ht
    have hr : r = 0 := hr
    dsimp only
    rw [if_pos hr, Lib.avoids_bind, iput_noSelfLock ht hn]
    constructor
    · rintro ⟨h, _⟩ j off' hj
      cases hj
      exact h
    · intro h
      exact ⟨h i off rfl, fun _ _ _ => avoids_pure _⟩

/-! ## §4 `unlink` -/

/-- **`unlink`** waits for itself exactly when the last name stands for the directory that it is in. -/
theorem unlink_noSelfLock (hs : CacheInv n ∅ s) (hn : Small 3 n) (hpwd : 0 < n pwd)
    (pathname : Name) : Avoids .selfLock (unlink pwd pathname) s ↔ UnlinkClear pwd pathname s := by
  apply (namex_refs (hn.mono (by omega)) hpwd pathname true).avoids_bind hs
  rintro ⟨r, name⟩ t ht
  cases r with
  | none => exact iff_of_true (avoids_pure _) trivial
  | some di =>
    apply (ilock_empty (by simp)).avoids_bind ht
    intro _ u hu
    have hdi : di ∈ ({di} : Finset Nat) := Finset.mem_singleton_self di
    apply (dirlookup_refs ((hn.addRef di).mono (by omega)) hdi name).avoids_bind hu
    rintro ⟨r, e⟩ v hv
    have hn1 : Small 1 n := hn.mono (by omega)
    cases e with
    | none =>
      have hclear : ∀ i off, (none : Option (Nat × Nat)) = some (i, off) → i ∉ ({di} : Finset Nat) := by
        intro i off h
        cases h
      refine iff_of_true ?_ hclear
      dsimp only
      split
      · have hput : Triple (CacheInv (addRef n di) {di})
            (do
              iunlockput di
              pure (-1 : Int)) (fun _ _ => True) NotSelfLock :=
          (iunlockput_singleton hn1).seq fun _ => Triple.ret fun _ _ => trivial
        exact hput.avoids hv
      · exact avoids_throw (by simp)
    | some x =>
      obtain ⟨i, off⟩ := x
      obtain ⟨hr, hv⟩ := hv
      have hr : ¬ r < 0 := by
        have : r = 0 := hr
        omega
      dsimp only
      rw [if_neg hr, Lib.avoids_bind, ilock_noSelfLock hv (by simp)]
      constructor
      · rintro ⟨h, _⟩ j off' hj
        cases hj
        exact h
      · intro h
        have hne := h i off rfl
        refine ⟨hne, fun _ w hw => ?_⟩
        have hw := (ilock_refs (E := AnyFault) (by simp) fun _ => trivial).of_ok hv hw
        exact (unlinkEntry_refs hn hne off).avoids hw.2

/-! ## §5 `link` -/

/-- The entry of `link` is made. -/
theorem linkInto_refs {E : Fault → Prop} [Calm E] (hn : Small 1 n) (name : Name)
    (hE : E .selfLock) :
    Triple (CacheInv n {di}) (linkInto di name i) (fun _ => CacheInv n {di}) E := by
  apply Triple.peek
  intro s hs
  split
  · exact Triple.ret fun s hs => hs
  · exact dirlink_refs hn (Finset.mem_singleton_self di) _ _ hE

theorem linkInto_noSelfLock (hs : CacheInv n {di} s) (hn : Small 1 n) (name : Name) :
    Avoids .selfLock (linkInto di name i) s ↔
      ((s.node i).dev = (s.node di).dev → EntryClear {di} di name s) := by
  show Avoids .selfLock (if (s.node i).dev ≠ (s.node di).dev then pure (-1)
    else dirlink di name (s.node i).ino) s ↔ _
  split
  · next hdev => exact iff_of_true (avoids_pure _) fun h => absurd h hdev
  · next hdev =>
    have hdev := not_not.1 hdev
    rw [dirlink_noSelfLock hs hn (Finset.mem_singleton_self di)]
    exact ⟨fun h _ => h, fun h => h hdev⟩

/-- What `link` does once the entry was made or refused: the directory is still locked. -/
def linkFinish (i di : Nat) (r : Int) : FsM Int := do
  if r < 0 then
    iunlockput di
    linkErr i
  else
    iupdate di
    iput i
    iunlockput di
    pure 0

theorem linkFinish_noSelfLock (hn : Small 3 n) (hs : CacheInv (addRef (addRef n i) di) {di} s)
    (r : Int) : Avoids .selfLock (linkFinish i di r) s ↔ (i = di → r < 0) := by
  have hn1 : Small 1 n := hn.mono (by omega)
  unfold linkFinish
  split
  · next hr =>
    have hfail : Triple (CacheInv (addRef (addRef n i) di) {di})
        (do
          iunlockput di
          linkErr i) (fun _ => CacheInv n ∅) NotSelfLock :=
      (iunlockput_singleton ((hn.addRef i).mono (by omega))).seq fun _ => linkErr_refs hn1
    exact iff_of_true (hfail.avoids hs) fun _ => hr
  · next hr =>
    apply Iff.trans (iupdate_refs.avoids_bind hs (Ψ := fun _ _ => i ∉ ({di} : Finset Nat)) ?_)
    · constructor
      · intro h hi
        have hup := h ⟨⟩ { s with fs := Inode.iupdate s.fs di } rfl
        exact absurd (Finset.mem_singleton.2 hi) hup
      · intro h _ _ _ hmem
        exact hr (h (Finset.mem_singleton.1 hmem))
    · intro _ t ht
      rw [addRef_comm] at ht
      rw [Lib.avoids_bind, iput_noSelfLock ht ((hn.addRef di).mono (by omega))]
      apply and_iff_left_of_imp
      intro hmem _ u hu
      have hu := (iput_refs (E := AnyFault) ((hn.addRef di).mono (by omega)) fun _ => trivial).of_ok
        ht hu
      have hput : Triple (CacheInv (addRef n di) {di})
          (do
            iunlockput di
            pure (0 : Int)) (fun _ _ => True) NotSelfLock :=
        (iunlockput_singleton hn1).seq fun _ => Triple.ret fun _ _ => trivial
      exact hput.avoids hu

/-- **`link`** waits for itself exactly when the new name stands for the directory that it is in, or
    when this directory is the file itself. -/
theorem link_noSelfLock (hs : CacheInv n ∅ s) (hn : Small 3 n) (hpwd : 0 < n pwd)
    (oldpname newpname : Name) :
    Avoids .selfLock (link pwd oldpname newpname) s ↔ LinkClear pwd oldpname newpname s := by
  have hn1 : Small 1 n := hn.mono (by omega)
  apply (namei_refs (hn.mono (by omega)) hpwd oldpname).avoids_bind hs
  intro r t ht
  cases r with
  | none => exact iff_of_true (avoids_pure _) trivial
  | some i =>
    dsimp only
    rw [linkCount, after_bind]
    apply (ilock_empty (by simp)).avoids_bind ht
    intro _ u hu
    rw [avoids_get, after_get]
    by_cases hdir : (u.node i).type = T_DIR
    · rw [if_pos hdir, if_pos hdir, after_pure]
      have hput : Triple (CacheInv (addRef n i) {i})
          (do
            iunlockput i
            pure (-1 : Int)) (fun _ _ => True) NotSelfLock :=
        (iunlockput_singleton hn1).seq fun _ => Triple.ret fun _ _ => trivial
      exact iff_of_true (hput.avoids hu) trivial
    rw [if_neg hdir, if_neg hdir, after_bind]
    apply (addLink_refs _).avoids_bind hu
    intro _ u hu
    rw [after_bind]
    apply iupdate_refs.avoids_bind hu
    intro _ u hu
    rw [after_bind]
    apply (iunlock_singleton.post fun _ _ h => h.2).avoids_bind hu
    intro _ u hu
    rw [after_pure]
    have hpwd' : 0 < addRef n i pwd := by
      rw [addRef_apply]
      omega
    apply (namex_refs (hn.addRef i) hpwd' newpname true).avoids_bind hu
    rintro ⟨r, name⟩ v hv
    cases r with
    | none => exact iff_of_true ((linkErr_refs hn1).avoids hv) trivial
    | some di =>
      apply (ilock_empty (by simp)).avoids_bind hv
      intro _ w hw
      have hn2 : Small 1 (addRef (addRef n i) di) := (hn.addRef i).addRef di
      show Avoids .selfLock (linkInto di name i >>= fun r => linkFinish i di r) w ↔ _
      rw [Lib.avoids_bind, linkInto_noSelfLock hw hn2]
      apply and_congr_right'
      have hlink : Triple (CacheInv (addRef (addRef n i) di) {di}) (linkInto di name i)
          (fun _ => CacheInv (addRef (addRef n i) di) {di}) AnyFault :=
        linkInto_refs hn2 name trivial
      rw [hlink.after_congr hw fun r x hx => linkFinish_noSelfLock hn hx r]
      exact ⟨fun h hi a x hax => h a x hax hi, fun h a x hax hi => h hi a x hax⟩

/-! ## §6 `creat` -/

theorem creatInode_noSelfLock (hs : CacheInv n ∅ s) (hn : Small 3 n) (hpwd : 0 < n pwd)
    (pathname : Name) (type major minor : Nat) :
    Avoids .selfLock (creatInode pwd pathname type major minor) s ↔
      NewInodeClear pwd pathname type s := by
  apply (namex_refs (hn.mono (by omega)) hpwd pathname true).avoids_bind hs
  rintro ⟨r, name⟩ t ht
  cases r with
  | none => exact iff_of_true (avoids_pure _) trivial
  | some di =>
    apply (ilock_empty (by simp)).avoids_bind ht
    intro _ u hu
    have hdi : di ∈ ({di} : Finset Nat) := Finset.mem_singleton_self di
    have hn2 : Small 1 (addRef n di) := (hn.addRef di).mono (by omega)
    apply (dirlookup_refs hn2 hdi name).avoids_bind hu
    rintro ⟨r, e⟩ v hv
    dsimp only
    split
    · next hr =>
      refine iff_of_true ?_ fun h => absurd h (not_lt.2 hr)
      cases e with
      | none => exact avoids_throw (by simp)
      | some x =>
        obtain ⟨i, off⟩ := x
        exact (creatFound_refs (hn.mono (by omega)) type).avoids hv.2
    · next hr =>
      have hv : CacheInv (addRef n di) {di} v := by
        cases e with
        | none => exact hv
        | some x =>
          have := hv.1
          simp only at this
          omega
      rw [avoids_get, forall_prop_of_true (not_le.1 hr)]
      apply (ialloc_refs hn2 _ _).avoids_bind hv
      intro x w hw
      cases x with
      | none => exact iff_of_true (avoids_throw (by simp)) (by simp)
      | some i =>
        dsimp only
        rw [Lib.avoids_bind, ilock_noSelfLock hw (by simp)]
        constructor
        · rintro ⟨h, _⟩ hi
          exact h (Finset.mem_singleton.2 (Option.some.inj hi))
        · intro h
          have hne : i ∉ ({di} : Finset Nat) := by
            intro hmem
            exact h (congrArg some (Finset.mem_singleton.1 hmem))
          refine ⟨hne, fun _ x hx => ?_⟩
          have hx := (ilock_refs (E := AnyFault) (by simp) fun _ => trivial).of_ok hw hx
          exact (creatFresh_refs hne name major minor).avoids hx.2

/-- The entries of a new directory: `linkDots` waits for itself exactly when a dot is there. -/
theorem linkDots_noSelfLock (hs : CacheInv n {i, di} s) (hn : Small 1 n) (type : Nat) :
    Avoids .selfLock (linkDots type di i) s ↔ (type = T_DIR → DotsClear di i s) := by
  have hi : i ∈ ({i, di} : Finset Nat) := Finset.mem_insert_self i _
  unfold linkDots
  split
  · next htype =>
    rw [forall_prop_of_true htype, avoids_get, Lib.avoids_bind, dirlink_noSelfLock hs hn hi]
    apply and_congr_right'
    have hlink : Triple (CacheInv n {i, di}) (dirlink i [46] (s.node i).ino)
        (fun _ => CacheInv n {i, di}) AnyFault := dirlink_refs hn hi _ _ trivial
    apply hlink.after_congr hs
    intro r t ht
    split
    · next hr => exact iff_of_true (avoids_pure _) fun h => absurd h (not_le.2 hr)
    · next hr =>
      rw [forall_prop_of_true (not_lt.1 hr), avoids_get, Lib.avoids_bind,
        dirlink_noSelfLock ht hn hi]
      apply and_iff_left
      intro r u hu
      have hu : CacheInv n {i, di} u :=
        (dirlink_refs (E := AnyFault) hn hi _ _ trivial).of_ok ht hu
      split
      · exact avoids_pure _
      · have hcount : Triple (CacheInv n {i, di})
            (do
              nlinkInc di
              iupdate di
              pure true) (fun _ _ => True) NotSelfLock :=
          (addLink_refs _).seq fun _ => iupdate_refs.seq fun _ => Triple.ret fun _ _ => trivial
        exact hcount.avoids hu
  · next htype => exact iff_of_true (avoids_pure _) fun h => absurd h htype

/-- The second half of `creat`, with the parent and the new inode locked. -/
theorem creatLink_noSelfLock (hn : Small 3 n) {r : Created} (hs : Creating n r s) (type : Nat) :
    Avoids .selfLock (creatLink type r) s ↔
      match r with
      | .done _ => True
      | .fresh di name i => EntriesClear type di name i s := by
  cases r with
  | done x => exact iff_of_true (avoids_pure _) trivial
  | fresh di name i =>
    obtain ⟨hne, hs⟩ := hs
    have hi : i ∈ (insert i {di} : Finset Nat) := by simp
    have hdi : di ∈ (insert i {di} : Finset Nat) := by simp
    have hnotin : i ∉ ({di} : Finset Nat) := by simpa using hne
    have hn1 : Small 1 (addRef (addRef n di) i) := (hn.addRef di).addRef i
    show Avoids .selfLock (linkDots type di i >>= _) s ↔ _
    rw [Lib.avoids_bind, linkDots_noSelfLock hs hn1]
    apply and_congr_right'
    apply (linkDots_refs (E := AnyFault) hn1 type hi trivial).after_congr hs
    intro dots t ht
    cases dots with
    | false =>
      have hput : Triple (CacheInv (addRef (addRef n di) i) (insert i {di}))
          (do
            iunlockput i
            pure (none : Option Nat)) (fun _ _ => True) NotSelfLock :=
        (iunlockput_refs ((hn.addRef di).mono (by omega)) hi).seq fun _ =>
          Triple.ret fun _ _ => trivial
      exact iff_of_true (hput.avoids ht) nofun
    | true =>
      rw [forall_prop_of_true rfl]
      show Avoids Fault.selfLock (get >>= _) t ↔ _
      rw [avoids_get, Lib.avoids_bind, dirlink_noSelfLock ht hn1 hdi]
      apply and_iff_left
      intro r u hu
      have hu : CacheInv (addRef (addRef n di) i) (insert i {di}) u :=
        (dirlink_refs (E := AnyFault) hn1 hdi _ _ trivial).of_ok ht hu
      split
      · exact avoids_throw nofun
      · rw [addRef_comm] at hu
        have hput : Triple (CacheInv (addRef (addRef n i) di) (insert i {di}))
            (do
              iunlockput di
              pure (some i)) (fun _ _ => True) NotSelfLock :=
          (iunlockput_refs ((hn.addRef i).mono (by omega)) hdi).seq fun _ =>
            Triple.ret fun _ _ => trivial
        exact hput.avoids hu

/-- **`creat`** waits for itself exactly when the new inode is the parent, or one of the new entries is
    there and stands for a locked inode. -/
theorem creat_noSelfLock (hs : CacheInv n ∅ s) (hn : Small 3 n) (hpwd : 0 < n pwd)
    (pathname : Name) (type major minor : Nat) :
    Avoids .selfLock (creat pwd pathname type major minor) s ↔
      CreatClear pwd pathname type major minor s := by
  rw [creat, Lib.avoids_bind, creatInode_noSelfLock hs hn hpwd]
  apply and_congr_right'
  apply (creatInode_refs hn hpwd pathname type major minor).after_congr hs
  intro r t ht
  rw [creatLink_noSelfLock hn ht]
  cases r <;> rfl

theorem creatAndPut_noSelfLock (hs : CacheInv n ∅ s) (hn : Small 3 n) (hpwd : 0 < n pwd)
    (pathname : Name) (type major minor : Nat) :
    Avoids .selfLock (creatAndPut pwd pathname type major minor) s ↔
      CreatClear pwd pathname type major minor s := by
  rw [creatAndPut, Lib.avoids_bind, creat_noSelfLock hs hn hpwd]
  apply and_iff_left
  intro x t ht
  cases x with
  | none => exact avoids_pure _
  | some i =>
    -- the inode is only returned when `creat` has not stopped at the dots
    obtain ⟨_, ht⟩ | ⟨_, hx, _⟩ := creat_refs hn hpwd hs ht
    · have hput : Triple (CacheInv (addRef n i) {i})
          (do
            iunlockput i
            pure (0 : Int)) (fun _ _ => True) NotSelfLock :=
        (iunlockput_singleton (hn.mono (by omega))).seq fun _ => Triple.ret fun _ _ => trivial
      exact hput.avoids ht
    · cases hx

end

end WeiOS.Dir

namespace WeiOS.Syscall

open WeiOS.Inode (T_DIR T_FILE T_DEV)
open WeiOS.Dir (Kern FsM CacheInv GotLocked AnyFault NotSelfLock CreatClear LinkClear
  UnlinkClear)
open WeiOS.Lib

/-! ## §7 System calls -/

/-- The calls that work on paths. -/
def PathCall : Call → Prop
  | .open_ _ _ | .link _ _ | .unlink _ | .mkdir _ | .mknod _ _ _ | .chdir _ => True
  | _ => False

/-- The names in the call are clear. -/
def CallClear (pwd : Nat) : Call → Kern → Prop
  | .open_ pathname flag => fun s =>
    badFlag flag = false → flag &&& O_CREAT ≠ 0 → CreatClear pwd (cstr pathname) T_FILE 0 0 s
  | .link oldpname newpname => LinkClear pwd (cstr oldpname) (cstr newpname)
  | .unlink pathname => UnlinkClear pwd (cstr pathname)
  | .mkdir pathname => CreatClear pwd (cstr pathname) T_DIR 0 0
  | .mknod pathname major minor =>
    CreatClear pwd (cstr pathname) T_DEV (major % 2 ^ 16) (minor % 2 ^ 16)
  | _ => fun _ => True

/-- A file system between two calls, as a process with the working directory `pwd` finds it: no inode
    is locked, and the counters have room for the references that one call takes. -/
structure AtRest (pwd : Nat) (s : Kern) : Prop where
  cache : CacheInv (fun i => (s.node i).ref) ∅ s
  small : Dir.Small 3 fun i => (s.node i).ref
  pwd : 0 < (s.node pwd).ref

section
variable {s : Sys} {p : Nat}

theorem avoids_onKern {α : Type} {m : FsM α} {e : Dir.Fault} :
    Avoids (.fs e) (onKern m) s ↔ Avoids e m s.kern := by
  unfold Avoids onKern
  cases m s.kern with
  | error e' => simp
  | ok r => simp

theorem avoids_effect {α : Type} {m : SysM α} {e : Fault} :
    Avoids e (effect m) s ↔ Avoids e m s := by
  rw [effect, avoids_bind]
  exact and_iff_left fun _ _ _ => avoids_pure _

theorem avoids_atPwd {α : Type} {f : Nat → FsM α} {e : Dir.Fault} :
    Avoids (.fs e) (atPwd p f) s ↔ Avoids e (f (s.procs p).pwd) s.kern := by
  rw [atPwd, avoids_get, avoids_effect, avoids_onKern]

/-- Every fault but a sleep on a lock of the call's own. -/
abbrev NotFsSelfLock : Fault → Prop := fun e => e ≠ .fs .selfLock

/-- A call into the file system, with what it does to the inode cache. -/
theorem onKern_kern {α : Type} {m : FsM α} {P : Kern → Prop} {Q : α → Kern → Prop}
    (h : Triple P m Q NotSelfLock) :
    Triple (fun s => P s.kern) (onKern m) (fun a s => Q a s.kern) NotFsSelfLock := by
  intro s hs
  have hm := h s.kern hs
  unfold onKern
  cases hr : m s.kern with
  | error e =>
    rw [hr] at hm
    exact fun he => hm (Fault.fs.inj he)
  | ok r =>
    rw [hr] at hm
    exact hm

theorem fdAlloc_kern {P : Kern → Prop} {E : Fault → Prop} :
    Triple (fun s => P s.kern) (fdAlloc p) (fun _ s => P s.kern) E := by
  apply Triple.peek
  intro t ht
  dsimp only
  split
  · exact Triple.ret fun s hs => hs
  · exact Triple.ret fun s hs => hs

theorem fileAlloc_kern {P : Kern → Prop} :
    Triple (fun s => P s.kern) fileAlloc (fun _ s => P s.kern) NotFsSelfLock := by
  apply Triple.read
  intro t ht
  split
  · rintro s rfl
    exact ht
  cases t.flist with
  | nil => exact Triple.fail nofun
  | cons f rest =>
    rintro s rfl
    exact ht

/-- The part of `open` that has the inode locked. -/
theorem openRest_avoids {n : Nat → Nat} {i flag : Nat} (hn : Dir.Small 1 n)
    (hs : CacheInv (Lib.addRef n i) {i} s.kern) :
    Avoids (.fs .selfLock)
      (do
        match ← fdAlloc p with
        | none => do
          onKern (Dir.iunlockput i)
          pure (-1)
        | some fd => do
          match ← fileAlloc with
          | none => do
            onKern (Dir.iunlockput i)
            pure (-1)
          | some f => do
            let _ ← onKern (Dir.iunlock i)
            let s ← get
            let v := s.files f
            setFile f
              { v with
                inode := some i
                type := (s.kern.node i).type
                offset := 0
                flag := (v.flag ||| flag) % 2 ^ 16 }
            setFd p fd (some f)
            setNOpfiles p (((← get).procs p).nOpfiles + 1)
            pure (fd : Int)) s := by
  have hput : Triple (fun t : Sys => CacheInv (Lib.addRef n i) {i} t.kern)
      (do
        onKern (Dir.iunlockput i)
        pure (-1 : Int)) (fun _ _ => True) NotFsSelfLock :=
    (onKern_kern (Dir.iunlockput_singleton hn)).seq fun _ => Triple.ret fun _ _ => trivial
  refine Triple.avoids (P := fun t => CacheInv (Lib.addRef n i) {i} t.kern)
    (Q := fun _ _ => True) ?_ hs
  apply fdAlloc_kern.seq
  intro fd
  cases fd with
  | none => exact hput
  | some fd =>
    apply fileAlloc_kern.seq
    intro f
    cases f with
    | none => exact hput
    | some f =>
      apply (onKern_kern (Dir.iunlock_singleton.post fun _ _ h => h.2)).seq
      intro _ t ht
      exact trivial

/-- `open` only waits for itself in `creat`. -/
theorem openInode_avoids {n : Nat → Nat} {k : Kern} {pwd : Nat} (hs : CacheInv n ∅ k)
    (hn : Dir.Small 3 n) (hpwd : 0 < n pwd) (pathname : Dir.Name) (flag : Nat) :
    Avoids .selfLock (openInode pwd pathname flag) k ↔
      (flag &&& O_CREAT ≠ 0 → CreatClear pwd pathname T_FILE 0 0 k) := by
  unfold openInode
  split
  · next hflag => rw [forall_prop_of_true hflag, Dir.creat_noSelfLock hs hn hpwd]
  · next hflag =>
    exact iff_of_true ((openExisting_refs (hn.mono (by omega)) hpwd pathname flag).avoids hs)
      fun h => absurd h hflag

theorem open_avoids (hs : AtRest (s.procs p).pwd s.kern) (pathname : Dir.Name) (flag : Nat) :
    Avoids (.fs .selfLock) (open_ p pathname flag) s ↔
      (badFlag flag = false → flag &&& O_CREAT ≠ 0 →
        CreatClear (s.procs p).pwd pathname T_FILE 0 0 s.kern) := by
  unfold open_
  split
  · next hbad =>
    refine iff_of_true (avoids_pure _) fun h => ?_
    rw [h] at hbad
    cases hbad
  next hbad =>
  rw [forall_prop_of_true (Bool.eq_false_of_not_eq_true hbad), avoids_get, avoids_bind,
    avoids_onKern, openInode_avoids hs.cache hs.small hs.pwd]
  apply and_iff_left
  intro x t ht
  cases x with
  | none => exact avoids_pure _
  | some i =>
    have hgot : CacheInv (Lib.addRef (fun i => (s.kern.node i).ref) i) {i} t.kern := by
      unfold onKern at ht
      split at ht
      · cases ht
      · next hr =>
        cases ht
        exact (openInode_refs hs.small hs.pwd pathname flag).of_ok hs.cache hr
    exact openRest_avoids (hs.small.mono (by omega)) hgot

/-- `chdir` never waits for itself: it holds at most one lock at a time. -/
theorem chdir_avoids (hs : AtRest (s.procs p).pwd s.kern) (pathname : Dir.Name) :
    Avoids (.fs .selfLock) (chdir p pathname) s := by
  obtain ⟨m, hm⟩ : ∃ m, (fun i => (s.kern.node i).ref) = Lib.addRef m (s.procs p).pwd :=
    Lib.exists_addRef hs.pwd
  have hcache := hs.cache
  have hn := hs.small
  rw [hm] at hcache hn
  unfold chdir
  rw [avoids_get]
  generalize (s.procs p).pwd = pwd at *
  have hn1 : ∀ i, Dir.Small 1 (Lib.addRef m i) := by
    intro i j
    have := hn j
    rw [Lib.addRef_apply] at this ⊢
    split <;> split at this <;> omega
  refine Triple.avoids (P := fun t => CacheInv (Lib.addRef m pwd) ∅ t.kern)
    (Q := fun _ _ => True) ?_ hcache
  apply (onKern_kern (Dir.namei_refs (hn.mono (by omega)) (by simp) pathname)).seq
  intro r
  cases r with
  | none => exact Triple.ret fun _ _ => trivial
  | some i =>
    apply (onKern_kern (Dir.ilock_empty (by simp))).seq
    intro _
    apply Triple.peek
    intro t ht
    split
    · exact (onKern_kern (Dir.iunlockput_singleton (hn.mono (by omega)))).seq fun _ =>
        Triple.ret fun _ _ => trivial
    · apply (onKern_kern (Dir.iunlock_singleton.post fun _ _ h => h.2)).seq
      intro _
      have hput := Dir.iput_refs (E := NotSelfLock) (n := Lib.addRef m i) (i := pwd) (L := ∅)
        (hn1 i) (by simp)
      rw [Lib.addRef_comm] at hput
      apply (onKern_kern hput).seq
      intro _ u _
      exact trivial

/-- **Self-deadlock.** Between two calls, a path call sleeps on none of its own locks if and only if
    the names in it are clear. -/
theorem selfLock_iff {c : Call} (hc : PathCall c) (hs : AtRest (s.procs p).pwd s.kern) :
    syscall p c s ≠ .error (.fs .selfLock) ↔ CallClear (s.procs p).pwd c s.kern := by
  show Avoids (.fs .selfLock) (syscall p c) s ↔ _
  cases c with
  | open_ pathname flag =>
    rw [syscall, avoids_effect]
    exact open_avoids hs _ _
  | link oldpname newpname =>
    rw [syscall, avoids_atPwd]
    exact Dir.link_noSelfLock hs.cache hs.small hs.pwd _ _
  | unlink pathname =>
    rw [syscall, avoids_atPwd]
    exact Dir.unlink_noSelfLock hs.cache hs.small hs.pwd _
  | mkdir pathname =>
    rw [syscall, avoids_atPwd]
    exact Dir.creatAndPut_noSelfLock hs.cache hs.small hs.pwd _ _ _ _
  | mknod pathname major minor =>
    rw [syscall, avoids_atPwd]
    exact Dir.creatAndPut_noSelfLock hs.cache hs.small hs.pwd _ _ _ _
  | chdir pathname =>
    rw [syscall, avoids_effect]
    exact iff_of_true (chdir_avoids hs _) trivial
  | close fd => cases hc
  | dup fd => cases hc
  | dup2 oldfd newfd => cases hc
  | fork son => cases hc
  | exit => cases hc
  | exec pathname setupVm vm stack => cases hc

end

/-- The first state is at rest. -/
theorem boot_atRest (disk : Nat → Inode.Block) (devStructs : Nat → Inode.DevStruct)
    (devRead : Nat → Bool) (devIn : List (Option Dir.Name)) (p : Nat) :
    AtRest ((boot disk devStructs devRead devIn).procs p).pwd
      (boot disk devStructs devRead devIn).kern := by
  have hcache := boot_cache disk devStructs devRead devIn
  have href : (fun i => ((boot disk devStructs devRead devIn).kern.node i).ref) =
      fun i => if i = InodeCache.NINODE - 1 then 1 else 0 := funext hcache.ref
  refine ⟨?_, ?_, ?_⟩
  · rw [href]
    exact hcache
  · intro i
    have hi := hcache.ref i
    dsimp only
    rw [hi]
    split <;> norm_num
  · have hroot := hcache.ref (InodeCache.NINODE - 1)
    rw [if_pos rfl] at hroot
    exact hroot ▸ Nat.one_pos

theorem selfLock_iff_boot :
    syscall 0 (.mkdir [97]) mkfsBoot ≠ .error (.fs .selfLock) ↔
      CallClear (mkfsBoot.procs 0).pwd (.mkdir [97]) mkfsBoot.kern :=
  selfLock_iff trivial (boot_atRest _ _ _ _ 0)

/-- What stops a call. -/
def stopOf (s : Sys) (p : Nat) (c : Call) : Option Fault :=
  match syscall p c s with
  | .error e => some e
  | .ok _ => none

/-- Right after the boot, removing `/.` finds the root directory under its own lock. -/
theorem unlink_dot : syscall 0 (.unlink [47, 46]) mkfsBoot = .error (.fs .selfLock) := by
  have h : stopOf mkfsBoot 0 (.unlink [47, 46]) = some (.fs .selfLock) := by decide +kernel
  unfold stopOf at h
  split at h
  · next he => rw [he, Option.some.inj h]
  · cases h

end WeiOS.Syscall
