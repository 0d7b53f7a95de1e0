import Mathlib
import WeiOS.Lib.Triple

/-!
# Crashes of Programs over a Disk

A disk maps blocks to contents, and is a part of the machine that a program runs on. A traced program
records the disk before and after each of its calls that may write. A machine that crashes inside such a
call leaves a disk on which some of the blocks that the call writes are written and the others not yet.

## Main results
- `Traces.bind`: a traced program does what the program does that it was made from.
- `Halfway.of_update`: a call that writes one block leaves no disk between its two.
-/

namespace WeiOS.Lib

/-- A machine, and the disk before and after each call so far. -/
structure Traced (σ κ β : Type) where
  sys : σ
  calls : List ((κ → β) × (κ → β))

/-- Each block is as before or as after the call. -/
def Halfway {κ β : Type} (d d' e : κ → β) : Prop := ∀ m, e m = d m ∨ e m = d' m

/-- The disks that a crash can leave: the one at the start, and those within a call. -/
def CrashPoint {κ β : Type} (d : κ → β) (calls : List ((κ → β) × (κ → β))) (e : κ → β) : Prop :=
  e = d ∨ ∃ c ∈ calls, Halfway c.1 c.2 e

namespace Halfway

variable {κ β : Type} {d d' e : κ → β}

theorem after (d d' : κ → β) : Halfway d d' d' := fun _ => .inr rfl

/-- A block that the call does not change. -/
theorem eq_of_eq (h : Halfway d d' e) {m : κ} (hm : d' m = d m) : e m = d m := by
  rcases h m with hbefore | hafter
  · exact hbefore
  · exact hafter.trans hm

/-- **One block is written at once.** -/
theorem of_update [DecidableEq κ] {n : κ} {x : β} (h : Halfway d (Function.update d n x) e) :
    e = d ∨ e = Function.update d n x := by
  have hother : ∀ m, m ≠ n → e m = d m := fun m hm => h.eq_of_eq (Function.update_of_ne hm x d)
  rcases h n with hn | hn
  · left
    funext m
    by_cases hm : m = n
    · rw [hm, hn]
    · exact hother m hm
  · right
    funext m
    by_cases hm : m = n
    · rw [hm, hn]
    · rw [hother m hm, Function.update_of_ne hm]

end Halfway

section Programs

variable {σ κ β ε α γ : Type} {disk : σ → κ → β}

/-- A call that may write to the disk. -/
def traced (disk : σ → κ → β) (m : StateT σ (Except ε) α) : StateT (Traced σ κ β) (Except ε) α :=
  fun t => (m t.sys).map fun r => (r.1, ⟨r.2, t.calls ++ [(disk t.sys, disk r.2)]⟩)

/-- A step that leaves the disk alone. -/
def untraced (m : StateT σ (Except ε) α) : StateT (Traced σ κ β) (Except ε) α :=
  fun t => (m t.sys).map fun r => (r.1, { t with sys := r.2 })

/-- The traced program does what `m` does. -/
def Traces (p : StateT (Traced σ κ β) (Except ε) α) (m : StateT σ (Except ε) α) : Prop :=
  ∀ t, (p t).map (fun r => (r.1, r.2.sys)) = m t.sys

theorem traces_traced (m : StateT σ (Except ε) α) : Traces (traced disk m) m := by
  intro t
  unfold traced
  cases m t.sys <;> rfl

theorem traces_untraced (m : StateT σ (Except ε) α) : Traces (κ := κ) (β := β) (untraced m) m := by
  intro t
  unfold untraced
  cases m t.sys <;> rfl

theorem traces_pure (a : α) :
    Traces (σ := σ) (κ := κ) (β := β) (ε := ε) (pure a) (pure a) := fun _ => rfl

/-- **Sequence**: parts that do the same make programs that do the same. -/
theorem Traces.bind {p : StateT (Traced σ κ β) (Except ε) α} {m : StateT σ (Except ε) α}
    {q : α → StateT (Traced σ κ β) (Except ε) γ} {k : α → StateT σ (Except ε) γ} (hp : Traces p m)
    (hq : ∀ a, Traces (q a) (k a)) : Traces (p >>= q) (m >>= k) := by
  intro t
  have hp := hp t
  simp only [Bind.bind, StateT.bind, Except.bind]
  rw [← hp]
  cases hrun : p t with
  | error e => rfl
  | ok r => exact hq r.1 r.2

/-- A run of the traced program is one of the program, and the other way round. -/
theorem Traces.run {p : StateT (Traced σ κ β) (Except ε) α} {m : StateT σ (Except ε) α}
    (h : Traces p m) {t t' : Traced σ κ β} {a : α} (hrun : p t = .ok (a, t')) :
    m t.sys = .ok (a, t'.sys) := by
  rw [← h t, hrun]
  rfl

/-- A call that returns is recorded. -/
theorem traced_eq {m : StateT σ (Except ε) α} {s s' : σ} {a : α} (h : m s = .ok (a, s'))
    (calls : List ((κ → β) × (κ → β))) :
    traced disk m ⟨s, calls⟩ = .ok (a, ⟨s', calls ++ [(disk s, disk s')]⟩) := by
  unfold traced
  rw [h]
  rfl

theorem untraced_eq {m : StateT σ (Except ε) α} {s s' : σ} {a : α} (h : m s = .ok (a, s'))
    (calls : List ((κ → β) × (κ → β))) : untraced m ⟨s, calls⟩ = .ok (a, ⟨s', calls⟩) := by
  unfold untraced
  rw [h]
  rfl

/-- **A triple carries over** to the traced program. -/
theorem Traces.triple {p : StateT (Traced σ κ β) (Except ε) α} {m : StateT σ (Except ε) α}
    (h : Traces p m) {P : σ → Prop} {Q : α → σ → Prop} {E : ε → Prop} (hm : Triple P m Q E) :
    Triple (fun t => P t.sys) p (fun a t => Q a t.sys) E := by
  intro t ht
  have hres := hm t.sys ht
  rw [← h t] at hres
  cases hp : p t with
  | error e =>
    rw [hp] at hres
    exact hres
  | ok r =>
    rw [hp] at hres
    exact hres

/-- The machine is read, but only for what the precondition says about it. -/
theorem Triple.look {P : Traced σ κ β → Prop} {Q : γ → Traced σ κ β → Prop} {E : ε → Prop}
    {f : σ → StateT (Traced σ κ β) (Except ε) γ} (h : ∀ t, P t → Triple P (f t.sys) Q E) :
    Triple P (untraced get >>= f) Q E :=
  fun t ht => h t ht t ht

/-- What two triples say about a program. -/
theorem Triple.both {m : StateT σ (Except ε) α} {P P' : σ → Prop} {Q Q' : α → σ → Prop}
    {E E' : ε → Prop} (h : Triple P m Q E) (h' : Triple P' m Q' E') :
    Triple (fun s => P s ∧ P' s) m (fun a s => Q a s ∧ Q' a s) E := by
  intro s hs
  have hQ := h s hs.1
  have hQ' := h' s hs.2
  cases hm : m s with
  | error e =>
    rw [hm] at hQ
    exact hQ
  | ok r =>
    rw [hm] at hQ hQ'
    exact ⟨hQ, hQ'⟩

end Programs

end WeiOS.Lib
