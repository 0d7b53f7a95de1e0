import Mathlib

/-!
# Programs that Take and Give Back

Programs over a state, with a ledger of the resources that are taken. To take what is in the ledger
already is to wait for oneself: such a run does not return.

`Exactly m H H' ok out` says when a program that should take the ledger from `H` to `H'` does so: from
the states that satisfy `ok`, with the result `out`, and from no others. What a program keeps by mistake
it has for good, because the programs that come after it give back what they took and nothing else; so
the condition for a sequence is the conjunction of the conditions.

## Main results
- `Exactly.seq`: the sequence rule.
- `Exactly.loop`: the rule for a loop over a list.
- `Exactly.releases_iff`: when a call releases what it takes.
-/

namespace WeiOS.Lib

variable {σ ρ α β ι : Type}

/-- A state with the resources that are taken, the last one first. -/
structure Ledger (σ ρ : Type) where
  state : σ
  taken : List ρ

/-- Programs over a ledger; a run that waits for itself fails. -/
abbrev Taker (σ ρ : Type) := StateT (Ledger σ ρ) Option

namespace Taker

/-! ## §1 Programs -/

/-- A resource is taken. -/
def take [DecidableEq ρ] (r : ρ) : Taker σ ρ Unit := fun s =>
  if r ∈ s.taken then none else some ((), { s with taken := r :: s.taken })

/-- A resource is given back. -/
def give [DecidableEq ρ] (r : ρ) : Taker σ ρ Unit := fun s =>
  some ((), { s with taken := s.taken.erase r })

/-- A step that takes nothing. -/
def step (f : σ → α × σ) : Taker σ ρ α := fun s =>
  some ((f s.state).1, { s with state := (f s.state).2 })

/-- The state is read. -/
def look : Taker σ ρ σ := step fun s => (s, s)

/-- The state is changed. -/
def change (f : σ → σ) : Taker σ ρ Unit := step fun s => ((), f s)

/-- A program for each item of a list. -/
def loop (body : ι → Taker σ ρ Unit) : List ι → Taker σ ρ Unit
  | [] => pure ()
  | j :: js => do
    body j
    loop body js

/-- The call returns, and holds what it held before. -/
def Releases (m : Taker σ ρ α) (H : List ρ) (s : σ) : Prop := ∃ a s', m ⟨s, H⟩ = some (a, ⟨s', H⟩)

/-! ## §2 Exact conditions -/

/-- The program takes the ledger from `H` to `H'` if the state satisfies `ok`, and otherwise it keeps
    more than `H'` if it returns. From any other ledger it gives back at most as much. -/
structure Exactly (m : Taker σ ρ α) (H H' : List ρ) (ok : σ → Prop) (out : σ → α × σ) : Prop where
  returns : ∀ s, ok s → m ⟨s, H⟩ = some ((out s).1, ⟨(out s).2, H'⟩)
  keeps : ∀ s, ¬ ok s → ∀ a s', m ⟨s, H⟩ = some (a, s') → H'.length < s'.taken.length
  net : ∀ s a s', m s = some (a, s') → s.taken.length + H'.length ≤ s'.taken.length + H.length

namespace Exactly

variable {m : Taker σ ρ α} {k : α → Taker σ ρ β} {H H' H'' : List ρ} {ok : σ → Prop}
  {out : σ → α × σ}

/-- **A call releases what it takes** in the states that satisfy its condition. -/
theorem releases_iff (h : Exactly m H H ok out) (s : σ) : Releases m H s ↔ ok s := by
  refine ⟨?_, fun hok => ⟨_, _, h.returns s hok⟩⟩
  rintro ⟨a, s', hrun⟩
  by_contra hno
  exact absurd (h.keeps s hno a _ hrun) (lt_irrefl _)

theorem conseq {P : σ → Prop} {f : σ → α × σ} (h : Exactly m H H' ok out) (hok : ∀ s, P s ↔ ok s)
    (hout : ∀ s, ok s → f s = out s) : Exactly m H H' P f where
  returns s hs := by rw [hout s ((hok s).1 hs), h.returns s ((hok s).1 hs)]
  keeps s hs := h.keeps s fun hno => hs ((hok s).2 hno)
  net := h.net

protected theorem step (f : σ → α × σ) (H : List ρ) : Exactly (step f) H H (fun _ => True) f where
  returns _ _ := rfl
  keeps _ hno := absurd trivial hno
  net s a s' hrun := by
    cases hrun
    exact le_rfl

protected theorem pure (a : α) (H : List ρ) :
    Exactly (pure a : Taker σ ρ α) H H (fun _ => True) (fun s => (a, s)) :=
  Exactly.step (fun s => (a, s)) H

protected theorem look (H : List ρ) : Exactly (look : Taker σ ρ σ) H H (fun _ => True) (fun s => (s, s)) :=
  Exactly.step _ H

protected theorem change (f : σ → σ) (H : List ρ) :
    Exactly (change f : Taker σ ρ Unit) H H (fun _ => True) (fun s => ((), f s)) :=
  Exactly.step _ H

/-- An exit that gives back too little never satisfies its condition. -/
protected theorem forget (a : α) (r : ρ) (H : List ρ) (out : σ → α × σ) :
    Exactly (pure a : Taker σ ρ α) (r :: H) H (fun _ => False) out where
  returns _ hf := hf.elim
  keeps s _ a' s' hrun := by
    cases hrun
    simp
  net s a' s' hrun := by
    cases hrun
    simp only [List.length_cons]
    omega

protected theorem take [DecidableEq ρ] (r : ρ) (H : List ρ) :
    Exactly (take r : Taker σ ρ Unit) H (r :: H) (fun _ => r ∉ H) (fun s => ((), s)) where
  returns s hs := if_neg hs
  keeps s hs a s' hrun := by
    rw [Taker.take, if_pos (not_not.1 hs)] at hrun
    cases hrun
  net s a s' hrun := by
    unfold Taker.take at hrun
    split at hrun
    · cases hrun
    · cases hrun
      simp only [List.length_cons]
      omega

/-- What was taken last, or just before, is given back. -/
protected theorem give [DecidableEq ρ] (r : ρ) (H H' : List ρ) (hH : H.erase r = H') (hr : r ∈ H) :
    Exactly (give r : Taker σ ρ Unit) H H' (fun _ => True) (fun s => ((), s)) where
  returns s _ := by rw [Taker.give, hH]
  keeps _ hno := absurd trivial hno
  net s a s' hrun := by
    cases hrun
    have hlen := List.length_erase_of_mem hr
    have hpos := List.length_pos_of_mem hr
    rw [hH] at hlen
    have hle : s.taken.length ≤ (s.taken.erase r).length + 1 := by
      rw [List.length_erase]
      split <;> omega
    show s.taken.length + H'.length ≤ (s.taken.erase r).length + H.length
    omega

/-- **Sequence**: what the first part keeps stays taken. -/
theorem seq {ok' : α → σ → Prop} {out' : α → σ → β × σ} (h : Exactly m H H' ok out)
    (hk : ∀ a, Exactly (k a) H' H'' (ok' a) (out' a)) :
    Exactly (m >>= k) H H'' (fun s => ok s ∧ ok' (out s).1 (out s).2)
      (fun s => out' (out s).1 (out s).2) where
  returns s hs := by
    have hm := h.returns s hs.1
    have hrun : (m >>= k) ⟨s, H⟩ = k (out s).1 ⟨(out s).2, H'⟩ := by
      simp only [bind, StateT.bind, hm, Option.bind_some]
    rw [hrun]
    exact (hk _).returns _ hs.2
  keeps s hs b s'' hrun := by
    obtain ⟨⟨a, s'⟩, hm, hk'⟩ := Option.bind_eq_some_iff.1 hrun
    by_cases hok : ok s
    · rw [h.returns s hok] at hm
      obtain ⟨rfl, rfl⟩ := Prod.mk.inj (Option.some.inj hm)
      exact (hk _).keeps _ (fun hok' => hs ⟨hok, hok'⟩) b s'' hk'
    · have h₁ := h.keeps s hok a s' hm
      have h₂ := (hk a).net s' b s'' hk'
      omega
  net s b s'' hrun := by
    obtain ⟨⟨a, s'⟩, hm, hk'⟩ := Option.bind_eq_some_iff.1 hrun
    have h₁ := h.net s a s' hm
    have h₂ := (hk a).net s' b s'' hk'
    omega

/-- Sequence, if the first part has no result. -/
theorem andThen {m : Taker σ ρ Unit} {m' : Taker σ ρ β} {f : σ → σ} {ok' : σ → Prop} {out' : σ → β × σ}
    (h : Exactly m H H' ok (fun s => ((), f s))) (h' : Exactly m' H' H'' ok' out') :
    Exactly (m >>= fun _ => m') H H'' (fun s => ok s ∧ ok' (f s)) (fun s => out' (f s)) :=
  h.seq fun _ => h'

/-- A program that starts with a look at the state. -/
theorem lookThen {k : σ → Taker σ ρ β} {P : σ → σ → Prop} {f : σ → σ → β × σ}
    (hk : ∀ a, Exactly (k a) H H' (P a) (f a)) :
    Exactly (Taker.look >>= k) H H' (fun s => P s s) (fun s => f s s) :=
  ((Exactly.look H).seq hk).conseq (fun s => by simp) fun _ _ => rfl

/-- **Branches.** -/
theorem ite {m' : Taker σ ρ α} {ok' : σ → Prop} {out' : σ → α × σ} (c : Prop) [Decidable c]
    (h : Exactly m H H' ok out) (h' : Exactly m' H H' ok' out') :
    Exactly (if c then m else m') H H' (fun s => if c then ok s else ok' s)
      (fun s => if c then out s else out' s) := by
  by_cases hc : c
  · simpa only [if_pos hc] using h
  · simpa only [if_neg hc] using h'

/-- The condition of a loop: each round meets its condition in the state that it starts in. -/
def Each (ok : ι → σ → Prop) (f : ι → σ → σ) : List ι → σ → Prop
  | [], _ => True
  | j :: js, s => ok j s ∧ Each ok f js (f j s)

/-- **Loops** over a list. -/
theorem loop {body : ι → Taker σ ρ Unit} {ok : ι → σ → Prop} {f : ι → σ → σ}
    (h : ∀ j, Exactly (body j) H H (ok j) (fun s => ((), f j s))) (js : List ι) :
    Exactly (Taker.loop body js) H H (Each ok f js) (fun s => ((), js.foldl (fun s j => f j s) s)) := by
  induction js with
  | nil => exact Exactly.pure () H
  | cons j js ih => exact (h j).andThen ih

end Exactly

end Taker

end WeiOS.Lib
