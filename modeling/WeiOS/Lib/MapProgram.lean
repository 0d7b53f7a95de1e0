import Mathlib

/-!
# Programs over a Map

A program reads and writes the values of a map, and may choose what it does next by what it has read. What it
computes is given by one state, the map. A store that implements the map and may be cut off leaves of the
program that was running some of the writes.

## Main results
- `eval_cases`: a program leaves each value as it is, or writes it.
- `Between.eq_of_one`: a program that changes one value at most is cut off before or after it.
-/

namespace WeiOS.Lib

variable {κ β α : Type}

/-- A program over a map from `κ` to `β`. -/
inductive MapProg (κ β α : Type) where
  | done (a : α)
  | read (k : κ) (next : β → MapProg κ β α)
  | write (k : κ) (x : β) (next : MapProg κ β α)

namespace MapProg

variable [DecidableEq κ]

/-- What the program returns, and the map that it leaves. -/
def eval : MapProg κ β α → (κ → β) → α × (κ → β)
  | .done a, f => (a, f)
  | .read k next, f => (next (f k)).eval f
  | .write k x next, f => next.eval (Function.update f k x)

/-- All that the program writes. -/
def writes : MapProg κ β α → (κ → β) → List (κ × β)
  | .done _, _ => []
  | .read k next, f => (next (f k)).writes f
  | .write k x next, f => (k, x) :: next.writes (Function.update f k x)

/-- Programs one after the other. -/
def evalAll : List (MapProg κ β α) → (κ → β) → List α × (κ → β)
  | [], f => ([], f)
  | p :: ps, f => ((p.eval f).1 :: (evalAll ps (p.eval f).2).1, (evalAll ps (p.eval f).2).2)

/-- Each value is as before the program, or one that the program writes there. -/
def Between (p : MapProg κ β α) (f g : κ → β) : Prop := ∀ k, g k = f k ∨ (k, g k) ∈ p.writes f

/-- A value that is not written stays. -/
theorem eval_of_not_written (p : MapProg κ β α) {f : κ → β} {k : κ} (h : ∀ x, (k, x) ∉ p.writes f) :
    (p.eval f).2 k = f k := by
  induction p generalizing f with
  | done a => rfl
  | read n next ih => exact ih (f n) h
  | write n x next ih =>
    have hne : k ≠ n := by
      rintro rfl
      exact h x List.mem_cons_self
    refine (ih fun y hy => h y (List.mem_cons_of_mem _ hy)).trans ?_
    exact Function.update_of_ne hne x f

/-- A value that is written is left as one of the writes makes it. -/
theorem eval_of_written (p : MapProg κ β α) {f : κ → β} {k : κ} {x : β} (h : (k, x) ∈ p.writes f) :
    (k, (p.eval f).2 k) ∈ p.writes f := by
  induction p generalizing f x with
  | done a => exact absurd h List.not_mem_nil
  | read n next ih => exact ih (f n) h
  | write n y next ih =>
    by_cases hlater : ∃ z, (k, z) ∈ next.writes (Function.update f n y)
    · obtain ⟨z, hz⟩ := hlater
      exact List.mem_cons_of_mem _ (ih hz)
    · -- the first write of `k` is the last one too
      have hstays := next.eval_of_not_written fun z hz => hlater ⟨z, hz⟩
      obtain ⟨rfl, rfl⟩ : k = n ∧ x = y := by
        rcases List.mem_cons.1 h with heq | hmem
        · exact Prod.mk.inj heq
        · exact absurd ⟨x, hmem⟩ hlater
      rw [Function.update_self] at hstays
      show (k, (next.eval (Function.update f k x)).2 k) ∈ (k, x) :: _
      rw [hstays]
      exact List.mem_cons_self

theorem eval_cases (p : MapProg κ β α) (f : κ → β) : p.Between f (p.eval f).2 := by
  intro k
  by_cases h : ∃ x, (k, x) ∈ p.writes f
  · obtain ⟨x, hx⟩ := h
    exact .inr (p.eval_of_written hx)
  · exact .inl (p.eval_of_not_written fun x hx => h ⟨x, hx⟩)

/-- If a write of the program changes a value, then all other writes leave the other values as they are. -/
def OneChange (p : MapProg κ β α) (f : κ → β) : Prop :=
  ∀ v ∈ p.writes f, v.2 ≠ f v.1 → ∀ w ∈ p.writes f, w = v ∨ w.1 ≠ v.1 ∧ w.2 = f w.1

/-- **One change** is there or not. -/
theorem Between.eq_of_one {p : MapProg κ β α} {f g : κ → β} (h : p.Between f g) (hone : p.OneChange f) :
    g = f ∨ g = (p.eval f).2 := by
  by_cases hold : g = f
  · exact .inl hold
  right
  obtain ⟨k, hk⟩ := Function.ne_iff.1 hold
  have hwrite := (h k).resolve_left hk
  -- the value of `g` at `k` is the only change, so the program leaves it there, and nothing else
  have hsame : ∀ g', p.Between f g' → ∀ m, m ≠ k → g' m = f m := by
    intro g' hg m hm
    rcases hg m with heq | hmem
    · exact heq
    · rcases hone _ hwrite hk _ hmem with heq | hother
      · exact absurd (congrArg Prod.fst heq) hm
      · exact hother.2
  funext m
  by_cases hm : m = k
  · rw [hm]
    rcases hone _ hwrite hk _ (p.eval_of_written hwrite) with heq | hother
    · exact (congrArg Prod.snd heq).symm
    · exact absurd rfl hother.1
  · rw [hsame g h m hm, hsame _ (p.eval_cases f) m hm]

end MapProg

end WeiOS.Lib
