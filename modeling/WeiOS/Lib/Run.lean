import Mathlib

/-!
# Runs of a Fallible Step Function

A component is given by a step function `step : σ → ο → Except ε σ`: from a state and an
operation it computes the next state, or fails. A run is a list of operations.

- `Along step Q s os`: the run `os` from `s` never fails, and every step of it satisfies `Q`
  (a relation between the state before, the operation and the state after).
- `Meets step C s os`: every step of the run is taken in a state that satisfies the condition `C`,
  as far as the run gets.
- `Throughout step Q s os`: every step of the run satisfies `Q`, as far as the run gets.

The rules below turn a statement about one step into a statement about whole runs:
`along_of_meets` and `throughout_of_meets` (the invariant rules) and `along_iff_meets` (the rule for exact conditions).
-/

namespace WeiOS.Lib

variable {σ ο ε : Type*}

/-- The run never fails and each of its steps satisfies `Q`. -/
def Along (step : σ → ο → Except ε σ) (Q : σ → ο → σ → Prop) : σ → List ο → Prop
  | _, [] => True
  | s, o :: os => ∃ s', step s o = .ok s' ∧ Q s o s' ∧ Along step Q s' os

/-- Each step of the run is taken under the condition `C` on the state before it. -/
def Meets (step : σ → ο → Except ε σ) (C : σ → ο → Prop) : σ → List ο → Prop
  | _, [] => True
  | s, o :: os => C s o ∧ ∀ s', step s o = .ok s' → Meets step C s' os

/-- Each step of the run satisfies `Q`, as far as the run gets. -/
def Throughout (step : σ → ο → Except ε σ) (Q : σ → ο → σ → Prop) : σ → List ο → Prop
  | _, [] => True
  | s, o :: os => ∀ s', step s o = .ok s' → Q s o s' ∧ Throughout step Q s' os

variable {step : σ → ο → Except ε σ}

/-- **Invariant rule** for steps that may fail: if under the condition `C` every step that succeeds
    satisfies `Q` and keeps the invariant `I`, then every run whose steps all meet `C` satisfies `Q` at
    each step. -/
theorem throughout_of_meets {Q : σ → ο → σ → Prop} {C : σ → ο → Prop} (I : σ → Prop)
    (hstep : ∀ s o s', I s → C s o → step s o = .ok s' → Q s o s' ∧ I s')
    {s : σ} (hs : I s) {os : List ο} (hC : Meets step C s os) : Throughout step Q s os := by
  induction os generalizing s with
  | nil => trivial
  | cons o os ih =>
    obtain ⟨hCo, hrest⟩ := hC
    intro s' hok
    obtain ⟨hQ, hI⟩ := hstep s o s' hs hCo hok
    exact ⟨hQ, ih hI (hrest s' hok)⟩

/-- **Invariant rule**: if under the condition `C` every step succeeds, satisfies `Q` and keeps the
    invariant `I`, then every run whose steps all meet `C` satisfies `Q` at each step. -/
theorem along_of_meets {Q : σ → ο → σ → Prop} {C : σ → ο → Prop} (I : σ → Prop)
    (hstep : ∀ s o, I s → C s o → ∃ s', step s o = .ok s' ∧ Q s o s' ∧ I s')
    {s : σ} (hs : I s) {os : List ο} (hC : Meets step C s os) :
    Along step Q s os := by
  induction os generalizing s with
  | nil => trivial
  | cons o os ih =>
    obtain ⟨hCo, hrest⟩ := hC
    obtain ⟨s', hok, hQ, hI⟩ := hstep s o hs hCo
    exact ⟨s', hok, hQ, ih hI (hrest s' hok)⟩

/-- If every step succeeds, satisfies `Q` and keeps the invariant, so does every run. -/
theorem along_of_inv {Q : σ → ο → σ → Prop} (I : σ → Prop)
    (hstep : ∀ s o, I s → ∃ s', step s o = .ok s' ∧ Q s o s' ∧ I s') {s : σ} (hs : I s)
    (os : List ο) : Along step Q s os := by
  induction os generalizing s with
  | nil => trivial
  | cons o os ih =>
    obtain ⟨s', hok, hQ, hI⟩ := hstep s o hs
    exact ⟨s', hok, hQ, ih hI⟩

/-- **Exact-condition rule**: if, on the operations allowed by `V`, a step is good exactly when `C`
    holds before it, then a run of allowed operations is good exactly when all its steps meet `C`. -/
theorem along_iff_meets {Q : σ → ο → σ → Prop} {C V : σ → ο → Prop} (I : σ → Prop)
    (hgood : ∀ s o, I s → V s o → C s o → ∃ s', step s o = .ok s' ∧ Q s o s' ∧ I s')
    (hbad : ∀ s o s', I s → V s o → ¬ C s o → step s o = .ok s' → ¬ Q s o s')
    {s : σ} (hs : I s) {os : List ο} (hV : Meets step V s os) :
    Along step Q s os ↔ Meets step C s os := by
  induction os generalizing s with
  | nil => exact ⟨fun _ => trivial, fun _ => trivial⟩
  | cons o os ih =>
    obtain ⟨hVo, hVrest⟩ := hV
    constructor
    · rintro ⟨s', hok, hQ, hrest⟩
      have hCo : C s o := by
        by_contra hn
        exact hbad s o s' hs hVo hn hok hQ
      refine ⟨hCo, fun s'' hok'' => ?_⟩
      obtain ⟨t, hokt, _, hIt⟩ := hgood s o hs hVo hCo
      -- the step function is deterministic, so all three successor states are one
      obtain rfl : s' = t := Except.ok.inj (hok.symm.trans hokt)
      obtain rfl : s' = s'' := Except.ok.inj (hok.symm.trans hok'')
      exact (ih hIt (hVrest s' hok)).1 hrest
    · rintro ⟨hCo, hrest⟩
      obtain ⟨s', hok, hQ, hI⟩ := hgood s o hs hVo hCo
      exact ⟨s', hok, hQ, (ih hI (hVrest s' hok)).2 (hrest s' hok)⟩

/-- A weaker condition is met as well. -/
theorem Meets.imp {C C' : σ → ο → Prop} (h : ∀ s o, C s o → C' s o) {s : σ} {os : List ο}
    (hC : Meets step C s os) : Meets step C' s os := by
  induction os generalizing s with
  | nil => trivial
  | cons o os ih => exact ⟨h s o hC.1, fun s' hs' => ih (hC.2 s' hs')⟩

theorem Meets.of_forall {C : σ → ο → Prop} (h : ∀ s o, C s o) {s : σ} {os : List ο} : Meets step C s os := by
  induction os generalizing s with
  | nil => trivial
  | cons o os ih => exact ⟨h s o, fun _ _ => ih⟩

/-- **Reachability rule**: an invariant that every step under `C` keeps, if it succeeds, holds where
    the run ends. -/
theorem inv_of_foldlM {C : σ → ο → Prop} (I : σ → Prop)
    (hstep : ∀ s o s', I s → C s o → step s o = .ok s' → I s') {s t : σ} (hs : I s) {os : List ο}
    (hC : Meets step C s os) (hrun : os.foldlM step s = .ok t) : I t := by
  induction os generalizing s with
  | nil =>
    obtain rfl : s = t := Except.ok.inj hrun
    exact hs
  | cons o os ih =>
    rw [List.foldlM_cons] at hrun
    cases hstep' : step s o with
    | error e =>
      rw [hstep'] at hrun
      cases hrun
    | ok u =>
      rw [hstep'] at hrun
      exact ih (hstep s o u hs hC.1 hstep') (hC.2 u hstep') hrun

/-! ## Sequences of calls -/

/-- A sequence of two calls returns when both do. -/
theorem bind_eq_ok {ε α β : Type} {x : Except ε α} {f : α → Except ε β} {b : β} :
    (x >>= f) = .ok b ↔ ∃ a, x = .ok a ∧ f a = .ok b := by
  cases x with
  | error e => simp [bind, Except.bind]
  | ok a => simp [bind, Except.bind]

/-! ## Runs on concrete inputs -/

instance decidableMeets (C : σ → ο → Prop) [∀ s o, Decidable (C s o)] :
    ∀ (s : σ) (os : List ο), Decidable (Meets step C s os)
  | _, [] => isTrue trivial
  | s, o :: os =>
    match h : step s o with
    | .error _ => decidable_of_iff (C s o)
        ⟨fun hC => ⟨hC, fun s' hs' => by rw [h] at hs'; cases hs'⟩, fun hm => hm.1⟩
    | .ok s' =>
      have := decidableMeets C s' os
      decidable_of_iff (C s o ∧ Meets step C s' os)
        ⟨fun hm => ⟨hm.1, fun t ht => by rw [h] at ht; cases ht; exact hm.2⟩,
          fun hm => ⟨hm.1, hm.2 s' h⟩⟩

theorem eq_ok_of_toOption {α : Type*} {x : Except ε α} {a : α} (h : x.toOption = some a) :
    x = .ok a := by
  cases x with
  | error e => cases h
  | ok b => rw [Option.some.inj h]

theorem exists_eq_ok {α : Type*} {x : Except ε α} (h : x.toOption.isSome = true) :
    ∃ a, x = .ok a := by
  cases x with
  | error e => cases h
  | ok a => exact ⟨a, rfl⟩

theorem exists_eq_ok_and {α : Type*} {x : Except ε α} {P : α → Prop} [DecidablePred P]
    (h : x.toOption.any (fun a => decide (P a)) = true) : ∃ a, x = .ok a ∧ P a := by
  cases x with
  | error e => cases h
  | ok a => exact ⟨a, rfl, of_decide_eq_true h⟩

/-- The error of a call that fails. -/
def errorOf {α : Type*} : Except ε α → Option ε
  | .error e => some e
  | .ok _ => none

theorem eq_error_of_errorOf {α : Type*} {x : Except ε α} {e : ε} (h : errorOf x = some e) :
    x = .error e := by
  cases x with
  | error e' => rw [Option.some.inj h]
  | ok a => cases h

/-- A run that satisfies `Q` throughout satisfies it at its last step. -/
theorem Along.last {Q : σ → ο → σ → Prop} {s : σ} {os : List ο} {o : ο}
    (h : Along step Q s (os ++ [o])) :
    ∃ t t', (os ++ [o]).foldlM step s = .ok t' ∧ Q t o t' := by
  induction os generalizing s with
  | nil =>
    obtain ⟨t', hok, hQ, _⟩ := h
    exact ⟨s, t', by simp [hok], hQ⟩
  | cons a os ih =>
    obtain ⟨s', hok, _, hrest⟩ := h
    obtain ⟨t, t', hfold, hQ⟩ := ih hrest
    refine ⟨t, t', ?_, hQ⟩
    rw [List.cons_append, List.foldlM_cons, hok]
    exact hfold

/-- A step after a run that satisfies `Q` throughout. -/
theorem Throughout.last {Q : σ → ο → σ → Prop} {s t t' : σ} {os : List ο} {o : ο}
    (h : Throughout step Q s (os ++ [o])) (hrun : os.foldlM step s = .ok t) (hstep : step t o = .ok t') :
    Q t o t' := by
  induction os generalizing s with
  | nil =>
    obtain rfl : s = t := Except.ok.inj hrun
    exact (h t' hstep).1
  | cons a os ih =>
    rw [List.foldlM_cons] at hrun
    cases hu : step s a with
    | error e =>
      rw [hu] at hrun
      cases hrun
    | ok u =>
      rw [hu] at hrun
      exact ih (h u hu).2 hrun

end WeiOS.Lib
