import Mathlib

/-!
# Triples for Fallible State-Passing Programs

Rules of pre- and postconditions for programs in `StateT σ (Except ε)`. `Triple P m Q E` says: from
every state that satisfies `P`, the program `m` either returns a value and a state that satisfy `Q`,
or fails with an error that satisfies `E`. With `E` always true it is partial correctness; with a
smaller `E` it also rules errors out.

## Main results
- `Triple.seq`: the sequence rule.
- `Triple.conseq`: the rule of consequence.
-/

namespace WeiOS.Lib

variable {σ ε α β : Type}

/-- From `P`, the program returns in `Q` or fails in `E`. -/
def Triple (P : σ → Prop) (m : StateT σ (Except ε) α) (Q : α → σ → Prop) (E : ε → Prop) : Prop :=
  ∀ s, P s →
    match m s with
    | .ok (a, s') => Q a s'
    | .error e => E e

namespace Triple

variable {P P' : σ → Prop} {Q : α → σ → Prop} {R : β → σ → Prop} {E : ε → Prop}

/-! ## Using a triple -/

/-- What a program returns satisfies the postcondition. -/
theorem of_ok {m : StateT σ (Except ε) α} (h : Triple P m Q E) {s s' : σ} {a : α} (hP : P s)
    (hm : m s = .ok (a, s')) : Q a s' := by
  have := h s hP
  rwa [hm] at this

/-- What a program fails with satisfies the error condition. -/
theorem of_error {m : StateT σ (Except ε) α} (h : Triple P m Q E) {s : σ} {e : ε} (hP : P s)
    (hm : m s = .error e) : E e := by
  have := h s hP
  rwa [hm] at this

/-! ## Structural rules -/

/-- **Consequence**: a stronger precondition and a weaker postcondition. -/
theorem conseq {Q' : α → σ → Prop} {m : StateT σ (Except ε) α} (h : Triple P m Q E)
    (hP : ∀ s, P' s → P s) (hQ : ∀ a s, Q a s → Q' a s) : Triple P' m Q' E := by
  intro s hs
  have := h s (hP s hs)
  split at this
  · exact hQ _ _ this
  · exact this

theorem pre {m : StateT σ (Except ε) α} (h : Triple P m Q E) (hP : ∀ s, P' s → P s) :
    Triple P' m Q E :=
  h.conseq hP fun _ _ hQ => hQ

theorem post {Q' : α → σ → Prop} {m : StateT σ (Except ε) α} (h : Triple P m Q E)
    (hQ : ∀ a s, Q a s → Q' a s) : Triple P m Q' E :=
  h.conseq (fun _ hP => hP) hQ

/-- A fact that every state of the precondition implies may be assumed. -/
theorem assume {φ : Prop} {m : StateT σ (Except ε) α} (hφ : ∀ s, P s → φ)
    (h : φ → Triple P m Q E) : Triple P m Q E :=
  fun s hs => h (hφ s hs) s hs

/-- A variable of the precondition may be fixed first. -/
theorem exists_pre {ι : Type} {p : ι → σ → Prop} {m : StateT σ (Except ε) α}
    (h : ∀ i, Triple (p i) m Q E) : Triple (fun s => ∃ i, p i s) m Q E :=
  fun s ⟨i, hi⟩ => h i s hi

/-! ## Programs -/

theorem ret {a : α} (h : ∀ s, P s → Q a s) : Triple P (pure a : StateT σ (Except ε) α) Q E :=
  fun s hs => h s hs

theorem fail {e : ε} (h : E e) : Triple P (throw e : StateT σ (Except ε) α) Q E :=
  fun _ _ => h

/-- **Sequence**: the second program starts where the first one ends. -/
theorem seq {m : StateT σ (Except ε) α} {f : α → StateT σ (Except ε) β} (hm : Triple P m Q E)
    (hf : ∀ a, Triple (Q a) (f a) R E) : Triple P (m >>= f) R E := by
  intro s hs
  have hm' := hm s hs
  simp only [bind, StateT.bind, Except.bind]
  cases hms : m s with
  | error e =>
    rw [hms] at hm'
    exact hm'
  | ok r =>
    rw [hms] at hm'
    exact hf r.1 r.2 hm'

theorem map {m : StateT σ (Except ε) α} {g : α → β} (h : Triple P m (fun a => R (g a)) E) :
    Triple P (g <$> m) R E := by
  intro s hs
  have hm := h s hs
  simp only [Functor.map, StateT.map, bind, Except.bind]
  cases hms : m s with
  | error e =>
    rw [hms] at hm
    exact hm
  | ok r =>
    rw [hms] at hm
    exact hm

/-- The state is read: what follows may use that it satisfies the precondition. -/
theorem read {f : σ → StateT σ (Except ε) β}
    (h : ∀ t, P t → Triple (fun s => s = t) (f t) R E) :
    Triple P ((get : StateT σ (Except ε) σ) >>= f) R E :=
  fun s hs => h s hs s rfl

/-- The state is read, but only for what the precondition says about it. -/
theorem peek {f : σ → StateT σ (Except ε) β} (h : ∀ t, P t → Triple P (f t) R E) :
    Triple P ((get : StateT σ (Except ε) σ) >>= f) R E :=
  fun s hs => h s hs s hs

theorem update {f : σ → σ} {Q : PUnit → σ → Prop} (h : ∀ s, P s → Q ⟨⟩ (f s)) :
    Triple P (modify f : StateT σ (Except ε) PUnit) Q E :=
  fun s hs => h s hs

theorem write {t : σ} {Q : PUnit → σ → Prop} (h : (∃ s, P s) → Q ⟨⟩ t) :
    Triple P (set t : StateT σ (Except ε) PUnit) Q E :=
  fun s hs => h ⟨s, hs⟩

end Triple

/-! ## One error, and what holds after a return

A program avoids an error from a state if it does not fail with it there. Over a sequence this splits
into the first program and what follows each of its returns. -/

section
variable {m : StateT σ (Except ε) α} {f : α → StateT σ (Except ε) β} {e : ε} {s : σ}

/-- From `s`, the program does not fail with `e`. -/
def Avoids (e : ε) (m : StateT σ (Except ε) α) (s : σ) : Prop := m s ≠ .error e

/-- From `s`, what the program returns satisfies `Φ`, if it returns. -/
def After (m : StateT σ (Except ε) α) (Φ : α → σ → Prop) (s : σ) : Prop :=
  ∀ a s', m s = .ok (a, s') → Φ a s'

/-- A sequence whose first program returns goes on with the second one. -/
theorem run_bind_of_ok {a : α} {s' : σ} (h : m s = .ok (a, s')) : (m >>= f) s = f a s' := by
  simp only [bind, StateT.bind, h, Except.bind]

/-- **Avoidance over a sequence.** -/
theorem avoids_bind : Avoids e (m >>= f) s ↔ Avoids e m s ∧ After m (fun a => Avoids e (f a)) s := by
  simp only [Avoids, After, bind, StateT.bind, Except.bind]
  cases hm : m s with
  | error e' => simp
  | ok r =>
    obtain ⟨a, t⟩ := r
    simp

theorem after_bind {Φ : β → σ → Prop} :
    After (m >>= f) Φ s ↔ After m (fun a => After (f a) Φ) s := by
  simp only [After, bind, StateT.bind, Except.bind]
  cases hm : m s with
  | error e' => simp
  | ok r =>
    obtain ⟨a, t⟩ := r
    simp

theorem avoids_pure (a : α) : Avoids e (pure a : StateT σ (Except ε) α) s := by
  simp [Avoids, pure, StateT.pure, Except.pure]

theorem avoids_throw {e' : ε} (h : e' ≠ e) :
    Avoids e (throw e' : StateT σ (Except ε) α) s := by
  intro hthrow
  exact h (Except.error.inj hthrow)

/-- Reading the state neither fails nor changes it. -/
theorem avoids_get {f : σ → StateT σ (Except ε) β} :
    Avoids e ((get : StateT σ (Except ε) σ) >>= f) s ↔ Avoids e (f s) s := Iff.rfl

theorem after_get {f : σ → StateT σ (Except ε) β} {Φ : β → σ → Prop} :
    After ((get : StateT σ (Except ε) σ) >>= f) Φ s ↔ After (f s) Φ s := Iff.rfl

theorem after_pure {a : α} {Φ : α → σ → Prop} :
    After (pure a : StateT σ (Except ε) α) Φ s ↔ Φ a s := by
  simp [After, pure, StateT.pure, Except.pure]

/-- A triple that excludes the error. -/
theorem Triple.avoids {P : σ → Prop} {Q : α → σ → Prop} (h : Triple P m Q (· ≠ e)) (hs : P s) :
    Avoids e m s :=
  fun hm => h.of_error hs hm rfl

/-- After a program with a triple, only the states of its postcondition count. -/
theorem Triple.after_congr {E : ε → Prop} {P : σ → Prop} {Q Φ Ψ : α → σ → Prop}
    (h : Triple P m Q E) (hs : P s) (hΦ : ∀ a t, Q a t → (Φ a t ↔ Ψ a t)) :
    After m Φ s ↔ After m Ψ s :=
  forall₃_congr fun a t hm => hΦ a t (h.of_ok hs hm)

/-- **A first program with a triple that excludes the error** can be stepped over. -/
theorem Triple.avoids_bind {P : σ → Prop} {Q : α → σ → Prop} {Ψ : α → σ → Prop}
    (h : Triple P m Q (· ≠ e)) (hs : P s) (hf : ∀ a t, Q a t → (Avoids e (f a) t ↔ Ψ a t)) :
    Avoids e (m >>= f) s ↔ After m Ψ s := by
  rw [Lib.avoids_bind, and_iff_right (h.avoids hs)]
  exact h.after_congr hs hf

end

end WeiOS.Lib
