import Mathlib
import WeiOS.Dev.Ide

/-!
# The Elevator

`update_idequeue` of `kern/ide.c` is meant to keep the requests in the order of one sweep: those from the head on upwards,
then those below it. The forward scan runs over the place where the sweep wraps around, and the backward scan stops at
the last request that is not below the new one, wherever that is.

## Main results
- `ordered_iff`: a queue is in the order of the sweep if each request comes before those behind it.
- `elevator_iff`: the requests that `update_idequeue` puts in their place.
-/

namespace WeiOS.Ide

/-! ## §1 The order of the sweep -/

section Order

variable (blk arrival : Nat → Nat)

/-- **A queue that is ordered for head `h`**: first `h`, then the requests that are not below it, then those that are,
    each part by block numbers; equal block numbers stand in the order of arrival. -/
structure Ordered (h : Nat) (q : List Nat) : Prop where
  sweep : ∃ up down, q = h :: (up ++ down) ∧ (∀ f ∈ up, blk h ≤ blk f) ∧ (∀ f ∈ down, blk f < blk h) ∧
    up.Pairwise (fun f g => blk f ≤ blk g) ∧ down.Pairwise (fun f g => blk f ≤ blk g)
  fifo : q.Pairwise fun f g => blk f = blk g → arrival f < arrival g

/-- The order of the sweep between two requests behind the head. -/
def Before (h f g : Nat) : Prop :=
  blk h ≤ blk f ∧ blk g < blk h ∨
    (blk h ≤ blk f ↔ blk h ≤ blk g) ∧ (blk f < blk g ∨ blk f = blk g ∧ arrival f < arrival g)

end Order

/-- **The requests that find their place**: one above the head, if there is another one above it or none below the head;
    one at the head, if it is the only one; one below the head, if exactly the last request has to come after it. -/
def InPlace (blk : Nat → Nat) (h : Nat) (t : List Nat) (b : Nat) : Prop :=
  (blk h < blk b ∧ ((∃ f ∈ t, blk b < blk f) ∨ ∀ f ∈ t, blk h ≤ blk f)) ∨
    (blk b = blk h ∧ ∀ f ∈ t, blk f ≠ blk h) ∨
    (blk b < blk h ∧ ∃ x ∈ t.getLast?, blk b < blk x ∧ blk x < blk h ∧
      ∀ f ∈ t.dropLast, blk f < blk h → blk f ≤ blk b)

instance (blk : Nat → Nat) (h : Nat) (t : List Nat) (b : Nat) : Decidable (InPlace blk h t b) := by
  unfold InPlace
  infer_instance

/-! ## §2 One relation for the order -/

section Relation

variable {blk arrival : Nat → Nat} {h b : Nat} {t l r : List Nat}

/-- **The order as one relation**: the two parts of the sweep can be read off it. -/
theorem ordered_iff : Ordered blk arrival h (h :: t) ↔
    t.Pairwise (Before blk arrival h) ∧ ∀ f ∈ t, blk h = blk f → arrival h < arrival f := by
  constructor
  · rintro ⟨⟨up, down, hq, hup, hdown, hsup, hsdown⟩, hfifo⟩
    obtain rfl := (List.cons.inj hq).2
    obtain ⟨hhead, htail⟩ := List.pairwise_cons.1 hfifo
    obtain ⟨hfup, hfdown, _⟩ := List.pairwise_append.1 htail
    refine ⟨List.pairwise_append.2 ⟨?_, ?_, fun f hf g hg => .inl ⟨hup f hf, hdown g hg⟩⟩, hhead⟩
    · refine (hsup.and hfup).imp_of_mem fun hf hg hfg => .inr ⟨iff_of_true (hup _ hf) (hup _ hg), ?_⟩
      rcases Nat.lt_or_eq_of_le hfg.1 with hlt | heq
      · exact .inl hlt
      · exact .inr ⟨heq, hfg.2 heq⟩
    · refine (hsdown.and hfdown).imp_of_mem fun hf hg hfg =>
        .inr ⟨iff_of_false (Nat.not_le.2 (hdown _ hf)) (Nat.not_le.2 (hdown _ hg)), ?_⟩
      rcases Nat.lt_or_eq_of_le hfg.1 with hlt | heq
      · exact .inl hlt
      · exact .inr ⟨heq, hfg.2 heq⟩
  -- the two parts are the requests on either side of the head
  · rintro ⟨hpair, hhead⟩
    have hle : ∀ {f g}, Before blk arrival h f g → (blk h ≤ blk f ↔ blk h ≤ blk g) → blk f ≤ blk g := by
      intro f g hfg hside
      unfold Before at hfg
      omega
    refine ⟨⟨t.filter (fun f => decide (blk h ≤ blk f)), t.filter (fun f => !decide (blk h ≤ blk f)), ?_, ?_, ?_, ?_, ?_⟩,
      List.pairwise_cons.2 ⟨hhead, hpair.imp fun hfg heq => ?_⟩⟩
    · -- what is above the head comes first
      congr 1
      clear hhead hle
      induction t with
      | nil => rfl
      | cons f t ih =>
        obtain ⟨hf, htail⟩ := List.pairwise_cons.1 hpair
        by_cases hup : blk h ≤ blk f
        · simp only [List.filter_cons, hup, decide_true, Bool.not_true, if_true, List.cons_append, Bool.false_eq_true,
            if_false]
          rw [← ih htail]
        · have hall : ∀ g ∈ t, ¬ blk h ≤ blk g := by
            intro g hg hc
            have := hf g hg
            unfold Before at this
            omega
          have hnone : t.filter (fun f => decide (blk h ≤ blk f)) = [] :=
            List.filter_eq_nil_iff.2 fun g hg => by simpa using hall g hg
          have hrest : t.filter (fun f => !decide (blk h ≤ blk f)) = t :=
            List.filter_eq_self.2 fun g hg => by simpa using hall g hg
          simp [hup, hnone, hrest]
    · intro f hf
      simpa using (List.mem_filter.1 hf).2
    · intro f hf
      simpa using (List.mem_filter.1 hf).2
    · refine (hpair.filter _).imp_of_mem fun hf hg hfg => hle hfg ?_
      have h₁ := (List.mem_filter.1 hf).2
      have h₂ := (List.mem_filter.1 hg).2
      simp only [decide_eq_true_eq] at h₁ h₂
      exact iff_of_true h₁ h₂
    · refine (hpair.filter _).imp_of_mem fun hf hg hfg => hle hfg ?_
      have h₁ := (List.mem_filter.1 hf).2
      have h₂ := (List.mem_filter.1 hg).2
      simp only [Bool.not_eq_true', decide_eq_false_iff_not] at h₁ h₂
      exact iff_of_false h₁ h₂
    · unfold Before at hfg
      omega

/-- A new request comes after an old one of the same number. -/
theorem before_new {f : Nat} (hnew : arrival f < arrival b) :
    Before blk arrival h f b ↔
      blk h ≤ blk f ∧ blk b < blk h ∨ (blk h ≤ blk f ↔ blk h ≤ blk b) ∧ blk f ≤ blk b := by
  unfold Before
  omega

theorem new_before {g : Nat} (hnew : arrival g < arrival b) :
    Before blk arrival h b g ↔
      blk h ≤ blk b ∧ blk g < blk h ∨ (blk h ≤ blk b ↔ blk h ≤ blk g) ∧ blk b < blk g := by
  unfold Before
  omega

/-- **A new request between two parts** of an ordered queue. -/
theorem ordered_insert_iff (hord : Ordered blk arrival h (h :: (l ++ r)))
    (hnew : ∀ f ∈ h :: (l ++ r), arrival f < arrival b) :
    Ordered blk arrival h (h :: (l ++ b :: r)) ↔
      (∀ f ∈ l, blk h ≤ blk f ∧ blk b < blk h ∨ (blk h ≤ blk f ↔ blk h ≤ blk b) ∧ blk f ≤ blk b) ∧
        ∀ g ∈ r, blk h ≤ blk b ∧ blk g < blk h ∨ (blk h ≤ blk b ↔ blk h ≤ blk g) ∧ blk b < blk g := by
  obtain ⟨hpair, hhead⟩ := ordered_iff.1 hord
  obtain ⟨hl, hr, hlr⟩ := List.pairwise_append.1 hpair
  have hnl : ∀ f ∈ l, arrival f < arrival b := fun f hf => hnew f (by simp [hf])
  have hnr : ∀ g ∈ r, arrival g < arrival b := fun g hg => hnew g (by simp [hg])
  rw [ordered_iff, List.pairwise_append, List.pairwise_cons]
  constructor
  · rintro ⟨⟨_, ⟨hb, _⟩, hcross⟩, _⟩
    exact ⟨fun f hf => (before_new (hnl f hf)).1 (hcross f hf b List.mem_cons_self),
      fun g hg => (new_before (hnr g hg)).1 (hb g hg)⟩
  · rintro ⟨hb, ha⟩
    refine ⟨⟨hl, ⟨fun g hg => (new_before (hnr g hg)).2 (ha g hg), hr⟩, fun f hf g hg => ?_⟩, fun f hf heq => ?_⟩
    · rcases List.mem_cons.1 hg with rfl | hg
      · exact (before_new (hnl f hf)).2 (hb f hf)
      · exact hlr f hf g hg
    · rcases List.mem_append.1 hf with hf | hf
      · exact hhead f (List.mem_append_left _ hf) heq
      · rcases List.mem_cons.1 hf with rfl | hf
        · exact hnew h List.mem_cons_self
        · exact hhead f (List.mem_append_right _ hf) heq

end Relation

/-! ## §3 The three ways to insert -/

section Insert

variable {blk arrival : Nat → Nat} {h b : Nat} {t : List Nat}

/-- The forward scan, for a request above the head. -/
theorem ordered_forward (hord : Ordered blk arrival h (h :: t)) (hnew : ∀ f ∈ h :: t, arrival f < arrival b)
    (hlt : blk h < blk b) :
    Ordered blk arrival h (insertRequest blk b (h :: t)) ↔ (∃ f ∈ t, blk b < blk f) ∨ ∀ f ∈ t, blk h ≤ blk f := by
  have hsplit : t.takeWhile (fun f => !decide (blk b < blk f)) ++ t.dropWhile (fun f => !decide (blk b < blk f)) = t :=
    List.takeWhile_append_dropWhile
  have hstop : ∀ g r, t.dropWhile (fun f => !decide (blk b < blk f)) = g :: r → blk b < blk g := by
    intro g r hd
    have := List.head_dropWhile_not (fun f => !decide (blk b < blk f)) (by rw [hd]; exact List.cons_ne_nil _ _)
    simpa [hd] using this
  have hseen : ∀ f ∈ t.takeWhile (fun f => !decide (blk b < blk f)), blk f ≤ blk b := fun f hf => by
    simpa using List.mem_takeWhile_imp hf
  simp only [insertRequest]
  rw [if_pos hlt]
  generalize t.takeWhile (fun f => !decide (blk b < blk f)) = l at hsplit hseen ⊢
  generalize t.dropWhile (fun f => !decide (blk b < blk f)) = r at hsplit hstop ⊢
  subst hsplit
  rw [ordered_insert_iff hord hnew]
  obtain ⟨hpair, _⟩ := ordered_iff.1 hord
  obtain ⟨_, hr, hlr⟩ := List.pairwise_append.1 hpair
  cases r with
  | nil =>
    -- the scan went to the end of the queue
    constructor
    · rintro ⟨hl, _⟩
      refine .inr fun f hf => ?_
      have := hl f (by simpa using hf)
      omega
    · rintro (⟨f, hf, hbf⟩ | hall)
      · have := hseen f (by simpa using hf)
        omega
      · refine ⟨fun f hf => .inr ⟨iff_of_true (hall f (by simpa using hf)) hlt.le, hseen f hf⟩, fun g hg => ?_⟩
        cases hg
  | cons g r =>
    have hbg := hstop g r rfl
    refine iff_of_true ⟨fun f hf => ?_, fun g' hg' => ?_⟩ (.inl ⟨g, by simp, hbg⟩)
    · have hfg := hlr f hf g List.mem_cons_self
      have := hseen f hf
      unfold Before at hfg
      omega
    · rcases List.mem_cons.1 hg' with rfl | hg'
      · omega
      · have hgg := (List.pairwise_cons.1 hr).1 g' hg'
        unfold Before at hgg
        omega

/-- The backward scan, for a request below the head. -/
theorem ordered_backward (hord : Ordered blk arrival h (h :: t)) (hnew : ∀ f ∈ h :: t, arrival f < arrival b)
    (hlt : blk b < blk h) :
    Ordered blk arrival h (insertRequest blk b (h :: t)) ↔
      ∃ x ∈ t.getLast?, blk b < blk x ∧ blk x < blk h ∧ ∀ f ∈ t.dropLast, blk f < blk h → blk f ≤ blk b := by
  obtain ⟨front, fb, back, hq, hle, hback, hres⟩ :=
    insertFromBack_split (q := h :: t) blk ⟨h, List.mem_cons_self, hlt.le⟩
  simp only [insertRequest]
  rw [if_neg (by omega), if_pos hlt, hres]
  cases front with
  | nil =>
    -- the new request comes before the head
    obtain ⟨rfl, rfl⟩ := List.cons.inj hq
    apply iff_of_false
    · rintro ⟨⟨up, down, hc, _⟩, _⟩
      have := (List.cons.inj hc).1
      rw [this] at hlt
      exact Nat.lt_irrefl _ hlt
    · rintro ⟨x, hx, hbx, _⟩
      have := hback x (List.mem_of_getLast? hx)
      omega
  | cons a l =>
    rw [List.cons_append] at hq
    obtain ⟨rfl, rfl⟩ := List.cons.inj hq
    rw [List.cons_append, ordered_insert_iff hord hnew]
    rcases List.eq_nil_or_concat' back with rfl | ⟨back', y, rfl⟩
    · -- the last request is the one that the scan finds
      rw [List.getLast?_concat, List.dropLast_concat]
      constructor
      · rintro ⟨hl, hr⟩
        have hfb := hr fb List.mem_cons_self
        refine ⟨fb, rfl, by omega, by omega, fun f hf hfh => ?_⟩
        have := hl f hf
        omega
      · rintro ⟨x, hx, hbx, hxh, hl⟩
        obtain rfl := Option.some.inj hx
        refine ⟨fun f hf => ?_, fun g hg => ?_⟩
        · rcases Nat.lt_or_ge (blk f) (blk h) with hfh | hfh
          · exact .inr ⟨iff_of_false (Nat.not_le.2 hfh) (Nat.not_le.2 hlt), hl f hf hfh⟩
          · exact .inl ⟨hfh, hlt⟩
        · obtain rfl := List.mem_singleton.1 hg
          omega
    · have hy := hback y (by simp)
      apply iff_of_false
      · rintro ⟨_, hr⟩
        have := hr y (by simp)
        omega
      · rintro ⟨x, hx, hbx, _⟩
        rw [show l ++ fb :: (back' ++ [y]) = (l ++ fb :: back') ++ [y] by simp, List.getLast?_concat] at hx
        obtain rfl := Option.some.inj hx
        omega

/-- A request for the block of the head goes right behind it. -/
theorem ordered_equal (hord : Ordered blk arrival h (h :: t)) (hnew : ∀ f ∈ h :: t, arrival f < arrival b)
    (heq : blk b = blk h) :
    Ordered blk arrival h (insertRequest blk b (h :: t)) ↔ ∀ f ∈ t, blk f ≠ blk h := by
  simp only [insertRequest]
  rw [if_neg (by omega), if_neg (by omega)]
  rw [show h :: b :: t = h :: ([] ++ b :: t) from rfl, ordered_insert_iff (l := []) hord hnew]
  constructor
  · rintro ⟨_, hr⟩ f hf hc
    have := hr f hf
    omega
  · intro hall
    refine ⟨fun f hf => absurd hf List.not_mem_nil, fun g hg => ?_⟩
    have := hall g hg
    omega

/-- **The requests that `update_idequeue` puts in their place**. -/
theorem insertRequest_ordered_iff (hord : Ordered blk arrival h (h :: t))
    (hnew : ∀ f ∈ h :: t, arrival f < arrival b) :
    Ordered blk arrival h (insertRequest blk b (h :: t)) ↔ InPlace blk h t b := by
  unfold InPlace
  -- the three loops of the insertion
  rcases Nat.lt_trichotomy (blk h) (blk b) with hlt | heq | hgt
  · rw [ordered_forward hord hnew hlt]
    constructor
    · exact fun hc => .inl ⟨hlt, hc⟩
    · rintro (⟨_, hc⟩ | ⟨hc, _⟩ | ⟨hc, _⟩)
      · exact hc
      · omega
      · omega
  · rw [ordered_equal hord hnew heq.symm]
    constructor
    · exact fun hc => .inr (.inl ⟨heq.symm, hc⟩)
    · rintro (⟨hc, _⟩ | ⟨_, hc⟩ | ⟨hc, _⟩)
      · omega
      · exact hc
      · omega
  · rw [ordered_backward hord hnew hgt]
    constructor
    · exact fun hc => .inr (.inr ⟨hgt, hc⟩)
    · rintro (⟨hc, _⟩ | ⟨hc, _⟩ | ⟨_, hc⟩)
      · omega
      · omega
      · exact hc

end Insert

/-! ## §4 The queue of the driver -/

section Queue

variable {α : Type}

/-- The block number of a buffer. -/
def blockno (s : IdeManager α) (f : Nat) : Nat := (s.buf f).blockno

/-- **What an insertion should do**: the queue is ordered for the same head, and has the old requests and the new one. -/
def ElevatorOk (arrival : Nat → Nat) (s : IdeManager α) (h b : Nat) : Prop :=
  Ordered (blockno s) arrival h (updateIdequeue s b).ideQueue ∧ (updateIdequeue s b).ideQueue.Perm (b :: s.ideQueue)

/-- **The elevator keeps its order** exactly if the request finds its place. -/
theorem elevator_iff {s : IdeManager α} {arrival : Nat → Nat} {h b : Nat} (hord : Ordered (blockno s) arrival h s.ideQueue)
    (hnew : ∀ f ∈ s.ideQueue, arrival f < arrival b) :
    ElevatorOk arrival s h b ↔ InPlace (blockno s) h s.ideQueue.tail b := by
  obtain ⟨up, down, hq, _⟩ := hord.sweep
  unfold ElevatorOk updateIdequeue
  rw [hq] at hord hnew ⊢
  rw [and_iff_left (insertRequest_perm _ b _)]
  exact insertRequest_ordered_iff hord hnew

/-- Two requests, the second one below the head, and two other buffers. -/
def wrappedQueue : IdeManager Unit where
  buf f := ⟨0, [50, 20, 10, 70].getD f 0, false, false, (), none⟩
  ideQueue := [0, 1]
  nRequests := 2
  nRequest _ := 0
  slaveDiskExisted := false
  inFlight := none
  disk _ _ := ()

theorem wrappedQueue_ordered : Ordered (blockno wrappedQueue) id 0 wrappedQueue.ideQueue where
  sweep := ⟨[], [1], rfl, by decide, by decide, by decide, by decide⟩
  fifo := by decide

/-- The lowest request finds its place before the last one. -/
theorem elevator_iff_wrapped : ElevatorOk id wrappedQueue 0 2 :=
  (elevator_iff wrappedQueue_ordered (by decide)).2 (by decide)

/-- A request above the head is put behind those below it: 50, 20, 70. -/
theorem elevator_misses_wrap :
    ¬ ∀ (s : IdeManager Unit) (arrival : Nat → Nat) (h b : Nat), Ordered (blockno s) arrival h s.ideQueue →
      (∀ f ∈ s.ideQueue, arrival f < arrival b) → ElevatorOk arrival s h b := by
  intro hall
  have hok := hall wrappedQueue id 0 3 wrappedQueue_ordered (by decide)
  have hplace : InPlace (blockno wrappedQueue) 0 [1] 3 :=
    (insertRequest_ordered_iff wrappedQueue_ordered (by decide)).1 hok.1
  exact absurd hplace (by decide)

end Queue

end WeiOS.Ide
