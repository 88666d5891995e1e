import Mathlib

/-! A `loop { .. }` whose rounds break or go on under a decreasing measure (`Loop.loop`), with its
specification and induction rules (`loop_spec`, `loop_induction`, `Reaches.invariant`). -/

namespace Loop

variable {σ β : Type}

/-- A measure that every round that goes on lowers. -/
def Decreases (round : σ → β ⊕ σ) (measure : σ → ℕ) : Prop :=
  ∀ s s', round s = .inr s' → measure s' < measure s

-- the match hypothesis is read by `decreasing_by`, which the linter does not see
set_option linter.unusedVariables false in
/-- Run rounds from `s` until one breaks. -/
def loop (round : σ → β ⊕ σ) (measure : σ → ℕ) (hdecreases : Decreases round measure)
    (s : σ) : β :=
  match hround : round s with
  | .inl b => b
  | .inr s' => loop round measure hdecreases s'
termination_by measure s
decreasing_by exact hdecreases s s' hround

/-- The states the loop reaches from `s`. -/
def Reaches (round : σ → β ⊕ σ) : σ → σ → Prop :=
  Relation.ReflTransGen fun s s' => round s = .inr s'

variable {round : σ → β ⊕ σ} {measure : σ → ℕ} {hdecreases : Decreases round measure}

theorem loop_of_inl {s : σ} {b : β} (h : round s = .inl b) :
    loop round measure hdecreases s = b := by
  rw [loop]
  split
  · rename_i b' h'
    rw [h] at h'
    exact (Sum.inl.inj h').symm
  · rename_i s' h'
    rw [h] at h'
    cases h'

theorem loop_of_inr {s s' : σ} (h : round s = .inr s') :
    loop round measure hdecreases s = loop round measure hdecreases s' := by
  rw [loop]
  split
  · rename_i b h'
    rw [h] at h'
    cases h'
  · rename_i s'' h'
    rw [h] at h'
    rw [Sum.inr.inj h']

/-- Induction along the rounds: a property of a state and the loop's value from it holds
wherever a round breaks, and passes back from the state a round goes on to. -/
theorem loop_induction {motive : σ → β → Prop}
    (hbreak : ∀ s b, round s = .inl b → motive s b)
    (hnext : ∀ s s', round s = .inr s' → motive s' (loop round measure hdecreases s') →
      motive s (loop round measure hdecreases s')) (s : σ) :
    motive s (loop round measure hdecreases s) := by
  cases h : round s with
  | inl b =>
    rw [loop_of_inl h]
    exact hbreak s b h
  | inr s' =>
    rw [loop_of_inr h]
    exact hnext s s' h (loop_induction hbreak hnext s')
termination_by measure s
decreasing_by exact hdecreases s s' h

/-- The loop's value is what a round breaks with at a state the loop reaches. -/
theorem loop_spec (s : σ) :
    ∃ t, Reaches round s t ∧ round t = .inl (loop round measure hdecreases s) := by
  refine loop_induction (motive := fun s b => ∃ t, Reaches round s t ∧ round t = .inl b) ?_ ?_ s
  · intro s b h
    exact ⟨s, .refl, h⟩
  · intro s s' h ⟨t, hreach, ht⟩
    exact ⟨t, Relation.ReflTransGen.head h hreach, ht⟩

/-- An invariant that every round keeps holds at every state the loop reaches. -/
theorem Reaches.invariant {P : σ → Prop} (hstep : ∀ s s', P s → round s = .inr s' → P s')
    {s t : σ} (hreach : Reaches round s t) (hs : P s) : P t := by
  induction hreach with
  | refl => exact hs
  | tail _ hlast ih => exact hstep _ _ ih hlast

/-- Two rounds that agree on every state make the same loop. -/
theorem loop_congr {round' : σ → β ⊕ σ} {measure' : σ → ℕ}
    {hdecreases' : Decreases round' measure'} (hround : ∀ s, round s = round' s) (s : σ) :
    loop round measure hdecreases s = loop round' measure' hdecreases' s := by
  refine loop_induction (motive := fun s b => b = loop round' measure' hdecreases' s) ?_ ?_ s
  · intro s b h
    rw [loop_of_inl ((hround s).symm.trans h)]
  · intro s s' h ih
    rw [ih, loop_of_inr ((hround s).symm.trans h)]

/-- A second loop whose rounds go on, to the same state, wherever the first's do, and where
the first's break with `b` either break with `b` too or go on to a state from which the
second loop comes to a value related to `b`, comes to a value related to the first loop's.
The states where the rounds are compared are those of an invariant the first loop keeps. -/
theorem loop_rel_of_extends {round' : σ → β ⊕ σ} {measure' : σ → ℕ}
    {hdecreases' : Decreases round' measure'} {P : σ → Prop} {R : β → β → Prop}
    (hrefl : ∀ b, R b b)
    (hinr : ∀ s s', P s → round s = .inr s' → P s' ∧ round' s = .inr s')
    (hinl : ∀ s b, P s → round s = .inl b →
      round' s = .inl b ∨ ∃ s', round' s = .inr s' ∧ R b (loop round' measure' hdecreases' s'))
    (s : σ) (hs : P s) :
    R (loop round measure hdecreases s) (loop round' measure' hdecreases' s) := by
  refine loop_induction
    (motive := fun s b => P s → R b (loop round' measure' hdecreases' s)) ?_ ?_ s hs
  · intro s b h hs
    rcases hinl s b hs h with h' | ⟨s', h', hrel⟩
    · rw [loop_of_inl h']
      exact hrefl b
    · rw [loop_of_inr h']
      exact hrel
  · intro s s' h ih hs
    obtain ⟨hs', h'⟩ := hinr s s' hs h
    rw [loop_of_inr h']
    exact ih hs'

end Loop
