import Mathlib

/-! Forests on the naturals whose parents are smaller numbers, as slots of a block tree are:
the ancestors of a node form a chain (`IsAncestor.of_lt`, `isChain_append_of_ancestors`). -/

structure Forest where
  parent : ℕ → Option ℕ
  parent_lt : ∀ {s p : ℕ}, parent s = some p → p < s

namespace Forest

variable (f : Forest)

/-- `a` is a proper ancestor of `s`: the transitive closure of the parent relation. -/
def IsAncestor : ℕ → ℕ → Prop := Relation.TransGen fun a s => f.parent s = some a

/-- The ancestors of `s` reached by at most `fuel` parent links, nearest first. -/
def ancestorsUpTo : ℕ → ℕ → List ℕ
  | 0, _ => []
  | fuel + 1, s =>
    match f.parent s with
    | none => []
    | some p => p :: ancestorsUpTo fuel p

/-- All the ancestors of `s`: each link lowers the slot, so `s` links reach them all. -/
def ancestors (s : ℕ) : List ℕ := f.ancestorsUpTo s s

variable {f} {a b s : ℕ}

theorem IsAncestor.of_parent (h : f.parent s = some a) : f.IsAncestor a s :=
  Relation.TransGen.single h

theorem IsAncestor.trans (hab : f.IsAncestor a b) (hbs : f.IsAncestor b s) : f.IsAncestor a s :=
  Relation.TransGen.trans hab hbs

instance (f : Forest) : Trans f.IsAncestor f.IsAncestor f.IsAncestor := ⟨IsAncestor.trans⟩

theorem IsAncestor.lt (h : f.IsAncestor a s) : a < s := by
  induction h with
  | single hparent => exact f.parent_lt hparent
  | tail _ hparent ih => exact ih.trans (f.parent_lt hparent)

theorem IsAncestor.ne (h : f.IsAncestor a s) : a ≠ s := h.lt.ne

/-- The ancestors of a node with parent `p` are `p` and the ancestors of `p`. -/
theorem isAncestor_iff_of_parent {p : ℕ} (hp : f.parent s = some p) :
    f.IsAncestor a s ↔ a = p ∨ f.IsAncestor a p := by
  constructor
  · intro h
    obtain ⟨c, hac, hcs⟩ := Relation.TransGen.tail'_iff.mp h
    rw [hp, Option.some.injEq] at hcs
    subst hcs
    rcases Relation.ReflTransGen.cases_tail hac with rfl | ⟨d, had, hdc⟩
    · exact .inl rfl
    · exact .inr (Relation.TransGen.tail' had hdc)
  · rintro (rfl | h)
    · exact .of_parent hp
    · exact h.trans (.of_parent hp)

/-- A root of the forest has no ancestors. -/
theorem not_isAncestor_of_parent_eq_none (hs : f.parent s = none) : ¬f.IsAncestor a s := by
  intro h
  obtain ⟨c, _, hcs⟩ := Relation.TransGen.tail'_iff.mp h
  rw [hs] at hcs
  cases hcs

/-- The ancestors of a node lie on one path: the smaller of two is an ancestor of the
larger. -/
theorem IsAncestor.of_lt (ha : f.IsAncestor a s) (hb : f.IsAncestor b s) (hab : a < b) :
    f.IsAncestor a b := by
  induction hb generalizing a with
  | @single s hparent =>
    rcases (isAncestor_iff_of_parent hparent).mp ha with rfl | ha
    · exact absurd hab (lt_irrefl _)
    · exact ha
  | @tail c s hbc hparent ih =>
    rcases (isAncestor_iff_of_parent hparent).mp ha with rfl | ha
    · exact absurd (IsAncestor.lt hbc) (Nat.lt_asymm hab)
    · exact ih ha hab

theorem mem_ancestorsUpTo {fuel : ℕ} (hfuel : s ≤ fuel) :
    a ∈ f.ancestorsUpTo fuel s ↔ f.IsAncestor a s := by
  induction fuel generalizing s with
  | zero =>
    rw [Nat.le_zero.mp hfuel]
    exact ⟨fun h => by simp [ancestorsUpTo] at h, fun h => absurd h.lt (Nat.not_lt_zero a)⟩
  | succ fuel ih =>
    simp only [ancestorsUpTo]
    split
    · rename_i hnone
      exact ⟨fun h => by simp at h, fun h => absurd h (not_isAncestor_of_parent_eq_none hnone)⟩
    · rename_i p hp
      have hpfuel : p ≤ fuel := Nat.le_of_lt_succ (lt_of_lt_of_le (f.parent_lt hp) hfuel)
      rw [List.mem_cons, ih hpfuel, isAncestor_iff_of_parent hp]

theorem mem_ancestors : a ∈ f.ancestors s ↔ f.IsAncestor a s :=
  mem_ancestorsUpTo le_rfl

instance : DecidableRel f.IsAncestor := fun _ _ => decidable_of_iff _ mem_ancestors

/-- A list of ancestors of `s` in increasing order, followed by `s`, is a path. -/
theorem isChain_append_of_ancestors {l : List ℕ} (hsorted : l.IsChain (· < ·))
    (hanc : ∀ a ∈ l, f.IsAncestor a s) : (l ++ [s]).IsChain f.IsAncestor := by
  induction l with
  | nil => exact .singleton s
  | cons a l ih =>
    have hrest : (l ++ [s]).IsChain f.IsAncestor :=
      ih hsorted.tail fun b hb => hanc b (List.mem_cons_of_mem a hb)
    cases l with
    | nil => exact .cons_cons (hanc a List.mem_cons_self) hrest
    | cons b l =>
      have hab : a < b := (List.isChain_cons_cons.mp hsorted).1
      have hlink : f.IsAncestor a b :=
        (hanc a List.mem_cons_self).of_lt (hanc b (by simp)) hab
      exact .cons_cons hlink hrest

end Forest
