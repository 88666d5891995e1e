import Mathlib

/-! A `HashMap` or `BTreeMap` as a list of key-value pairs with distinct keys. -/

namespace Map

variable {κ ν : Type} [DecidableEq κ]

def get (m : List (κ × ν)) (k : κ) : Option ν := (m.find? (·.1 = k)).map (·.2)

@[simp] theorem get_nil (k : κ) : get ([] : List (κ × ν)) k = none := rfl

theorem get_cons (entry : κ × ν) (m : List (κ × ν)) (k : κ) :
    get (entry :: m) k = if entry.1 = k then some entry.2 else get m k := by
  by_cases h : entry.1 = k <;> simp [get, h]

theorem get_append (m₁ m₂ : List (κ × ν)) (k : κ) :
    get (m₁ ++ m₂) k = (get m₁ k).or (get m₂ k) := by
  induction m₁ with
  | nil => simp [get]
  | cons entry m₁ ih => by_cases h : entry.1 = k <;> simp [get_cons, h, ih]

def insert (m : List (κ × ν)) (k : κ) (v : ν) : List (κ × ν) :=
  if (get m k).isSome then m.map fun entry => if entry.1 = k then (k, v) else entry
  else m ++ [(k, v)]

theorem get_map_replace (m : List (κ × ν)) (k k' : κ) (v : ν) :
    get (m.map fun entry => if entry.1 = k then (k, v) else entry) k' =
      if k' = k then (get m k).map fun _ => v else get m k' := by
  induction m with
  | nil => split <;> rfl
  | cons entry m ih =>
    by_cases hk : entry.1 = k
    · by_cases hk' : k' = k
      · simp [get_cons, hk, hk']
      · simp [get_cons, hk, ih, hk', Ne.symm hk']
    · simp only [List.map_cons, hk, if_false, get_cons, ih]
      by_cases hk' : entry.1 = k' <;> simp_all

/-- Whether the key was there or not, it now has the new value. -/
@[simp] theorem get_insert (m : List (κ × ν)) (k k' : κ) (v : ν) :
    get (insert m k v) k' = if k' = k then some v else get m k' := by
  unfold insert
  split
  case isTrue hk =>
    rw [get_map_replace]
    split
    · obtain ⟨w, hw⟩ := Option.isSome_iff_exists.mp hk
      simp [hw]
    · rfl
  case isFalse hk =>
    have hnone : get m k = none := by simpa using hk
    by_cases hk' : k' = k
    · simp [get_append, get_cons, hk', hnone]
    · simp [get_append, get_cons, hk', Ne.symm hk']

def erase (m : List (κ × ν)) (k : κ) : List (κ × ν) := m.filter (·.1 ≠ k)

@[simp] theorem get_erase (m : List (κ × ν)) (k k' : κ) :
    get (erase m k) k' = if k' = k then none else get m k' := by
  induction m with
  | nil => split <;> rfl
  | cons entry m ih =>
    simp only [erase, ne_eq, decide_not] at ih ⊢
    by_cases he : entry.1 = k
    · have hk : (if k' = k then none else get (entry :: m) k') =
          if k' = k then none else get m k' := by
        by_cases hk : k' = k
        · simp [hk]
        · simp [get_cons, he, Ne.symm hk, hk]
      simp only [List.filter_cons, he, decide_true, Bool.not_true, Bool.false_eq_true, if_false,
        ih, hk]
    · simp only [List.filter_cons, he, decide_false, Bool.not_false, if_true, get_cons, ih]
      by_cases hk : k' = k
      · subst hk
        simp [he]
      · simp [hk]

/-- `get_mut(k).map(f)`: the map with `f` applied to the value of `k`, `none` if `k` is
absent. -/
def modify (m : List (κ × ν)) (k : κ) (f : ν → ν) : Option (List (κ × ν)) :=
  (get m k).map fun v => insert m k (f v)

theorem get_eq_none_iff {m : List (κ × ν)} {k : κ} : get m k = none ↔ k ∉ m.map Prod.fst := by
  simp only [get, Option.map_eq_none_iff, List.find?_eq_none, decide_eq_true_eq, List.mem_map,
    not_exists, not_and]

/-- `insert` keeps the keys distinct. -/
theorem nodup_insert {m : List (κ × ν)} (hnodup : (m.map Prod.fst).Nodup) (k : κ) (v : ν) :
    ((insert m k v).map Prod.fst).Nodup := by
  unfold insert
  split
  · have hkeys : (m.map fun entry => if entry.1 = k then (k, v) else entry).map Prod.fst =
        m.map Prod.fst := by
      rw [List.map_map]
      exact List.map_congr_left fun entry _ => by by_cases h : entry.1 = k <;> simp [h]
    rwa [hkeys]
  · rename_i hk
    have hnot : k ∉ m.map Prod.fst := get_eq_none_iff.mp (by simpa using hk)
    rw [List.map_append, List.nodup_append]
    refine ⟨hnodup, List.nodup_singleton _, fun a ha b hb heq => ?_⟩
    rw [List.map_singleton, List.mem_singleton] at hb
    rw [heq, hb] at ha
    exact hnot ha

section Sum

variable [DecidableEq ν] (w : κ → ℕ) (v₀ : ν)

/-- The weight of the keys whose value is `v₀`. -/
abbrev weightOf (m : List (κ × ν)) : ℕ :=
  ((m.filter fun entry => entry.2 = v₀).map fun entry => w entry.1).sum

omit [DecidableEq κ] in
theorem weightOf_cons (entry : κ × ν) (m : List (κ × ν)) :
    weightOf w v₀ (entry :: m) = (if entry.2 = v₀ then w entry.1 else 0) + weightOf w v₀ m := by
  by_cases h : entry.2 = v₀ <;> simp [weightOf, h]

/-- Replacing the value of a key that is there moves its weight from the old value to the
new one. -/
theorem weightOf_map_replace (k : κ) (v : ν) : ∀ {m : List (κ × ν)}, (m.map Prod.fst).Nodup →
    (get m k).isSome →
    weightOf w v₀ (m.map fun entry => if entry.1 = k then (k, v) else entry) +
        (if get m k = some v₀ then w k else 0) =
      weightOf w v₀ m + if v = v₀ then w k else 0
  | [], _, h => by simp at h
  | e :: m, hnodup, h => by
    obtain ⟨he, hnodup'⟩ := List.nodup_cons.mp hnodup
    rw [List.map_cons, weightOf_cons, weightOf_cons]
    by_cases hek : e.1 = k
    · -- the entry of `k`; no other entry has it
      have hrest : (m.map fun entry => if entry.1 = k then (k, v) else entry) = m := by
        conv_rhs => rw [← List.map_id m]
        exact List.map_congr_left fun entry hentry => if_neg fun h => he (by
          rw [hek, ← h]
          exact List.mem_map_of_mem hentry)
      rw [hrest]
      simp only [get_cons, hek, if_true, Option.some.injEq]
      split_ifs <;> omega
    · have hm : (get m k).isSome := by simpa [get_cons, hek] using h
      have ih := weightOf_map_replace k v hnodup' hm
      simp only [hek, if_false, get_cons]
      omega

/-- `insert` moves the weight of `k` from its old value, if any, to the new one. -/
theorem weightOf_insert {m : List (κ × ν)} (hnodup : (m.map Prod.fst).Nodup) (k : κ) (v : ν) :
    weightOf w v₀ (insert m k v) + (if get m k = some v₀ then w k else 0) =
      weightOf w v₀ m + if v = v₀ then w k else 0 := by
  unfold insert
  split
  · rename_i hk
    exact weightOf_map_replace w v₀ k v hnodup hk
  · rename_i hk
    have hnone : get m k = none := by simpa using hk
    by_cases hv : v = v₀ <;> simp [weightOf, hnone, hv]

end Sum

end Map
