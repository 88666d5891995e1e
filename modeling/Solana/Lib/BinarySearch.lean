import Mathlib

/-! The loop of `slice::binary_search_by` (Rust 1.58): on a partitioned list, a hit is the
linear search's (`toOption_binarySearchBy`) and a miss is the insertion point. -/

namespace BinarySearch

variable {α : Type} (f : α → Ordering)

/-- The loop on `left`, `right` and `size = right - left`, one round per unit of fuel. -/
def searchLoop (xs : List α) : ℕ → ℕ → ℕ → ℕ → Except ℕ ℕ
  | 0, left, _, _ => .error left
  | fuel + 1, left, right, size =>
    if left < right then
      let mid := left + size / 2
      match xs[mid]? with
      | none => .error left
      | some x =>
        match f x with
        | .lt => searchLoop xs fuel (mid + 1) right (right - (mid + 1))
        | .gt => searchLoop xs fuel left mid (mid - left)
        | .eq => .ok mid
    else .error left

/-- `binary_search_by`: each round shrinks `size`, so `length + 1` rounds finish the loop. -/
def binarySearchBy (xs : List α) : Except ℕ ℕ :=
  searchLoop f xs (xs.length + 1) 0 xs.length xs.length

/-- Every element before the target comes before every element after it: of two elements in
order, the first is before the target or the second after it. -/
def Partitioned (xs : List α) : Prop :=
  xs.Pairwise fun a b => f a = .lt ∨ f b = .gt

variable {f}

theorem Partitioned.lt_of_lt {xs : List α} (h : Partitioned f xs) {i j : ℕ}
    (hi : i < xs.length) (hj : j < xs.length) (hij : i < j) (hlt : f xs[j] ≠ .gt) :
    f xs[i] = .lt :=
  ((List.pairwise_iff_getElem.mp h) i j hi hj hij).resolve_right hlt

theorem Partitioned.gt_of_lt {xs : List α} (h : Partitioned f xs) {i j : ℕ}
    (hi : i < xs.length) (hj : j < xs.length) (hij : i < j) (hgt : f xs[i] ≠ .lt) :
    f xs[j] = .gt :=
  ((List.pairwise_iff_getElem.mp h) i j hi hj hij).resolve_left hgt

/-- Everything up to an element before the target is before it. -/
theorem Partitioned.lt_of_le {xs : List α} (h : Partitioned f xs) {i j : ℕ}
    (hi : i < xs.length) (hj : j < xs.length) (hij : i ≤ j) (hlt : f xs[j] = .lt) :
    f xs[i] = .lt := by
  rcases Nat.lt_or_eq_of_le hij with hij | rfl
  · exact h.lt_of_lt hi hj hij (by simp [hlt])
  · exact hlt

/-- Everything from an element after the target on is after it. -/
theorem Partitioned.gt_of_le {xs : List α} (h : Partitioned f xs) {i j : ℕ}
    (hi : i < xs.length) (hj : j < xs.length) (hij : i ≤ j) (hgt : f xs[i] = .gt) :
    f xs[j] = .gt := by
  rcases Nat.lt_or_eq_of_le hij with hij | rfl
  · exact h.gt_of_lt hi hj hij (by simp [hgt])
  · exact hgt

/-- The loop keeps every element left of `left` before the target and every element from
`right` on after it; with fuel beyond `size` it ends where the linear search does. -/
theorem toOption_searchLoop {xs : List α} (h : Partitioned f xs) :
    ∀ fuel left right, right ≤ xs.length → right - left < fuel →
      (∀ k (hk : k < xs.length), k < left → f xs[k] = .lt) →
      (∀ k (hk : k < xs.length), right ≤ k → f xs[k] = .gt) →
      (searchLoop f xs fuel left right (right - left)).toOption =
        xs.findIdx? fun x => f x == .eq := by
  intro fuel
  induction fuel with
  | zero => intro left right _ hfuel; omega
  | succ fuel ih =>
    intro left right hright hfuel hleft hafter
    rw [searchLoop]
    split_ifs with hlr
    · have hmid : left + (right - left) / 2 < xs.length := by omega
      dsimp only
      rw [List.getElem?_eq_getElem hmid]
      dsimp only
      cases hcmp : f xs[left + (right - left) / 2] with
      | lt =>
        exact ih _ _ hright (by omega) (fun k hk hkl => h.lt_of_le hk hmid (by omega) hcmp) hafter
      | gt =>
        exact ih _ _ (by omega) (by omega) hleft (fun k hk hkr => h.gt_of_le hmid hk hkr hcmp)
      | eq =>
        refine (List.findIdx?_eq_some_iff_getElem.mpr ⟨hmid, by simp [hcmp], fun k hk => ?_⟩).symm
        have hlt := h.lt_of_lt (by omega) hmid hk (by simp [hcmp])
        simp [hlt]
    · refine (List.findIdx?_eq_none_iff.mpr fun x hx => ?_).symm
      obtain ⟨k, hk, rfl⟩ := List.getElem_of_mem hx
      rcases Nat.lt_or_ge k left with hlt | hge
      · simp [hleft k hk hlt]
      · simp [hafter k hk (by omega)]

/-- A miss ends where the elements before the target end and those after it begin. -/
theorem searchLoop_eq_error {xs : List α} (h : Partitioned f xs) :
    ∀ fuel left right, left ≤ right → right ≤ xs.length → right - left < fuel →
      (∀ k (hk : k < xs.length), k < left → f xs[k] = .lt) →
      (∀ k (hk : k < xs.length), right ≤ k → f xs[k] = .gt) →
      ∀ {index}, searchLoop f xs fuel left right (right - left) = .error index →
        index ≤ xs.length ∧ (∀ k (hk : k < xs.length), k < index → f xs[k] = .lt) ∧
          ∀ k (hk : k < xs.length), index ≤ k → f xs[k] = .gt := by
  intro fuel
  induction fuel with
  | zero => intro left right _ _ hfuel; omega
  | succ fuel ih =>
    intro left right hle hright hfuel hleft hafter index hloop
    rw [searchLoop] at hloop
    split_ifs at hloop with hlr
    · have hmid : left + (right - left) / 2 < xs.length := by omega
      dsimp only at hloop
      rw [List.getElem?_eq_getElem hmid] at hloop
      dsimp only at hloop
      cases hcmp : f xs[left + (right - left) / 2] with
      | lt =>
        rw [hcmp] at hloop
        exact ih _ _ (by omega) hright (by omega)
          (fun k hk hkl => h.lt_of_le hk hmid (by omega) hcmp) hafter hloop
      | gt =>
        rw [hcmp] at hloop
        exact ih _ _ (by omega) (by omega) (by omega) hleft
          (fun k hk hkr => h.gt_of_le hmid hk hkr hcmp) hloop
      | eq =>
        rw [hcmp] at hloop
        cases hloop
    · cases hloop
      exact ⟨by omega, hleft, fun k hk hle => hafter k hk (by omega)⟩

theorem toOption_binarySearchBy {xs : List α} (h : Partitioned f xs) :
    (binarySearchBy f xs).toOption = xs.findIdx? fun x => f x == .eq := by
  have hrun := toOption_searchLoop h (xs.length + 1) 0 xs.length le_rfl (by omega)
    (fun _ _ hk => absurd hk (Nat.not_lt_zero _)) (fun k hk hle => absurd hk (by omega))
  rwa [Nat.sub_zero] at hrun

theorem isOk_binarySearchBy {xs : List α} (h : Partitioned f xs) :
    (binarySearchBy f xs).isOk = xs.any fun x => f x == .eq := by
  have hrun := toOption_binarySearchBy h
  cases hsearch : binarySearchBy f xs with
  | error i =>
    rw [hsearch] at hrun
    have hnone : xs.findIdx? (fun x => f x == .eq) = none := hrun.symm
    have hall := List.findIdx?_eq_none_iff.mp hnone
    exact (List.any_eq_false.mpr fun x hx => by simp [hall x hx]).symm
  | ok i =>
    rw [hsearch] at hrun
    have hsome : xs.findIdx? (fun x => f x == .eq) = some i := hrun.symm
    obtain ⟨hi, hp, -⟩ := List.findIdx?_eq_some_iff_getElem.mp hsome
    exact (List.any_eq_true.mpr ⟨_, List.getElem_mem hi, hp⟩).symm

theorem partitioned_append {lows highs : List α} (hlows : ∀ a ∈ lows, f a = .lt)
    (hhighs : ∀ b ∈ highs, f b = .gt) : Partitioned f (lows ++ highs) := by
  refine List.pairwise_append.mpr ⟨?_, ?_, fun a ha _ _ => .inl (hlows a ha)⟩
  · exact List.pairwise_of_forall_mem_list fun a ha _ _ => .inl (hlows a ha)
  · exact List.pairwise_of_forall_mem_list fun _ _ b hb => .inr (hhighs b hb)

/-- Any one element may stand between those before the target and those after it. -/
theorem partitioned_append_cons {lows highs : List α} (x : α) (hlows : ∀ a ∈ lows, f a = .lt)
    (hhighs : ∀ b ∈ highs, f b = .gt) : Partitioned f (lows ++ x :: highs) := by
  refine List.pairwise_append.mpr ⟨?_, ?_, fun a ha _ _ => .inl (hlows a ha)⟩
  · exact List.pairwise_of_forall_mem_list fun a ha _ _ => .inl (hlows a ha)
  · exact List.pairwise_cons.mpr ⟨fun b hb => .inr (hhighs b hb),
      partitioned_append (fun _ ha => absurd ha List.not_mem_nil) hhighs⟩

/-- The target itself between the elements before it and those after it: a hit at its
index. -/
theorem binarySearchBy_append_cons_of_eq {lows highs : List α} {x : α}
    (hlows : ∀ a ∈ lows, f a = .lt) (hx : f x = .eq) (hhighs : ∀ b ∈ highs, f b = .gt) :
    binarySearchBy f (lows ++ x :: highs) = .ok lows.length := by
  have hfind : (lows ++ x :: highs).findIdx? (fun y => f y == .eq) = some lows.length := by
    rw [List.findIdx?_append, List.findIdx?_eq_none_iff.mpr fun a ha => by simp [hlows a ha]]
    simp [List.findIdx?_cons, hx]
  have hrun := toOption_binarySearchBy (partitioned_append_cons x hlows hhighs)
  rw [hfind] at hrun
  cases hsearch : binarySearchBy f (lows ++ x :: highs) with
  | error _ => rw [hsearch] at hrun; cases hrun
  | ok i => rw [hsearch] at hrun; cases hrun; rfl

/-- No target between the elements before it and those after it: a miss at the first after
it. -/
theorem binarySearchBy_append_of_lt_gt {lows highs : List α} (hlows : ∀ a ∈ lows, f a = .lt)
    (hhighs : ∀ b ∈ highs, f b = .gt) :
    binarySearchBy f (lows ++ highs) = .error lows.length := by
  have hpart := partitioned_append hlows hhighs
  have hnone : (lows ++ highs).findIdx? (fun y => f y == .eq) = none :=
    List.findIdx?_eq_none_iff.mpr fun y hy => by
      rcases List.mem_append.mp hy with hy | hy
      · simp [hlows y hy]
      · simp [hhighs y hy]
  have hrun := toOption_binarySearchBy hpart
  rw [hnone] at hrun
  cases hsearch : binarySearchBy f (lows ++ highs) with
  | ok _ => rw [hsearch] at hrun; cases hrun
  | error index =>
    obtain ⟨hbound, hbelow, habove⟩ := searchLoop_eq_error hpart ((lows ++ highs).length + 1) 0
      (lows ++ highs).length (Nat.zero_le _) le_rfl (by omega)
      (fun _ _ hk => absurd hk (Nat.not_lt_zero _)) (fun k hk hle => absurd hk (by omega))
      (by rw [Nat.sub_zero]; exact hsearch)
    rcases Nat.lt_trichotomy index lows.length with hlt | heq | hgt
    · have hk : index < (lows ++ highs).length := by simp; omega
      have hafter := habove index hk le_rfl
      rw [List.getElem_append_left hlt, hlows _ (List.getElem_mem hlt)] at hafter
      cases hafter
    · rw [heq]
    · have hk : lows.length < (lows ++ highs).length := lt_of_lt_of_le hgt hbound
      have hbefore := hbelow lows.length hk hgt
      have hhigh : lows.length - lows.length < highs.length := by simp at hk; omega
      rw [List.getElem_append_right (le_refl _), hhighs _ (List.getElem_mem hhigh)] at hbefore
      cases hbefore
@[simp] theorem compare_beq_eq {β : Type} [LinearOrder β] (a b : β) :
    (compare a b == .eq) = decide (a = b) := by
  cases hcmp : compare a b with
  | lt => simp [(compare_lt_iff_lt.mp hcmp).ne]
  | eq => simp [compare_eq_iff_eq.mp hcmp]
  | gt => simp [(compare_gt_iff_gt.mp hcmp).ne']

/-- A list sorted by a key in one direction is partitioned by the comparison with any target
in that direction. -/
theorem partitioned_of_pairwise {β : Type} [LinearOrder β] {key : α → β} {xs : List α}
    (target : β) (hsorted : xs.Pairwise fun a b => key b < key a) :
    Partitioned (fun x => compare target (key x)) xs :=
  hsorted.imp fun {a b} hab => by
    rcases lt_or_ge target (key a) with hlt | hge
    · exact .inl (compare_lt_iff_lt.mpr hlt)
    · exact .inr (compare_gt_iff_gt.mpr (lt_of_lt_of_le hab hge))

theorem partitioned_of_pairwise_lt {β : Type} [LinearOrder β] {key : α → β} {xs : List α}
    (target : β) (hsorted : xs.Pairwise fun a b => key a < key b) :
    Partitioned (fun x => compare (key x) target) xs :=
  hsorted.imp fun {a b} hab => by
    rcases lt_or_ge (key a) target with hlt | hge
    · exact .inl (compare_lt_iff_lt.mpr hlt)
    · exact .inr (compare_gt_iff_gt.mpr (lt_of_le_of_lt hge hab))

end BinarySearch
