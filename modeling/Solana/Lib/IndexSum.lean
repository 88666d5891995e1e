import Mathlib

/-! A check at some positions of a list bounds the whole sum when nothing else changed
(`sum_add_sumAt_eq`). -/

namespace IndexSum

variable {α M : Type} [AddCommMonoid M] (f : α → M)

/-- The sum of `f` over the entries of `l` at the positions `D`; a position past the end
counts nothing. -/
def sumAt (l : List α) (D : List ℕ) : M := (D.map fun j => (l[j]?.map f).getD 0).sum

@[simp] theorem sumAt_nil (l : List α) : sumAt f l [] = 0 := rfl

theorem sumAt_cons (l : List α) (d : ℕ) (D : List ℕ) :
    sumAt f l (d :: D) = (l[d]?.map f).getD 0 + sumAt f l D := by
  simp [sumAt]

/-- Setting one entry changes the sum by the difference of the entries. -/
theorem sum_map_set_add {l : List α} {i : ℕ} (hi : i < l.length) (x : α) :
    ((l.set i x).map f).sum + f l[i] = (l.map f).sum + f x := by
  induction l generalizing i with
  | nil => simp at hi
  | cons a l ih =>
    cases i with
    | zero => simp [add_comm, add_left_comm]
    | succ i =>
      have hi' : i < l.length := by simpa using hi
      simp only [List.set_cons_succ, List.map_cons, List.sum_cons, List.getElem_cons_succ]
      rw [add_assoc, ih hi', add_assoc]

theorem sumAt_set_of_notMem {l : List α} {D : List ℕ} {i : ℕ} (hi : i ∉ D) (x : α) :
    sumAt f (l.set i x) D = sumAt f l D := by
  unfold sumAt
  congr 1
  apply List.map_congr_left
  intro j hj
  have hne : i ≠ j := fun h => hi (h ▸ hj)
  rw [List.getElem?_set_ne hne]

/-- Two lists of one length that agree outside the distinct positions `D`: their sums
differ by what their entries at `D` differ by. -/
theorem sum_add_sumAt_eq {D : List ℕ} (hD : D.Nodup) :
    ∀ {l l' : List α}, l.length = l'.length → (∀ j, j ∉ D → l[j]? = l'[j]?) →
      (l.map f).sum + sumAt f l' D = (l'.map f).sum + sumAt f l D := by
  induction D with
  | nil =>
    intro l l' _ hout
    have heq : l = l' := List.ext_getElem? fun j => hout j (by simp)
    rw [heq]
  | cons d D ih =>
    intro l l' hlen hout
    obtain ⟨hd, hD⟩ := List.nodup_cons.mp hD
    cases hd' : l'[d]? with
    | none =>
      have hdl : l[d]? = none := by
        rw [List.getElem?_eq_none_iff] at hd' ⊢
        omega
      have hout' : ∀ j, j ∉ D → l[j]? = l'[j]? := by
        intro j hj
        by_cases hjd : j = d
        · rw [hjd, hdl, hd']
        · exact hout j (by simp [hjd, hj])
      rw [sumAt_cons, sumAt_cons, hd', hdl]
      simpa using ih hD hlen hout'
    | some y =>
      have hdlt : d < l.length := by
        rw [hlen]
        exact (List.getElem?_eq_some_iff.mp hd').1
      have hout' : ∀ j, j ∉ D → (l.set d y)[j]? = l'[j]? := by
        intro j hj
        by_cases hjd : j = d
        · rw [hjd, hd', List.getElem?_set_self hdlt]
        · rw [List.getElem?_set_ne (Ne.symm hjd)]
          exact hout j (by simp [hjd, hj])
      have hrest := ih hD (by rw [List.length_set, hlen]) hout'
      have hset := sum_map_set_add f hdlt y
      rw [sumAt_set_of_notMem f hd] at hrest
      rw [sumAt_cons, sumAt_cons, hd', List.getElem?_eq_getElem hdlt]
      simp only [Option.map_some, Option.getD_some]
      calc (l.map f).sum + (f y + sumAt f l' D)
          = ((l.map f).sum + f y) + sumAt f l' D := by rw [add_assoc]
        _ = (((l.set d y).map f).sum + sumAt f l' D) + f l[d] := by
          rw [← hset, add_right_comm]
        _ = (l'.map f).sum + (f l[d] + sumAt f l D) := by
          rw [hrest, add_right_comm, add_assoc]

/-- Nothing changed outside `D` and the entries at `D` add up as before: the whole sum is
the same. -/
theorem sum_eq_of_sumAt_eq {M : Type} [AddCancelCommMonoid M] (f : α → M) {D : List ℕ}
    (hD : D.Nodup) {l l' : List α} (hlen : l.length = l'.length)
    (hout : ∀ j, j ∉ D → l[j]? = l'[j]?) (hsum : sumAt f l D = sumAt f l' D) :
    (l.map f).sum = (l'.map f).sum := by
  have h := sum_add_sumAt_eq f hD hlen hout
  rw [hsum] at h
  exact add_right_cancel h

/-- Over distinct positions, changing the value at one of them changes the sum by the
difference of the values. -/
theorem sum_map_update_add {D : List ℕ} (hD : D.Nodup) {i : ℕ} (hi : i ∈ D) (g : ℕ → α)
    (x : α) :
    (D.map fun j => f (Function.update g i x j)).sum + f (g i) =
      (D.map fun j => f (g j)).sum + f x := by
  induction D with
  | nil => simp at hi
  | cons d D ih =>
    obtain ⟨hd, hD⟩ := List.nodup_cons.mp hD
    simp only [List.map_cons, List.sum_cons]
    by_cases hid : i = d
    · subst hid
      have hrest : (D.map fun j => f (Function.update g i x j)) = D.map fun j => f (g j) := by
        apply List.map_congr_left
        intro j hj
        rw [Function.update_of_ne (by rintro rfl; exact hd hj)]
      rw [hrest, Function.update_self]
      ac_rfl
    · have hi' : i ∈ D := by simpa [hid] using hi
      rw [Function.update_of_ne (Ne.symm hid), add_assoc, ih hD hi', add_assoc]

end IndexSum
