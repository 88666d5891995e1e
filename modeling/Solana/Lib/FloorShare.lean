import Mathlib

/-! Shares of a budget in proportion to weights, rounded down, never hand out more than the budget
(`sum_mul_div_le`, `sum_sum_mul_div_le`). -/

namespace FloorShare

theorem sum_div_le (l : List ℕ) (d : ℕ) : (l.map (· / d)).sum ≤ l.sum / d := by
  induction l with
  | nil => simp
  | cons a l ih =>
    rw [List.map_cons, List.sum_cons, List.sum_cons]
    exact (Nat.add_le_add_left ih _).trans Nat.div_add_div_le_add_div

/-- Shares of `R` rounded down, for weights that sum to at most `P`, sum to at most `R`. -/
theorem sum_mul_div_le {ι : Type} (l : List ι) (p : ι → ℕ) (R P : ℕ)
    (hsum : (l.map p).sum ≤ P) : (l.map fun i => p i * R / P).sum ≤ R := by
  rcases Nat.eq_zero_or_pos P with rfl | hP
  · simp
  · have hmul : (l.map fun i => p i * R).sum = (l.map p).sum * R := by
      exact List.sum_map_mul_right l p R
    calc (l.map fun i => p i * R / P).sum
        = ((l.map fun i => p i * R).map (· / P)).sum := by rw [List.map_map]; rfl
      _ ≤ (l.map fun i => p i * R).sum / P := sum_div_le _ _
      _ ≤ P * R / P := Nat.div_le_div_right (by rw [hmul]; exact Nat.mul_le_mul_right R hsum)
      _ = R := Nat.mul_div_cancel_left R hP

/-- The same for weights that come in groups, each group's shares summed first. -/
theorem sum_sum_mul_div_le {ι κ : Type} (l : List ι) (ds : ι → List κ) (p : ι → κ → ℕ)
    (R P : ℕ) (hsum : (l.map fun i => ((ds i).map (p i)).sum).sum ≤ P) :
    (l.map fun i => ((ds i).map fun k => p i k * R / P).sum).sum ≤ R := by
  have hgroup : ∀ i ∈ l,
      ((ds i).map fun k => p i k * R / P).sum ≤ ((ds i).map (p i)).sum * R / P := by
    intro i _
    calc ((ds i).map fun k => p i k * R / P).sum
        = (((ds i).map fun k => p i k * R).map (· / P)).sum := by rw [List.map_map]; rfl
      _ ≤ ((ds i).map fun k => p i k * R).sum / P := sum_div_le _ _
      _ = ((ds i).map (p i)).sum * R / P := by rw [List.sum_map_mul_right]
  calc (l.map fun i => ((ds i).map fun k => p i k * R / P).sum).sum
      ≤ (l.map fun i => ((ds i).map (p i)).sum * R / P).sum := List.sum_le_sum hgroup
    _ ≤ R := sum_mul_div_le l (fun i => ((ds i).map (p i)).sum) R P hsum

/-- Rounding down loses less than one unit per share: when the weights sum to `P > 0`, the
shares of `R` fall short of `R` by less than their number. -/
theorem lt_sum_mul_div_add_length {ι : Type} (l : List ι) (p : ι → ℕ) (R P : ℕ)
    (hsum : (l.map p).sum = P) (hP : 0 < P) :
    R < (l.map fun i => p i * R / P).sum + l.length := by
  have hne : l ≠ [] := by
    rintro rfl
    simp at hsum
    omega
  have hshare : ∀ i ∈ l, p i * R + 1 ≤ (p i * R / P + 1) * P := by
    intro i _
    have hlt := Nat.lt_div_mul_add (a := p i * R) hP
    rw [Nat.add_mul, Nat.one_mul]
    omega
  have hle := List.sum_le_sum hshare
  have hones : (l.map fun _ => 1).sum = l.length := by
    rw [List.map_const', List.sum_const_nat, Nat.mul_one]
  have hlhs : (l.map fun i => p i * R + 1).sum = P * R + l.length := by
    rw [List.sum_map_add, List.sum_map_mul_right, hsum, hones]
  have hrhs : (l.map fun i => (p i * R / P + 1) * P).sum =
      ((l.map fun i => p i * R / P).sum + l.length) * P := by
    rw [List.sum_map_mul_right, List.sum_map_add, hones]
  have hlen : 0 < l.length := List.length_pos_iff.mpr hne
  have hlt : R * P < ((l.map fun i => p i * R / P).sum + l.length) * P := by
    rw [hlhs, hrhs] at hle
    rw [Nat.add_mul] at hle ⊢
    rw [Nat.mul_comm R P]
    omega
  exact Nat.lt_of_mul_lt_mul_right hlt

/-! ## Rounding up -/

theorem le_div_ceil_mul (n : ℕ) {d : ℕ} (hd : 0 < d) : n ≤ (n + d - 1) / d * d := by
  have hlt := Nat.lt_mul_div_succ (n + d - 1) hd
  rw [Nat.mul_succ, Nat.mul_comm] at hlt
  omega

theorem div_ceil_mul_lt (n : ℕ) {d : ℕ} (hd : 0 < d) : (n + d - 1) / d * d < n + d := by
  have hle := Nat.div_mul_le_self (n + d - 1) d
  omega

end FloorShare
