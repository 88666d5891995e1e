import Mathlib

/-! Buckets filed by the top bits of a word (`topBits`), and reading a run of them from the
flattened table (`filter_flatten_eq_extract`). -/

namespace Buckets

/-- The top `b` bits of a `w`-bit word. -/
def topBits (w b x : ℕ) : ℕ := x / 2 ^ (w - b)

/-! ## Top bits -/

theorem topBits_lt {w b x : ℕ} (hb : b ≤ w) (hx : x < 2 ^ w) : topBits w b x < 2 ^ b := by
  rw [topBits, Nat.div_lt_iff_lt_mul (Nat.two_pow_pos _), ← Nat.pow_add, Nat.add_sub_cancel' hb]
  exact hx

/-- The top `m` bits of the top `b` bits are the top `m` bits. -/
theorem topBits_topBits {w b m : ℕ} (hmb : m ≤ b) (hbw : b ≤ w) (x : ℕ) :
    topBits b m (topBits w b x) = topBits w m x := by
  rw [topBits, topBits, topBits, Nat.div_div_eq_div_mul, ← Nat.pow_add]
  congr 2
  omega

/-- Words that agree on their top `m` bits agree on fewer. -/
theorem topBits_eq_of_le {w b m x y : ℕ} (hbm : b ≤ m) (hmw : m ≤ w)
    (h : topBits w m x = topBits w m y) : topBits w b x = topBits w b y := by
  rw [← topBits_topBits hbm hmw x, ← topBits_topBits hbm hmw y, h]

/-- Setting bits below the top `b` leaves them. -/
theorem topBits_or_low {w b k : ℕ} (hk : k ≤ w - b) (x : ℕ) :
    topBits w b (x ||| (2 ^ k - 1)) = topBits w b x := by
  unfold topBits
  apply Nat.eq_of_testBit_eq
  intro i
  rw [Nat.testBit_div_two_pow, Nat.testBit_div_two_pow, Nat.testBit_or, Nat.testBit_two_pow_sub_one]
  simp only [show ¬ i + (w - b) < k by omega, decide_false, Bool.or_false]

/-- With the bits below the top `m` set, the top `b ≥ m` bits are the top `m` bits followed by
ones: the last bucket of the run. -/
theorem topBits_or_ones {w b m : ℕ} (hmb : m ≤ b) (hbw : b ≤ w) (x : ℕ) :
    topBits w b (x ||| (2 ^ (w - m) - 1)) = topBits w m x * 2 ^ (b - m) + (2 ^ (b - m) - 1) := by
  set r := topBits w b (x ||| (2 ^ (w - m) - 1))
  have hdiv : r / 2 ^ (b - m) = topBits w m x := by
    rw [← topBits, topBits_topBits hmb hbw, topBits_or_low (by omega)]
  have hmod : r % 2 ^ (b - m) = 2 ^ (b - m) - 1 := by
    apply Nat.eq_of_testBit_eq
    intro i
    rw [Nat.testBit_mod_two_pow, Nat.testBit_two_pow_sub_one]
    by_cases hi : i < b - m
    · simp only [hi, decide_true, Bool.true_and, r, topBits, Nat.testBit_div_two_pow,
        Nat.testBit_or, Nat.testBit_two_pow_sub_one, show i + (w - b) < w - m by omega,
        Bool.or_true]
    · simp [hi]
  calc r = 2 ^ (b - m) * (r / 2 ^ (b - m)) + r % 2 ^ (b - m) := (Nat.div_add_mod r _).symm
    _ = topBits w m x * 2 ^ (b - m) + (2 ^ (b - m) - 1) := by rw [hdiv, hmod, Nat.mul_comm]

/-- The buckets whose top `m` of `b` bits are `t` are the run `[t * 2 ^ c, (t + 1) * 2 ^ c)`. -/
theorem div_eq_iff_mem_range (s t c : ℕ) :
    s / 2 ^ c = t ↔ t * 2 ^ c ≤ s ∧ s < (t + 1) * 2 ^ c := by
  rw [← Nat.le_div_iff_mul_le (Nat.two_pow_pos _), ← Nat.div_lt_iff_lt_mul (Nat.two_pow_pos _)]
  omega

/-! ## Reading buckets through a flattened table -/

variable {α : Type*}

/-- A test that passes on the whole of the buckets `[a, b)` and fails on every other reads the
run of those buckets. -/
theorem filter_flatten_eq_extract (p : α → Bool) :
    ∀ (L : List (List α)) (a b : ℕ), b ≤ L.length →
      (∀ s (hs : s < L.length), ∀ x ∈ L[s], p x = decide (a ≤ s ∧ s < b)) →
      L.flatten.filter p = (L.extract a b).flatten := by
  intro L
  induction L with
  | nil => intro a b _ _; simp
  | cons B L ih =>
    intro a b hb h
    have htail : L.flatten.filter p = (L.extract (a - 1) (b - 1)).flatten := by
      refine ih (a - 1) (b - 1) (by simp at hb; omega) fun s hs x hx => ?_
      rw [h (s + 1) (by simp; omega) x (by simpa using hx)]
      congr 1
      apply propext
      omega
    have hhead : ∀ x ∈ B, p x = decide (a = 0 ∧ 0 < b) := fun x hx => by
      rw [h 0 (by simp) x (by simpa using hx)]
      congr 1
      apply propext
      omega
    rw [List.flatten_cons, List.filter_append, htail, List.extract_eq_take_drop,
      List.extract_eq_take_drop]
    by_cases ha : a = 0
    · subst ha
      by_cases hb0 : b = 0
      · subst hb0
        rw [List.filter_eq_nil_iff.mpr fun x hx => by simp [hhead x hx]]
        simp
      · rw [List.filter_eq_self.mpr fun x hx => by simp [hhead x hx, Nat.pos_of_ne_zero hb0]]
        obtain ⟨b, rfl⟩ := Nat.exists_eq_succ_of_ne_zero hb0
        simp
    · rw [List.filter_eq_nil_iff.mpr fun x hx => by simp [hhead x hx, ha]]
      obtain ⟨a, rfl⟩ := Nat.exists_eq_succ_of_ne_zero ha
      simp only [List.nil_append, List.drop_succ_cons, Nat.succ_sub_one]
      rw [show b - 1 - a = b - a.succ by omega]

/-- A test that fails on every bucket but the `i`-th reads that bucket. -/
theorem filter_flatten_eq_getElem (p : α → Bool) {L : List (List α)} {i : ℕ} (hi : i < L.length)
    (h : ∀ s (hs : s < L.length), s ≠ i → ∀ x ∈ L[s], p x = false) :
    L.flatten.filter p = L[i].filter p := by
  have hrun : (L.map (List.filter p)).flatten.filter (fun _ => true) =
      ((L.map (List.filter p)).extract i (i + 1)).flatten := by
    refine filter_flatten_eq_extract _ _ i (i + 1) (by simp; omega) fun s hs x hx => ?_
    rw [List.getElem_map, List.mem_filter] at hx
    by_cases hsi : s = i
    · simp [hsi]
    · rw [h s (by simpa using hs) hsi x hx.1] at hx
      exact absurd hx.2 Bool.false_ne_true
  rw [List.filter_flatten, ← List.filter_true ((L.map (List.filter p)).flatten), hrun,
    List.extract_eq_take_drop, List.drop_eq_getElem_cons (by simpa using hi)]
  simp

/-- Updating one bucket leaves the others. -/
theorem getD_modify {L : List (List α)} {t : ℕ} (ht : t < L.length) (f : List α → List α)
    (s : ℕ) : (L.modify t f).getD s [] = if t = s then f (L.getD s []) else L.getD s [] := by
  rw [List.getD_eq_getElem?_getD, List.getElem?_modify]
  split_ifs with hts
  · subst hts
    rw [List.getElem?_eq_getElem ht, List.getD_eq_getElem _ _ ht]
    rfl
  · rw [List.getD_eq_getElem?_getD]
    cases L[s]? <;> rfl

/-- The keys of the entries whose value passes a test. -/
theorem filterMap_eq_map_filter {β : Type*} (c : β → Prop) [DecidablePred c] :
    ∀ l : List (α × β),
      l.filterMap (fun e => if c e.2 then some e.1 else none) = (l.filter fun e => c e.2).map Prod.fst
  | [] => rfl
  | e :: l => by
    by_cases he : c e.2 <;> simp [he, filterMap_eq_map_filter c l]

end Buckets
