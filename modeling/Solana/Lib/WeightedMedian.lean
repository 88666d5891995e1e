import Mathlib

/-! A sorted weight map as a `BTreeMap` iterates it, and the scan for the weighted median
(`firstAbove_median`), exact below a bound when the addition saturates (`weightMap_congr`). -/

namespace WeightedMedian

variable {κ : Type}

/-- The weight of the entries whose key satisfies `p`. -/
def weight (p : κ → Bool) (l : List (κ × ℕ)) : ℕ := ((l.filter (p ·.1)).map Prod.snd).sum

/-- The total weight. -/
def total (l : List (κ × ℕ)) : ℕ := (l.map Prod.snd).sum

/-- The first key at which the running weight, from `acc`, passes `threshold`. -/
def firstAbove (add : ℕ → ℕ → ℕ) (threshold : ℕ) : ℕ → List (κ × ℕ) → Option κ
  | _, [] => none
  | acc, (key, w) :: rest =>
    if threshold < add acc w then some key else firstAbove add threshold (add acc w) rest

/-! ## Weights -/

section Weight

variable (p : κ → Bool)

@[simp] theorem weight_nil : weight p ([] : List (κ × ℕ)) = 0 := rfl

theorem weight_cons (entry : κ × ℕ) (l : List (κ × ℕ)) :
    weight p (entry :: l) = (if p entry.1 then entry.2 else 0) + weight p l := by
  by_cases h : p entry.1 <;> simp [weight, h]

theorem weight_append (l₁ l₂ : List (κ × ℕ)) : weight p (l₁ ++ l₂) = weight p l₁ + weight p l₂ := by
  simp [weight, List.filter_append]

@[simp] theorem total_cons (entry : κ × ℕ) (l : List (κ × ℕ)) :
    total (entry :: l) = entry.2 + total l := by
  simp [total]

theorem weight_le_total (l : List (κ × ℕ)) : weight p l ≤ total l := by
  induction l with
  | nil => simp [total]
  | cons entry l ih =>
    rw [weight_cons, total, List.map_cons, List.sum_cons]
    split <;> simp only [total] at ih <;> omega

/-- The weights of a predicate and of its negation make up the total. -/
theorem weight_add_weight_not (l : List (κ × ℕ)) : weight p l + weight (fun k => !p k) l = total l := by
  induction l with
  | nil => rfl
  | cons entry l ih =>
    rw [weight_cons, weight_cons, total, List.map_cons, List.sum_cons, ← total, ← ih]
    cases p entry.1 <;> simp <;> omega

theorem weight_mono {q : κ → Bool} (hpq : ∀ k, p k → q k) (l : List (κ × ℕ)) :
    weight p l ≤ weight q l := by
  induction l with
  | nil => rfl
  | cons entry l ih =>
    have hhead : (if p entry.1 then entry.2 else 0) ≤ (if q entry.1 then entry.2 else 0) := by
      by_cases hp : p entry.1
      · simp [hp, hpq _ hp]
      · simp [hp]
    rw [weight_cons, weight_cons]
    omega

theorem weight_sublist {l l' : List (κ × ℕ)} (h : l.Sublist l') : weight p l ≤ weight p l' :=
  List.Sublist.sum_le_sum ((h.filter _).map Prod.snd) (fun _ _ => Nat.zero_le _)

/-- A part of the list whose keys all satisfy `p` weighs at most the weight of `p`. -/
theorem total_le_weight {l l' : List (κ × ℕ)} (h : l.Sublist l') (hp : ∀ entry ∈ l, p entry.1) :
    total l ≤ weight p l' := by
  have hall : weight p l = total l := by
    rw [weight, List.filter_eq_self.mpr (fun entry he => hp entry he), total]
  exact hall ▸ weight_sublist p h

theorem total_eq_weight (l : List (κ × ℕ)) : total l = weight (fun _ => true) l := by
  simp [total, weight]

theorem weight_eq_zero {p : κ → Bool} {l : List (κ × ℕ)} (h : ∀ entry ∈ l, p entry.1 = false) :
    weight p l = 0 := by
  rw [weight, List.filter_eq_nil_iff.mpr (fun entry he => by simp [h entry he])]
  rfl

end Weight

/-! ## The scan -/

theorem mem_of_firstAbove {add : ℕ → ℕ → ℕ} {threshold acc : ℕ} {m : List (κ × ℕ)} {key : κ}
    (h : firstAbove add threshold acc m = some key) : ∃ entry ∈ m, entry.1 = key := by
  induction m generalizing acc with
  | nil => simp [firstAbove] at h
  | cons e m ih =>
    simp only [firstAbove] at h
    split_ifs at h
    · cases h
      exact ⟨e, List.mem_cons_self, rfl⟩
    · obtain ⟨entry, hmem, hkey⟩ := ih h
      exact ⟨entry, List.mem_cons_of_mem _ hmem, hkey⟩

theorem firstAbove_isSome {threshold acc : ℕ} {m : List (κ × ℕ)} (hacc : acc ≤ threshold)
    (h : threshold < acc + total m) : ∃ key, firstAbove (· + ·) threshold acc m = some key := by
  induction m generalizing acc with
  | nil =>
    rw [total, List.map_nil, List.sum_nil] at h
    omega
  | cons e m ih =>
    rw [total_cons] at h
    simp only [firstAbove]
    split_ifs with hpass
    · exact ⟨e.1, rfl⟩
    · exact ih (by omega) (by omega)

/-- An addition exact up to `bound` scans the same way while the running weight stays within
the bound. -/
theorem firstAbove_congr {add : ℕ → ℕ → ℕ} {bound : ℕ}
    (hadd : ∀ a b, a + b ≤ bound → add a b = a + b) {threshold acc : ℕ} {m : List (κ × ℕ)}
    (hle : acc + total m ≤ bound) :
    firstAbove add threshold acc m = firstAbove (· + ·) threshold acc m := by
  induction m generalizing acc with
  | nil => rfl
  | cons e m ih =>
    simp only [total, List.map_cons, List.sum_cons] at hle
    simp only [firstAbove, hadd acc e.2 (by omega)]
    rw [ih (by simp only [total]; omega)]

/-! ## The map -/

variable [LinearOrder κ]

def addWeight (add : ℕ → ℕ → ℕ) : List (κ × ℕ) → κ → ℕ → List (κ × ℕ)
  | [], key, w => [(key, w)]
  | (key', w') :: rest, key, w =>
    if key < key' then (key, w) :: (key', w') :: rest
    else if key = key' then (key', add w' w) :: rest
    else (key', w') :: addWeight add rest key w

def weightMap (add : ℕ → ℕ → ℕ) (l : List (κ × ℕ)) : List (κ × ℕ) :=
  l.foldl (fun m entry => addWeight add m entry.1 entry.2) []

/-- Keys strictly increasing along the map. -/
def Sorted (m : List (κ × ℕ)) : Prop := m.Pairwise (·.1 < ·.1)

theorem mem_addWeight {add : ℕ → ℕ → ℕ} {m : List (κ × ℕ)} {key : κ} {w : ℕ}
    {entry : κ × ℕ} (h : entry ∈ addWeight add m key w) : entry.1 = key ∨ ∃ e ∈ m, e.1 = entry.1 := by
  induction m with
  | nil => simp_all [addWeight]
  | cons e m ih =>
    simp only [addWeight] at h
    split_ifs at h with hlt heq
    · rcases List.mem_cons.mp h with rfl | h
      · exact .inl rfl
      · exact .inr ⟨entry, h, rfl⟩
    · rcases List.mem_cons.mp h with rfl | h
      · exact .inr ⟨e, List.mem_cons_self, rfl⟩
      · exact .inr ⟨entry, List.mem_cons_of_mem _ h, rfl⟩
    · rcases List.mem_cons.mp h with rfl | h
      · exact .inr ⟨_, List.mem_cons_self, rfl⟩
      · rcases ih h with h | ⟨e', he', hkey⟩
        · exact .inl h
        · exact .inr ⟨e', List.mem_cons_of_mem _ he', hkey⟩

theorem sorted_addWeight (add : ℕ → ℕ → ℕ) {m : List (κ × ℕ)} (hm : Sorted m) (key : κ) (w : ℕ) :
    Sorted (addWeight add m key w) := by
  induction m with
  | nil => simp [Sorted, addWeight]
  | cons e m ih =>
    have hhead := List.pairwise_cons.mp hm
    simp only [addWeight]
    split_ifs with hlt heq
    · exact List.Pairwise.cons (fun e' he' => by
        rcases List.mem_cons.mp he' with rfl | he'
        · exact hlt
        · exact hlt.trans (hhead.1 e' he')) hm
    · exact List.Pairwise.cons (fun e' he' => heq ▸ hhead.1 e' he') hhead.2
    · refine List.Pairwise.cons (fun e' he' => ?_) (ih hhead.2)
      rcases mem_addWeight he' with hkey | ⟨e'', he'', hkey⟩
      · rw [hkey]
        exact lt_of_le_of_ne (not_lt.mp hlt) (Ne.symm heq)
      · exact hkey ▸ hhead.1 e'' he''

theorem sorted_weightMap (add : ℕ → ℕ → ℕ) (l : List (κ × ℕ)) : Sorted (weightMap add l) := by
  suffices h : ∀ m, Sorted m → Sorted (l.foldl (fun m entry => addWeight add m entry.1 entry.2) m)
    from h [] List.Pairwise.nil
  induction l with
  | nil => exact fun m hm => hm
  | cons entry l ih => exact fun m hm => ih _ (sorted_addWeight add hm entry.1 entry.2)

/-- With exact addition, adding at a key adds to the weight of every predicate it satisfies. -/
theorem weight_addWeight (p : κ → Bool) (m : List (κ × ℕ)) (key : κ) (w : ℕ) :
    weight p (addWeight (· + ·) m key w) = weight p m + if p key then w else 0 := by
  induction m with
  | nil => simp [addWeight, weight_cons]
  | cons e m ih =>
    obtain ⟨key', w'⟩ := e
    simp only [addWeight]
    by_cases hlt : key < key'
    · simp only [if_pos hlt, weight_cons]
      omega
    · by_cases heq : key = key'
      · subst heq
        rw [if_neg hlt, if_pos rfl, weight_cons, weight_cons]
        by_cases hp : p key
        · simp only [hp, if_true]
          omega
        · simp [hp]
      · simp only [if_neg hlt, if_neg heq, weight_cons, ih]
        omega

theorem weight_weightMap (p : κ → Bool) (l : List (κ × ℕ)) :
    weight p (weightMap (· + ·) l) = weight p l := by
  suffices h : ∀ m, weight p (l.foldl (fun m entry => addWeight (· + ·) m entry.1 entry.2) m) =
      weight p m + weight p l from (h []).trans (Nat.zero_add _)
  induction l with
  | nil => simp
  | cons entry l ih =>
    intro m
    rw [List.foldl_cons, ih, weight_addWeight, weight_cons]
    omega

theorem total_weightMap (l : List (κ × ℕ)) : total (weightMap (· + ·) l) = total l := by
  rw [total_eq_weight, total_eq_weight, weight_weightMap]

/-- An addition that is exact up to `bound` builds the exact map while the total stays within
the bound. -/
theorem addWeight_congr {add : ℕ → ℕ → ℕ} {bound : ℕ}
    (hadd : ∀ a b, a + b ≤ bound → add a b = a + b) {m : List (κ × ℕ)} {key : κ} {w : ℕ}
    (hle : total m + w ≤ bound) : addWeight add m key w = addWeight (· + ·) m key w := by
  induction m with
  | nil => rfl
  | cons e m ih =>
    simp only [total, List.map_cons, List.sum_cons] at hle
    simp only [addWeight]
    split_ifs
    · rfl
    · rw [hadd _ _ (by omega)]
    · rw [ih (by simp only [total]; omega)]

theorem foldl_addWeight_congr {add : ℕ → ℕ → ℕ} {bound : ℕ}
    (hadd : ∀ a b, a + b ≤ bound → add a b = a + b) (l : List (κ × ℕ)) {m : List (κ × ℕ)}
    (hle : total m + total l ≤ bound) :
    l.foldl (fun m entry => addWeight add m entry.1 entry.2) m =
      l.foldl (fun m entry => addWeight (· + ·) m entry.1 entry.2) m := by
  induction l generalizing m with
  | nil => rfl
  | cons entry l ih =>
    rw [total_cons] at hle
    have htotal : total (addWeight (· + ·) m entry.1 entry.2) = total m + entry.2 := by
      rw [total_eq_weight, total_eq_weight, weight_addWeight, if_pos rfl]
    rw [List.foldl_cons, List.foldl_cons, addWeight_congr hadd (by omega), ih (by omega)]

theorem weightMap_congr {add : ℕ → ℕ → ℕ} {bound : ℕ}
    (hadd : ∀ a b, a + b ≤ bound → add a b = a + b) {l : List (κ × ℕ)} (hl : total l ≤ bound) :
    weightMap add l = weightMap (· + ·) l :=
  foldl_addWeight_congr hadd l (by simpa [total] using hl)

/-! ## The median -/

/-- The scan stops at a key only once the running weight at or below it passes the threshold,
and the weight strictly below it did not. -/
theorem firstAbove_spec {threshold : ℕ} {m : List (κ × ℕ)} (hm : Sorted m) {acc : ℕ} {key : κ}
    (hacc : acc ≤ threshold) (h : firstAbove (· + ·) threshold acc m = some key) :
    acc + weight (· < key) m ≤ threshold ∧ threshold < acc + weight (· ≤ key) m := by
  induction m generalizing acc with
  | nil => simp [firstAbove] at h
  | cons e m ih =>
    have hhead := List.pairwise_cons.mp hm
    simp only [firstAbove] at h
    split_ifs at h with hpass
    case pos =>
      cases h
      have hbelow : weight (· < e.1) m = 0 :=
        weight_eq_zero fun entry he => by simpa using (hhead.1 entry he).le
      rw [weight_cons, weight_cons, hbelow]
      simp only [lt_self_iff_false, decide_false, le_refl, decide_true, Bool.false_eq_true,
        if_false, if_true]
      omega
    case neg =>
      obtain ⟨entry, hmem, rfl⟩ := mem_of_firstAbove h
      have habove := hhead.1 entry hmem
      obtain ⟨hle, hlt⟩ := ih hhead.2 (by omega) h
      rw [weight_cons, weight_cons, if_pos (by simpa using habove), if_pos (by simpa using habove.le)]
      omega

/-- The scan with half the total as threshold finds a weighted median of the list. -/
theorem firstAbove_median {l : List (κ × ℕ)} (hpos : 0 < total l) :
    ∃ key, firstAbove (· + ·) (total l / 2) 0 (weightMap (· + ·) l) = some key ∧
      weight (· < key) l ≤ total l / 2 ∧ total l / 2 < weight (· ≤ key) l := by
  obtain ⟨key, hkey⟩ := firstAbove_isSome (Nat.zero_le (total l / 2))
    (m := weightMap (· + ·) l) (by rw [total_weightMap]; omega)
  obtain ⟨hle, hlt⟩ := firstAbove_spec (sorted_weightMap _ l) (Nat.zero_le _) hkey
  rw [weight_weightMap] at hle hlt
  exact ⟨key, hkey, by omega, by omega⟩

/-! ## Medians of the parts holding more than half -/

section Median

variable {l part : List (κ × ℕ)} {key : κ}

/-- A part of the list holding more than half its weight reaches up to the median. -/
theorem exists_ge_of_half_lt (hpart : part.Sublist l) (hbelow : weight (· < key) l ≤ total l / 2)
    (hhalf : total l / 2 < total part) : ∃ entry ∈ part, key ≤ entry.1 := by
  by_contra hnone
  simp only [not_exists, not_and, not_le] at hnone
  have := total_le_weight (· < key) hpart (fun entry he => by simpa using hnone entry he)
  omega

/-- A part of the list holding more than half its weight reaches down to the median. -/
theorem exists_le_of_half_lt (hpart : part.Sublist l) (hat : total l / 2 < weight (· ≤ key) l)
    (hhalf : total l / 2 < total part) : ∃ entry ∈ part, entry.1 ≤ key := by
  by_contra hnone
  simp only [not_exists, not_and, not_le] at hnone
  have habove := total_le_weight (fun k => !decide (k ≤ key)) hpart
    (fun entry he => by simpa using hnone entry he)
  have hsplit := weight_add_weight_not (fun k => decide (k ≤ key)) l
  omega

end Median

end WeightedMedian
