import Mathlib

/-! Markers cutting the naturals into intervals, as a `BTreeSet` of data-complete indices does,
and how a new marker or a new number changes the complete intervals. -/

namespace Markers

variable (markers : Finset ℕ)

/-- `range(..x).next_back()`: the greatest marker below `x`. -/
def lastBelow (x : ℕ) : Option ℕ :=
  if h : (markers.filter (· < x)).Nonempty then some ((markers.filter (· < x)).max' h) else none

/-- `range(x..).next()`: the least marker at or above `x`. -/
def firstFrom (x : ℕ) : Option ℕ :=
  if h : (markers.filter (x ≤ ·)).Nonempty then some ((markers.filter (x ≤ ·)).min' h)
  else none

/-- Where the interval that ends at `b` starts: after the marker before `b`, or at 0. -/
def setStart (b : ℕ) : ℕ := ((lastBelow markers b).map (· + 1)).getD 0

variable {markers}

/-! ## The neighbouring markers -/

theorem lastBelow_eq_some {x y : ℕ} :
    lastBelow markers x = some y ↔ y ∈ markers ∧ y < x ∧ ∀ z ∈ markers, z < x → z ≤ y := by
  unfold lastBelow
  split_ifs with h
  · rw [Option.some.injEq]
    constructor
    · rintro rfl
      have hmem := Finset.mem_filter.mp (Finset.max'_mem _ h)
      exact ⟨hmem.1, hmem.2, fun z hz hzx => Finset.le_max' _ z (Finset.mem_filter.mpr ⟨hz, hzx⟩)⟩
    · rintro ⟨hy, hyx, hmax⟩
      refine le_antisymm ?_ (Finset.le_max' _ y (Finset.mem_filter.mpr ⟨hy, hyx⟩))
      exact (Finset.max'_le_iff _ h).mpr fun z hz =>
        hmax z (Finset.mem_filter.mp hz).1 (Finset.mem_filter.mp hz).2
  · rw [Finset.filter_nonempty_iff] at h
    simp only [false_iff, not_and]
    intro hy hyx
    exact absurd ⟨y, hy, hyx⟩ h

theorem lastBelow_eq_none {x : ℕ} : lastBelow markers x = none ↔ ∀ z ∈ markers, x ≤ z := by
  unfold lastBelow
  split_ifs with h
  · obtain ⟨z, hz, hzx⟩ := Finset.filter_nonempty_iff.mp h
    simp only [false_iff, not_forall, not_le]
    exact ⟨z, hz, hzx⟩
  · rw [Finset.filter_nonempty_iff] at h
    simp only [true_iff]
    intro z hz
    by_contra hzx
    exact h ⟨z, hz, Nat.lt_of_not_le hzx⟩

theorem firstFrom_eq_some {x y : ℕ} :
    firstFrom markers x = some y ↔ y ∈ markers ∧ x ≤ y ∧ ∀ z ∈ markers, x ≤ z → y ≤ z := by
  unfold firstFrom
  split_ifs with h
  · rw [Option.some.injEq]
    constructor
    · rintro rfl
      have hmem := Finset.mem_filter.mp (Finset.min'_mem _ h)
      exact ⟨hmem.1, hmem.2, fun z hz hxz => Finset.min'_le _ z (Finset.mem_filter.mpr ⟨hz, hxz⟩)⟩
    · rintro ⟨hy, hxy, hmin⟩
      refine le_antisymm (Finset.min'_le _ y (Finset.mem_filter.mpr ⟨hy, hxy⟩)) ?_
      exact (Finset.le_min'_iff _ h).mpr fun z hz =>
        hmin z (Finset.mem_filter.mp hz).1 (Finset.mem_filter.mp hz).2
  · rw [Finset.filter_nonempty_iff] at h
    simp only [false_iff, not_and]
    intro hy hxy
    exact absurd ⟨y, hy, hxy⟩ h

theorem firstFrom_eq_none {x : ℕ} : firstFrom markers x = none ↔ ∀ z ∈ markers, z < x := by
  unfold firstFrom
  split_ifs with h
  · obtain ⟨z, hz, hxz⟩ := Finset.filter_nonempty_iff.mp h
    simp only [false_iff, not_forall, not_lt]
    exact ⟨z, hz, hxz⟩
  · rw [Finset.filter_nonempty_iff] at h
    simp only [true_iff]
    intro z hz
    by_contra hxz
    exact h ⟨z, hz, Nat.le_of_not_lt hxz⟩

/-! ## Intervals -/

/-- An interval starts after every marker below its end. -/
theorem setStart_le_iff {b j : ℕ} : setStart markers b ≤ j ↔ ∀ z ∈ markers, z < b → z < j := by
  unfold setStart
  cases hlast : lastBelow markers b with
  | none =>
    rw [lastBelow_eq_none] at hlast
    simp only [Option.map_none, Option.getD_none, Nat.zero_le, true_iff]
    intro z hz hzb
    exact absurd (hlast z hz) (Nat.not_le_of_lt hzb)
  | some y =>
    obtain ⟨hy, hyb, hmax⟩ := lastBelow_eq_some.mp hlast
    simp only [Option.map_some, Option.getD_some]
    constructor
    · intro hj z hz hzb
      have := hmax z hz hzb
      omega
    · intro h
      have := h y hy hyb
      omega

theorem setStart_le_self (b : ℕ) : setStart markers b ≤ b :=
  setStart_le_iff.mpr fun _ _ hzb => hzb

/-- A number lies in the interval of the first marker at or above it. -/
theorem firstFrom_eq_some_iff {b j : ℕ} :
    firstFrom markers j = some b ↔ b ∈ markers ∧ setStart markers b ≤ j ∧ j ≤ b := by
  rw [firstFrom_eq_some, setStart_le_iff]
  constructor
  · rintro ⟨hb, hjb, hmin⟩
    refine ⟨hb, fun z hz hzb => ?_, hjb⟩
    by_contra hjz
    exact absurd (hmin z hz (Nat.le_of_not_lt hjz)) (Nat.not_le_of_lt hzb)
  · rintro ⟨hb, hstart, hjb⟩
    refine ⟨hb, hjb, fun z hz hjz => ?_⟩
    by_contra hzb
    exact absurd (hstart z hz (Nat.lt_of_not_le hzb)) (Nat.not_lt_of_le hjz)

/-- The intervals of two markers share no number. -/
theorem interval_disjoint {b b' j : ℕ} (hb : b ∈ markers) (hb' : b' ∈ markers)
    (hj : setStart markers b ≤ j ∧ j ≤ b) (hj' : setStart markers b' ≤ j ∧ j ≤ b') : b = b' := by
  have h := (firstFrom_eq_some_iff.mpr ⟨hb, hj⟩).symm.trans (firstFrom_eq_some_iff.mpr ⟨hb', hj'⟩)
  exact Option.some.inj h

/-- The interval of the first marker at or above `i` starts where the markers below `i` end. -/
theorem setStart_of_firstFrom_eq {i b : ℕ} (hfirst : firstFrom markers i = some b) :
    setStart markers b = setStart markers i := by
  obtain ⟨_, _, hmin⟩ := firstFrom_eq_some.mp hfirst
  refine eq_of_forall_ge_iff fun j => ?_
  rw [setStart_le_iff, setStart_le_iff]
  constructor
  · intro h z hz hzi
    exact h z hz (Nat.lt_of_lt_of_le hzi (firstFrom_eq_some.mp hfirst).2.1)
  · intro h z hz hzb
    by_cases hzi : z < i
    · exact h z hz hzi
    · exact absurd (hmin z hz (Nat.le_of_not_lt hzi)) (Nat.not_le_of_lt hzb)

/-! ## A new marker -/

theorem setStart_insert_le_iff {i b j : ℕ} :
    setStart (insert i markers) b ≤ j ↔ (i < b → i < j) ∧ setStart markers b ≤ j := by
  rw [setStart_le_iff, setStart_le_iff, Finset.forall_mem_insert]

/-- A new marker outside the interval of `b` leaves it as it was. -/
theorem setStart_insert_of_firstFrom_ne {i b : ℕ} (hb : b ∈ markers)
    (hne : firstFrom markers i ≠ some b) :
    setStart (insert i markers) b = setStart markers b := by
  refine eq_of_forall_ge_iff fun j => ?_
  rw [setStart_insert_le_iff]
  constructor
  · exact fun h => h.2
  · intro hj
    refine ⟨fun hib => ?_, hj⟩
    by_contra hij
    exact hne (firstFrom_eq_some_iff.mpr ⟨hb, le_trans hj (Nat.le_of_not_lt hij), hib.le⟩)

/-- A new marker inside the interval of `b` starts it anew after the new marker. -/
theorem setStart_insert_of_firstFrom_eq {i b : ℕ} (hfirst : firstFrom markers i = some b)
    (hi : i ∉ markers) : setStart (insert i markers) b = i + 1 := by
  obtain ⟨hb, hib, hmin⟩ := firstFrom_eq_some.mp hfirst
  have hlt : i < b := Nat.lt_of_le_of_ne hib fun h => hi (h ▸ hb)
  refine eq_of_forall_ge_iff fun j => ?_
  rw [setStart_insert_le_iff, setStart_le_iff]
  constructor
  · exact fun h => h.1 hlt
  · intro hij
    refine ⟨fun _ => hij, fun z hz hzb => ?_⟩
    by_cases hzi : z < i
    · omega
    · exact absurd (hmin z hz (Nat.le_of_not_lt hzi)) (Nat.not_le_of_lt hzb)

/-- A new marker `i` ends an interval that starts where the markers below `i` end. -/
theorem setStart_insert_self (i : ℕ) : setStart (insert i markers) i = setStart markers i := by
  refine eq_of_forall_ge_iff fun j => ?_
  rw [setStart_insert_le_iff]
  exact ⟨fun h => h.2, fun h => ⟨fun hii => absurd hii (Nat.lt_irrefl i), h⟩⟩

/-- A new marker above `x` is not the first at or above a number past it. -/
theorem firstFrom_insert_of_lt {i x : ℕ} (h : i < x) :
    firstFrom (insert i markers) x = firstFrom markers x := by
  unfold firstFrom
  rw [Finset.filter_insert, if_neg (Nat.not_le_of_lt h)]

/-- Past a number that is not a marker, the first marker is the same as from the number. -/
theorem firstFrom_succ_of_not_mem {i : ℕ} (hi : i ∉ markers) :
    firstFrom markers (i + 1) = firstFrom markers i := by
  unfold firstFrom
  have hfilter : markers.filter (i + 1 ≤ ·) = markers.filter (i ≤ ·) := by
    ext z
    simp only [Finset.mem_filter, and_congr_right_iff]
    intro hz
    exact ⟨fun h => by omega, fun h => Nat.lt_of_le_of_ne h fun hiz => hi (hiz ▸ hz)⟩
  simp only [hfilter]

/-- A number's interval under a new marker ends at the new marker when the number is at or
below it and in the interval it splits, and is unchanged otherwise. -/
theorem firstFrom_insert_of_le {i x b : ℕ} (hfirst : firstFrom markers i = some b) (hxi : x ≤ i)
    (hx : setStart markers b ≤ x) : firstFrom (insert i markers) x = some i := by
  obtain ⟨hb, hib, hmin⟩ := firstFrom_eq_some.mp hfirst
  rw [firstFrom_eq_some]
  refine ⟨Finset.mem_insert_self i markers, hxi, fun z hz hxz => ?_⟩
  rcases Finset.mem_insert.mp hz with rfl | hz
  · exact le_rfl
  · by_contra hzi
    have hzb : z < b := Nat.lt_of_lt_of_le (Nat.lt_of_not_le hzi) hib
    exact absurd (setStart_le_iff.mp hx z hz hzb) (Nat.not_lt_of_le hxz)

/-! ## Intervals received in full -/

variable (markers) in
/-- `[a, b]` is the interval of the marker `b`, and every number of it is in `received`. -/
def Complete (received : Finset ℕ) (a b : ℕ) : Prop :=
  b ∈ markers ∧ a = setStart markers b ∧ ∀ j, a ≤ j → j ≤ b → j ∈ received

/-- The count of the numbers of `received` in `[a, e)` is that of the interval exactly when
the interval lies in `received`. -/
theorem card_filter_interval_eq_iff {received : Finset ℕ} {a e : ℕ} :
    (received.filter fun j => a ≤ j ∧ j < e).card = e - a ↔
      ∀ j, a ≤ j → j < e → j ∈ received := by
  have hsub : received.filter (fun j => a ≤ j ∧ j < e) ⊆ Finset.Ico a e := fun j hj => by
    simpa using (Finset.mem_filter.mp hj).2
  rw [← Nat.card_Ico a e]
  constructor
  · intro hcard j haj hje
    have heq := Finset.eq_of_subset_of_card_le hsub hcard.ge
    have hj : j ∈ received.filter fun j => a ≤ j ∧ j < e := heq ▸ Finset.mem_Ico.mpr ⟨haj, hje⟩
    exact (Finset.mem_filter.mp hj).1
  · intro hall
    congr 1
    ext j
    simp only [Finset.mem_filter, Finset.mem_Ico, and_iff_right_iff_imp, and_imp]
    exact hall j

variable {received : Finset ℕ} {i a b : ℕ}

/-- A new number outside the interval of `b` does not complete it. -/
theorem complete_insert_received (hne : firstFrom markers i ≠ some b) :
    Complete markers (insert i received) a b ↔ Complete markers received a b := by
  refine and_congr_right fun hb => and_congr_right fun ha => ?_
  constructor
  · intro hall j haj hjb
    rcases Finset.mem_insert.mp (hall j haj hjb) with rfl | hj
    · exact absurd (firstFrom_eq_some_iff.mpr ⟨hb, ha ▸ haj, hjb⟩) hne
    · exact hj
  · exact fun hall j haj hjb => Finset.mem_insert_of_mem (hall j haj hjb)

/-- An interval that misses a number of it is not complete. -/
theorem not_complete_of_firstFrom_eq (hfirst : firstFrom markers i = some b)
    (hi : i ∉ received) : ¬ Complete markers received a b := by
  rintro ⟨-, rfl, hall⟩
  obtain ⟨-, hstart, hib⟩ := firstFrom_eq_some_iff.mp hfirst
  exact hi (hall i hstart hib)

/-- A new marker outside the interval of `b` leaves its completion as it was. -/
theorem complete_insert_marker (hbi : b ≠ i) (hne : firstFrom markers i ≠ some b) :
    Complete (insert i markers) received a b ↔ Complete markers received a b := by
  unfold Complete
  rw [Finset.mem_insert, or_iff_right hbi]
  refine and_congr_right fun hb => ?_
  rw [setStart_insert_of_firstFrom_ne hb hne]

/-- The interval of a new marker is the part of the interval it splits up to it. -/
theorem complete_insert_self :
    Complete (insert i markers) received a i ↔
      a = setStart markers i ∧ ∀ j, a ≤ j → j ≤ i → j ∈ received := by
  unfold Complete
  rw [setStart_insert_self]
  exact and_iff_right (Finset.mem_insert_self i markers)

/-- The interval split by a new marker starts after it. -/
theorem complete_insert_of_firstFrom_eq (hfirst : firstFrom markers i = some b)
    (hi : i ∉ markers) :
    Complete (insert i markers) received a b ↔
      a = i + 1 ∧ ∀ j, a ≤ j → j ≤ b → j ∈ received := by
  unfold Complete
  rw [setStart_insert_of_firstFrom_eq hfirst hi]
  exact and_iff_right (Finset.mem_insert_of_mem (firstFrom_eq_some.mp hfirst).1)

/-- The interval of the first marker at or above `i` starts where the markers below `i` end. -/
theorem complete_of_firstFrom_eq (hfirst : firstFrom markers i = some b) :
    Complete markers received a b ↔
      a = setStart markers i ∧ ∀ j, a ≤ j → j ≤ b → j ∈ received := by
  unfold Complete
  rw [setStart_of_firstFrom_eq hfirst]
  exact and_iff_right (firstFrom_eq_some.mp hfirst).1

end Markers
