import Mathlib

/-! Merging sorted groups into one entry per key, the last entry of the last group holding it
(`merge`), and the merge loops that compute it (`merge_dropRuns`). -/

namespace LastWins

variable {α κ : Type} [LinearOrder κ] (key : α → κ)

/-- The last entry of a group with key `k`. -/
def lastWith (k : κ) (g : List α) : Option α := (g.filter fun a => key a = k).getLast?

/-- The last entry with key `k` of the last group that has one. -/
def winner (k : κ) : List (List α) → Option α
  | [] => none
  | g :: groups => (winner k groups).or (lastWith key k g)

/-- The keys of the groups, each once, in increasing order. -/
def keys (groups : List (List α)) : List κ :=
  (groups.flatMap fun g => g.map key).dedup.insertionSort (· ≤ ·)

/-- The winner of every key, in increasing order of the keys. -/
def merge (groups : List (List α)) : List α :=
  (keys key groups).filterMap fun k => winner key k groups

/-- The key at the front of a group. -/
def headKey (g : List α) : Option κ := g.head?.map key

/-- A group without the run of entries at its front that share its first key. -/
def dropRun : List α → List α
  | [] => []
  | a :: rest => rest.dropWhile fun b => key b = key a

/-- The last entry of the run at the front of a group. -/
def lastOfRun : List α → Option α
  | [] => none
  | a :: rest => (a :: rest.takeWhile fun b => key b = key a).getLast?

/-- The groups with the run at the front of each group that `drop` selects dropped. -/
def dropRuns (drop : ℕ → Bool) (groups : List (List α)) : List (List α) :=
  groups.mapIdx fun i g => if drop i then dropRun key g else g

/-- One step of the merge at the smallest key `m`: every group that starts with `m` loses its
run, and any other group that loses its run starts with a key that a later group starts with
too. -/
def StepOk (m : κ) (drop : ℕ → Bool) (groups : List (List α)) : Prop :=
  ∀ i (hi : i < groups.length),
    (drop i = true → headKey key groups[i] = some m ∨
      ∃ j, ∃ hj : j < groups.length, i < j ∧ headKey key groups[j] = headKey key groups[i]) ∧
    (headKey key groups[i] = some m → drop i = true)

/-- A group sorted by key. -/
def Sorted (g : List α) : Prop := g.Pairwise fun a b => key a ≤ key b

instance (g : List α) : Decidable (Sorted key g) :=
  inferInstanceAs (Decidable (g.Pairwise _))

/-! ## Winners and keys -/

section Winners

variable {key}

@[simp] theorem winner_nil (k : κ) : winner key k [] = none := rfl

@[simp] theorem winner_cons (k : κ) (g : List α) (groups : List (List α)) :
    winner key k (g :: groups) = (winner key k groups).or (lastWith key k g) := rfl

theorem isSome_lastWith {k : κ} {g : List α} :
    (lastWith key k g).isSome ↔ ∃ a ∈ g, key a = k := by
  simp [lastWith]

theorem isSome_winner {k : κ} {groups : List (List α)} :
    (winner key k groups).isSome ↔ ∃ g ∈ groups, ∃ a ∈ g, key a = k := by
  induction groups with
  | nil => simp
  | cons g groups ih =>
    simp only [winner_cons, Option.isSome_or, Bool.or_eq_true, ih, isSome_lastWith,
      List.mem_cons, exists_eq_or_imp]
    exact or_comm

theorem winner_append (k : κ) (groups₁ groups₂ : List (List α)) :
    winner key k (groups₁ ++ groups₂) = (winner key k groups₂).or (winner key k groups₁) := by
  induction groups₁ with
  | nil => simp
  | cons g groups₁ ih => rw [List.cons_append, winner_cons, winner_cons, ih, Option.or_assoc]

theorem mem_keys {k : κ} {groups : List (List α)} :
    k ∈ keys key groups ↔ ∃ g ∈ groups, ∃ a ∈ g, key a = k := by
  simp [keys, List.mem_insertionSort]

theorem pairwise_keys (groups : List (List α)) : (keys key groups).Pairwise (· < ·) := by
  have hnodup : (keys key groups).Nodup :=
    (List.perm_insertionSort _ _).nodup_iff.mpr (List.nodup_dedup _)
  exact ((List.pairwise_insertionSort _ _).and hnodup).imp fun h => lt_of_le_of_ne h.1 h.2

/-- The keys are the only strictly increasing list of the keys the groups hold. -/
theorem keys_eq_of_mem_iff {groups : List (List α)} {l : List κ} (hl : l.Pairwise (· < ·))
    (hmem : ∀ k, k ∈ l ↔ ∃ g ∈ groups, ∃ a ∈ g, key a = k) : keys key groups = l :=
  List.Subset.antisymm_of_pairwise (pairwise_keys groups) hl
    (fun k hk => (hmem k).mpr (mem_keys.mp hk)) (fun k hk => mem_keys.mpr ((hmem k).mp hk))

theorem merge_eq_nil {groups : List (List α)} (hempty : ∀ g ∈ groups, g = []) :
    merge key groups = [] := by
  have hkeys : keys key groups = [] := by
    refine keys_eq_of_mem_iff List.Pairwise.nil fun k => ⟨by simp, ?_⟩
    rintro ⟨g, hg, a, ha, -⟩
    simp [hempty g hg] at ha
  rw [merge, hkeys, List.filterMap_nil]

end Winners

/-! ## Runs -/

section Runs

variable {key}

theorem dropRun_sublist (g : List α) : (dropRun key g).Sublist g := by
  cases g with
  | nil => exact List.Sublist.refl _
  | cons a rest => exact (List.dropWhile_sublist _).cons a

theorem length_dropRun_lt {g : List α} (hg : g ≠ []) : (dropRun key g).length < g.length := by
  cases g with
  | nil => contradiction
  | cons a rest => exact Nat.lt_succ_of_le (List.dropWhile_sublist _).length_le

/-- Dropping a run of another key leaves the entries with key `k` as they were. -/
theorem lastWith_dropRun {k : κ} {g : List α} (hhead : headKey key g ≠ some k) :
    lastWith key k (dropRun key g) = lastWith key k g := by
  cases g with
  | nil => rfl
  | cons a rest =>
    have hne : key a ≠ k := fun h => hhead (by simp [headKey, h])
    have hrun : (rest.takeWhile fun b => key b = key a).filter (fun b => key b = k) = [] :=
      List.filter_eq_nil_iff.mpr fun b hb => by
        have := List.mem_takeWhile_imp hb
        simp_all
    conv_rhs => rw [lastWith, List.filter_cons_of_neg (by simpa using hne),
      ← List.takeWhile_append_dropWhile (p := fun b => decide (key b = key a)) (l := rest),
      List.filter_append, hrun, List.nil_append]
    rfl

variable {m : κ} {g : List α}

/-- Past the run at its front, a sorted group holds only keys above the smallest. -/
theorem lt_of_mem_dropRun (hsorted : Sorted key g) (hmin : ∀ a ∈ g, m ≤ key a)
    (hhead : headKey key g = some m) {b : α} (hb : b ∈ dropRun key g) : m < key b := by
  cases g with
  | nil => simp [dropRun] at hb
  | cons a rest =>
    have hkey : key a = m := by simpa [headKey] using hhead
    obtain ⟨c, more, hdrop⟩ : ∃ c more, rest.dropWhile (fun b => key b = key a) = c :: more := by
      cases h : rest.dropWhile (fun b => key b = key a) with
      | nil => simp [dropRun, h] at hb
      | cons c more => exact ⟨c, more, rfl⟩
    have hc : key c ≠ m := by
      have := List.head_dropWhile_not (fun b => decide (key b = key a))
        (by simp [hdrop] : rest.dropWhile (fun b => decide (key b = key a)) ≠ [])
      simp only [hdrop, List.head_cons, decide_eq_false_iff_not] at this
      rwa [hkey] at this
    have hcmem : c ∈ a :: rest :=
      List.mem_cons_of_mem _ ((List.dropWhile_sublist _).subset (hdrop ▸ List.mem_cons_self))
    have hlt : m < key c := lt_of_le_of_ne (hmin c hcmem) (Ne.symm hc)
    have hsortedDrop : Sorted key (c :: more) :=
      hdrop ▸ List.Pairwise.sublist ((List.dropWhile_sublist _).cons a) hsorted
    rw [dropRun, hdrop] at hb
    rcases List.mem_cons.mp hb with rfl | hmore
    · exact hlt
    · exact lt_of_lt_of_le hlt (List.rel_of_pairwise_cons hsortedDrop hmore)

/-- A sorted group that does not start with the smallest key does not hold it. -/
theorem lt_of_headKey_ne (hsorted : Sorted key g) (hmin : ∀ a ∈ g, m ≤ key a)
    (hhead : headKey key g ≠ some m) {b : α} (hb : b ∈ g) : m < key b := by
  cases g with
  | nil => simp at hb
  | cons a rest =>
    have hne : key a ≠ m := fun h => hhead (by simp [headKey, h])
    have hlt : m < key a := lt_of_le_of_ne (hmin a List.mem_cons_self) (Ne.symm hne)
    rcases List.mem_cons.mp hb with rfl | hrest
    · exact hlt
    · exact lt_of_lt_of_le hlt (List.rel_of_pairwise_cons hsorted hrest)

/-- In a sorted group that starts with the smallest key, the last entry with that key ends
the run at the front. -/
theorem lastWith_eq_lastOfRun (hsorted : Sorted key g) (hmin : ∀ a ∈ g, m ≤ key a)
    (hhead : headKey key g = some m) : lastWith key m g = lastOfRun key g := by
  cases g with
  | nil => simp [headKey] at hhead
  | cons a rest =>
    have hkey : key a = m := by simpa [headKey] using hhead
    have hrun : (rest.takeWhile fun b => key b = key a).filter (fun b => key b = m) =
        rest.takeWhile fun b => key b = key a :=
      List.filter_eq_self.mpr fun b hb => by
        have := List.mem_takeWhile_imp hb
        simp_all
    have hpast : (rest.dropWhile fun b => key b = key a).filter (fun b => key b = m) = [] :=
      List.filter_eq_nil_iff.mpr fun b hb => by
        have := lt_of_mem_dropRun hsorted hmin hhead (b := b) hb
        simp [this.ne']
    rw [lastWith, List.filter_cons_of_pos (by simpa using hkey)]
    conv_lhs => rw [← List.takeWhile_append_dropWhile (p := fun b => decide (key b = key a))
      (l := rest), List.filter_append, hrun, hpast, List.append_nil]
    rfl

/-- In a sorted group every entry is at least the first. -/
theorem headKey_le (hsorted : Sorted key g) {k : κ} (hhead : headKey key g = some k) {b : α}
    (hb : b ∈ g) : k ≤ key b := by
  cases g with
  | nil => simp at hb
  | cons a rest =>
    have hkey : key a = k := by simpa [headKey] using hhead
    rcases List.mem_cons.mp hb with rfl | hrest
    · exact hkey.ge
    · exact hkey ▸ List.rel_of_pairwise_cons hsorted hrest

omit [LinearOrder κ] in
theorem exists_of_headKey {k : κ} (hhead : headKey key g = some k) : ∃ a ∈ g, key a = k := by
  cases g with
  | nil => simp [headKey] at hhead
  | cons a rest => exact ⟨a, List.mem_cons_self, by simpa [headKey] using hhead⟩

end Runs

/-! ## A step of the merge -/

section Step

variable {key} {m : κ} {drop : ℕ → Bool} {groups : List (List α)}

theorem dropRuns_cons (g : List α) :
    dropRuns key drop (g :: groups) =
      (if drop 0 then dropRun key g else g) :: dropRuns key (fun i => drop (i + 1)) groups := by
  simp [dropRuns, List.mapIdx_cons]

theorem StepOk.head {g : List α} (hstep : StepOk key m drop (g :: groups)) :
    (drop 0 = true → headKey key g = some m ∨ ∃ later ∈ groups, headKey key later = headKey key g) ∧
      (headKey key g = some m → drop 0 = true) := by
  obtain ⟨hdrop, hhead⟩ := hstep 0 (by simp)
  refine ⟨fun hd => (hdrop hd).imp id fun ⟨j, hj, hpos, heq⟩ => ?_, hhead⟩
  cases j with
  | zero => omega
  | succ j =>
    have hj' : j < groups.length := by simpa using hj
    exact ⟨groups[j], List.getElem_mem _, heq⟩

theorem StepOk.tail {g : List α} (hstep : StepOk key m drop (g :: groups)) :
    StepOk key m (fun i => drop (i + 1)) groups := fun i hi => by
  obtain ⟨hdrop, hhead⟩ := hstep (i + 1) (by simp [hi])
  refine ⟨fun hd => (hdrop hd).imp id fun ⟨j, hj, hlt, heq⟩ => ?_, hhead⟩
  cases j with
  | zero => omega
  | succ j => exact ⟨j, by simpa using hj, by omega, heq⟩

/-- A step leaves the winner of every key but the smallest as it was: a run it drops either
holds another key, or starts a group before a later one that starts with the same key. -/
theorem winner_dropRuns (hstep : StepOk key m drop groups) {k : κ} (hk : k ≠ m) :
    winner key k (dropRuns key drop groups) = winner key k groups := by
  induction groups generalizing drop with
  | nil => rfl
  | cons g groups ih =>
    obtain ⟨hdrop, -⟩ := hstep.head
    rw [dropRuns_cons, winner_cons, winner_cons, ih hstep.tail]
    by_cases hhead : headKey key g = some k
    · cases hd : drop 0
      · rfl
      · obtain ⟨later, hlater, hkey⟩ : ∃ later ∈ groups, headKey key later = some k := by
          rcases hdrop hd with hm | ⟨later, hlater, heq⟩
          · exact absurd (Option.some_injective _ (hm.symm.trans hhead)) (Ne.symm hk)
          · exact ⟨later, hlater, heq.trans hhead⟩
        obtain ⟨a, ha, hka⟩ := exists_of_headKey hkey
        have hsome : (winner key k groups).isSome := isSome_winner.mpr ⟨later, hlater, a, ha, hka⟩
        rw [if_pos rfl, Option.or_of_isSome hsome, Option.or_of_isSome hsome]
    · split
      · rw [lastWith_dropRun hhead]
      · rfl

theorem length_ite_dropRun_le (d : Bool) (g : List α) :
    (if d then dropRun key g else g).length ≤ g.length := by
  split
  · exact (dropRun_sublist g).length_le
  · exact le_rfl

theorem sum_length_dropRuns_le :
    ((dropRuns key drop groups).map List.length).sum ≤ (groups.map List.length).sum := by
  induction groups generalizing drop with
  | nil => simp [dropRuns]
  | cons g groups ih =>
    rw [dropRuns_cons, List.map_cons, List.sum_cons, List.map_cons, List.sum_cons]
    exact Nat.add_le_add (length_ite_dropRun_le _ g) ih

/-- A step that drops the run of a group with entries leaves fewer entries. -/
theorem sum_length_dropRuns_lt {i : ℕ} (hi : i < groups.length) (hdrop : drop i = true)
    (hne : groups[i] ≠ []) :
    ((dropRuns key drop groups).map List.length).sum < (groups.map List.length).sum := by
  induction groups generalizing drop i with
  | nil => simp at hi
  | cons g groups ih =>
    rw [dropRuns_cons, List.map_cons, List.sum_cons, List.map_cons, List.sum_cons]
    cases i with
    | zero =>
      rw [if_pos hdrop]
      exact Nat.add_lt_add_of_lt_of_le (length_dropRun_lt hne) sum_length_dropRuns_le
    | succ i =>
      exact Nat.add_lt_add_of_le_of_lt (length_ite_dropRun_le _ g)
        (ih (by simpa using hi) hdrop hne)

variable (hsorted : ∀ g ∈ groups, Sorted key g) (hmin : ∀ g ∈ groups, ∀ a ∈ g, m ≤ key a)
include hsorted hmin

/-- After a step at the smallest key every entry left is above it. -/
theorem lt_of_mem_dropRuns (hstep : StepOk key m drop groups) {g' : List α}
    (hg' : g' ∈ dropRuns key drop groups) {b : α} (hb : b ∈ g') : m < key b := by
  obtain ⟨i, hi, rfl⟩ := List.mem_mapIdx.mp hg'
  have hgi : groups[i] ∈ groups := List.getElem_mem hi
  by_cases hhead : headKey key groups[i] = some m
  · rw [if_pos ((hstep i hi).2 hhead)] at hb
    exact lt_of_mem_dropRun (hsorted _ hgi) (hmin _ hgi) hhead hb
  · have hb' : b ∈ groups[i] := by
      split at hb
      · exact (dropRun_sublist _).subset hb
      · exact hb
    exact lt_of_headKey_ne (hsorted _ hgi) (hmin _ hgi) hhead hb'

/-- A step at the smallest key takes exactly that key off the keys. -/
theorem keys_dropRuns (hstep : StepOk key m drop groups)
    (hm : ∃ g ∈ groups, headKey key g = some m) :
    keys key groups = m :: keys key (dropRuns key drop groups) := by
  refine keys_eq_of_mem_iff (List.Pairwise.cons (fun k hk => ?_) (pairwise_keys _)) fun k => ?_
  · obtain ⟨g', hg', b, hb, rfl⟩ := mem_keys.mp hk
    exact lt_of_mem_dropRuns hsorted hmin hstep hg' hb
  · rw [List.mem_cons, mem_keys]
    by_cases hkm : k = m
    · subst hkm
      obtain ⟨g, hg, hhead⟩ := hm
      obtain ⟨a, ha, hka⟩ := exists_of_headKey hhead
      exact iff_of_true (.inl rfl) ⟨g, hg, a, ha, hka⟩
    · rw [or_iff_right hkm, ← isSome_winner, ← isSome_winner, winner_dropRuns hstep hkm]

/-- One step of the merge: the entry that wins for the smallest key is the last of the run
of the last group that starts with it, and the rest of the merge is that of the groups after
the step. -/
theorem merge_dropRuns (hstep : StepOk key m drop groups) {i : ℕ} (hi : i < groups.length)
    (hhead : headKey key groups[i] = some m)
    (hlast : ∀ j (hj : j < groups.length), i < j → headKey key groups[j] ≠ some m) :
    merge key groups = (lastOfRun key groups[i]).toList ++ merge key (dropRuns key drop groups) := by
  have hgi : groups[i] ∈ groups := List.getElem_mem hi
  have hkeys := keys_dropRuns hsorted hmin hstep ⟨_, hgi, hhead⟩
  have hnone : winner key m (groups.drop (i + 1)) = none := by
    rw [← Option.not_isSome_iff_eq_none, isSome_winner]
    rintro ⟨later, hlater, a, ha, hka⟩
    obtain ⟨k, hk, rfl⟩ := List.mem_iff_getElem.mp hlater
    rw [List.getElem_drop] at ha
    have hmem := List.getElem_mem (l := groups) (by simp at hk; omega : i + 1 + k < groups.length)
    exact (lt_of_headKey_ne (hsorted _ hmem) (hmin _ hmem) (hlast _ _ (by omega)) ha).ne' hka
  have hrun : lastWith key m groups[i] = lastOfRun key groups[i] :=
    lastWith_eq_lastOfRun (hsorted _ hgi) (hmin _ hgi) hhead
  have hsome : (lastWith key m groups[i]).isSome := isSome_lastWith.mpr (exists_of_headKey hhead)
  have hwinner : winner key m groups = lastOfRun key groups[i] := by
    conv_lhs => rw [← List.take_append_drop (i + 1) groups]
    rw [winner_append, hnone, Option.none_or, List.take_add_one, List.getElem?_eq_getElem hi, Option.toList_some, winner_append,
      winner_cons, winner_nil, Option.none_or, Option.or_of_isSome hsome, hrun]
  obtain ⟨w, hw⟩ := Option.isSome_iff_exists.mp (hrun ▸ hsome)
  rw [merge, hkeys, List.filterMap_cons_some (f := fun k => winner key k groups) (hwinner.trans hw), hw, merge, Option.toList_some,
    List.singleton_append]
  congr 1
  refine List.filterMap_congr fun k hk => (winner_dropRuns hstep ?_).symm
  exact (List.rel_of_pairwise_cons (hkeys ▸ pairwise_keys groups) hk).ne'

end Step

end LastWins
