import Solana.Consensus.ForkChoiceAggregate

/-! The batch of `process_update_operations`: operations kept in the key order of the
`BTreeMap`, and what applying them from the largest key down does to the tree. -/

namespace Solana.Consensus

open MachineInt

theorem UpdateLabel.rank_injective : Function.Injective UpdateLabel.rank := by
  intro a b h
  cases a <;> cases b <;> simp_all [UpdateLabel.rank]

namespace UpdateKey

theorem lt_iff {a b : UpdateKey} : a.lt b = true ↔ a.1.lt b.1 = true ∨ a.1 = b.1 ∧
    (a.2.rank.1 < b.2.rank.1 ∨ a.2.rank.1 = b.2.rank.1 ∧ a.2.rank.2 < b.2.rank.2) := by
  simp [UpdateKey.lt]

theorem lt_irrefl (a : UpdateKey) : a.lt a = false := by
  rw [Bool.eq_false_iff, Ne, lt_iff, SlotHashKey.lt_irrefl]
  simp

theorem lt_trans {a b c : UpdateKey} (hab : a.lt b = true) (hbc : b.lt c = true) :
    a.lt c = true := by
  rw [lt_iff] at hab hbc ⊢
  rcases hab with hab | ⟨hab, hrab⟩ <;> rcases hbc with hbc | ⟨hbc, hrbc⟩
  · exact .inl (SlotHashKey.lt_trans hab hbc)
  · exact .inl (hbc ▸ hab)
  · exact .inl (hab ▸ hbc)
  · exact .inr ⟨hab.trans hbc, by omega⟩

theorem lt_asymm {a b : UpdateKey} (hab : a.lt b = true) : b.lt a = false := by
  rw [Bool.eq_false_iff]
  intro hba
  have haa := lt_trans hab hba
  rw [lt_irrefl] at haa
  cases haa

theorem lt_or_gt_of_ne {a b : UpdateKey} (hne : a ≠ b) : a.lt b = true ∨ b.lt a = true := by
  rw [lt_iff, lt_iff]
  by_cases hkey : a.1 = b.1
  · -- one block: the labels differ, and so do their ranks
    have hlabel : a.2 ≠ b.2 := fun h => hne (Prod.ext hkey h)
    have hrank : a.2.rank ≠ b.2.rank := fun h => hlabel (UpdateLabel.rank_injective h)
    have : a.2.rank.1 ≠ b.2.rank.1 ∨ a.2.rank.2 ≠ b.2.rank.2 := by
      by_contra h
      push Not at h
      exact hrank (Prod.ext h.1 h.2)
    have hord : (a.2.rank.1 < b.2.rank.1 ∨ a.2.rank.1 = b.2.rank.1 ∧ a.2.rank.2 < b.2.rank.2) ∨
        (b.2.rank.1 < a.2.rank.1 ∨ b.2.rank.1 = a.2.rank.1 ∧ b.2.rank.2 < a.2.rank.2) := by
      omega
    rcases hord with h | h
    · exact .inl (.inr ⟨hkey, h⟩)
    · exact .inr (.inr ⟨hkey.symm, h⟩)
  · rcases SlotHashKey.lt_or_gt_of_ne hkey with h | h
    · exact .inl (.inl h)
    · exact .inr (.inl h)

/-- The aggregate of a block has the least key of the block's entries. -/
theorem lt_aggregate (key : SlotHashKey) (label : UpdateLabel) :
    UpdateKey.lt (key, label) (key, .aggregate) = false := by
  rw [Bool.eq_false_iff, Ne, lt_iff]
  simp [SlotHashKey.lt_irrefl, UpdateLabel.rank]

/-- A key's block is no later than the block of a larger key. -/
theorem slot_le_of_lt {a b : UpdateKey} (h : a.lt b = true) : a.1.1 ≤ b.1.1 := by
  rcases lt_iff.mp h with h | ⟨h, -⟩
  · have := SlotHashKey.lt_iff.mp h
    omega
  · rw [h]

end UpdateKey

namespace UpdateOperation

/-- The label an operation is filed under. -/
def label : UpdateOperation → UpdateLabel
  | .add _ => .add
  | .markValid slot => .markValid slot
  | .markInvalid slot => .markInvalid slot
  | .subtract _ => .subtract
  | .aggregate => .aggregate

/-- The stake an operation moves. -/
def stake : UpdateOperation → ℕ
  | .add stake => stake
  | .subtract stake => stake
  | _ => 0

/-- Whether an operation moves stake; the others change validity or aggregate. -/
def isStake : UpdateOperation → Bool
  | .add _ => true
  | .subtract _ => true
  | _ => false

theorem label_of_updateStake {op op' : UpdateOperation} {stake : ℕ}
    (h : op.updateStake stake = some op') :
    op'.label = op.label ∧ op'.stake = wrappingAdd 64 op.stake stake := by
  cases op <;> simp [updateStake] at h <;> subst h <;> simp [label, UpdateOperation.stake]

/-- An operation that moves no stake is the only one under its label. -/
theorem eq_of_label_eq {a b : UpdateOperation} (h : a.label = b.label) (ha : a.isStake = false) :
    a = b := by
  cases a <;> cases b <;> simp_all [label, isStake]

theorem stake_eq_zero {op : UpdateOperation} (h : op.isStake = false) : op.stake = 0 := by
  cases op <;> simp_all [isStake, UpdateOperation.stake]

end UpdateOperation

/-- The entry that aggregates a block. -/
def aggregateEntry (key : SlotHashKey) : UpdateKey × UpdateOperation :=
  ((key, .aggregate), .aggregate)

namespace UpdateOperations

/-- The stake the batch holds under a key; 0 without an entry. -/
def stakeAt (ops : List (UpdateKey × UpdateOperation)) (key : UpdateKey) : ℕ :=
  ((ops.find? fun entry => entry.1.1 = key.1 ∧ entry.1.2 = key.2).map (·.2.stake)).getD 0

/-- The batches `process_update_operations` receives: keys in increasing order, each
operation under its own label. -/
structure WellFormed (ops : List (UpdateKey × UpdateOperation)) : Prop where
  sorted : ops.Pairwise fun a b => a.1.lt b.1 = true
  label : ∀ e ∈ ops, e.1.2 = e.2.label

variable {ops : List (UpdateKey × UpdateOperation)} {key : UpdateKey} {op : UpdateOperation}

theorem key_eq_iff {k k' : UpdateKey} : (k.1 = k'.1 ∧ k.2 = k'.2) ↔ k = k' :=
  Prod.ext_iff.symm

theorem containsKey_iff : containsKey ops key = true ↔ ∃ e ∈ ops, e.1 = key := by
  simp [containsKey, key_eq_iff]

/-- Two entries of a sorted batch under one key are one entry. -/
theorem eq_of_key_eq (hsorted : ops.Pairwise fun a b => a.1.lt b.1 = true)
    {e e' : UpdateKey × UpdateOperation} (he : e ∈ ops) (he' : e' ∈ ops) (hkey : e.1 = e'.1) :
    e = e' := by
  induction ops with
  | nil => simp at he
  | cons a ops ih =>
    obtain ⟨ha, hsorted⟩ := List.pairwise_cons.mp hsorted
    rcases List.mem_cons.mp he with rfl | hmem <;> rcases List.mem_cons.mp he' with rfl | hmem'
    · rfl
    · have hlt := ha e' hmem'
      rw [hkey, UpdateKey.lt_irrefl] at hlt
      cases hlt
    · have hlt := ha e hmem
      rw [← hkey, UpdateKey.lt_irrefl] at hlt
      cases hlt
    · exact ih hsorted hmem hmem'

theorem stakeAt_cons (e : UpdateKey × UpdateOperation) (ops : List (UpdateKey × UpdateOperation))
    (key : UpdateKey) : stakeAt (e :: ops) key = if e.1 = key then e.2.stake else stakeAt ops key := by
  by_cases h : e.1 = key
  · simp [stakeAt, key_eq_iff, h]
  · simp [stakeAt, key_eq_iff, h]

theorem stakeAt_of_mem (hwf : WellFormed ops) {e : UpdateKey × UpdateOperation} (he : e ∈ ops)
    (hkey : e.1 = key) : stakeAt ops key = e.2.stake := by
  have hfind : (ops.find? fun entry => entry.1.1 = key.1 ∧ entry.1.2 = key.2).isSome := by
    rw [List.find?_isSome]
    exact ⟨e, he, by simp [hkey]⟩
  obtain ⟨e', he'⟩ := Option.isSome_iff_exists.mp hfind
  have hkey' : e'.1 = key := by simpa [key_eq_iff] using List.find?_some he'
  unfold stakeAt
  rw [he', eq_of_key_eq hwf.sorted (List.mem_of_find?_eq_some he') he
    (hkey'.trans hkey.symm)]
  rfl

theorem stakeAt_of_forall_ne (h : ∀ e ∈ ops, e.1 ≠ key) : stakeAt ops key = 0 := by
  have hfind : (ops.find? fun entry => entry.1.1 = key.1 ∧ entry.1.2 = key.2) = none := by
    rw [List.find?_eq_none]
    intro e he
    simpa [key_eq_iff] using h e he
  unfold stakeAt
  rw [hfind]
  rfl

/-- A batch that only marks and aggregates moves no stake. -/
theorem stakeAt_of_not_isStake (h : ∀ e ∈ ops, e.2.isStake = false) : stakeAt ops key = 0 := by
  unfold stakeAt
  cases hfind : ops.find? (fun entry => entry.1.1 = key.1 ∧ entry.1.2 = key.2) with
  | none => rfl
  | some e => exact UpdateOperation.stake_eq_zero (h e (List.mem_of_find?_eq_some hfind))

/-- In a well-formed batch, an entry under the label of a stake operation moves stake. -/
theorem isStake_of_label_eq (hwf : WellFormed ops) {e : UpdateKey × UpdateOperation} (he : e ∈ ops)
    (hlabel : e.1.2 = op.label) (hstake : op.isStake = true) : e.2.isStake = true := by
  by_contra hs
  rw [Bool.not_eq_true] at hs
  have hop := UpdateOperation.eq_of_label_eq ((hwf.label e he).symm.trans hlabel) hs
  rw [hop, hstake] at hs
  cases hs

/-- The stake under a key depends only on the entries under it. -/
theorem stakeAt_congr {ops' : List (UpdateKey × UpdateOperation)} (hwf : WellFormed ops)
    (hwf' : WellFormed ops') (hmem : ∀ e, e.1 = key → (e ∈ ops ↔ e ∈ ops')) :
    stakeAt ops key = stakeAt ops' key := by
  by_cases h : ∃ e ∈ ops, e.1 = key
  · obtain ⟨e, he, hkey⟩ := h
    rw [stakeAt_of_mem hwf he hkey, stakeAt_of_mem hwf' ((hmem e hkey).mp he) hkey]
  · push Not at h
    have h' : ∀ e ∈ ops', e.1 ≠ key := fun e he hkey => h e ((hmem e hkey).mpr he) hkey
    rw [stakeAt_of_forall_ne h, stakeAt_of_forall_ne h']

theorem mem_insertNew {e : UpdateKey × UpdateOperation} :
    e ∈ insertNew ops key op ↔ e ∈ ops ∨ e = (key, op) := by
  simp only [insertNew, List.mem_append, List.mem_filter, List.mem_singleton]
  constructor
  · rintro ((⟨he, -⟩ | he) | ⟨he, -⟩)
    · exact .inl he
    · exact .inr he
    · exact .inl he
  · rintro (he | he)
    · by_cases hlt : e.1.lt key = true
      · exact .inl (.inl ⟨he, hlt⟩)
      · exact .inr ⟨he, by simpa using hlt⟩
    · exact .inl (.inr he)

theorem forall_ne_of_not_containsKey (h : ¬containsKey ops key = true) :
    ∀ e ∈ ops, e.1 ≠ key :=
  fun e he hkey => h (containsKey_iff.mpr ⟨e, he, hkey⟩)

/-- `insert` of a key that is there: the entry under it is replaced in place. -/
theorem insert_of_containsKey (h : containsKey ops key = true) :
    insert ops key op =
      ops.map fun entry => if entry.1.1 = key.1 ∧ entry.1.2 = key.2 then (key, op) else entry := by
  unfold insert
  exact if_pos h

theorem insert_of_not_containsKey (h : ¬containsKey ops key = true) :
    insert ops key op = insertNew ops key op := by
  unfold insert
  exact if_neg h

theorem mem_insert {e : UpdateKey × UpdateOperation} :
    e ∈ insert ops key op ↔ e ∈ ops ∧ e.1 ≠ key ∨ e = (key, op) := by
  by_cases hcontains : containsKey ops key = true
  · obtain ⟨a, ha, hakey⟩ := containsKey_iff.mp hcontains
    rw [insert_of_containsKey hcontains]
    simp only [List.mem_map, key_eq_iff]
    constructor
    · rintro ⟨b, hb, rfl⟩
      split_ifs with hbkey
      · exact .inr rfl
      · exact .inl ⟨hb, hbkey⟩
    · rintro (⟨he, hkey⟩ | rfl)
      · exact ⟨e, he, by simp [hkey]⟩
      · exact ⟨a, ha, by simp [hakey]⟩
  · rw [insert_of_not_containsKey hcontains, mem_insertNew]
    have hnot := forall_ne_of_not_containsKey hcontains
    constructor
    · rintro (he | he)
      · exact .inl ⟨he, hnot e he⟩
      · exact .inr he
    · rintro (⟨he, -⟩ | he)
      · exact .inl he
      · exact .inr he

theorem sorted_insert (hsorted : ops.Pairwise fun a b => a.1.lt b.1 = true) :
    (insert ops key op).Pairwise fun a b => a.1.lt b.1 = true := by
  by_cases hcontains : containsKey ops key = true
  · -- in place: every entry keeps its key
    rw [insert_of_containsKey hcontains, List.pairwise_map]
    refine hsorted.imp fun {a b} hab => ?_
    have hkey : ∀ c : UpdateKey × UpdateOperation,
        (if c.1.1 = key.1 ∧ c.1.2 = key.2 then (key, op) else c).1 = c.1 := by
      intro c
      split_ifs with hc
      · exact (key_eq_iff.mp hc).symm
      · rfl
    rw [hkey, hkey]
    exact hab
  · -- a new key goes between the smaller keys and the larger ones
    have hnot := forall_ne_of_not_containsKey hcontains
    rw [insert_of_not_containsKey hcontains]
    simp only [insertNew, List.pairwise_append, List.mem_append, List.mem_filter,
      List.mem_singleton]
    refine ⟨⟨hsorted.filter _, List.pairwise_singleton _ _, ?_⟩, hsorted.filter _, ?_⟩
    · rintro a ⟨-, hlt⟩ b rfl
      exact hlt
    · rintro a (⟨ha, hlt⟩ | rfl) b ⟨hb, hnlt⟩
      · have hgt : b.1.lt key = false := by simpa using hnlt
        rcases UpdateKey.lt_or_gt_of_ne (a := a.1) (b := b.1) (fun hab => by
          rw [eq_of_key_eq hsorted ha hb hab] at hlt
          rw [hlt] at hgt
          cases hgt) with h | h
        · exact h
        · rw [UpdateKey.lt_trans h hlt] at hgt
          cases hgt
      · have hgt : b.1.lt key = false := by simpa using hnlt
        rcases UpdateKey.lt_or_gt_of_ne (hnot b hb).symm with h | h
        · exact h
        · rw [h] at hgt
          cases hgt

theorem WellFormed.insert (hwf : WellFormed ops) (hlabel : key.2 = op.label) :
    WellFormed (insert ops key op) := by
  refine ⟨sorted_insert hwf.sorted, fun e he => ?_⟩
  rcases mem_insert.mp he with ⟨he, -⟩ | rfl
  · exact hwf.label e he
  · exact hlabel

theorem WellFormed.sublist {ops' : List (UpdateKey × UpdateOperation)} (hwf : WellFormed ops)
    (h : ops'.Sublist ops) : WellFormed ops' :=
  ⟨hwf.sorted.sublist h, fun e he => hwf.label e (h.subset he)⟩

/-- `add_stake` on an add or subtract key: one entry under it, with the stake added. -/
theorem addStake_spec {stake : ℕ} {ops' : List (UpdateKey × UpdateOperation)}
    (hwf : WellFormed ops) (hlabel : key.2 = op.label) (hstake : op.stake = stake)
    (h : addStake ops key stake op = some ops') :
    WellFormed ops' ∧ (∀ e ∈ ops', e ∈ ops ∨ e.1 = key) ∧ (∀ e ∈ ops, e.1 ≠ key → e ∈ ops') ∧
      (∀ k, k ≠ key → stakeAt ops' k = stakeAt ops k) ∧
      (stakeAt ops' key : ZMod (2 ^ 64)) = stakeAt ops key + stake := by
  unfold addStake at h
  split at h
  · rename_i entry existing hfind
    obtain ⟨op', hupdate, rfl⟩ := Option.map_eq_some_iff.mp h
    have hentry := List.mem_of_find?_eq_some hfind
    have hkey : entry = key := by simpa [key_eq_iff] using List.find?_some hfind
    obtain ⟨hlabel', hstake'⟩ := UpdateOperation.label_of_updateStake hupdate
    have hwf' : WellFormed (insert ops key op') := hwf.insert (by
      rw [hlabel', ← hwf.label _ hentry]
      exact congrArg Prod.snd hkey.symm)
    refine ⟨hwf', fun e he => ?_, fun e he hne => mem_insert.mpr (.inl ⟨he, hne⟩),
      fun k hk => ?_, ?_⟩
    · rcases mem_insert.mp he with ⟨he, -⟩ | rfl
      · exact .inl he
      · exact .inr rfl
    · exact stakeAt_congr hwf' hwf fun e hek => by
        rw [mem_insert]
        constructor
        · rintro (⟨he, -⟩ | rfl)
          · exact he
          · exact absurd hek.symm hk
        · intro he
          exact .inl ⟨he, fun h => hk (hek.symm.trans h)⟩
    · rw [stakeAt_of_mem hwf' (mem_insert.mpr (.inr rfl)) rfl, stakeAt_of_mem hwf hentry hkey,
        hstake', cast_wrappingAdd]
  · rename_i hfind
    obtain rfl := Option.some.inj h
    have hnot : ∀ e ∈ ops, e.1 ≠ key := by
      intro e he hkey
      rw [List.find?_eq_none] at hfind
      exact hfind e he (by simp [hkey])
    have hcontains : containsKey ops key = false := by
      rw [Bool.eq_false_iff]
      intro hc
      obtain ⟨e, he, hkey⟩ := containsKey_iff.mp hc
      exact hnot e he hkey
    have hins : insertNew ops key op = insert ops key op := by
      simp [insert, hcontains]
    rw [hins]
    have hwf' : WellFormed (insert ops key op) := hwf.insert hlabel
    refine ⟨hwf', fun e he => ?_, fun e he hne => mem_insert.mpr (.inl ⟨he, hne⟩),
      fun k hk => ?_, ?_⟩
    · rcases mem_insert.mp he with ⟨he, -⟩ | rfl
      · exact .inl he
      · exact .inr rfl
    · exact stakeAt_congr hwf' hwf fun e hek => by
        rw [mem_insert]
        constructor
        · rintro (⟨he, -⟩ | rfl)
          · exact he
          · exact absurd hek.symm hk
        · intro he
          exact .inl ⟨he, fun h => hk (hek.symm.trans h)⟩
    · rw [stakeAt_of_mem hwf' (mem_insert.mpr (.inr rfl)) rfl, stakeAt_of_forall_ne hnot, hstake]
      simp

/-- The last entry of a batch, the first `process_update_operations` applies. -/
theorem lt_of_append_singleton {pre : List (UpdateKey × UpdateOperation)}
    {e : UpdateKey × UpdateOperation} (hwf : WellFormed (pre ++ [e])) :
    ∀ e' ∈ pre, e'.1.lt e.1 = true := fun e' he' =>
  (List.pairwise_append.mp hwf.sorted).2.2 e' he' e (List.mem_singleton_self e)

theorem stakeAt_append_singleton {pre : List (UpdateKey × UpdateOperation)}
    {e : UpdateKey × UpdateOperation} (hwf : WellFormed (pre ++ [e])) (key : SlotHashKey)
    (label : UpdateLabel) :
    stakeAt (pre ++ [e]) (key, label) =
      stakeAt pre (key, label) + if e.1.1 = key ∧ e.1.2 = label then e.2.stake else 0 := by
  have hpre : WellFormed pre := hwf.sublist (List.sublist_append_left pre [e])
  by_cases he : e.1.1 = key ∧ e.1.2 = label
  · have hkey : e.1 = (key, label) := Prod.ext he.1 he.2
    -- the block's entry is the last one: the batch before it has nothing under its key
    have hnone : stakeAt pre (key, label) = 0 := stakeAt_of_forall_ne fun e' he' hkey' => by
      have hlt := lt_of_append_singleton hwf e' he'
      rw [hkey', ← hkey, UpdateKey.lt_irrefl] at hlt
      cases hlt
    rw [if_pos he, hnone, zero_add,
      stakeAt_of_mem hwf (List.mem_append_right pre (List.mem_singleton_self e)) hkey]
  · rw [if_neg he, add_zero]
    refine stakeAt_congr hwf hpre fun e' hkey' => ?_
    constructor
    · intro he'
      rcases List.mem_append.mp he' with he' | he'
      · exact he'
      · rw [List.mem_singleton.mp he'] at hkey'
        exact absurd ⟨congrArg Prod.fst hkey', congrArg Prod.snd hkey'⟩ he
    · exact fun he' => List.mem_append_left _ he'

/-- `insert` of an operation that moves no stake, under its own label, keeps every entry:
an entry under the same key is that operation already. -/
theorem insert_of_not_isStake (hwf : WellFormed ops) (hlabel : key.2 = op.label)
    (hop : op.isStake = false) :
    WellFormed (insert ops key op) ∧ (∀ e ∈ ops, e ∈ insert ops key op) ∧
      ∀ e ∈ insert ops key op, e ∈ ops ∨ e = (key, op) := by
  refine ⟨hwf.insert hlabel, fun e he => ?_, fun e he => ?_⟩
  · by_cases hkey : e.1 = key
    · have hop' : op = e.2 := UpdateOperation.eq_of_label_eq
        (by rw [← hlabel, ← hkey, hwf.label e he]) hop
      exact mem_insert.mpr (.inr (Prod.ext hkey hop'.symm))
    · exact mem_insert.mpr (.inl ⟨he, hkey⟩)
  · rcases mem_insert.mp he with ⟨he, -⟩ | rfl
    · exact .inl he
    · exact .inr rfl

/-- Entries without stake added to a batch leave every stake as it was. -/
theorem stakeAt_of_subset {ops' : List (UpdateKey × UpdateOperation)} (hwf : WellFormed ops)
    (hwf' : WellFormed ops') (hsub : ∀ e ∈ ops, e ∈ ops')
    (hnew : ∀ e ∈ ops', e ∉ ops → e.2.isStake = false) (k : UpdateKey) :
    stakeAt ops' k = stakeAt ops k := by
  by_cases h : ∃ e ∈ ops', e.1 = k
  · obtain ⟨e, he, hk⟩ := h
    rw [stakeAt_of_mem hwf' he hk]
    by_cases he' : e ∈ ops
    · rw [stakeAt_of_mem hwf he' hk]
    · rw [UpdateOperation.stake_eq_zero (hnew e he he'), stakeAt_of_forall_ne]
      intro e' he'' hk'
      have heq := eq_of_key_eq hwf'.sorted (hsub e' he'') he (hk'.trans hk.symm)
      exact he' (heq ▸ he'')
  · push Not at h
    rw [stakeAt_of_forall_ne h, stakeAt_of_forall_ne fun e he => h e (hsub e he)]

/-- The aggregate of a block is in a batch exactly when its key is. -/
theorem aggregateEntry_mem_iff (hwf : WellFormed ops) {key : SlotHashKey} :
    aggregateEntry key ∈ ops ↔ containsKey ops (key, .aggregate) = true := by
  rw [containsKey_iff]
  constructor
  · intro h
    exact ⟨_, h, rfl⟩
  · rintro ⟨e, he, hkey⟩
    have hop : UpdateOperation.aggregate = e.2 := UpdateOperation.eq_of_label_eq
      (by rw [← hwf.label e he, hkey]; rfl) rfl
    have heq : e = aggregateEntry key := Prod.ext hkey hop.symm
    exact heq ▸ he

end UpdateOperations

namespace HeaviestSubtreeForkChoice

open UpdateOperations

variable {ops : List (UpdateKey × UpdateOperation)}

/-- `do_insert_aggregate_operation`: the block's aggregate, with the validity change before
it, is added unless the aggregate is there; nothing is lost, and nothing added moves stake. -/
theorem doInsertAggregateOperation_spec (hwf : WellFormed ops) (mfv : Option UpdateOperation)
    (key : SlotHashKey) :
    WellFormed (doInsertAggregateOperation ops mfv key).1 ∧
      (∀ e ∈ ops, e ∈ (doInsertAggregateOperation ops mfv key).1) ∧
      (∀ e ∈ (doInsertAggregateOperation ops mfv key).1,
        e ∈ ops ∨ e.1.1 = key ∧ e.2.isStake = false) ∧
      aggregateEntry key ∈ (doInsertAggregateOperation ops mfv key).1 ∧
      ((doInsertAggregateOperation ops mfv key).2 = false ↔ aggregateEntry key ∈ ops) ∧
      ((doInsertAggregateOperation ops mfv key).2 = false →
        (doInsertAggregateOperation ops mfv key).1 = ops) := by
  unfold doInsertAggregateOperation
  by_cases hcontains : containsKey ops (key, .aggregate) = true
  · rw [if_pos hcontains]
    exact ⟨hwf, fun e he => he, fun e he => .inl he, (aggregateEntry_mem_iff hwf).mpr hcontains,
      by simpa using (aggregateEntry_mem_iff hwf).mpr hcontains, fun _ => rfl⟩
  · rw [if_neg hcontains]
    have hnot : aggregateEntry key ∉ ops := fun h => hcontains ((aggregateEntry_mem_iff hwf).mp h)
    -- after the validity change, if any, the aggregate goes in
    have hstep : ∀ ops₁ : List (UpdateKey × UpdateOperation), WellFormed ops₁ →
        (∀ e ∈ ops, e ∈ ops₁) → (∀ e ∈ ops₁, e ∈ ops ∨ e.1.1 = key ∧ e.2.isStake = false) →
        WellFormed (insert ops₁ (key, .aggregate) .aggregate) ∧
          (∀ e ∈ ops, e ∈ insert ops₁ (key, .aggregate) .aggregate) ∧
          (∀ e ∈ insert ops₁ (key, .aggregate) .aggregate,
            e ∈ ops ∨ e.1.1 = key ∧ e.2.isStake = false) ∧
          aggregateEntry key ∈ insert ops₁ (key, .aggregate) .aggregate := by
      intro ops₁ hwf₁ hsub₁ hnew₁
      obtain ⟨hwf₂, hsub₂, hnew₂⟩ :=
        @insert_of_not_isStake ops₁ (key, .aggregate) .aggregate hwf₁ rfl rfl
      refine ⟨hwf₂, fun e he => hsub₂ e (hsub₁ e he), fun e he => ?_, mem_insert.mpr (.inr rfl)⟩
      rcases hnew₂ e he with he | rfl
      · exact hnew₁ e he
      · exact .inr ⟨rfl, rfl⟩
    -- the validity change: an entry of the block that moves no stake
    have hmark : ∀ op : UpdateOperation, op.isStake = false →
        WellFormed (insert ops (key, op.label) op) ∧ (∀ e ∈ ops, e ∈ insert ops (key, op.label) op) ∧
          ∀ e ∈ insert ops (key, op.label) op, e ∈ ops ∨ e.1.1 = key ∧ e.2.isStake = false := by
      intro op hop
      obtain ⟨hwf₁, hsub₁, hnew₁⟩ := @insert_of_not_isStake ops (key, op.label) op hwf rfl hop
      exact ⟨hwf₁, hsub₁, fun e he => (hnew₁ e he).imp_right fun h => by subst h; exact ⟨rfl, hop⟩⟩
    split
    · rename_i slot
      obtain ⟨hwf₁, hsub₁, hnew₁⟩ := hmark (.markValid slot) rfl
      obtain ⟨hwf₂, hsub₂, hnew₂, hmem₂⟩ := hstep _ hwf₁ hsub₁ hnew₁
      exact ⟨hwf₂, hsub₂, hnew₂, hmem₂, by simpa using hnot, by simp⟩
    · rename_i slot
      obtain ⟨hwf₁, hsub₁, hnew₁⟩ := hmark (.markInvalid slot) rfl
      obtain ⟨hwf₂, hsub₂, hnew₂, hmem₂⟩ := hstep _ hwf₁ hsub₁ hnew₁
      exact ⟨hwf₂, hsub₂, hnew₂, hmem₂, by simpa using hnot, by simp⟩
    · obtain ⟨hwf₂, hsub₂, hnew₂, hmem₂⟩ := hstep ops hwf (fun e he => he) fun e he => .inl he
      exact ⟨hwf₂, hsub₂, hnew₂, hmem₂, by simpa using hnot, by simp⟩

variable (fc : HeaviestSubtreeForkChoice) in
/-- The aggregates `process_update_operations` needs: the parent of every entry's block is
aggregated after it, and so is the block of every entry that moves no stake. -/
structure Covers (ops : List (UpdateKey × UpdateOperation)) : Prop where
  parent : ∀ e ∈ ops, ∀ p, fc.parent e.1.1 = some p → aggregateEntry p ∈ ops
  self : ∀ e ∈ ops, e.2.isStake = false → aggregateEntry e.1.1 ∈ ops

variable {fc : HeaviestSubtreeForkChoice}

/-- `do_insert_aggregate_operations_across_ancestors` from the ancestors of `x`: the
aggregates of the ancestors go in up to one that has its aggregate, whose own ancestors
then have theirs, so the batch covers the entries of `x` too. -/
theorem insertAggregateAcross_spec : ∀ {x : SlotHashKey} {chain : List SlotHashKey}
    {ops : List (UpdateKey × UpdateOperation)}, fc.IsAncestorChain x chain → WellFormed ops →
    (∀ e ∈ ops, e.1.1 ≠ x → ∀ p, fc.parent e.1.1 = some p → aggregateEntry p ∈ ops) →
    (∀ e ∈ ops, e.2.isStake = false → aggregateEntry e.1.1 ∈ ops) →
    WellFormed (insertAggregateAcross none chain ops) ∧
      (∀ e ∈ ops, e ∈ insertAggregateAcross none chain ops) ∧
      (∀ e ∈ insertAggregateAcross none chain ops, e ∈ ops ∨ e.2.isStake = false) ∧
      fc.Covers (insertAggregateAcross none chain ops)
  | x, [], ops, hchain, hwf, hparent, hself => by
    refine ⟨hwf, fun e he => he, fun e he => .inl he, ⟨fun e he p hp => ?_, hself⟩⟩
    by_cases hx : e.1.1 = x
    · rw [hx, show fc.parent x = none from hchain] at hp
      cases hp
    · exact hparent e he hx p hp
  | x, a :: chain, ops, ⟨hxa, hchain⟩, hwf, hparent, hself => by
    obtain ⟨hwf₁, hsub₁, hnew₁, hmem₁, hinserted, hsame⟩ :=
      doInsertAggregateOperation_spec hwf none a
    -- the entries of `x` have their parent's aggregate from here on
    have hcovered : ∀ e ∈ ops, ∀ p, fc.parent e.1.1 = some p →
        aggregateEntry p ∈ (doInsertAggregateOperation ops none a).1 := by
      intro e he p hp
      by_cases hx : e.1.1 = x
      · rw [hx, hxa, Option.some.injEq] at hp
        exact hp ▸ hmem₁
      · exact hsub₁ _ (hparent e he hx p hp)
    simp only [insertAggregateAcross]
    cases hflag : (doInsertAggregateOperation ops none a).2
    · -- the ancestor has its aggregate already: nothing is inserted
      have hops := hsame hflag
      simp only [Bool.false_eq_true, if_false]
      rw [hops] at hcovered ⊢
      exact ⟨hwf, fun e he => he, fun e he => .inl he, ⟨hcovered, hself⟩⟩
    · simp only [if_true]
      obtain ⟨hwf', hsub', hnew', hcov'⟩ := insertAggregateAcross_spec hchain hwf₁
        (fun e he hea p hp => by
          rcases hnew₁ e he with he | ⟨hea', -⟩
          · exact hcovered e he p hp
          · exact absurd hea' hea)
        (fun e he hstake => by
          rcases hnew₁ e he with he | ⟨hea, -⟩
          · exact hsub₁ _ (hself e he hstake)
          · exact hea ▸ hmem₁)
      refine ⟨hwf', fun e he => hsub' e (hsub₁ e he), fun e he => ?_, hcov'⟩
      rcases hnew' e he with he | hstake
      · exact (hnew₁ e he).imp_right fun h => h.2
      · exact .inr hstake

/-- The batch of `mark_fork_{in,}valid_candidate` over the blocks of a subtree: each block
gets its validity change and its aggregate unless it has its aggregate already; no entry
moves stake. -/
theorem foldl_doInsertAggregateOperation_spec (mfv : Option UpdateOperation) :
    ∀ (keys : List SlotHashKey) (ops : List (UpdateKey × UpdateOperation)), WellFormed ops →
      (∀ e ∈ ops, e.2.isStake = false ∧ aggregateEntry e.1.1 ∈ ops) →
      WellFormed (keys.foldl (fun ops key => (doInsertAggregateOperation ops mfv key).1) ops) ∧
      (∀ e ∈ ops, e ∈ keys.foldl (fun ops key => (doInsertAggregateOperation ops mfv key).1) ops) ∧
      (∀ e ∈ keys.foldl (fun ops key => (doInsertAggregateOperation ops mfv key).1) ops,
        (e ∈ ops ∨ e.1.1 ∈ keys) ∧ e.2.isStake = false ∧
        aggregateEntry e.1.1 ∈ keys.foldl (fun ops key => (doInsertAggregateOperation ops mfv key).1) ops) ∧
      ∀ y ∈ keys, aggregateEntry y ∈
        keys.foldl (fun ops key => (doInsertAggregateOperation ops mfv key).1) ops
  | [], ops, hwf, hops => ⟨hwf, fun e he => he, fun e he => ⟨.inl he, hops e he⟩, by simp⟩
  | key :: keys, ops, hwf, hops => by
    obtain ⟨hwf₁, hsub₁, hnew₁, hmem₁, -, -⟩ := doInsertAggregateOperation_spec hwf mfv key
    have hops₁ : ∀ e ∈ (doInsertAggregateOperation ops mfv key).1,
        e.2.isStake = false ∧ aggregateEntry e.1.1 ∈ (doInsertAggregateOperation ops mfv key).1 := by
      intro e he
      rcases hnew₁ e he with he | ⟨hkey, hstake⟩
      · exact ⟨(hops e he).1, hsub₁ _ (hops e he).2⟩
      · exact ⟨hstake, hkey ▸ hmem₁⟩
    obtain ⟨hwf', hsub', hnew', hmem'⟩ :=
      foldl_doInsertAggregateOperation_spec mfv keys _ hwf₁ hops₁
    refine ⟨hwf', fun e he => hsub' e (hsub₁ e he), fun e he => ?_, fun y hy => ?_⟩
    · obtain ⟨hfrom, hstake, hagg⟩ := hnew' e he
      refine ⟨?_, hstake, hagg⟩
      rcases hfrom with he | he
      · rcases hnew₁ e he with he | ⟨hkey, -⟩
        · exact .inl he
        · exact .inr (hkey ▸ List.mem_cons_self)
      · exact .inr (List.mem_cons_of_mem key he)
    · rcases List.mem_cons.mp hy with rfl | hy
      · exact hsub' _ hmem₁
      · exact hmem' y hy

end HeaviestSubtreeForkChoice

end Solana.Consensus
