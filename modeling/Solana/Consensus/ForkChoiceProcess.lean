import Solana.Consensus.ForkChoiceBatch

/-! `process_update_operations` from the largest key down: children before parents, and
each block's aggregate after the other operations on it. -/

namespace Solana.Consensus

open MachineInt UpdateOperations

namespace HeaviestSubtreeForkChoice

/-- The entry of a block, if it has one, is `Aggregated`. -/
def AggregatedAt (fc : HeaviestSubtreeForkChoice) (key : SlotHashKey) : Prop :=
  ∀ info, fc.get key = some info → fc.Aggregated key info

variable {fc fc₁ : HeaviestSubtreeForkChoice}

/-! ## One operation -/

/-- An operation that rewrites the entry of one block by `f`, keeping its links, keeps
the tree. -/
theorem sameTree_of_get_eq_map {key : SlotHashKey} {f : ForkInfo → ForkInfo}
    (hf : ∀ info, (f info).parent = info.parent ∧ (f info).children = info.children)
    (hget : ∀ x, fc₁.get x = if x = key then (fc.get key).map f else fc.get x)
    (hroot : fc₁.root = fc.root) : fc.SameTree fc₁ := by
  refine ⟨hroot, fun x => ?_, fun x => ?_, fun x => ?_⟩
  · rw [hget]
    split_ifs with hx
    · subst hx
      cases fc.get x <;> rfl
    · rfl
  · simp only [parent, hget]
    split_ifs with hx
    · subst hx
      cases fc.get x <;> simp [hf]
    · rfl
  · simp only [children, hget]
    split_ifs with hx
    · subst hx
      cases fc.get x <;> simp [hf]
    · rfl

/-- `get_mut(key)` with a change to the entry, doing nothing outside the map. -/
theorem get_of_modifyInfo_getD (key : SlotHashKey) (f : ForkInfo → ForkInfo) (x : SlotHashKey) :
    ((fc.modifyInfo key f).getD fc).get x = if x = key then (fc.get key).map f else fc.get x := by
  cases h : fc.modifyInfo key f with
  | some fc₁ => exact get_of_modifyInfo h x
  | none =>
    have hnone : fc.get key = none := by
      simpa [modifyInfo, Map.modify, get] using h
    by_cases hx : x = key
    · simp [hx, hnone]
    · simp [hx]

theorem root_of_modifyInfo_getD (key : SlotHashKey) (f : ForkInfo → ForkInfo) :
    ((fc.modifyInfo key f).getD fc).root = fc.root := by
  cases h : fc.modifyInfo key f with
  | some fc₁ => exact root_of_modifyInfo h
  | none => rfl

theorem latestVotes_of_modifyInfo_getD (key : SlotHashKey) (f : ForkInfo → ForkInfo) :
    ((fc.modifyInfo key f).getD fc).latestVotes = fc.latestVotes := by
  cases h : fc.modifyInfo key f with
  | some fc₁ => exact modifyInfo_latestVotes fc h
  | none => rfl

/-- `mark_fork_invalid` rewrites the entry of its block, if there is one, and only its
invalid ancestor. -/
theorem markForkInvalid_get {key : SlotHashKey} {invalidSlot : ℕ}
    (h : fc.markForkInvalid key invalidSlot = some fc₁) :
    fc₁.root = fc.root ∧ fc₁.latestVotes = fc.latestVotes ∧ ∀ x, fc₁.get x =
      if x = key then (fc.get key).map fun info =>
        ((info.updateWithNewlyInvalidAncestor invalidSlot).getD info) else fc.get x := by
  unfold markForkInvalid at h
  split at h
  · rename_i hnone
    obtain rfl := Option.some.inj h
    refine ⟨rfl, rfl, fun x => ?_⟩
    split_ifs with hx
    · rw [hx, hnone]
      rfl
    · rfl
  · rename_i info hinfo
    simp only [Option.bind_eq_bind, Option.bind_eq_some_iff, Option.pure_def,
      Option.some.injEq] at h
    obtain ⟨info', hinfo', rfl⟩ := h
    refine ⟨rfl, rfl, fun x => ?_⟩
    show Map.get (Map.insert fc.forkInfos key info') x = _
    rw [Map.get_insert]
    split_ifs with hx
    · rw [hinfo]
      simp [hinfo']
    · rfl

theorem updateWithNewlyInvalidAncestor_getD (info : ForkInfo) (invalidSlot : ℕ) :
    ((info.updateWithNewlyInvalidAncestor invalidSlot).getD info).parent = info.parent ∧
      ((info.updateWithNewlyInvalidAncestor invalidSlot).getD info).children = info.children ∧
      ((info.updateWithNewlyInvalidAncestor invalidSlot).getD info).stakeVotedAt =
        info.stakeVotedAt := by
  unfold ForkInfo.updateWithNewlyInvalidAncestor
  split_ifs <;> simp

theorem get_addSlotStake (key : SlotHashKey) (stake : ℕ) (x : SlotHashKey) :
    (fc.addSlotStake key stake).get x = if x = key then (fc.get key).map (fun info => { info with
      stakeVotedAt := wrappingAdd 64 info.stakeVotedAt stake
      stakeVotedSubtree := wrappingAdd 64 info.stakeVotedSubtree stake }) else fc.get x :=
  get_of_modifyInfo_getD key _ x

theorem get_subtractSlotStake (key : SlotHashKey) (stake : ℕ) (x : SlotHashKey) :
    (fc.subtractSlotStake key stake).get x = if x = key then (fc.get key).map (fun info => { info with
      stakeVotedAt := wrappingSub 64 info.stakeVotedAt stake
      stakeVotedSubtree := wrappingSub 64 info.stakeVotedSubtree stake }) else fc.get x :=
  get_of_modifyInfo_getD key _ x

theorem get_markForkValid (key : SlotHashKey) (validSlot : ℕ) (x : SlotHashKey) :
    (fc.markForkValid key validSlot).get x = if x = key then (fc.get key).map (fun info =>
      let info := info.updateWithNewlyValidAncestor validSlot
      if key.1 = validSlot then { info with isDuplicateConfirmed := true } else info)
    else fc.get x :=
  get_of_modifyInfo_getD key _ x

theorem markForkValid_entry (key : SlotHashKey) (validSlot : ℕ) (info : ForkInfo) :
    let info' := info.updateWithNewlyValidAncestor validSlot
    let info' := if key.1 = validSlot then { info' with isDuplicateConfirmed := true } else info'
    info'.parent = info.parent ∧ info'.children = info.children ∧
      info'.stakeVotedAt = info.stakeVotedAt := by
  unfold ForkInfo.updateWithNewlyValidAncestor
  split <;> split_ifs <;> simp

theorem latestVotes_of_aggregateSlot {key : SlotHashKey} (h : fc.aggregateSlot key = some fc₁) :
    fc₁.latestVotes = fc.latestVotes := by
  unfold aggregateSlot at h
  split at h
  · exact (Option.some.inj h).symm ▸ rfl
  · simp only [Option.bind_eq_bind, Option.bind_eq_some_iff] at h
    obtain ⟨⟨s, bs, bk, bsl, d⟩, hloop, hmodify⟩ := h
    exact modifyInfo_latestVotes _ hmodify

/-- An operation that rewrites the entry of `key` by `f`, keeping its links: the tree and
every other entry are kept, and so is an `Aggregated` entry of `key`, which reads only
the entries of its children. -/
theorem Tree.of_get_eq_map (ht : fc.Tree) {key : SlotHashKey} {f : ForkInfo → ForkInfo}
    (hget : ∀ x, fc₁.get x = if x = key then (fc.get key).map f else fc.get x)
    (hroot : fc₁.root = fc.root)
    (hf : ∀ info, (f info).parent = info.parent ∧ (f info).children = info.children) :
    fc.SameTree fc₁ ∧ (∀ x, x ≠ key → fc₁.get x = fc.get x) ∧
      (∀ info₁, fc₁.get key = some info₁ → ∃ info, fc.get key = some info ∧ info₁ = f info) ∧
      ∀ info, fc.Aggregated key info → fc₁.Aggregated key info := by
  have hsame := sameTree_of_get_eq_map hf hget hroot
  have hne : ∀ x, x ≠ key → fc₁.get x = fc.get x := fun x hx => by rw [hget, if_neg hx]
  refine ⟨hsame, hne, fun info₁ hinfo₁ => ?_, fun info hagg => ?_⟩
  · rw [hget, if_pos rfl] at hinfo₁
    obtain ⟨info, hinfo, rfl⟩ := Option.map_eq_some_iff.mp hinfo₁
    exact ⟨info, hinfo, rfl⟩
  · refine hagg.frame (hsame.children key) (fun c hc => hne c fun heq => ?_)
      (hsame.descends_iff.mpr hagg.descends)
    subst heq
    exact lt_irrefl _ (ht.slot_lt (ht.parent_of_mem hc))

variable (fc fc₁) in
/-- What one operation on the block `key` does: that block's entry changes, keeping its
links, with its stake moved by `added` and `taken`; no other entry changes. -/
structure OpStep (key : SlotHashKey) (added taken : ℕ) : Prop where
  sameTree : fc.SameTree fc₁
  latestVotes : fc₁.latestVotes = fc.latestVotes
  get_ne : ∀ x, x ≠ key → fc₁.get x = fc.get x
  stake : ∀ info₁, fc₁.get key = some info₁ → ∃ info, fc.get key = some info ∧
    info₁.stakeVotedAt < 2 ^ 64 ∧
    (info₁.stakeVotedAt : ZMod (2 ^ 64)) = info.stakeVotedAt + added - taken

section OpStep

variable (ht : fc.Tree) (key : SlotHashKey)
include ht

/-- `add_slot_stake` keeps the entry `Aggregated`: its own and its subtree's stake move
together. -/
theorem Tree.addSlotStake_step (stake : ℕ) :
    fc.OpStep (fc.addSlotStake key stake) key stake 0 ∧
      ∀ info info₁, fc.get key = some info → (fc.addSlotStake key stake).get key = some info₁ →
        fc.Aggregated key info → (fc.addSlotStake key stake).Aggregated key info₁ := by
  obtain ⟨hsame, hne, hkey, hagg⟩ := ht.of_get_eq_map (get_addSlotStake key stake)
    (root_of_modifyInfo_getD key _) fun _ => ⟨rfl, rfl⟩
  refine ⟨⟨hsame, latestVotes_of_modifyInfo_getD key _, hne, fun info₁ hinfo₁ => ?_⟩,
    fun info info₁ hinfo hinfo₁ h => ?_⟩
  · obtain ⟨info, hinfo, rfl⟩ := hkey info₁ hinfo₁
    exact ⟨info, hinfo, wrap_lt 64 _, by rw [cast_wrappingAdd]; simp⟩
  · obtain ⟨info', hinfo', rfl⟩ := hkey info₁ hinfo₁
    rw [hinfo, Option.some.injEq] at hinfo'
    subst hinfo'
    refine hagg _ ?_
    exact h.addStake rfl rfl rfl rfl

theorem Tree.subtractSlotStake_step (stake : ℕ) :
    fc.OpStep (fc.subtractSlotStake key stake) key 0 stake ∧
      ∀ info info₁, fc.get key = some info → (fc.subtractSlotStake key stake).get key = some info₁ →
        fc.Aggregated key info → (fc.subtractSlotStake key stake).Aggregated key info₁ := by
  obtain ⟨hsame, hne, hkey, hagg⟩ := ht.of_get_eq_map (get_subtractSlotStake key stake)
    (root_of_modifyInfo_getD key _) fun _ => ⟨rfl, rfl⟩
  refine ⟨⟨hsame, latestVotes_of_modifyInfo_getD key _, hne, fun info₁ hinfo₁ => ?_⟩,
    fun info info₁ hinfo hinfo₁ h => ?_⟩
  · obtain ⟨info, hinfo, rfl⟩ := hkey info₁ hinfo₁
    exact ⟨info, hinfo, wrap_lt 64 _, by rw [cast_wrappingSub]; simp⟩
  · obtain ⟨info', hinfo', rfl⟩ := hkey info₁ hinfo₁
    rw [hinfo, Option.some.injEq] at hinfo'
    subst hinfo'
    refine hagg _ ?_
    exact h.subtractStake rfl rfl rfl rfl

variable (hat : ∀ k info, fc.get k = some info → info.stakeVotedAt < 2 ^ 64)
include hat

theorem Tree.markForkValid_step (validSlot : ℕ) :
    fc.OpStep (fc.markForkValid key validSlot) key 0 0 := by
  obtain ⟨hsame, hne, hkey, -⟩ := ht.of_get_eq_map (get_markForkValid key validSlot)
    (root_of_modifyInfo_getD key _) fun info =>
      ⟨(markForkValid_entry key validSlot info).1, (markForkValid_entry key validSlot info).2.1⟩
  refine ⟨hsame, latestVotes_of_modifyInfo_getD key _, hne, fun info₁ hinfo₁ => ?_⟩
  obtain ⟨info, hinfo, rfl⟩ := hkey info₁ hinfo₁
  have hat' := (markForkValid_entry key validSlot info).2.2
  refine ⟨info, hinfo, hat' ▸ hat key info hinfo, ?_⟩
  rw [hat']
  simp

theorem Tree.markForkInvalid_step {invalidSlot : ℕ}
    (h : fc.markForkInvalid key invalidSlot = some fc₁) : fc.OpStep fc₁ key 0 0 := by
  obtain ⟨hroot, hvotes, hget⟩ := markForkInvalid_get h
  obtain ⟨hsame, hne, hkey, -⟩ := ht.of_get_eq_map hget hroot fun info =>
    ⟨(updateWithNewlyInvalidAncestor_getD info invalidSlot).1,
      (updateWithNewlyInvalidAncestor_getD info invalidSlot).2.1⟩
  refine ⟨hsame, hvotes, hne, fun info₁ hinfo₁ => ?_⟩
  obtain ⟨info, hinfo, rfl⟩ := hkey info₁ hinfo₁
  have hat' := (updateWithNewlyInvalidAncestor_getD info invalidSlot).2.2
  refine ⟨info, hinfo, hat' ▸ hat key info hinfo, ?_⟩
  rw [hat']
  simp

/-- `aggregate_slot` at a block whose children have their best slots below them makes the
block's entry `Aggregated`. -/
theorem Tree.aggregateSlot_step
    (hchildren : ∀ c ∈ fc.children key, ∀ cinfo, fc.get c = some cinfo →
      fc.Descends c cinfo.bestSlot)
    (h : fc.aggregateSlot key = some fc₁) : fc.OpStep fc₁ key 0 0 ∧ fc₁.AggregatedAt key := by
  cases hinfo : fc.get key with
  | none =>
    have hfc : fc₁ = fc := by
      simp only [aggregateSlot, hinfo] at h
      exact (Option.some.inj h).symm
    subst hfc
    refine ⟨⟨.refl _, rfl, fun x _ => rfl, fun info₁ hinfo₁ => ?_⟩, fun info₁ hinfo₁ => ?_⟩ <;>
    · rw [hinfo] at hinfo₁
      cases hinfo₁
  | some info =>
    obtain ⟨hsame, hne, info', hinfo', hat', hagg⟩ :=
      ht.aggregateSlot_spec hinfo (hat key info hinfo) hchildren h
    refine ⟨⟨hsame, latestVotes_of_aggregateSlot h, hne, fun info₁ hinfo₁ => ?_⟩,
      fun info₁ hinfo₁ => ?_⟩
    · rw [hinfo', Option.some.injEq] at hinfo₁
      subst hinfo₁
      refine ⟨info, hinfo, hat' ▸ hat key info hinfo, ?_⟩
      rw [hat']
      simp
    · rw [hinfo', Option.some.injEq] at hinfo₁
      exact hinfo₁ ▸ hagg

end OpStep

/-- One operation of the batch, on the block `e.1.1`: it moves the block's stake by the
operation's, a stake operation keeps the entry `Aggregated`, and the aggregate makes it
so. -/
theorem Tree.processUpdateOperations_singleton (ht : fc.Tree) {e : UpdateKey × UpdateOperation}
    (hlabel : e.1.2 = e.2.label)
    (hat : ∀ k info, fc.get k = some info → info.stakeVotedAt < 2 ^ 64)
    (hchildren : e.2 = .aggregate → ∀ c ∈ fc.children e.1.1, fc.AggregatedAt c)
    (h : fc.processUpdateOperations [e] = some fc₁) :
    fc.OpStep fc₁ e.1.1 (if e.1.2 = .add then e.2.stake else 0)
        (if e.1.2 = .subtract then e.2.stake else 0) ∧
      (e.2.isStake = true → ∀ info info₁, fc.get e.1.1 = some info → fc₁.get e.1.1 = some info₁ →
        fc.Aggregated e.1.1 info → fc₁.Aggregated e.1.1 info₁) ∧
      (e.2 = .aggregate → fc₁.AggregatedAt e.1.1) := by
  obtain ⟨⟨key, label⟩, op⟩ := e
  dsimp only at hlabel hchildren h ⊢
  subst hlabel
  cases op with
  | add stake =>
    obtain rfl : fc.addSlotStake key stake = fc₁ := by simpa [processUpdateOperations] using h
    obtain ⟨hstep, hagg⟩ := ht.addSlotStake_step key stake
    exact ⟨by simpa [UpdateOperation.label, UpdateOperation.stake] using hstep, fun _ => hagg,
      by simp⟩
  | subtract stake =>
    obtain rfl : fc.subtractSlotStake key stake = fc₁ := by
      simpa [processUpdateOperations] using h
    obtain ⟨hstep, hagg⟩ := ht.subtractSlotStake_step key stake
    exact ⟨by simpa [UpdateOperation.label, UpdateOperation.stake] using hstep, fun _ => hagg,
      by simp⟩
  | markValid validSlot =>
    obtain rfl : fc.markForkValid key validSlot = fc₁ := by
      simpa [processUpdateOperations] using h
    exact ⟨by simpa [UpdateOperation.label] using ht.markForkValid_step key hat validSlot,
      by simp [UpdateOperation.isStake], by simp⟩
  | markInvalid invalidSlot =>
    have h₁ : fc.markForkInvalid key invalidSlot = some fc₁ := by
      simpa [processUpdateOperations] using h
    exact ⟨by simpa [UpdateOperation.label] using ht.markForkInvalid_step key hat h₁,
      by simp [UpdateOperation.isStake], by simp⟩
  | aggregate =>
    have h₁ : fc.aggregateSlot key = some fc₁ := by simpa [processUpdateOperations] using h
    obtain ⟨hstep, hagg⟩ := ht.aggregateSlot_step key hat
      (fun c hc cinfo hcinfo => (hchildren rfl c hc cinfo hcinfo).descends) h₁
    exact ⟨by simpa [UpdateOperation.label] using hstep, by simp [UpdateOperation.isStake],
      fun _ => hagg⟩

/-! ## The batch -/

theorem processUpdateOperations_append_singleton (pre : List (UpdateKey × UpdateOperation))
    (e : UpdateKey × UpdateOperation) :
    fc.processUpdateOperations (pre ++ [e]) =
      (fc.processUpdateOperations [e]).bind fun fc₁ => fc₁.processUpdateOperations pre := by
  simp [processUpdateOperations]

variable {ops pre : List (UpdateKey × UpdateOperation)} {e : UpdateKey × UpdateOperation}

theorem Covers.of_sameTree (h : fc.Covers ops) (hsame : fc.SameTree fc₁) : fc₁.Covers ops :=
  ⟨fun e he p hp => h.parent e he p (by rwa [hsame.parent] at hp), h.self⟩

/-- Once the last entry is applied, the rest of the batch still covers its entries: the
aggregates they need have smaller keys. -/
theorem Tree.covers_of_append (ht : fc.Tree) (hwf : WellFormed (pre ++ [e]))
    (hcov : fc.Covers (pre ++ [e])) : fc.Covers pre := by
  have hlt := lt_of_append_singleton hwf
  refine ⟨fun e' he' p hp => ?_, fun e' he' hstake => ?_⟩
  · rcases List.mem_append.mp (hcov.parent e' (List.mem_append_left _ he') p hp) with h | h
    · exact h
    · -- the parent's aggregate would come after an entry of its child
      have hslot := UpdateKey.slot_le_of_lt (hlt e' he')
      rw [← List.mem_singleton.mp h] at hslot
      exact absurd (ht.slot_lt hp) (not_lt.mpr hslot)
  · rcases List.mem_append.mp (hcov.self e' (List.mem_append_left _ he') hstake) with h | h
    · exact h
    · -- the block's aggregate would come after another entry of the block
      have hlt' := hlt e' he'
      have hfalse : e'.1.lt (aggregateEntry e'.1.1).1 = false := UpdateKey.lt_aggregate e'.1.1 e'.1.2
      rw [← List.mem_singleton.mp h, hfalse] at hlt'
      cases hlt'

/-- The aggregate of a block later than the last entry's is not in the batch. -/
theorem aggregateEntry_not_mem_of_slot_lt (hwf : WellFormed (pre ++ [e])) {k : SlotHashKey}
    (hk : e.1.1.1 < k.1) : aggregateEntry k ∉ pre ++ [e] := by
  intro hmem
  rcases List.mem_append.mp hmem with h | h
  · have hslot := UpdateKey.slot_le_of_lt (lt_of_append_singleton hwf _ h)
    exact absurd hk (not_lt.mpr hslot)
  · rw [← List.mem_singleton.mp h] at hk
    exact lt_irrefl _ hk

/-- After the last entry is applied, every block whose aggregate is not left in the batch
is `Aggregated`: the block of the entry and its parent have theirs left unless the entry
is the aggregate, or moves stake and so keeps the block's entry aggregated. -/
theorem Tree.aggregatedAt_of_append (ht : fc.Tree) (hwf : WellFormed (pre ++ [e]))
    (hcov : fc.Covers (pre ++ [e])) (hagg : ∀ k, aggregateEntry k ∉ pre ++ [e] → fc.AggregatedAt k)
    {added taken : ℕ} (hstep : fc.OpStep fc₁ e.1.1 added taken)
    (hstake : e.2.isStake = true → ∀ info info₁, fc.get e.1.1 = some info →
      fc₁.get e.1.1 = some info₁ → fc.Aggregated e.1.1 info → fc₁.Aggregated e.1.1 info₁)
    (hself : e.2 = .aggregate → fc₁.AggregatedAt e.1.1) :
    ∀ k, aggregateEntry k ∉ pre → fc₁.AggregatedAt k := by
  intro k hk info₁ hinfo₁
  by_cases he : aggregateEntry k = e
  · subst he
    exact hself rfl info₁ hinfo₁
  have hnot : aggregateEntry k ∉ pre ++ [e] := fun h => by
    rcases List.mem_append.mp h with h | h
    · exact hk h
    · exact he (List.mem_singleton.mp h)
  by_cases hke : k = e.1.1
  · -- the entry's own block: only a stake operation can leave it without its aggregate
    subst hke
    have hs : e.2.isStake = true := by
      by_contra hs
      exact hnot (hcov.self e (List.mem_append_right _ (List.mem_singleton_self e))
        (by simpa using hs))
    obtain ⟨info, hinfo, -⟩ := hstep.stake info₁ hinfo₁
    exact hstake hs info info₁ hinfo hinfo₁ (hagg _ hnot info hinfo)
  · -- another block: its children are not the entry's block, whose parent is aggregated
    rw [hstep.get_ne k hke] at hinfo₁
    have h := hagg k hnot info₁ hinfo₁
    refine h.frame (hstep.sameTree.children k) (fun c hc => hstep.get_ne c fun hce => ?_)
      (hstep.sameTree.descends_iff.mpr h.descends)
    subst hce
    exact hnot (hcov.parent e (List.mem_append_right _ (List.mem_singleton_self e)) k
      (ht.parent_of_mem hc))

/-- `process_update_operations` on a batch that covers its entries, from a tree where
every block without a pending aggregate is `Aggregated`: the tree stays, every block ends
`Aggregated`, and each block's stake moves by its add and subtract entries. -/
theorem Tree.processUpdateOperations_spec :
    ∀ {fc fc' : HeaviestSubtreeForkChoice} {ops : List (UpdateKey × UpdateOperation)},
      fc.Tree → WellFormed ops → fc.Covers ops →
      (∀ k, aggregateEntry k ∉ ops → fc.AggregatedAt k) →
      (∀ k info, fc.get k = some info → info.stakeVotedAt < 2 ^ 64) →
      fc.processUpdateOperations ops = some fc' →
      fc.SameTree fc' ∧ fc'.latestVotes = fc.latestVotes ∧ (∀ k, fc'.AggregatedAt k) ∧
        ∀ k info', fc'.get k = some info' → info'.stakeVotedAt < 2 ^ 64 ∧
          ∃ info, fc.get k = some info ∧ (info'.stakeVotedAt : ZMod (2 ^ 64)) =
            info.stakeVotedAt + stakeAt ops (k, .add) - stakeAt ops (k, .subtract) := by
  intro fc fc' ops
  induction ops using List.reverseRecOn generalizing fc with
  | nil =>
    intro _ _ _ hagg hat h
    obtain rfl : fc = fc' := by simpa [processUpdateOperations] using h
    refine ⟨.refl fc, rfl, fun k => hagg k (by simp), fun k info' hinfo' => ?_⟩
    exact ⟨hat k info' hinfo', info', hinfo', by simp [stakeAt]⟩
  | append_singleton pre e ih =>
    intro ht hwf hcov hagg hat h
    rw [processUpdateOperations_append_singleton, Option.bind_eq_some_iff] at h
    obtain ⟨fc₁, h₁, h'⟩ := h
    -- the last entry first: its block's children are aggregated already
    have hchildren : e.2 = .aggregate → ∀ c ∈ fc.children e.1.1, fc.AggregatedAt c :=
      fun _ c hc => hagg c (aggregateEntry_not_mem_of_slot_lt hwf (ht.slot_lt (ht.parent_of_mem hc)))
    have hlabel := hwf.label e (List.mem_append_right _ (List.mem_singleton_self e))
    obtain ⟨hstep, hstake, hself⟩ := ht.processUpdateOperations_singleton hlabel hat hchildren h₁
    have hat₁ : ∀ k info, fc₁.get k = some info → info.stakeVotedAt < 2 ^ 64 := by
      intro k info₁ hinfo₁
      by_cases hk : k = e.1.1
      · subst hk
        obtain ⟨-, -, hlt, -⟩ := hstep.stake info₁ hinfo₁
        exact hlt
      · rw [hstep.get_ne k hk] at hinfo₁
        exact hat k info₁ hinfo₁
    obtain ⟨hsame, hvotes, hagg', hstake'⟩ := ih (hstep.sameTree.tree ht)
      (hwf.sublist (List.sublist_append_left pre [e]))
      ((ht.covers_of_append hwf hcov).of_sameTree hstep.sameTree)
      (ht.aggregatedAt_of_append hwf hcov hagg hstep hstake hself) hat₁ h'
    refine ⟨hstep.sameTree.trans hsame, hvotes.trans hstep.latestVotes, hagg',
      fun k info' hinfo' => ?_⟩
    obtain ⟨hlt, info₁, hinfo₁, hcast⟩ := hstake' k info' hinfo'
    refine ⟨hlt, ?_⟩
    rw [stakeAt_append_singleton hwf, stakeAt_append_singleton hwf]
    by_cases hk : k = e.1.1
    · -- the entry's block: its stake moved by the entry's
      subst hk
      obtain ⟨info, hinfo, -, hcast₁⟩ := hstep.stake info₁ hinfo₁
      refine ⟨info, hinfo, ?_⟩
      rw [hcast, hcast₁]
      simp only [true_and]
      push_cast
      ring
    · have hne : ¬e.1.1 = k := fun h => hk h.symm
      rw [hstep.get_ne k hk] at hinfo₁
      refine ⟨info₁, hinfo₁, ?_⟩
      rw [hcast]
      simp [hne]

end HeaviestSubtreeForkChoice

end Solana.Consensus
