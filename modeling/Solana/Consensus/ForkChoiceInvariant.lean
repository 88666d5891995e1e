import Solana.Consensus.ForkChoiceLeaf

/-! The invariant of `HeaviestSubtreeForkChoice` over every run from `new`: each block holds
the stake of the latest votes for it and is aggregated, in `u64` arithmetic. -/

namespace Solana.Consensus

namespace HeaviestSubtreeForkChoice

open MachineInt UpdateOperations

variable {fc fc' : HeaviestSubtreeForkChoice}

/-! ## `mark_fork_invalid_candidate` and `mark_fork_valid_candidate` -/

/-- The batch of the two marks: a mark and an aggregate for every block of the subtree, then
the aggregates of its ancestors. It moves no stake, and every block stays aggregated. -/
theorem Tree.processMarks_spec (ht : fc.Tree) (hagg : ∀ k, fc.AggregatedAt k)
    (hat : ∀ k info, fc.get k = some info → info.stakeVotedAt < 2 ^ 64)
    {key root2 : SlotHashKey} {subtree : List SlotHashKey}
    (hdiff : fc.subtreeDiff key root2 = some subtree) (mfv : Option UpdateOperation)
    (h : fc.processUpdateOperations (fc.insertAggregateOperations
      (subtree.foldl (fun ops key => (doInsertAggregateOperation ops mfv key).1) []) key) = some fc') :
    fc.SameTree fc' ∧ fc'.latestVotes = fc.latestVotes ∧ (∀ k, fc'.AggregatedAt k) ∧
      ∀ k info', fc'.get k = some info' → ∃ info, fc.get k = some info ∧
        info'.stakeVotedAt = info.stakeVotedAt := by
  obtain ⟨-, hclosed⟩ := ht.subtreeDiff_closed hdiff
  obtain ⟨hwf, -, hops, hmem⟩ := foldl_doInsertAggregateOperation_spec mfv subtree []
    ⟨List.Pairwise.nil, by simp⟩ (by simp)
  generalize subtree.foldl (fun ops key => (doInsertAggregateOperation ops mfv key).1) [] = ops
    at h hwf hops hmem
  -- the subtree holds the parent of each of its blocks but `key`
  have hparent : ∀ e ∈ ops, e.1.1 ≠ key → ∀ p, fc.parent e.1.1 = some p → aggregateEntry p ∈ ops := by
    intro e he hne p hp
    have hsub : e.1.1 ∈ subtree := (hops e he).1.resolve_left List.not_mem_nil
    rcases (hclosed _ hsub).2 with heq | ⟨x, hx, hpx⟩
    · exact absurd heq hne
    · rw [hp, Option.some.injEq] at hpx
      rw [hpx]
      exact hmem x hx
  obtain ⟨hwf', -, hnew, hcov⟩ := insertAggregateAcross_spec (ht.isAncestorChain_ancestors key)
    hwf hparent fun e he _ => (hops e he).2.2
  have hnostake : ∀ e ∈ insertAggregateAcross none (fc.ancestors key) ops,
      e.2.isStake = false := by
    intro e he
    rcases hnew e he with he | he
    · exact (hops e he).2.1
    · exact he
  obtain ⟨hsame, hvotes, hagg', hstake⟩ :=
    ht.processUpdateOperations_spec hwf' hcov (fun k _ => hagg k) hat h
  refine ⟨hsame, hvotes, hagg', fun k info' hk => ?_⟩
  obtain ⟨hlt, info, hinfo, hcast⟩ := hstake k info' hk
  rw [stakeAt_of_not_isStake hnostake, stakeAt_of_not_isStake hnostake] at hcast
  exact ⟨info, hinfo, eq_of_cast_eq hlt (hat k info hinfo) (by simpa using hcast)⟩

theorem Tree.markForkInvalidCandidate_spec (ht : fc.Tree) (hagg : ∀ k, fc.AggregatedAt k)
    (hat : ∀ k info, fc.get k = some info → info.stakeVotedAt < 2 ^ 64) {invalidKey : SlotHashKey}
    (h : fc.markForkInvalidCandidate invalidKey = some fc') :
    fc.SameTree fc' ∧ fc'.latestVotes = fc.latestVotes ∧ (∀ k, fc'.AggregatedAt k) ∧
      ∀ k info', fc'.get k = some info' → ∃ info, fc.get k = some info ∧
        info'.stakeVotedAt = info.stakeVotedAt := by
  unfold markForkInvalidCandidate at h
  split at h
  · obtain rfl := Option.some.inj h
    exact ⟨.refl fc, rfl, hagg, fun k info' hk => ⟨info', hk, rfl⟩⟩
  · split_ifs at h
    simp only [Option.bind_eq_bind, Option.bind_eq_some_iff] at h
    obtain ⟨subtree, hdiff, h⟩ := h
    exact ht.processMarks_spec hagg hat hdiff _ h

theorem Tree.markForkValidCandidate_spec (ht : fc.Tree) (hagg : ∀ k, fc.AggregatedAt k)
    (hat : ∀ k info, fc.get k = some info → info.stakeVotedAt < 2 ^ 64) {validKey : SlotHashKey}
    (h : fc.markForkValidCandidate validKey = some fc') :
    fc.SameTree fc' ∧ fc'.latestVotes = fc.latestVotes ∧ (∀ k, fc'.AggregatedAt k) ∧
      ∀ k info', fc'.get k = some info' → ∃ info, fc.get k = some info ∧
        info'.stakeVotedAt = info.stakeVotedAt := by
  unfold markForkValidCandidate at h
  simp only [Option.bind_eq_bind, Option.bind_eq_some_iff] at h
  obtain ⟨subtree, hdiff, h⟩ := h
  exact ht.processMarks_spec hagg hat hdiff _ h

/-! ## `set_root` and `add_root_parent` -/

/-- `Aggregated` does not read the block's parent. -/
theorem Aggregated.setParent {key : SlotHashKey} {info : ForkInfo} (h : fc.Aggregated key info)
    (parent : Option SlotHashKey) : fc.Aggregated key { info with parent := parent } :=
  ⟨h.subtree, h.best, h.descends⟩

/-- `set_root` keeps the blocks below the new root aggregated: their children stay, with
their entries, and so do the walks down from them. -/
theorem Tree.aggregatedAt_of_setRoot (ht : fc.Tree) (hagg : ∀ k, fc.AggregatedAt k)
    {newRoot : SlotHashKey} (h : fc.setRoot newRoot = some fc') (k : SlotHashKey) :
    fc'.AggregatedAt k := by
  obtain ⟨-, -, -, hgetNew, hgetIn, hgetOut⟩ := ht.setRoot_some h
  intro info' hk
  by_cases hdesc : fc.Descends newRoot k
  · have hchild : ∀ c ∈ fc.children k, fc'.get c = fc.get c := fun c hc =>
      hgetIn c (hdesc.tail (ht.parent_of_mem hc)) fun heq => by
        have hlt := ht.slot_lt (ht.parent_of_mem hc)
        have hle := ht.slot_le_of_descends hdesc
        rw [heq] at hlt
        omega
    have hkeep : ∀ y, fc.Descends k y → y ≠ k → fc'.parent y = fc.parent y := fun y hy hyk =>
      parent_eq_of_get_eq (hgetIn y (hdesc.trans hy) fun heq => by
        subst heq
        exact hyk (ht.descends_antisymm hdesc hy))
    have hchildren : fc'.children k = fc.children k := by
      by_cases hkn : k = newRoot
      · simp only [children, hkn, hgetNew]
        cases fc.get newRoot <;> rfl
      · exact children_eq_of_get_eq (hgetIn k hdesc hkn)
    have hframe : ∀ info, fc.get k = some info → fc'.Aggregated k info := fun info hinfo =>
      (hagg k info hinfo).frame hchildren hchild ((hagg k info hinfo).descends.mono hkeep)
    by_cases hkn : k = newRoot
    · -- the new root loses its parent and nothing else
      rw [hkn, hgetNew] at hk
      obtain ⟨info, hinfo, rfl⟩ := Option.map_eq_some_iff.mp hk
      exact (hframe info (hkn ▸ hinfo)).setParent none
    · rw [hgetIn k hdesc hkn] at hk
      exact hframe info' hk
  · rw [hgetOut k hdesc] at hk
    cases hk

/-- `add_root_parent` above a candidate root: the new root's one child is the old root, whose
subtree stake and best slot it takes; the other blocks keep their children and entries. -/
theorem Tree.aggregatedAt_of_addRootParent (ht : fc.Tree) (hagg : ∀ k, fc.AggregatedAt k)
    (hroot : fc.isCandidate fc.root = true) {rootParent : SlotHashKey}
    (h : fc.addRootParent rootParent = some fc') (k : SlotHashKey) : fc'.AggregatedAt k := by
  obtain ⟨hslot, hfresh, rootInfo, hrootInfo, -, -, hget⟩ := addRootParent_some h
  have hne : fc.root ≠ rootParent := ne_of_apply_ne Prod.fst hslot.ne'
  have hfreshChild : ∀ {x c}, c ∈ fc.children x → c ≠ rootParent := fun hc =>
    ne_of_isSome (ht.isSome_of_mem hc) hfresh
  have hrootChild : ∀ {x c}, c ∈ fc.children x → c ≠ fc.root := fun hc heq => by
    have := ht.parent_of_mem hc
    rw [heq, ht.parent_root] at this
    cases this
  have hgetc : ∀ x, ∀ c ∈ fc.children x, fc'.get c = fc.get c := fun x c hc => by
    rw [hget, if_neg (hfreshChild hc), if_neg (hrootChild hc)]
  have hchildren : ∀ x, x ≠ rootParent → fc'.children x = fc.children x := by
    intro x hx
    simp only [children, hget, if_neg hx]
    split_ifs with hxr
    · rw [hxr, hrootInfo]
      rfl
    · rfl
  -- the walks down from a block of the tree pass neither the new root nor the old one
  have hkeep : ∀ {a y}, fc.Descends a y → fc'.Descends a y := fun hd => hd.mono fun z hz hza => by
    obtain ⟨q, hq, -⟩ := hz.parent_of_ne (Ne.symm hza)
    have hzr : z ≠ rootParent := ne_of_isSome (isSome_of_parent hq) hfresh
    have hzo : z ≠ fc.root := fun heq => by
      rw [heq, ht.parent_root] at hq
      cases hq
    simp only [parent, hget, if_neg hzr, if_neg hzo]
  have hra := hagg fc.root rootInfo hrootInfo
  intro info' hk
  rw [hget] at hk
  split_ifs at hk with hkr hko
  · -- the new root
    obtain rfl := Option.some.inj hk
    subst hkr
    have hchildren' : fc'.children k = [fc.root] := by simp [children, hget]
    have hrootGet : fc'.get fc.root = some { rootInfo with parent := some k } := by
      rw [hget, if_neg hne, if_pos rfl]
    refine ⟨?_, fun _ => ⟨fun hall => ?_, fun c hc => ?_⟩, ?_⟩
    · have hw : fc'.weight fc.root = rootInfo.stakeVotedSubtree := by rw [weight_of_get hrootGet]
      show rootInfo.stakeVotedSubtree = (0 + fc'.childrenStake k) % 2 ^ 64
      rw [childrenStake, hchildren', List.map_singleton, List.sum_singleton, hw, zero_add,
        hra.subtree, Nat.mod_mod]
    · -- the old root is a candidate child
      have hcand : fc'.isCandidate fc.root = false :=
        hall fc.root (by rw [hchildren']; exact List.mem_singleton_self _)
      rw [isCandidate_of_get hrootGet] at hcand
      change rootInfo.isCandidate = false at hcand
      rw [isCandidate_of_get hrootInfo] at hroot
      rw [hroot] at hcand
      cases hcand
    · rw [hchildren'] at hc
      rw [List.mem_singleton.mp hc.1, bestSlot_of_get hrootGet]
    · exact (Descends.of_parent (by simp [parent, hrootGet])).trans (hkeep hra.descends)
  · -- the old root gains the new root as its parent
    obtain rfl := Option.some.inj hk
    subst hko
    exact (hra.frame (hchildren _ hne) (hgetc _) (hkeep hra.descends)).setParent _
  · exact (hagg k info' hk).frame (hchildren k hkr) (hgetc k) (hkeep (hagg k info' hk).descends)

/-! ## The invariant over every run -/

variable (stakes : EpochStakes)

/-- What every run from `new` keeps: a tree with one latest vote per validator, whose blocks
hold the stake of the latest votes for them and are aggregated, in `u64` arithmetic. -/
structure Invariant (fc : HeaviestSubtreeForkChoice) : Prop where
  tree : fc.Tree
  nodup : (fc.latestVotes.map Prod.fst).Nodup
  stake : ∀ k info, fc.get k = some info → info.stakeVotedAt = fc.latestVoteStake stakes k % 2 ^ 64
  aggregated : ∀ k, fc.AggregatedAt k

/-- The operations on the tree: a leaf under a block at an earlier slot, which no latest
vote names; a batch of votes; a new root; a parent above a candidate root, which no latest
vote names; and the marks of a fork as invalid or valid. -/
inductive Step : HeaviestSubtreeForkChoice → HeaviestSubtreeForkChoice → Prop
  | addNewLeafSlot {fc fc' : HeaviestSubtreeForkChoice} {key parent : SlotHashKey}
      (hslot : parent.1 < key.1) (hvotes : ∀ vote ∈ fc.latestVotes, vote.2 ≠ key)
      (h : fc.addNewLeafSlot key (some parent) = some fc') : Step fc fc'
  | addVotes {fc fc' : HeaviestSubtreeForkChoice} {votes : List (Pubkey × SlotHashKey)}
      {best : SlotHashKey} (h : fc.addVotes votes stakes = some (fc', best)) : Step fc fc'
  | setRoot {fc fc' : HeaviestSubtreeForkChoice} {newRoot : SlotHashKey}
      (h : fc.setRoot newRoot = some fc') : Step fc fc'
  | addRootParent {fc fc' : HeaviestSubtreeForkChoice} {rootParent : SlotHashKey}
      (hvotes : ∀ vote ∈ fc.latestVotes, vote.2 ≠ rootParent) (hroot : fc.isCandidate fc.root = true)
      (h : fc.addRootParent rootParent = some fc') : Step fc fc'
  | markForkInvalidCandidate {fc fc' : HeaviestSubtreeForkChoice} {invalidKey : SlotHashKey}
      (h : fc.markForkInvalidCandidate invalidKey = some fc') : Step fc fc'
  | markForkValidCandidate {fc fc' : HeaviestSubtreeForkChoice} {validKey : SlotHashKey}
      (h : fc.markForkValidCandidate validKey = some fc') : Step fc fc'

variable {stakes}

theorem latestVoteStake_of_forall_ne {key : SlotHashKey}
    (h : ∀ vote ∈ fc.latestVotes, vote.2 ≠ key) : fc.latestVoteStake stakes key = 0 := by
  rw [latestVoteStake, List.filter_eq_nil_iff.mpr fun vote hvote => by simpa using h vote hvote]
  rfl

theorem Invariant.stakeVotedAt_lt (hinv : fc.Invariant stakes) {k : SlotHashKey} {info : ForkInfo}
    (h : fc.get k = some info) : info.stakeVotedAt < 2 ^ 64 := by
  rw [hinv.stake k info h]
  exact Nat.mod_lt _ (by positivity)

/-- The stake field after an operation that keeps the latest votes and the stake of every
block, or gives a block no latest vote names no stake. -/
theorem Invariant.stake_of (hinv : fc.Invariant stakes) (hvotes : fc'.latestVotes = fc.latestVotes)
    (hstake : ∀ k info', fc'.get k = some info' →
      (∃ info, fc.get k = some info ∧ info'.stakeVotedAt = info.stakeVotedAt) ∨
        info'.stakeVotedAt = 0 ∧ ∀ vote ∈ fc.latestVotes, vote.2 ≠ k) :
    ∀ k info', fc'.get k = some info' →
      info'.stakeVotedAt = fc'.latestVoteStake stakes k % 2 ^ 64 := by
  intro k info' hk
  rw [latestVoteStake_of_latestVotes hvotes]
  rcases hstake k info' hk with ⟨info, hinfo, hat⟩ | ⟨hat, hnone⟩
  · rw [hat]
    exact hinv.stake k info hinfo
  · rw [hat, latestVoteStake_of_forall_ne hnone]
    rfl

/-- Each operation keeps the invariant. -/
theorem Invariant.step (hinv : fc.Invariant stakes) (hstep : Step stakes fc fc') :
    fc'.Invariant stakes := by
  cases hstep with
  | addNewLeafSlot hslot hvotes h =>
    obtain ⟨ht, -, hlatest, hagg, hat⟩ := hinv.tree.addNewLeafSlot_spec hinv.aggregated hslot h
    refine ⟨ht, hlatest ▸ hinv.nodup, hinv.stake_of hlatest fun k info' hk => ?_, hagg⟩
    have hatk := hat k
    rw [hk, Option.map_some] at hatk
    split_ifs at hatk with hnew
    · obtain ⟨-, rfl⟩ := hnew
      exact .inr ⟨Option.some.inj hatk, hvotes⟩
    · obtain ⟨info, hinfo, hinfo'⟩ := Option.map_eq_some_iff.mp hatk.symm
      exact .inl ⟨info, hinfo, hinfo'.symm⟩
  | addVotes h =>
    obtain ⟨hsame, hnodup, hstake, hagg⟩ :=
      hinv.tree.addVotes_spec hinv.nodup hinv.stake hinv.aggregated h
    exact ⟨hsame.tree hinv.tree, hnodup, hstake, hagg⟩
  | @setRoot newRoot h =>
    obtain ⟨-, -, hlatest, hgetNew, hgetIn, hgetOut⟩ := hinv.tree.setRoot_some h
    refine ⟨hinv.tree.setRoot h, hlatest ▸ hinv.nodup, hinv.stake_of hlatest fun k info' hk => ?_,
      hinv.tree.aggregatedAt_of_setRoot hinv.aggregated h⟩
    refine .inl ?_
    by_cases hdesc : fc.Descends newRoot k
    · by_cases hkn : k = newRoot
      · rw [hkn, hgetNew] at hk
        obtain ⟨info, hinfo, rfl⟩ := Option.map_eq_some_iff.mp hk
        exact ⟨info, hkn ▸ hinfo, rfl⟩
      · exact ⟨info', (hgetIn k hdesc hkn).symm.trans hk, rfl⟩
    · rw [hgetOut k hdesc] at hk
      cases hk
  | addRootParent hvotes hroot h =>
    obtain ⟨hslot, -, rootInfo, hrootInfo, -, hlatest, hget⟩ := addRootParent_some h
    refine ⟨hinv.tree.addRootParent h, hlatest ▸ hinv.nodup,
      hinv.stake_of hlatest fun k info' hk => ?_,
      hinv.tree.aggregatedAt_of_addRootParent hinv.aggregated hroot h⟩
    rw [hget] at hk
    split_ifs at hk with hkr hko
    · obtain rfl := Option.some.inj hk
      exact .inr ⟨rfl, hkr ▸ hvotes⟩
    · obtain rfl := Option.some.inj hk
      exact .inl ⟨rootInfo, hko ▸ hrootInfo, rfl⟩
    · exact .inl ⟨info', hk, rfl⟩
  | markForkInvalidCandidate h =>
    obtain ⟨hsame, hlatest, hagg, hstake⟩ := hinv.tree.markForkInvalidCandidate_spec
      hinv.aggregated (fun _ _ => hinv.stakeVotedAt_lt) h
    exact ⟨hsame.tree hinv.tree, hlatest ▸ hinv.nodup,
      hinv.stake_of hlatest fun k info' hk => .inl (hstake k info' hk), hagg⟩
  | markForkValidCandidate h =>
    obtain ⟨hsame, hlatest, hagg, hstake⟩ := hinv.tree.markForkValidCandidate_spec
      hinv.aggregated (fun _ _ => hinv.stakeVotedAt_lt) h
    exact ⟨hsame.tree hinv.tree, hlatest ▸ hinv.nodup,
      hinv.stake_of hlatest fun k info' hk => .inl (hstake k info' hk), hagg⟩

/-- `new` builds a tree of one block, with no votes, that keeps the invariant. -/
theorem invariant_new {root : SlotHashKey} (h : new root = some fc) : fc.Invariant stakes := by
  have hfc : fc = ⟨[(root, ⟨0, 0, root, none, [], none, true⟩)], [], root⟩ := by
    simp [new, addNewLeafSlot, Map.insert] at h
    exact h.symm
  subst hfc
  have hget : ∀ k, Map.get [(root, (⟨0, 0, root, none, [], none, true⟩ : ForkInfo))] k =
      if k = root then some ⟨0, 0, root, none, [], none, true⟩ else none := by
    intro k
    by_cases hk : k = root
    · simp [Map.get_cons, hk]
    · simp [Map.get_cons, hk, Ne.symm hk]
  have hchildren : ∀ k, children ⟨[(root, ⟨0, 0, root, none, [], none, true⟩)], [], root⟩ k = [] := by
    intro k
    simp only [children, get, hget]
    split_ifs <;> rfl
  have hparent : ∀ k, parent ⟨[(root, ⟨0, 0, root, none, [], none, true⟩)], [], root⟩ k = none := by
    intro k
    simp only [parent, get, hget]
    split_ifs <;> rfl
  refine ⟨⟨by simp [get, hget], hparent _, fun {k} hk _ => ?_, fun hp => ?_, fun hc => ?_,
    fun hp => ?_, fun k => by simp [hchildren]⟩, List.nodup_nil, fun k info hk => ?_, fun k info hk => ?_⟩
  · by_contra hne
    simp [get, hget, hne] at hk
  · simp [hparent] at hp
  · simp [hchildren] at hc
  · simp [hparent] at hp
  · simp only [get, hget] at hk
    split_ifs at hk
    obtain rfl := Option.some.inj hk
    rfl
  · simp only [get, hget] at hk
    split_ifs at hk with hkr
    obtain rfl := Option.some.inj hk
    subst hkr
    refine ⟨by simp [childrenStake, hchildren], fun _ => ⟨fun _ => rfl, fun c hc => ?_⟩, .refl _⟩
    rw [hchildren] at hc
    exact absurd hc.1 List.not_mem_nil

/-- Every tree reached from `new` by the operations keeps the invariant. -/
theorem forkChoice_invariant_of_reachable {root : SlotHashKey} {fc₀ : HeaviestSubtreeForkChoice}
    (h₀ : new root = some fc₀) (hrun : Relation.ReflTransGen (Step stakes) fc₀ fc) :
    fc.Invariant stakes := by
  induction hrun with
  | refl => exact invariant_new h₀
  | tail _ hstep ih => exact ih.step hstep

/-- A leaf under the root of `new` and a vote for it with a stake of 10: the root's subtree
holds the vote, and the invariant holds. -/
theorem forkChoice_invariant_of_reachable_vote :
    let stakes : EpochStakes := ⟨fun _ => 0, fun _ pubkey => if pubkey = 5 then 10 else 0⟩
    ∃ fc₀ fc, new (0, 0) = some fc₀ ∧ Relation.ReflTransGen (Step stakes) fc₀ fc ∧
      fc.stakeVotedSubtree (0, 0) = some 10 ∧ fc.Invariant stakes := by
  intro stakes
  let fc₀ := (new (0, 0)).get (by decide +kernel)
  have h₀ : new (0, 0) = some fc₀ := (Option.some_get _).symm
  let fc₁ := (fc₀.addNewLeafSlot (1, 1) (some (0, 0))).get (by decide +kernel)
  have h₁ : fc₀.addNewLeafSlot (1, 1) (some (0, 0)) = some fc₁ := (Option.some_get _).symm
  let voted := (fc₁.addVotes [(5, (1, 1))] stakes).get (by decide +kernel)
  have h₂ : fc₁.addVotes [(5, (1, 1))] stakes = some (voted.1, voted.2) := by
    rw [Prod.mk.eta]
    exact (Option.some_get _).symm
  have hrun : Relation.ReflTransGen (Step stakes) fc₀ voted.1 :=
    .tail (.single (Step.addNewLeafSlot (by decide +kernel) (by decide +kernel) h₁)) (Step.addVotes h₂)
  exact ⟨fc₀, voted.1, h₀, hrun, by decide +kernel, forkChoice_invariant_of_reachable h₀ hrun⟩

end HeaviestSubtreeForkChoice

end Solana.Consensus
