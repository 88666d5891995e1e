import Solana.Consensus.ForkChoiceProcess

/-! `add_votes`: `generate_update_operations` moves each validator's stake from its latest
vote to the new one in the batch, and `process_update_operations` applies the moves. -/

namespace Solana.Consensus

open MachineInt UpdateOperations

namespace HeaviestSubtreeForkChoice

variable {fc fc₀ fc₁ : HeaviestSubtreeForkChoice} {stakes : EpochStakes}
  {ops : List (UpdateKey × UpdateOperation)}

/-! ## States of one tree with other votes -/

section SameInfos

variable (hinfos : fc₁.forkInfos = fc.forkInfos)
include hinfos

theorem get_of_forkInfos (x : SlotHashKey) : fc₁.get x = fc.get x := by
  simp [get, hinfos]

theorem sameTree_of_forkInfos (hroot : fc₁.root = fc.root) : fc.SameTree fc₁ :=
  ⟨hroot, fun x => by rw [get_of_forkInfos hinfos],
    fun x => parent_eq_of_get_eq (get_of_forkInfos hinfos x),
    fun x => children_eq_of_get_eq (get_of_forkInfos hinfos x)⟩

theorem ancestors_of_forkInfos : ∀ (fuel : ℕ) (key : SlotHashKey),
    fc₁.ancestorsUpTo fuel key = fc.ancestorsUpTo fuel key
  | 0, _ => rfl
  | fuel + 1, key => by
    have hparent : fc₁.parent key = fc.parent key :=
      parent_eq_of_get_eq (get_of_forkInfos hinfos key)
    simp only [ancestorsUpTo, hparent, ancestors_of_forkInfos fuel]

theorem aggregatedAt_of_forkInfos (hroot : fc₁.root = fc.root) {key : SlotHashKey}
    (h : fc.AggregatedAt key) : fc₁.AggregatedAt key := by
  have hsame := sameTree_of_forkInfos hinfos hroot
  intro info hinfo
  rw [get_of_forkInfos hinfos] at hinfo
  have hagg := h info hinfo
  exact hagg.frame (hsame.children key) (fun c _ => get_of_forkInfos hinfos c)
    (hsame.descends_iff.mpr hagg.descends)

end SameInfos

/-! ## The latest votes -/

/-- A new latest vote of `pubkey` moves its stake from the block of the old one, if any,
to the new block. -/
theorem latestVoteStake_insert (hnodup : (fc.latestVotes.map Prod.fst).Nodup) (pubkey : Pubkey)
    (newVote key : SlotHashKey) :
    ({ fc with latestVotes := Map.insert fc.latestVotes pubkey newVote } :
        HeaviestSubtreeForkChoice).latestVoteStake stakes key +
        (if Map.get fc.latestVotes pubkey = some key then
          stakes.voteAccountStake (stakes.epochOf key.1) pubkey else 0) =
      fc.latestVoteStake stakes key +
        if newVote = key then stakes.voteAccountStake (stakes.epochOf key.1) pubkey else 0 :=
  Map.weightOf_insert (fun pubkey => stakes.voteAccountStake (stakes.epochOf key.1) pubkey) key
    hnodup pubkey newVote

/-! ## One vote -/

/-- A stake moved into the batch at a block of the tree, followed by the aggregates of its
ancestors: the batch still covers its entries, and only the stake under that key changes. -/
theorem Tree.addStake_aggregate (ht : fc₀.Tree) (hinfos : fc₁.forkInfos = fc₀.forkInfos)
    (hwf : WellFormed ops) (hcov : fc₀.Covers ops) {key : SlotHashKey} {label : UpdateLabel}
    {stake : ℕ} {op : UpdateOperation} {ops' : List (UpdateKey × UpdateOperation)}
    (h : addStake ops (key, label) stake op = some ops') (hlabel : label = op.label)
    (hop : op.stake = stake) (hstake : op.isStake = true) :
    WellFormed (fc₁.insertAggregateOperations ops' key) ∧
      fc₀.Covers (fc₁.insertAggregateOperations ops' key) ∧
      (∀ k, k ≠ (key, label) → stakeAt (fc₁.insertAggregateOperations ops' key) k = stakeAt ops k) ∧
      (stakeAt (fc₁.insertAggregateOperations ops' key) (key, label) : ZMod (2 ^ 64)) =
        stakeAt ops (key, label) + stake := by
  obtain ⟨hwf', hnew, hkept, hother, hkey⟩ := addStake_spec hwf hlabel hop h
  -- the entries of the batch that move no stake are kept, aggregates among them
  have hkeep : ∀ e ∈ ops, e.2.isStake = false → e ∈ ops' := fun e he hs =>
    hkept e he fun heq =>
      Bool.false_ne_true (hs.symm.trans (isStake_of_label_eq hwf he (by rw [heq, hlabel]) hstake))
  have hagg : ∀ k, aggregateEntry k ∈ ops → aggregateEntry k ∈ ops' := fun k hk => hkeep _ hk rfl
  have hchain : fc₀.IsAncestorChain key (fc₁.ancestors key) := by
    rw [ancestors, hinfos, ancestors_of_forkInfos hinfos]
    exact ht.isAncestorChain_ancestors key
  obtain ⟨hwf'', hsub, hnew', hcov''⟩ := insertAggregateAcross_spec hchain hwf'
    (fun e he hkey p hp => by
      rcases hnew e he with he | he
      · exact hagg p (hcov.parent e he p hp)
      · exact absurd (congrArg Prod.fst he) hkey)
    (fun e he hs => by
      rcases hnew e he with hold | hkey'
      · exact hagg _ (hcov.self e hold hs)
      · -- the new entry moves stake
        exact absurd (hs.symm.trans (isStake_of_label_eq hwf' he (by rw [hkey', hlabel]) hstake))
          Bool.false_ne_true)
  have hstakeAt : ∀ k, stakeAt (fc₁.insertAggregateOperations ops' key) k = stakeAt ops' k :=
    stakeAt_of_subset hwf' hwf'' hsub fun e he he' => (hnew' e he).resolve_left he'
  refine ⟨hwf'', hcov'', fun k hk => ?_, ?_⟩
  · rw [hstakeAt, hother k hk]
  · rw [hstakeAt, hkey]

/-- What `generate_update_operations` keeps after some of the votes: the tree of `fc₀` with
other latest votes, and a batch that covers its entries and in which each block's stake
moved as the latest votes did. -/
structure Generated (stakes : EpochStakes) (fc₀ fc : HeaviestSubtreeForkChoice)
    (ops : List (UpdateKey × UpdateOperation)) : Prop where
  forkInfos : fc.forkInfos = fc₀.forkInfos
  root : fc.root = fc₀.root
  nodup : (fc.latestVotes.map Prod.fst).Nodup
  wellFormed : WellFormed ops
  covers : fc₀.Covers ops
  stake : ∀ k, (fc.latestVoteStake stakes k : ZMod (2 ^ 64)) + stakeAt ops (k, .subtract) =
    fc₀.latestVoteStake stakes k + stakeAt ops (k, .add)

/-- The bookkeeping of one vote in `u64` arithmetic: what leaves the old block goes to the
subtractions, what the new block gains is left for the addition. -/
theorem cast_moved {L L₁ L₀ sub sub₁ add gone new : ℕ} (hL : L₁ + gone = L + new)
    (hgen : (L : ZMod (2 ^ 64)) + sub = L₀ + add) (hsub : (sub₁ : ZMod (2 ^ 64)) = sub + gone) :
    (L₁ : ZMod (2 ^ 64)) + sub₁ = L₀ + add + new := by
  have hL' := congrArg (Nat.cast : ℕ → ZMod (2 ^ 64)) hL
  push_cast at hL'
  rw [hsub]
  linear_combination hL' + hgen

/-- The second half of a vote: the new block's stake goes into the batch, which then has
moved every stake as the latest votes did. -/
theorem Tree.generated_of_add (ht : fc₀.Tree) (hinfos : fc₁.forkInfos = fc₀.forkInfos)
    (hroot : fc₁.root = fc₀.root) (hnodup : (fc₁.latestVotes.map Prod.fst).Nodup)
    (hwf : WellFormed ops) (hcov : fc₀.Covers ops) {pubkey : Pubkey} {newVote : SlotHashKey}
    (hmoved : ∀ k, (fc₁.latestVoteStake stakes k : ZMod (2 ^ 64)) + stakeAt ops (k, .subtract) =
      fc₀.latestVoteStake stakes k + stakeAt ops (k, .add) +
        if newVote = k then stakes.voteAccountStake (stakes.epochOf k.1) pubkey else 0)
    {ops' : List (UpdateKey × UpdateOperation)}
    (h : addStake ops (newVote, .add) (stakes.voteAccountStake (stakes.epochOf newVote.1) pubkey)
      (.add (stakes.voteAccountStake (stakes.epochOf newVote.1) pubkey)) = some ops') :
    Generated stakes fc₀ fc₁ (fc₁.insertAggregateOperations ops' newVote) := by
  obtain ⟨hwf', hcov', hother, hkey⟩ := ht.addStake_aggregate hinfos hwf hcov h rfl rfl rfl
  refine ⟨hinfos, hroot, hnodup, hwf', hcov', fun k => ?_⟩
  have hsub : (k, UpdateLabel.subtract) ≠ (newVote, .add) := by simp
  rw [hother _ hsub, hmoved k]
  by_cases hk : newVote = k
  · subst hk
    rw [if_pos rfl, hkey]
    ring
  · have hadd : (k, UpdateLabel.add) ≠ (newVote, .add) := fun h => hk (congrArg Prod.fst h).symm
    rw [if_neg hk, hother _ hadd, Nat.cast_zero, add_zero]

/-- One vote of `generate_update_operations` keeps `Generated`. -/
theorem Tree.generateStep_spec (ht : fc₀.Tree)
    {state state' : HeaviestSubtreeForkChoice × UpdateOperations × List Pubkey}
    {vote : Pubkey × SlotHashKey} (hgen : Generated stakes fc₀ state.1 state.2.1)
    (h : generateStep stakes state vote = some state') :
    Generated stakes fc₀ state'.1 state'.2.1 := by
  obtain ⟨fc, ops, observed⟩ := state
  obtain ⟨pubkey, newVote⟩ := vote
  simp only [generateStep] at h
  split_ifs at h with hbelow hobserved hold
  · rw [← Option.some.inj h]
    exact hgen
  · rw [← Option.some.inj h]
    exact hgen
  · -- the vote is newer than the latest one: the stake moves
    have hinfos : ({ fc with latestVotes := Map.insert fc.latestVotes pubkey newVote } :
        HeaviestSubtreeForkChoice).forkInfos = fc₀.forkInfos := hgen.forkInfos
    have hnodup := Map.nodup_insert hgen.nodup pubkey newVote
    have hmove := fun k => @latestVoteStake_insert _ stakes hgen.nodup pubkey newVote k
    cases hlatest : Map.get fc.latestVotes pubkey with
    | none =>
      simp only [hlatest, Option.bind_eq_bind, Option.bind_eq_some_iff] at h
      obtain ⟨ops₁, hops₁, ops', hadd, hstate⟩ := h
      obtain rfl := Option.some.inj hops₁
      rw [← Option.some.inj hstate]
      refine ht.generated_of_add hinfos hgen.root hnodup hgen.wellFormed hgen.covers
        (fun k => cast_moved (hmove k) (hgen.stake k) ?_) hadd
      simp [hlatest]
    | some oldVote =>
      by_cases hpos : stakes.voteAccountStake (stakes.epochOf oldVote.1) pubkey > 0
      · -- the old block's stake goes to the subtractions first
        simp only [hlatest, hpos, if_true, Option.bind_eq_bind, Option.bind_eq_some_iff,
          Option.some.injEq] at h
        obtain ⟨ops₀, hsub, ops₁, rfl, ops', hadd, hstate⟩ := h
        rw [← hstate]
        obtain ⟨hwf₁, hcov₁, hother₁, hkey₁⟩ :=
          ht.addStake_aggregate hinfos hgen.wellFormed hgen.covers hsub rfl rfl rfl
        refine ht.generated_of_add hinfos hgen.root hnodup hwf₁ hcov₁ (fun k => ?_) hadd
        rw [hother₁ (k, .add) (by simp)]
        refine cast_moved (hmove k) (hgen.stake k) ?_
        by_cases hk : oldVote = k
        · subst hk
          simp [hlatest, hkey₁]
        · rw [hother₁ (k, .subtract) fun h => hk (congrArg Prod.fst h).symm]
          simp [hlatest, hk]
      · -- a validator without stake in the old block's epoch moves nothing out
        simp only [hlatest, hpos, if_false, Option.bind_eq_bind, Option.bind_eq_some_iff,
          Option.some.injEq] at h
        obtain ⟨ops₁, rfl, ops', hadd, hstate⟩ := h
        rw [← hstate]
        refine ht.generated_of_add hinfos hgen.root hnodup hgen.wellFormed hgen.covers
          (fun k => cast_moved (hmove k) (hgen.stake k) ?_) hadd
        by_cases hk : oldVote = k
        · subst hk
          simp [hlatest, Nat.eq_zero_of_not_pos hpos]
        · simp [hlatest, hk]

/-- `generate_update_operations` over a list of votes keeps `Generated`. -/
theorem Tree.foldlM_generateStep (ht : fc₀.Tree) : ∀ (votes : List (Pubkey × SlotHashKey))
    {state state' : HeaviestSubtreeForkChoice × UpdateOperations × List Pubkey},
    Generated stakes fc₀ state.1 state.2.1 →
    votes.foldlM (generateStep stakes) state = some state' → Generated stakes fc₀ state'.1 state'.2.1
  | [], _, _, hgen, h => by
    rw [List.foldlM_nil] at h
    rw [← Option.some.inj h]
    exact hgen
  | vote :: votes, _, _, hgen, h => by
    rw [List.foldlM_cons, Option.bind_eq_bind, Option.bind_eq_some_iff] at h
    obtain ⟨state₁, h₁, h₂⟩ := h
    exact ht.foldlM_generateStep votes (ht.generateStep_spec hgen h₁) h₂

theorem latestVoteStake_of_latestVotes (h : fc₁.latestVotes = fc.latestVotes) (key : SlotHashKey) :
    fc₁.latestVoteStake stakes key = fc.latestVoteStake stakes key := by
  simp [latestVoteStake, h]

/-- `add_votes` on a tree whose blocks are aggregated and hold the stake of their latest
votes in `u64` arithmetic: the same holds after it, for the new latest votes. -/
theorem Tree.addVotes_spec (ht : fc.Tree) (hnodup : (fc.latestVotes.map Prod.fst).Nodup)
    (hstake : ∀ k info, fc.get k = some info →
      info.stakeVotedAt = fc.latestVoteStake stakes k % 2 ^ 64)
    (hagg : ∀ k, fc.AggregatedAt k) {votes : List (Pubkey × SlotHashKey)}
    {fc' : HeaviestSubtreeForkChoice} {best : SlotHashKey}
    (h : fc.addVotes votes stakes = some (fc', best)) :
    fc.SameTree fc' ∧ (fc'.latestVotes.map Prod.fst).Nodup ∧
      (∀ k info, fc'.get k = some info →
        info.stakeVotedAt = fc'.latestVoteStake stakes k % 2 ^ 64) ∧
      ∀ k, fc'.AggregatedAt k := by
  unfold addVotes at h
  simp only [Option.bind_eq_bind, Option.bind_eq_some_iff, Option.pure_def,
    Option.some.injEq] at h
  obtain ⟨⟨fc₁, ops, observed⟩, hfold, fc₂, hprocess, best', -, hresult⟩ := h
  obtain rfl : fc₂ = fc' := (Prod.mk.inj hresult).1
  -- the votes leave the tree as it is and put the stake they move into the batch
  have hgen : Generated stakes fc fc₁ ops := ht.foldlM_generateStep votes
    ⟨rfl, rfl, hnodup, ⟨List.Pairwise.nil, by simp⟩, ⟨by simp, by simp⟩, by simp [stakeAt]⟩ hfold
  have hsame₁ := sameTree_of_forkInfos hgen.forkInfos hgen.root
  have hat₁ : ∀ k info, fc₁.get k = some info → info.stakeVotedAt < 2 ^ 64 := by
    intro k info hinfo
    rw [get_of_forkInfos hgen.forkInfos] at hinfo
    rw [hstake k info hinfo]
    exact Nat.mod_lt _ (by positivity)
  -- the batch then moves the stakes of the blocks and aggregates them again
  obtain ⟨hsame₂, hvotes₂, hagg₂, hstake₂⟩ := (hsame₁.tree ht).processUpdateOperations_spec
    hgen.wellFormed (hgen.covers.of_sameTree hsame₁)
    (fun k _ => aggregatedAt_of_forkInfos hgen.forkInfos hgen.root (hagg k)) hat₁ hprocess
  refine ⟨hsame₁.trans hsame₂, hvotes₂ ▸ hgen.nodup, fun k info' hinfo' => ?_, hagg₂⟩
  obtain ⟨hlt, info, hinfo, hcast⟩ := hstake₂ k info' hinfo'
  rw [get_of_forkInfos hgen.forkInfos] at hinfo
  rw [latestVoteStake_of_latestVotes hvotes₂]
  refine eq_of_cast_eq hlt (Nat.mod_lt _ (by positivity)) ?_
  rw [hcast, hstake k info hinfo, ZMod.natCast_mod, ZMod.natCast_mod]
  linear_combination -(hgen.stake k)

end HeaviestSubtreeForkChoice

end Solana.Consensus
