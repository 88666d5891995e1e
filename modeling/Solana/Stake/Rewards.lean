import Solana.Stake.State
import Solana.Vote.State
import Solana.Lib.FloorShare

/-! Inflation rewards paid over the stakes, within the budget
(`payValidatorRewards_within_budget`); a panicking `unwrap` is `none`. -/

namespace Solana.StakeProgram

open VoteProgram (VoteState)

/-- `PointValue`: lamports to split over points. -/
structure PointValue where
  rewards : ℕ
  points : ℕ

/-- One epoch of `calculate_stake_points_and_credits`: the stake's effective stake times
the credits it has not yet been paid for in that epoch. -/
def pointsStep (stake : Stake) (stakeHistory : Option StakeHistory) (creditsInStake : ℕ)
    (acc : ℕ × ℕ) (epochCredits : ℕ × ℕ × ℕ) : ℕ × ℕ :=
  let (points, newCreditsObserved) := acc
  let (epoch, finalEpochCredits, initialEpochCredits) := epochCredits
  let stakeAmount := stake.effectiveStake epoch stakeHistory
  let earnedCredits :=
    if creditsInStake < initialEpochCredits then finalEpochCredits - initialEpochCredits
    else if creditsInStake < finalEpochCredits then finalEpochCredits - newCreditsObserved
    else 0
  (points + stakeAmount * earnedCredits, max newCreditsObserved finalEpochCredits)

/-- `calculate_stake_points_and_credits`: the points a stake earned and the credits it
will have observed once paid. -/
def calculateStakePointsAndCredits (stake : Stake) (newVoteState : VoteState)
    (stakeHistory : Option StakeHistory) : ℕ × ℕ :=
  let creditsInStake := stake.creditsObserved
  if newVoteState.credits ≤ creditsInStake then (0, creditsInStake)
  else
    newVoteState.epochCredits.foldl (pointsStep stake stakeHistory creditsInStake)
      (0, creditsInStake)

/-- `calculate_stake_rewards`: the staker's and the voter's rewards and the new observed
credits, `none` for no payout; the outer `none` is a panic. -/
def calculateStakeRewards (rewardedEpoch : ℕ) (stake : Stake) (pointValue : PointValue)
    (voteState : VoteState) (stakeHistory : Option StakeHistory) : Option (Option (ℕ × ℕ × ℕ)) :=
  let (points, creditsObserved) := calculateStakePointsAndCredits stake voteState stakeHistory
  if pointValue.rewards = 0 ∨ stake.delegation.activationEpoch = rewardedEpoch then
    some (some (0, 0, creditsObserved))
  else if points = 0 then some none
  else if pointValue.points = 0 then some none
  else do
    let rewards ← MachineInt.checkedMul 128 points pointValue.rewards
    let rewards ← MachineInt.checkedDiv rewards pointValue.points
    let rewards ← MachineInt.tryFrom 64 rewards
    if rewards = 0 then pure none
    else
      let (voterRewards, stakerRewards, isSplit) := voteState.commissionSplit rewards
      if (voterRewards = 0 ∨ stakerRewards = 0) ∧ isSplit then pure none
      else pure (some (stakerRewards, voterRewards, creditsObserved))

/-- `redeem_stake_rewards`: the rewards, and the stake with its new observed credits and
the staker's rewards delegated. -/
def redeemStakeRewards (rewardedEpoch : ℕ) (stake : Stake) (pointValue : PointValue)
    (voteState : VoteState) (stakeHistory : Option StakeHistory) :
    Option (Option ((ℕ × ℕ) × Stake)) :=
  (calculateStakeRewards rewardedEpoch stake pointValue voteState stakeHistory).map
    (Option.map fun (stakersReward, votersReward, creditsObserved) =>
      ((stakersReward, votersReward),
        { stake with
          creditsObserved := creditsObserved
          delegation := { stake.delegation with
            stake := stake.delegation.stake + stakersReward } }))

/-- `redeem_rewards` on a stake account with `lamports`: the rewards, and the account's
lamports and state after them. -/
def redeemRewards (rewardedEpoch : ℕ) (stakeState : StakeState) (lamports : ℕ)
    (voteState : VoteState) (pointValue : PointValue) (stakeHistory : Option StakeHistory) :
    Option (Except InstructionError ((ℕ × ℕ) × ℕ × StakeState)) :=
  match stakeState with
  | .stake stakeMeta stake =>
    (redeemStakeRewards rewardedEpoch stake pointValue voteState stakeHistory).map fun
      | some ((stakersReward, votersReward), stake) =>
        match MachineInt.checkedAdd 64 lamports stakersReward with
        | some lamports => .ok ((stakersReward, votersReward), lamports, .stake stakeMeta stake)
        | none => .error .arithmeticOverflow
      | none => .error StakeError.noCreditsToRedeem.toInstructionError
  | _ => some (.error .invalidAccountData)

/-- `calculate_points`. -/
def calculatePoints (stakeState : StakeState) (voteState : VoteState)
    (stakeHistory : Option StakeHistory) : Except InstructionError ℕ :=
  match stakeState with
  | .stake _ stake => .ok (calculateStakePointsAndCredits stake voteState stakeHistory).1
  | _ => .error .invalidAccountData

/-! ## Paying the validators -/

/-- A stake delegation as the bank loads it: the stake account's key, state and lamports. -/
structure StakeDelegation where
  stakePubkey : Pubkey
  stakeState : StakeState
  lamports : ℕ

/-- `VoteWithStakeDelegations`: a vote account and the stakes delegated to it. -/
structure VoteWithStakeDelegations where
  votePubkey : Pubkey
  voteState : VoteState
  voteLamports : ℕ
  delegations : List StakeDelegation

/-- The points of one delegation as the bank sums them: an account that is not a stake
counts for none. -/
def delegationPoints (voteState : VoteState) (stakeHistory : Option StakeHistory)
    (delegation : StakeDelegation) : ℕ :=
  match calculatePoints delegation.stakeState voteState stakeHistory with
  | .ok points => points
  | .error _ => 0

def totalPoints (entries : List VoteWithStakeDelegations) (stakeHistory : Option StakeHistory) :
    ℕ :=
  (entries.map fun entry =>
    (entry.delegations.map (delegationPoints entry.voteState stakeHistory)).sum).sum

/-- The result of `redeem_rewards` for each delegation of a vote account. -/
def redeemDelegations (rewardedEpoch : ℕ) (pointValue : PointValue)
    (stakeHistory : Option StakeHistory) (entry : VoteWithStakeDelegations) :
    Option (List (Except InstructionError ((ℕ × ℕ) × ℕ × StakeState))) :=
  entry.delegations.mapM fun delegation =>
    redeemRewards rewardedEpoch delegation.stakeState delegation.lamports entry.voteState
      pointValue stakeHistory

/-- The staker's and the voter's rewards of a redemption that succeeded. -/
def redeemedRewards : Except InstructionError ((ℕ × ℕ) × ℕ × StakeState) → ℕ × ℕ
  | .ok (rewards, _) => rewards
  | .error _ => (0, 0)

/-- The lamports a vote account is paid: the voters' rewards of its delegations, summed
with `saturating_add`, if they fit in the account. -/
def voteReward (entry : VoteWithStakeDelegations)
    (redeemed : List (Except InstructionError ((ℕ × ℕ) × ℕ × StakeState))) : ℕ :=
  let voteRewards := redeemed.foldl
    (fun sum result => MachineInt.saturatingAdd 64 sum (redeemedRewards result).2) 0
  match MachineInt.checkedAdd 64 entry.voteLamports voteRewards with
  | some _ => voteRewards
  | none => 0

/-- The lamports paid to one vote account and the stakes delegated to it, as the rewards
it records: the stakers' rewards of the redemptions that succeeded and the vote
account's reward. -/
def paidRewards (entry : VoteWithStakeDelegations)
    (redeemed : List (Except InstructionError ((ℕ × ℕ) × ℕ × StakeState))) : ℕ :=
  (redeemed.map fun result => (redeemedRewards result).1).sum + voteReward entry redeemed

/-- `pay_validator_rewards_with_thread_pool`: the rewards recorded for each vote account
and its stakes, or `none` if a redemption panics. -/
def payValidatorRewards (rewardedEpoch rewards : ℕ) (entries : List VoteWithStakeDelegations)
    (stakeHistory : Option StakeHistory) : Option (List ℕ) :=
  let points := totalPoints entries stakeHistory
  if points = 0 then some []
  else
    entries.mapM fun entry => do
      let redeemed ← redeemDelegations rewardedEpoch ⟨rewards, points⟩ stakeHistory entry
      pure (paidRewards entry redeemed)

/-! ## The payout stays within the budget -/

section Budget

variable {rewardedEpoch : ℕ} {pointValue : PointValue} {stakeHistory : Option StakeHistory}

/-- A stake counted with `points` out of `pointValue.points`, under a budget whose product
with the points fits in `u128`, is paid without a panic, and at most its share. -/
theorem calculateStakeRewards_le {stake : Stake} {voteState : VoteState}
    (hpos : pointValue.points ≠ 0)
    (hle : (calculateStakePointsAndCredits stake voteState stakeHistory).1 ≤ pointValue.points)
    (hbudget : pointValue.points * pointValue.rewards < 2 ^ 128)
    (hrewards : pointValue.rewards < 2 ^ 64) :
    ∃ r, calculateStakeRewards rewardedEpoch stake pointValue voteState stakeHistory = some r ∧
      ∀ stakerRewards voterRewards creditsObserved,
        r = some (stakerRewards, voterRewards, creditsObserved) →
          stakerRewards + voterRewards ≤
            (calculateStakePointsAndCredits stake voteState stakeHistory).1 *
              pointValue.rewards / pointValue.points := by
  unfold calculateStakeRewards
  generalize calculateStakePointsAndCredits stake voteState stakeHistory = pc at hle ⊢
  obtain ⟨points, creditsObserved⟩ := pc
  dsimp only at hle ⊢
  have hmul : MachineInt.checkedMul 128 points pointValue.rewards =
      some (points * pointValue.rewards) :=
    MachineInt.checkedMul_eq_some.mpr
      ⟨lt_of_le_of_lt (Nat.mul_le_mul_right _ hle) hbudget, rfl⟩
  have hdiv : MachineInt.checkedDiv (points * pointValue.rewards) pointValue.points =
      some (points * pointValue.rewards / pointValue.points) :=
    MachineInt.checkedDiv_eq_some.mpr ⟨hpos, rfl⟩
  have hshare : points * pointValue.rewards / pointValue.points ≤ pointValue.rewards :=
    Nat.div_le_of_le_mul (Nat.mul_le_mul_right _ hle)
  have htry : MachineInt.tryFrom 64 (points * pointValue.rewards / pointValue.points) =
      some (points * pointValue.rewards / pointValue.points) :=
    MachineInt.tryFrom_eq_some.mpr ⟨lt_of_le_of_lt hshare hrewards, rfl⟩
  split_ifs with hforced hzero
  · refine ⟨_, rfl, ?_⟩
    intro s v c h
    cases h
    exact Nat.zero_le _
  · exact ⟨none, rfl, fun _ _ _ h => by cases h⟩
  · simp only [hmul, hdiv, htry, Option.bind_eq_bind, Option.bind_some]
    split_ifs with hnone hunfair
    · exact ⟨none, rfl, fun _ _ _ h => by cases h⟩
    · exact ⟨none, rfl, fun _ _ _ h => by cases h⟩
    · refine ⟨_, rfl, ?_⟩
      intro s v c h
      cases h
      rw [Nat.add_comm]
      exact voteState.commissionSplit_add_le _

/-- A redemption does not panic and pays at most the share of the points the bank
counted for the delegation. -/
theorem redeemRewards_le {voteState : VoteState} {delegation : StakeDelegation}
    (hpos : pointValue.points ≠ 0)
    (hle : delegationPoints voteState stakeHistory delegation ≤ pointValue.points)
    (hbudget : pointValue.points * pointValue.rewards < 2 ^ 128)
    (hrewards : pointValue.rewards < 2 ^ 64) :
    ∃ r, redeemRewards rewardedEpoch delegation.stakeState delegation.lamports voteState
        pointValue stakeHistory = some r ∧
      (redeemedRewards r).1 + (redeemedRewards r).2 ≤
        delegationPoints voteState stakeHistory delegation * pointValue.rewards /
          pointValue.points := by
  obtain ⟨stakePubkey, stakeState, lamports⟩ := delegation
  cases stakeState with
  | stake stakeMeta stake =>
    obtain ⟨r, hr, hbound⟩ := @calculateStakeRewards_le rewardedEpoch pointValue stakeHistory
      stake voteState hpos hle hbudget hrewards
    simp only [redeemRewards, redeemStakeRewards, hr, Option.map_some]
    refine ⟨_, rfl, ?_⟩
    cases r with
    | none => simp [redeemedRewards]
    | some rewards =>
      obtain ⟨stakerRewards, voterRewards, creditsObserved⟩ := rewards
      have hsum := hbound stakerRewards voterRewards creditsObserved rfl
      dsimp only [Option.map_some]
      split
      · exact hsum
      · simp [redeemedRewards]
  | uninitialized => exact ⟨_, rfl, by simp [redeemedRewards]⟩
  | initialized stakeMeta => exact ⟨_, rfl, by simp [redeemedRewards]⟩
  | rewardsPool => exact ⟨_, rfl, by simp [redeemedRewards]⟩

/-- A traversal whose every call succeeds with a value bounded by `h` succeeds, with
values summing to at most the sum of the bounds. -/
theorem mapM_sum_le {α β : Type} {f : α → Option β} {g : β → ℕ} {h : α → ℕ} :
    ∀ {l : List α}, (∀ a ∈ l, ∃ b, f a = some b ∧ g b ≤ h a) →
      ∃ bs, l.mapM f = some bs ∧ (bs.map g).sum ≤ (l.map h).sum
  | [], _ => ⟨[], rfl, le_rfl⟩
  | a :: l, hall => by
    obtain ⟨b, hb, hgb⟩ := hall a List.mem_cons_self
    obtain ⟨bs, hbs, hsum⟩ := mapM_sum_le fun a' ha' => hall a' (List.mem_cons_of_mem a ha')
    refine ⟨b :: bs, by simp [List.mapM_cons, hb, hbs], ?_⟩
    simp only [List.map_cons, List.sum_cons]
    omega

theorem foldl_saturatingAdd_le {α : Type} (v : α) (f : α → ℕ) :
    ∀ (l : List α) (acc : ℕ),
      l.foldl (fun sum a => MachineInt.saturatingAdd 64 sum (f a)) acc ≤ acc + (l.map f).sum
  | [], acc => by simp
  | a :: l, acc => by
    have hstep := MachineInt.saturatingAdd_le 64 acc (f a)
    have ih := foldl_saturatingAdd_le v f l (MachineInt.saturatingAdd 64 acc (f a))
    simp only [List.foldl_cons, List.map_cons, List.sum_cons]
    omega

/-- What a vote account and its stakes record is at most what their redemptions pay. -/
theorem paidRewards_le (entry : VoteWithStakeDelegations)
    (redeemed : List (Except InstructionError ((ℕ × ℕ) × ℕ × StakeState))) :
    paidRewards entry redeemed ≤
      (redeemed.map fun r => (redeemedRewards r).1 + (redeemedRewards r).2).sum := by
  have hvote : voteReward entry redeemed ≤ (redeemed.map fun r => (redeemedRewards r).2).sum := by
    have hfold := foldl_saturatingAdd_le (.error .invalidAccountData)
      (fun r => (redeemedRewards r).2) redeemed 0
    unfold voteReward
    dsimp only
    split
    · omega
    · exact Nat.zero_le _
  rw [paidRewards, List.sum_map_add]
  exact Nat.add_le_add_left hvote _

/-- The redemptions of one vote account's delegations do not panic, and pay at most the
shares of the points they were counted with. -/
theorem redeemDelegations_le {entry : VoteWithStakeDelegations} (hpos : pointValue.points ≠ 0)
    (hle : ∀ d ∈ entry.delegations,
      delegationPoints entry.voteState stakeHistory d ≤ pointValue.points)
    (hbudget : pointValue.points * pointValue.rewards < 2 ^ 128)
    (hrewards : pointValue.rewards < 2 ^ 64) :
    ∃ redeemed, redeemDelegations rewardedEpoch pointValue stakeHistory entry = some redeemed ∧
      (redeemed.map fun r => (redeemedRewards r).1 + (redeemedRewards r).2).sum ≤
        (entry.delegations.map fun d =>
          delegationPoints entry.voteState stakeHistory d * pointValue.rewards /
            pointValue.points).sum :=
  mapM_sum_le fun d hd => redeemRewards_le hpos (hle d hd) hbudget hrewards

end Budget

/-- The shares of every delegation's points add up to at most the budget. -/
theorem sum_shares_le (entries : List VoteWithStakeDelegations)
    (stakeHistory : Option StakeHistory) (rewards : ℕ) :
    (entries.map fun entry => (entry.delegations.map fun d =>
      delegationPoints entry.voteState stakeHistory d * rewards /
        totalPoints entries stakeHistory).sum).sum ≤ rewards :=
  FloorShare.sum_sum_mul_div_le entries (·.delegations)
    (fun entry => delegationPoints entry.voteState stakeHistory) rewards
    (totalPoints entries stakeHistory) le_rfl

/-- A delegation counts for at most the total points. -/
theorem delegationPoints_le_totalPoints {entries : List VoteWithStakeDelegations}
    {stakeHistory : Option StakeHistory} {entry : VoteWithStakeDelegations}
    (hentry : entry ∈ entries) {d : StakeDelegation} (hd : d ∈ entry.delegations) :
    delegationPoints entry.voteState stakeHistory d ≤ totalPoints entries stakeHistory :=
  calc delegationPoints entry.voteState stakeHistory d
      ≤ (entry.delegations.map (delegationPoints entry.voteState stakeHistory)).sum :=
        List.le_sum_of_mem (List.mem_map_of_mem hd)
    _ ≤ totalPoints entries stakeHistory :=
        List.le_sum_of_mem (List.mem_map_of_mem (f := fun entry =>
          (entry.delegations.map (delegationPoints entry.voteState stakeHistory)).sum) hentry)

/-- Inflation rewards stay within the budget: when the total points times the budget fit
in a `u128`, no redemption panics, the stakers' and voters' rewards of all stakes add up
to at most the budget, and so do the rewards the bank records as paid. -/
theorem payValidatorRewards_within_budget (rewardedEpoch rewards : ℕ)
    (entries : List VoteWithStakeDelegations) (stakeHistory : Option StakeHistory)
    (hrewards : rewards < 2 ^ 64) (hbudget : totalPoints entries stakeHistory * rewards < 2 ^ 128) :
    (∃ paid, payValidatorRewards rewardedEpoch rewards entries stakeHistory = some paid ∧
      paid.sum ≤ rewards) ∧
    (totalPoints entries stakeHistory ≠ 0 →
      ∃ redeemed, entries.mapM (redeemDelegations rewardedEpoch
          ⟨rewards, totalPoints entries stakeHistory⟩ stakeHistory) = some redeemed ∧
        (redeemed.map fun rs =>
          (rs.map fun r => (redeemedRewards r).1 + (redeemedRewards r).2).sum).sum ≤ rewards) := by
  by_cases hzero : totalPoints entries stakeHistory = 0
  · refine ⟨⟨[], by simp [payValidatorRewards, hzero], Nat.zero_le _⟩, fun h => absurd hzero h⟩
  have hentry : ∀ entry ∈ entries,
      ∃ redeemed, redeemDelegations rewardedEpoch ⟨rewards, totalPoints entries stakeHistory⟩
          stakeHistory entry = some redeemed ∧
        (redeemed.map fun r => (redeemedRewards r).1 + (redeemedRewards r).2).sum ≤
          (entry.delegations.map fun d => delegationPoints entry.voteState stakeHistory d *
            rewards / totalPoints entries stakeHistory).sum :=
    fun entry hentry => redeemDelegations_le hzero
      (fun d hd => delegationPoints_le_totalPoints hentry hd) hbudget hrewards
  have hshares := sum_shares_le entries stakeHistory rewards
  constructor
  · obtain ⟨paid, hpaid, hsum⟩ := mapM_sum_le (g := id) (l := entries)
      (f := fun entry => do
        let redeemed ← redeemDelegations rewardedEpoch ⟨rewards, totalPoints entries stakeHistory⟩
          stakeHistory entry
        pure (paidRewards entry redeemed)) fun entry hmem => by
      obtain ⟨redeemed, hredeemed, hle⟩ := hentry entry hmem
      exact ⟨paidRewards entry redeemed, by rw [hredeemed]; rfl,
        (paidRewards_le entry redeemed).trans hle⟩
    refine ⟨paid, by simpa [payValidatorRewards, hzero] using hpaid, ?_⟩
    rw [List.map_id] at hsum
    exact hsum.trans hshares
  · intro _
    obtain ⟨redeemed, hredeemed, hsum⟩ := mapM_sum_le hentry
    exact ⟨redeemed, hredeemed, hsum.trans hshares⟩

theorem payValidatorRewards_within_budget_oneStake :
    let entries : List VoteWithStakeDelegations :=
      [⟨7, { VoteState.default with epochCredits := [(1, 10, 0)], commission := 10 }, 100,
        [⟨1, .stake ⟨100, ⟨1, 1⟩, ⟨0, 0, 0⟩⟩ ⟨⟨7, 1000, 0, u64Max, 1 / 4⟩, 0⟩, 1100⟩]⟩]
    (∃ paid, payValidatorRewards 1 500 entries none = some paid ∧ paid.sum ≤ 500) ∧
    (totalPoints entries none ≠ 0 →
      ∃ redeemed, entries.mapM (redeemDelegations 1 ⟨500, totalPoints entries none⟩ none) =
          some redeemed ∧
        (redeemed.map fun rs =>
          (rs.map fun r => (redeemedRewards r).1 + (redeemedRewards r).2).sum).sum ≤ 500) :=
  payValidatorRewards_within_budget 1 500 _ none (by decide) (by decide +kernel)

end Solana.StakeProgram
