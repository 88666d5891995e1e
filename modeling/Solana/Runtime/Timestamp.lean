import Solana.Runtime.RentDistribution
import Solana.Sdk.EpochSchedule
import Solana.Lib.Map
import Solana.Lib.Duration
import Solana.Lib.WeightedMedian
import Mathlib

/-! `calculate_stake_weighted_timestamp` and its callers in `runtime/src/bank.rs`; `u64` and
`u128` arithmetic saturates where the source saturates, and `as u32` and `as i64` wrap. -/

namespace Solana.Runtime

open MachineInt

def maxAllowableDriftPercentage : ℕ := 50

def maxAllowableDriftPercentageFast : ℕ := 25

def maxAllowableDriftPercentageSlow : ℕ := 80

/-- `MaxAllowableDrift`: the percentages the estimate may run faster or slower than the
proof-of-history estimate. -/
structure MaxAllowableDrift where
  fast : ℕ
  slow : ℕ
  deriving DecidableEq, Repr

/-! ## The model -/

/-- A vote's timestamp moved on to `slot`: the slots since the vote, as `u32`, times the slot
duration, in whole seconds. -/
def timestampEstimate (slot slotDuration timestampSlot : ℕ) (timestamp : ℤ) : ℤ :=
  let offset := Duration.saturatingMul slotDuration (wrap 32 (slot - timestampSlot))
  saturatingAddSigned 64 timestamp (toSigned 64 (Duration.asSecs offset))

/-- One vote of the loop filling `stake_per_timestamp`: its voter's stake, `0` when the voter
has none, is added under its estimate and to the total. -/
def stakePerTimestampStep (stakes : List (Pubkey × ℕ)) (slot slotDuration : ℕ)
    (acc : List (ℤ × ℕ) × ℕ) (vote : Pubkey × ℕ × ℤ) : List (ℤ × ℕ) × ℕ :=
  let (stakePerTimestamp, totalStake) := acc
  let (votePubkey, timestampSlot, timestamp) := vote
  let estimate := timestampEstimate slot slotDuration timestampSlot timestamp
  let stake := (Map.get stakes votePubkey).getD 0
  (WeightedMedian.addWeight (saturatingAdd 128) stakePerTimestamp estimate stake,
    saturatingAdd 128 totalStake stake)

/-- The bound on the drift since the start of the epoch: an estimate further than the allowed
percentage from the proof-of-history offset is moved to that bound. -/
def boundEstimate (slot slotDuration : ℕ) (maxAllowableDrift : MaxAllowableDrift)
    (fixEstimateIntoU64 : Bool) (epochStartSlot : ℕ) (epochStartTimestamp estimate : ℤ) : ℤ :=
  let pohEstimateOffset := Duration.saturatingMul slotDuration (wrap 32 (slot - epochStartSlot))
  let estimateOffset := Duration.fromSecs
    (if fixEstimateIntoU64 then toUnsigned 64 estimate - toUnsigned 64 epochStartTimestamp
    else toUnsigned 64 (saturatingSubSigned 64 estimate epochStartTimestamp))
  let maxAllowableDriftFast := Duration.saturatingMul pohEstimateOffset maxAllowableDrift.fast / 100
  let maxAllowableDriftSlow := Duration.saturatingMul pohEstimateOffset maxAllowableDrift.slow / 100
  let pohEstimate := saturatingAddSigned 64 epochStartTimestamp
    (toSigned 64 (Duration.asSecs pohEstimateOffset))
  if pohEstimateOffset < estimateOffset ∧
      maxAllowableDriftSlow < estimateOffset - pohEstimateOffset then
    saturatingAddSigned 64 pohEstimate (toSigned 64 (Duration.asSecs maxAllowableDriftSlow))
  else if estimateOffset < pohEstimateOffset ∧
      maxAllowableDriftFast < pohEstimateOffset - estimateOffset then
    saturatingSubSigned 64 pohEstimate (toSigned 64 (Duration.asSecs maxAllowableDriftFast))
  else estimate

def calculateStakeWeightedTimestamp (uniqueTimestamps : List (Pubkey × ℕ × ℤ))
    (stakes : List (Pubkey × ℕ)) (slot slotDuration : ℕ)
    (epochStartTimestamp : Option (ℕ × ℤ)) (maxAllowableDrift : MaxAllowableDrift)
    (fixEstimateIntoU64 : Bool) : Option ℤ :=
  let (stakePerTimestamp, totalStake) :=
    uniqueTimestamps.foldl (stakePerTimestampStep stakes slot slotDuration) ([], 0)
  if totalStake = 0 then none
  else
    let estimate :=
      (WeightedMedian.firstAbove (saturatingAdd 128) (totalStake / 2) 0 stakePerTimestamp).getD 0
    some (match epochStartTimestamp with
      | none => estimate
      | some (epochStartSlot, epochStartTimestamp) =>
        boundEstimate slot slotDuration maxAllowableDrift fixEstimateIntoU64 epochStartSlot
          epochStartTimestamp estimate)

/-- The `Clock` sysvar as `update_clock` writes it: the fields programs read, and the
timestamp of the start of the epoch. -/
structure ClockSysvar where
  clock : Clock
  epochStartTimestamp : ℤ
  deriving DecidableEq, Repr

/-- What `update_clock` reads of a `Bank`: its slot and epoch schedule, the slot duration and
the genesis creation time, the clock sysvar it inherited from its parent, the slot
`warp_timestamp_again` was activated at, the vote accounts with their stakes (`HashMap`
entries in iteration order) and the vote stakes of each epoch. -/
structure ClockBank where
  slot : ℕ
  epochSchedule : EpochSchedule
  nsPerSlot : ℕ
  genesisCreationTime : ℤ
  clock : ClockSysvar
  warpTimestampAgain : Option ℕ
  voteAccounts : List (Pubkey × ℕ × VoteAccount)
  epochVoteAccounts : ℕ → Option (List (Pubkey × ℕ))

namespace ClockBank

def epoch (bank : ClockBank) : ℕ := bank.epochSchedule.getEpoch bank.slot

/-- `unix_timestamp_from_genesis`: the genesis time moved on by the slots since, with the
`u128` nanoseconds cast to `i64` and added with wrapping. -/
def unixTimestampFromGenesis (bank : ClockBank) : ℤ :=
  let offset := toSigned 64 (wrap 64 (wrap 128 (bank.slot * bank.nsPerSlot) / 1000000000))
  toSigned 64 (toUnsigned 64 (bank.genesisCreationTime + offset))

/-- The last timestamp of every deserializable vote state voted in the last epoch's worth
of slots, keyed by the vote account. -/
def recentTimestamps (bank : ClockBank) : List (Pubkey × ℕ × ℤ) :=
  bank.voteAccounts.filterMap fun (pubkey, _, account) =>
    account.voteState.bind fun voteState =>
      (checkedSub bank.slot voteState.lastTimestamp.slot).bind fun slotDelta =>
        if slotDelta ≤ bank.epochSchedule.slotsPerEpoch then
          some (pubkey, voteState.lastTimestamp.slot, voteState.lastTimestamp.timestamp)
        else none

def getTimestampEstimate (bank : ClockBank) (maxAllowableDrift : MaxAllowableDrift)
    (epochStartTimestamp : Option (ℕ × ℤ)) : Option ℤ :=
  let slotDuration := Duration.fromNanos (wrap 64 bank.nsPerSlot)
  (bank.epochVoteAccounts bank.epoch).bind fun stakes =>
    calculateStakeWeightedTimestamp bank.recentTimestamps stakes bank.slot slotDuration
      epochStartTimestamp maxAllowableDrift bank.warpTimestampAgain.isSome

/-- `update_clock`: the clock of the bank, from the estimate but never behind the parent's
timestamp; on an epoch boundary the epoch starts at the new timestamp, and slot `0` takes
the genesis time. -/
def updateClock (bank : ClockBank) (parentEpoch : Option ℕ) : ClockSysvar :=
  let epochStartTimestamp :=
    if bank.warpTimestampAgain = some bank.slot then none
    else
      let epoch := parentEpoch.getD bank.epoch
      some (bank.epochSchedule.getFirstSlotInEpoch epoch, bank.clock.epochStartTimestamp)
  let maxAllowableDrift : MaxAllowableDrift :=
    if bank.warpTimestampAgain.isSome then
      ⟨maxAllowableDriftPercentageFast, maxAllowableDriftPercentageSlow⟩
    else ⟨maxAllowableDriftPercentage, maxAllowableDriftPercentage⟩
  let ancestorTimestamp := bank.clock.clock.unixTimestamp
  let unixTimestamp :=
    match bank.getTimestampEstimate maxAllowableDrift epochStartTimestamp with
    | some timestampEstimate =>
      if timestampEstimate < ancestorTimestamp then ancestorTimestamp else timestampEstimate
    | none => ancestorTimestamp
  let epochStartTimestamp :=
    if parentEpoch.isSome ∧ parentEpoch ≠ some bank.epoch then unixTimestamp
    else bank.clock.epochStartTimestamp
  let (unixTimestamp, epochStartTimestamp) :=
    if bank.slot = 0 then (bank.unixTimestampFromGenesis, bank.unixTimestampFromGenesis)
    else (unixTimestamp, epochStartTimestamp)
  ⟨⟨bank.slot, bank.epoch, bank.epochSchedule.getLeaderScheduleEpoch bank.slot, unixTimestamp⟩,
    epochStartTimestamp⟩

end ClockBank

/-! ## What the estimate should be -/

/-- The stake of a voter, `0` for one without. -/
def stakeOf (stakes : List (Pubkey × ℕ)) (votePubkey : Pubkey) : ℕ :=
  (Map.get stakes votePubkey).getD 0

/-- A vote whose estimate at `slot` is its timestamp moved on by the whole seconds since,
with no cast wrapping and no sum saturating. -/
def EstimateFits (slot slotDuration : ℕ) (vote : Pubkey × ℕ × ℤ) : Prop :=
  slot - vote.2.1 < 2 ^ 32 ∧ 0 ≤ vote.2.2 ∧
    vote.2.2 + ((slot - vote.2.1) * slotDuration / Duration.nanosPerSec : ℕ) < 2 ^ 63

instance (slot slotDuration : ℕ) : DecidablePred (EstimateFits slot slotDuration) :=
  fun _ => inferInstanceAs (Decidable (_ ∧ _))

/-- Every vote's timestamp moved on to `slot` by the whole seconds since, with its voter's
stake. -/
def voteEstimates (stakes : List (Pubkey × ℕ)) (slot slotDuration : ℕ)
    (uniqueTimestamps : List (Pubkey × ℕ × ℤ)) : List (ℤ × ℕ) :=
  uniqueTimestamps.map fun vote =>
    (vote.2.2 + ((slot - vote.2.1) * slotDuration / Duration.nanosPerSec : ℕ),
      stakeOf stakes vote.1)

/-- `clamp(estimate, t0 + D - D * fast / 100, t0 + D + D * slow / 100)` for the `elapsed`
seconds `D` since the epoch started at `t0`. -/
def driftClamp (estimate epochStartTimestamp : ℤ) (elapsed : ℚ)
    (maxAllowableDrift : MaxAllowableDrift) : ℚ :=
  max (epochStartTimestamp + elapsed - elapsed * maxAllowableDrift.fast / 100)
    (min estimate (epochStartTimestamp + elapsed + elapsed * maxAllowableDrift.slow / 100))

/-- What keeps the bound from a start of the epoch exact: time has passed since the start,
within the slots a `u32` holds, the epoch started at a non-negative time below `2 ^ 62`, the
fast bound is less than the whole elapsed time, and the slow target lies within `2 ^ 62`
seconds of the start. -/
def DriftFits (slot slotDuration epochStartSlot : ℕ) (epochStartTimestamp : ℤ)
    (maxAllowableDrift : MaxAllowableDrift) : Prop :=
  0 < (slot - epochStartSlot) * slotDuration ∧ slot - epochStartSlot < 2 ^ 32 ∧
    0 ≤ epochStartTimestamp ∧ epochStartTimestamp < 2 ^ 62 ∧ maxAllowableDrift.fast < 100 ∧
    (slot - epochStartSlot) * slotDuration * (100 + maxAllowableDrift.slow) ≤
      2 ^ 62 * Duration.nanosPerSec

instance (slot slotDuration epochStartSlot : ℕ) (epochStartTimestamp : ℤ)
    (maxAllowableDrift : MaxAllowableDrift) :
    Decidable (DriftFits slot slotDuration epochStartSlot epochStartTimestamp maxAllowableDrift) :=
  inferInstanceAs (Decidable (_ ∧ _))

/-- The bound with the fix in force when nothing wraps or saturates: the offsets compared in
nanoseconds, the targets in whole seconds. -/
def exactBound (elapsed : ℕ) (maxAllowableDrift : MaxAllowableDrift)
    (epochStartTimestamp estimate : ℤ) : ℤ :=
  let estimateOffset := (estimate - epochStartTimestamp).toNat * Duration.nanosPerSec
  let fast := elapsed * maxAllowableDrift.fast / 100
  let slow := elapsed * maxAllowableDrift.slow / 100
  if elapsed < estimateOffset ∧ slow < estimateOffset - elapsed then
    epochStartTimestamp + (elapsed / Duration.nanosPerSec : ℕ) +
      (slow / Duration.nanosPerSec : ℕ)
  else if estimateOffset < elapsed ∧ fast < elapsed - estimateOffset then
    epochStartTimestamp + (elapsed / Duration.nanosPerSec : ℕ) -
      (fast / Duration.nanosPerSec : ℕ)
  else estimate

/-! ## The estimates -/

theorem timestampEstimate_eq {slot slotDuration : ℕ} {vote : Pubkey × ℕ × ℤ}
    (hfits : EstimateFits slot slotDuration vote) :
    timestampEstimate slot slotDuration vote.2.1 vote.2.2 =
      vote.2.2 + ((slot - vote.2.1) * slotDuration / Duration.nanosPerSec : ℕ) := by
  obtain ⟨h32, hnonneg, hfit⟩ := hfits
  unfold Duration.nanosPerSec at hfit ⊢
  have hsecs : (slot - vote.2.1) * slotDuration / 1000000000 < 2 ^ 63 := by omega
  have hprod : slotDuration * (slot - vote.2.1) ≤ Duration.max := by
    rw [Nat.mul_comm]
    unfold Duration.max Duration.nanosPerSec
    omega
  rw [timestampEstimate, wrap_of_lt h32, Duration.saturatingMul_of_le hprod, Duration.asSecs,
    Duration.nanosPerSec, Nat.mul_comm slotDuration, toSigned_of_lt (by simpa using hsecs),
    saturatingAddSigned_of_mem (by omega) (by omega)]

/-- The votes as the loop weighs them: the estimate the code computes, with the stake. -/
def weighedVotes (stakes : List (Pubkey × ℕ)) (slot slotDuration : ℕ)
    (uniqueTimestamps : List (Pubkey × ℕ × ℤ)) : List (ℤ × ℕ) :=
  uniqueTimestamps.map fun vote =>
    (timestampEstimate slot slotDuration vote.2.1 vote.2.2, stakeOf stakes vote.1)

theorem weighedVotes_eq {stakes : List (Pubkey × ℕ)} {slot slotDuration : ℕ}
    {uniqueTimestamps : List (Pubkey × ℕ × ℤ)}
    (hfits : ∀ vote ∈ uniqueTimestamps, EstimateFits slot slotDuration vote) :
    weighedVotes stakes slot slotDuration uniqueTimestamps =
      voteEstimates stakes slot slotDuration uniqueTimestamps :=
  List.map_congr_left fun vote hvote => by rw [timestampEstimate_eq (hfits vote hvote)]

/-- The loop builds the stake map of the weighed votes and sums their stakes. -/
theorem foldl_stakePerTimestampStep (stakes : List (Pubkey × ℕ)) (slot slotDuration : ℕ)
    (uniqueTimestamps : List (Pubkey × ℕ × ℤ)) (stakePerTimestamp : List (ℤ × ℕ))
    (totalStake : ℕ) :
    uniqueTimestamps.foldl (stakePerTimestampStep stakes slot slotDuration)
        (stakePerTimestamp, totalStake) =
      ((weighedVotes stakes slot slotDuration uniqueTimestamps).foldl
          (fun m vote => WeightedMedian.addWeight (saturatingAdd 128) m vote.1 vote.2)
          stakePerTimestamp,
        ((weighedVotes stakes slot slotDuration uniqueTimestamps).map Prod.snd).foldl
          (saturatingAdd 128) totalStake) := by
  induction uniqueTimestamps generalizing stakePerTimestamp totalStake with
  | nil => rfl
  | cons vote uniqueTimestamps ih =>
    rw [List.foldl_cons, weighedVotes, List.map_cons, List.foldl_cons, List.map_cons,
      List.foldl_cons, ← weighedVotes, ← ih]
    rfl

theorem calculateStakeWeightedTimestamp_eq (uniqueTimestamps : List (Pubkey × ℕ × ℤ))
    (stakes : List (Pubkey × ℕ)) (slot slotDuration : ℕ) (epochStartTimestamp : Option (ℕ × ℤ))
    (maxAllowableDrift : MaxAllowableDrift) (fixEstimateIntoU64 : Bool) :
    let votes := weighedVotes stakes slot slotDuration uniqueTimestamps
    let totalStake := (votes.map Prod.snd).foldl (saturatingAdd 128) 0
    calculateStakeWeightedTimestamp uniqueTimestamps stakes slot slotDuration epochStartTimestamp
        maxAllowableDrift fixEstimateIntoU64 =
      if totalStake = 0 then none
      else
        let estimate := (WeightedMedian.firstAbove (saturatingAdd 128) (totalStake / 2) 0
          (WeightedMedian.weightMap (saturatingAdd 128) votes)).getD 0
        some (match epochStartTimestamp with
          | none => estimate
          | some (epochStartSlot, epochStartTimestamp) =>
            boundEstimate slot slotDuration maxAllowableDrift fixEstimateIntoU64 epochStartSlot
              epochStartTimestamp estimate) := by
  intro votes totalStake
  rw [calculateStakeWeightedTimestamp, foldl_stakePerTimestampStep]
  rfl

/-- Without any stake behind the votes there is no estimate, and otherwise there is one. -/
theorem calculateStakeWeightedTimestamp_eq_none_iff (uniqueTimestamps : List (Pubkey × ℕ × ℤ))
    (stakes : List (Pubkey × ℕ)) (slot slotDuration : ℕ) (epochStartTimestamp : Option (ℕ × ℤ))
    (maxAllowableDrift : MaxAllowableDrift) (fixEstimateIntoU64 : Bool) :
    calculateStakeWeightedTimestamp uniqueTimestamps stakes slot slotDuration epochStartTimestamp
        maxAllowableDrift fixEstimateIntoU64 = none ↔
      WeightedMedian.total (voteEstimates stakes slot slotDuration uniqueTimestamps) = 0 := by
  have htotal : WeightedMedian.total (voteEstimates stakes slot slotDuration uniqueTimestamps) =
      ((weighedVotes stakes slot slotDuration uniqueTimestamps).map Prod.snd).sum := by
    simp only [WeightedMedian.total, voteEstimates, weighedVotes, List.map_map]
    rfl
  have hzero : ((weighedVotes stakes slot slotDuration uniqueTimestamps).map Prod.snd).foldl
        (saturatingAdd 128) 0 = 0 ↔
      ((weighedVotes stakes slot slotDuration uniqueTimestamps).map Prod.snd).sum = 0 := by
    rw [foldl_saturatingAdd_eq_zero_iff (by decide), Nat.zero_add]
  rw [calculateStakeWeightedTimestamp_eq, htotal, ← hzero]
  split <;> simp_all

theorem mem_voteEstimates_bounds {stakes : List (Pubkey × ℕ)} {slot slotDuration : ℕ}
    {uniqueTimestamps : List (Pubkey × ℕ × ℤ)}
    (hfits : ∀ vote ∈ uniqueTimestamps, EstimateFits slot slotDuration vote) {entry : ℤ × ℕ}
    (hentry : entry ∈ voteEstimates stakes slot slotDuration uniqueTimestamps) :
    0 ≤ entry.1 ∧ entry.1 < 2 ^ 63 := by
  obtain ⟨vote, hvote, rfl⟩ := List.mem_map.mp hentry
  obtain ⟨-, hnonneg, hfit⟩ := hfits vote hvote
  exact ⟨add_nonneg hnonneg (Int.natCast_nonneg _), hfit⟩

/-- With every estimate exact and the stakes summing below `2 ^ 128`, the running sums of the
`u128` map and the total never saturate, so the estimate the scan finds is a stake-weighted
median of the votes. -/
theorem calculateStakeWeightedTimestamp_median {uniqueTimestamps : List (Pubkey × ℕ × ℤ)}
    {stakes : List (Pubkey × ℕ)} {slot slotDuration : ℕ}
    (epochStartTimestamp : Option (ℕ × ℤ)) (maxAllowableDrift : MaxAllowableDrift)
    (fixEstimateIntoU64 : Bool)
    (hfits : ∀ vote ∈ uniqueTimestamps, EstimateFits slot slotDuration vote)
    (hstake : WeightedMedian.total (voteEstimates stakes slot slotDuration uniqueTimestamps) <
      2 ^ 128)
    (hpos : 0 < WeightedMedian.total (voteEstimates stakes slot slotDuration uniqueTimestamps)) :
    let votes := voteEstimates stakes slot slotDuration uniqueTimestamps
    ∃ median,
      calculateStakeWeightedTimestamp uniqueTimestamps stakes slot slotDuration
          epochStartTimestamp maxAllowableDrift fixEstimateIntoU64 =
        some (match epochStartTimestamp with
          | none => median
          | some (epochStartSlot, epochStartTimestamp) =>
            boundEstimate slot slotDuration maxAllowableDrift fixEstimateIntoU64 epochStartSlot
              epochStartTimestamp median) ∧
      WeightedMedian.weight (· < median) votes ≤ WeightedMedian.total votes / 2 ∧
      WeightedMedian.total votes / 2 < WeightedMedian.weight (· ≤ median) votes := by
  intro votes
  change WeightedMedian.total votes < 2 ^ 128 at hstake
  change 0 < WeightedMedian.total votes at hpos
  have hadd : ∀ a b, a + b ≤ 2 ^ 128 - 1 → saturatingAdd 128 a b = a + b :=
    fun a b h => saturatingAdd_of_lt (by omega)
  have htotal : (votes.map Prod.snd).foldl (saturatingAdd 128) 0 = WeightedMedian.total votes := by
    rw [foldl_saturatingAdd_of_lt _ (by rw [Nat.zero_add]; exact hstake), Nat.zero_add]
    rfl
  have hmap : WeightedMedian.weightMap (saturatingAdd 128) votes =
      WeightedMedian.weightMap (· + ·) votes :=
    WeightedMedian.weightMap_congr hadd (by omega)
  have hscan : WeightedMedian.firstAbove (saturatingAdd 128) (WeightedMedian.total votes / 2) 0
        (WeightedMedian.weightMap (· + ·) votes) =
      WeightedMedian.firstAbove (· + ·) (WeightedMedian.total votes / 2) 0
        (WeightedMedian.weightMap (· + ·) votes) :=
    WeightedMedian.firstAbove_congr hadd (by rw [WeightedMedian.total_weightMap]; omega)
  obtain ⟨median, hmedian, hbelow, hat⟩ := WeightedMedian.firstAbove_median hpos
  refine ⟨median, ?_, hbelow, hat⟩
  simp only [calculateStakeWeightedTimestamp_eq, weighedVotes_eq hfits]
  rw [htotal, if_neg (Nat.pos_iff_ne_zero.mp hpos), hmap, hscan, hmedian, Option.getD_some]

/-! ## The bound -/

/-- With the fix in force and a start of the epoch that fits, the bound of the code compares
the exact offsets and moves an estimate out of range to the whole seconds of its target. -/
theorem boundEstimate_eq_exactBound {slot slotDuration epochStartSlot : ℕ}
    {epochStartTimestamp estimate : ℤ} {maxAllowableDrift : MaxAllowableDrift}
    (hfits : DriftFits slot slotDuration epochStartSlot epochStartTimestamp maxAllowableDrift)
    (hnonneg : 0 ≤ estimate) (hlt : estimate < 2 ^ 63) :
    boundEstimate slot slotDuration maxAllowableDrift true epochStartSlot epochStartTimestamp
        estimate =
      exactBound ((slot - epochStartSlot) * slotDuration) maxAllowableDrift epochStartTimestamp
        estimate := by
  obtain ⟨-, h32, hstart, hstart', hfast, hspan⟩ := hfits
  set elapsed := (slot - epochStartSlot) * slotDuration with helapsed
  have hfastMul : elapsed * maxAllowableDrift.fast ≤ elapsed * 100 :=
    Nat.mul_le_mul_left _ hfast.le
  rw [Nat.mul_add] at hspan
  have hmax : ∀ d, d ≤ 2 ^ 62 * Duration.nanosPerSec → d ≤ Duration.max := fun d hd => by
    unfold Duration.max Duration.nanosPerSec at *
    omega
  have hpohOffset : Duration.saturatingMul slotDuration (wrap 32 (slot - epochStartSlot)) =
      elapsed := by
    rw [wrap_of_lt h32, Duration.saturatingMul_of_le (hmax _ (by rw [Nat.mul_comm]; omega)),
      Nat.mul_comm]
  have hfastOffset : Duration.saturatingMul elapsed maxAllowableDrift.fast =
      elapsed * maxAllowableDrift.fast :=
    Duration.saturatingMul_of_le (hmax _ (by omega))
  have hslowOffset : Duration.saturatingMul elapsed maxAllowableDrift.slow =
      elapsed * maxAllowableDrift.slow :=
    Duration.saturatingMul_of_le (hmax _ (by omega))
  have hestimateOffset :
      Duration.fromSecs (toUnsigned 64 estimate - toUnsigned 64 epochStartTimestamp) =
        (estimate - epochStartTimestamp).toNat * Duration.nanosPerSec := by
    rw [toUnsigned_of_lt hnonneg (by omega), toUnsigned_of_lt hstart (by omega), Duration.fromSecs]
    congr 1
    omega
  unfold Duration.nanosPerSec at hspan
  have hpoh : saturatingAddSigned 64 epochStartTimestamp (toSigned 64 (Duration.asSecs elapsed)) =
      epochStartTimestamp + (elapsed / Duration.nanosPerSec : ℕ) := by
    unfold Duration.asSecs Duration.nanosPerSec
    rw [toSigned_of_lt (by norm_num; omega), saturatingAddSigned_of_mem (by omega) (by omega)]
  have hslow : saturatingAddSigned 64 (epochStartTimestamp + (elapsed / Duration.nanosPerSec : ℕ))
        (toSigned 64 (Duration.asSecs (elapsed * maxAllowableDrift.slow / 100))) =
      epochStartTimestamp + (elapsed / Duration.nanosPerSec : ℕ) +
        (elapsed * maxAllowableDrift.slow / 100 / Duration.nanosPerSec : ℕ) := by
    unfold Duration.asSecs Duration.nanosPerSec
    rw [toSigned_of_lt (by norm_num; omega), saturatingAddSigned_of_mem (by omega) (by omega)]
  have hfast : saturatingSubSigned 64 (epochStartTimestamp + (elapsed / Duration.nanosPerSec : ℕ))
        (toSigned 64 (Duration.asSecs (elapsed * maxAllowableDrift.fast / 100))) =
      epochStartTimestamp + (elapsed / Duration.nanosPerSec : ℕ) -
        (elapsed * maxAllowableDrift.fast / 100 / Duration.nanosPerSec : ℕ) := by
    unfold Duration.asSecs Duration.nanosPerSec
    rw [toSigned_of_lt (by norm_num; omega), saturatingSubSigned_of_mem (by omega) (by omega)]
  simp only [boundEstimate, hpohOffset, hestimateOffset, hfastOffset, hslowOffset, hpoh, hslow,
    hfast, ↓reduceIte, exactBound]

/-- A quotient of naturals is the quotient in `ℚ` rounded down. -/
theorem cast_div_bounds (a b : ℕ) : ((a / b : ℕ) : ℚ) ≤ a / b ∧ (a : ℚ) / b < (a / b : ℕ) + 1 := by
  rw [← Nat.floor_div_eq_div (K := ℚ)]
  exact ⟨Nat.floor_le (by positivity), Nat.lt_floor_add_one _⟩

/-- The exact bound is within two seconds of the estimate clamped to the drift allowed over
the elapsed time: each target is rounded down to whole seconds, the slow one twice. -/
theorem abs_exactBound_sub_driftClamp_lt {elapsed : ℕ} {maxAllowableDrift : MaxAllowableDrift}
    {epochStartTimestamp estimate : ℤ} (helapsed : 0 < elapsed)
    (hfast : maxAllowableDrift.fast < 100) :
    |(exactBound elapsed maxAllowableDrift epochStartTimestamp estimate : ℚ) -
      driftClamp estimate epochStartTimestamp ((elapsed : ℚ) / Duration.nanosPerSec)
        maxAllowableDrift| < 2 := by
  unfold exactBound driftClamp Duration.nanosPerSec
  dsimp only
  rw [Nat.div_div_eq_div_mul, Nat.div_div_eq_div_mul]
  set fast := maxAllowableDrift.fast
  set slow := maxAllowableDrift.slow
  have hfastLt : elapsed * fast / 100 < elapsed := by
    have : elapsed * fast ≤ elapsed * 99 := Nat.mul_le_mul_left _ (by omega)
    omega
  have hfastPos : (0 : ℚ) ≤ elapsed * fast := by positivity
  have hslowPos : (0 : ℚ) ≤ elapsed * slow := by positivity
  obtain ⟨hsecs, hsecs'⟩ := cast_div_bounds elapsed 1000000000
  obtain ⟨hfastSecs, hfastSecs'⟩ := cast_div_bounds (elapsed * fast) (100 * 1000000000)
  obtain ⟨hslowSecs, hslowSecs'⟩ := cast_div_bounds (elapsed * slow) (100 * 1000000000)
  obtain ⟨hfastDrift, hfastDrift'⟩ := cast_div_bounds (elapsed * fast) 100
  obtain ⟨hslowDrift, hslowDrift'⟩ := cast_div_bounds (elapsed * slow) 100
  generalize elapsed / 1000000000 = secs at *
  generalize elapsed * fast / (100 * 1000000000) = fastSecs at *
  generalize elapsed * slow / (100 * 1000000000) = slowSecs at *
  generalize elapsed * fast / 100 = fastDrift at *
  generalize elapsed * slow / 100 = slowDrift at *
  push_cast at *
  split_ifs with hslowBranch hfastBranch
  · have hahead : (elapsed : ℤ) + slowDrift + 1 ≤ (estimate - epochStartTimestamp) * 1000000000 := by
      omega
    have hahead' := (Int.cast_le (R := ℚ)).mpr hahead
    push_cast at hahead'
    rw [min_eq_right (by linarith), max_eq_right (by linarith), abs_sub_lt_iff]
    constructor <;> linarith
  · have hbehind : (estimate - epochStartTimestamp) * 1000000000 + fastDrift + 1 ≤ elapsed := by
      omega
    have hbehind' := (Int.cast_le (R := ℚ)).mpr hbehind
    push_cast at hbehind'
    rw [max_eq_left ((min_le_left _ _).trans (by linarith)), abs_sub_lt_iff]
    constructor <;> linarith
  · have hwithin : (elapsed : ℤ) ≤ (estimate - epochStartTimestamp) * 1000000000 + fastDrift ∧
        (estimate - epochStartTimestamp) * 1000000000 ≤ elapsed + slowDrift := by
      omega
    have hlow := (Int.cast_le (R := ℚ)).mpr hwithin.1
    have hhigh := (Int.cast_le (R := ℚ)).mpr hwithin.2
    push_cast at hlow hhigh
    rw [min_eq_left (by linarith), max_eq_right (by linarith), sub_self, abs_zero]
    norm_num

/-! ## The stake-weighted timestamp -/

theorem calculateStakeWeightedTimestamp_bounded_median
    (uniqueTimestamps : List (Pubkey × ℕ × ℤ)) (stakes : List (Pubkey × ℕ))
    (slot slotDuration : ℕ) (epochStartTimestamp : Option (ℕ × ℤ))
    (maxAllowableDrift : MaxAllowableDrift) (fixEstimateIntoU64 : Bool)
    (hfits : ∀ vote ∈ uniqueTimestamps, EstimateFits slot slotDuration vote)
    (hstake : WeightedMedian.total (voteEstimates stakes slot slotDuration uniqueTimestamps) <
      2 ^ 128) :
    let votes := voteEstimates stakes slot slotDuration uniqueTimestamps
    let totalStake := WeightedMedian.total votes
    let timestamp := calculateStakeWeightedTimestamp uniqueTimestamps stakes slot slotDuration
      epochStartTimestamp maxAllowableDrift fixEstimateIntoU64
    (timestamp = none ↔ totalStake = 0) ∧
    (0 < totalStake → ∃ median : ℤ,
      WeightedMedian.weight (· < median) votes ≤ totalStake / 2 ∧
      totalStake / 2 < WeightedMedian.weight (· ≤ median) votes ∧
      (∀ part, part.Sublist votes → totalStake / 2 < WeightedMedian.total part →
        (∃ vote ∈ part, vote.1 ≤ median) ∧ ∃ vote ∈ part, median ≤ vote.1) ∧
      (epochStartTimestamp = none → timestamp = some median) ∧
      ∀ epochStartSlot start, epochStartTimestamp = some (epochStartSlot, start) →
        fixEstimateIntoU64 = true →
        DriftFits slot slotDuration epochStartSlot start maxAllowableDrift →
        ∃ result, timestamp = some result ∧
          |(result : ℚ) - driftClamp median start
            (((slot - epochStartSlot) * slotDuration : ℕ) / Duration.nanosPerSec)
            maxAllowableDrift| < 2) := by
  intro votes totalStake timestamp
  refine ⟨calculateStakeWeightedTimestamp_eq_none_iff uniqueTimestamps stakes slot slotDuration
    epochStartTimestamp maxAllowableDrift fixEstimateIntoU64, fun hpos => ?_⟩
  obtain ⟨median, hrun, hbelow, hat⟩ := calculateStakeWeightedTimestamp_median epochStartTimestamp
    maxAllowableDrift fixEstimateIntoU64 hfits hstake hpos
  have hbracket : ∀ part, part.Sublist votes → totalStake / 2 < WeightedMedian.total part →
      (∃ vote ∈ part, vote.1 ≤ median) ∧ ∃ vote ∈ part, median ≤ vote.1 :=
    fun part hpart hhalf => ⟨WeightedMedian.exists_le_of_half_lt hpart hat hhalf,
      WeightedMedian.exists_ge_of_half_lt hpart hbelow hhalf⟩
  refine ⟨median, hbelow, hat, hbracket, fun hnone => by subst hnone; exact hrun, ?_⟩
  intro epochStartSlot start hstart hfix hdrift
  obtain ⟨⟨low, hlow, hlowle⟩, ⟨high, hhigh, hgehigh⟩⟩ :=
    hbracket votes (List.Sublist.refl votes) (by omega)
  have hnonneg := (mem_voteEstimates_bounds hfits hlow).1
  have hlt := (mem_voteEstimates_bounds hfits hhigh).2
  refine ⟨_, hrun, ?_⟩
  subst hstart hfix
  dsimp only
  rw [boundEstimate_eq_exactBound hdrift (by omega) (by omega)]
  exact abs_exactBound_sub_driftClamp_lt hdrift.1 hdrift.2.2.2.2.1

theorem calculateStakeWeightedTimestamp_bounded_median_threeVotes :
    let uniqueTimestamps : List (Pubkey × ℕ × ℤ) :=
      [(1, 90, 1000), (2, 95, 1003), (3, 100, 1010)]
    let stakes : List (Pubkey × ℕ) := [(1, 30), (2, 20), (3, 40)]
    (∀ vote ∈ uniqueTimestamps, EstimateFits 100 400000000 vote) ∧
      WeightedMedian.total (voteEstimates stakes 100 400000000 uniqueTimestamps) < 2 ^ 128 ∧
      DriftFits 100 400000000 50 990 ⟨25, 80⟩ ∧
      ∃ median result, calculateStakeWeightedTimestamp uniqueTimestamps stakes 100 400000000
          (some (50, 990)) ⟨25, 80⟩ true = some result ∧
        |(result : ℚ) - driftClamp median 990 (((100 - 50) * 400000000 : ℕ) / Duration.nanosPerSec)
          ⟨25, 80⟩| < 2 := by
  intro uniqueTimestamps stakes
  have hfits : ∀ vote ∈ uniqueTimestamps, EstimateFits 100 400000000 vote := by decide
  have hstake : WeightedMedian.total (voteEstimates stakes 100 400000000 uniqueTimestamps) <
      2 ^ 128 := by decide
  have hdrift : DriftFits 100 400000000 50 990 ⟨25, 80⟩ := by decide
  obtain ⟨-, hmedian⟩ := calculateStakeWeightedTimestamp_bounded_median uniqueTimestamps stakes
    100 400000000 (some (50, 990)) ⟨25, 80⟩ true hfits hstake
  obtain ⟨median, -, -, -, -, hbound⟩ := hmedian (by decide)
  exact ⟨hfits, hstake, hdrift, median, hbound 50 990 rfl rfl hdrift⟩

end Solana.Runtime
