import Solana.Sdk.Basic
import Solana.Lib.Loop
import Solana.Lib.BinarySearch

/-! The state of a stake account and its effective stake at an epoch; the `f64` shares are the
parameter `StakeShares`, computed exactly in `ℚ` by `exactShares`. -/

namespace Solana.StakeProgram

inductive StakeError where
  | noCreditsToRedeem
  | lockupInForce
  | alreadyDeactivated
  | tooSoonToRedelegate
  | insufficientStake
  | mergeTransientStake
  | mergeMismatch
  | custodianMissing
  | custodianSignatureMissing
  deriving DecidableEq, Repr

/-- A `StakeError` reaches the runtime as `InstructionError::Custom` of its index. -/
def StakeError.toInstructionError (e : StakeError) : InstructionError := .custom e.ctorIdx

/-! ## Stake history -/

/-- An entry of the stake history, also the activation status of one delegation. -/
structure StakeHistoryEntry where
  effective : ℕ
  activating : ℕ
  deactivating : ℕ
  deriving DecidableEq, Repr

namespace StakeHistoryEntry

def withEffective (effective : ℕ) : StakeHistoryEntry := ⟨effective, 0, 0⟩

def withEffectiveAndActivating (effective activating : ℕ) : StakeHistoryEntry :=
  ⟨effective, activating, 0⟩

def withDeactivating (deactivating : ℕ) : StakeHistoryEntry := ⟨deactivating, 0, deactivating⟩

def default : StakeHistoryEntry := ⟨0, 0, 0⟩

end StakeHistoryEntry

/-- The stake history: cluster stake by epoch, newest first. -/
def StakeHistory := List (ℕ × StakeHistoryEntry)

/-- `StakeHistory::get`: a binary search of the epochs, kept newest first. -/
def StakeHistory.get (history : StakeHistory) (epoch : ℕ) : Option StakeHistoryEntry :=
  let entries : List (ℕ × StakeHistoryEntry) := history
  ((BinarySearch.binarySearchBy (fun probe => compare epoch probe.1) entries).toOption.bind
    fun index => entries[index]?).map (·.2)

/-! ## Delegations -/

structure Delegation where
  voterPubkey : Pubkey
  stake : ℕ
  activationEpoch : ℕ
  deactivationEpoch : ℕ
  warmupCooldownRate : ℚ
  deriving DecidableEq

/-- The two `u64` shares the code computes in `f64` and truncates with `as u64`, as functions
of what they read: the share of the cluster's newly effective stake for the stake still
activating (`weight * newly_effective_cluster_stake`) and the share of its newly deactivated
stake for the stake still effective, each with the cluster's stake at the epoch before. -/
structure StakeShares where
  newlyEffective : ℕ → StakeHistoryEntry → ℕ
  newlyNotEffective : ℕ → StakeHistoryEntry → ℕ

/-- Where a loop over the stake history stands at the top of a round. -/
structure LoopState where
  prevEpoch : ℕ
  prevClusterStake : StakeHistoryEntry
  currentEffectiveStake : ℕ
  deriving DecidableEq

namespace Delegation

def isBootstrap (d : Delegation) : Bool := d.activationEpoch = u64Max

/-- The shares computed exactly in `ℚ` and truncated as `as u64` truncates. -/
def exactShares (d : Delegation) : StakeShares where
  newlyEffective remainingActivatingStake prevClusterStake :=
    asU64 ((remainingActivatingStake : ℚ) / prevClusterStake.activating *
      (prevClusterStake.effective * d.warmupCooldownRate))
  newlyNotEffective currentEffectiveStake prevClusterStake :=
    asU64 ((currentEffectiveStake : ℚ) / prevClusterStake.deactivating *
      (prevClusterStake.effective * d.warmupCooldownRate))

variable (d : Delegation) (shares : StakeShares) (history : StakeHistory) (targetEpoch : ℕ)

/-- A round of the warmup loop of `stake_and_activating`: the delegation takes its share of
the cluster's newly effective stake, at least one lamport, and breaks once it is fully
effective, at the target or deactivation epoch, or where the history has no entry. -/
def warmupRound (s : LoopState) : ℕ ⊕ LoopState :=
  let currentEpoch := s.prevEpoch + 1
  if s.prevClusterStake.activating = 0 then .inl s.currentEffectiveStake
  else
    let remainingActivatingStake := d.stake - s.currentEffectiveStake
    let newlyEffectiveStake :=
      max (shares.newlyEffective remainingActivatingStake s.prevClusterStake) 1
    let currentEffectiveStake :=
      MachineInt.wrappingAdd 64 s.currentEffectiveStake newlyEffectiveStake
    if d.stake ≤ currentEffectiveStake then .inl d.stake
    else if targetEpoch ≤ currentEpoch ∨ d.deactivationEpoch ≤ currentEpoch then
      .inl currentEffectiveStake
    else
      match history.get currentEpoch with
      | some currentClusterStake => .inr ⟨currentEpoch, currentClusterStake, currentEffectiveStake⟩
      | none => .inl currentEffectiveStake

/-- A round of the cooldown loop of `stake_activating_and_deactivating`: the delegation gives
up its share of the cluster's newly deactivated stake, at least one lamport, with
`saturating_sub`, and breaks at zero, at the target epoch, or where the history has no
entry. -/
def cooldownRound (s : LoopState) : ℕ ⊕ LoopState :=
  let currentEpoch := s.prevEpoch + 1
  if s.prevClusterStake.deactivating = 0 then .inl s.currentEffectiveStake
  else
    let newlyNotEffectiveStake :=
      max (shares.newlyNotEffective s.currentEffectiveStake s.prevClusterStake) 1
    let currentEffectiveStake := s.currentEffectiveStake - newlyNotEffectiveStake
    if currentEffectiveStake = 0 then .inl currentEffectiveStake
    else if targetEpoch ≤ currentEpoch then .inl currentEffectiveStake
    else
      match history.get currentEpoch with
      | some currentClusterStake => .inr ⟨currentEpoch, currentClusterStake, currentEffectiveStake⟩
      | none => .inl currentEffectiveStake

/-- Each loop goes on only before the target epoch, one epoch a round, so it stops. -/
theorem warmupRound_decreases :
    Loop.Decreases (d.warmupRound shares history targetEpoch) (targetEpoch - ·.prevEpoch) := by
  intro s s' h
  unfold warmupRound at h
  dsimp only at h
  split_ifs at h with hzero hfull hend
  split at h
  · cases h
    dsimp only
    omega
  · cases h

theorem cooldownRound_decreases :
    Loop.Decreases (cooldownRound shares history targetEpoch) (targetEpoch - ·.prevEpoch) := by
  intro s s' h
  unfold cooldownRound at h
  dsimp only at h
  split_ifs at h with hzero hgone hend
  split at h
  · cases h
    dsimp only
    omega
  · cases h

/-- The warmup loop, from the epoch of `s` up to the target epoch. -/
def warmup : LoopState → ℕ :=
  Loop.loop (d.warmupRound shares history targetEpoch) (targetEpoch - ·.prevEpoch)
    (d.warmupRound_decreases shares history targetEpoch)

def cooldown : LoopState → ℕ :=
  Loop.loop (cooldownRound shares history targetEpoch) (targetEpoch - ·.prevEpoch)
    (cooldownRound_decreases shares history targetEpoch)

/-- `stake_and_activating`: the effective and the activating stake at `targetEpoch`. -/
def stakeAndActivating (targetEpoch : ℕ) (history : Option StakeHistory) : ℕ × ℕ :=
  let delegatedStake := d.stake
  if d.isBootstrap then (delegatedStake, 0)
  else if d.activationEpoch = d.deactivationEpoch then (0, 0)
  else if targetEpoch = d.activationEpoch then (0, delegatedStake)
  else if targetEpoch < d.activationEpoch then (0, 0)
  else
    match history with
    | some history =>
      match history.get d.activationEpoch with
      | some clusterStake =>
        let currentEffectiveStake :=
          d.warmup shares history targetEpoch ⟨d.activationEpoch, clusterStake, 0⟩
        (currentEffectiveStake, delegatedStake - currentEffectiveStake)
      | none => (delegatedStake, 0)
    | none => (delegatedStake, 0)

/-- `stake_activating_and_deactivating`: the activation status at `targetEpoch`. -/
def stakeActivatingAndDeactivating (targetEpoch : ℕ) (history : Option StakeHistory) :
    StakeHistoryEntry :=
  let (effectiveStake, activatingStake) := d.stakeAndActivating shares targetEpoch history
  if targetEpoch < d.deactivationEpoch then
    if activatingStake = 0 then .withEffective effectiveStake
    else .withEffectiveAndActivating effectiveStake activatingStake
  else if targetEpoch = d.deactivationEpoch then .withDeactivating effectiveStake
  else
    match history with
    | some history =>
      match history.get d.deactivationEpoch with
      | some clusterStake =>
        .withDeactivating
          (cooldown shares history targetEpoch ⟨d.deactivationEpoch, clusterStake, effectiveStake⟩)
      | none => .default
    | none => .default

/-- `Delegation::stake`, the effective stake at an epoch, with the shares computed exactly. -/
def effectiveStake (epoch : ℕ) (history : Option StakeHistory) : ℕ :=
  (d.stakeActivatingAndDeactivating d.exactShares epoch history).effective

end Delegation

/-! ## Accounts -/

structure Lockup where
  unixTimestamp : ℤ
  epoch : ℕ
  custodian : Pubkey
  deriving DecidableEq, Repr

/-- `Lockup::is_in_force`: the custodian's signature lifts it. -/
def Lockup.isInForce (lockup : Lockup) (clock : Clock) (custodian : Option Pubkey) : Bool :=
  if custodian = some lockup.custodian then false
  else decide (clock.unixTimestamp < lockup.unixTimestamp ∨ clock.epoch < lockup.epoch)

inductive StakeAuthorize where
  | staker
  | withdrawer
  deriving DecidableEq, Repr

structure Authorized where
  staker : Pubkey
  withdrawer : Pubkey
  deriving DecidableEq, Repr

def Authorized.check (authorized : Authorized) (signers : List Pubkey)
    (stakeAuthorize : StakeAuthorize) : Except InstructionError Unit :=
  match stakeAuthorize with
  | .staker => if authorized.staker ∈ signers then .ok () else .error .missingRequiredSignature
  | .withdrawer =>
    if authorized.withdrawer ∈ signers then .ok () else .error .missingRequiredSignature

structure Meta where
  rentExemptReserve : ℕ
  authorized : Authorized
  lockup : Lockup
  deriving DecidableEq, Repr

structure Stake where
  delegation : Delegation
  /-- Credits of the vote account when the stake was delegated or last redeemed. -/
  creditsObserved : ℕ
  deriving DecidableEq

def Stake.effectiveStake (s : Stake) (epoch : ℕ) (history : Option StakeHistory) : ℕ :=
  s.delegation.effectiveStake epoch history

/-- `Stake::deactivate`. -/
def Stake.deactivate (s : Stake) (epoch : ℕ) : Except StakeError Stake :=
  if s.delegation.deactivationEpoch ≠ u64Max then .error .alreadyDeactivated
  else .ok { s with delegation := { s.delegation with deactivationEpoch := epoch } }

inductive StakeState where
  | uninitialized
  | initialized (stakeMeta : Meta)
  | stake (stakeMeta : Meta) (stake : Stake)
  | rewardsPool
  deriving DecidableEq

end Solana.StakeProgram
