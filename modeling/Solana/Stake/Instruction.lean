import Solana.Stake.State
import Solana.Vote.State
import Solana.Lib.Run

/-! The stake handlers of `programs/stake/src/stake_state.rs` that create, delegate, deactivate
and drain a stake (`rescind_after_withdraw_unbacked`). -/

namespace Solana.StakeProgram

open VoteProgram (VoteState)

/-- `std::mem::size_of::<StakeState>()`. -/
def stakeStateSize : ℕ := 200

/-- `stake::config::Config`, with the rate of warmup and cooldown it sets. -/
structure Config where
  warmupCooldownRate : ℚ

/-- `DEFAULT_WARMUP_COOLDOWN_RATE`. -/
def Config.default : Config := ⟨1 / 4⟩

structure StakeAccount where
  key : Pubkey
  lamports : ℕ
  dataLen : ℕ
  state : StakeState
  deriving DecidableEq

/-- The vote account of a delegation: its key, whether the vote program owns it, and its
state. -/
structure VoteAccount where
  key : Pubkey
  ownedByVoteProgram : Bool
  voteState : VoteState

/-- `instruction::checked_add`. -/
def checkedAdd (a b : ℕ) : Except InstructionError ℕ :=
  match MachineInt.checkedAdd 64 a b with
  | some c => .ok c
  | none => .error .insufficientFunds

/-- `initialize` (a keyword of Lean). -/
def initializeStake (account : StakeAccount) (authorized : Authorized) (lockup : Lockup)
    (minimumBalance : ℕ → ℕ) : Except InstructionError StakeAccount :=
  if account.dataLen ≠ stakeStateSize then .error .invalidAccountData
  else
    match account.state with
    | .uninitialized =>
      let rentExemptReserve := minimumBalance account.dataLen
      if rentExemptReserve < account.lamports then
        .ok { account with state := .initialized ⟨rentExemptReserve, authorized, lockup⟩ }
      else .error .insufficientFunds
    | _ => .error .invalidAccountData

def newStake (stake : ℕ) (voterPubkey : Pubkey) (voteState : VoteState) (activationEpoch : ℕ)
    (config : Config) : Stake :=
  ⟨⟨voterPubkey, stake, activationEpoch, u64Max, config.warmupCooldownRate⟩, voteState.credits⟩

/-- `redelegate`: a stake with effective stake left can only rescind its deactivation, to
the same voter in the epoch it was deactivated; otherwise it is delegated afresh. -/
def redelegate (stake : Stake) (stakeLamports : ℕ) (voterPubkey : Pubkey) (voteState : VoteState)
    (clock : Clock) (stakeHistory : StakeHistory) (config : Config) : Except StakeError Stake :=
  if stake.effectiveStake clock.epoch (some stakeHistory) ≠ 0 then
    if stake.delegation.voterPubkey = voterPubkey ∧
        clock.epoch = stake.delegation.deactivationEpoch then
      .ok { stake with delegation := { stake.delegation with deactivationEpoch := u64Max } }
    else .error .tooSoonToRedelegate
  else
    .ok ⟨{ stake.delegation with
        stake := stakeLamports
        activationEpoch := clock.epoch
        deactivationEpoch := u64Max
        voterPubkey := voterPubkey
        warmupCooldownRate := config.warmupCooldownRate }, voteState.credits⟩

def delegate (account : StakeAccount) (vote : VoteAccount) (clock : Clock)
    (stakeHistory : StakeHistory) (config : Config) (signers : List Pubkey) :
    Except InstructionError StakeAccount :=
  if !vote.ownedByVoteProgram then .error .incorrectProgramId
  else
    match account.state with
    | .initialized stakeMeta => do
      stakeMeta.authorized.check signers .staker
      let stake := newStake (account.lamports - stakeMeta.rentExemptReserve) vote.key
        vote.voteState clock.epoch config
      pure { account with state := .stake stakeMeta stake }
    | .stake stakeMeta stake => do
      stakeMeta.authorized.check signers .staker
      let stake ← (redelegate stake (account.lamports - stakeMeta.rentExemptReserve) vote.key
        vote.voteState clock stakeHistory config).mapError StakeError.toInstructionError
      pure { account with state := .stake stakeMeta stake }
    | _ => .error .invalidAccountData

def deactivate (account : StakeAccount) (clock : Clock) (signers : List Pubkey) :
    Except InstructionError StakeAccount :=
  match account.state with
  | .stake stakeMeta stake => do
    stakeMeta.authorized.check signers .staker
    let stake ← (stake.deactivate clock.epoch).mapError StakeError.toInstructionError
    pure { account with state := .stake stakeMeta stake }
  | _ => .error .invalidAccountData

/-- What `withdraw` must leave in the account: the lockup, the reserve, and whether the
stake is still staked. A deactivated stake keeps its effective stake; one that is not
deactivated keeps all it delegates. -/
def withdrawReserve (account : StakeAccount) (clock : Clock) (stakeHistory : StakeHistory)
    (signers : List Pubkey) : Except InstructionError (Lockup × ℕ × Bool) :=
  match account.state with
  | .stake stakeMeta stake => do
    stakeMeta.authorized.check signers .withdrawer
    let staked :=
      if stake.delegation.deactivationEpoch ≤ clock.epoch then
        stake.delegation.effectiveStake clock.epoch (some stakeHistory)
      else stake.delegation.stake
    let stakedAndReserve ← checkedAdd staked stakeMeta.rentExemptReserve
    pure (stakeMeta.lockup, stakedAndReserve, staked ≠ 0)
  | .initialized stakeMeta => do
    stakeMeta.authorized.check signers .withdrawer
    let reserve ← checkedAdd stakeMeta.rentExemptReserve 1
    pure (stakeMeta.lockup, reserve, false)
  | .uninitialized =>
    if account.key ∈ signers then .ok (⟨0, 0, 0⟩, 0, false)
    else .error .missingRequiredSignature
  | .rewardsPool => .error .invalidAccountData

/-- `withdraw`: the stake account after the withdrawal, and the lamports of the account
they go to. -/
def withdraw (account : StakeAccount) (lamports toLamports : ℕ) (clock : Clock)
    (stakeHistory : StakeHistory) (withdrawAuthority custodian : Option Pubkey) :
    Except InstructionError (StakeAccount × ℕ) := do
  let withdrawAuthorityPubkey ←
    match withdrawAuthority with
    | some key => pure key
    | none => throw .missingRequiredSignature
  let (lockup, reserve, isStaked) ←
    withdrawReserve account clock stakeHistory [withdrawAuthorityPubkey]
  if lockup.isInForce clock custodian then throw StakeError.lockupInForce.toInstructionError
  let lamportsAndReserve ← checkedAdd lamports reserve
  if isStaked ∧ account.lamports < lamportsAndReserve then throw .insufficientFunds
  if lamports ≠ account.lamports ∧ account.lamports < lamportsAndReserve then
    throw .insufficientFunds
  let state := if lamports = account.lamports then .uninitialized else account.state
  if account.lamports < lamports then throw .arithmeticOverflow
  match MachineInt.checkedAdd 64 toLamports lamports with
  | none => throw .arithmeticOverflow
  | some toLamports =>
    pure ({ account with state := state, lamports := account.lamports - lamports }, toLamports)

/-! ## Runs of stake instructions -/

inductive StakeInstruction where
  | initializeStake (authorized : Authorized) (lockup : Lockup)
  | delegateStake
  | withdraw (lamports : ℕ)
  | deactivate

/-- What an instruction sees besides the stake account: the clock, the signers, the vote
account, the stake history and config sysvars, the rent, and for a withdrawal the
authority's and the custodian's signatures and the lamports of the recipient. -/
structure InvokeEnv where
  clock : Clock
  signers : List Pubkey
  vote : VoteAccount
  stakeHistory : StakeHistory
  config : Config
  minimumBalance : ℕ → ℕ
  withdrawAuthority : Option Pubkey
  custodian : Option Pubkey
  toLamports : ℕ

def processInstruction (env : InvokeEnv) (account : StakeAccount) :
    StakeInstruction → Except InstructionError StakeAccount
  | .initializeStake authorized lockup =>
    initializeStake account authorized lockup env.minimumBalance
  | .delegateStake =>
    delegate account env.vote env.clock env.stakeHistory env.config env.signers
  | .withdraw lamports =>
    Prod.fst <$> withdraw account lamports env.toLamports env.clock env.stakeHistory
      env.withdrawAuthority env.custodian
  | .deactivate => deactivate account env.clock env.signers

/-- One instruction on a stake account; a failed instruction is `none`. -/
def step (account : StakeAccount) (action : InvokeEnv × StakeInstruction) : Option StakeAccount :=
  match processInstruction action.1 account action.2 with
  | .ok account => some account
  | .error _ => none

/-- A stake that is not deactivated is backed: its delegation and the rent-exempt reserve
fit in the account's lamports. -/
def StakeAccount.isBacked (account : StakeAccount) : Bool :=
  match account.state with
  | .stake stakeMeta stake =>
    stake.delegation.deactivationEpoch ≠ u64Max ||
      decide (stake.delegation.stake + stakeMeta.rentExemptReserve ≤ account.lamports)
  | _ => true

/-- The rescind branch of `redelegate` after a withdrawal. A stake of 1000 lamports
above a reserve of 100 is delegated at epoch 10, while the cluster has 1000 lamports
effective and 1000 activating, and is 250 effective at epoch 11. In that epoch it is
deactivated, drained to its effective stake and delegated to the same voter again: the
deactivation is rescinded, and the 1000 delegated lamports are backed by 350. -/
theorem rescind_after_withdraw_unbacked :
    let env : ℕ → InvokeEnv := fun epoch =>
      ⟨⟨0, epoch, epoch, 0⟩, [1], ⟨7, true, VoteState.default⟩, [(10, ⟨1000, 1000, 0⟩)],
        Config.default, fun _ => 100, some 1, none, 0⟩
    let script := [(env 10, .initializeStake ⟨1, 1⟩ ⟨0, 0, 0⟩), (env 10, .delegateStake),
      (env 11, .deactivate), (env 11, .withdraw 750), (env 11, .delegateStake)]
    (Run.exec step ⟨1, 1100, stakeStateSize, .uninitialized⟩ (script.take 4)).map
        StakeAccount.isBacked = some true ∧
      (Run.exec step ⟨1, 1100, stakeStateSize, .uninitialized⟩ script).map
        StakeAccount.isBacked = some false := by
  decide +kernel

end Solana.StakeProgram
