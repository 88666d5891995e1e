import Solana.Lib.MachineInt
import Mathlib

/-! Types of `sdk/program` shared by every module: keys, hashes, the clock and the errors an
instruction returns. Keys and hashes are only compared, so they are natural numbers. -/

namespace Solana

abbrev Pubkey := ℕ
abbrev Hash := ℕ

/-- `u64::MAX`, used as a sentinel epoch and slot. -/
def u64Max : ℕ := 2 ^ 64 - 1

/-- `x as u64` for a non-negative float, computed exactly in `ℚ`: truncation, saturating
at `u64::MAX`. -/
def asU64 (x : ℚ) : ℕ := min ⌊x⌋₊ u64Max

/-- The `InstructionError` variants returned by the modelled code. A program error
such as `VoteError` or `StakeError` reaches the runtime as `custom` with its index. -/
inductive InstructionError where
  | genericError
  | invalidArgument
  | invalidInstructionData
  | invalidAccountData
  | insufficientFunds
  | missingRequiredSignature
  | accountAlreadyInitialized
  | uninitializedAccount
  | custom (code : ℕ)
  | incorrectProgramId
  | invalidAccountOwner
  | arithmeticOverflow
  | activeVoteAccountClose
  | modifiedProgramId
  | externalAccountLamportSpend
  | readonlyLamportChange
  | executableLamportChange
  | invalidRealloc
  | accountDataSizeChanged
  | executableDataModified
  | externalAccountDataModified
  | readonlyDataModified
  | executableAccountNotRentExempt
  | executableModified
  | rentEpochModified
  | unbalancedInstruction
  | missingAccount
  | notEnoughAccountKeys
  | callDepth
  | reentrancyNotAllowed
  | privilegeEscalation
  | accountNotExecutable
  | unsupportedProgramId
  | immutable
  | incorrectAuthority
  | invalidSeeds
  | accountDataTooSmall
  | accountsDataBudgetExceeded
  deriving DecidableEq, Repr

/-- The `TransactionError` variants returned by the modelled runtime. -/
inductive TransactionError where
  | accountInUse
  | accountNotFound
  | alreadyProcessed
  | blockhashNotFound
  | instructionError (index : ℕ) (err : InstructionError)
  | insufficientFundsForFee
  | invalidAccountForFee
  | invalidAccountIndex
  | invalidWritableAccount
  | accountLoadedTwice
  | sanitizeFailure
  | tooManyAccountLocks
  | wouldExceedMaxBlockCostLimit
  | wouldExceedMaxVoteCostLimit
  | wouldExceedMaxAccountCostLimit
  | wouldExceedMaxAccountDataCostLimit
  deriving DecidableEq, Repr

/-- The `Clock` sysvar fields read by the modelled programs. -/
structure Clock where
  slot : ℕ
  epoch : ℕ
  leaderScheduleEpoch : ℕ
  unixTimestamp : ℤ
  deriving DecidableEq, Repr

/-- The runtime features the modelled code consults; every feature is off unless set. -/
structure FeatureSet where
  filterVotesOutsideSlotHashes : Bool := false
  allowVotesToDirectlyUpdateVoteState : Bool := false
  voteWithdrawAuthorityMayChangeAuthorizedVoter : Bool := false
  rejectNonRentExemptVoteWithdraws : Bool := false
  rejectVoteAccountCloseUnlessZeroCreditEpoch : Bool := false
  deriving DecidableEq, Repr

end Solana
