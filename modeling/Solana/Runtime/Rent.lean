import Solana.Sdk.Basic

/-! Accounts, the rent of `sdk/program/src/rent.rs` and the `RentCollector` of
`runtime/src/rent_collector.rs` (`collectFromExistingAccount_lamports`). -/

namespace Solana.Runtime

/-- `system_program::id()`, the all-zero key of `Pubkey::default()`. -/
def systemProgramId : Pubkey := 0

/-- `incinerator::id()`. -/
def incineratorId : Pubkey := 1

/-- `nonce::state::Data`: what an initialized nonce account holds. -/
structure NonceData where
  authority : Pubkey
  blockhash : Hash
  lamportsPerSignature : ℕ
  deriving DecidableEq, Repr

/-- The data of an account: a nonce state (`nonce::state::Versions::Current`, `none` for
`Uninitialized`), or other bytes. -/
inductive AccountData where
  | bytes (data : List UInt8)
  | nonce (state : Option NonceData)
  deriving DecidableEq, Repr

/-- `nonce::State::size()`: the serialized `Versions::Current(State::Initialized(_))`. -/
def nonceStateSize : ℕ := 80

def AccountData.len : AccountData → ℕ
  | .bytes data => data.length
  | .nonce _ => nonceStateSize

structure Account where
  lamports : ℕ
  data : AccountData
  owner : Pubkey
  executable : Bool
  rentEpoch : ℕ
  deriving DecidableEq, Repr

/-- `AccountSharedData::default()`. -/
def Account.default : Account := ⟨0, .bytes [], systemProgramId, false, 0⟩

/-- `INITIAL_RENT_EPOCH`. -/
def initialRentEpoch : ℕ := 0

/-! ## Rent -/

structure Rent where
  lamportsPerByteYear : ℕ
  exemptionThreshold : ℚ

/-- `ACCOUNT_STORAGE_OVERHEAD`: the bytes of an account besides its data. -/
def accountStorageOverhead : ℕ := 128

/-- `Rent::default()`: `DEFAULT_LAMPORTS_PER_BYTE_YEAR` and two years to exemption. -/
def Rent.default : Rent := ⟨1000000000 / 100 * 365 / (1024 * 1024), 2⟩

namespace Rent

variable (rent : Rent)

def minimumBalance (dataLen : ℕ) : ℕ :=
  asU64 (((accountStorageOverhead + dataLen) * rent.lamportsPerByteYear : ℕ) *
    rent.exemptionThreshold)

def isExempt (balance dataLen : ℕ) : Bool := rent.minimumBalance dataLen ≤ balance

end Rent

inductive RentDue where
  | exempt
  | paying (lamports : ℕ)
  deriving DecidableEq, Repr

def RentDue.lamports : RentDue → ℕ
  | .exempt => 0
  | .paying lamports => lamports

/-- `Rent::due`: nothing for an exempt balance, otherwise the rent of the elapsed years. -/
def Rent.due (rent : Rent) (balance dataLen : ℕ) (yearsElapsed : ℚ) : RentDue :=
  if rent.isExempt balance dataLen then .exempt
  else .paying (asU64 (((dataLen + accountStorageOverhead) * rent.lamportsPerByteYear : ℕ) *
    yearsElapsed))

/-! ## The rent collector -/

structure RentCollector where
  epoch : ℕ
  /-- `epoch_schedule.get_slots_in_epoch`. -/
  slotsInEpoch : ℕ → ℕ
  slotsPerYear : ℚ
  rent : Rent

inductive RentResult where
  | leaveAloneNoRent
  | collectRent (newRentEpoch rentDue : ℕ)

namespace RentCollector

variable (rc : RentCollector)

def shouldCollectRent (address : Pubkey) (account : Account) : Bool :=
  !(account.executable || address = incineratorId)

/-- `get_rent_due`: the rent of the epochs from the account's `rent_epoch` through the
current one, each counted by the slots of the epoch after it. -/
def getRentDue (account : Account) : RentDue :=
  let slotsElapsed := ((List.range' account.rentEpoch (rc.epoch + 1 - account.rentEpoch)).map
    fun epoch => rc.slotsInEpoch (epoch + 1)).sum
  let yearsElapsed : ℚ := if rc.slotsPerYear ≠ 0 then slotsElapsed / rc.slotsPerYear else 0
  rc.rent.due account.lamports account.data.len yearsElapsed

/-- `can_skip_rent_collection`, without the filler accounts of benchmarks. -/
def canSkipRentCollection (address : Pubkey) (account : Account) : Bool :=
  !shouldCollectRent address account || decide (rc.epoch < account.rentEpoch)

def calculateRentResult (address : Pubkey) (account : Account) : RentResult :=
  if rc.canSkipRentCollection address account then .leaveAloneNoRent
  else
    match rc.getRentDue account with
    | .paying 0 => .leaveAloneNoRent
    | .exempt => .collectRent rc.epoch 0
    | .paying rentDue => .collectRent (rc.epoch + 1) rentDue

/-- `collect_from_existing_account`: the account after collection and the rent taken. An
account left without lamports is reset to the default account. -/
def collectFromExistingAccount (address : Pubkey) (account : Account) : Account × ℕ :=
  match rc.calculateRentResult address account with
  | .leaveAloneNoRent => (account, 0)
  | .collectRent newRentEpoch rentDue =>
    let beginLamports := account.lamports
    let account := { account with rentEpoch := newRentEpoch, lamports := beginLamports - rentDue }
    let endLamports := account.lamports
    (if endLamports = 0 then Account.default else account, beginLamports - endLamports)

/-- `collect_from_created_account`: the account counts as created in this epoch. -/
def collectFromCreatedAccount (address : Pubkey) (account : Account) : Account × ℕ :=
  rc.collectFromExistingAccount address { account with rentEpoch := rc.epoch }

/-- Rent collection moves lamports from the account into the rent it returns. -/
theorem collectFromExistingAccount_lamports (address : Pubkey) (account : Account) :
    (rc.collectFromExistingAccount address account).1.lamports +
      (rc.collectFromExistingAccount address account).2 = account.lamports := by
  unfold collectFromExistingAccount
  split
  case h_1 => rfl
  case h_2 newRentEpoch rentDue _ =>
    by_cases hend : account.lamports - rentDue = 0
    · simp [hend, Account.default]
    · simp only [hend, if_false]
      omega

theorem collectFromCreatedAccount_lamports (address : Pubkey) (account : Account) :
    (rc.collectFromCreatedAccount address account).1.lamports +
      (rc.collectFromCreatedAccount address account).2 = account.lamports :=
  rc.collectFromExistingAccount_lamports address _

end RentCollector

end Solana.Runtime
