import Solana.Runtime.Rent
import Solana.Lib.Map

/-! Loading, executing and committing a batch in `runtime/src/accounts.rs` and `bank.rs`, with the
programs a parameter (`Execution`) and a failed `unwrap` as `none`. -/

namespace Solana.Runtime

open MachineInt

/-- `bpf_loader_upgradeable::id()`. -/
def bpfLoaderUpgradeableId : Pubkey := 2

/-! ## Messages and fees -/

/-- An account key of a sanitized message, with what the runtime asks of it. -/
structure MessageAccount where
  key : Pubkey
  isWritable : Bool
  /-- `is_non_loader_key`: not invoked as a program, or the upgradeable loader is present. -/
  isNonLoaderKey : Bool
  deriving DecidableEq, Repr

structure Message where
  accountKeys : List MessageAccount
  numRequiredSignatures : ℕ
  /-- The first data byte of each instruction to the secp256k1 or ed25519 program: the
  signatures it verifies. -/
  precompileSignatures : List ℕ
  recentBlockhash : Hash
  isUpgradeableLoaderPresent : Bool
  deriving DecidableEq, Repr

/-- `fee_payer`: the first account key. -/
def Message.feePayer (message : Message) : Option Pubkey :=
  message.accountKeys.head?.map (·.key)

/-- `Bank::calculate_fee`: every signature the message needs or a precompile verifies. -/
def calculateFee (message : Message) (lamportsPerSignature : ℕ) : ℕ :=
  saturatingMul 64 lamportsPerSignature
    (message.precompileSignatures.foldl (saturatingAdd 64) message.numRequiredSignatures)

/-! ## Nonce accounts -/

inductive SystemAccountKind where
  | system
  | nonce
  deriving DecidableEq, Repr

/-- `get_system_account_kind`: a system account without data, or an initialized nonce. -/
def getSystemAccountKind (account : Account) : Option SystemAccountKind :=
  if account.owner ≠ systemProgramId then none
  else
    match account.data with
    | .bytes [] => some .system
    | .nonce (some _) => some .nonce
    | _ => none

/-- `nonce_account::lamports_per_signature_of`. -/
def lamportsPerSignatureOf (account : Account) : Option ℕ :=
  match account.data with
  | .nonce (some data) => some data.lamportsPerSignature
  | _ => none

/-- The nonce account of a durable transaction as the status check read it. -/
structure NoncePartial where
  address : Pubkey
  account : Account
  deriving DecidableEq, Repr

/-- The nonce account after the load, with the fee payer to roll back to when the nonce
account is not the fee payer. -/
structure NonceFull where
  address : Pubkey
  account : Account
  feePayerAccount : Option Account
  deriving DecidableEq, Repr

/-- `RentDebits::insert`: the rent collected from an account, kept when it is not zero. -/
def insertRentDebit (rentDebits : List (Pubkey × ℕ)) (address : Pubkey) (rentCollected : ℕ) :
    List (Pubkey × ℕ) :=
  if rentCollected ≠ 0 then Map.insert rentDebits address rentCollected else rentDebits

/-- `NonceFull::from_partial`: the fee payer is copied after its fee, with the rent its
load collected given back. -/
def NonceFull.fromPartial (noncePartial : NoncePartial) (message : Message)
    (accounts : List (Pubkey × Account)) (rentDebits : List (Pubkey × ℕ)) :
    Except TransactionError NonceFull :=
  match (message.accountKeys.zip accounts).find? (·.1.isNonLoaderKey) with
  | none => .error .accountNotFound
  | some (_, feePayerAddress, feePayerAccount) =>
    let rentDebit := (Map.get rentDebits feePayerAddress).getD 0
    let feePayerAccount := { feePayerAccount with
      lamports := saturatingAdd 64 feePayerAccount.lamports rentDebit }
    if feePayerAddress = noncePartial.address then
      .ok ⟨noncePartial.address, feePayerAccount, none⟩
    else .ok ⟨noncePartial.address, noncePartial.account, some feePayerAccount⟩

/-! ## Loading -/

/-- The accounts of the bank. -/
abbrev Accounts := List (Pubkey × Account)

def totalLamports (accounts : Accounts) : ℕ := (accounts.map (·.2.lamports)).sum

structure LoadedTransaction where
  accounts : List (Pubkey × Account)
  rent : ℕ
  /-- `RentDebits`: the rent collected from each account. -/
  rentDebits : List (Pubkey × ℕ)
  deriving DecidableEq, Repr

/-- One account of `load_transaction`: a program gets an empty account; a writable
account pays its rent on the copy. The account's rent comes with it. -/
def loadAccount (accounts : Accounts) (rc : RentCollector) (message : Message)
    (messageAccount : MessageAccount) : Except TransactionError (Account × ℕ) :=
  if !messageAccount.isNonLoaderKey then .ok (Account.default, 0)
  else
    let (account, rent) :=
      match Map.get accounts messageAccount.key with
      | some account =>
        if messageAccount.isWritable then rc.collectFromExistingAccount messageAccount.key account
        else (account, 0)
      | none => (Account.default, 0)
    if account.owner = bpfLoaderUpgradeableId then
      if messageAccount.isWritable ∧ !message.isUpgradeableLoaderPresent then
        .error .invalidWritableAccount
      else .ok (account, rent)
    else if account.executable ∧ messageAccount.isWritable then .error .invalidWritableAccount
    else .ok (account, rent)

/-- `load_transaction`: the copies of the message's accounts, their rent, and the fee
taken from the fee payer, the first account that is not a program. -/
def loadTransaction (accounts : Accounts) (rc : RentCollector) (message : Message) (fee : ℕ) :
    Except TransactionError LoadedTransaction := do
  let loaded ← message.accountKeys.mapM (loadAccount accounts rc message)
  let txAccounts := (message.accountKeys.zip loaded).map fun entry => (entry.1.key, entry.2.1)
  let txRent := (loaded.map (·.2)).sum
  let rentDebits := (message.accountKeys.zip loaded).foldl
    (fun rentDebits entry => insertRentDebit rentDebits entry.1.key entry.2.2) []
  match message.accountKeys.findIdx? (·.isNonLoaderKey) with
  | none => throw .accountNotFound
  | some payerIndex =>
    match txAccounts[payerIndex]? with
    | none => throw .accountNotFound
    | some (payerKey, payerAccount) =>
      if payerAccount.lamports = 0 then throw .accountNotFound
      let minBalance ←
        match getSystemAccountKind payerAccount with
        | none => throw .invalidAccountForFee
        | some .system => pure 0
        | some .nonce => pure (rc.rent.minimumBalance nonceStateSize)
      if payerAccount.lamports < fee + minBalance then throw .insufficientFundsForFee
      pure ⟨txAccounts.set payerIndex (payerKey, { payerAccount with
        lamports := payerAccount.lamports - fee }), txRent, rentDebits⟩

/-- `TransactionCheckResult`: the age and status checks, and the nonce account of a
durable transaction. -/
abbrev TransactionCheckResult := Except TransactionError Unit × Option NoncePartial

abbrev TransactionLoadResult := Except TransactionError LoadedTransaction × Option NonceFull

/-- One transaction of `load_accounts`: the fee is priced by the nonce account of a
durable transaction, otherwise by the blockhash queue. -/
def loadAccounts (accounts : Accounts) (rc : RentCollector)
    (hashQueueLamportsPerSignature : Hash → Option ℕ) (message : Message) :
    TransactionCheckResult → TransactionLoadResult
  | (.error e, _) => (.error e, none)
  | (.ok (), nonce) =>
    let lamportsPerSignature :=
      match nonce with
      | some nonce => lamportsPerSignatureOf nonce.account
      | none => hashQueueLamportsPerSignature message.recentBlockhash
    match lamportsPerSignature with
    | none => (.error .blockhashNotFound, none)
    | some lamportsPerSignature =>
      match loadTransaction accounts rc message (calculateFee message lamportsPerSignature) with
      | .error e => (.error e, none)
      | .ok loaded =>
        match nonce with
        | none => (.ok loaded, none)
        | some nonce =>
          match NonceFull.fromPartial nonce message loaded.accounts loaded.rentDebits with
          | .ok nonce => (.ok loaded, some nonce)
          | .error e => (.error e, none)

/-! ## Execution -/

/-- What the programs of a message do to the loaded accounts: the status, and the
accounts they leave, also when they fail. -/
abbrev Execution := List (Pubkey × Account) → Except TransactionError Unit × List (Pubkey × Account)

inductive DurableNonceFee where
  | valid (lamportsPerSignature : ℕ)
  | invalid
  deriving DecidableEq, Repr

def DurableNonceFee.ofNonce (nonce : NonceFull) : DurableNonceFee :=
  match lamportsPerSignatureOf nonce.account with
  | some lamportsPerSignature => .valid lamportsPerSignature
  | none => .invalid

def DurableNonceFee.lamportsPerSignature : DurableNonceFee → Option ℕ
  | .valid lamportsPerSignature => some lamportsPerSignature
  | .invalid => none

inductive TransactionExecutionResult where
  | executed (status : Except TransactionError Unit) (durableNonceFee : Option DurableNonceFee)
  | notExecuted (err : TransactionError)
  deriving DecidableEq, Repr

def TransactionExecutionResult.wasExecutedSuccessfully : TransactionExecutionResult → Bool
  | .executed status _ => status.toBool
  | .notExecuted _ => false

/-- `execute_loaded_transaction` for a loaded transaction: the accounts are replaced by
those the programs leave. -/
def executeLoaded (execution : Execution) :
    TransactionLoadResult → TransactionExecutionResult × TransactionLoadResult
  | (.error e, nonce) => (.notExecuted e, (.error e, nonce))
  | (.ok loaded, nonce) =>
    let (status, accounts) := execution loaded.accounts
    (.executed status (nonce.map DurableNonceFee.ofNonce), (.ok { loaded with accounts }, nonce))

/-! ## Storing -/

/-- `prepare_if_nonce_account`: the nonce account of a durable transaction is rolled back
if it failed and advanced to the bank's blockhash; the fee payer of a failed durable
transaction is rolled back to its fee-paid copy. The flag says it was the nonce account. -/
def prepareIfNonceAccount (address : Pubkey) (account : Account)
    (executionResult : Except TransactionError Unit) (isFeePayer : Bool)
    (maybeNonce : Option (NonceFull × Bool)) (blockhash : Hash) (lamportsPerSignature : ℕ) :
    Option (Account × Bool) :=
  match maybeNonce with
  | none => some (account, false)
  | some (nonce, rollback) =>
    if address = nonce.address then
      let account := if rollback then nonce.account else account
      match nonce.account.data with
      | .nonce (some data) =>
        some ({ account with
          data := .nonce (some ⟨data.authority, blockhash, lamportsPerSignature⟩) }, true)
      | .nonce none => some (account, true)
      | .bytes _ => none
    else
      if !executionResult.toBool ∧ isFeePayer then some (nonce.feePayerAccount.getD account, false)
      else some (account, false)

/-- The loop of `collect_accounts_to_store` over the accounts that are not programs: the
accounts stored, with the rent and the rent debits of the transaction. A stored account
still marked as created pays the rent of a created account. -/
def collectLoop (rc : RentCollector) (executionStatus : Except TransactionError Unit)
    (maybeNonce : Option (NonceFull × Bool)) (blockhash : Hash) (lamportsPerSignature : ℕ) :
    List (MessageAccount × Pubkey × Account) → Bool → ℕ → List (Pubkey × ℕ) →
      Option (List (Pubkey × Account) × ℕ × List (Pubkey × ℕ))
  | [], _, rent, rentDebits => some ([], rent, rentDebits)
  | (messageAccount, address, account) :: rest, feePayerSeen, rent, rentDebits =>
    if !messageAccount.isNonLoaderKey then
      collectLoop rc executionStatus maybeNonce blockhash lamportsPerSignature rest feePayerSeen
        rent rentDebits
    else
      let isFeePayer := !feePayerSeen
      if messageAccount.isWritable then do
        let (account, isNonceAccount) ← prepareIfNonceAccount address account executionStatus
          isFeePayer maybeNonce blockhash lamportsPerSignature
        if executionStatus.toBool ∨ isNonceAccount ∨ isFeePayer then
          let (account, rent, rentDebits) :=
            if account.rentEpoch = initialRentEpoch then
              let (account, collected) := rc.collectFromCreatedAccount address account
              (account, rent + collected, insertRentDebit rentDebits address collected)
            else (account, rent, rentDebits)
          let (stored, rent, rentDebits) ← collectLoop rc executionStatus maybeNonce blockhash
            lamportsPerSignature rest true rent rentDebits
          some ((address, account) :: stored, rent, rentDebits)
        else
          collectLoop rc executionStatus maybeNonce blockhash lamportsPerSignature rest true rent
            rentDebits
      else
        collectLoop rc executionStatus maybeNonce blockhash lamportsPerSignature rest true rent
          rentDebits

/-- What the bank reads while it commits and does not change. -/
structure BankEnv where
  rentCollector : RentCollector
  /-- `last_blockhash_and_lamports_per_signature`. -/
  lastBlockhash : Hash
  lamportsPerSignature : ℕ
  leaveNonceOnSuccess : Bool
  /-- `blockhash_queue.get_lamports_per_signature`. -/
  hashQueueLamportsPerSignature : Hash → Option ℕ

/-- One transaction of `collect_accounts_to_store`: what it stores, and its load result
with the rent of the accounts charged as created. -/
def collectAccountsToStore (env : BankEnv) (message : Message) :
    TransactionLoadResult → TransactionExecutionResult →
      Option (List (Pubkey × Account) × TransactionLoadResult)
  | (.error e, nonce), _ => some ([], (.error e, nonce))
  | loadResult, .notExecuted _ => some ([], loadResult)
  | (.ok loaded, nonce), .executed executionStatus _ =>
    let maybeNonce? : Option (Option (NonceFull × Bool)) :=
      match executionStatus, nonce with
      | .ok (), some nonce => some (if env.leaveNonceOnSuccess then none else some (nonce, false))
      | .error _, some nonce => some (some (nonce, true))
      | .ok (), none => some none
      | .error _, none => none
    match maybeNonce? with
    | none => some ([], (.ok loaded, nonce))
    | some maybeNonce => do
      let (stored, rent, rentDebits) ← collectLoop env.rentCollector executionStatus maybeNonce
        env.lastBlockhash env.lamportsPerSignature (message.accountKeys.zip loaded.accounts) false
        loaded.rent loaded.rentDebits
      some (stored, (.ok { loaded with rent, rentDebits }, nonce))

/-- `store_cached`. -/
def storeAccounts (accounts : Accounts) (stored : List (Pubkey × Account)) : Accounts :=
  stored.foldl (fun accounts entry => Map.insert accounts entry.1 entry.2) accounts

/-- The rent `collect_rent` counts for one transaction: only a successful one's. -/
def collectedRentOf (loadResult : TransactionLoadResult) (execution : TransactionExecutionResult) :
    ℕ :=
  match loadResult.1 with
  | .ok loaded => if execution.wasExecutedSuccessfully then loaded.rent else 0
  | .error _ => 0

/-! ## Fees -/

/-- `Bank::withdraw`: a nonce account keeps its rent-exempt minimum. -/
def withdraw (rent : Rent) (accounts : Accounts) (pubkey : Pubkey) (lamports : ℕ) :
    Except TransactionError Accounts :=
  match Map.get accounts pubkey with
  | none => .error .accountNotFound
  | some account =>
    let minBalance :=
      match getSystemAccountKind account with
      | some .nonce => rent.minimumBalance nonceStateSize
      | _ => 0
    if account.lamports < lamports + minBalance then .error .insufficientFundsForFee
    else .ok (Map.insert accounts pubkey { account with lamports := account.lamports - lamports })

/-- One transaction of `filter_program_errors_and_collect_fee`: the accounts after the fee
of a failed ordinary transaction is withdrawn, and the fee counted. A durable transaction
paid its fee on the stored fee payer. -/
def collectFee (env : BankEnv) (accounts : Accounts) (message : Message) :
    TransactionExecutionResult → Option (Accounts × Except TransactionError ℕ)
  | .notExecuted err => some (accounts, .error err)
  | .executed executionStatus durableNonceFee =>
    let (lamportsPerSignature, isNonce) :=
      match durableNonceFee with
      | some durableNonceFee => (durableNonceFee.lamportsPerSignature, true)
      | none => (env.hashQueueLamportsPerSignature message.recentBlockhash, false)
    match lamportsPerSignature with
    | none => some (accounts, .error .blockhashNotFound)
    | some lamportsPerSignature =>
      let fee := calculateFee message lamportsPerSignature
      if !executionStatus.toBool ∧ !isNonce then do
        let feePayer ← message.feePayer
        match withdraw env.rentCollector.rent accounts feePayer fee with
        | .error err => some (accounts, .error err)
        | .ok accounts => some (accounts, .ok fee)
      else some (accounts, .ok fee)

/-! ## A batch -/

/-- The bank's accounts and the two counters a commit adds to. -/
structure Bank where
  accounts : Accounts
  collectorFees : ℕ
  collectedRent : ℕ
  deriving DecidableEq, Repr

/-- A transaction of a batch: its message, the result of its checks, and what its
programs do. -/
structure BatchTransaction where
  message : Message
  checkResult : TransactionCheckResult
  execution : Execution

/-- `load_and_execute_transactions` on the bank's accounts. -/
def loadAndExecute (env : BankEnv) (bank : Bank) (txs : List BatchTransaction) :
    List (TransactionLoadResult × TransactionExecutionResult) :=
  txs.map fun tx =>
    let loadResult := loadAccounts bank.accounts env.rentCollector
      env.hashQueueLamportsPerSignature tx.message tx.checkResult
    let (executionResult, loadResult) := executeLoaded tx.execution loadResult
    (loadResult, executionResult)

/-- `commit_transactions`: the accounts are stored, the rent of the batch counted, then
the fees collected. -/
def commitTransactions (env : BankEnv) (bank : Bank) (messages : List Message)
    (results : List (TransactionLoadResult × TransactionExecutionResult)) : Option Bank := do
  let collected ← (messages.zip results).mapM fun (message, loadResult, executionResult) =>
    (collectAccountsToStore env message loadResult executionResult).map
      fun (stored, loadResult) => (stored, collectedRentOf loadResult executionResult)
  let accounts := storeAccounts bank.accounts (collected.map (·.1)).flatten
  let collectedRent := bank.collectedRent + (collected.map (·.2)).sum
  let (accounts, fees) ← (messages.zip results).foldlM
    (fun (accounts, fees) (message, _, executionResult) => do
      let (accounts, fee) ← collectFee env accounts message executionResult
      pure (accounts, fees + (match fee with | .ok fee => fee | .error _ => 0)))
    (accounts, 0)
  pure ⟨accounts, bank.collectorFees + fees, collectedRent⟩

def processBatch (env : BankEnv) (bank : Bank) (txs : List BatchTransaction) : Option Bank :=
  commitTransactions env bank (txs.map (·.message)) (loadAndExecute env bank txs)

/-- A failed durable transaction in epoch `0` of a schedule of 432000 slots an epoch,
with the default rent. Its fee payer holds exactly the rent-exempt minimum of an account
without data, and is not the nonce account. The load leaves the exempt fee payer's
`rent_epoch` at `0` and takes the fee of 5000; the store charges the rolled-back fee
payer 2439 lamports as a created account. The fees grow by 5000 and the collected rent
not at all, but the accounts lose 7439 lamports. -/
theorem commit_failed_nonce_loses_rent :
    let env : BankEnv :=
      ⟨⟨0, fun _ => 432000, 78894000, Rent.default⟩, 8, 5000, false,
        fun blockhash => if blockhash = 8 then some 5000 else none⟩
    let nonceAccount : Account := ⟨1447680, .nonce (some ⟨10, 7, 5000⟩), systemProgramId, false, 0⟩
    let bank : Bank :=
      ⟨[(10, ⟨890880, .bytes [], systemProgramId, false, 0⟩), (11, nonceAccount)], 0, 0⟩
    let message : Message :=
      ⟨[⟨10, true, true⟩, ⟨11, true, true⟩, ⟨systemProgramId, false, false⟩], 1, [], 7, false⟩
    let tx : BatchTransaction :=
      ⟨message, (.ok (), some ⟨11, nonceAccount⟩),
        fun accounts => (.error (.instructionError 1 (.custom 0)), accounts)⟩
    (processBatch env bank [tx]).map
        (fun bank' => (totalLamports bank'.accounts, bank'.collectorFees, bank'.collectedRent)) =
      some (totalLamports bank.accounts - 7439, 5000, 0) := by
  decide +kernel

end Solana.Runtime
