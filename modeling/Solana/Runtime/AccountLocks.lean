import Solana.Sdk.Basic
import Solana.Lib.Map
import Mathlib

/-! `AccountLocks` of `runtime/src/accounts.rs` and `lock_accounts`, `lock_accounts_with_results`
and `unlock_accounts` over the keys `get_account_locks` reads. -/

namespace Solana.Runtime

structure AccountLocks where
  writeLocks : Finset Pubkey
  readonlyLocks : List (Pubkey × ℕ)
  deriving DecidableEq

namespace AccountLocks

variable (locks : AccountLocks) (key : Pubkey)

def isLockedReadonly : Bool := (Map.get locks.readonlyLocks key).any (· > 0)

def isLockedWrite : Bool := key ∈ locks.writeLocks

def insertNewReadonly : AccountLocks :=
  { locks with readonlyLocks := Map.insert locks.readonlyLocks key 1 }

/-- `lock_readonly`: one more reader of a key already read-locked; `none` is `false`. -/
def lockReadonly : Option AccountLocks :=
  (Map.modify locks.readonlyLocks key (· + 1)).map fun readonlyLocks => { locks with readonlyLocks }

def unlockReadonly : AccountLocks :=
  match Map.get locks.readonlyLocks key with
  | some count =>
    if count - 1 = 0 then { locks with readonlyLocks := Map.erase locks.readonlyLocks key }
    else { locks with readonlyLocks := Map.insert locks.readonlyLocks key (count - 1) }
  | none => locks

def unlockWrite : AccountLocks := { locks with writeLocks := locks.writeLocks.erase key }

end AccountLocks

/-- `TransactionAccountLocks`. -/
structure TransactionAccountLocks where
  writable : List Pubkey
  readonly : List Pubkey
  deriving DecidableEq, Repr

structure SanitizedTransaction where
  accountKeys : List Pubkey
  isWritable : ℕ → Bool

/-- `MAX_TX_ACCOUNT_LOCKS`. -/
def maxTxAccountLocks : ℕ := 64

namespace SanitizedTransaction

variable (tx : SanitizedTransaction)

def getAccountLocksUnchecked : TransactionAccountLocks :=
  tx.accountKeys.zipIdx.foldl (fun accountLocks (key, i) =>
    if tx.isWritable i then { accountLocks with writable := accountLocks.writable ++ [key] }
    else { accountLocks with readonly := accountLocks.readonly ++ [key] }) ⟨[], []⟩

/-- `get_account_locks`, with the feature `max_tx_account_locks` active or not. -/
def getAccountLocks (maxTxAccountLocksActive : Bool) :
    Except TransactionError TransactionAccountLocks :=
  if !tx.accountKeys.Nodup then .error .accountLoadedTwice
  else if maxTxAccountLocksActive ∧ tx.accountKeys.length > maxTxAccountLocks then
    .error .tooManyAccountLocks
  else .ok tx.getAccountLocksUnchecked

end SanitizedTransaction

/-- `lock_account`: all the keys of one transaction or none of them. -/
def lockAccount (locks : AccountLocks) (writableKeys readonlyKeys : List Pubkey) :
    Except TransactionError AccountLocks := do
  if writableKeys.any fun k => locks.isLockedWrite k || locks.isLockedReadonly k then
    throw .accountInUse
  if readonlyKeys.any locks.isLockedWrite then throw .accountInUse
  let locks := writableKeys.foldl (fun locks k =>
    { locks with writeLocks := insert k locks.writeLocks }) locks
  pure (readonlyKeys.foldl (fun locks k =>
    match locks.lockReadonly k with
    | some locks => locks
    | none => locks.insertNewReadonly k) locks)

def unlockAccount (locks : AccountLocks) (writableKeys readonlyKeys : List Pubkey) :
    AccountLocks :=
  readonlyKeys.foldl AccountLocks.unlockReadonly (writableKeys.foldl AccountLocks.unlockWrite locks)

/-- `lock_accounts_inner`: each transaction in turn, under the one lock of the table. -/
def lockAccountsInner :
    AccountLocks → List (Except TransactionError TransactionAccountLocks) →
      AccountLocks × List (Except TransactionError Unit)
  | locks, [] => (locks, [])
  | locks, .ok txAccountLocks :: rest =>
    match lockAccount locks txAccountLocks.writable txAccountLocks.readonly with
    | .ok locks =>
      let (locks, results) := lockAccountsInner locks rest
      (locks, .ok () :: results)
    | .error err =>
      let (locks, results) := lockAccountsInner locks rest
      (locks, .error err :: results)
  | locks, .error err :: rest =>
    let (locks, results) := lockAccountsInner locks rest
    (locks, .error err :: results)

def lockAccounts (locks : AccountLocks) (txs : List SanitizedTransaction)
    (maxTxAccountLocksActive : Bool) : AccountLocks × List (Except TransactionError Unit) :=
  lockAccountsInner locks (txs.map (·.getAccountLocks maxTxAccountLocksActive))

/-- `lock_accounts_with_results`: a transaction with an error in `results` keeps its error
and locks nothing. -/
def lockAccountsWithResults (locks : AccountLocks) (txs : List SanitizedTransaction)
    (results : List (Except TransactionError Unit)) (maxTxAccountLocksActive : Bool) :
    AccountLocks × List (Except TransactionError Unit) :=
  lockAccountsInner locks ((txs.zip results).map fun (tx, result) =>
    match result with
    | .ok () => tx.getAccountLocks maxTxAccountLocksActive
    | .error err => .error err)

/-- The results with which `unlock_accounts` releases nothing. -/
def lockedNothing : Except TransactionError Unit → Bool
  | .error .accountLoadedTwice
  | .error .accountInUse
  | .error .sanitizeFailure
  | .error .tooManyAccountLocks
  | .error .wouldExceedMaxBlockCostLimit
  | .error .wouldExceedMaxVoteCostLimit
  | .error .wouldExceedMaxAccountCostLimit
  | .error .wouldExceedMaxAccountDataCostLimit => true
  | _ => false

def unlockAccounts (locks : AccountLocks) (txs : List SanitizedTransaction)
    (results : List (Except TransactionError Unit)) : AccountLocks :=
  let keys := (txs.zip results).filterMap fun (tx, result) =>
    if lockedNothing result then none else some tx.getAccountLocksUnchecked
  keys.foldl (fun locks keys => unlockAccount locks keys.writable keys.readonly) locks

end Solana.Runtime
