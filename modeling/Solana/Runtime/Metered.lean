import Solana.Runtime.Invoke

/-! The runtime of `Solana.Runtime.Invoke` with `cap_accounts_data_len` active: `verify` and
`verify_and_update` consume each account's growth from the `AccountsDataMeter`. -/

namespace Solana.Runtime

/-- `MAX_ACCOUNTS_DATA_LEN`. -/
def maxAccountsDataLen : ℕ := 128000000000

structure AccountsDataMeter where
  maximum : ℕ
  current : ℕ
  deriving DecidableEq, Repr

namespace AccountsDataMeter

def new (currentAccountsDataLen : ℕ) : AccountsDataMeter :=
  ⟨maxAccountsDataLen, currentAccountsDataLen⟩

def remaining (meter : AccountsDataMeter) : ℕ := meter.maximum - meter.current

/-- A positive amount is growth, refused beyond what remains; a negative one is a shrink. -/
def consume (meter : AccountsDataMeter) (amount : ℤ) : Except InstructionError AccountsDataMeter :=
  if amount = 0 then .ok meter
  else if 0 < amount then
    if amount.toNat > meter.remaining then .error .accountsDataBudgetExceeded
    else .ok { meter with current := min (meter.current + amount.toNat) u64Max }
  else .ok { meter with current := meter.current - amount.natAbs }

end AccountsDataMeter

structure MeteredInvokeContext extends InvokeContext where
  accountsDataMeter : AccountsDataMeter
  deriving DecidableEq

variable (config : InvokeConfig)

namespace Metered

/-- The loop of `InvokeContext::verify`, metering each account's growth. -/
def verifyEach (tc : TransactionContext) (programId : Pubkey) :
    List (InstructionAccount × (Pubkey × Account)) → AccountsDataMeter →
      Except InstructionError (ℕ × ℕ × AccountsDataMeter)
  | [], meter => .ok (0, 0, meter)
  | (instructionAccount, _, pre) :: rest, meter => do
    let account ← tc.getAccountAtIndex instructionAccount.indexInTransaction
    PreAccount.verify pre programId instructionAccount.isWritable config.rent account
      config.doSupportRealloc
    let meter ← meter.consume ((account.data.len : ℤ) - pre.data.len)
    let (preSum, postSum, meter) ← verifyEach tc programId rest meter
    pure (pre.lamports + preSum, account.lamports + postSum, meter)

/-- The loop of `verify_and_update`, metering each account's growth against its pre-account
as updated. -/
def verifyAndUpdateEach (tc : TransactionContext) (ctx : InstructionContext) (programId : Pubkey)
    (beforeInstructionContextPush : Bool) :
    List InstructionAccount → List (Pubkey × Account) → AccountsDataMeter →
      Except InstructionError (List (Pubkey × Account) × ℕ × ℕ × AccountsDataMeter)
  | [], preAccounts, meter => .ok (preAccounts, 0, 0, meter)
  | instructionAccount :: rest, preAccounts, meter => do
    if instructionAccount.indexInTransaction < tc.accounts.length then
      let key ← tc.getKeyOfAccountAtIndex instructionAccount.indexInTransaction
      let account ← tc.getAccountAtIndex instructionAccount.indexInTransaction
      let isWritable ←
        if beforeInstructionContextPush then do
          let _ ← ctx.tryBorrowAccount tc instructionAccount.indexInCaller
          pure (ctx.isWritable instructionAccount.indexInCaller)
        else pure instructionAccount.isWritable
      match Map.get preAccounts key with
      | some pre =>
        PreAccount.verify pre programId isWritable config.rent account config.doSupportRealloc
        let preAccounts :=
          if isWritable ∧ !pre.executable then Map.insert preAccounts key account else preAccounts
        -- `pre_account.data().len()` is read after `pre_account.update(account)`
        let preDataLen := if isWritable ∧ !pre.executable then account.data.len else pre.data.len
        let meter ← meter.consume ((account.data.len : ℤ) - preDataLen)
        let (preAccounts, preSum, postSum, meter) ← verifyAndUpdateEach tc ctx programId
          beforeInstructionContextPush rest preAccounts meter
        pure (preAccounts, pre.lamports + preSum, account.lamports + postSum, meter)
      | none => throw .missingAccount
    else throw .missingAccount

end Metered

namespace MeteredInvokeContext

variable (mic : MeteredInvokeContext)

def verify (instructionAccounts : List InstructionAccount) (programIndices : List ℕ) :
    Except InstructionError MeteredInvokeContext := do
  let tc := mic.transactionContext
  let programId ← tc.getProgramKey.mapError fun _ => .callDepth
  let _ ← programIndices.mapM tc.getAccountAtIndex
  let (preSum, postSum, meter) ← Metered.verifyEach config tc programId
    ((visitEachAccountOnce instructionAccounts).zip mic.preAccounts) mic.accountsDataMeter
  if preSum ≠ postSum then throw .unbalancedInstruction
  pure { mic with accountsDataMeter := meter }

def verifyAndUpdate (instructionAccounts : List InstructionAccount)
    (beforeInstructionContextPush : Bool) : Except InstructionError MeteredInvokeContext := do
  let tc := mic.transactionContext
  let ctx ← tc.getCurrentInstructionContext
  let programId ← tc.getProgramKey.mapError fun _ => .callDepth
  let (preAccounts, preSum, postSum, meter) ← Metered.verifyAndUpdateEach config tc ctx programId
    beforeInstructionContextPush (visitEachAccountOnce instructionAccounts) mic.preAccounts
    mic.accountsDataMeter
  if preSum ≠ postSum then throw .unbalancedInstruction
  pure { mic with preAccounts, accountsDataMeter := meter }

/-- `process_instruction`; `push` and `pop` leave the meter alone. -/
def processInstruction (instructionAccounts : List InstructionAccount) (programIndices : List ℕ)
    (body : MeteredInvokeContext → Except InstructionError MeteredInvokeContext) :
    Except InstructionError MeteredInvokeContext := do
  let isTopLevelInstruction := mic.transactionContext.instructionContextStack.isEmpty
  let mic ←
    if isTopLevelInstruction then pure mic
    else mic.verifyAndUpdate config instructionAccounts true
  let ic ← mic.push config instructionAccounts programIndices
  let mic ← body { mic with toInvokeContext := ic }
  let mic ←
    if isTopLevelInstruction then mic.verify config instructionAccounts programIndices
    else mic.verifyAndUpdate config instructionAccounts false
  let ic ← mic.pop
  pure { mic with toInvokeContext := ic }

def nativeInvoke (instruction : Instruction) (signers : List Pubkey)
    (body : MeteredInvokeContext → Except InstructionError MeteredInvokeContext) :
    Except InstructionError MeteredInvokeContext := do
  let (instructionAccounts, programIndices) ← mic.prepareInstruction instruction signers
  let prevAccountSizes ← instructionAccounts.mapM fun instructionAccount => do
    let account ← mic.transactionContext.getAccountAtIndex instructionAccount.indexInTransaction
    pure (instructionAccount.indexInTransaction, account.data.len)
  let mic ← mic.processInstruction config instructionAccounts programIndices body
  let _ ← prevAccountSizes.mapM fun (index, prevSize) => do
    let account ← mic.transactionContext.getAccountAtIndex index
    if !config.doSupportRealloc ∧ prevSize ≠ account.data.len ∧ prevSize ≠ 0 then
      throw .invalidRealloc
  pure mic

end MeteredInvokeContext

namespace Metered

def runScript : Script → MeteredInvokeContext → Except InstructionError MeteredInvokeContext
  | .ok, mic => .ok mic
  | .fail err, _ => .error err
  | .write index account rest, mic => do
    let ic ← mic.writeAccount index account
    runScript rest { mic with toInvokeContext := ic }
  | .invoke instruction signers callee rest, mic => do
    let mic ← mic.nativeInvoke config instruction signers (runScript callee)
    runScript rest mic

/-- Before an instruction runs, the instructions sysvar account learns its index. -/
def storeInstructionIndex (mic : MeteredInvokeContext) (instructionIndex : ℕ) :
    Option (Except TransactionError MeteredInvokeContext) :=
  (Solana.Runtime.storeInstructionIndex mic.toInvokeContext instructionIndex).map
    (·.map fun ic => { mic with toInvokeContext := ic })

def processMessageLoop (message : InvokeMessage) :
    ℕ → List (CompiledInstruction × List ℕ × Script) → MeteredInvokeContext →
      Option (Except TransactionError MeteredInvokeContext)
  | _, [], mic => some (.ok mic)
  | instructionIndex, (instruction, programIndices, script) :: rest, mic =>
    if (mic.transactionContext.accountKeys[instruction.programIdIndex]?).any
        (· ∈ config.precompiles) then
      processMessageLoop message (instructionIndex + 1) rest mic
    else
      match storeInstructionIndex mic instructionIndex with
      | none => none
      | some (.error err) => some (.error err)
      | some (.ok mic) =>
        let instructionAccounts := instruction.accounts.map fun index =>
          ⟨index, programIndices.length + index, message.isSigner index, message.isWritable index⟩
        match mic.processInstruction config instructionAccounts programIndices
            (runScript config script) with
        | .error err => some (.error (.instructionError instructionIndex err))
        | .ok mic => processMessageLoop message (instructionIndex + 1) rest mic

/-- `process_message` with `cap_accounts_data_len`: the accounts after every instruction ran
and `accounts_data_len`, the meter's count, which starts at `currentAccountsDataLen`. -/
def processMessage (message : InvokeMessage) (programIndices : List (List ℕ))
    (scripts : List Script) (tc : TransactionContext) (currentAccountsDataLen : ℕ) :
    Option (Except TransactionError (TransactionContext × ℕ)) :=
  (processMessageLoop config message 0 (message.instructions.zip (programIndices.zip scripts))
    ⟨⟨tc, []⟩, .new currentAccountsDataLen⟩).map
    fun result => result.map fun mic => (mic.transactionContext, mic.accountsDataMeter.current)

end Metered

end Solana.Runtime
