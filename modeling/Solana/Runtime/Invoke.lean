import Solana.Runtime.PreAccount
import Solana.Lib.Map

/-! `MessageProcessor::process_message` over the `InvokeContext` and `TransactionContext`, a
program given by what it does (`Script`). -/

namespace Solana.Runtime

/-- `sysvar::instructions::id()`. -/
def instructionsSysvarId : Pubkey := 3

structure InstructionAccount where
  indexInTransaction : ℕ
  indexInCaller : ℕ
  isSigner : Bool
  isWritable : Bool
  deriving DecidableEq, Repr

structure InstructionContext where
  programAccounts : List ℕ
  instructionAccounts : List InstructionAccount
  deriving DecidableEq, Repr

structure TransactionContext where
  accountKeys : List Pubkey
  accounts : List Account
  /-- The contexts of the running instructions, innermost first. -/
  instructionContextStack : List InstructionContext
  instructionContextCapacity : ℕ
  deriving DecidableEq, Repr

namespace TransactionContext

variable (tc : TransactionContext)

def getKeyOfAccountAtIndex (index : ℕ) : Except InstructionError Pubkey :=
  match tc.accountKeys[index]? with
  | some key => .ok key
  | none => .error .notEnoughAccountKeys

def getAccountAtIndex (index : ℕ) : Except InstructionError Account :=
  match tc.accounts[index]? with
  | some account => .ok account
  | none => .error .notEnoughAccountKeys

def findIndexOfAccount (pubkey : Pubkey) : Option ℕ := tc.accountKeys.findIdx? (· = pubkey)

def getCurrentInstructionContext : Except InstructionError InstructionContext :=
  match tc.instructionContextStack with
  | current :: _ => .ok current
  | [] => .error .callDepth

def setAccount (index : ℕ) (account : Account) : TransactionContext :=
  { tc with accounts := tc.accounts.set index account }

end TransactionContext

namespace InstructionContext

variable (ctx : InstructionContext) (tc : TransactionContext)

/-- An index of the instruction's accounts counts the program accounts first. -/
def getIndexInTransaction (indexInInstruction : ℕ) : Except InstructionError ℕ :=
  if indexInInstruction < ctx.programAccounts.length then
    match ctx.programAccounts[indexInInstruction]? with
    | some index => .ok index
    | none => .error .notEnoughAccountKeys
  else
    match ctx.instructionAccounts[indexInInstruction - ctx.programAccounts.length]? with
    | some instructionAccount => .ok instructionAccount.indexInTransaction
    | none => .error .notEnoughAccountKeys

/-- `try_borrow_account`: the account's index in the transaction, and the account. -/
def tryBorrowAccount (indexInInstruction : ℕ) : Except InstructionError (ℕ × Account) := do
  let index ← ctx.getIndexInTransaction indexInInstruction
  match tc.accounts[index]? with
  | some account => pure (index, account)
  | none => throw .missingAccount

/-- `is_writable` as `BorrowedAccount` reads it: program accounts are not writable. -/
def isWritable (indexInInstruction : ℕ) : Bool :=
  if indexInInstruction < ctx.programAccounts.length then false
  else ((ctx.instructionAccounts[indexInInstruction - ctx.programAccounts.length]?).map
    (·.isWritable)).getD false

def isSigner (indexInInstruction : ℕ) : Bool :=
  if indexInInstruction < ctx.programAccounts.length then false
  else ((ctx.instructionAccounts[indexInInstruction - ctx.programAccounts.length]?).map
    (·.isSigner)).getD false

/-- The position of an account among the instruction's accounts, after the programs. -/
def findIndexOfAccount (pubkey : Pubkey) : Option ℕ :=
  (ctx.instructionAccounts.findIdx? fun instructionAccount =>
    tc.accountKeys[instructionAccount.indexInTransaction]? = some pubkey).map
    (· + ctx.programAccounts.length)

/-- The key of the last program account, as `try_borrow_program_account` finds it. -/
def programKey : Except InstructionError Pubkey := do
  let (index, _) ← ctx.tryBorrowAccount tc (ctx.programAccounts.length - 1)
  tc.getKeyOfAccountAtIndex index

end InstructionContext

def TransactionContext.getProgramKey (tc : TransactionContext) : Except InstructionError Pubkey := do
  let ctx ← tc.getCurrentInstructionContext
  ctx.programKey tc

/-! ## Visiting and checking accounts -/

/-- The loop of `visit_each_account_once`: an account already seen is skipped. -/
def visitEachAccountOnceFrom (seen : List ℕ) : List InstructionAccount → List InstructionAccount
  | [] => []
  | instructionAccount :: rest =>
    if instructionAccount.indexInTransaction ∈ seen then visitEachAccountOnceFrom seen rest
    else instructionAccount ::
      visitEachAccountOnceFrom (instructionAccount.indexInTransaction :: seen) rest

/-- The instruction accounts `visit_each_account_once` visits: the first of each account. -/
def visitEachAccountOnce (instructionAccounts : List InstructionAccount) :
    List InstructionAccount :=
  visitEachAccountOnceFrom [] instructionAccounts

/-- What the runtime fixes for a message. -/
structure InvokeConfig where
  rent : Rent
  maxInvokeDepth : ℕ
  doSupportRealloc : Bool
  /-- The precompiled programs that are skipped, when `prevent_calling_precompiles_as_programs`
  is active. -/
  precompiles : List Pubkey

structure InvokeContext where
  transactionContext : TransactionContext
  /-- The copies of the accounts of the running top-level instruction. -/
  preAccounts : List (Pubkey × Account)
  deriving DecidableEq, Repr

variable (config : InvokeConfig)

/-- The loop of `InvokeContext::verify`: each visited account against the pre-account that
`push` took for it, in the same order, with the lamports before and after. -/
def verifyEach (tc : TransactionContext) (programId : Pubkey) :
    List (InstructionAccount × (Pubkey × Account)) → Except InstructionError (ℕ × ℕ)
  | [] => .ok (0, 0)
  | (instructionAccount, _, pre) :: rest => do
    let account ← tc.getAccountAtIndex instructionAccount.indexInTransaction
    PreAccount.verify pre programId instructionAccount.isWritable config.rent account
      config.doSupportRealloc
    let (preSum, postSum) ← verifyEach tc programId rest
    pure (pre.lamports + preSum, account.lamports + postSum)

/-- The loop of `verify_and_update`: each visited account against the pre-account of its
key, whose copy then moves on if the account was writable and not executable. The
writability is the caller's before the callee starts and the callee's after. -/
def verifyAndUpdateEach (tc : TransactionContext) (ctx : InstructionContext) (programId : Pubkey)
    (beforeInstructionContextPush : Bool) :
    List InstructionAccount → List (Pubkey × Account) →
      Except InstructionError (List (Pubkey × Account) × ℕ × ℕ)
  | [], preAccounts => .ok (preAccounts, 0, 0)
  | instructionAccount :: rest, preAccounts => do
    if instructionAccount.indexInTransaction < tc.accounts.length then
      let key ← tc.getKeyOfAccountAtIndex instructionAccount.indexInTransaction
      let account ← tc.getAccountAtIndex instructionAccount.indexInTransaction
      let isWritable ←
        if beforeInstructionContextPush then do
          let _ ← ctx.tryBorrowAccount tc instructionAccount.indexInCaller
          pure (ctx.isWritable instructionAccount.indexInCaller)
        else pure instructionAccount.isWritable
      match Map.get preAccounts key with
      | some pre =>
        PreAccount.verify pre programId isWritable config.rent account config.doSupportRealloc
        let preAccounts :=
          if isWritable ∧ !pre.executable then Map.insert preAccounts key account else preAccounts
        let (preAccounts, preSum, postSum) ← verifyAndUpdateEach tc ctx programId
          beforeInstructionContextPush rest preAccounts
        pure (preAccounts, pre.lamports + preSum, account.lamports + postSum)
      | none => throw .missingAccount
    else throw .missingAccount

namespace InvokeContext

variable (ic : InvokeContext)

/-- `verify`, at the end of a top-level instruction. -/
def verify (instructionAccounts : List InstructionAccount) (programIndices : List ℕ) :
    Except InstructionError Unit := do
  let tc := ic.transactionContext
  let programId ← tc.getProgramKey.mapError fun _ => .callDepth
  let _ ← programIndices.mapM tc.getAccountAtIndex
  let (preSum, postSum) ← verifyEach config tc programId
    ((visitEachAccountOnce instructionAccounts).zip ic.preAccounts)
  if preSum ≠ postSum then throw .unbalancedInstruction

def verifyAndUpdate (instructionAccounts : List InstructionAccount)
    (beforeInstructionContextPush : Bool) : Except InstructionError InvokeContext := do
  let tc := ic.transactionContext
  let ctx ← tc.getCurrentInstructionContext
  let programId ← tc.getProgramKey.mapError fun _ => .callDepth
  let (preAccounts, preSum, postSum) ← verifyAndUpdateEach config tc ctx programId
    beforeInstructionContextPush (visitEachAccountOnce instructionAccounts) ic.preAccounts
  if preSum ≠ postSum then throw .unbalancedInstruction
  pure { ic with preAccounts }

/-- The pre-account of an account of a top-level instruction. -/
def takePreAccount (tc : TransactionContext) (instructionAccount : InstructionAccount) :
    Except InstructionError (Pubkey × Account) :=
  if instructionAccount.indexInTransaction < tc.accounts.length then do
    let account ← tc.getAccountAtIndex instructionAccount.indexInTransaction
    let key ← tc.getKeyOfAccountAtIndex instructionAccount.indexInTransaction
    pure (key, account)
  else throw .missingAccount

/-- `push`: a top-level instruction takes its pre-accounts; an inner one may only reenter
the running program. -/
def push (instructionAccounts : List InstructionAccount) (programIndices : List ℕ) :
    Except InstructionError InvokeContext := do
  let tc := ic.transactionContext
  if tc.instructionContextStack.length > config.maxInvokeDepth then throw .callDepth
  let programId ←
    match programIndices.getLast? with
    | some index => tc.getKeyOfAccountAtIndex index
    -- `reject_empty_instruction_without_program`
    | none => throw .unsupportedProgramId
  let ic ←
    match tc.instructionContextStack with
    | [] => do
      let preAccounts ← (visitEachAccountOnce instructionAccounts).mapM (takePreAccount tc)
      pure { ic with preAccounts }
    | current :: _ =>
      let contains := tc.instructionContextStack.any fun ctx =>
        (ctx.programKey tc).toOption = some programId
      let isLast := (current.programKey tc).toOption = some programId
      if contains ∧ !isLast then throw .reentrancyNotAllowed
      pure ic
  let _ ← programIndices.mapM tc.getAccountAtIndex
  let _ ← instructionAccounts.mapM fun instructionAccount =>
    tc.getAccountAtIndex instructionAccount.indexInTransaction
  if tc.instructionContextStack.length ≥ tc.instructionContextCapacity then throw .callDepth
  pure { ic with transactionContext := { tc with
    instructionContextStack := ⟨programIndices, instructionAccounts⟩ :: tc.instructionContextStack } }

def pop : Except InstructionError InvokeContext :=
  match ic.transactionContext.instructionContextStack with
  | [] => .error .callDepth
  | _ :: rest => .ok { ic with transactionContext := { ic.transactionContext with
      instructionContextStack := rest } }

/-- `process_instruction`, with the program's run as `body`: an inner instruction checks
its caller first, and every instruction is checked when its program returns. -/
def processInstruction (instructionAccounts : List InstructionAccount) (programIndices : List ℕ)
    (body : InvokeContext → Except InstructionError InvokeContext) :
    Except InstructionError InvokeContext := do
  let isTopLevelInstruction := ic.transactionContext.instructionContextStack.isEmpty
  let ic ←
    if isTopLevelInstruction then pure ic
    else ic.verifyAndUpdate config instructionAccounts true
  let ic ← ic.push config instructionAccounts programIndices
  let ic ← body ic
  let ic ←
    if isTopLevelInstruction then do
      ic.verify config instructionAccounts programIndices
      pure ic
    else ic.verifyAndUpdate config instructionAccounts false
  ic.pop

/-- A program writes the account at `index` among its instruction's accounts. -/
def writeAccount (index : ℕ) (account : Account) : Except InstructionError InvokeContext := do
  let tc := ic.transactionContext
  let ctx ← tc.getCurrentInstructionContext
  let (indexInTransaction, _) ← ctx.tryBorrowAccount tc (ctx.programAccounts.length + index)
  pure { ic with transactionContext := tc.setAccount indexInTransaction account }

end InvokeContext

/-! ## Invoking another program -/

structure AccountMeta where
  pubkey : Pubkey
  isSigner : Bool
  isWritable : Bool
  deriving DecidableEq, Repr

structure Instruction where
  programId : Pubkey
  accounts : List AccountMeta
  deriving DecidableEq, Repr

/-- The loop of `prepare_instruction` over the account metas: the accounts without
duplicates, their privileges merged, and for each meta the position of its account. -/
def deduplicateLoop (tc : TransactionContext) (ctx : InstructionContext) :
    List AccountMeta → List InstructionAccount → List ℕ →
      Except InstructionError (List InstructionAccount × List ℕ)
  | [], deduplicated, duplicateIndices => .ok (deduplicated, duplicateIndices)
  | accountMeta :: rest, deduplicated, duplicateIndices => do
    let indexInTransaction ←
      match tc.findIndexOfAccount accountMeta.pubkey with
      | some index => pure index
      | none => throw .missingAccount
    match deduplicated.findIdx? (·.indexInTransaction = indexInTransaction) with
    | some duplicateIndex =>
      let deduplicated := deduplicated.modify duplicateIndex fun instructionAccount =>
        { instructionAccount with
          isSigner := instructionAccount.isSigner || accountMeta.isSigner
          isWritable := instructionAccount.isWritable || accountMeta.isWritable }
      deduplicateLoop tc ctx rest deduplicated (duplicateIndices ++ [duplicateIndex])
    | none =>
      let indexInCaller ←
        match ctx.findIndexOfAccount tc accountMeta.pubkey with
        | some index => pure index
        | none => throw .missingAccount
      deduplicateLoop tc ctx rest
        (deduplicated ++ [⟨indexInTransaction, indexInCaller, accountMeta.isSigner,
          accountMeta.isWritable⟩])
        (duplicateIndices ++ [deduplicated.length])

/-- A callee's account has no privilege its caller lacks, unless the caller signs for it. -/
def checkPrivileges (tc : TransactionContext) (ctx : InstructionContext) (signers : List Pubkey)
    (instructionAccount : InstructionAccount) : Except InstructionError Unit := do
  let (index, _) ← ctx.tryBorrowAccount tc instructionAccount.indexInCaller
  let key ← tc.getKeyOfAccountAtIndex index
  if instructionAccount.isWritable ∧ !ctx.isWritable instructionAccount.indexInCaller then
    throw .privilegeEscalation
  if instructionAccount.isSigner ∧ !(ctx.isSigner instructionAccount.indexInCaller ∨ key ∈ signers)
  then throw .privilegeEscalation

namespace InvokeContext

variable (ic : InvokeContext)

/-- `prepare_instruction`: the callee's accounts and its program account, which the caller
must have and which must be executable. The programdata account of an upgradeable program
is not modelled. -/
def prepareInstruction (instruction : Instruction) (signers : List Pubkey) :
    Except InstructionError (List InstructionAccount × List ℕ) := do
  let tc := ic.transactionContext
  let ctx ← tc.getCurrentInstructionContext
  let (deduplicated, duplicateIndices) ← deduplicateLoop tc ctx instruction.accounts [] []
  let _ ← deduplicated.mapM (checkPrivileges tc ctx signers)
  let instructionAccounts := duplicateIndices.filterMap (deduplicated[·]?)
  let programAccountIndex ←
    match ctx.findIndexOfAccount tc instruction.programId with
    | some index => pure index
    | none => throw .missingAccount
  let (programIndex, programAccount) ← ctx.tryBorrowAccount tc programAccountIndex
  if !programAccount.executable then throw .accountNotExecutable
  pure (instructionAccounts, [programIndex])

/-- `native_invoke`: without realloc, an inner instruction may only resize an empty
account. -/
def nativeInvoke (instruction : Instruction) (signers : List Pubkey)
    (body : InvokeContext → Except InstructionError InvokeContext) :
    Except InstructionError InvokeContext := do
  let (instructionAccounts, programIndices) ← ic.prepareInstruction instruction signers
  let prevAccountSizes ← instructionAccounts.mapM fun instructionAccount => do
    let account ← ic.transactionContext.getAccountAtIndex instructionAccount.indexInTransaction
    pure (instructionAccount.indexInTransaction, account.data.len)
  let ic ← ic.processInstruction config instructionAccounts programIndices body
  let _ ← prevAccountSizes.mapM fun (index, prevSize) => do
    let account ← ic.transactionContext.getAccountAtIndex index
    if !config.doSupportRealloc ∧ prevSize ≠ account.data.len ∧ prevSize ≠ 0 then
      throw .invalidRealloc
  pure ic

end InvokeContext

/-- A run of a program: it writes accounts of its instruction, invokes programs, each with
a run of its own, and returns or fails. -/
inductive Script where
  | ok
  | fail (err : InstructionError)
  | write (index : ℕ) (account : Account) (rest : Script)
  | invoke (instruction : Instruction) (signers : List Pubkey) (callee rest : Script)

/-- The programs a script invokes. -/
def Script.programIds : Script → List Pubkey
  | .ok => []
  | .fail _ => []
  | .write _ _ rest => rest.programIds
  | .invoke instruction _ callee rest => instruction.programId :: callee.programIds ++ rest.programIds

def runScript : Script → InvokeContext → Except InstructionError InvokeContext
  | .ok, ic => .ok ic
  | .fail err, _ => .error err
  | .write index account rest, ic => do
    let ic ← ic.writeAccount index account
    runScript rest ic
  | .invoke instruction signers callee rest, ic => do
    let ic ← ic.nativeInvoke config instruction signers (runScript callee)
    runScript rest ic

/-! ## Messages -/

structure CompiledInstruction where
  programIdIndex : ℕ
  accounts : List ℕ
  deriving DecidableEq, Repr

/-- What `process_message` reads of a sanitized message. -/
structure InvokeMessage where
  isSigner : ℕ → Bool
  isWritable : ℕ → Bool
  instructions : List CompiledInstruction

/-- `store_current_index`: the index of the running instruction, as a `u16`, in the last two
bytes. The account the runtime builds for the sysvar is never a nonce account. -/
def storeCurrentIndex (data : AccountData) (instructionIndex : ℕ) : Option AccountData :=
  match data with
  | .bytes bytes =>
    if bytes.length < 2 then none
    else some (.bytes (bytes.take (bytes.length - 2) ++
      [UInt8.ofNat instructionIndex, UInt8.ofNat (instructionIndex / 256)]))
  | .nonce _ => none

/-- Before an instruction runs, the instructions sysvar account learns its index. A failed
store into the sysvar's data is a panic. -/
def storeInstructionIndex (ic : InvokeContext) (instructionIndex : ℕ) :
    Option (Except TransactionError InvokeContext) :=
  let tc := ic.transactionContext
  match tc.findIndexOfAccount instructionsSysvarId with
  | none => some (.ok ic)
  | some accountIndex =>
    match tc.accounts[accountIndex]? with
    | none => some (.error .invalidAccountIndex)
    | some account => (storeCurrentIndex account.data instructionIndex).map fun data =>
      .ok { ic with transactionContext := tc.setAccount accountIndex { account with data } }

/-- The loop of `process_message` over the instructions, each with its program indices and
the run of its program. -/
def processMessageLoop (message : InvokeMessage) :
    ℕ → List (CompiledInstruction × List ℕ × Script) → InvokeContext →
      Option (Except TransactionError InvokeContext)
  | _, [], ic => some (.ok ic)
  | instructionIndex, (instruction, programIndices, script) :: rest, ic =>
    if (ic.transactionContext.accountKeys[instruction.programIdIndex]?).any
        (· ∈ config.precompiles) then
      processMessageLoop message (instructionIndex + 1) rest ic
    else
      match storeInstructionIndex ic instructionIndex with
      | none => none
      | some (.error err) => some (.error err)
      | some (.ok ic) =>
        let instructionAccounts := instruction.accounts.map fun index =>
          ⟨index, programIndices.length + index, message.isSigner index, message.isWritable index⟩
        match ic.processInstruction config instructionAccounts programIndices
            (runScript config script) with
        | .error err => some (.error (.instructionError instructionIndex err))
        | .ok ic => processMessageLoop message (instructionIndex + 1) rest ic

/-- `process_message`: the accounts after every instruction ran, `none` on a panic. -/
def processMessage (message : InvokeMessage) (programIndices : List (List ℕ))
    (scripts : List Script) (tc : TransactionContext) :
    Option (Except TransactionError TransactionContext) :=
  (processMessageLoop config message 0 (message.instructions.zip (programIndices.zip scripts))
    ⟨tc, []⟩).map fun result => result.map (·.transactionContext)

/-- A message with the instructions sysvar among its accounts, read-only, and two
instructions whose programs only return. The second instruction leaves its index in the
last two bytes of the sysvar's data, so the message succeeds with a read-only account
changed. -/
theorem processMessage_rewrites_instructions_sysvar :
    let config : InvokeConfig := ⟨Rent.default, 4, true, []⟩
    let program : Account := ⟨1, .bytes [], 4, true, 0⟩
    let sysvar : Account := ⟨0, .bytes [7, 7, 0, 0], 5, false, 0⟩
    let message : InvokeMessage := ⟨fun _ => false, fun _ => false, [⟨0, []⟩, ⟨0, []⟩]⟩
    message.isWritable 1 = false ∧
      (processMessage config message [[0], [0]] [.ok, .ok]
          ⟨[6, instructionsSysvarId], [program, sysvar], [], 5⟩).map
        (fun result => result.map (·.accounts[1]?)) =
        some (.ok (some { sysvar with data := .bytes [7, 7, 1, 0] })) := by
  decide +kernel

end Solana.Runtime
