import Solana.Sdk.Basic
import Solana.Lib.Bytes
import Solana.Lib.Fallible

/-! `programs/bpf_loader/src/serialization.rs` over the fields of `TransactionContext` the
loader reads. `AlignedMemory` is a capacity-bounded list of bytes; a slice out of range aborts. -/

namespace Solana.BpfLoader

open Bytes

/-- `MAX_PERMITTED_DATA_INCREASE`. -/
def maxPermittedDataIncrease : ℕ := 1024 * 10

/-- `MAX_PERMITTED_DATA_LENGTH`. -/
def maxPermittedDataLength : ℕ := 10 * 1024 * 1024

/-- `BPF_ALIGN_OF_U128`. -/
def bpfAlignOfU128 : ℕ := 8

/-- `bpf_loader_deprecated::id()`. -/
def bpfLoaderDeprecatedId : Pubkey := 5

/-- `(addr as *const u8).align_offset(align)`: the bytes up to the next multiple of
`align`. -/
def alignOffset (addr align : ℕ) : ℕ := (align - addr % align) % align

/-- `b as u8` for a `bool`. -/
def boolByte (b : Bool) : UInt8 := if b then 1 else 0

/-- `AccountSharedData`, with its data as bytes. -/
structure AccountSharedData where
  lamports : ℕ
  data : List UInt8
  owner : Pubkey
  executable : Bool
  rentEpoch : ℕ
  deriving DecidableEq, Repr

structure InstructionAccount where
  indexInTransaction : ℕ
  isSigner : Bool
  isWritable : Bool
  deriving DecidableEq, Repr

/-- The accounts of a transaction with their keys, `transaction_accounts`. -/
structure TransactionContext where
  accounts : List (Pubkey × AccountSharedData)
  deriving DecidableEq, Repr

structure InstructionContext where
  programAccounts : List ℕ
  instructionAccounts : List InstructionAccount
  instructionData : List UInt8
  deriving DecidableEq, Repr

/-- What `try_borrow_account` gives access to: the account, its key, and its flags in the
instruction. -/
structure BorrowedAccount where
  indexInTransaction : ℕ
  key : Pubkey
  account : AccountSharedData
  isSigner : Bool
  isWritable : Bool
  deriving DecidableEq, Repr

namespace InstructionContext

variable (ctx : InstructionContext)

def getNumberOfAccounts : ℕ := ctx.programAccounts.length + ctx.instructionAccounts.length

/-- An index of the instruction's accounts counts the program accounts first. -/
def getIndexInTransaction (indexInInstruction : ℕ) : Except InstructionError ℕ :=
  if indexInInstruction < ctx.programAccounts.length then
    .ok (ctx.programAccounts.getD indexInInstruction 0)
  else if indexInInstruction < ctx.getNumberOfAccounts then
    .ok ((ctx.instructionAccounts.getD (indexInInstruction - ctx.programAccounts.length)
      ⟨0, false, false⟩).indexInTransaction)
  else .error .notEnoughAccountKeys

/-- `is_signer(..).unwrap_or_default()`, as `BorrowedAccount::is_signer` reads it. -/
def isSigner (indexInInstruction : ℕ) : Bool :=
  if indexInInstruction < ctx.programAccounts.length then false
  else ((ctx.instructionAccounts[indexInInstruction - ctx.programAccounts.length]?).map
    (·.isSigner)).getD false

def isWritable (indexInInstruction : ℕ) : Bool :=
  if indexInInstruction < ctx.programAccounts.length then false
  else ((ctx.instructionAccounts[indexInInstruction - ctx.programAccounts.length]?).map
    (·.isWritable)).getD false

def tryBorrowAccount (tc : TransactionContext) (indexInInstruction : ℕ) :
    Except InstructionError BorrowedAccount := do
  let indexInTransaction ← ctx.getIndexInTransaction indexInInstruction
  match tc.accounts[indexInTransaction]? with
  | some (key, account) =>
    pure ⟨indexInTransaction, key, account, ctx.isSigner indexInInstruction,
      ctx.isWritable indexInInstruction⟩
  | none => throw .missingAccount

/-- The last program account. -/
def tryBorrowProgramAccount (tc : TransactionContext) : Except InstructionError BorrowedAccount :=
  ctx.tryBorrowAccount tc (ctx.programAccounts.length - 1)

end InstructionContext

/-- `is_duplicate`: the position, among the instruction accounts before it, of the first
that names the same account of the transaction. -/
def isDuplicate (ctx : InstructionContext) (indexInInstruction : ℕ) : Option ℕ :=
  (List.range' ctx.programAccounts.length (indexInInstruction - ctx.programAccounts.length)).findIdx?
    fun index => ctx.getIndexInTransaction index == ctx.getIndexInTransaction indexInInstruction

/-- The indexes of the instruction accounts among the instruction's accounts. -/
def instructionAccountIndexes (ctx : InstructionContext) : List ℕ :=
  List.range' ctx.programAccounts.length ctx.instructionAccounts.length

/-! ## The buffer -/

/-- `AlignedMemory`: the bytes written, and the capacity. -/
structure AlignedMemory where
  maxLen : ℕ
  mem : List UInt8
  deriving DecidableEq, Repr

namespace AlignedMemory

def new (maxLen : ℕ) : AlignedMemory := ⟨maxLen, []⟩

def writeIndex (v : AlignedMemory) : ℕ := v.mem.length

/-- `write_all`, its failure mapped to `InvalidArgument` as every caller does. -/
def write (v : AlignedMemory) (bytes : List UInt8) : Except InstructionError AlignedMemory :=
  if v.mem.length + bytes.length ≤ v.maxLen then .ok ⟨v.maxLen, v.mem ++ bytes⟩
  else .error .invalidArgument

/-- `resize(num, value)`: `num` more bytes of `value`. -/
def resize (v : AlignedMemory) (num : ℕ) (value : UInt8) : Except InstructionError AlignedMemory :=
  v.write (List.replicate num value)

end AlignedMemory

section Serialize

variable (tc : TransactionContext) (ctx : InstructionContext)

/-! ## The unaligned layout -/

/-- The bytes `serialize_parameters_unaligned` reserves for one instruction account. -/
def accountSizeUnaligned (indexInInstruction : ℕ) : Except InstructionError ℕ :=
  match isDuplicate ctx indexInInstruction with
  | some _ => pure 1
  | none => do
    let borrowedAccount ← ctx.tryBorrowAccount tc indexInInstruction
    pure (1 + 1 + 1 + 32 + 8 + 8 + borrowedAccount.account.data.length + 32 + 1 + 8)

def serializeAccountUnaligned (v : AlignedMemory) (indexInInstruction : ℕ) :
    Except InstructionError AlignedMemory :=
  match isDuplicate ctx indexInInstruction with
  | some position => v.write [UInt8.ofNat position]
  | none => do
    let borrowedAccount ← ctx.tryBorrowAccount tc indexInInstruction
    let v ← v.write [255]
    let v ← v.write [boolByte borrowedAccount.isSigner]
    let v ← v.write [boolByte borrowedAccount.isWritable]
    let v ← v.write (toLE 32 borrowedAccount.key)
    let v ← v.write (toLE 8 borrowedAccount.account.lamports)
    let v ← v.write (toLE 8 borrowedAccount.account.data.length)
    let v ← v.write borrowedAccount.account.data
    let v ← v.write (toLE 32 borrowedAccount.account.owner)
    let v ← v.write [boolByte borrowedAccount.account.executable]
    v.write (toLE 8 borrowedAccount.account.rentEpoch)

def serializeParametersUnaligned : Except InstructionError AlignedMemory := do
  let size ← (instructionAccountIndexes ctx).foldlM
    (fun size indexInInstruction => do
      let accountSize ← accountSizeUnaligned tc ctx indexInInstruction
      pure (size + accountSize)) 8
  let size := size + 8 + ctx.instructionData.length + 32
  let v ← (AlignedMemory.new size).write (toLE 8 ctx.instructionAccounts.length)
  let v ← (instructionAccountIndexes ctx).foldlM (serializeAccountUnaligned tc ctx) v
  let v ← v.write (toLE 8 ctx.instructionData.length)
  let v ← v.write ctx.instructionData
  let programAccount ← ctx.tryBorrowProgramAccount tc
  v.write (toLE 32 programAccount.key)

/-! ## The aligned layout -/

/-- The bytes `serialize_parameters_aligned` reserves for one instruction account; its
padding is computed from the length of the data. -/
def accountSizeAligned (indexInInstruction : ℕ) : Except InstructionError ℕ :=
  match isDuplicate ctx indexInInstruction with
  | some _ => pure (1 + 7)
  | none => do
    let borrowedAccount ← ctx.tryBorrowAccount tc indexInInstruction
    let dataLen := borrowedAccount.account.data.length
    pure (1 + 1 + 1 + 1 + 4 + 32 + 32 + 8 + 8 + dataLen + maxPermittedDataIncrease +
      alignOffset dataLen bpfAlignOfU128 + 8)

/-- One instruction account in the aligned layout; its padding is computed from the
bytes written so far. -/
def serializeAccountAligned (v : AlignedMemory) (indexInInstruction : ℕ) :
    Except InstructionError AlignedMemory :=
  match isDuplicate ctx indexInInstruction with
  | some position => do
    let v ← v.write [UInt8.ofNat position]
    v.write [0, 0, 0, 0, 0, 0, 0]
  | none => do
    let borrowedAccount ← ctx.tryBorrowAccount tc indexInInstruction
    let v ← v.write [255]
    let v ← v.write [boolByte borrowedAccount.isSigner]
    let v ← v.write [boolByte borrowedAccount.isWritable]
    let v ← v.write [boolByte borrowedAccount.account.executable]
    let v ← v.write [0, 0, 0, 0]
    let v ← v.write (toLE 32 borrowedAccount.key)
    let v ← v.write (toLE 32 borrowedAccount.account.owner)
    let v ← v.write (toLE 8 borrowedAccount.account.lamports)
    let v ← v.write (toLE 8 borrowedAccount.account.data.length)
    let v ← v.write borrowedAccount.account.data
    let v ← v.resize (maxPermittedDataIncrease + alignOffset v.writeIndex bpfAlignOfU128) 0
    v.write (toLE 8 borrowedAccount.account.rentEpoch)

def serializeParametersAligned : Except InstructionError AlignedMemory := do
  let size ← (instructionAccountIndexes ctx).foldlM
    (fun size indexInInstruction => do
      let accountSize ← accountSizeAligned tc ctx indexInInstruction
      pure (size + accountSize)) 8
  let size := size + 8 + ctx.instructionData.length + 32
  let v ← (AlignedMemory.new size).write (toLE 8 ctx.instructionAccounts.length)
  let v ← (instructionAccountIndexes ctx).foldlM (serializeAccountAligned tc ctx) v
  let v ← v.write (toLE 8 ctx.instructionData.length)
  let v ← v.write ctx.instructionData
  let programAccount ← ctx.tryBorrowProgramAccount tc
  v.write (toLE 32 programAccount.key)

/-- `serialize_parameters`: the layout the program's loader expects, and the length of the
data of each instruction account. -/
def serializeParameters : Except InstructionError (AlignedMemory × List ℕ) := do
  let programAccount ← ctx.tryBorrowProgramAccount tc
  let buffer ← if programAccount.account.owner = bpfLoaderDeprecatedId then
      serializeParametersUnaligned tc ctx
    else serializeParametersAligned tc ctx
  let accountLengths ← (instructionAccountIndexes ctx).mapM fun indexInInstruction => do
    let borrowedAccount ← ctx.tryBorrowAccount tc indexInInstruction
    pure borrowedAccount.account.data.length
  pure (buffer, accountLengths)

end Serialize

/-! ## Reading the results back -/

/-- `LittleEndian::read_u64(&buffer[start..])`. -/
def readU64 (buffer : List UInt8) (start : ℕ) : Option ℕ :=
  if start + 8 ≤ buffer.length then some (ofLE ((buffer.drop start).take 8)) else none

/-- `&buffer[start..end_]`. -/
def slice (buffer : List UInt8) (start end_ : ℕ) : Option (List UInt8) :=
  if start ≤ end_ ∧ end_ ≤ buffer.length then some ((buffer.drop start).take (end_ - start))
  else none

/-- An abort where the loader panics. -/
def orPanic {α : Type} : Option α → Fallible InstructionError α
  | some a => pure a
  | none => Fallible.abort

/-- `set_lamports`, `set_data` and `set_owner` of `BorrowedAccount`. -/
def TransactionContext.modifyAccount (tc : TransactionContext) (indexInTransaction : ℕ)
    (f : AccountSharedData → AccountSharedData) : TransactionContext :=
  ⟨tc.accounts.modify indexInTransaction fun (key, account) => (key, f account)⟩

section Deserialize

variable (ctx : InstructionContext) (buffer : List UInt8)

/-- One instruction account of `deserialize_parameters_unaligned`: its lamports and data
are read back. -/
def deserializeAccountUnaligned (state : TransactionContext × ℕ)
    (account : ℕ × ℕ) : Fallible InstructionError (TransactionContext × ℕ) := do
  let (tc, start) := state
  let (indexInInstruction, preLen) := account
  let start := start + 1
  match isDuplicate ctx indexInInstruction with
  | some _ => pure (tc, start)
  | none => do
    let borrowedAccount ← Fallible.ofExcept (ctx.tryBorrowAccount tc indexInInstruction)
    let start := start + 1 + 1 + 32
    let lamports ← orPanic (readU64 buffer start)
    let start := start + 8 + 8
    let data ← orPanic (slice buffer start (start + preLen))
    let tc := tc.modifyAccount borrowedAccount.indexInTransaction
      fun account => { account with lamports := lamports, data := data }
    pure (tc, start + preLen + 32 + 1 + 8)

def deserializeParametersUnaligned (tc : TransactionContext) (accountLengths : List ℕ) :
    Fallible InstructionError TransactionContext := do
  let (tc, _) ← ((instructionAccountIndexes ctx).zip accountLengths).foldlM
    (deserializeAccountUnaligned ctx buffer) (tc, 8)
  pure tc

/-- One instruction account of `deserialize_parameters_aligned`: its owner, lamports and
data are read back; the data may have grown by up to `MAX_PERMITTED_DATA_INCREASE`. -/
def deserializeAccountAligned (doSupportRealloc : Bool) (state : TransactionContext × ℕ)
    (account : ℕ × ℕ) : Fallible InstructionError (TransactionContext × ℕ) := do
  let (tc, start) := state
  let (indexInInstruction, preLen) := account
  let start := start + 1
  match isDuplicate ctx indexInInstruction with
  | some _ => pure (tc, start + 7)
  | none => do
    let borrowedAccount ← Fallible.ofExcept (ctx.tryBorrowAccount tc indexInInstruction)
    let start := start + 1 + 1 + 1 + 4 + 32
    let owner ← orPanic (slice buffer start (start + 32))
    let tc := tc.modifyAccount borrowedAccount.indexInTransaction
      fun account => { account with owner := ofLE owner }
    let start := start + 32
    let lamports ← orPanic (readU64 buffer start)
    let tc := tc.modifyAccount borrowedAccount.indexInTransaction
      fun account => { account with lamports := lamports }
    let start := start + 8
    let postLen ← orPanic (readU64 buffer start)
    let start := start + 8
    let dataEnd ←
      if doSupportRealloc then
        if postLen - preLen > maxPermittedDataIncrease ∨ postLen > maxPermittedDataLength then
          throw .invalidRealloc
        else pure (start + postLen)
      else
        pure (if postLen ≠ preLen ∧ postLen - preLen ≤ maxPermittedDataIncrease then
          start + postLen else start + preLen)
    let data ← orPanic (slice buffer start dataEnd)
    let tc := tc.modifyAccount borrowedAccount.indexInTransaction
      fun account => { account with data := data }
    let start := start + preLen + maxPermittedDataIncrease
    let start := start + alignOffset start bpfAlignOfU128
    pure (tc, start + 8)

def deserializeParametersAligned (tc : TransactionContext) (accountLengths : List ℕ)
    (doSupportRealloc : Bool) : Fallible InstructionError TransactionContext := do
  let (tc, _) ← ((instructionAccountIndexes ctx).zip accountLengths).foldlM
    (deserializeAccountAligned ctx buffer doSupportRealloc) (tc, 8)
  pure tc

end Deserialize

/-- `deserialize_parameters`, for the layout of the program's loader. -/
def deserializeParameters (tc : TransactionContext) (ctx : InstructionContext)
    (buffer : List UInt8) (accountLengths : List ℕ) (doSupportRealloc : Bool) :
    Fallible InstructionError TransactionContext := do
  let programAccount ← Fallible.ofExcept (ctx.tryBorrowProgramAccount tc)
  if programAccount.account.owner = bpfLoaderDeprecatedId then
    deserializeParametersUnaligned ctx buffer tc accountLengths
  else deserializeParametersAligned ctx buffer tc accountLengths doSupportRealloc

end Solana.BpfLoader
