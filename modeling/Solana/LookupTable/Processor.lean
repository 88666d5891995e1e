import Solana.LookupTable.State
import Solana.Runtime.Rent
import Solana.Lib.Fallible

/-! The five instructions of `programs/address-lookup-table/src/processor.rs`, with the system
program calls they make as their effects; address derivation is a parameter. -/

namespace Solana.LookupTable

open Bytes MachineInt Solana.Runtime
open Except (failIf failIf_eq_ok)

/-- `address_lookup_table::program::id()`. -/
def lookupTableProgramId : Pubkey := 4

/-- `MAX_PERMITTED_DATA_LENGTH`. -/
def maxPermittedDataLength : ℕ := 10 * 1024 * 1024

/-- An account the program reads: its data as the bytes it is. -/
structure AccountSharedData where
  lamports : ℕ
  data : List UInt8
  owner : Pubkey
  deriving DecidableEq, Repr

/-- The accounts of the transaction, by key. -/
abbrev Accounts := Pubkey → AccountSharedData

structure KeyedAccount where
  key : Pubkey
  isSigner : Bool
  deriving DecidableEq, Repr

def KeyedAccount.signerKey (keyedAccount : KeyedAccount) : Option Pubkey :=
  if keyedAccount.isSigner then some keyedAccount.key else none

def keyedAccountAtIndex (keyedAccounts : List KeyedAccount) (index : ℕ) :
    Except InstructionError KeyedAccount :=
  match keyedAccounts[index]? with
  | some keyedAccount => .ok keyedAccount
  | none => .error .notEnoughAccountKeys

/-- The processor's `checked_add` on `usize`. -/
def checkedAddIndex (a b : ℕ) : Except InstructionError ℕ :=
  match checkedAdd 64 a b with
  | some sum => .ok sum
  | none => .error .arithmeticOverflow

/-- The sysvars the program reads (`slot` is the clock's), and the address derivation. -/
structure Env where
  slot : ℕ
  slotHashes : List (ℕ × Hash)
  rent : Rent
  createProgramAddress : Pubkey → ℕ → ℕ → Except InstructionError Pubkey

inductive ProgramInstruction where
  | createLookupTable (recentSlot : ℕ) (bumpSeed : ℕ)
  | freezeLookupTable
  | extendLookupTable (newAddresses : List Pubkey)
  | deactivateLookupTable
  | closeLookupTable

/-- `SlotHashes::get`: the entry at the position the binary search finds. -/
def slotHashesGet (slotHashes : List (ℕ × Hash)) (slot : ℕ) : Option Hash :=
  ((slotHashesPosition slotHashes slot).bind fun index => slotHashes[index]?).map (·.2)

/-! ## The system program -/

def setLamports (accounts : Accounts) (key : Pubkey) (lamports : ℕ) : Accounts :=
  Function.update accounts key { accounts key with lamports := lamports }

def setData (accounts : Accounts) (key : Pubkey) (data : List UInt8) : Accounts :=
  Function.update accounts key { accounts key with data := data }

/-- `transfer` of a signed payer: `SystemError::ResultWithNegativeLamports` is `custom 1`. -/
def systemTransfer (accounts : Accounts) (fromKey toKey : Pubkey) (lamports : ℕ) :
    Except InstructionError Accounts := do
  failIf ((accounts fromKey).data ≠ []) .invalidArgument
  failIf ((accounts fromKey).lamports < lamports) (.custom 1)
  let accounts := setLamports accounts fromKey ((accounts fromKey).lamports - lamports)
  failIf (2 ^ 64 ≤ (accounts toKey).lamports + lamports) .arithmeticOverflow
  pure (setLamports accounts toKey ((accounts toKey).lamports + lamports))

/-- `allocate` of a signed account: `SystemError::AccountAlreadyInUse` is `custom 0` and
`InvalidAccountDataLength` is `custom 3`. -/
def systemAllocate (accounts : Accounts) (key : Pubkey) (space : ℕ) :
    Except InstructionError Accounts := do
  failIf ((accounts key).data ≠ [] ∨ (accounts key).owner ≠ systemProgramId) (.custom 0)
  failIf (maxPermittedDataLength < space) (.custom 3)
  pure (setData accounts key (List.replicate space 0))

/-- `assign` of a signed account. -/
def systemAssign (accounts : Accounts) (key : Pubkey) (owner : Pubkey) : Accounts :=
  Function.update accounts key { accounts key with owner := owner }

/-- `set_state`: the bincode of the state written over the front of the data, which must be
long enough. -/
def setState (accounts : Accounts) (key : Pubkey) (state : ProgramState) :
    Except InstructionError Accounts :=
  let serialized := serializeProgramState state
  if (accounts key).data.length < serialized.length then .error .accountDataTooSmall
  else .ok (setData accounts key (serialized ++ (accounts key).data.drop serialized.length))

/-- `if required_lamports > 0 { native_invoke(transfer(payer, table, required_lamports)) }`,
the top-up of `create_lookup_table` and `extend_lookup_table`. -/
def transferRequiredLamports (accounts : Accounts) (payerKey tableKey : Pubkey)
    (requiredLamports : ℕ) : Except InstructionError Accounts :=
  if requiredLamports > 0 then systemTransfer accounts payerKey tableKey requiredLamports
  else pure accounts

/-! ## The handlers -/

/-- The meta update of `extend_lookup_table`: the first extension in a slot records the slot
and where the addresses of the slot start. -/
def extendMeta (lookupTableMeta : LookupTableMeta) (slot addressesLen : ℕ) :
    Except InstructionError LookupTableMeta :=
  if slot ≠ lookupTableMeta.lastExtendedSlot then
    match tryFrom 8 addressesLen with
    | some startIndex => .ok { lookupTableMeta with
        lastExtendedSlot := slot, lastExtendedSlotStartIndex := startIndex }
    | none => .error .invalidAccountData
  else .ok lookupTableMeta

section Handlers

variable (env : Env) (keyedAccounts : List KeyedAccount) (firstInstructionAccount : ℕ)

def createLookupTable (untrustedRecentSlot bumpSeed : ℕ) (accounts : Accounts) :
    Except InstructionError Accounts := do
  let lookupTableAccount ← keyedAccountAtIndex keyedAccounts firstInstructionAccount
  failIf ((accounts lookupTableAccount.key).data.length > 0) .accountAlreadyInitialized
  let authorityAccount ←
    keyedAccountAtIndex keyedAccounts (← checkedAddIndex firstInstructionAccount 1)
  let some authorityKey := authorityAccount.signerKey | throw .missingRequiredSignature
  let payerAccount ← keyedAccountAtIndex keyedAccounts (← checkedAddIndex firstInstructionAccount 2)
  let some payerKey := payerAccount.signerKey | throw .missingRequiredSignature
  failIf (slotHashesGet env.slotHashes untrustedRecentSlot).isNone .invalidInstructionData
  let derivationSlot := untrustedRecentSlot
  let derivedTableKey ← env.createProgramAddress authorityKey derivationSlot bumpSeed
  let tableKey := lookupTableAccount.key
  failIf (tableKey ≠ derivedTableKey) .invalidArgument
  let tableAccountDataLen := lookupTableMetaSize
  let requiredLamports :=
    max (env.rent.minimumBalance tableAccountDataLen) 1 - (accounts tableKey).lamports
  let accounts ← transferRequiredLamports accounts payerKey tableKey requiredLamports
  let accounts ← systemAllocate accounts tableKey tableAccountDataLen
  let accounts := systemAssign accounts tableKey lookupTableProgramId
  setState accounts tableKey (.lookupTable (.new authorityKey))

def freezeLookupTable (accounts : Accounts) : Except InstructionError Accounts := do
  let lookupTableAccount ← keyedAccountAtIndex keyedAccounts firstInstructionAccount
  failIf ((accounts lookupTableAccount.key).owner ≠ lookupTableProgramId) .invalidAccountOwner
  let authorityAccount ←
    keyedAccountAtIndex keyedAccounts (← checkedAddIndex firstInstructionAccount 1)
  failIf authorityAccount.signerKey.isNone .missingRequiredSignature
  let lookupTable ← AddressLookupTable.deserialize (accounts lookupTableAccount.key).data
  failIf lookupTable.lookupTableMeta.authority.isNone .immutable
  failIf (lookupTable.lookupTableMeta.authority ≠ some authorityAccount.key) .incorrectAuthority
  failIf (lookupTable.lookupTableMeta.deactivationSlot ≠ u64Max) .invalidArgument
  failIf lookupTable.addresses.isEmpty .invalidInstructionData
  let lookupTableMeta := { lookupTable.lookupTableMeta with authority := none }
  let data ← AddressLookupTable.overwriteMetaData (accounts lookupTableAccount.key).data
    lookupTableMeta
  pure (setData accounts lookupTableAccount.key data)

def extendLookupTable (newAddresses : List Pubkey) (accounts : Accounts) :
    Except InstructionError Accounts := do
  let lookupTableAccount ← keyedAccountAtIndex keyedAccounts firstInstructionAccount
  failIf ((accounts lookupTableAccount.key).owner ≠ lookupTableProgramId) .invalidAccountOwner
  let authorityAccount ←
    keyedAccountAtIndex keyedAccounts (← checkedAddIndex firstInstructionAccount 1)
  failIf authorityAccount.signerKey.isNone .missingRequiredSignature
  let payerAccount ← keyedAccountAtIndex keyedAccounts (← checkedAddIndex firstInstructionAccount 2)
  let some payerKey := payerAccount.signerKey | throw .missingRequiredSignature
  let lookupTable ← AddressLookupTable.deserialize (accounts lookupTableAccount.key).data
  failIf lookupTable.lookupTableMeta.authority.isNone .immutable
  failIf (lookupTable.lookupTableMeta.authority ≠ some authorityAccount.key) .incorrectAuthority
  failIf (lookupTable.lookupTableMeta.deactivationSlot ≠ u64Max) .invalidArgument
  failIf (lookupTableMaxAddresses ≤ lookupTable.addresses.length) .invalidArgument
  failIf newAddresses.isEmpty .invalidInstructionData
  let newTableAddressesLen := saturatingAdd 64 lookupTable.addresses.length newAddresses.length
  failIf (lookupTableMaxAddresses < newTableAddressesLen) .invalidInstructionData
  let lookupTableMeta ←
    extendMeta lookupTable.lookupTableMeta env.slot lookupTable.addresses.length
  let newTableDataLen ←
    checkedAddIndex lookupTableMetaSize (saturatingMul 64 newTableAddressesLen pubkeyBytes)
  let data ← AddressLookupTable.overwriteMetaData (accounts lookupTableAccount.key).data
    lookupTableMeta
  let accounts := setData accounts lookupTableAccount.key
    (data ++ newAddresses.flatMap (toLE pubkeyBytes))
  let requiredLamports :=
    max (env.rent.minimumBalance newTableDataLen) 1 - (accounts lookupTableAccount.key).lamports
  transferRequiredLamports accounts payerKey lookupTableAccount.key requiredLamports

def deactivateLookupTable (accounts : Accounts) : Except InstructionError Accounts := do
  let lookupTableAccount ← keyedAccountAtIndex keyedAccounts firstInstructionAccount
  failIf ((accounts lookupTableAccount.key).owner ≠ lookupTableProgramId) .invalidAccountOwner
  let authorityAccount ←
    keyedAccountAtIndex keyedAccounts (← checkedAddIndex firstInstructionAccount 1)
  failIf authorityAccount.signerKey.isNone .missingRequiredSignature
  let lookupTable ← AddressLookupTable.deserialize (accounts lookupTableAccount.key).data
  failIf lookupTable.lookupTableMeta.authority.isNone .immutable
  failIf (lookupTable.lookupTableMeta.authority ≠ some authorityAccount.key) .incorrectAuthority
  failIf (lookupTable.lookupTableMeta.deactivationSlot ≠ u64Max) .invalidArgument
  let lookupTableMeta := { lookupTable.lookupTableMeta with deactivationSlot := env.slot }
  let data ← AddressLookupTable.overwriteMetaData (accounts lookupTableAccount.key).data
    lookupTableMeta
  pure (setData accounts lookupTableAccount.key data)

def closeLookupTable (accounts : Accounts) : Except InstructionError Accounts := do
  let lookupTableAccount ← keyedAccountAtIndex keyedAccounts firstInstructionAccount
  failIf ((accounts lookupTableAccount.key).owner ≠ lookupTableProgramId) .invalidAccountOwner
  let authorityAccount ←
    keyedAccountAtIndex keyedAccounts (← checkedAddIndex firstInstructionAccount 1)
  failIf authorityAccount.signerKey.isNone .missingRequiredSignature
  let recipientAccount ←
    keyedAccountAtIndex keyedAccounts (← checkedAddIndex firstInstructionAccount 2)
  failIf (recipientAccount.key = lookupTableAccount.key) .invalidArgument
  let lookupTable ← AddressLookupTable.deserialize (accounts lookupTableAccount.key).data
  failIf lookupTable.lookupTableMeta.authority.isNone .immutable
  failIf (lookupTable.lookupTableMeta.authority ≠ some authorityAccount.key) .incorrectAuthority
  failIf (lookupTable.lookupTableMeta.status env.slot env.slotHashes ≠ .deactivated)
    .invalidArgument
  let withdrawnLamports := (accounts lookupTableAccount.key).lamports
  failIf (2 ^ 64 ≤ (accounts recipientAccount.key).lamports + withdrawnLamports)
    .arithmeticOverflow
  let accounts := setLamports accounts recipientAccount.key
    ((accounts recipientAccount.key).lamports + withdrawnLamports)
  pure (setLamports (setData accounts lookupTableAccount.key []) lookupTableAccount.key 0)

def processInstruction : ProgramInstruction → Accounts → Except InstructionError Accounts
  | .createLookupTable recentSlot bumpSeed =>
    createLookupTable env keyedAccounts firstInstructionAccount recentSlot bumpSeed
  | .freezeLookupTable => freezeLookupTable keyedAccounts firstInstructionAccount
  | .extendLookupTable newAddresses =>
    extendLookupTable env keyedAccounts firstInstructionAccount newAddresses
  | .deactivateLookupTable => deactivateLookupTable env keyedAccounts firstInstructionAccount
  | .closeLookupTable => closeLookupTable env keyedAccounts firstInstructionAccount

end Handlers


/-! ## What a successful handler did

One lemma per handler: the checks it passed and the table account it left. The system
program changes only lamports, except `allocate` and `assign` of the table. -/

@[simp] theorem setLamports_apply (accounts : Accounts) (key key' : Pubkey) (lamports : ℕ) :
    setLamports accounts key lamports key' =
      if key' = key then { accounts key with lamports := lamports } else accounts key' := by
  unfold setLamports
  by_cases h : key' = key
  · subst h
    simp
  · simp [h]

@[simp] theorem setData_apply (accounts : Accounts) (key key' : Pubkey) (data : List UInt8) :
    setData accounts key data key' =
      if key' = key then { accounts key with data := data } else accounts key' := by
  unfold setData
  by_cases h : key' = key
  · subst h
    simp
  · simp [h]

/-- A transfer moves lamports only. -/
theorem systemTransfer_eq_ok {accounts accounts' : Accounts} {fromKey toKey : Pubkey}
    {lamports : ℕ} (h : systemTransfer accounts fromKey toKey lamports = .ok accounts') :
    (accounts fromKey).data = [] ∧
      ∀ key, (accounts' key).data = (accounts key).data ∧
        (accounts' key).owner = (accounts key).owner := by
  unfold systemTransfer at h
  simp only [Except.bind_eq_ok, failIf_eq_ok, exists_const, ne_eq, not_not, not_lt,
    not_le] at h
  obtain ⟨hdata, -, -, hpure⟩ := h
  cases hpure
  refine ⟨hdata, fun key => ?_⟩
  by_cases h₁ : key = toKey <;> by_cases h₂ : key = fromKey <;> simp_all

theorem systemAllocate_eq_ok {accounts accounts' : Accounts} {key : Pubkey} {space : ℕ}
    (h : systemAllocate accounts key space = .ok accounts') :
    (accounts key).data = [] ∧ accounts' = setData accounts key (List.replicate space 0) := by
  unfold systemAllocate at h
  simp only [Except.bind_eq_ok, failIf_eq_ok, exists_const, not_or, ne_eq, not_not] at h
  obtain ⟨⟨hdata, -⟩, -, hpure⟩ := h
  cases hpure
  exact ⟨hdata, rfl⟩

/-- The top-up moves lamports only. -/
theorem transferRequiredLamports_eq_ok {accounts accounts' : Accounts} {payerKey tableKey : Pubkey}
    {requiredLamports : ℕ}
    (h : transferRequiredLamports accounts payerKey tableKey requiredLamports = .ok accounts') :
    ∀ key, (accounts' key).data = (accounts key).data ∧
      (accounts' key).owner = (accounts key).owner := by
  unfold transferRequiredLamports at h
  split at h
  · exact (systemTransfer_eq_ok h).2
  · cases h
    exact fun _ => ⟨rfl, rfl⟩

/-- The meta after an extension: the slot and the start of its addresses when the slot is
new. -/
theorem extendMeta_eq_ok {lookupTableMeta lookupTableMeta' : LookupTableMeta}
    {slot addressesLen : ℕ} (h : extendMeta lookupTableMeta slot addressesLen = .ok lookupTableMeta') :
    lookupTableMeta' = if slot ≠ lookupTableMeta.lastExtendedSlot then
      { lookupTableMeta with lastExtendedSlot := slot, lastExtendedSlotStartIndex := addressesLen }
      else lookupTableMeta := by
  unfold extendMeta at h
  split at h
  case isTrue hslot =>
    rw [if_pos hslot]
    cases hstart : tryFrom 8 addressesLen with
    | none => simp [hstart] at h
    | some startIndex =>
      simp only [hstart, Except.ok.injEq] at h
      rw [← h, (tryFrom_eq_some.mp hstart).2]
  case isFalse hslot =>
    rw [if_neg hslot]
    exact (Except.ok.inj h).symm

section HandlerSpecs

variable {env : Env} {keyedAccounts : List KeyedAccount} {firstInstructionAccount : ℕ}
  {accounts accounts' : Accounts}

theorem createLookupTable_eq_ok {recentSlot bumpSeed : ℕ}
    (h : createLookupTable env keyedAccounts firstInstructionAccount recentSlot bumpSeed
      accounts = .ok accounts') :
    ∃ lookupTableAccount authorityKey,
      keyedAccountAtIndex keyedAccounts firstInstructionAccount = .ok lookupTableAccount ∧
      (accounts lookupTableAccount.key).data = [] ∧
      (accounts' lookupTableAccount.key).data =
        serializeProgramState (.lookupTable (.new authorityKey)) ∧
      (accounts' lookupTableAccount.key).owner = lookupTableProgramId := by
  unfold createLookupTable at h
  simp only [Except.bind_eq_ok, failIf_eq_ok, exists_const, ne_eq, gt_iff_lt,
    not_lt, Nat.le_zero, List.length_eq_zero_iff] at h
  obtain ⟨lookupTableAccount, hkeyed, hempty, -, -, authorityAccount, -, h⟩ := h
  cases hauthority : authorityAccount.signerKey with
  | none => simp [hauthority] at h
  | some authorityKey =>
    simp only [hauthority, Except.bind_eq_ok] at h
    obtain ⟨-, -, payerAccount, -, h⟩ := h
    cases hpayer : payerAccount.signerKey with
    | none => simp [hpayer] at h
    | some payerKey =>
      simp only [hpayer, Except.bind_eq_ok, failIf_eq_ok, exists_const] at h
      obtain ⟨-, derived, -, -, funded, -, allocated, hallocated, hstate⟩ := h
      obtain ⟨-, rfl⟩ := systemAllocate_eq_ok hallocated
      unfold setState at hstate
      dsimp only at hstate
      split at hstate
      · cases hstate
      · cases hstate
        refine ⟨lookupTableAccount, authorityKey, hkeyed, hempty, ?_, ?_⟩
        · simp [systemAssign, serializeProgramState, serializeMeta, serializeAuthority,
            LookupTableMeta.new, LookupTableMeta.default, lookupTableMetaSize]
        · simp [systemAssign]

theorem freezeLookupTable_eq_ok
    (h : freezeLookupTable keyedAccounts firstInstructionAccount accounts = .ok accounts') :
    ∃ lookupTableAccount lookupTable data,
      keyedAccountAtIndex keyedAccounts firstInstructionAccount = .ok lookupTableAccount ∧
      (accounts lookupTableAccount.key).owner = lookupTableProgramId ∧
      AddressLookupTable.deserialize (accounts lookupTableAccount.key).data = .ok lookupTable ∧
      lookupTable.lookupTableMeta.authority.isSome ∧
      AddressLookupTable.overwriteMetaData (accounts lookupTableAccount.key).data
        { lookupTable.lookupTableMeta with authority := none } = .ok data ∧
      accounts' = setData accounts lookupTableAccount.key data := by
  unfold freezeLookupTable at h
  simp only [Except.bind_eq_ok, failIf_eq_ok, exists_const, ne_eq, not_not, Bool.not_eq_true,
    Option.isNone_eq_false_iff] at h
  obtain ⟨lookupTableAccount, hkeyed, howner, -, -, -, -, -, lookupTable, hdeserialize, hauthority,
    -, -, -, data, hdata, hpure⟩ := h
  cases hpure
  exact ⟨lookupTableAccount, lookupTable, data, hkeyed, howner, hdeserialize, hauthority, hdata,
    rfl⟩

theorem extendLookupTable_eq_ok {newAddresses : List Pubkey}
    (h : extendLookupTable env keyedAccounts firstInstructionAccount newAddresses accounts =
      .ok accounts') :
    ∃ lookupTableAccount lookupTable lookupTableMeta data,
      keyedAccountAtIndex keyedAccounts firstInstructionAccount = .ok lookupTableAccount ∧
      (accounts lookupTableAccount.key).owner = lookupTableProgramId ∧
      AddressLookupTable.deserialize (accounts lookupTableAccount.key).data = .ok lookupTable ∧
      lookupTable.lookupTableMeta.authority.isSome ∧
      newAddresses ≠ [] ∧
      lookupTable.addresses.length + newAddresses.length ≤ lookupTableMaxAddresses ∧
      extendMeta lookupTable.lookupTableMeta env.slot lookupTable.addresses.length =
        .ok lookupTableMeta ∧
      AddressLookupTable.overwriteMetaData (accounts lookupTableAccount.key).data
        lookupTableMeta = .ok data ∧
      (accounts' lookupTableAccount.key).data = data ++ newAddresses.flatMap (toLE pubkeyBytes) ∧
      (accounts' lookupTableAccount.key).owner = lookupTableProgramId := by
  unfold extendLookupTable at h
  simp only [Except.bind_eq_ok, failIf_eq_ok, exists_const, ne_eq, not_not, Bool.not_eq_true,
    Option.isNone_eq_false_iff] at h
  obtain ⟨lookupTableAccount, hkeyed, howner, -, -, authorityAccount, -, -, -, -, payerAccount,
    -, h⟩ := h
  cases hpayer : payerAccount.signerKey with
  | none => simp [hpayer] at h
  | some payerKey =>
    simp only [hpayer, Except.bind_eq_ok, failIf_eq_ok, exists_const, ne_eq, not_not,
      Bool.not_eq_true, Option.isNone_eq_false_iff, not_le, not_lt, List.isEmpty_eq_false_iff] at h
    obtain ⟨lookupTable, hdeserialize, hauthority, -, -, -, hnew, hlen, lookupTableMeta, hmeta,
      newTableDataLen, -, data, hdata, hfunded⟩ := h
    have hsum : lookupTable.addresses.length + newAddresses.length ≤ lookupTableMaxAddresses := by
      unfold saturatingAdd at hlen
      unfold lookupTableMaxAddresses at hlen ⊢
      omega
    have htable := transferRequiredLamports_eq_ok hfunded lookupTableAccount.key
    refine ⟨lookupTableAccount, lookupTable, lookupTableMeta, data, hkeyed, howner, hdeserialize,
      hauthority, hnew, hsum, hmeta, hdata, ?_, ?_⟩
    · simp [htable.1]
    · simp [htable.2, howner]

theorem deactivateLookupTable_eq_ok
    (h : deactivateLookupTable env keyedAccounts firstInstructionAccount accounts =
      .ok accounts') :
    ∃ lookupTableAccount lookupTable data,
      keyedAccountAtIndex keyedAccounts firstInstructionAccount = .ok lookupTableAccount ∧
      (accounts lookupTableAccount.key).owner = lookupTableProgramId ∧
      AddressLookupTable.deserialize (accounts lookupTableAccount.key).data = .ok lookupTable ∧
      lookupTable.lookupTableMeta.authority.isSome ∧
      AddressLookupTable.overwriteMetaData (accounts lookupTableAccount.key).data
        { lookupTable.lookupTableMeta with deactivationSlot := env.slot } = .ok data ∧
      accounts' = setData accounts lookupTableAccount.key data := by
  unfold deactivateLookupTable at h
  simp only [Except.bind_eq_ok, failIf_eq_ok, exists_const, ne_eq, not_not, Bool.not_eq_true,
    Option.isNone_eq_false_iff] at h
  obtain ⟨lookupTableAccount, hkeyed, howner, -, -, -, -, -, lookupTable, hdeserialize, hauthority,
    -, -, data, hdata, hpure⟩ := h
  cases hpure
  exact ⟨lookupTableAccount, lookupTable, data, hkeyed, howner, hdeserialize, hauthority, hdata,
    rfl⟩

/-- A closed table has no data and no lamports; it was deactivated. -/
theorem closeLookupTable_eq_ok
    (h : closeLookupTable env keyedAccounts firstInstructionAccount accounts = .ok accounts') :
    ∃ lookupTableAccount lookupTable,
      keyedAccountAtIndex keyedAccounts firstInstructionAccount = .ok lookupTableAccount ∧
      (accounts lookupTableAccount.key).owner = lookupTableProgramId ∧
      AddressLookupTable.deserialize (accounts lookupTableAccount.key).data = .ok lookupTable ∧
      lookupTable.lookupTableMeta.authority.isSome ∧
      lookupTable.lookupTableMeta.status env.slot env.slotHashes = .deactivated ∧
      accounts' lookupTableAccount.key =
        { accounts lookupTableAccount.key with data := [], lamports := 0 } := by
  unfold closeLookupTable at h
  simp only [Except.bind_eq_ok, failIf_eq_ok, exists_const, ne_eq, not_not, Bool.not_eq_true,
    Option.isNone_eq_false_iff] at h
  obtain ⟨lookupTableAccount, hkeyed, howner, -, -, authorityAccount, -, -, -, -, recipientAccount,
    -, hrecipient, lookupTable, hdeserialize, hauthority, -, hstatus, -, hpure⟩ := h
  cases hpure
  refine ⟨lookupTableAccount, lookupTable, hkeyed, howner, hdeserialize, hauthority, hstatus, ?_⟩
  simp [Ne.symm hrecipient]

end HandlerSpecs

end Solana.LookupTable
