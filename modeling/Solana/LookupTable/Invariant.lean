import Solana.LookupTable.Processor

/-! Lookup tables are append-only over any run of the program's instructions
(`TableInvariant.trackSteps`), with a ghost list of the slot each address was appended in. -/

namespace Solana.LookupTable

open Bytes MachineInt

/-- An instruction of the program with the sysvars and the accounts of its transaction. -/
structure Step where
  env : Env
  keyedAccounts : List KeyedAccount
  firstInstructionAccount : ℕ
  instruction : ProgramInstruction

namespace Step

/-- The accounts after the step: the transaction of a failed instruction changes nothing. -/
def apply (step : Step) (accounts : Accounts) : Accounts :=
  match processInstruction step.env step.keyedAccounts step.firstInstructionAccount
      step.instruction accounts with
  | .ok accounts' => accounts'
  | .error _ => accounts

/-- The step's table account, when it names one, is the account at `tableKey`. -/
def OnTable (step : Step) (tableKey : Pubkey) : Prop :=
  ∀ account ∈ step.keyedAccounts[step.firstInstructionAccount]?, account.key = tableKey

instance (step : Step) (tableKey : Pubkey) : Decidable (step.OnTable tableKey) :=
  inferInstanceAs (Decidable (∀ account ∈ _, _))

theorem OnTable.key_eq {step : Step} {tableKey : Pubkey} (h : step.OnTable tableKey)
    {account : KeyedAccount}
    (hkeyed : keyedAccountAtIndex step.keyedAccounts step.firstInstructionAccount =
      .ok account) : account.key = tableKey := by
  unfold keyedAccountAtIndex at hkeyed
  split at hkeyed
  · rename_i keyedAccount hat
    cases hkeyed
    exact h _ hat
  · cases hkeyed

theorem apply_eq_of_ok {step : Step} {accounts accounts' : Accounts}
    (h : processInstruction step.env step.keyedAccounts step.firstInstructionAccount
      step.instruction accounts = .ok accounts') : step.apply accounts = accounts' := by
  rw [apply, h]

theorem apply_eq_of_error {step : Step} {accounts : Accounts} {e : InstructionError}
    (h : processInstruction step.env step.keyedAccounts step.firstInstructionAccount
      step.instruction accounts = .error e) : step.apply accounts = accounts := by
  rw [apply, h]

end Step

/-! ## The slots of the addresses -/

/-- The number of keys the data of a table holds after its meta. -/
def addressesLen (data : List UInt8) : ℕ := (data.length - lookupTableMetaSize) / pubkeyBytes

/-- The slots of the addresses after a step that left `len` of them: those still there keep
theirs, new ones get the step's. -/
def appendSlots (slots : List ℕ) (len slot : ℕ) : List ℕ :=
  slots.take len ++ List.replicate (len - slots.length) slot

/-- A step on the accounts and on the slots the table's addresses were appended in. -/
def trackStep (tableKey : Pubkey) (step : Step) (state : Accounts × List ℕ) :
    Accounts × List ℕ :=
  let accounts := step.apply state.1
  (accounts, appendSlots state.2 (addressesLen (accounts tableKey).data) step.env.slot)

def trackSteps (tableKey : Pubkey) (steps : List Step) (state : Accounts × List ℕ) :
    Accounts × List ℕ :=
  steps.foldl (fun state step => trackStep tableKey step state) state

theorem addressesLen_of_length {data : List UInt8} {len : ℕ}
    (h : data.length = lookupTableMetaSize + pubkeyBytes * len) : addressesLen data = len := by
  rw [addressesLen, h, Nat.add_sub_cancel_left, Nat.mul_div_cancel_left _ (by decide)]

@[simp] theorem appendSlots_length (slots : List ℕ) (slot : ℕ) :
    appendSlots slots slots.length slot = slots := by
  simp [appendSlots]

@[simp] theorem appendSlots_zero (slots : List ℕ) (slot : ℕ) : appendSlots slots 0 slot = [] := by
  simp [appendSlots]

theorem appendSlots_add (slots : List ℕ) (count slot : ℕ) :
    appendSlots slots (slots.length + count) slot = slots ++ List.replicate count slot := by
  simp [appendSlots]

@[simp] theorem trackStep_fst (tableKey : Pubkey) (step : Step) (state : Accounts × List ℕ) :
    (trackStep tableKey step state).1 = step.apply state.1 := rfl

theorem trackSteps_cons (tableKey : Pubkey) (step : Step) (steps : List Step)
    (state : Accounts × List ℕ) :
    trackSteps tableKey (step :: steps) state =
      trackSteps tableKey steps (trackStep tableKey step state) := rfl

theorem trackSteps_take_succ {tableKey : Pubkey} {steps : List Step} {k : ℕ} {step : Step}
    (h : steps[k]? = some step) (state : Accounts × List ℕ) :
    trackSteps tableKey (steps.take (k + 1)) state =
      trackStep tableKey step (trackSteps tableKey (steps.take k) state) := by
  rw [List.take_add_one, h, trackSteps, trackSteps, List.foldl_append]
  rfl

theorem trackSteps_take_succ_of_none {tableKey : Pubkey} {steps : List Step} {k : ℕ}
    (h : steps[k]? = none) (state : Accounts × List ℕ) :
    trackSteps tableKey (steps.take (k + 1)) state = trackSteps tableKey (steps.take k) state := by
  rw [List.take_add_one, h, Option.toList_none, List.append_nil]

/-! ## Lookups against the slots -/

/-- The address at `index` when it was appended before `slot`. -/
def appendedBefore (addresses : List Pubkey) (slots : List ℕ) (slot index : ℕ) :
    Option Pubkey :=
  match addresses[index]?, slots[index]? with
  | some address, some appended => if appended < slot then some address else none
  | _, _ => none

/-- A lookup at `slot` as it should be: every index resolves to an address appended before
the slot, or the lookup fails with `InvalidLookupIndex`. -/
def lookupSpec (addresses : List Pubkey) (slots : List ℕ) (slot : ℕ) (indexes : List ℕ) :
    Except AddressLookupError (List Pubkey) :=
  match indexes.mapM (appendedBefore addresses slots slot) with
  | some resolved => .ok resolved
  | none => .error .invalidLookupIndex

/-- What the meta of a table says of the slots of its addresses, with `clock` the slot of
the latest step: the addresses from the start index on were appended in the slot of the
last extension, those before it earlier, and that slot has come. -/
structure History (table : AddressLookupTable) (slots : List ℕ) (clock : ℕ) : Prop where
  length_slots : slots.length = table.addresses.length
  length_le : table.addresses.length ≤ lookupTableMaxAddresses
  start_le : table.lookupTableMeta.lastExtendedSlotStartIndex ≤ table.addresses.length
  lt_of_lt_start : ∀ {index slot}, slots[index]? = some slot →
    index < table.lookupTableMeta.lastExtendedSlotStartIndex →
      slot < table.lookupTableMeta.lastExtendedSlot
  eq_of_start_le : ∀ {index slot}, slots[index]? = some slot →
    table.lookupTableMeta.lastExtendedSlotStartIndex ≤ index →
      slot = table.lookupTableMeta.lastExtendedSlot
  lastExtendedSlot_le : table.lookupTableMeta.lastExtendedSlot ≤ clock

namespace History

variable {table : AddressLookupTable} {slots : List ℕ} {clock : ℕ}

theorem slot_le (h : History table slots clock) {index slot : ℕ}
    (hslot : slots[index]? = some slot) : slot ≤ table.lookupTableMeta.lastExtendedSlot := by
  by_cases hstart : index < table.lookupTableMeta.lastExtendedSlotStartIndex
  · exact Nat.le_of_lt (h.lt_of_lt_start hslot hstart)
  · exact Nat.le_of_eq (h.eq_of_start_le hslot (Nat.le_of_not_lt hstart))

/-- A new meta with the same addresses, last extension and start index, at a later clock. -/
theorem of_meta (h : History table slots clock) {table' : AddressLookupTable} {clock' : ℕ}
    (haddresses : table'.addresses = table.addresses)
    (hslot : table'.lookupTableMeta.lastExtendedSlot = table.lookupTableMeta.lastExtendedSlot)
    (hstart : table'.lookupTableMeta.lastExtendedSlotStartIndex =
      table.lookupTableMeta.lastExtendedSlotStartIndex)
    (hclock : clock ≤ clock') : History table' slots clock' where
  length_slots := haddresses ▸ h.length_slots
  length_le := haddresses ▸ h.length_le
  start_le := haddresses ▸ hstart ▸ h.start_le
  lt_of_lt_start hat hindex := hslot ▸ h.lt_of_lt_start hat (hstart ▸ hindex)
  eq_of_start_le hat hindex := hslot ▸ h.eq_of_start_le hat (hstart ▸ hindex)
  lastExtendedSlot_le := hslot ▸ Nat.le_trans h.lastExtendedSlot_le hclock

theorem mono (h : History table slots clock) {clock' : ℕ} (hclock : clock ≤ clock') :
    History table slots clock' :=
  h.of_meta rfl rfl rfl hclock

/-- A slot of the appended list: an old one, or the slot of the extension. -/
theorem getElem?_append_replicate {slots : List ℕ} {count slot index appended : ℕ}
    (h : (slots ++ List.replicate count slot)[index]? = some appended) :
    (index < slots.length ∧ slots[index]? = some appended) ∨
      (slots.length ≤ index ∧ appended = slot) := by
  by_cases hindex : index < slots.length
  · rw [List.getElem?_append_left hindex] at h
    exact .inl ⟨hindex, h⟩
  · rw [List.getElem?_append_right (Nat.le_of_not_lt hindex), List.getElem?_replicate] at h
    split at h
    · exact .inr ⟨Nat.le_of_not_lt hindex, (Option.some.inj h).symm⟩
    · cases h

/-- `extend_lookup_table` in a slot after the last extension: the slot and where its
addresses start are recorded. -/
theorem extend_of_ne (h : History table slots clock) {slot : ℕ} {newAddresses : List Pubkey}
    (hclock : clock ≤ slot) (hne : slot ≠ table.lookupTableMeta.lastExtendedSlot)
    (hlen : table.addresses.length + newAddresses.length ≤ lookupTableMaxAddresses) :
    History ⟨{ table.lookupTableMeta with
        lastExtendedSlot := slot, lastExtendedSlotStartIndex := table.addresses.length },
      table.addresses ++ newAddresses⟩
      (slots ++ List.replicate newAddresses.length slot) slot where
  length_slots := by simp [h.length_slots]
  length_le := by simpa using hlen
  start_le := by simp
  lt_of_lt_start hat hindex := by
    rcases getElem?_append_replicate hat with ⟨-, hold⟩ | ⟨hindex', -⟩
    · have hold_le := h.slot_le hold
      have hlast := h.lastExtendedSlot_le
      dsimp only
      omega
    · rw [h.length_slots] at hindex'
      exact absurd hindex (Nat.not_lt_of_le hindex')
  eq_of_start_le hat hindex := by
    rcases getElem?_append_replicate hat with ⟨hindex', -⟩ | ⟨-, rfl⟩
    · rw [h.length_slots] at hindex'
      exact absurd hindex (Nat.not_le_of_lt hindex')
    · rfl
  lastExtendedSlot_le := Nat.le_refl slot

/-- `extend_lookup_table` again in the slot of the last extension: the meta is kept. -/
theorem extend_of_eq (h : History table slots clock) {slot : ℕ} {newAddresses : List Pubkey}
    (heq : slot = table.lookupTableMeta.lastExtendedSlot)
    (hlen : table.addresses.length + newAddresses.length ≤ lookupTableMaxAddresses) :
    History ⟨table.lookupTableMeta, table.addresses ++ newAddresses⟩
      (slots ++ List.replicate newAddresses.length slot) slot where
  length_slots := by simp [h.length_slots]
  length_le := by simpa using hlen
  start_le := by
    have := h.start_le
    simp only [List.length_append]
    omega
  lt_of_lt_start hat hindex := by
    rcases getElem?_append_replicate hat with ⟨-, hold⟩ | ⟨hindex', -⟩
    · exact h.lt_of_lt_start hold hindex
    · have := h.start_le
      rw [h.length_slots] at hindex'
      dsimp only at hindex
      omega
  eq_of_start_le hat hindex := by
    rcases getElem?_append_replicate hat with ⟨-, hold⟩ | ⟨-, rfl⟩
    · exact h.eq_of_start_le hold hindex
    · exact heq
  lastExtendedSlot_le := Nat.le_of_eq heq.symm

/-- The addresses a lookup at `slot` sees are those appended before it. -/
theorem getElem?_take_active (h : History table slots clock) {slot : ℕ}
    (hslot : table.lookupTableMeta.lastExtendedSlot ≤ slot) (index : ℕ) :
    (table.addresses.take (if slot > table.lookupTableMeta.lastExtendedSlot then
        table.addresses.length else table.lookupTableMeta.lastExtendedSlotStartIndex))[index]? =
      appendedBefore table.addresses slots slot index := by
  unfold appendedBefore
  cases haddress : table.addresses[index]? with
  | none => simp [List.getElem?_take, haddress]
  | some address =>
    have hindex : index < slots.length := by
      rw [h.length_slots]
      exact (List.getElem?_eq_some_iff.mp haddress).1
    obtain ⟨appended, happended⟩ : ∃ appended, slots[index]? = some appended :=
      ⟨_, List.getElem?_eq_getElem hindex⟩
    have hle := h.slot_le happended
    simp only [List.getElem?_take, haddress, happended]
    split
    case isTrue hafter =>
      have hactive : index < table.addresses.length := by
        rw [← h.length_slots]
        exact hindex
      simp only [hactive, if_true, show appended < slot by omega]
    case isFalse hat =>
      have hslot' : slot = table.lookupTableMeta.lastExtendedSlot := by omega
      by_cases hstart : index < table.lookupTableMeta.lastExtendedSlotStartIndex
      · simp only [hstart, if_true, hslot', h.lt_of_lt_start happended hstart]
      · have heq := h.eq_of_start_le happended (Nat.le_of_not_lt hstart)
        simp only [hstart, if_false, hslot', heq, lt_irrefl]

/-- A lookup on an active table at a slot from its last extension on resolves the
addresses appended before that slot. -/
theorem lookup_eq (h : History table slots clock) {slot : ℕ}
    (hslot : table.lookupTableMeta.lastExtendedSlot ≤ slot) {slotHashes : List (ℕ × Hash)}
    (hactive : table.lookupTableMeta.isActive slot slotHashes = true) (indexes : List ℕ) :
    table.lookup slot indexes slotHashes =
      some (lookupSpec table.addresses slots slot indexes) := by
  have hlen : ¬table.addresses.length < if slot > table.lookupTableMeta.lastExtendedSlot then
      table.addresses.length else table.lookupTableMeta.lastExtendedSlotStartIndex := by
    have := h.start_le
    split <;> omega
  have hactive' : (fun index => (table.addresses.take
      (if slot > table.lookupTableMeta.lastExtendedSlot then table.addresses.length
        else table.lookupTableMeta.lastExtendedSlotStartIndex))[index]?) =
      appendedBefore table.addresses slots slot :=
    funext (h.getElem?_take_active hslot)
  simp only [AddressLookupTable.lookup, AddressLookupTable.getActiveAddressesLen, hactive,
    Bool.not_true, Bool.false_eq_true, if_false, hlen, hactive', lookupSpec]
  cases indexes.mapM (appendedBefore table.addresses slots slot) <;> rfl

end History

/-! ## The invariant -/

/-- A meta written over a table, and keys appended after it, read back. -/
theorem deserialize_overwriteMetaData_append {data data' : List UInt8}
    {table : AddressLookupTable} (htable : AddressLookupTable.deserialize data = .ok table)
    {lookupTableMeta : LookupTableMeta}
    (hdata : AddressLookupTable.overwriteMetaData data lookupTableMeta = .ok data')
    (newAddresses : List Pubkey) :
    AddressLookupTable.deserialize (data' ++ newAddresses.flatMap (toLE pubkeyBytes)) =
      .ok ⟨lookupTableMeta.truncate,
        table.addresses ++ newAddresses.map (· % 2 ^ (8 * pubkeyBytes))⟩ := by
  have hmore : (newAddresses.flatMap (toLE pubkeyBytes)).length % pubkeyBytes = 0 := by
    simp
  obtain ⟨data'', hdata'', -, hdeserialize⟩ :=
    AddressLookupTable.deserialize_overwriteMetaData htable lookupTableMeta _ hmore
  rw [hdata] at hdata''
  cases hdata''
  have hkeys : (newAddresses.flatMap (toLE pubkeyBytes)).length / pubkeyBytes =
      newAddresses.length := by
    simp [pubkeyBytes]
  rwa [hkeys, ofLEChunks_flatMap_toLE] at hdeserialize

/-- The table account and the slots of its addresses after a run, at the slot `clock` of
its latest step. -/
inductive TableInvariant (tableKey : Pubkey) (clock : ℕ) : Accounts × List ℕ → Prop
  | empty {accounts : Accounts} :
      (accounts tableKey).data = [] → TableInvariant tableKey clock (accounts, [])
  | table {accounts : Accounts} {slots : List ℕ} {table : AddressLookupTable} :
      AddressLookupTable.deserialize (accounts tableKey).data = .ok table →
      (accounts tableKey).data.length =
        lookupTableMetaSize + pubkeyBytes * table.addresses.length →
      History table slots clock → TableInvariant tableKey clock (accounts, slots)

namespace TableInvariant

variable {tableKey : Pubkey} {clock : ℕ} {accounts : Accounts} {slots : List ℕ}

theorem deserialize_nil : AddressLookupTable.deserialize [] = .error .invalidAccountData := rfl

theorem addressesLen_eq (h : TableInvariant tableKey clock (accounts, slots)) :
    addressesLen (accounts tableKey).data = slots.length := by
  cases h with
  | empty hempty => simp [hempty, addressesLen]
  | table _ hlength hhistory => rw [addressesLen_of_length hlength, hhistory.length_slots]

theorem mono (h : TableInvariant tableKey clock (accounts, slots)) {clock' : ℕ}
    (hclock : clock ≤ clock') : TableInvariant tableKey clock' (accounts, slots) := by
  cases h with
  | empty hempty => exact .empty hempty
  | table htable hlength hhistory => exact .table htable hlength (hhistory.mono hclock)

/-- The table read back, when the account holds one. -/
theorem eq_table (h : TableInvariant tableKey clock (accounts, slots))
    {table : AddressLookupTable}
    (hdeserialize : AddressLookupTable.deserialize (accounts tableKey).data = .ok table) :
    (accounts tableKey).data.length =
      lookupTableMetaSize + pubkeyBytes * table.addresses.length ∧ History table slots clock := by
  cases h with
  | empty hempty => rw [hempty, deserialize_nil] at hdeserialize; cases hdeserialize
  | table htable hlength hhistory =>
    rw [htable] at hdeserialize
    cases hdeserialize
    exact ⟨hlength, hhistory⟩

/-- The account is empty or holds a table; the table's lookups are those of its history. -/
theorem layout {state : Accounts × List ℕ} (h : TableInvariant tableKey clock state) :
    (state.1 tableKey).data = [] ∨ ∃ table,
      AddressLookupTable.deserialize (state.1 tableKey).data = .ok table ∧
      (state.1 tableKey).data.length =
        lookupTableMetaSize + pubkeyBytes * table.addresses.length ∧
      table.addresses.length ≤ lookupTableMaxAddresses ∧
      ∀ slot slotHashes indexes, table.lookupTableMeta.lastExtendedSlot ≤ slot →
        table.lookupTableMeta.isActive slot slotHashes = true →
        table.lookup slot indexes slotHashes =
          some (lookupSpec table.addresses state.2 slot indexes) := by
  cases h with
  | empty hempty => exact .inl hempty
  | table htable hlength hhistory =>
    exact .inr ⟨_, htable, hlength, hhistory.length_le,
      fun _ _ indexes hslot hactive => hhistory.lookup_eq hslot hactive indexes⟩

theorem exists_table {state : Accounts × List ℕ} (h : TableInvariant tableKey clock state)
    (hne : (state.1 tableKey).data ≠ []) :
    ∃ table, AddressLookupTable.deserialize (state.1 tableKey).data = .ok table := by
  rcases h.layout with hempty | ⟨table, htable, -⟩
  · exact absurd hempty hne
  · exact ⟨table, htable⟩

/-- A meta rewritten over the table, with new keys after the old ones. -/
theorem of_overwriteMetaData {table : AddressLookupTable}
    (htable : AddressLookupTable.deserialize (accounts tableKey).data = .ok table)
    (hlength : (accounts tableKey).data.length =
      lookupTableMetaSize + pubkeyBytes * table.addresses.length)
    {lookupTableMeta : LookupTableMeta} {data : List UInt8}
    (hdata : AddressLookupTable.overwriteMetaData (accounts tableKey).data lookupTableMeta =
      .ok data)
    (newAddresses : List Pubkey) {accounts' : Accounts}
    (haccount : (accounts' tableKey).data = data ++ newAddresses.flatMap (toLE pubkeyBytes))
    {slots' : List ℕ} {clock' : ℕ}
    (hhistory : History ⟨lookupTableMeta.truncate,
      table.addresses ++ newAddresses.map (· % 2 ^ (8 * pubkeyBytes))⟩ slots' clock') :
    TableInvariant tableKey clock' (accounts', slots') := by
  have hdeserialize := deserialize_overwriteMetaData_append htable hdata newAddresses
  rw [← haccount] at hdeserialize
  refine .table hdeserialize ?_ hhistory
  simp only [haccount, List.length_append, AddressLookupTable.length_overwriteMetaData hdata,
    hlength, length_flatMap_toLE, List.length_map]
  ring

end TableInvariant

/-! ## What each handler keeps -/

section Handlers

variable {env : Env} {keyedAccounts : List KeyedAccount} {firstInstructionAccount : ℕ}
  {tableKey : Pubkey} {clock : ℕ} {accounts accounts' : Accounts} {slots : List ℕ}

/-- The handlers read the table at the step's first instruction account. -/
def TableAt (keyedAccounts : List KeyedAccount) (firstInstructionAccount : ℕ)
    (tableKey : Pubkey) : Prop :=
  ∀ account, keyedAccountAtIndex keyedAccounts firstInstructionAccount = .ok account →
    account.key = tableKey

theorem createLookupTable_invariant {recentSlot bumpSeed : ℕ}
    (hinv : TableInvariant tableKey clock (accounts, slots))
    (hkey : TableAt keyedAccounts firstInstructionAccount tableKey)
    (h : createLookupTable env keyedAccounts firstInstructionAccount recentSlot bumpSeed
      accounts = .ok accounts') :
    TableInvariant tableKey env.slot
      (accounts', appendSlots slots (addressesLen (accounts' tableKey).data) env.slot) := by
  obtain ⟨lookupTableAccount, authorityKey, hkeyed, hempty, hdata, -⟩ :=
    createLookupTable_eq_ok h
  rw [hkey _ hkeyed] at hempty hdata
  have hslots : slots = [] := by
    have := hinv.addressesLen_eq
    rw [hempty] at this
    exact List.eq_nil_of_length_eq_zero (by simpa [addressesLen] using this.symm)
  have hdeserialize := AddressLookupTable.deserialize_serializeProgramState_new authorityKey
  rw [← hdata] at hdeserialize
  have hlength : (accounts' tableKey).data.length = lookupTableMetaSize + pubkeyBytes * 0 := by
    rw [hdata]
    simp [serializeProgramState, serializeMeta, serializeAuthority, LookupTableMeta.new,
      LookupTableMeta.default, lookupTableMetaSize]
  rw [hslots, addressesLen_of_length hlength, appendSlots_zero]
  refine .table hdeserialize hlength
    { length_slots := rfl, length_le := by simp [lookupTableMaxAddresses], start_le := ?_, lt_of_lt_start := ?_,
      eq_of_start_le := ?_, lastExtendedSlot_le := ?_ } <;>
    simp [LookupTableMeta.truncate, LookupTableMeta.new, LookupTableMeta.default, wrap]

/-- `freeze_lookup_table` and `deactivate_lookup_table` rewrite the meta and keep the last
extension. -/
theorem invariant_of_overwriteMeta {lookupTableAccount : KeyedAccount}
    (hinv : TableInvariant tableKey clock (accounts, slots))
    (hkeyed : lookupTableAccount.key = tableKey) {table : AddressLookupTable}
    (hdeserialize : AddressLookupTable.deserialize (accounts lookupTableAccount.key).data =
      .ok table)
    {lookupTableMeta : LookupTableMeta} {data : List UInt8}
    (hdata : AddressLookupTable.overwriteMetaData (accounts lookupTableAccount.key).data
      lookupTableMeta = .ok data)
    (hslot : lookupTableMeta.lastExtendedSlot = table.lookupTableMeta.lastExtendedSlot)
    (hstart : lookupTableMeta.lastExtendedSlotStartIndex =
      table.lookupTableMeta.lastExtendedSlotStartIndex)
    {slot : ℕ} (hclock : clock ≤ slot) :
    TableInvariant tableKey slot (setData accounts lookupTableAccount.key data,
      appendSlots slots (addressesLen (setData accounts lookupTableAccount.key data
        tableKey).data) slot) := by
  rw [hkeyed] at hdeserialize hdata ⊢
  obtain ⟨hlength, hhistory⟩ := hinv.eq_table hdeserialize
  have hvalid := (AddressLookupTable.deserialize_eq_ok hdeserialize).1
  have hlength' : (setData accounts tableKey data tableKey).data.length =
      lookupTableMetaSize + pubkeyBytes * table.addresses.length := by
    rw [setData_apply, if_pos rfl, AddressLookupTable.length_overwriteMetaData hdata, hlength]
  rw [addressesLen_of_length hlength', ← hhistory.length_slots, appendSlots_length]
  refine TableInvariant.of_overwriteMetaData hdeserialize hlength hdata [] (by simp)
    (hhistory.of_meta (by simp) ?_ ?_ hclock)
  · simp only [LookupTableMeta.truncate, hslot, wrap_of_lt hvalid.lastExtendedSlot]
  · simp only [LookupTableMeta.truncate, hstart, wrap_of_lt hvalid.lastExtendedSlotStartIndex]

theorem freezeLookupTable_invariant
    (hinv : TableInvariant tableKey clock (accounts, slots))
    (hkey : TableAt keyedAccounts firstInstructionAccount tableKey)
    (hclock : clock ≤ env.slot)
    (h : freezeLookupTable keyedAccounts firstInstructionAccount accounts = .ok accounts') :
    TableInvariant tableKey env.slot
      (accounts', appendSlots slots (addressesLen (accounts' tableKey).data) env.slot) := by
  obtain ⟨lookupTableAccount, table, data, hkeyed, -, hdeserialize, -, hdata, rfl⟩ :=
    freezeLookupTable_eq_ok h
  exact invariant_of_overwriteMeta hinv (hkey _ hkeyed) hdeserialize hdata rfl rfl hclock

theorem deactivateLookupTable_invariant
    (hinv : TableInvariant tableKey clock (accounts, slots))
    (hkey : TableAt keyedAccounts firstInstructionAccount tableKey)
    (hclock : clock ≤ env.slot)
    (h : deactivateLookupTable env keyedAccounts firstInstructionAccount accounts =
      .ok accounts') :
    TableInvariant tableKey env.slot
      (accounts', appendSlots slots (addressesLen (accounts' tableKey).data) env.slot) := by
  obtain ⟨lookupTableAccount, table, data, hkeyed, -, hdeserialize, -, hdata, rfl⟩ :=
    deactivateLookupTable_eq_ok h
  exact invariant_of_overwriteMeta hinv (hkey _ hkeyed) hdeserialize hdata rfl rfl hclock

theorem extendLookupTable_invariant {newAddresses : List Pubkey}
    (hinv : TableInvariant tableKey clock (accounts, slots))
    (hkey : TableAt keyedAccounts firstInstructionAccount tableKey)
    (hclock : clock ≤ env.slot) (hslot : env.slot < 2 ^ 64)
    (h : extendLookupTable env keyedAccounts firstInstructionAccount newAddresses accounts =
      .ok accounts') :
    TableInvariant tableKey env.slot
      (accounts', appendSlots slots (addressesLen (accounts' tableKey).data) env.slot) := by
  obtain ⟨lookupTableAccount, table, lookupTableMeta, data, hkeyed, -, hdeserialize, -, hnew,
    hlen, hmeta, hdata, haccount, -⟩ := extendLookupTable_eq_ok h
  rw [hkey _ hkeyed] at hdeserialize hdata haccount
  obtain ⟨hlength, hhistory⟩ := hinv.eq_table hdeserialize
  have hvalid := (AddressLookupTable.deserialize_eq_ok hdeserialize).1
  have hlength' : (accounts' tableKey).data.length = lookupTableMetaSize +
      pubkeyBytes * (table.addresses.length + newAddresses.length) := by
    rw [haccount, List.length_append, AddressLookupTable.length_overwriteMetaData hdata,
      hlength, length_flatMap_toLE]
    ring
  rw [addressesLen_of_length hlength', ← hhistory.length_slots, appendSlots_add]
  refine TableInvariant.of_overwriteMetaData hdeserialize hlength hdata newAddresses haccount ?_
  have hnew' := List.length_pos_of_ne_nil hnew
  have hwrapped : (newAddresses.map (· % 2 ^ (8 * pubkeyBytes))).length =
      newAddresses.length := List.length_map _
  rw [extendMeta_eq_ok hmeta, ← hwrapped]
  split
  case isTrue hne =>
    have hstart : table.addresses.length < 2 ^ 8 := by
      unfold lookupTableMaxAddresses at hlen
      omega
    have htruncate : LookupTableMeta.truncate { table.lookupTableMeta with
        lastExtendedSlot := env.slot, lastExtendedSlotStartIndex := table.addresses.length } =
        { table.lookupTableMeta with
          lastExtendedSlot := env.slot, lastExtendedSlotStartIndex := table.addresses.length } :=
      LookupTableMeta.truncate_of_valid
        ⟨hvalid.deactivationSlot, hslot, hstart, hvalid.authority, hvalid.padding⟩
    rw [htruncate]
    exact hhistory.extend_of_ne hclock hne (by rw [hwrapped]; exact hlen)
  case isFalse heq =>
    rw [LookupTableMeta.truncate_of_valid hvalid]
    exact hhistory.extend_of_eq (Decidable.of_not_not heq) (by rw [hwrapped]; exact hlen)

theorem closeLookupTable_invariant
    (hkey : TableAt keyedAccounts firstInstructionAccount tableKey)
    (h : closeLookupTable env keyedAccounts firstInstructionAccount accounts = .ok accounts') :
    TableInvariant tableKey env.slot
      (accounts', appendSlots slots (addressesLen (accounts' tableKey).data) env.slot) := by
  obtain ⟨lookupTableAccount, -, hkeyed, -, -, -, -, haccount⟩ := closeLookupTable_eq_ok h
  rw [hkey _ hkeyed] at haccount
  have hempty : (accounts' tableKey).data = [] := by rw [haccount]
  have hlen : addressesLen (accounts' tableKey).data = 0 := by simp [hempty, addressesLen]
  rw [hlen, appendSlots_zero]
  exact .empty hempty

end Handlers

/-! ## Runs -/

section Runs

variable {tableKey : Pubkey}

theorem Step.OnTable.tableAt {step : Step} (h : step.OnTable tableKey) :
    TableAt step.keyedAccounts step.firstInstructionAccount tableKey :=
  fun _ hkeyed => h.key_eq hkeyed

/-- One step keeps the invariant, at the step's slot. -/
theorem TableInvariant.trackStep {clock : ℕ} {state : Accounts × List ℕ} {step : Step}
    (hinv : TableInvariant tableKey clock state) (hon : step.OnTable tableKey)
    (hclock : clock ≤ step.env.slot) (hslot : step.env.slot < 2 ^ 64) :
    TableInvariant tableKey step.env.slot (trackStep tableKey step state) := by
  obtain ⟨accounts, slots⟩ := state
  have hkey := hon.tableAt
  unfold LookupTable.trackStep Step.apply
  split
  case h_1 accounts' hstep =>
    revert hstep
    cases step.instruction with
    | createLookupTable recentSlot bumpSeed => exact createLookupTable_invariant hinv hkey
    | freezeLookupTable => exact freezeLookupTable_invariant hinv hkey hclock
    | extendLookupTable newAddresses => exact extendLookupTable_invariant hinv hkey hclock hslot
    | deactivateLookupTable => exact deactivateLookupTable_invariant hinv hkey hclock
    | closeLookupTable => exact closeLookupTable_invariant hkey
  case h_2 =>
    dsimp only
    rw [hinv.addressesLen_eq, appendSlots_length]
    exact hinv.mono hclock

/-- A run under a clock that does not go back keeps the invariant. -/
theorem TableInvariant.trackSteps {steps : List Step} {clock : ℕ} {state : Accounts × List ℕ}
    (hinv : TableInvariant tableKey clock state)
    (hsteps : ∀ step ∈ steps,
      step.OnTable tableKey ∧ step.env.slot < 2 ^ 64 ∧ clock ≤ step.env.slot)
    (hclock : steps.Pairwise (fun step step' => step.env.slot ≤ step'.env.slot)) :
    ∃ clock', TableInvariant tableKey clock' (LookupTable.trackSteps tableKey steps state) := by
  induction steps generalizing clock state with
  | nil => exact ⟨clock, hinv⟩
  | cons step steps ih =>
    obtain ⟨hon, hslot, hle⟩ := hsteps step List.mem_cons_self
    have hpairwise := List.pairwise_cons.mp hclock
    rw [trackSteps_cons]
    refine ih (hinv.trackStep hon hle hslot) (fun step' hstep' => ?_) hpairwise.2
    obtain ⟨hon', hslot', -⟩ := hsteps step' (List.mem_cons_of_mem _ hstep')
    exact ⟨hon', hslot', hpairwise.1 step' hstep'⟩

/-- What a step can do to the table account: nothing, create it from an empty account,
rewrite the meta of a table with an authority and append keys, or close a deactivated
table. -/
theorem Step.apply_cases {step : Step} (hon : step.OnTable tableKey) (accounts : Accounts) :
    step.apply accounts = accounts ∨
    (accounts tableKey).data = [] ∨
    (∃ table lookupTableMeta data, ∃ newAddresses : List Pubkey,
      AddressLookupTable.deserialize (accounts tableKey).data = .ok table ∧
      table.lookupTableMeta.authority.isSome ∧
      AddressLookupTable.overwriteMetaData (accounts tableKey).data lookupTableMeta =
        .ok data ∧
      (step.apply accounts tableKey).data = data ++ newAddresses.flatMap (toLE pubkeyBytes)) ∨
    (step.instruction = .closeLookupTable ∧ ∃ table,
      AddressLookupTable.deserialize (accounts tableKey).data = .ok table ∧
      table.lookupTableMeta.authority.isSome ∧
      table.lookupTableMeta.status step.env.slot step.env.slotHashes = .deactivated ∧
      (step.apply accounts tableKey).data = []) := by
  have hkey := hon.tableAt
  obtain ⟨env, keyedAccounts, firstInstructionAccount, instruction⟩ := step
  cases hstep : processInstruction env keyedAccounts firstInstructionAccount instruction accounts
    with
  | error e => exact .inl (Step.apply_eq_of_error hstep)
  | ok accounts' =>
    rw [Step.apply_eq_of_ok hstep]
    refine .inr ?_
    revert hstep
    cases instruction with
    | createLookupTable recentSlot bumpSeed =>
      intro hstep
      obtain ⟨lookupTableAccount, -, hkeyed, hempty, -⟩ := createLookupTable_eq_ok hstep
      rw [hkey _ hkeyed] at hempty
      exact .inl hempty
    | freezeLookupTable =>
      intro hstep
      obtain ⟨lookupTableAccount, table, data, hkeyed, -, hdeserialize, hauthority, hdata, rfl⟩ :=
        freezeLookupTable_eq_ok hstep
      rw [hkey _ hkeyed] at hdeserialize hdata
      exact .inr (.inl ⟨table, _, data, [], hdeserialize, hauthority, hdata, by simp [hkey _ hkeyed]⟩)
    | extendLookupTable newAddresses =>
      intro hstep
      obtain ⟨lookupTableAccount, table, lookupTableMeta, data, hkeyed, -, hdeserialize,
        hauthority, -, -, -, hdata, haccount, -⟩ := extendLookupTable_eq_ok hstep
      rw [hkey _ hkeyed] at hdeserialize hdata haccount
      exact .inr (.inl ⟨table, lookupTableMeta, data, newAddresses, hdeserialize, hauthority,
        hdata, haccount⟩)
    | deactivateLookupTable =>
      intro hstep
      obtain ⟨lookupTableAccount, table, data, hkeyed, -, hdeserialize, hauthority, hdata, rfl⟩ :=
        deactivateLookupTable_eq_ok hstep
      rw [hkey _ hkeyed] at hdeserialize hdata
      exact .inr (.inl ⟨table, _, data, [], hdeserialize, hauthority, hdata, by simp [hkey _ hkeyed]⟩)
    | closeLookupTable =>
      intro hstep
      obtain ⟨lookupTableAccount, table, hkeyed, -, hdeserialize, hauthority, hstatus,
        haccount⟩ := closeLookupTable_eq_ok hstep
      rw [hkey _ hkeyed] at hdeserialize haccount
      exact .inr (.inr ⟨rfl, table, hdeserialize, hauthority, hstatus, by rw [haccount]⟩)

/-- A step keeps the addresses of a table it leaves a table. -/
theorem Step.addresses_isPrefix {step : Step} (hon : step.OnTable tableKey)
    {accounts : Accounts} {table table' : AddressLookupTable}
    (hdeserialize : AddressLookupTable.deserialize (accounts tableKey).data = .ok table)
    (hdeserialize' : AddressLookupTable.deserialize (step.apply accounts tableKey).data =
      .ok table') : table.addresses <+: table'.addresses := by
  rcases step.apply_cases hon accounts with
    hsame | hempty | ⟨table'', lookupTableMeta, data, newAddresses, htable, -, hdata, haccount⟩ |
    ⟨-, -, -, -, -, hclosed⟩
  · rw [hsame, hdeserialize] at hdeserialize'
    cases hdeserialize'
    exact List.prefix_refl _
  · rw [hempty, TableInvariant.deserialize_nil] at hdeserialize
    cases hdeserialize
  · rw [hdeserialize] at htable
    cases htable
    rw [haccount, deserialize_overwriteMetaData_append hdeserialize hdata] at hdeserialize'
    cases hdeserialize'
    exact List.prefix_append _ _
  · rw [hclosed, TableInvariant.deserialize_nil] at hdeserialize'
    cases hdeserialize'

/-- A step leaves a frozen table, and every other account, as it was. -/
theorem Step.apply_of_frozen {step : Step} (hon : step.OnTable tableKey)
    {accounts : Accounts} {table : AddressLookupTable}
    (hdeserialize : AddressLookupTable.deserialize (accounts tableKey).data = .ok table)
    (hfrozen : table.lookupTableMeta.authority = none) : step.apply accounts = accounts := by
  rcases step.apply_cases hon accounts with
    hsame | hempty | ⟨table', lookupTableMeta, data, newAddresses, htable, hauthority, -⟩ |
    ⟨-, table', htable, hauthority, -⟩
  · exact hsame
  · rw [hempty, TableInvariant.deserialize_nil] at hdeserialize
    cases hdeserialize
  all_goals
    rw [hdeserialize] at htable
    cases htable
    rw [hfrozen] at hauthority
    cases hauthority

/-- Only `close_lookup_table`, of a deactivated table, empties the account. -/
theorem Step.closed_of_emptied {step : Step} (hon : step.OnTable tableKey)
    {accounts : Accounts} (hne : (accounts tableKey).data ≠ [])
    (hemptied : (step.apply accounts tableKey).data = []) :
    step.instruction = .closeLookupTable ∧ ∃ table,
      AddressLookupTable.deserialize (accounts tableKey).data = .ok table ∧
      table.lookupTableMeta.status step.env.slot step.env.slotHashes = .deactivated := by
  rcases step.apply_cases hon accounts with
    hsame | hempty | ⟨table, lookupTableMeta, data, newAddresses, -, -, hdata, haccount⟩ |
    ⟨hclose, table, hdeserialize, -, hstatus, -⟩
  · rw [hsame] at hemptied
    exact absurd hemptied hne
  · exact absurd hempty hne
  · rw [haccount] at hemptied
    have hlength := AddressLookupTable.length_overwriteMetaData hdata
    rw [(List.append_eq_nil_iff.mp hemptied).1, List.length_nil] at hlength
    exact absurd (List.eq_nil_of_length_eq_zero hlength.symm) hne
  · exact ⟨hclose, table, hdeserialize, hstatus⟩

end Runs

/-! ## Whole runs -/

/-- The accounts, and the slots of the table's addresses, after the first `k` steps of a run
from `accounts`. -/
def trackPrefix (tableKey : Pubkey) (steps : List Step) (accounts : Accounts) (k : ℕ) :
    Accounts × List ℕ :=
  trackSteps tableKey (steps.take k) (accounts, [])

/-- A run that keeps the table at `tableKey` append-only. At every point the account is empty
or holds a table of at most `LOOKUP_TABLE_MAX_ADDRESSES` keys, 32 bytes each after the meta,
whose lookups at a slot from its last extension on resolve the addresses appended before
that slot. A table keeps its addresses while it is not closed, a frozen table is never
changed, and only `close_lookup_table` of a deactivated table empties the account. -/
structure AppendOnly (tableKey : Pubkey) (steps : List Step) (accounts : Accounts) : Prop where
  layout_lookup : ∀ k, ((trackPrefix tableKey steps accounts k).1 tableKey).data = [] ∨
    ∃ table, AddressLookupTable.deserialize
        ((trackPrefix tableKey steps accounts k).1 tableKey).data = .ok table ∧
      ((trackPrefix tableKey steps accounts k).1 tableKey).data.length =
        lookupTableMetaSize + pubkeyBytes * table.addresses.length ∧
      table.addresses.length ≤ lookupTableMaxAddresses ∧
      ∀ slot slotHashes indexes, table.lookupTableMeta.lastExtendedSlot ≤ slot →
        table.lookupTableMeta.isActive slot slotHashes = true →
        table.lookup slot indexes slotHashes =
          some (lookupSpec table.addresses (trackPrefix tableKey steps accounts k).2 slot indexes)
  keeps_addresses : ∀ j k table table', j ≤ k →
    (∀ i, j < i → i ≤ k → ((trackPrefix tableKey steps accounts i).1 tableKey).data ≠ []) →
    AddressLookupTable.deserialize ((trackPrefix tableKey steps accounts j).1 tableKey).data =
      .ok table →
    AddressLookupTable.deserialize ((trackPrefix tableKey steps accounts k).1 tableKey).data =
      .ok table' →
    table.addresses <+: table'.addresses
  frozen_unchanged : ∀ j k table, j ≤ k →
    AddressLookupTable.deserialize ((trackPrefix tableKey steps accounts j).1 tableKey).data =
      .ok table →
    table.lookupTableMeta.authority = none →
    (trackPrefix tableKey steps accounts k).1 = (trackPrefix tableKey steps accounts j).1
  closed_deactivated : ∀ k step, steps[k]? = some step →
    ((trackPrefix tableKey steps accounts k).1 tableKey).data ≠ [] →
    ((trackPrefix tableKey steps accounts (k + 1)).1 tableKey).data = [] →
    step.instruction = .closeLookupTable ∧ ∃ table,
      AddressLookupTable.deserialize ((trackPrefix tableKey steps accounts k).1 tableKey).data =
        .ok table ∧
      table.lookupTableMeta.status step.env.slot step.env.slotHashes = .deactivated

section Prefixes

variable {tableKey : Pubkey} {steps : List Step} {accounts : Accounts}

theorem trackPrefix_succ {k : ℕ} {step : Step} (h : steps[k]? = some step) :
    trackPrefix tableKey steps accounts (k + 1) =
      trackStep tableKey step (trackPrefix tableKey steps accounts k) :=
  trackSteps_take_succ h _

theorem trackPrefix_succ_of_none {k : ℕ} (h : steps[k]? = none) :
    trackPrefix tableKey steps accounts (k + 1) = trackPrefix tableKey steps accounts k :=
  trackSteps_take_succ_of_none h _

/- Every step of the run names the table first, and its slot is a `u64`. -/
variable (hsteps : ∀ step ∈ steps, step.OnTable tableKey ∧ step.env.slot < 2 ^ 64)

include hsteps

theorem trackPrefix_frozen {j : ℕ} {table : AddressLookupTable}
    (htable : AddressLookupTable.deserialize
      ((trackPrefix tableKey steps accounts j).1 tableKey).data = .ok table)
    (hfrozen : table.lookupTableMeta.authority = none) {k : ℕ} (hjk : j ≤ k) :
    (trackPrefix tableKey steps accounts k).1 = (trackPrefix tableKey steps accounts j).1 := by
  induction k, hjk using Nat.le_induction with
  | base => rfl
  | succ k hjk ih =>
    cases hstep : steps[k]? with
    | none => rw [trackPrefix_succ_of_none hstep, ih]
    | some step =>
      have hon := (hsteps step (List.mem_of_getElem? hstep)).1
      rw [← ih] at htable
      rw [trackPrefix_succ hstep, trackStep_fst, Step.apply_of_frozen hon htable hfrozen, ih]

theorem trackPrefix_closed {k : ℕ} {step : Step} (hstep : steps[k]? = some step)
    (hne : ((trackPrefix tableKey steps accounts k).1 tableKey).data ≠ [])
    (hemptied : ((trackPrefix tableKey steps accounts (k + 1)).1 tableKey).data = []) :
    step.instruction = .closeLookupTable ∧ ∃ table,
      AddressLookupTable.deserialize ((trackPrefix tableKey steps accounts k).1 tableKey).data =
        .ok table ∧
      table.lookupTableMeta.status step.env.slot step.env.slotHashes = .deactivated := by
  rw [trackPrefix_succ hstep, trackStep_fst] at hemptied
  exact Step.closed_of_emptied (hsteps step (List.mem_of_getElem? hstep)).1 hne hemptied

/- The run starts from an empty account, and the clock does not go back. -/
variable (hempty : (accounts tableKey).data = [])
  (hclock : steps.Pairwise fun step step' => step.env.slot ≤ step'.env.slot)

include hempty hclock

theorem invariant_trackPrefix (k : ℕ) :
    ∃ clock, TableInvariant tableKey clock (trackPrefix tableKey steps accounts k) := by
  have hstart : TableInvariant tableKey 0 (accounts, []) := .empty hempty
  refine hstart.trackSteps (fun step hstep => ?_) (hclock.sublist (List.take_sublist _ _))
  obtain ⟨hon, hslot⟩ := hsteps step (List.mem_of_mem_take hstep)
  exact ⟨hon, hslot, Nat.zero_le _⟩

theorem trackPrefix_keeps_addresses {j : ℕ} {table : AddressLookupTable}
    (htable : AddressLookupTable.deserialize
      ((trackPrefix tableKey steps accounts j).1 tableKey).data = .ok table)
    {k : ℕ} (hjk : j ≤ k)
    (hopen : ∀ i, j < i → i ≤ k → ((trackPrefix tableKey steps accounts i).1 tableKey).data ≠ [])
    {table' : AddressLookupTable}
    (htable' : AddressLookupTable.deserialize
      ((trackPrefix tableKey steps accounts k).1 tableKey).data = .ok table') :
    table.addresses <+: table'.addresses := by
  induction k, hjk using Nat.le_induction generalizing table' with
  | base =>
    rw [htable] at htable'
    cases htable'
    exact List.prefix_refl _
  | succ k hjk ih =>
    obtain ⟨tableAt, htableAt⟩ : ∃ tableAt, AddressLookupTable.deserialize
        ((trackPrefix tableKey steps accounts k).1 tableKey).data = .ok tableAt := by
      rcases Nat.eq_or_lt_of_le hjk with rfl | hlt
      · exact ⟨table, htable⟩
      · obtain ⟨clock, hinv⟩ := invariant_trackPrefix hsteps hempty hclock k
        exact hinv.exists_table (hopen k hlt (Nat.le_succ k))
    have hbefore := ih (fun i hi hik => hopen i hi (Nat.le_succ_of_le hik)) htableAt
    cases hstep : steps[k]? with
    | none =>
      rw [trackPrefix_succ_of_none hstep, htableAt] at htable'
      cases htable'
      exact hbefore
    | some step =>
      rw [trackPrefix_succ hstep, trackStep_fst] at htable'
      have hon := (hsteps step (List.mem_of_getElem? hstep)).1
      exact hbefore.trans (Step.addresses_isPrefix hon htableAt htable')

end Prefixes

/-- Every run on one table account from an empty one, under a clock whose slot never
decreases, keeps the table append-only, with same-slot extensions hidden from lookups. -/
theorem lookupTable_appendOnly (tableKey : Pubkey) (steps : List Step) (accounts : Accounts)
    (hempty : (accounts tableKey).data = [])
    (hsteps : ∀ step ∈ steps, step.OnTable tableKey ∧ step.env.slot < 2 ^ 64)
    (hclock : steps.Pairwise fun step step' => step.env.slot ≤ step'.env.slot) :
    AppendOnly tableKey steps accounts where
  layout_lookup k := by
    obtain ⟨clock, hinv⟩ := invariant_trackPrefix hsteps hempty hclock k
    exact hinv.layout
  keeps_addresses _ _ _ _ hjk hopen htable htable' :=
    trackPrefix_keeps_addresses hsteps hempty hclock htable hjk hopen htable'
  frozen_unchanged _ _ _ hjk htable hfrozen :=
    trackPrefix_frozen hsteps htable hfrozen hjk
  closed_deactivated _ _ hstep hne hemptied :=
    trackPrefix_closed hsteps hstep hne hemptied

/-- A table created from the slot hash of slot 0, extended by two addresses and then by one,
and frozen: it ends with three addresses. -/
theorem lookupTable_appendOnly_createExtend :
    let env : ℕ → Env := fun slot => ⟨slot, [(0, 7)], ⟨1, 2⟩, fun _ _ _ => .ok 5⟩
    let keyedAccounts : List KeyedAccount := [⟨5, false⟩, ⟨6, true⟩, ⟨7, true⟩]
    let steps : List Step := [⟨env 1, keyedAccounts, 0, .createLookupTable 0 255⟩,
      ⟨env 1, keyedAccounts, 0, .extendLookupTable [8, 9]⟩,
      ⟨env 2, keyedAccounts, 0, .extendLookupTable [10]⟩,
      ⟨env 3, keyedAccounts, 0, .freezeLookupTable⟩]
    let accounts : Accounts := fun _ => ⟨1000, [], 0⟩
    (accounts 5).data = [] ∧
      (∀ step ∈ steps, step.OnTable 5 ∧ step.env.slot < 2 ^ 64) ∧
      (steps.Pairwise fun step step' => step.env.slot ≤ step'.env.slot) ∧
      (steps.foldl (fun acc step => step.apply acc) accounts 5).data.length =
        lookupTableMetaSize + 32 * 3 ∧
      AppendOnly 5 steps accounts := by
  intro env keyedAccounts steps accounts
  have hsteps : ∀ step ∈ steps, step.OnTable 5 ∧ step.env.slot < 2 ^ 64 := by decide
  have hslots : steps.Pairwise fun step step' => step.env.slot ≤ step'.env.slot := by decide
  have hcreated : (steps.foldl (fun acc step => step.apply acc) accounts 5).data.length =
      lookupTableMetaSize + 32 * 3 := by decide +kernel
  exact ⟨rfl, hsteps, hslots, hcreated, lookupTable_appendOnly _ _ _ rfl hsteps hslots⟩

end Solana.LookupTable
