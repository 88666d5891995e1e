import Solana.Lib.Bytes
import Solana.Lib.MachineInt
import Solana.Sdk.Basic
import Solana.Lib.BinarySearch

/-! `programs/address-lookup-table/src/state.rs`: the bincode of the meta, the addresses after it,
and `status` and `lookup` at a slot (`meta` is `lookupTableMeta`). -/

namespace Solana.LookupTable

open Bytes MachineInt

/-- `LOOKUP_TABLE_MAX_ADDRESSES`. -/
def lookupTableMaxAddresses : ℕ := 256

/-- `LOOKUP_TABLE_META_SIZE`. -/
def lookupTableMetaSize : ℕ := 56

/-- `slot_hashes::MAX_ENTRIES`. -/
def maxEntries : ℕ := 512

/-- `PUBKEY_BYTES`. -/
def pubkeyBytes : ℕ := 32

structure LookupTableMeta where
  deactivationSlot : ℕ
  lastExtendedSlot : ℕ
  lastExtendedSlotStartIndex : ℕ
  authority : Option Pubkey
  padding : ℕ
  deriving DecidableEq, Repr

/-- `LookupTableMeta::default()`: not deactivated (`Slot::MAX`) and frozen. -/
def LookupTableMeta.default : LookupTableMeta := ⟨u64Max, 0, 0, none, 0⟩

def LookupTableMeta.new (authority : Pubkey) : LookupTableMeta :=
  { LookupTableMeta.default with authority := some authority }

inductive ProgramState where
  | uninitialized
  | lookupTable (lookupTableMeta : LookupTableMeta)
  deriving DecidableEq, Repr

inductive LookupTableStatus where
  | activated
  | deactivating (remainingBlocks : ℕ)
  | deactivated
  deriving DecidableEq, Repr

/-- `SlotHashes::position`: a binary search of the slots, kept newest first. -/
def slotHashesPosition (slotHashes : List (ℕ × Hash)) (slot : ℕ) : Option ℕ :=
  (BinarySearch.binarySearchBy (fun probe => compare slot probe.1) slotHashes).toOption

/-- On slot hashes kept newest first the search finds the position of the slot. -/
theorem slotHashesPosition_eq_findIdx? {slotHashes : List (ℕ × Hash)}
    (hsorted : slotHashes.Pairwise fun a b => b.1 < a.1) (slot : ℕ) :
    slotHashesPosition slotHashes slot = slotHashes.findIdx? fun probe => slot = probe.1 := by
  rw [slotHashesPosition, BinarySearch.toOption_binarySearchBy
    (BinarySearch.partitioned_of_pairwise slot hsorted)]
  simp

namespace LookupTableMeta

def status (lookupTableMeta : LookupTableMeta) (currentSlot : ℕ)
    (slotHashes : List (ℕ × Hash)) : LookupTableStatus :=
  if lookupTableMeta.deactivationSlot = u64Max then .activated
  else if lookupTableMeta.deactivationSlot = currentSlot then
    .deactivating (saturatingAdd 64 maxEntries 1)
  else
    match slotHashesPosition slotHashes lookupTableMeta.deactivationSlot with
    | some slotHashPosition => .deactivating (maxEntries - slotHashPosition)
    | none => .deactivated

def isActive (lookupTableMeta : LookupTableMeta) (currentSlot : ℕ)
    (slotHashes : List (ℕ × Hash)) : Bool :=
  match lookupTableMeta.status currentSlot slotHashes with
  | .activated => true
  | .deactivating _ => true
  | .deactivated => false

end LookupTableMeta

/-! ## Bincode -/

def serializeAuthority : Option Pubkey → List UInt8
  | none => [0]
  | some key => 1 :: toLE 32 key

def serializeMeta (lookupTableMeta : LookupTableMeta) : List UInt8 :=
  toLE 8 lookupTableMeta.deactivationSlot ++ toLE 8 lookupTableMeta.lastExtendedSlot ++
    toLE 1 lookupTableMeta.lastExtendedSlotStartIndex ++
    serializeAuthority lookupTableMeta.authority ++ toLE 2 lookupTableMeta.padding

def serializeProgramState : ProgramState → List UInt8
  | .uninitialized => toLE 4 0
  | .lookupTable lookupTableMeta => toLE 4 1 ++ serializeMeta lookupTableMeta

def deserializeAuthority (bytes : List UInt8) : Option (Option Pubkey × List UInt8) := do
  let (tag, bytes) ← readLE 1 bytes
  match tag with
  | 0 => pure (none, bytes)
  | 1 =>
    let (key, bytes) ← readLE 32 bytes
    pure (some key, bytes)
  | _ => none

def deserializeMeta (bytes : List UInt8) : Option (LookupTableMeta × List UInt8) := do
  let (deactivationSlot, bytes) ← readLE 8 bytes
  let (lastExtendedSlot, bytes) ← readLE 8 bytes
  let (lastExtendedSlotStartIndex, bytes) ← readLE 1 bytes
  let (authority, bytes) ← deserializeAuthority bytes
  let (padding, bytes) ← readLE 2 bytes
  pure (⟨deactivationSlot, lastExtendedSlot, lastExtendedSlotStartIndex, authority, padding⟩,
    bytes)

def deserializeProgramState (bytes : List UInt8) : Option ProgramState := do
  let (tag, bytes) ← readLE 4 bytes
  match tag with
  | 0 => pure .uninitialized
  | 1 =>
    let (lookupTableMeta, _) ← deserializeMeta bytes
    pure (.lookupTable lookupTableMeta)
  | _ => none

/-! ## The table -/

structure AddressLookupTable where
  lookupTableMeta : LookupTableMeta
  addresses : List Pubkey
  deriving DecidableEq, Repr

inductive AddressLookupError where
  | lookupTableAccountNotFound
  | invalidAccountOwner
  | invalidAccountData
  | invalidLookupIndex
  deriving DecidableEq, Repr

namespace AddressLookupTable

/-- `overwrite_meta_data`: the first `LOOKUP_TABLE_META_SIZE` bytes zeroed and the meta
serialized into them. -/
def overwriteMetaData (data : List UInt8) (lookupTableMeta : LookupTableMeta) :
    Except InstructionError (List UInt8) :=
  if data.length < lookupTableMetaSize then .error .invalidAccountData
  else
    let serialized := serializeProgramState (.lookupTable lookupTableMeta)
    -- `serialize_into` a slice too short for the value fails
    if lookupTableMetaSize < serialized.length then .error .genericError
    else .ok (serialized ++ List.replicate (lookupTableMetaSize - serialized.length) 0 ++
      data.drop lookupTableMetaSize)

/-- `deserialize`: the meta from the front, the addresses cast from the bytes after
`LOOKUP_TABLE_META_SIZE`, which must be a whole number of keys. -/
def deserialize (data : List UInt8) : Except InstructionError AddressLookupTable :=
  match deserializeProgramState data with
  | none => .error .invalidAccountData
  | some .uninitialized => .error .uninitializedAccount
  | some (.lookupTable lookupTableMeta) =>
    if data.length < lookupTableMetaSize then .error .invalidAccountData
    else
      let rawAddressesData := data.drop lookupTableMetaSize
      if rawAddressesData.length % pubkeyBytes ≠ 0 then .error .invalidAccountData
      else .ok ⟨lookupTableMeta,
        ofLEChunks pubkeyBytes (rawAddressesData.length / pubkeyBytes) rawAddressesData⟩

def getActiveAddressesLen (table : AddressLookupTable) (currentSlot : ℕ)
    (slotHashes : List (ℕ × Hash)) : Except AddressLookupError ℕ :=
  if !table.lookupTableMeta.isActive currentSlot slotHashes then
    .error .lookupTableAccountNotFound
  else
    .ok (if currentSlot > table.lookupTableMeta.lastExtendedSlot then table.addresses.length
      else table.lookupTableMeta.lastExtendedSlotStartIndex)

/-- `lookup`: `none` is the panic of slicing `addresses[0..active_addresses_len]` past the
end. -/
def lookup (table : AddressLookupTable) (currentSlot : ℕ) (indexes : List ℕ)
    (slotHashes : List (ℕ × Hash)) : Option (Except AddressLookupError (List Pubkey)) :=
  match table.getActiveAddressesLen currentSlot slotHashes with
  | .error err => some (.error err)
  | .ok activeAddressesLen =>
    if table.addresses.length < activeAddressesLen then none
    else
      let activeAddresses := table.addresses.take activeAddressesLen
      match indexes.mapM fun idx => activeAddresses[idx]? with
      | some addresses => some (.ok addresses)
      | none => some (.error .invalidLookupIndex)

end AddressLookupTable

/-! ## Bincode round trips

A meta reads back from its bincode followed by anything, with each field modulo the range
of its Rust type (`LookupTableMeta.truncate`); a meta whose fields lie in those ranges
(`LookupTableMeta.Valid`) reads back whole, and everything bincode reads is in them. -/

/-- The meta bincode reads back: `u64` slots, a `u8` start index, a 32-byte key and a `u16`
padding. -/
def LookupTableMeta.truncate (lookupTableMeta : LookupTableMeta) : LookupTableMeta :=
  ⟨wrap 64 lookupTableMeta.deactivationSlot, wrap 64 lookupTableMeta.lastExtendedSlot,
    wrap 8 lookupTableMeta.lastExtendedSlotStartIndex, lookupTableMeta.authority.map (wrap 256),
    wrap 16 lookupTableMeta.padding⟩

/-- The fields of a meta in the ranges of their types. -/
structure LookupTableMeta.Valid (lookupTableMeta : LookupTableMeta) : Prop where
  deactivationSlot : lookupTableMeta.deactivationSlot < 2 ^ 64
  lastExtendedSlot : lookupTableMeta.lastExtendedSlot < 2 ^ 64
  lastExtendedSlotStartIndex : lookupTableMeta.lastExtendedSlotStartIndex < 2 ^ 8
  authority : ∀ key ∈ lookupTableMeta.authority, key < 2 ^ 256
  padding : lookupTableMeta.padding < 2 ^ 16

theorem LookupTableMeta.truncate_of_valid {lookupTableMeta : LookupTableMeta}
    (h : lookupTableMeta.Valid) : lookupTableMeta.truncate = lookupTableMeta := by
  obtain ⟨deactivationSlot, lastExtendedSlot, startIndex, authority, padding⟩ := lookupTableMeta
  have hauthority : authority.map (wrap 256) = authority := by
    cases authority with
    | none => rfl
    | some key => simp [wrap_of_lt (h.authority key rfl)]
  simp only [truncate, wrap_of_lt h.deactivationSlot, wrap_of_lt h.lastExtendedSlot,
    wrap_of_lt h.lastExtendedSlotStartIndex, wrap_of_lt h.padding, hauthority]

theorem deserializeAuthority_serializeAuthority (authority : Option Pubkey) (rest : List UInt8) :
    deserializeAuthority (serializeAuthority authority ++ rest) =
      some (authority.map (wrap 256), rest) := by
  cases authority with
  | none => rfl
  | some key =>
    have hone : (1 : UInt8) :: (toLE 32 key ++ rest) = toLE 1 1 ++ (toLE 32 key ++ rest) := rfl
    simp only [deserializeAuthority, serializeAuthority, List.cons_append, hone,
      readLE_toLE_append, Option.bind_eq_bind, Option.bind_some]
    rfl

theorem deserializeMeta_serializeMeta (lookupTableMeta : LookupTableMeta) (rest : List UInt8) :
    deserializeMeta (serializeMeta lookupTableMeta ++ rest) =
      some (lookupTableMeta.truncate, rest) := by
  simp only [deserializeMeta, serializeMeta, List.append_assoc, readLE_toLE_append,
    Option.bind_eq_bind, Option.bind_some, deserializeAuthority_serializeAuthority]
  rfl

theorem deserializeProgramState_lookupTable (lookupTableMeta : LookupTableMeta)
    (rest : List UInt8) :
    deserializeProgramState (serializeProgramState (.lookupTable lookupTableMeta) ++ rest) =
      some (.lookupTable lookupTableMeta.truncate) := by
  simp only [deserializeProgramState, serializeProgramState, List.append_assoc,
    readLE_toLE_append, Option.bind_eq_bind, Option.bind_some, deserializeMeta_serializeMeta]
  rfl

theorem readLE_lt {w : ℕ} {bytes rest : List UInt8} {n : ℕ}
    (h : readLE w bytes = some (n, rest)) : n < 2 ^ (8 * w) := by
  unfold readLE at h
  split at h
  case isTrue hw =>
    cases h
    have hlt := ofLE_lt (bytes.take w)
    rwa [List.length_take_of_le hw] at hlt
  case isFalse => cases h

theorem deserializeAuthority_lt {bytes rest : List UInt8} {authority : Option Pubkey}
    (h : deserializeAuthority bytes = some (authority, rest)) :
    ∀ key ∈ authority, key < 2 ^ 256 := by
  intro key hkey
  simp only [deserializeAuthority, Option.bind_eq_bind, Option.bind_eq_some_iff] at h
  obtain ⟨⟨tag, bytes'⟩, -, h⟩ := h
  split at h
  · simp only [Option.pure_def, Option.some.injEq, Prod.mk.injEq] at h
    rw [← h.1] at hkey
    cases hkey
  · simp only [Option.bind_eq_some_iff, Option.pure_def, Option.some.injEq, Prod.mk.injEq] at h
    obtain ⟨⟨key', bytes''⟩, hread, hauth, -⟩ := h
    rw [← hauth] at hkey
    cases hkey
    exact readLE_lt hread
  · cases h

theorem valid_of_deserializeMeta {bytes rest : List UInt8} {lookupTableMeta : LookupTableMeta}
    (h : deserializeMeta bytes = some (lookupTableMeta, rest)) : lookupTableMeta.Valid := by
  simp only [deserializeMeta, Option.bind_eq_bind, Option.bind_eq_some_iff, Option.pure_def,
    Option.some.injEq] at h
  obtain ⟨⟨d, b1⟩, hd, ⟨l, b2⟩, hl, ⟨i, b3⟩, hi, ⟨a, b4⟩, ha, ⟨p, b5⟩, hp, h⟩ := h
  cases h
  exact ⟨readLE_lt hd, readLE_lt hl, readLE_lt hi, deserializeAuthority_lt ha, readLE_lt hp⟩

theorem valid_of_deserializeProgramState {bytes : List UInt8}
    {lookupTableMeta : LookupTableMeta}
    (h : deserializeProgramState bytes = some (.lookupTable lookupTableMeta)) :
    lookupTableMeta.Valid := by
  simp only [deserializeProgramState, Option.bind_eq_bind, Option.bind_eq_some_iff] at h
  obtain ⟨⟨tag, rest⟩, -, h⟩ := h
  split at h
  · cases h
  · obtain ⟨⟨m, rest'⟩, hm, h⟩ := Option.bind_eq_some_iff.mp h
    cases h
    exact valid_of_deserializeMeta hm
  · cases h

theorem length_serializeProgramState_le (lookupTableMeta : LookupTableMeta) :
    (serializeProgramState (.lookupTable lookupTableMeta)).length ≤ lookupTableMetaSize := by
  cases h : lookupTableMeta.authority <;>
    simp [serializeProgramState, serializeMeta, serializeAuthority, h, lookupTableMetaSize]

namespace AddressLookupTable

/-- Overwriting the meta of data that holds one keeps the length and the bytes after it. -/
theorem overwriteMetaData_eq_ok {data : List UInt8} (hdata : lookupTableMetaSize ≤ data.length)
    (lookupTableMeta : LookupTableMeta) :
    overwriteMetaData data lookupTableMeta = .ok
      (serializeProgramState (.lookupTable lookupTableMeta) ++
        List.replicate (lookupTableMetaSize -
          (serializeProgramState (.lookupTable lookupTableMeta)).length) 0 ++
        data.drop lookupTableMetaSize) := by
  have hfits := length_serializeProgramState_le lookupTableMeta
  simp only [overwriteMetaData, if_neg (Nat.not_lt.mpr hdata), if_neg (Nat.not_lt.mpr hfits)]

/-- What `deserialize` accepts: a meta in range, then a whole number of keys. -/
theorem deserialize_eq_ok {data : List UInt8} {table : AddressLookupTable}
    (h : deserialize data = .ok table) :
    table.lookupTableMeta.Valid ∧ lookupTableMetaSize ≤ data.length ∧
      (data.length - lookupTableMetaSize) % pubkeyBytes = 0 ∧
      table.addresses = ofLEChunks pubkeyBytes ((data.length - lookupTableMetaSize) / pubkeyBytes)
        (data.drop lookupTableMetaSize) := by
  unfold deserialize at h
  split at h
  · cases h
  · cases h
  · rename_i lookupTableMeta hstate
    split at h
    · cases h
    · rename_i hlen
      simp only [List.length_drop] at h
      split at h
      · cases h
      · rename_i hmod
        cases h
        exact ⟨valid_of_deserializeProgramState hstate, Nat.le_of_not_lt hlen,
          Decidable.of_not_not hmod, rfl⟩

/-- Overwriting the meta keeps the length of the data. -/
theorem length_overwriteMetaData {data data' : List UInt8} {lookupTableMeta : LookupTableMeta}
    (h : overwriteMetaData data lookupTableMeta = .ok data') : data'.length = data.length := by
  unfold overwriteMetaData at h
  split at h
  · cases h
  · dsimp only at h
    split at h
    · cases h
    · rename_i hdata hfits
      cases h
      simp only [List.length_append, List.length_replicate, List.length_drop]
      omega

/-- The data `create_lookup_table` writes is a table with no addresses. -/
theorem deserialize_serializeProgramState_new (authority : Pubkey) :
    deserialize (serializeProgramState (.lookupTable (.new authority))) =
      .ok ⟨(LookupTableMeta.new authority).truncate, []⟩ := by
  have hlen : (serializeProgramState (.lookupTable (.new authority))).length =
      lookupTableMetaSize := by
    simp [serializeProgramState, serializeMeta, serializeAuthority, LookupTableMeta.new,
      LookupTableMeta.default, lookupTableMetaSize]
  have hstate := deserializeProgramState_lookupTable (.new authority) []
  rw [List.append_nil] at hstate
  unfold deserialize
  simp only [hstate, hlen, lt_irrefl, if_false, List.drop_eq_nil_of_le (Nat.le_of_eq hlen),
    List.length_nil, Nat.zero_mod, Nat.zero_div, ne_eq, not_true_eq_false, ofLEChunks]

/-- A meta written over a table reads back with the table's keys, and so do keys appended
after it. -/
theorem deserialize_overwriteMetaData {data : List UInt8} {table : AddressLookupTable}
    (h : deserialize data = .ok table) (lookupTableMeta : LookupTableMeta) (more : List UInt8)
    (hmore : more.length % pubkeyBytes = 0) :
    ∃ data', overwriteMetaData data lookupTableMeta = .ok data' ∧ data'.length = data.length ∧
      deserialize (data' ++ more) = .ok ⟨lookupTableMeta.truncate,
        table.addresses ++ ofLEChunks pubkeyBytes (more.length / pubkeyBytes) more⟩ := by
  obtain ⟨-, hdata, hkeys, haddresses⟩ := deserialize_eq_ok h
  have hfits := length_serializeProgramState_le lookupTableMeta
  set front := serializeProgramState (.lookupTable lookupTableMeta) ++
    List.replicate (lookupTableMetaSize -
      (serializeProgramState (.lookupTable lookupTableMeta)).length) 0 with hfront
  have hmeta : front.length = lookupTableMetaSize := by
    simp only [hfront, List.length_append, List.length_replicate]
    omega
  have hkeys' : (data.drop lookupTableMetaSize).length =
      pubkeyBytes * ((data.length - lookupTableMetaSize) / pubkeyBytes) := by
    rw [List.length_drop]
    exact (Nat.mul_div_cancel' (Nat.dvd_of_mod_eq_zero hkeys)).symm
  have hcount : (data.drop lookupTableMetaSize ++ more).length / pubkeyBytes =
      (data.length - lookupTableMetaSize) / pubkeyBytes + more.length / pubkeyBytes := by
    rw [List.length_append, List.length_drop]
    unfold pubkeyBytes at hkeys hmore ⊢
    omega
  refine ⟨_, overwriteMetaData_eq_ok hdata lookupTableMeta, ?_, ?_⟩
  · rw [← hfront, List.length_append, hmeta, List.length_drop]
    omega
  · have hlen : lookupTableMetaSize ≤ (front ++ (data.drop lookupTableMetaSize ++ more)).length := by
      rw [List.length_append, hmeta]
      omega
    have hmod : (data.drop lookupTableMetaSize ++ more).length % pubkeyBytes = 0 := by
      rw [List.length_append, List.length_drop]
      unfold pubkeyBytes at hkeys hmore ⊢
      omega
    unfold deserialize
    simp only [List.append_assoc]
    rw [deserializeProgramState_lookupTable,
      ← List.append_assoc (serializeProgramState (.lookupTable lookupTableMeta)), ← hfront]
    simp only [if_neg (Nat.not_lt.mpr hlen), List.drop_left' hmeta, hmod, ne_eq,
      not_true_eq_false, if_false, hcount, ofLEChunks_append _ more _ hkeys', haddresses]

end AddressLookupTable

end Solana.LookupTable
