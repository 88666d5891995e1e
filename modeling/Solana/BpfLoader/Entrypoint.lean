import Solana.BpfLoader.Serialization

/-! `entrypoint::deserialize` and its deprecated twin, reading the loader's input through raw
pointers; a read past the end is `none`, and a cell is the offset it points at. -/

namespace Solana.BpfLoader

open Bytes

/-- `AccountInfo`: the lamports and the data are where they lie in the input. -/
structure AccountInfo where
  key : Pubkey
  isSigner : Bool
  isWritable : Bool
  lamportsAt : ℕ
  dataAt : ℕ
  dataLen : ℕ
  owner : Pubkey
  executable : Bool
  rentEpoch : ℕ
  deriving DecidableEq, Repr

/-- `*(input.add(offset) as *const u8)`. -/
def readU8 (input : List UInt8) (offset : ℕ) : Option ℕ := input[offset]?.map UInt8.toNat

/-- `*(input.add(offset) as *const Pubkey)`. -/
def readPubkey (input : List UInt8) (offset : ℕ) : Option Pubkey :=
  (slice input offset (offset + 32)).map ofLE

/-- The lamports an `AccountInfo` holds, read through its cell. -/
def AccountInfo.lamports (input : List UInt8) (info : AccountInfo) : Option ℕ :=
  readU64 input info.lamportsAt

/-- The data an `AccountInfo` holds, read through its cell. -/
def AccountInfo.data (input : List UInt8) (info : AccountInfo) : Option (List UInt8) :=
  slice input info.dataAt (info.dataAt + info.dataLen)

namespace Entrypoint

variable (input : List UInt8)

/-- One account of `entrypoint::deserialize`: an account in full after `u8::MAX`, or the
position of the earlier `AccountInfo` it clones. -/
def deserializeAccount (accounts : List AccountInfo) (offset : ℕ) :
    Option (List AccountInfo × ℕ) := do
  let dupInfo ← readU8 input offset
  let offset := offset + 1
  if dupInfo = 255 then
    let isSigner ← readU8 input offset
    let offset := offset + 1
    let isWritable ← readU8 input offset
    let offset := offset + 1
    let executable ← readU8 input offset
    let offset := offset + 1 + 4
    let key ← readPubkey input offset
    let offset := offset + 32
    let owner ← readPubkey input offset
    let offset := offset + 32
    let lamportsAt := offset
    let offset := offset + 8
    let dataLen ← readU64 input offset
    let offset := offset + 8
    let dataAt := offset
    let offset := offset + dataLen + maxPermittedDataIncrease
    let offset := offset + alignOffset offset bpfAlignOfU128
    let rentEpoch ← readU64 input offset
    let info : AccountInfo := ⟨key, isSigner ≠ 0, isWritable ≠ 0, lamportsAt, dataAt, dataLen,
      owner, executable ≠ 0, rentEpoch⟩
    pure (accounts ++ [info], offset + 8)
  else
    let info ← accounts[dupInfo]?
    pure (accounts ++ [info], offset + 7)

def deserializeAccounts : ℕ → List AccountInfo → ℕ → Option (List AccountInfo × ℕ)
  | 0, accounts, offset => some (accounts, offset)
  | count + 1, accounts, offset => do
    let (accounts, offset) ← deserializeAccount input accounts offset
    deserializeAccounts count accounts offset

/-- `entrypoint::deserialize`: the program id, the accounts and the instruction data. -/
def deserialize : Option (Pubkey × List AccountInfo × List UInt8) := do
  let numAccounts ← readU64 input 0
  let (accounts, offset) ← deserializeAccounts input numAccounts [] 8
  let instructionDataLen ← readU64 input offset
  let offset := offset + 8
  let instructionData ← slice input offset (offset + instructionDataLen)
  let offset := offset + instructionDataLen
  let programId ← readPubkey input offset
  pure (programId, accounts, instructionData)

end Entrypoint

namespace EntrypointDeprecated

variable (input : List UInt8)

/-- One account of `entrypoint_deprecated::deserialize`, in the unaligned layout. -/
def deserializeAccount (accounts : List AccountInfo) (offset : ℕ) :
    Option (List AccountInfo × ℕ) := do
  let dupInfo ← readU8 input offset
  let offset := offset + 1
  if dupInfo = 255 then
    let isSigner ← readU8 input offset
    let offset := offset + 1
    let isWritable ← readU8 input offset
    let offset := offset + 1
    let key ← readPubkey input offset
    let offset := offset + 32
    let lamportsAt := offset
    let offset := offset + 8
    let dataLen ← readU64 input offset
    let offset := offset + 8
    let dataAt := offset
    let offset := offset + dataLen
    let owner ← readPubkey input offset
    let offset := offset + 32
    let executable ← readU8 input offset
    let offset := offset + 1
    let rentEpoch ← readU64 input offset
    let info : AccountInfo := ⟨key, isSigner ≠ 0, isWritable ≠ 0, lamportsAt, dataAt, dataLen,
      owner, executable ≠ 0, rentEpoch⟩
    pure (accounts ++ [info], offset + 8)
  else
    let info ← accounts[dupInfo]?
    pure (accounts ++ [info], offset)

def deserializeAccounts : ℕ → List AccountInfo → ℕ → Option (List AccountInfo × ℕ)
  | 0, accounts, offset => some (accounts, offset)
  | count + 1, accounts, offset => do
    let (accounts, offset) ← deserializeAccount input accounts offset
    deserializeAccounts count accounts offset

/-- `entrypoint_deprecated::deserialize`. -/
def deserialize : Option (Pubkey × List AccountInfo × List UInt8) := do
  let numAccounts ← readU64 input 0
  let (accounts, offset) ← deserializeAccounts input numAccounts [] 8
  let instructionDataLen ← readU64 input offset
  let offset := offset + 8
  let instructionData ← slice input offset (offset + instructionDataLen)
  let offset := offset + instructionDataLen
  let programId ← readPubkey input offset
  pure (programId, accounts, instructionData)

end EntrypointDeprecated

end Solana.BpfLoader
