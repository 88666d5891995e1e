import Solana.Sdk.Message
import Solana.BpfLoader.Serialization

/-! The instructions sysvar of `sdk/program/src/sysvar/instructions.rs` and its readers; a slice
out of range aborts. -/

namespace Solana.Sdk

open Bytes MachineInt BpfLoader

inductive SanitizeError where
  | indexOutOfBounds
  | valueOutOfBounds
  | invalidValue
  deriving DecidableEq, Repr

structure BorrowedAccountMeta where
  pubkey : Pubkey
  isSigner : Bool
  isWritable : Bool
  deriving DecidableEq, Repr

structure BorrowedInstruction where
  programId : Pubkey
  accounts : List BorrowedAccountMeta
  data : List UInt8
  deriving DecidableEq, Repr

/-- The owned `Instruction` with the fields of a borrowed one. -/
def BorrowedInstruction.toInstruction (ix : BorrowedInstruction) : Instruction :=
  ⟨ix.programId, ix.accounts.map fun m => ⟨m.pubkey, m.isSigner, m.isWritable⟩,
    ix.data.map UInt8.toNat⟩

/-! ## Writing -/

def appendU16 (buf : List UInt8) (data : ℕ) : List UInt8 := buf ++ toLE 2 data

def appendU8 (buf : List UInt8) (data : UInt8) : List UInt8 := buf ++ [data]

def appendSlice (buf data : List UInt8) : List UInt8 := buf ++ data

/-- `buf[start..end].copy_from_slice(src)`, which panics unless the range is in the buffer
and as long as `src`. -/
def copyFromSlice (buf : List UInt8) (start end_ : ℕ) (src : List UInt8) : Option (List UInt8) :=
  if start ≤ end_ ∧ end_ ≤ buf.length ∧ src.length = end_ - start then
    some (buf.take start ++ src ++ buf.drop end_)
  else none

/-- The bits of `InstructionsSysvarAccountMeta`. -/
def isSignerFlag : UInt8 := 0b00000001

def isWritableFlag : UInt8 := 0b00000010

def accountMetaFlags (accountMeta : BorrowedAccountMeta) : UInt8 :=
  let flags : UInt8 := 0
  let flags := if accountMeta.isSigner then flags ||| isSignerFlag else flags
  if accountMeta.isWritable then flags ||| isWritableFlag else flags

/-- The body of the loop of `serialize_instructions` after the offset is patched: one
instruction appended. -/
def appendInstruction (data : List UInt8) (instruction : BorrowedInstruction) : List UInt8 :=
  let data := appendU16 data (wrap 16 instruction.accounts.length)
  let data := instruction.accounts.foldl (fun data accountMeta =>
    appendSlice (appendU8 data (accountMetaFlags accountMeta)) (toLE 32 accountMeta.pubkey)) data
  let data := appendSlice data (toLE 32 instruction.programId)
  let data := appendU16 data (wrap 16 instruction.data.length)
  appendSlice data instruction.data

def serializeInstructions (instructions : List BorrowedInstruction) : Option (List UInt8) :=
  let data := appendU16 [] (wrap 16 instructions.length)
  let data := (List.range instructions.length).foldl (fun data _ => appendU16 data 0) data
  instructions.zipIdx.foldlM (fun data (instruction, i) => do
    let startInstructionOffset := wrap 16 data.length
    let start := 2 + 2 * i
    let data ← copyFromSlice data start (start + 2) (toLE 2 startInstructionOffset)
    pure (appendInstruction data instruction)) data

/-- `construct_instructions_data`: the instructions, and room for the current index. -/
def constructInstructionsData (instructions : List BorrowedInstruction) : Option (List UInt8) :=
  (serializeInstructions instructions).map fun data => data ++ List.replicate 2 0

/-- `store_current_index`; below two bytes `data.len() - 2` underflows and the slice
panics. -/
def storeCurrentIndex (data : List UInt8) (instructionIndex : ℕ) : Option (List UInt8) :=
  if data.length < 2 then none
  else copyFromSlice data (data.length - 2) data.length (toLE 2 instructionIndex)

def loadCurrentIndex (data : List UInt8) : Option ℕ :=
  if data.length < 2 then none else (slice data (data.length - 2) data.length).map ofLE

/-! ## Reading -/

def readU8 (current : ℕ) (data : List UInt8) : Fallible SanitizeError (UInt8 × ℕ) :=
  if data.length < current + 1 then throw .indexOutOfBounds
  else do
    let e ← Fallible.ofOption data[current]?
    pure (e, current + 1)

def readSlice (current : ℕ) (data : List UInt8) (dataLen : ℕ) :
    Fallible SanitizeError (List UInt8 × ℕ) :=
  if data.length < current + dataLen then throw .indexOutOfBounds
  else do
    let e ← Fallible.ofOption (slice data current (current + dataLen))
    pure (e, current + dataLen)

/-- `read_pubkey`: the slice of the 32 bytes of a key, as `Pubkey::new` reads them. -/
def readPubkey (current : ℕ) (data : List UInt8) : Fallible SanitizeError (Pubkey × ℕ) := do
  let (e, current) ← readSlice current data 32
  pure (ofLE e, current)

/-- `read_u16`: the slice of two bytes, little-endian. -/
def readU16 (current : ℕ) (data : List UInt8) : Fallible SanitizeError (ℕ × ℕ) := do
  let (e, current) ← readSlice current data 2
  pure (ofLE e, current)

def isSignerBit : ℕ := 0

def isWritableBit : ℕ := 1

/-- The loop of `deserialize_instruction` over `num_accounts` account metas. -/
def readAccounts (data : List UInt8) : ℕ → ℕ → Fallible SanitizeError (List AccountMeta × ℕ)
  | 0, current => pure ([], current)
  | n + 1, current => do
    let (metaByte, current) ← readU8 current data
    let isSigner := metaByte &&& (1 <<< isSignerBit.toUInt8) != 0
    let isWritable := metaByte &&& (1 <<< isWritableBit.toUInt8) != 0
    let (pubkey, current) ← readPubkey current data
    let (accounts, current) ← readAccounts data n current
    pure (⟨pubkey, isSigner, isWritable⟩ :: accounts, current)

def deserializeInstruction (index : ℕ) (data : List UInt8) : Fallible SanitizeError Instruction := do
  let current := 0
  let (numInstructions, current) ← readU16 current data
  if numInstructions ≤ index then throw .indexOutOfBounds
  let current := current + index * 2
  let (start, _) ← readU16 current data
  let current := start
  let (numAccounts, current) ← readU16 current data
  let (accounts, current) ← readAccounts data numAccounts current
  let (programId, current) ← readPubkey current data
  let (dataLen, current) ← readU16 current data
  let (bytes, _) ← readSlice current data dataLen
  pure ⟨programId, accounts, bytes.map UInt8.toNat⟩

/-! ## The layout

The serializer writes the count, a table of zeros and then each instruction, patching the
table entry of an instruction with the length of what is written before it. Its result is
the count, the table of where each instruction starts and the instructions one after the
other (`serializeInstructions_eq`). -/

/-- The flag byte and the key of each account. -/
def encodeAccountMetas (accounts : List BorrowedAccountMeta) : List UInt8 :=
  accounts.flatMap fun accountMeta => accountMetaFlags accountMeta :: toLE 32 accountMeta.pubkey

/-- The bytes `appendInstruction` appends. -/
def encodeInstruction (instruction : BorrowedInstruction) : List UInt8 :=
  toLE 2 (wrap 16 instruction.accounts.length) ++ encodeAccountMetas instruction.accounts ++
    toLE 32 instruction.programId ++ toLE 2 (wrap 16 instruction.data.length) ++ instruction.data

/-- Where each instruction starts, the first at `start`. -/
def instructionOffsets : ℕ → List BorrowedInstruction → List ℕ
  | _, [] => []
  | start, instruction :: rest =>
    start :: instructionOffsets (start + (encodeInstruction instruction).length) rest

/-- The count, the table of offsets and the instructions. -/
def instructionsLayout (instructions : List BorrowedInstruction) : List UInt8 :=
  toLE 2 (wrap 16 instructions.length) ++
    ((instructionOffsets (2 + 2 * instructions.length) instructions).map (wrap 16)).flatMap
      (toLE 2) ++
    (instructions.map encodeInstruction).flatten

/-- Copying over a part of the buffer replaces that part. -/
theorem copyFromSlice_append (pre mid post src : List UInt8) (h : src.length = mid.length) :
    copyFromSlice (pre ++ mid ++ post) pre.length (pre.length + mid.length) src =
      some (pre ++ src ++ post) := by
  have htake : (pre ++ mid ++ post).take pre.length = pre := by
    rw [List.append_assoc, List.take_left' rfl]
  have hdrop : (pre ++ mid ++ post).drop (pre.length + mid.length) = post := by
    rw [← List.drop_drop, List.append_assoc, List.drop_left' rfl, List.drop_left' rfl]
  rw [copyFromSlice, if_pos ⟨Nat.le_add_right _ _, by simp, by omega⟩, htake, hdrop]

theorem foldl_appendAccountMeta (accounts : List BorrowedAccountMeta) :
    ∀ data : List UInt8, accounts.foldl (fun data accountMeta =>
        appendSlice (appendU8 data (accountMetaFlags accountMeta)) (toLE 32 accountMeta.pubkey))
        data =
      data ++ encodeAccountMetas accounts := by
  induction accounts with
  | nil => simp [encodeAccountMetas]
  | cons accountMeta rest ih =>
    intro data
    rw [List.foldl_cons, ih]
    simp [encodeAccountMetas, appendSlice, appendU8]

theorem appendInstruction_eq (data : List UInt8) (instruction : BorrowedInstruction) :
    appendInstruction data instruction = data ++ encodeInstruction instruction := by
  simp only [appendInstruction]
  rw [foldl_appendAccountMeta]
  simp only [encodeInstruction, appendSlice, appendU16, List.append_assoc]

/-- The loop of `serialize_instructions` from the instruction at index `k`: the count and the
`k` entries patched before it, the zeros of the entries still to patch, and the instructions
written so far. -/
theorem foldlM_patch :
    ∀ (rest : List BorrowedInstruction) (k : ℕ) (head body : List UInt8),
      head.length = 2 + 2 * k →
      (rest.zipIdx k).foldlM (fun data (instruction, i) => do
          let startInstructionOffset := wrap 16 data.length
          let start := 2 + 2 * i
          let data ← copyFromSlice data start (start + 2) (toLE 2 startInstructionOffset)
          pure (appendInstruction data instruction))
        (head ++ List.replicate (2 * rest.length) 0 ++ body) =
      some (head ++ ((instructionOffsets (head.length + 2 * rest.length + body.length) rest).map
        (wrap 16)).flatMap (toLE 2) ++ body ++ (rest.map encodeInstruction).flatten)
  | [], _, head, body, _ => by simp [instructionOffsets]
  | instruction :: rest, k, head, body, hhead => by
    set D := head ++ List.replicate (2 * (instruction :: rest).length) 0 ++ body with hD
    have hzeros : D = head ++ toLE 2 0 ++ (List.replicate (2 * rest.length) 0 ++ body) := by
      rw [hD, List.length_cons, Nat.mul_succ, Nat.add_comm, List.replicate_add]
      simp [toLE]
    have hpatch : copyFromSlice D head.length (head.length + 2) (toLE 2 (wrap 16 D.length)) =
        some (head ++ toLE 2 (wrap 16 D.length) ++ (List.replicate (2 * rest.length) 0 ++ body)) := by
      have h := copyFromSlice_append head (toLE 2 0) (List.replicate (2 * rest.length) 0 ++ body)
        (toLE 2 (wrap 16 D.length)) (by simp)
      rw [length_toLE, ← hzeros] at h
      exact h
    have hhead' : (head ++ toLE 2 (wrap 16 D.length)).length = 2 + 2 * (k + 1) := by
      rw [List.length_append, length_toLE, hhead]
      omega
    have hsum : (head ++ toLE 2 (wrap 16 D.length)).length + 2 * rest.length +
        (body ++ encodeInstruction instruction).length =
        D.length + (encodeInstruction instruction).length := by
      simp only [hD, List.length_append, length_toLE, List.length_replicate, List.length_cons]
      omega
    rw [List.zipIdx_cons, List.foldlM_cons]
    dsimp only
    rw [← hhead, hpatch]
    change List.foldlM _ (appendInstruction (head ++ toLE 2 (wrap 16 D.length) ++
      (List.replicate (2 * rest.length) 0 ++ body)) instruction) (rest.zipIdx (k + 1)) = _
    rw [appendInstruction_eq, show head ++ toLE 2 (wrap 16 D.length) ++
        (List.replicate (2 * rest.length) 0 ++ body) ++ encodeInstruction instruction =
        head ++ toLE 2 (wrap 16 D.length) ++ List.replicate (2 * rest.length) 0 ++
          (body ++ encodeInstruction instruction) by simp,
      foldlM_patch rest (k + 1) _ _ hhead', hsum]
    have hD' : head.length + 2 * (instruction :: rest).length + body.length = D.length := by
      simp only [hD, List.length_append, List.length_replicate]
    rw [hD']
    simp [instructionOffsets]

theorem foldl_appendU16_zero :
    ∀ (m : ℕ) (data : List UInt8),
      (List.range m).foldl (fun data _ => appendU16 data 0) data = data ++ List.replicate (2 * m) 0
  | 0, data => by simp
  | m + 1, data => by
    rw [List.range_succ, List.foldl_append, foldl_appendU16_zero m, Nat.mul_succ,
      List.replicate_add]
    simp [appendU16, toLE]

/-- The serializer writes the layout: back-patching the table gives the table of offsets. -/
theorem serializeInstructions_eq (instructions : List BorrowedInstruction) :
    serializeInstructions instructions = some (instructionsLayout instructions) := by
  have hrun := foldlM_patch instructions 0 (toLE 2 (wrap 16 instructions.length)) [] (by simp)
  rw [length_toLE, List.length_nil, Nat.add_zero, List.append_nil, List.append_nil] at hrun
  show List.foldlM _ ((List.range instructions.length).foldl (fun data _ => appendU16 data 0)
    (appendU16 [] (wrap 16 instructions.length))) instructions.zipIdx = _
  rw [foldl_appendU16_zero]
  exact hrun

@[simp] theorem length_encodeAccountMetas (accounts : List BorrowedAccountMeta) :
    (encodeAccountMetas accounts).length = 33 * accounts.length := by
  induction accounts with
  | nil => rfl
  | cons accountMeta rest ih =>
    rw [encodeAccountMetas, List.flatMap_cons, List.length_append, ← encodeAccountMetas, ih,
      List.length_cons, length_toLE, List.length_cons]
    omega

theorem length_encodeInstruction (instruction : BorrowedInstruction) :
    (encodeInstruction instruction).length =
      2 + 33 * instruction.accounts.length + 32 + 2 + instruction.data.length := by
  simp only [encodeInstruction, List.length_append, length_toLE, length_encodeAccountMetas]

/-! ## The readers

Each reader on a buffer whose bytes at the cursor start with an encoding reads it back and
moves past it; and no reader aborts, since each checks the length before it slices. -/

section Readers

variable {data rest : List UInt8} {current : ℕ}

theorem readSlice_of_drop {bytes : List UInt8} (h : data.drop current = bytes ++ rest)
    (hcur : current ≤ data.length) :
    (readSlice current data bytes.length).run = some (.ok (bytes, current + bytes.length)) := by
  have hlen : data.length = current + bytes.length + rest.length := by
    have := congrArg List.length h
    rw [List.length_drop, List.length_append] at this
    omega
  have hslice : slice data current (current + bytes.length) = some bytes := by
    rw [slice, if_pos ⟨Nat.le_add_right _ _, by omega⟩, h, Nat.add_sub_cancel_left,
      List.take_left' rfl]
  rw [readSlice, if_neg (by omega), hslice]
  rfl

theorem drop_of_drop {bytes : List UInt8} (h : data.drop current = bytes ++ rest) :
    data.drop (current + bytes.length) = rest := by
  rw [← List.drop_drop, h, List.drop_left' rfl]

theorem add_length_le_of_drop {bytes : List UInt8} (h : data.drop current = bytes ++ rest)
    (hcur : current ≤ data.length) : current + bytes.length ≤ data.length := by
  have := congrArg List.length h
  rw [List.length_drop, List.length_append] at this
  omega

theorem readU16_of_drop {n : ℕ} (h : data.drop current = toLE 2 n ++ rest)
    (hcur : current ≤ data.length) :
    (readU16 current data).run = some (.ok (n % 2 ^ 16, current + 2)) := by
  have hread := readSlice_of_drop h hcur
  rw [length_toLE] at hread
  rw [readU16, Fallible.run_bind_of_eq_ok hread]
  simp [ofLE_toLE]

theorem readPubkey_of_drop {key : Pubkey} (h : data.drop current = toLE 32 key ++ rest)
    (hcur : current ≤ data.length) :
    (readPubkey current data).run = some (.ok (key % 2 ^ 256, current + 32)) := by
  have hread := readSlice_of_drop h hcur
  rw [length_toLE] at hread
  rw [readPubkey, Fallible.run_bind_of_eq_ok hread]
  simp [ofLE_toLE]

theorem lt_length_of_drop {b : UInt8} (h : data.drop current = b :: rest) :
    current < data.length := by
  have := congrArg List.length h
  rw [List.length_drop, List.length_cons] at this
  omega

theorem readU8_of_drop {b : UInt8} (h : data.drop current = b :: rest) :
    (readU8 current data).run = some (.ok (b, current + 1)) := by
  have hlt := lt_length_of_drop h
  have hget : data[current]? = some b := by
    rw [← List.head?_drop, h, List.head?_cons]
  rw [readU8, if_neg (by omega), hget]
  rfl

theorem readSlice_ne_none (current : ℕ) (data : List UInt8) (dataLen : ℕ) :
    (readSlice current data dataLen).run ≠ none := by
  unfold readSlice
  split
  · simp
  · have hslice : slice data current (current + dataLen) =
        some ((data.drop current).take (current + dataLen - current)) := by
      rw [slice, if_pos ⟨Nat.le_add_right _ _, by omega⟩]
    rw [hslice]
    simp

theorem readU16_ne_none (current : ℕ) (data : List UInt8) : (readU16 current data).run ≠ none :=
  Fallible.run_bind_ne_none (readSlice_ne_none current data 2) fun _ _ => by simp

theorem readPubkey_ne_none (current : ℕ) (data : List UInt8) :
    (readPubkey current data).run ≠ none :=
  Fallible.run_bind_ne_none (readSlice_ne_none current data 32) fun _ _ => by simp

theorem readU8_ne_none (current : ℕ) (data : List UInt8) : (readU8 current data).run ≠ none := by
  unfold readU8
  split
  · simp
  · have hget : data[current]? = some data[current] := List.getElem?_eq_getElem (by omega)
    rw [hget]
    simp

end Readers

/-- What `deserialize_instruction` reads once the cursor is at the start of the
instruction. -/
def readInstruction (current : ℕ) (data : List UInt8) : Fallible SanitizeError Instruction := do
  let (numAccounts, current) ← readU16 current data
  let (accounts, current) ← readAccounts data numAccounts current
  let (programId, current) ← readPubkey current data
  let (dataLen, current) ← readU16 current data
  let (bytes, _) ← readSlice current data dataLen
  pure ⟨programId, accounts, bytes.map UInt8.toNat⟩

theorem deserializeInstruction_eq (index : ℕ) (data : List UInt8) :
    deserializeInstruction index data = (do
      let (numInstructions, current) ← readU16 0 data
      if numInstructions ≤ index then throw .indexOutOfBounds
      let (start, _) ← readU16 (current + index * 2) data
      readInstruction start data) :=
  rfl

@[simp] theorem accountMetaFlags_isSigner (accountMeta : BorrowedAccountMeta) :
    (accountMetaFlags accountMeta &&& (1 <<< isSignerBit.toUInt8) != 0) = accountMeta.isSigner := by
  obtain ⟨_, isSigner, isWritable⟩ := accountMeta
  cases isSigner <;> cases isWritable <;>
    simp [accountMetaFlags, isSignerFlag, isWritableFlag, isSignerBit] <;> decide

@[simp] theorem accountMetaFlags_isWritable (accountMeta : BorrowedAccountMeta) :
    (accountMetaFlags accountMeta &&& (1 <<< isWritableBit.toUInt8) != 0) =
      accountMeta.isWritable := by
  obtain ⟨_, isSigner, isWritable⟩ := accountMeta
  cases isSigner <;> cases isWritable <;>
    simp [accountMetaFlags, isSignerFlag, isWritableFlag, isWritableBit] <;> decide

/-- The account metas read back from their encodings, flags and keys. -/
theorem readAccounts_of_drop {data rest : List UInt8} :
    ∀ (accounts : List BorrowedAccountMeta) (current : ℕ),
      (∀ accountMeta ∈ accounts, accountMeta.pubkey < 2 ^ 256) →
      data.drop current = encodeAccountMetas accounts ++ rest →
      (readAccounts data accounts.length current).run =
        some (.ok (accounts.map fun m => ⟨m.pubkey, m.isSigner, m.isWritable⟩,
          current + 33 * accounts.length))
  | [], current, _, _ => by simp [readAccounts]
  | accountMeta :: accounts, current, hkeys, h => by
    simp only [encodeAccountMetas, List.flatMap_cons, List.cons_append, List.append_assoc] at h
    rw [← encodeAccountMetas] at h
    have hflags := readU8_of_drop h
    have hkey : data.drop (current + 1) = toLE 32 accountMeta.pubkey ++
        (encodeAccountMetas accounts ++ rest) :=
      drop_of_drop (show data.drop current = [accountMetaFlags accountMeta] ++ _ from h)
    have hcur : current + 1 ≤ data.length := lt_length_of_drop h
    have hpubkey := readPubkey_of_drop hkey hcur
    rw [Nat.mod_eq_of_lt (hkeys accountMeta List.mem_cons_self)] at hpubkey
    have hrest := readAccounts_of_drop accounts (current + 1 + 32)
      (fun m hm => hkeys m (List.mem_cons_of_mem _ hm))
      (by rw [← length_toLE 32 accountMeta.pubkey]; exact drop_of_drop hkey)
    rw [List.length_cons, readAccounts, Fallible.run_bind_of_eq_ok hflags]
    dsimp only
    rw [Fallible.run_bind_of_eq_ok hpubkey]
    dsimp only
    rw [Fallible.run_bind_of_eq_ok hrest]
    simp only [Fallible.run_pure, accountMetaFlags_isSigner, accountMetaFlags_isWritable,
      List.map_cons]
    rw [show current + 1 + 32 + 33 * accounts.length = current + 33 * (accounts.length + 1) by
      omega]

/-- One instruction read back from its encoding, when its counts fit a `u16` and its keys
32 bytes. -/
theorem readInstruction_of_drop {data rest : List UInt8} {current : ℕ}
    {instruction : BorrowedInstruction} (h : data.drop current = encodeInstruction instruction ++ rest)
    (hcur : current ≤ data.length) (haccounts : instruction.accounts.length < 2 ^ 16)
    (hdata : instruction.data.length < 2 ^ 16) (hprogram : instruction.programId < 2 ^ 256)
    (hkeys : ∀ accountMeta ∈ instruction.accounts, accountMeta.pubkey < 2 ^ 256) :
    (readInstruction current data).run = some (.ok instruction.toInstruction) := by
  have h₁ : data.drop current = toLE 2 (wrap 16 instruction.accounts.length) ++
      (encodeAccountMetas instruction.accounts ++ (toLE 32 instruction.programId ++
        (toLE 2 (wrap 16 instruction.data.length) ++ (instruction.data ++ rest)))) := by
    rw [h]
    simp [encodeInstruction]
  have hnum := readU16_of_drop h₁ hcur
  have h₂ := drop_of_drop h₁
  have hcur₂ := add_length_le_of_drop h₁ hcur
  rw [length_toLE] at h₂ hcur₂
  have haccts := readAccounts_of_drop instruction.accounts (current + 2) hkeys h₂
  have h₃ := drop_of_drop h₂
  have hcur₃ := add_length_le_of_drop h₂ hcur₂
  rw [length_encodeAccountMetas] at h₃ hcur₃
  have hprogramId := readPubkey_of_drop h₃ hcur₃
  have h₄ := drop_of_drop h₃
  have hcur₄ := add_length_le_of_drop h₃ hcur₃
  rw [length_toLE] at h₄ hcur₄
  have hlen := readU16_of_drop h₄ hcur₄
  have h₅ := drop_of_drop h₄
  have hcur₅ := add_length_le_of_drop h₄ hcur₄
  rw [length_toLE] at h₅ hcur₅
  have hbytes := readSlice_of_drop h₅ hcur₅
  rw [wrap_of_lt haccounts, Nat.mod_eq_of_lt haccounts] at hnum
  rw [Nat.mod_eq_of_lt hprogram] at hprogramId
  rw [wrap_of_lt hdata, Nat.mod_eq_of_lt hdata] at hlen
  rw [readInstruction, Fallible.run_bind_of_eq_ok hnum]
  dsimp only
  rw [Fallible.run_bind_of_eq_ok haccts]
  dsimp only
  rw [Fallible.run_bind_of_eq_ok hprogramId]
  dsimp only
  rw [Fallible.run_bind_of_eq_ok hlen]
  dsimp only
  rw [Fallible.run_bind_of_eq_ok hbytes]
  rfl

/-! ## Reading the layout -/

@[simp] theorem length_instructionOffsets :
    ∀ (start : ℕ) (instructions : List BorrowedInstruction),
      (instructionOffsets start instructions).length = instructions.length
  | _, [] => rfl
  | start, instruction :: rest => by
    rw [instructionOffsets, List.length_cons, length_instructionOffsets, List.length_cons]

/-- The offsets from the `i`-th on start after the instructions before it. -/
theorem instructionOffsets_drop :
    ∀ (start : ℕ) (instructions : List BorrowedInstruction) (i : ℕ),
      (instructionOffsets start instructions).drop i = instructionOffsets
        (start + ((instructions.take i).map encodeInstruction).flatten.length) (instructions.drop i)
  | start, [], i => by simp [instructionOffsets]
  | start, instruction :: rest, 0 => by simp
  | start, instruction :: rest, i + 1 => by
    rw [instructionOffsets, List.drop_succ_cons, instructionOffsets_drop, List.take_succ_cons,
      List.map_cons, List.flatten_cons, List.length_append, Nat.add_assoc, List.drop_succ_cons]

/-- The encodings of the instructions before the `i`-th, then of the others. -/
theorem flatten_take_append_drop (instructions : List BorrowedInstruction) (i : ℕ) :
    ((instructions.take i).map encodeInstruction).flatten ++
        ((instructions.drop i).map encodeInstruction).flatten =
      (instructions.map encodeInstruction).flatten := by
  rw [← List.flatten_append, ← List.map_append, List.take_append_drop]

/-- The instructions from the `i`-th on, after the encodings of those before it. -/
theorem flatten_drop_length_take (instructions : List BorrowedInstruction) (i : ℕ) :
    ((instructions.map encodeInstruction).flatten).drop
        ((instructions.take i).map encodeInstruction).flatten.length =
      ((instructions.drop i).map encodeInstruction).flatten := by
  rw [← flatten_take_append_drop instructions i, List.drop_left' rfl]

theorem length_flatten_take_le (instructions : List BorrowedInstruction) (i : ℕ) :
    ((instructions.take i).map encodeInstruction).flatten.length ≤
      ((instructions.map encodeInstruction).flatten).length := by
  rw [← flatten_take_append_drop instructions i, List.length_append]
  exact Nat.le_add_right _ _

theorem length_table (start : ℕ) (instructions : List BorrowedInstruction) :
    (((instructionOffsets start instructions).map (wrap 16)).flatMap (toLE 2)).length =
      2 * instructions.length := by
  rw [length_flatMap_toLE, List.length_map, length_instructionOffsets]

theorem length_instructionsLayout (instructions : List BorrowedInstruction) :
    (instructionsLayout instructions).length =
      2 + 2 * instructions.length + ((instructions.map encodeInstruction).flatten).length := by
  rw [instructionsLayout, List.length_append, List.length_append, length_toLE, length_table]

/-- `deserialize_instruction` on the layout, with anything after it: the `i`-th instruction
for an index below the count, and `IndexOutOfBounds` from the count on, when the layout fits
the `u16` offsets and every key is 32 bytes. -/
theorem deserializeInstruction_layout {instructions : List BorrowedInstruction}
    (suffix : List UInt8) (hfit : (instructionsLayout instructions).length < 2 ^ 16)
    (hkeys : ∀ instruction ∈ instructions, instruction.programId < 2 ^ 256 ∧
      ∀ accountMeta ∈ instruction.accounts, accountMeta.pubkey < 2 ^ 256) :
    (∀ (i : ℕ) (hi : i < instructions.length),
      (deserializeInstruction i (instructionsLayout instructions ++ suffix)).run =
        some (.ok instructions[i].toInstruction)) ∧
    ∀ i, instructions.length ≤ i →
      (deserializeInstruction i (instructionsLayout instructions ++ suffix)).run =
        some (.error .indexOutOfBounds) := by
  have hlayout : instructionsLayout instructions ++ suffix =
      toLE 2 (wrap 16 instructions.length) ++
        (((instructionOffsets (2 + 2 * instructions.length) instructions).map (wrap 16)).flatMap
          (toLE 2) ++ ((instructions.map encodeInstruction).flatten ++ suffix)) := by
    simp [instructionsLayout]
  have hlength := length_instructionsLayout instructions
  have hcountLt : instructions.length < 2 ^ 16 := by omega
  have hcount : (readU16 0 (instructionsLayout instructions ++ suffix)).run =
      some (.ok (instructions.length, 2)) := by
    have h : (readU16 0 (instructionsLayout instructions ++ suffix)).run =
        some (.ok (wrap 16 instructions.length % 2 ^ 16, 0 + 2)) :=
      readU16_of_drop (by rw [List.drop_zero, hlayout]) (Nat.zero_le _)
    rwa [wrap_of_lt hcountLt, Nat.mod_eq_of_lt hcountLt] at h
  refine ⟨fun i hi => ?_, fun i hi => ?_⟩
  · have hdrop : instructions.drop i = instructions[i] :: instructions.drop (i + 1) :=
      List.drop_eq_getElem_cons hi
    set offset := 2 + 2 * instructions.length +
      ((instructions.take i).map encodeInstruction).flatten.length with hoffset
    have hentry : (instructionsLayout instructions ++ suffix).drop (2 + i * 2) =
        toLE 2 (wrap 16 offset) ++ (((instructionOffsets (offset +
          (encodeInstruction instructions[i]).length) (instructions.drop (i + 1))).map
            (wrap 16)).flatMap (toLE 2) ++
              ((instructions.map encodeInstruction).flatten ++ suffix)) := by
      have htableLength : i * 2 ≤ (((instructionOffsets (2 + 2 * instructions.length)
          instructions).map (wrap 16)).flatMap (toLE 2)).length := by
        rw [length_table]
        omega
      rw [hlayout, ← List.drop_drop, List.drop_left' (length_toLE 2 _),
        List.drop_append_of_le_length htableLength, Nat.mul_comm, drop_flatMap_toLE,
        ← List.map_drop, instructionOffsets_drop, hdrop, instructionOffsets]
      simp [hoffset]
    have hend : offset + (encodeInstruction instructions[i]).length ≤
        (instructionsLayout instructions).length := by
      have htake := length_flatten_take_le instructions (i + 1)
      rw [List.take_succ_eq_append_getElem hi, List.map_append, List.flatten_append,
        List.length_append, List.map_singleton, List.flatten_singleton] at htake
      omega
    have hencode := length_encodeInstruction instructions[i]
    have hoffsetLt : offset < 2 ^ 16 := by omega
    have hstart := readU16_of_drop hentry (by rw [List.length_append, hlength]; omega)
    rw [wrap_of_lt hoffsetLt, Nat.mod_eq_of_lt hoffsetLt] at hstart
    have hinstruction : (instructionsLayout instructions ++ suffix).drop offset =
        encodeInstruction instructions[i] ++
          (((instructions.drop (i + 1)).map encodeInstruction).flatten ++ suffix) := by
      have hsplit : offset = (toLE 2 (wrap 16 instructions.length) ++
          ((instructionOffsets (2 + 2 * instructions.length) instructions).map (wrap 16)).flatMap
            (toLE 2)).length + ((instructions.take i).map encodeInstruction).flatten.length := by
        rw [List.length_append, length_toLE, length_table]
      rw [hlayout, ← List.append_assoc, hsplit, ← List.drop_drop, List.drop_left' rfl,
        List.drop_append_of_le_length (length_flatten_take_le instructions i),
        flatten_drop_length_take, hdrop, List.map_cons, List.flatten_cons, List.append_assoc]
    obtain ⟨hprogram, hmetas⟩ := hkeys instructions[i] (List.getElem_mem hi)
    have hread := readInstruction_of_drop hinstruction (by rw [List.length_append]; omega)
      (by omega) (by omega) hprogram hmetas
    rw [deserializeInstruction_eq, Fallible.run_bind_of_eq_ok hcount]
    dsimp only
    rw [if_neg (by omega), Fallible.run_bind_of_eq_ok hstart]
    exact hread
  · rw [deserializeInstruction_eq, Fallible.run_bind_of_eq_ok hcount]
    dsimp only
    rw [if_pos hi]
    rfl

theorem readAccounts_ne_none (data : List UInt8) :
    ∀ (n current : ℕ), (readAccounts data n current).run ≠ none
  | 0, _ => by simp [readAccounts]
  | n + 1, current => by
    rw [readAccounts]
    refine Fallible.run_bind_ne_none (readU8_ne_none current data) fun ⟨_, current₁⟩ _ => ?_
    refine Fallible.run_bind_ne_none (readPubkey_ne_none current₁ data) fun ⟨_, current₂⟩ _ => ?_
    exact Fallible.run_bind_ne_none (readAccounts_ne_none data n current₂) fun _ _ => by simp

/-- `deserialize_instruction` never panics: on every byte string and index it returns an
instruction or an error. -/
theorem deserializeInstruction_ne_none (index : ℕ) (data : List UInt8) :
    (deserializeInstruction index data).run ≠ none := by
  unfold deserializeInstruction
  refine Fallible.run_bind_ne_none (readU16_ne_none 0 data) fun ⟨numInstructions, current⟩ _ => ?_
  dsimp only
  split
  · simp
  refine Fallible.run_bind_ne_none (readU16_ne_none _ data) fun ⟨start, _⟩ _ => ?_
  refine Fallible.run_bind_ne_none (readU16_ne_none start data) fun ⟨numAccounts, current⟩ _ => ?_
  refine Fallible.run_bind_ne_none (readAccounts_ne_none data numAccounts current)
    fun ⟨_, current⟩ _ => ?_
  refine Fallible.run_bind_ne_none (readPubkey_ne_none current data) fun ⟨_, current⟩ _ => ?_
  refine Fallible.run_bind_ne_none (readU16_ne_none current data) fun ⟨dataLen, current⟩ _ => ?_
  exact Fallible.run_bind_ne_none (readSlice_ne_none current data dataLen) fun _ _ => by simp

/-! ## The current index -/

/-- `store_current_index` overwrites the last two bytes with the index. -/
theorem storeCurrentIndex_append (data slot : List UInt8) (hslot : slot.length = 2) (v : ℕ) :
    storeCurrentIndex (data ++ slot) v = some (data ++ toLE 2 v) := by
  have hlen : (data ++ slot).length = data.length + slot.length := List.length_append
  have hstart : (data ++ slot).length - 2 = data.length := by omega
  rw [storeCurrentIndex, if_neg (by omega), hstart, hlen, ← List.append_nil (data ++ slot),
    copyFromSlice_append data slot [] (toLE 2 v) (by rw [length_toLE, hslot]), List.append_nil]

/-- `load_current_index` reads the last two bytes back. -/
theorem loadCurrentIndex_append (data : List UInt8) (v : ℕ) :
    loadCurrentIndex (data ++ toLE 2 v) = some (v % 2 ^ 16) := by
  have hlen : (data ++ toLE 2 v).length = data.length + 2 := by
    rw [List.length_append, length_toLE]
  rw [loadCurrentIndex, if_neg (by omega), hlen, Nat.add_sub_cancel, slice, if_pos (by omega),
    List.drop_left' rfl, Nat.add_sub_cancel_left, List.take_of_length_le (length_toLE 2 v).le,
    Option.map_some, ofLE_toLE]

theorem instructionsSysvar_roundTrip (instructions : List BorrowedInstruction)
    (hkeys : ∀ instruction ∈ instructions, instruction.programId < 2 ^ 256 ∧
      ∀ accountMeta ∈ instruction.accounts, accountMeta.pubkey < 2 ^ 256)
    (v : ℕ) (hv : v < 2 ^ 16) :
    (∃ data, constructInstructionsData instructions = some data) ∧
    (∀ data, constructInstructionsData instructions = some data → data.length ≤ 65535 →
      ∃ stored, storeCurrentIndex data v = some stored ∧ loadCurrentIndex stored = some v ∧
        (∀ (i : ℕ) (hi : i < instructions.length),
          (deserializeInstruction i stored).run = some (.ok instructions[i].toInstruction)) ∧
        ∀ i, instructions.length ≤ i →
          (deserializeInstruction i stored).run = some (.error .indexOutOfBounds)) ∧
    ∀ (index : ℕ) (bytes : List UInt8), (deserializeInstruction index bytes).run ≠ none := by
  have hdata : constructInstructionsData instructions =
      some (instructionsLayout instructions ++ List.replicate 2 0) := by
    rw [constructInstructionsData, serializeInstructions_eq, Option.map_some]
  refine ⟨⟨_, hdata⟩, fun data hconstruct hfits => ?_, deserializeInstruction_ne_none⟩
  rw [hdata, Option.some_inj] at hconstruct
  subst hconstruct
  have hfit : (instructionsLayout instructions).length < 2 ^ 16 := by
    rw [List.length_append, List.length_replicate] at hfits
    omega
  obtain ⟨hbelow, habove⟩ := deserializeInstruction_layout (toLE 2 v) hfit hkeys
  refine ⟨_, storeCurrentIndex_append _ _ (List.length_replicate ..) v, ?_, hbelow, habove⟩
  rw [loadCurrentIndex_append, Nat.mod_eq_of_lt hv]

theorem instructionsSysvar_roundTrip_pair :
    (∀ instruction ∈ [(⟨7, [⟨1, true, false⟩, ⟨2, false, true⟩], [5, 6]⟩ : BorrowedInstruction),
        ⟨9, [], []⟩], instruction.programId < 2 ^ 256 ∧
      ∀ accountMeta ∈ instruction.accounts, accountMeta.pubkey < 2 ^ 256) ∧ 1 < 2 ^ 16 ∧
    ((∃ data, constructInstructionsData
        [⟨7, [⟨1, true, false⟩, ⟨2, false, true⟩], [5, 6]⟩, ⟨9, [], []⟩] = some data) ∧
      (∀ data, constructInstructionsData
          [⟨7, [⟨1, true, false⟩, ⟨2, false, true⟩], [5, 6]⟩, ⟨9, [], []⟩] = some data →
        data.length ≤ 65535 →
        ∃ stored, storeCurrentIndex data 1 = some stored ∧ loadCurrentIndex stored = some 1 ∧
          (∀ (i : ℕ) (hi : i < 2),
            (deserializeInstruction i stored).run =
              some (.ok ([(⟨7, [⟨1, true, false⟩, ⟨2, false, true⟩], [5, 6]⟩ :
                BorrowedInstruction), ⟨9, [], []⟩].get ⟨i, hi⟩).toInstruction)) ∧
          ∀ i, 2 ≤ i → (deserializeInstruction i stored).run = some (.error .indexOutOfBounds)) ∧
      ∀ (index : ℕ) (bytes : List UInt8), (deserializeInstruction index bytes).run ≠ none) :=
  ⟨by decide, by decide, instructionsSysvar_roundTrip _ (by decide) 1 (by decide)⟩

end Solana.Sdk
