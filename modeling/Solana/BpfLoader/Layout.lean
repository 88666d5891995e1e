import Solana.BpfLoader.Entrypoint

/-! The bytes `serialize_parameters_unaligned` and `serialize_parameters_aligned` write, and the
size each computes first (`serializeParametersAligned_eq`). -/

namespace Solana.BpfLoader

open Bytes

/-! ## The buffer -/

namespace AlignedMemory

@[simp] theorem new_maxLen (maxLen : ℕ) : (new maxLen).maxLen = maxLen := rfl

@[simp] theorem new_mem (maxLen : ℕ) : (new maxLen).mem = [] := rfl

theorem write_eq_ok {v : AlignedMemory} {bytes : List UInt8}
    (hfit : v.mem.length + bytes.length ≤ v.maxLen) :
    v.write bytes = .ok ⟨v.maxLen, v.mem ++ bytes⟩ := by
  rw [write, if_pos hfit]

theorem write_eq_error {v : AlignedMemory} {bytes : List UInt8}
    (hfit : ¬v.mem.length + bytes.length ≤ v.maxLen) :
    v.write bytes = .error .invalidArgument := by
  rw [write, if_neg hfit]

/-- Two writes are one write of both: where the second fails so does the first of both. -/
theorem write_bind_write {β : Type} (v : AlignedMemory) (bytes bytes' : List UInt8)
    (f : AlignedMemory → Except InstructionError β) :
    (v.write bytes >>= fun v => v.write bytes' >>= f) = v.write (bytes ++ bytes') >>= f := by
  by_cases hfit : v.mem.length + (bytes ++ bytes').length ≤ v.maxLen
  · rw [List.length_append] at hfit
    rw [write_eq_ok (by omega), write_eq_ok (by simpa using hfit)]
    show (write ⟨v.maxLen, v.mem ++ bytes⟩ bytes' >>= f) = _
    rw [write_eq_ok (by simpa [Nat.add_assoc] using hfit), List.append_assoc]
  · rw [write_eq_error hfit]
    by_cases hfit' : v.mem.length + bytes.length ≤ v.maxLen
    · rw [write_eq_ok hfit']
      show (write ⟨v.maxLen, v.mem ++ bytes⟩ bytes' >>= f) = _
      rw [write_eq_error (by simpa [Nat.add_assoc] using hfit)]
    · rw [write_eq_error hfit']
      rfl

theorem write_bind_of_fits {β : Type} {v : AlignedMemory} {bytes : List UInt8}
    (f : AlignedMemory → Except InstructionError β)
    (hfit : v.mem.length + bytes.length ≤ v.maxLen) :
    v.write bytes >>= f = f ⟨v.maxLen, v.mem ++ bytes⟩ := by
  rw [write_eq_ok hfit]
  rfl

theorem write_bind_of_not_fits {β : Type} {v : AlignedMemory} {bytes : List UInt8}
    (f : AlignedMemory → Except InstructionError β)
    (hfit : ¬v.mem.length + bytes.length ≤ v.maxLen) :
    v.write bytes >>= f = .error .invalidArgument := by
  rw [write_eq_error hfit]
  rfl

theorem write_append (v : AlignedMemory) (bytes bytes' : List UInt8) :
    (v.write bytes >>= fun v => v.write bytes') = v.write (bytes ++ bytes') := by
  simpa using write_bind_write v bytes bytes' pure

/-- A write whose bytes depend on the buffer after an earlier write, as a padding found
from the write index does. -/
theorem write_bind_write_dep (v : AlignedMemory) (bytes : List UInt8)
    (bytes' : AlignedMemory → List UInt8) :
    (v.write bytes >>= fun v => v.write (bytes' v)) =
      v.write (bytes ++ bytes' ⟨v.maxLen, v.mem ++ bytes⟩) := by
  rw [← write_append]
  by_cases hfit : v.mem.length + bytes.length ≤ v.maxLen
  · rw [write_bind_of_fits _ hfit, write_bind_of_fits _ hfit]
  · rw [write_bind_of_not_fits _ hfit, write_bind_of_not_fits _ hfit]

end AlignedMemory

/-! ## Entries -/

/-- How the loader lays out one instruction account. -/
inductive Entry where
  | original (borrowedAccount : BorrowedAccount)
  | duplicate (position : ℕ)
  deriving DecidableEq, Repr

section Entries

variable (tc : TransactionContext) (ctx : InstructionContext)

/-- The entry of the instruction account at `indexInInstruction`. -/
def entry (indexInInstruction : ℕ) : Except InstructionError Entry :=
  match isDuplicate ctx indexInInstruction with
  | some position => pure (.duplicate position)
  | none => Entry.original <$> ctx.tryBorrowAccount tc indexInInstruction

def entries : Except InstructionError (List Entry) :=
  (instructionAccountIndexes ctx).mapM (entry tc ctx)

end Entries

namespace Entry

/-- The bytes of an entry in the unaligned layout. -/
def unalignedBytes : Entry → List UInt8
  | .original b =>
    [255, boolByte b.isSigner, boolByte b.isWritable] ++ toLE 32 b.key ++
      toLE 8 b.account.lamports ++ toLE 8 b.account.data.length ++ b.account.data ++
      toLE 32 b.account.owner ++ [boolByte b.account.executable] ++ toLE 8 b.account.rentEpoch
  | .duplicate position => [UInt8.ofNat position]

/-- The bytes of an entry in the aligned layout: the data is followed by room to grow and
padding to `BPF_ALIGN_OF_U128`. -/
def alignedBytes : Entry → List UInt8
  | .original b =>
    [255, boolByte b.isSigner, boolByte b.isWritable, boolByte b.account.executable] ++
      [0, 0, 0, 0] ++ toLE 32 b.key ++ toLE 32 b.account.owner ++ toLE 8 b.account.lamports ++
      toLE 8 b.account.data.length ++ b.account.data ++
      List.replicate (maxPermittedDataIncrease +
        alignOffset b.account.data.length bpfAlignOfU128) 0 ++
      toLE 8 b.account.rentEpoch
  | .duplicate position => [UInt8.ofNat position] ++ [0, 0, 0, 0, 0, 0, 0]

theorem length_unalignedBytes_original (b : BorrowedAccount) :
    (original b).unalignedBytes.length = 1 + 1 + 1 + 32 + 8 + 8 + b.account.data.length + 32 +
      1 + 8 := by
  simp only [unalignedBytes, List.length_append, length_toLE, List.length_cons, List.length_nil]

theorem length_alignedBytes_original (b : BorrowedAccount) :
    (original b).alignedBytes.length = 1 + 1 + 1 + 1 + 4 + 32 + 32 + 8 + 8 +
      b.account.data.length + maxPermittedDataIncrease +
      alignOffset b.account.data.length bpfAlignOfU128 + 8 := by
  simp only [alignedBytes, List.length_append, length_toLE, List.length_cons, List.length_nil,
    List.length_replicate]
  omega

/-- Every aligned entry is a whole number of `BPF_ALIGN_OF_U128` bytes. -/
theorem dvd_length_alignedBytes : ∀ e : Entry, bpfAlignOfU128 ∣ e.alignedBytes.length
  | .original b => by
    rw [length_alignedBytes_original]
    simp only [alignOffset, bpfAlignOfU128, maxPermittedDataIncrease]
    omega
  | .duplicate _ => ⟨1, rfl⟩

theorem length_alignedBytes_pos (e : Entry) : 0 < e.alignedBytes.length := by
  cases e with
  | original b => rw [length_alignedBytes_original]; omega
  | duplicate position => exact Nat.succ_pos 7

theorem length_unalignedBytes_pos (e : Entry) : 0 < e.unalignedBytes.length := by
  cases e with
  | original b => rw [length_unalignedBytes_original]; omega
  | duplicate position => exact Nat.succ_pos 0

end Entry

theorem alignOffset_add_of_dvd {offset : ℕ} (hoffset : bpfAlignOfU128 ∣ offset) (n : ℕ) :
    alignOffset (offset + n) bpfAlignOfU128 = alignOffset n bpfAlignOfU128 := by
  simp only [alignOffset, bpfAlignOfU128] at hoffset ⊢
  omega

/-! ## The sizes -/

section Sizes

variable (tc : TransactionContext) (ctx : InstructionContext)

theorem accountSizeUnaligned_eq (indexInInstruction : ℕ) :
    accountSizeUnaligned tc ctx indexInInstruction =
      (fun e => e.unalignedBytes.length) <$> entry tc ctx indexInInstruction := by
  unfold accountSizeUnaligned entry
  cases isDuplicate ctx indexInInstruction with
  | some position => rfl
  | none =>
    cases ctx.tryBorrowAccount tc indexInInstruction with
    | error err => rfl
    | ok b => exact (congrArg Except.ok (Entry.length_unalignedBytes_original b)).symm

theorem accountSizeAligned_eq (indexInInstruction : ℕ) :
    accountSizeAligned tc ctx indexInInstruction =
      (fun e => e.alignedBytes.length) <$> entry tc ctx indexInInstruction := by
  unfold accountSizeAligned entry
  cases isDuplicate ctx indexInInstruction with
  | some position => rfl
  | none =>
    cases ctx.tryBorrowAccount tc indexInInstruction with
    | error err => rfl
    | ok b => exact (congrArg Except.ok (Entry.length_alignedBytes_original b)).symm

end Sizes

/-! ## The writers -/

section Writers

variable (tc : TransactionContext) (ctx : InstructionContext)

theorem serializeAccountUnaligned_eq (v : AlignedMemory) (indexInInstruction : ℕ) :
    serializeAccountUnaligned tc ctx v indexInInstruction =
      entry tc ctx indexInInstruction >>= fun e => v.write e.unalignedBytes := by
  unfold serializeAccountUnaligned entry
  cases isDuplicate ctx indexInInstruction with
  | some position => rfl
  | none =>
    cases ctx.tryBorrowAccount tc indexInInstruction with
    | error err => rfl
    | ok b =>
      simp only [AlignedMemory.write_append]
      show v.write _ = v.write _
      simp only [Entry.unalignedBytes, List.append_assoc, List.cons_append, List.nil_append]

theorem serializeAccountAligned_eq (v : AlignedMemory) (indexInInstruction : ℕ)
    (hv : bpfAlignOfU128 ∣ v.mem.length) :
    serializeAccountAligned tc ctx v indexInInstruction =
      entry tc ctx indexInInstruction >>= fun e => v.write e.alignedBytes := by
  unfold serializeAccountAligned entry
  cases isDuplicate ctx indexInInstruction with
  | some position => exact AlignedMemory.write_append v _ _
  | none =>
    cases ctx.tryBorrowAccount tc indexInInstruction with
    | error err => rfl
    | ok b =>
      simp only [AlignedMemory.resize, AlignedMemory.write_bind_write, AlignedMemory.write_append]
      show (v.write _ >>= fun v => v.write _) = v.write _
      rw [AlignedMemory.write_bind_write_dep]
      have hpad : ∀ front : List UInt8, front.length = 88 + b.account.data.length →
          alignOffset (v.mem ++ front).length bpfAlignOfU128 =
            alignOffset b.account.data.length bpfAlignOfU128 := by
        intro front hfront
        rw [List.length_append, hfront, ← Nat.add_assoc]
        exact alignOffset_add_of_dvd (Nat.dvd_add hv ⟨11, rfl⟩) _
      simp only [AlignedMemory.writeIndex, Entry.alignedBytes]
      rw [hpad _ (by simp; omega)]
      simp only [List.append_assoc, List.cons_append, List.nil_append]

end Writers

/-- A loop whose every step writes the bytes of what a fallible function gives for its
element writes them all at once, as long as a property of the write index that each step
needs is kept by each write. -/
theorem AlignedMemory.foldlM_eq_write {α β : Type} {f : α → Except InstructionError β}
    {step : AlignedMemory → α → Except InstructionError AlignedMemory}
    {bytes : β → List UInt8} (P : ℕ → Prop)
    (hstep : ∀ v a, P v.mem.length → step v a = f a >>= fun b => v.write (bytes b))
    (hP : ∀ n b, P n → P (n + (bytes b).length)) :
    ∀ {l : List α} {r : List β}, l.mapM f = .ok r → ∀ v : AlignedMemory,
      v.mem.length ≤ v.maxLen → P v.mem.length → l.foldlM step v = v.write (r.flatMap bytes)
  | [], r, hr, v, hv, _ => by
    rw [List.mapM_nil] at hr
    cases hr
    rw [List.flatMap_nil, write_eq_ok (by simpa using hv), List.append_nil]
    rfl
  | a :: l, _, hr, v, hv, hPv => by
    obtain ⟨b, bs, hb, hbs, rfl⟩ := Except.mapM_eq_ok_cons.mp hr
    rw [List.foldlM_cons, hstep v a hPv, hb, List.flatMap_cons]
    show (v.write (bytes b) >>= fun v => l.foldlM step v) = _
    by_cases hfit : v.mem.length + (bytes b).length ≤ v.maxLen
    · rw [write_bind_of_fits _ hfit, foldlM_eq_write P hstep hP hbs _ (by simpa using hfit)
        (by simpa using hP _ b hPv), ← write_append, write_bind_of_fits _ hfit]
    · rw [write_bind_of_not_fits _ hfit, write_eq_error (by simp only [List.length_append]; omega)]

section Parameters

variable (tc : TransactionContext) (ctx : InstructionContext)

theorem foldlM_serializeAccountUnaligned {es : List Entry} (hes : entries tc ctx = .ok es)
    (v : AlignedMemory) (hv : v.mem.length ≤ v.maxLen) :
    (instructionAccountIndexes ctx).foldlM (serializeAccountUnaligned tc ctx) v =
      v.write (es.flatMap Entry.unalignedBytes) :=
  AlignedMemory.foldlM_eq_write (fun _ => True)
    (fun v i _ => serializeAccountUnaligned_eq tc ctx v i) (fun _ _ _ => trivial) hes v hv trivial

/-- In the aligned layout every account starts at a multiple of `BPF_ALIGN_OF_U128`. -/
theorem foldlM_serializeAccountAligned {es : List Entry} (hes : entries tc ctx = .ok es)
    (v : AlignedMemory) (hv : v.mem.length ≤ v.maxLen) (hdvd : bpfAlignOfU128 ∣ v.mem.length) :
    (instructionAccountIndexes ctx).foldlM (serializeAccountAligned tc ctx) v =
      v.write (es.flatMap Entry.alignedBytes) :=
  AlignedMemory.foldlM_eq_write (bpfAlignOfU128 ∣ ·)
    (fun v i hv => serializeAccountAligned_eq tc ctx v i hv)
    (fun _ e hn => Nat.dvd_add hn (Entry.dvd_length_alignedBytes e)) hes v hv hdvd

/-- The input of a program: the number of instruction accounts, their entries in the
encoding of the layout, the instruction data and the program id. -/
def serializedInput (encode : Entry → List UInt8) (es : List Entry) (programKey : Pubkey) :
    List UInt8 :=
  toLE 8 ctx.instructionAccounts.length ++ es.flatMap encode ++
    toLE 8 ctx.instructionData.length ++ ctx.instructionData ++ toLE 32 programKey

/-- Both serializers: the size is the sum of what each entry takes, and the accounts are
written one after another after the count; so the buffer is filled exactly. -/
theorem serialize_eq_ok {es : List Entry} {programAccount : BorrowedAccount}
    {encode : Entry → List UInt8} {accountSize : ℕ → Except InstructionError ℕ}
    {serializeAccount : AlignedMemory → ℕ → Except InstructionError AlignedMemory}
    (hes : entries tc ctx = .ok es)
    (hprogram : ctx.tryBorrowProgramAccount tc = .ok programAccount)
    (hsize : ∀ i, accountSize i = (fun e => (encode e).length) <$> entry tc ctx i)
    (hfold : ∀ v : AlignedMemory, v.mem.length = 8 → v.mem.length ≤ v.maxLen →
      (instructionAccountIndexes ctx).foldlM serializeAccount v = v.write (es.flatMap encode)) :
    (do
      let size ← (instructionAccountIndexes ctx).foldlM
        (fun size indexInInstruction => do
          let accountSize ← accountSize indexInInstruction
          pure (size + accountSize)) 8
      let size := size + 8 + ctx.instructionData.length + 32
      let v ← (AlignedMemory.new size).write (toLE 8 ctx.instructionAccounts.length)
      let v ← (instructionAccountIndexes ctx).foldlM serializeAccount v
      let v ← v.write (toLE 8 ctx.instructionData.length)
      let v ← v.write ctx.instructionData
      let programAccount ← ctx.tryBorrowProgramAccount tc
      v.write (toLE 32 programAccount.key)) =
      Except.ok ⟨(serializedInput ctx encode es programAccount.key).length,
        serializedInput ctx encode es programAccount.key⟩ := by
  have hsum : (instructionAccountIndexes ctx).foldlM
      (fun size i => do
        let accountSize ← accountSize i
        pure (size + accountSize)) 8 = .ok (8 + (es.flatMap encode).length) := by
    simp only [hsize]
    rw [Except.foldlM_add_eq_ok 8 hes, List.length_flatMap]
  have hlen : (serializedInput ctx encode es programAccount.key).length =
      8 + (es.flatMap encode).length + 8 + ctx.instructionData.length + 32 := by
    simp only [serializedInput, List.length_append, length_toLE]
  have hcount : (AlignedMemory.new (8 + (es.flatMap encode).length + 8 +
      ctx.instructionData.length + 32)).write (toLE 8 ctx.instructionAccounts.length) =
      .ok ⟨_, toLE 8 ctx.instructionAccounts.length⟩ :=
    AlignedMemory.write_eq_ok (by simp)
  simp only [hsum, Except.ok_bind, hcount]
  rw [hfold _ (length_toLE 8 _) (by simp), hprogram]
  simp only [Except.ok_bind, AlignedMemory.write_append]
  have hfit : (toLE 8 ctx.instructionAccounts.length).length + (es.flatMap encode ++
      (toLE 8 ctx.instructionData.length ++
        (ctx.instructionData ++ toLE 32 programAccount.key))).length ≤
      8 + (es.flatMap encode).length + 8 + ctx.instructionData.length + 32 := by
    simp only [List.length_append, length_toLE]
    omega
  rw [AlignedMemory.write_eq_ok hfit, ← hlen]
  simp only [serializedInput, AlignedMemory.new_maxLen, List.append_assoc]

theorem serializeParametersUnaligned_eq {es : List Entry} {programAccount : BorrowedAccount}
    (hes : entries tc ctx = .ok es)
    (hprogram : ctx.tryBorrowProgramAccount tc = .ok programAccount) :
    serializeParametersUnaligned tc ctx =
      .ok ⟨(serializedInput ctx Entry.unalignedBytes es programAccount.key).length,
        serializedInput ctx Entry.unalignedBytes es programAccount.key⟩ :=
  serialize_eq_ok tc ctx hes hprogram (accountSizeUnaligned_eq tc ctx)
    fun v _ hv => foldlM_serializeAccountUnaligned tc ctx hes v hv

theorem serializeParametersAligned_eq {es : List Entry} {programAccount : BorrowedAccount}
    (hes : entries tc ctx = .ok es)
    (hprogram : ctx.tryBorrowProgramAccount tc = .ok programAccount) :
    serializeParametersAligned tc ctx =
      .ok ⟨(serializedInput ctx Entry.alignedBytes es programAccount.key).length,
        serializedInput ctx Entry.alignedBytes es programAccount.key⟩ :=
  serialize_eq_ok tc ctx hes hprogram (accountSizeAligned_eq tc ctx)
    fun v hv8 hv => foldlM_serializeAccountAligned tc ctx hes v hv (by rw [hv8]; exact dvd_refl 8)

end Parameters

end Solana.BpfLoader
