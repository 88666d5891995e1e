import Solana.BpfLoader.Parse

/-! `serialize_parameters` and the program's `deserialize` agree on every instruction context
the runtime builds (`InstructionContext.Valid`). -/

namespace Solana.BpfLoader

open Bytes

/-! ## The entries of a context -/

/-- The instruction account at `position` among the instruction accounts. -/
def InstructionContext.accountAt (ctx : InstructionContext) (position : ℕ) :
    InstructionAccount :=
  ctx.instructionAccounts.getD position ⟨0, false, false⟩

/-- The first position among the instruction accounts that names the same account of the
transaction as `position` does. -/
def firstMention (ctx : InstructionContext) (position : ℕ) : ℕ :=
  ctx.instructionAccounts.findIdx fun a =>
    a.indexInTransaction == (ctx.accountAt position).indexInTransaction

/-- The instruction account at `position` as `try_borrow_account` lends it. -/
def borrowedAt (tc : TransactionContext) (ctx : InstructionContext) (position : ℕ) :
    BorrowedAccount :=
  let a := ctx.accountAt position
  let entry := tc.accounts.getD a.indexInTransaction (0, ⟨0, [], 0, false, 0⟩)
  ⟨a.indexInTransaction, entry.1, entry.2, a.isSigner, a.isWritable⟩

/-- A context as the runtime builds it, from a message or for a cross-program invocation:
every account it names is one of the transaction's, and an account it names twice carries
the same flags both times. -/
structure InstructionContext.Valid (tc : TransactionContext) (ctx : InstructionContext) :
    Prop where
  indexInTransaction_lt : ∀ a ∈ ctx.instructionAccounts,
    a.indexInTransaction < tc.accounts.length
  flags_eq : ∀ a ∈ ctx.instructionAccounts, ∀ b ∈ ctx.instructionAccounts,
    a.indexInTransaction = b.indexInTransaction →
      a.isSigner = b.isSigner ∧ a.isWritable = b.isWritable

theorem InstructionAccount.ext {a b : InstructionAccount}
    (htx : a.indexInTransaction = b.indexInTransaction) (hsigner : a.isSigner = b.isSigner)
    (hwritable : a.isWritable = b.isWritable) : a = b := by
  cases a
  cases b
  simp_all

section Entries

variable {tc : TransactionContext} {ctx : InstructionContext} {position : ℕ}

theorem accountAt_eq (h : position < ctx.instructionAccounts.length) :
    ctx.accountAt position = ctx.instructionAccounts[position] := by
  rw [InstructionContext.accountAt, List.getD_eq_getElem?_getD, List.getElem?_eq_getElem h,
    Option.getD_some]

theorem getIndexInTransaction_eq (h : position < ctx.instructionAccounts.length) :
    ctx.getIndexInTransaction (ctx.programAccounts.length + position) =
      .ok (ctx.accountAt position).indexInTransaction := by
  have hlt : ctx.programAccounts.length + position < ctx.getNumberOfAccounts := by
    rw [InstructionContext.getNumberOfAccounts]
    omega
  rw [InstructionContext.getIndexInTransaction, if_neg (by omega), if_pos hlt,
    Nat.add_sub_cancel_left]
  rfl

/-- The instruction account itself names its account, so it is no earlier than the first. -/
theorem firstMention_le (h : position < ctx.instructionAccounts.length) :
    firstMention ctx position ≤ position := by
  refine Nat.le_of_not_lt fun hlt => ?_
  have hnot := List.not_of_lt_findIdx hlt
  rw [← accountAt_eq h, beq_self_eq_true] at hnot
  exact Bool.noConfusion hnot

theorem firstMention_lt_length (h : position < ctx.instructionAccounts.length) :
    firstMention ctx position < ctx.instructionAccounts.length :=
  Nat.lt_of_le_of_lt (firstMention_le h) h

/-- The first mention names the same account. -/
theorem indexInTransaction_firstMention (h : position < ctx.instructionAccounts.length) :
    (ctx.accountAt (firstMention ctx position)).indexInTransaction =
      (ctx.accountAt position).indexInTransaction := by
  have hfound := List.findIdx_getElem (w := firstMention_lt_length h)
  rw [beq_iff_eq] at hfound
  rw [accountAt_eq (firstMention_lt_length h)]
  exact hfound

/-- Before the first mention no instruction account names the account. -/
theorem indexInTransaction_ne_of_lt_firstMention {earlier : ℕ}
    (hearlier : earlier < firstMention ctx position) :
    (ctx.accountAt earlier).indexInTransaction ≠ (ctx.accountAt position).indexInTransaction := by
  have hnot := List.not_of_lt_findIdx hearlier
  rw [← accountAt_eq (Nat.lt_of_lt_of_le hearlier List.findIdx_le_length)] at hnot
  simpa using hnot

/-- Two positions have the same first mention exactly when they name the same account. -/
theorem firstMention_eq_iff {other : ℕ} (h : position < ctx.instructionAccounts.length)
    (hother : other < ctx.instructionAccounts.length) :
    firstMention ctx position = firstMention ctx other ↔
      (ctx.accountAt position).indexInTransaction = (ctx.accountAt other).indexInTransaction := by
  constructor
  · intro heq
    rw [← indexInTransaction_firstMention h, heq, indexInTransaction_firstMention hother]
  · intro heq
    simp only [firstMention, heq]

theorem firstMention_firstMention (h : position < ctx.instructionAccounts.length) :
    firstMention ctx (firstMention ctx position) = firstMention ctx position :=
  (firstMention_eq_iff (firstMention_lt_length h) h).mpr (indexInTransaction_firstMention h)

/-- `is_duplicate` at an instruction account is its first mention, when that is earlier. -/
theorem isDuplicate_eq (h : position < ctx.instructionAccounts.length) :
    isDuplicate ctx (ctx.programAccounts.length + position) =
      if firstMention ctx position < position then some (firstMention ctx position)
      else none := by
  have hpred : ∀ earlier < position,
      (ctx.getIndexInTransaction (ctx.programAccounts.length + earlier) ==
        ctx.getIndexInTransaction (ctx.programAccounts.length + position)) =
      ((ctx.accountAt earlier).indexInTransaction ==
        (ctx.accountAt position).indexInTransaction) := by
    intro earlier hearlier
    rw [getIndexInTransaction_eq (Nat.lt_trans hearlier h), getIndexInTransaction_eq h]
    by_cases hsame : (ctx.accountAt earlier).indexInTransaction =
        (ctx.accountAt position).indexInTransaction
    · simp [hsame]
    · simp [hsame]
  rw [isDuplicate, Nat.add_sub_cancel_left]
  split_ifs with hlt
  · rw [List.findIdx?_eq_some_iff_getElem]
    refine ⟨by simpa using hlt, ?_, fun earlier hearlier => ?_⟩
    · rw [List.getElem_range', Nat.one_mul, hpred _ hlt, indexInTransaction_firstMention h,
        beq_self_eq_true]
    · rw [List.getElem_range', Nat.one_mul, hpred _ (Nat.lt_trans hearlier hlt), beq_iff_eq]
      exact indexInTransaction_ne_of_lt_firstMention hearlier
  · rw [List.findIdx?_eq_none_iff]
    intro index hindex
    obtain ⟨earlier, hearlier, rfl⟩ : ∃ earlier < position,
        index = ctx.programAccounts.length + earlier := by
      rw [List.mem_range'_1] at hindex
      exact ⟨index - ctx.programAccounts.length, by omega, by omega⟩
    have hfirst : position ≤ firstMention ctx position := Nat.le_of_not_lt hlt
    rw [hpred _ hearlier, beq_eq_false_iff_ne]
    exact indexInTransaction_ne_of_lt_firstMention (Nat.lt_of_lt_of_le hearlier hfirst)

theorem tryBorrowAccount_eq (hvalid : ctx.Valid tc)
    (h : position < ctx.instructionAccounts.length) :
    ctx.tryBorrowAccount tc (ctx.programAccounts.length + position) =
      .ok (borrowedAt tc ctx position) := by
  have hindex : (ctx.accountAt position).indexInTransaction < tc.accounts.length := by
    rw [accountAt_eq h]
    exact hvalid.indexInTransaction_lt _ (List.getElem_mem h)
  have hflag : ∀ {β : Type} (f : InstructionAccount → β) (d : β),
      ((ctx.instructionAccounts[ctx.programAccounts.length + position -
        ctx.programAccounts.length]?).map f).getD d = f (ctx.accountAt position) := by
    intro β f d
    rw [Nat.add_sub_cancel_left, List.getElem?_eq_getElem h, Option.map_some, Option.getD_some,
      accountAt_eq h]
  rw [InstructionContext.tryBorrowAccount, getIndexInTransaction_eq h, Except.ok_bind,
    List.getElem?_eq_getElem hindex]
  simp only [InstructionContext.isSigner, InstructionContext.isWritable,
    if_neg (Nat.not_lt.mpr (Nat.le_add_right _ position)), hflag, borrowedAt,
    List.getD_eq_getElem?_getD, List.getElem?_eq_getElem hindex, Option.getD_some]
  rfl

theorem entry_eq (hvalid : ctx.Valid tc) (h : position < ctx.instructionAccounts.length) :
    entry tc ctx (ctx.programAccounts.length + position) =
      .ok (entryOf (firstMention ctx) (borrowedAt tc ctx) position) := by
  rw [entry, isDuplicate_eq h, entryOf]
  split_ifs
  · rfl
  · rw [tryBorrowAccount_eq hvalid h]
    rfl

/-- What the loader writes for a context the runtime builds. -/
theorem entries_eq (hvalid : ctx.Valid tc) :
    entries tc ctx = .ok ((List.range ctx.instructionAccounts.length).map
      (entryOf (firstMention ctx) (borrowedAt tc ctx))) := by
  rw [entries, instructionAccountIndexes, List.range'_eq_map_range, List.mapM_map]
  exact Except.mapM_eq_ok_of_forall fun position hposition =>
    entry_eq hvalid (List.mem_range.mp hposition)

/-- An account named twice is named with the same flags, so its first mention is the same
instruction account. -/
theorem accountAt_firstMention (hvalid : ctx.Valid tc)
    (h : position < ctx.instructionAccounts.length) :
    ctx.accountAt (firstMention ctx position) = ctx.accountAt position := by
  have hfirst := firstMention_lt_length h
  have htx := indexInTransaction_firstMention h
  rw [accountAt_eq hfirst, accountAt_eq h] at htx ⊢
  obtain ⟨hsigner, hwritable⟩ := hvalid.flags_eq _ (List.getElem_mem hfirst) _
    (List.getElem_mem h) htx
  exact InstructionAccount.ext htx hsigner hwritable

theorem borrowedAt_firstMention (hvalid : ctx.Valid tc)
    (h : position < ctx.instructionAccounts.length) :
    borrowedAt tc ctx (firstMention ctx position) = borrowedAt tc ctx position := by
  simp only [borrowedAt, accountAt_firstMention hvalid h]

end Entries

/-- The values of the transaction's accounts fit the widths of the layouts' fields. -/
structure TransactionContext.Fits (tc : TransactionContext) : Prop where
  key_lt : ∀ entry ∈ tc.accounts, entry.1 < 2 ^ 256
  lamports_lt : ∀ entry ∈ tc.accounts, entry.2.lamports < 2 ^ 64
  dataLength_lt : ∀ entry ∈ tc.accounts, entry.2.data.length < 2 ^ 64
  owner_lt : ∀ entry ∈ tc.accounts, entry.2.owner < 2 ^ 256
  rentEpoch_lt : ∀ entry ∈ tc.accounts, entry.2.rentEpoch < 2 ^ 64

/-- Every duplicate's marker is below `u8::MAX`: no account first named at position 255 or
later is named again. At most 256 instruction accounts are enough. -/
def InstructionContext.MarkersFit (ctx : InstructionContext) : Prop :=
  ∀ position < ctx.instructionAccounts.length,
    firstMention ctx position < position → firstMention ctx position < 255

theorem markersFit_of_length_le {ctx : InstructionContext}
    (h : ctx.instructionAccounts.length ≤ 256) : ctx.MarkersFit :=
  fun _ hposition hlt => by omega

section Program

variable {tc : TransactionContext} {ctx : InstructionContext} {position : ℕ}

/-- The transaction account an instruction account names. -/
theorem accounts_getElem?_borrowedAt (hvalid : ctx.Valid tc)
    (h : position < ctx.instructionAccounts.length) :
    tc.accounts[(borrowedAt tc ctx position).indexInTransaction]? =
      some ((borrowedAt tc ctx position).key, (borrowedAt tc ctx position).account) := by
  have hindex : (ctx.accountAt position).indexInTransaction < tc.accounts.length := by
    rw [accountAt_eq h]
    exact hvalid.indexInTransaction_lt _ (List.getElem_mem h)
  simp only [borrowedAt, List.getD_eq_getElem?_getD, List.getElem?_eq_getElem hindex,
    Option.getD_some]

theorem borrowedAt_fits (hvalid : ctx.Valid tc) (hfits : tc.Fits)
    (h : position < ctx.instructionAccounts.length) : (borrowedAt tc ctx position).Fits := by
  have hmem : ((borrowedAt tc ctx position).key, (borrowedAt tc ctx position).account) ∈
      tc.accounts :=
    List.mem_of_getElem? (accounts_getElem?_borrowedAt hvalid h)
  exact ⟨hfits.key_lt _ hmem, hfits.lamports_lt _ hmem, hfits.dataLength_lt _ hmem,
    hfits.owner_lt _ hmem, hfits.rentEpoch_lt _ hmem⟩

/-- An account `try_borrow_account` lends is one of the transaction's. -/
theorem TransactionContext.Fits.key_lt_of_tryBorrowAccount (hfits : tc.Fits) {index : ℕ}
    {b : BorrowedAccount} (h : ctx.tryBorrowAccount tc index = .ok b) : b.key < 2 ^ 256 := by
  unfold InstructionContext.tryBorrowAccount at h
  cases hindex : ctx.getIndexInTransaction index with
  | error e =>
    rw [hindex] at h
    cases h
  | ok i =>
    rw [hindex, Except.ok_bind] at h
    cases hentry : tc.accounts[i]? with
    | none =>
      rw [hentry] at h
      cases h
    | some entry =>
      obtain ⟨key, account⟩ := entry
      rw [hentry] at h
      cases h
      exact hfits.key_lt _ (List.mem_of_getElem? hentry)

/-- The first `n` instruction accounts name their accounts as the program's parser expects,
when the markers among them fit a byte. -/
theorem firstMentions_of_le {n : ℕ} (hvalid : ctx.Valid tc) (hfits : tc.Fits)
    (hn : n ≤ ctx.instructionAccounts.length)
    (hmarkers : ∀ position < n,
      firstMention ctx position < position → firstMention ctx position < 255) :
    FirstMentions (firstMention ctx) (borrowedAt tc ctx) n where
  first_le _ h := firstMention_le (by omega)
  first_first _ h := firstMention_firstMention (by omega)
  fits _ h _ := borrowedAt_fits hvalid hfits (by omega)
  marker_lt := hmarkers

theorem firstMentions (hvalid : ctx.Valid tc) (hfits : tc.Fits) (hmarkers : ctx.MarkersFit) :
    FirstMentions (firstMention ctx) (borrowedAt tc ctx) ctx.instructionAccounts.length :=
  firstMentions_of_le hvalid hfits le_rfl hmarkers

/-- What a program reads from its input for the instruction accounts of `ctx`: one
`AccountInfo` for each, carrying it, with the cells of two shared exactly when they name the
same account. -/
structure ReadsBack (input : List UInt8) (tc : TransactionContext) (ctx : InstructionContext)
    (infos : List AccountInfo) : Prop where
  length_eq : infos.length = ctx.instructionAccounts.length
  carries : ∀ position (h : position < infos.length),
    infos[position].Carries input (borrowedAt tc ctx position)
  shares_iff : ∀ i j (hi : i < infos.length) (hj : j < infos.length),
    infos[i].lamportsAt = infos[j].lamportsAt ∧ infos[i].dataAt = infos[j].dataAt ↔
      (ctx.accountAt i).indexInTransaction = (ctx.accountAt j).indexInTransaction

/-- The entry where an account is first named holds it in full. -/
theorem entryOf_firstMention (h : position < ctx.instructionAccounts.length) :
    entryOf (firstMention ctx) (borrowedAt tc ctx) (firstMention ctx position) =
      .original (borrowedAt tc ctx (firstMention ctx position)) := by
  rw [entryOf, if_neg (by rw [firstMention_firstMention h]; exact Nat.lt_irrefl _)]

/-- The program reads each instruction account from the entry of its first mention. -/
theorem readsBack_infoAt {encode : Entry → List UInt8}
    {infoOf : BorrowedAccount → ℕ → AccountInfo} {programKey : Pubkey} {lamportsAt dataAt : ℕ}
    (hvalid : ctx.Valid tc) (hfits : tc.Fits) (hpos : ∀ e, 0 < (encode e).length)
    (hcarries : ∀ {input rest : List UInt8} {offset : ℕ} {b : BorrowedAccount}, b.Fits →
      input.drop offset = encode (.original b) ++ rest → (infoOf b offset).Carries input b)
    (hcells : ∀ b offset, (infoOf b offset).lamportsAt = offset + lamportsAt ∧
      (infoOf b offset).dataAt = offset + dataAt) :
    ReadsBack (serializedInput ctx encode ((List.range ctx.instructionAccounts.length).map
        (entryOf (firstMention ctx) (borrowedAt tc ctx))) programKey) tc ctx
      ((List.range ctx.instructionAccounts.length).map
        (infoAt infoOf encode (firstMention ctx) (borrowedAt tc ctx))) where
  length_eq := by simp
  carries position h := by
    rw [List.length_map, List.length_range] at h
    obtain ⟨rest, hrest⟩ := drop_offsetOf (firstMention_lt_length h) drop_serializedInput
    rw [entryOf_firstMention h] at hrest
    have hcarry := hcarries (borrowedAt_fits hvalid hfits (firstMention_lt_length h)) hrest
    rw [borrowedAt_firstMention hvalid h] at hcarry
    simpa [infoAt, borrowedAt_firstMention hvalid h] using hcarry
  shares_iff i j hi hj := by
    rw [List.length_map, List.length_range] at hi hj
    simp only [List.getElem_map, List.getElem_range, infoAt, (hcells _ _).1, (hcells _ _).2,
      Nat.add_right_cancel_iff, and_self]
    rw [(offsetOf_injective hpos).eq_iff, firstMention_eq_iff hi hj]

end Program

/-! ## The runtime reads the accounts back -/

/-- Setting an account's fields to what they are changes nothing. -/
theorem TransactionContext.modifyAccount_eq_self {tc : TransactionContext} {index : ℕ}
    {key : Pubkey} {account : AccountSharedData} {f : AccountSharedData → AccountSharedData}
    (hentry : tc.accounts[index]? = some (key, account)) (hf : f account = account) :
    tc.modifyAccount index f = tc := by
  cases tc with
  | mk accounts =>
    simp only [TransactionContext.modifyAccount, TransactionContext.mk.injEq]
    apply List.ext_getElem?
    intro j
    rw [List.getElem?_modify]
    split_ifs with hj
    · subst hj
      simp only at hentry
      rw [hentry, Option.map_eq_map, Option.map_some, hf]
    · exact id_map _

@[simp] theorem orPanic_some {α : Type} (a : α) :
    orPanic (some a) = (pure a : Fallible InstructionError α) := rfl

section Runtime

variable {ctx : InstructionContext} {tc : TransactionContext} {buffer rest : List UInt8}
  {start index : ℕ} {b : BorrowedAccount}

theorem deserializeAccountAligned_original (realloc : Bool) (hb : b.Fits)
    (hdup : isDuplicate ctx index = none) (hborrow : ctx.tryBorrowAccount tc index = .ok b)
    (hentry : tc.accounts[b.indexInTransaction]? = some (b.key, b.account))
    (hmax : realloc = true → b.account.data.length ≤ maxPermittedDataLength)
    (halign : bpfAlignOfU128 ∣ start)
    (h : buffer.drop start = (Entry.original b).alignedBytes ++ rest) :
    deserializeAccountAligned ctx buffer realloc (tc, start) (index, b.account.data.length) =
      pure (tc, start + (Entry.original b).alignedBytes.length) := by
  have hlength := Entry.length_alignedBytes_original b
  simp only [Entry.alignedBytes, List.append_assoc] at h
  have h : buffer.drop (start + 1 + 1 + 1 + 1 + 4 + 32) = _ := drop_add_of_drop (toLE 32 b.key)
    (drop_add_of_drop [255, boolByte b.isSigner, boolByte b.isWritable,
      boolByte b.account.executable, 0, 0, 0, 0] (by simpa using h))
  have howner := slice_drop h (toLE_append_ne_nil (by decide) _ _)
  rw [length_toLE] at howner
  have h : buffer.drop (start + 1 + 1 + 1 + 1 + 4 + 32 + 32) = _ :=
    drop_add_of_drop (toLE 32 b.account.owner) h
  obtain ⟨hlamports, h⟩ := readU64_drop h
  obtain ⟨hpostLen, h⟩ := readU64_drop h
  have hdata := slice_drop h
    (List.ne_nil_of_length_pos (by simp only [List.length_append, length_toLE]; omega))
  have hpad : start + 1 + 1 + 1 + 1 + 4 + 32 + 32 + 8 + 8 + b.account.data.length +
      maxPermittedDataIncrease + alignOffset (start + 1 + 1 + 1 + 1 + 4 + 32 + 32 + 8 + 8 +
        b.account.data.length + maxPermittedDataIncrease) bpfAlignOfU128 + 8 =
      start + (Entry.original b).alignedBytes.length := by
    have hdvd : bpfAlignOfU128 ∣ start + 88 + maxPermittedDataIncrease :=
      Nat.dvd_add (Nat.dvd_add halign ⟨11, rfl⟩) ⟨1280, rfl⟩
    have harg : start + 1 + 1 + 1 + 1 + 4 + 32 + 32 + 8 + 8 + b.account.data.length +
        maxPermittedDataIncrease =
          start + 88 + maxPermittedDataIncrease + b.account.data.length := by
      omega
    rw [harg, alignOffset_add_of_dvd hdvd, hlength]
    omega
  unfold deserializeAccountAligned
  simp only [hdup, hborrow, Fallible.ofExcept_ok, pure_bind, howner, hlamports, hpostLen,
    orPanic_some, ofLE_toLE, Nat.mod_eq_of_lt hb.owner_lt, Nat.mod_eq_of_lt hb.lamports_lt,
    Nat.mod_eq_of_lt hb.dataLength_lt, Nat.sub_self]
  have hfit : realloc = true →
      ¬(0 > maxPermittedDataIncrease ∨ b.account.data.length > maxPermittedDataLength) := by
    intro hrealloc
    rw [not_or]
    exact ⟨Nat.not_lt_zero _, Nat.not_lt.mpr (hmax hrealloc)⟩
  cases realloc <;>
    simp only [Bool.false_eq_true, if_false, ite_self, hfit, hdata, orPanic_some, pure_bind]
  all_goals
    rw [TransactionContext.modifyAccount_eq_self hentry,
      TransactionContext.modifyAccount_eq_self hentry,
      TransactionContext.modifyAccount_eq_self hentry, hpad]
  all_goals rfl

theorem deserializeAccountAligned_duplicate (realloc : Bool) {position preLen : ℕ}
    (hdup : isDuplicate ctx index = some position) :
    deserializeAccountAligned ctx buffer realloc (tc, start) (index, preLen) =
      pure (tc, start + (Entry.duplicate position).alignedBytes.length) := by
  simp only [deserializeAccountAligned, hdup]
  rfl

theorem deserializeAccountUnaligned_original (hb : b.Fits)
    (hdup : isDuplicate ctx index = none) (hborrow : ctx.tryBorrowAccount tc index = .ok b)
    (hentry : tc.accounts[b.indexInTransaction]? = some (b.key, b.account))
    (h : buffer.drop start = (Entry.original b).unalignedBytes ++ rest) :
    deserializeAccountUnaligned ctx buffer (tc, start) (index, b.account.data.length) =
      pure (tc, start + (Entry.original b).unalignedBytes.length) := by
  have hlength := Entry.length_unalignedBytes_original b
  simp only [Entry.unalignedBytes, List.append_assoc] at h
  have h : buffer.drop (start + 1 + 1 + 1 + 32) = _ := drop_add_of_drop (toLE 32 b.key)
    (drop_add_of_drop [255, boolByte b.isSigner, boolByte b.isWritable] (by simpa using h))
  obtain ⟨hlamports, h⟩ := readU64_drop h
  obtain ⟨-, h⟩ := readU64_drop h
  have hdata := slice_drop h
    (List.ne_nil_of_length_pos (by simp only [List.length_append, length_toLE]; omega))
  have hend : start + 1 + 1 + 1 + 32 + 8 + 8 + b.account.data.length + 32 + 1 + 8 =
      start + (Entry.original b).unalignedBytes.length := by
    rw [hlength]
    omega
  unfold deserializeAccountUnaligned
  simp only [hdup, hborrow, Fallible.ofExcept_ok, pure_bind, hlamports, hdata, orPanic_some,
    Nat.mod_eq_of_lt hb.lamports_lt]
  rw [TransactionContext.modifyAccount_eq_self hentry rfl, hend]

theorem deserializeAccountUnaligned_duplicate {position preLen : ℕ}
    (hdup : isDuplicate ctx index = some position) :
    deserializeAccountUnaligned ctx buffer (tc, start) (index, preLen) =
      pure (tc, start + (Entry.duplicate position).unalignedBytes.length) := by
  simp only [deserializeAccountUnaligned, hdup]
  rfl

end Runtime

section Run

variable {tc : TransactionContext} {ctx : InstructionContext} {programKey : Pubkey}

/-- The data lengths `serialize_parameters` returns for a context the runtime builds. -/
theorem accountLengths_eq (hvalid : ctx.Valid tc) :
    (instructionAccountIndexes ctx).mapM (fun indexInInstruction => do
      let borrowedAccount ← ctx.tryBorrowAccount tc indexInInstruction
      pure borrowedAccount.account.data.length) =
      .ok ((List.range ctx.instructionAccounts.length).map fun position =>
        (borrowedAt tc ctx position).account.data.length) := by
  rw [instructionAccountIndexes, List.range'_eq_map_range, List.mapM_map]
  exact Except.mapM_eq_ok_of_forall fun position hposition => by
    simp only [Function.comp_apply, tryBorrowAccount_eq hvalid (List.mem_range.mp hposition),
      Except.ok_bind]
    rfl

/-- The runtime reads an unmodified aligned buffer back into the accounts it came from. -/
theorem deserializeParametersAligned_serializedInput (realloc : Bool) (hvalid : ctx.Valid tc)
    (hfits : tc.Fits)
    (hmax : realloc = true → ∀ position < ctx.instructionAccounts.length,
      (borrowedAt tc ctx position).account.data.length ≤ maxPermittedDataLength) :
    deserializeParametersAligned ctx (serializedInput ctx Entry.alignedBytes
        ((List.range ctx.instructionAccounts.length).map
          (entryOf (firstMention ctx) (borrowedAt tc ctx))) programKey) tc
      ((List.range ctx.instructionAccounts.length).map fun position =>
        (borrowedAt tc ctx position).account.data.length) realloc = pure tc := by
  have hstep : ∀ position < ctx.instructionAccounts.length,
      deserializeAccountAligned ctx (serializedInput ctx Entry.alignedBytes
          ((List.range ctx.instructionAccounts.length).map
            (entryOf (firstMention ctx) (borrowedAt tc ctx))) programKey) realloc
        (tc, offsetOf Entry.alignedBytes (firstMention ctx) (borrowedAt tc ctx) position)
        (ctx.programAccounts.length + position,
          (borrowedAt tc ctx position).account.data.length) =
      pure (tc, offsetOf Entry.alignedBytes (firstMention ctx) (borrowedAt tc ctx)
        (position + 1)) := by
    intro position hposition
    have hdrop : (serializedInput ctx Entry.alignedBytes ((List.range ctx.instructionAccounts.length).map
        (entryOf (firstMention ctx) (borrowedAt tc ctx))) programKey).drop 8 = _ :=
      drop_serializedInput
    obtain ⟨rest, hrest⟩ := drop_offsetOf hposition hdrop
    have hdup := isDuplicate_eq hposition
    rw [offsetOf_succ]
    unfold entryOf at hrest ⊢
    split_ifs at hdup hrest ⊢ with hlt
    · exact deserializeAccountAligned_duplicate realloc hdup
    · exact deserializeAccountAligned_original realloc (borrowedAt_fits hvalid hfits hposition)
        hdup (tryBorrowAccount_eq hvalid hposition) (accounts_getElem?_borrowedAt hvalid hposition)
        (fun hrealloc => hmax hrealloc position hposition) (dvd_offsetOf_alignedBytes _ _ _) hrest
  have hrun := Fallible.foldlM_zip_of_step _ _ hstep
  simp only [offsetOf_zero] at hrun
  simp only [deserializeParametersAligned, instructionAccountIndexes, hrun, pure_bind]

/-- The same for the unaligned layout. -/
theorem deserializeParametersUnaligned_serializedInput (hvalid : ctx.Valid tc)
    (hfits : tc.Fits) :
    deserializeParametersUnaligned ctx (serializedInput ctx Entry.unalignedBytes
        ((List.range ctx.instructionAccounts.length).map
          (entryOf (firstMention ctx) (borrowedAt tc ctx))) programKey) tc
      ((List.range ctx.instructionAccounts.length).map fun position =>
        (borrowedAt tc ctx position).account.data.length) = pure tc := by
  have hstep : ∀ position < ctx.instructionAccounts.length,
      deserializeAccountUnaligned ctx (serializedInput ctx Entry.unalignedBytes
          ((List.range ctx.instructionAccounts.length).map
            (entryOf (firstMention ctx) (borrowedAt tc ctx))) programKey)
        (tc, offsetOf Entry.unalignedBytes (firstMention ctx) (borrowedAt tc ctx) position)
        (ctx.programAccounts.length + position,
          (borrowedAt tc ctx position).account.data.length) =
      pure (tc, offsetOf Entry.unalignedBytes (firstMention ctx) (borrowedAt tc ctx)
        (position + 1)) := by
    intro position hposition
    have hdrop : (serializedInput ctx Entry.unalignedBytes ((List.range ctx.instructionAccounts.length).map
        (entryOf (firstMention ctx) (borrowedAt tc ctx))) programKey).drop 8 = _ :=
      drop_serializedInput
    obtain ⟨rest, hrest⟩ := drop_offsetOf hposition hdrop
    have hdup := isDuplicate_eq hposition
    rw [offsetOf_succ]
    unfold entryOf at hrest ⊢
    split_ifs at hdup hrest ⊢ with hlt
    · exact deserializeAccountUnaligned_duplicate hdup
    · exact deserializeAccountUnaligned_original (borrowedAt_fits hvalid hfits hposition)
        hdup (tryBorrowAccount_eq hvalid hposition) (accounts_getElem?_borrowedAt hvalid hposition)
        hrest
  have hrun := Fallible.foldlM_zip_of_step _ _ hstep
  simp only [offsetOf_zero] at hrun
  simp only [deserializeParametersUnaligned, instructionAccountIndexes, hrun, pure_bind]

/-- What `serialize_parameters` returns for a context the runtime builds: the input in the
layout of the program's loader, and the length of each instruction account's data. -/
theorem serializeParameters_eq {programAccount : BorrowedAccount} (hvalid : ctx.Valid tc)
    (hprogram : ctx.tryBorrowProgramAccount tc = .ok programAccount) :
    serializeParameters tc ctx =
      let input := serializedInput ctx
        (if programAccount.account.owner = bpfLoaderDeprecatedId then Entry.unalignedBytes
          else Entry.alignedBytes)
        ((List.range ctx.instructionAccounts.length).map
          (entryOf (firstMention ctx) (borrowedAt tc ctx))) programAccount.key
      .ok (⟨input.length, input⟩, (List.range ctx.instructionAccounts.length).map
        fun position => (borrowedAt tc ctx position).account.data.length) := by
  rw [serializeParameters, hprogram, Except.ok_bind]
  split_ifs
  · rw [serializeParametersUnaligned_eq tc ctx (entries_eq hvalid) hprogram, Except.ok_bind,
      accountLengths_eq hvalid]
    rfl
  · rw [serializeParametersAligned_eq tc ctx (entries_eq hvalid) hprogram, Except.ok_bind,
      accountLengths_eq hvalid]
    rfl

/-- `deserialize_parameters` on an unmodified buffer, with the lengths `serialize_parameters`
returned, leaves the transaction's accounts as they were. -/
theorem deserializeParameters_serializeParameters (realloc : Bool) (hvalid : ctx.Valid tc)
    (hfits : tc.Fits)
    (hmax : realloc = true → ∀ position < ctx.instructionAccounts.length,
      (borrowedAt tc ctx position).account.data.length ≤ maxPermittedDataLength)
    {buffer : AlignedMemory} {accountLengths : List ℕ}
    (h : serializeParameters tc ctx = .ok (buffer, accountLengths)) :
    deserializeParameters tc ctx buffer.mem accountLengths realloc = pure tc := by
  cases hprogram : ctx.tryBorrowProgramAccount tc with
  | error e =>
    rw [serializeParameters, hprogram] at h
    cases h
  | ok programAccount =>
    rw [serializeParameters_eq hvalid hprogram] at h
    obtain ⟨rfl, rfl⟩ := Prod.mk.inj (Except.ok.inj h)
    rw [deserializeParameters, hprogram, Fallible.ofExcept_ok, pure_bind]
    split_ifs
    · exact deserializeParametersUnaligned_serializedInput hvalid hfits
    · exact deserializeParametersAligned_serializedInput realloc hvalid hfits hmax

end Run

/-! ## Agreement -/

section Agreement

variable {tc : TransactionContext} {ctx : InstructionContext} {programAccount : BorrowedAccount}

/-- The loader and the program agree on the input of every context the runtime builds whose
duplicate markers fit below `u8::MAX`, in both layouts: the loader fills exactly the buffer it
sized, and the program reads back the program id, the instruction data, and the instruction
accounts in order with their cells shared as their accounts are. -/
theorem serializeParameters_readsBack (hvalid : ctx.Valid tc) (hfits : tc.Fits)
    (hmarkers : ctx.MarkersFit) (hcount : ctx.instructionAccounts.length < 2 ^ 64)
    (hdata : ctx.instructionData.length < 2 ^ 64)
    (hprogram : ctx.tryBorrowProgramAccount tc = .ok programAccount) :
    (∃ input infos, serializeParametersAligned tc ctx = .ok ⟨input.length, input⟩ ∧
      Entrypoint.deserialize input = some (programAccount.key, infos, ctx.instructionData) ∧
      ReadsBack input tc ctx infos) ∧
    (∃ input infos, serializeParametersUnaligned tc ctx = .ok ⟨input.length, input⟩ ∧
      EntrypointDeprecated.deserialize input =
        some (programAccount.key, infos, ctx.instructionData) ∧
      ReadsBack input tc ctx infos) := by
  have hkey := hfits.key_lt_of_tryBorrowAccount hprogram
  have hfirst := firstMentions hvalid hfits hmarkers
  refine ⟨⟨_, _, serializeParametersAligned_eq tc ctx (entries_eq hvalid) hprogram,
      Entrypoint.deserialize_serializedInput hfirst rfl hcount hdata hkey, ?_⟩,
    ⟨_, _, serializeParametersUnaligned_eq tc ctx (entries_eq hvalid) hprogram,
      EntrypointDeprecated.deserialize_serializedInput hfirst rfl hcount hdata hkey, ?_⟩⟩
  · exact readsBack_infoAt hvalid hfits Entry.length_alignedBytes_pos carries_alignedInfo
      fun _ _ => ⟨rfl, rfl⟩
  · exact readsBack_infoAt hvalid hfits Entry.length_unalignedBytes_pos carries_unalignedInfo
      fun _ _ => ⟨rfl, rfl⟩

end Agreement

/-- A transaction with its program, owned by a loader other than the deprecated one, and two
empty accounts. -/
def programAndTwoAccounts : TransactionContext :=
  ⟨[(9, ⟨1, [], 2, true, 0⟩), (1, ⟨0, [], 0, false, 0⟩), (2, ⟨0, [], 0, false, 0⟩)]⟩

/-- An instruction that names account 1 at positions 0 to 254 and account 2 at 255 and 256. -/
def twoFiftySevenMentions : InstructionContext :=
  ⟨[0], List.replicate 255 ⟨1, false, false⟩ ++ [⟨2, false, false⟩, ⟨2, false, false⟩], []⟩

/-- At 257 instruction accounts the marker of the last, `255 as u8`, is `u8::MAX`: the
loader serializes the instruction, and the program cannot read its input back. -/
theorem serializeParameters_marker_255_unreadable :
    ∃ buffer accountLengths,
      serializeParameters programAndTwoAccounts twoFiftySevenMentions =
        .ok (buffer, accountLengths) ∧
      Entrypoint.deserialize buffer.mem = none := by
  have hflags : ∀ a ∈ twoFiftySevenMentions.instructionAccounts,
      a.isSigner = false ∧ a.isWritable = false := by decide +kernel
  have hvalid : twoFiftySevenMentions.Valid programAndTwoAccounts :=
    ⟨by decide +kernel, fun a ha b hb _ =>
      ⟨(hflags a ha).1.trans (hflags b hb).1.symm, (hflags a ha).2.trans (hflags b hb).2.symm⟩⟩
  have hfits : programAndTwoAccounts.Fits := ⟨by decide, by decide, by decide, by decide,
    by decide⟩
  have hprogram : twoFiftySevenMentions.tryBorrowProgramAccount programAndTwoAccounts =
      .ok ⟨0, 9, ⟨1, [], 2, true, 0⟩, false, false⟩ := rfl
  have hlength : twoFiftySevenMentions.instructionAccounts.length = 256 + 1 := by
    simp only [twoFiftySevenMentions, List.length_append, List.length_replicate,
      List.length_cons, List.length_nil]
  have hfirst : FirstMentions (firstMention twoFiftySevenMentions)
      (borrowedAt programAndTwoAccounts twoFiftySevenMentions) 256 :=
    firstMentions_of_le hvalid hfits (by omega)
      fun position hposition hlt => Nat.lt_of_lt_of_le hlt (Nat.le_of_lt_succ hposition)
  have hlast : firstMention twoFiftySevenMentions 256 = 255 := by decide +kernel
  refine ⟨_, _, serializeParameters_eq hvalid hprogram, ?_⟩
  rw [if_neg (by decide), hlength]
  exact Entrypoint.deserialize_marker_255 hfirst hlast (by decide) hlength (by decide)
    (by decide)

/-- The program account and the two empty accounts, each named once: the loader's buffer,
read back with the lengths it returned, leaves the accounts as they were. -/
theorem deserializeParameters_serializeParameters_twoAccounts :
    let ctx : InstructionContext := ⟨[0], [⟨1, false, false⟩, ⟨2, false, false⟩], []⟩
    ∃ buffer accountLengths,
      serializeParameters programAndTwoAccounts ctx = .ok (buffer, accountLengths) ∧
      deserializeParameters programAndTwoAccounts ctx buffer.mem accountLengths false =
        pure programAndTwoAccounts := by
  intro ctx
  have hvalid : ctx.Valid programAndTwoAccounts := ⟨by decide, by decide⟩
  have hfits : programAndTwoAccounts.Fits := ⟨by decide, by decide, by decide, by decide,
    by decide⟩
  have hprogram : ctx.tryBorrowProgramAccount programAndTwoAccounts =
      .ok ⟨0, 9, ⟨1, [], 2, true, 0⟩, false, false⟩ := rfl
  have hserialize := serializeParameters_eq hvalid hprogram
  exact ⟨_, _, hserialize,
    deserializeParameters_serializeParameters false hvalid hfits nofun hserialize⟩

end Solana.BpfLoader
