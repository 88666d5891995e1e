import Solana.Runtime.Invoke
import Solana.Lib.Fallible

/-! One lemma for each function of `Solana.Runtime.Invoke` saying everything a successful call did. -/

namespace Solana.Runtime

open Except (bind_eq_ok)

/-! ## Transaction and instruction contexts -/

namespace TransactionContext

variable {tc : TransactionContext}

theorem getKeyOfAccountAtIndex_eq_ok {index : ℕ} {key : Pubkey} :
    tc.getKeyOfAccountAtIndex index = .ok key ↔ tc.accountKeys[index]? = some key := by
  unfold getKeyOfAccountAtIndex
  split <;> simp_all

theorem getAccountAtIndex_eq_ok {index : ℕ} {account : Account} :
    tc.getAccountAtIndex index = .ok account ↔ tc.accounts[index]? = some account := by
  unfold getAccountAtIndex
  split <;> simp_all

theorem getCurrentInstructionContext_eq_ok {ctx : InstructionContext} :
    tc.getCurrentInstructionContext = .ok ctx ↔ ∃ rest, tc.instructionContextStack = ctx :: rest := by
  unfold getCurrentInstructionContext
  split <;> simp_all

theorem findIndexOfAccount_key {pubkey : Pubkey} {index : ℕ}
    (h : tc.findIndexOfAccount pubkey = some index) : tc.accountKeys[index]? = some pubkey := by
  obtain ⟨hlt, hkey, -⟩ := List.findIdx?_eq_some_iff_getElem.mp h
  simpa [List.getElem?_eq_getElem hlt] using hkey

@[simp] theorem setAccount_accountKeys (index : ℕ) (account : Account) :
    (tc.setAccount index account).accountKeys = tc.accountKeys := rfl

@[simp] theorem setAccount_instructionContextStack (index : ℕ) (account : Account) :
    (tc.setAccount index account).instructionContextStack = tc.instructionContextStack := rfl

@[simp] theorem setAccount_accounts (index : ℕ) (account : Account) :
    (tc.setAccount index account).accounts = tc.accounts.set index account := rfl

end TransactionContext

namespace InstructionContext

variable {ctx : InstructionContext} {tc : TransactionContext}

/-- Past the program accounts, an index names an instruction account. -/
theorem getIndexInTransaction_of_le {n : ℕ} (hn : ctx.programAccounts.length ≤ n) {index : ℕ} :
    ctx.getIndexInTransaction n = .ok index ↔
      ∃ account, ctx.instructionAccounts[n - ctx.programAccounts.length]? = some account ∧
        account.indexInTransaction = index := by
  unfold getIndexInTransaction
  rw [if_neg (by omega)]
  split <;> simp_all

theorem tryBorrowAccount_eq_ok {n index : ℕ} {account : Account} :
    ctx.tryBorrowAccount tc n = .ok (index, account) ↔
      ctx.getIndexInTransaction n = .ok index ∧ tc.accounts[index]? = some account := by
  unfold tryBorrowAccount
  rw [bind_eq_ok]
  constructor
  · rintro ⟨index', hindex, hborrow⟩
    split at hborrow
    case h_1 account' haccount =>
      cases hborrow
      exact ⟨hindex, haccount⟩
    case h_2 => cases hborrow
  · rintro ⟨hindex, haccount⟩
    refine ⟨index, hindex, ?_⟩
    rw [haccount]
    rfl

theorem isWritable_of_le {n : ℕ} (hn : ctx.programAccounts.length ≤ n) {account : InstructionAccount}
    (haccount : ctx.instructionAccounts[n - ctx.programAccounts.length]? = some account) :
    ctx.isWritable n = account.isWritable := by
  unfold isWritable
  rw [if_neg (by omega), haccount]
  rfl

/-- The position `findIndexOfAccount` returns holds an account of that key. -/
theorem findIndexOfAccount_account {pubkey : Pubkey} {n : ℕ}
    (h : ctx.findIndexOfAccount tc pubkey = some n) :
    ctx.programAccounts.length ≤ n ∧ ∃ account,
      ctx.instructionAccounts[n - ctx.programAccounts.length]? = some account ∧
        tc.accountKeys[account.indexInTransaction]? = some pubkey := by
  unfold findIndexOfAccount at h
  obtain ⟨position, hposition, rfl⟩ := Option.map_eq_some_iff.mp h
  obtain ⟨hlt, hkey, -⟩ := List.findIdx?_eq_some_iff_getElem.mp hposition
  refine ⟨by omega, ctx.instructionAccounts[position], ?_, by simpa using hkey⟩
  simp [hlt]

/-- The program key is the key of the last program account. -/
theorem programKey_eq_ok {key : Pubkey} {last : ℕ}
    (hlast : ctx.programAccounts.getLast? = some last) (h : ctx.programKey tc = .ok key) :
    tc.accountKeys[last]? = some key := by
  unfold programKey at h
  obtain ⟨⟨index, account⟩, hborrow, hkey⟩ := bind_eq_ok.mp h
  obtain ⟨hindex, -⟩ := tryBorrowAccount_eq_ok.mp hborrow
  have hne : ctx.programAccounts ≠ [] := by
    rintro hnil
    simp [hnil] at hlast
  have hlen : ctx.programAccounts.length - 1 < ctx.programAccounts.length := by
    have := List.length_pos_iff.mpr hne
    omega
  unfold getIndexInTransaction at hindex
  rw [if_pos hlen, List.getElem?_eq_getElem hlen] at hindex
  have hlast' : ctx.programAccounts[ctx.programAccounts.length - 1] = last := by
    rw [List.getLast?_eq_getElem?, List.getElem?_eq_getElem hlen] at hlast
    exact Option.some.inj hlast
  cases hindex
  rw [hlast'] at hkey
  exact TransactionContext.getKeyOfAccountAtIndex_eq_ok.mp hkey

end InstructionContext

/-! ## Visiting each account once -/

section Visit

/-- The visited accounts are accounts of the instruction. -/
theorem mem_of_mem_visitEachAccountOnceFrom {seen : List ℕ} {instructionAccounts : List InstructionAccount}
    {instructionAccount : InstructionAccount}
    (h : instructionAccount ∈ visitEachAccountOnceFrom seen instructionAccounts) :
    instructionAccount ∈ instructionAccounts := by
  induction instructionAccounts generalizing seen with
  | nil => simp [visitEachAccountOnceFrom] at h
  | cons first rest ih =>
    unfold visitEachAccountOnceFrom at h
    split at h
    · exact List.mem_cons_of_mem first (ih h)
    · rcases List.mem_cons.mp h with h | h
      · exact h ▸ List.mem_cons_self
      · exact List.mem_cons_of_mem first (ih h)

/-- The visited accounts are distinct accounts of the transaction, none of them seen before. -/
theorem visitEachAccountOnceFrom_nodup (seen : List ℕ) (instructionAccounts : List InstructionAccount) :
    ((visitEachAccountOnceFrom seen instructionAccounts).map (·.indexInTransaction)).Nodup ∧
      ∀ instructionAccount ∈ visitEachAccountOnceFrom seen instructionAccounts,
        instructionAccount.indexInTransaction ∉ seen := by
  induction instructionAccounts generalizing seen with
  | nil => simp [visitEachAccountOnceFrom]
  | cons first rest ih =>
    unfold visitEachAccountOnceFrom
    split
    · exact ih seen
    case isFalse hfirst =>
      obtain ⟨hnodup, hfresh⟩ := ih (first.indexInTransaction :: seen)
      refine ⟨?_, ?_⟩
      · rw [List.map_cons, List.nodup_cons]
        refine ⟨?_, hnodup⟩
        intro hmem
        obtain ⟨other, hother, heq⟩ := List.mem_map.mp hmem
        exact hfresh other hother (heq ▸ List.mem_cons_self)
      · intro instructionAccount hmem
        rcases List.mem_cons.mp hmem with rfl | hmem
        · exact hfirst
        · exact fun hseen => hfresh instructionAccount hmem (List.mem_cons_of_mem _ hseen)

/-- Every account of the instruction is visited, unless it was seen before. -/
theorem mem_visitEachAccountOnceFrom_index (seen : List ℕ) {instructionAccounts : List InstructionAccount}
    {instructionAccount : InstructionAccount} (h : instructionAccount ∈ instructionAccounts) :
    instructionAccount.indexInTransaction ∈ seen ∨
      instructionAccount.indexInTransaction ∈
        (visitEachAccountOnceFrom seen instructionAccounts).map (·.indexInTransaction) := by
  induction instructionAccounts generalizing seen with
  | nil => simp at h
  | cons first rest ih =>
    unfold visitEachAccountOnceFrom
    split
    case isTrue hfirst =>
      rcases List.mem_cons.mp h with rfl | h
      · exact Or.inl hfirst
      · exact ih seen h
    case isFalse hfirst =>
      rcases List.mem_cons.mp h with rfl | h
      · exact Or.inr (by simp)
      · rcases ih (first.indexInTransaction :: seen) h with hseen | hvisited
        · rcases List.mem_cons.mp hseen with heq | hseen
          · exact Or.inr (by simp [heq])
          · exact Or.inl hseen
        · exact Or.inr (by simp only [List.map_cons]; exact List.mem_cons_of_mem _ hvisited)

theorem visitEachAccountOnce_nodup (instructionAccounts : List InstructionAccount) :
    ((visitEachAccountOnce instructionAccounts).map (·.indexInTransaction)).Nodup :=
  (visitEachAccountOnceFrom_nodup [] instructionAccounts).1

theorem mem_of_mem_visitEachAccountOnce {instructionAccounts : List InstructionAccount}
    {instructionAccount : InstructionAccount}
    (h : instructionAccount ∈ visitEachAccountOnce instructionAccounts) :
    instructionAccount ∈ instructionAccounts :=
  mem_of_mem_visitEachAccountOnceFrom h

theorem mem_visitEachAccountOnce_index {instructionAccounts : List InstructionAccount}
    {instructionAccount : InstructionAccount} (h : instructionAccount ∈ instructionAccounts) :
    instructionAccount.indexInTransaction ∈
      (visitEachAccountOnce instructionAccounts).map (·.indexInTransaction) :=
  (mem_visitEachAccountOnceFrom_index [] h).resolve_left List.not_mem_nil

end Visit

/-! ## The checks -/

section Checks

variable {config : InvokeConfig} {tc : TransactionContext} {ctx : InstructionContext}
  {programId : Pubkey}

theorem verifyAndUpdateEach_cons_eq_ok {before : Bool} {instructionAccount : InstructionAccount}
    {rest : List InstructionAccount} {preAccounts preAccounts' : List (Pubkey × Account)}
    {preSum postSum : ℕ}
    (h : verifyAndUpdateEach config tc ctx programId before (instructionAccount :: rest) preAccounts =
      .ok (preAccounts', preSum, postSum)) :
    let isWritable :=
      if before then ctx.isWritable instructionAccount.indexInCaller else instructionAccount.isWritable
    ∃ key account pre restPre restPost,
      tc.accountKeys[instructionAccount.indexInTransaction]? = some key ∧
      tc.accounts[instructionAccount.indexInTransaction]? = some account ∧
      Map.get preAccounts key = some pre ∧ AllowedChange programId isWritable pre account ∧
      verifyAndUpdateEach config tc ctx programId before rest
        (if isWritable ∧ !pre.executable then Map.insert preAccounts key account else preAccounts) =
        .ok (preAccounts', restPre, restPost) ∧
      preSum = pre.lamports + restPre ∧ postSum = account.lamports + restPost := by
  intro isWritable
  unfold verifyAndUpdateEach at h
  split at h
  case isFalse => cases h
  obtain ⟨key, hkey, h⟩ := bind_eq_ok.mp h
  obtain ⟨account, haccount, h⟩ := bind_eq_ok.mp h
  cases before
  all_goals
    dsimp only [isWritable] at h ⊢
    simp only [Bool.false_eq_true, if_false, if_true, pure_bind] at h ⊢
  rotate_left
  obtain ⟨_, -, h⟩ := bind_eq_ok.mp h
  all_goals
  split at h
  case h_2 => cases h
  case h_1 pre hpre =>
    obtain ⟨_, hverify, h⟩ := bind_eq_ok.mp h
    obtain ⟨⟨preAccounts'', restPre, restPost⟩, hrest, h⟩ := bind_eq_ok.mp h
    cases h
    exact ⟨key, account, pre, restPre, restPost,
      TransactionContext.getKeyOfAccountAtIndex_eq_ok.mp hkey,
      TransactionContext.getAccountAtIndex_eq_ok.mp haccount, hpre,
      verify_allowedChange hverify, hrest, rfl, rfl⟩

theorem verifyEach_cons_eq_ok {instructionAccount : InstructionAccount} {key : Pubkey}
    {pre : Account} {rest : List (InstructionAccount × (Pubkey × Account))} {preSum postSum : ℕ}
    (h : verifyEach config tc programId ((instructionAccount, key, pre) :: rest) =
      .ok (preSum, postSum)) :
    ∃ account restPre restPost,
      tc.accounts[instructionAccount.indexInTransaction]? = some account ∧
      AllowedChange programId instructionAccount.isWritable pre account ∧
      verifyEach config tc programId rest = .ok (restPre, restPost) ∧
      preSum = pre.lamports + restPre ∧ postSum = account.lamports + restPost := by
  unfold verifyEach at h
  obtain ⟨account, haccount, h⟩ := bind_eq_ok.mp h
  obtain ⟨_, hverify, h⟩ := bind_eq_ok.mp h
  obtain ⟨⟨restPre, restPost⟩, hrest, h⟩ := bind_eq_ok.mp h
  cases h
  exact ⟨account, restPre, restPost, TransactionContext.getAccountAtIndex_eq_ok.mp haccount,
    verify_allowedChange hverify, hrest, rfl, rfl⟩

theorem getProgramKey_eq_ok {key : Pubkey} (h : tc.getProgramKey = .ok key) :
    ∃ ctx rest, tc.instructionContextStack = ctx :: rest ∧ ctx.programKey tc = .ok key := by
  obtain ⟨ctx, hctx, hkey⟩ := bind_eq_ok.mp h
  obtain ⟨rest, hrest⟩ := TransactionContext.getCurrentInstructionContext_eq_ok.mp hctx
  exact ⟨ctx, rest, hrest, hkey⟩

theorem mapError_eq_ok {ε ε' α : Type} {x : Except ε α} {f : ε → ε'} {a : α}
    (h : x.mapError f = .ok a) : x = .ok a := by
  cases x with
  | error => cases h
  | ok => cases h; rfl

end Checks

namespace InvokeContext

variable {config : InvokeConfig} {ic ic' : InvokeContext}

theorem verifyAndUpdate_eq_ok {instructionAccounts : List InstructionAccount} {before : Bool}
    (h : ic.verifyAndUpdate config instructionAccounts before = .ok ic') :
    ∃ ctx rest programId preAccounts sum,
      ic.transactionContext.instructionContextStack = ctx :: rest ∧
      ctx.programKey ic.transactionContext = .ok programId ∧
      verifyAndUpdateEach config ic.transactionContext ctx programId before
        (visitEachAccountOnce instructionAccounts) ic.preAccounts = .ok (preAccounts, sum, sum) ∧
      ic' = { ic with preAccounts } := by
  unfold verifyAndUpdate at h
  obtain ⟨ctx, hctx, h⟩ := bind_eq_ok.mp h
  obtain ⟨rest, hrest⟩ := TransactionContext.getCurrentInstructionContext_eq_ok.mp hctx
  obtain ⟨programId, hprogramId, h⟩ := bind_eq_ok.mp h
  obtain ⟨ctx', rest', hrest', hkey⟩ := getProgramKey_eq_ok (mapError_eq_ok hprogramId)
  rw [hrest] at hrest'
  obtain ⟨rfl, rfl⟩ := List.cons.inj hrest'
  obtain ⟨⟨preAccounts, preSum, postSum⟩, heach, h⟩ := bind_eq_ok.mp h
  dsimp only at h
  split at h
  · cases h
  case isFalse hsum =>
    rw [not_not] at hsum
    subst hsum
    cases h
    exact ⟨ctx, rest, programId, preAccounts, preSum, hrest, hkey, heach, rfl⟩

theorem verify_eq_ok {instructionAccounts : List InstructionAccount} {programIndices : List ℕ}
    (h : ic.verify config instructionAccounts programIndices = .ok ()) :
    ∃ ctx rest programId sum, ic.transactionContext.instructionContextStack = ctx :: rest ∧
      ctx.programKey ic.transactionContext = .ok programId ∧
      verifyEach config ic.transactionContext programId
        ((visitEachAccountOnce instructionAccounts).zip ic.preAccounts) = .ok (sum, sum) := by
  unfold verify at h
  obtain ⟨programId, hprogramId, h⟩ := bind_eq_ok.mp h
  obtain ⟨ctx, rest, hrest, hkey⟩ := getProgramKey_eq_ok (mapError_eq_ok hprogramId)
  obtain ⟨_, -, h⟩ := bind_eq_ok.mp h
  obtain ⟨⟨preSum, postSum⟩, heach, h⟩ := bind_eq_ok.mp h
  dsimp only at h
  split at h
  · simp at h
  case isFalse hsum =>
    rw [not_not] at hsum
    subst hsum
    exact ⟨ctx, rest, programId, preSum, hrest, hkey, heach⟩

theorem takePreAccount_eq_ok {tc : TransactionContext} {instructionAccount : InstructionAccount}
    {entry : Pubkey × Account} (h : takePreAccount tc instructionAccount = .ok entry) :
    tc.accountKeys[instructionAccount.indexInTransaction]? = some entry.1 ∧
      tc.accounts[instructionAccount.indexInTransaction]? = some entry.2 := by
  unfold takePreAccount at h
  split at h
  case isFalse => cases h
  obtain ⟨account, haccount, h⟩ := bind_eq_ok.mp h
  obtain ⟨key, hkey, h⟩ := bind_eq_ok.mp h
  cases h
  exact ⟨TransactionContext.getKeyOfAccountAtIndex_eq_ok.mp hkey,
    TransactionContext.getAccountAtIndex_eq_ok.mp haccount⟩

/-- `push` puts the new instruction on the stack; a top-level one takes its pre-accounts,
an inner one keeps those of the running top-level instruction. -/
theorem push_eq_ok {instructionAccounts : List InstructionAccount} {programIndices : List ℕ}
    (h : ic.push config instructionAccounts programIndices = .ok ic') :
    (∃ programIndex, programIndices.getLast? = some programIndex) ∧
      ic'.transactionContext = { ic.transactionContext with
        instructionContextStack :=
          ⟨programIndices, instructionAccounts⟩ :: ic.transactionContext.instructionContextStack } ∧
      (ic.transactionContext.instructionContextStack = [] →
        (visitEachAccountOnce instructionAccounts).mapM (takePreAccount ic.transactionContext) =
          .ok ic'.preAccounts) ∧
      (ic.transactionContext.instructionContextStack ≠ [] → ic'.preAccounts = ic.preAccounts) := by
  unfold push at h
  dsimp only at h
  split at h
  · simp at h
  split at h
  case h_2 => simp at h
  case h_1 programIndex hlast =>
    obtain ⟨programId, -, h⟩ := bind_eq_ok.mp h
    split at h
    case h_1 hnil =>
      obtain ⟨preAccounts, hpre, h⟩ := bind_eq_ok.mp h
      simp only [pure_bind] at h
      obtain ⟨_, -, h⟩ := bind_eq_ok.mp h
      obtain ⟨_, -, h⟩ := bind_eq_ok.mp h
      split at h
      · cases h
      cases h
      exact ⟨⟨programIndex, hlast⟩, rfl, fun _ => hpre, fun hne => absurd hnil hne⟩
    case h_2 current rest hstack =>
      split at h
      · simp at h
      simp only [pure_bind] at h
      obtain ⟨_, -, h⟩ := bind_eq_ok.mp h
      obtain ⟨_, -, h⟩ := bind_eq_ok.mp h
      split at h
      · cases h
      cases h
      exact ⟨⟨programIndex, hlast⟩, rfl, fun hnil => by simp [hnil] at hstack, fun _ => rfl⟩

theorem pop_eq_ok (h : ic.pop = .ok ic') :
    ∃ ctx rest, ic.transactionContext.instructionContextStack = ctx :: rest ∧
      ic' = { ic with transactionContext := { ic.transactionContext with
        instructionContextStack := rest } } := by
  unfold pop at h
  split at h
  case h_1 => cases h
  case h_2 ctx rest hstack =>
    cases h
    exact ⟨ctx, rest, hstack, rfl⟩

/-- A top-level instruction: push, run, check against the pre-accounts, pop. -/
theorem processInstruction_top_eq_ok {instructionAccounts : List InstructionAccount}
    {programIndices : List ℕ} {body : InvokeContext → Except InstructionError InvokeContext}
    (htop : ic.transactionContext.instructionContextStack = [])
    (h : ic.processInstruction config instructionAccounts programIndices body = .ok ic') :
    ∃ ic₁ ic₂, ic.push config instructionAccounts programIndices = .ok ic₁ ∧ body ic₁ = .ok ic₂ ∧
      ic₂.verify config instructionAccounts programIndices = .ok () ∧ ic₂.pop = .ok ic' := by
  unfold processInstruction at h
  simp only [htop, List.isEmpty_nil, if_true] at h
  obtain ⟨ic₀, hic₀, h⟩ := bind_eq_ok.mp h
  cases hic₀
  obtain ⟨ic₁, hpush, h⟩ := bind_eq_ok.mp h
  obtain ⟨ic₂, hbody, h⟩ := bind_eq_ok.mp h
  obtain ⟨_, hverify, h⟩ := bind_eq_ok.mp h
  rw [pure_bind] at h
  exact ⟨ic₁, ic₂, hpush, hbody, hverify, h⟩

/-- An inner instruction: the caller's changes are checked first and the callee's after. -/
theorem processInstruction_inner_eq_ok {instructionAccounts : List InstructionAccount}
    {programIndices : List ℕ} {body : InvokeContext → Except InstructionError InvokeContext}
    (hinner : ic.transactionContext.instructionContextStack ≠ [])
    (h : ic.processInstruction config instructionAccounts programIndices body = .ok ic') :
    ∃ ic₀ ic₁ ic₂ ic₃, ic.verifyAndUpdate config instructionAccounts true = .ok ic₀ ∧
      ic₀.push config instructionAccounts programIndices = .ok ic₁ ∧ body ic₁ = .ok ic₂ ∧
      ic₂.verifyAndUpdate config instructionAccounts false = .ok ic₃ ∧ ic₃.pop = .ok ic' := by
  unfold processInstruction at h
  have hempty : ic.transactionContext.instructionContextStack.isEmpty = false :=
    List.isEmpty_eq_false_iff.mpr hinner
  simp only [hempty, Bool.false_eq_true, if_false] at h
  obtain ⟨ic₀, hic₀, h⟩ := bind_eq_ok.mp h
  obtain ⟨ic₁, hpush, h⟩ := bind_eq_ok.mp h
  obtain ⟨ic₂, hbody, h⟩ := bind_eq_ok.mp h
  obtain ⟨ic₃, hic₃, h⟩ := bind_eq_ok.mp h
  exact ⟨ic₀, ic₁, ic₂, ic₃, hic₀, hpush, hbody, hic₃, h⟩

/-- A write goes to an account of the running instruction. -/
theorem writeAccount_eq_ok {index : ℕ} {account : Account}
    (h : ic.writeAccount index account = .ok ic') :
    ∃ ctx rest instructionAccount, ic.transactionContext.instructionContextStack = ctx :: rest ∧
      ctx.instructionAccounts[index]? = some instructionAccount ∧
      ic' = { ic with transactionContext :=
        ic.transactionContext.setAccount instructionAccount.indexInTransaction account } := by
  unfold writeAccount at h
  obtain ⟨ctx, hctx, h⟩ := bind_eq_ok.mp h
  obtain ⟨rest, hrest⟩ := TransactionContext.getCurrentInstructionContext_eq_ok.mp hctx
  obtain ⟨⟨indexInTransaction, borrowed⟩, hborrow, h⟩ := bind_eq_ok.mp h
  cases h
  obtain ⟨hindex, -⟩ := InstructionContext.tryBorrowAccount_eq_ok.mp hborrow
  obtain ⟨instructionAccount, hinstructionAccount, rfl⟩ :=
    (InstructionContext.getIndexInTransaction_of_le (by omega)).mp hindex
  rw [Nat.add_sub_cancel_left] at hinstructionAccount
  exact ⟨ctx, rest, instructionAccount, hrest, hinstructionAccount, rfl⟩

end InvokeContext

/-! ## Preparing an inner instruction -/

/-- An account of a callee names, by its index in the caller, an account of the caller with
the same index in the transaction. -/
def InstructionContext.CallerAgrees (ctx : InstructionContext)
    (instructionAccount : InstructionAccount) : Prop :=
  ctx.programAccounts.length ≤ instructionAccount.indexInCaller ∧
    ∃ account, ctx.instructionAccounts[instructionAccount.indexInCaller -
      ctx.programAccounts.length]? = some account ∧
      account.indexInTransaction = instructionAccount.indexInTransaction

section Prepare

variable {tc : TransactionContext} {ctx : InstructionContext}

theorem index_eq_of_key_eq (hkeys : tc.accountKeys.Nodup) {i j : ℕ} {key : Pubkey}
    (hi : tc.accountKeys[i]? = some key) (hj : tc.accountKeys[j]? = some key) : i = j :=
  (List.getElem?_inj (List.getElem?_eq_some_iff.mp hi).1 hkeys).mp (hi.trans hj.symm)

private theorem exists_of_mem_modify {α : Type} {l : List α} {n : ℕ} {f : α → α} {a : α}
    (h : a ∈ l.modify n f) : ∃ b ∈ l, a = b ∨ a = f b := by
  obtain ⟨i, hi⟩ := List.mem_iff_getElem?.mp h
  rw [List.getElem?_modify] at hi
  obtain ⟨b, hb, hab⟩ := Option.map_eq_some_iff.mp hi
  refine ⟨b, List.mem_of_getElem? hb, ?_⟩
  split at hab
  · exact Or.inr hab.symm
  · exact Or.inl hab.symm

/-- Every account the loop adds names its caller's account of the same key. -/
theorem deduplicateLoop_callerAgrees (hkeys : tc.accountKeys.Nodup) :
    ∀ {accountMetas : List AccountMeta} {deduplicated deduplicated' : List InstructionAccount}
      {duplicateIndices duplicateIndices' : List ℕ},
      deduplicateLoop tc ctx accountMetas deduplicated duplicateIndices =
        .ok (deduplicated', duplicateIndices') →
      (∀ instructionAccount ∈ deduplicated, ctx.CallerAgrees instructionAccount) →
      ∀ instructionAccount ∈ deduplicated', ctx.CallerAgrees instructionAccount := by
  intro accountMetas
  induction accountMetas with
  | nil =>
    intro deduplicated deduplicated' _ _ h hagree
    obtain ⟨rfl, -⟩ := Prod.mk.inj (Except.ok.inj h)
    exact hagree
  | cons accountMeta rest ih =>
    intro deduplicated deduplicated' _ _ h hagree
    unfold deduplicateLoop at h
    dsimp only at h
    split at h
    case h_2 => simp at h
    case h_1 index hindex =>
    rw [pure_bind] at h
    have hkey := TransactionContext.findIndexOfAccount_key hindex
    split at h
    case h_1 =>
      refine ih h fun instructionAccount hmem => ?_
      obtain ⟨other, hother, heq | heq⟩ := exists_of_mem_modify hmem
      · rw [heq]
        exact hagree other hother
      · rw [heq]
        exact hagree other hother
    case h_2 =>
      split at h
      case h_2 => simp at h
      case h_1 n hn =>
      rw [pure_bind] at h
      refine ih h fun instructionAccount hmem => ?_
      rcases List.mem_append.mp hmem with hmem | hmem
      · exact hagree instructionAccount hmem
      · rw [List.mem_singleton] at hmem
        subst hmem
        obtain ⟨hle, account, haccount, hkey'⟩ := InstructionContext.findIndexOfAccount_account hn
        exact ⟨hle, account, haccount, index_eq_of_key_eq hkeys hkey' hkey⟩

theorem checkPrivileges_writable {signers : List Pubkey} {instructionAccount : InstructionAccount}
    (h : checkPrivileges tc ctx signers instructionAccount = .ok ())
    (hwritable : instructionAccount.isWritable = true) :
    ctx.isWritable instructionAccount.indexInCaller = true := by
  unfold checkPrivileges at h
  obtain ⟨_, -, h⟩ := bind_eq_ok.mp h
  obtain ⟨_, -, h⟩ := bind_eq_ok.mp h
  dsimp only at h
  split at h
  · simp at h
  case isFalse hescalation =>
    simpa [hwritable] using hescalation

end Prepare

namespace InvokeContext

variable {config : InvokeConfig} {ic ic' : InvokeContext}

/-- The callee's accounts are the caller's, with no privilege the caller lacks, and its
program is the one the instruction names. -/
theorem prepareInstruction_eq_ok (hkeys : ic.transactionContext.accountKeys.Nodup)
    {instruction : Instruction} {signers : List Pubkey}
    {instructionAccounts : List InstructionAccount} {programIndices : List ℕ}
    (h : ic.prepareInstruction instruction signers = .ok (instructionAccounts, programIndices)) :
    ∃ ctx rest programIndex, ic.transactionContext.instructionContextStack = ctx :: rest ∧
      programIndices = [programIndex] ∧
      ic.transactionContext.accountKeys[programIndex]? = some instruction.programId ∧
      ∀ instructionAccount ∈ instructionAccounts, ctx.CallerAgrees instructionAccount ∧
        (instructionAccount.isWritable = true →
          ctx.isWritable instructionAccount.indexInCaller = true) := by
  unfold prepareInstruction at h
  dsimp only at h
  obtain ⟨ctx, hctx, h⟩ := bind_eq_ok.mp h
  obtain ⟨rest, hrest⟩ := TransactionContext.getCurrentInstructionContext_eq_ok.mp hctx
  obtain ⟨⟨deduplicated, duplicateIndices⟩, hdeduplicated, h⟩ := bind_eq_ok.mp h
  obtain ⟨_, hprivileges, h⟩ := bind_eq_ok.mp h
  split at h
  case h_2 => simp at h
  case h_1 n hn =>
  rw [pure_bind] at h
  obtain ⟨⟨programIndex, programAccount⟩, hborrow, h⟩ := bind_eq_ok.mp h
  split at h
  · cases h
  cases h
  refine ⟨ctx, rest, programIndex, hrest, rfl, ?_, ?_⟩
  · obtain ⟨hle, account, haccount, hkey⟩ := InstructionContext.findIndexOfAccount_account hn
    obtain ⟨hindex, -⟩ := InstructionContext.tryBorrowAccount_eq_ok.mp hborrow
    obtain ⟨account', haccount', rfl⟩ :=
      (InstructionContext.getIndexInTransaction_of_le hle).mp hindex
    rw [haccount] at haccount'
    cases haccount'
    exact hkey
  · intro instructionAccount hmem
    obtain ⟨i, -, hi⟩ := List.mem_filterMap.mp hmem
    have hmem' := List.mem_of_getElem? hi
    refine ⟨deduplicateLoop_callerAgrees hkeys hdeduplicated (by simp) instructionAccount hmem', ?_⟩
    obtain ⟨_, hcheck⟩ := Except.mapM_eq_ok_of_mem hprivileges instructionAccount hmem'
    exact checkPrivileges_writable hcheck

theorem nativeInvoke_eq_ok {instruction : Instruction} {signers : List Pubkey}
    {body : InvokeContext → Except InstructionError InvokeContext}
    (h : ic.nativeInvoke config instruction signers body = .ok ic') :
    ∃ instructionAccounts programIndices,
      ic.prepareInstruction instruction signers = .ok (instructionAccounts, programIndices) ∧
      ic.processInstruction config instructionAccounts programIndices body = .ok ic' := by
  unfold nativeInvoke at h
  obtain ⟨⟨instructionAccounts, programIndices⟩, hprepare, h⟩ := bind_eq_ok.mp h
  obtain ⟨_, -, h⟩ := bind_eq_ok.mp h
  obtain ⟨ic₁, hprocess, h⟩ := bind_eq_ok.mp h
  obtain ⟨_, -, h⟩ := bind_eq_ok.mp h
  obtain rfl : ic₁ = ic' := Except.ok.inj h
  exact ⟨instructionAccounts, programIndices, hprepare, hprocess⟩

end InvokeContext

/-- Storing the instruction index changes at most the data of the instructions sysvar. -/
theorem storeInstructionIndex_eq_ok {ic ic' : InvokeContext} {instructionIndex : ℕ}
    (h : storeInstructionIndex ic instructionIndex = some (.ok ic')) :
    ic' = ic ∨ ∃ accountIndex account data,
      ic.transactionContext.findIndexOfAccount instructionsSysvarId = some accountIndex ∧
      ic.transactionContext.accounts[accountIndex]? = some account ∧
      ic' = { ic with transactionContext :=
        ic.transactionContext.setAccount accountIndex { account with data } } := by
  unfold storeInstructionIndex at h
  dsimp only at h
  split at h
  · cases h
    exact Or.inl rfl
  case h_2 accountIndex haccountIndex =>
    split at h
    · cases h
    case h_2 account haccount =>
      obtain ⟨data, -, hdata⟩ := Option.map_eq_some_iff.mp h
      cases hdata
      exact Or.inr ⟨accountIndex, account, data, haccountIndex, haccount, rfl⟩

end Solana.Runtime
