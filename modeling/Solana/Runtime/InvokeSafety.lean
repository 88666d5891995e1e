import Solana.Runtime.InvokeSpec
import Solana.Lib.IndexSum

/-! A message that succeeds keeps the lamports of its accounts, leaves read-only and executable
accounts as they were and credits only accounts its programs do not own, the instructions
sysvar apart (`processMessage_rewrites_instructions_sysvar`). -/

namespace Solana.Runtime

open IndexSum

/-- The pre-accounts of a top-level instruction that visits the accounts at the indices
`visited`: each under its key, with the copy `pre` holds of it. -/
def preAccountsOf (keys : List Pubkey) (visited : List ℕ) (pre : ℕ → Account) :
    List (Pubkey × Account) :=
  visited.map fun index => (keys.getD index 0, pre index)

/-! ## Pre-accounts by key -/

section PreAccounts

variable {keys : List Pubkey} {visited : List ℕ}

theorem getD_eq_of_getElem? {index : ℕ} {key : Pubkey} (h : keys[index]? = some key) :
    keys.getD index 0 = key := by
  simp [List.getD_eq_getElem?_getD, h]

/-- With distinct keys, the key of a visited account names that account only. -/
theorem getD_eq_iff (hkeys : keys.Nodup) (hvalid : ∀ j ∈ visited, j < keys.length)
    {index j : ℕ} {key : Pubkey} (hindex : keys[index]? = some key) (hj : j ∈ visited) :
    keys.getD j 0 = key ↔ j = index := by
  have hj' : keys[j]? = some (keys.getD j 0) := by
    simp [List.getD_eq_getElem?_getD, List.getElem?_eq_getElem (hvalid j hj)]
  constructor
  · intro hkey
    rw [hkey] at hj'
    exact (List.getElem?_inj (hvalid j hj) hkeys).mp (hj'.trans hindex.symm)
  · rintro rfl
    exact getD_eq_of_getElem? hindex

theorem get_preAccountsOf (hkeys : keys.Nodup) (hvalid : ∀ j ∈ visited, j < keys.length)
    {pre : ℕ → Account} {index : ℕ} {key : Pubkey} {account : Account}
    (hindex : keys[index]? = some key) (h : Map.get (preAccountsOf keys visited pre) key = some account) :
    index ∈ visited ∧ account = pre index := by
  induction visited with
  | nil => simp [preAccountsOf] at h
  | cons j visited ih =>
    have hvalid' : ∀ j ∈ visited, j < keys.length := fun j' hj' => hvalid j' (List.mem_cons_of_mem j hj')
    simp only [preAccountsOf, List.map_cons, Map.get_cons] at h
    split at h
    case isTrue hkey =>
      obtain rfl := (getD_eq_iff hkeys hvalid hindex List.mem_cons_self).mp hkey
      exact ⟨List.mem_cons_self, (Option.some.inj h).symm⟩
    case isFalse =>
      obtain ⟨hmem, rfl⟩ := ih hvalid' h
      exact ⟨List.mem_cons_of_mem j hmem, rfl⟩

theorem get_preAccountsOf_of_mem (hkeys : keys.Nodup) (hvalid : ∀ j ∈ visited, j < keys.length)
    (pre : ℕ → Account) {index : ℕ} {key : Pubkey} (hindex : keys[index]? = some key)
    (hmem : index ∈ visited) : Map.get (preAccountsOf keys visited pre) key = some (pre index) := by
  induction visited with
  | nil => simp at hmem
  | cons j visited ih =>
    have hvalid' : ∀ j ∈ visited, j < keys.length := fun j' hj' => hvalid j' (List.mem_cons_of_mem j hj')
    simp only [preAccountsOf, List.map_cons, Map.get_cons]
    split
    case isTrue hkey =>
      obtain rfl := (getD_eq_iff hkeys hvalid hindex List.mem_cons_self).mp hkey
      rfl
    case isFalse hkey =>
      have hne : index ≠ j := fun heq => hkey (by rw [heq] at hindex; exact getD_eq_of_getElem? hindex)
      exact ih hvalid' ((List.mem_cons.mp hmem).resolve_left hne)

/-- Moving the copy of a visited account on is an update of `pre` at its index. -/
theorem insert_preAccountsOf (hkeys : keys.Nodup) (hvalid : ∀ j ∈ visited, j < keys.length)
    (pre : ℕ → Account) {index : ℕ} {key : Pubkey} (hindex : keys[index]? = some key)
    (hmem : index ∈ visited) (account : Account) :
    Map.insert (preAccountsOf keys visited pre) key account =
      preAccountsOf keys visited (Function.update pre index account) := by
  have hget := get_preAccountsOf_of_mem hkeys hvalid pre hindex hmem
  unfold Map.insert
  rw [if_pos (by simp [hget]), preAccountsOf, preAccountsOf, List.map_map]
  apply List.map_congr_left
  intro j hj
  simp only [Function.comp_apply]
  by_cases hji : j = index
  · subst hji
    rw [if_pos (getD_eq_of_getElem? hindex), Function.update_self, getD_eq_of_getElem? hindex]
  · rw [if_neg (fun hkey => hji ((getD_eq_iff hkeys hvalid hindex hj).mp hkey)),
      Function.update_of_ne hji]

@[simp] theorem preAccountsOf_cons (pre : ℕ → Account) (j : ℕ) :
    preAccountsOf keys (j :: visited) pre = (keys.getD j 0, pre j) :: preAccountsOf keys visited pre :=
  rfl

theorem lamports_preAccountsOf (pre : ℕ → Account) :
    ((preAccountsOf keys visited pre).map (·.2.lamports)).sum =
      (visited.map fun j => (pre j).lamports).sum := by
  simp [preAccountsOf, Function.comp_def]

end PreAccounts

/-! ## The invariant of a running instruction -/

/-- A running instruction, inside a top-level instruction that visits `visited`: its accounts
are among those, with no write privilege the message does not give, and its program is one
of `programs`. -/
structure FrameInvariant (programs : List Pubkey) (writable : ℕ → Bool) (keys : List Pubkey)
    (visited : List ℕ) (ctx : InstructionContext) : Prop where
  accounts : ∀ instructionAccount ∈ ctx.instructionAccounts,
    instructionAccount.indexInTransaction ∈ visited ∧
      (instructionAccount.isWritable = true → writable instructionAccount.indexInTransaction = true)
  program : ∃ last, ctx.programAccounts.getLast? = some last ∧
    ∀ key, keys[last]? = some key → key ∈ programs

/-- A top-level instruction that started from the accounts `initial` and visits the accounts
at `visited` runs, and `pre` are the copies of its accounts. -/
structure InstructionInvariant (programs : List Pubkey) (writable : ℕ → Bool) (keys : List Pubkey)
    (initial : List Account) (visited : List ℕ) (pre : ℕ → Account) (ic : InvokeContext) :
    Prop where
  accountKeys : ic.transactionContext.accountKeys = keys
  length : ic.transactionContext.accounts.length = initial.length
  outside : ∀ j, j ∉ visited → ic.transactionContext.accounts[j]? = initial[j]?
  preAccounts : ic.preAccounts = preAccountsOf keys visited pre
  tracks : ∀ j ∈ visited, ∀ account, initial[j]? = some account →
    Tracks programs (writable j) account (pre j)
  lamports : (visited.map fun j => (pre j).lamports).sum = sumAt Account.lamports initial visited
  frames : ∀ ctx ∈ ic.transactionContext.instructionContextStack,
    FrameInvariant programs writable keys visited ctx

section Invariant

variable {programs : List Pubkey} {writable : ℕ → Bool} {keys : List Pubkey}
  {initial : List Account} {visited : List ℕ} {pre : ℕ → Account}

/-- The program of a running instruction is one of `programs`. -/
theorem FrameInvariant.programKey_mem {ctx : InstructionContext} {tc : TransactionContext}
    {programId : Pubkey} (hframe : FrameInvariant programs writable keys visited ctx)
    (hkeys : tc.accountKeys = keys) (h : ctx.programKey tc = .ok programId) :
    programId ∈ programs := by
  obtain ⟨last, hlast, hprograms⟩ := hframe.program
  exact hprograms programId (hkeys ▸ InstructionContext.programKey_eq_ok hlast h)

/-- An account a callee got from a running caller is one of the caller's. -/
theorem FrameInvariant.callee {ctx : InstructionContext}
    (hframe : FrameInvariant programs writable keys visited ctx)
    {instructionAccount : InstructionAccount} (hagree : ctx.CallerAgrees instructionAccount) :
    instructionAccount.indexInTransaction ∈ visited ∧
      (ctx.isWritable instructionAccount.indexInCaller = true →
        writable instructionAccount.indexInTransaction = true) := by
  obtain ⟨hle, account, haccount, hindex⟩ := hagree
  obtain ⟨hvisited, hwritable⟩ := hframe.accounts account (List.mem_of_getElem? haccount)
  rw [InstructionContext.isWritable_of_le hle haccount, ← hindex]
  exact ⟨hvisited, hwritable⟩

/-- The invariant reads the accounts, the stack and the pre-accounts only. -/
theorem InstructionInvariant.congr {ic ic' : InvokeContext}
    (hinv : InstructionInvariant programs writable keys initial visited pre ic)
    (haccountKeys : ic'.transactionContext.accountKeys = ic.transactionContext.accountKeys)
    (haccounts : ic'.transactionContext.accounts = ic.transactionContext.accounts)
    (hpre : ic'.preAccounts = ic.preAccounts)
    (hframes : ∀ ctx ∈ ic'.transactionContext.instructionContextStack,
      FrameInvariant programs writable keys visited ctx) :
    InstructionInvariant programs writable keys initial visited pre ic' where
  accountKeys := haccountKeys.trans hinv.accountKeys
  length := haccounts ▸ hinv.length
  outside := haccounts ▸ hinv.outside
  preAccounts := hpre.trans hinv.preAccounts
  tracks := hinv.tracks
  lamports := hinv.lamports
  frames := hframes

/-- A write goes to an account of the running instruction, so to a visited one. -/
theorem writeAccount_invariant {ic ic' : InvokeContext} {index : ℕ} {account : Account}
    (hinv : InstructionInvariant programs writable keys initial visited pre ic)
    (h : ic.writeAccount index account = .ok ic') :
    InstructionInvariant programs writable keys initial visited pre ic' ∧
      ic'.transactionContext.instructionContextStack =
        ic.transactionContext.instructionContextStack := by
  obtain ⟨ctx, rest, instructionAccount, hstack, haccount, rfl⟩ :=
    InvokeContext.writeAccount_eq_ok h
  have hvisited : instructionAccount.indexInTransaction ∈ visited :=
    ((hinv.frames ctx (hstack ▸ List.mem_cons_self)).accounts instructionAccount
      (List.mem_of_getElem? haccount)).1
  refine ⟨⟨hinv.accountKeys, ?_, ?_, hinv.preAccounts, hinv.tracks, hinv.lamports, hinv.frames⟩, rfl⟩
  · simp [hinv.length]
  · intro j hj
    have hne : instructionAccount.indexInTransaction ≠ j := fun heq => hj (heq ▸ hvisited)
    simp only [TransactionContext.setAccount_accounts]
    rw [List.getElem?_set_ne hne]
    exact hinv.outside j hj

end Invariant

/-! ## The checks keep the invariant -/

section Checks

variable {config : InvokeConfig} {programs : List Pubkey} {writable : ℕ → Bool}
  {keys : List Pubkey} {initial : List Account} {visited : List ℕ}

/-- The loop of `verify_and_update` moves the copies on: each stays tracked, and the copies
gain what the checked accounts hold beyond the copies they replace. -/
theorem verifyAndUpdateEach_tracks (hkeys : keys.Nodup) (hvalid : ∀ j ∈ visited, j < keys.length)
    (hvisited : visited.Nodup) {tc : TransactionContext} {ctx : InstructionContext}
    {programId : Pubkey} {before : Bool} (htc : tc.accountKeys = keys)
    (hprogram : programId ∈ programs) :
    ∀ {checked : List InstructionAccount} {pre : ℕ → Account}
      {preAccounts' : List (Pubkey × Account)} {preSum postSum : ℕ},
      (∀ instructionAccount ∈ checked,
        (if before then ctx.isWritable instructionAccount.indexInCaller
          else instructionAccount.isWritable) = true →
        writable instructionAccount.indexInTransaction = true) →
      (∀ j ∈ visited, ∀ account, initial[j]? = some account →
        Tracks programs (writable j) account (pre j)) →
      verifyAndUpdateEach config tc ctx programId before checked (preAccountsOf keys visited pre) =
        .ok (preAccounts', preSum, postSum) →
      ∃ pre', preAccounts' = preAccountsOf keys visited pre' ∧
        (∀ j ∈ visited, ∀ account, initial[j]? = some account →
          Tracks programs (writable j) account (pre' j)) ∧
        (visited.map fun j => (pre' j).lamports).sum + preSum =
          (visited.map fun j => (pre j).lamports).sum + postSum := by
  intro checked
  induction checked with
  | nil =>
    intro pre preAccounts' preSum postSum _ htracks h
    unfold verifyAndUpdateEach at h
    cases h
    exact ⟨pre, rfl, htracks, rfl⟩
  | cons instructionAccount checked ih =>
    intro pre preAccounts' preSum postSum hwritable htracks h
    obtain ⟨key, account, copy, restPre, restPost, hkey, -, hget, hchange, hrest, rfl, rfl⟩ :=
      verifyAndUpdateEach_cons_eq_ok h
    rw [htc] at hkey
    obtain ⟨hmem, rfl⟩ := get_preAccountsOf hkeys hvalid hkey hget
    have hrestWritable : ∀ other ∈ checked, _ :=
      fun other hother => hwritable other (List.mem_cons_of_mem _ hother)
    have hwritable' := hwritable instructionAccount List.mem_cons_self
    generalize (if before then ctx.isWritable instructionAccount.indexInCaller
      else instructionAccount.isWritable) = isWritable at hchange hrest hwritable'
    by_cases hupdate : isWritable = true ∧ (!(pre instructionAccount.indexInTransaction).executable) = true
    · rw [if_pos hupdate, insert_preAccountsOf hkeys hvalid pre hkey hmem] at hrest
      have htracks' : ∀ j ∈ visited, ∀ initialAccount, initial[j]? = some initialAccount →
          Tracks programs (writable j) initialAccount
            (Function.update pre instructionAccount.indexInTransaction account j) := by
        intro j hj initialAccount hinitial
        by_cases hji : j = instructionAccount.indexInTransaction
        · subst hji
          rw [Function.update_self]
          exact (htracks _ hj initialAccount hinitial).of_allowedChange hchange hprogram hwritable'
        · rw [Function.update_of_ne hji]
          exact htracks j hj initialAccount hinitial
      obtain ⟨pre', hpre', htracks'', hsum⟩ := ih hrestWritable htracks' hrest
      have hupdate := sum_map_update_add Account.lamports hvisited hmem pre account
      exact ⟨pre', hpre', htracks'', by omega⟩
    · rw [if_neg hupdate] at hrest
      have hsame := hchange.eq_of_frozen (by
        rw [not_and] at hupdate
        cases isWritable
        · exact Or.inl rfl
        · exact Or.inr (by simpa using hupdate rfl))
      obtain ⟨pre', hpre', htracks'', hsum⟩ := ih hrestWritable htracks hrest
      rw [hsame]
      exact ⟨pre', hpre', htracks'', by omega⟩

/-- A `verify_and_update` of a running instruction keeps the invariant, when the accounts it
checks are visited ones with no write privilege the message does not give. -/
theorem verifyAndUpdate_invariant (hkeys : keys.Nodup) (hvalid : ∀ j ∈ visited, j < keys.length)
    (hvisited : visited.Nodup) {ic ic' : InvokeContext} {pre : ℕ → Account}
    {instructionAccounts : List InstructionAccount} {before : Bool}
    (hinv : InstructionInvariant programs writable keys initial visited pre ic)
    (hwritable : ∀ ctx rest, ic.transactionContext.instructionContextStack = ctx :: rest →
      ∀ instructionAccount ∈ instructionAccounts,
        (if before then ctx.isWritable instructionAccount.indexInCaller
          else instructionAccount.isWritable) = true →
        writable instructionAccount.indexInTransaction = true)
    (h : ic.verifyAndUpdate config instructionAccounts before = .ok ic') :
    ∃ pre', InstructionInvariant programs writable keys initial visited pre' ic' ∧
      ic'.transactionContext = ic.transactionContext := by
  obtain ⟨ctx, rest, programId, preAccounts, sum, hstack, hkey, heach, rfl⟩ :=
    InvokeContext.verifyAndUpdate_eq_ok h
  have hprogram := (hinv.frames ctx (hstack ▸ List.mem_cons_self)).programKey_mem
    hinv.accountKeys hkey
  rw [hinv.preAccounts] at heach
  obtain ⟨pre', hpre', htracks, hsum⟩ := verifyAndUpdateEach_tracks hkeys hvalid hvisited
    hinv.accountKeys hprogram
    (fun instructionAccount hmem => hwritable ctx rest hstack instructionAccount
      (mem_of_mem_visitEachAccountOnce hmem)) hinv.tracks heach
  have hlamports := hinv.lamports
  exact ⟨pre', ⟨hinv.accountKeys, hinv.length, hinv.outside, hpre', htracks, by omega,
    hinv.frames⟩, rfl⟩

/-- The loop of `verify` over the visited accounts and their copies, in the same order. -/
theorem verifyEach_preAccountsOf {tc : TransactionContext} {programId : Pubkey}
    {pre : ℕ → Account} :
    ∀ {checked : List InstructionAccount} {preSum postSum : ℕ},
      verifyEach config tc programId
          (checked.zip (preAccountsOf keys (checked.map (·.indexInTransaction)) pre)) =
        .ok (preSum, postSum) →
      (∀ instructionAccount ∈ checked, ∃ account,
        tc.accounts[instructionAccount.indexInTransaction]? = some account ∧
        AllowedChange programId instructionAccount.isWritable
          (pre instructionAccount.indexInTransaction) account) ∧
      preSum = (checked.map fun instructionAccount =>
        (pre instructionAccount.indexInTransaction).lamports).sum ∧
      postSum = sumAt Account.lamports tc.accounts (checked.map (·.indexInTransaction)) := by
  intro checked
  induction checked with
  | nil =>
    intro preSum postSum h
    unfold verifyEach at h
    cases h
    simp
  | cons instructionAccount checked ih =>
    intro preSum postSum h
    rw [List.map_cons, preAccountsOf_cons, List.zip_cons_cons] at h
    obtain ⟨account, restPre, restPost, haccount, hchange, hrest, rfl, rfl⟩ :=
      verifyEach_cons_eq_ok h
    obtain ⟨hchanges, hpreSum, hpostSum⟩ := ih hrest
    refine ⟨?_, by simp [hpreSum], by simp [sumAt_cons, haccount, hpostSum]⟩
    intro other hother
    rcases List.mem_cons.mp hother with rfl | hother
    · exact ⟨account, haccount, hchange⟩
    · exact hchanges other hother

/-- At the end of a top-level instruction, `verify` carries the invariant over to the
accounts: each is tracked from where the instruction started, and the lamports add up as
they did. -/
theorem verify_tracks {ic : InvokeContext} {pre : ℕ → Account}
    {instructionAccounts : List InstructionAccount} {programIndices : List ℕ}
    (hinv : InstructionInvariant programs writable keys initial
      ((visitEachAccountOnce instructionAccounts).map (·.indexInTransaction)) pre ic)
    (hwritable : ∀ instructionAccount ∈ instructionAccounts,
      instructionAccount.isWritable = true → writable instructionAccount.indexInTransaction = true)
    (h : ic.verify config instructionAccounts programIndices = .ok ()) :
    (∀ j account account', initial[j]? = some account →
      ic.transactionContext.accounts[j]? = some account' →
      Tracks programs (writable j) account account') ∧
    (ic.transactionContext.accounts.map (·.lamports)).sum = (initial.map (·.lamports)).sum := by
  obtain ⟨ctx, rest, programId, sum, hstack, hkey, heach⟩ := InvokeContext.verify_eq_ok h
  have hprogram := (hinv.frames ctx (hstack ▸ List.mem_cons_self)).programKey_mem
    hinv.accountKeys hkey
  rw [hinv.preAccounts] at heach
  obtain ⟨hchanges, hpreSum, hpostSum⟩ := verifyEach_preAccountsOf heach
  constructor
  · intro j account account' hinitial haccount'
    by_cases hj : j ∈ (visitEachAccountOnce instructionAccounts).map (·.indexInTransaction)
    · obtain ⟨instructionAccount, hmem, rfl⟩ := List.mem_map.mp hj
      obtain ⟨account'', haccount'', hchange⟩ := hchanges instructionAccount hmem
      rw [haccount'] at haccount''
      cases haccount''
      exact (hinv.tracks _ hj account hinitial).of_allowedChange hchange hprogram
        (hwritable instructionAccount (mem_of_mem_visitEachAccountOnce hmem))
    · rw [hinv.outside j hj, hinitial] at haccount'
      cases haccount'
      exact Tracks.refl programs (writable j) account
  · have hlamports := hinv.lamports
    rw [List.map_map] at hlamports
    apply sum_eq_of_sumAt_eq Account.lamports (visitEachAccountOnce_nodup instructionAccounts)
      hinv.length hinv.outside
    rw [← hpostSum, hpreSum, ← hlamports]
    rfl

end Checks

/-! ## A top-level instruction -/

section Instruction

variable {config : InvokeConfig} {programs : List Pubkey} {writable : ℕ → Bool}

/-- A top-level instruction starts with copies of the accounts it visits, as they are. -/
theorem push_top_invariant {ic ic' : InvokeContext} {instructionAccounts : List InstructionAccount}
    {programIndices : List ℕ} (hstack : ic.transactionContext.instructionContextStack = [])
    (hprograms : ∀ last, programIndices.getLast? = some last →
      ∀ key, ic.transactionContext.accountKeys[last]? = some key → key ∈ programs)
    (hwritable : ∀ instructionAccount ∈ instructionAccounts,
      instructionAccount.isWritable = true → writable instructionAccount.indexInTransaction = true)
    (h : ic.push config instructionAccounts programIndices = .ok ic') :
    let visited := (visitEachAccountOnce instructionAccounts).map (·.indexInTransaction)
    InstructionInvariant programs writable ic.transactionContext.accountKeys
        ic.transactionContext.accounts visited
        (fun j => ic.transactionContext.accounts.getD j Account.default) ic' ∧
      (∀ j ∈ visited, j < ic.transactionContext.accountKeys.length) ∧
      ic'.transactionContext.instructionContextStack = [⟨programIndices, instructionAccounts⟩] := by
  intro visited
  obtain ⟨⟨last, hlast⟩, htc, hpre, -⟩ := InvokeContext.push_eq_ok h
  have hmapM := hpre hstack
  have hpreAccounts := Except.mapM_eq_ok_map (g := fun instructionAccount =>
      (ic.transactionContext.accountKeys.getD instructionAccount.indexInTransaction 0,
        ic.transactionContext.accounts.getD instructionAccount.indexInTransaction Account.default))
    (fun instructionAccount _ entry hentry => by
    obtain ⟨hkey, haccount⟩ := InvokeContext.takePreAccount_eq_ok hentry
    rw [getD_eq_of_getElem? hkey, List.getD_eq_getElem?_getD, haccount]
    rfl) hmapM
  have hvalid : ∀ j ∈ visited, j < ic.transactionContext.accountKeys.length := by
    intro j hj
    obtain ⟨instructionAccount, hmem, rfl⟩ := List.mem_map.mp hj
    obtain ⟨entry, hentry⟩ := Except.mapM_eq_ok_of_mem hmapM instructionAccount hmem
    exact (List.getElem?_eq_some_iff.mp (InvokeContext.takePreAccount_eq_ok hentry).1).1
  refine ⟨⟨by rw [htc], by rw [htc], fun j _ => by rw [htc], ?_, ?_, ?_, ?_⟩, hvalid,
    by rw [htc, hstack]⟩
  · rw [hpreAccounts, preAccountsOf, List.map_map]
    rfl
  · intro j _ account haccount
    rw [List.getD_eq_getElem?_getD, haccount]
    exact Tracks.refl programs (writable j) account
  · unfold sumAt
    congr 1
    apply List.map_congr_left
    intro j _
    rw [List.getD_eq_getElem?_getD]
    cases ic.transactionContext.accounts[j]? <;> rfl
  · intro ctx hctx
    rw [htc, hstack, List.mem_singleton] at hctx
    subst hctx
    exact ⟨fun instructionAccount hmem =>
      ⟨mem_visitEachAccountOnce_index hmem, hwritable instructionAccount hmem⟩,
      ⟨last, hlast, hprograms last hlast⟩⟩

variable {keys : List Pubkey} {initial : List Account} {visited : List ℕ}

/-- An invocation from a running instruction keeps the invariant, if the callee's run does:
the callee's accounts are its caller's, with no more privilege, and both checks keep it. -/
theorem nativeInvoke_invariant (hkeys : keys.Nodup) (hvalid : ∀ j ∈ visited, j < keys.length)
    (hvisited : visited.Nodup) {body : InvokeContext → Except InstructionError InvokeContext}
    (hbody : ∀ {ic ic' : InvokeContext} {pre : ℕ → Account},
      InstructionInvariant programs writable keys initial visited pre ic →
      ic.transactionContext.instructionContextStack ≠ [] → body ic = .ok ic' →
      ∃ pre', InstructionInvariant programs writable keys initial visited pre' ic' ∧
        ic'.transactionContext.instructionContextStack =
          ic.transactionContext.instructionContextStack)
    {instruction : Instruction} {signers : List Pubkey} (hprogram : instruction.programId ∈ programs)
    {ic ic' : InvokeContext} {pre : ℕ → Account}
    (hinv : InstructionInvariant programs writable keys initial visited pre ic)
    (hne : ic.transactionContext.instructionContextStack ≠ [])
    (h : ic.nativeInvoke config instruction signers body = .ok ic') :
    ∃ pre', InstructionInvariant programs writable keys initial visited pre' ic' ∧
      ic'.transactionContext.instructionContextStack =
        ic.transactionContext.instructionContextStack := by
  obtain ⟨instructionAccounts, programIndices, hprepare, hprocess⟩ :=
    InvokeContext.nativeInvoke_eq_ok h
  obtain ⟨ctx, rest, programIndex, hstack, rfl, hkey, hcallee⟩ :=
    InvokeContext.prepareInstruction_eq_ok (hinv.accountKeys ▸ hkeys) hprepare
  have hframe := hinv.frames ctx (hstack ▸ List.mem_cons_self)
  have haccounts : ∀ instructionAccount ∈ instructionAccounts,
      instructionAccount.indexInTransaction ∈ visited ∧
        (ctx.isWritable instructionAccount.indexInCaller = true →
          writable instructionAccount.indexInTransaction = true) ∧
        (instructionAccount.isWritable = true →
          writable instructionAccount.indexInTransaction = true) := by
    intro instructionAccount hmem
    obtain ⟨hagree, hprivilege⟩ := hcallee instructionAccount hmem
    obtain ⟨hvisited', hwritable⟩ := hframe.callee hagree
    exact ⟨hvisited', hwritable, fun h => hwritable (hprivilege h)⟩
  obtain ⟨ic₀, ic₁, ic₂, ic₃, hbefore, hpush, hrun, hafter, hpop⟩ :=
    InvokeContext.processInstruction_inner_eq_ok hne hprocess
  obtain ⟨pre₀, hinv₀, htc₀⟩ := verifyAndUpdate_invariant hkeys hvalid hvisited hinv
    (fun ctx' rest' hstack' instructionAccount hmem hw => by
      rw [hstack, List.cons.injEq] at hstack'
      rw [← hstack'.1] at hw
      exact (haccounts instructionAccount hmem).2.1 hw) hbefore
  obtain ⟨-, htc₁, -, hpre₁⟩ := InvokeContext.push_eq_ok hpush
  have hframe₁ : FrameInvariant programs writable keys visited ⟨[programIndex], instructionAccounts⟩ :=
    ⟨fun instructionAccount hmem =>
      ⟨(haccounts instructionAccount hmem).1, (haccounts instructionAccount hmem).2.2⟩,
      ⟨programIndex, rfl, fun key hkey' => by
        rw [← hinv.accountKeys, hkey] at hkey'
        cases hkey'
        exact hprogram⟩⟩
  have hstack₁ : ic₁.transactionContext.instructionContextStack =
      ⟨[programIndex], instructionAccounts⟩ :: ic.transactionContext.instructionContextStack := by
    rw [htc₁, htc₀]
  have hinv₁ := hinv₀.congr (by rw [htc₁]) (by rw [htc₁]) (hpre₁ (by rw [htc₀]; exact hne))
    (fun ctx' hctx' => by
      rw [hstack₁] at hctx'
      rcases List.mem_cons.mp hctx' with rfl | hctx'
      · exact hframe₁
      · exact hinv.frames ctx' hctx')
  obtain ⟨pre₂, hinv₂, hstack₂⟩ := hbody hinv₁ (by rw [hstack₁]; exact List.cons_ne_nil _ _) hrun
  have hafter' := fun hwritable => verifyAndUpdate_invariant hkeys hvalid hvisited hinv₂ hwritable hafter
  obtain ⟨pre₃, hinv₃, htc₃⟩ := hafter' fun _ _ _ instructionAccount hmem hw =>
    (haccounts instructionAccount hmem).2.2 (by simpa using hw)
  obtain ⟨ctx₄, rest₄, hstack₄, rfl⟩ := InvokeContext.pop_eq_ok hpop
  have hrest₄ : rest₄ = ic.transactionContext.instructionContextStack := by
    rw [htc₃, hstack₂, hstack₁, List.cons.injEq] at hstack₄
    exact hstack₄.2.symm
  refine ⟨pre₃, hinv₃.congr rfl rfl rfl fun ctx' hctx' => ?_, hrest₄⟩
  exact hinv.frames ctx' (hrest₄ ▸ hctx')

/-- A program's run keeps the invariant, whatever it writes and invokes. -/
theorem runScript_invariant (hkeys : keys.Nodup) (hvalid : ∀ j ∈ visited, j < keys.length)
    (hvisited : visited.Nodup) :
    ∀ (script : Script) {ic ic' : InvokeContext} {pre : ℕ → Account},
      (∀ programId ∈ script.programIds, programId ∈ programs) →
      InstructionInvariant programs writable keys initial visited pre ic →
      ic.transactionContext.instructionContextStack ≠ [] →
      runScript config script ic = .ok ic' →
      ∃ pre', InstructionInvariant programs writable keys initial visited pre' ic' ∧
        ic'.transactionContext.instructionContextStack =
          ic.transactionContext.instructionContextStack
  | .ok, ic, ic', pre, _, hinv, _, h => by
    cases h
    exact ⟨pre, hinv, rfl⟩
  | .fail _, _, _, _, _, _, _, h => by cases h
  | .write index account rest, ic, ic', pre, hprograms, hinv, hne, h => by
    obtain ⟨ic₁, hwrite, hrest⟩ := Except.bind_eq_ok.mp h
    obtain ⟨hinv₁, hstack₁⟩ := writeAccount_invariant hinv hwrite
    obtain ⟨pre', hinv', hstack'⟩ :=
      runScript_invariant hkeys hvalid hvisited rest hprograms hinv₁ (hstack₁ ▸ hne) hrest
    exact ⟨pre', hinv', hstack'.trans hstack₁⟩
  | .invoke instruction signers callee rest, ic, ic', pre, hprograms, hinv, hne, h => by
    obtain ⟨ic₁, hinvoke, hrest⟩ := Except.bind_eq_ok.mp h
    have hprogram := hprograms instruction.programId (by simp [Script.programIds])
    have hcallee : ∀ programId ∈ callee.programIds, programId ∈ programs :=
      fun programId hmem => hprograms programId (by simp [Script.programIds, hmem])
    have hrestPrograms : ∀ programId ∈ rest.programIds, programId ∈ programs :=
      fun programId hmem => hprograms programId (by simp [Script.programIds, hmem])
    obtain ⟨pre₁, hinv₁, hstack₁⟩ := nativeInvoke_invariant hkeys hvalid hvisited
      (runScript_invariant hkeys hvalid hvisited callee hcallee) hprogram hinv hne hinvoke
    obtain ⟨pre', hinv', hstack'⟩ :=
      runScript_invariant hkeys hvalid hvisited rest hrestPrograms hinv₁ (hstack₁ ▸ hne) hrest
    exact ⟨pre', hinv', hstack'.trans hstack₁⟩

/-- A top-level instruction that succeeds leaves every account tracked from where it started,
and the lamports as they were. -/
theorem processInstruction_top_tracks {ic ic' : InvokeContext}
    (hkeys : ic.transactionContext.accountKeys.Nodup)
    (hstack : ic.transactionContext.instructionContextStack = [])
    {instructionAccounts : List InstructionAccount} {programIndices : List ℕ} {script : Script}
    (hprograms : ∀ last, programIndices.getLast? = some last →
      ∀ key, ic.transactionContext.accountKeys[last]? = some key → key ∈ programs)
    (hscript : ∀ programId ∈ script.programIds, programId ∈ programs)
    (hwritable : ∀ instructionAccount ∈ instructionAccounts,
      instructionAccount.isWritable = true → writable instructionAccount.indexInTransaction = true)
    (h : ic.processInstruction config instructionAccounts programIndices (runScript config script) =
      .ok ic') :
    ic'.transactionContext.accountKeys = ic.transactionContext.accountKeys ∧
      ic'.transactionContext.instructionContextStack = [] ∧
      ic'.transactionContext.accounts.length = ic.transactionContext.accounts.length ∧
      (∀ j account account', ic.transactionContext.accounts[j]? = some account →
        ic'.transactionContext.accounts[j]? = some account' →
        Tracks programs (writable j) account account') ∧
      (ic'.transactionContext.accounts.map (·.lamports)).sum =
        (ic.transactionContext.accounts.map (·.lamports)).sum := by
  obtain ⟨ic₁, ic₂, hpush, hrun, hverify, hpop⟩ :=
    InvokeContext.processInstruction_top_eq_ok hstack h
  obtain ⟨hinv₁, hvalid, hstack₁⟩ := push_top_invariant hstack hprograms hwritable hpush
  obtain ⟨pre₂, hinv₂, hstack₂⟩ := runScript_invariant hkeys hvalid
    (visitEachAccountOnce_nodup instructionAccounts) script hscript hinv₁
    (by rw [hstack₁]; exact List.cons_ne_nil _ _) hrun
  obtain ⟨htracks, hlamports⟩ := verify_tracks hinv₂ hwritable hverify
  obtain ⟨ctx, rest, hstack₃, rfl⟩ := InvokeContext.pop_eq_ok hpop
  rw [hstack₂, hstack₁, List.cons.injEq] at hstack₃
  exact ⟨hinv₂.accountKeys, hstack₃.2.symm, hinv₂.length, htracks, hlamports⟩

end Instruction

/-! ## A message -/

/-- The program ids of a message's invocations: the program of each instruction, and every
program its run invokes. -/
def invokedProgramIds (keys : List Pubkey) (programIndices : List (List ℕ))
    (scripts : List Script) : List Pubkey :=
  programIndices.filterMap (fun indices => indices.getLast?.bind (keys[·]?)) ++
    scripts.flatMap Script.programIds

/-- An account as the checks of a message see it: the instructions sysvar account with the
data it started with, since the runtime writes that data itself. -/
def withSysvarData (keys : List Pubkey) (j : ℕ) (initial current : Account) : Account :=
  if keys[j]? = some instructionsSysvarId then { current with data := initial.data } else current

theorem withSysvarData_self (keys : List Pubkey) (j : ℕ) (account : Account) :
    withSysvarData keys j account account = account := by
  unfold withSysvarData
  split <;> rfl

theorem Tracks.withData {programs : List Pubkey} {writable : Bool} {account account' : Account}
    (h : Tracks programs writable account account') (data : AccountData) :
    Tracks programs writable { account with data } { account' with data } := by
  constructor
  · intro hfrozen
    rw [h.frozen hfrozen]
  · intro hforeign
    obtain ⟨howner, -, hlamports⟩ := h.foreign hforeign
    exact ⟨howner, rfl, hlamports⟩

theorem Tracks.trans_withSysvarData {programs : List Pubkey} {writable : Bool} {keys : List Pubkey}
    {j : ℕ} {initial account account' : Account}
    (h : Tracks programs writable initial (withSysvarData keys j initial account))
    (h' : Tracks programs writable account account') :
    Tracks programs writable initial (withSysvarData keys j initial account') := by
  unfold withSysvarData at h ⊢
  split at h
  · rw [if_pos ‹_›]
    exact h.trans (h'.withData initial.data)
  · rw [if_neg ‹_›]
    exact h.trans h'

/-- Between the instructions of a message that started from `initial`: every account is
tracked from where it started, but for the data of the instructions sysvar, and the lamports
add up as they did. -/
structure MessageInvariant (programs : List Pubkey) (writable : ℕ → Bool)
    (initial : TransactionContext) (ic : InvokeContext) : Prop where
  accountKeys : ic.transactionContext.accountKeys = initial.accountKeys
  stack : ic.transactionContext.instructionContextStack = []
  length : ic.transactionContext.accounts.length = initial.accounts.length
  tracks : ∀ j account account', initial.accounts[j]? = some account →
    ic.transactionContext.accounts[j]? = some account' →
    Tracks programs (writable j) account (withSysvarData initial.accountKeys j account account')
  lamports : (ic.transactionContext.accounts.map (·.lamports)).sum =
    (initial.accounts.map (·.lamports)).sum

section Message

variable {config : InvokeConfig} {programs : List Pubkey} {writable : ℕ → Bool}
  {initial : TransactionContext}

theorem MessageInvariant.start (programs : List Pubkey) (writable : ℕ → Bool)
    (hstack : initial.instructionContextStack = []) :
    MessageInvariant programs writable initial ⟨initial, []⟩ := by
  refine ⟨rfl, hstack, rfl, fun j account account' haccount haccount' => ?_, rfl⟩
  rw [haccount] at haccount'
  cases haccount'
  rw [withSysvarData_self]
  exact Tracks.refl programs (writable j) account

/-- Writing the instruction index changes only what the invariant leaves free. -/
theorem storeInstructionIndex_invariant {ic ic' : InvokeContext} {instructionIndex : ℕ}
    (hinv : MessageInvariant programs writable initial ic)
    (h : storeInstructionIndex ic instructionIndex = some (.ok ic')) :
    MessageInvariant programs writable initial ic' := by
  rcases storeInstructionIndex_eq_ok h with rfl | ⟨index, account, data, hindex, haccount, rfl⟩
  · exact hinv
  have hkey := TransactionContext.findIndexOfAccount_key hindex
  rw [hinv.accountKeys] at hkey
  have hlt : index < ic.transactionContext.accounts.length :=
    (List.getElem?_eq_some_iff.mp haccount).1
  refine ⟨hinv.accountKeys, hinv.stack, by simp [hinv.length], ?_, ?_⟩
  · intro j initialAccount account' hinitial haccount'
    simp only [TransactionContext.setAccount_accounts] at haccount'
    by_cases hj : index = j
    · subst hj
      rw [List.getElem?_set_self hlt] at haccount'
      cases haccount'
      have htracks := hinv.tracks index initialAccount account hinitial haccount
      unfold withSysvarData at htracks ⊢
      rw [if_pos hkey] at htracks ⊢
      exact htracks
    · rw [List.getElem?_set_ne hj] at haccount'
      exact hinv.tracks j initialAccount account' hinitial haccount'
  · have hset := sum_map_set_add (fun account : Account => account.lamports) hlt { account with data }
    have hget : ic.transactionContext.accounts[index] = account :=
      (List.getElem?_eq_some_iff.mp haccount).2
    rw [hget] at hset
    dsimp only at hset
    simp only [TransactionContext.setAccount_accounts]
    rw [← hinv.lamports]
    omega

/-- A top-level instruction keeps the invariant. -/
theorem processInstruction_messageInvariant {ic ic' : InvokeContext}
    (hkeys : initial.accountKeys.Nodup) (hinv : MessageInvariant programs writable initial ic)
    {instructionAccounts : List InstructionAccount} {programIndices : List ℕ} {script : Script}
    (hprograms : ∀ last, programIndices.getLast? = some last →
      ∀ key, initial.accountKeys[last]? = some key → key ∈ programs)
    (hscript : ∀ programId ∈ script.programIds, programId ∈ programs)
    (hwritable : ∀ instructionAccount ∈ instructionAccounts,
      instructionAccount.isWritable = true → writable instructionAccount.indexInTransaction = true)
    (h : ic.processInstruction config instructionAccounts programIndices (runScript config script) =
      .ok ic') :
    MessageInvariant programs writable initial ic' := by
  obtain ⟨hkeys', hstack', hlength', htracks', hlamports'⟩ := processInstruction_top_tracks
    (hinv.accountKeys ▸ hkeys) hinv.stack
    (fun last hlast key hkey => hprograms last hlast key (hinv.accountKeys ▸ hkey))
    hscript hwritable h
  refine ⟨hkeys'.trans hinv.accountKeys, hstack', hlength'.trans hinv.length, ?_,
    hlamports'.trans hinv.lamports⟩
  intro j initialAccount account' hinitial haccount'
  obtain ⟨account, haccount⟩ : ∃ account, ic.transactionContext.accounts[j]? = some account := by
    have hlt := (List.getElem?_eq_some_iff.mp haccount').1
    rw [hlength'] at hlt
    exact ⟨_, List.getElem?_eq_getElem hlt⟩
  exact (hinv.tracks j initialAccount account hinitial haccount).trans_withSysvarData
    (htracks' j account account' haccount haccount')

/-- The loop over the instructions keeps the invariant. -/
theorem processMessageLoop_invariant (hkeys : initial.accountKeys.Nodup) (message : InvokeMessage) :
    ∀ (items : List (CompiledInstruction × List ℕ × Script)) {instructionIndex : ℕ}
      {ic ic' : InvokeContext},
      (∀ item ∈ items, (∀ last, item.2.1.getLast? = some last →
        ∀ key, initial.accountKeys[last]? = some key → key ∈ programs) ∧
        ∀ programId ∈ item.2.2.programIds, programId ∈ programs) →
      MessageInvariant programs message.isWritable initial ic →
      processMessageLoop config message instructionIndex items ic = some (.ok ic') →
      MessageInvariant programs message.isWritable initial ic'
  | [], _, ic, ic', _, hinv, h => by
    unfold processMessageLoop at h
    cases h
    exact hinv
  | (instruction, programIndices, script) :: rest, instructionIndex, ic, ic', hitems, hinv, h => by
    have hrest : ∀ item ∈ rest, _ := fun item hmem => hitems item (List.mem_cons_of_mem _ hmem)
    obtain ⟨hprograms, hscript⟩ := hitems _ List.mem_cons_self
    unfold processMessageLoop at h
    split at h
    · exact processMessageLoop_invariant hkeys message rest hrest hinv h
    split at h
    case h_1 => cases h
    case h_2 => cases h
    case h_3 ic₁ hstore =>
      have hinv₁ := storeInstructionIndex_invariant hinv hstore
      dsimp only at h
      split at h
      case h_1 => cases h
      case h_2 ic₂ hprocess =>
        have hinv₂ := processInstruction_messageInvariant hkeys hinv₁ hprograms hscript
          (fun instructionAccount hmem hwritable => by
            obtain ⟨index, -, rfl⟩ := List.mem_map.mp hmem
            exact hwritable) hprocess
        exact processMessageLoop_invariant hkeys message rest hrest hinv₂ h

end Message

/-- Whatever the programs of a message do, if `process_message` succeeds: the lamports of the
accounts add up as before; an account that the message does not make writable, or that was
executable, is as it was; an account that no invoked program owned keeps its owner and its
data and loses no lamports. The data of the instructions sysvar account is the exception:
the runtime writes it itself. -/
theorem processMessage_preserves_accounts {config : InvokeConfig} {message : InvokeMessage}
    {programIndices : List (List ℕ)} {scripts : List Script} {tc tc' : TransactionContext}
    (hkeys : tc.accountKeys.Nodup) (hstack : tc.instructionContextStack = [])
    (h : processMessage config message programIndices scripts tc = some (.ok tc')) :
    (tc'.accounts.map (·.lamports)).sum = (tc.accounts.map (·.lamports)).sum ∧
      tc'.accounts.length = tc.accounts.length ∧
      ∀ j account account', tc.accounts[j]? = some account → tc'.accounts[j]? = some account' →
        Tracks (invokedProgramIds tc.accountKeys programIndices scripts) (message.isWritable j)
          account (withSysvarData tc.accountKeys j account account') := by
  unfold processMessage at h
  obtain ⟨result, hloop, hresult⟩ := Option.map_eq_some_iff.mp h
  obtain ⟨ic', rfl, rfl⟩ : ∃ ic', result = .ok ic' ∧ ic'.transactionContext = tc' := by
    cases result with
    | error => cases hresult
    | ok ic' => exact ⟨ic', rfl, Except.ok.inj hresult⟩
  have hitems : ∀ item ∈ message.instructions.zip (programIndices.zip scripts),
      (∀ last, item.2.1.getLast? = some last →
        ∀ key, tc.accountKeys[last]? = some key →
          key ∈ invokedProgramIds tc.accountKeys programIndices scripts) ∧
      ∀ programId ∈ item.2.2.programIds,
        programId ∈ invokedProgramIds tc.accountKeys programIndices scripts := by
    intro item hmem
    have hpair := (List.of_mem_zip hmem).2
    have hindices := (List.of_mem_zip hpair).1
    have hscript := (List.of_mem_zip hpair).2
    constructor
    · intro last hlast key hkey
      apply List.mem_append_left
      exact List.mem_filterMap.mpr ⟨item.2.1, hindices, by simp [hlast, hkey]⟩
    · intro programId hprogramId
      apply List.mem_append_right
      exact List.mem_flatMap.mpr ⟨item.2.2, hscript, hprogramId⟩
  have hinv := processMessageLoop_invariant hkeys message _ hitems
    (MessageInvariant.start _ message.isWritable hstack) hloop
  exact ⟨hinv.lamports, hinv.length, hinv.tracks⟩

/-- A program that moves 6 lamports between two accounts it owns: the message succeeds, and
the theorem applies to it. -/
theorem processMessage_preserves_accounts_transfer :
    let config : InvokeConfig := ⟨Rent.default, 4, true, []⟩
    let program : Account := ⟨1, .bytes [], 4, true, 0⟩
    let payer : Account := ⟨10, .bytes [], 6, false, 0⟩
    let payee : Account := ⟨0, .bytes [], 6, false, 0⟩
    let message : InvokeMessage := ⟨fun _ => false, fun j => decide (j ≠ 0), [⟨0, [1, 2]⟩]⟩
    let script : Script :=
      .write 0 { payer with lamports := 4 } (.write 1 { payee with lamports := 6 } .ok)
    let tc : TransactionContext := ⟨[6, 7, 8], [program, payer, payee], [], 5⟩
    let tc' : TransactionContext :=
      { tc with accounts := [program, { payer with lamports := 4 }, { payee with lamports := 6 }] }
    tc.accountKeys.Nodup ∧ tc.instructionContextStack = [] ∧
      processMessage config message [[0]] [script] tc = some (.ok tc') ∧
      (tc'.accounts.map (·.lamports)).sum = (tc.accounts.map (·.lamports)).sum ∧
      tc'.accounts.length = tc.accounts.length ∧
      ∀ j account account', tc.accounts[j]? = some account → tc'.accounts[j]? = some account' →
        Tracks (invokedProgramIds tc.accountKeys [[0]] [script]) (message.isWritable j)
          account (withSysvarData tc.accountKeys j account account') := by
  intro config program payer payee message script tc tc'
  have hkeys : tc.accountKeys.Nodup := by decide
  have hrun : processMessage config message [[0]] [script] tc = some (.ok tc') := by
    decide +kernel
  exact ⟨hkeys, rfl, hrun, processMessage_preserves_accounts hkeys rfl hrun⟩

end Solana.Runtime
