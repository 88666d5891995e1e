import Solana.Runtime.InvokeSpec

/-! `prepare_instruction`: the callee's accounts of a cross-program invocation, deduplicated with
merged privileges (`prepareInstruction_privileges`). -/

namespace Solana.Runtime

open Except (bind_eq_ok)

/-! ## Lists with one element changed -/

section Modify

variable {α β : Type} {l : List α} {d : ℕ} {f : α → α}

theorem getElem?_of_mem_modify {a : α} (h : a ∈ l.modify d f) :
    ∃ j b, l[j]? = some b ∧ (d = j ∧ a = f b ∨ d ≠ j ∧ a = b) := by
  obtain ⟨j, hj⟩ := List.mem_iff_getElem?.mp h
  rw [List.getElem?_modify] at hj
  obtain ⟨b, hb, hab⟩ := Option.map_eq_some_iff.mp hj
  refine ⟨j, b, hb, ?_⟩
  by_cases hdj : d = j
  · exact .inl ⟨hdj, by simpa [hdj] using hab.symm⟩
  · exact .inr ⟨hdj, by simpa [hdj] using hab.symm⟩

theorem map_modify_of_forall {g : α → β} (hf : ∀ a, g (f a) = g a) :
    (l.modify d f).map g = l.map g := by
  apply List.ext_getElem?
  intro j
  simp only [List.getElem?_map, List.getElem?_modify]
  cases l[j]? with
  | none => rfl
  | some b => by_cases hdj : d = j <;> simp [hdj, hf]

theorem getElem?_append_singleton_eq_some {x y : α} {i : ℕ} (h : (l ++ [x])[i]? = some y) :
    i < l.length ∧ l[i]? = some y ∨ i = l.length ∧ y = x := by
  by_cases hi : i < l.length
  · rw [List.getElem?_append_left hi] at h
    exact .inl ⟨hi, h⟩
  · rw [List.getElem?_append_right (by omega), List.getElem?_singleton] at h
    split at h
    · exact .inr ⟨by omega, (Option.some.inj h).symm⟩
    · cases h

end Modify

/-! ## The merged privileges -/

/-- Whether some meta naming the transaction account `index` has the privilege `flag`: the
privilege `prepare_instruction` gives that account. -/
def mergedFlag (tc : TransactionContext) (accountMetas : List AccountMeta)
    (flag : AccountMeta → Bool) (index : ℕ) : Bool :=
  accountMetas.any fun accountMeta => tc.findIndexOfAccount accountMeta.pubkey = some index && flag accountMeta

section Merged

variable {tc : TransactionContext} {done : List AccountMeta} {flag : AccountMeta → Bool}

@[simp] theorem mergedFlag_append_singleton (accountMeta : AccountMeta) (index : ℕ) :
    mergedFlag tc (done ++ [accountMeta]) flag index =
      (mergedFlag tc done flag index ||
        (tc.findIndexOfAccount accountMeta.pubkey = some index && flag accountMeta)) := by
  simp [mergedFlag]

/-- The transaction finds each key at one place, so the metas naming an account are those of
its key. -/
theorem findIndexOfAccount_eq_iff {key pubkey : Pubkey} {index : ℕ}
    (hkey : tc.findIndexOfAccount key = some index) :
    tc.findIndexOfAccount pubkey = some index ↔ pubkey = key := by
  constructor
  · intro h
    have h₁ := TransactionContext.findIndexOfAccount_key h
    rw [TransactionContext.findIndexOfAccount_key hkey] at h₁
    exact (Option.some.inj h₁).symm
  · rintro rfl
    exact hkey

theorem mergedFlag_eq_any {key : Pubkey} {index : ℕ}
    (hkey : tc.findIndexOfAccount key = some index) :
    mergedFlag tc done flag index =
      done.any fun accountMeta => accountMeta.pubkey = key && flag accountMeta := by
  unfold mergedFlag
  congr 1
  funext accountMeta
  simp only [findIndexOfAccount_eq_iff hkey]

end Merged

/-! ## The loop over the metas -/

/-- What the loop of `prepare_instruction` keeps after the metas `done`: accounts of distinct
transaction accounts, each the caller's account of some key with the privileges of every meta
naming it, and for each meta the position of the account it names. -/
structure DeduplicateInvariant (tc : TransactionContext) (ctx : InstructionContext)
    (done : List AccountMeta) (deduplicated : List InstructionAccount)
    (duplicateIndices : List ℕ) : Prop where
  nodup : (deduplicated.map (·.indexInTransaction)).Nodup
  caller : ∀ a ∈ deduplicated, ∃ key, tc.findIndexOfAccount key = some a.indexInTransaction ∧
    ctx.findIndexOfAccount tc key = some a.indexInCaller
  isSigner : ∀ a ∈ deduplicated,
    a.isSigner = mergedFlag tc done AccountMeta.isSigner a.indexInTransaction
  isWritable : ∀ a ∈ deduplicated,
    a.isWritable = mergedFlag tc done AccountMeta.isWritable a.indexInTransaction
  length : duplicateIndices.length = done.length
  position : ∀ (i : ℕ) (accountMeta : AccountMeta), done[i]? = some accountMeta →
    ∃ (d : ℕ) (a : InstructionAccount), duplicateIndices[i]? = some d ∧
      deduplicated[d]? = some a ∧
      tc.findIndexOfAccount accountMeta.pubkey = some a.indexInTransaction

namespace DeduplicateInvariant

variable {tc : TransactionContext} {ctx : InstructionContext} {done : List AccountMeta}
  {deduplicated : List InstructionAccount} {duplicateIndices : List ℕ}

theorem nil : DeduplicateInvariant tc ctx [] [] [] where
  nodup := List.nodup_nil
  caller := by simp
  isSigner := by simp
  isWritable := by simp
  length := rfl
  position := by simp

variable (hinv : DeduplicateInvariant tc ctx done deduplicated duplicateIndices)
include hinv

theorem indexInTransaction_ne {j d : ℕ} {a b : InstructionAccount} (hj : deduplicated[j]? = some a)
    (hd : deduplicated[d]? = some b) (hdj : d ≠ j) : a.indexInTransaction ≠ b.indexInTransaction := by
  intro heq
  have hlt : j < (deduplicated.map (·.indexInTransaction)).length := by
    simpa using (List.getElem?_eq_some_iff.mp hj).1
  have hsame : (deduplicated.map (·.indexInTransaction))[j]? =
      (deduplicated.map (·.indexInTransaction))[d]? := by
    simp [hj, hd, heq]
  exact hdj ((List.getElem?_inj hlt hinv.nodup).mp hsame).symm

/-- No meta seen so far names a transaction account the loop has no account for. -/
theorem mergedFlag_eq_false {index : ℕ} (flag : AccountMeta → Bool)
    (hnone : ∀ a ∈ deduplicated, a.indexInTransaction ≠ index) :
    mergedFlag tc done flag index = false := by
  unfold mergedFlag
  rw [List.any_eq_false]
  intro accountMeta hmem hnames
  obtain ⟨i, hi⟩ := List.mem_iff_getElem?.mp hmem
  obtain ⟨d, a, -, ha, hfind⟩ := hinv.position i accountMeta hi
  have hindex : tc.findIndexOfAccount accountMeta.pubkey = some index := by
    simp only [Bool.and_eq_true, decide_eq_true_eq] at hnames
    exact hnames.1
  rw [hindex] at hfind
  exact hnone a (List.mem_of_getElem? ha) (Option.some.inj hfind).symm

/-- A meta naming the account at `d`: its privileges are merged into that account. -/
theorem duplicate {accountMeta : AccountMeta} {index d : ℕ}
    (hindex : tc.findIndexOfAccount accountMeta.pubkey = some index)
    (hd : deduplicated.findIdx? (·.indexInTransaction = index) = some d) :
    DeduplicateInvariant tc ctx (done ++ [accountMeta])
      (deduplicated.modify d fun instructionAccount =>
        { instructionAccount with
          isSigner := instructionAccount.isSigner || accountMeta.isSigner
          isWritable := instructionAccount.isWritable || accountMeta.isWritable })
      (duplicateIndices ++ [d]) := by
  obtain ⟨hlt, hdindex, -⟩ := List.findIdx?_eq_some_iff_getElem.mp hd
  have hdindex : deduplicated[d].indexInTransaction = index := by simpa using hdindex
  have hget : deduplicated[d]? = some deduplicated[d] := List.getElem?_eq_getElem hlt
  have hprivilege : ∀ (proj : InstructionAccount → Bool) (flag : AccountMeta → Bool),
      (∀ a ∈ deduplicated, proj a = mergedFlag tc done flag a.indexInTransaction) →
      (∀ b : InstructionAccount, proj { b with
          isSigner := b.isSigner || accountMeta.isSigner
          isWritable := b.isWritable || accountMeta.isWritable } = (proj b || flag accountMeta)) →
      ∀ a ∈ deduplicated.modify d (fun instructionAccount =>
        { instructionAccount with
          isSigner := instructionAccount.isSigner || accountMeta.isSigner
          isWritable := instructionAccount.isWritable || accountMeta.isWritable }),
        proj a = mergedFlag tc (done ++ [accountMeta]) flag a.indexInTransaction := by
    intro proj flag hproj hmerge a ha
    obtain ⟨j, b, hb, ⟨rfl, rfl⟩ | ⟨hdj, rfl⟩⟩ := getElem?_of_mem_modify ha
    · rw [hget] at hb
      cases hb
      rw [hmerge, hproj _ (List.getElem_mem hlt)]
      simp [hindex, hdindex]
    · have hne := hinv.indexInTransaction_ne hb hget hdj
      rw [hdindex] at hne
      rw [mergedFlag_append_singleton, hindex]
      simpa [Ne.symm hne] using hproj a (List.mem_of_getElem? hb)
  refine ⟨?_, ?_, hprivilege _ _ hinv.isSigner (fun _ => rfl),
    hprivilege _ _ hinv.isWritable (fun _ => rfl), by simp [hinv.length], ?_⟩
  · rw [map_modify_of_forall]
    · exact hinv.nodup
    · intro
      rfl
  · intro a ha
    obtain ⟨j, b, hb, ⟨-, rfl⟩ | ⟨-, rfl⟩⟩ := getElem?_of_mem_modify ha
    · exact hinv.caller b (List.mem_of_getElem? hb)
    · exact hinv.caller a (List.mem_of_getElem? hb)
  · intro i accountMeta' hi
    rcases getElem?_append_singleton_eq_some hi with ⟨hlt', hi⟩ | ⟨rfl, rfl⟩
    · obtain ⟨d', a, hd', ha, hfind⟩ := hinv.position i accountMeta' hi
      refine ⟨d', _, ?_, (List.getElem?_modify _ _ _ _).trans (by rw [ha]; rfl), ?_⟩
      · rw [List.getElem?_append_left (by rw [hinv.length]; exact hlt'), hd']
      · split <;> exact hfind
    · refine ⟨d, _, ?_, by rw [List.getElem?_modify_eq, hget]; rfl, ?_⟩
      · rw [← hinv.length, List.getElem?_concat_length]
      · simpa [hdindex] using hindex

/-- A meta naming an account the loop has not seen yet: the caller's account of its key is
added with the meta's own privileges. -/
theorem new {accountMeta : AccountMeta} {index indexInCaller : ℕ}
    (hindex : tc.findIndexOfAccount accountMeta.pubkey = some index)
    (hnone : deduplicated.findIdx? (·.indexInTransaction = index) = none)
    (hcaller : ctx.findIndexOfAccount tc accountMeta.pubkey = some indexInCaller) :
    DeduplicateInvariant tc ctx (done ++ [accountMeta])
      (deduplicated ++ [⟨index, indexInCaller, accountMeta.isSigner, accountMeta.isWritable⟩])
      (duplicateIndices ++ [deduplicated.length]) := by
  have hnone : ∀ a ∈ deduplicated, a.indexInTransaction ≠ index := by
    intro a ha
    simpa using List.findIdx?_eq_none_iff.mp hnone a ha
  have hprivilege : ∀ (proj : InstructionAccount → Bool) (flag : AccountMeta → Bool),
      (∀ a ∈ deduplicated, proj a = mergedFlag tc done flag a.indexInTransaction) →
      proj ⟨index, indexInCaller, accountMeta.isSigner, accountMeta.isWritable⟩ =
        flag accountMeta →
      ∀ a ∈ deduplicated ++ [⟨index, indexInCaller, accountMeta.isSigner, accountMeta.isWritable⟩],
        proj a = mergedFlag tc (done ++ [accountMeta]) flag a.indexInTransaction := by
    intro proj flag hproj hnew a ha
    rcases List.mem_append.mp ha with ha | ha
    · simp [hproj a ha, hindex, Ne.symm (hnone a ha)]
    · rw [List.mem_singleton] at ha
      subst ha
      simp [hinv.mergedFlag_eq_false flag hnone, hindex, hnew]
  refine ⟨?_, ?_, hprivilege _ _ hinv.isSigner rfl, hprivilege _ _ hinv.isWritable rfl,
    by simp [hinv.length], ?_⟩
  · rw [List.map_append, List.nodup_append]
    refine ⟨hinv.nodup, by simp, ?_⟩
    intro x hx y hy
    obtain ⟨a, ha, rfl⟩ := List.mem_map.mp hx
    simp only [List.map_cons, List.map_nil, List.mem_singleton] at hy
    subst hy
    exact hnone a ha
  · intro a ha
    rcases List.mem_append.mp ha with ha | ha
    · exact hinv.caller a ha
    · rw [List.mem_singleton] at ha
      subst ha
      exact ⟨accountMeta.pubkey, hindex, hcaller⟩
  · intro i accountMeta' hi
    rcases getElem?_append_singleton_eq_some hi with ⟨hlt', hi⟩ | ⟨rfl, rfl⟩
    · obtain ⟨d', a, hd', ha, hfind⟩ := hinv.position i accountMeta' hi
      have hlt'' : d' < deduplicated.length := (List.getElem?_eq_some_iff.mp ha).1
      refine ⟨d', a, ?_, by rw [List.getElem?_append_left hlt'', ha], hfind⟩
      rw [List.getElem?_append_left (by rw [hinv.length]; exact hlt'), hd']
    · refine ⟨deduplicated.length, _, ?_, List.getElem?_concat_length, hindex⟩
      rw [← hinv.length, List.getElem?_concat_length]

end DeduplicateInvariant

/-- The loop keeps its invariant over all the metas. -/
theorem deduplicateLoop_invariant {tc : TransactionContext} {ctx : InstructionContext} :
    ∀ {rest done : List AccountMeta} {deduplicated deduplicated' : List InstructionAccount}
      {duplicateIndices duplicateIndices' : List ℕ},
      DeduplicateInvariant tc ctx done deduplicated duplicateIndices →
      deduplicateLoop tc ctx rest deduplicated duplicateIndices =
        .ok (deduplicated', duplicateIndices') →
      DeduplicateInvariant tc ctx (done ++ rest) deduplicated' duplicateIndices' := by
  intro rest
  induction rest with
  | nil =>
    intro done _ _ _ _ hinv h
    obtain ⟨rfl, rfl⟩ := Prod.mk.inj (Except.ok.inj h)
    simpa using hinv
  | cons accountMeta rest ih =>
    intro done _ _ _ _ hinv h
    rw [← List.singleton_append, ← List.append_assoc]
    unfold deduplicateLoop at h
    dsimp only at h
    split at h
    case h_2 => simp at h
    case h_1 index hindex =>
    rw [pure_bind] at h
    split at h
    case h_1 d hd => exact ih (hinv.duplicate hindex hd) h
    case h_2 hnone =>
      split at h
      case h_2 => simp at h
      case h_1 indexInCaller hcaller =>
      rw [pure_bind] at h
      exact ih (hinv.new hindex hnone hcaller) h

/-! ## What a successful call returns -/

section Prepare

variable {tc : TransactionContext} {ctx : InstructionContext}

/-- The caller's account of a key is the transaction account of that key. -/
theorem InstructionContext.key_of_findIndexOfAccount {pubkey : Pubkey} {n index : ℕ}
    (hfind : ctx.findIndexOfAccount tc pubkey = some n)
    (hindex : ctx.getIndexInTransaction n = .ok index) : tc.accountKeys[index]? = some pubkey := by
  obtain ⟨hle, account, haccount, hkey⟩ := InstructionContext.findIndexOfAccount_account hfind
  obtain ⟨account', haccount', rfl⟩ := (InstructionContext.getIndexInTransaction_of_le hle).mp hindex
  rw [haccount] at haccount'
  cases haccount'
  exact hkey

theorem checkPrivileges_signer {signers : List Pubkey} {instructionAccount : InstructionAccount}
    (h : checkPrivileges tc ctx signers instructionAccount = .ok ())
    (hsigner : instructionAccount.isSigner = true) :
    ∃ index key, ctx.getIndexInTransaction instructionAccount.indexInCaller = .ok index ∧
      tc.accountKeys[index]? = some key ∧
      (ctx.isSigner instructionAccount.indexInCaller = true ∨ key ∈ signers) := by
  unfold checkPrivileges at h
  obtain ⟨⟨index, account⟩, hborrow, h⟩ := bind_eq_ok.mp h
  obtain ⟨key, hkey, h⟩ := bind_eq_ok.mp h
  obtain ⟨hindex, -⟩ := InstructionContext.tryBorrowAccount_eq_ok.mp hborrow
  refine ⟨index, key, hindex, TransactionContext.getKeyOfAccountAtIndex_eq_ok.mp hkey, ?_⟩
  dsimp only at h
  split at h
  · simp at h
  case isFalse =>
    split at h
    · simp at h
    case isFalse hescalation =>
      have hescalation : ctx.isSigner instructionAccount.indexInCaller = false → key ∈ signers := by
        simpa [hsigner] using hescalation
      cases hsigned : ctx.isSigner instructionAccount.indexInCaller
      · exact .inr (hescalation hsigned)
      · exact .inl rfl

end Prepare

/-- What the callee gets from `prepare_instruction` in the caller's context `ctx`: one
account for each meta, which is the transaction's and the caller's account of the meta's key
and has the privileges of every meta of that key merged, none of them one the caller lacks
unless the program signs for the key; one account for each transaction account; and last the
caller's executable account of the program's key. -/
structure PreparedPrivileges (tc : TransactionContext) (ctx : InstructionContext)
    (instruction : Instruction) (signers : List Pubkey)
    (instructionAccounts : List InstructionAccount) (programIndices : List ℕ) : Prop where
  length : instructionAccounts.length = instruction.accounts.length
  account : ∀ (i : ℕ) (accountMeta : AccountMeta), instruction.accounts[i]? = some accountMeta →
    ∃ a : InstructionAccount, instructionAccounts[i]? = some a ∧
      tc.accountKeys[a.indexInTransaction]? = some accountMeta.pubkey ∧
      ctx.findIndexOfAccount tc accountMeta.pubkey = some a.indexInCaller ∧
      a.isSigner = instruction.accounts.any (fun m => m.pubkey = accountMeta.pubkey && m.isSigner) ∧
      a.isWritable =
        instruction.accounts.any (fun m => m.pubkey = accountMeta.pubkey && m.isWritable) ∧
      (a.isWritable = true → ctx.isWritable a.indexInCaller = true) ∧
      (a.isSigner = true → ctx.isSigner a.indexInCaller = true ∨ accountMeta.pubkey ∈ signers)
  same : ∀ a ∈ instructionAccounts, ∀ b ∈ instructionAccounts,
    a.indexInTransaction = b.indexInTransaction → a = b
  program : ∃ programIndex, programIndices.getLast? = some programIndex ∧
    tc.accountKeys[programIndex]? = some instruction.programId ∧
    (∃ programAccount, tc.accounts[programIndex]? = some programAccount ∧
      programAccount.executable = true) ∧
    ∃ indexInCaller, ctx.findIndexOfAccount tc instruction.programId = some indexInCaller ∧
      ctx.getIndexInTransaction indexInCaller = .ok programIndex

namespace InvokeContext

variable {ic : InvokeContext}

/-- A cross-program invocation escalates no privilege. -/
theorem prepareInstruction_privileges {instruction : Instruction} {signers : List Pubkey}
    {instructionAccounts : List InstructionAccount} {programIndices : List ℕ}
    (h : ic.prepareInstruction instruction signers = .ok (instructionAccounts, programIndices)) :
    ∃ ctx rest, ic.transactionContext.instructionContextStack = ctx :: rest ∧
      PreparedPrivileges ic.transactionContext ctx instruction signers instructionAccounts
        programIndices := by
  unfold prepareInstruction at h
  dsimp only at h
  obtain ⟨ctx, hctx, h⟩ := bind_eq_ok.mp h
  obtain ⟨rest, hrest⟩ := TransactionContext.getCurrentInstructionContext_eq_ok.mp hctx
  obtain ⟨⟨deduplicated, duplicateIndices⟩, hdeduplicated, h⟩ := bind_eq_ok.mp h
  obtain ⟨_, hprivileges, h⟩ := bind_eq_ok.mp h
  split at h
  case h_2 => simp at h
  case h_1 n hn =>
  rw [pure_bind] at h
  obtain ⟨⟨programIndex, programAccount⟩, hborrow, h⟩ := bind_eq_ok.mp h
  split at h
  · cases h
  case isFalse hexecutable =>
  cases h
  have hinv : DeduplicateInvariant ic.transactionContext ctx instruction.accounts deduplicated
      duplicateIndices := by
    simpa using deduplicateLoop_invariant DeduplicateInvariant.nil hdeduplicated
  have hall : ∀ d ∈ duplicateIndices, ∃ a, deduplicated[d]? = some a := by
    intro d hd
    obtain ⟨i, hi⟩ := List.mem_iff_getElem?.mp hd
    have hlt : i < instruction.accounts.length := by
      rw [← hinv.length]
      exact (List.getElem?_eq_some_iff.mp hi).1
    obtain ⟨d', a, hd', ha, -⟩ := hinv.position i _ (List.getElem?_eq_getElem hlt)
    rw [hi] at hd'
    cases hd'
    exact ⟨a, ha⟩
  have hmap : duplicateIndices.filterMap (deduplicated[·]?) =
      duplicateIndices.map fun d => (deduplicated[d]?).getD ⟨0, 0, false, false⟩ := by
    rw [List.filterMap_eq_map_iff_forall_eq_some]
    intro d hd
    obtain ⟨a, ha⟩ := hall d hd
    simp [ha]
  have hcheck : ∀ a ∈ deduplicated, checkPrivileges ic.transactionContext ctx signers a = .ok () :=
    fun a ha => (Except.mapM_eq_ok_of_mem hprivileges a ha).elim fun _ h => h
  refine ⟨ctx, rest, hrest, by simp [hmap, hinv.length], ?_, ?_, ?_⟩
  · intro i accountMeta hi
    obtain ⟨d, a, hd, ha, hfind⟩ := hinv.position i accountMeta hi
    have hmem := List.mem_of_getElem? ha
    obtain ⟨key, hkey, hcaller⟩ := hinv.caller a hmem
    have hkey' : key = accountMeta.pubkey := ((findIndexOfAccount_eq_iff hkey).mp hfind).symm
    subst hkey'
    refine ⟨a, by simp [hmap, hd, ha], TransactionContext.findIndexOfAccount_key hfind, hcaller,
      by rw [hinv.isSigner a hmem, mergedFlag_eq_any hfind],
      by rw [hinv.isWritable a hmem, mergedFlag_eq_any hfind],
      checkPrivileges_writable (hcheck a hmem), fun hsigner => ?_⟩
    obtain ⟨index, key', hindex, hkey', hsigned⟩ := checkPrivileges_signer (hcheck a hmem) hsigner
    have hsame := InstructionContext.key_of_findIndexOfAccount hcaller hindex
    rw [hkey'] at hsame
    cases hsame
    exact hsigned
  · intro a ha b hb hab
    rw [hmap] at ha hb
    obtain ⟨d, hd, rfl⟩ := List.mem_map.mp ha
    obtain ⟨d', hd', rfl⟩ := List.mem_map.mp hb
    obtain ⟨x, hx⟩ := hall d hd
    obtain ⟨y, hy⟩ := hall d' hd'
    simp only [hx, hy, Option.getD_some] at hab ⊢
    by_cases hdd : d' = d
    · subst hdd
      rw [hx] at hy
      cases hy
      rfl
    · exact absurd hab (hinv.indexInTransaction_ne hx hy hdd)
  · obtain ⟨hindex, haccount⟩ := InstructionContext.tryBorrowAccount_eq_ok.mp hborrow
    refine ⟨programIndex, rfl, InstructionContext.key_of_findIndexOfAccount hn hindex,
      ⟨programAccount, haccount, by simpa using hexecutable⟩, n, hn, hindex⟩

/-- A caller with three accounts and its program invokes the program of key 9 with the key 5
twice, once writable and once a signer: both metas get one account, writable and a signer. -/
theorem prepareInstruction_privileges_mergedMeta :
    let program : Account := ⟨1, .bytes [], 4, true, 0⟩
    let tc : TransactionContext := ⟨[5, 7, 9, 11], [.default, .default, program, program],
      [⟨[3], [⟨0, 1, true, true⟩, ⟨1, 2, false, false⟩, ⟨2, 3, false, false⟩]⟩], 5⟩
    let instruction : Instruction := ⟨9, [⟨5, false, true⟩, ⟨7, false, false⟩, ⟨5, true, false⟩]⟩
    let prepared : List InstructionAccount :=
      [⟨0, 1, true, true⟩, ⟨1, 2, false, false⟩, ⟨0, 1, true, true⟩]
    (⟨tc, []⟩ : InvokeContext).prepareInstruction instruction [] = .ok (prepared, [2]) ∧
      ∃ ctx rest, tc.instructionContextStack = ctx :: rest ∧
        PreparedPrivileges tc ctx instruction [] prepared [2] := by
  intro program tc instruction prepared
  have h : (⟨tc, []⟩ : InvokeContext).prepareInstruction instruction [] = .ok (prepared, [2]) := by
    decide
  exact ⟨h, prepareInstruction_privileges h⟩

end InvokeContext

end Solana.Runtime
