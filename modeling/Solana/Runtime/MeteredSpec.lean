import Solana.Runtime.Metered
import Solana.Runtime.InvokeSpec

/-! The metered runtime refines the unmetered one, and meters no growth before or inside an
invocation (`Metered.processMessage_misses_growth_before_invoke`). -/

namespace Solana.Runtime

open Except (bind_eq_ok)

namespace AccountsDataMeter

@[simp] theorem consume_zero (meter : AccountsDataMeter) : meter.consume 0 = .ok meter := rfl

end AccountsDataMeter

/-- What `verify_and_update` consumes for an account that passed `verify`: nothing, as the
pre-account of a writable account is updated first and any other account is unchanged. -/
theorem growth_after_update_eq_zero {pre account : Account} {programId : Pubkey}
    {isWritable : Bool} {rent : Rent} {doSupportRealloc : Bool}
    (h : PreAccount.verify pre programId isWritable rent account doSupportRealloc = .ok ()) :
    (account.data.len : ℤ) -
      (if isWritable ∧ !pre.executable then account.data.len else pre.data.len) = 0 := by
  split
  · exact sub_self _
  case isFalse hfrozen =>
    have hfrozen : isWritable = false ∨ pre.executable = true := by
      cases hw : isWritable
      · exact .inl rfl
      · exact .inr (by simpa [hw] using hfrozen)
    rw [(verify_allowedChange h).eq_of_frozen hfrozen, sub_self]

namespace Metered

variable {config : InvokeConfig} {tc : TransactionContext} {ctx : InstructionContext}
  {programId : Pubkey}

/-- The metered loop of `verify` checks what the unmetered one checks. -/
theorem verifyEach_eq_ok :
    ∀ {entries : List (InstructionAccount × (Pubkey × Account))} {meter meter' : AccountsDataMeter}
      {preSum postSum : ℕ},
      verifyEach config tc programId entries meter = .ok (preSum, postSum, meter') →
      Solana.Runtime.verifyEach config tc programId entries = .ok (preSum, postSum)
  | [], _, _, _, _, h => by
    cases h
    rfl
  | (instructionAccount, key, pre) :: rest, meter, meter', preSum, postSum, h => by
    unfold verifyEach at h
    obtain ⟨account, haccount, h⟩ := bind_eq_ok.mp h
    obtain ⟨_, hverify, h⟩ := bind_eq_ok.mp h
    obtain ⟨meter₁, -, h⟩ := bind_eq_ok.mp h
    obtain ⟨⟨restPre, restPost, meter₂⟩, hrest, h⟩ := bind_eq_ok.mp h
    cases h
    simp only [Solana.Runtime.verifyEach, haccount, hverify, verifyEach_eq_ok hrest,
      Except.ok_bind]
    rfl

/-- The metered loop of `verify_and_update` is the unmetered one with the meter unchanged. -/
theorem verifyAndUpdateEach_eq_map {before : Bool} :
    ∀ (instructionAccounts : List InstructionAccount) (preAccounts : List (Pubkey × Account))
      (meter : AccountsDataMeter),
      verifyAndUpdateEach config tc ctx programId before instructionAccounts preAccounts meter =
        (Solana.Runtime.verifyAndUpdateEach config tc ctx programId before instructionAccounts
          preAccounts).map fun r => (r.1, r.2.1, r.2.2, meter)
  | [], _, _ => rfl
  | instructionAccount :: rest, preAccounts, meter => by
    unfold verifyAndUpdateEach Solana.Runtime.verifyAndUpdateEach
    split
    case isFalse => rfl
    case isTrue hlt =>
    cases tc.getKeyOfAccountAtIndex instructionAccount.indexInTransaction with
    | error e => rfl
    | ok key =>
    cases tc.getAccountAtIndex instructionAccount.indexInTransaction with
    | error e => rfl
    | ok account =>
    cases before
    all_goals simp only [Bool.false_eq_true, if_false, if_true, Except.ok_bind, pure_bind]
    on_goal 1 => generalize instructionAccount.isWritable = isWritable
    on_goal 2 =>
      rcases ctx.tryBorrowAccount tc instructionAccount.indexInCaller with e | borrowed
      · rfl
      simp only [Except.ok_bind]
      generalize ctx.isWritable instructionAccount.indexInCaller = isWritable
    all_goals
      rcases Map.get preAccounts key with _ | pre
      · rfl
      dsimp only
      cases hverify : PreAccount.verify pre programId isWritable config.rent account
        config.doSupportRealloc
      · rfl
      simp only [Except.ok_bind, growth_after_update_eq_zero hverify,
        AccountsDataMeter.consume_zero, verifyAndUpdateEach_eq_map rest]
      cases Solana.Runtime.verifyAndUpdateEach config tc ctx programId _ rest _ <;> rfl

end Metered

namespace MeteredInvokeContext

variable {config : InvokeConfig} {mic mic' : MeteredInvokeContext}
  {instructionAccounts : List InstructionAccount} {programIndices : List ℕ}

/-- `verify` checks what the unmetered one checks and changes only the meter, by what its loop
consumed. -/
theorem verify_eq_ok (h : mic.verify config instructionAccounts programIndices = .ok mic') :
    mic.toInvokeContext.verify config instructionAccounts programIndices = .ok () ∧
      mic'.toInvokeContext = mic.toInvokeContext ∧
      ∃ programId sum, mic.transactionContext.getProgramKey = .ok programId ∧
        Metered.verifyEach config mic.transactionContext programId
          ((visitEachAccountOnce instructionAccounts).zip mic.preAccounts) mic.accountsDataMeter =
          .ok (sum, sum, mic'.accountsDataMeter) := by
  unfold verify at h
  obtain ⟨programId, hprogramId, h⟩ := bind_eq_ok.mp h
  obtain ⟨_, hprograms, h⟩ := bind_eq_ok.mp h
  obtain ⟨⟨preSum, postSum, meter⟩, heach, h⟩ := bind_eq_ok.mp h
  dsimp only at h
  split at h
  · cases h
  case isFalse hsum =>
  rw [not_not] at hsum
  subst hsum
  cases h
  refine ⟨?_, rfl, programId, preSum, mapError_eq_ok hprogramId, heach⟩
  simp only [InvokeContext.verify, hprogramId, hprograms, Metered.verifyEach_eq_ok heach,
    Except.ok_bind, ne_eq, not_true_eq_false, if_false]
  rfl

/-- `verify_and_update` is the unmetered one with the meter unchanged. -/
theorem verifyAndUpdate_eq_map (before : Bool) :
    mic.verifyAndUpdate config instructionAccounts before =
      (mic.toInvokeContext.verifyAndUpdate config instructionAccounts before).map
        fun ic => ⟨ic, mic.accountsDataMeter⟩ := by
  unfold verifyAndUpdate InvokeContext.verifyAndUpdate
  dsimp only
  cases mic.transactionContext.getCurrentInstructionContext with
  | error e => rfl
  | ok ctx =>
  cases (mic.transactionContext.getProgramKey.mapError fun _ => InstructionError.callDepth) with
  | error e => rfl
  | ok programId =>
  simp only [Except.ok_bind, Metered.verifyAndUpdateEach_eq_map]
  cases verifyAndUpdateEach config mic.transactionContext ctx programId before
    (visitEachAccountOnce instructionAccounts) mic.preAccounts with
  | error e => rfl
  | ok result =>
  obtain ⟨preAccounts, preSum, postSum⟩ := result
  by_cases hsum : preSum = postSum
  · subst hsum
    simp [Except.map]
    rfl
  · simp [hsum, Except.map]
    rfl

theorem verifyAndUpdate_eq_ok {before : Bool}
    (h : mic.verifyAndUpdate config instructionAccounts before = .ok mic') :
    mic.toInvokeContext.verifyAndUpdate config instructionAccounts before =
        .ok mic'.toInvokeContext ∧ mic'.accountsDataMeter = mic.accountsDataMeter := by
  rw [verifyAndUpdate_eq_map] at h
  obtain ⟨ic, hic, rfl⟩ := Except.map_eq_ok.mp h
  exact ⟨hic, rfl⟩

/-- The metered `process_instruction` does what the unmetered one does, for a body that
refines the unmetered body. -/
theorem processInstruction_eq_ok
    {body : MeteredInvokeContext → Except InstructionError MeteredInvokeContext}
    {body' : InvokeContext → Except InstructionError InvokeContext}
    (hbody : ∀ {m m'}, body m = .ok m' → body' m.toInvokeContext = .ok m'.toInvokeContext)
    (h : mic.processInstruction config instructionAccounts programIndices body = .ok mic') :
    mic.toInvokeContext.processInstruction config instructionAccounts programIndices body' =
      .ok mic'.toInvokeContext := by
  unfold processInstruction at h
  unfold InvokeContext.processInstruction
  dsimp only at h ⊢
  cases htop : mic.transactionContext.instructionContextStack.isEmpty
  · simp only [htop, Bool.false_eq_true, if_false] at h ⊢
    obtain ⟨mic₀, hbefore, h⟩ := bind_eq_ok.mp h
    obtain ⟨ic₁, hpush, h⟩ := bind_eq_ok.mp h
    obtain ⟨mic₂, hrun, h⟩ := bind_eq_ok.mp h
    obtain ⟨mic₃, hafter, h⟩ := bind_eq_ok.mp h
    obtain ⟨ic₄, hpop, h⟩ := bind_eq_ok.mp h
    cases h
    simp only [(verifyAndUpdate_eq_ok hbefore).1, hpush, hbody hrun,
      (verifyAndUpdate_eq_ok hafter).1, hpop, Except.ok_bind]
  · simp only [htop, if_true, pure_bind] at h ⊢
    obtain ⟨ic₁, hpush, h⟩ := bind_eq_ok.mp h
    obtain ⟨mic₂, hrun, h⟩ := bind_eq_ok.mp h
    obtain ⟨mic₃, hverify, h⟩ := bind_eq_ok.mp h
    obtain ⟨ic₄, hpop, h⟩ := bind_eq_ok.mp h
    cases h
    obtain ⟨hverify, hsame, -⟩ := verify_eq_ok hverify
    rw [hsame] at hpop
    simp only [hpush, hbody hrun, hverify, hpop, Except.ok_bind]

/-- An inner instruction leaves the meter as it was, if its program's run does. -/
theorem processInstruction_inner_meter
    {body : MeteredInvokeContext → Except InstructionError MeteredInvokeContext}
    (hinner : mic.transactionContext.instructionContextStack ≠ [])
    (hbody : ∀ {m m'}, body m = .ok m' → m'.accountsDataMeter = m.accountsDataMeter)
    (h : mic.processInstruction config instructionAccounts programIndices body = .ok mic') :
    mic'.accountsDataMeter = mic.accountsDataMeter := by
  unfold processInstruction at h
  dsimp only at h
  have hempty : mic.transactionContext.instructionContextStack.isEmpty = false :=
    List.isEmpty_eq_false_iff.mpr hinner
  simp only [hempty, Bool.false_eq_true, if_false] at h
  obtain ⟨mic₀, hbefore, h⟩ := bind_eq_ok.mp h
  obtain ⟨ic₁, -, h⟩ := bind_eq_ok.mp h
  obtain ⟨mic₂, hrun, h⟩ := bind_eq_ok.mp h
  obtain ⟨mic₃, hafter, h⟩ := bind_eq_ok.mp h
  obtain ⟨ic₄, -, h⟩ := bind_eq_ok.mp h
  cases h
  have hrun := hbody hrun
  calc mic₃.accountsDataMeter
      = mic₂.accountsDataMeter := (verifyAndUpdate_eq_ok hafter).2
    _ = mic₀.accountsDataMeter := hrun
    _ = mic.accountsDataMeter := (verifyAndUpdate_eq_ok hbefore).2

theorem nativeInvoke_eq_ok {instruction : Instruction} {signers : List Pubkey}
    {body : MeteredInvokeContext → Except InstructionError MeteredInvokeContext}
    {body' : InvokeContext → Except InstructionError InvokeContext}
    (hbody : ∀ {m m'}, body m = .ok m' → body' m.toInvokeContext = .ok m'.toInvokeContext)
    (h : mic.nativeInvoke config instruction signers body = .ok mic') :
    mic.toInvokeContext.nativeInvoke config instruction signers body' =
      .ok mic'.toInvokeContext := by
  unfold nativeInvoke at h
  unfold InvokeContext.nativeInvoke
  obtain ⟨⟨instructionAccounts, programIndices⟩, hprepare, h⟩ := bind_eq_ok.mp h
  obtain ⟨sizes, hsizes, h⟩ := bind_eq_ok.mp h
  obtain ⟨mic₁, hprocess, h⟩ := bind_eq_ok.mp h
  obtain ⟨_, hrealloc, h⟩ := bind_eq_ok.mp h
  cases h
  simp only [hprepare, hsizes, processInstruction_eq_ok hbody hprocess, hrealloc, Except.ok_bind]
  rfl

/-- An invocation leaves the meter as it was, if its callee's run does: the caller is running,
so the callee's instruction is an inner one. -/
theorem nativeInvoke_meter {instruction : Instruction} {signers : List Pubkey}
    {body : MeteredInvokeContext → Except InstructionError MeteredInvokeContext}
    (hbody : ∀ {m m'}, body m = .ok m' → m'.accountsDataMeter = m.accountsDataMeter)
    (h : mic.nativeInvoke config instruction signers body = .ok mic') :
    mic'.accountsDataMeter = mic.accountsDataMeter := by
  unfold nativeInvoke at h
  obtain ⟨⟨instructionAccounts, programIndices⟩, hprepare, h⟩ := bind_eq_ok.mp h
  obtain ⟨_, -, h⟩ := bind_eq_ok.mp h
  obtain ⟨mic₁, hprocess, h⟩ := bind_eq_ok.mp h
  obtain ⟨_, -, h⟩ := bind_eq_ok.mp h
  cases h
  have hinner : mic.transactionContext.instructionContextStack ≠ [] := by
    unfold InvokeContext.prepareInstruction at hprepare
    obtain ⟨ctx, hctx, -⟩ := bind_eq_ok.mp hprepare
    obtain ⟨rest, hrest⟩ := TransactionContext.getCurrentInstructionContext_eq_ok.mp hctx
    rw [hrest]
    exact List.cons_ne_nil ctx rest
  exact processInstruction_inner_meter hinner hbody hprocess

end MeteredInvokeContext

namespace Metered

variable {config : InvokeConfig}

/-- A program's run does what its unmetered run does and leaves the meter as it was, whatever
it writes and invokes. -/
theorem runScript_eq_ok :
    ∀ (script : Script) {mic mic' : MeteredInvokeContext}, runScript config script mic = .ok mic' →
      Solana.Runtime.runScript config script mic.toInvokeContext = .ok mic'.toInvokeContext ∧
        mic'.accountsDataMeter = mic.accountsDataMeter
  | .ok, _, _, h => by
    cases h
    exact ⟨rfl, rfl⟩
  | .fail _, _, _, h => by cases h
  | .write index account rest, mic, mic', h => by
    obtain ⟨ic, hwrite, h⟩ := bind_eq_ok.mp h
    obtain ⟨hrest, hmeter⟩ := runScript_eq_ok rest h
    refine ⟨?_, hmeter⟩
    simp only [Solana.Runtime.runScript, hwrite, Except.ok_bind]
    exact hrest
  | .invoke instruction signers callee rest, mic, mic', h => by
    obtain ⟨mic₁, hinvoke, h⟩ := bind_eq_ok.mp h
    obtain ⟨hrest, hmeter⟩ := runScript_eq_ok rest h
    have hcallee : ∀ {m m' : MeteredInvokeContext}, runScript config callee m = .ok m' →
        Solana.Runtime.runScript config callee m.toInvokeContext = .ok m'.toInvokeContext ∧
          m'.accountsDataMeter = m.accountsDataMeter :=
      fun hm => runScript_eq_ok callee hm
    refine ⟨?_, hmeter.trans (MeteredInvokeContext.nativeInvoke_meter (fun hm => (hcallee hm).2)
      hinvoke)⟩
    simp only [Solana.Runtime.runScript,
      MeteredInvokeContext.nativeInvoke_eq_ok (fun hm => (hcallee hm).1) hinvoke, Except.ok_bind]
    exact hrest

/-- The metered loop over a message's instructions does what the unmetered one does. -/
theorem processMessageLoop_eq_ok (message : InvokeMessage) :
    ∀ (instructions : List (CompiledInstruction × List ℕ × Script)) (instructionIndex : ℕ)
      {mic mic' : MeteredInvokeContext},
      processMessageLoop config message instructionIndex instructions mic = some (.ok mic') →
      Solana.Runtime.processMessageLoop config message instructionIndex instructions
        mic.toInvokeContext = some (.ok mic'.toInvokeContext)
  | [], _, _, _, h => by
    cases h
    rfl
  | (instruction, programIndices, script) :: rest, instructionIndex, mic, mic', h => by
    unfold processMessageLoop at h
    unfold Solana.Runtime.processMessageLoop
    split at h
    case isTrue hprecompile =>
      rw [if_pos hprecompile]
      exact processMessageLoop_eq_ok message rest _ h
    case isFalse hprecompile =>
    rw [if_neg hprecompile]
    unfold storeInstructionIndex at h
    cases hstore : Solana.Runtime.storeInstructionIndex mic.toInvokeContext instructionIndex with
    | none => simp [hstore] at h
    | some stored =>
    cases stored with
    | error err => simp [hstore, Except.map] at h
    | ok ic =>
    simp only [hstore, Option.map_some, Except.map] at h
    dsimp only at h ⊢
    split at h
    case h_1 => cases h
    case h_2 mic₁ hprocess =>
    rw [MeteredInvokeContext.processInstruction_eq_ok (fun hm => (runScript_eq_ok script hm).1)
      hprocess]
    exact processMessageLoop_eq_ok message rest _ h

/-- What the metered `process_message` does to the accounts, the unmetered one does. -/
theorem processMessage_eq_ok {message : InvokeMessage} {programIndices : List (List ℕ)}
    {scripts : List Script} {tc tc' : TransactionContext} {currentAccountsDataLen len : ℕ}
    (h : processMessage config message programIndices scripts tc currentAccountsDataLen =
      some (.ok (tc', len))) :
    Solana.Runtime.processMessage config message programIndices scripts tc = some (.ok tc') := by
  unfold processMessage at h
  obtain ⟨result, hresult, hmap⟩ := Option.map_eq_some_iff.mp h
  obtain ⟨mic', rfl, hmic'⟩ := Except.map_eq_ok.mp hmap
  obtain ⟨rfl, -⟩ := Prod.mk.inj hmic'
  unfold Solana.Runtime.processMessage
  rw [processMessageLoop_eq_ok message _ 0 hresult]
  rfl

/-- A program grows the data of its writable account by four bytes and then invokes another
program with that account: the message succeeds with the account four bytes longer, and the
meter reports the accounts data length it started with. -/
theorem processMessage_misses_growth_before_invoke :
    let config : InvokeConfig := ⟨Rent.default, 4, true, []⟩
    let program : Account := ⟨1, .bytes [], 4, true, 0⟩
    let account : Account := ⟨10, .bytes [], 6, false, 0⟩
    let grown : Account := { account with data := .bytes [0, 0, 0, 0] }
    let message : InvokeMessage := ⟨fun _ => false, fun j => decide (j = 1), [⟨0, [1, 2]⟩]⟩
    let script : Script := .write 0 grown (.invoke ⟨8, [⟨7, false, true⟩]⟩ [] .ok .ok)
    let tc : TransactionContext := ⟨[6, 7, 8], [program, account, program], [], 5⟩
    grown.data.len = account.data.len + 4 ∧
      ∀ currentAccountsDataLen, processMessage config message [[0]] [script] tc currentAccountsDataLen =
        some (.ok ({ tc with accounts := [program, grown, program] }, currentAccountsDataLen)) := by
  intro config program account grown message script tc
  refine ⟨rfl, fun currentAccountsDataLen => ?_⟩
  rfl

/-- The same program without the invocation: the growth is metered. -/
theorem processMessage_meters_growth_without_invoke :
    let config : InvokeConfig := ⟨Rent.default, 4, true, []⟩
    let program : Account := ⟨1, .bytes [], 4, true, 0⟩
    let account : Account := ⟨10, .bytes [], 6, false, 0⟩
    let grown : Account := { account with data := .bytes [0, 0, 0, 0] }
    let message : InvokeMessage := ⟨fun _ => false, fun j => decide (j = 1), [⟨0, [1, 2]⟩]⟩
    let tc : TransactionContext := ⟨[6, 7, 8], [program, account, program], [], 5⟩
    processMessage config message [[0]] [.write 0 grown .ok] tc 1000 =
      some (.ok ({ tc with accounts := [program, grown, program] }, 1004)) := by
  decide +kernel

/-- The unmetered runtime agrees with the metered one on the growth above. -/
theorem processMessage_eq_ok_growth :
    let config : InvokeConfig := ⟨Rent.default, 4, true, []⟩
    let program : Account := ⟨1, .bytes [], 4, true, 0⟩
    let account : Account := ⟨10, .bytes [], 6, false, 0⟩
    let grown : Account := { account with data := .bytes [0, 0, 0, 0] }
    let message : InvokeMessage := ⟨fun _ => false, fun j => decide (j = 1), [⟨0, [1, 2]⟩]⟩
    let tc : TransactionContext := ⟨[6, 7, 8], [program, account, program], [], 5⟩
    processMessage config message [[0]] [.write 0 grown .ok] tc 1000 =
        some (.ok ({ tc with accounts := [program, grown, program] }, 1004)) ∧
      Solana.Runtime.processMessage config message [[0]] [.write 0 grown .ok] tc =
        some (.ok { tc with accounts := [program, grown, program] }) := by
  intro config program account grown message tc
  have hmetered : processMessage config message [[0]] [.write 0 grown .ok] tc 1000 =
      some (.ok ({ tc with accounts := [program, grown, program] }, 1004)) :=
    processMessage_meters_growth_without_invoke
  exact ⟨hmetered, processMessage_eq_ok hmetered⟩

end Metered

end Solana.Runtime
