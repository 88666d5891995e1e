import Solana.Vote.Update

/-! The handlers of `vote_state/mod.rs` and the dispatch of `vote_processor.rs`; a failed
instruction changes nothing. -/

namespace Solana.VoteProgram

open MachineInt

inductive VoteAuthorize where
  | voter
  | withdrawer
  deriving DecidableEq, Repr

def verifyAuthorizedSigner (authorized : Pubkey) (signers : List Pubkey) :
    Except InstructionError Unit :=
  if authorized ∈ signers then .ok () else .error .missingRequiredSignature

/-- A vote error raised through `?` in a handler. -/
def liftVoteError {α : Type} (e : Except VoteError α) : Fallible InstructionError α :=
  Fallible.ofExcept (e.mapError VoteError.toInstructionError)

theorem liftVoteError_eq_ok {α : Type} {e : Except VoteError α} {a : α}
    (h : (liftVoteError e).run = some (.ok a)) : e = .ok a := by
  unfold liftVoteError at h
  rw [Fallible.run_ofExcept, Option.some.injEq] at h
  cases e with
  | error _ => cases h
  | ok _ => simpa [Except.mapError] using h

namespace VoteState

/-- `get_and_update_authorized_voter`: the voter of `currentEpoch`, cached, with the
voters of earlier epochs purged. -/
def getAndUpdateAuthorizedVoter (s : VoteState) (currentEpoch : ℕ) :
    Fallible InstructionError (Pubkey × VoteState) := do
  let (voter, cached) := s.authorizedVoters.getAndCacheAuthorizedVoterForEpoch currentEpoch
  let some pubkey := voter | throw .invalidAccountData
  let some purged := cached.purgeAuthorizedVoters currentEpoch | Fallible.abort
  return (pubkey, { s with authorizedVoters := purged })

/-- Getting the voter of an epoch changes only the authorized voters. -/
theorem getAndUpdateAuthorizedVoter_eq_ok {s s' : VoteState} {currentEpoch : ℕ} {pubkey : Pubkey}
    (h : (s.getAndUpdateAuthorizedVoter currentEpoch).run = some (.ok (pubkey, s'))) :
    ∃ authorizedVoters, s' = { s with authorizedVoters := authorizedVoters } := by
  unfold getAndUpdateAuthorizedVoter at h
  dsimp only at h
  split at h
  · split at h
    · simp only [Fallible.run_pure, Option.some.injEq, Except.ok.injEq, Prod.mk.injEq] at h
      exact ⟨_, h.2.symm⟩
    · simp at h
  · simp at h

def setNewAuthorizedVoter (s : VoteState) (authorizedPubkey : Pubkey) (currentEpoch targetEpoch : ℕ)
    (verify : Pubkey → Except InstructionError Unit) : Fallible InstructionError VoteState := do
  let (epochAuthorizedVoter, s) ← s.getAndUpdateAuthorizedVoter currentEpoch
  Fallible.ofExcept (verify epochAuthorizedVoter)
  if s.authorizedVoters.contains targetEpoch then
    throw VoteError.tooSoonToReauthorize.toInstructionError
  let some (latestEpoch, latestAuthorizedPubkey) := s.authorizedVoters.last
    | throw .invalidAccountData
  let priorVoters ←
    if latestAuthorizedPubkey ≠ authorizedPubkey then do
      let epochOfLastAuthorizedSwitch := ((s.priorVoters.last).map (·.2.2)).getD 0
      Fallible.assert (latestEpoch < targetEpoch)
      pure (s.priorVoters.append (latestAuthorizedPubkey, epochOfLastAuthorizedSwitch, targetEpoch))
    else pure s.priorVoters
  return { s with
    priorVoters := priorVoters
    authorizedVoters := s.authorizedVoters.insert targetEpoch authorizedPubkey }

theorem setNewAuthorizedVoter_eq_ok {s s' : VoteState} {authorizedPubkey : Pubkey}
    {currentEpoch targetEpoch : ℕ} {verify : Pubkey → Except InstructionError Unit}
    (h : (s.setNewAuthorizedVoter authorizedPubkey currentEpoch targetEpoch verify).run =
      some (.ok s')) :
    ∃ authorizedVoters priorVoters,
      s' = { s with authorizedVoters := authorizedVoters, priorVoters := priorVoters } := by
  unfold setNewAuthorizedVoter at h
  obtain ⟨⟨_, s₁⟩, h₁, h⟩ := Fallible.run_bind_eq_ok.mp h
  obtain ⟨av, rfl⟩ := getAndUpdateAuthorizedVoter_eq_ok h₁
  dsimp only at h
  obtain ⟨_, _, h⟩ := Fallible.run_bind_eq_ok.mp h
  split at h
  · simp at h
  split at h
  · split at h
    · obtain ⟨_, _, h⟩ := Fallible.run_bind_eq_ok.mp h
      obtain ⟨pv, _, h⟩ := Fallible.run_bind_eq_ok.mp h
      simp only [Fallible.run_pure, Option.some.injEq, Except.ok.injEq] at h
      exact ⟨_, pv, h.symm⟩
    · obtain ⟨pv, _, h⟩ := Fallible.run_bind_eq_ok.mp h
      simp only [Fallible.run_pure, Option.some.injEq, Except.ok.injEq] at h
      exact ⟨_, pv, h.symm⟩
  · simp at h

end VoteState

def authorize (s : VoteState) (authorized : Pubkey) (voteAuthorize : VoteAuthorize)
    (signers : List Pubkey) (clock : Clock) (featureSet : FeatureSet) :
    Fallible InstructionError VoteState :=
  match voteAuthorize with
  | .voter =>
    let authorizedWithdrawerSigner :=
      featureSet.voteWithdrawAuthorityMayChangeAuthorizedVoter &&
        (verifyAuthorizedSigner s.authorizedWithdrawer signers).toBool
    s.setNewAuthorizedVoter authorized clock.epoch (wrappingAdd 64 clock.leaderScheduleEpoch 1)
      fun epochAuthorizedVoter =>
        if authorizedWithdrawerSigner then .ok ()
        else verifyAuthorizedSigner epochAuthorizedVoter signers
  | .withdrawer => do
    Fallible.ofExcept (verifyAuthorizedSigner s.authorizedWithdrawer signers)
    return { s with authorizedWithdrawer := authorized }

theorem authorize_eq_ok {s s' : VoteState} {authorized : Pubkey} {voteAuthorize : VoteAuthorize}
    {signers : List Pubkey} {clock : Clock} {featureSet : FeatureSet}
    (h : (authorize s authorized voteAuthorize signers clock featureSet).run = some (.ok s')) :
    ∃ authorizedVoters priorVoters authorizedWithdrawer, s' =
      { s with
        authorizedVoters := authorizedVoters
        priorVoters := priorVoters
        authorizedWithdrawer := authorizedWithdrawer } := by
  unfold authorize at h
  cases voteAuthorize with
  | voter =>
    obtain ⟨authorizedVoters, priorVoters, rfl⟩ := VoteState.setNewAuthorizedVoter_eq_ok h
    exact ⟨authorizedVoters, priorVoters, s.authorizedWithdrawer, rfl⟩
  | withdrawer =>
    obtain ⟨_, _, h⟩ := Fallible.run_bind_eq_ok.mp h
    simp only [Fallible.run_pure, Option.some.injEq, Except.ok.injEq] at h
    exact ⟨s.authorizedVoters, s.priorVoters, authorized, h.symm⟩

def updateValidatorIdentity (s : VoteState) (nodePubkey : Pubkey) (signers : List Pubkey) :
    Except InstructionError VoteState := do
  verifyAuthorizedSigner s.authorizedWithdrawer signers
  verifyAuthorizedSigner nodePubkey signers
  return { s with nodePubkey := nodePubkey }

theorem updateValidatorIdentity_eq_ok {s s' : VoteState} {nodePubkey : Pubkey}
    {signers : List Pubkey} (h : updateValidatorIdentity s nodePubkey signers = .ok s') :
    s' = { s with nodePubkey := nodePubkey } := by
  unfold updateValidatorIdentity at h
  obtain ⟨_, _, h⟩ := Except.bind_eq_ok.mp h
  obtain ⟨_, _, h⟩ := Except.bind_eq_ok.mp h
  exact (Except.ok.inj h).symm

def updateCommission (s : VoteState) (commission : ℕ) (signers : List Pubkey) :
    Except InstructionError VoteState := do
  verifyAuthorizedSigner s.authorizedWithdrawer signers
  return { s with commission := commission }

theorem updateCommission_eq_ok {s s' : VoteState} {commission : ℕ}
    {signers : List Pubkey} (h : updateCommission s commission signers = .ok s') :
    s' = { s with commission := commission } := by
  unfold updateCommission at h
  obtain ⟨_, _, h⟩ := Except.bind_eq_ok.mp h
  exact (Except.ok.inj h).symm

/-- A vote account: its state, its lamports and the length of its data. -/
structure VoteAccount where
  state : VoteState
  lamports : ℕ
  dataLen : ℕ
  deriving DecidableEq

/-- `withdraw`, returning the vote account and the lamports of the destination.
`minimumBalance` is the rent-exempt minimum of the account's data length when the
rent sysvar is passed; `clockEpoch` the epoch when the clock is. -/
def withdraw (account : VoteAccount) (lamports toLamports : ℕ) (signers : List Pubkey)
    (minimumBalance : Option ℕ) (clockEpoch : Option ℕ) :
    Except InstructionError (VoteAccount × ℕ) := do
  verifyAuthorizedSigner account.state.authorizedWithdrawer signers
  let some remainingBalance := checkedSub account.lamports lamports
    | throw .insufficientFunds
  let state ← (
    if remainingBalance = 0 then
      let rejectActiveVoteAccountClose :=
        match clockEpoch, account.state.epochCredits.getLast? with
        | some currentEpoch, some (lastEpochWithCredits, _, _) =>
          decide (currentEpoch - lastEpochWithCredits < 2)
        | _, _ => false
      if rejectActiveVoteAccountClose then throw .activeVoteAccountClose
      else pure VoteState.default
    else
      match minimumBalance with
      | some minRentExemptBalance =>
        if remainingBalance < minRentExemptBalance then throw .insufficientFunds
        else pure account.state
      | none => pure account.state : Except InstructionError VoteState)
  let some toBalance := checkedAdd 64 toLamports lamports | throw .arithmeticOverflow
  return (⟨state, remainingBalance, account.dataLen⟩, toBalance)

/-- A withdrawal keeps the state, or closes the account. -/
theorem withdraw_eq_ok {account account' : VoteAccount} {lamports toLamports toBalance : ℕ}
    {signers : List Pubkey} {minimumBalance clockEpoch : Option ℕ}
    (h : withdraw account lamports toLamports signers minimumBalance clockEpoch =
      .ok (account', toBalance)) :
    account'.state = account.state ∨ account'.state = VoteState.default := by
  unfold withdraw at h
  obtain ⟨_, _, h⟩ := Except.bind_eq_ok.mp h
  split at h
  · rename_i remainingBalance _
    obtain ⟨state, hstate, h⟩ := Except.bind_eq_ok.mp h
    have hfinal : account'.state = state := by
      split at h
      · simp only [pure, Except.pure, Except.ok.injEq, Prod.mk.injEq] at h
        rw [← h.1]
      · simp at h
    rw [hfinal]
    by_cases hzero : remainingBalance = 0
    · rw [if_pos hzero] at hstate
      dsimp only at hstate
      split_ifs at hstate
      exact .inr (Except.ok.inj hstate).symm
    · rw [if_neg hzero] at hstate
      cases minimumBalance with
      | none => exact .inl (Except.ok.inj hstate).symm
      | some minRentExemptBalance =>
        dsimp only at hstate
        split_ifs at hstate
        exact .inl (Except.ok.inj hstate).symm
  · simp at h

/-- `VoteState::size_of()`: the `bincode` size of the largest current vote state behind the
4-byte tag of `VoteStateVersions::Current`, with `MAX_LOCKOUT_HISTORY` lockouts, a root, the
authorized voters of epochs `0..=MAX_LEADER_SCHEDULE_EPOCH_OFFSET` (four) and
`MAX_EPOCH_CREDITS_HISTORY` credit entries. -/
def VoteState.sizeOf : ℕ :=
  4 + 32 + 32 + 1 + (8 + 12 * maxLockoutHistory) + (1 + 8) + (8 + 40 * 4) +
    (48 * maxItems + 8 + 1) + (8 + 24 * maxEpochCreditsHistory) + 16

example : VoteState.sizeOf = 3731 := rfl

/-- `initialize_account`, after the processor's `verify_rent_exemption`: the account
must be rent exempt, of the size of a vote state and uninitialized, and the node must sign. -/
def initializeAccount (account : VoteAccount) (voteInit : VoteInit) (signers : List Pubkey)
    (clock : Clock) (minimumBalance : ℕ) : Except InstructionError VoteState := do
  if account.lamports < minimumBalance then throw .insufficientFunds
  if account.dataLen ≠ VoteState.sizeOf then throw .invalidAccountData
  if !account.state.isUninitialized then throw .accountAlreadyInitialized
  verifyAuthorizedSigner voteInit.nodePubkey signers
  return VoteState.new voteInit clock

theorem initializeAccount_eq_ok {account : VoteAccount} {voteInit : VoteInit}
    {signers : List Pubkey} {clock : Clock} {minimumBalance : ℕ} {s' : VoteState}
    (h : initializeAccount account voteInit signers clock minimumBalance = .ok s') :
    account.state.isUninitialized = true ∧ s' = VoteState.new voteInit clock := by
  unfold initializeAccount at h
  by_cases hbalance : account.lamports < minimumBalance
  · simp [hbalance] at h
  by_cases hsize : account.dataLen = VoteState.sizeOf
  · by_cases huninit : account.state.isUninitialized = true
    · simp only [hbalance, hsize, huninit, if_false, ne_eq, not_true_eq_false, Bool.not_true,
        Bool.false_eq_true] at h
      obtain ⟨_, _, h⟩ := Except.bind_eq_ok.mp h
      exact ⟨huninit, (Except.ok.inj h).symm⟩
    · simp [hbalance, hsize, huninit] at h
  · simp [hbalance, hsize] at h

/-- `verify_and_get_vote_state`: an initialized state whose voter for the epoch signed. -/
def verifyAndGetVoteState (s : VoteState) (clock : Clock) (signers : List Pubkey) :
    Fallible InstructionError VoteState := do
  if s.isUninitialized then throw .uninitializedAccount
  let (authorizedVoter, s) ← s.getAndUpdateAuthorizedVoter clock.epoch
  Fallible.ofExcept (verifyAuthorizedSigner authorizedVoter signers)
  return s

theorem verifyAndGetVoteState_eq_ok {s s' : VoteState} {clock : Clock} {signers : List Pubkey}
    (h : (verifyAndGetVoteState s clock signers).run = some (.ok s')) :
    ∃ authorizedVoters, s' = { s with authorizedVoters := authorizedVoters } := by
  unfold verifyAndGetVoteState at h
  dsimp only at h
  split at h
  · simp at h
  obtain ⟨⟨_, s₁⟩, h₁, h⟩ := Fallible.run_bind_eq_ok.mp h
  obtain ⟨authorizedVoters, rfl⟩ := VoteState.getAndUpdateAuthorizedVoter_eq_ok h₁
  obtain ⟨_, _, h⟩ := Fallible.run_bind_eq_ok.mp h
  simp only [Fallible.run_pure, Option.some.injEq, Except.ok.injEq] at h
  exact ⟨authorizedVoters, h.symm⟩

/-- The instruction `process_vote`. -/
def processVote (s : VoteState) (slotHashes : List (ℕ × Hash)) (clock : Clock) (vote : Vote)
    (signers : List Pubkey) (featureSet : FeatureSet) : Fallible InstructionError VoteState := do
  let s ← verifyAndGetVoteState s clock signers
  let s ← liftVoteError (s.processVote vote slotHashes clock.epoch (some featureSet))
  match vote.timestamp with
  | some timestamp =>
    let some slot := vote.slots.max? | liftVoteError (.error .emptySlots)
    liftVoteError (s.processTimestamp slot timestamp)
  | none => pure s

/-- A vote instruction applies the vote's slots one after another to the tower, and may
stamp the time. -/
theorem processVote_eq_ok {s s' : VoteState} {slotHashes : List (ℕ × Hash)} {clock : Clock}
    {vote : Vote} {signers : List Pubkey} {featureSet : FeatureSet}
    (h : (processVote s slotHashes clock vote signers featureSet).run = some (.ok s')) :
    ∃ (authorizedVoters : AuthorizedVoters) (slots : List ℕ) (lastTimestamp : BlockTimestamp),
      s' = { slots.foldl (fun st slot => st.processNextVoteSlot slot clock.epoch)
        { s with authorizedVoters := authorizedVoters } with lastTimestamp := lastTimestamp } := by
  unfold processVote at h
  obtain ⟨s₁, h₁, h⟩ := Fallible.run_bind_eq_ok.mp h
  obtain ⟨authorizedVoters, rfl⟩ := verifyAndGetVoteState_eq_ok h₁
  obtain ⟨s₂, h₂, h⟩ := Fallible.run_bind_eq_ok.mp h
  obtain ⟨slots, rfl⟩ := VoteState.processVote_eq_ok (liftVoteError_eq_ok h₂)
  refine ⟨authorizedVoters, slots, ?_⟩
  split at h
  · split at h
    · exact ⟨_, VoteState.processTimestamp_eq_ok (liftVoteError_eq_ok h)⟩
    · cases liftVoteError_eq_ok h
  · simp only [Fallible.run_pure, Option.some.injEq, Except.ok.injEq] at h
    exact ⟨_, h.symm⟩

def processVoteStateUpdate (s : VoteState) (slotHashes : List (ℕ × Hash)) (clock : Clock)
    (voteStateUpdate : VoteStateUpdate) (signers : List Pubkey) :
    Fallible InstructionError VoteState := do
  let s ← verifyAndGetVoteState s clock signers
  let voteStateUpdate ←
    (s.checkUpdateVoteStateSlotsAreValid voteStateUpdate slotHashes).adapt
      VoteError.toInstructionError
  (s.processNewVoteState voteStateUpdate.lockouts voteStateUpdate.root
    voteStateUpdate.timestamp clock.epoch).adapt VoteError.toInstructionError

/-- An update of the whole tower replaces it through `process_new_vote_state`. -/
theorem processVoteStateUpdate_eq_ok {s s' : VoteState} {slotHashes : List (ℕ × Hash)}
    {clock : Clock} {voteStateUpdate : VoteStateUpdate} {signers : List Pubkey}
    (h : (processVoteStateUpdate s slotHashes clock voteStateUpdate signers).run =
      some (.ok s')) :
    ∃ authorizedVoters newState newRoot timestamp,
      ({ s with authorizedVoters := authorizedVoters }.processNewVoteState newState newRoot
        timestamp clock.epoch).run = some (.ok s') := by
  unfold processVoteStateUpdate at h
  obtain ⟨s₁, h₁, h⟩ := Fallible.run_bind_eq_ok.mp h
  obtain ⟨authorizedVoters, rfl⟩ := verifyAndGetVoteState_eq_ok h₁
  obtain ⟨update, _, h⟩ := Fallible.run_bind_eq_ok.mp h
  exact ⟨authorizedVoters, _, _, _, Fallible.run_adapt_eq_ok.mp h⟩

/-- The instructions that `vote_processor.rs` dispatches; `updateValidatorIdentity`
carries the key of the new identity account. -/
inductive VoteInstruction where
  | initializeAccount (voteInit : VoteInit)
  | authorize (voterPubkey : Pubkey) (voteAuthorize : VoteAuthorize)
  | vote (vote : Vote)
  | withdraw (lamports : ℕ)
  | updateValidatorIdentity (nodePubkey : Pubkey)
  | updateCommission (commission : ℕ)
  | voteSwitch (vote : Vote) (proofHash : Hash)
  | updateVoteState (voteStateUpdate : VoteStateUpdate)
  | updateVoteStateSwitch (voteStateUpdate : VoteStateUpdate) (proofHash : Hash)
  deriving DecidableEq

/-- What an instruction reads besides the vote account: the sysvars, the signers, the
active features, the rent-exempt minimum of the account's data length and the
lamports of a withdrawal's destination. -/
structure InvokeEnv where
  slotHashes : List (ℕ × Hash)
  clock : Clock
  signers : List Pubkey
  featureSet : FeatureSet
  minimumBalance : ℕ
  toLamports : ℕ

/-- `process_instruction` of the vote program on the vote account. -/
def processInstruction (env : InvokeEnv) (account : VoteAccount) :
    VoteInstruction → Fallible InstructionError VoteAccount
  | .initializeAccount voteInit => do
    let s ← Fallible.ofExcept
      (initializeAccount account voteInit env.signers env.clock env.minimumBalance)
    return { account with state := s }
  | .authorize voterPubkey voteAuthorize => do
    let s ← authorize account.state voterPubkey voteAuthorize env.signers env.clock env.featureSet
    return { account with state := s }
  | .updateValidatorIdentity nodePubkey => do
    let s ← Fallible.ofExcept (updateValidatorIdentity account.state nodePubkey env.signers)
    return { account with state := s }
  | .updateCommission commission => do
    let s ← Fallible.ofExcept (updateCommission account.state commission env.signers)
    return { account with state := s }
  | .vote vote | .voteSwitch vote _ => do
    let s ← processVote account.state env.slotHashes env.clock vote env.signers env.featureSet
    return { account with state := s }
  | .updateVoteState voteStateUpdate | .updateVoteStateSwitch voteStateUpdate _ => do
    if env.featureSet.allowVotesToDirectlyUpdateVoteState then
      let s ← processVoteStateUpdate account.state env.slotHashes env.clock voteStateUpdate
        env.signers
      return { account with state := s }
    else throw .invalidInstructionData
  | .withdraw lamports => do
    let minimumBalance :=
      if env.featureSet.rejectNonRentExemptVoteWithdraws then some env.minimumBalance else none
    let clockEpoch :=
      if env.featureSet.rejectVoteAccountCloseUnlessZeroCreditEpoch then some env.clock.epoch
      else none
    let (account, _) ← Fallible.ofExcept
      (withdraw account lamports env.toLamports env.signers minimumBalance clockEpoch)
    return account

/-- The shape of every handler but `withdraw`: compute a state, write it to the account. -/
theorem run_bind_setState_eq_ok {account account' : VoteAccount}
    {x : Fallible InstructionError VoteState}
    (h : (do let s ← x; return { account with state := s } : Fallible InstructionError VoteAccount).run =
      some (.ok account')) :
    ∃ s, x.run = some (.ok s) ∧ account'.state = s := by
  obtain ⟨s, hs, h⟩ := Fallible.run_bind_eq_ok.mp h
  simp only [Fallible.run_pure, Option.some.injEq, Except.ok.injEq] at h
  exact ⟨s, hs, by rw [← h]⟩

/-- What an instruction that succeeds does to the state of the account. -/
theorem processInstruction_eq_ok {env : InvokeEnv} {account account' : VoteAccount}
    {ix : VoteInstruction} (h : (processInstruction env account ix).run = some (.ok account')) :
    (account'.state.votes = account.state.votes ∧
        account'.state.rootSlot = account.state.rootSlot) ∨
    (account.state.isUninitialized = true ∧
        ∃ voteInit, account'.state = VoteState.new voteInit env.clock) ∨
    account'.state = VoteState.default ∨
    (∃ (s : VoteState) (slots : List ℕ) (lastTimestamp : BlockTimestamp),
        s.votes = account.state.votes ∧ s.rootSlot = account.state.rootSlot ∧
        account'.state = { slots.foldl (fun st slot => st.processNextVoteSlot slot env.clock.epoch) s
          with lastTimestamp := lastTimestamp }) ∨
    (∃ (s : VoteState) (newState : List Lockout) (newRoot : Option ℕ) (timestamp : Option ℤ),
        s.rootSlot = account.state.rootSlot ∧
        (s.processNewVoteState newState newRoot timestamp env.clock.epoch).run =
          some (.ok account'.state)) := by
  cases ix with
  | initializeAccount voteInit =>
    obtain ⟨s, hs, hstate⟩ := run_bind_setState_eq_ok h
    rw [Fallible.run_ofExcept, Option.some.injEq] at hs
    obtain ⟨huninit, rfl⟩ := initializeAccount_eq_ok hs
    exact .inr (.inl ⟨huninit, voteInit, hstate⟩)
  | authorize voterPubkey voteAuthorize =>
    obtain ⟨s, hs, hstate⟩ := run_bind_setState_eq_ok h
    obtain ⟨_, _, _, rfl⟩ := authorize_eq_ok hs
    exact .inl ⟨by rw [hstate], by rw [hstate]⟩
  | updateValidatorIdentity nodePubkey =>
    obtain ⟨s, hs, hstate⟩ := run_bind_setState_eq_ok h
    rw [Fallible.run_ofExcept, Option.some.injEq] at hs
    rw [updateValidatorIdentity_eq_ok hs] at hstate
    exact .inl ⟨by rw [hstate], by rw [hstate]⟩
  | updateCommission commission =>
    obtain ⟨s, hs, hstate⟩ := run_bind_setState_eq_ok h
    rw [Fallible.run_ofExcept, Option.some.injEq] at hs
    rw [updateCommission_eq_ok hs] at hstate
    exact .inl ⟨by rw [hstate], by rw [hstate]⟩
  | vote vote | voteSwitch vote _ =>
    obtain ⟨s, hs, hstate⟩ := run_bind_setState_eq_ok h
    obtain ⟨authorizedVoters, slots, lastTimestamp, rfl⟩ := processVote_eq_ok hs
    exact .inr (.inr (.inr (.inl ⟨{ account.state with authorizedVoters := authorizedVoters },
      slots, lastTimestamp, rfl, rfl, hstate⟩)))
  | updateVoteState voteStateUpdate | updateVoteStateSwitch voteStateUpdate _ =>
    simp only [processInstruction] at h
    split at h
    · obtain ⟨s, hs, hstate⟩ := run_bind_setState_eq_ok h
      obtain ⟨authorizedVoters, newState, newRoot, timestamp, hnew⟩ := processVoteStateUpdate_eq_ok hs
      exact .inr (.inr (.inr (.inr ⟨{ account.state with authorizedVoters := authorizedVoters },
        newState, newRoot, timestamp, rfl, hstate ▸ hnew⟩)))
    · simp at h
  | withdraw lamports =>
    obtain ⟨⟨account'', toBalance⟩, hw, h⟩ := Fallible.run_bind_eq_ok.mp h
    rw [Fallible.run_ofExcept, Option.some.injEq] at hw
    simp only [Fallible.run_pure, Option.some.injEq, Except.ok.injEq] at h
    subst h
    rcases withdraw_eq_ok hw with hkeep | hclose
    · exact .inl ⟨by rw [hkeep], by rw [hkeep]⟩
    · exact .inr (.inr (.inl hclose))

/-- The vote account after an instruction that succeeds. An instruction that fails or
aborts gives `none`: the runtime then writes nothing back. -/
def step (account : VoteAccount) (action : InvokeEnv × VoteInstruction) : Option VoteAccount :=
  match (processInstruction action.1 account action.2).run with
  | some (.ok account') => some account'
  | _ => none

theorem step_eq_some {account account' : VoteAccount} {action : InvokeEnv × VoteInstruction} :
    step account action = some account' ↔
      (processInstruction action.1 account action.2).run = some (.ok account') := by
  unfold step
  split <;> simp_all

/-- The vote account after a transaction that carries one instruction: what the instruction
writes when it succeeds, the account as it was when it fails, and `none` when the program
aborts. -/
def execute (account : VoteAccount) (action : InvokeEnv × VoteInstruction) : Option VoteAccount :=
  match (processInstruction action.1 account action.2).run with
  | some (.ok account') => some account'
  | some (.error _) => some account
  | none => none

end Solana.VoteProgram
