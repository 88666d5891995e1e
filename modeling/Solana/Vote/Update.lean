import Solana.Vote.State
import Solana.Lib.Fallible

/-! `process_vote` and `process_new_vote_state` with their checks; an index of the source is the
length of what is left of the list it walks. -/

namespace Solana.VoteProgram

namespace VoteState

/-- The loop of `check_slots_are_valid`, over the slot hashes (oldest first). While
hashes are left it skips the voted slots at or below the last vote, then either
consumes the hash alone (`j -= 1`) or the hash and the slot that matches it. It
returns the voted slots and the hashes it did not consume: `i` of the source is the
number of slots consumed, `j` the number of hashes left. -/
def checkSlotsLoop (lastVotedSlot : Option ℕ) :
    List ℕ → List (ℕ × Hash) → List ℕ × List (ℕ × Hash)
  | slots, [] => (slots, [])
  | slots, (hashSlot, hash) :: hashes =>
    match slots.dropWhile (fun slot => lastVotedSlot.any (fun last => slot ≤ last)) with
    | [] => ([], (hashSlot, hash) :: hashes)
    | slot :: rest =>
      if slot ≠ hashSlot then checkSlotsLoop lastVotedSlot (slot :: rest) hashes
      else checkSlotsLoop lastVotedSlot rest hashes
termination_by structural _ hashes => hashes

/-- `check_slots_are_valid`; `slot_hashes` is newest first. -/
def checkSlotsAreValid (s : VoteState) (voteSlots : List ℕ) (voteHash : Hash)
    (slotHashes : List (ℕ × Hash)) : Except VoteError Unit :=
  let (restSlots, restHashes) := checkSlotsLoop s.lastVotedSlot voteSlots slotHashes.reverse
  if restHashes.length = slotHashes.length then .error .voteTooOld
  else if restSlots ≠ [] then .error .slotsMismatch
  else if slotHashes[restHashes.length]!.2 ≠ voteHash then .error .slotHashMismatch
  else .ok ()

/-- `VoteState::process_vote`. A `feature_set` of `None` (the tower's unchecked votes)
keeps every voted slot. -/
def processVote (s : VoteState) (vote : Vote) (slotHashes : List (ℕ × Hash)) (epoch : ℕ)
    (featureSet : Option FeatureSet) : Except VoteError VoteState := do
  if vote.slots.isEmpty then throw .emptySlots
  let filtered := featureSet.bind fun fs =>
    if fs.filterVotesOutsideSlotHashes then
      let earliestSlotInHistory := (slotHashes.getLast?.map (·.1)).getD 0
      some (vote.slots.filter (fun slot => earliestSlotInHistory ≤ slot))
    else none
  let voteSlots := filtered.getD vote.slots
  if voteSlots.isEmpty then throw .votesTooOldAllFiltered
  s.checkSlotsAreValid voteSlots vote.hash slotHashes
  return voteSlots.foldl (fun st slot => st.processNextVoteSlot slot epoch) s

/-- A vote that passes its checks applies its slots one after another. -/
theorem processVote_eq_ok {s s' : VoteState} {vote : Vote} {slotHashes : List (ℕ × Hash)}
    {epoch : ℕ} {featureSet : Option FeatureSet}
    (h : s.processVote vote slotHashes epoch featureSet = .ok s') :
    ∃ slots : List ℕ, s' = slots.foldl (fun st slot => st.processNextVoteSlot slot epoch) s := by
  unfold processVote at h
  dsimp only at h
  split at h
  · cases h
  split at h
  · cases h
  obtain ⟨_, _, hfold⟩ := Except.bind_eq_ok.mp h
  exact ⟨_, (Except.ok.inj hfold).symm⟩

/-- `process_vote_unchecked`: a vote whose slot hashes are its own slots, at the current
epoch; an error leaves the state as it was. -/
def processVoteUnchecked (s : VoteState) (vote : Vote) : VoteState :=
  match s.processVote vote (vote.slots.reverse.map (fun slot => (slot, vote.hash)))
      s.currentEpoch none with
  | .ok s' => s'
  | .error _ => s

/-- An unchecked vote for one slot is `process_next_vote_slot` at the current epoch: the
vote passes the slot hashes made of its own slot whenever the slot is new, and is
dropped as too old otherwise. -/
theorem processVoteUnchecked_singleton (s : VoteState) (slot : ℕ) (hash : Hash)
    (timestamp : Option ℤ) :
    s.processVoteUnchecked ⟨[slot], hash, timestamp⟩ =
      s.processNextVoteSlot slot s.currentEpoch := by
  by_cases hnew : s.lastVotedSlot.any (fun last => slot ≤ last)
  · rw [processNextVoteSlot_of_le _ hnew]
    simp [processVoteUnchecked, processVote, checkSlotsAreValid, checkSlotsLoop, hnew]
  · simp [processVoteUnchecked, processVote, checkSlotsAreValid, checkSlotsLoop, hnew]

def processSlotVoteUnchecked (s : VoteState) (slot : ℕ) : VoteState :=
  s.processVoteUnchecked ⟨[slot], 0, none⟩

/-! ## Replacing the whole tower -/

def checkRootRollBack (newRoot currentRoot : Option ℕ) : Except VoteError Unit :=
  match newRoot, currentRoot with
  | some newRoot, some currentRoot =>
    if newRoot < currentRoot then .error .rootRollBack else .ok ()
  | none, some _ => .error .rootRollBack
  | _, none => .ok ()

/-- The first loop of `process_new_vote_state`, over the proposed votes with the one
before them: confirmations in `[1, MAX_LOCKOUT_HISTORY]`, slots above a non-zero
root, slots increasing, confirmations decreasing, no vote past the lockout of the
one before it. -/
def checkNewVotes (newRoot : Option ℕ) : Option Lockout → List Lockout → Except VoteError Unit
  | _, [] => .ok ()
  | previous, vote :: rest => do
    if vote.confirmationCount = 0 then throw .zeroConfirmations
    else if maxLockoutHistory < vote.confirmationCount then throw .confirmationTooLarge
    else if newRoot.any (fun root => vote.slot ≤ root ∧ root ≠ 0) then
      throw .slotSmallerThanRoot
    match previous with
    | some previous =>
      if vote.slot ≤ previous.slot then throw .slotsNotOrdered
      else if previous.confirmationCount ≤ vote.confirmationCount then
        throw .confirmationsNotOrdered
      else if previous.lastLockedOutSlot < vote.slot then throw .newVoteStateLockoutMismatch
    | none => pure ()
    checkNewVotes newRoot (some vote) rest

/-- What one accepted vote of the first loop satisfies. -/
theorem checkNewVotes_cons_eq_ok {newRoot : Option ℕ} {previous : Option Lockout} {vote : Lockout}
    {rest : List Lockout} (h : checkNewVotes newRoot previous (vote :: rest) = .ok ()) :
    0 < vote.confirmationCount ∧ vote.confirmationCount ≤ maxLockoutHistory ∧
      (∀ root, newRoot = some root → root ≠ 0 → root < vote.slot) ∧
      (∀ p, previous = some p → p.slot < vote.slot ∧
        vote.confirmationCount < p.confirmationCount ∧ vote.slot ≤ p.lastLockedOutSlot) ∧
      checkNewVotes newRoot (some vote) rest = .ok () := by
  unfold checkNewVotes at h
  dsimp only at h
  split_ifs at h with hzero hlarge hroot
  all_goals try cases h
  refine ⟨Nat.pos_of_ne_zero hzero, Nat.le_of_not_lt hlarge, ?_, ?_, ?_⟩
  · intro root hr hr0
    subst hr
    simp only [Option.any_some, decide_eq_true_eq, not_and] at hroot
    exact Nat.lt_of_not_le fun hle => hroot hle hr0
  · intro p hp
    subst hp
    dsimp only at h
    split_ifs at h with hslot hcount hlockout
    all_goals try cases h
    exact ⟨Nat.lt_of_not_le hslot, Nat.lt_of_not_le hcount, Nat.le_of_not_lt hlockout⟩
  · cases previous with
    | none => exact h
    | some p =>
      dsimp only at h
      split_ifs at h
      all_goals try cases h
      exact h

/-- The current votes above the proposed root, where the second loop starts. -/
def votesAboveRoot (votes : List Lockout) : Option ℕ → List Lockout
  | some newRoot => votes.dropWhile (fun v => v.slot ≤ newRoot)
  | none => votes

/-- The second loop of `process_new_vote_state`, over the current votes in slot order:
the proposed votes below the current one are passed (`new_vote_state_index += 1`); a
current vote missing from the proposal must have expired before the next proposed
slot, and a vote kept must not lose confirmations. -/
def checkLockoutConflicts : List Lockout → List Lockout → Except VoteError Unit
  | [], _ => .ok ()
  | current :: currents, news =>
    match news.dropWhile (fun new => new.slot < current.slot) with
    | [] => .ok ()
    | new :: rest =>
      if current.slot < new.slot then
        if new.slot ≤ current.lastLockedOutSlot then .error .lockoutConflict
        else checkLockoutConflicts currents (new :: rest)
      else if new.confirmationCount < current.confirmationCount then .error .confirmationRollBack
      else checkLockoutConflicts currents rest
termination_by structural currents => currents

def processNewVoteState (s : VoteState) (newState : List Lockout) (newRoot : Option ℕ)
    (timestamp : Option ℤ) (epoch : ℕ) : Fallible VoteError VoteState := do
  Fallible.assert (newState ≠ [])
  if maxLockoutHistory < newState.length then throw .tooManyVotes
  Fallible.ofExcept (checkRootRollBack newRoot s.rootSlot)
  Fallible.ofExcept (checkNewVotes newRoot none newState)
  Fallible.ofExcept (checkLockoutConflicts (votesAboveRoot s.votes newRoot) newState)
  let credited := if s.rootSlot ≠ newRoot then s.incrementCredits epoch else s
  let stamped ← match timestamp with
    | some timestamp => Fallible.ofExcept (credited.processTimestamp newState.getLast!.slot timestamp)
    | none => pure credited
  return { stamped with rootSlot := newRoot, votes := newState }

/-- A new tower that is accepted passed every check, and becomes the tower. -/
theorem processNewVoteState_eq_ok {s s' : VoteState} {newState : List Lockout}
    {newRoot : Option ℕ} {timestamp : Option ℤ} {epoch : ℕ}
    (h : (s.processNewVoteState newState newRoot timestamp epoch).run = some (.ok s')) :
    newState ≠ [] ∧ newState.length ≤ maxLockoutHistory ∧
      checkRootRollBack newRoot s.rootSlot = .ok () ∧ checkNewVotes newRoot none newState = .ok () ∧
      s'.votes = newState ∧ s'.rootSlot = newRoot := by
  unfold processNewVoteState at h
  dsimp only at h
  obtain ⟨_, hne, h⟩ := Fallible.run_bind_eq_ok.mp h
  have hne : newState ≠ [] := by
    by_contra hc
    simp [hc] at hne
  split at h
  · simp at h
  rename_i hlen
  obtain ⟨_, hroot, h⟩ := Fallible.run_bind_eq_ok.mp h
  obtain ⟨_, hvotes, h⟩ := Fallible.run_bind_eq_ok.mp h
  obtain ⟨_, _, h⟩ := Fallible.run_bind_eq_ok.mp h
  simp only [Fallible.run_ofExcept, Option.some.injEq] at hroot hvotes
  have hfinal : ∃ stamped : VoteState,
      s' = { stamped with votes := newState, rootSlot := newRoot } := by
    split at h
    all_goals
      obtain ⟨stamped, _, h⟩ := Fallible.run_bind_eq_ok.mp h
      exact ⟨stamped, (Except.ok.inj (Option.some.inj h)).symm⟩
  obtain ⟨stamped, rfl⟩ := hfinal
  exact ⟨hne, Nat.le_of_not_lt hlen, hroot, hvotes, rfl, rfl⟩

/-- `process_new_vote_state` as it acts on `&mut self`: the state after the call with the
result, also on an error; `none` is the failed assertion. The checks change nothing, but the
credits of a new root are incremented before the timestamp is checked. -/
def processNewVoteStateMut (s : VoteState) (newState : List Lockout) (newRoot : Option ℕ)
    (timestamp : Option ℤ) (epoch : ℕ) : Option (VoteState × Except VoteError Unit) :=
  if newState = [] then none
  else
    let checks : Except VoteError Unit :=
      if maxLockoutHistory < newState.length then .error .tooManyVotes
      else do
        checkRootRollBack newRoot s.rootSlot
        checkNewVotes newRoot none newState
        checkLockoutConflicts (votesAboveRoot s.votes newRoot) newState
    match checks with
    | .error e => some (s, .error e)
    | .ok () =>
      let s := if s.rootSlot ≠ newRoot then s.incrementCredits epoch else s
      match timestamp with
      | none => some ({ s with rootSlot := newRoot, votes := newState }, .ok ())
      | some timestamp =>
        match s.processTimestamp newState.getLast!.slot timestamp with
        | .error e => some (s, .error e)
        | .ok s => some ({ s with rootSlot := newRoot, votes := newState }, .ok ())

/-- `processNewVoteState` is the call on `&mut self` with the state dropped on an error. -/
theorem processNewVoteState_run_eq (s : VoteState) (newState : List Lockout)
    (newRoot : Option ℕ) (timestamp : Option ℤ) (epoch : ℕ) :
    (s.processNewVoteState newState newRoot timestamp epoch).run =
      (s.processNewVoteStateMut newState newRoot timestamp epoch).map
        fun r => r.2.map fun _ => r.1 := by
  unfold processNewVoteState processNewVoteStateMut
  by_cases hne : newState = []
  · simp only [hne, if_true, Option.map_none]
    rfl
  rw [if_neg hne]
  simp only [Fallible.assert, ne_eq, hne, not_false_eq_true, if_true, pure_bind]
  by_cases hlen : maxLockoutHistory < newState.length
  · simp only [hlen, if_true, Fallible.throw_bind, Fallible.run_throw, Option.map_some]
    rfl
  simp only [hlen, if_false]
  cases checkRootRollBack newRoot s.rootSlot with
  | error e => simp [Except.map]
  | ok u =>
    cases checkNewVotes newRoot none newState with
    | error e => simp [Except.map]
    | ok u' =>
      cases checkLockoutConflicts (votesAboveRoot s.votes newRoot) newState with
      | error e => simp [Except.map]
      | ok u'' =>
        simp only [Fallible.ofExcept_ok, pure_bind, Except.ok_bind]
        generalize (if s.rootSlot ≠ newRoot then s.incrementCredits epoch else s) = credited
        cases timestamp with
        | none => rfl
        | some timestamp =>
          cases hstamp : credited.processTimestamp newState.getLast!.slot timestamp with
          | error e =>
            dsimp only
            rw [hstamp]
            rfl
          | ok stamped =>
            dsimp only
            rw [hstamp]
            rfl

/-- An error leaves the state as it was, except when the root moves and the timestamp is then
refused: the credit of the new root stays. -/
theorem processNewVoteStateMut_eq_error {s s' : VoteState} {newState : List Lockout}
    {newRoot : Option ℕ} {timestamp : Option ℤ} {epoch : ℕ} {e : VoteError}
    (h : s.processNewVoteStateMut newState newRoot timestamp epoch = some (s', .error e)) :
    s' = s ∨ s.rootSlot ≠ newRoot ∧ e = .timestampTooOld ∧ s' = s.incrementCredits epoch := by
  unfold processNewVoteStateMut at h
  split at h
  · cases h
  dsimp only at h
  split at h
  · simp only [Option.some.injEq, Prod.mk.injEq] at h
    exact .inl h.1.symm
  split at h
  · simp at h
  split at h
  · rename_i hstamp
    simp only [Option.some.injEq, Prod.mk.injEq, Except.error.injEq] at h
    obtain ⟨rfl, rfl⟩ := h
    have he := VoteState.processTimestamp_eq_error hstamp
    by_cases hroot : s.rootSlot ≠ newRoot
    · exact .inr ⟨hroot, he, if_pos hroot⟩
    · exact .inl (if_neg hroot)
  · simp at h

/-- A new root with a timestamp older than the last one: the call fails with the root's
credit already added to the history. -/
theorem processNewVoteStateMut_error_keeps_credit :
    ({ VoteState.default with lastTimestamp := ⟨5, 100⟩ }).processNewVoteStateMut [⟨3, 1⟩]
        (some 1) (some 50) 0 =
      some ({ VoteState.default with lastTimestamp := ⟨5, 100⟩, epochCredits := [(0, 1, 0)] },
        .error .timestampTooOld) := by
  rfl

/-! ## Checking a proposed tower against the slot hashes -/

/-- The loop of `check_update_vote_state_slots_are_valid`, over the proposed lockouts.
`index` and `previous` are the position and the slot of the lockout before them,
`hashes` the slot hashes left (oldest first), and `atStart` says that none has been
consumed (`slot_hashes_index == slot_hashes.len()`). The iterations that only pass
a slot hash older than the lockout are the `dropWhile`. It returns the indexes of the
lockouts to filter out, with the lockouts and the hashes left. -/
def checkUpdateLoop (s : VoteState) (earliestSlotHashInHistory : ℕ) :
    ℕ → Option ℕ → List Lockout → List (ℕ × Hash) → Bool →
      Fallible VoteError (List ℕ × List Lockout × List (ℕ × Hash))
  | _, _, [], hashes, _ => pure ([], [], hashes)
  | _, _, lockouts@(_ :: _), [], _ => pure ([], lockouts, [])
  | index, previous, lockout :: lockouts, (ancestorSlot, hash) :: hashes, atStart => do
    if previous.any (fun previous => lockout.slot ≤ previous) then throw .slotsNotOrdered
    if lockout.slot < ancestorSlot then
      if atStart then
        Fallible.assert (lockout.slot < earliestSlotHashInHistory)
        let (filtered, restLockouts, restHashes) ←
          checkUpdateLoop s earliestSlotHashInHistory (index + 1) (some lockout.slot) lockouts
            ((ancestorSlot, hash) :: hashes) atStart
        return (if s.containsSlot lockout.slot then filtered else index :: filtered,
          restLockouts, restHashes)
      else throw .slotsMismatch
    else
      match ((ancestorSlot, hash) :: hashes).dropWhile (fun h => h.1 < lockout.slot) with
      | [] => pure ([], lockout :: lockouts, [])
      | (hashSlot, _) :: rest =>
        if lockout.slot < hashSlot then throw .slotsMismatch
        else
          checkUpdateLoop s earliestSlotHashInHistory (index + 1) (some lockout.slot) lockouts
            rest false
termination_by structural _ _ lockouts => lockouts

/-- The `retain` closure of `check_update_vote_state_slots_are_valid`, walking the
sorted indexes to filter alongside the lockouts. -/
def retainUnfiltered : List ℕ → ℕ → List Lockout → List Lockout
  | _, _, [] => []
  | [], _, lockouts => lockouts
  | next :: toFilter, index, lockout :: lockouts =>
    if index = next then retainUnfiltered toFilter (index + 1) lockouts
    else lockout :: retainUnfiltered (next :: toFilter) (index + 1) lockouts

def checkUpdateVoteStateSlotsAreValid (s : VoteState) (update : VoteStateUpdate)
    (slotHashes : List (ℕ × Hash)) : Fallible VoteError VoteStateUpdate := do
  if update.lockouts.isEmpty then throw .emptySlots
  let lastVoteStateUpdateSlot := update.lockouts.getLast!.slot
  if s.lastVotedSlot.any (fun last => lastVoteStateUpdateSlot ≤ last) then throw .voteTooOld
  if slotHashes.isEmpty then throw .slotsMismatch
  let earliestSlotHashInHistory := slotHashes.getLast!.1
  if lastVoteStateUpdateSlot < earliestSlotHashInHistory then throw .voteTooOld
  let update :=
    if update.root.any (fun root => root < earliestSlotHashInHistory) then
      { update with root := s.rootSlot }
    else update
  let (toFilter, restLockouts, restHashes) ←
    checkUpdateLoop s earliestSlotHashInHistory 0 none update.lockouts slotHashes.reverse true
  if restLockouts ≠ [] then throw .slotsMismatch
  let some (hashSlot, hash) := slotHashes[restHashes.length]? | Fallible.abort
  Fallible.assert (lastVoteStateUpdateSlot = hashSlot)
  if hash ≠ update.hash then throw .slotHashMismatch
  return { update with lockouts := retainUnfiltered toFilter 0 update.lockouts }

end VoteState

end Solana.VoteProgram
