import Solana.Vote.Update

/-! `Tower` of `core/src/consensus.rs`, with the fields voting reads and writes;
`is_locked_out` is `none` where its assertion fails. -/

namespace Solana.Consensus

open VoteProgram

structure Tower where
  voteState : VoteState
  lastVote : Vote
  deriving DecidableEq

namespace Tower

/-- `Tower::default`: `VoteState::root_slot` is set to `Slot::default()`. -/
def default : Tower := ⟨{ VoteState.default with rootSlot := some 0 }, ⟨[], 0, none⟩⟩

/-- `Tower::root`, the root slot of the vote state, which the source unwraps. -/
def root (t : Tower) : Option ℕ := t.voteState.rootSlot

def lastVotedSlot (t : Tower) : Option ℕ := t.lastVote.slots.getLast?

/-- A slot is recent if it is newer than the last vote of the vote state. -/
def isRecent (t : Tower) (slot : ℕ) : Bool :=
  match t.voteState.lastVotedSlot with
  | some lastVotedSlot => decide (lastVotedSlot < slot)
  | none => true

/-- `is_locked_out`: a vote for `slot` is simulated to pop the expired votes; any vote
left on another fork locks the slot out. `none` is the failure of the assertion that
the root is an ancestor of the slot. -/
def isLockedOut (t : Tower) (slot : ℕ) (ancestors : List ℕ) : Option Bool :=
  if !t.isRecent slot then some true
  else
    let voteState := t.voteState.processSlotVoteUnchecked slot
    if voteState.votes.any (fun vote => slot ≠ vote.slot && !ancestors.contains vote.slot) then
      some true
    else
      match voteState.rootSlot with
      | some rootSlot =>
        if slot ≠ rootSlot && !ancestors.contains rootSlot then none else some false
      | none => some false

/-- `apply_vote_and_generate_vote_diff`: the vote state after the vote, and the vote to
send, with the tower's slots above the last vote the bank has seen. -/
def applyVoteAndGenerateVoteDiff (localVoteState : VoteState) (slot : ℕ) (hash : Hash)
    (lastVotedSlotInBank : Option ℕ) : VoteState × Vote :=
  let localVoteState := localVoteState.processVoteUnchecked ⟨[slot], hash, none⟩
  let slots :=
    match lastVotedSlotInBank with
    | some lastVotedSlot => (localVoteState.votes.map (·.slot)).dropWhile (· ≤ lastVotedSlot)
    | none => localVoteState.votes.map (·.slot)
  (localVoteState, ⟨slots, hash, none⟩)

/-- `record_bank_vote_and_update_lockouts`, returning the tower and the new root if the
vote made one. -/
def recordBankVoteAndUpdateLockouts (t : Tower) (voteSlot : ℕ) (voteHash : Hash)
    (lastVotedSlotInBank : Option ℕ) : Tower × Option ℕ :=
  let oldRoot := t.root
  let (voteState, newVote) :=
    applyVoteAndGenerateVoteDiff t.voteState voteSlot voteHash lastVotedSlotInBank
  let t' : Tower := ⟨voteState, newVote⟩
  (t', if oldRoot ≠ t'.root then t'.root else none)

def recordVote (t : Tower) (slot : ℕ) (hash : Hash) : Tower × Option ℕ :=
  t.recordBankVoteAndUpdateLockouts slot hash t.lastVotedSlot

/-! ## What a vote does to the vote state -/

theorem isRecent_iff (t : Tower) (slot : ℕ) :
    t.isRecent slot = true ↔ ¬t.voteState.lastVotedSlot.any (fun last => slot ≤ last) := by
  unfold isRecent
  cases t.voteState.lastVotedSlot with
  | none => simp
  | some last => simp

/-- Recording a vote applies `process_next_vote_slot` to the vote state. -/
theorem recordVote_voteState (t : Tower) (slot : ℕ) (hash : Hash) :
    (t.recordVote slot hash).1.voteState =
      t.voteState.processNextVoteSlot slot t.voteState.currentEpoch := by
  show (t.voteState.processVoteUnchecked ⟨[slot], hash, none⟩) = _
  exact VoteState.processVoteUnchecked_singleton _ _ _ _

theorem recordVote_root (t : Tower) (slot : ℕ) (hash : Hash) :
    (t.recordVote slot hash).1.root =
      (t.voteState.processNextVoteSlot slot t.voteState.currentEpoch).rootSlot := by
  rw [root, recordVote_voteState]

theorem lt_of_isRecent {t : Tower} {slot last : ℕ} (h : t.isRecent slot = true)
    (hlast : t.voteState.lastVotedSlot = some last) : last < slot := by
  simpa [isRecent, hlast] using h

/-- The simulated vote of `is_locked_out` is the vote that recording makes. -/
theorem processSlotVoteUnchecked_eq (t : Tower) (slot : ℕ) :
    t.voteState.processSlotVoteUnchecked slot =
      t.voteState.processNextVoteSlot slot t.voteState.currentEpoch :=
  VoteState.processVoteUnchecked_singleton _ _ _ _

/-- The votes left by the simulated vote of a slot that passes the check are the slot
itself or its ancestors. -/
theorem votes_of_isLockedOut_ne_true {t : Tower} {slot : ℕ} {ancestors : List ℕ}
    (h : t.isLockedOut slot ancestors ≠ some true) :
    t.isRecent slot = true ∧
      ∀ v ∈ (t.voteState.processNextVoteSlot slot t.voteState.currentEpoch).votes,
        v.slot = slot ∨ v.slot ∈ ancestors := by
  unfold isLockedOut at h
  dsimp only at h
  rw [processSlotVoteUnchecked_eq] at h
  split_ifs at h with hrecent hany
  · exact absurd rfl h
  · exact absurd rfl h
  · refine ⟨by simpa using hrecent, fun v hv => ?_⟩
    by_contra hcon
    rw [not_or] at hcon
    exact hany (List.any_eq_true.mpr ⟨v, hv, by simp [Ne.symm hcon.1, hcon.2]⟩)

/-- `is_locked_out` returns `false` for a recent slot after whose simulated vote every
other vote and the root are ancestors of the slot. -/
theorem isLockedOut_eq_some_false {t : Tower} {slot : ℕ} {ancestors : List ℕ}
    (h : t.isLockedOut slot ancestors = some false) :
    t.isRecent slot = true ∧
      (∀ v ∈ (t.voteState.processNextVoteSlot slot t.voteState.currentEpoch).votes,
        v.slot = slot ∨ v.slot ∈ ancestors) ∧
      ∀ r, (t.voteState.processNextVoteSlot slot t.voteState.currentEpoch).rootSlot = some r →
        r = slot ∨ r ∈ ancestors := by
  obtain ⟨hrecent, hvotes⟩ := votes_of_isLockedOut_ne_true (ne_of_eq_of_ne h (by decide))
  refine ⟨hrecent, hvotes, fun r hr => ?_⟩
  unfold isLockedOut at h
  dsimp only at h
  rw [processSlotVoteUnchecked_eq, hr] at h
  dsimp only at h
  split_ifs at h with _ _ hfail
  · cases h
  · cases h
  · by_cases hrs : r = slot
    · exact .inl hrs
    · simp only [Bool.and_eq_true, decide_eq_true_eq, Bool.not_eq_true', not_and,
        List.contains_iff_mem, Bool.not_eq_false] at hfail
      exact .inr (hfail (Ne.symm hrs))

/-- The assertion of `is_locked_out` fails only when the root after the simulated vote
is another slot and not an ancestor. -/
theorem root_of_isLockedOut_eq_none {t : Tower} {slot : ℕ} {ancestors : List ℕ}
    (h : t.isLockedOut slot ancestors = none) :
    ∃ r, (t.voteState.processNextVoteSlot slot t.voteState.currentEpoch).rootSlot = some r ∧
      r ≠ slot ∧ r ∉ ancestors := by
  unfold isLockedOut at h
  dsimp only at h
  rw [processSlotVoteUnchecked_eq] at h
  split_ifs at h
  split at h
  · rename_i r hr
    split_ifs at h with hfail
    simp only [Bool.and_eq_true, decide_eq_true_eq, Bool.not_eq_true'] at hfail
    exact ⟨r, hr, Ne.symm hfail.1, by simpa using hfail.2⟩
  · cases h

end Tower

end Solana.Consensus
