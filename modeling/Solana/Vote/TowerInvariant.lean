import Solana.Vote.Instruction
import Solana.Lib.Run
import Mathlib

/-! The shape every vote account's tower keeps over any run of the vote program, and a root that
only moves forward (`towerInvariant_run`). -/

namespace Solana.VoteProgram

open VoteState (doubleLockouts popExpiredVotes)

/-- Two neighbouring votes of a tower: the newer is for a later slot, has fewer
confirmations, and lies within `2 ^ confirmation_count` slots of the older. -/
def Lockout.Stacked (older newer : Lockout) : Prop :=
  older.slot < newer.slot ∧ newer.confirmationCount < older.confirmationCount ∧
    newer.slot ≤ older.slot + 2 ^ older.confirmationCount

/-- A stack of votes as a tower keeps it. -/
structure LockoutStack (votes : List Lockout) : Prop where
  length_le : votes.length ≤ maxLockoutHistory
  stacked : votes.IsChain Lockout.Stacked
  count_pos : ∀ v ∈ votes, 0 < v.confirmationCount
  count_le : ∀ v ∈ votes, v.confirmationCount ≤ maxLockoutHistory

/-- The tower invariant: a stack, a root of `Some(r)` with `r ≠ 0` below every vote,
and no root without votes (the next vote must land above it). -/
structure TowerInvariant (votes : List Lockout) (rootSlot : Option ℕ) : Prop
    extends LockoutStack votes where
  root_lt : ∀ r, rootSlot = some r → r ≠ 0 → ∀ v ∈ votes, r < v.slot
  ne_nil_of_root : ∀ r, rootSlot = some r → votes ≠ []

/-- The root is kept or replaced by a later one; it never goes back to `None`. -/
def RootAdvance (old new : Option ℕ) : Prop :=
  ∀ r, old = some r → ∃ r', new = some r' ∧ r ≤ r'

theorem RootAdvance.refl (root : Option ℕ) : RootAdvance root root :=
  fun r h => ⟨r, h, le_rfl⟩

theorem RootAdvance.trans {a b c : Option ℕ} (hab : RootAdvance a b) (hbc : RootAdvance b c) :
    RootAdvance a c := by
  intro r ha
  obtain ⟨r', hb, hrr'⟩ := hab r ha
  obtain ⟨r'', hc, hr'r''⟩ := hbc r' hb
  exact ⟨r'', hc, hrr'.trans hr'r''⟩

theorem towerInvariant_nil : TowerInvariant [] none where
  length_le := Nat.zero_le _
  stacked := .nil
  count_pos := by simp
  count_le := by simp
  root_lt := by simp
  ne_nil_of_root := by simp

/-! ## Stacks -/

namespace LockoutStack

variable {votes : List Lockout}

/-- A part of a stack is a stack: popping from the top or the bottom keeps it. -/
theorem of_infix {part : List Lockout} (h : LockoutStack votes) (hpart : part <:+: votes) :
    LockoutStack part where
  length_le := hpart.length_le.trans h.length_le
  stacked := h.stacked.infix hpart
  count_pos v hv := h.count_pos v (hpart.subset hv)
  count_le v hv := h.count_le v (hpart.subset hv)

theorem slots_increasing (h : LockoutStack votes) : votes.Pairwise (·.slot < ·.slot) := by
  have hmap : (votes.map (·.slot)).IsChain (· < ·) :=
    (List.isChain_map _).mpr (h.stacked.imp fun _ _ hab => hab.1)
  exact List.pairwise_map.mp (List.isChain_iff_pairwise.mp hmap)

/-- The last vote has the largest slot. -/
theorem slot_le_last (h : LockoutStack votes) {v last : Lockout} (hv : v ∈ votes)
    (hlast : votes.getLast? = some last) : v.slot ≤ last.slot := by
  obtain ⟨init, rfl⟩ := List.getLast?_eq_some_iff.mp hlast
  rcases List.mem_append.mp hv with hv | hv
  · exact (List.pairwise_append.mp h.slots_increasing).2.2 v hv last (List.mem_singleton_self _)
      |>.le
  · rw [List.mem_singleton.mp hv]

/-- The first vote has the smallest slot. -/
theorem head_slot_lt {v : Lockout} {rest : List Lockout} (h : LockoutStack (v :: rest))
    {w : Lockout} (hw : w ∈ rest) : v.slot < w.slot :=
  List.rel_of_pairwise_cons h.slots_increasing hw

end LockoutStack

/-! ## Doubling -/

section Doubling

variable {older newer : Lockout} {stackDepth i : ℕ}

theorem le_confirmationCount_doubleAt (l : Lockout) :
    l.confirmationCount ≤ (l.doubleAt stackDepth i).confirmationCount := by
  rw [Lockout.confirmationCount_doubleAt]
  split <;> omega

/-- A doubled count stays within the depth of the stack. -/
theorem confirmationCount_doubleAt_le {l : Lockout} {bound : ℕ}
    (hl : l.confirmationCount ≤ bound) (hdepth : stackDepth ≤ bound) :
    (l.doubleAt stackDepth i).confirmationCount ≤ bound := by
  rw [Lockout.confirmationCount_doubleAt]
  split <;> omega

/-- The lockout of a vote only grows when it is doubled. -/
theorem lockout_le_doubleAt (l : Lockout) :
    l.slot + 2 ^ l.confirmationCount ≤ l.slot + 2 ^ (l.doubleAt stackDepth i).confirmationCount :=
  Nat.add_le_add_left (Nat.pow_le_pow_right Nat.two_pos (le_confirmationCount_doubleAt l)) _

/-- Neighbours stay stacked when doubled: if their counts differ by one, `i + count` is
the same for both, so both gain a confirmation or neither does. -/
theorem Lockout.Stacked.doubleAt (h : older.Stacked newer) :
    (older.doubleAt stackDepth i).Stacked (newer.doubleAt stackDepth (i + 1)) := by
  obtain ⟨hslot, hcount, hlockout⟩ := h
  refine ⟨?_, ?_, ?_⟩
  · simpa using hslot
  · rw [Lockout.confirmationCount_doubleAt, Lockout.confirmationCount_doubleAt]
    split_ifs <;> omega
  · simp only [Lockout.slot_doubleAt]
    exact hlockout.trans (lockout_le_doubleAt older)

/-- The new top vote (one confirmation) and the vote below it are stacked once doubled:
a vote below with one confirmation gains a second. -/
theorem Lockout.stacked_doubleAt_new {slot : ℕ} (hpos : 0 < older.confirmationCount)
    (hslot : older.slot < slot) (hlockout : slot ≤ older.slot + 2 ^ older.confirmationCount) :
    (older.doubleAt (i + 2) i).Stacked ((Lockout.new slot).doubleAt (i + 2) (i + 1)) := by
  refine ⟨by simpa using hslot, ?_, ?_⟩
  · rw [Lockout.confirmationCount_doubleAt, Lockout.confirmationCount_doubleAt,
      Lockout.confirmationCount_new]
    split_ifs <;> omega
  · simp only [Lockout.slot_doubleAt, Lockout.slot_new]
    exact hlockout.trans (lockout_le_doubleAt older)

end Doubling

theorem length_doubleLockouts (votes : List Lockout) :
    (doubleLockouts votes).length = votes.length :=
  List.length_mapIdx

theorem mem_doubleLockouts {votes : List Lockout} {w : Lockout} (hw : w ∈ doubleLockouts votes) :
    ∃ i, ∃ v ∈ votes, w = v.doubleAt votes.length i := by
  obtain ⟨i, hi, rfl⟩ := List.mem_mapIdx.mp hw
  exact ⟨i, votes[i], List.getElem_mem hi, rfl⟩

/-- Pushing a vote on a stack with room left, above and within the lockout of its top,
and doubling gives a stack. -/
theorem LockoutStack.push {votes : List Lockout} {slot : ℕ} (h : LockoutStack votes)
    (hlen : votes.length < maxLockoutHistory)
    (hlast : ∀ v ∈ votes.getLast?, v.slot < slot ∧ slot ≤ v.slot + 2 ^ v.confirmationCount) :
    LockoutStack (doubleLockouts (votes ++ [Lockout.new slot])) := by
  have hlength : (votes ++ [Lockout.new slot]).length = votes.length + 1 := by simp
  have hpos : ∀ v ∈ votes ++ [Lockout.new slot], 0 < v.confirmationCount := by
    intro v hv
    rcases List.mem_append.mp hv with hv | hv
    · exact h.count_pos v hv
    · simp [List.mem_singleton.mp hv, Lockout.new]
  refine ⟨?_, ?_, ?_, ?_⟩
  · rw [length_doubleLockouts, hlength]
    omega
  · rw [List.isChain_iff_getElem]
    intro j hj
    rw [length_doubleLockouts, hlength] at hj
    simp only [doubleLockouts, List.getElem_mapIdx, hlength]
    by_cases hin : j + 1 < votes.length
    · rw [List.getElem_append_left (by omega), List.getElem_append_left hin]
      exact (List.isChain_iff_getElem.mp h.stacked j hin).doubleAt
    · have hj' : j + 1 = votes.length := by omega
      have hne : votes ≠ [] := List.ne_nil_of_length_pos (by omega)
      have htop : votes[j] = votes.getLast hne := by
        rw [List.getLast_eq_getElem]
        congr 1
        omega
      obtain ⟨hslot, hlockout⟩ := hlast (votes.getLast hne) (List.getLast?_eq_some_getLast hne)
      rw [List.getElem_append_left (by omega), List.getElem_append_right (by omega)]
      simp only [List.getElem_singleton, hj', htop]
      rw [show votes.length + 1 = j + 2 by omega, ← hj']
      exact Lockout.stacked_doubleAt_new (h.count_pos _ (List.getLast_mem hne)) hslot hlockout
  · intro w hw
    obtain ⟨i, v, hv, rfl⟩ := mem_doubleLockouts hw
    exact lt_of_lt_of_le (hpos v hv) (le_confirmationCount_doubleAt v)
  · intro w hw
    obtain ⟨i, v, hv, rfl⟩ := mem_doubleLockouts hw
    refine confirmationCount_doubleAt_le ?_ (by omega)
    rcases List.mem_append.mp hv with hv | hv
    · exact h.count_le v hv
    · simp [List.mem_singleton.mp hv, Lockout.new, maxLockoutHistory]

theorem forall_slot_doubleLockouts_push {votes : List Lockout} {slot : ℕ} {P : ℕ → Prop}
    (hvotes : ∀ v ∈ votes, P v.slot) (hslot : P slot) :
    ∀ w ∈ doubleLockouts (votes ++ [Lockout.new slot]), P w.slot := by
  intro w hw
  obtain ⟨i, v, hv, rfl⟩ := mem_doubleLockouts hw
  rw [Lockout.slot_doubleAt]
  rcases List.mem_append.mp hv with hv | hv
  · exact hvotes v hv
  · rwa [List.mem_singleton.mp hv, Lockout.slot_new]

theorem doubleLockouts_push_ne_nil (kept : List Lockout) (new : Lockout) :
    doubleLockouts (kept ++ [new]) ≠ [] := by
  rw [← List.length_pos_iff, length_doubleLockouts, List.length_append]
  exact Nat.succ_pos _

/-! ## One vote: `process_next_vote_slot` -/

theorem popExpiredVotes_isPrefix (votes : List Lockout) (slot : ℕ) :
    popExpiredVotes votes slot <+: votes :=
  List.rdropWhile_prefix _ _

/-- The top vote left after popping is still locked out at the new slot. -/
theorem le_lockout_of_popExpiredVotes {votes : List Lockout} {slot : ℕ} {top : Lockout}
    (htop : (popExpiredVotes votes slot).getLast? = some top) :
    slot ≤ top.slot + 2 ^ top.confirmationCount := by
  have hne : popExpiredVotes votes slot ≠ [] := List.getLast?_isSome.mp (by rw [htop]; rfl)
  have hlast : (popExpiredVotes votes slot).getLast hne = top := by
    rw [List.getLast?_eq_some_getLast hne, Option.some.injEq] at htop
    exact htop
  have hlocked : slot ≤ ((popExpiredVotes votes slot).getLast hne).lastLockedOutSlot := by
    have hnot := List.rdropWhile_last_not (fun v : Lockout => !v.isLockedOutAtSlot slot) votes hne
    rw [Bool.not_eq_true', Bool.not_eq_false] at hnot
    exact of_decide_eq_true hnot
  rw [← hlast]
  exact hlocked.trans (Lockout.lastLockedOutSlot_le _)

/-- The two ways a new vote goes: the stack fills up and its oldest vote left becomes
the root, or the root stays. -/
theorem processNextVoteSlot_cases {s : VoteState} {slot : ℕ} (epoch : ℕ)
    (hnew : ¬s.lastVotedSlot.any (fun last => slot ≤ last)) :
    (∃ u rest, popExpiredVotes s.votes slot = u :: rest ∧ rest ≠ [] ∧
      (s.processNextVoteSlot slot epoch).votes = doubleLockouts (rest ++ [Lockout.new slot]) ∧
      (s.processNextVoteSlot slot epoch).rootSlot = some u.slot) ∨
    ((popExpiredVotes s.votes slot).length ≠ maxLockoutHistory ∧
      (s.processNextVoteSlot slot epoch).votes =
        doubleLockouts (popExpiredVotes s.votes slot ++ [Lockout.new slot]) ∧
      (s.processNextVoteSlot slot epoch).rootSlot = s.rootSlot) := by
  by_cases hfull : (popExpiredVotes s.votes slot).length = maxLockoutHistory
  · obtain ⟨u, rest, hpop⟩ := List.exists_cons_of_length_pos
      (show 0 < (popExpiredVotes s.votes slot).length by rw [hfull]; decide)
    rw [hpop, List.length_cons] at hfull
    obtain ⟨hvotes, hroot⟩ := VoteState.processNextVoteSlot_of_full epoch hnew hpop hfull
    have hrest : rest ≠ [] := by
      rintro rfl
      simp [maxLockoutHistory] at hfull
    exact .inl ⟨u, rest, hpop, hrest, hvotes, hroot⟩
  · exact .inr ⟨hfull, VoteState.processNextVoteSlot_of_not_full epoch hnew hfull⟩

/-- A vote that is not ignored is above every vote of a stack. -/
theorem LockoutStack.lt_of_new {s : VoteState} {slot : ℕ} (h : LockoutStack s.votes)
    (hnew : ¬s.lastVotedSlot.any (fun last => slot ≤ last)) : ∀ v ∈ s.votes, v.slot < slot := by
  intro v hv
  obtain ⟨last, hlast⟩ := Option.isSome_iff_exists.mp
    (List.getLast?_isSome.mpr (List.ne_nil_of_mem hv))
  have hlastSlot : last.slot < slot := by
    simpa [VoteState.lastVotedSlot, VoteState.lastLockout, hlast] using hnew
  exact lt_of_le_of_lt (h.slot_le_last hv hlast) hlastSlot

/-- A vote keeps the stack: the votes left after popping are a stack whose top is still
locked out at the new slot, and the push is made with room left. -/
theorem LockoutStack.processNextVoteSlot {s : VoteState} (slot epoch : ℕ)
    (h : LockoutStack s.votes) : LockoutStack (s.processNextVoteSlot slot epoch).votes := by
  by_cases hold : s.lastVotedSlot.any (fun last => slot ≤ last)
  · rw [VoteState.processNextVoteSlot_of_le epoch hold]
    exact h
  have hbelow := h.lt_of_new hold
  have hpopped : LockoutStack (popExpiredVotes s.votes slot) :=
    h.of_infix (popExpiredVotes_isPrefix _ _).isInfix
  have htop : ∀ v ∈ (popExpiredVotes s.votes slot).getLast?,
      v.slot < slot ∧ slot ≤ v.slot + 2 ^ v.confirmationCount := fun v hv =>
    ⟨hbelow v ((popExpiredVotes_isPrefix _ _).subset (List.mem_of_getLast? hv)),
      le_lockout_of_popExpiredVotes hv⟩
  rcases processNextVoteSlot_cases epoch hold with
    ⟨u, rest, hpop, hrest, hvotes, _⟩ | ⟨hfull, hvotes, _⟩
  · rw [hvotes]
    rw [hpop] at hpopped htop
    have hlen : rest.length < maxLockoutHistory := by
      have := hpopped.length_le
      rw [List.length_cons] at this
      omega
    refine (hpopped.of_infix (List.suffix_cons u rest).isInfix).push hlen fun w hw => htop w ?_
    rw [List.getLast?_cons, List.getLast?_eq_some_getLast hrest]
    simpa [List.getLast?_eq_some_getLast hrest] using hw
  · rw [hvotes]
    exact hpopped.push (lt_of_le_of_ne hpopped.length_le hfull) htop

/-- A vote keeps the tower invariant and moves the root forward. -/
theorem TowerInvariant.processNextVoteSlot {s : VoteState} (slot epoch : ℕ)
    (h : TowerInvariant s.votes s.rootSlot) :
    TowerInvariant (s.processNextVoteSlot slot epoch).votes
        (s.processNextVoteSlot slot epoch).rootSlot ∧
      RootAdvance s.rootSlot (s.processNextVoteSlot slot epoch).rootSlot := by
  by_cases hold : s.lastVotedSlot.any (fun last => slot ≤ last)
  · rw [VoteState.processNextVoteSlot_of_le epoch hold]
    exact ⟨h, RootAdvance.refl _⟩
  have hstack := h.toLockoutStack.processNextVoteSlot slot epoch
  have hbelow := h.toLockoutStack.lt_of_new hold
  have hsub : ∀ v ∈ popExpiredVotes s.votes slot, v ∈ s.votes :=
    fun v hv => (popExpiredVotes_isPrefix _ _).subset hv
  rcases processNextVoteSlot_cases epoch hold with
    ⟨u, rest, hpop, _, hvotes, hroot⟩ | ⟨_, hvotes, hroot⟩
  · have hu : u ∈ s.votes := hsub u (hpop ▸ List.mem_cons_self)
    have hpopped : LockoutStack (u :: rest) :=
      hpop ▸ h.of_infix (popExpiredVotes_isPrefix _ _).isInfix
    refine ⟨⟨hstack, ?_, ?_⟩, ?_⟩
    · intro r hr _
      rw [hroot, Option.some.injEq] at hr
      subst hr
      rw [hvotes]
      exact forall_slot_doubleLockouts_push (fun w hw => hpopped.head_slot_lt hw) (hbelow u hu)
    · intro _ _
      rw [hvotes]
      exact doubleLockouts_push_ne_nil _ _
    · intro r hr
      refine ⟨u.slot, hroot, ?_⟩
      by_cases hr0 : r = 0
      · rw [hr0]
        exact Nat.zero_le _
      · exact (h.root_lt r hr hr0 u hu).le
  · refine ⟨⟨hstack, ?_, ?_⟩, by rw [hroot]; exact RootAdvance.refl _⟩
    · intro r hr hr0
      rw [hroot] at hr
      rw [hvotes]
      refine forall_slot_doubleLockouts_push (fun w hw => h.root_lt r hr hr0 w (hsub w hw)) ?_
      obtain ⟨w, hw⟩ := List.exists_mem_of_ne_nil _ (h.ne_nil_of_root r hr)
      exact (h.root_lt r hr hr0 w hw).trans (hbelow w hw)
    · intro _ _
      rw [hvotes]
      exact doubleLockouts_push_ne_nil _ _

/-! ## A whole new tower: `process_new_vote_state` -/

theorem rootAdvance_of_checkRootRollBack {newRoot currentRoot : Option ℕ}
    (h : VoteState.checkRootRollBack newRoot currentRoot = .ok ()) :
    RootAdvance currentRoot newRoot := by
  intro r hr
  subst hr
  unfold VoteState.checkRootRollBack at h
  cases newRoot with
  | none => cases h
  | some r' =>
    dsimp only at h
    split_ifs at h with hlt
    exact ⟨r', rfl, Nat.le_of_not_lt hlt⟩

/-- The votes that pass the first loop of `process_new_vote_state` after `previous`
are stacked on it, with counts in range and slots above a non-zero root. -/
theorem checkNewVotes_stacked {newRoot : Option ℕ} :
    ∀ {previous : Option Lockout} {votes : List Lockout},
      VoteState.checkNewVotes newRoot previous votes = .ok () →
      (previous.toList ++ votes).IsChain Lockout.Stacked ∧
        ∀ v ∈ votes, 0 < v.confirmationCount ∧ v.confirmationCount ≤ maxLockoutHistory ∧
          ∀ r, newRoot = some r → r ≠ 0 → r < v.slot
  | previous, [], _ => by
    cases previous with
    | none => exact ⟨.nil, by simp⟩
    | some p => exact ⟨.singleton p, by simp⟩
  | previous, vote :: rest, h => by
    obtain ⟨hpos, hle, hroot, hprevious, hrest⟩ := VoteState.checkNewVotes_cons_eq_ok h
    obtain ⟨hchain, hvotes⟩ := checkNewVotes_stacked hrest
    refine ⟨?_, ?_⟩
    · cases previous with
      | none => simpa using hchain
      | some p =>
        obtain ⟨hslot, hcount, hlockout⟩ := hprevious p rfl
        have hstacked : p.Stacked vote :=
          ⟨hslot, hcount, hlockout.trans (Lockout.lastLockedOutSlot_le p)⟩
        simpa using List.IsChain.cons_cons hstacked (by simpa using hchain)
    · intro v hv
      rcases List.mem_cons.mp hv with rfl | hv
      · exact ⟨hpos, hle, hroot⟩
      · exact hvotes v hv

/-- A tower that `process_new_vote_state` accepts satisfies the invariant, whatever the
tower it replaces, and its root does not go back. -/
theorem TowerInvariant.processNewVoteState {s s' : VoteState} {newState : List Lockout}
    {newRoot : Option ℕ} {timestamp : Option ℤ} {epoch : ℕ}
    (h : (s.processNewVoteState newState newRoot timestamp epoch).run = some (.ok s')) :
    TowerInvariant s'.votes s'.rootSlot ∧ RootAdvance s.rootSlot s'.rootSlot := by
  obtain ⟨hne, hlen, hrollBack, hcheck, hvotes, hroot⟩ := VoteState.processNewVoteState_eq_ok h
  obtain ⟨hchain, hbounds⟩ := checkNewVotes_stacked hcheck
  rw [hvotes, hroot]
  refine ⟨⟨⟨hlen, by simpa using hchain, ?_, ?_⟩, ?_, fun _ _ => hne⟩,
    rootAdvance_of_checkRootRollBack hrollBack⟩
  · exact fun v hv => (hbounds v hv).1
  · exact fun v hv => (hbounds v hv).2.1
  · exact fun r hr hr0 v hv => (hbounds v hv).2.2 r hr hr0

/-! ## Instructions and runs -/

/-- Every instruction that succeeds keeps the tower invariant; one that leaves an
initialized account initialized does not move the root back. -/
theorem TowerInvariant.step {account account' : VoteAccount}
    {action : InvokeEnv × VoteInstruction} (h : step account action = some account')
    (hinv : TowerInvariant account.state.votes account.state.rootSlot) :
    TowerInvariant account'.state.votes account'.state.rootSlot ∧
      (account.state.isUninitialized = false → account'.state.isUninitialized = false →
        RootAdvance account.state.rootSlot account'.state.rootSlot) := by
  rcases processInstruction_eq_ok (step_eq_some.mp h) with
    ⟨hvotes, hroot⟩ | ⟨huninit, voteInit, hnew⟩ | hclose |
      ⟨s, slots, lastTimestamp, hvotes, hroot, hstate⟩ | ⟨s, newState, newRoot, timestamp, hroot, hnew⟩
  · rw [hvotes, hroot]
    exact ⟨hinv, fun _ _ => RootAdvance.refl _⟩
  · rw [hnew]
    refine ⟨towerInvariant_nil, fun hinit _ => ?_⟩
    rw [huninit] at hinit
    cases hinit
  · rw [hclose]
    refine ⟨towerInvariant_nil, fun _ hinit' => ?_⟩
    cases hinit'
  · have hfold := Run.foldl_rel (P := fun st : VoteState => TowerInvariant st.votes st.rootSlot)
      (R := fun a b : VoteState => RootAdvance a.rootSlot b.rootSlot)
      (fun st => RootAdvance.refl st.rootSlot) RootAdvance.trans
      (fun st slot => st.processNextVoteSlot slot action.1.clock.epoch)
      (fun st slot hst => hst.processNextVoteSlot slot action.1.clock.epoch) slots
      (s := s) (by rw [hvotes, hroot]; exact hinv)
    rw [hstate]
    rw [hroot] at hfold
    exact ⟨hfold.1, fun _ _ => hfold.2⟩
  · obtain ⟨hinv', hadvance⟩ := TowerInvariant.processNewVoteState hnew
    rw [hroot] at hadvance
    exact ⟨hinv', fun _ _ => hadvance⟩

/-- A step of a vote account that stays initialized: the instruction succeeds and the
account it leaves is initialized. -/
def initializedStep (account : VoteAccount) (action : InvokeEnv × VoteInstruction) :
    Option VoteAccount :=
  (step account action).filter fun account' => !account'.state.isUninitialized

theorem towerInvariant_run {account account' : VoteAccount}
    {actions : List (InvokeEnv × VoteInstruction)}
    (hinit : account.state.isUninitialized = false)
    (hinv : TowerInvariant account.state.votes account.state.rootSlot)
    (hrun : Run.exec initializedStep account actions = some account') :
    TowerInvariant account'.state.votes account'.state.rootSlot ∧
      RootAdvance account.state.rootSlot account'.state.rootSlot := by
  have hexec := Run.exec_rel
    (P := fun a : VoteAccount => TowerInvariant a.state.votes a.state.rootSlot ∧
      a.state.isUninitialized = false)
    (R := fun a b : VoteAccount => RootAdvance a.state.rootSlot b.state.rootSlot)
    (fun a => RootAdvance.refl a.state.rootSlot) RootAdvance.trans ?_ actions ⟨hinv, hinit⟩ hrun
  · exact ⟨hexec.1.1, hexec.2⟩
  · intro a action a' ⟨ha, hainit⟩ hstep
    obtain ⟨hstep, hainit'⟩ := Option.filter_eq_some_iff.mp hstep
    have hainit' : a'.state.isUninitialized = false := by simpa using hainit'
    obtain ⟨ha', hadvance⟩ := TowerInvariant.step hstep ha
    exact ⟨⟨ha', hainit'⟩, hadvance hainit hainit'⟩

theorem towerInvariant_run_vote :
    TowerInvariant [⟨1, 1⟩] none ∧ RootAdvance none none :=
  @towerInvariant_run
    ⟨VoteState.new ⟨1, 2, 3, 10⟩ ⟨0, 0, 0, 0⟩, 1000, 3731⟩
    ⟨{ VoteState.new ⟨1, 2, 3, 10⟩ ⟨0, 0, 0, 0⟩ with votes := [⟨1, 1⟩], commission := 5 }, 1000, 3731⟩
    [(⟨[(1, 7)], ⟨1, 0, 0, 0⟩, [2, 3], {}, 0, 0⟩, .vote ⟨[1], 7, none⟩),
     (⟨[(1, 7)], ⟨1, 0, 0, 0⟩, [2, 3], {}, 0, 0⟩, .updateCommission 5)]
    rfl towerInvariant_nil (by decide +kernel)

end Solana.VoteProgram
