import Solana.Consensus.Tower
import Solana.Vote.TowerInvariant
import Solana.Lib.Forest

/-! Lockout safety of the tower over any run of recorded votes: the stack discipline of
`process_next_vote_slot` (`processNextVoteSlot_push`, `processNextVoteSlot_fate`). -/

namespace Solana.Consensus

open VoteProgram
open VoteProgram.VoteState (doubleLockouts popExpiredVotes)

/-! ## The stack discipline -/

theorem slots_doubleLockouts (votes : List Lockout) :
    (doubleLockouts votes).map (·.slot) = votes.map (·.slot) := by
  apply List.ext_getElem (by simp [length_doubleLockouts])
  intro i h₁ h₂
  simp [doubleLockouts]

/-- A vote kept under the new one is still on the stack after doubling, with at least
its confirmations. -/
theorem exists_mem_doubleLockouts_push {kept : List Lockout} {v new : Lockout} (hv : v ∈ kept) :
    ∃ w ∈ doubleLockouts (kept ++ [new]),
      w.slot = v.slot ∧ v.confirmationCount ≤ w.confirmationCount := by
  obtain ⟨i, hi, rfl⟩ := List.getElem_of_mem hv
  have hi' : i < (doubleLockouts (kept ++ [new])).length := by
    rw [length_doubleLockouts, List.length_append]
    omega
  have hw : (doubleLockouts (kept ++ [new]))[i] = kept[i].doubleAt (kept ++ [new]).length i := by
    simp only [doubleLockouts, List.getElem_mapIdx]
    rw [List.getElem_append_left hi]
  refine ⟨(doubleLockouts (kept ++ [new]))[i], List.getElem_mem hi', ?_, ?_⟩
  · rw [hw, Lockout.slot_doubleAt]
  · rw [hw]
    exact le_confirmationCount_doubleAt _

/-- A vote popped off the top had a lockout that ended before the new slot. -/
theorem mem_popExpiredVotes_or_expired {votes : List Lockout} {slot : ℕ} {v : Lockout}
    (hv : v ∈ votes) : v ∈ popExpiredVotes votes slot ∨ v.lastLockedOutSlot < slot := by
  rw [← List.rdropWhile_append_rtakeWhile (p := fun v : Lockout => !v.isLockedOutAtSlot slot)
    (l := votes)] at hv
  rcases List.mem_append.mp hv with hkept | hpopped
  · exact .inl hkept
  · right
    simpa [Lockout.isLockedOutAtSlot] using List.mem_rtakeWhile_imp hpopped

/-- What is left of the old root and votes under a new vote is a sublist of them; the
root moves only when votes are left under it. -/
theorem processNextVoteSlot_push {s : VoteState} {slot : ℕ} (epoch : ℕ)
    (hnew : ¬s.lastVotedSlot.any (fun last => slot ≤ last)) :
    ∃ kept : List Lockout,
      (s.processNextVoteSlot slot epoch).votes = doubleLockouts (kept ++ [Lockout.new slot]) ∧
      kept ⊆ s.votes ∧
      ((s.processNextVoteSlot slot epoch).rootSlot.toList ++ kept.map (·.slot)).Sublist
        (s.rootSlot.toList ++ s.votes.map (·.slot)) ∧
      ((s.processNextVoteSlot slot epoch).rootSlot = s.rootSlot ∨ kept ≠ []) := by
  have hkeep := popExpiredVotes_isPrefix s.votes slot
  rcases processNextVoteSlot_cases epoch hnew with
    ⟨u, rest, hpop, hrest, hvotes, hroot⟩ | ⟨_, hvotes, hroot⟩
  · rw [hpop] at hkeep
    refine ⟨rest, hvotes, fun w hw => hkeep.subset (List.mem_cons_of_mem u hw), ?_, .inr hrest⟩
    rw [hroot, Option.toList_some, List.singleton_append]
    exact (hkeep.map (·.slot)).sublist.trans (List.sublist_append_right _ _)
  · refine ⟨popExpiredVotes s.votes slot, hvotes, hkeep.subset, ?_, .inl hroot⟩
    rw [hroot]
    exact (hkeep.map (·.slot)).sublist.append_left _

/-- A vote that survives the popping stays on the stack, with at least its
confirmations, or becomes the root. -/
theorem processNextVoteSlot_of_mem_popExpiredVotes {s : VoteState} {slot : ℕ} (epoch : ℕ)
    (hnew : ¬s.lastVotedSlot.any (fun last => slot ≤ last)) {v : Lockout}
    (hkept : v ∈ popExpiredVotes s.votes slot) :
    (∃ w ∈ (s.processNextVoteSlot slot epoch).votes,
        w.slot = v.slot ∧ v.confirmationCount ≤ w.confirmationCount) ∨
      (s.processNextVoteSlot slot epoch).rootSlot = some v.slot := by
  rcases processNextVoteSlot_cases epoch hnew with
    ⟨u, rest, hpop, _, hvotes, hroot⟩ | ⟨_, hvotes, _⟩
  · rw [hpop] at hkept
    rcases List.mem_cons.mp hkept with rfl | hrest
    · exact .inr hroot
    · exact .inl (hvotes ▸ exists_mem_doubleLockouts_push hrest)
  · exact .inl (hvotes ▸ exists_mem_doubleLockouts_push hkept)

/-- A vote leaves the stack only as the new root or once its lockout is over; while it
stays, its confirmations do not drop. -/
theorem processNextVoteSlot_fate {s : VoteState} {slot : ℕ} (epoch : ℕ)
    (hnew : ¬s.lastVotedSlot.any (fun last => slot ≤ last)) {v : Lockout} (hv : v ∈ s.votes) :
    (∃ w ∈ (s.processNextVoteSlot slot epoch).votes,
        w.slot = v.slot ∧ v.confirmationCount ≤ w.confirmationCount) ∨
      (s.processNextVoteSlot slot epoch).rootSlot = some v.slot ∨
      v.lastLockedOutSlot < slot := by
  rcases @mem_popExpiredVotes_or_expired _ slot _ hv with hkept | hexpired
  · exact (processNextVoteSlot_of_mem_popExpiredVotes epoch hnew hkept).imp_right .inl
  · exact .inr (.inr hexpired)

/-- After a new vote, the last voted slot is the slot voted for. -/
theorem lastVotedSlot_processNextVoteSlot {s : VoteState} {slot : ℕ} (epoch : ℕ)
    (hnew : ¬s.lastVotedSlot.any (fun last => slot ≤ last)) :
    (s.processNextVoteSlot slot epoch).lastVotedSlot = some slot := by
  obtain ⟨kept, hvotes, -⟩ := processNextVoteSlot_push epoch hnew
  rw [VoteState.lastVotedSlot, VoteState.lastLockout, hvotes, ← List.getLast?_map,
    slots_doubleLockouts, List.map_append, List.getLast?_append]
  simp

/-! ## Checked votes over a fork tree -/

variable (f : Forest)

/-- A vote the replay stage records: its slot descends from the tower's root, leaves
room below `u64::MAX` for the longest lockout, and is not locked out. The lockouts the
tower has held so far ride along. -/
def checkedVote (state : Tower × List Lockout) (vote : ℕ × Hash) :
    Option (Tower × List Lockout) :=
  if state.1.root.any (fun root => decide (f.IsAncestor root vote.1)) ∧
      vote.1 + 2 ^ maxLockoutHistory < 2 ^ 64 ∧
      state.1.isLockedOut vote.1 (f.ancestors vote.1) = some false then
    let t := (state.1.recordVote vote.1 vote.2).1
    some (t, state.2 ++ t.voteState.votes)
  else none

/-- A lockout the tower once held is honoured: the tower still holds its slot with at
least its confirmations, or its slot is the root or an ancestor of it, or its lockout
ended below the last vote. -/
def Tower.Honours (t : Tower) (l : Lockout) : Prop :=
  (∃ w ∈ t.voteState.votes, w.slot = l.slot ∧ l.confirmationCount ≤ w.confirmationCount) ∨
    (∃ r, t.root = some r ∧ (l.slot = r ∨ f.IsAncestor l.slot r)) ∨
    ∃ last, t.voteState.lastVotedSlot = some last ∧ l.slot + 2 ^ l.confirmationCount < last

/-- What every run of checked votes keeps: the tower invariant, a root, a path of the
fork tree from the root through the votes, room below `u64::MAX` for every lockout, and
every lockout held so far honoured. -/
structure SafeTower (t : Tower) (seen : List Lockout) : Prop where
  stack : LockoutStack t.voteState.votes
  root_isSome : t.root.isSome
  path : (t.root.toList ++ t.voteState.votes.map (·.slot)).IsChain f.IsAncestor
  no_wrap : ∀ v ∈ t.voteState.votes, v.slot + 2 ^ maxLockoutHistory < 2 ^ 64
  honours : ∀ l ∈ seen, t.Honours f l

theorem safeTower_default : SafeTower f Tower.default [] where
  stack := towerInvariant_nil.toLockoutStack
  root_isSome := rfl
  path := .singleton 0
  no_wrap := by simp [Tower.default, VoteState.default]
  honours := by simp

variable {f} {t : Tower} {seen : List Lockout} {slot : ℕ}

namespace SafeTower

/-- Along the path, every slot is an ancestor of each later one. -/
theorem pairwise (h : SafeTower f t seen) :
    (t.root.toList ++ t.voteState.votes.map (·.slot)).Pairwise f.IsAncestor :=
  List.isChain_iff_pairwise.mp h.path

/-- The root is an ancestor of every vote. -/
theorem root_isAncestor (h : SafeTower f t seen) {r : ℕ} (hr : t.root = some r) {v : Lockout}
    (hv : v ∈ t.voteState.votes) : f.IsAncestor r v.slot :=
  (List.pairwise_append.mp h.pairwise).2.2 r (by simp [hr]) v.slot (List.mem_map_of_mem hv)

/-- Every vote is an ancestor of each later one. -/
theorem votes_pairwise (h : SafeTower f t seen) :
    t.voteState.votes.Pairwise fun v w => f.IsAncestor v.slot w.slot :=
  List.pairwise_map.mp (List.pairwise_append.mp h.pairwise).2.1

/-- With room below `u64::MAX`, a vote's lockout ends exactly `2 ^ confirmation_count`
slots after it. -/
theorem lastLockedOutSlot_eq (h : SafeTower f t seen) {v : Lockout}
    (hv : v ∈ t.voteState.votes) : v.lastLockedOutSlot = v.slot + 2 ^ v.confirmationCount := by
  apply Lockout.lastLockedOutSlot_of_lt
  have hpow : 2 ^ v.confirmationCount ≤ 2 ^ maxLockoutHistory :=
    Nat.pow_le_pow_right Nat.two_pos (h.stack.count_le v hv)
  exact lt_of_le_of_lt (Nat.add_le_add_left hpow _) (h.no_wrap v hv)

/-- `processNextVoteSlot_fate` with the lockout sum unwrapped. -/
theorem fate (h : SafeTower f t seen) (hrecent : t.isRecent slot = true) {v : Lockout}
    (hv : v ∈ t.voteState.votes) :
    let s := t.voteState.processNextVoteSlot slot t.voteState.currentEpoch
    (∃ w ∈ s.votes, w.slot = v.slot ∧ v.confirmationCount ≤ w.confirmationCount) ∨
      s.rootSlot = some v.slot ∨ v.slot + 2 ^ v.confirmationCount < slot := by
  rw [← h.lastLockedOutSlot_eq hv]
  exact processNextVoteSlot_fate _ ((Tower.isRecent_iff t slot).mp hrecent) hv

/-- A slot that descends from the root and is recent lies above every slot of the
path. -/
theorem lt_of_mem_path (h : SafeTower f t seen)
    (hroot : t.root.any (fun root => decide (f.IsAncestor root slot)) = true)
    (hrecent : t.isRecent slot = true) {x : ℕ}
    (hx : x ∈ t.root.toList ++ t.voteState.votes.map (·.slot)) : x < slot := by
  rcases List.mem_append.mp hx with hx | hx
  · obtain ⟨r, hr, hrs⟩ := (Option.any_eq_true _ _).mp hroot
    rw [hr, Option.mem_toList, Option.some.injEq] at hx
    subst hx
    exact (of_decide_eq_true hrs).lt
  · obtain ⟨v, hv, rfl⟩ := List.mem_map.mp hx
    exact h.stack.lt_of_new ((Tower.isRecent_iff t slot).mp hrecent) v hv

end SafeTower

/-- After a vote that `is_locked_out` does not lock out, a vote below the slot voted
for is on one of its ancestors. -/
theorem isAncestor_of_mem_votes {t : Tower} {slot : ℕ}
    (hlock : t.isLockedOut slot (f.ancestors slot) ≠ some true) {v : Lockout}
    (hv : v ∈ (t.voteState.processNextVoteSlot slot t.voteState.currentEpoch).votes)
    (hlt : v.slot < slot) : f.IsAncestor v.slot slot := by
  rcases (Tower.votes_of_isLockedOut_ne_true hlock).2 v hv with heq | hmem
  · exact absurd heq hlt.ne
  · exact Forest.mem_ancestors.mp hmem

/-- After a vote that passes `is_locked_out`, a slot of the root or the votes below the
slot voted for is one of its ancestors. -/
theorem isAncestor_of_isLockedOut {t : Tower} {slot x : ℕ}
    (hlock : t.isLockedOut slot (f.ancestors slot) = some false)
    (hx : x ∈ (t.voteState.processNextVoteSlot slot t.voteState.currentEpoch).rootSlot.toList ++
      (t.voteState.processNextVoteSlot slot t.voteState.currentEpoch).votes.map (·.slot))
    (hlt : x < slot) : f.IsAncestor x slot := by
  rcases List.mem_append.mp hx with hx | hx
  · rcases (Tower.isLockedOut_eq_some_false hlock).2.2 x (Option.mem_toList.mp hx) with
      heq | hmem
    · exact absurd heq hlt.ne
    · exact Forest.mem_ancestors.mp hmem
  · obtain ⟨v, hv, rfl⟩ := List.mem_map.mp hx
    exact isAncestor_of_mem_votes  (by rw [hlock]; nofun) hv hlt

theorem checkedVote_eq_some {state state' : Tower × List Lockout} {vote : ℕ × Hash}
    (h : checkedVote f state vote = some state') :
    state.1.root.any (fun root => decide (f.IsAncestor root vote.1)) = true ∧
      vote.1 + 2 ^ maxLockoutHistory < 2 ^ 64 ∧
      state.1.isLockedOut vote.1 (f.ancestors vote.1) = some false ∧
      state' = ((state.1.recordVote vote.1 vote.2).1,
        state.2 ++ (state.1.recordVote vote.1 vote.2).1.voteState.votes) := by
  unfold checkedVote at h
  split_ifs at h with hcheck
  exact ⟨hcheck.1, hcheck.2.1, hcheck.2.2, (Option.some.inj h).symm⟩

/-- A lockout held with more confirmations, at the same slot, ends later. -/
theorem add_two_pow_le {l w : Lockout} (hslot : w.slot = l.slot)
    (hcount : l.confirmationCount ≤ w.confirmationCount) :
    l.slot + 2 ^ l.confirmationCount ≤ w.slot + 2 ^ w.confirmationCount := by
  rw [hslot]
  exact Nat.add_le_add_left (Nat.pow_le_pow_right Nat.two_pos hcount) _

namespace SafeTower

/-- The new root is some root: it stays, or moves up to a vote. -/
theorem root_isSome_recordVote (h : SafeTower f t seen) (hrecent : t.isRecent slot = true)
    (hash : Hash) : (t.recordVote slot hash).1.root.isSome := by
  rw [Tower.recordVote_root]
  rcases processNextVoteSlot_cases t.voteState.currentEpoch
      ((Tower.isRecent_iff t slot).mp hrecent) with
    ⟨u, -, -, -, -, hroot⟩ | ⟨-, -, hroot⟩
  · rw [hroot]
    rfl
  · rw [hroot]
    exact h.root_isSome

/-- The root and the votes after a checked vote still form a path: what is left of the
old path is a sorted list of ancestors of the new slot. -/
theorem path_recordVote (h : SafeTower f t seen)
    (hroot : t.root.any (fun root => decide (f.IsAncestor root slot)) = true)
    (hlock : t.isLockedOut slot (f.ancestors slot) = some false) (hash : Hash) :
    ((t.recordVote slot hash).1.root.toList ++
      (t.recordVote slot hash).1.voteState.votes.map (·.slot)).IsChain f.IsAncestor := by
  have hrecent := (Tower.isLockedOut_eq_some_false hlock).1
  obtain ⟨kept, hvotes, -, hsub, -⟩ :=
    processNextVoteSlot_push t.voteState.currentEpoch ((Tower.isRecent_iff t slot).mp hrecent)
  have hpath : (t.recordVote slot hash).1.root.toList ++
      (t.recordVote slot hash).1.voteState.votes.map (·.slot) =
      ((t.voteState.processNextVoteSlot slot t.voteState.currentEpoch).rootSlot.toList ++
        kept.map (·.slot)) ++ [slot] := by
    rw [Tower.recordVote_root, Tower.recordVote_voteState, hvotes, slots_doubleLockouts,
      List.map_append, List.append_assoc]
    rfl
  have hbelow : ∀ x ∈ (t.voteState.processNextVoteSlot slot t.voteState.currentEpoch).rootSlot.toList ++
      kept.map (·.slot), x < slot :=
    fun x hx => h.lt_of_mem_path hroot hrecent (hsub.subset hx)
  have hsorted : ((t.voteState.processNextVoteSlot slot t.voteState.currentEpoch).rootSlot.toList ++
      kept.map (·.slot)).IsChain (· < ·) :=
    List.isChain_iff_pairwise.mpr ((h.pairwise.sublist hsub).imp Forest.IsAncestor.lt)
  rw [hpath]
  refine Forest.isChain_append_of_ancestors hsorted fun x hx => ?_
  apply isAncestor_of_isLockedOut  hlock _ (hbelow x hx)
  rw [← Tower.recordVote_root t slot hash, ← Tower.recordVote_voteState t slot hash, hpath]
  exact List.mem_append_left _ hx

/-- A lockout honoured before a vote for a recent slot is honoured after it. -/
theorem honours_recordVote (h : SafeTower f t seen) (hrecent : t.isRecent slot = true)
    (hash : Hash) {l : Lockout} (hl : t.Honours f l) : (t.recordVote slot hash).1.Honours f l := by
  have hnew := (Tower.isRecent_iff t slot).mp hrecent
  have hlast : (t.recordVote slot hash).1.voteState.lastVotedSlot = some slot := by
    rw [Tower.recordVote_voteState]
    exact lastVotedSlot_processNextVoteSlot _ hnew
  rcases hl with ⟨w, hw, hslot, hcount⟩ | ⟨r, hr, hrl⟩ | ⟨last, hlast', hlt⟩
  · rcases h.fate hrecent hw with ⟨w', hw', hslot', hcount'⟩ | hroot | hexpired
    · rw [← Tower.recordVote_voteState t slot hash] at hw'
      exact .inl ⟨w', hw', hslot'.trans hslot, hcount.trans hcount'⟩
    · rw [← Tower.recordVote_root t slot hash] at hroot
      exact .inr (.inl ⟨w.slot, hroot, .inl hslot.symm⟩)
    · exact .inr (.inr ⟨slot, hlast, lt_of_le_of_lt (add_two_pow_le hslot hcount) hexpired⟩)
  · refine .inr (.inl ?_)
    rw [Tower.recordVote_root]
    rcases processNextVoteSlot_cases t.voteState.currentEpoch hnew with
      ⟨u, rest, hpop, -, -, hroot⟩ | ⟨-, -, hroot⟩
    · have hu : u ∈ t.voteState.votes :=
        (popExpiredVotes_isPrefix _ _).subset (hpop ▸ List.mem_cons_self)
      have hru : f.IsAncestor r u.slot := h.root_isAncestor hr hu
      refine ⟨u.slot, hroot, .inr ?_⟩
      rcases hrl with heq | hanc
      · exact heq ▸ hru
      · exact hanc.trans hru
    · exact ⟨r, hroot.trans hr, hrl⟩
  · exact .inr (.inr ⟨slot, hlast, hlt.trans (Tower.lt_of_isRecent hrecent hlast')⟩)

/-- The step of a run: a checked vote keeps the tower safe. -/
theorem checkedVote {state state' : Tower × List Lockout} {vote : ℕ × Hash}
    (h : SafeTower f state.1 state.2) (hstep : checkedVote f state vote = some state') :
    SafeTower f state'.1 state'.2 := by
  obtain ⟨hroot, hwrap, hlock, rfl⟩ := checkedVote_eq_some  hstep
  have hrecent := (Tower.isLockedOut_eq_some_false hlock).1
  obtain ⟨kept, hvotes, hkept, -⟩ :=
    processNextVoteSlot_push state.1.voteState.currentEpoch
      ((Tower.isRecent_iff _ _).mp hrecent)
  refine ⟨?_, h.root_isSome_recordVote hrecent _, h.path_recordVote hroot hlock _, ?_, ?_⟩
  · rw [Tower.recordVote_voteState]
    exact h.stack.processNextVoteSlot _ _
  · rw [Tower.recordVote_voteState, hvotes]
    exact forall_slot_doubleLockouts_push (P := fun x => x + 2 ^ maxLockoutHistory < 2 ^ 64)
      (fun v hv => h.no_wrap v (hkept hv)) hwrap
  · intro l hl
    rcases List.mem_append.mp hl with hl | hl
    · exact h.honours_recordVote hrecent _ (h.honours l hl)
    · exact .inl ⟨l, hl, rfl, le_rfl⟩

/-- The assertion in `is_locked_out` holds for every slot that descends from the root:
a root the simulated vote moves up is an ancestor of the votes above it, which are
ancestors of the slot. -/
theorem isLockedOut_ne_none (h : SafeTower f t seen)
    (hroot : t.root.any (fun root => decide (f.IsAncestor root slot)) = true) :
    t.isLockedOut slot (f.ancestors slot) ≠ none := by
  intro hnone
  have hne : t.isLockedOut slot (f.ancestors slot) ≠ some true := by
    rw [hnone]
    nofun
  have hnew := (Tower.isRecent_iff t slot).mp (Tower.votes_of_isLockedOut_ne_true hne).1
  obtain ⟨r', hr', -, hnotin⟩ := Tower.root_of_isLockedOut_eq_none hnone
  obtain ⟨r, hr, hrs⟩ := (Option.any_eq_true _ _).mp hroot
  rcases processNextVoteSlot_cases t.voteState.currentEpoch hnew with
    ⟨u, rest, hpop, hrest, hvotes, hroot'⟩ | ⟨-, -, hroot'⟩
  · obtain ⟨w, hw⟩ := List.exists_mem_of_ne_nil rest hrest
    have hkeep := popExpiredVotes_isPrefix t.voteState.votes slot
    rw [hpop] at hkeep
    have huw : f.IsAncestor u.slot w.slot :=
      List.rel_of_pairwise_cons (h.votes_pairwise.sublist hkeep.sublist) hw
    obtain ⟨w', hw', hslot, -⟩ := @exists_mem_doubleLockouts_push _ _ (Lockout.new slot) hw
    rw [← hvotes] at hw'
    have hwlt : w'.slot < slot :=
      hslot ▸ h.stack.lt_of_new hnew w (hkeep.subset (List.mem_cons_of_mem u hw))
    have hws : f.IsAncestor w.slot slot := hslot ▸ isAncestor_of_mem_votes  hne hw' hwlt
    rw [hroot', Option.some.injEq] at hr'
    exact hnotin (Forest.mem_ancestors.mpr (hr' ▸ huw.trans hws))
  · rw [hroot'] at hr'
    have hrr : r' = r := Option.some.inj (hr'.symm.trans hr)
    exact hnotin (Forest.mem_ancestors.mpr (hrr ▸ of_decide_eq_true hrs))

/-- A slot that passes the checks comes after the lockout of every vote the tower has
held that is not on its fork. -/
theorem lockout_lt (h : SafeTower f t seen)
    (hroot : t.root.any (fun root => decide (f.IsAncestor root slot)) = true)
    (hlock : t.isLockedOut slot (f.ancestors slot) = some false) {l : Lockout} (hl : l ∈ seen)
    (hanc : ¬f.IsAncestor l.slot slot) : l.slot + 2 ^ l.confirmationCount < slot := by
  have hrecent := (Tower.isLockedOut_eq_some_false hlock).1
  rcases h.honours l hl with ⟨w, hw, hslot, hcount⟩ | ⟨r, hr, hrl⟩ | ⟨last, hlast, hlt⟩
  · have hwlt : w.slot < slot :=
      h.lt_of_mem_path hroot hrecent (List.mem_append_right _ (List.mem_map_of_mem hw))
    rcases h.fate hrecent hw with ⟨w', hw', hslot', -⟩ | hroot' | hexpired
    · refine absurd ?_ hanc
      rw [← hslot, ← hslot']
      exact isAncestor_of_mem_votes  (by rw [hlock]; nofun) hw' (hslot' ▸ hwlt)
    · refine absurd ?_ hanc
      rw [← hslot]
      exact isAncestor_of_isLockedOut  hlock (by simp [hroot']) hwlt
    · exact lt_of_le_of_lt (add_two_pow_le hslot hcount) hexpired
  · obtain ⟨r', hr', hrs⟩ := (Option.any_eq_true _ _).mp hroot
    rw [hr, Option.some.injEq] at hr'
    subst hr'
    rcases hrl with heq | hlr
    · exact absurd (heq ▸ of_decide_eq_true hrs) hanc
    · exact absurd (hlr.trans (of_decide_eq_true hrs)) hanc
  · exact hlt.trans (Tower.lt_of_isRecent hrecent hlast)

end SafeTower

/-- Lockout safety over every run of checked votes from a safe tower (the default tower
is one): the root and the votes form a path of the fork tree, the assertion of
`is_locked_out` holds for every slot that descends from the root, and a slot that passes
the checks comes after the lockout of every vote the tower has held on another fork. -/
theorem lockoutSafety_run {state state' : Tower × List Lockout} {votes : List (ℕ × Hash)}
    (hsafe : SafeTower f state.1 state.2)
    (hrun : Run.exec (checkedVote f) state votes = some state') :
    SafeTower f state'.1 state'.2 ∧
      ∀ slot, state'.1.root.any (fun root => decide (f.IsAncestor root slot)) = true →
        state'.1.isLockedOut slot (f.ancestors slot) ≠ none ∧
        (state'.1.isLockedOut slot (f.ancestors slot) = some false →
          ∀ l ∈ state'.2, ¬f.IsAncestor l.slot slot →
            l.slot + 2 ^ l.confirmationCount < slot) := by
  have hend : SafeTower f state'.1 state'.2 :=
    Run.exec_invariant (P := fun state => SafeTower f state.1 state.2)
      (fun _ _ _ hs hstep => hs.checkedVote hstep) votes hsafe hrun
  refine ⟨hend, fun slot hroot => ⟨hend.isLockedOut_ne_none hroot, ?_⟩⟩
  intro hlock l hl hanc
  exact hend.lockout_lt hroot hlock hl hanc

/-- A fork tree with slots `0`, `1`, ..., `32` on one line and every later slot a
child of `0`. -/
def chainWithSpurs : Forest where
  parent s := if s = 0 then none else if s ≤ 32 then some (s - 1) else some 0
  parent_lt := by
    intro s p h
    split_ifs at h with h0 h32
    · cases h
      omega
    · cases h
      omega

theorem lockoutSafety_run_twoVotes :
    SafeTower chainWithSpurs
        ⟨{ Tower.default.voteState with votes := [⟨1, 2⟩, ⟨2, 1⟩] }, ⟨[2], 0, none⟩⟩
        [⟨1, 1⟩, ⟨1, 2⟩, ⟨2, 1⟩] ∧
      ∀ slot, (some 0).any (fun root => decide (chainWithSpurs.IsAncestor root slot)) = true →
        Tower.isLockedOut ⟨{ Tower.default.voteState with votes := [⟨1, 2⟩, ⟨2, 1⟩] },
            ⟨[2], 0, none⟩⟩ slot (chainWithSpurs.ancestors slot) ≠ none ∧
        (Tower.isLockedOut ⟨{ Tower.default.voteState with votes := [⟨1, 2⟩, ⟨2, 1⟩] },
            ⟨[2], 0, none⟩⟩ slot (chainWithSpurs.ancestors slot) = some false →
          ∀ l ∈ ([⟨1, 1⟩, ⟨1, 2⟩, ⟨2, 1⟩] : List Lockout), ¬chainWithSpurs.IsAncestor l.slot slot →
            l.slot + 2 ^ l.confirmationCount < slot) :=
  @lockoutSafety_run chainWithSpurs (Tower.default, [])
    (⟨{ Tower.default.voteState with votes := [⟨1, 2⟩, ⟨2, 1⟩] }, ⟨[2], 0, none⟩⟩,
      [⟨1, 1⟩, ⟨1, 2⟩, ⟨2, 1⟩])
    [(1, 0), (2, 0)] (safeTower_default chainWithSpurs) (by decide +kernel)

/-- A vote as the replay stage records it when `is_locked_out` says false, with no
other check. -/
def unlockedVote (f : Forest) (t : Tower) (vote : ℕ × Hash) : Option Tower :=
  if t.isLockedOut vote.1 (f.ancestors vote.1) = some false then
    some (t.recordVote vote.1 vote.2).1
  else none

/-- Two runs of votes that `is_locked_out` lets through from the default tower, whose
root `0` is an ancestor of every slot voted for or asked about. After votes for `1`,
..., `32` the root has moved to `1`, and the assertion fails for slot `2 ^ 40`, a child
of `0`. After a vote for `2 ^ 64 - 2`, a vote for `2 ^ 64 - 1` on another fork gets
through within two slots, as the lockout sum of the first wraps to `0`. -/
theorem isLockedOut_after_root_moves :
    (∀ s ∈ (List.range 32).map (· + 1) ++ [2 ^ 40, 2 ^ 64 - 2, 2 ^ 64 - 1],
        chainWithSpurs.IsAncestor 0 s) ∧
      (Run.exec (unlockedVote chainWithSpurs) Tower.default
          ((List.range 32).map fun k => (k + 1, 0))).map
        (fun t => t.isLockedOut (2 ^ 40) (chainWithSpurs.ancestors (2 ^ 40))) = some none ∧
      (Run.exec (unlockedVote chainWithSpurs) Tower.default
          [(2 ^ 64 - 2, 0), (2 ^ 64 - 1, 0)]).isSome ∧
      ¬chainWithSpurs.IsAncestor (2 ^ 64 - 2) (2 ^ 64 - 1) ∧ 2 ^ 64 - 1 ≤ 2 ^ 64 - 2 + 2 ^ 1 := by
  decide +kernel

end Solana.Consensus
