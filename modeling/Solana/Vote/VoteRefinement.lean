import Solana.Vote.NewVoteState
import Solana.Consensus.Lockout
import Solana.Lib.Run

/-! Replacing the tower by `process_new_vote_state` refines voting slot by slot with
`process_next_vote_slot` (`Lockout.Fate`, `LockoutSafe`). -/

namespace Solana.VoteProgram

open SortedKeys
open Consensus (processNextVoteSlot_of_mem_popExpiredVotes mem_popExpiredVotes_or_expired
  lastVotedSlot_processNextVoteSlot add_two_pow_le)
open VoteState (popExpiredVotes)

/-! ## One vote -/

section Step

variable {s : VoteState} {slot epoch : ℕ}

/-- Every vote after a new one survived the popping, or is the new one. -/
theorem slot_of_mem_processNextVoteSlot (hnew : ¬s.lastVotedSlot.any (fun last => slot ≤ last))
    {w : Lockout} (hw : w ∈ (s.processNextVoteSlot slot epoch).votes) :
    (∃ v ∈ popExpiredVotes s.votes slot, w.slot = v.slot) ∨ w.slot = slot := by
  rcases processNextVoteSlot_cases epoch hnew with
    ⟨u, rest, hpop, _, hvotes, _⟩ | ⟨_, hvotes, _⟩
  · rw [hvotes] at hw
    exact forall_slot_doubleLockouts_push
      (P := fun x => (∃ v ∈ popExpiredVotes s.votes slot, x = v.slot) ∨ x = slot)
      (fun v hv => .inl ⟨v, hpop ▸ List.mem_cons_of_mem u hv, rfl⟩) (.inr rfl) w hw
  · rw [hvotes] at hw
    exact forall_slot_doubleLockouts_push
      (P := fun x => (∃ v ∈ popExpiredVotes s.votes slot, x = v.slot) ∨ x = slot)
      (fun v hv => .inl ⟨v, hv, rfl⟩) (.inr rfl) w hw

/-- The new vote is on the stack. -/
theorem exists_slot_processNextVoteSlot (hnew : ¬s.lastVotedSlot.any (fun last => slot ≤ last)) :
    ∃ w ∈ (s.processNextVoteSlot slot epoch).votes, w.slot = slot := by
  have hlast := lastVotedSlot_processNextVoteSlot epoch hnew
  unfold VoteState.lastVotedSlot VoteState.lastLockout at hlast
  obtain ⟨w, hw, hslot⟩ := Option.map_eq_some_iff.mp hlast
  exact ⟨w, List.mem_of_getLast? hw, hslot⟩

/-- A vote that is popped lies above every vote that survives the popping. -/
theorem lt_of_not_mem_popExpiredVotes {votes : List Lockout}
    (hsorted : votes.Pairwise (·.slot < ·.slot)) {d : Lockout} (hd : d ∈ votes)
    (hpopped : d ∉ popExpiredVotes votes slot) :
    ∀ v ∈ popExpiredVotes votes slot, v.slot < d.slot := by
  obtain ⟨rest, hsplit⟩ := popExpiredVotes_isPrefix votes slot
  rw [← hsplit] at hsorted hd
  have hrest : d ∈ rest := (List.mem_append.mp hd).resolve_left hpopped
  exact fun v hv => (List.pairwise_append.mp hsorted).2.2 v hv d hrest

/-- For a new slot, replacing the tower by the one `process_next_vote_slot` builds gives
its state: the root moves only when the oldest vote pops, and then the epoch earns the
credit both ways, provided the root lies below every vote. -/
theorem processNextVoteSlot_eq_replaced (hnew : ¬s.lastVotedSlot.any (fun last => slot ≤ last))
    (hroot : ∀ r ∈ s.rootSlot, ∀ v ∈ s.votes, r < v.slot) :
    { (if s.rootSlot ≠ (s.processNextVoteSlot slot epoch).rootSlot then s.incrementCredits epoch
        else s) with
      rootSlot := (s.processNextVoteSlot slot epoch).rootSlot,
      votes := (s.processNextVoteSlot slot epoch).votes } = s.processNextVoteSlot slot epoch := by
  unfold VoteState.processNextVoteSlot
  rw [if_neg hnew]
  dsimp only
  split
  · unfold VoteState.popRoot
    split
    case h_1 => simp
    case h_2 v rest hpop =>
      have hv : v ∈ s.votes := (popExpiredVotes_isPrefix s.votes slot).subset (by
        rw [show popExpiredVotes s.votes slot = v :: rest from hpop]
        exact List.mem_cons_self)
      have hmoved : s.rootSlot ≠ some v.slot := by
        intro hr
        exact lt_irrefl _ (hroot v.slot (Option.mem_def.mpr hr) v hv)
      simp only [VoteState.incrementCredits_rootSlot, ne_eq, hmoved, not_false_eq_true, if_true]
      rfl
  · simp

end Step

/-! ## The fate of a vote -/

/-- Where a vote `c` of the starting tower stands in a later tower `t` of a run of votes. -/
inductive Lockout.Fate (c : Lockout) (t : VoteState) : Prop
  /-- still on the stack, with at least its confirmations -/
  | kept (d : Lockout) (hd : d ∈ t.votes) (hslot : d.slot = c.slot)
      (hcount : c.confirmationCount ≤ d.confirmationCount)
  /-- at or under the root -/
  | rooted (r : ℕ) (hr : t.rootSlot = some r) (hle : c.slot ≤ r)
  /-- popped: its slot is gone, the stack reaches past it, and every later slot on the stack
  is past its lockout -/
  | expired (hgone : ∀ d ∈ t.votes, d.slot ≠ c.slot)
      (hafter : ∀ d ∈ t.votes, c.slot < d.slot → c.slot + 2 ^ c.confirmationCount < d.slot)
      (habove : ∃ d ∈ t.votes, c.slot < d.slot)

/-- One vote for a new slot keeps the fate of a vote: a kept vote stays, goes under the
root, or is popped by a slot past its lockout, which its slot does not wrap. -/
theorem Lockout.Fate.processNextVoteSlot {c : Lockout} {t : VoteState} {slot epoch : ℕ}
    (h : c.Fate t) (hinv : TowerInvariant t.votes t.rootSlot)
    (hnew : ¬t.lastVotedSlot.any (fun last => slot ≤ last))
    (hslot : slot + 2 ^ maxLockoutHistory < 2 ^ 64) :
    c.Fate (t.processNextVoteSlot slot epoch) := by
  have hbelow := hinv.toLockoutStack.lt_of_new hnew
  have hslots := fun w (hw : w ∈ (t.processNextVoteSlot slot epoch).votes) =>
    slot_of_mem_processNextVoteSlot hnew hw
  obtain ⟨new, hnewMem, hnewSlot⟩ : ∃ w ∈ (t.processNextVoteSlot slot epoch).votes, w.slot = slot :=
    exists_slot_processNextVoteSlot hnew
  cases h with
  | kept d hd hdslot hcount =>
    by_cases hkept : d ∈ popExpiredVotes t.votes slot
    · rcases processNextVoteSlot_of_mem_popExpiredVotes epoch hnew hkept with
        ⟨w, hw, hwslot, hwcount⟩ | hroot
      · exact .kept w hw (hwslot.trans hdslot) (hcount.trans hwcount)
      · exact .rooted d.slot hroot hdslot.ge
    · have hexpired : d.lastLockedOutSlot < slot :=
        (mem_popExpiredVotes_or_expired hd).resolve_left hkept
      have hdbelow : d.slot < slot := hbelow d hd
      rw [Lockout.lastLockedOutSlot_of_lt d
        (Lockout.add_two_pow_lt (hinv.count_le d hd) (by omega))] at hexpired
      have hend : c.slot + 2 ^ c.confirmationCount < slot :=
        lt_of_le_of_lt (add_two_pow_le hdslot hcount) hexpired
      have hunder := lt_of_not_mem_popExpiredVotes hinv.toLockoutStack.slots_increasing hd hkept
      refine .expired (fun w hw => ?_) (fun w hw hcw => ?_) ⟨new, hnewMem, by omega⟩
      · rcases hslots w hw with ⟨v, hv, hwv⟩ | hws
        · have := hunder v hv
          omega
        · omega
      · rcases hslots w hw with ⟨v, hv, hwv⟩ | hws
        · have := hunder v hv
          omega
        · omega
  | rooted r hr hle =>
    obtain ⟨r', hr', hrr'⟩ := (TowerInvariant.processNextVoteSlot slot epoch hinv).2 r hr
    exact .rooted r' hr' (hle.trans hrr')
  | expired hgone hafter habove =>
    obtain ⟨d, hd, hcd⟩ := habove
    have hdbelow := hbelow d hd
    have hbound := hafter d hd hcd
    have hsub := (popExpiredVotes_isPrefix t.votes slot).subset
    refine .expired (fun w hw => ?_) (fun w hw hcw => ?_) ⟨new, hnewMem, by omega⟩
    · rcases hslots w hw with ⟨v, hv, hwv⟩ | hws
      · rw [hwv]
        exact hgone v (hsub hv)
      · omega
    · rcases hslots w hw with ⟨v, hv, hwv⟩ | hws
      · rw [hwv] at hcw ⊢
        exact hafter v (hsub hv) hcw
      · omega

/-! ## Runs of votes -/

/-- Slots voted one after another, increasing, above the last vote, and below
`2 ^ 64 - 2 ^ 31`. -/
def NewSlots (t : VoteState) (slots : List ℕ) : Prop :=
  slots.Pairwise (· < ·) ∧ (∀ slot ∈ slots, ∀ last ∈ t.lastVotedSlot, last < slot) ∧
    ∀ slot ∈ slots, slot + 2 ^ maxLockoutHistory < 2 ^ 64

namespace NewSlots

variable {t : VoteState} {slot : ℕ} {rest : List ℕ}

theorem not_any (h : NewSlots t (slot :: rest)) :
    ¬t.lastVotedSlot.any (fun last => slot ≤ last) := by
  cases hlast : t.lastVotedSlot with
  | none => simp
  | some last =>
    simpa using h.2.1 slot List.mem_cons_self last (Option.mem_def.mpr hlast)

/-- After the first vote, the rest are new for the tower it makes. -/
theorem tail (h : NewSlots t (slot :: rest)) (epoch : ℕ) :
    NewSlots (t.processNextVoteSlot slot epoch) rest := by
  have hnew := h.not_any
  obtain ⟨hsorted, _, hwrap⟩ := h
  refine ⟨(List.pairwise_cons.mp hsorted).2, fun s hs last hlast => ?_,
    fun s hs => hwrap s (List.mem_cons_of_mem _ hs)⟩
  rw [lastVotedSlot_processNextVoteSlot epoch hnew, Option.mem_some_iff] at hlast
  rw [← hlast]
  exact (List.pairwise_cons.mp hsorted).1 s hs

end NewSlots

/-- What a run of votes for new slots from the tower `S` keeps up to the tower `T`. -/
structure RunFrom (S T : VoteState) : Prop where
  tower : TowerInvariant T.votes T.rootSlot
  root : RootAdvance S.rootSlot T.rootSlot
  bounded : ∀ v ∈ T.votes, v.slot + 2 ^ maxLockoutHistory < 2 ^ 64
  fate : ∀ c ∈ S.votes, c.Fate T

namespace RunFrom

variable {S T : VoteState}

/-- A tower with the invariant, about to vote for new slots. -/
theorem start (hinv : TowerInvariant S.votes S.rootSlot) {slot : ℕ} {rest : List ℕ}
    (hslots : NewSlots S (slot :: rest)) : RunFrom S S where
  tower := hinv
  root := RootAdvance.refl _
  bounded v hv := by
    have := hinv.toLockoutStack.lt_of_new hslots.not_any v hv
    have := hslots.2.2 slot List.mem_cons_self
    omega
  fate c hc := .kept c hc rfl le_rfl

theorem processNextVoteSlot (h : RunFrom S T) {slot : ℕ} {rest : List ℕ}
    (hslots : NewSlots T (slot :: rest)) (epoch : ℕ) :
    RunFrom S (T.processNextVoteSlot slot epoch) where
  tower := (TowerInvariant.processNextVoteSlot slot epoch h.tower).1
  root := h.root.trans (TowerInvariant.processNextVoteSlot slot epoch h.tower).2
  bounded w hw := by
    rcases slot_of_mem_processNextVoteSlot hslots.not_any hw with ⟨v, hv, hwv⟩ | hws
    · rw [hwv]
      exact h.bounded v ((popExpiredVotes_isPrefix _ _).subset hv)
    · rw [hws]
      exact hslots.2.2 slot List.mem_cons_self
  fate c hc :=
    (h.fate c hc).processNextVoteSlot h.tower hslots.not_any (hslots.2.2 slot List.mem_cons_self)

/-- The run rule: the whole run keeps what each vote keeps. -/
theorem run (h : RunFrom S T) {slots : List ℕ} (hslots : NewSlots T slots) (epoch : ℕ) :
    RunFrom S (slots.foldl (fun st slot => st.processNextVoteSlot slot epoch) T) :=
  Run.foldl_invariant (fun st slot => st.processNextVoteSlot slot epoch) _
    (fun _ _ _ hready => hready.tail epoch) (fun _ _ _ hrun hready => hrun.processNextVoteSlot hready epoch)
    slots h hslots

/-- The votes of the starting tower above the root the run reached are kept or expired
before the first slot after them, as the merge loop asks. -/
theorem lockoutSafe (h : RunFrom S T) : LockoutSafe S.votes T.votes T.rootSlot := by
  intro c hc hroot
  cases h.fate c hc with
  | kept d hd hslot hcount => exact .inl ⟨d, hd, hslot, hcount⟩
  | rooted r hr hle => exact absurd (hroot r (Option.mem_def.mpr hr)) (Nat.not_lt.mpr hle)
  | expired hgone hafter habove =>
    obtain ⟨d, hd, hcd⟩ := habove
    have hsorted := h.tower.toLockoutStack.slots_increasing
    obtain ⟨n, rest, hdrop⟩ := exists_head_dropWhile (downClosed_slot_le c.slot) hsorted hd
      (by simpa using hcd)
    obtain ⟨hn, hpn, hleast⟩ := head_dropWhile (downClosed_slot_le c.slot) hsorted hdrop
    have hcn : c.slot < n.slot := by simpa using hpn
    exact .inr ⟨n, hn, hcn, fun m hm hcm => by simpa using hleast m hm (by simpa using hcm),
      hafter n hn hcn⟩

end RunFrom

/-- After at least one new slot the tower is not empty. -/
theorem votes_ne_nil_run {t : VoteState} {slot : ℕ} {rest : List ℕ} (epoch : ℕ)
    (hslots : NewSlots t (slot :: rest)) :
    ((slot :: rest).foldl (fun st slot => st.processNextVoteSlot slot epoch) t).votes ≠ [] := by
  have hvotes : ∀ (u : VoteState) (a : ℕ) (as : List ℕ), NewSlots u (a :: as) →
      (u.processNextVoteSlot a epoch).votes ≠ [] := fun u a as hready => by
    obtain ⟨w, hw, -⟩ : ∃ w ∈ (u.processNextVoteSlot a epoch).votes, w.slot = a :=
      exists_slot_processNextVoteSlot hready.not_any
    exact List.ne_nil_of_mem hw
  exact Run.foldl_invariant (P := fun u => u.votes ≠ []) _ _
    (fun _ _ _ hready => hready.tail epoch) (fun u a as _ hready => hvotes u a as hready) rest
    (hvotes t slot rest hslots) (hslots.tail epoch)

/-! ## The refinement -/

/-- From a tower with the invariant, voting for increasing new slots below `2 ^ 64 - 2 ^ 31`
one at a time builds a tower that `process_new_vote_state` accepts as a replacement, with
the same votes and root; after one slot the replacement is the same state, when the root
lies below every vote. -/
theorem processNewVoteState_refines_processNextVoteSlot {S S' : VoteState} {slots : List ℕ}
    {epoch : ℕ} (hinv : TowerInvariant S.votes S.rootSlot) (hchain : slots.IsChain (· < ·))
    (hne : slots ≠ []) (hnew : ∀ slot ∈ slots, ∀ last ∈ S.lastVotedSlot, last < slot)
    (hwrap : ∀ slot ∈ slots, slot + 2 ^ maxLockoutHistory < 2 ^ 64)
    (hrun : slots.foldl (fun st slot => st.processNextVoteSlot slot epoch) S = S') :
    (∃ R, (S.processNewVoteState S'.votes S'.rootSlot none epoch).run = some (.ok R) ∧
        R.votes = S'.votes ∧ R.rootSlot = S'.rootSlot) ∧
      (slots.length = 1 → (∀ r ∈ S.rootSlot, ∀ v ∈ S.votes, r < v.slot) →
        (S.processNewVoteState S'.votes S'.rootSlot none epoch).run = some (.ok S')) := by
  obtain ⟨first, rest, rfl⟩ := List.exists_cons_of_ne_nil hne
  have hslots : NewSlots S (first :: rest) := ⟨List.isChain_iff_pairwise.mp hchain, hnew, hwrap⟩
  have h : RunFrom S S' := hrun ▸ (RunFrom.start hinv hslots).run hslots epoch
  have hok : (S.processNewVoteState S'.votes S'.rootSlot none epoch).run = _ :=
    processNewVoteState_run_of_lockoutSafe
    hinv.toLockoutStack.slots_increasing (hrun ▸ votes_ne_nil_run epoch hslots) h.bounded h.root
    h.tower.toLockoutStack (fun r hr hr0 v hv => h.tower.root_lt r (Option.mem_def.mp hr) hr0 v hv)
    h.lockoutSafe
  refine ⟨⟨_, hok, rfl, rfl⟩, fun hlen hroot => ?_⟩
  have hrest : rest = [] := by simpa using hlen
  subst hrest hrun
  simp only [List.foldl_cons, List.foldl_nil] at hok ⊢
  rw [hok]
  exact congrArg (fun R : VoteState => (some (.ok R) : Option (Except VoteError VoteState)))
    (processNextVoteSlot_eq_replaced hslots.not_any hroot)

theorem processNewVoteState_refines_threeSlots :
    let S' := [1, 2, 3].foldl (fun st slot => st.processNextVoteSlot slot 0) VoteState.default
    TowerInvariant VoteState.default.votes VoteState.default.rootSlot ∧
      [1, 2, 3].IsChain (· < ·) ∧ [1, 2, 3] ≠ [] ∧
      (∀ slot ∈ [1, 2, 3], ∀ last ∈ VoteState.default.lastVotedSlot, last < slot) ∧
      (∀ slot ∈ [1, 2, 3], slot + 2 ^ maxLockoutHistory < 2 ^ 64) ∧
      ((∃ R, (VoteState.default.processNewVoteState S'.votes S'.rootSlot none 0).run =
          some (.ok R) ∧ R.votes = S'.votes ∧ R.rootSlot = S'.rootSlot) ∧
        ([1, 2, 3].length = 1 → (∀ r ∈ VoteState.default.rootSlot, ∀ v ∈ VoteState.default.votes,
            r < v.slot) →
          (VoteState.default.processNewVoteState S'.votes S'.rootSlot none 0).run = some (.ok S'))) :=
  ⟨towerInvariant_nil, by decide, by decide, by decide, by decide,
    processNewVoteState_refines_processNextVoteSlot towerInvariant_nil (by decide) (by decide)
      (by decide) (by decide) rfl⟩

/-- A full tower of consecutive votes for slots 0 to 30, under a root of slot 0: the
invariant checks no root of slot 0, and `process_new_vote_state` accepts such a tower. -/
def fullTowerAtRootZero : VoteState :=
  { VoteState.default with
    votes := (List.range 31).map fun i => ⟨i, 31 - i⟩, rootSlot := some 0 }

/-- The one-slot case fails at a root of slot 0 on a vote for slot 0: the vote for slot 31
pops the vote for slot 0 into the root and earns a credit, while the replacement sees the
root `Some(0)` unchanged and earns none. -/
theorem processNewVoteState_misses_credit_at_root_zero :
    TowerInvariant fullTowerAtRootZero.votes fullTowerAtRootZero.rootSlot ∧
      (fullTowerAtRootZero.processNextVoteSlot 31 0).epochCredits = [(0, 1, 0)] ∧
      ∃ R, (fullTowerAtRootZero.processNewVoteState (fullTowerAtRootZero.processNextVoteSlot 31 0).votes
          (fullTowerAtRootZero.processNextVoteSlot 31 0).rootSlot none 0).run = some (.ok R) ∧
        R.epochCredits = [] := by
  refine ⟨⟨⟨by decide, ?_, by decide, by decide⟩, by simp [fullTowerAtRootZero],
    by simp [fullTowerAtRootZero]⟩, rfl, _, rfl, rfl⟩
  unfold Lockout.Stacked
  decide

/-- Near `u64::MAX` the run itself is accepted but its tower is not: after votes for
`2 ^ 64 - 3` and `2 ^ 64 - 2`, the lockout of the first wraps to slot 1 and the second
vote seems to lie past it. -/
theorem processNewVoteState_rejects_wrapped_run :
    let S' := [2 ^ 64 - 3, 2 ^ 64 - 2].foldl (fun st slot => st.processNextVoteSlot slot 0)
      VoteState.default
    [2 ^ 64 - 3, 2 ^ 64 - 2].IsChain (· < ·) ∧
      (VoteState.default.processNewVoteState S'.votes S'.rootSlot none 0).run =
        some (.error .newVoteStateLockoutMismatch) :=
  ⟨by decide, rfl⟩

end Solana.VoteProgram
