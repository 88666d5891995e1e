import Solana.Vote.Update
import Mathlib

/-! The epoch credits history `increment_credits` keeps over any run (`creditHistory_run`), and
its `u64` wrap (`incrementCredits_replicate_wraps`). -/

namespace Solana.VoteProgram

open MachineInt

/-- The credit history after `calls` credits. -/
structure CreditHistory (history : List (ℕ × ℕ × ℕ)) (calls : ℕ) : Prop where
  length_le : history.length ≤ maxEpochCreditsHistory
  epochs : history.Pairwise (fun a b => a.1 < b.1)
  earned : ∀ entry ∈ history, entry.2.2 < entry.2.1
  chained : history.IsChain (fun a b => b.2.2 = a.2.1)
  nil_iff : history = [] ↔ calls = 0
  last : ∀ entry, history.getLast? = some entry → entry.2.1 = calls

namespace VoteState

theorem bumpLastCredits_append (history : List (ℕ × ℕ × ℕ)) (e c p : ℕ) :
    bumpLastCredits (history ++ [(e, c, p)]) = history ++ [(e, wrappingAdd 64 c 1, p)] := by
  induction history with
  | nil => rfl
  | cons entry history ih =>
    rw [List.cons_append, bumpLastCredits.eq_3 _ _ (by simp), ih, List.cons_append]

/-! ## The three ways of `increment_credits` -/

variable {s : VoteState} {epoch : ℕ}

theorem incrementCredits_first (h : s.epochCredits = []) :
    (s.incrementCredits epoch).epochCredits = [(epoch, 1, 0)] := by
  simp [incrementCredits, h, bumpLastCredits, wrappingAdd, wrap]

theorem incrementCredits_same_epoch {history : List (ℕ × ℕ × ℕ)} {credits prevCredits : ℕ}
    (h : s.epochCredits = history ++ [(epoch, credits, prevCredits)]) :
    (s.incrementCredits epoch).epochCredits =
      history ++ [(epoch, wrappingAdd 64 credits 1, prevCredits)] := by
  simp only [incrementCredits, h, List.getLast?_concat, ne_eq, not_true_eq_false, if_false]
  exact bumpLastCredits_append history epoch credits prevCredits

/-- A new epoch after one that earned credits starts a new entry; the oldest entry goes
once there are more than `MAX_EPOCH_CREDITS_HISTORY`. -/
theorem incrementCredits_new_epoch {history : List (ℕ × ℕ × ℕ)} {lastEpoch credits prevCredits : ℕ}
    (h : s.epochCredits = history ++ [(lastEpoch, credits, prevCredits)]) (hepoch : epoch ≠ lastEpoch)
    (hearned : credits ≠ prevCredits) :
    (s.incrementCredits epoch).epochCredits =
      (if maxEpochCreditsHistory < history.length + 2
        then (history ++ [(lastEpoch, credits, prevCredits)]).tail
        else history ++ [(lastEpoch, credits, prevCredits)]) ++
        [(epoch, wrappingAdd 64 credits 1, credits)] := by
  simp only [incrementCredits, h, List.getLast?_concat, ne_eq, hepoch, hearned, not_false_eq_true,
    if_true, List.length_append, List.length_singleton]
  rw [show history.length + 1 + 1 = history.length + 2 by omega]
  split
  case isTrue hlong =>
    obtain ⟨oldest, rest, hcons⟩ := List.exists_cons_of_ne_nil
      (List.append_ne_nil_of_right_ne_nil history (List.cons_ne_nil (lastEpoch, credits, prevCredits) []))
    rw [hcons, List.cons_append, List.tail_cons, List.tail_cons]
    exact bumpLastCredits_append rest epoch credits credits
  case isFalse => exact bumpLastCredits_append _ epoch credits credits

end VoteState

/-! ## The invariant -/

namespace CreditHistory

variable {history : List (ℕ × ℕ × ℕ)} {calls : ℕ}

/-- Appending an entry that starts where the last one ended, in a later epoch. -/
theorem append {last : ℕ × ℕ × ℕ} (h : CreditHistory (history ++ [last]) calls) {epoch : ℕ}
    (hepoch : last.1 < epoch) :
    (history ++ [last] ++ [(epoch, calls + 1, calls)]).Pairwise (fun a b => a.1 < b.1) ∧
      (∀ entry ∈ history ++ [last] ++ [(epoch, calls + 1, calls)], entry.2.2 < entry.2.1) ∧
      (history ++ [last] ++ [(epoch, calls + 1, calls)]).IsChain (fun a b => b.2.2 = a.2.1) := by
  have hlastCalls : last.2.1 = calls := h.last last (List.getLast?_concat)
  refine ⟨List.pairwise_append.mpr ⟨h.epochs, by simp, ?_⟩, ?_, ?_⟩
  · intro a ha b hb
    rw [List.mem_singleton] at hb
    subst hb
    rcases List.mem_append.mp ha with ha | ha
    · exact lt_trans ((List.pairwise_append.mp h.epochs).2.2 a ha last (by simp)) hepoch
    · rw [List.mem_singleton] at ha
      rw [ha]
      exact hepoch
  · intro entry hentry
    rcases List.mem_append.mp hentry with hentry | hentry
    · exact h.earned entry hentry
    · rw [List.mem_singleton] at hentry
      rw [hentry]
      exact Nat.lt_succ_self calls
  · refine List.isChain_append.mpr ⟨h.chained, List.isChain_singleton _, ?_⟩
    intro x hx y hy
    rw [List.getLast?_concat, Option.mem_some_iff] at hx
    rw [List.head?_cons, Option.mem_some_iff] at hy
    rw [← hx, ← hy, hlastCalls]

/-- The vote account's credits are the number of calls. -/
theorem credits_eq {s : VoteState} (h : CreditHistory s.epochCredits calls) : s.credits = calls := by
  unfold VoteState.credits
  cases hlast : s.epochCredits.getLast? with
  | none => exact (h.nil_iff.mp (List.getLast?_eq_none_iff.mp hlast)).symm
  | some entry => exact h.last entry hlast

end CreditHistory

/-- One credit keeps the history, when its epoch is not before the last one and the count
does not wrap. -/
theorem CreditHistory.incrementCredits {s : VoteState} {calls epoch : ℕ}
    (h : CreditHistory s.epochCredits calls)
    (hepoch : ∀ entry, s.epochCredits.getLast? = some entry → entry.1 ≤ epoch)
    (hcalls : calls + 1 < 2 ^ 64) :
    CreditHistory (s.incrementCredits epoch).epochCredits (calls + 1) ∧
      (s.incrementCredits epoch).epochCredits.getLast?.map (·.1) = some epoch := by
  cases hlast : s.epochCredits.getLast? with
  | none =>
    rw [VoteState.incrementCredits_first (List.getLast?_eq_none_iff.mp hlast)]
    have hcalls0 : calls = 0 := h.nil_iff.mp (List.getLast?_eq_none_iff.mp hlast)
    subst hcalls0
    refine ⟨⟨by simp [maxEpochCreditsHistory], by simp, by simp, List.isChain_singleton _, by simp, by simp⟩, rfl⟩
  | some last =>
    obtain ⟨lastEpoch, credits, prevCredits⟩ := last
    obtain ⟨history, hhistory⟩ := List.getLast?_eq_some_iff.mp hlast
    rw [hhistory] at h hepoch
    have hcredits : credits = calls := h.last _ (List.getLast?_concat)
    have hearned : prevCredits < credits := h.earned (lastEpoch, credits, prevCredits) (by simp)
    have hwrap : wrappingAdd 64 credits 1 = calls + 1 := by
      rw [hcredits]
      exact wrappingAdd_of_lt hcalls
    have hle : lastEpoch ≤ epoch := hepoch _ (List.getLast?_concat)
    by_cases hsame : epoch = lastEpoch
    · subst hsame
      rw [VoteState.incrementCredits_same_epoch hhistory, hwrap]
      have hpairs : (history ++ [(epoch, calls + 1, prevCredits)]).map (·.1) =
          (history ++ [(epoch, credits, prevCredits)]).map (·.1) := by simp
      refine ⟨⟨by simpa using h.length_le, ?_, ?_, ?_, by simp, ?_⟩, by simp⟩
      · rw [← List.pairwise_map, hpairs, List.pairwise_map]
        exact h.epochs
      · intro entry hentry
        rcases List.mem_append.mp hentry with hentry | hentry
        · exact h.earned entry (List.mem_append_left _ hentry)
        · rw [List.mem_singleton] at hentry
          rw [hentry]
          show prevCredits < calls + 1
          omega
      · have hchain := List.isChain_append.mp h.chained
        refine List.isChain_append.mpr ⟨hchain.1, List.isChain_singleton _, ?_⟩
        intro x hx y hy
        rw [List.head?_cons, Option.mem_some_iff] at hy
        rw [← hy]
        exact hchain.2.2 x hx (epoch, credits, prevCredits) (by simp)
      · intro entry hentry
        rw [List.getLast?_concat, Option.some.injEq] at hentry
        rw [← hentry]
    · rw [VoteState.incrementCredits_new_epoch hhistory hsame (by omega), hwrap, hcredits]
      have hlen := h.length_le
      simp only [List.length_append, List.length_singleton] at hlen
      obtain ⟨hepochs, hearned', hchained⟩ :=
        h.append (lt_of_le_of_ne hle (Ne.symm hsame))
      rw [hcredits] at hepochs hearned' hchained
      split
      case isTrue hlong =>
        obtain ⟨oldest, rest, hcons⟩ := List.exists_cons_of_ne_nil
          (List.append_ne_nil_of_right_ne_nil history (List.cons_ne_nil (lastEpoch, calls, prevCredits) []))
        rw [hcons, List.cons_append] at hepochs hearned' hchained
        rw [hcons, List.tail_cons]
        refine ⟨⟨?_, hepochs.of_cons, fun entry hentry => hearned' entry (List.mem_cons_of_mem _ hentry),
          hchained.tail, by simp, by simp⟩, by simp⟩
        have hrest : rest.length = history.length := by
          have hlens := congrArg List.length hcons
          simp only [List.length_append, List.length_cons, List.length_nil] at hlens
          omega
        simp [hrest]
        omega
      case isFalse hshort =>
        refine ⟨⟨?_, hepochs, hearned', hchained, by simp, by simp⟩, by simp⟩
        simp only [List.length_append, List.length_singleton]
        omega

/-- A run of `increment_credits` from an empty history, with epochs that never go back and
fewer than `2 ^ 64` calls: the history it leaves, whose last entry is for the last epoch. -/
theorem creditHistory_run_last {s : VoteState} (hempty : s.epochCredits = []) :
    ∀ epochs : List ℕ, epochs.IsChain (· ≤ ·) → epochs.length < 2 ^ 64 →
      CreditHistory (epochs.foldl VoteState.incrementCredits s).epochCredits epochs.length ∧
        (epochs.foldl VoteState.incrementCredits s).epochCredits.getLast?.map (·.1) =
          epochs.getLast? := by
  intro epochs
  induction epochs using List.reverseRecOn with
  | nil =>
    intro _ _
    rw [List.foldl_nil, hempty]
    exact ⟨⟨by decide, .nil, by simp, .nil, by simp, by simp⟩, rfl⟩
  | append_singleton epochs epoch ih =>
    intro hchain hlen
    have hsteps := List.isChain_append.mp hchain
    rw [List.length_append, List.length_singleton] at hlen
    obtain ⟨h, hlast⟩ := ih hsteps.1 (by omega)
    have hepoch : ∀ entry, (epochs.foldl VoteState.incrementCredits s).epochCredits.getLast? =
        some entry → entry.1 ≤ epoch := by
      intro entry hentry
      rw [hentry, Option.map_some] at hlast
      exact hsteps.2.2 _ hlast.symm _ (by simp)
    rw [List.foldl_append, List.foldl_cons, List.foldl_nil, List.length_append,
      List.length_singleton, List.getLast?_concat]
    exact h.incrementCredits hepoch hlen

theorem creditHistory_run {s : VoteState} (hempty : s.epochCredits = []) (epochs : List ℕ)
    (hepochs : epochs.IsChain (· ≤ ·)) (hcalls : epochs.length < 2 ^ 64) :
    CreditHistory (epochs.foldl VoteState.incrementCredits s).epochCredits epochs.length :=
  (creditHistory_run_last hempty epochs hepochs hcalls).1

theorem creditHistory_run_twoEpochs :
    CreditHistory ([3, 3, 5].foldl VoteState.incrementCredits VoteState.default).epochCredits
      [3, 3, 5].length :=
  creditHistory_run rfl [3, 3, 5] (by decide) (by decide)

/-- From an empty history, `n + 1` calls in one epoch leave one entry that counts them
modulo `2 ^ 64`. -/
theorem incrementCredits_replicate {s : VoteState} (hempty : s.epochCredits = []) (epoch : ℕ) :
    ∀ n, ((List.replicate (n + 1) epoch).foldl VoteState.incrementCredits s).epochCredits =
      [(epoch, (n + 1) % 2 ^ 64, 0)]
  | 0 => VoteState.incrementCredits_first hempty
  | n + 1 => by
    have hprev : ((List.replicate (n + 1) epoch).foldl VoteState.incrementCredits s).epochCredits =
        [] ++ [(epoch, (n + 1) % 2 ^ 64, 0)] := incrementCredits_replicate hempty epoch n
    rw [List.replicate_succ', List.foldl_append, List.foldl_cons, List.foldl_nil,
      VoteState.incrementCredits_same_epoch hprev]
    simp only [List.nil_append, wrappingAdd, wrap, Nat.mod_add_mod]

/-- The count wraps: `2 ^ 64` credits in epoch 0 leave an entry that earned nothing, and
whose credits are not the number of calls. -/
theorem incrementCredits_replicate_wraps :
    ((List.replicate (2 ^ 64) 0).foldl VoteState.incrementCredits VoteState.default).epochCredits =
        [(0, 0, 0)] ∧
      ¬CreditHistory
        ((List.replicate (2 ^ 64) 0).foldl VoteState.incrementCredits VoteState.default).epochCredits
        (2 ^ 64) := by
  have hrun := incrementCredits_replicate (s := VoteState.default) rfl 0 (2 ^ 64 - 1)
  rw [show 2 ^ 64 - 1 + 1 = 2 ^ 64 by decide, Nat.mod_self] at hrun
  refine ⟨hrun, fun h => ?_⟩
  rw [hrun] at h
  exact absurd (h.earned (0, 0, 0) (List.mem_singleton_self _)) (lt_irrefl 0)

/-! ## Credits earned through votes

`process_next_vote_slot` and `process_new_vote_state` change the history only by calling
`increment_credits`, so a run of votes leaves the history of the calls it made. -/

namespace VoteState

/-- `increment_credits` reads nothing but the history. -/
theorem incrementCredits_epochCredits_congr {s t : VoteState} (h : s.epochCredits = t.epochCredits)
    (epoch : ℕ) : (s.incrementCredits epoch).epochCredits = (t.incrementCredits epoch).epochCredits := by
  simp only [incrementCredits, h]

/-- A history that is either unchanged or credited once, in `epoch`. -/
def CreditedOnce (s t : VoteState) (epoch : ℕ) : Prop :=
  t.epochCredits = s.epochCredits ∨ t.epochCredits = (s.incrementCredits epoch).epochCredits

theorem popRoot_creditedOnce (s : VoteState) (epoch : ℕ) : CreditedOnce s (s.popRoot epoch) epoch := by
  unfold popRoot
  split
  · exact Or.inl rfl
  · exact Or.inr (incrementCredits_epochCredits_congr rfl epoch)

theorem processNextVoteSlot_creditedOnce (s : VoteState) (slot epoch : ℕ) :
    CreditedOnce s (s.processNextVoteSlot slot epoch) epoch := by
  unfold processNextVoteSlot
  split
  · exact Or.inl rfl
  · dsimp only
    split
    · rcases popRoot_creditedOnce { s with votes := popExpiredVotes s.votes slot } epoch with h | h
      · exact Or.inl h
      · exact Or.inr (h.trans (incrementCredits_epochCredits_congr rfl epoch))
    · exact Or.inl rfl

/-- An accepted new tower credits its epoch once if the root moves. -/
theorem processNewVoteState_creditedOnce {s s' : VoteState} {newState : List Lockout}
    {newRoot : Option ℕ} {timestamp : Option ℤ} {epoch : ℕ}
    (h : (s.processNewVoteState newState newRoot timestamp epoch).run = some (.ok s')) :
    CreditedOnce s s' epoch := by
  unfold processNewVoteState at h
  dsimp only at h
  obtain ⟨_, _, h⟩ := Fallible.run_bind_eq_ok.mp h
  split at h
  · simp at h
  obtain ⟨_, _, h⟩ := Fallible.run_bind_eq_ok.mp h
  obtain ⟨_, _, h⟩ := Fallible.run_bind_eq_ok.mp h
  obtain ⟨_, _, h⟩ := Fallible.run_bind_eq_ok.mp h
  have hcredited : s'.epochCredits =
      (if s.rootSlot ≠ newRoot then s.incrementCredits epoch else s).epochCredits := by
    split at h
    · obtain ⟨stamped, hstamped, h⟩ := Fallible.run_bind_eq_ok.mp h
      rw [Fallible.run_ofExcept, Option.some.injEq] at hstamped
      rw [Fallible.run_pure, Option.some.injEq, Except.ok.injEq] at h
      rw [← h, processTimestamp_eq_ok hstamped]
    · obtain ⟨stamped, hstamped, h⟩ := Fallible.run_bind_eq_ok.mp h
      rw [Fallible.run_pure, Option.some.injEq, Except.ok.injEq] at hstamped h
      rw [← h, ← hstamped]
  unfold CreditedOnce
  rw [hcredited]
  split
  · exact Or.inr rfl
  · exact Or.inl rfl

end VoteState

/-- The votes `(slot, epoch)` applied one after another by `process_next_vote_slot` leave
the history of some of their epochs, in order. -/
theorem processNextVoteSlot_run_credits (s : VoteState) (votes : List (ℕ × ℕ)) :
    ∃ calls : List ℕ, calls.Sublist (votes.map (·.2)) ∧
      (votes.foldl (fun st vote => st.processNextVoteSlot vote.1 vote.2) s).epochCredits =
        (calls.foldl VoteState.incrementCredits s).epochCredits := by
  induction votes using List.reverseRecOn with
  | nil => exact ⟨[], List.Sublist.slnil, rfl⟩
  | append_singleton votes vote ih =>
    obtain ⟨calls, hsub, hcredits⟩ := ih
    rw [List.foldl_append, List.foldl_cons, List.foldl_nil, List.map_append, List.map_singleton]
    rcases VoteState.processNextVoteSlot_creditedOnce
        (votes.foldl (fun st vote => st.processNextVoteSlot vote.1 vote.2) s) vote.1 vote.2 with h | h
    · exact ⟨calls, hsub.trans (List.sublist_append_left _ _), h.trans hcredits⟩
    · refine ⟨calls ++ [vote.2], hsub.append (List.Sublist.refl _), ?_⟩
      rw [h, List.foldl_append, List.foldl_cons, List.foldl_nil]
      exact VoteState.incrementCredits_epochCredits_congr hcredits vote.2

/-- Votes in epochs that never go back, fewer than `2 ^ 64` of them, from an empty history:
the history is that of the credits they earned. -/
theorem creditHistory_processNextVoteSlot_run {s : VoteState} (hempty : s.epochCredits = [])
    (votes : List (ℕ × ℕ)) (hepochs : (votes.map (·.2)).IsChain (· ≤ ·))
    (hlen : votes.length < 2 ^ 64) :
    ∃ calls ≤ votes.length,
      CreditHistory (votes.foldl (fun st vote => st.processNextVoteSlot vote.1 vote.2) s).epochCredits
        calls := by
  obtain ⟨calls, hsub, hcredits⟩ := processNextVoteSlot_run_credits s votes
  have hcalls : calls.length ≤ votes.length := by
    simpa using hsub.length_le
  refine ⟨calls.length, hcalls, ?_⟩
  rw [hcredits]
  exact (creditHistory_run_last hempty calls (hepochs.sublist hsub) (by omega)).1

/-- Forty votes on consecutive slots, twenty in epoch 0 and twenty in epoch 1: the tower fills
and the run earns credits in both epochs. -/
theorem creditHistory_processNextVoteSlot_run_fortyVotes :
    let votes : List (ℕ × ℕ) := (List.range 40).map fun i => (i + 1, i / 20)
    VoteState.default.epochCredits = [] ∧ (votes.map (·.2)).IsChain (· ≤ ·) ∧
      (votes.foldl (fun st vote => st.processNextVoteSlot vote.1 vote.2)
        VoteState.default).epochCredits ≠ [] ∧
      ∃ calls ≤ votes.length, CreditHistory (votes.foldl
        (fun st vote => st.processNextVoteSlot vote.1 vote.2) VoteState.default).epochCredits calls := by
  intro votes
  have hchain : (votes.map (·.2)).IsChain (· ≤ ·) := by decide
  have hcredited : (votes.foldl (fun st vote => st.processNextVoteSlot vote.1 vote.2)
      VoteState.default).epochCredits ≠ [] := by decide +kernel
  exact ⟨rfl, hchain, hcredited,
    creditHistory_processNextVoteSlot_run (s := VoteState.default) rfl votes hchain (by decide)⟩

end Solana.VoteProgram
