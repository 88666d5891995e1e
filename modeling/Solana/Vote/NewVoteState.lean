import Solana.Vote.TowerInvariant
import Solana.Lib.SortedKeys

/-! What `process_new_vote_state` accepts: exactly the stacks that honour the current lockouts
above the root (`processNewVoteState_lockoutSafe_iff`). -/

namespace Solana.VoteProgram

open SortedKeys
open VoteState (checkRootRollBack checkNewVotes checkLockoutConflicts votesAboveRoot)

/-! ## The checks that pass -/

theorem checkRootRollBack_of_rootAdvance {newRoot currentRoot : Option ℕ}
    (h : RootAdvance currentRoot newRoot) : checkRootRollBack newRoot currentRoot = .ok () := by
  cases currentRoot with
  | none => cases newRoot <;> rfl
  | some r =>
    obtain ⟨r', rfl, hle⟩ := h r rfl
    simp [checkRootRollBack, Nat.not_lt.mpr hle]

/-- The converse of `checkNewVotes_stacked`: a stack whose lockouts do not wrap passes the
first loop. -/
theorem checkNewVotes_eq_ok_of_stacked {newRoot : Option ℕ} :
    ∀ {previous : Option Lockout} {votes : List Lockout},
      (previous.toList ++ votes).IsChain Lockout.Stacked →
      (∀ v ∈ votes, 0 < v.confirmationCount ∧ v.confirmationCount ≤ maxLockoutHistory ∧
          ∀ r, newRoot = some r → r ≠ 0 → r < v.slot) →
      (∀ p ∈ previous.toList ++ votes, p.slot + 2 ^ p.confirmationCount < 2 ^ 64) →
      checkNewVotes newRoot previous votes = .ok ()
  | _, [], _, _, _ => rfl
  | previous, vote :: rest, hchain, hvotes, hwrap => by
    obtain ⟨hpos, hle, hroot⟩ := hvotes vote List.mem_cons_self
    have hchain' : (vote :: rest).IsChain Lockout.Stacked := hchain.infix ⟨previous.toList, [], by simp⟩
    have hrest : checkNewVotes newRoot (some vote) rest = .ok () :=
      checkNewVotes_eq_ok_of_stacked (by simpa using hchain')
        (fun v hv => hvotes v (List.mem_cons_of_mem _ hv)) (fun p hp => hwrap p (by simp_all))
    have hany : ¬(newRoot.any fun root => decide (vote.slot ≤ root ∧ root ≠ 0)) = true := by
      cases newRoot with
      | none => simp
      | some r =>
        simp only [Option.any_some, decide_eq_true_eq, not_and]
        exact fun hslot hr0 => absurd (hroot r rfl hr0) (Nat.not_lt.mpr hslot)
    rw [checkNewVotes, if_neg hpos.ne', if_neg (Nat.not_lt.mpr hle), if_neg hany]
    cases previous with
    | none => exact hrest
    | some p =>
      obtain ⟨hslot, hcount, hlockout⟩ : p.Stacked vote :=
        (List.isChain_cons_cons.mp (by simpa using hchain)).1
      have hlast : p.lastLockedOutSlot = p.slot + 2 ^ p.confirmationCount :=
        Lockout.lastLockedOutSlot_of_lt p (hwrap p (by simp))
      simp [Nat.not_le.mpr hslot, Nat.not_le.mpr hcount, hlast, Nat.not_lt.mpr hlockout, hrest]

/-- A new tower that passes every check replaces the tower; the epoch earns a credit when
the root moves. -/
theorem processNewVoteState_run_of_checks {s : VoteState} {newState : List Lockout}
    {newRoot : Option ℕ} {epoch : ℕ} (hne : newState ≠ [])
    (hlen : newState.length ≤ maxLockoutHistory)
    (hroot : checkRootRollBack newRoot s.rootSlot = .ok ())
    (hnew : checkNewVotes newRoot none newState = .ok ())
    (hconflicts : checkLockoutConflicts (votesAboveRoot s.votes newRoot) newState = .ok ()) :
    (s.processNewVoteState newState newRoot none epoch).run =
      some (.ok { (if s.rootSlot ≠ newRoot then s.incrementCredits epoch else s) with
        rootSlot := newRoot, votes := newState }) := by
  simp [VoteState.processNewVoteState, Fallible.assert, hne, Nat.not_lt.mpr hlen, hroot, hnew,
    hconflicts]

/-- A new tower that is accepted passed the merge loop. -/
theorem processNewVoteState_conflicts_eq_ok {s s' : VoteState} {newState : List Lockout}
    {newRoot : Option ℕ} {timestamp : Option ℤ} {epoch : ℕ}
    (h : (s.processNewVoteState newState newRoot timestamp epoch).run = some (.ok s')) :
    checkLockoutConflicts (votesAboveRoot s.votes newRoot) newState = .ok () := by
  unfold VoteState.processNewVoteState at h
  dsimp only at h
  obtain ⟨_, _, h⟩ := Fallible.run_bind_eq_ok.mp h
  split at h
  · simp at h
  obtain ⟨_, _, h⟩ := Fallible.run_bind_eq_ok.mp h
  obtain ⟨_, _, h⟩ := Fallible.run_bind_eq_ok.mp h
  obtain ⟨_, hconflicts, _⟩ := Fallible.run_bind_eq_ok.mp h
  rw [Fallible.run_ofExcept, Option.some.injEq] at hconflicts
  exact hconflicts

/-! ## The merge loop -/

/-- What the merge loop asks of a current vote, given the first proposed vote at or above
its slot: a later proposed slot lies past its lockout, the same slot keeps at least its
confirmations. -/
def Lockout.NoConflict (current : Lockout) : Option Lockout → Prop
  | none => True
  | some new =>
    if current.slot < new.slot then current.lastLockedOutSlot < new.slot
    else current.confirmationCount ≤ new.confirmationCount

theorem downClosed_slot_lt (slot : ℕ) :
    DownClosed (·.slot) (fun v : Lockout => decide (v.slot < slot)) := by
  intro x y hxy hy
  dsimp only at hxy
  simp only [decide_eq_true_eq] at hy ⊢
  omega

theorem downClosed_slot_le (slot : ℕ) :
    DownClosed (·.slot) (fun v : Lockout => decide (v.slot ≤ slot)) := by
  intro x y hxy hy
  dsimp only at hxy
  simp only [decide_eq_true_eq] at hy ⊢
  omega

/-- On a tower, the votes above the new root are those whose slot is above it. -/
theorem mem_votesAboveRoot {votes : List Lockout} (hsorted : votes.Pairwise (·.slot < ·.slot))
    {newRoot : Option ℕ} {c : Lockout} :
    c ∈ votesAboveRoot votes newRoot ↔ c ∈ votes ∧ ∀ r ∈ newRoot, r < c.slot := by
  cases newRoot with
  | none => simp [votesAboveRoot]
  | some r =>
    rw [votesAboveRoot, mem_dropWhile_iff (downClosed_slot_le r) hsorted]
    simp

/-- A current vote for a later slot reads the proposal past what an earlier one skipped. -/
theorem dropWhile_slot_lt_of_le (news : List Lockout) {a b : ℕ} (h : a ≤ b) :
    ((news.dropWhile fun new => new.slot < a).dropWhile fun new => new.slot < b) =
      news.dropWhile fun new => new.slot < b :=
  dropWhile_dropWhile_of_imp (fun x hx => by simp only [decide_eq_true_eq] at hx ⊢; omega) news

/-- Over current votes in slot order, the merge loop passes exactly when each current
vote has no conflict with the first proposed vote at or above its slot. -/
theorem checkLockoutConflicts_eq_ok_iff :
    ∀ {currents : List Lockout}, currents.Pairwise (·.slot < ·.slot) → ∀ news : List Lockout,
      checkLockoutConflicts currents news = .ok () ↔
        ∀ c ∈ currents, c.NoConflict (news.dropWhile fun new => new.slot < c.slot).head?
  | [], _, news => by simp [checkLockoutConflicts]
  | c :: cs, hsorted, news => by
    obtain ⟨hc, hcs⟩ := List.pairwise_cons.mp hsorted
    have hlater : ∀ c' ∈ cs, (news.dropWhile fun new => new.slot < c'.slot) =
        ((news.dropWhile fun new => new.slot < c.slot).dropWhile fun new => new.slot < c'.slot) :=
      fun c' hc' => (dropWhile_slot_lt_of_le news (hc c' hc').le).symm
    rw [List.forall_mem_cons, checkLockoutConflicts]
    cases hdrop : news.dropWhile fun new => new.slot < c.slot with
    | nil =>
      refine iff_of_true rfl ⟨trivial, fun c' hc' => ?_⟩
      rw [hlater c' hc', hdrop]
      trivial
    | cons new rest =>
      have hnew : ¬new.slot < c.slot := by simpa using head_dropWhile_eq_false hdrop
      simp only [List.head?_cons, Lockout.NoConflict]
      by_cases hlt : c.slot < new.slot
      · rw [if_pos hlt, if_pos hlt]
        by_cases hconflict : new.slot ≤ c.lastLockedOutSlot
        · rw [if_pos hconflict]
          simp [hconflict]
        · have hall : (∀ c' ∈ cs, c'.NoConflict
                ((new :: rest).dropWhile fun new => new.slot < c'.slot).head?) ↔
              ∀ c' ∈ cs, c'.NoConflict (news.dropWhile fun new => new.slot < c'.slot).head? :=
            forall₂_congr fun c' hc' => by rw [hlater c' hc', hdrop]
          rw [if_neg hconflict, checkLockoutConflicts_eq_ok_iff hcs (new :: rest), hall]
          exact ⟨fun h => ⟨Nat.lt_of_not_le hconflict, h⟩, fun h => h.2⟩
      · rw [if_neg hlt, if_neg hlt]
        have hslot : new.slot = c.slot := by omega
        by_cases hcount : new.confirmationCount < c.confirmationCount
        · rw [if_pos hcount]
          simp only [reduceCtorEq, false_iff, not_and]
          exact fun hle => absurd hcount (Nat.not_lt.mpr hle)
        · have hall : (∀ c' ∈ cs, c'.NoConflict
                (rest.dropWhile fun new => new.slot < c'.slot).head?) ↔
              ∀ c' ∈ cs, c'.NoConflict (news.dropWhile fun new => new.slot < c'.slot).head? :=
            forall₂_congr fun c' hc' => by
              rw [hlater c' hc', hdrop, List.dropWhile_cons,
                if_pos (by simpa [hslot] using hc c' hc')]
          rw [if_neg hcount, checkLockoutConflicts_eq_ok_iff hcs rest, hall]
          exact ⟨fun h => ⟨Nat.le_of_not_lt hcount, h⟩, fun h => h.2⟩

/-! ## Lockout safety -/

/-- Every current vote above the new root is kept with at least its confirmations, or its
lockout ends before the first proposed slot after it. -/
def LockoutSafe (votes newState : List Lockout) (newRoot : Option ℕ) : Prop :=
  ∀ c ∈ votes, (∀ r ∈ newRoot, r < c.slot) →
    (∃ n ∈ newState, n.slot = c.slot ∧ c.confirmationCount ≤ n.confirmationCount) ∨
      ∃ t ∈ newState, c.slot < t.slot ∧ (∀ m ∈ newState, c.slot < m.slot → t.slot ≤ m.slot) ∧
        c.slot + 2 ^ c.confirmationCount < t.slot

instance (votes newState : List Lockout) (newRoot : Option ℕ) :
    Decidable (LockoutSafe votes newState newRoot) := by
  unfold LockoutSafe
  infer_instance

/-- A count within `MAX_LOCKOUT_HISTORY` on a slot below `2 ^ 64 - 2 ^ 31` does not wrap. -/
theorem Lockout.add_two_pow_lt {v : Lockout} (hcount : v.confirmationCount ≤ maxLockoutHistory)
    (hslot : v.slot + 2 ^ maxLockoutHistory < 2 ^ 64) : v.slot + 2 ^ v.confirmationCount < 2 ^ 64 :=
  lt_of_le_of_lt (Nat.add_le_add_left (Nat.pow_le_pow_right (by norm_num) hcount) _) hslot

theorem votesAboveRoot_sublist (votes : List Lockout) (newRoot : Option ℕ) :
    (votesAboveRoot votes newRoot).Sublist votes := by
  cases newRoot with
  | none => exact List.Sublist.refl votes
  | some r => exact List.dropWhile_sublist _

variable {votes newState : List Lockout} {newRoot : Option ℕ}

/-- What the merge loop finds says that the lockouts are honoured, when they do not wrap and
the proposal reaches past every current vote. -/
theorem LockoutSafe.of_noConflict (hsorted : newState.Pairwise (·.slot < ·.slot))
    (hwrap : ∀ c ∈ votes, c.slot + 2 ^ c.confirmationCount < 2 ^ 64)
    (habove : ∀ c ∈ votes, ∃ t ∈ newState, c.slot < t.slot)
    (h : ∀ c ∈ votes, (∀ r ∈ newRoot, r < c.slot) →
      c.NoConflict (newState.dropWhile fun new => new.slot < c.slot).head?) :
    LockoutSafe votes newState newRoot := by
  intro c hc hroot
  obtain ⟨t, ht, hct⟩ := habove c hc
  obtain ⟨n, rest, hdrop⟩ := exists_head_dropWhile (downClosed_slot_lt c.slot) hsorted ht
    (by simpa using hct.le)
  obtain ⟨hn, hpn, hleast⟩ := head_dropWhile (downClosed_slot_lt c.slot) hsorted hdrop
  have hnc := h c hc hroot
  rw [hdrop, List.head?_cons, Lockout.NoConflict] at hnc
  split_ifs at hnc with hlt
  · right
    refine ⟨n, hn, hlt, fun m hm hcm => by simpa using hleast m hm (by simpa using hcm.le), ?_⟩
    rw [← Lockout.lastLockedOutSlot_of_lt c (hwrap c hc)]
    exact hnc
  · left
    have hge : c.slot ≤ n.slot := by simpa using hpn
    exact ⟨n, hn, by omega, hnc⟩

/-- A stack that honours the lockouts passes the merge loop. -/
theorem LockoutSafe.noConflict (hstack : LockoutStack newState)
    (h : LockoutSafe votes newState newRoot) :
    ∀ c ∈ votes, (∀ r ∈ newRoot, r < c.slot) →
      c.NoConflict (newState.dropWhile fun new => new.slot < c.slot).head? := by
  intro c hc hroot
  have hsorted := hstack.slots_increasing
  cases hdrop : newState.dropWhile fun new => new.slot < c.slot with
  | nil => trivial
  | cons n rest =>
    obtain ⟨hn, hpn, hleast⟩ := head_dropWhile (downClosed_slot_lt c.slot) hsorted hdrop
    have hge : c.slot ≤ n.slot := by simpa using hpn
    rw [List.head?_cons, Lockout.NoConflict]
    rcases h c hc hroot with ⟨n', hn', hslot', hcount'⟩ | ⟨t, ht, hct, htleast, hbound⟩
    · have hle : n.slot ≤ n'.slot := by simpa using hleast n' hn' (by simp [hslot'])
      have hnn' : n = n' := eq_of_key_eq hsorted hn hn' (by omega)
      subst hnn'
      rw [if_neg (by omega)]
      exact hcount'
    · have htn : n.slot ≤ t.slot := by simpa using hleast t ht (by simpa using hct.le)
      split_ifs with hlt
      · have hnt : t.slot ≤ n.slot := htleast n hn hlt
        calc c.lastLockedOutSlot ≤ c.slot + 2 ^ c.confirmationCount := Lockout.lastLockedOutSlot_le c
          _ < t.slot := hbound
          _ = n.slot := le_antisymm hnt htn
      · have hslot : n.slot = c.slot := by omega
        have htrest : t ∈ rest := by
          have htdrop : t ∈ n :: rest := hdrop ▸ (mem_dropWhile_iff (downClosed_slot_lt c.slot)
            hsorted).mpr ⟨ht, by simpa using hct.le⟩
          rcases List.mem_cons.mp htdrop with rfl | htrest
          · omega
          · exact htrest
        obtain ⟨next, rest', rfl⟩ := List.exists_cons_of_ne_nil (List.ne_nil_of_mem htrest)
        have hchain : (n :: next :: rest').IsChain Lockout.Stacked :=
          hstack.stacked.infix (hdrop ▸ (List.dropWhile_suffix _).isInfix)
        obtain ⟨hnext, -, hcover⟩ := (List.isChain_cons_cons.mp hchain).1
        have hnextMem : next ∈ newState :=
          (List.dropWhile_sublist _).subset (by rw [hdrop]; simp)
        have htnext : t.slot ≤ next.slot := htleast next hnextMem (by omega)
        by_contra hfewer
        have hpow : 2 ^ n.confirmationCount ≤ 2 ^ c.confirmationCount :=
          Nat.pow_le_pow_right (by norm_num) (by omega)
        omega

/-- A stack above a non-zero new root that does not roll the root back and honours the
lockouts of the current tower is accepted, when its lockouts do not wrap. -/
theorem processNewVoteState_run_of_lockoutSafe {s : VoteState} {epoch : ℕ}
    (hcurrent : s.votes.Pairwise (·.slot < ·.slot)) (hne : newState ≠ [])
    (hwrap : ∀ v ∈ newState, v.slot + 2 ^ maxLockoutHistory < 2 ^ 64)
    (hroot : RootAdvance s.rootSlot newRoot) (hstack : LockoutStack newState)
    (hbelow : ∀ r ∈ newRoot, r ≠ 0 → ∀ v ∈ newState, r < v.slot)
    (hsafe : LockoutSafe s.votes newState newRoot) :
    (s.processNewVoteState newState newRoot none epoch).run =
      some (.ok { (if s.rootSlot ≠ newRoot then s.incrementCredits epoch else s) with
        rootSlot := newRoot, votes := newState }) := by
  have hnew : checkNewVotes newRoot none newState = .ok () :=
    checkNewVotes_eq_ok_of_stacked (by simpa using hstack.stacked)
      (fun v hv => ⟨hstack.count_pos v hv, hstack.count_le v hv,
        fun r hr hr0 => hbelow r hr hr0 v hv⟩)
      (fun v hv => Lockout.add_two_pow_lt (hstack.count_le v (by simpa using hv))
        (hwrap v (by simpa using hv)))
  have habove : (votesAboveRoot s.votes newRoot).Pairwise (·.slot < ·.slot) :=
    hcurrent.sublist (votesAboveRoot_sublist _ _)
  have hconflicts := (checkLockoutConflicts_eq_ok_iff habove newState).mpr fun c hc =>
    have hc' := (mem_votesAboveRoot hcurrent).mp hc
    hsafe.noConflict hstack c hc'.1 hc'.2
  exact processNewVoteState_run_of_checks hne hstack.length_le
    (checkRootRollBack_of_rootAdvance hroot) hnew hconflicts

/-- Lockout safety of `process_new_vote_state`, for a current tower with the invariant, a
proposal whose last slot is above the last vote, and slots below `2 ^ 64 - 2 ^ 31`: an
accepted proposal honours the lockouts of the current votes above the new root, and a
stack above a non-zero new root that does not roll the root back and honours them is
accepted. -/
theorem processNewVoteState_lockoutSafe_iff {s : VoteState} {epoch : ℕ}
    (hinv : TowerInvariant s.votes s.rootSlot)
    (hwrap : ∀ v ∈ s.votes ++ newState, v.slot + 2 ^ maxLockoutHistory < 2 ^ 64)
    (hlast : ∃ t ∈ newState.getLast?, ∀ l ∈ s.lastVotedSlot, l < t.slot) :
    (∀ timestamp s', (s.processNewVoteState newState newRoot timestamp epoch).run = some (.ok s') →
        LockoutSafe s.votes newState newRoot) ∧
      (RootAdvance s.rootSlot newRoot → LockoutStack newState →
        (∀ r ∈ newRoot, r ≠ 0 → ∀ v ∈ newState, r < v.slot) → LockoutSafe s.votes newState newRoot →
        ∃ s', (s.processNewVoteState newState newRoot none epoch).run = some (.ok s')) := by
  obtain ⟨t, hlastT, hlastSlot⟩ := hlast
  have hcurrent := hinv.toLockoutStack.slots_increasing
  have habove : (votesAboveRoot s.votes newRoot).Pairwise (·.slot < ·.slot) :=
    hcurrent.sublist (votesAboveRoot_sublist _ _)
  constructor
  · intro timestamp s' h
    obtain ⟨-, -, -, -, hvotes, -⟩ := VoteState.processNewVoteState_eq_ok h
    have hstack : LockoutStack newState := hvotes ▸ (TowerInvariant.processNewVoteState h).1.toLockoutStack
    have hconflicts := (checkLockoutConflicts_eq_ok_iff habove newState).mp
      (processNewVoteState_conflicts_eq_ok h)
    refine LockoutSafe.of_noConflict hstack.slots_increasing
      (fun c hc => Lockout.add_two_pow_lt (hinv.count_le c hc) (hwrap c (List.mem_append_left _ hc)))
      (fun c hc => ⟨t, List.mem_of_getLast? hlastT, ?_⟩)
      (fun c hc hroot => hconflicts c ((mem_votesAboveRoot hcurrent).mpr ⟨hc, hroot⟩))
    obtain ⟨last, hlastVote⟩ := Option.isSome_iff_exists.mp
      (List.getLast?_isSome.mpr (List.ne_nil_of_mem hc))
    have hlt := hlastSlot last.slot (by simp [VoteState.lastVotedSlot, VoteState.lastLockout, hlastVote])
    exact lt_of_le_of_lt (hinv.toLockoutStack.slot_le_last hc hlastVote) hlt
  · intro hroot hstack hbelow hsafe
    exact ⟨_, processNewVoteState_run_of_lockoutSafe hcurrent
      (List.ne_nil_of_mem (List.mem_of_getLast? hlastT))
      (fun v hv => hwrap v (List.mem_append_right _ hv)) hroot hstack hbelow hsafe⟩

/-- A tower of one vote, with no root. -/
theorem towerInvariant_singleton {v : Lockout} (hpos : 0 < v.confirmationCount)
    (hle : v.confirmationCount ≤ maxLockoutHistory) : TowerInvariant [v] none where
  length_le := by simp [maxLockoutHistory]
  stacked := List.isChain_singleton v
  count_pos := by simpa using hpos
  count_le := by simpa using hle
  root_lt := by simp
  ne_nil_of_root := by simp

theorem processNewVoteState_lockoutSafe_iff_kept :
    TowerInvariant [⟨1, 1⟩] none ∧
      (∀ v ∈ ([⟨1, 1⟩] : List Lockout) ++ [⟨1, 2⟩, ⟨2, 1⟩], v.slot + 2 ^ maxLockoutHistory < 2 ^ 64) ∧
      (∃ t ∈ [(⟨1, 2⟩ : Lockout), ⟨2, 1⟩].getLast?, ∀ l ∈ some 1, l < t.slot) ∧
      ((∀ timestamp s', (({VoteState.default with votes := [⟨1, 1⟩]} : VoteState).processNewVoteState
          [⟨1, 2⟩, ⟨2, 1⟩] none timestamp 0).run = some (.ok s') →
          LockoutSafe [⟨1, 1⟩] [⟨1, 2⟩, ⟨2, 1⟩] none) ∧
        (RootAdvance none none → LockoutStack [⟨1, 2⟩, ⟨2, 1⟩] →
          (∀ r ∈ (none : Option ℕ), r ≠ 0 → ∀ v ∈ [(⟨1, 2⟩ : Lockout), ⟨2, 1⟩], r < v.slot) →
          LockoutSafe [⟨1, 1⟩] [⟨1, 2⟩, ⟨2, 1⟩] none →
          ∃ s', (({VoteState.default with votes := [⟨1, 1⟩]} : VoteState).processNewVoteState
            [⟨1, 2⟩, ⟨2, 1⟩] none none 0).run = some (.ok s'))) :=
  have hinv : TowerInvariant [⟨1, 1⟩] none := towerInvariant_singleton (by decide) (by decide)
  have hwrap : ∀ v ∈ ([⟨1, 1⟩] : List Lockout) ++ [⟨1, 2⟩, ⟨2, 1⟩],
      v.slot + 2 ^ maxLockoutHistory < 2 ^ 64 := by
    decide
  have hlast : ∃ t ∈ [(⟨1, 2⟩ : Lockout), ⟨2, 1⟩].getLast?, ∀ l ∈ some 1, l < t.slot :=
    ⟨⟨2, 1⟩, rfl, by simp⟩
  ⟨hinv, hwrap, hlast, processNewVoteState_lockoutSafe_iff (s := {VoteState.default with votes := [⟨1, 1⟩]})
    hinv hwrap hlast⟩

/-- The converse fails for a proposal below a non-zero new root: every condition of the
lockout-safety statement holds (the root check lets a first root through), yet the vote at
slot 2 is below the new root 5. -/
theorem processNewVoteState_rejects_proposal_below_root :
    TowerInvariant [⟨1, 1⟩] none ∧ RootAdvance none (some 5) ∧ LockoutStack [⟨2, 1⟩] ∧
      LockoutSafe [⟨1, 1⟩] [⟨2, 1⟩] (some 5) ∧
      (({VoteState.default with votes := [⟨1, 1⟩]} : VoteState).processNewVoteState [⟨2, 1⟩]
        (some 5) none 0).run = some (.error .slotSmallerThanRoot) :=
  ⟨towerInvariant_singleton (by decide) (by decide), (fun _ h => by cases h),
    (towerInvariant_singleton (v := ⟨2, 1⟩) (by decide) (by decide)).toLockoutStack, by decide, rfl⟩

/-- Near `u64::MAX` the lockout sum wraps: the vote at `2 ^ 64 - 3` with two confirmations is
locked out until slot `2 ^ 64 + 1`, which the code computes as 1, so a proposal that drops
it for slot `2 ^ 64 - 2` is accepted. -/
theorem processNewVoteState_accepts_wrapped_lockout :
    TowerInvariant [⟨2 ^ 64 - 3, 2⟩] none ∧
      (({VoteState.default with votes := [⟨2 ^ 64 - 3, 2⟩]} : VoteState).processNewVoteState
        [⟨2 ^ 64 - 2, 1⟩] none none 0).run =
        some (.ok {VoteState.default with votes := [⟨2 ^ 64 - 2, 1⟩]}) ∧
      ¬LockoutSafe [⟨2 ^ 64 - 3, 2⟩] [⟨2 ^ 64 - 2, 1⟩] none :=
  ⟨towerInvariant_singleton (by decide) (by decide), rfl, by decide⟩

end Solana.VoteProgram
