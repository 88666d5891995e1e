import Solana.Stake.State

/-! What `stake_activating_and_deactivating` returns, bounded by the delegated stake
(`stakeActivatingAndDeactivating_bounded`) and monotone in the epoch (`effective_monotone`). -/

namespace Solana.StakeProgram.Delegation

open MachineInt

variable (d : Delegation) (shares : StakeShares)

/-- The effective stake a round of warmup reaches before its checks. -/
def grownStake (s : LoopState) : ℕ :=
  wrappingAdd 64 s.currentEffectiveStake
    (max (shares.newlyEffective (d.stake - s.currentEffectiveStake) s.prevClusterStake) 1)

/-- The effective stake a round of cooldown leaves before its checks. -/
def shrunkStake (s : LoopState) : ℕ :=
  s.currentEffectiveStake -
    max (shares.newlyNotEffective s.currentEffectiveStake s.prevClusterStake) 1

/-- The effective stake `stake_and_activating` comes to past the activation epoch: that of the
warmup loop from the activation epoch, or the whole stake where the history has no entry
there. -/
def warmedUpStake (targetEpoch : ℕ) : Option StakeHistory → ℕ
  | some history =>
    match history.get d.activationEpoch with
    | some clusterStake =>
      d.warmup shares history targetEpoch ⟨d.activationEpoch, clusterStake, 0⟩
    | none => d.stake
  | none => d.stake

/-- What `stake_activating_and_deactivating` leaves of `effectiveStake` past the deactivation
epoch: that of the cooldown loop from the deactivation epoch, or nothing where the history
has no entry there. -/
def cooledDownStake (targetEpoch effectiveStake : ℕ) : Option StakeHistory → ℕ
  | some history =>
    match history.get d.deactivationEpoch with
    | some clusterStake =>
      cooldown shares history targetEpoch ⟨d.deactivationEpoch, clusterStake, effectiveStake⟩
    | none => 0
  | none => 0

variable {d shares} {history : StakeHistory} {targetEpoch : ℕ}

theorem warmupRound_eq (s : LoopState) :
    d.warmupRound shares history targetEpoch s =
      if s.prevClusterStake.activating = 0 then .inl s.currentEffectiveStake
      else if d.stake ≤ d.grownStake shares s then .inl d.stake
      else if targetEpoch ≤ s.prevEpoch + 1 ∨ d.deactivationEpoch ≤ s.prevEpoch + 1 then
        .inl (d.grownStake shares s)
      else
        match history.get (s.prevEpoch + 1) with
        | some currentClusterStake =>
          .inr ⟨s.prevEpoch + 1, currentClusterStake, d.grownStake shares s⟩
        | none => .inl (d.grownStake shares s) := rfl

theorem cooldownRound_eq (s : LoopState) :
    cooldownRound shares history targetEpoch s =
      if s.prevClusterStake.deactivating = 0 then .inl s.currentEffectiveStake
      else if shrunkStake shares s = 0 then .inl (shrunkStake shares s)
      else if targetEpoch ≤ s.prevEpoch + 1 then .inl (shrunkStake shares s)
      else
        match history.get (s.prevEpoch + 1) with
        | some currentClusterStake =>
          .inr ⟨s.prevEpoch + 1, currentClusterStake, shrunkStake shares s⟩
        | none => .inl (shrunkStake shares s) := rfl

/-! ## Rounds of warmup -/

section Warmup

variable {s s' : LoopState} {b : ℕ}

/-- A round of warmup goes on only from below the delegated stake, to the stake it grew to. -/
theorem warmupRound_inr (h : d.warmupRound shares history targetEpoch s = .inr s') :
    s'.currentEffectiveStake = d.grownStake shares s ∧ d.grownStake shares s < d.stake := by
  rw [warmupRound_eq] at h
  split_ifs at h with hzero hfull hend
  split at h
  · cases h
    exact ⟨rfl, Nat.lt_of_not_le hfull⟩
  · cases h

/-- A round of warmup breaks with the stake it started from, the delegated stake, or the
stake it grew to below the delegated stake. -/
theorem warmupRound_inl (h : d.warmupRound shares history targetEpoch s = .inl b) :
    b = s.currentEffectiveStake ∨ b = d.stake ∨
      (b = d.grownStake shares s ∧ d.grownStake shares s < d.stake) := by
  rw [warmupRound_eq] at h
  split_ifs at h with hzero hfull hend
  · exact .inl (Sum.inl.inj h).symm
  · exact .inr (.inl (Sum.inl.inj h).symm)
  · exact .inr (.inr ⟨(Sum.inl.inj h).symm, Nat.lt_of_not_le hfull⟩)
  · split at h
    · cases h
    · exact .inr (.inr ⟨(Sum.inl.inj h).symm, Nat.lt_of_not_le hfull⟩)

/-- The warmup loop never leaves the delegated stake behind. -/
theorem warmup_le (s : LoopState) :
    s.currentEffectiveStake ≤ d.stake → d.warmup shares history targetEpoch s ≤ d.stake := by
  refine Loop.loop_induction
    (motive := fun s b => s.currentEffectiveStake ≤ d.stake → b ≤ d.stake) ?_ ?_ s
  · intro s b h hs
    rcases warmupRound_inl h with rfl | rfl | ⟨rfl, hlt⟩
    · exact hs
    · exact le_rfl
    · exact hlt.le
  · intro s s' h ih _
    obtain ⟨hnext, hlt⟩ := warmupRound_inr h
    exact ih (hnext ▸ hlt.le)

/-- Every state the warmup loop reaches is at most the delegated stake, so its subtraction
`delegated_stake - current_effective_stake` does not underflow. -/
theorem Reaches.warmup_le {t : LoopState}
    (hreach : Loop.Reaches (d.warmupRound shares history targetEpoch) s t)
    (hs : s.currentEffectiveStake ≤ d.stake) : t.currentEffectiveStake ≤ d.stake := by
  refine Loop.Reaches.invariant (P := fun s => s.currentEffectiveStake ≤ d.stake) ?_ hreach hs
  intro s s' _ h
  obtain ⟨hnext, hlt⟩ := warmupRound_inr h
  exact hnext ▸ hlt.le

/-- The newly effective stake added to the delegated stake fits a `u64`, so `+=` does not
wrap. -/
def SharesFit (d : Delegation) (shares : StakeShares) : Prop :=
  ∀ remainingActivatingStake prevClusterStake,
    d.stake + max (shares.newlyEffective remainingActivatingStake prevClusterStake) 1 < 2 ^ 64

/-- Without a wrap, a round of warmup grows the effective stake. -/
theorem lt_grownStake (hfit : SharesFit d shares) (hs : s.currentEffectiveStake ≤ d.stake) :
    s.currentEffectiveStake < d.grownStake shares s := by
  have hshare := hfit (d.stake - s.currentEffectiveStake) s.prevClusterStake
  unfold grownStake
  rw [wrappingAdd_of_lt (by omega)]
  omega

/-- Without a wrap, the warmup loop never lowers the effective stake. -/
theorem le_warmup (hfit : SharesFit d shares) (s : LoopState) :
    s.currentEffectiveStake ≤ d.stake →
      s.currentEffectiveStake ≤ d.warmup shares history targetEpoch s := by
  refine Loop.loop_induction
    (motive := fun s b => s.currentEffectiveStake ≤ d.stake → s.currentEffectiveStake ≤ b)
    ?_ ?_ s
  · intro s b h hs
    rcases warmupRound_inl h with rfl | rfl | ⟨rfl, _⟩
    · exact le_rfl
    · exact hs
    · exact (lt_grownStake hfit hs).le
  · intro s s' h ih hs
    obtain ⟨hnext, hlt⟩ := warmupRound_inr h
    have hgrown := lt_grownStake hfit hs
    rw [← hnext] at hgrown hlt
    exact hgrown.le.trans (ih hlt.le)

/-- The round to one epoch more does what the round to the epoch before does, except where
that one breaks at the target epoch with the stake it grew to: there it may go on from
that stake. -/
theorem warmupRound_succ (s : LoopState) :
    d.warmupRound shares history (targetEpoch + 1) s =
        d.warmupRound shares history targetEpoch s ∨
      ∃ s', d.warmupRound shares history targetEpoch s = .inl s'.currentEffectiveStake ∧
        d.warmupRound shares history (targetEpoch + 1) s = .inr s' := by
  rw [warmupRound_eq, warmupRound_eq]
  by_cases hzero : s.prevClusterStake.activating = 0
  · exact .inl (by rw [if_pos hzero, if_pos hzero])
  by_cases hfull : d.stake ≤ d.grownStake shares s
  · exact .inl (by rw [if_neg hzero, if_pos hfull, if_neg hzero, if_pos hfull])
  by_cases hend : targetEpoch + 1 ≤ s.prevEpoch + 1 ∨ d.deactivationEpoch ≤ s.prevEpoch + 1
  · have hend' : targetEpoch ≤ s.prevEpoch + 1 ∨ d.deactivationEpoch ≤ s.prevEpoch + 1 := by
      omega
    exact .inl (by rw [if_neg hzero, if_neg hfull, if_pos hend, if_neg hzero, if_neg hfull,
      if_pos hend'])
  simp only [if_neg hzero, if_neg hfull, if_neg hend]
  by_cases hend' : targetEpoch ≤ s.prevEpoch + 1 ∨ d.deactivationEpoch ≤ s.prevEpoch + 1
  · rw [if_pos hend']
    cases hget : history.get (s.prevEpoch + 1) with
    | none => exact .inl rfl
    | some c => exact .inr ⟨⟨s.prevEpoch + 1, c, d.grownStake shares s⟩, rfl, rfl⟩
  · exact .inl (by rw [if_neg hend'])

/-- Without a wrap, the warmup loop to one epoch more comes at least as far. -/
theorem warmup_le_warmup_succ (hfit : SharesFit d shares) (s : LoopState)
    (hs : s.currentEffectiveStake ≤ d.stake) :
    d.warmup shares history targetEpoch s ≤ d.warmup shares history (targetEpoch + 1) s := by
  refine Loop.loop_rel_of_extends (P := fun s => s.currentEffectiveStake ≤ d.stake)
    (R := (· ≤ ·)) le_refl ?_ ?_ s hs
  · intro s s' _ h
    obtain ⟨hnext, hlt⟩ := warmupRound_inr h
    refine ⟨hnext ▸ hlt.le, ?_⟩
    rcases @warmupRound_succ d shares history targetEpoch s with hsame | ⟨_, hbreak, _⟩
    · rw [hsame, h]
    · rw [h] at hbreak
      cases hbreak
  · intro s b _ h
    rcases @warmupRound_succ d shares history targetEpoch s with hsame | ⟨s', hbreak, hnext⟩
    · exact .inl (hsame.trans h)
    · rw [h] at hbreak
      cases hbreak
      obtain ⟨hgrown, hlt⟩ := warmupRound_inr hnext
      exact .inr ⟨s', hnext, le_warmup hfit s' (hgrown ▸ hlt.le)⟩

/-- From the deactivation epoch on, the target no longer changes a round of warmup. -/
theorem warmupRound_of_deactivationEpoch_le (h : d.deactivationEpoch ≤ targetEpoch)
    (s : LoopState) :
    d.warmupRound shares history targetEpoch s =
      d.warmupRound shares history d.deactivationEpoch s := by
  rw [warmupRound_eq, warmupRound_eq]
  have hend : targetEpoch ≤ s.prevEpoch + 1 ∨ d.deactivationEpoch ≤ s.prevEpoch + 1 ↔
      d.deactivationEpoch ≤ s.prevEpoch + 1 ∨ d.deactivationEpoch ≤ s.prevEpoch + 1 := by
    omega
  simp only [hend]

theorem warmup_of_deactivationEpoch_le (h : d.deactivationEpoch ≤ targetEpoch) :
    d.warmup shares history targetEpoch = d.warmup shares history d.deactivationEpoch := by
  funext s
  exact Loop.loop_congr (warmupRound_of_deactivationEpoch_le h) s

end Warmup

/-! ## Rounds of cooldown -/

section Cooldown

variable {s s' : LoopState} {b : ℕ}

/-- A round of cooldown goes on only to the stake it shrank to. -/
theorem cooldownRound_inr (h : cooldownRound shares history targetEpoch s = .inr s') :
    s'.currentEffectiveStake = shrunkStake shares s := by
  rw [cooldownRound_eq] at h
  split_ifs at h with hzero hgone hend
  split at h
  · cases h
    rfl
  · cases h

/-- A round of cooldown breaks with the stake it started from or the stake it shrank to. -/
theorem cooldownRound_inl (h : cooldownRound shares history targetEpoch s = .inl b) :
    b = s.currentEffectiveStake ∨ b = shrunkStake shares s := by
  rw [cooldownRound_eq] at h
  split_ifs at h with hzero hgone hend
  · exact .inl (Sum.inl.inj h).symm
  · exact .inr (Sum.inl.inj h).symm
  · exact .inr (Sum.inl.inj h).symm
  · split at h
    · cases h
    · exact .inr (Sum.inl.inj h).symm

theorem shrunkStake_le (s : LoopState) : shrunkStake shares s ≤ s.currentEffectiveStake :=
  Nat.sub_le _ _

/-- The cooldown loop never raises the effective stake. -/
theorem cooldown_le (s : LoopState) :
    cooldown shares history targetEpoch s ≤ s.currentEffectiveStake := by
  refine Loop.loop_induction (motive := fun s b => b ≤ s.currentEffectiveStake) ?_ ?_ s
  · intro s b h
    rcases cooldownRound_inl h with rfl | rfl
    · exact le_rfl
    · exact shrunkStake_le s
  · intro s s' h ih
    rw [cooldownRound_inr h] at ih
    exact ih.trans (shrunkStake_le s)

/-- The round to one epoch more does what the round to the epoch before does, except where
that one breaks at the target epoch with the stake it shrank to: there it may go on from
that stake. -/
theorem cooldownRound_succ (s : LoopState) :
    cooldownRound shares history (targetEpoch + 1) s =
        cooldownRound shares history targetEpoch s ∨
      ∃ s', cooldownRound shares history targetEpoch s = .inl s'.currentEffectiveStake ∧
        cooldownRound shares history (targetEpoch + 1) s = .inr s' := by
  rw [cooldownRound_eq, cooldownRound_eq]
  by_cases hzero : s.prevClusterStake.deactivating = 0
  · exact .inl (by rw [if_pos hzero, if_pos hzero])
  by_cases hgone : shrunkStake shares s = 0
  · exact .inl (by rw [if_neg hzero, if_pos hgone, if_neg hzero, if_pos hgone])
  by_cases hend : targetEpoch + 1 ≤ s.prevEpoch + 1
  · exact .inl (by rw [if_neg hzero, if_neg hgone, if_pos hend, if_neg hzero, if_neg hgone,
      if_pos (by omega : targetEpoch ≤ s.prevEpoch + 1)])
  simp only [if_neg hzero, if_neg hgone, if_neg hend]
  by_cases hend' : targetEpoch ≤ s.prevEpoch + 1
  · rw [if_pos hend']
    cases hget : history.get (s.prevEpoch + 1) with
    | none => exact .inl rfl
    | some c => exact .inr ⟨⟨s.prevEpoch + 1, c, shrunkStake shares s⟩, rfl, rfl⟩
  · exact .inl (by rw [if_neg hend'])

/-- The cooldown loop to one epoch more comes at least as far down. -/
theorem cooldown_succ_le_cooldown (s : LoopState) :
    cooldown shares history (targetEpoch + 1) s ≤ cooldown shares history targetEpoch s := by
  refine Loop.loop_rel_of_extends (P := fun _ => True) (R := fun b b' => b' ≤ b) le_refl ?_ ?_
    s trivial
  · intro s s' _ h
    refine ⟨trivial, ?_⟩
    rcases @cooldownRound_succ shares history targetEpoch s with hsame | ⟨_, hbreak, _⟩
    · rw [hsame, h]
    · rw [h] at hbreak
      cases hbreak
  · intro s b _ h
    rcases @cooldownRound_succ shares history targetEpoch s with hsame | ⟨s', hbreak, hnext⟩
    · exact .inl (hsame.trans h)
    · rw [h] at hbreak
      cases hbreak
      exact .inr ⟨s', hnext, cooldown_le s'⟩

theorem warmup_of_inl {s : LoopState} {b : ℕ}
    (h : d.warmupRound shares history targetEpoch s = .inl b) :
    d.warmup shares history targetEpoch s = b :=
  Loop.loop_of_inl h

theorem warmup_of_inr {s s' : LoopState}
    (h : d.warmupRound shares history targetEpoch s = .inr s') :
    d.warmup shares history targetEpoch s = d.warmup shares history targetEpoch s' :=
  Loop.loop_of_inr h

theorem cooldown_of_inl {s : LoopState} {b : ℕ}
    (h : cooldownRound shares history targetEpoch s = .inl b) :
    cooldown shares history targetEpoch s = b :=
  Loop.loop_of_inl h

end Cooldown

/-! ## The status at an epoch -/

section Status

variable (d shares) (targetEpoch : ℕ) (history : Option StakeHistory)

theorem stakeAndActivating_eq :
    d.stakeAndActivating shares targetEpoch history =
      if d.isBootstrap then (d.stake, 0)
      else if d.activationEpoch = d.deactivationEpoch then (0, 0)
      else if targetEpoch = d.activationEpoch then (0, d.stake)
      else if targetEpoch < d.activationEpoch then (0, 0)
      else
        (d.warmedUpStake shares targetEpoch history,
          d.stake - d.warmedUpStake shares targetEpoch history) := by
  rcases history with _ | history
  · simp only [stakeAndActivating, warmedUpStake, Nat.sub_self]
  · cases hget : history.get d.activationEpoch <;>
      simp only [stakeAndActivating, warmedUpStake, hget, Nat.sub_self]

/-- The effective stake of `stake_and_activating`: the whole stake for a bootstrap delegation,
nothing up to the activation epoch or when activated and deactivated at once, what warms up
after. -/
theorem stakeAndActivating_fst :
    (d.stakeAndActivating shares targetEpoch history).1 =
      if d.isBootstrap then d.stake
      else if d.activationEpoch = d.deactivationEpoch then 0
      else if targetEpoch ≤ d.activationEpoch then 0
      else d.warmedUpStake shares targetEpoch history := by
  rw [stakeAndActivating_eq]
  split_ifs <;> first | rfl | omega

theorem warmedUpStake_le : d.warmedUpStake shares targetEpoch history ≤ d.stake := by
  rcases history with _ | history
  · exact le_rfl
  · cases hget : history.get d.activationEpoch with
    | none => simp only [warmedUpStake, hget, le_refl]
    | some clusterStake =>
      simp only [warmedUpStake, hget]
      exact warmup_le _ (Nat.zero_le _)

theorem stakeAndActivating_fst_le :
    (d.stakeAndActivating shares targetEpoch history).1 ≤ d.stake := by
  rw [stakeAndActivating_fst]
  split_ifs
  · exact le_rfl
  · exact Nat.zero_le _
  · exact Nat.zero_le _
  · exact warmedUpStake_le d shares targetEpoch history

/-- `stake_and_activating` splits the whole stake between effective and activating, or gives
nothing before the activation epoch or when activated and deactivated at once. -/
theorem stakeAndActivating_sum :
    (d.stakeAndActivating shares targetEpoch history).1 +
        (d.stakeAndActivating shares targetEpoch history).2 = d.stake ∨
      d.stakeAndActivating shares targetEpoch history = (0, 0) ∧
        (targetEpoch < d.activationEpoch ∨ d.activationEpoch = d.deactivationEpoch) := by
  rw [stakeAndActivating_eq]
  split_ifs with hboot hinstant hat hbefore
  · exact .inl (Nat.add_zero _)
  · exact .inr ⟨rfl, .inr hinstant⟩
  · exact .inl (Nat.zero_add _)
  · exact .inr ⟨rfl, .inl hbefore⟩
  · exact .inl (Nat.add_sub_cancel' (warmedUpStake_le d shares targetEpoch history))

/-- `stake_activating_and_deactivating`: what `stake_and_activating` gives before the
deactivation epoch, all of its effective stake deactivating at that epoch, and what cools
down of it after. -/
theorem stakeActivatingAndDeactivating_eq :
    d.stakeActivatingAndDeactivating shares targetEpoch history =
      if targetEpoch < d.deactivationEpoch then
        ⟨(d.stakeAndActivating shares targetEpoch history).1,
          (d.stakeAndActivating shares targetEpoch history).2, 0⟩
      else if targetEpoch = d.deactivationEpoch then
        .withDeactivating (d.stakeAndActivating shares targetEpoch history).1
      else
        .withDeactivating (d.cooledDownStake shares targetEpoch
          (d.stakeAndActivating shares targetEpoch history).1 history) := by
  unfold stakeActivatingAndDeactivating
  generalize d.stakeAndActivating shares targetEpoch history = status
  obtain ⟨effectiveStake, activatingStake⟩ := status
  dsimp only
  by_cases hbefore : targetEpoch < d.deactivationEpoch
  · rw [if_pos hbefore, if_pos hbefore]
    by_cases hzero : activatingStake = 0
    · rw [if_pos hzero, hzero]
      rfl
    · rw [if_neg hzero]
      rfl
  rw [if_neg hbefore, if_neg hbefore]
  by_cases hat : targetEpoch = d.deactivationEpoch
  · rw [if_pos hat, if_pos hat]
  rw [if_neg hat, if_neg hat]
  rcases history with _ | history
  · rfl
  · cases hget : history.get d.deactivationEpoch with
    | none => simp only [cooledDownStake, hget]; rfl
    | some clusterStake => simp only [cooledDownStake, hget]

theorem cooledDownStake_le (effectiveStake : ℕ) :
    d.cooledDownStake shares targetEpoch effectiveStake history ≤ effectiveStake := by
  rcases history with _ | history
  · exact Nat.zero_le _
  · cases hget : history.get d.deactivationEpoch with
    | none => simp only [cooledDownStake, hget, Nat.zero_le]
    | some clusterStake =>
      simp only [cooledDownStake, hget]
      exact cooldown_le _

/-- The status is bounded by the delegated stake. -/
theorem effective_le :
    (d.stakeActivatingAndDeactivating shares targetEpoch history).effective ≤ d.stake := by
  have hfst := stakeAndActivating_fst_le d shares targetEpoch history
  rw [stakeActivatingAndDeactivating_eq]
  split_ifs
  · exact hfst
  · exact hfst
  · exact (cooledDownStake_le d shares targetEpoch history _).trans hfst

theorem effective_eq_of_le (h : targetEpoch ≤ d.deactivationEpoch) :
    (d.stakeActivatingAndDeactivating shares targetEpoch history).effective =
      (d.stakeAndActivating shares targetEpoch history).1 := by
  rw [stakeActivatingAndDeactivating_eq]
  split_ifs
  · rfl
  · rfl
  · omega

theorem effective_eq_of_lt (h : d.deactivationEpoch < targetEpoch) :
    (d.stakeActivatingAndDeactivating shares targetEpoch history).effective =
      d.cooledDownStake shares targetEpoch
        (d.stakeAndActivating shares targetEpoch history).1 history := by
  rw [stakeActivatingAndDeactivating_eq, if_neg (by omega), if_neg (by omega)]
  rfl

end Status

/-! ## The status over the epochs -/

section Monotone

variable (history : Option StakeHistory)

theorem warmedUpStake_le_succ (hfit : SharesFit d shares) (targetEpoch : ℕ) :
    d.warmedUpStake shares targetEpoch history ≤
      d.warmedUpStake shares (targetEpoch + 1) history := by
  rcases history with _ | history
  · exact le_rfl
  · cases hget : history.get d.activationEpoch with
    | none => simp only [warmedUpStake, hget, le_refl]
    | some clusterStake =>
      simp only [warmedUpStake, hget]
      exact warmup_le_warmup_succ hfit _ (Nat.zero_le _)

theorem warmedUpStake_of_deactivationEpoch_le {targetEpoch : ℕ}
    (h : d.deactivationEpoch ≤ targetEpoch) :
    d.warmedUpStake shares targetEpoch history =
      d.warmedUpStake shares d.deactivationEpoch history := by
  rcases history with _ | history
  · rfl
  · simp only [warmedUpStake]
    rw [warmup_of_deactivationEpoch_le h]

theorem cooledDownStake_succ_le (targetEpoch effectiveStake : ℕ) :
    d.cooledDownStake shares (targetEpoch + 1) effectiveStake history ≤
      d.cooledDownStake shares targetEpoch effectiveStake history := by
  rcases history with _ | history
  · exact le_rfl
  · cases hget : history.get d.deactivationEpoch with
    | none => simp only [cooledDownStake, hget, le_refl]
    | some clusterStake =>
      simp only [cooledDownStake, hget]
      exact cooldown_succ_le_cooldown _

/-- Without a wrap, the effective stake of `stake_and_activating` never drops from one epoch
to the next. -/
theorem stakeAndActivating_fst_le_succ (hfit : SharesFit d shares) (targetEpoch : ℕ) :
    (d.stakeAndActivating shares targetEpoch history).1 ≤
      (d.stakeAndActivating shares (targetEpoch + 1) history).1 := by
  rw [stakeAndActivating_fst, stakeAndActivating_fst]
  split_ifs with hboot hinstant hbefore hbefore'
  · exact le_rfl
  · exact le_rfl
  · exact le_rfl
  · exact Nat.zero_le _
  · omega
  · exact warmedUpStake_le_succ history hfit targetEpoch

/-- The warmup stops at the deactivation epoch: from there on, the effective stake of
`stake_and_activating` stays put, unless the delegation is deactivated before it is
activated. -/
theorem stakeAndActivating_fst_of_deactivationEpoch_le
    (hord : d.isBootstrap ∨ d.activationEpoch ≤ d.deactivationEpoch) {targetEpoch : ℕ}
    (h : d.deactivationEpoch ≤ targetEpoch) :
    (d.stakeAndActivating shares targetEpoch history).1 =
      (d.stakeAndActivating shares d.deactivationEpoch history).1 := by
  rw [stakeAndActivating_fst, stakeAndActivating_fst]
  split_ifs with hboot hinstant hbefore hbefore'
  · rfl
  · rfl
  · rfl
  all_goals
    have hactive : d.activationEpoch < d.deactivationEpoch := by
      rcases hord with hord | hord
      · exact absurd hord hboot
      · omega
  · omega
  · omega
  · exact warmedUpStake_of_deactivationEpoch_le history h

theorem effective_le_succ (hfit : SharesFit d shares) {targetEpoch : ℕ}
    (h : targetEpoch + 1 ≤ d.deactivationEpoch) :
    (d.stakeActivatingAndDeactivating shares targetEpoch history).effective ≤
      (d.stakeActivatingAndDeactivating shares (targetEpoch + 1) history).effective := by
  rw [effective_eq_of_le d shares targetEpoch history (by omega),
    effective_eq_of_le d shares _ history h]
  exact stakeAndActivating_fst_le_succ history hfit targetEpoch

theorem effective_succ_le (hord : d.isBootstrap ∨ d.activationEpoch ≤ d.deactivationEpoch)
    {targetEpoch : ℕ} (h : d.deactivationEpoch ≤ targetEpoch) :
    (d.stakeActivatingAndDeactivating shares (targetEpoch + 1) history).effective ≤
      (d.stakeActivatingAndDeactivating shares targetEpoch history).effective := by
  rw [effective_eq_of_lt d shares _ history (by omega),
    stakeAndActivating_fst_of_deactivationEpoch_le history hord (by omega : _ ≤ targetEpoch + 1)]
  rcases h.lt_or_eq with hlt | hat
  · rw [effective_eq_of_lt d shares _ history hlt,
      stakeAndActivating_fst_of_deactivationEpoch_le history hord h]
    exact cooledDownStake_succ_le history targetEpoch _
  · subst hat
    rw [effective_eq_of_le d shares _ history le_rfl]
    exact cooledDownStake_le d shares _ history _

end Monotone

/-- `stake_activating_and_deactivating`, whatever `u64` the shares come to: the effective stake
is at most the delegated stake; before the deactivation epoch the status splits the stake
between effective and activating, or is empty before the activation epoch or when the
delegation is activated and deactivated at once, and nothing is deactivating; from the
deactivation epoch on nothing is activating and all that is effective is deactivating. The
subtraction `delegated_stake - current_effective_stake` of `stake_and_activating` does not
underflow, neither at its end nor in any round its loop reaches; the cooldown loop subtracts
with `saturating_sub`. Both loops stop by construction (`warmupRound_decreases`). -/
theorem stakeActivatingAndDeactivating_bounded (d : Delegation) (shares : StakeShares)
    (targetEpoch : ℕ) (history : Option StakeHistory) :
    let status := d.stakeActivatingAndDeactivating shares targetEpoch history
    status.effective ≤ d.stake ∧
    (targetEpoch < d.deactivationEpoch →
      (status.effective + status.activating = d.stake ∨
        status.effective = 0 ∧ status.activating = 0 ∧
          (targetEpoch < d.activationEpoch ∨ d.activationEpoch = d.deactivationEpoch)) ∧
      status.deactivating = 0) ∧
    (d.deactivationEpoch ≤ targetEpoch →
      status.activating = 0 ∧ status.deactivating = status.effective) ∧
    (d.stakeAndActivating shares targetEpoch history).1 ≤ d.stake ∧
    ∀ stakeHistory clusterStake s, history = some stakeHistory →
      stakeHistory.get d.activationEpoch = some clusterStake →
      Loop.Reaches (d.warmupRound shares stakeHistory targetEpoch)
        ⟨d.activationEpoch, clusterStake, 0⟩ s →
      s.currentEffectiveStake ≤ d.stake := by
  dsimp only
  refine ⟨effective_le d shares targetEpoch history, fun hbefore => ?_, fun hafter => ?_,
    stakeAndActivating_fst_le d shares targetEpoch history, ?_⟩
  · rw [stakeActivatingAndDeactivating_eq, if_pos hbefore]
    rcases stakeAndActivating_sum d shares targetEpoch history with hsum | ⟨hzero, hwhen⟩
    · exact ⟨.inl hsum, rfl⟩
    · rw [hzero]
      exact ⟨.inr ⟨rfl, rfl, hwhen⟩, rfl⟩
  · rw [stakeActivatingAndDeactivating_eq, if_neg (by omega)]
    split_ifs
    · exact ⟨rfl, rfl⟩
    · exact ⟨rfl, rfl⟩
  · intro stakeHistory clusterStake s _ _ hreach
    exact Reaches.warmup_le hreach (Nat.zero_le _)

/-- The effective stake of `stake_activating_and_deactivating` over the epochs, for any shares:
as long as no share added in warmup wraps the `u64`, it does not drop up to the deactivation
epoch; and unless the delegation is deactivated before it is activated, it does not grow from
the deactivation epoch on. -/
theorem stakeActivatingAndDeactivating_effective_monotone (d : Delegation)
    (shares : StakeShares) (history : Option StakeHistory) :
    (SharesFit d shares → ∀ t₁ t₂, t₁ ≤ t₂ → t₂ ≤ d.deactivationEpoch →
      (d.stakeActivatingAndDeactivating shares t₁ history).effective ≤
        (d.stakeActivatingAndDeactivating shares t₂ history).effective) ∧
    (d.isBootstrap ∨ d.activationEpoch ≤ d.deactivationEpoch →
      ∀ t₁ t₂, d.deactivationEpoch ≤ t₁ → t₁ ≤ t₂ →
        (d.stakeActivatingAndDeactivating shares t₂ history).effective ≤
          (d.stakeActivatingAndDeactivating shares t₁ history).effective) := by
  constructor
  · intro hfit t₁ t₂ h₁₂ h₂
    induction t₂, h₁₂ using Nat.le_induction with
    | base => exact le_rfl
    | succ t _ ih => exact (ih (by omega)).trans (effective_le_succ history hfit h₂)
  · intro hord t₁ t₂ h₁ h₁₂
    induction t₂, h₁₂ using Nat.le_induction with
    | base => exact le_rfl
    | succ t ht ih => exact (effective_succ_le history hord (h₁.trans ht)).trans ih

theorem stakeActivatingAndDeactivating_effective_monotone_oneLamport :
    let d : Delegation := ⟨0, 10, 0, 5, 1 / 4⟩
    let shares : StakeShares := ⟨fun _ _ => 1, fun _ _ => 1⟩
    SharesFit d shares ∧ (d.isBootstrap ∨ d.activationEpoch ≤ d.deactivationEpoch) ∧
      (∀ t₁ t₂, t₁ ≤ t₂ → t₂ ≤ d.deactivationEpoch →
        (d.stakeActivatingAndDeactivating shares t₁ none).effective ≤
          (d.stakeActivatingAndDeactivating shares t₂ none).effective) ∧
      ∀ t₁ t₂, d.deactivationEpoch ≤ t₁ → t₁ ≤ t₂ →
        (d.stakeActivatingAndDeactivating shares t₂ none).effective ≤
          (d.stakeActivatingAndDeactivating shares t₁ none).effective := by
  intro d shares
  have hfit : SharesFit d shares := by
    intro _ _
    show 10 + max 1 1 < 2 ^ 64
    decide
  have hord : d.isBootstrap ∨ d.activationEpoch ≤ d.deactivationEpoch := .inr (by decide)
  exact ⟨hfit, hord, (stakeActivatingAndDeactivating_effective_monotone d shares none).1 hfit,
    (stakeActivatingAndDeactivating_effective_monotone d shares none).2 hord⟩

/-- Even with the shares computed exactly, the effective stake of `Delegation::stake` can drop
before the deactivation epoch, where a share of `u64::MAX` wraps the `+=` of the warmup
(release builds do not check it): 5 of 10 lamports at epoch 1, 4 at epoch 2. It can also grow
after the deactivation epoch, for a delegation deactivated at epoch 3 and activated at
epoch 5: nothing at epoch 5, 5 lamports at epoch 6. -/
theorem effectiveStake_counter_wrapsAndReactivates :
    (∃ (d : Delegation) (history : StakeHistory) (t₁ t₂ : ℕ),
      t₁ ≤ t₂ ∧ t₂ ≤ d.deactivationEpoch ∧
        d.effectiveStake t₂ (some history) < d.effectiveStake t₁ (some history)) ∧
    ∃ (d : Delegation) (history : StakeHistory) (t₁ t₂ : ℕ),
      d.deactivationEpoch ≤ t₁ ∧ t₁ ≤ t₂ ∧
        d.effectiveStake t₁ (some history) < d.effectiveStake t₂ (some history) := by
  constructor
  · let d : Delegation := ⟨0, 10, 0, u64Max, 1 / 4⟩
    let history : StakeHistory := [(1, ⟨u64Max, 1, 0⟩), (0, ⟨20, 10, 0⟩)]
    have hactivation : history.get 0 = some ⟨20, 10, 0⟩ := by decide
    have hone : d.effectiveStake 1 (some history) = 5 := by
      rw [effectiveStake, effective_eq_of_le _ _ _ _ (by decide), stakeAndActivating_fst,
        if_neg (by decide), if_neg (by decide), if_neg (by decide), warmedUpStake, hactivation]
      show d.warmup d.exactShares history 1 ⟨0, ⟨20, 10, 0⟩, 0⟩ = 5
      exact warmup_of_inl (by decide +kernel)
    have htwo : d.effectiveStake 2 (some history) = 4 := by
      rw [effectiveStake, effective_eq_of_le _ _ _ _ (by decide), stakeAndActivating_fst,
        if_neg (by decide), if_neg (by decide), if_neg (by decide), warmedUpStake, hactivation]
      show d.warmup d.exactShares history 2 ⟨0, ⟨20, 10, 0⟩, 0⟩ = 4
      have hround : d.warmupRound d.exactShares history 2 ⟨0, ⟨20, 10, 0⟩, 0⟩ =
          .inr ⟨1, ⟨u64Max, 1, 0⟩, 5⟩ := by
        decide +kernel
      rw [warmup_of_inr hround]
      exact warmup_of_inl (by decide +kernel)
    exact ⟨d, history, 1, 2, by decide, by decide, by rw [hone, htwo]; decide⟩
  · let d : Delegation := ⟨0, 10, 5, 3, 1 / 4⟩
    let history : StakeHistory := [(5, ⟨20, 10, 0⟩), (3, ⟨0, 0, 0⟩)]
    have hactivation : history.get 5 = some ⟨20, 10, 0⟩ := by decide
    have hdeactivation : history.get 3 = some ⟨0, 0, 0⟩ := by decide
    have hfive : d.effectiveStake 5 (some history) = 0 := by
      apply Nat.eq_zero_of_le_zero
      rw [effectiveStake, effective_eq_of_lt _ _ _ _ (by decide)]
      refine (cooledDownStake_le _ _ _ _ _).trans ?_
      rw [stakeAndActivating_fst, if_neg (by decide), if_neg (by decide), if_pos (by decide)]
    have hsix : d.effectiveStake 6 (some history) = 5 := by
      rw [effectiveStake, effective_eq_of_lt _ _ _ _ (by decide), stakeAndActivating_fst,
        if_neg (by decide), if_neg (by decide), if_neg (by decide), warmedUpStake, hactivation,
        cooledDownStake, hdeactivation]
      show cooldown d.exactShares history 6
        ⟨3, ⟨0, 0, 0⟩, d.warmup d.exactShares history 6 ⟨5, ⟨20, 10, 0⟩, 0⟩⟩ = 5
      rw [warmup_of_inl (b := 5) (by decide +kernel)]
      exact cooldown_of_inl (by decide +kernel)
    exact ⟨d, history, 5, 6, by decide, by decide, by rw [hfive, hsix]; decide⟩

end Solana.StakeProgram.Delegation
