import Solana.Stake.State
import Solana.Lib.FloorShare
import Mathlib

/-! `merge_delegation_stake_and_credits_observed` and the rounded-up weighted credits observed
(`stakeWeightedCreditsObserved_bounds`). -/

namespace Solana.StakeProgram

open MachineInt

/-- `stake_weighted_credits_observed`: `none` when a checked operation fails. -/
def stakeWeightedCreditsObserved (stake : Stake) (absorbedLamports absorbedCreditsObserved : ℕ) :
    Option ℕ :=
  if stake.creditsObserved = absorbedCreditsObserved then some stake.creditsObserved
  else do
    let totalStake ← checkedAdd 64 stake.delegation.stake absorbedLamports
    let stakeWeightedCredits ← checkedMul 128 stake.creditsObserved stake.delegation.stake
    let absorbedWeightedCredits ← checkedMul 128 absorbedCreditsObserved absorbedLamports
    let totalWeightedCredits ← checkedAdd 128 stakeWeightedCredits absorbedWeightedCredits
    let totalWeightedCredits ← checkedAdd 128 totalWeightedCredits totalStake
    let totalWeightedCredits ← checkedSub totalWeightedCredits 1
    let creditsObserved ← checkedDiv totalWeightedCredits totalStake
    tryFrom 64 creditsObserved

/-- `merge_delegation_stake_and_credits_observed`, with the feature
`stake_merge_with_unmatched_credits_observed` active or not. -/
def mergeDelegationStakeAndCreditsObserved (mergeWithUnmatchedCreditsObserved : Bool)
    (stake : Stake) (absorbedLamports absorbedCreditsObserved : ℕ) :
    Except InstructionError Stake := do
  let stake ←
    if mergeWithUnmatchedCreditsObserved then
      match stakeWeightedCreditsObserved stake absorbedLamports absorbedCreditsObserved with
      | some creditsObserved => pure { stake with creditsObserved }
      | none => throw .arithmeticOverflow
    else pure stake
  -- `checked_add` of `sdk/program/src/instruction.rs`
  match checkedAdd 64 stake.delegation.stake absorbedLamports with
  | some delegatedStake => pure { stake with delegation := { stake.delegation with stake := delegatedStake } }
  | none => throw .insufficientFunds

/-! ## The weighted average -/

section Average

variable {s₁ c₁ s₂ c₂ : ℕ}

/-- The weighted sum of two counts is at most the greater count times the total weight. -/
theorem weightedSum_le_max : s₁ * c₁ + s₂ * c₂ ≤ (s₁ + s₂) * max c₁ c₂ := by
  have h₁ : s₁ * c₁ ≤ s₁ * max c₁ c₂ := Nat.mul_le_mul_left s₁ (le_max_left c₁ c₂)
  have h₂ : s₂ * c₂ ≤ s₂ * max c₁ c₂ := Nat.mul_le_mul_left s₂ (le_max_right c₁ c₂)
  rw [Nat.add_mul]
  exact Nat.add_le_add h₁ h₂

theorem min_le_weightedSum : (s₁ + s₂) * min c₁ c₂ ≤ s₁ * c₁ + s₂ * c₂ := by
  have h₁ : s₁ * min c₁ c₂ ≤ s₁ * c₁ := Nat.mul_le_mul_left s₁ (min_le_left c₁ c₂)
  have h₂ : s₂ * min c₁ c₂ ≤ s₂ * c₂ := Nat.mul_le_mul_left s₂ (min_le_right c₁ c₂)
  rw [Nat.add_mul]
  exact Nat.add_le_add h₁ h₂

/-- With `u64` stakes whose sum fits and `u64` counts, every checked step succeeds and the
result is the weighted sum divided by the total, rounded up; equal counts give the same. -/
theorem stakeWeightedCreditsObserved_eq {stake : Stake} {absorbedLamports absorbedCreditsObserved : ℕ}
    (htotal : 0 < stake.delegation.stake + absorbedLamports)
    (hfits : stake.delegation.stake + absorbedLamports ≤ u64Max)
    (hcredits : stake.creditsObserved ≤ u64Max) (habsorbed : absorbedCreditsObserved ≤ u64Max) :
    stakeWeightedCreditsObserved stake absorbedLamports absorbedCreditsObserved =
      some ((stake.delegation.stake * stake.creditsObserved + absorbedLamports * absorbedCreditsObserved +
        (stake.delegation.stake + absorbedLamports) - 1) / (stake.delegation.stake + absorbedLamports)) := by
  unfold stakeWeightedCreditsObserved
  set s₁ := stake.delegation.stake
  set c₁ := stake.creditsObserved
  set s₂ := absorbedLamports
  set c₂ := absorbedCreditsObserved
  simp only [u64Max] at hfits hcredits habsorbed
  split_ifs with hsame
  · rw [← hsame, ← Nat.add_mul, Nat.add_sub_assoc (htotal : 1 ≤ s₁ + s₂), Nat.mul_add_div htotal,
      Nat.div_eq_of_lt (Nat.sub_lt htotal Nat.one_pos), Nat.add_zero]
  · have hmax : max c₁ c₂ < 2 ^ 64 := max_lt (by omega) (by omega)
    have hsum : s₁ * c₁ + s₂ * c₂ + (s₁ + s₂) < 2 ^ 128 :=
      calc s₁ * c₁ + s₂ * c₂ + (s₁ + s₂)
          ≤ (s₁ + s₂) * max c₁ c₂ + (s₁ + s₂) := Nat.add_le_add_right weightedSum_le_max _
        _ = (s₁ + s₂) * (max c₁ c₂ + 1) := by ring
        _ ≤ (2 ^ 64 - 1) * 2 ^ 64 := Nat.mul_le_mul (by omega) (by omega)
        _ < 2 ^ 128 := by norm_num
    have hle : (s₁ * c₁ + s₂ * c₂ + (s₁ + s₂) - 1) / (s₁ + s₂) ≤ max c₁ c₂ := by
      apply Nat.le_of_lt_succ
      apply Nat.lt_of_mul_lt_mul_right (a := s₁ + s₂)
      calc (s₁ * c₁ + s₂ * c₂ + (s₁ + s₂) - 1) / (s₁ + s₂) * (s₁ + s₂)
          < s₁ * c₁ + s₂ * c₂ + (s₁ + s₂) := FloorShare.div_ceil_mul_lt _ htotal
        _ ≤ (s₁ + s₂) * max c₁ c₂ + (s₁ + s₂) := Nat.add_le_add_right weightedSum_le_max _
        _ = (max c₁ c₂ + 1) * (s₁ + s₂) := by ring
    rw [Nat.mul_comm s₁ c₁, Nat.mul_comm s₂ c₂] at hsum hle ⊢
    have htotalFits : s₁ + s₂ < 2 ^ 64 := by omega
    have hmul₁ : c₁ * s₁ < 2 ^ 128 := by omega
    have hmul₂ : c₂ * s₂ < 2 ^ 128 := by omega
    have hweighted : c₁ * s₁ + c₂ * s₂ < 2 ^ 128 := by omega
    have hone : 1 ≤ c₁ * s₁ + c₂ * s₂ + (s₁ + s₂) := by omega
    have hnonzero : s₁ + s₂ ≠ 0 := by omega
    have hfitsU64 : (c₁ * s₁ + c₂ * s₂ + (s₁ + s₂) - 1) / (s₁ + s₂) < 2 ^ 64 := by omega
    simp only [checkedAdd, checkedMul, checkedSub, checkedDiv, tryFrom, htotalFits, hmul₁, hmul₂,
      hweighted, hsum, hone, hnonzero, hfitsU64, if_true, if_false, Option.bind_eq_bind,
      Option.bind_some]

/-- With the feature active, merging `u64` stakes whose sum fits, with `u64` counts, delegates
the sum with the rounded-up weighted average. -/
theorem mergeDelegationStakeAndCreditsObserved_eq {stake : Stake}
    {absorbedLamports absorbedCreditsObserved : ℕ}
    (htotal : 0 < stake.delegation.stake + absorbedLamports)
    (hfits : stake.delegation.stake + absorbedLamports ≤ u64Max)
    (hcredits : stake.creditsObserved ≤ u64Max) (habsorbed : absorbedCreditsObserved ≤ u64Max) :
    mergeDelegationStakeAndCreditsObserved true stake absorbedLamports absorbedCreditsObserved =
      .ok { delegation := { stake.delegation with
              stake := stake.delegation.stake + absorbedLamports }
            creditsObserved := (stake.delegation.stake * stake.creditsObserved +
              absorbedLamports * absorbedCreditsObserved +
                (stake.delegation.stake + absorbedLamports) - 1) /
              (stake.delegation.stake + absorbedLamports) } := by
  have hsum : stake.delegation.stake + absorbedLamports < 2 ^ 64 := by
    simp only [u64Max] at hfits
    omega
  simp only [mergeDelegationStakeAndCreditsObserved, if_true,
    stakeWeightedCreditsObserved_eq htotal hfits hcredits habsorbed, pure_bind, checkedAdd, hsum]
  rfl

/-- Merged credits observed are the stake-weighted average rounded up. For `u64` stakes `s₁`
and `s₂` with `0 < s₁ + s₂ ≤ u64::MAX` and `u64` counts `c₁` and `c₂`, the result `c₃`
exists, lies between `c₁` and `c₂`, and satisfies
`s₁ * c₁ + s₂ * c₂ ≤ (s₁ + s₂) * c₃ < s₁ * c₁ + s₂ * c₂ + (s₁ + s₂)`. So at every later
credit count the merged stake earns at most the points the two stakes would have earned. -/
theorem stakeWeightedCreditsObserved_bounds (stake : Stake)
    (absorbedLamports absorbedCreditsObserved : ℕ)
    (htotal : 0 < stake.delegation.stake + absorbedLamports)
    (hfits : stake.delegation.stake + absorbedLamports ≤ u64Max)
    (hcredits : stake.creditsObserved ≤ u64Max) (habsorbed : absorbedCreditsObserved ≤ u64Max) :
    ∃ creditsObserved,
      stakeWeightedCreditsObserved stake absorbedLamports absorbedCreditsObserved =
          some creditsObserved ∧
        min stake.creditsObserved absorbedCreditsObserved ≤ creditsObserved ∧
        creditsObserved ≤ max stake.creditsObserved absorbedCreditsObserved ∧
        stake.delegation.stake * stake.creditsObserved + absorbedLamports * absorbedCreditsObserved ≤
          (stake.delegation.stake + absorbedLamports) * creditsObserved ∧
        (stake.delegation.stake + absorbedLamports) * creditsObserved <
          stake.delegation.stake * stake.creditsObserved +
            absorbedLamports * absorbedCreditsObserved + (stake.delegation.stake + absorbedLamports) ∧
        ∀ credits, max stake.creditsObserved absorbedCreditsObserved ≤ credits →
          (credits - creditsObserved) * (stake.delegation.stake + absorbedLamports) ≤
            (credits - stake.creditsObserved) * stake.delegation.stake +
              (credits - absorbedCreditsObserved) * absorbedLamports := by
  refine ⟨_, stakeWeightedCreditsObserved_eq htotal hfits hcredits habsorbed, ?_⟩
  set s₁ := stake.delegation.stake
  set c₁ := stake.creditsObserved
  set s₂ := absorbedLamports
  set c₂ := absorbedCreditsObserved
  have hlow := FloorShare.le_div_ceil_mul (s₁ * c₁ + s₂ * c₂) htotal
  have hhigh := FloorShare.div_ceil_mul_lt (s₁ * c₁ + s₂ * c₂) htotal
  set c₃ := (s₁ * c₁ + s₂ * c₂ + (s₁ + s₂) - 1) / (s₁ + s₂)
  have hmin : min c₁ c₂ ≤ c₃ := by
    apply Nat.le_of_mul_le_mul_right _ htotal
    rw [Nat.mul_comm]
    exact min_le_weightedSum.trans hlow
  have hmax : c₃ ≤ max c₁ c₂ := by
    apply Nat.le_of_lt_succ
    apply Nat.lt_of_mul_lt_mul_right (a := s₁ + s₂)
    calc c₃ * (s₁ + s₂)
        < s₁ * c₁ + s₂ * c₂ + (s₁ + s₂) := hhigh
      _ ≤ (s₁ + s₂) * max c₁ c₂ + (s₁ + s₂) := Nat.add_le_add_right weightedSum_le_max _
      _ = (max c₁ c₂ + 1) * (s₁ + s₂) := by ring
  refine ⟨hmin, hmax, by rw [Nat.mul_comm (s₁ + s₂)]; exact hlow,
    by rw [Nat.mul_comm (s₁ + s₂)]; exact hhigh, ?_⟩
  intro credits hcredits
  have h₁ : c₁ ≤ credits := (le_max_left c₁ c₂).trans hcredits
  have h₂ : c₂ ≤ credits := (le_max_right c₁ c₂).trans hcredits
  have h₃ : c₃ ≤ credits := hmax.trans hcredits
  have hlowZ : ((s₁ : ℤ) * c₁ + s₂ * c₂) ≤ c₃ * (s₁ + s₂) := by exact_mod_cast hlow
  zify [h₁, h₂, h₃]
  linear_combination hlowZ

theorem stakeWeightedCreditsObserved_bounds_threeAndFive :
    ∃ creditsObserved,
      stakeWeightedCreditsObserved ⟨⟨0, 3, 0, u64Max, 0⟩, 10⟩ 5 20 = some creditsObserved ∧
        min 10 20 ≤ creditsObserved ∧ creditsObserved ≤ max 10 20 ∧
        3 * 10 + 5 * 20 ≤ (3 + 5) * creditsObserved ∧
        (3 + 5) * creditsObserved < 3 * 10 + 5 * 20 + (3 + 5) ∧
        ∀ credits, max 10 20 ≤ credits →
          (credits - creditsObserved) * (3 + 5) ≤ (credits - 10) * 3 + (credits - 20) * 5 :=
  stakeWeightedCreditsObserved_bounds ⟨⟨0, 3, 0, u64Max, 0⟩, 10⟩ 5 20 (by decide) (by decide)
    (by decide) (by decide)

end Average

end Solana.StakeProgram
