import Solana.Stake.Rewards
import Solana.Vote.Credits

/-! `calculate_stake_points_and_credits` on the credit histories `increment_credits` builds
(`calculateStakePointsAndCredits_eq`, `entryPoints_run`). -/

namespace Solana.StakeProgram

open VoteProgram (VoteState CreditHistory)

variable (stake : Stake) (stakeHistory : Option StakeHistory)

/-- The points of one entry for a stake that observed `creditsObserved`: its effective stake
at the entry's epoch times the entry's credits above that count. -/
def entryPoints (creditsObserved : ℕ) (entry : ℕ × ℕ × ℕ) : ℕ :=
  stake.effectiveStake entry.1 stakeHistory * (entry.2.1 - max creditsObserved entry.2.2)

/-- The points of the credits earned one by one, the `n`-th in `epochs[n]`, for a stake that
observed the first `creditsObserved` of them. -/
def creditPoints (epochs : List ℕ) (creditsObserved : ℕ) : ℕ :=
  ((epochs.drop creditsObserved).map fun epoch => stake.effectiveStake epoch stakeHistory).sum

/-! ## The fold over the entries -/

section Fold

variable {stake stakeHistory} {c : ℕ}

/-- While the running maximum is the observed count or the start of the entry, a round of the
fold adds the entry's points; the running maximum is what makes the partial branch pay
from the observed count. -/
theorem pointsStep_of_le {points m : ℕ} {entry : ℕ × ℕ × ℕ} (hc : c ≤ m)
    (hm : m ≤ max c entry.2.2) :
    pointsStep stake stakeHistory c (points, m) entry =
      (points + entryPoints stake stakeHistory c entry, max m entry.2.1) := by
  obtain ⟨epoch, credits, prevCredits⟩ := entry
  simp only [pointsStep, entryPoints, Prod.mk.injEq, and_true]
  congr 2
  split_ifs with hfull hpartial
  · rw [max_eq_right hfull.le]
  · have hm' : m = c := le_antisymm (by simpa [Nat.not_lt.mp hfull] using hm) hc
    rw [hm', max_eq_left (Nat.not_lt.mp hfull)]
  · omega

/-- The credits of every entry are at most the last entry's. -/
theorem le_last_of_mem : ∀ {history : List (ℕ × ℕ × ℕ)} {last entry : ℕ × ℕ × ℕ},
    history.IsChain (fun a b => b.2.2 = a.2.1) → (∀ e ∈ history, e.2.2 ≤ e.2.1) →
      history.getLast? = some last → entry ∈ history → entry.2.1 ≤ last.2.1
  | [], _, _, _, _, hlast, _ => by simp at hlast
  | [e], last, entry, _, _, hlast, hentry => by
    simp only [List.getLast?_singleton, Option.some.injEq] at hlast
    rw [List.mem_singleton] at hentry
    rw [hentry, hlast]
  | e :: e' :: rest, last, entry, hchain, hearned, hlast, hentry => by
    have hnext : e'.2.2 = e.2.1 := (List.isChain_cons_cons.mp hchain).1
    have htail : (e' :: rest).getLast? = some last := by
      rw [← hlast, List.getLast?_cons_cons]
    have hrest := fun entry' (hentry' : entry' ∈ e' :: rest) =>
      le_last_of_mem (List.isChain_cons_cons.mp hchain).2
        (fun x hx => hearned x (List.mem_cons_of_mem e hx)) htail hentry'
    rcases List.mem_cons.mp hentry with rfl | hentry
    · have he' := hrest e' List.mem_cons_self
      have hearned' := hearned e' (by simp)
      omega
    · exact hrest entry hentry

theorem foldl_pointsStep {points m : ℕ} (hc : c ≤ m) :
    ∀ {history : List (ℕ × ℕ × ℕ)}, history.IsChain (fun a b => b.2.2 = a.2.1) →
      (∀ e ∈ history, e.2.2 ≤ e.2.1) → (∀ e ∈ history.head?, m ≤ max c e.2.2) →
      history.foldl (pointsStep stake stakeHistory c) (points, m) =
        (points + (history.map (entryPoints stake stakeHistory c)).sum,
          history.foldl (fun m e => max m e.2.1) m)
  | [], _, _, _ => by simp
  | e :: rest, hchain, hearned, hhead => by
    have hm : m ≤ max c e.2.2 := hhead e rfl
    have hc' : c ≤ max m e.2.1 := le_trans hc (le_max_left _ _)
    have hnext : ∀ e' ∈ rest.head?, max m e.2.1 ≤ max c e'.2.2 := by
      intro e' he'
      have hstart : e'.2.2 = e.2.1 := by
        cases rest with
        | nil => cases he'
        | cons r rest =>
          rw [List.head?_cons, Option.mem_some_iff] at he'
          subst he'
          exact (List.isChain_cons_cons.mp hchain).1
      have hearned' := hearned e List.mem_cons_self
      rw [hstart]
      omega
    have hrest : rest.IsChain (fun a b => b.2.2 = a.2.1) := hchain.tail
    rw [List.foldl_cons, pointsStep_of_le hc hm,
      foldl_pointsStep hc' hrest (fun x hx => hearned x (List.mem_cons_of_mem e hx)) hnext]
    simp only [List.map_cons, List.sum_cons, List.foldl_cons, Nat.add_assoc]

/-- The running maximum of credits over increasing entries is the last entry's. -/
theorem foldl_max_credits {history : List (ℕ × ℕ × ℕ)}
    (hchain : history.IsChain (fun a b => b.2.2 = a.2.1)) (hearned : ∀ e ∈ history, e.2.2 ≤ e.2.1)
    (m : ℕ) :
    history.foldl (fun m e => max m e.2.1) m = max m ((history.getLast?.map (·.2.1)).getD 0) := by
  induction history using List.reverseRecOn generalizing m with
  | nil => simp
  | append_singleton history last ih =>
    rw [List.foldl_append, ih (List.isChain_append.mp hchain).1
      (fun x hx => hearned x (List.mem_append_left _ hx))]
    simp only [List.foldl_cons, List.foldl_nil, List.getLast?_concat, Option.map_some,
      Option.getD_some]
    cases hlast : history.getLast? with
    | none => simp
    | some prev =>
      have hle := le_last_of_mem hchain hearned List.getLast?_concat
        (List.mem_append_left [last] (List.mem_of_getLast? hlast))
      simp only [Option.map_some, Option.getD_some]
      omega

end Fold

/-- `calculate_stake_points_and_credits` on a history whose entries each start where the one
before ended: the points of each entry, and the observed credits brought up to the vote
account's. -/
theorem calculateStakePointsAndCredits_eq (voteState : VoteState)
    (hchain : voteState.epochCredits.IsChain (fun a b => b.2.2 = a.2.1))
    (hearned : ∀ e ∈ voteState.epochCredits, e.2.2 ≤ e.2.1) :
    calculateStakePointsAndCredits stake voteState stakeHistory =
      ((voteState.epochCredits.map (entryPoints stake stakeHistory stake.creditsObserved)).sum,
        max stake.creditsObserved voteState.credits) := by
  have hcredits : voteState.credits = (voteState.epochCredits.getLast?.map (·.2.1)).getD 0 := by
    unfold VoteState.credits
    cases voteState.epochCredits.getLast? <;> rfl
  unfold calculateStakePointsAndCredits
  dsimp only
  split_ifs with hnone
  · refine Prod.ext ?_ (max_eq_left hnone).symm
    refine (List.sum_eq_zero fun p hp => ?_).symm
    obtain ⟨entry, hentry, rfl⟩ := List.mem_map.mp hp
    obtain ⟨last, hlast⟩ := Option.isSome_iff_exists.mp
      (Option.isSome_iff_ne_none.mpr (List.getLast?_eq_none_iff.not.mpr (List.ne_nil_of_mem hentry)))
    have hle := le_last_of_mem hchain hearned hlast hentry
    rw [hcredits, hlast] at hnone
    simp only [Option.map_some, Option.getD_some] at hnone
    simp only [entryPoints]
    rw [Nat.sub_eq_zero_of_le (by omega), Nat.mul_zero]
  · rw [foldl_pointsStep le_rfl hchain hearned (fun e _ => le_max_left _ _),
      foldl_max_credits hchain hearned, hcredits, Nat.zero_add]

/-- A history of one entry. -/
theorem calculateStakePointsAndCredits_single {voteState : VoteState} {entry : ℕ × ℕ × ℕ}
    (h : voteState.epochCredits = [entry]) (hearned : entry.2.2 ≤ entry.2.1) :
    calculateStakePointsAndCredits stake voteState stakeHistory =
      (entryPoints stake stakeHistory stake.creditsObserved entry,
        max stake.creditsObserved entry.2.1) := by
  have hcredits : voteState.credits = entry.2.1 := by rw [VoteState.credits, h]; rfl
  have hearned' : ∀ e ∈ voteState.epochCredits, e.2.2 ≤ e.2.1 := by
    intro e he
    rw [h, List.mem_singleton] at he
    rw [he]
    exact hearned
  rw [calculateStakePointsAndCredits_eq stake stakeHistory voteState
    (by rw [h]; exact List.isChain_singleton _) hearned', h, hcredits, List.map_singleton,
    List.sum_singleton]

/-! ## One credit at a time -/

section Credit

variable {stake stakeHistory}

/-- One credit in `epoch` adds the effective stake at `epoch` to the points of every count
the credits before it reach, as long as the entry it may drop held nothing above the count. -/
theorem entryPoints_incrementCredits {s : VoteState} {calls epoch c : ℕ}
    (h : CreditHistory s.epochCredits calls) (hcalls : calls + 1 < 2 ^ 64)
    (hkept : ∀ e ∈ (s.incrementCredits epoch).epochCredits.head?, e.2.2 ≤ c) :
    ((s.incrementCredits epoch).epochCredits.map (entryPoints stake stakeHistory c)).sum =
      (s.epochCredits.map (entryPoints stake stakeHistory c)).sum +
        if c ≤ calls then stake.effectiveStake epoch stakeHistory else 0 := by
  cases hlast : s.epochCredits.getLast? with
  | none =>
    have hempty := List.getLast?_eq_none_iff.mp hlast
    have hcalls0 : calls = 0 := h.nil_iff.mp hempty
    rw [VoteProgram.VoteState.incrementCredits_first hempty, hempty, hcalls0]
    simp only [List.map_cons, List.map_nil, List.sum_cons, List.sum_nil, entryPoints,
      max_eq_left (Nat.zero_le c), Nat.add_zero, Nat.zero_add]
    split_ifs with hc
    · rw [show c = 0 by omega, Nat.sub_zero, Nat.mul_one]
    · rw [Nat.sub_eq_zero_of_le (by omega), Nat.mul_zero]
  | some last =>
    obtain ⟨lastEpoch, credits, prevCredits⟩ := last
    obtain ⟨history, hhistory⟩ := List.getLast?_eq_some_iff.mp hlast
    have hcredits : credits = calls := h.last _ (by rw [hhistory]; exact List.getLast?_concat)
    rw [hcredits] at hhistory
    have hearned : prevCredits < calls :=
      h.earned (lastEpoch, calls, prevCredits) (by rw [hhistory]; simp)
    have hwrap : MachineInt.wrappingAdd 64 calls 1 = calls + 1 := MachineInt.wrappingAdd_of_lt hcalls
    by_cases hsame : epoch = lastEpoch
    · subst hsame
      rw [VoteProgram.VoteState.incrementCredits_same_epoch hhistory, hwrap, hhistory]
      simp only [List.map_append, List.map_singleton, List.sum_append, List.sum_singleton,
        entryPoints]
      split_ifs with hc
      · rw [show calls + 1 - max c prevCredits = calls - max c prevCredits + 1 by omega,
          Nat.mul_succ]
        omega
      · rw [show calls + 1 - max c prevCredits = 0 by omega,
          show calls - max c prevCredits = 0 by omega]
        rfl
    · rw [VoteProgram.VoteState.incrementCredits_new_epoch hhistory hsame (by omega), hwrap]
        at hkept ⊢
      have hnew : entryPoints stake stakeHistory c (epoch, calls + 1, calls) =
          if c ≤ calls then stake.effectiveStake epoch stakeHistory else 0 := by
        unfold entryPoints
        split_ifs with hc
        · rw [show calls + 1 - max c calls = 1 by omega, Nat.mul_one]
        · rw [show calls + 1 - max c calls = 0 by omega, Nat.mul_zero]
      rw [hhistory]
      by_cases hlong : VoteProgram.maxEpochCreditsHistory < history.length + 2
      · rw [if_pos hlong] at hkept ⊢
        obtain ⟨oldest, rest, hcons⟩ := List.exists_cons_of_ne_nil
          (List.append_ne_nil_of_right_ne_nil history (List.cons_ne_nil (lastEpoch, calls, prevCredits) []))
        have hchain : (oldest :: rest).IsChain (fun a b => b.2.2 = a.2.1) := by
          rw [← hcons, ← hhistory]
          exact h.chained
        have hrest : rest ≠ [] := by
          intro hnil
          have hlens := congrArg List.length hcons
          simp only [hnil, List.length_append, List.length_cons, List.length_nil] at hlens
          simp only [VoteProgram.maxEpochCreditsHistory] at hlong
          omega
        obtain ⟨second, rest', hrest'⟩ := List.exists_cons_of_ne_nil hrest
        rw [hrest'] at hchain
        rw [hcons, hrest', List.tail_cons, List.cons_append, List.head?_cons] at hkept
        have hdropped : entryPoints stake stakeHistory c oldest = 0 := by
          have hstart : second.2.2 = oldest.2.1 := (List.isChain_cons_cons.mp hchain).1
          have hkept' := hkept second rfl
          unfold entryPoints
          rw [Nat.sub_eq_zero_of_le (by omega), Nat.mul_zero]
        rw [hcons, List.tail_cons, List.map_cons, List.sum_cons, hdropped, Nat.zero_add,
          List.map_append, List.sum_append, List.map_singleton, List.sum_singleton, hnew]
      · rw [if_neg hlong, List.map_append, List.sum_append, List.map_singleton,
          List.sum_singleton, hnew]

/-- The entry a credit may drop is the oldest, so the oldest entry kept never starts lower. -/
theorem headPrev_le_incrementCredits {s : VoteState} {calls epoch : ℕ}
    (h : CreditHistory s.epochCredits calls) {e e' : ℕ × ℕ × ℕ}
    (he : e ∈ s.epochCredits.head?) (he' : e' ∈ (s.incrementCredits epoch).epochCredits.head?) :
    e.2.2 ≤ e'.2.2 := by
  cases hlast : s.epochCredits.getLast? with
  | none => simp [List.getLast?_eq_none_iff.mp hlast] at he
  | some last =>
    obtain ⟨lastEpoch, credits, prevCredits⟩ := last
    obtain ⟨history, hhistory⟩ := List.getLast?_eq_some_iff.mp hlast
    have hearned : prevCredits < credits :=
      h.earned (lastEpoch, credits, prevCredits) (by rw [hhistory]; simp)
    by_cases hsame : epoch = lastEpoch
    · subst hsame
      rw [VoteProgram.VoteState.incrementCredits_same_epoch hhistory] at he'
      rw [hhistory] at he
      cases history with
      | nil =>
        simp only [List.nil_append, List.head?_cons, Option.mem_some_iff] at he he'
        rw [← he, ← he']
      | cons first rest =>
        simp only [List.cons_append, List.head?_cons, Option.mem_some_iff] at he he'
        rw [← he, ← he']
    · rw [VoteProgram.VoteState.incrementCredits_new_epoch hhistory hsame (by omega)] at he'
      rw [hhistory] at he
      obtain ⟨oldest, rest, hcons⟩ := List.exists_cons_of_ne_nil
        (List.append_ne_nil_of_right_ne_nil history (List.cons_ne_nil (lastEpoch, credits, prevCredits) []))
      rw [hcons, List.head?_cons, Option.mem_some_iff] at he
      rw [← he]
      have hchain : (oldest :: rest).IsChain (fun a b => b.2.2 = a.2.1) := by
        rw [← hcons, ← hhistory]
        exact h.chained
      have hearned' : oldest.2.2 < oldest.2.1 := h.earned oldest (by rw [hhistory, hcons]; simp)
      split_ifs at he' with hlong
      · rw [hcons, List.tail_cons] at he'
        cases rest with
        | nil =>
          simp only [List.nil_append, List.head?_cons, Option.mem_some_iff] at he'
          have hle := le_last_of_mem h.chained (fun x hx => (h.earned x hx).le) hlast
            (show oldest ∈ s.epochCredits by rw [hhistory, hcons]; exact List.mem_cons_self)
          rw [← he']
          dsimp only at hle ⊢
          omega
        | cons second rest =>
          simp only [List.cons_append, List.head?_cons, Option.mem_some_iff] at he'
          rw [← he', (List.isChain_cons_cons.mp hchain).1]
          exact hearned'.le
      · rw [hcons, List.cons_append, List.head?_cons, Option.mem_some_iff] at he'
        rw [he']

end Credit

/-! ## Credit by credit -/

section Run

variable {stake stakeHistory}

theorem creditPoints_append (first second : List ℕ) (c : ℕ) :
    creditPoints stake stakeHistory (first ++ second) c =
      creditPoints stake stakeHistory first c +
        creditPoints stake stakeHistory second (c - first.length) := by
  simp [creditPoints, List.drop_append]

theorem creditPoints_of_length_le {epochs : List ℕ} {c : ℕ} (h : epochs.length ≤ c) :
    creditPoints stake stakeHistory epochs c = 0 := by
  simp [creditPoints, List.drop_eq_nil_of_le h]

/-- One more credit is worth its epoch's effective stake to a count that reaches it. -/
theorem creditPoints_append_singleton (epochs : List ℕ) (epoch c : ℕ) :
    creditPoints stake stakeHistory (epochs ++ [epoch]) c =
      creditPoints stake stakeHistory epochs c +
        if c ≤ epochs.length then stake.effectiveStake epoch stakeHistory else 0 := by
  rw [creditPoints_append]
  split_ifs with hc
  · simp [creditPoints, Nat.sub_eq_zero_of_le hc]
  · have hnone : creditPoints stake stakeHistory [epoch] (c - epochs.length) = 0 :=
      creditPoints_of_length_le (by simp; omega)
    rw [hnone]

variable {s : VoteState}

/-- Along a run of credits, the oldest entry kept never starts lower. -/
theorem headPrev_le_run (hempty : s.epochCredits = []) (epochs : List ℕ) :
    ∀ more : List ℕ, (epochs ++ more).IsChain (· ≤ ·) → (epochs ++ more).length < 2 ^ 64 →
      ∀ {e e' : ℕ × ℕ × ℕ}, e ∈ (epochs.foldl VoteState.incrementCredits s).epochCredits.head? →
        e' ∈ ((epochs ++ more).foldl VoteState.incrementCredits s).epochCredits.head? →
          e.2.2 ≤ e'.2.2 := by
  intro more
  induction more using List.reverseRecOn with
  | nil =>
    intro _ _ e e' he he'
    rw [List.append_nil, Option.mem_def] at he'
    rw [Option.mem_def, he'] at he
    rw [Option.some_inj.mp he]
  | append_singleton more epoch ih =>
    intro hchain hcalls e e' he he'
    rw [← List.append_assoc] at hchain hcalls he'
    have hprefix := (List.isChain_append.mp hchain).1
    rw [List.length_append, List.length_singleton] at hcalls
    obtain ⟨h, -⟩ := VoteProgram.creditHistory_run_last hempty _ hprefix (by omega)
    rw [List.foldl_append, List.foldl_cons, List.foldl_nil] at he'
    cases hmid : ((epochs ++ more).foldl VoteState.incrementCredits s).epochCredits.head? with
    | none =>
      have hnil := h.nil_iff.mp (List.head?_eq_none_iff.mp hmid)
      obtain ⟨rfl, -⟩ := List.append_eq_nil_iff.mp (List.length_eq_zero_iff.mp hnil)
      simp [hempty] at he
    | some mid =>
      exact (ih hprefix (by omega) he hmid).trans
        (headPrev_le_incrementCredits h hmid he')

/-- Credit by credit: on a run of credits whose dropped entries held nothing above `c`, the
entries are worth the effective stake at the epoch of each credit after the first `c`. -/
theorem entryPoints_run (hempty : s.epochCredits = []) (c : ℕ) :
    ∀ epochs : List ℕ, epochs.IsChain (· ≤ ·) → epochs.length < 2 ^ 64 →
      (∀ e ∈ (epochs.foldl VoteState.incrementCredits s).epochCredits.head?, e.2.2 ≤ c) →
      ((epochs.foldl VoteState.incrementCredits s).epochCredits.map
          (entryPoints stake stakeHistory c)).sum =
        creditPoints stake stakeHistory epochs c := by
  intro epochs
  induction epochs using List.reverseRecOn with
  | nil =>
    intro _ _ _
    simp [hempty, creditPoints]
  | append_singleton epochs epoch ih =>
    intro hchain hcalls hkept
    have hprefix := (List.isChain_append.mp hchain).1
    rw [List.length_append, List.length_singleton] at hcalls
    obtain ⟨h, -⟩ := VoteProgram.creditHistory_run_last hempty _ hprefix (by omega)
    have hkept' : ∀ e ∈ (epochs.foldl VoteState.incrementCredits s).epochCredits.head?,
        e.2.2 ≤ c := by
      intro e he
      cases hlast : ((epochs ++ [epoch]).foldl VoteState.incrementCredits s).epochCredits.head? with
      | none =>
        obtain ⟨h', -⟩ := VoteProgram.creditHistory_run_last hempty _ hchain (by simp; omega)
        have hzero := h'.nil_iff.mp (List.head?_eq_none_iff.mp hlast)
        simp at hzero
      | some e' =>
        exact (headPrev_le_run hempty epochs [epoch] hchain (by simp; omega) he hlast).trans
          (hkept e' hlast)
    rw [List.foldl_append, List.foldl_cons, List.foldl_nil] at hkept ⊢
    rw [entryPoints_incrementCredits h (by omega) hkept, ih hprefix (by omega) hkept',
      creditPoints_append_singleton]

end Run

/-! ## Two redemptions in a row -/

/-- Credits are paid once across redemptions. Take a vote account whose credits were earned
one call at a time from an empty history, in epochs that never go back, fewer than `2 ^ 64`
of them. Then `calculate_stake_points_and_credits` always returns the larger of the observed
count and the account's credits. And when it runs on the account after `epochs₁` and again,
from the count that first call returned, after `epochs₂` more, the two point counts add up
to those of one call after both, as long as the oldest entry left after both starts at or
below the first observed count, that is, no entry with credits above that count was dropped. -/
theorem calculateStakePointsAndCredits_telescopes {s : VoteState} (hempty : s.epochCredits = [])
    (stakeHistory : Option StakeHistory) :
    (∀ (stake : Stake) (epochs : List ℕ), epochs.IsChain (· ≤ ·) → epochs.length < 2 ^ 64 →
      (calculateStakePointsAndCredits stake (epochs.foldl VoteState.incrementCredits s)
          stakeHistory).2 =
        max stake.creditsObserved (epochs.foldl VoteState.incrementCredits s).credits) ∧
    ∀ (stake : Stake) (epochs₁ epochs₂ : List ℕ), (epochs₁ ++ epochs₂).IsChain (· ≤ ·) →
      (epochs₁ ++ epochs₂).length < 2 ^ 64 →
      let v₁ := epochs₁.foldl VoteState.incrementCredits s
      let v₂ := epochs₂.foldl VoteState.incrementCredits v₁
      (∀ e ∈ v₂.epochCredits.head?, e.2.2 ≤ stake.creditsObserved) →
      (calculateStakePointsAndCredits stake v₁ stakeHistory).1 +
          (calculateStakePointsAndCredits
            { stake with creditsObserved := (calculateStakePointsAndCredits stake v₁ stakeHistory).2 }
            v₂ stakeHistory).1 =
        (calculateStakePointsAndCredits stake v₂ stakeHistory).1 := by
  constructor
  · intro stake epochs hchain hcalls
    obtain ⟨h, -⟩ := VoteProgram.creditHistory_run_last hempty epochs hchain hcalls
    rw [calculateStakePointsAndCredits_eq stake stakeHistory _ h.chained
      (fun e he => (h.earned e he).le)]
  · intro stake epochs₁ epochs₂ hchain hcalls v₁ v₂ hkept
    have hchain₁ := (List.isChain_append.mp hchain).1
    have hcalls₁ : epochs₁.length < 2 ^ 64 := by
      rw [List.length_append] at hcalls
      omega
    obtain ⟨h₁, -⟩ := VoteProgram.creditHistory_run_last hempty epochs₁ hchain₁ hcalls₁
    obtain ⟨h, -⟩ := VoteProgram.creditHistory_run_last hempty _ hchain hcalls
    have hv₂ : v₂ = (epochs₁ ++ epochs₂).foldl VoteState.incrementCredits s := by
      rw [List.foldl_append]
    rw [hv₂] at hkept ⊢
    have hkept₁ : ∀ e ∈ v₁.epochCredits.head?, e.2.2 ≤ stake.creditsObserved := by
      intro e he
      cases hlast : ((epochs₁ ++ epochs₂).foldl VoteState.incrementCredits s).epochCredits.head? with
      | none =>
        have hnil := h.nil_iff.mp (List.head?_eq_none_iff.mp hlast)
        obtain ⟨rfl, -⟩ := List.append_eq_nil_iff.mp (List.length_eq_zero_iff.mp hnil)
        simp [v₁, hempty] at he
      | some e' =>
        exact (headPrev_le_run hempty epochs₁ epochs₂ hchain hcalls he hlast).trans
          (hkept e' hlast)
    have hcredits₁ : v₁.credits = epochs₁.length := h₁.credits_eq
    have hearned₁ : ∀ e ∈ v₁.epochCredits, e.2.2 ≤ e.2.1 := fun e he => (h₁.earned e he).le
    have hearned : ∀ e ∈ ((epochs₁ ++ epochs₂).foldl VoteState.incrementCredits s).epochCredits,
        e.2.2 ≤ e.2.1 := fun e he => (h.earned e he).le
    rw [calculateStakePointsAndCredits_eq stake stakeHistory v₁ h₁.chained hearned₁, hcredits₁,
      calculateStakePointsAndCredits_eq _ stakeHistory _ h.chained hearned,
      calculateStakePointsAndCredits_eq stake stakeHistory _ h.chained hearned]
    dsimp only
    have hsecond := @entryPoints_run
      { stake with creditsObserved := max stake.creditsObserved epochs₁.length } stakeHistory s
      hempty (max stake.creditsObserved epochs₁.length) _ hchain hcalls
      (fun e he => (hkept e he).trans (le_max_left _ _))
    rw [hsecond, entryPoints_run hempty _ epochs₁ hchain₁ hcalls₁ hkept₁,
      entryPoints_run hempty _ _ hchain hcalls hkept]
    rw [creditPoints_append, creditPoints_append,
      creditPoints_of_length_le (le_max_right _ _), Nat.zero_add,
      show max stake.creditsObserved epochs₁.length - epochs₁.length =
        stake.creditsObserved - epochs₁.length by omega]
    rfl

theorem calculateStakePointsAndCredits_telescopes_default :
    VoteState.default.epochCredits = [] ∧
      ((∀ (stake : Stake) (epochs : List ℕ), epochs.IsChain (· ≤ ·) → epochs.length < 2 ^ 64 →
        (calculateStakePointsAndCredits stake (epochs.foldl VoteState.incrementCredits
            VoteState.default) none).2 =
          max stake.creditsObserved (epochs.foldl VoteState.incrementCredits
            VoteState.default).credits) ∧
      ∀ (stake : Stake) (epochs₁ epochs₂ : List ℕ), (epochs₁ ++ epochs₂).IsChain (· ≤ ·) →
        (epochs₁ ++ epochs₂).length < 2 ^ 64 →
        let v₁ := epochs₁.foldl VoteState.incrementCredits VoteState.default
        let v₂ := epochs₂.foldl VoteState.incrementCredits v₁
        (∀ e ∈ v₂.epochCredits.head?, e.2.2 ≤ stake.creditsObserved) →
        (calculateStakePointsAndCredits stake v₁ none).1 +
            (calculateStakePointsAndCredits
              { stake with creditsObserved := (calculateStakePointsAndCredits stake v₁ none).2 }
              v₂ none).1 =
          (calculateStakePointsAndCredits stake v₂ none).1) :=
  ⟨rfl, calculateStakePointsAndCredits_telescopes rfl none⟩

/-- The credit counter wraps after `2 ^ 64` calls: a stake paid for the first `2 ^ 64 - 1`
credits observes them all, and one more credit in the same epoch leaves the vote account
with no credits, so the two redemptions pay more than one redemption after both. -/
theorem calculateStakePointsAndCredits_counter_wraps :
    let stake : Stake := ⟨⟨0, 1, u64Max, u64Max, 0⟩, 0⟩
    let v₁ := (List.replicate (2 ^ 64 - 1) 0).foldl VoteState.incrementCredits VoteState.default
    let v₂ := [0].foldl VoteState.incrementCredits v₁
    (∀ e ∈ v₂.epochCredits.head?, e.2.2 ≤ stake.creditsObserved) ∧
      (calculateStakePointsAndCredits stake v₁ none).1 +
          (calculateStakePointsAndCredits
            { stake with creditsObserved := (calculateStakePointsAndCredits stake v₁ none).2 }
            v₂ none).1 ≠
        (calculateStakePointsAndCredits stake v₂ none).1 := by
  intro stake v₁ v₂
  have hv₁ : v₁ = (List.replicate (2 ^ 64 - 1) 0).foldl VoteState.incrementCredits
      VoteState.default := rfl
  have hv₂ : v₂ = v₁.incrementCredits 0 := rfl
  clear_value v₂ v₁
  have h₁ := VoteProgram.incrementCredits_replicate (s := VoteState.default) rfl 0 (2 ^ 64 - 2)
  rw [show 2 ^ 64 - 2 + 1 = 2 ^ 64 - 1 by norm_num,
    Nat.mod_eq_of_lt (show 2 ^ 64 - 1 < 2 ^ 64 by norm_num), ← hv₁] at h₁
  have h₂ : v₂.epochCredits = [(0, 0, 0)] := by
    rw [hv₂, VoteProgram.VoteState.incrementCredits_same_epoch
      (h₁.trans (List.nil_append _).symm)]
    rfl
  refine ⟨fun e he => ?_, ?_⟩
  · rw [h₂, List.head?_cons, Option.mem_some_iff] at he
    rw [← he]
  · rw [calculateStakePointsAndCredits_single _ none h₁ (Nat.zero_le _),
      calculateStakePointsAndCredits_single _ none h₂ le_rfl,
      calculateStakePointsAndCredits_single _ none h₂ le_rfl]
    decide

end Solana.StakeProgram
