import Solana.Runtime.Rent
import Solana.Vote.State
import Solana.Lib.FloorShare
import Mathlib

/-! `Bank::distribute_rent`: the burn and the shares by stake, rounded down with the leftover paid
one lamport each (`distributeRent_exact`); a panic is `none` and `u64` arithmetic wraps. -/

namespace Solana.Runtime

open MachineInt

/-- `Rent::calculate_burn`: `burn_percent` percent of the collected rent, rounded down, is
burned, and the rest is distributed. -/
def calculateBurn (burnPercent rentCollected : ℕ) : ℕ × ℕ :=
  let burnedPortion := wrap 64 (rentCollected * burnPercent) / 100
  (burnedPortion, wrappingSub 64 rentCollected burnedPortion)

inductive RewardType where
  | fee
  | rent
  | staking
  | voting
  deriving DecidableEq, Repr

/-- `RewardInfo`: a reward recorded by the bank, with the balance it left. -/
structure RewardInfo where
  rewardType : RewardType
  lamports : ℤ
  postBalance : ℕ
  commission : Option ℕ
  deriving DecidableEq, Repr

/-- A `VoteAccount` as `vote_state()` reads it: the deserialized vote state, `none` when the
account's data does not deserialize. -/
structure VoteAccount where
  voteState : Option VoteProgram.VoteState
  deriving DecidableEq

/-- What `distribute_rent` reads and writes of a `Bank`: the rent collected in the slot, the
`burn_percent` of its rent collector, the `no_overflow_rent_distribution` feature, the staked
vote accounts (the values of the `HashMap`, in its iteration order), the accounts as
`get_account_with_fixed_root` loads them, the `u64` capitalization and the rewards. -/
structure RentBank where
  collectedRent : ℕ
  collectedRent_lt : collectedRent < 2 ^ 64
  burnPercent : ℕ
  noOverflowRentDistribution : Bool
  voteAccounts : List (ℕ × VoteAccount)
  accounts : Pubkey → Option Account
  capitalization : ℕ
  capitalization_lt : capitalization < 2 ^ 64
  rewards : List (Pubkey × RewardInfo)

namespace RentBank

/-- The lamports of an account, `0` for a missing one. -/
def lamports (bank : RentBank) (pubkey : Pubkey) : ℕ :=
  ((bank.accounts pubkey).getD Account.default).lamports

/-- `capitalization.fetch_sub`, which wraps. -/
def burn (bank : RentBank) (lamports : ℕ) : RentBank :=
  { bank with
    capitalization := wrappingSub 64 bank.capitalization lamports
    capitalization_lt := wrappingSub_lt 64 _ _ }

/-- Paying `rent_to_be_paid` to `pubkey`: its account (the default one when there is none) is
credited and stored, and the reward recorded; when `checked_add_lamports` overflows, the
lamports are burned instead. -/
def payRent (bank : RentBank) (pubkey : Pubkey) (rentToBePaid : ℕ) : RentBank :=
  let account := (bank.accounts pubkey).getD Account.default
  match checkedAdd 64 account.lamports rentToBePaid with
  | none => bank.burn rentToBePaid
  | some lamports =>
    { bank with
      accounts := Function.update bank.accounts pubkey (some { account with lamports := lamports })
      rewards := bank.rewards ++
        [(pubkey, ⟨.rent, toSigned 64 rentToBePaid, lamports, none⟩)] }

end RentBank

/-! ## The model -/

/-- One vote account of the `filter_map` of `distribute_rent_to_validators`: a staked account
adds its stake to `total_staked` before its vote state is read, and is kept, as its node
identity with the stake, only when that state deserializes. -/
def validatorStakesStep (acc : List (Pubkey × ℕ) × ℕ) (entry : ℕ × VoteAccount) :
    List (Pubkey × ℕ) × ℕ :=
  let (validatorStakes, totalStaked) := acc
  let (staked, account) := entry
  if staked = 0 then acc
  else
    let totalStaked := wrappingAdd 64 totalStaked staked
    match account.voteState with
    | none => (validatorStakes, totalStaked)
    | some voteState => (validatorStakes ++ [(voteState.nodePubkey, staked)], totalStaked)

def collectValidatorStakes (voteAccounts : List (ℕ × VoteAccount)) : List (Pubkey × ℕ) × ℕ :=
  voteAccounts.foldl validatorStakesStep ([], 0)

/-- The order of the `sort_by`: stake descending, then node pubkey descending. -/
def sortValidatorStakes (validatorStakes : List (Pubkey × ℕ)) : List (Pubkey × ℕ) :=
  validatorStakes.insertionSort fun a b => b.2 < a.2 ∨ b.2 = a.2 ∧ b.1 ≤ a.1

/-- A node's share of `rent_to_be_distributed` in the initial round. Under
`no_overflow_rent_distribution` it is the `u128` quotient, rounded down, whose
`try_into().unwrap()` panics past `u64`; before it, the `f64` quotient of the wrapped `u64`
product, truncated by `as u64`, where a division by zero gives infinity, or NaN for `0 / 0`. -/
def computeRentShare (enforceFix : Bool) (staked rentToBeDistributed totalStaked : ℕ) :
    Option ℕ :=
  if enforceFix then
    -- the `u128` division by zero panics
    if totalStaked = 0 then none
    else tryFrom 64 (staked * rentToBeDistributed / totalStaked)
  else
    let product := wrap 64 (staked * rentToBeDistributed)
    if totalStaked = 0 then some (if product = 0 then 0 else u64Max)
    else some (asU64 ((product : ℚ) / totalStaked))

def validatorRentShares (enforceFix : Bool) (rentToBeDistributed totalStaked : ℕ)
    (validatorStakes : List (Pubkey × ℕ)) : Option (List (Pubkey × ℕ)) :=
  validatorStakes.mapM fun (pubkey, staked) =>
    (computeRentShare enforceFix staked rentToBeDistributed totalStaked).map (pubkey, ·)

/-- One node of the `for_each`: a lamport of the leftover while any is left, then the
payment, which under `no_overflow_rent_distribution` is skipped for nothing. -/
def distributeStep (enforceFix : Bool) (acc : RentBank × ℕ) (share : Pubkey × ℕ) : RentBank × ℕ :=
  let (bank, leftoverLamports) := acc
  let (pubkey, rentShare) := share
  let (rentToBePaid, leftoverLamports) :=
    if 0 < leftoverLamports then (wrappingAdd 64 rentShare 1, leftoverLamports - 1)
    else (rentShare, leftoverLamports)
  (if !enforceFix || 0 < rentToBePaid then bank.payRent pubkey rentToBePaid else bank,
    leftoverLamports)

/-- The payments and what is done with the lamports still left over: asserted to be none
under `no_overflow_rent_distribution`, burned before it. -/
def payValidators (bank : RentBank) (enforceFix : Bool) (rentToBeDistributed : ℕ)
    (shares : List (Pubkey × ℕ)) : Option RentBank :=
  let rentDistributedInInitialRound := (shares.map Prod.snd).foldl (wrappingAdd 64) 0
  let leftoverLamports := wrappingSub 64 rentToBeDistributed rentDistributedInInitialRound
  let (bank, leftoverLamports) := shares.foldl (distributeStep enforceFix) (bank, leftoverLamports)
  if enforceFix then
    if leftoverLamports = 0 then some bank else none
  else if leftoverLamports ≠ 0 then some (bank.burn leftoverLamports)
  else some bank

def distributeRentToValidators (bank : RentBank) (voteAccounts : List (ℕ × VoteAccount))
    (rentToBeDistributed : ℕ) : Option RentBank :=
  let (validatorStakes, totalStaked) := collectValidatorStakes voteAccounts
  -- `assert!(!validator_stakes.is_empty())` outside tests
  if validatorStakes = [] then none
  else
    let enforceFix := bank.noOverflowRentDistribution
    (validatorRentShares enforceFix rentToBeDistributed totalStaked
      (sortValidatorStakes validatorStakes)).bind (payValidators bank enforceFix rentToBeDistributed)

def distributeRent (bank : RentBank) : Option RentBank :=
  let (burnedPortion, rentToBeDistributed) := calculateBurn bank.burnPercent bank.collectedRent
  let bank := bank.burn burnedPortion
  if rentToBeDistributed = 0 then some bank
  else distributeRentToValidators bank bank.voteAccounts rentToBeDistributed

/-! ## What the distribution should pay -/

/-- The nodes paid: the node identity of every staked vote account whose vote state
deserializes, with the stake, in iteration order. -/
def recipients (voteAccounts : List (ℕ × VoteAccount)) : List (Pubkey × ℕ) :=
  voteAccounts.filterMap fun (staked, account) =>
    if staked = 0 then none
    else account.voteState.map fun voteState => (voteState.nodePubkey, staked)

/-- One more lamport for each of the first `k` shares. -/
def addLeftover : ℕ → List (Pubkey × ℕ) → List (Pubkey × ℕ)
  | _, [] => []
  | k, (pubkey, share) :: shares =>
    (pubkey, if 0 < k then share + 1 else share) :: addLeftover (k - 1) shares

/-- What the nodes are owed, in the order they are paid: `rent` shared by stake over their
total stake, rounded down, and one more lamport for each of the first `rent` minus the
rounded-down shares. -/
def rentShares (stakes : List (Pubkey × ℕ)) (rent : ℕ) : List (Pubkey × ℕ) :=
  let totalStake := (stakes.map Prod.snd).sum
  let floors := stakes.map fun stake => (stake.1, stake.2 * rent / totalStake)
  addLeftover (rent - (floors.map Prod.snd).sum) floors

/-- Paying each share in turn, skipping the shares of nothing. -/
def RentBank.payRentShares (bank : RentBank) (shares : List (Pubkey × ℕ)) : RentBank :=
  shares.foldl (fun bank (pubkey, share) => if 0 < share then bank.payRent pubkey share else bank)
    bank

/-! ## Handing out lamports -/

/-- `bank'` is `bank` after `amount` lamports were handed out to the accounts of `nodes`, of
which `burned` went to the capitalization instead: no account lost lamports, no other account
changed, and the accounts of `nodes` gained the rest. -/
structure HandsOut (bank bank' : RentBank) (nodes : Finset Pubkey) (amount burned : ℕ) : Prop where
  lamports_le : ∀ pubkey, bank.lamports pubkey ≤ bank'.lamports pubkey
  accounts_eq : ∀ pubkey ∉ nodes, bank'.accounts pubkey = bank.accounts pubkey
  capitalization_eq : bank'.capitalization = wrappingSub 64 bank.capitalization burned
  conserves : ∑ pubkey ∈ nodes, bank'.lamports pubkey + burned =
    ∑ pubkey ∈ nodes, bank.lamports pubkey + amount

namespace HandsOut

variable {bank₁ bank₂ bank₃ : RentBank} {nodes : Finset Pubkey}

theorem refl (bank : RentBank) (nodes : Finset Pubkey) : HandsOut bank bank nodes 0 0 where
  lamports_le _ := le_rfl
  accounts_eq _ _ := rfl
  capitalization_eq := (wrappingSub_zero bank.capitalization_lt).symm
  conserves := rfl

theorem trans {a b c d : ℕ} (h₁ : HandsOut bank₁ bank₂ nodes a b)
    (h₂ : HandsOut bank₂ bank₃ nodes c d) : HandsOut bank₁ bank₃ nodes (a + c) (b + d) where
  lamports_le pubkey := (h₁.lamports_le pubkey).trans (h₂.lamports_le pubkey)
  accounts_eq pubkey h := (h₂.accounts_eq pubkey h).trans (h₁.accounts_eq pubkey h)
  capitalization_eq := by
    rw [h₂.capitalization_eq, h₁.capitalization_eq, wrappingSub_wrappingSub]
  conserves := by
    have h₁' := h₁.conserves
    have h₂' := h₂.conserves
    omega

end HandsOut

namespace RentBank

theorem payRentShares_cons (bank : RentBank) (share : Pubkey × ℕ) (shares : List (Pubkey × ℕ)) :
    bank.payRentShares (share :: shares) =
      (if 0 < share.2 then bank.payRent share.1 share.2 else bank).payRentShares shares := rfl

-- Proved by unfolding: a proof by `rfl` makes the kernel compare `bank.burn lamports` with
-- `bank`, running the wrapping subtraction on an open capitalization.
@[simp] theorem burn_accounts (bank : RentBank) (lamports : ℕ) :
    (bank.burn lamports).accounts = bank.accounts := by
  unfold burn
  rfl

@[simp] theorem burn_capitalization (bank : RentBank) (lamports : ℕ) :
    (bank.burn lamports).capitalization = wrappingSub 64 bank.capitalization lamports := by
  unfold burn
  rfl

@[simp] theorem burn_voteAccounts (bank : RentBank) (lamports : ℕ) :
    (bank.burn lamports).voteAccounts = bank.voteAccounts := by
  unfold burn
  rfl

@[simp] theorem burn_noOverflowRentDistribution (bank : RentBank) (lamports : ℕ) :
    (bank.burn lamports).noOverflowRentDistribution = bank.noOverflowRentDistribution := by
  unfold burn
  rfl

@[simp] theorem lamports_burn (bank : RentBank) (lamports : ℕ) :
    (bank.burn lamports).lamports = bank.lamports := by
  funext pubkey
  unfold RentBank.lamports
  rw [burn_accounts]

theorem handsOut_burn (bank : RentBank) (nodes : Finset Pubkey) (lamports : ℕ) :
    HandsOut bank (bank.burn lamports) nodes lamports lamports where
  lamports_le _ := by rw [lamports_burn]
  accounts_eq _ _ := by rw [burn_accounts]
  capitalization_eq := burn_capitalization bank lamports
  conserves := by rw [lamports_burn]

/-- A payment burns the lamports, or credits them to the node's account and leaves every
other account as it was. -/
theorem payRent_cases (bank : RentBank) (pubkey : Pubkey) (rentToBePaid : ℕ) :
    bank.payRent pubkey rentToBePaid = bank.burn rentToBePaid ∨
      ((bank.payRent pubkey rentToBePaid).capitalization = bank.capitalization ∧
        (∀ p, (bank.payRent pubkey rentToBePaid).lamports p =
          bank.lamports p + if p = pubkey then rentToBePaid else 0) ∧
        ∀ p ≠ pubkey, (bank.payRent pubkey rentToBePaid).accounts p = bank.accounts p) := by
  unfold payRent
  dsimp only
  split
  · exact .inl rfl
  · rename_i lamports hadd
    rw [checkedAdd_eq_some] at hadd
    refine .inr ⟨rfl, fun p => ?_, fun p hp => Function.update_of_ne hp _ _⟩
    by_cases hp : p = pubkey
    · subst hp
      simp [RentBank.lamports, ← hadd.2]
    · simp [RentBank.lamports, hp]

theorem handsOut_payRent (bank : RentBank) {nodes : Finset Pubkey} {pubkey : Pubkey}
    (hnode : pubkey ∈ nodes) (rentToBePaid : ℕ) :
    ∃ burned, HandsOut bank (bank.payRent pubkey rentToBePaid) nodes rentToBePaid burned := by
  rcases bank.payRent_cases pubkey rentToBePaid with hburn | ⟨hcap, hlamports, haccounts⟩
  · exact ⟨rentToBePaid, hburn ▸ bank.handsOut_burn nodes rentToBePaid⟩
  · refine ⟨0, fun p => ?_, fun p hp => haccounts p (ne_of_mem_of_not_mem hnode hp).symm, ?_, ?_⟩
    · rw [hlamports p]
      exact Nat.le_add_right _ _
    · rw [hcap, wrappingSub_zero bank.capitalization_lt]
    · simp only [hlamports, Finset.sum_add_distrib, Finset.sum_ite_eq', if_pos hnode]
      omega

/-- Paying shares to nodes hands out their sum. -/
theorem handsOut_payRentShares (bank : RentBank) (shares : List (Pubkey × ℕ)) {nodes : Finset Pubkey}
    (hnodes : ∀ share ∈ shares, share.1 ∈ nodes) :
    ∃ burned, HandsOut bank (bank.payRentShares shares) nodes (shares.map Prod.snd).sum burned := by
  induction shares generalizing bank with
  | nil => exact ⟨0, HandsOut.refl bank nodes⟩
  | cons share shares ih =>
    have hhead : ∃ burned, HandsOut bank (if 0 < share.2 then bank.payRent share.1 share.2 else bank)
        nodes share.2 burned := by
      by_cases hpos : 0 < share.2
      · rw [if_pos hpos]
        exact bank.handsOut_payRent (hnodes share List.mem_cons_self) share.2
      · rw [if_neg hpos, show share.2 = 0 by omega]
        exact ⟨0, HandsOut.refl bank nodes⟩
    obtain ⟨burned, hhead⟩ := hhead
    obtain ⟨burned', hrest⟩ := ih (if 0 < share.2 then bank.payRent share.1 share.2 else bank)
      fun s hs => hnodes s (List.mem_cons_of_mem _ hs)
    rw [payRentShares_cons, List.map_cons, List.sum_cons]
    exact ⟨burned + burned', hhead.trans hrest⟩

end RentBank

/-! ## Collecting the stakes -/

theorem recipients_cons (entry : ℕ × VoteAccount) (voteAccounts : List (ℕ × VoteAccount)) :
    recipients (entry :: voteAccounts) = recipients [entry] ++ recipients voteAccounts := by
  simp only [recipients, List.filterMap_cons, List.filterMap_nil]
  split <;> simp

/-- The stakes kept are the recipients', but the total counts every staked vote account. -/
theorem foldl_validatorStakesStep (voteAccounts : List (ℕ × VoteAccount))
    (validatorStakes : List (Pubkey × ℕ)) {totalStaked : ℕ} (htotal : totalStaked < 2 ^ 64) :
    voteAccounts.foldl validatorStakesStep (validatorStakes, totalStaked) =
      (validatorStakes ++ recipients voteAccounts,
        wrap 64 (totalStaked + (voteAccounts.map Prod.fst).sum)) := by
  induction voteAccounts generalizing validatorStakes totalStaked with
  | nil => simp [recipients, wrap_of_lt htotal]
  | cons entry voteAccounts ih =>
    obtain ⟨staked, account⟩ := entry
    have hstep : validatorStakesStep (validatorStakes, totalStaked) (staked, account) =
        (validatorStakes ++ recipients [(staked, account)],
          wrap 64 (totalStaked + staked)) := by
      by_cases hzero : staked = 0
      · simp [validatorStakesStep, recipients, hzero, wrap_of_lt htotal]
      · cases h : account.voteState <;> simp [validatorStakesStep, recipients, hzero, h, wrappingAdd]
    rw [List.foldl_cons, hstep, ih _ (wrap_lt 64 _), recipients_cons (staked, account) voteAccounts,
      List.append_assoc, List.map_cons, List.sum_cons]
    simp only [wrap, Nat.mod_add_mod, Nat.add_assoc]

theorem collectValidatorStakes_eq (voteAccounts : List (ℕ × VoteAccount)) :
    collectValidatorStakes voteAccounts =
      (recipients voteAccounts, wrap 64 (voteAccounts.map Prod.fst).sum) := by
  rw [collectValidatorStakes, foldl_validatorStakesStep voteAccounts [] (Nat.two_pow_pos 64),
    List.nil_append, Nat.zero_add]

section Deserializable

variable {voteAccounts : List (ℕ × VoteAccount)}

/-- When every staked vote state deserializes, the recipients hold all the stake. -/
theorem sum_recipients (hdeser : ∀ entry ∈ voteAccounts, 0 < entry.1 → entry.2.voteState.isSome) :
    ((recipients voteAccounts).map Prod.snd).sum = (voteAccounts.map Prod.fst).sum := by
  induction voteAccounts with
  | nil => simp [recipients]
  | cons entry voteAccounts ih =>
    obtain ⟨staked, account⟩ := entry
    have hrest := ih fun e he => hdeser e (List.mem_cons_of_mem _ he)
    rw [recipients_cons, List.map_append, List.sum_append, hrest, List.map_cons, List.sum_cons]
    by_cases hzero : staked = 0
    · simp [recipients, hzero]
    · obtain ⟨voteState, h⟩ : ∃ voteState, account.voteState = some voteState :=
        Option.isSome_iff_exists.mp (hdeser _ List.mem_cons_self (Nat.pos_of_ne_zero hzero))
      simp [recipients, hzero, h]

theorem recipients_ne_nil (hdeser : ∀ entry ∈ voteAccounts, 0 < entry.1 → entry.2.voteState.isSome)
    (hstaked : ∃ entry ∈ voteAccounts, 0 < entry.1) : recipients voteAccounts ≠ [] := by
  obtain ⟨⟨staked, account⟩, hmem, hpos⟩ := hstaked
  obtain ⟨voteState, h⟩ : ∃ voteState, account.voteState = some voteState :=
    Option.isSome_iff_exists.mp (hdeser _ hmem hpos)
  have hin : (voteState.nodePubkey, staked) ∈ recipients voteAccounts := by
    simp only [recipients, List.mem_filterMap]
    exact ⟨(staked, account), hmem, by simp [Nat.pos_iff_ne_zero.mp hpos, h]⟩
  exact List.ne_nil_of_mem hin

end Deserializable

/-! ## The shares -/

theorem computeRentShare_of_le {staked rent totalStaked : ℕ} (htotal : 0 < totalStaked)
    (hle : staked ≤ totalStaked) (hrent : rent < 2 ^ 64) :
    computeRentShare true staked rent totalStaked = some (staked * rent / totalStaked) := by
  have hshare : staked * rent / totalStaked ≤ rent :=
    Nat.div_le_of_le_mul (Nat.mul_le_mul_right rent hle)
  simp [computeRentShare, Nat.pos_iff_ne_zero.mp htotal]
  omega

/-- With a positive total at least every stake, no share panics. -/
theorem validatorRentShares_eq {rent totalStaked : ℕ} (stakes : List (Pubkey × ℕ))
    (htotal : 0 < totalStaked) (hle : ∀ stake ∈ stakes, stake.2 ≤ totalStaked)
    (hrent : rent < 2 ^ 64) :
    validatorRentShares true rent totalStaked stakes =
      some (stakes.map fun stake => (stake.1, stake.2 * rent / totalStaked)) := by
  induction stakes with
  | nil => rfl
  | cons stake stakes ih =>
    have hrest := ih fun s hs => hle s (List.mem_cons_of_mem _ hs)
    have hshare := computeRentShare_of_le htotal (hle stake List.mem_cons_self) hrent
    simp only [validatorRentShares] at hrest ⊢
    simp [List.mapM_cons, hshare, hrest]

/-! ## The leftover lamports -/

theorem addLeftover_zero (shares : List (Pubkey × ℕ)) : addLeftover 0 shares = shares := by
  induction shares with
  | nil => rfl
  | cons share shares ih => simp [addLeftover, ih]

theorem map_fst_addLeftover (k : ℕ) (shares : List (Pubkey × ℕ)) :
    (addLeftover k shares).map Prod.fst = shares.map Prod.fst := by
  induction shares generalizing k with
  | nil => rfl
  | cons share shares ih => simp [addLeftover, ih]

/-- The leftover adds one lamport to as many shares as there are. -/
theorem sum_addLeftover (k : ℕ) (shares : List (Pubkey × ℕ)) :
    ((addLeftover k shares).map Prod.snd).sum = (shares.map Prod.snd).sum + min k shares.length := by
  induction shares generalizing k with
  | nil => simp [addLeftover]
  | cons share shares ih =>
    simp only [addLeftover, List.map_cons, List.sum_cons, ih, List.length_cons]
    split <;> omega

/-- One node of the loop: the leftover lamport, then the payment of what is owed. -/
theorem distributeStep_true (bank : RentBank) {k : ℕ} (pubkey : Pubkey) {share : ℕ}
    (hsmall : 0 < k → share + 1 < 2 ^ 64) :
    distributeStep true (bank, k) (pubkey, share) =
      (let paid := if 0 < k then share + 1 else share
       if 0 < paid then bank.payRent pubkey paid else bank, k - 1) := by
  by_cases hk : 0 < k
  · simp [distributeStep, hk, wrappingAdd_of_lt (hsmall hk)]
  · simp [distributeStep, hk]
    omega

/-- The loop pays the shares with the leftover added, and spends the leftover as far as
there are shares. -/
theorem foldl_distributeStep (bank : RentBank) (k : ℕ) (shares : List (Pubkey × ℕ))
    (hsmall : 0 < k → ∀ share ∈ shares, share.2 + 1 < 2 ^ 64) :
    shares.foldl (distributeStep true) (bank, k) =
      (bank.payRentShares (addLeftover k shares), k - min k shares.length) := by
  induction shares generalizing bank k with
  | nil => simp [addLeftover, RentBank.payRentShares]
  | cons share shares ih =>
    obtain ⟨pubkey, share⟩ := share
    have hhead := distributeStep_true bank pubkey fun hk => hsmall hk _ List.mem_cons_self
    have hrest : 0 < k - 1 → ∀ s ∈ shares, s.2 + 1 < 2 ^ 64 :=
      fun hk s hs => hsmall (by omega) s (List.mem_cons_of_mem _ hs)
    rw [List.foldl_cons, hhead, ih _ _ hrest, addLeftover, RentBank.payRentShares_cons, List.length_cons]
    simp only [Prod.mk.injEq, true_and]
    omega

/-- Under `no_overflow_rent_distribution`, with shares that leave no more lamports over than
there are shares, the payments are the shares with the leftover added. -/
theorem payValidators_eq (bank : RentBank) {rent : ℕ} (shares : List (Pubkey × ℕ))
    (hrent : rent < 2 ^ 64) (hsum : (shares.map Prod.snd).sum ≤ rent)
    (hleft : rent - (shares.map Prod.snd).sum ≤ shares.length) :
    payValidators bank true rent shares =
      some (bank.payRentShares (addLeftover (rent - (shares.map Prod.snd).sum) shares)) := by
  have hinitial : (shares.map Prod.snd).foldl (wrappingAdd 64) 0 = (shares.map Prod.snd).sum := by
    rw [foldl_wrappingAdd 64 _ (Nat.two_pow_pos 64), Nat.zero_add, wrap_of_lt (by omega)]
  have hsmall : 0 < rent - (shares.map Prod.snd).sum → ∀ share ∈ shares, share.2 + 1 < 2 ^ 64 := by
    intro hleft share hshare
    have hle := List.le_sum_of_mem (List.mem_map_of_mem (f := Prod.snd) hshare)
    omega
  simp only [payValidators, hinitial, wrappingSub_of_le hsum hrent,
    foldl_distributeStep bank _ shares hsmall]
  simp [Nat.min_eq_left hleft]

/-! ## The distribution -/

section Floors

variable {stakes : List (Pubkey × ℕ)} {rent : ℕ}

/-- Rounded down over the nodes' total stake, the shares stay within the rent and leave
fewer lamports over than there are nodes. -/
theorem sum_floors_bounds (rent : ℕ) (hpos : 0 < (stakes.map Prod.snd).sum) :
    let floors := stakes.map fun stake => (stake.1, stake.2 * rent / (stakes.map Prod.snd).sum)
    (floors.map Prod.snd).sum ≤ rent ∧ rent - (floors.map Prod.snd).sum < stakes.length := by
  intro floors
  have hfloors : floors.map Prod.snd =
      stakes.map fun stake => stake.2 * rent / (stakes.map Prod.snd).sum := by
    simp only [floors, List.map_map]
    rfl
  have hle := FloorShare.sum_mul_div_le stakes Prod.snd rent _ le_rfl
  have hlt := FloorShare.lt_sum_mul_div_add_length stakes Prod.snd rent _ rfl hpos
  rw [hfloors]
  exact ⟨hle, by omega⟩

theorem sum_rentShares (hpos : 0 < (stakes.map Prod.snd).sum) :
    ((rentShares stakes rent).map Prod.snd).sum = rent := by
  obtain ⟨hle, hlt⟩ := sum_floors_bounds rent hpos
  rw [rentShares, sum_addLeftover, List.length_map, Nat.min_eq_left hlt.le]
  omega

theorem map_fst_rentShares : (rentShares stakes rent).map Prod.fst = stakes.map Prod.fst := by
  rw [rentShares, map_fst_addLeftover, List.map_map]
  rfl

theorem rentShares_zero : ∀ share ∈ rentShares stakes 0, share.2 = 0 := by
  intro share hshare
  simp only [rentShares, Nat.mul_zero, Nat.zero_div, Nat.zero_sub, addLeftover_zero,
    List.mem_map] at hshare
  obtain ⟨stake, -, rfl⟩ := hshare
  rfl

end Floors

theorem RentBank.payRentShares_of_forall_zero (bank : RentBank) {shares : List (Pubkey × ℕ)}
    (hzero : ∀ share ∈ shares, share.2 = 0) : bank.payRentShares shares = bank := by
  induction shares with
  | nil => rfl
  | cons share shares ih =>
    rw [payRentShares_cons, if_neg (by rw [hzero share List.mem_cons_self]; omega)]
    exact ih fun s hs => hzero s (List.mem_cons_of_mem _ hs)

section Deserializable

variable {voteAccounts : List (ℕ × VoteAccount)}

theorem sum_sortValidatorStakes
    (hdeser : ∀ entry ∈ voteAccounts, 0 < entry.1 → entry.2.voteState.isSome) :
    ((sortValidatorStakes (recipients voteAccounts)).map Prod.snd).sum =
      (voteAccounts.map Prod.fst).sum := by
  rw [sortValidatorStakes, ((List.perm_insertionSort _ _).map Prod.snd).sum_eq,
    sum_recipients hdeser]

theorem sum_stakes_pos (hstaked : ∃ entry ∈ voteAccounts, 0 < entry.1) :
    0 < (voteAccounts.map Prod.fst).sum := by
  obtain ⟨entry, hmem, hstake⟩ := hstaked
  have hle := List.le_sum_of_mem (List.mem_map_of_mem (f := Prod.fst) hmem)
  omega

/-- When every staked vote state deserializes, the total counted is the recipients' stake,
and the loop pays them their shares with the leftover spent on the first of them. -/
theorem distributeRentToValidators_eq (bank : RentBank) {rent : ℕ}
    (hfix : bank.noOverflowRentDistribution = true)
    (hdeser : ∀ entry ∈ voteAccounts, 0 < entry.1 → entry.2.voteState.isSome)
    (hstaked : ∃ entry ∈ voteAccounts, 0 < entry.1)
    (htotal : (voteAccounts.map Prod.fst).sum ≤ u64Max) (hrent : rent < 2 ^ 64) :
    distributeRentToValidators bank voteAccounts rent =
      some (bank.payRentShares (rentShares (sortValidatorStakes (recipients voteAccounts)) rent)) := by
  have htotalStake := sum_sortValidatorStakes hdeser
  have hpos : 0 < ((sortValidatorStakes (recipients voteAccounts)).map Prod.snd).sum :=
    htotalStake ▸ sum_stakes_pos hstaked
  have hle : ∀ stake ∈ sortValidatorStakes (recipients voteAccounts),
      stake.2 ≤ (voteAccounts.map Prod.fst).sum := fun stake hmem =>
    htotalStake ▸ List.le_sum_of_mem (List.mem_map_of_mem hmem)
  obtain ⟨hsum, hleft⟩ := sum_floors_bounds rent hpos
  unfold distributeRentToValidators
  rw [collectValidatorStakes_eq, wrap_of_lt (by unfold u64Max at htotal; omega)]
  simp only [if_neg (recipients_ne_nil hdeser hstaked), hfix]
  rw [validatorRentShares_eq _ (htotalStake ▸ hpos) hle hrent, Option.bind_some, ← htotalStake,
    payValidators_eq bank _ hrent hsum (by rw [List.length_map]; omega), rentShares]

end Deserializable

theorem calculateBurn_eq {burnPercent rent : ℕ} (hpercent : burnPercent ≤ 100)
    (hburn : rent * burnPercent ≤ u64Max) (hrent : rent < 2 ^ 64) :
    calculateBurn burnPercent rent = (rent * burnPercent / 100, rent - rent * burnPercent / 100) := by
  have hle : rent * burnPercent / 100 ≤ rent :=
    Nat.div_le_of_le_mul (Nat.mul_comm 100 rent ▸ Nat.mul_le_mul_left rent hpercent)
  rw [calculateBurn, wrap_of_lt (by unfold u64Max at hburn; omega), wrappingSub_of_le hle hrent]

theorem distributeRent_exact (bank : RentBank) (hfix : bank.noOverflowRentDistribution = true)
    (hdeser : ∀ entry ∈ bank.voteAccounts, 0 < entry.1 → entry.2.voteState.isSome)
    (hstaked : ∃ entry ∈ bank.voteAccounts, 0 < entry.1)
    (htotal : (bank.voteAccounts.map Prod.fst).sum ≤ u64Max)
    (hpercent : bank.burnPercent ≤ 100) (hburn : bank.collectedRent * bank.burnPercent ≤ u64Max) :
    let burnedPortion := bank.collectedRent * bank.burnPercent / 100
    let stakes := sortValidatorStakes (recipients bank.voteAccounts)
    let nodes := (stakes.map Prod.fst).toFinset
    ∃ bank' overflowBurned, distributeRent bank = some bank' ∧
      bank' = (bank.burn burnedPortion).payRentShares
        (rentShares stakes (bank.collectedRent - burnedPortion)) ∧
      bank'.capitalization = wrappingSub 64 bank.capitalization (burnedPortion + overflowBurned) ∧
      ∑ pubkey ∈ nodes, bank'.lamports pubkey + (burnedPortion + overflowBurned) =
        ∑ pubkey ∈ nodes, bank.lamports pubkey + bank.collectedRent ∧
      (∀ pubkey, bank.lamports pubkey ≤ bank'.lamports pubkey) ∧
      ∀ pubkey ∉ nodes, bank'.accounts pubkey = bank.accounts pubkey := by
  intro burnedPortion stakes nodes
  have hcalc := calculateBurn_eq hpercent hburn bank.collectedRent_lt
  have hle : burnedPortion ≤ bank.collectedRent :=
    Nat.div_le_of_le_mul (Nat.mul_comm 100 _ ▸ Nat.mul_le_mul_left _ hpercent)
  have hpos : 0 < (stakes.map Prod.snd).sum :=
    sum_sortValidatorStakes hdeser ▸ sum_stakes_pos hstaked
  have hrun : distributeRent bank = some ((bank.burn burnedPortion).payRentShares
      (rentShares stakes (bank.collectedRent - burnedPortion))) := by
    unfold distributeRent
    rw [hcalc]
    dsimp only
    by_cases hzero : bank.collectedRent - burnedPortion = 0
    · rw [if_pos hzero, hzero, RentBank.payRentShares_of_forall_zero _ rentShares_zero]
    · rw [if_neg hzero, RentBank.burn_voteAccounts]
      exact distributeRentToValidators_eq _ (by rw [RentBank.burn_noOverflowRentDistribution, hfix])
        hdeser hstaked htotal (by have := bank.collectedRent_lt; omega)
  have hnodes : ∀ share ∈ rentShares stakes (bank.collectedRent - burnedPortion), share.1 ∈ nodes := by
    intro share hshare
    rw [List.mem_toFinset, ← map_fst_rentShares]
    exact List.mem_map_of_mem hshare
  obtain ⟨overflowBurned, hpaid⟩ :=
    (bank.burn burnedPortion).handsOut_payRentShares _ hnodes
  have hall := (bank.handsOut_burn nodes burnedPortion).trans hpaid
  rw [sum_rentShares hpos, Nat.add_sub_cancel' hle] at hall
  exact ⟨_, overflowBurned, hrun, rfl, hall.capitalization_eq, hall.conserves, hall.lamports_le,
    hall.accounts_eq⟩

theorem distributeRent_exact_threeAccounts :
    let bank : RentBank := ⟨10, by decide, 50, true,
      [(3, ⟨some { VoteProgram.VoteState.default with nodePubkey := 7 }⟩), (0, ⟨none⟩),
        (2, ⟨some { VoteProgram.VoteState.default with nodePubkey := 9 }⟩)],
      fun _ => none, 100, by decide, []⟩
    (∀ entry ∈ bank.voteAccounts, 0 < entry.1 → entry.2.voteState.isSome) ∧
      (∃ entry ∈ bank.voteAccounts, 0 < entry.1) ∧ (bank.voteAccounts.map Prod.fst).sum ≤ u64Max ∧
      bank.burnPercent ≤ 100 ∧ bank.collectedRent * bank.burnPercent ≤ u64Max ∧
      ∃ bank', distributeRent bank = some bank' := by
  intro bank
  have hdeser : ∀ entry ∈ bank.voteAccounts, 0 < entry.1 → entry.2.voteState.isSome := by decide
  have hstaked : ∃ entry ∈ bank.voteAccounts, 0 < entry.1 := by decide
  have htotal : (bank.voteAccounts.map Prod.fst).sum ≤ u64Max := by decide
  have hburn : bank.collectedRent * bank.burnPercent ≤ u64Max := by decide
  obtain ⟨bank', -, hrun, -⟩ :=
    distributeRent_exact bank rfl hdeser hstaked htotal (by decide) hburn
  exact ⟨hdeser, hstaked, htotal, by decide, hburn, bank', hrun⟩

/-- A staked vote account whose vote state does not deserialize still counts towards the
total: with stakes `1` and `100`, the one node is owed nothing of `10` lamports, takes one
of the leftover, and the assertion finds nine left. -/
theorem distributeRent_undeserializable_stake_panics :
    let bank : RentBank := ⟨10, by decide, 0, true,
      [(1, ⟨some { VoteProgram.VoteState.default with nodePubkey := 5 }⟩), (100, ⟨none⟩)],
      fun _ => none, 100, by decide, []⟩
    (∃ entry ∈ bank.voteAccounts, 0 < entry.1 ∧ entry.2.voteState.isSome) ∧
      (bank.voteAccounts.map Prod.fst).sum ≤ u64Max ∧ bank.burnPercent ≤ 100 ∧
      bank.collectedRent * bank.burnPercent ≤ u64Max ∧ distributeRent bank = none := by
  intro bank
  refine ⟨by decide, by decide, by decide, by decide, ?_⟩
  decide +kernel

end Solana.Runtime
