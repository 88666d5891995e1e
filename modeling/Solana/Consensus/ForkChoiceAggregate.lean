import Solana.Consensus.ForkChoiceTree

/-! What `aggregate_slot` computes at a block from its children: the subtree stake, and
the best slot of the heaviest candidate child. -/

namespace Solana.Consensus

open MachineInt

namespace SlotHashKey

theorem lt_iff {a b : ℕ × ℕ} : SlotHashKey.lt a b = true ↔ a.1 < b.1 ∨ a.1 = b.1 ∧ a.2 < b.2 := by
  simp [SlotHashKey.lt]

theorem lt_irrefl (a : SlotHashKey) : a.lt a = false := by
  simp [SlotHashKey.lt]

theorem lt_trans {a b c : SlotHashKey} (hab : a.lt b = true) (hbc : b.lt c = true) :
    a.lt c = true := by
  simp only [lt_iff] at hab hbc ⊢
  omega

theorem lt_asymm {a b : SlotHashKey} (hab : a.lt b = true) : b.lt a = false := by
  rw [Bool.eq_false_iff]
  intro hba
  simp only [lt_iff] at hab hba
  omega

theorem lt_or_gt_of_ne {a b : SlotHashKey} (hne : a ≠ b) : a.lt b = true ∨ b.lt a = true := by
  simp only [lt_iff]
  have : a.1 ≠ b.1 ∨ @Ne ℕ a.2 b.2 := by
    by_contra h
    push Not at h
    exact hne (Prod.ext h.1 h.2)
  omega

end SlotHashKey

namespace HeaviestSubtreeForkChoice

variable (fc : HeaviestSubtreeForkChoice)

/-- `stake_voted_subtree` of a block; 0 outside the tree. -/
def weight (key : SlotHashKey) : ℕ := ((fc.get key).map (·.stakeVotedSubtree)).getD 0

/-- Whether a block of the tree is a candidate: it has no invalid ancestor. -/
def isCandidate (key : SlotHashKey) : Bool := (fc.get key).any (·.isCandidate)

/-- The subtree stakes of a block's children, summed. -/
def childrenStake (key : SlotHashKey) : ℕ := ((fc.children key).map fc.weight).sum

/-- `aggregate_slot` prefers `c` to `c'`: it is heavier, or as heavy and smaller. -/
def Beats (c c' : SlotHashKey) : Prop :=
  fc.weight c' < fc.weight c ∨ fc.weight c' = fc.weight c ∧ c.lt c' = true

/-- `c` is the candidate among `blocks` that beats every other candidate. -/
def IsBestIn (blocks : List SlotHashKey) (c : SlotHashKey) : Prop :=
  c ∈ blocks ∧ fc.isCandidate c = true ∧
    ∀ c' ∈ blocks, fc.isCandidate c' = true → c' ≠ c → fc.Beats c c'

/-- The best slot of a candidate block: the block itself when no child is a candidate,
otherwise the best slot of the heaviest candidate child, the smaller key on a tie. -/
def BestSlotOK (key bestSlot : SlotHashKey) : Prop :=
  ((∀ c ∈ fc.children key, fc.isCandidate c = false) → bestSlot = key) ∧
    ∀ c, fc.IsBestIn (fc.children key) c → fc.bestSlot c = some bestSlot

/-- What `aggregate_slot` establishes at a block with entry `info`: the subtree stake of
`u64` arithmetic, the best slot of a candidate, and a best slot inside the subtree. -/
structure Aggregated (key : SlotHashKey) (info : ForkInfo) : Prop where
  subtree : info.stakeVotedSubtree = (info.stakeVotedAt + fc.childrenStake key) % 2 ^ 64
  best : info.isCandidate = true → fc.BestSlotOK key info.bestSlot
  descends : fc.Descends key info.bestSlot

variable {fc}

theorem weight_of_get {key : SlotHashKey} {info : ForkInfo} (h : fc.get key = some info) :
    fc.weight key = info.stakeVotedSubtree := by
  simp [weight, h]

theorem isCandidate_of_get {key : SlotHashKey} {info : ForkInfo} (h : fc.get key = some info) :
    fc.isCandidate key = info.isCandidate := by
  simp [isCandidate, h]

theorem bestSlot_of_get {key : SlotHashKey} {info : ForkInfo} (h : fc.get key = some info) :
    fc.bestSlot key = some info.bestSlot := by
  simp [bestSlot, h]

section Beats

variable {c c' c'' : SlotHashKey}

theorem Beats.not_beats (h : fc.Beats c c') : ¬fc.Beats c' c := by
  unfold Beats at *
  rintro (h' | ⟨h', hlt'⟩)
  · omega
  · rcases h with h | ⟨-, hlt⟩
    · omega
    · rw [SlotHashKey.lt_asymm hlt] at hlt'
      cases hlt'

theorem Beats.trans (h : fc.Beats c c') (h' : fc.Beats c' c'') : fc.Beats c c'' := by
  unfold Beats at *
  rcases h with h | ⟨h, hlt⟩
  · omega
  · rcases h' with h' | ⟨h', hlt'⟩
    · omega
    · exact .inr ⟨by omega, SlotHashKey.lt_trans hlt hlt'⟩

theorem beats_or_beats (hne : c ≠ c') : fc.Beats c c' ∨ fc.Beats c' c := by
  unfold Beats
  rcases lt_trichotomy (fc.weight c) (fc.weight c') with h | h | h
  · omega
  · rcases SlotHashKey.lt_or_gt_of_ne hne with hlt | hlt
    · exact .inl (.inr ⟨h.symm, hlt⟩)
    · exact .inr (.inr ⟨h, hlt⟩)
  · omega

end Beats

theorem IsBestIn.unique {blocks : List SlotHashKey} {c c' : SlotHashKey}
    (h : fc.IsBestIn blocks c) (h' : fc.IsBestIn blocks c') : c = c' := by
  by_contra hne
  exact (h.2.2 c' h'.1 h'.2.1 (Ne.symm hne)).not_beats (h'.2.2 c h.1 h.2.1 hne)

/-- A list with a candidate has a best candidate. -/
theorem exists_isBestIn : ∀ {blocks : List SlotHashKey},
    (∃ c ∈ blocks, fc.isCandidate c = true) → ∃ c, fc.IsBestIn blocks c
  | [], ⟨_, hc, _⟩ => absurd hc List.not_mem_nil
  | b :: blocks, hcand => by
    by_cases hrest : ∃ c ∈ blocks, fc.isCandidate c = true
    · obtain ⟨c, hc, hcand', hbest⟩ := exists_isBestIn hrest
      by_cases hb : fc.isCandidate b = true ∧ b ≠ c ∧ fc.Beats b c
      · refine ⟨b, List.mem_cons_self, hb.1, fun c' hc' hcand'' hne => ?_⟩
        rcases List.mem_cons.mp hc' with rfl | hc'
        · exact absurd rfl hne
        · by_cases hcc : c' = c
          · exact hcc ▸ hb.2.2
          · exact hb.2.2.trans (hbest c' hc' hcand'' hcc)
      · refine ⟨c, List.mem_cons_of_mem b hc, hcand', fun c' hc' hcand'' hne => ?_⟩
        rcases List.mem_cons.mp hc' with rfl | hc'
        · exact (beats_or_beats hne).resolve_left fun hbeats => hb ⟨hcand'', hne, hbeats⟩
        · exact hbest c' hc' hcand'' hne
    · push Not at hrest
      obtain ⟨c, hc, hcand⟩ := hcand
      have hb : c = b := by
        rcases List.mem_cons.mp hc with rfl | hc
        · rfl
        · exact absurd hcand (by simp [hrest c hc])
      subst hb
      refine ⟨c, List.mem_cons_self, hcand, fun c' hc' hcand'' hne => ?_⟩
      rcases List.mem_cons.mp hc' with rfl | hc'
      · exact absurd rfl hne
      · exact absurd hcand'' (by simp [hrest c' hc'])

/-- Which candidate is best among some blocks depends only on their weights and on which
of them are candidates. -/
theorem isBestIn_congr_of {fc' : HeaviestSubtreeForkChoice} {blocks : List SlotHashKey}
    {c : SlotHashKey} (hcand : ∀ b ∈ blocks, fc'.isCandidate b = fc.isCandidate b)
    (hweight : ∀ b ∈ blocks, fc'.weight b = fc.weight b) :
    fc'.IsBestIn blocks c ↔ fc.IsBestIn blocks c := by
  unfold IsBestIn Beats
  constructor
  · rintro ⟨hc, hcc, hbest⟩
    refine ⟨hc, hcand c hc ▸ hcc, fun c' hc' hcc' hne => ?_⟩
    have := hbest c' hc' ((hcand c' hc').symm ▸ hcc') hne
    rwa [hweight c hc, hweight c' hc'] at this
  · rintro ⟨hc, hcc, hbest⟩
    refine ⟨hc, (hcand c hc).symm ▸ hcc, fun c' hc' hcc' hne => ?_⟩
    rw [hweight c hc, hweight c' hc']
    exact hbest c' hc' (hcand c' hc' ▸ hcc') hne

theorem isBestIn_congr {fc' : HeaviestSubtreeForkChoice} {blocks : List SlotHashKey}
    {c : SlotHashKey} (hget : ∀ b ∈ blocks, fc'.get b = fc.get b) :
    fc'.IsBestIn blocks c ↔ fc.IsBestIn blocks c :=
  isBestIn_congr_of (fun b hb => by simp [isCandidate, hget b hb])
    (fun b hb => by simp [weight, hget b hb])

/-- `Aggregated` reads the block's children and their weights and candidacy, the best slot
of the best child, and the walk down to the best slot. -/
theorem Aggregated.congr_of_best {fc' : HeaviestSubtreeForkChoice} {key : SlotHashKey}
    {info : ForkInfo} (h : fc.Aggregated key info) (hchildren : fc'.children key = fc.children key)
    (hweight : ∀ c ∈ fc.children key, fc'.weight c = fc.weight c)
    (hcand : ∀ c ∈ fc.children key, fc'.isCandidate c = fc.isCandidate c)
    (hbestSlot : info.isCandidate = true → ∀ c, fc.IsBestIn (fc.children key) c →
      fc'.bestSlot c = fc.bestSlot c)
    (hdesc : fc'.Descends key info.bestSlot) : fc'.Aggregated key info := by
  have hstake : fc'.childrenStake key = fc.childrenStake key := by
    unfold childrenStake
    rw [hchildren]
    congr 1
    exact List.map_congr_left hweight
  refine ⟨by rw [hstake]; exact h.subtree, fun hkc => ?_, hdesc⟩
  obtain ⟨hnone, hbest⟩ := h.best hkc
  refine ⟨fun hall => hnone fun c hc => ?_, fun c hc => ?_⟩
  · rw [← hcand c hc]
    exact hall c (hchildren ▸ hc)
  · rw [hchildren] at hc
    rw [isBestIn_congr_of hcand hweight] at hc
    rw [hbestSlot hkc c hc]
    exact hbest c hc

/-- `Aggregated` reads the block's children and their weights, candidacy and best slots,
and the walk down to the best slot. -/
theorem Aggregated.congr {fc' : HeaviestSubtreeForkChoice} {key : SlotHashKey} {info : ForkInfo}
    (h : fc.Aggregated key info) (hchildren : fc'.children key = fc.children key)
    (hweight : ∀ c ∈ fc.children key, fc'.weight c = fc.weight c)
    (hcand : ∀ c ∈ fc.children key, fc'.isCandidate c = fc.isCandidate c)
    (hbestSlot : ∀ c ∈ fc.children key, fc'.bestSlot c = fc.bestSlot c)
    (hdesc : fc'.Descends key info.bestSlot) : fc'.Aggregated key info :=
  h.congr_of_best hchildren hweight hcand (fun _ c hc => hbestSlot c hc.1) hdesc

/-- `Aggregated` reads the block's children, their entries and the walk down to the best
slot: a change elsewhere keeps it. -/
theorem Aggregated.frame {fc' : HeaviestSubtreeForkChoice} {key : SlotHashKey} {info : ForkInfo}
    (h : fc.Aggregated key info) (hchildren : fc'.children key = fc.children key)
    (hget : ∀ c ∈ fc.children key, fc'.get c = fc.get c)
    (hdesc : fc'.Descends key info.bestSlot) : fc'.Aggregated key info :=
  h.congr hchildren (fun c hc => by simp [weight, hget c hc])
    (fun c hc => by simp [isCandidate, hget c hc]) (fun c hc => by simp [bestSlot, hget c hc]) hdesc

/-- `add_slot_stake` keeps `Aggregated`: the stake of the block and of its subtree move
together. -/
theorem Aggregated.addStake {key : SlotHashKey} {info info' : ForkInfo} {stake : ℕ}
    (h : fc.Aggregated key info)
    (hat : info'.stakeVotedAt = wrappingAdd 64 info.stakeVotedAt stake)
    (hsubtree : info'.stakeVotedSubtree = wrappingAdd 64 info.stakeVotedSubtree stake)
    (hcand : info'.latestInvalidAncestor = info.latestInvalidAncestor)
    (hbest : info'.bestSlot = info.bestSlot) : fc.Aggregated key info' := by
  have hwrap := wrappingAdd_wrap_add 64 info.stakeVotedAt (fc.childrenStake key) stake
  unfold wrap at hwrap
  have hcand' : info'.isCandidate = info.isCandidate := by
    rw [ForkInfo.isCandidate, ForkInfo.isCandidate, hcand]
  refine ⟨?_, fun hc => hbest ▸ h.best (hcand' ▸ hc), hbest ▸ h.descends⟩
  rw [hsubtree, hat, h.subtree]
  exact hwrap

/-- `subtract_slot_stake` keeps `Aggregated`. -/
theorem Aggregated.subtractStake {key : SlotHashKey} {info info' : ForkInfo} {stake : ℕ}
    (h : fc.Aggregated key info)
    (hat : info'.stakeVotedAt = wrappingSub 64 info.stakeVotedAt stake)
    (hsubtree : info'.stakeVotedSubtree = wrappingSub 64 info.stakeVotedSubtree stake)
    (hcand : info'.latestInvalidAncestor = info.latestInvalidAncestor)
    (hbest : info'.bestSlot = info.bestSlot) : fc.Aggregated key info' := by
  have hwrap := wrappingSub_wrap_add 64 info.stakeVotedAt (fc.childrenStake key) stake
  unfold wrap at hwrap
  have hcand' : info'.isCandidate = info.isCandidate := by
    rw [ForkInfo.isCandidate, ForkInfo.isCandidate, hcand]
  refine ⟨?_, fun hc => hbest ▸ h.best (hcand' ▸ hc), hbest ▸ h.descends⟩
  rw [hsubtree, hat, h.subtree]
  exact hwrap

variable (fc) in
/-- The accumulator of `aggregate_slot`'s loop once it has read the children `done`: the
wrapped stake, whether a child is duplicate confirmed, and either no candidate so far (the
block itself as best) or the best candidate so far with its stake and best slot. -/
structure AggregateAcc (key : SlotHashKey) (start : ℕ) (done : List SlotHashKey)
    (acc : ℕ × ℕ × SlotHashKey × SlotHashKey × Bool) : Prop where
  sum : acc.1 = (start + (done.map fc.weight).sum) % 2 ^ 64
  duplicate : acc.2.2.2.2 = done.any fun c => (fc.get c).any (·.isDuplicateConfirmed)
  best : acc.2.2.1 = key ∧ acc.2.2.2.1 = key ∧ (∀ c ∈ done, fc.isCandidate c = false) ∨
    fc.IsBestIn done acc.2.2.1 ∧ acc.2.1 = fc.weight acc.2.2.1 ∧
      fc.bestSlot acc.2.2.1 = some acc.2.2.2.1

/-- One child read by the loop: the stake adds up, and the child takes the best place
when it is a candidate that beats the best so far. -/
theorem AggregateAcc.step {key c : SlotHashKey} {start : ℕ} {done : List SlotHashKey}
    {acc : ℕ × ℕ × SlotHashKey × SlotHashKey × Bool} {info : ForkInfo}
    (hacc : fc.AggregateAcc key start done acc) (hdone : ∀ b ∈ done, b ≠ key)
    (hget : fc.get c = some info) :
    fc.AggregateAcc key start (done ++ [c])
      (if info.isCandidate = true ∧ (acc.2.2.1 = key ∨ acc.2.1 < info.stakeVotedSubtree ∨
          info.stakeVotedSubtree = acc.2.1 ∧ c.lt acc.2.2.1 = true) then
        (wrappingAdd 64 acc.1 info.stakeVotedSubtree, info.stakeVotedSubtree, c, info.bestSlot,
          acc.2.2.2.2 || info.isDuplicateConfirmed)
      else
        (wrappingAdd 64 acc.1 info.stakeVotedSubtree, acc.2.1, acc.2.2.1, acc.2.2.2.1,
          acc.2.2.2.2 || info.isDuplicateConfirmed)) := by
  have hweight := weight_of_get hget
  have hcand := isCandidate_of_get hget
  have hsum : wrappingAdd 64 acc.1 info.stakeVotedSubtree =
      (start + ((done ++ [c]).map fc.weight).sum) % 2 ^ 64 := by
    rw [hacc.sum, wrappingAdd, wrap, List.map_append, List.sum_append, Nat.mod_add_mod]
    simp [hweight, Nat.add_assoc]
  have hdup : (acc.2.2.2.2 || info.isDuplicateConfirmed) =
      (done ++ [c]).any fun c => (fc.get c).any (·.isDuplicateConfirmed) := by
    simp [hacc.duplicate, hget]
  split_ifs with hbetter
  · refine ⟨hsum, hdup, .inr ⟨⟨by simp, hcand ▸ hbetter.1, fun c' hc' hcand' hne => ?_⟩,
      hweight.symm, bestSlot_of_get hget⟩⟩
    have hc' : c' ∈ done := by simpa [hne] using hc'
    rcases hacc.best with ⟨-, -, hnone⟩ | ⟨hbest, hstake, -⟩
    · exact absurd hcand' (by simp [hnone c' hc'])
    · have hne' : acc.2.2.1 ≠ key := hdone _ hbest.1
      have hbeats : fc.Beats c acc.2.2.1 := by
        unfold Beats
        rw [hweight, ← hstake]
        rcases hbetter.2 with h | h | h
        · exact absurd h hne'
        · exact .inl h
        · exact .inr ⟨h.1.symm, h.2⟩
      by_cases hc'best : c' = acc.2.2.1
      · exact hc'best ▸ hbeats
      · exact hbeats.trans (hbest.2.2 c' hc' hcand' hc'best)
  · refine ⟨hsum, hdup, ?_⟩
    rcases hacc.best with ⟨hkey, hslot, hnone⟩ | ⟨hbest, hstake, hslot⟩
    · refine .inl ⟨hkey, hslot, fun b hb => ?_⟩
      rcases List.mem_append.mp hb with hb | hb
      · exact hnone b hb
      · simp only [List.mem_singleton] at hb
        subst hb
        rw [hcand]
        simpa [hkey] using hbetter
    · refine .inr ⟨⟨List.mem_append_left _ hbest.1, hbest.2.1, fun c' hc' hcand' hne => ?_⟩,
        hstake, hslot⟩
      rcases List.mem_append.mp hc' with hc' | hc'
      · exact hbest.2.2 c' hc' hcand' hne
      · simp only [List.mem_singleton] at hc'
        subst hc'
        refine (beats_or_beats hne).resolve_left fun hbeats => hbetter ⟨hcand ▸ hcand', ?_⟩
        unfold Beats at hbeats
        rw [hweight, ← hstake] at hbeats
        rcases hbeats with h | h
        · exact .inr (.inl h)
        · exact .inr (.inr ⟨h.1.symm, h.2⟩)

theorem aggregateLoop_acc {key : SlotHashKey} {start : ℕ} :
    ∀ (children done : List SlotHashKey) (acc result : ℕ × ℕ × SlotHashKey × SlotHashKey × Bool),
      (∀ b ∈ done ++ children, b ≠ key) → fc.AggregateAcc key start done acc →
      fc.aggregateLoop key children acc = some result →
      fc.AggregateAcc key start (done ++ children) result
  | [], done, acc, result, _, hacc, h => by
    simp only [aggregateLoop, Option.some.injEq] at h
    subst h
    simpa using hacc
  | c :: children, done, acc, result, hkey, hacc, h => by
    obtain ⟨s, bs, bk, bsl, d⟩ := acc
    simp only [aggregateLoop, Option.bind_eq_bind, Option.bind_eq_some_iff] at h
    obtain ⟨info, hget, h⟩ := h
    have hstep := hacc.step (fun b hb => hkey b (List.mem_append_left _ hb)) hget
    have hkey' : ∀ b ∈ (done ++ [c]) ++ children, b ≠ key := by
      intro b hb
      exact hkey b (by simpa using hb)
    split_ifs at h hstep with hbetter
    · simpa using aggregateLoop_acc children (done ++ [c]) _ result hkey' hstep h
    · simpa using aggregateLoop_acc children (done ++ [c]) _ result hkey' hstep h

/-- `aggregate_slot` at a block of the tree: the subtree stake of `u64` arithmetic and the
best slot the claim describes, which is the block or one of its children's. -/
theorem Tree.aggregateLoop_spec (ht : fc.Tree) {key : SlotHashKey} {start : ℕ}
    (hstart : start < 2 ^ 64) {result : ℕ × ℕ × SlotHashKey × SlotHashKey × Bool}
    (h : fc.aggregateLoop key (fc.children key) (start, 0, key, key, false) = some result) :
    result.1 = (start + fc.childrenStake key) % 2 ^ 64 ∧
      result.2.2.2.2 = (fc.children key).any (fun c => (fc.get c).any (·.isDuplicateConfirmed)) ∧
      fc.BestSlotOK key result.2.2.2.1 ∧
      (result.2.2.2.1 = key ∨ ∃ c ∈ fc.children key, fc.bestSlot c = some result.2.2.2.1) := by
  have hkey : ∀ b ∈ [] ++ fc.children key, b ≠ key := by
    intro b hb heq
    subst heq
    have := ht.slot_lt (ht.parent_of_mem (by simpa using hb))
    exact lt_irrefl _ this
  have hinit : fc.AggregateAcc key start [] (start, 0, key, key, false) :=
    ⟨by
      simp only [List.map_nil, List.sum_nil, Nat.add_zero]
      exact (Nat.mod_eq_of_lt hstart).symm, by simp, .inl ⟨rfl, rfl, by simp⟩⟩
  have hacc := aggregateLoop_acc (fc.children key) [] _ result hkey hinit h
  simp only [List.nil_append] at hacc
  refine ⟨hacc.sum, hacc.duplicate, ⟨fun hnone => ?_, fun c hc => ?_⟩, ?_⟩
  · rcases hacc.best with ⟨-, hslot, -⟩ | ⟨hbest, -⟩
    · exact hslot
    · exact absurd hbest.2.1 (by simp [hnone _ hbest.1])
  · rcases hacc.best with ⟨-, -, hnone⟩ | ⟨hbest, -, hslot⟩
    · exact absurd hc.2.1 (by simp [hnone c hc.1])
    · rw [hc.unique hbest]
      exact hslot
  · rcases hacc.best with ⟨-, hslot, -⟩ | ⟨hbest, -, hslot⟩
    · exact .inl hslot
    · exact .inr ⟨_, hbest.1, hslot⟩

/-- `aggregate_slot` at a block whose children have their best slots below them: the
block's entry, and no other, becomes `Aggregated`. -/
theorem Tree.aggregateSlot_spec (ht : fc.Tree) {key : SlotHashKey} {info : ForkInfo}
    {fc' : HeaviestSubtreeForkChoice} (hget : fc.get key = some info)
    (hat : info.stakeVotedAt < 2 ^ 64)
    (hdesc : ∀ c ∈ fc.children key, ∀ cinfo, fc.get c = some cinfo → fc.Descends c cinfo.bestSlot)
    (h : fc.aggregateSlot key = some fc') :
    fc.SameTree fc' ∧ (∀ x, x ≠ key → fc'.get x = fc.get x) ∧
      ∃ info', fc'.get key = some info' ∧ info'.stakeVotedAt = info.stakeVotedAt ∧
        fc'.Aggregated key info' := by
  simp only [aggregateSlot, hget, Option.bind_eq_bind, Option.bind_eq_some_iff] at h
  obtain ⟨⟨s, bs, bk, bsl, d⟩, hloop, hmodify⟩ := h
  rw [← children_of_get hget] at hloop
  obtain ⟨hsum, -, hbest, hslot⟩ := ht.aggregateLoop_spec hat hloop
  dsimp only at hsum hbest hslot
  have hsame := sameTree_of_modifyInfo (fun info => by
    constructor <;> split_ifs <;> rfl) hmodify
  have hget' := get_of_modifyInfo hmodify
  have hnotchild : ∀ c ∈ fc.children key, c ≠ key := by
    intro c hc heq
    subst heq
    exact lt_irrefl _ (ht.slot_lt (ht.parent_of_mem hc))
  let info' : ForkInfo :=
    { (if d = true then info.setDuplicateConfirmed else info) with
      stakeVotedSubtree := s, bestSlot := bsl }
  have hat' : info'.stakeVotedAt = info.stakeVotedAt := by
    simp only [info']
    split_ifs <;> rfl
  refine ⟨hsame, fun x hx => by rw [hget', if_neg hx], info', by simp [hget', hget, info'],
    hat', ?_⟩
  have hagg : fc.Aggregated key info' := by
    refine ⟨by rw [hat']; exact hsum, fun _ => hbest, ?_⟩
    show fc.Descends key bsl
    rcases hslot with hslot | ⟨c, hc, hcslot⟩
    · rw [hslot]
      exact Descends.refl key
    · obtain ⟨cinfo, hcinfo⟩ := Option.isSome_iff_exists.mp (ht.isSome_of_mem hc)
      rw [bestSlot_of_get hcinfo, Option.some.injEq] at hcslot
      have hdc : fc.Descends c bsl := hcslot ▸ hdesc c hc cinfo hcinfo
      exact (Descends.of_parent (ht.parent_of_mem hc)).trans hdc
  exact hagg.frame (hsame.children key) (fun c hc => by rw [hget', if_neg (hnotchild c hc)])
    (hsame.descends_iff.mpr hagg.descends)

end HeaviestSubtreeForkChoice

end Solana.Consensus
