import Solana.Consensus.ForkChoiceVotes

/-! `add_new_leaf_slot`: when the new leaf is its parent's best child, the parent and the
ancestors whose best slot was the parent's take the leaf as their best slot. -/

namespace Solana.Consensus

namespace HeaviestSubtreeForkChoice

variable {fc fc₁ fc' : HeaviestSubtreeForkChoice}

/-! ## `is_best_child` -/

/-- The loop of `is_best_child`: `true` when no candidate among the blocks is heavier than
`weight`, or as heavy and smaller than the block. -/
theorem isBestChildLoop_spec (m : SlotHashKey) (weight : ℕ) :
    ∀ {blocks : List SlotHashKey} {b : Bool}, fc.isBestChildLoop m weight blocks = some b →
      (b = true ↔ ∀ c ∈ blocks, fc.isCandidate c = true →
        ¬(weight < fc.weight c ∨ weight = fc.weight c ∧ c.lt m = true))
  | [], b, h => by
    simp only [isBestChildLoop, Option.some.injEq] at h
    simp [← h]
  | c :: blocks, b, h => by
    simp only [isBestChildLoop, Option.bind_eq_bind, Option.bind_eq_some_iff] at h
    obtain ⟨info, hinfo, h⟩ := h
    rw [List.forall_mem_cons, isCandidate_of_get hinfo, weight_of_get hinfo]
    split_ifs at h with hcand hbeaten
    · -- a block that is not a candidate does not count
      have hcand' : info.isCandidate = false := by simpa using hcand
      rw [isBestChildLoop_spec m weight h, hcand']
      simp
    · rw [← Option.some.inj h]
      have hcand' : info.isCandidate = true := by simpa using hcand
      simp [hcand', hbeaten]
    · have hcand' : info.isCandidate = true := by simpa using hcand
      rw [isBestChildLoop_spec m weight h]
      simp [hcand', hbeaten]

/-- `is_best_child` of a leaf without stake under `p`: `true` when the leaf beats every
other candidate child of `p`. -/
theorem isBestChild_leaf {key p : SlotHashKey} {info : ForkInfo} (hget : fc.get key = some info)
    (hweight : info.stakeVotedSubtree = 0) (hparent : info.parent = some p) {b : Bool}
    (h : fc.isBestChild key = some b) :
    b = true ↔ ∀ c ∈ fc.children p, fc.isCandidate c = true → c ≠ key → fc.Beats key c := by
  simp only [isBestChild, stakeVotedSubtree, hget, parent_of_get hget, hparent,
    Option.bind_eq_bind, Option.map_some, Option.bind_some, Option.bind_eq_some_iff] at h
  obtain ⟨pinfo, hpinfo, h⟩ := h
  rw [isBestChildLoop_spec key _ h, children_of_get hpinfo]
  have hkey : fc.weight key = 0 := by rw [weight_of_get hget, hweight]
  refine forall₂_congr fun c _ => ⟨fun hc hcand hne => ?_, fun hc hcand => ?_⟩
  · -- not beaten by `c`: as light as the leaf, and larger
    have hnot := hc hcand
    rw [hweight] at hnot
    unfold Beats
    rw [hkey]
    rcases SlotHashKey.lt_or_gt_of_ne hne with hlt | hlt
    · exact absurd (.inr ⟨by omega, hlt⟩) hnot
    · exact .inr ⟨by omega, hlt⟩
  · rw [hweight]
    by_cases hne : c = key
    · subst hne
      simp [hkey, SlotHashKey.lt_irrefl]
    · have hbeats := hc hcand hne
      unfold Beats at hbeats
      rw [hkey] at hbeats
      rcases hbeats with hlt | ⟨heq, hlt⟩
      · omega
      · rw [SlotHashKey.lt_asymm hlt, Bool.false_eq_true, and_false, or_false]
        omega

/-- A block after the others that the best of them beats leaves it the best. -/
theorem IsBestIn.append_singleton {blocks : List SlotHashKey} {c x : SlotHashKey}
    (h : fc.IsBestIn blocks c) (hx : fc.isCandidate x = true → x ≠ c → fc.Beats c x) :
    fc.IsBestIn (blocks ++ [x]) c := by
  refine ⟨List.mem_append_left _ h.1, h.2.1, fun c' hc' hcand hne => ?_⟩
  rcases List.mem_append.mp hc' with hc' | hc'
  · exact h.2.2 c' hc' hcand hne
  · rw [List.mem_singleton] at hc'
    subst hc'
    exact hx hcand hne

/-! ## The walk of `propagate_new_leaf` -/

variable (fc) in
/-- The blocks the walk of `propagate_new_leaf` from `a` gives the new leaf: those above
`a` whose way down to `a` passes only blocks whose best slot is `pbs`. -/
def Propagated (pbs a x : SlotHashKey) : Prop :=
  fc.Descends x a ∧ ∀ y, fc.Descends x y → fc.Descends y a → fc.bestSlot y = some pbs

theorem IsAncestorChain.of_sameTree (hsame : fc.SameTree fc₁) :
    ∀ {a : SlotHashKey} {l : List SlotHashKey}, fc.IsAncestorChain a l → fc₁.IsAncestorChain a l
  | _, [], h => by
    simp only [IsAncestorChain, hsame.parent] at h ⊢
    exact h
  | _, _ :: _, ⟨hp, hl⟩ => ⟨by rw [hsame.parent]; exact hp, IsAncestorChain.of_sameTree hsame hl⟩

section Propagated

variable {pbs a q x : SlotHashKey}

theorem Propagated.bestSlot (h : fc.Propagated pbs a x) : fc.bestSlot x = some pbs :=
  h.2 x (.refl x) h.1

theorem Tree.propagated_self (ht : fc.Tree) (hbest : fc.bestSlot a = some pbs) :
    fc.Propagated pbs a a :=
  ⟨.refl a, fun _ hay hya => ht.descends_antisymm hay hya ▸ hbest⟩

/-- Without a parent, the walk stops at its start. -/
theorem Tree.propagated_of_parent_none (ht : fc.Tree) (hparent : fc.parent a = none) :
    fc.Propagated pbs a x ↔ x = a ∧ fc.bestSlot a = some pbs := by
  constructor
  · intro h
    have hxa : x = a := by
      by_contra hne
      obtain ⟨p, hp, -⟩ := h.1.parent_of_ne hne
      rw [hparent] at hp
      cases hp
    subst hxa
    exact ⟨rfl, h.bestSlot⟩
  · rintro ⟨rfl, hbest⟩
    exact ht.propagated_self hbest

/-- Past a block with the parent's old best slot, the walk from `a` goes on as the walk
from the parent `q` of `a`. -/
theorem Tree.propagated_of_parent (ht : fc.Tree) (hq : fc.parent a = some q)
    (hbest : fc.bestSlot a = some pbs) : fc.Propagated pbs a x ↔ x = a ∨ fc.Propagated pbs q x := by
  constructor
  · rintro ⟨hxa, hall⟩
    by_cases hx : x = a
    · exact .inl hx
    · obtain ⟨p, hp, hxp⟩ := hxa.parent_of_ne hx
      rw [hq, Option.some.injEq] at hp
      subst hp
      exact .inr ⟨hxp, fun y hxy hyq => hall y hxy (hyq.tail hq)⟩
  · rintro (rfl | ⟨hxq, hall⟩)
    · exact ht.propagated_self hbest
    · refine ⟨hxq.tail hq, fun y hxy hya => ?_⟩
      by_cases hy : y = a
      · rw [hy]
        exact hbest
      · obtain ⟨p, hp, hyp⟩ := hya.parent_of_ne hy
        rw [hq, Option.some.injEq] at hp
        subst hp
        exact hall y hxy hyp

/-- A block is not above its parent. -/
theorem Tree.not_descends_of_parent (ht : fc.Tree) (hq : fc.parent a = some q) :
    ¬fc.Descends a q := fun h =>
  absurd (ht.slot_le_of_descends h) (not_le.mpr (ht.slot_lt hq))

/-- The walk from the parent of `a` does not read the best slot of `a`. -/
theorem Tree.propagated_congr (ht : fc.Tree) (hsame : fc.SameTree fc₁) (hq : fc.parent a = some q)
    (hbest : ∀ y, y ≠ a → fc₁.bestSlot y = fc.bestSlot y) :
    fc₁.Propagated pbs q x ↔ fc.Propagated pbs q x := by
  unfold Propagated
  simp only [hsame.descends_iff]
  refine and_congr_right fun _ => forall_congr' fun y => imp_congr_right fun _ =>
    imp_congr_right fun hyq => ?_
  rw [hbest y fun hy => ht.not_descends_of_parent hq (hy ▸ hyq)]

end Propagated

/-- The walk of `propagate_new_leaf` from `a` up its chain of ancestors, with fuel for the
whole chain: the blocks it reaches, and no others, take `leaf` as their best slot. -/
theorem Tree.propagateLoop_spec (leaf pbs : SlotHashKey) :
    ∀ {chain : List SlotHashKey} {fuel : ℕ} {fc fc' : HeaviestSubtreeForkChoice} {a : SlotHashKey},
      fc.Tree → fc.IsAncestorChain a chain → chain.length < fuel → (fc.get a).isSome →
      propagateLoop leaf pbs fuel fc (some a) = some fc' →
      fc.SameTree fc' ∧ fc'.latestVotes = fc.latestVotes ∧
        (∀ x, fc.Propagated pbs a x →
          fc'.get x = (fc.get x).map fun info => { info with bestSlot := leaf }) ∧
        ∀ x, ¬fc.Propagated pbs a x → fc'.get x = fc.get x
  | _, 0, _, _, _, _, _, hlen, _, _ => absurd hlen (Nat.not_lt_zero _)
  | chain, fuel + 1, fc, fc', a, ht, hchain, hlen, ha, h => by
    obtain ⟨info, hinfo⟩ := Option.isSome_iff_exists.mp ha
    simp only [propagateLoop, hinfo, Option.bind_eq_bind, Option.bind_some] at h
    split_ifs at h with hbs
    · -- `a` takes the leaf, and the walk goes on from its parent
      obtain ⟨fc₁, hmodify, hloop⟩ := Option.bind_eq_some_iff.mp h
      have hbest : fc.bestSlot a = some pbs := by rw [bestSlot_of_get hinfo, hbs]
      have hsame₁ : fc.SameTree fc₁ := by
        refine sameTree_of_modifyInfo ?_ hmodify
        exact fun _ => ⟨rfl, rfl⟩
      have hget₁ := get_of_modifyInfo hmodify
      have hvotes₁ := modifyInfo_latestVotes _ hmodify
      cases chain with
      | nil =>
        have hparent : info.parent = none := by
          rw [← parent_of_get hinfo]
          exact hchain
        rw [hparent] at hloop
        have hfc : fc₁ = fc' := by
          cases fuel <;> exact Option.some.inj hloop
        subst hfc
        refine ⟨hsame₁, hvotes₁, fun x hx => ?_, fun x hx => ?_⟩
        · obtain ⟨rfl, -⟩ := (ht.propagated_of_parent_none hchain).mp hx
          rw [hget₁, if_pos rfl]
        · have hxa : x ≠ a := fun h => hx ((ht.propagated_of_parent_none hchain).mpr ⟨h, hbest⟩)
          rw [hget₁, if_neg hxa]
      | cons q rest =>
        obtain ⟨hq, hrest⟩ := hchain
        have hparent : info.parent = some q := by
          rw [← parent_of_get hinfo]
          exact hq
        rw [hparent] at hloop
        have hbest₁ : ∀ y, y ≠ a → fc₁.bestSlot y = fc.bestSlot y := fun y hy => by
          simp [bestSlot, hget₁, hy]
        obtain ⟨hsame', hvotes', hin, hout⟩ := Tree.propagateLoop_spec leaf pbs (hsame₁.tree ht)
          (hrest.of_sameTree hsame₁) (by simp only [List.length_cons] at hlen; omega)
          (by rw [hsame₁.isSome]; exact ht.isSome_of_parent_eq hq) hloop
        have hcongr : ∀ x, fc₁.Propagated pbs q x ↔ fc.Propagated pbs q x :=
          fun x => ht.propagated_congr hsame₁ hq hbest₁
        have hnota : ¬fc.Propagated pbs q a := fun h => ht.not_descends_of_parent hq h.1
        refine ⟨hsame₁.trans hsame', hvotes'.trans hvotes₁, fun x hx => ?_, fun x hx => ?_⟩
        · rcases (ht.propagated_of_parent hq hbest).mp hx with rfl | hx
          · rw [hout x (by rw [hcongr]; exact hnota), hget₁, if_pos rfl]
          · have hxa : x ≠ a := fun h => hnota (h ▸ hx)
            rw [hin x ((hcongr x).mpr hx), hget₁, if_neg hxa]
        · have hxa : x ≠ a := fun h => hx (by rw [h]; exact ht.propagated_self hbest)
          have hxq : ¬fc.Propagated pbs q x := fun h =>
            hx ((ht.propagated_of_parent hq hbest).mpr (.inr h))
          rw [hout x (by rw [hcongr]; exact hxq), hget₁, if_neg hxa]
    · -- `a` has another best slot: the walk stops
      rw [← Option.some.inj h]
      have hnot : ∀ x, ¬fc.Propagated pbs a x := fun x hx => hbs (by
        have := hx.2 a hx.1 (.refl a)
        rw [bestSlot_of_get hinfo] at this
        exact Option.some.inj this)
      exact ⟨.refl fc, rfl, fun x hx => absurd hx (hnot x), fun x _ => rfl⟩

/-- `propagate_new_leaf` under a block of the tree: when the leaf is the best child, the
walk from the parent gives it to the blocks it reaches, and leaves every other block as it
was. -/
theorem Tree.propagateNewLeaf_spec (ht : fc.Tree) {key p : SlotHashKey} (hp : (fc.get p).isSome)
    (h : fc.propagateNewLeaf key p = some fc') :
    ∃ b pbs, fc.isBestChild key = some b ∧ fc.bestSlot p = some pbs ∧ fc.SameTree fc' ∧
      fc'.latestVotes = fc.latestVotes ∧
      (∀ x, b = true ∧ fc.Propagated pbs p x →
        fc'.get x = (fc.get x).map fun info => { info with bestSlot := key }) ∧
      ∀ x, ¬(b = true ∧ fc.Propagated pbs p x) → fc'.get x = fc.get x := by
  unfold propagateNewLeaf at h
  simp only [Option.bind_eq_bind, Option.bind_eq_some_iff] at h
  obtain ⟨pbs, hpbs, b, hb, h⟩ := h
  refine ⟨b, pbs, hb, hpbs, ?_⟩
  cases b with
  | false =>
    obtain rfl := Option.some.inj h
    exact ⟨.refl fc, rfl, fun x hx => absurd hx.1 Bool.false_ne_true, fun x _ => rfl⟩
  | true =>
    -- the ancestors of the parent are fewer than the entries, so the fuel suffices
    have hchain := ht.isAncestorChain_ancestors p
    have hnodup : (p :: fc.ancestors p).Nodup :=
      (hchain.pairwise ht).imp fun hlt heq => by rw [heq] at hlt; exact lt_irrefl _ hlt
    have hlen := Tree.length_le_of_nodup hnodup fun k hk => by
      rcases List.mem_cons.mp hk with rfl | hk
      · exact hp
      · exact hchain.isSome ht k hk
    obtain ⟨hsame, hvotes, hin, hout⟩ := ht.propagateLoop_spec key pbs hchain
      (by simp only [List.length_cons] at hlen; omega) hp h
    exact ⟨hsame, hvotes, fun x hx => hin x hx.2, fun x hx => hout x fun hp => hx ⟨rfl, hp⟩⟩

/-- A block whose best child the walk reaches, and whose best slot is the child's, is
reached too. -/
theorem Tree.propagated_of_child (ht : fc.Tree) {pbs a c k : SlotHashKey}
    (hc : fc.parent c = some k) (hprop : fc.Propagated pbs a c) (hbest : fc.bestSlot k = some pbs) :
    fc.Propagated pbs a k := by
  refine ⟨(Descends.of_parent hc).trans hprop.1, fun y hky hya => ?_⟩
  by_cases hyk : y = k
  · rw [hyk]
    exact hbest
  · -- the way down from `k` to `a` passes `c`, the child of `k` above `a`
    obtain ⟨c', hc', hc'y⟩ := ht.exists_child_of_descends hky (Ne.symm hyk)
    have hcc : c' = c :=
      ht.eq_of_mem_children_of_descends hc' (ht.mem_children hc) (hc'y.trans hya) hprop.1
    subst hcc
    exact hprop.2 y hc'y hya

/-! ## The tree with the leaf, against the tree before it -/

section withLeaf

variable {key p : SlotHashKey} (hslot : p.1 < key.1) (h : fc.withLeaf key p = some fc₁)
include hslot h

theorem weight_of_withLeaf (x : SlotHashKey) :
    fc₁.weight x = if x = key then 0 else fc.weight x := by
  have hne : p ≠ key := ne_of_apply_ne Prod.fst hslot.ne
  simp only [weight, get_of_withLeaf hslot h]
  by_cases hxp : x = p
  · subst hxp
    cases fc.get x <;> simp [hne]
  · by_cases hxk : x = key <;> simp [hxp, hxk, Ne.symm hne]

theorem isCandidate_of_withLeaf (x : SlotHashKey) :
    fc₁.isCandidate x = if x = key then fc.isCandidate p else fc.isCandidate x := by
  have hne : p ≠ key := ne_of_apply_ne Prod.fst hslot.ne
  obtain ⟨pinfo, hpinfo⟩ := Option.isSome_iff_exists.mp (isSome_parent_of_withLeaf hslot h)
  simp only [isCandidate, get_of_withLeaf hslot h, hpinfo]
  by_cases hxp : x = p
  · simp [hxp, hne, ForkInfo.isCandidate, hpinfo]
  · by_cases hxk : x = key
    · simp [hxk, Ne.symm hne, ForkInfo.isCandidate, latestInvalidAncestor, hpinfo]
    · simp [hxp, hxk]

theorem bestSlot_of_withLeaf (x : SlotHashKey) :
    fc₁.bestSlot x = if x = key then some key else fc.bestSlot x := by
  have hne : p ≠ key := ne_of_apply_ne Prod.fst hslot.ne
  simp only [bestSlot, get_of_withLeaf hslot h]
  by_cases hxp : x = p
  · subst hxp
    cases fc.get x <;> simp [hne]
  · by_cases hxk : x = key <;> simp [hxp, hxk, Ne.symm hne]

/-- The leaf holds no stake of its own; the other blocks hold what they held. -/
theorem stakeVotedAt_of_withLeaf (x : SlotHashKey) :
    (fc₁.get x).map (·.stakeVotedAt) = if x = key then some 0 else (fc.get x).map (·.stakeVotedAt) := by
  have hne : p ≠ key := ne_of_apply_ne Prod.fst hslot.ne
  rw [get_of_withLeaf hslot h]
  by_cases hxp : x = p
  · subst hxp
    cases fc.get x <;> simp [hne]
  · by_cases hxk : x = key <;> simp [hxp, hxk, Ne.symm hne]

variable (ht : fc.Tree) (hkey : fc.get key = none)
include ht hkey

/-- The leaf has no stake: each block's children hold the stake they held. -/
theorem childrenStake_of_withLeaf (x : SlotHashKey) : fc₁.childrenStake x = fc.childrenStake x := by
  have hweight : ∀ c ∈ fc.children x, fc₁.weight c = fc.weight c := fun c hc => by
    rw [weight_of_withLeaf hslot h, if_neg (ne_of_isSome (ht.isSome_of_mem hc) hkey)]
  unfold childrenStake
  rw [children_of_withLeaf hslot h hkey]
  split_ifs with hxp
  · subst hxp
    simp [List.map_congr_left hweight, weight_of_withLeaf hslot h]
  · rw [List.map_congr_left hweight]

/-- Among the children of a block before the leaf, the best child stays the best. -/
theorem isBestIn_withLeaf_iff {x c : SlotHashKey} :
    fc₁.IsBestIn (fc.children x) c ↔ fc.IsBestIn (fc.children x) c := by
  have hck : ∀ c ∈ fc.children x, c ≠ key := fun c hc => ne_of_isSome (ht.isSome_of_mem hc) hkey
  refine isBestIn_congr_of (fun c' hc' => ?_) (fun c' hc' => ?_)
  · rw [isCandidate_of_withLeaf hslot h, if_neg (hck c' hc')]
  · rw [weight_of_withLeaf hslot h, if_neg (hck c' hc')]

omit ht in
/-- The walks down the tree before the leaf are walks of the tree with it. -/
theorem descends_of_withLeaf {a y : SlotHashKey} (hd : fc.Descends a y) : fc₁.Descends a y := by
  refine hd.mono fun z hz hza => ?_
  obtain ⟨q, hq, -⟩ := hz.parent_of_ne (Ne.symm hza)
  rw [parent_of_withLeaf hslot h, if_neg (ne_of_isSome (isSome_of_parent hq) hkey)]

/-- The walks down the tree that do not reach the leaf are the walks of the tree before. -/
theorem descends_withLeaf_iff {a y : SlotHashKey} (hy : y ≠ key) :
    fc₁.Descends a y ↔ fc.Descends a y := by
  refine ⟨fun hd => ?_, descends_of_withLeaf hslot h hkey⟩
  induction hd with
  | refl => exact .refl a
  | @tail z y _ hz ih =>
    rw [parent_of_withLeaf hslot h, if_neg hy] at hz
    exact (ih (ne_of_isSome (ht.isSome_of_parent_eq hz) hkey)).tail hz

/-- With the leaf under `p`, every block but `p` is aggregated: the leaf has no stake, is
its own best slot, and is no block's best child but perhaps `p`'s. -/
theorem Tree.aggregatedAt_of_withLeaf (hagg : ∀ k, fc.AggregatedAt k) {k : SlotHashKey}
    (hkp : k ≠ p) : fc₁.AggregatedAt k := by
  intro info₁ hk₁
  have hget := get_of_withLeaf hslot h k
  rw [if_neg hkp] at hget
  by_cases hkk : k = key
  · -- the leaf itself
    subst hkk
    rw [if_pos rfl, hk₁, Option.some.injEq] at hget
    subst hget
    have hchildren : fc₁.children k = [] := by
      rw [children_of_withLeaf hslot h hkey, if_neg hkp, children_of_get_none hkey]
    refine ⟨?_, fun _ => ⟨fun _ => rfl, fun c hc => ?_⟩, .refl k⟩
    · simp [childrenStake, hchildren]
    · rw [hchildren] at hc
      exact absurd hc.1 List.not_mem_nil
  · rw [if_neg hkk, hk₁] at hget
    have hchildren : fc₁.children k = fc.children k := by
      rw [children_of_withLeaf hslot h hkey, if_neg hkp]
    have hck : ∀ c ∈ fc.children k, c ≠ key := fun c hc => ne_of_isSome (ht.isSome_of_mem hc) hkey
    have hagg' := hagg k info₁ hget.symm
    refine hagg'.congr hchildren (fun c hc => ?_) (fun c hc => ?_) (fun c hc => ?_) ?_
    · rw [weight_of_withLeaf hslot h, if_neg (hck c hc)]
    · rw [isCandidate_of_withLeaf hslot h, if_neg (hck c hc)]
    · rw [bestSlot_of_withLeaf hslot h, if_neg (hck c hc)]
    · exact descends_of_withLeaf hslot h hkey hagg'.descends

end withLeaf

/-! ## Best slots moved by the walk -/

section Relabel

variable {S : SlotHashKey → Prop} {leaf : SlotHashKey}
  (hin : ∀ x, S x → fc'.get x = (fc.get x).map fun info => { info with bestSlot := leaf })
  (hout : ∀ x, ¬S x → fc'.get x = fc.get x)
include hin hout

theorem weight_of_relabel (x : SlotHashKey) : fc'.weight x = fc.weight x := by
  by_cases hx : S x
  · simp only [weight, hin x hx]
    cases fc.get x <;> rfl
  · simp only [weight, hout x hx]

theorem isCandidate_of_relabel (x : SlotHashKey) : fc'.isCandidate x = fc.isCandidate x := by
  by_cases hx : S x
  · simp only [isCandidate, hin x hx]
    cases fc.get x <;> rfl
  · simp only [isCandidate, hout x hx]

theorem childrenStake_of_relabel (hsame : fc.SameTree fc') (x : SlotHashKey) :
    fc'.childrenStake x = fc.childrenStake x := by
  unfold childrenStake
  rw [hsame.children]
  exact congrArg List.sum (List.map_congr_left fun c _ => weight_of_relabel hin hout c)

omit hout in
theorem bestSlot_of_relabel {x : SlotHashKey} (hx : S x) (hsome : (fc.get x).isSome) :
    fc'.bestSlot x = some leaf := by
  obtain ⟨info, hinfo⟩ := Option.isSome_iff_exists.mp hsome
  simp [bestSlot, hin x hx, hinfo]

theorem stakeVotedAt_of_relabel (x : SlotHashKey) :
    (fc'.get x).map (·.stakeVotedAt) = (fc.get x).map (·.stakeVotedAt) := by
  by_cases hx : S x
  · rw [hin x hx]
    cases fc.get x <;> rfl
  · rw [hout x hx]

omit hin in
theorem bestSlot_of_not_relabel {x : SlotHashKey} (hx : ¬S x) : fc'.bestSlot x = fc.bestSlot x := by
  simp only [bestSlot, hout x hx]

end Relabel

/-! ## `add_new_leaf_slot` keeps every block aggregated -/

section AddLeaf

variable {key p pbs : SlotHashKey} {b : Bool}
  (ht : fc.Tree) (hagg : ∀ k, fc.AggregatedAt k) (hslot : p.1 < key.1) (hkey : fc.get key = none)
  (h₁ : fc.withLeaf key p = some fc₁) (hsame : fc₁.SameTree fc')
  (hin : ∀ x, b = true ∧ fc₁.Propagated pbs p x →
    fc'.get x = (fc₁.get x).map fun info => { info with bestSlot := key })
  (hout : ∀ x, ¬(b = true ∧ fc₁.Propagated pbs p x) → fc'.get x = fc₁.get x)
include ht hagg hslot hkey h₁

omit ht in
/-- In the tree with the leaf, every best slot lies below its block. -/
theorem descends_bestSlot_of_withLeaf {x y : SlotHashKey} (hxy : fc₁.bestSlot x = some y) :
    fc₁.Descends x y := by
  rw [bestSlot_of_withLeaf hslot h₁] at hxy
  split_ifs at hxy with hxk
  · obtain rfl := Option.some.inj hxy
    rw [hxk]
    exact .refl key
  · obtain ⟨info, hinfo, rfl⟩ := Option.map_eq_some_iff.mp hxy
    exact descends_of_withLeaf hslot h₁ hkey (hagg x info hinfo).descends

include hsame hin hout

/-- A block the walk reaches, other than the parent: its best child was on the way to the
parent, and that child now has the leaf as its best slot. -/
theorem aggregated_of_propagated {k : SlotHashKey} {info' : ForkInfo} (hkp : k ≠ p)
    (hS : b = true ∧ fc₁.Propagated pbs p k) (hk : fc'.get k = some info') :
    fc'.Aggregated k info' := by
  have ht₁ := Tree.withLeaf hslot h₁ ht hkey
  rw [hin k hS] at hk
  obtain ⟨info₁, hk₁, rfl⟩ := Option.map_eq_some_iff.mp hk
  have hagg₁ := Tree.aggregatedAt_of_withLeaf hslot h₁ ht hkey hagg hkp info₁ hk₁
  have hbs₁ : info₁.bestSlot = pbs := by
    have := hS.2.bestSlot
    rw [bestSlot_of_get hk₁] at this
    exact Option.some.inj this
  have hpdesc : fc₁.Descends p pbs := descends_bestSlot_of_withLeaf hagg hslot hkey h₁
    (hS.2.2 p hS.2.1 (.refl p))
  -- the child of `k` on the way down to `p`, which the walk reaches too
  obtain ⟨cx, hcx, hcxp⟩ := ht₁.exists_child_of_descends hS.2.1 hkp
  have hScx : b = true ∧ fc₁.Propagated pbs p cx :=
    ⟨hS.1, hcxp, fun y hy hyp => hS.2.2 y ((Descends.of_parent (ht₁.parent_of_mem hcx)).trans hy) hyp⟩
  refine ⟨?_, fun hcand => ⟨fun hall => ?_, fun c hc => ?_⟩, ?_⟩
  · rw [childrenStake_of_relabel hin hout hsame]
    exact hagg₁.subtree
  · -- without a candidate child `k` would be its own best slot, below `p`
    have hkbs := (hagg₁.best hcand).1 fun c hc => by
      rw [← isCandidate_of_relabel hin hout]
      exact hall c (by rw [hsame.children]; exact hc)
    rw [hbs₁] at hkbs
    subst hkbs
    exact absurd (ht₁.descends_antisymm hS.2.1 hpdesc) hkp
  · rw [hsame.children, isBestIn_congr_of (fun c _ => isCandidate_of_relabel hin hout c)
      (fun c _ => weight_of_relabel hin hout c)] at hc
    have hcbs := (hagg₁.best hcand).2 c hc
    rw [hbs₁] at hcbs
    have hccx : c = cx := ht₁.eq_of_mem_children_of_descends hc.1 hcx
      (descends_bestSlot_of_withLeaf hagg hslot hkey h₁ hcbs) (hcxp.trans hpdesc)
    rw [hccx]
    exact bestSlot_of_relabel hin hScx (ht₁.isSome_of_mem hcx)
  · have hkeyp : fc₁.parent key = some p := by rw [parent_of_withLeaf hslot h₁, if_pos rfl]
    exact hsame.descends_iff.mpr (hS.2.1.tail hkeyp)

/-- A block the walk does not reach, other than the parent: its best child is not reached
either, since the block would then be. -/
theorem aggregated_of_not_propagated {k : SlotHashKey} {info' : ForkInfo} (hkp : k ≠ p)
    (hS : ¬(b = true ∧ fc₁.Propagated pbs p k)) (hk : fc'.get k = some info') :
    fc'.Aggregated k info' := by
  have ht₁ := Tree.withLeaf hslot h₁ ht hkey
  rw [hout k hS] at hk
  have hagg₁ := Tree.aggregatedAt_of_withLeaf hslot h₁ ht hkey hagg hkp info' hk
  refine hagg₁.congr_of_best (hsame.children k) (fun c _ => weight_of_relabel hin hout c)
    (fun c _ => isCandidate_of_relabel hin hout c) (fun hcand c hc => ?_)
    (hsame.descends_iff.mpr hagg₁.descends)
  by_cases hSc : b = true ∧ fc₁.Propagated pbs p c
  · have hcbs := (hagg₁.best hcand).2 c hc
    have hkbs : fc₁.bestSlot k = some pbs := by
      rw [bestSlot_of_get hk, ← hcbs, hSc.2.bestSlot]
    exact absurd ⟨hSc.1, ht₁.propagated_of_child (ht₁.parent_of_mem hc.1) hSc.2 hkbs⟩ hS
  · exact bestSlot_of_not_relabel hout hSc

/-- The parent: the leaf is its best child exactly when `is_best_child` says so, and
otherwise the old best child beats the leaf too. -/
theorem aggregated_parent_of_propagateNewLeaf {info' : ForkInfo}
    (hb : fc₁.isBestChild key = some b) (hpbs : fc₁.bestSlot p = some pbs)
    (hk : fc'.get p = some info') : fc'.Aggregated p info' := by
  have ht₁ := Tree.withLeaf hslot h₁ ht hkey
  have hne : p ≠ key := ne_of_apply_ne Prod.fst hslot.ne
  obtain ⟨pinfo, hpinfo⟩ := Option.isSome_iff_exists.mp (isSome_parent_of_withLeaf hslot h₁)
  have hpagg := hagg p pinfo hpinfo
  have hp₁ : fc₁.get p = some { pinfo with children := pinfo.children ++ [key] } := by
    rw [get_of_withLeaf hslot h₁, if_pos rfl, hpinfo]
    rfl
  have hkey₁ : fc₁.get key = some ⟨0, 0, key, some p, [], fc.latestInvalidAncestor p, false⟩ := by
    rw [get_of_withLeaf hslot h₁, if_neg (Ne.symm hne), if_pos rfl]
  have hkeyp : fc₁.parent key = some p := by rw [parent_of_get hkey₁]
  have hnotkey : ¬(b = true ∧ fc₁.Propagated pbs p key) := fun hS =>
    ht₁.not_descends_of_parent hkeyp hS.2.1
  have hchildren₁ : fc₁.children p = fc.children p ++ [key] := by
    rw [children_of_withLeaf hslot h₁ hkey, if_pos rfl]
  have hstake : fc'.childrenStake p = fc.childrenStake p := by
    rw [childrenStake_of_relabel hin hout hsame, childrenStake_of_withLeaf hslot h₁ ht hkey]
  have hcandkey : fc₁.isCandidate key = pinfo.isCandidate := by
    rw [isCandidate_of_withLeaf hslot h₁, if_pos rfl, isCandidate_of_get hpinfo]
  have hbest_congr : ∀ c, fc'.IsBestIn (fc'.children p) c ↔ fc₁.IsBestIn (fc₁.children p) c := by
    intro c
    rw [hsame.children]
    exact isBestIn_congr_of (fun c _ => isCandidate_of_relabel hin hout c)
      (fun c _ => weight_of_relabel hin hout c)
  -- a candidate parent has a candidate child: the leaf
  have hnone : pinfo.isCandidate = true → ¬∀ c ∈ fc'.children p, fc'.isCandidate c = false :=
    fun hcand hall => by
      have := hall key (by rw [hsame.children, hchildren₁]; simp)
      rw [isCandidate_of_relabel hin hout, hcandkey, hcand] at this
      cases this
  have hleaf := isBestChild_leaf hkey₁ rfl rfl hb
  cases b with
  | true =>
    rw [hin p ⟨rfl, ht₁.propagated_self hpbs⟩, hp₁, Option.map_some, Option.some.injEq] at hk
    subst hk
    refine ⟨?_, fun hcand => ⟨fun hall => absurd hall (hnone hcand), fun c hc => ?_⟩, ?_⟩
    · rw [hstake]
      exact hpagg.subtree
    · -- the leaf beats every other candidate child: it is the best child
      have hkeybest : fc₁.IsBestIn (fc₁.children p) key :=
        ⟨by rw [hchildren₁]; simp, by rw [hcandkey]; exact hcand, hleaf.mp rfl⟩
      rw [((hbest_congr c).mp hc).unique hkeybest, bestSlot_of_not_relabel hout hnotkey,
        bestSlot_of_get hkey₁]
    · exact hsame.descends_iff.mpr (.of_parent hkeyp)
  | false =>
    have hnotp : ¬(false = true ∧ fc₁.Propagated pbs p p) := fun hS => Bool.false_ne_true hS.1
    rw [hout p hnotp, hp₁, Option.some.injEq] at hk
    subst hk
    refine ⟨?_, fun hcand => ⟨fun hall => absurd hall (hnone hcand), fun c hc => ?_⟩, ?_⟩
    · rw [hstake]
      exact hpagg.subtree
    · -- a candidate child the leaf does not beat beats it, and so does the old best child
      have hnot : ¬∀ c ∈ fc₁.children p, fc₁.isCandidate c = true → c ≠ key → fc₁.Beats key c :=
        fun hall => Bool.false_ne_true (hleaf.mpr hall)
      push Not at hnot
      obtain ⟨c₀, hc₀, hcand₀, hne₀, hnb⟩ := hnot
      have hc₀' : c₀ ∈ fc.children p := by
        rw [hchildren₁] at hc₀
        rcases List.mem_append.mp hc₀ with hc₀ | hc₀
        · exact hc₀
        · exact absurd (List.mem_singleton.mp hc₀) hne₀
      have hcand₀' : fc.isCandidate c₀ = true := by
        rwa [isCandidate_of_withLeaf hslot h₁, if_neg hne₀] at hcand₀
      obtain ⟨best₀, hbest₀⟩ := exists_isBestIn ⟨c₀, hc₀', hcand₀'⟩
      have hbest₀₁ : fc₁.IsBestIn (fc.children p) best₀ :=
        (isBestIn_withLeaf_iff hslot h₁ ht hkey).mpr hbest₀
      have hbeats₀ : fc₁.Beats c₀ key := (beats_or_beats hne₀).resolve_right hnb
      have hbest₀' : fc₁.IsBestIn (fc₁.children p) best₀ := by
        rw [hchildren₁]
        refine hbest₀₁.append_singleton fun _ _ => ?_
        by_cases h0 : c₀ = best₀
        · rw [← h0]
          exact hbeats₀
        · exact (hbest₀₁.2.2 c₀ hc₀' hcand₀ h0).trans hbeats₀
      rw [((hbest_congr c).mp hc).unique hbest₀',
        bestSlot_of_not_relabel hout fun hS => Bool.false_ne_true hS.1,
        bestSlot_of_withLeaf hslot h₁, if_neg (ne_of_isSome (ht.isSome_of_mem hbest₀.1) hkey)]
      exact (hpagg.best hcand).2 best₀ hbest₀
    · exact hsame.descends_iff.mpr (descends_of_withLeaf hslot h₁ hkey hpagg.descends)

end AddLeaf

/-- `add_new_leaf_slot` of a block under a block of an aggregated tree, at a later slot:
the tree stays a tree, aggregated, with the votes it had and no stake at the new block. -/
theorem Tree.addNewLeafSlot_spec (ht : fc.Tree) (hagg : ∀ k, fc.AggregatedAt k)
    {key p : SlotHashKey} (hslot : p.1 < key.1) (h : fc.addNewLeafSlot key (some p) = some fc') :
    fc'.Tree ∧ fc'.root = fc.root ∧ fc'.latestVotes = fc.latestVotes ∧ (∀ k, fc'.AggregatedAt k) ∧
      ∀ k, (fc'.get k).map (·.stakeVotedAt) =
        if fc.get k = none ∧ k = key then some 0 else (fc.get k).map (·.stakeVotedAt) := by
  rcases addNewLeafSlot_some h with ⟨hkey, rfl⟩ | ⟨hkey, fc₁, h₁, h₂⟩
  · -- the block is already in the tree: nothing changes
    refine ⟨ht, rfl, rfl, hagg, fun k => ?_⟩
    rw [if_neg]
    rintro ⟨hk, rfl⟩
    rw [hk] at hkey
    cases hkey
  · have ht₁ := Tree.withLeaf hslot h₁ ht hkey
    have hp₁ : (fc₁.get p).isSome := by
      rw [isSome_of_withLeaf hslot h₁, isSome_parent_of_withLeaf hslot h₁, Bool.true_or]
    obtain ⟨b, pbs, hb, hpbs, hsame, hvotes, hin, hout⟩ := ht₁.propagateNewLeaf_spec hp₁ h₂
    refine ⟨hsame.tree ht₁, hsame.root.trans (root_of_withLeaf h₁),
      hvotes.trans (latestVotes_of_withLeaf h₁), fun k info' hk => ?_, fun k => ?_⟩
    · -- the parent, the blocks the walk reaches, and the others
      by_cases hkp : k = p
      · subst hkp
        exact aggregated_parent_of_propagateNewLeaf ht hagg hslot hkey h₁ hsame hin hout hb hpbs hk
      · by_cases hS : b = true ∧ fc₁.Propagated pbs p k
        · exact aggregated_of_propagated ht hagg hslot hkey h₁ hsame hin hout hkp hS hk
        · exact aggregated_of_not_propagated ht hagg hslot hkey h₁ hsame hin hout hkp hS hk
    · rw [stakeVotedAt_of_relabel hin hout, stakeVotedAt_of_withLeaf hslot h₁]
      by_cases hk : k = key
      · simp [hk, hkey]
      · simp [hk]

end HeaviestSubtreeForkChoice

end Solana.Consensus
