import Solana.Consensus.ForkChoice

/-! The block tree of `HeaviestSubtreeForkChoice`: parent and child links that agree, slots
that grow away from the root, and the blocks `ancestors` and `subtree_diff` walk over. -/

namespace Solana.Consensus

namespace HeaviestSubtreeForkChoice

variable (fc : HeaviestSubtreeForkChoice)

/-- The children of a block; none for a block outside the tree. -/
def children (key : SlotHashKey) : List SlotHashKey := ((fc.get key).map (·.children)).getD []

/-- `key` is `a` or lies below it. -/
def Descends (a key : SlotHashKey) : Prop :=
  Relation.ReflTransGen (fun parent child => fc.parent child = some parent) a key

/-- The ancestors of `key`, nearest first, up to a block without a parent. -/
def IsAncestorChain : SlotHashKey → List SlotHashKey → Prop
  | key, [] => fc.parent key = none
  | key, a :: chain => fc.parent key = some a ∧ IsAncestorChain a chain

/-- The shape of `fork_infos`: a tree under `root` whose parent and child links agree and
whose slots grow away from the root. -/
structure Tree : Prop where
  root_mem : (fc.get fc.root).isSome
  parent_root : fc.parent fc.root = none
  eq_root : ∀ {key}, (fc.get key).isSome → fc.parent key = none → key = fc.root
  mem_children : ∀ {key p}, fc.parent key = some p → key ∈ fc.children p
  parent_of_mem : ∀ {key c}, c ∈ fc.children key → fc.parent c = some key
  slot_lt : ∀ {key p}, fc.parent key = some p → p.1 < key.1
  nodup_children : ∀ key, (fc.children key).Nodup

/-- Two states of one tree: the same blocks, links and root. -/
structure SameTree (fc' : HeaviestSubtreeForkChoice) : Prop where
  root : fc'.root = fc.root
  isSome : ∀ key, (fc'.get key).isSome = (fc.get key).isSome
  parent : ∀ key, fc'.parent key = fc.parent key
  children : ∀ key, fc'.children key = fc.children key

variable {fc}

@[simp] theorem get_mk (forkInfos : List (SlotHashKey × ForkInfo))
    (latestVotes : List (Pubkey × SlotHashKey)) (root key : SlotHashKey) :
    (⟨forkInfos, latestVotes, root⟩ : HeaviestSubtreeForkChoice).get key =
      Map.get forkInfos key := rfl

theorem parent_eq_some_iff {key p : SlotHashKey} :
    fc.parent key = some p ↔ ∃ info, fc.get key = some info ∧ info.parent = some p := by
  simp [parent, Option.bind_eq_some_iff]

theorem parent_of_get {key : SlotHashKey} {info : ForkInfo} (h : fc.get key = some info) :
    fc.parent key = info.parent := by
  simp [parent, h]

theorem children_of_get {key : SlotHashKey} {info : ForkInfo} (h : fc.get key = some info) :
    fc.children key = info.children := by
  simp [children, h]

theorem parent_of_get_none {key : SlotHashKey} (h : fc.get key = none) : fc.parent key = none := by
  simp [parent, h]

theorem children_of_get_none {key : SlotHashKey} (h : fc.get key = none) : fc.children key = [] := by
  simp [children, h]

theorem isSome_of_parent {key p : SlotHashKey} (h : fc.parent key = some p) :
    (fc.get key).isSome := by
  obtain ⟨info, hinfo, -⟩ := parent_eq_some_iff.mp h
  simp [hinfo]

theorem isSome_of_mem_children {key c : SlotHashKey} (h : c ∈ fc.children key) :
    (fc.get key).isSome := by
  cases hget : fc.get key with
  | none => simp [children_of_get_none hget] at h
  | some info => rfl

/-- A block of the tree is not one outside it. -/
theorem ne_of_isSome {x key : SlotHashKey} (hx : (fc.get x).isSome) (hkey : fc.get key = none) :
    x ≠ key := by
  rintro rfl
  rw [hkey] at hx
  cases hx

theorem get_of_modifyInfo {key : SlotHashKey} {f : ForkInfo → ForkInfo}
    {fc' : HeaviestSubtreeForkChoice} (h : fc.modifyInfo key f = some fc') (x : SlotHashKey) :
    fc'.get x = if x = key then (fc.get key).map f else fc.get x := by
  obtain ⟨forkInfos, hmodify, rfl⟩ := Option.map_eq_some_iff.mp h
  obtain ⟨info, hinfo, rfl⟩ := Option.map_eq_some_iff.mp hmodify
  have hget : fc.get key = some info := hinfo
  by_cases hx : x = key
  · simp [hx, hget]
  · simp [hx, get]

theorem isSome_of_modifyInfo {key : SlotHashKey} {f : ForkInfo → ForkInfo}
    {fc' : HeaviestSubtreeForkChoice} (h : fc.modifyInfo key f = some fc') : (fc.get key).isSome := by
  obtain ⟨forkInfos, hmodify, -⟩ := Option.map_eq_some_iff.mp h
  obtain ⟨info, hinfo, -⟩ := Option.map_eq_some_iff.mp hmodify
  have hget : fc.get key = some info := hinfo
  simp [hget]

theorem root_of_modifyInfo {key : SlotHashKey} {f : ForkInfo → ForkInfo}
    {fc' : HeaviestSubtreeForkChoice} (h : fc.modifyInfo key f = some fc') : fc'.root = fc.root := by
  obtain ⟨forkInfos, -, rfl⟩ := Option.map_eq_some_iff.mp h
  rfl

/-- A change to one entry that keeps its links keeps the tree. -/
theorem sameTree_of_modifyInfo {key : SlotHashKey} {f : ForkInfo → ForkInfo}
    {fc' : HeaviestSubtreeForkChoice}
    (hf : ∀ info, (f info).parent = info.parent ∧ (f info).children = info.children)
    (h : fc.modifyInfo key f = some fc') : fc.SameTree fc' := by
  have hget := get_of_modifyInfo h
  refine ⟨root_of_modifyInfo h, fun x => ?_, fun x => ?_, fun x => ?_⟩
  · rw [hget]
    split_ifs with hx
    · subst hx
      cases fc.get x <;> rfl
    · rfl
  · simp only [parent, hget]
    split_ifs with hx
    · subst hx
      cases fc.get x <;> simp [hf]
    · rfl
  · simp only [children, hget]
    split_ifs with hx
    · subst hx
      cases fc.get x <;> simp [hf]
    · rfl

namespace SameTree

variable {fc' fc'' : HeaviestSubtreeForkChoice}

theorem refl (fc : HeaviestSubtreeForkChoice) : fc.SameTree fc := ⟨rfl, fun _ => rfl, fun _ => rfl, fun _ => rfl⟩

theorem trans (h : fc.SameTree fc') (h' : fc'.SameTree fc'') : fc.SameTree fc'' :=
  ⟨h'.root.trans h.root, fun key => (h'.isSome key).trans (h.isSome key),
    fun key => (h'.parent key).trans (h.parent key),
    fun key => (h'.children key).trans (h.children key)⟩

theorem descends_iff (h : fc.SameTree fc') {a key : SlotHashKey} :
    fc'.Descends a key ↔ fc.Descends a key := by
  simp only [Descends, h.parent]

theorem tree (h : fc.SameTree fc') (ht : fc.Tree) : fc'.Tree where
  root_mem := by rw [h.root, h.isSome]; exact ht.root_mem
  parent_root := by rw [h.root, h.parent]; exact ht.parent_root
  eq_root hkey hparent := by
    rw [h.isSome] at hkey
    rw [h.parent] at hparent
    rw [h.root]
    exact ht.eq_root hkey hparent
  mem_children hp := by
    rw [h.parent] at hp
    rw [h.children]
    exact ht.mem_children hp
  parent_of_mem hc := by
    rw [h.children] at hc
    rw [h.parent]
    exact ht.parent_of_mem hc
  slot_lt hp := by
    rw [h.parent] at hp
    exact ht.slot_lt hp
  nodup_children key := by
    rw [h.children]
    exact ht.nodup_children key

end SameTree

namespace Descends

variable {a b key p : SlotHashKey}

theorem refl (a : SlotHashKey) : fc.Descends a a := Relation.ReflTransGen.refl

theorem trans (hab : fc.Descends a b) (hbk : fc.Descends b key) : fc.Descends a key :=
  Relation.ReflTransGen.trans hab hbk

theorem of_parent (h : fc.parent key = some p) : fc.Descends p key :=
  Relation.ReflTransGen.single h

theorem tail (hap : fc.Descends a p) (h : fc.parent key = some p) : fc.Descends a key :=
  Relation.ReflTransGen.tail hap h

theorem parent_of_ne (h : fc.Descends a key) (hne : a ≠ key) :
    ∃ p, fc.parent key = some p ∧ fc.Descends a p := by
  rcases h.cases_tail with rfl | ⟨p, hap, hp⟩
  · exact absurd rfl hne
  · exact ⟨p, hp, hap⟩

/-- A walk down the tree that only passes blocks whose links are kept is kept. -/
theorem mono {fc' : HeaviestSubtreeForkChoice} (h : fc.Descends a key)
    (hkeep : ∀ y, fc.Descends a y → y ≠ a → fc'.parent y = fc.parent y) :
    fc'.Descends a key := by
  induction h with
  | refl => exact refl a
  | @tail y z hay hz ih =>
    by_cases hza : z = a
    · subst hza
      exact refl z
    · exact ih.tail ((hkeep z (hay.tail hz) hza).trans hz)

end Descends

namespace Tree

variable (ht : fc.Tree)
include ht

theorem isSome_of_parent_eq {key p : SlotHashKey} (h : fc.parent key = some p) :
    (fc.get p).isSome :=
  isSome_of_mem_children (ht.mem_children h)

theorem isSome_of_mem {key c : SlotHashKey} (h : c ∈ fc.children key) : (fc.get c).isSome :=
  isSome_of_parent (ht.parent_of_mem h)

theorem slot_le_of_descends {a key : SlotHashKey} (h : fc.Descends a key) : a.1 ≤ key.1 := by
  induction h with
  | refl => exact le_rfl
  | tail _ hp ih => exact ih.trans (ht.slot_lt hp).le

theorem slot_lt_of_descends {a key : SlotHashKey} (h : fc.Descends a key) (hne : a ≠ key) :
    a.1 < key.1 := by
  obtain ⟨p, hp, hap⟩ := h.parent_of_ne hne
  exact (ht.slot_le_of_descends hap).trans_lt (ht.slot_lt hp)

theorem descends_antisymm {a b : SlotHashKey} (hab : fc.Descends a b) (hba : fc.Descends b a) :
    a = b := by
  by_contra hne
  exact absurd (ht.slot_le_of_descends hba) (not_le.mpr (ht.slot_lt_of_descends hab hne))

/-- A block above the root is the root. -/
theorem eq_root_of_descends {a : SlotHashKey} (h : fc.Descends a fc.root) : a = fc.root := by
  by_contra hne
  obtain ⟨p, hp, -⟩ := h.parent_of_ne hne
  rw [ht.parent_root] at hp
  cases hp

omit ht in
/-- The blocks above one block lie on one chain: each is above the other. -/
theorem descends_total {a b x : SlotHashKey} (ha : fc.Descends a x) (hb : fc.Descends b x) :
    fc.Descends a b ∨ fc.Descends b a := by
  have hunique : Relator.RightUnique
      (Function.swap fun parent child => fc.parent child = some parent) := by
    intro y p q hp hq
    exact Option.some.inj (hp.symm.trans hq)
  rcases Relation.ReflTransGen.total_of_right_unique hunique
    (Relation.reflTransGen_swap.mpr ha) (Relation.reflTransGen_swap.mpr hb) with h | h
  · exact .inr (Relation.reflTransGen_swap.mp h)
  · exact .inl (Relation.reflTransGen_swap.mp h)

/-- Two children of one block have disjoint subtrees. -/
theorem eq_of_mem_children_of_descends {n c c' x : SlotHashKey} (hc : c ∈ fc.children n)
    (hc' : c' ∈ fc.children n) (hx : fc.Descends c x) (hx' : fc.Descends c' x) : c = c' := by
  have hbelow : ∀ {d d'}, d ∈ fc.children n → d' ∈ fc.children n → fc.Descends d d' → d = d' := by
    intro d d' hd hd' hdd'
    by_contra hne
    obtain ⟨q, hq, hdq⟩ := hdd'.parent_of_ne hne
    rw [ht.parent_of_mem hd', Option.some.injEq] at hq
    subst hq
    exact absurd (ht.slot_le_of_descends hdq) (not_le.mpr (ht.slot_lt (ht.parent_of_mem hd)))
  rcases descends_total hx hx' with h | h
  · exact hbelow hc hc' h
  · exact (hbelow hc' hc h).symm

/-- The child of `n` on the way down to a block below `n`. -/
theorem exists_child_of_descends {n x : SlotHashKey} (h : fc.Descends n x) (hne : n ≠ x) :
    ∃ c ∈ fc.children n, fc.Descends c x := by
  induction h with
  | refl => exact absurd rfl hne
  | @tail y z hny hz ih =>
    by_cases hy : n = y
    · subst hy
      exact ⟨z, ht.mem_children hz, .refl z⟩
    · obtain ⟨c, hc, hcy⟩ := ih hy
      exact ⟨c, hc, hcy.tail hz⟩

omit ht in
/-- Distinct blocks of the map are no more than its entries. -/
theorem length_le_of_nodup {l : List SlotHashKey} (hnodup : l.Nodup)
    (hmem : ∀ k ∈ l, (fc.get k).isSome) : l.length ≤ fc.forkInfos.length := by
  have hsub : l ⊆ fc.forkInfos.map Prod.fst := by
    intro k hk
    obtain ⟨info, hinfo⟩ := Option.isSome_iff_exists.mp (hmem k hk)
    simp only [get, Map.get, Option.map_eq_some_iff] at hinfo
    obtain ⟨entry, hentry, -⟩ := hinfo
    exact List.mem_map.mpr ⟨entry, List.mem_of_find?_eq_some hentry, by
      simpa using List.find?_some hentry⟩
  simpa using (hnodup.subperm hsub).length_le

end Tree

theorem ancestorsUpTo_isChain : ∀ (fuel : ℕ) (key : SlotHashKey),
    (key :: fc.ancestorsUpTo fuel key).IsChain fun a b => fc.parent a = some b
  | 0, key => by simp [ancestorsUpTo]
  | fuel + 1, key => by
    cases hp : fc.parent key with
    | none => simp [ancestorsUpTo, hp]
    | some p =>
      simp only [ancestorsUpTo, hp]
      exact List.isChain_cons_cons.mpr ⟨hp, ancestorsUpTo_isChain fuel p⟩

/-- The walk up either runs out of fuel or reaches a block without a parent. -/
theorem ancestorsUpTo_length_or_chain : ∀ (fuel : ℕ) (key : SlotHashKey),
    (fc.ancestorsUpTo fuel key).length = fuel ∨ fc.IsAncestorChain key (fc.ancestorsUpTo fuel key)
  | 0, key => by simp [ancestorsUpTo]
  | fuel + 1, key => by
    cases hp : fc.parent key with
    | none => simp [ancestorsUpTo, hp, IsAncestorChain]
    | some p =>
      simp only [ancestorsUpTo, hp, List.length_cons, Nat.add_right_cancel_iff]
      exact (ancestorsUpTo_length_or_chain fuel p).imp_right fun h => ⟨hp, h⟩

theorem Tree.pairwise_of_isChain (ht : fc.Tree) {l : List SlotHashKey}
    (h : l.IsChain fun a b => fc.parent a = some b) : l.Pairwise fun a b => b.1 < a.1 := by
  have hslots : l.IsChain fun a b => b.1 < a.1 := h.imp fun _ _ hp => ht.slot_lt hp
  exact hslots.pairwise

theorem Tree.isSome_of_isChain (ht : fc.Tree) {key : SlotHashKey} {l : List SlotHashKey}
    (h : (key :: l).IsChain fun a b => fc.parent a = some b) : ∀ a ∈ l, (fc.get a).isSome := by
  induction l generalizing key with
  | nil => simp
  | cons b l ih =>
    obtain ⟨hb, hl⟩ := List.isChain_cons_cons.mp h
    intro a ha
    rcases List.mem_cons.mp ha with rfl | ha
    · exact ht.isSome_of_parent_eq hb
    · exact ih hl a ha

/-- `ancestors` is the whole chain of ancestors: the map has more entries than the chain
has links. -/
theorem Tree.isAncestorChain_ancestors (ht : fc.Tree) (key : SlotHashKey) :
    fc.IsAncestorChain key (fc.ancestors key) := by
  cases hget : fc.get key with
  | none =>
    have hancestors : fc.ancestors key = [] := by
      unfold ancestors
      cases fc.forkInfos.length <;> simp [ancestorsUpTo, parent_of_get_none hget]
    rw [hancestors]
    exact parent_of_get_none hget
  | some info =>
    refine (ancestorsUpTo_length_or_chain _ key).resolve_left fun hlen => ?_
    have hchain := @ancestorsUpTo_isChain fc fc.forkInfos.length key
    have hnodup : (key :: fc.ancestors key).Nodup :=
      (ht.pairwise_of_isChain hchain).imp fun hlt heq => by subst heq; exact lt_irrefl _ hlt
    have hmem : ∀ k ∈ key :: fc.ancestors key, (fc.get k).isSome := by
      intro k hk
      rcases List.mem_cons.mp hk with rfl | hk
      · simp [hget]
      · exact ht.isSome_of_isChain hchain k hk
    have hle := Tree.length_le_of_nodup hnodup hmem
    simp only [ancestors, List.length_cons] at hle hlen
    omega

theorem IsAncestorChain.pairwise (ht : fc.Tree) :
    ∀ {key : SlotHashKey} {l : List SlotHashKey}, fc.IsAncestorChain key l →
      (key :: l).Pairwise fun a b => b.1 < a.1
  | _, [], _ => List.pairwise_singleton _ _
  | _, a :: _, ⟨hp, hl⟩ => by
    have ih := IsAncestorChain.pairwise ht hl
    refine List.pairwise_cons.mpr ⟨fun b hb => ?_, ih⟩
    rcases List.mem_cons.mp hb with rfl | hb
    · exact ht.slot_lt hp
    · exact ((List.pairwise_cons.mp ih).1 b hb).trans (ht.slot_lt hp)

theorem IsAncestorChain.isSome (ht : fc.Tree) :
    ∀ {key : SlotHashKey} {l : List SlotHashKey}, fc.IsAncestorChain key l →
      ∀ a ∈ l, (fc.get a).isSome
  | _, [], _ => by simp
  | _, b :: _, ⟨hp, hl⟩ => by
    intro a ha
    rcases List.mem_cons.mp ha with rfl | ha
    · exact ht.isSome_of_parent_eq hp
    · exact IsAncestorChain.isSome ht hl a ha

variable (fc) in
/-- The state of the walk of `subtree_diff` from `start`, with `popped` the blocks taken off
the stack so far: no block twice, each one the start or pushed by a popped parent other than
`root2`, and the children of each popped block other than `root2` pushed. -/
structure SubtreeWalk (start root2 : SlotHashKey) (stack popped : List SlotHashKey) : Prop where
  nodup : (popped ++ stack).Nodup
  pushed : ∀ y ∈ popped ++ stack, (fc.get y).isSome ∧ fc.Descends start y ∧
    (y = start ∨ ∃ x ∈ popped, x ≠ root2 ∧ fc.parent y = some x)
  closed : ∀ x ∈ popped, x ≠ root2 → ∀ c ∈ fc.children x, c ∈ popped ++ stack

namespace SubtreeWalk

variable {start root2 current : SlotHashKey} {pending popped : List SlotHashKey}

theorem not_mem (hw : fc.SubtreeWalk start root2 (current :: pending) popped) :
    current ∉ popped :=
  fun hmem => (List.nodup_append.mp hw.nodup).2.2 current hmem current (by simp) rfl

/-- Popping `root2` pushes nothing. -/
theorem skip (hw : fc.SubtreeWalk start root2 (root2 :: pending) popped) :
    fc.SubtreeWalk start root2 pending (popped ++ [root2]) where
  nodup := by simpa using hw.nodup
  pushed y hy := by
    obtain ⟨hy₁, hy₂, hy₃⟩ := hw.pushed y (by simpa using hy)
    exact ⟨hy₁, hy₂, hy₃.imp_right (Exists.imp fun _ hx => ⟨by simp [hx.1], hx.2⟩)⟩
  closed x hx hne c hc := by
    have hx' : x ∈ popped := by simpa [hne] using hx
    simpa using hw.closed x hx' hne c hc

end SubtreeWalk

/-- Popping a block other than `root2` pushes its children, none of them pushed before. -/
theorem Tree.subtreeWalk_pop (ht : fc.Tree) {start root2 current : SlotHashKey}
    {pending popped : List SlotHashKey} (hw : fc.SubtreeWalk start root2 (current :: pending) popped)
    (hroot2 : current ≠ root2) {info : ForkInfo} (hinfo : fc.get current = some info) :
    fc.SubtreeWalk start root2 (info.children.reverse ++ pending) (popped ++ [current]) := by
  have hcurrent := hw.pushed current (by simp)
  have hnotmem := hw.not_mem
  have hchildren : fc.children current = info.children := children_of_get hinfo
  -- a child of `current` was never pushed: its parent was never popped
  have hfresh : ∀ c ∈ info.children, c ∉ popped ++ current :: pending := by
    intro c hc hmem
    have hparent : fc.parent c = some current := ht.parent_of_mem (hchildren ▸ hc)
    rcases (hw.pushed c hmem).2.2 with rfl | ⟨x, hx, -, hxc⟩
    · have hup : fc.Descends current c := .of_parent hparent
      have heq := ht.descends_antisymm hcurrent.2.1 hup
      subst heq
      exact absurd (ht.slot_lt hparent) (lt_irrefl _)
    · rw [hparent, Option.some.injEq] at hxc
      subst hxc
      exact hnotmem hx
  refine ⟨?_, fun y hy => ?_, fun x hx hne c hc => ?_⟩
  · have hc := ht.nodup_children current
    rw [hchildren] at hc
    have hpend := (List.nodup_cons.mp (List.nodup_append.mp hw.nodup).2.1)
    refine List.nodup_append.mpr ⟨?_, List.nodup_append.mpr ⟨List.nodup_reverse.mpr hc,
      hpend.2, fun a ha b hb hab => ?_⟩, fun a ha b hb hab => ?_⟩
    · exact List.nodup_append.mpr ⟨(List.nodup_append.mp hw.nodup).1, by simp,
        fun a ha b hb hab => by
          simp only [List.mem_singleton] at hb
          subst hb hab
          exact hnotmem ha⟩
    · subst hab
      exact hfresh a (List.mem_reverse.mp ha) (by simp [hb])
    · subst hab
      rcases List.mem_append.mp hb with hb | hb
      · refine hfresh a (List.mem_reverse.mp hb) ?_
        simp only [List.mem_append, List.mem_singleton] at ha
        simp only [List.mem_append, List.mem_cons]
        tauto
      · rcases List.mem_append.mp ha with ha | ha
        · exact (List.nodup_append.mp hw.nodup).2.2 a ha a (by simp [hb]) rfl
        · simp only [List.mem_singleton] at ha
          subst ha
          exact hpend.1 hb
  · rcases List.mem_append.mp hy with hy | hy
    · obtain ⟨hy₁, hy₂, hy₃⟩ := hw.pushed y (by
        simp only [List.mem_append, List.mem_singleton] at hy
        simp only [List.mem_append, List.mem_cons]
        tauto)
      exact ⟨hy₁, hy₂, hy₃.imp_right (Exists.imp fun _ hx => ⟨by simp [hx.1], hx.2⟩)⟩
    · rcases List.mem_append.mp hy with hy | hy
      · have hc : y ∈ fc.children current := hchildren ▸ List.mem_reverse.mp hy
        have hparent := ht.parent_of_mem hc
        exact ⟨ht.isSome_of_mem hc, hcurrent.2.1.tail hparent,
          .inr ⟨current, by simp, hroot2, hparent⟩⟩
      · obtain ⟨hy₁, hy₂, hy₃⟩ := hw.pushed y (by simp [hy])
        exact ⟨hy₁, hy₂, hy₃.imp_right (Exists.imp fun _ hx => ⟨by simp [hx.1], hx.2⟩)⟩
  · rcases List.mem_append.mp hx with hx | hx
    · have := hw.closed x hx hne c hc
      simp only [List.mem_append, List.mem_cons] at this
      simp only [List.mem_append, List.mem_singleton, List.mem_reverse]
      tauto
    · simp only [List.mem_singleton] at hx
      subst hx
      simp [← hchildren, hc]

/-- The walk of `subtree_diff` ends with every block it pushed popped; each block is pushed
once, so the map bounds the pops and the fuel suffices. -/
theorem Tree.subtreeDiffLoop_spec (ht : fc.Tree) {root2 start : SlotHashKey} :
    ∀ (fuel : ℕ) (stack popped : List SlotHashKey) {result : List SlotHashKey},
      fc.SubtreeWalk start root2 stack popped →
      fc.forkInfos.length + 1 ≤ fuel + popped.length →
      fc.subtreeDiffLoop root2 fuel stack (popped.filter (· ≠ root2)) = some result →
      ∃ popped' : List SlotHashKey, result = popped'.filter (· ≠ root2) ∧
        (∀ y ∈ popped ++ stack, y ∈ popped') ∧ fc.SubtreeWalk start root2 [] popped'
  | 0, stack, popped, result, hw, hfuel, _ => by
    have hle := Tree.length_le_of_nodup (List.nodup_append.mp hw.nodup).1
      fun y hy => (hw.pushed y (List.mem_append_left stack hy)).1
    omega
  | fuel + 1, [], popped, result, hw, _, h => by
    simp only [subtreeDiffLoop, Option.some.injEq] at h
    subst h
    exact ⟨popped, rfl, fun y hy => by simpa using hy, hw⟩
  | fuel + 1, current :: pending, popped, result, hw, hfuel, h => by
    by_cases hroot2 : current = root2
    · -- `root2` is popped and its subtree left out
      simp only [subtreeDiffLoop, hroot2, if_true] at h
      have hfilter : (popped ++ [root2]).filter (· ≠ root2) = popped.filter (· ≠ root2) := by
        simp
      rw [← hfilter] at h
      subst hroot2
      obtain ⟨popped', hresult, hsub, hw'⟩ := ht.subtreeDiffLoop_spec fuel pending _ hw.skip
        (by simp only [List.length_append, List.length_singleton]; omega) h
      exact ⟨popped', hresult, fun y hy => hsub y (by simpa using hy), hw'⟩
    · obtain ⟨info, hinfo⟩ := Option.isSome_iff_exists.mp (hw.pushed current (by simp)).1
      have hreach : current ∉ popped.filter (· ≠ root2) := by simp [hw.not_mem]
      have hfilter : popped.filter (· ≠ root2) ++ [current] =
          (popped ++ [current]).filter (· ≠ root2) := by simp [hroot2]
      simp only [subtreeDiffLoop, hroot2, if_false, hinfo, hreach, Option.bind_eq_bind,
        Option.bind_some, hfilter] at h
      obtain ⟨popped', hresult, hsub, hw'⟩ := ht.subtreeDiffLoop_spec fuel _ _
        (ht.subtreeWalk_pop hw hroot2 hinfo)
        (by simp only [List.length_append, List.length_singleton]; omega) h
      exact ⟨popped', hresult, fun y hy => hsub y (by
          simp only [List.mem_append, List.mem_cons] at hy ⊢
          tauto), hw'⟩

/-- What `subtree_diff` returns from a block of the tree: the blocks it popped, without
`root2`; every popped block is the start or a child of a popped block other than `root2`,
and every child of such a block is popped. -/
theorem Tree.subtreeDiff_spec (ht : fc.Tree) {root1 root2 : SlotHashKey} {result : List SlotHashKey}
    (hroot1 : (fc.get root1).isSome) (h : fc.subtreeDiff root1 root2 = some result) :
    ∃ popped : List SlotHashKey, result = popped.filter (· ≠ root2) ∧ popped.Nodup ∧ root1 ∈ popped ∧
      (∀ y ∈ popped, (fc.get y).isSome ∧
        (y = root1 ∨ ∃ x ∈ popped, x ≠ root2 ∧ fc.parent y = some x)) ∧
      (∀ x ∈ popped, x ≠ root2 → ∀ c ∈ fc.children x, c ∈ popped) := by
  have hnone : (fc.get root1).isNone = false := by simpa using hroot1
  simp only [subtreeDiff, hnone, Bool.false_eq_true, if_false] at h
  have hstart : fc.SubtreeWalk root1 root2 [root1] [] :=
    ⟨by simp, by simp [hroot1, Descends.refl], by simp⟩
  obtain ⟨popped, hresult, hsub, hw⟩ :=
    ht.subtreeDiffLoop_spec (fc.forkInfos.length + 1) [root1] [] hstart (by simp) (by simpa using h)
  refine ⟨popped, hresult, by simpa using hw.nodup, hsub root1 (by simp), fun y hy => ?_,
    fun x hx hne c hc => by simpa using hw.closed x hx hne c hc⟩
  have hy' := hw.pushed y (by simpa using hy)
  exact ⟨hy'.1, hy'.2.2⟩

/-- `subtree_diff(root, new_root)` is every block of the tree outside the subtree of
`new_root`. -/
theorem Tree.mem_subtreeDiff_root (ht : fc.Tree) {newRoot x : SlotHashKey}
    {removeSet : List SlotHashKey} (h : fc.subtreeDiff fc.root newRoot = some removeSet) :
    x ∈ removeSet ↔ (fc.get x).isSome ∧ ¬fc.Descends newRoot x := by
  obtain ⟨popped, rfl, -, hroot, hpushed, hclosed⟩ := ht.subtreeDiff_spec ht.root_mem h
  have houtside : ∀ n, ∀ y ∈ popped, y.1 < n → y ≠ newRoot → ¬fc.Descends newRoot y := by
    intro n
    induction n with
    | zero => intro y _ hy; omega
    | succ n ih =>
      intro y hy hslot hne hdesc
      rcases (hpushed y hy).2 with rfl | ⟨p, hp, hpne, hparent⟩
      · exact hne (ht.eq_root_of_descends hdesc).symm
      · obtain ⟨q, hq, hdesc'⟩ := hdesc.parent_of_ne (Ne.symm hne)
        rw [hparent, Option.some.injEq] at hq
        subst hq
        exact ih p hp (by have := ht.slot_lt hparent; omega) hpne hdesc'
  have hinside : ∀ n, ∀ y, y.1 < n → (fc.get y).isSome → ¬fc.Descends newRoot y → y ∈ popped := by
    intro n
    induction n with
    | zero => intro y hy; omega
    | succ n ih =>
      intro y hslot hy hdesc
      by_cases hyroot : y = fc.root
      · exact hyroot ▸ hroot
      · cases hparent : fc.parent y with
        | none => exact absurd (ht.eq_root hy hparent) hyroot
        | some p =>
          have hp : ¬fc.Descends newRoot p := fun hp => hdesc (hp.tail hparent)
          have hpmem := ih p (by have := ht.slot_lt hparent; omega) (ht.isSome_of_parent_eq hparent) hp
          have hpne : p ≠ newRoot := fun heq => hp (heq ▸ Descends.refl p)
          exact hclosed p hpmem hpne y (ht.mem_children hparent)
  simp only [List.mem_filter, decide_eq_true_eq]
  constructor
  · rintro ⟨hx, hne⟩
    exact ⟨(hpushed x hx).1, houtside (x.1 + 1) x hx (Nat.lt_succ_self _) hne⟩
  · rintro ⟨hx, hdesc⟩
    refine ⟨hinside (x.1 + 1) x (Nat.lt_succ_self _) hx hdesc, fun heq => ?_⟩
    subst heq
    exact hdesc (Descends.refl x)

/-- The subtree `subtree_diff(key, _)` returns: distinct blocks of the tree, each `key` or
a child of one of them. -/
theorem Tree.subtreeDiff_closed (ht : fc.Tree) {key root2 : SlotHashKey}
    {subtree : List SlotHashKey} (h : fc.subtreeDiff key root2 = some subtree) :
    subtree.Nodup ∧ ∀ y ∈ subtree, (fc.get y).isSome ∧
      (y = key ∨ ∃ x ∈ subtree, fc.parent y = some x) := by
  cases hkey : fc.get key with
  | none =>
    simp [subtreeDiff, hkey] at h
    subst h
    simp
  | some info =>
    obtain ⟨popped, rfl, hnodup, -, hpushed, -⟩ := ht.subtreeDiff_spec (by simp [hkey]) h
    refine ⟨hnodup.filter _, fun y hy => ?_⟩
    simp only [List.mem_filter, decide_eq_true_eq] at hy
    obtain ⟨hy₁, hy₂⟩ := hpushed y hy.1
    exact ⟨hy₁, hy₂.imp_right (Exists.imp fun _ hx => ⟨by simp [hx.1, hx.2.1], hx.2.2⟩)⟩

theorem parent_eq_of_get_eq {fc' : HeaviestSubtreeForkChoice} {x : SlotHashKey}
    (h : fc'.get x = fc.get x) : fc'.parent x = fc.parent x := by
  simp [parent, h]

theorem children_eq_of_get_eq {fc' : HeaviestSubtreeForkChoice} {x : SlotHashKey}
    (h : fc'.get x = fc.get x) : fc'.children x = fc.children x := by
  simp [children, h]

/-! ## The operations that change the tree -/

variable (fc) in
/-- The tree `add_new_leaf_slot` builds before it propagates the best slot: the leaf under
its parent. -/
def withLeaf (key parent : SlotHashKey) : Option HeaviestSubtreeForkChoice :=
  ({ fc with forkInfos := (Map.insert fc.forkInfos key
      ⟨0, 0, key, some parent, [], fc.latestInvalidAncestor parent, false⟩) }).modifyInfo parent
    fun info => { info with children := info.children ++ [key] }

theorem addNewLeafSlot_some {key parent : SlotHashKey} {fc' : HeaviestSubtreeForkChoice}
    (h : fc.addNewLeafSlot key (some parent) = some fc') :
    (fc.get key).isSome ∧ fc' = fc ∨ fc.get key = none ∧
      ∃ fc₁, fc.withLeaf key parent = some fc₁ ∧ fc₁.propagateNewLeaf key parent = some fc' := by
  unfold addNewLeafSlot at h
  split_ifs at h with hkey
  · exact .inl ⟨hkey, (Option.some.inj h).symm⟩
  · simp only [Option.bind_eq_bind, Option.bind_eq_some_iff] at h
    obtain ⟨fc₁, h₁, h₂⟩ := h
    exact .inr ⟨by simpa using hkey, fc₁, h₁, h₂⟩

section withLeaf

variable {key parent : SlotHashKey} {fc₁ : HeaviestSubtreeForkChoice}
  (hslot : parent.1 < key.1) (h : fc.withLeaf key parent = some fc₁)
include hslot h

theorem get_of_withLeaf (x : SlotHashKey) :
    fc₁.get x = if x = parent then
        (fc.get parent).map fun info => { info with children := info.children ++ [key] }
      else if x = key then some ⟨0, 0, key, some parent, [], fc.latestInvalidAncestor parent, false⟩
      else fc.get x := by
  have hne : parent ≠ key := ne_of_apply_ne Prod.fst hslot.ne
  rw [get_of_modifyInfo h]
  by_cases hx : x = parent
  · simp [hx, hne, get]
  · simp [hx, get]

theorem isSome_parent_of_withLeaf : (fc.get parent).isSome := by
  have hne : parent ≠ key := ne_of_apply_ne Prod.fst hslot.ne
  have := isSome_of_modifyInfo h
  simpa [hne, get] using this

omit hslot in
theorem root_of_withLeaf : fc₁.root = fc.root := by
  unfold withLeaf at h
  have hroot := root_of_modifyInfo h
  exact hroot

omit hslot in
theorem latestVotes_of_withLeaf : fc₁.latestVotes = fc.latestVotes := by
  unfold withLeaf at h
  have hvotes := modifyInfo_latestVotes _ h
  exact hvotes

theorem parent_of_withLeaf (x : SlotHashKey) :
    fc₁.parent x = if x = key then some parent else fc.parent x := by
  have hne : parent ≠ key := ne_of_apply_ne Prod.fst hslot.ne
  simp only [HeaviestSubtreeForkChoice.parent, get_of_withLeaf hslot h]
  by_cases hx : x = parent
  · subst hx
    cases fc.get x <;> simp [hne]
  · by_cases hxk : x = key <;> simp [hx, hxk, Ne.symm hne]

theorem children_of_withLeaf (hkey : fc.get key = none) (x : SlotHashKey) :
    fc₁.children x = if x = parent then fc.children parent ++ [key] else fc.children x := by
  have hne : parent ≠ key := ne_of_apply_ne Prod.fst hslot.ne
  have hpmem := isSome_parent_of_withLeaf hslot h
  simp only [children, get_of_withLeaf hslot h]
  by_cases hx : x = parent
  · subst hx
    obtain ⟨info, hinfo⟩ := Option.isSome_iff_exists.mp hpmem
    simp [hinfo]
  · by_cases hxk : x = key <;> simp [hx, hxk, hkey, Ne.symm hne]

theorem isSome_of_withLeaf (x : SlotHashKey) :
    (fc₁.get x).isSome = ((fc.get x).isSome || decide (x = key)) := by
  have hne : parent ≠ key := ne_of_apply_ne Prod.fst hslot.ne
  have hpmem := isSome_parent_of_withLeaf hslot h
  rw [get_of_withLeaf hslot h]
  by_cases hx : x = parent
  · subst hx
    simp [hne, hpmem]
  · by_cases hxk : x = key <;> simp [hx, hxk, Ne.symm hne]

/-- A new leaf under a block of the tree, at a later slot, keeps the tree. -/
theorem Tree.withLeaf (ht : fc.Tree) (hkey : fc.get key = none) : fc₁.Tree := by
  have hparent := parent_of_withLeaf hslot h
  have hchildren := children_of_withLeaf hslot h hkey
  have hisSome := isSome_of_withLeaf hslot h
  have hkeyfresh : ∀ y, y ∈ fc.children parent → y ≠ key := fun y hy =>
    ne_of_isSome (ht.isSome_of_mem hy) hkey
  have hroot : fc.root ≠ key := ne_of_isSome ht.root_mem hkey
  refine ⟨?_, ?_, ?_, ?_, ?_, ?_, ?_⟩
  · rw [root_of_withLeaf h, hisSome]
    simp [ht.root_mem]
  · rw [root_of_withLeaf h, hparent, if_neg hroot]
    exact ht.parent_root
  · intro x hx hnone
    rw [hisSome] at hx
    rw [hparent] at hnone
    rw [root_of_withLeaf h]
    split_ifs at hnone with hxk
    simp only [hxk, decide_false, Bool.or_false] at hx
    exact ht.eq_root hx hnone
  · intro x p hp
    rw [hparent] at hp
    rw [hchildren]
    split_ifs at hp with hxk
    · cases hp
      simp [hxk]
    · split_ifs with hpk
      · subst hpk
        exact List.mem_append_left _ (ht.mem_children hp)
      · exact ht.mem_children hp
  · intro x c hc
    rw [hchildren] at hc
    rw [hparent]
    split_ifs at hc with hxp
    · subst hxp
      rcases List.mem_append.mp hc with hc | hc
      · rw [if_neg (hkeyfresh c hc)]
        exact ht.parent_of_mem hc
      · simp only [List.mem_singleton] at hc
        simp [hc]
    · rw [if_neg (ne_of_isSome (ht.isSome_of_mem hc) hkey)]
      exact ht.parent_of_mem hc
  · intro x p hp
    rw [hparent] at hp
    split_ifs at hp with hxk
    · cases hp
      subst hxk
      exact hslot
    · exact ht.slot_lt hp
  · intro x
    rw [hchildren]
    split_ifs with hxp
    · subst hxp
      exact List.nodup_append.mpr ⟨ht.nodup_children x, List.nodup_singleton key,
        fun a ha b hb hab => by
          simp only [List.mem_singleton] at hb
          exact hkeyfresh a ha (hab.trans hb)⟩
    · exact ht.nodup_children x

end withLeaf

theorem get_of_foldlM_erase : ∀ (keys : List SlotHashKey) (fc fc' : HeaviestSubtreeForkChoice),
    keys.foldlM (fun fc key =>
      if (fc.get key).isSome then some { fc with forkInfos := Map.erase fc.forkInfos key }
      else none) fc = some fc' →
    fc'.root = fc.root ∧ fc'.latestVotes = fc.latestVotes ∧
      ∀ x, fc'.get x = if x ∈ keys then none else fc.get x
  | [], fc, fc', h => by
    simp only [List.foldlM_nil, Option.pure_def, Option.some.injEq] at h
    subst h
    simp
  | key :: keys, fc, fc', h => by
    simp only [List.foldlM_cons, Option.bind_eq_bind, Option.bind_eq_some_iff] at h
    obtain ⟨fc₁, h₁, h₂⟩ := h
    split_ifs at h₁
    obtain rfl := Option.some.inj h₁
    obtain ⟨hroot, hvotes, hget⟩ := get_of_foldlM_erase keys _ fc' h₂
    refine ⟨hroot, hvotes, fun x => ?_⟩
    rw [hget]
    by_cases hx : x ∈ keys
    · simp [hx]
    · by_cases hxk : x = key <;> simp [hx, hxk, get]

/-- `set_root`: the subtree of the new root, which loses its parent, and nothing else. -/
theorem Tree.setRoot_some (ht : fc.Tree) {newRoot : SlotHashKey} {fc' : HeaviestSubtreeForkChoice}
    (h : fc.setRoot newRoot = some fc') :
    (fc.get newRoot).isSome ∧ fc'.root = newRoot ∧ fc'.latestVotes = fc.latestVotes ∧
      fc'.get newRoot = (fc.get newRoot).map (fun info => { info with parent := none }) ∧
      (∀ x, fc.Descends newRoot x → x ≠ newRoot → fc'.get x = fc.get x) ∧
      (∀ x, ¬fc.Descends newRoot x → fc'.get x = none) := by
  unfold setRoot at h
  simp only [Option.bind_eq_bind, Option.bind_eq_some_iff, Option.pure_def,
    Option.some.injEq] at h
  obtain ⟨removeSet, hdiff, fc₁, hfold, fc₂, hmodify, rfl⟩ := h
  obtain ⟨-, hvotes, hget₁⟩ := get_of_foldlM_erase removeSet fc fc₁ hfold
  have hmem := fun x => ht.mem_subtreeDiff_root (x := x) hdiff
  have hnew : newRoot ∉ removeSet := fun h => ((hmem newRoot).mp h).2 (Descends.refl newRoot)
  have hisSome := isSome_of_modifyInfo hmodify
  rw [hget₁, if_neg hnew] at hisSome
  have hget := get_of_modifyInfo hmodify
  refine ⟨hisSome, rfl, (modifyInfo_latestVotes _ hmodify).trans hvotes, ?_, fun x hdesc hx => ?_,
    fun x hdesc => ?_⟩
  · show fc₂.get newRoot = _
    rw [hget, if_pos rfl, hget₁, if_neg hnew]
  · show fc₂.get x = _
    have : x ∉ removeSet := fun h => ((hmem x).mp h).2 hdesc
    rw [hget, if_neg hx, hget₁, if_neg this]
  · show fc₂.get x = _
    have hx : x ≠ newRoot := fun heq => hdesc (heq ▸ Descends.refl x)
    rw [hget, if_neg hx, hget₁]
    split_ifs with hremove
    · rfl
    · cases hgx : fc.get x with
      | none => rfl
      | some info => exact absurd ((hmem x).mpr ⟨by simp [hgx], hdesc⟩) hremove

/-- `set_root` to a block of the tree keeps a tree, under the new root. -/
theorem Tree.setRoot (ht : fc.Tree) {newRoot : SlotHashKey} {fc' : HeaviestSubtreeForkChoice}
    (h : fc.setRoot newRoot = some fc') : fc'.Tree := by
  obtain ⟨hnew, hroot, -, hgetNew, hgetIn, hgetOut⟩ := ht.setRoot_some h
  have hparentNew : fc'.parent newRoot = none := by
    simp only [parent, hgetNew]
    cases fc.get newRoot <;> rfl
  have hchildrenNew : fc'.children newRoot = fc.children newRoot := by
    simp only [children, hgetNew]
    cases fc.get newRoot <;> rfl
  have hdescends : ∀ {x}, (fc'.get x).isSome → fc.Descends newRoot x := by
    intro x hx
    by_contra hdesc
    simp [hgetOut x hdesc] at hx
  have hchildrenIn : ∀ {x}, fc.Descends newRoot x → fc'.children x = fc.children x := by
    intro x hx
    by_cases hxn : x = newRoot
    · exact hxn ▸ hchildrenNew
    · exact children_eq_of_get_eq (hgetIn x hx hxn)
  have hchild_ne : ∀ {k c}, fc.Descends newRoot k → c ∈ fc.children k → c ≠ newRoot := by
    intro k c hk hc heq
    subst heq
    have hp := ht.parent_of_mem hc
    exact absurd (ht.slot_le_of_descends hk) (not_le.mpr (ht.slot_lt hp))
  refine ⟨?_, ?_, ?_, ?_, ?_, ?_, ?_⟩
  · rw [hroot, hgetNew]
    simpa using hnew
  · rw [hroot]
    exact hparentNew
  · intro x hx hnone
    rw [hroot]
    have hdesc := hdescends hx
    by_contra hxn
    rw [parent_eq_of_get_eq (hgetIn x hdesc hxn)] at hnone
    rw [hgetIn x hdesc hxn] at hx
    have hxroot := ht.eq_root hx hnone
    subst hxroot
    exact hxn (ht.eq_root_of_descends hdesc).symm
  · intro x p hp
    have hdesc := hdescends (isSome_of_parent hp)
    have hxn : x ≠ newRoot := fun heq => by rw [heq, hparentNew] at hp; cases hp
    rw [parent_eq_of_get_eq (hgetIn x hdesc hxn)] at hp
    obtain ⟨q, hq, hpdesc⟩ := hdesc.parent_of_ne (Ne.symm hxn)
    rw [hp, Option.some.injEq] at hq
    subst hq
    rw [hchildrenIn hpdesc]
    exact ht.mem_children hp
  · intro x c hc
    have hdesc := hdescends (isSome_of_mem_children hc)
    rw [hchildrenIn hdesc] at hc
    have hparent := ht.parent_of_mem hc
    rw [parent_eq_of_get_eq (hgetIn c (hdesc.tail hparent) (hchild_ne hdesc hc))]
    exact hparent
  · intro x p hp
    have hdesc := hdescends (isSome_of_parent hp)
    have hxn : x ≠ newRoot := fun heq => by rw [heq, hparentNew] at hp; cases hp
    rw [parent_eq_of_get_eq (hgetIn x hdesc hxn)] at hp
    exact ht.slot_lt hp
  · intro x
    by_cases hdesc : fc.Descends newRoot x
    · rw [hchildrenIn hdesc]
      exact ht.nodup_children x
    · rw [children_of_get_none (hgetOut x hdesc)]
      exact List.nodup_nil

/-- `add_root_parent`: a new root above the old one, which gets it as its parent. -/
theorem addRootParent_some {rootParent : SlotHashKey} {fc' : HeaviestSubtreeForkChoice}
    (h : fc.addRootParent rootParent = some fc') :
    rootParent.1 < fc.root.1 ∧ fc.get rootParent = none ∧ ∃ rootInfo, fc.get fc.root = some rootInfo ∧
      fc'.root = rootParent ∧ fc'.latestVotes = fc.latestVotes ∧
      ∀ x, fc'.get x = if x = rootParent then
          some ⟨0, rootInfo.stakeVotedSubtree, rootInfo.bestSlot, none, [fc.root], none,
            rootInfo.isDuplicateConfirmed⟩
        else if x = fc.root then some { rootInfo with parent := some rootParent } else fc.get x := by
  unfold addRootParent at h
  split_ifs at h with hslot hmem
  simp only [Option.bind_eq_bind, Option.bind_eq_some_iff, Option.pure_def,
    Option.some.injEq] at h
  obtain ⟨rootInfo, hroot, fc₁, hmodify, rfl⟩ := h
  have hget₁ := get_of_modifyInfo hmodify
  have hroot₁ := root_of_modifyInfo hmodify
  have hvotes := modifyInfo_latestVotes _ hmodify
  refine ⟨by omega, by simpa using hmem, rootInfo, hroot, rfl, hvotes, fun x => ?_⟩
  show Map.get (Map.insert fc₁.forkInfos rootParent _) x = _
  rw [Map.get_insert, hroot₁]
  split_ifs with hx hxr
  · rfl
  · have := hget₁ x
    simp only [hxr, if_true, hroot, Option.map_some] at this
    rw [hxr]
    exact this
  · have := hget₁ x
    simp only [hxr, if_false] at this
    exact this

/-- `add_root_parent` keeps a tree, under the new root. -/
theorem Tree.addRootParent (ht : fc.Tree) {rootParent : SlotHashKey}
    {fc' : HeaviestSubtreeForkChoice} (h : fc.addRootParent rootParent = some fc') : fc'.Tree := by
  obtain ⟨hslot, hfresh, rootInfo, hroot, hroot', -, hget⟩ := addRootParent_some h
  have hne : fc.root ≠ rootParent := ne_of_apply_ne Prod.fst hslot.ne'
  have hparent : ∀ x, fc'.parent x =
      if x = rootParent then none else if x = fc.root then some rootParent else fc.parent x := by
    intro x
    simp only [parent, hget]
    split_ifs <;> rfl
  have hchildren : ∀ x, fc'.children x =
      if x = rootParent then [fc.root] else fc.children x := by
    intro x
    simp only [children, hget]
    split_ifs with hx hxr
    · rfl
    · subst hxr
      simp [hroot]
    · rfl
  have hisSome : ∀ x, (fc'.get x).isSome = ((fc.get x).isSome || decide (x = rootParent)) := by
    intro x
    rw [hget]
    split_ifs with hx hxr
    · simp [hx]
    · simp [hxr, hroot, hne]
    · simp [hx]
  have hfreshChild : ∀ {k c}, c ∈ fc.children k → c ≠ rootParent := fun hc =>
    ne_of_isSome (ht.isSome_of_mem hc) hfresh
  have hrootChild : ∀ {k}, fc.root ∉ fc.children k := by
    intro k hk
    have := ht.parent_of_mem hk
    rw [ht.parent_root] at this
    cases this
  refine ⟨?_, ?_, ?_, ?_, ?_, ?_, ?_⟩
  · rw [hroot', hisSome]
    simp
  · rw [hroot', hparent]
    simp
  · intro x hx hnone
    rw [hroot']
    rw [hisSome] at hx
    rw [hparent] at hnone
    split_ifs at hnone with hxr hxo
    · exact hxr
    · simp only [hxr, decide_false, Bool.or_false] at hx
      exact absurd (ht.eq_root hx hnone) hxo
  · intro x p hp
    rw [hparent] at hp
    rw [hchildren]
    split_ifs at hp with hxr hxo
    · cases hp
      simp [hxo]
    · rw [if_neg (ne_of_isSome (ht.isSome_of_parent_eq hp) hfresh)]
      exact ht.mem_children hp
  · intro x c hc
    rw [hchildren] at hc
    rw [hparent]
    split_ifs at hc with hxr
    · simp only [List.mem_singleton] at hc
      subst hc
      simp [hne, hxr]
    · rw [if_neg (hfreshChild hc), if_neg (fun heq => hrootChild (heq ▸ hc))]
      exact ht.parent_of_mem hc
  · intro x p hp
    rw [hparent] at hp
    split_ifs at hp with hxr hxo
    · cases hp
      subst hxo
      exact hslot
    · exact ht.slot_lt hp
  · intro x
    rw [hchildren]
    split_ifs
    · exact List.nodup_singleton _
    · exact ht.nodup_children x

end HeaviestSubtreeForkChoice

end Solana.Consensus
