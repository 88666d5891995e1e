import Solana.Lib.MerkleLevels
import Solana.Lib.Bytes
import Solana.Sdk.Basic

/-! `merkle-tree/src/merkle_tree.rs` and `hash_transactions` of `entry/src/entry.rs`. The node
vector of `MerkleTree::new` is the levels of `MerkleLevels` (`new_eq`) and `find_path` their path
(`findPath_new`), so the root and a proof bind up to a collision among the inputs hashed. -/

namespace Solana.Merkle

open Bytes MerkleLevels

section Hashes

variable (hashv : List UInt8 → Hash)

/-- `LEAF_PREFIX` and `INTERMEDIATE_PREFIX`, which keep leaves and inner nodes apart. -/
def leafPrefix : List UInt8 := [0]

def intermediatePrefix : List UInt8 := [1]

/-- The bytes `hash_leaf!` hashes: `&[LEAF_PREFIX, d]`. -/
def leafInput (item : List UInt8) : List UInt8 := leafPrefix ++ item

/-- The bytes `hash_intermediate!` hashes: the prefix and the 32 bytes of each child. -/
def intermediateInput (left right : Hash) : List UInt8 :=
  intermediatePrefix ++ toLE 32 left ++ toLE 32 right

/-- `hash_leaf!`. -/
def hashLeaf (item : List UInt8) : Hash := hashv (leafInput item)

/-- `hash_intermediate!`. -/
def hashIntermediate (left right : Hash) : Hash := hashv (intermediateInput left right)

/-- Two different inputs, one of `inputs` and one of `inputs'`, with one hash. -/
def HashCollision (inputs inputs' : List (List UInt8)) : Prop :=
  ∃ input ∈ inputs, ∃ input' ∈ inputs', input ≠ input' ∧ hashv input = hashv input'

theorem HashCollision.mono {inputs inputs' more more' : List (List UInt8)}
    (h : HashCollision hashv inputs inputs') (hsub : inputs ⊆ more) (hsub' : inputs' ⊆ more') :
    HashCollision hashv more more' := by
  obtain ⟨input, hinput, input', hinput', hne, heq⟩ := h
  exact ⟨input, hsub hinput, input', hsub' hinput', hne, heq⟩

end Hashes

structure MerkleTree where
  leafCount : ℕ
  nodes : List Hash
  deriving DecidableEq, Repr

structure ProofEntry where
  target : Hash
  leftSibling : Option Hash
  rightSibling : Option Hash
  deriving DecidableEq, Repr

/-- `ProofEntry::new`, which asserts that exactly one sibling is given. -/
def ProofEntry.new (target : Hash) (leftSibling rightSibling : Option Hash) :
    Option ProofEntry :=
  if leftSibling.isNone ^^ rightSibling.isNone then some ⟨target, leftSibling, rightSibling⟩
  else none

namespace MerkleTree

/-- `next_level_len`. -/
def nextLevelLen (levelLen : ℕ) : ℕ := if levelLen = 1 then 0 else (levelLen + 1) / 2

theorem nextLevelLen_lt {levelLen : ℕ} (h : levelLen ≠ 0) : nextLevelLen levelLen < levelLen := by
  unfold nextLevelLen
  split_ifs <;> omega

section New

variable (hashv : List UInt8 → Hash)

/-- The body of `for i in 0..level_len`: node `i` of the level, from the nodes `2 i` and
`2 i + 1` of the level below. -/
def levelNode (nodes : List Hash) (prevLevelStart prevLevelLen i : ℕ) : Option Hash := do
  let prevLevelIdx := 2 * i
  let lsib ← nodes[prevLevelStart + prevLevelIdx]?
  let rsib ← if prevLevelIdx + 1 < prevLevelLen then nodes[prevLevelStart + prevLevelIdx + 1]?
    else
      nodes[prevLevelStart + prevLevelIdx]?
  pure (hashIntermediate hashv lsib rsib)

/-- The `for i in 0..level_len` loop: the level pushed after the nodes. -/
def pushLevel (nodes : List Hash) (prevLevelStart prevLevelLen levelLen : ℕ) :
    Option (List Hash) :=
  (List.range levelLen).foldlM (fun nodes i =>
    (levelNode hashv nodes prevLevelStart prevLevelLen i).map fun hash => nodes ++ [hash]) nodes

/-- The `while level_len > 0` loop of `MerkleTree::new`. -/
def buildLevels (nodes : List Hash) (levelLen levelStart prevLevelLen prevLevelStart : ℕ) :
    Option (List Hash) :=
  if _h : levelLen = 0 then some nodes
  else do
    let nodes ← pushLevel hashv nodes prevLevelStart prevLevelLen levelLen
    buildLevels nodes (nextLevelLen levelLen) (levelStart + levelLen) levelLen levelStart
termination_by levelLen
decreasing_by exact nextLevelLen_lt _h

/-- `MerkleTree::new`; the capacity it reserves does not change the nodes. -/
def new (items : List (List UInt8)) : Option MerkleTree := do
  let nodes := items.map (hashLeaf hashv)
  let nodes ← buildLevels hashv nodes (nextLevelLen items.length) items.length items.length 0
  pure ⟨items.length, nodes⟩

end New

def getRoot (tree : MerkleTree) : Option Hash := tree.nodes.getLast?

/-- The `while level_len > 0` loop of `find_path`: at each level, the entry of the target with
the sibling found on the level below, then the sibling of the target. -/
def findPathLoop (nodes : List Hash) (levelLen levelStart nodeIndex : ℕ)
    (lsib rsib : Option Hash) (path : List ProofEntry) : Option (List ProofEntry) :=
  if h : levelLen = 0 then some path
  else do
    -- `&self.nodes[level_start..(level_start + level_len)]`
    let level ← (if levelStart + levelLen ≤ nodes.length then
        some ((nodes.drop levelStart).take levelLen) else none)
    let target ← level[nodeIndex]?
    let path ← (if lsib ≠ none ∨ rsib ≠ none then
        (ProofEntry.new target lsib rsib).map fun entry => path ++ [entry]
      else some path)
    let siblings ← (if nodeIndex % 2 = 0 then
        (if nodeIndex + 1 < level.length then level[nodeIndex + 1]? else level[nodeIndex]?).map
          fun right => ((none : Option Hash), some right)
      else level[nodeIndex - 1]?.map fun left => (some left, (none : Option Hash)))
    findPathLoop nodes (nextLevelLen levelLen) (levelStart + levelLen) (nodeIndex / 2)
      siblings.1 siblings.2 path
termination_by levelLen
decreasing_by exact nextLevelLen_lt h

/-- `find_path`: `None` for an index past the leaves. -/
def findPath (tree : MerkleTree) (index : ℕ) : Option (Option (List ProofEntry)) :=
  if tree.leafCount ≤ index then some none
  else (findPathLoop tree.nodes tree.leafCount 0 index none none []).map some

end MerkleTree

/-- `Proof::verify`: the candidate folded up the path, each hash checked against the target. -/
def Proof.verify (hashv : List UInt8 → Hash) (proof : List ProofEntry) (candidate : Hash) :
    Bool :=
  (proof.foldlM (fun candidate entry =>
    let lsib := entry.leftSibling.getD candidate
    let rsib := entry.rightSibling.getD candidate
    let hash := hashIntermediate hashv lsib rsib
    if hash = entry.target then some hash else none) candidate).isSome

/-- The inputs `Proof::verify` hashes, up to the first check that fails. -/
def Proof.inputs (hashv : List UInt8 → Hash) : List ProofEntry → Hash → List (List UInt8)
  | [], _ => []
  | entry :: rest, candidate =>
    let input := intermediateInput (entry.leftSibling.getD candidate)
      (entry.rightSibling.getD candidate)
    input :: if hashv input = entry.target then Proof.inputs hashv rest (hashv input) else []

/-- A transaction, as far as `hash_transactions` reads it: its signatures. -/
structure VersionedTransaction where
  signatures : List (List UInt8)

/-- `hash_transactions`: the root of the tree of the signatures, or `Hash::default()`. -/
def hashTransactions (hashv : List UInt8 → Hash) (transactions : List VersionedTransaction) :
    Option Hash := do
  let signatures := transactions.flatMap (·.signatures)
  let merkleTree ← MerkleTree.new hashv signatures
  pure (merkleTree.getRoot.getD 0)

/-! ## The vector of nodes is the levels -/

namespace MerkleTree

section Levels

variable (hashv : List UInt8 → Hash)

theorem getElem?_middle (front level rest : List Hash) {j : ℕ} (hj : j < level.length) :
    (front ++ level ++ rest)[front.length + j]? = level[j]? := by
  rw [List.append_assoc, List.getElem?_append_right (by omega), Nat.add_sub_cancel_left,
    List.getElem?_append_left hj]

/-- Node `i` of a level is node `i` of the pairs of the level below. -/
theorem levelNode_eq {front level rest : List Hash} {i : ℕ}
    (hi : i < (pairUp (hashIntermediate hashv) level).length) :
    levelNode hashv (front ++ level ++ rest) front.length level.length i =
      (pairUp (hashIntermediate hashv) level)[i]? := by
  have hleft : 2 * i < level.length := by simp at hi; omega
  have hl : (front ++ level ++ rest)[front.length + 2 * i]? = some level[2 * i] := by
    rw [getElem?_middle front level rest hleft, List.getElem?_eq_getElem hleft]
  rw [getElem?_pairUp, List.getElem?_eq_getElem hleft]
  by_cases hright : 2 * i + 1 < level.length
  · have hr : (front ++ level ++ rest)[front.length + 2 * i + 1]? = some level[2 * i + 1] := by
      rw [Nat.add_assoc, getElem?_middle front level rest hright,
        List.getElem?_eq_getElem hright]
    simp only [levelNode, hl, hr, if_pos hright, Option.bind_eq_bind, Option.bind_some,
      Option.pure_def, Option.map_some, List.getElem?_eq_getElem hright, Option.getD_some]
  · have hnone : level[2 * i + 1]? = none := List.getElem?_eq_none (by omega)
    simp only [levelNode, hl, if_neg hright, Option.bind_eq_bind, Option.bind_some,
      Option.pure_def, Option.map_some, hnone, Option.getD_none]

/-- The `for` loop pushes the level above. -/
theorem pushLevel_eq (front level : List Hash) :
    pushLevel hashv (front ++ level) front.length level.length
        (pairUp (hashIntermediate hashv) level).length =
      some (front ++ level ++ pairUp (hashIntermediate hashv) level) := by
  have hrounds : ∀ k ≤ (pairUp (hashIntermediate hashv) level).length,
      (List.range k).foldlM (fun nodes i =>
        (levelNode hashv nodes front.length level.length i).map fun hash => nodes ++ [hash])
        (front ++ level) =
      some (front ++ level ++ (pairUp (hashIntermediate hashv) level).take k) := by
    intro k hk
    induction k with
    | zero => simp
    | succ k ih =>
      have hk' : k < (pairUp (hashIntermediate hashv) level).length := Nat.lt_of_succ_le hk
      have hnode : levelNode hashv (front ++ level ++ (pairUp (hashIntermediate hashv) level).take k)
          front.length level.length k = some (pairUp (hashIntermediate hashv) level)[k] := by
        rw [levelNode_eq hashv hk', List.getElem?_eq_getElem hk']
      rw [List.range_succ, List.foldlM_append, ih (Nat.le_of_succ_le hk)]
      simp only [Option.bind_eq_bind, Option.bind_some, List.foldlM_cons, List.foldlM_nil]
      rw [hnode, List.take_succ_eq_append_getElem hk']
      simp
  rw [pushLevel, hrounds _ le_rfl, List.take_length]

/-- The `while` loop pushes the levels above the last one pushed. -/
theorem buildLevels_eq (front level : List Hash) :
    buildLevels hashv (front ++ level) (nextLevelLen level.length) (front.length + level.length)
        level.length front.length =
      some (front ++ (levels (hashIntermediate hashv) level).flatten) := by
  induction hn : level.length using Nat.strong_induction_on generalizing front level with
  | _ n ih =>
  rw [← hn]
  by_cases htop : level.length ≤ 1
  · have hzero : nextLevelLen level.length = 0 := by unfold nextLevelLen; split_ifs <;> omega
    rw [buildLevels, dif_pos hzero, levels_of_le _ htop, List.flatten_singleton]
  · have habove : nextLevelLen level.length = (pairUp (hashIntermediate hashv) level).length := by
      unfold nextLevelLen
      rw [if_neg (by omega), length_pairUp]
    have hshorter : (pairUp (hashIntermediate hashv) level).length < n :=
      hn ▸ length_pairUp_lt _ (show 1 < level.length by omega)
    have hrest := ih _ hshorter (front ++ level) (pairUp (hashIntermediate hashv) level) rfl
    rw [List.length_append] at hrest
    have hpos : nextLevelLen level.length ≠ 0 := by
      rw [habove, length_pairUp]
      omega
    rw [buildLevels, dif_neg hpos, habove, pushLevel_eq, Option.bind_eq_bind, Option.bind_some,
      hrest, levels_of_lt _ (show 1 < level.length by omega), List.flatten_cons,
      List.append_assoc]

/-- `MerkleTree::new` keeps the levels over the leaves, one after another. -/
theorem new_eq (items : List (List UInt8)) :
    new hashv items = some ⟨items.length,
      (levels (hashIntermediate hashv) (items.map (hashLeaf hashv))).flatten⟩ := by
  have h := buildLevels_eq hashv [] (items.map (hashLeaf hashv))
  rw [List.nil_append, List.length_nil, Nat.zero_add, List.length_map] at h
  rw [new]
  simp only [h, Option.bind_eq_bind, Option.bind_some]
  rfl

theorem getRoot_new (items : List (List UInt8)) :
    (new hashv items).map getRoot =
      some (root (hashIntermediate hashv) (items.map (hashLeaf hashv))) := by
  rw [new_eq]
  rfl

/-! ## `find_path` follows the path of the levels -/

/-- The `ProofEntry` of an entry of a path. -/
def toProofEntry (entry : PathEntry Hash) : ProofEntry :=
  ⟨entry.target, entry.left, entry.right⟩

/-- The entry the loop pushes for the siblings it carries. -/
theorem pushEntry_eq {lsib rsib : Option Hash}
    (hsiblings : (lsib = none ∧ rsib = none) ∨ (lsib.isNone ^^ rsib.isNone) = true)
    (target : Hash) (path : List ProofEntry) :
    (if lsib ≠ none ∨ rsib ≠ none then
        (ProofEntry.new target lsib rsib).map fun entry => path ++ [entry]
      else some path) =
      some (path ++ if lsib ≠ none ∨ rsib ≠ none then [⟨target, lsib, rsib⟩] else []) := by
  by_cases hany : lsib ≠ none ∨ rsib ≠ none
  · have hone : (lsib.isNone ^^ rsib.isNone) = true := hsiblings.resolve_left (by tauto)
    rw [if_pos hany, if_pos hany, ProofEntry.new, if_pos hone]
    rfl
  · rw [if_neg hany, if_neg hany, List.append_nil]

/-- The siblings the loop finds for node `j`: those of the path. -/
theorem siblings_eq {level : List Hash} {j : ℕ} (hj : j < level.length) :
    (if j % 2 = 0 then
        (if j + 1 < level.length then level[j + 1]? else level[j]?).map
          fun right => ((none : Option Hash), some right)
      else level[j - 1]?.map fun left => (some left, (none : Option Hash))) =
      some (if j % 2 = 0 then (none, some (level[j + 1]?.getD level[j]))
        else (level[j - 1]?, none)) := by
  split_ifs with heven hnext
  · rw [List.getElem?_eq_getElem hnext]
    rfl
  · rw [List.getElem?_eq_getElem hj, List.getElem?_eq_none (by omega)]
    rfl
  · rw [List.getElem?_eq_getElem (show j - 1 < level.length by omega)]
    rfl

/-- From node `j` of a level, with the siblings found on the level below, the loop of
`find_path` pushes the entry of the target, then the path of the levels. -/
theorem findPathLoop_eq (front level : List Hash) {j : ℕ} (hj : j < level.length)
    {lsib rsib : Option Hash}
    (hsiblings : (lsib = none ∧ rsib = none) ∨ (lsib.isNone ^^ rsib.isNone) = true)
    (path : List ProofEntry) :
    findPathLoop (front ++ (levels (hashIntermediate hashv) level).flatten) level.length
        front.length j lsib rsib path =
      some (path ++ (if lsib ≠ none ∨ rsib ≠ none then [⟨level[j], lsib, rsib⟩] else []) ++
        (MerkleLevels.path (hashIntermediate hashv) level j).map toProofEntry) := by
  induction hn : level.length using Nat.strong_induction_on
    generalizing front level j lsib rsib path with
  | _ n ih =>
  rw [← hn]
  have hflat := flatten_levels (hashIntermediate hashv) level
  have hfits : front.length + level.length ≤
      (front ++ (levels (hashIntermediate hashv) level).flatten).length := by
    simp [hflat]
  have hlevel : ((front ++ (levels (hashIntermediate hashv) level).flatten).drop
      front.length).take level.length = level := by
    rw [List.drop_left, hflat, List.take_left]
  rw [findPathLoop, dif_neg (by omega)]
  simp only [Option.bind_eq_bind, hfits, if_true, hlevel, Option.bind_some, siblings_eq hj]
  simp only [List.getElem?_eq_getElem hj, Option.bind_some, pushEntry_eq hsiblings]
  by_cases htop : level.length ≤ 1
  · have hzero : nextLevelLen level.length = 0 := by unfold nextLevelLen; split_ifs <;> omega
    rw [hzero, findPathLoop, dif_pos rfl, MerkleLevels.path, dif_pos htop, List.map_nil,
      List.append_nil]
  · have habove : nextLevelLen level.length = (pairUp (hashIntermediate hashv) level).length := by
      unfold nextLevelLen
      rw [if_neg (by omega), length_pairUp]
    have hup : j / 2 < (pairUp (hashIntermediate hashv) level).length := by simp; omega
    have hshorter : (pairUp (hashIntermediate hashv) level).length < n :=
      hn ▸ length_pairUp_lt _ (show 1 < level.length by omega)
    have hnext : ((if j % 2 = 0 then ((none : Option Hash), some (level[j + 1]?.getD level[j]))
        else (level[j - 1]?, none)).1.isNone ^^
        (if j % 2 = 0 then ((none : Option Hash), some (level[j + 1]?.getD level[j]))
          else (level[j - 1]?, none)).2.isNone) = true := by
      split_ifs <;> simp [List.getElem?_eq_getElem (show j - 1 < level.length by omega)]
    rw [hflat, if_neg htop, ← List.append_assoc, habove,
      show front.length + level.length = (front ++ level).length from
        (List.length_append).symm,
      ih _ hshorter (front ++ level) (pairUp (hashIntermediate hashv) level) hup (.inr hnext)
        _ rfl,
      path_of_lt _ (by omega) hj]
    have hparent := getElem_pairUp_div_two (hashIntermediate hashv) hj
    rw [List.getElem?_eq_getElem hup, Option.some.injEq] at hparent
    split_ifs at hparent with heven
    · simp [heven, hparent, toProofEntry]
    · simp [heven, hparent, toProofEntry,
        List.getElem?_eq_getElem (show j - 1 < level.length by omega)]

/-- `find_path` on the tree of `new` is the path of the leaf. -/
theorem findPath_new (items : List (List UInt8)) {index : ℕ} (hindex : index < items.length) :
    findPath ⟨items.length, (levels (hashIntermediate hashv) (items.map (hashLeaf hashv))).flatten⟩
        index =
      some (some ((MerkleLevels.path (hashIntermediate hashv) (items.map (hashLeaf hashv))
        index).map toProofEntry)) := by
  have h := findPathLoop_eq hashv [] (items.map (hashLeaf hashv)) (by simpa using hindex)
    (.inl ⟨rfl, rfl⟩) []
  simp only [List.nil_append, List.length_map, List.length_nil, ne_eq, not_true_eq_false,
    or_self, if_false, List.append_nil] at h
  rw [findPath, if_neg (show ¬items.length ≤ index by omega)]
  simp only [h, Option.map_some]

/-- `Proof::verify` on the entries of a path is the fold of the levels. -/
theorem verify_map_toProofEntry (entries : List (PathEntry Hash)) (candidate : Hash) :
    Proof.verify hashv (entries.map toProofEntry) candidate =
      (MerkleLevels.verify (hashIntermediate hashv) entries candidate).isSome := by
  rw [Proof.verify, MerkleLevels.verify, List.foldlM_map]
  rfl

end Levels

/-! ## Binding, up to a collision among the inputs hashed -/

section Binding

variable (hashv : List UInt8 → Hash)

/-- The inputs `MerkleTree::new` hashes: the leaf input of each item, then the intermediate
input of each pair of nodes its levels hash. -/
def newInputs (items : List (List UInt8)) : List (List UInt8) :=
  items.map leafInput ++ (hashed (hashIntermediate hashv) (items.map (hashLeaf hashv))).map
    fun p => intermediateInput p.1 p.2

theorem toLE_injective {a b : Hash} (ha : a < 2 ^ 256) (hb : b < 2 ^ 256)
    (h : toLE 32 a = toLE 32 b) : a = b := by
  rw [← ofLE_toLE_of_lt (show a < 2 ^ (8 * 32) from ha),
    ← ofLE_toLE_of_lt (show b < 2 ^ (8 * 32) from hb), h]

/-- Different pairs of 32-byte hashes have different intermediate inputs. -/
theorem intermediateInput_injective {p q : Hash × Hash} (hp : p.1 < 2 ^ 256 ∧ p.2 < 2 ^ 256)
    (hq : q.1 < 2 ^ 256 ∧ q.2 < 2 ^ 256)
    (h : intermediateInput p.1 p.2 = intermediateInput q.1 q.2) : p = q := by
  have hlen : (intermediatePrefix ++ toLE 32 p.1).length =
      (intermediatePrefix ++ toLE 32 q.1).length := by simp
  obtain ⟨hleft, hright⟩ := List.append_inj h hlen
  obtain ⟨-, hleft'⟩ := List.append_inj hleft rfl
  exact Prod.ext (toLE_injective hp.1 hq.1 hleft') (toLE_injective hp.2 hq.2 hright)

/-- A collision of `hash_intermediate!` between pairs of 32-byte hashes is a collision of
`hashv` between their inputs. -/
theorem hashCollision_of_collision {inputs inputs' : List (Hash × Hash)}
    (hinputs : ∀ p ∈ inputs, p.1 < 2 ^ 256 ∧ p.2 < 2 ^ 256)
    (hinputs' : ∀ p ∈ inputs', p.1 < 2 ^ 256 ∧ p.2 < 2 ^ 256)
    (hcollision : Collision (hashIntermediate hashv) inputs inputs') :
    HashCollision hashv (inputs.map fun p => intermediateInput p.1 p.2)
      (inputs'.map fun p => intermediateInput p.1 p.2) := by
  obtain ⟨p, hp, q, hq, hne, heq⟩ := hcollision
  exact ⟨_, List.mem_map_of_mem hp, _, List.mem_map_of_mem hq,
    fun hinput => hne (intermediateInput_injective (hinputs p hp) (hinputs' q hq) hinput), heq⟩

/-- The leaves bind the items, unless two leaf inputs collide. -/
theorem map_hashLeaf_injective :
    ∀ {items items' : List (List UInt8)}, items.map (hashLeaf hashv) = items'.map (hashLeaf hashv) →
      items = items' ∨ HashCollision hashv (items.map leafInput) (items'.map leafInput)
  | [], [], _ => .inl rfl
  | item :: items, item' :: items', h => by
    rw [List.map_cons, List.map_cons, List.cons.injEq] at h
    by_cases hitem : item = item'
    · rcases map_hashLeaf_injective h.2 with heq | hcoll
      · exact .inl (by rw [hitem, heq])
      · exact .inr (hcoll.mono hashv (List.subset_cons_self _ _) (List.subset_cons_self _ _))
    · exact .inr ⟨leafInput item, List.mem_cons_self, leafInput item', List.mem_cons_self,
        fun heq => hitem (List.append_cancel_left heq), h.1⟩
  | [], _ :: _, h => by simp at h
  | _ :: _, [], h => by simp at h

/-- What `Proof::verify` hashes on the entries of a path is what the fold of the levels
hashes. -/
theorem inputs_map_toProofEntry : ∀ (entries : List (PathEntry Hash)) (candidate : Hash),
    Proof.inputs hashv (entries.map toProofEntry) candidate =
      (verifyInputs (hashIntermediate hashv) entries candidate).map
        fun p => intermediateInput p.1 p.2
  | [], _ => rfl
  | entry :: rest, candidate => by
    simp only [List.map_cons, Proof.inputs, verifyInputs, toProofEntry, hashIntermediate]
    by_cases hcheck : hashv (intermediateInput (entry.left.getD candidate)
        (entry.right.getD candidate)) = entry.target
    · simp only [hcheck, if_true, inputs_map_toProofEntry rest]
    · simp only [hcheck, if_false, List.map_nil]

variable {hashv}

theorem lt_of_mem_leaves (hrange : ∀ input, hashv input < 2 ^ 256) (items : List (List UInt8)) :
    ∀ x ∈ items.map (hashLeaf hashv), x < 2 ^ 256 := by
  intro x hx
  obtain ⟨item, -, rfl⟩ := List.mem_map.mp hx
  exact hrange _

/-- Every pair a tree hashes is a pair of 32-byte hashes. -/
theorem hashed_lt (hrange : ∀ input, hashv input < 2 ^ 256) (items : List (List UInt8)) :
    ∀ p ∈ hashed (hashIntermediate hashv) (items.map (hashLeaf hashv)),
      p.1 < 2 ^ 256 ∧ p.2 < 2 ^ 256 :=
  forall_mem_hashed (hashIntermediate hashv) (P := (· < 2 ^ 256)) (fun _ _ => hrange _)
    (lt_of_mem_leaves hrange items)

/-- Two lists of items of one length with one root are equal, unless an input one tree hashes
collides with an input the other hashes. -/
theorem eq_of_root_eq (hrange : ∀ input, hashv input < 2 ^ 256)
    {items items' : List (List UInt8)} (hlen : items.length = items'.length)
    (hroot : root (hashIntermediate hashv) (items.map (hashLeaf hashv)) =
      root (hashIntermediate hashv) (items'.map (hashLeaf hashv))) :
    items = items' ∨ HashCollision hashv (newInputs hashv items) (newInputs hashv items') := by
  rcases root_injective (hashIntermediate hashv) (by simpa using hlen) hroot with heq | hcoll
  · rcases map_hashLeaf_injective hashv heq with heq | hcoll
    · exact .inl heq
    · exact .inr (hcoll.mono hashv (List.subset_append_left _ _) (List.subset_append_left _ _))
  · have hinputs := hashCollision_of_collision hashv (hashed_lt hrange items)
      (hashed_lt hrange items') hcoll
    exact .inr (hinputs.mono hashv (List.subset_append_right _ _) (List.subset_append_right _ _))

/-- A candidate that a proof of two leaves or more accepts is the leaf, unless an input the
verification hashes collides with one the tree hashes. -/
theorem eq_of_verify (hrange : ∀ input, hashv input < 2 ^ 256) {items : List (List UInt8)}
    (hlen : 2 ≤ items.length) {index : ℕ} (hindex : index < items.length) {candidate : Hash}
    (hcandidate : candidate < 2 ^ 256)
    (hverify : Proof.verify hashv ((MerkleLevels.path (hashIntermediate hashv)
      (items.map (hashLeaf hashv)) index).map toProofEntry) candidate = true) :
    candidate = hashLeaf hashv items[index] ∨
      HashCollision hashv (Proof.inputs hashv ((MerkleLevels.path (hashIntermediate hashv)
        (items.map (hashLeaf hashv)) index).map toProofEntry) candidate) (newInputs hashv items) := by
  rw [MerkleTree.verify_map_toProofEntry, Option.isSome_iff_ne_none] at hverify
  rw [inputs_map_toProofEntry]
  rcases eq_of_verify_path (hashIntermediate hashv) (by simp only [List.length_map]; omega)
      (by simpa using hindex) hverify with heq | hcoll
  · exact .inl (by rw [heq, List.getElem_map])
  · have hsiblings := siblings_of_mem_path (hashIntermediate hashv) (P := (· < 2 ^ 256))
      (fun _ _ => hrange _) (lt_of_mem_leaves hrange items) (i := index)
    have hinputs := hashCollision_of_collision hashv
      (forall_mem_verifyInputs (hashIntermediate hashv) (P := (· < 2 ^ 256)) (fun _ _ => hrange _)
        hsiblings hcandidate) (hashed_lt hrange items) hcoll
    exact .inr (hinputs.mono hashv (List.Subset.refl _) (List.subset_append_right _ _))

/-- The proof of a leaf of a tree of two leaves or more accepts the leaf, and its last target
is the root. -/
theorem verify_leaf {items : List (List UInt8)} (hlen : 2 ≤ items.length) {index : ℕ}
    (hindex : index < items.length) :
    Proof.verify hashv ((MerkleLevels.path (hashIntermediate hashv)
        (items.map (hashLeaf hashv)) index).map toProofEntry) (hashLeaf hashv items[index]) = true ∧
      ((MerkleLevels.path (hashIntermediate hashv) (items.map (hashLeaf hashv)) index).map
        toProofEntry).getLast?.map (·.target) =
        root (hashIntermediate hashv) (items.map (hashLeaf hashv)) := by
  have hindex' : index < (items.map (hashLeaf hashv)).length := by simpa using hindex
  have hfold := verify_path (hashIntermediate hashv) hindex'
  rw [List.getElem_map] at hfold
  obtain ⟨r, hr⟩ := Option.isSome_iff_exists.mp
    (root_isSome (hashIntermediate hashv)
      (List.ne_nil_of_length_pos (show 0 < (items.map (hashLeaf hashv)).length by omega)))
  have hne : MerkleLevels.path (hashIntermediate hashv) (items.map (hashLeaf hashv)) index ≠ [] := by
    rw [path_of_lt _ (by simp only [List.length_map]; omega) hindex']
    exact List.cons_ne_nil _ _
  have hlast := verify_eq_getLast (hashIntermediate hashv) hne (hfold.trans hr)
  refine ⟨?_, ?_⟩
  · rw [MerkleTree.verify_map_toProofEntry, hfold, hr]
    rfl
  · rw [List.getLast?_map, Option.map_map, hr]
    exact hlast

end Binding

end MerkleTree

/-! ## The commitment -/

theorem merkleTree_commitment (hashv : List UInt8 → Hash)
    (hrange : ∀ input, hashv input < 2 ^ 256) :
    (∀ items items' : List (List UInt8), items.length = items'.length →
      ∃ tree tree', MerkleTree.new hashv items = some tree ∧
        MerkleTree.new hashv items' = some tree' ∧
        (tree.getRoot = tree'.getRoot → items = items' ∨
          HashCollision hashv (MerkleTree.newInputs hashv items)
            (MerkleTree.newInputs hashv items'))) ∧
    (∀ transactions transactions' : List VersionedTransaction,
      (transactions.flatMap (·.signatures)).length =
        (transactions'.flatMap (·.signatures)).length →
      hashTransactions hashv transactions = hashTransactions hashv transactions' →
      transactions.flatMap (·.signatures) = transactions'.flatMap (·.signatures) ∨
        HashCollision hashv (MerkleTree.newInputs hashv (transactions.flatMap (·.signatures)))
          (MerkleTree.newInputs hashv (transactions'.flatMap (·.signatures)))) ∧
    ∀ (items : List (List UInt8)) (index : ℕ) (hindex : index < items.length),
      2 ≤ items.length →
      ∃ tree proof, MerkleTree.new hashv items = some tree ∧
        tree.findPath index = some (some proof) ∧
        proof.getLast?.map (·.target) = tree.getRoot ∧
        Proof.verify hashv proof (hashLeaf hashv items[index]) = true ∧
        ∀ candidate < 2 ^ 256, Proof.verify hashv proof candidate = true →
          candidate = hashLeaf hashv items[index] ∨
            HashCollision hashv (Proof.inputs hashv proof candidate)
              (MerkleTree.newInputs hashv items) := by
  refine ⟨fun items items' hlen => ?_, fun transactions transactions' hlen hhash => ?_,
    fun items index hindex hlen => ?_⟩
  · exact ⟨_, _, MerkleTree.new_eq hashv items, MerkleTree.new_eq hashv items',
      MerkleTree.eq_of_root_eq hrange hlen⟩
  · simp only [hashTransactions, MerkleTree.new_eq, Option.bind_eq_bind, Option.bind_some,
      Option.pure_def, Option.some.injEq] at hhash
    by_cases hempty : transactions.flatMap (·.signatures) = []
    · have hempty' : transactions'.flatMap (·.signatures) = [] :=
        List.eq_nil_of_length_eq_zero (by rw [← hlen, hempty, List.length_nil])
      exact .inl (by rw [hempty, hempty'])
    · have hpos := List.length_pos_of_ne_nil hempty
      have hne : (transactions.flatMap (·.signatures)).map (hashLeaf hashv) ≠ [] :=
        List.ne_nil_of_length_pos (by rw [List.length_map]; exact hpos)
      have hne' : (transactions'.flatMap (·.signatures)).map (hashLeaf hashv) ≠ [] :=
        List.ne_nil_of_length_pos (by rw [List.length_map, ← hlen]; exact hpos)
      obtain ⟨r, hr⟩ := Option.isSome_iff_exists.mp (root_isSome (hashIntermediate hashv) hne)
      obtain ⟨r', hr'⟩ := Option.isSome_iff_exists.mp (root_isSome (hashIntermediate hashv) hne')
      change (root (hashIntermediate hashv) _).getD 0 = (root (hashIntermediate hashv) _).getD 0
        at hhash
      rw [hr, hr', Option.getD_some, Option.getD_some] at hhash
      exact MerkleTree.eq_of_root_eq hrange hlen (by rw [hr, hr', hhash])
  · obtain ⟨haccept, hlast⟩ := MerkleTree.verify_leaf hlen hindex
    exact ⟨_, _, MerkleTree.new_eq hashv items, MerkleTree.findPath_new hashv items hindex,
      hlast, haccept, fun candidate hcandidate hverify =>
        MerkleTree.eq_of_verify hrange hlen hindex hcandidate hverify⟩

/-- Under a hash that reads the bytes in base 256, cut to 32 bytes. -/
theorem merkleTree_commitment_baseDigits :
    let hashv : List UInt8 → Hash :=
      fun bytes => bytes.foldr (fun b acc => b.toNat + 256 * acc) 1 % 2 ^ 256
    (∀ input, hashv input < 2 ^ 256) ∧
    (∀ items items' : List (List UInt8), items.length = items'.length →
      ∃ tree tree', MerkleTree.new hashv items = some tree ∧
        MerkleTree.new hashv items' = some tree' ∧
        (tree.getRoot = tree'.getRoot → items = items' ∨
          HashCollision hashv (MerkleTree.newInputs hashv items)
            (MerkleTree.newInputs hashv items'))) ∧
    (∀ transactions transactions' : List VersionedTransaction,
      (transactions.flatMap (·.signatures)).length =
        (transactions'.flatMap (·.signatures)).length →
      hashTransactions hashv transactions = hashTransactions hashv transactions' →
      transactions.flatMap (·.signatures) = transactions'.flatMap (·.signatures) ∨
        HashCollision hashv (MerkleTree.newInputs hashv (transactions.flatMap (·.signatures)))
          (MerkleTree.newInputs hashv (transactions'.flatMap (·.signatures)))) ∧
    ∀ (items : List (List UInt8)) (index : ℕ) (hindex : index < items.length),
      2 ≤ items.length →
      ∃ tree proof, MerkleTree.new hashv items = some tree ∧
        tree.findPath index = some (some proof) ∧
        proof.getLast?.map (·.target) = tree.getRoot ∧
        Proof.verify hashv proof (hashLeaf hashv items[index]) = true ∧
        ∀ candidate < 2 ^ 256, Proof.verify hashv proof candidate = true →
          candidate = hashLeaf hashv items[index] ∨
            HashCollision hashv (Proof.inputs hashv proof candidate)
              (MerkleTree.newInputs hashv items) := by
  intro hashv
  have hrange : ∀ input, hashv input < 2 ^ 256 := fun _ => Nat.mod_lt _ (Nat.two_pow_pos 256)
  exact ⟨hrange, merkleTree_commitment hashv hrange⟩

/-- Even under a hash that gives no two byte strings one value (the bytes read in base 256
below a leading 1), the items `[1], [2], [3]` and `[1], [2], [3], [3]` have one root, and the
proof of the one leaf of a tree accepts every candidate. -/
theorem merkleTree_duplicated_leaf :
    let hashv : List UInt8 → Hash := fun bytes => bytes.foldr (fun b acc => b.toNat + 256 * acc) 1
    (MerkleTree.new hashv [[1], [2], [3]]).map MerkleTree.getRoot =
      (MerkleTree.new hashv [[1], [2], [3], [3]]).map MerkleTree.getRoot ∧
    ∀ candidate, ∃ tree proof, MerkleTree.new hashv [[7]] = some tree ∧
      tree.findPath 0 = some (some proof) ∧ Proof.verify hashv proof candidate = true := by
  intro hashv
  refine ⟨?_, fun candidate => ⟨_, _, MerkleTree.new_eq hashv [[7]],
    MerkleTree.findPath_new hashv [[7]] (by decide), ?_⟩⟩
  · rw [MerkleTree.getRoot_new, MerkleTree.getRoot_new,
      root_of_lt _ (show 1 < ([[1], [2], [3]].map (hashLeaf hashv)).length by simp),
      root_of_lt _ (show 1 < ([[1], [2], [3], [3]].map (hashLeaf hashv)).length by simp)]
    rfl
  · rw [MerkleLevels.path, dif_pos (by simp)]
    rfl

end Solana.Merkle