import Solana.Sdk.Basic
import Solana.Lib.Map

/-! `core/src/heaviest_subtree_fork_choice.rs`; a failed `expect`, `unwrap` or `assert` is
`none`, and `u64` stakes wrap as in a release build (`addRootParent_loses_votes`). -/

namespace Solana.Consensus

open MachineInt

/-- `SlotHashKey`: a block by its slot and bank hash. -/
abbrev SlotHashKey := ℕ × Hash

/-- The order of the `BTreeMap` keys: by slot, then by hash. -/
def SlotHashKey.lt (a b : SlotHashKey) : Bool := a.1 < b.1 || (a.1 = b.1 && a.2 < b.2)

inductive UpdateLabel where
  | aggregate
  | add
  | markValid (slot : ℕ)
  | markInvalid (slot : ℕ)
  | subtract
  deriving DecidableEq, Repr

/-- The derived order of `UpdateLabel`: by variant, then by slot. -/
def UpdateLabel.rank : UpdateLabel → ℕ × ℕ
  | .aggregate => (0, 0)
  | .add => (1, 0)
  | .markValid slot => (2, slot)
  | .markInvalid slot => (3, slot)
  | .subtract => (4, 0)

inductive UpdateOperation where
  | add (stake : ℕ)
  | markValid (slot : ℕ)
  | markInvalid (slot : ℕ)
  | subtract (stake : ℕ)
  | aggregate
  deriving DecidableEq, Repr

/-- `update_stake`, which panics on an operation without stake. -/
def UpdateOperation.updateStake (op : UpdateOperation) (newStake : ℕ) : Option UpdateOperation :=
  match op with
  | .add stake => some (.add (wrappingAdd 64 stake newStake))
  | .subtract stake => some (.subtract (wrappingAdd 64 stake newStake))
  | _ => none

/-- The keys of the batch of updates. -/
abbrev UpdateKey := SlotHashKey × UpdateLabel

def UpdateKey.lt (a b : UpdateKey) : Bool :=
  a.1.lt b.1 || (a.1 = b.1 &&
    (a.2.rank.1 < b.2.rank.1 || (a.2.rank.1 = b.2.rank.1 && a.2.rank.2 < b.2.rank.2)))

/-- `UpdateOperations`, a `BTreeMap`: its entries in increasing key order. -/
abbrev UpdateOperations := List (UpdateKey × UpdateOperation)

namespace UpdateOperations

def containsKey (ops : UpdateOperations) (key : UpdateKey) : Bool :=
  ops.any fun entry => entry.1.1 = key.1 ∧ entry.1.2 = key.2

/-- `insert` of a key that is absent, at its place in the order. -/
def insertNew (ops : UpdateOperations) (key : UpdateKey) (op : UpdateOperation) :
    UpdateOperations :=
  ops.filter (fun entry => entry.1.lt key) ++ [(key, op)] ++
    ops.filter (fun entry => !entry.1.lt key)

/-- `insert`: replaces the operation of a key that is there. -/
def insert (ops : UpdateOperations) (key : UpdateKey) (op : UpdateOperation) : UpdateOperations :=
  if ops.containsKey key then
    ops.map fun entry => if entry.1.1 = key.1 ∧ entry.1.2 = key.2 then (key, op) else entry
  else ops.insertNew key op

/-- `entry(key).and_modify(|update| update.update_stake(stake)).or_insert(op)`. -/
def addStake (ops : UpdateOperations) (key : UpdateKey) (stake : ℕ) (op : UpdateOperation) :
    Option UpdateOperations :=
  match (ops.find? fun entry => entry.1.1 = key.1 ∧ entry.1.2 = key.2) with
  | some (_, existing) => (existing.updateStake stake).map (ops.insert key)
  | none => some (ops.insertNew key op)

end UpdateOperations

structure ForkInfo where
  stakeVotedAt : ℕ
  stakeVotedSubtree : ℕ
  bestSlot : SlotHashKey
  parent : Option SlotHashKey
  children : List SlotHashKey
  latestInvalidAncestor : Option ℕ
  isDuplicateConfirmed : Bool
  deriving DecidableEq, Repr

namespace ForkInfo

def isCandidate (info : ForkInfo) : Bool := info.latestInvalidAncestor.isNone

def setDuplicateConfirmed (info : ForkInfo) : ForkInfo :=
  { info with isDuplicateConfirmed := true, latestInvalidAncestor := none }

def updateWithNewlyValidAncestor (info : ForkInfo) (newlyValidAncestor : ℕ) : ForkInfo :=
  match info.latestInvalidAncestor with
  | some latestInvalidAncestor =>
    if latestInvalidAncestor ≤ newlyValidAncestor then { info with latestInvalidAncestor := none }
    else info
  | none => info

/-- `update_with_newly_invalid_ancestor`; a duplicate confirmed block fails its assertion. -/
def updateWithNewlyInvalidAncestor (info : ForkInfo) (newlyInvalidAncestor : ℕ) :
    Option ForkInfo :=
  if info.isDuplicateConfirmed then none
  else if info.latestInvalidAncestor.all (· < newlyInvalidAncestor) then
    some { info with latestInvalidAncestor := some newlyInvalidAncestor }
  else some info

end ForkInfo

structure HeaviestSubtreeForkChoice where
  forkInfos : List (SlotHashKey × ForkInfo)
  latestVotes : List (Pubkey × SlotHashKey)
  root : SlotHashKey
  deriving DecidableEq

namespace HeaviestSubtreeForkChoice

variable (fc : HeaviestSubtreeForkChoice)

def get (key : SlotHashKey) : Option ForkInfo := Map.get fc.forkInfos key

def bestSlot (key : SlotHashKey) : Option SlotHashKey := (fc.get key).map (·.bestSlot)

def stakeVotedAt (key : SlotHashKey) : Option ℕ := (fc.get key).map (·.stakeVotedAt)

def stakeVotedSubtree (key : SlotHashKey) : Option ℕ := (fc.get key).map (·.stakeVotedSubtree)

def parent (key : SlotHashKey) : Option SlotHashKey := (fc.get key).bind (·.parent)

def latestInvalidAncestor (key : SlotHashKey) : Option ℕ :=
  (fc.get key).bind (·.latestInvalidAncestor)

/-- `get_mut(key).unwrap()` and a change to the entry. -/
def modifyInfo (key : SlotHashKey) (f : ForkInfo → ForkInfo) : Option HeaviestSubtreeForkChoice :=
  (Map.modify fc.forkInfos key f).map fun forkInfos => { fc with forkInfos }

/-- `AncestorIterator`: the ancestors of a block, nearest first. A path of parent links
in a tree visits each block at most once, so the blocks of the map bound it. -/
def ancestorsUpTo : ℕ → SlotHashKey → List SlotHashKey
  | 0, _ => []
  | fuel + 1, key =>
    match fc.parent key with
    | some parent => parent :: ancestorsUpTo fuel parent
    | none => []

def ancestors (key : SlotHashKey) : List SlotHashKey := fc.ancestorsUpTo fc.forkInfos.length key

/-- The loop of `subtree_diff`: a depth-first walk from a stack of pending blocks that
skips the subtree of `root2`. -/
def subtreeDiffLoop (root2 : SlotHashKey) :
    ℕ → List SlotHashKey → List SlotHashKey → Option (List SlotHashKey)
  | 0, _, reachable => some reachable
  | _ + 1, [], reachable => some reachable
  | fuel + 1, currentKey :: pending, reachable =>
    if currentKey = root2 then subtreeDiffLoop root2 fuel pending reachable
    else do
      let info ← fc.get currentKey
      subtreeDiffLoop root2 fuel (info.children.reverse ++ pending)
        (if currentKey ∈ reachable then reachable else reachable ++ [currentKey])

/-- `subtree_diff`: the blocks reachable from `root1` outside the subtree of `root2`. Each
block is pushed once, by its parent. -/
def subtreeDiff (root1 root2 : SlotHashKey) : Option (List SlotHashKey) :=
  if (fc.get root1).isNone then some []
  else fc.subtreeDiffLoop root2 (fc.forkInfos.length + 1) [root1] []

/-- The loop of `is_best_child` over the siblings: a candidate sibling that is heavier, or
as heavy and smaller, beats the block. -/
def isBestChildLoop (maybeBestChild : SlotHashKey) (weight : ℕ) :
    List SlotHashKey → Option Bool
  | [] => some true
  | child :: children => do
    let childInfo ← fc.get child
    if !childInfo.isCandidate then isBestChildLoop maybeBestChild weight children
    else if weight < childInfo.stakeVotedSubtree ∨
        (weight = childInfo.stakeVotedSubtree ∧ child.lt maybeBestChild) then some false
    else isBestChildLoop maybeBestChild weight children

def isBestChild (maybeBestChild : SlotHashKey) : Option Bool := do
  let weight ← fc.stakeVotedSubtree maybeBestChild
  match fc.parent maybeBestChild with
  | none => some true
  | some parent =>
    let parentInfo ← fc.get parent
    fc.isBestChildLoop maybeBestChild weight parentInfo.children

/-- The walk of `propagate_new_leaf` up from the parent, while each ancestor's best slot
is the parent's old one. -/
def propagateLoop (leaf parentBestSlot : SlotHashKey) :
    ℕ → HeaviestSubtreeForkChoice → Option SlotHashKey → Option HeaviestSubtreeForkChoice
  | 0, fc, _ => some fc
  | _ + 1, fc, none => some fc
  | fuel + 1, fc, some ancestor => do
    let info ← fc.get ancestor
    if info.bestSlot = parentBestSlot then
      let fc ← fc.modifyInfo ancestor fun info => { info with bestSlot := leaf }
      propagateLoop leaf parentBestSlot fuel fc info.parent
    else some fc

def propagateNewLeaf (key parentKey : SlotHashKey) : Option HeaviestSubtreeForkChoice := do
  let parentBestSlot ← fc.bestSlot parentKey
  if (← fc.isBestChild key) then
    propagateLoop key parentBestSlot fc.forkInfos.length fc (some parentKey)
  else some fc

def addNewLeafSlot (key : SlotHashKey) (parent : Option SlotHashKey) :
    Option HeaviestSubtreeForkChoice :=
  if (fc.get key).isSome then some fc
  else
    let parentLatestInvalidAncestor := parent.bind fc.latestInvalidAncestor
    let info : ForkInfo := ⟨0, 0, key, parent, [], parentLatestInvalidAncestor, parent.isNone⟩
    let fc := { fc with forkInfos := Map.insert fc.forkInfos key info }
    match parent with
    | none => some fc
    | some parent => do
      let fc ← fc.modifyInfo parent fun info => { info with children := info.children ++ [key] }
      fc.propagateNewLeaf key parent

/-- `new`: a tree of one block, the root. -/
def new (root : SlotHashKey) : Option HeaviestSubtreeForkChoice :=
  HeaviestSubtreeForkChoice.addNewLeafSlot ⟨[], [], root⟩ root none

def addSlotStake (key : SlotHashKey) (stake : ℕ) : HeaviestSubtreeForkChoice :=
  ((fc.modifyInfo key fun info => { info with
    stakeVotedAt := wrappingAdd 64 info.stakeVotedAt stake
    stakeVotedSubtree := wrappingAdd 64 info.stakeVotedSubtree stake }).getD fc)

def subtractSlotStake (key : SlotHashKey) (stake : ℕ) : HeaviestSubtreeForkChoice :=
  ((fc.modifyInfo key fun info => { info with
    stakeVotedAt := wrappingSub 64 info.stakeVotedAt stake
    stakeVotedSubtree := wrappingSub 64 info.stakeVotedSubtree stake }).getD fc)

/-- The loop of `aggregate_slot` over the children: the subtree stake, the best
candidate child's stake and key, and the best slot so far. -/
def aggregateLoop (key : SlotHashKey) :
    List SlotHashKey → ℕ × ℕ × SlotHashKey × SlotHashKey × Bool →
      Option (ℕ × ℕ × SlotHashKey × SlotHashKey × Bool)
  | [], acc => some acc
  | childKey :: children,
      (stakeVotedSubtree, bestChildStake, bestChildKey, bestSlot, isDuplicateConfirmed) => do
    let child ← fc.get childKey
    let stakeVotedSubtree := wrappingAdd 64 stakeVotedSubtree child.stakeVotedSubtree
    let isDuplicateConfirmed := isDuplicateConfirmed || child.isDuplicateConfirmed
    if child.isCandidate ∧ (bestChildKey = key ∨ bestChildStake < child.stakeVotedSubtree ∨
        (child.stakeVotedSubtree = bestChildStake ∧ childKey.lt bestChildKey)) then
      aggregateLoop key children
        (stakeVotedSubtree, child.stakeVotedSubtree, childKey, child.bestSlot, isDuplicateConfirmed)
    else
      aggregateLoop key children
        (stakeVotedSubtree, bestChildStake, bestChildKey, bestSlot, isDuplicateConfirmed)

def aggregateSlot (key : SlotHashKey) : Option HeaviestSubtreeForkChoice :=
  match fc.get key with
  | none => some fc
  | some info => do
    let (stakeVotedSubtree, _, _, bestSlot, isDuplicateConfirmed) ←
      fc.aggregateLoop key info.children (info.stakeVotedAt, 0, key, key, false)
    fc.modifyInfo key fun info =>
      let info := if isDuplicateConfirmed then info.setDuplicateConfirmed else info
      { info with stakeVotedSubtree, bestSlot }

def markForkValid (key : SlotHashKey) (validSlot : ℕ) : HeaviestSubtreeForkChoice :=
  ((fc.modifyInfo key fun info =>
    let info := info.updateWithNewlyValidAncestor validSlot
    if key.1 = validSlot then { info with isDuplicateConfirmed := true } else info).getD fc)

def markForkInvalid (key : SlotHashKey) (invalidSlot : ℕ) : Option HeaviestSubtreeForkChoice :=
  match fc.get key with
  | none => some fc
  | some info => do
    let info ← info.updateWithNewlyInvalidAncestor invalidSlot
    pure { fc with forkInfos := Map.insert fc.forkInfos key info }

/-- `do_insert_aggregate_operation`: `false` if the block already has its aggregate. -/
def doInsertAggregateOperation (ops : UpdateOperations) (modifyForkValidity : Option UpdateOperation)
    (key : SlotHashKey) : UpdateOperations × Bool :=
  if ops.containsKey (key, .aggregate) then (ops, false)
  else
    let ops :=
      match modifyForkValidity with
      | some (.markValid slot) => ops.insert (key, .markValid slot) (.markValid slot)
      | some (.markInvalid slot) => ops.insert (key, .markInvalid slot) (.markInvalid slot)
      | _ => ops
    (ops.insert (key, .aggregate) .aggregate, true)

/-- `do_insert_aggregate_operations_across_ancestors`: up the ancestors until one already
has its aggregate, which its own ancestors then have too. -/
def insertAggregateAcross (modifyForkValidity : Option UpdateOperation) :
    List SlotHashKey → UpdateOperations → UpdateOperations
  | [], ops => ops
  | ancestor :: ancestors, ops =>
    let (ops, inserted) := doInsertAggregateOperation ops modifyForkValidity ancestor
    if inserted then insertAggregateAcross modifyForkValidity ancestors ops else ops

def insertAggregateOperations (ops : UpdateOperations) (key : SlotHashKey) : UpdateOperations :=
  insertAggregateAcross none (fc.ancestors key) ops

/-- `process_update_operations`: from the largest key down. -/
def processUpdateOperations (ops : UpdateOperations) : Option HeaviestSubtreeForkChoice :=
  ops.reverse.foldlM (fun fc ((key, _), op) =>
    match op with
    | .markValid validSlot => some (fc.markForkValid key validSlot)
    | .markInvalid invalidSlot => fc.markForkInvalid key invalidSlot
    | .aggregate => fc.aggregateSlot key
    | .add stake => some (fc.addSlotStake key stake)
    | .subtract stake => some (fc.subtractSlotStake key stake)) fc

/-- Where the stakes of the validators come from: the epoch of a slot, and the stake of a
vote account in an epoch (`0` without an entry). -/
structure EpochStakes where
  epochOf : ℕ → ℕ
  voteAccountStake : ℕ → Pubkey → ℕ

/-- One vote of `generate_update_operations`: a vote below the root or not newer than the
validator's latest is dropped; otherwise the stake moves from the latest vote's block to
the new one, each with the aggregates of its ancestors. -/
def generateStep (stakes : EpochStakes) (state : HeaviestSubtreeForkChoice × UpdateOperations × List Pubkey)
    (vote : Pubkey × SlotHashKey) : Option (HeaviestSubtreeForkChoice × UpdateOperations × List Pubkey) :=
  let (fc, ops, observedPubkeys) := state
  let (pubkey, newVote) := vote
  if newVote.1 < fc.root.1 then some state
  else if pubkey ∈ observedPubkeys then none
  else
    let observedPubkeys := observedPubkeys ++ [pubkey]
    let latestVote := Map.get fc.latestVotes pubkey
    if latestVote.any (fun latest => newVote.1 < latest.1 ∨ (newVote.1 = latest.1 ∧ latest.2 ≤ newVote.2))
    then some (fc, ops, observedPubkeys)
    else do
      let fc := { fc with latestVotes := Map.insert fc.latestVotes pubkey newVote }
      let ops ← match latestVote with
        | none => some ops
        | some oldVote =>
          let stakeUpdate := stakes.voteAccountStake (stakes.epochOf oldVote.1) pubkey
          if stakeUpdate > 0 then do
            let ops ← ops.addStake (oldVote, .subtract) stakeUpdate (.subtract stakeUpdate)
            some (fc.insertAggregateOperations ops oldVote)
          else some ops
      let stakeUpdate := stakes.voteAccountStake (stakes.epochOf newVote.1) pubkey
      let ops ← ops.addStake (newVote, .add) stakeUpdate (.add stakeUpdate)
      some (fc, fc.insertAggregateOperations ops newVote, observedPubkeys)

/-- `add_votes`: the tree after the batch, and its best slot. -/
def addVotes (pubkeyVotes : List (Pubkey × SlotHashKey)) (stakes : EpochStakes) :
    Option (HeaviestSubtreeForkChoice × SlotHashKey) := do
  let (fc, ops, _) ← pubkeyVotes.foldlM (generateStep stakes) (fc, [], [])
  let fc ← fc.processUpdateOperations ops
  let best ← fc.bestSlot fc.root
  pure (fc, best)

/-- `set_root`: everything the new root does not descend from is removed. -/
def setRoot (newRoot : SlotHashKey) : Option HeaviestSubtreeForkChoice := do
  let removeSet ← fc.subtreeDiff fc.root newRoot
  let fc ← removeSet.foldlM (fun fc key =>
    if (fc.get key).isSome then some { fc with forkInfos := Map.erase fc.forkInfos key }
    else none) fc
  let fc ← fc.modifyInfo newRoot fun info => { info with parent := none }
  pure { fc with root := newRoot }

/-- `add_root_parent`: a new block above the root, with the root's subtree stake and
best slot and no stake of its own. -/
def addRootParent (rootParent : SlotHashKey) : Option HeaviestSubtreeForkChoice :=
  if fc.root.1 ≤ rootParent.1 then none
  else if (fc.get rootParent).isSome then none
  else do
    let rootInfo ← fc.get fc.root
    let fc ← fc.modifyInfo fc.root fun info => { info with parent := some rootParent }
    pure { fc with
      forkInfos := Map.insert fc.forkInfos rootParent
        ⟨0, rootInfo.stakeVotedSubtree, rootInfo.bestSlot, none, [fc.root], none,
          rootInfo.isDuplicateConfirmed⟩
      root := rootParent }

/-- `mark_fork_invalid_candidate`: every block of the subtree learns of the invalid
ancestor, then the ancestors are aggregated again. -/
def markForkInvalidCandidate (invalidKey : SlotHashKey) : Option HeaviestSubtreeForkChoice :=
  match fc.get invalidKey with
  | none => some fc
  | some info =>
    if info.isDuplicateConfirmed then none
    else do
      let subtree ← fc.subtreeDiff invalidKey (0, 0)
      let ops := subtree.foldl (fun ops key =>
        (doInsertAggregateOperation ops (some (.markInvalid invalidKey.1)) key).1) []
      fc.processUpdateOperations (fc.insertAggregateOperations ops invalidKey)

/-- `mark_fork_valid_candidate`, without the list of newly confirmed ancestors it returns. -/
def markForkValidCandidate (validKey : SlotHashKey) : Option HeaviestSubtreeForkChoice := do
  let subtree ← fc.subtreeDiff validKey (0, 0)
  let ops := subtree.foldl (fun ops key =>
    (doInsertAggregateOperation ops (some (.markValid validKey.1)) key).1) []
  fc.processUpdateOperations (fc.insertAggregateOperations ops validKey)

/-! ## Votes for a block above the root -/

/-- The stake of the validators whose latest vote is for the block, in the epoch of the
block: what its `stake_voted_at` stands for. -/
def latestVoteStake (stakes : EpochStakes) (key : SlotHashKey) : ℕ :=
  ((fc.latestVotes.filter fun vote => vote.2 = key).map fun vote =>
    stakes.voteAccountStake (stakes.epochOf key.1) vote.1).sum

theorem modifyInfo_latestVotes {key : SlotHashKey} {f : ForkInfo → ForkInfo}
    {fc' : HeaviestSubtreeForkChoice} (h : fc.modifyInfo key f = some fc') :
    fc'.latestVotes = fc.latestVotes := by
  obtain ⟨forkInfos, -, rfl⟩ := Option.map_eq_some_iff.mp h
  rfl

/-- `add_root_parent` gives the new root no stake of its own, whatever the latest votes
say of it: the votes for a block that `set_root` pruned stay in `latest_votes`. -/
theorem addRootParent_drops_votes (stakes : EpochStakes) {rootParent : SlotHashKey}
    {fc' : HeaviestSubtreeForkChoice} (h : fc.addRootParent rootParent = some fc') :
    fc'.stakeVotedAt rootParent = some 0 ∧
      fc'.latestVoteStake stakes rootParent = fc.latestVoteStake stakes rootParent := by
  unfold addRootParent at h
  split_ifs at h
  simp only [Option.bind_eq_bind, Option.bind_eq_some_iff, Option.pure_def,
    Option.some.injEq] at h
  obtain ⟨rootInfo, -, fc₁, hmodify, rfl⟩ := h
  constructor
  · simp [stakeVotedAt, get]
  · simp [latestVoteStake, modifyInfo_latestVotes fc hmodify]

/-- A validator votes for block 0 with a stake of 10; the root moves to block 1 and
block 0 comes back as its parent. The vote is still the validator's latest, but block 0
has no stake; when the validator votes for block 2, the stake of block 0 goes below zero
and wraps. -/
theorem addRootParent_loses_votes :
    let stakes : EpochStakes := ⟨fun _ => 0, fun _ pubkey => if pubkey = 5 then 10 else 0⟩
    let rooted : Option HeaviestSubtreeForkChoice := do
      let fc ← new (0, 0)
      let fc ← fc.addNewLeafSlot (1, 1) (some (0, 0))
      let (fc, _) ← fc.addVotes [(5, (0, 0))] stakes
      let fc ← fc.setRoot (1, 1)
      fc.addRootParent (0, 0)
    let revoted : Option HeaviestSubtreeForkChoice := do
      let fc ← rooted
      let fc ← fc.addNewLeafSlot (2, 2) (some (1, 1))
      let (fc, _) ← fc.addVotes [(5, (2, 2))] stakes
      pure fc
    rooted.map (fun fc => (fc.stakeVotedAt (0, 0), fc.latestVoteStake stakes (0, 0))) =
        some (some 0, 10) ∧
      revoted.map (fun fc => (fc.stakeVotedAt (0, 0), fc.latestVoteStake stakes (0, 0))) =
        some (some (2 ^ 64 - 10), 0) := by
  decide +kernel

end HeaviestSubtreeForkChoice

end Solana.Consensus
