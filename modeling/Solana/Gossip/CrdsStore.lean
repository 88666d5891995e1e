import Solana.Gossip.CrdsShards
import Solana.Lib.Run

/-! `Crds` with its `IndexMap` and indexes, and the operations that change them. A `HashMap` is an
association list in its unspecified iteration order; a panic is `none`. -/

namespace Solana.Gossip

open MachineInt IndexMap

/-- The kinds of values that `Crds` indexes beside the table. -/
def CrdsData.isContactInfo : CrdsData → Bool
  | .contactInfo _ => true
  | _ => false

def CrdsData.isVote : CrdsData → Bool
  | .vote _ _ => true
  | _ => false

def CrdsData.isEpochSlots : CrdsData → Bool
  | .epochSlots _ _ => true
  | _ => false

/-- `Cursor::consume`: the cursor moves past the ordinal. `ordinal + 1` is a `u64` addition,
which wraps in a release build. -/
def consume (cursor ordinal : ℕ) : ℕ := max cursor (wrappingAdd 64 ordinal 1)

structure Crds where
  table : List (CrdsValueLabel × VersionedCrdsValue)
  cursor : ℕ
  shards : CrdsShards
  nodes : List ℕ
  votes : ℕ → Option ℕ
  epochSlots : ℕ → Option ℕ
  records : List (Pubkey × List ℕ)
  entries : ℕ → Option ℕ
  purged : List (Hash × ℕ)

namespace Crds

/-- `CRDS_SHARDS_BITS`. -/
def crdsShardsBits : ℕ := 8

/-- `Crds::default`. -/
def default : Crds where
  table := []
  cursor := 0
  shards := CrdsShards.new crdsShardsBits
  nodes := []
  votes := fun _ => none
  epochSlots := fun _ => none
  records := []
  entries := fun _ => none
  purged := []

/-- `values`: the values of the table, in the order of their positions. -/
def values (self : Crds) : List VersionedCrdsValue := self.table.map Prod.snd

/-- `Crds::insert`, of a value whose serialization `hash` hashes. A new label goes at the end
of the table; a value that overrides the one held for its label takes its place, and that one's
hash is purged; an outdated value fails, and its hash is purged unless it is the value held.
The route only feeds the statistics. `overrides` breaks a tie of wallclocks with the hash of
the held value, which the source reads from the entry: it is `hash` of the value
(`Consistent.valueHash_eq`). -/
def insert (hash : CrdsValue → Hash) (self : Crds) (value : CrdsValue) (now : ℕ) :
    Except CrdsError Unit × Crds :=
  let label := value.label
  let pubkey := value.pubkey
  let value := VersionedCrdsValue.new hash value self.cursor now
  match getFull self.table label with
  | none =>
    let entryIndex := self.table.length
    (.ok (), { self with
      table := self.table ++ [(label, value)]
      cursor := consume self.cursor value.ordinal
      shards := (self.shards.insert entryIndex value).1
      nodes := if value.value.data.isContactInfo then IndexMap.insert self.nodes entryIndex
        else self.nodes
      votes := if value.value.data.isVote then Function.update self.votes value.ordinal (some entryIndex)
        else self.votes
      epochSlots := if value.value.data.isEpochSlots then
          Function.update self.epochSlots value.ordinal (some entryIndex)
        else self.epochSlots
      entries := Function.update self.entries value.ordinal (some entryIndex)
      -- `records.entry(pubkey).or_default().insert(entry_index)`
      records := insertKV self.records pubkey
        (IndexMap.insert ((get? self.records pubkey).getD []) entryIndex) })
  | some (entryIndex, old) =>
    if overrides hash value.value old.value then
      (.ok (), { self with
        table := self.table.set entryIndex (label, value)
        cursor := consume self.cursor value.ordinal
        shards := ((self.shards.remove entryIndex old).1.insert entryIndex value).1
        votes := if value.value.data.isVote then
            Function.update (Function.update self.votes old.ordinal none) value.ordinal (some entryIndex)
          else self.votes
        epochSlots := if value.value.data.isEpochSlots then
            Function.update (Function.update self.epochSlots old.ordinal none) value.ordinal
              (some entryIndex)
          else self.epochSlots
        entries := Function.update (Function.update self.entries old.ordinal none) value.ordinal
          (some entryIndex)
        purged := self.purged ++ [(old.valueHash, now)] })
    else
      (.error .insertFailed, { self with
        purged := if old.valueHash ≠ value.valueHash then self.purged ++ [(value.valueHash, now)]
          else self.purged })

/-- `Crds::remove`: the last value of the table takes the place of the removed one, and the
indexes of both are patched. A value whose origin has no records entry panics. -/
def remove (self : Crds) (key : CrdsValueLabel) (now : ℕ) : Option Crds :=
  match getFull self.table key with
  | none => some self
  | some (index, value) => do
    let table := swapRemoveAt self.table index
    let purged := self.purged ++ [(value.valueHash, now)]
    let shards := (self.shards.remove index value).1
    let nodes := if value.value.data.isContactInfo then swapRemove self.nodes index else self.nodes
    let votes := if value.value.data.isVote then Function.update self.votes value.ordinal none
      else self.votes
    let epochSlots := if value.value.data.isEpochSlots then
        Function.update self.epochSlots value.ordinal none
      else self.epochSlots
    let entries := Function.update self.entries value.ordinal none
    let indices ← get? self.records value.value.pubkey
    let indices := swapRemove indices index
    let records := if indices.isEmpty then swapRemoveKey self.records value.value.pubkey
      else insertKV self.records value.value.pubkey indices
    let size := table.length
    if h : index < size then
      let value := table[index].2
      let shards := ((shards.remove size value).1.insert index value).1
      let nodes := if value.value.data.isContactInfo then IndexMap.insert (swapRemove nodes size) index
        else nodes
      let votes := if value.value.data.isVote then Function.update votes value.ordinal (some index)
        else votes
      let epochSlots := if value.value.data.isEpochSlots then
          Function.update epochSlots value.ordinal (some index)
        else epochSlots
      let entries := Function.update entries value.ordinal (some index)
      -- `records.get_mut(&pubkey).unwrap()`
      let moved ← get? records value.value.pubkey
      let records := insertKV records value.value.pubkey (IndexMap.insert (swapRemove moved size) index)
      some { table, cursor := self.cursor, shards, nodes, votes, epochSlots, records, entries, purged }
    else
      some { table, cursor := self.cursor, shards, nodes, votes, epochSlots, records, entries, purged }

/-- The local timestamp moves up to `now`. -/
def bumpTimestamp (now : ℕ) (entry : VersionedCrdsValue) : VersionedCrdsValue :=
  if entry.localTimestamp < now then { entry with localTimestamp := now } else entry

/-- `Crds::update_record_timestamp`: the origin's contact info when it is in the table, and all
of the origin's values otherwise. `index_mut` panics past the end of the table. -/
def updateRecordTimestamp (self : Crds) (pubkey : Pubkey) (now : ℕ) : Option Crds :=
  match getFull self.table (.contactInfo pubkey) with
  | some (index, _) =>
    some { self with table := self.table.modify index (Prod.map id (bumpTimestamp now)) }
  | none =>
    match get? self.records pubkey with
    | none => some self
    | some indices =>
      (indices.foldlM (fun table index =>
          if index < table.length then some (table.modify index (Prod.map id (bumpTimestamp now)))
          else none) self.table).map fun table => { self with table }

/-- `Crds::trim_purged`: drops the purged hashes older than the timestamp from the front. -/
def trimPurged (self : Crds) (timestamp : ℕ) : Crds :=
  { self with purged := self.purged.dropWhile fun (_, ts) => ts < timestamp }

/-- What `select_nth_unstable(n)` may leave of the keys: a rearrangement with `n` keys of least
stake first, ties by pubkey, in an order that the standard library leaves unspecified. -/
structure SelectNth where
  arrange : ℕ → List (ℕ × Pubkey) → List (ℕ × Pubkey)
  perm : ∀ n keys, (arrange n keys).Perm keys
  least_first : ∀ n keys, ∀ a ∈ (arrange n keys).take n, ∀ b ∈ (arrange n keys).drop n,
    toLex a ≤ toLex b

/-- One arrangement `select_nth_unstable` may leave: all the keys in order. -/
def SelectNth.sort : SelectNth where
  arrange _ keys := keys.mergeSort fun a b => decide (toLex a ≤ toLex b)
  perm _ keys := List.mergeSort_perm _ _
  least_first n keys a ha b hb := by
    have hsorted := @List.pairwise_mergeSort _ (fun a b => decide (toLex a ≤ toLex b))
      (fun _ _ _ hab hbc => by simp only [decide_eq_true_eq] at *; exact le_trans hab hbc)
      (fun a b => by simpa using le_total (toLex a) (toLex b)) keys
    rw [← List.take_append_drop n (keys.mergeSort _), List.pairwise_append] at hsorted
    simpa using hsorted.2.2 a ha b hb

/-- `Crds::drop`: removes the values of the `size` origins `select_nth_unstable` puts first,
those of least stake, except those that `keep` names; the values go in the order of the
records. A missing records entry or position panics. -/
def drop (self : Crds) (selectNth : SelectNth) (size : ℕ) (keep : List Pubkey)
    (stakes : List (Pubkey × ℕ)) (now : ℕ) : Option (Except CrdsError ℕ × Crds) :=
  if stakes.all fun (_, stake) => stake = 0 then some (.error .unknownStakes, self)
  else do
    let keys := self.records.map fun (k, _) => ((get? stakes k).getD 0, k)
    let keys := if size < keys.length then selectNth.arrange size keys else keys
    let keys := ((keys.take size).map Prod.snd).filter fun k => k ∉ keep
    let indices ← keys.mapM (get? self.records)
    let labels ← indices.flatten.mapM fun index => self.table[index]?.map Prod.fst
    let self ← Run.exec (fun crds key => crds.remove key now) self labels
    some (.ok labels.length, self)

/-- `Crds::should_trim`: more origins than the capacity and a tenth. The products are `usize`
products, which wrap in a release build. -/
def shouldTrim (self : Crds) (cap : ℕ) : Bool := wrap 64 (11 * cap) < wrap 64 (10 * self.records.length)

/-- `Crds::trim`. -/
def trim (self : Crds) (selectNth : SelectNth) (cap : ℕ) (keep : List Pubkey)
    (stakes : List (Pubkey × ℕ)) (now : ℕ) : Option (Except CrdsError ℕ × Crds) :=
  if self.shouldTrim cap then self.drop selectNth (self.records.length - cap) keep stakes now
  else some (.ok 0, self)

/-- `Crds::filter_bitmask`: the values whose hash has the top `mask_bits` bits of `mask`.
Indexing the table panics past the end. -/
def filterBitmask (self : Crds) (mask maskBits : ℕ) : Option (List VersionedCrdsValue) := do
  let indices ← self.shards.find mask maskBits
  indices.mapM fun index => self.table[index]?.map Prod.snd

/-! ## Runs of the table -/

/-- The operations that change the table. -/
inductive Op where
  | insert (value : CrdsValue) (now : ℕ)
  | remove (key : CrdsValueLabel) (now : ℕ)
  | trim (selectNth : SelectNth) (cap : ℕ) (keep : List Pubkey) (stakes : List (Pubkey × ℕ))
      (now : ℕ)
  | updateRecordTimestamp (pubkey : Pubkey) (now : ℕ)
  | trimPurged (timestamp : ℕ)

/-- One operation; `none` is a panic. -/
def step (hash : CrdsValue → Hash) (self : Crds) : Op → Option Crds
  | .insert value now => some (self.insert hash value now).2
  | .remove key now => self.remove key now
  | .trim selectNth cap keep stakes now => (self.trim selectNth cap keep stakes now).map Prod.snd
  | .updateRecordTimestamp pubkey now => self.updateRecordTimestamp pubkey now
  | .trimPurged timestamp => some (self.trimPurged timestamp)

def run (hash : CrdsValue → Hash) (self : Crds) (ops : List Op) : Option Crds :=
  Run.exec (step hash) self ops

/-- The number of inserts of a run: each takes one ordinal of the cursor. -/
def Op.cost : Op → ℕ
  | .insert _ _ => 1
  | _ => 0

end Crds

end Solana.Gossip
