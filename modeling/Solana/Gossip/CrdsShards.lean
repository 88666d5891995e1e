import Solana.Gossip.Crds
import Solana.Gossip.PullFilter
import Solana.Lib.IndexMap
import Solana.Lib.Buckets

/-! `gossip/src/crds_shards.rs`: `find` returns exactly the positions of the matching hashes
(`find_eq`), and `Tracks` is kept by the table's updates. -/

namespace Solana.Gossip

open MachineInt IndexMap Buckets

/-- `VersionedCrdsValue`: a value of the table with the ordinal of its insertion, the local time
of its last update, and the hash of its serialization. -/
structure VersionedCrdsValue where
  ordinal : ℕ
  value : CrdsValue
  localTimestamp : ℕ
  valueHash : Hash
  deriving DecidableEq, Repr

/-- `VersionedCrdsValue::new`: the ordinal is the cursor's, and `hash` hashes the serialized
value. -/
def VersionedCrdsValue.new (hash : CrdsValue → Hash) (value : CrdsValue) (cursor localTimestamp : ℕ) :
    VersionedCrdsValue :=
  { ordinal := cursor, value, localTimestamp, valueHash := hash value }

section New

variable (hash : CrdsValue → Hash) (value : CrdsValue) (cursor localTimestamp : ℕ)

@[simp] theorem VersionedCrdsValue.ordinal_new :
    (VersionedCrdsValue.new hash value cursor localTimestamp).ordinal = cursor := rfl

@[simp] theorem VersionedCrdsValue.value_new :
    (VersionedCrdsValue.new hash value cursor localTimestamp).value = value := rfl

@[simp] theorem VersionedCrdsValue.valueHash_new :
    (VersionedCrdsValue.new hash value cursor localTimestamp).valueHash = hash value := rfl

end New

structure CrdsShards where
  shards : List (List (ℕ × ℕ))
  shardBits : ℕ
  deriving DecidableEq, Repr

namespace CrdsShards

/-- `CrdsShards::new`: `1 << shard_bits` empty shards. -/
def new (shardBits : ℕ) : CrdsShards :=
  { shards := List.replicate (wrappingShl 64 1 shardBits) [], shardBits }

/-- `shard_index`: the top `shard_bits` bits of the hash. With no shard bits the shift by 64
fails and every hash goes to shard `0`. -/
def shardIndex (self : CrdsShards) (hash : ℕ) : ℕ :=
  (checkedShr 64 hash (wrappingSub 32 64 self.shardBits)).getD 0

/-- `shard(hash)`: indexing the shards panics past the end. -/
def shard (self : CrdsShards) (hash : ℕ) : Option (List (ℕ × ℕ)) :=
  self.shards[self.shardIndex hash]?

/-- `CrdsShards::insert`: files the position under the value's hash; true when it was not there.
`shard_mut` indexes the shards as `shard` does, and the index is in range for the shards of the
table (`Wf.shardIndex_lt`), so the update is a `modify`. -/
def insert (self : CrdsShards) (index : ℕ) (value : VersionedCrdsValue) : CrdsShards × Bool :=
  let hash := hashAsU64 value.valueHash
  ({ self with shards := self.shards.modify (self.shardIndex hash) (insertKV · index hash) },
    (get? ((self.shard hash).getD []) index).isNone)

/-- `CrdsShards::remove`: drops the position from the shard of the value's hash; true when it was
there. -/
def remove (self : CrdsShards) (index : ℕ) (value : VersionedCrdsValue) : CrdsShards × Bool :=
  let hash := hashAsU64 value.valueHash
  ({ self with shards := self.shards.modify (self.shardIndex hash) (swapRemoveKey · index) },
    (get? ((self.shard hash).getD []) index).isSome)

/-- `CrdsShards::find`: the positions whose hash has the top `mask_bits` bits of `mask`. -/
def find (self : CrdsShards) (mask maskBits : ℕ) : Option (List ℕ) :=
  let ones := (checkedShr 64 (2 ^ 64 - 1) maskBits).getD 0
  let mask := mask ||| ones
  match compare self.shardBits maskBits with
  | .lt =>
    (self.shard mask).map fun shard =>
      shard.filterMap fun (index, hash) => if hash ||| ones = mask then some index else none
  | .eq => (self.shard mask).map fun shard => shard.map Prod.fst
  | .gt =>
    let count := wrappingShl 64 1 (self.shardBits - maskBits)
    let «end» := self.shardIndex mask + 1
    -- `shards[end - count..end]` panics unless the range lies within the shards
    if count ≤ «end» ∧ «end» ≤ self.shards.length then
      some ((self.shards.extract («end» - count) «end»).flatMap fun shard => shard.map Prod.fst)
    else none

/-! ## Shard indexes -/

theorem shardIndex_eq {self : CrdsShards} (hbits : self.shardBits ≤ 64) {hash : ℕ}
    (hhash : hash < 2 ^ 64) : self.shardIndex hash = topBits 64 self.shardBits hash := by
  rw [shardIndex, wrappingSub_of_le hbits (by decide), checkedShr]
  split_ifs with hshift
  · rfl
  · rw [Option.getD_none, topBits, show 64 - self.shardBits = 64 by omega, Nat.div_eq_of_lt hhash]

/-- `!0 >> mask_bits`, or `0` for a shift by 64: the bits below the top `mask_bits`. -/
theorem ones_eq_of_le {maskBits : ℕ} (hmb : maskBits ≤ 64) :
    (checkedShr 64 (2 ^ 64 - 1) maskBits).getD 0 = 2 ^ (64 - maskBits) - 1 := by
  by_cases hm : maskBits < 64
  · rw [← CrdsFilterSet.ones_eq hm, checkedShr, if_pos hm, Option.getD_some, Option.getD_some]
  · rw [show maskBits = 64 by omega]
    rfl

theorem or_ones_lt {mask : ℕ} (hmask : mask < 2 ^ 64) (k : ℕ) (hk : k ≤ 64) :
    mask ||| (2 ^ k - 1) < 2 ^ 64 :=
  Nat.or_lt_two_pow hmask (by have := Nat.pow_le_pow_right (show 0 < 2 by decide) hk; omega)

/-- Shards as the table keeps them: one per value of the top `shard_bits` bits, each holding
`u64` hashes filed under it. -/
structure Wf (cs : CrdsShards) : Prop where
  shardBits_lt : cs.shardBits < 64
  length_shards : cs.shards.length = 2 ^ cs.shardBits
  mem_shard : ∀ s, ∀ e ∈ cs.shards.getD s [], e.2 < 2 ^ 64 ∧ cs.shardIndex e.2 = s

variable {self : CrdsShards}

theorem Wf.shardIndex_lt (hwf : self.Wf) {hash : ℕ} (hhash : hash < 2 ^ 64) :
    self.shardIndex hash < self.shards.length := by
  rw [shardIndex_eq hwf.shardBits_lt.le hhash, hwf.length_shards]
  exact topBits_lt hwf.shardBits_lt.le hhash

/-- A hash in shard `s` has `s` as its top `shard_bits` bits. -/
theorem Wf.topBits_of_mem (hwf : self.Wf) {s : ℕ} (hs : s < self.shards.length) {e : ℕ × ℕ}
    (he : e ∈ self.shards[s]) : topBits 64 self.shardBits e.2 = s := by
  obtain ⟨hlt, hindex⟩ := hwf.mem_shard s e (by rwa [List.getD_eq_getElem _ _ hs])
  rw [← shardIndex_eq hwf.shardBits_lt.le hlt, hindex]

/-! ## `find` in its three regimes -/

section Find

variable {mask maskBits : ℕ}

/-- More mask bits than shard bits: the one shard of the mask, filtered. -/
theorem find_of_lt (hwf : self.Wf) (hmask : mask < 2 ^ 64) (hmb : maskBits ≤ 64)
    (hlt : self.shardBits < maskBits) :
    self.find mask maskBits = some ((self.shards.flatten.filter fun e =>
      topBits 64 maskBits e.2 = topBits 64 maskBits mask).map Prod.fst) := by
  have hsi : self.shardIndex (mask ||| (2 ^ (64 - maskBits) - 1)) = topBits 64 self.shardBits mask := by
    rw [shardIndex_eq hwf.shardBits_lt.le (or_ones_lt hmask _ (by omega)), topBits_or_low (by omega)]
  have hi : topBits 64 self.shardBits mask < self.shards.length :=
    hwf.length_shards ▸ topBits_lt hwf.shardBits_lt.le hmask
  have hflat := filter_flatten_eq_getElem (fun e : ℕ × ℕ =>
      decide (topBits 64 maskBits e.2 = topBits 64 maskBits mask)) hi fun s hs hne e he => by
    rw [decide_eq_false_iff_not]
    intro hagree
    exact hne (hwf.topBits_of_mem hs he ▸ topBits_eq_of_le hlt.le hmb hagree)
  rw [find, ones_eq_of_le hmb, (compare_lt_iff_lt).mpr hlt]
  simp only [shard, hsi, List.getElem?_eq_getElem hi, Option.map_some, hflat, Option.some.injEq]
  rw [filterMap_eq_map_filter (fun hash => hash ||| (2 ^ (64 - maskBits) - 1) =
    mask ||| (2 ^ (64 - maskBits) - 1))]
  simp only [Words.or_two_pow_sub_one_eq_iff]
  rfl

/-- As many mask bits as shard bits: the one shard of the mask. -/
theorem find_of_eq (hwf : self.Wf) (hmask : mask < 2 ^ 64) (hmb : maskBits ≤ 64)
    (heq : self.shardBits = maskBits) :
    self.find mask maskBits = some ((self.shards.flatten.filter fun e =>
      topBits 64 maskBits e.2 = topBits 64 maskBits mask).map Prod.fst) := by
  subst heq
  have hsi : self.shardIndex (mask ||| (2 ^ (64 - self.shardBits) - 1)) =
      topBits 64 self.shardBits mask := by
    rw [shardIndex_eq hwf.shardBits_lt.le (or_ones_lt hmask _ (by omega)), topBits_or_low le_rfl]
  have hi : topBits 64 self.shardBits mask < self.shards.length :=
    hwf.length_shards ▸ topBits_lt hwf.shardBits_lt.le hmask
  have hflat := filter_flatten_eq_getElem (fun e : ℕ × ℕ =>
      decide (topBits 64 self.shardBits e.2 = topBits 64 self.shardBits mask)) hi
    fun s hs hne e he => by
      rw [decide_eq_false_iff_not, hwf.topBits_of_mem hs he]
      exact hne
  have hall : self.shards[topBits 64 self.shardBits mask].filter (fun e : ℕ × ℕ =>
      decide (topBits 64 self.shardBits e.2 = topBits 64 self.shardBits mask)) =
      self.shards[topBits 64 self.shardBits mask] :=
    List.filter_eq_self.mpr fun e he => by rw [hwf.topBits_of_mem hi he, decide_eq_true_eq]
  rw [find, ones_eq_of_le hmb, (compare_eq_iff_eq).mpr rfl]
  simp only [shard, hsi, List.getElem?_eq_getElem hi, Option.map_some, hflat, hall]

/-- Fewer mask bits than shard bits: the run of shards that share the top mask bits, which ends
at the shard of the mask with its lower bits set. -/
theorem find_of_gt (hwf : self.Wf) (hmask : mask < 2 ^ 64) (hmb : maskBits ≤ 64)
    (hgt : maskBits < self.shardBits) :
    self.find mask maskBits = some ((self.shards.flatten.filter fun e =>
      topBits 64 maskBits e.2 = topBits 64 maskBits mask).map Prod.fst) := by
  set t := topBits 64 maskBits mask
  set c := self.shardBits - maskBits
  have hcount : wrappingShl 64 1 c = 2 ^ c := wrappingShl_one (by have := hwf.shardBits_lt; omega)
  have hsi : self.shardIndex (mask ||| (2 ^ (64 - maskBits) - 1)) = t * 2 ^ c + (2 ^ c - 1) := by
    rw [shardIndex_eq hwf.shardBits_lt.le (or_ones_lt hmask _ (by omega)),
      topBits_or_ones hgt.le hwf.shardBits_lt.le]
  have hend : t * 2 ^ c + (2 ^ c - 1) + 1 = (t + 1) * 2 ^ c := by
    have := Nat.one_le_two_pow (n := c)
    rw [Nat.add_mul]
    omega
  have hle : (t + 1) * 2 ^ c ≤ self.shards.length := by
    calc (t + 1) * 2 ^ c ≤ 2 ^ maskBits * 2 ^ c :=
          Nat.mul_le_mul_right _ (topBits_lt hmb hmask)
      _ = self.shards.length := by
          rw [← Nat.pow_add, hwf.length_shards]
          congr 1
          omega
  have hflat := filter_flatten_eq_extract (fun e : ℕ × ℕ =>
      decide (topBits 64 maskBits e.2 = t)) self.shards (t * 2 ^ c) ((t + 1) * 2 ^ c) hle
    fun s hs e he => by
      rw [decide_eq_decide, ← div_eq_iff_mem_range, ← hwf.topBits_of_mem hs he]
      show _ ↔ topBits self.shardBits maskBits (topBits 64 self.shardBits e.2) = t
      rw [topBits_topBits hgt.le hwf.shardBits_lt.le]
  rw [find, ones_eq_of_le hmb, (compare_gt_iff_gt).mpr hgt]
  simp only [show self.shardBits - maskBits = c from rfl, hcount, hsi, hend]
  rw [hflat, List.map_flatten, if_pos ⟨Nat.le_mul_of_pos_left _ (Nat.succ_pos t), hle⟩,
    show (t + 1) * 2 ^ c - 2 ^ c = t * 2 ^ c by rw [Nat.add_mul, one_mul, Nat.add_sub_cancel],
    List.flatMap_def]

theorem find_eq (hwf : self.Wf) (hmask : mask < 2 ^ 64) (hmb : maskBits ≤ 64) :
    self.find mask maskBits = some ((self.shards.flatten.filter fun e =>
      topBits 64 maskBits e.2 = topBits 64 maskBits mask).map Prod.fst) := by
  rcases Nat.lt_trichotomy self.shardBits maskBits with hlt | heq | hgt
  · exact find_of_lt hwf hmask hmb hlt
  · exact find_of_eq hwf hmask hmb heq
  · exact find_of_gt hwf hmask hmb hgt

end Find

/-! ## The shards index the values of the table -/

/-- The shards index `values`: shard `s` maps the position of each value filed under `s` to the
value's hash, and holds nothing else. -/
structure Tracks (cs : CrdsShards) (values : List VersionedCrdsValue) : Prop where
  shardBits_lt : cs.shardBits < 64
  length_shards : cs.shards.length = 2 ^ cs.shardBits
  valued : ∀ s, IsValued (fun v => decide (cs.shardIndex (hashAsU64 v.valueHash) = s))
    (fun v => hashAsU64 v.valueHash) values (cs.shards.getD s [])

@[simp] theorem shardIndex_insert (index : ℕ) (value : VersionedCrdsValue) :
    (self.insert index value).1.shardIndex = self.shardIndex := rfl

@[simp] theorem shardIndex_remove (index : ℕ) (value : VersionedCrdsValue) :
    (self.remove index value).1.shardIndex = self.shardIndex := rfl

@[simp] theorem length_insert (index : ℕ) (value : VersionedCrdsValue) :
    (self.insert index value).1.shards.length = self.shards.length := List.length_modify _ _ _

@[simp] theorem length_remove (index : ℕ) (value : VersionedCrdsValue) :
    (self.remove index value).1.shards.length = self.shards.length := List.length_modify _ _ _

theorem getD_insert {index : ℕ} {value : VersionedCrdsValue}
    (hlt : self.shardIndex (hashAsU64 value.valueHash) < self.shards.length) (s : ℕ) :
    (self.insert index value).1.shards.getD s [] =
      if self.shardIndex (hashAsU64 value.valueHash) = s then
        insertKV (self.shards.getD s []) index (hashAsU64 value.valueHash)
      else self.shards.getD s [] :=
  getD_modify hlt _ s

theorem getD_remove {index : ℕ} {value : VersionedCrdsValue}
    (hlt : self.shardIndex (hashAsU64 value.valueHash) < self.shards.length) (s : ℕ) :
    (self.remove index value).1.shards.getD s [] =
      if self.shardIndex (hashAsU64 value.valueHash) = s then
        swapRemoveKey (self.shards.getD s []) index
      else self.shards.getD s [] :=
  getD_modify hlt _ s

theorem tracks_new {shardBits : ℕ} (hbits : shardBits < 64) : (new shardBits).Tracks [] where
  shardBits_lt := hbits
  length_shards := by rw [new, List.length_replicate, wrappingShl_one hbits]
  valued s := by
    have hempty : (new shardBits).shards.getD s [] = [] := by
      rw [new, List.getD_eq_getElem?_getD, List.getElem?_replicate]
      split_ifs <;> rfl
    rw [hempty]
    exact ⟨List.nodup_nil, fun j => rfl⟩

variable {values : List VersionedCrdsValue}

theorem Tracks.wf (h : self.Tracks values) : self.Wf where
  shardBits_lt := h.shardBits_lt
  length_shards := h.length_shards
  mem_shard s e he := by
    obtain ⟨j, x⟩ := e
    obtain ⟨v, -, hs, rfl⟩ := (h.valued s).mem_iff.mp he
    exact ⟨CrdsFilterSet.hashAsU64_lt _, of_decide_eq_true hs⟩

theorem Tracks.shardIndex_lt (h : self.Tracks values) (value : VersionedCrdsValue) :
    self.shardIndex (hashAsU64 value.valueHash) < self.shards.length :=
  h.wf.shardIndex_lt (CrdsFilterSet.hashAsU64_lt _)

/-- A value appended to the table is filed under its hash. -/
theorem Tracks.append (h : self.Tracks values) (value : VersionedCrdsValue) :
    (self.insert values.length value).1.Tracks (values ++ [value]) := by
  refine ⟨h.shardBits_lt, by rw [length_insert, h.length_shards]; rfl, fun s => ?_⟩
  have hs := (h.valued s).append value
  rw [shardIndex_insert, getD_insert (h.shardIndex_lt value)]
  by_cases hshard : self.shardIndex (hashAsU64 value.valueHash) = s
  · simpa [hshard] using hs
  · simpa [hshard] using hs

/-- A value replaced in place moves from the shard of the old hash to that of the new. -/
theorem Tracks.set (h : self.Tracks values) {i : ℕ} {old : VersionedCrdsValue}
    (hget : values[i]? = some old) (value : VersionedCrdsValue) :
    ((self.remove i old).1.insert i value).1.Tracks (values.set i value) := by
  refine ⟨h.shardBits_lt, by rw [length_insert, length_remove, h.length_shards]; rfl, fun s => ?_⟩
  have hs := (h.valued s).set hget value
  rw [shardIndex_insert, shardIndex_remove, getD_insert (by rw [length_remove]; exact h.shardIndex_lt value),
    getD_remove (h.shardIndex_lt old)]
  by_cases hnew : self.shardIndex (hashAsU64 value.valueHash) = s <;>
    by_cases hold : self.shardIndex (hashAsU64 old.valueHash) = s <;> simpa [hnew, hold] using hs

/-- Removing the last value drops it from its shard. -/
theorem Tracks.swapRemoveAt_last (h : self.Tracks values) {i : ℕ} {old : VersionedCrdsValue}
    (hget : values[i]? = some old) (hlast : values.length - 1 ≤ i) :
    (self.remove i old).1.Tracks (swapRemoveAt values i) := by
  refine ⟨h.shardBits_lt, by rw [length_remove, h.length_shards]; rfl, fun s => ?_⟩
  have hs := (h.valued s).swapRemoveAt_last hget hlast
  rw [shardIndex_remove, getD_remove (h.shardIndex_lt old)]
  by_cases hold : self.shardIndex (hashAsU64 old.valueHash) = s <;> simpa [hold] using hs

/-- Removing a value that the last one replaces: as `Crds::remove` does it, the removed value
leaves its shard, and the last value moves from the last position to the freed one. -/
theorem Tracks.swapRemoveAt_moved (h : self.Tracks values) {i : ℕ} {old moved : VersionedCrdsValue}
    (hget : values[i]? = some old) (hgetm : values[values.length - 1]? = some moved)
    (hi : i < values.length - 1) :
    (((self.remove i old).1.remove (values.length - 1) moved).1.insert i moved).1.Tracks
      (swapRemoveAt values i) := by
  refine ⟨h.shardBits_lt, by rw [length_insert, length_remove, length_remove, h.length_shards]; rfl,
    fun s => ?_⟩
  have hs := (h.valued s).swapRemoveAt_moved hget hgetm hi
  rw [shardIndex_insert, shardIndex_remove, shardIndex_remove,
    getD_insert (by rw [length_remove, length_remove]; exact h.shardIndex_lt _),
    getD_remove (by rw [length_remove]; exact h.shardIndex_lt _), getD_remove (h.shardIndex_lt _)]
  by_cases hmoved : self.shardIndex (hashAsU64 moved.valueHash) = s <;>
    by_cases hold : self.shardIndex (hashAsU64 old.valueHash) = s <;>
    simpa [hmoved, hold] using hs

/-- An update that keeps the hash of every value keeps the shards. -/
theorem Tracks.modify (h : self.Tracks values) {f : VersionedCrdsValue → VersionedCrdsValue}
    (hf : ∀ v, (f v).valueHash = v.valueHash) (i : ℕ) : self.Tracks (values.modify i f) where
  shardBits_lt := h.shardBits_lt
  length_shards := h.length_shards
  valued s := (h.valued s).modify (fun v => by rw [hf]) (fun v => by rw [hf]) i

/-- A shard holds a position with a hash exactly when the value there has that hash and is
filed under the shard. -/
theorem Tracks.mem_shard_iff (h : self.Tracks values) {s : ℕ} (hs : s < self.shards.length)
    {j x : ℕ} : (j, x) ∈ self.shards[s] ↔
      ∃ v, values[j]? = some v ∧ self.shardIndex (hashAsU64 v.valueHash) = s ∧
        hashAsU64 v.valueHash = x := by
  rw [← List.getD_eq_getElem _ [] hs, (h.valued s).mem_iff]
  simp only [decide_eq_true_eq]

/-- Read together, the shards hold each position of the table once, with the hash of its
value. -/
theorem Tracks.flatten_perm (h : self.Tracks values) :
    self.shards.flatten.Perm (values.zipIdx.map fun p => (p.2, hashAsU64 p.1.valueHash)) := by
  have hnodup : self.shards.flatten.Nodup := by
    rw [List.nodup_flatten]
    constructor
    · intro shard hshard
      obtain ⟨s, hs, rfl⟩ := List.getElem_of_mem hshard
      have hkeys := (h.valued s).keys_nodup
      rw [List.getD_eq_getElem _ _ hs] at hkeys
      exact hkeys.of_map _
    · rw [List.pairwise_iff_getElem]
      intro s t hs ht hst ⟨j, x⟩ hes het
      obtain ⟨v, hv, hvs, -⟩ := (h.mem_shard_iff hs).mp hes
      obtain ⟨w, hw, hwt, -⟩ := (h.mem_shard_iff ht).mp het
      rw [hv, Option.some.injEq] at hw
      subst hw
      omega
  have hnodup' : (values.zipIdx.map fun p => (p.2, hashAsU64 p.1.valueHash)).Nodup := by
    apply List.Nodup.of_map Prod.fst
    rw [List.map_map]
    exact (List.zipIdx_map_snd 0 values).symm ▸ List.nodup_range' 1 (by decide)
  refine (List.perm_ext_iff_of_nodup hnodup hnodup').mpr fun ⟨j, x⟩ => ?_
  rw [List.mem_flatten, List.mem_map]
  constructor
  · rintro ⟨shard, hshard, he⟩
    obtain ⟨s, hs, rfl⟩ := List.getElem_of_mem hshard
    obtain ⟨v, hv, -, rfl⟩ := (h.mem_shard_iff hs).mp he
    exact ⟨(v, j), List.mem_zipIdx_iff_getElem?.mpr hv, rfl⟩
  · rintro ⟨⟨v, j'⟩, hmem, heq⟩
    obtain ⟨rfl, rfl⟩ := Prod.mk.inj heq
    have hlt := h.shardIndex_lt v
    exact ⟨_, List.getElem_mem hlt,
      (h.mem_shard_iff hlt).mpr ⟨v, List.mem_zipIdx_iff_getElem?.mp hmem, rfl, rfl⟩⟩

end CrdsShards

end Solana.Gossip
