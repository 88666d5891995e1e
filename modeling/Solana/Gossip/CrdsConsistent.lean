import Solana.Gossip.CrdsStore

/-! `Consistent`: what each index of `Crds` holds of the table, kept by inserts and removals
(`Consistent.insert_vacant`, `Consistent.insert_overwrite`, `Consistent.remove`). -/

namespace Solana.Gossip

open MachineInt IndexMap

/-- `CrdsValueLabel::pubkey`. -/
def CrdsValueLabel.pubkey : CrdsValueLabel → Pubkey
  | .contactInfo p => p
  | .vote _ p => p
  | .lowestSlot p => p
  | .snapshotHashes p => p
  | .epochSlots _ p => p
  | .accountsHashes p => p
  | .legacyVersion p => p
  | .version p => p
  | .nodeInstance p => p
  | .duplicateShred _ p => p
  | .incrementalSnapshotHashes p => p

/-- The kinds of labels of the indexed kinds of values. -/
def CrdsValueLabel.isContactInfo : CrdsValueLabel → Bool
  | .contactInfo _ => true
  | _ => false

def CrdsValueLabel.isVote : CrdsValueLabel → Bool
  | .vote _ _ => true
  | _ => false

def CrdsValueLabel.isEpochSlots : CrdsValueLabel → Bool
  | .epochSlots _ _ => true
  | _ => false

namespace CrdsValue

theorem pubkey_label (value : CrdsValue) : value.label.pubkey = value.pubkey := by
  obtain ⟨_, data⟩ := value
  cases data <;> rfl

theorem isContactInfo_label (value : CrdsValue) :
    value.label.isContactInfo = value.data.isContactInfo := by
  obtain ⟨_, data⟩ := value
  cases data <;> rfl

theorem isVote_label (value : CrdsValue) : value.label.isVote = value.data.isVote := by
  obtain ⟨_, data⟩ := value
  cases data <;> rfl

theorem isEpochSlots_label (value : CrdsValue) :
    value.label.isEpochSlots = value.data.isEpochSlots := by
  obtain ⟨_, data⟩ := value
  cases data <;> rfl

/-- A label fixes the origin and whether a value is of an indexed kind. -/
theorem kinds_of_label_eq {value other : CrdsValue} (h : value.label = other.label) :
    value.data.isContactInfo = other.data.isContactInfo ∧ value.data.isVote = other.data.isVote ∧
      value.data.isEpochSlots = other.data.isEpochSlots ∧ value.pubkey = other.pubkey := by
  rw [← isContactInfo_label, ← isVote_label, ← isEpochSlots_label, ← pubkey_label, h,
    isContactInfo_label, isVote_label, isEpochSlots_label, pubkey_label]
  exact ⟨rfl, rfl, rfl, rfl⟩

end CrdsValue

namespace Crds

/-- The records entry of an origin, read as no positions when there is none. -/
def recordsOf (records : List (Pubkey × List ℕ)) (pubkey : Pubkey) : List ℕ :=
  (get? records pubkey).getD []

/-- The indexes are consistent with the table. -/
structure Consistent (hash : CrdsValue → Hash) (crds : Crds) : Prop where
  keys_nodup : KeysNodup crds.table
  label_eq : ∀ e ∈ crds.table, e.2.value.label = e.1
  valueHash_eq : ∀ v ∈ crds.values, v.valueHash = hash v.value
  /-- `nodes` is exactly the set of positions holding a contact info. -/
  nodes_positions : IsPositions (fun v => v.value.data.isContactInfo) crds.values crds.nodes
  /-- `votes` and `epoch_slots` map each vote's and epoch slots' ordinal to its position. -/
  votes_keyed : IsKeyed (fun v => v.value.data.isVote) VersionedCrdsValue.ordinal crds.values crds.votes
  epochSlots_keyed :
    IsKeyed (fun v => v.value.data.isEpochSlots) VersionedCrdsValue.ordinal crds.values crds.epochSlots
  /-- `entries` maps every ordinal to its position; the ordinals are distinct and below the
  cursor, a `u64`. -/
  entries_keyed : IsKeyed (fun _ => true) VersionedCrdsValue.ordinal crds.values crds.entries
  ordinal_injective : KeyInjective VersionedCrdsValue.ordinal crds.values
  ordinal_lt : ∀ v ∈ crds.values, v.ordinal < crds.cursor
  cursor_lt : crds.cursor < 2 ^ 64
  /-- `records[p]` is exactly the set of positions of the values of origin `p`, and no records
  entry is empty. -/
  records_keys : KeysNodup crds.records
  records_positions : ∀ pubkey,
    IsPositions (fun v => decide (v.value.pubkey = pubkey)) crds.values (recordsOf crds.records pubkey)
  records_ne_nil : ∀ e ∈ crds.records, e.2 ≠ []
  /-- The shards file every position once, under the top `shard_bits` bits of its hash. -/
  shards_tracks : crds.shards.Tracks crds.values

variable {hash : CrdsValue → Hash}

theorem consistent_default : default.Consistent hash where
  keys_nodup := List.nodup_nil
  label_eq _ h := absurd h List.not_mem_nil
  valueHash_eq _ h := absurd h List.not_mem_nil
  nodes_positions := ⟨List.nodup_nil, fun _ => by simp [default, values]⟩
  votes_keyed _ _ := by simp [default, values]
  epochSlots_keyed _ _ := by simp [default, values]
  entries_keyed _ _ := by simp [default, values]
  ordinal_injective _ _ _ _ h := by simp [default, values] at h
  ordinal_lt _ h := absurd h List.not_mem_nil
  cursor_lt := by decide
  records_keys := List.nodup_nil
  records_positions _ := ⟨List.nodup_nil, fun _ => by simp [default, values, recordsOf, get?]⟩
  records_ne_nil _ h := absurd h List.not_mem_nil
  shards_tracks := CrdsShards.tracks_new (by decide)

/-! ## Reading the records -/

theorem recordsOf_insertKV {records : List (Pubkey × List ℕ)} (hkeys : KeysNodup records)
    (pubkey : Pubkey) (indices : List ℕ) (p : Pubkey) :
    recordsOf (insertKV records pubkey indices) p =
      if p = pubkey then indices else recordsOf records p := by
  rw [recordsOf, get?_insertKV hkeys]
  split_ifs <;> rfl

theorem recordsOf_swapRemoveKey {records : List (Pubkey × List ℕ)} (hkeys : KeysNodup records)
    (pubkey p : Pubkey) :
    recordsOf (swapRemoveKey records pubkey) p = if p = pubkey then [] else recordsOf records p := by
  rw [recordsOf, get?_swapRemoveKey hkeys]
  split_ifs <;> rfl

/-- An origin with a position in the records has its entry. -/
theorem get?_eq_some_recordsOf {records : List (Pubkey × List ℕ)} {pubkey : Pubkey} {j : ℕ}
    (hj : j ∈ recordsOf records pubkey) : get? records pubkey = some (recordsOf records pubkey) := by
  unfold recordsOf at hj ⊢
  cases hget : get? records pubkey with
  | none => rw [hget] at hj; exact absurd hj List.not_mem_nil
  | some indices => rfl

/-- An origin with a value in the table has its records entry. -/
theorem Consistent.get?_records {self : Crds} (h : self.Consistent hash) {j : ℕ}
    {value : VersionedCrdsValue} (hj : self.values[j]? = some value) :
    get? self.records value.value.pubkey = some (recordsOf self.records value.value.pubkey) := by
  apply get?_eq_some_recordsOf (j := j)
  rw [(h.records_positions _).mem_iff, hj]
  simp

/-! ## Inserts -/

section Insert

variable {self : Crds} {value : CrdsValue} {now : ℕ}

/-- Below `u64::MAX` the cursor moves one past the ordinal it hands out. -/
theorem consume_self {cursor : ℕ} (h : cursor + 1 < 2 ^ 64) : consume cursor cursor = cursor + 1 := by
  rw [consume, wrappingAdd_of_lt h]
  omega

/-- A value of a new label goes at the end of the table and of the indexes of its kind. -/
theorem Consistent.insert_vacant (h : self.Consistent hash) (hcursor : self.cursor + 1 < 2 ^ 64)
    (hvacant : getFull self.table value.label = none) :
    (self.insert hash value now).2.Consistent hash := by
  simp only [insert, hvacant]
  set v := VersionedCrdsValue.new hash value self.cursor now with hv
  have hfresh : ∀ w ∈ self.values, w.ordinal ≠ v.ordinal := fun w hw =>
    Nat.ne_of_lt (h.ordinal_lt w hw)
  have hlen : self.table.length = self.values.length := (List.length_map _).symm
  have hvals : (self.table ++ [(value.label, v)]).map Prod.snd = self.values ++ [v] := by
    rw [List.map_append]
    rfl
  have hconsume : consume self.cursor v.ordinal = self.cursor + 1 := consume_self hcursor
  refine
    { keys_nodup := keysNodup_append_singleton h.keys_nodup (getFull_eq_none_iff.mp hvacant) v
      label_eq := fun e he => ?_
      valueHash_eq := fun w hw => ?_
      nodes_positions := ?_
      votes_keyed := ?_
      epochSlots_keyed := ?_
      entries_keyed := ?_
      ordinal_injective := ?_
      ordinal_lt := fun w hw => ?_
      cursor_lt := ?_
      records_keys := keysNodup_insertKV h.records_keys _ _
      records_positions := fun p => ?_
      records_ne_nil := fun e he => ?_
      shards_tracks := ?_ }
  · rcases List.mem_append.mp he with he | he
    · exact h.label_eq e he
    · rw [List.mem_singleton.mp he]
      rfl
  · change w ∈ (self.table ++ [(value.label, v)]).map Prod.snd at hw
    rw [hvals] at hw
    rcases List.mem_append.mp hw with hw | hw
    · exact h.valueHash_eq w hw
    · rw [List.mem_singleton.mp hw]
      rfl
  · change IsPositions _ ((self.table ++ [(value.label, v)]).map Prod.snd) _
    rw [hvals, hlen]
    exact h.nodes_positions.append v
  · change IsKeyed _ _ ((self.table ++ [(value.label, v)]).map Prod.snd) _
    rw [hvals, hlen]
    exact h.votes_keyed.append v hfresh
  · change IsKeyed _ _ ((self.table ++ [(value.label, v)]).map Prod.snd) _
    rw [hvals, hlen]
    exact h.epochSlots_keyed.append v hfresh
  · change IsKeyed _ _ ((self.table ++ [(value.label, v)]).map Prod.snd) _
    rw [hvals, hlen]
    exact h.entries_keyed.append v hfresh
  · change KeyInjective _ ((self.table ++ [(value.label, v)]).map Prod.snd)
    rw [hvals]
    exact h.ordinal_injective.append v hfresh
  · change w ∈ (self.table ++ [(value.label, v)]).map Prod.snd at hw
    change w.ordinal < consume self.cursor v.ordinal
    rw [hvals] at hw
    rw [hconsume]
    rcases List.mem_append.mp hw with hw | hw
    · exact Nat.lt_succ_of_lt (h.ordinal_lt w hw)
    · rw [List.mem_singleton.mp hw]
      exact Nat.lt_succ_self _
  · change consume self.cursor v.ordinal < 2 ^ 64
    rw [hconsume]
    exact hcursor
  · change IsPositions _ ((self.table ++ [(value.label, v)]).map Prod.snd)
      (recordsOf (insertKV self.records value.pubkey
        (IndexMap.insert (recordsOf self.records value.pubkey) self.table.length)) p)
    rw [hvals, hlen, recordsOf_insertKV h.records_keys]
    have happend := (h.records_positions p).append v
    by_cases hp : p = value.pubkey
    · subst hp
      simpa [v] using happend
    · simpa [v, hp, Ne.symm hp] using happend
  · rcases (mem_insertKV h.records_keys).mp he with rfl | ⟨he, -⟩
    · exact List.ne_nil_of_mem (mem_insert.mpr (Or.inr rfl))
    · exact h.records_ne_nil e he
  · change CrdsShards.Tracks _ ((self.table ++ [(value.label, v)]).map Prod.snd)
    rw [hvals, hlen]
    exact h.shards_tracks.append v

/-- A value that overrides the one held for its label takes its place, in the table and in the
indexes keyed by ordinal; the other indexes stay, since the label fixes the kind and the origin. -/
theorem Consistent.insert_overwrite (h : self.Consistent hash) (hcursor : self.cursor + 1 < 2 ^ 64)
    {i : ℕ} {old : VersionedCrdsValue} (hfull : getFull self.table value.label = some (i, old))
    (hoverrides : overrides hash value old.value = true) :
    (self.insert hash value now).2.Consistent hash := by
  simp only [insert, hfull, VersionedCrdsValue.value_new, hoverrides, if_true]
  set v := VersionedCrdsValue.new hash value self.cursor now with hv
  have hget : self.table[i]? = some (value.label, old) := (getFull_eq_some_iff h.keys_nodup).mp hfull
  have hvget : self.values[i]? = some old := by
    rw [values, List.getElem?_map, hget]
    rfl
  have hkinds := CrdsValue.kinds_of_label_eq (h.label_eq _ (List.mem_of_getElem? hget))
  have hfresh : ∀ w ∈ self.values, w.ordinal ≠ v.ordinal := fun w hw =>
    Nat.ne_of_lt (h.ordinal_lt w hw)
  have hvals : (self.table.set i (value.label, v)).map Prod.snd = self.values.set i v :=
    List.map_set
  have hconsume : consume self.cursor v.ordinal = self.cursor + 1 := consume_self hcursor
  refine
    { keys_nodup := keysNodup_set h.keys_nodup hget
      label_eq := fun e he => ?_
      valueHash_eq := fun w hw => ?_
      nodes_positions := ?_
      votes_keyed := ?_
      epochSlots_keyed := ?_
      entries_keyed := ?_
      ordinal_injective := ?_
      ordinal_lt := fun w hw => ?_
      cursor_lt := ?_
      records_keys := h.records_keys
      records_positions := fun p => ?_
      records_ne_nil := h.records_ne_nil
      shards_tracks := ?_ }
  · rcases List.mem_or_eq_of_mem_set he with he | rfl
    · exact h.label_eq e he
    · rfl
  · change w ∈ (self.table.set i (value.label, v)).map Prod.snd at hw
    rw [hvals] at hw
    rcases List.mem_or_eq_of_mem_set hw with hw | rfl
    · exact h.valueHash_eq w hw
    · rfl
  · change IsPositions _ ((self.table.set i (value.label, v)).map Prod.snd) _
    rw [hvals]
    exact h.nodes_positions.set hvget hkinds.1.symm
  · change IsKeyed _ _ ((self.table.set i (value.label, v)).map Prod.snd) _
    rw [hvals]
    exact h.votes_keyed.set h.ordinal_injective hvget hkinds.2.1.symm hfresh
  · change IsKeyed _ _ ((self.table.set i (value.label, v)).map Prod.snd) _
    rw [hvals]
    exact h.epochSlots_keyed.set h.ordinal_injective hvget hkinds.2.2.1.symm hfresh
  · change IsKeyed _ _ ((self.table.set i (value.label, v)).map Prod.snd) _
    rw [hvals]
    exact h.entries_keyed.set h.ordinal_injective hvget rfl hfresh
  · change KeyInjective _ ((self.table.set i (value.label, v)).map Prod.snd)
    rw [hvals]
    exact h.ordinal_injective.set hfresh
  · change w ∈ (self.table.set i (value.label, v)).map Prod.snd at hw
    change w.ordinal < consume self.cursor v.ordinal
    rw [hvals] at hw
    rw [hconsume]
    rcases List.mem_or_eq_of_mem_set hw with hw | rfl
    · exact Nat.lt_succ_of_lt (h.ordinal_lt w hw)
    · exact Nat.lt_succ_self _
  · change consume self.cursor v.ordinal < 2 ^ 64
    rw [hconsume]
    exact hcursor
  · change IsPositions _ ((self.table.set i (value.label, v)).map Prod.snd) _
    rw [hvals]
    exact (h.records_positions p).set hvget
      (by rw [show old.value.pubkey = value.pubkey from hkinds.2.2.2]; rfl)
  · change CrdsShards.Tracks _ ((self.table.set i (value.label, v)).map Prod.snd)
    rw [hvals]
    exact h.shards_tracks.set hvget v

/-- A failed insert only purges. -/
theorem Consistent.insert_failed (h : self.Consistent hash) {i : ℕ} {old : VersionedCrdsValue}
    (hfull : getFull self.table value.label = some (i, old))
    (hoverrides : overrides hash value old.value = false) :
    (self.insert hash value now).2.Consistent hash := by
  simp only [insert, hfull, VersionedCrdsValue.value_new, hoverrides, Bool.false_eq_true, if_false]
  exact { h with }

/-- An insert keeps the indexes consistent, and takes at most one ordinal of the cursor. -/
theorem Consistent.insert (h : self.Consistent hash) (hcursor : self.cursor + 1 < 2 ^ 64) :
    (self.insert hash value now).2.Consistent hash ∧
      (self.insert hash value now).2.cursor ≤ self.cursor + 1 := by
  cases hfull : getFull self.table value.label with
  | none =>
    refine ⟨h.insert_vacant hcursor hfull, ?_⟩
    simp only [Crds.insert, hfull, VersionedCrdsValue.ordinal_new, consume_self hcursor, le_refl]
  | some entry =>
    obtain ⟨i, old⟩ := entry
    cases hoverrides : overrides hash value old.value with
    | true =>
      refine ⟨h.insert_overwrite hcursor hfull hoverrides, ?_⟩
      simp only [Crds.insert, hfull, VersionedCrdsValue.value_new, hoverrides, if_true,
        VersionedCrdsValue.ordinal_new, consume_self hcursor, le_refl]
    | false =>
      refine ⟨h.insert_failed hfull hoverrides, ?_⟩
      simp only [Crds.insert, hfull, VersionedCrdsValue.value_new, hoverrides, Bool.false_eq_true,
        if_false]
      exact Nat.le_succ _

end Insert

/-! ## Removals -/

section Remove

variable {self : Crds} {i : ℕ} {old : VersionedCrdsValue}

/-- The records once a position leaves its origin's entry: an emptied entry goes. -/
theorem Consistent.recordsOf_erase (h : self.Consistent hash) (p : Pubkey) :
    recordsOf (if (swapRemove (recordsOf self.records old.value.pubkey) i).isEmpty then
        swapRemoveKey self.records old.value.pubkey
      else insertKV self.records old.value.pubkey (swapRemove (recordsOf self.records old.value.pubkey) i))
      p = if decide (old.value.pubkey = p) then swapRemove (recordsOf self.records p) i
        else recordsOf self.records p := by
  by_cases hp : old.value.pubkey = p
  · subst hp
    rw [decide_eq_true rfl, if_pos rfl]
    split_ifs with hempty
    · rw [recordsOf_swapRemoveKey h.records_keys, if_pos rfl]
      exact (List.isEmpty_iff.mp hempty).symm
    · rw [recordsOf_insertKV h.records_keys, if_pos rfl]
  · rw [decide_eq_false hp, if_neg Bool.false_ne_true]
    split_ifs
    · rw [recordsOf_swapRemoveKey h.records_keys, if_neg (Ne.symm hp)]
    · rw [recordsOf_insertKV h.records_keys, if_neg (Ne.symm hp)]

theorem Consistent.keysNodup_erase (h : self.Consistent hash) :
    KeysNodup (if (swapRemove (recordsOf self.records old.value.pubkey) i).isEmpty then
        swapRemoveKey self.records old.value.pubkey
      else insertKV self.records old.value.pubkey (swapRemove (recordsOf self.records old.value.pubkey) i)) := by
  split_ifs
  · exact keysNodup_swapRemoveKey h.records_keys _
  · exact keysNodup_insertKV h.records_keys _ _

theorem Consistent.ne_nil_erase (h : self.Consistent hash) :
    ∀ e ∈ (if (swapRemove (recordsOf self.records old.value.pubkey) i).isEmpty then
        swapRemoveKey self.records old.value.pubkey
      else insertKV self.records old.value.pubkey (swapRemove (recordsOf self.records old.value.pubkey) i)),
      e.2 ≠ [] := by
  intro e he
  split_ifs at he with hempty
  · exact h.records_ne_nil e ((mem_swapRemoveKey h.records_keys).mp he).1
  · rcases (mem_insertKV h.records_keys).mp he with rfl | ⟨he, -⟩
    · exact fun hnil => hempty (List.isEmpty_iff.mpr hnil)
    · exact h.records_ne_nil e he

/-- A removal of the last value: nothing moves. -/
theorem Consistent.remove_last (h : self.Consistent hash) {key : CrdsValueLabel} {now : ℕ}
    (hfull : getFull self.table key = some (i, old)) (hlast : ¬i < self.table.length - 1) :
    ∃ s', self.remove key now = some s' ∧ s'.Consistent hash ∧ s'.cursor = self.cursor := by
  have hget : self.table[i]? = some (key, old) := (getFull_eq_some_iff h.keys_nodup).mp hfull
  have hi : i < self.table.length := (List.getElem?_eq_some_iff.mp hget).1
  have hvget : self.values[i]? = some old := by
    rw [values, List.getElem?_map, hget]
    rfl
  have hvlen : self.values.length = self.table.length := List.length_map _
  have hnotlt : ¬i < (swapRemoveAt self.table i).length := by
    rw [length_swapRemoveAt hi]
    exact hlast
  simp only [Crds.remove, hfull, h.get?_records hvget, Option.bind_eq_bind, Option.bind_some,
    dif_neg hnotlt]
  refine ⟨_, rfl, ?_, rfl⟩
  have hvals : (swapRemoveAt self.table i).map Prod.snd = swapRemoveAt self.values i :=
    map_swapRemoveAt _ _ _
  have hlast' : self.values.length - 1 ≤ i := by omega
  have hmem : ∀ w ∈ (swapRemoveAt self.table i).map Prod.snd, w ∈ self.values := fun w hw => by
    rw [hvals] at hw
    exact mem_of_mem_swapRemoveAt hw
  refine
    { keys_nodup := keysNodup_swapRemoveAt h.keys_nodup i
      label_eq := fun e he => h.label_eq e (mem_of_mem_swapRemoveAt he)
      valueHash_eq := fun w hw => h.valueHash_eq w (hmem w hw)
      nodes_positions := ?_
      votes_keyed := ?_
      epochSlots_keyed := ?_
      entries_keyed := ?_
      ordinal_injective := ?_
      ordinal_lt := fun w hw => h.ordinal_lt w (hmem w hw)
      cursor_lt := h.cursor_lt
      records_keys := h.keysNodup_erase
      records_positions := fun p => ?_
      records_ne_nil := h.ne_nil_erase
      shards_tracks := ?_ }
  · change IsPositions _ ((swapRemoveAt self.table i).map Prod.snd) _
    rw [hvals]
    exact h.nodes_positions.swapRemoveAt_last hvget hlast'
  · change IsKeyed _ _ ((swapRemoveAt self.table i).map Prod.snd) _
    rw [hvals]
    exact h.votes_keyed.swapRemoveAt_last h.ordinal_injective hvget hlast'
  · change IsKeyed _ _ ((swapRemoveAt self.table i).map Prod.snd) _
    rw [hvals]
    exact h.epochSlots_keyed.swapRemoveAt_last h.ordinal_injective hvget hlast'
  · change IsKeyed _ _ ((swapRemoveAt self.table i).map Prod.snd) _
    rw [hvals]
    exact h.entries_keyed.swapRemoveAt_last h.ordinal_injective hvget hlast'
  · change KeyInjective _ ((swapRemoveAt self.table i).map Prod.snd)
    rw [hvals]
    exact h.ordinal_injective.swapRemoveAt (by omega)
  · change IsPositions _ ((swapRemoveAt self.table i).map Prod.snd) _
    rw [hvals, h.recordsOf_erase]
    exact (h.records_positions p).swapRemoveAt_last hvget hlast'
  · change CrdsShards.Tracks _ ((swapRemoveAt self.table i).map Prod.snd)
    rw [hvals]
    exact h.shards_tracks.swapRemoveAt_last hvget hlast'

/-- A removal that the last value fills: that value moves to the freed position, in the table
and in every index. -/
theorem Consistent.remove_moved (h : self.Consistent hash) {key : CrdsValueLabel} {now : ℕ}
    (hfull : getFull self.table key = some (i, old)) (hmoved : i < self.table.length - 1) :
    ∃ s', self.remove key now = some s' ∧ s'.Consistent hash ∧ s'.cursor = self.cursor := by
  have hget : self.table[i]? = some (key, old) := (getFull_eq_some_iff h.keys_nodup).mp hfull
  have hi : i < self.table.length := (List.getElem?_eq_some_iff.mp hget).1
  have hvget : self.values[i]? = some old := by
    rw [values, List.getElem?_map, hget]
    rfl
  have hvlen : self.values.length = self.table.length := List.length_map _
  have hlt : i < (swapRemoveAt self.table i).length := by
    rw [length_swapRemoveAt hi]
    exact hmoved
  simp only [Crds.remove, hfull, h.get?_records hvget, Option.bind_eq_bind, Option.bind_some,
    dif_pos hlt]
  generalize hmv : (swapRemoveAt self.table i)[i] = moved
  have hvgetm : self.values[self.values.length - 1]? = some moved.2 := by
    rw [values, List.getElem?_map, List.length_map, ← getElem?_swapRemoveAt_self hmoved,
      List.getElem?_eq_getElem hlt, hmv]
    rfl
  rw [length_swapRemoveAt hi, ← hvlen]
  have hmoved' : i < self.values.length - 1 := by omega
  have hlastmem : self.values.length - 1 ∈ recordsOf
      (if (swapRemove (recordsOf self.records old.value.pubkey) i).isEmpty then
        swapRemoveKey self.records old.value.pubkey
      else insertKV self.records old.value.pubkey (swapRemove (recordsOf self.records old.value.pubkey) i))
      moved.2.value.pubkey := by
    have hpos : self.values.length - 1 ∈ recordsOf self.records moved.2.value.pubkey := by
      rw [(h.records_positions _).mem_iff, hvgetm]
      simp
    rw [h.recordsOf_erase]
    split_ifs
    · exact (mem_swapRemove (h.records_positions _).nodup).mpr ⟨by omega, hpos⟩
    · exact hpos
  rw [get?_eq_some_recordsOf hlastmem, Option.bind_some]
  refine ⟨_, rfl, ?_, rfl⟩
  have hvals : (swapRemoveAt self.table i).map Prod.snd = swapRemoveAt self.values i :=
    map_swapRemoveAt _ _ _
  have hmem : ∀ w ∈ (swapRemoveAt self.table i).map Prod.snd, w ∈ self.values := fun w hw => by
    rw [hvals] at hw
    exact mem_of_mem_swapRemoveAt hw
  refine
    { keys_nodup := keysNodup_swapRemoveAt h.keys_nodup i
      label_eq := fun e he => h.label_eq e (mem_of_mem_swapRemoveAt he)
      valueHash_eq := fun w hw => h.valueHash_eq w (hmem w hw)
      nodes_positions := ?_
      votes_keyed := ?_
      epochSlots_keyed := ?_
      entries_keyed := ?_
      ordinal_injective := ?_
      ordinal_lt := fun w hw => h.ordinal_lt w (hmem w hw)
      cursor_lt := h.cursor_lt
      records_keys := keysNodup_insertKV h.keysNodup_erase _ _
      records_positions := fun p => ?_
      records_ne_nil := fun e he => ?_
      shards_tracks := ?_ }
  · change IsPositions _ ((swapRemoveAt self.table i).map Prod.snd) _
    rw [hvals]
    exact h.nodes_positions.swapRemoveAt_moved hvget hvgetm hmoved'
  · change IsKeyed _ _ ((swapRemoveAt self.table i).map Prod.snd) _
    rw [hvals]
    exact h.votes_keyed.swapRemoveAt_moved h.ordinal_injective hvget hvgetm hmoved'
  · change IsKeyed _ _ ((swapRemoveAt self.table i).map Prod.snd) _
    rw [hvals]
    exact h.epochSlots_keyed.swapRemoveAt_moved h.ordinal_injective hvget hvgetm hmoved'
  · change IsKeyed _ _ ((swapRemoveAt self.table i).map Prod.snd) _
    rw [hvals]
    exact h.entries_keyed.swapRemoveAt_moved h.ordinal_injective hvget hvgetm hmoved'
  · change KeyInjective _ ((swapRemoveAt self.table i).map Prod.snd)
    rw [hvals]
    exact h.ordinal_injective.swapRemoveAt (by omega)
  · change IsPositions _ ((swapRemoveAt self.table i).map Prod.snd) _
    rw [hvals, recordsOf_insertKV h.keysNodup_erase]
    have hpos := (h.records_positions p).swapRemoveAt_moved hvget hvgetm hmoved'
    by_cases hp : p = moved.2.value.pubkey
    · subst hp
      rw [if_pos rfl, h.recordsOf_erase]
      simpa using hpos
    · rw [if_neg hp, h.recordsOf_erase]
      simpa [Ne.symm hp] using hpos
  · rcases (mem_insertKV h.keysNodup_erase).mp he with rfl | ⟨he, -⟩
    · exact List.ne_nil_of_mem (mem_insert.mpr (Or.inr rfl))
    · exact h.ne_nil_erase e he
  · change CrdsShards.Tracks _ ((swapRemoveAt self.table i).map Prod.snd)
    rw [hvals]
    exact h.shards_tracks.swapRemoveAt_moved hvget hvgetm hmoved'

/-- A removal keeps the indexes consistent, and does not panic: the origin of the removed value
and that of the moved one have their records entries. -/
theorem Consistent.remove (h : self.Consistent hash) (key : CrdsValueLabel) (now : ℕ) :
    ∃ s', self.remove key now = some s' ∧ s'.Consistent hash ∧ s'.cursor = self.cursor := by
  cases hfull : getFull self.table key with
  | none => exact ⟨self, by simp only [Crds.remove, hfull], h, rfl⟩
  | some entry =>
    obtain ⟨i, old⟩ := entry
    by_cases hmoved : i < self.table.length - 1
    · exact h.remove_moved hfull hmoved
    · exact h.remove_last hfull hmoved

end Remove

end Crds

end Solana.Gossip
