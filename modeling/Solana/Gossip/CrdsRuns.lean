import Solana.Gossip.CrdsConsistent

/-! Every operation of `Crds` keeps `Consistent` and does not panic, so a run does while its
inserts leave the cursor below `u64::MAX` (`Consistent.run`). -/

namespace Solana.Gossip

open MachineInt IndexMap Buckets

namespace Crds

variable {hash : CrdsValue → Hash}

/-! ## Timestamps -/

section Update

variable {self : Crds}

@[simp] theorem bumpTimestamp_ordinal (now : ℕ) (entry : VersionedCrdsValue) :
    (bumpTimestamp now entry).ordinal = entry.ordinal := by
  unfold bumpTimestamp
  split_ifs <;> rfl

@[simp] theorem bumpTimestamp_value (now : ℕ) (entry : VersionedCrdsValue) :
    (bumpTimestamp now entry).value = entry.value := by
  unfold bumpTimestamp
  split_ifs <;> rfl

@[simp] theorem bumpTimestamp_valueHash (now : ℕ) (entry : VersionedCrdsValue) :
    (bumpTimestamp now entry).valueHash = entry.valueHash := by
  unfold bumpTimestamp
  split_ifs <;> rfl

/-- A timestamp bumped in place keeps the indexes: none of them reads it. -/
theorem Consistent.bump (h : self.Consistent hash) (index now : ℕ) :
    { self with table := self.table.modify index (Prod.map id (bumpTimestamp now)) }.Consistent
      hash := by
  have hvals : ({ self with table := self.table.modify index (Prod.map id (bumpTimestamp now)) } :
      Crds).values = self.values.modify index (bumpTimestamp now) := map_snd_modify _ _ _
  refine
    { keys_nodup := ?_, label_eq := ?_, valueHash_eq := ?_, nodes_positions := ?_,
      votes_keyed := ?_, epochSlots_keyed := ?_, entries_keyed := ?_, ordinal_injective := ?_,
      ordinal_lt := ?_, cursor_lt := h.cursor_lt, records_keys := h.records_keys,
      records_positions := ?_, records_ne_nil := h.records_ne_nil, shards_tracks := ?_ }
  · change (List.map Prod.fst (self.table.modify index _)).Nodup
    rw [map_modify_of_forall (f := Prod.map id (bumpTimestamp now)) fun _ => rfl]
    exact h.keys_nodup
  · exact forall_mem_modify h.label_eq (fun e he => by simpa using he) index
  all_goals rw [hvals]
  · exact forall_mem_modify h.valueHash_eq (fun v hv => by simpa using hv) index
  · exact h.nodes_positions.modify (fun v => by simp) index
  · exact h.votes_keyed.modify (fun v => by simp) (fun v => by simp) index
  · exact h.epochSlots_keyed.modify (fun v => by simp) (fun v => by simp) index
  · exact h.entries_keyed.modify (fun _ => rfl) (fun v => by simp) index
  · exact h.ordinal_injective.modify (fun v => by simp) index
  · exact forall_mem_modify h.ordinal_lt (fun v hv => by simpa using hv) index
  · exact fun pubkey => (h.records_positions pubkey).modify (fun v => by simp) index
  · exact h.shards_tracks.modify (fun v => by simp) index

/-- `update_record_timestamp` keeps the indexes and does not panic: the positions it reads off
the records are in the table. -/
theorem Consistent.updateRecordTimestamp (h : self.Consistent hash) (pubkey : Pubkey) (now : ℕ) :
    ∃ s', self.updateRecordTimestamp pubkey now = some s' ∧ s'.Consistent hash ∧
      s'.cursor = self.cursor := by
  unfold Crds.updateRecordTimestamp
  cases hfull : getFull self.table (.contactInfo pubkey) with
  | some entry =>
    obtain ⟨index, _⟩ := entry
    exact ⟨_, rfl, h.bump index now, rfl⟩
  | none =>
    cases hget : get? self.records pubkey with
    | none => exact ⟨self, rfl, h, rfl⟩
    | some indices =>
      have hlt : ∀ j ∈ indices, j < self.table.length := by
        intro j hj
        have hpos : j ∈ recordsOf self.records pubkey := by rw [recordsOf, hget]; exact hj
        rw [(h.records_positions pubkey).mem_iff] at hpos
        simpa [values] using any_lt hpos
      dsimp only
      rw [Run.foldlM_eq_exec]
      refine Run.map_exists (Run.exec_exists_of_mem
        (P := fun table => table.length = self.table.length ∧ ({ self with table } : Crds).Consistent hash)
        indices (fun table index hindex hs =>
          ⟨_, if_pos (hs.1 ▸ hlt index hindex), (List.length_modify ..).trans hs.1,
            hs.2.bump index now⟩) ⟨rfl, h⟩) fun table hs => ⟨hs.2, rfl⟩

end Update

/-- `trim_purged` touches only the purged hashes. -/
theorem Consistent.trimPurged {self : Crds} (h : self.Consistent hash) (timestamp : ℕ) :
    (self.trimPurged timestamp).Consistent hash :=
  { h with }

/-! ## Trimming -/

section Trim

variable {self : Crds}

/-- An origin of the records has its entry. -/
theorem get?_eq_some_recordsOf_of_mem {records : List (Pubkey × List ℕ)} (hkeys : KeysNodup records)
    {pubkey : Pubkey} {indices : List ℕ} (hmem : (pubkey, indices) ∈ records) :
    get? records pubkey = some (recordsOf records pubkey) := by
  rw [recordsOf, (get?_eq_some_iff hkeys).mpr hmem]
  rfl

/-- The positions of an origin's values are in the table. -/
theorem Consistent.lt_of_mem_recordsOf (h : self.Consistent hash) {pubkey : Pubkey} {j : ℕ}
    (hj : j ∈ recordsOf self.records pubkey) : j < self.table.length := by
  rw [(h.records_positions pubkey).mem_iff] at hj
  simpa [values] using any_lt hj

/-- `drop` keeps the indexes and does not panic: the origins it picks have records entries,
their positions are in the table, and each removal keeps the indexes. -/
theorem Consistent.drop (h : self.Consistent hash) (selectNth : SelectNth) (size : ℕ)
    (keep : List Pubkey) (stakes : List (Pubkey × ℕ)) (now : ℕ) :
    ∃ r, self.drop selectNth size keep stakes now = some r ∧ r.2.Consistent hash ∧
      r.2.cursor = self.cursor := by
  unfold Crds.drop
  split_ifs with hzero
  · exact ⟨_, rfl, h, rfl⟩
  refine Run.bind_exists (Q := fun indices => ∀ index ∈ indices.flatten, index < self.table.length)
    ⟨_, Run.mapM_eq_some_map (g := recordsOf self.records) _ fun k hk => ?_, ?_⟩
    fun indices hindices => ?_
  · obtain ⟨⟨stake, k'⟩, hx, rfl⟩ := List.mem_map.mp (List.mem_filter.mp hk).1
    have hx' : (stake, k') ∈
        self.records.map fun entry => ((get? stakes entry.1).getD 0, entry.1) := by
      have hx := List.mem_of_mem_take hx
      split_ifs at hx
      · exact (selectNth.perm _ _).mem_iff.mp hx
      · exact hx
    obtain ⟨⟨k'', indices⟩, hmem, heq⟩ := List.mem_map.mp hx'
    obtain ⟨-, rfl⟩ := Prod.mk.inj heq
    exact get?_eq_some_recordsOf_of_mem h.records_keys hmem
  · intro index hindex
    obtain ⟨_, hmem, hindex⟩ := List.mem_flatten.mp hindex
    obtain ⟨k, -, rfl⟩ := List.mem_map.mp hmem
    exact h.lt_of_mem_recordsOf hindex
  refine Run.bind_exists (Q := fun _ => True)
    ((Run.exists_mapM_eq_some _ fun index hindex => ?_).imp fun _ hlabels => ⟨hlabels, trivial⟩)
    fun labels _ => ?_
  · rw [List.getElem?_eq_getElem (hindices index hindex)]
    exact ⟨_, rfl⟩
  refine Run.bind_exists (Run.exec_exists (P := fun s => s.Consistent hash ∧ s.cursor = self.cursor)
    (fun s key hs => (hs.1.remove key now).imp fun _ hremove =>
      ⟨hremove.1, hremove.2.1, hremove.2.2.trans hs.2⟩) labels ⟨h, rfl⟩) fun s hs => ⟨_, rfl, hs⟩

/-- `trim` keeps the indexes and does not panic. -/
theorem Consistent.trim (h : self.Consistent hash) (selectNth : SelectNth) (cap : ℕ)
    (keep : List Pubkey) (stakes : List (Pubkey × ℕ)) (now : ℕ) :
    ∃ r, self.trim selectNth cap keep stakes now = some r ∧ r.2.Consistent hash ∧
      r.2.cursor = self.cursor := by
  unfold Crds.trim
  split_ifs
  · exact h.drop selectNth _ keep stakes now
  · exact ⟨_, rfl, h, rfl⟩

end Trim

/-! ## Runs -/

section Runs

variable {self : Crds}

/-- One operation from a consistent state succeeds, keeps the indexes and moves the cursor by
at most its cost, as long as that leaves the cursor below `u64::MAX`. -/
theorem Consistent.step (h : self.Consistent hash) (op : Op)
    (hcursor : self.cursor + op.cost < 2 ^ 64) :
    ∃ s', step hash self op = some s' ∧ s'.Consistent hash ∧ s'.cursor ≤ self.cursor + op.cost := by
  cases op with
  | insert value now =>
    obtain ⟨hcons, hle⟩ : (self.insert hash value now).2.Consistent hash ∧
        (self.insert hash value now).2.cursor ≤ self.cursor + 1 := h.insert hcursor
    exact ⟨_, rfl, hcons, hle⟩
  | remove key now =>
    obtain ⟨s', hremove, hcons, hcursor'⟩ := h.remove key now
    exact ⟨s', hremove, hcons, hcursor' ▸ Nat.le_add_right _ _⟩
  | trim selectNth cap keep stakes now =>
    obtain ⟨r, htrim, hcons, hcursor'⟩ := h.trim selectNth cap keep stakes now
    exact ⟨r.2, by rw [Crds.step, htrim, Option.map_some], hcons, hcursor' ▸ Nat.le_add_right _ _⟩
  | updateRecordTimestamp pubkey now =>
    obtain ⟨s', hupdate, hcons, hcursor'⟩ := h.updateRecordTimestamp pubkey now
    exact ⟨s', hupdate, hcons, hcursor' ▸ Nat.le_add_right _ _⟩
  | trimPurged timestamp => exact ⟨_, rfl, h.trimPurged timestamp, Nat.le_add_right _ _⟩

/-- A run from a consistent state succeeds and keeps the indexes, as long as its inserts leave
the cursor below `u64::MAX`. -/
theorem Consistent.run (h : self.Consistent hash) (ops : List Op)
    (hbudget : self.cursor + (ops.map Op.cost).sum < 2 ^ 64) :
    ∃ s', run hash self ops = some s' ∧ s'.Consistent hash :=
  Run.exec_exists_of_budget Op.cost Crds.cursor (fun _ op hs hcursor => hs.step op hcursor) ops h
    hbudget

end Runs

/-! ## Reading the table by hash prefix -/

/-- `filter_bitmask` of a consistent table does not panic, and yields the values whose hash
agrees with the mask on its top `mask_bits` bits, each once: the positions that `find` reads
off the shards are those of these values. -/
theorem Consistent.filterBitmask {self : Crds} (h : self.Consistent hash) {mask maskBits : ℕ}
    (hmask : mask < 2 ^ 64) (hmb : maskBits ≤ 64) :
    ∃ vs, self.filterBitmask mask maskBits = some vs ∧
      vs.Perm (self.values.filter fun v =>
        topBits 64 maskBits (hashAsU64 v.valueHash) = topBits 64 maskBits mask) := by
  let hits := self.values.zipIdx.filter fun p =>
    topBits 64 maskBits (hashAsU64 p.1.valueHash) = topBits 64 maskBits mask
  have hperm : ((self.shards.shards.flatten.filter fun e =>
      topBits 64 maskBits e.2 = topBits 64 maskBits mask).map Prod.fst).Perm (hits.map Prod.snd) := by
    have hshards := (h.shards_tracks.flatten_perm.filter fun e =>
      decide (topBits 64 maskBits e.2 = topBits 64 maskBits mask)).map Prod.fst
    rwa [List.filter_map, List.map_map] at hshards
  have hread : (hits.map Prod.snd).mapM (fun index => self.table[index]?.map Prod.snd) =
      some (hits.map Prod.fst) := by
    rw [List.mapM_map]
    refine Run.mapM_eq_some_map _ fun p hp => ?_
    have hget := List.mem_zipIdx_iff_getElem?.mp (List.mem_filter.mp hp).1
    simpa [values] using hget
  have hvalues : hits.map Prod.fst = self.values.filter fun v =>
      topBits 64 maskBits (hashAsU64 v.valueHash) = topBits 64 maskBits mask := by
    conv_rhs => rw [← List.zipIdx_map_fst 0 self.values]
    rw [List.filter_map]
    rfl
  obtain ⟨vs, hvs, hperm'⟩ := Run.mapM_some_of_perm _ hperm hread
  refine ⟨vs, ?_, hvalues ▸ hperm'⟩
  rw [Crds.filterBitmask, CrdsShards.find_eq h.shards_tracks.wf hmask hmb]
  exact hvs

/-! ## The indexes along every run -/

/-- From `Crds::default`, every run whose inserts stay below `u64::MAX` succeeds and keeps the
indexes consistent with the table, and `filter_bitmask` then reads the values of each hash
prefix. -/
theorem run_indexes_consistent (hash : CrdsValue → Hash) (ops : List Op)
    (hops : (ops.map Op.cost).sum < 2 ^ 64) :
    ∃ s, run hash default ops = some s ∧ s.Consistent hash ∧
      ∀ mask < 2 ^ 64, ∀ maskBits ≤ 64, ∃ vs, s.filterBitmask mask maskBits = some vs ∧
        vs.Perm (s.values.filter fun v =>
          topBits 64 maskBits (hashAsU64 v.valueHash) = topBits 64 maskBits mask) := by
  obtain ⟨s, hrun, hs⟩ :=
    (consistent_default : (default : Crds).Consistent hash).run ops (by rwa [default, Nat.zero_add])
  exact ⟨s, hrun, hs, fun mask hmask maskBits hmb => hs.filterBitmask hmask hmb⟩

theorem run_indexes_consistent_insert :
    ([Op.insert ⟨0, .contactInfo ⟨0, 0, 0⟩⟩ 0].map Op.cost).sum < 2 ^ 64 ∧
      ∃ s, run (fun _ => 0) default [.insert ⟨0, .contactInfo ⟨0, 0, 0⟩⟩ 0] = some s ∧
        s.Consistent (fun _ => 0) ∧
        ∀ mask < 2 ^ 64, ∀ maskBits ≤ 64, ∃ vs, s.filterBitmask mask maskBits = some vs ∧
          vs.Perm (s.values.filter fun v =>
            topBits 64 maskBits (hashAsU64 v.valueHash) = topBits 64 maskBits mask) :=
  ⟨by decide, run_indexes_consistent (fun _ => 0) [.insert ⟨0, .contactInfo ⟨0, 0, 0⟩⟩ 0] (by decide)⟩

/-! ## The cursor at `u64::MAX` -/

/-- The cursor handed out as an ordinal and consumed moves one past it, up to `u64::MAX`, where
the `u64` addition wraps and the cursor stays. -/
theorem consume_self_eq_min {cursor : ℕ} (h : cursor < 2 ^ 64) :
    consume cursor cursor = min (cursor + 1) (2 ^ 64 - 1) := by
  by_cases hlt : cursor + 1 < 2 ^ 64
  · rw [consume_self hlt]
    omega
  · obtain rfl : cursor = 2 ^ 64 - 1 := by omega
    decide

/-- The contact info of origin `0` at wallclock `k`: each overrides the one before. -/
def wallclockContactInfo (k : ℕ) : CrdsValue := ⟨0, .contactInfo ⟨0, k, 0⟩⟩

/-- Inserts of one contact info at the wallclocks `0, …, n`: the table holds the last, whose
ordinal is the cursor before it, and the cursor stops at `u64::MAX`. -/
theorem run_overriding_inserts (hash : CrdsValue → Hash) (n : ℕ) :
    ∃ s, run hash default ((List.range (n + 1)).map fun k => .insert (wallclockContactInfo k) 0) =
        some s ∧
      s.table = [(.contactInfo 0,
        VersionedCrdsValue.new hash (wallclockContactInfo n) (min n (2 ^ 64 - 1)) 0)] ∧
      s.cursor = min (n + 1) (2 ^ 64 - 1) := by
  induction n with
  | zero => exact ⟨_, rfl, rfl, rfl⟩
  | succ n ih =>
    obtain ⟨s, hrun, htable, hcursor⟩ := ih
    rw [List.range_succ, List.map_append, run, Run.exec_append, ← run, hrun, Option.bind_some]
    have hfull : getFull s.table (wallclockContactInfo (n + 1)).label =
        some (0, VersionedCrdsValue.new hash (wallclockContactInfo n) (min n (2 ^ 64 - 1)) 0) := by
      rw [htable]
      rfl
    have hoverrides : overrides hash (wallclockContactInfo (n + 1)) (wallclockContactInfo n) = true := by
      have hgt : compare (n + 1) n = .gt := compare_gt_iff_gt.mpr (Nat.lt_succ_self n)
      simp [overrides, overridesByWallclock, wallclockContactInfo, CrdsValue.wallclock, hgt]
    refine ⟨_, rfl, ?_, ?_⟩
    · simp only [Crds.insert, hfull, VersionedCrdsValue.value_new, hoverrides, if_true, hcursor]
      rw [htable]
      rfl
    · simp only [Crds.insert, hfull, VersionedCrdsValue.value_new, hoverrides, if_true,
        VersionedCrdsValue.ordinal_new, hcursor]
      rw [consume_self_eq_min (by omega)]
      omega

/-- After `2 ^ 64` inserts the cursor has stopped at `u64::MAX`, and the value held has that
ordinal: the ordinals are no longer below the cursor. -/
theorem run_overriding_inserts_ordinal_eq_cursor :
    ∃ s, run CrdsValue.signature default
          ((List.range (2 ^ 64)).map fun k => .insert (wallclockContactInfo k) 0) = some s ∧
      s.cursor = 2 ^ 64 - 1 ∧ (∃ v ∈ s.values, v.ordinal = s.cursor) ∧
      ¬ s.Consistent CrdsValue.signature := by
  obtain ⟨s, hrun, htable, hcursor⟩ := run_overriding_inserts CrdsValue.signature (2 ^ 64 - 1)
  have hv : VersionedCrdsValue.new CrdsValue.signature (wallclockContactInfo (2 ^ 64 - 1))
      (2 ^ 64 - 1) 0 ∈ s.values := by
    rw [values, htable]
    exact List.mem_singleton_self _
  have hcursor' : s.cursor = 2 ^ 64 - 1 := by rw [hcursor]; decide
  refine ⟨s, hrun, hcursor', ⟨_, hv, by rw [VersionedCrdsValue.ordinal_new, hcursor']⟩, fun hs => ?_⟩
  have hlt := hs.ordinal_lt _ hv
  rw [VersionedCrdsValue.ordinal_new, hcursor'] at hlt
  exact Nat.lt_irrefl _ hlt

end Crds

end Solana.Gossip
