import Solana.Lib.Markers
import Solana.Lib.Loop
import Solana.Lib.MachineInt

/-! `check_insert_data_shred` of `ledger/src/blockstore.rs` on one slot: every run of shreds keeps
its bookkeeping exact (`Tracks.step`) and reports each completed data set once
(`Tracks.returned_pairwise_disjoint`). -/

namespace Solana.Ledger.Blockstore

open MachineInt Markers

/-- `LAST_SHRED_IN_SLOT` of the data header's flags. -/
def lastShredInSlot : ℕ := 0b1000_0000

def dataCompleteShred : ℕ := 0b0100_0000

/-- `SHRED_PAYLOAD_SIZE`: `PACKET_DATA_SIZE - SIZE_OF_NONCE`. -/
def shredPayloadSize : ℕ := 1280 - 40 - 8 - 4

/-- A data shred as far as the blockstore reads it: its slot and index, the flags of its data
header, the size of its data and the length of its payload. -/
structure Shred where
  slot : ℕ
  index : ℕ
  flags : ℕ
  size : ℕ
  payloadLen : ℕ
  deriving DecidableEq, Repr

namespace Shred

def lastInSlot (shred : Shred) : Bool := shred.flags &&& lastShredInSlot == lastShredInSlot

def dataComplete (shred : Shred) : Bool := shred.flags &&& dataCompleteShred == dataCompleteShred

end Shred

structure SlotMeta where
  slot : ℕ
  /-- The number of consecutive shreds from index 0 received. -/
  consumed : ℕ
  /-- One past the highest index received. -/
  received : ℕ
  /-- The index of the shred flagged last in the slot, once received. -/
  lastIndex : Option ℕ
  parentSlot : Option ℕ
  /-- The indices of the received shreds flagged data complete. -/
  completedDataIndexes : Finset ℕ

namespace SlotMeta

/-- `SlotMeta::new`. -/
def new (slot : ℕ) (parentSlot : Option ℕ) : SlotMeta := ⟨slot, 0, 0, none, parentSlot, ∅⟩

/-- `SlotMeta::is_full`. -/
def isFull (slotMeta : SlotMeta) : Bool :=
  some slotMeta.consumed == slotMeta.lastIndex.map (· + 1)

end SlotMeta

/-- `CompletedDataSetInfo`: the indices `[start_index, end_index]` of a completed data set. -/
structure CompletedDataSetInfo where
  slot : ℕ
  startIndex : ℕ
  endIndex : ℕ
  deriving DecidableEq, Repr

/-- The indices `(start_index, end_index)` of a completed data set. -/
def CompletedDataSetInfo.range (info : CompletedDataSetInfo) : ℕ × ℕ :=
  (info.startIndex, info.endIndex)

inductive InsertDataShredError where
  | exists
  | invalidShred
  deriving DecidableEq, Repr

/-- One slot of the blockstore. -/
structure SlotState where
  slotMeta : SlotMeta
  /-- The `ShredIndex` of the slot's data shreds. -/
  dataIndex : Finset ℕ
  /-- The data shreds written for the slot (`cf::ShredData`), in the order they came. -/
  shredData : List Shred
  /-- Whether the slot was marked dead (`cf::DeadSlots`). -/
  dead : Bool

/-- A slot with no shreds yet, whose parent is known. -/
def SlotState.new (slot parentSlot : ℕ) : SlotState :=
  ⟨SlotMeta.new slot (some parentSlot), ∅, [], false⟩

/-! ## Accepting a shred -/

def isValidWriteToSlot0 (slotToWrite parentSlot lastRoot : ℕ) : Bool :=
  slotToWrite == 0 && lastRoot == 0 && parentSlot == 0

/-- `verify_shred_slots`: the parent is an earlier slot at or after the last root. -/
def verifyShredSlots (slot parentSlot lastRoot : ℕ) : Bool :=
  if !isValidWriteToSlot0 slot parentSlot lastRoot then
    if slot ≤ parentSlot then false
    else if parentSlot < lastRoot then false
    else true
  else true

/-- `is_data_shred_present`. -/
def isDataShredPresent (shred : Shred) (slotMeta : SlotMeta) (dataIndex : Finset ℕ) : Bool :=
  shred.index < slotMeta.consumed || shred.index ∈ dataIndex

/-- `should_insert_data_shred`. Storing a duplicate-slot proof on the way is not modelled. -/
def shouldInsertDataShred (shred : Shred) (slotMeta : SlotMeta) (lastRoot : ℕ) : Bool :=
  if shred.size = 0 then false
  else if shredPayloadSize < shred.payloadLen then false
  else if slotMeta.lastIndex.any (shred.index ≥ ·) then false
  else if shred.lastInSlot && shred.index < slotMeta.received then false
  else slotMeta.parentSlot.any fun parentSlot => verifyShredSlots shred.slot parentSlot lastRoot

/-! ## Inserting a shred -/

/-- A round of `while data_index.contains(current_index) { current_index += 1 }`. -/
def scanRound (dataIndex : Finset ℕ) (currentIndex : ℕ) : ℕ ⊕ ℕ :=
  if currentIndex ∈ dataIndex then .inr (currentIndex + 1) else .inl currentIndex

/-- Each round passes one received index, of which there are finitely many. -/
theorem scanRound_decreases (dataIndex : Finset ℕ) :
    Loop.Decreases (scanRound dataIndex) fun currentIndex =>
      (dataIndex.filter (currentIndex ≤ ·)).card := by
  intro currentIndex next h
  unfold scanRound at h
  split_ifs at h with hmem
  cases h
  apply Finset.card_lt_card
  refine Finset.ssubset_iff_of_subset (Finset.monotone_filter_right _ fun j hj => by omega)
    |>.mpr ⟨currentIndex, Finset.mem_filter.mpr ⟨hmem, le_rfl⟩, ?_⟩
  simp

/-- The first index from `currentIndex` on that has not been received. -/
def nextMissing (dataIndex : Finset ℕ) : ℕ → ℕ :=
  Loop.loop (scanRound dataIndex) _ (scanRound_decreases dataIndex)

/-- `update_completed_data_indexes`: the new index, a marker if its shred completes data, and
the data sets it completes, each reported when all its indices have been received. The data
sets it may complete lie between the marker before the new index, the new index if it is a
marker, and the marker after it. -/
def updateCompletedDataIndexes (isLastInData : Bool) (newShredIndex : ℕ)
    (receivedDataShreds : Finset ℕ) (completedDataIndexes : Finset ℕ) :
    Option (Finset ℕ × List (ℕ × ℕ)) :=
  let startShredIndex :=
    ((lastBelow completedDataIndexes newShredIndex).map (wrappingAdd 32 · 1)).getD 0
  let completedDataIndexes :=
    if isLastInData then insert newShredIndex completedDataIndexes else completedDataIndexes
  let shredIndices := startShredIndex ::
    ((if isLastInData then [wrappingAdd 32 newShredIndex 1] else []) ++
      ((firstFrom completedDataIndexes (wrappingAdd 32 newShredIndex 1)).map
        (wrappingAdd 32 · 1)).toList)
  let windows := shredIndices.zip shredIndices.tail
  -- `windows(2)`: `range(begin..end)` of the received indices panics on a window that
  -- starts past its end
  if windows.any fun window => window.2 < window.1 then none
  else
    some (completedDataIndexes,
      (windows.filter fun window =>
          (receivedDataShreds.filter fun index => window.1 ≤ index ∧ index < window.2).card =
            window.2 - window.1).map
        fun window => (window.1, wrappingSub 32 window.2 1))

/-- `update_slot_meta`. The timestamp of the first shred is not modelled. -/
def updateSlotMeta (isLastInSlot isLastInData : Bool) (slotMeta : SlotMeta) (index : ℕ)
    (newConsumed : ℕ) (receivedDataShreds : Finset ℕ) : Option (SlotMeta × List (ℕ × ℕ)) :=
  let slotMeta := { slotMeta with
    received := max (index + 1) slotMeta.received
    consumed := newConsumed
    lastIndex :=
      if isLastInSlot && slotMeta.lastIndex.isNone then some index else slotMeta.lastIndex }
  (updateCompletedDataIndexes (isLastInSlot || isLastInData) index receivedDataShreds
      slotMeta.completedDataIndexes).map
    fun (completedDataIndexes, completed) => ({ slotMeta with completedDataIndexes }, completed)

/-- `insert_data_shred`: `none` is the assertion that the slot is not an orphan, or a panic
of `update_completed_data_indexes`. -/
def insertDataShred (slotMeta : SlotMeta) (dataIndex : Finset ℕ) (shred : Shred) :
    Option (SlotMeta × Finset ℕ × List CompletedDataSetInfo) :=
  if slotMeta.parentSlot.isNone then none
  else
    let index := shred.index
    let newConsumed :=
      if slotMeta.consumed = index then nextMissing dataIndex (index + 1) else slotMeta.consumed
    let dataIndex := insert index dataIndex
    (updateSlotMeta shred.lastInSlot shred.dataComplete slotMeta index newConsumed dataIndex).map
      fun (slotMeta, completed) =>
        (slotMeta, dataIndex, completed.map fun (startIndex, endIndex) =>
          ⟨shred.slot, startIndex, endIndex⟩)

/-- `check_insert_data_shred` on an untrusted shred. A last shred below what was received
marks a slot that is not full dead, whether the shred is then inserted or not. -/
def checkInsertDataShred (lastRoot : ℕ) (state : SlotState) (shred : Shred) :
    Option (SlotState × Except InsertDataShredError (List CompletedDataSetInfo)) :=
  if isDataShredPresent shred state.slotMeta state.dataIndex then some (state, .error .exists)
  else
    let state := { state with
      dead := state.dead ||
        (shred.lastInSlot && shred.index < state.slotMeta.received && !state.slotMeta.isFull) }
    if !shouldInsertDataShred shred state.slotMeta lastRoot then
      some (state, .error .invalidShred)
    else
      (insertDataShred state.slotMeta state.dataIndex shred).map
        fun (slotMeta, dataIndex, completed) =>
          ({ state with slotMeta, dataIndex, shredData := state.shredData ++ [shred] }, .ok completed)

/-- What a shred's insertion adds to `newly_completed_data_sets`. -/
def newlyCompleted : Except InsertDataShredError (List CompletedDataSetInfo) →
    List CompletedDataSetInfo
  | .ok completedDataSets => completedDataSets
  | .error _ => []

/-- The data shreds of `insert_shreds_handle_duplicate` inserted one after another, with the
data sets completed over the run. -/
def insertDataShreds (lastRoot : ℕ) :
    SlotState → List Shred → Option (SlotState × List CompletedDataSetInfo)
  | state, [] => some (state, [])
  | state, shred :: shreds =>
    (checkInsertDataShred lastRoot state shred).bind fun (state, result) =>
      (insertDataShreds lastRoot state shreds).map fun (state, completed) =>
        (state, newlyCompleted result ++ completed)

/-! ## The data sets a new index completes

Below `u32::MAX` nothing wraps: the windows are the interval up to the new index, cut at the
new index if it is a marker, and the interval of the marker after it; each is reported when
it has been received in full. -/

section Windows

variable {received : Finset ℕ} {windows : List (ℕ × ℕ)}

/-- A kept window `[a, e)` is reported as the closed interval `(a, e - 1)`. -/
theorem mem_completedWindows (hwindows : ∀ window ∈ windows, 0 < window.2 ∧ window.2 < 2 ^ 32)
    {a b : ℕ} :
    (a, b) ∈ (windows.filter fun window =>
        (received.filter fun index => window.1 ≤ index ∧ index < window.2).card =
          window.2 - window.1).map (fun window => (window.1, wrappingSub 32 window.2 1)) ↔
      (a, b + 1) ∈ windows ∧ ∀ j, a ≤ j → j ≤ b → j ∈ received := by
  simp only [List.mem_map, List.mem_filter, decide_eq_true_eq, card_filter_interval_eq_iff]
  constructor
  · rintro ⟨⟨begin, end_⟩, ⟨hmem, hall⟩, heq⟩
    obtain ⟨hpos, hlt⟩ := hwindows _ hmem
    rw [wrappingSub_of_le hpos hlt, Prod.mk.injEq] at heq
    obtain ⟨rfl, rfl⟩ := heq
    rw [Nat.sub_add_cancel hpos]
    exact ⟨hmem, fun j haj hjb => hall j haj (by omega)⟩
  · rintro ⟨hmem, hall⟩
    obtain ⟨-, hlt⟩ := hwindows _ hmem
    refine ⟨(a, b + 1), ⟨hmem, fun j haj hjb => hall j haj (by omega)⟩, ?_⟩
    rw [wrappingSub_of_le (by omega) hlt, Nat.add_sub_cancel]

/-- Distinct windows are reported as distinct intervals. -/
theorem nodup_completedWindows (hwindows : ∀ window ∈ windows, 0 < window.2 ∧ window.2 < 2 ^ 32)
    (hnodup : windows.Nodup) :
    ((windows.filter fun window =>
        (received.filter fun index => window.1 ≤ index ∧ index < window.2).card =
          window.2 - window.1).map (fun window => (window.1, wrappingSub 32 window.2 1))).Nodup := by
  refine (hnodup.filter _).map_on fun x hx y hy hxy => ?_
  obtain ⟨hx0, hxlt⟩ := hwindows x (List.mem_of_mem_filter hx)
  obtain ⟨hy0, hylt⟩ := hwindows y (List.mem_of_mem_filter hy)
  rw [Prod.mk.injEq, wrappingSub_of_le hx0 hxlt, wrappingSub_of_le hy0 hylt] at hxy
  exact Prod.ext hxy.1 (by omega)

end Windows

section Update

variable {markers received : Finset ℕ} {i : ℕ}

/-- The start of the interval around an index below `u32::MAX`. -/
theorem startShredIndex_eq (hlt : i < 2 ^ 32 - 1) :
    ((lastBelow markers i).map (wrappingAdd 32 · 1)).getD 0 = setStart markers i := by
  unfold setStart
  cases hlast : lastBelow markers i with
  | none => rfl
  | some y =>
    have hyi := (lastBelow_eq_some.mp hlast).2.1
    simp only [Option.map_some, Option.getD_some]
    exact wrappingAdd_of_lt (by omega)

/-- The marker after an index that is not a marker, with or without the index as a marker. -/
theorem firstFrom_succ_eq (isLastInData : Bool) (hi : i ∉ markers) :
    firstFrom (if isLastInData then insert i markers else markers) (i + 1) =
      firstFrom markers i := by
  cases isLastInData with
  | false => exact firstFrom_succ_of_not_mem hi
  | true =>
    rw [if_pos rfl, firstFrom_insert_of_lt (Nat.lt_succ_self i), firstFrom_succ_of_not_mem hi]

/-- One past the marker after an index, with every marker below `u32::MAX`. -/
theorem firstFrom_map_wrappingAdd (hmarkers : ∀ b ∈ markers, b < 2 ^ 32 - 1) :
    (firstFrom markers i).map (wrappingAdd 32 · 1) = (firstFrom markers i).map (· + 1) := by
  cases hfirst : firstFrom markers i with
  | none => rfl
  | some b =>
    have hb := hmarkers b (firstFrom_eq_some.mp hfirst).1
    simp only [Option.map_some]
    rw [wrappingAdd_of_lt (by omega)]

/-- Without wrapping, the windows of `update_completed_data_indexes` around the index `i`. -/
def windowsAround (isLastInData : Bool) (markers : Finset ℕ) (i : ℕ) : List (ℕ × ℕ) :=
  if isLastInData then
    (setStart markers i, i + 1) :: ((firstFrom markers i).map fun b => (i + 1, b + 1)).toList
  else ((firstFrom markers i).map fun b => (setStart markers i, b + 1)).toList

theorem updateCompletedDataIndexes_eq (isLastInData : Bool) (hi : i ∉ markers)
    (hlt : i < 2 ^ 32 - 1) (hmarkers : ∀ b ∈ markers, b < 2 ^ 32 - 1) :
    updateCompletedDataIndexes isLastInData i received markers =
      some (if isLastInData then insert i markers else markers,
        ((windowsAround isLastInData markers i).filter fun window =>
            (received.filter fun index => window.1 ≤ index ∧ index < window.2).card =
              window.2 - window.1).map fun window => (window.1, wrappingSub 32 window.2 1)) := by
  have hwrap : wrappingAdd 32 i 1 = i + 1 := wrappingAdd_of_lt (by omega)
  have hstart := @setStart_le_self markers i
  unfold updateCompletedDataIndexes windowsAround
  simp only [startShredIndex_eq hlt, hwrap, firstFrom_succ_eq isLastInData hi,
    firstFrom_map_wrappingAdd hmarkers]
  cases isLastInData <;> cases hfirst : firstFrom markers i with
  | none => simp [Nat.le_succ_of_le hstart]
  | some b =>
    have hib := (firstFrom_eq_some.mp hfirst).2.1
    simp
    omega

/-- The windows are the intervals, under the new markers, that end at the new index or at the
marker after it. -/
theorem mem_windowsAround (isLastInData : Bool) (hi : i ∉ markers) {a e : ℕ} :
    (a, e) ∈ windowsAround isLastInData markers i ↔
      ∃ b, e = b + 1 ∧ (b = i ∨ firstFrom markers i = some b) ∧
        b ∈ (if isLastInData then insert i markers else markers) ∧
        a = setStart (if isLastInData then insert i markers else markers) b := by
  cases isLastInData with
  | false =>
    simp only [windowsAround, Bool.false_eq_true, if_false]
    cases hfirst : firstFrom markers i with
    | none =>
      simp only [Option.map_none, Option.toList_none, List.not_mem_nil, false_iff, not_exists]
      rintro b ⟨-, rfl | hb, hbm, -⟩
      · exact hi hbm
      · cases hb
    | some b₀ =>
      have hb₀ := (firstFrom_eq_some.mp hfirst).1
      simp only [Option.map_some, Option.toList_some, List.mem_singleton, Prod.mk.injEq,
        Option.some.injEq]
      constructor
      · rintro ⟨rfl, rfl⟩
        exact ⟨b₀, rfl, .inr rfl, hb₀, (setStart_of_firstFrom_eq hfirst).symm⟩
      · rintro ⟨b, rfl, rfl | rfl, hb, rfl⟩
        · exact absurd hb hi
        · exact ⟨setStart_of_firstFrom_eq hfirst, rfl⟩
  | true =>
    simp only [windowsAround, if_true, List.mem_cons, Prod.mk.injEq]
    cases hfirst : firstFrom markers i with
    | none =>
      simp only [Option.map_none, Option.toList_none, List.not_mem_nil, or_false]
      constructor
      · rintro ⟨rfl, rfl⟩
        exact ⟨i, rfl, .inl rfl, Finset.mem_insert_self i markers, (setStart_insert_self i).symm⟩
      · rintro ⟨b, rfl, rfl | hb, -, rfl⟩
        · exact ⟨setStart_insert_self b, rfl⟩
        · cases hb
    | some b₀ =>
      have hb₀ := (firstFrom_eq_some.mp hfirst).1
      simp only [Option.map_some, Option.toList_some, List.mem_singleton, Prod.mk.injEq,
        Option.some.injEq]
      constructor
      · rintro (⟨rfl, rfl⟩ | ⟨rfl, rfl⟩)
        · exact ⟨i, rfl, .inl rfl, Finset.mem_insert_self i markers,
            (setStart_insert_self i).symm⟩
        · exact ⟨b₀, rfl, .inr rfl, Finset.mem_insert_of_mem hb₀,
            (setStart_insert_of_firstFrom_eq hfirst hi).symm⟩
      · rintro ⟨b, rfl, rfl | rfl, -, rfl⟩
        · exact .inl ⟨setStart_insert_self b, rfl⟩
        · exact .inr ⟨setStart_insert_of_firstFrom_eq hfirst hi, rfl⟩

theorem nodup_windowsAround (isLastInData : Bool) :
    (windowsAround isLastInData markers i).Nodup := by
  have hstart := @setStart_le_self markers i
  unfold windowsAround
  cases isLastInData <;> cases firstFrom markers i <;> simp
  omega

/-- Below `u32::MAX`, the data sets a new index reports are, each once, the intervals under the
new markers that end at the index or at the marker after it and have been received in full. -/
theorem updateCompletedDataIndexes_spec (isLastInData : Bool) (hi : i ∉ markers)
    (hlt : i < 2 ^ 32 - 1) (hmarkers : ∀ b ∈ markers, b < 2 ^ 32 - 1) :
    ∃ completed, updateCompletedDataIndexes isLastInData i received markers =
        some (if isLastInData then insert i markers else markers, completed) ∧
      completed.Nodup ∧
      ∀ a b, (a, b) ∈ completed ↔
        Complete (if isLastInData then insert i markers else markers) received a b ∧
          (b = i ∨ firstFrom markers i = some b) := by
  have hwindows : ∀ window ∈ windowsAround isLastInData markers i,
      0 < window.2 ∧ window.2 < 2 ^ 32 := by
    rintro ⟨a, e⟩ hwindow
    obtain ⟨b, rfl, hb, -⟩ := (mem_windowsAround isLastInData hi).mp hwindow
    rcases hb with rfl | hb
    · exact ⟨Nat.succ_pos b, by omega⟩
    · have := hmarkers b (firstFrom_eq_some.mp hb).1
      exact ⟨Nat.succ_pos b, by omega⟩
  refine ⟨_, updateCompletedDataIndexes_eq isLastInData hi hlt hmarkers,
    nodup_completedWindows hwindows (nodup_windowsAround isLastInData), fun a b => ?_⟩
  rw [mem_completedWindows hwindows, mem_windowsAround isLastInData hi]
  simp only [Complete, add_left_inj, exists_eq_left']
  tauto

end Update

/-! ## The scan for the next missing index -/

@[simp] theorem scanRound_eq_inl {dataIndex : Finset ℕ} {n m : ℕ} :
    scanRound dataIndex n = .inl m ↔ n ∉ dataIndex ∧ m = n := by
  unfold scanRound
  split_ifs with h <;> simp [h, eq_comm]

@[simp] theorem scanRound_eq_inr {dataIndex : Finset ℕ} {n m : ℕ} :
    scanRound dataIndex n = .inr m ↔ n ∈ dataIndex ∧ m = n + 1 := by
  unfold scanRound
  split_ifs with h <;> simp [h, eq_comm]

/-- The scan from `n` stops at the first index from `n` on that has not been received. -/
theorem nextMissing_spec (dataIndex : Finset ℕ) (n : ℕ) :
    n ≤ nextMissing dataIndex n ∧ nextMissing dataIndex n ∉ dataIndex ∧
      ∀ j, n ≤ j → j < nextMissing dataIndex n → j ∈ dataIndex := by
  refine Loop.loop_induction
    (motive := fun n m => n ≤ m ∧ m ∉ dataIndex ∧ ∀ j, n ≤ j → j < m → j ∈ dataIndex) ?_ ?_ n
  · intro n m hround
    obtain ⟨hn, rfl⟩ := scanRound_eq_inl.mp hround
    exact ⟨le_rfl, hn, fun j hnj hjn => absurd hjn (Nat.not_lt_of_le hnj)⟩
  · rintro n m hround ⟨hle, hmissing, hall⟩
    obtain ⟨hn, rfl⟩ := scanRound_eq_inr.mp hround
    refine ⟨by omega, hmissing, fun j hnj hjm => ?_⟩
    rcases Nat.eq_or_lt_of_le hnj with rfl | hlt
    · exact hn
    · exact hall j hlt hjm

/-! ## One shred -/

/-- What the checks of `check_insert_data_shred` establish of a shred they let through. -/
structure Accepted (slotMeta : SlotMeta) (dataIndex : Finset ℕ) (shred : Shred) : Prop where
  consumed_le : slotMeta.consumed ≤ shred.index
  not_mem : shred.index ∉ dataIndex
  lt_lastIndex : ∀ l, slotMeta.lastIndex = some l → shred.index < l
  received_le : shred.lastInSlot = true → slotMeta.received ≤ shred.index
  parentSlot_isSome : slotMeta.parentSlot.isSome

theorem accepted_of_shouldInsertDataShred {slotMeta : SlotMeta} {dataIndex : Finset ℕ}
    {shred : Shred} {lastRoot : ℕ} (hpresent : isDataShredPresent shred slotMeta dataIndex = false)
    (hshould : shouldInsertDataShred shred slotMeta lastRoot = true) :
    Accepted slotMeta dataIndex shred := by
  simp only [isDataShredPresent, Bool.or_eq_false_iff, decide_eq_false_iff_not, not_lt] at hpresent
  unfold shouldInsertDataShred at hshould
  split_ifs at hshould with hsize hpayload hlast hreceived
  refine ⟨hpresent.1, hpresent.2, fun l hl => ?_, fun hlastInSlot => ?_, ?_⟩
  · simpa [hl] using hlast
  · simpa [hlastInSlot] using hreceived
  · exact Option.isSome_of_any hshould

section Insert

variable {slotMeta : SlotMeta} {dataIndex : Finset ℕ} {shred : Shred}

/-- Below `u32::MAX`, `insert_data_shred` of a shred the checks let through, at an index that
is not a marker: the meta it writes, and the data sets it reports. -/
theorem insertDataShred_spec (haccepted : Accepted slotMeta dataIndex shred)
    (hi : shred.index ∉ slotMeta.completedDataIndexes) (hlt : shred.index < 2 ^ 32 - 1)
    (hmarkers : ∀ b ∈ slotMeta.completedDataIndexes, b < 2 ^ 32 - 1) :
    ∃ completed : List (ℕ × ℕ), insertDataShred slotMeta dataIndex shred = some
        ({ slotMeta with
            received := max (shred.index + 1) slotMeta.received
            consumed :=
              if slotMeta.consumed = shred.index then nextMissing dataIndex (shred.index + 1)
              else slotMeta.consumed
            lastIndex :=
              if shred.lastInSlot && slotMeta.lastIndex.isNone then some shred.index
              else slotMeta.lastIndex
            completedDataIndexes :=
              if shred.lastInSlot || shred.dataComplete then
                insert shred.index slotMeta.completedDataIndexes
              else slotMeta.completedDataIndexes },
          insert shred.index dataIndex, completed.map fun (a, b) => ⟨shred.slot, a, b⟩) ∧
      completed.Nodup ∧
      ∀ a b, (a, b) ∈ completed ↔
        Complete (if shred.lastInSlot || shred.dataComplete then
            insert shred.index slotMeta.completedDataIndexes
          else slotMeta.completedDataIndexes) (insert shred.index dataIndex) a b ∧
          (b = shred.index ∨ firstFrom slotMeta.completedDataIndexes shred.index = some b) := by
  obtain ⟨completed, hupdate, hnodup, hmem⟩ :=
    @updateCompletedDataIndexes_spec _ (insert shred.index dataIndex) _
      (shred.lastInSlot || shred.dataComplete) hi hlt hmarkers
  refine ⟨completed, ?_, hnodup, hmem⟩
  have hparent : slotMeta.parentSlot.isNone = false := by
    simpa using haccepted.parentSlot_isSome
  unfold insertDataShred updateSlotMeta
  simp only [hparent, Bool.false_eq_true, if_false, hupdate, Option.map_some]

end Insert

/-! ## What a new index does to the bookkeeping -/

section Step

variable {dataIndex markers : Finset ℕ} {i : ℕ}

/-- `consumed` stays the first index not received: the scan past a new index that fills the gap
at `consumed` finds the next gap. -/
theorem consumed_insert {consumed : ℕ} (hnot : consumed ∉ dataIndex)
    (hall : ∀ j < consumed, j ∈ dataIndex) (hle : consumed ≤ i) :
    (if consumed = i then nextMissing dataIndex (i + 1) else consumed) ∉ insert i dataIndex ∧
      ∀ j < (if consumed = i then nextMissing dataIndex (i + 1) else consumed),
        j ∈ insert i dataIndex := by
  by_cases heq : consumed = i
  · subst heq
    obtain ⟨hle', hmissing, hscan⟩ := nextMissing_spec dataIndex (consumed + 1)
    rw [if_pos rfl, Finset.mem_insert, not_or]
    refine ⟨⟨by omega, hmissing⟩, fun j hj => ?_⟩
    rcases lt_trichotomy j consumed with hlt | rfl | hgt
    · exact Finset.mem_insert_of_mem (hall j hlt)
    · exact Finset.mem_insert_self j dataIndex
    · exact Finset.mem_insert_of_mem (hscan j hgt hj)
  · rw [if_neg heq, Finset.mem_insert, not_or]
    exact ⟨⟨heq, hnot⟩, fun j hj => Finset.mem_insert_of_mem (hall j hj)⟩

/-- `received` stays one past the greatest index received. -/
theorem received_insert {received : ℕ} (hlt : ∀ j ∈ dataIndex, j < received)
    (hmem : ∀ r, received = r + 1 → r ∈ dataIndex) :
    (∀ j ∈ insert i dataIndex, j < max (i + 1) received) ∧
      ∀ r, max (i + 1) received = r + 1 → r ∈ insert i dataIndex := by
  refine ⟨fun j hj => ?_, fun r hr => ?_⟩
  · rcases Finset.mem_insert.mp hj with rfl | hj
    · exact lt_max_of_lt_left (Nat.lt_succ_self j)
    · exact lt_max_of_lt_right (hlt j hj)
  · rcases max_choice (i + 1) received with hmax | hmax
    · rw [hmax] at hr
      rw [Nat.succ_inj.mp hr]
      exact Finset.mem_insert_self r dataIndex
    · exact Finset.mem_insert_of_mem (hmem r (hmax ▸ hr))

/-- The data sets reported after a new index: those reported before and those the update
reports, each once, are the intervals received in full under the new markers. -/
theorem returned_insert (isLastInData : Bool) {returned completed : List (ℕ × ℕ)}
    (hsub : markers ⊆ dataIndex) (hi : i ∉ dataIndex) (hnodup : returned.Nodup)
    (hmem : ∀ a b, (a, b) ∈ returned ↔ Complete markers dataIndex a b)
    (hcnodup : completed.Nodup)
    (hcmem : ∀ a b, (a, b) ∈ completed ↔
      Complete (if isLastInData then insert i markers else markers) (insert i dataIndex) a b ∧
        (b = i ∨ firstFrom markers i = some b)) :
    (returned ++ completed).Nodup ∧ ∀ a b, (a, b) ∈ returned ++ completed ↔
      Complete (if isLastInData then insert i markers else markers) (insert i dataIndex) a b := by
  have hstale : ∀ a b, (b = i ∨ firstFrom markers i = some b) →
      ¬ Complete markers dataIndex a b := by
    rintro a b (rfl | hfirst) hcomplete
    · exact hi (hsub hcomplete.1)
    · exact not_complete_of_firstFrom_eq hfirst hi hcomplete
  have hsame : ∀ a b, ¬ (b = i ∨ firstFrom markers i = some b) →
      (Complete (if isLastInData then insert i markers else markers) (insert i dataIndex) a b ↔
        Complete markers dataIndex a b) := by
    intro a b hb
    rw [not_or] at hb
    have hmarker : Complete (if isLastInData then insert i markers else markers)
        (insert i dataIndex) a b ↔ Complete markers (insert i dataIndex) a b := by
      split_ifs
      · exact complete_insert_marker hb.1 hb.2
      · exact Iff.rfl
    rw [hmarker, complete_insert_received hb.2]
  refine ⟨List.nodup_append.mpr ⟨hnodup, hcnodup, ?_⟩, fun a b => ?_⟩
  · rintro ⟨a, b⟩ hab x hx rfl
    exact hstale a b ((hcmem a b).mp hx).2 ((hmem a b).mp hab)
  · rw [List.mem_append, hmem, hcmem]
    by_cases hb : b = i ∨ firstFrom markers i = some b
    · simp only [hb, and_true, or_iff_right (hstale a b hb)]
    · simp only [hb, and_false, or_false]
      exact (hsame a b hb).symm

end Step

/-! ## The bookkeeping over a run -/

/-- The bookkeeping of a slot agrees with the data shreds stored for it, and `returned` holds the
data sets reported so far. -/
structure Tracks (slotMeta : SlotMeta) (dataIndex : Finset ℕ) (shredData : List Shred)
    (returned : List (ℕ × ℕ)) : Prop where
  /-- The `ShredIndex` holds the indices of the stored shreds, each stored once. -/
  dataIndex_eq : dataIndex = (shredData.map Shred.index).toFinset
  nodup_index : (shredData.map Shred.index).Nodup
  index_lt : ∀ j ∈ dataIndex, j < 2 ^ 32 - 1
  /-- `consumed` is the first index not received. -/
  consumed_not_mem : slotMeta.consumed ∉ dataIndex
  mem_of_lt_consumed : ∀ j < slotMeta.consumed, j ∈ dataIndex
  /-- `received` is one past the greatest index received. -/
  lt_received : ∀ j ∈ dataIndex, j < slotMeta.received
  mem_of_received : ∀ r, slotMeta.received = r + 1 → r ∈ dataIndex
  /-- `last_index` is the index of the stored last shred, and no index is above it. -/
  lastIndex_eq_some : ∀ l, slotMeta.lastIndex = some l ↔
    ∃ shred ∈ shredData, shred.lastInSlot ∧ shred.index = l
  le_lastIndex : ∀ l, slotMeta.lastIndex = some l → ∀ j ∈ dataIndex, j ≤ l
  /-- The markers are the indices of the stored shreds that end data. -/
  mem_completed : ∀ b, b ∈ slotMeta.completedDataIndexes ↔
    ∃ shred ∈ shredData, shred.index = b ∧ (shred.lastInSlot || shred.dataComplete)
  /-- Every data set is reported once, and exactly when it has been received in full. -/
  returned_nodup : returned.Nodup
  mem_returned : ∀ a b, (a, b) ∈ returned ↔ Complete slotMeta.completedDataIndexes dataIndex a b

theorem tracks_new (slot parentSlot : ℕ) :
    Tracks (SlotState.new slot parentSlot).slotMeta (SlotState.new slot parentSlot).dataIndex
      (SlotState.new slot parentSlot).shredData [] := by
  refine ⟨rfl, List.nodup_nil, ?_, ?_, ?_, ?_, ?_, ?_, ?_, ?_, List.nodup_nil, ?_⟩ <;>
    simp [SlotState.new, SlotMeta.new, Complete]

namespace Tracks

variable {slotMeta : SlotMeta} {dataIndex : Finset ℕ} {shredData : List Shred}
  {returned : List (ℕ × ℕ)}

theorem mem_dataIndex (htracks : Tracks slotMeta dataIndex shredData returned) {shred : Shred}
    (hshred : shred ∈ shredData) : shred.index ∈ dataIndex := by
  rw [htracks.dataIndex_eq, List.mem_toFinset]
  exact List.mem_map_of_mem hshred

/-- The markers are received indices. -/
theorem completed_subset (htracks : Tracks slotMeta dataIndex shredData returned) :
    slotMeta.completedDataIndexes ⊆ dataIndex := by
  intro b hb
  obtain ⟨shred, hshred, rfl, -⟩ := (htracks.mem_completed b).mp hb
  exact htracks.mem_dataIndex hshred

/-- A last shred can be let through only while no last index is known: it lies at or past what
was received, and a known last index lies below that. -/
theorem lastIndex_eq_none (htracks : Tracks slotMeta dataIndex shredData returned)
    {shred : Shred} (haccepted : Accepted slotMeta dataIndex shred)
    (hlast : shred.lastInSlot = true) : slotMeta.lastIndex = none := by
  cases hl : slotMeta.lastIndex with
  | none => rfl
  | some l =>
    obtain ⟨last, hmem, -, rfl⟩ := (htracks.lastIndex_eq_some l).mp hl
    have := htracks.lt_received _ (htracks.mem_dataIndex hmem)
    have := haccepted.received_le hlast
    have := haccepted.lt_lastIndex _ hl
    omega

/-- A shred the checks let through keeps the bookkeeping exact. -/
theorem insert (htracks : Tracks slotMeta dataIndex shredData returned) {shred : Shred}
    (haccepted : Accepted slotMeta dataIndex shred) (hlt : shred.index < 2 ^ 32 - 1)
    {slotMeta' : SlotMeta}
    (hconsumed : slotMeta'.consumed =
      if slotMeta.consumed = shred.index then nextMissing dataIndex (shred.index + 1)
      else slotMeta.consumed)
    (hreceived : slotMeta'.received = max (shred.index + 1) slotMeta.received)
    (hlastIndex : slotMeta'.lastIndex =
      if shred.lastInSlot && slotMeta.lastIndex.isNone then some shred.index
      else slotMeta.lastIndex)
    (hmarkers : slotMeta'.completedDataIndexes =
      if shred.lastInSlot || shred.dataComplete then
        insert shred.index slotMeta.completedDataIndexes
      else slotMeta.completedDataIndexes)
    {completed : List (ℕ × ℕ)} (hnodup : completed.Nodup)
    (hmem : ∀ a b, (a, b) ∈ completed ↔
      Complete (if shred.lastInSlot || shred.dataComplete then
          insert shred.index slotMeta.completedDataIndexes
        else slotMeta.completedDataIndexes) (insert shred.index dataIndex) a b ∧
        (b = shred.index ∨ firstFrom slotMeta.completedDataIndexes shred.index = some b)) :
    Tracks slotMeta' (insert shred.index dataIndex) (shredData ++ [shred])
      (returned ++ completed) := by
  have hconsumed' := consumed_insert htracks.consumed_not_mem htracks.mem_of_lt_consumed
    haccepted.consumed_le
  have hreceived' := received_insert (i := shred.index) htracks.lt_received
    htracks.mem_of_received
  have hreturned := returned_insert (shred.lastInSlot || shred.dataComplete)
    htracks.completed_subset haccepted.not_mem htracks.returned_nodup htracks.mem_returned
    hnodup hmem
  rw [← hconsumed] at hconsumed'
  rw [← hreceived] at hreceived'
  rw [← hmarkers] at hreturned
  refine ⟨?_, ?_, ?_, hconsumed'.1, hconsumed'.2, hreceived'.1, hreceived'.2, ?_, ?_, ?_,
    hreturned.1, hreturned.2⟩
  · ext j
    simp [htracks.dataIndex_eq]
  · rw [List.map_append, List.nodup_append]
    refine ⟨htracks.nodup_index, List.nodup_singleton _, ?_⟩
    simp only [List.map_cons, List.map_nil, List.mem_singleton, forall_eq]
    rintro j hj rfl
    exact haccepted.not_mem (htracks.dataIndex_eq ▸ List.mem_toFinset.mpr hj)
  · intro j hj
    rcases Finset.mem_insert.mp hj with rfl | hj
    · exact hlt
    · exact htracks.index_lt j hj
  · intro l
    rw [hlastIndex]
    cases hlast : shred.lastInSlot with
    | false =>
      simp only [Bool.false_and, Bool.false_eq_true, if_false, htracks.lastIndex_eq_some,
        List.mem_append, List.mem_singleton]
      simp [or_and_right, exists_or, hlast]
    | true =>
      have hnone := htracks.lastIndex_eq_none haccepted hlast
      have hfirst : ¬ ∃ shred ∈ shredData, shred.lastInSlot ∧ shred.index = l := by
        rw [← htracks.lastIndex_eq_some, hnone]
        exact (Option.some_ne_none l).symm
      simp only [hnone, Option.isNone_none, Bool.and_self, if_true, Option.some.injEq,
        List.mem_append, List.mem_singleton]
      constructor
      · rintro rfl
        exact ⟨shred, .inr rfl, hlast, rfl⟩
      · rintro ⟨last, hmem | rfl, hlast', rfl⟩
        · exact absurd ⟨last, hmem, hlast', rfl⟩ hfirst
        · rfl
  · intro l hl j hj
    rw [hlastIndex] at hl
    cases hlast : shred.lastInSlot with
    | false =>
      simp only [hlast, Bool.false_and, Bool.false_eq_true, if_false] at hl
      rcases Finset.mem_insert.mp hj with rfl | hj
      · exact (haccepted.lt_lastIndex l hl).le
      · exact htracks.le_lastIndex l hl j hj
    | true =>
      simp only [hlast, htracks.lastIndex_eq_none haccepted hlast, Option.isNone_none,
        Bool.and_self, if_true, Option.some.injEq] at hl
      subst hl
      rcases Finset.mem_insert.mp hj with rfl | hj
      · exact le_rfl
      · exact ((htracks.lt_received j hj).trans_le (haccepted.received_le hlast)).le
  · intro b
    rw [hmarkers]
    simp only [List.mem_append, List.mem_singleton, or_and_right, exists_or, exists_eq_left]
    split_ifs with hdata
    · rw [Finset.mem_insert, htracks.mem_completed]
      simp only [hdata, and_true]
      rw [or_comm, eq_comm]
    · rw [htracks.mem_completed, Bool.not_eq_true] at *
      simp [hdata]

/-- The data sets `insert_data_shred` reports, read back as ranges, are those of the update. -/
theorem map_range_completed (slot : ℕ) (completed : List (ℕ × ℕ)) :
    ((completed.map fun (startIndex, endIndex) =>
        (⟨slot, startIndex, endIndex⟩ : CompletedDataSetInfo)).map
      CompletedDataSetInfo.range) = completed := by
  induction completed with
  | nil => rfl
  | cons range completed ih =>
    rw [List.map_cons, List.map_cons, ih]
    rfl

variable {state : SlotState}

/-- One untrusted shred below `u32::MAX` never panics and keeps the bookkeeping exact: a refused
shred leaves it as it was, and an accepted one is stored with the data sets it completes. -/
theorem step (htracks : Tracks state.slotMeta state.dataIndex state.shredData returned)
    (lastRoot : ℕ) {shred : Shred} (hlt : shred.index < 2 ^ 32 - 1) :
    ∃ state' result, checkInsertDataShred lastRoot state shred = some (state', result) ∧
      Tracks state'.slotMeta state'.dataIndex state'.shredData
        (returned ++ (newlyCompleted result).map CompletedDataSetInfo.range) ∧
      (state'.shredData = state.shredData ∨ state'.shredData = state.shredData ++ [shred]) := by
  unfold checkInsertDataShred
  by_cases hpresent : isDataShredPresent shred state.slotMeta state.dataIndex = true
  · rw [if_pos hpresent]
    exact ⟨state, _, rfl, by simpa [newlyCompleted] using htracks, .inl rfl⟩
  rw [if_neg hpresent]
  rw [Bool.not_eq_true] at hpresent
  by_cases hshould : shouldInsertDataShred shred state.slotMeta lastRoot = true
  · have haccepted := accepted_of_shouldInsertDataShred hpresent hshould
    have hi : shred.index ∉ state.slotMeta.completedDataIndexes :=
      fun h => haccepted.not_mem (htracks.completed_subset h)
    obtain ⟨completed, hinsert, hnodup, hmem⟩ := insertDataShred_spec haccepted hi hlt
      fun b hb => htracks.index_lt b (htracks.completed_subset hb)
    simp only [hshould, Bool.not_true, Bool.false_eq_true, if_false, hinsert, Option.map_some]
    refine ⟨_, _, rfl, ?_, .inr rfl⟩
    rw [newlyCompleted, map_range_completed]
    exact htracks.insert haccepted hlt rfl rfl rfl rfl hnodup hmem
  · simp only [Bool.not_eq_true] at hshould
    simp only [hshould, Bool.not_false, if_true]
    exact ⟨_, _, rfl, by simpa [newlyCompleted] using htracks, .inl rfl⟩

/-- A run of shreds below `u32::MAX` never panics and keeps the bookkeeping exact; the shreds it
stores are those of the run it accepted, in order. -/
theorem run (lastRoot : ℕ) (shreds : List Shred) :
    ∀ {state : SlotState} {returned : List (ℕ × ℕ)},
      Tracks state.slotMeta state.dataIndex state.shredData returned →
      (∀ shred ∈ shreds, shred.index < 2 ^ 32 - 1) →
      ∃ state' completed, insertDataShreds lastRoot state shreds = some (state', completed) ∧
        Tracks state'.slotMeta state'.dataIndex state'.shredData
          (returned ++ completed.map CompletedDataSetInfo.range) ∧
        ∃ accepted, accepted.Sublist shreds ∧ state'.shredData = state.shredData ++ accepted := by
  induction shreds with
  | nil =>
    intro state returned htracks _
    exact ⟨state, [], rfl, by simpa using htracks, [], List.Sublist.slnil, by simp⟩
  | cons shred shreds ih =>
    intro state returned htracks hlt
    obtain ⟨state₁, result, hcheck, htracks₁, hgrow⟩ :=
      htracks.step lastRoot (hlt shred List.mem_cons_self)
    obtain ⟨state₂, completed, hrun, htracks₂, accepted, hsub, hdata⟩ :=
      ih htracks₁ fun shred hshred => hlt shred (List.mem_cons_of_mem _ hshred)
    refine ⟨state₂, newlyCompleted result ++ completed, ?_, ?_, ?_⟩
    · simp only [insertDataShreds, hcheck, Option.bind_some, hrun, Option.map_some]
    · simpa [List.append_assoc] using htracks₂
    · rcases hgrow with hsame | hstored
      · exact ⟨accepted, hsub.cons shred, by rw [hdata, hsame]⟩
      · exact ⟨shred :: accepted, hsub.cons_cons shred, by rw [hdata, hstored]; simp⟩

/-! ### What the bookkeeping gives -/

/-- `consumed` is not a marker, the assertion of `get_completed_data_ranges`. -/
theorem consumed_not_mem_completed (htracks : Tracks slotMeta dataIndex shredData returned) :
    slotMeta.consumed ∉ slotMeta.completedDataIndexes :=
  fun h => htracks.consumed_not_mem (htracks.completed_subset h)

/-- A slot is full exactly when its last index is known and every index up to it received. -/
theorem isFull_iff (htracks : Tracks slotMeta dataIndex shredData returned) :
    slotMeta.isFull = true ↔ ∃ l, slotMeta.lastIndex = some l ∧ ∀ j ≤ l, j ∈ dataIndex := by
  unfold SlotMeta.isFull
  constructor
  · intro hfull
    cases hl : slotMeta.lastIndex with
    | none => simp [hl] at hfull
    | some l =>
      simp only [hl, Option.map_some, beq_iff_eq, Option.some.injEq] at hfull
      exact ⟨l, rfl, fun j hj => htracks.mem_of_lt_consumed j (by omega)⟩
  · rintro ⟨l, hl, hall⟩
    have hgt : l < slotMeta.consumed := by
      by_contra hle
      exact htracks.consumed_not_mem (hall _ (Nat.le_of_not_lt hle))
    have hle : slotMeta.consumed ≤ l + 1 := by
      by_contra hgt'
      have := htracks.le_lastIndex l hl (l + 1) (htracks.mem_of_lt_consumed (l + 1) (by omega))
      omega
    simp only [hl, Option.map_some, beq_iff_eq, Option.some.injEq]
    omega

/-- The data sets reported are pairwise disjoint. -/
theorem returned_pairwise_disjoint (htracks : Tracks slotMeta dataIndex shredData returned) :
    returned.Pairwise fun x y => Disjoint (Finset.Icc x.1 x.2) (Finset.Icc y.1 y.2) := by
  refine htracks.returned_nodup.pairwise_of_forall_ne fun x hx y hy hne => ?_
  obtain ⟨hb, ha, -⟩ := (htracks.mem_returned x.1 x.2).mp hx
  obtain ⟨hb', ha', -⟩ := (htracks.mem_returned y.1 y.2).mp hy
  rw [Finset.disjoint_left]
  intro j hjx hjy
  rw [Finset.mem_Icc] at hjx hjy
  have hend := interval_disjoint hb hb' (ha ▸ hjx) (ha' ▸ hjy)
  exact hne (Prod.ext (ha.trans (hend ▸ ha'.symm)) hend)

end Tracks

/-! ## A slot's shreds -/

/-- The meta of a slot after a run of `shreds` tracks the shreds it stored, which are those the
checks accepted, and `completed` holds exactly the data sets received in full. -/
structure ExactBookkeeping (shreds : List Shred) (state : SlotState)
    (completed : List CompletedDataSetInfo) : Prop where
  stored_sublist : state.shredData.Sublist shreds
  dataIndex_eq : state.dataIndex = (state.shredData.map Shred.index).toFinset
  /-- `consumed` is the first index not received. -/
  consumed_not_mem : state.slotMeta.consumed ∉ state.dataIndex
  mem_of_lt_consumed : ∀ j < state.slotMeta.consumed, j ∈ state.dataIndex
  /-- `received` is one past the greatest index received. -/
  lt_received : ∀ j ∈ state.dataIndex, j < state.slotMeta.received
  mem_of_received : ∀ r, state.slotMeta.received = r + 1 → r ∈ state.dataIndex
  lastIndex_eq_some : ∀ l, state.slotMeta.lastIndex = some l ↔
    ∃ shred ∈ state.shredData, shred.lastInSlot ∧ shred.index = l
  /-- The markers are received indices of shreds that end data. -/
  completed_received : ∀ b ∈ state.slotMeta.completedDataIndexes, b ∈ state.dataIndex ∧
    ∃ shred ∈ state.shredData, shred.index = b ∧ (shred.dataComplete ∨ shred.lastInSlot)
  /-- The assertion of `get_completed_data_ranges`. -/
  consumed_not_mem_completed : state.slotMeta.consumed ∉ state.slotMeta.completedDataIndexes
  isFull_iff : state.slotMeta.isFull = true ↔
    ∃ l, state.slotMeta.lastIndex = some l ∧ ∀ j ≤ l, j ∈ state.dataIndex
  completed_pairwise_disjoint : completed.Pairwise fun x y =>
    Disjoint (Finset.Icc x.startIndex x.endIndex) (Finset.Icc y.startIndex y.endIndex)
  /-- The data sets reported are the intervals between consecutive markers received in full. -/
  mem_completed_iff : ∀ a b, (∃ info ∈ completed, info.startIndex = a ∧ info.endIndex = b) ↔
    Complete state.slotMeta.completedDataIndexes state.dataIndex a b

/-- From the fresh meta of a slot whose parent is known, every arrival order of data shreds with
indices below `u32::MAX` is inserted without a panic, and the bookkeeping after it is exact. -/
theorem insertDataShreds_tracks_received (lastRoot slot parentSlot : ℕ) (shreds : List Shred)
    (hlt : ∀ shred ∈ shreds, shred.index < 2 ^ 32 - 1) :
    ∃ state completed,
      insertDataShreds lastRoot (SlotState.new slot parentSlot) shreds = some (state, completed) ∧
      ExactBookkeeping shreds state completed := by
  obtain ⟨state, completed, hrun, htracks, accepted, hsub, hdata⟩ :=
    Tracks.run lastRoot shreds (tracks_new slot parentSlot) hlt
  simp only [List.nil_append] at htracks
  have hstored : state.shredData = accepted := by simpa [SlotState.new] using hdata
  refine ⟨state, completed, hrun, hstored ▸ hsub, htracks.dataIndex_eq, htracks.consumed_not_mem,
    htracks.mem_of_lt_consumed, htracks.lt_received, htracks.mem_of_received,
    htracks.lastIndex_eq_some, fun b hb => ⟨htracks.completed_subset hb, ?_⟩,
    htracks.consumed_not_mem_completed, htracks.isFull_iff, ?_, fun a b => ?_⟩
  · obtain ⟨shred, hshred, rfl, hends⟩ := (htracks.mem_completed b).mp hb
    exact ⟨shred, hshred, rfl, by simpa [or_comm] using hends⟩
  · simpa [List.pairwise_map, CompletedDataSetInfo.range] using
      htracks.returned_pairwise_disjoint
  · rw [← htracks.mem_returned]
    simp [CompletedDataSetInfo.range]

theorem insertDataShreds_tracks_received_lastShred :
    let shreds : List Shred := [⟨1, 0, lastShredInSlot, 1, shredPayloadSize⟩]
    (∀ shred ∈ shreds, shred.index < 2 ^ 32 - 1) ∧
      ∃ state completed, insertDataShreds 0 (SlotState.new 1 0) shreds = some (state, completed) ∧
        ExactBookkeeping shreds state completed :=
  ⟨by decide, insertDataShreds_tracks_received 0 1 0 _ (by decide)⟩

/-- At shred index `u32::MAX` the `+ 1` of `update_completed_data_indexes` wraps to 0: a fresh
slot given only that shred, as a data-complete one, reports the data set `[0, u32::MAX]` twice,
though it holds one shred of it. -/
theorem insertDataShreds_counter_maxIndex :
    (insertDataShreds 0 (SlotState.new 1 0)
        [⟨1, 2 ^ 32 - 1, dataCompleteShred, 1, shredPayloadSize⟩]).map Prod.snd =
      some [⟨1, 0, 2 ^ 32 - 1⟩, ⟨1, 0, 2 ^ 32 - 1⟩] ∧
    ¬ Complete {2 ^ 32 - 1} {2 ^ 32 - 1} 0 (2 ^ 32 - 1) := by
  constructor
  · decide +kernel
  · rintro ⟨-, -, hall⟩
    simpa using hall 0 le_rfl (Nat.zero_le _)

end Solana.Ledger.Blockstore
