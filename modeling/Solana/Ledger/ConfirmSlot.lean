import Solana.Ledger.Entry

/-! The checks `confirm_slot` makes on each batch of a slot: a batching that passes passes as a
whole slot (`confirmBatches_flatten`), not conversely (`confirmBatches_split_rejected`). -/

namespace Solana.Ledger

inductive BlockError where
  | invalidEntryHash
  | invalidLastTick
  | tooFewTicks
  | tooManyTicks
  | invalidTickHashCount
  | trailingEntry
  deriving DecidableEq, Repr

/-- What `verify_ticks` reads of the bank. -/
structure TickBank where
  tickHeight : ℕ
  maxTickHeight : ℕ
  hashesPerTick : Option ℕ
  deriving DecidableEq, Repr

/-- What the checks read and write of `ConfirmationProgress`. -/
structure ConfirmationProgress where
  lastEntry : Hash
  tickHashCount : ℕ
  deriving DecidableEq, Repr

variable {Tx : Type} (H : PohHashes Tx)

def tickCount (entries : List (Entry Tx)) : ℕ := entries.countP (·.isTick)

/-- The batch does not end with a tick. -/
def hasTrailingEntry (entries : List (Entry Tx)) : Bool :=
  (entries.getLast?.map fun e => !e.isTick).getD false

/-- `verify_ticks`: the tick count of the batch against the slot's, the last tick, then
the tick hash count; the new count on success. -/
def verifyTicks (bank : TickBank) (entries : List (Entry Tx)) (slotFull : Bool)
    (tickHashCount : ℕ) : Except BlockError ℕ :=
  let nextBankTickHeight := bank.tickHeight + tickCount entries
  if bank.maxTickHeight < nextBankTickHeight then .error .tooManyTicks
  else if nextBankTickHeight < bank.maxTickHeight ∧ slotFull then .error .tooFewTicks
  else if nextBankTickHeight = bank.maxTickHeight ∧ hasTrailingEntry entries then
    .error .trailingEntry
  else if nextBankTickHeight = bank.maxTickHeight ∧ !slotFull then .error .invalidLastTick
  else
    match verifyTickHashCount entries tickHashCount (bank.hashesPerTick.getD 0) with
    | none => .error .invalidTickHashCount
    | some tickHashCount => .ok tickHashCount

/-- The checks of `confirm_slot` on one batch, and the bank and progress after it. -/
def confirmSlot (bank : TickBank) (progress : ConfirmationProgress) (entries : List (Entry Tx))
    (slotFull : Bool) : Except BlockError (TickBank × ConfirmationProgress) :=
  match verifyTicks bank entries slotFull progress.tickHashCount with
  | .error e => .error e
  | .ok tickHashCount =>
    if !startVerify H progress.lastEntry entries then .error .invalidEntryHash
    else
      .ok ({ bank with tickHeight := bank.tickHeight + tickCount entries },
        ⟨lastHash progress.lastEntry entries, tickHashCount⟩)

/-- A slot replayed in batches; only the last one is marked full. -/
def confirmBatches :
    TickBank → ConfirmationProgress → List (List (Entry Tx)) →
      Except BlockError (TickBank × ConfirmationProgress)
  | bank, progress, [] => .ok (bank, progress)
  | bank, progress, [entries] => confirmSlot H bank progress entries true
  | bank, progress, entries :: next :: rest =>
    match confirmSlot H bank progress entries false with
    | .error e => .error e
    | .ok (bank, progress) => confirmBatches bank progress (next :: rest)

/-! ## What a batch that passes says -/

theorem tickCount_append (first second : List (Entry Tx)) :
    tickCount (first ++ second) = tickCount first + tickCount second :=
  List.countP_append

theorem hasTrailingEntry_append (first : List (Entry Tx)) {second : List (Entry Tx)}
    (hsecond : second ≠ []) : hasTrailingEntry (first ++ second) = hasTrailingEntry second := by
  rw [hasTrailingEntry, hasTrailingEntry, List.getLast?_append,
    List.getLast?_eq_some_getLast hsecond, Option.some_or]

/-- `verify_ticks` passes exactly when the tick height stays within the slot's, reaches
it only with a last tick in a full batch, falls short of it only in a batch that is not
full, and the tick hash count passes. -/
theorem verifyTicks_eq_ok {bank : TickBank} {entries : List (Entry Tx)} {slotFull : Bool}
    {tickHashCount c : ℕ} :
    verifyTicks bank entries slotFull tickHashCount = .ok c ↔
      bank.tickHeight + tickCount entries ≤ bank.maxTickHeight ∧
      (bank.tickHeight + tickCount entries < bank.maxTickHeight → slotFull = false) ∧
      (bank.tickHeight + tickCount entries = bank.maxTickHeight →
        hasTrailingEntry entries = false ∧ slotFull = true) ∧
      verifyTickHashCount entries tickHashCount (bank.hashesPerTick.getD 0) = some c := by
  unfold verifyTicks
  dsimp only
  split_ifs with hmany hfew htrailing hlast
  · simp only [false_iff, not_and]
    intro hle
    omega
  · simp only [false_iff, not_and]
    intro _ hfull
    exact absurd (hfull hfew.1) (by simp [hfew.2])
  · simp only [false_iff, not_and]
    intro _ _ htrail
    exact absurd (htrail htrailing.1).1 (by simp [htrailing.2])
  · simp only [false_iff, not_and]
    intro _ _ htrail
    exact absurd (htrail hlast.1).2 (by simpa using hlast.2)
  · have hfull : bank.tickHeight + tickCount entries < bank.maxTickHeight → slotFull = false :=
      fun hlt => by simpa using fun h => hfew ⟨hlt, h⟩
    have hend : bank.tickHeight + tickCount entries = bank.maxTickHeight →
        hasTrailingEntry entries = false ∧ slotFull = true := fun heq =>
      ⟨by simpa using fun h => htrailing ⟨heq, h⟩, by simpa using fun h => hlast ⟨heq, h⟩⟩
    split
    · rename_i hnone
      simp only [reduceCtorEq, false_iff, not_and]
      intro _ _ _ hsome
      rw [hnone] at hsome
      cases hsome
    · rename_i c' hsome
      simp only [Except.ok.injEq]
      constructor
      · rintro rfl
        exact ⟨Nat.le_of_not_lt hmany, hfull, hend, hsome⟩
      · rintro ⟨-, -, -, hc⟩
        rw [hsome, Option.some.injEq] at hc
        exact hc

theorem confirmSlot_eq_ok {bank bank' : TickBank} {progress progress' : ConfirmationProgress}
    {entries : List (Entry Tx)} {slotFull : Bool}
    (h : confirmSlot H bank progress entries slotFull = .ok (bank', progress')) :
    verifyTicks bank entries slotFull progress.tickHashCount = .ok progress'.tickHashCount ∧
      startVerify H progress.lastEntry entries = true ∧
      bank' = { bank with tickHeight := bank.tickHeight + tickCount entries } ∧
      progress'.lastEntry = lastHash progress.lastEntry entries := by
  unfold confirmSlot at h
  split at h
  · cases h
  · rename_i c hticks
    split_ifs at h with hpoh
    cases h
    exact ⟨hticks, by simpa using hpoh, rfl, rfl⟩

/-- A batch that is not full and passes stops below the slot's last tick. -/
theorem lt_maxTickHeight_of_not_full {bank : TickBank} {entries : List (Entry Tx)}
    {tickHashCount c : ℕ} (h : verifyTicks bank entries false tickHashCount = .ok c) :
    bank.tickHeight + tickCount entries < bank.maxTickHeight := by
  obtain ⟨hle, -, hend, -⟩ := verifyTicks_eq_ok.mp h
  rcases Nat.lt_or_eq_of_le hle with hlt | heq
  · exact hlt
  · cases (hend heq).2

/-! ## Batches against the whole slot -/

/-- A batch that is not full, then one more from where it left off, pass as one batch. -/
theorem confirmSlot_append {bank bank₁ : TickBank} {progress progress₁ : ConfirmationProgress}
    {r : TickBank × ConfirmationProgress} {first second : List (Entry Tx)} {slotFull : Bool}
    (h₁ : confirmSlot H bank progress first false = .ok (bank₁, progress₁))
    (h₂ : confirmSlot H bank₁ progress₁ second slotFull = .ok r) :
    confirmSlot H bank progress (first ++ second) slotFull = .ok r := by
  obtain ⟨bank₂, progress₂⟩ := r
  obtain ⟨hticks₁, hpoh₁, rfl, hlast₁⟩ := confirmSlot_eq_ok H h₁
  obtain ⟨hticks₂, hpoh₂, rfl, hlast₂⟩ := confirmSlot_eq_ok H h₂
  have hbelow := lt_maxTickHeight_of_not_full hticks₁
  obtain ⟨-, -, -, hcount₁⟩ := verifyTicks_eq_ok.mp hticks₁
  obtain ⟨hle, hfew, hend, hcount₂⟩ := verifyTicks_eq_ok.mp hticks₂
  have hheight : bank.tickHeight + tickCount (first ++ second) =
      bank.tickHeight + tickCount first + tickCount second := by
    rw [tickCount_append, Nat.add_assoc]
  have hticks : verifyTicks bank (first ++ second) slotFull progress.tickHashCount =
      .ok progress₂.tickHashCount := by
    refine verifyTicks_eq_ok.mpr ⟨?_, ?_, fun heq => ?_, verifyTickHashCount_append hcount₁ hcount₂⟩
    · rw [hheight]
      exact hle
    · rw [hheight]
      exact hfew
    · have hsecond : second ≠ [] := by
        rintro rfl
        rw [List.append_nil] at heq
        omega
      rw [hasTrailingEntry_append first hsecond]
      rw [hheight] at heq
      exact hend heq
  have hpoh : startVerify H progress.lastEntry (first ++ second) = true := by
    rw [startVerify_append, hpoh₁, ← hlast₁, hpoh₂, Bool.and_self]
  have hresult : confirmSlot H bank progress (first ++ second) slotFull =
      .ok ({ bank with tickHeight := bank.tickHeight + tickCount (first ++ second) },
        ⟨lastHash progress.lastEntry (first ++ second), progress₂.tickHashCount⟩) := by
    unfold confirmSlot
    rw [hticks]
    simp [hpoh]
  rw [hresult, hheight, lastHash_append, ← hlast₁, ← hlast₂]

/-- Every batching of a slot that replay accepts is accepted for the whole slot at once,
with the same bank and progress at the end. -/
theorem confirmBatches_flatten {bank : TickBank} {progress : ConfirmationProgress}
    {r : TickBank × ConfirmationProgress} :
    ∀ {batches : List (List (Entry Tx))}, batches ≠ [] →
      confirmBatches H bank progress batches = .ok r →
        confirmSlot H bank progress batches.flatten true = .ok r
  | [], hne, _ => absurd rfl hne
  | [entries], _, h => by
    rw [List.flatten_singleton]
    exact h
  | entries :: next :: rest, _, h => by
    unfold confirmBatches at h
    split at h
    · cases h
    · rename_i bank₁ progress₁ hfirst
      rw [List.flatten_cons]
      exact confirmSlot_append H hfirst (confirmBatches_flatten (List.cons_ne_nil _ _) h)

/-- A slot of one tick with `hashes_per_tick` two: a transaction entry of two hashes, then
a tick of none. The whole slot passes, but a first batch that ends after the transaction
entry is rejected for the two hashes it leaves over. -/
theorem confirmBatches_split_rejected (start : Hash) (tx : Tx) :
    (confirmSlot H ⟨0, 1, some 2⟩ ⟨start, 0⟩
        [⟨2, Entry.nextHash H start 2 [tx], [tx]⟩, ⟨0, Entry.nextHash H start 2 [tx], []⟩]
        true).isOk = true ∧
      confirmBatches H ⟨0, 1, some 2⟩ ⟨start, 0⟩
        [[⟨2, Entry.nextHash H start 2 [tx], [tx]⟩], [⟨0, Entry.nextHash H start 2 [tx], []⟩]] =
        .error .invalidTickHashCount := by
  constructor
  · simp [confirmSlot, verifyTicks, verifyTickHashCount, tickHashStep, tickCount,
      hasTrailingEntry, Entry.isTick, Entry.verify, Entry.nextHash, Run.exec_cons,
      MachineInt.saturatingAdd, Option.filter_some, Except.isOk, Except.toBool]
  · simp [confirmBatches, confirmSlot, verifyTicks, verifyTickHashCount, tickHashStep,
      tickCount, hasTrailingEntry, Entry.isTick, Run.exec_cons, MachineInt.saturatingAdd,
      Option.filter_some]

end Solana.Ledger
