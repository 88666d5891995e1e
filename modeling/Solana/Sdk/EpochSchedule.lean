import Solana.Sdk.Basic

/-! `sdk/program/src/epoch_schedule.rs` with its saturating operations: the schedules `custom`
builds place every slot in one epoch (`custom_partitions_slots`). -/

namespace Solana

open MachineInt

/-- `MINIMUM_SLOTS_PER_EPOCH`. -/
def minimumSlotsPerEpoch : ℕ := 32

structure EpochSchedule where
  slotsPerEpoch : ℕ
  leaderScheduleSlotOffset : ℕ
  warmup : Bool
  firstNormalEpoch : ℕ
  firstNormalSlot : ℕ
  deriving DecidableEq, Repr

namespace EpochSchedule

/-- `EpochSchedule::custom`; `none` is its assertion. -/
def custom (slotsPerEpoch leaderScheduleSlotOffset : ℕ) (warmup : Bool) :
    Option EpochSchedule :=
  if slotsPerEpoch < minimumSlotsPerEpoch then none
  else
    let (firstNormalEpoch, firstNormalSlot) :=
      if warmup then
        let nextPowerOfTwo := nextPowerOfTwo 64 slotsPerEpoch
        let log2SlotsPerEpoch :=
          trailingZeros 64 nextPowerOfTwo - trailingZeros 64 minimumSlotsPerEpoch
        (log2SlotsPerEpoch, nextPowerOfTwo - minimumSlotsPerEpoch)
      else (0, 0)
    some ⟨slotsPerEpoch, leaderScheduleSlotOffset, warmup, firstNormalEpoch, firstNormalSlot⟩

variable (self : EpochSchedule)

/-- `get_slots_in_epoch`; `epoch as u32` truncates. -/
def getSlotsInEpoch (epoch : ℕ) : ℕ :=
  if epoch < self.firstNormalEpoch then
    saturatingPow 64 2 (saturatingAdd 32 (wrap 32 epoch) (trailingZeros 64 minimumSlotsPerEpoch))
  else self.slotsPerEpoch

/-- `get_epoch_and_slot_index`. The warmup epoch is a `u32`, from `trailing_zeros`. -/
def getEpochAndSlotIndex (slot : ℕ) : ℕ × ℕ :=
  if slot < self.firstNormalSlot then
    let epoch :=
      trailingZeros 64
          (nextPowerOfTwo 64 (saturatingAdd 64 (saturatingAdd 64 slot minimumSlotsPerEpoch) 1)) -
        trailingZeros 64 minimumSlotsPerEpoch - 1
    let epochLen :=
      saturatingPow 64 2 (saturatingAdd 32 epoch (trailingZeros 64 minimumSlotsPerEpoch))
    (epoch, slot - (epochLen - minimumSlotsPerEpoch))
  else
    let normalSlotIndex := slot - self.firstNormalSlot
    let normalEpochIndex := (checkedDiv normalSlotIndex self.slotsPerEpoch).getD 0
    let epoch := saturatingAdd 64 self.firstNormalEpoch normalEpochIndex
    let slotIndex := (checkedRem normalSlotIndex self.slotsPerEpoch).getD 0
    (epoch, slotIndex)

/-- `get_epoch`. -/
def getEpoch (slot : ℕ) : ℕ := (self.getEpochAndSlotIndex slot).1

/-- `get_leader_schedule_epoch`: until the first normal slot it behaves as if the offset were
an epoch. -/
def getLeaderScheduleEpoch (slot : ℕ) : ℕ :=
  if slot < self.firstNormalSlot then saturatingAdd 64 (self.getEpochAndSlotIndex slot).1 1
  else
    let newSlotsSinceFirstNormalSlot := slot - self.firstNormalSlot
    let newFirstNormalLeaderScheduleSlot :=
      saturatingAdd 64 newSlotsSinceFirstNormalSlot self.leaderScheduleSlotOffset
    let newEpochsSinceFirstNormalLeaderSchedule :=
      (checkedDiv newFirstNormalLeaderScheduleSlot self.slotsPerEpoch).getD 0
    saturatingAdd 64 self.firstNormalEpoch newEpochsSinceFirstNormalLeaderSchedule

/-- `get_first_slot_in_epoch`. -/
def getFirstSlotInEpoch (epoch : ℕ) : ℕ :=
  if epoch ≤ self.firstNormalEpoch then
    saturatingMul 64 (saturatingPow 64 2 (wrap 32 epoch) - 1) minimumSlotsPerEpoch
  else
    saturatingAdd 64 (saturatingMul 64 (epoch - self.firstNormalEpoch) self.slotsPerEpoch)
      self.firstNormalSlot

/-- `get_last_slot_in_epoch`. -/
def getLastSlotInEpoch (epoch : ℕ) : ℕ :=
  saturatingAdd 64 (self.getFirstSlotInEpoch epoch) (self.getSlotsInEpoch epoch) - 1

/-! ## What `custom` builds -/

theorem trailingZeros_minimumSlotsPerEpoch : trailingZeros 64 minimumSlotsPerEpoch = 5 := by
  decide

/-- `first_normal_epoch` is the number of doublings from 32 to `slots_per_epoch`, also where
`next_power_of_two` wraps to 0 and `trailing_zeros` gives 64. -/
theorem custom_eq {slotsPerEpoch leaderScheduleSlotOffset : ℕ} (warmup : Bool)
    (hmin : minimumSlotsPerEpoch ≤ slotsPerEpoch) (hspe : slotsPerEpoch ≤ 2 ^ 64) :
    custom slotsPerEpoch leaderScheduleSlotOffset warmup = some
      ⟨slotsPerEpoch, leaderScheduleSlotOffset, warmup,
        if warmup then Nat.clog 2 slotsPerEpoch - 5 else 0,
        if warmup then nextPowerOfTwo 64 slotsPerEpoch - minimumSlotsPerEpoch else 0⟩ := by
  have hclog : Nat.clog 2 slotsPerEpoch ≤ 64 := Nat.clog_le_of_le_pow hspe
  unfold custom
  rw [if_neg (Nat.not_lt_of_le hmin)]
  cases warmup <;>
    simp [trailingZeros_nextPowerOfTwo hclog, trailingZeros_minimumSlotsPerEpoch]

/-- What the arithmetic of a schedule rests on: epochs of at least 32 slots, and a warmup of
`2 ^ (first_normal_epoch + 5) - 32` slots that ends below `2 ^ 63`. -/
structure Valid (schedule : EpochSchedule) : Prop where
  minimum_le : minimumSlotsPerEpoch ≤ schedule.slotsPerEpoch
  firstNormalSlot_add :
    schedule.firstNormalSlot + minimumSlotsPerEpoch = 2 ^ (schedule.firstNormalEpoch + 5)
  firstNormalEpoch_le : schedule.firstNormalEpoch ≤ 58

theorem five_lt_clog {slotsPerEpoch : ℕ} (hmin : minimumSlotsPerEpoch ≤ slotsPerEpoch) :
    5 ≤ Nat.clog 2 slotsPerEpoch := by
  have h : 2 ^ 4 < slotsPerEpoch := lt_of_lt_of_le (by decide) hmin
  exact (Nat.lt_clog_iff_pow_lt (by decide)).mpr h

/-- `next_power_of_two` of at least `32` slots is `2 ^ (log2 + 5)`, with `log2` as `custom`
computes it: the least power of two at or above `slots_per_epoch`. -/
theorem clog_bracket {slotsPerEpoch : ℕ} (hmin : minimumSlotsPerEpoch ≤ slotsPerEpoch) :
    2 ^ (Nat.clog 2 slotsPerEpoch - 5 + 4) < slotsPerEpoch ∧
      slotsPerEpoch ≤ 2 ^ (Nat.clog 2 slotsPerEpoch - 5 + 5) := by
  have hfive := five_lt_clog hmin
  rw [show Nat.clog 2 slotsPerEpoch - 5 + 4 = Nat.clog 2 slotsPerEpoch - 1 by omega,
    show Nat.clog 2 slotsPerEpoch - 5 + 5 = Nat.clog 2 slotsPerEpoch by omega]
  have hbelow := Nat.pow_pred_clog_lt_self (b := 2) (by decide)
    (show 1 < slotsPerEpoch from lt_of_lt_of_le (by decide) hmin)
  rw [Nat.pred_eq_sub_one] at hbelow
  exact ⟨hbelow, Nat.le_pow_clog (by decide) _⟩

theorem custom_valid {slotsPerEpoch leaderScheduleSlotOffset : ℕ} {warmup : Bool}
    {schedule : EpochSchedule} (hmin : minimumSlotsPerEpoch ≤ slotsPerEpoch)
    (hspe : slotsPerEpoch ≤ 2 ^ 63)
    (hcustom : custom slotsPerEpoch leaderScheduleSlotOffset warmup = some schedule) :
    schedule.Valid := by
  rw [custom_eq warmup hmin (hspe.trans (by decide))] at hcustom
  cases hcustom
  have hclog : Nat.clog 2 slotsPerEpoch ≤ 63 := Nat.clog_le_of_le_pow hspe
  have hfive := five_lt_clog hmin
  refine ⟨hmin, ?_, ?_⟩
  · cases warmup with
    | false => rfl
    | true =>
      have hpow : 2 ^ Nat.clog 2 slotsPerEpoch < 2 ^ 64 :=
        Nat.pow_lt_pow_right (by decide) (by omega)
      have h32 : minimumSlotsPerEpoch ≤ 2 ^ Nat.clog 2 slotsPerEpoch :=
        hmin.trans (Nat.le_pow_clog (by decide) _)
      simp only [if_true, nextPowerOfTwo_of_lt hpow, Nat.sub_add_cancel h32]
      congr 1
      omega
  · cases warmup <;> simp only [Bool.false_eq_true, if_false, if_true] <;> omega

/-! ## The arithmetic of a valid schedule -/

theorem getSlotsInEpoch_of_lt {self : EpochSchedule} (hfne : self.firstNormalEpoch ≤ 59) {epoch : ℕ}
    (h : epoch < self.firstNormalEpoch) : self.getSlotsInEpoch epoch = 2 ^ (epoch + 5) := by
  unfold getSlotsInEpoch
  rw [if_pos h, wrap_of_lt (lt_of_le_of_lt (show epoch ≤ 58 by omega) (by decide)),
    trailingZeros_minimumSlotsPerEpoch,
    saturatingAdd_of_lt (lt_of_le_of_lt (show epoch + 5 ≤ 63 by omega) (by decide))]
  exact saturatingPow_of_lt (Nat.pow_lt_pow_right (by decide) (by omega))

theorem getSlotsInEpoch_of_le {self : EpochSchedule} {epoch : ℕ} (h : self.firstNormalEpoch ≤ epoch) :
    self.getSlotsInEpoch epoch = self.slotsPerEpoch :=
  if_neg (Nat.not_lt_of_le h)

namespace Valid

variable {self : EpochSchedule}

/-- A warmup epoch starts after the `32 * (2 ^ epoch - 1)` slots of the epochs before it. -/
theorem getFirstSlotInEpoch_of_le (hvalid : self.Valid) {epoch : ℕ}
    (h : epoch ≤ self.firstNormalEpoch) :
    self.getFirstSlotInEpoch epoch = 2 ^ (epoch + 5) - minimumSlotsPerEpoch := by
  have he := hvalid.firstNormalEpoch_le
  have hpow : 2 ^ (epoch + 5) ≤ 2 ^ 63 := Nat.pow_le_pow_right (by decide) (by omega)
  have hmul : 2 ^ epoch * minimumSlotsPerEpoch = 2 ^ (epoch + 5) := by
    rw [pow_add]
    rfl
  unfold getFirstSlotInEpoch
  have hfit : (2 ^ epoch - 1) * minimumSlotsPerEpoch < 2 ^ 64 := by
    rw [Nat.sub_one_mul, hmul]
    exact lt_of_le_of_lt (Nat.sub_le _ _) (lt_of_le_of_lt hpow (by decide))
  rw [if_pos h, wrap_of_lt (lt_of_le_of_lt (show epoch ≤ 58 by omega) (by decide)),
    saturatingPow_of_lt (Nat.pow_lt_pow_right (by decide) (by omega)), saturatingMul_of_lt hfit,
    Nat.sub_one_mul, hmul]

/-- A normal epoch starts a whole number of epochs after the first normal slot. -/
theorem getFirstSlotInEpoch_normal (hvalid : self.Valid) {epoch : ℕ}
    (h : self.firstNormalEpoch ≤ epoch)
    (hfit : (epoch - self.firstNormalEpoch) * self.slotsPerEpoch + self.firstNormalSlot < 2 ^ 64) :
    self.getFirstSlotInEpoch epoch =
      (epoch - self.firstNormalEpoch) * self.slotsPerEpoch + self.firstNormalSlot := by
  rcases Nat.eq_or_lt_of_le h with rfl | hlt
  · rw [getFirstSlotInEpoch_of_le hvalid le_rfl, Nat.sub_self, Nat.zero_mul, Nat.zero_add]
    have := hvalid.firstNormalSlot_add
    omega
  · unfold getFirstSlotInEpoch
    rw [if_neg (Nat.not_le_of_lt hlt), saturatingMul_of_lt (by omega)]
    exact saturatingAdd_of_lt hfit

/-- A warmup slot lies in the epoch `e` with `2 ^ (e + 5) ≤ slot + 32 < 2 ^ (e + 6)`, found from
the next power of two of `slot + 33`. -/
theorem getEpochAndSlotIndex_of_lt (hvalid : self.Valid) {slot : ℕ}
    (h : slot < self.firstNormalSlot) :
    ∃ epoch, self.getEpochAndSlotIndex slot = (epoch, slot + 32 - 2 ^ (epoch + 5)) ∧
      epoch < self.firstNormalEpoch ∧ 2 ^ (epoch + 5) ≤ slot + 32 ∧
      slot + 32 < 2 ^ (epoch + 6) := by
  have hend := hvalid.firstNormalSlot_add
  have hfne := hvalid.firstNormalEpoch_le
  have hend63 : 2 ^ (self.firstNormalEpoch + 5) ≤ 2 ^ 63 :=
    Nat.pow_le_pow_right (by decide) (by omega)
  have hslot : slot + 33 ≤ 2 ^ (self.firstNormalEpoch + 5) := by
    unfold minimumSlotsPerEpoch at hend
    omega
  obtain ⟨bits, hbits⟩ : ∃ bits, Nat.clog 2 (slot + 33) = bits := ⟨_, rfl⟩
  have hbits_le : bits ≤ self.firstNormalEpoch + 5 := hbits ▸ Nat.clog_le_of_le_pow hslot
  have hbits_gt : 5 < bits := hbits ▸ (Nat.lt_clog_iff_pow_lt (by decide)).mpr
    (show 2 ^ 5 < slot + 33 by rw [show (2 : ℕ) ^ 5 = 32 from rfl]; omega)
  have hbelow : 2 ^ (bits - 1) < slot + 33 := by
    have := Nat.pow_pred_clog_lt_self (b := 2) (by decide) (show 1 < slot + 33 by omega)
    rwa [hbits, Nat.pred_eq_sub_one] at this
  have habove : slot + 33 ≤ 2 ^ bits := hbits ▸ Nat.le_pow_clog (by decide) _
  have hfits : 2 ^ bits < 2 ^ 64 := Nat.pow_lt_pow_right (by decide) (by omega)
  have hnext : nextPowerOfTwo 64 (slot + 33) = 2 ^ bits := by
    rw [nextPowerOfTwo_of_lt (hbits ▸ hfits), hbits]
  have h32 : 32 ≤ 2 ^ (bits - 1) :=
    calc 32 = 2 ^ 5 := rfl
      _ ≤ 2 ^ (bits - 1) := Nat.pow_le_pow_right (by decide) (by omega)
  have hlen : bits - 5 - 1 + 5 < 2 ^ 32 :=
    lt_of_le_of_lt (show bits - 5 - 1 + 5 ≤ 64 by omega) (by decide)
  refine ⟨bits - 6, ?_, by omega, ?_, ?_⟩
  · unfold getEpochAndSlotIndex
    rw [if_pos h, trailingZeros_minimumSlotsPerEpoch]
    unfold minimumSlotsPerEpoch
    rw [saturatingAdd_of_lt (show slot + 32 < 2 ^ 64 by omega),
      saturatingAdd_of_lt (show slot + 32 + 1 < 2 ^ 64 by omega),
      show slot + 32 + 1 = slot + 33 from rfl, hnext,
      trailingZeros_two_pow (show bits < 64 by omega)]
    dsimp only
    rw [saturatingAdd_of_lt hlen, saturatingPow_of_lt (Nat.pow_lt_pow_right (by decide) (by omega)),
      show bits - 5 - 1 = bits - 6 by omega, show bits - 6 + 5 = bits - 1 by omega]
    simp only [Prod.mk.injEq, true_and]
    omega
  · rw [show bits - 6 + 5 = bits - 1 by omega]
    omega
  · rw [show bits - 6 + 6 = bits by omega]
    omega

/-- A normal slot lies a whole number of epochs after the first normal slot. -/
theorem getEpochAndSlotIndex_of_le (hvalid : self.Valid) {slot : ℕ}
    (h : self.firstNormalSlot ≤ slot) (hslot : slot < 2 ^ 64) :
    self.getEpochAndSlotIndex slot =
      (self.firstNormalEpoch + (slot - self.firstNormalSlot) / self.slotsPerEpoch,
        (slot - self.firstNormalSlot) % self.slotsPerEpoch) := by
  have hpos : self.slotsPerEpoch ≠ 0 := by
    have := hvalid.minimum_le
    unfold minimumSlotsPerEpoch at this
    omega
  have hdiv : (slot - self.firstNormalSlot) / self.slotsPerEpoch ≤ slot / 32 :=
    le_trans (Nat.div_le_div_left hvalid.minimum_le (by decide))
      (Nat.div_le_div_right (Nat.sub_le _ _))
  have hfne := hvalid.firstNormalEpoch_le
  unfold getEpochAndSlotIndex
  rw [if_neg (Nat.not_lt_of_le h)]
  simp only [checkedDiv, checkedRem, hpos, if_false, Option.getD_some, Prod.mk.injEq, and_true]
  exact saturatingAdd_of_lt (by omega)

/-- Before the first normal slot, the leader schedule is that of the next epoch. -/
theorem getLeaderScheduleEpoch_of_lt (hvalid : self.Valid) {slot : ℕ}
    (h : slot < self.firstNormalSlot) :
    self.getLeaderScheduleEpoch slot = self.getEpoch slot + 1 := by
  obtain ⟨epoch, hindex, hepoch, -⟩ := hvalid.getEpochAndSlotIndex_of_lt h
  have hfne := hvalid.firstNormalEpoch_le
  unfold getLeaderScheduleEpoch getEpoch
  rw [if_pos h, hindex]
  exact saturatingAdd_of_lt (lt_of_le_of_lt (show epoch + 1 ≤ 58 by omega) (by decide))

/-- From the first normal slot on, the leader schedule is that of the epoch the slot would be in
`leader_schedule_slot_offset` slots later. -/
theorem getLeaderScheduleEpoch_of_le (hvalid : self.Valid) {slot : ℕ}
    (h : self.firstNormalSlot ≤ slot) (hslot : slot + self.leaderScheduleSlotOffset < 2 ^ 64) :
    self.getLeaderScheduleEpoch slot = self.firstNormalEpoch +
      (slot - self.firstNormalSlot + self.leaderScheduleSlotOffset) / self.slotsPerEpoch := by
  have hpos : self.slotsPerEpoch ≠ 0 := by
    have := hvalid.minimum_le
    unfold minimumSlotsPerEpoch at this
    omega
  have hdiv : (slot - self.firstNormalSlot + self.leaderScheduleSlotOffset) / self.slotsPerEpoch ≤
      (slot + self.leaderScheduleSlotOffset) / 32 :=
    le_trans (Nat.div_le_div_left hvalid.minimum_le (by decide))
      (Nat.div_le_div_right (by omega))
  have hfne := hvalid.firstNormalEpoch_le
  unfold getLeaderScheduleEpoch
  dsimp only
  rw [if_neg (Nat.not_lt_of_le h), saturatingAdd_of_lt
    (show slot - self.firstNormalSlot + self.leaderScheduleSlotOffset < 2 ^ 64 by omega)]
  simp only [checkedDiv, hpos, if_false, Option.getD_some]
  exact saturatingAdd_of_lt (by omega)

theorem slotsPerEpoch_pos (hvalid : self.Valid) : 0 < self.slotsPerEpoch :=
  lt_of_lt_of_le (by decide) hvalid.minimum_le

/-- Below the bound, a slot lies in the epoch `get_epoch_and_slot_index` gives, at the index it
gives, and that epoch ends where the next starts. -/
theorem getEpochAndSlotIndex_spec (hvalid : self.Valid) {slot : ℕ}
    (hslot : slot + 2 * self.slotsPerEpoch < 2 ^ 64) :
    self.getFirstSlotInEpoch (self.getEpochAndSlotIndex slot).1 +
        (self.getEpochAndSlotIndex slot).2 = slot ∧
      (self.getEpochAndSlotIndex slot).2 <
        self.getSlotsInEpoch (self.getEpochAndSlotIndex slot).1 ∧
      self.getLastSlotInEpoch (self.getEpochAndSlotIndex slot).1 + 1 =
        self.getFirstSlotInEpoch ((self.getEpochAndSlotIndex slot).1 + 1) := by
  by_cases h : slot < self.firstNormalSlot
  · obtain ⟨epoch, hindex, hepoch, hlow, hhigh⟩ := hvalid.getEpochAndSlotIndex_of_lt h
    have hfne := hvalid.firstNormalEpoch_le
    have hdouble : 2 ^ (epoch + 6) = 2 ^ (epoch + 5) * 2 := pow_succ 2 (epoch + 5)
    have hfits : 2 ^ (epoch + 6) < 2 ^ 64 := Nat.pow_lt_pow_right (by decide) (by omega)
    have h32 : 2 ^ 5 ≤ 2 ^ (epoch + 5) := Nat.pow_le_pow_right (by decide) (by omega)
    rw [hindex]
    unfold getLastSlotInEpoch
    simp only
    rw [hvalid.getFirstSlotInEpoch_of_le hepoch.le, getSlotsInEpoch_of_lt (hvalid.firstNormalEpoch_le.trans (by decide)) hepoch,
      hvalid.getFirstSlotInEpoch_of_le (show epoch + 1 ≤ self.firstNormalEpoch by omega),
      show epoch + 1 + 5 = epoch + 6 from rfl]
    unfold minimumSlotsPerEpoch at *
    rw [saturatingAdd_of_lt (by omega)]
    refine ⟨by omega, by omega, by omega⟩
  · have hle : self.firstNormalSlot ≤ slot := Nat.le_of_not_lt h
    have hpos := hvalid.slotsPerEpoch_pos
    rw [hvalid.getEpochAndSlotIndex_of_le hle (by omega)]
    simp only
    obtain ⟨epochs, hepochs⟩ :
        ∃ epochs, (slot - self.firstNormalSlot) / self.slotsPerEpoch = epochs := ⟨_, rfl⟩
    have hmul : epochs * self.slotsPerEpoch ≤ slot - self.firstNormalSlot :=
      hepochs ▸ Nat.div_mul_le_self _ _
    have hmod : (slot - self.firstNormalSlot) % self.slotsPerEpoch =
        slot - self.firstNormalSlot - epochs * self.slotsPerEpoch := by
      rw [Nat.mod_eq_sub_mul_div, hepochs, Nat.mul_comm]
    have hmodlt := Nat.mod_lt (slot - self.firstNormalSlot) hpos
    have hsucc : (epochs + 1) * self.slotsPerEpoch = epochs * self.slotsPerEpoch +
        self.slotsPerEpoch := Nat.succ_mul _ _
    have hfirst := hvalid.getFirstSlotInEpoch_normal (Nat.le_add_right _ epochs)
      (show (self.firstNormalEpoch + epochs - self.firstNormalEpoch) * self.slotsPerEpoch +
          self.firstNormalSlot < 2 ^ 64 by rw [Nat.add_sub_cancel_left]; omega)
    have hnext := hvalid.getFirstSlotInEpoch_normal
      (show self.firstNormalEpoch ≤ self.firstNormalEpoch + epochs + 1 by omega)
      (show (self.firstNormalEpoch + epochs + 1 - self.firstNormalEpoch) * self.slotsPerEpoch +
          self.firstNormalSlot < 2 ^ 64 by
        rw [show self.firstNormalEpoch + epochs + 1 - self.firstNormalEpoch = epochs + 1 by omega]
        omega)
    rw [Nat.add_sub_cancel_left] at hfirst
    rw [show self.firstNormalEpoch + epochs + 1 - self.firstNormalEpoch = epochs + 1 by omega]
      at hnext
    rw [hepochs]
    unfold getLastSlotInEpoch
    rw [hfirst, hnext, getSlotsInEpoch_of_le (Nat.le_add_right _ _),
      saturatingAdd_of_lt (by omega), hmod]
    refine ⟨by omega, by omega, by omega⟩

/-- The leader schedule epoch of a slot is at or after its epoch, and moves by at most one from
a slot to the next. -/
theorem getLeaderScheduleEpoch_spec (hvalid : self.Valid)
    (hoffset : self.leaderScheduleSlotOffset ≤ self.slotsPerEpoch) {slot : ℕ}
    (hslot : slot + 2 * self.slotsPerEpoch < 2 ^ 64) :
    self.getEpoch slot ≤ self.getLeaderScheduleEpoch slot ∧
      self.getLeaderScheduleEpoch slot ≤ self.getLeaderScheduleEpoch (slot + 1) ∧
      self.getLeaderScheduleEpoch (slot + 1) ≤ self.getLeaderScheduleEpoch slot + 1 := by
  have hpos := hvalid.slotsPerEpoch_pos
  by_cases h : slot + 1 < self.firstNormalSlot
  · rw [hvalid.getLeaderScheduleEpoch_of_lt h, hvalid.getLeaderScheduleEpoch_of_lt (by omega)]
    obtain ⟨epoch, hindex, -, hlow, hhigh⟩ :=
      hvalid.getEpochAndSlotIndex_of_lt (show slot < self.firstNormalSlot by omega)
    obtain ⟨epoch', hindex', -, hlow', hhigh'⟩ := hvalid.getEpochAndSlotIndex_of_lt h
    have hle : epoch + 5 < epoch' + 6 :=
      (Nat.pow_lt_pow_iff_right (a := 2) (by decide)).mp (lt_of_le_of_lt hlow (by omega))
    have hle' : epoch' + 5 ≤ epoch + 6 :=
      (Nat.pow_le_pow_iff_right (a := 2) (by decide)).mp (le_trans hlow' (by omega))
    unfold getEpoch
    rw [hindex, hindex']
    simp only
    omega
  by_cases h' : slot < self.firstNormalSlot
  · have hlast : slot + 1 = self.firstNormalSlot := by omega
    rw [hvalid.getLeaderScheduleEpoch_of_lt h', hvalid.getLeaderScheduleEpoch_of_le
      (by omega) (by omega), hlast, Nat.sub_self, Nat.zero_add]
    obtain ⟨epoch, hindex, hepoch, -, hhigh⟩ := hvalid.getEpochAndSlotIndex_of_lt h'
    have hend := hvalid.firstNormalSlot_add
    unfold minimumSlotsPerEpoch at hend
    have hge : self.firstNormalEpoch + 5 ≤ epoch + 6 :=
      (Nat.pow_le_pow_iff_right (a := 2) (by decide)).mp (by omega)
    have hoff : self.leaderScheduleSlotOffset / self.slotsPerEpoch ≤ 1 :=
      le_trans (Nat.div_le_div_right hoffset) (le_of_eq (Nat.div_self hpos))
    unfold getEpoch
    rw [hindex]
    simp only
    generalize self.leaderScheduleSlotOffset / self.slotsPerEpoch = epochs at hoff ⊢
    omega
  · have hle : self.firstNormalSlot ≤ slot := by omega
    rw [hvalid.getLeaderScheduleEpoch_of_le hle (by omega),
      hvalid.getLeaderScheduleEpoch_of_le (show self.firstNormalSlot ≤ slot + 1 by omega)
        (by omega)]
    unfold getEpoch
    rw [hvalid.getEpochAndSlotIndex_of_le hle (by omega)]
    simp only
    have hmono : (slot - self.firstNormalSlot) / self.slotsPerEpoch ≤
        (slot - self.firstNormalSlot + self.leaderScheduleSlotOffset) / self.slotsPerEpoch :=
      Nat.div_le_div_right (Nat.le_add_right _ _)
    have hstep : (slot + 1 - self.firstNormalSlot + self.leaderScheduleSlotOffset) /
        self.slotsPerEpoch ≤
        (slot - self.firstNormalSlot + self.leaderScheduleSlotOffset) / self.slotsPerEpoch + 1 := by
      calc (slot + 1 - self.firstNormalSlot + self.leaderScheduleSlotOffset) / self.slotsPerEpoch
          ≤ (slot - self.firstNormalSlot + self.leaderScheduleSlotOffset + self.slotsPerEpoch) /
              self.slotsPerEpoch := Nat.div_le_div_right (by omega)
        _ = (slot - self.firstNormalSlot + self.leaderScheduleSlotOffset) / self.slotsPerEpoch + 1 :=
          Nat.add_div_right _ hpos
    have hgrow : (slot - self.firstNormalSlot + self.leaderScheduleSlotOffset) / self.slotsPerEpoch ≤
        (slot + 1 - self.firstNormalSlot + self.leaderScheduleSlotOffset) / self.slotsPerEpoch :=
      Nat.div_le_div_right (by omega)
    omega

end Valid

/-! ## The schedules `custom` builds -/

/-- With warmup, `first_normal_epoch` epochs of `2 ^ (epoch + 5)` slots, the last of them
shorter than `slots_per_epoch` and at least half of it. -/
theorem custom_warmup {slotsPerEpoch leaderScheduleSlotOffset : ℕ} {warmup : Bool}
    {schedule : EpochSchedule} (hmin : minimumSlotsPerEpoch ≤ slotsPerEpoch)
    (hspe : slotsPerEpoch < 2 ^ 64)
    (hcustom : custom slotsPerEpoch leaderScheduleSlotOffset warmup = some schedule) :
    (∀ epoch, epoch < schedule.firstNormalEpoch → schedule.getSlotsInEpoch epoch = 2 ^ (epoch + 5)) ∧
      (0 < schedule.firstNormalEpoch →
        2 ^ (schedule.firstNormalEpoch + 4) < slotsPerEpoch ∧
          slotsPerEpoch ≤ 2 ^ (schedule.firstNormalEpoch + 5)) := by
  rw [custom_eq warmup hmin hspe.le] at hcustom
  cases hcustom
  have hclog : Nat.clog 2 slotsPerEpoch ≤ 64 := Nat.clog_le_of_le_pow hspe.le
  have hfne : (if warmup then Nat.clog 2 slotsPerEpoch - 5 else 0) ≤ 59 := by
    split <;> omega
  refine ⟨fun epoch h => getSlotsInEpoch_of_lt hfne h, fun hpos => ?_⟩
  cases warmup with
  | false => exact absurd hpos (Nat.lt_irrefl 0)
  | true => exact clog_bracket hmin

/-- What a schedule built by `custom` does: a warmup that doubles from 32 until it reaches
`slots_per_epoch`, and below the bound, slots placed in epochs that follow one another without
gap, with a leader schedule epoch at or after the slot's, moving by at most one. -/
structure PartitionsSlots (schedule : EpochSchedule) : Prop where
  slotsInEpoch_zero :
    0 < schedule.firstNormalEpoch → schedule.getSlotsInEpoch 0 = minimumSlotsPerEpoch
  slotsInEpoch_succ : ∀ epoch, epoch + 1 < schedule.firstNormalEpoch →
    schedule.getSlotsInEpoch (epoch + 1) = 2 * schedule.getSlotsInEpoch epoch
  slotsInEpoch_lt : ∀ epoch, epoch < schedule.firstNormalEpoch →
    schedule.getSlotsInEpoch epoch < schedule.slotsPerEpoch
  le_slotsInEpoch_last : 0 < schedule.firstNormalEpoch →
    schedule.slotsPerEpoch ≤ 2 * schedule.getSlotsInEpoch (schedule.firstNormalEpoch - 1)
  slotsInEpoch_normal : ∀ epoch, schedule.firstNormalEpoch ≤ epoch →
    schedule.getSlotsInEpoch epoch = schedule.slotsPerEpoch
  placed : ∀ slot, slot + 2 * schedule.slotsPerEpoch < 2 ^ 64 →
    schedule.getFirstSlotInEpoch (schedule.getEpochAndSlotIndex slot).1 +
        (schedule.getEpochAndSlotIndex slot).2 = slot ∧
      (schedule.getEpochAndSlotIndex slot).2 <
        schedule.getSlotsInEpoch (schedule.getEpochAndSlotIndex slot).1 ∧
      schedule.getLastSlotInEpoch (schedule.getEpochAndSlotIndex slot).1 + 1 =
        schedule.getFirstSlotInEpoch ((schedule.getEpochAndSlotIndex slot).1 + 1)
  leaderScheduleEpoch : ∀ slot, slot + 2 * schedule.slotsPerEpoch < 2 ^ 64 →
    schedule.getEpoch slot ≤ schedule.getLeaderScheduleEpoch slot ∧
      schedule.getLeaderScheduleEpoch slot ≤ schedule.getLeaderScheduleEpoch (slot + 1) ∧
      schedule.getLeaderScheduleEpoch (slot + 1) ≤ schedule.getLeaderScheduleEpoch slot + 1

/-- The schedule `custom` builds is the one its inputs ask for: their slots per epoch, offset
and warmup; no warmup epochs without warmup; with it, `32` doubled `first_normal_epoch` times is
the next power of two of `slots_per_epoch`, and below `2 ^ 63` the warmup epochs' slots make up
`first_normal_slot`. -/
structure FromInputs (schedule : EpochSchedule) (slotsPerEpoch leaderScheduleSlotOffset : ℕ)
    (warmup : Bool) : Prop where
  slotsPerEpoch_eq : schedule.slotsPerEpoch = slotsPerEpoch
  leaderScheduleSlotOffset_eq : schedule.leaderScheduleSlotOffset = leaderScheduleSlotOffset
  warmup_eq : schedule.warmup = warmup
  no_warmup : warmup = false → schedule.firstNormalEpoch = 0 ∧ schedule.firstNormalSlot = 0
  nextPowerOfTwo_eq : warmup = true →
    2 ^ (schedule.firstNormalEpoch + 4) < slotsPerEpoch ∧
      slotsPerEpoch ≤ 2 ^ (schedule.firstNormalEpoch + 5)
  firstNormalSlot_add : warmup = true → slotsPerEpoch ≤ 2 ^ 63 →
    schedule.firstNormalSlot + minimumSlotsPerEpoch = 2 ^ (schedule.firstNormalEpoch + 5)

theorem custom_fromInputs {slotsPerEpoch leaderScheduleSlotOffset : ℕ} {warmup : Bool}
    {schedule : EpochSchedule} (hmin : minimumSlotsPerEpoch ≤ slotsPerEpoch)
    (hspe : slotsPerEpoch < 2 ^ 64)
    (hcustom : custom slotsPerEpoch leaderScheduleSlotOffset warmup = some schedule) :
    schedule.FromInputs slotsPerEpoch leaderScheduleSlotOffset warmup := by
  have hvalid : slotsPerEpoch ≤ 2 ^ 63 → schedule.Valid := fun h63 => custom_valid hmin h63 hcustom
  rw [custom_eq warmup hmin hspe.le] at hcustom
  cases hcustom
  refine ⟨rfl, rfl, rfl, fun hw => by simp [hw], fun hw => ?_,
    fun _ h63 => (hvalid h63).firstNormalSlot_add⟩
  subst hw
  exact clog_bracket hmin

theorem custom_partitions_slots (slotsPerEpoch leaderScheduleSlotOffset : ℕ) (warmup : Bool)
    (hmin : minimumSlotsPerEpoch ≤ slotsPerEpoch)
    (hoffset : leaderScheduleSlotOffset ≤ slotsPerEpoch) (hspe : slotsPerEpoch < 2 ^ 64) :
    ∃ schedule, custom slotsPerEpoch leaderScheduleSlotOffset warmup = some schedule ∧
      schedule.FromInputs slotsPerEpoch leaderScheduleSlotOffset warmup ∧
      schedule.PartitionsSlots := by
  obtain ⟨schedule, hcustom⟩ : ∃ schedule,
      custom slotsPerEpoch leaderScheduleSlotOffset warmup = some schedule :=
    ⟨_, custom_eq warmup hmin hspe.le⟩
  have hfields : schedule.slotsPerEpoch = slotsPerEpoch ∧
      schedule.leaderScheduleSlotOffset = leaderScheduleSlotOffset := by
    rw [custom_eq warmup hmin hspe.le] at hcustom
    cases hcustom
    exact ⟨rfl, rfl⟩
  obtain ⟨hwarmup, hlast⟩ := custom_warmup hmin hspe hcustom
  have hvalid : ∀ slot, slot + 2 * schedule.slotsPerEpoch < 2 ^ 64 → schedule.Valid :=
    fun slot hslot => custom_valid hmin (by omega) hcustom
  refine ⟨schedule, hcustom, custom_fromInputs hmin hspe hcustom, ⟨fun hpos => ?_, fun epoch h => ?_, fun epoch h => ?_,
    fun hpos => ?_, fun epoch h => getSlotsInEpoch_of_le h, fun slot hslot => ?_,
    fun slot hslot => ?_⟩⟩
  · rw [hwarmup 0 hpos]
    rfl
  · rw [hwarmup (epoch + 1) h, hwarmup epoch (by omega), pow_succ]
    ring
  · rw [hwarmup epoch h, hfields.1]
    have hpow : 2 ^ (epoch + 5) ≤ 2 ^ (schedule.firstNormalEpoch + 4) :=
      Nat.pow_le_pow_right (by decide) (by omega)
    exact lt_of_le_of_lt hpow (hlast (by omega)).1
  · rw [hwarmup _ (by omega), hfields.1, ← pow_succ',
      show schedule.firstNormalEpoch - 1 + 5 + 1 = schedule.firstNormalEpoch + 5 by omega]
    exact (hlast hpos).2
  · exact (hvalid slot hslot).getEpochAndSlotIndex_spec hslot
  · exact (hvalid slot hslot).getLeaderScheduleEpoch_spec (hfields.2 ▸ hfields.1 ▸ hoffset) hslot

theorem custom_partitions_slots_default :
    minimumSlotsPerEpoch ≤ 8192 ∧ 8192 ≤ 8192 ∧ 8192 < 2 ^ 64 ∧
      ∃ schedule, custom 8192 8192 true = some schedule ∧ schedule.FromInputs 8192 8192 true ∧
        schedule.PartitionsSlots :=
  ⟨by decide, le_rfl, by decide, custom_partitions_slots 8192 8192 true (by decide) le_rfl
    (by decide)⟩

end EpochSchedule

end Solana
