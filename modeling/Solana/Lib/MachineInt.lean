import Mathlib

/-! Unsigned machine integers of width `w`, kept as natural numbers. Release builds
wrap on overflow; the checked operations return `none` where the wrapping one would
wrap, and a saturating subtraction is the subtraction of `ℕ`. Signed ones are integers,
with casts between the two and saturating arithmetic. -/

namespace MachineInt

/-- Reduction modulo `2 ^ w`: what a release build keeps of an overflowing result. -/
def wrap (w a : ℕ) : ℕ := a % 2 ^ w

def wrappingAdd (w a b : ℕ) : ℕ := wrap w (a + b)

/-- Subtraction modulo `2 ^ w`, what `-` computes in a release build. -/
def wrappingSub (w a b : ℕ) : ℕ := wrap w (a + 2 ^ w - wrap w b)

/-- `saturating_add`: the sum, or the largest value of the type. -/
def saturatingAdd (w a b : ℕ) : ℕ := min (a + b) (2 ^ w - 1)

def saturatingMul (w a b : ℕ) : ℕ := min (a * b) (2 ^ w - 1)

def checkedAdd (w a b : ℕ) : Option ℕ := if a + b < 2 ^ w then some (a + b) else none

def checkedSub (a b : ℕ) : Option ℕ := if b ≤ a then some (a - b) else none

def checkedMul (w a b : ℕ) : Option ℕ := if a * b < 2 ^ w then some (a * b) else none

def checkedDiv (a b : ℕ) : Option ℕ := if b = 0 then none else some (a / b)

/-- `checked_rem`: `none` for a zero divisor. -/
def checkedRem (a b : ℕ) : Option ℕ := if b = 0 then none else some (a % b)

def saturatingPow (w b e : ℕ) : ℕ := min (b ^ e) (2 ^ w - 1)

/-- `next_power_of_two`: the least power of two at or above `a`, wrapped to 0 by a release build
where it does not fit. -/
def nextPowerOfTwo (w a : ℕ) : ℕ := if 2 ^ Nat.clog 2 a < 2 ^ w then 2 ^ Nat.clog 2 a else 0

/-- `trailing_zeros` of a `w`-bit value: `w` for 0. -/
def trailingZeros : ℕ → ℕ → ℕ
  | 0, _ => 0
  | w + 1, a => if a % 2 = 0 then trailingZeros w (a / 2) + 1 else 0

/-- `u64::try_from` on a wider value. -/
def tryFrom (w a : ℕ) : Option ℕ := if a < 2 ^ w then some a else none

/-- `checked_shl`: `none` for a shift by `w` bits or more; the bits shifted out are lost. -/
def checkedShl (w a s : ℕ) : Option ℕ := if s < w then some (wrap w (a * 2 ^ s)) else none

/-- `checked_shr`: `none` for a shift by `w` bits or more. -/
def checkedShr (w a s : ℕ) : Option ℕ := if s < w then some (a / 2 ^ s) else none

/-- `wrapping_shl`: the shift is taken modulo `w`. -/
def wrappingShl (w a s : ℕ) : ℕ := wrap w (a * 2 ^ (s % w))

/-- `wrapping_shr`: the shift is taken modulo `w`. -/
def wrappingShr (w a s : ℕ) : ℕ := a / 2 ^ (s % w)

/-- `as i{w}` on a `u{w}` value: the values from `2 ^ (w - 1)` on turn negative. -/
def toSigned (w a : ℕ) : ℤ := if a < 2 ^ (w - 1) then a else (a : ℤ) - 2 ^ w

/-- `as u{w}` on a signed value: its residue modulo `2 ^ w`. -/
def toUnsigned (w : ℕ) (a : ℤ) : ℕ := (a % 2 ^ w).toNat

/-- Saturation into the range of a signed `w`-bit integer. -/
def clampSigned (w : ℕ) (a : ℤ) : ℤ := max (-2 ^ (w - 1)) (min a (2 ^ (w - 1) - 1))

/-- `saturating_add` of signed `w`-bit integers. -/
def saturatingAddSigned (w : ℕ) (a b : ℤ) : ℤ := clampSigned w (a + b)

/-- `saturating_sub` of signed `w`-bit integers. -/
def saturatingSubSigned (w : ℕ) (a b : ℤ) : ℤ := clampSigned w (a - b)

theorem wrap_le (w a : ℕ) : wrap w a ≤ a := Nat.mod_le a _

theorem wrap_of_lt {w a : ℕ} (h : a < 2 ^ w) : wrap w a = a := Nat.mod_eq_of_lt h

theorem wrappingAdd_le (w a b : ℕ) : wrappingAdd w a b ≤ a + b := wrap_le w _

theorem wrappingAdd_of_lt {w a b : ℕ} (h : a + b < 2 ^ w) : wrappingAdd w a b = a + b :=
  wrap_of_lt h

theorem wrappingSub_of_le {w a b : ℕ} (hba : b ≤ a) (ha : a < 2 ^ w) :
    wrappingSub w a b = a - b := by
  unfold wrappingSub
  rw [wrap_of_lt (lt_of_le_of_lt hba ha), show a + 2 ^ w - b = a - b + 2 ^ w by omega, wrap,
    Nat.add_mod_right, Nat.mod_eq_of_lt (by omega)]

theorem wrap_lt (w a : ℕ) : wrap w a < 2 ^ w := Nat.mod_lt a (Nat.two_pow_pos w)

theorem wrappingSub_lt (w a b : ℕ) : wrappingSub w a b < 2 ^ w := wrap_lt w _

theorem wrappingSub_zero {w a : ℕ} (ha : a < 2 ^ w) : wrappingSub w a 0 = a :=
  wrappingSub_of_le (Nat.zero_le a) ha

/-- A sum accumulated with wrapping additions is the sum, wrapped once. -/
theorem foldl_wrappingAdd (w : ℕ) (l : List ℕ) {init : ℕ} (hinit : init < 2 ^ w) :
    l.foldl (wrappingAdd w) init = wrap w (init + l.sum) := by
  induction l generalizing init with
  | nil => simp [wrap_of_lt hinit]
  | cons a l ih =>
    rw [List.foldl_cons, ih (show wrappingAdd w init a < 2 ^ w from wrap_lt w _), List.sum_cons]
    unfold wrappingAdd wrap
    rw [Nat.mod_add_mod, Nat.add_assoc]

/-- Two wrapping subtractions take off the sum. -/
theorem wrappingSub_wrappingSub (w a b c : ℕ) :
    wrappingSub w (wrappingSub w a b) c = wrappingSub w a (b + c) := by
  unfold wrappingSub wrap
  have hN := Nat.two_pow_pos w
  generalize 2 ^ w = N at hN ⊢
  have hb := Nat.mod_lt b hN
  have hc := Nat.mod_lt c hN
  have hleft : ((a + N - b % N) % N + N - c % N) % N = (a + N - b % N + (N - c % N)) % N := by
    rw [Nat.add_sub_assoc hc.le, Nat.mod_add_mod]
  rw [hleft, Nat.add_mod b c]
  rcases Nat.lt_or_ge (b % N + c % N) N with hlt | hge
  · rw [Nat.mod_eq_of_lt hlt,
      show a + N - b % N + (N - c % N) = a + N - (b % N + c % N) + N by omega, Nat.add_mod_right]
  · rw [Nat.mod_eq_sub_mod hge, Nat.mod_eq_of_lt (show b % N + c % N - N < N by omega)]
    congr 1
    omega

/-- The wrapping operations are the ring operations of `ZMod (2 ^ w)`. -/
@[simp] theorem cast_wrap (w a : ℕ) : ((wrap w a : ℕ) : ZMod (2 ^ w)) = a := ZMod.natCast_mod a _

@[simp] theorem cast_wrappingAdd (w a b : ℕ) :
    ((wrappingAdd w a b : ℕ) : ZMod (2 ^ w)) = a + b := by
  simp [wrappingAdd]

@[simp] theorem cast_wrappingSub (w a b : ℕ) :
    ((wrappingSub w a b : ℕ) : ZMod (2 ^ w)) = a - b := by
  unfold wrappingSub
  have hb := wrap_lt w b
  rw [cast_wrap, Nat.cast_sub (by omega), Nat.cast_add, ZMod.natCast_self, cast_wrap, add_zero]

/-- Values below `2 ^ w` are determined by their residues. -/
theorem eq_of_cast_eq {w a b : ℕ} (ha : a < 2 ^ w) (hb : b < 2 ^ w)
    (h : (a : ZMod (2 ^ w)) = b) : a = b := by
  have hmod := (ZMod.natCast_eq_natCast_iff' a b (2 ^ w)).mp h
  rwa [Nat.mod_eq_of_lt ha, Nat.mod_eq_of_lt hb] at hmod

/-- A wrapping addition to a wrapped sum is the sum with it, wrapped. -/
theorem wrappingAdd_wrap_add (w a b c : ℕ) :
    wrappingAdd w (wrap w (a + b)) c = wrap w (wrappingAdd w a c + b) := by
  apply eq_of_cast_eq (wrap_lt w _) (wrap_lt w _)
  simp only [cast_wrappingAdd, cast_wrap, Nat.cast_add]
  ring

/-- A wrapping subtraction from a wrapped sum is the difference with it, wrapped. -/
theorem wrappingSub_wrap_add (w a b c : ℕ) :
    wrappingSub w (wrap w (a + b)) c = wrap w (wrappingSub w a c + b) := by
  apply eq_of_cast_eq (wrappingSub_lt w _ _) (wrap_lt w _)
  simp only [cast_wrappingSub, cast_wrap, Nat.cast_add]
  ring

theorem toSigned_of_lt {w a : ℕ} (h : a < 2 ^ (w - 1)) : toSigned w a = a := if_pos h

theorem toUnsigned_of_lt {w : ℕ} {a : ℤ} (hnonneg : 0 ≤ a) (h : a < 2 ^ w) : toUnsigned w a = a.toNat := by
  rw [toUnsigned, Int.emod_eq_of_lt hnonneg h]

theorem clampSigned_of_mem {w : ℕ} {a : ℤ} (hlow : -2 ^ (w - 1) ≤ a) (hhigh : a < 2 ^ (w - 1)) :
    clampSigned w a = a := by
  rw [clampSigned, min_eq_left (by omega), max_eq_right hlow]

theorem saturatingAddSigned_of_mem {w : ℕ} {a b : ℤ} (hlow : -2 ^ (w - 1) ≤ a + b)
    (hhigh : a + b < 2 ^ (w - 1)) : saturatingAddSigned w a b = a + b :=
  clampSigned_of_mem hlow hhigh

theorem saturatingSubSigned_of_mem {w : ℕ} {a b : ℤ} (hlow : -2 ^ (w - 1) ≤ a - b)
    (hhigh : a - b < 2 ^ (w - 1)) : saturatingSubSigned w a b = a - b :=
  clampSigned_of_mem hlow hhigh

theorem saturatingAdd_le (w a b : ℕ) : saturatingAdd w a b ≤ a + b := min_le_left _ _

theorem saturatingAdd_of_lt {w a b : ℕ} (h : a + b < 2 ^ w) : saturatingAdd w a b = a + b :=
  min_eq_left (by omega)

/-- A sum accumulated with saturating additions is the sum while it stays below `2 ^ w`. -/
theorem foldl_saturatingAdd_of_lt {w : ℕ} (l : List ℕ) {init : ℕ} (h : init + l.sum < 2 ^ w) :
    l.foldl (saturatingAdd w) init = init + l.sum := by
  induction l generalizing init with
  | nil => simp
  | cons a l ih =>
    rw [List.sum_cons] at h
    rw [List.foldl_cons, saturatingAdd_of_lt (by omega), ih (by omega), List.sum_cons, Nat.add_assoc]

/-- A saturating sum is zero only when every term is. -/
theorem foldl_saturatingAdd_eq_zero_iff {w : ℕ} (hw : 0 < w) (l : List ℕ) {init : ℕ} :
    l.foldl (saturatingAdd w) init = 0 ↔ init + l.sum = 0 := by
  have hmax : 0 < 2 ^ w - 1 := by
    have := Nat.one_lt_two_pow hw.ne'
    omega
  induction l generalizing init with
  | nil => simp
  | cons a l ih =>
    rw [List.foldl_cons]
    refine ih.trans ?_
    rw [List.sum_cons, saturatingAdd]
    generalize 2 ^ w - 1 = bound at hmax ⊢
    omega

theorem saturatingMul_of_lt {w a b : ℕ} (h : a * b < 2 ^ w) : saturatingMul w a b = a * b :=
  min_eq_left (by omega)

theorem saturatingPow_of_lt {w b e : ℕ} (h : b ^ e < 2 ^ w) : saturatingPow w b e = b ^ e :=
  min_eq_left (by omega)

theorem nextPowerOfTwo_of_lt {w a : ℕ} (h : 2 ^ Nat.clog 2 a < 2 ^ w) :
    nextPowerOfTwo w a = 2 ^ Nat.clog 2 a :=
  if_pos h

theorem nextPowerOfTwo_of_le {w a : ℕ} (h : 2 ^ w ≤ 2 ^ Nat.clog 2 a) : nextPowerOfTwo w a = 0 :=
  if_neg (Nat.not_lt_of_le h)

theorem trailingZeros_zero (w : ℕ) : trailingZeros w 0 = w := by
  induction w with
  | zero => rfl
  | succ w ih => simp [trailingZeros, ih]

theorem trailingZeros_two_pow {w k : ℕ} (h : k < w) : trailingZeros w (2 ^ k) = k := by
  induction w generalizing k with
  | zero => omega
  | succ w ih =>
    cases k with
    | zero => simp [trailingZeros]
    | succ k =>
      have hk := ih (Nat.lt_of_succ_lt_succ h)
      simp [trailingZeros, Nat.pow_succ, hk]

@[simp] theorem checkedAdd_eq_some {w a b c : ℕ} :
    checkedAdd w a b = some c ↔ a + b < 2 ^ w ∧ a + b = c := by
  unfold checkedAdd
  split
  · simp_all
  · simp only [reduceCtorEq, false_iff, not_and]
    intro h
    omega

@[simp] theorem checkedSub_eq_some {a b c : ℕ} :
    checkedSub a b = some c ↔ b ≤ a ∧ a - b = c := by
  unfold checkedSub
  split
  · simp_all
  · simp only [reduceCtorEq, false_iff, not_and]
    intro h
    omega

@[simp] theorem checkedMul_eq_some {w a b c : ℕ} :
    checkedMul w a b = some c ↔ a * b < 2 ^ w ∧ a * b = c := by
  unfold checkedMul
  split
  · simp_all
  · simp only [reduceCtorEq, false_iff, not_and]
    intro h
    omega

@[simp] theorem checkedDiv_eq_some {a b c : ℕ} :
    checkedDiv a b = some c ↔ b ≠ 0 ∧ a / b = c := by
  unfold checkedDiv
  split <;> simp_all

/-- The trailing zeros of the next power of two are the bits it needs, also where it wraps to 0. -/
theorem trailingZeros_nextPowerOfTwo {w a : ℕ} (h : Nat.clog 2 a ≤ w) :
    trailingZeros w (nextPowerOfTwo w a) = Nat.clog 2 a := by
  rcases Nat.lt_or_eq_of_le h with hlt | heq
  · rw [nextPowerOfTwo_of_lt (Nat.pow_lt_pow_right (by decide) hlt), trailingZeros_two_pow hlt]
  · rw [nextPowerOfTwo_of_le (le_of_eq (congrArg _ heq.symm)), trailingZeros_zero, heq]

@[simp] theorem checkedRem_eq_some {a b c : ℕ} :
    checkedRem a b = some c ↔ b ≠ 0 ∧ a % b = c := by
  unfold checkedRem
  split <;> simp_all

theorem lt_of_checkedRem_eq_some {a b c : ℕ} (h : checkedRem a b = some c) : c < b := by
  rw [checkedRem_eq_some] at h
  rw [← h.2]
  exact Nat.mod_lt _ (Nat.pos_of_ne_zero h.1)

@[simp] theorem tryFrom_eq_some {w a c : ℕ} :
    tryFrom w a = some c ↔ a < 2 ^ w ∧ a = c := by
  unfold tryFrom
  split
  · simp_all
  · simp only [reduceCtorEq, false_iff, not_and]
    intro h
    omega

theorem wrappingShl_one {w s : ℕ} (h : s < w) : wrappingShl w 1 s = 2 ^ s := by
  rw [wrappingShl, Nat.mod_eq_of_lt h, Nat.one_mul]
  exact wrap_of_lt (Nat.pow_lt_pow_right (by decide) h)

theorem wrappingShr_of_lt {w a s : ℕ} (h : s < w) : wrappingShr w a s = a / 2 ^ s := by
  rw [wrappingShr, Nat.mod_eq_of_lt h]

end MachineInt
