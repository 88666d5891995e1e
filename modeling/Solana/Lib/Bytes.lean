import Mathlib

/-! Little-endian byte strings of fixed-width integers (`toLE`, `ofLE`, `readLE`, `ofLEChunks`). -/

namespace Bytes

/-- The `w` low bytes of `n`, least significant first. -/
def toLE : ℕ → ℕ → List UInt8
  | 0, _ => []
  | w + 1, n => UInt8.ofNat (n % 256) :: toLE w (n / 256)

def ofLE : List UInt8 → ℕ
  | [] => 0
  | b :: bs => b.toNat + 256 * ofLE bs

@[simp] theorem length_toLE : ∀ (w n : ℕ), (toLE w n).length = w
  | 0, _ => rfl
  | w + 1, n => by rw [toLE, List.length_cons, length_toLE w]

theorem ofLE_toLE : ∀ (w n : ℕ), ofLE (toLE w n) = n % 2 ^ (8 * w)
  | 0, n => by simp [toLE, ofLE, Nat.mod_one]
  | w + 1, n => by
    have hpow : 2 ^ (8 * (w + 1)) = 256 * 2 ^ (8 * w) := by
      rw [Nat.mul_succ, Nat.pow_add, Nat.mul_comm]
    rw [toLE, ofLE, ofLE_toLE w, UInt8.toNat_ofNat', hpow, Nat.mod_mul]
    simp

theorem ofLE_lt : ∀ (bytes : List UInt8), ofLE bytes < 2 ^ (8 * bytes.length)
  | [] => by simp [ofLE]
  | b :: bs => by
    have hb := b.toNat_lt
    have hbs := ofLE_lt bs
    rw [ofLE, List.length_cons, Nat.mul_succ, Nat.pow_add]
    have h256 : (2 : ℕ) ^ 8 = 256 := rfl
    rw [h256]
    calc b.toNat + 256 * ofLE bs
        < 256 + 256 * ofLE bs := by omega
      _ = 256 * (ofLE bs + 1) := by omega
      _ ≤ 256 * 2 ^ (8 * bs.length) := Nat.mul_le_mul_left 256 hbs
      _ = 2 ^ (8 * bs.length) * 256 := Nat.mul_comm _ _

/-- A value below `2 ^ (8 * w)` comes back whole. -/
theorem ofLE_toLE_of_lt {w n : ℕ} (h : n < 2 ^ (8 * w)) : ofLE (toLE w n) = n := by
  rw [ofLE_toLE, Nat.mod_eq_of_lt h]

/-- One `w`-byte integer off the front: `none` when fewer than `w` bytes are left. -/
def readLE (w : ℕ) (bytes : List UInt8) : Option (ℕ × List UInt8) :=
  if w ≤ bytes.length then some (ofLE (bytes.take w), bytes.drop w) else none

@[simp] theorem readLE_toLE_append (w n : ℕ) (rest : List UInt8) :
    readLE w (toLE w n ++ rest) = some (n % 2 ^ (8 * w), rest) := by
  have hlen := length_toLE w n
  rw [readLE, if_pos (by simp), List.take_left' hlen, List.drop_left' hlen, ofLE_toLE]

/-- The bytes read as consecutive `w`-byte integers, `count` of them. -/
def ofLEChunks (w : ℕ) : ℕ → List UInt8 → List ℕ
  | 0, _ => []
  | count + 1, bytes => ofLE (bytes.take w) :: ofLEChunks w count (bytes.drop w)

@[simp] theorem length_ofLEChunks (w : ℕ) :
    ∀ (count : ℕ) (bytes : List UInt8), (ofLEChunks w count bytes).length = count
  | 0, _ => rfl
  | count + 1, bytes => by rw [ofLEChunks, List.length_cons, length_ofLEChunks w count]

/-- Chunks read from a prefix of whole chunks are read the same in a longer string. -/
theorem ofLEChunks_append {w : ℕ} :
    ∀ (count : ℕ) {front : List UInt8} (back : List UInt8) (more : ℕ),
      front.length = w * count →
        ofLEChunks w (count + more) (front ++ back) =
          ofLEChunks w count front ++ ofLEChunks w more back
  | 0, front, back, more, hfront => by
    have hnil : front = [] := List.eq_nil_of_length_eq_zero (by simpa using hfront)
    subst hnil
    simp [ofLEChunks]
  | count + 1, front, back, more, hfront => by
    have hw : w ≤ front.length := by rw [hfront, Nat.mul_succ]; omega
    have hrest : (front.drop w).length = w * count := by
      rw [List.length_drop, hfront, Nat.mul_succ]
      omega
    rw [Nat.add_right_comm, ofLEChunks, ofLEChunks, List.take_append_of_le_length hw,
      List.drop_append_of_le_length hw, ofLEChunks_append count back more hrest]
    rfl

/-- The encodings of a list of values read back as the values modulo `2 ^ (8 * w)`. -/
theorem ofLEChunks_flatMap_toLE (w : ℕ) :
    ∀ (values : List ℕ), ofLEChunks w values.length (values.flatMap (toLE w)) =
      values.map (· % 2 ^ (8 * w))
  | [] => rfl
  | v :: vs => by
    have hlen := length_toLE w v
    rw [List.flatMap_cons, List.length_cons, ofLEChunks, List.take_left' hlen,
      List.drop_left' hlen, ofLE_toLE, ofLEChunks_flatMap_toLE w vs, List.map_cons]

@[simp] theorem length_flatMap_toLE (w : ℕ) (values : List ℕ) :
    (values.flatMap (toLE w)).length = w * values.length := by
  induction values with
  | nil => rfl
  | cons v vs ih => rw [List.flatMap_cons, List.length_append, ih, length_toLE,
      List.length_cons, Nat.mul_succ, Nat.add_comm]

/-- Dropping whole values off the encodings of a list of values. -/
theorem drop_flatMap_toLE (w : ℕ) :
    ∀ (values : List ℕ) (i : ℕ), (values.flatMap (toLE w)).drop (w * i) =
      (values.drop i).flatMap (toLE w)
  | [], i => by simp
  | v :: vs, 0 => by simp
  | v :: vs, i + 1 => by
    have hlen := length_toLE w v
    rw [List.flatMap_cons, Nat.mul_succ, Nat.add_comm, ← List.drop_drop, List.drop_left' hlen,
      drop_flatMap_toLE w vs i, List.drop_succ_cons]

end Bytes
