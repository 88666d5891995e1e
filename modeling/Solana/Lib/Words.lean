import Solana.Lib.Chunks
import Mathlib

/-! Bit vectors in 64-bit words, bit `p` at bit `p % 64` of word `p / 64` (`getD_ofWords`), with
`fetch_or`s that commute (`foldl_orAt_perm`). -/

namespace Words

/-- The 64 bits of a word, least significant first. -/
def wordBits (word : ℕ) : List Bool := (List.range 64).map word.testBit

/-- The value of bits, least significant first, in Horner form. -/
def ofBits : List Bool → ℕ
  | [] => 0
  | b :: bs => b.toNat + 2 * ofBits bs

/-- The bits that words spell out, block after block. -/
def ofWords (words : List ℕ) : List Bool := words.flatMap wordBits

/-- The blocks of a bit list, the last one padded with zeros. -/
def toWords (bits : List Bool) : List ℕ := Chunks.mapChunks ofBits 64 bits

/-- `count_ones` of a 64-bit word. -/
def countOnes (word : ℕ) : ℕ := (wordBits word).count true

/-- A `fetch_or` of `mask` into word `index`; an index past the end changes nothing. -/
def orAt (words : List ℕ) (op : ℕ × ℕ) : List ℕ := words.modify op.1 (· ||| op.2)

/-! ## Reading single bits -/

theorem testBit_ofBits : ∀ (bs : List Bool) (i : ℕ), (ofBits bs).testBit i = bs.getD i false
  | [], i => by simp [ofBits]
  | b :: bs, i => by
    have hbit : ofBits (b :: bs) = Nat.bit b (ofBits bs) := by
      rw [ofBits, Nat.bit_val]
      omega
    rw [hbit]
    cases i with
    | zero => simp
    | succ i => rw [Nat.testBit_bit_succ, testBit_ofBits bs i, List.getD_cons_succ]

@[simp] theorem length_wordBits (word : ℕ) : (wordBits word).length = 64 := by
  simp [wordBits]

theorem getD_wordBits (word : ℕ) {i : ℕ} (hi : i < 64) : (wordBits word).getD i false = word.testBit i := by
  simp [wordBits, List.getD_eq_getElem?_getD, hi]

@[simp] theorem length_ofWords (words : List ℕ) : (ofWords words).length = 64 * words.length := by
  induction words with
  | nil => rfl
  | cons word words ih =>
    simp only [ofWords, List.flatMap_cons, List.length_append, length_wordBits] at ih ⊢
    rw [ih, List.length_cons]
    omega

/-- The bit at `p` of the words is bit `p % 64` of word `p / 64`; past the end both are unset. -/
theorem getD_ofWords (words : List ℕ) (p : ℕ) :
    (ofWords words).getD p false = (words.getD (p / 64) 0).testBit (p % 64) := by
  induction words generalizing p with
  | nil => simp [ofWords]
  | cons word words ih =>
    have hsplit : ofWords (word :: words) = wordBits word ++ ofWords words := List.flatMap_cons
    rw [hsplit]
    by_cases hp : p < 64
    · rw [List.getD_append _ _ _ _ (by simpa using hp), getD_wordBits word hp,
        Nat.div_eq_of_lt hp, Nat.mod_eq_of_lt hp, List.getD_cons_zero]
    · have hdiv : p / 64 = (p - 64) / 64 + 1 := by omega
      rw [List.getD_append_right _ _ _ _ (by simp; omega), length_wordBits, ih, hdiv,
        List.getD_cons_succ]
      congr 1
      omega

@[simp] theorem length_toWords (bits : List Bool) :
    (toWords bits).length = Chunks.chunkCount bits.length 64 := by
  simp [toWords]

/-- Word `j` of the blocks is the value of the `j`-th chunk of 64 bits; past the end both are 0. -/
theorem getD_toWords (bits : List Bool) (j : ℕ) :
    (toWords bits).getD j 0 = ofBits ((bits.drop (j * 64)).take 64) := by
  by_cases hj : j < Chunks.chunkCount bits.length 64
  · simp [toWords, Chunks.mapChunks, List.getD_eq_getElem?_getD, hj]
  · have hlen : bits.length ≤ j * 64 := by
      rw [Chunks.chunkCount_eq_div_ceil _ (by decide)] at hj
      omega
    rw [List.getD_eq_default _ _ (by simpa using hj), List.drop_of_length_le hlen]
    rfl

/-- Cutting bits into words and spelling them out again gives the bits back, then zeros. -/
theorem getD_ofWords_toWords (bits : List Bool) (p : ℕ) :
    (ofWords (toWords bits)).getD p false = bits.getD p false := by
  rw [getD_ofWords, getD_toWords, testBit_ofBits]
  simp only [List.getD_eq_getElem?_getD, List.getElem?_take, List.getElem?_drop,
    Nat.mod_lt p (by decide : 0 < 64), if_true]
  rw [Nat.mul_comm, Nat.div_add_mod]

theorem length_le_length_ofWords_toWords (bits : List Bool) :
    bits.length ≤ (ofWords (toWords bits)).length := by
  rw [length_ofWords, length_toWords, Chunks.chunkCount_eq_div_ceil _ (by decide)]
  omega

/-- Bit lists of one length that agree at every position are equal. -/
theorem ext_getD {bits bits' : List Bool} (hlen : bits.length = bits'.length)
    (h : ∀ p, bits.getD p false = bits'.getD p false) : bits = bits' := by
  apply List.ext_getElem hlen
  intro p h₁ h₂
  rw [List.getElem_eq_getD false, List.getElem_eq_getD false, h]

/-- The bits of `n` words, cut to their first `len` bits. -/
theorem getD_take_ofWords (words : List ℕ) (len p : ℕ) :
    ((ofWords words).take len).getD p false = (decide (p < len) && (ofWords words).getD p false) := by
  by_cases hp : p < len <;> simp [List.getD_eq_getElem?_getD, hp]

theorem length_take_ofWords {words : List ℕ} {len : ℕ}
    (hlen : words.length = Chunks.chunkCount len 64) : ((ofWords words).take len).length = len := by
  rw [List.length_take, length_ofWords, hlen, Chunks.chunkCount_eq_div_ceil _ (by decide)]
  omega

/-- Bits that are unset from `len` on are counted in full by their first `len`. -/
theorem count_take_of_getD {bits : List Bool} {len : ℕ}
    (hpad : ∀ p, len ≤ p → bits.getD p false = false) : (bits.take len).count true = bits.count true := by
  have hdrop : (bits.drop len).count true = 0 := by
    rw [List.count_eq_zero]
    intro hmem
    obtain ⟨i, hi, hget⟩ := List.getElem_of_mem hmem
    have hset : bits.getD (len + i) false = true := by
      rw [← hget, List.getElem_drop, List.getElem_eq_getD false]
    rw [hpad (len + i) (by omega)] at hset
    exact Bool.false_ne_true hset
  rw [← List.take_append_drop len bits, List.count_append, hdrop, Nat.add_zero,
    List.take_append_drop]

/-- Cutting bits into words and back, and cutting to their length, gives the bits. -/
theorem take_ofWords_toWords (bits : List Bool) : (ofWords (toWords bits)).take bits.length = bits := by
  apply ext_getD
  · rw [List.length_take, Nat.min_eq_left (length_le_length_ofWords_toWords bits)]
  · intro p
    rw [getD_take_ofWords, getD_ofWords_toWords]
    by_cases hp : p < bits.length <;> simp [hp]

/-- Cutting bits into words and back counts the same set bits. -/
theorem count_ofWords_toWords (bits : List Bool) : (ofWords (toWords bits)).count true = bits.count true := by
  have hpad : ∀ p, bits.length ≤ p → (ofWords (toWords bits)).getD p false = false := by
    intro p hp
    rw [getD_ofWords_toWords, List.getD_eq_default _ _ hp]
  rw [← count_take_of_getD hpad, take_ofWords_toWords]

/-! ## Setting bits -/

/-- A `fetch_or` at an index within the words writes there the word or-ed with the mask. -/
theorem orAt_eq_set {words : List ℕ} {index word : ℕ} (h : words[index]? = some word) (mask : ℕ) :
    orAt words (index, mask) = words.set index (word ||| mask) := by
  rw [orAt, List.modify_eq_set_getElem?, h]
  rfl

/-- A `fetch_or` within the words keeps their number. -/
@[simp] theorem length_orAt (words : List ℕ) (op : ℕ × ℕ) : (orAt words op).length = words.length :=
  List.length_modify _ _ _

/-- Or-ing `2 ^ (p % 64)` into word `p / 64` sets bit `p` and no other. -/
theorem getD_ofWords_orAt (words : List ℕ) (p q : ℕ) (hp : p / 64 < words.length) :
    (ofWords (orAt words (p / 64, 2 ^ (p % 64)))).getD q false =
      ((ofWords words).getD q false || decide (p = q)) := by
  rw [getD_ofWords, getD_ofWords, orAt]
  simp only [List.getD_eq_getElem?_getD, List.getElem?_modify]
  by_cases hword : p / 64 = q / 64
  · have hq : q / 64 < words.length := hword ▸ hp
    have hiff : p = q ↔ p % 64 = q % 64 := by omega
    simp [hword, List.getElem?_eq_getElem hq, Nat.testBit_two_pow, hiff]
  · have hne : p ≠ q := fun h => hword (h ▸ rfl)
    simp [hword, hne]

/-- Or-ing the mask of bit `p` into its word, read through the first `len` bits, sets bit `p`. -/
theorem take_ofWords_orAt {words : List ℕ} {len p : ℕ} (hp : p < len)
    (hlen : words.length = Chunks.chunkCount len 64) :
    (ofWords (orAt words (p / 64, 2 ^ (p % 64)))).take len = ((ofWords words).take len).set p true := by
  have hword : p / 64 < words.length := by
    rw [hlen, Chunks.chunkCount_eq_div_ceil _ (by decide)]
    omega
  apply ext_getD
  · rw [List.length_set, List.length_take, List.length_take, length_ofWords, length_ofWords,
      length_orAt]
  · intro q
    rw [getD_take_ofWords, getD_ofWords_orAt words p q hword]
    have hset : (((ofWords words).take len).set p true).getD q false =
        if p = q then true else ((ofWords words).take len).getD q false := by
      have hlt : p < ((ofWords words).take len).length := by
        rw [length_take_ofWords hlen]
        exact hp
      by_cases hpq : p = q
      · subst hpq
        rw [List.getD_eq_getElem?_getD, List.getElem?_set_self hlt, if_pos rfl, Option.getD_some]
      · rw [List.getD_eq_getElem?_getD, List.getElem?_set_ne hpq, ← List.getD_eq_getElem?_getD,
          if_neg hpq]
    rw [hset, getD_take_ofWords]
    by_cases hpq : p = q
    · subst hpq
      simp [hp]
    · simp [hpq]

theorem orAt_comm (words : List ℕ) (op op' : ℕ × ℕ) :
    orAt (orAt words op) op' = orAt (orAt words op') op := by
  apply List.ext_getElem?
  intro i
  simp only [orAt, List.getElem?_modify]
  by_cases h : op.1 = i <;> by_cases h' : op'.1 = i <;> simp [h, h', Function.comp_def, Nat.or_right_comm]

/-- Word operations that only or masks in may be done in any order. -/
theorem foldl_orAt_perm {ops ops' : List (ℕ × ℕ)} (hperm : ops.Perm ops') (words : List ℕ) :
    ops.foldl orAt words = ops'.foldl orAt words :=
  hperm.foldl_eq' (fun _ _ _ _ words => orAt_comm words _ _) words

/-- Two words with their low `k` bits set are equal exactly when their bits from `k` on are. -/
theorem or_two_pow_sub_one_eq_iff (a b k : ℕ) :
    a ||| (2 ^ k - 1) = b ||| (2 ^ k - 1) ↔ a / 2 ^ k = b / 2 ^ k := by
  constructor
  · intro h
    apply Nat.eq_of_testBit_eq
    intro i
    have hi := congrArg (Nat.testBit · (i + k)) h
    have hlow : ¬ i + k < k := by omega
    simpa [Nat.testBit_or, Nat.testBit_two_pow_sub_one, Nat.testBit_div_two_pow, hlow] using hi
  · intro h
    apply Nat.eq_of_testBit_eq
    intro i
    rw [Nat.testBit_or, Nat.testBit_or, Nat.testBit_two_pow_sub_one]
    by_cases hi : i < k
    · simp [hi]
    · have hbit := congrArg (Nat.testBit · (i - k)) h
      simp only [Nat.testBit_div_two_pow, Nat.sub_add_cancel (Nat.le_of_not_lt hi)] at hbit
      rw [hbit]

/-! ## Counting bits -/

theorem count_ofWords (words : List ℕ) : (ofWords words).count true = (words.map countOnes).sum := by
  induction words with
  | nil => rfl
  | cons word words ih =>
    rw [ofWords, List.flatMap_cons, List.count_append, ← ofWords, ih, List.map_cons, List.sum_cons,
      countOnes]

end Words
