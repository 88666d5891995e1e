import Solana.Lib.MachineInt
import Solana.Lib.Run
import Solana.Lib.Words

/-! `bloom/src/bloom.rs`: no false negatives (`contains_add_self`, `Grows.contains`), an exact
`num_bits_set` (`Valid`), and `AtomicBloom` refining `Bloom` through `From<AtomicBloom>`
(`add_refines`, `contains_fromAtomicBloom`). -/

namespace Solana

open MachineInt Words

/-- `BloomHashIndex`: a hash of the item for each key. -/
class BloomHashIndex (α : Type) where
  hashAtIndex : α → ℕ → ℕ

structure Bloom (α : Type) where
  keys : List ℕ
  bits : List Bool
  numBitsSet : ℕ
  deriving DecidableEq, Repr

structure AtomicBloom (α : Type) where
  numBits : ℕ
  keys : List ℕ
  bits : List ℕ
  deriving DecidableEq, Repr

variable {α : Type} [BloomHashIndex α]

namespace Bloom

def new (numBits : ℕ) (keys : List ℕ) : Bloom α := ⟨keys, List.replicate numBits false, 0⟩

/-- `Bloom::random`, given the number of bits `m` that the false rate asks for and the random
keys: at least one bit, and at most `max_bits`. -/
def random (m maxBits : ℕ) (keys : List ℕ) : Bloom α := new (max 1 (min m maxBits)) keys

/-- `wrapping_rem` panics on a zero divisor. -/
def pos (bloom : Bloom α) (key : α) (k : ℕ) : Option ℕ :=
  checkedRem (BloomHashIndex.hashAtIndex key k) bloom.bits.length

/-- One round of the loop of `add`: set the key's bit, counting it if it was unset. -/
def addAt (key : α) (bloom : Bloom α) (k : ℕ) : Option (Bloom α) := do
  let pos ← bloom.pos key k
  if !bloom.bits.getD pos false then
    some { bloom with numBitsSet := saturatingAdd 64 bloom.numBitsSet 1, bits := bloom.bits.set pos true }
  else some bloom

def add (bloom : Bloom α) (key : α) : Option (Bloom α) := Run.exec (addAt key) bloom bloom.keys

def contains (bloom : Bloom α) (key : α) : Option Bool :=
  bloom.keys.allM fun k => (bloom.pos key k).map fun pos => bloom.bits.getD pos false

/-- Items added one after another. -/
def addItems (bloom : Bloom α) (items : List α) : Option (Bloom α) := Run.exec add bloom items

/-! ## The filter on its own -/

/-- What `new` sets up and `add` keeps: a `u64` number of bits, and `num_bits_set` counting
the set ones. -/
structure Valid (bloom : Bloom α) : Prop where
  length_lt : bloom.bits.length < 2 ^ 64
  numBitsSet_eq : bloom.numBitsSet = bloom.bits.count true

omit [BloomHashIndex α] in
theorem valid_new {numBits : ℕ} (h : numBits < 2 ^ 64) (keys : List ℕ) : (new numBits keys : Bloom α).Valid :=
  ⟨by simpa [new] using h, by simp [new, List.count_replicate]⟩

theorem pos_lt {bloom : Bloom α} {key : α} {k p : ℕ} (hpos : bloom.pos key k = some p) :
    p < bloom.bits.length :=
  lt_of_checkedRem_eq_some hpos

/-- A round of `add` on a valid filter sets the key's bit and recounts. -/
theorem addAt_eq {bloom : Bloom α} {key : α} {k p : ℕ} (hvalid : bloom.Valid)
    (hpos : bloom.pos key k = some p) :
    bloom.addAt key k =
      some { bloom with bits := bloom.bits.set p true, numBitsSet := (bloom.bits.set p true).count true } := by
  have hlt := pos_lt hpos
  simp only [addAt, hpos, Option.bind_eq_bind, Option.bind_some]
  by_cases hbit : bloom.bits.getD p false = true
  · have hset : bloom.bits.set p true = bloom.bits := by
      rw [← hbit, List.getD_eq_getElem _ _ hlt, List.set_getElem_self]
    rw [if_neg (by rw [hbit]; decide), hset, ← hvalid.numBitsSet_eq]
  · have hget : bloom.bits[p] = false := by
      rw [List.getElem_eq_getD false]
      simpa using hbit
    have hcount : (bloom.bits.set p true).count true = bloom.bits.count true + 1 := by
      rw [List.count_set hlt, hget]
      simp
    have hfits : bloom.bits.count true + 1 < 2 ^ 64 := by
      have := List.count_le_length (a := true) (l := bloom.bits.set p true)
      rw [hcount, List.length_set] at this
      exact lt_of_le_of_lt this hvalid.length_lt
    rw [if_pos (by simpa using hbit), hvalid.numBitsSet_eq, saturatingAdd_of_lt hfits, hcount]

/-- `Grows bloom bloom'`: the same keys and number of bits, and every set bit still set. -/
structure Grows (bloom bloom' : Bloom α) : Prop where
  keys_eq : bloom'.keys = bloom.keys
  length_eq : bloom'.bits.length = bloom.bits.length
  getD_bits : ∀ p, bloom.bits.getD p false = true → bloom'.bits.getD p false = true

omit [BloomHashIndex α] in
theorem Grows.refl (bloom : Bloom α) : Grows bloom bloom := ⟨rfl, rfl, fun _ h => h⟩

omit [BloomHashIndex α] in
theorem Grows.trans {bloom bloom' bloom'' : Bloom α} (h : Grows bloom bloom') (h' : Grows bloom' bloom'') :
    Grows bloom bloom'' :=
  ⟨h'.keys_eq.trans h.keys_eq, h'.length_eq.trans h.length_eq,
    fun p hp => h'.getD_bits p (h.getD_bits p hp)⟩

theorem Grows.pos {bloom bloom' : Bloom α} (h : Grows bloom bloom') (key : α) (k : ℕ) :
    bloom'.pos key k = bloom.pos key k := by
  rw [Bloom.pos, Bloom.pos, h.length_eq]

/-- A round of `add` grows the filter and sets the key's bit. -/
theorem addAt_grows {bloom bloom' : Bloom α} {key : α} {k : ℕ} (h : bloom.addAt key k = some bloom') :
    Grows bloom bloom' ∧ ∃ p, bloom.pos key k = some p ∧ bloom'.bits.getD p false = true := by
  simp only [addAt, Option.bind_eq_bind, Option.bind_eq_some_iff] at h
  obtain ⟨p, hpos, hset⟩ := h
  have hlt := pos_lt hpos
  refine ⟨?_, p, hpos, ?_⟩ <;> split_ifs at hset with hbit <;> cases hset
  · refine ⟨rfl, List.length_set .., fun q hq => ?_⟩
    by_cases hpq : p = q
    · subst hpq
      rw [List.getD_eq_getElem?_getD, List.getElem?_set_self hlt]
      rfl
    · simpa [List.getD_eq_getElem?_getD, List.getElem?_set_ne hpq] using hq
  · exact Grows.refl bloom
  · simp [List.getD_eq_getElem?_getD, hlt]
  · simpa using hbit

theorem add_grows {bloom bloom' : Bloom α} {key : α} (h : bloom.add key = some bloom') :
    Grows bloom bloom' :=
  (Run.exec_rel (P := fun _ => True) Grows.refl Grows.trans
    (fun _ _ _ _ hstep => ⟨trivial, (addAt_grows hstep).1⟩) bloom.keys trivial h).2

theorem addItems_grows {bloom bloom' : Bloom α} {items : List α} (h : bloom.addItems items = some bloom') :
    Grows bloom bloom' :=
  (Run.exec_rel (P := fun _ => True) Grows.refl Grows.trans
    (fun _ _ _ _ hstep => ⟨trivial, add_grows hstep⟩) items trivial h).2

theorem Valid.addAt {bloom bloom' : Bloom α} {key : α} {k : ℕ} (hvalid : bloom.Valid)
    (h : bloom.addAt key k = some bloom') : bloom'.Valid := by
  obtain ⟨p, hpos, -⟩ := (addAt_grows h).2
  rw [addAt_eq hvalid hpos, Option.some.injEq] at h
  subst h
  exact ⟨by simpa using hvalid.length_lt, rfl⟩

theorem Valid.add {bloom bloom' : Bloom α} {key : α} (hvalid : bloom.Valid)
    (h : bloom.add key = some bloom') : bloom'.Valid :=
  Run.exec_invariant (fun _ _ _ hs hstep => Valid.addAt hs hstep) bloom.keys hvalid h

theorem Valid.addItems {bloom bloom' : Bloom α} {items : List α} (hvalid : bloom.Valid)
    (h : bloom.addItems items = some bloom') : bloom'.Valid :=
  Run.exec_invariant (fun _ _ _ hs hstep => Valid.add hs hstep) items hvalid h

theorem contains_eq_some_true {bloom : Bloom α} {key : α} :
    bloom.contains key = some true ↔
      ∀ k ∈ bloom.keys, ∃ p, bloom.pos key k = some p ∧ bloom.bits.getD p false = true := by
  rw [contains, Run.allM_eq_some_true_iff]
  simp [Option.map_eq_some_iff]

/-- A contained item stays contained as the filter grows. -/
theorem Grows.contains {bloom bloom' : Bloom α} {key : α} (h : Grows bloom bloom')
    (hcontains : bloom.contains key = some true) : bloom'.contains key = some true := by
  rw [contains_eq_some_true] at hcontains ⊢
  intro k hk
  obtain ⟨p, hpos, hbit⟩ := hcontains k (h.keys_eq ▸ hk)
  exact ⟨p, (h.pos key k).trans hpos, h.getD_bits p hbit⟩

/-- The rounds of `add` set the bits of every key they go through. -/
theorem exec_addAt_sets {key : α} :
    ∀ (ks : List ℕ) {bloom bloom' : Bloom α}, Run.exec (addAt key) bloom ks = some bloom' →
      ∀ k ∈ ks, ∃ p, bloom'.pos key k = some p ∧ bloom'.bits.getD p false = true
  | [], _, _, _, k, hk => absurd hk List.not_mem_nil
  | k :: ks, bloom, bloom', h, k', hk' => by
    obtain ⟨bloom₁, hfirst, hrest⟩ := Run.exec_cons_eq_some h
    rcases List.mem_cons.mp hk' with rfl | hk'
    · have hgrows : Grows bloom₁ bloom' :=
        (Run.exec_rel (P := fun _ => True) Grows.refl Grows.trans
          (fun _ _ _ _ hstep => ⟨trivial, (addAt_grows hstep).1⟩) ks trivial hrest).2
      obtain ⟨hgrows₁, p, hpos, hbit⟩ := addAt_grows hfirst
      exact ⟨p, ((hgrows₁.trans hgrows).pos key k').trans hpos, hgrows.getD_bits p hbit⟩
    · exact exec_addAt_sets ks hrest k' hk'

/-- No false negatives: an added item is contained. -/
theorem contains_add_self {bloom bloom' : Bloom α} {key : α} (h : bloom.add key = some bloom') :
    bloom'.contains key = some true := by
  rw [contains_eq_some_true, (add_grows h).keys_eq]
  exact exec_addAt_sets bloom.keys h

end Bloom

namespace AtomicBloom

/-- `From<Bloom<T>> for AtomicBloom<T>`: the bits laid out in words. -/
def fromBloom (bloom : Bloom α) : AtomicBloom α := ⟨bloom.bits.length, bloom.keys, toWords bloom.bits⟩

/-- The word of the key's bit and its mask within the word. -/
def pos (atomic : AtomicBloom α) (key : α) (hashIndex : ℕ) : Option (ℕ × ℕ) := do
  let pos ← checkedRem (BloomHashIndex.hashAtIndex key hashIndex) atomic.numBits
  some (wrappingShr 64 pos 6, wrappingShl 64 1 (pos &&& 63))

/-- One round of the loop of `add`: `fetch_or` the key's mask into its word, noting whether the
bit was unset. -/
def addAt (key : α) (state : AtomicBloom α × Bool) (k : ℕ) : Option (AtomicBloom α × Bool) := do
  let (index, mask) ← state.1.pos key k
  let prevVal ← state.1.bits[index]?
  some ({ state.1 with bits := state.1.bits.set index (prevVal ||| mask) }, state.2 || prevVal &&& mask == 0)

/-- `add`, returning the filter it leaves and whether the item was new. -/
def add (atomic : AtomicBloom α) (key : α) : Option (AtomicBloom α × Bool) :=
  Run.exec (addAt key) (atomic, false) atomic.keys

def contains (atomic : AtomicBloom α) (key : α) : Option Bool :=
  atomic.keys.allM fun k => do
    let (index, mask) ← atomic.pos key k
    let word ← atomic.bits[index]?
    some (word &&& mask != 0)

/-- Items added one after another. -/
def addItems (atomic : AtomicBloom α) (items : List α) : Option (AtomicBloom α) :=
  Run.exec (fun atomic key => (atomic.add key).map Prod.fst) atomic items

/-- The `fetch_or`s that `add` makes, in order: the word and the mask of each key. -/
def fetchOrs (atomic : AtomicBloom α) (key : α) : Option (List (ℕ × ℕ)) := atomic.keys.mapM (atomic.pos key)

end AtomicBloom

/-- `From<AtomicBloom<T>> for Bloom<T>`: the words cut back to `num_bits` bits, and
`num_bits_set` counted afresh. -/
def Bloom.fromAtomicBloom (atomic : AtomicBloom α) : Bloom α :=
  ⟨atomic.keys, (ofWords atomic.bits).take atomic.numBits, (atomic.bits.map countOnes).sum⟩

namespace AtomicBloom

/-! ## The atomic filter refines the filter -/

theorem pos_eq (atomic : AtomicBloom α) (key : α) (k : ℕ) :
    atomic.pos key k =
      (checkedRem (BloomHashIndex.hashAtIndex key k) atomic.numBits).map fun p => (p / 64, 2 ^ (p % 64)) := by
  rw [pos]
  cases checkedRem (BloomHashIndex.hashAtIndex key k) atomic.numBits with
  | none => rfl
  | some p =>
    have hand : p &&& 63 = p % 64 := Nat.and_two_pow_sub_one_eq_mod p 6
    show some (wrappingShr 64 p 6, wrappingShl 64 1 (p &&& 63)) = some (p / 2 ^ 6, 2 ^ (p % 64))
    rw [wrappingShr_of_lt (by decide : 6 < 64), hand, wrappingShl_one (Nat.mod_lt p (by decide : 0 < 64))]

theorem pos_eq_some {atomic : AtomicBloom α} {key : α} {k p : ℕ}
    (hrem : checkedRem (BloomHashIndex.hashAtIndex key k) atomic.numBits = some p) :
    atomic.pos key k = some (p / 64, 2 ^ (p % 64)) := by
  rw [pos_eq, hrem]
  rfl

/-- A round of `add` at a word within the words `fetch_or`s the mask into it. -/
theorem addAt_of_pos {atomic : AtomicBloom α} {key : α} {k index mask word : ℕ} (added : Bool)
    (hpos : atomic.pos key k = some (index, mask)) (hword : atomic.bits[index]? = some word) :
    addAt key (atomic, added) k =
      some ({ atomic with bits := orAt atomic.bits (index, mask) }, added || word &&& mask == 0) := by
  rw [orAt_eq_set hword]
  simp [addAt, hpos, hword]

/-- Words laid out from a `u64` number of bits: as many words as the bits need, and the
padding bits unset. -/
structure Wf (atomic : AtomicBloom α) : Prop where
  numBits_lt : atomic.numBits < 2 ^ 64
  length_bits : atomic.bits.length = Chunks.chunkCount atomic.numBits 64
  padding : ∀ p, atomic.numBits ≤ p → (ofWords atomic.bits).getD p false = false

omit [BloomHashIndex α] in
theorem wf_fromBloom {bloom : Bloom α} (h : bloom.bits.length < 2 ^ 64) : (fromBloom bloom).Wf where
  numBits_lt := h
  length_bits := length_toWords bloom.bits
  padding p hp := by
    rw [fromBloom, getD_ofWords_toWords, List.getD_eq_default _ _ hp]

omit [BloomHashIndex α] in
theorem Wf.index_lt {atomic : AtomicBloom α} (hwf : atomic.Wf) {p : ℕ} (hp : p < atomic.numBits) :
    p / 64 < atomic.bits.length := by
  rw [hwf.length_bits, Chunks.chunkCount_eq_div_ceil _ (by decide)]
  omega

omit [BloomHashIndex α] in
/-- Setting a bit within the number of bits keeps the padding unset. -/
theorem Wf.orAt {atomic : AtomicBloom α} (hwf : atomic.Wf) {p : ℕ} (hp : p < atomic.numBits) :
    ({ atomic with bits := orAt atomic.bits (p / 64, 2 ^ (p % 64)) } : AtomicBloom α).Wf where
  numBits_lt := hwf.numBits_lt
  length_bits := by simpa using hwf.length_bits
  padding q (hq : atomic.numBits ≤ q) := by
    rw [getD_ofWords_orAt _ _ _ (hwf.index_lt hp), hwf.padding q hq]
    simp only [Bool.false_or, decide_eq_false_iff_not]
    omega

omit [BloomHashIndex α] in
/-- The filter that well-formed words convert to: their bits, and the count of the set ones. -/
theorem fromAtomicBloom_eq {atomic : AtomicBloom α} (hwf : atomic.Wf) :
    Bloom.fromAtomicBloom atomic =
      ⟨atomic.keys, (ofWords atomic.bits).take atomic.numBits,
        ((ofWords atomic.bits).take atomic.numBits).count true⟩ := by
  rw [Bloom.fromAtomicBloom, count_take_of_getD hwf.padding, count_ofWords]

omit [BloomHashIndex α] in
theorem length_fromAtomicBloom {atomic : AtomicBloom α} (hwf : atomic.Wf) :
    (Bloom.fromAtomicBloom atomic).bits.length = atomic.numBits :=
  length_take_ofWords hwf.length_bits

omit [BloomHashIndex α] in
theorem valid_fromAtomicBloom {atomic : AtomicBloom α} (hwf : atomic.Wf) :
    (Bloom.fromAtomicBloom atomic).Valid := by
  refine ⟨(length_fromAtomicBloom hwf).symm ▸ hwf.numBits_lt, ?_⟩
  rw [fromAtomicBloom_eq hwf]

theorem pos_fromAtomicBloom {atomic : AtomicBloom α} (hwf : atomic.Wf) (key : α) (k : ℕ) :
    (Bloom.fromAtomicBloom atomic).pos key k = checkedRem (BloomHashIndex.hashAtIndex key k) atomic.numBits := by
  rw [Bloom.pos, length_fromAtomicBloom hwf]

/-- One round of the atomic `add` sets the bit that the round of the filter's `add` sets, and
keeps the words well formed. -/
theorem addAt_refines (key : α) (k : ℕ) (state : AtomicBloom α × Bool) (hwf : state.1.Wf) :
    (addAt key state k).map (fun state => Bloom.fromAtomicBloom state.1) =
        (Bloom.fromAtomicBloom state.1).addAt key k ∧
      ∀ state', addAt key state k = some state' → state'.1.Wf := by
  obtain ⟨atomic, added⟩ := state
  cases hrem : checkedRem (BloomHashIndex.hashAtIndex key k) atomic.numBits with
  | none =>
    have hpos : atomic.pos key k = none := by rw [pos_eq, hrem]; rfl
    simp [addAt, Bloom.addAt, hpos, pos_fromAtomicBloom hwf, hrem]
  | some p =>
    have hp := lt_of_checkedRem_eq_some hrem
    have hword := List.getElem?_eq_getElem (hwf.index_lt hp)
    have hstep := addAt_of_pos added (pos_eq_some hrem) hword
    have hwf' := hwf.orAt hp
    refine ⟨?_, fun state' h => ?_⟩
    · rw [hstep, Option.map_some,
        Bloom.addAt_eq (valid_fromAtomicBloom hwf) ((pos_fromAtomicBloom hwf key k).trans hrem),
        fromAtomicBloom_eq hwf', fromAtomicBloom_eq hwf]
      simp only [take_ofWords_orAt hp hwf.length_bits]
    · rw [hstep, Option.some.injEq] at h
      exact h ▸ hwf'

theorem add_refines (atomic : AtomicBloom α) (key : α) (hwf : atomic.Wf) :
    (atomic.add key).map (fun state => Bloom.fromAtomicBloom state.1) = (Bloom.fromAtomicBloom atomic).add key ∧
      ∀ state', atomic.add key = some state' → state'.1.Wf := by
  have hrun := @Run.exec_map _ _ _ (addAt key) (Bloom.addAt key)
    (fun state => Bloom.fromAtomicBloom state.1) (fun state => state.1.Wf)
    (fun state k hwf => addAt_refines key k state hwf) atomic.keys (atomic, false) hwf
  rw [Bloom.add]
  exact hrun

/-- The atomic filter refines the filter: on well-formed words, adding items and converting
is converting and adding them, failures included. -/
theorem addItems_refines (atomic : AtomicBloom α) (items : List α) (hwf : atomic.Wf) :
    (atomic.addItems items).map Bloom.fromAtomicBloom = (Bloom.fromAtomicBloom atomic).addItems items ∧
      ∀ atomic', atomic.addItems items = some atomic' → atomic'.Wf := by
  refine Run.exec_map Bloom.fromAtomicBloom (P := Wf) (fun atomic key hwf => ?_) items hwf
  obtain ⟨hmap, hkeep⟩ := add_refines atomic key hwf
  refine ⟨by rw [Option.map_map]; exact hmap, fun atomic' h => ?_⟩
  obtain ⟨state, hstate, rfl⟩ := Option.map_eq_some_iff.mp h
  exact hkeep state hstate

/-- The atomic filter reads the bits of the filter it converts to. -/
theorem contains_fromAtomicBloom (atomic : AtomicBloom α) (key : α) (hwf : atomic.Wf) :
    (Bloom.fromAtomicBloom atomic).contains key = atomic.contains key := by
  rw [Bloom.contains, contains]
  congr 1
  funext k
  rw [pos_fromAtomicBloom hwf, pos_eq]
  cases hrem : checkedRem (BloomHashIndex.hashAtIndex key k) atomic.numBits with
  | none => rfl
  | some p =>
    have hp := lt_of_checkedRem_eq_some hrem
    have hidx := hwf.index_lt hp
    have hbit : ((ofWords atomic.bits).take atomic.numBits).getD p false =
        atomic.bits[p / 64].testBit (p % 64) := by
      rw [getD_take_ofWords, getD_ofWords, List.getD_eq_getElem _ _ hidx]
      simp [hp]
    have hmask : (atomic.bits[p / 64] &&& 2 ^ (p % 64) != 0) = atomic.bits[p / 64].testBit (p % 64) := by
      rw [Nat.and_two_pow]
      cases atomic.bits[p / 64].testBit (p % 64) <;> simp
    simp only [Bloom.fromAtomicBloom, Option.map_some, Option.bind_eq_bind, Option.bind_some,
      List.getElem?_eq_getElem hidx, hmask, hbit]

/-! ## The `fetch_or`s of `add` -/

/-- On well-formed words with bits, the rounds of `add` make the `fetch_or`s of the keys'
masks one after another. -/
theorem exec_addAt_eq_foldl (atomic : AtomicBloom α) (key : α) (hbits : 0 < atomic.numBits) :
    ∀ (ks bits : List ℕ) (added : Bool), ({ atomic with bits } : AtomicBloom α).Wf →
      ∃ ops, ks.mapM (atomic.pos key) = some ops ∧
        ∃ added', Run.exec (addAt key) ({ atomic with bits }, added) ks =
          some ({ atomic with bits := ops.foldl orAt bits }, added')
  | [], bits, added, _ => ⟨[], rfl, added, rfl⟩
  | k :: ks, bits, added, hwf => by
    obtain ⟨p, hrem⟩ : ∃ p, checkedRem (BloomHashIndex.hashAtIndex key k) atomic.numBits = some p :=
      ⟨_, checkedRem_eq_some.mpr ⟨Nat.pos_iff_ne_zero.mp hbits, rfl⟩⟩
    have hp := lt_of_checkedRem_eq_some hrem
    have hpos : ({ atomic with bits } : AtomicBloom α).pos key k = some (p / 64, 2 ^ (p % 64)) :=
      pos_eq_some hrem
    have hstep := addAt_of_pos added hpos (List.getElem?_eq_getElem (hwf.index_lt hp))
    obtain ⟨ops, hops, added', hrest⟩ := exec_addAt_eq_foldl atomic key hbits ks _ (added || _) (hwf.orAt hp)
    refine ⟨(p / 64, 2 ^ (p % 64)) :: ops, ?_, added', ?_⟩
    · rw [List.mapM_cons, show atomic.pos key k = some (p / 64, 2 ^ (p % 64)) from hpos, hops]
      rfl
    · rw [Run.exec_cons, hstep, Option.bind_some]
      exact hrest

/-- On well-formed words with bits, `add` makes the `fetch_or`s of `fetchOrs` one after
another, and cannot fail. -/
theorem add_eq_foldl (atomic : AtomicBloom α) (key : α) (hwf : atomic.Wf) (hbits : 0 < atomic.numBits) :
    ∃ ops, atomic.fetchOrs key = some ops ∧
      ∃ added, atomic.add key = some ({ atomic with bits := ops.foldl orAt atomic.bits }, added) :=
  exec_addAt_eq_foldl atomic key hbits atomic.keys atomic.bits false hwf

end AtomicBloom

omit [BloomHashIndex α] in
/-- Converting a filter to words and back gives its keys and bits, with `num_bits_set`
counted afresh. -/
theorem Bloom.fromAtomicBloom_fromBloom (bloom : Bloom α) :
    Bloom.fromAtomicBloom (AtomicBloom.fromBloom bloom) = { bloom with numBitsSet := bloom.bits.count true } := by
  rw [Bloom.fromAtomicBloom, AtomicBloom.fromBloom, ← count_ofWords, count_ofWords_toWords]
  simp only [take_ofWords_toWords]

/-- A filter built by `new` and `add`, converted to an atomic filter that more items are added
to, converts back to the filter those items are added to, with the same keys, bits and
`num_bits_set`, and `contains` agrees. -/
theorem fromAtomicBloom_addItems_fromBloom (numBits : ℕ) (keys : List ℕ) (items items' : List α)
    (bloom : Bloom α) (hbits : numBits < 2 ^ 64)
    (hbloom : (Bloom.new numBits keys).addItems items = some bloom) :
    ((AtomicBloom.fromBloom bloom).addItems items').map Bloom.fromAtomicBloom = bloom.addItems items' ∧
      ∀ key, ((AtomicBloom.fromBloom bloom).addItems items').bind (·.contains key) =
        (bloom.addItems items').bind (·.contains key) := by
  have hvalid : bloom.Valid := (Bloom.valid_new hbits keys).addItems hbloom
  have hback : Bloom.fromAtomicBloom (AtomicBloom.fromBloom bloom) = bloom := by
    rw [Bloom.fromAtomicBloom_fromBloom, ← hvalid.numBitsSet_eq]
  obtain ⟨hrun, hkeep⟩ :=
    AtomicBloom.addItems_refines (AtomicBloom.fromBloom bloom) items' (AtomicBloom.wf_fromBloom hvalid.length_lt)
  rw [hback] at hrun
  refine ⟨hrun, fun key => ?_⟩
  rw [← hrun]
  cases hatomic : (AtomicBloom.fromBloom bloom).addItems items' with
  | none => rfl
  | some atomic' =>
    exact (AtomicBloom.contains_fromAtomicBloom atomic' key (hkeep atomic' hatomic)).symm

end Solana
