import Solana.Bloom.Bloom
import Solana.Sdk.Basic

/-! `CrdsFilterSet` of `gossip/src/crds_gossip_pull.rs`: every hash prefix matches the mask of
exactly one filter (`testMask_iff`), and concurrent adds commute (`Covers.exec_add`). -/

namespace Solana.Gossip

open MachineInt Words

/-- `hash_as_u64`: the first eight bytes of the hash, read little-endian. -/
def hashAsU64 (item : Hash) : ℕ := item % 2 ^ 64

structure CrdsFilter where
  filter : Bloom Hash
  mask : ℕ
  maskBits : ℕ

namespace CrdsFilter

/-- The highest `mask_bits` bits of the mask are the seed, and the others are set. -/
def computeMask (seed maskBits : ℕ) : Option ℕ :=
  if seed ≤ wrap 64 (2 ^ maskBits) then
    some ((checkedShl 64 seed (wrappingSub 32 64 maskBits)).getD 0 |||
      (checkedShr 64 (2 ^ 64 - 1) maskBits).getD (2 ^ 64 - 1))
  else none

/-- Only the highest `mask_bits` bits of the hash count; the others are set to 1. -/
def testMask (filter : CrdsFilter) (item : Hash) : Bool :=
  let ones := (checkedShr 64 (2 ^ 64 - 1) filter.maskBits).getD (2 ^ 64 - 1)
  (hashAsU64 item ||| ones) == filter.mask

def filterContains [BloomHashIndex Hash] (filter : CrdsFilter) (item : Hash) : Option Bool :=
  filter.filter.contains item

end CrdsFilter

structure CrdsFilterSet where
  filters : List (AtomicBloom Hash)
  maskBits : ℕ

namespace CrdsFilterSet

/-- `CrdsFilterSet::new`, given what the float computations make of `num_items` and
`max_bytes`: the mask bits, and the number of bits `m` that the false rate asks for and
`max_bits`; `keys i` are the random keys of filter `i`. -/
def new (maskBits m maxBits : ℕ) (keys : ℕ → List ℕ) : CrdsFilterSet where
  filters := (List.range (wrappingShl 64 1 maskBits)).map fun i =>
    AtomicBloom.fromBloom (Bloom.random m maxBits (keys i))
  maskBits := maskBits

/-- The `index` of `add`: the filter of a hash is its highest `mask_bits` bits. -/
def filterIndex (maskBits : ℕ) (hashValue : Hash) : ℕ :=
  (checkedShr 64 (hashAsU64 hashValue) (wrappingSub 32 64 maskBits)).getD 0

def add [BloomHashIndex Hash] (set : CrdsFilterSet) (hashValue : Hash) : Option CrdsFilterSet := do
  let index := filterIndex set.maskBits hashValue
  let filter ← set.filters[index]?
  let (filter, _) ← filter.add hashValue
  some { set with filters := set.filters.set index filter }

/-- `From<CrdsFilterSet> for Vec<CrdsFilter>`: the filter at `seed` gets the mask of `seed`. -/
def toCrdsFilters (cfs : CrdsFilterSet) : Option (List CrdsFilter) :=
  cfs.filters.zipIdx.mapM fun (filter, seed) =>
    (CrdsFilter.computeMask seed cfs.maskBits).map fun mask =>
      { filter := Bloom.fromAtomicBloom filter, mask, maskBits := cfs.maskBits }

/-- A `fetch_or` of `add`: the filter, then the word and the mask within it. -/
def fetchOr (filters : List (AtomicBloom Hash)) (op : ℕ × ℕ × ℕ) : List (AtomicBloom Hash) :=
  filters.modify op.1 fun filter => { filter with bits := orAt filter.bits op.2 }

/-- The `fetch_or`s that `add` makes, in order. -/
def fetchOrs [BloomHashIndex Hash] (set : CrdsFilterSet) (hashValue : Hash) : Option (List (ℕ × ℕ × ℕ)) := do
  let index := filterIndex set.maskBits hashValue
  let filter ← set.filters[index]?
  let ops ← filter.fetchOrs hashValue
  some (ops.map fun op => (index, op))

/-! ## Masks and indexes -/

section Masks

variable {maskBits : ℕ}

theorem hashAsU64_lt (item : Hash) : hashAsU64 item < 2 ^ 64 :=
  Nat.mod_lt _ (Nat.two_pow_pos 64)

/-- `!0 >> mask_bits`: the low `64 - mask_bits` bits set. -/
theorem ones_eq (hm : maskBits < 64) :
    (checkedShr 64 (2 ^ 64 - 1) maskBits).getD (2 ^ 64 - 1) = 2 ^ (64 - maskBits) - 1 := by
  rw [checkedShr, if_pos hm, Option.getD_some]
  apply Nat.eq_of_testBit_eq
  intro i
  rw [Nat.testBit_div_two_pow, Nat.testBit_two_pow_sub_one, Nat.testBit_two_pow_sub_one,
    decide_eq_decide]
  omega

theorem sub_eq (hm : maskBits < 64) : wrappingSub 32 64 maskBits = 64 - maskBits :=
  wrappingSub_of_le (by omega) (by decide)

/-- The seed shifted to the highest `mask_bits` bits; a shift by 64 is `0`, the only seed then. -/
theorem shiftedSeed_eq (hm : maskBits < 64) {seed : ℕ} (hseed : seed < 2 ^ maskBits) :
    (checkedShl 64 seed (wrappingSub 32 64 maskBits)).getD 0 = seed * 2 ^ (64 - maskBits) := by
  rw [sub_eq hm, checkedShl]
  split_ifs with hshift
  · have hfit : seed * 2 ^ (64 - maskBits) < 2 ^ 64 := by
      calc seed * 2 ^ (64 - maskBits) < 2 ^ maskBits * 2 ^ (64 - maskBits) :=
            Nat.mul_lt_mul_of_pos_right hseed (Nat.two_pow_pos _)
        _ = 2 ^ 64 := by rw [← Nat.pow_add]; congr 1; omega
    rw [Option.getD_some, wrap_of_lt hfit]
  · have hzero : maskBits = 0 := by omega
    subst hzero
    have : seed = 0 := by simpa using hseed
    simp [this]

theorem filterIndex_eq (hm : maskBits < 64) (hashValue : Hash) :
    filterIndex maskBits hashValue = hashAsU64 hashValue / 2 ^ (64 - maskBits) := by
  rw [filterIndex, sub_eq hm, checkedShr]
  split_ifs with hshift
  · rfl
  · rw [show 64 - maskBits = 64 by omega, Nat.div_eq_of_lt (hashAsU64_lt hashValue)]
    rfl

theorem filterIndex_lt (hm : maskBits < 64) (hashValue : Hash) :
    filterIndex maskBits hashValue < 2 ^ maskBits := by
  rw [filterIndex_eq hm, Nat.div_lt_iff_lt_mul (Nat.two_pow_pos _), ← Nat.pow_add,
    show maskBits + (64 - maskBits) = 64 by omega]
  exact hashAsU64_lt hashValue

theorem computeMask_eq (hm : maskBits < 64) {seed : ℕ} (hseed : seed < 2 ^ maskBits) :
    CrdsFilter.computeMask seed maskBits =
      some (seed * 2 ^ (64 - maskBits) ||| (2 ^ (64 - maskBits) - 1)) := by
  have hwrap : wrap 64 (2 ^ maskBits) = 2 ^ maskBits := wrap_of_lt (Nat.pow_lt_pow_right (by decide) hm)
  rw [CrdsFilter.computeMask, if_pos (by omega), shiftedSeed_eq hm hseed, ones_eq hm]

/-- A hash matches the mask of `seed` exactly when `add` puts it in filter `seed`. -/
theorem testMask_iff (hm : maskBits < 64) (seed : ℕ) (filter : Bloom Hash) (item : Hash) :
    ({ filter, mask := seed * 2 ^ (64 - maskBits) ||| (2 ^ (64 - maskBits) - 1), maskBits } :
        CrdsFilter).testMask item = true ↔ filterIndex maskBits item = seed := by
  rw [CrdsFilter.testMask, ones_eq hm, beq_iff_eq, or_two_pow_sub_one_eq_iff,
    Nat.mul_div_cancel _ (Nat.two_pow_pos _), filterIndex_eq hm]

end Masks

/-! ## The filters a set converts to -/

/-- The filter at `seed`, with the mask of `seed`. -/
def maskedFilter (maskBits : ℕ) (filter : AtomicBloom Hash) (seed : ℕ) : CrdsFilter :=
  { filter := Bloom.fromAtomicBloom filter, mask := seed * 2 ^ (64 - maskBits) ||| (2 ^ (64 - maskBits) - 1),
    maskBits }

theorem toCrdsFilters_eq (set : CrdsFilterSet) (hm : set.maskBits < 64)
    (hlen : set.filters.length = 2 ^ set.maskBits) :
    set.toCrdsFilters = some (set.filters.zipIdx.map fun (filter, seed) => maskedFilter set.maskBits filter seed) := by
  apply Run.mapM_eq_some_map
  rintro ⟨filter, seed⟩ hmem
  dsimp only
  have hseed : seed < 2 ^ set.maskBits := by
    have := (List.mem_zipIdx hmem).2.1
    omega
  rw [computeMask_eq hm hseed]
  rfl

theorem getElem?_zipIdx_map (filters : List (AtomicBloom Hash)) (maskBits i : ℕ) :
    (filters.zipIdx.map fun (filter, seed) => maskedFilter maskBits filter seed)[i]? =
      filters[i]?.map fun filter => maskedFilter maskBits filter i := by
  simp [List.getElem?_zipIdx, Function.comp_def]

/-- Every hash matches the mask of exactly one of the filters. -/
theorem existsUnique_testMask (filters : List (AtomicBloom Hash)) {maskBits : ℕ} (hm : maskBits < 64)
    (hlen : filters.length = 2 ^ maskBits) (item : Hash) :
    ∃! i : ℕ, ∃ filter : CrdsFilter, (filters.zipIdx.map fun (filter, seed) => maskedFilter maskBits filter seed)[i]? =
      some filter ∧ filter.testMask item = true := by
  have hindex := filterIndex_lt hm item
  refine ⟨filterIndex maskBits item, ?_, ?_⟩
  · refine ⟨maskedFilter maskBits filters[filterIndex maskBits item] (filterIndex maskBits item), ?_, ?_⟩
    · rw [getElem?_zipIdx_map, List.getElem?_eq_getElem (by omega)]
      rfl
    · exact (testMask_iff hm _ _ item).mpr rfl
  · rintro i ⟨filter, hfilter, htest⟩
    rw [getElem?_zipIdx_map, Option.map_eq_some_iff] at hfilter
    obtain ⟨atomic, hatomic, rfl⟩ := hfilter
    exact ((testMask_iff hm i _ item).mp htest).symm

/-! ## Concurrent adds -/

theorem getElem?_fetchOr (filters : List (AtomicBloom Hash)) (op : ℕ × ℕ × ℕ) (i : ℕ) :
    (fetchOr filters op)[i]? =
      filters[i]?.map fun filter => if op.1 = i then { filter with bits := orAt filter.bits op.2 } else filter := by
  rw [fetchOr, List.getElem?_modify]
  rfl

@[simp] theorem length_fetchOr (filters : List (AtomicBloom Hash)) (op : ℕ × ℕ × ℕ) :
    (fetchOr filters op).length = filters.length :=
  List.length_modify _ _ _

theorem fetchOr_comm (filters : List (AtomicBloom Hash)) (op op' : ℕ × ℕ × ℕ) :
    fetchOr (fetchOr filters op) op' = fetchOr (fetchOr filters op') op := by
  apply List.ext_getElem?
  intro i
  rw [getElem?_fetchOr, getElem?_fetchOr, getElem?_fetchOr, getElem?_fetchOr, Option.map_map, Option.map_map]
  congr 1
  funext filter
  by_cases h : op.1 = i <;> by_cases h' : op'.1 = i <;> simp [h, h', orAt_comm]

/-- `fetch_or`s may land in any order: the filters they leave are the same. -/
theorem foldl_fetchOr_perm {ops ops' : List (ℕ × ℕ × ℕ)} (hperm : ops.Perm ops')
    (filters : List (AtomicBloom Hash)) :
    ops.foldl fetchOr filters = ops'.foldl fetchOr filters :=
  hperm.foldl_eq' (fun _ _ _ _ filters => fetchOr_comm filters _ _) filters

/-- The `fetch_or`s of one filter make the `fetch_or`s of its words. -/
theorem foldl_fetchOr_map {filters : List (AtomicBloom Hash)} {i : ℕ} {filter : AtomicBloom Hash}
    (hfilter : filters[i]? = some filter) :
    ∀ ops : List (ℕ × ℕ), (ops.map fun op => (i, op)).foldl fetchOr filters =
      filters.set i { filter with bits := ops.foldl orAt filter.bits }
  | [] => by
    obtain ⟨hi, rfl⟩ := List.getElem?_eq_some_iff.mp hfilter
    exact (List.set_getElem_self hi).symm
  | op :: ops => by
    have hset : fetchOr filters (i, op) = filters.set i { filter with bits := orAt filter.bits op } := by
      rw [fetchOr, List.modify_eq_set_getElem?, hfilter]
      rfl
    have hi : i < filters.length := (List.getElem?_eq_some_iff.mp hfilter).1
    rw [List.map_cons, List.foldl_cons, hset,
      foldl_fetchOr_map (List.getElem?_set_self hi) ops, List.set_set]
    rfl

section Adds

variable [BloomHashIndex Hash]

/-- A `fetch_or` leaves the number of bits and the keys of every filter, so the `fetch_or`s
of later adds are those of the start. -/
theorem fetchOrs_fetchOr (set : CrdsFilterSet) (op : ℕ × ℕ × ℕ) (hashValue : Hash) :
    ({ set with filters := fetchOr set.filters op } : CrdsFilterSet).fetchOrs hashValue = set.fetchOrs hashValue := by
  simp only [fetchOrs, getElem?_fetchOr]
  cases set.filters[filterIndex set.maskBits hashValue]? with
  | none => rfl
  | some filter =>
    by_cases h : op.1 = filterIndex set.maskBits hashValue
    · simp only [h, if_true, Option.map_some, Option.bind_eq_bind, Option.bind_some]
      rfl
    · simp only [h, if_false, Option.map_some]

theorem fetchOrs_foldl_fetchOr (set : CrdsFilterSet) (hashValue : Hash) :
    ∀ ops : List (ℕ × ℕ × ℕ),
      ({ set with filters := ops.foldl fetchOr set.filters } : CrdsFilterSet).fetchOrs hashValue =
        set.fetchOrs hashValue
  | [] => rfl
  | op :: ops => by
    rw [List.foldl_cons]
    exact (fetchOrs_foldl_fetchOr { set with filters := fetchOr set.filters op } hashValue ops).trans
      (fetchOrs_fetchOr set op hashValue)

/-- What the adds keep of a filter set: `2 ^ mask_bits` filters of well-formed words with
bits, and the filter of each hash added so far containing it. -/
structure Covers (set : CrdsFilterSet) (hashes : List Hash) : Prop where
  maskBits_lt : set.maskBits < 64
  length_filters : set.filters.length = 2 ^ set.maskBits
  wf : ∀ filter ∈ set.filters, filter.Wf ∧ 0 < filter.numBits
  contains : ∀ h ∈ hashes, ∀ filter, set.filters[filterIndex set.maskBits h]? = some filter →
    (Bloom.fromAtomicBloom filter).contains h = some true

theorem covers_new {maskBits maxBits : ℕ} (hm : maskBits < 64) (hmax : maxBits < 2 ^ 64) (m : ℕ)
    (keys : ℕ → List ℕ) : (new maskBits m maxBits keys).Covers [] where
  maskBits_lt := hm
  length_filters := by simp [new, wrappingShl_one hm]
  wf filter hfilter := by
    obtain ⟨i, -, rfl⟩ := List.mem_map.mp hfilter
    have hbits : max 1 (min m maxBits) < 2 ^ 64 := by omega
    exact ⟨AtomicBloom.wf_fromBloom (by simpa [Bloom.random, Bloom.new] using hbits),
      by simp [AtomicBloom.fromBloom, Bloom.random, Bloom.new]⟩
  contains h hmem := absurd hmem List.not_mem_nil

/-- One add: the `fetch_or`s of its filter, which then contains the hash, and the other
filters unchanged. -/
theorem Covers.add {set : CrdsFilterSet} {hashes : List Hash} (hcov : set.Covers hashes) (hashValue : Hash) :
    ∃ ops, set.fetchOrs hashValue = some ops ∧
      set.add hashValue = some { set with filters := ops.foldl fetchOr set.filters } ∧
      ({ set with filters := ops.foldl fetchOr set.filters } : CrdsFilterSet).Covers (hashes ++ [hashValue]) := by
  set i := filterIndex set.maskBits hashValue with hi_def
  have hi : i < set.filters.length := hcov.length_filters ▸ filterIndex_lt hcov.maskBits_lt hashValue
  have hfilter := List.getElem?_eq_getElem hi
  obtain ⟨hwf, hbits⟩ := hcov.wf _ (List.getElem_mem hi)
  obtain ⟨wordOps, hwordOps, added, hadd⟩ := AtomicBloom.add_eq_foldl _ hashValue hwf hbits
  obtain ⟨hmap, hkeep⟩ := AtomicBloom.add_refines _ hashValue hwf
  rw [hadd, Option.map_some] at hmap
  have hbloom := hmap.symm
  have hwf' := hkeep _ hadd
  have hfold := foldl_fetchOr_map hfilter wordOps
  refine ⟨wordOps.map fun op => (i, op), ?_, ?_, ?_⟩
  · simp [fetchOrs, ← hi_def, hfilter, hwordOps]
  · simp [CrdsFilterSet.add, ← hi_def, hfilter, hadd, hfold]
  · refine ⟨hcov.maskBits_lt, by simpa [hfold] using hcov.length_filters, ?_, ?_⟩
    · intro filter hmem
      rw [hfold] at hmem
      rcases List.mem_or_eq_of_mem_set hmem with hold | rfl
      · exact hcov.wf filter hold
      · exact ⟨hwf', hbits⟩
    · intro h hmem filter hget
      simp only at hget
      rw [hfold] at hget
      by_cases hsame : filterIndex set.maskBits h = i
      · rw [hsame, List.getElem?_set_self hi, Option.some.injEq] at hget
        subst hget
        rcases List.mem_append.mp hmem with hold | hnew
        · exact (Bloom.add_grows hbloom).contains (hcov.contains h hold _ (by rw [hsame]; exact hfilter))
        · rw [List.mem_singleton.mp hnew]
          exact Bloom.contains_add_self hbloom
      · rw [List.getElem?_set_ne (Ne.symm hsame)] at hget
        have hold : h ∈ hashes := by
          rcases List.mem_append.mp hmem with hold | hnew
          · exact hold
          · exact absurd (by rw [List.mem_singleton.mp hnew]) hsame
        exact hcov.contains h hold filter hget

/-- Adding hashes one after another succeeds, covers them all, and makes the `fetch_or`s of
each add in turn. -/
theorem Covers.exec_add {set : CrdsFilterSet} {done : List Hash} (hcov : set.Covers done) :
    ∀ hashes : List Hash, ∃ set', Run.exec CrdsFilterSet.add set hashes = some set' ∧ set'.Covers (done ++ hashes) ∧
      set' = { set with filters := (hashes.flatMap fun h => (set.fetchOrs h).getD []).foldl fetchOr set.filters }
  | [] => ⟨set, rfl, by simpa using hcov, rfl⟩
  | hashValue :: hashes => by
    obtain ⟨ops, hops, hadd, hcov₁⟩ := hcov.add hashValue
    obtain ⟨set', hrun, hcov', rfl⟩ := hcov₁.exec_add hashes
    refine ⟨_, by rw [Run.exec_cons, hadd, Option.bind_some, hrun], by simpa using hcov', ?_⟩
    simp only [fetchOrs_foldl_fetchOr, List.flatMap_cons, hops, Option.getD_some, List.foldl_append]

end Adds

/-- Pull filters have no false negatives. The hashes added to a new filter set, by threads at
once whose `fetch_or`s land in any order, leave the filters that adding them one after another
leaves; the set converts to `2 ^ mask_bits` filters, every hash matches the mask of exactly one
of them, and a filter whose mask an added hash matches contains it. -/
theorem filterSet_no_false_negatives [BloomHashIndex Hash] (maskBits m maxBits : ℕ) (keys : ℕ → List ℕ)
    (hashes : List Hash) (ops : List (ℕ × ℕ × ℕ)) (hm : maskBits < 64) (hmax : maxBits < 2 ^ 64)
    (hops : ops.Perm (hashes.flatMap fun h => ((new maskBits m maxBits keys).fetchOrs h).getD [])) :
    Run.exec add (new maskBits m maxBits keys) hashes =
        some { new maskBits m maxBits keys with filters := ops.foldl fetchOr (new maskBits m maxBits keys).filters } ∧
      ∃ filters, toCrdsFilters { new maskBits m maxBits keys with
          filters := ops.foldl fetchOr (new maskBits m maxBits keys).filters } = some filters ∧
        filters.length = 2 ^ maskBits ∧
        (∀ h, ∃! i : ℕ, ∃ filter : CrdsFilter, filters[i]? = some filter ∧ filter.testMask h = true) ∧
        ∀ h ∈ hashes, ∀ filter ∈ filters, filter.testMask h = true → filter.filterContains h = some true := by
  obtain ⟨set, hrun, hcov, hset⟩ := (covers_new hm hmax m keys).exec_add hashes
  rw [← foldl_fetchOr_perm hops] at hset
  subst hset
  have hlen : (ops.foldl fetchOr (new maskBits m maxBits keys).filters).length = 2 ^ maskBits :=
    hcov.length_filters
  refine ⟨hrun, _, toCrdsFilters_eq _ hm hlen, by simpa using hlen,
    existsUnique_testMask _ hm hlen, ?_⟩
  intro h hmem filter hfilter htest
  obtain ⟨i, hi, hget⟩ := List.getElem_of_mem hfilter
  have hget' := List.getElem?_eq_some_iff.mpr ⟨hi, hget⟩
  rw [getElem?_zipIdx_map, Option.map_eq_some_iff] at hget'
  obtain ⟨atomic, hatomic, rfl⟩ := hget'
  have hindex : filterIndex maskBits h = i := (testMask_iff hm i _ h).mp htest
  exact hcov.contains h (by simpa using hmem) atomic (hindex ▸ hatomic)

/-- Pull filters have no false negatives, and the atomic filters that the adds go to convert
back to the filters that the items are added to. -/
theorem crdsFilters_no_false_negatives [BloomHashIndex Hash] (maskBits m maxBits : ℕ)
    (keys : ℕ → List ℕ) (hashes : List Hash) (ops : List (ℕ × ℕ × ℕ)) (hm : maskBits < 64)
    (hmax : maxBits < 2 ^ 64)
    (hops : ops.Perm (hashes.flatMap fun h => ((new maskBits m maxBits keys).fetchOrs h).getD [])) :
    (Run.exec add (new maskBits m maxBits keys) hashes =
        some { new maskBits m maxBits keys with filters := ops.foldl fetchOr (new maskBits m maxBits keys).filters } ∧
      ∃ filters, toCrdsFilters { new maskBits m maxBits keys with
          filters := ops.foldl fetchOr (new maskBits m maxBits keys).filters } = some filters ∧
        filters.length = 2 ^ maskBits ∧
        (∀ h, ∃! i : ℕ, ∃ filter : CrdsFilter, filters[i]? = some filter ∧ filter.testMask h = true) ∧
        ∀ h ∈ hashes, ∀ filter ∈ filters, filter.testMask h = true → filter.filterContains h = some true) ∧
    ∀ {α : Type} [BloomHashIndex α] (numBits : ℕ) (bloomKeys : List ℕ) (items items' : List α) (bloom : Bloom α),
      numBits < 2 ^ 64 → (Bloom.new numBits bloomKeys).addItems items = some bloom →
        ((AtomicBloom.fromBloom bloom).addItems items').map Bloom.fromAtomicBloom = bloom.addItems items' ∧
          ∀ key, ((AtomicBloom.fromBloom bloom).addItems items').bind (·.contains key) =
            (bloom.addItems items').bind (·.contains key) :=
  ⟨filterSet_no_false_negatives maskBits m maxBits keys hashes ops hm hmax hops,
    fun numBits bloomKeys items items' bloom hbits hbloom =>
      fromAtomicBloom_addItems_fromBloom numBits bloomKeys items items' bloom hbits hbloom⟩

/-- The hash of the witness: the item plus the key. -/
@[reducible] def plusHash : BloomHashIndex Hash := ⟨fun item k => item + k⟩

theorem crdsFilters_no_false_negatives_one_bit :
    (Run.exec (@add plusHash) (new 1 8 16 fun _ => [1]) [3] =
        some { new 1 8 16 (fun _ => [1]) with
          filters := [(0, 0, 16)].foldl fetchOr (new 1 8 16 fun _ => [1]).filters } ∧
      ∃ filters, toCrdsFilters { new 1 8 16 (fun _ => [1]) with
          filters := [(0, 0, 16)].foldl fetchOr (new 1 8 16 fun _ => [1]).filters } = some filters ∧
        filters.length = 2 ^ 1 ∧
        (∀ h, ∃! i : ℕ, ∃ filter : CrdsFilter, filters[i]? = some filter ∧ filter.testMask h = true) ∧
        ∀ h ∈ [3], ∀ filter ∈ filters, filter.testMask h = true →
          @CrdsFilter.filterContains plusHash filter h = some true) ∧
    ∀ {α : Type} [BloomHashIndex α] (numBits : ℕ) (bloomKeys : List ℕ) (items items' : List α) (bloom : Bloom α),
      numBits < 2 ^ 64 → (Bloom.new numBits bloomKeys).addItems items = some bloom →
        ((AtomicBloom.fromBloom bloom).addItems items').map Bloom.fromAtomicBloom = bloom.addItems items' ∧
          ∀ key, ((AtomicBloom.fromBloom bloom).addItems items').bind (·.contains key) =
            (bloom.addItems items').bind (·.contains key) :=
  @crdsFilters_no_false_negatives plusHash 1 8 16 (fun _ => [1]) [3] [(0, 0, 16)] (by decide) (by decide)
    (by decide)

end CrdsFilterSet

end Solana.Gossip
