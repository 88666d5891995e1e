import Solana.Sdk.Basic
import Solana.Lib.Chunks

/-! The passes of `calculate_accounts_hash_without_index` in `runtime/src/accounts_hash.rs`, with
`Hasher` a parameter: their root is the root of all their hashes (`scanAndHash_eq_merkleRoot`). -/

namespace Solana.AccountsHash

open Chunks MachineInt

/-- A Merkle fanout. The hashing divides by it and repeats until one hash is left, which
ends only for a fanout of at least two; the chunk sizes `fanout ^ 3` and `fanout ^ 4` are
`usize` products, exact only below `2 ^ 64`. -/
structure Fanout where
  val : ℕ
  two_le : 2 ≤ val
  fits : val ^ 4 < 2 ^ 64

/-- `MERKLE_FANOUT`. -/
def merkleFanout : Fanout := ⟨16, by decide, by decide⟩

section Hashing

variable (hashv : List Hash → Hash)

/-- `compute_merkle_root_loop` (and `compute_merkle_root_recurse`): the hashes of the chunks
of `fanout`, again, until one is left. -/
def computeMerkleRootRecurse (hashes : List Hash) (fanout : Fanout) : Hash :=
  if hempty : hashes = [] then hashv []
  else
    let result := mapChunks hashv fanout.val hashes
    if hone : result.length = 1 then result.get ⟨0, by omega⟩
    else computeMerkleRootRecurse result fanout
termination_by hashes.length
decreasing_by
  have hlen : 2 ≤ hashes.length := by
    have hpos := List.length_pos_of_ne_nil hempty
    by_contra hlt
    have hsingle : hashes.length ≤ fanout.val := by have := fanout.two_le; omega
    exact hone (by rw [length_mapChunks, chunkCount_of_le hpos hsingle])
  rw [length_mapChunks]
  exact chunkCount_lt fanout.two_le hlen

/-- The end of `compute_merkle_root_loop` and `compute_merkle_root_from_slices`, over a level
hashed already: its one hash, or the root of the level. -/
def rootOfLevel (result : List Hash) (fanout : Fanout) : Hash :=
  if hone : result.length = 1 then result.get ⟨0, by omega⟩
  else computeMerkleRootRecurse hashv result fanout

/-- `calculate_three_level_chunks`: the chunk size, the levels a chunk is hashed, and
whether three levels are hashed at once, which needs four levels of data. -/
def calculateThreeLevelChunks (totalHashes fanout : ℕ) (maxLevelsPerPass : Option ℕ)
    (specificLevelCount : Option ℕ) : ℕ × ℕ × Bool :=
  -- `usize` products, wrapping as in a release build
  let target := MachineInt.wrap 64 (fanout ^ 3)
  let threshold := MachineInt.wrap 64 (target * fanout)
  -- `usize::MAX` on a 64-bit target
  let threeLevel :=
    decide (3 ≤ maxLevelsPerPass.getD u64Max) && decide (threshold ≤ totalHashes)
  let threeLevel :=
    if threeLevel then
      match specificLevelCount with
      | some specificLevelCountValue => decide (3 ≤ specificLevelCountValue)
      | none => true
    else false
  if threeLevel then (target, 3, true) else (fanout, 1, false)

/-- The three-level loop of `compute_merkle_root_from_slices` over one chunk of
`fanout ^ 3`: `hasher_k` hashes `fanout` hashes, `hasher_j` `fanout` of those, `hasher` the
rest. -/
def threeLevelHash (fanout : ℕ) (chunk : List Hash) : Hash :=
  hashv (mapChunks hashv fanout (mapChunks hashv fanout chunk))

theorem calculateThreeLevelChunks_levels (totalHashes fanout : ℕ) (maxLevelsPerPass : Option ℕ)
    (specificLevelCount : Option ℕ) :
    ((calculateThreeLevelChunks totalHashes fanout maxLevelsPerPass specificLevelCount).2.1 = 3 ∧
      ∀ value ∈ specificLevelCount, 3 ≤ value) ∨
    (calculateThreeLevelChunks totalHashes fanout maxLevelsPerPass specificLevelCount).2.1 = 1 := by
  cases specificLevelCount <;>
    simp only [calculateThreeLevelChunks, Bool.and_eq_true, decide_eq_true_eq] <;>
    split_ifs <;> simp_all

theorem calculateThreeLevelChunks_cases (totalHashes : ℕ) {fanout : ℕ} (hfit : fanout ^ 4 < 2 ^ 64)
    (maxLevelsPerPass : Option ℕ) (specificLevelCount : Option ℕ) :
    (calculateThreeLevelChunks totalHashes fanout maxLevelsPerPass specificLevelCount =
        (fanout ^ 3, 3, true) ∧
      fanout ^ 3 * fanout ≤ totalHashes ∧ ∀ value ∈ specificLevelCount, 3 ≤ value) ∨
    calculateThreeLevelChunks totalHashes fanout maxLevelsPerPass specificLevelCount =
      (fanout, 1, false) := by
  have hcube : fanout ^ 3 < 2 ^ 64 := by
    rcases Nat.eq_zero_or_pos fanout with rfl | hpos
    · norm_num
    · exact lt_of_le_of_lt (Nat.pow_le_pow_right hpos (by norm_num)) hfit
  have hfour : fanout ^ 3 * fanout < 2 ^ 64 := by rwa [← pow_succ]
  cases specificLevelCount <;>
    simp only [calculateThreeLevelChunks, MachineInt.wrap, Nat.mod_eq_of_lt hcube,
      Nat.mod_eq_of_lt hfour, Bool.and_eq_true, decide_eq_true_eq] <;>
    split_ifs <;> simp_all

theorem levelsHashed_pos (totalHashes fanout : ℕ) (maxLevelsPerPass : Option ℕ)
    (specificLevelCount : Option ℕ) :
    0 < (calculateThreeLevelChunks totalHashes fanout maxLevelsPerPass
      specificLevelCount).2.1 := by
  rcases calculateThreeLevelChunks_levels totalHashes fanout maxLevelsPerPass
    specificLevelCount with ⟨h, -⟩ | h <;> simp [h]

/-- `compute_merkle_root_from_slices`: the hashes of the chunks of the first `totalHashes`
hashes, hashed on to the root, or, for a `specificLevelCount`, that many levels deep and
kept. -/
def computeMerkleRootFromSlices (totalHashes : ℕ) (fanout : Fanout)
    (maxLevelsPerPass : Option ℕ) (hashes : List Hash) (specificLevelCount : Option ℕ) :
    Hash × List Hash :=
  if totalHashes = 0 then (hashv [], [])
  else
    let chunking := calculateThreeLevelChunks totalHashes fanout.val maxLevelsPerPass
      specificLevelCount
    let data := hashes.take totalHashes
    let result :=
      if chunking.2.2 then mapChunks (threeLevelHash hashv fanout.val) chunking.1 data
      else mapChunks hashv chunking.1 data
    match specificLevelCount with
    | some specificLevelCountValue =>
      if _hdone : specificLevelCountValue - chunking.2.1 = 0 then (0, result)
      else
        computeMerkleRootFromSlices result.length fanout maxLevelsPerPass result
          (some (specificLevelCountValue - chunking.2.1))
    | none => (rootOfLevel hashv result fanout, [])
termination_by specificLevelCount.getD 0
decreasing_by
  have hpos : 0 < chunking.2.1 := levelsHashed_pos _ _ _ _
  generalize chunking.2.1 = levelsHashed at hpos _hdone ⊢
  simp only [Option.getD_some]
  omega

/-- The state `rest_of_hash_calculation` carries from a pass to the next. -/
structure PreviousPass where
  reducedHashes : List (List Hash)
  remainingUnhashed : List Hash
  lamports : ℕ

def PreviousPass.default : PreviousPass := ⟨[], [], 0⟩

/-- `rest_of_hash_calculation`, from the hashes of each bin and their lamports that
`de_dup_and_eliminate_zeros` returns for the pass. -/
def restOfHashCalculation (dedupHashes : List (List Hash)) (dedupLamports : ℕ)
    (isLastPass : Bool) (previousState : PreviousPass) : Hash × ℕ × PreviousPass :=
  -- the `u64` addition, wrapping as in a release build
  let totalLamports := wrappingAdd 64 dedupLamports previousState.lamports
  let hashes := if previousState.remainingUnhashed = [] then dedupHashes
    else previousState.remainingUnhashed :: dedupHashes
  let targetFanout := merkleFanout.val ^ 3
  let leftOverHashes := if isLastPass then 0 else hashes.flatten.length % targetFanout
  let hashTotal := hashes.flatten.length - leftOverHashes
  let remainingUnhashed := if isLastPass then [] else hashes.flatten.drop hashTotal
  let reducedHashes :=
    if hashTotal ≠ 0 ∧ (isLastPass = false ∨ previousState.reducedHashes ≠ []) then
      previousState.reducedHashes ++
        [(computeMerkleRootFromSlices hashv hashTotal merkleFanout (some 3) hashes.flatten
          (some 3)).2]
    else previousState.reducedHashes
  let noProgress := isLastPass && reducedHashes.isEmpty && !hashes.isEmpty
  let reducedHashes := if noProgress then hashes.filter (fun v => !v.isEmpty) else reducedHashes
  if isLastPass then
    let hash :=
      match reducedHashes.flatten, noProgress with
      | [single], false => single
      | flat, _ =>
        (computeMerkleRootFromSlices hashv flat.length merkleFanout none flat none).1
    (hash, totalLamports, PreviousPass.default)
  else (0, 0, ⟨reducedHashes, remainingUnhashed, totalLamports⟩)

/-- The hashes of a pass's bins and their lamports, as `de_dup_and_eliminate_zeros`
returns them. -/
structure Pass where
  hashes : List (List Hash)
  lamports : ℕ

/-- Passes that are not the last, each carrying its `PreviousPass` to the next. -/
def runPasses (passes : List Pass) (previousState : PreviousPass) : PreviousPass :=
  passes.foldl (fun previousState pass =>
    (restOfHashCalculation hashv pass.hashes pass.lamports false previousState).2.2)
    previousState

/-- `scan_and_hash` in `calculate_accounts_hash_without_index`: the passes in order from
`PreviousPass::default()`, the last with `is_last_pass`, and the hash and lamports of the
last. -/
def scanAndHash (passes : List Pass) (lastPass : Pass) : Hash × ℕ :=
  let result := restOfHashCalculation hashv lastPass.hashes lastPass.lamports true
    (runPasses hashv passes PreviousPass.default)
  (result.1, result.2.1)

/-! ## The Merkle root, level by level -/

@[simp] theorem computeMerkleRootRecurse_nil (fanout : Fanout) :
    computeMerkleRootRecurse hashv [] fanout = hashv [] := by
  rw [computeMerkleRootRecurse, dif_pos rfl]

/-- The root of a nonempty list, from its first level: the one hash, or the root of the
level. -/
theorem computeMerkleRootRecurse_eq_level {hashes : List Hash} (hne : hashes ≠ [])
    (fanout : Fanout) :
    computeMerkleRootRecurse hashv hashes fanout =
      rootOfLevel hashv (mapChunks hashv fanout.val hashes) fanout := by
  rw [computeMerkleRootRecurse, dif_neg hne]
  rfl

theorem rootOfLevel_of_length_ne {result : List Hash} (hlen : result.length ≠ 1)
    (fanout : Fanout) :
    rootOfLevel hashv result fanout = computeMerkleRootRecurse hashv result fanout :=
  dif_neg hlen

theorem rootOfLevel_singleton (root : Hash) (fanout : Fanout) :
    rootOfLevel hashv [root] fanout = root :=
  dif_pos rfl

theorem computeMerkleRootRecurse_of_level_ne {hashes : List Hash} {fanout : Fanout}
    (hne : hashes ≠ []) (hlevel : (mapChunks hashv fanout.val hashes).length ≠ 1) :
    computeMerkleRootRecurse hashv hashes fanout =
      computeMerkleRootRecurse hashv (mapChunks hashv fanout.val hashes) fanout := by
  rw [computeMerkleRootRecurse_eq_level hashv hne, rootOfLevel_of_length_ne hashv hlevel]

theorem mapChunks_threeLevelHash {fanout : ℕ} (hfanout : 0 < fanout) (hashes : List Hash) :
    mapChunks (threeLevelHash hashv fanout) (fanout ^ 3) hashes =
      (mapChunks hashv fanout)^[3] hashes :=
  mapChunks_pow hashv hfanout 2 hashes

/-- Either chunking hashes as many whole levels as it counts. -/
theorem mapChunks_chunking {fanout : ℕ} (hfanout : 0 < fanout) {chunking : ℕ × ℕ × Bool}
    (hchunking : chunking = (fanout ^ 3, 3, true) ∨ chunking = (fanout, 1, false))
    (data : List Hash) :
    (if chunking.2.2 then mapChunks (threeLevelHash hashv fanout) chunking.1 data
      else mapChunks hashv chunking.1 data) = (mapChunks hashv fanout)^[chunking.2.1] data := by
  rcases hchunking with rfl | rfl
  · exact mapChunks_threeLevelHash hashv hfanout data
  · rfl

theorem levelsHashed_le (totalHashes fanout : ℕ) (maxLevelsPerPass : Option ℕ) {k : ℕ}
    (hk : 0 < k) :
    (calculateThreeLevelChunks totalHashes fanout maxLevelsPerPass (some k)).2.1 ≤ k := by
  rcases calculateThreeLevelChunks_levels totalHashes fanout maxLevelsPerPass (some k) with
    ⟨h, hthree⟩ | h
  · simpa [h] using hthree k rfl
  · simp only [h]
    exact hk

/-- With a level count `k`, the first `totalHashes` hashes `k` levels up. -/
theorem computeMerkleRootFromSlices_some (fanout : Fanout) (maxLevelsPerPass : Option ℕ)
    {k : ℕ} (hk : 0 < k) (totalHashes : ℕ) (hashes : List Hash) :
    (computeMerkleRootFromSlices hashv totalHashes fanout maxLevelsPerPass hashes (some k)).2 =
      (mapChunks hashv fanout.val)^[k] (hashes.take totalHashes) := by
  induction k using Nat.strong_induction_on generalizing totalHashes hashes with
  | _ k ih =>
  rw [computeMerkleRootFromSlices]
  by_cases hzero : totalHashes = 0
  · simp [hzero, Function.iterate_fixed (mapChunks_nil hashv fanout.val)]
  have hfanout : 0 < fanout.val := by have := fanout.two_le; omega
  simp only [if_neg hzero]
  rw [mapChunks_chunking hashv hfanout ((calculateThreeLevelChunks_cases totalHashes fanout.fits
    maxLevelsPerPass (some k)).imp_left And.left)]
  have hle := levelsHashed_le totalHashes fanout.val maxLevelsPerPass hk
  have hpos := levelsHashed_pos totalHashes fanout.val maxLevelsPerPass (some k)
  generalize (calculateThreeLevelChunks totalHashes fanout.val maxLevelsPerPass
    (some k)).2.1 = levelsHashed at hle hpos ⊢
  split_ifs with hdone
  · rw [show levelsHashed = k by omega]
  · rw [ih (k - levelsHashed) (by omega) (by omega), List.take_length,
      ← Function.iterate_add_apply, Nat.sub_add_cancel hle]

/-- Three levels up a list of at least `fanout ^ 3` hashes, each level below has more than
one hash: its root is the root over the third level. -/
theorem computeMerkleRootRecurse_eq_rootOfLevel {hashes : List Hash} {fanout : Fanout}
    (hlen : fanout.val ^ 3 ≤ hashes.length) :
    computeMerkleRootRecurse hashv hashes fanout =
      rootOfLevel hashv ((mapChunks hashv fanout.val)^[3] hashes) fanout := by
  have hfanout := fanout.two_le
  have hsquare : 2 * 2 ≤ fanout.val ^ 2 := by
    rw [Nat.pow_two]
    exact Nat.mul_le_mul hfanout hfanout
  have hlevel : fanout.val ^ 2 ≤ (mapChunks hashv fanout.val hashes).length :=
    le_length_mapChunks hashv (by omega) (by rwa [← Nat.pow_succ'])
  have hlevel' : fanout.val ≤
      (mapChunks hashv fanout.val (mapChunks hashv fanout.val hashes)).length :=
    le_length_mapChunks hashv (by omega) (by rwa [← Nat.pow_two])
  have hne : hashes ≠ [] :=
    List.ne_nil_of_length_pos (Nat.lt_of_lt_of_le (Nat.pow_pos (by omega)) hlen)
  have hne' : mapChunks hashv fanout.val hashes ≠ [] := List.ne_nil_of_length_pos (by omega)
  have hne'' : mapChunks hashv fanout.val (mapChunks hashv fanout.val hashes) ≠ [] :=
    List.ne_nil_of_length_pos (by omega)
  have hone : (mapChunks hashv fanout.val hashes).length ≠ 1 := by omega
  have hone' : (mapChunks hashv fanout.val (mapChunks hashv fanout.val hashes)).length ≠ 1 := by
    omega
  rw [computeMerkleRootRecurse_of_level_ne hashv hne hone,
    computeMerkleRootRecurse_of_level_ne hashv hne' hone',
    computeMerkleRootRecurse_eq_level hashv hne'']
  rfl

/-- Without a level count, the root of the hashes. Three levels are hashed at once only
for four levels of data. -/
theorem computeMerkleRootFromSlices_none (fanout : Fanout) (maxLevelsPerPass : Option ℕ)
    (hashes : List Hash) :
    (computeMerkleRootFromSlices hashv hashes.length fanout maxLevelsPerPass hashes none).1 =
      computeMerkleRootRecurse hashv hashes fanout := by
  rw [computeMerkleRootFromSlices]
  by_cases hnil : hashes = []
  · simp [hnil]
  have hlen : hashes.length ≠ 0 := by simpa using hnil
  have hfanout := fanout.two_le
  simp only [if_neg hlen, List.take_length]
  rcases calculateThreeLevelChunks_cases hashes.length fanout.fits maxLevelsPerPass none with
    ⟨hchunking, henough, -⟩ | hchunking
  · have hcube : fanout.val ^ 3 ≤ hashes.length :=
      le_trans (Nat.le_mul_of_pos_right _ (by omega)) henough
    simp only [hchunking, if_true, mapChunks_threeLevelHash hashv (by omega : 0 < fanout.val)]
    exact (computeMerkleRootRecurse_eq_rootOfLevel hashv hcube).symm
  · simp only [hchunking]
    exact (computeMerkleRootRecurse_eq_level hashv hnil fanout).symm

/-! ## Passes -/

theorem flatten_insertRemaining (remainingUnhashed : List Hash)
    (dedupHashes : List (List Hash)) :
    (if remainingUnhashed = [] then dedupHashes else remainingUnhashed :: dedupHashes).flatten =
      remainingUnhashed ++ dedupHashes.flatten := by
  split_ifs with h
  · simp [h]
  · simp

/-- A pass that is not the last hashes three levels up the whole chunks of
`MERKLE_FANOUT ^ 3` of the hashes pending, those carried over and its own, and carries the
rest. -/
theorem restOfHashCalculation_not_last (dedupHashes : List (List Hash)) (dedupLamports : ℕ)
    (previousState : PreviousPass) {pending : List Hash} {hashTotal : ℕ}
    (hpending : pending = previousState.remainingUnhashed ++ dedupHashes.flatten)
    (hhashTotal : hashTotal = pending.length - pending.length % merkleFanout.val ^ 3) :
    restOfHashCalculation hashv dedupHashes dedupLamports false previousState =
      (0, 0, ⟨if hashTotal = 0 then previousState.reducedHashes
          else previousState.reducedHashes ++
            [(mapChunks hashv merkleFanout.val)^[3] (pending.take hashTotal)],
        pending.drop hashTotal, wrappingAdd 64 dedupLamports previousState.lamports⟩) := by
  simp only [restOfHashCalculation, Bool.false_eq_true, ↓reduceIte, flatten_insertRemaining,
    ← hpending, ← hhashTotal, ne_eq, true_or, and_true, ite_not, Bool.false_and,
    computeMerkleRootFromSlices_some hashv merkleFanout (some 3) (by decide : 0 < 3)]

/-- What the passes so far carry in a `PreviousPass`: of the hashes `seen`, a front `hashed`
of whole chunks of `MERKLE_FANOUT ^ 3` is hashed three levels up into `reducedHashes`, the
rest is `remainingUnhashed`, and the lamports are summed in `u64`. -/
structure Carried (seen hashed : List Hash) (lamports : ℕ) (state : PreviousPass) : Prop where
  append_remaining : seen = hashed ++ state.remainingUnhashed
  dvd_length : merkleFanout.val ^ 3 ∣ hashed.length
  reduced : state.reducedHashes.flatten = (mapChunks hashv merkleFanout.val)^[3] hashed
  reduced_eq_nil : state.reducedHashes = [] ↔ hashed = []
  lamports_eq : state.lamports = lamports % 2 ^ 64

theorem carried_default : Carried hashv [] [] 0 PreviousPass.default where
  append_remaining := rfl
  dvd_length := Nat.dvd_zero _
  reduced := (Function.iterate_fixed (mapChunks_nil hashv _) 3).symm
  reduced_eq_nil := iff_of_true rfl rfl
  lamports_eq := rfl

/-- A pass that is not the last keeps what it carries: the whole chunks of what is pending
join the front hashed, as their level-3 hashes join the reduced hashes. -/
theorem Carried.nextPass {seen hashed : List Hash} {lamports : ℕ}
    {state : PreviousPass} (hcarried : Carried hashv seen hashed lamports state)
    (dedupHashes : List (List Hash)) (dedupLamports : ℕ) :
    ∃ hashed', Carried hashv (seen ++ dedupHashes.flatten) hashed' (lamports + dedupLamports)
      (restOfHashCalculation hashv dedupHashes dedupLamports false state).2.2 := by
  obtain ⟨happend, hdvd, hreduced, hnil, hlamports⟩ := hcarried
  set pending := state.remainingUnhashed ++ dedupHashes.flatten with hpending
  set hashTotal := pending.length - pending.length % merkleFanout.val ^ 3 with hhashTotal
  rw [restOfHashCalculation_not_last hashv dedupHashes dedupLamports state hpending hhashTotal]
  have hdvd' : merkleFanout.val ^ 3 ∣ hashTotal := Nat.dvd_sub_mod pending.length
  have htake : (pending.take hashTotal).length = hashTotal :=
    List.length_take_of_le (Nat.sub_le _ _)
  refine ⟨hashed ++ pending.take hashTotal, ⟨?_, ?_, ?_, ?_, ?_⟩⟩
  · rw [happend, List.append_assoc, List.append_assoc, List.take_append_drop]
  · rw [List.length_append, htake]
    exact Nat.dvd_add hdvd hdvd'
  · dsimp only
    split_ifs with hzero
    · rw [hreduced, hzero, List.take_zero, List.append_nil]
    · rw [List.flatten_append, hreduced, List.flatten_singleton,
        mapChunks_iterate_append hashv (by decide) 3 hashed _ hdvd]
  · dsimp only
    split_ifs with hzero
    · rw [hnil, hzero, List.take_zero, List.append_nil]
    · have hne : pending.take hashTotal ≠ [] := List.ne_nil_of_length_pos (by omega)
      simp [hne]
  · simp only [wrappingAdd, wrap, hlamports, Nat.add_mod_mod, Nat.add_comm]

/-- The passes that are not the last, one after the other. -/
theorem Carried.runPasses (passes : List Pass) :
    ∀ {seen hashed : List Hash} {lamports : ℕ} {state : PreviousPass},
      Carried hashv seen hashed lamports state →
      ∃ hashed', Carried hashv (seen ++ passes.flatMap fun pass => pass.hashes.flatten) hashed'
        (lamports + (passes.map Pass.lamports).sum)
        (AccountsHash.runPasses hashv passes state) := by
  induction passes with
  | nil =>
    intro seen hashed lamports state hcarried
    exact ⟨hashed, by simpa [AccountsHash.runPasses] using hcarried⟩
  | cons pass passes ih =>
    intro seen hashed lamports state hcarried
    obtain ⟨hashed', hcarried'⟩ := hcarried.nextPass hashv pass.hashes pass.lamports
    obtain ⟨hashed'', hcarried''⟩ := ih hcarried'
    refine ⟨hashed'', ?_⟩
    simpa [AccountsHash.runPasses, List.append_assoc, Nat.add_assoc] using hcarried''

/-- The last pass hashes what it carries and its own hashes to the root. -/
theorem Carried.lastPass {seen hashed : List Hash} {lamports : ℕ}
    {state : PreviousPass} (hcarried : Carried hashv seen hashed lamports state)
    (dedupHashes : List (List Hash)) (dedupLamports : ℕ) :
    restOfHashCalculation hashv dedupHashes dedupLamports true state =
      (computeMerkleRootRecurse hashv (seen ++ dedupHashes.flatten) merkleFanout,
        (lamports + dedupLamports) % 2 ^ 64, PreviousPass.default) := by
  obtain ⟨happend, hdvd, hreduced, hnil, hlamports⟩ := hcarried
  have hseen : seen ++ dedupHashes.flatten =
      hashed ++ (state.remainingUnhashed ++ dedupHashes.flatten) := by
    rw [happend, List.append_assoc]
  have htotal :
      wrappingAdd 64 dedupLamports state.lamports = (lamports + dedupLamports) % 2 ^ 64 := by
    simp only [wrappingAdd, wrap, hlamports, Nat.add_mod_mod, Nat.add_comm]
  set pending := state.remainingUnhashed ++ dedupHashes.flatten with hpending
  set bins := if state.remainingUnhashed = [] then dedupHashes
    else state.remainingUnhashed :: dedupHashes with hbins
  have hbins_flatten : bins.flatten = pending := flatten_insertRemaining _ _
  simp only [AccountsHash.restOfHashCalculation, ↓reduceIte, ← hbins, hbins_flatten,
    Nat.sub_zero, Bool.true_eq_false, false_or, Bool.true_and, hseen, htotal, Prod.mk.injEq,
    and_true,
    computeMerkleRootFromSlices_some hashv merkleFanout (some 3) (by decide : 0 < 3),
    List.take_length]
  by_cases hR : state.reducedHashes = []
  · obtain rfl : hashed = [] := hnil.mp hR
    simp only [hR, ne_eq, not_true_eq_false, and_false, ↓reduceIte, List.isEmpty_nil,
      Bool.true_and, List.nil_append]
    have hflat : (if (!bins.isEmpty) = true then bins.filter (fun v => !v.isEmpty)
        else []).flatten = pending := by
      by_cases hempty : bins = []
      · rw [← hbins_flatten, hempty]
        rfl
      · simp [hempty, List.flatten_filter_not_isEmpty, hbins_flatten]
    rw [hflat]
    split
    · rename_i single hsingle hprogress
      have hempty : bins = [] := by simpa using hprogress
      rw [← hbins_flatten, hempty] at hsingle
      cases hsingle
    · exact computeMerkleRootFromSlices_none hashv merkleFanout none pending
  · have hne : hashed ≠ [] := fun hempty => hR (hnil.mpr hempty)
    have hlen : merkleFanout.val ^ 3 ≤ (hashed ++ pending).length := by
      rw [List.length_append]
      exact le_trans (Nat.le_of_dvd (List.length_pos_of_ne_nil hne) hdvd)
        (Nat.le_add_right _ _)
    have hprogress : (if ¬pending.length = 0 then
        state.reducedHashes ++ [(mapChunks hashv merkleFanout.val)^[3] pending]
        else state.reducedHashes).isEmpty = false := by
      split_ifs <;> simp [hR]
    have hflat : (if ¬pending.length = 0 then
        state.reducedHashes ++ [(mapChunks hashv merkleFanout.val)^[3] pending]
        else state.reducedHashes).flatten =
          (mapChunks hashv merkleFanout.val)^[3] (hashed ++ pending) := by
      rw [mapChunks_iterate_append hashv (by decide) 3 hashed pending hdvd]
      split_ifs with hzero
      · rw [List.length_eq_zero_iff.mp hzero, hreduced,
          Function.iterate_fixed (mapChunks_nil hashv _) 3, List.append_nil]
      · rw [List.flatten_append, hreduced, List.flatten_singleton]
    simp only [ne_eq, hR, not_false_eq_true, and_true, hprogress, Bool.false_and,
      Bool.false_eq_true, ↓reduceIte, hflat]
    rw [computeMerkleRootRecurse_eq_rootOfLevel hashv hlen]
    split
    · rename_i single hsingle _
      rw [hsingle, rootOfLevel_singleton]
    · rename_i hnot
      have hone : ((mapChunks hashv merkleFanout.val)^[3] (hashed ++ pending)).length ≠ 1 :=
        fun hone => by
          obtain ⟨single, hsingle⟩ := List.length_eq_one_iff.mp hone
          exact hnot single hsingle rfl
      rw [computeMerkleRootFromSlices_none, rootOfLevel_of_length_ne hashv hone]

/-- Hashing in passes gives the Merkle root of the hashes of all the passes, in order, and
the sum of their lamports in `u64`, wherever the passes begin and end. -/
theorem scanAndHash_eq_merkleRoot (passes : List Pass) (lastPass : Pass) :
    scanAndHash hashv passes lastPass =
      (computeMerkleRootRecurse hashv
          ((passes ++ [lastPass]).flatMap fun pass => pass.hashes.flatten) merkleFanout,
        ((passes ++ [lastPass]).map Pass.lamports).sum % 2 ^ 64) := by
  obtain ⟨hashed, hcarried⟩ := (carried_default hashv).runPasses hashv passes
  simp only [scanAndHash, hcarried.lastPass hashv, List.nil_append, Nat.zero_add,
    List.flatMap_append, List.map_append, List.sum_append, List.flatMap_singleton,
    List.map_singleton, List.sum_singleton]

end Hashing

/-- A pass with `u64::MAX` lamports and a last pass with one more: the `u64` addition across
passes wraps, and the result holds no lamports. -/
theorem scanAndHash_lamports_wrap :
    let passes : List Pass := [⟨[[1]], 2 ^ 64 - 1⟩]
    let lastPass : Pass := ⟨[[2]], 1⟩
    ((passes ++ [lastPass]).map Pass.lamports).sum = 2 ^ 64 ∧
      (scanAndHash List.sum passes lastPass).2 = 0 := by
  decide +kernel

end Solana.AccountsHash
