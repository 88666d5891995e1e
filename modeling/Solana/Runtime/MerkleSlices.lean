import Solana.Runtime.AccountsHash
import Solana.Lib.Run
import Solana.Lib.BinarySearch

/-! `compute_merkle_root_from_slices` over a getter of slices, and `CumulativeOffsets` as such a
getter: the function over slices is the one over the concatenation
(`computeMerkleRootFromSlices_eq`). -/

namespace Solana.AccountsHash

open Chunks

/-! ## `CumulativeOffsets` -/

structure CumulativeOffset where
  index : List ℕ
  startOffset : ℕ
  deriving DecidableEq, Repr

structure CumulativeOffsets where
  cumulativeOffsets : List CumulativeOffset
  totalCount : ℕ
  deriving DecidableEq, Repr

namespace CumulativeOffsets

variable {α : Type}

/-- The `filter_map` of `from_raw` with its running `total_count`: a non-empty vector gets an
offset where the vectors before it end. -/
def fromRawStep (acc : List CumulativeOffset × ℕ) (entry : List α × ℕ) :
    List CumulativeOffset × ℕ :=
  if 0 < entry.1.length then (acc.1 ++ [⟨[entry.2], acc.2⟩], acc.2 + entry.1.length) else acc

def fromRaw (raw : List (List α)) : CumulativeOffsets :=
  let (cumulativeOffsets, totalCount) := raw.zipIdx.foldl fromRawStep ([], 0)
  ⟨cumulativeOffsets, totalCount⟩

/-- `find_index`: the offset at `start`, or the last one before it. -/
def findIndex (self : CumulativeOffsets) (start : ℕ) : Option ℕ :=
  -- `assert!(!self.cumulative_offsets.is_empty())`
  if self.cumulativeOffsets = [] then none
  else
    match BinarySearch.binarySearchBy (fun offset => compare offset.startOffset start)
        self.cumulativeOffsets with
    | .ok index => some index
    -- `index - 1` wraps below the first offset
    | .error index => some (if index = 0 then u64Max else index - 1)

def find (self : CumulativeOffsets) (start : ℕ) : Option (ℕ × CumulativeOffset) := do
  let index ← self.findIndex start
  let index ← self.cumulativeOffsets[index]?
  pure (start - index.startOffset, index)

/-- `get_slice` over a `Vec<Vec<T>>`, through `extract`: the vector that holds hash `start`,
from that hash on. -/
def getSlice (self : CumulativeOffsets) (raw : List (List α)) (start : ℕ) :
    Option (List α) := do
  let (start, index) ← self.find start
  let i ← index.index[0]?
  let v ← raw[i]?
  if start ≤ v.length then pure (v.drop start) else none

end CumulativeOffsets

namespace Sliced

section Loops

variable (hashv : List Hash → Hash) (getHashSliceStartingAtIndex : ℕ → Option (List Hash))

/-- What the loop of a chunk reads from: `data`, the slice it has, and `data_index` into it. -/
structure Cursor where
  data : List Hash
  dataIndex : ℕ

/-- One read at hash `i`: a new slice from `i` once the one it has is used up, then the hash
at `data_index`. -/
def Cursor.next (i : ℕ) (cursor : Cursor) : Option (Hash × Cursor) := do
  let cursor ← if cursor.data.length ≤ cursor.dataIndex then
      (getHashSliceStartingAtIndex i).map fun data => ⟨data, 0⟩
    else some cursor
  let hash ← cursor.data[cursor.dataIndex]?
  pure (hash, ⟨cursor.data, cursor.dataIndex + 1⟩)

/-- `count` reads from hash `i` on: the loop of one level, and that of `hasher_k`. -/
def readHashes : ℕ → ℕ → Cursor → Option (List Hash × Cursor)
  | 0, _, cursor => some ([], cursor)
  | count + 1, i, cursor => do
    let (hash, cursor) ← cursor.next getHashSliceStartingAtIndex i
    let (hashes, cursor) ← readHashes count (i + 1) cursor
    pure (hash :: hashes, cursor)

/-- The `for _j in 0..fanout` loop, which stops once `i` reaches `end_index`: the hashes of
`hasher_k`, each over up to `fanout` hashes, and where `i` ends. -/
def hashJ (fanout endIndex : ℕ) : ℕ → ℕ → Cursor → Option (List Hash × ℕ × Cursor)
  | 0, i, cursor => some ([], i, cursor)
  | j + 1, i, cursor => do
    let end_ := min (endIndex - i) fanout
    let (hashes, cursor) ← readHashes getHashSliceStartingAtIndex end_ i cursor
    let i := i + end_
    if endIndex ≤ i then pure ([hashv hashes], i, cursor)
    else
      let (rest, i, cursor) ← hashJ fanout endIndex j i cursor
      pure (hashv hashes :: rest, i, cursor)

/-- Where the `j` loop leaves `i`: `j` times `fanout` on, or at `end_index`. -/
theorem hashJ_index {fanout endIndex : ℕ} :
    ∀ {j i : ℕ} {cursor : Cursor} {hashes : List Hash} {i' : ℕ} {cursor' : Cursor},
      hashJ hashv getHashSliceStartingAtIndex fanout endIndex j i cursor =
        some (hashes, i', cursor') → i ≤ endIndex → i' = min endIndex (i + fanout * j)
  | 0, i, cursor, hashes, i', cursor', h, hi => by
    simp only [hashJ, Option.some.injEq, Prod.mk.injEq] at h
    omega
  | j + 1, i, cursor, hashes, i', cursor', h, hi => by
    simp only [hashJ, Option.bind_eq_bind, Option.bind_eq_some_iff] at h
    obtain ⟨⟨read, cursor₁⟩, -, h⟩ := h
    dsimp only at h
    have hmul : fanout ≤ fanout * (j + 1) := Nat.le_mul_of_pos_right fanout (by omega)
    split_ifs at h with hend
    · simp only [Option.pure_def, Option.some.injEq, Prod.mk.injEq] at h
      omega
    · rcases hrest : hashJ hashv getHashSliceStartingAtIndex fanout endIndex j
        (i + min (endIndex - i) fanout) cursor₁ with _ | ⟨rest, i₁, cursor₂⟩
      · rw [hrest] at h
        cases h
      · rw [hrest] at h
        simp only [Option.bind, Option.pure_def, Option.some.injEq, Prod.mk.injEq] at h
        have hi₁ := hashJ_index hrest (by omega)
        rw [Nat.mul_succ]
        omega

/-- The `while i < end_index` loop: the hashes of `hasher_j`, each over up to `fanout ^ 2`
hashes. -/
def hashThreeLevels (fanout : Fanout) (endIndex : ℕ) (i : ℕ) (cursor : Cursor) :
    Option (List Hash × Cursor) :=
  if _hi : i < endIndex then
    match _hj : hashJ hashv getHashSliceStartingAtIndex fanout.val endIndex fanout.val i cursor with
    | some (hashes, i', cursor') => do
      let (rest, cursor) ← hashThreeLevels fanout endIndex i' cursor'
      pure (hashv hashes :: rest, cursor)
    | none => none
  else some ([], cursor)
termination_by endIndex - i
decreasing_by
  have hi' := hashJ_index hashv getHashSliceStartingAtIndex _hj _hi.le
  have hsquare : 0 < fanout.val * fanout.val := by
    have := fanout.two_le
    exact Nat.mul_pos (by omega) (by omega)
  omega

/-- The closure of `compute_merkle_root_from_slices` for chunk `i`: one level or three, over
the hashes from `i * num_hashes_per_chunk` to `end_index`, starting from the first slice. -/
def hashChunk (totalHashes : ℕ) (fanout : Fanout) (numHashesPerChunk : ℕ) (threeLevel : Bool)
    (data : List Hash) (i : ℕ) : Option Hash :=
  let startIndex := i * numHashesPerChunk
  let endIndex := min (startIndex + numHashesPerChunk) totalHashes
  let cursor : Cursor := ⟨data, startIndex⟩
  if !threeLevel then
    (readHashes getHashSliceStartingAtIndex (endIndex - startIndex) startIndex cursor).map
      fun (hashes, _) => hashv hashes
  else
    (hashThreeLevels hashv getHashSliceStartingAtIndex fanout endIndex startIndex cursor).map
      fun (hashes, _) => hashv hashes

end Loops

/-- The getter of `compute_merkle_root_from_slices_recurse`: `&hashes[start..]`. -/
def sliceFrom (hashes : List Hash) (start : ℕ) : Option (List Hash) :=
  if start ≤ hashes.length then some (hashes.drop start) else none

section Root

variable (hashv : List Hash → Hash)

mutual

/-- `compute_merkle_root_from_slices`, reading through `get_hash_slice_starting_at_index`. -/
def computeMerkleRootFromSlices (totalHashes : ℕ) (fanout : Fanout)
    (maxLevelsPerPass : Option ℕ) (getHashSliceStartingAtIndex : ℕ → Option (List Hash))
    (specificLevelCount : Option ℕ) : Option (Hash × List Hash) :=
  if totalHashes = 0 then some (hashv [], [])
  else do
    let chunking := calculateThreeLevelChunks totalHashes fanout.val maxLevelsPerPass
      specificLevelCount
    let chunks := chunkCount totalHashes chunking.1
    let data ← getHashSliceStartingAtIndex 0
    let result ← (List.range chunks).mapM
      (hashChunk hashv getHashSliceStartingAtIndex totalHashes fanout chunking.1 chunking.2.2 data)
    match specificLevelCount with
    | some specificLevelCountValue =>
      -- `specific_level_count_value -= levels_hashed` wraps below the levels hashed, and the
      -- recursion then goes on until the stack overflows
      if specificLevelCountValue < chunking.2.1 then none
      else if _hdone : specificLevelCountValue - chunking.2.1 = 0 then pure (0, result)
      else
        computeMerkleRootFromSlicesRecurse result fanout maxLevelsPerPass
          (some (specificLevelCountValue - chunking.2.1))
    | none => pure (rootOfLevel hashv result fanout, [])
termination_by (specificLevelCount.getD 0, 0)
decreasing_by
  have hpos : 0 < chunking.2.1 := levelsHashed_pos _ _ _ _
  generalize chunking.2.1 = levelsHashed at hpos _hdone ⊢
  simp only [Option.getD_some]
  exact Prod.Lex.left _ _ (by omega)

/-- `compute_merkle_root_from_slices_recurse`: the hashes as one slice. -/
def computeMerkleRootFromSlicesRecurse (hashes : List Hash) (fanout : Fanout)
    (maxLevelsPerPass : Option ℕ) (specificLevelCount : Option ℕ) : Option (Hash × List Hash) :=
  computeMerkleRootFromSlices hashes.length fanout maxLevelsPerPass (sliceFrom hashes)
    specificLevelCount
termination_by (specificLevelCount.getD 0, 1)
decreasing_by exact Prod.Lex.right _ (by decide)

end

end Root

/-! ## Reading through slices -/

/-- A getter of slices of `hashes`: from each index below their count, a non-empty slice of
the hashes from that index on. -/
def Reads (hashes : List Hash) (getHashSliceStartingAtIndex : ℕ → Option (List Hash)) : Prop :=
  ∀ start < hashes.length, ∃ slice, getHashSliceStartingAtIndex start = some slice ∧
    slice ≠ [] ∧ slice <+: hashes.drop start

/-- The cursor at hash `i`: its slice is the hashes from `i - data_index` on. -/
def Cursor.At (hashes : List Hash) (i : ℕ) (cursor : Cursor) : Prop :=
  cursor.dataIndex ≤ i ∧ cursor.data <+: hashes.drop (i - cursor.dataIndex)

section Reading

variable (hashv : List Hash → Hash) {hashes : List Hash}
  {getHashSliceStartingAtIndex : ℕ → Option (List Hash)}

/-- A read at hash `i` gives hash `i`, from the slice it has or from a new one. -/
theorem Cursor.next_spec (hreads : Reads hashes getHashSliceStartingAtIndex) {i : ℕ}
    {cursor : Cursor} (hat : cursor.At hashes i) (hi : i < hashes.length) :
    ∃ cursor', cursor.next getHashSliceStartingAtIndex i = some (hashes[i], cursor') ∧
      cursor'.At hashes (i + 1) := by
  obtain ⟨hle, hinit⟩ := hat
  by_cases hused : cursor.data.length ≤ cursor.dataIndex
  · obtain ⟨slice, hget, hne, hslice⟩ := hreads i hi
    have hpos : 0 < slice.length := List.length_pos_of_ne_nil hne
    have hhead : slice[0] = hashes[i] := by
      rw [hslice.getElem hpos]
      simp
    refine ⟨⟨slice, 1⟩, ?_, Nat.le_add_left 1 i, by simpa using hslice⟩
    simp [Cursor.next, hused, hget, List.getElem?_eq_getElem hpos, hhead]
  · have hlt : cursor.dataIndex < cursor.data.length := by omega
    have hread : cursor.data[cursor.dataIndex] = hashes[i] := by
      rw [hinit.getElem hlt]
      simp only [List.getElem_drop]
      congr 1
      omega
    refine ⟨⟨cursor.data, cursor.dataIndex + 1⟩, ?_, by dsimp only; omega, ?_⟩
    · simp [Cursor.next, hused, List.getElem?_eq_getElem hlt, hread]
    · show cursor.data <+: hashes.drop (i + 1 - (cursor.dataIndex + 1))
      rwa [Nat.add_sub_add_right]

/-- `count` reads from hash `i` give the `count` hashes from `i` on. -/
theorem readHashes_spec (hreads : Reads hashes getHashSliceStartingAtIndex) :
    ∀ (count : ℕ) {i : ℕ} {cursor : Cursor}, cursor.At hashes i → i + count ≤ hashes.length →
      ∃ cursor', readHashes getHashSliceStartingAtIndex count i cursor =
        some ((hashes.drop i).take count, cursor') ∧ cursor'.At hashes (i + count)
  | 0, i, cursor, hat, _ => ⟨cursor, by simp [readHashes], hat⟩
  | count + 1, i, cursor, hat, hlen => by
    obtain ⟨cursor₁, hnext, hat₁⟩ := Cursor.next_spec hreads hat (by omega)
    obtain ⟨cursor₂, hrest, hat₂⟩ := readHashes_spec hreads count hat₁ (by omega)
    have htake : (hashes.drop i).take (count + 1) =
        hashes[i] :: (hashes.drop (i + 1)).take count := by
      rw [List.drop_eq_getElem_cons (by omega : i < hashes.length), List.take_succ_cons]
    refine ⟨cursor₂, ?_, by rwa [show i + (count + 1) = i + 1 + count by omega]⟩
    rw [htake]
    simp [readHashes, hnext, hrest]

/-- The `j` loop from hash `i` hashes the hashes up to `end_index`, or `j` times `fanout` of
them, in chunks of `fanout`. -/
theorem hashJ_spec (hreads : Reads hashes getHashSliceStartingAtIndex) {fanout endIndex : ℕ}
    (hfanout : 0 < fanout) (hend : endIndex ≤ hashes.length) :
    ∀ (j : ℕ) {i : ℕ} {cursor : Cursor}, cursor.At hashes i → i < endIndex →
      ∃ cursor', hashJ hashv getHashSliceStartingAtIndex fanout endIndex j i cursor =
        some (mapChunks hashv fanout ((hashes.drop i).take (min (endIndex - i) (fanout * j))),
          min endIndex (i + fanout * j), cursor') ∧
        cursor'.At hashes (min endIndex (i + fanout * j))
  | 0, i, cursor, hat, hi => by
    have hmin : min endIndex (i + fanout * 0) = i := by omega
    rw [hmin]
    refine ⟨cursor, ?_, hat⟩
    simp [hashJ]
  | j + 1, i, cursor, hat, hi => by
    have hmul : fanout ≤ fanout * (j + 1) := Nat.le_mul_of_pos_right fanout (by omega)
    obtain ⟨cursor₁, hread, hat₁⟩ :=
      readHashes_spec hreads (min (endIndex - i) fanout) hat (by omega)
    have hfirst : min (min (endIndex - i) (fanout * (j + 1))) fanout =
        min (endIndex - i) fanout := by omega
    rw [mapChunks_take_eq_cons hashv hfanout (by omega) (by rw [List.length_drop]; omega),
      hfirst, List.drop_drop]
    by_cases hlast : endIndex ≤ i + min (endIndex - i) fanout
    · have hrest : min (endIndex - i) (fanout * (j + 1)) - fanout = 0 := by omega
      have hindex : min endIndex (i + fanout * (j + 1)) = i + min (endIndex - i) fanout := by
        omega
      refine ⟨cursor₁, ?_, hindex ▸ hat₁⟩
      simp [hashJ, hread, hlast, hrest, hindex]
    · have hm : min (endIndex - i) fanout = fanout := by omega
      rw [hm] at hread hat₁ hlast
      obtain ⟨cursor₂, hrest, hat₂⟩ := hashJ_spec hreads hfanout hend j hat₁ (by omega)
      have hcount : min (endIndex - i) (fanout * (j + 1)) - fanout =
          min (endIndex - (i + fanout)) (fanout * j) := by
        rw [Nat.mul_succ]
        omega
      have hindex : min endIndex (i + fanout + fanout * j) =
          min endIndex (i + fanout * (j + 1)) := by
        rw [Nat.mul_succ]
        omega
      refine ⟨cursor₂, ?_, hindex ▸ hat₂⟩
      simp [hashJ, hread, hm, hlast, hrest, hcount, hindex]

/-- The `while` loop from hash `i` hashes the hashes up to `end_index` in chunks of
`fanout ^ 2`, each through its chunks of `fanout`. -/
theorem hashThreeLevels_spec (hreads : Reads hashes getHashSliceStartingAtIndex)
    (fanout : Fanout) {endIndex : ℕ} (hend : endIndex ≤ hashes.length) {i : ℕ}
    {cursor : Cursor} (hat : cursor.At hashes i) (hi : i ≤ endIndex) :
    ∃ cursor', hashThreeLevels hashv getHashSliceStartingAtIndex fanout endIndex i cursor =
      some (mapChunks (fun chunk => hashv (mapChunks hashv fanout.val chunk))
        (fanout.val * fanout.val) ((hashes.drop i).take (endIndex - i)), cursor') := by
  induction hleft : endIndex - i using Nat.strong_induction_on generalizing i cursor with
  | _ left ih =>
  rw [← hleft]
  have hfanout : 0 < fanout.val := by have := fanout.two_le; omega
  have hsquare : 0 < fanout.val * fanout.val := Nat.mul_pos hfanout hfanout
  rw [hashThreeLevels]
  by_cases hlt : i < endIndex
  · obtain ⟨cursor₁, hj, hat₁⟩ := hashJ_spec hashv hreads hfanout hend fanout.val hat hlt
    rw [dif_pos hlt]
    split
    · rename_i hashesJ i' cursor' heq
      rw [hj, Option.some.injEq, Prod.mk.injEq, Prod.mk.injEq] at heq
      obtain ⟨rfl, rfl, rfl⟩ := heq
      obtain ⟨cursor₂, hrest⟩ := ih _ (by omega) hat₁ (by omega) rfl
      have hdrop : ((hashes.drop i).drop (fanout.val * fanout.val)).take
          (endIndex - i - fanout.val * fanout.val) =
          (hashes.drop (min endIndex (i + fanout.val * fanout.val))).take
            (endIndex - min endIndex (i + fanout.val * fanout.val)) := by
        rw [List.drop_drop]
        by_cases hwhole : i + fanout.val * fanout.val ≤ endIndex
        · rw [Nat.min_eq_right hwhole, Nat.sub_sub]
        · rw [Nat.min_eq_left (by omega), Nat.sub_self, show endIndex - i -
            fanout.val * fanout.val = 0 by omega, List.take_zero, List.take_zero]
      refine ⟨cursor₂, ?_⟩
      rw [mapChunks_take_eq_cons _ hsquare (by omega) (by rw [List.length_drop]; omega), hdrop]
      simp [hrest]
    · rename_i heq
      rw [hj] at heq
      cases heq
  · have hend' : endIndex - i = 0 := by omega
    refine ⟨cursor, ?_⟩
    rw [dif_neg hlt, hend', List.take_zero, mapChunks_nil]

/-- A chunk's closure hashes the chunk: one level, or three through `threeLevelHash`. -/
theorem hashChunk_spec (hreads : Reads hashes getHashSliceStartingAtIndex) {totalHashes : ℕ}
    (htotal : totalHashes ≤ hashes.length) (fanout : Fanout) {numHashesPerChunk : ℕ}
    (threeLevel : Bool) {data : List Hash} (hdata : data <+: hashes) {i : ℕ}
    (hi : i * numHashesPerChunk < totalHashes) :
    hashChunk hashv getHashSliceStartingAtIndex totalHashes fanout numHashesPerChunk threeLevel
        data i =
      some ((if threeLevel then threeLevelHash hashv fanout.val else hashv)
        (((hashes.take totalHashes).drop (i * numHashesPerChunk)).take numHashesPerChunk)) := by
  have hat : Cursor.At hashes (i * numHashesPerChunk) ⟨data, i * numHashesPerChunk⟩ :=
    ⟨le_refl _, by simpa using hdata⟩
  have hchunk : ((hashes.take totalHashes).drop (i * numHashesPerChunk)).take numHashesPerChunk =
      (hashes.drop (i * numHashesPerChunk)).take
        (min (i * numHashesPerChunk + numHashesPerChunk) totalHashes -
          i * numHashesPerChunk) := by
    rw [List.drop_take, List.take_take]
    congr 1
    omega
  rw [hchunk]
  cases threeLevel with
  | false =>
    obtain ⟨cursor, hread, -⟩ := readHashes_spec hreads
      (min (i * numHashesPerChunk + numHashesPerChunk) totalHashes - i * numHashesPerChunk)
      hat (by omega)
    simp [hashChunk, hread]
  | true =>
    have hfanout : 0 < fanout.val := by have := fanout.two_le; omega
    have hend : min (i * numHashesPerChunk + numHashesPerChunk) totalHashes ≤ hashes.length :=
      Nat.le_trans (Nat.min_le_right _ _) htotal
    obtain ⟨cursor, hloop⟩ := hashThreeLevels_spec hashv hreads fanout hend hat (by omega)
    simp [hashChunk, hloop, threeLevelHash, mapChunks_mul hashv hashv hfanout hfanout]

end Reading

/-- `&hashes[start..]` reads a vector as one slice. -/
theorem reads_sliceFrom (hashes : List Hash) : Reads hashes (sliceFrom hashes) :=
  fun start hstart => ⟨hashes.drop start, if_pos hstart.le,
    List.ne_nil_of_length_pos (by rw [List.length_drop]; omega), List.prefix_refl _⟩

section Root

variable (hashv : List Hash → Hash)

/-- The chunks of a level, each read through the slices, are the chunks of the hashes. -/
theorem mapM_hashChunk {hashes : List Hash} {getHashSliceStartingAtIndex : ℕ → Option (List Hash)}
    (hreads : Reads hashes getHashSliceStartingAtIndex) {totalHashes : ℕ}
    (htotal : totalHashes ≤ hashes.length) (fanout : Fanout) (numHashesPerChunk : ℕ)
    (threeLevel : Bool) {data : List Hash} (hdata : data <+: hashes) :
    (List.range (chunkCount totalHashes numHashesPerChunk)).mapM
        (hashChunk hashv getHashSliceStartingAtIndex totalHashes fanout numHashesPerChunk
          threeLevel data) =
      some (if threeLevel then
          mapChunks (threeLevelHash hashv fanout.val) numHashesPerChunk (hashes.take totalHashes)
        else mapChunks hashv numHashesPerChunk (hashes.take totalHashes)) := by
  have hlevel : (if threeLevel then
        mapChunks (threeLevelHash hashv fanout.val) numHashesPerChunk (hashes.take totalHashes)
      else mapChunks hashv numHashesPerChunk (hashes.take totalHashes)) =
      mapChunks (if threeLevel then threeLevelHash hashv fanout.val else hashv) numHashesPerChunk
        (hashes.take totalHashes) := by
    cases threeLevel <;> rfl
  rw [hlevel, mapChunks, List.length_take_of_le htotal]
  exact Run.mapM_eq_some_map _ fun i hi =>
    hashChunk_spec hashv hreads htotal fanout threeLevel hdata
      (mul_lt_of_lt_chunkCount (List.mem_range.mp hi))

/-- Read through slices of the hashes, `compute_merkle_root_from_slices` computes what it does
over the hashes themselves, for every level count but zero. -/
theorem computeMerkleRootFromSlices_eq (fanout : Fanout) (maxLevelsPerPass : Option ℕ) :
    ∀ (specificLevelCount : Option ℕ) {hashes : List Hash}
      {getHashSliceStartingAtIndex : ℕ → Option (List Hash)} {totalHashes : ℕ},
      Reads hashes getHashSliceStartingAtIndex → totalHashes ≤ hashes.length →
      (∀ k ∈ specificLevelCount, 0 < k) →
      computeMerkleRootFromSlices hashv totalHashes fanout maxLevelsPerPass
          getHashSliceStartingAtIndex specificLevelCount =
        some (AccountsHash.computeMerkleRootFromSlices hashv totalHashes fanout maxLevelsPerPass
          hashes specificLevelCount) := by
  intro specificLevelCount
  induction hleft : specificLevelCount.getD 0 using Nat.strong_induction_on
    generalizing specificLevelCount with
  | _ left ih =>
  intro hashes getHashSliceStartingAtIndex totalHashes hreads htotal hpos
  rw [computeMerkleRootFromSlices, AccountsHash.computeMerkleRootFromSlices]
  by_cases hzero : totalHashes = 0
  · simp [hzero]
  rw [if_neg hzero, if_neg hzero]
  obtain ⟨data, hdata, -, hinit⟩ := hreads 0 (by omega)
  rw [List.drop_zero] at hinit
  set chunking := calculateThreeLevelChunks totalHashes fanout.val maxLevelsPerPass
    specificLevelCount with hchunking
  have hresult := mapM_hashChunk hashv hreads htotal fanout chunking.1 chunking.2.2 hinit
  simp only [hdata, hresult, Option.bind_eq_bind, Option.bind_some]
  cases specificLevelCount with
  | none => rfl
  | some k =>
    have hk : 0 < k := hpos k rfl
    have hle : chunking.2.1 ≤ k := by
      rw [hchunking]
      exact levelsHashed_le totalHashes fanout.val maxLevelsPerPass hk
    have hlevels : 0 < chunking.2.1 := levelsHashed_pos _ _ _ _
    dsimp only
    rw [if_neg (by omega)]
    by_cases hdone : k - chunking.2.1 = 0
    · rw [dif_pos hdone, dif_pos hdone]
      rfl
    · rw [dif_neg hdone, dif_neg hdone]
      unfold computeMerkleRootFromSlicesRecurse
      exact ih _ (by simp only [Option.getD_some] at hleft ⊢; omega) _ rfl
        (reads_sliceFrom _) (le_refl _) fun k' hk' => by
          rw [Option.mem_some_iff] at hk'
          omega

/-- Level count zero: `specific_level_count_value -= levels_hashed` wraps, and the run
aborts. -/
theorem computeMerkleRootFromSlices_zero (fanout : Fanout) (maxLevelsPerPass : Option ℕ)
    (getHashSliceStartingAtIndex : ℕ → Option (List Hash)) {totalHashes : ℕ}
    (htotal : totalHashes ≠ 0) :
    computeMerkleRootFromSlices hashv totalHashes fanout maxLevelsPerPass
      getHashSliceStartingAtIndex (some 0) = none := by
  have hpos := levelsHashed_pos totalHashes fanout.val maxLevelsPerPass (some 0)
  rw [computeMerkleRootFromSlices, if_neg htotal]
  cases getHashSliceStartingAtIndex 0 with
  | none => rfl
  | some data => simp [hpos]

end Root

end Sliced

/-! ## `from_raw` and `get_slice` -/

namespace CumulativeOffsets

variable {α : Type}

/-- The offsets `from_raw` gives the vectors from the `k`-th on, when those before hold `base`
hashes. -/
def offsetsFrom : List (List α) → ℕ → ℕ → List CumulativeOffset
  | [], _, _ => []
  | v :: vs, k, base =>
    if 0 < v.length then ⟨[k], base⟩ :: offsetsFrom vs (k + 1) (base + v.length)
    else offsetsFrom vs (k + 1) base

theorem foldl_fromRawStep :
    ∀ (raw : List (List α)) (k : ℕ) (acc : List CumulativeOffset × ℕ),
      (raw.zipIdx k).foldl fromRawStep acc =
        (acc.1 ++ offsetsFrom raw k acc.2, acc.2 + raw.flatten.length)
  | [], k, acc => by simp [offsetsFrom]
  | v :: vs, k, acc => by
    rw [List.zipIdx_cons, List.foldl_cons, foldl_fromRawStep vs (k + 1)]
    by_cases hv : 0 < v.length
    · simp [fromRawStep, offsetsFrom, hv, Nat.add_assoc]
    · have hnil : v = [] := List.eq_nil_of_length_eq_zero (by omega)
      simp [fromRawStep, offsetsFrom, hnil]

theorem fromRaw_eq (raw : List (List α)) :
    fromRaw raw = ⟨offsetsFrom raw 0 0, raw.flatten.length⟩ := by
  simp only [fromRaw, foldl_fromRawStep raw 0 ([], 0), List.nil_append,
    Nat.zero_add]

theorem le_startOffset_of_mem :
    ∀ {vs : List (List α)} {k base : ℕ} {offset : CumulativeOffset},
      offset ∈ offsetsFrom vs k base → base ≤ offset.startOffset
  | [], _, _, _, h => by simp [offsetsFrom] at h
  | v :: vs, k, base, offset, h => by
    unfold offsetsFrom at h
    split_ifs at h
    · rcases List.mem_cons.mp h with rfl | h
      · exact le_refl _
      · exact Nat.le_trans (Nat.le_add_right _ _) (le_startOffset_of_mem h)
    · exact le_startOffset_of_mem h

/-- The offsets around hash `start`: those of the vectors before the one that holds it, which
start before it, its own, and those after it, which start past `start`. -/
theorem offsetsFrom_split :
    ∀ (vs : List (List α)) (k base start : ℕ), base ≤ start →
      start < base + vs.flatten.length →
      ∃ before after j v, vs[j]? = some v ∧
        offsetsFrom vs k base =
          before ++ ⟨[k + j], base + (vs.take j).flatten.length⟩ :: after ∧
        base + (vs.take j).flatten.length ≤ start ∧
        start < base + (vs.take j).flatten.length + v.length ∧
        (∀ offset ∈ before, offset.startOffset < base + (vs.take j).flatten.length) ∧
        ∀ offset ∈ after, start < offset.startOffset
  | [], _, _, _, hle, hlt => by simp at hlt; omega
  | v :: vs, k, base, start, hle, hlt => by
    rw [List.flatten_cons, List.length_append] at hlt
    by_cases hv : 0 < v.length
    · by_cases hhere : start < base + v.length
      · refine ⟨[], offsetsFrom vs (k + 1) (base + v.length), 0, v, rfl, ?_, by simpa using hle,
          by simpa using hhere, by simp, fun offset hoffset => ?_⟩
        · simp [offsetsFrom, hv]
        · exact Nat.lt_of_lt_of_le hhere (le_startOffset_of_mem hoffset)
      · obtain ⟨before, after, j, v', hv', hsplit, hfrom, hto, hbefore, hafter⟩ :=
          offsetsFrom_split vs (k + 1) (base + v.length) start (by omega) (by omega)
        have hoffset : base + v.length + (vs.take j).flatten.length =
            base + ((v :: vs).take (j + 1)).flatten.length := by
          simp [Nat.add_assoc]
        rw [hoffset] at hsplit hfrom hto hbefore
        refine ⟨⟨[k], base⟩ :: before, after, j + 1, v', hv', ?_, hfrom, hto, ?_, hafter⟩
        · rw [offsetsFrom, if_pos hv, hsplit, Nat.add_right_comm, Nat.add_assoc k]
          rfl
        · intro offset hoffset'
          rcases List.mem_cons.mp hoffset' with rfl | hmem
          · simp only [List.take_succ_cons, List.flatten_cons, List.length_append]
            omega
          · exact hbefore offset hmem
    · have hnil : v = [] := List.eq_nil_of_length_eq_zero (by omega)
      subst hnil
      obtain ⟨before, after, j, v', hv', hsplit, hfrom, hto, hbefore, hafter⟩ :=
        offsetsFrom_split vs (k + 1) base start hle (by simpa using hlt)
      have hoffset : base + (vs.take j).flatten.length =
          base + (([] :: vs).take (j + 1)).flatten.length := by
        simp
      rw [hoffset] at hsplit hfrom hto hbefore
      refine ⟨before, after, j + 1, v', hv', ?_, hfrom, hto, hbefore, hafter⟩
      rw [offsetsFrom, if_neg hv, hsplit, Nat.add_right_comm, Nat.add_assoc k]

/-- `find` on offsets split around `start`: the offset of the vector that holds it. -/
theorem find_of_split {offsets before after : List CumulativeOffset} {offset : CumulativeOffset}
    {start : ℕ} (totalCount : ℕ) (hsplit : offsets = before ++ offset :: after)
    (hbefore : ∀ o ∈ before, o.startOffset < offset.startOffset)
    (hle : offset.startOffset ≤ start) (hafter : ∀ o ∈ after, start < o.startOffset) :
    (⟨offsets, totalCount⟩ : CumulativeOffsets).find start =
      some (start - offset.startOffset, offset) := by
  have hne : offsets ≠ [] := by simp [hsplit]
  have hat : offsets[before.length]? = some offset := by simp [hsplit]
  have hlows : ∀ o ∈ before, compare o.startOffset start = .lt := fun o ho =>
    compare_lt_iff_lt.mpr (lt_of_lt_of_le (hbefore o ho) hle)
  have hhighs : ∀ o ∈ after, compare o.startOffset start = .gt := fun o ho =>
    compare_gt_iff_gt.mpr (hafter o ho)
  rcases Nat.lt_or_eq_of_le hle with hlt | heq
  · have hsearch : BinarySearch.binarySearchBy (fun o => compare o.startOffset start) offsets =
        .error (before.length + 1) := by
      rw [hsplit, ← List.singleton_append, ← List.append_assoc]
      refine (BinarySearch.binarySearchBy_append_of_lt_gt (fun o ho => ?_) hhighs).trans (by simp)
      rcases List.mem_append.mp ho with ho | ho
      · exact hlows o ho
      · rw [List.mem_singleton.mp ho]
        exact compare_lt_iff_lt.mpr hlt
    simp [find, findIndex, hne, hsearch, hat]
  · have hsearch : BinarySearch.binarySearchBy (fun o => compare o.startOffset start) offsets =
        .ok before.length := by
      rw [hsplit]
      exact BinarySearch.binarySearchBy_append_cons_of_eq hlows (compare_eq_iff_eq.mpr heq) hhighs
    simp [find, findIndex, hne, hsearch, hat]

/-- `get_slice` over the vectors from `from_raw`: the rest of the vector that holds hash
`start`, which is where the concatenation goes on from `start`. -/
theorem getSlice_fromRaw (raw : List (List α)) {start : ℕ} (hstart : start < raw.flatten.length) :
    ∃ slice, (fromRaw raw).getSlice raw start = some slice ∧ slice ≠ [] ∧
      slice <+: raw.flatten.drop start := by
  obtain ⟨before, after, j, v, hv, hsplit, hfrom, hto, hbefore, hafter⟩ :=
    offsetsFrom_split raw 0 0 start (Nat.zero_le _) (by simpa using hstart)
  simp only [Nat.zero_add] at hsplit hfrom hto hbefore
  set offset := (raw.take j).flatten.length with hoffset
  have hfind := find_of_split raw.flatten.length hsplit hbefore hfrom hafter
  have hraw : raw.flatten = (raw.take j).flatten ++ (v ++ (raw.drop (j + 1)).flatten) := by
    have hj : j < raw.length := (List.getElem?_eq_some_iff.mp hv).1
    have hget : raw[j] = v := (List.getElem?_eq_some_iff.mp hv).2
    conv_lhs => rw [← List.take_append_drop j raw, List.drop_eq_getElem_cons hj]
    simp [hget]
  have hdrop : raw.flatten.drop start = v.drop (start - offset) ++ (raw.drop (j + 1)).flatten :=
    calc raw.flatten.drop start = (raw.flatten.drop offset).drop (start - offset) := by
          rw [List.drop_drop]
          congr 1
          omega
      _ = v.drop (start - offset) ++ (raw.drop (j + 1)).flatten := by
          rw [hraw, List.drop_left' hoffset.symm, List.drop_append_of_le_length (by omega)]
  refine ⟨v.drop (start - offset), ?_, ?_, ?_⟩
  · rw [fromRaw_eq, getSlice, hfind]
    simp [hv]
    omega
  · exact List.ne_nil_of_length_pos (by rw [List.length_drop]; omega)
  · rw [hdrop]
    exact List.prefix_append _ _

end CumulativeOffsets

/-- The slices of `calculate_hash` read the concatenation of the vectors. -/
theorem reads_getSlice (raw : List (List Hash)) :
    Sliced.Reads raw.flatten ((CumulativeOffsets.fromRaw raw).getSlice raw) :=
  fun _ hstart => CumulativeOffsets.getSlice_fromRaw raw hstart

/-! ## `calculate_hash` -/

section CalculateHash

variable (hashv : List Hash → Hash)

/-- `AccountsHash::calculate_hash`: the root of the vectors read through their
`CumulativeOffsets`, and the count of their hashes. -/
def calculateHash (hashes : List (List Hash)) : Option (Hash × ℕ) :=
  let cumulativeOffsets := CumulativeOffsets.fromRaw hashes
  let hashTotal := cumulativeOffsets.totalCount
  (Sliced.computeMerkleRootFromSlices hashv hashTotal merkleFanout none
    (cumulativeOffsets.getSlice hashes) none).map fun result => (result.1, hashTotal)

theorem totalCount_fromRaw (raw : List (List Hash)) :
    (CumulativeOffsets.fromRaw raw).totalCount = raw.flatten.length := by
  rw [CumulativeOffsets.fromRaw_eq]

/-- `calculate_hash` is the root of the concatenation, however it is split into vectors. -/
theorem calculateHash_eq (hashes : List (List Hash)) :
    calculateHash hashv hashes =
      some (computeMerkleRootRecurse hashv hashes.flatten merkleFanout, hashes.flatten.length) := by
  rw [calculateHash, totalCount_fromRaw, Sliced.computeMerkleRootFromSlices_eq hashv merkleFanout none none
    (reads_getSlice hashes) le_rfl (by simp), Option.map_some, computeMerkleRootFromSlices_none]

theorem computeMerkleRootFromSlices_fragments (fanout : Fanout) (maxLevelsPerPass : Option ℕ)
    (raw : List (List Hash)) :
    (Sliced.computeMerkleRootFromSlices hashv (CumulativeOffsets.fromRaw raw).totalCount fanout
        maxLevelsPerPass ((CumulativeOffsets.fromRaw raw).getSlice raw) none).map Prod.fst =
      some (computeMerkleRootRecurse hashv raw.flatten fanout) ∧
    ∀ k, 0 < k →
      (Sliced.computeMerkleRootFromSlices hashv (CumulativeOffsets.fromRaw raw).totalCount fanout
          maxLevelsPerPass ((CumulativeOffsets.fromRaw raw).getSlice raw) (some k)).map Prod.snd =
        some ((mapChunks hashv fanout.val)^[k] raw.flatten) := by
  rw [totalCount_fromRaw]
  refine ⟨?_, fun k hk => ?_⟩
  · rw [Sliced.computeMerkleRootFromSlices_eq hashv fanout maxLevelsPerPass none
      (reads_getSlice raw) le_rfl (by simp), Option.map_some, computeMerkleRootFromSlices_none]
  · have hpos : ∀ k' ∈ some k, 0 < k' := fun k' hk' => by
      rw [Option.mem_some_iff] at hk'
      omega
    rw [Sliced.computeMerkleRootFromSlices_eq hashv fanout maxLevelsPerPass (some k)
      (reads_getSlice raw) le_rfl hpos, Option.map_some,
      computeMerkleRootFromSlices_some hashv fanout maxLevelsPerPass hk, List.take_length]

theorem computeMerkleRootFromSlices_fragments_levelOne :
    0 < 1 ∧
      (Sliced.computeMerkleRootFromSlices List.sum
          (CumulativeOffsets.fromRaw [[1, 2], [], [3]]).totalCount merkleFanout none
          ((CumulativeOffsets.fromRaw [[1, 2], [], [3]]).getSlice [[1, 2], [], [3]])
          (some 1)).map Prod.snd =
        some ((mapChunks List.sum merkleFanout.val)^[1] [[1, 2], [], [3]].flatten) :=
  ⟨by decide,
    (computeMerkleRootFromSlices_fragments List.sum merkleFanout none [[1, 2], [], [3]]).2 1
      (by decide)⟩

/-- At level count zero the run over the fragments aborts, so it has no level to return. -/
theorem computeMerkleRootFromSlices_fragments_zero_aborts :
    Sliced.computeMerkleRootFromSlices List.sum
        (CumulativeOffsets.fromRaw [[1, 2], [], [3]]).totalCount merkleFanout none
        ((CumulativeOffsets.fromRaw [[1, 2], [], [3]]).getSlice [[1, 2], [], [3]]) (some 0) =
      none :=
  Sliced.computeMerkleRootFromSlices_zero List.sum merkleFanout none _ (by decide)

end CalculateHash

end Solana.AccountsHash