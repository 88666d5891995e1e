import Solana.Ledger.Entry
import Solana.Lib.Chunks
import Solana.Lib.FloorShare

/-! The SIMD, GPU and CPU paths of proof-of-history verification in `entry/src/entry.rs` all
report what `verify_cpu_generic` reports. -/

namespace Solana.Ledger

variable {Tx : Type} (H : PohHashes Tx)

/-- `poh_verify_many` of `perf-libs`, and its SIMD kernels `poh_verify_many_simd_avx2` and
`poh_verify_many_simd_avx512skx` on one chunk: each lane hashed as many times as its count. -/
def pohVerifyMany (hashes : List Hash) (numHashes : List ℕ) : List Hash :=
  List.zipWith (fun hash numHashes => Nat.repeat H.hash numHashes hash) hashes numHashes

/-- `compare_hashes`: the last step of an entry, on the hash its lane came to, against the
entry's hash. -/
def compareHashes (computedHash : Hash) (refEntry : Entry Tx) : Bool :=
  let actual :=
    if !refEntry.transactions.isEmpty then
      H.hashv computedHash (H.hashTransactions refEntry.transactions)
    else if 0 < refEntry.numHashes then H.hash computedHash
    else computedHash
  actual == refEntry.hash

/-- The last step `finish_verify` takes on a lane. -/
inductive VerifyAction where
  | mixin (hash : Hash)
  | tick
  | none

/-- A fresh `Poh::new(hash, None)` that records the mixin, ticks, or does nothing. -/
def VerifyAction.actual (action : VerifyAction) (hash : Hash) : Hash :=
  match action with
  | .mixin mixinHash => H.hashv hash mixinHash
  | .tick => H.hash hash
  | .none => hash

inductive EntryVerificationStatus where
  | failure
  | success
  | pending
  deriving DecidableEq

/-- What `finish_verify` is left to do: on the GPU path, the lanes the GPU thread hashes and
the last step and expected hash of each entry. -/
inductive DeviceVerificationData where
  | gpu (hashes : List Hash) (verifications : List (VerifyAction × Hash))
  | cpu

structure EntryVerificationState where
  verificationStatus : EntryVerificationStatus
  deviceVerificationData : DeviceVerificationData

/-- What the paths are chosen by: whether `perf-libs` is loaded (`perf_libs::api()`) and the
x86 features `verify_cpu` detects. -/
structure Platform where
  api : Bool
  hasAvx2 : Bool
  hasAvx512 : Bool

namespace EntrySlice

/-- The hash each entry starts from, the lanes of every fast path: the start hash, then the
hash of each entry but the last (`genesis.iter().chain(self).map(..).take(self.len())`). -/
def startHashes (startHash : Hash) (entries : List (Entry Tx)) : List Hash :=
  ((⟨0, startHash, []⟩ :: entries).map (·.hash)).take entries.length

/-- The state a path that computes on the CPU returns. -/
def cpuState (res : Bool) : EntryVerificationState :=
  ⟨if res then .success else .failure, .cpu⟩

/-- `verify_cpu_generic`. -/
def verifyCpuGeneric (startHash : Hash) (entries : List (Entry Tx)) : EntryVerificationState :=
  cpuState (Ledger.startVerify H startHash entries)

/-- The kernel `verify_cpu_x86_simd` calls for its lane width; `none` is its panic on any
other width. -/
def pohVerifyManySimd (simdLen : ℕ) (chunk : List Hash) (numHashes : List ℕ) :
    Option (List Hash) :=
  if simdLen = 8 ∨ simdLen = 16 then some (pohVerifyMany H chunk numHashes) else none

/-- Chunk `i` of `verify_cpu_x86_simd`: the kernel, then each entry of the chunk against its
lane. The last chunk may have lanes past the entries. -/
def checkChunk (entries : List (Entry Tx)) (simdLen : ℕ) (chunk : List Hash)
    (numHashes : List ℕ) (i : ℕ) : Option Bool := do
  let chunk ← pohVerifyManySimd H simdLen chunk numHashes
  let entryStart := i * simdLen
  let entryEnd := min (entryStart + simdLen) entries.length
  pure ((((entries.drop entryStart).take (entryEnd - entryStart)).zipIdx).all
    fun (refEntry, j) => compareHashes H (chunk.getD j 0) refEntry)

/-- `verify_cpu_x86_simd`: the lanes, zero past the entries up to a multiple of `simd_len`,
hashed and checked chunk by chunk. `none` is a panic: `/ simd_len` on a zero width, or the
kernel on a width other than 8 and 16. -/
def verifyCpuX86Simd (startHash : Hash) (entries : List (Entry Tx)) (simdLen : ℕ) :
    Option EntryVerificationState :=
  if simdLen = 0 then none
  else
    let alignedLen := (entries.length + simdLen - 1) / simdLen * simdLen
    let hashes :=
      startHashes startHash entries ++ List.replicate (alignedLen - entries.length) 0
    let numHashes :=
      entries.map (·.numHashes - 1) ++ List.replicate (alignedLen - entries.length) 0
    let hashesChunked := Chunks.mapChunks id simdLen hashes
    let numHashes := Chunks.mapChunks id simdLen numHashes
    let res := ((hashesChunked.zip numHashes).zipIdx).allM
      fun ((chunk, numHashes), i) => checkChunk H entries simdLen chunk numHashes i
    res.map cpuState

/-- `verify_cpu`: the widest SIMD path the CPU offers on a long enough slice, when `perf-libs`
is loaded, and the generic path otherwise. -/
def verifyCpu (platform : Platform) (startHash : Hash) (entries : List (Entry Tx)) :
    Option EntryVerificationState :=
  if platform.api then
    if platform.hasAvx512 ∧ 128 ≤ entries.length then verifyCpuX86Simd H startHash entries 16
    else if platform.hasAvx2 ∧ 48 ≤ entries.length then verifyCpuX86Simd H startHash entries 8
    else some (verifyCpuGeneric H startHash entries)
  else some (verifyCpuGeneric H startHash entries)

/-- The last step of an entry as `start_verify` prepares it for `finish_verify`. -/
def verifyAction (entry : Entry Tx) : VerifyAction :=
  if entry.transactions.isEmpty then
    if entry.numHashes = 0 then .none else .tick
  else .mixin (H.hashTransactions entry.transactions)

/-- `start_verify`: without `perf-libs`, `verify_cpu`; with it, the lanes handed to the GPU
thread and the last step of each entry. The thread hashes the lanes in place, and
`finish_verify` joins it before it reads them, so the state holds them hashed. -/
def startVerify (platform : Platform) (startHash : Hash) (entries : List (Entry Tx)) :
    Option EntryVerificationState :=
  if !platform.api then verifyCpu H platform startHash entries
  else
    let numHashesVec := entries.map (·.numHashes - 1)
    let hashes := pohVerifyMany H (startHashes startHash entries) numHashesVec
    let verifications := entries.map fun entry => (verifyAction H entry, entry.hash)
    some ⟨.pending, .gpu hashes verifications⟩

/-- `finish_verify`: the last step of each entry on its lane, or the status the CPU path
reported. -/
def finishVerify (state : EntryVerificationState) : Bool × EntryVerificationState :=
  match state.deviceVerificationData with
  | .gpu hashes verifications =>
    let res := (hashes.zip verifications).all fun (hash, action, expected) =>
      action.actual H hash == expected
    (res, { state with verificationStatus := if res then .success else .failure })
  | .cpu => (state.verificationStatus == .success, state)

/-- `EntrySlice::verify`: `start_verify`, then `finish_verify`. -/
def verify (platform : Platform) (startHash : Hash) (entries : List (Entry Tx)) : Option Bool :=
  (startVerify H platform startHash entries).map fun state => (finishVerify H state).1

end EntrySlice

/-- `Entry::new`: a record of transactions takes at least one hash. -/
def Entry.new (prevHash : Hash) (numHashes : ℕ) (transactions : List Tx) : Entry Tx :=
  let numHashes := if numHashes = 0 ∧ !transactions.isEmpty then 1 else numHashes
  ⟨numHashes, Entry.nextHash H prevHash numHashes transactions, transactions⟩

/-- `next_entry_mut`: the entry `Entry::new` makes from `start`, and `start` moved to its
hash. -/
def nextEntryMut (start : Hash) (numHashes : ℕ) (transactions : List Tx) : Entry Tx × Hash :=
  let entry := Entry.new H start numHashes transactions
  (entry, entry.hash)

/-- The entries of successive `next_entry_mut` calls from `start`, as `create_ticks` makes
them. -/
def nextEntries (start : Hash) : List (ℕ × List Tx) → List (Entry Tx)
  | [] => []
  | (numHashes, transactions) :: requests =>
    let (entry, start) := nextEntryMut H start numHashes transactions
    entry :: nextEntries start requests

/-! ## The last step of an entry -/

section LastStep

variable (prevHash : Hash) (entry : Entry Tx)

/-- The last step on a lane hashed `num_hashes - 1` times from the hash the entry starts from
checks the entry against `next_hash`. -/
theorem compareHashes_repeat :
    compareHashes H (Nat.repeat H.hash (entry.numHashes - 1) prevHash) entry =
      entry.verify H prevHash := by
  unfold compareHashes Entry.verify Entry.nextHash
  by_cases htx : entry.transactions.isEmpty
  · by_cases hzero : entry.numHashes = 0
    · simp [htx, hzero, Nat.repeat, Bool.beq_eq_decide_eq, eq_comm]
    · simp [htx, hzero, Nat.pos_of_ne_zero hzero, Bool.beq_eq_decide_eq, eq_comm]
  · simp [htx, Bool.beq_eq_decide_eq, eq_comm]

/-- `finish_verify` takes the last step `compare_hashes` takes. -/
theorem actual_verifyAction (hash : Hash) :
    ((EntrySlice.verifyAction H entry).actual H hash == entry.hash) =
      compareHashes H hash entry := by
  unfold EntrySlice.verifyAction compareHashes
  by_cases htx : entry.transactions.isEmpty
  · by_cases hzero : entry.numHashes = 0
    · simp [htx, hzero, VerifyAction.actual]
    · simp [htx, hzero, Nat.pos_of_ne_zero hzero, VerifyAction.actual]
  · simp [htx, VerifyAction.actual]

end LastStep

namespace EntrySlice

/-! ## The lanes -/

section Lanes

variable (startHash : Hash) (entry : Entry Tx) (entries : List (Entry Tx))

@[simp] theorem startHashes_nil : startHashes startHash ([] : List (Entry Tx)) = [] := rfl

@[simp] theorem startHashes_cons :
    startHashes startHash (entry :: entries) = startHash :: startHashes entry.hash entries := by
  simp [startHashes]

@[simp] theorem length_startHashes : (startHashes startHash entries).length = entries.length := by
  simp [startHashes]

/-- Every entry's last step on its lane, hashed from the hash the entry starts from. -/
def lanesVerify : Bool :=
  ((pohVerifyMany H (startHashes startHash entries) (entries.map (·.numHashes - 1))).zip
    entries).all fun (hash, entry) => compareHashes H hash entry

theorem lanesVerify_cons :
    lanesVerify H startHash (entry :: entries) =
      (compareHashes H (Nat.repeat H.hash (entry.numHashes - 1) startHash) entry &&
        lanesVerify H entry.hash entries) := by
  simp [lanesVerify, pohVerifyMany]

/-- The lane check is `verify_cpu_generic`. -/
theorem lanesVerify_eq :
    lanesVerify H startHash entries = Ledger.startVerify H startHash entries := by
  induction entries generalizing startHash with
  | nil => rfl
  | cons entry entries ih =>
    rw [lanesVerify_cons, compareHashes_repeat, ih, Ledger.startVerify_cons]

end Lanes

/-! ## The paths -/

section Paths

variable (startHash : Hash) (entries : List (Entry Tx))

theorem finishVerify_cpuState (res : Bool) : (finishVerify H (cpuState res)).1 = res := by
  cases res <;> rfl

/-- What `finish_verify` computes from the lanes the GPU thread hashed is the lane check. -/
theorem finishVerify_gpu (status : EntryVerificationStatus) :
    (finishVerify H ⟨status, .gpu (pohVerifyMany H (startHashes startHash entries)
      (entries.map (·.numHashes - 1))) (entries.map fun entry => (verifyAction H entry,
        entry.hash))⟩).1 = lanesVerify H startHash entries := by
  simp only [finishVerify, lanesVerify, List.zip_map_right, List.all_map]
  congr 1
  funext lane
  exact actual_verifyAction H lane.2 lane.1

/-- Chunk `i` of the SIMD path, read from the padded lanes, is chunk `i` of the lane check. -/
theorem checkChunk_eq {simdLen : ℕ} (hsimd : simdLen = 8 ∨ simdLen = 16) {hashes : List Hash}
    {numHashes : List ℕ} (hlen : hashes.length = numHashes.length)
    (hcover : entries.length ≤ hashes.length) (i : ℕ) :
    checkChunk H entries simdLen ((hashes.drop (i * simdLen)).take simdLen)
        ((numHashes.drop (i * simdLen)).take simdLen) i =
      some ((((pohVerifyMany H hashes numHashes).zip entries).drop (i * simdLen)).take simdLen
        |>.all fun (hash, entry) => compareHashes H hash entry) := by
  have hlanes : (pohVerifyMany H hashes numHashes).length = hashes.length := by
    simp [pohVerifyMany, hlen]
  have hslice : (entries.drop (i * simdLen)).take
      (min (i * simdLen + simdLen) entries.length - i * simdLen) =
        (entries.drop (i * simdLen)).take simdLen := by
    rw [List.take_eq_take_iff, List.length_drop]
    omega
  simp only [checkChunk, pohVerifyManySimd, if_pos hsimd, Option.bind_eq_bind, Option.bind_some,
    hslice]
  rw [pohVerifyMany, ← List.take_zipWith, ← List.drop_zipWith, ← pohVerifyMany,
    Chunks.all_zipIdx_getD _ _ _ _ (by simp only [List.length_take, List.length_drop]; omega)]
  simp [List.zip, List.take_zipWith, List.drop_zipWith]

/-- Both SIMD widths report the result of `verify_cpu_generic`. -/
theorem verifyCpuX86Simd_eq {simdLen : ℕ} (hsimd : simdLen = 8 ∨ simdLen = 16) :
    verifyCpuX86Simd H startHash entries simdLen =
      some (verifyCpuGeneric H startHash entries) := by
  have hpos : 0 < simdLen := by omega
  have hcover := FloorShare.le_div_ceil_mul entries.length hpos
  set alignedLen := (entries.length + simdLen - 1) / simdLen * simdLen
  set hashes := startHashes startHash entries ++ List.replicate (alignedLen - entries.length) 0
  set numHashes :=
    entries.map (·.numHashes - 1) ++ List.replicate (alignedLen - entries.length) 0
  have hhashes : hashes.length = alignedLen := by
    simp only [hashes, List.length_append, length_startHashes, List.length_replicate]
    omega
  have hnum : numHashes.length = alignedLen := by
    simp only [numHashes, List.length_append, List.length_map, List.length_replicate]
    omega
  have hlanes : (pohVerifyMany H hashes numHashes).length = alignedLen := by
    simp [pohVerifyMany, hhashes, hnum]
  have hzip : (pohVerifyMany H hashes numHashes).zip entries =
      (pohVerifyMany H (startHashes startHash entries) (entries.map (·.numHashes - 1))).zip
        entries := by
    conv_lhs => rw [← List.append_nil entries]
    rw [pohVerifyMany, List.zipWith_append (by simp), List.zip_append (by simp), List.zip_nil_right,
      List.append_nil]
    rfl
  have hcount : Chunks.chunkCount hashes.length simdLen =
      Chunks.chunkCount ((pohVerifyMany H hashes numHashes).zip entries).length simdLen := by
    rw [hhashes, List.length_zip, hlanes, min_eq_right hcover,
      Chunks.chunkCount_div_ceil_mul _ hpos]
  unfold verifyCpuX86Simd
  rw [if_neg (by omega)]
  dsimp only
  rw [Chunks.zipIdx_zip_mapChunks (hhashes.trans hnum.symm),
    @Run.allM_eq_some _ _ (fun chunk => ((((pohVerifyMany H hashes numHashes).zip
      entries).drop (chunk.2 * simdLen)).take simdLen).all fun (hash, entry) =>
        compareHashes H hash entry) _ (by
      intro chunk hchunk
      obtain ⟨i, _, rfl⟩ := List.mem_map.mp hchunk
      exact checkChunk_eq H entries hsimd (hhashes.trans hnum.symm) (by omega) i)]
  have hchunks : ((List.range (Chunks.chunkCount hashes.length simdLen)).map fun i =>
      (((hashes.drop (i * simdLen)).take simdLen, (numHashes.drop (i * simdLen)).take simdLen),
        i)).all (fun chunk => ((((pohVerifyMany H hashes numHashes).zip entries).drop
          (chunk.2 * simdLen)).take simdLen).all fun (hash, entry) =>
            compareHashes H hash entry) =
      Ledger.startVerify H startHash entries := by
    calc _ = (Chunks.mapChunks (·.all fun (hash, entry) => compareHashes H hash entry) simdLen
            ((pohVerifyMany H hashes numHashes).zip entries)).all id := by
          rw [List.all_map, Chunks.mapChunks, List.all_map, hcount]
          rfl
      _ = ((pohVerifyMany H hashes numHashes).zip entries).all
            (fun (hash, entry) => compareHashes H hash entry) :=
          Chunks.all_mapChunks_all _ hpos _
      _ = Ledger.startVerify H startHash entries := by
          rw [hzip]
          exact lanesVerify_eq H startHash entries
  rw [hchunks]
  rfl

/-- `verify_cpu` reports the result of `verify_cpu_generic` on every platform. -/
theorem verifyCpu_eq (platform : Platform) :
    verifyCpu H platform startHash entries = some (verifyCpuGeneric H startHash entries) := by
  unfold verifyCpu
  split_ifs
  · exact verifyCpuX86Simd_eq H startHash entries (.inr rfl)
  · exact verifyCpuX86Simd_eq H startHash entries (.inl rfl)
  · rfl
  · rfl

/-- `start_verify` then `finish_verify` reports the result of `verify_cpu_generic` on every
platform: on the CPU through `verify_cpu`, on the GPU through the lane check. -/
theorem verify_eq (platform : Platform) :
    verify H platform startHash entries = some (Ledger.startVerify H startHash entries) := by
  unfold verify startVerify
  cases hapi : platform.api with
  | false =>
    simp only [Bool.not_false, if_true, verifyCpu_eq, Option.map_some, verifyCpuGeneric,
      finishVerify_cpuState]
  | true =>
    simp only [Bool.not_true, Bool.false_eq_true, if_false, Option.map_some]
    rw [finishVerify_gpu, lanesVerify_eq]

end Paths

end EntrySlice

/-! ## The entries `next_entry_mut` makes -/

theorem verify_new (prevHash : Hash) (numHashes : ℕ) (transactions : List Tx) :
    (Entry.new H prevHash numHashes transactions).verify H prevHash = true := by
  simp [Entry.new, Entry.verify]

/-- A chain of `next_entry_mut` calls from a hash passes the check from it. -/
theorem startVerify_nextEntries (start : Hash) (requests : List (ℕ × List Tx)) :
    startVerify H start (nextEntries H start requests) = true := by
  induction requests generalizing start with
  | nil => rfl
  | cons request requests ih =>
    obtain ⟨numHashes, transactions⟩ := request
    simp only [nextEntries, nextEntryMut]
    rw [startVerify_cons, verify_new, ih, Bool.and_self]

/-- `verify_cpu_generic` checks each entry against `next_hash` from the hash before it. -/
theorem startVerify_iff (startHash : Hash) (entries : List (Entry Tx)) :
    startVerify H startHash entries = true ↔
      ∀ k (hk : k < entries.length),
        Entry.nextHash H (if k = 0 then startHash else entries[k - 1].hash) entries[k].numHashes
          entries[k].transactions = entries[k].hash := by
  induction entries generalizing startHash with
  | nil => simp
  | cons entry entries ih =>
    rw [startVerify_cons, Bool.and_eq_true, ih, Entry.verify, decide_eq_true_eq]
    have hprev : ∀ k (hk : k < entries.length) (hk' : k < (entry :: entries).length),
        (entry :: entries)[k].hash = if k = 0 then entry.hash else entries[k - 1].hash := by
      intro k _ _
      cases k <;> simp
    constructor
    · rintro ⟨hfirst, hrest⟩ k hk
      cases k with
      | zero => exact hfirst.symm
      | succ k =>
        have hk' : k < entries.length := by simpa using hk
        simp only [List.getElem_cons_succ, Nat.add_one_ne_zero, if_false, Nat.add_sub_cancel,
          hprev k hk' (by simp; omega)]
        exact hrest k hk'
    · intro h
      refine ⟨(h 0 (by simp)).symm, fun k hk => ?_⟩
      have hnext := h (k + 1) (by simpa using hk)
      simp only [List.getElem_cons_succ, Nat.add_one_ne_zero, if_false, Nat.add_sub_cancel,
        hprev k hk (by simp; omega)] at hnext
      exact hnext

/-- The fast paths of proof-of-history verification agree with the sequential one. For any
entries and start hash, `verify_cpu_generic` succeeds exactly when the hash of each entry is
`next_hash` from the hash before it. `verify_cpu_x86_simd` with 8 and with 16 lanes returns
the state `verify_cpu_generic` returns. `start_verify` then `finish_verify` reports its result
on every platform. And the entries `next_entry_mut` makes from the start hash pass. -/
theorem pohVerification_agrees (platform : Platform) (startHash : Hash)
    (entries : List (Entry Tx)) :
    (startVerify H startHash entries = true ↔
      ∀ k (hk : k < entries.length),
        Entry.nextHash H (if k = 0 then startHash else entries[k - 1].hash) entries[k].numHashes
          entries[k].transactions = entries[k].hash) ∧
    EntrySlice.verifyCpuX86Simd H startHash entries 8 =
      some (EntrySlice.verifyCpuGeneric H startHash entries) ∧
    EntrySlice.verifyCpuX86Simd H startHash entries 16 =
      some (EntrySlice.verifyCpuGeneric H startHash entries) ∧
    EntrySlice.verify H platform startHash entries = some (startVerify H startHash entries) ∧
    ∀ requests, startVerify H startHash (nextEntries H startHash requests) = true :=
  ⟨startVerify_iff H startHash entries,
    EntrySlice.verifyCpuX86Simd_eq H startHash entries (.inl rfl),
    EntrySlice.verifyCpuX86Simd_eq H startHash entries (.inr rfl),
    EntrySlice.verify_eq H startHash entries platform,
    startVerify_nextEntries H startHash⟩

end Solana.Ledger
