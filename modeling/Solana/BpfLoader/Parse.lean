import Solana.BpfLoader.Layout

/-! What `entrypoint::deserialize` and its deprecated twin read back from the loader's layouts
(`Entrypoint.deserializeAccount_original`, `Entrypoint.deserializeAccount_duplicate`). -/

namespace Solana.BpfLoader

open Bytes

/-! ## Reads at a cursor -/

section Cursor

variable {input rest : List UInt8} {offset : ℕ}

/-- Past a field, the cursor sees what follows it. -/
theorem drop_add_of_drop (front : List UInt8) (h : input.drop offset = front ++ rest) :
    input.drop (offset + front.length) = rest := by
  rw [← List.drop_drop, h, List.drop_left]

theorem add_length_le_of_drop {front : List UInt8} (h : input.drop offset = front ++ rest)
    (hne : front ++ rest ≠ []) : offset + front.length ≤ input.length := by
  have hlen := congrArg List.length h
  have hpos := List.length_pos_of_ne_nil hne
  rw [List.length_drop, List.length_append] at hlen
  rw [List.length_append] at hpos
  omega

theorem readU8_drop {b : UInt8} (h : input.drop offset = b :: rest) :
    readU8 input offset = some b.toNat ∧ input.drop (offset + 1) = rest := by
  have hget : input[offset]? = (input.drop offset)[0]? := by
    rw [List.getElem?_drop, Nat.add_zero]
  refine ⟨?_, drop_add_of_drop [b] h⟩
  rw [readU8, hget, h]
  rfl

theorem slice_drop {bytes : List UInt8} (h : input.drop offset = bytes ++ rest)
    (hne : bytes ++ rest ≠ []) : slice input offset (offset + bytes.length) = some bytes := by
  rw [slice, if_pos ⟨Nat.le_add_right _ _, add_length_le_of_drop h hne⟩, h,
    Nat.add_sub_cancel_left, List.take_left]

theorem toLE_append_ne_nil {w : ℕ} (hw : 0 < w) (n : ℕ) (rest : List UInt8) :
    toLE w n ++ rest ≠ [] :=
  List.ne_nil_of_length_pos (by simp only [List.length_append, length_toLE]; omega)

theorem readU64_drop {n : ℕ} (h : input.drop offset = toLE 8 n ++ rest) :
    readU64 input offset = some (n % 2 ^ 64) ∧ input.drop (offset + 8) = rest := by
  have hle := add_length_le_of_drop h (toLE_append_ne_nil (by decide) n rest)
  rw [length_toLE] at hle
  refine ⟨?_, drop_add_of_drop (toLE 8 n) h⟩
  rw [readU64, if_pos hle, h, List.take_left' (length_toLE 8 n), ofLE_toLE]

theorem readPubkey_drop {n : ℕ} (h : input.drop offset = toLE 32 n ++ rest) :
    readPubkey input offset = some (n % 2 ^ 256) ∧ input.drop (offset + 32) = rest := by
  have hslice := slice_drop h (toLE_append_ne_nil (by decide) n rest)
  rw [length_toLE] at hslice
  refine ⟨?_, drop_add_of_drop (toLE 32 n) h⟩
  rw [readPubkey, hslice, Option.map_some, ofLE_toLE]

end Cursor

/-- A flag written as a byte reads back as the flag. -/
@[simp] theorem decide_boolByte_toNat_ne_zero (b : Bool) : decide ((boolByte b).toNat ≠ 0) = b := by
  cases b <;> decide

/-! ## One entry -/

/-- The values of an account fit the widths the layouts give them: keys are 32 bytes, the
rest `u64`s. -/
structure BorrowedAccount.Fits (b : BorrowedAccount) : Prop where
  key_lt : b.key < 2 ^ 256
  lamports_lt : b.account.lamports < 2 ^ 64
  dataLength_lt : b.account.data.length < 2 ^ 64
  owner_lt : b.account.owner < 2 ^ 256
  rentEpoch_lt : b.account.rentEpoch < 2 ^ 64

/-- The `AccountInfo` of an account written in full at `offset` in the aligned layout: its
lamports lie 72 bytes in, its data 88. -/
def alignedInfo (b : BorrowedAccount) (offset : ℕ) : AccountInfo :=
  ⟨b.key, b.isSigner, b.isWritable, offset + 72, offset + 88, b.account.data.length,
    b.account.owner, b.account.executable, b.account.rentEpoch⟩

/-- The same in the unaligned layout, with the lamports 35 bytes in and the data 51. -/
def unalignedInfo (b : BorrowedAccount) (offset : ℕ) : AccountInfo :=
  ⟨b.key, b.isSigner, b.isWritable, offset + 35, offset + 51, b.account.data.length,
    b.account.owner, b.account.executable, b.account.rentEpoch⟩

section Entry

variable {input rest : List UInt8} {offset : ℕ} {accounts : List AccountInfo}

theorem Entrypoint.deserializeAccount_original {b : BorrowedAccount} (hb : b.Fits)
    (halign : bpfAlignOfU128 ∣ offset)
    (h : input.drop offset = (Entry.original b).alignedBytes ++ rest) :
    Entrypoint.deserializeAccount input accounts offset =
      some (accounts ++ [alignedInfo b offset],
        offset + (Entry.original b).alignedBytes.length) := by
  have hlength := Entry.length_alignedBytes_original b
  simp only [Entry.alignedBytes, List.append_assoc, List.cons_append, List.nil_append] at h
  obtain ⟨hdup, h⟩ := readU8_drop h
  obtain ⟨hsigner, h⟩ := readU8_drop h
  obtain ⟨hwritable, h⟩ := readU8_drop h
  obtain ⟨hexecutable, h⟩ := readU8_drop h
  have h : input.drop (offset + 1 + 1 + 1 + 1 + 4) = _ := drop_add_of_drop [0, 0, 0, 0] h
  obtain ⟨hkey, h⟩ := readPubkey_drop h
  obtain ⟨howner, h⟩ := readPubkey_drop h
  have h : input.drop (offset + 1 + 1 + 1 + 1 + 4 + 32 + 32 + 8) = _ :=
    drop_add_of_drop (toLE 8 b.account.lamports) h
  obtain ⟨hdataLen, h⟩ := readU64_drop h
  have h := drop_add_of_drop b.account.data h
  have h := drop_add_of_drop (List.replicate _ 0) h
  obtain ⟨hrent, -⟩ := readU64_drop h
  have hpad : offset + 1 + 1 + 1 + 1 + 4 + 32 + 32 + 8 + 8 + b.account.data.length +
      maxPermittedDataIncrease + alignOffset (offset + 1 + 1 + 1 + 1 + 4 + 32 + 32 + 8 + 8 +
        b.account.data.length + maxPermittedDataIncrease) bpfAlignOfU128 =
      offset + 1 + 1 + 1 + 1 + 4 + 32 + 32 + 8 + 8 + b.account.data.length +
        (List.replicate (maxPermittedDataIncrease +
          alignOffset b.account.data.length bpfAlignOfU128) (0 : UInt8)).length := by
    have hdvd : bpfAlignOfU128 ∣ offset + 88 + maxPermittedDataIncrease :=
      Nat.dvd_add (Nat.dvd_add halign ⟨11, rfl⟩) ⟨1280, rfl⟩
    have harg : offset + 1 + 1 + 1 + 1 + 4 + 32 + 32 + 8 + 8 + b.account.data.length +
        maxPermittedDataIncrease =
          offset + 88 + maxPermittedDataIncrease + b.account.data.length := by
      omega
    rw [harg, alignOffset_add_of_dvd hdvd, List.length_replicate]
    omega
  unfold Entrypoint.deserializeAccount
  simp only [Option.bind_eq_bind, Option.bind_some, Option.pure_def, hdup, hsigner, hwritable,
    hexecutable, hkey, howner, hdataLen, hpad, hrent,
    Nat.mod_eq_of_lt hb.key_lt, Nat.mod_eq_of_lt hb.owner_lt, Nat.mod_eq_of_lt hb.dataLength_lt,
    Nat.mod_eq_of_lt hb.rentEpoch_lt, decide_boolByte_toNat_ne_zero]
  rw [if_pos (show UInt8.toNat 255 = 255 from rfl), List.length_replicate, hlength]
  refine congrArg some (Prod.ext rfl ?_)
  dsimp only
  omega

/-- A duplicate's marker is its position, which no original's marker can be below 255. -/
theorem toNat_marker {position : ℕ} (hposition : position < 255) :
    (UInt8.ofNat position).toNat = position :=
  UInt8.toNat_ofNat_of_lt' (Nat.lt_trans hposition (by decide))

theorem Entrypoint.deserializeAccount_duplicate {position : ℕ} (hposition : position < 255)
    (hlt : position < accounts.length)
    (h : input.drop offset = (Entry.duplicate position).alignedBytes ++ rest) :
    Entrypoint.deserializeAccount input accounts offset =
      some (accounts ++ [accounts[position]],
        offset + (Entry.duplicate position).alignedBytes.length) := by
  simp only [Entry.alignedBytes, List.cons_append, List.nil_append] at h
  obtain ⟨hdup, -⟩ := readU8_drop h
  unfold Entrypoint.deserializeAccount
  simp only [Option.bind_eq_bind, Option.bind_some, Option.pure_def, hdup, toNat_marker hposition]
  rw [if_neg (Nat.ne_of_lt hposition), List.getElem?_eq_getElem hlt, Option.bind_some]
  rfl

/-- After the marker of an account in full, the program reads the owner 40 bytes in, with no
check that the input goes on that far. -/
theorem Entrypoint.deserializeAccount_of_short (hmarker : readU8 input offset = some 255)
    (hshort : input.length < offset + 72) :
    Entrypoint.deserializeAccount input accounts offset = none := by
  have howner : readPubkey input (offset + 1 + 1 + 1 + 1 + 4 + 32) = none := by
    rw [readPubkey, slice, if_neg (by omega)]
    rfl
  unfold Entrypoint.deserializeAccount
  simp only [Option.bind_eq_bind, Option.bind_some, hmarker, if_pos, howner, Option.bind_none,
    Option.bind_fun_none]

theorem EntrypointDeprecated.deserializeAccount_original {b : BorrowedAccount} (hb : b.Fits)
    (h : input.drop offset = (Entry.original b).unalignedBytes ++ rest) :
    EntrypointDeprecated.deserializeAccount input accounts offset =
      some (accounts ++ [unalignedInfo b offset],
        offset + (Entry.original b).unalignedBytes.length) := by
  have hlength := Entry.length_unalignedBytes_original b
  simp only [Entry.unalignedBytes, List.append_assoc, List.cons_append, List.nil_append] at h
  obtain ⟨hdup, h⟩ := readU8_drop h
  obtain ⟨hsigner, h⟩ := readU8_drop h
  obtain ⟨hwritable, h⟩ := readU8_drop h
  obtain ⟨hkey, h⟩ := readPubkey_drop h
  have h : input.drop (offset + 1 + 1 + 1 + 32 + 8) = _ :=
    drop_add_of_drop (toLE 8 b.account.lamports) h
  obtain ⟨hdataLen, h⟩ := readU64_drop h
  have h := drop_add_of_drop b.account.data h
  obtain ⟨howner, h⟩ := readPubkey_drop h
  obtain ⟨hexecutable, h⟩ := readU8_drop h
  obtain ⟨hrent, -⟩ := readU64_drop h
  unfold EntrypointDeprecated.deserializeAccount
  simp only [Option.bind_eq_bind, Option.bind_some, Option.pure_def, hdup, hsigner, hwritable,
    hkey, hdataLen, howner, hexecutable, hrent, Nat.mod_eq_of_lt hb.key_lt,
    Nat.mod_eq_of_lt hb.owner_lt, Nat.mod_eq_of_lt hb.dataLength_lt,
    Nat.mod_eq_of_lt hb.rentEpoch_lt, decide_boolByte_toNat_ne_zero]
  rw [if_pos (show UInt8.toNat 255 = 255 from rfl), hlength]
  refine congrArg some (Prod.ext rfl ?_)
  dsimp only
  omega

theorem EntrypointDeprecated.deserializeAccount_duplicate {position : ℕ}
    (hposition : position < 255) (hlt : position < accounts.length)
    (h : input.drop offset = (Entry.duplicate position).unalignedBytes ++ rest) :
    EntrypointDeprecated.deserializeAccount input accounts offset =
      some (accounts ++ [accounts[position]],
        offset + (Entry.duplicate position).unalignedBytes.length) := by
  simp only [Entry.unalignedBytes, List.cons_append, List.nil_append] at h
  obtain ⟨hdup, -⟩ := readU8_drop h
  unfold EntrypointDeprecated.deserializeAccount
  simp only [Option.bind_eq_bind, Option.bind_some, Option.pure_def, hdup, toNat_marker hposition]
  rw [if_neg (Nat.ne_of_lt hposition), List.getElem?_eq_getElem hlt, Option.bind_some]
  rfl

end Entry

/-! ## The cells -/

/-- An `AccountInfo` read from `input` carries the account `b`: its key, flags, owner and
rent epoch, and through its cells the account's lamports and data. -/
structure AccountInfo.Carries (input : List UInt8) (info : AccountInfo) (b : BorrowedAccount) :
    Prop where
  key_eq : info.key = b.key
  isSigner_eq : info.isSigner = b.isSigner
  isWritable_eq : info.isWritable = b.isWritable
  executable_eq : info.executable = b.account.executable
  owner_eq : info.owner = b.account.owner
  rentEpoch_eq : info.rentEpoch = b.account.rentEpoch
  lamports_eq : info.lamports input = some b.account.lamports
  data_eq : info.data input = some b.account.data

section Cells

variable {input rest : List UInt8} {offset : ℕ} {b : BorrowedAccount}

/-- The cells of an account's lamports and data, with the data followed by more input. -/
theorem carries_of_cells {info : AccountInfo} (hb : b.Fits) (hkey : info.key = b.key)
    (hsigner : info.isSigner = b.isSigner) (hwritable : info.isWritable = b.isWritable)
    (hexecutable : info.executable = b.account.executable)
    (howner : info.owner = b.account.owner) (hrent : info.rentEpoch = b.account.rentEpoch)
    (hdataLen : info.dataLen = b.account.data.length)
    (hlamports : input.drop info.lamportsAt = toLE 8 b.account.lamports ++ rest)
    (hdata : input.drop info.dataAt = b.account.data ++ rest') (hne : b.account.data ++ rest' ≠ []) :
    info.Carries input b where
  key_eq := hkey
  isSigner_eq := hsigner
  isWritable_eq := hwritable
  executable_eq := hexecutable
  owner_eq := howner
  rentEpoch_eq := hrent
  lamports_eq := by
    rw [AccountInfo.lamports, (readU64_drop hlamports).1, Nat.mod_eq_of_lt hb.lamports_lt]
  data_eq := by
    rw [AccountInfo.data, hdataLen, slice_drop hdata hne]

theorem carries_alignedInfo (hb : b.Fits)
    (h : input.drop offset = (Entry.original b).alignedBytes ++ rest) :
    (alignedInfo b offset).Carries input b := by
  simp only [Entry.alignedBytes, List.append_assoc] at h
  have h : input.drop (offset + 72) = _ := drop_add_of_drop (toLE 32 b.account.owner)
    (drop_add_of_drop (toLE 32 b.key) (drop_add_of_drop [255, boolByte b.isSigner,
      boolByte b.isWritable, boolByte b.account.executable, 0, 0, 0, 0] (by simpa using h)))
  have hdata : input.drop (offset + 88) = _ :=
    drop_add_of_drop (toLE 8 b.account.data.length)
      (drop_add_of_drop (toLE 8 b.account.lamports) h)
  exact carries_of_cells hb rfl rfl rfl rfl rfl rfl rfl h hdata
    (List.ne_nil_of_length_pos (by simp only [List.length_append, length_toLE]; omega))

theorem carries_unalignedInfo (hb : b.Fits)
    (h : input.drop offset = (Entry.original b).unalignedBytes ++ rest) :
    (unalignedInfo b offset).Carries input b := by
  simp only [Entry.unalignedBytes, List.append_assoc] at h
  have h : input.drop (offset + 35) = _ := drop_add_of_drop (toLE 32 b.key)
    (drop_add_of_drop [255, boolByte b.isSigner, boolByte b.isWritable] (by simpa using h))
  have hdata : input.drop (offset + 51) = _ :=
    drop_add_of_drop (toLE 8 b.account.data.length)
      (drop_add_of_drop (toLE 8 b.account.lamports) h)
  exact carries_of_cells hb rfl rfl rfl rfl rfl rfl rfl h hdata
    (List.ne_nil_of_length_pos (by simp only [List.length_append, length_toLE]; omega))

end Cells

/-! ## The accounts -/

/-- A loop that appends what each step reads, from the state after `m` steps, ends in the
state after `m + count` when each step of the run goes on to the next state. -/
theorem run_of_step {α : Type} {loop : ℕ → List α → ℕ → Option (List α × ℕ)}
    {step : List α → ℕ → Option (List α × ℕ)}
    (hzero : ∀ a o, loop 0 a o = some (a, o))
    (hsucc : ∀ c a o, loop (c + 1) a o = step a o >>= fun r => loop c r.1 r.2)
    (item : ℕ → α) (offsetAt : ℕ → ℕ) {n : ℕ}
    (hstep : ∀ m < n, step ((List.range m).map item) (offsetAt m) =
      some ((List.range (m + 1)).map item, offsetAt (m + 1))) :
    ∀ count m, m + count ≤ n →
      loop count ((List.range m).map item) (offsetAt m) =
        some ((List.range (m + count)).map item, offsetAt (m + count))
  | 0, m, _ => hzero _ _
  | count + 1, m, hle => by
    rw [hsucc, hstep m (by omega), Option.bind_eq_bind, Option.bind_some,
      show m + (count + 1) = m + 1 + count by omega]
    exact run_of_step hzero hsucc item offsetAt hstep count (m + 1) (by omega)

/-- Running `m + count` steps runs `m` and then `count` from where they end. -/
theorem loop_add {α : Type} {loop : ℕ → List α → ℕ → Option (List α × ℕ)}
    {step : List α → ℕ → Option (List α × ℕ)}
    (hzero : ∀ a o, loop 0 a o = some (a, o))
    (hsucc : ∀ c a o, loop (c + 1) a o = step a o >>= fun r => loop c r.1 r.2) (count : ℕ) :
    ∀ m a o, loop (m + count) a o = loop m a o >>= fun r => loop count r.1 r.2
  | 0, a, o => by rw [Nat.zero_add, hzero, Option.bind_eq_bind, Option.bind_some]
  | m + 1, a, o => by
    rw [Nat.add_right_comm, hsucc, hsucc, Option.bind_eq_bind, Option.bind_assoc]
    congr 1
    funext r
    exact loop_add hzero hsucc count m r.1 r.2

/-- The entry the loader writes at `position`: the account in full where it is first
named, and that position after. -/
def entryOf (first : ℕ → ℕ) (orig : ℕ → BorrowedAccount) (position : ℕ) : Entry :=
  if first position < position then .duplicate (first position) else .original (orig position)

/-- Where the entry at `position` starts. -/
def offsetOf (encode : Entry → List UInt8) (first : ℕ → ℕ) (orig : ℕ → BorrowedAccount)
    (position : ℕ) : ℕ :=
  8 + (((List.range position).map (entryOf first orig)).flatMap encode).length

/-- How the instruction accounts name their accounts: each names the first position of its
account, whose account fits its fields, and a later one names it by a marker below
`u8::MAX`. -/
structure FirstMentions (first : ℕ → ℕ) (orig : ℕ → BorrowedAccount) (n : ℕ) : Prop where
  first_le : ∀ k < n, first k ≤ k
  first_first : ∀ k < n, first (first k) = first k
  fits : ∀ k < n, first k = k → (orig k).Fits
  marker_lt : ∀ k < n, first k < k → first k < 255

section Run

variable {encode : Entry → List UInt8} {first : ℕ → ℕ} {orig : ℕ → BorrowedAccount}

@[simp] theorem offsetOf_zero : offsetOf encode first orig 0 = 8 := rfl

theorem offsetOf_succ (position : ℕ) :
    offsetOf encode first orig (position + 1) =
      offsetOf encode first orig position + (encode (entryOf first orig position)).length := by
  simp only [offsetOf, List.range_succ, List.map_append, List.flatMap_append, List.length_append,
    List.map_cons, List.map_nil, List.flatMap_cons, List.flatMap_nil, List.append_nil]
  omega

/-- Every entry takes room, so no two entries start at the same offset. -/
theorem offsetOf_injective (hpos : ∀ e, 0 < (encode e).length) :
    Function.Injective (offsetOf encode first orig) :=
  (strictMono_nat_of_lt_succ fun position => by
    rw [offsetOf_succ]
    exact Nat.lt_add_of_pos_right (hpos _)).injective

/-- The cursor at the start of an entry sees the entry. -/
theorem drop_offsetOf {n : ℕ} {input tail : List UInt8} {position : ℕ} (hposition : position < n)
    (h : input.drop 8 = ((List.range n).map (entryOf first orig)).flatMap encode ++ tail) :
    ∃ rest, input.drop (offsetOf encode first orig position) =
      encode (entryOf first orig position) ++ rest := by
  obtain ⟨more, rfl⟩ : ∃ more, n = position + 1 + more := ⟨n - (position + 1), by omega⟩
  rw [List.range_add, List.range_succ, List.map_append, List.map_append, List.flatMap_append,
    List.flatMap_append, List.append_assoc, List.append_assoc] at h
  have hdrop := drop_add_of_drop _ h
  simp only [List.map_cons, List.map_nil, List.flatMap_cons, List.flatMap_nil,
    List.append_nil] at hdrop
  exact ⟨_, hdrop⟩

/-- What the program sees at `position`: the `AccountInfo` of the account in full where it
was first named. -/
def infoAt (infoOf : BorrowedAccount → ℕ → AccountInfo) (encode : Entry → List UInt8)
    (first : ℕ → ℕ) (orig : ℕ → BorrowedAccount) (position : ℕ) : AccountInfo :=
  infoOf (orig (first position)) (offsetOf encode first orig (first position))

/-- The accounts loop of either entrypoint reads every entry back, given how its step reads
an account in full and a duplicate; `P` is what the step needs of an entry's offset. -/
theorem run_entries {n : ℕ} {input tail : List UInt8}
    {loop : ℕ → List AccountInfo → ℕ → Option (List AccountInfo × ℕ)}
    {step : List AccountInfo → ℕ → Option (List AccountInfo × ℕ)}
    {infoOf : BorrowedAccount → ℕ → AccountInfo} (P : ℕ → Prop)
    (hzero : ∀ a o, loop 0 a o = some (a, o))
    (hsucc : ∀ c a o, loop (c + 1) a o = step a o >>= fun r => loop c r.1 r.2)
    (horiginal : ∀ accounts offset b rest, b.Fits → P offset →
      input.drop offset = encode (.original b) ++ rest →
      step accounts offset = some (accounts ++ [infoOf b offset],
        offset + (encode (.original b)).length))
    (hduplicate : ∀ accounts offset position rest, position < 255 →
      (hlt : position < accounts.length) →
      input.drop offset = encode (.duplicate position) ++ rest →
      step accounts offset = some (accounts ++ [accounts[position]],
        offset + (encode (.duplicate position)).length))
    (hP : ∀ position, P (offsetOf encode first orig position))
    (hfirst : FirstMentions first orig n)
    (h : input.drop 8 = ((List.range n).map (entryOf first orig)).flatMap encode ++ tail) :
    loop n [] 8 = some ((List.range n).map (infoAt infoOf encode first orig),
      offsetOf encode first orig n) := by
  have hrun := run_of_step hzero hsucc (infoAt infoOf encode first orig)
    (offsetOf encode first orig) (n := n) ?_ n 0 (by omega)
  · simpa using hrun
  intro m hm
  obtain ⟨rest, hrest⟩ := drop_offsetOf hm h
  rw [List.range_succ, List.map_append, List.map_singleton, offsetOf_succ]
  by_cases hlt : first m < m
  · rw [entryOf, if_pos hlt] at hrest ⊢
    have hsame : infoAt infoOf encode first orig (first m) = infoAt infoOf encode first orig m := by
      simp only [infoAt, hfirst.first_first m hm]
    rw [hduplicate _ _ _ _ (hfirst.marker_lt m hm hlt) (by simpa using hlt) hrest,
      List.getElem_map, List.getElem_range, hsame]
  · have hself : first m = m := Nat.le_antisymm (hfirst.first_le m hm) (Nat.not_lt.mp hlt)
    rw [entryOf, if_neg hlt] at hrest ⊢
    rw [horiginal _ _ _ _ (hfirst.fits m hm hself) (hP m) hrest]
    simp only [infoAt, hself]

end Run

/-! ## The whole input -/

/-- Both entrypoints, after their accounts loop, read the instruction data and the program
id that follow the accounts. -/
theorem deserialize_tail {input data : List UInt8} {n offset : ℕ} {programKey : Pubkey}
    {loop : ℕ → List AccountInfo → ℕ → Option (List AccountInfo × ℕ)}
    {infos : List AccountInfo} (hcount : readU64 input 0 = some n)
    (hloop : loop n [] 8 = some (infos, offset))
    (h : input.drop offset = toLE 8 data.length ++ data ++ toLE 32 programKey)
    (hdata : data.length < 2 ^ 64) (hkey : programKey < 2 ^ 256) :
    (do
      let numAccounts ← readU64 input 0
      let (accounts, offset) ← loop numAccounts [] 8
      let instructionDataLen ← readU64 input offset
      let offset := offset + 8
      let instructionData ← slice input offset (offset + instructionDataLen)
      let offset := offset + instructionDataLen
      let programId ← readPubkey input offset
      pure (programId, accounts, instructionData)) = some (programKey, infos, data) := by
  rw [List.append_assoc] at h
  obtain ⟨hlen, h⟩ := readU64_drop h
  have hne : data ++ toLE 32 programKey ≠ [] :=
    List.ne_nil_of_length_pos (by simp only [List.length_append, length_toLE]; omega)
  have hslice := slice_drop h hne
  have h : input.drop (offset + 8 + data.length) = toLE 32 programKey ++ [] := by
    rw [List.append_nil]
    exact drop_add_of_drop data h
  obtain ⟨hprogram, -⟩ := readPubkey_drop h
  simp only [Option.bind_eq_bind, Option.bind_some, Option.pure_def, hcount, hloop, hlen,
    Nat.mod_eq_of_lt hdata, hslice, hprogram, Nat.mod_eq_of_lt hkey]

/-- Whole aligned entries keep what follows them aligned. -/
theorem dvd_length_flatMap_alignedBytes :
    ∀ es : List Entry, bpfAlignOfU128 ∣ (es.flatMap Entry.alignedBytes).length
  | [] => ⟨0, rfl⟩
  | e :: es => by
    rw [List.flatMap_cons, List.length_append]
    exact Nat.dvd_add (Entry.dvd_length_alignedBytes e) (dvd_length_flatMap_alignedBytes es)

theorem dvd_offsetOf_alignedBytes (first : ℕ → ℕ) (orig : ℕ → BorrowedAccount) (position : ℕ) :
    bpfAlignOfU128 ∣ offsetOf Entry.alignedBytes first orig position :=
  Nat.dvd_add ⟨1, rfl⟩ (dvd_length_flatMap_alignedBytes _)

section Input

variable {first : ℕ → ℕ} {orig : ℕ → BorrowedAccount} {n : ℕ} {ctx : InstructionContext}
  {programKey : Pubkey}

theorem drop_serializedInput {encode : Entry → List UInt8} {es : List Entry} :
    (serializedInput ctx encode es programKey).drop 8 = es.flatMap encode ++
      (toLE 8 ctx.instructionData.length ++ ctx.instructionData ++ toLE 32 programKey) := by
  simp only [serializedInput, List.append_assoc]
  exact List.drop_left' (length_toLE 8 _)

/-- The count at the front of the input, and the entries after it. -/
theorem readU64_serializedInput {encode : Entry → List UInt8} {es : List Entry}
    (hcount : ctx.instructionAccounts.length < 2 ^ 64) :
    readU64 (serializedInput ctx encode es programKey) 0 = some ctx.instructionAccounts.length ∧
      (serializedInput ctx encode es programKey).drop 8 = es.flatMap encode ++
        (toLE 8 ctx.instructionData.length ++ ctx.instructionData ++ toLE 32 programKey) := by
  have h : (serializedInput ctx encode es programKey).drop 0 =
      toLE 8 ctx.instructionAccounts.length ++ (es.flatMap encode ++
        (toLE 8 ctx.instructionData.length ++ ctx.instructionData ++ toLE 32 programKey)) := by
    simp only [serializedInput, List.drop_zero, List.append_assoc]
  obtain ⟨hread, hdrop⟩ := readU64_drop h
  exact ⟨by rw [hread, Nat.mod_eq_of_lt hcount], hdrop⟩

theorem Entrypoint.deserialize_serializedInput (hfirst : FirstMentions first orig n)
    (hn : ctx.instructionAccounts.length = n) (hcount : n < 2 ^ 64)
    (hdata : ctx.instructionData.length < 2 ^ 64) (hkey : programKey < 2 ^ 256) :
    Entrypoint.deserialize (serializedInput ctx Entry.alignedBytes
        ((List.range n).map (entryOf first orig)) programKey) =
      some (programKey, (List.range n).map (infoAt alignedInfo Entry.alignedBytes first orig),
        ctx.instructionData) := by
  set input := serializedInput ctx Entry.alignedBytes ((List.range n).map (entryOf first orig))
    programKey
  obtain ⟨hread, hdrop⟩ := (readU64_serializedInput (by omega) :
    readU64 input 0 = _ ∧ input.drop 8 = _)
  rw [hn] at hread
  have hloop : Entrypoint.deserializeAccounts input n [] 8 = _ := run_entries
    (bpfAlignOfU128 ∣ ·) (fun _ _ => rfl) (fun _ _ _ => rfl)
    (fun _ _ _ _ hb halign h => Entrypoint.deserializeAccount_original hb halign h)
    (fun _ _ _ _ hposition hlt h => Entrypoint.deserializeAccount_duplicate hposition hlt h)
    (dvd_offsetOf_alignedBytes first orig) hfirst hdrop
  exact deserialize_tail hread hloop (drop_add_of_drop _ hdrop) hdata hkey

/-- A duplicate of the account first named at position 255 gets the marker `u8::MAX` of an
account in full: when less than 24 bytes of instruction data follow it, the program reads
past the end of its input. -/
theorem Entrypoint.deserialize_marker_255 (hfirst : FirstMentions first orig n)
    (hlast : first n = 255) (hlt : 255 < n) (hn : ctx.instructionAccounts.length = n + 1)
    (hcount : n + 1 < 2 ^ 64) (hshort : ctx.instructionData.length < 24) :
    Entrypoint.deserialize (serializedInput ctx Entry.alignedBytes
        ((List.range (n + 1)).map (entryOf first orig)) programKey) = none := by
  obtain ⟨hread, hdrop⟩ := @readU64_serializedInput ctx programKey Entry.alignedBytes
    ((List.range (n + 1)).map (entryOf first orig)) (by omega)
  generalize serializedInput ctx Entry.alignedBytes
    ((List.range (n + 1)).map (entryOf first orig)) programKey = input at hread hdrop ⊢
  rw [hn] at hread
  have hentry : entryOf first orig n = .duplicate 255 := by rw [entryOf, hlast, if_pos hlt]
  rw [List.range_succ, List.map_append, List.map_singleton, List.flatMap_append,
    List.flatMap_singleton, hentry, List.append_assoc] at hdrop
  have hloop : Entrypoint.deserializeAccounts input n [] 8 = _ := run_entries
    (bpfAlignOfU128 ∣ ·) (fun _ _ => rfl) (fun _ _ _ => rfl)
    (fun _ _ _ _ hb halign h => Entrypoint.deserializeAccount_original hb halign h)
    (fun _ _ _ _ hposition hlt h => Entrypoint.deserializeAccount_duplicate hposition hlt h)
    (dvd_offsetOf_alignedBytes first orig) hfirst hdrop
  have hsplit : Entrypoint.deserializeAccounts input (n + 1) [] 8 =
      Entrypoint.deserializeAccounts input n [] 8 >>= fun r =>
        Entrypoint.deserializeAccounts input 1 r.1 r.2 :=
    loop_add (fun _ _ => rfl) (fun _ _ _ => rfl) 1 n [] 8
  have hat : input.drop (offsetOf Entry.alignedBytes first orig n) = _ := drop_add_of_drop _ hdrop
  have hlength := congrArg List.length hat
  simp only [List.length_drop, Entry.alignedBytes, List.length_append, List.length_cons,
    List.length_nil, length_toLE] at hlength
  simp only [Entry.alignedBytes, List.cons_append, List.nil_append] at hat
  obtain ⟨hmarker, -⟩ := readU8_drop hat
  have hone : Entrypoint.deserializeAccounts input 1
      ((List.range n).map (infoAt alignedInfo Entry.alignedBytes first orig))
      (offsetOf Entry.alignedBytes first orig n) = none := by
    rw [Entrypoint.deserializeAccounts, Entrypoint.deserializeAccount_of_short hmarker (by omega)]
    rfl
  simp only [Entrypoint.deserialize, Option.bind_eq_bind, hread, Option.bind_some, hsplit, hloop,
    hone, Option.bind_none]

theorem EntrypointDeprecated.deserialize_serializedInput (hfirst : FirstMentions first orig n)
    (hn : ctx.instructionAccounts.length = n) (hcount : n < 2 ^ 64)
    (hdata : ctx.instructionData.length < 2 ^ 64) (hkey : programKey < 2 ^ 256) :
    EntrypointDeprecated.deserialize (serializedInput ctx Entry.unalignedBytes
        ((List.range n).map (entryOf first orig)) programKey) =
      some (programKey, (List.range n).map (infoAt unalignedInfo Entry.unalignedBytes first orig),
        ctx.instructionData) := by
  set input := serializedInput ctx Entry.unalignedBytes ((List.range n).map (entryOf first orig))
    programKey
  obtain ⟨hread, hdrop⟩ := (readU64_serializedInput (by omega) :
    readU64 input 0 = _ ∧ input.drop 8 = _)
  rw [hn] at hread
  have hloop : EntrypointDeprecated.deserializeAccounts input n [] 8 = _ := run_entries
    (fun _ => True) (fun _ _ => rfl) (fun _ _ _ => rfl)
    (fun _ _ _ _ hb _ h => EntrypointDeprecated.deserializeAccount_original hb h)
    (fun _ _ _ _ hposition hlt h =>
      EntrypointDeprecated.deserializeAccount_duplicate hposition hlt h)
    (fun _ => trivial) hfirst hdrop
  exact deserialize_tail hread hloop (drop_add_of_drop _ hdrop) hdata hkey

end Input

end Solana.BpfLoader
