import Solana.Sdk.Basic
import Solana.Lib.SortedKeys
import Mathlib

/-! `Message::new_with_blockhash` of `sdk/program/src/message/legacy.rs`; the stable `sort_by` is
`List.insertionSort`, and `u8` casts and counters wrap. -/

namespace Solana.Sdk

open MachineInt

/-- `AccountMeta`: an account an instruction reads, and whether it must sign and be
writable. -/
structure AccountMeta where
  pubkey : Pubkey
  isSigner : Bool
  isWritable : Bool
  deriving DecidableEq, Repr

structure Instruction where
  programId : Pubkey
  accounts : List AccountMeta
  data : List ℕ
  deriving DecidableEq, Repr

/-- `CompiledInstruction`: the program and the accounts as indexes into the account keys. -/
structure CompiledInstruction where
  programIdIndex : ℕ
  accounts : List ℕ
  data : List ℕ
  deriving DecidableEq, Repr

structure MessageHeader where
  numRequiredSignatures : ℕ
  numReadonlySignedAccounts : ℕ
  numReadonlyUnsignedAccounts : ℕ
  deriving DecidableEq, Repr

structure Message where
  header : MessageHeader
  accountKeys : List Pubkey
  recentBlockhash : Hash
  instructions : List CompiledInstruction
  deriving DecidableEq, Repr

/-! ## Compiling instructions -/

/-- `position`: the index of the first equal key, cast to `u8`. -/
def position (keys : List Pubkey) (key : Pubkey) : Option ℕ :=
  (keys.findIdx? (· == key)).map (wrap 8)

def compileInstruction (ix : Instruction) (keys : List Pubkey) : Option CompiledInstruction := do
  let accounts ← ix.accounts.mapM fun accountMeta => position keys accountMeta.pubkey
  let programIdIndex ← position keys ix.programId
  pure ⟨programIdIndex, accounts, ix.data⟩

def compileInstructions (ixs : List Instruction) (keys : List Pubkey) :
    Option (List CompiledInstruction) :=
  ixs.mapM fun ix => compileInstruction ix keys

/-! ## Collecting the keys -/

/-- `get_program_ids`: the program ids in order, each once (the filter through a
`BTreeSet` keeps the first occurrence). -/
def getProgramIds (instructions : List Instruction) : List Pubkey :=
  instructions.foldl (fun ids ix => if ix.programId ∈ ids then ids else ids ++ [ix.programId]) []

/-- The order of the comparator of `get_keys`: a meta with a higher rank comes first, so
signers precede non-signers and, among those, writable metas precede read-only ones. -/
def AccountMeta.rank (m : AccountMeta) : ℕ :=
  (if m.isSigner then 2 else 0) + (if m.isWritable then 1 else 0)

/-- The `iter_mut().find(..)` of `get_keys`: the first meta with the key of `accountMeta`
gets `is_writable |= accountMeta.is_writable`; `none` when no meta has that key. -/
def promoteWritable (accountMeta : AccountMeta) : List AccountMeta → Option (List AccountMeta)
  | [] => none
  | x :: xs =>
    if x.pubkey = accountMeta.pubkey then
      some ({ x with isWritable := x.isWritable || accountMeta.isWritable } :: xs)
    else (promoteWritable accountMeta xs).map (x :: ·)

/-- The loop building `unique_metas`: a meta whose key is there promotes it, any other is
pushed. -/
def uniqueMetas (keysAndSigned : List AccountMeta) : List AccountMeta :=
  keysAndSigned.foldl (fun metas accountMeta =>
    match promoteWritable accountMeta metas with
    | some metas => metas
    | none => metas ++ [accountMeta]) []

structure InstructionKeys where
  signedKeys : List Pubkey
  unsignedKeys : List Pubkey
  numReadonlySignedAccounts : ℕ
  numReadonlyUnsignedAccounts : ℕ
  deriving DecidableEq, Repr

/-- The last loop of `get_keys`: signed and unsigned keys in order, with `u8` counters of
the read-only ones. -/
def splitKeys (metas : List AccountMeta) : InstructionKeys :=
  metas.foldl (fun keys accountMeta =>
    if accountMeta.isSigner then
      { keys with
        signedKeys := keys.signedKeys ++ [accountMeta.pubkey]
        numReadonlySignedAccounts :=
          if !accountMeta.isWritable then wrappingAdd 8 keys.numReadonlySignedAccounts 1
          else keys.numReadonlySignedAccounts }
    else
      { keys with
        unsignedKeys := keys.unsignedKeys ++ [accountMeta.pubkey]
        numReadonlyUnsignedAccounts :=
          if !accountMeta.isWritable then wrappingAdd 8 keys.numReadonlyUnsignedAccounts 1
          else keys.numReadonlyUnsignedAccounts }) ⟨[], [], 0, 0⟩

/-- The metas `get_keys` sorts and then deduplicates: those of every instruction and a
read-only one for each program id, signers first, with the payer's in front. -/
def keysAndSigned (instructions : List Instruction) (payer : Option Pubkey) : List AccountMeta :=
  let programs : List AccountMeta :=
    (getProgramIds instructions).map fun programId => ⟨programId, false, false⟩
  let sorted := (instructions.flatMap Instruction.accounts ++ programs).insertionSort
    (fun x y => y.rank ≤ x.rank)
  match payer with
  | some payer => ⟨payer, true, true⟩ :: sorted
  | none => sorted

def getKeys (instructions : List Instruction) (payer : Option Pubkey) : InstructionKeys :=
  splitKeys (uniqueMetas (keysAndSigned instructions payer))

def newWithBlockhash (instructions : List Instruction) (payer : Option Pubkey)
    (blockhash : Hash) : Option Message := do
  let keys := getKeys instructions payer
  let numRequiredSignatures := wrap 8 keys.signedKeys.length
  let accountKeys := keys.signedKeys ++ keys.unsignedKeys
  let compiled ← compileInstructions instructions accountKeys
  pure ⟨⟨numRequiredSignatures, keys.numReadonlySignedAccounts,
    keys.numReadonlyUnsignedAccounts⟩, accountKeys, blockhash, compiled⟩

/-! ## Privileges read from the header -/

def Message.isSigner (message : Message) (i : ℕ) : Bool :=
  i < message.header.numRequiredSignatures

/-- The header part of `is_writable`: the index lies among the writable signed keys or the
writable unsigned ones. The subtractions are those of `u8` and `usize`. (`is_writable` also
demotes sysvars, builtin programs and called programs, which this model leaves out.) -/
def Message.isWritableIndex (message : Message) (i : ℕ) : Bool :=
  i < wrappingSub 8 message.header.numRequiredSignatures
      message.header.numReadonlySignedAccounts ||
    (message.header.numRequiredSignatures ≤ i &&
      i < wrappingSub 64 message.accountKeys.length message.header.numReadonlyUnsignedAccounts)

/-! ## The unique metas

`UniqueMetas l metas`: `metas` has each key of `l` once, with the signer flag of the key's
first meta in `l`, writable when some meta of the key in `l` is, and the first key of `l`
first. Every meta of the loop keeps it (`UniqueMetas.push`, `UniqueMetas.promote`). -/

/-- What the promotion by `accountMeta` does to a meta `x`. -/
def AccountMeta.promote (accountMeta x : AccountMeta) : AccountMeta :=
  if x.pubkey = accountMeta.pubkey then
    { x with isWritable := x.isWritable || accountMeta.isWritable }
  else x

@[simp] theorem AccountMeta.pubkey_promote (a x : AccountMeta) :
    (a.promote x).pubkey = x.pubkey := by
  unfold AccountMeta.promote
  split <;> rfl

@[simp] theorem AccountMeta.isSigner_promote (a x : AccountMeta) :
    (a.promote x).isSigner = x.isSigner := by
  unfold AccountMeta.promote
  split <;> rfl

theorem AccountMeta.isWritable_promote (a x : AccountMeta) :
    (a.promote x).isWritable = (x.isWritable || (a.pubkey == x.pubkey && a.isWritable)) := by
  unfold AccountMeta.promote
  split
  case isTrue hx => simp [hx]
  case isFalse hx => simp [Ne.symm hx]

theorem promoteWritable_eq_none {a : AccountMeta} :
    ∀ {l : List AccountMeta}, promoteWritable a l = none ↔ a.pubkey ∉ l.map (·.pubkey)
  | [] => by simp [promoteWritable]
  | x :: xs => by
    rw [promoteWritable]
    split
    case isTrue hx => simp [hx]
    case isFalse hx =>
      rw [Option.map_eq_none_iff, promoteWritable_eq_none, List.map_cons, List.mem_cons]
      simp [Ne.symm hx]

/-- With distinct keys the first meta of the key is the only one, so promoting it is
promoting every meta. -/
theorem promoteWritable_eq_some {a : AccountMeta} :
    ∀ {l l' : List AccountMeta}, (l.map (·.pubkey)).Nodup → promoteWritable a l = some l' →
      l' = l.map a.promote
  | [], _, _, h => by cases h
  | x :: xs, l', hnodup, h => by
    rw [List.map_cons, List.nodup_cons] at hnodup
    rw [promoteWritable] at h
    split at h
    case isTrue hx =>
      have hrest : ∀ y ∈ xs, a.promote y = y := fun y hy => by
        have hmem := List.mem_map_of_mem (f := (·.pubkey)) hy
        have hne : y.pubkey ≠ a.pubkey := fun hya => hnodup.1 (by rw [hx, ← hya]; exact hmem)
        simp [AccountMeta.promote, hne]
      cases h
      rw [List.map_cons, List.map_congr_left hrest, List.map_id']
      simp [AccountMeta.promote, hx]
    case isFalse hx =>
      obtain ⟨l'', h'', rfl⟩ := Option.map_eq_some_iff.mp h
      rw [promoteWritable_eq_some hnodup.2 h'', List.map_cons]
      simp [AccountMeta.promote, hx]

structure UniqueMetas (l metas : List AccountMeta) : Prop where
  nodup : (metas.map (·.pubkey)).Nodup
  mem_iff : ∀ k, k ∈ metas.map (·.pubkey) ↔ k ∈ l.map (·.pubkey)
  signer : ∀ x ∈ metas, ∃ y ∈ l.find? (·.pubkey == x.pubkey), y.isSigner = x.isSigner
  writable : ∀ x ∈ metas, x.isWritable = l.any (fun y => y.pubkey == x.pubkey && y.isWritable)
  head : metas.head?.map (·.pubkey) = l.head?.map (·.pubkey)

theorem UniqueMetas.nil : UniqueMetas [] [] :=
  ⟨List.nodup_nil, fun _ => Iff.rfl, by simp, by simp, rfl⟩

/-- The first meta of a key `l` already has is found in `l`. -/
theorem find?_append_of_mem {l : List AccountMeta} {a : AccountMeta} {k : Pubkey}
    (hk : k ∈ l.map (·.pubkey)) : (l ++ [a]).find? (·.pubkey == k) = l.find? (·.pubkey == k) := by
  obtain ⟨y, hy, rfl⟩ := List.mem_map.mp hk
  obtain ⟨z, hz⟩ := Option.isSome_iff_exists.mp
    ((List.find?_isSome (p := fun x : AccountMeta => x.pubkey == y.pubkey)).mpr
      ⟨y, hy, beq_self_eq_true _⟩)
  rw [List.find?_append, hz, Option.some_or]

/-- A meta with a new key is pushed. -/
theorem UniqueMetas.push {l metas : List AccountMeta} {a : AccountMeta} (h : UniqueMetas l metas)
    (ha : a.pubkey ∉ l.map (·.pubkey)) : UniqueMetas (l ++ [a]) (metas ++ [a]) := by
  have hmetas : a.pubkey ∉ metas.map (·.pubkey) := fun hm => ha ((h.mem_iff _).mp hm)
  have hfind : l.find? (·.pubkey == a.pubkey) = none :=
    List.find?_eq_none.mpr fun y hy hya =>
      ha (List.mem_map.mpr ⟨y, hy, beq_iff_eq.mp hya⟩)
  constructor
  case nodup =>
    rw [List.map_append, List.nodup_append]
    exact ⟨h.nodup, List.nodup_singleton _, fun k hk k' hk' hkk' => by
      simp only [List.map_cons, List.map_nil, List.mem_singleton] at hk'
      exact hmetas (by rw [← hk', ← hkk']; exact hk)⟩
  case mem_iff =>
    intro k
    simp only [List.map_append, List.mem_append, h.mem_iff]
  case signer =>
    intro x hx
    rcases List.mem_append.mp hx with hx | hx
    · obtain ⟨y, hy, hys⟩ := h.signer x hx
      rw [find?_append_of_mem ((h.mem_iff _).mp (List.mem_map_of_mem hx))]
      exact ⟨y, hy, hys⟩
    · rw [List.mem_singleton] at hx
      subst hx
      refine ⟨x, ?_, rfl⟩
      rw [List.find?_append, hfind]
      simp
  case writable =>
    intro x hx
    rcases List.mem_append.mp hx with hx | hx
    · have hne : a.pubkey ≠ x.pubkey := fun hax =>
        hmetas (hax ▸ List.mem_map_of_mem hx)
      rw [h.writable x hx, List.any_append]
      simp [hne]
    · rw [List.mem_singleton] at hx
      subst hx
      have hany : l.any (fun y => y.pubkey == x.pubkey && y.isWritable) = false :=
        List.any_eq_false.mpr fun y hy hyx =>
          ha (List.mem_map.mpr ⟨y, hy, beq_iff_eq.mp (Bool.and_eq_true_iff.mp hyx).1⟩)
      rw [List.any_append, hany]
      simp
  case head =>
    cases l with
    | nil =>
      have hnil : metas = [] := List.map_eq_nil_iff.mp
        (List.eq_nil_iff_forall_not_mem.mpr fun k hk => by simpa using (h.mem_iff k).mp hk)
      subst hnil
      rfl
    | cons y ys =>
      cases metas with
      | nil => simpa using (h.mem_iff y.pubkey).mpr (by simp)
      | cons m ms => simpa using h.head

/-- A meta with a key that is there promotes the meta of its key. -/
theorem UniqueMetas.promote {l metas : List AccountMeta} {a : AccountMeta}
    (h : UniqueMetas l metas) (ha : a.pubkey ∈ l.map (·.pubkey)) :
    UniqueMetas (l ++ [a]) (metas.map a.promote) := by
  have hkeys : (metas.map a.promote).map (·.pubkey) = metas.map (·.pubkey) := by
    rw [List.map_map]
    exact List.map_congr_left fun x _ => AccountMeta.pubkey_promote a x
  constructor
  case nodup => exact hkeys ▸ h.nodup
  case mem_iff =>
    intro k
    rw [hkeys, h.mem_iff, List.map_append, List.mem_append, List.map_singleton,
      List.mem_singleton]
    constructor
    · exact .inl
    · rintro (hk | rfl)
      · exact hk
      · exact ha
  case signer =>
    intro x' hx'
    obtain ⟨x, hx, rfl⟩ := List.mem_map.mp hx'
    obtain ⟨y, hy, hys⟩ := h.signer x hx
    rw [AccountMeta.pubkey_promote, find?_append_of_mem ((h.mem_iff _).mp (List.mem_map_of_mem hx)),
      AccountMeta.isSigner_promote]
    exact ⟨y, hy, hys⟩
  case writable =>
    intro x' hx'
    obtain ⟨x, hx, rfl⟩ := List.mem_map.mp hx'
    rw [AccountMeta.isWritable_promote, AccountMeta.pubkey_promote, h.writable x hx,
      List.any_append]
    simp
  case head =>
    obtain ⟨y, ys, rfl⟩ : ∃ y ys, l = y :: ys := by
      cases l with
      | nil => simp at ha
      | cons y ys => exact ⟨y, ys, rfl⟩
    have hhead := h.head
    cases metas with
    | nil => simp at hhead
    | cons m ms => simpa using hhead

/-- `unique_metas` has each key once, with the signer flag of the key's first meta and
writable when some meta of the key is. -/
theorem uniqueMetas_spec (l : List AccountMeta) : UniqueMetas l (uniqueMetas l) := by
  induction l using List.reverseRecOn with
  | nil => exact UniqueMetas.nil
  | append_singleton l a ih =>
    rw [uniqueMetas, List.foldl_append, ← uniqueMetas]
    simp only [List.foldl_cons, List.foldl_nil]
    cases hp : promoteWritable a (uniqueMetas l) with
    | none =>
      have ha : a.pubkey ∉ l.map (·.pubkey) := fun ha =>
        promoteWritable_eq_none.mp hp ((ih.mem_iff _).mpr ha)
      exact ih.push ha
    | some metas =>
      have ha : a.pubkey ∈ l.map (·.pubkey) := by
        by_contra ha
        rw [promoteWritable_eq_none.mpr fun hm => ha ((ih.mem_iff _).mp hm)] at hp
        cases hp
      rw [promoteWritable_eq_some ih.nodup hp]
      exact ih.promote ha

/-! ## The sorted metas

Sorted by rank, the first meta of a key is a signer exactly when some meta of the key is
(`isSigner_find?_keysAndSigned`): a signer meta has a higher rank than any other. -/

theorem AccountMeta.rank_le (m : AccountMeta) : m.rank ≤ 3 := by
  unfold AccountMeta.rank
  split <;> split <;> omega

theorem AccountMeta.two_le_rank_iff (m : AccountMeta) : 2 ≤ m.rank ↔ m.isSigner = true := by
  unfold AccountMeta.rank
  cases m.isSigner <;> cases m.isWritable <;> simp

/-- The keys the instructions and the payer name: the payer, and each instruction's program
id and account keys. -/
def keysOf (instructions : List Instruction) (payer : Option Pubkey) : List Pubkey :=
  payer.toList ++ instructions.flatMap fun ix => ix.programId :: ix.accounts.map (·.pubkey)

theorem mem_foldl_programIds {k : Pubkey} : ∀ (instructions : List Instruction) (ids : List Pubkey),
    k ∈ instructions.foldl
        (fun ids ix => if ix.programId ∈ ids then ids else ids ++ [ix.programId]) ids ↔
      k ∈ ids ∨ ∃ ix ∈ instructions, ix.programId = k
  | [], ids => by simp
  | ix :: ixs, ids => by
    rw [List.foldl_cons, mem_foldl_programIds ixs]
    split
    case isTrue hmem =>
      constructor
      · rintro (hk | ⟨ix', hix', rfl⟩)
        · exact .inl hk
        · exact .inr ⟨ix', List.mem_cons_of_mem ix hix', rfl⟩
      · rintro (hk | ⟨ix', hix', rfl⟩)
        · exact .inl hk
        · rcases List.mem_cons.mp hix' with rfl | hix'
          · exact .inl hmem
          · exact .inr ⟨ix', hix', rfl⟩
    case isFalse => simp [or_assoc, eq_comm]

theorem mem_getProgramIds {instructions : List Instruction} {k : Pubkey} :
    k ∈ getProgramIds instructions ↔ ∃ ix ∈ instructions, ix.programId = k := by
  rw [getProgramIds, mem_foldl_programIds]
  simp

/-- The metas before sorting, from which `keysAndSigned` puts the payer's in front. -/
theorem perm_keysAndSigned (instructions : List Instruction) (payer : Option Pubkey) :
    (keysAndSigned instructions payer).Perm
      (payer.toList.map (⟨·, true, true⟩) ++ (instructions.flatMap Instruction.accounts ++
        (getProgramIds instructions).map fun programId => ⟨programId, false, false⟩)) := by
  unfold keysAndSigned
  cases payer with
  | none => exact List.perm_insertionSort _ _
  | some payer => exact (List.perm_insertionSort _ _).cons _

theorem mem_keysAndSigned_iff {instructions : List Instruction} {payer : Option Pubkey}
    {k : Pubkey} : k ∈ (keysAndSigned instructions payer).map (·.pubkey) ↔
      k ∈ keysOf instructions payer := by
  rw [((perm_keysAndSigned instructions payer).map _).mem_iff, keysOf]
  simp only [List.map_append, List.map_map, List.mem_append, List.mem_map, List.mem_flatMap,
    Function.comp_def, mem_getProgramIds, Option.mem_toList, List.mem_cons]
  aesop

/-- The metas of a key that must sign: the payer's and those of the instructions, not the
program ids'. -/
theorem exists_signer_keysAndSigned {instructions : List Instruction} {payer : Option Pubkey}
    {k : Pubkey} :
    (∃ y ∈ keysAndSigned instructions payer, y.pubkey = k ∧ y.isSigner = true) ↔
      payer = some k ∨ ∃ ix ∈ instructions, ∃ m ∈ ix.accounts, m.pubkey = k ∧ m.isSigner = true := by
  simp only [(perm_keysAndSigned instructions payer).mem_iff, List.mem_append, List.mem_map,
    List.mem_flatMap, mem_getProgramIds, Option.mem_toList]
  aesop

theorem pairwise_keysAndSigned (instructions : List Instruction) (payer : Option Pubkey) :
    (keysAndSigned instructions payer).Pairwise (fun x y => y.rank ≤ x.rank) := by
  have : Std.Total (fun x y : AccountMeta => y.rank ≤ x.rank) :=
    ⟨fun x y => le_total y.rank x.rank⟩
  have : IsTrans AccountMeta (fun x y => y.rank ≤ x.rank) :=
    ⟨fun _ _ _ hxy hyz => le_trans hyz hxy⟩
  have hsorted := List.pairwise_insertionSort (fun x y : AccountMeta => y.rank ≤ x.rank)
    (instructions.flatMap Instruction.accounts ++
      (getProgramIds instructions).map fun programId => ⟨programId, false, false⟩)
  unfold keysAndSigned
  cases payer with
  | none => exact hsorted
  | some payer =>
    exact List.Pairwise.cons (fun y _ => y.rank_le) hsorted

theorem isSigner_find?_keysAndSigned {instructions : List Instruction} {payer : Option Pubkey}
    {k : Pubkey} {x : AccountMeta}
    (h : (keysAndSigned instructions payer).find? (·.pubkey == k) = some x) :
    x.isSigner = true ↔
      ∃ y ∈ keysAndSigned instructions payer, y.pubkey = k ∧ y.isSigner = true := by
  constructor
  · intro hx
    have hkey := List.find?_some h
    exact ⟨x, List.mem_of_find?_eq_some h, beq_iff_eq.mp hkey, hx⟩
  · rintro ⟨y, hy, hyk, hys⟩
    rcases SortedKeys.find?_rel (pairwise_keysAndSigned instructions payer) h hy
      (beq_iff_eq.mpr hyk) with rfl | hrank
    · exact hys
    · exact (x.two_le_rank_iff).mp (le_trans ((y.two_le_rank_iff).mpr hys) hrank)

/-! ## The keys and the header -/

/-- The last loop of `get_keys` is a partition of the metas, with the read-only ones of each
part counted modulo `2 ^ 8`. -/
theorem splitKeys_eq (metas : List AccountMeta) : splitKeys metas =
    ⟨(metas.filter (·.isSigner)).map (·.pubkey), (metas.filter (!·.isSigner)).map (·.pubkey),
      wrap 8 (metas.countP fun m => m.isSigner && !m.isWritable),
      wrap 8 (metas.countP fun m => !m.isSigner && !m.isWritable)⟩ := by
  induction metas using List.reverseRecOn with
  | nil => rfl
  | append_singleton metas m ih =>
    rw [splitKeys, List.foldl_append, ← splitKeys, ih]
    simp only [List.foldl_cons, List.foldl_nil]
    cases hs : m.isSigner <;> cases hw : m.isWritable <;>
      simp [hs, hw, List.filter_append, List.countP_append, wrappingAdd, wrap, Nat.add_mod]

/-- The account keys of the compiled message: the signed keys, then the unsigned ones. -/
def accountKeysOf (instructions : List Instruction) (payer : Option Pubkey) : List Pubkey :=
  (getKeys instructions payer).signedKeys ++ (getKeys instructions payer).unsignedKeys

theorem newWithBlockhash_eq_some {instructions : List Instruction} {payer : Option Pubkey}
    {blockhash : Hash} {message : Message} :
    newWithBlockhash instructions payer blockhash = some message ↔
      message.header = ⟨wrap 8 (getKeys instructions payer).signedKeys.length,
        (getKeys instructions payer).numReadonlySignedAccounts,
        (getKeys instructions payer).numReadonlyUnsignedAccounts⟩ ∧
      message.accountKeys = accountKeysOf instructions payer ∧
      message.recentBlockhash = blockhash ∧
      compileInstructions instructions (accountKeysOf instructions payer) =
        some message.instructions := by
  obtain ⟨header, accountKeys, recentBlockhash, compiled⟩ := message
  simp only [newWithBlockhash, accountKeysOf, Option.bind_eq_bind, Option.bind_eq_some_iff,
    Option.pure_def, Option.some.injEq, Message.mk.injEq]
  constructor
  · rintro ⟨compiled', hcompiled, rfl, rfl, rfl, rfl⟩
    exact ⟨rfl, rfl, rfl, hcompiled⟩
  · rintro ⟨rfl, rfl, rfl, hcompiled⟩
    exact ⟨compiled, hcompiled, rfl, rfl, rfl, rfl⟩

theorem perm_accountKeysOf (instructions : List Instruction) (payer : Option Pubkey) :
    (accountKeysOf instructions payer).Perm
      ((uniqueMetas (keysAndSigned instructions payer)).map (·.pubkey)) := by
  rw [accountKeysOf, getKeys, splitKeys_eq, ← List.map_append]
  exact (List.filter_append_perm _ _).map _

theorem nodup_accountKeysOf (instructions : List Instruction) (payer : Option Pubkey) :
    (accountKeysOf instructions payer).Nodup :=
  (perm_accountKeysOf instructions payer).nodup_iff.mpr
    (uniqueMetas_spec (keysAndSigned instructions payer)).nodup

theorem mem_accountKeysOf {instructions : List Instruction} {payer : Option Pubkey}
    {k : Pubkey} : k ∈ accountKeysOf instructions payer ↔ k ∈ keysOf instructions payer := by
  rw [(perm_accountKeysOf instructions payer).mem_iff,
    (uniqueMetas_spec (keysAndSigned instructions payer)).mem_iff, mem_keysAndSigned_iff]

/-- Every key an instruction names is an account key. -/
theorem mem_accountKeysOf_of_mem {instructions : List Instruction} {payer : Option Pubkey}
    {k : Pubkey} (hk : k ∈ keysOf instructions none) : k ∈ accountKeysOf instructions payer := by
  rw [mem_accountKeysOf, keysOf, List.mem_append]
  rw [keysOf, Option.toList_none, List.nil_append] at hk
  exact .inr hk

theorem length_accountKeysOf (instructions : List Instruction) (payer : Option Pubkey) :
    (accountKeysOf instructions payer).length = (keysOf instructions payer).toFinset.card := by
  rw [← List.toFinset_card_of_nodup (nodup_accountKeysOf instructions payer)]
  congr 1
  ext k
  simp only [List.mem_toFinset, mem_accountKeysOf]

/-- A key is a signed key exactly when the payer or some meta of the key must sign. -/
theorem mem_signedKeys_iff {instructions : List Instruction} {payer : Option Pubkey}
    {k : Pubkey} (hk : k ∈ keysOf instructions payer) :
    k ∈ (getKeys instructions payer).signedKeys ↔
      payer = some k ∨ ∃ ix ∈ instructions, ∃ m ∈ ix.accounts, m.pubkey = k ∧ m.isSigner = true := by
  have hspec := uniqueMetas_spec (keysAndSigned instructions payer)
  obtain ⟨x, hx, rfl⟩ := List.mem_map.mp ((hspec.mem_iff k).mpr (mem_keysAndSigned_iff.mpr hk))
  obtain ⟨y, hy, hys⟩ := hspec.signer x hx
  rw [← exists_signer_keysAndSigned, ← isSigner_find?_keysAndSigned hy, hys, getKeys,
    splitKeys_eq]
  simp only [List.mem_map, List.mem_filter]
  constructor
  · rintro ⟨x', ⟨hx', hx's⟩, hkey⟩
    rw [List.inj_on_of_nodup_map hspec.nodup hx hx' hkey.symm]
    exact hx's
  · intro hxs
    exact ⟨x, ⟨hx, hxs⟩, rfl⟩

/-! ## Compiling -/

/-- A compiled instruction names, through `keys`, the program, the accounts and the data of
`ix`. -/
def CompiledInstruction.MapsBack (keys : List Pubkey) (ix : Instruction)
    (compiled : CompiledInstruction) : Prop :=
  keys[compiled.programIdIndex]? = some ix.programId ∧
    compiled.accounts.map (fun i => keys[i]?) = ix.accounts.map (fun m => some m.pubkey) ∧
    compiled.data = ix.data

/-- A key that is there has a position; below `2 ^ 8` keys the cast keeps it. -/
theorem position_eq_some {keys : List Pubkey} {k : Pubkey} (hk : k ∈ keys) :
    ∃ i, position keys k = some i ∧ (keys.length ≤ 2 ^ 8 → keys[i]? = some k) := by
  cases h : keys.findIdx? (· == k) with
  | none =>
    have hne := List.findIdx?_eq_none_iff.mp h k hk
    simp at hne
  | some i =>
    obtain ⟨hi, hik, -⟩ := List.findIdx?_eq_some_iff_getElem.mp h
    refine ⟨wrap 8 i, by rw [position, h, Option.map_some], fun hlen => ?_⟩
    rw [wrap_of_lt (by omega), List.getElem?_eq_getElem hi, beq_iff_eq.mp hik]

theorem mapM_position_eq_some (keys : List Pubkey) :
    ∀ (metas : List AccountMeta), (∀ m ∈ metas, m.pubkey ∈ keys) →
      ∃ indexes, metas.mapM (fun m => position keys m.pubkey) = some indexes ∧
        (keys.length ≤ 2 ^ 8 →
          indexes.map (fun i => keys[i]?) = metas.map (fun m => some m.pubkey))
  | [], _ => ⟨[], rfl, fun _ => rfl⟩
  | m :: ms, hkeys => by
    obtain ⟨i, hi, hik⟩ := position_eq_some (hkeys m List.mem_cons_self)
    obtain ⟨is, his, hmaps⟩ :=
      mapM_position_eq_some keys ms fun m' hm' => hkeys m' (List.mem_cons_of_mem m hm')
    refine ⟨i :: is, by simp [List.mapM_cons, hi, his], fun hlen => ?_⟩
    rw [List.map_cons, List.map_cons, hik hlen, hmaps hlen]

theorem compileInstruction_eq_some {keys : List Pubkey} {ix : Instruction}
    (hkeys : ∀ k ∈ ix.programId :: ix.accounts.map (·.pubkey), k ∈ keys) :
    ∃ compiled, compileInstruction ix keys = some compiled ∧
      (keys.length ≤ 2 ^ 8 → compiled.MapsBack keys ix) := by
  obtain ⟨i, hi, hik⟩ := position_eq_some (hkeys ix.programId List.mem_cons_self)
  obtain ⟨is, his, hmaps⟩ := mapM_position_eq_some keys ix.accounts fun m hm => hkeys m.pubkey (List.mem_cons_of_mem _ (List.mem_map_of_mem hm))
  refine ⟨⟨i, is, ix.data⟩, ?_, fun hlen => ⟨hik hlen, hmaps hlen, rfl⟩⟩
  simp [compileInstruction, his, hi]

theorem compileInstructions_eq_some (keys : List Pubkey) :
    ∀ (instructions : List Instruction), (∀ k ∈ keysOf instructions none, k ∈ keys) →
      ∃ compiled, compileInstructions instructions keys = some compiled ∧
        (keys.length ≤ 2 ^ 8 → List.Forall₂ (CompiledInstruction.MapsBack keys) instructions compiled)
  | [], _ => ⟨[], rfl, fun _ => .nil⟩
  | ix :: ixs, hkeys => by
    have hix : ∀ k ∈ ix.programId :: ix.accounts.map (·.pubkey), k ∈ keys := fun k hk =>
      hkeys k (by simp only [keysOf, Option.toList_none, List.nil_append, List.flatMap_cons,
        List.mem_append]; exact .inl hk)
    obtain ⟨c, hc, hcmaps⟩ := compileInstruction_eq_some hix
    obtain ⟨cs, hcs, hcsmaps⟩ := compileInstructions_eq_some keys ixs fun k hk => hkeys k (by
        simp only [keysOf, Option.toList_none, List.nil_append, List.flatMap_cons,
          List.mem_append] at hk ⊢
        exact .inr hk)
    refine ⟨c :: cs, ?_, fun hlen => .cons (hcmaps hlen) (hcsmaps hlen)⟩
    unfold compileInstructions at hcs ⊢
    simp [List.mapM_cons, hc, hcs]

/-! ## The compiled message

`new_with_blockhash` always returns a message (`newWithBlockhash_isSome`); its account keys
are the keys the instructions and the payer name, each once, with the payer first; below
`2 ^ 8` keys every compiled instruction names its program and accounts, and below `2 ^ 8`
keys an index is a signer exactly when the payer or some meta of its key must sign. -/

section Compiled

variable {instructions : List Instruction} {payer : Option Pubkey} {blockhash : Hash}
  {message : Message}

theorem newWithBlockhash_isSome (instructions : List Instruction) (payer : Option Pubkey)
    (blockhash : Hash) : ∃ message, newWithBlockhash instructions payer blockhash = some message := by
  obtain ⟨compiled, hcompiled, -⟩ :=
    compileInstructions_eq_some (accountKeysOf instructions payer) instructions
      fun _ => mem_accountKeysOf_of_mem
  exact ⟨⟨_, accountKeysOf instructions payer, blockhash, compiled⟩,
    newWithBlockhash_eq_some.mpr ⟨rfl, rfl, rfl, hcompiled⟩⟩

theorem nodup_accountKeys (h : newWithBlockhash instructions payer blockhash = some message) :
    message.accountKeys.Nodup := by
  rw [(newWithBlockhash_eq_some.mp h).2.1]
  exact nodup_accountKeysOf instructions payer

/-- The payer `1` also named as a writable signer of the transfer appears once. -/
theorem nodup_accountKeys_transfer :
    let instructions : List Instruction := [⟨9, [⟨1, true, true⟩, ⟨2, false, true⟩], [2, 0]⟩]
    ∃ message, newWithBlockhash instructions (some 1) 0 = some message ∧
      message.accountKeys.Nodup := by
  intro instructions
  obtain ⟨message, h⟩ : ∃ message, newWithBlockhash instructions (some 1) 0 = some message :=
    ⟨_, rfl⟩
  exact ⟨message, h, nodup_accountKeys h⟩

theorem mem_accountKeys (h : newWithBlockhash instructions payer blockhash = some message)
    {k : Pubkey} : k ∈ message.accountKeys ↔ k ∈ keysOf instructions payer := by
  rw [(newWithBlockhash_eq_some.mp h).2.1]
  exact mem_accountKeysOf

theorem mapsBack_instructions (h : newWithBlockhash instructions payer blockhash = some message)
    (hlen : (keysOf instructions payer).toFinset.card ≤ 2 ^ 8) :
    List.Forall₂ (CompiledInstruction.MapsBack message.accountKeys) instructions
      message.instructions := by
  obtain ⟨-, hkeys, -, hcompiled⟩ := newWithBlockhash_eq_some.mp h
  obtain ⟨compiled, hcompiled', hmaps⟩ :=
    compileInstructions_eq_some (accountKeysOf instructions payer) instructions
      fun _ => mem_accountKeysOf_of_mem
  rw [hcompiled, Option.some.injEq] at hcompiled'
  rw [hkeys, hcompiled']
  exact hmaps (length_accountKeysOf instructions payer ▸ hlen)

/-- A transfer from the payer `1` to `2` by program `9` compiles to indices that map back. -/
theorem mapsBack_instructions_transfer :
    let instructions : List Instruction := [⟨9, [⟨1, true, true⟩, ⟨2, false, true⟩], [2, 0]⟩]
    ∃ message, newWithBlockhash instructions (some 1) 0 = some message ∧
      (keysOf instructions (some 1)).toFinset.card ≤ 2 ^ 8 ∧
      List.Forall₂ (CompiledInstruction.MapsBack message.accountKeys) instructions
        message.instructions := by
  intro instructions
  have hlen : (keysOf instructions (some 1)).toFinset.card ≤ 2 ^ 8 := by decide
  exact ⟨_, rfl, hlen, mapsBack_instructions rfl hlen⟩

/-- The payer's meta heads the metas, so its key heads the unique metas and, being a signer,
the signed keys. -/
theorem head_accountKeys (h : newWithBlockhash instructions payer blockhash = some message)
    {p : Pubkey} (hp : payer = some p) : message.accountKeys.head? = some p := by
  subst hp
  obtain ⟨rest, hks⟩ : ∃ rest, keysAndSigned instructions (some p) = ⟨p, true, true⟩ :: rest :=
    ⟨_, rfl⟩
  have hspec := uniqueMetas_spec (keysAndSigned instructions (some p))
  have hhead : (uniqueMetas (keysAndSigned instructions (some p))).head?.map (·.pubkey) =
      some p := by
    rw [hspec.head, hks]
    rfl
  obtain ⟨x, xs, hmetas⟩ :
      ∃ x xs, uniqueMetas (keysAndSigned instructions (some p)) = x :: xs := by
    cases hm : uniqueMetas (keysAndSigned instructions (some p)) with
    | nil => rw [hm] at hhead; cases hhead
    | cons x xs => exact ⟨x, xs, rfl⟩
  rw [hmetas, List.head?_cons, Option.map_some, Option.some.injEq] at hhead
  obtain ⟨y, hy, hys⟩ := hspec.signer x (hmetas ▸ List.mem_cons_self)
  have hxs : x.isSigner = true := by
    simp only [hks, hhead, List.find?_cons, beq_self_eq_true, Option.mem_def,
      Option.some.injEq] at hy
    rw [← hys, ← hy]
  rw [(newWithBlockhash_eq_some.mp h).2.1, accountKeysOf, getKeys, splitKeys_eq, hmetas]
  simp [hxs, hhead]

/-- The payer `1` of the transfer is the first account key. -/
theorem head_accountKeys_transfer :
    let instructions : List Instruction := [⟨9, [⟨1, true, true⟩, ⟨2, false, true⟩], [2, 0]⟩]
    ∃ message, newWithBlockhash instructions (some 1) 0 = some message ∧
      message.accountKeys.head? = some 1 := by
  intro instructions
  obtain ⟨message, h⟩ : ∃ message, newWithBlockhash instructions (some 1) 0 = some message :=
    ⟨_, rfl⟩
  exact ⟨message, h, head_accountKeys h rfl⟩

/-- Below `2 ^ 8` keys, the index of a key is a signer index exactly when the payer or some
meta of the key must sign. -/
theorem isSigner_iff (h : newWithBlockhash instructions payer blockhash = some message)
    (hlen : (keysOf instructions payer).toFinset.card < 2 ^ 8) {i : ℕ} {k : Pubkey}
    (hk : message.accountKeys[i]? = some k) :
    message.isSigner i = true ↔
      payer = some k ∨ ∃ ix ∈ instructions, ∃ m ∈ ix.accounts, m.pubkey = k ∧ m.isSigner = true := by
  obtain ⟨hheader, hkeys, -, -⟩ := newWithBlockhash_eq_some.mp h
  have hnodup := nodup_accountKeysOf instructions payer
  have hsigned : (getKeys instructions payer).signedKeys.length < 2 ^ 8 := by
    have := length_accountKeysOf instructions payer
    rw [accountKeysOf, List.length_append] at this
    omega
  rw [hkeys, accountKeysOf] at hk
  rw [← mem_signedKeys_iff ((mem_accountKeys h).mp (hkeys ▸ List.mem_of_getElem? hk)),
    Message.isSigner, hheader, wrap_of_lt hsigned, decide_eq_true_iff]
  rw [accountKeysOf] at hnodup
  by_cases hi : i < (getKeys instructions payer).signedKeys.length
  · rw [List.getElem?_append_left hi] at hk
    exact iff_of_true hi (List.mem_of_getElem? hk)
  · rw [List.getElem?_append_right (Nat.le_of_not_lt hi)] at hk
    exact iff_of_false hi fun hmem =>
      List.disjoint_of_nodup_append hnodup hmem (List.mem_of_getElem? hk)

/-- In the transfer from the payer `1` to `2`, the key `2` at position 1 is not a signer. -/
theorem isSigner_iff_transfer :
    let instructions : List Instruction := [⟨9, [⟨1, true, true⟩, ⟨2, false, true⟩], [2, 0]⟩]
    ∃ message, newWithBlockhash instructions (some 1) 0 = some message ∧
      (keysOf instructions (some 1)).toFinset.card < 2 ^ 8 ∧ message.accountKeys[1]? = some 2 ∧
      (message.isSigner 1 = true ↔ some 1 = some 2 ∨
        ∃ ix ∈ instructions, ∃ m ∈ ix.accounts, m.pubkey = 2 ∧ m.isSigner = true) := by
  intro instructions
  have hlen : (keysOf instructions (some 1)).toFinset.card < 2 ^ 8 := by decide
  exact ⟨_, rfl, hlen, rfl, isSigner_iff rfl hlen rfl⟩

end Compiled

/-! ## A promoted signer swaps writability

Key `2` is a read-only signer of the first instruction, after key `1`, and a writable
non-signer of the second. Sorted, its signer meta comes after that of `1`; the writable meta
promotes it in place, so the signed keys are `[0, 1, 2]` with one read-only one, and the
header makes the last signed key read-only: key `1`, which no instruction writes, becomes
writable, and key `2`, which the second instruction writes, read-only. -/

theorem newWithBlockhash_swaps_writability :
    let instructions : List Instruction :=
      [⟨9, [⟨1, true, false⟩, ⟨2, true, false⟩], []⟩, ⟨9, [⟨2, false, true⟩], []⟩]
    ∃ message, newWithBlockhash instructions (some 0) 0 = some message ∧
      message.accountKeys = [0, 1, 2, 9] ∧
      message.isWritableIndex 1 = true ∧ message.isWritableIndex 2 = false := by
  refine ⟨_, rfl, rfl, ?_, ?_⟩ <;> decide

end Solana.Sdk
