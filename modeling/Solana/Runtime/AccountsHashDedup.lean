import Solana.Sdk.Basic
import Solana.Lib.LastWins

/-! `de_dup_accounts_in_parallel` and `de_dup_and_eliminate_zeros`: the last version of each
pubkey, in pubkey order (`deDupAccountsInParallel_eq`); a panic is `none`. -/

set_option linter.dupNamespace false

namespace Solana.AccountsHash

open LastWins

/-- `CalculateHashIntermediate`: an account's hash, lamports and pubkey as the scan found them. -/
structure CalculateHashIntermediate where
  hash : Hash
  lamports : ℕ
  pubkey : Pubkey
  deriving DecidableEq, Repr

/-- `ZERO_RAW_LAMPORTS_SENTINEL`: the lamports the scan gives an account with none. -/
def zeroRawLamportsSentinel : ℕ := u64Max

/-- `AccountsHash`: the pubkey that filler accounts end with, when there are any. -/
structure AccountsHash where
  fillerAccountSuffix : Option Pubkey
  deriving DecidableEq, Repr

/-- `filler_prefix_bytes`: a `u32` id and a `u64` rent partition. -/
def fillerPrefixBytes : ℕ := 4 + 8

/-- `is_filler_account_helper`: the pubkey agrees with the suffix past the prefix bytes. A
pubkey is its 32 bytes read big-endian, so the bytes past the prefix are its low ones. -/
def isFillerAccountHelper (pubkey : Pubkey) (fillerAccountSuffix : Option Pubkey) : Bool :=
  match fillerAccountSuffix with
  | some suffix =>
    pubkey % 2 ^ (8 * (32 - fillerPrefixBytes)) = suffix % 2 ^ (8 * (32 - fillerPrefixBytes))
  | none => false

namespace AccountsHash

def fillerAccountsEnabled (hasher : AccountsHash) : Bool := hasher.fillerAccountSuffix.isSome

def isFillerAccount (hasher : AccountsHash) (pubkey : Pubkey) : Bool :=
  isFillerAccountHelper pubkey hasher.fillerAccountSuffix

/-- The test an entry passes to be hashed: lamports other than the sentinel, and no filler
account where there may be some. -/
def keepsItem (hasher : AccountsHash) (item : CalculateHashIntermediate) : Bool :=
  item.lamports != zeroRawLamportsSentinel &&
    (!hasher.fillerAccountsEnabled || !hasher.isFillerAccount item.pubkey)

end AccountsHash

/-- `checked_cast_for_capitalization`: the sum as a `u64`, and a panic past it. -/
def checkedCastForCapitalization (balance : ℕ) : Option ℕ :=
  if balance ≤ u64Max then some balance else none

/-! ## The merge of one bin -/

/-- The cursors of `de_dup_accounts_in_parallel`: the key at the front of each slot group not
yet exhausted, the slot group each belongs to, and the position reached in every group. -/
structure DedupCursor where
  firstItems : List Pubkey
  firstItemToPubkeyDivision : List ℕ
  indexes : List ℕ
  deriving DecidableEq, Repr

/-- The loop of `get_item` that moves past the entries with `key`, from `index` on, where
`bin` continues with `rest`. -/
def skipKey (key : Pubkey) : List CalculateHashIntermediate → ℕ → ℕ
  | [], index => index
  | item :: rest, index => if item.pubkey = key then skipKey key rest (index + 1) else index

/-- `get_item`: the last entry of the run of the key at `minIndex`; the group then starts
past the run, or is removed from the cursors once exhausted. -/
def getItem (pubkeyDivision : List (List (List CalculateHashIntermediate))) (pubkeyBin : ℕ)
    (minIndex : ℕ) (cursor : DedupCursor) : Option (DedupCursor × CalculateHashIntermediate) := do
  let firstItem ← cursor.firstItems[minIndex]?
  let divisionIndex ← cursor.firstItemToPubkeyDivision[minIndex]?
  let bins ← pubkeyDivision[divisionIndex]?
  let bin ← bins[pubkeyBin]?
  let start ← cursor.indexes[divisionIndex]?
  let index := skipKey firstItem (bin.drop (start + 1)) (start + 1)
  let cursor := match bin[index]? with
    | some next =>
      { cursor with
        firstItems := cursor.firstItems.set minIndex next.pubkey
        indexes := cursor.indexes.set divisionIndex index }
    | none =>
      { cursor with
        firstItems := cursor.firstItems.eraseIdx minIndex
        firstItemToPubkeyDivision := cursor.firstItemToPubkeyDivision.eraseIdx minIndex }
  let item ← bin[index - 1]?
  return (cursor, item)

/-- One comparison of the scan for the smallest key: a smaller key moves the minimum on, an
equal one too, after recording the position it leaves as a duplicate. -/
def findMinStep (acc : ℕ × Pubkey × List ℕ) (item : Pubkey × ℕ) : ℕ × Pubkey × List ℕ :=
  let (minIndex, minPubkey, duplicatePubkeyIndexes) := acc
  let (key, firstItemIndex) := item
  match compare minPubkey key with
  | .lt => (minIndex, minPubkey, duplicatePubkeyIndexes)
  | .eq => (firstItemIndex, minPubkey, duplicatePubkeyIndexes ++ [minIndex])
  | .gt => (firstItemIndex, key, duplicatePubkeyIndexes)

/-- The loop of `de_dup_accounts_in_parallel`, once per pubkey: the last group holding the
smallest key gives its entry, hashed unless it has no lamports or is a filler account, and
the duplicates move past their key in reverse, so that removing an exhausted group does not
move the positions still to come. -/
def deDupLoop (hasher : AccountsHash) (pubkeyDivision : List (List (List CalculateHashIntermediate)))
    (pubkeyBin : ℕ) : ℕ → DedupCursor → List Hash → ℕ → Option (List Hash × ℕ)
  | fuel, cursor, hashes, overallSum =>
    match cursor.firstItems, fuel with
    | [], _ => some (hashes, overallSum)
    | _ :: _, 0 => none
    | first :: rest, fuel + 1 => do
      let (minIndex, _, duplicatePubkeyIndexes) :=
        (rest.zipIdx 1).foldl findMinStep (0, first, [])
      let (cursor, item) ← getItem pubkeyDivision pubkeyBin minIndex cursor
      let (hashes, overallSum) ←
        if hasher.keepsItem item then
          (checkedCastForCapitalization (item.lamports + overallSum)).map fun overallSum =>
            (hashes ++ [item.hash], overallSum)
        else some (hashes, overallSum)
      let cursor ← duplicatePubkeyIndexes.reverse.foldlM
        (fun cursor i => (getItem pubkeyDivision pubkeyBin i cursor).map Prod.fst) cursor
      deDupLoop hasher pubkeyDivision pubkeyBin fuel cursor hashes overallSum

/-- One slot group of the set-up of the cursors: a group with entries in the bin puts its
first key in `first_items` and its entries in the count. -/
def initStep (pubkeyBin : ℕ) (acc : DedupCursor × ℕ)
    (division : List (List CalculateHashIntermediate) × ℕ) : DedupCursor × ℕ :=
  let (cursor, itemLen) := acc
  let (bins, i) := division
  match bins[pubkeyBin]? with
  | some (first :: rest) =>
    ({ cursor with
        firstItems := cursor.firstItems ++ [first.pubkey]
        firstItemToPubkeyDivision := cursor.firstItemToPubkeyDivision ++ [i] },
      itemLen + (rest.length + 1))
  | _ => (cursor, itemLen)

/-- `de_dup_accounts_in_parallel`: the hashes of one bin, their lamports and the number of
entries in the bin. -/
def deDupAccountsInParallel (hasher : AccountsHash)
    (pubkeyDivision : List (List (List CalculateHashIntermediate))) (pubkeyBin : ℕ) :
    Option (List Hash × ℕ × ℕ) :=
  let (cursor, itemLen) := pubkeyDivision.zipIdx.foldl (initStep pubkeyBin)
    (⟨[], [], List.replicate pubkeyDivision.length 0⟩, 0)
  (deDupLoop hasher pubkeyDivision pubkeyBin itemLen cursor [] 0).map fun (hashes, overallSum) =>
    (hashes, overallSum, itemLen)

/-- `de_dup_and_eliminate_zeros`: the hashes of every bin below `max_bin` and the sum of their
lamports. The bins run in parallel and add to the sum under a lock in any order; every
partial sum is at most the whole one, so the sum panics exactly when the sum in order
does. -/
def deDupAndEliminateZeros (hasher : AccountsHash)
    (sortedDataByPubkey : List (List (List CalculateHashIntermediate))) (maxBin : ℕ) :
    Option (List (List Hash) × ℕ) :=
  (List.range maxBin).foldlM (fun acc bin => do
      let (hashes, lamportsSum) := acc
      let (binHashes, lamportsBin, _) ← deDupAccountsInParallel hasher sortedDataByPubkey bin
      let lamportsSum ← checkedCastForCapitalization (lamportsSum + lamportsBin)
      return (hashes ++ [binHashes], lamportsSum))
    ([], 0)

/-! ## What the cursors leave -/

/-- The loop of `get_item` ends past the run of the key at the front, at the last entry of
that run. -/
theorem skipKey_spec (bin : List CalculateHashIntermediate) {start : ℕ}
    {a : CalculateHashIntermediate} {l : List CalculateHashIntermediate}
    (hdrop : bin.drop start = a :: l) :
    bin.drop (skipKey a.pubkey l (start + 1)) = dropRun CalculateHashIntermediate.pubkey (a :: l) ∧
      bin[skipKey a.pubkey l (start + 1) - 1]? =
        lastOfRun CalculateHashIntermediate.pubkey (a :: l) := by
  have hat : bin[start]? = some a := by rw [← List.head?_drop, hdrop, List.head?_cons]
  have hnext : bin.drop (start + 1) = l := by
    rw [← List.drop_drop, hdrop, List.drop_one, List.tail_cons]
  induction l generalizing start a with
  | nil => simp [skipKey, dropRun, lastOfRun, hnext, hat]
  | cons b l ih =>
    by_cases hb : b.pubkey = a.pubkey
    · have hrun := ih hnext (by rw [← List.head?_drop, hnext, List.head?_cons])
        (by rw [← List.drop_drop, hnext, List.drop_one, List.tail_cons])
      rw [hb] at hrun
      simp only [skipKey, hb, if_true]
      refine ⟨hrun.1.trans ?_, hrun.2.trans ?_⟩
      · simp [dropRun, hb]
      · simp [lastOfRun, hb]
    · simp [skipKey, hb, dropRun, lastOfRun, hnext, hat]

section Cursor

variable (pubkeyDivision : List (List (List CalculateHashIntermediate))) (pubkeyBin : ℕ)

/-- The bin of slot group `g`, empty where the group has none. -/
def binOf (g : ℕ) : List CalculateHashIntermediate :=
  (pubkeyDivision.getD g []).getD pubkeyBin []

namespace DedupCursor

/-- What the cursors leave of the bin of slot group `g`. -/
def rest (cursor : DedupCursor) (g : ℕ) : List CalculateHashIntermediate :=
  if g ∈ cursor.firstItemToPubkeyDivision then
    (binOf pubkeyDivision pubkeyBin g).drop (cursor.indexes.getD g 0)
  else []

/-- What the cursors leave of the bins of all slot groups. -/
def rests (cursor : DedupCursor) : List (List CalculateHashIntermediate) :=
  (List.range pubkeyDivision.length).map (cursor.rest pubkeyDivision pubkeyBin)

/-- Cursors the loop can run from: one for every slot group with entries left, in the order
of the groups, with the key at the front of what is left of it. -/
structure Valid (cursor : DedupCursor) : Prop where
  length_firstItems : cursor.firstItems.length = cursor.firstItemToPubkeyDivision.length
  length_indexes : cursor.indexes.length = pubkeyDivision.length
  increasing : cursor.firstItemToPubkeyDivision.Pairwise (· < ·)
  front : ∀ p g : ℕ, cursor.firstItemToPubkeyDivision[p]? = some g →
    g < pubkeyDivision.length ∧
      headKey CalculateHashIntermediate.pubkey (cursor.rest pubkeyDivision pubkeyBin g) =
        cursor.firstItems[p]?

end DedupCursor

variable {pubkeyDivision pubkeyBin}

/-- A position in a list of increasing slot groups names one group. -/
theorem eq_of_getElem?_eq {l : List ℕ} (hl : l.Pairwise (· < ·)) {p q g : ℕ}
    (hp : l[p]? = some g) (hq : l[q]? = some g) : p = q :=
  (List.getElem?_inj (List.getElem?_eq_some_iff.mp hp).1 hl.nodup).mp (hp.trans hq.symm)

theorem mem_eraseIdx_of_pairwise {l : List ℕ} (hl : l.Pairwise (· < ·)) {p g g' : ℕ}
    (hp : l[p]? = some g) : g' ∈ l.eraseIdx p ↔ g' ≠ g ∧ g' ∈ l := by
  obtain ⟨hlt, rfl⟩ := List.getElem?_eq_some_iff.mp hp
  rw [← hl.nodup.erase_getElem p hlt, hl.nodup.mem_erase_iff]

/-- A group that goes on past its run: its cursor moves to the next key. -/
theorem DedupCursor.Valid.advance {cursor : DedupCursor} (hvalid : cursor.Valid pubkeyDivision pubkeyBin)
    {p g index : ℕ} (hg : cursor.firstItemToPubkeyDivision[p]? = some g)
    {next : CalculateHashIntermediate} {more : List CalculateHashIntermediate}
    (hnext : (binOf pubkeyDivision pubkeyBin g).drop index = next :: more) :
    let cursor' := { cursor with
      firstItems := cursor.firstItems.set p next.pubkey
      indexes := cursor.indexes.set g index }
    cursor'.Valid pubkeyDivision pubkeyBin ∧
      ∀ g', cursor'.rest pubkeyDivision pubkeyBin g' =
        if g' = g then (binOf pubkeyDivision pubkeyBin g).drop index
        else cursor.rest pubkeyDivision pubkeyBin g' := by
  intro cursor'
  have hgn := (hvalid.front p g hg).1
  have hgmem : g ∈ cursor.firstItemToPubkeyDivision := List.mem_of_getElem? hg
  have hrest : ∀ g', cursor'.rest pubkeyDivision pubkeyBin g' =
      if g' = g then (binOf pubkeyDivision pubkeyBin g).drop index
      else cursor.rest pubkeyDivision pubkeyBin g' := by
    intro g'
    by_cases hg' : g' = g
    · subst hg'
      simp [cursor', DedupCursor.rest, hgmem, List.getD_eq_getElem?_getD, hvalid.length_indexes,
        hgn]
    · simp [cursor', DedupCursor.rest, hg', List.getD_eq_getElem?_getD, Ne.symm hg']
  refine ⟨⟨by simp [cursor', hvalid.length_firstItems], by simp [cursor', hvalid.length_indexes],
    hvalid.increasing, fun q g' hq => ?_⟩, hrest⟩
  obtain ⟨hg'n, hhead⟩ := hvalid.front q g' hq
  refine ⟨hg'n, ?_⟩
  rw [hrest]
  by_cases hg' : g' = g
  · subst hg'
    have hqp : q = p := eq_of_getElem?_eq hvalid.increasing hq hg
    subst hqp
    have hp : q < cursor.firstItems.length := by
      rw [hvalid.length_firstItems]; exact (List.getElem?_eq_some_iff.mp hg).1
    simp [cursor', hnext, headKey, hp]
  · have hqp : p ≠ q := fun h => hg' (Option.some_injective _ (hq.symm.trans (h ▸ hg)))
    simp [cursor', hg', hhead, hqp]

/-- An exhausted group: its cursor is removed. -/
theorem DedupCursor.Valid.remove {cursor : DedupCursor} (hvalid : cursor.Valid pubkeyDivision pubkeyBin)
    {p g : ℕ} (hg : cursor.firstItemToPubkeyDivision[p]? = some g) :
    let cursor' := { cursor with
      firstItems := cursor.firstItems.eraseIdx p
      firstItemToPubkeyDivision := cursor.firstItemToPubkeyDivision.eraseIdx p }
    cursor'.Valid pubkeyDivision pubkeyBin ∧
      (∀ g', cursor'.rest pubkeyDivision pubkeyBin g' =
        if g' = g then [] else cursor.rest pubkeyDivision pubkeyBin g') ∧
      ∀ q < p, cursor'.firstItemToPubkeyDivision[q]? = cursor.firstItemToPubkeyDivision[q]? := by
  intro cursor'
  have hmem : ∀ g', g' ∈ cursor'.firstItemToPubkeyDivision ↔
      g' ≠ g ∧ g' ∈ cursor.firstItemToPubkeyDivision :=
    fun g' => mem_eraseIdx_of_pairwise hvalid.increasing hg
  have hrest : ∀ g', cursor'.rest pubkeyDivision pubkeyBin g' =
      if g' = g then [] else cursor.rest pubkeyDivision pubkeyBin g' := by
    intro g'
    by_cases hg' : g' = g
    · simp [DedupCursor.rest, hmem, hg']
    · simp only [DedupCursor.rest, hmem, hg', if_false, ne_eq, not_false_eq_true, true_and]
      rfl
  have hp : p < cursor.firstItemToPubkeyDivision.length := (List.getElem?_eq_some_iff.mp hg).1
  refine ⟨⟨?_, hvalid.length_indexes, hvalid.increasing.eraseIdx p, fun q g' hq => ?_⟩, hrest,
    fun q hq => by simp [cursor', List.getElem?_eraseIdx, hq]⟩
  · simp only [cursor', List.length_eraseIdx, hvalid.length_firstItems]
  · have hq' : cursor.firstItemToPubkeyDivision[if q < p then q else q + 1]? = some g' := by
      simpa [cursor', List.getElem?_eraseIdx, apply_ite] using hq
    obtain ⟨hg'n, hhead⟩ := hvalid.front _ g' hq'
    have hg' : g' ≠ g := fun h => by
      subst h
      have := eq_of_getElem?_eq hvalid.increasing hq' hg
      split at this <;> omega
    refine ⟨hg'n, ?_⟩
    rw [hrest, if_neg hg', hhead]
    simp only [cursor', List.getElem?_eraseIdx]
    split <;> rfl

/-- `get_item` at a valid position takes the last entry of the run at the front of that
group, drops the run from it, and leaves the positions before it as they were. -/
theorem getItem_spec {cursor : DedupCursor} (hvalid : cursor.Valid pubkeyDivision pubkeyBin)
    {p g : ℕ} (hg : cursor.firstItemToPubkeyDivision[p]? = some g) :
    ∃ cursor' item, getItem pubkeyDivision pubkeyBin p cursor = some (cursor', item) ∧
      lastOfRun CalculateHashIntermediate.pubkey (cursor.rest pubkeyDivision pubkeyBin g) =
        some item ∧
      cursor'.Valid pubkeyDivision pubkeyBin ∧
      (∀ g', cursor'.rest pubkeyDivision pubkeyBin g' =
        if g' = g then dropRun CalculateHashIntermediate.pubkey (cursor.rest pubkeyDivision pubkeyBin g)
        else cursor.rest pubkeyDivision pubkeyBin g') ∧
      ∀ q < p, cursor'.firstItemToPubkeyDivision[q]? = cursor.firstItemToPubkeyDivision[q]? := by
  obtain ⟨hgn, hhead⟩ := hvalid.front p g hg
  have hgmem : g ∈ cursor.firstItemToPubkeyDivision := List.mem_of_getElem? hg
  have hp : p < cursor.firstItems.length := by
    rw [hvalid.length_firstItems]; exact (List.getElem?_eq_some_iff.mp hg).1
  obtain ⟨k, hk⟩ : ∃ k, cursor.firstItems[p]? = some k := ⟨_, List.getElem?_eq_getElem hp⟩
  set start := cursor.indexes.getD g 0 with hstartDef
  set bin := binOf pubkeyDivision pubkeyBin g with hbinDef
  have hrest : cursor.rest pubkeyDivision pubkeyBin g = bin.drop start := if_pos hgmem
  rw [hrest, hk] at hhead
  rw [hrest]
  obtain ⟨a, l, hdrop, rfl⟩ : ∃ a l, bin.drop start = a :: l ∧ a.pubkey = k := by
    cases h : bin.drop start with
    | nil => simp [h, headKey] at hhead
    | cons a l => exact ⟨a, l, rfl, by simpa [h, headKey] using hhead⟩
  have hbins : pubkeyDivision[g]? = some pubkeyDivision[g] := List.getElem?_eq_getElem hgn
  have hbin : pubkeyDivision[g][pubkeyBin]? = some bin := by
    have hne : bin ≠ [] := fun h => by simp [h] at hdrop
    simp only [hbinDef, binOf, List.getD_eq_getElem?_getD, hbins, Option.getD_some] at hne ⊢
    cases h : pubkeyDivision[g][pubkeyBin]? with
    | none => simp [h] at hne
    | some b => rfl
  have hstart : cursor.indexes[g]? = some start := by
    rw [hstartDef, List.getD_eq_getElem?_getD,
      List.getElem?_eq_getElem (by rw [hvalid.length_indexes]; exact hgn)]
    rfl
  have hl : bin.drop (start + 1) = l := by
    rw [← List.drop_drop, hdrop, List.drop_one, List.tail_cons]
  obtain ⟨hdropIndex, hlast⟩ := skipKey_spec bin hdrop
  obtain ⟨item, hitem⟩ : ∃ item, lastOfRun CalculateHashIntermediate.pubkey (a :: l) = some item :=
    ⟨_, List.getLast?_eq_some_getLast (List.cons_ne_nil _ _)⟩
  rw [hitem] at hlast
  simp only [getItem, hk, hg, hbins, hbin, hstart, hl, Option.bind_eq_bind, Option.bind_some, hlast]
  rw [hdrop]
  cases hnext : bin[skipKey a.pubkey l (start + 1)]? with
  | none =>
    have hend : dropRun CalculateHashIntermediate.pubkey (a :: l) = [] := by
      rw [← hdropIndex, List.drop_eq_nil_iff]
      exact List.getElem?_eq_none_iff.mp hnext
    obtain ⟨hvalid', hrest', hbefore⟩ := hvalid.remove hg
    refine ⟨_, item, rfl, hitem, hvalid', fun g' => ?_, hbefore⟩
    rw [hrest', hend]
  | some next =>
    have hmore : bin.drop (skipKey a.pubkey l (start + 1)) =
        next :: bin.drop (skipKey a.pubkey l (start + 1) + 1) := by
      obtain ⟨hlt, rfl⟩ := List.getElem?_eq_some_iff.mp hnext
      exact List.drop_eq_getElem_cons hlt
    obtain ⟨hvalid', hrest'⟩ := hvalid.advance hg hmore
    refine ⟨_, item, rfl, hitem, hvalid', fun g' => ?_, fun q _ => rfl⟩
    rw [hrest', ← hbinDef, hdropIndex]

/-- The slot groups at `positions`: those a pass moves past their run. -/
def passDrops (cursor : DedupCursor) (positions : List ℕ) (g : ℕ) : Bool :=
  positions.any fun p => cursor.firstItemToPubkeyDivision[p]? == some g

theorem passDrops_congr {cursor cursor' : DedupCursor} {positions : List ℕ}
    (hsame : ∀ p ∈ positions,
      cursor'.firstItemToPubkeyDivision[p]? = cursor.firstItemToPubkeyDivision[p]?) (g : ℕ) :
    passDrops cursor' positions g = passDrops cursor positions g := by
  unfold passDrops
  rw [Bool.eq_iff_iff, List.any_eq_true, List.any_eq_true]
  constructor <;> rintro ⟨p, hp, h⟩ <;> exact ⟨p, hp, by simpa [hsame p hp] using h⟩

/-- The duplicates move past their runs one after the other, from the last position to the
first, so that a group removed on the way never moves a position still to come. -/
theorem foldlM_getItem_spec : ∀ (positions : List ℕ) {cursor : DedupCursor},
    cursor.Valid pubkeyDivision pubkeyBin → positions.Pairwise (· > ·) →
    (∀ p ∈ positions, p < cursor.firstItemToPubkeyDivision.length) →
    ∃ cursor', positions.foldlM (fun cursor i => (getItem pubkeyDivision pubkeyBin i cursor).map Prod.fst)
        cursor = some cursor' ∧
      cursor'.Valid pubkeyDivision pubkeyBin ∧
      ∀ g, cursor'.rest pubkeyDivision pubkeyBin g =
        if passDrops cursor positions g then
          dropRun CalculateHashIntermediate.pubkey (cursor.rest pubkeyDivision pubkeyBin g)
        else cursor.rest pubkeyDivision pubkeyBin g
  | [], cursor, hvalid, _, _ => ⟨cursor, rfl, hvalid, fun g => by simp [passDrops]⟩
  | p :: positions, cursor, hvalid, hdec, hlt => by
    obtain ⟨g, hg⟩ : ∃ g, cursor.firstItemToPubkeyDivision[p]? = some g :=
      ⟨_, List.getElem?_eq_getElem (hlt p List.mem_cons_self)⟩
    obtain ⟨cursor₁, item, hget, -, hvalid₁, hrest₁, hbefore⟩ := getItem_spec hvalid hg
    have hsame : ∀ q ∈ positions,
        cursor₁.firstItemToPubkeyDivision[q]? = cursor.firstItemToPubkeyDivision[q]? :=
      fun q hq => hbefore q (List.rel_of_pairwise_cons hdec hq)
    obtain ⟨cursor', hfold, hvalid', hrest'⟩ := foldlM_getItem_spec positions hvalid₁ hdec.of_cons
      fun q hq => by
        have h := hsame q hq
        rw [List.getElem?_eq_getElem (hlt q (List.mem_cons_of_mem _ hq))] at h
        exact (List.getElem?_eq_some_iff.mp h).1
    refine ⟨cursor', by simpa [hget] using hfold, hvalid', fun g' => ?_⟩
    rw [hrest', passDrops_congr hsame, hrest₁]
    by_cases hg' : g' = g
    · subst hg'
      have hnot : passDrops cursor positions g' = false := by
        rw [passDrops, List.any_eq_false]
        intro q hq heq
        have := eq_of_getElem?_eq hvalid.increasing (by simpa using heq) hg
        exact absurd (List.rel_of_pairwise_cons hdec hq) (by omega)
      rw [hnot]
      simp [passDrops, hg]
    · have hhead : (cursor.firstItemToPubkeyDivision[p]? == some g') = false := by
        simp [hg, Ne.symm hg']
      simp [passDrops, hg', hhead]

theorem getElem_rests (cursor : DedupCursor) {g : ℕ}
    (hg : g < (cursor.rests pubkeyDivision pubkeyBin).length) :
    (cursor.rests pubkeyDivision pubkeyBin)[g] = cursor.rest pubkeyDivision pubkeyBin g := by
  simp [DedupCursor.rests]

theorem length_rests (cursor : DedupCursor) :
    (cursor.rests pubkeyDivision pubkeyBin).length = pubkeyDivision.length := by
  simp [DedupCursor.rests]

/-- Cursors that moved the groups `drops` selects past their runs leave the step of the
merge that drops those runs. -/
theorem rests_eq_dropRuns {cursor cursor' : DedupCursor} {drops : ℕ → Bool}
    (hrest : ∀ g, cursor'.rest pubkeyDivision pubkeyBin g =
      if drops g then dropRun CalculateHashIntermediate.pubkey (cursor.rest pubkeyDivision pubkeyBin g)
      else cursor.rest pubkeyDivision pubkeyBin g) :
    cursor'.rests pubkeyDivision pubkeyBin =
      dropRuns CalculateHashIntermediate.pubkey drops (cursor.rests pubkeyDivision pubkeyBin) := by
  apply List.ext_getElem
  · simp [length_rests, dropRuns]
  · intro g h₁ h₂
    simp [getElem_rests, dropRuns, hrest]

/-! ## The scan for the smallest key -/

/-- What the scan for the smallest key knows after the first `seen` keys: the position of
the last smallest key, and before it the positions recorded as duplicates. Every position
with the smallest key is recorded; so are positions whose key was the smallest for a while,
each followed by a position with the same key. -/
structure MinScan (firstItems : List Pubkey) (seen : ℕ) (acc : ℕ × Pubkey × List ℕ) : Prop where
  lt_seen : acc.1 < seen
  getElem_minIndex : firstItems[acc.1]? = some acc.2.1
  le : ∀ q k, q < seen → firstItems[q]? = some k → acc.2.1 ≤ k
  lt_of_gt : ∀ q k, acc.1 < q → q < seen → firstItems[q]? = some k → acc.2.1 < k
  increasing : acc.2.2.Pairwise (· < ·)
  lt_minIndex : ∀ d ∈ acc.2.2, d < acc.1
  mem_dups : ∀ q, q < acc.1 → firstItems[q]? = some acc.2.1 → q ∈ acc.2.2
  later : ∀ d ∈ acc.2.2, ∃ q, d < q ∧ q < seen ∧ firstItems[q]? = firstItems[d]?

theorem minScan_start (first : Pubkey) (rest : List Pubkey) :
    MinScan (first :: rest) 1 (0, first, []) where
  lt_seen := Nat.one_pos
  getElem_minIndex := rfl
  le q k hq hk := by
    obtain rfl : q = 0 := by omega
    simp_all
  lt_of_gt q _ hlt hq := by omega
  increasing := List.Pairwise.nil
  lt_minIndex := by simp
  mem_dups q hq := by omega
  later := by simp

/-- One comparison keeps what the scan knows. -/
theorem MinScan.step {firstItems : List Pubkey} {seen : ℕ} {acc : ℕ × Pubkey × List ℕ}
    (hscan : MinScan firstItems seen acc) {key : Pubkey} (hkey : firstItems[seen]? = some key) :
    MinScan firstItems (seen + 1) (findMinStep acc (key, seen)) := by
  obtain ⟨minIndex, minPubkey, dups⟩ := acc
  obtain ⟨hlt, hmin, hle, hgt, hinc, hdlt, hmem, hlater⟩ := hscan
  simp only at hlt hmin hle hgt hinc hdlt hmem hlater
  rcases lt_trichotomy minPubkey key with hkm | rfl | hkm
  · rw [findMinStep, compare_lt_iff_lt.mpr hkm]
    dsimp only
    refine ⟨by omega, hmin, fun q k hq hk => ?_, fun q k hq hq' hk => ?_, hinc, hdlt, hmem,
      fun d hd => ?_⟩
    · rcases Nat.lt_succ_iff_lt_or_eq.mp hq with hq | rfl
      · exact hle q k hq hk
      · exact (Option.some_injective _ (hkey.symm.trans hk)) ▸ hkm.le
    · rcases Nat.lt_succ_iff_lt_or_eq.mp hq' with hq' | rfl
      · exact hgt q k hq hq' hk
      · exact (Option.some_injective _ (hkey.symm.trans hk)) ▸ hkm
    · obtain ⟨q, hdq, hq, heq⟩ := hlater d hd
      exact ⟨q, hdq, by omega, heq⟩
  · rw [findMinStep, compare_eq_iff_eq.mpr rfl]
    dsimp only
    refine ⟨by omega, hkey, fun q k hq hk => ?_, fun q k hq hq' => by omega, ?_, ?_, ?_, ?_⟩
    · rcases Nat.lt_succ_iff_lt_or_eq.mp hq with hq | rfl
      · exact hle q k hq hk
      · exact (Option.some_injective _ (hkey.symm.trans hk)) ▸ le_rfl
    · exact List.pairwise_append.mpr ⟨hinc, List.pairwise_singleton _ _,
        fun d hd e he => (List.mem_singleton.mp he) ▸ hdlt d hd⟩
    · intro d hd
      rcases List.mem_append.mp hd with hd | hd
      · exact (hdlt d hd).trans (by omega)
      · rw [List.mem_singleton.mp hd]; omega
    · intro q hq hk
      rcases lt_trichotomy q minIndex with hq' | rfl | hq'
      · exact List.mem_append_left _ (hmem q hq' hk)
      · exact List.mem_append_right _ (List.mem_singleton_self _)
      · exact absurd (hgt q _ hq' (by omega) hk) (lt_irrefl _)
    · intro d hd
      rcases List.mem_append.mp hd with hd | hd
      · obtain ⟨q, hdq, hq, heq⟩ := hlater d hd
        exact ⟨q, hdq, by omega, heq⟩
      · rw [List.mem_singleton.mp hd]
        exact ⟨seen, hlt, by omega, hkey.trans hmin.symm⟩
  · rw [findMinStep, compare_gt_iff_gt.mpr hkm]
    dsimp only
    refine ⟨by omega, hkey, fun q k hq hk => ?_, fun q k hq hq' => by omega, hinc,
      fun d hd => (hdlt d hd).trans (by omega), fun q hq hk => ?_, fun d hd => ?_⟩
    · rcases Nat.lt_succ_iff_lt_or_eq.mp hq with hq | rfl
      · exact hkm.le.trans (hle q k hq hk)
      · exact (Option.some_injective _ (hkey.symm.trans hk)) ▸ le_rfl
    · exact absurd (hle q key (by omega) hk) (not_le.mpr hkm)
    · obtain ⟨q, hdq, hq, heq⟩ := hlater d hd
      exact ⟨q, hdq, by omega, heq⟩

/-- The scan over every key. -/
theorem MinScan.foldl {firstItems : List Pubkey} :
    ∀ (l : List Pubkey) (seen : ℕ) (acc : ℕ × Pubkey × List ℕ), seen ≤ firstItems.length →
      firstItems.drop seen = l → MinScan firstItems seen acc →
      MinScan firstItems firstItems.length ((l.zipIdx seen).foldl findMinStep acc)
  | [], seen, acc, hseen, hdrop, hscan => by
    obtain rfl : seen = firstItems.length := le_antisymm hseen (List.drop_eq_nil_iff.mp hdrop)
    exact hscan
  | key :: l, seen, acc, _, hdrop, hscan => by
    have hkey : firstItems[seen]? = some key := by rw [← List.head?_drop, hdrop, List.head?_cons]
    have hlt : seen < firstItems.length := (List.getElem?_eq_some_iff.mp hkey).1
    rw [List.zipIdx_cons, List.foldl_cons]
    exact MinScan.foldl l (seen + 1) _ hlt
      (by rw [← List.drop_drop, hdrop, List.drop_one, List.tail_cons]) (hscan.step hkey)

theorem minScan_findMin (first : Pubkey) (rest : List Pubkey) :
    MinScan (first :: rest) (rest.length + 1) ((rest.zipIdx 1).foldl findMinStep (0, first, [])) :=
  MinScan.foldl rest 1 _ (by simp) (by simp) (minScan_start first rest)

/-! ## A pass of the loop -/

/-- Positions in a list of increasing slot groups are in the order of their groups. -/
theorem lt_iff_of_getElem? {l : List ℕ} (hl : l.Pairwise (· < ·)) {p q a b : ℕ}
    (hp : l[p]? = some a) (hq : l[q]? = some b) : p < q ↔ a < b := by
  obtain ⟨hpl, rfl⟩ := List.getElem?_eq_some_iff.mp hp
  obtain ⟨hql, rfl⟩ := List.getElem?_eq_some_iff.mp hq
  refine ⟨fun hpq => List.pairwise_iff_getElem.mp hl p q hpl hql hpq, fun hab => ?_⟩
  by_contra hpq
  rcases Nat.lt_or_eq_of_le (not_lt.mp hpq) with hqp | rfl
  · exact absurd (List.pairwise_iff_getElem.mp hl q p hql hpl hqp) (not_lt.mpr hab.le)
  · exact lt_irrefl _ hab

theorem sorted_rest (hsorted : ∀ g, Sorted CalculateHashIntermediate.pubkey (binOf pubkeyDivision pubkeyBin g))
    (cursor : DedupCursor) (g : ℕ) :
    Sorted CalculateHashIntermediate.pubkey (cursor.rest pubkeyDivision pubkeyBin g) := by
  unfold DedupCursor.rest
  split
  · exact List.Pairwise.sublist (List.drop_sublist _ _) (hsorted g)
  · exact List.Pairwise.nil

/-- A group with entries left has a cursor, at some position. -/
theorem exists_getElem?_of_ne_nil {cursor : DedupCursor} {g : ℕ}
    (hne : cursor.rest pubkeyDivision pubkeyBin g ≠ []) :
    ∃ p : ℕ, cursor.firstItemToPubkeyDivision[p]? = some g := by
  refine List.mem_iff_getElem?.mp ?_
  by_contra hg
  exact hne (if_neg hg)

/-- A pass of the loop from valid cursors: the last group holding the smallest key gives the
winner of that key, and the cursors move on by one step of the merge, past at least one
entry. -/
theorem pass_spec
    (hsorted : ∀ g, Sorted CalculateHashIntermediate.pubkey (binOf pubkeyDivision pubkeyBin g))
    {cursor : DedupCursor} (hvalid : cursor.Valid pubkeyDivision pubkeyBin)
    {first : Pubkey} {rest : List Pubkey} (hitems : cursor.firstItems = first :: rest) :
    ∃ cursor₁ item cursor₂,
      getItem pubkeyDivision pubkeyBin ((rest.zipIdx 1).foldl findMinStep (0, first, [])).1
        cursor = some (cursor₁, item) ∧
      ((rest.zipIdx 1).foldl findMinStep (0, first, [])).2.2.reverse.foldlM
          (fun cursor i => (getItem pubkeyDivision pubkeyBin i cursor).map Prod.fst) cursor₁ =
        some cursor₂ ∧
      cursor₂.Valid pubkeyDivision pubkeyBin ∧
      merge CalculateHashIntermediate.pubkey (cursor.rests pubkeyDivision pubkeyBin) =
        item :: merge CalculateHashIntermediate.pubkey (cursor₂.rests pubkeyDivision pubkeyBin) ∧
      ((cursor₂.rests pubkeyDivision pubkeyBin).map List.length).sum <
        ((cursor.rests pubkeyDivision pubkeyBin).map List.length).sum := by
  have hscan := minScan_findMin first rest
  rw [← hitems, show rest.length + 1 = cursor.firstItems.length by simp [hitems]] at hscan
  generalize (rest.zipIdx 1).foldl findMinStep (0, first, []) = scan at hscan ⊢
  obtain ⟨minIndex, m, dups⟩ := scan
  obtain ⟨hlt, hmin, hle, hgt, hinc, hdlt, hmem, hlater⟩ := hscan
  simp only at hlt hmin hle hgt hinc hdlt hmem hlater ⊢
  have hlen := hvalid.length_firstItems
  have hkeyOf : ∀ p g, cursor.firstItemToPubkeyDivision[p]? = some g →
      ∃ k, cursor.firstItems[p]? = some k := fun p g hp =>
    ⟨_, List.getElem?_eq_getElem (by rw [hlen]; exact (List.getElem?_eq_some_iff.mp hp).1)⟩
  obtain ⟨gmin, hgmin⟩ : ∃ g, cursor.firstItemToPubkeyDivision[minIndex]? = some g :=
    ⟨_, List.getElem?_eq_getElem (by omega)⟩
  obtain ⟨hgminN, hheadMin⟩ := hvalid.front minIndex gmin hgmin
  rw [hmin] at hheadMin
  obtain ⟨cursor₁, item, hget, hitem, hvalid₁, hrest₁, hbefore⟩ := getItem_spec hvalid hgmin
  have hsame : ∀ q ∈ dups.reverse,
      cursor₁.firstItemToPubkeyDivision[q]? = cursor.firstItemToPubkeyDivision[q]? :=
    fun q hq => hbefore q (hdlt q (List.mem_reverse.mp hq))
  obtain ⟨cursor₂, hfold, hvalid₂, hrest₂⟩ := foldlM_getItem_spec dups.reverse hvalid₁
    (List.pairwise_reverse.mpr hinc) fun q hq => by
      have h := hsame q hq
      rw [List.getElem?_eq_getElem (l := cursor.firstItemToPubkeyDivision)
        (by have := hdlt q (List.mem_reverse.mp hq); omega)] at h
      exact (List.getElem?_eq_some_iff.mp h).1
  set drops := passDrops cursor (minIndex :: dups) with hdrops
  have hdropMin : drops gmin = true := by simp [hdrops, passDrops, hgmin]
  have hrest : ∀ g, cursor₂.rest pubkeyDivision pubkeyBin g =
      if drops g then dropRun CalculateHashIntermediate.pubkey (cursor.rest pubkeyDivision pubkeyBin g)
      else cursor.rest pubkeyDivision pubkeyBin g := by
    intro g
    rw [hrest₂, passDrops_congr hsame, hrest₁]
    have hrev : passDrops cursor dups.reverse g = passDrops cursor dups g := by
      simp [passDrops, List.any_reverse]
    by_cases hg : g = gmin
    · subst hg
      have hnot : passDrops cursor dups g = false := by
        rw [passDrops, List.any_eq_false]
        intro q hq heq
        have := eq_of_getElem?_eq hvalid.increasing (by simpa using heq) hgmin
        exact absurd (hdlt q hq) (by omega)
      rw [hrev, hnot, hdropMin]
      simp
    · have hhead : (cursor.firstItemToPubkeyDivision[minIndex]? == some g) = false := by
        simp [hgmin, Ne.symm hg]
      simp [hdrops, passDrops, hg, hhead]
  have hrests := rests_eq_dropRuns hrest
  have hminKey : ∀ g (a : CalculateHashIntermediate), a ∈ cursor.rest pubkeyDivision pubkeyBin g →
      m ≤ a.pubkey := by
    intro g a ha
    obtain ⟨p, hp⟩ := exists_getElem?_of_ne_nil (List.ne_nil_of_mem ha)
    obtain ⟨-, hhead⟩ := hvalid.front p g hp
    obtain ⟨k, hk⟩ := hkeyOf p g hp
    rw [hk] at hhead
    exact (hle p k (List.getElem?_eq_some_iff.mp hk).1 hk).trans
      (headKey_le (sorted_rest hsorted cursor g) hhead ha)
  have hstep : StepOk CalculateHashIntermediate.pubkey m drops (cursor.rests pubkeyDivision pubkeyBin) := by
    intro i hi
    simp only [getElem_rests]
    refine ⟨fun hd => ?_, fun hhead => ?_⟩
    · obtain ⟨p, hp, heq⟩ := List.any_eq_true.mp hd
      have hp' : cursor.firstItemToPubkeyDivision[p]? = some i := by simpa using heq
      rcases List.mem_cons.mp hp with rfl | hpdup
      · obtain rfl : i = gmin := Option.some_injective _ (hp'.symm.trans hgmin)
        exact .inl hheadMin
      · right
        obtain ⟨q, hpq, hq, hkq⟩ := hlater p hpdup
        obtain ⟨j, hj⟩ : ∃ j, cursor.firstItemToPubkeyDivision[q]? = some j :=
          ⟨_, List.getElem?_eq_getElem (by omega)⟩
        obtain ⟨hjn, hheadj⟩ := hvalid.front q j hj
        refine ⟨j, by rw [length_rests]; exact hjn,
          (lt_iff_of_getElem? hvalid.increasing hp' hj).mp hpq, ?_⟩
        rw [hheadj, hkq, (hvalid.front p i hp').2]
    · obtain ⟨p, hp⟩ := exists_getElem?_of_ne_nil
        (fun h : cursor.rest pubkeyDivision pubkeyBin i = [] => by simp [h, headKey] at hhead)
      have hkp := (hvalid.front p i hp).2
      rw [hhead] at hkp
      rcases lt_trichotomy p minIndex with hpm | rfl | hpm
      · exact List.any_eq_true.mpr ⟨p, List.mem_cons_of_mem _ (hmem p hpm hkp.symm), by simpa using hp⟩
      · exact List.any_eq_true.mpr ⟨p, List.mem_cons_self, by simpa using hp⟩
      · exact absurd (hgt p m hpm (by rw [hlen]; exact (List.getElem?_eq_some_iff.mp hp).1)
          hkp.symm) (lt_irrefl m)
  have hlast : ∀ j (hj : j < (cursor.rests pubkeyDivision pubkeyBin).length), gmin < j →
      headKey CalculateHashIntermediate.pubkey (cursor.rests pubkeyDivision pubkeyBin)[j] ≠ some m := by
    intro j hj hgj hhead
    rw [getElem_rests] at hhead
    obtain ⟨q, hq⟩ := exists_getElem?_of_ne_nil
      (fun h : cursor.rest pubkeyDivision pubkeyBin j = [] => by simp [h, headKey] at hhead)
    have hkq := (hvalid.front q j hq).2
    rw [hhead] at hkq
    exact lt_irrefl m (hgt q m ((lt_iff_of_getElem? hvalid.increasing hgmin hq).mpr hgj)
      (by rw [hlen]; exact (List.getElem?_eq_some_iff.mp hq).1) hkq.symm)
  have hgminRests : gmin < (cursor.rests pubkeyDivision pubkeyBin).length := by
    rw [length_rests]; exact hgminN
  have hmerge := merge_dropRuns
    (fun r hr => by
      obtain ⟨g, -, rfl⟩ := List.mem_map.mp hr
      exact sorted_rest hsorted cursor g)
    (fun r hr a ha => by
      obtain ⟨g, -, rfl⟩ := List.mem_map.mp hr
      exact hminKey g a ha)
    hstep hgminRests (by rw [getElem_rests]; exact hheadMin) hlast
  refine ⟨cursor₁, item, cursor₂, hget, hfold, hvalid₂, ?_, ?_⟩
  · rw [hmerge, getElem_rests, hitem, hrests]
    rfl
  · rw [hrests]
    exact sum_length_dropRuns_lt hgminRests hdropMin
      (by rw [getElem_rests]; exact fun h => by simp [h, headKey] at hheadMin)

/-- Without cursors nothing is left. -/
theorem rests_eq_nil {cursor : DedupCursor} (hvalid : cursor.Valid pubkeyDivision pubkeyBin)
    (hitems : cursor.firstItems = []) :
    ∀ r ∈ cursor.rests pubkeyDivision pubkeyBin, r = [] := by
  have hdiv : cursor.firstItemToPubkeyDivision = [] := by
    rw [← List.length_eq_zero_iff, ← hvalid.length_firstItems, hitems, List.length_nil]
  intro r hr
  obtain ⟨g, -, rfl⟩ := List.mem_map.mp hr
  simp [DedupCursor.rest, hdiv]

/-! ## The loop -/

/-- From valid cursors with enough fuel, the loop hashes the winners of what is left that it
keeps, in increasing order of their pubkeys, and adds up their lamports. -/
theorem deDupLoop_eq (hasher : AccountsHash)
    (hsorted : ∀ g, Sorted CalculateHashIntermediate.pubkey (binOf pubkeyDivision pubkeyBin g)) :
    ∀ (fuel : ℕ) (cursor : DedupCursor) (hashes : List Hash) (overallSum : ℕ),
      cursor.Valid pubkeyDivision pubkeyBin →
      ((cursor.rests pubkeyDivision pubkeyBin).map List.length).sum ≤ fuel →
      overallSum + (((merge CalculateHashIntermediate.pubkey (cursor.rests pubkeyDivision pubkeyBin)).filter
        hasher.keepsItem).map CalculateHashIntermediate.lamports).sum ≤ u64Max →
      deDupLoop hasher pubkeyDivision pubkeyBin fuel cursor hashes overallSum =
        some (hashes ++ ((merge CalculateHashIntermediate.pubkey (cursor.rests pubkeyDivision pubkeyBin)).filter
            hasher.keepsItem).map CalculateHashIntermediate.hash,
          overallSum + (((merge CalculateHashIntermediate.pubkey (cursor.rests pubkeyDivision pubkeyBin)).filter
            hasher.keepsItem).map CalculateHashIntermediate.lamports).sum) := by
  intro fuel
  induction fuel with
  | zero =>
    intro cursor hashes overallSum hvalid hfuel _
    cases hitems : cursor.firstItems with
    | nil =>
      rw [merge_eq_nil (rests_eq_nil hvalid hitems)]
      simp [deDupLoop, hitems]
    | cons first rest =>
      obtain ⟨_, _, _, _, _, _, _, hless⟩ := pass_spec hsorted hvalid hitems
      omega
  | succ fuel ih =>
    intro cursor hashes overallSum hvalid hfuel hsum
    cases hitems : cursor.firstItems with
    | nil =>
      rw [merge_eq_nil (rests_eq_nil hvalid hitems)]
      simp [deDupLoop, hitems]
    | cons first rest =>
      obtain ⟨cursor₁, item, cursor₂, hget, hfold, hvalid₂, hmerge, hless⟩ :=
        pass_spec hsorted hvalid hitems
      rw [hmerge] at hsum ⊢
      rw [deDupLoop.eq_def]
      dsimp only
      rw [hitems]
      simp only [hget, Option.bind_eq_bind, Option.bind_some]
      by_cases hkeep : hasher.keepsItem item = true
      · simp only [List.filter_cons_of_pos hkeep, List.map_cons, List.sum_cons] at hsum ⊢
        have hcast : checkedCastForCapitalization (item.lamports + overallSum) =
            some (item.lamports + overallSum) := if_pos (by omega)
        simp only [hkeep, if_true, hcast, Option.map_some, Option.bind_some, hfold]
        rw [ih cursor₂ _ _ hvalid₂ (by omega) (by omega)]
        simp only [List.append_assoc, List.singleton_append, Option.some.injEq, Prod.mk.injEq,
          true_and]
        omega
      · simp only [List.filter_cons_of_neg hkeep] at hsum ⊢
        simp only [hkeep, Bool.false_eq_true, if_false, Option.bind_some, hfold]
        rw [ih cursor₂ _ _ hvalid₂ (by omega) hsum]

/-! ## The set-up of the cursors -/

theorem binOf_of_getElem? {g : ℕ} {bins : List (List CalculateHashIntermediate)}
    (hbins : pubkeyDivision[g]? = some bins) :
    binOf pubkeyDivision pubkeyBin g = bins.getD pubkeyBin [] := by
  simp [binOf, List.getD_eq_getElem?_getD, hbins]

theorem binOf_of_length_le {g : ℕ} (hg : pubkeyDivision.length ≤ g) :
    binOf pubkeyDivision pubkeyBin g = [] := by
  simp [binOf, List.getD_eq_getElem?_getD, List.getElem?_eq_none hg]

variable (pubkeyDivision pubkeyBin) in
/-- The cursors the set-up leaves: one at the start of every slot group with entries in the
bin. -/
def initialCursor : DedupCursor :=
  let groups := (List.range pubkeyDivision.length).filter fun g => binOf pubkeyDivision pubkeyBin g ≠ []
  ⟨groups.map fun g =>
      ((binOf pubkeyDivision pubkeyBin g).head?.map CalculateHashIntermediate.pubkey).getD 0,
    groups, List.replicate pubkeyDivision.length 0⟩

/-- The set-up over the first `k` slot groups. -/
theorem foldl_take_initStep (indexes : List ℕ) (k : ℕ) :
    (pubkeyDivision.zipIdx.take k).foldl (initStep pubkeyBin) (⟨[], [], indexes⟩, 0) =
      (⟨((List.range k).filter fun g => binOf pubkeyDivision pubkeyBin g ≠ []).map fun g =>
            ((binOf pubkeyDivision pubkeyBin g).head?.map CalculateHashIntermediate.pubkey).getD 0,
          (List.range k).filter fun g => binOf pubkeyDivision pubkeyBin g ≠ [], indexes⟩,
        ((List.range k).map fun g => (binOf pubkeyDivision pubkeyBin g).length).sum) := by
  induction k with
  | zero => simp
  | succ k ih =>
    rw [List.take_add_one, List.foldl_append, ih, List.range_succ, List.filter_append,
      List.map_append, List.map_append, List.sum_append, List.getElem?_zipIdx]
    cases hbins : pubkeyDivision[k]? with
    | none =>
      have hbin : binOf pubkeyDivision pubkeyBin k = [] :=
        binOf_of_length_le (List.getElem?_eq_none_iff.mp hbins)
      simp [hbin]
    | some bins =>
      have hbinK : binOf pubkeyDivision pubkeyBin k = bins.getD pubkeyBin [] :=
        binOf_of_getElem? hbins
      cases hbin : bins[pubkeyBin]? with
      | none =>
        have hnil : binOf pubkeyDivision pubkeyBin k = [] := by
          simp [hbinK, List.getD_eq_getElem?_getD, hbin]
        simp [initStep, hbin, hnil]
      | some bin =>
        have hbinK' : binOf pubkeyDivision pubkeyBin k = bin := by
          simp [hbinK, List.getD_eq_getElem?_getD, hbin]
        cases bin with
        | nil => simp [initStep, hbin, hbinK']
        | cons first rest => simp [initStep, hbin, hbinK']

theorem foldl_initStep :
    pubkeyDivision.zipIdx.foldl (initStep pubkeyBin)
        (⟨[], [], List.replicate pubkeyDivision.length 0⟩, 0) =
      (initialCursor pubkeyDivision pubkeyBin,
        (pubkeyDivision.map fun bins => (bins.getD pubkeyBin []).length).sum) := by
  have hgroups : (List.range pubkeyDivision.length).map (binOf pubkeyDivision pubkeyBin) =
      pubkeyDivision.map (fun bins => bins.getD pubkeyBin []) := by
    apply List.ext_getElem
    · simp
    · intro g h₁ h₂
      simp [binOf_of_getElem? (List.getElem?_eq_getElem (by simpa using h₁))]
  rw [← List.take_length (l := pubkeyDivision.zipIdx), List.length_zipIdx,
    foldl_take_initStep, initialCursor]
  congr 1
  have hsum := congrArg (fun l => (l.map List.length).sum) hgroups
  simp only [List.map_map] at hsum
  exact hsum

theorem rest_initialCursor (g : ℕ) :
    (initialCursor pubkeyDivision pubkeyBin).rest pubkeyDivision pubkeyBin g =
      binOf pubkeyDivision pubkeyBin g := by
  by_cases hne : binOf pubkeyDivision pubkeyBin g = []
  · simp [DedupCursor.rest, initialCursor, hne]
  · by_cases hg : g < pubkeyDivision.length
    · simp [DedupCursor.rest, initialCursor, hne, hg, List.getD_eq_getElem?_getD]
    · exact absurd (binOf_of_length_le (not_lt.mp hg)) hne

theorem valid_initialCursor :
    (initialCursor pubkeyDivision pubkeyBin).Valid pubkeyDivision pubkeyBin where
  length_firstItems := by simp [initialCursor]
  length_indexes := by simp [initialCursor]
  increasing := List.Pairwise.filter _ List.pairwise_lt_range
  front p g hp := by
    have hmem : g ∈ (initialCursor pubkeyDivision pubkeyBin).firstItemToPubkeyDivision :=
      List.mem_of_getElem? hp
    simp only [initialCursor, List.mem_filter, List.mem_range, decide_eq_true_eq] at hmem
    refine ⟨hmem.1, ?_⟩
    rw [rest_initialCursor]
    simp only [initialCursor, List.getElem?_map] at hp ⊢
    rw [hp]
    cases h : binOf pubkeyDivision pubkeyBin g with
    | nil => exact absurd h hmem.2
    | cons first rest => simp [h, headKey]

theorem rests_initialCursor :
    (initialCursor pubkeyDivision pubkeyBin).rests pubkeyDivision pubkeyBin =
      pubkeyDivision.map fun bins => bins.getD pubkeyBin [] := by
  apply List.ext_getElem
  · simp [length_rests]
  · intro g h₁ h₂
    rw [getElem_rests, rest_initialCursor, List.getElem_map,
      binOf_of_getElem? (List.getElem?_eq_getElem (by simpa using h₂))]

end Cursor

/-! ## De-duplication -/

theorem deDupAccountsInParallel_eq (hasher : AccountsHash)
    (pubkeyDivision : List (List (List CalculateHashIntermediate))) (pubkeyBin : ℕ)
    (hsorted : ∀ bins ∈ pubkeyDivision,
      Sorted CalculateHashIntermediate.pubkey (bins.getD pubkeyBin []))
    (hsum : (((merge CalculateHashIntermediate.pubkey
        (pubkeyDivision.map fun bins => bins.getD pubkeyBin [])).filter hasher.keepsItem).map
          CalculateHashIntermediate.lamports).sum ≤ u64Max) :
    let kept := (merge CalculateHashIntermediate.pubkey
      (pubkeyDivision.map fun bins => bins.getD pubkeyBin [])).filter hasher.keepsItem
    deDupAccountsInParallel hasher pubkeyDivision pubkeyBin =
      some (kept.map CalculateHashIntermediate.hash,
        (kept.map CalculateHashIntermediate.lamports).sum,
        (pubkeyDivision.map fun bins => (bins.getD pubkeyBin []).length).sum) := by
  intro kept
  have hsortedBin : ∀ g, Sorted CalculateHashIntermediate.pubkey (binOf pubkeyDivision pubkeyBin g) := by
    intro g
    cases hg : pubkeyDivision[g]? with
    | none =>
      rw [binOf_of_length_le (List.getElem?_eq_none_iff.mp hg)]
      exact List.Pairwise.nil
    | some bins =>
      rw [binOf_of_getElem? hg]
      exact hsorted bins (List.mem_of_getElem? hg)
  have hfuel : (((initialCursor pubkeyDivision pubkeyBin).rests pubkeyDivision pubkeyBin).map
      List.length).sum ≤ (pubkeyDivision.map fun bins => (bins.getD pubkeyBin []).length).sum := by
    rw [rests_initialCursor, List.map_map]
    rfl
  rw [deDupAccountsInParallel, foldl_initStep]
  dsimp only
  rw [deDupLoop_eq hasher hsortedBin _ _ [] 0 valid_initialCursor hfuel
    (by rw [rests_initialCursor, Nat.zero_add]; exact hsum), rests_initialCursor]
  simp [kept]

theorem deDupAccountsInParallel_eq_threeGroups :
    let pubkeyDivision : List (List (List CalculateHashIntermediate)) :=
      [[[⟨1, 1, 5⟩, ⟨11, 1, 7⟩]], [[⟨2, 2, 5⟩, ⟨12, 1, 6⟩]], [[⟨3, 3, 3⟩, ⟨4, 4, 6⟩]]]
    (∀ bins ∈ pubkeyDivision, Sorted CalculateHashIntermediate.pubkey (bins.getD 0 [])) ∧
      (((merge CalculateHashIntermediate.pubkey (pubkeyDivision.map fun bins => bins.getD 0 [])).filter
        (AccountsHash.keepsItem ⟨none⟩)).map CalculateHashIntermediate.lamports).sum ≤ u64Max ∧
      deDupAccountsInParallel ⟨none⟩ pubkeyDivision 0 = some ([3, 2, 4, 11], 10, 6) := by
  intro pubkeyDivision
  have hsorted : ∀ bins ∈ pubkeyDivision,
      Sorted CalculateHashIntermediate.pubkey (bins.getD 0 []) := by decide
  have hsum : (((merge CalculateHashIntermediate.pubkey
      (pubkeyDivision.map fun bins => bins.getD 0 [])).filter (AccountsHash.keepsItem ⟨none⟩)).map
        CalculateHashIntermediate.lamports).sum ≤ u64Max := by decide
  refine ⟨hsorted, hsum, ?_⟩
  rw [deDupAccountsInParallel_eq ⟨none⟩ pubkeyDivision 0 hsorted hsum]
  decide

/-- Within a slot group the loop moves to the end of the run of a pubkey and takes its last
entry: of two entries for one account in a bin, the second is hashed, not the first. -/
theorem deDupAccountsInParallel_last_of_run :
    let bin : List CalculateHashIntermediate := [⟨10, 5, 1⟩, ⟨20, 7, 1⟩]
    bin.find? (fun item => item.pubkey = 1) = some ⟨10, 5, 1⟩ ∧
      deDupAccountsInParallel ⟨none⟩ [[bin]] 0 = some ([20], 7, 2) := by
  decide

end Solana.AccountsHash
