import Solana.Sdk.Basic
import Solana.Lib.Upsert
import Mathlib

/-! `gossip/src/crds.rs` as a map from labels to values: `overrides` is a strict total order on a
label's values under its hypotheses (`strictTotalOn_label`), so inserts converge
(`insertAll_converges`); in general they do not (`insertAll_depends_on_order`). -/

namespace Solana.Gossip

open Upsert

/-- `NodeInstance`; `from` is a keyword of Lean, so the origin is `origin` here. -/
structure NodeInstance where
  origin : Pubkey
  wallclock : ℕ
  timestamp : ℕ
  token : ℕ
  deriving DecidableEq, Repr

/-- A value of the other kinds as the table reads it: its origin (`from`, or a contact
info's `id`) and its wallclock. `rest` is the remaining content, which only the hash of the
value sees. -/
structure Record where
  origin : Pubkey
  wallclock : ℕ
  rest : ℕ
  deriving DecidableEq, Repr

inductive CrdsData where
  | contactInfo (contactInfo : Record)
  | vote (index : ℕ) (vote : Record)
  | lowestSlot (index : ℕ) (lowestSlot : Record)
  | snapshotHashes (snapshotHashes : Record)
  | accountsHashes (accountsHashes : Record)
  | epochSlots (index : ℕ) (epochSlots : Record)
  | legacyVersion (version : Record)
  | version (version : Record)
  | nodeInstance (node : NodeInstance)
  | duplicateShred (index : ℕ) (shred : Record)
  | incrementalSnapshotHashes (incrementalSnapshotHashes : Record)
  deriving DecidableEq, Repr

structure CrdsValue where
  signature : ℕ
  data : CrdsData
  deriving DecidableEq, Repr

inductive CrdsValueLabel where
  | contactInfo (pubkey : Pubkey)
  | vote (index : ℕ) (pubkey : Pubkey)
  | lowestSlot (pubkey : Pubkey)
  | snapshotHashes (pubkey : Pubkey)
  | epochSlots (index : ℕ) (pubkey : Pubkey)
  | accountsHashes (pubkey : Pubkey)
  | legacyVersion (pubkey : Pubkey)
  | version (pubkey : Pubkey)
  | nodeInstance (pubkey : Pubkey)
  | duplicateShred (index : ℕ) (pubkey : Pubkey)
  | incrementalSnapshotHashes (pubkey : Pubkey)
  deriving DecidableEq, Repr

namespace CrdsValue

def wallclock (value : CrdsValue) : ℕ :=
  match value.data with
  | .contactInfo contactInfo => contactInfo.wallclock
  | .vote _ vote => vote.wallclock
  | .lowestSlot _ lowestSlot => lowestSlot.wallclock
  | .snapshotHashes snapshotHashes => snapshotHashes.wallclock
  | .accountsHashes accountsHashes => accountsHashes.wallclock
  | .epochSlots _ epochSlots => epochSlots.wallclock
  | .legacyVersion version => version.wallclock
  | .version version => version.wallclock
  | .nodeInstance node => node.wallclock
  | .duplicateShred _ shred => shred.wallclock
  | .incrementalSnapshotHashes incrementalSnapshotHashes => incrementalSnapshotHashes.wallclock

def pubkey (value : CrdsValue) : Pubkey :=
  match value.data with
  | .contactInfo contactInfo => contactInfo.origin
  | .vote _ vote => vote.origin
  | .lowestSlot _ lowestSlot => lowestSlot.origin
  | .snapshotHashes snapshotHashes => snapshotHashes.origin
  | .accountsHashes accountsHashes => accountsHashes.origin
  | .epochSlots _ epochSlots => epochSlots.origin
  | .legacyVersion version => version.origin
  | .version version => version.origin
  | .nodeInstance node => node.origin
  | .duplicateShred _ shred => shred.origin
  | .incrementalSnapshotHashes incrementalSnapshotHashes => incrementalSnapshotHashes.origin

/-- The label: the kind, the origin, and the index of an indexed kind (the deprecated index
of `LowestSlot` is not part of it). -/
def label (value : CrdsValue) : CrdsValueLabel :=
  match value.data with
  | .contactInfo _ => .contactInfo value.pubkey
  | .vote index _ => .vote index value.pubkey
  | .lowestSlot _ _ => .lowestSlot value.pubkey
  | .snapshotHashes _ => .snapshotHashes value.pubkey
  | .accountsHashes _ => .accountsHashes value.pubkey
  | .epochSlots index _ => .epochSlots index value.pubkey
  | .legacyVersion _ => .legacyVersion value.pubkey
  | .version _ => .version value.pubkey
  | .nodeInstance node => .nodeInstance node.origin
  | .duplicateShred index shred => .duplicateShred index shred.origin
  | .incrementalSnapshotHashes _ => .incrementalSnapshotHashes value.pubkey

end CrdsValue

/-- `NodeInstance::overrides`: `none` unless the other value is an instance of the same
origin with another token; then the later start wins, and on equal starts the greater
token. -/
def NodeInstance.overrides (self : NodeInstance) (other : CrdsValue) : Option Bool :=
  match other.data with
  | .nodeInstance other =>
    if self.token = other.token ∨ self.origin ≠ other.origin then none
    else
      match compare self.timestamp other.timestamp with
      | .lt => some false
      | .gt => some true
      | .eq => some (decide (other.token < self.token))
  | _ => none

/-- The comparison of `overrides` for every kind: the later wallclock, and on equal
wallclocks the greater hash of the serialized value. -/
def overridesByWallclock (hash : CrdsValue → Hash) (value other : CrdsValue) : Bool :=
  match compare value.wallclock other.wallclock with
  | .lt => false
  | .gt => true
  | .eq => decide (hash other < hash value)

/-- `overrides`: whether `value` updates `other`, a value of the same label. -/
def overrides (hash : CrdsValue → Hash) (value other : CrdsValue) : Bool :=
  match value.data with
  | .nodeInstance node =>
    match node.overrides other with
    | some out => out
    | none => overridesByWallclock hash value other
  | _ => overridesByWallclock hash value other

/-- The table: the value held for each label. -/
abbrev CrdsTable := CrdsValueLabel → Option CrdsValue

inductive CrdsError where
  | insertFailed
  | unknownStakes
  deriving DecidableEq, Repr

def upserts (hash : CrdsValue → Hash) (table : CrdsTable) (value : CrdsValue) : Bool :=
  match table value.label with
  | some other => overrides hash value other
  | none => true

/-- `Crds::insert`: a value goes in when its label is vacant or it overrides the value held;
otherwise it is outdated and `InsertFailed`. -/
def insert (hash : CrdsValue → Hash) (table : CrdsTable) (value : CrdsValue) :
    Except CrdsError CrdsTable :=
  let label := value.label
  match table label with
  | none => .ok (Function.update table label (some value))
  | some other =>
    if overrides hash value other then .ok (Function.update table label (some value))
    else .error .insertFailed

/-- Values inserted one after the other; a failed insert leaves the table. -/
def insertAll (hash : CrdsValue → Hash) (table : CrdsTable) (values : List CrdsValue) :
    CrdsTable :=
  values.foldl (fun table value =>
    match insert hash table value with
    | .ok table => table
    | .error _ => table) table

/-! ## The table holds the upserted value of each label -/

/-- `overrides` as a relation, the order `upsert` keeps the greatest value of. -/
def Overrides (hash : CrdsValue → Hash) (value other : CrdsValue) : Prop :=
  overrides hash value other = true

instance (hash : CrdsValue → Hash) : DecidableRel (Overrides hash) :=
  fun value other => inferInstanceAs (Decidable (overrides hash value other = true))

variable {hash : CrdsValue → Hash}

/-- An insert upserts the value at its label and leaves the others. -/
theorem insert_apply (table : CrdsTable) (value : CrdsValue) (label : CrdsValueLabel) :
    (match insert hash table value with
      | .ok table => table
      | .error _ => table) label =
      if label = value.label then upsert (Overrides hash) (table label) value
      else table label := by
  unfold insert
  dsimp only
  cases hheld : table value.label with
  | none =>
    by_cases hlabel : label = value.label
    · subst hlabel
      simp [hheld, upsert]
    · simp [hlabel]
  | some other =>
    by_cases hover : overrides hash value other = true
    · by_cases hlabel : label = value.label
      · subst hlabel
        simp [hheld, hover, upsert, Overrides]
      · simp [hover, hlabel]
    · by_cases hlabel : label = value.label
      · subst hlabel
        simp [hheld, hover, upsert, Overrides]
      · simp [hover, hlabel]

/-- After a run of inserts a label holds the upsert of its values, in the order inserted. -/
theorem insertAll_apply (table : CrdsTable) (values : List CrdsValue)
    (label : CrdsValueLabel) :
    insertAll hash table values label =
      (values.filter (·.label = label)).foldl (upsert (Overrides hash)) (table label) := by
  induction values generalizing table with
  | nil => rfl
  | cons value values ih =>
    rw [insertAll, List.foldl_cons, ← insertAll, ih, insert_apply]
    by_cases hlabel : value.label = label
    · simp [hlabel]
    · simp [hlabel, Ne.symm hlabel]

/-! ## Insertion order matters -/

/-- Two instances of one token, the later one started first, and an instance of another
token started in between. -/
def cycleValues : List CrdsValue :=
  [⟨0, .nodeInstance ⟨0, 5, 10, 1⟩⟩, ⟨0, .nodeInstance ⟨0, 10, 0, 1⟩⟩,
    ⟨0, .nodeInstance ⟨0, 0, 5, 2⟩⟩]

/-- Hashing a value by its signature, the three instances override one another in a cycle,
and inserting them in two orders leaves two different values. -/
theorem insertAll_depends_on_order :
    (overrides CrdsValue.signature ⟨0, .nodeInstance ⟨0, 10, 0, 1⟩⟩
        ⟨0, .nodeInstance ⟨0, 5, 10, 1⟩⟩ ∧
      overrides CrdsValue.signature ⟨0, .nodeInstance ⟨0, 5, 10, 1⟩⟩
        ⟨0, .nodeInstance ⟨0, 0, 5, 2⟩⟩ ∧
      overrides CrdsValue.signature ⟨0, .nodeInstance ⟨0, 0, 5, 2⟩⟩
        ⟨0, .nodeInstance ⟨0, 10, 0, 1⟩⟩) ∧
    insertAll CrdsValue.signature (fun _ => none) cycleValues (.nodeInstance 0) =
        some ⟨0, .nodeInstance ⟨0, 0, 5, 2⟩⟩ ∧
      insertAll CrdsValue.signature (fun _ => none) (cycleValues.rotate 1) (.nodeInstance 0) =
        some ⟨0, .nodeInstance ⟨0, 5, 10, 1⟩⟩ := by
  rw [insertAll_apply, insertAll_apply]
  exact ⟨⟨rfl, rfl, rfl⟩, rfl, rfl⟩

/-! ## A strict total order on the values of a label -/

/-- The instances of one origin and one token started at one time: `NodeInstance::new`
draws the token, and `with_wallclock` keeps the timestamp. -/
def ConsistentInstances (value other : CrdsValue) : Prop :=
  ∀ node other', value.data = .nodeInstance node → other.data = .nodeInstance other' →
    node.origin = other'.origin → node.token = other'.token →
    node.timestamp = other'.timestamp

/-- What `overrides` compares: the start and the token of a node instance, then the
wallclock and the hash. -/
def overridesKey (hash : CrdsValue → Hash) (value : CrdsValue) : (ℕ ×ₗ ℕ) ×ₗ (ℕ ×ₗ ℕ) :=
  match value.data with
  | .nodeInstance node =>
    toLex (toLex (node.timestamp, node.token), toLex (value.wallclock, hash value))
  | _ => toLex (toLex (0, 0), toLex (value.wallclock, hash value))

theorem overridesByWallclock_iff (value other : CrdsValue) :
    overridesByWallclock hash value other = true ↔
      toLex (other.wallclock, hash other) < toLex (value.wallclock, hash value) := by
  rw [Prod.Lex.toLex_lt_toLex, overridesByWallclock]
  rcases lt_trichotomy value.wallclock other.wallclock with hlt | heq | hgt
  · rw [compare_lt_iff_lt.mpr hlt]
    simp only [Bool.false_eq_true, false_iff, not_or, not_and]
    exact ⟨Nat.lt_asymm hlt, fun heq => absurd heq (Nat.ne_of_gt hlt)⟩
  · rw [compare_eq_iff_eq.mpr heq, heq]
    simp
  · rw [compare_gt_iff_gt.mpr hgt]
    simp [hgt]

/-- A value of the label of a node instance is a node instance of its origin. -/
theorem nodeInstance_of_label_eq {value other : CrdsValue} {node : NodeInstance}
    (hlabel : value.label = other.label) (hnode : value.data = .nodeInstance node) :
    ∃ node', other.data = .nodeInstance node' ∧ node'.origin = node.origin := by
  cases hother : other.data <;>
    simp [CrdsValue.label, CrdsValue.pubkey, hnode, hother] at hlabel
  exact ⟨_, rfl, hlabel.symm⟩

theorem key_of_not_nodeInstance {value : CrdsValue}
    (hvalue : ∀ node, value.data ≠ .nodeInstance node) :
    overridesKey hash value = toLex (toLex (0, 0), toLex (value.wallclock, hash value)) := by
  unfold overridesKey
  split
  · rename_i node hnode
    exact absurd hnode (hvalue node)
  · rfl

/-- Within a label, and with instances of one token started at one time, `overrides`
compares keys. -/
theorem overrides_iff_key {value other : CrdsValue} (hlabel : value.label = other.label)
    (hconsistent : ConsistentInstances value other) :
    overrides hash value other = true ↔ overridesKey hash other < overridesKey hash value := by
  unfold overrides
  split
  case h_1 node hnode =>
    obtain ⟨node', hother, horigin⟩ := nodeInstance_of_label_eq hlabel hnode
    have hkey : overridesKey hash value =
        toLex (toLex (node.timestamp, node.token), toLex (value.wallclock, hash value)) := by
      simp [overridesKey, hnode]
    have hkey' : overridesKey hash other =
        toLex (toLex (node'.timestamp, node'.token), toLex (other.wallclock, hash other)) := by
      simp [overridesKey, hother]
    rw [hkey, hkey', Prod.Lex.toLex_lt_toLex, Prod.Lex.toLex_lt_toLex]
    unfold NodeInstance.overrides
    rw [hother]
    by_cases htoken : node.token = node'.token
    · have htimestamp := hconsistent node node' hnode hother horigin.symm htoken
      simp only [htoken, true_or, if_true, htimestamp, lt_irrefl, false_or, true_and]
      exact overridesByWallclock_iff value other
    · have hne : ¬(node.token = node'.token ∨ node.origin ≠ node'.origin) := by
        simp [htoken, horigin]
      simp only [hne, if_false]
      rcases lt_trichotomy node.timestamp node'.timestamp with hlt | heq | hgt
      · rw [compare_lt_iff_lt.mpr hlt]
        simp only [toLex_inj, Prod.mk.injEq, Bool.false_eq_true, false_iff]
        rintro ((hlt' | ⟨heq', -⟩) | ⟨⟨heq', -⟩, -⟩) <;> omega
      · rw [compare_eq_iff_eq.mpr heq, heq]
        simp only [decide_eq_true_eq, lt_irrefl, false_or, true_and, toLex_inj, Prod.mk.injEq]
        constructor
        · exact .inl
        · rintro (hlt | ⟨heq', -⟩)
          · exact hlt
          · exact absurd heq'.symm htoken
      · rw [compare_gt_iff_gt.mpr hgt]
        simp only [true_iff]
        exact .inl (.inl hgt)
  case h_2 hvalue =>
    have hother : ∀ node, other.data ≠ .nodeInstance node := by
      intro node hnode
      obtain ⟨node', hnode', -⟩ := nodeInstance_of_label_eq hlabel.symm hnode
      exact hvalue node' hnode'
    rw [key_of_not_nodeInstance hvalue, key_of_not_nodeInstance hother,
      Prod.Lex.toLex_lt_toLex, overridesByWallclock_iff]
    simp

/-- The key tells apart the values of a label whose hashes differ. -/
theorem overridesKey_injOn {values : List CrdsValue} {label : CrdsValueLabel}
    (hhash : ∀ value ∈ values, ∀ other ∈ values, value.label = other.label →
      hash value = hash other → value = other) :
    Set.InjOn (overridesKey hash) {value | value ∈ values ∧ value.label = label} := by
  intro value hvalue other hother hkey
  apply hhash value hvalue.1 other hother.1 (hvalue.2.trans hother.2.symm)
  unfold overridesKey at hkey
  split at hkey <;> split at hkey <;> simp_all

/-- `overrides` is a strict total order on the values of each label, when distinct values
of a label have distinct hashes and the instances of one token started at one time. -/
theorem strictTotalOn_label {values : List CrdsValue}
    (hhash : ∀ value ∈ values, ∀ other ∈ values, value.label = other.label →
      hash value = hash other → value = other)
    (hconsistent : ∀ value ∈ values, ∀ other ∈ values, ConsistentInstances value other)
    (label : CrdsValueLabel) :
    StrictTotalOn (Overrides hash) {value | value ∈ values ∧ value.label = label} :=
  strictTotalOn_of_key (overridesKey hash)
    (fun value hvalue other hother => overrides_iff_key (hvalue.2.trans hother.2.symm)
      (hconsistent value hvalue.1 other hother.1))
    (overridesKey_injOn hhash)

/-- Gossip converges: `overrides` is a strict total order on the values of each label, and
any two runs of inserts into an empty table of the same values, in any order and with any
repetitions, leave the same table, which holds for each label the value that overrides
every other value of the label. -/
theorem insertAll_converges (hash : CrdsValue → Hash) (values : List CrdsValue)
    (hhash : ∀ value ∈ values, ∀ other ∈ values, value.label = other.label →
      hash value = hash other → value = other)
    (hconsistent : ∀ value ∈ values, ∀ other ∈ values, ConsistentInstances value other)
    (run run' : List CrdsValue) (hrun : ∀ value, value ∈ run ↔ value ∈ values)
    (hrun' : ∀ value, value ∈ run' ↔ value ∈ values) :
    (∀ label, StrictTotalOn (Overrides hash) {value | value ∈ values ∧ value.label = label}) ∧
    insertAll hash (fun _ => none) run = insertAll hash (fun _ => none) run' ∧
      ∀ label, (insertAll hash (fun _ => none) run label = none ↔
          ∀ value ∈ values, value.label ≠ label) ∧
        ∀ value, insertAll hash (fun _ => none) run label = some value →
          value ∈ values ∧ value.label = label ∧
            ∀ other ∈ values, other.label = label → other ≠ value →
              overrides hash value other = true := by
  have horder := strictTotalOn_label hhash hconsistent
  have hmem : ∀ label value, value ∈ run.filter (·.label = label) ↔
      value ∈ values ∧ value.label = label := by
    intro label value
    simp [hrun]
  have hin : ∀ label, ∀ value ∈ run.filter (·.label = label),
      value ∈ {value | value ∈ values ∧ value.label = label} :=
    fun label value hvalue => (hmem label value).mp hvalue
  refine ⟨horder, funext fun label => ?_, fun label => ⟨?_, fun value hvalue => ?_⟩⟩
  · rw [insertAll_apply, insertAll_apply]
    exact (horder label).foldl_upsert_congr (hin label) fun value => by
      rw [hmem, List.mem_filter, hrun', decide_eq_true_iff]
  · rw [insertAll_apply, foldl_upsert_eq_none, List.filter_eq_nil_iff]
    simp [hrun]
  · rw [insertAll_apply] at hvalue
    have hne : run.filter (·.label = label) ≠ [] := by
      intro hnil
      rw [hnil] at hvalue
      cases hvalue
    obtain ⟨held, hheld, hgreatest⟩ := (horder label).foldl_upsert_none (hin label) hne
    rw [hheld, Option.some.injEq] at hvalue
    subst hvalue
    obtain ⟨hvalues, hlabel⟩ := (hmem label held).mp hgreatest.1
    exact ⟨hvalues, hlabel, fun other hother hother_label hne' =>
      hgreatest.2 other ((hmem label other).mpr ⟨hother, hother_label⟩) hne'⟩

theorem insertAll_converges_reversed :
    let values : List CrdsValue := [⟨1, .contactInfo ⟨3, 10, 0⟩⟩, ⟨2, .contactInfo ⟨3, 12, 0⟩⟩,
      ⟨3, .nodeInstance ⟨3, 5, 7, 1⟩⟩, ⟨4, .nodeInstance ⟨3, 9, 2, 8⟩⟩]
    insertAll CrdsValue.signature (fun _ => none) values =
      insertAll CrdsValue.signature (fun _ => none) (values.reverse ++ values) := by
  intro values
  have hconsistent : ∀ value ∈ values, ∀ other ∈ values, ConsistentInstances value other := by
    intro value hvalue other hother node node' hnode hnode' _ htoken
    simp only [values, List.mem_cons, List.not_mem_nil, or_false] at hvalue hother
    rcases hvalue with rfl | rfl | rfl | rfl <;> rcases hother with rfl | rfl | rfl | rfl <;>
      cases hnode <;> cases hnode' <;> simp_all
  exact (insertAll_converges CrdsValue.signature values (by decide) hconsistent values
    (values.reverse ++ values) (fun _ => Iff.rfl) (by simp)).2.1

end Solana.Gossip
