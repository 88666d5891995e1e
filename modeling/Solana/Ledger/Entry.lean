import Solana.Sdk.Basic
import Solana.Lib.Run

/-! `Entry` of `entry/src/entry.rs` and the proof-of-history and tick-hash-count checks, with
SHA-256 and the signatures' Merkle root as parameters (`PohHashes`). -/

namespace Solana.Ledger

/-- The hash primitives of proof of history: `hash` of one hash, `hashv` of a hash and a
mixin, and `hash_transactions`, the Merkle root of the signatures of a batch. -/
structure PohHashes (Tx : Type) where
  hash : Hash → Hash
  hashv : Hash → Hash → Hash
  hashTransactions : List Tx → Hash

structure Entry (Tx : Type) where
  numHashes : ℕ
  hash : Hash
  transactions : List Tx

variable {Tx : Type} (H : PohHashes Tx)

namespace Entry

def isTick (e : Entry Tx) : Bool := e.transactions.isEmpty

/-- `next_hash`: `num_hashes - 1` hashes, then a tick or a record of the transactions.
`Poh::new` with no `hashes_per_tick` never refuses a record or a tick. -/
def nextHash (startHash : Hash) (numHashes : ℕ) (transactions : List Tx) : Hash :=
  if numHashes = 0 ∧ transactions.isEmpty then startHash
  else
    let hash := Nat.repeat H.hash (numHashes - 1) startHash
    if transactions.isEmpty then H.hash hash
    else H.hashv hash (H.hashTransactions transactions)

def verify (e : Entry Tx) (startHash : Hash) : Bool :=
  decide (e.hash = nextHash H startHash e.numHashes e.transactions)

end Entry

/-! ## Proof of history -/

/-- `verify_cpu_generic`: each entry checked against the hash of the one before it, the
first against the start hash (a genesis entry in front). -/
def startVerify (startHash : Hash) (entries : List (Entry Tx)) : Bool :=
  ((⟨0, startHash, []⟩ :: entries).zip entries).all fun pair => pair.2.verify H pair.1.hash

/-- The hash a slice of entries leaves for the next one: its last entry's, or the start
hash if it is empty. -/
def lastHash (startHash : Hash) (entries : List (Entry Tx)) : Hash :=
  (entries.getLast?.map (·.hash)).getD startHash

@[simp] theorem startVerify_nil (startHash : Hash) : startVerify H startHash [] = true := rfl

@[simp] theorem startVerify_cons (startHash : Hash) (e : Entry Tx) (entries : List (Entry Tx)) :
    startVerify H startHash (e :: entries) =
      (e.verify H startHash && startVerify H e.hash entries) := by
  cases entries with
  | nil => simp [startVerify]
  | cons e' entries => simp [startVerify, List.zip_cons_cons]

@[simp] theorem lastHash_nil (startHash : Hash) :
    lastHash startHash ([] : List (Entry Tx)) = startHash := rfl

@[simp] theorem lastHash_cons (startHash : Hash) (e : Entry Tx) (entries : List (Entry Tx)) :
    lastHash startHash (e :: entries) = lastHash e.hash entries := by
  cases entries with
  | nil => rfl
  | cons e' entries =>
    rw [lastHash, lastHash, List.getLast?_cons_cons,
      List.getLast?_eq_some_getLast (List.cons_ne_nil e' entries)]
    rfl

/-- The proof of history of two slices is that of the first, then that of the second
from where the first ends. -/
theorem startVerify_append (startHash : Hash) (first second : List (Entry Tx)) :
    startVerify H startHash (first ++ second) =
      (startVerify H startHash first && startVerify H (lastHash startHash first) second) := by
  induction first generalizing startHash with
  | nil => simp
  | cons e first ih => simp [ih, Bool.and_assoc]

theorem lastHash_append (startHash : Hash) (first second : List (Entry Tx)) :
    lastHash startHash (first ++ second) = lastHash (lastHash startHash first) second := by
  induction first generalizing startHash with
  | nil => rfl
  | cons e first ih => simp [ih]

/-! ## The tick hash count -/

/-- One entry of the loop of `verify_tick_hash_count`: the entry's hashes are added to
the count, and a tick must bring it to exactly `hashes_per_tick`, which restarts it.
`none` is the early `return false`. -/
def tickHashStep (hashesPerTick : ℕ) (tickHashCount : ℕ) (entry : Entry Tx) : Option ℕ :=
  let tickHashCount := MachineInt.saturatingAdd 64 tickHashCount entry.numHashes
  if entry.isTick then
    if tickHashCount ≠ hashesPerTick then none else some 0
  else some tickHashCount

/-- `verify_tick_hash_count`: the count carried to the next slice, or `none` for
`false`. What is left over after the last tick must be below `hashes_per_tick`. -/
def verifyTickHashCount (entries : List (Entry Tx)) (tickHashCount hashesPerTick : ℕ) :
    Option ℕ :=
  if hashesPerTick = 0 then some tickHashCount
  else
    (Run.exec (tickHashStep hashesPerTick) tickHashCount entries).filter
      fun count => decide (count < hashesPerTick)

theorem verifyTickHashCount_zero (entries : List (Entry Tx)) (tickHashCount : ℕ) :
    verifyTickHashCount entries tickHashCount 0 = some tickHashCount := rfl

theorem verifyTickHashCount_eq_some {entries : List (Entry Tx)} {tickHashCount hashesPerTick c : ℕ}
    (hpos : hashesPerTick ≠ 0) :
    verifyTickHashCount entries tickHashCount hashesPerTick = some c ↔
      Run.exec (tickHashStep hashesPerTick) tickHashCount entries = some c ∧
        c < hashesPerTick := by
  rw [verifyTickHashCount, if_neg hpos, Option.filter_eq_some_iff, decide_eq_true_eq]

/-- Two slices that each pass the tick hash count, the second from the count the first
carries, pass it together. -/
theorem verifyTickHashCount_append {first second : List (Entry Tx)}
    {tickHashCount hashesPerTick c₁ c₂ : ℕ}
    (h₁ : verifyTickHashCount first tickHashCount hashesPerTick = some c₁)
    (h₂ : verifyTickHashCount second c₁ hashesPerTick = some c₂) :
    verifyTickHashCount (first ++ second) tickHashCount hashesPerTick = some c₂ := by
  by_cases hpos : hashesPerTick = 0
  · subst hpos
    rw [verifyTickHashCount_zero, Option.some.injEq] at h₁ h₂ ⊢
    exact h₁.trans h₂
  · rw [verifyTickHashCount_eq_some hpos] at h₁ h₂ ⊢
    refine ⟨?_, h₂.2⟩
    rw [Run.exec_append, h₁.1, Option.bind_some, h₂.1]

end Solana.Ledger
