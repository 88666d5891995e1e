import Solana.Sdk.Basic
import Solana.Lib.BinarySearch
import Mathlib

/-! The state of a vote account (`programs/vote/src/vote_state/mod.rs`, `authorized_voters.rs`);
a `VecDeque` is a list whose head is the front. -/

namespace Solana.VoteProgram

open MachineInt

def maxLockoutHistory : ℕ := 31
def initialLockout : ℕ := 2
def maxEpochCreditsHistory : ℕ := 64
/-- `MAX_ITEMS`, the length of the circular buffer of prior voters. -/
def maxItems : ℕ := 32

inductive VoteError where
  | voteTooOld
  | slotsMismatch
  | slotHashMismatch
  | emptySlots
  | timestampTooOld
  | tooSoonToReauthorize
  | lockoutConflict
  | newVoteStateLockoutMismatch
  | slotsNotOrdered
  | confirmationsNotOrdered
  | zeroConfirmations
  | confirmationTooLarge
  | rootRollBack
  | confirmationRollBack
  | slotSmallerThanRoot
  | tooManyVotes
  | votesTooOldAllFiltered
  deriving DecidableEq, Repr

/-- A `VoteError` reaches the runtime as `InstructionError::Custom` of its index. -/
def VoteError.toInstructionError (e : VoteError) : InstructionError := .custom e.ctorIdx

/-! ## Lockouts -/

structure Lockout where
  slot : ℕ
  confirmationCount : ℕ
  deriving DecidableEq, Repr, Inhabited

namespace Lockout

def new (slot : ℕ) : Lockout := ⟨slot, 1⟩

@[simp] theorem slot_new (slot : ℕ) : (new slot).slot = slot := rfl

@[simp] theorem confirmationCount_new (slot : ℕ) : (new slot).confirmationCount = 1 := rfl

/-- `(INITIAL_LOCKOUT as u64).pow(confirmation_count)`, wrapping like a release build. -/
def lockout (l : Lockout) : ℕ := wrap 64 (initialLockout ^ l.confirmationCount)

def lastLockedOutSlot (l : Lockout) : ℕ := wrappingAdd 64 l.slot l.lockout

def isLockedOutAtSlot (l : Lockout) (slot : ℕ) : Bool := decide (slot ≤ l.lastLockedOutSlot)

/-- The body of `double_lockouts` for the vote at index `i` of a stack of `stackDepth`
votes: it gains a confirmation once the stack holds more than
`i + confirmation_count` votes. -/
def doubleAt (stackDepth i : ℕ) (l : Lockout) : Lockout :=
  if i + l.confirmationCount < stackDepth then
    { l with confirmationCount := l.confirmationCount + 1 }
  else l

@[simp] theorem slot_doubleAt (stackDepth i : ℕ) (l : Lockout) :
    (l.doubleAt stackDepth i).slot = l.slot := by
  unfold doubleAt
  split <;> rfl

theorem confirmationCount_doubleAt (stackDepth i : ℕ) (l : Lockout) :
    (l.doubleAt stackDepth i).confirmationCount =
      if i + l.confirmationCount < stackDepth then l.confirmationCount + 1
      else l.confirmationCount := by
  unfold doubleAt
  split <;> rfl

/-- The wrapped sum never exceeds the true one, so a slot the code finds locked out
is within `2 ^ confirmation_count` slots of the vote. -/
theorem lastLockedOutSlot_le (l : Lockout) :
    l.lastLockedOutSlot ≤ l.slot + 2 ^ l.confirmationCount :=
  (wrappingAdd_le 64 _ _).trans (Nat.add_le_add_left (wrap_le 64 _) _)

theorem lastLockedOutSlot_of_lt (l : Lockout) (h : l.slot + 2 ^ l.confirmationCount < 2 ^ 64) :
    l.lastLockedOutSlot = l.slot + 2 ^ l.confirmationCount := by
  have hpow : 2 ^ l.confirmationCount < 2 ^ 64 := lt_of_le_of_lt (Nat.le_add_left _ _) h
  rw [lastLockedOutSlot, lockout, initialLockout, wrap_of_lt hpow, wrappingAdd_of_lt h]

end Lockout

structure BlockTimestamp where
  slot : ℕ
  timestamp : ℤ
  deriving DecidableEq, Repr

structure Vote where
  slots : List ℕ
  hash : Hash
  timestamp : Option ℤ
  deriving DecidableEq, Repr

structure VoteStateUpdate where
  lockouts : List Lockout
  root : Option ℕ
  hash : Hash
  timestamp : Option ℤ
  deriving DecidableEq, Repr

structure VoteInit where
  nodePubkey : Pubkey
  authorizedVoter : Pubkey
  authorizedWithdrawer : Pubkey
  commission : ℕ
  deriving DecidableEq, Repr

/-! ## Authorized voters

A `BTreeMap<ℕ, Pubkey>`: its entries in increasing epoch order, which the
structure keeps. -/

/-- `BTreeMap::insert` on the sorted entries. -/
def insertEntry (epoch : ℕ) (pubkey : Pubkey) :
    List (ℕ × Pubkey) → List (ℕ × Pubkey)
  | [] => [(epoch, pubkey)]
  | e :: rest =>
    if epoch < e.1 then (epoch, pubkey) :: e :: rest
    else if epoch = e.1 then (epoch, pubkey) :: rest
    else e :: insertEntry epoch pubkey rest

theorem mem_insertEntry {epoch : ℕ} {pubkey : Pubkey} {x : ℕ × Pubkey}
    (l : List (ℕ × Pubkey)) (h : x ∈ insertEntry epoch pubkey l) : x.1 = epoch ∨ x ∈ l := by
  induction l with
  | nil => simp_all [insertEntry]
  | cons e rest ih =>
      simp only [insertEntry] at h
      split_ifs at h
      · grind
      · grind
      · rcases List.mem_cons.mp h with rfl | h
        · simp
        · grind

theorem insertEntry_sorted (epoch : ℕ) (pubkey : Pubkey) (l : List (ℕ × Pubkey))
    (h : l.Pairwise (fun a b => a.1 < b.1)) :
    (insertEntry epoch pubkey l).Pairwise (fun a b => a.1 < b.1) := by
  induction l with
  | nil => simp [insertEntry]
  | cons e rest ih =>
      rw [List.pairwise_cons] at h
      simp only [insertEntry]
      split_ifs with hlt heq
      · refine List.Pairwise.cons ?_ (List.Pairwise.cons h.1 h.2)
        intro x hx
        rcases List.mem_cons.mp hx with rfl | hx
        · exact hlt
        · exact hlt.trans (h.1 x hx)
      · refine List.Pairwise.cons ?_ h.2
        intro x hx
        rw [heq]
        exact h.1 x hx
      · refine List.Pairwise.cons ?_ (ih h.2)
        intro x hx
        show e.1 < x.1
        rcases mem_insertEntry rest hx with hx | hx
        · omega
        · exact h.1 x hx

structure AuthorizedVoters where
  entries : List (ℕ × Pubkey)
  sorted : entries.Pairwise (fun a b => a.1 < b.1)
  deriving DecidableEq

namespace AuthorizedVoters

def empty : AuthorizedVoters := ⟨[], .nil⟩

def new (epoch : ℕ) (pubkey : Pubkey) : AuthorizedVoters := ⟨[(epoch, pubkey)], by simp⟩

def get (v : AuthorizedVoters) (epoch : ℕ) : Option Pubkey :=
  (v.entries.find? (fun e => e.1 = epoch)).map (·.2)

def isEmpty (v : AuthorizedVoters) : Bool := v.entries.isEmpty

def last (v : AuthorizedVoters) : Option (ℕ × Pubkey) := v.entries.getLast?

def contains (v : AuthorizedVoters) (epoch : ℕ) : Bool := (v.get epoch).isSome

def insert (v : AuthorizedVoters) (epoch : ℕ) (pubkey : Pubkey) : AuthorizedVoters :=
  ⟨insertEntry epoch pubkey v.entries, insertEntry_sorted epoch pubkey v.entries v.sorted⟩

/-- The voter at `epoch`, and whether the map holds an entry for that very epoch:
without one, the voter of the latest earlier epoch (`range(0..epoch).next_back()`). -/
def getOrCalculateAuthorizedVoterForEpoch (v : AuthorizedVoters) (epoch : ℕ) :
    Option (Pubkey × Bool) :=
  match v.get epoch with
  | some pubkey => some (pubkey, true)
  | none => ((v.entries.filter (fun e => e.1 < epoch)).getLast?).map (fun e => (e.2, false))

def getAuthorizedVoter (v : AuthorizedVoters) (epoch : ℕ) : Option Pubkey :=
  (v.getOrCalculateAuthorizedVoterForEpoch epoch).map (·.1)

def getAndCacheAuthorizedVoterForEpoch (v : AuthorizedVoters) (epoch : ℕ) :
    Option Pubkey × AuthorizedVoters :=
  match v.getOrCalculateAuthorizedVoterForEpoch epoch with
  | none => (none, v)
  | some (pubkey, existed) => (some pubkey, if existed then v else v.insert epoch pubkey)

/-- `purge_authorized_voters`, `none` where its assertion that the map stays
non-empty fails. -/
def purgeAuthorizedVoters (v : AuthorizedVoters) (currentEpoch : ℕ) :
    Option AuthorizedVoters :=
  let kept : AuthorizedVoters :=
    ⟨v.entries.filter (fun e => currentEpoch ≤ e.1), v.sorted.filter _⟩
  if kept.isEmpty then none else some kept

end AuthorizedVoters

/-- `CircBuf<(Pubkey, ℕ, ℕ)>` of prior voters: `MAX_ITEMS` slots and the
index of the last write. -/
structure CircBuf where
  buf : List (Pubkey × ℕ × ℕ)
  idx : ℕ
  isEmpty : Bool
  deriving DecidableEq, Repr

namespace CircBuf

def default : CircBuf := ⟨List.replicate maxItems (0, 0, 0), maxItems - 1, true⟩

def append (c : CircBuf) (item : Pubkey × ℕ × ℕ) : CircBuf :=
  let idx := (c.idx + 1) % maxItems
  ⟨c.buf.set idx item, idx, false⟩

def last (c : CircBuf) : Option (Pubkey × ℕ × ℕ) := if c.isEmpty then none else c.buf[c.idx]?

end CircBuf

/-! ## The vote state -/

structure VoteState where
  nodePubkey : Pubkey
  authorizedWithdrawer : Pubkey
  commission : ℕ
  votes : List Lockout
  rootSlot : Option ℕ
  authorizedVoters : AuthorizedVoters
  priorVoters : CircBuf
  /-- `(epoch, credits, prev_credits)`, oldest epoch first. -/
  epochCredits : List (ℕ × ℕ × ℕ)
  lastTimestamp : BlockTimestamp
  deriving DecidableEq

namespace VoteState

def default : VoteState := ⟨0, 0, 0, [], none, .empty, .default, [], ⟨0, 0⟩⟩

def new (voteInit : VoteInit) (clock : Clock) : VoteState :=
  { default with
    nodePubkey := voteInit.nodePubkey
    authorizedVoters := .new clock.epoch voteInit.authorizedVoter
    authorizedWithdrawer := voteInit.authorizedWithdrawer
    commission := voteInit.commission }

def lastLockout (s : VoteState) : Option Lockout := s.votes.getLast?

def lastVotedSlot (s : VoteState) : Option ℕ := s.lastLockout.map (·.slot)

def currentEpoch (s : VoteState) : ℕ :=
  match s.epochCredits.getLast? with
  | none => 0
  | some e => e.1

def credits (s : VoteState) : ℕ :=
  match s.epochCredits.getLast? with
  | none => 0
  | some e => e.2.1

/-- `commission_split`: the voter's and the staker's part of `on` and whether it was
split. Each part is rounded down on its own, so fractional lamports are dropped. -/
def commissionSplit (s : VoteState) (on : ℕ) : ℕ × ℕ × Bool :=
  let split := min s.commission 100
  if split = 0 then (0, on, false)
  else if split = 100 then (on, 0, false)
  else
    let mine := on * split / 100
    let theirs := on * (100 - split) / 100
    (wrap 64 mine, wrap 64 theirs, true)

/-- The two parts of a commission split never exceed what is split. -/
theorem commissionSplit_add_le (s : VoteState) (on : ℕ) :
    (s.commissionSplit on).1 + (s.commissionSplit on).2.1 ≤ on := by
  unfold commissionSplit
  dsimp only
  split_ifs with hzero hfull
  · simp
  · simp
  · have hsplit : min s.commission 100 ≤ 100 := min_le_right _ _
    calc wrap 64 (on * min s.commission 100 / 100) + wrap 64 (on * (100 - min s.commission 100) / 100)
        ≤ on * min s.commission 100 / 100 + on * (100 - min s.commission 100) / 100 :=
          Nat.add_le_add (wrap_le 64 _) (wrap_le 64 _)
      _ ≤ (on * min s.commission 100 + on * (100 - min s.commission 100)) / 100 :=
          Nat.div_add_div_le_add_div
      _ = on := by
          rw [← Nat.mul_add, Nat.add_sub_cancel' hsplit, Nat.mul_div_cancel _ (by decide)]

/-- `contains_slot`: a binary search of the votes by slot. -/
def containsSlot (s : VoteState) (candidateSlot : ℕ) : Bool :=
  (BinarySearch.binarySearchBy (fun lockout => compare lockout.slot candidateSlot) s.votes).isOk

/-- On a tower sorted by slot the search finds exactly the slots the tower holds. -/
theorem containsSlot_eq_any {s : VoteState} (hsorted : s.votes.Pairwise fun a b => a.slot < b.slot)
    (candidateSlot : ℕ) :
    s.containsSlot candidateSlot = s.votes.any fun v => v.slot = candidateSlot := by
  rw [containsSlot, BinarySearch.isOk_binarySearchBy
    (BinarySearch.partitioned_of_pairwise_lt candidateSlot hsorted)]
  simp

/-- `VoteStateVersions::is_uninitialized` for the current version. -/
def isUninitialized (s : VoteState) : Bool := s.authorizedVoters.isEmpty

/-- `last_mut().unwrap().1 += 1` on the credit history. -/
def bumpLastCredits : List (ℕ × ℕ × ℕ) → List (ℕ × ℕ × ℕ)
  | [] => []
  | [(e, c, p)] => [(e, wrappingAdd 64 c 1, p)]
  | x :: rest => x :: bumpLastCredits rest

def incrementCredits (s : VoteState) (epoch : ℕ) : VoteState :=
  let history :=
    match s.epochCredits.getLast? with
    | none => [(epoch, 0, 0)]
    | some (lastEpoch, credits, prevCredits) =>
      if epoch ≠ lastEpoch then
        let moved :=
          if credits ≠ prevCredits then s.epochCredits ++ [(epoch, credits, credits)]
          else s.epochCredits.dropLast ++ [(epoch, credits, prevCredits)]
        if maxEpochCreditsHistory < moved.length then moved.tail else moved
      else s.epochCredits
  { s with epochCredits := bumpLastCredits history }

@[simp] theorem incrementCredits_votes (s : VoteState) (epoch : ℕ) :
    (s.incrementCredits epoch).votes = s.votes := rfl

@[simp] theorem incrementCredits_rootSlot (s : VoteState) (epoch : ℕ) :
    (s.incrementCredits epoch).rootSlot = s.rootSlot := rfl

/-- `pop_expired_votes`: pop from the back every vote not locked out at `nextVoteSlot`. -/
def popExpiredVotes (votes : List Lockout) (nextVoteSlot : ℕ) : List Lockout :=
  votes.rdropWhile (fun v => !v.isLockedOutAtSlot nextVoteSlot)

def doubleLockouts (votes : List Lockout) : List Lockout :=
  votes.mapIdx fun i v => v.doubleAt votes.length i

/-- Once the stack is full its oldest lockout becomes the root and earns a credit.
The code unwraps `pop_front` on a stack of `MAX_LOCKOUT_HISTORY` votes. -/
def popRoot (s : VoteState) (epoch : ℕ) : VoteState :=
  match s.votes with
  | [] => s
  | v :: rest => ({ s with votes := rest, rootSlot := some v.slot }).incrementCredits epoch

theorem popRoot_of_cons {s : VoteState} {v : Lockout} {rest : List Lockout} (epoch : ℕ)
    (h : s.votes = v :: rest) :
    (s.popRoot epoch).votes = rest ∧ (s.popRoot epoch).rootSlot = some v.slot := by
  unfold popRoot
  rw [h]
  exact ⟨rfl, rfl⟩

def processNextVoteSlot (s : VoteState) (nextVoteSlot : ℕ) (epoch : ℕ) : VoteState :=
  if s.lastVotedSlot.any (fun last => nextVoteSlot ≤ last) then s
  else
    let popped := { s with votes := popExpiredVotes s.votes nextVoteSlot }
    let rooted := if popped.votes.length = maxLockoutHistory then popped.popRoot epoch else popped
    { rooted with votes := doubleLockouts (rooted.votes ++ [Lockout.new nextVoteSlot]) }

theorem processNextVoteSlot_of_le {s : VoteState} {slot : ℕ} (epoch : ℕ)
    (h : s.lastVotedSlot.any (fun last => slot ≤ last)) : s.processNextVoteSlot slot epoch = s := by
  unfold processNextVoteSlot
  rw [if_pos h]

/-- A vote that fills the stack: the oldest vote left after popping becomes the root. -/
theorem processNextVoteSlot_of_full {s : VoteState} {slot : ℕ} {v : Lockout}
    {rest : List Lockout} (epoch : ℕ) (hnew : ¬s.lastVotedSlot.any (fun last => slot ≤ last))
    (hpop : popExpiredVotes s.votes slot = v :: rest) (hfull : rest.length + 1 = maxLockoutHistory) :
    (s.processNextVoteSlot slot epoch).votes = doubleLockouts (rest ++ [Lockout.new slot]) ∧
      (s.processNextVoteSlot slot epoch).rootSlot = some v.slot := by
  have hlen : (popExpiredVotes s.votes slot).length = maxLockoutHistory := by
    rw [hpop, List.length_cons, hfull]
  obtain ⟨hvotes, hroot⟩ := popRoot_of_cons (s := { s with votes := popExpiredVotes s.votes slot })
    epoch hpop
  unfold processNextVoteSlot
  simp only [if_neg hnew, if_pos hlen]
  exact ⟨by rw [hvotes], hroot⟩

theorem processNextVoteSlot_of_not_full {s : VoteState} {slot : ℕ} (epoch : ℕ)
    (hnew : ¬s.lastVotedSlot.any (fun last => slot ≤ last))
    (hfull : (popExpiredVotes s.votes slot).length ≠ maxLockoutHistory) :
    (s.processNextVoteSlot slot epoch).votes =
        doubleLockouts (popExpiredVotes s.votes slot ++ [Lockout.new slot]) ∧
      (s.processNextVoteSlot slot epoch).rootSlot = s.rootSlot := by
  unfold processNextVoteSlot
  simp only [if_neg hnew, if_neg hfull, and_self]

def processTimestamp (s : VoteState) (slot : ℕ) (timestamp : ℤ) :
    Except VoteError VoteState :=
  if (slot < s.lastTimestamp.slot ∨ timestamp < s.lastTimestamp.timestamp) ∨
      (slot = s.lastTimestamp.slot ∧ (⟨slot, timestamp⟩ : BlockTimestamp) ≠ s.lastTimestamp ∧
        s.lastTimestamp.slot ≠ 0) then
    .error .timestampTooOld
  else .ok { s with lastTimestamp := ⟨slot, timestamp⟩ }

theorem processTimestamp_eq_ok {s s' : VoteState} {slot : ℕ} {timestamp : ℤ}
    (h : s.processTimestamp slot timestamp = .ok s') :
    s' = { s with lastTimestamp := ⟨slot, timestamp⟩ } := by
  unfold processTimestamp at h
  split at h
  · cases h
  · exact (Except.ok.inj h).symm

theorem processTimestamp_eq_error {s : VoteState} {slot : ℕ} {timestamp : ℤ} {e : VoteError}
    (h : s.processTimestamp slot timestamp = .error e) : e = .timestampTooOld := by
  unfold processTimestamp at h
  split at h
  · exact (Except.error.inj h).symm
  · cases h

end VoteState

end Solana.VoteProgram
