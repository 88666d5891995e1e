import Solana.Runtime.AccountLocks
import Solana.Lib.Fallible
import Mathlib

/-! `LocksExact`: the lock table is what the held transactions locked, over every run of locks
and unlocks (`LockTable.invariant_of_reachable`), unless an error `unlock_accounts` does not
skip is passed in (`unlockAccounts_releases_foreign_lock`). -/

namespace Solana.Runtime

/-- The held transactions that write `key`, and those that read it. -/
def writers (held : List TransactionAccountLocks) (key : Pubkey) : ℕ :=
  (held.filter (key ∈ ·.writable)).length

def readers (held : List TransactionAccountLocks) (key : Pubkey) : ℕ :=
  (held.filter (key ∈ ·.readonly)).length

/-- The keys of a transaction as `get_account_locks` returns them: each once. -/
def TransactionAccountLocks.WellFormed (t : TransactionAccountLocks) : Prop :=
  (t.writable ++ t.readonly).Nodup

section Counts

variable {held held' : List TransactionAccountLocks} {key : Pubkey}

@[simp] theorem writers_cons (t : TransactionAccountLocks) :
    writers (t :: held) key = (if key ∈ t.writable then 1 else 0) + writers held key := by
  by_cases h : key ∈ t.writable <;> simp [writers, h, Nat.add_comm]

@[simp] theorem readers_cons (t : TransactionAccountLocks) :
    readers (t :: held) key = (if key ∈ t.readonly then 1 else 0) + readers held key := by
  by_cases h : key ∈ t.readonly <;> simp [readers, h, Nat.add_comm]

theorem writers_perm (h : held.Perm held') : writers held key = writers held' key :=
  (h.filter _).length_eq

theorem readers_perm (h : held.Perm held') : readers held key = readers held' key :=
  (h.filter _).length_eq

end Counts

/-- The lock table is what the held transactions locked, and they do not conflict. -/
structure LocksExact (locks : AccountLocks) (held : List TransactionAccountLocks) : Prop where
  wellFormed : ∀ t ∈ held, t.WellFormed
  writeLocks : ∀ key, key ∈ locks.writeLocks ↔ 0 < writers held key
  readonlyLocks : ∀ key, Map.get locks.readonlyLocks key =
    if readers held key = 0 then none else some (readers held key)
  oneWriter : ∀ key, writers held key ≤ 1
  exclusive : ∀ key, 0 < writers held key → readers held key = 0

theorem LocksExact.empty : LocksExact ⟨∅, []⟩ [] where
  wellFormed := by simp
  writeLocks := by simp [writers]
  readonlyLocks := by simp [readers]
  oneWriter := by simp [writers]
  exclusive := by simp [writers]

/-- Only how many transactions hold a key counts, not in which order. -/
theorem LocksExact.perm {locks : AccountLocks} {held held' : List TransactionAccountLocks}
    (h : LocksExact locks held) (hperm : held.Perm held') : LocksExact locks held' where
  wellFormed t ht := h.wellFormed t (hperm.mem_iff.mpr ht)
  writeLocks key := by rw [← writers_perm hperm]; exact h.writeLocks key
  readonlyLocks key := by rw [← readers_perm hperm]; exact h.readonlyLocks key
  oneWriter key := by rw [← writers_perm hperm]; exact h.oneWriter key
  exclusive key := by rw [← writers_perm hperm, ← readers_perm hperm]; exact h.exclusive key

/-! ## What `lock_account` and `unlock_account` do to the table -/

namespace AccountLocks

variable (locks : AccountLocks)

/-- The write locks after the writable keys are inserted. -/
theorem foldl_insertWrite (writableKeys : List Pubkey) :
    writableKeys.foldl (fun locks k => { locks with writeLocks := insert k locks.writeLocks }) locks =
      { locks with writeLocks := locks.writeLocks ∪ writableKeys.toFinset } := by
  induction writableKeys generalizing locks with
  | nil =>
    cases locks
    simp
  | cons k rest ih =>
    rw [List.foldl_cons, ih]
    simp [Finset.insert_union, Finset.union_insert]

/-- One reader more for `key`, whether it had readers or not. -/
theorem get_lockReadonlyStep (key key' : Pubkey) :
    Map.get (match locks.lockReadonly key with
        | some locks => locks
        | none => locks.insertNewReadonly key).readonlyLocks key' =
      if key' = key then some ((Map.get locks.readonlyLocks key).getD 0 + 1)
      else Map.get locks.readonlyLocks key' := by
  unfold lockReadonly Map.modify
  cases hkey : Map.get locks.readonlyLocks key with
  | none => simp [insertNewReadonly]
  | some count => simp

theorem writeLocks_lockReadonlyStep (key : Pubkey) :
    (match locks.lockReadonly key with
      | some locks => locks
      | none => locks.insertNewReadonly key).writeLocks = locks.writeLocks := by
  unfold lockReadonly
  cases (Map.modify locks.readonlyLocks key (· + 1)) <;> rfl

/-- The reader counts after each read-only key, taken once, gained a reader. -/
theorem foldl_lockReadonlyStep {readonlyKeys : List Pubkey} (hnodup : readonlyKeys.Nodup)
    (key : Pubkey) :
    let locks' := readonlyKeys.foldl (fun locks k =>
      match locks.lockReadonly k with
      | some locks => locks
      | none => locks.insertNewReadonly k) locks
    locks'.writeLocks = locks.writeLocks ∧
      Map.get locks'.readonlyLocks key = if key ∈ readonlyKeys then
        some ((Map.get locks.readonlyLocks key).getD 0 + 1)
      else Map.get locks.readonlyLocks key := by
  induction readonlyKeys generalizing locks with
  | nil => simp
  | cons k rest ih =>
    obtain ⟨hk, hrest⟩ := List.nodup_cons.mp hnodup
    obtain ⟨hwrite, hread⟩ := ih _ hrest
    refine ⟨hwrite.trans (writeLocks_lockReadonlyStep locks k), ?_⟩
    rw [List.foldl_cons, hread, get_lockReadonlyStep]
    by_cases hkey : key = k
    · subst hkey
      simp [hk]
    · simp [hkey]

theorem foldl_unlockWrite (writableKeys : List Pubkey) :
    writableKeys.foldl unlockWrite locks =
      { locks with writeLocks := locks.writeLocks \ writableKeys.toFinset } := by
  induction writableKeys generalizing locks with
  | nil =>
    cases locks
    simp
  | cons k rest ih =>
    rw [List.foldl_cons, ih]
    simp [unlockWrite, Finset.sdiff_insert, Finset.erase_sdiff_comm]

/-- One reader fewer for `key`, which leaves the map with its last reader. -/
theorem get_unlockReadonly (key key' : Pubkey) :
    Map.get (locks.unlockReadonly key).readonlyLocks key' =
      if key' = key then
        (Map.get locks.readonlyLocks key).bind fun count =>
          if count - 1 = 0 then none else some (count - 1)
      else Map.get locks.readonlyLocks key' := by
  unfold unlockReadonly
  cases hkey : Map.get locks.readonlyLocks key with
  | none =>
    by_cases hk : key' = key
    · subst hk
      simp [hkey]
    · simp [hk]
  | some count =>
    by_cases hcount : count - 1 = 0 <;> by_cases hk : key' = key <;> simp [hcount, hk]

theorem foldl_unlockReadonly {readonlyKeys : List Pubkey} (hnodup : readonlyKeys.Nodup)
    (key : Pubkey) :
    let locks' := readonlyKeys.foldl unlockReadonly locks
    locks'.writeLocks = locks.writeLocks ∧
      Map.get locks'.readonlyLocks key = if key ∈ readonlyKeys then
        (Map.get locks.readonlyLocks key).bind fun count =>
          if count - 1 = 0 then none else some (count - 1)
      else Map.get locks.readonlyLocks key := by
  induction readonlyKeys generalizing locks with
  | nil => simp
  | cons k rest ih =>
    obtain ⟨hk, hrest⟩ := List.nodup_cons.mp hnodup
    obtain ⟨hwrite, hread⟩ := ih (locks.unlockReadonly k) hrest
    refine ⟨?_, ?_⟩
    · rw [List.foldl_cons, hwrite]
      unfold unlockReadonly
      split
      · split <;> rfl
      · rfl
    rw [List.foldl_cons, hread, get_unlockReadonly]
    by_cases hkey : key = k
    · subst hkey
      simp [hk]
    · simp [hkey]

end AccountLocks

/-- `lock_account` succeeds only when no writable key is locked at all and no read-only key
is write-locked, and then adds the transaction's keys. -/
theorem lockAccount_eq_ok {locks locks' : AccountLocks} {writableKeys readonlyKeys : List Pubkey}
    (h : lockAccount locks writableKeys readonlyKeys = .ok locks') :
    (∀ k ∈ writableKeys, k ∉ locks.writeLocks ∧ locks.isLockedReadonly k = false) ∧
      (∀ k ∈ readonlyKeys, k ∉ locks.writeLocks) ∧
      locks' = readonlyKeys.foldl (fun locks k =>
        match locks.lockReadonly k with
        | some locks => locks
        | none => locks.insertNewReadonly k)
        { locks with writeLocks := locks.writeLocks ∪ writableKeys.toFinset } := by
  unfold lockAccount at h
  by_cases hwritable :
      (writableKeys.any fun k => locks.isLockedWrite k || locks.isLockedReadonly k) = true
  · simp [hwritable, Except.throw_bind] at h
  by_cases hreadonly : readonlyKeys.any locks.isLockedWrite = true
  · simp only [hwritable, hreadonly, Bool.false_eq_true, if_false, if_true] at h
    cases h
  simp only [hwritable, hreadonly, Bool.false_eq_true, if_false, AccountLocks.foldl_insertWrite]
    at h
  have hwritable : ∀ k ∈ writableKeys,
      locks.isLockedWrite k = false ∧ locks.isLockedReadonly k = false := by
    simpa using hwritable
  have hreadonly : ∀ k ∈ readonlyKeys, locks.isLockedWrite k = false := by
    simpa using hreadonly
  refine ⟨fun k hk => ?_, fun k hk => ?_, (Except.ok.inj h).symm⟩
  · exact ⟨by simpa [AccountLocks.isLockedWrite] using (hwritable k hk).1, (hwritable k hk).2⟩
  · simpa [AccountLocks.isLockedWrite] using hreadonly k hk

section Exact

variable {locks : AccountLocks} {held : List TransactionAccountLocks}

theorem LocksExact.getD_readonlyLocks (hexact : LocksExact locks held) (key : Pubkey) :
    (Map.get locks.readonlyLocks key).getD 0 = readers held key := by
  rw [hexact.readonlyLocks key]
  split <;> simp_all

theorem LocksExact.readers_eq_zero (hexact : LocksExact locks held) {key : Pubkey}
    (h : locks.isLockedReadonly key = false) : readers held key = 0 := by
  unfold AccountLocks.isLockedReadonly at h
  rw [hexact.readonlyLocks key] at h
  split at h
  · assumption
  case isFalse hne =>
    simp at h
    omega

theorem TransactionAccountLocks.WellFormed.not_mem_readonly {t : TransactionAccountLocks}
    (hwf : t.WellFormed) {key : Pubkey} (hkey : key ∈ t.writable) : key ∉ t.readonly := by
  intro hread
  exact (List.nodup_append.mp hwf).2.2 key hkey key hread rfl

/-- Locking a transaction adds it to the held ones. -/
theorem lockAccount_exact {locks' : AccountLocks} {t : TransactionAccountLocks}
    (hexact : LocksExact locks held) (hwf : t.WellFormed)
    (h : lockAccount locks t.writable t.readonly = .ok locks') :
    LocksExact locks' (t :: held) := by
  obtain ⟨hwritable, hreadonly, rfl⟩ := lockAccount_eq_ok h
  have hnodup : t.readonly.Nodup := (List.nodup_append.mp hwf).2.1
  have hfree : ∀ k ∈ t.writable, writers held k = 0 ∧ readers held k = 0 := fun k hk =>
    ⟨by simpa [hexact.writeLocks k] using (hwritable k hk).1,
      hexact.readers_eq_zero (hwritable k hk).2⟩
  have hnoWriter : ∀ k ∈ t.readonly, writers held k = 0 := fun k hk => by
    simpa [hexact.writeLocks k] using hreadonly k hk
  refine ⟨?_, fun key => ?_, fun key => ?_, fun key => ?_, fun key => ?_⟩
  · intro t' ht'
    rcases List.mem_cons.mp ht' with rfl | ht'
    · exact hwf
    · exact hexact.wellFormed t' ht'
  · rw [(AccountLocks.foldl_lockReadonlyStep _ hnodup key).1, writers_cons]
    by_cases hk : key ∈ t.writable
    · simp [hk]
    · simp [hk, hexact.writeLocks key]
  · rw [(AccountLocks.foldl_lockReadonlyStep _ hnodup key).2, readers_cons,
      hexact.getD_readonlyLocks]
    by_cases hk : key ∈ t.readonly
    · simp [hk, Nat.add_comm]
    · simp [hk, hexact.readonlyLocks key]
  · rw [writers_cons]
    by_cases hk : key ∈ t.writable
    · simp [hk, (hfree key hk).1]
    · simpa [hk] using hexact.oneWriter key
  · rw [writers_cons, readers_cons]
    intro hpos
    by_cases hk : key ∈ t.writable
    · simp [hwf.not_mem_readonly hk, (hfree key hk).2]
    · have hheld : 0 < writers held key := by simpa [hk] using hpos
      have hread : key ∉ t.readonly := fun hr => by
        rw [hnoWriter key hr] at hheld
        exact Nat.lt_irrefl 0 hheld
      simp [hread, hexact.exclusive key hheld]

/-- Unlocking a held transaction removes it from the held ones. -/
theorem unlockAccount_exact {t : TransactionAccountLocks} (hexact : LocksExact locks held)
    (ht : t ∈ held) : LocksExact (unlockAccount locks t.writable t.readonly) (held.erase t) := by
  have hcons := hexact.perm (List.perm_cons_erase ht)
  have hwf := hexact.wellFormed t ht
  have hnodup : t.readonly.Nodup := (List.nodup_append.mp hwf).2.1
  unfold unlockAccount
  rw [AccountLocks.foldl_unlockWrite]
  refine ⟨fun t' ht' => hexact.wellFormed t' (List.mem_of_mem_erase ht'), fun key => ?_,
    fun key => ?_, fun key => ?_, fun key => ?_⟩
  · rw [(AccountLocks.foldl_unlockReadonly _ hnodup key).1]
    have hone := hcons.oneWriter key
    have hmem := hcons.writeLocks key
    rw [writers_cons] at hone hmem
    by_cases hk : key ∈ t.writable
    · simp only [hk, if_true] at hone
      simp [hk]
      omega
    · simp [hk, hmem]
  · rw [(AccountLocks.foldl_unlockReadonly _ hnodup key).2]
    have hread := hcons.readonlyLocks key
    rw [readers_cons] at hread
    by_cases hk : key ∈ t.readonly
    · simp only [hk, if_true] at hread
      simp [hk, hread]
    · simpa [hk] using hread
  · have := hcons.oneWriter key
    rw [writers_cons] at this
    omega
  · intro hpos
    have := hcons.exclusive key (by rw [writers_cons]; omega)
    rw [readers_cons] at this
    omega

end Exact

/-! ## Batches -/

namespace SanitizedTransaction

/-- The keys split by writability, in the order of the account keys. -/
theorem getAccountLocksUnchecked_eq (tx : SanitizedTransaction) :
    tx.getAccountLocksUnchecked =
      ⟨(tx.accountKeys.zipIdx.filter (tx.isWritable ·.2)).map (·.1),
        (tx.accountKeys.zipIdx.filter (!tx.isWritable ·.2)).map (·.1)⟩ := by
  unfold getAccountLocksUnchecked
  suffices h : ∀ (entries : List (Pubkey × ℕ)) (acc : TransactionAccountLocks),
      entries.foldl (fun accountLocks entry =>
        if tx.isWritable entry.2 then
          { accountLocks with writable := accountLocks.writable ++ [entry.1] }
        else { accountLocks with readonly := accountLocks.readonly ++ [entry.1] }) acc =
        ⟨acc.writable ++ (entries.filter (tx.isWritable ·.2)).map (·.1),
          acc.readonly ++ (entries.filter (!tx.isWritable ·.2)).map (·.1)⟩ by
    simpa using h tx.accountKeys.zipIdx ⟨[], []⟩
  intro entries
  induction entries with
  | nil =>
    intro acc
    simp
  | cons entry entries ih =>
    intro acc
    rw [List.foldl_cons, ih]
    by_cases hw : tx.isWritable entry.2 <;> simp [hw]

/-- The keys of a transaction without duplicates are well formed locks. -/
theorem getAccountLocksUnchecked_wellFormed {tx : SanitizedTransaction}
    (hnodup : tx.accountKeys.Nodup) : tx.getAccountLocksUnchecked.WellFormed := by
  rw [TransactionAccountLocks.WellFormed, getAccountLocksUnchecked_eq, ← List.map_append]
  have hperm := (List.filter_append_perm (tx.isWritable ·.2) tx.accountKeys.zipIdx).map (·.1)
  rw [List.zipIdx_map_fst] at hperm
  exact hperm.nodup_iff.mpr hnodup

theorem getAccountLocks_eq_ok {tx : SanitizedTransaction} {flag : Bool}
    {t : TransactionAccountLocks} (h : tx.getAccountLocks flag = .ok t) :
    t = tx.getAccountLocksUnchecked ∧ tx.accountKeys.Nodup := by
  unfold getAccountLocks at h
  split at h
  · cases h
  case isFalse hnodup =>
  split at h
  · cases h
  · exact ⟨(Except.ok.inj h).symm, by simpa using hnodup⟩

theorem getAccountLocks_eq_error {tx : SanitizedTransaction} {flag : Bool}
    {err : TransactionError} (h : tx.getAccountLocks flag = .error err) :
    lockedNothing (.error err) = true := by
  unfold getAccountLocks at h
  split at h
  · cases h
    rfl
  split at h
  · cases h
    rfl
  · cases h

end SanitizedTransaction

theorem lockAccount_eq_error {locks : AccountLocks} {writableKeys readonlyKeys : List Pubkey}
    {err : TransactionError} (h : lockAccount locks writableKeys readonlyKeys = .error err) :
    err = .accountInUse := by
  unfold lockAccount at h
  by_cases hwritable :
      (writableKeys.any fun k => locks.isLockedWrite k || locks.isLockedReadonly k) = true
  · simp only [hwritable, if_true] at h
    cases h
    rfl
  by_cases hreadonly : readonlyKeys.any locks.isLockedWrite = true
  · simp only [hwritable, hreadonly, Bool.false_eq_true, if_false, if_true] at h
    cases h
    rfl
  · simp only [hwritable, hreadonly, Bool.false_eq_true, if_false] at h
    cases h

/-- The locks a batch holds: those of its transactions whose lock result was `Ok`. -/
def heldLocks (txs : List SanitizedTransaction) (results : List (Except TransactionError Unit)) :
    List TransactionAccountLocks :=
  (txs.zip results).filterMap fun (tx, result) =>
    if result = .ok () then some tx.getAccountLocksUnchecked else none

/-- The results of a batch as a lock call returns them: one for each transaction, `Ok` only for
a transaction without duplicate keys, and every error one with which nothing was locked. -/
def Consistent (txs : List SanitizedTransaction) (results : List (Except TransactionError Unit)) :
    Prop :=
  results.length = txs.length ∧ ∀ p ∈ txs.zip results,
    (p.2 = .ok () → p.1.accountKeys.Nodup) ∧ (p.2 ≠ .ok () → lockedNothing p.2 = true)

theorem heldLocks_cons_ok (tx : SanitizedTransaction) (txs : List SanitizedTransaction)
    (results : List (Except TransactionError Unit)) :
    heldLocks (tx :: txs) (.ok () :: results) = tx.getAccountLocksUnchecked :: heldLocks txs results :=
  rfl

theorem heldLocks_cons_error (tx : SanitizedTransaction) (txs : List SanitizedTransaction)
    (err : TransactionError) (results : List (Except TransactionError Unit)) :
    heldLocks (tx :: txs) (.error err :: results) = heldLocks txs results :=
  rfl

theorem Consistent.cons {tx : SanitizedTransaction} {txs : List SanitizedTransaction}
    {result : Except TransactionError Unit} {results : List (Except TransactionError Unit)}
    (h : Consistent txs results) (hok : result = .ok () → tx.accountKeys.Nodup)
    (herror : result ≠ .ok () → lockedNothing result = true) :
    Consistent (tx :: txs) (result :: results) := by
  refine ⟨by simp [h.1], fun p hp => ?_⟩
  rcases List.mem_cons.mp hp with rfl | hp
  · exact ⟨hok, herror⟩
  · exact h.2 p hp

theorem lockAccountsInner_cons_error (locks : AccountLocks) (err : TransactionError)
    (inputs : List (Except TransactionError TransactionAccountLocks)) :
    lockAccountsInner locks (.error err :: inputs) =
      ((lockAccountsInner locks inputs).1, .error err :: (lockAccountsInner locks inputs).2) :=
  rfl

theorem lockAccountsInner_cons_of_ok {locks locks₁ : AccountLocks} {t : TransactionAccountLocks}
    (h : lockAccount locks t.writable t.readonly = .ok locks₁)
    (inputs : List (Except TransactionError TransactionAccountLocks)) :
    lockAccountsInner locks (.ok t :: inputs) =
      ((lockAccountsInner locks₁ inputs).1, .ok () :: (lockAccountsInner locks₁ inputs).2) := by
  simp only [lockAccountsInner, h]

theorem lockAccountsInner_cons_of_error {locks : AccountLocks} {t : TransactionAccountLocks}
    {err : TransactionError} (h : lockAccount locks t.writable t.readonly = .error err)
    (inputs : List (Except TransactionError TransactionAccountLocks)) :
    lockAccountsInner locks (.ok t :: inputs) =
      ((lockAccountsInner locks inputs).1, .error err :: (lockAccountsInner locks inputs).2) := by
  simp only [lockAccountsInner, h]

/-- A batch locked with results that are `Ok` or on the list of `unlock_accounts`: the table
then holds what it held and what the batch acquired, and the results are consistent. -/
theorem lockAccountsWithResults_exact {flag : Bool} :
    ∀ {txs : List SanitizedTransaction} {inputs : List (Except TransactionError Unit)}
      {locks : AccountLocks} {held : List TransactionAccountLocks},
      inputs.length = txs.length → (∀ r ∈ inputs, r ≠ .ok () → lockedNothing r = true) →
      LocksExact locks held →
      LocksExact (lockAccountsWithResults locks txs inputs flag).1
          (heldLocks txs (lockAccountsWithResults locks txs inputs flag).2 ++ held) ∧
        Consistent txs (lockAccountsWithResults locks txs inputs flag).2
  | [], [], _, _, _, _, hexact => ⟨hexact, rfl, by simp⟩
  | tx :: txs, input :: inputs, locks, held, hlen, hinputs, hexact => by
    have hlen : inputs.length = txs.length := by simpa using hlen
    have hinputs' : ∀ r ∈ inputs, r ≠ .ok () → lockedNothing r = true :=
      fun r hr => hinputs r (List.mem_cons_of_mem _ hr)
    have hrest := fun {locks held} (hexact : LocksExact locks held) =>
      @lockAccountsWithResults_exact flag _ _ _ _ hlen hinputs' hexact
    unfold lockAccountsWithResults
    simp only [List.zip_cons_cons, List.map_cons]
    cases input with
    | error err =>
      rw [lockAccountsInner_cons_error, heldLocks_cons_error]
      obtain ⟨hexact', hconsistent⟩ := hrest hexact
      refine ⟨hexact', hconsistent.cons (by simp) fun _ => ?_⟩
      exact hinputs _ List.mem_cons_self (by simp)
    | ok u =>
      cases u
      dsimp only
      cases hget : tx.getAccountLocks flag with
      | error err =>
        rw [lockAccountsInner_cons_error, heldLocks_cons_error]
        obtain ⟨hexact', hconsistent⟩ := hrest hexact
        exact ⟨hexact', hconsistent.cons (by simp)
          fun _ => SanitizedTransaction.getAccountLocks_eq_error hget⟩
      | ok t =>
        obtain ⟨rfl, hnodup⟩ := SanitizedTransaction.getAccountLocks_eq_ok hget
        cases hlock : lockAccount locks tx.getAccountLocksUnchecked.writable
            tx.getAccountLocksUnchecked.readonly with
        | error err =>
          rw [lockAccountsInner_cons_of_error hlock, heldLocks_cons_error]
          obtain ⟨hexact', hconsistent⟩ := hrest hexact
          refine ⟨hexact', hconsistent.cons (by simp) fun _ => ?_⟩
          rw [lockAccount_eq_error hlock]
          rfl
        | ok locks₁ =>
          rw [lockAccountsInner_cons_of_ok hlock, heldLocks_cons_ok]
          obtain ⟨hexact', hconsistent⟩ :=
            hrest (lockAccount_exact hexact
              (SanitizedTransaction.getAccountLocksUnchecked_wellFormed hnodup) hlock)
          exact ⟨hexact'.perm List.perm_middle, hconsistent.cons (fun _ => hnodup) (by simp)⟩

/-- `lock_accounts` is `lock_accounts_with_results` with every result `Ok`. -/
theorem lockAccounts_eq (locks : AccountLocks) (txs : List SanitizedTransaction) (flag : Bool) :
    lockAccounts locks txs flag = lockAccountsWithResults locks txs (txs.map fun _ => .ok ()) flag := by
  unfold lockAccounts lockAccountsWithResults
  congr 1
  induction txs with
  | nil => rfl
  | cons tx txs ih => simp [ih]

/-- Releasing a batch's held locks one transaction after another. -/
theorem foldl_unlockAccount_exact {rest : List TransactionAccountLocks} :
    ∀ {held : List TransactionAccountLocks} {locks : AccountLocks}, LocksExact locks (held ++ rest) →
      LocksExact (held.foldl (fun locks keys => unlockAccount locks keys.writable keys.readonly)
        locks) rest
  | [], _, hexact => hexact
  | t :: held, locks, hexact => by
    have hnext := unlockAccount_exact hexact List.mem_cons_self
    rw [List.cons_append, List.erase_cons_head] at hnext
    rw [List.foldl_cons]
    exact foldl_unlockAccount_exact hnext

/-- `unlock_accounts` with consistent results releases exactly what the batch holds. -/
theorem unlockAccounts_exact {locks : AccountLocks} {txs : List SanitizedTransaction}
    {results : List (Except TransactionError Unit)} {rest : List TransactionAccountLocks}
    (hconsistent : Consistent txs results) (hexact : LocksExact locks (heldLocks txs results ++ rest)) :
    LocksExact (unlockAccounts locks txs results) rest := by
  unfold unlockAccounts
  dsimp only
  have hkeys : ((txs.zip results).filterMap fun (tx, result) =>
      if lockedNothing result then none else some tx.getAccountLocksUnchecked) =
      heldLocks txs results := by
    unfold heldLocks
    refine List.filterMap_congr fun p hp => ?_
    by_cases hok : p.2 = .ok ()
    · simp [hok, lockedNothing]
    · simp [hok, hconsistent.2 p hp |>.2 hok]
  rw [hkeys]
  exact foldl_unlockAccount_exact hexact

/-! ## Runs of locks and unlocks -/

/-- The lock table with the batches locked and not yet unlocked, each with the results its
lock returned. -/
structure LockTable where
  locks : AccountLocks
  batches : List (List SanitizedTransaction × List (Except TransactionError Unit))

namespace LockTable

def held (s : LockTable) : List TransactionAccountLocks :=
  s.batches.flatMap fun batch => heldLocks batch.1 batch.2

/-- A batch is locked, with results that are `Ok` or errors on the list of `unlock_accounts`
(with every result `Ok` this is `lock_accounts`), or a batch is unlocked with its results. -/
inductive Step (flag : Bool) : LockTable → LockTable → Prop
  | lock (locks : AccountLocks) batches (txs : List SanitizedTransaction)
      (inputs : List (Except TransactionError Unit)) (hlen : inputs.length = txs.length)
      (hinputs : ∀ r ∈ inputs, r ≠ .ok () → lockedNothing r = true) :
      Step flag ⟨locks, batches⟩ ⟨(lockAccountsWithResults locks txs inputs flag).1,
        batches ++ [(txs, (lockAccountsWithResults locks txs inputs flag).2)]⟩
  | unlock (locks : AccountLocks) pre post (txs : List SanitizedTransaction)
      (results : List (Except TransactionError Unit)) :
      Step flag ⟨locks, pre ++ (txs, results) :: post⟩ ⟨unlockAccounts locks txs results, pre ++ post⟩

structure Invariant (s : LockTable) : Prop where
  exact : LocksExact s.locks s.held
  consistent : ∀ batch ∈ s.batches, Consistent batch.1 batch.2

theorem invariant_empty : Invariant ⟨⟨∅, []⟩, []⟩ := ⟨LocksExact.empty, by simp⟩

theorem Invariant.step {flag : Bool} {s s' : LockTable} (hinv : s.Invariant)
    (hstep : Step flag s s') : s'.Invariant := by
  cases hstep with
  | lock locks batches txs inputs hlen hinputs =>
    obtain ⟨hexact, hconsistent⟩ := lockAccountsWithResults_exact hlen hinputs hinv.exact
    refine ⟨hexact.perm ?_, fun batch hbatch => ?_⟩
    · simpa [held] using List.perm_append_comm
    · rcases List.mem_append.mp hbatch with hbatch | hbatch
      · exact hinv.consistent batch hbatch
      · rw [List.mem_singleton] at hbatch
        subst hbatch
        exact hconsistent
  | unlock locks pre post txs results =>
    have hexact : LocksExact locks (heldLocks txs results ++ held ⟨locks, pre ++ post⟩) := by
      refine hinv.exact.perm ?_
      simp only [held, List.flatMap_append, List.flatMap_cons]
      rw [← List.append_assoc, ← List.append_assoc]
      exact List.perm_append_comm.append_right _
    refine ⟨unlockAccounts_exact (hinv.consistent (txs, results) (by simp)) hexact,
      fun batch hbatch => ?_⟩
    exact hinv.consistent batch (by simp at hbatch ⊢; tauto)

/-- Over any run of lock calls whose results are `Ok` or on the list of `unlock_accounts`, and
unlock calls with the results of their lock, the table is exactly what the locked and not yet
unlocked transactions acquired, with no conflicting locks. -/
theorem invariant_of_reachable {flag : Bool} {s : LockTable}
    (h : Relation.ReflTransGen (Step flag) ⟨⟨∅, []⟩, []⟩ s) : s.Invariant := by
  induction h with
  | refl => exact invariant_empty
  | tail _ hstep ih => exact ih.step hstep

/-- A batch of one transaction locked and then unlocked leaves an exact table. -/
theorem invariant_of_reachable_lockUnlock :
    let tx : SanitizedTransaction := ⟨[5], fun _ => true⟩
    let locked := lockAccountsWithResults ⟨∅, []⟩ [tx] [.ok ()] true
    let s : LockTable := ⟨unlockAccounts locked.1 [tx] locked.2, []⟩
    Relation.ReflTransGen (Step true) ⟨⟨∅, []⟩, []⟩ s ∧ s.Invariant := by
  intro tx locked s
  have hrun : Relation.ReflTransGen (Step true) ⟨⟨∅, []⟩, []⟩ s :=
    .tail (.single (Step.lock _ [] [tx] [.ok ()] rfl (by simp)))
      (Step.unlock _ [] [] [tx] locked.2)
  exact ⟨hrun, invariant_of_reachable hrun⟩

end LockTable

/-- A transaction locks key 5 for writing. The same transaction, passed in again with the
error `BlockhashNotFound`, locks nothing, but unlocking it with that result releases key 5;
a third lock of it then succeeds while the first still holds its lock. -/
theorem unlockAccounts_releases_foreign_lock :
    let tx : SanitizedTransaction := ⟨[5], fun _ => true⟩
    let locked := lockAccounts ⟨∅, []⟩ [tx] true
    let refused := lockAccountsWithResults locked.1 [tx] [.error .blockhashNotFound] true
    let relocked := lockAccounts (unlockAccounts refused.1 [tx] refused.2) [tx] true
    locked.2 = [.ok ()] ∧ refused = (locked.1, [.error .blockhashNotFound]) ∧
      relocked.2 = [.ok ()] ∧
      ¬LocksExact relocked.1 (heldLocks [tx] locked.2 ++ heldLocks [tx] relocked.2) := by
  intro tx locked refused relocked
  refine ⟨by decide, by decide, by decide, fun hexact => ?_⟩
  have hone := hexact.oneWriter 5
  revert hone
  decide

end Solana.Runtime
