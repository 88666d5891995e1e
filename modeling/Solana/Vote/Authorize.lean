import Solana.Vote.Instruction
import Solana.Lib.SortedKeys
import Solana.Lib.Run

/-! Authorized voters under `authorize`: getting, caching and purging keeps the voter of the
current and every later epoch (`purge_getAndCache`). -/

namespace Solana.VoteProgram

open MachineInt

namespace AuthorizedVoters

variable {v : AuthorizedVoters}

/-- The voter of an epoch is that of the latest entry at or before it. -/
theorem getAuthorizedVoter_eq (v : AuthorizedVoters) (epoch : ℕ) :
    v.getAuthorizedVoter epoch =
      ((v.entries.filter fun e => e.1 ≤ epoch).getLast?).map (·.2) := by
  rw [SortedKeys.filter_le_eq epoch v.sorted, List.getLast?_append]
  unfold getAuthorizedVoter getOrCalculateAuthorizedVoterForEpoch get
  cases hfind : v.entries.find? (fun e => e.1 = epoch) with
  | none => simp [Function.comp_def]
  | some e => simp

/-- Some voter is in force at an epoch with an entry at or before it. -/
theorem exists_getAuthorizedVoter_eq_some {epoch : ℕ} (h : ∃ e ∈ v.entries, e.1 ≤ epoch) :
    ∃ pubkey, v.getAuthorizedVoter epoch = some pubkey := by
  obtain ⟨e, he, hle⟩ := h
  have hne : v.entries.filter (fun e => e.1 ≤ epoch) ≠ [] :=
    List.ne_nil_of_mem (List.mem_filter.mpr ⟨he, by simpa using hle⟩)
  obtain ⟨last, hlast⟩ := Option.isSome_iff_exists.mp (List.getLast?_isSome.mpr hne)
  exact ⟨last.2, by rw [getAuthorizedVoter_eq, hlast]; rfl⟩

/-- The voter `get_or_calculate_authorized_voter_for_epoch` returns comes from an entry at
the epoch exactly when it says it existed. -/
theorem find?_of_getOrCalculate {epoch : ℕ} {pubkey : Pubkey} {existed : Bool}
    (h : v.getOrCalculateAuthorizedVoterForEpoch epoch = some (pubkey, existed)) :
    v.entries.find? (fun e => e.1 = epoch) = if existed then some (epoch, pubkey) else none := by
  unfold getOrCalculateAuthorizedVoterForEpoch get at h
  split at h
  case h_1 p hget =>
    obtain ⟨e, hfind, rfl⟩ := Option.map_eq_some_iff.mp hget
    obtain ⟨rfl, rfl⟩ := Prod.mk.inj (Option.some.inj h)
    have hkey : e.1 = epoch := by simpa using List.find?_some hfind
    rw [hfind, if_pos rfl, ← hkey]
  case h_2 hget =>
    obtain ⟨e, -, he⟩ := Option.map_eq_some_iff.mp h
    obtain ⟨-, rfl⟩ := Prod.mk.inj he
    simpa using hget

/-- Inserting into sorted entries puts the new entry between those below and above its epoch,
in place of one at its epoch. -/
theorem insertEntry_eq (epoch : ℕ) (pubkey : Pubkey) :
    ∀ {l : List (ℕ × Pubkey)}, l.Pairwise (fun a b => a.1 < b.1) →
      insertEntry epoch pubkey l =
        l.filter (fun e => e.1 < epoch) ++ (epoch, pubkey) :: l.filter (fun e => epoch < e.1)
  | [], _ => rfl
  | e :: rest, hl => by
    obtain ⟨he, hrest⟩ := List.pairwise_cons.mp hl
    simp only [insertEntry]
    split_ifs with hlt heq
    · have habove : ∀ x ∈ e :: rest, epoch < x.1 := fun x hx => by
        rcases List.mem_cons.mp hx with rfl | hx
        · exact hlt
        · exact hlt.trans (he x hx)
      have hbelow : (e :: rest).filter (fun x => x.1 < epoch) = [] :=
        List.filter_eq_nil_iff.mpr fun x hx => by simpa using (habove x hx).le
      have hall : (e :: rest).filter (fun x => epoch < x.1) = e :: rest :=
        List.filter_eq_self.mpr fun x hx => by simpa using habove x hx
      rw [hbelow, hall]
      rfl
    · have hbelow : (e :: rest).filter (fun x => x.1 < epoch) = [] :=
        List.filter_eq_nil_iff.mpr fun x hx => by
          rcases List.mem_cons.mp hx with rfl | hx
          · simp [heq]
          · simpa [heq] using (he x hx).le
      have habove : (e :: rest).filter (fun x => epoch < x.1) = rest := by
        rw [List.filter_cons_of_neg (by simp [heq]),
          List.filter_eq_self.mpr fun x hx => by simpa [heq] using he x hx]
      rw [hbelow, habove]
      rfl
    · have hlt' : e.1 < epoch := by omega
      rw [List.filter_cons_of_pos (by simpa using hlt'),
        List.filter_cons_of_neg (by simpa using hlt'.le), insertEntry_eq epoch pubkey hrest]
      rfl

/-- A map that does not contain an epoch has no entry at it. -/
theorem ne_of_contains_eq_false {epoch : ℕ} (h : v.contains epoch = false) :
    ∀ e ∈ v.entries, e.1 ≠ epoch := by
  have hnone : v.entries.find? (fun e => e.1 = epoch) = none := by
    simpa [contains, get] using h
  intro e he hkey
  exact absurd (List.find?_eq_none.mp hnone e he) (by simpa using hkey)

/-- The inserted entry is in the map. -/
theorem mem_insertEntry_self (epoch : ℕ) (pubkey : Pubkey) {l : List (ℕ × Pubkey)}
    (hl : l.Pairwise (fun a b => a.1 < b.1)) : (epoch, pubkey) ∈ insertEntry epoch pubkey l := by
  rw [insertEntry_eq epoch pubkey hl]
  exact List.mem_append_right _ List.mem_cons_self

/-- Inserting keeps every entry at another epoch. -/
theorem mem_insertEntry_of_ne {epoch : ℕ} {pubkey : Pubkey} {l : List (ℕ × Pubkey)}
    (hl : l.Pairwise (fun a b => a.1 < b.1)) {e : ℕ × Pubkey} (he : e ∈ l) (hne : e.1 ≠ epoch) :
    e ∈ insertEntry epoch pubkey l := by
  rw [insertEntry_eq epoch pubkey hl]
  rcases Nat.lt_or_gt_of_ne hne with hlt | hgt
  · exact List.mem_append_left _ (List.mem_filter.mpr ⟨he, by simpa using hlt⟩)
  · exact List.mem_append_right _ (List.mem_cons_of_mem _ (List.mem_filter.mpr ⟨he, by simpa using hgt⟩))

/-- Purging keeps the entries from the epoch on, and succeeds when there is one. -/
theorem purgeAuthorizedVoters_eq {epoch : ℕ} {x : ℕ × Pubkey} {xs : List (ℕ × Pubkey)}
    (h : v.entries.filter (fun e => epoch ≤ e.1) = x :: xs) :
    ∃ purged, v.purgeAuthorizedVoters epoch = some purged ∧ purged.entries = x :: xs := by
  unfold purgeAuthorizedVoters
  rw [if_neg (by simp [isEmpty, h])]
  exact ⟨_, rfl, h⟩

/-- Caching the voter of an epoch, then purging the entries before it, leaves that voter at
the epoch followed by the entries after it. -/
theorem purge_getAndCache {epoch : ℕ} {pubkey : Pubkey}
    (h : v.getAuthorizedVoter epoch = some pubkey) :
    (v.getAndCacheAuthorizedVoterForEpoch epoch).1 = some pubkey ∧
      ∃ purged, (v.getAndCacheAuthorizedVoterForEpoch epoch).2.purgeAuthorizedVoters epoch =
        some purged ∧ purged.entries = (epoch, pubkey) :: v.entries.filter fun e => epoch < e.1 := by
  obtain ⟨⟨p, existed⟩, hcalc, rfl⟩ := Option.map_eq_some_iff.mp h
  have hfind := find?_of_getOrCalculate hcalc
  unfold getAndCacheAuthorizedVoterForEpoch
  rw [hcalc]
  refine ⟨rfl, purgeAuthorizedVoters_eq ?_⟩
  cases existed with
  | true =>
    dsimp only
    rw [if_pos rfl, SortedKeys.filter_ge_eq epoch v.sorted, hfind, if_pos rfl]
    rfl
  | false =>
    have hbelow : (v.entries.filter fun e => e.1 < epoch).filter (fun e => epoch ≤ e.1) = [] :=
      List.filter_eq_nil_iff.mpr fun e he => by
        simpa using SortedKeys.key_lt_of_mem_filter_lt he
    have habove : (v.entries.filter fun e => epoch < e.1).filter (fun e => epoch ≤ e.1) =
        v.entries.filter fun e => epoch < e.1 :=
      List.filter_eq_self.mpr fun e he => by
        simpa using (SortedKeys.lt_key_of_mem_filter_lt he).le
    dsimp only
    rw [if_neg Bool.false_ne_true]
    show (insertEntry epoch p v.entries).filter _ = _
    rw [insertEntry_eq epoch p v.sorted, List.filter_append, List.filter_cons_of_pos (by simp),
      hbelow, habove, List.nil_append]

/-- Caching the voter of an epoch with an entry at or before it, then purging the entries
before it, leaves a map with the same voter at that epoch and at every later one. -/
theorem getAuthorizedVoter_purge_getAndCache {epoch : ℕ} (hin : ∃ e ∈ v.entries, e.1 ≤ epoch) :
    ∃ purged, (v.getAndCacheAuthorizedVoterForEpoch epoch).2.purgeAuthorizedVoters epoch =
        some purged ∧ ∀ x, epoch ≤ x → purged.getAuthorizedVoter x = v.getAuthorizedVoter x := by
  obtain ⟨pubkey, hpubkey⟩ := exists_getAuthorizedVoter_eq_some hin
  obtain ⟨-, purged, hpurge, hentries⟩ := purge_getAndCache hpubkey
  refine ⟨purged, hpurge, fun x hx => ?_⟩
  have hat : ((v.entries.filter fun e => e.1 ≤ epoch).getLast?).map (·.2) = some pubkey := by
    rw [← getAuthorizedVoter_eq, hpubkey]
  rw [getAuthorizedVoter_eq, getAuthorizedVoter_eq, hentries,
    SortedKeys.filter_le_eq_append hx v.sorted, List.filter_cons_of_pos (by simpa using hx),
    List.getLast?_append, List.getLast?_cons, Option.map_or, hat, Option.or_some]
  cases ((v.entries.filter fun e => epoch < e.1).filter fun e => e.1 ≤ x).getLast? <;> rfl

end AuthorizedVoters

namespace CircBuf

@[simp] theorem length_buf_append (c : CircBuf) (item : Pubkey × ℕ × ℕ) :
    (c.append item).buf.length = c.buf.length :=
  List.length_set

/-- The last item of a ring buffer with all its slots is the one appended last. -/
theorem last_append {c : CircBuf} (h : c.buf.length = maxItems) (item : Pubkey × ℕ × ℕ) :
    (c.append item).last = some item := by
  have hidx : (c.idx + 1) % maxItems < c.buf.length := by
    rw [h]
    exact Nat.mod_lt _ (by decide)
  simp [append, last, List.getElem?_set_self hidx]

end CircBuf

namespace VoteState

/-- `get_and_update_authorized_voter` at an epoch with a voter: the voter, with the map cut
to that voter at the epoch followed by the later entries. -/
theorem getAndUpdateAuthorizedVoter_of_voter {s : VoteState} {epoch : ℕ} {pubkey : Pubkey}
    (h : s.authorizedVoters.getAuthorizedVoter epoch = some pubkey) :
    ∃ purged : AuthorizedVoters,
      (s.getAndUpdateAuthorizedVoter epoch).run =
        some (.ok (pubkey, { s with authorizedVoters := purged })) ∧
      purged.entries = (epoch, pubkey) :: s.authorizedVoters.entries.filter fun e => epoch < e.1 := by
  obtain ⟨hvoter, purged, hpurge, hentries⟩ := AuthorizedVoters.purge_getAndCache h
  refine ⟨purged, ?_, hentries⟩
  unfold getAndUpdateAuthorizedVoter
  generalize s.authorizedVoters.getAndCacheAuthorizedVoterForEpoch epoch = cache at hvoter hpurge
  obtain ⟨voter, cached⟩ := cache
  dsimp only at hvoter hpurge ⊢
  rw [hvoter, hpurge]
  rfl

/-- `set_new_authorized_voter` at a current epoch with a voter, for a target epoch after it and
at or after every entry: its assertion holds, so it never aborts; when it succeeds, the target
epoch holds the new voter in the cut map, and the prior voters are kept or get a range that
ends at the target epoch. -/
theorem setNewAuthorizedVoter_spec {s : VoteState} {authorizedPubkey pubkey : Pubkey}
    {currentEpoch targetEpoch : ℕ} {verify : Pubkey → Except InstructionError Unit}
    (hvoter : s.authorizedVoters.getAuthorizedVoter currentEpoch = some pubkey)
    (hcurrent : currentEpoch < targetEpoch)
    (hkeys : ∀ e ∈ s.authorizedVoters.entries, e.1 ≤ targetEpoch) :
    (s.setNewAuthorizedVoter authorizedPubkey currentEpoch targetEpoch verify).run ≠ none ∧
    ∀ s', (s.setNewAuthorizedVoter authorizedPubkey currentEpoch targetEpoch verify).run =
        some (.ok s') →
      ∃ purged : AuthorizedVoters,
        purged.entries = (currentEpoch, pubkey) ::
          s.authorizedVoters.entries.filter (fun e => currentEpoch < e.1) ∧
        s'.authorizedVoters = purged.insert targetEpoch authorizedPubkey ∧
        (s'.priorVoters = s.priorVoters ∨ ∃ latest : Pubkey, s'.priorVoters =
          s.priorVoters.append (latest, (s.priorVoters.last.map (·.2.2)).getD 0, targetEpoch)) := by
  obtain ⟨purged, hget, hentries⟩ := getAndUpdateAuthorizedVoter_of_voter hvoter
  unfold setNewAuthorizedVoter
  rw [Fallible.run_bind_of_eq_ok hget]
  dsimp only
  cases hv : verify pubkey with
  | error err => simp
  | ok u =>
    simp only [Fallible.ofExcept_ok, pure_bind]
    by_cases hcontains : purged.contains targetEpoch = true
    · rw [if_pos hcontains]
      simp
    rw [if_neg hcontains]
    have hbefore : ∀ e ∈ purged.entries, e.1 < targetEpoch := by
      intro e he
      have hne : e.1 ≠ targetEpoch := AuthorizedVoters.ne_of_contains_eq_false
        (Bool.eq_false_iff.mpr hcontains) e he
      have hle : e.1 ≤ targetEpoch := by
        rw [hentries] at he
        rcases List.mem_cons.mp he with rfl | he
        · exact hcurrent.le
        · exact hkeys e (List.mem_of_mem_filter he)
      omega
    obtain ⟨latest, hlast⟩ : ∃ latest, purged.last = some latest :=
      Option.isSome_iff_exists.mp (List.getLast?_isSome.mpr (by simp [hentries]))
    have hlatest : latest.1 < targetEpoch := hbefore latest (List.mem_of_getLast? hlast)
    rw [hlast]
    obtain ⟨latestEpoch, latestPubkey⟩ := latest
    dsimp only
    split_ifs with hswitch
    · rw [Fallible.assert, if_pos hlatest]
      simp only [pure_bind, Fallible.run_pure]
      refine ⟨Option.some_ne_none _, fun s' h => ⟨purged, hentries, ?_⟩⟩
      cases Except.ok.inj (Option.some.inj h)
      exact ⟨rfl, .inr ⟨latestPubkey, rfl⟩⟩
    · simp only [Fallible.run_pure]
      refine ⟨Option.some_ne_none _, fun s' h => ⟨purged, hentries, ?_⟩⟩
      cases Except.ok.inj (Option.some.inj h)
      exact ⟨rfl, .inl rfl⟩

end VoteState

/-! ## Runs of `authorize` for the voter -/

/-- The two epochs a clock carries, compared one by one. -/
def clockEpochs (clock : Clock) : ℕ × ℕ := (clock.epoch, clock.leaderScheduleEpoch)

/-- What every run of `authorize` for the voter keeps of a vote state, once it has seen a clock
with `epochs = (epoch, leaderScheduleEpoch)`. -/
structure VoterSchedule (epochs : ℕ × ℕ) (s : VoteState) : Prop where
  /-- a voter is in force at the epoch -/
  in_force : ∃ e ∈ s.authorizedVoters.entries, e.1 ≤ epochs.1
  /-- no voter is scheduled past the epoch after the leader schedule epoch -/
  scheduled_le : ∀ e ∈ s.authorizedVoters.entries, e.1 ≤ epochs.2 + 1
  /-- the last switch recorded is no later than some scheduled epoch -/
  last_switch_le : ∀ prior ∈ s.priorVoters.last, ∃ e ∈ s.authorizedVoters.entries, prior.2.2 ≤ e.1
  /-- the prior voters keep their `MAX_ITEMS` slots -/
  buf_length : s.priorVoters.buf.length = maxItems

namespace VoterSchedule

variable {epochs : ℕ × ℕ} {s : VoteState}

/-- A later clock keeps the schedule. -/
theorem mono {epochs' : ℕ × ℕ} (hle : epochs ≤ epochs') (hs : VoterSchedule epochs s) :
    VoterSchedule epochs' s := by
  obtain ⟨hepoch, hleader⟩ := Prod.le_def.mp hle
  obtain ⟨e, he, hin⟩ := hs.in_force
  exact ⟨⟨e, he, hin.trans hepoch⟩, fun e he => (hs.scheduled_le e he).trans (by omega),
    hs.last_switch_le, hs.buf_length⟩

/-- An account initialized under a clock is scheduled at it. -/
theorem new (voteInit : VoteInit) {clock : Clock}
    (hclock : clock.epoch ≤ clock.leaderScheduleEpoch) :
    VoterSchedule (clockEpochs clock) (VoteState.new voteInit clock) where
  in_force := ⟨(clock.epoch, voteInit.authorizedVoter), List.mem_singleton_self _, le_rfl⟩
  scheduled_le := by
    intro e he
    rw [List.mem_singleton.mp he]
    exact hclock.trans (Nat.le_succ _)
  last_switch_le := by simp [VoteState.new, VoteState.default, CircBuf.default, CircBuf.last]
  buf_length := List.length_replicate

/-- One `authorize` for the voter, under a valid clock no earlier than the schedule's whose
leader schedule epoch is below `u64::MAX`: it does not abort, and when it succeeds the state
is scheduled at the clock, and the prior voters are kept or get a range that ends no earlier
than it starts or than the last one recorded. -/
theorem authorize (hs : VoterSchedule epochs s) {clock : Clock} (hle : epochs ≤ clockEpochs clock)
    (hclock : clock.epoch ≤ clock.leaderScheduleEpoch)
    (hbound : clock.leaderScheduleEpoch + 1 < 2 ^ 64)
    (authorized : Pubkey) (signers : List Pubkey) (featureSet : FeatureSet) :
    (VoteProgram.authorize s authorized .voter signers clock featureSet).run ≠ none ∧
    ∀ s', (VoteProgram.authorize s authorized .voter signers clock featureSet).run =
        some (.ok s') →
      VoterSchedule (clockEpochs clock) s' ∧
      (s'.priorVoters = s.priorVoters ∨ ∃ pubkey startEpoch endEpoch,
        s'.priorVoters = s.priorVoters.append (pubkey, startEpoch, endEpoch) ∧
        startEpoch ≤ endEpoch ∧ ∀ prior ∈ s.priorVoters.last, prior.2.2 ≤ endEpoch) := by
  have hs' := hs.mono hle
  have hkeys : ∀ e ∈ s.authorizedVoters.entries, e.1 ≤ clock.leaderScheduleEpoch + 1 :=
    hs'.scheduled_le
  obtain ⟨pubkey, hvoter⟩ := AuthorizedVoters.exists_getAuthorizedVoter_eq_some hs'.in_force
  have htarget : wrappingAdd 64 clock.leaderScheduleEpoch 1 = clock.leaderScheduleEpoch + 1 :=
    wrappingAdd_of_lt hbound
  unfold VoteProgram.authorize
  dsimp only
  rw [htarget]
  obtain ⟨hne, hok⟩ := VoteState.setNewAuthorizedVoter_spec hvoter (Nat.lt_succ_of_le hclock) hkeys
  refine ⟨hne, fun s' h => ?_⟩
  obtain ⟨purged, hentries, hvoters, hprior⟩ := hok s' h
  have hswitch : ∀ prior ∈ s.priorVoters.last, prior.2.2 ≤ clock.leaderScheduleEpoch + 1 := by
    intro prior hprior
    obtain ⟨e, he, hle⟩ := hs'.last_switch_le prior hprior
    exact hle.trans (hkeys e he)
  have hbuf : s'.priorVoters.buf.length = maxItems := by
    rcases hprior with h | ⟨_, h⟩ <;> simp [h, hs.buf_length]
  have htargetMem : (clock.leaderScheduleEpoch + 1, authorized) ∈ s'.authorizedVoters.entries := by
    rw [hvoters]
    exact AuthorizedVoters.mem_insertEntry_self _ _ purged.sorted
  refine ⟨⟨?_, ?_, ?_, hbuf⟩, ?_⟩
  · refine ⟨(clock.epoch, pubkey), ?_, le_rfl⟩
    rw [hvoters]
    refine AuthorizedVoters.mem_insertEntry_of_ne purged.sorted ?_ (by dsimp only; omega)
    rw [hentries]
    exact List.mem_cons_self
  · intro e he
    rw [hvoters] at he
    rcases mem_insertEntry _ he with htarget | he
    · exact htarget.le
    rw [hentries] at he
    rcases List.mem_cons.mp he with rfl | he
    · exact Nat.le_succ_of_le hclock
    · exact hkeys e (List.mem_of_mem_filter he)
  · intro prior hprior'
    refine ⟨_, htargetMem, ?_⟩
    rcases hprior with h | ⟨latest, h⟩
    · rw [h] at hprior'
      exact hswitch prior hprior'
    · rw [h, CircBuf.last_append hs.buf_length, Option.mem_some_iff] at hprior'
      rw [← hprior']
  · rcases hprior with h | ⟨latest, h⟩
    · exact .inl h
    refine .inr ⟨latest, _, _, h, ?_, hswitch⟩
    cases hlast : s.priorVoters.last with
    | none => exact Nat.zero_le _
    | some prior => exact hswitch prior hlast

end VoterSchedule

/-- A transaction with `authorize` writes the state it computes, keeps the account when it
fails and aborts when it aborts. -/
theorem execute_authorize (account : VoteAccount) (env : InvokeEnv) (authorized : Pubkey)
    (voteAuthorize : VoteAuthorize) :
    execute account (env, .authorize authorized voteAuthorize) =
      match (authorize account.state authorized voteAuthorize env.signers env.clock
          env.featureSet).run with
      | some (.ok s) => some { account with state := s }
      | some (.error _) => some account
      | none => none := by
  unfold execute processInstruction
  cases hrun : (authorize account.state authorized voteAuthorize env.signers env.clock
      env.featureSet).run with
  | none => simp [hrun]
  | some r => cases r <;> simp [hrun, Except.map]

namespace VoterSchedule

variable {epochs : ℕ × ℕ}

/-- One transaction calling `authorize` for the voter, under a clock as in `authorize`: it does
not abort, leaves the account scheduled at the clock, and keeps the prior voters or appends a
range that ends no earlier than it starts or than the last one recorded. -/
theorem execute_voter {account : VoteAccount} (hs : VoterSchedule epochs account.state)
    {env : InvokeEnv} (hle : epochs ≤ clockEpochs env.clock)
    (hclock : env.clock.epoch ≤ env.clock.leaderScheduleEpoch)
    (hbound : env.clock.leaderScheduleEpoch + 1 < 2 ^ 64) (authorized : Pubkey) :
    ∃ account', execute account (env, .authorize authorized .voter) = some account' ∧
      VoterSchedule (clockEpochs env.clock) account'.state ∧
      (account'.state.priorVoters = account.state.priorVoters ∨ ∃ pubkey startEpoch endEpoch,
        account'.state.priorVoters =
          account.state.priorVoters.append (pubkey, startEpoch, endEpoch) ∧
        startEpoch ≤ endEpoch ∧ ∀ prior ∈ account.state.priorVoters.last, prior.2.2 ≤ endEpoch) := by
  obtain ⟨hne, hok⟩ := hs.authorize hle hclock hbound authorized env.signers env.featureSet
  rw [execute_authorize]
  cases hrun : (VoteProgram.authorize account.state authorized .voter env.signers env.clock
      env.featureSet).run with
  | none => exact absurd hrun hne
  | some r =>
    cases r with
    | error _ => exact ⟨account, rfl, hs.mono hle, .inl rfl⟩
    | ok s' => exact ⟨_, rfl, hok s' hrun⟩

/-- A run of `authorize` for the voter under valid clocks that never go back, each with its
leader schedule epoch below `u64::MAX`, from a scheduled account: it does not abort, and ends
scheduled at every clock no earlier than all of the run's. -/
theorem exec_voter {account : VoteAccount} (hs : VoterSchedule epochs account.state)
    (calls : List (InvokeEnv × Pubkey))
    (hsorted : (epochs :: calls.map fun call => clockEpochs call.1.clock).Pairwise (· ≤ ·))
    (hvalid : ∀ call ∈ calls, call.1.clock.epoch ≤ call.1.clock.leaderScheduleEpoch ∧
      call.1.clock.leaderScheduleEpoch + 1 < 2 ^ 64) :
    ∃ account', Run.exec execute account
        (calls.map fun call => (call.1, .authorize call.2 .voter)) = some account' ∧
      ∀ j, (∀ k ∈ epochs :: calls.map fun call => clockEpochs call.1.clock, k ≤ j) →
        VoterSchedule j account'.state := by
  have hstamps : ((calls.map fun call => (call.1, VoteInstruction.authorize call.2 .voter)).map
      fun action => clockEpochs action.1.clock) = calls.map fun call => clockEpochs call.1.clock := by
    rw [List.map_map]
    rfl
  have hstep : ∀ account, ∀ a ∈ calls.map (fun call => (call.1, VoteInstruction.authorize call.2 .voter)),
      ∀ i, i ≤ clockEpochs a.1.clock → VoterSchedule i account.state →
        ∃ account', execute account a = some account' ∧
          VoterSchedule (clockEpochs a.1.clock) account'.state := by
    intro account a ha i hi hs
    obtain ⟨call, hcall, rfl⟩ := List.mem_map.mp ha
    obtain ⟨account', hexec, hs', -⟩ :=
      hs.execute_voter hi (hvalid call hcall).1 (hvalid call hcall).2 call.2
    exact ⟨account', hexec, hs'⟩
  have hrun := Run.exec_exists_of_stamps (P := fun i (account : VoteAccount) =>
      VoterSchedule i account.state) (fun action : InvokeEnv × VoteInstruction =>
      clockEpochs action.1.clock) (fun hle hs => hs.mono hle) _ hstep (hstamps ▸ hsorted) hs
  rwa [hstamps] at hrun

end VoterSchedule

theorem authorizedVoters_schedule :
    (∀ (v : AuthorizedVoters) (epoch : ℕ), (∃ e ∈ v.entries, e.1 ≤ epoch) →
      ∃ purged, (v.getAndCacheAuthorizedVoterForEpoch epoch).2.purgeAuthorizedVoters epoch =
          some purged ∧ ∀ x, epoch ≤ x → purged.getAuthorizedVoter x = v.getAuthorizedVoter x) ∧
    ∀ (account : VoteAccount) (voteInit : VoteInit) (clock : Clock)
      (calls : List (InvokeEnv × Pubkey)),
      account.state = VoteState.new voteInit clock → clock.epoch ≤ clock.leaderScheduleEpoch →
      (clockEpochs clock :: calls.map fun call => clockEpochs call.1.clock).Pairwise (· ≤ ·) →
      (∀ call ∈ calls, call.1.clock.epoch ≤ call.1.clock.leaderScheduleEpoch ∧
        call.1.clock.leaderScheduleEpoch + 1 < 2 ^ 64) →
      (∃ account', Run.exec execute account
        (calls.map fun call => (call.1, .authorize call.2 .voter)) = some account') ∧
      ∀ pre call post, calls = pre ++ call :: post →
        ∃ before after, Run.exec execute account
            (pre.map fun call => (call.1, .authorize call.2 .voter)) = some before ∧
          execute before (call.1, .authorize call.2 .voter) = some after ∧
          (after.state.priorVoters = before.state.priorVoters ∨ ∃ pubkey startEpoch endEpoch,
            after.state.priorVoters =
              before.state.priorVoters.append (pubkey, startEpoch, endEpoch) ∧
            startEpoch ≤ endEpoch ∧ ∀ prior ∈ before.state.priorVoters.last, prior.2.2 ≤ endEpoch) := by
  refine ⟨fun v epoch hin => AuthorizedVoters.getAuthorizedVoter_purge_getAndCache hin, ?_⟩
  intro account voteInit clock calls hnew hclock hsorted hvalid
  have hs : VoterSchedule (clockEpochs clock) account.state := hnew ▸ VoterSchedule.new voteInit hclock
  refine ⟨(hs.exec_voter calls hsorted hvalid).imp fun _ h => h.1, ?_⟩
  rintro pre call post rfl
  have hsplit : (clockEpochs clock :: (pre ++ call :: post).map fun call => clockEpochs call.1.clock) =
      (clockEpochs clock :: pre.map fun call => clockEpochs call.1.clock) ++
        (clockEpochs call.1.clock :: post.map fun call => clockEpochs call.1.clock) := by
    simp
  rw [hsplit, List.pairwise_append] at hsorted
  have hlater : ∀ k ∈ clockEpochs clock :: pre.map fun call => clockEpochs call.1.clock,
      k ≤ clockEpochs call.1.clock :=
    fun k hk => hsorted.2.2 k hk _ List.mem_cons_self
  obtain ⟨before, hrun, hbefore⟩ :=
    hs.exec_voter pre hsorted.1 fun c hc => hvalid c (List.mem_append_left _ hc)
  have hcall := hvalid call (List.mem_append_right _ List.mem_cons_self)
  obtain ⟨after, hexec, -, hprior⟩ :=
    (hbefore _ hlater).execute_voter le_rfl hcall.1 hcall.2 call.2
  exact ⟨before, after, hrun, hexec, hprior⟩

theorem authorizedVoters_schedule_new :
    ((∃ e ∈ (AuthorizedVoters.new 2 7).entries, e.1 ≤ 3) ∧
      ∃ purged, ((AuthorizedVoters.new 2 7).getAndCacheAuthorizedVoterForEpoch 3).2.purgeAuthorizedVoters 3 =
          some purged ∧
        ∀ x, 3 ≤ x → purged.getAuthorizedVoter x = (AuthorizedVoters.new 2 7).getAuthorizedVoter x) ∧
    (((⟨VoteState.new ⟨0, 7, 8, 0⟩ ⟨0, 2, 3, 0⟩, 0, 3731⟩ : VoteAccount).state =
        VoteState.new ⟨0, 7, 8, 0⟩ ⟨0, 2, 3, 0⟩ ∧
      (⟨0, 2, 3, 0⟩ : Clock).epoch ≤ (⟨0, 2, 3, 0⟩ : Clock).leaderScheduleEpoch ∧
      (clockEpochs ⟨0, 2, 3, 0⟩ :: ([(⟨[], ⟨0, 3, 4, 0⟩, [7], {}, 0, 0⟩, 9)] :
        List (InvokeEnv × Pubkey)).map fun call => clockEpochs call.1.clock).Pairwise (· ≤ ·) ∧
      (∀ call ∈ ([(⟨[], ⟨0, 3, 4, 0⟩, [7], {}, 0, 0⟩, 9)] : List (InvokeEnv × Pubkey)),
        call.1.clock.epoch ≤ call.1.clock.leaderScheduleEpoch ∧
          call.1.clock.leaderScheduleEpoch + 1 < 2 ^ 64)) ∧
      ∃ account', Run.exec execute ⟨VoteState.new ⟨0, 7, 8, 0⟩ ⟨0, 2, 3, 0⟩, 0, 3731⟩
        (([(⟨[], ⟨0, 3, 4, 0⟩, [7], {}, 0, 0⟩, 9)] : List (InvokeEnv × Pubkey)).map
          fun call => (call.1, .authorize call.2 .voter)) = some account') := by
  refine ⟨⟨by decide, (authorizedVoters_schedule.1 _ _ (by decide))⟩, ⟨rfl, by decide, ?_, by decide⟩,
    (authorizedVoters_schedule.2 _ _ _ _ rfl (by decide) ?_ (by decide)).1⟩ <;>
  simp [clockEpochs]

/-- At `leader_schedule_epoch = u64::MAX` the target epoch wraps to 0, before the voter in force
at epoch 5, and the assertion of `set_new_authorized_voter` fails. -/
theorem authorize_voter_aborts_at_u64_max :
    (⟨0, 5, 2 ^ 64 - 1, 0⟩ : Clock).epoch ≤ (⟨0, 5, 2 ^ 64 - 1, 0⟩ : Clock).leaderScheduleEpoch ∧
      execute ⟨VoteState.new ⟨0, 1, 2, 0⟩ ⟨0, 5, 2 ^ 64 - 1, 0⟩, 0, 3731⟩
        (⟨[], ⟨0, 5, 2 ^ 64 - 1, 0⟩, [1], {}, 0, 0⟩, .authorize 3 .voter) = none :=
  ⟨by decide, by decide⟩

end Solana.VoteProgram
