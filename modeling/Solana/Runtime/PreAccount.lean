import Solana.Runtime.Rent
import Solana.Lib.Fallible

/-! `PreAccount::verify` of `program-runtime/src/pre_account.rs`, what it allows
(`verify_allowedChange`), and `Tracks` kept by every allowed change. -/

namespace Solana.Runtime

/-- `MAX_PERMITTED_DATA_LENGTH`. -/
def maxPermittedDataLength : ℕ := 10 * 1024 * 1024

/-- Whether the data holds only zeros; a serialized nonce state does not. -/
def AccountData.isZeroed : AccountData → Bool
  | .bytes data => data.all (· = 0)
  | .nonce _ => false

namespace PreAccount

variable (pre post : Account) (programId : Pubkey) (isWritable : Bool)

/-- Only the owner may assign a writable, non-executable account, with zeroed data. -/
def verifyOwner : Except InstructionError Unit :=
  if pre.owner ≠ post.owner ∧
      (!isWritable ∨ pre.executable ∨ programId ≠ pre.owner ∨ !post.data.isZeroed) then
    .error .modifiedProgramId
  else .ok ()

/-- An account not assigned to the program cannot have its balance decrease, and the
balance of read-only and executable accounts may not change. -/
def verifyLamports : Except InstructionError Unit :=
  if programId ≠ pre.owner ∧ pre.lamports > post.lamports then .error .externalAccountLamportSpend
  else if pre.lamports ≠ post.lamports ∧ !isWritable then .error .readonlyLamportChange
  else if pre.lamports ≠ post.lamports ∧ pre.executable then .error .executableLamportChange
  else .ok ()

/-- With realloc the owner may resize up to the maximum; without it only the system
program resizes, and only its own accounts. -/
def verifyDataLen (doSupportRealloc : Bool) : Except InstructionError Unit :=
  if doSupportRealloc then
    if post.data.len > maxPermittedDataLength then .error .invalidRealloc
    else if pre.data.len ≠ post.data.len ∧ programId ≠ pre.owner then
      .error .accountDataSizeChanged
    else .ok ()
  else if pre.data.len ≠ post.data.len ∧
      (programId ≠ systemProgramId ∨ pre.owner ≠ systemProgramId) then
    .error .accountDataSizeChanged
  else .ok ()

/-- Only the owner may change the data of a writable, non-executable account. -/
def verifyData : Except InstructionError Unit :=
  if !(programId = pre.owner ∧ isWritable ∧ !pre.executable) ∧ pre.data ≠ post.data then
    .error (if pre.executable then .executableDataModified
      else if isWritable then .externalAccountDataModified else .readonlyDataModified)
  else .ok ()

/-- Executable is one-way (false to true) and only the owner sets it, on a rent-exempt
account. -/
def verifyExecutable (rent : Rent) : Except InstructionError Unit :=
  if pre.executable ≠ post.executable then
    if !rent.isExempt post.lamports post.data.len then .error .executableAccountNotRentExempt
    else if !isWritable ∨ pre.executable ∨ programId ≠ post.owner then .error .executableModified
    else .ok ()
  else .ok ()

def verifyRentEpoch : Except InstructionError Unit :=
  if pre.rentEpoch ≠ post.rentEpoch then .error .rentEpochModified else .ok ()

end PreAccount

/-- `PreAccount::verify` of the account `post` against its copy `pre`: its checks in the
order of the source, the first that fails giving the error. -/
def PreAccount.verify (pre : Account) (programId : Pubkey) (isWritable : Bool) (rent : Rent)
    (post : Account) (doSupportRealloc : Bool) : Except InstructionError Unit := do
  PreAccount.verifyOwner pre post programId isWritable
  PreAccount.verifyLamports pre post programId isWritable
  PreAccount.verifyDataLen pre post programId doSupportRealloc
  PreAccount.verifyData pre post programId isWritable
  PreAccount.verifyExecutable pre post programId isWritable rent
  PreAccount.verifyRentEpoch pre post

/-! ## What a successful check allows -/

namespace PreAccount

variable {pre post : Account} {programId : Pubkey} {isWritable : Bool}

theorem verifyOwner_ok (h : verifyOwner pre post programId isWritable = .ok ())
    (hne : pre.owner ≠ post.owner) :
    isWritable ∧ pre.executable = false ∧ programId = pre.owner := by
  unfold verifyOwner at h
  split_ifs at h with hcheck
  have hallowed := not_and.mp hcheck hne
  simp only [not_or, Bool.not_eq_true', Bool.not_eq_false, Bool.not_eq_true, ne_eq, not_not] at hallowed
  exact ⟨hallowed.1, hallowed.2.1, hallowed.2.2.1⟩

theorem verifyLamports_ok (h : verifyLamports pre post programId isWritable = .ok ()) :
    (programId ≠ pre.owner → pre.lamports ≤ post.lamports) ∧
      (pre.lamports ≠ post.lamports → isWritable ∧ pre.executable = false) := by
  unfold verifyLamports at h
  split_ifs at h with hspend hreadonly hexecutable
  refine ⟨fun hne => ?_, fun hne => ?_⟩
  · have := not_and.mp hspend hne
    omega
  · have hwritable := not_and.mp hreadonly hne
    have hnotExecutable := not_and.mp hexecutable hne
    simp only [Bool.not_eq_true', Bool.not_eq_false, Bool.not_eq_true] at hwritable hnotExecutable
    exact ⟨hwritable, hnotExecutable⟩

theorem verifyData_ok (h : verifyData pre post programId isWritable = .ok ())
    (hne : pre.data ≠ post.data) : programId = pre.owner ∧ isWritable ∧ pre.executable = false := by
  unfold verifyData at h
  split_ifs at h with hcheck
  have hallowed := not_and'.mp hcheck hne
  simpa using hallowed

theorem verifyExecutable_ok {rent : Rent}
    (h : verifyExecutable pre post programId isWritable rent = .ok ())
    (hne : pre.executable ≠ post.executable) : isWritable ∧ pre.executable = false := by
  unfold verifyExecutable at h
  rw [if_pos hne] at h
  split_ifs at h with _ hcheck
  simp only [not_or, Bool.not_eq_true', Bool.not_eq_false, Bool.not_eq_true] at hcheck
  exact ⟨hcheck.1, hcheck.2.1⟩

theorem verifyRentEpoch_ok (h : verifyRentEpoch pre post = .ok ()) :
    pre.rentEpoch = post.rentEpoch := by
  unfold verifyRentEpoch at h
  split_ifs at h with hcheck
  exact not_not.mp hcheck

end PreAccount

/-- What a successful `verify` lets a program have done to an account. -/
structure AllowedChange (programId : Pubkey) (isWritable : Bool) (pre post : Account) : Prop where
  owner : pre.owner ≠ post.owner → isWritable ∧ pre.executable = false ∧ programId = pre.owner
  lamports_le : programId ≠ pre.owner → pre.lamports ≤ post.lamports
  lamports : pre.lamports ≠ post.lamports → isWritable ∧ pre.executable = false
  data : pre.data ≠ post.data → programId = pre.owner ∧ isWritable ∧ pre.executable = false
  executable : pre.executable ≠ post.executable → isWritable ∧ pre.executable = false
  rentEpoch : pre.rentEpoch = post.rentEpoch

theorem verify_allowedChange {pre post : Account} {programId : Pubkey} {isWritable : Bool}
    {rent : Rent} {doSupportRealloc : Bool}
    (h : PreAccount.verify pre programId isWritable rent post doSupportRealloc = .ok ()) :
    AllowedChange programId isWritable pre post := by
  simp only [PreAccount.verify, Except.bind_eq_ok] at h
  obtain ⟨_, howner, _, hlamports, _, -, _, hdata, _, hexecutable, hrentEpoch⟩ := h
  have hlamports := PreAccount.verifyLamports_ok hlamports
  exact ⟨PreAccount.verifyOwner_ok howner, hlamports.1, hlamports.2,
    PreAccount.verifyData_ok hdata, PreAccount.verifyExecutable_ok hexecutable,
    PreAccount.verifyRentEpoch_ok hrentEpoch⟩

namespace AllowedChange

variable {programId : Pubkey} {isWritable : Bool} {pre post : Account}

/-- A read-only or executable account comes back as it was. -/
theorem eq_of_frozen (h : AllowedChange programId isWritable pre post)
    (hfrozen : isWritable = false ∨ pre.executable = true) : post = pre := by
  have hnot : ¬(isWritable = true ∧ pre.executable = false) := by
    rintro ⟨hw, he⟩
    rcases hfrozen with hfrozen | hfrozen <;> simp_all
  have howner : pre.owner = post.owner := by_contra fun hne => hnot ⟨(h.owner hne).1, (h.owner hne).2.1⟩
  have hlamports : pre.lamports = post.lamports := by_contra fun hne => hnot (h.lamports hne)
  have hdata : pre.data = post.data := by_contra fun hne => hnot ⟨(h.data hne).2.1, (h.data hne).2.2⟩
  have hexecutable : pre.executable = post.executable := by_contra fun hne => hnot (h.executable hne)
  have hrentEpoch := h.rentEpoch
  cases pre
  cases post
  simp_all

/-- A program that does not own the account keeps its owner and data and only adds
lamports. -/
theorem of_not_owner (h : AllowedChange programId isWritable pre post)
    (hprogram : programId ≠ pre.owner) :
    post.owner = pre.owner ∧ post.data = pre.data ∧ pre.lamports ≤ post.lamports := by
  refine ⟨?_, ?_, h.lamports_le hprogram⟩
  · by_contra hne
    exact hprogram (h.owner (Ne.symm hne)).2.2
  · by_contra hne
    exact hprogram (h.data (Ne.symm hne)).1

end AllowedChange

/-! ## Accounts tracked through a message -/

/-- How an account at the start of a message relates to a later copy of it, given whether
the message lets it be written and the programs that run: a read-only or executable
account is unchanged, and an account whose owner never runs keeps its owner and data and
only gains lamports. -/
structure Tracks (programs : List Pubkey) (writable : Bool) (initial current : Account) :
    Prop where
  frozen : (writable = false ∨ initial.executable = true) → current = initial
  foreign : initial.owner ∉ programs →
    current.owner = initial.owner ∧ current.data = initial.data ∧
      initial.lamports ≤ current.lamports

namespace Tracks

variable {programs : List Pubkey} {writable : Bool} {initial current : Account}

theorem refl (programs : List Pubkey) (writable : Bool) (account : Account) :
    Tracks programs writable account account :=
  ⟨fun _ => rfl, fun _ => ⟨rfl, rfl, le_rfl⟩⟩

theorem trans {next : Account} (h : Tracks programs writable initial current)
    (h' : Tracks programs writable current next) : Tracks programs writable initial next := by
  constructor
  · intro hfrozen
    have hcurrent := h.frozen hfrozen
    subst hcurrent
    exact h'.frozen hfrozen
  · intro hforeign
    obtain ⟨howner, hdata, hlamports⟩ := h.foreign hforeign
    obtain ⟨howner', hdata', hlamports'⟩ := h'.foreign (howner ▸ hforeign)
    exact ⟨howner'.trans howner, hdata'.trans hdata, hlamports.trans hlamports'⟩

/-- A change that a program that runs was allowed to make, with no more than the
message's write privilege, keeps an account tracked. -/
theorem of_allowedChange {programId : Pubkey} {isWritable : Bool} {next : Account}
    (h : Tracks programs writable initial current) (hchange : AllowedChange programId isWritable current next)
    (hprogram : programId ∈ programs) (hwritable : isWritable = true → writable = true) :
    Tracks programs writable initial next := by
  refine h.trans ⟨fun hfrozen => hchange.eq_of_frozen ?_, fun hforeign => ?_⟩
  · rcases hfrozen with hfrozen | hfrozen
    · left
      cases isWritable <;> simp_all
    · exact Or.inr hfrozen
  · exact hchange.of_not_owner fun heq => hforeign (heq ▸ hprogram)

end Tracks

end Solana.Runtime
