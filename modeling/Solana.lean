import Solana.Lib.MachineInt
import Solana.Lib.BinarySearch
import Solana.Sdk.Basic
import Solana.Vote.State
import Solana.Lib.Fallible
import Solana.Vote.Update
import Solana.Vote.Instruction
import Solana.Lib.Run
import Solana.Vote.TowerInvariant
import Solana.Consensus.Tower
import Solana.Lib.Forest
import Solana.Consensus.Lockout
import Solana.Ledger.Entry
import Solana.Ledger.ConfirmSlot
import Solana.Stake.State
import Solana.Stake.Instruction
import Solana.Lib.FloorShare
import Solana.Stake.Rewards
import Solana.Consensus.ForkChoice
import Solana.Consensus.ForkChoiceTree
import Solana.Consensus.ForkChoiceAggregate
import Solana.Consensus.ForkChoiceBatch
import Solana.Consensus.ForkChoiceProcess
import Solana.Consensus.ForkChoiceVotes
import Solana.Consensus.ForkChoiceLeaf
import Solana.Consensus.ForkChoiceInvariant
import Solana.Runtime.Rent
import Solana.Runtime.Commit
import Solana.Runtime.PreAccount
import Solana.Runtime.Invoke
import Solana.Lib.IndexSum
import Solana.Runtime.InvokeSpec
import Solana.Runtime.InvokeSafety
import Solana.Vote.Credits
import Solana.Lib.SortedKeys
import Solana.Vote.NewVoteState
import Solana.Vote.VoteRefinement
import Solana.Sdk.Message
import Solana.Lib.Bytes
import Solana.LookupTable.State
import Solana.LookupTable.Processor
import Solana.LookupTable.Invariant
import Solana.Gossip.Crds
import Solana.Lib.Chunks
import Solana.Runtime.AccountsHash
import Solana.Runtime.AccountsHashDedup
import Solana.BpfLoader.Serialization
import Solana.BpfLoader.Entrypoint
import Solana.BpfLoader.Layout
import Solana.BpfLoader.Parse
import Solana.BpfLoader.Agreement
import Solana.Vote.UpdateValidity
import Solana.Runtime.Prepare
import Solana.Runtime.Metered
import Solana.Runtime.MeteredSpec
import Solana.Runtime.AccountLocks
import Solana.Runtime.AccountLocksSpec
import Solana.Stake.Points
import Solana.Stake.Merge
import Solana.Stake.Activation
import Solana.Ledger.Verify
import Solana.Ledger.Blockstore
import Solana.Sdk.EpochSchedule
import Solana.Gossip.CrdsRuns
import Solana.Vote.SlotCheck
import Solana.Vote.Authorize
import Solana.Sdk.InstructionsSysvar
import Solana.Runtime.MerkleSlices
import Solana.Lib.MerkleLevels
import Solana.Ledger.MerkleTree
import Solana.Runtime.RentDistribution
import Solana.Runtime.Timestamp
