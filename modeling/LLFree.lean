import LLFree.Atomic.Program
import LLFree.Atomic.Loops
import LLFree.Atomic.Escrow
import LLFree.Atomic.Pool
import LLFree.Atomic.Update
import LLFree.Atomic.Asking
import LLFree.Atomic.Expansion
import LLFree.Atomic.Histories
import LLFree.Atomic.Refinement
import LLFree.Atomic.Retrying
import LLFree.Atomic.Bounded
import LLFree.Atomic.Progress
import LLFree.Atomic.Encoded
import LLFree.Words.Lanes
import LLFree.Lists.Ranking
import LLFree.Memory.Regions
import LLFree.Memory.Contents
import LLFree.Code.Types
import LLFree.Code.Entries
import LLFree.Code.Lower
import LLFree.Code.Trees
import LLFree.Code.Updates
import LLFree.Code.Local
import LLFree.Code.Shared
import LLFree.Code.Llfree
import LLFree.Code.Setup
import LLFree.Code.Layout
import LLFree.Code.Accesses
import LLFree.Code.Metadata
import LLFree.Code.Stack
import LLFree.Code.Exchanges
import LLFree.Lower.Rows
import LLFree.Lower.ZeroRuns
import LLFree.Lower.Holding
import LLFree.Lower.Steps
import LLFree.Lower.Fields
import LLFree.Lower.GetPut
import LLFree.Lower.Quiet
import LLFree.Lower.Runs
import LLFree.Lower.FrameSet
import LLFree.Lower.FreeCount
import LLFree.Lower.Statistics
import LLFree.Lower.Interleaving
import LLFree.Lower.Crash
import LLFree.Lower.Splitting
import LLFree.Lower.Groups
import LLFree.Lower.Rollback
import LLFree.Lower.NextFit
import LLFree.Lower.Search
import LLFree.Lower.Completed
import LLFree.Lower.Effort
import LLFree.Upper.Ledger
import LLFree.Upper.Moves
import LLFree.Upper.Slots
import LLFree.Upper.Steps
import LLFree.Upper.Calls
import LLFree.Upper.Sequential
import LLFree.Upper.Balance
import LLFree.Upper.Recovery
import LLFree.Upper.Conservation
import LLFree.Upper.Segregation
import LLFree.Upper.Taking
import LLFree.Upper.Frames
import LLFree.Upper.Exclusive
import LLFree.Upper.Pristine
import LLFree.Upper.Retries
import LLFree.Upper.Attempts
import LLFree.Upper.Requests
import LLFree.Upper.Tidied
import LLFree.Upper.Effects
import LLFree.Upper.Fallbacks
import LLFree.Upper.LocalPath
import LLFree.Upper.Targeted
import LLFree.Upper.Changes
import LLFree.Upper.Offline
import LLFree.Upper.Failures
import LLFree.Upper.Attached
import LLFree.Upper.Online
import LLFree.Upper.Searches
import LLFree.Upper.Restored
import LLFree.Upper.Isolation
import LLFree.Upper.Scarcity
import LLFree.Upper.Converted
import LLFree.Upper.BestFirst
import LLFree.Upper.Drained
import LLFree.Upper.ClassStats
import LLFree.Upper.Resets
import LLFree.Upper.Puts
import LLFree.Upper.BackOnline
import LLFree.Upper.Freeing
import LLFree.Upper.Represented
import LLFree.Layout.Header
import LLFree.Layout.Buffers
import LLFree.Layout.Loops
import LLFree.Layout.Placement
import LLFree.Layout.Resumption
import LLFree.Upper.Blocks
import LLFree.Upper.Overwritten
import LLFree.Upper.Lending
import LLFree.Upper.Layers
import LLFree.Upper.Concurrent
import LLFree.Upper.Solo
import LLFree.Upper.Lives
import LLFree.Upper.Exchanged
import LLFree.Upper.Effort
import LLFree.Upper.Progress
import LLFree.Upper.BitFields
import LLFree.Upper.Uncut
import LLFree.Upper.Packed
import LLFree.Upper.Addressed
import LLFree.Upper.Midway
import LLFree.Upper.Callers
import LLFree.Upper.Linearized
import LLFree.Upper.AtRest
import LLFree.Upper.Restarts
