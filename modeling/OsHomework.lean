import OsHomework.Lib.Outcome
import OsHomework.Lib.ByteMem
import OsHomework.Lib.Linked
import OsHomework.Lib.Walk
import OsHomework.Lib.Buddy
import OsHomework.Lib.Run
import OsHomework.Lib.Rooted
import OsHomework.Lib.Ending
import OsHomework.Lib.ByteHeap
import OsHomework.Lib.HeapClient
import OsHomework.Lib.Mutex
import OsHomework.Lib.Threads
import OsHomework.Lib.Logged
import OsHomework.Lib.Lines
import OsHomework.Lib.Printf
import OsHomework.Lib.Descriptors
import OsHomework.Malloc1
import OsHomework.Malloc2.Model
import OsHomework.Malloc2.Layout
import OsHomework.Malloc2.Runs
import OsHomework.Malloc2.Stats
import OsHomework.Malloc2.FirstFit
import OsHomework.Malloc2.Touches
import OsHomework.Malloc2.Contents
import OsHomework.Malloc2.Refines
import OsHomework.Malloc3.Header
import OsHomework.Malloc3.Model
import OsHomework.Malloc3.Fuel
import OsHomework.Malloc3.Repr
import OsHomework.Malloc3.Steps
import OsHomework.Malloc3.Ops
import OsHomework.Malloc3.Maps
import OsHomework.Malloc3.Calls
import OsHomework.Malloc3.Init
import OsHomework.Malloc3.Invariant
import OsHomework.Malloc3.Runs
import OsHomework.Malloc3.Sound
import OsHomework.Malloc3.Restore
import OsHomework.Malloc3.Grow
import OsHomework.Malloc3.Realloc
import OsHomework.Malloc3.Small
import OsHomework.Malloc3.Stats
import OsHomework.Malloc3.Spin
import OsHomework.Malloc3.Cover
import OsHomework.Malloc3.Uses
import OsHomework.Malloc3.Exponents
import OsHomework.Malloc3.Rises
import OsHomework.Malloc3.DoubleFree
import OsHomework.Malloc3.Corruption
import OsHomework.Malloc3.Confined
import OsHomework.Malloc3.Ledger
import OsHomework.Malloc3.Merges
import OsHomework.Malloc3.Uneven
import OsHomework.Malloc3.Contents
import OsHomework.Malloc3.Crossing
import OsHomework.Malloc3.Refines
import OsHomework.Allocators
import OsHomework.Scalloc
import OsHomework.Server.Queue
import OsHomework.Server.Model
import OsHomework.Server.Sections
import OsHomework.Server.Places
import OsHomework.Server.Capacity
import OsHomework.Server.Random
import OsHomework.Server.Wakeups
import OsHomework.Server.Locks
import OsHomework.Server.Drain
import OsHomework.Server.Order
import OsHomework.Server.QueueRuns
import OsHomework.Server.Rio
import OsHomework.Server.Request
import OsHomework.Server.Paths
import OsHomework.Server.Replies
import OsHomework.Server.Buffers
import OsHomework.Server.Isolation
import OsHomework.Server.Reported
import OsHomework.Server.Counters
import OsHomework.Server.Client
import OsHomework.Server.Fetch
import OsHomework.Server.Cgi
import OsHomework.Smash.Jobs
import OsHomework.Smash.Model
import OsHomework.Smash.Steps
import OsHomework.Smash.Ids
import OsHomework.Smash.Stale
import OsHomework.Smash.CtrlZ
import OsHomework.Smash.Listing
import OsHomework.Smash.Signals
import OsHomework.Smash.Synced
import OsHomework.Smash.InSync
import OsHomework.Smash.Parse
import OsHomework.Smash.Execute
import OsHomework.Smash.Survive
import OsHomework.Kernel.Heaviest
import OsHomework.Kernel.Order
import OsHomework.Kernel.Table
import OsHomework.Kernel.Refines
import OsHomework.Smash.Arguments
import OsHomework.Smash.Names
import OsHomework.Smash.Cd
import OsHomework.Smash.Numerals
import OsHomework.Smash.Plumbing
import OsHomework.Smash.Pipelines
import OsHomework.Smash.Returns
