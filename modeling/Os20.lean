import Os20.Lib.Transition
import Os20.Lib.Segments
import Os20.Alloc.Page
import Os20.Alloc.Tiling
import Os20.Alloc.Take
import Os20.Alloc.Release
import Os20.Alloc.Heap
import Os20.Lib.Pthread
import Os20.SsuSem.Threads
import Os20.SsuSem.Permits
import Os20.RwLock.Threads
import Os20.RwLock.Exclusion
import Os20.MasterWorker.Threads
import Os20.MasterWorker.Shares
import Os20.MasterWorker.Accounts
import Os20.MasterWorker.Delivery
import Os20.Lib.Blocking
import Os20.MasterWorker.Wakeups
import Os20.MasterWorker.Progress
import Os20.Lib.Bytes
import Os20.Ssufs.Layout
import Os20.Ssufs.Disk
import Os20.Ssufs.Ops
import Os20.Ssufs.Cells
import Os20.Ssufs.Effects
import Os20.Ssufs.Sound
import Os20.Ssufs.Reading
import Os20.Ssufs.Rounds
import Os20.Ssufs.Writing
import Os20.Ssufs.Steps
import Os20.Ssufs.CrossLinks
import Os20.Ssufs.Leaks
import Os20.Ssufs.Binding
import Os20.Ssufs.Holes
import Os20.Lib.Notification
import Os20.SsuSem.Stranded
import Os20.RwLock.Progress
import Os20.RwLock.Preference
import Os20.Xv6.Machine
import Os20.Xv6.Steps
import Os20.Xv6.Priority
import Os20.Xv6.RoundRobin
import Os20.Lib.Search
import Os20.Lib.Simulation
import Os20.Alloc.Granularity
import Os20.Ealloc.Mman
import Os20.Ealloc.Agreement
import Os20.Alloc.Links
import Os20.Ealloc.Heap
import Os20.Ealloc.Demand
import Os20.Lib.Packing
import Os20.Ealloc.Rounds
import Os20.Ssufs.Names
import Os20.Ssufs.Lookup
import Os20.Lib.Words
import Os20.Shell.Parse
import Os20.Shell.Pipeline
import Os20.Alloc.Walk
import Os20.Ealloc.Bounds
import Os20.Xv6.Discipline
import Os20.Xv6.Orderly
import Os20.Xv6.Conservation
import Os20.Ssufs.Rollback
import Os20.Ssufs.Deletion
import Os20.Ssufs.EndOfFile
import Os20.Lib.Pieces
import Os20.Ssufs.Contents
import Os20.Ssufs.FlatWrite
import Os20.Ssufs.Chunks
import Os20.Ssufs.Accessors
import Os20.Ssufs.Closed
import Os20.Alloc.Calls
import Os20.Xv6.Boot
import Os20.Xv6.ProcInfo
import Os20.Xv6.Visits
import Os20.Lib.Descriptors
import Os20.Shell.Bounds
import Os20.Shell.Wiring
import Os20.Shell.Batch
import Os20.Xv6.Family
import Os20.Xv6.Parents
import Os20.Xv6.Census
import Os20.Lib.Refinement
import Os20.Lib.Journal
import Os20.Log.Machine
import Os20.Log.Capacity
import Os20.Log.Disk
import Os20.Log.Recovery
import Os20.Ssufs.Flat
import Os20.Ssufs.FlatRuns
import Os20.Lib.Queue
import Os20.Lib.Ring
import Os20.Pipes.Machine
import Os20.Pipes.Fifo
import Os20.Pipes.Sleepers
import Os20.Lib.Letters
import Os20.Grep.Match
import Os20.Lib.Records
import Os20.Grep.Lines
import Os20.Lib.Editor
import Os20.Console.Machine
import Os20.Console.Lines
import Os20.Lib.Dlist
import Os20.Lib.Store
import Os20.Bio.Cache
import Os20.Bio.Steps
import Os20.Bio.Recency
import Os20.Bio.References
import Os20.Bio.Coherence
