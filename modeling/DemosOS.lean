import DemosOS.Lib.IntrusiveQueue
import DemosOS.Lib.Closure
import DemosOS.Lib.Ownership
import DemosOS.Lib.Loop
import DemosOS.Lib.Ring
import DemosOS.Lib.Buffer
import DemosOS.Lib.Draw
import DemosOS.Lib.StableQueue
import DemosOS.Lib.Xorshift
import DemosOS.Lib.Interleaving
import DemosOS.Lib.A64
import DemosOS.Lib.Fallible
import DemosOS.Lib.LittleEndian
import DemosOS.Lib.Block
import DemosOS.Lib.WriteBack
import DemosOS.Lib.Links
import DemosOS.Lib.Stream
import DemosOS.Lib.Traces
import DemosOS.Kernel.Process
import DemosOS.Kernel.State
import DemosOS.Kernel.Queues
import DemosOS.Kernel.Scheduler
import DemosOS.Kernel.Operations
import DemosOS.Kernel.Console
import DemosOS.Kernel.Messages
import DemosOS.Kernel.Runs
import DemosOS.Kernel.Memory
import DemosOS.Kernel.Files
import DemosOS.Kernel.Fork
import DemosOS.Kernel.Dispatcher
import DemosOS.Kernel.Assembly
import DemosOS.Sched.Lists
import DemosOS.Sched.Refinement
import DemosOS.Sched.Search
import DemosOS.Sched.Select
import DemosOS.Sched.Invariant
import DemosOS.Sched.Frame
import DemosOS.Sched.Entry
import DemosOS.Sched.Runs
import DemosOS.Sched.Core
import DemosOS.Sched.Consistency
import DemosOS.Sched.Steps
import DemosOS.Sched.Fifo
import DemosOS.Sched.Shortest
import DemosOS.Sched.TopLevel
import DemosOS.Sched.Levels
import DemosOS.Sched.Boost
import DemosOS.Sched.Cascade
import DemosOS.Sched.Demotion
import DemosOS.Sched.Aging
import DemosOS.Sched.Epochs
import DemosOS.Sched.Lottery
import DemosOS.Sched.Generator
import DemosOS.Sched.Signals
import DemosOS.Sched.Rendezvous
import DemosOS.Sched.Wake
import DemosOS.Sched.Closed
import DemosOS.Sched.Critical
import DemosOS.Sched.Conservation
import DemosOS.Sched.Table
import DemosOS.Ipc.Exchange
import DemosOS.Ipc.Ring
import DemosOS.Ipc.Blocking
import DemosOS.Ipc.Senders
import DemosOS.Ipc.Bodies
import DemosOS.Mem.Pages
import DemosOS.Files.Calls
import DemosOS.Files.Descriptors
import DemosOS.Files.Lifecycle
import DemosOS.Files.Discipline
import DemosOS.Files.Listing
import DemosOS.Files.Opening
import DemosOS.Mem.Tables
import DemosOS.Mem.Images
import DemosOS.Mem.Walk
import DemosOS.Mem.Ownership
import DemosOS.Mem.Fork
import DemosOS.Mem.Exec
import DemosOS.Mem.Requests
import DemosOS.Mem.Isolation
import DemosOS.Mem.Children
import DemosOS.Mem.Failures
import DemosOS.Mem.NewProcess
import DemosOS.Mem.Translation
import DemosOS.Mem.AllOrNothing
import DemosOS.Mem.CodeImage
import DemosOS.Mem.FailedExec
import DemosOS.Mem.PassedArguments
import DemosOS.Mem.Arguments
import DemosOS.Mem.Replacement
import DemosOS.Mem.Routines
import DemosOS.Console.Steps
import DemosOS.Console.Frame
import DemosOS.Console.Receive
import DemosOS.Console.Wakeup
import DemosOS.Console.Timeout
import DemosOS.Console.Survival
import DemosOS.Console.Owner
import DemosOS.Console.Lines
import DemosOS.Shell.Strings
import DemosOS.Shell.CommandLine
import DemosOS.Shell.Paths
import DemosOS.Shell.Meaning
import DemosOS.Shell.Handlers
import DemosOS.Shell.Bounds
import DemosOS.Shell.Tree
import DemosOS.Sections.Registry
import DemosOS.Sections.Creation
import DemosOS.Sections.Steps
import DemosOS.Sections.Window
import DemosOS.Sections.Balance
import DemosOS.Sections.Writes
import DemosOS.Sections.Invariant
import DemosOS.Fat.Volume
import DemosOS.Fat.Table
import DemosOS.Fat.Directory
import DemosOS.Fat.Buffer
import DemosOS.Fat.Entries
import DemosOS.Fat.Removal
import DemosOS.Fat.Allocation
import DemosOS.Fat.Consistency
import DemosOS.Fat.Records
import DemosOS.Fat.Names
import DemosOS.Fat.Contents
import DemosOS.Fat.File
import DemosOS.Fat.Placement
import DemosOS.Fat.Residence
import DemosOS.Fat.Seek
import DemosOS.Fat.Cursor
import DemosOS.Fat.Growth
import DemosOS.Fat.Search
import DemosOS.Fat.Edits
import DemosOS.Fat.Room
import DemosOS.Fat.Creation
import DemosOS.Fat.Bindings
import DemosOS.Fat.Listing
import DemosOS.Fat.Transfer
import DemosOS.Fat.Sync
import DemosOS.Fat.Streams
