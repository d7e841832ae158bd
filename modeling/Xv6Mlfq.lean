import Xv6Mlfq.Lib.Outcome
import Xv6Mlfq.Lib.Run
import Xv6Mlfq.Lib.Chain
import Xv6Mlfq.Lib.Prog
import Xv6Mlfq.Lib.Ring
import Xv6Mlfq.Lib.Slots
import Xv6Mlfq.Kernel.Types
import Xv6Mlfq.Kernel.Queue
import Xv6Mlfq.Kernel.Process
import Xv6Mlfq.Kernel.System
import Xv6Mlfq.Kernel.Trap
import Xv6Mlfq.Sched.Table
import Xv6Mlfq.Sched.Aging
import Xv6Mlfq.Sched.Machine
import Xv6Mlfq.Sched.Ownership
import Xv6Mlfq.Sched.Refine
import Xv6Mlfq.Sched.Simulation
import Xv6Mlfq.Sched.Timer
import Xv6Mlfq.Sched.Change
import Xv6Mlfq.Props.RunQueue
import Xv6Mlfq.Props.QueueOps
import Xv6Mlfq.Props.Levels
import Xv6Mlfq.Props.Order
import Xv6Mlfq.Props.Waiting
import Xv6Mlfq.Props.Quantum
import Xv6Mlfq.Props.Accounting
import Xv6Mlfq.Props.Types
import Xv6Mlfq.Props.Kill
import Xv6Mlfq.Props.Orphans
import Xv6Mlfq.Props.Quota
import Xv6Mlfq.Props.Climb
import Xv6Mlfq.Lock.Spin
import Xv6Mlfq.Log.Buffers
import Xv6Mlfq.Log.Model
import Xv6Mlfq.Log.Ops
import Xv6Mlfq.Log.Recovery
import Xv6Mlfq.Log.Atomic
import Xv6Mlfq.Log.Reservation
import Xv6Mlfq.Fs.Refcount
import Xv6Mlfq.Fs.Types
import Xv6Mlfq.Fs.Inode
import Xv6Mlfq.Fs.Name
import Xv6Mlfq.Fs.Syscall
import Xv6Mlfq.Fs.Owned
import Xv6Mlfq.Fs.Bmap
import Xv6Mlfq.Fs.Contents
import Xv6Mlfq.Fs.Cache
import Xv6Mlfq.Fs.ByteArray
import Xv6Mlfq.Fs.Offset
import Xv6Mlfq.Fs.Dirent
import Xv6Mlfq.Fs.DirMap
import Xv6Mlfq.Fs.Held
import Xv6Mlfq.Fs.Paths
import Xv6Mlfq.Fs.Tree
import Xv6Mlfq.Fs.OpenFiles
import Xv6Mlfq.Fs.Calls
import Xv6Mlfq.Fs.Create
import Xv6Mlfq.Fs.Procs
import Xv6Mlfq.Fs.Runs
import Xv6Mlfq.Fs.Links
import Xv6Mlfq.Fs.Integrity
import Xv6Mlfq.Fs.Names
import Xv6Mlfq.Fs.Walk
import Xv6Mlfq.Fs.Mkfs
import Xv6Mlfq.Fs.Image
import Xv6Mlfq.Fs.Boot
import Xv6Mlfq.Fs.Sample
import Xv6Mlfq.Fs.Lseek
import Xv6Mlfq.Fs.Directory
import Xv6Mlfq.Fs.Removal
import Xv6Mlfq.Fs.Reachable
import Xv6Mlfq.Fs.Chunk
import Xv6Mlfq.Bio.Model
import Xv6Mlfq.Bio.Invariant
import Xv6Mlfq.Bio.Coherence
import Xv6Mlfq.Pipe.Model
import Xv6Mlfq.Pipe.Step
import Xv6Mlfq.Pipe.Fifo
import Xv6Mlfq.Pipe.Wakeup
import Xv6Mlfq.Console.Input
import Xv6Mlfq.Console.Line
import Xv6Mlfq.Console.Debug
import Xv6Mlfq.Console.Locks
import Xv6Mlfq.Lib.Sums
import Xv6Mlfq.Vm.Model
import Xv6Mlfq.Vm.Space
import Xv6Mlfq.Vm.Dealloc
import Xv6Mlfq.Vm.Grow
import Xv6Mlfq.Vm.System
import Xv6Mlfq.Vm.Sbrk
import Xv6Mlfq.Vm.Setup
import Xv6Mlfq.Vm.Exec
import Xv6Mlfq.Vm.Args
import Xv6Mlfq.Vm.Calls
import Xv6Mlfq.Vm.Holders
import Xv6Mlfq.Vm.Files
import Xv6Mlfq.Vm.Conserve
import Xv6Mlfq.Lib.Linked
import Xv6Mlfq.Heap.Model
import Xv6Mlfq.Heap.FreeList
import Xv6Mlfq.Heap.Malloc
import Xv6Mlfq.Heap.Runs
import Xv6Mlfq.Shell.Model
import Xv6Mlfq.Shell.Tokens
import Xv6Mlfq.Shell.Parse
import Xv6Mlfq.Shell.Words
