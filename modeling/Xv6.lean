import Xv6.Assembly.Kernelvec
import Xv6.Assembly.Swtch
import Xv6.Assembly.Trampoline
import Xv6.Bcache.Coherence
import Xv6.Bcache.Operations
import Xv6.Exec.Arguments
import Xv6.Exec.Cleanup
import Xv6.Exec.Defs
import Xv6.Exec.Fork
import Xv6.Exec.Kfork
import Xv6.Exec.Sbrk
import Xv6.Exec.Stack
import Xv6.Foundations.Budget
import Xv6.Foundations.Contract
import Xv6.Foundations.Marks
import Xv6.Foundations.Memory
import Xv6.Foundations.Numerals
import Xv6.Foundations.Overwrite
import Xv6.Foundations.Record
import Xv6.Foundations.Registers
import Xv6.Foundations.Shelves
import Xv6.Foundations.SlotMap
import Xv6.Foundations.Spans
import Xv6.Foundations.Tally
import Xv6.Foundations.Tiles
import Xv6.Foundations.Transition
import Xv6.Foundations.While
import Xv6.Foundations.Words
import Xv6.Fs.Alloc
import Xv6.Fs.Arrays
import Xv6.Fs.Blocks
import Xv6.Fs.Bmap
import Xv6.Fs.Calls
import Xv6.Fs.Directory
import Xv6.Fs.Dirlink
import Xv6.Fs.Fileread
import Xv6.Fs.Freeing
import Xv6.Fs.Ireclaim
import Xv6.Fs.Itrunc
import Xv6.Fs.Logging
import Xv6.Fs.Offset
import Xv6.Fs.Owned
import Xv6.Fs.Path
import Xv6.Fs.Readi
import Xv6.Fs.References
import Xv6.Fs.Reserve
import Xv6.Fs.Torn
import Xv6.Fs.Writei
import Xv6.Inode.Coherence
import Xv6.Inode.Defs
import Xv6.Inode.Freeing
import Xv6.Inode.Table
import Xv6.Kernel.Accounting
import Xv6.Kernel.Aging
import Xv6.Kernel.ChildExit
import Xv6.Kernel.Console
import Xv6.Kernel.ConsoleRead
import Xv6.Kernel.KillWait
import Xv6.Kernel.Killed
import Xv6.Kernel.Nesting
import Xv6.Kernel.OneCpu
import Xv6.Kernel.PipeSleep
import Xv6.Kernel.Piperead
import Xv6.Kernel.Rounds
import Xv6.Kernel.Scan
import Xv6.Kernel.Sleeplock
import Xv6.Kernel.Spinlock
import Xv6.Labs.BoundedBuffer
import Xv6.Labs.Fifo
import Xv6.Labs.Fit
import Xv6.Labs.Lru
import Xv6.Lib.Memmove
import Xv6.Lib.Printint
import Xv6.Log.Crash
import Xv6.Log.Isolation
import Xv6.Memory.Kalloc
import Xv6.Simulation.Heap
import Xv6.Simulation.Malloc
import Xv6.Simulation.Mlfq
import Xv6.Simulation.Pointers
import Xv6.Simulation.RoundRobin
import Xv6.Simulation.Scheduler
import Xv6.Simulation.Turnaround
import Xv6.Virtio.Defs
import Xv6.Virtio.Descriptors
import Xv6.Virtio.Protocol
import Xv6.Virtio.Requests
