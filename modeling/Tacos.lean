import Tacos.Lib.Run
import Tacos.Lib.Bytes
import Tacos.Lib.Cells
import Tacos.Lib.Links
import Tacos.Lib.Cover
import Tacos.Lib.Dyadic
import Tacos.Lib.Buckets
import Tacos.Lib.Descent
import Tacos.Lib.InStep
import Tacos.Lib.Exec
import Tacos.Lib.Ownership
import Tacos.Lib.Slots
import Tacos.Lib.Tiling
import Tacos.Thread.Scheduler
import Tacos.Thread.Choice
import Tacos.Thread.Kernel
import Tacos.Thread.Consistent
import Tacos.Thread.Manager
import Tacos.Thread.Code
import Tacos.Thread.Sleep
import Tacos.Thread.Donation
import Tacos.Thread.Propagation
import Tacos.Thread.Restore
import Tacos.Thread.Critical
import Tacos.Thread.Semaphore
import Tacos.Thread.Borrow
import Tacos.Thread.Preempt
import Tacos.Thread.Timer
import Tacos.Thread.Lazy
import Tacos.Thread.Condvar
import Tacos.Mem.Utils
import Tacos.Mem.Palloc
import Tacos.Mem.Buddy
import Tacos.Mem.Canonical
import Tacos.Mem.Malloc
import Tacos.Mem.Arena
import Tacos.Mem.Class
import Tacos.Mem.Heap
import Tacos.Mem.Ledger
import Tacos.Fs.Base
import Tacos.Fs.FreeMap
import Tacos.Fs.Inode
import Tacos.Fs.Dir
import Tacos.Fs.DiskFs
import Tacos.Fs.Transfer
import Tacos.Fs.Resize
import Tacos.Fs.Cursor
import Tacos.Fs.Entries
import Tacos.Fs.Sound
import Tacos.Fs.Steps
import Tacos.Fs.Close
import Tacos.Fs.Store
import Tacos.Fs.Mount
import Tacos.Fs.Content
import Tacos.Fs.Names
import Tacos.Fs.Files
import Tacos.Fs.Calls
import Tacos.Fs.Confined
import Tacos.Fs.Handles
import Tacos.Fs.Deadlock
import Tacos.Fs.Archive
import Tacos.Fs.Unmount
import Tacos.Fs.Session
import Tacos.Fs.Mkfs
import Tacos.Fs.HostFiles
import Tacos.Fs.Life
import Tacos.Fs.Growth
import Tacos.Fs.Exposed
import Tacos.Userproc.PageTable
import Tacos.Userproc.Hanging
import Tacos.Userproc.Spaces
import Tacos.Userproc.Lifetime
import Tacos.Userproc.Supply
import Tacos.Userproc.Load
import Tacos.Userproc.Isolation
import Tacos.Userproc.Leaves
import Tacos.Userproc.Reclaim
import Tacos.Userproc.Malformed
import Tacos.Userproc.Lookup
import Tacos.Userproc.Image
import Tacos.Userproc.Translate
import Tacos.Device.Virtio
import Tacos.Device.Serving
import Tacos.Thread.Roll
import Tacos.Thread.Alarm
import Tacos.Thread.Waiters
import Tacos.Thread.Notify
import Tacos.Thread.Places
import Tacos.Thread.Mutex
import Tacos.Fs.Denial
import Tacos.Lib.Places
import Tacos.Fs.Directory
import Tacos.Fs.Traces
import Tacos.Fs.Deniers
import Tacos.Fs.InMem
import Tacos.Fs.Removal
import Tacos.Thread.LockIds
import Tacos.Thread.Intr
import Tacos.Mem.Placed
import Tacos.Fs.Seek
import Tacos.Fs.Sections
import Tacos.Fs.Race
import Tacos.Fs.Interleave
import Tacos.Lib.Riscv
import Tacos.Lib.Trapping
import Tacos.Trap.Frame
import Tacos.Trap.Entry
import Tacos.Trap.Nest
import Tacos.Trap.Traps
import Tacos.Trap.User
import Tacos.Trap.Start
import Tacos.Mem.UserBuf
import Tacos.Thread.Switch
import Tacos.Lib.FileStore
import Tacos.Fs.Shown
import Tacos.Fs.Shows
import Tacos.Fs.Requests
import Tacos.Fs.Refinement
