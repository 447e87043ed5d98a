import Linux012.Lib.Index
import Linux012.Lib.Sums
import Linux012.Lib.Coop
import Linux012.Lib.Links
import Linux012.Lib.Paths
import Linux012.Lib.Sweep
import Linux012.BlkDrv.Requests
import Linux012.BlkDrv.Elevator
import Linux012.BlkDrv.SwapFirst
import Linux012.Fs.Buffer.Queues
import Linux012.Fs.Buffer.Tasks
import Linux012.Fs.Buffer.Lookup
import Linux012.Fs.Buffer.Effect
import Linux012.Fs.Buffer.Integrity
import Linux012.Fs.Buffer.Sound
import Linux012.Fs.Buffer.Recycle
import Linux012.Lib.Ring
import Linux012.Kernel.Fork.Basic
import Linux012.Kernel.Fork.Concurrent
import Linux012.Lib.Orbits
import Linux012.Kernel.Fork.FindEmpty
import Linux012.Kernel.Ptree.Basic
import Linux012.Kernel.Ptree.Shape
import Linux012.Kernel.Ptree.Calls
import Linux012.Fs.Pipe.Basic
import Linux012.Fs.Pipe.Fifo
import Linux012.Fs.Pipe.Publish
import Linux012.Fs.Files.Basic
import Linux012.Fs.Files.Refs
import Linux012.Fs.Files.Access
import Linux012.Fs.Files.Permission
import Linux012.Fs.Files.SysAccess
import Linux012.Fs.Inode.Basic
import Linux012.Fs.Inode.Effect
import Linux012.Fs.Inode.Holders
import Linux012.Fs.Inode.Unique
import Linux012.Fs.Dir.Basic
import Linux012.Fs.Dir.Links
import Linux012.Fs.Dir.Law
import Linux012.Fs.Dir.Growth
import Linux012.Lib.Refs
import Linux012.Mm.Basic
import Linux012.Mm.Law
import Linux012.Mm.Evict
import Linux012.Mm.Tables
import Linux012.Mm.Copy
import Linux012.Mm.Calls
import Linux012.Mm.Slots
import Linux012.Mm.Undo
import Linux012.Mm.Demand
import Linux012.Mm.Inherit
import Linux012.Mm.Touch
import Linux012.Mm.Private
import Linux012.Lib.Splice
import Linux012.Fs.FileDev.Basic
import Linux012.Fs.FileDev.Zones
import Linux012.Fs.FileDev.RoundTrip
import Linux012.Fs.FileDev.Create
import Linux012.Fs.FileDev.Concurrent
import Linux012.Fs.FileDev.Truncate
import Linux012.Fs.FileDev.Allocator
import Linux012.Fs.Entries.Map
import Linux012.Fs.Entries.Range
import Linux012.Fs.Entries.Leaks
import Linux012.Fs.Tasks.Basic
import Linux012.Fs.Tasks.Asks
import Linux012.Fs.Tasks.Effect
import Linux012.Fs.Tasks.Fresh
import Linux012.Fs.Namei.Resolve
import Linux012.Lib.Contracts
import Linux012.Fs.BlockDev.Basic
import Linux012.Fs.BlockDev.Tracks
import Linux012.Fs.Special.Basic
import Linux012.Fs.Special.Safe
import Linux012.Fs.Special.Unsafe
import Linux012.Kernel.Sys.Cred
import Linux012.Kernel.Sys.Setre
import Linux012.Kernel.Sys.Rlimit
import Linux012.Kernel.Signal.Basic
import Linux012.Kernel.Signal.Blocked
import Linux012.Kernel.Exit.Basic
import Linux012.Kernel.Exit.Kill
import Linux012.Kernel.Exit.Orphans
import Linux012.Kernel.Sched.Basic
import Linux012.Kernel.Sched.Discipline
import Linux012.Fs.FileTable.Basic
import Linux012.Fs.FileTable.Counts
import Linux012.Fs.FileTable.Calls
import Linux012.Fs.FileTable.Dup2
import Linux012.Fs.Inode.Free
import Linux012.Lib.Stacks
import Linux012.Fs.Select.Basic
import Linux012.Fs.Select.Wakeups
import Linux012.Fs.Sync.Basic
import Linux012.Fs.Sync.SelfWait
import Linux012.Lib.Triples
import Linux012.Lib.Scripts
import Linux012.Lib.Activations
import Linux012.Fs.Namei.Basic
import Linux012.Fs.Namei.Calls
import Linux012.Fs.Namei.Balance
import Linux012.Fs.Namei.Subtree
import Linux012.Fs.Namei.Contained
import Linux012.Kernel.M0rtzz
import Linux012.BlkDrv.Hd.Basic
import Linux012.BlkDrv.Hd.Exact
import Linux012.Lib.Threads
import Linux012.Kernel.Malloc.Basic
import Linux012.Kernel.Malloc.Shape
import Linux012.Kernel.Malloc.Sound
import Linux012.Kernel.Console.Basic
import Linux012.Kernel.Console.Safe
import Linux012.Fs.Super.Basic
import Linux012.Fs.Super.Maps
import Linux012.Lib.Terminated
import Linux012.Fs.Exec.Basic
import Linux012.Fs.Exec.Copy
import Linux012.Fs.Exec.Tables
import Linux012.Fs.Exec.Calls
import Linux012.Fs.Exec.Exact
import Linux012.Mm.SwapIo
import Linux012.Kernel.Ashore
import Linux012.Kernel.Timer
import Linux012.Kernel.Schedule
import Linux012.Kernel.Tty.Basic
import Linux012.Kernel.Tty.Output
import Linux012.Kernel.Tty.Lines
import Linux012.Kernel.Tty.Canonical
import Linux012.Kernel.Tty.Write
import Linux012.Kernel.Math.Basic
import Linux012.Kernel.Math.Integers
import Linux012.Kernel.Math.Reals
import Linux012.Kernel.VerifyArea
import Linux012.Kernel.Alarm
import Linux012.Mm.Exhaust
import Linux012.Kernel.Wait.Basic
import Linux012.Kernel.Wait.Look
import Linux012.Kernel.Wait.Facts
import Linux012.Kernel.Wait.Account
import Linux012.Kernel.Wait.Kill
import Linux012.Kernel.Jobs
import Linux012.Kernel.Sys.Time
import Linux012.Kernel.Mktime
import Linux012.Kernel.Vsprintf.Basic
import Linux012.Kernel.Vsprintf.Number
import Linux012.Kernel.Vsprintf.Scan
import Linux012.Kernel.Vsprintf.Star
import Linux012.Kernel.Pty.Basic
import Linux012.Kernel.Pty.Echo
import Linux012.Kernel.Pty.Transfer
import Linux012.Fs.Blocks.Basic
import Linux012.Fs.Blocks.Tasks
import Linux012.Fs.Blocks.Cache
import Linux012.Fs.Blocks.Bodies
import Linux012.Fs.Blocks.Account
import Linux012.Fs.Blocks.Balance
import Linux012.Fs.Blocks.Overflow
import Linux012.Kernel.Math.Address
import Linux012.Lib.Roundings
import Linux012.Kernel.Math.Values
import Linux012.Kernel.Math.Rounding
import Linux012.Lib.Carries
import Linux012.Kernel.Math.Arith
import Linux012.Kernel.Math.Product
import Linux012.Kernel.Math.Sum
import Linux012.Kernel.Math.Compare
import Linux012.Kernel.Math.Emulate
import Linux012.Kernel.Math.Encodings
import Linux012.Kernel.Math.Registers
import Linux012.Lib.X86
import Linux012.Lib.CStrings
import Linux012.Include.Strings.Basic
import Linux012.Include.Strings.Copy
import Linux012.Include.Strings.Compare
import Linux012.Include.Strings.Span
import Linux012.Include.Strings.Tok
import Linux012.BlkDrv.Ramdisk
