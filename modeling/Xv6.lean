import Xv6.Lib.Prog
import Xv6.Lib.Tree
import Xv6.Lib.Pool
import Xv6.Lib.Bytes
import Xv6.Lib.RedoLog
import Xv6.Log.Phase
import Xv6.Log.Recovery
import Xv6.Log.Machine
import Xv6.Log.GroupCommit
import Xv6.Log.Space
import Xv6.Fs.Fs
import Xv6.Fs.Volume
import Xv6.Lib.Ownership
import Xv6.Fs.Slots
import Xv6.Fs.Contents
import Xv6.Fs.Trunc
import Xv6.Fs.Owner
import Xv6.Lib.Words
import Xv6.Vm.Kalloc
import Xv6.Vm.Vm
import Xv6.Proc.Kernel
import Xv6.Proc.Sys
import Xv6.Lib.RefCount
import Xv6.Vm.Panics
import Xv6.Fs.Panics
import Xv6.Proc.Refs
import Xv6.Proc.Files
import Xv6.Proc.Layout
import Xv6.Proc.Lifetime
import Xv6.Vm.Table
import Xv6.Vm.Space
import Xv6.Vm.Copy
import Xv6.Vm.Free
import Xv6.Proc.Memory
import Xv6.Proc.Tables
import Xv6.Proc.Lives
import Xv6.Proc.Image
import Xv6.Proc.Isolated
import Xv6.Lib.Ring
import Xv6.Proc.Pipe
import Xv6.Sched.Cpus
import Xv6.Sched.Wakeup
import Xv6.Sched.Kill
import Xv6.Sched.Status
import Xv6.Lib.DList
import Xv6.Log.Lru
import Xv6.Log.Waiting
import Xv6.Fs.Itable
import Xv6.Fs.Names
import Xv6.Fs.Rooted
import Xv6.Fs.Orphans
import Xv6.Dev.Console
import Xv6.Proc.PipeLife
import Xv6.Sched.Interrupts
import Xv6.Sched.Sleeplock
import Xv6.Dev.Virtio
import Xv6.Fs.Room
import Xv6.Fs.Mkfs
import Xv6.Proc.SharedFile
import Xv6.Fs.Lookup
import Xv6.Fs.Splice
import Xv6.Fs.Budget
import Xv6.Proc.Sections
import Xv6.Proc.Read
import Xv6.Proc.Faults
import Xv6.Proc.Mmap
import Xv6.Proc.Munmap
import Xv6.Vm.Bytewise
import Xv6.Vm.Strings
import Xv6.Proc.PipeRead
import Xv6.Proc.Heap
import Xv6.Proc.Args
import Xv6.User.Ulib
import Xv6.User.Grep
import Xv6.User.Sh
