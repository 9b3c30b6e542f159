import Dixv6.Lib.Wp
import Dixv6.Disk.Bio
import Dixv6.Disk.Log
import Dixv6.Disk.Coherence
import Dixv6.Disk.Install
import Dixv6.Disk.Flat
import Dixv6.Disk.Crash
import Dixv6.Lib.Forest
import Dixv6.Vm.Paging
import Dixv6.Vm.Proc
import Dixv6.Vm.Own
import Dixv6.Vm.Uvm
import Dixv6.Vm.Sbrk
import Dixv6.Vm.Exec
import Dixv6.Vm.Pointers
import Dixv6.Vm.Fault
import Dixv6.Vm.Frames
import Dixv6.Vm.Ledger
import Dixv6.Vm.Chart
import Dixv6.Vm.Leak
import Dixv6.Vm.GrowLeak
import Dixv6.Vm.ExecLeak
import Dixv6.Vm.Grow
import Dixv6.Fs.Format
import Dixv6.Fs.Inode
import Dixv6.Fs.Blocks
import Dixv6.Fs.Alloc
import Dixv6.Fs.Bmap
import Dixv6.Fs.Contents
import Dixv6.Fs.ByteFile
import Dixv6.Lib.Prog
import Dixv6.Sys.Op
import Dixv6.Sys.Path
import Dixv6.Sys.Call
import Dixv6.Fs.Trunc
import Dixv6.Sys.View
import Dixv6.Sys.Rep
import Dixv6.Sys.Handle
import Dixv6.Sys.Lookup
import Dixv6.Sys.Stray
import Dixv6.Sys.Table
import Dixv6.Sys.Entry
import Dixv6.Sys.Names
import Dixv6.Sys.Links
import Dixv6.Sys.Fail
import Dixv6.Sys.Paths
import Dixv6.Sys.Read
import Dixv6.Mkfs.Model
import Dixv6.Mkfs.Append
import Dixv6.Mkfs.Main
import Dixv6.Mkfs.Bitmap
import Dixv6.Mkfs.Check
import Dixv6.Lib.Threads
import Dixv6.Lib.Leaves
import Dixv6.Fs.Refs
import Dixv6.Sys.Shared
import Dixv6.Sys.Icache
import Dixv6.Console.Model
import Dixv6.Console.Lines
import Dixv6.Lib.Ring
import Dixv6.Pipes.Model
import Dixv6.Pipes.Fifo
import Dixv6.Pipes.Lifetime
import Dixv6.Pipes.Wakeup
import Dixv6.Procs.Table
import Dixv6.Procs.Slots
import Dixv6.Lib.Lts
import Dixv6.Sched.Machine
import Dixv6.Sched.Nesting
import Dixv6.Sched.Places
import Dixv6.Sched.Turn
import Dixv6.Sched.Switch
import Dixv6.Sched.Frame
import Dixv6.Sched.Sleep
import Dixv6.Sched.Reap
import Dixv6.Vm.Range
import Dixv6.Vm.Copy
import Dixv6.Vm.Copyout
import Dixv6.Vm.Image
import Dixv6.Vm.Args
import Dixv6.Vm.Mappages
import Dixv6.Trap.Alarm
import Dixv6.Trap.Handler
import Dixv6.Sys.Chunks
import Dixv6.Boot.Mp
import Dixv6.Boot.Bootmain
import Dixv6.User.Memmove
import Dixv6.User.Regex
import Dixv6.User.Grep
import Dixv6.User.Shell
