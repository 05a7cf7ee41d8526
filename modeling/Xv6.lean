import Xv6.Lib.BlockWrite
import Xv6.Lib.Machine
import Xv6.Lib.Bytes
import Xv6.Lib.Scan
import Xv6.Lib.Keeps
import Xv6.Param
import Xv6.Log.Disk
import Xv6.Log.Trans
import Xv6.Fs.Layout
import Xv6.Fs.Inode
import Xv6.Fs.Dir
import Xv6.Fs.Syscall
import Xv6.Fs.System
import Xv6.Fs.View
import Xv6.Mkfs
import Xv6.Fs.Hole
import Xv6.Fs.Namespace
import Xv6.Mem.Kalloc
import Xv6.Mem.PageTable
import Xv6.Mem.Space
import Xv6.Mem.Uvm
import Xv6.Mem.Proc
import Xv6.Mem.Exec
import Xv6.Mem.ProcInv
import Xv6.Mem.Calls
import Xv6.Dev.Fb
import Xv6.Mem.Sbrk
import Xv6.File.Pipe
import Xv6.Lib.LinkedRing
import Xv6.Fs.Bio
import Xv6.Lib.RingWindow
import Xv6.Dev.Console
import Xv6.Proc.Tree
import Xv6.File.Table
import Xv6.Lib.Segments
import Xv6.Fs.Path
import Xv6.Mem.Trap
import Xv6.Mem.ExecRun
import Xv6.Mem.Runs
import Xv6.User.Umalloc
import Xv6.Lib.Chain
import Xv6.User.FreeRing
import Xv6.User.MallocLoop
import Xv6.User.Heap
import Xv6.Fs.Content
import Xv6.Dev.DebugGraph
import Xv6.Lib.Int32
import Xv6.Dev.Draw
import Xv6.Dev.Rle
import Xv6.User.Ulib
import Xv6.User.Grep
import Xv6.User.Sh
import Xv6.Dev.Printf
import Xv6.Dev.Virtio
import Xv6.Mem.Exact
import Xv6.Mem.NoLeak
import Xv6.Lock.Spinlock
import Xv6.User.Wc
import Xv6.Dev.Animation
import Xv6.Mem.Copyinstr
