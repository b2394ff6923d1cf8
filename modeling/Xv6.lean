import Xv6.Lib.Reach
import Xv6.Lib.Disk
import Xv6.Lib.Bytes
import Xv6.Lib.Mem
import Xv6.Lib.Word
import Xv6.Kernel.Param
import Xv6.Kernel.Log.Header
import Xv6.Kernel.Log.Commit
import Xv6.Lib.Count
import Xv6.Kernel.Log.Txn
import Xv6.Kernel.Pipe
import Xv6.Kernel.Console
import Xv6.Kernel.Fs.Layout
import Xv6.Kernel.Fs.Balloc
import Xv6.Kernel.Fs.Inode
import Xv6.Kernel.Fs.Mkfs
import Xv6.Kernel.Fs.System
import Xv6.Kernel.Fs.Dir
import Xv6.Kernel.Fs.Path
import Xv6.Kernel.Fs.Sysfile
import Xv6.Kernel.Fs.Files
import Xv6.Kernel.Fs.Content
import Xv6.Lib.Forest
import Xv6.Lib.DList
import Xv6.Kernel.Proc
import Xv6.Kernel.Pid
import Xv6.Kernel.Bio
import Xv6.Kernel.Log.Pin
import Xv6.Kernel.Virtio
import Xv6.Lib.Blocks
import Xv6.Lib.Cycle
import Xv6.User.Umalloc
import Xv6.Lib.Lang
import Xv6.User.Grep.Match
import Xv6.Lib.Buffer
import Xv6.User.Ulib
import Xv6.User.Grep.Lines
import Xv6.Kernel.Vm.Riscv
import Xv6.Kernel.Vm.Kalloc
import Xv6.Kernel.Vm.Walk
import Xv6.Kernel.Vm.Map
import Xv6.Kernel.Vm.Copy
import Xv6.Kernel.Vm.Fill
import Xv6.Kernel.Vm.Uvm
import Xv6.Lib.Format
import Xv6.Kernel.Printf
import Xv6.User.Printf
import Xv6.Kernel.Log.Recover
import Xv6.User.Sh.Grammar
import Xv6.User.Sh.Token
import Xv6.User.Sh.Parse
import Xv6.User.Sh.Sound
import Xv6.User.Sh.Complete
import Xv6.User.Sh.Parsecmd
import Xv6.Kernel.Uart
import Xv6.Kernel.Spinlock
import Xv6.Lib.Splice
import Xv6.Kernel.Fs.FileRw
import Xv6.Lib.Compare
import Xv6.Kernel.String
import Xv6.Lib.Words
import Xv6.Lib.Chunks
import Xv6.User.Wc
import Xv6.User.Cat
import Xv6.Kernel.Vm.Free
