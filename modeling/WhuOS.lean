import WhuOS.Lib.Run
import WhuOS.Lib.Kern
import WhuOS.Lib.Ring
import WhuOS.Lib.Bytes
import WhuOS.Sched.Model
import WhuOS.Sched.Wakeup
import WhuOS.Sched.Tree
import WhuOS.Sched.OneCpu
import WhuOS.Sched.Sleeplock
import WhuOS.Mem.Machine
import WhuOS.Mem.Vmem
import WhuOS.Mem.Uvm
import WhuOS.Mem.Walk
import WhuOS.Mem.Own
import WhuOS.Mem.Map
import WhuOS.Mem.Fresh
import WhuOS.Mem.Copy
import WhuOS.Mem.Memmove
import WhuOS.Mem.CopyStr
import WhuOS.Mem.Pmem
import WhuOS.Proc.Model
import WhuOS.Proc.Space
import WhuOS.Proc.Boot
import WhuOS.Proc.Mmap
import WhuOS.Fs.Block
import WhuOS.Fs.Buf
import WhuOS.Fs.BufConc
import WhuOS.Fs.Lru
import WhuOS.Fs.File
import WhuOS.Fs.Mkfs
import WhuOS.Fs.Bitmap
import WhuOS.Fs.Calls
import WhuOS.Fs.Walk
import WhuOS.Fs.Tokens
import WhuOS.Proc.Munmap
import WhuOS.Proc.Reuse
import WhuOS.Proc.Leak
import WhuOS.Proc.Address
import WhuOS.Fs.Locking
import WhuOS.Mem.Kvm
import WhuOS.Mem.Translate
import WhuOS.Proc.Brk
import WhuOS.Proc.Destroy
import WhuOS.Proc.Sizes
import WhuOS.Sched.Myproc
import WhuOS.Sched.Timer
import WhuOS.Sched.Nesting
import WhuOS.Dev.Rings
import WhuOS.Fs.Reclaim
import WhuOS.Proc.Family
