import Xv6.Bio.Pressure
import Xv6.Dev.Console
import Xv6.Dev.IdeError
import Xv6.Dev.MpTable
import Xv6.Ipc.Wakeup
import Xv6.Log.Space
import Xv6.Mem.CopyUvm
import Xv6.Mem.KernelMap
import Xv6.Mkfs.Within
import Xv6.Proc.ExecSafe
import Xv6.Proc.FileTable
import Xv6.Proc.Kill
import Xv6.Proc.Killable
import Xv6.Proc.Sbrk
import Xv6.Proc.TimeSlice
import Xv6.Proc.Transfer
import Xv6.Shell.Run
import Xv6.Shell.Safety
import Xv6.Sync.Deadlock
import Xv6.Sync.Interrupts
import Xv6.User.Grep
import Xv6.User.Heap
import Xv6.User.Memmove
