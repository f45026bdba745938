import Xv6.Kernel.OneCpu
import Xv6.Kernel.Pid
import Xv6.Kernel.Tree
import Xv6.Pipe.Announce
import Xv6.Bio.Coherent
import Xv6.Fs.Table
import Xv6.Fs.Undo
import Xv6.Ftable.Calls
import Xv6.Console.Delivery
import Xv6.Virtio.Bookkeeping
import Xv6.Sleeplock
import Xv6.Shell.Parser
import Xv6.Shell.Run
import Xv6.Spin.Interrupts
import Xv6.Disk.Reclaim
import Xv6.Disk.Orderly
import Xv6.Grep
import Xv6.Routines
import Xv6.Fs.Directory
import Xv6.Kalloc
